import HeapLens.Dump.ParseGraph
import HeapLens.Graph.Retained

/-!
# From dumps to dominators

The graph `GoHeapParser.Parse` builds numbers its objects from 0, while
`Dominators` and `RetainedSize` use id 0 for the super-root.  The first object
of every parsed dump has the super-root's id, and its non-nil, empty pointer
list replaces the super-root's edges to the roots.  The depth-first search of
`Dominators` then numbers the super-root alone, so on every dump that the parser
accepts with an object, `Dominators` and `RetainedSize` return empty maps.
-/

namespace HeapLens

open HeapLens.Graph HeapLens.Dump Function

/-- On the spec's round-trip dump, whose root is the first object, the parser
returns the roots `[0]`, and neither `Dominators` nor `RetainedSize` has an
entry for that root. -/
theorem scenarioF_dominators_retainedSize :
    (GoHeapParser.parse scenarioF).toOption.map
        (fun g => (g.roots, (dominators g).entries, (retainedSize g).entries)) =
      some ([0], [], []) := by
  rfl

/-! ## The super-root's adjacency list -/

/-- Objects under other ids leave `adj[a]` alone. -/
theorem foldl_adj_of_not_mem (os : List Object) (f : ObjID → List ObjID) {a : ObjID}
    (ha : ∀ o ∈ os, o.id ≠ a) :
    os.foldl (fun adj obj => if obj.ptrsNil then adj else update adj obj.id obj.ptrs) f a = f a := by
  induction os generalizing f with
  | nil => rfl
  | cons o os ih =>
    rw [List.foldl_cons, ih _ fun o' ho' => ha o' (List.mem_cons_of_mem _ ho')]
    split <;> simp [update_noteq (ha o (List.mem_cons_self _ _)).symm]

/-- An object with a non-nil pointer list sets the list under its id, whatever
was there before. -/
theorem foldl_adj_of_mem {os : List Object} (hnd : (os.map Object.id).Nodup) {o : Object}
    (ho : o ∈ os) (hnil : o.ptrsNil = false) (f : ObjID → List ObjID) :
    os.foldl (fun adj obj => if obj.ptrsNil then adj else update adj obj.id obj.ptrs) f o.id =
      o.ptrs := by
  induction os generalizing f with
  | nil => cases ho
  | cons o' os ih =>
    rw [List.map_cons, List.nodup_cons] at hnd
    rw [List.foldl_cons]
    rcases List.mem_cons.1 ho with rfl | ho
    · have hfresh : ∀ x ∈ os, x.id ≠ o.id := fun x hx h =>
        hnd.1 (h ▸ List.mem_map_of_mem Object.id hx)
      rw [foldl_adj_of_not_mem _ _ hfresh, if_neg (by simp [hnil]), update_same]
    · exact ih hnd.2 ho _

/-- With no successor of the super-root, the search numbers the super-root alone
and `Dominators` returns an empty map. -/
theorem dominators_of_buildAdj_zero {g : MemGraph} (h : buildAdj g 0 = []) :
    dominators g = GoMap.empty := by
  have hs : dominatorsState g = LTState.init.visit 0 (-1) := by
    simp only [dominatorsState, dfs_succ, h]
    rfl
  simp only [dominators, hs]
  rfl

/-- With an empty dominator map, the tree is the super-root alone, whose entry
`RetainedSize` deletes. -/
theorem retainedSize_of_dominators {g : MemGraph} (h : dominators g = GoMap.empty) :
    retainedSize g = GoMap.empty := by
  unfold retainedSize
  rw [h]
  rfl

/-- On every dump that `GoHeapParser.Parse` accepts with at least one object,
`Dominators` and `RetainedSize` of the graph return empty maps: object 0 takes
the super-root's place in the adjacency lists, with no pointer. -/
theorem dominators_goHeapParser_parse {bs : List UInt8} {g : MemGraph}
    (h : GoHeapParser.parse bs = .ok g) (hne : g.objects ≠ []) :
    dominators g = GoMap.empty ∧ retainedSize g = GoMap.empty := by
  obtain ⟨hids, hobjs, -⟩ := goHeapParser_parse_noEdges h
  have hzero : (0 : ObjID) ∈ g.ids := by
    rw [hids, List.mem_range]
    exact List.length_pos.2 hne
  obtain ⟨o, ho, hid⟩ := MemGraph.mem_ids.1 hzero
  have hadj : buildAdj g 0 = [] := by
    rw [← hid, buildAdj, foldl_adj_of_mem g.ids_nodup ho (hobjs o ho).2, (hobjs o ho).1]
  have hdom := dominators_of_buildAdj_zero hadj
  exact ⟨hdom, retainedSize_of_dominators hdom⟩

theorem dominators_goHeapParser_parse_scenarioF :
    (GoHeapParser.parse scenarioF = .ok scenarioFGraph ∧ scenarioFGraph.objects ≠ []) ∧
      dominators scenarioFGraph = GoMap.empty ∧ retainedSize scenarioFGraph = GoMap.empty :=
  have h : GoHeapParser.parse scenarioF = .ok scenarioFGraph := rfl
  ⟨⟨h, by decide⟩, dominators_goHeapParser_parse h (by decide)⟩

end HeapLens
