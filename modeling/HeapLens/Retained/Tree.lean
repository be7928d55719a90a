import HeapLens.Retained.Memo
import HeapLens.Dominance.Order

/-!
# The dominator tree

`DominatorTree` inverts an immediate-dominator map: the children of `x` are the
keys whose value is `x`, in map order, and the keys of the tree are 0, the keys
of the map and its values.  Over the map that `Dominators` returns, the keys of
the tree are the super-root and the reachable nodes, and a child has a larger
DFS number than its parent; so the count of DFS numbers above a node is a
measure for `computeRetained`, and the fuel `len(tree) + 1` exceeds it.
-/

namespace HeapLens.Graph

@[simp]
theorem children_insert (t : GoMap ObjID (List ObjID)) (k x : ObjID) (v : List ObjID) :
    children (t.insert k v) x = if x = k then v else children t x := by
  unfold children
  rw [GoMap.get?_insert]
  split <;> rfl

theorem isSome_get?_insert {α : Type} (t : GoMap ObjID α) (k x : ObjID) (v : α) :
    ((t.insert k v).get? x).isSome ↔ x = k ∨ (t.get? x).isSome := by
  rw [GoMap.get?_insert]
  split <;> simp [*]

section Tree

variable (idom : GoMap ObjID ObjID)

/-- The first pass: an empty child list under every key. -/
theorem foldl_insert_nil (l : List (ObjID × ObjID)) (t : GoMap ObjID (List ObjID)) (x : ObjID) :
    children (l.foldl (fun t e => t.insert e.1 []) t) x = children t x ∨
      children (l.foldl (fun t e => t.insert e.1 []) t) x = [] := by
  induction l generalizing t with
  | nil => exact .inl rfl
  | cons e l ih =>
    rcases ih (t.insert e.1 []) with h | h
    · rw [List.foldl_cons, h, children_insert]
      split
      · exact .inr rfl
      · exact .inl rfl
    · exact .inr h

theorem isSome_foldl_insert {α : Type} (l : List (ObjID × ObjID)) (f : ObjID × ObjID → α)
    (t : GoMap ObjID α) (x : ObjID) :
    ((l.foldl (fun t e => t.insert e.1 (f e)) t).get? x).isSome ↔
      x ∈ l.map Prod.fst ∨ (t.get? x).isSome := by
  induction l generalizing t with
  | nil => simp
  | cons e l ih =>
    rw [List.foldl_cons, ih, isSome_get?_insert, List.map_cons, List.mem_cons]
    tauto

/-- The second pass appends each key to the list of its value. -/
theorem children_foldl_append (l : List (ObjID × ObjID)) (t : GoMap ObjID (List ObjID))
    (x : ObjID) :
    children (l.foldl (fun t e => t.insert e.2 ((t.get? e.2).getD [] ++ [e.1])) t) x =
      children t x ++ (l.filter (·.2 = x)).map Prod.fst := by
  induction l generalizing t with
  | nil => simp
  | cons e l ih =>
    rw [List.foldl_cons, ih, List.filter_cons]
    by_cases hx : e.2 = x
    · subst hx
      rw [children_insert, if_pos rfl]
      simp [children]
    · simp [hx, Ne.symm hx]

theorem isSome_foldl_append (l : List (ObjID × ObjID)) (t : GoMap ObjID (List ObjID))
    (x : ObjID) :
    ((l.foldl (fun t e => t.insert e.2 ((t.get? e.2).getD [] ++ [e.1])) t).get? x).isSome ↔
      x ∈ l.map Prod.snd ∨ (t.get? x).isSome := by
  induction l generalizing t with
  | nil => simp
  | cons e l ih =>
    rw [List.foldl_cons, ih, isSome_get?_insert, List.map_cons, List.mem_cons]
    tauto

/-- The children of `x` are the keys whose value is `x`, in map order. -/
theorem children_dominatorTree (x : ObjID) :
    children (dominatorTree idom) x = (idom.entries.filter (·.2 = x)).map Prod.fst := by
  rw [dominatorTree, children_foldl_append, children_insert]
  have hinit : children (idom.entries.foldl (fun t e => t.insert e.1 []) GoMap.empty) x = [] :=
    (foldl_insert_nil _ _ x).elim id id
  split <;> simp [hinit]

theorem mem_children_dominatorTree {c x : ObjID} :
    c ∈ children (dominatorTree idom) x ↔ idom.get? c = some x := by
  rw [children_dominatorTree, ← GoMap.mem_entries]
  simp

theorem nodup_children_dominatorTree (x : ObjID) : (children (dominatorTree idom) x).Nodup := by
  rw [children_dominatorTree]
  exact (List.Sublist.map Prod.fst (List.filter_sublist _)).nodup idom.keys_nodup

/-- The keys of the tree: 0, the keys of the map and its values. -/
theorem isSome_get?_dominatorTree (x : ObjID) :
    ((dominatorTree idom).get? x).isSome ↔ x = 0 ∨ x ∈ idom.keys ∨ ∃ k, idom.get? k = some x := by
  rw [dominatorTree, isSome_foldl_append, isSome_get?_insert,
    isSome_foldl_insert _ (fun _ => ([] : List ObjID))]
  simp only [GoMap.get?_empty, Option.isSome_none, Bool.false_eq_true, or_false, List.mem_map,
    Prod.exists, exists_and_right, exists_eq_right, GoMap.mem_entries, GoMap.keys]
  tauto

end Tree

section Measure

variable {g : MemGraph} (h0 : ∀ o ∈ g.objects, o.id ≠ 0)
include h0

/-- The count of DFS numbers from a node's own upwards. -/
def treeMeasure (g : MemGraph) (y : ObjID) : Nat :=
  (searchState g).dfsNum - (searchState g).num y

theorem treeMeasure_child (x : ObjID) :
    ∀ c ∈ children (dominatorTree (dominators g)) x, treeMeasure g c < treeMeasure g x := by
  intro c hc
  have := dominators_rank h0 ((mem_children_dominatorTree _).1 hc)
  unfold treeMeasure
  omega

/-- The keys of the tree are the super-root and the nodes reachable from it. -/
theorem isSome_get?_dominatorTree_dominators (x : ObjID) :
    ((dominatorTree (dominators g)).get? x).isSome ↔ x = 0 ∨ Reachable g x := by
  rw [isSome_get?_dominatorTree, mem_keys_dominators h0]
  constructor
  · rintro (h | ⟨-, h⟩ | ⟨k, hk⟩)
    · exact .inl h
    · exact .inr h
    · exact .inr (reachable_of_get? h0 hk).2
  · rintro (h | h)
    · exact .inl h
    · by_cases hx : x = 0
      · exact .inl hx
      · exact .inr (.inl ⟨hx, h⟩)

theorem treeMeasure_lt_fuel (y : ObjID) :
    treeMeasure g y < (dominatorTree (dominators g)).entries.length + 1 := by
  have hd := searchState_done h0
  have hsub : (List.range (searchState g).dfsNum).map (searchState g).vertex ⊆
      (dominatorTree (dominators g)).keys := by
    intro x hx
    obtain ⟨j, hj, rfl⟩ := List.mem_map.1 hx
    rw [GoMap.mem_keys, isSome_get?_dominatorTree_dominators h0]
    exact .inr (reachable_vertex h0 hd (List.mem_range.1 hj))
  have hnd : ((List.range (searchState g).dfsNum).map (searchState g).vertex).Nodup :=
    (List.nodup_range _).map_on fun a ha b hb hab =>
      hd.inv.vertex_injective (List.mem_range.1 ha) (List.mem_range.1 hb) hab
  have hlen := (List.subperm_of_subset hnd hsub).length_le
  simp only [List.length_map, List.length_range, GoMap.keys] at hlen
  unfold treeMeasure
  omega

end Measure

end HeapLens.Graph
