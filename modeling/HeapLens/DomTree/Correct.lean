import HeapLens.DomTree.Walk
import HeapLens.Retained.Tree

/-!
# The dominator-tree utilities on `Dominators(g)`

On the map that `Dominators` returns, DFS numbers drop at each entry and the
super-root has no entry, so the walk up from a node visits each node at most
once; it meets exactly the node itself and the nodes that dominate it in `G'`.
Hence `IsDominated` decides dominance in `G'`, `DominatorPath` lists the
dominators of a node from the node up to the super-root, and `DominatorDepth`
over the dominator tree gives the super-root and every reachable node the
length of that list less one.
-/

namespace HeapLens.Graph

/-- The level of `y` below the super-root: the nodes on `DominatorPath` above it. -/
def pathLevel (g : MemGraph) (y : ObjID) : Nat :=
  ((dominatorPath (dominators g) y).getD []).length - 1

/-- The super-root lies on every path from itself, so it dominates exactly the
reachable nodes. -/
theorem dominates_zero_iff {g : MemGraph} {v : ObjID} : Dominates g 0 v ↔ Reachable g v :=
  ⟨And.left, fun h => ⟨h, fun _ hp => hp.head_mem⟩⟩

section Walks

variable {g : MemGraph} (h0 : ∀ o ∈ g.objects, o.id ≠ 0)
include h0

theorem dominators_rank_lt {y d : ObjID} (h : (dominators g).get? y = some d) :
    (searchState g).num d < (searchState g).num y :=
  (dominators_rank h0 h).1

omit h0 in
theorem get?_dominators_zero : (dominators g).get? 0 = none := by
  simp [get?_dominators]

/-- The DFS numbers stay below the fuel that `IsDominated` and `DominatorPath`
give their loops: the vertices numbered from 1 are distinct keys. -/
theorem num_lt_fuel (v : ObjID) :
    (searchState g).num v < (dominators g).entries.length + 1 := by
  have hd := searchState_done h0
  have hv0 := hd.inv.root.1
  have hsub : (List.range' 1 ((searchState g).dfsNum - 1)).map (searchState g).vertex ⊆
      (dominators g).keys := by
    intro x hx
    obtain ⟨j, hj, rfl⟩ := List.mem_map.1 hx
    rw [List.mem_range'_1] at hj
    refine (mem_keys_dominators h0).2 ⟨fun h => ?_, reachable_vertex h0 hd (by omega)⟩
    have := hd.inv.vertex_injective (by omega) hd.inv.current (h.trans hv0.symm)
    omega
  have hnd : ((List.range' 1 ((searchState g).dfsNum - 1)).map (searchState g).vertex).Nodup :=
    (List.nodup_range' _ _).map_on fun a ha b hb hab => by
      rw [List.mem_range'_1] at ha hb
      exact hd.inv.vertex_injective (by omega) (by omega) hab
  have hlen := (List.subperm_of_subset hnd hsub).length_le
  simp only [List.length_map, List.length_range', GoMap.keys] at hlen
  have hnum : (searchState g).num v < (searchState g).dfsNum ∨ (searchState g).num v = 0 := by
    unfold LTState.num
    cases h : (searchState g).dfnum v with
    | none => exact .inr rfl
    | some j => exact .inl (hd.inv.vertex_dfnum v j h).1
  omega

/-- A node that dominates `v` is met on the walk up from `v`. -/
theorem onWalk_of_dominates {x v : ObjID} (h : Dominates g x v) : OnWalk (dominators g) x v := by
  rcases (onEveryPath_iff_idom h0 h.1).1 h.2 with rfl | ⟨d, hvd, hxd⟩
  · exact .refl
  · exact .up hvd (onWalk_of_dominates ⟨(reachable_of_get? h0 hvd).2, hxd⟩)
termination_by (searchState g).num v
decreasing_by exact dominators_rank_lt h0 hvd

/-- The walk up `Dominators(g)` from `v` meets `v` and the nodes that dominate
it in `G'`. -/
theorem onWalk_dominators_iff {x v : ObjID} :
    OnWalk (dominators g) x v ↔ x = v ∨ Dominates g x v := by
  constructor
  · intro h
    induction h with
    | refl => exact .inl rfl
    | @up y d hyd _ ih =>
      have hdy := (dominators_idom h0 hyd).2.1
      rcases ih with rfl | ⟨-, hxd⟩
      · exact .inr ⟨(reachable_of_get? h0 hyd).1, hdy⟩
      · exact .inr ⟨(reachable_of_get? h0 hyd).1, hxd.trans hdy⟩
  · rintro (rfl | h)
    · exact .refl
    · exact onWalk_of_dominates h0 h

/-- `IsDominated` on `Dominators(g)` returns, and answers whether `a` is `v` or
dominates `v` in `G'`. -/
theorem isDominated_dominators (v a : ObjID) :
    ∃ b, isDominated (dominators g) v a = some b ∧ (b = true ↔ a = v ∨ Dominates g a v) := by
  obtain ⟨b, hb, hiff⟩ := isDominated_spec (fun _ _ => dominators_rank_lt h0) get?_dominators_zero
    a (num_lt_fuel h0 v)
  exact ⟨b, hb, hiff.trans (onWalk_dominators_iff h0)⟩

omit h0 in
theorem isDominated_dominators_diamond :
    (∀ o ∈ diamond.objects, o.id ≠ 0) ∧ ∃ b, isDominated (dominators diamond) 4 1 = some b ∧
      (b = true ↔ 1 = 4 ∨ Dominates diamond 1 4) :=
  ⟨by decide, isDominated_dominators (by decide) 4 1⟩

example : isDominated (dominators diamond) 4 1 = some true ∧
    isDominated (dominators diamond) 4 2 = some false := by decide

/-- `DominatorPath` on `Dominators(g)` returns a walk up from every node. -/
theorem dominatorPath_walk (v : ObjID) :
    ∃ p, dominatorPath (dominators g) v = some p ∧ IsWalkPath (dominators g) v p :=
  dominatorPath_spec (fun _ _ => dominators_rank_lt h0) get?_dominators_zero (num_lt_fuel h0 v)

/-- `DominatorPath` on `Dominators(g)` returns `v`, each immediate dominator
upwards, and the super-root, each once: the nodes that dominate `v` in `G'`,
with `v` and 0 also for a node that is not reachable. -/
theorem dominatorPath_dominators (v : ObjID) :
    ∃ p, dominatorPath (dominators g) v = some p ∧ IsWalkPath (dominators g) v p ∧
      ∀ x, x ∈ p ↔ x = v ∨ x = 0 ∨ Dominates g x v := by
  obtain ⟨p, hp, hpath⟩ := dominatorPath_walk h0 v
  refine ⟨p, hp, hpath, fun x => ?_⟩
  rw [hpath.mem, onWalk_dominators_iff h0, or_right_comm, or_assoc]

omit h0 in
theorem dominatorPath_dominators_diamond :
    (∀ o ∈ diamond.objects, o.id ≠ 0) ∧ ∃ p, dominatorPath (dominators diamond) 4 = some p ∧
      IsWalkPath (dominators diamond) 4 p ∧ ∀ x, x ∈ p ↔ x = 4 ∨ x = 0 ∨ Dominates diamond x 4 :=
  ⟨by decide, dominatorPath_dominators (by decide) 4⟩

example : dominatorPath (dominators diamond) 4 = some [4, 1, 0] := by decide

theorem pathLevel_zero : pathLevel g 0 = 0 := by
  obtain ⟨p, hp, hpath⟩ := dominatorPath_walk h0 0
  simp [pathLevel, hp, hpath.length_eq (isWalkPath_zero get?_dominators_zero)]

/-- One step down the dominator tree is one level. -/
theorem pathLevel_of_get? {y d : ObjID} (hyd : (dominators g).get? y = some d) :
    pathLevel g y = pathLevel g d + 1 := by
  obtain ⟨p, hp, hpath⟩ := dominatorPath_walk h0 y
  obtain ⟨q, hq, hqath⟩ := dominatorPath_walk h0 d
  have hlen := hpath.length_eq (hqath.cons (fun _ _ => dominators_rank_lt h0)
    get?_dominators_zero hyd)
  have hq0 : q ≠ [] := fun h => by simpa [h] using hqath.head
  have := List.length_pos.2 hq0
  simp only [pathLevel, hp, hq, Option.getD_some, hlen, List.length_cons]
  omega

/-- `DominatorDepth` of the dominator tree of `Dominators(g)` returns, with an
entry for exactly the super-root and the reachable nodes: the length of the
node's `DominatorPath` less one, the count of the nodes that dominate it other
than itself. -/
theorem dominatorDepth_dominators :
    ∃ depth, dominatorDepth (dominatorTree (dominators g)) = some depth ∧
      ∀ v, (v = 0 ∨ Reachable g v → ∃ p, dominatorPath (dominators g) v = some p ∧
          depth.get? v = some (p.length - 1)) ∧
        (¬ (v = 0 ∨ Reachable g v) → depth.get? v = none) := by
  obtain ⟨depth, hdepth, hpost⟩ := computeDepth_spec
    (fun _ _ => mem_children_dominatorTree (dominators g))
    (nodup_children_dominatorTree (dominators g)) (fun _ _ => dominators_rank_lt h0)
    (fun y d h => treeMeasure_child h0 d y ((mem_children_dominatorTree _).2 h))
    (fun _ _ => pathLevel_of_get? h0) _ 0 0 GoMap.empty (treeMeasure_lt_fuel h0 0)
  have hwalk : ∀ v, OnWalk (dominators g) 0 v ↔ v = 0 ∨ Reachable g v := fun v => by
    rw [onWalk_dominators_iff h0, dominates_zero_iff, eq_comm]
  refine ⟨depth, hdepth, fun v => ⟨fun hv => ?_, fun hv => ?_⟩⟩
  · obtain ⟨p, hp, -⟩ := dominatorPath_walk h0 v
    refine ⟨p, hp, ?_⟩
    rw [(hpost v).1 ((hwalk v).2 hv), pathLevel_zero h0]
    simp [pathLevel, hp]
  · rw [(hpost v).2 (mt (hwalk v).1 hv), GoMap.get?_empty]

omit h0 in
theorem dominatorDepth_dominators_diamond :
    (∀ o ∈ diamond.objects, o.id ≠ 0) ∧
      ∃ depth, dominatorDepth (dominatorTree (dominators diamond)) = some depth ∧
        ∀ v, (v = 0 ∨ Reachable diamond v → ∃ p, dominatorPath (dominators diamond) v = some p ∧
            depth.get? v = some (p.length - 1)) ∧
          (¬ (v = 0 ∨ Reachable diamond v) → depth.get? v = none) :=
  ⟨by decide, dominatorDepth_dominators (by decide)⟩

example : (dominatorDepth (dominatorTree (dominators diamond))).map GoMap.entries =
    some [(0, 0), (1, 1), (2, 2), (4, 2), (3, 2)] := by decide

end Walks

end HeapLens.Graph
