import HeapLens.Retained.Tree
import Mathlib.Algebra.BigOperators.Group.Finset
import Mathlib.Algebra.Order.BigOperators.Group.Finset

/-!
# Retained sizes

`RetainedSize` calls `computeRetained` from every key of the dominator tree of
`Dominators(g)`; `RetainedSizeSubsets` calls it from the requested objects,
with a memo of its own.  Every call has fuel above the measure of its node, so
every value either returns is the final subtree sum of its node, mod 2^64.  For
a reachable node that sum is the total size of the objects the node dominates:
the nodes that `v` dominates are `v` and, disjointly, the nodes that its
children in the tree dominate.
-/

namespace HeapLens.Graph

/-- The retained size of `x` before reduction mod 2^64: the final sum of the
self-sizes in its subtree of the dominator tree. -/
def retainedTotal (g : MemGraph) (x : ObjID) : Nat :=
  subtreeSize (dominatorTree (dominators g)) (objSizes g) (treeMeasure g x + 1) x

open Classical in
/-- `m` is the retained-size map of `g`: its keys are the objects reachable from
the roots, and the value of each is the total size of the objects it dominates. -/
def IsRetainedSizeMap (g : MemGraph) (m : GoMap ObjID UInt64) : Prop :=
  (∀ v, v ∈ m.keys ↔ v ∈ g.ids ∧ Reachable g v) ∧
    ∀ v r, m.get? v = some r →
      r.toNat = ∑ o ∈ g.objects.toFinset.filter (fun o => Dominates g v o.id), o.size.toNat

section Retained

variable {g : MemGraph} (h0 : ∀ o ∈ g.objects, o.id ≠ 0)
include h0

/-- The memo that the loop of `RetainedSize` leaves, before the super-root is
deleted: sound, and keyed by the super-root and the reachable nodes. -/
theorem retainedSize_memo :
    let tree := dominatorTree (dominators g)
    let m := tree.entries.foldl (fun retained e =>
      (computeRetained tree (objSizes g) (tree.entries.length + 1) e.1 retained).2) GoMap.empty
    MemoSound tree (objSizes g) (treeMeasure g) m ∧
      ∀ y, (m.get? y).isSome ↔ y = 0 ∨ Reachable g y := by
  intro tree m
  have hfold := foldl_computeRetained (treeMeasure_child h0) (tree.entries.map Prod.fst)
    GoMap.empty (fun x _ => treeMeasure_lt_fuel h0 x) (MemoSound.empty tree (objSizes g) (treeMeasure g))
  simp only [List.foldl_map] at hfold
  obtain ⟨hsound, hgrow, hnew⟩ := hfold
  refine ⟨hsound, fun y => ⟨fun hy => ?_, fun hy => hgrow y (.inr ?_)⟩⟩
  · rcases hnew y hy with h | h | ⟨z, hz⟩
    · simp at h
    · exact (isSome_get?_dominatorTree_dominators h0 y).1 ((GoMap.mem_keys _ _).1 h)
    · exact .inr (reachable_of_get? h0 ((mem_children_dominatorTree _).1 hz)).1
  · exact (GoMap.mem_keys _ _).2 ((isSome_get?_dominatorTree_dominators h0 y).2 hy)

/-- `RetainedSize` has an entry for exactly the reachable nodes other than the
super-root. -/
theorem isSome_get?_retainedSize (v : ObjID) :
    ((retainedSize g).get? v).isSome ↔ v ≠ 0 ∧ Reachable g v := by
  obtain ⟨-, hkeys⟩ := retainedSize_memo h0
  simp only [retainedSize, GoMap.get?_erase]
  split
  · simp [*]
  · rw [hkeys]
    simp [*]

theorem get?_retainedSize_toNat {v : ObjID} {r : UInt64} (h : (retainedSize g).get? v = some r) :
    r.toNat = retainedTotal g v % 2 ^ 64 := by
  obtain ⟨hsound, -⟩ := retainedSize_memo h0
  simp only [retainedSize, GoMap.get?_erase] at h
  split at h
  · simp at h
  · exact hsound v r h

/-- The ids `RetainedSizeSubsets` answers: those with a size, other than 0. -/
theorem eligible_iff (t : ObjID) : ((objSizes g t).isSome ∧ t ≠ 0) ↔ t ∈ g.ids := by
  by_cases ht : t = 0
  · subst ht
    simpa [MemGraph.mem_ids] using h0
  · simp [objSizes, ht, MemGraph.isSome_getObject]

/-- The loop of `RetainedSizeSubsets`, from any sound memo: each eligible
requested object gets its final sum, mod 2^64, and the rest of the answer map
is unchanged. -/
theorem get?_foldl_subsets (t : ObjID) : ∀ (l : List ObjID)
    (acc : GoMap ObjID UInt64 × GoMap ObjID UInt64),
    MemoSound (dominatorTree (dominators g)) (objSizes g) (treeMeasure g) acc.2 →
    (l.foldl (fun acc targetID =>
      if (objSizes g targetID).isSome ∧ targetID ≠ 0 then
        let (size, computed) := computeRetained (dominatorTree (dominators g)) (objSizes g)
          ((dominatorTree (dominators g)).entries.length + 1) targetID acc.2
        (acc.1.insert targetID size, computed)
      else acc) acc).1.get? t =
      if t ∈ l ∧ t ∈ g.ids then some (UInt64.ofNat (retainedTotal g t)) else acc.1.get? t
  | [], _, _ => by simp
  | x :: l, acc, hsound => by
    rw [List.foldl_cons]
    split
    · rename_i hx
      have hc := computeRetained_spec (treeMeasure_child h0) _ x acc.2
        (treeMeasure_lt_fuel h0 x) hsound
      rw [get?_foldl_subsets t l _ hc.sound]
      simp only [GoMap.get?_insert, List.mem_cons]
      by_cases htx : t = x
      · subst htx
        simp [(eligible_iff h0 t).1 hx, ofNat_eq_of_toNat hc.value, retainedTotal]
      · simp [htx]
    · rename_i hx
      rw [get?_foldl_subsets t l _ hsound]
      by_cases htx : t = x
      · subst htx
        simp [hx, (eligible_iff h0 t).not.1 hx]
      · simp [htx]

/-- `RetainedSizeSubsets` answers each requested object with its final sum,
mod 2^64. -/
theorem get?_retainedSizeSubsets (T : List ObjID) (t : ObjID) :
    (retainedSizeSubsets g T).get? t =
      if t ∈ T ∧ t ∈ g.ids then some (UInt64.ofNat (retainedTotal g t)) else none := by
  unfold retainedSizeSubsets
  split
  · subst T
    simp
  · dsimp only
    rw [get?_foldl_subsets h0 t T _ (MemoSound.empty _ _ _)]
    simp

/-- A node that is neither the super-root nor reachable has no children, so its
retained size is its own. -/
theorem retainedTotal_of_not_reachable {t : ObjID} (ht : ¬ Reachable g t) :
    retainedTotal g t = ((objSizes g t).getD 0).toNat := by
  have hnil : children (dominatorTree (dominators g)) t = [] :=
    List.eq_nil_iff_forall_not_mem.2 fun c hc =>
      ht (reachable_of_get? h0 ((mem_children_dominatorTree _).1 hc)).2
  rw [retainedTotal, subtreeSize_final (treeMeasure_child h0), hnil]
  simp

/-- The self-size that `objSizes` gives a node is the size of the object with
that id, if any. -/
theorem sum_objects_id (v : ObjID) :
    ∑ o ∈ g.objects.toFinset.filter (fun o => o.id = v), o.size.toNat =
      ((objSizes g v).getD 0).toNat := by
  by_cases hv : v = 0
  · subst hv
    rw [Finset.filter_false_of_mem fun o ho => h0 o (List.mem_toFinset.1 ho)]
    simp [objSizes]
  cases hget : g.getObject v with
  | none =>
    rw [Finset.filter_false_of_mem fun o ho hid =>
      MemGraph.getObject_eq_none.1 hget o (List.mem_toFinset.1 ho) hid]
    simp [objSizes, hv, hget]
  | some o =>
    obtain ⟨ho, rfl⟩ := MemGraph.getObject_eq_some.1 hget
    have hone : g.objects.toFinset.filter (fun o' => o'.id = o.id) = {o} := by
      ext o'
      simp only [Finset.mem_filter, List.mem_toFinset, Finset.mem_singleton]
      constructor
      · exact fun h => MemGraph.eq_of_id_eq h.1 ho h.2
      · rintro rfl
        exact ⟨ho, rfl⟩
    simp [hone, objSizes, hv, hget]

open Classical in
/-- The objects that a reachable `v` dominates: its own object, and the objects
that its children dominate. -/
theorem dominated_split {v : ObjID} (hv : Reachable g v) :
    g.objects.toFinset.filter (fun o => Dominates g v o.id) =
      g.objects.toFinset.filter (fun o => o.id = v) ∪
        (children (dominatorTree (dominators g)) v).toFinset.biUnion
          fun c => g.objects.toFinset.filter fun o => Dominates g c o.id := by
  ext o
  simp only [Finset.mem_filter, Finset.mem_union, Finset.mem_biUnion, List.mem_toFinset,
    mem_children_dominatorTree, dominates_iff_child h0 hv]
  constructor
  · rintro ⟨ho, h | ⟨c, hc, hco⟩⟩
    · exact .inl ⟨ho, h⟩
    · exact .inr ⟨c, hc, ho, hco⟩
  · rintro (⟨ho, h⟩ | ⟨c, hc, ho, hco⟩)
    · exact ⟨ho, .inl h⟩
    · exact ⟨ho, .inr ⟨c, hc, hco⟩⟩

open Classical in
/-- No child dominates its parent's object. -/
theorem dominated_disjoint_self (v : ObjID) :
    Disjoint (g.objects.toFinset.filter (fun o => o.id = v))
      ((children (dominatorTree (dominators g)) v).toFinset.biUnion
        fun c => g.objects.toFinset.filter fun o => Dominates g c o.id) := by
  rw [Finset.disjoint_biUnion_right]
  intro c hc
  rw [Finset.disjoint_filter]
  intro o _ hid hco
  rw [hid] at hco
  exact not_dominates_parent h0 ((mem_children_dominatorTree _).1 (List.mem_toFinset.1 hc)) hco

open Classical in
/-- Two children dominate disjoint sets of objects. -/
theorem dominated_pairwiseDisjoint (v : ObjID) :
    Set.PairwiseDisjoint ↑(children (dominatorTree (dominators g)) v).toFinset
      fun c => g.objects.toFinset.filter fun o => Dominates g c o.id := by
  intro c₁ hc₁ c₂ hc₂ hne
  rw [Function.onFun, Finset.disjoint_filter]
  intro o _ ho₁ ho₂
  exact hne (dominates_child_unique h0
    ((mem_children_dominatorTree _).1 (List.mem_toFinset.1 hc₁))
    ((mem_children_dominatorTree _).1 (List.mem_toFinset.1 hc₂)) ho₁ ho₂)

open Classical in
/-- The retained size of a reachable node is the total size of the objects it
dominates. -/
theorem retainedTotal_eq_sum {v : ObjID} (hv : Reachable g v) :
    retainedTotal g v =
      ∑ o ∈ g.objects.toFinset.filter (fun o => Dominates g v o.id), o.size.toNat := by
  have hchild : ∀ c ∈ (children (dominatorTree (dominators g)) v).toFinset,
      retainedTotal g c =
        ∑ o ∈ g.objects.toFinset.filter (fun o => Dominates g c o.id), o.size.toNat :=
    fun c hc => retainedTotal_eq_sum
      (reachable_of_get? h0 ((mem_children_dominatorTree _).1 (List.mem_toFinset.1 hc))).1
  calc retainedTotal g v
      = ((objSizes g v).getD 0).toNat +
          ((children (dominatorTree (dominators g)) v).map (retainedTotal g)).sum :=
        subtreeSize_final (treeMeasure_child h0) v
    _ = ((objSizes g v).getD 0).toNat +
          ∑ c ∈ (children (dominatorTree (dominators g)) v).toFinset,
            ∑ o ∈ g.objects.toFinset.filter (fun o => Dominates g c o.id), o.size.toNat := by
        rw [← List.sum_toFinset _ (nodup_children_dominatorTree _ v)]
        exact congrArg _ (Finset.sum_congr rfl hchild)
    _ = ∑ o ∈ g.objects.toFinset.filter (fun o => Dominates g v o.id), o.size.toNat := by
        rw [dominated_split h0 hv, Finset.sum_union (dominated_disjoint_self h0 v),
          Finset.sum_biUnion (dominated_pairwiseDisjoint h0 v), sum_objects_id h0]
termination_by treeMeasure g v
decreasing_by exact treeMeasure_child h0 v c (List.mem_toFinset.1 hc)

end Retained

theorem ne_zero_of_mem_ids {g : MemGraph} (h0 : ∀ o ∈ g.objects, o.id ≠ 0) {t : ObjID}
    (ht : t ∈ g.ids) : t ≠ 0 := by
  obtain ⟨o, ho, rfl⟩ := MemGraph.mem_ids.1 ht
  exact h0 o ho

/-- `RetainedSizeSubsets(g, T)` answers exactly the requested ids of objects:
with `RetainedSize(g)`'s entry when there is one, and otherwise, for an object
that is not reachable, with the object's own size. -/
theorem retainedSizeSubsets_get? (g : MemGraph) (h0 : ∀ o ∈ g.objects, o.id ≠ 0)
    (T : List ObjID) (t : ObjID) :
    (retainedSizeSubsets g T).get? t =
      if t ∈ T ∧ t ∈ g.ids then ((retainedSize g).get? t).or ((g.getObject t).map Object.size)
      else none := by
  rw [get?_retainedSizeSubsets h0]
  split
  · rename_i ht
    have ht0 := ne_zero_of_mem_ids h0 ht.2
    cases hr : (retainedSize g).get? t with
    | some r =>
      rw [ofNat_eq_of_toNat (get?_retainedSize_toNat h0 hr)]
      rfl
    | none =>
      have hnot : ¬ Reachable g t := fun h => by
        simpa [hr] using (isSome_get?_retainedSize h0 t).2 ⟨ht0, h⟩
      obtain ⟨o, ho⟩ := Option.isSome_iff_exists.1 (MemGraph.isSome_getObject.2 ht.2)
      rw [retainedTotal_of_not_reachable h0 hnot, objSizes, if_neg ht0, ho]
      simp only [Option.map_some', Option.getD_some, Option.none_or]
      rw [ofNat_eq_of_toNat (Nat.mod_eq_of_lt o.size.toNat_lt_size).symm]
  · rfl

/-- A root 1 and an object 2 that nothing points to. -/
def strayObject : MemGraph :=
  ⟨[{ id := 1, type := [], size := 100, ptrs := [], ptrsNil := true },
    { id := 2, type := [], size := 30, ptrs := [], ptrsNil := true }], [1], by decide⟩

/-- Asked for object 2, which the root 1 does not reach, `RetainedSizeSubsets`
answers with the object's size, while `RetainedSize` has no entry for it. -/
theorem retainedSizeSubsets_strayObject :
    (∀ o ∈ strayObject.objects, o.id ≠ 0) ∧ 2 ∈ strayObject.ids ∧
      (retainedSizeSubsets strayObject [2]).get? 2 = some 30 ∧
      (retainedSize strayObject).get? 2 = none := by
  decide

/-- With root and pointer ids that name objects, a node reachable from the
super-root other than itself is an object. -/
theorem mem_ids_of_reachable {g : MemGraph} (hroots : ∀ r ∈ g.roots, r ∈ g.ids)
    (hptrs : ∀ o ∈ g.objects, ∀ p ∈ o.ptrs, p ∈ g.ids) {v : ObjID} (hv : Reachable g v)
    (hv0 : v ≠ 0) : v ∈ g.ids := by
  obtain ⟨p, hp⟩ := hv
  obtain ⟨x, hx⟩ := hp.exists_edge_into (Ne.symm hv0)
  rcases hx with ⟨-, hr⟩ | ⟨o, ho, -, hvo⟩
  · exact hroots v hr
  · exact hptrs o ho v hvo

/-- On a graph with no object numbered 0, whose root and pointer ids name its
objects and whose sizes sum below 2^64, `RetainedSize` returns the retained-size
map. -/
theorem retainedSize_isRetainedSizeMap (g : MemGraph) (h0 : ∀ o ∈ g.objects, o.id ≠ 0)
    (hroots : ∀ r ∈ g.roots, r ∈ g.ids) (hptrs : ∀ o ∈ g.objects, ∀ p ∈ o.ptrs, p ∈ g.ids)
    (hsum : (g.objects.map fun o => o.size.toNat).sum < 2 ^ 64) :
    IsRetainedSizeMap g (retainedSize g) := by
  classical
  constructor
  · intro v
    rw [GoMap.mem_keys, isSome_get?_retainedSize h0]
    exact ⟨fun ⟨hv0, hv⟩ => ⟨mem_ids_of_reachable hroots hptrs hv hv0, hv⟩,
      fun ⟨hv, hr⟩ => ⟨ne_zero_of_mem_ids h0 hv, hr⟩⟩
  · intro v r hvr
    have hv := ((isSome_get?_retainedSize h0 v).1 (by rw [hvr]; rfl)).2
    have hbound : ∑ o ∈ g.objects.toFinset.filter (fun o => Dominates g v o.id), o.size.toNat <
        2 ^ 64 := calc
      _ ≤ ∑ o ∈ g.objects.toFinset, o.size.toNat :=
        Finset.sum_le_sum_of_subset (Finset.filter_subset _ _)
      _ = (g.objects.map fun o => o.size.toNat).sum :=
        List.sum_toFinset _ (g.ids_nodup.of_map Object.id)
      _ < 2 ^ 64 := hsum
    rw [get?_retainedSize_toNat h0 hvr, retainedTotal_eq_sum h0 hv, Nat.mod_eq_of_lt hbound]

theorem diamond_retainedSize :
    ((∀ o ∈ diamond.objects, o.id ≠ 0) ∧ (∀ r ∈ diamond.roots, r ∈ diamond.ids) ∧
      (∀ o ∈ diamond.objects, ∀ p ∈ o.ptrs, p ∈ diamond.ids) ∧
      (diamond.objects.map fun o => o.size.toNat).sum < 2 ^ 64) ∧
      IsRetainedSizeMap diamond (retainedSize diamond) :=
  ⟨⟨by decide, by decide, by decide, by decide⟩,
    retainedSize_isRetainedSizeMap diamond (by decide) (by decide) (by decide) (by decide)⟩

example : (retainedSize diamond).entries = [(2, 30), (4, 20), (3, 40), (1, 190)] := by decide

section Partition

variable {g : MemGraph} (h0 : ∀ o ∈ g.objects, o.id ≠ 0)
include h0

/-- With sizes that sum below 2^64, no retained size wraps. -/
theorem retainedTotal_lt (hsum : (g.objects.map fun o => o.size.toNat).sum < 2 ^ 64)
    {v : ObjID} (hv : Reachable g v) : retainedTotal g v < 2 ^ 64 := by
  classical
  calc retainedTotal g v
      = ∑ o ∈ g.objects.toFinset.filter (fun o => Dominates g v o.id), o.size.toNat :=
        retainedTotal_eq_sum h0 hv
    _ ≤ ∑ o ∈ g.objects.toFinset, o.size.toNat :=
        Finset.sum_le_sum_of_subset (Finset.filter_subset _ _)
    _ = (g.objects.map fun o => o.size.toNat).sum :=
        List.sum_toFinset _ (g.ids_nodup.of_map Object.id)
    _ < 2 ^ 64 := hsum

/-- With sizes that sum below 2^64, every value `RetainedSize` returns is the
retained size itself. -/
theorem get?_retainedSize_exact (hsum : (g.objects.map fun o => o.size.toNat).sum < 2 ^ 64)
    {v : ObjID} {r : UInt64} (h : (retainedSize g).get? v = some r) :
    r.toNat = retainedTotal g v := by
  have hv := ((isSome_get?_retainedSize h0 v).1 (by rw [h]; rfl)).2
  rw [get?_retainedSize_toNat h0 h, Nat.mod_eq_of_lt (retainedTotal_lt h0 hsum hv)]

/-- A child of the super-root in the dominator tree has its exact retained size
in `RetainedSize`'s answer. -/
theorem get?_retainedSize_child_zero
    (hsum : (g.objects.map fun o => o.size.toNat).sum < 2 ^ 64) {c : ObjID}
    (hc : c ∈ children (dominatorTree (dominators g)) 0) :
    (((retainedSize g).get? c).getD 0).toNat = retainedTotal g c := by
  have hkey := (mem_keys_dominators h0).1
    ((GoMap.mem_keys _ _).2 (by rw [(mem_children_dominatorTree _).1 hc]; rfl))
  obtain ⟨r, hr⟩ := Option.isSome_iff_exists.1 ((isSome_get?_retainedSize h0 c).2 hkey)
  rw [hr, Option.getD_some, get?_retainedSize_exact h0 hsum hr]

open Classical in
/-- The retained sizes of the super-root's children in the dominator tree, the
objects that no other object dominates, add up to the size of the reachable
heap: every reachable object is retained by exactly one of them. -/
theorem retainedSize_topLevel_sum (hsum : (g.objects.map fun o => o.size.toNat).sum < 2 ^ 64) :
    ((children (dominatorTree (dominators g)) 0).map
        fun c => (((retainedSize g).get? c).getD 0).toNat).sum =
      ∑ o ∈ g.objects.toFinset.filter (fun o => Reachable g o.id), o.size.toNat := by
  have hzero : Reachable g 0 := ⟨_, .single 0⟩
  calc ((children (dominatorTree (dominators g)) 0).map
          fun c => (((retainedSize g).get? c).getD 0).toNat).sum
      = ((children (dominatorTree (dominators g)) 0).map (retainedTotal g)).sum :=
        congrArg List.sum (List.map_congr_left fun c hc =>
          get?_retainedSize_child_zero h0 hsum hc)
    _ = retainedTotal g 0 := by
        rw [retainedTotal, subtreeSize_final (treeMeasure_child h0) 0]
        simp only [objSizes, if_true, Option.getD_some, UInt64.toNat_zero, Nat.zero_add]
        rfl
    _ = ∑ o ∈ g.objects.toFinset.filter (fun o => Reachable g o.id), o.size.toNat := by
        rw [retainedTotal_eq_sum h0 hzero]
        exact Finset.sum_congr (Finset.filter_congr fun o _ =>
          ⟨And.left, fun h => ⟨h, fun _ hp => hp.head_mem⟩⟩) fun _ _ => rfl

/-- What a node dominates, its dominators dominate too. -/
theorem retainedTotal_le_of_dominates {d v : ObjID} (hdv : Dominates g d v) :
    retainedTotal g v ≤ retainedTotal g d := by
  classical
  rw [retainedTotal_eq_sum h0 hdv.1, retainedTotal_eq_sum h0 (hdv.1.of_onEveryPath hdv.2)]
  refine Finset.sum_le_sum_of_subset fun o ho => ?_
  rw [Finset.mem_filter] at ho ⊢
  exact ⟨ho.1, ho.2.1, hdv.2.trans ho.2.2⟩

/-- Retained sizes grow up the dominator tree: `RetainedSize` has an entry for
every object `d` that dominates `v` and for `v`, and `d` retains at least as
much as `v`. -/
theorem retainedSize_le_of_dominates
    (hsum : (g.objects.map fun o => o.size.toNat).sum < 2 ^ 64) {d v : ObjID} (hd0 : d ≠ 0)
    (hdv : Dominates g d v) :
    ∃ rd rv, (retainedSize g).get? d = some rd ∧ (retainedSize g).get? v = some rv ∧
      rv.toNat ≤ rd.toNat := by
  have hv0 : v ≠ 0 := fun hv => hd0 (hv ▸ hdv.2).eq_zero
  obtain ⟨rd, hrd⟩ := Option.isSome_iff_exists.1
    ((isSome_get?_retainedSize h0 d).2 ⟨hd0, hdv.1.of_onEveryPath hdv.2⟩)
  obtain ⟨rv, hrv⟩ := Option.isSome_iff_exists.1 ((isSome_get?_retainedSize h0 v).2 ⟨hv0, hdv.1⟩)
  refine ⟨rd, rv, hrd, hrv, ?_⟩
  rw [get?_retainedSize_exact h0 hsum hrd, get?_retainedSize_exact h0 hsum hrv]
  exact retainedTotal_le_of_dominates h0 hdv

end Partition

open Classical in
theorem diamond_retainedSize_topLevel_sum :
    ((∀ o ∈ diamond.objects, o.id ≠ 0) ∧ (diamond.objects.map fun o => o.size.toNat).sum < 2 ^ 64) ∧
      ((children (dominatorTree (dominators diamond)) 0).map
          fun c => (((retainedSize diamond).get? c).getD 0).toNat).sum =
        ∑ o ∈ diamond.objects.toFinset.filter (fun o => Reachable diamond o.id), o.size.toNat :=
  ⟨⟨by decide, by decide⟩, retainedSize_topLevel_sum (by decide) (by decide)⟩

/-- In a graph with a single root and no object numbered 0, every path from the
super-root enters the root first, so the root dominates every reachable node
but the super-root. -/
theorem onEveryPath_of_roots_eq {g : MemGraph} (h0 : ∀ o ∈ g.objects, o.id ≠ 0) {r v : ObjID}
    (hr : g.roots = [r]) (hv : v ≠ 0) : OnEveryPath g r v := by
  intro p hp
  cases hp with
  | single => exact absurd rfl hv
  | cons hedge hp' =>
    rcases hedge with ⟨-, hb⟩ | ⟨o, ho, hid, -⟩
    · rw [hr, List.mem_singleton] at hb
      subst hb
      exact List.mem_cons_of_mem _ hp'.head_mem
    · exact absurd hid (h0 o ho)

/-- The diamond's root 1 dominates its bottom object 4, which two paths reach. -/
theorem dominates_diamond_one_four : Dominates diamond 1 4 :=
  ⟨⟨[0, 1, 2, 4], .cons (by decide) (.cons (by decide) (.cons (by decide) (.single 4)))⟩,
    onEveryPath_of_roots_eq (by decide) rfl (by decide)⟩

theorem diamond_retainedSize_le_of_dominates :
    ((∀ o ∈ diamond.objects, o.id ≠ 0) ∧
      (diamond.objects.map fun o => o.size.toNat).sum < 2 ^ 64 ∧ (1 : ObjID) ≠ 0 ∧
      Dominates diamond 1 4) ∧
    ∃ rd rv, (retainedSize diamond).get? 1 = some rd ∧ (retainedSize diamond).get? 4 = some rv ∧
      rv.toNat ≤ rd.toNat :=
  ⟨⟨by decide, by decide, by decide, dominates_diamond_one_four⟩,
    retainedSize_le_of_dominates (by decide) (by decide) (by decide) dominates_diamond_one_four⟩

end HeapLens.Graph
