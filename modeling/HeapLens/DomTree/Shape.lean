import HeapLens.DomTree.Walk
import HeapLens.Retained.Tree
import Mathlib.Data.List.Chain

/-!
# The dominator-tree utilities on every map of the shape `Dominators` returns

In a map whose values are 0 or keys, and in which the walk up from every key
reaches 0 after one step or more without visiting a node twice, each key `v`
has the chain `[v, idom(v), …, 0]` and 0 has the chain `[0]`.  The loops of
`DominatorPath` and `IsDominated` follow the chain to its end; `DominatorTree`
puts every key once, in the child list of its value; and the recursion of
`computeDepth` down those lists gives every node on a chain its length less
one, the chain lengths serving as the rank of the walks.
-/

namespace HeapLens.Graph

/-- `p` is the chain `[v, idom(v), …, 0]`: it starts at `v`, follows `idom`,
ends at 0, and visits no node twice. -/
structure IsIdomChain (idom : GoMap ObjID ObjID) (v : ObjID) (p : List ObjID) : Prop where
  head : p.head? = some v
  last : p.getLast? = some 0
  chain : p.Chain' fun x y => idom.get? x = some y
  nodup : p.Nodup

/-- The walk up `idom` from `k` reaches 0 after one step or more, visiting no
node twice. -/
def ReachesZero (idom : GoMap ObjID ObjID) (k : ObjID) : Prop :=
  ∃ c, c ≠ [] ∧ IsIdomChain idom k (k :: c)

/-- The shape of the maps `Dominators` returns: every value is 0 or a key, and
the walk from every key reaches 0. -/
structure IdomShape (idom : GoMap ObjID ObjID) : Prop where
  value : ∀ k d, idom.get? k = some d → d = 0 ∨ d ∈ idom.keys
  reaches : ∀ k ∈ idom.keys, ReachesZero idom k

section Chain

variable {idom : GoMap ObjID ObjID}

theorem IsIdomChain.zero : IsIdomChain idom 0 [0] := ⟨rfl, rfl, .nil, List.nodup_singleton 0⟩

/-- Past its first node, a chain is the chain of that node's value. -/
theorem IsIdomChain.tail {k d : ObjID} {c : List ObjID} (h : IsIdomChain idom k (k :: d :: c)) :
    idom.get? k = some d ∧ IsIdomChain idom d (d :: c) :=
  ⟨(List.chain'_cons.1 h.chain).1,
    ⟨rfl, by simpa using h.last, (List.chain'_cons.1 h.chain).2, (List.nodup_cons.1 h.nodup).2⟩⟩

/-- A chain of one step or more starts away from 0, which it visits last. -/
theorem IsIdomChain.ne_zero {k : ObjID} {c : List ObjID} (h : IsIdomChain idom k (k :: c))
    (hc : c ≠ []) : k ≠ 0 := by
  rintro rfl
  obtain ⟨d, c, rfl⟩ := List.exists_cons_of_ne_nil hc
  have hlast : (d :: c).getLast? = some 0 := by simpa only [List.getLast?_cons_cons] using h.last
  exact (List.nodup_cons.1 h.nodup).1 (List.mem_of_getLast?_eq_some hlast)

/-- Every node of a chain but the last has an entry. -/
theorem dropLast_subset_keys : ∀ {k : ObjID} {c : List ObjID},
    (k :: c).Chain' (fun x y => idom.get? x = some y) → (k :: c).dropLast ⊆ idom.keys
  | _, [], _ => by simp
  | k, d :: c, h => by
    rw [List.dropLast_cons₂, List.cons_subset]
    exact ⟨(GoMap.mem_keys _ _).2 (by rw [(List.chain'_cons.1 h).1]; rfl),
      dropLast_subset_keys (List.chain'_cons.1 h).2⟩

/-- A chain takes at most one step per key. -/
theorem IsIdomChain.length_le {k : ObjID} {c : List ObjID} (h : IsIdomChain idom k (k :: c)) :
    c.length ≤ idom.keys.length := by
  have hsub := List.subperm_of_subset (List.Nodup.sublist (List.dropLast_sublist _) h.nodup)
    (dropLast_subset_keys h.chain)
  simpa using hsub.length_le

/-- Every node of a chain is on the walk up from its first node. -/
theorem IsIdomChain.onWalk : ∀ {v : ObjID} {p : List ObjID}, IsIdomChain idom v p →
    ∀ x ∈ p, OnWalk idom x v
  | _, [], h, _, _ => by cases h.head
  | _, [_], h, x, hx => by
    obtain rfl : _ = _ := Option.some.inj h.head
    rw [List.mem_singleton.1 hx]
    exact .refl
  | v, k :: d :: c, h, x, hx => by
    obtain rfl : k = v := Option.some.inj h.head
    obtain ⟨hvd, hd⟩ := h.tail
    rcases List.mem_cons.1 hx with rfl | hx
    · exact .refl
    · exact .up hvd (hd.onWalk x hx)

/-- The loop of `DominatorPath` follows a chain to its end. -/
theorem dominatorPathLoop_chain : ∀ (c : List ObjID) (k : ObjID) (acc : List ObjID) (fuel : Nat),
    IsIdomChain idom k (k :: c) → c ≠ [] → c.length ≤ fuel →
      dominatorPathLoop idom fuel k acc = some (acc ++ k :: c)
  | [], _, _, _, _, hc, _ => absurd rfl hc
  | _ :: _, _, _, 0, _, _, hlen => absurd hlen (by simp)
  | d :: c, k, acc, fuel + 1, h, hc, hlen => by
    obtain ⟨hkd, hd⟩ := h.tail
    have hk0 := h.ne_zero hc
    by_cases hd0 : d = 0
    · subst hd0
      have hc0 : c = [] := by
        by_contra hne
        exact hd.ne_zero hne rfl
      subst hc0
      simp [dominatorPathLoop, hkd, hk0]
    · have hcne : c ≠ [] := by
        rintro rfl
        simpa using hd0 (Option.some.inj hd.last)
      rw [dominatorPathLoop, hkd]
      simp only [hd0, if_false]
      rw [dominatorPathLoop_chain c d _ fuel hd hcne (by simpa using hlen)]
      simp

/-- The loop of `IsDominated` from a chain's first node asks whether the
dominator is on the rest of the chain. -/
theorem isDominatedLoop_chain (a : ObjID) : ∀ (c : List ObjID) (k : ObjID) (fuel : Nat),
    IsIdomChain idom k (k :: c) → c ≠ [] → c.length ≤ fuel →
      isDominatedLoop idom a fuel k = some (decide (a ∈ c))
  | [], _, _, _, hc, _ => absurd rfl hc
  | _ :: _, _, 0, _, _, hlen => absurd hlen (by simp)
  | d :: c, k, fuel + 1, h, _, hlen => by
    obtain ⟨hkd, hd⟩ := h.tail
    rw [isDominatedLoop, hkd]
    by_cases hda : d = a
    · subst hda
      simp
    by_cases hd0 : d = 0
    · subst hd0
      have hc0 : c = [] := by
        by_contra hne
        exact hd.ne_zero hne rfl
      subst hc0
      simp [hda, Ne.symm hda]
    · have hcne : c ≠ [] := by
        rintro rfl
        simpa using hd0 (Option.some.inj hd.last)
      simp only [hda, hd0, if_false]
      rw [isDominatedLoop_chain a c d fuel hd hcne (by simpa using hlen)]
      simp [Ne.symm hda]

variable (h0 : idom.get? 0 = none)
include h0

/-- The chain of 0, which has no entry, is `[0]`. -/
theorem IsIdomChain.eq_zero {p : List ObjID} (h : IsIdomChain idom 0 p) : p = [0] := by
  obtain ⟨c, rfl⟩ : ∃ c, p = 0 :: c := by
    cases p with
    | nil => cases h.head
    | cons a c => exact ⟨c, by rw [Option.some.inj h.head]⟩
  cases c with
  | nil => rfl
  | cons d c => exact absurd h0 (by rw [h.tail.1]; simp)

/-- `DominatorPath` returns the chain. -/
theorem dominatorPath_of_chain {v : ObjID} {p : List ObjID} (h : IsIdomChain idom v p) :
    dominatorPath idom v = some p := by
  by_cases hv0 : v = 0
  · subst hv0
    rw [h.eq_zero h0]
    simp [dominatorPath, dominatorPathLoop, h0]
  obtain ⟨c, rfl⟩ : ∃ c, p = v :: c := by
    cases p with
    | nil => cases h.head
    | cons a c => exact ⟨c, by rw [Option.some.inj h.head]⟩
  have hc : c ≠ [] := by
    rintro rfl
    exact hv0 (Option.some.inj h.last)
  have := h.length_le
  simpa using dominatorPathLoop_chain c v [] _ h hc (by simp [GoMap.keys] at this; omega)

/-- `IsDominated` asks whether the dominator is on the chain. -/
theorem isDominated_of_chain {v : ObjID} {p : List ObjID} (h : IsIdomChain idom v p) (a : ObjID) :
    isDominated idom v a = some (decide (a ∈ p)) := by
  by_cases hv0 : v = 0
  · subst hv0
    rw [h.eq_zero h0]
    by_cases ha : 0 = a
    · simp [isDominated, ha]
    · simp [isDominated, ha, isDominatedLoop, h0, Ne.symm ha]
  obtain ⟨c, rfl⟩ : ∃ c, p = v :: c := by
    cases p with
    | nil => cases h.head
    | cons a c => exact ⟨c, by rw [Option.some.inj h.head]⟩
  have hc : c ≠ [] := by
    rintro rfl
    exact hv0 (Option.some.inj h.last)
  have := h.length_le
  unfold isDominated
  split
  · rename_i hva
    simp [hva]
  · rw [isDominatedLoop_chain a c v _ h hc (by simp [GoMap.keys] at this; omega)]
    simp [Ne.symm ‹v ≠ a›]

/-- A node has one chain. -/
theorem IsIdomChain.unique {v : ObjID} {p q : List ObjID} (hp : IsIdomChain idom v p)
    (hq : IsIdomChain idom v q) : p = q :=
  Option.some.inj ((dominatorPath_of_chain h0 hp).symm.trans (dominatorPath_of_chain h0 hq))

end Chain

/-! ## Maps of the shape `Dominators` returns -/

section Shape

variable {idom : GoMap ObjID ObjID} (h : IdomShape idom)
include h

theorem IdomShape.get?_zero : idom.get? 0 = none := by
  cases h0 : idom.get? 0 with
  | none => rfl
  | some d =>
    obtain ⟨c, hc, hch⟩ := h.reaches 0 ((GoMap.mem_keys _ _).2 (by simp [h0]))
    exact absurd rfl (hch.ne_zero hc)

/-- Every key and 0 have a chain, and the chain of a key is the key followed
by the chain of its value. -/
theorem IdomShape.exists_chain :
    ∃ chain : ObjID → List ObjID, (∀ v, v = 0 ∨ v ∈ idom.keys → IsIdomChain idom v (chain v)) ∧
      ∀ y d, idom.get? y = some d → chain y = y :: chain d := by
  choose c hc using h.reaches
  let chain := fun v => if hv : v ∈ idom.keys then v :: c v hv else [0]
  have hchain : ∀ v, v = 0 ∨ v ∈ idom.keys → IsIdomChain idom v (chain v) := by
    rintro v (rfl | hv)
    · have h0 : (0 : ObjID) ∉ idom.keys := by simp [GoMap.mem_keys, h.get?_zero]
      simpa [chain, h0] using IsIdomChain.zero
    · simpa [chain, hv] using (hc v hv).2
  refine ⟨chain, hchain, fun y d hyd => ?_⟩
  have hy : y ∈ idom.keys := (GoMap.mem_keys _ _).2 (by simp [hyd])
  obtain ⟨hne, hyc⟩ := hc y hy
  obtain ⟨d', c', hcc⟩ : ∃ d' c', c y hy = d' :: c' := List.exists_cons_of_ne_nil hne
  rw [hcc] at hyc
  obtain ⟨hyd', hd'⟩ := hyc.tail
  have hdd : d' = d := Option.some.inj (hyd'.symm.trans hyd)
  rw [hdd] at hd'
  have hchy : chain y = y :: c y hy := dif_pos hy
  rw [hchy, hcc, hdd, (hchain d (h.value y d hyd)).unique h.get?_zero hd']

/-- Given the chain of every key and of 0, `DominatorDepth` of the tree returns,
and gives each of them its chain's length less one. -/
theorem IdomShape.dominatorDepth {chain : ObjID → List ObjID}
    (hchain : ∀ v, v = 0 ∨ v ∈ idom.keys → IsIdomChain idom v (chain v))
    (hstep : ∀ y d, idom.get? y = some d → chain y = y :: chain d) :
    ∃ depth, dominatorDepth (dominatorTree idom) = some depth ∧
      ∀ v, v = 0 ∨ v ∈ idom.keys → depth.get? v = some ((chain v).length - 1) := by
  have hchain0 : chain 0 = [0] := (hchain 0 (.inl rfl)).eq_zero h.get?_zero
  -- every node with an entry is a key, whose chain has at most one step per key
  have hlen : ∀ y d, idom.get? y = some d → (chain y).length ≤ idom.keys.length + 1 := by
    intro y d hyd
    have hy : IsIdomChain idom y (y :: chain d) :=
      hstep y d hyd ▸ hchain y (.inr ((GoMap.mem_keys _ _).2 (by simp [hyd])))
    simpa [hstep y d hyd] using hy.length_le
  have hkeys : idom.keys.length ≤ (dominatorTree idom).entries.length := by
    have hsub : idom.keys ⊆ (dominatorTree idom).keys := fun k hk => by
      rw [GoMap.mem_keys, isSome_get?_dominatorTree]
      exact .inr (.inl hk)
    simpa only [GoMap.keys, List.length_map] using
      (List.subperm_of_subset idom.keys_nodup hsub).length_le
  have hlevel : ∀ y d, idom.get? y = some d → (chain y).length = (chain d).length + 1 :=
    fun y d hyd => by simp [hstep y d hyd]
  have hrank : ∀ y d, idom.get? y = some d → (chain d).length < (chain y).length :=
    fun y d hyd => by simp [hlevel y d hyd]
  have hμ : ∀ y d, idom.get? y = some d →
      idom.keys.length + 1 - (chain y).length < idom.keys.length + 1 - (chain d).length :=
    fun y d hyd => by have := hlen y d hyd; have := hlevel y d hyd; omega
  obtain ⟨depth, hdepth, hpost⟩ := computeDepth_spec (fun _ _ => mem_children_dominatorTree idom)
    (nodup_children_dominatorTree idom) hrank hμ hlevel ((dominatorTree idom).entries.length + 1)
    0 0 GoMap.empty (by simp only [hchain0, List.length_singleton]; omega)
  refine ⟨depth, hdepth, fun v hv => ?_⟩
  have hwalk := (hchain v hv).onWalk 0 (List.mem_of_getLast?_eq_some (hchain v hv).last)
  rw [(hpost v).1 hwalk]
  simp [hchain0]

end Shape

/-- On every map, `DominatorTree` lists each key once, in the child list of its
value, and nothing else. -/
theorem count_children_dominatorTree (idom : GoMap ObjID ObjID) (k x : ObjID) :
    (children (dominatorTree idom) x).count k = if idom.get? k = some x then 1 else 0 := by
  split_ifs with hk
  · exact List.count_eq_one_of_mem (nodup_children_dominatorTree idom x)
      ((mem_children_dominatorTree idom).2 hk)
  · exact List.count_eq_zero_of_not_mem (mt (mem_children_dominatorTree idom).1 hk)

/-- On every map of the shape `Dominators` returns: `DominatorTree` lists every
key once, in the child list of its value; and with `chain(v)` the chain of a key
`v` or of 0, `DominatorPath` returns `chain(v)`, `IsDominated(idom, v, a)` says
whether `a` is on `chain(v)`, and `DominatorDepth` of the tree returns, giving
`v` the depth `len(chain(v)) - 1`. -/
theorem dominatorUtilities_of_idomShape {idom : GoMap ObjID ObjID} (h : IdomShape idom) :
    (∀ k x, (children (dominatorTree idom) x).count k = if idom.get? k = some x then 1 else 0) ∧
    ∃ depth, dominatorDepth (dominatorTree idom) = some depth ∧
      ∀ v, v = 0 ∨ v ∈ idom.keys → ∃ p, IsIdomChain idom v p ∧
        dominatorPath idom v = some p ∧ (∀ a, isDominated idom v a = some (decide (a ∈ p))) ∧
        depth.get? v = some (p.length - 1) := by
  obtain ⟨chain, hchain, hstep⟩ := h.exists_chain
  obtain ⟨depth, hdepth, hget⟩ := h.dominatorDepth hchain hstep
  exact ⟨count_children_dominatorTree idom, depth, hdepth, fun v hv =>
    ⟨chain v, hchain v hv, dominatorPath_of_chain h.get?_zero (hchain v hv),
      isDominated_of_chain h.get?_zero (hchain v hv), hget v hv⟩⟩

/-- A chain `3 → 2 → 1 → 0`, in map order `2, 1, 3`. -/
def sampleIdom : GoMap ObjID ObjID := ⟨[(2, 1), (1, 0), (3, 2)], by decide⟩

theorem sampleIdom_shape : IdomShape sampleIdom where
  value k d h := by
    rw [← GoMap.mem_entries] at h
    simp only [sampleIdom, List.mem_cons, Prod.mk.injEq, List.mem_singleton,
      List.not_mem_nil, or_false] at h
    rcases h with ⟨-, rfl⟩ | ⟨-, rfl⟩ | ⟨-, rfl⟩ <;> decide
  reaches k hk := by
    simp only [sampleIdom, GoMap.keys, List.map_cons, List.map_nil, List.mem_cons,
      List.not_mem_nil, or_false] at hk
    rcases hk with rfl | rfl | rfl
    · exact ⟨[1, 0], by simp, rfl, rfl, .cons rfl (.cons rfl .nil), by decide⟩
    · exact ⟨[0], by simp, rfl, rfl, .cons rfl .nil, by decide⟩
    · exact ⟨[2, 1, 0], by simp, rfl, rfl, .cons rfl (.cons rfl (.cons rfl .nil)), by decide⟩

theorem dominatorUtilities_sampleIdom : IdomShape sampleIdom ∧
    (∀ k x, (children (dominatorTree sampleIdom) x).count k =
      if sampleIdom.get? k = some x then 1 else 0) ∧
    ∃ depth, dominatorDepth (dominatorTree sampleIdom) = some depth ∧
      ∀ v, v = 0 ∨ v ∈ sampleIdom.keys → ∃ p, IsIdomChain sampleIdom v p ∧
        dominatorPath sampleIdom v = some p ∧
        (∀ a, isDominated sampleIdom v a = some (decide (a ∈ p))) ∧
        depth.get? v = some (p.length - 1) :=
  ⟨sampleIdom_shape, dominatorUtilities_of_idomShape sampleIdom_shape⟩

end HeapLens.Graph
