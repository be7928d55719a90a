import HeapLens.Dominance.Correct

/-!
# Dominance in `G'`

Over the nodes reachable from the super-root, "lies on every path to" is a
partial order whose down-sets are chains: the nodes on every path to `u` are
`u` and the nodes on every path to its immediate dominator `Dominators(g)[u]`.
So the nodes that `v` dominates are `v` and, disjointly, the nodes that its
children in the dominator tree dominate.  The DFS numbers rank each node above
its immediate dominator and carry the inductions.
-/

namespace HeapLens.Graph

/-- `v` dominates `u`: `u` is reachable from the super-root and `v` lies on
every path to it. -/
def Dominates (g : MemGraph) (v u : ObjID) : Prop := Reachable g u ∧ OnEveryPath g v u

/-- The part of a path up to one of its nodes. -/
theorem IsPath.prefix_to {g : MemGraph} {a b x : ObjID} {p : List ObjID} (h : IsPath g a b p)
    (hx : x ∈ p) : ∃ q, IsPath g a x q ∧ q ⊆ p := by
  induction h with
  | single a =>
    obtain rfl := List.mem_singleton.1 hx
    exact ⟨[x], .single x, fun _ h => h⟩
  | @cons a c b p hac _ ih =>
    rcases List.mem_cons.1 hx with rfl | hx
    · exact ⟨[x], .single x, fun y hy => List.mem_singleton.1 hy ▸ List.mem_cons_self _ _⟩
    · obtain ⟨q, hq, hsub⟩ := ih hx
      exact ⟨a :: q, .cons hac hq, List.cons_subset_cons _ hsub⟩

/-- A path between two different nodes ends with an edge into its last node. -/
theorem IsPath.exists_edge_into {g : MemGraph} {a b : ObjID} {p : List ObjID}
    (h : IsPath g a b p) (hab : a ≠ b) : ∃ x, Edge g x b := by
  induction h with
  | single => exact absurd rfl hab
  | @cons a c b p hac hcb ih =>
    by_cases hc : c = b
    · exact ⟨a, hc ▸ hac⟩
    · exact ih hc

namespace OnEveryPath

variable {g : MemGraph}

theorem refl (v : ObjID) : OnEveryPath g v v := fun _ hp => hp.last_mem

theorem trans {x d v : ObjID} (h₁ : OnEveryPath g x d) (h₂ : OnEveryPath g d v) :
    OnEveryPath g x v := by
  intro p hp
  obtain ⟨q, hq, hsub⟩ := hp.prefix_to (h₂ p hp)
  exact hsub (h₁ q hq)

theorem eq_zero {x : ObjID} (h : OnEveryPath g x 0) : x = 0 :=
  List.mem_singleton.1 (h [0] (.single 0))

end OnEveryPath

/-- A node on every path to a reachable node is reachable. -/
theorem Reachable.of_onEveryPath {g : MemGraph} {d v : ObjID} (hv : Reachable g v)
    (h : OnEveryPath g d v) : Reachable g d := by
  obtain ⟨p, hp⟩ := hv
  obtain ⟨q, hq, -⟩ := hp.prefix_to (h p hp)
  exact ⟨q, hq⟩

section Order

variable {g : MemGraph} (h0 : ∀ o ∈ g.objects, o.id ≠ 0)
include h0

/-- The immediate dominator of a key has a smaller DFS number. -/
theorem dominators_rank {v d : ObjID} (hvd : (dominators g).get? v = some d) :
    (searchState g).num d < (searchState g).num v ∧
      (searchState g).num v < (searchState g).dfsNum := by
  have hd := searchState_done h0
  obtain ⟨j, k, hj, rfl, rfl, hdom⟩ := (dominators_get?_eq_some h0).1 hvd
  simp only [LTState.num, hd.inv.dfnum_vertex j hj,
    hd.inv.dfnum_vertex k ((hdom.lt hj).trans hj), Option.getD_some]
  exact ⟨hdom.lt hj, hj⟩

theorem reachable_of_get? {v d : ObjID} (hvd : (dominators g).get? v = some d) :
    Reachable g v ∧ Reachable g d := by
  have hv := ((mem_keys_dominators h0).1 ((GoMap.mem_keys _ _).2 (by rw [hvd]; rfl))).2
  exact ⟨hv, hv.of_onEveryPath (dominators_idom h0 hvd).2.1⟩

theorem get?_dominators_isSome {u : ObjID} (hu : Reachable g u) (hu0 : u ≠ 0) :
    ∃ d, (dominators g).get? u = some d :=
  Option.isSome_iff_exists.1 ((GoMap.mem_keys _ _).1 ((mem_keys_dominators h0).2 ⟨hu0, hu⟩))

/-- The nodes on every path to a reachable `u` are `u` and the nodes on every
path to its immediate dominator. -/
theorem onEveryPath_iff_idom {u x : ObjID} (hu : Reachable g u) :
    OnEveryPath g x u ↔ x = u ∨ ∃ d, (dominators g).get? u = some d ∧ OnEveryPath g x d := by
  constructor
  · intro hx
    by_cases hxu : x = u
    · exact .inl hxu
    have hu0 : u ≠ 0 := by
      rintro rfl
      exact hxu hx.eq_zero
    obtain ⟨d, hd⟩ := get?_dominators_isSome h0 hu hu0
    exact .inr ⟨d, hd, (dominators_idom h0 hd).2.2 x hxu hx⟩
  · rintro (rfl | ⟨d, hd, hxd⟩)
    · exact OnEveryPath.refl x
    · exact hxd.trans (dominators_idom h0 hd).2.1

theorem onEveryPath_antisymm {a b : ObjID} (ha : Reachable g a) (hb : Reachable g b)
    (hab : OnEveryPath g a b) (hba : OnEveryPath g b a) : a = b := by
  have hd := searchState_done h0
  obtain ⟨k, hk, rfl⟩ := (reachable_iff h0 hd).1 ha
  obtain ⟨j, hj, rfl⟩ := (reachable_iff h0 hd).1 hb
  have hkj := ((onEveryPath_iff_dom h0 hd hj hk).1 hab).anc hj
  have hjk := ((onEveryPath_iff_dom h0 hd hk hj).1 hba).anc hk
  rw [hkj.antisymm hjk hj]

/-- The nodes on every path to a reachable node form a chain. -/
theorem onEveryPath_total {u x y : ObjID} (hu : Reachable g u) (hx : OnEveryPath g x u)
    (hy : OnEveryPath g y u) : OnEveryPath g x y ∨ OnEveryPath g y x := by
  rcases (onEveryPath_iff_idom h0 hu).1 hx with rfl | ⟨d, hud, hxd⟩
  · exact .inr hy
  rcases (onEveryPath_iff_idom h0 hu).1 hy with rfl | ⟨d', hud', hyd⟩
  · exact .inl hx
  obtain rfl : d = d' := Option.some.inj (hud.symm.trans hud')
  exact onEveryPath_total (reachable_of_get? h0 hud).2 hxd hyd
termination_by (searchState g).num u
decreasing_by exact (dominators_rank h0 hud).1

/-- Of two children of one node in the dominator tree, neither lies on every
path to the other. -/
theorem not_onEveryPath_sibling {v c₁ c₂ : ObjID} (h₁ : (dominators g).get? c₁ = some v)
    (h₂ : (dominators g).get? c₂ = some v) (hne : c₁ ≠ c₂) : ¬ OnEveryPath g c₁ c₂ := by
  intro h
  rcases (onEveryPath_iff_idom h0 (reachable_of_get? h0 h₂).1).1 h with rfl | ⟨d, hd, hc₁d⟩
  · exact hne rfl
  obtain rfl : d = v := Option.some.inj (hd.symm.trans h₂)
  exact (dominators_idom h0 h₁).1 (onEveryPath_antisymm h0 (reachable_of_get? h0 h₁).1
    (reachable_of_get? h0 h₁).2 hc₁d (dominators_idom h0 h₁).2.1).symm

/-- A node that `v` dominates, other than `v`, is dominated by a child of `v`. -/
theorem exists_child {v u : ObjID} (hu : Reachable g u) (hvu : OnEveryPath g v u)
    (huv : u ≠ v) : ∃ c, (dominators g).get? c = some v ∧ Dominates g c u := by
  rcases (onEveryPath_iff_idom h0 hu).1 hvu with h | ⟨d, hud, hvd⟩
  · exact absurd h.symm huv
  by_cases hdv : d = v
  · subst hdv
    exact ⟨u, hud, hu, OnEveryPath.refl u⟩
  obtain ⟨c, hc, -, hcd⟩ := exists_child (reachable_of_get? h0 hud).2 hvd hdv
  exact ⟨c, hc, hu, hcd.trans (dominators_idom h0 hud).2.1⟩
termination_by (searchState g).num u
decreasing_by exact (dominators_rank h0 hud).1

/-- What `v` dominates: `v` itself, or what one of its children dominates. -/
theorem dominates_iff_child {v u : ObjID} (hv : Reachable g v) :
    Dominates g v u ↔ u = v ∨ ∃ c, (dominators g).get? c = some v ∧ Dominates g c u := by
  constructor
  · rintro ⟨hu, hvu⟩
    by_cases huv : u = v
    · exact .inl huv
    · exact .inr (exists_child h0 hu hvu huv)
  · rintro (rfl | ⟨c, hc, hcu, hcu'⟩)
    · exact ⟨hv, OnEveryPath.refl u⟩
    · exact ⟨hcu, (dominators_idom h0 hc).2.1.trans hcu'⟩

/-- A node is dominated by at most one child of each node. -/
theorem dominates_child_unique {v c₁ c₂ u : ObjID} (h₁ : (dominators g).get? c₁ = some v)
    (h₂ : (dominators g).get? c₂ = some v) (hu₁ : Dominates g c₁ u) (hu₂ : Dominates g c₂ u) :
    c₁ = c₂ := by
  by_contra hne
  rcases onEveryPath_total h0 hu₁.1 hu₁.2 hu₂.2 with h | h
  · exact not_onEveryPath_sibling h0 h₁ h₂ hne h
  · exact not_onEveryPath_sibling h0 h₂ h₁ (Ne.symm hne) h

/-- A child does not dominate its parent. -/
theorem not_dominates_parent {v c : ObjID} (hc : (dominators g).get? c = some v) :
    ¬ Dominates g c v := fun h =>
  (dominators_idom h0 hc).1 (onEveryPath_antisymm h0 (reachable_of_get? h0 hc).2
    (reachable_of_get? h0 hc).1 (dominators_idom h0 hc).2.1 h.2)

end Order

end HeapLens.Graph
