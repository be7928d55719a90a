import Mathlib.Logic.Relation
import Mathlib.Data.Nat.Defs

/-!
# Depth-first search trees and paths

The correctness argument for Lengauer–Tarjan works on DFS numbers.  A
`DfsTree` is what a depth-first search from vertex 0 leaves: `n` numbered
vertices, each but the root with a parent of smaller number joined to it by an
edge, the edges from numbered vertices leading to numbered vertices, and the
descendants of each vertex forming an interval of numbers that no edge leaves
upwards.  From this follow the path lemmas the semidominator theory rests on.

`PathIn E S a b` is a path of at least one edge from `a` to `b` whose internal
vertices satisfy `S`; semidominator paths, paths avoiding a vertex and tree
paths are all of this form.
-/

namespace HeapLens.Dominance

open Relation

/-- A path of at least one edge from `a` to `b` whose internal vertices satisfy `S`. -/
inductive PathIn (E : Nat → Nat → Prop) (S : Nat → Prop) : Nat → Nat → Prop
  | edge {a b : Nat} : E a b → PathIn E S a b
  | cons {a c b : Nat} : E a c → S c → PathIn E S c b → PathIn E S a b

namespace PathIn

variable {E : Nat → Nat → Prop} {S S' : Nat → Prop} {a b c : Nat}

theorem mono (h : PathIn E S a b) (hS : ∀ x, S x → S' x) : PathIn E S' a b := by
  induction h with
  | edge h => exact .edge h
  | cons hac hc _ ih => exact .cons hac (hS _ hc) ih

theorem trans (h₁ : PathIn E S a c) (hc : S c) (h₂ : PathIn E S c b) : PathIn E S a b := by
  induction h₁ with
  | edge h => exact .cons h hc h₂
  | cons hac hc' _ ih => exact .cons hac hc' (ih hc h₂)

theorem snoc (h : PathIn E S a b) (hb : S b) (hbc : E b c) : PathIn E S a c :=
  h.trans hb (.edge hbc)

/-- The last edge of a path. -/
theorem last (h : PathIn E S a b) : E a b ∨ ∃ v, S v ∧ PathIn E S a v ∧ E v b := by
  induction h with
  | edge h => exact .inl h
  | @cons a c b hac hc _ ih =>
    rcases ih with h | ⟨v, hv, hcv, hvb⟩
    · exact .inr ⟨c, hc, .edge hac, h⟩
    · exact .inr ⟨v, hv, .cons hac hc hcv, hvb⟩

/-- The first vertex after `a` that satisfies `Q`, when `b` does. -/
theorem split_first {Q : Nat → Prop} (h : PathIn E S a b) (hb : Q b) :
    ∃ y, Q y ∧ (y = b ∨ S y) ∧ PathIn E (fun z => S z ∧ ¬ Q z) a y := by
  induction h with
  | @edge a b h => exact ⟨b, hb, .inl rfl, .edge h⟩
  | @cons a c b hac hc _ ih =>
    by_cases hQc : Q c
    · exact ⟨c, hQc, .inr hc, .edge hac⟩
    · obtain ⟨y, hy, hyb, hcy⟩ := ih hb
      exact ⟨y, hy, hyb, .cons hac ⟨hc, hQc⟩ hcy⟩

/-- Either the last internal vertex satisfying `P`, or no internal vertex does. -/
theorem split_internal {P : Nat → Prop} (h : PathIn E S a b) :
    (∃ x, P x ∧ S x ∧ PathIn E (fun z => S z ∧ ¬ P z) x b) ∨
      PathIn E (fun z => S z ∧ ¬ P z) a b := by
  induction h with
  | edge h => exact .inr (.edge h)
  | @cons a c b hac hc hcb ih =>
    rcases ih with ⟨x, hx, hSx, hxb⟩ | hcb'
    · exact .inl ⟨x, hx, hSx, hxb⟩
    · by_cases hPc : P c
      · exact .inl ⟨c, hPc, hc, hcb'⟩
      · exact .inr (.cons hac ⟨hc, hPc⟩ hcb')

/-- The last vertex before `b` that satisfies `P`, when `a` does. -/
theorem split_last {P : Nat → Prop} (h : PathIn E S a b) (ha : P a) :
    ∃ x, P x ∧ (x = a ∨ S x) ∧ PathIn E (fun z => S z ∧ ¬ P z) x b := by
  rcases h.split_internal (P := P) with ⟨x, hx, hSx, hxb⟩ | hab
  · exact ⟨x, hx, .inr hSx, hxb⟩
  · exact ⟨a, ha, .inl rfl, hab⟩

end PathIn

/-- `x` is `j` or an ancestor of `j` under the parent map `parent`. -/
def TAnc (parent : Nat → Nat) (x j : Nat) : Prop :=
  ReflTransGen (fun a b => 0 < b ∧ parent b = a) x j

/-- An ancestor is numbered no higher than its descendant, when every parent up
to the descendant is numbered below its child. -/
theorem TAnc.le {P : Nat → Nat} {x j : Nat} (h : TAnc P x j)
    (hP : ∀ m, 0 < m → m ≤ j → P m < m) : x ≤ j := by
  induction h with
  | refl => exact le_refl _
  | @tail b c _ hbc ih =>
    obtain ⟨hc, rfl⟩ := hbc
    have := hP c hc (le_refl c)
    have := ih fun m hm hmb => hP m hm (by omega)
    omega

/-- The ancestors of `j` depend only on the parents of the vertices up to `j`. -/
theorem TAnc.congr {P Q : Nat → Nat} {x j : Nat} (h : TAnc P x j)
    (hPQ : ∀ m, 0 < m → m ≤ j → Q m = P m ∧ P m < m) : TAnc Q x j := by
  induction h with
  | refl => exact ReflTransGen.refl
  | @tail b c _ hbc ih =>
    obtain ⟨hc, rfl⟩ := hbc
    obtain ⟨hQ, hlt⟩ := hPQ c hc (le_refl c)
    exact ReflTransGen.tail (ih fun m hm hmb => hPQ m hm (by omega)) ⟨hc, hQ⟩

/-- What a depth-first search from vertex 0 leaves, on DFS numbers. -/
structure DfsTree where
  n : Nat
  parent : Nat → Nat
  edge : Nat → Nat → Prop
  parent_lt : ∀ j, 0 < j → j < n → parent j < j
  parent_edge : ∀ j, 0 < j → j < n → edge (parent j) j
  edge_closed : ∀ a b, edge a b → a < n → b < n
  subtree : ∀ x < n, ∃ e ≤ n, x < e ∧ (∀ j < n, TAnc parent x j ↔ x ≤ j ∧ j < e) ∧
    ∀ a b, x ≤ a → a < e → edge a b → b < e

namespace DfsTree

variable (T : DfsTree)

/-- The ancestor-or-self relation of the tree. -/
def Anc (x j : Nat) : Prop := TAnc T.parent x j

variable {T}

theorem Anc.refl (x : Nat) : T.Anc x x := ReflTransGen.refl

theorem Anc.trans {x y z : Nat} (h₁ : T.Anc x y) (h₂ : T.Anc y z) : T.Anc x z :=
  ReflTransGen.trans h₁ h₂

theorem Anc.of_parent {x j : Nat} (h : T.Anc x (T.parent j)) (hj : 0 < j) : T.Anc x j :=
  ReflTransGen.tail h ⟨hj, rfl⟩

theorem anc_parent {j : Nat} (hj : 0 < j) : T.Anc (T.parent j) j := (Anc.refl _).of_parent hj

/-- The proper ancestors of `j` are the ancestors of its parent. -/
theorem Anc.to_parent {x j : Nat} (h : T.Anc x j) (hne : x ≠ j) :
    T.Anc x (T.parent j) ∧ 0 < j := by
  obtain ⟨b, hb, hbj⟩ := ((ReflTransGen.cases_tail_iff _ _ _).mp h).resolve_left (Ne.symm hne)
  exact ⟨hbj.2 ▸ hb, hbj.1⟩

theorem Anc.le {x j : Nat} (h : T.Anc x j) (hj : j < T.n) : x ≤ j :=
  TAnc.le h fun m hm hmj => T.parent_lt m hm (by omega)

theorem Anc.lt_of_ne {x j : Nat} (h : T.Anc x j) (hj : j < T.n) (hne : x ≠ j) : x < j :=
  lt_of_le_of_ne (h.le hj) hne

theorem Anc.antisymm {x j : Nat} (h₁ : T.Anc x j) (h₂ : T.Anc j x) (hj : j < T.n) : x = j :=
  le_antisymm (h₁.le hj) (h₂.le (by have := h₁.le hj; omega))

theorem anc_zero (j : Nat) (hj : j < T.n) : T.Anc 0 j := by
  induction j using Nat.strongRecOn with
  | _ j ih =>
    rcases Nat.eq_zero_or_pos j with rfl | hpos
    · exact Anc.refl 0
    · have hlt := T.parent_lt j hpos hj
      exact (ih _ hlt (by omega)).of_parent hpos

/-- The descendants of `x` are an interval of numbers. -/
theorem Anc.convex {x a b : Nat} (h : T.Anc x a) (ha : a < T.n) (hxb : x ≤ b) (hba : b ≤ a) :
    T.Anc x b := by
  obtain ⟨e, -, -, hint, -⟩ := T.subtree x (by have := h.le ha; omega)
  exact (hint b (by omega)).mpr ⟨hxb, by have := (hint a ha).mp h; omega⟩

/-- Two ancestors of one vertex are related. -/
theorem Anc.total {x y j : Nat} (hx : T.Anc x j) (hy : T.Anc y j) (hj : j < T.n) :
    T.Anc x y ∨ T.Anc y x := by
  rcases Nat.le_total x y with hxy | hyx
  · exact .inl (hx.convex hj hxy (hy.le hj))
  · exact .inr (hy.convex hj hyx (hx.le hj))

/-- No edge leaves a subtree towards a larger number. -/
theorem Anc.of_edge {x a b : Nat} (h : T.Anc x a) (ha : a < T.n) (hab : T.edge a b)
    (hxb : x ≤ b) : T.Anc x b := by
  obtain ⟨e, -, -, hint, hclosed⟩ := T.subtree x (by have := h.le ha; omega)
  have hae := (hint a ha).mp h
  exact (hint b (T.edge_closed a b hab ha)).mpr ⟨hxb, hclosed a b hae.1 hae.2 hab⟩

/-- An edge to a larger number is a descendant edge. -/
theorem anc_of_edge_lt {a b : Nat} (hab : T.edge a b) (ha : a < T.n) (hlt : a < b) :
    T.Anc a b :=
  (Anc.refl a).of_edge ha hab (Nat.le_of_lt hlt)

/-- Every path from `a` holds a vertex no larger than `a` that is an ancestor of
its end. -/
theorem path_anc {S : Nat → Prop} {a b : Nat} (hpath : PathIn T.edge S a b) (ha : a < T.n) :
    ∃ m, (m = a ∨ S m ∨ m = b) ∧ m ≤ a ∧ T.Anc m b := by
  induction hpath with
  | @edge a b hab =>
    rcases Nat.lt_or_ge a b with hlt | hle
    · exact ⟨a, .inl rfl, le_refl a, anc_of_edge_lt hab ha hlt⟩
    · exact ⟨b, .inr (.inr rfl), hle, Anc.refl b⟩
  | @cons a c b hac hc _ ih =>
    obtain ⟨m, hm, hmc, hmb⟩ := ih (T.edge_closed a c hac ha)
    rcases Nat.lt_or_ge a m with ham | hma
    · have hac' : T.Anc a c := anc_of_edge_lt hac ha (by omega)
      have hcn := T.edge_closed a c hac ha
      exact ⟨a, .inl rfl, le_refl a,
        (hac'.convex hcn (Nat.le_of_lt ham) hmc).trans hmb⟩
    · refine ⟨m, ?_, hma, hmb⟩
      rcases hm with rfl | hm | hm
      · exact .inr (.inl hc)
      · exact .inr (.inl hm)
      · exact .inr (.inr hm)

/-- Paths from numbered vertices end at numbered vertices. -/
theorem path_end_lt {S : Nat → Prop} {a b : Nat} (hpath : PathIn T.edge S a b) (ha : a < T.n) :
    b < T.n := by
  induction hpath with
  | edge hab => exact T.edge_closed _ _ hab ha
  | cons hac _ _ ih => exact ih (T.edge_closed _ _ hac ha)

/-- The path lemma: a path from `a` to `b ≥ a` holds a common ancestor of both. -/
theorem path_common_anc {S : Nat → Prop} {a b : Nat} (hpath : PathIn T.edge S a b)
    (ha : a < T.n) (hab : a ≤ b) :
    ∃ m, (m = a ∨ S m ∨ m = b) ∧ T.Anc m a ∧ T.Anc m b := by
  obtain ⟨m, hm, hma, hmb⟩ := path_anc hpath ha
  exact ⟨m, hm, hmb.convex (path_end_lt hpath ha) hma hab, hmb⟩

/-- The tree path from an ancestor: its internal vertices are proper
descendants of `x` and ancestors of `j`. -/
theorem Anc.path {x j : Nat} (h : T.Anc x j) (hj : j < T.n) (hne : x ≠ j) :
    PathIn T.edge (fun y => T.Anc x y ∧ x ≠ y ∧ T.Anc y j) x j := by
  induction h with
  | refl => exact absurd rfl hne
  | @tail b c hxb hbc ih =>
    obtain ⟨hc, rfl⟩ := hbc
    have hedge := T.parent_edge c hc hj
    by_cases hxp : x = T.parent c
    · subst hxp
      exact .edge hedge
    · have hpath := ih (by have := T.parent_lt c hc hj; omega) hxp
      exact (hpath.mono fun y ⟨hxy, hne, hyp⟩ => ⟨hxy, hne, hyp.of_parent hc⟩).snoc
        ⟨hxb, hxp, anc_parent hc⟩ hedge

end DfsTree

end HeapLens.Dominance
