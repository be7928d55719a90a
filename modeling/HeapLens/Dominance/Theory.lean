import HeapLens.Dominance.Tree
import Mathlib.Data.Nat.Find

/-!
# Semidominators and immediate dominators

The theory behind the Lengauer–Tarjan algorithm on a `DfsTree`, over DFS
numbers.  The semidominator of `w` is the least vertex from which a path reaches
`w` through vertices numbered above `w`; it is the least of the predecessors of
`w` below it and of the semidominators of the ancestors above `w` of its other
predecessors.  A vertex `d` dominates `w` when no path from the root to `w`
avoids it, and the immediate dominator is the proper dominator that every other
proper dominator dominates.  It is a tree ancestor of the semidominator, and the
semidominators on the tree path down to `w` give it: it is the semidominator
when none on the path is smaller, and otherwise the immediate dominator of the
vertex with the least one.  These are the two cases that step 3 of the
algorithm tells apart.
-/

namespace HeapLens.Dominance

namespace DfsTree

variable (T : DfsTree)

/-- A semidominator path from `v` to `w`: its internal vertices are numbered above `w`. -/
def SemiPath (v w : Nat) : Prop := PathIn T.edge (fun x => w < x) v w

/-- `s` is the semidominator of `w`: the least start of a semidominator path to `w`. -/
def IsSdom (w s : Nat) : Prop := T.SemiPath s w ∧ ∀ v, T.SemiPath v w → s ≤ v

/-- A path from `a` to `b`, possibly empty, that avoids `d`. -/
def Avoids (d a b : Nat) : Prop := a ≠ d ∧ b ≠ d ∧ (a = b ∨ PathIn T.edge (· ≠ d) a b)

/-- `d` dominates `w`: every path from the root to `w` passes through `d`. -/
def Dom (d w : Nat) : Prop := ¬ T.Avoids d 0 w

/-- `d` is the immediate dominator of `w`: a proper dominator of `w` that every
other proper dominator of `w` dominates. -/
def IsIdom (d w : Nat) : Prop := d ≠ w ∧ T.Dom d w ∧ ∀ x, x ≠ w → T.Dom x w → T.Dom x d

variable {T}

/-! ## Semidominators -/

theorem semiPath_parent {w : Nat} (hw : 0 < w) (hwn : w < T.n) : T.SemiPath (T.parent w) w :=
  .edge (T.parent_edge w hw hwn)

theorem sdom_exists {w : Nat} (hw : 0 < w) (hwn : w < T.n) : ∃ s, T.IsSdom w s := by
  classical
  have hex : ∃ v, T.SemiPath v w := ⟨_, semiPath_parent hw hwn⟩
  exact ⟨Nat.find hex, Nat.find_spec hex, fun v hv => Nat.find_min' hex hv⟩

theorem IsSdom.unique {w s s' : Nat} (h : T.IsSdom w s) (h' : T.IsSdom w s') : s = s' :=
  le_antisymm (h.2 _ h'.1) (h'.2 _ h.1)

theorem IsSdom.lt {w s : Nat} (h : T.IsSdom w s) (hw : 0 < w) (hwn : w < T.n) : s < w :=
  lt_of_le_of_lt (h.2 _ (semiPath_parent hw hwn)) (T.parent_lt w hw hwn)

/-- The semidominator is a tree ancestor. -/
theorem IsSdom.anc {w s : Nat} (h : T.IsSdom w s) (hw : 0 < w) (hwn : w < T.n) :
    T.Anc s w := by
  have hsw := h.lt hw hwn
  obtain ⟨m, hm, hms, hmw⟩ := path_common_anc h.1 (by omega) (Nat.le_of_lt hsw)
  rcases hm with rfl | hm | rfl
  · exact hmw
  · exact absurd (hmw.le hwn) (by omega)
  · exact absurd (hms.le (by omega)) (by omega)

/-- A path none of whose internal vertices is an ancestor of its end runs above
its end. -/
theorem path_above {S : Nat → Prop} {a b : Nat} (hpath : PathIn T.edge S a b) (ha : a < T.n)
    (hS : ∀ z, S z → ¬ T.Anc z b) : PathIn T.edge (fun z => S z ∧ b < z) a b := by
  induction hpath with
  | edge h => exact .edge h
  | @cons a c b hac hc hcb ih =>
    have hcn := T.edge_closed a c hac ha
    refine .cons hac ⟨hc, ?_⟩ (ih hcn hS)
    by_contra hle
    obtain ⟨m, hm, hmc, hmb⟩ := path_common_anc hcb hcn (by omega)
    rcases hm with hm | hm | hm
    · exact hS c hc (hm ▸ hmb)
    · exact hS m hm hmb
    · subst hm
      obtain rfl : m = c := le_antisymm (hmc.le hcn) (by omega)
      exact hS m hc (Anc.refl m)

/-- Semidominator paths to ancestors above `w` of a predecessor of `w` extend to `w`. -/
theorem semiPath_of_anc_pred {w u v su : Nat} (hwu : w < u) (huv : T.Anc u v) (hv : v < T.n)
    (hvw : T.edge v w) (hsu : T.SemiPath su u) : T.SemiPath su w := by
  have hupath : PathIn T.edge (fun x => w < x) su u := hsu.mono fun x hx => by omega
  have hwv : w < v := lt_of_lt_of_le hwu (huv.le hv)
  by_cases huv' : u = v
  · subst huv'
    exact hupath.snoc hwu hvw
  · have htree : PathIn T.edge (fun x => w < x) u v :=
      (huv.path hv huv').mono fun y ⟨huy, hne, hyv⟩ => by
        have := huy.lt_of_ne (lt_of_le_of_lt (hyv.le hv) hv) hne
        omega
    exact (hupath.trans hwu htree).snoc hwv hvw

/-- The semidominator is at most every predecessor below `w`. -/
theorem IsSdom.le_pred {w s v : Nat} (h : T.IsSdom w s) (hw : 0 < w) (hwn : w < T.n)
    (hvw : T.edge v w) (hle : v ≤ w) : s ≤ v := by
  rcases Nat.lt_or_ge v w with hlt | hge
  · exact h.2 v (.edge hvw)
  · have := h.lt hw hwn
    omega

/-- The semidominator is at most the semidominator of every ancestor above `w`
of a predecessor. -/
theorem IsSdom.le_sdom {w s u v su : Nat} (h : T.IsSdom w s) (hwu : w < u) (huv : T.Anc u v)
    (hv : v < T.n) (hvw : T.edge v w) (hsu : T.IsSdom u su) : s ≤ su :=
  h.2 su (semiPath_of_anc_pred hwu huv hv hvw hsu.1)

/-- The semidominator is attained: it is a predecessor below `w`, or is no
smaller than the semidominator of an ancestor above `w` of a predecessor. -/
theorem IsSdom.attained {w s : Nat} (h : T.IsSdom w s) (hw : 0 < w) (hwn : w < T.n) :
    (T.edge s w ∧ s < w) ∨
      ∃ v u su, T.edge v w ∧ w < v ∧ w < u ∧ T.Anc u v ∧ T.IsSdom u su ∧ su ≤ s := by
  have hsw := h.lt hw hwn
  rcases h.1.last with hedge | ⟨v, hwv, hsv, hvw⟩
  · exact .inl ⟨hedge, hsw⟩
  · obtain ⟨u, huv, hu, hsu⟩ := hsv.split_first (Q := fun z => T.Anc z v) (Anc.refl v)
    have hvn : v < T.n := path_end_lt hsv (by omega)
    have hwu : w < u := by
      rcases hu with rfl | hu <;> assumption
    have hun : u < T.n := lt_of_le_of_lt (huv.le hvn) hvn
    have hsemi : T.SemiPath s u :=
      (path_above hsu (by omega) fun z hz hzu => hz.2 (hzu.trans huv)).mono fun z hz => hz.2
    obtain ⟨su, hsu'⟩ := sdom_exists (by omega) hun
    exact .inr ⟨v, u, su, hvw, hwv, hwu, huv, hsu', hsu'.2 s hsemi⟩

/-! ## Paths that avoid a vertex -/

theorem Avoids.trans {d a b c : Nat} (h₁ : T.Avoids d a b) (h₂ : T.Avoids d b c) :
    T.Avoids d a c := by
  obtain ⟨had, hbd, hab⟩ := h₁
  obtain ⟨-, hcd, hbc⟩ := h₂
  refine ⟨had, hcd, ?_⟩
  rcases hab with rfl | hab
  · exact hbc
  · rcases hbc with rfl | hbc
    · exact .inr hab
    · exact .inr (hab.trans hbd hbc)

theorem avoids_of_path {S : Nat → Prop} {d a b : Nat} (hpath : PathIn T.edge S a b)
    (ha : a ≠ d) (hb : b ≠ d) (hS : ∀ z, S z → z ≠ d) : T.Avoids d a b :=
  ⟨ha, hb, .inr (hpath.mono hS)⟩

/-- The tree path from the root to `a` avoids every vertex numbered above `a`. -/
theorem avoids_root_of_lt {d a : Nat} (had : a < d) (ha : a < T.n) : T.Avoids d 0 a := by
  rcases Nat.eq_zero_or_pos a with rfl | hpos
  · exact ⟨by omega, by omega, .inl rfl⟩
  · exact avoids_of_path ((anc_zero a ha).path ha (by omega)) (by omega) (by omega)
      fun z ⟨_, _, hza⟩ => by have := hza.le ha; omega

/-- The tree path down from a vertex numbered above `d` avoids `d`. -/
theorem avoids_of_anc {d a b : Nat} (hab : T.Anc a b) (hb : b < T.n) (hda : d < a) :
    T.Avoids d a b := by
  by_cases h : a = b
  · exact ⟨by omega, by omega, .inl h⟩
  · exact avoids_of_path (hab.path hb h) (by omega) (by have := hab.le hb; omega)
      fun z ⟨haz, _, hzb⟩ => by have := haz.le (lt_of_le_of_lt (hzb.le hb) hb); omega

/-! ## Dominators -/

theorem dom_root (w : Nat) : T.Dom 0 w := fun h => h.1 rfl

theorem dom_refl (w : Nat) : T.Dom w w := fun h => h.2.1 rfl

/-- Dominators are tree ancestors. -/
theorem Dom.anc {d w : Nat} (h : T.Dom d w) (hw : w < T.n) : T.Anc d w := by
  by_contra hnot
  apply h
  have hd0 : d ≠ 0 := fun hd => hnot (hd ▸ anc_zero w hw)
  have hwd : w ≠ d := fun hwd => hnot (hwd ▸ Anc.refl w)
  rcases Nat.eq_zero_or_pos w with rfl | hpos
  · exact ⟨hd0.symm, hwd, .inl rfl⟩
  · exact avoids_of_path ((anc_zero w hw).path hw (by omega)) hd0.symm hwd
      fun z ⟨_, _, hzw⟩ hzd => hnot (hzd ▸ hzw)

/-- A dominator of `w` dominates every vertex on the tree path from it to `w`. -/
theorem Dom.of_anc_between {x d w : Nat} (h : T.Dom x w) (hxd : T.Anc x d) (hdw : T.Anc d w)
    (hw : w < T.n) : T.Dom x d := by
  intro hav
  by_cases hxd' : x = d
  · exact hav.2.1 hxd'.symm
  · have hlt := hxd.lt_of_ne (lt_of_le_of_lt (hdw.le hw) hw) hxd'
    exact h (hav.trans (avoids_of_anc hdw hw hlt))

/-- Every vertex but the root has an immediate dominator: its largest proper dominator. -/
theorem idom_exists {w : Nat} (hw : 0 < w) (hwn : w < T.n) : ∃ d, T.IsIdom d w := by
  classical
  have hd : Nat.findGreatest (fun d => d < w ∧ T.Dom d w) w < w ∧
      T.Dom (Nat.findGreatest (fun d => d < w ∧ T.Dom d w) w) w :=
    Nat.findGreatest_spec (P := fun d => d < w ∧ T.Dom d w) (Nat.zero_le w) ⟨hw, dom_root w⟩
  refine ⟨_, Nat.ne_of_lt hd.1, hd.2, fun x hxw hx => ?_⟩
  have hxlt := (hx.anc hwn).lt_of_ne hwn hxw
  have hxd := Nat.le_findGreatest (Nat.le_of_lt hxlt) (P := fun d => d < w ∧ T.Dom d w)
    ⟨hxlt, hx⟩
  exact hx.of_anc_between ((hx.anc hwn).convex hwn hxd (Nat.le_of_lt hd.1)) (hd.2.anc hwn) hwn

theorem IsIdom.anc {d w : Nat} (h : T.IsIdom d w) (hwn : w < T.n) : T.Anc d w :=
  h.2.1.anc hwn

theorem IsIdom.lt {d w : Nat} (h : T.IsIdom d w) (hwn : w < T.n) : d < w :=
  (h.anc hwn).lt_of_ne hwn h.1

theorem IsIdom.unique {d d' w : Nat} (h : T.IsIdom d w) (h' : T.IsIdom d' w) (hwn : w < T.n) :
    d = d' :=
  Anc.antisymm ((h'.2.2 d h.1 h.2.1).anc (by have := h'.lt hwn; omega))
    ((h.2.2 d' h'.1 h'.2.1).anc (by have := h.lt hwn; omega)) (by have := h'.lt hwn; omega)

/-- The immediate dominator is an ancestor of the semidominator. -/
theorem IsIdom.anc_sdom {d w s : Nat} (h : T.IsIdom d w) (hs : T.IsSdom w s) (hw : 0 < w)
    (hwn : w < T.n) : T.Anc d s := by
  have hdw := h.lt hwn
  rcases (h.anc hwn).total (hs.anc hw hwn) hwn with hds | hsd
  · exact hds
  · by_contra hnot
    have hsn : s < T.n := by have := hs.lt hw hwn; omega
    have hsd' : s < d := hsd.lt_of_ne (by omega) fun e => hnot (by rw [e]; exact Anc.refl d)
    exact h.2.1 ((avoids_root_of_lt hsd' hsn).trans
      (avoids_of_path hs.1 (by omega) h.1.symm fun z hz => by omega))

/-- The core of Theorems 2 and 3: a path from the root to `w` that avoids an
ancestor `a ≠ 0` of `w` enters the tree path from `a` down to `w` at a vertex
`y` through a semidominator path from a vertex below `a`, having avoided `a`. -/
theorem avoids_enter {a w : Nat} (haw : T.Anc a w) (hwn : w < T.n) (ha : a ≠ 0)
    (hav : T.Avoids a 0 w) :
    ∃ y x, T.Anc a y ∧ a ≠ y ∧ T.Anc y w ∧ x < a ∧ T.SemiPath x y ∧ T.Avoids a 0 y := by
  have han : a < T.n := lt_of_le_of_lt (haw.le hwn) hwn
  obtain ⟨-, hwa, h0w | hp⟩ := hav
  · subst h0w
    exact absurd (Nat.le_zero.mp (haw.le hwn)) ha
  obtain ⟨x, hxa, -, hxw⟩ := hp.split_last (P := (· < a)) (Nat.pos_of_ne_zero ha)
  obtain ⟨y, ⟨hay, hay', hyw⟩, -, hxy⟩ :=
    hxw.split_first (Q := fun z => T.Anc a z ∧ a ≠ z ∧ T.Anc z w) ⟨haw, hwa.symm, Anc.refl w⟩
  have hyn : y < T.n := lt_of_le_of_lt (hyw.le hwn) hwn
  have hxn : x < T.n := by omega
  have habove : ∀ z, (z ≠ a ∧ ¬ z < a) ∧ ¬ (T.Anc a z ∧ a ≠ z ∧ T.Anc z w) →
      ¬ T.Anc z y := by
    rintro z ⟨⟨hza, hzlt⟩, hQ⟩ hzy
    rcases hay.total hzy hyn with haz | hza'
    · exact hQ ⟨haz, Ne.symm hza, hzy.trans hyw⟩
    · have := hza'.le han
      omega
  exact ⟨y, x, hay, hay', hyw, hxa, (path_above hxy hxn habove).mono fun z hz => hz.2,
    (avoids_root_of_lt hxa hxn).trans ⟨by omega, Ne.symm hay', .inr (hxy.mono fun z hz => hz.1.1)⟩⟩

/-- When no vertex on the tree path from `sdom w` down to `w` has a
smaller semidominator, the semidominator is the immediate dominator. -/
theorem IsSdom.isIdom {w s : Nat} (hs : T.IsSdom w s) (hw : 0 < w) (hwn : w < T.n)
    (hmin : ∀ y sy, T.Anc s y → s ≠ y → T.Anc y w → T.IsSdom y sy → s ≤ sy) :
    T.IsIdom s w := by
  have hsw := hs.lt hw hwn
  have hdom : T.Dom s w := by
    intro hav
    obtain ⟨y, x, hsy, hsy', hyw, hxs, hxy, -⟩ :=
      avoids_enter (hs.anc hw hwn) hwn (fun h => hav.1 h.symm) hav
    have hyn : y < T.n := lt_of_le_of_lt (hyw.le hwn) hwn
    obtain ⟨sy, hsdy⟩ := sdom_exists (by have := hsy.lt_of_ne hyn hsy'; omega) hyn
    have := hmin y sy hsy hsy' hyw hsdy
    have := hsdy.2 x hxy
    omega
  obtain ⟨d, hd⟩ := idom_exists hw hwn
  have hdw := hd.lt hwn
  obtain rfl : d = s :=
    (hd.anc_sdom hs hw hwn).antisymm ((hd.2.2 s (Nat.ne_of_lt hsw) hdom).anc (by omega))
      (by omega)
  exact hd

/-- When `u` has the least semidominator on the tree path from
`sdom w` down to `w`, and it is below `sdom w`, then `w` has the immediate
dominator of `u`. -/
theorem IsIdom.of_sdom_lt {w s u su d : Nat} (hs : T.IsSdom w s) (hw : 0 < w) (hwn : w < T.n)
    (hsu : T.Anc s u) (hsu' : s ≠ u) (huw : T.Anc u w) (hsdu : T.IsSdom u su) (hlt : su < s)
    (hmin : ∀ y sy, T.Anc s y → s ≠ y → T.Anc y w → T.IsSdom y sy → su ≤ sy)
    (hd : T.IsIdom d u) : T.IsIdom d w := by
  have hun : u < T.n := lt_of_le_of_lt (huw.le hwn) hwn
  have hsltu := hsu.lt_of_ne hun hsu'
  have hdsu := hd.anc_sdom hsdu (by omega) hun
  have hdle := hdsu.le (by omega)
  have hdu := hd.lt hun
  have huw' := huw.le hwn
  have hdom : T.Dom d w := by
    intro hav
    obtain ⟨y, x, hdy, hdy', hyw, hxd, hxy, hav'⟩ :=
      avoids_enter ((hd.anc hun).trans huw) hwn (fun h => hav.1 h.symm) hav
    have hyn : y < T.n := lt_of_le_of_lt (hyw.le hwn) hwn
    have hdlty := hdy.lt_of_ne hyn hdy'
    have hbelow : ¬ T.Anc y u := fun hyu => hd.2.1 (hav'.trans (avoids_of_anc hyu hun hdlty))
    rcases (hs.anc hw hwn).total hyw hwn with hsy | hys
    · have hsy' : s ≠ y := fun e => hbelow (e ▸ hsu)
      obtain ⟨sy, hsdy⟩ := sdom_exists (by have := hsy.lt_of_ne hyn hsy'; omega) hyn
      have := hmin y sy hsy hsy' hyw hsdy
      have := hsdy.2 x hxy
      omega
    · exact hbelow (hys.trans hsu)
  obtain ⟨d', hd'⟩ := idom_exists hw hwn
  have hd's : T.Anc d' s := hd'.anc_sdom hs hw hwn
  have hd'le := hd's.le (by omega)
  have hdomu : T.Dom d' u := fun hav =>
    hd'.2.1 (hav.trans (avoids_of_anc huw hwn (by omega)))
  obtain rfl : d = d' :=
    ((hd'.2.2 d (by omega) hdom).anc (by omega)).antisymm
      ((hd.2.2 d' (by omega) hdomu).anc (by omega)) (by omega)
  exact hd'

end DfsTree

end HeapLens.Dominance
