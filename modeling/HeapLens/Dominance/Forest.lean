import HeapLens.Graph.Dominators
import HeapLens.Dominance.Tree

/-!
# The link–eval forest

`compress`, `eval` and `link` keep the forest of `Dominators` in the shape that
steps 2 and 3 rely on.  When the vertices numbered above `i` are linked, each of
them points to a proper tree ancestor below which the tree path is linked, and
`best` holds a vertex of that path with the least `semi`; the others are roots
of the forest.  `eval` of a linked vertex then returns a vertex with the least
`semi` among all its linked tree ancestors: the minimum that the semidominator
and the immediate dominator are computed from.

The vertices are named by their DFS numbers through `V`, injective on the
numbers of the tree `T`.
-/

namespace HeapLens.Dominance

open HeapLens.Graph DfsTree
open Function (update update_noteq update_same)

/-! ## What the forest operations leave unchanged -/

/-- `compress` writes only `ancestor` and `best`. -/
theorem compress_eq : ∀ (f : Nat) (v : ObjID) (s : LTState),
    ∃ anc best, compress f v s = { s with ancestor := anc, best := best }
  | 0, _, s => ⟨s.ancestor, s.best, rfl⟩
  | f + 1, v, s => by
    simp only [compress]
    split
    · exact ⟨s.ancestor, s.best, rfl⟩
    split
    · obtain ⟨anc, best, h⟩ := compress_eq f (s.vertex (s.ancestor v).toNat) s
      rw [h]
      split
      · exact ⟨_, _, rfl⟩
      · exact ⟨_, _, rfl⟩
    · exact ⟨s.ancestor, s.best, rfl⟩

/-- `eval` writes only `ancestor` and `best`. -/
theorem eval_eq (v : ObjID) (s : LTState) :
    ∃ anc best, (eval v s).2 = { s with ancestor := anc, best := best } := by
  unfold eval
  split
  · exact ⟨s.ancestor, s.best, rfl⟩
  · exact compress_eq _ v s

/-! ## The forest invariant -/

/-- `y` lies on the tree path `(a, j]`. -/
def OnPath (T : DfsTree) (a j y : Nat) : Prop := T.Anc a y ∧ a ≠ y ∧ T.Anc y j

/-- The forest entry of the linked vertex numbered `j`: it points to its proper
ancestor `a`, the tree path `(a, j]` is linked, and `b` is a vertex of that
path with the least `semi`. -/
def LinkedEntry (T : DfsTree) (V : Nat → ObjID) (i : Nat) (s : LTState) (j a b : Nat) : Prop :=
  T.Anc a j ∧ a ≠ j ∧ (∀ y, OnPath T a j y → i < y) ∧ OnPath T a j b ∧
    ∀ y, OnPath T a j y → s.semi (V b) ≤ s.semi (V y)

/-- The forest when the vertices numbered above `i` are linked. -/
structure ForestInv (T : DfsTree) (V : Nat → ObjID) (i : Nat) (s : LTState) : Prop where
  root : ∀ j < T.n, j ≤ i → s.ancestor (V j) = -1 ∧ s.best (V j) = V j
  linked : ∀ j < T.n, i < j → ∃ a b : Nat,
    s.ancestor (V j) = a ∧ s.best (V j) = V b ∧ LinkedEntry T V i s j a b

variable {T : DfsTree} {V : Nat → ObjID}

/-- The tree path `(r, j]` through `a` is `(r, a]` followed by `(a, j]`. -/
theorem onPath_split {r a j y : Nat} (hj : j < T.n) (haj : T.Anc a j)
    (hy : OnPath T r j y) : OnPath T r a y ∨ OnPath T a j y := by
  obtain ⟨hry, hry', hyj⟩ := hy
  rcases hyj.total haj hj with hya | hay
  · exact .inl ⟨hry, hry', hya⟩
  · by_cases hay' : a = y
    · subst hay'
      exact .inl ⟨hry, hry', Anc.refl a⟩
    · exact .inr ⟨hay, hay', hyj⟩

theorem onPath_of_left {r a j y : Nat} (haj : T.Anc a j) (hy : OnPath T r a y) :
    OnPath T r j y :=
  ⟨hy.1, hy.2.1, hy.2.2.trans haj⟩

theorem onPath_of_right {r a j y : Nat} (hj : j < T.n) (hra : OnPath T r a a) (hy : OnPath T a j y) :
    OnPath T r j y := by
  have hyn : y < T.n := lt_of_le_of_lt (hy.2.2.le hj) hj
  refine ⟨hra.1.trans hy.1, fun hry => hra.2.1 (hra.1.antisymm (hry ▸ hy.1) ?_), hy.2.2⟩
  have := hy.1.le hyn
  omega

theorem LinkedEntry.of_semi {i : Nat} {s s' : LTState} (hsemi : s'.semi = s.semi) {j a b : Nat}
    (h : LinkedEntry T V i s j a b) : LinkedEntry T V i s' j a b := by
  unfold LinkedEntry
  rw [hsemi]
  exact h

namespace ForestInv

variable {i : Nat} {s : LTState}

/-- `semi` may change at the vertices that are not linked. -/
theorem congr_semi (hinv : ForestInv T V i s) {s' : LTState} (hanc : s'.ancestor = s.ancestor)
    (hbest : s'.best = s.best) (hsemi : ∀ y < T.n, i < y → s'.semi (V y) = s.semi (V y)) :
    ForestInv T V i s' := by
  refine ⟨fun j hj hji => hanc ▸ hbest ▸ hinv.root j hj hji, fun j hj hij => ?_⟩
  obtain ⟨a, b, ha, hb, haj, haj', hpath, hab, hmin⟩ := hinv.linked j hj hij
  have hlt : ∀ y, OnPath T a j y → y < T.n := fun y hy => lt_of_le_of_lt (hy.2.2.le hj) hj
  refine ⟨a, b, hanc ▸ ha, hbest ▸ hb, haj, haj', hpath, hab, fun y hy => ?_⟩
  rw [hsemi b (hlt b hab) (hpath b hab), hsemi y (hlt y hy) (hpath y hy)]
  exact hmin y hy

/-- Rewriting the entry of one linked vertex with a valid entry. -/
theorem setEntry (hV : ∀ a b, a < T.n → b < T.n → V a = V b → a = b)
    (hinv : ForestInv T V i s) {j a b : Nat} (hjn : j < T.n) (hij : i < j)
    (hent : LinkedEntry T V i s j a b) {s' : LTState}
    (hanc : s'.ancestor = update s.ancestor (V j) a) (hbest : s'.best = update s.best (V j) (V b))
    (hsemi : s'.semi = s.semi) : ForestInv T V i s' := by
  have hne : ∀ y < T.n, y ≠ j → V y ≠ V j := fun y hy hyj e => hyj (hV y j hy hjn e)
  refine ⟨fun y hy hyi => ?_, fun y hy hiy => ?_⟩
  · simpa [hanc, hbest, update_noteq (hne y hy (by omega))] using hinv.root y hy hyi
  · by_cases hyj : y = j
    · subst hyj
      exact ⟨a, b, by simp [hanc], by simp [hbest], hent.of_semi hsemi⟩
    · obtain ⟨a', b', ha', hb', hent'⟩ := hinv.linked y hy hiy
      exact ⟨a', b', by simp [hanc, update_noteq (hne y hy hyj), ha'],
        by simp [hbest, update_noteq (hne y hy hyj), hb'], hent'.of_semi hsemi⟩

/-- Linking the vertex numbered `i` to its tree parent. -/
theorem link (hV : ∀ a b, a < T.n → b < T.n → V a = V b → a = b)
    (hinv : ForestInv T V i s) (hi : 0 < i) (hin : i < T.n) :
    ForestInv T V (i - 1) (HeapLens.Graph.link (V i) (T.parent i : Int) s) := by
  have hne : ∀ y < T.n, y ≠ i → V y ≠ V i := fun y hy hyi e => hyi (hV y i hy hin e)
  have hpi := T.parent_lt i hi hin
  refine ⟨fun y hy hyi => ?_, fun y hy hiy => ?_⟩
  · simpa [HeapLens.Graph.link, update_noteq (hne y hy (by omega))] using
      hinv.root y hy (by omega)
  · by_cases hyi : y = i
    · subst hyi
      have honly : ∀ z, OnPath T (T.parent y) y z → z = y := by
        rintro z ⟨hpz, hpz', hzy⟩
        by_contra hzy'
        have := hzy.le hy
        exact hpz' (hpz.antisymm (hzy.to_parent hzy').1 (by omega))
      refine ⟨T.parent y, y, by simp [HeapLens.Graph.link], (hinv.root y hy le_rfl).2,
        anc_parent hi, Nat.ne_of_lt hpi, fun z hz => by rw [honly z hz]; omega,
        ⟨anc_parent hi, Nat.ne_of_lt hpi, Anc.refl y⟩, fun z hz => by rw [honly z hz]⟩
    · obtain ⟨a, b, ha, hb, haj, haj', hpath, hab, hmin⟩ := hinv.linked y hy (by omega)
      exact ⟨a, b, by simp [HeapLens.Graph.link, update_noteq (hne y hy hyi), ha], hb, haj,
        haj', fun z hz => by have := hpath z hz; omega, hab, hmin⟩

end ForestInv

namespace LinkedEntry

variable {i : Nat} {s : LTState}

theorem lt (h : LinkedEntry T V i s j a b) (hjn : j < T.n) : a < j :=
  h.1.lt_of_ne hjn h.2.1

/-- Joining the entry `(r, a]` of `a` and the entry `(a, j]` of `j` into an
entry `(r, j]` of `j`, with the better of the two vertices. -/
theorem join {j a r b₁ b₂ b : Nat} (hjn : j < T.n) (h₁ : LinkedEntry T V i s a r b₁)
    (h₂ : LinkedEntry T V i s j a b₂) (hb : b = b₁ ∨ b = b₂)
    (hmin : s.semi (V b) ≤ s.semi (V b₁) ∧ s.semi (V b) ≤ s.semi (V b₂)) :
    LinkedEntry T V i s j r b := by
  have hra : OnPath T r a a := ⟨h₁.1, h₁.2.1, Anc.refl a⟩
  have hrj : r < j := lt_of_lt_of_le (h₁.lt (lt_of_le_of_lt (h₂.1.le hjn) hjn)) (h₂.1.le hjn)
  refine ⟨h₁.1.trans h₂.1, Nat.ne_of_lt hrj, fun y hy => ?_, ?_, fun y hy => ?_⟩
  · rcases onPath_split hjn h₂.1 hy with hy | hy
    · exact h₁.2.2.1 y hy
    · exact h₂.2.2.1 y hy
  · rcases hb with rfl | rfl
    · exact onPath_of_left h₂.1 h₁.2.2.2.1
    · exact onPath_of_right hjn hra h₂.2.2.2.1
  · rcases onPath_split hjn h₂.1 hy with hy | hy
    · exact le_trans hmin.1 (h₁.2.2.2.2 y hy)
    · exact le_trans hmin.2 (h₂.2.2.2.2 y hy)

end LinkedEntry

/-! ## `compress`, `eval` and `link` -/

variable (hV : ∀ a b, a < T.n → b < T.n → V a = V b → a = b)

include hV in
/-- `compress` of a linked vertex points it to the root of its tree in the
forest, keeping the invariant and the entries of the vertices numbered above it. -/
theorem compress_spec {i : Nat} :
    ∀ f j s, ForestInv T V i s → s.vertex = V → i < j → j < T.n → j < f →
      ForestInv T V i (compress f (V j) s) ∧
      (∃ r : Nat, (compress f (V j) s).ancestor (V j) = r ∧ r ≤ i) ∧
      ∀ y < T.n, j < y → (compress f (V j) s).ancestor (V y) = s.ancestor (V y) ∧
        (compress f (V j) s).best (V y) = s.best (V y)
  | 0, _, _, _, _, _, _, hjf => absurd hjf (Nat.not_lt_zero _)
  | f + 1, j, s, hinv, hvert, hij, hjn, hjf => by
    obtain ⟨a, bj, ha, hbj, hent⟩ := hinv.linked j hjn hij
    have haj := hent.lt hjn
    have hne : ∀ y < T.n, y ≠ j → V y ≠ V j := fun y hy hyj e => hyj (hV y j hy hjn e)
    simp only [compress, ha, hvert, Int.toNat_ofNat]
    rw [if_neg (by omega)]
    by_cases hia : i < a
    · obtain ⟨a', -, ha', -⟩ := hinv.linked a (by omega) hia
      rw [if_pos (by rw [ha']; omega)]
      obtain ⟨hinv₁, ⟨r, hr, hri⟩, hframe⟩ :=
        compress_spec f a s hinv hvert hia (by omega) (by omega)
      have hsemi₁ : (compress f (V a) s).semi = s.semi := by
        obtain ⟨_, _, h⟩ := compress_eq f (V a) s
        rw [h]
      set s₁ := compress f (V a) s
      obtain ⟨r', b₁, hr', hb₁, hent₁⟩ := hinv₁.linked a (by omega) hia
      obtain rfl : r = r' := by rw [hr] at hr'; exact_mod_cast hr'
      obtain ⟨hanc₁, hbest₁⟩ := hframe j hjn haj
      have hent' := hent.of_semi hsemi₁
      have hfinish : ∀ b (s' : LTState), LinkedEntry T V i s₁ j r b →
          s'.ancestor = update s₁.ancestor (V j) r → s'.best = update s₁.best (V j) (V b) →
          s'.semi = s₁.semi →
          ForestInv T V i s' ∧ (∃ r : Nat, s'.ancestor (V j) = r ∧ r ≤ i) ∧
            ∀ y < T.n, j < y → s'.ancestor (V y) = s.ancestor (V y) ∧
              s'.best (V y) = s.best (V y) := fun b s' hb hanc hbest hsemi =>
        ⟨hinv₁.setEntry hV hjn hij hb hanc hbest hsemi, ⟨r, by simp [hanc], hri⟩,
          fun y hy hjy => by
            simpa [hanc, hbest, update_noteq (hne y hy (by omega))] using
              hframe y hy (by omega)⟩
      split
      · rename_i hlt
        rw [hb₁, hbest₁, hbj] at hlt
        exact hfinish b₁ _ (hent₁.join hjn hent' (.inl rfl) ⟨le_refl _, le_of_lt hlt⟩)
          (by simp [hr]) (by simp [hb₁]) rfl
      · rename_i hge
        rw [hb₁, hbest₁, hbj] at hge
        exact hfinish bj _ (hent₁.join hjn hent' (.inr rfl) ⟨not_lt.mp hge, le_refl _⟩)
          (by simp [hr]) (by simp only; rw [← hbj, ← hbest₁, Function.update_eq_self]) rfl
    · rw [if_neg (by rw [(hinv.root a (by omega) (by omega)).1]; simp)]
      exact ⟨hinv, ⟨a, ha, by omega⟩, fun _ _ _ => ⟨rfl, rfl⟩⟩

include hV in
/-- `eval` of a vertex numbered above `i` returns a vertex with the least `semi`
among the tree ancestors of that vertex numbered above `i`. -/
theorem eval_spec {i j : Nat} {s : LTState} (hinv : ForestInv T V i s) (hvert : s.vertex = V)
    (hn : s.dfsNum = T.n) (hij : i < j) (hjn : j < T.n) :
    ∃ b, (eval (V j) s).1 = V b ∧ i < b ∧ T.Anc b j ∧
      (∀ y, i < y → T.Anc y j → s.semi (V b) ≤ s.semi (V y)) ∧
      ForestInv T V i (eval (V j) s).2 := by
  obtain ⟨a, -, ha, -, -⟩ := hinv.linked j hjn hij
  have hsemi : (compress (s.dfsNum + 1) (V j) s).semi = s.semi := by
    obtain ⟨_, _, h⟩ := compress_eq (s.dfsNum + 1) (V j) s
    rw [h]
  simp only [eval, ha]
  rw [if_neg (by omega)]
  obtain ⟨hinv', ⟨r, hr, hri⟩, -⟩ := compress_spec hV (s.dfsNum + 1) j s hinv hvert hij hjn (by omega)
  obtain ⟨r', b, hr', hb, hent⟩ := hinv'.linked j hjn hij
  obtain rfl : r = r' := by rw [hr] at hr'; exact_mod_cast hr'
  refine ⟨b, hb, hent.2.2.1 b hent.2.2.2.1, hent.2.2.2.1.2.2, fun y hiy hyj => ?_, hinv'⟩
  have hy : OnPath T r j y := by
    refine ⟨?_, by omega, hyj⟩
    rcases hent.1.total hyj hjn with hry | hyr
    · exact hry
    · have := hyr.le (lt_of_le_of_lt (hent.1.le hjn) hjn)
      omega
  rw [← hsemi]
  exact hent.2.2.2.2 y hy

/-- `eval` of a forest root returns it and changes nothing. -/
theorem eval_root {v : ObjID} {s : LTState} (h : s.ancestor v = -1) : eval v s = (v, s) := by
  simp [eval, h]

end HeapLens.Dominance
