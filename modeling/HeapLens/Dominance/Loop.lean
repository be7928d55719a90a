import HeapLens.Dominance.Dfs
import HeapLens.Dominance.Forest
import HeapLens.Dominance.Theory

/-!
# Steps 2–4 of `Dominators`

The reverse loop over the DFS numbers and the forward settling pass, proved
against the theory of `Theory`.  Step 2 for the vertex numbered `i` lowers
`semi` through every edge into it and ends at its semidominator
(`IsSdom.attained`, with `eval` returning the least `semi` on the linked tree
path).  Step 3 resolves the bucket of `i`'s parent: each vertex there gets its
immediate dominator now (`IsSdom.isIdom`) or defers to a vertex numbered below
it with the same immediate dominator (`IsIdom.of_sdom_lt`).  Step 4 settles the deferred ones in
increasing order.

The loop invariant `LoopInv` says what holds once the vertices numbered above
`i` are processed; a vertex waits in the bucket of its semidominator while some
vertex on the tree path below that semidominator is unprocessed (`Pending`).
-/

namespace HeapLens.Dominance

open HeapLens.Graph DfsTree
open Function (update update_noteq update_same)

/-! ## The predecessors step 2 visits -/

/-- The vertices whose edges into `w` step 2 processes, in order: an object once
for each occurrence of `w` in its `Ptrs`, then the super-root once for each
occurrence of `w` in `adj[0]`. -/
def predsOf (allObjects : List Object) (adj0 : List ObjID) (w : ObjID) : List ObjID :=
  allObjects.flatMap (fun o => (o.ptrs.filter (· = w)).map fun _ => o.id) ++
    (adj0.filter (· = w)).map fun _ => 0

theorem foldl_ptrs (ptrs : List ObjID) (id w : ObjID) (s : LTState) :
    ptrs.foldl (fun s ptr => if ptr = w then processEdge id w s else s) s =
      ((ptrs.filter (· = w)).map fun _ => id).foldl (fun s v => processEdge v w s) s := by
  induction ptrs generalizing s with
  | nil => rfl
  | cons p ps ih => by_cases h : p = w <;> simp [List.filter_cons, h, ih]

/-- Step 2 is `processEdge` over `predsOf`. -/
theorem semiStep_eq (allObjects : List Object) (adj0 : List ObjID) (w : ObjID) (s : LTState) :
    semiStep allObjects adj0 w s =
      (predsOf allObjects adj0 w).foldl (fun s v => processEdge v w s) s := by
  have hobjs : ∀ (os : List Object) s, os.foldl (fun s v =>
      v.ptrs.foldl (fun s ptr => if ptr = w then processEdge v.id w s else s) s) s =
      (os.flatMap fun o => (o.ptrs.filter (· = w)).map fun _ => o.id).foldl
        (fun s v => processEdge v w s) s := by
    intro os
    induction os with
    | nil => intro s; rfl
    | cons o os ih =>
      intro s
      rw [List.foldl_cons, ih, foldl_ptrs, List.flatMap_cons, List.foldl_append]
  simp only [semiStep]
  rw [hobjs, foldl_ptrs, predsOf, List.foldl_append]

theorem mem_predsOf {allObjects : List Object} {adj0 : List ObjID} {w v : ObjID} :
    v ∈ predsOf allObjects adj0 w ↔
      (∃ o ∈ allObjects, w ∈ o.ptrs ∧ v = o.id) ∨ (w ∈ adj0 ∧ v = 0) := by
  simp [predsOf]

/-! ## Step 2: semidominators -/

section Loop

variable {adj : ObjID → List ObjID} {U : List ObjID} {s0 : LTState} (hd : DfsDone adj U s0)

/-- The state during step 2 for the vertex numbered `i`, whose semidominator is
`sd`: the forest links the vertices above `i`, whose `semi` is their
semidominator; `semi` of `i` lies between `sd` and `i`, and the vertices below
`i` still have their own number. -/
structure SemiInv (i sd : Nat) (s : LTState) : Prop where
  dfsNum : s.dfsNum = s0.dfsNum
  vertex : s.vertex = s0.vertex
  dfnum : s.dfnum = s0.dfnum
  parent : s.parent = s0.parent
  forest : ForestInv hd.tree s0.vertex i s
  done : ∀ j < s0.dfsNum, i < j → hd.tree.IsSdom j (s.semi (s0.vertex j))
  fresh : ∀ j < s0.dfsNum, j < i → s.semi (s0.vertex j) = j
  lower : sd ≤ s.semi (s0.vertex i)
  upper : s.semi (s0.vertex i) ≤ i

/-- The bound that an edge from the vertex numbered `a` puts on `semi` of the
vertex numbered `i`: a candidate for its semidominator. -/
def EdgeBound (T : DfsTree) (i a m : Nat) : Prop :=
  (a ≤ i → m ≤ a) ∧ (i < a → ∀ y sy, i < y → T.Anc y a → T.IsSdom y sy → m ≤ sy)

theorem EdgeBound.mono {T : DfsTree} {i a m m' : Nat} (h : EdgeBound T i a m) (hm : m' ≤ m) :
    EdgeBound T i a m' :=
  ⟨fun ha => le_trans hm (h.1 ha), fun ha y sy hy hya hsy => le_trans hm (h.2 ha y sy hy hya hsy)⟩

include hd in
theorem vertex_inj : ∀ a b, a < hd.tree.n → b < hd.tree.n → s0.vertex a = s0.vertex b → a = b :=
  fun _ _ ha hb hab => hd.inv.vertex_injective ha hb hab

namespace SemiInv

variable {hd} {i sd : Nat} {s : LTState}

/-- Setting `semi` of the vertex numbered `i` to a value between `sd` and `i`. -/
theorem setSemi (hinv : SemiInv hd i sd s) (hin : i < s0.dfsNum) {m : Nat} (hlo : sd ≤ m)
    (hup : m ≤ i) : SemiInv hd i sd { s with semi := update s.semi (s0.vertex i) m } := by
  have hne : ∀ j < s0.dfsNum, j ≠ i → s0.vertex j ≠ s0.vertex i := fun j hj hji e =>
    hji (hd.inv.vertex_injective hj hin e)
  refine ⟨hinv.dfsNum, hinv.vertex, hinv.dfnum, hinv.parent,
    hinv.forest.congr_semi rfl rfl fun y hy hiy => ?_, fun j hj hij => ?_, fun j hj hji => ?_,
    by simpa, by simpa⟩
  · simp [update_noteq (hne y hy (by omega))]
  · simpa [update_noteq (hne j hj (by omega))] using hinv.done j hj hij
  · simpa [update_noteq (hne j hj (by omega))] using hinv.fresh j hj hji

/-- `eval` keeps step 2's invariant when it keeps the forest's. -/
theorem of_eval (hinv : SemiInv hd i sd s) {v : ObjID}
    (hforest : ForestInv hd.tree s0.vertex i (eval v s).2) : SemiInv hd i sd (eval v s).2 := by
  obtain ⟨anc, best, h⟩ := eval_eq v s
  rw [h] at hforest ⊢
  exact ⟨hinv.dfsNum, hinv.vertex, hinv.dfnum, hinv.parent, hforest, hinv.done, hinv.fresh,
    hinv.lower, hinv.upper⟩

/-- What `processEdge` does for one edge into the vertex numbered `i`: it keeps
the invariant and the other fields, lowers `semi` of `i`, and leaves it below
the candidate of the edge. -/
theorem processEdge_spec (hinv : SemiInv hd i sd s) (hin : i < s0.dfsNum)
    (hsd : hd.tree.IsSdom i sd) {v : ObjID}
    (hv : ∀ a, s0.dfnum v = some a → hd.tree.edge a i) :
    let s' := processEdge v (s0.vertex i) s
    SemiInv hd i sd s' ∧ s'.idom = s.idom ∧ s'.samedom = s.samedom ∧ s'.bucket = s.bucket ∧
      s'.semi (s0.vertex i) ≤ s.semi (s0.vertex i) ∧
      ∀ a, s0.dfnum v = some a → EdgeBound hd.tree i a (s'.semi (s0.vertex i)) := by
  have hnum : s.num (s0.vertex i) = i := by
    simp [LTState.num, hinv.dfnum, hd.inv.dfnum_vertex i hin]
  cases hdv : s0.dfnum v with
  | none =>
    rw [processEdge_none (by rw [hinv.dfnum]; exact hdv)]
    exact ⟨hinv, rfl, rfl, rfl, le_rfl, by simp⟩
  | some a =>
    have hedge := hv a hdv
    obtain ⟨han, rfl⟩ := hd.inv.vertex_dfnum v a hdv
    have hdv' : s.dfnum (s0.vertex a) = some a := by rw [hinv.dfnum]; exact hdv
    have hbound : ∀ m, EdgeBound hd.tree i a m → ∀ a', some a = some a' →
        EdgeBound hd.tree i a' m := by
      rintro m hm a' ⟨⟩
      exact hm
    rcases Nat.lt_or_ge i a with hia | hai
    · rw [processEdge_of_lt hdv' (by rw [hnum]; exact hia)]
      obtain ⟨b, hb, hib, hba, hmin, hforest⟩ :=
        eval_spec (vertex_inj hd) hinv.forest hinv.vertex hinv.dfsNum hia han
      obtain ⟨anc, best, heq⟩ := eval_eq (s0.vertex a) s
      have hsemi : (eval (s0.vertex a) s).2.semi = s.semi := by rw [heq]
      have hsdb := hinv.done b (lt_of_le_of_lt (hba.le han) han) hib
      dsimp only
      rw [hb]
      refine ⟨(hinv.of_eval hforest).setSemi hin ?_ ?_, by simp [heq], by simp [heq],
        by simp [heq], by simp [hsemi], hbound _ ⟨fun h => absurd h (by omega),
          fun _ y sy hiy hya hsy => ?_⟩⟩
      · rw [hsemi]
        exact le_min hinv.lower (hsd.le_sdom hib hba han hedge hsdb)
      · rw [hsemi]
        exact le_trans (min_le_left _ _) hinv.upper
      · have hyn : y < s0.dfsNum := lt_of_le_of_lt (hya.le han) han
        obtain rfl := hsy.unique (hinv.done y hyn hiy)
        simpa [hsemi] using Or.inr (hmin y hiy hya)
    · rw [processEdge_of_le hdv' (by rw [hnum]; exact hai)]
      have hsema : sd ≤ s.semi (s0.vertex a) ∧
          (a ≤ i → min (s.semi (s0.vertex i)) (s.semi (s0.vertex a)) ≤ a) := by
        rcases Nat.lt_or_ge a i with hai' | hia'
        · rw [hinv.fresh a han hai']
          exact ⟨hsd.le_pred (by omega) hin hedge hai, fun _ => min_le_right _ _⟩
        · obtain rfl : a = i := le_antisymm hai hia'
          exact ⟨hinv.lower, fun _ => le_trans (min_le_left _ _) hinv.upper⟩
      refine ⟨hinv.setSemi hin (le_min hinv.lower hsema.1)
        (le_trans (min_le_left _ _) hinv.upper), rfl, rfl, rfl, by simp,
        hbound _ ⟨fun h => by simpa using hsema.2 h, fun h => absurd h (by omega)⟩⟩

/-- `processEdge` over a list of predecessors of the vertex numbered `i`. -/
theorem processEdges_spec (hin : i < s0.dfsNum) (hsd : hd.tree.IsSdom i sd) :
    ∀ (L : List ObjID) (s : LTState), SemiInv hd i sd s →
      (∀ v ∈ L, ∀ a, s0.dfnum v = some a → hd.tree.edge a i) →
      let s' := L.foldl (fun s v => processEdge v (s0.vertex i) s) s
      SemiInv hd i sd s' ∧ s'.idom = s.idom ∧ s'.samedom = s.samedom ∧ s'.bucket = s.bucket ∧
        s'.semi (s0.vertex i) ≤ s.semi (s0.vertex i) ∧
        ∀ v ∈ L, ∀ a, s0.dfnum v = some a → EdgeBound hd.tree i a (s'.semi (s0.vertex i))
  | [], s, hinv, _ => ⟨hinv, rfl, rfl, rfl, le_rfl, by simp⟩
  | v :: L, s, hinv, hL => by
    obtain ⟨hinv₁, hi₁, hs₁, hb₁, hle₁, hbd₁⟩ := hinv.processEdge_spec hin hsd (hL v (by simp))
    obtain ⟨hinv₂, hi₂, hs₂, hb₂, hle₂, hbd₂⟩ :=
      processEdges_spec hin hsd L _ hinv₁ fun w hw => hL w (by simp [hw])
    refine ⟨hinv₂, hi₂.trans hi₁, hs₂.trans hs₁, hb₂.trans hb₁, le_trans hle₂ hle₁,
      fun w hw a ha => ?_⟩
    rcases List.mem_cons.mp hw with rfl | hw
    · exact (hbd₁ a ha).mono hle₂
    · exact hbd₂ w hw a ha

end SemiInv

/-- Step 2 visits exactly the edges of `adj`. -/
def PredsExact (allObjects : List Object) (adj0 : List ObjID) (adj : ObjID → List ObjID) :
    Prop :=
  ∀ w v, v ∈ predsOf allObjects adj0 w ↔ w ∈ adj v

/-- Step 2 for the vertex numbered `i` sets its `semi` to its semidominator
and changes nothing else but the forest. -/
theorem semiStep_spec {allObjects : List Object} {adj0 : List ObjID}
    (hpreds : PredsExact allObjects adj0 adj) {i sd : Nat} {s : LTState}
    (hinv : SemiInv hd i sd s) (hi : 0 < i) (hin : i < s0.dfsNum) (hsd : hd.tree.IsSdom i sd) :
    let s' := semiStep allObjects adj0 (s0.vertex i) s
    SemiInv hd i sd s' ∧ s'.semi (s0.vertex i) = sd ∧ s'.idom = s.idom ∧
      s'.samedom = s.samedom ∧ s'.bucket = s.bucket := by
  have hedge : ∀ v ∈ predsOf allObjects adj0 (s0.vertex i), ∀ a, s0.dfnum v = some a →
      hd.tree.edge a i := by
    intro v hv a ha
    obtain ⟨han, rfl⟩ := hd.inv.vertex_dfnum v a ha
    exact ⟨han, hin, (hpreds _ _).mp hv⟩
  have hpred : ∀ a, hd.tree.edge a i →
      s0.vertex a ∈ predsOf allObjects adj0 (s0.vertex i) ∧ s0.dfnum (s0.vertex a) = some a :=
    fun a ha => ⟨(hpreds _ _).mpr ha.2.2, hd.inv.dfnum_vertex a ha.1⟩
  rw [semiStep_eq]
  obtain ⟨hinv', hidom, hsame, hbucket, -, hbound⟩ :=
    hinv.processEdges_spec hin hsd _ s hedge
  refine ⟨hinv', le_antisymm ?_ hinv'.lower, hidom, hsame, hbucket⟩
  rcases hsd.attained hi hin with ⟨hsi, hlt⟩ | ⟨v, u, su, hvi, hiv, hiu, huv, hsu, hle⟩
  · obtain ⟨hmem, hnum⟩ := hpred sd hsi
    exact (hbound _ hmem sd hnum).1 (Nat.le_of_lt hlt)
  · obtain ⟨hmem, hnum⟩ := hpred v hvi
    exact le_trans ((hbound _ hmem v hnum).2 hiv u su hiu huv hsu) hle


/-! ## Step 3: buckets -/

/-- The vertex numbered `j`, whose semidominator is `q`, waits in the bucket of
`q` after the steps above `i`: a vertex of the tree path `(q, j]` is unprocessed. -/
def Pending (T : DfsTree) (i j q : Nat) : Prop := ∃ y, OnPath T q j y ∧ y ≤ i

/-- Step 3 has settled the vertex numbered `j`: its immediate dominator is
known, or deferred to that of a vertex `u` numbered below it. -/
def Resolved (T : DfsTree) (V : Nat → ObjID) (s : LTState) (j : Nat) : Prop :=
  (∃ d, s.idom (V j) = some (V d) ∧ s.samedom (V j) = V j ∧ T.IsIdom d j) ∨
    ∃ u, s.samedom (V j) = V u ∧ 0 < u ∧ u < j ∧ ∀ d, T.IsIdom d u → T.IsIdom d j

theorem Resolved.congr {T : DfsTree} {V : Nat → ObjID} {s s' : LTState} {j : Nat}
    (h : Resolved T V s j) (hidom : s'.idom (V j) = s.idom (V j))
    (hsame : s'.samedom (V j) = s.samedom (V j)) : Resolved T V s' j := by
  unfold Resolved
  rw [hidom, hsame]
  exact h

section Pending

variable {T : DfsTree} {i : Nat}

/-- The tree path below the parent of `i` to a vertex numbered from `i` on runs
through vertices numbered from `i` on. -/
theorem onPath_parent_iff (hi : 0 < i) (hin : i < T.n) {j y : Nat} (hij : i ≤ j)
    (hjn : j < T.n) (hpj : T.Anc (T.parent i) j) :
    OnPath T (T.parent i) j y ↔ i ≤ y ∧ T.Anc y j := by
  have hpi := T.parent_lt i hi hin
  constructor
  · rintro ⟨hpy, hpy', hyj⟩
    refine ⟨?_, hyj⟩
    by_contra hyi
    have hyi' : T.Anc y i := hyj.convex hjn (by omega) hij
    have := (hyi'.to_parent (by omega)).1.le (by omega)
    have := hpy.lt_of_ne (lt_of_le_of_lt (hyj.le hjn) hjn) hpy'
    omega
  · rintro ⟨hiy, hyj⟩
    have hyn : y < T.n := lt_of_le_of_lt (hyj.le hjn) hjn
    refine ⟨?_, by omega, hyj⟩
    rcases hpj.total hyj hjn with h | h
    · exact h
    · have := h.le (by omega)
      omega

theorem pending_step (hi : 0 < i) (hin : i < T.n) {j q : Nat}
    (hqp : q ≠ T.parent i) (h : Pending T i j q) : Pending T (i - 1) j q := by
  obtain ⟨y, hy, hyi⟩ := h
  rcases Nat.lt_or_ge y i with hlt | hge
  · exact ⟨y, hy, by omega⟩
  · obtain rfl : y = i := by omega
    obtain ⟨hqy, hqy', hyj⟩ := hy
    exact ⟨T.parent y, ⟨(hqy.to_parent hqy').1, hqp, (anc_parent hi).trans hyj⟩,
      by have := T.parent_lt y hi hin; omega⟩

theorem pending_self (hi : 0 < i) (hin : i < T.n) {q : Nat} (hq : T.IsSdom i q)
    (hqp : q ≠ T.parent i) : Pending T (i - 1) i q :=
  ⟨T.parent i, ⟨((hq.anc hi hin).to_parent (Nat.ne_of_lt (hq.lt hi hin))).1, hqp,
    anc_parent hi⟩, by have := T.parent_lt i hi hin; omega⟩

theorem not_pending_parent (hi : 0 < i) (hin : i < T.n) {j : Nat} (hij : i ≤ j) (hjn : j < T.n)
    (hpj : T.Anc (T.parent i) j) : ¬ Pending T (i - 1) j (T.parent i) := by
  rintro ⟨y, hy, hyi⟩
  have := ((onPath_parent_iff hi hin hij hjn hpj).mp hy).1
  omega

theorem Pending.mono {j q i' : Nat} (h : Pending T i j q) (hii : i ≤ i') : Pending T i' j q :=
  let ⟨y, hy, hyi⟩ := h
  ⟨y, hy, le_trans hyi hii⟩

theorem not_pending_zero {j q : Nat} (hjn : j < T.n) : ¬ Pending T 0 j q := by
  rintro ⟨y, ⟨hqy, hqy', hyj⟩, hy0⟩
  have := hqy.lt_of_ne (lt_of_le_of_lt (hyj.le hjn) hjn) hqy'
  omega

end Pending

/-- The state during the resolution of a bucket in the step for the vertex
numbered `i`: the vertices from `i` on are linked and have their semidominators. -/
structure ResolveCtx (i : Nat) (s : LTState) : Prop where
  dfsNum : s.dfsNum = s0.dfsNum
  vertex : s.vertex = s0.vertex
  dfnum : s.dfnum = s0.dfnum
  parent : s.parent = s0.parent
  forest : ForestInv hd.tree s0.vertex (i - 1) s
  sdom : ∀ y < s0.dfsNum, i ≤ y → hd.tree.IsSdom y (s.semi (s0.vertex y))

/-- What resolving the bucket `l` of the parent of `i` leaves, from `s` to `s'`. -/
structure BucketResolved (i : Nat) (l : List ObjID) (s s' : LTState) : Prop where
  ctx : ResolveCtx hd i s'
  semi : s'.semi = s.semi
  bucket : s'.bucket = s.bucket
  resolved : ∀ j < s0.dfsNum, s0.vertex j ∈ l → Resolved hd.tree s0.vertex s' j
  other : ∀ x, x ∉ l → s'.idom x = s.idom x ∧ s'.samedom x = s.samedom x

namespace ResolveCtx

variable {hd} {i : Nat} {s : LTState}

/-- Writing `idom` and `samedom` keeps the context. -/
theorem withDoms (h : ResolveCtx hd i s) (f : ObjID → Option ObjID) (g : ObjID → ObjID) :
    ResolveCtx hd i { s with idom := f, samedom := g } :=
  ⟨h.dfsNum, h.vertex, h.dfnum, h.parent, h.forest.congr_semi rfl rfl fun _ _ _ => rfl, h.sdom⟩

/-- Resolving one vertex of the bucket of the parent of `i`: it gets the parent
as immediate dominator when `eval` finds no smaller `semi` (`IsSdom.isIdom`),
and otherwise defers to the vertex `eval` found (`IsIdom.of_sdom_lt`). -/
theorem resolve (hctx : ResolveCtx hd i s) (hi : 0 < i) (hin : i < s0.dfsNum) {j : Nat}
    (hjn : j < s0.dfsNum) (hij : i ≤ j) (hsemi : s.semi (s0.vertex j) = hd.tree.parent i)
    (hsame : s.samedom (s0.vertex j) = s0.vertex j) :
    let s' := resolveBucketEntry (hd.tree.parent i : Int) s (s0.vertex j)
    ResolveCtx hd i s' ∧ s'.semi = s.semi ∧ s'.bucket = s.bucket ∧
      Resolved hd.tree s0.vertex s' j ∧
      ∀ x, x ≠ s0.vertex j → s'.idom x = s.idom x ∧ s'.samedom x = s.samedom x := by
  set T := hd.tree
  have hsdj := hctx.sdom j hjn hij
  rw [hsemi] at hsdj
  have hpj : T.Anc (T.parent i) j := hsdj.anc (by omega) hjn
  obtain ⟨b, hb, hib, hbj, hmin, hforest⟩ :=
    eval_spec (vertex_inj hd) hctx.forest hctx.vertex hctx.dfsNum (by omega) hjn
  obtain ⟨anc, best, heq⟩ := eval_eq (s0.vertex j) s
  have hsemi' : (eval (s0.vertex j) s).2.semi = s.semi := by rw [heq]
  have hbn : b < s0.dfsNum := lt_of_le_of_lt (hbj.le hjn) hjn
  have hsdb := hctx.sdom b hbn (by omega)
  have hpath := fun y => onPath_parent_iff (T := T) hi hin hij hjn hpj (y := y)
  have hmin' : ∀ y sy, T.Anc (T.parent i) y → T.parent i ≠ y → T.Anc y j → T.IsSdom y sy →
      s.semi (s0.vertex b) ≤ sy := fun y sy hpy hpy' hyj hsy => by
    have hiy := ((hpath y).mp ⟨hpy, hpy', hyj⟩).1
    obtain rfl := hsy.unique (hctx.sdom y (lt_of_le_of_lt (hyj.le hjn) hjn) hiy)
    exact hmin y (by omega) hyj
  have hctx' : ResolveCtx hd i (eval (s0.vertex j) s).2 := by
    rw [heq] at hforest ⊢
    exact ⟨hctx.dfsNum, hctx.vertex, hctx.dfnum, hctx.parent, hforest, hctx.sdom⟩
  rw [resolveBucketEntry_eq]
  dsimp only
  rw [hb]
  split
  · rename_i heqs
    rw [hsemi', hsemi] at heqs
    have hidom : T.IsIdom (T.parent i) j := hsdj.isIdom (by omega) hjn fun y sy hpy hpy' hyj hsy =>
      heqs ▸ hmin' y sy hpy hpy' hyj hsy
    refine ⟨hctx'.withDoms _ _, hsemi', by simp [heq],
      .inl ⟨T.parent i, by simp [hctx'.vertex], by simp [heq, hsame], hidom⟩,
      fun x hx => ⟨by simp [update_noteq hx, heq], by simp [heq]⟩⟩
  · rename_i hnes
    rw [hsemi', hsemi] at hnes
    have hbj' : b ≠ j := fun e => hnes (by rw [e, hsemi])
    have hlt : s.semi (s0.vertex b) < T.parent i :=
      lt_of_le_of_ne (hsemi ▸ hmin j (by omega) (Anc.refl j)) hnes
    have hpb : T.Anc (T.parent i) b := ((hpath b).mpr ⟨by omega, hbj⟩).1
    refine ⟨hctx'.withDoms _ _, hsemi', by simp [heq],
      .inr ⟨b, by simp, by omega, hbj.lt_of_ne hjn hbj', fun d hd' =>
        hd'.of_sdom_lt hsdj (by omega) hjn hpb ((hpath b).mpr ⟨by omega, hbj⟩).2.1 hbj hsdb hlt
          hmin'⟩,
      fun x hx => ⟨by simp [heq], by simp [update_noteq hx, heq]⟩⟩

/-- Resolving a whole bucket of the parent of `i`, whose members are distinct
unresolved vertices from `i` on with that parent as semidominator. -/
theorem resolveAll (hi : 0 < i) (hin : i < s0.dfsNum) :
    ∀ (l : List ObjID) (s : LTState), ResolveCtx hd i s → l.Nodup →
      (∀ v ∈ l, ∃ j < s0.dfsNum, v = s0.vertex j ∧ i ≤ j ∧
        s.semi v = hd.tree.parent i ∧ s.samedom v = v) →
      BucketResolved hd i l s (l.foldl (resolveBucketEntry (hd.tree.parent i : Int)) s)
  | [], s, hctx, _, _ => ⟨hctx, rfl, rfl, by simp, fun _ _ => ⟨rfl, rfl⟩⟩
  | v :: l, s, hctx, hnd, hl => by
    obtain ⟨j, hjn, rfl, hij, hsemi, hsame⟩ := hl v (by simp)
    obtain ⟨hctx₁, hsemi₁, hbucket₁, hres₁, hother₁⟩ := hctx.resolve hi hin hjn hij hsemi hsame
    have hnotin : s0.vertex j ∉ l := (List.nodup_cons.mp hnd).1
    have h₂ := resolveAll hi hin l _ hctx₁ (List.nodup_cons.mp hnd).2 fun w hw => by
      obtain ⟨j', hj', rfl, hij', hsw, hsamew⟩ := hl w (by simp [hw])
      have hne : s0.vertex j' ≠ s0.vertex j := fun e => hnotin (e ▸ hw)
      exact ⟨j', hj', rfl, hij', by rw [hsemi₁]; exact hsw,
        by rw [(hother₁ _ hne).2]; exact hsamew⟩
    refine ⟨h₂.ctx, h₂.semi.trans hsemi₁, h₂.bucket.trans hbucket₁, fun j' hj' hmem => ?_,
      fun x hx => ?_⟩
    · rcases List.mem_cons.mp hmem with h | h
      · obtain rfl := hd.inv.vertex_injective hj' hjn h
        exact hres₁.congr (h₂.other _ hnotin).1 (h₂.other _ hnotin).2
      · exact h₂.resolved j' hj' h
    · have hx' : x ∉ l := fun h => hx (by simp [h])
      have hxv : x ≠ s0.vertex j := fun h => hx (by simp [h])
      exact ⟨(h₂.other x hx').1.trans (hother₁ x hxv).1, (h₂.other x hx').2.trans (hother₁ x hxv).2⟩

end ResolveCtx

/-! ## The reverse loop -/

/-- The state once the vertices numbered above `i` are processed. -/
structure LoopInv (i : Nat) (s : LTState) : Prop where
  dfsNum : s.dfsNum = s0.dfsNum
  vertex : s.vertex = s0.vertex
  dfnum : s.dfnum = s0.dfnum
  parent : s.parent = s0.parent
  forest : ForestInv hd.tree s0.vertex i s
  semi_done : ∀ j < s0.dfsNum, i < j → hd.tree.IsSdom j (s.semi (s0.vertex j))
  semi_fresh : ∀ j < s0.dfsNum, j ≤ i → s.semi (s0.vertex j) = j
  bucket_nodup : ∀ q, (s.bucket q).Nodup
  bucket_mem : ∀ q v, v ∈ s.bucket q → ∃ j < s0.dfsNum, v = s0.vertex j ∧ i < j ∧
    q = (s.semi v : Int) ∧ Pending hd.tree i j (s.semi v)
  mem_bucket : ∀ j < s0.dfsNum, i < j → Pending hd.tree i j (s.semi (s0.vertex j)) →
    s0.vertex j ∈ s.bucket (s.semi (s0.vertex j))
  resolved : ∀ j < s0.dfsNum, i < j → ¬ Pending hd.tree i j (s.semi (s0.vertex j)) →
    Resolved hd.tree s0.vertex s j
  unresolved : ∀ j < s0.dfsNum, (j ≤ i ∨ Pending hd.tree i j (s.semi (s0.vertex j))) →
    s.samedom (s0.vertex j) = s0.vertex j

namespace LoopInv

variable {hd}

/-- Before the loop, nothing is processed. -/
theorem init (hn : 0 < s0.dfsNum) : LoopInv hd (s0.dfsNum - 1) s0 := by
  refine ⟨rfl, rfl, rfl, rfl, ⟨fun j hj _ => ?_, fun j hj hij => absurd hj (by simp; omega)⟩,
    fun j hj hij => absurd hj (by omega), fun j hj _ => (hd.inv.fresh j hj).1,
    fun q => by simp [hd.inv.bucket_nil], fun q v hv => by simp [hd.inv.bucket_nil] at hv,
    fun j hj hij => absurd hj (by omega), fun j hj hij => absurd hj (by omega),
    fun j hj _ => (hd.inv.fresh j hj).2.2.2⟩
  exact ⟨(hd.inv.fresh j hj).2.1, (hd.inv.fresh j hj).2.2.1⟩

end LoopInv

/-- The step for the vertex numbered `i`, when its DFS parent is `p`: step 2,
the bucket of `semi[w]`, the link, and the resolution of the bucket of `p`. -/
theorem ltStep_of_parent {allObjects : List Object} {adj0 : List ObjID} {i : Nat} {s : LTState}
    {p : Int} (hp : (semiStep allObjects adj0 (s.vertex i) s).parent (s.vertex i) = p)
    (hp1 : p ≠ -1) :
    ltStep allObjects adj0 i s =
      let s₁ := semiStep allObjects adj0 (s.vertex i) s
      let q : Int := s₁.semi (s.vertex i)
      let s₃ := link (s.vertex i) p
        { s₁ with bucket := update s₁.bucket q (s₁.bucket q ++ [s.vertex i]) }
      let s₄ := (s₃.bucket p).foldl (resolveBucketEntry p) s₃
      { s₄ with bucket := update s₄.bucket p [] } := by
  simp only [ltStep, link, hp, ne_eq, hp1, not_false_eq_true, if_true]


/-- The step for the vertex numbered `i` after step 2, the bucket of its
semidominator `sd` and the link, before the bucket of its parent is resolved:
the state `s₃` against the state `s` before the step. -/
structure LinkedInv (i sd : Nat) (s s₃ : LTState) : Prop where
  ctx : ResolveCtx hd i s₃
  semi_self : s₃.semi (s0.vertex i) = sd
  semi_other : ∀ j < s0.dfsNum, j ≠ i → s₃.semi (s0.vertex j) = s.semi (s0.vertex j)
  mem_bucket : ∀ q v, v ∈ s₃.bucket q ↔ v ∈ s.bucket q ∨ (q = sd ∧ v = s0.vertex i)
  bucket_nodup : ∀ q, (s₃.bucket q).Nodup
  idom : s₃.idom = s.idom
  samedom : s₃.samedom = s.samedom

namespace LoopInv

variable {hd} {i sd : Nat} {s s₁ s₃ s₄ : LTState}

/-- Step 2, then `w` into the bucket of its semidominator, then the link. -/
theorem linked (hinv : LoopInv hd i s) (hi : 0 < i) (hin : i < s0.dfsNum)
    (hsd : hd.tree.IsSdom i sd)
    (h₁ : SemiInv hd i sd s₁ ∧ s₁.semi (s0.vertex i) = sd ∧ s₁.idom = s.idom ∧
      s₁.samedom = s.samedom ∧ s₁.bucket = s.bucket) :
    LinkedInv hd i sd s (link (s0.vertex i) (hd.tree.parent i : Int)
      { s₁ with bucket := update s₁.bucket (sd : Int) (s₁.bucket sd ++ [s0.vertex i]) }) := by
  obtain ⟨hs₁, hsd₁, hidom₁, hsame₁, hbucket₁⟩ := h₁
  have hnotin : ∀ q, s0.vertex i ∉ s.bucket q := fun q h => by
    obtain ⟨j, hj, hji, hij, -⟩ := hinv.bucket_mem q _ h
    exact absurd (vertex_inj hd i j hin hj hji) (by omega)
  refine ⟨⟨hs₁.dfsNum, hs₁.vertex, hs₁.dfnum, hs₁.parent,
      ForestInv.link (vertex_inj hd) (hs₁.forest.congr_semi rfl rfl fun _ _ _ => rfl) hi hin,
      fun y hy hiy => ?_⟩, hsd₁, fun j hj hji => ?_, fun q v => ?_, fun q => ?_, hidom₁, hsame₁⟩
  · rcases Nat.eq_or_lt_of_le hiy with rfl | hlt
    · exact hsd₁ ▸ hsd
    · exact hs₁.done y hy hlt
  · show s₁.semi (s0.vertex j) = _
    rcases Nat.lt_or_ge i j with hij | hji'
    · exact (hs₁.done j hj hij).unique (hinv.semi_done j hj hij)
    · rw [hs₁.fresh j hj (by omega), hinv.semi_fresh j hj (by omega)]
  · by_cases hq : q = sd
    · subst hq
      simp [link, hbucket₁]
    · simp [link, hbucket₁, update_noteq hq, hq]
  · by_cases hq : q = sd
    · subst hq
      simpa [link, hbucket₁, List.nodup_append, hnotin] using hinv.bucket_nodup sd
    · simpa [link, hbucket₁, update_noteq hq] using hinv.bucket_nodup q

/-- The bucket of the parent of `i` holds what `resolveAll` resolves. -/
theorem parent_bucket (hinv : LoopInv hd i s) (hL : LinkedInv hd i sd s s₃)
    (hin : i < s0.dfsNum) :
    ∀ v ∈ s₃.bucket (hd.tree.parent i : Int), ∃ j < s0.dfsNum, v = s0.vertex j ∧ i ≤ j ∧
      s₃.semi v = hd.tree.parent i ∧ s₃.samedom v = v := by
  intro v hv
  rcases (hL.mem_bucket _ v).mp hv with hv | ⟨hq, rfl⟩
  · obtain ⟨j, hj, rfl, hij, hq, hpend⟩ := hinv.bucket_mem _ _ hv
    refine ⟨j, hj, rfl, by omega, ?_, ?_⟩
    · rw [hL.semi_other j hj (by omega)]
      exact_mod_cast hq.symm
    · rw [hL.samedom]
      exact hinv.unresolved j hj (.inr hpend)
  · refine ⟨i, hin, rfl, le_rfl, ?_, ?_⟩
    · rw [hL.semi_self]
      exact_mod_cast hq.symm
    · rw [hL.samedom]
      exact hinv.unresolved i hin (.inl le_rfl)

section Close

/-! ## Closing the step: the bucket of the parent resolved and emptied -/

variable (hinv : LoopInv hd i s) (hL : LinkedInv hd i sd s s₃) (hsd : hd.tree.IsSdom i sd)
  (hi : 0 < i) (hin : i < s0.dfsNum)
  (hR : BucketResolved hd i (s₃.bucket (hd.tree.parent i : Int)) s₃ s₄)
include hinv hL hsd hi hin hR

omit hinv hL hsd in
/-- What is left with the parent of `i` as semidominator is no longer pending. -/
theorem not_pending_of_parent {j : Nat} (hj : j < s0.dfsNum) (hij : i ≤ j)
    (hq : s₄.semi (s0.vertex j) = hd.tree.parent i) :
    ¬ Pending hd.tree (i - 1) j (s₄.semi (s0.vertex j)) := by
  have hsdj := hR.ctx.sdom j hj hij
  rw [hq] at hsdj ⊢
  exact not_pending_parent hi hin hij hj (hsdj.anc (by omega) hj)

/-- Every bucket entry left is pending, under its semidominator. -/
theorem close_bucket_mem (q : Int) (v : ObjID)
    (hv : v ∈ update s₄.bucket (hd.tree.parent i : Int) [] q) :
    ∃ j < s0.dfsNum, v = s0.vertex j ∧ i - 1 < j ∧ q = (s₄.semi v : Int) ∧
      Pending hd.tree (i - 1) j (s₄.semi v) := by
  by_cases hq : q = (hd.tree.parent i : Int)
  · subst hq
    rw [update_same] at hv
    exact absurd hv (List.not_mem_nil v)
  rw [update_noteq hq, hR.bucket] at hv
  rcases (hL.mem_bucket q v).mp hv with hv | ⟨rfl, rfl⟩
  · obtain ⟨j, hj, rfl, hij, hqj, hpend⟩ := hinv.bucket_mem q _ hv
    have hsemi : s₄.semi (s0.vertex j) = s.semi (s0.vertex j) :=
      (congrFun hR.semi _).trans (hL.semi_other j hj (by omega))
    refine ⟨j, hj, rfl, by omega, by rw [hsemi]; exact hqj, ?_⟩
    rw [hsemi]
    exact pending_step hi hin (fun h => hq (by rw [hqj, h])) hpend
  · have hsemi : s₄.semi (s0.vertex i) = sd := (congrFun hR.semi _).trans hL.semi_self
    refine ⟨i, hin, rfl, by omega, by rw [hsemi], ?_⟩
    rw [hsemi]
    exact pending_self hi hin hsd fun h => hq (by rw [h])

omit hsd in
/-- Every pending vertex is in the bucket of its semidominator. -/
theorem close_mem_bucket (j : Nat) (hj : j < s0.dfsNum) (hij : i - 1 < j)
    (hpend : Pending hd.tree (i - 1) j (s₄.semi (s0.vertex j))) :
    s0.vertex j ∈ update s₄.bucket (hd.tree.parent i : Int) [] (s₄.semi (s0.vertex j) : Int) := by
  have hqp : s₄.semi (s0.vertex j) ≠ hd.tree.parent i := fun h =>
    not_pending_of_parent hi hin hR hj (by omega) h hpend
  rw [update_noteq (by exact_mod_cast hqp), hR.bucket, hL.mem_bucket]
  rcases Nat.eq_or_lt_of_le (show i ≤ j by omega) with rfl | hij'
  · exact .inr ⟨by rw [(congrFun hR.semi _).trans hL.semi_self], rfl⟩
  · rw [(congrFun hR.semi _).trans (hL.semi_other j hj (by omega))] at hpend ⊢
    exact .inl (hinv.mem_bucket j hj hij' (hpend.mono (by omega)))

/-- A vertex from `i` on that is not pending has its dominator settled: it was
in the resolved bucket, or it was resolved before the step. -/
theorem close_resolved (j : Nat) (hj : j < s0.dfsNum) (hij : i - 1 < j)
    (hpend : ¬ Pending hd.tree (i - 1) j (s₄.semi (s0.vertex j))) :
    Resolved hd.tree s0.vertex s₄ j := by
  set T := hd.tree
  set V := s0.vertex
  by_cases hjl : V j ∈ s₃.bucket (T.parent i : Int)
  · exact hR.resolved j hj hjl
  have hij' : i < j := by
    refine lt_of_le_of_ne (by omega) fun hji => ?_
    subst hji
    by_cases hsp : sd = T.parent i
    · exact hjl ((hL.mem_bucket _ _).mpr (.inr ⟨by rw [hsp], rfl⟩))
    · exact hpend (by rw [(congrFun hR.semi _).trans hL.semi_self]; exact pending_self hi hin hsd hsp)
  have hnp : ¬ Pending T i j (s.semi (V j)) := fun hp' => by
    have hb := hinv.mem_bucket j hj hij' hp'
    by_cases hsp : s.semi (V j) = T.parent i
    · exact hjl ((hL.mem_bucket _ _).mpr (.inl (by rw [← hsp]; exact hb)))
    · exact hpend (by
        rw [(congrFun hR.semi _).trans (hL.semi_other j hj (by omega))]
        exact pending_step hi hin hsp hp')
  exact (hinv.resolved j hj hij' hnp).congr
    ((hR.other _ hjl).1.trans (by rw [hL.idom])) ((hR.other _ hjl).2.trans (by rw [hL.samedom]))

omit hsd in
/-- A vertex up to `i - 1`, or pending, still has no dominator settled. -/
theorem close_unresolved (j : Nat) (hj : j < s0.dfsNum)
    (hcase : j ≤ i - 1 ∨ Pending hd.tree (i - 1) j (s₄.semi (s0.vertex j))) :
    s₄.samedom (s0.vertex j) = s0.vertex j := by
  have hjl : s0.vertex j ∉ s₃.bucket (hd.tree.parent i : Int) := fun hjl => by
    obtain ⟨j', hj', hjj, hij, hq, -⟩ := hinv.parent_bucket hL hin _ hjl
    obtain rfl := vertex_inj hd j j' hj hj' hjj
    rcases hcase with h | h
    · omega
    · exact not_pending_of_parent hi hin hR hj hij (hR.semi ▸ hq) h
  rw [(hR.other _ hjl).2, hL.samedom]
  refine hinv.unresolved j hj ?_
  rcases hcase with h | h
  · exact .inl (by omega)
  · by_cases hji : j ≤ i
    · exact .inl hji
    · rw [(congrFun hR.semi _).trans (hL.semi_other j hj (by omega))] at h
      exact .inr (h.mono (by omega))

/-- Once the bucket of the parent of `i` is resolved and emptied, the vertices
from `i` on are processed. -/
theorem close :
    LoopInv hd (i - 1) { s₄ with bucket := update s₄.bucket (hd.tree.parent i : Int) [] } :=
  ⟨hR.ctx.dfsNum, hR.ctx.vertex, hR.ctx.dfnum, hR.ctx.parent,
    hR.ctx.forest.congr_semi rfl rfl fun _ _ _ => rfl, fun j hj hij => hR.ctx.sdom j hj (by omega),
    fun j hj hji => ((congrFun hR.semi _).trans (hL.semi_other j hj (by omega))).trans
      (hinv.semi_fresh j hj (by omega)),
    fun q => by
      show (update s₄.bucket _ [] q).Nodup
      by_cases hq : q = (hd.tree.parent i : Int)
      · rw [hq, update_same]
        exact List.nodup_nil
      · rw [update_noteq hq, hR.bucket]
        exact hL.bucket_nodup q,
    hinv.close_bucket_mem hL hsd hi hin hR, hinv.close_mem_bucket hL hi hin hR,
    fun j hj hij hpend => (hinv.close_resolved hL hsd hi hin hR j hj hij hpend).congr rfl rfl,
    fun j hj hcase => hinv.close_unresolved hL hi hin hR j hj hcase⟩

end Close

/-- One step of the reverse loop, for the vertex numbered `i`. -/
theorem step {allObjects : List Object} {adj0 : List ObjID}
    (hpreds : PredsExact allObjects adj0 adj) (hinv : LoopInv hd i s)
    (hi : 0 < i) (hin : i < s0.dfsNum) : LoopInv hd (i - 1) (ltStep allObjects adj0 i s) := by
  obtain ⟨sd, hsd⟩ := sdom_exists (T := hd.tree) hi hin
  have hfi := hinv.semi_fresh i hin le_rfl
  have h₁ := semiStep_spec hd hpreds
    ⟨hinv.dfsNum, hinv.vertex, hinv.dfnum, hinv.parent, hinv.forest, hinv.semi_done,
      fun j hj hji => hinv.semi_fresh j hj (by omega), by rw [hfi]; exact hsd.lt hi hin |>.le,
      by rw [hfi]⟩ hi hin hsd
  have hpar : (semiStep allObjects adj0 (s.vertex i) s).parent (s.vertex i) =
      (hd.tree.parent i : Int) := by
    rw [hinv.vertex, h₁.1.parent]
    exact (hd.inv.parent i hi hin).1
  have hpi : hd.tree.parent i < i := hd.tree.parent_lt i hi hin
  rw [ltStep_of_parent hpar (by omega), hinv.vertex]
  dsimp only
  rw [h₁.2.1]
  have hL := hinv.linked hi hin hsd h₁
  exact hinv.close hL hsd hi hin
    (hL.ctx.resolveAll hi hin _ _ (hL.bucket_nodup _) (hinv.parent_bucket hL hin))

end LoopInv

/-- The reverse loop over the numbers `k, …, 1`. -/
theorem ltLoop_spec {allObjects : List Object} {adj0 : List ObjID}
    (hpreds : PredsExact allObjects adj0 adj) :
    ∀ k s, LoopInv hd k s → k < s0.dfsNum → LoopInv hd 0 (ltLoop allObjects adj0 k s)
  | 0, _, h, _ => h
  | k + 1, _, h, hk => ltLoop_spec hpreds k _ (h.step hpreds (Nat.succ_pos k) hk) (by omega)

/-! ## Step 4 -/

/-- The forward pass has settled the vertices numbered from 1 below `m`; those
from `m` on are resolved. -/
structure SettleInv (m : Nat) (s : LTState) : Prop where
  dfsNum : s.dfsNum = s0.dfsNum
  vertex : s.vertex = s0.vertex
  settled : ∀ j, 0 < j → j < m → ∃ d, s.idom (s0.vertex j) = some (s0.vertex d) ∧
    hd.tree.IsIdom d j
  resolved : ∀ j < s0.dfsNum, m ≤ j → 0 < j → Resolved hd.tree s0.vertex s j

namespace SettleInv

variable {hd} {m : Nat} {s : LTState}

/-- Settling the vertex numbered `m`: a deferred vertex takes the immediate
dominator of the vertex it was deferred to, which is already settled. -/
theorem step (h : SettleInv hd m s) (hm : 0 < m) (hmn : m < s0.dfsNum) :
    SettleInv hd (m + 1) (settleStep s m) := by
  have hne : ∀ j < s0.dfsNum, j ≠ m → s0.vertex j ≠ s0.vertex m := fun j hj hjm e =>
    hjm (hd.inv.vertex_injective hj hmn e)
  have hw : s.vertex m = s0.vertex m := by rw [h.vertex]
  simp only [settleStep, hw]
  rcases h.resolved m hmn le_rfl hm with ⟨d, hidom, hsame, hd'⟩ | ⟨u, hsame, hu, hum, hdom⟩
  · rw [if_neg (by simp [hsame])]
    exact ⟨h.dfsNum, h.vertex, fun j hj hjm => by
      rcases Nat.lt_or_ge j m with hlt | hge
      · exact h.settled j hj hlt
      · obtain rfl : j = m := by omega
        exact ⟨d, hidom, hd'⟩, fun j hj hmj hj0 => h.resolved j hj (by omega) hj0⟩
  · have hum' := hne u (by omega) (by omega)
    rw [if_pos (by rw [hsame]; exact hum')]
    obtain ⟨du, hidu, hdu⟩ := h.settled u hu hum
    refine ⟨h.dfsNum, h.vertex, fun j hj hjm => ?_, fun j hj hmj hj0 => ?_⟩
    · rcases Nat.lt_or_ge j m with hlt | hge
      · simpa [update_noteq (hne j (by omega) (by omega))] using h.settled j hj hlt
      · obtain rfl : j = m := by omega
        exact ⟨du, by simp [hsame, hidu], hdom du hdu⟩
    · exact (h.resolved j hj (by omega) hj0).congr
        (by simp [update_noteq (hne j hj (by omega))]) rfl

end SettleInv

/-- The forward pass over the numbers `m, …, m + k - 1`. -/
theorem settle_spec : ∀ k m s, SettleInv hd m s → 0 < m → m + k ≤ s0.dfsNum →
    SettleInv hd (m + k) ((List.range' m k).foldl settleStep s)
  | 0, _, _, h, _, _ => h
  | k + 1, m, s, h, hm, hk => by
    rw [List.range'_succ, List.foldl_cons, show m + (k + 1) = m + 1 + k by omega]
    exact settle_spec k (m + 1) _ (h.step hm (by omega)) (by omega) (by omega)

/-- After steps 2–4, every vertex numbered from 1 on has its immediate dominator. -/
theorem idom_spec {allObjects : List Object} {adj0 : List ObjID}
    (hpreds : PredsExact allObjects adj0 adj) :
    let s := ltLoop allObjects adj0 (s0.dfsNum - 1) s0
    let s' := (List.range' 1 (s.dfsNum - 1)).foldl settleStep s
    s'.dfsNum = s0.dfsNum ∧ s'.vertex = s0.vertex ∧
      ∀ j, 0 < j → j < s0.dfsNum → ∃ d, s'.idom (s0.vertex j) = some (s0.vertex d) ∧
        hd.tree.IsIdom d j := by
  have hn : 0 < s0.dfsNum := by have := hd.inv.current; omega
  have hloop := ltLoop_spec hd hpreds _ s0 (LoopInv.init hn) (by omega)
  have hset : SettleInv hd 1 (ltLoop allObjects adj0 (s0.dfsNum - 1) s0) :=
    ⟨hloop.dfsNum, hloop.vertex, fun j hj hj1 => absurd hj1 (by omega),
      fun j hj _ hj0 => hloop.resolved j hj hj0 (not_pending_zero hj)⟩
  dsimp only
  rw [hloop.dfsNum]
  have hfin := settle_spec hd (s0.dfsNum - 1) 1 _ hset Nat.one_pos (by omega)
  rw [show 1 + (s0.dfsNum - 1) = s0.dfsNum by omega] at hfin
  exact ⟨hfin.dfsNum, hfin.vertex, fun j hj hjn => hfin.settled j hj hjn⟩

end Loop

end HeapLens.Dominance
