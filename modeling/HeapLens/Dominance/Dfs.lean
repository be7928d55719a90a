import HeapLens.Graph.Dominators
import HeapLens.Dominance.Tree

/-!
# The depth-first search of `Dominators`

`dfs` numbers the vertices reachable from the super-root in preorder.  This
module proves what it leaves: the numbering is a bijection between `[0, n)` and
the visited vertices, each vertex but the first has a parent numbered below it
with an edge to it, the fields that `dfs` initialises hold their first values,
and the search from each vertex has numbered an interval of its descendants
that no edge leaves upwards.  From this, `DfsDone.tree` is a `DfsTree` over the
numbers.

The search is described call by call.  A call made from the vertex numbered `k`
leaves `DfsInv`, in which every vertex that is not an ancestor of `k` has
`Finished` its own search.  The fuel suffices because the visited vertices are
distinct members of a list `U` that holds every successor.
-/

namespace HeapLens.Dominance

open HeapLens.Graph Function Relation

section Search

variable (adj : ObjID → List ObjID) (U : List ObjID)

/-- The search from the vertex numbered `x` has finished, having numbered
`[x, e)`: descendants of `x` whose successors are numbered below `e`, under
which no vertex numbered later hangs. -/
def Finished (s : LTState) (x e : Nat) : Prop :=
  x < e ∧ e ≤ s.dfsNum ∧ (∀ j, x ≤ j → j < e → TAnc s.parentNum x j) ∧
    (∀ a, x ≤ a → a < e → ∀ b ∈ adj (s.vertex a), ∃ m < e, s.dfnum b = some m) ∧
    ∀ j, e ≤ j → j < s.dfsNum → s.parentNum j < x ∨ e ≤ s.parentNum j

/-- The state between two calls of `dfs` made from the vertex numbered `k`. -/
structure DfsInv (s : LTState) (k : Nat) : Prop where
  dfnum_vertex : ∀ j < s.dfsNum, s.dfnum (s.vertex j) = some j
  vertex_dfnum : ∀ v j, s.dfnum v = some j → j < s.dfsNum ∧ s.vertex j = v
  vertex_mem : ∀ j < s.dfsNum, s.vertex j ∈ U
  root : s.vertex 0 = 0 ∧ s.parent 0 = -1
  parent : ∀ j, 0 < j → j < s.dfsNum → s.parent (s.vertex j) = (s.parentNum j : Int) ∧
    s.parentNum j < j ∧ s.vertex j ∈ adj (s.vertex (s.parentNum j))
  fresh : ∀ j < s.dfsNum, s.semi (s.vertex j) = j ∧ s.ancestor (s.vertex j) = -1 ∧
    s.best (s.vertex j) = s.vertex j ∧ s.samedom (s.vertex j) = s.vertex j
  idom_none : ∀ v, s.idom v = none
  bucket_nil : ∀ q, s.bucket q = []
  current : k < s.dfsNum
  finished : ∀ x < s.dfsNum, ¬ TAnc s.parentNum x k → ∃ e, Finished adj s x e

end Search

/-- `s'` extends the numbering of `s`. -/
def Grows (s s' : LTState) : Prop :=
  s.dfsNum ≤ s'.dfsNum ∧
    ∀ j < s.dfsNum, s'.vertex j = s.vertex j ∧ s'.parent (s.vertex j) = s.parent (s.vertex j)

namespace Grows

variable {s s' s'' : LTState}

theorem refl (s : LTState) : Grows s s := ⟨le_refl _, fun _ _ => ⟨rfl, rfl⟩⟩

theorem trans (h₁ : Grows s s') (h₂ : Grows s' s'') : Grows s s'' := by
  refine ⟨h₁.1.trans h₂.1, fun j hj => ?_⟩
  obtain ⟨hv, hp⟩ := h₁.2 j hj
  obtain ⟨hv', hp'⟩ := h₂.2 j (by have := h₁.1; omega)
  exact ⟨hv'.trans hv, by rw [← hv, hp', hv, hp]⟩

theorem parentNum_eq (h : Grows s s') {j : Nat} (hj : j < s.dfsNum) :
    s'.parentNum j = s.parentNum j := by
  simp only [LTState.parentNum, (h.2 j hj).1, (h.2 j hj).2]

end Grows

namespace DfsInv

variable {adj : ObjID → List ObjID} {U : List ObjID} {s s' : LTState} {k : Nat}

theorem vertex_injective (h : DfsInv adj U s k) {a b : Nat} (ha : a < s.dfsNum)
    (hb : b < s.dfsNum) (hab : s.vertex a = s.vertex b) : a = b := by
  have := h.dfnum_vertex a ha
  rw [hab, h.dfnum_vertex b hb] at this
  exact (Option.some.inj this).symm

theorem parentNum_lt (h : DfsInv adj U s k) {m : Nat} (hm : 0 < m) (hmn : m < s.dfsNum) :
    s.parentNum m < m :=
  (h.parent m hm hmn).2.1

theorem tanc_le (h : DfsInv adj U s k) {x j : Nat} (hx : TAnc s.parentNum x j)
    (hj : j < s.dfsNum) : x ≤ j :=
  hx.le fun _ hm hmj => h.parentNum_lt hm (by omega)

/-- Ancestry among the vertices of `s` is the same in every state that extends it. -/
theorem tanc_iff (h : DfsInv adj U s k) (hg : Grows s s') {x j : Nat} (hj : j < s.dfsNum) :
    TAnc s'.parentNum x j ↔ TAnc s.parentNum x j :=
  ⟨fun ht => ht.congr fun m hm _ => ⟨(hg.parentNum_eq (by omega)).symm,
      by rw [hg.parentNum_eq (by omega)]; exact h.parentNum_lt hm (by omega)⟩,
    fun ht => ht.congr fun m hm _ => ⟨hg.parentNum_eq (by omega), h.parentNum_lt hm (by omega)⟩⟩

/-- The visited vertices are distinct members of `U`. -/
theorem dfsNum_le (h : DfsInv adj U s k) : s.dfsNum ≤ U.length := by
  have hnodup : ((List.range s.dfsNum).map s.vertex).Nodup :=
    (List.nodup_range _).map_on fun a ha b hb hab =>
      h.vertex_injective (List.mem_range.mp ha) (List.mem_range.mp hb) hab
  have hsub : (List.range s.dfsNum).map s.vertex ⊆ U := by
    intro v hv
    obtain ⟨j, hj, rfl⟩ := List.mem_map.mp hv
    exact h.vertex_mem j (List.mem_range.mp hj)
  simpa using (List.subperm_of_subset hnodup hsub).length_le

/-- A visited vertex keeps its number. -/
theorem dfnum_grows (h : DfsInv adj U s k) {k' : Nat} (h' : DfsInv adj U s' k') (hg : Grows s s')
    {v : ObjID} {m : Nat} (hv : s.dfnum v = some m) : s'.dfnum v = some m := by
  obtain ⟨hm, rfl⟩ := h.vertex_dfnum v m hv
  rw [← (hg.2 m hm).1]
  exact h'.dfnum_vertex m (by have := hg.1; omega)

theorem vertex_ne (h : DfsInv adj U s k) {v : ObjID} (hv : s.dfnum v = none) {j : Nat}
    (hj : j < s.dfsNum) : s.vertex j ≠ v := fun e => by
  rw [← e, h.dfnum_vertex j hj] at hv
  cases hv

/-- A number below the count after a visit is an old number or the new one. -/
theorem lt_visit_dfsNum {s : LTState} {v : ObjID} {p : Int} {j : Nat}
    (hj : j < (s.visit v p).dfsNum) : j < s.dfsNum ∨ j = s.dfsNum := by
  rw [LTState.visit_dfsNum] at hj
  omega

theorem grows_visit (h : DfsInv adj U s k) {v : ObjID} (hv : s.dfnum v = none) (p : Int) :
    Grows s (s.visit v p) :=
  ⟨by simp, fun j hj => ⟨by simp [update_noteq (Nat.ne_of_lt hj)],
    by simp [update_noteq (h.vertex_ne hv hj)]⟩⟩

/-- Numbering a fresh vertex under `k` keeps every finished search finished,
unless it is an ancestor of `k`. -/
theorem finished_visit (h : DfsInv adj U s k) {v : ObjID} (hv : s.dfnum v = none)
    {x e : Nat} (hfin : Finished adj s x e) (hxk : ¬ TAnc s.parentNum x k) :
    Finished adj (s.visit v k) x e := by
  have hg := h.grows_visit hv k
  obtain ⟨hxe, hen, hdesc, hsucc, hlater⟩ := hfin
  refine ⟨hxe, by simp; omega, fun j hxj hje => (h.tanc_iff hg (by omega)).mpr (hdesc j hxj hje),
    fun a hxa hae b hb => ?_, fun j hej hjn => ?_⟩
  · rw [(hg.2 a (by omega)).1] at hb
    obtain ⟨m, hme, hm⟩ := hsucc a hxa hae b hb
    have hbv : b ≠ v := fun e => by rw [e, hv] at hm; cases hm
    exact ⟨m, hme, by simpa [update_noteq hbv] using hm⟩
  · rcases lt_visit_dfsNum hjn with hlt | rfl
    · rw [hg.parentNum_eq hlt]
      exact hlater j hej hlt
    · have hpn : (s.visit v k).parentNum s.dfsNum = k := by simp [LTState.parentNum]
      rw [hpn]
      by_contra hcon
      exact hxk (hdesc k (by omega) (by omega))

/-- Visiting a fresh successor of the vertex numbered `k`. -/
theorem visit (h : DfsInv adj U s k) (hU : ∀ x, ∀ y ∈ adj x, y ∈ U) {v : ObjID}
    (hv : s.dfnum v = none) (hadj : v ∈ adj (s.vertex k)) :
    DfsInv adj U (s.visit v k) s.dfsNum := by
  have hg := h.grows_visit hv k
  have hk := h.current
  have hne := fun j (hj : j < s.dfsNum) => h.vertex_ne hv hj
  have hvert : ∀ j < s.dfsNum, (s.visit v k).vertex j = s.vertex j := fun j hj => (hg.2 j hj).1
  have hpn : (s.visit v k).parentNum s.dfsNum = k := by simp [LTState.parentNum]
  constructor
  · intro j hj
    rcases lt_visit_dfsNum hj with hlt | rfl
    · rw [hvert j hlt]
      simp [update_noteq (hne j hlt), h.dfnum_vertex j hlt]
    · simp
  · intro u j hu
    by_cases huv : u = v
    · subst huv
      simp only [LTState.visit_dfnum, update_same, Option.some.injEq] at hu
      subst hu
      simp
    · simp only [LTState.visit_dfnum, update_noteq huv] at hu
      obtain ⟨hj, rfl⟩ := h.vertex_dfnum u j hu
      exact ⟨by simp; omega, hvert j hj⟩
  · intro j hj
    rcases lt_visit_dfsNum hj with hlt | rfl
    · rw [hvert j hlt]
      exact h.vertex_mem j hlt
    · simpa using hU _ v hadj
  · have h0 : s.vertex 0 ≠ v := hne 0 (by omega)
    rw [h.root.1] at h0
    exact ⟨by rw [hvert 0 (by omega), h.root.1], by simp [update_noteq h0, h.root.2]⟩
  · intro j hj0 hj
    rcases lt_visit_dfsNum hj with hlt | rfl
    · obtain ⟨hp, hplt, hpadj⟩ := h.parent j hj0 hlt
      rw [hg.parentNum_eq hlt, hvert j hlt, hvert _ (by omega), (hg.2 j hlt).2]
      exact ⟨hp, hplt, hpadj⟩
    · rw [hpn, hvert k hk]
      exact ⟨by simp, hk, by simpa using hadj⟩
  · intro j hj
    rcases lt_visit_dfsNum hj with hlt | rfl
    · rw [hvert j hlt]
      simpa [update_noteq (hne j hlt)] using h.fresh j hlt
    · simp
  · simpa using h.idom_none
  · simpa using h.bucket_nil
  · simp
  · intro x hx hxk
    have hxn : x ≠ s.dfsNum := fun e => hxk (e ▸ ReflTransGen.refl)
    have hxk' : ¬ TAnc s.parentNum x k := fun ht =>
      hxk (ReflTransGen.tail ((h.tanc_iff hg hk).mpr ht) ⟨by omega, hpn⟩)
    obtain ⟨e, hfin⟩ := h.finished x (by simp at hx; omega) hxk'
    exact ⟨e, h.finished_visit hv hfin hxk'⟩

/-- The search from the vertex numbered `n` is finished once all its successors
are numbered and all vertices numbered since are its descendants. -/
theorem finished_self (h : DfsInv adj U s n) (hn : n < s.dfsNum)
    (hsucc : ∀ b ∈ adj (s.vertex n), ∃ m, s.dfnum b = some m)
    (hdesc : ∀ j, n < j → j < s.dfsNum → TAnc s.parentNum n j) :
    Finished adj s n s.dfsNum := by
  refine ⟨hn, le_refl _, fun j hnj hj => ?_, fun a hna ha b hb => ?_, fun j hj hj' => by omega⟩
  · rcases Nat.eq_or_lt_of_le hnj with rfl | hlt
    · exact ReflTransGen.refl
    · exact hdesc j hlt hj
  · rcases Nat.eq_or_lt_of_le hna with rfl | hlt
    · obtain ⟨m, hm⟩ := hsucc b hb
      exact ⟨m, (h.vertex_dfnum b m hm).1, hm⟩
    · obtain ⟨e, hae, hen, -, hsucc', -⟩ :=
        h.finished a ha fun ht => absurd (h.tanc_le ht hn) (by omega)
      obtain ⟨m, hme, hm⟩ := hsucc' a (le_refl a) hae b hb
      exact ⟨m, by omega, hm⟩

end DfsInv

section Spec

variable {adj : ObjID → List ObjID} {U : List ObjID}

/-- What a call of `dfs` with fuel `f`, made from the vertex numbered `k`, leaves:
the invariant again, an extended numbering in which `v` is numbered, and new
vertices that are all descendants of `k`. -/
def DfsPost (adj : ObjID → List ObjID) (U : List ObjID) (k : Nat) (s s' : LTState)
    (vs : List ObjID) : Prop :=
  DfsInv adj U s' k ∧ Grows s s' ∧ (∀ v ∈ vs, ∃ m, s'.dfnum v = some m) ∧
    ∀ j, s.dfsNum ≤ j → j < s'.dfsNum → TAnc s'.parentNum k j

theorem DfsPost.trans {k : Nat} {s s' s'' : LTState} {vs ws : List ObjID}
    (h₁ : DfsPost adj U k s s' vs) (h₂ : DfsPost adj U k s' s'' ws) :
    DfsPost adj U k s s'' (vs ++ ws) := by
  obtain ⟨hinv₁, hg₁, hnum₁, hdesc₁⟩ := h₁
  obtain ⟨hinv₂, hg₂, hnum₂, hdesc₂⟩ := h₂
  refine ⟨hinv₂, hg₁.trans hg₂, fun v hv => ?_, fun j hj hj' => ?_⟩
  · rcases List.mem_append.mp hv with hv | hv
    · obtain ⟨m, hm⟩ := hnum₁ v hv
      exact ⟨m, hinv₁.dfnum_grows hinv₂ hg₂ hm⟩
    · exact hnum₂ v hv
  · rcases Nat.lt_or_ge j s'.dfsNum with hlt | hge
    · exact (hinv₁.tanc_iff hg₂ hlt).mpr (hdesc₁ j hj hlt)
    · exact hdesc₂ j hge hj'

/-- The loop over the successors `ws` of the vertex numbered `k`, given the
specification of the calls it makes. -/
theorem dfs_loop (hU : ∀ x, ∀ y ∈ adj x, y ∈ U) {f k : Nat}
    (hspec : ∀ v s, DfsInv adj U s k → v ∈ adj (s.vertex k) → U.length < s.dfsNum + f →
      DfsPost adj U k s (dfs adj f v k s) [v]) :
    ∀ (ws : List ObjID) (s : LTState), DfsInv adj U s k → (∀ w ∈ ws, w ∈ adj (s.vertex k)) →
      U.length < s.dfsNum + f →
      DfsPost adj U k s (ws.foldl (fun s' w => dfs adj f w k s') s) ws
  | [], s, hs, _, _ => ⟨hs, Grows.refl s, by simp, fun j hj hj' => by simp at hj'; omega⟩
  | w :: ws, s, hs, hws, hfuel => by
    have h₁ := hspec w s hs (hws w (by simp)) hfuel
    have hk : (dfs adj f w k s).vertex k = s.vertex k := (h₁.2.1.2 k hs.current).1
    have h₂ := dfs_loop hU hspec ws (dfs adj f w k s) h₁.1
      (fun w' hw' => hk ▸ hws w' (by simp [hw'])) (by have := h₁.2.1.1; omega)
    exact h₁.trans h₂

/-- The specification of `dfs`, by induction on the fuel. -/
theorem dfs_spec (hU : ∀ x, ∀ y ∈ adj x, y ∈ U) :
    ∀ f v k s, DfsInv adj U s k → v ∈ adj (s.vertex k) → U.length < s.dfsNum + f →
      DfsPost adj U k s (dfs adj f v k s) [v]
  | 0, _, _, s, hs, _, hfuel => absurd hs.dfsNum_le (by omega)
  | f + 1, v, k, s, hs, hadj, hfuel => by
    rw [dfs_succ]
    cases hv : s.dfnum v with
    | some m =>
      simp only [Option.isSome_some, if_true]
      exact ⟨hs, Grows.refl s, by simp [hv], fun j hj hj' => by omega⟩
    | none =>
      simp only [Option.isSome_none, Bool.false_eq_true, if_false]
      have hpos : 0 < s.dfsNum := by have := hs.current; omega
      obtain ⟨hinv, hg, hnum, hdesc⟩ := dfs_loop hU (fun w s' => dfs_spec hU f w s.dfsNum s')
        (adj v) (s.visit v k) (hs.visit hU hv hadj) (fun w hw => by simpa using hw) (by simp; omega)
      set s' := (adj v).foldl (fun s' w => dfs adj f w s.dfsNum s') (s.visit v k)
      have hn : s.dfsNum < s'.dfsNum := by have := hg.1; simp at this; omega
      have hvn : s'.vertex s.dfsNum = v := by rw [(hg.2 s.dfsNum (by simp)).1]; simp
      have hpn : s'.parentNum s.dfsNum = k := by
        rw [hg.parentNum_eq (by simp)]
        simp [LTState.parentNum]
      have hfin := hinv.finished_self hn (fun b hb => hnum b (hvn ▸ hb))
        (fun j hj hj' => hdesc j (by simpa using hj) hj')
      refine ⟨⟨hinv.dfnum_vertex, hinv.vertex_dfnum, hinv.vertex_mem, hinv.root, hinv.parent,
        hinv.fresh, hinv.idom_none, hinv.bucket_nil, by have := hs.current; omega,
        fun x hx hxk => ?_⟩,
        (hs.grows_visit hv k).trans hg, ?_, fun j hj hj' => ?_⟩
      · by_cases hxn : x = s.dfsNum
        · exact ⟨_, hxn ▸ hfin⟩
        · refine hinv.finished x hx fun ht => hxk ?_
          obtain ⟨b, hb, hbn⟩ := ((ReflTransGen.cases_tail_iff _ _ _).mp ht).resolve_left (Ne.symm hxn)
          obtain rfl : b = k := hbn.2.symm.trans hpn
          exact hb
      · intro w hw
        obtain rfl : w = v := by simpa using hw
        exact ⟨s.dfsNum, hvn ▸ hinv.dfnum_vertex _ hn⟩
      · exact ReflTransGen.trans (ReflTransGen.single ⟨hpos, hpn⟩) (hfin.2.2.1 j hj hj')

end Spec

/-! ## The whole search -/

/-- What the search from the super-root leaves: the invariant, and every
vertex's search finished. -/
structure DfsDone (adj : ObjID → List ObjID) (U : List ObjID) (s : LTState) : Prop where
  inv : DfsInv adj U s 0
  finished : ∀ x < s.dfsNum, ∃ e, Finished adj s x e

/-- `dfs(0, -1)` from the empty state, with one more unit of fuel than `U` has
members, finishes the search. -/
theorem dfs_done {adj : ObjID → List ObjID} {U : List ObjID} (hU : ∀ x, ∀ y ∈ adj x, y ∈ U)
    (h0 : (0 : ObjID) ∈ U) : DfsDone adj U (dfs adj (U.length + 1) 0 (-1) LTState.init) := by
  have hs₁ : DfsInv adj U (LTState.init.visit 0 (-1)) 0 := by
    have hone : (LTState.init.visit 0 (-1)).dfsNum = 1 := rfl
    refine ⟨fun j hj => ?_, fun u j hu => ?_, fun j hj => ?_, by simp [LTState.init],
      fun j hj hj' => by omega, fun j hj => ?_, fun _ => rfl, fun _ => rfl, by omega,
      fun x hx hxk => (hxk (by obtain rfl : x = 0 := (by omega); exact ReflTransGen.refl)).elim⟩
    · obtain rfl : j = 0 := by omega
      simp [LTState.init]
    · by_cases hu0 : u = 0
      · subst hu0
        simp only [LTState.visit_dfnum, update_same, Option.some.injEq] at hu
        subst hu
        simp [LTState.init]
      · simp [update_noteq hu0, LTState.init] at hu
    · obtain rfl : j = 0 := by omega
      simpa [LTState.init] using h0
    · obtain rfl : j = 0 := by omega
      simp [LTState.init]
  rw [dfs_succ]
  simp only [LTState.init, Option.isSome_none, Bool.false_eq_true, if_false]
  obtain ⟨hinv, -, hnum, hdesc⟩ := dfs_loop hU (fun w s' => dfs_spec hU U.length w 0 s')
    (adj 0) _ hs₁ (fun w hw => by simpa using hw) (by simp)
  refine ⟨hinv, fun x hx => ?_⟩
  rcases Nat.eq_zero_or_pos x with rfl | hpos
  · exact ⟨_, hinv.finished_self hx (fun b hb => hnum b (by rwa [hinv.root.1] at hb))
      fun j hj hj' => hdesc j (by simpa using hj) hj'⟩
  · refine hinv.finished x hx fun ht => ?_
    have := hinv.tanc_le ht (lt_of_le_of_lt (Nat.zero_le x) hx)
    omega

namespace DfsDone

variable {adj : ObjID → List ObjID} {U : List ObjID} {s : LTState}

/-- A finished search numbered every descendant of its vertex. -/
theorem lt_of_tanc {k x e : Nat} (hinv : DfsInv adj U s k) (hfin : Finished adj s x e) {j : Nat}
    (ht : TAnc s.parentNum x j) (hj : j < s.dfsNum) : j < e := by
  obtain ⟨hxe, -, -, -, hlater⟩ := hfin
  induction ht with
  | refl => exact hxe
  | @tail b c hxb hbc ih =>
    obtain ⟨hc, rfl⟩ := hbc
    have hlt := hinv.parentNum_lt hc hj
    have hb := ih (by omega)
    have hxb' := hinv.tanc_le hxb (by omega)
    by_contra hce
    rcases hlater c (by omega) hj with h₁ | h₁ <;> omega

/-- The DFS tree over the numbers of the visited vertices: an edge joins two
numbered vertices when the second is in the adjacency list of the first. -/
def tree (h : DfsDone adj U s) : DfsTree where
  n := s.dfsNum
  parent := s.parentNum
  edge a b := a < s.dfsNum ∧ b < s.dfsNum ∧ s.vertex b ∈ adj (s.vertex a)
  parent_lt _ hj hjn := h.inv.parentNum_lt hj hjn
  parent_edge j hj hjn :=
    ⟨by have := h.inv.parentNum_lt hj hjn; omega, hjn, (h.inv.parent j hj hjn).2.2⟩
  edge_closed _ _ hab _ := hab.2.1
  subtree x hx := by
    obtain ⟨e, hfin⟩ := h.finished x hx
    refine ⟨e, hfin.2.1, hfin.1, fun j hj => ⟨fun ht => ⟨h.inv.tanc_le ht hj,
      lt_of_tanc h.inv hfin ht hj⟩, fun hxj => hfin.2.2.1 j hxj.1 hxj.2⟩, fun a b hxa hae hab => ?_⟩
    obtain ⟨m, hme, hm⟩ := hfin.2.2.2.1 a hxa hae _ hab.2.2
    rw [h.inv.dfnum_vertex b hab.2.1, Option.some.injEq] at hm
    exact hm ▸ hme

@[simp] theorem tree_n (h : DfsDone adj U s) : h.tree.n = s.dfsNum := rfl
@[simp] theorem tree_parent (h : DfsDone adj U s) : h.tree.parent = s.parentNum := rfl

theorem tree_edge (h : DfsDone adj U s) {a b : Nat} :
    h.tree.edge a b ↔ a < s.dfsNum ∧ b < s.dfsNum ∧ s.vertex b ∈ adj (s.vertex a) := Iff.rfl

/-- Every successor of a visited vertex is visited. -/
theorem succ_numbered (h : DfsDone adj U s) {a : Nat} (ha : a < s.dfsNum) {b : ObjID}
    (hb : b ∈ adj (s.vertex a)) : ∃ m < s.dfsNum, s.dfnum b = some m := by
  obtain ⟨e, hfin⟩ := h.finished 0 (by omega)
  obtain ⟨m, hme, hm⟩ := hfin.2.2.2.1 a (Nat.zero_le a) (by
    have := lt_of_tanc h.inv hfin (h.tree.anc_zero a ha) ha; exact this) b hb
  exact ⟨m, by have := hfin.2.1; omega, hm⟩

end DfsDone

end HeapLens.Dominance
