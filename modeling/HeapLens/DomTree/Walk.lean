import HeapLens.Graph.DomTree
import HeapLens.Retained.Memo

/-!
# Walks up an immediate-dominator map

`OnWalk idom x y` says that `x` is met on the walk up `idom` from `y`.  On a map
whose entries lower a rank, that walk visits no node twice, and the walks of two
children of one node are disjoint.  From this, with enough fuel: `IsDominated`
answers whether the dominator is on the walk, `DominatorPath` lists the walk
and then 0, and `computeDepth` over the child lists of the map gives each node
below `node` its level below `node`, leaving the other entries as they were.
-/

namespace HeapLens.Graph

/-- `x` is on the walk up `idom` from `y`: `y` itself, or on the walk from
`idom[y]`. -/
inductive OnWalk (idom : GoMap ObjID ObjID) (x : ObjID) : ObjID → Prop
  | refl : OnWalk idom x x
  | up {y d : ObjID} : idom.get? y = some d → OnWalk idom x d → OnWalk idom x y

namespace OnWalk

variable {idom : GoMap ObjID ObjID}

theorem iff_up {x y : ObjID} :
    OnWalk idom x y ↔ x = y ∨ ∃ d, idom.get? y = some d ∧ OnWalk idom x d := by
  constructor
  · rintro (_ | ⟨hd, h⟩)
    · exact .inl rfl
    · exact .inr ⟨_, hd, h⟩
  · rintro (rfl | ⟨d, hd, h⟩)
    · exact .refl
    · exact .up hd h

theorem iff_of_get? {x y d : ObjID} (hy : idom.get? y = some d) (hxy : x ≠ y) :
    OnWalk idom x y ↔ OnWalk idom x d := by
  rw [iff_up, hy]
  simp [hxy]

theorem iff_of_get?_none {x y : ObjID} (hy : idom.get? y = none) : OnWalk idom x y ↔ x = y := by
  rw [iff_up, hy]
  simp

theorem of_get? {y d : ObjID} (h : idom.get? y = some d) : OnWalk idom d y := .up h .refl

theorem trans {x y z : ObjID} (h₁ : OnWalk idom x y) (h₂ : OnWalk idom y z) : OnWalk idom x z := by
  induction h₂ with
  | refl => exact h₁
  | up hd _ ih => exact .up hd ih

/-- A walk from `y` that meets `x ≠ y` enters `x` from one of its children. -/
theorem exists_child {x y : ObjID} (h : OnWalk idom x y) (hxy : x ≠ y) :
    ∃ c, idom.get? c = some x ∧ OnWalk idom c y := by
  induction h with
  | refl => exact absurd rfl hxy
  | @up y d hd _ ih =>
    by_cases hx : x = d
    · subst hx
      exact ⟨y, hd, .refl⟩
    · obtain ⟨c, hc, hcd⟩ := ih hx
      exact ⟨c, hc, hcd.trans (of_get? hd)⟩

/-- The nodes met on one walk are ordered by the walk. -/
theorem total {a y : ObjID} (ha : OnWalk idom a y) :
    ∀ {b}, OnWalk idom b y → OnWalk idom a b ∨ OnWalk idom b a := by
  induction ha with
  | refl => exact fun hb => .inr hb
  | up hd had ih =>
    intro b hb
    rcases hb with _ | ⟨hd', hbd⟩
    · exact .inl (.up hd had)
    · rw [hd] at hd'
      cases hd'
      exact ih hbd

section Rank

variable (rank : ObjID → Nat) (hr : ∀ y d, idom.get? y = some d → rank d < rank y)
include hr

theorem rank_le {x y : ObjID} (h : OnWalk idom x y) : rank x ≤ rank y := by
  induction h with
  | refl => exact le_rfl
  | up hd _ ih => exact ih.trans (hr _ _ hd).le

theorem rank_lt {x y : ObjID} (h : OnWalk idom x y) (hxy : x ≠ y) : rank x < rank y := by
  cases h with
  | refl => exact absurd rfl hxy
  | up hd h => exact lt_of_le_of_lt (h.rank_le rank hr) (hr _ _ hd)

theorem antisymm {x y : ObjID} (h₁ : OnWalk idom x y) (h₂ : OnWalk idom y x) : x = y := by
  by_contra hne
  have := h₁.rank_lt rank hr hne
  have := h₂.rank_le rank hr
  omega

/-- No node is on the walk from its own child. -/
theorem not_of_child {x c : ObjID} (hc : idom.get? c = some x) : ¬ OnWalk idom c x := fun h => by
  have := h.rank_le rank hr
  have := hr _ _ hc
  omega

/-- The walk from a node passes through at most one child of each node. -/
theorem eq_of_child {x c c' y : ObjID} (hc : idom.get? c = some x) (hc' : idom.get? c' = some x)
    (h : OnWalk idom c y) (h' : OnWalk idom c' y) : c = c' := by
  have key : ∀ {a b}, idom.get? a = some x → idom.get? b = some x → OnWalk idom a b → a = b := by
    intro a b ha hb hab
    rcases hab with _ | ⟨hb', hax⟩
    · rfl
    · rw [hb] at hb'
      cases hb'
      exact absurd hax (not_of_child rank hr ha)
  rcases total h h' with h | h
  · exact key hc hc' h
  · exact (key hc' hc h).symm

end Rank

end OnWalk

/-! ## `IsDominated` and `DominatorPath` on a ranked map -/

/-- What `DominatorPath` returns from `y`: `y`, the walk up from it, then 0. -/
structure IsWalkPath (idom : GoMap ObjID ObjID) (y : ObjID) (p : List ObjID) : Prop where
  head : p.head? = some y
  last : p.getLast? = some 0
  mem : ∀ x, x ∈ p ↔ OnWalk idom x y ∨ x = 0
  nodup : p.Nodup
  chain : p.Chain' fun x z => idom.get? x = some z ∨ z = 0

/-- Two paths of one walk list the same nodes, each once, so have one length. -/
theorem IsWalkPath.length_eq {idom : GoMap ObjID ObjID} {y : ObjID} {p p' : List ObjID}
    (h : IsWalkPath idom y p) (h' : IsWalkPath idom y p') : p.length = p'.length :=
  ((List.perm_ext_iff_of_nodup h.nodup h'.nodup).2 fun x => by rw [h.mem, h'.mem]).length_eq

section Ranked

variable {idom : GoMap ObjID ObjID} {rank : ObjID → Nat}
  (hr : ∀ y d, idom.get? y = some d → rank d < rank y) (h0 : idom.get? 0 = none)
include hr h0

/-- The loop of `IsDominated` answers whether `a` is on the walk from `y`. -/
theorem isDominatedLoop_spec (a : ObjID) : ∀ fuel y, rank y < fuel → y ≠ a →
    ∃ b, isDominatedLoop idom a fuel y = some b ∧ (b = true ↔ OnWalk idom a y)
  | 0, _, h, _ => absurd h (Nat.not_lt_zero _)
  | fuel + 1, y, hfuel, hya => by
    simp only [isDominatedLoop]
    cases hy : idom.get? y with
    | none => exact ⟨false, rfl, by simp [OnWalk.iff_of_get?_none hy, Ne.symm hya]⟩
    | some dom =>
      rw [OnWalk.iff_of_get? hy (Ne.symm hya)]
      by_cases hda : dom = a
      · subst hda
        exact ⟨true, by simp, by simp [OnWalk.refl]⟩
      by_cases hd0 : dom = 0
      · subst hd0
        refine ⟨false, by simp [hda, Ne.symm hda], ?_⟩
        rw [OnWalk.iff_of_get?_none h0]
        simpa using Ne.symm hda
      · obtain ⟨b, hb, hiff⟩ := isDominatedLoop_spec a fuel dom
          (by have := hr _ _ hy; omega) hda
        exact ⟨b, by simp [hda, hd0, hb], hiff⟩

/-- `IsDominated(idom, y, a)`, with fuel above the rank of `y`. -/
theorem isDominated_spec {y : ObjID} (a : ObjID) (hfuel : rank y < idom.entries.length + 1) :
    ∃ b, isDominated idom y a = some b ∧ (b = true ↔ OnWalk idom a y) := by
  unfold isDominated
  split
  · rename_i hya
    exact ⟨true, rfl, by simp [hya, OnWalk.refl]⟩
  · exact isDominatedLoop_spec hr h0 a _ y hfuel ‹_›

omit hr in
/-- From 0, which has no entry, the path is `[0]`. -/
theorem isWalkPath_zero : IsWalkPath idom 0 [0] where
  head := rfl
  last := rfl
  mem x := by simp [OnWalk.iff_of_get?_none h0]
  nodup := List.nodup_singleton 0
  chain := .nil

omit hr in
/-- A walk that stops at `y ≠ 0`, with no entry or the entry 0, gives `[y, 0]`. -/
theorem isWalkPath_stop {y : ObjID} (hy0 : y ≠ 0) (hy : idom.get? y = none ∨ idom.get? y = some 0) :
    IsWalkPath idom y [y, 0] where
  head := rfl
  last := rfl
  mem x := by
    rcases hy with hy | hy
    · simp [OnWalk.iff_of_get?_none hy]
    · rw [OnWalk.iff_up, hy]
      simp [OnWalk.iff_of_get?_none h0]
  nodup := by simp [hy0]
  chain := .cons (hy.elim (fun _ => .inr rfl) .inl) .nil

/-- A step of the walk to `d` puts `y` in front of the path from `d`. -/
theorem IsWalkPath.cons {y d : ObjID} {p : List ObjID} (hy : idom.get? y = some d)
    (h : IsWalkPath idom d p) : IsWalkPath idom y (y :: p) := by
  obtain ⟨q, rfl⟩ : ∃ q, p = d :: q := by
    have hh := h.head
    cases p with
    | nil => cases hh
    | cons a q =>
      simp only [List.head?_cons, Option.some.injEq] at hh
      exact ⟨q, hh ▸ rfl⟩
  have hy0 : y ≠ 0 := fun e => by rw [e, h0] at hy; cases hy
  refine ⟨rfl, by simpa using h.last, fun x => ?_, List.nodup_cons.2 ⟨fun hmem => ?_, h.nodup⟩,
    .cons (.inl hy) h.chain⟩
  · rw [List.mem_cons, h.mem, OnWalk.iff_up (y := y), hy]
    simp only [Option.some.injEq, exists_eq_left']
    tauto
  · rcases (h.mem y).1 hmem with hyd | hy0'
    · exact absurd (hyd.rank_le rank hr) (not_le.2 (hr _ _ hy))
    · exact hy0 hy0'

/-- The loop of `DominatorPath` appends the walk from `y`, then 0. -/
theorem dominatorPathLoop_spec : ∀ fuel y acc, rank y < fuel →
    ∃ p, dominatorPathLoop idom fuel y acc = some (acc ++ p) ∧ IsWalkPath idom y p
  | 0, _, _, h => absurd h (Nat.not_lt_zero _)
  | fuel + 1, y, acc, hfuel => by
    by_cases hy0 : y = 0
    · subst hy0
      exact ⟨[0], by simp [dominatorPathLoop, h0], isWalkPath_zero h0⟩
    cases hy : idom.get? y with
    | none => exact ⟨[y, 0], by simp [dominatorPathLoop, hy, hy0], isWalkPath_stop h0 hy0 (.inl hy)⟩
    | some dom =>
      by_cases hd0 : dom = 0
      · subst hd0
        exact ⟨[y, 0], by simp [dominatorPathLoop, hy, hy0], isWalkPath_stop h0 hy0 (.inr hy)⟩
      · obtain ⟨p, hp, hpath⟩ := dominatorPathLoop_spec fuel dom (acc ++ [y])
          (by have := hr _ _ hy; omega)
        exact ⟨y :: p, by simp [dominatorPathLoop, hy, hd0, hp], hpath.cons hr h0 hy⟩

/-- `DominatorPath(idom, y)`, with fuel above the rank of `y`. -/
theorem dominatorPath_spec {y : ObjID} (hfuel : rank y < idom.entries.length + 1) :
    ∃ p, dominatorPath idom y = some p ∧ IsWalkPath idom y p := by
  obtain ⟨p, hp, hpath⟩ := dominatorPathLoop_spec hr h0 _ y [] hfuel
  exact ⟨p, by simpa using hp, hpath⟩

end Ranked

/-! ## `computeDepth` on the child lists of a ranked map -/

/-- What `computeDepth` from `node` at depth `d` leaves: the nodes whose walk
meets `node` get `d` plus their level below `node`, the others keep their
entries. -/
def DepthPost (idom : GoMap ObjID ObjID) (level : ObjID → Nat) (node : ObjID) (d : Nat)
    (depth depth' : GoMap ObjID Nat) : Prop :=
  ∀ y, (OnWalk idom node y → depth'.get? y = some (d + (level y - level node))) ∧
    (¬ OnWalk idom node y → depth'.get? y = depth.get? y)

section Depth

/- `rank` orders the walks; `μ` bounds the depth of the recursion down the
child lists, which are those of the map. -/
variable {tree : GoMap ObjID (List ObjID)} {idom : GoMap ObjID ObjID}
  (hchild : ∀ x c, c ∈ children tree x ↔ idom.get? c = some x)
  (hnd : ∀ x, (children tree x).Nodup)
  {rank : ObjID → Nat} (hr : ∀ y d, idom.get? y = some d → rank d < rank y)
  {μ : ObjID → Nat} (hμ : ∀ y d, idom.get? y = some d → μ y < μ d)
  {level : ObjID → Nat} (hlevel : ∀ y d, idom.get? y = some d → level y = level d + 1)

include hlevel in
theorem OnWalk.level_le {x y : ObjID} (h : OnWalk idom x y) : level x ≤ level y := by
  induction h with
  | refl => exact le_rfl
  | up hd _ ih =>
    have := hlevel _ _ hd
    omega

include hr in
/-- The children fold of `computeDepth`, given the calls one unit of fuel
lower: the walks of distinct children are disjoint, so no call overwrites
another's entries. -/
theorem foldlM_computeDepth {fuel : Nat} {node : ObjID} {d : Nat}
    (ih : ∀ c depth, idom.get? c = some node →
      ∃ depth', computeDepth tree fuel c (d + 1) depth = some depth' ∧
        DepthPost idom level c (d + 1) depth depth') :
    ∀ (l : List ObjID) (depth : GoMap ObjID Nat), (∀ c ∈ l, idom.get? c = some node) → l.Nodup →
      ∃ depth', l.foldlM (fun depth child => computeDepth tree fuel child (d + 1) depth) depth =
          some depth' ∧
        ∀ y, (∀ c ∈ l, OnWalk idom c y → depth'.get? y = some (d + 1 + (level y - level c))) ∧
          ((∀ c ∈ l, ¬ OnWalk idom c y) → depth'.get? y = depth.get? y)
  | [], depth, _, _ => ⟨depth, rfl, fun _ => ⟨by simp, fun _ => rfl⟩⟩
  | c :: l, depth, hl, hnd => by
    obtain ⟨depth₁, h₁, hpost₁⟩ := ih c depth (hl c (List.mem_cons_self _ _))
    obtain ⟨depth₂, h₂, hpost₂⟩ := foldlM_computeDepth ih l depth₁
      (fun c' hc' => hl c' (List.mem_cons_of_mem _ hc')) (List.nodup_cons.1 hnd).2
    refine ⟨depth₂, by simp [h₁, h₂], fun y => ⟨fun c' hc' hy => ?_, fun hy => ?_⟩⟩
    · rcases List.mem_cons.1 hc' with rfl | hc'
      · have hnot : ∀ c'' ∈ l, ¬ OnWalk idom c'' y := fun c'' hc'' hc''y =>
          (List.nodup_cons.1 hnd).1 (OnWalk.eq_of_child rank hr (hl _ (List.mem_cons_self _ _))
            (hl c'' (List.mem_cons_of_mem _ hc'')) hy hc''y ▸ hc'')
        rw [(hpost₂ y).2 hnot, (hpost₁ y).1 hy]
      · exact (hpost₂ y).1 c' hc' hy
    · rw [(hpost₂ y).2 fun c' hc' => hy c' (List.mem_cons_of_mem _ hc'),
        (hpost₁ y).2 (hy c (List.mem_cons_self _ _))]

include hchild hnd hr hμ hlevel in
/-- Every call of `computeDepth` with fuel above the measure of its node returns,
and gives the nodes below it their depths. -/
theorem computeDepth_spec : ∀ fuel node d depth, μ node < fuel →
    ∃ depth', computeDepth tree fuel node d depth = some depth' ∧
      DepthPost idom level node d depth depth'
  | 0, _, _, _, h => absurd h (Nat.not_lt_zero _)
  | fuel + 1, node, d, depth, hfuel => by
    obtain ⟨depth', hfold, hpost⟩ := foldlM_computeDepth hr
      (fun c dep hc => computeDepth_spec fuel c (d + 1) dep (by have := hμ c node hc; omega))
      (children tree node) (depth.insert node d) (fun c hc => (hchild node c).1 hc) (hnd node)
    refine ⟨depth', hfold, fun y => ⟨fun hy => ?_, fun hy => ?_⟩⟩
    · by_cases hyn : node = y
      · subst hyn
        rw [(hpost node).2 fun c hc hcn => OnWalk.not_of_child rank hr ((hchild node c).1 hc) hcn,
          GoMap.get?_insert]
        simp
      · obtain ⟨c, hc, hcy⟩ := hy.exists_child hyn
        rw [(hpost y).1 c ((hchild node c).2 hc) hcy]
        have h₁ := hlevel c node hc
        have h₂ := hcy.level_le hlevel
        congr 1
        omega
    · have hyn : y ≠ node := fun h => hy (h ▸ .refl)
      rw [(hpost y).2 fun c hc hcy => hy ((OnWalk.of_get? ((hchild node c).1 hc)).trans hcy),
        GoMap.get?_insert, if_neg hyn]

end Depth

end HeapLens.Graph
