import HeapLens.Graph.Retained

/-!
# The memoised recursion of `RetainedSize`

`computeRetained` sums self-sizes over a subtree of a tree map, with a memo
shared between calls.  `subtreeSize` is the same sum without the memo, in `Nat`.
When a measure `μ` decreases from each node to its children, fuel above `μ x`
gives the sum at `x` its final value; a memo that holds only final values
(reduced mod 2^64, as `uint64` sums wrap) keeps holding them, and every call
with enough fuel returns the final value of its node and records it.  A call
records only its node and nodes that are some node's children.
-/

namespace HeapLens.Graph

/-- `tree[x]`: the child list of `x`, nil when `x` is no key. -/
def children (tree : GoMap ObjID (List ObjID)) (x : ObjID) : List ObjID := (tree.get? x).getD []

/-- The sum of the self-sizes below `x`, with `fuel` bounding the depth. -/
def subtreeSize (tree : GoMap ObjID (List ObjID)) (sizes : ObjID → Option UInt64) :
    Nat → ObjID → Nat
  | 0, _ => 0
  | fuel + 1, x =>
    ((sizes x).getD 0).toNat + ((children tree x).map (subtreeSize tree sizes fuel)).sum

theorem computeRetained_succ_some {tree : GoMap ObjID (List ObjID)}
    {sizes : ObjID → Option UInt64} {fuel : Nat} {x : ObjID} {memo : GoMap ObjID UInt64}
    {v : UInt64} (h : memo.get? x = some v) :
    computeRetained tree sizes (fuel + 1) x memo = (v, memo) := by
  simp [computeRetained, h]

/-- A missed call folds over the children, threading the memo, and records its sum. -/
theorem computeRetained_succ_none {tree : GoMap ObjID (List ObjID)}
    {sizes : ObjID → Option UInt64} {fuel : Nat} {x : ObjID} {memo : GoMap ObjID UInt64}
    (h : memo.get? x = none) :
    computeRetained tree sizes (fuel + 1) x memo =
      let r := (children tree x).foldl (fun acc c =>
        ((acc.1 + (computeRetained tree sizes fuel c acc.2).1),
          (computeRetained tree sizes fuel c acc.2).2)) ((sizes x).getD 0, memo)
      (r.1, r.2.insert x r.1) := by
  simp only [computeRetained, h]
  rfl

section Measure

variable (tree : GoMap ObjID (List ObjID)) (sizes : ObjID → Option UInt64) (μ : ObjID → Nat)

/-- The memo holds final subtree sums, mod 2^64. -/
def MemoSound (memo : GoMap ObjID UInt64) : Prop :=
  ∀ y v, memo.get? y = some v → v.toNat = subtreeSize tree sizes (μ y + 1) y % 2 ^ 64

theorem MemoSound.empty : MemoSound tree sizes μ GoMap.empty := fun _ _ h => by
  simp at h

/-- What a call of `computeRetained` on `x` from the memo `memo` returns. -/
structure CallPost (x : ObjID) (memo : GoMap ObjID UInt64) (r : UInt64 × GoMap ObjID UInt64) :
    Prop where
  value : r.1.toNat = subtreeSize tree sizes (μ x + 1) x % 2 ^ 64
  sound : MemoSound tree sizes μ r.2
  grows : ∀ y, (memo.get? y).isSome → (r.2.get? y).isSome
  mem : (r.2.get? x).isSome
  new : ∀ y, (r.2.get? y).isSome → (memo.get? y).isSome ∨ y = x ∨ ∃ z, y ∈ children tree z

variable {tree sizes μ} (hμ : ∀ x, ∀ c ∈ children tree x, μ c < μ x)
include hμ

/-- Any fuel above `μ x` gives the final sum. -/
theorem subtreeSize_stable : ∀ k k' x, μ x < k → μ x < k' →
    subtreeSize tree sizes k x = subtreeSize tree sizes k' x
  | 0, _, _, hk, _ => absurd hk (Nat.not_lt_zero _)
  | _ + 1, 0, _, _, hk' => absurd hk' (Nat.not_lt_zero _)
  | k + 1, k' + 1, x, hk, hk' => by
    simp only [subtreeSize]
    congr 2
    refine List.map_congr_left fun c hc => ?_
    have := hμ x c hc
    exact subtreeSize_stable k k' c (by omega) (by omega)

/-- The final sum at `x`: its own size and its children's final sums. -/
theorem subtreeSize_final (x : ObjID) :
    subtreeSize tree sizes (μ x + 1) x =
      ((sizes x).getD 0).toNat +
        ((children tree x).map fun c => subtreeSize tree sizes (μ c + 1) c).sum := by
  rw [subtreeSize.eq_2]
  congr 2
  exact List.map_congr_left fun c hc =>
    subtreeSize_stable hμ _ _ c (by have := hμ x c hc; omega) (by omega)

omit hμ in
/-- The children fold of a missed call, given the calls one unit of fuel lower. -/
theorem foldl_children {fuel : Nat}
    (ih : ∀ c memo, μ c < fuel → MemoSound tree sizes μ memo →
      CallPost tree sizes μ c memo (computeRetained tree sizes fuel c memo)) :
    ∀ (l : List ObjID) (a : UInt64) (memo : GoMap ObjID UInt64), (∀ c ∈ l, μ c < fuel) →
      (∃ z, ∀ c ∈ l, c ∈ children tree z) → MemoSound tree sizes μ memo →
      let r := l.foldl (fun acc c =>
        ((acc.1 + (computeRetained tree sizes fuel c acc.2).1),
          (computeRetained tree sizes fuel c acc.2).2)) (a, memo)
      r.1.toNat = (a.toNat + (l.map fun c => subtreeSize tree sizes (μ c + 1) c).sum) % 2 ^ 64 ∧
        MemoSound tree sizes μ r.2 ∧
        (∀ y, (memo.get? y).isSome → (r.2.get? y).isSome) ∧
        ∀ y, (r.2.get? y).isSome → (memo.get? y).isSome ∨ ∃ z, y ∈ children tree z
  | [], a, memo, _, _, hsound => by
    simp only [List.foldl_nil, List.map_nil, List.sum_nil, Nat.add_zero]
    exact ⟨(Nat.mod_eq_of_lt a.toNat_lt_size).symm, hsound, fun _ h => h, fun _ h => .inl h⟩
  | c :: l, a, memo, hl, ⟨z, hz⟩, hsound => by
    have hc := ih c memo (hl c (List.mem_cons_self _ _)) hsound
    obtain ⟨hval, hsound', hgrow, hnew⟩ := foldl_children ih l _ _
      (fun c' hc' => hl c' (List.mem_cons_of_mem _ hc'))
      ⟨z, fun c' hc' => hz c' (List.mem_cons_of_mem _ hc')⟩ hc.sound
    refine ⟨?_, hsound', fun y hy => hgrow y (hc.grows y hy), fun y hy => ?_⟩
    · rw [List.foldl_cons, hval, toNat_add_uint64, hc.value, List.map_cons, List.sum_cons]
      simp only [Nat.add_mod_mod, Nat.mod_add_mod]
      rw [Nat.add_assoc]
    · rcases hnew y hy with hy' | hy'
      · rcases hc.new y hy' with h | rfl | h
        · exact .inl h
        · exact .inr ⟨z, hz _ (List.mem_cons_self _ _)⟩
        · exact .inr h
      · exact .inr hy'

/-- Every call with fuel above the measure of its node returns the node's final
sum, keeps the memo sound, and records the node. -/
theorem computeRetained_spec : ∀ fuel x memo, μ x < fuel → MemoSound tree sizes μ memo →
    CallPost tree sizes μ x memo (computeRetained tree sizes fuel x memo)
  | 0, _, _, hx, _ => absurd hx (Nat.not_lt_zero _)
  | fuel + 1, x, memo, hx, hsound => by
    cases hget : memo.get? x with
    | some v =>
      rw [computeRetained_succ_some hget]
      exact ⟨hsound x v hget, hsound, fun _ h => h, by simp [hget], fun _ h => .inl h⟩
    | none =>
      rw [computeRetained_succ_none hget]
      obtain ⟨hval, hsound', hgrow, hnew⟩ := foldl_children
        (fun c m hc hm => computeRetained_spec fuel c m hc hm) (children tree x)
        ((sizes x).getD 0) memo (fun c hc => by have := hμ x c hc; omega)
        ⟨x, fun _ h => h⟩ hsound
      have hvalue : _ := subtreeSize_final hμ x ▸ hval
      refine ⟨hvalue, fun y v hy => ?_, fun y hy => ?_, by simp [GoMap.get?_insert], fun y hy => ?_⟩
      · rw [GoMap.get?_insert] at hy
        split at hy
        · subst y
          exact (Option.some.inj hy) ▸ hvalue
        · exact hsound' y v hy
      · rw [GoMap.get?_insert]
        split
        · rfl
        · exact hgrow y hy
      · rw [GoMap.get?_insert] at hy
        split at hy
        · exact .inr (.inl ‹_›)
        · rcases hnew y hy with h | h
          · exact .inl h
          · exact .inr (.inr h)

/-- Calls from each node of a list, threading the memo: the memo stays sound,
records the nodes, and records nothing but them and children. -/
theorem foldl_computeRetained {fuel : Nat} :
    ∀ (l : List ObjID) (memo : GoMap ObjID UInt64), (∀ x ∈ l, μ x < fuel) →
      MemoSound tree sizes μ memo →
      let m := l.foldl (fun memo x => (computeRetained tree sizes fuel x memo).2) memo
      MemoSound tree sizes μ m ∧ (∀ y, (memo.get? y).isSome ∨ y ∈ l → (m.get? y).isSome) ∧
        ∀ y, (m.get? y).isSome → (memo.get? y).isSome ∨ y ∈ l ∨ ∃ z, y ∈ children tree z
  | [], memo, _, hsound => ⟨hsound, fun _ h => h.elim id (fun h => absurd h (List.not_mem_nil _)),
      fun _ h => .inl h⟩
  | x :: l, memo, hl, hsound => by
    have hx := computeRetained_spec hμ fuel x memo (hl x (List.mem_cons_self _ _)) hsound
    obtain ⟨hsound', hgrow, hnew⟩ := foldl_computeRetained l _
      (fun y hy => hl y (List.mem_cons_of_mem _ hy)) hx.sound
    refine ⟨hsound', fun y hy => ?_, fun y hy => ?_⟩
    · rcases hy with hy | hy
      · exact hgrow y (.inl (hx.grows y hy))
      · rcases List.mem_cons.1 hy with rfl | hy
        · exact hgrow y (.inl hx.mem)
        · exact hgrow y (.inr hy)
    · rcases hnew y hy with h | h | h
      · rcases hx.new y h with h' | rfl | h'
        · exact .inl h'
        · exact .inr (.inl (List.mem_cons_self _ _))
        · exact .inr (.inr h')
      · exact .inr (.inl (List.mem_cons_of_mem _ h))
      · exact .inr (.inr h)

end Measure

end HeapLens.Graph
