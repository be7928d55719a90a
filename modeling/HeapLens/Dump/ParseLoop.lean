import HeapLens.Dump.StreamLoop

/-!
# `GoHeapParser.Parse` terminates

The graph-building parser of `Dump.Parser` bounds its loops by fuel: the record
loop and the two field-list loops (`skipFieldsAux`, `readPointerFieldsAux`) get
one more turn than there are bytes left.  Every turn reads a varint first,
which takes a byte or fails, so no bound is reached: on every byte string the
model returns what the source's unbounded loops return.
-/

namespace HeapLens.Dump

theorem Shrinks.seqRight {σ α β : Type} {len : σ → Nat} {x : EStateM Fault σ α}
    {y : EStateM Fault σ β} (hx : Shrinks len x) (hy : Shrinks len y) : Shrinks len (x *> y) :=
  Shrinks.bind hx fun _ => hy

/-- A computation that first reads its whole state. -/
theorem Shrinks.get_bind {σ α : Type} {len : σ → Nat} {f : σ → EStateM Fault σ α}
    (hf : ∀ s, Within len (len s) (f s s)) : Shrinks len (get >>= f) :=
  hf

/-- The field list of a stack frame or a data segment, skipped. -/
theorem skipFieldsAux_shrinksBelow : ∀ fuel, ShrinksBelow List.length fuel (skipFieldsAux fuel)
  | 0 => fun _ h => absurd h (Nat.not_lt_zero _)
  | fuel + 1 => by
    rw [skipFieldsAux]
    refine ShrinksBelow.readVarint_bind fun _ => ?_
    repeat' first
      | with_reducible refine ShrinksBelow.bind ?_ fun _ => ?_
      | with_reducible refine ShrinksBelow.ite ?_ ?_
      | exact readVarint_shrinks.below _
      | exact (Shrinks.pure _).below _
      | exact skipFieldsAux_shrinksBelow fuel

theorem skipFields_shrinks : Shrinks List.length skipFields := fun bs =>
  skipFieldsAux_shrinksBelow _ bs (Nat.lt_succ_self _)

namespace Parser

theorem parseParams_shrinks (p : Parser) : Shrinks List.length (parseParams p) := by
  unfold parseParams
  repeat' first
    | with_reducible refine Shrinks.bind ?_ fun _ => ?_
    | exact readVarint_shrinks
    | exact readString_shrinks
    | exact Shrinks.pure _

theorem parseType_shrinks (p : Parser) : Shrinks List.length (parseType p) := by
  unfold parseType
  repeat' first
    | with_reducible refine Shrinks.bind ?_ fun _ => ?_
    | exact readVarint_shrinks
    | exact readString_shrinks
    | exact Shrinks.pure _

theorem parseObject_shrinks (p : Parser) : Shrinks List.length (parseObject p) := by
  unfold parseObject
  repeat' first
    | with_reducible refine Shrinks.bind ?_ fun _ => ?_
    | exact readVarint_shrinks
    | exact readBytes_shrinks
    | exact readPointerFields_shrinks _ _ _
    | exact typeAddress_shrinks _ _ _
    | exact Shrinks.pure _

theorem parseOtherRoot_shrinks (p : Parser) : Shrinks List.length (parseOtherRoot p) := by
  unfold parseOtherRoot
  refine Shrinks.bind readString_shrinks fun _ => Shrinks.bind readVarint_shrinks fun ptr => ?_
  split <;> exact Shrinks.pure _

theorem parseGoroutine_shrinks : Shrinks List.length parseGoroutine :=
  Shrinks.bind (skipVarints_shrinks 12) fun _ => Shrinks.bind readString_shrinks fun _ => Shrinks.pure _

theorem parseStackFrame_shrinks : Shrinks List.length parseStackFrame := by
  unfold parseStackFrame
  repeat' first
    | with_reducible refine Shrinks.bind ?_ fun _ => ?_
    | exact skipVarints_shrinks _
    | exact readBytes_shrinks
    | exact readString_shrinks
    | exact skipFields_shrinks

theorem skipDataSegment_shrinks : Shrinks List.length skipDataSegment :=
  Shrinks.bind readVarint_shrinks fun _ => Shrinks.bind readBytes_shrinks fun _ => skipFields_shrinks

theorem skipMemProfFrames_shrinks : ∀ n, Shrinks List.length (skipMemProfFrames n)
  | 0 => Shrinks.pure _
  | n + 1 => Shrinks.bind readString_shrinks fun _ => Shrinks.bind readString_shrinks fun _ =>
      Shrinks.bind readVarint_shrinks fun _ => skipMemProfFrames_shrinks n

theorem skipMemProf_shrinks : Shrinks List.length skipMemProf :=
  Shrinks.bind (skipVarints_shrinks 2) fun _ => Shrinks.bind readVarint_shrinks fun _ =>
    Shrinks.bind (skipMemProfFrames_shrinks _) fun _ => skipVarints_shrinks 2

/-- The record loop with more fuel than bytes: each turn reads a tag, and so a
byte, before the next. -/
theorem parseRecords_shrinksBelow : ∀ fuel p, ShrinksBelow List.length fuel (parseRecords fuel p)
  | 0, _ => fun _ h => absurd h (Nat.not_lt_zero _)
  | fuel + 1, p => fun bs hbs => by
    have hle : (readUvarint bs).2.length ≤ bs.length := length_readUvarintAux_le 10 0 0 bs
    rw [parseRecords]; beta_reduce
    split
    · rename_i rest hr
      rw [hr] at hle
      exact hle
    · rename_i e rest _ hr
      rw [hr] at hle
      exact ⟨hle, nofun⟩
    · rename_i tag rest hr
      have hlt := length_readUvarint_lt hr nofun
      have next : ∀ d : Decoder Parser, Shrinks List.length d →
          Within List.length bs.length ((d >>= parseRecords fuel) rest) := fun d hd =>
        (ShrinksBelow.bind (hd.below fuel) (parseRecords_shrinksBelow fuel) rest (by omega)).mono
          hlt.le
      split
      · exact hlt.le
      · exact next _ (wrapError_shrinks _ (parseParams_shrinks p))
      · exact next _ (wrapError_shrinks _ (parseType_shrinks p))
      · exact next _ (wrapError_shrinks _ (parseObject_shrinks p))
      · exact next _ (wrapError_shrinks _ (parseOtherRoot_shrinks p))
      · exact next _ (wrapError_shrinks _ (parseGoroutine_shrinks.seqRight (Shrinks.pure p)))
      · exact next _ (wrapError_shrinks _ (parseStackFrame_shrinks.seqRight (Shrinks.pure p)))
      · exact next _ (wrapError_shrinks _ ((skipVarints_shrinks 8).seqRight (Shrinks.pure p)))
      · exact next _ (wrapError_shrinks _ ((skipVarints_shrinks 2).seqRight (Shrinks.pure p)))
      · exact next _ (wrapError_shrinks _ ((skipVarints_shrinks 5).seqRight (Shrinks.pure p)))
      · exact next _ (wrapError_shrinks _ ((skipVarints_shrinks 5).seqRight (Shrinks.pure p)))
      · exact next _ (wrapError_shrinks _ (skipDataSegment_shrinks.seqRight (Shrinks.pure p)))
      · exact next _ (wrapError_shrinks _ (skipDataSegment_shrinks.seqRight (Shrinks.pure p)))
      · exact next _ (wrapError_shrinks _ ((skipVarints_shrinks 5).seqRight (Shrinks.pure p)))
      · exact next _ (wrapError_shrinks _ ((skipVarints_shrinks 5).seqRight (Shrinks.pure p)))
      · exact next _ (wrapError_shrinks _ ((skipVarints_shrinks 3).seqRight (Shrinks.pure p)))
      · exact next _ (wrapError_shrinks _ (skipMemProf_shrinks.seqRight (Shrinks.pure p)))
      · exact next _ (wrapError_shrinks _ (skipMemProf_shrinks.seqRight (Shrinks.pure p)))
      · exact ⟨hlt.le, nofun⟩

/-- `parse` reads the header, then runs the record loop with more fuel than
bytes. -/
theorem parse_shrinks : Shrinks List.length parse := by
  unfold parse
  repeat' first
    | exact Shrinks.get_bind fun bs => ShrinksBelow.bind (parseRecords_shrinksBelow _ init)
        (fun _ => (Shrinks.pure _).below _) bs (Nat.lt_succ_self _)
    | with_reducible refine Shrinks.bind ?_ fun _ => ?_
    | with_reducible refine Shrinks.ite ?_ ?_
    | exact wrapError_shrinks _ (readFull_shrinks _)
    | exact Shrinks.pure _
    | exact Shrinks.throw nofun

end Parser

/-- `GoHeapParser.Parse` terminates on every byte string: it returns a graph,
or fails with a returned error or a panic, and never reaches an iteration bound
of the model. -/
theorem goHeapParser_parse_terminates (bs : List UInt8) :
    GoHeapParser.parse bs ≠ .error .outOfFuel := by
  have h := wrapError_shrinks "parsing heap dump" Parser.parse_shrinks bs
  unfold GoHeapParser.parse
  split <;> rename_i hp <;> rw [hp] at h
  · exact nofun
  · exact fun he => h.2 (Except.error.inj he)

end HeapLens.Dump
