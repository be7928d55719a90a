import HeapLens.Dump.Streaming

/-!
# The record loop of the streaming parser: recovery and termination

Every reader of the codec and every record routine of the streaming parser
gives back no more bytes than it was given and does not run out of fuel; a tag
read that does not meet the end of the stream takes a byte.  So each turn of
the record loop that goes on has taken a byte, and `Parse` ends, with a result,
a returned error or a panic, before the loop's iteration bound.

Recovery resumes where `seekToNextRecord` stops.  Its scan consumes the byte it
stops at, because `bufio.Reader.Peek` makes the `UnreadByte` after it fail; and
a record that the stream cuts short is recovered like any other failure, so
the parse succeeds.
-/

namespace HeapLens.Dump

open HeapLens.Graph

/-! ## Computations that give back no more bytes than they were given -/

/-- What a computation may return from an input of size `n`: no more input,
and no fuel fault. -/
def Within {σ α : Type} (len : σ → Nat) (n : Nat) : EStateM.Result Fault σ α → Prop
  | .ok _ s' => len s' ≤ n
  | .error e s' => len s' ≤ n ∧ e ≠ .outOfFuel

/-- `m` gives back no more input than it was given, and does not run out of fuel. -/
def Shrinks {σ α : Type} (len : σ → Nat) (m : EStateM Fault σ α) : Prop :=
  ∀ s, Within len (len s) (m s)

theorem Within.mono {σ α : Type} {len : σ → Nat} {n n' : Nat} {r : EStateM.Result Fault σ α}
    (hr : Within len n r) (h : n ≤ n') : Within len n' r := by
  cases r with
  | ok _ s' => exact Nat.le_trans hr h
  | error e s' => exact ⟨Nat.le_trans hr.1 h, hr.2⟩

namespace Shrinks

variable {σ α β : Type} {len : σ → Nat}

theorem pure (a : α) : Shrinks len (Pure.pure a : EStateM Fault σ α) := fun _ => Nat.le_refl _

theorem throw {e : Fault} (he : e ≠ .outOfFuel) : Shrinks len (MonadExcept.throw e : EStateM Fault σ α) :=
  fun _ => ⟨Nat.le_refl _, he⟩

theorem bind {x : EStateM Fault σ α} {f : α → EStateM Fault σ β} (hx : Shrinks len x)
    (hf : ∀ a, Shrinks len (f a)) : Shrinks len (x >>= f) := by
  intro s
  have h := hx s
  show Within len (len s) (EStateM.bind x f s)
  unfold EStateM.bind
  cases hxs : x s with
  | ok a s' =>
    rw [hxs] at h
    exact (hf a s').mono h
  | error e s' =>
    rw [hxs] at h
    exact h

theorem ite {c : Prop} [Decidable c] {x y : EStateM Fault σ α} (hx : Shrinks len x) (hy : Shrinks len y) :
    Shrinks len (if c then x else y) := by
  split
  · exact hx
  · exact hy

end Shrinks

theorem length_readUvarintAux_le : ∀ k i x (bs : List UInt8), (readUvarintAux k i x bs).2.length ≤ bs.length
  | 0, _, _, _ => le_rfl
  | _ + 1, _, _, [] => le_rfl
  | k + 1, i, x, b :: bs => by
    simp only [readUvarintAux]
    split
    · split <;> simp
    · exact (length_readUvarintAux_le k _ _ bs).trans (Nat.le_succ _)

theorem readVarint_shrinks : Shrinks List.length readVarint := fun bs => by
  have := length_readUvarintAux_le 10 0 0 bs
  unfold readVarint readUvarint
  split <;> rename_i h <;> rw [h] at this
  · exact this
  · exact ⟨this, nofun⟩

theorem readFull_shrinks (n : Nat) : Shrinks List.length (readFull n) := fun bs => by
  unfold readFull
  split
  · simp [Within]
  · exact ⟨Nat.zero_le _, nofun⟩

theorem readString_shrinks : Shrinks List.length readString := by
  unfold readString
  repeat' first
    | with_reducible refine Shrinks.bind ?_ fun _ => ?_
    | with_reducible refine Shrinks.ite ?_ ?_
    | exact readVarint_shrinks
    | exact readFull_shrinks _
    | exact Shrinks.pure _
    | exact Shrinks.throw nofun

theorem readBytes_shrinks : Shrinks List.length readBytes := by
  unfold readBytes
  repeat' first
    | with_reducible refine Shrinks.bind ?_ fun _ => ?_
    | with_reducible refine Shrinks.ite ?_ ?_
    | exact readVarint_shrinks
    | exact readFull_shrinks _
    | exact Shrinks.pure _
    | exact Shrinks.throw nofun

theorem skipVarints_shrinks : ∀ n, Shrinks List.length (skipVarints n)
  | 0 => Shrinks.pure _
  | n + 1 => Shrinks.bind readVarint_shrinks fun _ => skipVarints_shrinks n

theorem ofExcept_shrinks {α : Type} (x : Except Fault α) (hx : ∀ e, x = .error e → e ≠ .outOfFuel) :
    Shrinks List.length (Decoder.ofExcept x) := fun bs => by
  unfold Decoder.ofExcept
  split
  · exact Nat.le_refl _
  · exact ⟨Nat.le_refl _, hx _ rfl⟩

theorem goSlice_ne_outOfFuel (data : List UInt8) (lo hi : UInt64) :
    ∀ e, goSlice data lo hi = .error e → e ≠ .outOfFuel := by
  intro e he
  unfold goSlice at he
  split at he
  · cases he
  · cases he
    exact nofun

theorem typeAddress_shrinks (bigEndian : Bool) (pointerSize : UInt64) (data : List UInt8) :
    Shrinks List.length (typeAddress bigEndian pointerSize data) := by
  unfold typeAddress
  repeat' first
    | with_reducible refine Shrinks.bind ?_ fun _ => ?_
    | with_reducible refine Shrinks.ite ?_ ?_
    | exact ofExcept_shrinks _ (goSlice_ne_outOfFuel _ _ _)
    | exact Shrinks.pure _

/-- `m` gives back no more input than it was given, and does not run out of
fuel, on inputs of size below `n`. -/
def ShrinksBelow {σ α : Type} (len : σ → Nat) (n : Nat) (m : EStateM Fault σ α) : Prop :=
  ∀ s, len s < n → Within len (len s) (m s)

theorem Shrinks.below {σ α : Type} {len : σ → Nat} {m : EStateM Fault σ α} (h : Shrinks len m)
    (n : Nat) : ShrinksBelow len n m := fun s _ => h s

theorem ShrinksBelow.bind {σ α β : Type} {len : σ → Nat} {n : Nat} {x : EStateM Fault σ α}
    {f : α → EStateM Fault σ β} (hx : ShrinksBelow len n x) (hf : ∀ a, ShrinksBelow len n (f a)) :
    ShrinksBelow len n (x >>= f) := by
  intro s hs
  have h := hx s hs
  show Within len (len s) (EStateM.bind x f s)
  unfold EStateM.bind
  cases hxs : x s with
  | ok a s' =>
    rw [hxs] at h
    exact (hf a s' (Nat.lt_of_le_of_lt h hs)).mono h
  | error e s' =>
    rw [hxs] at h
    exact h

theorem ShrinksBelow.ite {σ α : Type} {len : σ → Nat} {n : Nat} {c : Prop} [Decidable c]
    {x y : EStateM Fault σ α} (hx : ShrinksBelow len n x) (hy : ShrinksBelow len n y) :
    ShrinksBelow len n (if c then x else y) := by
  split
  · exact hx
  · exact hy

/-- A varint read that does not meet the end of the stream takes a byte. -/
theorem length_readUvarint_lt {bs rest : List UInt8} {r : Except ReadError UInt64}
    (h : readUvarint bs = (r, rest)) (hr : r ≠ .error .eof) : rest.length < bs.length := by
  cases bs with
  | nil => exact absurd (congrArg Prod.fst h).symm (by simpa [readUvarint, readUvarintAux] using hr)
  | cons b bs =>
    have hrest : rest = (readUvarint (b :: bs)).2 := by rw [h]
    rw [hrest]
    unfold readUvarint readUvarintAux
    split
    · split <;> simp
    · exact Nat.lt_succ_of_le (length_readUvarintAux_le _ _ _ bs)

theorem length_readVarint_lt {bs rest : List UInt8} {v : UInt64} (h : readVarint bs = .ok v rest) :
    rest.length < bs.length := by
  unfold readVarint at h
  split at h
  · rename_i hr
    cases h
    exact length_readUvarint_lt hr nofun
  · cases h

/-- A turn that reads a varint first: on fewer than `n + 1` bytes, what follows
runs on fewer than `n`, or the read fails. -/
theorem ShrinksBelow.readVarint_bind {α : Type} {n : Nat} {f : UInt64 → Decoder α}
    (hf : ∀ v, ShrinksBelow List.length n (f v)) :
    ShrinksBelow List.length (n + 1) (readVarint >>= f) := by
  intro bs hbs
  cases hr : readVarint bs with
  | error e rest =>
    have := readVarint_shrinks bs
    rw [hr] at this
    rw [bind_apply_error hr]
    exact this
  | ok v rest =>
    have hlt := length_readVarint_lt hr
    rw [bind_apply_ok hr]
    exact (hf v rest (by omega)).mono hlt.le

/-- The field loop, with more fuel than bytes: each turn reads a varint, which
takes a byte or fails. -/
theorem readPointerFieldsAux_shrinksBelow (bigEndian : Bool) (pointerSize : UInt64)
    (data : List UInt8) : ∀ fuel pointers,
      ShrinksBelow List.length fuel (readPointerFieldsAux bigEndian pointerSize data fuel pointers)
  | 0, _ => fun _ h => absurd h (Nat.not_lt_zero _)
  | fuel + 1, pointers => by
    rw [readPointerFieldsAux]
    refine ShrinksBelow.readVarint_bind fun _ => ?_
    repeat' first
      | with_reducible refine ShrinksBelow.bind ?_ fun _ => ?_
      | with_reducible refine ShrinksBelow.ite ?_ ?_
      | exact readVarint_shrinks.below _
      | exact (ofExcept_shrinks _ (goSlice_ne_outOfFuel _ _ _)).below _
      | exact (Shrinks.pure _).below _
      | exact readPointerFieldsAux_shrinksBelow bigEndian pointerSize data fuel _

theorem readPointerFields_shrinks (bigEndian : Bool) (pointerSize : UInt64) (data : List UInt8) :
    Shrinks List.length (readPointerFields bigEndian pointerSize data) := fun bs =>
  readPointerFieldsAux_shrinksBelow bigEndian pointerSize data _ [] bs (Nat.lt_succ_self _)

theorem wrapError_shrinks {α : Type} (context : String) {d : Decoder α}
    (hd : Shrinks List.length d) : Shrinks List.length (wrapError context d) := fun bs => by
  have := hd bs
  unfold wrapError
  split
  · rename_i h
    rw [h] at this
    exact ⟨this.1, nofun⟩
  · exact this

/-! ## The streaming parser's routines -/

/-- The bytes the streaming parser has left. -/
def streamLen (s : StreamingParser × List UInt8) : Nat := s.2.length

namespace StreamingParser

theorem lift_shrinks {α : Type} {d : Decoder α} (hd : Shrinks List.length d) :
    Shrinks streamLen (lift d) := fun ⟨sp, bs⟩ => by
  have := hd bs
  simp only [lift]
  cases h : d bs <;> rw [h] at this <;> exact this

theorem getParser_shrinks : Shrinks streamLen getParser := fun _ => Nat.le_refl _

theorem modifyParser_shrinks (f : StreamingParser → StreamingParser) :
    Shrinks streamLen (modifyParser f) := fun _ => Nat.le_refl _

theorem invoke_shrinks (kind : CallbackKind) (event : Event) :
    Shrinks streamLen (invoke kind event) := fun ⟨sp, bs⟩ => by
  simp only [invoke]
  split <;> exact Nat.le_refl _

theorem get_shrinks : Shrinks streamLen (get : StreamM (StreamingParser × List UInt8)) :=
  fun _ => Nat.le_refl _

theorem length_seekAux_le : ∀ n (bs : List UInt8), (seekAux n bs).length ≤ bs.length
  | 0, _ => le_rfl
  | _ + 1, [] => le_rfl
  | n + 1, b :: bs => by
    unfold seekAux
    split
    · exact Nat.le_succ _
    · exact (length_seekAux_le n bs).trans (Nat.le_succ _)

theorem seekToNextRecord_shrinks : Shrinks streamLen seekToNextRecord := fun ⟨_, bs⟩ =>
  length_seekAux_le 1000 bs

/-- `attempt` turns returned errors into values and keeps the rest. -/
theorem attempt_shrinks {x : StreamM Unit} (hx : Shrinks streamLen x) :
    Shrinks streamLen (attempt x) := fun s => by
  have := hx s
  unfold attempt
  split <;> rename_i h <;> rw [h] at this
  · exact this
  · exact this.1
  · exact this

theorem callback_shrinks (kind : CallbackKind) (event : Event) :
    Shrinks streamLen (callback kind event) := by
  unfold callback
  refine Shrinks.bind (invoke_shrinks _ _) fun r => ?_
  split
  · exact Shrinks.throw nofun
  · exact Shrinks.pure _

theorem handleError_shrinks (err : GoError) : Shrinks streamLen (handleError err) := by
  unfold handleError
  repeat' first
    | with_reducible refine Shrinks.bind ?_ fun _ => ?_
    | with_reducible refine Shrinks.ite ?_ ?_
    | exact modifyParser_shrinks _
    | exact getParser_shrinks
    | exact invoke_shrinks _ _
    | exact seekToNextRecord_shrinks

theorem skipUnknown_shrinks (tag : UInt64) : Shrinks streamLen (skipUnknown tag) := by
  unfold skipUnknown
  exact Shrinks.ite (lift_shrinks (skipVarints_shrinks 5)) (Shrinks.throw nofun)

theorem parseParams_shrinks : Shrinks streamLen parseParams := by
  unfold parseParams
  repeat' first
    | with_reducible refine Shrinks.bind ?_ fun _ => ?_
    | exact lift_shrinks readVarint_shrinks
    | exact lift_shrinks (wrapError_shrinks _ readString_shrinks)
    | exact modifyParser_shrinks _
    | exact callback_shrinks _ _

theorem parseType_shrinks : Shrinks streamLen parseType := by
  unfold parseType
  repeat' first
    | with_reducible refine Shrinks.bind ?_ fun _ => ?_
    | exact lift_shrinks readVarint_shrinks
    | exact lift_shrinks readString_shrinks
    | exact callback_shrinks _ _

theorem parseObject_shrinks : Shrinks streamLen parseObject := by
  unfold parseObject
  repeat' first
    | with_reducible refine Shrinks.bind ?_ fun _ => ?_
    | exact lift_shrinks readVarint_shrinks
    | exact lift_shrinks readBytes_shrinks
    | exact getParser_shrinks
    | exact lift_shrinks (typeAddress_shrinks _ _ _)
    | exact lift_shrinks (readPointerFields_shrinks _ _ _)
    | exact callback_shrinks _ _

theorem parseRoot_shrinks : Shrinks streamLen parseRoot := by
  unfold parseRoot
  repeat' first
    | with_reducible refine Shrinks.bind ?_ fun _ => ?_
    | exact lift_shrinks readVarint_shrinks
    | exact lift_shrinks readString_shrinks
    | exact callback_shrinks _ _

theorem parseGoroutine_shrinks : Shrinks streamLen parseGoroutine := by
  unfold parseGoroutine
  repeat' first
    | with_reducible refine Shrinks.bind ?_ fun _ => ?_
    | exact lift_shrinks readVarint_shrinks
    | exact lift_shrinks readString_shrinks
    | exact lift_shrinks (skipVarints_shrinks _)
    | exact callback_shrinks _ _

theorem recoverable_shrinks (context : String) {x : StreamM Unit} (hx : Shrinks streamLen x) :
    Shrinks streamLen (recoverable context x) := by
  unfold recoverable
  refine Shrinks.bind (attempt_shrinks hx) fun r => ?_
  split
  · exact Shrinks.pure _
  · exact Shrinks.bind (handleError_shrinks _) fun _ =>
      Shrinks.ite (Shrinks.pure _) (Shrinks.throw nofun)

/-- Every record routine of the loop gives back no more bytes than it was
given, and does not run out of fuel. -/
theorem record_shrinks (tag : UInt64) : Shrinks streamLen (record tag) := by
  unfold record
  split
  · exact Shrinks.pure _
  · refine Shrinks.bind (attempt_shrinks parseParams_shrinks) fun r => ?_
    split
    · exact Shrinks.throw nofun
    · exact Shrinks.pure _
  · refine Shrinks.bind (attempt_shrinks parseType_shrinks) fun r => ?_
    split
    · exact Shrinks.pure _
    · repeat' first
        | exact getParser_shrinks
        | exact handleError_shrinks _
        | exact Shrinks.pure _
        | exact Shrinks.throw nofun
        | refine Shrinks.bind ?_ fun _ => ?_
        | refine Shrinks.ite ?_ ?_
  · exact recoverable_shrinks _ parseObject_shrinks
  · exact recoverable_shrinks _ parseRoot_shrinks
  · exact recoverable_shrinks _ parseGoroutine_shrinks
  · exact recoverable_shrinks _ (skipUnknown_shrinks _)

/-- With more fuel than bytes the record loop does not run out of fuel: each
turn that goes on has read a tag, and so taken a byte. -/
theorem parseLoop_within : ∀ (fuel : Nat) (s : StreamingParser × List UInt8), streamLen s < fuel →
    Within streamLen (streamLen s) (parseLoop fuel s)
  | 0, _, h => absurd h (Nat.not_lt_zero _)
  | fuel + 1, (sp, bs), h => by
    have hle : (readUvarint bs).2.length ≤ bs.length := length_readUvarintAux_le 10 0 0 bs
    simp only [parseLoop]
    split
    · rename_i rest hr
      rw [hr] at hle
      exact hle
    · rename_i e rest he hr
      have hlt : streamLen (sp, rest) < streamLen (sp, bs) :=
        length_readUvarint_lt hr fun h => he (by cases h; rfl)
      have hm := handleError_shrinks (.wrap "reading tag" (.read e)) (sp, rest)
      split <;> rename_i s' hs <;> rw [hs] at hm
      · exact (parseLoop_within fuel s' (by simp only [streamLen, Within] at h hlt hm ⊢; omega)).mono
          (by simp only [Within] at hm; omega)
      · exact ⟨by simp only [Within] at hm; omega, nofun⟩
      · exact hm.mono hlt.le
    · rename_i tag rest hr
      have hlt : streamLen (sp, rest) < streamLen (sp, bs) := length_readUvarint_lt hr nofun
      have hm := record_shrinks tag (sp, rest)
      split <;> rename_i s' hs <;> rw [hs] at hm
      · exact (parseLoop_within fuel s' (by simp only [streamLen, Within] at h hlt hm ⊢; omega)).mono
          (by simp only [Within] at hm; omega)
      · exact hm.mono hlt.le
      · exact hm.mono hlt.le

/-- `Parse` reads the header, then runs the loop with more fuel than bytes. -/
theorem parseAll_shrinks : Shrinks streamLen parseAll := by
  unfold parseAll
  repeat' first
    | exact fun s => parseLoop_within _ s (Nat.lt_succ_self _)
    | with_reducible refine Shrinks.bind ?_ fun _ => ?_
    | with_reducible refine Shrinks.ite ?_ ?_
    | exact lift_shrinks (wrapError_shrinks _ (readFull_shrinks _))
    | exact Shrinks.pure _
    | exact Shrinks.throw nofun

end StreamingParser

/-! ## Termination -/

/-- `StreamingParser.Parse` terminates on every byte string, for every error
budget, recovery flag and set of callbacks: it returns, or fails with a
returned error or a panic, and never reaches the loop's iteration bound.  Each
turn of its record loop that goes on, after a record or after a failed tag read
that `handleError` recovers from, has taken at least one byte. -/
theorem streamingParser_parse_terminates (sp : StreamingParser) (bs : List UInt8) :
    (StreamingParser.parse sp bs).1 ≠ .error .outOfFuel ∧
    (∀ (s : StreamingParser × List UInt8) tag rest s', readUvarint s.2 = (.ok tag, rest) →
      StreamingParser.record tag (s.1, rest) = .ok true s' → s'.2.length < s.2.length) ∧
    (∀ (s : StreamingParser × List UInt8) e rest s', readUvarint s.2 = (.error e, rest) →
      e ≠ .eof → StreamingParser.handleError (.wrap "reading tag" (.read e)) (s.1, rest) =
        .ok true s' → s'.2.length < s.2.length) := by
  refine ⟨?_, fun s tag rest s' hr hrec => ?_, fun s e rest s' hr he hh => ?_⟩
  · have h := StreamingParser.parseAll_shrinks (sp, bs)
    unfold StreamingParser.parse
    split <;> rename_i hp <;> rw [hp] at h
    · exact nofun
    · exact fun he => h.2 (Except.error.inj he)
  · have h := StreamingParser.record_shrinks tag (s.1, rest)
    rw [hrec] at h
    exact Nat.lt_of_le_of_lt h (length_readUvarint_lt hr nofun)
  · have h := StreamingParser.handleError_shrinks (.wrap "reading tag" (.read e)) (s.1, rest)
    rw [hh] at h
    exact Nat.lt_of_le_of_lt h (length_readUvarint_lt hr fun h' => he (by cases h'; rfl))

/-! ## Recovery -/

namespace StreamingParser

/-- A callback sees the bytes and takes none. -/
theorem invoke_bytes {kind : CallbackKind} {event : Event} {s : StreamingParser × List UInt8}
    {r : Option GoError} {s' : StreamingParser × List UInt8} (h : invoke kind event s = .ok r s') :
    s'.2 = s.2 := by
  obtain ⟨sp, bs⟩ := s
  simp only [invoke] at h
  split at h <;> cases h <;> rfl

/-- When `handleError` lets the parse go on, what is left is what the scan of
`seekToNextRecord` leaves of the bytes after the failure. -/
theorem handleError_continue {err : GoError} {sp : StreamingParser} {bs : List UInt8}
    {s' : StreamingParser × List UInt8} (h : handleError err (sp, bs) = .ok true s') :
    s'.2 = seekAux 1000 bs := by
  simp only [handleError, modifyParser, getParser, seekToNextRecord, bind, EStateM.bind,
    pure, EStateM.pure] at h
  split at h
  · rename_i hi
    have hbs := invoke_bytes hi
    split at h
    · cases h
    · split at h
      · cases h
      · split at h
        · cases h; simp [hbs]
        · cases h
  · cases h

/-- The scan stops at the first byte of at most 17 with a byte after it, and
consumes it: past bytes above 17, at such a byte `b`, what is left is the bytes
after `b`. -/
theorem seekAux_found : ∀ (n : Nat) (pre : List UInt8) {b : UInt8} {rest : List UInt8},
    pre.length < n → (∀ x ∈ pre, ¬ x ≤ 17) → b ≤ 17 → rest ≠ [] →
    seekAux n (pre ++ b :: rest) = rest
  | 0, _, _, _, h, _, _, _ => absurd h (Nat.not_lt_zero _)
  | n + 1, [], b, rest, _, _, hb, hr => by simp [seekAux, hb, hr]
  | n + 1, x :: pre, b, rest, hlen, hpre, hb, hr => by
    rw [List.cons_append, seekAux, if_neg fun h => hpre x (List.mem_cons_self _ _) h.1]
    exact seekAux_found n pre (by simpa using hlen)
      (fun y hy => hpre y (List.mem_cons_of_mem _ hy)) hb hr

/-- Whenever `handleError` lets the parse go on and its scan meets, within the
window, a byte `b` of at most 17 with a byte after it, the next tag is read from
the byte after `b`. -/
theorem handleError_resumes_after_found {err : GoError} {sp : StreamingParser}
    {pre rest : List UInt8} {b : UInt8} {s' : StreamingParser × List UInt8}
    (h : handleError err (sp, pre ++ b :: rest) = .ok true s') (hlen : pre.length < 1000)
    (hpre : ∀ x ∈ pre, ¬ x ≤ 17) (hb : b ≤ 17) (hr : rest ≠ []) : s'.2 = rest :=
  (handleError_continue h).trans (seekAux_found 1000 pre hlen hpre hb hr)

end StreamingParser

/-- A dump with a record of the unknown tag 25, then an OtherRoot record (tag 2)
and the EOF record. -/
def seekDump : List UInt8 := headerBytes ++ [25, 2, 0, 0x20, 0]

/-- The unknown tag goes to `OnError`, and the scan stops at the tag byte 2 and
consumes it: the loop reads its next tag, 0, from the byte after it, and the
OtherRoot record is never reported. -/
theorem streamingParser_parse_seekDump :
    StreamingParser.parse (StreamingParser.new nilCallbacks) seekDump =
      (.ok (), [.error (.wrap "skipping unknown tag 25" (.unknownTag 25)) true]) := by
  rfl

/- Read from its tag byte, the same record is reported. -/
example : StreamingParser.parse (StreamingParser.new nilCallbacks)
    (headerBytes ++ [2, 0, 0x20, 0]) = (.ok (), [.root [] 0x20]) := by
  rfl

/-- A dump cut off inside an Object record: its contents are declared 16 bytes
long, and one follows. -/
def truncatedObjectDump : List UInt8 := headerBytes ++ [1, 0x20, 16, 0x10]

/-- Callbacks that are all set, and of which only `OnObject` returns an error. -/
def failingObjectCallbacks : StreamCallbacks :=
  ⟨fun _ => true, fun _ event => match event with
    | .object .. => some (.callback 1)
    | _ => none⟩

/-- An empty Object record, a byte 17 for the scan to stop at, and an OtherRoot
record. -/
def objectThenRootDump : List UInt8 := headerBytes ++ [1, 0x20, 0, 0, 17, 2, 0, 0x20, 0]

/-- Two failures that the spec makes fatal end in a nil error, under the
default settings: a stream that ends inside an Object record, which goes to
`OnError` like any decode failure; and an error returned by `OnObject`, which
goes to `OnError` too, after which the OtherRoot record is read and its
callback runs. -/
theorem streamingParser_parse_recoversFatal :
    StreamingParser.parse (StreamingParser.new nilCallbacks) truncatedObjectDump =
      (.ok (), [.error (.wrap "parsing object" (.read .unexpectedEOF)) true]) ∧
    StreamingParser.parse (StreamingParser.new failingObjectCallbacks) objectThenRootDump =
      (.ok (), [.object 0x20 0 [] [], .error (.wrap "parsing object" (.callback 1)) true,
        .root [] 0x20]) := by
  constructor <;> rfl

end HeapLens.Dump
