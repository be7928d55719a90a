import HeapLens.Dump.StreamLoop

/-!
# What ends `StreamingParser.Parse` with an error

With recovery on, `OnError` returning nil and an error budget of at least one
error per byte, `Parse` returns an error only for a header it cannot read or
does not accept, a Params record that fails, a Type record that fails while
`OnType` is set, or a panic.  Every other failure of a record, a decode error
or an error returned by `OnObject`, `OnRoot` or `OnGoroutine` alike, goes to
`handleError`, which counts it and resumes.

The record routines change neither the callbacks nor the error budget, the
recovery flag or the error count, and call no `OnError` (`Clean`);
`handleError` raises the count by one.  A turn of the record loop reads a tag,
and so a byte, before it can call `handleError`, so the count plus the bytes
left never grows past the budget.
-/

namespace HeapLens.Dump

open HeapLens.Graph

/-- The state a computation leaves, whether it returns or fails. -/
def finalState {ε σ α : Type} : EStateM.Result ε σ α → σ
  | .ok _ s => s
  | .error _ s => s

namespace StreamingParser

/-- What the parser's routines leave of it: the callbacks, the error budget and
the recovery flag, and the error count raised by at most `k`. -/
structure Frame (k : Int) (sp sp' : StreamingParser) : Prop where
  callbacks : sp'.callbacks = sp.callbacks
  maxErrors : sp'.maxErrors = sp.maxErrors
  skipOnError : sp'.skipOnError = sp.skipOnError
  errorCount : sp'.errorCount ≤ sp.errorCount + k

theorem Frame.refl (sp : StreamingParser) : Frame 0 sp sp :=
  ⟨rfl, rfl, rfl, by omega⟩

theorem Frame.trans {j k : Int} {sp sp' sp'' : StreamingParser} (h : Frame j sp sp')
    (h' : Frame k sp' sp'') : Frame (j + k) sp sp'' :=
  ⟨h'.callbacks.trans h.callbacks, h'.maxErrors.trans h.maxErrors,
    h'.skipOnError.trans h.skipOnError, by have := h.errorCount; have := h'.errorCount; omega⟩

theorem Frame.mono {j k : Int} {sp sp' : StreamingParser} (h : Frame j sp sp') (hjk : j ≤ k) :
    Frame k sp sp' :=
  ⟨h.callbacks, h.maxErrors, h.skipOnError, by have := h.errorCount; omega⟩

end StreamingParser

/-- An `OnError` call. -/
def Event.isError : Event → Bool
  | .error .. => true
  | _ => false

namespace StreamingParser

/-- What a routine leaves of the parser: the callbacks, the error budget and the
recovery flag as they were, and the calls `l` appended to the trace. -/
structure Logged (sp sp' : StreamingParser) (l : List Event) : Prop where
  callbacks : sp'.callbacks = sp.callbacks
  maxErrors : sp'.maxErrors = sp.maxErrors
  skipOnError : sp'.skipOnError = sp.skipOnError
  trace : sp'.trace = sp.trace ++ l

theorem Logged.refl (sp : StreamingParser) : Logged sp sp [] :=
  ⟨rfl, rfl, rfl, (List.append_nil _).symm⟩

theorem Logged.trans {sp sp' sp'' : StreamingParser} {l l' : List Event} (h : Logged sp sp' l)
    (h' : Logged sp' sp'' l') : Logged sp sp'' (l ++ l') :=
  ⟨h'.callbacks.trans h.callbacks, h'.maxErrors.trans h.maxErrors,
    h'.skipOnError.trans h.skipOnError, by rw [h'.trace, h.trace, List.append_assoc]⟩

/-- A routine that calls no `OnError` and leaves the error count as it was. -/
def Clean {α : Type} (m : StreamM α) : Prop :=
  ∀ s, ∃ l, Logged s.1 (finalState (m s)).1 l ∧
    (finalState (m s)).1.errorCount = s.1.errorCount ∧ ∀ e ∈ l, e.isError = false

namespace Clean

variable {α β : Type}

theorem pure (a : α) : Clean (Pure.pure a : StreamM α) := fun s => ⟨[], Logged.refl s.1, rfl, nofun⟩

theorem throw (f : Fault) : Clean (MonadExcept.throw f : StreamM α) := fun s =>
  ⟨[], Logged.refl s.1, rfl, nofun⟩

theorem bind {x : StreamM α} {f : α → StreamM β} (hx : Clean x) (hf : ∀ a, Clean (f a)) :
    Clean (x >>= f) := by
  intro s
  obtain ⟨l, hl, he, hn⟩ := hx s
  rw [show (x >>= f) s = EStateM.bind x f s from rfl]
  unfold EStateM.bind
  cases hxs : x s with
  | ok a s' =>
    rw [hxs] at hl he
    obtain ⟨l', hl', he', hn'⟩ := hf a s'
    exact ⟨l ++ l', hl.trans hl', he'.trans he,
      fun e he => (List.mem_append.1 he).elim (hn e) (hn' e)⟩
  | error e s' =>
    rw [hxs] at hl he
    exact ⟨l, hl, he, hn⟩

theorem ite {c : Prop} [Decidable c] {x y : StreamM α} (hx : Clean x) (hy : Clean y) :
    Clean (if c then x else y) := by
  split
  · exact hx
  · exact hy

/-- A clean routine leaves the frame as it was. -/
theorem frame {x : StreamM α} (hx : Clean x) (s : StreamingParser × List UInt8) :
    Frame 0 s.1 (finalState (x s)).1 := by
  obtain ⟨l, hl, he, -⟩ := hx s
  exact ⟨hl.callbacks, hl.maxErrors, hl.skipOnError, by rw [he]; omega⟩

end Clean

theorem clean_lift {α : Type} (d : Decoder α) : Clean (lift d) := fun ⟨sp, bs⟩ => by
  simp only [lift]
  split <;> exact ⟨[], Logged.refl sp, rfl, nofun⟩

theorem clean_getParser : Clean getParser := fun s => ⟨[], Logged.refl s.1, rfl, nofun⟩

theorem clean_setParams (params : DumpParams) :
    Clean (modifyParser fun sp => { sp with params }) := fun _ =>
  ⟨[], ⟨rfl, rfl, rfl, (List.append_nil _).symm⟩, rfl, nofun⟩

/-- A callback other than `OnError`. -/
theorem clean_invoke (kind : CallbackKind) {event : Event} (he : event.isError = false) :
    Clean (invoke kind event) := fun ⟨sp, bs⟩ => by
  simp only [invoke]
  split
  · exact ⟨[event], ⟨rfl, rfl, rfl, rfl⟩, rfl, by simpa using he⟩
  · exact ⟨[], Logged.refl sp, rfl, nofun⟩

theorem clean_callback (kind : CallbackKind) {event : Event} (he : event.isError = false) :
    Clean (callback kind event) :=
  Clean.bind (clean_invoke kind he) fun r => by
    split
    · exact Clean.throw _
    · exact Clean.pure _

/-- The routines of the record loop other than `handleError` are clean. -/
theorem clean_parseParams : Clean parseParams := by
  unfold parseParams
  repeat' first
    | with_reducible refine Clean.bind ?_ fun _ => ?_
    | exact clean_lift _
    | exact clean_callback _ rfl
    | exact clean_setParams _

theorem clean_parseType : Clean parseType := by
  unfold parseType
  repeat' first
    | with_reducible refine Clean.bind ?_ fun _ => ?_
    | exact clean_lift _
    | exact clean_callback _ rfl

theorem clean_parseObject : Clean parseObject := by
  unfold parseObject
  repeat' first
    | with_reducible refine Clean.bind ?_ fun _ => ?_
    | exact clean_lift _
    | exact clean_getParser
    | exact clean_callback _ rfl

theorem clean_parseRoot : Clean parseRoot := by
  unfold parseRoot
  repeat' first
    | with_reducible refine Clean.bind ?_ fun _ => ?_
    | exact clean_lift _
    | exact clean_callback _ rfl

theorem clean_parseGoroutine : Clean parseGoroutine := by
  unfold parseGoroutine
  repeat' first
    | with_reducible refine Clean.bind ?_ fun _ => ?_
    | exact clean_lift _
    | exact clean_callback _ rfl

theorem clean_skipUnknown (tag : UInt64) : Clean (skipUnknown tag) :=
  Clean.ite (clean_lift _) (Clean.throw _)

/-! ## `handleError` with recovery on -/

/-- Recovery is on, and `OnError`, if set, returns nil. -/
structure Recovering (sp : StreamingParser) : Prop where
  skip : sp.skipOnError = true
  onError : ∀ tr err b, sp.callbacks.isSet .onError = true →
    sp.callbacks.respond tr (.error err b) = none

theorem Recovering.frame {k : Int} {sp sp' : StreamingParser} (h : Recovering sp)
    (hf : Frame k sp sp') : Recovering sp' :=
  ⟨hf.skipOnError.trans h.skip, fun tr err b => by rw [hf.callbacks]; exact h.onError tr err b⟩

/-- Within the budget, `handleError` counts the error, scans on, and resumes. -/
theorem handleError_recovers {sp : StreamingParser} (h : Recovering sp)
    (hlt : sp.errorCount < sp.maxErrors) (err : GoError) (bs : List UInt8) :
    ∃ sp', handleError err (sp, bs) = .ok true (sp', seekAux 1000 bs) ∧ Frame 1 sp sp' := by
  have hle : ¬sp.maxErrors < sp.errorCount + 1 := by omega
  by_cases hset : sp.callbacks.isSet .onError = true
  · refine ⟨{ sp with errorCount := sp.errorCount + 1, trace := sp.trace ++ [Event.error err true] },
      ?_, ⟨rfl, rfl, rfl, le_rfl⟩⟩
    simp [handleError, modifyParser, getParser, invoke, seekToNextRecord, bind, EStateM.bind,
      pure, EStateM.pure, hset, h.onError _ _ _ hset, h.skip, hle]
  · refine ⟨{ sp with errorCount := sp.errorCount + 1 }, ?_, ⟨rfl, rfl, rfl, le_rfl⟩⟩
    simp [handleError, modifyParser, getParser, invoke, seekToNextRecord, bind, EStateM.bind,
      pure, EStateM.pure, hset, h.skip, hle]

/-- `attempt` on a clean routine that keeps to its input returns within the
frame, its routine's error turned into a value, or passes on a panic. -/
theorem attempt_cases {x : StreamM Unit} (hq : Clean x) (hs : Shrinks streamLen x)
    (s : StreamingParser × List UInt8) :
    (∃ r s', attempt x s = .ok r s' ∧ Frame 0 s.1 s'.1) ∨
      ∃ msg s', attempt x s = .error (.panic msg) s' := by
  have hqs := hq.frame s
  have hss := hs s
  unfold attempt
  cases hx : x s with
  | ok _ s' => rw [hx] at hqs; exact .inl ⟨_, _, rfl, hqs⟩
  | error f s' =>
    rw [hx] at hqs hss
    cases f with
    | error e => exact .inl ⟨_, _, rfl, hqs⟩
    | panic msg => exact .inr ⟨msg, _, rfl⟩
    | outOfFuel => exact absurd rfl hss.2

/-- After a clean routine, `handleError` still counts the error and resumes. -/
theorem handleError_recovers_after {sp sp₁ : StreamingParser} (h : Recovering sp)
    (hlt : sp.errorCount < sp.maxErrors) (hf : Frame 0 sp sp₁) (err : GoError) (bs : List UInt8) :
    ∃ sp', handleError err (sp₁, bs) = .ok true (sp', seekAux 1000 bs) ∧ Frame 1 sp sp' :=
  (handleError_recovers (h.frame hf) (by rw [hf.maxErrors]; have := hf.errorCount; omega) err
    bs).imp fun _ h' => ⟨h'.1, hf.trans h'.2⟩

end StreamingParser

/-! ## The faults that end `Parse` -/

/-- The faults with which `Parse` may return while recovery is on, `OnError`
returns nil and the error budget is not spent: each is a path of the source
that does not go through `handleError`. -/
inductive FatalFault (cb : StreamCallbacks) : Fault → Prop
  /-- The 16 header bytes could not be read. -/
  | header (e : GoError) : FatalFault cb (.error (.wrap "reading header" e))
  /-- The header is not "go1.7 heap dump\n". -/
  | invalidHeader (header : List UInt8) : FatalFault cb (.error (.invalidHeader header))
  /-- A Params record failed, its callback's error included. -/
  | params (e : GoError) : FatalFault cb (.error (.wrap "parsing params" e))
  /-- A Type record failed while `OnType` is set. -/
  | type (e : GoError) (hset : cb.isSet .onType = true) :
      FatalFault cb (.error (.wrap "parsing type" e))
  /-- A panic, such as a slice expression out of range. -/
  | panic (message : String) : FatalFault cb (.panic message)

namespace StreamingParser

/-- A turn of the record loop under recovery: it went on with the error count
raised by at most one, or it failed with a fatal fault. -/
def Settled {α : Type} (sp : StreamingParser) :
    EStateM.Result Fault (StreamingParser × List UInt8) α → Prop
  | .ok _ s => Frame 1 sp s.1
  | .error f _ => FatalFault sp.callbacks f

/-- `m`, run on the parser `sp` and any bytes, settles. -/
def Settles {α : Type} (sp : StreamingParser) (m : StreamM α) : Prop :=
  ∀ bs, Settled sp (m (sp, bs))

/-- A routine run through `attempt` settles when what follows settles on every
outcome `attempt` can return; a panic passes and is fatal. -/
theorem attempt_settled {sp : StreamingParser} {x : StreamM Unit} {k : Option GoError → StreamM Bool}
    (hq : Clean x) (hs : Shrinks streamLen x)
    (hk : ∀ r sp₁ bs₁, Frame 0 sp sp₁ → Settled sp (k r (sp₁, bs₁))) : Settles sp (attempt x >>= k) :=
  fun bs => by
    rcases attempt_cases hq hs (sp, bs) with ⟨r, ⟨sp₁, bs₁⟩, hr, hf⟩ | ⟨msg, s', hp⟩
    · rw [bind_apply_ok hr]
      exact hk r sp₁ bs₁ hf
    · rw [bind_apply_error hp]
      exact .panic msg

section Record

variable {sp : StreamingParser} (h : Recovering sp) (hlt : sp.errorCount < sp.maxErrors)
include h hlt

/-- A record routine run through `recoverable` never ends `Parse` unless it
panics: its failure, a callback's error included, goes to `handleError`. -/
theorem recoverable_settled (context : String) {x : StreamM Unit} (hq : Clean x)
    (hs : Shrinks streamLen x) : Settles sp (recoverable context x) :=
  attempt_settled hq hs fun r sp₁ bs₁ hf => by
    cases r with
    | none => exact hf.mono (by omega)
    | some err =>
      obtain ⟨sp', hh, hf'⟩ := handleError_recovers_after h hlt hf (.wrap context err) bs₁
      dsimp only
      rw [bind_apply_ok hh]
      exact hf'

/-- Every record under recovery: Object, OtherRoot, Goroutine and unknown
records go through `recoverable`; a Params record ends `Parse` on any failure,
and a Type record when `OnType` is set. -/
theorem record_settled (tag : UInt64) : Settles sp (record tag) := by
  unfold record
  split
  · exact fun _ => (Frame.refl sp).mono (by omega)
  · refine attempt_settled clean_parseParams parseParams_shrinks fun r _ _ hf => ?_
    cases r with
    | none => exact hf.mono (by omega)
    | some err => exact .params err
  · refine attempt_settled clean_parseType parseType_shrinks fun r sp₁ bs₁ hf => ?_
    cases r with
    | none => exact hf.mono (by omega)
    | some err =>
      dsimp only
      rw [bind_apply_ok (rfl : getParser (sp₁, bs₁) = .ok sp₁ (sp₁, bs₁)), hf.callbacks]
      by_cases hset : sp.callbacks.isSet .onType = true
      · rw [if_pos hset]
        exact .type err hset
      · obtain ⟨sp', hh, hf'⟩ := handleError_recovers_after h hlt hf (.wrap "parsing type" err) bs₁
        rw [if_neg hset, bind_apply_ok (rfl : (pure () : StreamM Unit) (sp₁, bs₁) = .ok () _),
          bind_apply_ok hh]
        exact hf'
  · exact recoverable_settled h hlt _ clean_parseObject parseObject_shrinks
  · exact recoverable_settled h hlt _ clean_parseRoot parseRoot_shrinks
  · exact recoverable_settled h hlt _ clean_parseGoroutine parseGoroutine_shrinks
  · exact recoverable_settled h hlt _ (clean_skipUnknown tag) (skipUnknown_shrinks tag)

end Record

/-- The budget left after a turn that took a byte at least and raised the error
count by one at most. -/
theorem Frame.budget {sp sp' : StreamingParser} {n m : Nat} (hf : Frame 1 sp sp')
    (hb : sp.errorCount + n ≤ sp.maxErrors) (hmn : m < n) : sp'.errorCount + m ≤ sp'.maxErrors := by
  have := hf.errorCount
  rw [hf.maxErrors]
  omega

/-- The record loop under recovery, with an error budget of one error per byte
and more fuel than bytes, fails only with a fatal fault.  Each turn reads a tag
and so takes a byte before it can spend an error. -/
theorem parseLoop_fatal : ∀ (fuel : Nat) (s : StreamingParser × List UInt8), Recovering s.1 →
    s.1.errorCount + s.2.length ≤ s.1.maxErrors → s.2.length < fuel →
    ∀ f s', parseLoop fuel s = .error f s' → FatalFault s.1.callbacks f
  | 0, _, _, _, hfuel => absurd hfuel (Nat.not_lt_zero _)
  | fuel + 1, (sp, bs), h, hb, hfuel => fun f s' hl => by
    dsimp only at h hb hfuel ⊢
    -- a turn that took a byte and spent one error at most leaves the invariant
    have next : ∀ {rest : List UInt8} {s₁ : StreamingParser × List UInt8}, rest.length < bs.length →
        Frame 1 sp s₁.1 → s₁.2.length ≤ rest.length → parseLoop fuel s₁ = .error f s' →
        FatalFault sp.callbacks f := fun hlt hf hle hl =>
      hf.callbacks ▸ parseLoop_fatal fuel _ (h.frame hf) (hf.budget hb (by omega)) (by omega) f s' hl
    simp only [parseLoop] at hl
    split at hl
    · cases hl
    · rename_i e rest he hr
      have hlt := length_readUvarint_lt hr fun h => he (by cases h; rfl)
      obtain ⟨sp', hh, hf⟩ := handleError_recovers h (by omega) (.wrap "reading tag" (.read e)) rest
      rw [hh] at hl
      exact next hlt hf (length_seekAux_le 1000 rest) hl
    · rename_i tag rest hr
      have hlt := length_readUvarint_lt hr nofun
      have hset := record_settled h (by omega) tag rest
      have hsh := record_shrinks tag (sp, rest)
      split at hl <;> rename_i s₁ hs <;> rw [hs] at hset hsh <;>
        simp only [Settled, Within, streamLen] at hset hsh
      · exact next hlt hset hsh hl
      · cases hl
      · cases hl
        exact hset

/-- `Parse` under recovery, with an error budget of one error per byte, fails
only with a fatal fault: the header's two checks come first, then the loop. -/
theorem parseAll_fatal {sp : StreamingParser} (h : Recovering sp) {bs : List UInt8}
    (hb : sp.errorCount + bs.length ≤ sp.maxErrors) {f : Fault} {s' : StreamingParser × List UInt8}
    (hl : parseAll (sp, bs) = .error f s') : FatalFault sp.callbacks f := by
  unfold parseAll at hl
  by_cases hlen : 16 ≤ bs.length
  · have hr : lift (wrapError "reading header" (readFull 16)) (sp, bs) =
        .ok (bs.take 16) (sp, bs.drop 16) := by
      simp [lift, wrapError, readFull, hlen]
    rw [bind_apply_ok hr] at hl
    by_cases hh : bs.take 16 = headerBytes
    · rw [if_neg (not_not.mpr hh)] at hl
      exact parseLoop_fatal _ (sp, bs.drop 16) h (by simp only [List.length_drop]; omega)
        (Nat.lt_succ_self _) f s' hl
    · rw [if_pos hh] at hl
      cases hl
      exact .invalidHeader _
  · have hr : lift (wrapError "reading header" (readFull 16)) (sp, bs) =
        .error (.error (.wrap "reading header" (.read (if bs = [] then .eof else .unexpectedEOF))))
          (sp, []) := by
      simp [lift, wrapError, readFull, hlen]
    rw [bind_apply_error hr] at hl
    cases hl
    exact .header _

end StreamingParser

/-! ## What ends `Parse` -/

/-- With recovery on, `OnError` returning nil and an error budget of one error
per byte of the stream, `Parse` returns nil, or an error for an unreadable or
wrong header, a failed Params record, a Type record that fails while `OnType` is
set, or a panic.  Every other failure, a stream cut off inside an Object record
and an error returned by `OnObject`, `OnRoot` or `OnGoroutine` included, is
passed to `OnError`, and parsing resumes. -/
theorem streamingParser_parse_fatal (sp : StreamingParser) (bs : List UInt8)
    (h : StreamingParser.Recovering sp) (hb : sp.errorCount + bs.length ≤ sp.maxErrors) :
    (StreamingParser.parse sp bs).1 = .ok () ∨
      ∃ f, (StreamingParser.parse sp bs).1 = .error f ∧ FatalFault sp.callbacks f := by
  unfold StreamingParser.parse
  split
  · exact .inl rfl
  · exact .inr ⟨_, rfl, StreamingParser.parseAll_fatal h hb ‹_›⟩

/-- A Params record cut off after its tag. -/
def cutParamsDump : List UInt8 := headerBytes ++ [6]

/-- The default parser with nil callbacks recovers, and a dump of 17 bytes is
within its budget of 100 errors. -/
theorem streamingParser_parse_fatal_cutParams :
    StreamingParser.Recovering (StreamingParser.new nilCallbacks) ∧
      ((StreamingParser.parse (StreamingParser.new nilCallbacks) cutParamsDump).1 = .ok () ∨
        ∃ f, (StreamingParser.parse (StreamingParser.new nilCallbacks) cutParamsDump).1 =
          .error f ∧ FatalFault nilCallbacks f) :=
  have h : StreamingParser.Recovering (StreamingParser.new nilCallbacks) :=
    ⟨rfl, fun _ _ _ _ => rfl⟩
  ⟨h, streamingParser_parse_fatal _ _ h (by decide)⟩

/- The cut Params record ends `Parse`, though recovery is on. -/
example : (StreamingParser.parse (StreamingParser.new nilCallbacks) cutParamsDump).1 =
    .error (.error (.wrap "parsing params" (.read .eof))) := by
  rfl

end HeapLens.Dump
