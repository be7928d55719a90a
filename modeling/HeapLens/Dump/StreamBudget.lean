import HeapLens.Dump.StreamRecovery

/-!
# How `StreamingParser.Parse` spends its error budget

Every failure that reaches `handleError` raises the error count by one and is
reported to `OnError`, if it is set, as one call; `handleError` lets parsing go
on only while the count is within `maxErrors` and recovery is on.  So a run of
`Parse` from a fresh parser calls `OnError` at most `max maxErrors 0 + 1` times,
and with recovery off the first `OnError` call is the last call of the run and
`Parse` returns an error.

A part of a run is summarised by `Spent`: the calls it appends, at most one
`OnError` call per error counted, the count within the budget while the run goes
on, and with recovery off an `OnError` call only as the last call of a part that
fails.  Parts compose (`Spent.seq`), and the run lemma follows by induction on
the loop's fuel; none of it depends on the fuel sufficing.
-/

namespace HeapLens.Dump

namespace StreamingParser

/-- A turn of the record loop goes on: it returned `true`. -/
def GoesOn {σ : Type} : EStateM.Result Fault σ Bool → Prop
  | .ok b _ => b = true
  | .error _ _ => False

/-- A computation failed. -/
def Failed {σ α : Type} : EStateM.Result Fault σ α → Prop
  | .ok _ _ => False
  | .error _ _ => True

/-- What a part of a run spends: the calls `l` appended to the trace, at most
one `OnError` call per error counted, a count within the budget while the run
goes on and past it by at most one when it stops, and, with recovery off, an
`OnError` call only as the last call of a part that fails. -/
structure Spent (sp sp' : StreamingParser) (l : List Event) (goesOn failed : Prop) : Prop where
  logged : Logged sp sp' l
  count : sp.errorCount + l.countP Event.isError ≤ sp'.errorCount
  bound : sp'.errorCount ≤ max sp.errorCount sp.maxErrors + 1
  within : goesOn → sp'.errorCount ≤ max sp.errorCount sp.maxErrors
  failFast : sp.skipOnError = false → ∀ pre e post, l = pre ++ e :: post → e.isError = true →
    post = [] ∧ ¬goesOn ∧ failed

namespace Spent

variable {sp sp' sp'' : StreamingParser} {l l' : List Event} {g f g' f' : Prop}

/-- A part that calls no `OnError` and counts no error spends nothing. -/
theorem of_clean (hl : Logged sp sp' l) (he : sp'.errorCount = sp.errorCount)
    (hn : ∀ e ∈ l, e.isError = false) : Spent sp sp' l g f where
  logged := hl
  count := by rw [List.countP_eq_zero.2 fun e he' => by simp [hn e he'], he]; simp
  bound := by rw [he]; omega
  within _ := by rw [he]; omega
  failFast _ pre e post hpre hne := by
    have := hn e (by rw [hpre]; exact List.mem_append_right _ (List.mem_cons_self _ _))
    rw [this] at hne
    cases hne

theorem imp (h : Spent sp sp' l g f) (hg : g' → g) (hf : f → f') : Spent sp sp' l g' f' where
  logged := h.logged
  count := h.count
  bound := h.bound
  within hg' := h.within (hg hg')
  failFast hs pre e post hpre hne :=
    let ⟨hpost, hng, hfl⟩ := h.failFast hs pre e post hpre hne
    ⟨hpost, fun hg' => hng (hg hg'), hf hfl⟩

/-- With recovery off, a part after which the run goes on made no `OnError` call. -/
theorem not_isError (h : Spent sp sp' l g f) (hg : g) (hs : sp.skipOnError = false) :
    ∀ e ∈ l, e.isError = false := fun e he => by
  obtain ⟨pre, post, rfl⟩ := List.append_of_mem he
  cases hne : e.isError
  · rfl
  · exact absurd hg (h.failFast hs pre e post rfl hne).2.1

/-- A part after which the run goes on, then the rest of the run. -/
theorem seq (h : Spent sp sp' l g f) (hg : g) (h' : Spent sp' sp'' l' g' f') :
    Spent sp sp'' (l ++ l') g' f' where
  logged := h.logged.trans h'.logged
  count := by
    have := h.count
    have := h'.count
    rw [List.countP_append]
    push_cast
    omega
  bound := by
    have := h.within hg
    have := h'.bound
    rw [h.logged.maxErrors] at this
    omega
  within hg' := by
    have := h.within hg
    have := h'.within hg'
    rw [h.logged.maxErrors] at this
    omega
  failFast hs pre e post hpre hne := by
    have hs' : sp'.skipOnError = false := h.logged.skipOnError.trans hs
    rcases List.append_eq_append_iff.1 hpre with ⟨a, rfl, hl'⟩ | ⟨c, hl, hc⟩
    · exact h'.failFast hs' a e post hl' hne
    · cases c with
      | nil => exact h'.failFast hs' [] e post (by simpa using hc.symm) hne
      | cons c cs =>
        obtain ⟨rfl, -⟩ := List.cons.inj hc
        have := h.not_isError hg hs e (by rw [hl]; exact List.mem_append_right _ (List.mem_cons_self _ _))
        rw [this] at hne
        cases hne

end Spent

/-- `m` spends as `Spent` says, from every state, with `go` telling from its
result whether the run goes on after it. -/
def Spends {α : Type} (go : EStateM.Result Fault (StreamingParser × List UInt8) α → Prop)
    (m : StreamM α) : Prop :=
  ∀ s, ∃ l, Spent s.1 (finalState (m s)).1 l (go (m s)) (Failed (m s))

namespace Spends

variable {α β : Type}

theorem of_clean {go : EStateM.Result Fault (StreamingParser × List UInt8) α → Prop}
    {m : StreamM α} (hm : Clean m) : Spends go m := fun s =>
  let ⟨l, hl, he, hn⟩ := hm s
  ⟨l, Spent.of_clean hl he hn⟩

/-- A clean routine, then a part that spends. -/
theorem bind_clean {go : EStateM.Result Fault (StreamingParser × List UInt8) β → Prop}
    {x : StreamM α} {f : α → StreamM β} (hx : Clean x) (hf : ∀ a, Spends go (f a)) :
    Spends go (x >>= f) := by
  intro s
  obtain ⟨l, hl, he, hn⟩ := hx s
  rw [show (x >>= f) s = EStateM.bind x f s from rfl]
  unfold EStateM.bind
  cases hxs : x s with
  | ok a s' =>
    rw [hxs] at hl he
    obtain ⟨l', hl'⟩ := hf a s'
    exact ⟨l ++ l', (Spent.of_clean hl he hn (g := True) (f := False)).seq trivial hl'⟩
  | error e s' =>
    rw [hxs] at hl he
    exact ⟨l, Spent.of_clean hl he hn⟩

theorem ite {go : EStateM.Result Fault (StreamingParser × List UInt8) α → Prop} {c : Prop}
    [Decidable c] {x y : StreamM α} (hx : Spends go x) (hy : Spends go y) :
    Spends go (if c then x else y) := by
  split
  · exact hx
  · exact hy

end Spends

/-! ## `handleError` -/

/-- `handleError` counts the error, calls `OnError` if it is set, and goes on,
after the scan of `seekToNextRecord`, unless `OnError` returned an error, the
count is past `maxErrors` or recovery is off. -/
theorem handleError_eq (err : GoError) (sp : StreamingParser) (bs : List UInt8) :
    handleError err (sp, bs) =
      let l := if sp.callbacks.isSet .onError then [Event.error err sp.skipOnError] else []
      let sp₁ := { sp with errorCount := sp.errorCount + 1, trace := sp.trace ++ l }
      if (sp.callbacks.isSet .onError &&
            (sp.callbacks.respond sp.trace (.error err sp.skipOnError)).isSome) ||
          decide (sp.maxErrors < sp.errorCount + 1) || !sp.skipOnError then .ok false (sp₁, bs)
      else .ok true (sp₁, seekAux 1000 bs) := by
  obtain ⟨cb, maxErrors, errorCount, skip, params, trace⟩ := sp
  simp only [handleError, modifyParser, getParser, invoke, seekToNextRecord, bind, EStateM.bind,
    pure, EStateM.pure]
  by_cases hset : cb.isSet .onError = true <;>
    by_cases hr : (cb.respond trace (.error err skip)).isSome = true <;>
    by_cases hm : maxErrors < errorCount + 1 <;>
    cases skip <;> simp [hset, hr, hm, EStateM.pure, EStateM.bind, seekToNextRecord]

/-- `handleError` spends one error and at most one `OnError` call, and goes on
only with recovery on and the count within the budget. -/
theorem handleError_spent (err : GoError) (s : StreamingParser × List UInt8) :
    ∃ b s', handleError err s = .ok b s' ∧ ∃ l, Spent s.1 s'.1 l (b = true) (b = false) := by
  obtain ⟨sp, bs⟩ := s
  rw [handleError_eq]
  generalize hl : (if sp.callbacks.isSet .onError then [Event.error err sp.skipOnError] else []) = l
  have hlen : l.length ≤ 1 := by rw [← hl]; split <;> simp
  have hspent : ∀ b : Bool, (b = true → sp.skipOnError = true ∧ sp.errorCount + 1 ≤ sp.maxErrors) →
      Spent sp { sp with errorCount := sp.errorCount + 1, trace := sp.trace ++ l } l
        (b = true) (b = false) := fun b hb => {
    logged := ⟨rfl, rfl, rfl, rfl⟩
    count := by
      have := (List.countP_le_length (p := Event.isError) (l := l)).trans hlen
      show sp.errorCount + _ ≤ sp.errorCount + 1
      omega
    bound := by
      show sp.errorCount + 1 ≤ _
      omega
    within := fun hbt => by
      show sp.errorCount + 1 ≤ _
      have := (hb hbt).2
      omega
    failFast := fun hs pre e post hpre _ => by
      have := congrArg List.length hpre
      simp only [List.length_append, List.length_cons] at this
      refine ⟨List.length_eq_zero.1 (by omega), fun hbt => ?_, ?_⟩
      · rw [(hb hbt).1] at hs
        cases hs
      · cases b
        · rfl
        · rw [(hb rfl).1] at hs
          cases hs }
  split
  · exact ⟨false, _, rfl, l, hspent false nofun⟩
  · rename_i h
    simp only [Bool.or_eq_true, Bool.and_eq_true, decide_eq_true_eq, Bool.not_eq_true',
      not_or] at h
    exact ⟨true, _, rfl, l, hspent true fun _ => ⟨by simpa using h.2, by omega⟩⟩

theorem clean_attempt {x : StreamM Unit} (hx : Clean x) : Clean (attempt x) := fun s => by
  obtain ⟨l, hl, he, hn⟩ := hx s
  refine ⟨l, ?_, ?_, hn⟩ <;> unfold attempt <;> split <;> rename_i h <;> rw [h] at hl he
  all_goals first | exact hl | exact he

theorem clean_get : Clean (get : StreamM (StreamingParser × List UInt8)) := fun s =>
  ⟨[], Logged.refl s.1, rfl, nofun⟩

/-! ## Turns of the record loop -/

/-- `handleError`, then going on or failing as it says. -/
theorem spends_handleError (err : GoError) (f : Fault) :
    Spends GoesOn (handleError err >>= fun b => if b = true then pure true else throw f) :=
  fun s => by
    obtain ⟨b, s', hh, l, hl⟩ := handleError_spent err s
    rw [bind_apply_ok hh]
    cases b
    · exact ⟨l, hl.imp nofun fun _ => trivial⟩
    · exact ⟨l, hl.imp (fun _ => rfl) nofun⟩

/-- A record routine whose failure goes to `handleError`. -/
theorem spends_recoverable (context : String) {x : StreamM Unit} (hx : Clean x) :
    Spends GoesOn (recoverable context x) :=
  Spends.bind_clean (clean_attempt hx) fun r => by
    cases r with
    | none => exact Spends.of_clean (Clean.pure _)
    | some err => exact spends_handleError _ _

theorem spends_record (tag : UInt64) : Spends GoesOn (record tag) := by
  unfold record
  split
  · exact Spends.of_clean (Clean.pure _)
  · refine Spends.of_clean (Clean.bind (clean_attempt clean_parseParams) fun r => ?_)
    cases r
    · exact Clean.pure _
    · exact Clean.throw _
  · refine Spends.bind_clean (clean_attempt clean_parseType) fun r => ?_
    cases r with
    | none => exact Spends.of_clean (Clean.pure _)
    | some err =>
      refine Spends.bind_clean clean_getParser fun p => ?_
      exact Spends.ite (Spends.bind_clean (Clean.throw _) fun _ => spends_handleError _ _)
        (Spends.bind_clean (Clean.pure _) fun _ => spends_handleError _ _)
  · exact spends_recoverable _ clean_parseObject
  · exact spends_recoverable _ clean_parseRoot
  · exact spends_recoverable _ clean_parseGoroutine
  · exact spends_recoverable _ (clean_skipUnknown tag)

/-- A run of the record loop, for any fuel. -/
theorem parseLoop_spent : ∀ (fuel : Nat) (s : StreamingParser × List UInt8),
    ∃ l, Spent s.1 (finalState (parseLoop fuel s)).1 l False (Failed (parseLoop fuel s))
  | 0, s => ⟨[], Spent.of_clean (Logged.refl s.1) rfl nofun⟩
  | fuel + 1, (sp, bs) => by
    simp only [parseLoop]
    split
    · exact ⟨[], Spent.of_clean (Logged.refl sp) rfl nofun⟩
    · rename_i e rest _ _
      obtain ⟨b, s', hh, l, hl⟩ := handleError_spent (.wrap "reading tag" (.read e)) (sp, rest)
      rw [hh]
      cases b
      · exact ⟨l, hl.imp nofun fun _ => trivial⟩
      · obtain ⟨l', hl'⟩ := parseLoop_spent fuel s'
        exact ⟨l ++ l', hl.seq rfl hl'⟩
    · rename_i tag rest _
      obtain ⟨l, hl⟩ := spends_record tag (sp, rest)
      split <;> rename_i s' hs <;> rw [hs] at hl
      · obtain ⟨l', hl'⟩ := parseLoop_spent fuel s'
        exact ⟨l ++ l', hl.seq rfl hl'⟩
      · exact ⟨l, hl.imp nofun nofun⟩
      · exact ⟨l, hl.imp nofun fun _ => trivial⟩

theorem parseAll_spent : Spends (fun _ => False) parseAll := by
  unfold parseAll
  repeat' first
    | exact fun s => parseLoop_spent _ s
    | with_reducible refine Spends.bind_clean ?_ fun _ => ?_
    | with_reducible refine Spends.ite ?_ ?_
    | exact Clean.throw _
    | exact Clean.pure _
    | exact clean_get
    | exact clean_lift _

/-- A run of `Parse`: the trace it returns is the parser's trace and the calls of
the run, and the run fails exactly when `Parse` returns an error. -/
theorem parse_spent (sp : StreamingParser) (bs : List UInt8) :
    ∃ sp' l, (parse sp bs).2 = sp.trace ++ l ∧
      Spent sp sp' l False (∃ f, (parse sp bs).1 = .error f) := by
  obtain ⟨l, hl⟩ := parseAll_spent (sp, bs)
  unfold parse
  split <;> rename_i h <;> rw [h] at hl
  · exact ⟨_, l, hl.logged.trace, hl.imp id nofun⟩
  · exact ⟨_, l, hl.logged.trace, hl.imp id fun _ => ⟨_, rfl⟩⟩

end StreamingParser

/-! ## The budget over whole runs -/

/-- `Parse`, on a parser made by `NewStreamingParser` and `SetErrorRecovery`,
calls `OnError` at most `max maxErrors 0 + 1` times, for every byte string, every
recovery flag and every set of callbacks: each call counts one error, and parsing
goes on after it only while the count is within `maxErrors`. -/
theorem streamingParser_parse_onErrorCalls (cb : StreamCallbacks) (maxErrors : Int)
    (skipOnError : Bool) (bs : List UInt8) :
    ((((StreamingParser.new cb).setErrorRecovery maxErrors skipOnError).parse bs).2.countP
      Event.isError : Int) ≤ max maxErrors 0 + 1 := by
  obtain ⟨sp', l, htrace, hl⟩ := StreamingParser.parse_spent
    ((StreamingParser.new cb).setErrorRecovery maxErrors skipOnError) bs
  have hc := hl.count
  have hb := hl.bound
  rw [htrace]
  simp only [StreamingParser.new, StreamingParser.setErrorRecovery, List.nil_append] at hc hb ⊢
  omega

/- The bound is reached: with `maxErrors = 1`, a second unknown tag, which the
scan reaches past the byte 17, is reported and ends the run. -/
example : (((StreamingParser.new nilCallbacks).setErrorRecovery 1 true).parse
    (headerBytes ++ [25, 17, 25, 17, 2, 0, 0x20, 0])).2.countP Event.isError = 2 := by
  rfl

/-- With recovery off, `Parse` stops at the first failure it reports: an
`OnError` call is the last call of the run, and `Parse` then returns an error.
The callbacks leave `OnProgress` nil, so no ticker calls it afterwards. -/
theorem streamingParser_parse_failFast (cb : StreamCallbacks) (maxErrors : Int) (bs : List UInt8)
    {pre post : List Event} {e : Event}
    (htrace : (((StreamingParser.new cb).setErrorRecovery maxErrors false).parse bs).2 =
      pre ++ e :: post)
    (he : e.isError = true) :
    post = [] ∧
      ∃ f, (((StreamingParser.new cb).setErrorRecovery maxErrors false).parse bs).1 = .error f := by
  obtain ⟨sp', l, ht, hl⟩ := StreamingParser.parse_spent
    ((StreamingParser.new cb).setErrorRecovery maxErrors false) bs
  rw [ht] at htrace
  obtain ⟨hpost, -, hf⟩ := hl.failFast rfl pre e post htrace he
  exact ⟨hpost, hf⟩

/-- A record of the unknown tag 25, then an OtherRoot record and the EOF record. -/
def unknownTagDump : List UInt8 := headerBytes ++ [25, 2, 0, 0x20, 0]

/-- With recovery off, the unknown tag is reported and ends the run: the
OtherRoot record after it is never read. -/
theorem streamingParser_parse_failFast_unknownTag :
    (((StreamingParser.new nilCallbacks).setErrorRecovery 100 false).parse unknownTagDump).2 =
      [] ++ [Event.error (.wrap "skipping unknown tag 25" (.unknownTag 25)) false] ∧
    (Event.error (.wrap "skipping unknown tag 25" (.unknownTag 25)) false).isError = true ∧
    ([] : List Event) = [] ∧
      ∃ f, (((StreamingParser.new nilCallbacks).setErrorRecovery 100 false).parse
        unknownTagDump).1 = .error f :=
  have htrace : (((StreamingParser.new nilCallbacks).setErrorRecovery 100 false).parse
      unknownTagDump).2 = [] ++ [Event.error (.wrap "skipping unknown tag 25" (.unknownTag 25)) false] :=
    rfl
  ⟨htrace, rfl, streamingParser_parse_failFast nilCallbacks 100 unknownTagDump htrace rfl⟩

end HeapLens.Dump
