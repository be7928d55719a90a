import HeapLens.Dump.RoundTrip
import HeapLens.Dump.Streaming

/-!
# `StreamingParser.Parse` on well-formed dumps

What each record does to the streaming parser when every callback returns nil,
stated as a function `applyStream` of the parser state: the Params record sets
the parameters, and each record reports its event to the callback of its kind,
if that callback is set.  The record loop reads the encoding of a well-formed
list of Params, Type, Object and OtherRoot records as the fold of
`applyStream`, so `Parse` returns nil with one event per record whose callback
is set, in record order.

An object's event carries the pointers its field list names, read under the
parameters of the last Params record before it.  `GoHeapParser` reads the same
field list and stores no pointer: on every well-formed dump the two parsers
agree on the objects' contents and disagree on their pointers.
-/

namespace HeapLens.Dump

open HeapLens.Graph

namespace StreamingParser

/-- A callback call that returns nil: recorded when the callback is set. -/
def report (sp : StreamingParser) (kind : CallbackKind) (event : Event) : StreamingParser :=
  if sp.callbacks.isSet kind then { sp with trace := sp.trace ++ [event] } else sp

/-- The parameters a Params record carries. -/
def paramsOf (bigEndian pointerSize heapStart heapEnd : UInt64) (arch goVersion : GoString)
    (numCPUs : UInt64) : DumpParams :=
  ⟨bigEndian ≠ 0, pointerSize, heapStart, heapEnd, arch, goVersion, numCPUs⟩

/-- The type address `parseObject` reports for contents `data`: the first word,
when there is one, and 0 otherwise. -/
def typeAddrOf (params : DumpParams) (data : List UInt8) : UInt64 :=
  if params.pointerSize.toNat ≤ data.length then
    readPointer params.bigEndian params.pointerSize (data.take params.pointerSize.toNat)
  else 0

/-- What a record does to the streaming parser when the callbacks return nil. -/
def applyStream (sp : StreamingParser) : DumpRecord → StreamingParser
  | .params bigEndian pointerSize heapStart heapEnd arch goVersion numCPUs =>
    let params := paramsOf bigEndian pointerSize heapStart heapEnd arch goVersion numCPUs
    { sp with params }.report .onParams (.params params)
  | .type addr size name indirect => sp.report .onType (.type addr size name (indirect ≠ 0))
  | .object addr contents fields =>
    sp.report .onObject (.object addr (typeAddrOf sp.params contents) contents
      (fieldPointers sp.params.bigEndian sp.params.pointerSize contents fields))
  | .otherRoot description pointer => sp.report .onRoot (.root description pointer)

@[simp]
theorem callbacks_report (sp : StreamingParser) (kind : CallbackKind) (event : Event) :
    (sp.report kind event).callbacks = sp.callbacks := by
  unfold report
  split <;> rfl

@[simp]
theorem params_report (sp : StreamingParser) (kind : CallbackKind) (event : Event) :
    (sp.report kind event).params = sp.params := by
  unfold report
  split <;> rfl

/-! ## The record routines on encodings -/

/-- A callback that returns nil records its event if it is set. -/
theorem callback_nil {cb : StreamCallbacks} (hnil : ∀ tr e, cb.respond tr e = none)
    {sp : StreamingParser} (hcb : sp.callbacks = cb) (kind : CallbackKind) (event : Event)
    (bs : List UInt8) : callback kind event (sp, bs) = .ok () (sp.report kind event, bs) := by
  subst hcb
  by_cases h : sp.callbacks.isSet kind <;>
    simp [callback, invoke, bind, EStateM.bind, report, h, hnil, pure, EStateM.pure]

theorem lift_bind {α β : Type} {d : Decoder α} {f : α → StreamM β} {sp : StreamingParser}
    {bs rest : List UInt8} {a : α} (h : d bs = .ok a rest) :
    (lift d >>= f) (sp, bs) = f a (sp, rest) := by
  show EStateM.bind (lift d) f (sp, bs) = _
  simp only [EStateM.bind, lift, h]

theorem getParser_bind {β : Type} {f : StreamingParser → StreamM β} {sp : StreamingParser}
    {bs : List UInt8} : (getParser >>= f) (sp, bs) = f sp (sp, bs) :=
  rfl

theorem modifyParser_bind {β : Type} {g : StreamingParser → StreamingParser}
    {f : Unit → StreamM β} {sp : StreamingParser} {bs : List UInt8} :
    (modifyParser g >>= f) (sp, bs) = f () (g sp, bs) :=
  rfl

section Nil

variable {sp : StreamingParser} (hnil : ∀ tr e, sp.callbacks.respond tr e = none)
include hnil

theorem parseParams_stream {bigEndian pointerSize heapStart heapEnd numCPUs : UInt64}
    {arch goVersion : GoString} (harch : arch.length ≤ 2 ^ 20) (hgo : goVersion.length ≤ 2 ^ 20)
    (rest : List UInt8) :
    let r := DumpRecord.params bigEndian pointerSize heapStart heapEnd arch goVersion numCPUs
    parseParams (sp, r.payload ++ rest) = .ok () (sp.applyStream r, rest) := by
  simp only [DumpRecord.payload, List.append_assoc, parseParams]
  rw [lift_bind (readVarint_encode _ _), lift_bind (readVarint_encode _ _),
    lift_bind (readVarint_encode _ _), lift_bind (readVarint_encode _ _),
    lift_bind (Parser.wrapError_ok (readString_encode harch _)),
    lift_bind (Parser.wrapError_ok (readString_encode hgo _)), lift_bind (readVarint_encode _ _),
    modifyParser_bind]
  exact callback_nil hnil (by rfl) _ _ _

theorem parseType_stream {addr size indirect : UInt64} {name : GoString}
    (hname : name.length ≤ 2 ^ 20) (rest : List UInt8) :
    let r := DumpRecord.type addr size name indirect
    parseType (sp, r.payload ++ rest) = .ok () (sp.applyStream r, rest) := by
  simp only [DumpRecord.payload, List.append_assoc, parseType]
  rw [lift_bind (readVarint_encode _ _), lift_bind (readVarint_encode _ _),
    lift_bind (readString_encode hname _), lift_bind (readVarint_encode _ _)]
  exact callback_nil hnil (by rfl) _ _ _

theorem parseObject_stream (hps : sp.params.pointerSize.toNat < 2 ^ 62) {addr : UInt64}
    {contents : List UInt8} {fields : List (UInt64 × UInt64)} (hc : contents.length ≤ 2 ^ 30)
    (hf : ∀ f ∈ fields, f.1 ≠ 0 ∧ (f.1 = 1 → f.2.toNat < 2 ^ 62)) (rest : List UInt8) :
    let r := DumpRecord.object addr contents fields
    parseObject (sp, r.payload ++ rest) = .ok () (sp.applyStream r, rest) := by
  simp only [DumpRecord.payload, List.append_assoc, parseObject]
  rw [lift_bind (readVarint_encode _ _), lift_bind (readBytes_encode hc _), getParser_bind,
    lift_bind (typeAddress_eq _ (by omega) _ _),
    lift_bind (readPointerFields_encode _ contents hps hf rest)]
  refine (callback_nil hnil (by rfl) _ _ _).trans ?_
  simp only [applyStream, typeAddrOf]
  split <;> rfl

theorem parseRoot_stream {description : GoString} {pointer : UInt64}
    (hd : description.length ≤ 2 ^ 20) (rest : List UInt8) :
    let r := DumpRecord.otherRoot description pointer
    parseRoot (sp, r.payload ++ rest) = .ok () (sp.applyStream r, rest) := by
  simp only [DumpRecord.payload, List.append_assoc, parseRoot]
  rw [lift_bind (readString_encode hd _), lift_bind (readVarint_encode _ _)]
  exact callback_nil hnil (by rfl) _ _ _

end Nil

/-- A record routine that returns is seen by the loop as no error. -/
theorem attempt_bind {β : Type} {x : StreamM Unit} {f : Option GoError → StreamM β}
    {s s' : StreamingParser × List UInt8} (h : x s = .ok () s') :
    (attempt x >>= f) s = f none s' := by
  show EStateM.bind (attempt x) f s = _
  simp only [EStateM.bind, attempt, h]

theorem recoverable_ok {context : String} {x : StreamM Unit} {s s' : StreamingParser × List UInt8}
    (h : x s = .ok () s') : recoverable context x s = .ok true s' := by
  unfold recoverable
  rw [attempt_bind h]
  rfl

/-- The record loop's dispatch on the tag of a well-formed record runs its
routine to the end and goes on. -/
theorem record_stream {sp : StreamingParser} (hnil : ∀ tr e, sp.callbacks.respond tr e = none)
    (hps : sp.params.pointerSize.toNat < 2 ^ 62) {r : DumpRecord} (hr : r.WellFormed)
    (rest : List UInt8) : record r.tag (sp, r.payload ++ rest) = .ok true (sp.applyStream r, rest) := by
  cases r with
  | params =>
    simp only [record, DumpRecord.tag, show (6 : UInt64).toNat = 6 from rfl]
    rw [attempt_bind (parseParams_stream hnil hr.2.1 hr.2.2 rest)]
    rfl
  | type =>
    simp only [record, DumpRecord.tag, show (3 : UInt64).toNat = 3 from rfl]
    rw [attempt_bind (parseType_stream hnil hr rest)]
    rfl
  | object => exact recoverable_ok (parseObject_stream hnil hps hr.1 hr.2 rest)
  | otherRoot => exact recoverable_ok (parseRoot_stream hnil hr rest)

@[simp]
theorem callbacks_applyStream (sp : StreamingParser) (r : DumpRecord) :
    (sp.applyStream r).callbacks = sp.callbacks := by
  cases r <;> simp [applyStream]

/-- Only a Params record sets the pointer size, and a well-formed one keeps it
below 2^62. -/
theorem pointerSize_applyStream {sp : StreamingParser}
    (hps : sp.params.pointerSize.toNat < 2 ^ 62) {r : DumpRecord} (hr : r.WellFormed) :
    (sp.applyStream r).params.pointerSize.toNat < 2 ^ 62 := by
  cases r with
  | params => simpa [applyStream, paramsOf] using hr.1
  | _ => simpa [applyStream] using hps

/-! ## The record loop -/

/-- With a turn to spare for the EOF record, the record loop reads a list of
well-formed records as the fold of `applyStream`. -/
theorem parseLoop_stream (rest : List UInt8) :
    ∀ (rs : List DumpRecord) (sp : StreamingParser) (fuel : Nat),
      (∀ tr e, sp.callbacks.respond tr e = none) → sp.params.pointerSize.toNat < 2 ^ 62 →
      (∀ r ∈ rs, r.WellFormed) → rs.length < fuel →
      parseLoop fuel (sp, rs.flatMap DumpRecord.encode ++ (encodeUvarint 0 ++ rest)) =
        .ok () (rs.foldl applyStream sp, rest)
  | _, _, 0, _, _, _, h => absurd h (Nat.not_lt_zero _)
  | [], sp, fuel + 1, _, _, _, _ => by
    simp only [List.flatMap_nil, List.nil_append, parseLoop, readUvarint_encode]
    rfl
  | r :: rs, sp, fuel + 1, hnil, hps, hrs, hlen => by
    have hr := hrs r (List.mem_cons_self _ _)
    simp only [List.flatMap_cons, DumpRecord.encode, List.append_assoc, parseLoop,
      readUvarint_encode, record_stream hnil hps hr]
    exact parseLoop_stream rest rs _ fuel (by simpa using hnil) (pointerSize_applyStream hps hr)
      (fun r' h => hrs r' (List.mem_cons_of_mem _ h)) (by simpa using hlen)

/-- `Parse` reads the header of a well-formed dump, runs the loop over its
records, and stops at its EOF record, whatever follows. -/
theorem parseAll_stream_append {sp : StreamingParser}
    (hnil : ∀ tr e, sp.callbacks.respond tr e = none) (hps : sp.params.pointerSize.toNat < 2 ^ 62)
    {rs : List DumpRecord} (hrs : ∀ r ∈ rs, r.WellFormed) (rest : List UInt8) :
    parseAll (sp, encodeDump rs ++ rest) = .ok () (rs.foldl applyStream sp, rest) := by
  have hlen := Parser.length_le_flatMap_encode rs
  have hfull : readFull 16 (headerBytes ++ (rs.flatMap DumpRecord.encode ++
      (encodeUvarint 0 ++ rest))) = .ok headerBytes _ := readFull_append headerBytes _
  simp only [encodeDump, List.append_assoc]
  rw [parseAll, lift_bind (Parser.wrapError_ok hfull)]
  simp only [ne_eq, not_true_eq_false, if_false, pure_bind]
  exact parseLoop_stream rest rs sp _ hnil hps hrs (by simp only [List.length_append]; omega)

theorem parseAll_stream {sp : StreamingParser} (hnil : ∀ tr e, sp.callbacks.respond tr e = none)
    (hps : sp.params.pointerSize.toNat < 2 ^ 62) {rs : List DumpRecord}
    (hrs : ∀ r ∈ rs, r.WellFormed) :
    parseAll (sp, encodeDump rs) = .ok () (rs.foldl applyStream sp, []) := by
  simpa using parseAll_stream_append hnil hps hrs []

@[simp]
theorem trace_report (sp : StreamingParser) (kind : CallbackKind) (event : Event) :
    (sp.report kind event).trace =
      if sp.callbacks.isSet kind then sp.trace ++ [event] else sp.trace := by
  unfold report
  split <;> rfl

end StreamingParser

/-! ## What `Parse` reports -/

/-- `StreamingParser.Parse` accepts every well-formed dump of Params, Type,
Object and OtherRoot records, whatever its error budget and recovery flag, when
the callbacks return nil: it returns nil, and the calls it makes are those of
the fold of `applyStream` over the records. -/
theorem streamingParser_parse_encodeDump {sp : StreamingParser}
    (hnil : ∀ tr e, sp.callbacks.respond tr e = none) (hps : sp.params.pointerSize.toNat < 2 ^ 62)
    {rs : List DumpRecord} (hrs : ∀ r ∈ rs, r.WellFormed) :
    StreamingParser.parse sp (encodeDump rs) =
      (.ok (), (rs.foldl StreamingParser.applyStream sp).trace) := by
  rw [StreamingParser.parse, StreamingParser.parseAll_stream hnil hps hrs]

theorem streamingParser_parse_encodeDump_scenarioF :
    ((∀ tr e, (StreamingParser.new nilCallbacks).callbacks.respond tr e = none) ∧
      (StreamingParser.new nilCallbacks).params.pointerSize.toNat < 2 ^ 62 ∧
      ∀ r ∈ scenarioFRecords, r.WellFormed) ∧
    StreamingParser.parse (StreamingParser.new nilCallbacks) (encodeDump scenarioFRecords) =
      (.ok (), (scenarioFRecords.foldl StreamingParser.applyStream
        (StreamingParser.new nilCallbacks)).trace) :=
  ⟨⟨fun _ _ => rfl, by decide, by decide⟩,
    streamingParser_parse_encodeDump (fun _ _ => rfl) (by decide) (by decide)⟩

/-- The contents and pointers an object event carries. -/
def Event.objectData? : Event → Option (List UInt8 × List UInt64)
  | .object _ _ data ptrs => some (data, ptrs)
  | _ => none

/-- The objects of a record list as the streaming parser reports them: each
object record's contents, with the pointers its field list names under the
parameters of the last Params record before it. -/
def streamObjects (params : DumpParams) : List DumpRecord → List (List UInt8 × List UInt64)
  | [] => []
  | .params bigEndian pointerSize heapStart heapEnd arch goVersion numCPUs :: rs =>
    streamObjects
      (StreamingParser.paramsOf bigEndian pointerSize heapStart heapEnd arch goVersion numCPUs) rs
  | .type .. :: rs => streamObjects params rs
  | .object _ contents fields :: rs =>
    (contents, fieldPointers params.bigEndian params.pointerSize contents fields) ::
      streamObjects params rs
  | .otherRoot .. :: rs => streamObjects params rs

/-- The contents the streaming parser reports are the object records' contents. -/
theorem map_fst_streamObjects : ∀ (params : DumpParams) (rs : List DumpRecord),
    (streamObjects params rs).map Prod.fst = rs.filterMap DumpRecord.contents?
  | _, [] => rfl
  | params, r :: rs => by
    cases r <;> simp [streamObjects, DumpRecord.contents?, map_fst_streamObjects]

/-- With `OnObject` set, the fold reports the objects of `streamObjects`, in
record order. -/
theorem objectData_foldl_applyStream : ∀ (rs : List DumpRecord) (sp : StreamingParser),
    sp.callbacks.isSet .onObject = true →
    (rs.foldl StreamingParser.applyStream sp).trace.filterMap Event.objectData? =
      sp.trace.filterMap Event.objectData? ++ streamObjects sp.params rs
  | [], _, _ => by simp [streamObjects]
  | r :: rs, sp, hobj => by
    rw [List.foldl_cons, objectData_foldl_applyStream rs _ (by simpa using hobj)]
    cases r <;> simp [StreamingParser.applyStream, streamObjects, Event.objectData?, hobj] <;>
      split <;> simp [Event.objectData?]

/-- On every well-formed dump of Params, Type, Object and OtherRoot records the
two parsers meet the same objects, in the same order: `StreamingParser.Parse`,
with every callback set and returning nil,
reports each object's contents with the pointers its field list names, while
`GoHeapParser.Parse` builds one object per record, sized by those contents, with
no pointer at all. -/
theorem parsers_objects_encodeDump {rs : List DumpRecord} (hrs : ∀ r ∈ rs, r.WellFormed) :
    (StreamingParser.parse (StreamingParser.new nilCallbacks) (encodeDump rs)).2.filterMap
        Event.objectData? = streamObjects DumpParams.zero rs ∧
    ∃ g, GoHeapParser.parse (encodeDump rs) = .ok g ∧
      g.objects.map Object.size =
        (streamObjects DumpParams.zero rs).map (fun o => UInt64.ofNat o.1.length) ∧
      ∀ o ∈ g.objects, o.ptrs = [] := by
  have hs := objectData_foldl_applyStream rs (StreamingParser.new nilCallbacks) rfl
  refine ⟨?_, ?_⟩
  · rw [StreamingParser.parse, StreamingParser.parseAll_stream (fun _ _ => rfl) (by decide) hrs]
    simpa using hs
  · obtain ⟨-, hsize, hptrs, -⟩ := Parser.finalize_foldl_numbered rs
    refine ⟨_, goHeapParser_parse_encodeDump hrs, ?_, hptrs⟩
    rw [hsize, ← map_fst_streamObjects DumpParams.zero rs, List.map_map]
    rfl

theorem parsers_objects_scenarioF :
    (∀ r ∈ scenarioFRecords, r.WellFormed) ∧
    (StreamingParser.parse (StreamingParser.new nilCallbacks) (encodeDump scenarioFRecords)).2.filterMap
        Event.objectData? = streamObjects DumpParams.zero scenarioFRecords ∧
    ∃ g, GoHeapParser.parse (encodeDump scenarioFRecords) = .ok g ∧
      g.objects.map Object.size =
        (streamObjects DumpParams.zero scenarioFRecords).map (fun o => UInt64.ofNat o.1.length) ∧
      ∀ o ∈ g.objects, o.ptrs = [] :=
  ⟨by decide, parsers_objects_encodeDump (by decide)⟩

/-- Both parsers stop at the EOF record of a well-formed dump of Params, Type,
Object and OtherRoot records: whatever bytes
follow it, `GoHeapParser.Parse` returns the same graph, and
`StreamingParser.Parse`, with callbacks that return nil, the same result after
the same calls. -/
theorem parsers_encodeDump_append {rs : List DumpRecord} (hrs : ∀ r ∈ rs, r.WellFormed)
    (rest : List UInt8) {sp : StreamingParser} (hnil : ∀ tr e, sp.callbacks.respond tr e = none)
    (hps : sp.params.pointerSize.toNat < 2 ^ 62) :
    GoHeapParser.parse (encodeDump rs ++ rest) = GoHeapParser.parse (encodeDump rs) ∧
      StreamingParser.parse sp (encodeDump rs ++ rest) =
        StreamingParser.parse sp (encodeDump rs) := by
  refine ⟨?_, ?_⟩
  · simp only [GoHeapParser.parse, Parser.wrapError_ok (Parser.parse_encodeDump_append hrs rest),
      Parser.wrapError_ok (Parser.parse_encodeDump hrs)]
  · simp only [StreamingParser.parse, StreamingParser.parseAll_stream_append hnil hps hrs,
      StreamingParser.parseAll_stream hnil hps hrs]

theorem parsers_encodeDump_append_scenarioF :
    ((∀ r ∈ scenarioFRecords, r.WellFormed) ∧
      (∀ tr e, (StreamingParser.new nilCallbacks).callbacks.respond tr e = none) ∧
      (StreamingParser.new nilCallbacks).params.pointerSize.toNat < 2 ^ 62) ∧
    GoHeapParser.parse (encodeDump scenarioFRecords ++ headerBytes) =
        GoHeapParser.parse (encodeDump scenarioFRecords) ∧
      StreamingParser.parse (StreamingParser.new nilCallbacks) (encodeDump scenarioFRecords ++ headerBytes) =
        StreamingParser.parse (StreamingParser.new nilCallbacks) (encodeDump scenarioFRecords) :=
  ⟨⟨by decide, fun _ _ => rfl, by decide⟩,
    parsers_encodeDump_append (by decide) headerBytes (fun _ _ => rfl) (by decide)⟩

/- On scenario F the first object's field names the second object's address,
which the streaming parser reports and `GoHeapParser` drops. -/
example : streamObjects DumpParams.zero scenarioFRecords =
    [([0x10, 0, 0, 0, 0, 0, 0, 0, 0x30, 0, 0, 0, 0, 0, 0, 0], [0x30]),
      ([0x10] ++ List.replicate 15 0, [])] := by
  decide

end HeapLens.Dump
