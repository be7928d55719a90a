import HeapLens.Dump.Parser

/-!
# The parser registry

`heapdump/registry.go`: `Open` makes one `Read` of at most 4096 bytes from the
dump, asks each registered adapter in turn whether that preview is its format,
and lets the first that claims it parse the preview followed by the rest of the
stream.  The JSON fixture adapter (`JSONStub`) and `GoHeapParser` are
registered by their package `init` functions, `heapdump` first.

A reader is given by the bytes its first `Read` returns and the bytes after
them: the parsers read through buffered readers and `io.ReadFull`, so what they
return depends only on the whole byte stream.
-/

namespace HeapLens.Dump

open HeapLens.Graph

/-- A registered format adapter: `CanParse` on the preview and `Parse` on the
whole stream. -/
structure Adapter where
  canParse : List UInt8 → Bool
  parse : List UInt8 → Except Fault MemGraph

/-- `Open`, given the result of its first `Read` and the bytes that follow. -/
def openDump (registry : List Adapter) (firstRead rest : List UInt8) : Except Fault MemGraph :=
  match registry.find? (fun adapter => adapter.canParse firstRead) with
  | some adapter => adapter.parse (firstRead ++ rest)
  | none => .error (.error .noParser)

/-- `GoHeapParser.CanParse`: one `Read` of 16 bytes from the preview must
return the whole header. -/
def GoHeapParser.canParse (preview : List UInt8) : Bool :=
  decide (16 ≤ preview.length ∧ preview.take 16 = headerBytes)

/-- `GoHeapParser` as an adapter. -/
def GoHeapParser.adapter : Adapter := ⟨GoHeapParser.canParse, GoHeapParser.parse⟩

/-! ## The JSON fixture adapter -/

/-- `jsonObject`; an absent or `null` `ptrs` field is `none` (a nil slice). -/
structure JsonObject where
  id : ObjID
  type : GoString
  size : UInt64
  ptrs : Option (List ObjID)

/-- `jsonDump`. -/
structure JsonDump where
  objects : List JsonObject
  roots : Option (List ObjID)

/-- A byte that JSON allows before a value. -/
def isJsonSpace (b : UInt8) : Bool := b = 0x20 || b = 0x09 || b = 0x0a || b = 0x0d

/-- The text, after white space, starts with a byte that can begin a JSON value:
`{`, `[`, `"`, `-`, a digit, or the first letter of `true`, `false`, `null`. -/
def BeginsJsonValue (bs : List UInt8) : Prop :=
  ∃ b ∈ (bs.dropWhile isJsonSpace).head?,
    b = 0x7b ∨ b = 0x5b ∨ b = 0x22 ∨ b = 0x2d ∨ (0x30 ≤ b ∧ b ≤ 0x39) ∨
      b = 0x74 ∨ b = 0x66 ∨ b = 0x6e

/-- What `JSONStub` uses of `encoding/json`, which is not part of this
repository.  `unmarshalObjects` is `json.Unmarshal` into a struct with one
`Objects json.RawMessage` field (`none` when the field stays nil), and
`decodeDump` is `json.NewDecoder(r).Decode(&dump)`.  The law kept is the first
step of the JSON scanner: a text that cannot begin a value is a syntax error. -/
structure JsonLib where
  unmarshalObjects : List UInt8 → Except GoError (Option (List UInt8))
  decodeDump : List UInt8 → Except GoError JsonDump
  unmarshal_syntax : ∀ bs, ¬ BeginsJsonValue bs → ∃ e, unmarshalObjects bs = .error e
  decode_syntax : ∀ bs, ¬ BeginsJsonValue bs → ∃ e, decodeDump bs = .error e

namespace JSONStub

variable (json : JsonLib)

/-- `JSONStub.CanParse`: one `Read` of at most 1024 bytes must hold a JSON text
whose `objects` field is set. -/
def canParse (preview : List UInt8) : Bool :=
  let buf := preview.take 1024
  if buf = [] then false
  else match json.unmarshalObjects buf with
    | .ok objects => objects.isSome
    | .error _ => false

/-- The objects of a decoded dump, added in order; a nil `ptrs` becomes empty. -/
def buildGraph (objects : List JsonObject) (roots : List ObjID) : MemGraph :=
  (objects.foldl (fun g obj => g.addObject { id := obj.id, type := obj.type, size := obj.size, ptrs := obj.ptrs.getD [] })
    MemGraph.empty).setRoots roots

/-- `JSONStub.Parse`. -/
def parse (bs : List UInt8) : Except Fault MemGraph :=
  match json.decodeDump bs with
  | .error e => .error (.error (.wrap "failed to decode JSON" e))
  | .ok dump =>
    match dump.objects.findIdx? (·.id = 0) with
    | some i => .error (.error (.missingID i))
    | none => .ok (buildGraph dump.objects (dump.roots.getD []))

/-- `JSONStub` as an adapter. -/
def adapter : Adapter := ⟨canParse json, parse json⟩

end JSONStub

/-- The registry after the package `init` functions: `JSONStub`, then
`GoHeapParser`. -/
def defaultRegistry (json : JsonLib) : List Adapter :=
  [JSONStub.adapter json, GoHeapParser.adapter]

/-- No text starting with the dump header's first byte `g` begins a JSON value. -/
theorem not_beginsJsonValue_of_head (bs : List UInt8) : ¬ BeginsJsonValue (0x67 :: bs) := by
  rintro ⟨b, hb, hcases⟩
  have hdrop : (0x67 :: bs).dropWhile isJsonSpace = 0x67 :: bs := rfl
  rw [hdrop, List.head?_cons, Option.mem_def, Option.some.injEq] at hb
  subst hb
  revert hcases
  decide

/-- When the first `Read` returns the first 15 bytes of a heap dump, no adapter
claims the preview and `Open` fails, although `GoHeapParser.Parse` accepts the
whole dump. -/
theorem openDump_shortFirstRead (json : JsonLib) :
    openDump (defaultRegistry json) (scenarioF.take 15) (scenarioF.drop 15) =
        .error (.error .noParser) ∧
      (GoHeapParser.parse scenarioF).toOption.isSome := by
  have hjson : JSONStub.canParse json (scenarioF.take 15) = false := by
    have hbuf : (scenarioF.take 15).take 1024 = 0x67 :: ((scenarioF.take 15).take 1024).tail :=
      rfl
    obtain ⟨e, he⟩ := json.unmarshal_syntax ((scenarioF.take 15).take 1024)
      (by rw [hbuf]; exact not_beginsJsonValue_of_head _)
    simp only [JSONStub.canParse]
    rw [if_neg (by decide), he]
  refine ⟨?_, rfl⟩
  simp only [openDump, defaultRegistry, List.find?, JSONStub.adapter, hjson,
    GoHeapParser.adapter]
  rfl

/-- `JSONStub` never claims a preview that starts with the dump header's first
byte: the JSON scanner rejects it before `objects` can be set. -/
theorem JSONStub.canParse_head_g (json : JsonLib) (bs : List UInt8) :
    JSONStub.canParse json (0x67 :: bs) = false := by
  have hbuf : (0x67 :: bs).take 1024 = 0x67 :: bs.take 1023 := rfl
  obtain ⟨e, he⟩ := json.unmarshal_syntax _ (not_beginsJsonValue_of_head (bs.take 1023))
  simp [JSONStub.canParse, hbuf, he]

/-- The preview of a heap dump starts with `g` as soon as it is not empty. -/
theorem head_eq_g_of_header_start {b : UInt8} {bs rest : List UInt8}
    (hdump : headerBytes <+: (b :: bs) ++ rest) : b = 0x67 := by
  obtain ⟨t, ht⟩ := hdump
  exact (List.cons.inj ht).1.symm

/-- On a heap dump, `GoHeapParser` claims the preview exactly when the first
`Read` returned at least the 16 header bytes. -/
theorem GoHeapParser.canParse_of_header_start {firstRead rest : List UInt8}
    (hdump : headerBytes <+: firstRead ++ rest) :
    GoHeapParser.canParse firstRead = decide (16 ≤ firstRead.length) := by
  have htake : (firstRead ++ rest).take 16 = headerBytes :=
    (List.prefix_iff_eq_take.mp hdump).symm
  by_cases hlen : 16 ≤ firstRead.length
  · rw [List.take_append_of_le_length hlen] at htake
    simp [GoHeapParser.canParse, hlen, htake]
  · simp [GoHeapParser.canParse, hlen]

/-- `Open` on any Go heap dump, with the default registry: the JSON adapter
never claims it, and `GoHeapParser` parses the whole stream exactly when the
first `Read` returned the whole header; a shorter first `Read` ends in
`ErrNoParser`. -/
theorem openDump_goHeapDump (json : JsonLib) (firstRead rest : List UInt8)
    (hdump : headerBytes <+: firstRead ++ rest) :
    openDump (defaultRegistry json) firstRead rest =
      if 16 ≤ firstRead.length then GoHeapParser.parse (firstRead ++ rest)
      else .error (.error .noParser) := by
  have hjson : JSONStub.canParse json firstRead = false := by
    cases firstRead with
    | nil => rfl
    | cons b bs =>
      rw [head_eq_g_of_header_start hdump]
      exact JSONStub.canParse_head_g json bs
  simp only [openDump, defaultRegistry, List.find?, JSONStub.adapter, GoHeapParser.adapter, hjson,
    GoHeapParser.canParse_of_header_start hdump]
  by_cases hlen : 16 ≤ firstRead.length <;> simp [hlen]

/-- A JSON library whose every call fails, as on a text that is not JSON. -/
def rejectingJson : JsonLib where
  unmarshalObjects _ := .error (.json 0)
  decodeDump _ := .error (.json 0)
  unmarshal_syntax _ _ := ⟨_, rfl⟩
  decode_syntax _ _ := ⟨_, rfl⟩

theorem openDump_goHeapDump_scenarioF :
    headerBytes <+: scenarioF.take 20 ++ scenarioF.drop 20 ∧
      openDump (defaultRegistry rejectingJson) (scenarioF.take 20) (scenarioF.drop 20) =
        if 16 ≤ (scenarioF.take 20).length then GoHeapParser.parse (scenarioF.take 20 ++ scenarioF.drop 20)
        else .error (.error .noParser) :=
  have h : headerBytes <+: scenarioF.take 20 ++ scenarioF.drop 20 := ⟨scenarioF.drop 16, rfl⟩
  ⟨h, openDump_goHeapDump rejectingJson _ _ h⟩

/-! ## What `JSONStub.Parse` builds -/

/-- The graph object that `JSONStub.Parse` adds for a JSON object: a nil `ptrs`
becomes empty. -/
def JsonObject.toObject (obj : JsonObject) : Object :=
  { id := obj.id, type := obj.type, size := obj.size, ptrs := obj.ptrs.getD [] }

theorem JSONStub.buildGraph_eq (objects : List JsonObject) (roots : List ObjID) :
    JSONStub.buildGraph objects roots =
      ((objects.map JsonObject.toObject).foldl MemGraph.addObject MemGraph.empty).setRoots
        roots := by
  rw [JSONStub.buildGraph, List.foldl_map]
  rfl

/-- On every text the JSON library decodes, `JSONStub.Parse` returns a graph
exactly when no object has id 0; that graph has no object numbered 0, the
super-root's id in `Dominators`, `GetObject` finds in it the last object listed
under each id, with a nil `ptrs` read as empty, and its roots are the dump's. -/
theorem jsonStub_parse_decoded (json : JsonLib) {bs : List UInt8} {dump : JsonDump}
    (h : json.decodeDump bs = .ok dump) :
    ((∃ g, JSONStub.parse json bs = .ok g) ↔ ∀ o ∈ dump.objects, o.id ≠ 0) ∧
      ∀ g, JSONStub.parse json bs = .ok g → (∀ o ∈ g.objects, o.id ≠ 0) ∧
        (∀ id, (g.getObject id).map (fun o => (o.type, o.size, o.ptrs)) =
          (dump.objects.filter (·.id = id)).getLast?.map
            fun o => (o.type, o.size, o.ptrs.getD [])) ∧
        g.roots = dump.roots.getD [] := by
  simp only [JSONStub.parse, h]
  cases hfind : dump.objects.findIdx? (·.id = 0) with
  | some i =>
    refine ⟨⟨fun ⟨_, hg⟩ => (nomatch hg), fun hall => ?_⟩, fun _ hg => (nomatch hg)⟩
    rw [List.findIdx?_eq_none_iff.2 fun o ho => by simpa using hall o ho] at hfind
    cases hfind
  | none =>
    have hall : ∀ o ∈ dump.objects, o.id ≠ 0 := fun o ho => by
      simpa using List.findIdx?_eq_none_iff.1 hfind o ho
    refine ⟨⟨fun _ => hall, fun _ => ⟨_, rfl⟩⟩, fun g hg => ?_⟩
    cases hg
    rw [JSONStub.buildGraph_eq]
    refine ⟨fun o ho => ?_, fun id => ?_, rfl⟩
    · rcases (MemGraph.mem_ids_foldl_addObject _ MemGraph.empty).1
        (MemGraph.mem_ids.2 ⟨o, ho, rfl⟩) with hid | hid
      · exact absurd hid (List.not_mem_nil _)
      · obtain ⟨x, hx, hxo⟩ := List.mem_map.1 hid
        obtain ⟨obj, hobj, rfl⟩ := List.mem_map.1 hx
        exact hxo ▸ hall obj hobj
    · show Option.map _ ((List.foldl MemGraph.addObject MemGraph.empty _).getObject id) = _
      rw [MemGraph.getObject_foldl_addObject, show MemGraph.empty.getObject id = none from rfl,
        Option.or_none, List.filter_map, List.getLast?_map, Option.map_map]
      rfl

/-- A text that starts with an opening brace begins a JSON value. -/
theorem beginsJsonValue_of_head : ∀ {bs : List UInt8}, bs.head? = some 0x7b → BeginsJsonValue bs
  | [], h => nomatch h
  | b :: _, h => by
    obtain rfl : b = 0x7b := Option.some.inj h
    exact ⟨0x7b, rfl, .inl rfl⟩

/-- A JSON library that reads every text starting with an opening brace as
`dump`, with an `objects` field, and rejects every other text. -/
def fixedJson (dump : JsonDump) : JsonLib where
  unmarshalObjects bs := if bs.head? = some 0x7b then .ok (some []) else .error (.json 0)
  decodeDump bs := if bs.head? = some 0x7b then .ok dump else .error (.json 0)
  unmarshal_syntax _ h := ⟨_, if_neg fun hb => h (beginsJsonValue_of_head hb)⟩
  decode_syntax _ h := ⟨_, if_neg fun hb => h (beginsJsonValue_of_head hb)⟩

/-- Two JSON objects under id 1, the second with a nil `ptrs`. -/
def twoObjectsDump : JsonDump :=
  ⟨[⟨1, [0x41], 8, some [2]⟩, ⟨1, [0x42], 16, none⟩], none⟩

theorem jsonStub_parse_decoded_twoObjects :
    (fixedJson twoObjectsDump).decodeDump [0x7b] = .ok twoObjectsDump ∧
      ((∃ g, JSONStub.parse (fixedJson twoObjectsDump) [0x7b] = .ok g) ↔
        ∀ o ∈ twoObjectsDump.objects, o.id ≠ 0) ∧
      ∀ g, JSONStub.parse (fixedJson twoObjectsDump) [0x7b] = .ok g →
        (∀ o ∈ g.objects, o.id ≠ 0) ∧
        (∀ id, (g.getObject id).map (fun o => (o.type, o.size, o.ptrs)) =
          (twoObjectsDump.objects.filter (·.id = id)).getLast?.map
            fun o => (o.type, o.size, o.ptrs.getD [])) ∧
        g.roots = twoObjectsDump.roots.getD [] :=
  have h : (fixedJson twoObjectsDump).decodeDump [0x7b] = .ok twoObjectsDump := rfl
  ⟨h, jsonStub_parse_decoded _ h⟩

end HeapLens.Dump
