import HeapLens.Dump.Format

/-!
# `GoHeapParser.Parse` on well-formed dumps

What each record does to the parser, stated as a function `applyRecord` of the
parser state; the record loop of `parse` reads the encoding of a well-formed
list of Params, Type, Object and OtherRoot records (`DumpRecord`) as the fold
of `applyRecord` over it, and `GoHeapParser.Parse` returns the finalized
result.  The record readers run step by step over the encoders of
`HeapLens.Dump.Format`, one lemma per record kind.

Over any record list the fold numbers the objects 0, 1, ... in record order,
sizes each by its contents, gives none of them a pointer, and keeps every root
among them.  So every well-formed dump parses to a graph with no edges, whose
first object, if any, has the id of the super-root of `Dominators`.
-/

namespace HeapLens.Dump

open HeapLens.Graph

/-- The contents of an object record. -/
def DumpRecord.contents? : DumpRecord → Option (List UInt8)
  | .object _ contents _ => some contents
  | _ => none

namespace Parser

/-! ## What a record does -/

/-- The type name of an object with contents `data` under the current
parameters: the name of the type whose address its first `pointerSize` bytes
hold, or `"unknown"`. -/
def typeNameOf (p : Parser) (data : List UInt8) : GoString :=
  let typeAddr := if p.pointerSize.toNat ≤ data.length then
    some (readPointer p.bigEndian p.pointerSize (data.take p.pointerSize.toNat)) else none
  match typeAddr.bind p.types with
  | some t => t.name
  | none => unknownTypeName

/-- The object that an object record with contents `data` adds: the next id, the
type its first word names, its contents length, and no pointers. -/
def newObject (p : Parser) (data : List UInt8) : Object :=
  { id := p.nextObjID, type := p.typeNameOf data, size := UInt64.ofNat data.length, ptrs := [] }

/-- What a record does to the parser. -/
def applyRecord (p : Parser) : DumpRecord → Parser
  | .params bigEndian pointerSize _ _ _ _ _ =>
    { p with bigEndian := bigEndian ≠ 0, pointerSize }
  | .type addr size name indirect =>
    { p with types := fun a => if a = addr then some ⟨addr, size, name, indirect ≠ 0⟩
                                else p.types a }
  | .object addr contents _ =>
    { p with
      g := p.g.addObject (p.newObject contents)
      nextObjID := p.nextObjID + 1
      addrToObjID := fun a => if a = addr then some p.nextObjID else p.addrToObjID a }
  | .otherRoot _ pointer =>
    match p.addrToObjID pointer with
    | some objID => { p with roots := p.roots ++ [objID] }
    | none => p

/-! ## The record readers on encodings -/

theorem parseParams_encode (p : Parser) {bigEndian pointerSize heapStart heapEnd numCPUs : UInt64}
    {arch goVersion : GoString} (harch : arch.length ≤ 2 ^ 20) (hgo : goVersion.length ≤ 2 ^ 20)
    (rest : List UInt8) :
    let r := DumpRecord.params bigEndian pointerSize heapStart heapEnd arch goVersion numCPUs
    parseParams p (r.payload ++ rest) = .ok (p.applyRecord r) rest := by
  simp only [DumpRecord.payload, List.append_assoc, parseParams, readVarint_bind,
    readString_bind harch, readString_bind hgo]
  rfl

theorem parseType_encode (p : Parser) {addr size indirect : UInt64} {name : GoString}
    (hname : name.length ≤ 2 ^ 20) (rest : List UInt8) :
    let r := DumpRecord.type addr size name indirect
    parseType p (r.payload ++ rest) = .ok (p.applyRecord r) rest := by
  simp only [DumpRecord.payload, List.append_assoc, parseType, readVarint_bind,
    readString_bind hname]
  rfl

/-- The field list is read and its pointers dropped; the type address is the
first word of the contents. -/
theorem parseObject_encode (p : Parser) (hps : p.pointerSize.toNat < 2 ^ 62) {addr : UInt64}
    {contents : List UInt8} {fields : List (UInt64 × UInt64)} (hc : contents.length ≤ 2 ^ 30)
    (hf : ∀ f ∈ fields, f.1 ≠ 0 ∧ (f.1 = 1 → f.2.toNat < 2 ^ 62)) (rest : List UInt8) :
    let r := DumpRecord.object addr contents fields
    parseObject p (r.payload ++ rest) = .ok (p.applyRecord r) rest := by
  simp only [DumpRecord.payload, List.append_assoc, parseObject, readVarint_bind,
    readBytes_bind hc]
  rw [bind_apply_ok (readPointerFields_encode p.bigEndian contents hps hf rest),
    bind_apply_ok (typeAddress_eq _ (by omega) _ _)]
  rfl

theorem parseOtherRoot_encode (p : Parser) {description : GoString} {pointer : UInt64}
    (hd : description.length ≤ 2 ^ 20) (rest : List UInt8) :
    let r := DumpRecord.otherRoot description pointer
    parseOtherRoot p (r.payload ++ rest) = .ok (p.applyRecord r) rest := by
  simp only [DumpRecord.payload, List.append_assoc, parseOtherRoot, readString_bind hd,
    readVarint_bind, applyRecord]
  cases p.addrToObjID pointer <;> rfl

theorem wrapError_ok {α : Type} {context : String} {d : Decoder α} {bs bs' : List UInt8} {a : α}
    (h : d bs = .ok a bs') : wrapError context d bs = .ok a bs' := by
  simp only [wrapError, h]

/-- Only a Params record sets the pointer size, and a well-formed one keeps it
below 2^62. -/
theorem pointerSize_applyRecord {p : Parser} (hps : p.pointerSize.toNat < 2 ^ 62)
    {r : DumpRecord} (hr : r.WellFormed) : (p.applyRecord r).pointerSize.toNat < 2 ^ 62 := by
  cases r with
  | params => exact hr.1
  | otherRoot _ pointer =>
    simp only [applyRecord]
    cases p.addrToObjID pointer <;> exact hps
  | _ => exact hps

/-! ## The record loop -/

/-- One turn of the record loop reads a well-formed record. -/
theorem parseRecords_step (p : Parser) (hps : p.pointerSize.toNat < 2 ^ 62) {r : DumpRecord}
    (hr : r.WellFormed) (fuel : Nat) (bs : List UInt8) :
    parseRecords (fuel + 1) p (r.encode ++ bs) = parseRecords fuel (p.applyRecord r) bs := by
  rw [DumpRecord.encode, List.append_assoc, parseRecords]
  beta_reduce
  rw [readUvarint_encode]
  cases r with
  | params be ps hs he arch gv ncpu =>
    obtain ⟨-, harch, hgv⟩ := hr
    exact bind_apply_ok (wrapError_ok (parseParams_encode p harch hgv _))
  | type addr size name indirect =>
    exact bind_apply_ok (wrapError_ok (parseType_encode p hr _))
  | object addr contents fields =>
    exact bind_apply_ok (wrapError_ok (parseObject_encode p hps hr.1 hr.2 _))
  | otherRoot description pointer =>
    exact bind_apply_ok (wrapError_ok (parseOtherRoot_encode p hr _))

/-- With a turn to spare for the EOF record, the record loop reads a list of
well-formed records as the fold of `applyRecord`. -/
theorem parseRecords_encode (rest : List UInt8) :
    ∀ (rs : List DumpRecord) (p : Parser) (fuel : Nat), p.pointerSize.toNat < 2 ^ 62 →
      (∀ r ∈ rs, r.WellFormed) → rs.length < fuel →
      parseRecords fuel p (rs.flatMap DumpRecord.encode ++ (encodeUvarint 0 ++ rest)) =
        .ok (rs.foldl applyRecord p) rest
  | _, _, 0, _, _, h => absurd h (Nat.not_lt_zero _)
  | [], p, fuel + 1, _, _, _ => by
    rw [List.flatMap_nil, List.nil_append, parseRecords]
    beta_reduce
    rw [readUvarint_encode]
    rfl
  | r :: rs, p, fuel + 1, hps, hrs, hlen => by
    have hr := hrs r (List.mem_cons_self _ _)
    rw [List.flatMap_cons, List.append_assoc, parseRecords_step p hps hr]
    exact parseRecords_encode rest rs _ fuel (pointerSize_applyRecord hps hr)
      (fun r' h => hrs r' (List.mem_cons_of_mem _ h)) (by simpa using hlen)

theorem length_le_flatMap_encode (rs : List DumpRecord) :
    rs.length ≤ (rs.flatMap DumpRecord.encode).length := by
  induction rs with
  | nil => simp
  | cons r rs ih =>
    have := List.length_pos.2 (encodeUvarint_ne_nil r.tag)
    simp only [List.flatMap_cons, List.length_append, List.length_cons, DumpRecord.encode] at ih ⊢
    omega

/-- `parse` reads the header and then every record of a well-formed dump, and
stops at its EOF record, whatever follows. -/
theorem parse_encodeDump_append {rs : List DumpRecord} (hrs : ∀ r ∈ rs, r.WellFormed)
    (rest : List UInt8) :
    parse (encodeDump rs ++ rest) = .ok (rs.foldl applyRecord init).finalize rest := by
  have hlen := length_le_flatMap_encode rs
  have hfull : readFull 16 (headerBytes ++ (rs.flatMap DumpRecord.encode ++
      (encodeUvarint 0 ++ rest))) = .ok headerBytes _ := readFull_append headerBytes _
  simp only [encodeDump, List.append_assoc]
  rw [parse, bind_apply_ok (wrapError_ok hfull)]
  simp only [ne_eq, not_true_eq_false, if_false, pure_bind]
  rw [bind_apply_ok (show (get : Decoder (List UInt8)) _ = .ok _ _ from rfl),
    bind_apply_ok (parseRecords_encode rest rs init _ (by decide) hrs
      (by simp only [List.length_append]; omega))]
  rfl

theorem parse_encodeDump {rs : List DumpRecord} (hrs : ∀ r ∈ rs, r.WellFormed) :
    parse (encodeDump rs) = .ok (rs.foldl applyRecord init).finalize [] := by
  simpa using parse_encodeDump_append hrs []

/-! ## What the fold builds -/

@[simp]
theorem nextObjID_applyRecord (p : Parser) (r : DumpRecord) :
    (p.applyRecord r).nextObjID = p.nextObjID + r.contents?.toList.length := by
  cases r with
  | otherRoot _ pointer =>
    simp only [applyRecord, DumpRecord.contents?]
    cases p.addrToObjID pointer <;> rfl
  | _ => rfl

/-- An object record appends its object, under an id not yet used. -/
theorem objects_applyRecord {p : Parser} (h : p.nextObjID ∉ p.g.ids) (r : DumpRecord) :
    (p.applyRecord r).g.objects = p.g.objects ++ (r.contents?.map p.newObject).toList := by
  cases r with
  | object => exact MemGraph.objects_addObject_of_not_mem h
  | otherRoot _ pointer =>
    simp only [applyRecord, DumpRecord.contents?]
    cases p.addrToObjID pointer <;> simp
  | _ => simp [applyRecord, DumpRecord.contents?]

/-- What the records read so far leave in the parser: objects numbered 0, 1, ...
in order, none with a pointer, and every root and every address-map entry
naming one of them. -/
structure Numbered (p : Parser) : Prop where
  ids : p.g.ids = List.range p.nextObjID
  ptrs : ∀ o ∈ p.g.objects, o.ptrs = []
  roots : ∀ x ∈ p.roots, x < p.nextObjID
  addr : ∀ a x, p.addrToObjID a = some x → x < p.nextObjID

theorem Numbered.init : Numbered init where
  ids := rfl
  ptrs _ ho := absurd ho (List.not_mem_nil _)
  roots _ hx := absurd hx (List.not_mem_nil _)
  addr _ _ h := Option.noConfusion h

theorem Numbered.fresh {p : Parser} (h : Numbered p) : p.nextObjID ∉ p.g.ids := by
  simp [h.ids]

/-- Every record keeps the numbering. -/
theorem Numbered.applyRecord {p : Parser} (h : Numbered p) (r : DumpRecord) :
    Numbered (p.applyRecord r) := by
  have hobj := objects_applyRecord h.fresh r
  have hnext := nextObjID_applyRecord p r
  cases r with
  | object addr contents _ =>
    refine ⟨?_, ?_, fun x hx => Nat.lt_succ_of_lt (h.roots x hx), fun a x hx => ?_⟩
    · have hids : p.g.objects.map Object.id = List.range p.nextObjID := h.ids
      simp only [MemGraph.ids, hobj, hnext, List.map_append, hids]
      simp [List.range_succ, newObject, DumpRecord.contents?]
    · simp only [hobj, DumpRecord.contents?, Option.map_some', Option.toList_some,
        List.mem_append, List.mem_singleton]
      rintro o (ho | rfl)
      exact h.ptrs o ho
      rfl
    · dsimp only [Parser.applyRecord] at hx
      split at hx
      · cases hx
        exact Nat.lt_succ_self _
      · exact Nat.lt_succ_of_lt (h.addr a x hx)
  | otherRoot _ pointer =>
    simp only [Parser.applyRecord]
    cases hp : p.addrToObjID pointer with
    | none => exact h
    | some objID =>
      refine ⟨h.ids, h.ptrs, ?_, h.addr⟩
      simp only [List.mem_append, List.mem_singleton]
      rintro x (hx | rfl)
      exacts [h.roots x hx, h.addr _ _ hp]
  | params => exact ⟨h.ids, h.ptrs, h.roots, h.addr⟩
  | type => exact ⟨h.ids, h.ptrs, h.roots, h.addr⟩

theorem Numbered.foldl : ∀ (rs : List DumpRecord) {p : Parser}, Numbered p →
    Numbered (rs.foldl Parser.applyRecord p)
  | [], _, h => h
  | r :: rs, _, h => Numbered.foldl rs (h.applyRecord r)

/-- The fold numbers one object per object record. -/
theorem nextObjID_foldl : ∀ (rs : List DumpRecord) (p : Parser),
    (rs.foldl applyRecord p).nextObjID = p.nextObjID + (rs.filterMap DumpRecord.contents?).length
  | [], _ => rfl
  | r :: rs, p => by
    rw [List.foldl_cons, nextObjID_foldl rs, nextObjID_applyRecord]
    cases hc : r.contents? <;> simp [List.filterMap_cons, hc]
    ac_rfl

/-- The fold sizes each object by its record's contents, in record order. -/
theorem sizes_foldl : ∀ (rs : List DumpRecord) {p : Parser}, Numbered p →
    (rs.foldl applyRecord p).g.objects.map Object.size =
      p.g.objects.map Object.size ++
        (rs.filterMap DumpRecord.contents?).map (fun c => UInt64.ofNat c.length)
  | [], _, _ => by simp
  | r :: rs, p, h => by
    rw [List.foldl_cons, sizes_foldl rs (h.applyRecord r), objects_applyRecord h.fresh,
      List.filterMap_cons]
    cases r.contents? <;> simp [newObject]

end Parser

/-- `GoHeapParser.Parse` accepts every well-formed dump, with the graph the
fold of its records builds. -/
theorem goHeapParser_parse_encodeDump {rs : List DumpRecord} (hrs : ∀ r ∈ rs, r.WellFormed) :
    GoHeapParser.parse (encodeDump rs) = .ok (rs.foldl Parser.applyRecord Parser.init).finalize := by
  rw [GoHeapParser.parse, Parser.wrapError_ok (Parser.parse_encodeDump hrs)]

namespace Parser

/-- What the fold of a record list leaves to `finalize`: objects numbered 0, 1,
... in record order, sized by their records' contents, with no pointer, and
roots among them. -/
theorem finalize_foldl_numbered (rs : List DumpRecord) :
    let g := (rs.foldl applyRecord init).finalize
    g.ids = List.range (rs.filterMap DumpRecord.contents?).length ∧
      g.objects.map Object.size =
        (rs.filterMap DumpRecord.contents?).map (fun c => UInt64.ofNat c.length) ∧
      (∀ o ∈ g.objects, o.ptrs = []) ∧ ∀ x ∈ g.roots, x ∈ g.ids := by
  have h := Numbered.foldl rs Numbered.init
  have hn := nextObjID_foldl rs init
  refine ⟨?_, ?_, h.ptrs, fun x hx => ?_⟩
  · rw [finalize, MemGraph.ids, MemGraph.setRoots_objects, ← MemGraph.ids, h.ids, hn]
    exact congrArg List.range (Nat.zero_add _)
  · rw [finalize, MemGraph.setRoots_objects, sizes_foldl rs Numbered.init]
    rfl
  · rw [finalize, MemGraph.setRoots_roots] at hx
    rw [finalize, MemGraph.ids, MemGraph.setRoots_objects, ← MemGraph.ids, h.ids]
    exact List.mem_range.2 (h.roots x hx)

end Parser

/-- Every well-formed dump of Params, Type, Object and OtherRoot records parses
to a graph with no edges: its objects are
numbered 0, 1, ... in record order, each sized by its record's contents and with
no pointer, and its roots are among them. -/
theorem goHeapParser_parse_numbered {rs : List DumpRecord} (hrs : ∀ r ∈ rs, r.WellFormed) :
    ∃ g, GoHeapParser.parse (encodeDump rs) = .ok g ∧
      g.ids = List.range (rs.filterMap DumpRecord.contents?).length ∧
      g.objects.map Object.size =
        (rs.filterMap DumpRecord.contents?).map (fun c => UInt64.ofNat c.length) ∧
      (∀ o ∈ g.objects, o.ptrs = []) ∧ ∀ x ∈ g.roots, x ∈ g.ids :=
  ⟨_, goHeapParser_parse_encodeDump hrs, Parser.finalize_foldl_numbered rs⟩

/-- The records of scenario F. -/
def scenarioFRecords : List DumpRecord :=
  [.params 0 8 0 0 [] [] 0, .type 0x10 16 [0x54] 0,
    .object 0x20 [0x10, 0, 0, 0, 0, 0, 0, 0, 0x30, 0, 0, 0, 0, 0, 0, 0] [(1, 8)],
    .object 0x30 ([0x10] ++ List.replicate 15 0) [], .otherRoot [] 0x20]

theorem goHeapParser_parse_numbered_scenarioF :
    (∀ r ∈ scenarioFRecords, r.WellFormed) ∧
      ∃ g, GoHeapParser.parse (encodeDump scenarioFRecords) = .ok g ∧
        g.ids = List.range (scenarioFRecords.filterMap DumpRecord.contents?).length ∧
        g.objects.map Object.size =
          (scenarioFRecords.filterMap DumpRecord.contents?).map (fun c => UInt64.ofNat c.length) ∧
        (∀ o ∈ g.objects, o.ptrs = []) ∧ ∀ x ∈ g.roots, x ∈ g.ids :=
  ⟨by decide, goHeapParser_parse_numbered (by decide)⟩

example : encodeDump scenarioFRecords = scenarioF := by
  rfl

end HeapLens.Dump
