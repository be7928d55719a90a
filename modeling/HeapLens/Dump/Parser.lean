import HeapLens.Dump.Codec

/-!
# The graph-building parser

`heapdump/goheap/parser.go`: `GoHeapParser.Parse` reads the header, then
dispatches each record tag to a reader that either updates the graph under
construction or skips the record, and sets the roots when the stream ends.

The state keeps what later steps read.  The dump parameters that nothing reads
again (heap bounds, architecture, Go version, CPU count) are consumed but not
stored, and the statistics counters are left out.
-/

namespace HeapLens.Dump

open HeapLens.Graph

/-- `typeInfo`. -/
structure TypeInfo where
  address : UInt64
  size : UInt64
  name : GoString
  indirect : Bool

/-- The state of `parser`. -/
structure Parser where
  g : MemGraph
  types : UInt64 → Option TypeInfo
  addrToObjID : UInt64 → Option ObjID
  roots : List ObjID
  nextObjID : ObjID
  bigEndian : Bool
  pointerSize : UInt64

namespace Parser

/-- The parser that `GoHeapParser.Parse` starts from. -/
def init : Parser := ⟨MemGraph.empty, fun _ => none, fun _ => none, [], 0, false, 0⟩

/-- `finalize`: set the collected roots. -/
def finalize (p : Parser) : MemGraph := p.g.setRoots p.roots

/-- `parseParams`. -/
def parseParams (p : Parser) : Decoder Parser := do
  let bigEndian ← readVarint
  let pointerSize ← readVarint
  let _heapStart ← readVarint
  let _heapEnd ← readVarint
  let _arch ← readString
  let _goVersion ← readString
  let _numCPUs ← readVarint
  pure { p with bigEndian := bigEndian ≠ 0, pointerSize }

/-- `parseType`. -/
def parseType (p : Parser) : Decoder Parser := do
  let addr ← readVarint
  let size ← readVarint
  let name ← readString
  let indirect ← readVarint
  pure { p with types := fun a => if a = addr then some ⟨addr, size, name, indirect ≠ 0⟩
                                   else p.types a }

/-- The name `"unknown"`. -/
def unknownTypeName : GoString := [0x75, 0x6e, 0x6b, 0x6e, 0x6f, 0x77, 0x6e]

/-- `parseObject`.  The pointer values of the field list are read and then
dropped: the object is stored with an empty, non-nil `Ptrs` slice. -/
def parseObject (p : Parser) : Decoder Parser := do
  let addr ← readVarint
  let data ← readBytes
  let _pointers ← readPointerFields p.bigEndian p.pointerSize data
  let objID := p.nextObjID
  let typeAddr ← typeAddress p.bigEndian p.pointerSize data
  let typeName := match typeAddr.bind p.types with
    | some t => t.name
    | none => unknownTypeName
  let obj : Object := { id := objID, type := typeName, size := UInt64.ofNat data.length, ptrs := [] }
  pure { p with
    g := p.g.addObject obj
    nextObjID := objID + 1
    addrToObjID := fun a => if a = addr then some objID else p.addrToObjID a }

/-- `parseOtherRoot`: the pointer is resolved against the objects seen so far. -/
def parseOtherRoot (p : Parser) : Decoder Parser := do
  let _desc ← readString
  let ptr ← readVarint
  match p.addrToObjID ptr with
  | some objID => pure { p with roots := p.roots ++ [objID] }
  | none => pure p

/-- `parseGoroutine`: twelve varints and the wait reason. -/
def parseGoroutine : Decoder Unit := do
  skipVarints 12
  let _ ← readString

/-- `parseStackFrame`. -/
def parseStackFrame : Decoder Unit := do
  skipVarints 3
  let _ ← readBytes
  skipVarints 3
  let _ ← readString
  skipFields

/-- `parseMemStats`: eight varints. -/
def parseMemStats : Decoder Unit := skipVarints 8

/-- `skipItab`. -/
def skipItab : Decoder Unit := skipVarints 2

/-- `skipFinalizer`. -/
def skipFinalizer : Decoder Unit := skipVarints 5

/-- `skipDataSegment`. -/
def skipDataSegment : Decoder Unit := do
  let _ ← readVarint
  let _ ← readBytes
  skipFields

/-- `skipDeferPanic`: five varints. -/
def skipDeferPanic : Decoder Unit := skipVarints 5

/-- `skipOSThread`. -/
def skipOSThread : Decoder Unit := skipVarints 3

/-- The stack of a memory-profile record: `nstk` frames of two strings and a
line number. -/
def skipMemProfFrames : Nat → Decoder Unit
  | 0 => pure ()
  | n + 1 => do
    let _ ← readString
    let _ ← readString
    let _ ← readVarint
    skipMemProfFrames n

/-- `skipMemProf`. -/
def skipMemProf : Decoder Unit := do
  skipVarints 2
  let nstk ← readVarint
  skipMemProfFrames nstk.toNat
  skipVarints 2

/-- The record loop of `parse`; it ends at the EOF tag or at the end of the
stream, returning the parser to finalize. -/
def parseRecords : Nat → Parser → Decoder Parser
  | 0, _ => throw .outOfFuel
  | fuel + 1, p => fun bs =>
    match readUvarint bs with
    | (.error .eof, rest) => .ok p rest
    | (.error e, rest) => .error (.error (.wrap "reading tag" (.read e))) rest
    | (.ok tag, rest) =>
      let next (d : Decoder Parser) : EStateM.Result Fault (List UInt8) Parser :=
        (d >>= parseRecords fuel) rest
      match tag.toNat with
      | 0 => .ok p rest
      | 6 => next (wrapError "parsing params" (parseParams p))
      | 3 => next (wrapError "parsing type" (parseType p))
      | 1 => next (wrapError "parsing object" (parseObject p))
      | 2 => next (wrapError "parsing root" (parseOtherRoot p))
      | 4 => next (wrapError "parsing goroutine" (parseGoroutine *> pure p))
      | 5 => next (wrapError "parsing stack frame" (parseStackFrame *> pure p))
      | 10 => next (wrapError "parsing memstats" (parseMemStats *> pure p))
      | 8 => next (wrapError "skipping itab" (skipItab *> pure p))
      | 7 | 11 => next (wrapError "skipping finalizer" (skipFinalizer *> pure p))
      | 12 | 13 => next (wrapError "skipping data segment" (skipDataSegment *> pure p))
      | 14 | 15 => next (wrapError "skipping defer/panic" (skipDeferPanic *> pure p))
      | 9 => next (wrapError "skipping OS thread" (skipOSThread *> pure p))
      | 16 | 17 => next (wrapError "skipping mem prof" (skipMemProf *> pure p))
      | _ => .error (.error (.unknownTag tag)) rest

/-- `parse`: the header, then the records; every record reads its tag byte, so
the loop runs at most once per byte of the stream. -/
def parse : Decoder MemGraph := do
  let header ← wrapError "reading header" (readFull 16)
  if header ≠ headerBytes then throw (.error (.invalidHeader header))
  let bs ← get
  let p ← parseRecords (bs.length + 1) init
  pure p.finalize

end Parser

/-- `GoHeapParser.Parse` on the whole byte stream. -/
def GoHeapParser.parse (bs : List UInt8) : Except Fault MemGraph :=
  match wrapError "parsing heap dump" Parser.parse bs with
  | .ok g _ => .ok g
  | .error e _ => .error e

/-- The dump of the spec's binary round-trip scenario: little-endian 8-byte
pointers, a type `T` at `0x10`, two 16-byte objects at `0x20` and `0x30` whose
first word is the type address, the first pointing to the second through a
pointer field at offset 8, and a root pointing to the first. -/
def scenarioF : List UInt8 :=
  headerBytes ++
  [6, 0, 8, 0, 0, 0, 0, 0] ++
  [3, 0x10, 16, 1, 0x54, 0] ++
  [1, 0x20, 16, 0x10, 0, 0, 0, 0, 0, 0, 0, 0x30, 0, 0, 0, 0, 0, 0, 0, 1, 8, 0] ++
  [1, 0x30, 16, 0x10, 0, 0, 0, 0, 0, 0, 0, 0, 0, 0, 0, 0, 0, 0, 0, 0] ++
  [2, 0, 0x20] ++
  [0]

/-- On that dump the parser returns both objects with empty pointer lists: the
pointer from the first object to the second is lost. -/
theorem goHeapParser_parse_scenarioF :
    (GoHeapParser.parse scenarioF).toOption.map (fun g => (g.objects, g.roots)) =
      some ([{ id := 0, type := [0x54], size := 16, ptrs := [] },
        { id := 1, type := [0x54], size := 16, ptrs := [] }], [0]) := by
  rfl

/-- A dump whose Params record declares the pointer size `2^63`, followed by an
empty object. -/
def hugePointerSizeDump : List UInt8 :=
  headerBytes ++
  [6, 0, 0x80, 0x80, 0x80, 0x80, 0x80, 0x80, 0x80, 0x80, 0x80, 0x01, 0, 0, 0, 0, 0] ++
  [1, 1, 0, 0] ++
  [0]

/-- `int(2^63)` is negative, so the guard `len(data) >= int(p.pointerSize)` passes
and `data[:p.pointerSize]` panics. -/
theorem goHeapParser_parse_hugePointerSize :
    GoHeapParser.parse hugePointerSizeDump =
      .error (.panic "runtime error: slice bounds out of range") := by
  rfl

end HeapLens.Dump
