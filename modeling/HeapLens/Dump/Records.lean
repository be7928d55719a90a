import HeapLens.Dump.Parser

/-!
# Full record readers

`heapdump/goheap/records.go` reads every record kind in full.  These readers
are the layouts the core parser's skip routines must agree with: a skip
routine that reads fewer or more bytes than the record holds makes the record
loop read the rest of the record as the next tag.

`make([]MemProfFrame, nstk)` in `parseMemProfFull` is the one allocation whose
size the stream picks without a bound.  It panics beyond the runtime's
`maxAlloc`, and beyond the room the runtime can still obtain, which is a
parameter, the process stops with out of memory.
-/

namespace HeapLens.Dump

open HeapLens.Graph

/-- `Finalizer`. -/
structure Finalizer where
  object : UInt64
  function : UInt64
  funcVal : UInt64
  funcType : UInt64
  objType : UInt64

/-- `Itab`. -/
structure Itab where
  interface : UInt64
  type : UInt64

/-- `PointerField`. -/
structure PointerField where
  kind : UInt64
  offset : UInt64

/-- `StackFrame`. -/
structure StackFrame where
  sp : UInt64
  depth : UInt64
  childSP : UInt64
  data : List UInt8
  entryPC : UInt64
  pc : UInt64
  contPC : UInt64
  name : GoString
  pointers : List PointerField

/-- `OSThread`. -/
structure OSThread where
  id : UInt64
  osThreadID : UInt64
  goID : UInt64

/-- `MemProfFrame`. -/
structure MemProfFrame where
  function : GoString
  file : GoString
  line : UInt64

/-- `MemProfRecord`. -/
structure MemProfRecord where
  bucketID : UInt64
  size : UInt64
  allocs : UInt64
  frees : UInt64
  stack : List MemProfFrame

/-- `DataSegment`. -/
structure DataSegment where
  address : UInt64
  data : List UInt8
  pointers : List PointerField

/-- `DeferRecord`. -/
structure DeferRecord where
  address : UInt64
  gp : UInt64
  argp : UInt64
  pc : UInt64
  fn : UInt64
  fnEntry : UInt64
  link : UInt64

/-- `PanicRecord`. -/
structure PanicRecord where
  address : UInt64
  gp : UInt64
  typ : UInt64
  data : UInt64
  «defer» : UInt64
  link : UInt64

/-- `GoroutineFull`. -/
structure GoroutineFull where
  address : UInt64
  stackTop : UInt64
  id : UInt64
  status : UInt64
  isSystem : Bool
  isBackground : Bool
  waitSince : UInt64
  waitReason : GoString
  ctxtAddr : UInt64
  mAddr : UInt64
  deferAddr : UInt64
  panicAddr : UInt64

/-- The twelve fields of `MemStatsFull` that `parseMemStatsFull` assigns. -/
structure MemStatsFull where
  alloc : UInt64
  totalAlloc : UInt64
  sys : UInt64
  lookups : UInt64
  mallocs : UInt64
  frees : UInt64
  heapAlloc : UInt64
  heapSys : UInt64
  heapIdle : UInt64
  heapInuse : UInt64
  heapReleased : UInt64
  heapObjects : UInt64

/-- `AllocSample`. -/
structure AllocSample where
  address : UInt64
  profile : UInt64
  size : UInt64
  numAlloc : UInt64
  numFree : UInt64

namespace Parser

/-- The field-list loop of the full readers, collecting `{kind, offset}` pairs. -/
def readPointerFieldListAux : Nat → List PointerField → Decoder (List PointerField)
  | 0, _ => throw .outOfFuel
  | fuel + 1, fields => do
    let kind ← readVarint
    if kind = fieldKindEol then return fields
    let offset ← readVarint
    readPointerFieldListAux fuel (fields ++ [⟨kind, offset⟩])

/-- A field list read in full. -/
def readPointerFieldList : Decoder (List PointerField) := do
  let bs ← get
  readPointerFieldListAux (bs.length + 1) []

/-- `parseFinalizerFull` (tags 7 and 11). -/
def parseFinalizerFull : Decoder Finalizer :=
  return ⟨← readVarint, ← readVarint, ← readVarint, ← readVarint, ← readVarint⟩

/-- `parseItabFull`. -/
def parseItabFull : Decoder Itab :=
  return ⟨← readVarint, ← readVarint⟩

/-- `parseStackFrameFull`. -/
def parseStackFrameFull : Decoder StackFrame :=
  return ⟨← readVarint, ← readVarint, ← readVarint, ← readBytes, ← readVarint, ← readVarint,
    ← readVarint, ← readString, ← readPointerFieldList⟩

/-- `parseOSThreadFull`. -/
def parseOSThreadFull : Decoder OSThread :=
  return ⟨← readVarint, ← readVarint, ← readVarint⟩

/-- The stack frames of `parseMemProfFull`. -/
def readMemProfFrames : Nat → Decoder (List MemProfFrame)
  | 0 => pure []
  | n + 1 => do
    let frame : MemProfFrame := ⟨← readString, ← readString, ← readVarint⟩
    return frame :: (← readMemProfFrames n)

/-- `maxAlloc` of the Go runtime on 64-bit platforms with 48-bit heap addresses,
such as linux/amd64: the most bytes one allocation may ask for. -/
def maxAlloc : Nat := 2 ^ 48

/-- `make([]T, n)` for a `T` of `elemSize` bytes, when the runtime can still
obtain `heapRoom` bytes.  Beyond `maxAlloc` the length is out of range and
`makeslice` panics; beyond the room left the runtime stops the process. -/
def makeSlice (heapRoom elemSize : Nat) (n : UInt64) : Decoder Unit :=
  if maxAlloc < elemSize * n.toNat then throw (.panic "runtime error: makeslice: len out of range")
  else if heapRoom < elemSize * n.toNat then throw (.panic "fatal error: runtime: out of memory")
  else pure ()

/-- `parseMemProfFull`; a `MemProfFrame` is two strings and a `uint64`, 40 bytes. -/
def parseMemProfFull (heapRoom : Nat) : Decoder MemProfRecord := do
  let bucketID ← readVarint
  let size ← readVarint
  let nstk ← readVarint
  makeSlice heapRoom 40 nstk
  let stack ← readMemProfFrames nstk.toNat
  let allocs ← readVarint
  let frees ← readVarint
  return ⟨bucketID, size, allocs, frees, stack⟩

/-- `parseDataSegmentFull` (tags 12 and 13). -/
def parseDataSegmentFull : Decoder DataSegment :=
  return ⟨← readVarint, ← readBytes, ← readPointerFieldList⟩

/-- `parseDeferFull`: seven varints. -/
def parseDeferFull : Decoder DeferRecord :=
  return ⟨← readVarint, ← readVarint, ← readVarint, ← readVarint, ← readVarint, ← readVarint,
    ← readVarint⟩

/-- `parsePanicFull`: six varints. -/
def parsePanicFull : Decoder PanicRecord :=
  return ⟨← readVarint, ← readVarint, ← readVarint, ← readVarint, ← readVarint, ← readVarint⟩

/-- `parseGoroutineFull`: seven varints, the wait reason, four varints. -/
def parseGoroutineFull : Decoder GoroutineFull :=
  return ⟨← readVarint, ← readVarint, ← readVarint, ← readVarint, (← readVarint) ≠ 0,
    (← readVarint) ≠ 0, ← readVarint, ← readString, ← readVarint, ← readVarint, ← readVarint,
    ← readVarint⟩

/-- `parseMemStatsFull`: twelve named fields, then 49 more varints. -/
def parseMemStatsFull : Decoder MemStatsFull := do
  let ms : MemStatsFull := ⟨← readVarint, ← readVarint, ← readVarint, ← readVarint,
    ← readVarint, ← readVarint, ← readVarint, ← readVarint, ← readVarint, ← readVarint,
    ← readVarint, ← readVarint⟩
  skipVarints 49
  return ms

/-- `parseAllocSampleFull`: five varints. -/
def parseAllocSampleFull : Decoder AllocSample :=
  return ⟨← readVarint, ← readVarint, ← readVarint, ← readVarint, ← readVarint⟩

end Parser

/-- One turn of the loop of `ExtractPointers`. -/
def extractPointersStep (data : List UInt8) (pointerSize : UInt64) (bigEndian : Bool)
    (pointers : List UInt64) (field : PointerField) : Except Fault (List UInt64) := do
  if field.kind ≠ fieldKindPtr then return pointers
  if (data.length : Int) < goInt (field.offset + pointerSize) then return pointers
  let ptrData ← goSlice data field.offset (field.offset + pointerSize)
  let ptr := readPointer bigEndian pointerSize ptrData
  return if ptr ≠ 0 then pointers ++ [ptr] else pointers

/-- `ExtractPointers`: the non-null pointer values at the `fieldKindPtr` offsets
that pass the check `int(field.Offset+pointerSize) <= len(data)`. -/
def extractPointers (data : List UInt8) (fields : List PointerField) (pointerSize : UInt64)
    (bigEndian : Bool) : Except Fault (List UInt64) :=
  fields.foldlM (extractPointersStep data pointerSize bigEndian) []

/-- A pointer field whose offset `2^64 - 4` wraps `offset + 8` around to 4. -/
def wrappingField : PointerField := ⟨1, 0xFFFFFFFFFFFFFFFC⟩

/-- The wrapped sum passes the bound check, and the slice `data[2^64-4 : 4]`
panics. -/
theorem extractPointers_wrappingField :
    extractPointers (List.replicate 8 0) [wrappingField] 8 false =
      .error (.panic "runtime error: slice bounds out of range") := by
  rfl

/-- The bytes a decoder consumes on `bs`, when it returns normally. -/
def consumed {α : Type} (d : Decoder α) (bs : List UInt8) : Option Nat :=
  match d bs with
  | .ok _ rest => some (bs.length - rest.length)
  | .error _ _ => none

/-- A MemStats record body in the full layout: 61 varints, here all zero. -/
def memStatsRecord : List UInt8 := List.replicate 61 0

/-- On a MemStats body that `parseMemStatsFull` reads in full, the routine the
record loop dispatches tag 10 to, `parseMemStats`, stops after 8 of its 61
bytes. -/
theorem parseMemStats_consumed_ne_full :
    consumed Parser.parseMemStatsFull memStatsRecord = some 61 ∧
      consumed Parser.parseMemStats memStatsRecord = some 8 := by
  constructor <;> rfl

/-! ## The skip routines against the full layouts -/

namespace Parser

theorem skipFieldsAux_eq_readPointerFieldListAux (fuel : Nat) (fields : List PointerField) :
    skipFieldsAux fuel = (readPointerFieldListAux fuel fields *> pure ()) := by
  induction fuel generalizing fields with
  | zero => rfl
  | succ fuel ih =>
    simp only [seqRight_eq_bind] at ih
    simp only [skipFieldsAux, readPointerFieldListAux, seqRight_eq_bind, bind_assoc, fieldKindEol]
    congr 1
    funext kind
    split
    · simp only [pure_bind]
    · simp only [pure_bind, bind_assoc, ← ih]

theorem skipFields_eq_readPointerFieldList : skipFields = (readPointerFieldList *> pure ()) := by
  simp only [skipFields, readPointerFieldList, seqRight_eq_bind, bind_assoc,
    skipFieldsAux_eq_readPointerFieldListAux _ []]

theorem skipMemProfFrames_eq_readMemProfFrames (n : Nat) :
    skipMemProfFrames n = (readMemProfFrames n *> pure ()) := by
  induction n with
  | zero => simp [skipMemProfFrames, readMemProfFrames, seqRight_eq_bind]
  | succ n ih => simp [skipMemProfFrames, readMemProfFrames, seqRight_eq_bind, ih]

theorem makeSlice_of_le {heapRoom elemSize : Nat} {n : UInt64}
    (h : elemSize * n.toNat ≤ min maxAlloc heapRoom) : makeSlice heapRoom elemSize n = pure () := by
  rw [makeSlice, if_neg (by omega), if_neg (by omega)]

theorem makeSlice_of_lt {heapRoom elemSize : Nat} {n : UInt64}
    (h : min maxAlloc heapRoom < elemSize * n.toNat) :
    ∃ msg, makeSlice heapRoom elemSize n = throw (.panic msg) := by
  unfold makeSlice
  split
  · exact ⟨_, rfl⟩
  · rw [if_pos (by omega)]
    exact ⟨_, rfl⟩

/-- Both memory-profile readers read the bucket id, the size and the frame
count, and differ only by the allocation that follows in `parseMemProfFull`. -/
theorem skipMemProf_eq_bind :
    skipMemProf = (skipVarints 2 *> readVarint) >>= fun nstk =>
      skipMemProfFrames nstk.toNat >>= fun _ => skipVarints 2 := by
  simp [skipMemProf, seqRight_eq_bind]

theorem parseMemProfFull_eq_bind (heapRoom : Nat) :
    (parseMemProfFull heapRoom *> pure ()) = (skipVarints 2 *> readVarint) >>= fun nstk =>
      makeSlice heapRoom 40 nstk >>= fun _ => skipMemProfFrames nstk.toNat >>= fun _ =>
        skipVarints 2 := by
  simp [parseMemProfFull, skipVarints, seqRight_eq_bind, skipMemProfFrames_eq_readMemProfFrames]

/-- The record loop skips Itab, Finalizer, OS thread, data segment and stack
frame records by reading exactly their full layouts: on every byte string each
routine fails where the full reader fails, with the same error, and otherwise
stops where it stops.  A memory-profile record is skipped the same way wherever
the full reader's `make([]MemProfFrame, nstk)` fits below `maxAlloc` and in the
room the runtime has; where it does not fit, the full reader stops right after
the frame count with a panic, and `skipMemProf` reads on. -/
theorem skipRoutines_eq_fullReaders (heapRoom : Nat) :
    skipItab = (parseItabFull *> pure ()) ∧ skipFinalizer = (parseFinalizerFull *> pure ()) ∧
      skipOSThread = (parseOSThreadFull *> pure ()) ∧
      skipDataSegment = (parseDataSegmentFull *> pure ()) ∧
      parseStackFrame = (parseStackFrameFull *> pure ()) ∧
      (∀ bs, (∀ nstk rest, (skipVarints 2 *> readVarint) bs = .ok nstk rest →
          40 * nstk.toNat ≤ min maxAlloc heapRoom) →
        skipMemProf bs = (parseMemProfFull heapRoom *> pure ()) bs) ∧
      ∀ bs nstk rest, (skipVarints 2 *> readVarint) bs = .ok nstk rest →
        min maxAlloc heapRoom < 40 * nstk.toNat →
        ∃ msg, (parseMemProfFull heapRoom *> pure ()) bs = .error (.panic msg) rest := by
  refine ⟨?_, ?_, ?_, ?_, ?_, fun bs hfit => ?_, fun bs nstk rest hc hbig => ?_⟩
  iterate 5 simp [skipItab, parseItabFull, skipFinalizer, parseFinalizerFull, skipOSThread,
    parseOSThreadFull, skipDataSegment, parseDataSegmentFull, parseStackFrame,
    parseStackFrameFull, skipVarints, seqRight_eq_bind, skipFields_eq_readPointerFieldList]
  · rw [skipMemProf_eq_bind, parseMemProfFull_eq_bind]
    cases hc : (skipVarints 2 *> readVarint) bs with
    | ok nstk rest => rw [bind_apply_ok hc, bind_apply_ok hc, makeSlice_of_le (hfit nstk rest hc),
        pure_bind]
    | error e rest => rw [bind_apply_error hc, bind_apply_error hc]
  · obtain ⟨msg, hm⟩ := makeSlice_of_lt hbig
    exact ⟨msg, by rw [parseMemProfFull_eq_bind, bind_apply_ok hc, hm]; rfl⟩

/-- The other skips do not: `skipDeferPanic` reads five varints of a Defer
record's seven (and of a Panic record's six), `parseGoroutine` twelve varints
before the wait reason where the layout has seven, and tag 17 goes to
`skipMemProf`, which reads an AllocSample's third varint as a frame count. -/
example : consumed parseDeferFull (List.replicate 7 0) = some 7 ∧
    consumed skipDeferPanic (List.replicate 7 0) = some 5 ∧
    consumed parseGoroutineFull (List.replicate 12 0) = some 12 ∧
    consumed parseGoroutine (List.replicate 12 0) = none := ⟨rfl, rfl, rfl, rfl⟩

end Parser

end HeapLens.Dump
