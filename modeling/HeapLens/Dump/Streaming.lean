import HeapLens.Dump.Parser

/-!
# The streaming parser

`heapdump/goheap/streaming.go`: a single pass over the records that reports
each Params, Type, Object, OtherRoot and Goroutine record to a caller-supplied
callback, skips other tags by a heuristic, and on a recoverable failure calls
`OnError`, scans forward for a byte that could be a tag, and resumes.

A callback may keep state of its own, so what it returns is a function of the
calls made before it and of its arguments.  The parser's state records those
calls; a failed parse keeps them, so that what ran before the failure can be
stated.

The model is of callbacks whose `OnProgress` is nil.  When it is set, `Parse`
also calls it right after the header, when the loop ends at the end of the
stream, and from a goroutine on a 10 ms ticker until `Parse` returns.  The
ticker's calls fall between the parse's steps at times the code does not fix,
and a sequence of calls cannot hold them.
-/

namespace HeapLens.Dump

open HeapLens.Graph

/-- `DumpParams`. -/
structure DumpParams where
  bigEndian : Bool
  pointerSize : UInt64
  heapStart : UInt64
  heapEnd : UInt64
  arch : GoString
  goVersion : GoString
  numCPUs : UInt64
deriving Repr, DecidableEq

/-- The zero `DumpParams`. -/
def DumpParams.zero : DumpParams := ⟨false, 0, 0, 0, [], [], 0⟩

/-- A callback call of the streaming parser with its arguments. -/
inductive Event
  | params (params : DumpParams)
  | type (addr size : UInt64) (name : GoString) (indirect : Bool)
  | object (addr typeAddr : UInt64) (data : List UInt8) (ptrs : List UInt64)
  | root (desc : GoString) (ptr : UInt64)
  | goroutine (id status : UInt64) (waitReason : GoString)
  | error (err : GoError) (canRecover : Bool)
deriving Repr, DecidableEq

/-- The callbacks of `StreamCallbacks` other than `OnProgress`, which is nil. -/
inductive CallbackKind
  | onParams | onType | onObject | onRoot | onGoroutine | onError
deriving Repr, DecidableEq

/-- `StreamCallbacks` with `OnProgress` nil: which of the other callbacks are
set, and what a call returns given the calls before it. -/
structure StreamCallbacks where
  isSet : CallbackKind → Bool
  respond : List Event → Event → Option GoError

/-- `StreamingParser`; `trace` lists the callback calls made so far. -/
structure StreamingParser where
  callbacks : StreamCallbacks
  maxErrors : Int
  errorCount : Int
  skipOnError : Bool
  params : DumpParams
  trace : List Event

namespace StreamingParser

/-- `NewStreamingParser`: at most 100 errors, skipping on error. -/
def new (callbacks : StreamCallbacks) : StreamingParser :=
  ⟨callbacks, 100, 0, true, DumpParams.zero, []⟩

/-- `SetErrorRecovery`. -/
def setErrorRecovery (sp : StreamingParser) (maxErrors : Int) (skipOnError : Bool) :
    StreamingParser :=
  { sp with maxErrors, skipOnError }

end StreamingParser

/-- The streaming parser's computations: its state and the remaining bytes. -/
abbrev StreamM := EStateM Fault (StreamingParser × List UInt8)

namespace StreamingParser

/-- Run a decoder on the remaining bytes. -/
def lift {α : Type} (d : Decoder α) : StreamM α := fun (sp, bs) =>
  match d bs with
  | .ok a rest => .ok a (sp, rest)
  | .error e rest => .error e (sp, rest)

/-- The parser state. -/
def getParser : StreamM StreamingParser := fun s => .ok s.1 s

/-- Update the parser state. -/
def modifyParser (f : StreamingParser → StreamingParser) : StreamM Unit :=
  fun s => .ok () (f s.1, s.2)

/-- Call the callback `kind` with `event` if it is set; an unset callback is
not called and counts as returning nil. -/
def invoke (kind : CallbackKind) (event : Event) : StreamM (Option GoError) :=
  fun (sp, bs) =>
    if sp.callbacks.isSet kind then
      .ok (sp.callbacks.respond sp.trace event) ({ sp with trace := sp.trace ++ [event] }, bs)
    else .ok none (sp, bs)

/-- `return p.callbacks.OnX(...)`: a callback's error is the routine's error. -/
def callback (kind : CallbackKind) (event : Event) : StreamM Unit := do
  match ← invoke kind event with
  | some err => throw (.error err)
  | none => pure ()

/-- Run a record routine, turning its returned error into a value; panics pass. -/
def attempt (x : StreamM Unit) : StreamM (Option GoError) := fun s =>
  match x s with
  | .ok () s' => .ok none s'
  | .error (.error e) s' => .ok (some e) s'
  | .error f s' => .error f s'

/-- The scan of `seekToNextRecord`: read up to 1000 bytes until one is at most
`tagAllocSample = 17` and `Peek(10)` sees a byte after it.  The `UnreadByte`
that follows fails, because `bufio.Reader.Peek` invalidates the last read byte,
so the byte found stays consumed. -/
def seekAux : Nat → List UInt8 → List UInt8
  | 0, bs => bs
  | _ + 1, [] => []
  | n + 1, b :: bs => if b ≤ 17 ∧ bs ≠ [] then bs else seekAux n bs

/-- `seekToNextRecord`. -/
def seekToNextRecord : StreamM Unit := fun (sp, bs) => .ok () (sp, seekAux 1000 bs)

/-- `handleError`: count the error, report it to `OnError`, and decide whether
parsing continues. -/
def handleError (err : GoError) : StreamM Bool := do
  modifyParser fun sp => { sp with errorCount := sp.errorCount + 1 }
  let sp ← getParser
  if (← invoke .onError (.error err sp.skipOnError)).isSome then return false
  if sp.maxErrors < sp.errorCount then return false
  if sp.skipOnError then
    seekToNextRecord
    return true
  return false

/-- `skipUnknown`: five varints for a tag below 20, an error otherwise. -/
def skipUnknown (tag : UInt64) : StreamM Unit :=
  if tag < 20 then lift (skipVarints 5) else throw (.error (.unknownTag tag))

/-- `parseParams`. -/
def parseParams : StreamM Unit := do
  let bigEndian ← lift readVarint
  let pointerSize ← lift readVarint
  let heapStart ← lift readVarint
  let heapEnd ← lift readVarint
  let arch ← lift (wrapError "reading arch" readString)
  let goVersion ← lift (wrapError "reading go version" readString)
  let numCPUs ← lift readVarint
  let params : DumpParams := ⟨bigEndian ≠ 0, pointerSize, heapStart, heapEnd, arch, goVersion,
    numCPUs⟩
  modifyParser fun sp => { sp with params }
  callback .onParams (.params params)

/-- `parseType`. -/
def parseType : StreamM Unit := do
  let addr ← lift readVarint
  let size ← lift readVarint
  let name ← lift readString
  let indirect ← lift readVarint
  callback .onType (.type addr size name (indirect ≠ 0))

/-- `parseObject`: the type address from the first pointer-size bytes, then the
pointer values of the field list. -/
def parseObject : StreamM Unit := do
  let addr ← lift readVarint
  let data ← lift readBytes
  let params := (← getParser).params
  let typeAddr ← lift (typeAddress params.bigEndian params.pointerSize data)
  let pointers ← lift (readPointerFields params.bigEndian params.pointerSize data)
  callback .onObject (.object addr (typeAddr.getD 0) data pointers)

/-- `parseRoot`. -/
def parseRoot : StreamM Unit := do
  let desc ← lift readString
  let ptr ← lift readVarint
  callback .onRoot (.root desc ptr)

/-- `parseGoroutine`. -/
def parseGoroutine : StreamM Unit := do
  let _addr ← lift readVarint
  let _sp ← lift readVarint
  let id ← lift readVarint
  let status ← lift readVarint
  let _isSystem ← lift readVarint
  let _isBackground ← lift readVarint
  let _waitSince ← lift readVarint
  let waitReason ← lift readString
  lift (skipVarints 4)
  callback .onGoroutine (.goroutine id status waitReason)

/-- A record routine whose failure goes to `handleError`; if parsing cannot
continue, the routine's own error is returned. -/
def recoverable (context : String) (x : StreamM Unit) : StreamM Bool := do
  match ← attempt x with
  | none => pure true
  | some err => if ← handleError (.wrap context err) then pure true else throw (.error err)

/-- One record of the loop after its tag: `true` to continue, `false` when
`Parse` returns nil. -/
def record (tag : UInt64) : StreamM Bool :=
  match tag.toNat with
  | 0 => pure false
  | 6 => do
    match ← attempt parseParams with
    | some err => throw (.error (.wrap "parsing params" err))
    | none => pure true
  | 3 => do
    match ← attempt parseType with
    | none => pure true
    | some err =>
      let wrapped := GoError.wrap "parsing type" err
      if (← getParser).callbacks.isSet .onType then throw (.error wrapped)
      if ← handleError wrapped then pure true else throw (.error wrapped)
  | 1 => recoverable "parsing object" parseObject
  | 2 => recoverable "parsing root" parseRoot
  | 4 => recoverable "parsing goroutine" parseGoroutine
  | _ => recoverable ("skipping unknown tag " ++ toString tag) (skipUnknown tag)

/-- The record loop of `Parse`. -/
def parseLoop : Nat → StreamM Unit
  | 0 => throw .outOfFuel
  | fuel + 1 => fun (sp, bs) =>
    match readUvarint bs with
    | (.error .eof, rest) => .ok () (sp, rest)
    | (.error e, rest) =>
      match handleError (.wrap "reading tag" (.read e)) (sp, rest) with
      | .ok true s => parseLoop fuel s
      | .ok false s => .error (.error (.read e)) s
      | .error f s => .error f s
    | (.ok tag, rest) =>
      match record tag (sp, rest) with
      | .ok true s => parseLoop fuel s
      | .ok false s => .ok () s
      | .error f s => .error f s

/-- `Parse`: the header, then the record loop, which reads at least one byte
per iteration. -/
def parseAll : StreamM Unit := do
  let header ← lift (wrapError "reading header" (readFull 16))
  if header ≠ headerBytes then throw (.error (.invalidHeader header))
  let bs := (← get).2
  parseLoop (bs.length + 1)

/-- `Parse` on a whole byte stream: its result and the callback calls made. -/
def parse (sp : StreamingParser) (bs : List UInt8) : Except Fault Unit × List Event :=
  match parseAll (sp, bs) with
  | .ok () (sp', _) => (.ok (), sp'.trace)
  | .error e (sp', _) => (.error e, sp'.trace)

end StreamingParser

/-- Callbacks that are all set and all return nil; `OnProgress` is nil. -/
def nilCallbacks : StreamCallbacks := ⟨fun _ => true, fun _ _ => none⟩

/-- A well-formed dump: Params (little-endian, 8-byte pointers), a MemStats
record of 61 varints, one object, EOF. -/
def memStatsDump : List UInt8 :=
  headerBytes ++ [6, 0, 8, 0, 0, 0, 0, 0] ++ (10 :: List.replicate 61 0) ++
  [1, 0x20, 16, 0x10, 0, 0, 0, 0, 0, 0, 0, 0, 0, 0, 0, 0, 0, 0, 0, 0] ++ [0]

/-- `skipUnknown` reads 5 of the MemStats record's 61 varints; the sixth, a
zero, is read as the EOF tag, so `Parse` returns nil without calling
`OnObject` for the object that follows. -/
theorem streamingParser_parse_memStatsDump :
    StreamingParser.parse (StreamingParser.new nilCallbacks) memStatsDump =
      (.ok (), [.params ⟨false, 8, 0, 0, [], [], 0⟩]) := by
  rfl

/-- A dump whose object has a pointer field at offset `2^64 - 4`. -/
def wrappingOffsetDump : List UInt8 :=
  headerBytes ++ [6, 0, 8, 0, 0, 0, 0, 0] ++
  [1, 0x20, 8, 0, 0, 0, 0, 0, 0, 0, 0,
    1, 0xFC, 0xFF, 0xFF, 0xFF, 0xFF, 0xFF, 0xFF, 0xFF, 0xFF, 0x01, 0] ++ [0]

/-- `offset + pointerSize` wraps to 4, the check `int(4) <= 8` passes, and the
slice `data[2^64-4 : 4]` panics. -/
theorem streamingParser_parse_wrappingOffset :
    (StreamingParser.parse (StreamingParser.new nilCallbacks) wrappingOffsetDump).1 =
      .error (.panic "runtime error: slice bounds out of range") := by
  rfl

end HeapLens.Dump
