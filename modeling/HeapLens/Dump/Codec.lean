import HeapLens.Graph.Basic

/-!
# The byte codec of heap dumps

The readers shared by the dump parsers of `heapdump/goheap`: `binary.ReadUvarint`
over the buffered stream, the length-prefixed strings and byte slices with their
sanity caps, the pointer values embedded in object bytes, and the two Go
operations whose edge cases matter for safety: slicing a byte slice, which
panics when its bounds are out of range, and the conversion `int(x)` of a
`uint64`, which wraps to a negative `int` at `2^63`.

A `bufio.Reader` over a byte string delivers the same bytes however the
underlying reader splits them, so a decoder is a state transformer over the
remaining bytes.
-/

namespace HeapLens.Dump

open HeapLens.Graph

/-- The error values of the codec. -/
inductive ReadError
  /-- `io.EOF`: no byte was available. -/
  | eof
  /-- `io.ErrUnexpectedEOF`: the stream ended inside a value. -/
  | unexpectedEOF
  /-- `binary.ReadUvarint`'s overflow error. -/
  | overflow
  /-- `"string too long: %d"`. -/
  | stringTooLong (length : UInt64)
  /-- `"byte slice too long: %d"`. -/
  | bytesTooLong (length : UInt64)
deriving Repr, DecidableEq

/-- Go error values as the parsers build them. -/
inductive GoError
  | read (e : ReadError)
  /-- `fmt.Errorf("<context>: %w", inner)`. -/
  | wrap (context : String) (inner : GoError)
  /-- `"invalid header: %q"`. -/
  | invalidHeader (header : List UInt8)
  /-- `"unknown tag: %d"`. -/
  | unknownTag (tag : UInt64)
  /-- An error value returned by a caller-supplied callback. -/
  | callback (code : Nat)
  /-- `ErrNoParser`: `"no parser found for dump format"`. -/
  | noParser
  /-- An error of `encoding/json`. -/
  | json (code : Nat)
  /-- `"object at index %d missing ID"`. -/
  | missingID (index : Nat)
deriving Repr, DecidableEq

/-- How a Go call ends when it does not return normally. -/
inductive Fault
  | error (e : GoError)
  /-- A run-time panic, such as a slice expression out of range, or a fatal
  error of the runtime, such as running out of memory. -/
  | panic (message : String)
  /-- The iteration bound of a modelled loop was reached.  Every bound is
  chosen so that the source's loop has ended before it. -/
  | outOfFuel
deriving Repr, DecidableEq

/-- Decoders consume the remaining bytes of the stream.  A failed read keeps
the position it reached: the streaming parser resumes from there. -/
abbrev Decoder := EStateM Fault (List UInt8)

theorem bind_apply_ok {σ ε α β : Type} {x : EStateM ε σ α} {f : α → EStateM ε σ β} {s s' : σ}
    {a : α} (h : x s = .ok a s') : (x >>= f) s = f a s' := by
  show EStateM.bind x f s = _
  simp only [EStateM.bind, h]

theorem bind_apply_error {σ ε α β : Type} {x : EStateM ε σ α} {f : α → EStateM ε σ β} {s s' : σ}
    {e : ε} (h : x s = .error e s') : (x >>= f) s = .error e s' := by
  show EStateM.bind x f s = _
  simp only [EStateM.bind, h]

/-- Wrap a returned error with `fmt.Errorf("<context>: %w", err)`; panics pass
through unchanged. -/
def wrapError (context : String) {α : Type} (d : Decoder α) : Decoder α :=
  fun bs => match d bs with
    | .error (.error e) rest => .error (.error (.wrap context e)) rest
    | r => r

/-! ## Varints -/

/-- `binary.ReadUvarint` after `i` bytes with accumulated value `x`; `k` bounds
the remaining iterations of its loop over at most `MaxVarintLen64 = 10` bytes.
The bytes after the last one read are returned with the outcome. -/
def readUvarintAux : Nat → Nat → UInt64 → List UInt8 → Except ReadError UInt64 × List UInt8
  | 0, _, _, bs => (.error .overflow, bs)
  | _ + 1, i, _, [] => (.error (if 0 < i then .unexpectedEOF else .eof), [])
  | k + 1, i, x, b :: bs =>
    if b < 0x80 then
      if i = 9 ∧ 1 < b then (.error .overflow, bs)
      else (.ok (x ||| (b.toUInt64 <<< (7 * i).toUInt64)), bs)
    else readUvarintAux k (i + 1) (x ||| ((b &&& 0x7f).toUInt64 <<< (7 * i).toUInt64)) bs

/-- `binary.ReadUvarint`. -/
def readUvarint (bs : List UInt8) : Except ReadError UInt64 × List UInt8 :=
  readUvarintAux 10 0 0 bs

/-- `readVarint`. -/
def readVarint : Decoder UInt64 := fun bs =>
  match readUvarint bs with
  | (.ok v, rest) => .ok v rest
  | (.error e, rest) => .error (.error (.read e)) rest

/-- `io.ReadFull` of `n` bytes. -/
def readFull (n : Nat) : Decoder (List UInt8) := fun bs =>
  if n ≤ bs.length then .ok (bs.take n) (bs.drop n)
  else .error (.error (.read (if bs = [] then .eof else .unexpectedEOF))) []

/-- `readString`: a varint length of at most `1 << 20`, then that many bytes. -/
def readString : Decoder GoString := do
  let length ← readVarint
  if ((1 : UInt64) <<< 20) < length then throw (.error (.read (.stringTooLong length)))
  readFull length.toNat

/-- `readBytes`: a varint length of at most `1 << 30`, then that many bytes. -/
def readBytes : Decoder (List UInt8) := do
  let length ← readVarint
  if ((1 : UInt64) <<< 30) < length then throw (.error (.read (.bytesTooLong length)))
  readFull length.toNat

/-- Read `n` varints and drop them. -/
def skipVarints : Nat → Decoder Unit
  | 0 => pure ()
  | n + 1 => do
    let _ ← readVarint
    skipVarints n

/-- A field list `{kind, offset}*` ended by `kind = 0`, skipped; `fuel` bounds
its iterations. -/
def skipFieldsAux : Nat → Decoder Unit
  | 0 => throw .outOfFuel
  | fuel + 1 => do
    let kind ← readVarint
    if kind = 0 then return ()
    let _ ← readVarint
    skipFieldsAux fuel

/-- Skip a field list; each entry takes at least one byte. -/
def skipFields : Decoder Unit := do
  let bs ← get
  skipFieldsAux (bs.length + 1)

/-! ## Pointer values and Go slice semantics -/

/-- The little-endian value of a byte string. -/
def leValue : List UInt8 → Nat
  | [] => 0
  | b :: bs => b.toNat + 256 * leValue bs

/-- `binary.LittleEndian.Uint64` / `Uint32` (and `BigEndian` when `bigEndian`)
of a slice of exactly the decoded width; any other pointer size gives 0, as the
source's `if pointerSize == 8 … else if pointerSize == 4 …` leaves `ptr` zero. -/
def readPointer (bigEndian : Bool) (pointerSize : UInt64) (b : List UInt8) : UInt64 :=
  if pointerSize = 8 ∨ pointerSize = 4 then
    UInt64.ofNat (leValue (if bigEndian then b.reverse else b))
  else 0

/-- The Go slice expression `data[lo:hi]` on a slice whose capacity is its length:
it panics unless `lo ≤ hi ≤ len(data)`. -/
def goSlice (data : List UInt8) (lo hi : UInt64) : Except Fault (List UInt8) :=
  if lo ≤ hi ∧ hi.toNat ≤ data.length then pure ((data.drop lo.toNat).take (hi - lo).toNat)
  else throw (.panic "runtime error: slice bounds out of range")

/-- A computation that reads no byte, as a decoder. -/
def Decoder.ofExcept {α : Type} (x : Except Fault α) : Decoder α := fun bs =>
  match x with
  | .ok a => .ok a bs
  | .error e => .error e bs

/-- The conversion `int(x)` of a `uint64` on a 64-bit platform. -/
def goInt (x : UInt64) : Int :=
  if x.toNat < 2 ^ 63 then x.toNat else x.toNat - 2 ^ 64

/-! ## The record format -/

/-- The dump header `"go1.7 heap dump\n"`. -/
def headerBytes : List UInt8 :=
  [0x67, 0x6f, 0x31, 0x2e, 0x37, 0x20, 0x68, 0x65, 0x61, 0x70, 0x20, 0x64, 0x75, 0x6d, 0x70, 0x0a]

/-- `fieldKindEol`. -/
def fieldKindEol : UInt64 := 0

/-- `fieldKindPtr`. -/
def fieldKindPtr : UInt64 := 1

/-- The field loop of `parseObject`, identical in both parsers: for each
`fieldKindPtr` entry that passes the check `int(offset+pointerSize) <= len(data)`,
slice `data[offset : offset+pointerSize]` and keep the pointer read there when it
is not null. -/
def readPointerFieldsAux (bigEndian : Bool) (pointerSize : UInt64) (data : List UInt8) :
    Nat → List UInt64 → Decoder (List UInt64)
  | 0, _ => throw .outOfFuel
  | fuel + 1, pointers => do
    let kind ← readVarint
    if kind = fieldKindEol then return pointers
    let offset ← readVarint
    if kind = fieldKindPtr ∧ goInt (offset + pointerSize) ≤ data.length then
      let ptrData ← Decoder.ofExcept (goSlice data offset (offset + pointerSize))
      let ptr := readPointer bigEndian pointerSize ptrData
      readPointerFieldsAux bigEndian pointerSize data fuel
        (if ptr ≠ 0 then pointers ++ [ptr] else pointers)
    else readPointerFieldsAux bigEndian pointerSize data fuel pointers

/-- The pointer values of an object record's field list. -/
def readPointerFields (bigEndian : Bool) (pointerSize : UInt64) (data : List UInt8) :
    Decoder (List UInt64) := do
  let bs ← get
  readPointerFieldsAux bigEndian pointerSize data (bs.length + 1) []

/-- The type address stored in the first `pointerSize` bytes of an object, read
when the guard `len(data) >= int(pointerSize)` of both parsers holds. -/
def typeAddress (bigEndian : Bool) (pointerSize : UInt64) (data : List UInt8) :
    Decoder (Option UInt64) :=
  if goInt pointerSize ≤ data.length then do
    let typeAddrData ← Decoder.ofExcept (goSlice data 0 pointerSize)
    pure (some (readPointer bigEndian pointerSize typeAddrData))
  else pure none

end HeapLens.Dump
