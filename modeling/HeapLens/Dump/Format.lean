import HeapLens.Dump.Records
import Mathlib.Tactic.Ring

/-!
# The dump format, and the codec against it

The heap-dump format from the writer's side: unsigned varints of 7 bits to a
byte, lowest group first, with the high bit set on every byte but the last;
strings and byte slices as a varint length followed by the bytes; field lists
of `{kind, offset}` pairs ended by the kind 0; and the records that
`GoHeapParser` builds its graph from, each a varint tag and its payload.  These
encoders follow the format's description, not the source.

Each reader of the codec accepts the encoding of a value and returns the value
with the bytes after it: the varint reader by induction over the 7-bit groups,
the length-prefixed readers within their caps, and the field loop of
`parseObject` on a field list whose pointer-field windows do not wrap.
`ExtractPointers` returns the same pointers from the same field list.
-/

namespace HeapLens.Dump

open HeapLens.Graph

/-! ## Encoders -/

/-- The varint of `n`: its 7-bit groups from the lowest, each byte but the last
with its high bit set; `k` bounds the number of groups. -/
def encodeUvarintAux : Nat → Nat → List UInt8
  | 0, _ => []
  | k + 1, n =>
    if n < 0x80 then [n.toUInt8]
    else (n % 0x80 + 0x80).toUInt8 :: encodeUvarintAux k (n / 0x80)

/-- The varint of a `uint64`, in at most ten bytes. -/
def encodeUvarint (v : UInt64) : List UInt8 := encodeUvarintAux 10 v.toNat

/-- A string or byte slice: its length as a varint, then its bytes. -/
def encodeString (s : List UInt8) : List UInt8 := encodeUvarint s.length.toUInt64 ++ s

/-- A field list: each `{kind, offset}` entry as two varints, then the kind 0. -/
def encodeFields (fields : List (UInt64 × UInt64)) : List UInt8 :=
  (fields.flatMap fun f => encodeUvarint f.1 ++ encodeUvarint f.2) ++ encodeUvarint 0

/-- The pointer values a field list names in an object's contents `data`: for
each pointer field whose window `data[offset : offset + pointerSize]` lies within
the contents, the value read there, unless it is null. -/
def fieldPointers (bigEndian : Bool) (pointerSize : UInt64) (data : List UInt8) :
    List (UInt64 × UInt64) → List UInt64
  | [] => []
  | (kind, offset) :: fields =>
    let rest := fieldPointers bigEndian pointerSize data fields
    if kind = fieldKindPtr ∧ offset.toNat + pointerSize.toNat ≤ data.length then
      let ptr := readPointer bigEndian pointerSize ((data.drop offset.toNat).take pointerSize.toNat)
      if ptr ≠ 0 then ptr :: rest else rest
    else rest

/-- The four record kinds that `GoHeapParser` builds the graph from, Params,
Type, Object and OtherRoot, with their payloads.  The dumps that the round-trip
theorems speak of are made of these; the other fourteen tags are not in it. -/
inductive DumpRecord
  | params (bigEndian pointerSize heapStart heapEnd : UInt64) (arch goVersion : GoString)
      (numCPUs : UInt64)
  | type (addr size : UInt64) (name : GoString) (indirect : UInt64)
  | object (addr : UInt64) (contents : List UInt8) (fields : List (UInt64 × UInt64))
  | otherRoot (description : GoString) (pointer : UInt64)

namespace DumpRecord

/-- The tag of a record. -/
def tag : DumpRecord → UInt64
  | params .. => 6
  | type .. => 3
  | object .. => 1
  | otherRoot .. => 2

/-- The payload of a record, after its tag. -/
def payload : DumpRecord → List UInt8
  | params bigEndian pointerSize heapStart heapEnd arch goVersion numCPUs =>
    encodeUvarint bigEndian ++ encodeUvarint pointerSize ++ encodeUvarint heapStart ++
      encodeUvarint heapEnd ++ encodeString arch ++ encodeString goVersion ++ encodeUvarint numCPUs
  | type addr size name indirect =>
    encodeUvarint addr ++ encodeUvarint size ++ encodeString name ++ encodeUvarint indirect
  | object addr contents fields => encodeUvarint addr ++ encodeString contents ++ encodeFields fields
  | otherRoot description pointer => encodeString description ++ encodeUvarint pointer

/-- A record: its tag, then its payload. -/
def encode (r : DumpRecord) : List UInt8 := encodeUvarint r.tag ++ r.payload

/-- What the parser needs of a record to read it back: strings within 1 MiB,
contents within 1 GiB, field kinds other than the terminator, and pointer sizes
and pointer-field offsets below 2^62, so that their sums stay below 2^63. -/
def WellFormed : DumpRecord → Prop
  | params _ pointerSize _ _ arch goVersion _ =>
    pointerSize.toNat < 2 ^ 62 ∧ arch.length ≤ 2 ^ 20 ∧ goVersion.length ≤ 2 ^ 20
  | type _ _ name _ => name.length ≤ 2 ^ 20
  | object _ contents fields =>
    contents.length ≤ 2 ^ 30 ∧ ∀ f ∈ fields, f.1 ≠ 0 ∧ (f.1 = 1 → f.2.toNat < 2 ^ 62)
  | otherRoot description _ => description.length ≤ 2 ^ 20

instance : DecidablePred WellFormed := fun r => by
  cases r <;> unfold WellFormed <;> infer_instance

end DumpRecord

/-- A dump: the header, the records, then the EOF record. -/
def encodeDump (records : List DumpRecord) : List UInt8 :=
  headerBytes ++ records.flatMap DumpRecord.encode ++ encodeUvarint 0

theorem encodeUvarintAux_ne_nil (k n : Nat) : encodeUvarintAux (k + 1) n ≠ [] := by
  unfold encodeUvarintAux
  split <;> simp

theorem encodeUvarint_ne_nil (v : UInt64) : encodeUvarint v ≠ [] :=
  encodeUvarintAux_ne_nil 9 _

theorem length_le_encodeFields (fields : List (UInt64 × UInt64)) :
    fields.length ≤ (encodeFields fields).length := by
  induction fields with
  | nil => simp
  | cons f fields ih =>
    have := List.length_pos.2 (encodeUvarint_ne_nil f.1)
    simp only [encodeFields, List.flatMap_cons, List.length_append, List.length_cons] at ih ⊢
    omega

/-! ## `uint64` bit arithmetic -/

theorem toNat_or_uint64 (x y : UInt64) : (x ||| y).toNat = x.toNat ||| y.toNat := by
  show (x.toBitVec ||| y.toBitVec).toNat = _
  rw [BitVec.toNat_or]
  rfl

theorem toNat_shiftLeft_uint64 (x y : UInt64) :
    (x <<< y).toNat = (x.toNat <<< (y.toNat % 64)) % 2 ^ 64 := by
  show (x.toBitVec <<< (y % 64).toBitVec).toNat = _
  rw [BitVec.shiftLeft_eq', BitVec.toNat_shiftLeft]
  rfl

theorem toNat_and_0x7f (b : UInt8) : (b &&& 0x7f).toNat = b.toNat % 128 := by
  show (b.toBitVec &&& (0x7f : UInt8).toBitVec).toNat = _
  rw [BitVec.toNat_and]
  show b.toNat &&& (2 ^ 7 - 1) = _
  rw [Nat.and_pow_two_sub_one_eq_mod]

theorem toNat_toUInt8 {n : Nat} (h : n < 256) : n.toUInt8.toNat = n := by
  show (BitVec.ofNat 8 n).toNat = n
  rw [BitVec.toNat_ofNat]
  exact Nat.mod_eq_of_lt h

theorem toNat_toUInt64 {n : Nat} (h : n < 2 ^ 64) : n.toUInt64.toNat = n := by
  show (UInt64.ofNat n).toNat = n
  rw [toNat_ofNat_uint64, Nat.mod_eq_of_lt h]

/-- A value below `2^a` plus a multiple of `2^a` below `2^b` stays below `2^b`. -/
theorem add_mul_two_pow_lt {x n a b : Nat} (hx : x < 2 ^ a) (hn : n * 2 ^ a < 2 ^ b)
    (hab : a ≤ b) : x + n * 2 ^ a < 2 ^ b := by
  have hb : 2 ^ b = 2 ^ (b - a) * 2 ^ a := by rw [← Nat.pow_add, Nat.sub_add_cancel hab]
  rw [hb] at hn ⊢
  have := Nat.mul_le_mul_right (2 ^ a) (Nat.lt_of_mul_lt_mul_right hn)
  rw [Nat.succ_mul] at this
  omega

/-- OR-ing a group in above the bits read so far adds it. -/
theorem toNat_or_shiftLeft (x y : UInt64) {c i : Nat} (hy : y.toNat = c) (hi : i ≤ 9)
    (hx : x.toNat < 2 ^ (7 * i)) (hc : c * 2 ^ (7 * i) < 2 ^ 64) :
    (x ||| (y <<< (7 * i).toUInt64)).toNat = x.toNat + c * 2 ^ (7 * i) := by
  rw [toNat_or_uint64, toNat_shiftLeft_uint64, hy,
    show (7 * i).toUInt64 = UInt64.ofNat (7 * i) from rfl, toNat_ofNat_uint64,
    Nat.mod_eq_of_lt (show 7 * i < 2 ^ 64 by omega), Nat.mod_eq_of_lt (show 7 * i < 64 by omega),
    Nat.shiftLeft_eq, Nat.mod_eq_of_lt hc, Nat.mul_comm c, Nat.or_comm, ← Nat.mul_add_lt_is_or hx]
  omega

theorem goInt_of_lt {x : UInt64} (h : x.toNat < 2 ^ 63) : goInt x = x.toNat := by
  rw [goInt, if_pos h]

/-- Below `2^63` in sum, the pointer-size window at `offset` has the bounds Go computes. -/
theorem toNat_add_of_lt {a b : UInt64} (ha : a.toNat < 2 ^ 62) (hb : b.toNat < 2 ^ 62) :
    (a + b).toNat = a.toNat + b.toNat := by
  rw [toNat_add_uint64, Nat.mod_eq_of_lt (by omega)]

/-- A slice whose bounds are in order and within `data` is the window between them. -/
theorem goSlice_of_le {data : List UInt8} {lo hi : UInt64} (hlo : lo ≤ hi)
    (hhi : hi.toNat ≤ data.length) :
    goSlice data lo hi = .ok ((data.drop lo.toNat).take (hi.toNat - lo.toNat)) := by
  rw [goSlice, if_pos ⟨hlo, hhi⟩, UInt64.toNat_sub_of_le _ _ hlo]
  rfl

/-! ## Decoders on encodings -/

theorem ofExcept_ok {α : Type} (a : α) (bs : List UInt8) :
    Decoder.ofExcept (.ok a) bs = .ok a bs := rfl

/-- The last byte of a varint is its group, below `0x80`. -/
theorem lastByte {n : Nat} (h : n < 0x80) :
    n.toUInt8 < 0x80 ∧ n.toUInt8.toUInt64.toNat = n := by
  have hb : n.toUInt8.toNat = n := toNat_toUInt8 (by omega)
  exact ⟨show n.toUInt8.toNat < 128 by omega, hb⟩

/-- Every other byte is its group with the high bit set. -/
theorem continuationByte (n : Nat) :
    ¬ (n % 0x80 + 0x80).toUInt8 < 0x80 ∧
      ((n % 0x80 + 0x80).toUInt8 &&& 0x7f).toUInt64.toNat = n % 0x80 := by
  have hb : (n % 0x80 + 0x80).toUInt8.toNat = n % 128 + 128 := toNat_toUInt8 (by omega)
  refine ⟨show ¬ (n % 0x80 + 0x80).toUInt8.toNat < 128 by omega, ?_⟩
  show ((n % 0x80 + 0x80).toUInt8 &&& 0x7f).toNat = _
  rw [toNat_and_0x7f, hb]
  omega

/-- The tenth group of a `uint64` is 0 or 1. -/
theorem le_one_of_tenth_group {n : Nat} (hn : n * 2 ^ (7 * 9) < 2 ^ 64) : n ≤ 1 := by
  by_contra h
  have : 2 * 2 ^ (7 * 9) ≤ n * 2 ^ (7 * 9) := Nat.mul_le_mul_right _ (by omega)
  omega

/-- The varint reader from the `i`-th group, with the bits `x` read so far,
returns the value of the groups of `n` placed above them. -/
theorem readUvarintAux_encode (rest : List UInt8) : ∀ k i (x : UInt64) (n : Nat), i + k = 10 → i ≤ 9 →
    x.toNat < 2 ^ (7 * i) → n * 2 ^ (7 * i) < 2 ^ 64 →
    readUvarintAux k i x (encodeUvarintAux k n ++ rest) =
      (.ok (UInt64.ofNat (x.toNat + n * 2 ^ (7 * i))), rest)
  | 0, _, _, _, h, hi, _, _ => by omega
  | k + 1, i, x, n, hk, hi, hx, hn => by
    have h9 : i = 9 → n ≤ 1 := by
      rintro rfl
      exact le_one_of_tenth_group hn
    by_cases hsmall : n < 0x80
    · -- the last group
      obtain ⟨hlt, hb⟩ := lastByte hsmall
      have hover : ¬ (i = 9 ∧ 1 < n.toUInt8) := fun ⟨h, h1⟩ => by
        have : 1 < n.toUInt8.toUInt64.toNat := h1
        have := h9 h
        omega
      simp only [encodeUvarintAux, if_pos hsmall, List.singleton_append, readUvarintAux, hlt,
        if_true, hover, if_false]
      congr 2
      apply UInt64.toNat.inj
      rw [toNat_or_shiftLeft x _ hb hi hx hn, toNat_ofNat_uint64,
        Nat.mod_eq_of_lt (add_mul_two_pow_lt hx hn (by omega))]
    · -- a continuation group, then the groups of `n / 0x80` one place up
      obtain ⟨hnlt, hlow⟩ := continuationByte n
      have hi8 : i ≤ 8 := by
        by_contra h
        have := h9 (by omega)
        omega
      have hP : 2 ^ (7 * (i + 1)) = 2 ^ (7 * i) * 128 := by rw [Nat.mul_succ, Nat.pow_add]
      have hx' := toNat_or_shiftLeft x _ hlow hi hx
        (lt_of_le_of_lt (Nat.mul_le_mul_right _ (Nat.mod_le n 128)) hn)
      have hbelow : (x ||| ((n % 0x80 + 0x80).toUInt8 &&& 0x7f).toUInt64 <<< (7 * i).toUInt64).toNat <
          2 ^ (7 * (i + 1)) := by
        have := Nat.mul_le_mul_right (2 ^ (7 * i)) (show n % 128 ≤ 127 by omega)
        rw [hx', hP]
        omega
      have hrest : n / 0x80 * 2 ^ (7 * (i + 1)) < 2 ^ 64 :=
        calc n / 0x80 * 2 ^ (7 * (i + 1)) = n / 128 * 128 * 2 ^ (7 * i) := by rw [hP]; ring
          _ ≤ n * 2 ^ (7 * i) := Nat.mul_le_mul_right _ (Nat.div_mul_le_self n 128)
          _ < 2 ^ 64 := hn
      simp only [encodeUvarintAux, if_neg hsmall, List.cons_append, readUvarintAux, hnlt, if_false]
      rw [readUvarintAux_encode rest k (i + 1) _ (n / 0x80) (by omega) (by omega) hbelow hrest,
        hx', hP]
      congr 3
      conv_rhs => rw [← Nat.mod_add_div n 128]
      ring

theorem readUvarint_encode (v : UInt64) (rest : List UInt8) :
    readUvarint (encodeUvarint v ++ rest) = (.ok v, rest) := by
  have hv := v.toNat_lt_size
  rw [readUvarint, encodeUvarint, readUvarintAux_encode rest 10 0 0 v.toNat rfl (by omega)
    (by decide) (by simpa using hv)]
  congr 2
  apply UInt64.toNat.inj
  simp [toNat_ofNat_uint64, Nat.mod_eq_of_lt hv]

@[simp] theorem readVarint_encode (v : UInt64) (rest : List UInt8) :
    readVarint (encodeUvarint v ++ rest) = .ok v rest := by
  simp [readVarint, readUvarint_encode]

@[simp] theorem readFull_append (s rest : List UInt8) :
    readFull s.length (s ++ rest) = .ok s rest := by
  simp [readFull]

/-- The length-prefixed read of `readString` and `readBytes`, with its cap:
it accepts the encoding of a string within the cap and returns the string. -/
theorem readPrefixed_encode (cap : UInt64) (tooLong : UInt64 → ReadError) {s : List UInt8}
    (hs : s.length ≤ cap.toNat) (rest : List UInt8) :
    (do
      let length ← readVarint
      if cap < length then throw (Fault.error (.read (tooLong length)))
      readFull length.toNat : Decoder (List UInt8)) (encodeString s ++ rest) = .ok s rest := by
  have hlen : s.length < 2 ^ 64 := lt_of_le_of_lt hs cap.toNat_lt_size
  have hcap : ¬ cap < s.length.toUInt64 := by
    show ¬ cap.toNat < s.length.toUInt64.toNat
    rw [toNat_toUInt64 hlen]
    omega
  rw [encodeString, List.append_assoc, bind_apply_ok (readVarint_encode _ _)]
  simp [hcap, toNat_toUInt64 hlen]

theorem readString_encode {s : List UInt8} (hs : s.length ≤ 2 ^ 20) (rest : List UInt8) :
    readString (encodeString s ++ rest) = .ok s rest :=
  readPrefixed_encode ((1 : UInt64) <<< 20) ReadError.stringTooLong (le_of_le_of_eq hs rfl) rest

theorem readBytes_encode {s : List UInt8} (hs : s.length ≤ 2 ^ 30) (rest : List UInt8) :
    readBytes (encodeString s ++ rest) = .ok s rest :=
  readPrefixed_encode ((1 : UInt64) <<< 30) ReadError.bytesTooLong (le_of_le_of_eq hs rfl) rest

/-! The readers as the first step of a decoder, for `simp`. -/

@[simp] theorem readVarint_bind {β : Type} (v : UInt64) (f : UInt64 → Decoder β)
    (rest : List UInt8) : (readVarint >>= f) (encodeUvarint v ++ rest) = f v rest :=
  bind_apply_ok (readVarint_encode v rest)

theorem readString_bind {β : Type} {s : List UInt8} (hs : s.length ≤ 2 ^ 20)
    (f : GoString → Decoder β) (rest : List UInt8) :
    (readString >>= f) (encodeString s ++ rest) = f s rest :=
  bind_apply_ok (readString_encode hs rest)

theorem readBytes_bind {β : Type} {s : List UInt8} (hs : s.length ≤ 2 ^ 30)
    (f : List UInt8 → Decoder β) (rest : List UInt8) :
    (readBytes >>= f) (encodeString s ++ rest) = f s rest :=
  bind_apply_ok (readBytes_encode hs rest)

/-- Below `2^62`, the window `data[offset : offset + pointerSize]` passes Go's
bound check `int(offset+pointerSize) <= len(data)` exactly when it lies within
`data`, and is then the bytes there. -/
theorem window_of_lt {offset pointerSize : UInt64} (ho : offset.toNat < 2 ^ 62)
    (hps : pointerSize.toNat < 2 ^ 62) (data : List UInt8) :
    (goInt (offset + pointerSize) ≤ data.length ↔ offset.toNat + pointerSize.toNat ≤ data.length) ∧
      (offset.toNat + pointerSize.toNat ≤ data.length →
        goSlice data offset (offset + pointerSize) =
          .ok ((data.drop offset.toNat).take pointerSize.toNat)) := by
  have hsum := toNat_add_of_lt ho hps
  refine ⟨?_, fun hin => ?_⟩
  · rw [goInt_of_lt (by omega), hsum]
    exact Int.ofNat_le
  · rw [goSlice_of_le (by show offset.toNat ≤ (offset + pointerSize).toNat; omega)
      (by rw [hsum]; exact hin), hsum, Nat.add_sub_cancel_left]

/-- The field loop of `parseObject` reads a field list whose kinds are not the
terminator and whose pointer-field windows do not wrap, with enough fuel, and
adds the pointers it names. -/
theorem readPointerFieldsAux_encode (bigEndian : Bool) {pointerSize : UInt64} (data : List UInt8)
    (hps : pointerSize.toNat < 2 ^ 62) (rest : List UInt8) :
    ∀ (fields : List (UInt64 × UInt64)) (fuel : Nat) (pointers : List UInt64),
      fields.length < fuel → (∀ f ∈ fields, f.1 ≠ 0 ∧ (f.1 = 1 → f.2.toNat < 2 ^ 62)) →
      readPointerFieldsAux bigEndian pointerSize data fuel pointers (encodeFields fields ++ rest) =
        .ok (pointers ++ fieldPointers bigEndian pointerSize data fields) rest
  | _, 0, _, h, _ => absurd h (Nat.not_lt_zero _)
  | [], fuel + 1, pointers, _, _ => by
      rw [readPointerFieldsAux, encodeFields, List.flatMap_nil, List.nil_append,
        bind_apply_ok (readVarint_encode _ _), fieldPointers, List.append_nil]
      rfl
  | (kind, offset) :: fields, fuel + 1, pointers, hlen, hf => by
    obtain ⟨hkind, hoff⟩ : kind ≠ 0 ∧ (kind = 1 → offset.toNat < 2 ^ 62) :=
      hf _ (List.mem_cons_self _ _)
    have ih := readPointerFieldsAux_encode bigEndian data hps rest fields fuel
    have hf' := fun f hf'' => hf f (List.mem_cons_of_mem _ hf'')
    have hlen' : fields.length < fuel := by simpa using hlen
    rw [readPointerFieldsAux, encodeFields, List.flatMap_cons]
    simp only [List.append_assoc]
    rw [bind_apply_ok (readVarint_encode _ _)]
    simp only [fieldKindEol, hkind, if_false, pure_bind]
    rw [bind_apply_ok (readVarint_encode _ _), show ((fields.flatMap fun f => encodeUvarint f.1 ++
      encodeUvarint f.2) ++ (encodeUvarint 0 ++ rest)) = encodeFields fields ++ rest by
        simp [encodeFields], fieldPointers]
    by_cases hk1 : kind = fieldKindPtr
    · obtain ⟨hcond, hslice⟩ := window_of_lt (hoff hk1) hps data
      by_cases hin : offset.toNat + pointerSize.toNat ≤ data.length
      · rw [if_pos ⟨hk1, hcond.2 hin⟩, if_pos ⟨hk1, hin⟩, hslice hin, bind_apply_ok (ofExcept_ok _ _),
          ih _ hlen' hf']
        by_cases hp : readPointer bigEndian pointerSize
          ((data.drop offset.toNat).take pointerSize.toNat) = 0 <;> simp [hp]
      · rw [if_neg fun h => hin (hcond.1 h.2), if_neg fun h => hin h.2, ih _ hlen' hf']
    · rw [if_neg fun h => hk1 h.1, if_neg fun h => hk1 h.1, ih _ hlen' hf']

theorem readPointerFields_encode (bigEndian : Bool) {pointerSize : UInt64} (data : List UInt8)
    (hps : pointerSize.toNat < 2 ^ 62) {fields : List (UInt64 × UInt64)}
    (hf : ∀ f ∈ fields, f.1 ≠ 0 ∧ (f.1 = 1 → f.2.toNat < 2 ^ 62)) (rest : List UInt8) :
    readPointerFields bigEndian pointerSize data (encodeFields fields ++ rest) =
      .ok (fieldPointers bigEndian pointerSize data fields) rest := by
  have := length_le_encodeFields fields
  rw [readPointerFields, bind_apply_ok (show (get : Decoder (List UInt8)) (encodeFields fields ++ rest) =
    .ok (encodeFields fields ++ rest) (encodeFields fields ++ rest) from rfl)]
  exact readPointerFieldsAux_encode bigEndian data hps rest fields _ [] (by simp; omega) hf

theorem fieldPointers_cons (bigEndian : Bool) (pointerSize : UInt64) (data : List UInt8)
    (f : UInt64 × UInt64) (fields : List (UInt64 × UInt64)) :
    fieldPointers bigEndian pointerSize data (f :: fields) =
      fieldPointers bigEndian pointerSize data [f] ++ fieldPointers bigEndian pointerSize data fields := by
  simp only [fieldPointers]
  split_ifs <;> simp

/-- One turn of `ExtractPointers` appends what its field names. -/
theorem extractPointersStep_eq (bigEndian : Bool) {pointerSize : UInt64}
    (hps : pointerSize.toNat < 2 ^ 62) (data : List UInt8) (pointers : List UInt64)
    {field : PointerField} (hoff : field.kind = fieldKindPtr → field.offset.toNat < 2 ^ 62) :
    extractPointersStep data pointerSize bigEndian pointers field =
      .ok (pointers ++ fieldPointers bigEndian pointerSize data [(field.kind, field.offset)]) := by
  unfold extractPointersStep
  simp only [fieldPointers]
  by_cases hk : field.kind = fieldKindPtr
  · obtain ⟨hcond, hslice⟩ := window_of_lt (hoff hk) hps data
    by_cases hin : field.offset.toNat + pointerSize.toNat ≤ data.length
    · have hfit : ¬ (data.length : Int) < goInt (field.offset + pointerSize) :=
        not_lt.2 (hcond.2 hin)
      by_cases hp : readPointer bigEndian pointerSize
          ((data.drop field.offset.toNat).take pointerSize.toNat) = 0 <;>
        simp [hk, hfit, hslice hin, hin, hp]
    · have hout : (data.length : Int) < goInt (field.offset + pointerSize) :=
        not_le.1 (mt hcond.1 hin)
      simp [hk, hout, hin]
      rfl
  · simp [hk]
    rfl

/-- `ExtractPointers` returns the pointers that the field list names on every
object whose pointer-field offsets are below `2^62`: it neither panics nor drops
a pointer.  The field loop of `parseObject` reads the same pointers back from
the list's encoding, when no field has the terminating kind. -/
theorem extractPointers_eq_fieldPointers (bigEndian : Bool) {pointerSize : UInt64}
    (hps : pointerSize.toNat < 2 ^ 62) (data : List UInt8) (fields : List PointerField)
    (hoff : ∀ f ∈ fields, f.kind = fieldKindPtr → f.offset.toNat < 2 ^ 62) :
    extractPointers data fields pointerSize bigEndian =
        .ok (fieldPointers bigEndian pointerSize data (fields.map fun f => (f.kind, f.offset))) ∧
      ((∀ f ∈ fields, f.kind ≠ fieldKindEol) → ∀ rest,
        readPointerFields bigEndian pointerSize data
            (encodeFields (fields.map fun f => (f.kind, f.offset)) ++ rest) =
          .ok (fieldPointers bigEndian pointerSize data (fields.map fun f => (f.kind, f.offset)))
            rest) := by
  refine ⟨?_, fun hkind rest => readPointerFields_encode bigEndian data hps ?_ rest⟩
  · suffices h : ∀ acc, fields.foldlM (extractPointersStep data pointerSize bigEndian) acc =
        .ok (acc ++ fieldPointers bigEndian pointerSize data (fields.map fun f => (f.kind, f.offset)))
      from h []
    induction fields with
    | nil =>
      intro acc
      rw [List.map_nil, fieldPointers, List.append_nil]
      rfl
    | cons f fields ih =>
      intro acc
      rw [List.map_cons, fieldPointers_cons, ← List.append_assoc, List.foldlM_cons,
        extractPointersStep_eq bigEndian hps data acc (hoff f (List.mem_cons_self _ _))]
      exact ih (fun f' hf' => hoff f' (List.mem_cons_of_mem _ hf')) _
  · simp only [List.mem_map]
    rintro _ ⟨f, hf, rfl⟩
    exact ⟨hkind f hf, hoff f hf⟩

/-- The contents of scenario F's first object, whose word at offset 8 is `0x30`. -/
def firstObjectData : List UInt8 := [0x10, 0, 0, 0, 0, 0, 0, 0, 0x30, 0, 0, 0, 0, 0, 0, 0]

theorem extractPointers_eq_fieldPointers_firstObject :
    ((8 : UInt64).toNat < 2 ^ 62 ∧
      ∀ f ∈ [(⟨1, 8⟩ : PointerField)], f.kind = fieldKindPtr → f.offset.toNat < 2 ^ 62) ∧
    extractPointers firstObjectData [⟨1, 8⟩] 8 false =
        .ok (fieldPointers false 8 firstObjectData ([(⟨1, 8⟩ : PointerField)].map
          fun f => (f.kind, f.offset))) ∧
      ((∀ f ∈ [(⟨1, 8⟩ : PointerField)], f.kind ≠ fieldKindEol) → ∀ rest,
        readPointerFields false 8 firstObjectData
            (encodeFields ([(⟨1, 8⟩ : PointerField)].map fun f => (f.kind, f.offset)) ++ rest) =
          .ok (fieldPointers false 8 firstObjectData ([(⟨1, 8⟩ : PointerField)].map
            fun f => (f.kind, f.offset))) rest) :=
  ⟨⟨by decide, by decide⟩, extractPointers_eq_fieldPointers false (by decide) _ _ (by decide)⟩

/-- The type address of an object: the first `pointerSize` bytes, when there
are that many. -/
theorem typeAddress_eq (bigEndian : Bool) {pointerSize : UInt64}
    (hps : pointerSize.toNat < 2 ^ 63) (data bs : List UInt8) :
    typeAddress bigEndian pointerSize data bs =
      .ok (if pointerSize.toNat ≤ data.length then
        some (readPointer bigEndian pointerSize (data.take pointerSize.toNat)) else none) bs := by
  unfold typeAddress
  rw [goInt_of_lt hps]
  by_cases h : pointerSize.toNat ≤ data.length
  · have hslice : goSlice data 0 pointerSize = .ok (data.take pointerSize.toNat) := by
      rw [goSlice_of_le (by show (0 : UInt64).toNat ≤ pointerSize.toNat; simp) h]
      simp
    rw [if_pos (by exact_mod_cast h), if_pos h, hslice, bind_apply_ok (ofExcept_ok _ _)]
    rfl
  · rw [if_neg (by exact_mod_cast h), if_neg h]
    rfl

end HeapLens.Dump
