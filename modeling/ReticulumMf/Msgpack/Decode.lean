-- SUMMARY: The MessagePack decoder for values of no fixed type, and the syntax it consumes.
import ReticulumMf.Lib.ByteReader
import ReticulumMf.Lib.MsgpackFormat
import ReticulumMf.Msgpack.Value

/-!
# The decoder

`DecodeInterface` and `DecodeInterfaceLoose` over a `bytes.Reader`, with the
loose flag set (so that array elements are read loosely), no interned strings
and no extension types but the timestamp. Maps are read by the map decoder that
the caller installs.

`decodeInterface_local` states what a successful decoding has consumed: the
bytes of one well-formed syntax tree, whatever follows them.
-/

namespace Msgpack

open ByteReader

inductive DecodeError where
  | oversizedArray (n remain : Nat)
  | oversizedMap (n remain : Nat)
  | oversizedBytes (n remain : Nat)
  | unknownCode (c : UInt8)
  | arrayCode (c : UInt8)
  | mapCode (c : UInt8)
  | bytesCode (c : UInt8)
  | extCode (c : UInt8)
  | depth (limit : Nat)
  | unknownExt (id : UInt8)
  | timeLen (extLen : Nat)
  | internedIndex (idx : Nat)
  | internedLen (extLen : Nat)
  | mapNesting (maxDepth : Nat)
  | mapTooLarge (n : Nat)
  | mapKey
  | boolCode (c : UInt8)
  | uintCode (c : UInt8)
  | floatNotUint (bits : BitVec 64)
  | intCode (c : UInt8)
  | floatNotInt (bits : BitVec 64)
  | arrayStruct
  | outOfFuel
  deriving DecidableEq, Repr

/-- The two nesting counters: `depth` of the decoder itself, and `mapDepth` of
the context of the installed map decoder. -/
structure Levels where
  depth : Nat
  mapDepth : Nat
  deriving DecidableEq, Repr

abbrev Decoder := Reader DecodeError Levels

/-! ## Lengths -/

def readCode : Decoder Code := Code.ofByte <$> readByte

/-- `uint8`, `uint16`, `uint32` and `uint64`, by width in bytes. -/
def readUint (w : Nat) : Decoder Nat := BigEndian.decode <$> readN w

def rejectOversizedBytes (n : Nat) : Decoder Unit := require n (.oversizedBytes n)

/-- The comparison `n > remain / minBytes` of the source, multiplied out. -/
def rejectOversizedContainer (minBytes : Nat) (e : Nat → Nat → DecodeError) (n : Nat) :
    Decoder Unit :=
  require (n * minBytes) (e n)

/-- A length of `w` bytes, checked before it is used. -/
def sizedLen (w : Nat) (reject : Nat → Decoder Unit) : Decoder Nat := do
  let n ← readUint w
  reject n
  return n

/-- The length of a string or byte slice; none stands for the -1 of a nil. -/
def bytesLen (c : Code) : Decoder (Option Nat) :=
  match c with
  | .nil => return none
  | .fixedStr n => do
    rejectOversizedBytes n.val
    return some n.val
  | .str8 | .bin8 => some <$> sizedLen 1 rejectOversizedBytes
  | .str16 | .bin16 => some <$> sizedLen 2 rejectOversizedBytes
  | .str32 | .bin32 => some <$> sizedLen 4 rejectOversizedBytes
  | c => fail (.bytesCode c.toByte)

/-- The length of an array; none stands for the -1 of a nil. -/
def arrayLen (c : Code) : Decoder (Option Nat) :=
  let reject := rejectOversizedContainer 1 .oversizedArray
  match c with
  | .nil => return none
  | .fixedArray n => do
    reject n.val
    return some n.val
  | .array16 => some <$> sizedLen 2 reject
  | .array32 => some <$> sizedLen 4 reject
  | c => fail (.arrayCode c.toByte)

def decodeArrayLen : Decoder (Option Nat) := readCode >>= arrayLen

def mapLen (c : Code) : Decoder (Option Nat) :=
  let reject := rejectOversizedContainer 2 .oversizedMap
  match c with
  | .nil => return none
  | .fixedMap n => do
    reject n.val
    return some n.val
  | .map16 => some <$> sizedLen 2 reject
  | .map32 => some <$> sizedLen 4 reject
  | c => fail (.mapCode c.toByte)

def extHeaderLen : Code → Nat
  | .ext8 => 1
  | .ext16 => 2
  | .ext32 => 4
  | _ => 0

def skipExtHeader (c : Code) : Decoder Unit := do
  let _ ← readByte
  iterate (fun _ => do let _ ← readByte) (extHeaderLen c) ()

def Code.isExt : Code → Bool
  | .fixExt1 | .fixExt2 | .fixExt4 | .fixExt8 | .fixExt16 | .ext8 | .ext16 | .ext32 => Bool.true
  | _ => Bool.false

def decodeMapLen : Decoder (Option Nat) := do
  let c ← readCode
  if c.isExt then
    skipExtHeader c
    readCode >>= mapLen
  else mapLen c

/-! ## Leaves -/

/-- The `float64` of a `float32`, on bit patterns. A NaN becomes quiet. -/
def float64OfFloat32 (b : BitVec 32) : BitVec 64 :=
  let sign := b.toNat / 2 ^ 31
  let exp := b.toNat / 2 ^ 23 % 2 ^ 8
  let frac := b.toNat % 2 ^ 23
  let magnitude :=
    if exp = 0xff then
      0x7ff * 2 ^ 52 + (if frac = 0 then 0 else 2 ^ 51 + frac % 2 ^ 22 * 2 ^ 29)
    else if exp ≠ 0 then (exp + 896) * 2 ^ 52 + frac * 2 ^ 29
    else if frac = 0 then 0
    else
      -- a subnormal is `frac * 2^-149`; its leading bit becomes implicit
      let l := Nat.log2 frac
      (l + 874) * 2 ^ 52 + (frac - 2 ^ l) * 2 ^ (52 - l)
  BitVec.ofNat 64 (sign * 2 ^ 63 + magnitude)

/-- The integer of type `k`; the loose decoder widens it. -/
def integer (loose : Bool) (k : IntKind) (v : BitVec k.width) : Scalar :=
  if loose then
    if k.signed then .int .int64 (v.signExtend 64) else .int .uint64 (v.setWidth 64)
  else .int k v

def decodeInteger (loose : Bool) (k : IntKind) : Decoder Any := do
  let n ← readUint (k.width / 8)
  return .scalar (integer loose k (BitVec.ofNat k.width n))

def decodeString (c : Code) : Decoder Any := do
  match ← bytesLen c with
  | none => return .scalar (.string [])
  | some n => return .scalar (.string (← readN n))

def decodeBytes (c : Code) : Decoder Any := do
  match ← bytesLen c with
  | none => return .typedNil .bytes
  | some n => return .bytes (← readN n)

def parseExtLen (c : Code) : Decoder Nat :=
  match c with
  | .fixExt1 => return 1
  | .fixExt2 => return 2
  | .fixExt4 => return 4
  | .fixExt8 => return 8
  | .fixExt16 => return 16
  | .ext8 => sizedLen 1 rejectOversizedBytes
  | .ext16 => sizedLen 2 rejectOversizedBytes
  | .ext32 => sizedLen 4 rejectOversizedBytes
  | c => fail (.extCode c.toByte)

/-- `time.Unix`, for a non-negative number of nanoseconds. -/
def timeUnix (sec : BitVec 64) (nsec : Nat) : Scalar :=
  .time (sec + BitVec.ofNat 64 (nsec / 10 ^ 9)) (nsec % 10 ^ 9)

def decodeTime (extLen : Nat) : Decoder Any := do
  let b ← readN extLen
  match b.length with
  | 4 => return .scalar (timeUnix (BitVec.ofNat 64 (BigEndian.decode b)) 0)
  | 8 =>
    let data := BigEndian.decode b
    return .scalar (timeUnix (BitVec.ofNat 64 (data % 2 ^ 34)) (data / 2 ^ 34))
  | 12 =>
    return .scalar (timeUnix (BitVec.ofNat 64 (BigEndian.decode (b.drop 4)))
      (BigEndian.decode (b.take 4)))
  | _ => fail (.timeLen extLen)

/-- The extension type -128 of an interned string, as the byte on the wire. -/
def internedStringExtID : UInt8 := 0x80

/-- An interned string: the dictionary is empty, so every index is out of range. -/
def decodeInternedString (extLen : Nat) : Decoder Any :=
  match extLen with
  | 1 | 2 | 4 => do
    let idx ← readUint extLen
    fail (.internedIndex idx)
  | _ => fail (.internedLen extLen)

def decodeInterfaceExt (c : Code) : Decoder Any := do
  let extLen ← parseExtLen c
  let extID ← readByte
  if extID = timeExtID then decodeTime extLen
  else if extID = internedStringExtID then decodeInternedString extLen
  else fail (.unknownExt extID)

/-- The codes of `DecodeInterface` and `DecodeInterfaceLoose` that head neither
an array nor a map. -/
def decodeLeaf (loose : Bool) (c : Code) : Decoder Any :=
  match c with
  | .posFixedNum n => return .scalar (integer loose .int8 (BitVec.ofNat 8 n.val))
  | .negFixedNum n => return .scalar (integer loose .int8 (BitVec.ofNat 8 (0xe0 + n.val)))
  | .nil => return .scalar .nil
  | .false => return .scalar (.bool Bool.false)
  | .true => return .scalar (.bool Bool.true)
  | .float => do
    let bits := BitVec.ofNat 32 (← readUint 4)
    return .scalar (if loose then .float64 (float64OfFloat32 bits) else .float32 bits)
  | .double => return .scalar (.float64 (BitVec.ofNat 64 (← readUint 8)))
  | .uint8 => decodeInteger loose .uint8
  | .uint16 => decodeInteger loose .uint16
  | .uint32 => decodeInteger loose .uint32
  | .uint64 => decodeInteger loose .uint64
  | .int8 => decodeInteger loose .int8
  | .int16 => decodeInteger loose .int16
  | .int32 => decodeInteger loose .int32
  | .int64 => decodeInteger loose .int64
  | .bin8 | .bin16 | .bin32 => if loose then decodeString c else decodeBytes c
  | .fixedStr _ | .str8 | .str16 | .str32 => decodeString c
  | .fixExt1 | .fixExt2 | .fixExt4 | .fixExt8 | .fixExt16 | .ext8 | .ext16 | .ext32 =>
    decodeInterfaceExt c
  | c => fail (.unknownCode c.toByte)

/-! ## Values -/

def defaultDecodeDepthLimit : Nat := 10000

def enterDepth (l : Levels) : Except DecodeError Levels :=
  if l.depth + 1 > defaultDecodeDepthLimit then .error (.depth defaultDecodeDepthLimit)
  else .ok { l with depth := l.depth + 1 }

def leaveDepth (l : Levels) : Levels := { l with depth := l.depth - 1 }

def decodeInterfaceCond (decodeLoose : Decoder Any) : Decoder Any :=
  within enterDepth leaveDepth decodeLoose

def decodeSlice (decodeElem : Decoder Any) (c : Code) : Decoder Any := do
  match ← arrayLen c with
  | none => return .typedNil .slice
  | some n => .slice <$> iterate (fun s => return s ++ [← decodeElem]) n []

/-- `DecodeInterface`, or `DecodeInterfaceLoose` if `loose` is set. The fuel
bounds the nesting; the installed map decoder reads keys and values with
`DecodeInterface`. -/
def decodeInterface (mapDecoder : Decoder Any → Decoder Any) : Nat → Bool → Decoder Any
  | 0, _ => fail .outOfFuel
  | fuel + 1, loose => do
    let c ← readCode
    match c with
    | .fixedMap _ | .map16 | .map32 =>
      unreadByte c.toByte >>= fun _ => mapDecoder (decodeInterface mapDecoder fuel Bool.false)
    | .fixedArray _ | .array16 | .array32 =>
      decodeSlice (decodeInterfaceCond (decodeInterface mapDecoder fuel Bool.true)) c
    | c => decodeLeaf loose c

/-! ## What is consumed -/

/-- The bytes of one well-formed value. -/
def IsValue (b : Bytes) : Prop := ∃ t : WireTree, t.WF ∧ b = t.flatten

/-- The bytes of `n` well-formed values in a row. -/
def AreValues (n : Nat) (b : Bytes) : Prop :=
  ∃ ts : List WireTree, WireTree.AllWF ts ∧ ts.length = n ∧ b = WireTree.flattenAll ts

/-- The bytes of a leaf after its code. -/
def IsLeafRest (c : Code) (b : Bytes) : Prop :=
  ∃ body : Bytes, WireTree.Sized c .false body.length ∧
    b = WireTree.lengthBytes c body.length ++ body

theorem IsLeafRest.isValue {c : Code} {b : Bytes} (h : IsLeafRest c b) :
    IsValue (c.toByte :: b) := by
  obtain ⟨body, hsized, rfl⟩ := h
  exact ⟨.leaf c body, hsized, rfl⟩

theorem AreValues.length_le {n : Nat} {b : Bytes} (h : AreValues n b) : n ≤ b.length := by
  obtain ⟨ts, -, rfl, rfl⟩ := h
  exact WireTree.length_le_flattenAll ts

theorem AreValues.zero : AreValues 0 [] := ⟨[], trivial, rfl, rfl⟩

theorem AreValues.append {m n : Nat} {b b' : Bytes} (h : AreValues m b) (h' : AreValues n b') :
    AreValues (m + n) (b ++ b') := by
  obtain ⟨ts, hts, rfl, rfl⟩ := h
  obtain ⟨ts', hts', rfl, rfl⟩ := h'
  refine ⟨ts ++ ts', ?_, List.length_append, (WireTree.flattenAll_append ts ts').symm⟩
  rw [WireTree.allWF_iff] at *
  exact fun t ht => (List.mem_append.mp ht).elim (hts t) (hts' t)

theorem IsValue.areValues {b : Bytes} (h : IsValue b) : AreValues 1 b := by
  obtain ⟨t, ht, rfl⟩ := h
  exact ⟨[t], ⟨ht, trivial⟩, rfl, by simp [WireTree.flattenAll]⟩

/-- A node is its code, its length and its elements. -/
theorem AreValues.isValue_node {c : Code} {n : Nat} {b : Bytes} (h : AreValues n b)
    (hsized : WireTree.Sized c .true n) : IsValue (c.toByte :: (WireTree.lengthBytes c n ++ b)) := by
  obtain ⟨ts, hts, hn, rfl⟩ := h
  exact ⟨.node c ts, ⟨hn ▸ hsized, hts⟩, by rw [WireTree.flatten, hn]⟩

theorem readCode_local : Local readCode (fun c b m => b = [c.toByte] ∧ m = 0) := by
  refine Local.readByte.map.mono ?_
  rintro c b m ⟨a, rfl, rfl, rfl⟩
  simp

theorem readUint_local (w : Nat) :
    Local (readUint w) (fun n b m => n < 256 ^ w ∧ b = BigEndian.encode w n ∧ m = 0) := by
  refine (Local.readN w).map.mono ?_
  rintro n b m ⟨a, rfl, rfl, rfl, rfl⟩
  exact ⟨BigEndian.decode_lt b, (BigEndian.encode_decode b).symm, rfl⟩

theorem sizedLen_local {w : Nat} {reject : Nat → Decoder Unit} {need : Nat → Nat}
    (hreject : ∀ n, Local (reject n) (fun _ b m => b = [] ∧ m = need n)) :
    Local (sizedLen w reject)
      (fun n b m => n < 256 ^ w ∧ b = BigEndian.encode w n ∧ m = need n) := by
  refine ((readUint_local w).bind fun n =>
    (hreject n).bind fun _ => Local.pure n).mono ?_
  rintro _ b m ⟨n, _, _, _, _, ⟨hlt, rfl, rfl⟩,
    ⟨_, _, _, _, _, ⟨rfl, rfl⟩, ⟨rfl, rfl, rfl⟩, rfl, rfl⟩, rfl, rfl⟩
  simp [hlt]

/-- A checked length that comes with the code itself. -/
theorem fixedLen_local {reject : Nat → Decoder Unit} {need : Nat → Nat}
    (hreject : ∀ n, Local (reject n) (fun _ b m => b = [] ∧ m = need n)) (n : Nat) :
    Local (do reject n; return some n)
      (fun o b m => o = some n ∧ b = [] ∧ m = need n) := by
  refine ((hreject n).bind fun _ => Local.pure (some n)).mono ?_
  rintro _ b m ⟨_, _, _, _, _, ⟨rfl, rfl⟩, ⟨rfl, rfl, rfl⟩, rfl, rfl⟩
  simp

theorem bytesLen_local {c : Code} (hc : c ≠ .nil) :
    Local (bytesLen c) (fun o b m => ∃ n, o = some n ∧ WireTree.Sized c .false n ∧
      b = WireTree.lengthBytes c n ∧ m = n) := by
  have hsized (w : Nat) := (sizedLen_local (w := w) fun n =>
    Local.require n (DecodeError.oversizedBytes n)).map (f := some)
  unfold bytesLen
  split
  case h_1 => exact absurd rfl hc
  case h_2 k =>
    refine (fixedLen_local (fun n => Local.require n (DecodeError.oversizedBytes n)) k.val).mono ?_
    rintro o b m ⟨rfl, rfl, rfl⟩
    exact ⟨k.val, rfl, rfl, rfl, rfl⟩
  case h_9 => exact Local.fail _
  all_goals
    refine (hsized _).mono ?_
    rintro o b m ⟨n, rfl, hlt, rfl, hm⟩
    exact ⟨n, rfl, ⟨Nat.zero_le n, hlt⟩, rfl, hm⟩

def Code.isArray : Code → Bool
  | .fixedArray _ | .array16 | .array32 => Bool.true
  | _ => Bool.false

theorem arrayLen_local {c : Code} (hc : c ≠ .nil) :
    Local (arrayLen c) (fun o b m => ∃ n, o = some n ∧ c.isArray ∧ WireTree.Sized c .true n ∧
      b = WireTree.lengthBytes c n ∧ m = n) := by
  have hreject (n : Nat) : Local (rejectOversizedContainer 1 .oversizedArray n)
      (fun _ b m => b = [] ∧ m = n * 1) := Local.require _ _
  unfold arrayLen
  split
  case h_1 => exact absurd rfl hc
  case h_2 k =>
    refine (fixedLen_local hreject k.val).mono ?_
    rintro o b m ⟨rfl, rfl, rfl⟩
    exact ⟨k.val, rfl, rfl, rfl, rfl, Nat.mul_one _⟩
  case h_5 => exact Local.fail _
  all_goals
    refine (sizedLen_local hreject).map.mono ?_
    rintro o b m ⟨n, rfl, hlt, rfl, rfl⟩
    exact ⟨n, rfl, rfl, ⟨Nat.one_dvd n, by simpa using hlt⟩,
      by simp [WireTree.lengthBytes, Code.layout], Nat.mul_one _⟩

theorem readUint_reads {w n : Nat} (h : n < 256 ^ w) (r : Bytes) (l : Levels) :
    readUint w ⟨BigEndian.encode w n ++ r, l⟩ = .ok n ⟨r, l⟩ := by
  have hread : (readN w : Decoder Bytes) ⟨BigEndian.encode w n ++ r, l⟩ =
      .ok (BigEndian.encode w n) ⟨r, l⟩ := readN_ok_iff.mpr ⟨by simp, rfl, rfl⟩
  simp [readUint, EStateM.map, Functor.map, hread, BigEndian.decode_encode h]

theorem sizedLen_reads {w n : Nat} (h : n < 256 ^ w) {reject : Nat → Decoder Unit} {r : Bytes}
    {l : Levels} (hreject : reject n ⟨r, l⟩ = .ok () ⟨r, l⟩) :
    sizedLen w reject ⟨BigEndian.encode w n ++ r, l⟩ = .ok n ⟨r, l⟩ := by
  rw [sizedLen, bind_eq_of_ok (readUint_reads h r l), bind_eq_of_ok hreject]
  rfl

/-- The length of an array, read back in front of at least as many bytes. -/
theorem arrayLen_reads {c : Code} {n : Nat} (hc : c.isArray) (hn : WireTree.Sized c .true n)
    {r : Bytes} (hr : n ≤ r.length) (l : Levels) :
    arrayLen c ⟨WireTree.lengthBytes c n ++ r, l⟩ = .ok (some n) ⟨r, l⟩ := by
  have hreject : rejectOversizedContainer 1 .oversizedArray n ⟨r, l⟩ = .ok () ⟨r, l⟩ :=
    require_ok_iff.mpr ⟨by simpa using hr, rfl⟩
  cases c with
  | fixedArray k =>
    obtain rfl : n = k.val := hn
    exact bind_eq_of_ok hreject
  | array16 | array32 =>
    simp only [WireTree.Sized, Code.layout, Nat.div_one] at hn
    simp [arrayLen, WireTree.lengthBytes, Code.layout, EStateM.map, Functor.map,
      sizedLen_reads hn.2 hreject]
  | _ => simp [Code.isArray] at hc

theorem readCode_reads (c : Code) (r : Bytes) (l : Levels) :
    readCode ⟨c.toByte :: r, l⟩ = .ok c ⟨r, l⟩ := by
  simp [readCode, readByte, Functor.map, EStateM.map]

theorem decodeArrayLen_ok_iff {data r : Bytes} {l l' : Levels} {n : Nat} :
    decodeArrayLen ⟨data, l⟩ = .ok (some n) ⟨r, l'⟩ ↔
      ∃ c : Code, c.isArray ∧ WireTree.Sized c .true n ∧ n ≤ r.length ∧
        data = c.toByte :: (WireTree.lengthBytes c n ++ r) ∧ l' = l := by
  constructor
  · intro h
    obtain ⟨c, j, hc, hlen⟩ := bind_ok_iff.mp h
    obtain ⟨_, _, hrest, hst, -, ⟨rfl, -⟩, -⟩ := readCode_local _ _ _ hc
    by_cases hnil : c = .nil
    · subst hnil
      simp [arrayLen] at hlen
    · obtain ⟨_, _, hrest', hst', hm, ⟨n', hn', harr, hsized, rfl, rfl⟩, -⟩ :=
        arrayLen_local hnil _ _ _ hlen
      cases hn'
      refine ⟨c, harr, hsized, hm, ?_, hst'.trans hst⟩
      simpa [hrest'] using hrest
  · rintro ⟨c, hc, hn, hr, rfl, rfl⟩
    rw [decodeArrayLen, bind_eq_of_ok (readCode_reads c _ _), arrayLen_reads hc hn hr]

theorem mapLen_local {c : Code} (hc : c ≠ .nil) :
    Local (mapLen c) (fun o b m => ∃ n, o = some n ∧ WireTree.Sized c .true (2 * n) ∧
      b = WireTree.lengthBytes c (2 * n) ∧ m = 2 * n) := by
  have hreject (n : Nat) : Local (rejectOversizedContainer 2 .oversizedMap n)
      (fun _ b m => b = [] ∧ m = n * 2) := Local.require _ _
  unfold mapLen
  split
  case h_1 => exact absurd rfl hc
  case h_2 k =>
    refine (fixedLen_local hreject k.val).mono ?_
    rintro o b m ⟨rfl, rfl, rfl⟩
    exact ⟨k.val, rfl, rfl, rfl, Nat.mul_comm _ _⟩
  case h_5 => exact Local.fail _
  all_goals
    refine (sizedLen_local hreject).map.mono ?_
    rintro o b m ⟨n, rfl, hlt, rfl, rfl⟩
    exact ⟨n, rfl, ⟨Nat.dvd_mul_right 2 n, by simpa using hlt⟩,
      by simp [WireTree.lengthBytes, Code.layout], Nat.mul_comm _ _⟩

def Code.isMap : Code → Bool
  | .fixedMap _ | .map16 | .map32 => Bool.true
  | _ => Bool.false

/-- On an extension in front of a map, and on a nil, no statement is made: the
decoder calls this for the code of a map only. -/
theorem decodeMapLen_local :
    Local decodeMapLen (fun o b m => ∃ (c : Code) (rest : Bytes), b = c.toByte :: rest ∧
      (c.isMap → ∃ n, o = some n ∧ WireTree.Sized c .true (2 * n) ∧
        rest = WireTree.lengthBytes c (2 * n) ∧ m = 2 * n)) := by
  have hlen (c : Code) : Local (mapLen c) (fun o b m => c.isMap → ∃ n, o = some n ∧
      WireTree.Sized c .true (2 * n) ∧ b = WireTree.lengthBytes c (2 * n) ∧ m = 2 * n) := by
    by_cases hc : c = .nil
    · subst hc
      exact (Local.pure _).mono (by rintro _ _ _ - ⟨⟩)
    · exact (mapLen_local hc).mono (fun _ _ _ h _ => h)
  have hbyte : Local (do let _ ← readByte : Decoder Unit) (fun _ _ m => True ∧ m = 0) := by
    refine (Local.readByte.bind fun _ => Local.pure ()).mono ?_
    rintro _ _ m ⟨_, _, _, _, _, ⟨-, rfl⟩, ⟨-, -, rfl⟩, -, rfl⟩
    simp
  have hskip (c : Code) : Local (skipExtHeader c) (fun _ _ _ => True) :=
    (Local.readByte.bind fun _ => Local.iterate (T := fun _ _ => True) trivial
      (fun _ _ _ _ _ => trivial) (fun _ => hbyte) (extHeaderLen c) ()).mono
      (fun _ _ _ _ => trivial)
  have hrest (c : Code) : Local
      (if c.isExt then do skipExtHeader c; readCode >>= mapLen else mapLen c)
      (fun o b m => c.isMap → ∃ n, o = some n ∧ WireTree.Sized c .true (2 * n) ∧
        b = WireTree.lengthBytes c (2 * n) ∧ m = 2 * n) := by
    split
    · rename_i hext
      refine ((hskip c).bind fun _ => readCode_local.bind hlen).mono ?_
      intro _ _ _ _ hmap
      cases c <;> simp [Code.isExt, Code.isMap] at hext hmap
    · exact hlen c
  refine (readCode_local.bind hrest).mono ?_
  rintro o b m ⟨c, _, _, rest, _, ⟨rfl, rfl⟩, hR, rfl, rfl⟩
  refine ⟨c, rest, rfl, fun hc => ?_⟩
  obtain ⟨n, rfl, hsized, rfl, rfl⟩ := hR hc
  exact ⟨n, rfl, hsized, rfl, by simp⟩

/-! ## Leaves are consumed whole -/

/-- What is done for a leaf, by its code. -/
theorem decodeLeaf_cases {motive : Code → Decoder Any → Prop}
    (constant : ∀ c s, c.layout = .leaf 0 → motive c (return .scalar s))
    (number : ∀ c w (f : Nat → Scalar), c.layout = .leaf w → motive c (do return .scalar (f (← readUint w))))
    (string : ∀ c, c ≠ .nil → motive c (decodeString c)) (bytes : ∀ c, c ≠ .nil → motive c (decodeBytes c))
    (ext : ∀ c, motive c (decodeInterfaceExt c)) (unknown : ∀ c e, motive c (fail e))
    (loose : Bool) (c : Code) : motive c (decodeLeaf loose c) := by
  cases c with
  | posFixedNum _ | negFixedNum _ | nil | false | true => exact constant _ _ rfl
  | float | double | uint8 | uint16 | uint32 | uint64 | int8 | int16 | int32 | int64 => exact number _ _ _ rfl
  | bin8 | bin16 | bin32 =>
    cases loose with
    | false => exact bytes _ (by simp)
    | true => exact string _ (by simp)
  | fixedStr _ | str8 | str16 | str32 => exact string _ (by simp)
  | fixExt1 | fixExt2 | fixExt4 | fixExt8 | fixExt16 | ext8 | ext16 | ext32 => exact ext _
  | fixedMap _ | fixedArray _ | unused | array16 | array32 | map16 | map32 => exact unknown _ _

/-- A leaf of fixed size, read at once. -/
theorem isLeafRest_of_fixed {c : Code} {b : Bytes} (hc : c.layout = .leaf b.length) :
    IsLeafRest c b :=
  ⟨b, by simp [WireTree.Sized, hc], by simp [WireTree.lengthBytes, hc]⟩

theorem readUint_leaf_local {α : Type} {c : Code} {w : Nat} (hc : c.layout = .leaf w) (f : Nat → α) :
    Local (do let n ← readUint w; return f n) (fun _ b m => IsLeafRest c b ∧ m = 0) := by
  refine ((readUint_local w).bind fun n => Local.pure (f n)).mono ?_
  rintro _ b m ⟨n, _, _, _, _, ⟨-, rfl, rfl⟩, ⟨-, rfl, rfl⟩, rfl, rfl⟩
  exact ⟨isLeafRest_of_fixed (by simpa using hc), by simp⟩

theorem pure_leaf_local {α : Type} {c : Code} (hc : c.layout = .leaf 0) (v : α) :
    Local (pure v : Decoder α) (fun _ b m => IsLeafRest c b ∧ m = 0) := by
  refine (Local.pure v).mono ?_
  rintro _ b m ⟨-, rfl, rfl⟩
  exact ⟨isLeafRest_of_fixed hc, rfl⟩

/-- A string or byte slice: its length, then its bytes. -/
theorem bytes_leaf_local {α : Type} {c : Code} (hc : c ≠ .nil) (none : α) (f : Bytes → α) :
    Local (do match ← bytesLen c with
      | .none => return none
      | some n => return f (← readN n) : Decoder α)
      (fun _ b m => IsLeafRest c b ∧ m = 0) := by
  have hbody (o : Option Nat) :
      Local (match o with
        | .none => return none
        | some n => return f (← readN n) : Decoder α)
        (fun _ b m => ∀ n, o = some n → b.length = n ∧ m = 0) := by
    cases o with
    | none => exact (Local.pure none).mono (by simp)
    | some n =>
      refine ((Local.readN n).bind fun b => Local.pure (f b)).mono ?_
      rintro _ b m ⟨_, _, _, _, _, ⟨rfl, rfl, rfl⟩, ⟨-, rfl, rfl⟩, rfl, rfl⟩
      simp
  refine ((bytesLen_local hc).bind hbody).mono ?_
  rintro _ b m ⟨_, _, _, body, _, ⟨n, rfl, hsized, rfl, rfl⟩, hR, rfl, rfl⟩
  obtain ⟨rfl, rfl⟩ := hR _ rfl
  exact ⟨⟨body, hsized, rfl⟩, by simp⟩

theorem decodeString_local {c : Code} (hc : c ≠ .nil) :
    Local (decodeString c) (fun _ b m => IsLeafRest c b ∧ m = 0) :=
  bytes_leaf_local hc (Any.scalar (.string [])) (fun b => Any.scalar (.string b))

theorem decodeBytes_local {c : Code} (hc : c ≠ .nil) :
    Local (decodeBytes c) (fun _ b m => IsLeafRest c b ∧ m = 0) :=
  bytes_leaf_local hc (Any.typedNil .bytes) Any.bytes

theorem parseExtLen_local (c : Code) :
    Local (parseExtLen c) (fun n b m => WireTree.Sized c .false (n + 1) ∧
      b = WireTree.lengthBytes c (n + 1) ∧ m ≤ n) := by
  have hreject (n : Nat) : Local (rejectOversizedBytes n) (fun _ b m => b = [] ∧ m = n) :=
    Local.require _ _
  unfold parseExtLen
  split
  case h_9 => exact Local.fail _
  case h_6 | h_7 | h_8 =>
    refine (sizedLen_local hreject).mono ?_
    rintro n b m ⟨hlt, rfl, rfl⟩
    exact ⟨⟨by omega, hlt⟩, rfl, le_rfl⟩
  all_goals
    refine (Local.pure _).mono ?_
    rintro n b m ⟨rfl, rfl, rfl⟩
    exact ⟨rfl, rfl, Nat.zero_le _⟩

theorem decodeTime_local (extLen : Nat) :
    Local (decodeTime extLen) (fun _ b m => b.length = extLen ∧ m = 0) := by
  refine ((Local.readN extLen).bind (R := fun _ _ b m => b = [] ∧ m = 0) fun b => ?_).mono ?_
  · split
    case h_4 => exact Local.fail _
    all_goals exact (Local.pure _).mono (fun _ _ _ h => h.2)
  · rintro _ b m ⟨_, _, _, _, _, ⟨rfl, rfl, rfl⟩, ⟨rfl, rfl⟩, rfl, rfl⟩
    simp

theorem decodeInternedString_local (extLen : Nat) {P : Any → Bytes → Nat → Prop} :
    Local (decodeInternedString extLen) P := by
  have hread (n : Nat) : Local (do let idx ← readUint n; fail (.internedIndex idx)) P :=
    ((readUint_local n).bind (R := fun _ _ _ _ => False) fun _ => Local.fail _).mono
      (by rintro _ _ _ ⟨_, _, _, _, _, _, h, _⟩; exact h.elim)
  unfold decodeInternedString
  split
  case h_4 => exact Local.fail _
  all_goals exact hread _

theorem decodeInterfaceExt_local (c : Code) :
    Local (decodeInterfaceExt c) (fun _ b m => IsLeafRest c b ∧ m = 0) := by
  have hbody (n : Nat) (id : UInt8) :
      Local (if id = timeExtID then decodeTime n
        else if id = internedStringExtID then decodeInternedString n
        else fail (.unknownExt id)) (fun _ b m => b.length = n ∧ m = 0) := by
    split
    · exact decodeTime_local n
    · split
      · exact decodeInternedString_local n
      · exact Local.fail _
  refine ((parseExtLen_local c).bind fun n => Local.readByte.bind (hbody n)).mono ?_
  rintro _ b m ⟨n, _, _, _, _, ⟨hsized, rfl, hm⟩,
    ⟨id, _, _, body, _, ⟨rfl, rfl⟩, ⟨rfl, rfl⟩, rfl, rfl⟩, rfl, rfl⟩
  refine ⟨⟨id :: body, by simpa using hsized, by simp⟩, ?_⟩
  simp
  omega

theorem decodeLeaf_local (loose : Bool) (c : Code) :
    Local (decodeLeaf loose c) (fun _ b m => IsLeafRest c b ∧ m = 0) :=
  decodeLeaf_cases (motive := fun c x => Local x (fun _ b m => IsLeafRest c b ∧ m = 0))
    (fun _ _ hc => pure_leaf_local hc _) (fun _ _ _ hc => readUint_leaf_local hc _)
    (fun _ hc => decodeString_local hc) (fun _ hc => decodeBytes_local hc) decodeInterfaceExt_local
    (fun _ _ => Local.fail _) loose c

/-! ## Values are consumed whole -/

/-- The decoder consumes the bytes of one well-formed value, whatever follows. -/
def ReadsValues (x : Decoder Any) : Prop := Local x (fun _ b m => IsValue b ∧ m = 0)

/-- The same of a map decoder, which is called for the code of a map only. -/
def ReadsMaps (x : Decoder Any) : Prop :=
  Local x (fun _ b m => ∃ (c : Code) (rest : Bytes), b = c.toByte :: rest ∧
    (c.isMap → IsValue b ∧ m = 0))

theorem leaveDepth_enterDepth {l l' : Levels} (h : enterDepth l = .ok l') : leaveDepth l' = l := by
  unfold enterDepth at h
  split at h
  · cases h
  · cases h
    simp [leaveDepth]

theorem decodeInterfaceCond_local {x : Decoder Any} (hx : ReadsValues x) :
    ReadsValues (decodeInterfaceCond x) :=
  Local.within hx fun _ _ => leaveDepth_enterDepth

theorem decodeSlice_local {elem : Decoder Any} (helem : ReadsValues elem) {c : Code}
    (hc : c ≠ .nil) :
    Local (decodeSlice elem c) (fun _ b m => IsValue (c.toByte :: b) ∧ m = 0) := by
  have hstep (s : List Any) :
      Local (do return s ++ [← elem]) (fun _ b m => AreValues 1 b ∧ m = 0) := by
    refine (helem.bind fun v => Local.pure (s ++ [v])).mono ?_
    rintro _ b m ⟨_, _, _, _, _, ⟨hv, rfl⟩, ⟨-, rfl, rfl⟩, rfl, rfl⟩
    exact ⟨by simpa using hv.areValues, by simp⟩
  have hloop (n : Nat) := (Local.iterate (T := AreValues) AreValues.zero
    (fun n b b' hb hb' => by simpa [Nat.add_comm] using hb.append hb') hstep n []).map
      (f := Any.slice)
  have hbody (o : Option Nat) :
      Local (match o with
        | none => return .typedNil .slice
        | some n => .slice <$> iterate (fun s => return s ++ [← elem]) n [] : Decoder Any)
        (fun _ b m => ∀ n, o = some n → AreValues n b ∧ m = 0) := by
    cases o with
    | none => exact (Local.pure _).mono (by simp)
    | some n =>
      refine (hloop n).mono ?_
      rintro _ b m ⟨_, rfl, hvals, rfl⟩ n' ⟨⟩
      exact ⟨hvals, rfl⟩
  refine ((arrayLen_local hc).bind hbody).mono ?_
  rintro _ b m ⟨_, _, _, content, _, ⟨n, rfl, -, hsized, rfl, rfl⟩, hR, rfl, rfl⟩
  obtain ⟨hvals, rfl⟩ := hR _ rfl
  have hle := hvals.length_le
  exact ⟨hvals.isValue_node hsized, by omega⟩

/-- A decoder consumes whole values as soon as the installed map decoder does. -/
theorem decodeInterface_local {mapDecoder : Decoder Any → Decoder Any}
    (hmap : ∀ x, ReadsValues x → ReadsMaps (mapDecoder x)) (fuel : Nat) (loose : Bool) :
    ReadsValues (decodeInterface mapDecoder fuel loose) := by
  induction fuel generalizing loose with
  | zero => exact Local.fail _
  | succ fuel ih =>
    have hvalue (c : Code) : Local
        (match c with
          | .fixedMap _ | .map16 | .map32 =>
            unreadByte c.toByte >>= fun _ =>
              mapDecoder (decodeInterface mapDecoder fuel Bool.false)
          | .fixedArray _ | .array16 | .array32 =>
            decodeSlice (decodeInterfaceCond (decodeInterface mapDecoder fuel Bool.true)) c
          | c => decodeLeaf loose c)
        (fun _ b m => IsValue (c.toByte :: b) ∧ m = 0) := by
      have hunread := (hmap _ (ih Bool.false)).unread c.toByte (by
        rintro _ b m ⟨_, _, rfl, -⟩
        exact List.cons_ne_nil _ _)
      split
      case h_1 | h_2 | h_3 =>
        refine hunread.mono ?_
        rintro _ b m ⟨c, rest, hb, hvalue⟩
        simp only [List.cons.injEq] at hb
        obtain rfl := Code.toByte_inj hb.1
        exact hvalue rfl
      case h_4 | h_5 | h_6 =>
        exact decodeSlice_local (decodeInterfaceCond_local (ih Bool.true)) (by simp)
      case h_7 =>
        exact (decodeLeaf_local loose _).mono (fun _ _ _ h => ⟨h.1.isValue, h.2⟩)
    refine (readCode_local.bind hvalue).mono ?_
    rintro _ b m ⟨c, _, _, _, _, ⟨rfl, rfl⟩, ⟨hv, rfl⟩, rfl, rfl⟩
    exact ⟨hv, by simp⟩

/-! ## What is returned -/

/-- A value that is neither an array nor a map. -/
def Any.IsLeaf : Any → Prop
  | .slice _ | .map _ _ | .typedNil (.map _) => False
  | _ => True

theorem decodeString_isLeaf (c : Code) : Produces (decodeString c) Any.IsLeaf := by
  refine Produces.trivial.bind fun o _ => ?_
  cases o with
  | none => exact Produces.pure True.intro
  | some n => exact Produces.trivial.bind fun _ _ => Produces.pure True.intro

theorem decodeBytes_isLeaf (c : Code) : Produces (decodeBytes c) Any.IsLeaf := by
  refine Produces.trivial.bind fun o _ => ?_
  cases o with
  | none => exact Produces.pure True.intro
  | some n => exact Produces.trivial.bind fun _ _ => Produces.pure True.intro

theorem decodeInterfaceExt_isLeaf (c : Code) : Produces (decodeInterfaceExt c) Any.IsLeaf := by
  refine Produces.trivial.bind fun n _ => Produces.trivial.bind fun id _ => ?_
  split
  · refine Produces.trivial.bind fun b _ => ?_
    split
    case h_4 => exact Produces.fail _
    all_goals exact Produces.pure True.intro
  · split
    · unfold decodeInternedString
      split
      case h_4 => exact Produces.fail _
      all_goals exact Produces.trivial.bind fun _ _ => Produces.fail _
    · exact Produces.fail _

theorem decodeLeaf_isLeaf (loose : Bool) (c : Code) : Produces (decodeLeaf loose c) Any.IsLeaf :=
  decodeLeaf_cases (motive := fun _ x => Produces x Any.IsLeaf) (fun _ _ _ => Produces.pure True.intro)
    (fun _ _ _ _ => Produces.trivial.bind fun _ _ => Produces.pure True.intro) (fun c _ => decodeString_isLeaf c)
    (fun c _ => decodeBytes_isLeaf c) decodeInterfaceExt_isLeaf (fun _ _ => Produces.fail _) loose c

/-- A property of values that holds of leaves, is inherited by slices, and is kept
by the installed map decoder, holds of every decoded value. -/
theorem decodeInterface_produces {mapDecoder : Decoder Any → Decoder Any} {Q : Any → Prop}
    (hleaf : ∀ v, v.IsLeaf → Q v) (hslice : ∀ xs, (∀ x ∈ xs, Q x) → Q (.slice xs))
    (hmap : ∀ x, Produces x Q → Produces (mapDecoder x) Q) (fuel : Nat) (loose : Bool) :
    Produces (decodeInterface mapDecoder fuel loose) Q := by
  induction fuel generalizing loose with
  | zero => exact Produces.fail _
  | succ fuel ih =>
    have hmapCase (c : Code) : Produces (unreadByte c.toByte >>= fun _ =>
        mapDecoder (decodeInterface mapDecoder fuel Bool.false)) Q :=
      Produces.trivial.bind fun _ _ => hmap _ (ih Bool.false)
    have hsliceCase (c : Code) : Produces
        (decodeSlice (decodeInterfaceCond (decodeInterface mapDecoder fuel Bool.true)) c) Q := by
      refine Produces.trivial.bind fun o _ => ?_
      cases o with
      | none => exact Produces.pure (hleaf _ True.intro)
      | some n =>
        refine (Produces.iterate (Q := fun xs => ∀ x ∈ xs, Q x) ?_ n (by simp)).map hslice
        intro xs hxs
        refine (ih Bool.true).within.bind fun v hv => Produces.pure ?_
        simp only [List.mem_append, List.mem_singleton]
        rintro x (hx | rfl)
        · exact hxs x hx
        · exact hv
    refine Produces.trivial.bind fun c _ => ?_
    split
    case h_1 | h_2 | h_3 => exact hmapCase _
    case h_4 | h_5 | h_6 => exact hsliceCase _
    case h_7 => exact fun i v j h => hleaf v (decodeLeaf_isLeaf loose _ i v j h)

/-! ## The counters -/

theorem readCode_keepsState : KeepsState readCode := KeepsState.readByte.map

theorem readUint_keepsState (w : Nat) : KeepsState (readUint w) := (KeepsState.readN w).map

theorem sizedLen_keepsState (w : Nat) {reject : Nat → Decoder Unit} (h : ∀ n, KeepsState (reject n)) :
    KeepsState (sizedLen w reject) :=
  (readUint_keepsState w).bind fun n => (h n).bind fun _ => KeepsState.pure n

theorem bytesLen_keepsState (c : Code) : KeepsState (bytesLen c) := by
  have hreject (n : Nat) : KeepsState (rejectOversizedBytes n) := KeepsState.require _ _
  unfold bytesLen
  split
  case h_1 => exact KeepsState.pure _
  case h_2 => exact (hreject _).bind fun _ => KeepsState.pure _
  case h_9 => exact KeepsState.fail _
  all_goals exact (sizedLen_keepsState _ hreject).map

theorem arrayLen_keepsState (c : Code) : KeepsState (arrayLen c) := by
  have hreject (n : Nat) : KeepsState (rejectOversizedContainer 1 .oversizedArray n) :=
    KeepsState.require _ _
  unfold arrayLen
  split
  case h_1 => exact KeepsState.pure _
  case h_2 => exact (hreject _).bind fun _ => KeepsState.pure _
  case h_5 => exact KeepsState.fail _
  all_goals exact (sizedLen_keepsState _ hreject).map

theorem mapLen_keepsState (c : Code) : KeepsState (mapLen c) := by
  have hreject (n : Nat) : KeepsState (rejectOversizedContainer 2 .oversizedMap n) :=
    KeepsState.require _ _
  unfold mapLen
  split
  case h_1 => exact KeepsState.pure _
  case h_2 => exact (hreject _).bind fun _ => KeepsState.pure _
  case h_5 => exact KeepsState.fail _
  all_goals exact (sizedLen_keepsState _ hreject).map

theorem decodeMapLen_keepsState : KeepsState decodeMapLen := by
  refine readCode_keepsState.bind fun c => ?_
  split
  · refine KeepsState.bind ?_ fun _ => readCode_keepsState.bind mapLen_keepsState
    exact KeepsState.readByte.bind fun _ =>
      KeepsState.iterate (fun _ => KeepsState.readByte.bind fun _ => KeepsState.pure ()) _ _
  · exact mapLen_keepsState c

theorem decodeString_keepsState (c : Code) : KeepsState (decodeString c) := by
  refine (bytesLen_keepsState c).bind fun o => ?_
  cases o with
  | none => exact KeepsState.pure _
  | some n => exact (KeepsState.readN n).bind fun _ => KeepsState.pure _

theorem decodeBytes_keepsState (c : Code) : KeepsState (decodeBytes c) := by
  refine (bytesLen_keepsState c).bind fun o => ?_
  cases o with
  | none => exact KeepsState.pure _
  | some n => exact (KeepsState.readN n).bind fun _ => KeepsState.pure _

theorem decodeInterfaceExt_keepsState (c : Code) : KeepsState (decodeInterfaceExt c) := by
  have hlen : KeepsState (parseExtLen c) := by
    have hreject (n : Nat) : KeepsState (rejectOversizedBytes n) := KeepsState.require _ _
    unfold parseExtLen
    split
    case h_6 | h_7 | h_8 => exact sizedLen_keepsState _ hreject
    case h_9 => exact KeepsState.fail _
    all_goals exact KeepsState.pure _
  refine hlen.bind fun n => KeepsState.readByte.bind fun id => ?_
  split
  · refine (KeepsState.readN n).bind fun b => ?_
    split
    case h_4 => exact KeepsState.fail _
    all_goals exact KeepsState.pure _
  · split
    · unfold decodeInternedString
      split
      case h_4 => exact KeepsState.fail _
      all_goals exact (readUint_keepsState _).bind fun _ => KeepsState.fail _
    · exact KeepsState.fail _

theorem decodeLeaf_keepsState (loose : Bool) (c : Code) : KeepsState (decodeLeaf loose c) :=
  decodeLeaf_cases (motive := fun _ x => KeepsState x) (fun _ _ _ => KeepsState.pure _)
    (fun _ w _ _ => (readUint_keepsState w).bind fun _ => KeepsState.pure _) (fun c _ => decodeString_keepsState c)
    (fun c _ => decodeBytes_keepsState c) decodeInterfaceExt_keepsState (fun _ _ => KeepsState.fail _) loose c

/-- The decoder leaves the counters as it found them, however it ends, if the installed
map decoder does. -/
theorem decodeInterface_keepsState {mapDecoder : Decoder Any → Decoder Any}
    (hmap : ∀ x, KeepsState x → KeepsState (mapDecoder x)) (fuel : Nat) (loose : Bool) :
    KeepsState (decodeInterface mapDecoder fuel loose) := by
  induction fuel generalizing loose with
  | zero => exact KeepsState.fail _
  | succ fuel ih =>
    have hslice (c : Code) : KeepsState
        (decodeSlice (decodeInterfaceCond (decodeInterface mapDecoder fuel Bool.true)) c) := by
      refine (arrayLen_keepsState c).bind fun o => ?_
      cases o with
      | none => exact KeepsState.pure _
      | some n =>
        refine (KeepsState.iterate (fun s => ?_) n _).map
        exact ((ih Bool.true).within fun _ _ => leaveDepth_enterDepth).bind fun _ => KeepsState.pure _
    refine readCode_keepsState.bind fun c => ?_
    split
    case h_1 | h_2 | h_3 => exact (KeepsState.unreadByte _).bind fun _ => hmap _ (ih Bool.false)
    case h_4 | h_5 | h_6 => exact hslice _
    case h_7 => exact decodeLeaf_keepsState loose _

end Msgpack
