-- SUMMARY: Decoding into Go types that are known beforehand, and skipping a value.
import ReticulumMf.Lib.Ieee
import ReticulumMf.Msgpack.Decode

/-!
# Typed decoding

The readers `Unmarshal` uses for the fields of a struct: unsigned integers,
booleans, strings and byte slices, and `Skip` for what belongs to no field; and
`DecodeInt64`. A nil stands for the zero value of each type. What `DecodeInt64`
takes for a number is an integer code, a float with an integral value, or a nil
(`decodeInt64_local`).
-/

namespace Msgpack

open ByteReader

/-- The value of a `float64` that `uint` accepts: finite, integral, not negative
and at most `2^64`. -/
def natOfFloat64 (bits : BitVec 64) : Option Nat :=
  let sign := bits.toNat / 2 ^ 63
  let exp := bits.toNat / 2 ^ 52 % 2 ^ 11
  let frac := bits.toNat % 2 ^ 52
  let mant := 2 ^ 52 + frac
  if exp = 0x7ff then none
  else if exp = 0 then if frac = 0 then some 0 else none
  else if sign = 1 then none
  else if exp ≥ 1075 then
    let n := mant * 2 ^ (exp - 1075)
    if n ≤ 2 ^ 64 then some n else none
  else if mant % 2 ^ (1075 - exp) = 0 then some (mant / 2 ^ (1075 - exp))
  else none

/-- `Decoder.uint`, modulo `2^64`. -/
def decodeUintCode (c : Code) : Decoder Nat :=
  let signed (w : Nat) : Decoder Nat := do
    return ((BitVec.ofNat (8 * w) (← readUint w)).signExtend 64).toNat
  let float (bits : BitVec 64) : Decoder Nat :=
    match natOfFloat64 bits with
    | some n => return n % 2 ^ 64
    | none => fail (.floatNotUint bits)
  match c with
  | .nil => return 0
  | .posFixedNum n => return n.val
  | .negFixedNum n => return ((BitVec.ofNat 8 (0xe0 + n.val)).signExtend 64).toNat
  | .uint8 => readUint 1
  | .uint16 => readUint 2
  | .uint32 => readUint 4
  | .int8 => signed 1
  | .int16 => signed 2
  | .int32 => signed 4
  | .uint64 | .int64 => readUint 8
  | .float => do float (float64OfFloat32 (BitVec.ofNat 32 (← readUint 4)))
  | .double => do float (BitVec.ofNat 64 (← readUint 8))
  | c => fail (.uintCode c.toByte)

/-- A `uint8` field: `SetUint` keeps the low byte. -/
def decodeUint8Value : Decoder UInt8 := do
  let c ← readCode
  return UInt8.ofNat (← decodeUintCode c)

/-- The magnitude of a `float64`, if it is finite and integral. -/
def integralMagnitude (bits : BitVec 64) : Option Nat :=
  let exp := bits.toNat / 2 ^ 52 % 2 ^ 11
  let frac := bits.toNat % 2 ^ 52
  let mant := 2 ^ 52 + frac
  if exp = 0x7ff then none
  else if exp = 0 then if frac = 0 then some 0 else none
  else if exp ≥ 1075 then some (mant * 2 ^ (exp - 1075))
  else if mant % 2 ^ (1075 - exp) = 0 then some (mant / 2 ^ (1075 - exp))
  else none

/-- The value of a `float64` that `int` accepts: finite, integral, and between
`-2^63` and `2^63`, both included. -/
def intOfFloat64 (bits : BitVec 64) : Option Int :=
  (integralMagnitude bits).bind fun m =>
    let n : Int := if bits.toNat / 2 ^ 63 = 0 then m else -m
    if -2 ^ 63 ≤ n ∧ n ≤ 2 ^ 63 then some n else none

/-- `int64(f)` for a float that is checked first. The float `2^63` wraps around, as on
amd64. -/
def intFromFloat64 (bits : BitVec 64) : Decoder (BitVec 64) :=
  match intOfFloat64 bits with
  | some n => return BitVec.ofInt 64 n
  | none => fail (.floatNotInt bits)

/-- `Decoder.int`. -/
def decodeIntCode (c : Code) : Decoder (BitVec 64) :=
  let unsigned (w : Nat) : Decoder (BitVec 64) := do
    return BitVec.ofNat 64 (← readUint w)
  let signed (w : Nat) : Decoder (BitVec 64) := do
    return (BitVec.ofNat (8 * w) (← readUint w)).signExtend 64
  match c with
  | .nil => return 0
  | .posFixedNum n => return BitVec.ofNat 64 n.val
  | .negFixedNum n => return (BitVec.ofNat 8 (0xe0 + n.val)).signExtend 64
  | .uint8 => unsigned 1
  | .uint16 => unsigned 2
  | .uint32 => unsigned 4
  | .int8 => signed 1
  | .int16 => signed 2
  | .int32 => signed 4
  | .uint64 | .int64 => unsigned 8
  | .float => do intFromFloat64 (float64OfFloat32 (BitVec.ofNat 32 (← readUint 4)))
  | .double => do intFromFloat64 (BitVec.ofNat 64 (← readUint 8))
  | c => fail (.intCode c.toByte)

def decodeInt64 : Decoder (BitVec 64) := readCode >>= decodeIntCode

def decodeBoolValue : Decoder Bool := do
  match ← readCode with
  | .nil | .false => return Bool.false
  | .true => return Bool.true
  | c => fail (.boolCode c.toByte)

/-- `decodeBytesValue`, `DecodeString` and `decodeStringTemp`: the bytes after a
length, none for a nil. -/
def decodeBytesValue : Decoder Bytes := do
  let c ← readCode
  match ← bytesLen c with
  | none => return []
  | some n => readN n

def skipTimes (skip : Decoder Unit) : Option Nat → Decoder Unit
  | none => return ()
  | some n => iterate (fun _ => skip) n ()

/-- `Skip`. Every level enters the depth, so its limit bounds the nesting. -/
def skip : Nat → Decoder Unit
  | 0 => fail .outOfFuel
  | fuel + 1 => within enterDepth leaveDepth do
    let c ← readCode
    match c with
    | .posFixedNum _ | .negFixedNum _ | .nil | .false | .true => return ()
    | .fixedMap _ | .map16 | .map32 => do
      skipTimes (do skip fuel; skip fuel) (← mapLen c)
    | .fixedArray _ | .array16 | .array32 => do
      skipTimes (skip fuel) (← arrayLen c)
    | .fixedStr _ | .bin8 | .bin16 | .bin32 | .str8 | .str16 | .str32 => do
      match ← bytesLen c with
      | none => return ()
      | some n => do let _ ← readN n
    | .uint8 | .int8 => do let _ ← readN 1
    | .uint16 | .int16 => do let _ ← readN 2
    | .uint32 | .int32 | .float => do let _ ← readN 4
    | .uint64 | .int64 | .double => do let _ ← readN 8
    | .fixExt1 | .fixExt2 | .fixExt4 | .fixExt8 | .fixExt16 | .ext8 | .ext16 | .ext32 => do
      let n ← parseExtLen c
      let _ ← readN (n + 1)
    | .unused => fail (.unknownCode c.toByte)

def skipFuel : Nat := defaultDecodeDepthLimit + 1

/-! ## Integral floats -/

open Ieee

theorem integralMagnitude_value {bits : BitVec 64} {m : Nat} (h : integralMagnitude bits = some m) :
    binary64.value bits.toNat =
      some (if bits.toNat / 2 ^ 63 = 0 then (m : ℚ) else -(m : ℚ)) := by
  have hvalue : binary64.value bits.toNat =
      binary64.fieldsValue (bits.toNat / 2 ^ 63) (bits.toNat / 2 ^ 52 % 2 ^ 11) (bits.toNat % 2 ^ 52) := rfl
  have hmax : 2 ^ binary64.expBits - 1 = 0x7ff := rfl
  rw [hvalue]
  unfold integralMagnitude at h
  generalize bits.toNat / 2 ^ 52 % 2 ^ 11 = exp at h
  generalize bits.toNat % 2 ^ 52 = frac at h
  dsimp only at h
  suffices hmag : exp ≠ 0x7ff ∧ binary64.magnitude exp frac = m by
    rw [Format.fieldsValue, hmax, if_neg hmag.1, hmag.2]
  split_ifs at h with hinf hzero hfrac hbig hdvd <;> obtain rfl := Option.some.inj h <;>
    refine ⟨hinf, ?_⟩
  · rw [hzero, hfrac, Format.magnitude, if_pos rfl, Nat.cast_zero, zero_mul]
  · have hcast : (exp : ℤ) - 1075 = (exp - 1075 : ℕ) := by omega
    rw [binary64_normal hzero, hcast, zpow_natCast, Nat.cast_mul, Nat.cast_pow 2, Nat.cast_ofNat]
  · have hcast : (exp : ℤ) - 1075 = -(1075 - exp : ℕ) := by omega
    have hpow : (2 : ℚ) ^ (1075 - exp) ≠ 0 := pow_ne_zero _ two_ne_zero
    obtain ⟨q, hq⟩ := Nat.dvd_of_mod_eq_zero hdvd
    rw [binary64_normal hzero, hcast, zpow_neg, zpow_natCast, hq,
      Nat.mul_div_cancel_left _ (Nat.two_pow_pos _), Nat.cast_mul, Nat.cast_pow, Nat.cast_ofNat,
      mul_comm, inv_mul_cancel_left₀ hpow]

/-- Widening a float keeps its value. -/
theorem value_float64OfFloat32 (bits : BitVec 32) :
    binary64.value (float64OfFloat32 bits).toNat = binary32.value bits.toNat := by
  have hbits := bits.isLt
  have hvalue : binary32.value bits.toNat =
      binary32.fieldsValue (bits.toNat / 2 ^ 31) (bits.toNat / 2 ^ 23 % 2 ^ 8) (bits.toNat % 2 ^ 23) := rfl
  have hsign : bits.toNat / 2 ^ 31 < 2 := by omega
  have hexp : bits.toNat / 2 ^ 23 % 2 ^ 8 < 2 ^ 8 := Nat.mod_lt _ (by decide)
  have hfrac : bits.toNat % 2 ^ 23 < 2 ^ 23 := Nat.mod_lt _ (by decide)
  rw [hvalue, float64OfFloat32]
  generalize bits.toNat / 2 ^ 31 = sign at hsign
  generalize bits.toNat / 2 ^ 23 % 2 ^ 8 = exp at hexp
  generalize bits.toNat % 2 ^ 23 = frac at hfrac
  have hmax₁ : 2 ^ binary64.expBits - 1 = 0x7ff := rfl
  have hmax₂ : 2 ^ binary32.expBits - 1 = 0xff := rfl
  have hpack (e f : Nat) (he : e < 2 ^ 11) (hf : f < 2 ^ 52) :
      binary64.value (BitVec.ofNat 64 (sign * 2 ^ 63 + (e * 2 ^ 52 + f))).toNat =
        binary64.fieldsValue sign e f := by
    have hlt : sign * 2 ^ 63 + (e * 2 ^ 52 + f) < 2 ^ 64 := by omega
    rw [BitVec.toNat_ofNat, Nat.mod_eq_of_lt hlt]
    exact Format.value_ofFields he hf
  have hfinite (e f : Nat) (he : e < 0x7ff) (hf : f < 2 ^ 52) (hexp : exp ≠ 0xff)
      (hmag : binary64.magnitude e f = binary32.magnitude exp frac) :
      binary64.value (BitVec.ofNat 64 (sign * 2 ^ 63 + (e * 2 ^ 52 + f))).toNat =
        binary32.fieldsValue sign exp frac := by
    rw [hpack e f (by omega) hf, Format.fieldsValue, Format.fieldsValue, hmax₁, hmax₂,
      if_neg he.ne, if_neg hexp, hmag]
  have hinfinite (f : Nat) (hf : f < 2 ^ 52) (hexp : exp = 0xff) :
      binary64.value (BitVec.ofNat 64 (sign * 2 ^ 63 + (0x7ff * 2 ^ 52 + f))).toNat =
        binary32.fieldsValue sign exp frac := by
    rw [hpack 0x7ff f (by decide) hf, Format.fieldsValue_infinite hmax₁.symm,
      Format.fieldsValue_infinite (hexp.trans hmax₂.symm)]
  dsimp only
  split_ifs with hinf hnan hnormal hzero
  · exact hinfinite 0 (by decide) hinf
  · exact hinfinite _ (by omega) hinf
  · apply hfinite _ _ (by omega) (by omega) hinf
    have hmant : 2 ^ 52 + frac * 2 ^ 29 = (2 ^ 23 + frac) * 2 ^ 29 := by ring
    have hmin : 29 + (((exp + 896 : ℕ) : ℤ) - 1075) = binary32.minExp + ((exp : ℤ) - 1) := by
      rw [binary32_minExp]
      omega
    rw [binary64_normal (by omega), hmant, Nat.cast_mul, Nat.cast_pow 2 29, Nat.cast_ofNat,
      Format.mul_two_pow_zpow, Nat.cast_ofNat, hmin, Format.magnitude, if_neg hnormal, Nat.cast_add,
      Nat.cast_pow, Nat.cast_ofNat]
    rfl
  · have hexp0 : exp = 0 := not_not.mp hnormal
    refine hfinite 0 0 (by decide) (by decide) hinf ?_
    rw [hexp0, hzero, Format.magnitude, Format.magnitude, if_pos rfl, if_pos rfl, Nat.cast_zero,
      zero_mul, zero_mul]
  · have hexp0 : exp = 0 := not_not.mp hnormal
    have hlog : 2 ^ Nat.log2 frac ≤ frac := Nat.log2_self_le hzero
    have hlt : frac < 2 ^ (Nat.log2 frac + 1) := Nat.lt_log2_self
    have hl : Nat.log2 frac < 23 := (Nat.log2_lt hzero).mpr hfrac
    generalize Nat.log2 frac = l at hlog hlt hl
    have hpow : 2 ^ 52 = 2 ^ l * 2 ^ (52 - l) := by rw [← Nat.pow_add]; congr 1; omega
    have hmant : 2 ^ 52 + (frac - 2 ^ l) * 2 ^ (52 - l) = frac * 2 ^ (52 - l) := by
      rw [hpow, ← Nat.add_mul, Nat.add_sub_cancel' hlog]
    have hsmall : (frac - 2 ^ l) * 2 ^ (52 - l) < 2 ^ 52 := by
      rw [hpow]
      apply Nat.mul_lt_mul_of_pos_right _ (Nat.two_pow_pos _)
      rw [Nat.pow_succ] at hlt
      omega
    refine hfinite _ _ (by omega) hsmall hinf ?_
    have hmin : ((52 - l : ℕ) : ℤ) + (((l + 874 : ℕ) : ℤ) - 1075) = binary32.minExp := by
      rw [binary32_minExp]
      omega
    rw [binary64_normal (by omega), hmant, Nat.cast_mul, Nat.cast_pow, Nat.cast_ofNat,
      Format.mul_two_pow_zpow, hmin, hexp0, Format.magnitude, if_pos rfl]
theorem intOfFloat64_value {bits : BitVec 64} {n : Int} (h : intOfFloat64 bits = some n) :
    binary64.value bits.toNat = some (n : ℚ) := by
  obtain ⟨m, hm, hn⟩ := Option.bind_eq_some_iff.mp h
  rw [integralMagnitude_value hm]
  dsimp only at hn
  split_ifs at hn with hsign <;> obtain rfl := Option.some.inj hn
  · rw [if_pos hsign, Int.cast_natCast]
  · rw [if_neg hsign, Int.cast_neg, Int.cast_natCast]

/-! ## What is consumed -/

/-- An integer, or a float whose value is one. -/
def WireTree.IsNumber : WireTree → Prop
  | .leaf (.posFixedNum _) _ | .leaf (.negFixedNum _) _ => True
  | .leaf .uint8 _ | .leaf .uint16 _ | .leaf .uint32 _ | .leaf .uint64 _ => True
  | .leaf .int8 _ | .leaf .int16 _ | .leaf .int32 _ | .leaf .int64 _ => True
  | .leaf .float body => ∃ n : ℤ, binary32.value (BigEndian.decode body) = some (n : ℚ)
  | .leaf .double body => ∃ n : ℤ, binary64.value (BigEndian.decode body) = some (n : ℚ)
  | _ => False

def WireTree.IsBool : WireTree → Prop
  | .leaf .false _ | .leaf .true _ => True
  | _ => False

/-- The nil value. -/
def WireTree.nil : WireTree := .leaf .nil []

def WireTree.OrNil (P : WireTree → Prop) (t : WireTree) : Prop := P t ∨ t = .nil

/-- The reader consumes the bytes of one well-formed tree that satisfies `P`, whatever
follows. -/
def ReadsTree {α : Type} (x : Decoder α) (P : WireTree → Prop) : Prop :=
  Local x (fun _ b m => (∃ t : WireTree, t.WF ∧ P t ∧ b = t.flatten) ∧ m = 0)

theorem ReadsTree.consumes {α : Type} {x : Decoder α} {P : WireTree → Prop} (hx : ReadsTree x P)
    {i j : Input Levels} {a : α} (h : x i = .ok a j) :
    ∃ t : WireTree, t.WF ∧ P t ∧ Reads x i.state a t.flatten 0 ∧ i.rest = t.flatten ++ j.rest ∧
      j.state = i.state := by
  obtain ⟨b, m, hrest, hst, -, ⟨⟨t, ht, hP, rfl⟩, rfl⟩, hreads⟩ := hx i a j h
  exact ⟨t, ht, hP, hreads, hrest, hst⟩

/-- What follows a code, when the leaf is to satisfy `P`. -/
theorem readsTree_of_leaf {α : Type} {f : Code → Decoder α} {P : WireTree → Prop}
    (h : ∀ c, Local (f c) (fun _ b m => (∃ body, WireTree.Sized c .false body.length ∧
      P (.leaf c body) ∧ b = WireTree.lengthBytes c body.length ++ body) ∧ m = 0)) :
    ReadsTree (readCode >>= f) P := by
  refine (readCode_local.bind h).mono ?_
  rintro _ b m ⟨c, _, _, _, _, ⟨rfl, rfl⟩, ⟨⟨body, hsized, hP, rfl⟩, rfl⟩, rfl, rfl⟩
  exact ⟨⟨.leaf c body, hsized, hP, rfl⟩, by simp⟩

/-- A leaf that satisfies `P` whatever its content. -/
theorem leafRest_mono {α : Type} {x : Decoder α} {c : Code} {P : WireTree → Prop}
    (hP : ∀ body, P (.leaf c body)) (hx : Local x (fun _ b m => IsLeafRest c b ∧ m = 0)) :
    Local x (fun _ b m => (∃ body, WireTree.Sized c .false body.length ∧ P (.leaf c body) ∧
      b = WireTree.lengthBytes c body.length ++ body) ∧ m = 0) := by
  refine hx.mono ?_
  rintro _ b m ⟨⟨body, hsized, rfl⟩, rfl⟩
  exact ⟨⟨body, hsized, hP body, rfl⟩, rfl⟩

theorem intFromFloat64_local (bits : BitVec 64) :
    Local (intFromFloat64 bits)
      (fun _ b m => (∃ n : ℤ, binary64.value bits.toNat = some (n : ℚ)) ∧ b = [] ∧ m = 0) := by
  unfold intFromFloat64
  cases h : intOfFloat64 bits with
  | none => exact Local.fail _
  | some n => exact (Local.pure _).mono fun _ _ _ hpure => ⟨⟨n, intOfFloat64_value h⟩, hpure.2⟩

/-- A number of `w` bytes that is then checked. -/
theorem checked_leaf_local {α : Type} {c : Code} {w : Nat} (hc : c.layout = .leaf w)
    {f : Nat → Decoder α} {Q : Nat → Prop} {P : WireTree → Prop}
    (hf : ∀ n, Local (f n) (fun _ b m => Q n ∧ b = [] ∧ m = 0))
    (hP : ∀ body, body.length = w → Q (BigEndian.decode body) → P (.leaf c body)) :
    Local (readUint w >>= f)
      (fun _ b m => (∃ body, WireTree.Sized c .false body.length ∧ P (.leaf c body) ∧
        b = WireTree.lengthBytes c body.length ++ body) ∧ m = 0) := by
  refine ((readUint_local w).bind hf).mono ?_
  rintro _ b m ⟨n, _, _, _, _, ⟨hlt, rfl, rfl⟩, ⟨hQ, rfl, rfl⟩, rfl, rfl⟩
  have hlen := BigEndian.encode_length w n
  refine ⟨⟨BigEndian.encode w n, ?_, hP _ hlen ?_, ?_⟩, rfl⟩
  · simp only [WireTree.Sized, hc, hlen]
  · rwa [BigEndian.decode_encode hlt]
  · simp only [WireTree.lengthBytes, hc, List.append_nil, List.nil_append]

/-- `DecodeInt64` takes an integer, an integral float or a nil. -/
theorem decodeInt64_local : ReadsTree decodeInt64 (WireTree.OrNil WireTree.IsNumber) := by
  apply readsTree_of_leaf
  intro c
  unfold decodeIntCode
  dsimp only
  split
  case h_1 =>
    refine (Local.pure _).mono ?_
    rintro _ b m ⟨-, rfl, rfl⟩
    exact ⟨⟨[], rfl, .inr rfl, rfl⟩, rfl⟩
  case h_2 | h_3 => exact leafRest_mono (fun _ => .inl trivial) (pure_leaf_local rfl _)
  case h_12 =>
    refine checked_leaf_local rfl (fun n => intFromFloat64_local _) fun body hlen hvalue => .inl ?_
    have hlt : BigEndian.decode body < 2 ^ 32 := (BigEndian.decode_lt body).trans_eq (by rw [hlen]; norm_num)
    rw [value_float64OfFloat32, BitVec.toNat_ofNat, Nat.mod_eq_of_lt hlt] at hvalue
    exact hvalue
  case h_13 =>
    refine checked_leaf_local rfl (fun n => intFromFloat64_local _) fun body hlen hvalue => .inl ?_
    have hlt : BigEndian.decode body < 2 ^ 64 := (BigEndian.decode_lt body).trans_eq (by rw [hlen]; norm_num)
    rw [BitVec.toNat_ofNat, Nat.mod_eq_of_lt hlt] at hvalue
    exact hvalue
  case h_14 => exact Local.fail _
  all_goals exact leafRest_mono (fun _ => .inl trivial) (readUint_leaf_local rfl _)

theorem decodeBoolValue_local : ReadsTree decodeBoolValue (WireTree.OrNil WireTree.IsBool) := by
  apply readsTree_of_leaf
  intro c
  split
  case h_1 =>
    refine (Local.pure _).mono ?_
    rintro _ b m ⟨-, rfl, rfl⟩
    exact ⟨⟨[], rfl, .inr rfl, rfl⟩, rfl⟩
  case h_2 | h_3 => exact leafRest_mono (fun _ => .inl trivial) (pure_leaf_local rfl _)
  case h_4 => exact Local.fail _

theorem skipTimes_local {x : Decoder Unit} {k : Nat}
    (hx : Local x (fun _ b m => AreValues k b ∧ m = 0)) (o : Option Nat) :
    Local (skipTimes x o) (fun _ b m => ∀ n, o = some n → AreValues (k * n) b ∧ m = 0) := by
  cases o with
  | none => exact (Local.pure _).mono (by simp)
  | some n =>
    refine (Local.iterate (T := fun n b => AreValues (k * n) b) (by simpa using AreValues.zero)
      (fun n b b' hb hb' => ?_) (fun _ => hx) n ()).mono ?_
    · rw [Nat.mul_add, Nat.mul_one, Nat.add_comm]
      exact hb.append hb'
    · rintro _ b m h n' ⟨⟩
      exact h

theorem leaf_isValue_local {c : Code} {x : Decoder Unit} (h : Local x (fun _ b m => IsLeafRest c b ∧ m = 0)) :
    Local x (fun _ b m => IsValue (c.toByte :: b) ∧ m = 0) :=
  h.mono fun _ _ _ hb => ⟨hb.1.isValue, hb.2⟩

theorem readN_leaf_local {c : Code} {w : Nat} (hc : c.layout = .leaf w) :
    Local (do let _ ← readN w : Decoder Unit) (fun _ b m => IsLeafRest c b ∧ m = 0) := by
  refine ((Local.readN w).bind fun _ => Local.pure ()).mono ?_
  rintro _ b m ⟨_, _, _, _, _, ⟨rfl, rfl, rfl⟩, ⟨-, rfl, rfl⟩, rfl, rfl⟩
  exact ⟨isLeafRest_of_fixed (by simpa using hc), by simp⟩

theorem ext_leaf_local (c : Code) :
    Local (do
      let n ← parseExtLen c
      let _ ← readN (n + 1) : Decoder Unit) (fun _ b m => IsLeafRest c b ∧ m = 0) := by
  refine ((parseExtLen_local c).bind fun n => (Local.readN (n + 1)).bind fun _ => Local.pure ()).mono ?_
  rintro _ b m ⟨n, _, _, _, _, ⟨hsized, rfl, hm⟩,
    ⟨body, _, _, _, _, ⟨hbody, hlen, rfl⟩, ⟨-, rfl, rfl⟩, rfl, rfl⟩, rfl, rfl⟩
  rw [hbody, List.append_nil]
  exact ⟨⟨body, by rw [hlen]; exact hsized, by rw [hlen]⟩, by rw [hlen]; omega⟩

theorem skipArray_local {x : Decoder Unit} (hx : Local x (fun _ b m => AreValues 1 b ∧ m = 0)) {c : Code}
    (hc : c ≠ .nil) :
    Local (do skipTimes x (← arrayLen c)) (fun _ b m => IsValue (c.toByte :: b) ∧ m = 0) := by
  refine ((arrayLen_local hc).bind (skipTimes_local hx)).mono ?_
  rintro _ b m ⟨_, _, _, _, _, ⟨n, rfl, -, hsized, rfl, hn⟩, hR, rfl, rfl⟩
  obtain ⟨hvals, rfl⟩ := hR n rfl
  rw [Nat.one_mul] at hvals
  have hle := hvals.length_le
  exact ⟨hvals.isValue_node hsized, by omega⟩

theorem skipMap_local {x : Decoder Unit} (hx : Local x (fun _ b m => AreValues 1 b ∧ m = 0)) {c : Code}
    (hc : c ≠ .nil) :
    Local (do skipTimes (do x; x) (← mapLen c)) (fun _ b m => IsValue (c.toByte :: b) ∧ m = 0) := by
  have htwo : Local (do x; x) (fun _ b m => AreValues 2 b ∧ m = 0) := by
    refine (hx.bind fun _ => hx).mono ?_
    rintro _ b m ⟨_, _, _, _, _, ⟨h₁, rfl⟩, ⟨h₂, rfl⟩, rfl, rfl⟩
    exact ⟨h₁.append h₂, by simp⟩
  refine ((mapLen_local hc).bind (skipTimes_local htwo)).mono ?_
  rintro _ b m ⟨_, _, _, _, _, ⟨n, rfl, hsized, rfl, rfl⟩, hR, rfl, rfl⟩
  obtain ⟨hvals, rfl⟩ := hR n rfl
  have hle := hvals.length_le
  exact ⟨hvals.isValue_node hsized, by omega⟩

/-- `Skip` takes any value. -/
theorem skip_local (fuel : Nat) : Local (skip fuel) (fun _ b m => IsValue b ∧ m = 0) := by
  induction fuel with
  | zero => exact Local.fail _
  | succ fuel ih =>
    have hone : Local (skip fuel) (fun _ b m => AreValues 1 b ∧ m = 0) :=
      ih.mono fun _ _ _ h => ⟨h.1.areValues, h.2⟩
    refine Local.within ((readCode_local.bind (R := fun c _ b m => IsValue (c.toByte :: b) ∧ m = 0)
      fun c => ?_).mono ?_) fun _ _ => leaveDepth_enterDepth
    · cases c with
      | posFixedNum _ | negFixedNum _ | nil | false | true => exact leaf_isValue_local (pure_leaf_local rfl _)
      | fixedMap _ | map16 | map32 => exact skipMap_local hone (by simp)
      | fixedArray _ | array16 | array32 => exact skipArray_local hone (by simp)
      | fixedStr _ | bin8 | bin16 | bin32 | str8 | str16 | str32 =>
        exact leaf_isValue_local (bytes_leaf_local (by simp) () (fun _ => ()))
      | uint8 | int8 | uint16 | int16 | uint32 | int32 | float | uint64 | int64 | double =>
        exact leaf_isValue_local (readN_leaf_local rfl)
      | fixExt1 | fixExt2 | fixExt4 | fixExt8 | fixExt16 | ext8 | ext16 | ext32 =>
        exact leaf_isValue_local (ext_leaf_local _)
      | unused => exact Local.fail _
    · rintro _ b m ⟨c, _, _, _, _, ⟨rfl, rfl⟩, ⟨hv, rfl⟩, rfl, rfl⟩
      exact ⟨hv, by simp⟩

end Msgpack
