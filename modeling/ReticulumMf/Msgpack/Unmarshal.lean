-- SUMMARY: Unmarshal into an interface with the default flags, and what it reads of a byte slice.
import ReticulumMf.Msgpack.Reread

/-!
# Unmarshal

`Unmarshal(data, &v)` for a variable of type `any`: a decoder with no flag set
and no map decoder installed, so that array elements are read by the strict
`DecodeInterface` and maps by `DecodeMap`. Bytes behind the value are ignored.

The encoder writes the length of a byte slice modulo `2 ^ 32`; the decoder then
reads that many of its bytes (`decodeBytes_truncates`).
-/

namespace Msgpack

open ByteReader

/-! ## The default decoder -/

/-- `m[mk] = mv` on a `map[string]any`. -/
def assign (mk : Bytes) (mv : Any) : List (Scalar × Any) → List (Scalar × Any)
  | [] => [(.string mk, mv)]
  | e :: es => if e.1 = .string mk then (.string mk, mv) :: es else e :: assign mk mv es

def decodeMapKey : Decoder Bytes := do
  match ← readCode >>= bytesLen with
  | none => return []
  | some n => readN n

/-- `DecodeMap`. -/
def decodeMap (decodeValue : Decoder Any) : Decoder Any := do
  match ← decodeMapLen with
  | none => return .typedNil (.map .string)
  | some n =>
    .map .string <$> iterate (fun m => do
      let mk ← decodeMapKey
      let mv ← decodeValue
      return assign mk mv m) n []

/-- `DecodeInterface` of a decoder with no flag set. -/
def decodeDefault : Nat → Decoder Any
  | 0 => fail .outOfFuel
  | fuel + 1 => do
    let c ← readCode
    match c with
    | .fixedMap _ | .map16 | .map32 =>
      unreadByte c.toByte >>= fun _ => decodeMap (decodeInterfaceCond (decodeDefault fuel))
    | .fixedArray _ | .array16 | .array32 =>
      decodeSlice (decodeInterfaceCond (decodeDefault fuel)) c
    | c => decodeLeaf false c

/-- `DecodeValue` on a variable of type `any`. The depth is entered twice, here
and in `decodeInterfaceCond`; its limit bounds the nesting. -/
def decodeValue : Decoder Any :=
  within enterDepth leaveDepth (decodeInterfaceCond (decodeDefault defaultDecodeDepthLimit))

def unmarshal (data : Bytes) : Except (Error DecodeError) Any :=
  match decodeValue ⟨data, ⟨0, 0⟩⟩ with
  | .ok v _ => .ok v
  | .error e _ => .error e

/-! ## Reading -/

theorem decodeInterfaceCond_reads {x : Decoder Any} {b r : Bytes} {d : Nat} {v : Any}
    (hd : d + 1 ≤ defaultDecodeDepthLimit) (h : x ⟨b, ⟨d + 1, 0⟩⟩ = .ok v ⟨r, ⟨d + 1, 0⟩⟩) :
    decodeInterfaceCond x ⟨b, ⟨d, 0⟩⟩ = .ok v ⟨r, ⟨d, 0⟩⟩ := by
  have henter : enterDepth ⟨d, 0⟩ = .ok ⟨d + 1, 0⟩ := if_neg (by exact Nat.not_lt.mpr hd)
  exact ((ReadsIff.of_ok h).within henter rfl).reads trivial

/-- The next element of an array. -/
theorem iterate_append {elem : Decoder Any} {i j : Input Levels} {v : Any} (h : elem i = .ok v j)
    (n : Nat) (s : List Any) :
    iterate (fun s => return s ++ [← elem]) (n + 1) s i =
      iterate (fun s => return s ++ [← elem]) n (s ++ [v]) j := by
  have hstep : (do return s ++ [← elem] : Decoder (List Any)) i = .ok (s ++ [v]) j :=
    (bind_eq_of_ok h).trans rfl
  exact bind_eq_of_ok hstep

section Default

variable {fuel : Nat} (l : Levels)

theorem decodeDefault_leaf {c : Code} (hc : (c.isArray || c.isMap) = .false) (b : Bytes) :
    decodeDefault (fuel + 1) ⟨c.toByte :: b, l⟩ = decodeLeaf false c ⟨b, l⟩ := by
  rw [decodeDefault, bind_eq_of_ok (readCode_reads c b l)]
  cases c <;> first | rfl | cases hc

theorem decodeDefault_array {c : Code} (hc : c.isArray = .true) (b : Bytes) :
    decodeDefault (fuel + 1) ⟨c.toByte :: b, l⟩ =
      decodeSlice (decodeInterfaceCond (decodeDefault fuel)) c ⟨b, l⟩ := by
  rw [decodeDefault, bind_eq_of_ok (readCode_reads c b l)]
  cases c <;> first | rfl | cases hc

theorem decodeDefault_float64 (fuel : Nat) (bits : BitVec 64) (r : Bytes) :
    decodeDefault (fuel + 1) ⟨encodeScalar false (.float64 bits) ++ r, l⟩ =
      .ok (.scalar (.float64 bits)) ⟨r, l⟩ := by
  rw [encodeScalar, write, List.cons_append, decodeDefault_leaf l (c := .double) rfl]
  have hread := readUint_reads (w := 8) (n := bits.toNat) bits.isLt r l
  exact (bind_eq_of_ok hread).trans (by rw [BitVec.ofNat_toNat, BitVec.setWidth_eq]; rfl)

/-- An array of at most 15 elements behind its code. -/
theorem decodeDefault_slice {n : Fin 16} {b : Bytes} {j : Input Levels} {xs : List Any}
    (hroom : n.val ≤ b.length)
    (helems : iterate (fun s => return s ++ [← decodeInterfaceCond (decodeDefault fuel)]) n.val []
      ⟨b, l⟩ = .ok xs j) :
    decodeDefault (fuel + 1) ⟨(Code.fixedArray n).toByte :: b, l⟩ = .ok (.slice xs) j := by
  have hhead : arrayLen (.fixedArray n) ⟨b, l⟩ = .ok (some n.val) ⟨b, l⟩ :=
    arrayLen_reads (c := .fixedArray n) rfl rfl hroom l
  rw [decodeDefault_array l (c := .fixedArray n) rfl, decodeSlice, bind_eq_of_ok hhead]
  exact (ReadsIff.of_ok helems).map.reads trivial

end Default

/-! ## Byte slices of any length -/

/-- The length header holds the length modulo `2 ^ 32`. -/
theorem lengthBytes_bin (n : Nat) :
    WireTree.lengthBytes (.bin n) n = WireTree.lengthBytes (.bin n) (n % 2 ^ 32) ∧
      WireTree.Sized (.bin n) .false (n % 2 ^ 32) := by
  by_cases h : n < 2 ^ 32
  · rw [Nat.mod_eq_of_lt h]
    exact ⟨rfl, Code.sized_bin h⟩
  · have hcode : Code.bin n = .bin32 := by
      rw [Code.bin, if_neg (by omega), if_neg (by omega)]
    rw [hcode]
    constructor
    · exact (BigEndian.encode_mod 4 n).symm
    · exact ⟨Nat.zero_le _, Nat.mod_lt n (Nat.two_pow_pos 32)⟩

/-- As many bytes of a slice are read as its length header says. -/
theorem decodeBytes_truncates (b r : Bytes) (l : Levels) :
    decodeBytes (.bin b.length) ⟨WireTree.lengthBytes (.bin b.length) b.length ++ (b ++ r), l⟩ =
      .ok (.bytes (b.take (b.length % 2 ^ 32))) ⟨b.drop (b.length % 2 ^ 32) ++ r, l⟩ := by
  obtain ⟨hbytes, hsized⟩ := lengthBytes_bin b.length
  have hle : b.length % 2 ^ 32 ≤ b.length := Nat.mod_le _ _
  have hbody : (readN (b.length % 2 ^ 32) : Decoder Bytes) ⟨b ++ r, l⟩ =
      .ok (b.take (b.length % 2 ^ 32)) ⟨b.drop (b.length % 2 ^ 32) ++ r, l⟩ := by
    apply readN_ok_iff.mpr
    refine ⟨List.length_take_of_le hle, ?_, rfl⟩
    rw [← List.append_assoc, List.take_append_drop]
  have hhead := bytesLen_reads l (Code.isText_bin b.length) hsized (b := b ++ r)
    (by rw [List.length_append]; omega)
  rw [hbytes, decodeBytes, bind_eq_of_ok hhead]
  exact bind_eq_of_ok hbody

theorem decodeDefault_bytes (fuel : Nat) (b r : Bytes) (l : Levels) :
    decodeDefault (fuel + 1) ⟨encodeBytesLen b.length ++ b ++ r, l⟩ =
      .ok (.bytes (b.take (b.length % 2 ^ 32))) ⟨b.drop (b.length % 2 ^ 32) ++ r, l⟩ := by
  have hleaf : ((Code.bin b.length).isArray || (Code.bin b.length).isMap) = .false := by
    unfold Code.bin
    split_ifs <;> rfl
  rw [encodeBytesLen_eq, List.cons_append, List.cons_append, decodeDefault_leaf l hleaf,
    decodeLeaf_bin, if_neg (by decide), List.append_assoc]
  exact decodeBytes_truncates b r l

end Msgpack
