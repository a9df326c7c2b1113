-- SUMMARY: What the decoder makes of the scalars, strings and byte slices that the encoder wrote.
import ReticulumMf.Msgpack.Decode
import ReticulumMf.Msgpack.Encode

/-!
# Reading back what was written

An integer is written in as few bytes as hold it, and read back at the type
those bytes name; the loose decoder widens it. Its value survives
(`Scalar.eraseWidth_reread`). A string is read back as a string by both
decoders, a byte slice only by the strict one.
-/

namespace Msgpack

open ByteReader

/-! ## Integers -/

/-- The numbers of a type. -/
def IntKind.Holds (k : IntKind) (n : Int) : Prop :=
  if k.signed then -2 ^ (k.width - 1) ≤ n ∧ n < 2 ^ (k.width - 1) else 0 ≤ n ∧ n < 2 ^ k.width

/-- The type at which a compactly written integer is read back. -/
def compactKind (n : Int) : IntKind :=
  if n ≥ 0 then
    if n ≤ 0x7f then .int8
    else if n ≤ 0xff then .uint8
    else if n ≤ 0xffff then .uint16
    else if n ≤ 0xffffffff then .uint32
    else .uint64
  else if n ≥ -128 then .int8
  else if n ≥ -32768 then .int16
  else if n ≥ -2147483648 then .int32
  else .int64

/-- The number `n` as a decoder returns it at type `k`. -/
def intOf (loose : Bool) (k : IntKind) (n : Int) : Scalar := integer loose k (BitVec.ofInt k.width n)

theorem IntKind.value_ofInt {k : IntKind} {n : Int} (h : k.Holds n) :
    k.value (BitVec.ofInt k.width n) = n := by
  unfold IntKind.Holds at h
  unfold IntKind.value
  split at h
  · rename_i hs
    rw [if_pos hs, BitVec.toInt_ofInt]
    apply Int.bmod_eq_of_le <;> cases k <;> simp [IntKind.width] at h ⊢ <;> omega
  · rename_i hs
    rw [if_neg hs, BitVec.toNat_ofInt]
    cases k <;> simp [IntKind.width] at h ⊢ <;> omega

theorem compactKind_holds {n : Int} (hlo : -2 ^ 63 ≤ n) (hhi : n < 2 ^ 64) :
    (compactKind n).Holds n := by
  unfold compactKind
  split_ifs <;> simp [IntKind.Holds, IntKind.signed, IntKind.width] <;> omega

/-- An integer at the widest type that holds it. -/
def wideInt (n : Int) : Scalar :=
  if n < 2 ^ 63 then .int .int64 (BitVec.ofInt 64 n) else .int .uint64 (BitVec.ofInt 64 n)

/-- A scalar up to the Go type of an integer. -/
def Scalar.eraseWidth : Scalar → Scalar
  | .int k v => wideInt (k.value v)
  | s => s

theorem eraseWidth_integer (loose : Bool) (k : IntKind) (v : BitVec k.width) :
    (integer loose k v).eraseWidth = wideInt (k.value v) := by
  unfold integer
  split_ifs with hloose hsigned
  · have hvalue : IntKind.value .int64 (v.signExtend 64) = k.value v :=
      (BitVec.toInt_signExtend_of_le k.width_le).trans (if_pos hsigned).symm
    exact congrArg wideInt hvalue
  · have hvalue : IntKind.value .uint64 (v.setWidth 64) = k.value v :=
      (congrArg Nat.cast (BitVec.toNat_setWidth_of_le k.width_le)).trans (if_neg hsigned).symm
    exact congrArg wideInt hvalue
  · rfl

/-- The scalars that a field may hold. -/
def Scalar.IsPlain : Scalar → Prop
  | .nil | .bool _ | .int _ _ | .float64 _ | .string _ => True
  | .float32 _ | .time _ _ => False

/-- A plain scalar as it is read back. -/
def Scalar.reread (loose : Bool) : Scalar → Scalar
  | .int k v => intOf loose (compactKind (k.value v)) (k.value v)
  | s => s

theorem Scalar.eraseWidth_reread (loose : Bool) (s : Scalar) :
    (s.reread loose).eraseWidth = s.eraseWidth := by
  cases s with
  | int k v =>
    have hholds := compactKind_holds (k.le_value v) (k.value_lt v)
    rw [Scalar.reread, intOf, eraseWidth_integer, IntKind.value_ofInt hholds, Scalar.eraseWidth]
  | _ => rfl

/-! ## Scalars -/

section Leaves

variable (loose : Bool) (r : Bytes) (l : Levels)

theorem ofNat_unsigned (w : Nat) (n : Int) :
    BitVec.ofNat (8 * w) (unsigned w n) = BitVec.ofInt (8 * w) n := by
  have hnonneg : 0 ≤ n % 2 ^ (8 * w) := Int.emod_nonneg _ (Int.pow_pos (by decide)).ne'
  rw [unsigned, ← BitVec.ofInt_natCast, Int.toNat_of_nonneg hnonneg]
  apply BitVec.eq_of_toInt_eq
  rw [BitVec.toInt_ofInt, BitVec.toInt_ofInt]
  exact_mod_cast Int.emod_bmod n (2 ^ (8 * w))

theorem IntKind.ofNat_unsigned (k : IntKind) (n : Int) :
    BitVec.ofNat k.width (unsigned (k.width / 8) n) = BitVec.ofInt k.width n := by
  cases k <;> exact Msgpack.ofNat_unsigned _ n

theorem unsigned_lt (w : Nat) (n : Int) : unsigned w n < 256 ^ w := by
  have hnonneg : 0 ≤ n % 2 ^ (8 * w) := Int.emod_nonneg _ (Int.pow_pos (by decide)).ne'
  have hlt : n % 2 ^ (8 * w) < 2 ^ (8 * w) := Int.emod_lt_of_pos _ (Int.pow_pos (by decide))
  have hpow : (256 : Nat) ^ w = 2 ^ (8 * w) := by rw [Nat.pow_mul]
  rw [hpow, unsigned, Int.toNat_lt hnonneg]
  exact_mod_cast hlt

/-- A leaf that is a number, read at its own type. -/
theorem decodeInteger_reads {k : IntKind} {n : Nat} (h : n < 256 ^ (k.width / 8)) :
    decodeInteger loose k ⟨BigEndian.encode (k.width / 8) n ++ r, l⟩ =
      .ok (.scalar (integer loose k (BitVec.ofNat k.width n))) ⟨r, l⟩ := by
  rw [decodeInteger, bind_eq_of_ok (readUint_reads h r l)]
  rfl

/-- Past the code of a leaf, the decoder reads the leaf. -/
theorem decodeInterface_leaf {mapDecoder : Decoder Any → Decoder Any} {fuel : Nat} {c : Code}
    (hc : (c.isArray || c.isMap) = .false) (b : Bytes) :
    decodeInterface mapDecoder (fuel + 1) loose ⟨c.toByte :: b, l⟩ = decodeLeaf loose c ⟨b, l⟩ := by
  rw [decodeInterface, bind_eq_of_ok (readCode_reads c b l)]
  cases c <;> first | rfl | cases hc

end Leaves

section Scalars

variable {mapDecoder : Decoder Any → Decoder Any} {fuel : Nat} (loose : Bool) (r : Bytes) (l : Levels)

/-- A number behind its code. -/
theorem number_reads {c : Code} {k : IntKind} {n : Nat} (hn : n < 256 ^ (k.width / 8))
    (hc : (c.isArray || c.isMap) = .false)
    (hleaf : decodeLeaf loose c = decodeInteger loose k) (hlayout : c.layout = .leaf (k.width / 8)) :
    decodeInterface mapDecoder (fuel + 1) loose
        ⟨(WireTree.number (k.width / 8) c n).flatten ++ r, l⟩ =
      .ok (.scalar (integer loose k (BitVec.ofNat k.width n))) ⟨r, l⟩ := by
  rw [WireTree.flatten_number hlayout, write, List.cons_append, decodeInterface_leaf loose l hc, hleaf,
    decodeInteger_reads loose r l hn]

theorem uint_reads {n : Nat} (h : n < 2 ^ 64) :
    decodeInterface mapDecoder (fuel + 1) loose ⟨(WireTree.uint n).flatten ++ r, l⟩ =
      .ok (.scalar (intOf loose (compactKind n) n)) ⟨r, l⟩ := by
  have hpos : (n : Int) ≥ 0 := Int.natCast_nonneg n
  rw [compactKind, if_pos hpos, WireTree.uint]
  split_ifs with h₁ h₂ h₃ h₄ <;> try omega
  · have hmod : n % 128 = n := Nat.mod_eq_of_lt (by omega)
    have hflat : (WireTree.leaf (.posFixedNum (Fin.ofNat 128 n)) []).flatten ++ r =
        (Code.posFixedNum (Fin.ofNat 128 n)).toByte :: r := rfl
    rw [hflat, decodeInterface_leaf loose l rfl]
    simp [decodeLeaf, intOf, pure, EStateM.pure, Fin.ofNat, hmod, IntKind.width]
  · rw [intOf, BitVec.ofInt_natCast]
    exact number_reads loose r l (k := .uint8) (by simp [IntKind.width]; omega) rfl rfl rfl
  · rw [intOf, BitVec.ofInt_natCast]
    exact number_reads loose r l (k := .uint16) (by simp [IntKind.width]; omega) rfl rfl rfl
  · rw [intOf, BitVec.ofInt_natCast]
    exact number_reads loose r l (k := .uint32) (by simp [IntKind.width]; omega) rfl rfl rfl
  · rw [intOf, BitVec.ofInt_natCast]
    exact number_reads loose r l (k := .uint64) (by simp [IntKind.width]; omega) rfl rfl rfl

theorem int_reads {n : Int} (hlo : -2 ^ 63 ≤ n) (hhi : n < 2 ^ 64) :
    decodeInterface mapDecoder (fuel + 1) loose ⟨(WireTree.int n).flatten ++ r, l⟩ =
      .ok (.scalar (intOf loose (compactKind n) n)) ⟨r, l⟩ := by
  rw [WireTree.int]
  split_ifs with h₁ h₂ h₃ h₄ h₅
  · have hcast : ((n.toNat : Nat) : Int) = n := Int.toNat_of_nonneg h₁
    have hlt : n.toNat < 2 ^ 64 := by omega
    calc decodeInterface mapDecoder (fuel + 1) loose ⟨(WireTree.uint n.toNat).flatten ++ r, l⟩
        = .ok (.scalar (intOf loose (compactKind n.toNat) n.toNat)) ⟨r, l⟩ := uint_reads loose r l hlt
      _ = .ok (.scalar (intOf loose (compactKind n) n)) ⟨r, l⟩ := by rw [hcast]
  · have hkind : compactKind n = .int8 := by
      simp [compactKind, h₁, show n ≥ -128 by omega]
    have hmod : 224 + unsigned 1 n % 32 = unsigned 1 n := by
      unfold unsigned; omega
    have hflat : (WireTree.leaf (.negFixedNum (Fin.ofNat 32 (unsigned 1 n))) []).flatten ++ r =
        (Code.negFixedNum (Fin.ofNat 32 (unsigned 1 n))).toByte :: r := rfl
    rw [hflat, decodeInterface_leaf loose l rfl, hkind, intOf, ← IntKind.ofNat_unsigned]
    simp only [decodeLeaf, pure, EStateM.pure, Fin.ofNat, hmod]
    rfl
  · have hkind : compactKind n = .int8 := by simp [compactKind, h₁, h₃]
    rw [hkind, intOf, ← IntKind.ofNat_unsigned]
    exact number_reads loose r l (k := .int8) (unsigned_lt 1 n) rfl rfl rfl
  · have hkind : compactKind n = .int16 := by simp [compactKind, h₁, h₃, h₄]
    rw [hkind, intOf, ← IntKind.ofNat_unsigned]
    exact number_reads loose r l (k := .int16) (unsigned_lt 2 n) rfl rfl rfl
  · have hkind : compactKind n = .int32 := by simp [compactKind, h₁, h₃, h₄, h₅]
    rw [hkind, intOf, ← IntKind.ofNat_unsigned]
    exact number_reads loose r l (k := .int32) (unsigned_lt 4 n) rfl rfl rfl
  · have hkind : compactKind n = .int64 := by simp [compactKind, h₁, h₃, h₄, h₅]
    rw [hkind, intOf, ← IntKind.ofNat_unsigned]
    exact number_reads loose r l (k := .int64) (unsigned_lt 8 n) rfl rfl rfl

/-- The codes of strings and byte slices. -/
def Code.isText : Code → Bool
  | .fixedStr _ | .str8 | .str16 | .str32 | .bin8 | .bin16 | .bin32 => Bool.true
  | _ => Bool.false

theorem Code.isText_str (n : Nat) : (Code.str n).isText = .true := by
  unfold Code.str
  split_ifs <;> rfl

theorem Code.isText_bin (n : Nat) : (Code.bin n).isText = .true := by
  unfold Code.bin
  split_ifs <;> rfl

/-- The length of a string or byte slice, read back in front of its bytes. -/
theorem bytesLen_reads {c : Code} {n : Nat} (hc : c.isText = .true)
    (hsized : WireTree.Sized c .false n) {b : Bytes} (hb : n ≤ b.length) :
    bytesLen c ⟨WireTree.lengthBytes c n ++ b, l⟩ = .ok (some n) ⟨b, l⟩ := by
  have hroom : rejectOversizedBytes n ⟨b, l⟩ = .ok () ⟨b, l⟩ := require_ok_iff.mpr ⟨hb, rfl⟩
  cases c with
  | fixedStr k =>
    obtain rfl : n = k.val := hsized
    exact bind_eq_of_ok hroom
  | str8 | str16 | str32 | bin8 | bin16 | bin32 =>
    simp only [WireTree.Sized, Code.layout, Nat.sub_zero] at hsized
    simp [bytesLen, WireTree.lengthBytes, Code.layout, EStateM.map, Functor.map,
      sizedLen_reads hsized.2 hroom]
  | _ => cases hc

theorem decodeString_reads {c : Code} {s : Bytes} (hc : c.isText = .true)
    (hsized : WireTree.Sized c .false s.length) :
    decodeString c ⟨WireTree.lengthBytes c s.length ++ (s ++ r), l⟩ =
      .ok (.scalar (.string s)) ⟨r, l⟩ := by
  have hbody : (readN s.length : Decoder Bytes) ⟨s ++ r, l⟩ = .ok s ⟨r, l⟩ :=
    readN_ok_iff.mpr ⟨rfl, rfl, rfl⟩
  rw [decodeString, bind_eq_of_ok (bytesLen_reads l hc hsized (by simp))]
  exact bind_eq_of_ok hbody

theorem decodeBytes_reads {c : Code} {s : Bytes} (hc : c.isText = .true)
    (hsized : WireTree.Sized c .false s.length) :
    decodeBytes c ⟨WireTree.lengthBytes c s.length ++ (s ++ r), l⟩ = .ok (.bytes s) ⟨r, l⟩ := by
  have hbody : (readN s.length : Decoder Bytes) ⟨s ++ r, l⟩ = .ok s ⟨r, l⟩ :=
    readN_ok_iff.mpr ⟨rfl, rfl, rfl⟩
  rw [decodeBytes, bind_eq_of_ok (bytesLen_reads l hc hsized (by simp))]
  exact bind_eq_of_ok hbody

theorem decodeLeaf_str (n : Nat) : decodeLeaf loose (Code.str n) = decodeString (Code.str n) := by
  unfold Code.str
  split_ifs <;> rfl

theorem decodeLeaf_bin (n : Nat) :
    decodeLeaf loose (Code.bin n) =
      if loose then decodeString (Code.bin n) else decodeBytes (Code.bin n) := by
  have hcode : Code.bin n = .bin8 ∨ Code.bin n = .bin16 ∨ Code.bin n = .bin32 := by
    unfold Code.bin
    split_ifs <;> simp
  rcases hcode with h | h | h <;> rw [h] <;> rfl

/-- A string or byte slice behind its code. -/
theorem text_reads {c : Code} {s : Bytes} {v : Any} (hc : c.isText = .true)
    (h : decodeLeaf loose c ⟨WireTree.lengthBytes c s.length ++ (s ++ r), l⟩ = .ok v ⟨r, l⟩) :
    decodeInterface mapDecoder (fuel + 1) loose ⟨(WireTree.leaf c s).flatten ++ r, l⟩ =
      .ok v ⟨r, l⟩ := by
  have hleaf : (c.isArray || c.isMap) = .false := by cases c <;> first | rfl | cases hc
  rw [WireTree.flatten, List.cons_append, decodeInterface_leaf loose l hleaf, List.append_assoc, h]

/-- A byte slice is read as one by the strict decoder, as a string by the loose one. -/
def rereadBytes (b : Bytes) : Any := if loose then .scalar (.string b) else .bytes b

theorem bytes_reads {b : Bytes} (h : b.length < 2 ^ 32) :
    decodeInterface mapDecoder (fuel + 1) loose
        ⟨(WireTree.leaf (.bin b.length) b).flatten ++ r, l⟩ =
      .ok (rereadBytes loose b) ⟨r, l⟩ := by
  have htext := Code.isText_bin b.length
  apply text_reads loose r l htext
  rw [decodeLeaf_bin, rereadBytes]
  cases loose with
  | false => exact decodeBytes_reads r l htext (Code.sized_bin h)
  | true => exact decodeString_reads r l htext (Code.sized_bin h)

/-- A plain scalar is read back at any place. -/
theorem Scalar.reads {s : Scalar} (hplain : s.IsPlain) (hfits : s.Fits) :
    decodeInterface mapDecoder (fuel + 1) loose ⟨(s.tree .true).flatten ++ r, l⟩ =
      .ok (.scalar (s.reread loose)) ⟨r, l⟩ := by
  cases s with
  | nil => exact decodeInterface_leaf loose l (c := .nil) rfl r
  | bool b =>
    cases b with
    | false => exact decodeInterface_leaf loose l (c := .false) rfl r
    | true => exact decodeInterface_leaf loose l (c := .true) rfl r
  | int k v =>
    -- an unsigned number is non-negative, so it is written as `encodeInt` would
    have htree : (Scalar.int k v).tree .true = .int (k.value v) := by cases k <;> rfl
    rw [htree]
    exact int_reads loose r l (k.le_value v) (k.value_lt v)
  | float64 bits =>
    have hflat : ((Scalar.float64 bits).tree .true).flatten ++ r =
        Code.double.toByte :: (BigEndian.encode 8 bits.toNat ++ r) := by
      rw [Scalar.flatten_tree, encodeScalar, write, List.cons_append]
    rw [hflat, decodeInterface_leaf loose l (c := .double) rfl]
    have hread := readUint_reads (w := 8) (n := bits.toNat) bits.isLt r l
    exact (bind_eq_of_ok hread).trans (by rw [BitVec.ofNat_toNat, BitVec.setWidth_eq]; rfl)
  | string s =>
    apply text_reads loose r l (Code.isText_str s.length)
    rw [decodeLeaf_str]
    exact decodeString_reads r l (Code.isText_str s.length) (Code.sized_str hfits)
  | float32 bits => exact hplain.elim
  | time sec nsec => exact hplain.elim

end Scalars

/-! ## Arrays and maps -/

section Nodes

variable {mapDecoder : Decoder Any → Decoder Any} {fuel : Nat} (loose : Bool) (l : Levels)

theorem Code.isArray_array (n : Nat) : (Code.array n).isArray = .true := by
  unfold Code.array
  split_ifs <;> rfl

theorem Code.isMap_map (n : Nat) : (Code.map n).isMap = .true := by
  unfold Code.map
  split_ifs <;> rfl

theorem decodeInterface_array {c : Code} (hc : c.isArray = .true) (b : Bytes) :
    decodeInterface mapDecoder (fuel + 1) loose ⟨c.toByte :: b, l⟩ =
      decodeSlice (decodeInterfaceCond (decodeInterface mapDecoder fuel .true)) c ⟨b, l⟩ := by
  rw [decodeInterface, bind_eq_of_ok (readCode_reads c b l)]
  cases c <;> first | rfl | cases hc

theorem decodeInterface_map {c : Code} (hc : c.isMap = .true) (b : Bytes) :
    decodeInterface mapDecoder (fuel + 1) loose ⟨c.toByte :: b, l⟩ =
      mapDecoder (decodeInterface mapDecoder fuel .false) ⟨c.toByte :: b, l⟩ := by
  rw [decodeInterface, bind_eq_of_ok (readCode_reads c b l)]
  cases c <;> first | rfl | cases hc

/-- The length of a map, read back in front of at least as many pairs of bytes. -/
theorem decodeMapLen_reads {c : Code} {n : Nat} (hc : c.isMap = .true)
    (hsized : WireTree.Sized c .true (2 * n)) {b : Bytes} (hb : 2 * n ≤ b.length) :
    decodeMapLen ⟨c.toByte :: (WireTree.lengthBytes c (2 * n) ++ b), l⟩ = .ok (some n) ⟨b, l⟩ := by
  have hroom : rejectOversizedContainer 2 .oversizedMap n ⟨b, l⟩ = .ok () ⟨b, l⟩ :=
    require_ok_iff.mpr ⟨by simp only; omega, rfl⟩
  rw [decodeMapLen, bind_eq_of_ok (readCode_reads c _ l)]
  cases c with
  | fixedMap k =>
    obtain rfl : n = k.val := by
      have h : 2 * n = 2 * k.val := hsized
      omega
    exact bind_eq_of_ok hroom
  | map16 | map32 =>
    simp only [WireTree.Sized, Code.layout] at hsized
    have hlen : 2 * n / 2 = n := by omega
    rw [hlen] at hsized
    simp [mapLen, Code.isExt, WireTree.lengthBytes, Code.layout, EStateM.map, Functor.map,
      sizedLen_reads hsized.2 hroom]
  | _ => cases hc

/-- The elements of an array in a row, each read by the same decoder. -/
theorem elems_readsIff {elem : Decoder Any} {p : Any → Prop} {g : Any → Any} {xs : List Any}
    {ts : List WireTree} (hts : Any.trees .true xs = some ts)
    (helem : ∀ x ∈ xs, ∀ t, x.tree .true = some t →
      ∀ r, ReadsIff elem ⟨t.flatten ++ r, l⟩ (p x) (g x) ⟨r, l⟩) (out : List Any) (r : Bytes) :
    ReadsIff (iterate (fun s => return s ++ [← elem]) xs.length out)
      ⟨WireTree.flattenAll ts ++ r, l⟩ (∀ x ∈ xs, p x) (out ++ xs.map g) ⟨r, l⟩ := by
  induction xs generalizing ts out with
  | nil =>
    simp only [Any.trees, Option.some.injEq] at hts
    subst hts
    apply ReadsIff.congr (ReadsIff.of_ok (by simp [iterate, WireTree.flattenAll, pure, EStateM.pure]))
    simp
  | cons x xs ih =>
    simp only [Any.trees, bind, pure, Option.bind_eq_some_iff, Option.some.injEq] at hts
    obtain ⟨t, ht, ts', hts', rfl⟩ := hts
    have hx := helem x (by simp) t ht (WireTree.flattenAll ts' ++ r)
    have hstep : ReadsIff (do return out ++ [← elem])
        ⟨t.flatten ++ (WireTree.flattenAll ts' ++ r), l⟩ (p x) (out ++ [g x])
        ⟨WireTree.flattenAll ts' ++ r, l⟩ := hx.map (f := fun v => out ++ [v])
    have hrest := ih hts' (fun y hy => helem y (by simp [hy])) (out ++ [g x])
    have hboth := hstep.bind hrest
    rw [WireTree.flattenAll, List.append_assoc]
    apply ReadsIff.congr _ (List.forall_mem_cons (p := p)).symm
    rw [List.append_assoc, List.singleton_append] at hboth
    exact hboth

theorem decodeSlice_readsIff {elem : Decoder Any} {p : Any → Prop} {g : Any → Any} {xs : List Any}
    {ts : List WireTree} (hts : Any.trees .true xs = some ts) (hfits : (Any.slice xs).Fits)
    (helem : ∀ x ∈ xs, ∀ t, x.tree .true = some t →
      ∀ r, ReadsIff elem ⟨t.flatten ++ r, l⟩ (p x) (g x) ⟨r, l⟩) (r : Bytes) :
    ReadsIff (decodeSlice elem (.array xs.length))
      ⟨WireTree.lengthBytes (.array xs.length) xs.length ++ (WireTree.flattenAll ts ++ r), l⟩
      (∀ x ∈ xs, p x) (.slice (xs.map g)) ⟨r, l⟩ := by
  have htree : (Any.slice xs).tree .true = some (.node (.array xs.length) ts) := by
    rw [Any.tree, hts, Option.map_some]
  have hwf := Any.tree_wf htree hfits
  have hlen : xs.length ≤ (WireTree.flattenAll ts).length :=
    AreValues.length_le ⟨ts, hwf.2, Any.length_trees hts, rfl⟩
  have hsized := Code.sized_array (Any.forall_slice_iff.mp hfits).1
  have hhead := arrayLen_reads (Code.isArray_array xs.length) hsized
    (r := WireTree.flattenAll ts ++ r) (by rw [List.length_append]; omega) l
  apply ReadsIff.bind_ok hhead
  exact (elems_readsIff l hts helem [] r).map (f := Any.slice)

end Nodes

end Msgpack
