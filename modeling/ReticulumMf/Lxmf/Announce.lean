-- SUMMARY: Announce data of a delivery destination: its two formats, and the readers of its elements.
import ReticulumMf.Lib.Utf8
import ReticulumMf.Lxmf.Reread

/-!
# Announce data

An announce carries the display name alone, as text, or a MessagePack array of the
name, the stamp cost and the list of supported features. The readers tell the two
apart by the first byte. What the array was built from is read back
(`announce_read_back`); a name whose first byte is that of a long array is not
(`legacy_name_read_iff`).
-/

namespace Lxmf

open Msgpack ByteReader

inductive AnnounceError where
  | tooLarge
  | decode (e : PayloadError)
  | arrayTooLong
  | displayNameType
  deriving DecidableEq, Repr

def announceAppDataArrayMax : Nat := 32
def maxAnnounceAppDataBytes : Nat := 8192

/-- The peer accepts compressed resources. -/
def sfCompression : UInt8 := 0x00

/-! ## Reading -/

/-- `unmarshalMsgpackArray`; the nil array is empty. -/
def unmarshalMsgpackArray (appData : Bytes) : Except AnnounceError (List Any) := do
  let (n, r) ← (runDecoder decodeArrayLen ⟨appData, ⟨0, 0⟩⟩).mapError .decode
  match n with
  | none => return []
  | some n =>
    if n > announceAppDataArrayMax then .error .arrayTooLong
    else
      let (out, _) ← (runDecoder (iterate appendElement n []) r).mapError .decode
      return out

def isMsgpackArray (b : UInt8) : Bool := (b ≥ 0x90 && b ≤ 0x9f) || b = 0xdc || b = 0xdd

def sanitizeAnnounceDisplayName (raw : Bytes) : Bytes := Utf8.trimSpace (raw.filter (· ≠ 0))

/-- The integers that an `int64` holds, whatever their type. -/
def asInt64 : Any → Option Int
  | .scalar (.int k v) => if k.value v < 2 ^ 63 then some (k.value v) else none
  | _ => none

/-- How each reader starts: without data, with too much, with text, with an array. -/
def fromAppData {α : Type} (empty : α) (legacy : Bytes → α) (read : List Any → Except AnnounceError α)
    (appData : Bytes) : Except AnnounceError α :=
  match appData with
  | [] => .ok empty
  | b :: _ =>
    if appData.length > maxAnnounceAppDataBytes then .error .tooLarge
    else if isMsgpackArray b then unmarshalMsgpackArray appData >>= read
    else .ok (legacy appData)

def displayNameOf : List Any → Except AnnounceError Bytes
  | [] => .ok []
  | .scalar .nil :: _ => .ok []
  | .bytes v :: _ => .ok (sanitizeAnnounceDisplayName v)
  | .typedNil .bytes :: _ => .ok (sanitizeAnnounceDisplayName [])
  | .scalar (.string v) :: _ => .ok (sanitizeAnnounceDisplayName v)
  | _ :: _ => .error .displayNameType

def displayNameFromAppData : Bytes → Except AnnounceError Bytes :=
  fromAppData [] id displayNameOf

def clampAnnounceStampCost (cost : Int) : Option Int := if cost < 0 then none else some cost

def stampCostOf : List Any → Option Int
  | _ :: .scalar (.int .int _) :: _ | _ :: .scalar (.int .uint _) :: _ => none
  | _ :: .scalar (.int k v) :: _ =>
    if k.value v < 2 ^ 63 then clampAnnounceStampCost (k.value v) else none
  | _ => none

/-- The cost; none if `ok` is false. -/
def stampCostFromAppData : Bytes → Except AnnounceError (Option Int) :=
  fromAppData none (fun _ => none) fun arr => .ok (stampCostOf arr)

/-- The feature that an element of the list names. -/
def featureCode (c : Any) : Option UInt8 :=
  (asInt64 c).bind fun v => if v < 0 ∨ v > 0xff then none else some (UInt8.ofNat v.toNat)

def compressionSupportOf : List Any → Bool
  | _ :: _ :: .slice codes :: _ => codes.any fun c => featureCode c = some sfCompression
  | _ :: _ :: .typedNil .slice :: _ => false
  | _ => true

/-- Whether compression is supported; none if `ok` is false. -/
def compressionSupportFromAppData : Bytes → Except AnnounceError (Option Bool) :=
  fromAppData none (fun _ => some true) fun arr => .ok (some (compressionSupportOf arr))

def featureSupportOf : List Any → Option Bytes
  | _ :: _ :: .slice raw :: _ => some (raw.filterMap featureCode)
  | _ :: _ :: .typedNil .slice :: _ => some []
  | _ => none

/-- The features; none if `ok` is false. -/
def featureSupportFromAppData : Bytes → Except AnnounceError (Option Bytes) :=
  fromAppData none (fun _ => none) fun arr => .ok (featureSupportOf arr)

/-! ## Writing -/

def encodeAnnounceAppData (displayName : Bytes) : Bytes := displayName

def marshalAnnounceAppData (payload : List Any) : Except EncodeError Bytes :=
  encode true (.slice payload)

def costElement (stampCost : BitVec 64) : Any :=
  if stampCost.toInt ≥ 0 then .scalar (.int .int64 stampCost) else .scalar .nil

def encodeAnnounceAppDataV5 (displayName : Bytes) (stampCost : BitVec 64) : Except EncodeError Bytes :=
  marshalAnnounceAppData [.bytes displayName, costElement stampCost]

/-- The third element; there is none for nil features. -/
def featureElement : GoBytes → List Any
  | none => []
  | some features => [.slice (features.map fun f => .scalar (byteKey f))]

def encodeAnnounceAppDataV5WithFeatures (displayName : Bytes) (stampCost : BitVec 64)
    (features : GoBytes) : Except EncodeError Bytes :=
  marshalAnnounceAppData ([.bytes displayName, costElement stampCost] ++ featureElement features)

/-! ## Arrays -/

/-- An array of elements that are decoded one by one. -/
theorem unmarshalMsgpackArray_decodes {c : Code} {ts : List WireTree} {vs : List Any}
    (hc : c.isArray) (hsized : WireTree.Sized c .true ts.length) (hwf : WireTree.AllWF ts)
    (hmax : ts.length ≤ announceAppDataArrayMax) (hdec : List.Forall₂ Decodes ts vs) :
    unmarshalMsgpackArray (WireTree.node c ts).flatten = .ok vs := by
  have hlen : runDecoder decodeArrayLen ⟨(WireTree.node c ts).flatten, ⟨0, 0⟩⟩ =
      .ok (some ts.length, ⟨WireTree.flattenAll ts, ⟨0, 0⟩⟩) :=
    runDecoder_ok_iff.mpr (decodeArrayLen_ok_iff.mpr
      ⟨c, hc, hsized, WireTree.length_le_flattenAll ts, rfl, rfl⟩)
  have helems : runDecoder (iterate appendElement ts.length []) ⟨WireTree.flattenAll ts, ⟨0, 0⟩⟩ =
      .ok (vs, ⟨[], ⟨0, 0⟩⟩) :=
    runDecoder_ok_iff.mpr ((iterate_appendElement_ok_iff rfl).mpr
      ⟨ts, vs, hwf, rfl, hdec, rfl, (List.append_nil _).symm, rfl⟩)
  simp only [unmarshalMsgpackArray, hlen, helems, Except.mapError, bind, Except.bind,
    Nat.not_lt.mpr hmax, if_false]
  rfl

/-- Field values that were written as an array are read back. -/
theorem unmarshalMsgpackArray_encoded {payload : List Any} {data : Bytes}
    (hdata : marshalAnnounceAppData payload = .ok data) (hsize : data.length < 2 ^ 32)
    (hmax : payload.length ≤ announceAppDataArrayMax)
    (hv : ∀ x ∈ payload, FieldValue x ∧ WithinLimits ⟨0, 0⟩ x) :
    unmarshalMsgpackArray data = .ok (payload.map (reread false)) := by
  obtain ⟨t, ht, rfl⟩ := encode_ok_iff.mp hdata
  have hfits := Any.fits_of_length ht hsize
  have hwf := Any.tree_wf ht hfits
  simp only [Any.tree, Option.map_eq_some_iff] at ht
  obtain ⟨ts, hts, rfl⟩ := ht
  apply unmarshalMsgpackArray_decodes (Code.isArray_array _) hwf.1 hwf.2
  · rw [Any.length_trees hts]
    exact hmax
  · exact (forall₂_decodes_iff (fun x hx => (hv x hx).1) (Any.forall_slice_iff.mp hfits).2 hts _).mpr
      ⟨fun x hx => (hv x hx).2, rfl⟩

/-! ## Elements -/

/-- An integer of a sized type is a cost if it is one of an `int64` and not negative. -/
theorem stampCostOf_int {k : IntKind} (hk : k ≠ .int ∧ k ≠ .uint) (v : BitVec k.width) (name : Any)
    (rest : List Any) :
    stampCostOf (name :: .scalar (.int k v) :: rest) =
      if k.value v < 2 ^ 63 then clampAnnounceStampCost (k.value v) else none := by
  cases k with
  | int => exact absurd rfl hk.1
  | uint => exact absurd rfl hk.2
  | _ => rfl

theorem compactKind_sized (n : Int) : compactKind n ≠ .int ∧ compactKind n ≠ .uint := by
  unfold compactKind
  split_ifs <;> decide

theorem stampCostOf_reread (name : Any) (cost : BitVec 64) (rest : List Any) :
    stampCostOf (name :: reread false (costElement cost) :: rest) =
      if cost.toInt ≥ 0 then some cost.toInt else none := by
  unfold costElement
  split_ifs with hcost
  · have hlt : cost.toInt < 2 ^ 63 := cost.toInt_lt
    have hread : (compactKind cost.toInt).value (BitVec.ofInt _ cost.toInt) = cost.toInt :=
      IntKind.value_ofInt (compactKind_holds (by omega) (by omega))
    have hcode : reread false (.scalar (.int .int64 cost)) =
        .scalar (.int (compactKind cost.toInt) (BitVec.ofInt _ cost.toInt)) := rfl
    rw [hcode, stampCostOf_int (compactKind_sized _), hread, if_pos hlt, clampAnnounceStampCost,
      if_neg (Int.not_lt.mpr hcost)]
  · rfl

theorem featureCode_reread (f : UInt8) :
    featureCode (reread true (.scalar (byteKey f))) = some f := by
  have h : ∀ i : Fin 256, featureCode (reread true (.scalar (byteKey (UInt8.ofFin i)))) =
      some (UInt8.ofFin i) := by
    decide +kernel
  exact h f.toFin

theorem features_reread (features : Bytes) :
    (rereadAll (features.map fun f => .scalar (byteKey f))).filterMap featureCode = features := by
  rw [rereadAll_eq, List.map_map, List.filterMap_map]
  have hcode : featureCode ∘ reread true ∘ (fun f => Any.scalar (byteKey f)) = some :=
    funext featureCode_reread
  rw [hcode, List.filterMap_some]

theorem any_featureCode (codes : List Any) (f : UInt8) :
    (codes.any fun c => featureCode c = some f) = decide (f ∈ codes.filterMap featureCode) := by
  rw [Bool.eq_iff_iff, List.any_eq_true, decide_eq_true_iff, List.mem_filterMap]
  simp only [decide_eq_true_iff]

/-- The elements are field values within the limits of the decoder. -/
theorem announce_fieldValues (displayName : Bytes) (cost : BitVec 64) (features : GoBytes) :
    ∀ x ∈ [.bytes displayName, costElement cost] ++ featureElement features,
      FieldValue x ∧ WithinLimits ⟨0, 0⟩ x := by
  have hscalar (s : Scalar) (depth : Nat) (hdepth : depth ≤ 1) : WithinLimits ⟨depth, 0⟩ (.scalar s) :=
    withinLimits_leaf (hdepth.trans (by decide)) (Nat.zero_le _) ⟨rfl, rfl⟩ trivial
  intro x hx
  simp only [List.cons_append, List.nil_append, List.mem_cons] at hx
  obtain rfl | rfl | hx := hx
  · exact ⟨trivial, withinLimits_leaf (by decide) (by decide) ⟨rfl, rfl⟩ trivial⟩
  · unfold costElement
    split <;> exact ⟨trivial, hscalar _ 0 (by decide)⟩
  · cases features with
    | none => simp [featureElement] at hx
    | some features =>
      rw [featureElement, List.mem_singleton] at hx
      subst hx
      constructor
      · refine Any.forall_slice_iff.mpr ⟨trivial, fun x hx => ?_⟩
        obtain ⟨f, -, rfl⟩ := List.mem_map.mp hx
        trivial
      · refine (withinLimits_slice (Nat.zero_le _) (Nat.zero_le _)).mpr fun x hx => ?_
        obtain ⟨f, -, rfl⟩ := List.mem_map.mp hx
        exact hscalar _ 1 (by decide)

/-! ## Reading back -/

/-- What the readers return for announce data is what it was built from. -/
structure AnnounceReadsAs (data name : Bytes) (cost : Int) (features : GoBytes) : Prop where
  displayName : displayNameFromAppData data = .ok (Utf8.trimSpace (name.filter (· ≠ 0)))
  stampCost : stampCostFromAppData data = .ok (if cost ≥ 0 then some cost else none)
  featureSupport : featureSupportFromAppData data = .ok features
  compressionSupport : compressionSupportFromAppData data =
    .ok (some (features.all fun codes => decide (sfCompression ∈ codes)))

theorem fromAppData_array {α : Type} {empty : α} {legacy : Bytes → α}
    {read : List Any → Except AnnounceError α} {payload arr : List Any} {data : Bytes}
    (hdata : marshalAnnounceAppData payload = .ok data) (hsize : data.length ≤ maxAnnounceAppDataBytes)
    (harr : unmarshalMsgpackArray data = .ok arr) :
    fromAppData empty legacy read data = read arr := by
  obtain ⟨t, ht, rfl⟩ := encode_ok_iff.mp hdata
  simp only [Any.tree, Option.map_eq_some_iff] at ht
  obtain ⟨ts, -, rfl⟩ := ht
  have hfirst : isMsgpackArray (Code.array payload.length).toByte = true := by
    have hfixed : ∀ i : Fin 16, isMsgpackArray (Code.fixedArray i).toByte = true := by decide
    unfold Code.array
    split_ifs
    · exact hfixed _
    · rfl
    · rfl
  rw [WireTree.flatten] at hsize harr ⊢
  simp only [fromAppData, Nat.not_lt.mpr hsize, hfirst, harr, if_false, if_true]
  rfl

theorem announce_read_back {displayName data : Bytes} {cost : BitVec 64} {features : GoBytes}
    (hdata : encodeAnnounceAppDataV5WithFeatures displayName cost features = .ok data)
    (hsize : data.length ≤ maxAnnounceAppDataBytes) :
    AnnounceReadsAs data displayName cost.toInt features := by
  have hmax : maxAnnounceAppDataBytes < 2 ^ 32 := by decide
  have hcount : ([.bytes displayName, costElement cost] ++ featureElement features).length ≤
      announceAppDataArrayMax := by
    cases features <;> simp [featureElement, announceAppDataArrayMax]
  have harr := unmarshalMsgpackArray_encoded hdata (by omega) hcount
    (announce_fieldValues displayName cost features)
  simp only [List.map_cons, List.cons_append, List.nil_append] at harr
  refine ⟨?_, ?_, ?_, ?_⟩
  · exact fromAppData_array hdata hsize harr
  · rw [stampCostFromAppData, fromAppData_array hdata hsize harr, stampCostOf_reread]
  · rw [featureSupportFromAppData, fromAppData_array hdata hsize harr]
    cases features with
    | none => rfl
    | some features => exact congrArg (fun f => Except.ok (some f)) (features_reread features)
  · rw [compressionSupportFromAppData, fromAppData_array hdata hsize harr]
    cases features with
    | none => rfl
    | some features =>
      have hany := any_featureCode (rereadAll (features.map fun f => .scalar (byteKey f))) sfCompression
      rw [features_reread] at hany
      exact congrArg (fun b => Except.ok (some b)) hany

/-- A name in spaces, a cost of two bytes and a list of features. -/
theorem padded_name_read_back :
    ∃ data, encodeAnnounceAppDataV5WithFeatures [0x20, 0x61, 0, 0x20] 300 (some [1, 200]) = .ok data ∧
      AnnounceReadsAs data [0x20, 0x61, 0, 0x20] 300 (some [1, 200]) := by
  refine ⟨[0x93, 0xc4, 4, 0x20, 0x61, 0, 0x20, 0xcd, 1, 0x2c, 0x92, 1, 0xcc, 200], rfl, ?_⟩
  have hcost : (300 : BitVec 64).toInt = 300 := rfl
  rw [← hcost]
  exact announce_read_back rfl (by decide)

/-! ## Names alone -/

/-- What the readers return for the name alone. -/
structure LegacyReadsAs (data name : Bytes) : Prop where
  displayName : displayNameFromAppData data = .ok name
  stampCost : stampCostFromAppData data = .ok none
  featureSupport : featureSupportFromAppData data = .ok none
  compressionSupport : compressionSupportFromAppData data = .ok (some true)

/-- A character whose first byte is that of an array is one of two bytes, and the array
is a long one. -/
theorem isMsgpackArray_utf8 {c : Char} {b : UInt8} {bs : Bytes}
    (h : String.utf8EncodeChar c = b :: bs) (harray : isMsgpackArray b = true) :
    (b = 0xdc ∨ b = 0xdd) ∧ ∃ d : UInt8, bs = [d] ∧ 0x80 ≤ d.toNat := by
  simp only [isMsgpackArray, Bool.or_eq_true, Bool.and_eq_true, decide_eq_true_iff, ge_iff_le,
    UInt8.le_iff_toNat_le, ← UInt8.toNat_inj] at harray ⊢
  unfold String.utf8EncodeChar at h
  dsimp only at h
  split_ifs at h <;> simp only [List.cons.injEq] at h <;> obtain ⟨rfl, rfl⟩ := h <;>
    simp only [UInt8.toNat_ofNat', UInt8.reduceToNat] at harray ⊢
  · omega
  · refine ⟨by omega, _, rfl, ?_⟩
    rw [UInt8.toNat_ofNat']
    omega
  · omega
  · omega

/-- The length that a long array announces is more than the data has room for. -/
theorem decodeArrayLen_long {b d : UInt8} {rest : Bytes} {l : Levels} (hb : b = 0xdc ∨ b = 0xdd)
    (hd : 0x80 ≤ d.toNat) (hsize : rest.length ≤ maxAnnounceAppDataBytes) (o : Option Nat)
    (j : Input Levels) : decodeArrayLen ⟨b :: d :: rest, l⟩ ≠ .ok o j := by
  intro h
  obtain ⟨c, i, hcode, hlen⟩ := bind_ok_iff.mp h
  obtain ⟨_, _, hrest, -, -, ⟨rfl, -⟩, -⟩ := readCode_local _ _ _ hcode
  simp only [List.singleton_append, List.cons.injEq] at hrest
  obtain ⟨rfl, hrest⟩ := hrest
  have hc : c = .array16 ∨ c = .array32 := hb.imp Code.toByte_inj Code.toByte_inj
  have hnil : c ≠ .nil := by
    obtain rfl | rfl := hc <;> decide
  obtain ⟨_, _, hbody, -, hm, ⟨n, -, -, hsized, rfl, hn⟩, -⟩ := arrayLen_local hnil _ _ _ hlen
  obtain ⟨w, hw, hbytes, hlt⟩ : ∃ w, 2 ≤ w ∧ WireTree.lengthBytes c n = BigEndian.encode w n ∧
      n < 256 ^ w := by
    simp only [WireTree.Sized, WireTree.lengthBytes] at hsized ⊢
    obtain rfl | rfl := hc
    · exact ⟨2, le_rfl, by simp [Code.layout], by simpa [Code.layout] using hsized⟩
    · exact ⟨4, by decide, by simp [Code.layout], by simpa [Code.layout] using hsized⟩
  have hdecode := BigEndian.decode_encode hlt
  have hlength := BigEndian.encode_length w n
  rw [← hrest, hbytes] at hbody
  cases hencode : BigEndian.encode w n with
  | nil => simp [hencode] at hlength; omega
  | cons d' bs =>
    rw [hencode, List.cons_append, List.cons.injEq] at hbody
    obtain ⟨rfl, hbody⟩ := hbody
    rw [hencode] at hdecode hlength
    have hle := BigEndian.le_decode_cons d bs
    have hpow : 256 ^ 1 ≤ 256 ^ bs.length :=
      Nat.pow_le_pow_right (by decide) (by rw [List.length_cons] at hlength; omega)
    have hmul := Nat.mul_le_mul hd hpow
    have htotal := congrArg List.length hbody
    rw [List.length_append] at htotal
    have hmax : maxAnnounceAppDataBytes = 8192 := rfl
    omega

theorem unmarshalMsgpackArray_long {b d : UInt8} {rest : Bytes} (hb : b = 0xdc ∨ b = 0xdd)
    (hd : 0x80 ≤ d.toNat) (hsize : rest.length ≤ maxAnnounceAppDataBytes) (arr : List Any) :
    unmarshalMsgpackArray (b :: d :: rest) ≠ .ok arr := by
  have hlen : ∃ e, runDecoder decodeArrayLen ⟨b :: d :: rest, ⟨0, 0⟩⟩ = .error e := by
    unfold runDecoder
    cases hres : decodeArrayLen ⟨b :: d :: rest, ⟨0, 0⟩⟩ with
    | ok o j => exact absurd hres (decodeArrayLen_long hb hd hsize o j)
    | error e j => exact ⟨_, rfl⟩
  obtain ⟨e, he⟩ := hlen
  rw [unmarshalMsgpackArray, he]
  exact nofun

theorem fromAppData_text {α : Type} {empty : α} {legacy : Bytes → α}
    {read : List Any → Except AnnounceError α} {b : UInt8} {bs : Bytes} (hb : ¬isMsgpackArray b = true)
    (hsize : (b :: bs).length ≤ maxAnnounceAppDataBytes) :
    fromAppData empty legacy read (b :: bs) = .ok (legacy (b :: bs)) := by
  simp only [fromAppData, Nat.not_lt.mpr hsize, hb, if_false]
  rfl

/-- A name of valid text is read as what it is, unless its first byte is that of a
long array. -/
theorem legacy_name_read_iff {name : Bytes} (hvalid : ∃ cs : List Char, name = Utf8.encode cs)
    (hne : name ≠ []) (hsize : name.length ≤ maxAnnounceAppDataBytes) :
    LegacyReadsAs (encodeAnnounceAppData name) name ↔
      name.head? ≠ some 0xdc ∧ name.head? ≠ some 0xdd := by
  obtain ⟨cs, rfl⟩ := hvalid
  cases cs with
  | nil => exact absurd rfl hne
  | cons c cs =>
    have hsplit : Utf8.encode (c :: cs) = String.utf8EncodeChar c ++ Utf8.encode cs :=
      List.flatMap_cons
    cases hc : String.utf8EncodeChar c with
    | nil =>
      have hlen := String.length_utf8EncodeChar c
      have hpos := c.utf8Size_pos
      rw [hc, List.length_nil] at hlen
      omega
    | cons b bs =>
      rw [hc, List.cons_append] at hsplit
      rw [hsplit] at hsize ⊢
      simp only [encodeAnnounceAppData, List.head?_cons, ne_eq, Option.some.injEq]
      by_cases harray : isMsgpackArray b = true
      · obtain ⟨hb, d, rfl, hd⟩ := isMsgpackArray_utf8 hc harray
        refine iff_of_false (fun h => ?_) (by tauto)
        have hrest : (Utf8.encode cs).length ≤ maxAnnounceAppDataBytes := by
          simp only [List.length_append, List.length_cons] at hsize
          omega
        have hread := h.displayName
        simp only [displayNameFromAppData, fromAppData, Nat.not_lt.mpr hsize, harray, if_false,
          if_true] at hread
        obtain ⟨arr, harr, -⟩ := Except.bind_eq_ok_iff.mp hread
        exact unmarshalMsgpackArray_long hb hd hrest arr harr
      · have hb : ¬b = 0xdc ∧ ¬b = 0xdd := by
          constructor <;> rintro rfl <;> exact harray rfl
        exact iff_of_true ⟨fromAppData_text harray hsize, fromAppData_text harray hsize,
          fromAppData_text harray hsize, fromAppData_text harray hsize⟩ hb

/-- A name in letters. -/
theorem ascii_name_read : LegacyReadsAs (encodeAnnounceAppData [0x61, 0x62]) [0x61, 0x62] :=
  (legacy_name_read_iff ⟨['a', 'b'], rfl⟩ (by decide) (by decide)).mpr (by decide)

/-- The name that consists of the letter U+0710, in bytes `dc 90`, is taken for an array. -/
theorem syriac_name_not_read :
    [0xdc, 0x90] = Utf8.encode [Char.ofNat 0x710] ∧
      ¬LegacyReadsAs (encodeAnnounceAppData [0xdc, 0x90]) [0xdc, 0x90] ∧
      displayNameFromAppData (encodeAnnounceAppData [0xdc, 0x90]) =
        .error (.decode (.decode .unexpectedEof)) := by
  have herror : displayNameFromAppData (encodeAnnounceAppData [0xdc, 0x90]) =
      .error (.decode (.decode .unexpectedEof)) := rfl
  refine ⟨rfl, fun h => ?_, herror⟩
  rw [LegacyReadsAs.displayName h] at herror
  cases herror

end Lxmf
