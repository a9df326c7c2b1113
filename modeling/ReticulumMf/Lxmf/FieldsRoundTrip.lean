-- SUMMARY: Which fields survive Pack and Unpack, and which packed messages are accepted.
import ReticulumMf.Lxmf.PackUnpack
import ReticulumMf.Lxmf.Received

/-!
# Fields through Pack and Unpack

A packed message whose lengths fit is accepted exactly if its fields keep to the
decoder's limits and hold no map with string keys that has an entry
(`packed_accepted_iff`). The fields then come back as they were, up to the Go
types of integers, unless a byte slice stands in a slice, where the loose
decoder reads it as a string (`fields_come_back_iff`).
-/

namespace Lxmf

open Msgpack ByteReader

/-! ## The packed payload -/

/-- Every length in the message can be written as a MessagePack length. -/
structure LXMessage.LengthsFit (m : LXMessage) : Prop where
  title : ∀ t, m.title = some t → t.length < 2 ^ 32
  content : ∀ c, m.content = some c → c.length < 2 ^ 32
  stamp : m.stamp.length < 2 ^ 32
  fields : (fieldsAny m.fields).Fits

/-- A payload of four or five field values is decoded to them as they are read back. -/
theorem decodePayload_encoded_iff {xs : List Any} (hv : ∀ x ∈ xs, FieldValue x)
    (hfits : ∀ x ∈ xs, x.Fits) (hlen : xs.length = 4 ∨ xs.length = 5) {data : Bytes}
    (hdata : encode true (.slice xs) = .ok data) (vs : List Any) :
    (∃ hashed, decodePayloadAndSplit data = .ok (vs, hashed)) ↔
      (∀ x ∈ xs, WithinLimits ⟨0, 0⟩ x) ∧ vs = xs.map (reread false) := by
  obtain ⟨t, ht, rfl⟩ := encode_ok_iff.mp hdata
  have hslice : (Any.slice xs).Fits :=
    Any.forall_slice_iff.mpr ⟨by simp only [Any.LengthFits]; omega, hfits⟩
  have hwf := Any.tree_wf ht hslice
  simp only [Any.tree, Option.map_eq_some_iff] at ht
  obtain ⟨ts, hts, rfl⟩ := ht
  rw [← forall₂_decodes_iff hv hfits hts]
  constructor
  · intro h
    obtain ⟨hashed, h⟩ := h
    obtain ⟨c, ts', hp, hdec, -⟩ := decodePayloadAndSplit_ok_iff.mp h
    have hwf' : (WireTree.node c ts').WF := ⟨hp.sized, hp.wf⟩
    injection WireTree.flatten_inj hwf hwf' hp.bytes with _ hts'
    exact hts' ▸ hdec
  · intro h
    have hp : IsPayload (WireTree.node (.array xs.length) ts).flatten (.array xs.length) ts :=
      ⟨Code.isArray_array _, hwf.1, hwf.2, by rw [Any.length_trees hts]; exact hlen, rfl⟩
    exact ⟨_, decodePayloadAndSplit_ok_iff.mpr ⟨_, ts, hp, h, rfl⟩⟩

section Packed

variable {Identity : Type} {cr : Crypto Identity} {now : BitVec 64} {o₁ o₂ : MapOrder} {sign : Signer}
  {m m' : LXMessage} {k : Packing}

/-- The payload of a packed message is one encoding of its payload list. -/
theorem PackRun.payload_encoded (run : PackRun cr now o₁ o₂ sign m m' k) :
    ∃ (o : MapOrder) (stamped : Bool), (stamped = true → m.stamp ≠ []) ∧
      encodePayload o ((m.withTimestamp now).payloadList stamped) = .ok run.payload := by
  cases run.payload_eq with
  | inl h =>
    refine ⟨o₁, false, nofun, ?_⟩
    rw [encodePayload_unstamped, run.body_eq, h.2]
    rfl
  | inr h =>
    obtain ⟨hstamp, body₂, hbody₂, hpayload⟩ := h
    refine ⟨o₂, true, fun _ => hstamp, ?_⟩
    rw [encodePayload_stamped o₂ _ (by exact hstamp), hbody₂, hpayload]
    rfl

theorem fieldValue_goBytesAny (b : GoBytes) : FieldValue (goBytesAny b) := by
  cases b <;> exact True.intro

theorem visit_goBytesAny (o : MapOrder) (path : List Nat) (b : GoBytes) :
    o.visit path (goBytesAny b) = goBytesAny b := by
  cases b <;> rfl

theorem fits_goBytesAny {b : GoBytes} (h : ∀ c, b = some c → c.length < 2 ^ 32) :
    (goBytesAny b).Fits := by
  cases b with
  | none => exact True.intro
  | some c => exact h c rfl

theorem withinLimits_goBytesAny (b : GoBytes) : WithinLimits ⟨0, 0⟩ (goBytesAny b) := by
  cases b <;> exact withinLimits_leaf (Nat.zero_le _) (Nat.zero_le _) ⟨rfl, rfl⟩ True.intro

theorem asBytes_reread (b : GoBytes) : ∃ c, asBytes (reread false (goBytesAny b)) = .ok c := by
  cases b <;> exact ⟨_, rfl⟩

/-- The elements behind the fields: the stamp, if there is one. -/
def LXMessage.stampList (m : LXMessage) (stamped : Bool) : List Any :=
  if stamped && m.stamp ≠ [] then [.bytes m.stamp] else []

/-- The elements of a payload in the order in which they are written. -/
theorem visit_payloadList (o : MapOrder) (m : LXMessage) (stamped : Bool) :
    o.visit [] (.slice (m.payloadList stamped)) =
      .slice ([.scalar (.float64 m.timestamp), goBytesAny m.title, goBytesAny m.content,
        o.visit [3] (fieldsAny m.fields)] ++ m.stampList stamped) := by
  have hstamp : o.visitAll [] 4 (m.stampList stamped) = m.stampList stamped := by
    unfold LXMessage.stampList
    split <;> rfl
  rw [MapOrder.visit, LXMessage.payloadList]
  simp only [List.cons_append, List.nil_append, MapOrder.visitAll, visit_goBytesAny]
  exact congrArg _ (by rw [← LXMessage.stampList, hstamp]; rfl)

theorem fieldValue_stampList (m : LXMessage) (stamped : Bool) :
    ∀ x ∈ m.stampList stamped, FieldValue x ∧ WithinLimits ⟨0, 0⟩ x ∧
      (m.stamp.length < 2 ^ 32 → x.Fits) := by
  unfold LXMessage.stampList
  intro x hx
  split at hx
  · obtain rfl := List.mem_singleton.mp hx
    exact ⟨True.intro, withinLimits_leaf (Nat.zero_le _) (Nat.zero_le _) ⟨rfl, rfl⟩ True.intro, id⟩
  · cases hx

theorem asStamp_reread (m : LXMessage) (stamped : Bool) :
    ∃ c, asStamp ((m.stampList stamped).map (reread false)) = .ok c := by
  unfold LXMessage.stampList
  split <;> exact ⟨_, rfl⟩

/-- The limits of the decoder, as far as they concern values that can be converted. -/
structure WithinNesting (v : Any) : Prop where
  arrays : arrayNesting v ≤ defaultDecodeDepthLimit
  maps : mapNesting v ≤ msgpackMapMaxDepth

theorem withinLimits_visit_iff (o : MapOrder) {v : Any} (hv : FieldValue v) (h : StringMapsEmpty v)
    (path : List Nat) : WithinLimits ⟨0, 0⟩ (o.visit path v) ↔ WithinNesting v := by
  rw [WithinLimits, arrayNesting, mapNesting, nesting_visit, nesting_visit, Nat.zero_add, Nat.zero_add]
  constructor
  · intro hlimits
    exact ⟨hlimits.1, hlimits.2.1⟩
  · intro hnesting
    exact ⟨hnesting.arrays, hnesting.maps, (hv.smallMaps h).visit o path⟩

/-- What decoding and converting an encoded payload makes of its fields. -/
theorem payload_fields_iff {o : MapOrder} (o₃ : MapOrder) {m : LXMessage} {stamped : Bool} {data : Bytes}
    (hdata : encodePayload o (m.payloadList stamped) = .ok data) (hfits : m.LengthsFit)
    (hv : FieldValue (fieldsAny m.fields)) (hsorted : SortedMaps (fieldsAny m.fields))
    (out : Option FieldMap) :
    (∃ vs hashed pl, decodePayloadAndSplit data = .ok (vs, hashed) ∧ applyPayload o₃ vs = .ok pl ∧
        pl.fields = out) ↔
      WithinNesting (fieldsAny m.fields) ∧ StringMapsEmpty (fieldsAny m.fields) ∧
        out = receivedFields m.fields := by
  rw [encodePayload, visit_payloadList] at hdata
  have hstamp := fieldValue_stampList m stamped
  have hvalues : ∀ x ∈ [.scalar (.float64 m.timestamp), goBytesAny m.title, goBytesAny m.content,
      o.visit [3] (fieldsAny m.fields)] ++ m.stampList stamped, FieldValue x := by
    simp only [List.cons_append, List.nil_append, List.forall_mem_cons]
    exact ⟨True.intro, fieldValue_goBytesAny _, fieldValue_goBytesAny _, hv.visit o [3],
      fun x hx => (hstamp x hx).1⟩
  have hlengths : ∀ x ∈ [.scalar (.float64 m.timestamp), goBytesAny m.title, goBytesAny m.content,
      o.visit [3] (fieldsAny m.fields)] ++ m.stampList stamped, x.Fits := by
    simp only [List.cons_append, List.nil_append, List.forall_mem_cons]
    exact ⟨True.intro, fits_goBytesAny hfits.title, fits_goBytesAny hfits.content,
      hfits.fields.visit o [3], fun x hx => (hstamp x hx).2.2 hfits.stamp⟩
  have hdec := decodePayload_encoded_iff hvalues hlengths
    (by unfold LXMessage.stampList; split <;> simp) hdata
  have hlimits : (∀ x ∈ [.scalar (.float64 m.timestamp), goBytesAny m.title, goBytesAny m.content,
      o.visit [3] (fieldsAny m.fields)] ++ m.stampList stamped, WithinLimits ⟨0, 0⟩ x) ↔
      WithinLimits ⟨0, 0⟩ (o.visit [3] (fieldsAny m.fields)) := by
    simp only [List.cons_append, List.nil_append, List.forall_mem_cons]
    constructor
    · exact fun h => h.2.2.2.1
    · intro h
      exact ⟨withinLimits_leaf (Nat.zero_le _) (Nat.zero_le _) ⟨rfl, rfl⟩ True.intro,
        withinLimits_goBytesAny _, withinLimits_goBytesAny _, h, fun x hx => (hstamp x hx).2.1⟩
  rw [hlimits] at hdec
  have hconvert := asFields_reread_iff o o₃ hv hsorted [3] []
  constructor
  · intro h
    obtain ⟨vs, hashed, pl, hsplit, happly, rfl⟩ := h
    obtain ⟨hwithin, rfl⟩ := (hdec vs).mp ⟨hashed, hsplit⟩
    obtain ⟨_, _, _, _, _, heq, -, -, -, hfields, -⟩ := applyPayload_ok_iff.mp happly
    cases heq
    obtain ⟨hempty, hout⟩ := (hconvert pl.fields).mp hfields
    exact ⟨(withinLimits_visit_iff o hv hempty [3]).mp hwithin, hempty, hout⟩
  · intro h
    obtain ⟨hnesting, hempty, rfl⟩ := h
    obtain ⟨hashed, hsplit⟩ := (hdec _).mpr ⟨(withinLimits_visit_iff o hv hempty [3]).mpr hnesting, rfl⟩
    obtain ⟨title, htitle⟩ := asBytes_reread m.title
    obtain ⟨content, hcontent⟩ := asBytes_reread m.content
    obtain ⟨stamp, hstamp⟩ := asStamp_reread m stamped
    refine ⟨_, hashed, ⟨m.timestamp, title, content, receivedFields m.fields, stamp⟩, hsplit, ?_, rfl⟩
    exact applyPayload_ok_iff.mpr ⟨_, _, _, _, _, rfl, rfl, htitle, hcontent,
      (hconvert _).mpr ⟨hempty, rfl⟩, hstamp⟩

theorem PackRun.unpack_eq (run : PackRun cr now o₁ o₂ sign m m' k) (o₃ : MapOrder)
    (resolver : Option (Resolver Identity)) :
    unpack cr o₃ k.packed resolver = unpackFromBytes cr o₃ m.destinationHash
      (m.sourceHash ++ run.signature ++ run.payload) resolver := by
  have hlen : ¬ k.packed.length < 2 * destinationLength + signatureLength := by
    rw [run.packed_eq]
    simp only [List.length_append, run.destination_length, run.source_length, run.signature_length]
    omega
  have htake : k.packed.take destinationLength = m.destinationHash := by
    rw [run.packed_eq, ← run.destination_length, List.append_assoc, List.append_assoc, List.take_left]
  rw [unpack, if_neg hlen, htake, run.inner_eq]

/-- The whole way from `Pack` to `Unpack`. -/
theorem PackRun.unpack_iff (run : PackRun cr now o₁ o₂ sign m m' k) (hfits : m.LengthsFit)
    (hv : FieldValue (fieldsAny m.fields)) (hsorted : SortedMaps (fieldsAny m.fields))
    (o₃ : MapOrder) {resolver : Option (Resolver Identity)}
    (hresolve : ∀ resolve, resolver = some resolve → ∀ e, resolve m.sourceHash ≠ .error e)
    (out : Option FieldMap) :
    (∃ r, (unpack cr o₃ k.packed resolver).msg = some r ∧ r.fields = out) ↔
      WithinNesting (fieldsAny m.fields) ∧ StringMapsEmpty (fieldsAny m.fields) ∧
        out = receivedFields m.fields := by
  obtain ⟨o, stamped, -, hdata⟩ := run.payload_encoded
  have hpayload := payload_fields_iff o₃ hdata
    ⟨hfits.title, hfits.content, hfits.stamp, hfits.fields⟩ hv hsorted out
  have hinner : (m.sourceHash ++ run.signature ++ run.payload).drop
      (destinationLength + signatureLength) = run.payload :=
    drop_inner run.source_length run.signature_length
  rw [run.unpack_eq]
  constructor
  · intro h
    obtain ⟨r, hr, rfl⟩ := h
    obtain ⟨p, hparse, hverify⟩ := unpackFromBytes_msg_iff.mp hr
    obtain ⟨-, -, vs, hashed, pl, hsplit, happly, rfl⟩ := parseInner_ok_iff.mp hparse
    rw [hinner] at hsplit
    apply hpayload.mp
    refine ⟨vs, hashed, pl, hsplit, happly, ?_⟩
    rw [verifySource_msg hverify]
    rfl
  · intro h
    obtain ⟨vs, hashed, pl, hsplit, happly, rfl⟩ := hpayload.mpr h
    rw [← hinner] at hsplit
    have hlen : destinationLength + signatureLength ≤
        (m.sourceHash ++ run.signature ++ run.payload).length := by
      simp only [List.length_append, run.source_length, run.signature_length]
      omega
    have hparse : parseInner cr o₃ m.destinationHash (m.sourceHash ++ run.signature ++ run.payload) =
        .ok (inboundMessage cr m.destinationHash (m.sourceHash ++ run.signature ++ run.payload)
          hashed pl) :=
      parseInner_ok_iff.mpr ⟨run.destination_length, hlen, vs, hashed, pl, hsplit, happly, rfl⟩
    have hsource : (inboundMessage cr m.destinationHash
        (m.sourceHash ++ run.signature ++ run.payload) hashed pl).msg.sourceHash = m.sourceHash :=
      take_inner run.source_length
    rw [← hsource] at hresolve
    obtain ⟨r, hr⟩ := verifySource_msg_iff.mpr hresolve
    refine ⟨r, unpackFromBytes_msg_iff.mpr ⟨_, hparse, hr⟩, ?_⟩
    rw [verifySource_msg hr]
    rfl

end Packed

/-! ## Samples -/

theorem FieldMap.Sorted.toAny_fieldValue {m : FieldMap} (hm : m.Sorted)
    (h : ∀ e ∈ m, FieldValue e.2) : FieldValue m.toAny := by
  apply FieldMap.forall_toAny_iff.mpr
  refine ⟨?_, h⟩
  constructor
  · rw [List.map_map, List.Nodup, List.pairwise_map]
    apply hm.imp
    intro e e' hlt heq
    exact UInt8.ne_of_lt hlt (byteKey_inj heq)
  · rw [List.map_map, List.forall_mem_map]
    intro e _
    exact ⟨e.1, rfl⟩

/-- A message with a one-letter title and these fields. -/
def fieldsMessage (f : FieldMap) : LXMessage where
  destinationHash := List.replicate 16 1
  sourceHash := List.replicate 16 2
  title := some [0x41]
  fields := some f
  timestamp := 1

/-- Fields that a Go program can hold and `Pack` can write. -/
structure FieldMap.Ordinary (f : FieldMap) : Prop where
  fields : FieldValue f.toAny
  sorted : SortedMaps f.toAny
  fits : (fieldsMessage f).LengthsFit

theorem FieldMap.Sorted.ordinary {f : FieldMap} (hf : f.Sorted) (hlen : f.length < 2 ^ 32)
    (h : ∀ e ∈ f, FieldValue e.2 ∧ SortedMaps e.2 ∧ e.2.Fits) : f.Ordinary where
  fields := hf.toAny_fieldValue fun e he => (h e he).1
  sorted := FieldMap.forall_toAny_iff.mpr ⟨⟨f, rfl, hf⟩, fun e he => (h e he).2.1⟩
  fits :=
    { title := by rintro t ⟨⟩; decide
      content := nofun
      stamp := Nat.two_pow_pos 32
      fields := by
        apply FieldMap.forall_toAny_iff.mpr
        refine ⟨⟨by rwa [List.length_map], ?_⟩, fun e he => (h e he).2.2⟩
        rw [List.forall_mem_map]
        exact fun _ _ => True.intro }

/-- The message was packed, signed by `tailSigner`. -/
def Packed (m : LXMessage) (k : Packing) : Prop :=
  ∃ m', m.pack tailCrypto 1 .listed .listed (some tailSigner) = (m', .ok k)

theorem exists_packed {m : LXMessage}
    (h : (m.pack tailCrypto 1 .listed .listed (some tailSigner)).2.toOption.isSome = true) :
    ∃ k, Packed m k := by
  obtain ⟨k, hk⟩ := Option.isSome_iff_exists.mp h
  exact ⟨k, _, Prod.ext rfl (Except.toOption_eq_some_iff.mp hk)⟩

/-! ## Accepted messages -/

/-- What `Pack` produces is accepted exactly if arrays and maps do not nest too
deep and every map with string keys in the fields is empty. -/
theorem packed_accepted_iff {Identity : Type} (cr : Crypto Identity) (now : BitVec 64)
    (o₁ o₂ o₃ : MapOrder) (sign : Signer) (m m' : LXMessage) (k : Packing)
    (resolver : Option (Resolver Identity))
    (hpack : m.pack cr now o₁ o₂ (some sign) = (m', .ok k))
    (hfields : FieldValue (fieldsAny m.fields)) (hsorted : SortedMaps (fieldsAny m.fields))
    (hfits : m.LengthsFit)
    (hresolve : ∀ resolve, resolver = some resolve → ∀ e, resolve m.sourceHash ≠ .error e) :
    (∃ r, (unpack cr o₃ k.packed resolver).msg = some r) ↔
      WithinNesting (fieldsAny m.fields) ∧ StringMapsEmpty (fieldsAny m.fields) := by
  obtain ⟨run⟩ := pack_ok hpack
  have hunpack := run.unpack_iff hfits hfields hsorted o₃ hresolve
  constructor
  · intro h
    obtain ⟨r, hr⟩ := h
    obtain ⟨hnesting, hempty, -⟩ := (hunpack r.fields).mp ⟨r, hr, rfl⟩
    exact ⟨hnesting, hempty⟩
  · intro h
    obtain ⟨r, hr, -⟩ := (hunpack _).mpr ⟨h.1, h.2, rfl⟩
    exact ⟨r, hr⟩

/-- Fields with a byte slice in a slice and an empty map with string keys. -/
def emptyStringMap : FieldMap := [(1, .slice [.bytes [7]]), (2, .map .string [])]

theorem emptyStringMap_ordinary : emptyStringMap.Ordinary := by
  apply FieldMap.Sorted.ordinary
  · simp [FieldMap.Sorted, emptyStringMap]
  · decide
  · simp [emptyStringMap, FieldValue, SortedMaps, Any.Fits, Any.Forall, Any.ForallElems,
      Any.ForallEntries, MapKind.Keys, Any.LengthFits]

theorem empty_string_map_accepted :
    ∃ k r, Packed (fieldsMessage emptyStringMap) k ∧
      (unpack tailCrypto .listed k.packed none).msg = some r := by
  obtain ⟨k, m', hk⟩ := exists_packed (m := fieldsMessage emptyStringMap) (by decide +kernel)
  have hordinary := emptyStringMap_ordinary
  obtain ⟨r, hr⟩ := (packed_accepted_iff tailCrypto 1 .listed .listed .listed tailSigner
    (fieldsMessage emptyStringMap) m' k none hk hordinary.fields hordinary.sorted hordinary.fits
    nofun).mpr ⟨⟨by decide, by decide⟩, FieldMap.forall_toAny_iff.mpr (by
      simp [emptyStringMap, FieldMap.toAny, Any.Forall, Any.ForallElems, Any.ForallEntries])⟩
  exact ⟨k, r, ⟨m', hk⟩, hr⟩

/-- Fields with one entry in a map with string keys. -/
def stringKeyField : FieldMap := [(1, .map .string [(.string [0x61], .scalar .nil)])]

theorem stringKeyField_ordinary : stringKeyField.Ordinary := by
  apply FieldMap.Sorted.ordinary
  · simp [FieldMap.Sorted, stringKeyField]
  · decide
  · simp [stringKeyField, FieldValue, SortedMaps, Any.Fits, Any.Forall, Any.ForallEntries,
      MapKind.Keys, Any.LengthFits, Scalar.IsPlain, Scalar.Fits]

/-- A message with such a field is packed, and what was packed is refused. -/
theorem string_key_refused :
    stringKeyField.Ordinary ∧ mapNesting stringKeyField.toAny ≤ msgpackMapMaxDepth ∧
      SmallMaps stringKeyField.toAny ∧
      ∃ k, Packed (fieldsMessage stringKeyField) k ∧
        (unpack tailCrypto .listed k.packed none).msg = none ∧
        (unpack tailCrypto .listed k.packed none).err = some (.element .fields .fieldKeyType) := by
  refine ⟨stringKeyField_ordinary, by decide, ?_, ?_⟩
  · simp [SmallMaps, stringKeyField, FieldMap.toAny, Any.Forall, Any.ForallEntries, msgpackMapMaxPairs]
  · have hrun : ((fieldsMessage stringKeyField).pack tailCrypto 1 .listed .listed
        (some tailSigner)).2.toOption.map (fun k =>
          ((unpack tailCrypto .listed k.packed none).msg.isNone,
            (unpack tailCrypto .listed k.packed none).err)) =
        some (true, some (.element .fields .fieldKeyType)) := by decide +kernel
    obtain ⟨k, hk, heq⟩ := Option.map_eq_some_iff.mp hrun
    simp only [Prod.mk.injEq, Option.isNone_iff_eq_none] at heq
    exact ⟨k, ⟨_, Prod.ext rfl (Except.toOption_eq_some_iff.mp hk)⟩, heq⟩

/-! ## Fields that come back -/

mutual

/-- A value up to the Go types of the integers in it. -/
def eraseWidth : Any → Any
  | .scalar s => .scalar s.eraseWidth
  | .slice xs => .slice (eraseWidthAll xs)
  | .map k es => .map k (eraseWidthEntries es)
  | .bytes b => .bytes b
  | .typedNil k => .typedNil k
  | .unsupported t => .unsupported t

def eraseWidthAll : List Any → List Any
  | [] => []
  | x :: xs => eraseWidth x :: eraseWidthAll xs

def eraseWidthEntries : List (Scalar × Any) → List (Scalar × Any)
  | [] => []
  | (k, v) :: es => (k, eraseWidth v) :: eraseWidthEntries es

end

theorem eraseWidthAll_eq (xs : List Any) : eraseWidthAll xs = xs.map eraseWidth := by
  induction xs with
  | nil => rfl
  | cons x xs ih => rw [eraseWidthAll, ih, List.map_cons]

theorem eraseWidthEntries_eq (es : List (Scalar × Any)) :
    eraseWidthEntries es = es.map fun e => (e.1, eraseWidth e.2) := by
  induction es with
  | nil => rfl
  | cons e es ih => rw [eraseWidthEntries, ih, List.map_cons]

/-- Every map in the value has byte keys. -/
def ByteMaps (v : Any) : Prop :=
  v.Forall fun
    | .map k _ => k = .byte
    | _ => True

/-- No slice in the value has a byte slice for an element. -/
def NoBytesInSlices (v : Any) : Prop :=
  v.Forall fun
    | .slice xs => ∀ x ∈ xs, ∀ b, x ≠ .bytes b
    | _ => True

/-- No slice, byte slice or map in the value is nil. -/
def NoTypedNil (v : Any) : Prop :=
  v.Forall fun
    | .typedNil _ => False
    | _ => True

theorem eraseWidth_received_iff {v : Any} (hv : FieldValue v) (hbyte : ByteMaps v) (loose : Bool) :
    eraseWidth (received loose v) = eraseWidth v ↔
      (loose = true → ∀ b, v ≠ .bytes b) ∧ NoBytesInSlices v ∧ NoTypedNil v := by
  induction v using Any.induct generalizing loose with
  | scalar s =>
    apply iff_of_true
    · rw [received, eraseWidth, Scalar.eraseWidth_reread, eraseWidth]
    · exact ⟨by simp, True.intro, True.intro⟩
  | bytes b =>
    cases loose with
    | false => exact iff_of_true rfl ⟨by simp, True.intro, True.intro⟩
    | true => exact iff_of_false (fun h => by cases h) fun h => h.1 rfl b rfl
  | typedNil k => exact iff_of_false (fun h => by cases h) fun h => h.2.2
  | unsupported t => exact (hv : False).elim
  | slice xs ih =>
    have helem (x) (hx : x ∈ xs) := ih x hx (hv.elem x hx) ((Any.forall_slice_iff.mp hbyte).2 x hx) true
    rw [received, eraseWidth, eraseWidth, Any.slice.injEq, eraseWidthAll_eq, eraseWidthAll_eq,
      receivedAll_eq, List.map_map, List.map_inj_left]
    simp only [Function.comp_apply, NoBytesInSlices, NoTypedNil, Any.forall_slice_iff, true_and]
    constructor
    · intro h
      have hall (x) (hx : x ∈ xs) := (helem x hx).mp (h x hx)
      exact ⟨by simp, ⟨fun x hx => (hall x hx).1 rfl, fun x hx => (hall x hx).2.1⟩,
        fun x hx => (hall x hx).2.2⟩
    · intro h x hx
      exact (helem x hx).mpr ⟨fun _ => h.2.1.1 x hx, h.2.1.2 x hx, h.2.2 x hx⟩
  | map k es ih =>
    have helem (e) (he : e ∈ es) :=
      ih e he (hv.value e he) ((Any.forall_map_iff.mp hbyte).2 e he) false
    obtain rfl : k = .byte := (Any.forall_map_iff.mp hbyte).1
    rw [received, eraseWidth, eraseWidth, Any.map.injEq, eraseWidthEntries_eq, eraseWidthEntries_eq,
      receivedEntries_eq, List.map_map, List.map_inj_left, and_iff_right rfl]
    simp only [Function.comp_apply, Prod.mk.injEq, true_and, NoBytesInSlices, NoTypedNil,
      Any.forall_map_iff]
    constructor
    · intro h
      have hall (e) (he : e ∈ es) := (helem e he).mp (h e he)
      exact ⟨by simp, fun e he => (hall e he).2.1, fun e he => (hall e he).2.2⟩
    · intro h e he
      exact (helem e he).mpr ⟨by simp, h.2.1 e he, h.2.2 e he⟩

/-- Fields that are equal up to the Go types of integers. -/
def SameFields (f g : Option FieldMap) : Prop :=
  f.map (·.map fun e => (e.1, eraseWidth e.2)) = g.map (·.map fun e => (e.1, eraseWidth e.2))

theorem sameFields_received_iff {fields : Option FieldMap} (hv : FieldValue (fieldsAny fields))
    (hbyte : ByteMaps (fieldsAny fields)) :
    SameFields (receivedFields fields) fields ↔
      ∀ m, fields = some m → ∀ e ∈ m, NoBytesInSlices e.2 ∧ NoTypedNil e.2 := by
  cases fields with
  | none => exact iff_of_true rfl (by simp)
  | some m =>
    have hvalues := (FieldMap.forall_toAny_iff.mp hv).2
    have hbytes := (FieldMap.forall_toAny_iff.mp hbyte).2
    simp only [SameFields, receivedFields, FieldMap.received, Option.map_some, Option.some.injEq,
      List.map_map, List.map_inj_left, Function.comp_apply, Prod.mk.injEq, true_and, forall_eq']
    apply forall₂_congr
    intro e he
    rw [eraseWidth_received_iff (hvalues e he) (hbytes e he), and_iff_right (by simp)]

theorem ByteMaps.stringMapsEmpty {v : Any} (h : ByteMaps v) : StringMapsEmpty v := by
  induction v using Any.induct with
  | slice xs ih =>
    apply Any.forall_slice_iff.mpr
    exact ⟨True.intro, fun x hx => ih x hx ((Any.forall_slice_iff.mp h).2 x hx)⟩
  | map k es ih =>
    obtain ⟨hk, hes⟩ := Any.forall_map_iff.mp h
    obtain rfl : k = .byte := hk
    apply Any.forall_map_iff.mpr
    exact ⟨True.intro, fun e he => ih e he (hes e he)⟩
  | scalar s => exact True.intro
  | bytes b => exact True.intro
  | typedNil k => exact True.intro
  | unsupported t => exact True.intro

/-- The two decoders agree on everything but byte slices. -/
theorem eraseWidth_reread_iff {v : Any} (hv : FieldValue v) :
    eraseWidth (reread false v) = eraseWidth (reread true v) ↔ ∀ b, v ≠ .bytes b := by
  cases v with
  | scalar s =>
    apply iff_of_true _ (by simp)
    rw [reread, reread, eraseWidth, eraseWidth, Scalar.eraseWidth_reread, Scalar.eraseWidth_reread]
  | bytes b => exact iff_of_false (fun h => by cases h) fun h => h b rfl
  | slice xs => exact iff_of_true rfl (by simp)
  | map k es => exact iff_of_true rfl (by simp)
  | typedNil k => exact iff_of_true rfl (by simp)
  | unsupported t => exact (hv : False).elim

/-- Fields with byte keys come back exactly if arrays and maps do not nest too
deep, no byte slice stands in a slice, and nothing in them is a nil slice or map;
and a value is read alike as a map value and in a slice exactly if it is not a
byte slice. -/
theorem fields_come_back_iff {Identity : Type} (cr : Crypto Identity) (now : BitVec 64)
    (o₁ o₂ o₃ : MapOrder) (sign : Signer) (m m' : LXMessage) (k : Packing)
    (resolver : Option (Resolver Identity))
    (hpack : m.pack cr now o₁ o₂ (some sign) = (m', .ok k))
    (hfields : FieldValue (fieldsAny m.fields)) (hsorted : SortedMaps (fieldsAny m.fields))
    (hbyte : ByteMaps (fieldsAny m.fields)) (hfits : m.LengthsFit)
    (hresolve : ∀ resolve, resolver = some resolve → ∀ e, resolve m.sourceHash ≠ .error e) :
    ((∃ r, (unpack cr o₃ k.packed resolver).msg = some r ∧ SameFields r.fields m.fields) ↔
      WithinNesting (fieldsAny m.fields) ∧
        ∀ f, m.fields = some f → ∀ e ∈ f, NoBytesInSlices e.2 ∧ NoTypedNil e.2) ∧
    ∀ (v x y : Any) (b r : Bytes), FieldValue v → v.Fits → encode true v = .ok b →
      decodeInterface mapCtx.decodeMap (decodeFuel mapCtx) false ⟨b ++ r, ⟨0, 0⟩⟩ =
        .ok x ⟨r, ⟨0, 0⟩⟩ →
      decodeInterface mapCtx.decodeMap (decodeFuel mapCtx) true ⟨b ++ r, ⟨0, 0⟩⟩ =
        .ok y ⟨r, ⟨0, 0⟩⟩ →
      (eraseWidth x = eraseWidth y ↔ ∀ c, v ≠ .bytes c) := by
  constructor
  · obtain ⟨run⟩ := pack_ok hpack
    have hunpack := run.unpack_iff hfits hfields hsorted o₃ hresolve
    rw [← sameFields_received_iff hfields hbyte]
    constructor
    · intro h
      obtain ⟨r, hr, hsame⟩ := h
      obtain ⟨hnesting, -, heq⟩ := (hunpack r.fields).mp ⟨r, hr, rfl⟩
      exact ⟨hnesting, heq ▸ hsame⟩
    · intro h
      obtain ⟨r, hr, heq⟩ := (hunpack _).mpr ⟨h.1, hbyte.stringMapsEmpty, rfl⟩
      exact ⟨r, hr, heq ▸ h.2⟩
  · intro v x y b r hv hvfits hb hx hy
    obtain ⟨t, ht, rfl⟩ := encode_ok_iff.mp hb
    have hread (loose : Bool) := tree_readsIff hv hvfits ht (l := ⟨0, 0⟩) loose r (Nat.zero_le _)
      (Nat.zero_le _) rfl
    have hlimits := (hread false).only _ _ hx
    have hxeq := hx.symm.trans ((hread false).reads hlimits)
    have hyeq := hy.symm.trans ((hread true).reads hlimits)
    simp only [EStateM.Result.ok.injEq, and_true] at hxeq hyeq
    rw [hxeq, hyeq]
    exact eraseWidth_reread_iff hv

/-- Fields with a byte slice in a map, a string in a slice, and a byte slice in a
map in a slice. -/
def mixedFields : FieldMap :=
  [(1, .bytes [7]),
    (2, .slice [.scalar (.string [7]), .scalar (.int .uint16 5), .map .byte [(byteKey 3, .bytes [7])]])]

theorem mixedFields_ordinary : mixedFields.Ordinary := by
  apply FieldMap.Sorted.ordinary
  · simp [FieldMap.Sorted, mixedFields]
  · decide
  · have hinner : FieldMap.Sorted [(3, .bytes [7])] := by simp [FieldMap.Sorted]
    have hsorted : ∃ m : FieldMap, .map .byte [(byteKey 3, .bytes [7])] = m.toAny ∧ m.Sorted :=
      ⟨[(3, .bytes [7])], rfl, hinner⟩
    have hkey : ∃ b, byteKey 3 = byteKey b := ⟨3, rfl⟩
    have hfits : (byteKey 3).Fits ∧ (∀ k v, (Scalar.int k v).Fits) ∧ (Scalar.string [7]).Fits :=
      ⟨True.intro, fun _ _ => True.intro, by rw [Scalar.Fits]; decide⟩
    simp [mixedFields, FieldValue, SortedMaps, Any.Fits, Any.Forall, Any.ForallElems,
      Any.ForallEntries, MapKind.Keys, Any.LengthFits, Scalar.IsPlain, hsorted, hkey, hfits]

theorem mixed_fields_come_back :
    ∃ k r, Packed (fieldsMessage mixedFields) k ∧
      (unpack tailCrypto .listed k.packed none).msg = some r ∧ SameFields r.fields (some mixedFields) := by
  obtain ⟨k, m', hk⟩ := exists_packed (m := fieldsMessage mixedFields) (by decide +kernel)
  have hordinary := mixedFields_ordinary
  have hbyte : ByteMaps mixedFields.toAny := FieldMap.forall_toAny_iff.mpr (by
    simp [mixedFields, FieldMap.toAny, Any.Forall, Any.ForallElems, Any.ForallEntries])
  obtain ⟨r, hr, hsame⟩ := (fields_come_back_iff tailCrypto 1 .listed .listed .listed tailSigner
    (fieldsMessage mixedFields) m' k none hk hordinary.fields hordinary.sorted hbyte hordinary.fits
    (by simp)).1.mpr ⟨⟨by decide, by decide⟩, by
      rintro f ⟨⟩
      simp [mixedFields, NoBytesInSlices, NoTypedNil, Any.Forall, Any.ForallElems, Any.ForallEntries]⟩
  exact ⟨k, r, ⟨m', hk⟩, hr, hsame⟩

/-- One byte slice as a field, and once more in a slice. -/
def bytesTwice : FieldMap := [(1, .bytes [7]), (2, .slice [.bytes [7]])]

theorem bytesTwice_ordinary : bytesTwice.Ordinary := by
  apply FieldMap.Sorted.ordinary
  · simp [FieldMap.Sorted, bytesTwice]
  · decide
  · simp [bytesTwice, FieldValue, SortedMaps, Any.Fits, Any.Forall, Any.ForallElems, Any.LengthFits]

/-- The first comes back as it was, the second as a string. -/
theorem bytes_in_slice_become_string :
    bytesTwice.Ordinary ∧ ByteMaps bytesTwice.toAny ∧ NoTypedNil bytesTwice.toAny ∧
      mapNesting bytesTwice.toAny ≤ msgpackMapMaxDepth ∧ SmallMaps bytesTwice.toAny ∧
      ∃ k r, Packed (fieldsMessage bytesTwice) k ∧
        (unpack tailCrypto .listed k.packed none).msg = some r ∧
        r.fields = some [(1, .bytes [7]), (2, .slice [.scalar (.string [7])])] ∧
        ¬ SameFields r.fields (some bytesTwice) := by
  have hordinary := bytesTwice_ordinary
  have hbyte : ByteMaps bytesTwice.toAny := by
    simp [bytesTwice, ByteMaps, FieldMap.toAny, Any.Forall, Any.ForallElems, Any.ForallEntries]
  refine ⟨hordinary, hbyte, ?_, by decide, hordinary.fields.smallMaps hbyte.stringMapsEmpty, ?_⟩
  · simp [bytesTwice, NoTypedNil, FieldMap.toAny, Any.Forall, Any.ForallElems, Any.ForallEntries]
  · obtain ⟨k, m', hk⟩ := exists_packed (m := fieldsMessage bytesTwice) (by decide +kernel)
    obtain ⟨run⟩ := pack_ok hk
    have hnone : ∀ resolve : Resolver Unit, none = some resolve → ∀ e,
        resolve (fieldsMessage bytesTwice).sourceHash ≠ .error e := by simp
    obtain ⟨r, hr, hfields⟩ := (run.unpack_iff hordinary.fits hordinary.fields
      hordinary.sorted .listed hnone _).mpr ⟨⟨by decide, by decide⟩, hbyte.stringMapsEmpty, rfl⟩
    refine ⟨k, r, ⟨m', hk⟩, hr, hfields, ?_⟩
    have hvalue : FieldValue (fieldsAny (some bytesTwice)) := hordinary.fields
    rw [hfields]
    intro h
    have hbytes := (sameFields_received_iff hvalue hbyte).mp h bytesTwice rfl
      (2, .slice [.bytes [7]]) (by simp [bytesTwice])
    simp [NoBytesInSlices, Any.Forall] at hbytes

end Lxmf
