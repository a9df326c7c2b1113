-- SUMMARY: Storing a message in a container, and loading it again.
import ReticulumMf.Lxmf.Delivery
import ReticulumMf.Lxmf.OrderFree

/-!
# The message store

`PackContainer` writes the packed bytes of a message and its delivery metadata as a
map from field names, and `UnpackContainer` reads it back and unpacks the bytes. What
is loaded is the message that was stored (`store_round_trip_iff`), unless its packed
bytes are too many for a length header, or its fields depend on the iteration order.
-/

namespace Lxmf

open Msgpack ByteReader

/-! ## Packing a container -/

def destinationTypeGroup : UInt8 := 0x01

def encryptionDescriptionAES : String := "AES-128"
def encryptionDescriptionEC : String := "Curve25519"
def encryptionDescriptionUnencrypted : String := "Unencrypted"

def determineTransportEncryption (method destinationType : UInt8) : Bool × String :=
  if method = methodOpportunistic ∨ method = methodPropagated ∨ method = methodPaper then
    if destinationType = destinationTypeSingle then (true, encryptionDescriptionEC)
    else if destinationType = destinationTypeGroup then (true, encryptionDescriptionAES)
    else (false, encryptionDescriptionUnencrypted)
  else if method = methodDirect then (true, encryptionDescriptionEC)
  else (false, encryptionDescriptionUnencrypted)

def messageContainer (msg : LXMessage) : Container :=
  let (encrypted, description) := determineTransportEncryption msg.method destinationTypeSingle
  { state := msg.state
    lxmfBytes := msg.packed
    transportEncrypted := encrypted
    transportEncryption := description.toUTF8.toList
    method := msg.method }

/-- The value of a field as the encoder without compact integers writes it. The bytes are
not nil: `PackContainer` refuses a message without any. -/
def ContainerField.encodeValue (f : ContainerField) (c : Container) : Bytes :=
  match f with
  | state => encodeScalar false (.int .uint8 c.state.toBitVec)
  | lxmfBytes => encodeBytesLen c.lxmfBytes.length ++ c.lxmfBytes
  | transportEncrypted => encodeScalar false (.bool c.transportEncrypted)
  | transportEncryption => encodeScalar false (.string c.transportEncryption)
  | method => encodeScalar false (.int .uint8 c.method.toBitVec)

def ContainerField.encodeEntry (c : Container) (f : ContainerField) : Bytes :=
  encodeScalar false (.string f.name.toUTF8.toList) ++ f.encodeValue c

/-- `msgpack.Marshal` of a container. -/
def marshalContainer (c : Container) : Bytes :=
  encodeMapLen ContainerField.all.length ++ ContainerField.all.flatMap (ContainerField.encodeEntry c)

inductive PackContainerError where
  | notPacked
  deriving DecidableEq, Repr

def packContainer (msg : LXMessage) : Except PackContainerError Bytes :=
  if msg.packed.length = 0 then .error .notPacked
  else .ok (marshalContainer (messageContainer msg))

/-! ## Reading a container -/

theorem decodeBytesValue_reads {c : Code} {s : Bytes} (hc : c.isText = true)
    (hsized : WireTree.Sized c false s.length) (r : Bytes) (l : Levels) :
    decodeBytesValue ⟨c.toByte :: (WireTree.lengthBytes c s.length ++ (s ++ r)), l⟩ = .ok s ⟨r, l⟩ := by
  have hbody : (readN s.length : Decoder Bytes) ⟨s ++ r, l⟩ = .ok s ⟨r, l⟩ :=
    readN_ok_iff.mpr ⟨rfl, rfl, rfl⟩
  rw [decodeBytesValue, bind_eq_of_ok (readCode_reads c _ l),
    bind_eq_of_ok (bytesLen_reads l hc hsized (by simp))]
  exact hbody

theorem decodeBytesValue_string {s : Bytes} (h : s.length < 2 ^ 32) (r : Bytes) (l : Levels) :
    decodeBytesValue ⟨encodeScalar false (.string s) ++ r, l⟩ = .ok s ⟨r, l⟩ := by
  rw [encodeScalar, encodeStringLen_eq, List.cons_append, List.cons_append, List.append_assoc]
  exact decodeBytesValue_reads (Code.isText_str _) (Code.sized_str h) r l

theorem decodeBytesValue_bytes {b : Bytes} (h : b.length < 2 ^ 32) (r : Bytes) (l : Levels) :
    decodeBytesValue ⟨encodeBytesLen b.length ++ b ++ r, l⟩ = .ok b ⟨r, l⟩ := by
  rw [encodeBytesLen_eq, List.cons_append, List.cons_append, List.append_assoc]
  exact decodeBytesValue_reads (Code.isText_bin _) (Code.sized_bin h) r l

theorem decodeUint8Value_reads (n : UInt8) (r : Bytes) (l : Levels) :
    decodeUint8Value ⟨encodeScalar false (.int .uint8 n.toBitVec) ++ r, l⟩ = .ok n ⟨r, l⟩ := by
  have hwrite : encodeScalar false (.int .uint8 n.toBitVec) =
      Code.uint8.toByte :: BigEndian.encode 1 n.toNat := rfl
  have hread := readUint_reads (w := 1) (n := n.toNat) n.toNat_lt r l
  rw [hwrite, List.cons_append, decodeUint8Value, bind_eq_of_ok (readCode_reads .uint8 _ l)]
  refine (bind_eq_of_ok hread).trans ?_
  rw [UInt8.ofNat_toNat]
  rfl

theorem decodeBoolValue_reads (b : Bool) (r : Bytes) (l : Levels) :
    decodeBoolValue ⟨encodeScalar false (.bool b) ++ r, l⟩ = .ok b ⟨r, l⟩ := by
  cases b <;> rfl

/-- The container `c` with the field of `source`. -/
def ContainerField.copy (source : Container) (c : Container) (f : ContainerField) : Container :=
  match f with
  | state => { c with state := source.state }
  | lxmfBytes => { c with lxmfBytes := source.lxmfBytes }
  | transportEncrypted => { c with transportEncrypted := source.transportEncrypted }
  | transportEncryption => { c with transportEncryption := source.transportEncryption }
  | method => { c with method := source.method }

/-- The lengths fit in a header. -/
structure Container.LengthsFit (c : Container) : Prop where
  lxmfBytes : c.lxmfBytes.length < 2 ^ 32
  transportEncryption : c.transportEncryption.length < 2 ^ 32

section

variable {source : Container} (hfit : source.LengthsFit) (f : ContainerField) (c : Container)
  (r : Bytes) (l : Levels)

include hfit

theorem ContainerField.decodeValue_reads :
    f.decodeValue c ⟨f.encodeValue source ++ r, l⟩ = .ok (f.copy source c) ⟨r, l⟩ := by
  cases f with
  | state => exact bind_eq_of_ok (decodeUint8Value_reads source.state r l)
  | lxmfBytes => exact bind_eq_of_ok (decodeBytesValue_bytes hfit.lxmfBytes r l)
  | transportEncrypted => exact bind_eq_of_ok (decodeBoolValue_reads source.transportEncrypted r l)
  | transportEncryption => exact bind_eq_of_ok (decodeBytesValue_string hfit.transportEncryption r l)
  | method => exact bind_eq_of_ok (decodeUint8Value_reads source.method r l)

theorem decodeContainerEntry_reads :
    decodeContainerEntry c ⟨f.encodeEntry source ++ r, l⟩ = .ok (f.copy source c) ⟨r, l⟩ := by
  have hname : f.name.toUTF8.toList.length < 2 ^ 32 := by cases f <;> decide +kernel
  have hfind : ContainerField.all.find? (fun f' => f'.name.toUTF8.toList = f.name.toUTF8.toList) =
      some f := by
    cases f <;> decide +kernel
  rw [ContainerField.encodeEntry, List.append_assoc, decodeContainerEntry,
    bind_eq_of_ok (decodeBytesValue_string hname _ l), hfind]
  exact f.decodeValue_reads hfit c r l

theorem decodeContainerEntries_reads (fs : List ContainerField) :
    iterate decodeContainerEntry fs.length c ⟨fs.flatMap (ContainerField.encodeEntry source) ++ r, l⟩ =
      .ok (fs.foldl (ContainerField.copy source) c) ⟨r, l⟩ := by
  induction fs generalizing c with
  | nil => rfl
  | cons f fs ih =>
    rw [List.flatMap_cons, List.append_assoc, List.length_cons, iterate,
      bind_eq_of_ok (decodeContainerEntry_reads hfit f c _ l), ih]
    rfl

end

theorem decodeContainer_reads {c : Container} (hfit : c.LengthsFit) (l : Levels) :
    decodeContainer ⟨marshalContainer c, l⟩ = .ok c ⟨[], l⟩ := by
  have hentries := decodeContainerEntries_reads hfit {} [] l ContainerField.all
  rw [List.append_nil] at hentries
  have hroom : 2 * 5 ≤ (ContainerField.all.flatMap (ContainerField.encodeEntry c)).length := by
    have hname : (encodeScalar false (.string ContainerField.transportEncryption.name.toUTF8.toList)).length =
      21 := by decide +kernel
    simp only [ContainerField.all, List.flatMap_cons, ContainerField.encodeEntry, List.length_append,
      hname]
    omega
  have hlen : mapLen (.fixedMap 5)
      ⟨ContainerField.all.flatMap (ContainerField.encodeEntry c), l⟩ =
        .ok (some 5) ⟨ContainerField.all.flatMap (ContainerField.encodeEntry c), l⟩ :=
    bind_eq_of_ok (a := ()) (require_ok_iff.mpr ⟨hroom, rfl⟩)
  have hhead : marshalContainer c = (Code.fixedMap 5).toByte ::
      ContainerField.all.flatMap (ContainerField.encodeEntry c) := rfl
  rw [hhead, decodeContainer, bind_eq_of_ok (readCode_reads (.fixedMap 5) _ l)]
  exact (bind_eq_of_ok hlen).trans hentries

/-- A container is read back from what was written for it. -/
theorem unmarshal_marshal {c : Container} (hfit : c.LengthsFit) :
    unmarshalContainer (marshalContainer c) = .ok c := by
  have henter : enterDepth ⟨0, 0⟩ = .ok ⟨1, 0⟩ := rfl
  have hread : within enterDepth leaveDepth decodeContainer ⟨marshalContainer c, ⟨0, 0⟩⟩ =
      .ok c ⟨[], ⟨0, 0⟩⟩ :=
    ((ReadsIff.of_ok (decodeContainer_reads hfit ⟨1, 0⟩)).within henter rfl).reads trivial
  rw [unmarshalContainer, hread]

theorem length_lt_of_sized {c : Code} {n : Nat} (hc : c.isText = true)
    (h : WireTree.Sized c false n) : n < 2 ^ 32 := by
  cases c with
  | fixedStr k =>
    obtain rfl : n = k.val := h
    omega
  | str8 | str16 | str32 | bin8 | bin16 | bin32 =>
    have hlt : n - 0 < _ := h.2
    omega
  | _ => cases hc

theorem bytesLen_lt (c : Code) : Produces (bytesLen c) (fun o => ∀ n, o = some n → n < 2 ^ 32) := by
  intro i o j h
  by_cases hnil : c = .nil
  · subst hnil
    obtain ⟨rfl, -⟩ := pure_ok_iff.mp h
    nofun
  · have hc : c.isText = true := by
      cases c <;> first | rfl | exact absurd rfl hnil | exact absurd h fail_ne_ok
    obtain ⟨_, _, -, -, -, ⟨n, rfl, hsized, -⟩, -⟩ := bytesLen_local hnil _ _ _ h
    rintro _ ⟨⟩
    exact length_lt_of_sized hc hsized

theorem decodeBytesValue_length : Produces decodeBytesValue (fun b => b.length < 2 ^ 32) := by
  refine Produces.trivial.bind fun c _ => (bytesLen_lt c).bind fun o ho => ?_
  cases o with
  | none => exact Produces.pure (by decide)
  | some n =>
    intro i b j h
    rw [(readN_ok_iff.mp h).1]
    exact ho n rfl

theorem ContainerField.decodeValue_length (f : ContainerField) {c : Container}
    (hc : c.lxmfBytes.length < 2 ^ 32) :
    Produces (f.decodeValue c) (fun c => c.lxmfBytes.length < 2 ^ 32) := by
  cases f with
  | lxmfBytes => exact decodeBytesValue_length.bind fun b hb => Produces.pure hb
  | _ => exact Produces.trivial.bind fun _ _ => Produces.pure hc

theorem decodeContainerEntry_length {c : Container} (hc : c.lxmfBytes.length < 2 ^ 32) :
    Produces (decodeContainerEntry c) (fun c => c.lxmfBytes.length < 2 ^ 32) := by
  refine Produces.trivial.bind fun name _ => ?_
  split
  · exact ContainerField.decodeValue_length _ hc
  · exact Produces.trivial.bind fun _ _ => Produces.pure hc

theorem decodeContainerFields_length (fs : List ContainerField) {c : Container}
    (hc : c.lxmfBytes.length < 2 ^ 32) :
    Produces (decodeContainerFields fs c) (fun c => c.lxmfBytes.length < 2 ^ 32) := by
  induction fs generalizing c with
  | nil => exact Produces.pure hc
  | cons f fs ih => exact (f.decodeValue_length hc).bind fun c hc => ih hc

/-- The bytes of a container that was read are no longer than a header can say. -/
theorem unmarshalContainer_length {data : Bytes} {c : Container}
    (h : unmarshalContainer data = .ok c) : c.lxmfBytes.length < 2 ^ 32 := by
  have hempty : ({} : Container).lxmfBytes.length < 2 ^ 32 := by decide
  have hdecode : Produces decodeContainer (fun c => c.lxmfBytes.length < 2 ^ 32) := by
    refine Produces.trivial.bind fun code _ => ?_
    split
    · refine Produces.trivial.bind fun o _ => ?_
      split
      · exact Produces.pure hempty
      · split_ifs
        · exact Produces.pure hempty
        · exact Produces.fail _
        · exact decodeContainerFields_length _ hempty
    · refine Produces.trivial.bind fun o _ => ?_
      split
      · exact Produces.pure hempty
      · exact Produces.iterate (fun c hc => decodeContainerEntry_length hc) _ hempty
  unfold unmarshalContainer at h
  split at h
  · rename_i hread
    cases h
    exact hdecode.within _ _ _ hread
  · cases h

/-! ## Loading what was stored -/

section

variable {Identity : Type} {cr : Crypto Identity} {resolver : Option (Resolver Identity)}

/-- The loaded message `m'` is the stored one, as `r` was unpacked from it. -/
structure SameStored (m r m' : LXMessage) : Prop where
  state : m'.state = m.state
  method : m'.method = m.method
  packed : m'.packed = m.packed
  hash : m'.hash = r.hash
  signature : m'.signature = r.signature
  timestamp : m'.timestamp = r.timestamp
  title : m'.title = r.title
  content : m'.content = r.content
  fields : m'.fields = r.fields
  stamp : m'.stamp = r.stamp

/-- A message is packed in a container, the container is loaded with the message that is
unpacked from its bytes, and packing this message gives the container again. The orders
`o` and `o'` are those in which loading and unpacking iterate maps. -/
def StoreRoundTrip (cr : Crypto Identity) (resolver : Option (Resolver Identity)) (m : LXMessage) :
    Prop :=
  ∃ data, packContainer m = .ok data ∧
    ∀ (o o' : MapOrder) (r : LXMessage), (unpack cr o' m.packed resolver).msg = some r →
      (unpackContainer cr o data resolver).1 = messageContainer m ∧
      ∃ m', (unpackContainer cr o data resolver).2.1 = some m' ∧ SameStored m r m' ∧
        packContainer m' = .ok data

theorem messageContainer_lengthsFit {m : LXMessage} (h : m.packed.length < 2 ^ 32) :
    (messageContainer m).LengthsFit := by
  refine ⟨h, ?_⟩
  have hdescription (method destinationType : UInt8) :
      (determineTransportEncryption method destinationType).2.toUTF8.toList.length < 2 ^ 32 := by
    unfold determineTransportEncryption
    split_ifs <;> decide +kernel
  exact hdescription m.method destinationTypeSingle

/-- An unpacked message carries the bytes it was unpacked from, and the resolver knew its
source or had no opinion. -/
theorem unpack_packed {o : MapOrder} {data : Bytes} {r : LXMessage}
    (h : (unpack cr o data resolver).msg = some r) :
    r.packed = data ∧ data ≠ [] ∧
      ∀ resolve, resolver = some resolve → ∀ e, resolve (packedSource data) ≠ .error e := by
  unfold unpack at h
  split at h
  · cases h
  · rename_i hlen
    obtain ⟨p, hp, hm⟩ := unpackFromBytes_msg_iff.mp h
    obtain ⟨-, -, vs, hashed, pl, -, -, rfl⟩ := parseInner_ok_iff.mp hp
    refine ⟨?_, ?_, verifySource_msg_iff.mp ⟨r, hm⟩⟩
    · rw [verifySource_msg hm]
      simp only [inboundMessage, ← List.drop_drop, List.append_assoc, List.take_append_drop]
    · rintro rfl
      exact hlen (by decide)

/-- What loading does with a container it could read. -/
theorem unpackContainer_of_unmarshal {o : MapOrder} {data : Bytes} {c : Container} {r : LXMessage}
    (hc : unmarshalContainer data = .ok c) (hr : (unpack cr o c.lxmfBytes resolver).msg = some r) :
    (unpackContainer cr o data resolver).1 = c ∧
      ∃ representation, (unpackContainer cr o data resolver).2.1 =
        some { r with state := c.state, method := c.method, representation } := by
  rw [unpackContainer, hc]
  simp only [(unpack_packed hr).2.1, if_false, hr]
  exact ⟨trivial, _, rfl⟩

theorem unpackContainer_msg {o : MapOrder} {data : Bytes} {m' : LXMessage}
    (h : (unpackContainer cr o data resolver).2.1 = some m') :
    ∃ c r, unmarshalContainer data = .ok c ∧ (unpackContainer cr o data resolver).1 = c ∧
      (unpack cr o c.lxmfBytes resolver).msg = some r ∧ m'.fields = r.fields := by
  cases hc : unmarshalContainer data with
  | error e =>
    rw [unpackContainer, hc] at h
    cases h
  | ok c =>
    cases hr : (unpack cr o c.lxmfBytes resolver).msg with
    | none =>
      rw [unpackContainer, hc] at h
      simp only [hr] at h
      split_ifs at h
    | some r =>
      obtain ⟨hfst, representation, hmsg⟩ := unpackContainer_of_unmarshal hc hr
      rw [hmsg, Option.some.injEq] at h
      exact ⟨c, r, rfl, hfst, hr, by rw [← h]⟩

theorem packContainer_ok {m : LXMessage} (hne : m.packed ≠ []) :
    packContainer m = .ok (marshalContainer (messageContainer m)) :=
  if_neg fun h => hne (List.eq_nil_of_length_eq_zero h)

theorem storeRoundTrip_of_unambiguous {m : LXMessage} (hlen : m.packed.length < 2 ^ 32)
    (hfields : FieldsUnambiguous m.packed) (hne : m.packed ≠ []) : StoreRoundTrip cr resolver m := by
  refine ⟨_, packContainer_ok hne, fun o o' r hr => ?_⟩
  have hpacked := (unpack_packed hr).1
  rw [← unpack_of_unambiguous hfields hr o] at hr
  obtain ⟨hfst, representation, hmsg⟩ :=
    unpackContainer_of_unmarshal (unmarshal_marshal (messageContainer_lengthsFit hlen)) hr
  refine ⟨hfst, _, hmsg, ⟨rfl, rfl, hpacked, rfl, rfl, rfl, rfl, rfl, rfl, rfl⟩, ?_⟩
  rw [packContainer_ok (by rw [hpacked]; exact hne)]
  simp only [messageContainer, hpacked]

/-- The container that was loaded is the one that was packed. -/
theorem unpack_of_storeRoundTrip {m : LXMessage} (h : StoreRoundTrip cr resolver m) {o' : MapOrder}
    {r : LXMessage} (hr : (unpack cr o' m.packed resolver).msg = some r) (o : MapOrder) :
    m.packed.length < 2 ^ 32 ∧
      (unpack cr o m.packed resolver).msg.map LXMessage.fields = some r.fields := by
  obtain ⟨data, -, hload⟩ := h
  obtain ⟨hfst, m', hmsg, hsame, -⟩ := hload o o' r hr
  obtain ⟨c, r', hc, heq, hr', hfields⟩ := unpackContainer_msg hmsg
  rw [hfst] at heq
  subst heq
  refine ⟨unmarshalContainer_length hc, ?_⟩
  have hpacked : (messageContainer m).lxmfBytes = m.packed := rfl
  rw [hpacked] at hr'
  rw [hr', Option.map_some, ← hfields, hsame.fields]

/-- A message whose packed bytes are accepted is loaded as it was stored if and only if its
bytes fit in a container and its fields do not depend on the iteration order. -/
theorem store_round_trip_iff {m r : LXMessage} {o : MapOrder}
    (h : (unpack cr o m.packed resolver).msg = some r) :
    StoreRoundTrip cr resolver m ↔ m.packed.length < 2 ^ 32 ∧ FieldsUnambiguous m.packed := by
  obtain ⟨-, hne, hres⟩ := unpack_packed h
  constructor
  · intro hstore
    have hload := unpack_of_storeRoundTrip hstore h
    have hfields (o₁ o₂ : MapOrder) : (unpack cr o₁ m.packed resolver).msg.map LXMessage.fields =
        (unpack cr o₂ m.packed resolver).msg.map LXMessage.fields := by
      rw [(hload o₁).2, (hload o₂).2]
    exact ⟨(hload o).1, unambiguous_of_sameFields hres hfields⟩
  · rintro ⟨hlen, hfields⟩
    exact storeRoundTrip_of_unambiguous hlen hfields hne

end

/-- A message that was sent directly. -/
def sentMessage (packed : Bytes) : LXMessage where
  destinationHash := List.replicate 16 0
  sourceHash := List.replicate 16 0
  packed := packed
  state := 0x04
  method := methodDirect

/-- A message with one field is loaded as it was stored. -/
theorem one_field_restored :
    StoreRoundTrip plainCrypto none (sentMessage (fieldsInput [0x81, 0x01, 0xc3])) := by
  obtain ⟨r, hr⟩ := Option.isSome_iff_exists.mp (by decide +kernel :
    (unpack plainCrypto .listed (sentMessage (fieldsInput [0x81, 0x01, 0xc3])).packed none).msg.isSome)
  refine (store_round_trip_iff hr).mpr ⟨by decide, fun vs hashed o p hdec _ => ?_⟩
  have hvalues : decodePayloadAndSplit ((sentMessage (fieldsInput [0x81, 0x01, 0xc3])).packed.drop
      (2 * destinationLength + signatureLength)) = .ok ([.scalar (.int .int8 1), .bytes [], .bytes [],
        .map .any [(.int .int8 1, .scalar (.bool true))]],
        [0x94, 0x01, 0xc4, 0x00, 0xc4, 0x00, 0x81, 0x01, 0xc3]) := by rfl
  rw [hvalues] at hdec
  cases hdec
  rintro v ⟨⟩
  apply DistinctByteKeys.unambiguous
  exact Any.forall_map_iff.mpr ⟨List.nodup_singleton (1 : UInt8), by simp [Any.Forall]⟩

/-- The elements of a payload with this content. -/
def contentTrees (content : Bytes) : List WireTree :=
  [.leaf (.posFixedNum 1) [], .leaf .bin8 [], .leaf (.bin content.length) content,
    .node (.fixedMap 0) []]

def contentInput (content : Bytes) : Bytes :=
  List.replicate 96 0 ++ (WireTree.node (.fixedArray 4) (contentTrees content)).flatten

theorem contentInput_accepted {content : Bytes} (h : content.length < 2 ^ 32) :
    ∃ r, (unpack plainCrypto .listed (contentInput content) none).msg = some r := by
  have hdrop : (contentInput content).drop (2 * destinationLength + signatureLength) =
      (WireTree.node (.fixedArray 4) (contentTrees content)).flatten := List.drop_left' rfl
  have hwf : WireTree.AllWF (contentTrees content) :=
    ⟨rfl, ⟨Nat.le_refl 0, by decide⟩, Code.sized_bin h, ⟨rfl, trivial⟩, trivial⟩
  have hpayload : IsPayload ((contentInput content).drop (2 * destinationLength + signatureLength))
      (.fixedArray 4) (contentTrees content) := ⟨rfl, rfl, hwf, .inl rfl, hdrop⟩
  have hdec : List.Forall₂ Decodes (contentTrees content)
      [.scalar (.int .int8 1), .bytes [], .bytes content, .map .any []] :=
    .cons (fun _ => rfl) (.cons (decodes_bin8 (by decide)) (.cons (decodes_bytes h) (.cons (fun _ => rfl) .nil)))
  have hfields : (unpack plainCrypto .listed (contentInput content) none).msg.map LXMessage.fields =
      some (some []) :=
    (unpack_fields_iff (none_resolves _)).mpr ⟨_, _, _,
      decodePayloadAndSplit_ok_iff.mpr ⟨_, _, hpayload, hdec, rfl⟩, rfl, rfl⟩
  obtain ⟨r, hr, -⟩ := Option.map_eq_some_iff.mp hfields
  exact ⟨r, hr⟩

theorem contentInput_length (content : Bytes) :
    96 + content.length ≤ (contentInput content).length := by
  simp [contentInput, contentTrees, WireTree.flatten, WireTree.flattenAll]
  omega

theorem long_content_not_restored {content : Bytes} (hlong : 2 ^ 32 ≤ 96 + content.length)
    (h : content.length < 2 ^ 32) :
    (∃ r, (unpack plainCrypto .listed (sentMessage (contentInput content)).packed none).msg = some r) ∧
      ¬StoreRoundTrip plainCrypto none (sentMessage (contentInput content)) := by
  obtain ⟨r, hr⟩ := contentInput_accepted h
  refine ⟨⟨r, hr⟩, fun hstore => ?_⟩
  have hlt : (contentInput content).length < 2 ^ 32 := (unpack_of_storeRoundTrip hstore hr .listed).1
  have hlen := contentInput_length content
  omega

theorem longContent_length : longContent.length = 2 ^ 32 - 1 := by
  rw [longContent, List.length_replicate]

/-- A message with two entries for one field, which is loaded with one or the other, and a
message of more than `2 ^ 32` bytes, of which a part is loaded. -/
theorem stored_messages_not_restored :
    (∃ r, (unpack plainCrypto .listed
        (sentMessage (fieldsInput [0x82, 0x01, 0xc2, 0xcc, 0x01, 0xc3])).packed none).msg = some r) ∧
      ¬StoreRoundTrip plainCrypto none
        (sentMessage (fieldsInput [0x82, 0x01, 0xc2, 0xcc, 0x01, 0xc3])) ∧
      (∃ r, (unpack plainCrypto .listed (sentMessage (contentInput longContent)).packed none).msg =
        some r) ∧
      ¬StoreRoundTrip plainCrypto none (sentMessage (contentInput longContent)) := by
  have hlisted : (unpack plainCrypto .listed (sentMessage (fieldsInput
      [0x82, 0x01, 0xc2, 0xcc, 0x01, 0xc3])).packed none).msg.map LXMessage.fields =
        some (some [(1, .scalar (.bool true))]) := by rfl
  have hreversed : (unpack plainCrypto .reversed (sentMessage (fieldsInput
      [0x82, 0x01, 0xc2, 0xcc, 0x01, 0xc3])).packed none).msg.map LXMessage.fields =
        some (some [(1, .scalar (.bool false))]) := by rfl
  obtain ⟨r, hr, hfields⟩ := Option.map_eq_some_iff.mp hlisted
  refine ⟨⟨r, hr⟩, fun h => ?_, long_content_not_restored ?_ ?_⟩
  · have heq := (unpack_of_storeRoundTrip h hr .reversed).2
    rw [hreversed, hfields] at heq
    simp at heq
  · rw [longContent_length]
    norm_num
  · rw [longContent_length]
    norm_num

end Lxmf
