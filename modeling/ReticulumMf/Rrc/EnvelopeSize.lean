-- SUMMARY: How many bytes an envelope takes on the wire, and which envelopes fit into a link packet.
import ReticulumMf.Rrc.EnvelopeCodec

/-!
# Sizes of envelopes

The CBOR package writes every integer, length and count in the shortest head. So
the size of an encoded envelope is a sum over its fields (`Envelope.size_eq`),
whatever the order in which the map is written, and an envelope can be sent on a
link exactly if the sum is within the link's maximum plaintext
(`Envelope.fits_iff`).
-/

namespace Rrc

/-! ## Values -/

/-- The values in the hub's envelopes: flat ones, and lists of flat ones. -/
def CborValue.IsItem : CborValue → Prop
  | .array items => ∀ v ∈ items, v.IsFlat
  | v => v.IsFlat

/-- Numbers and lengths are 64-bit. -/
def CborValue.FlatInRange : CborValue → Prop
  | .uint n => n < 2 ^ 64
  | .bytes b | .text b => b.length < 2 ^ 64
  | _ => True

def CborValue.InRange : CborValue → Prop
  | .array items => items.length < 2 ^ 64 ∧ ∀ v ∈ items, v.FlatInRange
  | v => v.FlatInRange

def CborValue.flatSize : CborValue → Nat
  | .uint n => Cbor.headLength n
  | .bytes b | .text b => Cbor.headLength b.length + b.length
  | _ => 0

def CborValue.size : CborValue → Nat
  | .array items => Cbor.headLength items.length + (items.map CborValue.flatSize).sum
  | v => v.flatSize

/-- What one entry of a map takes. -/
def entrySize (e : Nat × CborValue) : Nat := Cbor.headLength e.1 + e.2.size

def mapSize (m : List (Nat × CborValue)) : Nat :=
  Cbor.headLength m.length + (m.map entrySize).sum

/-- The CBOR package uses the shortest heads, on the maps that the hub sends. -/
structure CborCodec.Shortest (cbor : CborCodec) : Prop where
  marshal_isSome : ∀ m, (∀ e ∈ m, e.2.IsItem) →
    ((cbor.marshal m).isSome = true ↔
      m.length < 2 ^ 64 ∧ ∀ e ∈ m, e.1 < 2 ^ 64 ∧ e.2.InRange)
  length_marshal : ∀ m b, (∀ e ∈ m, e.2.IsItem) → cbor.marshal m = some b → b.length = mapSize m

/-! ## CBOR for the hub's envelopes -/

def encodeItems : List CborValue → Option Bytes
  | [] => some []
  | v :: items => do
    let vb ← encodeFlat v
    let b ← encodeItems items
    return vb ++ b

def encodeItem : CborValue → Option Bytes
  | .array items =>
    if items.length < 2 ^ 64 then (encodeItems items).map (Cbor.head 4 items.length ++ ·) else none
  | v => encodeFlat v

def encodeEntries : List (Nat × CborValue) → Option Bytes
  | [] => some []
  | (k, v) :: m => do
    let kb ← encodeFlat (.uint k)
    let vb ← encodeItem v
    let mb ← encodeEntries m
    return kb ++ (vb ++ mb)

/-- An optional encoding that exists exactly under a condition, and its length. -/
def Encodes (b : Option Bytes) (possible : Prop) (size : Nat) : Prop :=
  (b.isSome = true ↔ possible) ∧ ∀ b' ∈ b, b'.length = size

theorem Encodes.ite {p : Prop} [Decidable p] {b : Bytes} {n : Nat} (h : b.length = n) :
    Encodes (if p then some b else none) p n := by
  by_cases hp : p <;> simp [Encodes, hp, h]

theorem Encodes.append {b b' : Option Bytes} {p p' : Prop} {n n' : Nat} (h : Encodes b p n)
    (h' : Encodes b' p' n') :
    Encodes (b.bind fun x => b'.bind fun y => some (x ++ y)) (p ∧ p') (n + n') := by
  obtain ⟨hsome, hlen⟩ := h
  obtain ⟨hsome', hlen'⟩ := h'
  cases b <;> cases b' <;> simp_all [Encodes]

theorem Encodes.map_head {b : Option Bytes} {p : Prop} {n major k : Nat} (h : Encodes b p n) :
    Encodes (if k < 2 ^ 64 then b.map (Cbor.head major k ++ ·) else none) (k < 2 ^ 64 ∧ p)
      (Cbor.headLength k + n) := by
  obtain ⟨hsome, hlen⟩ := h
  by_cases hk : k < 2 ^ 64
  · cases b <;> simp_all [Encodes]
  · simp only [if_neg hk]
    exact ⟨iff_of_false Bool.false_ne_true fun h => hk h.1, nofun⟩

theorem encodeFlat_encodes {v : CborValue} (h : v.IsFlat) :
    Encodes (encodeFlat v) v.FlatInRange v.flatSize := by
  cases v with
  | uint n => exact .ite (Cbor.length_head 0 n)
  | bytes b => exact .ite (by simp [CborValue.flatSize])
  | text s => exact .ite (by simp [CborValue.flatSize])
  | _ => exact h.elim

theorem encodeItems_encodes {items : List CborValue} (h : ∀ v ∈ items, v.IsFlat) :
    Encodes (encodeItems items) (∀ v ∈ items, v.FlatInRange)
      (items.map CborValue.flatSize).sum := by
  induction items with
  | nil => simp [Encodes, encodeItems]
  | cons v items ih =>
    have hv := encodeFlat_encodes (h v (by simp))
    have hitems := ih fun v hv => h v (by simp [hv])
    simpa [encodeItems] using hv.append hitems

theorem encodeItem_encodes {v : CborValue} (h : v.IsItem) :
    Encodes (encodeItem v) v.InRange v.size := by
  cases v with
  | array items => exact (encodeItems_encodes h).map_head
  | uint n => exact encodeFlat_encodes (v := .uint n) h
  | bytes b => exact encodeFlat_encodes (v := .bytes b) h
  | text s => exact encodeFlat_encodes (v := .text s) h
  | _ => exact h.elim

theorem encodeEntries_encodes {m : List (Nat × CborValue)} (h : ∀ e ∈ m, e.2.IsItem) :
    Encodes (encodeEntries m) (∀ e ∈ m, e.1 < 2 ^ 64 ∧ e.2.InRange) (m.map entrySize).sum := by
  induction m with
  | nil => simp [Encodes, encodeEntries]
  | cons e m ih =>
    obtain ⟨k, v⟩ := e
    have hk : Encodes (encodeFlat (.uint k)) (k < 2 ^ 64) (Cbor.headLength k) :=
      encodeFlat_encodes True.intro
    have hv := encodeItem_encodes (h (k, v) (by simp))
    have hm := ih fun e he => h e (by simp [he])
    have hall := hk.append (hv.append hm)
    simpa [encodeEntries, entrySize, and_assoc, add_assoc, Option.bind_assoc] using hall

/-- On flat maps nothing changes. -/
theorem encodeEntries_flat {m : List (Nat × CborValue)} (h : ∀ e ∈ m, e.2.IsFlat) :
    encodeEntries m = encodePairs m := by
  induction m with
  | nil => rfl
  | cons e m ih =>
    obtain ⟨k, v⟩ := e
    have hv : encodeItem v = encodeFlat v := by
      cases v with
      | array items => exact (h (k, .array items) (by simp)).elim
      | _ => rfl
    rw [encodeEntries, encodePairs, hv, ih fun e he => h e (by simp [he])]

def encodeMap (m : List (Nat × CborValue)) : Option Bytes :=
  if m.length < 2 ^ 64 then (encodeEntries m).map (Cbor.head 5 m.length ++ ·) else none

theorem encodeMap_flat {m : List (Nat × CborValue)} (h : ∀ e ∈ m, e.2.IsFlat) :
    encodeMap m = flatCbor.marshal m := by
  rw [encodeMap, encodeEntries_flat h]
  rfl

/-- CBOR as far as the hub's envelopes go; only flat maps are read back. -/
def hubCbor : CborCodec where
  marshal := encodeMap
  unmarshal := flatCbor.unmarshal
  marshal_ne_nil m b h := by
    obtain ⟨-, h⟩ := Option.ite_none_right_eq_some.mp h
    obtain ⟨mb, -, rfl⟩ := Option.map_eq_some_iff.mp h
    simp [Cbor.head_ne_nil]
  unmarshal_marshal m b h hnodup hflat :=
    flatCbor.unmarshal_marshal m b (encodeMap_flat hflat ▸ h) hnodup hflat
  unmarshal_invalid m b h hflat :=
    flatCbor.unmarshal_invalid m b (encodeMap_flat hflat ▸ h) hflat

theorem hubCbor_shortest : hubCbor.Shortest where
  marshal_isSome _ h := (encodeEntries_encodes h).map_head.1
  length_marshal _ b h hb := (encodeEntries_encodes h).map_head.2 b hb

/-! ## Envelopes -/

/-- The longest plaintext that a packet on a link carries. -/
def linkMaxPlaintext : Nat := 431

/-- The envelope is encoded, and `SendPacket` takes the result. -/
def Envelope.Fits (cbor : CborCodec) (e : Envelope) : Prop :=
  ∃ b, e.marshal cbor = .ok b ∧ b.length ≤ linkMaxPlaintext

def Envelope.encodedLength (cbor : CborCodec) (e : Envelope) : Option Nat :=
  (e.marshal cbor).toOption.map List.length

theorem Envelope.encodedLength_eq_some {cbor : CborCodec} {e : Envelope} {n : Nat} :
    e.encodedLength cbor = some n ↔ ∃ b, e.marshal cbor = .ok b ∧ b.length = n := by
  simp only [Envelope.encodedLength, Option.map_eq_some_iff, Except.toOption_eq_some_iff]

theorem Envelope.fits_iff_of_encodedLength {cbor : CborCodec} {e : Envelope} {n : Nat}
    (h : e.encodedLength cbor = some n) : e.Fits cbor ↔ n ≤ linkMaxPlaintext := by
  obtain ⟨b, hb, rfl⟩ := Envelope.encodedLength_eq_some.mp h
  constructor
  · intro hfits
    obtain ⟨b', hb', hlen⟩ := hfits
    cases hb.symm.trans hb'
    exact hlen
  · exact fun hlen => ⟨b, hb, hlen⟩

/-- What a field takes that may be absent. Its key is below 24. -/
def fieldSize (present : Bool) (v : CborValue) : Nat := if present then 1 + v.size else 0

def Envelope.size (e : Envelope) : Nat := mapSize e.toMap

theorem Envelope.size_eq (e : Envelope) :
    e.size = 6 + Cbor.headLength e.version + Cbor.headLength e.type +
      (Cbor.headLength e.msgID.length + e.msgID.length) + Cbor.headLength e.timestamp +
      (Cbor.headLength e.sender.length + e.sender.length) + fieldSize e.hasRoom (.text e.room) +
      fieldSize e.hasBody e.body + fieldSize e.hasNick (.text e.nick) := by
  unfold Envelope.size Envelope.toMap
  cases e.hasRoom <;> cases e.hasBody <;> cases e.hasNick <;>
    simp [mapSize, entrySize, fieldSize, CborValue.size, CborValue.flatSize, Cbor.headLength,
      keyVersion, keyType, keyMsgID, keyTimestamp, keySender, keyRoom, keyBody, keyNick] <;>
    omega

theorem Envelope.toMap_length_lt (e : Envelope) : e.toMap.length < 2 ^ 64 := by
  unfold Envelope.toMap
  cases e.hasRoom <;> cases e.hasBody <;> cases e.hasNick <;> simp

/-- A property of every entry of the map, field by field. -/
theorem Envelope.toMap_forall {P : Nat × CborValue → Prop} (e : Envelope) :
    (∀ x ∈ e.toMap, P x) ↔
      (P (keyVersion, .uint e.version) ∧ P (keyType, .uint e.type) ∧
        P (keyMsgID, .bytes e.msgID) ∧ P (keyTimestamp, .uint e.timestamp) ∧
        P (keySender, .bytes e.sender)) ∧
      (e.hasRoom = true → P (keyRoom, .text e.room)) ∧
      (e.hasBody = true → P (keyBody, e.body)) ∧ (e.hasNick = true → P (keyNick, .text e.nick)) := by
  unfold Envelope.toMap
  cases e.hasRoom <;> cases e.hasBody <;> cases e.hasNick <;>
    simp [and_assoc]

/-- The bodies of room messages and of JOINED. -/
def CborValue.IsBody : CborValue → Prop
  | .text _ | .bytes _ => True
  | .array items => ∀ v ∈ items, ∃ b, v = .bytes b
  | _ => False

theorem CborValue.IsBody.isItem {v : CborValue} (h : v.IsBody) : v.IsItem := by
  cases v with
  | text s | bytes b => exact True.intro
  | array items =>
    intro v hv
    obtain ⟨b, rfl⟩ := h v hv
    exact True.intro
  | _ => exact h.elim

theorem CborValue.IsBody.inRange {v : CborValue} (h : v.IsBody) (hsize : v.size < 2 ^ 64) :
    v.InRange := by
  cases v with
  | text s | bytes s => exact (Nat.le_add_left ..).trans_lt hsize
  | array items =>
    have hitem : ∀ v ∈ items, 1 ≤ v.flatSize ∧ v.FlatInRange := by
      intro v hv
      obtain ⟨b, rfl⟩ := h v hv
      have hmem : (CborValue.bytes b).flatSize ≤ (items.map CborValue.flatSize).sum :=
        List.single_le_sum (by simp) _ (List.mem_map_of_mem hv)
      simp only [CborValue.size] at hsize
      have hpos := Cbor.headLength_pos b.length
      simp only [CborValue.flatSize, CborValue.FlatInRange] at hmem ⊢
      omega
    have hcount : items.length ≤ (items.map CborValue.flatSize).sum := by
      simpa using List.length_le_sum_of_one_le (items.map CborValue.flatSize) (by
        intro n hn
        obtain ⟨v, hv, rfl⟩ := List.mem_map.mp hn
        exact (hitem v hv).1)
    simp only [CborValue.size] at hsize
    exact ⟨by omega, fun v hv => (hitem v hv).2⟩
  | _ => exact h.elim

/-- The checks of `Marshal` succeed, and numbers and body are as the hub sends them. -/
structure Envelope.Sendable (e : Envelope) : Prop where
  version : e.version = protocolVersion
  msgID : e.msgID.length = messageIDLength
  sender : e.sender.length = identityLength
  type : e.type < 2 ^ 64
  timestamp : e.timestamp < 2 ^ 64
  body : e.hasBody = true → e.body.IsBody

theorem Envelope.toMap_isItem {e : Envelope} (hbody : e.hasBody = true → e.body.IsBody) :
    ∀ x ∈ e.toMap, x.2.IsItem :=
  e.toMap_forall.mpr ⟨⟨True.intro, True.intro, True.intro, True.intro, True.intro⟩,
    fun _ => True.intro, fun h => (hbody h).isItem, fun _ => True.intro⟩

theorem fieldSize_inRange {present : Bool} {v : CborValue} {n : Nat} (hv : v.IsBody)
    (hsize : fieldSize present v ≤ n) (hn : n ≤ 2 ^ 64) (hpresent : present = true) : v.InRange := by
  rw [fieldSize, if_pos hpresent] at hsize
  exact hv.inRange (by omega)

theorem Envelope.toMap_keys (e : Envelope) : ∀ x ∈ e.toMap, x.1 < 2 ^ 64 := by
  rw [e.toMap_forall]
  simp [keyVersion, keyType, keyMsgID, keyTimestamp, keySender, keyRoom, keyBody, keyNick]

theorem Envelope.Sendable.toMap_inRange {e : Envelope} (h : e.Sendable)
    (hsize : e.size ≤ linkMaxPlaintext) : ∀ x ∈ e.toMap, x.2.InRange := by
  rw [e.size_eq] at hsize
  have hsmall : linkMaxPlaintext ≤ 2 ^ 64 := by decide
  have hroom : fieldSize e.hasRoom (.text e.room) ≤ linkMaxPlaintext := by omega
  have hbody : fieldSize e.hasBody e.body ≤ linkMaxPlaintext := by omega
  have hnick : fieldSize e.hasNick (.text e.nick) ≤ linkMaxPlaintext := by omega
  refine e.toMap_forall.mpr ⟨⟨?_, h.type, ?_, h.timestamp, ?_⟩,
    fieldSize_inRange True.intro hroom hsmall,
    fun hpresent => fieldSize_inRange (h.body hpresent) hbody hsmall hpresent,
    fieldSize_inRange True.intro hnick hsmall⟩
  · simp [CborValue.InRange, CborValue.FlatInRange, h.version, protocolVersion]
  · simp [CborValue.InRange, CborValue.FlatInRange, h.msgID, messageIDLength]
  · simp [CborValue.InRange, CborValue.FlatInRange, h.sender, identityLength]

section Codec

variable {cbor : CborCodec} {e : Envelope}

theorem Envelope.length_marshal (hcbor : cbor.Shortest)
    (hbody : e.hasBody = true → e.body.IsBody) {b : Bytes} (h : e.marshal cbor = .ok b) :
    b.length = e.size :=
  hcbor.length_marshal _ b (Envelope.toMap_isItem hbody) (Envelope.marshal_ok cbor h).2.2.2

/-- What `Marshal` encodes passed its checks, and the numbers in it are 64-bit. -/
theorem Envelope.sendable_of_marshal (hcbor : cbor.Shortest)
    (hbody : e.hasBody = true → e.body.IsBody) {b : Bytes} (h : e.marshal cbor = .ok b) :
    e.Sendable := by
  obtain ⟨hversion, hid, hsender, hb⟩ := Envelope.marshal_ok cbor h
  have hsome : (cbor.marshal e.toMap).isSome = true := by rw [hb]; rfl
  have hrange := ((hcbor.marshal_isSome _ (Envelope.toMap_isItem hbody)).mp hsome).2
  obtain ⟨⟨-, htype, -, htime, -⟩, -⟩ := e.toMap_forall.mp hrange
  exact ⟨hversion, hid, hsender, htype.2, htime.2, hbody⟩

theorem Envelope.fits_iff (hcbor : cbor.Shortest) (h : e.Sendable) :
    e.Fits cbor ↔ e.size ≤ linkMaxPlaintext := by
  constructor
  · intro hfits
    obtain ⟨b, hb, hlen⟩ := hfits
    rwa [Envelope.length_marshal hcbor h.body hb] at hlen
  · intro hsize
    have hsome : (cbor.marshal e.toMap).isSome = true :=
      (hcbor.marshal_isSome _ (Envelope.toMap_isItem h.body)).mpr
        ⟨e.toMap_length_lt, fun x hx => ⟨e.toMap_keys x hx, h.toMap_inRange hsize x hx⟩⟩
    obtain ⟨b, hb⟩ := Option.isSome_iff_exists.mp hsome
    have hmarshal : e.marshal cbor = .ok b := by
      simp [Envelope.marshal, h.version, h.msgID, h.sender, hb]
    exact ⟨b, hmarshal, (Envelope.length_marshal hcbor h.body hmarshal).trans_le hsize⟩

end Codec

end Rrc
