-- SUMMARY: Marshalling and unmarshalling of envelopes, and which envelopes come back.
import ReticulumMf.Lib.CborHead
import ReticulumMf.Lib.Except
import ReticulumMf.Rrc.Client

/-!
# Envelopes on the wire

`Marshal` writes an envelope as a CBOR map with unsigned keys, `UnmarshalEnvelope`
reads it. The encoder writes a Go string as it is, the decoder refuses text that
is not valid UTF-8, and neither the sender's checks nor `Marshal` look at the
bytes of a string: an envelope comes back exactly if the strings in it are valid
UTF-8 (`envelope_comes_back_iff`).
-/

namespace Rrc

/-! ## The CBOR package -/

/-- Go's `utf8.Valid`. -/
def utf8Valid (s : Bytes) : Bool := ByteArray.validateUTF8 ⟨s.toArray⟩

/-- The values of an envelope's fields: unsigned integers, byte strings and text. -/
def CborValue.IsFlat : CborValue → Prop
  | .uint _ | .bytes _ | .text _ => True
  | _ => False

/-- If the value is a text string, it is valid UTF-8. -/
def CborValue.TextValid : CborValue → Prop
  | .text s => utf8Valid s = true
  | _ => True

/-- The CBOR package with its default options, on maps with unsigned keys. A Go
map is given by its entries; what counts is what `lookup` finds. -/
structure CborCodec where
  marshal : List (Nat × CborValue) → Option Bytes
  unmarshal : Bytes → Option (List (Nat × CborValue))
  marshal_ne_nil : ∀ m b, marshal m = some b → b ≠ []
  /-- Maps of integers, byte strings and valid text come back. -/
  unmarshal_marshal : ∀ m b, marshal m = some b → (m.map Prod.fst).Nodup → (∀ e ∈ m, e.2.IsFlat) →
    (∀ e ∈ m, e.2.TextValid) → ∃ raw, unmarshal b = some raw ∧ ∀ k, raw.lookup k = m.lookup k
  /-- Text is written unchecked, and refused when it is read. -/
  unmarshal_invalid : ∀ m b, marshal m = some b → (∀ e ∈ m, e.2.IsFlat) →
    (∃ e ∈ m, ¬ e.2.TextValid) → unmarshal b = none

/-! ## CBOR for flat maps -/

def encodeFlat : CborValue → Option Bytes
  | .uint n => if n < 2 ^ 64 then some (Cbor.head 0 n) else none
  | .bytes b => if b.length < 2 ^ 64 then some (Cbor.head 2 b.length ++ b) else none
  | .text s => if s.length < 2 ^ 64 then some (Cbor.head 3 s.length ++ s) else none
  | _ => none

def decodeFlat (b : Bytes) : Option (CborValue × Bytes) :=
  match Cbor.readHead b with
  | some (0, n, r) => some (.uint n, r)
  | some (2, n, r) => if n ≤ r.length then some (.bytes (r.take n), r.drop n) else none
  | some (3, n, r) =>
    if n ≤ r.length ∧ utf8Valid (r.take n) = true then some (.text (r.take n), r.drop n) else none
  | _ => none

def encodePairs : List (Nat × CborValue) → Option Bytes
  | [] => some []
  | (k, v) :: m => do
    let kb ← encodeFlat (.uint k)
    let vb ← encodeFlat v
    let mb ← encodePairs m
    return kb ++ (vb ++ mb)

def decodePairs : Nat → Bytes → Option (List (Nat × CborValue) × Bytes)
  | 0, b => some ([], b)
  | n + 1, b => do
    let (k, b) ← decodeFlat b
    let k ← asUint64 k
    let (v, b) ← decodeFlat b
    let (m, b) ← decodePairs n b
    return ((k, v) :: m, b)

/-- A head, and as many bytes as it says. -/
theorem readHead_bytes {n : Nat} {s : Bytes} (hn : n < 8) (hs : s.length < 2 ^ 64) (r : Bytes) :
    Cbor.readHead (Cbor.head n s.length ++ s ++ r) = some (n, s.length, s ++ r) := by
  rw [List.append_assoc, Cbor.readHead_head hn hs]

theorem decodeFlat_encodeFlat {v : CborValue} {b : Bytes} (h : encodeFlat v = some b)
    (hvalid : v.TextValid) (r : Bytes) : decodeFlat (b ++ r) = some (v, r) := by
  cases v with
  | uint n =>
    obtain ⟨hn, hb⟩ := Option.ite_none_right_eq_some.mp h
    obtain rfl := Option.some.inj hb
    rw [decodeFlat, Cbor.readHead_head (by decide) hn]
    rfl
  | bytes s =>
    obtain ⟨hn, hb⟩ := Option.ite_none_right_eq_some.mp h
    obtain rfl := Option.some.inj hb
    rw [decodeFlat, readHead_bytes (by decide) hn]
    simp
  | text s =>
    obtain ⟨hn, hb⟩ := Option.ite_none_right_eq_some.mp h
    obtain rfl := Option.some.inj hb
    have hutf8 : utf8Valid s = true := hvalid
    rw [decodeFlat, readHead_bytes (by decide) hn]
    simp [hutf8]
  | _ => cases h

theorem decodeFlat_invalid {v : CborValue} {b : Bytes} (h : encodeFlat v = some b)
    (hinvalid : ¬ v.TextValid) (r : Bytes) : decodeFlat (b ++ r) = none := by
  cases v with
  | text s =>
    obtain ⟨hn, hb⟩ := Option.ite_none_right_eq_some.mp h
    obtain rfl := Option.some.inj hb
    have hutf8 : ¬ utf8Valid s = true := hinvalid
    rw [decodeFlat, readHead_bytes (by decide) hn]
    simp [hutf8]
  | _ => exact absurd True.intro hinvalid

theorem encodePairs_cons {k : Nat} {v : CborValue} {m : List (Nat × CborValue)} {b : Bytes}
    (h : encodePairs ((k, v) :: m) = some b) :
    ∃ kb vb mb, encodeFlat (.uint k) = some kb ∧ encodeFlat v = some vb ∧ encodePairs m = some mb ∧
      b = kb ++ (vb ++ mb) := by
  simp only [encodePairs, bind, pure, Option.bind_eq_some_iff, Option.some.injEq] at h
  obtain ⟨kb, hkb, vb, hvb, mb, hmb, rfl⟩ := h
  exact ⟨kb, vb, mb, hkb, hvb, hmb, rfl⟩

theorem decodePairs_encodePairs {m : List (Nat × CborValue)} {b : Bytes} (h : encodePairs m = some b)
    (hvalid : ∀ e ∈ m, e.2.TextValid) (r : Bytes) :
    decodePairs m.length (b ++ r) = some (m, r) := by
  induction m generalizing b with
  | nil =>
    obtain rfl : [] = b := Option.some.inj h
    rfl
  | cons e m ih =>
    obtain ⟨k, v⟩ := e
    obtain ⟨kb, vb, mb, hkb, hvb, hmb, rfl⟩ := encodePairs_cons h
    have hm := ih hmb (fun e he => hvalid e (by simp [he]))
    rw [List.append_assoc, List.append_assoc, List.length_cons, decodePairs,
      decodeFlat_encodeFlat hkb True.intro]
    simp [asUint64, decodeFlat_encodeFlat hvb (hvalid (k, v) (by simp)), hm]

theorem decodePairs_invalid {m : List (Nat × CborValue)} {b : Bytes} (h : encodePairs m = some b)
    (hinvalid : ∃ e ∈ m, ¬ e.2.TextValid) (r : Bytes) : decodePairs m.length (b ++ r) = none := by
  induction m generalizing b with
  | nil => simp at hinvalid
  | cons e m ih =>
    obtain ⟨k, v⟩ := e
    obtain ⟨kb, vb, mb, hkb, hvb, hmb, rfl⟩ := encodePairs_cons h
    rw [List.append_assoc, List.append_assoc, List.length_cons, decodePairs,
      decodeFlat_encodeFlat hkb True.intro]
    by_cases hv : v.TextValid
    · have hm : ∃ e ∈ m, ¬ e.2.TextValid := by
        obtain ⟨e, he, hne⟩ := hinvalid
        cases List.mem_cons.mp he with
        | inl heq => exact absurd (heq ▸ hv) hne
        | inr hmem => exact ⟨e, hmem, hne⟩
      simp [asUint64, decodeFlat_encodeFlat hvb hv, ih hmb hm]
    · simp [asUint64, decodeFlat_invalid hvb hv]

/-- CBOR as far as flat maps go. -/
def flatCbor : CborCodec where
  marshal m :=
    if m.length < 2 ^ 64 then (encodePairs m).map (Cbor.head 5 m.length ++ ·) else none
  unmarshal b :=
    match Cbor.readHead b with
    | some (5, n, r) => (decodePairs n r).bind fun (m, r) => if r = [] then some m else none
    | _ => none
  marshal_ne_nil m b h := by
    obtain ⟨-, h⟩ := Option.ite_none_right_eq_some.mp h
    obtain ⟨mb, -, rfl⟩ := Option.map_eq_some_iff.mp h
    simp [Cbor.head_ne_nil]
  unmarshal_marshal m b h _ _ hvalid := by
    obtain ⟨hlen, h⟩ := Option.ite_none_right_eq_some.mp h
    obtain ⟨mb, hmb, rfl⟩ := Option.map_eq_some_iff.mp h
    have hpairs := decodePairs_encodePairs hmb hvalid []
    rw [List.append_nil] at hpairs
    refine ⟨m, ?_, fun _ => rfl⟩
    rw [Cbor.readHead_head (by decide) hlen]
    simp [hpairs]
  unmarshal_invalid m b h _ hinvalid := by
    obtain ⟨hlen, h⟩ := Option.ite_none_right_eq_some.mp h
    obtain ⟨mb, hmb, rfl⟩ := Option.map_eq_some_iff.mp h
    have hpairs := decodePairs_invalid hmb hinvalid []
    rw [List.append_nil] at hpairs
    rw [Cbor.readHead_head (by decide) hlen]
    simp [hpairs]

/-! ## Marshal and UnmarshalEnvelope -/

def protocolVersion : Nat := 1

def keyVersion : Nat := 0
def keyType : Nat := 1
def keyMsgID : Nat := 2
def keyTimestamp : Nat := 3
def keySender : Nat := 4
def keyRoom : Nat := 5
def keyBody : Nat := 6
def keyNick : Nat := 7

/-- The field an error names. -/
inductive EnvelopeField where
  | version | type | messageID | timestamp | sender | senderIdentity | room | nick
  deriving DecidableEq, Repr

inductive EnvelopeError where
  | invalidEnvelope
  | invalidField (field : EnvelopeField)
  | wrongVersion
  | missingField (field : EnvelopeField)
  | badFieldLength (field : EnvelopeField)
  /-- The error of the CBOR package. -/
  | cbor
  deriving DecidableEq, Repr

/-- The map that `Marshal` builds. -/
def Envelope.toMap (e : Envelope) : List (Nat × CborValue) :=
  [(keyVersion, .uint e.version), (keyType, .uint e.type), (keyMsgID, .bytes e.msgID),
    (keyTimestamp, .uint e.timestamp), (keySender, .bytes e.sender)] ++
    (if e.hasRoom then [(keyRoom, .text e.room)] else []) ++
    (if e.hasBody then [(keyBody, e.body)] else []) ++
    (if e.hasNick then [(keyNick, .text e.nick)] else [])

variable (cbor : CborCodec)

def Envelope.marshal (e : Envelope) : Except EnvelopeError Bytes :=
  if e.version ≠ protocolVersion then .error .wrongVersion
  else if e.msgID.length ≠ messageIDLength then .error (.badFieldLength .messageID)
  else if e.sender.length ≠ identityLength then .error (.badFieldLength .senderIdentity)
  else
    match cbor.marshal e.toMap with
    | none => .error .cbor
    | some b => .ok b

def required {α : Type} (field : EnvelopeField) : Option α → Except EnvelopeError α
  | none => .error (.missingField field)
  | some a => .ok a

/-- A byte string of a fixed length. -/
def fixedBytes (missing wrongLength : EnvelopeField) (length : Nat) (v : Option CborValue) :
    Except EnvelopeError Bytes := do
  let b ← required missing (v.bind cborBytes)
  if b.length ≠ length then .error (.badFieldLength wrongLength) else return b

/-- An optional text field, and whether it is present. -/
def optionalText (field : EnvelopeField) : Option CborValue → Except EnvelopeError (Bytes × Bool)
  | none => .ok ([], false)
  | some v =>
    match asString v with
    | none => .error (.invalidField field)
    | some s => .ok (s, true)

/-- The part of `UnmarshalEnvelope` after the CBOR map has been read. -/
def envelopeOfMap (raw : List (Nat × CborValue)) : Except EnvelopeError Envelope := do
  let version ← required .version ((raw.lookup keyVersion).bind asUint64)
  if version ≠ protocolVersion then .error .wrongVersion
  else
    let type ← required .type ((raw.lookup keyType).bind asUint64)
    let msgID ← fixedBytes .messageID .messageID messageIDLength (raw.lookup keyMsgID)
    let timestamp ← required .timestamp ((raw.lookup keyTimestamp).bind asUint64)
    let sender ← fixedBytes .sender .senderIdentity identityLength (raw.lookup keySender)
    let room ← optionalText .room (raw.lookup keyRoom)
    let nick ← optionalText .nick (raw.lookup keyNick)
    return {
      version, type, msgID, timestamp, sender
      room := room.1, hasRoom := room.2
      body := (raw.lookup keyBody).getD .nil, hasBody := (raw.lookup keyBody).isSome
      nick := nick.1, hasNick := nick.2 }

def unmarshalEnvelope (data : Bytes) : Except EnvelopeError Envelope :=
  if data = [] then .error .invalidEnvelope
  else
    match cbor.unmarshal data with
    | none => .error .invalidEnvelope
    | some raw => envelopeOfMap raw

/-! ## Reading the map back -/

/-- The same envelope on both sides; room, body and nickname count where present. -/
structure Envelope.Same (e e' : Envelope) : Prop where
  version : e'.version = e.version
  type : e'.type = e.type
  msgID : e'.msgID = e.msgID
  timestamp : e'.timestamp = e.timestamp
  sender : e'.sender = e.sender
  hasRoom : e'.hasRoom = e.hasRoom
  hasBody : e'.hasBody = e.hasBody
  hasNick : e'.hasNick = e.hasNick
  room : e.hasRoom = true → e'.room = e.room
  body : e.hasBody = true → e'.body = e.body
  nick : e.hasNick = true → e'.nick = e.nick

/-- The strings in the envelope that are sent. -/
structure Envelope.TextValid (e : Envelope) : Prop where
  room : e.hasRoom = true → utf8Valid e.room = true
  nick : e.hasNick = true → utf8Valid e.nick = true
  body : e.hasBody = true → ∀ s, e.body = .text s → utf8Valid s = true

/-- The body is absent, a Go string or a byte slice. -/
def Envelope.PlainBody (e : Envelope) : Prop :=
  e.hasBody = true → (∃ s, e.body = .text s) ∨ ∃ b, e.body = .bytes b

theorem Envelope.toMap_nodup (e : Envelope) : (e.toMap.map Prod.fst).Nodup := by
  unfold Envelope.toMap
  cases e.hasRoom <;> cases e.hasBody <;> cases e.hasNick <;>
    simp [keyVersion, keyType, keyMsgID, keyTimestamp, keySender, keyRoom, keyBody, keyNick]

theorem Envelope.toMap_flat {e : Envelope} (h : e.PlainBody) : ∀ x ∈ e.toMap, x.2.IsFlat := by
  have hbody : e.hasBody = true → e.body.IsFlat := by
    intro hb
    cases h hb with
    | inl h => obtain ⟨s, hs⟩ := h; rw [hs]; exact True.intro
    | inr h => obtain ⟨b, hb⟩ := h; rw [hb]; exact True.intro
  unfold Envelope.toMap
  cases hr : e.hasRoom <;> cases hb : e.hasBody <;> cases hn : e.hasNick <;>
    simp_all [CborValue.IsFlat]

theorem Envelope.toMap_textValid_iff (e : Envelope) :
    (∀ x ∈ e.toMap, x.2.TextValid) ↔ e.TextValid := by
  have hbody : e.body.TextValid ↔ ∀ s, e.body = .text s → utf8Valid s = true := by
    cases e.body <;> simp [CborValue.TextValid]
  have hfields : e.TextValid ↔ (e.hasRoom = true → utf8Valid e.room = true) ∧
      (e.hasBody = true → e.body.TextValid) ∧ (e.hasNick = true → utf8Valid e.nick = true) := by
    rw [hbody]
    exact ⟨fun h => ⟨h.room, h.body, h.nick⟩, fun h => ⟨h.1, h.2.2, h.2.1⟩⟩
  rw [hfields]
  unfold Envelope.toMap
  cases e.hasRoom <;> cases e.hasBody <;> cases e.hasNick <;> simp [CborValue.TextValid]

section Lookup

variable (e : Envelope)

theorem Envelope.lookup_version : e.toMap.lookup keyVersion = some (.uint e.version) := rfl

theorem Envelope.lookup_type : e.toMap.lookup keyType = some (.uint e.type) := rfl

theorem Envelope.lookup_msgID : e.toMap.lookup keyMsgID = some (.bytes e.msgID) := rfl

theorem Envelope.lookup_timestamp : e.toMap.lookup keyTimestamp = some (.uint e.timestamp) := rfl

theorem Envelope.lookup_sender : e.toMap.lookup keySender = some (.bytes e.sender) := rfl

theorem Envelope.lookup_room :
    e.toMap.lookup keyRoom = if e.hasRoom then some (.text e.room) else none := by
  unfold Envelope.toMap
  cases e.hasRoom <;> cases e.hasBody <;> cases e.hasNick <;> rfl

theorem Envelope.lookup_body : e.toMap.lookup keyBody = if e.hasBody then some e.body else none := by
  unfold Envelope.toMap
  cases e.hasRoom <;> cases e.hasBody <;> cases e.hasNick <;> rfl

theorem Envelope.lookup_nick :
    e.toMap.lookup keyNick = if e.hasNick then some (.text e.nick) else none := by
  unfold Envelope.toMap
  cases e.hasRoom <;> cases e.hasBody <;> cases e.hasNick <;> rfl

end Lookup

/-- What the three presence flags make of the optional fields. -/
def Envelope.received (e : Envelope) : Envelope :=
  { e with
    room := if e.hasRoom then e.room else []
    body := if e.hasBody then e.body else .nil
    nick := if e.hasNick then e.nick else [] }

theorem Envelope.received_same (e : Envelope) : e.Same e.received where
  version := rfl
  type := rfl
  msgID := rfl
  timestamp := rfl
  sender := rfl
  hasRoom := rfl
  hasBody := rfl
  hasNick := rfl
  room h := if_pos h
  body h := if_pos h
  nick h := if_pos h

/-- A map with the entries of an envelope that passed the checks of `Marshal`. -/
theorem envelopeOfMap_toMap {e : Envelope} {raw : List (Nat × CborValue)}
    (hraw : ∀ k, raw.lookup k = e.toMap.lookup k) (hversion : e.version = protocolVersion)
    (hid : e.msgID.length = messageIDLength) (hsender : e.sender.length = identityLength) :
    envelopeOfMap raw = .ok e.received := by
  have htext (field : EnvelopeField) (b : Bool) (s : Bytes) :
      optionalText field (if b then some (.text s) else none) = .ok (if b then s else [], b) := by
    cases b <;> rfl
  simp only [envelopeOfMap, hraw, Envelope.lookup_version, Envelope.lookup_type, Envelope.lookup_msgID,
    Envelope.lookup_timestamp, Envelope.lookup_sender, Envelope.lookup_room, Envelope.lookup_body,
    Envelope.lookup_nick, htext, Option.bind_some, asUint64, cborBytes, required, fixedBytes]
  simp only [hid, hsender, bind, Except.bind, pure, Except.pure, ne_eq, not_true_eq_false, if_false]
  rw [if_neg (not_not.mpr hversion)]
  unfold Envelope.received
  cases e.hasBody <;> rfl

theorem Envelope.marshal_ok {e : Envelope} {b : Bytes} (h : e.marshal cbor = .ok b) :
    e.version = protocolVersion ∧ e.msgID.length = messageIDLength ∧
      e.sender.length = identityLength ∧ cbor.marshal e.toMap = some b := by
  unfold Envelope.marshal at h
  split at h
  · cases h
  split at h
  · cases h
  split at h
  · cases h
  split at h
  · cases h
  rename_i hversion hid hsender _ b' hb
  cases h
  exact ⟨not_not.mp hversion, not_not.mp hid, not_not.mp hsender, hb⟩

/-- An envelope that `Marshal` encodes comes back exactly if every string in it
is valid UTF-8. -/
theorem envelope_comes_back_iff (e : Envelope) (b : Bytes) (hbody : e.PlainBody)
    (hmarshal : e.marshal cbor = .ok b) :
    (∃ e', unmarshalEnvelope cbor b = .ok e' ∧ e.Same e') ↔ e.TextValid := by
  obtain ⟨hversion, hid, hsender, hb⟩ := Envelope.marshal_ok cbor hmarshal
  have hne := cbor.marshal_ne_nil _ _ hb
  rw [← Envelope.toMap_textValid_iff]
  constructor
  · intro h
    obtain ⟨e', he', -⟩ := h
    by_contra hinvalid
    have hnone := cbor.unmarshal_invalid _ _ hb (Envelope.toMap_flat hbody) (by
      simpa only [not_forall, exists_prop] using hinvalid)
    rw [unmarshalEnvelope, if_neg hne, hnone] at he'
    cases he'
  · intro hvalid
    obtain ⟨raw, hraw, hlookup⟩ := cbor.unmarshal_marshal _ _ hb e.toMap_nodup
      (Envelope.toMap_flat hbody) hvalid
    refine ⟨e.received, ?_, e.received_same⟩
    rw [unmarshalEnvelope, if_neg hne, hraw]
    exact envelopeOfMap_toMap hlookup hversion hid hsender

/-- A message to a room, as `SendMsg` builds it. -/
def chatEnvelope (text : Bytes) : Envelope where
  type := typeMsg
  msgID := List.replicate 8 1
  timestamp := 1700000000000
  sender := List.replicate 16 2
  room := goString "lobby"
  hasRoom := true
  body := .text text
  hasBody := true

theorem ascii_message_comes_back :
    ∃ b e', (chatEnvelope [0x68, 0x69]).marshal flatCbor = .ok b ∧
      unmarshalEnvelope flatCbor b = .ok e' ∧ (chatEnvelope [0x68, 0x69]).Same e' := by
  have hmarshal : ((chatEnvelope [0x68, 0x69]).marshal flatCbor).toOption.isSome = true := by
    decide +kernel
  obtain ⟨b, hb⟩ := Option.isSome_iff_exists.mp hmarshal
  rw [Except.toOption_eq_some_iff] at hb
  obtain ⟨e', he', hsame⟩ := (envelope_comes_back_iff flatCbor (chatEnvelope [0x68, 0x69]) b
    (fun _ => .inl ⟨_, rfl⟩) hb).mpr
    { room := fun _ => by decide +kernel
      nick := nofun
      body := by rintro - s ⟨⟩; decide +kernel }
  exact ⟨b, e', hb, he', hsame⟩

/-- The text "\xff" is encoded without an error, and what was sent is dropped. -/
theorem invalid_text_dropped :
    (chatEnvelope [0xff]).PlainBody ∧
      ∃ b, (chatEnvelope [0xff]).marshal flatCbor = .ok b ∧
        unmarshalEnvelope flatCbor b = .error .invalidEnvelope := by
  refine ⟨fun _ => .inl ⟨_, rfl⟩, ?_⟩
  have hrun : ((chatEnvelope [0xff]).marshal flatCbor).toOption.map
      (fun b => (decide (b = []), (flatCbor.unmarshal b).isNone)) = some (false, true) := by
    decide +kernel
  obtain ⟨b, hb, heq⟩ := Option.map_eq_some_iff.mp hrun
  simp only [Prod.mk.injEq, decide_eq_false_iff_not, Option.isNone_iff_eq_none] at heq
  refine ⟨b, Except.toOption_eq_some_iff.mp hb, ?_⟩
  rw [unmarshalEnvelope, if_neg heq.1, heq.2]

end Rrc
