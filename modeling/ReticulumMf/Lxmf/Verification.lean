-- SUMMARY: No forged message is delivered as verified, and the four outcomes of receiving.
import ReticulumMf.Lxmf.Container
import ReticulumMf.Lxmf.Unpack

/-!
# Verification of received messages

With ideal signatures, a message that is handed out as validated was signed by
the owner of its source: the signed bytes name this destination and source, and
their payload decodes to the delivered content. Every way to receive a message
ends in exactly one of four outcomes.
-/

namespace Lxmf

open Msgpack

variable {Identity : Type}

/-! ## The messenger's inbound side -/

/-- The part of a `Messenger` that its inbound side reads. -/
structure Messenger (Identity : Type) where
  destinationHash : Bytes
  resolver : Option (Resolver Identity)
  hasHandler : Bool

/-- `Messenger.onPacket`: the message the handler is called with, if it is called. -/
def Messenger.onPacket (cr : Crypto Identity) (o : MapOrder) (m : Messenger Identity)
    (plaintext : Bytes) : Option LXMessage :=
  if !m.hasHandler then none
  else if plaintext.length < destinationLength + signatureLength then none
  else (unpackFromBytes cr o m.destinationHash plaintext m.resolver).msg

/-- The early return on a short plaintext drops nothing that would be unpacked. -/
theorem Messenger.onPacket_eq (cr : Crypto Identity) (o : MapOrder) (m : Messenger Identity)
    (hhandler : m.hasHandler = true) (plaintext : Bytes) :
    m.onPacket cr o plaintext =
      (unpackFromBytes cr o m.destinationHash plaintext m.resolver).msg := by
  unfold Messenger.onPacket
  simp only [hhandler, Bool.not_true, Bool.false_eq_true, if_false]
  split
  · rename_i hshort
    cases hmsg : (unpackFromBytes cr o m.destinationHash plaintext m.resolver).msg with
    | none => rfl
    | some msg =>
      obtain ⟨p, hp, -⟩ := unpackFromBytes_msg_iff.mp hmsg
      have := (parseInner_ok_iff.mp hp).2.1
      omega
  · rfl

/-! ## Authenticity -/

/-- The owner of `id` signed a pre-image with the destination and source of `m`,
whose payload has four elements and decodes to the content of `m`. -/
def SignedBy (cr : Crypto Identity) (o : MapOrder) (signed : Identity → Bytes → Prop)
    (id : Identity) (m : LXMessage) : Prop :=
  ∃ (hashed : Bytes) (vs : List Any) (p : Payload),
    signed id (hashedPart m.destinationHash m.sourceHash hashed ++
      cr.sha256 (hashedPart m.destinationHash m.sourceHash hashed)) ∧
    decodePayloadAndSplit hashed = .ok (vs, hashed) ∧ vs.length = 4 ∧
    applyPayload o vs = .ok p ∧ p.timestamp = m.timestamp ∧ p.title = m.title ∧
    p.content = m.content ∧ p.fields = m.fields

/-- If `m` counts as validated, the resolver knows its source and that owner signed it. -/
def Authentic (cr : Crypto Identity) (o : MapOrder) (signed : Identity → Bytes → Prop)
    (resolver : Option (Resolver Identity)) (m : LXMessage) : Prop :=
  m.signatureValidated = true →
    ∃ resolve id, resolver = some resolve ∧ resolve m.sourceHash = .ok (some id) ∧
      SignedBy cr o signed id m

theorem unpackFromBytes_authentic {cr : Crypto Identity} {signed : Identity → Bytes → Prop}
    (hideal : ∀ id data sig, cr.verify id data sig = true → signed id data) {o : MapOrder}
    {dst inner : Bytes} {resolver : Option (Resolver Identity)} {m : LXMessage}
    (h : (unpackFromBytes cr o dst inner resolver).msg = some m) :
    Authentic cr o signed resolver m := by
  obtain ⟨q, hq, hv⟩ := unpackFromBytes_msg_iff.mp h
  obtain ⟨-, -, vs, hashed, p, hdec, happ, rfl⟩ := parseInner_ok_iff.mp hq
  intro hvalid
  rcases verifySource_cases cr resolver (inboundMessage cr dst inner hashed p) with
    ⟨resolve, id, rfl, hres, hver, hu⟩ | ⟨-, hu⟩ | ⟨_, _, -, -, -, hu⟩ | ⟨_, _, -, -, hu⟩ <;>
    rw [hu] at hv <;> cases hv
  · obtain ⟨happ4, hlen4⟩ := applyPayload_take_four happ
    exact ⟨resolve, id, rfl, hres, hashed, vs.take 4, { p with stamp := none },
      hideal id _ _ hver, decodePayloadAndSplit_hashed hdec, hlen4, happ4, rfl, rfl, rfl, rfl⟩
  · cases hvalid
  · cases hvalid

/-! ## Outcomes -/

inductive Outcome where
  | validated | sourceUnknown | signatureInvalid | rejected
  deriving DecidableEq, Repr

/-- The pair of a returned message and error falls under an outcome. -/
def HasOutcome {ε : Type} (signatureError : ε) (msg : Option LXMessage) (err : Option ε) :
    Outcome → Prop
  | .validated => ∃ m, msg = some m ∧ err = none ∧
      m.signatureValidated = true ∧ m.unverifiedReason = 0
  | .sourceUnknown => ∃ m, msg = some m ∧ err = none ∧
      m.signatureValidated = false ∧ m.unverifiedReason = unverifiedSourceUnknown
  | .signatureInvalid => ∃ m, msg = some m ∧ err = some signatureError ∧
      m.signatureValidated = false ∧ m.unverifiedReason = unverifiedSignatureInvalid
  | .rejected => msg = none ∧ err ≠ none

theorem HasOutcome.unique {ε : Type} {signatureError : ε} {msg : Option LXMessage}
    {err : Option ε} {k k' : Outcome} (h : HasOutcome signatureError msg err k)
    (h' : HasOutcome signatureError msg err k') : k = k' := by
  cases k <;> cases k' <;> first | rfl | skip
  all_goals
    simp only [HasOutcome] at h h'
    grind

theorem unpackFromBytes_outcome (cr : Crypto Identity) (o : MapOrder) (dst inner : Bytes)
    (resolver : Option (Resolver Identity)) :
    ∃ k, HasOutcome .signatureInvalid (unpackFromBytes cr o dst inner resolver).msg
      (unpackFromBytes cr o dst inner resolver).err k := by
  unfold unpackFromBytes
  cases hp : parseInner cr o dst inner with
  | error e => exact ⟨.rejected, rfl, by simp⟩
  | ok p =>
    obtain ⟨-, -, vs, hashed, pl, -, -, rfl⟩ := parseInner_ok_iff.mp hp
    rcases verifySource_cases cr resolver (inboundMessage cr dst inner hashed pl) with
      ⟨_, _, -, -, -, hu⟩ | ⟨-, hu⟩ | ⟨_, _, -, -, -, hu⟩ | ⟨_, _, -, -, hu⟩ <;> simp only [hu]
    · exact ⟨.validated, _, rfl, rfl, rfl, rfl⟩
    · exact ⟨.sourceUnknown, _, rfl, rfl, rfl, rfl⟩
    · exact ⟨.signatureInvalid, _, rfl, rfl, rfl, rfl⟩
    · exact ⟨.rejected, rfl, by simp⟩

theorem unpack_outcome (cr : Crypto Identity) (o : MapOrder) (data : Bytes)
    (resolver : Option (Resolver Identity)) :
    ∃ k, HasOutcome .signatureInvalid (unpack cr o data resolver).msg
      (unpack cr o data resolver).err k := by
  unfold unpack
  split
  · exact ⟨.rejected, rfl, by simp⟩
  · exact unpackFromBytes_outcome cr o _ _ resolver

theorem unpack_authentic {cr : Crypto Identity} {signed : Identity → Bytes → Prop}
    (hideal : ∀ id data sig, cr.verify id data sig = true → signed id data) {o : MapOrder}
    {data : Bytes} {resolver : Option (Resolver Identity)} {m : LXMessage}
    (h : (unpack cr o data resolver).msg = some m) : Authentic cr o signed resolver m := by
  unfold unpack at h
  split at h
  · cases h
  · exact unpackFromBytes_authentic hideal h

/-- A container hands out the message of `unpack` with its own state, method and
representation. -/
theorem unpackContainer_cases (cr : Crypto Identity) (o : MapOrder) (data : Bytes)
    (resolver : Option (Resolver Identity)) :
    ((unpackContainer cr o data resolver).2.1 = none ∧
      (unpackContainer cr o data resolver).2.2 ≠ none) ∨
    ∃ (lxmf : Bytes) (m : LXMessage) (state method representation : UInt8),
      (unpack cr o lxmf resolver).msg = some m ∧
      (unpackContainer cr o data resolver).2.1 = some { m with state, method, representation } ∧
      (unpackContainer cr o data resolver).2.2 =
        (unpack cr o lxmf resolver).err.map .unpack := by
  unfold unpackContainer
  cases hc : unmarshalContainer data with
  | error e => exact .inl ⟨rfl, by simp⟩
  | ok c =>
    simp only
    split
    · exact .inl ⟨rfl, by simp⟩
    · cases hm : (unpack cr o c.lxmfBytes resolver).msg with
      | none =>
        refine .inl ⟨rfl, ?_⟩
        obtain ⟨k, hk⟩ := unpack_outcome cr o c.lxmfBytes resolver
        rw [hm] at hk
        cases k <;> simp_all [HasOutcome]
      | some m => exact .inr ⟨c.lxmfBytes, m, _, _, _, hm, rfl, rfl⟩

theorem unpackContainer_outcome (cr : Crypto Identity) (o : MapOrder) (data : Bytes)
    (resolver : Option (Resolver Identity)) :
    ∃ k, HasOutcome (.unpack .signatureInvalid) (unpackContainer cr o data resolver).2.1
      (unpackContainer cr o data resolver).2.2 k := by
  rcases unpackContainer_cases cr o data resolver with h | ⟨lxmf, m, _, _, _, hm, hmsg, herr⟩
  · exact ⟨.rejected, h⟩
  · obtain ⟨k, hk⟩ := unpack_outcome cr o lxmf resolver
    rw [hm] at hk
    refine ⟨k, ?_⟩
    rw [hmsg, herr]
    cases k <;> simp_all [HasOutcome]

theorem unpackContainer_authentic {cr : Crypto Identity} {signed : Identity → Bytes → Prop}
    (hideal : ∀ id data sig, cr.verify id data sig = true → signed id data) {o : MapOrder}
    {data : Bytes} {resolver : Option (Resolver Identity)} {m : LXMessage}
    (h : (unpackContainer cr o data resolver).2.1 = some m) :
    Authentic cr o signed resolver m := by
  rcases unpackContainer_cases cr o data resolver with ⟨hnone, -⟩ | ⟨_, m', _, _, _, hm, hmsg, -⟩
  · rw [hnone] at h
    cases h
  · rw [hmsg] at h
    cases h
    have hauth : Authentic cr o signed resolver m' := unpack_authentic hideal hm
    exact hauth

/-- No forged message is delivered as verified: whichever way a message is
received, being validated implies that it is authentic, and exactly one of the
four outcomes holds. -/
theorem received_messages_authentic (cr : Crypto Identity) (signed : Identity → Bytes → Prop)
    (hideal : ∀ id data sig, cr.verify id data sig = true → signed id data) (o : MapOrder)
    (resolver : Option (Resolver Identity)) :
    (∀ dst inner : Bytes,
      (∀ m, (unpackFromBytes cr o dst inner resolver).msg = some m →
        Authentic cr o signed resolver m) ∧
      ∃! k, HasOutcome .signatureInvalid (unpackFromBytes cr o dst inner resolver).msg
        (unpackFromBytes cr o dst inner resolver).err k) ∧
    (∀ data : Bytes,
      (∀ m, (unpack cr o data resolver).msg = some m → Authentic cr o signed resolver m) ∧
      ∃! k, HasOutcome .signatureInvalid (unpack cr o data resolver).msg
        (unpack cr o data resolver).err k) ∧
    (∀ data : Bytes,
      (∀ m, (unpackContainer cr o data resolver).2.1 = some m →
        Authentic cr o signed resolver m) ∧
      ∃! k, HasOutcome (.unpack .signatureInvalid) (unpackContainer cr o data resolver).2.1
        (unpackContainer cr o data resolver).2.2 k) ∧
    (∀ (messenger : Messenger Identity) (plaintext : Bytes),
      messenger.resolver = resolver → messenger.hasHandler = true →
      (∀ m, messenger.onPacket cr o plaintext = some m → Authentic cr o signed resolver m) ∧
      ∃! k, HasOutcome .signatureInvalid (messenger.onPacket cr o plaintext)
        (unpackFromBytes cr o messenger.destinationHash plaintext resolver).err k) := by
  have one {ε : Type} {e : ε} {msg : Option LXMessage} {err : Option ε}
      (h : ∃ k, HasOutcome e msg err k) : ∃! k, HasOutcome e msg err k := by
    obtain ⟨k, hk⟩ := h
    exact ⟨k, hk, fun k' hk' => hk'.unique hk⟩
  refine ⟨fun dst inner => ⟨?_, one (unpackFromBytes_outcome cr o dst inner resolver)⟩,
    fun data => ⟨?_, one (unpack_outcome cr o data resolver)⟩,
    fun data => ⟨?_, one (unpackContainer_outcome cr o data resolver)⟩, ?_⟩
  · exact fun m h => unpackFromBytes_authentic hideal h
  · exact fun m h => unpack_authentic hideal h
  · exact fun m h => unpackContainer_authentic hideal h
  · rintro messenger plaintext rfl hhandler
    rw [messenger.onPacket_eq cr o hhandler plaintext]
    exact ⟨fun m h => unpackFromBytes_authentic hideal h, one (unpackFromBytes_outcome ..)⟩

/-- A verifier that accepts nothing but the one pre-image its only identity signed. -/
def oneSignatureCrypto (preimage : Bytes) : Crypto Unit where
  sha256 b := (b ++ List.replicate 32 0).take 32
  sha256_length b := by simp
  verify _ data _ := data = preimage

/-- A message that was signed is received as validated, and is authentic. -/
theorem signed_message_authentic :
    let hashed : Bytes := [0x94, 0x01, 0xc4, 0x01, 0x41, 0xc0, 0x80]
    let part := List.replicate 16 1 ++ List.replicate 16 2 ++ hashed
    let cr := oneSignatureCrypto (part ++ (part ++ List.replicate 32 0).take 32)
    let signed : Unit → Bytes → Prop := fun _ data =>
      data = part ++ (part ++ List.replicate 32 0).take 32
    let messenger : Messenger Unit :=
      ⟨List.replicate 16 1, some fun _ => .ok (some ()), true⟩
    ∃ m, messenger.onPacket cr .listed (List.replicate 16 2 ++ List.replicate 64 3 ++ hashed) =
        some m ∧ m.signatureValidated = true ∧ SignedBy cr .listed signed () m := by
  intro hashed part cr signed messenger
  have hvalid : (messenger.onPacket cr .listed
      (List.replicate 16 2 ++ List.replicate 64 3 ++ hashed)).map (·.signatureValidated) =
      some true := by decide +kernel
  obtain ⟨m, hm, hvalidated⟩ := Option.map_eq_some_iff.mp hvalid
  obtain ⟨resolve, id, -, -, hsigned⟩ := ((received_messages_authentic cr signed
    (fun _ _ _ h => of_decide_eq_true h) .listed messenger.resolver).2.2.2 messenger _ rfl rfl).1
    m hm hvalidated
  exact ⟨m, hm, hvalidated, hsigned⟩

end Lxmf
