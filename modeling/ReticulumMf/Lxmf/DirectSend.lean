-- SUMMARY: What a direct send hands to the link, and whether ChooseDeliveryMethod foretold it.
import ReticulumMf.Lxmf.Delivery
import ReticulumMf.Lxmf.LinkPayload
import ReticulumMf.Lxmf.StampedSend

/-!
# Direct sends over a link

`sendPropagationPayload` sends a payload as a link packet or as a resource, by its length.
`sendDirectPacked` hands it the whole packed message, and so compares the packed size with
`LinkPacketMaxContent`, a limit meant for the content. `ChooseDeliveryMethod` compares the
content size. Between the two thresholds a message is announced as a packet and handed over
as a resource. No resource is ever reported as sent, so the representation is as chosen for
the messages below both thresholds only (`direct_send_as_chosen_iff`).
-/

namespace Lxmf

variable {Identity : Type}

/-! ## Direct sends -/

/-- The assignments to the message after a direct send. -/
def LXMessage.markDirect (m : LXMessage) : LXMessage :=
  { m with
    method := methodDirect
    representation :=
      if m.packed.length > linkPacketMaxContent then representationResource else representationPacket
    state := stateSent }

/-- What the link was given, the message afterwards, and the result; none if the call does
not return. -/
structure DirectOutcome where
  given : Option Transmission
  msg : LXMessage
  result : Option (Except TransmitError Unit)

/-- `sendDirectPacked` from the link on. The call of `ensureDeliveryLink` gives a link or
fails, or it waits for its own mutex for ever. -/
def LXMessage.sendDirectPacked (ensureDeliveryLink : Bytes → Option (Except String LinkEnv)) (m : LXMessage) :
    DirectOutcome :=
  match ensureDeliveryLink m.destinationHash with
  | none => ⟨none, m, none⟩
  | some (.error e) => ⟨none, m, some (.error (.link e))⟩
  | some (.ok lnk) =>
    match lnk.sendPropagationPayload m.packed with
    | (given, .error e) => ⟨given, m, some (.error e)⟩
    | (given, .ok ()) => ⟨given, m.markDirect, some (.ok ())⟩

/-- The two ways to send directly. -/
inductive DirectSend where
  | sendDirect
  | sendStampedDirect (stampCost : Int)
  deriving DecidableEq, Repr

/-- The send up to the packed message. -/
def DirectSend.pack : DirectSend → Crypto Identity → SendEnv → LXMessage → Except SendError LXMessage
  | .sendDirect, cr, env => Lxmf.sendDirect cr env
  | .sendStampedDirect stampCost, cr, env => Lxmf.sendStampedDirect cr env stampCost

/-- The link was given `tx`, the send has returned, and the representation is recorded. -/
structure DirectOutcome.SentAs (out : DirectOutcome) (tx : Transmission) (representation : UInt8) : Prop where
  given : out.given = some tx
  result : out.result = some (.ok ())
  recorded : out.msg.representation = representation

/-- The packed message `m` was transmitted and recorded in the representation that
`ChooseDeliveryMethod` gives for it, and in no other. -/
structure SendsAsChosen (destinationType : UInt8) (m : LXMessage) (out : DirectOutcome) : Prop where
  packet : out.SentAs (.packet m.packed) representationPacket ↔
    m.chooseDeliveryMethod methodDirect destinationType = .ok (methodDirect, representationPacket)
  resource : out.SentAs (.resource m.packed) representationResource ↔
    m.chooseDeliveryMethod methodDirect destinationType = .ok (methodDirect, representationResource)

/-! ## What is sent -/

/-- The link can be had, and takes the message as a packet. -/
def TakesPacket (ensureDeliveryLink : Bytes → Option (Except String LinkEnv)) (m : LXMessage) : Prop :=
  ∃ lnk, ensureDeliveryLink m.destinationHash = some (.ok lnk) ∧ lnk.sendPacket m.packed = .ok ()

section

variable {ensureDeliveryLink : Bytes → Option (Except String LinkEnv)} {m : LXMessage}

/-- The send succeeds for short messages only. -/
theorem sendDirectPacked_ok_iff (hne : m.packed.length ≠ 0) :
    (m.sendDirectPacked ensureDeliveryLink).result = some (.ok ()) ↔
      m.packed.length ≤ linkPacketMaxContent ∧ TakesPacket ensureDeliveryLink m := by
  unfold LXMessage.sendDirectPacked TakesPacket
  split
  · rename_i hlink
    simp [hlink]
  · rename_i e hlink
    simp [hlink]
  · rename_i lnk hlink
    have hok : (lnk.sendPropagationPayload m.packed).2 = .ok () ↔ m.packed.length ≠ 0 ∧
        m.packed.length ≤ linkPacketMaxContent ∧ lnk.sendPacket m.packed = .ok () :=
      LinkEnv.sendPropagationPayload_ok_iff
    generalize lnk.sendPropagationPayload m.packed = sent at hok
    obtain ⟨given, result⟩ := sent
    cases result with
    | error e =>
      simp only [reduceCtorEq, false_iff, not_and] at hok
      simp only [hlink, Option.some.injEq, Except.ok.injEq, exists_eq_left', reduceCtorEq, false_iff, not_and]
      exact hok hne
    | ok u =>
      obtain ⟨-, hle, hpacket⟩ := hok.mp rfl
      exact iff_of_true rfl ⟨hle, lnk, hlink, hpacket⟩

/-- A message that was sent is recorded as a packet. -/
theorem sendDirectPacked_recorded (h : (m.sendDirectPacked ensureDeliveryLink).result = some (.ok ()))
    (hle : m.packed.length ≤ linkPacketMaxContent) (hne : m.packed.length ≠ 0) :
    (m.sendDirectPacked ensureDeliveryLink).SentAs (.packet m.packed) representationPacket := by
  unfold LXMessage.sendDirectPacked at h ⊢
  split at h
  · cases h
  · cases h
  · rename_i lnk hlink
    have hgiven := lnk.sendPropagationPayload_given hne
    rw [if_pos hle] at hgiven
    generalize lnk.sendPropagationPayload m.packed = sent at h hgiven
    obtain ⟨given, result⟩ := sent
    cases result with
    | error e => cases h
    | ok u => exact ⟨hgiven, rfl, if_neg (by omega)⟩

end

theorem sendDirectPacked_ok {m m' : LXMessage} (h : sendDirectPacked m = .ok m') : m' = m := by
  obtain ⟨-, -, h⟩ := Except.bind_eq_ok_iff.mp h
  split at h
  · cases h
  · exact (Except.ok.inj h).symm

theorem packOr_isPacked {cr : Crypto Identity} {now : BitVec 64} {o₁ o₂ : Msgpack.MapOrder} {env : SendEnv}
    {wrap : PackError → SendError} {m m' : LXMessage} (hid : checkIdentity env = .ok ())
    (h : packOr cr now o₁ o₂ env.signer wrap m = .ok m') : m'.IsPacked := by
  obtain ⟨sign, hsign⟩ := checkIdentity_ok hid
  obtain ⟨k, hk⟩ := packOr_ok_iff.mp h
  rw [hsign] at hk
  obtain ⟨run⟩ := pack_ok hk
  exact run.isPacked

theorem sendDirect_isPacked {cr : Crypto Identity} {env : SendEnv} {m₀ m : LXMessage}
    (h : sendDirect cr env m₀ = .ok m) : m.IsPacked := by
  obtain ⟨⟨⟩, hid, h⟩ := Except.bind_eq_ok_iff.mp h
  obtain ⟨m₁, hpack, h⟩ := Except.bind_eq_ok_iff.mp h
  rw [sendDirectPacked_ok h]
  exact packOr_isPacked hid hpack

theorem DirectSend.pack_isPacked {p : DirectSend} {cr : Crypto Identity} {env : SendEnv} {m₀ m : LXMessage}
    (h : p.pack cr env m₀ = .ok m) : m.IsPacked := by
  cases p with
  | sendDirect => exact sendDirect_isPacked h
  | sendStampedDirect stampCost =>
    simp only [DirectSend.pack, Lxmf.sendStampedDirect] at h
    split at h
    · exact sendDirect_isPacked h
    · obtain ⟨⟨⟩, hid, h⟩ := Except.bind_eq_ok_iff.mp h
      obtain ⟨packed, -, h⟩ := Except.bind_eq_ok_iff.mp h
      obtain ⟨stamped, -, h⟩ := Except.bind_eq_ok_iff.mp h
      obtain ⟨m₂, hpack, h⟩ := Except.bind_eq_ok_iff.mp h
      rw [sendDirectPacked_ok h]
      exact packOr_isPacked hid hpack

/-! ## What was chosen -/

/-- The representation is as chosen for the messages that are not longer than the limit for
the content, as far as the link takes them. -/
theorem direct_send_as_chosen_iff {p : DirectSend} {cr : Crypto Identity} {env : SendEnv} {m₀ m : LXMessage}
    (hpack : p.pack cr env m₀ = .ok m) (ensureDeliveryLink : Bytes → Option (Except String LinkEnv))
    (destinationType : UInt8) :
    SendsAsChosen destinationType m (m.sendDirectPacked ensureDeliveryLink) ↔
      m.packed.length ≤ linkPacketMaxContent ∧ TakesPacket ensureDeliveryLink m := by
  have hpacked := DirectSend.pack_isPacked hpack
  have hchoose := hpacked.chooseDirect (.inr rfl) destinationType
  have hok : (m.sendDirectPacked ensureDeliveryLink).result = some (.ok ()) ↔
      m.packed.length ≤ linkPacketMaxContent ∧ TakesPacket ensureDeliveryLink m :=
    sendDirectPacked_ok_iff hpacked.length_ne_zero
  have hlimits : linkPacketMaxContent ≤ linkPacketMDU := by decide
  have hrepr : representationPacket ≠ representationResource := by decide
  constructor
  · -- one of the two is chosen, so the message was sent
    intro h
    by_cases hmdu : m.packed.length ≤ linkPacketMDU
    · rw [if_pos hmdu] at hchoose
      exact hok.mp (h.packet.mpr hchoose).result
    · rw [if_neg hmdu] at hchoose
      exact hok.mp (h.resource.mpr hchoose).result
  · intro h
    rw [if_pos (h.1.trans hlimits)] at hchoose
    have hsent := sendDirectPacked_recorded (hok.mpr h) h.1 hpacked.length_ne_zero
    refine ⟨iff_of_true hsent hchoose, iff_of_false (fun hother => ?_) ?_⟩
    · exact hrepr (hsent.recorded.symm.trans hother.recorded)
    · simp [hchoose, hrepr]

/-- A link on which everything succeeds: packets are taken, and all parts of a resource are
sent and acknowledged. -/
def goodLink : LinkEnv where
  sendPacket _ := .ok ()
  transfer _ := .ok ()
  polls := [[], []]

def directEnv : SendEnv where
  signer := some tailSigner
  recipient _ := .ok ()
  now₁ := 1
  now₂ := 1
  a₁ := .listed
  a₂ := .listed
  b₁ := .listed
  b₂ := .listed
  candidates := []

/-- A content of `n` zeros can be packed. -/
theorem zeros_packed {n s : Nat}
    (h : (sendDirect plainCrypto directEnv (contentMessage (List.replicate n 0))).toOption.map
      (·.packed.length) = some s) :
    ∃ m, DirectSend.sendDirect.pack plainCrypto directEnv (contentMessage (List.replicate n 0)) = .ok m ∧
      m.packed.length = s := by
  obtain ⟨m, hm, hsize⟩ := Option.map_eq_some_iff.mp h
  exact ⟨m, Except.toOption_eq_some_iff.mp hm, hsize⟩

/-- A short message is sent as the packet that was chosen. -/
theorem short_direct_as_chosen :
    ∃ m, DirectSend.sendDirect.pack plainCrypto directEnv (contentMessage (List.replicate 1 0)) = .ok m ∧
      SendsAsChosen destinationTypeSingle m (m.sendDirectPacked fun _ => some (.ok goodLink)) := by
  obtain ⟨m, hpack, hsize⟩ := zeros_packed (n := 1) (s := 111) (by decide +kernel)
  refine ⟨m, hpack, (direct_send_as_chosen_iff hpack _ destinationTypeSingle).mpr ⟨?_, goodLink, rfl, rfl⟩⟩
  rw [hsize]
  decide

/-- A content of 250 bytes is to be a packet. It is handed over as a resource, the wait for
which times out, and nothing is recorded. -/
theorem packet_sent_as_resource :
    ∃ m, DirectSend.sendDirect.pack plainCrypto directEnv (contentMessage (List.replicate 250 0)) = .ok m ∧
      m.chooseDeliveryMethod methodDirect destinationTypeSingle = .ok (methodDirect, representationPacket) ∧
      m.sendDirectPacked (fun _ => some (.ok goodLink)) =
        ⟨some (.resource m.packed), m, some (.error .transferTimeout)⟩ ∧
      ¬SendsAsChosen destinationTypeSingle m (m.sendDirectPacked fun _ => some (.ok goodLink)) := by
  obtain ⟨m, hpack, hsize⟩ := zeros_packed (n := 250) (s := 360) (by decide +kernel)
  have hchoose := (DirectSend.pack_isPacked hpack).chooseDirect (.inr rfl) destinationTypeSingle
  rw [hsize, if_pos (by decide)] at hchoose
  have hsend : goodLink.sendPropagationPayload m.packed =
      (some (.resource m.packed), .error .transferTimeout) := by
    rw [LinkEnv.sendPropagationPayload, hsize, if_neg (by decide), if_neg (by decide), Resource.new_eq]
    rfl
  have hout : m.sendDirectPacked (fun _ => some (.ok goodLink)) =
      ⟨some (.resource m.packed), m, some (.error .transferTimeout)⟩ := by
    simp only [LXMessage.sendDirectPacked, hsend]
  refine ⟨m, hpack, hchoose, hout, fun h => ?_⟩
  have hresult := (h.packet.mpr hchoose).result
  rw [hout] at hresult
  cases hresult

end Lxmf
