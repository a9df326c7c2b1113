-- SUMMARY: The delivery method chosen for a packed message, and whether the message then fits in a packet.
import ReticulumMf.Lxmf.Propagation

/-!
# Choosing a delivery method

`ChooseDeliveryMethod` compares the size of the content with a limit derived from
the size of a packet. For a packed message this is a comparison of the
packed size (`LXMessage.IsPacked.contentSize_eq`). The limits are right; the fallback from opportunistic to direct
delivery does not look at the limit of a link packet (`chosen_method_fits_iff`).
-/

namespace Lxmf

open Msgpack

variable {Identity : Type}

/-! ## Limits -/

def methodOpportunistic : UInt8 := 0x01
def methodDirect : UInt8 := 0x02
def methodPaper : UInt8 := 0x05

def destinationTypeSingle : UInt8 := 0x00
def destinationTypePlain : UInt8 := 0x02

def encryptedPacketMDU : Nat := 383 + timestampSize
def plainPacketMDU : Nat := 464

def encryptedPacketMaxContent : Nat := encryptedPacketMDU - overhead + destinationLength
def plainPacketMaxContent : Nat := plainPacketMDU - overhead + destinationLength

def qrMaxStorage : Nat := 2953
def uriSchemaPrefix : String := "lxm://"
def paperMDU : Nat := ((qrMaxStorage - uriSchemaPrefix.length) * 6) / 8

/-! ## The choice -/

inductive DeliveryError where
  | notPacked
  | destinationType (t : UInt8)
  | paperSize (size mdu : Nat)
  | method (method : UInt8)
  deriving DecidableEq, Repr

def LXMessage.contentSize (m : LXMessage) : Except DeliveryError Nat :=
  if m.packed.length = 0 then .error .notPacked
  else
    let payloadLen : Int := m.packed.length - 2 * destinationLength - signatureLength
    if payloadLen ≤ timestampSize + structOverhead then .ok 0
    else .ok (payloadLen - timestampSize - structOverhead).toNat

/-- None if there is no limit for a single packet. -/
def maxContentForMethod (method destinationType : UInt8) : Option Nat :=
  if method = methodOpportunistic then
    if destinationType = destinationTypeSingle then some encryptedPacketMaxContent
    else if destinationType = destinationTypePlain then some plainPacketMaxContent
    else some encryptedPacketMaxContent
  else if method = methodDirect ∨ method = methodPropagated then some linkPacketMaxContent
  else if method = methodPaper then some paperMDU
  else none

/-- `ChooseDeliveryMethod`: the method and the representation. -/
def LXMessage.chooseDeliveryMethod (desiredMethod destinationType : UInt8) (m : LXMessage) :
    Except DeliveryError (UInt8 × UInt8) :=
  if m.packed.length = 0 then .error .notPacked
  else
    let desiredMethod := if desiredMethod = methodUnknown then methodDirect else desiredMethod
    match m.contentSize with
    | .error e => .error e
    | .ok contentSize =>
      if desiredMethod = methodOpportunistic then
        match maxContentForMethod methodOpportunistic destinationType with
        | none => .error (.destinationType destinationType)
        | some limit =>
          if contentSize > limit then .ok (methodDirect, representationPacket)
          else .ok (methodOpportunistic, representationPacket)
      else if desiredMethod = methodDirect ∨ desiredMethod = methodPropagated then
        if contentSize ≤ linkPacketMaxContent then .ok (desiredMethod, representationPacket)
        else .ok (desiredMethod, representationResource)
      else if desiredMethod = methodPaper then
        if m.packed.length > paperMDU then .error (.paperSize m.packed.length paperMDU)
        else .ok (methodPaper, representationUnknown)
      else .error (.method desiredMethod)

/-! ## Packets -/

def mtu : Nat := 500

/-- Flags, hops, destination hash and context of a packet. -/
abbrev PacketHeader := { b : Bytes // b.length = 1 + 1 + destinationLength + 1 }

/-- The encryption for a single destination: an ephemeral key, an initialisation
vector, the plaintext padded to the next multiple of 16, and an authentication
code. -/
structure SingleEncryption where
  encrypt : Bytes → Bytes
  encrypt_length : ∀ plain, (encrypt plain).length = 32 + 16 + (plain.length / 16 + 1) * 16 + 32

/-- The packet of an opportunistic delivery, built from `EncryptedPayload`. -/
def LXMessage.opportunisticPacket (enc : SingleEncryption) (header : PacketHeader) (m : LXMessage) :
    Bytes :=
  header.val ++ enc.encrypt (m.packed.drop destinationLength)

/-- What is called a packet fits in one, and a fallback to direct delivery is what a
request for direct delivery gives. -/
structure LXMessage.ChosenFits (enc : SingleEncryption) (header : PacketHeader)
    (desiredMethod destinationType : UInt8) (m : LXMessage) : Prop where
  opportunistic : destinationType = destinationTypeSingle →
    m.chooseDeliveryMethod desiredMethod destinationType =
      .ok (methodOpportunistic, representationPacket) →
    (m.opportunisticPacket enc header).length ≤ mtu
  direct : m.chooseDeliveryMethod desiredMethod destinationType =
      .ok (methodDirect, representationPacket) →
    m.packed.length ≤ linkPacketMDU
  fallback : ∀ representation, desiredMethod = methodOpportunistic →
    m.chooseDeliveryMethod desiredMethod destinationType = .ok (methodDirect, representation) →
    m.chooseDeliveryMethod methodDirect destinationType = .ok (methodDirect, representation)

/-! ## Sizes -/

variable {m : LXMessage} {destinationType : UInt8}

theorem LXMessage.IsPacked.length_ne_zero (h : m.IsPacked) : m.packed.length ≠ 0 := by
  simp only [LXMessage.IsPacked, destinationLength, signatureLength] at h
  omega

theorem LXMessage.IsPacked.contentSize_eq (h : m.IsPacked) :
    m.contentSize = .ok (m.packed.length - overhead) := by
  rw [LXMessage.contentSize, if_neg h.length_ne_zero]
  dsimp only
  split_ifs with hsmall <;> rw [Except.ok.injEq] <;>
    simp only [LXMessage.IsPacked, overhead, destinationLength, signatureLength, timestampSize,
      structOverhead] at h hsmall ⊢ <;> omega

/-- The packed size up to which an opportunistic request is granted. -/
def opportunisticPackedMax (destinationType : UInt8) : Nat :=
  destinationLength +
    if destinationType = destinationTypePlain then plainPacketMDU else encryptedPacketMDU

theorem LXMessage.IsPacked.chooseOpportunistic (h : m.IsPacked) (destinationType : UInt8) :
    m.chooseDeliveryMethod methodOpportunistic destinationType =
      if m.packed.length ≤ opportunisticPackedMax destinationType then
        .ok (methodOpportunistic, representationPacket)
      else .ok (methodDirect, representationPacket) := by
  have hsize := h.contentSize_eq
  have hlimit : maxContentForMethod methodOpportunistic destinationType =
      some (opportunisticPackedMax destinationType - overhead) := by
    by_cases hsingle : destinationType = destinationTypeSingle
    · subst hsingle
      rfl
    · by_cases hplain : destinationType = destinationTypePlain
      · subst hplain
        rfl
      · simp only [maxContentForMethod, hsingle, hplain, opportunisticPackedMax, if_true, if_false]
        rfl
  have hoverhead : overhead ≤ opportunisticPackedMax destinationType := by
    unfold opportunisticPackedMax
    split <;> decide
  have hcompare : m.packed.length - overhead > opportunisticPackedMax destinationType - overhead ↔
      ¬m.packed.length ≤ opportunisticPackedMax destinationType := by
    omega
  have hunknown : methodOpportunistic ≠ methodUnknown := by decide
  simp only [LXMessage.chooseDeliveryMethod, h.length_ne_zero, hsize, hlimit, hunknown, if_false, if_true]
  by_cases hle : m.packed.length ≤ opportunisticPackedMax destinationType
  · rw [if_pos hle, if_neg (by simpa [hcompare] using hle)]
  · rw [if_neg hle, if_pos (hcompare.mpr hle)]

theorem LXMessage.IsPacked.chooseDirect (h : m.IsPacked) {desiredMethod : UInt8}
    (hdesired : desiredMethod = methodUnknown ∨ desiredMethod = methodDirect)
    (destinationType : UInt8) :
    m.chooseDeliveryMethod desiredMethod destinationType =
      if m.packed.length ≤ linkPacketMDU then .ok (methodDirect, representationPacket)
      else .ok (methodDirect, representationResource) := by
  have hsize := h.contentSize_eq
  have hcompare : m.packed.length - overhead ≤ linkPacketMaxContent ↔
      m.packed.length ≤ linkPacketMDU := by
    have hmax : linkPacketMaxContent = linkPacketMDU - overhead := rfl
    have hoverhead : overhead ≤ linkPacketMDU := by decide
    omega
  have hmethod : (if desiredMethod = methodUnknown then methodDirect else desiredMethod) =
      methodDirect := by
    obtain rfl | rfl := hdesired <;> rfl
  have hopportunistic : methodDirect ≠ methodOpportunistic := by decide
  simp only [LXMessage.chooseDeliveryMethod, h.length_ne_zero, hsize, hmethod, hopportunistic, hcompare, if_false,
    true_or, if_true]

/-- A granted opportunistic request to a single destination fits in a packet. -/
theorem opportunisticPacket_length (enc : SingleEncryption) (header : PacketHeader)
    (h : m.packed.length ≤ opportunisticPackedMax destinationTypeSingle) :
    (m.opportunisticPacket enc header).length ≤ mtu := by
  have hmax : opportunisticPackedMax destinationTypeSingle = 407 := rfl
  rw [LXMessage.opportunisticPacket, List.length_append, enc.encrypt_length, header.property,
    List.length_drop, destinationLength, mtu]
  omega

/-! ## What fits -/

/-- What is called a packet fits in one, except for an opportunistic request that
falls back to direct delivery with more than a link packet holds. -/
theorem chosen_method_fits_iff {cr : Crypto Identity} {now : BitVec 64} {o₁ o₂ : MapOrder}
    {sign : Signer} {m₀ m : LXMessage} {k : Packing}
    (hpack : m₀.pack cr now o₁ o₂ (some sign) = (m, .ok k)) (enc : SingleEncryption)
    (header : PacketHeader) {desiredMethod : UInt8}
    (hdesired : desiredMethod = methodUnknown ∨ desiredMethod = methodOpportunistic ∨
      desiredMethod = methodDirect) (destinationType : UInt8) :
    m.ChosenFits enc header desiredMethod destinationType ↔
      (desiredMethod = methodOpportunistic →
        m.packed.length ≤ linkPacketMDU ∨
          destinationType = destinationTypePlain ∧
            m.packed.length ≤ plainPacketMDU + destinationLength) := by
  obtain ⟨run⟩ := pack_ok hpack
  have hpacked := run.isPacked
  have hdirect := hpacked.chooseDirect (.inr rfl) destinationType
  have hmethods : methodOpportunistic ≠ methodDirect := by decide
  have hrepr : representationResource ≠ representationPacket := by decide
  by_cases hopp : desiredMethod = methodOpportunistic
  · subst hopp
    have hchoose := hpacked.chooseOpportunistic destinationType
    have hlimits : m.packed.length ≤ opportunisticPackedMax destinationType →
        m.packed.length ≤ linkPacketMDU ∨ destinationType = destinationTypePlain ∧
          m.packed.length ≤ plainPacketMDU + destinationLength := by
      intro hle
      unfold opportunisticPackedMax at hle
      split at hle
      · rename_i hplain
        exact .inr ⟨hplain, by omega⟩
      · refine .inl (hle.trans ?_)
        decide
    constructor
    · intro hfits _
      by_cases hle : m.packed.length ≤ opportunisticPackedMax destinationType
      · exact hlimits hle
      · rw [if_neg hle] at hchoose
        exact .inl (hfits.direct hchoose)
    · intro hfit
      by_cases hle : m.packed.length ≤ opportunisticPackedMax destinationType
      · rw [if_pos hle] at hchoose
        refine ⟨fun hsingle _ => ?_, fun hd => ?_, fun r _ hd => ?_⟩
        · subst hsingle
          exact opportunisticPacket_length enc header hle
        · simp [hchoose, hmethods] at hd
        · simp [hchoose, hmethods] at hd
      · have hlink : m.packed.length ≤ linkPacketMDU := by
          obtain hlink | ⟨hplain, hmax⟩ := hfit rfl
          · exact hlink
          · rw [hplain, opportunisticPackedMax, if_pos rfl] at hle
            omega
        rw [if_neg hle] at hchoose
        rw [if_pos hlink] at hdirect
        refine ⟨fun _ ho => ?_, fun _ => hlink, fun r _ hd => ?_⟩
        · simp [hchoose, hmethods.symm] at ho
        · rw [hdirect, ← hchoose]
          exact hd
  · have hchoose := hpacked.chooseDirect (hdesired.imp_right fun h => h.resolve_left hopp)
      destinationType
    refine iff_of_true ⟨fun _ ho => ?_, fun hd => ?_, fun _ h => absurd h hopp⟩ fun h => absurd h hopp
    · rw [hchoose] at ho
      split at ho <;> simp [hmethods.symm] at ho
    · by_contra hlink
      rw [hchoose, if_neg hlink] at hd
      simp [hrepr] at hd

/-- An encryption that adds zeros. -/
def zeroEncryption : SingleEncryption where
  encrypt plain := List.replicate (32 + 16 + (plain.length / 16 + 1) * 16 + 32) 0
  encrypt_length _ := List.length_replicate

def zeroHeader : PacketHeader := ⟨List.replicate 19 0, rfl⟩

/-- A content of `n` bytes, packed. -/
def packedZeros (n : Nat) : LXMessage × Except PackError Packing :=
  (contentMessage (List.replicate n 0)).pack plainCrypto 1 .listed .listed (some tailSigner)

theorem packedZeros_eq (n size : Nat)
    (h : (packedZeros n).2.toOption.map (fun _ => (packedZeros n).1.packed.length) = some size) :
    ∃ k, packedZeros n = ((packedZeros n).1, .ok k) ∧ (packedZeros n).1.packed.length = size := by
  -- Nothing here depends on how the message was packed.
  generalize packedZeros n = packed at h ⊢
  obtain ⟨k, hk, hsize⟩ := Option.map_eq_some_iff.mp h
  exact ⟨k, Prod.ext rfl (Except.toOption_eq_some_iff.mp hk), hsize⟩

/-- A short message is sent as an opportunistic packet that fits. -/
theorem short_message_fits :
    (packedZeros 1).1.ChosenFits zeroEncryption zeroHeader methodOpportunistic
      destinationTypeSingle := by
  obtain ⟨k, hpack, hsize⟩ := packedZeros_eq 1 111 (by decide +kernel)
  exact (chosen_method_fits_iff hpack zeroEncryption zeroHeader (.inr (.inl rfl))
    destinationTypeSingle).mpr fun _ => .inl (by rw [hsize]; decide)

/-- A content of 400 bytes falls back to direct delivery in one packet, which holds
431 bytes; the packed message is longer. -/
theorem fallback_exceeds_link_packet :
    ∃ k, packedZeros 400 = ((packedZeros 400).1, .ok k) ∧
      (packedZeros 400).1.chooseDeliveryMethod methodOpportunistic destinationTypeSingle =
        .ok (methodDirect, representationPacket) ∧
      (packedZeros 400).1.chooseDeliveryMethod methodDirect destinationTypeSingle =
        .ok (methodDirect, representationResource) ∧
      linkPacketMDU < (packedZeros 400).1.packed.length := by
  obtain ⟨k, hpack, hsize⟩ := packedZeros_eq 400 511 (by decide +kernel)
  obtain ⟨run⟩ := pack_ok hpack
  have hopportunistic := run.isPacked.chooseOpportunistic destinationTypeSingle
  have hdirect := run.isPacked.chooseDirect (.inr rfl) destinationTypeSingle
  rw [hsize, if_neg (by decide)] at hopportunistic
  rw [hsize, if_neg (by decide)] at hdirect
  exact ⟨k, hpack, hopportunistic, hdirect, by rw [hsize]; decide⟩

end Lxmf
