-- SUMMARY: The packet of an MF message, and which valid messages fit in it.
import ReticulumMf.Mf.Message

/-!
# Sending MF messages

`sendPacked` encrypts the packed message and puts it into a single packet. Encryption adds an
ephemeral key, an initialisation vector, padding and an authentication code, for which
`MaxMessageSize` leaves no room: a packet takes 399 bytes of packed message, and the longest
valid text alone has 420 (`valid_message_fits_iff`).
-/

namespace Mf

/-! ## Packets -/

def mtu : Nat := 500
def truncatedHashLength : Nat := 16

def headerType1 : UInt8 := 0x00
def headerType2 : UInt8 := 0x01
def packetTypeData : UInt8 := 0x00
def contextNone : UInt8 := 0x00
def destinationSingle : UInt8 := 0
def propagationBroadcast : UInt8 := 0
def flagUnset : UInt8 := 0x00

/-- A packet that has not been packed yet. -/
structure Packet where
  headerType : UInt8
  packetType : UInt8
  transportType : UInt8
  context : UInt8
  contextFlag : UInt8
  hops : UInt8 := 0
  destinationType : UInt8
  destinationHash : Bytes := []
  data : Bytes
  transportID : Option Bytes
  deriving DecidableEq

inductive PacketError where
  | destinationLength (got : Nat)
  | noTransportID
  | transportIDLength (got : Nat)
  | exceedsMTU
  deriving DecidableEq, Repr

def newPacket (destType : UInt8) (data : Bytes) (packetType context transportType headerType : UInt8)
    (transportID : Option Bytes) (contextFlag : UInt8) : Packet :=
  { headerType, packetType, transportType, context, contextFlag, destinationType := destType, data,
    transportID }

def Packet.flags (p : Packet) : UInt8 :=
  let flags : UInt8 := 0
  let flags := flags ||| ((p.headerType <<< (6 : UInt8)) &&& 0x40)
  let flags := flags ||| ((p.contextFlag <<< (5 : UInt8)) &&& 0x20)
  let flags := flags ||| ((p.transportType <<< (4 : UInt8)) &&& 0x10)
  let flags := flags ||| ((p.destinationType <<< (2 : UInt8)) &&& 0x0C)
  flags ||| (p.packetType &&& 0x03)

/-- The bytes that `Pack` puts into `Raw`. -/
def Packet.raw (p : Packet) : Bytes :=
  [p.flags, p.hops] ++ (if p.headerType = headerType2 then p.transportID.getD [] else []) ++
    p.destinationHash ++ [p.context] ++ p.data

def Packet.pack (p : Packet) : Except PacketError Bytes := do
  if p.destinationHash.length ≠ 0 ∧ p.destinationHash.length ≠ truncatedHashLength then
    .error (.destinationLength p.destinationHash.length)
  if p.headerType = headerType2 then
    match p.transportID with
    | none => .error .noTransportID
    | some id => if id.length ≠ truncatedHashLength then .error (.transportIDLength id.length)
  if p.raw.length > mtu then .error .exceedsMTU
  return p.raw

/-! ## Sending -/

/-- A single destination. The ciphertext has an ephemeral key, an initialisation vector, the
plaintext padded to the next multiple of 16, and an authentication code. -/
structure Target where
  encrypt : Bytes → Except String Bytes
  encrypt_length : ∀ plain cipher, encrypt plain = .ok cipher →
    cipher.length = 32 + 16 + 16 * (plain.length / 16 + 1) + 32

inductive SendError where
  | pack (e : Error)
  | encrypt (e : String)
  | packet (e : PacketError)
  | transport (e : String)
  deriving DecidableEq, Repr

/-- The packet that `sendPacked` builds from the encrypted message. -/
def messagePacket (destHash encrypted : Bytes) : Packet :=
  { newPacket destinationSingle encrypted packetTypeData contextNone propagationBroadcast headerType1 none flagUnset with
    destinationHash := destHash }

/-- `sendPacked`, with the bytes that the transport was given. -/
def sendPacked (transport : Bytes → Except String Unit) (target : Target) (destHash : Bytes) (m : Message) :
    Except SendError Bytes := do
  let payload ← m.pack.mapError .pack
  let encrypted ← (target.encrypt payload).mapError .encrypt
  let raw ← (messagePacket destHash encrypted).pack.mapError .packet
  (transport raw).mapError .transport
  return raw

/-- The packet is within the MTU, and `Pack` does not fail for its size. -/
structure Fits (transport : Bytes → Except String Unit) (target : Target) (destHash encrypted : Bytes)
    (m : Message) : Prop where
  size : (messagePacket destHash encrypted).raw.length ≤ mtu
  packs : sendPacked transport target destHash m ≠ .error (.packet .exceedsMTU)

/-- The longest text that fits in a packet. -/
def maxSendableText (m : Message) : Nat := if m.groupHash = [] then 383 else 366

/-! ## Sizes -/

theorem messagePacket_raw_length {destHash : Bytes} (hdest : destHash.length = senderHashLength) (encrypted : Bytes) :
    (messagePacket destHash encrypted).raw.length = 19 + encrypted.length := by
  have hheader : ¬headerType1 = headerType2 := by decide
  simp only [Packet.raw, messagePacket, newPacket, hheader, if_false, List.length_append, List.length_cons,
    List.length_nil, hdest, senderHashLength]

/-- The only way to fail is the size. -/
theorem messagePacket_pack {destHash : Bytes} (hdest : destHash.length = senderHashLength) (encrypted : Bytes) :
    (messagePacket destHash encrypted).pack =
      if (messagePacket destHash encrypted).raw.length > mtu then .error .exceedsMTU
      else .ok (messagePacket destHash encrypted).raw := by
  have hheader : ¬headerType1 = headerType2 := by decide
  have hlength : (messagePacket destHash encrypted).destinationHash.length = truncatedHashLength := hdest
  unfold Packet.pack
  rw [if_neg (fun h => h.2 hlength), show (messagePacket destHash encrypted).headerType = headerType1 from rfl,
    if_neg hheader]
  split <;> rfl

/-- The payload of a valid message. -/
theorem Message.pack_length {m : Message} (h : m.Valid) {payload : Bytes} (hpack : m.pack = .ok payload) :
    payload.length = m.text.length + if m.groupHash = [] then 16 else 33 := by
  rw [m.pack_eq h, Except.ok.injEq] at hpack
  subst hpack
  simp only [List.length_append, h.sender, senderHashLength, Message.tag]
  rcases h.group with hempty | hgroup
  · simp only [if_pos hempty, List.length_nil]
    omega
  · have hne : m.groupHash ≠ [] := fun hempty => by simp [hempty, senderHashLength] at hgroup
    simp only [if_neg hne, List.length_cons, hgroup, senderHashLength]
    omega

/-- A valid message fits in a packet exactly if its text leaves room for the padding and
the encryption. -/
theorem valid_message_fits_iff (transport : Bytes → Except String Unit) {target : Target} {destHash : Bytes}
    {m : Message} {payload encrypted : Bytes} (hdest : destHash.length = senderHashLength)
    (hvalid : m.validate = .ok ()) (hpack : m.pack = .ok payload) (henc : target.encrypt payload = .ok encrypted) :
    Fits transport target destHash encrypted m ↔ m.text.length ≤ maxSendableText m := by
  have hsize : (messagePacket destHash encrypted).raw.length ≤ mtu ↔ m.text.length ≤ maxSendableText m := by
    have hpayload := m.pack_length (Message.validate_ok_iff.mp hvalid) hpack
    rw [messagePacket_raw_length hdest, target.encrypt_length payload encrypted henc, hpayload, mtu, maxSendableText]
    split <;> omega
  have hsend : sendPacked transport target destHash m = .error (.packet .exceedsMTU) ↔
      ¬(messagePacket destHash encrypted).raw.length ≤ mtu := by
    have hraw := messagePacket_pack hdest encrypted
    simp only [sendPacked, hpack, henc, Except.mapError, Except.ok_bind]
    by_cases hle : (messagePacket destHash encrypted).raw.length ≤ mtu
    · rw [if_neg (Nat.not_lt.mpr hle)] at hraw
      refine iff_of_false ?_ (not_not.mpr hle)
      simp only [hraw, Except.ok_bind]
      cases transport (messagePacket destHash encrypted).raw <;> simp [bind, Except.bind, pure, Except.pure]
    · rw [if_pos (Nat.not_le.mp hle)] at hraw
      refine iff_of_true ?_ hle
      simp only [hraw]
      rfl
  constructor
  · exact fun h => hsize.mp h.size
  · intro hle
    have hfits := hsize.mpr hle
    exact ⟨hfits, fun hfail => hsend.mp hfail hfits⟩

/-- An encryption that adds zeros. -/
def zeroTarget : Target where
  encrypt plain := .ok (List.replicate (32 + 16 + 16 * (plain.length / 16 + 1) + 32) 0)
  encrypt_length plain cipher h := by
    cases h
    exact List.length_replicate

def sampleDestination : Bytes := List.replicate 16 5

/-- A short group message can be sent. -/
theorem group_message_fits :
    ∃ payload encrypted, sampleMessage.pack = .ok payload ∧ zeroTarget.encrypt payload = .ok encrypted ∧
      Fits (fun _ => .ok ()) zeroTarget sampleDestination encrypted sampleMessage :=
  ⟨_, _, rfl, rfl, (valid_message_fits_iff _ rfl (by decide) rfl rfl).mpr (by decide)⟩

/-- A text of the greatest length allowed. -/
def longestMessage : Message :=
  { senderHash := List.replicate 16 7, text := List.replicate 420 104 }

/-- It is valid and cannot be sent. -/
theorem longest_message_exceeds_mtu :
    longestMessage.validate = .ok () ∧
      sendPacked (fun _ => .ok ()) zeroTarget sampleDestination longestMessage = .error (.packet .exceedsMTU) := by
  decide +kernel

end Mf
