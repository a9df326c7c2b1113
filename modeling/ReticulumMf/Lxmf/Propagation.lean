-- SUMMARY: Packing for a propagation node, and the node's check of the stamp.
import ReticulumMf.Msgpack.Unmarshal
import ReticulumMf.Lxmf.Container
import ReticulumMf.Lxmf.PackUnpack
import ReticulumMf.Lxmf.Stamp

/-!
# Propagation

`PackPropagated` encrypts a packed message for its recipient, stamps the result
for the propagation node and wraps both in a MessagePack array; the node checks
the stamp with `ValidatePNStamp`. The stamp is always found valid
(`PropagatedRun.validates`). What the node reads out of the array is the stamped
item only as long as its length fits the header of a byte slice
(`propagation_validates_iff`).
-/

namespace Lxmf

open Msgpack ByteReader

variable {Identity : Type}

/-! ## PackPropagated -/

def timestampSize : Nat := 8
def structOverhead : Nat := 8
def overhead : Nat := 2 * destinationLength + signatureLength + timestampSize + structOverhead
def linkPacketMDU : Nat := 431
def linkPacketMaxContent : Nat := linkPacketMDU - overhead

def methodPropagated : UInt8 := 0x03
def representationResource : UInt8 := 0x02
def stateSent : UInt8 := 0x04

def workblockExpandRoundsPN : Int := 1000

/-- A destination that a message can be encrypted for. The ciphertext carries an
ephemeral key, an initialisation vector and an authentication code. -/
structure Recipient where
  encrypt : Bytes → Except String Bytes
  encrypt_length : ∀ plain cipher, encrypt plain = .ok cipher → plain.length + 80 ≤ cipher.length

/-- A message with the fields that `PackPropagated` sets. -/
structure PropagatedMessage extends LXMessage where
  transientID : Bytes := []
  propagationStamp : Bytes := []
  propagationPacked : Bytes := []

inductive PropagationError where
  | nilRecipient
  | notPacked
  | encrypt (e : String)
  | stamp (e : StampError)
  | encode (e : EncodeError)
  deriving DecidableEq, Repr

/-- The array for the propagation node: the time and one item. -/
def propagationPayload (now : BitVec 64) (item : Bytes) : Any :=
  .slice [.scalar (.float64 now), .slice [.bytes item]]

/-- The end of `PackPropagated`, from the encoding of the array on. -/
def PropagatedMessage.encodeItem (now : BitVec 64) (item : Bytes) (m : PropagatedMessage) :
    PropagatedMessage × Except PropagationError Unit :=
  match encode false (propagationPayload now item) with
  | .error e => (m, .error (.encode e))
  | .ok outer =>
    ({ m with
        propagationPacked := outer
        method := methodPropagated
        representation :=
          if outer.length > linkPacketMaxContent then representationResource
          else representationPacket }, .ok ())

/-- `PackPropagated`: the message afterwards and the result. The clock reads
`now`; the stamp search draws `candidates`. -/
def PropagatedMessage.packPropagated (cr : Crypto Identity) (now : BitVec 64)
    (candidates : List Candidate) (recipient : Option Recipient) (pnStampCost : Int)
    (m : PropagatedMessage) : PropagatedMessage × Except PropagationError Unit :=
  match recipient with
  | none => (m, .error .nilRecipient)
  | some recipient =>
    if m.packed = [] then (m, .error .notPacked)
    else
      match recipient.encrypt (m.packed.drop destinationLength) with
      | .error e => (m, .error (.encrypt e))
      | .ok encrypted =>
        let lxmfData := m.packed.take destinationLength ++ encrypted
        let m := { m with transientID := cr.sha256 lxmfData }
        if pnStampCost > 0 then
          match generateStamp cr m.transientID pnStampCost workblockExpandRoundsPN candidates with
          | .error e => (m, .error (.stamp e))
          | .ok (stamp, _) =>
            { m with propagationStamp := stamp }.encodeItem now (lxmfData ++ stamp)
        else m.encodeItem now lxmfData

/-! ## ValidatePNStamp -/

/-- What `ValidatePNStamp` returns for accepted data. -/
structure PNStamp where
  transientID : Bytes
  lxmData : Bytes
  value : Int
  stamp : Bytes
  deriving DecidableEq, Repr

def validatePNStamp (cr : Crypto Identity) (transientData : Bytes) (targetCost : Int) :
    Option PNStamp :=
  if transientData.length ≤ overhead + stampSize then none
  else
    let cut := transientData.length - stampSize
    let lxm := transientData.take cut
    let st := transientData.drop cut
    let tid := cr.sha256 lxm
    match stampWorkblock cr tid workblockExpandRoundsPN with
    | .error _ => none
    | .ok wb => if !stampValid cr st targetCost wb then none else some ⟨tid, lxm, stampValue cr wb st, st⟩

/-- The message has been through `Pack`, or came out of `UnpackFromBytes`. -/
def LXMessage.IsPacked (m : LXMessage) : Prop :=
  2 * destinationLength + signatureLength ≤ m.packed.length

theorem PackRun.isPacked {cr : Crypto Identity} {now : BitVec 64} {o₁ o₂ : MapOrder} {sign : Signer}
    {m m' : LXMessage} {k : Packing} (run : PackRun cr now o₁ o₂ sign m m' k) : m'.IsPacked := by
  rw [run.message_eq, LXMessage.IsPacked]
  simp only [run.packed_eq, List.length_append, run.destination_length, run.source_length,
    run.signature_length]
  omega

/-! ## The node's view -/

/-- A found stamp behind enough bytes is accepted and cut off where it was put. -/
theorem validatePNStamp_stamped {cr : Crypto Identity} {lxm stamp : Bytes} {cost value : Int}
    {candidates : List Candidate} (hlen : overhead < lxm.length) (hpos : 1 ≤ cost)
    (hmax : cost ≤ 256)
    (hstamp : generateStamp cr (cr.sha256 lxm) cost workblockExpandRoundsPN candidates =
      .ok (stamp, value)) :
    ∃ wb, stampWorkblock cr (cr.sha256 lxm) workblockExpandRoundsPN = .ok wb ∧
      validatePNStamp cr (lxm ++ stamp) cost =
        some ⟨cr.sha256 lxm, lxm, stampValue cr wb stamp, stamp⟩ := by
  obtain ⟨hsize, wb, hwb, hmeets⟩ := generateStamp_ok (by decide) hstamp
  have htotal : (lxm ++ stamp).length = lxm.length + stampSize := by
    rw [List.length_append, hsize]
  have hlong : ¬(lxm ++ stamp).length ≤ overhead + stampSize := by omega
  have hcut : (lxm ++ stamp).length - stampSize = lxm.length := by omega
  refine ⟨wb, hwb, ?_⟩
  simp only [validatePNStamp, if_neg hlong, hcut, List.take_left, List.drop_left, hwb,
    stampValid_eq wb hsize hpos hmax, hmeets]
  rfl

/-! ## The array on the wire -/

/-- The bytes of the array for the node. -/
def propagationBytes (now : BitVec 64) (item : Bytes) : Bytes :=
  (Code.fixedArray 2).toByte :: (encodeScalar false (.float64 now) ++
    (Code.fixedArray 1).toByte :: (encodeBytesLen item.length ++ item))

theorem encode_propagationPayload (now : BitVec 64) (item : Bytes) :
    encode false (propagationPayload now item) = .ok (propagationBytes now item) := by
  simp [propagationPayload, propagationBytes, encode, encodeAll, Functor.map, Except.map, bind,
    Except.bind, pure, Except.pure, encodeArrayLen]
  decide

/-- The node reads as much of the item as the header of the byte slice says. -/
theorem unmarshal_propagationBytes (now : BitVec 64) (item : Bytes) :
    unmarshal (propagationBytes now item) =
      .ok (propagationPayload now (item.take (item.length % 2 ^ 32))) := by
  have hbytes := decodeInterfaceCond_reads (d := 3) (by decide)
    (decodeDefault_bytes 9997 item [] ⟨4, 0⟩)
  rw [List.append_nil, List.append_nil] at hbytes
  have hinner := decodeInterfaceCond_reads (d := 2) (by decide)
    (decodeDefault_slice ⟨3, 0⟩ (n := 1) (by simp [encodeBytesLen_eq])
      (iterate_append hbytes 0 []))
  have hfloat := decodeInterfaceCond_reads (d := 2) (by decide)
    (decodeDefault_float64 ⟨3, 0⟩ 9998 now
      ((Code.fixedArray 1).toByte :: (encodeBytesLen item.length ++ item)))
  have houter := decodeInterfaceCond_reads (d := 1) (by decide)
    (decodeDefault_slice ⟨2, 0⟩ (n := 2) (by simp [encodeScalar, write]; omega)
      ((iterate_append hfloat 1 []).trans (iterate_append hinner 0 _)))
  have hvalue : decodeValue ⟨propagationBytes now item, ⟨0, 0⟩⟩ =
      .ok (propagationPayload now (item.take (item.length % 2 ^ 32)))
        ⟨item.drop (item.length % 2 ^ 32), ⟨0, 0⟩⟩ :=
    decodeInterfaceCond_reads (d := 0) (by decide) houter
  rw [unmarshal, hvalue]

/-! ## From the sender to the node -/

/-- A successful `PackPropagated` with a positive cost. -/
structure PropagatedRun (cr : Crypto Identity) (now : BitVec 64) (candidates : List Candidate)
    (cost : Int) (m m' : PropagatedMessage) (ciphertext : Bytes) : Prop where
  transientID : m'.transientID = cr.sha256 (m.packed.take destinationLength ++ ciphertext)
  stamp : ∃ value, generateStamp cr m'.transientID cost workblockExpandRoundsPN candidates =
    .ok (m'.propagationStamp, value)
  packed : m'.propagationPacked =
    propagationBytes now (m.packed.take destinationLength ++ ciphertext ++ m'.propagationStamp)

theorem PropagatedMessage.encodeItem_eq (now : BitVec 64) (item : Bytes) (m : PropagatedMessage) :
    m.encodeItem now item =
      ({ m with
          propagationPacked := propagationBytes now item
          method := methodPropagated
          representation :=
            if (propagationBytes now item).length > linkPacketMaxContent then representationResource
            else representationPacket }, .ok ()) := by
  rw [encodeItem, encode_propagationPayload]

theorem packPropagated_ok {cr : Crypto Identity} {now : BitVec 64} {candidates : List Candidate}
    {recipient : Recipient} {cost : Int} (hpos : 1 ≤ cost) {m m' : PropagatedMessage}
    {ciphertext : Bytes}
    (hencrypt : recipient.encrypt (m.packed.drop destinationLength) = .ok ciphertext)
    (h : m.packPropagated cr now candidates (some recipient) cost = (m', .ok ())) :
    PropagatedRun cr now candidates cost m m' ciphertext := by
  simp only [PropagatedMessage.packPropagated, hencrypt, PropagatedMessage.encodeItem_eq] at h
  rw [if_pos (show cost > 0 by omega)] at h
  split at h
  · cases h
  · split at h
    · cases h
    · rename_i stamp value hstamp
      cases h
      exact ⟨rfl, ⟨value, hstamp⟩, rfl⟩

/-- A candidate that meets the target is enough for `PackPropagated` to succeed. -/
theorem packPropagated_isOk {cr : Crypto Identity} (now : BitVec 64) {candidates : List Candidate}
    {recipient : Recipient} {cost : Int} (hpos : 1 ≤ cost) {m : PropagatedMessage}
    (hpacked : m.packed ≠ []) {ciphertext : Bytes}
    (hencrypt : recipient.encrypt (m.packed.drop destinationLength) = .ok ciphertext)
    (hfound : ∀ wb, ∃ c ∈ candidates, meetsTarget cr cost wb c.val = true) :
    ∃ m', m.packPropagated cr now candidates (some recipient) cost = (m', .ok ()) := by
  have hid : cr.sha256 (m.packed.take destinationLength ++ ciphertext) ≠ [] := by
    intro hnil
    have hlen := cr.sha256_length (m.packed.take destinationLength ++ ciphertext)
    rw [hnil] at hlen
    cases hlen
  obtain ⟨wb, hwb⟩ := stampWorkblock_ok cr workblockExpandRoundsPN (by decide) hid
  obtain ⟨c, hfind⟩ : ∃ c, candidates.find? (fun c => meetsTarget cr cost wb c.val) = some c := by
    apply Option.isSome_iff_exists.mp
    apply List.find?_isSome.mpr
    exact hfound wb
  have hstamp : generateStamp cr (cr.sha256 (m.packed.take destinationLength ++ ciphertext)) cost
      workblockExpandRoundsPN candidates = .ok (c.val, stampValue cr wb c.val) := by
    rw [generateStamp, if_neg (by omega), if_neg (by decide)]
    simp only [hwb, bind, Except.bind, hfind]
  simp only [PropagatedMessage.packPropagated, if_neg hpacked, hencrypt, hstamp,
    PropagatedMessage.encodeItem_eq, if_pos (show cost > 0 by omega)]
  exact ⟨_, rfl⟩

namespace PropagatedRun

variable {cr : Crypto Identity} {now : BitVec 64} {candidates : List Candidate} {cost : Int}
  {m m' : PropagatedMessage} {ciphertext : Bytes}

/-- The stamp is cut off and found valid, for a ciphertext as long as any that
is made of a packed message. -/
theorem validates (run : PropagatedRun cr now candidates cost m m' ciphertext)
    (hpacked : m.IsPacked)
    (hlen : (m.packed.drop destinationLength).length + 80 ≤ ciphertext.length) (hpos : 1 ≤ cost)
    (hmax : cost ≤ 256) :
    ∃ wb, stampWorkblock cr m'.transientID workblockExpandRoundsPN = .ok wb ∧
      validatePNStamp cr (m.packed.take destinationLength ++ ciphertext ++ m'.propagationStamp)
          cost =
        some ⟨m'.transientID, m.packed.take destinationLength ++ ciphertext,
          stampValue cr wb m'.propagationStamp, m'.propagationStamp⟩ := by
  obtain ⟨value, hstamp⟩ := run.stamp
  have hlong : overhead < (m.packed.take destinationLength ++ ciphertext).length := by
    rw [LXMessage.IsPacked, destinationLength, signatureLength] at hpacked
    rw [List.length_drop, destinationLength] at hlen
    rw [List.length_append, overhead, destinationLength, signatureLength, timestampSize,
      structOverhead]
    omega
  rw [run.transientID] at hstamp ⊢
  exact validatePNStamp_stamped hlong hpos hmax hstamp

theorem stamp_length (run : PropagatedRun cr now candidates cost m m' ciphertext) :
    m'.propagationStamp.length = stampSize := by
  obtain ⟨value, hstamp⟩ := run.stamp
  exact (generateStamp_ok (by decide) hstamp).1

/-- The node gets the whole item exactly if the length of the item fits. -/
theorem unmarshal_iff (run : PropagatedRun cr now candidates cost m m' ciphertext)
    (hpacked : m.IsPacked) :
    unmarshal m'.propagationPacked = .ok (propagationPayload now
        (m.packed.take destinationLength ++ ciphertext ++ m'.propagationStamp)) ↔
      ciphertext.length + 48 < 2 ^ 32 := by
  have hlen : (m.packed.take destinationLength ++ ciphertext ++ m'.propagationStamp).length =
      ciphertext.length + 48 := by
    rw [LXMessage.IsPacked, destinationLength, signatureLength] at hpacked
    rw [List.length_append, List.length_append, List.length_take, run.stamp_length,
      destinationLength, stampSize]
    omega
  generalize hitem : m.packed.take destinationLength ++ ciphertext ++ m'.propagationStamp = item
  rw [hitem] at hlen
  rw [run.packed, hitem, unmarshal_propagationBytes, ← hlen]
  constructor
  · intro h
    simp only [Except.ok.injEq, propagationPayload, Any.slice.injEq, List.cons.injEq,
      Any.bytes.injEq, and_true, true_and] at h
    have hmin := congrArg List.length h
    rw [List.length_take] at hmin
    omega
  · intro h
    rw [Nat.mod_eq_of_lt h, List.take_length]

end PropagatedRun

/-! ## Samples -/

/-- A message with this content only. -/
def contentMessage (content : Bytes) : LXMessage where
  destinationHash := List.replicate 16 1
  sourceHash := List.replicate 16 2
  content := some content
  timestamp := 1

/-- A message before any `PackPropagated`. -/
def LXMessage.unpropagated (m : LXMessage) : PropagatedMessage := { m with }

theorem LXMessage.packed_unpropagated (m : LXMessage) : m.unpropagated.packed = m.packed := rfl

/-- The message, packed and signed by `tailSigner`. -/
def packedContent (content : Bytes) : PropagatedMessage :=
  ((contentMessage content).pack plainCrypto 1 .listed .listed (some tailSigner)).1.unpropagated

/-- `Pack` of a message without fields and stamp. -/
theorem pack_content {cr : Crypto Identity} {now : BitVec 64} {o₁ o₂ : MapOrder} {m : LXMessage}
    (hdst : m.destinationHash.length = destinationLength)
    (hsrc : m.sourceHash.length = destinationLength) (hfields : m.fields = none)
    (hstamp : m.stamp = []) {content : Bytes} (hcontent : m.content = some content) :
    2 * destinationLength + signatureLength + content.length ≤
      (m.pack cr now o₁ o₂ (some tailSigner)).1.packed.length := by
  have hbody : (m.withTimestamp now).payloadBody o₁ = .ok
      (encodeScalar true (.float64 (m.withTimestamp now).timestamp) ++ encodeGoBytes m.title ++
        (encodeBytesLen content.length ++ content) ++ [Code.nil.toByte]) := by
    have hfields' : (m.withTimestamp now).fields = none := hfields
    have hcontent' : (m.withTimestamp now).content = some content := hcontent
    rw [LXMessage.payloadBody, LXMessage.encodeFields, hfields', hcontent']
    rfl
  have hsig (data : Bytes) : (tailSignature data).length = signatureLength := by
    simp [tailSignature, signatureLength]
  have hencode := encodePayload_unstamped o₁ (m.withTimestamp now)
  rw [hbody] at hencode
  have hstamp' : (m.withTimestamp now).stamp = [] := hstamp
  have hdst' : (m.withTimestamp now).destinationHash.length = destinationLength := hdst
  have hsrc' : (m.withTimestamp now).sourceHash.length = destinationLength := hsrc
  simp only [LXMessage.pack, hdst, hsrc, hdst', hsrc', hencode, tailSigner, hsig, hstamp',
    Functor.map, Except.map, ne_eq, not_true_eq_false, if_false, if_true, List.length_append,
    List.length_cons]
  omega

/-- A recipient whose ciphertexts are padded plaintexts. -/
def paddingRecipient : Recipient where
  encrypt plain := .ok (plain ++ List.replicate 80 0)
  encrypt_length plain cipher h := by
    cases h
    rw [List.length_append, List.length_replicate]

def zeroCandidate : Candidate := ⟨List.replicate 32 0, length_zeros⟩

theorem paddingRecipient_encrypt (plain : Bytes) :
    paddingRecipient.encrypt plain = .ok (plain ++ List.replicate 80 0) := rfl

theorem packedContent_length (content : Bytes) :
    2 * destinationLength + signatureLength + content.length ≤
      (packedContent content).packed.length := by
  rw [packedContent, LXMessage.packed_unpropagated]
  exact pack_content (m := contentMessage content) rfl rfl rfl rfl rfl

theorem packedContent_isPacked (content : Bytes) : (packedContent content).IsPacked :=
  Nat.le_trans (Nat.le_add_right _ content.length) (packedContent_length content)

theorem zeroCandidate_meetsTarget (wb : Bytes) :
    meetsTarget plainCrypto 1 wb zeroCandidate.val = true := by
  have hsum : plainCrypto.sha256 (wb ++ List.replicate 32 0) = List.replicate 32 0 := by
    simp [plainCrypto, List.reverse_append, List.take_append]
  have htarget : bytesLE (List.replicate 32 0) (stampTargetBytes 1) = true := by decide
  rw [meetsTarget, zeroCandidate, hsum, htarget]

/-- Every packed content gets a stamp of cost 1. -/
theorem packedContent_packPropagated (content : Bytes) :
    ∃ m', (packedContent content).packPropagated plainCrypto 1 [zeroCandidate]
      (some paddingRecipient) 1 = (m', .ok ()) := by
  have hpacked : (packedContent content).packed ≠ [] := by
    intro hnil
    have hlen := packedContent_length content
    rw [hnil, destinationLength, signatureLength, List.length_nil] at hlen
    omega
  apply packPropagated_isOk 1 (by decide) hpacked (paddingRecipient_encrypt _)
  intro wb
  exact ⟨zeroCandidate, List.mem_singleton_self _, zeroCandidate_meetsTarget wb⟩

/-- The node decodes the stamped item out of what `PackPropagated` built and
accepts its stamp, for every candidate that won the search, exactly if the length
of the item can be written as a MessagePack length. -/
theorem propagation_validates_iff (cr : Crypto Identity) (now : BitVec 64)
    (candidates : List Candidate) (recipient : Recipient) (cost : Int) (m m' : PropagatedMessage)
    (ciphertext : Bytes) (hpacked : m.IsPacked) (hpos : 1 ≤ cost) (hmax : cost ≤ 256)
    (hencrypt : recipient.encrypt (m.packed.drop destinationLength) = .ok ciphertext)
    (hpack : m.packPropagated cr now candidates (some recipient) cost = (m', .ok ())) :
    (unmarshal m'.propagationPacked = .ok (propagationPayload now
        (m.packed.take destinationLength ++ ciphertext ++ m'.propagationStamp)) ∧
      ∃ wb, stampWorkblock cr m'.transientID workblockExpandRoundsPN = .ok wb ∧
        validatePNStamp cr (m.packed.take destinationLength ++ ciphertext ++ m'.propagationStamp)
            cost =
          some ⟨m'.transientID, m.packed.take destinationLength ++ ciphertext,
            stampValue cr wb m'.propagationStamp, m'.propagationStamp⟩) ↔
      ciphertext.length + 48 < 2 ^ 32 := by
  have run := packPropagated_ok hpos hencrypt hpack
  rw [run.unmarshal_iff hpacked]
  have hvalid := run.validates hpacked (recipient.encrypt_length _ _ hencrypt) hpos hmax
  exact and_iff_left hvalid

/-- A content just short of what a byte slice can hold. -/
def longContent : Bytes := List.replicate (2 ^ 32 - 1) 0

/-- A packed message with the long content is encrypted and stamped, but the node
reads another item out of the array. -/
theorem oversized_item_truncated :
    ∃ m' ciphertext, (packedContent longContent).packPropagated plainCrypto 1 [zeroCandidate]
        (some paddingRecipient) 1 = (m', .ok ()) ∧
      paddingRecipient.encrypt ((packedContent longContent).packed.drop destinationLength) =
        .ok ciphertext ∧
      unmarshal m'.propagationPacked ≠ .ok (propagationPayload 1
        ((packedContent longContent).packed.take destinationLength ++ ciphertext ++
          m'.propagationStamp)) := by
  obtain ⟨m', hpack⟩ := packedContent_packPropagated longContent
  have hencrypt := paddingRecipient_encrypt
    ((packedContent longContent).packed.drop destinationLength)
  have run := packPropagated_ok (by decide) hencrypt hpack
  have hlen := packedContent_length longContent
  rw [longContent, List.length_replicate, ← longContent, destinationLength, signatureLength] at hlen
  refine ⟨m', _, hpack, hencrypt, ?_⟩
  rw [Ne, run.unmarshal_iff (packedContent_isPacked longContent), List.length_append,
    List.length_replicate, List.length_drop, destinationLength]
  omega

/-- The item of a message with an empty content is read and accepted. -/
theorem empty_content_accepted :
    ∃ m' ciphertext result, (packedContent []).packPropagated plainCrypto 1 [zeroCandidate]
        (some paddingRecipient) 1 = (m', .ok ()) ∧
      unmarshal m'.propagationPacked = .ok (propagationPayload 1
        ((packedContent []).packed.take destinationLength ++ ciphertext ++ m'.propagationStamp)) ∧
      validatePNStamp plainCrypto
        ((packedContent []).packed.take destinationLength ++ ciphertext ++ m'.propagationStamp) 1 =
          some result := by
  obtain ⟨m', hpack⟩ := packedContent_packPropagated []
  have hlen : ((packedContent []).packed.drop destinationLength ++ List.replicate 80 0).length + 48
      < 2 ^ 32 := by decide +kernel
  obtain ⟨hread, wb, -, hvalid⟩ := (propagation_validates_iff plainCrypto 1 [zeroCandidate]
    paddingRecipient 1 (packedContent []) m' _ (packedContent_isPacked []) (by decide) (by decide)
    (paddingRecipient_encrypt _) hpack).mpr hlen
  exact ⟨m', _, _, hpack, hread, hvalid⟩

end Lxmf
