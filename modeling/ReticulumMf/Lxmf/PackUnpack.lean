-- SUMMARY: When sender and receiver of a message agree on its hash and signed bytes.
import ReticulumMf.Lxmf.Pack

/-!
# Packing and unpacking agree

The sender hashes one encoding of the payload. A stamped message is encoded a
second time, and the receiver hashes bytes it cuts out of that encoding. Both
sides see the same bytes exactly when the two encodings write the fields alike.
-/

namespace Lxmf

open Msgpack ByteReader

/-- Both encodings write the fields as the same bytes, and what they write reads
as four values. -/
def LXMessage.EncodesAlike (o₁ o₂ : MapOrder) (m : LXMessage) : Prop :=
  m.encodeFields o₁ = m.encodeFields o₂ ∧ ∀ b, m.payloadBody o₁ = .ok b → AreValues 4 b

theorem decodePayloadAndSplit_bare {B hashed : Bytes} {vs : List Any}
    (h : decodePayloadAndSplit (0x94 :: B) = .ok (vs, hashed)) : hashed = 0x94 :: B := by
  obtain ⟨c, ts, hp, -, rfl⟩ := decodePayloadAndSplit_ok_iff.mp h
  have hbytes := hp.bytes
  simp only [WireTree.flatten, List.cons.injEq] at hbytes
  obtain rfl : c = .fixedArray 4 := Code.toByte_inj hbytes.1.symm
  have hlen : ts.length = 4 := hp.sized
  rw [hashedBytes, if_pos hlen]

theorem decodePayloadAndSplit_stamped {B hashed : Bytes} {vs : List Any}
    (h : decodePayloadAndSplit (0x95 :: B) = .ok (vs, hashed)) :
    ∃ ts : List WireTree, WireTree.AllWF ts ∧ ts.length = 5 ∧ WireTree.flattenAll ts = B ∧
      hashed = 0x94 :: WireTree.flattenAll (ts.take 4) := by
  obtain ⟨c, ts, hp, -, rfl⟩ := decodePayloadAndSplit_ok_iff.mp h
  have hbytes := hp.bytes
  simp only [WireTree.flatten, List.cons.injEq] at hbytes
  obtain rfl : c = .fixedArray 5 := Code.toByte_inj hbytes.1.symm
  have hlen : ts.length = 5 := hp.sized
  refine ⟨ts, hp.wf, hlen, hbytes.2.symm, ?_⟩
  rw [hashedBytes, if_neg (by omega)]

/-- The bytes cut out of a stamped payload are as long as those that were written
only if they are the same. -/
theorem stamped_body_eq {b b' e : Bytes} {vs : List Any} (hlen : b.length = b'.length)
    (hdec : decodePayloadAndSplit (0x95 :: (b' ++ e)) = .ok (vs, 0x94 :: b)) :
    b = b' ∧ AreValues 4 b := by
  obtain ⟨ts, hwf, hts, hflat, hhashed⟩ := decodePayloadAndSplit_stamped hdec
  obtain rfl : b = WireTree.flattenAll (ts.take 4) := (List.cons.inj hhashed).2
  rw [← List.take_append_drop 4 ts, WireTree.flattenAll_append] at hflat
  refine ⟨(List.append_inj hflat hlen).1, ts.take 4, ?_, ?_, rfl⟩
  · exact WireTree.allWF_iff.mpr fun t ht => WireTree.allWF_iff.mp hwf t (List.mem_of_mem_take ht)
  · rw [List.length_take]
    omega

/-- The receiver cuts out the bytes that were hashed exactly when there is no
stamp or both encodings are alike. -/
theorem PackRun.hashed_eq_iff {Identity : Type} {cr : Crypto Identity} {now : BitVec 64}
    {o₁ o₂ : MapOrder} {sign : Signer} {m m' : LXMessage} {k : Packing}
    (run : PackRun cr now o₁ o₂ sign m m' k) {vs : List Any} {hashed : Bytes}
    (hdec : decodePayloadAndSplit run.payload = .ok (vs, hashed)) :
    hashed = 0x94 :: run.body ↔ m.stamp = [] ∨ (m.withTimestamp now).EncodesAlike o₁ o₂ := by
  rcases run.payload_eq with ⟨hstamp, hpayload⟩ | ⟨hstamp, body₂, hbody₂, hpayload⟩
  · rw [hpayload] at hdec
    exact iff_of_true (decodePayloadAndSplit_bare hdec) (.inl hstamp)
  · rw [hpayload] at hdec
    simp only [hstamp, false_or]
    constructor
    · rintro rfl
      obtain ⟨heq, hvalues⟩ := stamped_body_eq (payloadBody_length run.body_eq hbody₂) hdec
      refine ⟨(payloadBody_eq_iff run.body_eq).mp (heq ▸ hbody₂), ?_⟩
      intro b hb
      obtain rfl : run.body = b := Except.ok.inj (run.body_eq.symm.trans hb)
      exact hvalues
    · rintro ⟨hfields, hvalues⟩
      have hsame := (payloadBody_eq_iff run.body_eq).mpr hfields
      obtain rfl : body₂ = run.body := Except.ok.inj (hbody₂.symm.trans hsame)
      obtain ⟨ts, hwf, hlen, hflat, rfl⟩ := decodePayloadAndSplit_stamped hdec
      rw [take_four_of_append (hvalues _ run.body_eq) hwf hlen hflat]

/-- The bytes `UnpackFromBytes` hands to `Verify`. -/
def verifiedPart {Identity : Type} (cr : Crypto Identity) (o : MapOrder) (dst inner : Bytes) :
    Option Bytes :=
  (parseInner cr o dst inner).toOption.map Parsed.signedPart

theorem PackRun.verifiedPart_eq_iff {Identity : Type} {cr : Crypto Identity} {now : BitVec 64}
    {o₁ o₂ o₃ : MapOrder} {sign : Signer} {m m' : LXMessage} {k : Packing}
    (run : PackRun cr now o₁ o₂ sign m m' k) {p : Parsed}
    (hparse : parseInner cr o₃ m.destinationHash (k.packed.drop destinationLength) = .ok p) :
    p.signedPart = k.signedPart ↔ m.stamp = [] ∨ (m.withTimestamp now).EncodesAlike o₁ o₂ := by
  rw [run.inner_eq] at hparse
  obtain ⟨-, -, vs, hashed, pl, hdec, -, rfl⟩ := parseInner_ok_iff.mp hparse
  rw [drop_inner run.source_length run.signature_length] at hdec
  rw [← run.hashed_eq_iff hdec]
  simp only [Parsed.signedPart, inboundMessage, take_inner run.source_length, run.signedPart_eq]
  constructor
  · intro hsigned
    obtain ⟨hpart, -⟩ := List.append_inj' hsigned (by rw [cr.sha256_length, cr.sha256_length])
    exact List.append_cancel_left hpart
  · rintro rfl
    rfl

/-- The receiver reads the source and signature that were packed. -/
theorem PackRun.parsed_source {Identity : Type} {cr : Crypto Identity} {now : BitVec 64}
    {o₁ o₂ o₃ : MapOrder} {sign : Signer} {m m' : LXMessage} {k : Packing}
    (run : PackRun cr now o₁ o₂ sign m m' k) {p : Parsed}
    (hparse : parseInner cr o₃ m.destinationHash (k.packed.drop destinationLength) = .ok p) :
    p.msg.sourceHash = m.sourceHash ∧ p.msg.signature = run.signature := by
  rw [run.inner_eq] at hparse
  obtain ⟨-, -, vs, hashed, pl, -, -, rfl⟩ := parseInner_ok_iff.mp hparse
  exact ⟨take_inner run.source_length, signature_inner run.source_length run.signature_length⟩

/-- Where the signed bytes agree, so do the hashes. -/
theorem PackRun.hash_eq {Identity : Type} {cr : Crypto Identity} {now : BitVec 64}
    {o₁ o₂ o₃ : MapOrder} {sign : Signer} {m m' : LXMessage} {k : Packing}
    (run : PackRun cr now o₁ o₂ sign m m' k) {dst inner : Bytes} {p : Parsed}
    (hparse : parseInner cr o₃ dst inner = .ok p) (hsigned : p.signedPart = k.signedPart) :
    p.msg.hash = m'.hash := by
  obtain ⟨-, -, vs, hashed, pl, -, -, rfl⟩ := parseInner_ok_iff.mp hparse
  have hhash : m'.hash =
      cr.sha256 (hashedPart m.destinationHash m.sourceHash (0x94 :: run.body)) :=
    congrArg LXMessage.hash run.message_eq
  rw [run.signedPart_eq] at hsigned
  rw [hhash]
  exact (List.append_inj' hsigned (by
    simp only [inboundMessage, cr.sha256_length])).2

/-- Sender and receiver agree on hash and signed bytes exactly when the message
has no stamp or both encodings of its payload are alike; and then an honest
signature verifies. -/
theorem pack_unpack_agree_iff {Identity : Type} (cr : Crypto Identity) (now : BitVec 64)
    (o₁ o₂ o₃ : MapOrder) (sign : Signer) (m m' : LXMessage) (k : Packing)
    (resolver : Option (Resolver Identity)) (r : LXMessage)
    (hpack : m.pack cr now o₁ o₂ (some sign) = (m', .ok k))
    (hunpack : (unpackFromBytes cr o₃ m'.destinationHash (m'.packed.drop destinationLength)
      resolver).msg = some r) :
    ((r.hash = m'.hash ∧
        verifiedPart cr o₃ m'.destinationHash (m'.packed.drop destinationLength) =
          some k.signedPart) ↔
      m.stamp = [] ∨ (m.withTimestamp now).EncodesAlike o₁ o₂) ∧
    (m.stamp = [] ∨ (m.withTimestamp now).EncodesAlike o₁ o₂ →
      ∀ (id : Identity) (resolve : Resolver Identity),
        (∀ data sg, sign data = .ok sg → cr.verify id data sg = true) →
        resolve m.sourceHash = .ok (some id) →
        ∃ r', unpackFromBytes cr o₃ m'.destinationHash (m'.packed.drop destinationLength)
          (some resolve) = ⟨some r', none⟩ ∧ r'.signatureValidated = true) := by
  obtain ⟨run⟩ := pack_ok hpack
  have hdst : m'.destinationHash = m.destinationHash :=
    (congrArg LXMessage.destinationHash run.message_eq).trans rfl
  have hpacked : m'.packed = k.packed := (congrArg LXMessage.packed run.message_eq).trans rfl
  rw [hdst, hpacked] at hunpack ⊢
  obtain ⟨p, hparse, hverify⟩ := unpackFromBytes_msg_iff.mp hunpack
  have hr : r.hash = p.msg.hash := by rw [verifySource_msg hverify]
  have hpart : verifiedPart cr o₃ m.destinationHash (k.packed.drop destinationLength) =
      some p.signedPart := by
    rw [verifiedPart, hparse]
    rfl
  rw [hpart, Option.some.injEq, hr, ← run.verifiedPart_eq_iff hparse]
  constructor
  · exact ⟨And.right, fun h => ⟨run.hash_eq hparse h, h⟩⟩
  · intro hsigned id resolve hhonest hresolve
    have hver : cr.verify id p.signedPart run.signature = true := by
      rw [hsigned, run.signedPart_eq]
      exact hhonest _ _ run.sign_eq
    obtain ⟨hsource, hsignature⟩ := run.parsed_source hparse
    simp only [unpackFromBytes, hparse, verifySource, hsource, hsignature, hresolve, hver, if_true]
    exact ⟨_, rfl, rfl⟩

/-- A verifier for one signer, whose signature is the end of the data it signs. -/
def tailSignature (data : Bytes) : Bytes := (data.reverse ++ List.replicate 64 0).take 64

def tailCrypto : Crypto Unit :=
  { plainCrypto with verify := fun _ data signature => signature = tailSignature data }

def tailSigner : Signer := fun data => .ok (tailSignature data)

def tailResolver : Resolver Unit := fun _ => .ok (some ())

/-- A message with two fields and a stamp. -/
def stampedMessage : LXMessage where
  destinationHash := List.replicate 16 1
  sourceHash := List.replicate 16 2
  title := some [0x41]
  fields := some [(1, .scalar .nil), (2, .scalar (.bool true))]
  timestamp := 1
  stamp := [7]

/-- With its two fields listed in two orders, the stamped message is accepted
with another hash and other signed bytes than the sender's, and the sender's own
signature does not verify. -/
theorem stamped_fields_disagree :
    ∃ (m' : LXMessage) (k : Packing) (r : LXMessage),
      stampedMessage.pack tailCrypto 1 .listed .reversed (some tailSigner) = (m', .ok k) ∧
      (unpackFromBytes tailCrypto .listed m'.destinationHash (m'.packed.drop destinationLength)
        none).msg = some r ∧
      r.hash ≠ m'.hash ∧
      verifiedPart tailCrypto .listed m'.destinationHash (m'.packed.drop destinationLength) ≠
        some k.signedPart ∧
      (unpackFromBytes tailCrypto .listed m'.destinationHash (m'.packed.drop destinationLength)
        (some tailResolver)).err = some .signatureInvalid := by
  have hrun :
      let packed := stampedMessage.pack tailCrypto 1 .listed .reversed (some tailSigner)
      let inner := packed.1.packed.drop destinationLength
      (packed.2.toOption.bind fun k =>
        (unpackFromBytes tailCrypto .listed packed.1.destinationHash inner none).msg.map fun r =>
          (r.hash == packed.1.hash,
            verifiedPart tailCrypto .listed packed.1.destinationHash inner == some k.signedPart,
            (unpackFromBytes tailCrypto .listed packed.1.destinationHash inner
              (some tailResolver)).err)) =
      some (false, false, some .signatureInvalid) := by decide +kernel
  obtain ⟨k, hk, hr⟩ := Option.bind_eq_some_iff.mp hrun
  obtain ⟨r, hr, hne⟩ := Option.map_eq_some_iff.mp hr
  simp only [Prod.mk.injEq, beq_eq_false_iff_ne] at hne
  exact ⟨_, k, r, Prod.ext rfl (Except.toOption_eq_some_iff.mp hk), hr, hne⟩

/-- The same message, with its fields listed in one order. -/
theorem stamped_fields_agree :
    ∃ (m' : LXMessage) (k : Packing) (r : LXMessage),
      stampedMessage.pack tailCrypto 1 .reversed .reversed (some tailSigner) = (m', .ok k) ∧
      (unpackFromBytes tailCrypto .listed m'.destinationHash (m'.packed.drop destinationLength)
        none).msg = some r ∧
      r.hash = m'.hash ∧
      verifiedPart tailCrypto .listed m'.destinationHash (m'.packed.drop destinationLength) =
        some k.signedPart := by
  have hrun :
      let packed := stampedMessage.pack tailCrypto 1 .reversed .reversed (some tailSigner)
      (packed.2.toOption.bind fun k =>
        (unpackFromBytes tailCrypto .listed packed.1.destinationHash
          (packed.1.packed.drop destinationLength) none).msg.map fun _ => ()) = some () := by
    decide +kernel
  obtain ⟨k, hk, hr⟩ := Option.bind_eq_some_iff.mp hrun
  obtain ⟨r, hr, -⟩ := Option.map_eq_some_iff.mp hr
  have hpack : stampedMessage.pack tailCrypto 1 .reversed .reversed (some tailSigner) =
      (_, .ok k) := Prod.ext rfl (Except.toOption_eq_some_iff.mp hk)
  refine ⟨_, k, r, hpack, hr, (pack_unpack_agree_iff tailCrypto 1 .reversed .reversed .listed
    tailSigner stampedMessage _ k none r hpack hr).1.mpr (.inr ⟨rfl, fun b hb => ?_⟩)⟩
  refine payloadBody_areValues ?_ ?_ ?_ hb
  · rintro t ⟨⟩; decide
  · rintro c ⟨⟩
  · simp [stampedMessage, fieldsAny, FieldMap.toAny, Any.Fits, Any.forall_map_iff, Any.LengthFits,
      Any.Forall, Scalar.Fits, byteKey, LXMessage.withTimestamp]

end Lxmf
