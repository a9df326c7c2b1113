-- SUMMARY: Hash, Signature and Packed of a message along edits and packings.
import ReticulumMf.Lib.Transition
import ReticulumMf.Lxmf.PackUnpack

/-!
# Edits and packings

`Pack` assigns `Hash` before it asks the signer, and `Packed` at its end. A signer that fails
leaves the new hash beside the old packed bytes, and the message is then stored and stamped
under a hash that is not its own. When every signer that is asked signs, the three
agree in every state (`packed_described`).
-/

namespace Lxmf

open Msgpack Transition

variable {Identity : Type}

/-! ## Steps -/

inductive MessageEdit where
  | setTitle (title : GoBytes)
  | setContent (content : GoBytes)
  | setFields (fields : Option FieldMap)
  | setStamp (stamp : Bytes)
  | pack (now : BitVec 64) (o₁ o₂ : MapOrder) (signer : Option Signer)

def LXMessage.edit (cr : Crypto Identity) (m : LXMessage) : MessageEdit → LXMessage
  | .setTitle title => { m with title }
  | .setContent content => { m with content }
  | .setFields fields => { m with fields }
  | .setStamp stamp => { m with stamp }
  | .pack now o₁ o₂ signer => (m.pack cr now o₁ o₂ signer).1

/-- Every edit is possible in every state. -/
def editStep (cr : Crypto Identity) (m : LXMessage) (e : MessageEdit) : Option LXMessage := some (m.edit cr e)

/-- A payload without its stamp: all of it, or its first four values under a header of their
own. -/
inductive Unstamped : Bytes → Bytes → Prop
  | bare {data : Bytes} (h : data.head? ≠ some 0x95) : Unstamped data data
  | stamped {B x : Bytes} (h : AreValues 4 B) : Unstamped (0x95 :: (B ++ x)) (0x94 :: B)

/-- `Hash` and `Signature` are those of the bytes in `Packed`. -/
def LXMessage.Described (cr : Crypto Identity) (m : LXMessage) : Prop :=
  m.packed ≠ [] →
    m.signature = (m.packed.drop (2 * destinationLength)).take signatureLength ∧
    ∃ payload, Unstamped (m.packed.drop (2 * destinationLength + signatureLength)) payload ∧
      m.hash = cr.sha256 (hashedPart (m.packed.take destinationLength)
        ((m.packed.drop destinationLength).take destinationLength) payload)

/-- A `Pack` that fails changes none of the three. -/
def FailedPackKeeps (cr : Crypto Identity) (m : LXMessage) : MessageEdit → Prop
  | .pack now o₁ o₂ signer =>
    ∀ e, (m.pack cr now o₁ o₂ signer).2 = .error e →
      (m.pack cr now o₁ o₂ signer).1.hash = m.hash ∧
      (m.pack cr now o₁ o₂ signer).1.signature = m.signature ∧
      (m.pack cr now o₁ o₂ signer).1.packed = m.packed
  | _ => True

/-- The bytes that the signer gets for an encoded payload. -/
def signedPart (cr : Crypto Identity) (m : LXMessage) (body : Bytes) : Bytes :=
  hashedPart m.destinationHash m.sourceHash (0x94 :: body) ++
    cr.sha256 (hashedPart m.destinationHash m.sourceHash (0x94 :: body))

/-- A signer that is given an encoded payload signs it. A message with a stamp is encoded
alike both times. -/
structure SignsPack (cr : Crypto Identity) (now : BitVec 64) (o₁ o₂ : MapOrder) (signer : Option Signer)
    (m : LXMessage) : Prop where
  signs : ∀ sign body, signer = some sign → (m.withTimestamp now).payloadBody o₁ = .ok body →
    ∃ signature, sign (signedPart cr m body) = .ok signature ∧ signature.length = signatureLength
  alike : m.stamp ≠ [] → (m.withTimestamp now).EncodesAlike o₁ o₂

def SignedEdit (cr : Crypto Identity) (m : LXMessage) : MessageEdit → Prop
  | .pack now o₁ o₂ signer => SignsPack cr now o₁ o₂ signer m
  | _ => True

/-! ## One step -/

/-- The unstamped part of a payload is determined by it. -/
theorem Unstamped.unique {data u v : Bytes} (h : Unstamped data u) (h' : Unstamped data v) : u = v := by
  cases h with
  | bare hne =>
    cases h' with
    | bare => rfl
    | stamped => exact absurd rfl hne
  | @stamped B x hB =>
    generalize hdata : (0x95 :: (B ++ x) : Bytes) = data at h'
    cases h' with
    | bare hne =>
      rw [← hdata] at hne
      exact absurd rfl hne
    | @stamped B' x' hB' =>
      obtain ⟨ts, hwf, hlen, rfl⟩ := hB
      obtain ⟨ts', hwf', hlen', rfl⟩ := hB'
      have happend := (List.cons.inj hdata).2
      rw [(WireTree.flattenAll_append_inj hwf hwf' (hlen.trans hlen'.symm) happend).1]

section

variable {cr : Crypto Identity} {now : BitVec 64} {o₁ o₂ : MapOrder} {signer : Option Signer} {m : LXMessage}

/-- If the signer signs, a `Pack` fails only before it assigns the hash. -/
theorem SignsPack.failed_keeps (h : SignsPack cr now o₁ o₂ signer m) :
    FailedPackKeeps cr m (.pack now o₁ o₂ signer) := by
  intro e hfail
  cases signer with
  | none => exact ⟨rfl, rfl, rfl⟩
  | some sign =>
    simp only [LXMessage.pack] at hfail ⊢
    by_cases hdst : m.destinationHash.length ≠ destinationLength
    · simp only [if_pos hdst, and_self]
    by_cases hsrc : m.sourceHash.length ≠ destinationLength
    · simp only [if_neg hdst, if_pos hsrc, and_self]
    simp only [if_neg hdst, if_neg hsrc, encodePayload_unstamped] at hfail ⊢
    cases hbody : (m.withTimestamp now).payloadBody o₁ with
    | error e' => exact ⟨rfl, rfl, rfl⟩
    | ok body =>
      -- from here on the pack succeeds
      exfalso
      obtain ⟨signature, hsign, hlength⟩ := h.signs sign body rfl hbody
      have hsigned : sign (hashedPart (m.withTimestamp now).destinationHash (m.withTimestamp now).sourceHash
          (0x94 :: body) ++ cr.sha256 (hashedPart (m.withTimestamp now).destinationHash
            (m.withTimestamp now).sourceHash (0x94 :: body))) = .ok signature := hsign
      simp only [hbody, Functor.map, Except.map, hsigned, hlength, ne_eq, not_true_eq_false, if_false] at hfail
      by_cases hstamp : m.stamp = []
      · rw [if_pos (by exact hstamp)] at hfail
        cases hfail
      · have halike := h.alike hstamp
        have hbody₂ := (payloadBody_eq_iff hbody).mpr halike.1
        have hencode (hash signature : Bytes) (valid : Bool) :
            encodePayload o₂ (LXMessage.payloadList
              { m.withTimestamp now with hash, signature, signatureValidated := valid } true) =
            .ok (0x95 :: (body ++ encodeGoBytes (some m.stamp))) := by
          refine (encodePayload_stamped o₂ (m.withTimestamp now) hstamp).trans ?_
          rw [hbody₂]
          rfl
        rw [if_neg (by exact hstamp)] at hfail
        simp only [hencode] at hfail
        cases hfail

/-- A successful `Pack` describes what it has packed. -/
theorem SignsPack.described {sign : Signer} {m' : LXMessage} {k : Packing}
    (h : SignsPack cr now o₁ o₂ (some sign) m) (hpack : m.pack cr now o₁ o₂ (some sign) = (m', .ok k)) :
    m'.Described cr := by
  intro _
  obtain ⟨run⟩ := pack_ok hpack
  have hdst := run.destination_length
  have hsrc := run.source_length
  have hsig := run.signature_length
  have hpacked : m'.packed = m.destinationHash ++ (m.sourceHash ++ (run.signature ++ run.payload)) := by
    refine (congrArg LXMessage.packed run.message_eq).trans ?_
    simp only [run.packed_eq, List.append_assoc]
  have hpayload : m'.packed.drop (2 * destinationLength + signatureLength) = run.payload := by
    rw [hpacked, ← List.append_assoc, ← List.append_assoc]
    exact List.drop_left' (by simp only [List.length_append, hdst, hsrc, hsig]; omega)
  have hsignature : (m'.packed.drop (2 * destinationLength)).take signatureLength = run.signature := by
    rw [hpacked, ← List.append_assoc, List.drop_left' (by simp only [List.length_append, hdst, hsrc]; omega),
      List.take_left' hsig]
  have hdestination : m'.packed.take destinationLength = m.destinationHash := by
    rw [hpacked, List.take_left' hdst]
  have hsource : (m'.packed.drop destinationLength).take destinationLength = m.sourceHash := by
    rw [hpacked, List.drop_left' hdst, List.take_left' hsrc]
  rw [hsignature, hpayload, hdestination, hsource]
  refine ⟨congrArg LXMessage.signature run.message_eq, 0x94 :: run.body, ?_,
    congrArg LXMessage.hash run.message_eq⟩
  rcases run.payload_eq with ⟨-, hbare⟩ | ⟨hstamp, body₂, hbody₂, hstamped⟩
  · rw [hbare]
    exact .bare (by simp)
  · have halike := h.alike hstamp
    have hsame := (payloadBody_eq_iff run.body_eq).mpr halike.1
    rw [hstamped, Except.ok.inj (hbody₂.symm.trans hsame)]
    exact .stamped (halike.2 _ run.body_eq)

theorem Described.edit (hm : m.Described cr) {e : MessageEdit} (he : SignedEdit cr m e) : (m.edit cr e).Described cr := by
  cases e with
  | setTitle title => exact hm
  | setContent content => exact hm
  | setFields fields => exact hm
  | setStamp stamp => exact hm
  | pack now o₁ o₂ signer =>
    cases hpack : m.pack cr now o₁ o₂ signer with
    | mk m' result =>
      simp only [LXMessage.edit, hpack]
      cases result with
      | error e =>
        obtain ⟨hhash, hsignature, hpacked⟩ := SignsPack.failed_keeps he e (congrArg Prod.snd hpack)
        rw [hpack] at hhash hsignature hpacked
        simp only at hhash hsignature hpacked
        rw [LXMessage.Described, hhash, hsignature, hpacked]
        exact hm
      | ok k =>
        cases signer with
        | none => cases hpack
        | some sign => exact SignsPack.described he hpack

end

/-! ## All steps -/

/-- The three agree in every state, and no failed `Pack` changes them, as long as every
signer that is asked signs. -/
theorem packed_described {cr : Crypto Identity} {m : LXMessage} {es : List MessageEdit} (hm : m.Described cr)
    (hsigned : AllSteps (editStep cr) (SignedEdit cr) m es) :
    AllStates (editStep cr) (LXMessage.Described cr) m es ∧ AllSteps (editStep cr) (FailedPackKeeps cr) m es := by
  constructor
  · refine allStates_of_good (fun hs hstep hgood => ?_) hm hsigned
    cases hstep
    exact Described.edit hs hgood
  · refine hsigned.imp fun s e he => ?_
    cases e with
    | pack now o₁ o₂ signer => exact SignsPack.failed_keeps he
    | _ => trivial

/-- A message that has not been packed. -/
def shortNote : LXMessage where
  destinationHash := List.replicate 16 1
  sourceHash := List.replicate 16 2
  content := some [65]

theorem tailSigner_signsPack {cr : Crypto Identity} {now : BitVec 64} {o₁ o₂ : MapOrder} {m : LXMessage}
    (hstamp : m.stamp = []) : SignsPack cr now o₁ o₂ (some tailSigner) m where
  signs sign body hsign _ := by
    cases hsign
    exact ⟨_, rfl, by simp [tailSignature, signatureLength]⟩
  alike hne := absurd hstamp hne

/-- The message is packed, edited, and packed again without a signer. -/
def signedEdits : List MessageEdit :=
  [.pack 1 .listed .listed (some tailSigner), .setContent (some [66]), .pack 1 .listed .listed none]

theorem short_note_described :
    AllSteps (editStep plainCrypto) (SignedEdit plainCrypto) shortNote signedEdits ∧
      AllStates (editStep plainCrypto) (LXMessage.Described plainCrypto) shortNote signedEdits ∧
      AllSteps (editStep plainCrypto) (FailedPackKeeps plainCrypto) shortNote signedEdits := by
  have hsigned : AllSteps (editStep plainCrypto) (SignedEdit plainCrypto) shortNote signedEdits := by
    rintro m₁ ⟨⟩
    refine ⟨tailSigner_signsPack rfl, ?_⟩
    rintro m₂ ⟨⟩
    refine ⟨trivial, ?_⟩
    rintro m₃ ⟨⟩
    exact ⟨⟨nofun, fun hne => absurd rfl hne⟩, trivial⟩
  exact ⟨hsigned, packed_described (fun hne => absurd rfl hne) hsigned⟩

/-- The same with a signer that fails. -/
def unsignedEdits : List MessageEdit :=
  [.pack 1 .listed .listed (some tailSigner), .setContent (some [66]),
    .pack 1 .listed .listed (some fun _ => .error "no key")]

def unsignedEnd : LXMessage := unsignedEdits.foldl (LXMessage.edit plainCrypto) shortNote

/-- The hash is that of the new content, and the packed bytes are the old ones. -/
theorem failed_pack_changes_hash :
    shortNote.packed = [] ∧ run (editStep plainCrypto) shortNote unsignedEdits = some unsignedEnd ∧
      ¬unsignedEnd.Described plainCrypto ∧
      ¬AllSteps (editStep plainCrypto) (FailedPackKeeps plainCrypto) shortNote unsignedEdits := by
  refine ⟨rfl, rfl, fun h => ?_, fun h => ?_⟩
  · obtain ⟨-, payload, hpayload, hhash⟩ := h (by decide +kernel)
    have hbare : unsignedEnd.packed.drop (2 * destinationLength + signatureLength) = payload :=
      Unstamped.unique (.bare (by decide +kernel)) hpayload
    rw [← hbare] at hhash
    revert hhash
    decide +kernel
  · obtain ⟨-, h⟩ := h _ rfl
    obtain ⟨-, h⟩ := h _ rfl
    obtain ⟨h, -⟩ := h _ rfl
    obtain ⟨hhash, -⟩ := h (.sign "no key") (by decide +kernel)
    revert hhash
    decide +kernel

end Lxmf
