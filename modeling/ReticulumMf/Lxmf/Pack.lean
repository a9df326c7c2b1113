-- SUMMARY: What a successful Pack has encoded, hashed and signed.
import ReticulumMf.Msgpack.Order
import ReticulumMf.Lxmf.MessageId

/-!
# Packing, step by step

The payload of a message is an array header, the bytes of its first four
elements (`LXMessage.payloadBody`), and the stamp if there is one. Only the
fields in it depend on the order in which maps are iterated. `PackRun` says
everything a successful `Pack` has computed.
-/

namespace Lxmf

open Msgpack ByteReader

/-! ## The encoded payload -/

def encodeGoBytes : GoBytes → Bytes
  | none => [Code.nil.toByte]
  | some b => encodeBytesLen b.length ++ b

/-- The fields as they are written in one encoding of the payload. -/
def LXMessage.encodeFields (o : MapOrder) (m : LXMessage) : Except EncodeError Bytes :=
  encode true (o.visit [3] (fieldsAny m.fields))

/-- The bytes of timestamp, title, content and fields in one encoding of the payload. -/
def LXMessage.payloadBody (o : MapOrder) (m : LXMessage) : Except EncodeError Bytes :=
  (encodeScalar true (.float64 m.timestamp) ++ encodeGoBytes m.title ++
    encodeGoBytes m.content ++ ·) <$> m.encodeFields o

theorem encode_visit_goBytesAny (o : MapOrder) (path : List Nat) (b : GoBytes) :
    encode true (o.visit path (goBytesAny b)) = .ok (encodeGoBytes b) := by
  cases b <;> rfl

theorem encodePayload_unstamped (o : MapOrder) (m : LXMessage) :
    encodePayload o (m.payloadList false) = (0x94 :: ·) <$> m.payloadBody o := by
  have hheader : encodeArrayLen 4 = [0x94] := by decide
  cases hf : m.encodeFields o <;>
    simp_all [encodePayload, LXMessage.payloadList, MapOrder.visit, MapOrder.visitAll, encode,
      encodeAll, encode_visit_goBytesAny, LXMessage.payloadBody, LXMessage.encodeFields, bind,
      Except.bind, pure, Except.pure, Functor.map, Except.map]

theorem encodePayload_stamped (o : MapOrder) (m : LXMessage) (h : m.stamp ≠ []) :
    encodePayload o (m.payloadList true) =
      (fun b => 0x95 :: (b ++ encodeGoBytes (some m.stamp))) <$> m.payloadBody o := by
  have hheader : encodeArrayLen 5 = [0x95] := by decide
  cases hf : m.encodeFields o <;>
    simp_all [encodePayload, LXMessage.payloadList, MapOrder.visit, MapOrder.visitAll, encode,
      encodeAll, encode_visit_goBytesAny, LXMessage.payloadBody, LXMessage.encodeFields, bind,
      Except.bind, pure, Except.pure, Functor.map, Except.map, encodeGoBytes]

theorem payloadBody_eq_iff {o₁ o₂ : MapOrder} {m : LXMessage} {b : Bytes}
    (h : m.payloadBody o₁ = .ok b) :
    m.payloadBody o₂ = .ok b ↔ m.encodeFields o₁ = m.encodeFields o₂ := by
  unfold LXMessage.payloadBody at *
  obtain ⟨f, hf, rfl⟩ := Except.map_eq_ok_iff.mp h
  rw [hf]
  constructor
  · intro h₂
    obtain ⟨f₂, hf₂, heq⟩ := Except.map_eq_ok_iff.mp h₂
    rw [hf₂, List.append_cancel_left heq]
  · intro h₂
    rw [← h₂]
    rfl

theorem payloadBody_length {o₁ o₂ : MapOrder} {m : LXMessage} {b b₂ : Bytes}
    (h : m.payloadBody o₁ = .ok b) (h₂ : m.payloadBody o₂ = .ok b₂) : b.length = b₂.length := by
  unfold LXMessage.payloadBody at h h₂
  obtain ⟨f, hf, rfl⟩ := Except.map_eq_ok_iff.mp h
  obtain ⟨f₂, hf₂, rfl⟩ := Except.map_eq_ok_iff.mp h₂
  simp only [List.length_append, encode_visit_length hf hf₂]

theorem encodeGoBytes_isValue {b : GoBytes} (h : ∀ c, b = some c → c.length < 2 ^ 32) :
    IsValue (encodeGoBytes b) := by
  cases b with
  | none => exact ⟨.leaf .nil [], by simp [WireTree.WF, WireTree.Sized, Code.layout], rfl⟩
  | some c =>
    refine ⟨.leaf (.bin c.length) c, Code.sized_bin (h c rfl), ?_⟩
    simp [encodeGoBytes, WireTree.flatten, encodeBytesLen_eq]

/-- Lengths below `2^32` are enough for the parts to read as four values. -/
theorem payloadBody_areValues {o : MapOrder} {m : LXMessage} {b : Bytes}
    (htitle : ∀ t, m.title = some t → t.length < 2 ^ 32)
    (hcontent : ∀ c, m.content = some c → c.length < 2 ^ 32)
    (hfields : (fieldsAny m.fields).Fits) (h : m.payloadBody o = .ok b) : AreValues 4 b := by
  obtain ⟨f, hf, rfl⟩ := Except.map_eq_ok_iff.mp h
  obtain ⟨t, ht, rfl⟩ := encode_ok_iff.mp hf
  have htime : IsValue (encodeScalar true (.float64 m.timestamp)) :=
    ⟨_, Scalar.wf_tree (s := .float64 m.timestamp) true True.intro,
      (Scalar.flatten_tree true _).symm⟩
  exact ((htime.areValues.append (encodeGoBytes_isValue htitle).areValues).append
    (encodeGoBytes_isValue hcontent).areValues).append
    (IsValue.areValues ⟨t, Any.tree_wf ht (hfields.visit o [3]), rfl⟩)

/-! ## A successful Pack -/

/-- What a successful `Pack` has done. -/
structure PackRun {Identity : Type} (cr : Crypto Identity) (now : BitVec 64) (o₁ o₂ : MapOrder)
    (sign : Signer) (m m' : LXMessage) (k : Packing) where
  body : Bytes
  signature : Bytes
  payload : Bytes
  destination_length : m.destinationHash.length = destinationLength
  source_length : m.sourceHash.length = destinationLength
  body_eq : (m.withTimestamp now).payloadBody o₁ = .ok body
  sign_eq : sign (hashedPart m.destinationHash m.sourceHash (0x94 :: body) ++
    cr.sha256 (hashedPart m.destinationHash m.sourceHash (0x94 :: body))) = .ok signature
  signature_length : signature.length = signatureLength
  payload_eq : m.stamp = [] ∧ payload = 0x94 :: body ∨
    m.stamp ≠ [] ∧ ∃ body₂, (m.withTimestamp now).payloadBody o₂ = .ok body₂ ∧
      payload = 0x95 :: (body₂ ++ encodeGoBytes (some m.stamp))
  packed_eq : k.packed = m.destinationHash ++ m.sourceHash ++ signature ++ payload
  signedPart_eq : k.signedPart = hashedPart m.destinationHash m.sourceHash (0x94 :: body) ++
    cr.sha256 (hashedPart m.destinationHash m.sourceHash (0x94 :: body))
  message_eq : m' = { m.withTimestamp now with
    hash := cr.sha256 (hashedPart m.destinationHash m.sourceHash (0x94 :: body))
    signature := signature
    signatureValidated := true
    packed := k.packed }

theorem pack_ok {Identity : Type} {cr : Crypto Identity} {now : BitVec 64} {o₁ o₂ : MapOrder}
    {sign : Signer} {m m' : LXMessage} {k : Packing}
    (h : m.pack cr now o₁ o₂ (some sign) = (m', .ok k)) :
    Nonempty (PackRun cr now o₁ o₂ sign m m' k) := by
  unfold LXMessage.pack at h
  simp only [encodePayload_unstamped] at h
  split at h
  · cases h
  split at h
  · cases h
  split at h
  · cases h
  rename_i hdst hsrc _ _ hencode
  obtain ⟨body, hbody, rfl⟩ := Except.map_eq_ok_iff.mp hencode
  split at h
  · cases h
  rename_i signature hsign
  split at h
  · cases h
  rename_i hsig
  split at h
  · cases h
  rename_i payload hpayload
  simp only [Prod.mk.injEq, Except.ok.injEq] at h
  obtain ⟨rfl, rfl⟩ := h
  refine ⟨⟨body, signature, payload, by omega, by omega, hbody, hsign, by omega, ?_, rfl, rfl, rfl⟩⟩
  by_cases hstamp : m.stamp = []
  · rw [if_pos (by exact hstamp), Except.ok.injEq] at hpayload
    exact .inl ⟨hstamp, hpayload.symm⟩
  · rw [if_neg (by exact hstamp)] at hpayload
    obtain ⟨body₂, hbody₂, rfl⟩ := Except.map_eq_ok_iff.mp
      ((encodePayload_stamped o₂ _ (by exact hstamp)).symm.trans hpayload)
    exact .inr ⟨hstamp, body₂, hbody₂, rfl⟩

theorem PackRun.inner_eq {Identity : Type} {cr : Crypto Identity} {now : BitVec 64}
    {o₁ o₂ : MapOrder} {sign : Signer} {m m' : LXMessage} {k : Packing}
    (run : PackRun cr now o₁ o₂ sign m m' k) :
    k.packed.drop destinationLength = m.sourceHash ++ run.signature ++ run.payload := by
  rw [run.packed_eq, ← run.destination_length]
  simp

end Lxmf
