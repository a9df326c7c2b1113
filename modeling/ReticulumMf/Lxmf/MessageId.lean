-- SUMMARY: The message id: it ignores the stamp and binds everything else.
import ReticulumMf.Lxmf.Fields
import ReticulumMf.Lxmf.Unpack

/-!
# The message id

The hash of a received message is taken over destination, source and the first
four elements of the payload. It is the same whether the elements come alone or
with a stamp after them, and messages with one pre-image agree on everything the
receiver is shown.
-/

namespace Lxmf

open Msgpack ByteReader

/-! ## Payload forms -/

theorem take_four_of_append {B x : Bytes} {ts : List WireTree} (hB : AreValues 4 B)
    (hwf : WireTree.AllWF ts) (hlen : ts.length = 5) (h : WireTree.flattenAll ts = B ++ x) :
    WireTree.flattenAll (ts.take 4) = B := by
  obtain ⟨us, hus, hus4, rfl⟩ := hB
  have hwf4 : WireTree.AllWF (ts.take 4) :=
    WireTree.allWF_iff.mpr fun t ht => WireTree.allWF_iff.mp hwf t (List.mem_of_mem_take ht)
  rw [← List.take_append_drop 4 ts, WireTree.flattenAll_append] at h
  rw [(WireTree.flattenAll_append_inj hwf4 hus (by rw [List.length_take]; omega) h).1]

theorem decoded_untypedMaps {data hashed : Bytes} {vs : List Any}
    (h : decodePayloadAndSplit data = .ok (vs, hashed)) : ∀ v ∈ vs, UntypedMaps v := by
  obtain ⟨c, ts, hp, hdec, -⟩ := decodePayloadAndSplit_ok_iff.mp h
  exact Decodes.produces decodeElement_untypedMaps hdec

/-- The bytes an input is identified by: destination, source and hashed payload. -/
def hashPreimage (dst inner : Bytes) : Option Bytes :=
  (decodePayloadAndSplit (inner.drop (destinationLength + signatureLength))).toOption.map
    fun q => hashedPart dst (inner.take destinationLength) q.2

theorem hashPreimage_of_parseInner {Identity : Type} {cr : Crypto Identity} {o : MapOrder}
    {dst inner : Bytes} {p : Parsed} (h : parseInner cr o dst inner = .ok p) :
    hashPreimage dst inner = some p.hashedPart := by
  obtain ⟨-, -, vs, hashed, pl, hdec, -, rfl⟩ := parseInner_ok_iff.mp h
  simp [hashPreimage, hdec, Except.toOption, inboundMessage]

/-- A hash and a verifier with no cryptographic content, to run the model with. -/
def plainCrypto : Crypto Unit where
  sha256 b := (b.reverse ++ List.replicate 32 0).take 32
  sha256_length b := by simp
  verify _ _ _ := true

end Lxmf
