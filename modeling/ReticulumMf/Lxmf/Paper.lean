-- SUMMARY: Paper messages as lxm:// URIs, and that decoding undoes encoding.
import ReticulumMf.Lib.Base64
import ReticulumMf.Lib.Utf8
import ReticulumMf.Lxmf.Delivery

/-!
# Paper URIs

A paper message is written as a URI of at most as many characters as a QR code holds. The
encoder trims the padding of the Base64 text; the decoder trims whatever padding it finds and
adds what the length calls for. It looks for an empty payload before it trims, so a payload of
padding or of line breaks is let through (`decoded_payload_encodable_iff`).
-/

namespace Lxmf

/-- The bytes of the scheme. -/
def uriSchemaPrefixBytes : Bytes := Utf8.encode uriSchemaPrefix.toList

def urlAlphabet : List UInt8 :=
  Utf8.encode "ABCDEFGHIJKLMNOPQRSTUVWXYZabcdefghijklmnopqrstuvwxyz0123456789-_".toList

/-- The alphabet of `base64.URLEncoding`. -/
def urlEncoding : Base64.Alphabet where
  chars := urlAlphabet
  length_eq := by decide +kernel
  nodup := by decide +kernel
  pad_notMem := by decide +kernel
  noLineBreak := by decide +kernel

inductive PaperError where
  | emptyPayload
  | payloadTooLong (size mdu : Nat)
  | missingPrefix
  | emptyURI
  | invalidBase64
  | decodedTooLong (size mdu : Nat)
  deriving DecidableEq, Repr

/-- `strings.TrimRight(s, "=")`. -/
def trimPadding (s : Bytes) : Bytes := s.rdropWhile (· = Base64.pad)

def paperURI (paperPacked : Bytes) : Except PaperError Bytes :=
  if paperPacked.length = 0 then .error .emptyPayload
  else if paperPacked.length > paperMDU then .error (.payloadTooLong paperPacked.length paperMDU)
  else
    let enc := Base64.encode urlEncoding paperPacked
    let enc := trimPadding enc
    .ok (uriSchemaPrefixBytes ++ enc)

def decodePaperURI (uri : Bytes) : Except PaperError Bytes :=
  if ¬uriSchemaPrefixBytes.isPrefixOf uri then .error .missingPrefix
  else
    let encoded := uri.drop uriSchemaPrefixBytes.length
    if encoded = [] then .error .emptyURI
    else
      let encoded := trimPadding encoded
      let encoded :=
        if encoded.length % 4 ≠ 0 then encoded ++ List.replicate (4 - encoded.length % 4) Base64.pad else encoded
      match Base64.decode urlEncoding encoded with
      | none => .error .invalidBase64
      | some decoded =>
        if decoded.length > paperMDU then .error (.decodedTooLong decoded.length paperMDU) else .ok decoded

/-! ## What the decoder accepts -/

/-- The padding that the decoder adds. -/
def repad (encoded : Bytes) : Bytes :=
  if encoded.length % 4 ≠ 0 then encoded ++ List.replicate (4 - encoded.length % 4) Base64.pad else encoded

theorem decodePaperURI_ok_iff {u b : Bytes} :
    decodePaperURI u = .ok b ↔
      ∃ encoded, u = uriSchemaPrefixBytes ++ encoded ∧ encoded ≠ [] ∧
        Base64.decode urlEncoding (repad (trimPadding encoded)) = some b ∧ b.length ≤ paperMDU := by
  constructor
  · intro h
    unfold decodePaperURI at h
    split at h
    · cases h
    rename_i hscheme
    obtain ⟨encoded, rfl⟩ := List.isPrefixOf_iff_prefix.mp (not_not.mp hscheme)
    simp only [List.drop_left] at h
    split at h
    · cases h
    rename_i hne
    split at h
    · cases h
    rename_i decoded hdecoded
    split at h <;> cases h
    exact ⟨encoded, rfl, hne, hdecoded, Nat.not_lt.mp ‹_›⟩
  · rintro ⟨encoded, rfl, hne, hdecoded, hmax⟩
    have hscheme : uriSchemaPrefixBytes.isPrefixOf (uriSchemaPrefixBytes ++ encoded) = true :=
      List.isPrefixOf_iff_prefix.mpr (List.prefix_append ..)
    rw [repad] at hdecoded
    rw [decodePaperURI, if_neg (not_not.mpr hscheme)]
    simp only [List.drop_left, if_neg hne, hdecoded, if_neg (Nat.not_lt.mpr hmax)]

/-! ## The round trip -/

theorem trimPadding_encode (b : Bytes) : trimPadding (Base64.encode urlEncoding b) = Base64.body urlEncoding b := by
  rw [Base64.encode_eq]
  exact Base64.trim_body b _

theorem paperURI_ok {b : Bytes} (hpos : 1 ≤ b.length) (hmax : b.length ≤ paperMDU) :
    paperURI b = .ok (uriSchemaPrefixBytes ++ Base64.body urlEncoding b) := by
  rw [paperURI, if_neg (by omega), if_neg (by omega)]
  simp only [trimPadding_encode]

/-- The padding is restored from the length. -/
theorem repad_body (b : Bytes) : repad (Base64.body urlEncoding b) = Base64.encode urlEncoding b := by
  rw [repad, Base64.encode_eq, Base64.length_body]
  have hthree : b.length % 3 = 0 ∨ b.length % 3 = 1 ∨ b.length % 3 = 2 := by omega
  split
  · have hcount : 4 - (4 * b.length + 2) / 3 % 4 = Base64.padding b.length := by
      unfold Base64.padding
      rcases hthree with h | h | h <;> omega
    rw [hcount]
  · have hnone : Base64.padding b.length = 0 := by
      unfold Base64.padding
      omega
    rw [hnone, List.replicate_zero, List.append_nil]

theorem decodePaperURI_body {b : Bytes} (hpos : 1 ≤ b.length) (hmax : b.length ≤ paperMDU) (n : Nat) :
    decodePaperURI (uriSchemaPrefixBytes ++ Base64.body urlEncoding b ++ List.replicate n Base64.pad) = .ok b := by
  have hlen : (Base64.body urlEncoding b).length = (4 * b.length + 2) / 3 := Base64.length_body b
  have hne : Base64.body urlEncoding b ++ List.replicate n Base64.pad ≠ [] := by
    intro hnil
    have hzero := congrArg List.length hnil
    rw [List.length_append, hlen] at hzero
    simp only [List.length_nil] at hzero
    omega
  have hdecoded : Base64.decode urlEncoding
      (repad (trimPadding (Base64.body urlEncoding b ++ List.replicate n Base64.pad))) = some b := by
    rw [trimPadding, Base64.trim_body, repad_body, Base64.decode_encode]
  exact decodePaperURI_ok_iff.mpr ⟨_, List.append_assoc .., hne, hdecoded, hmax⟩

/-- A payload that is not empty and not longer than `PaperMDU` has a URI without padding that
fits in a QR code, and it comes back from the URI with any padding. -/
theorem paper_uri_round_trip {b : Bytes} (hpos : 1 ≤ b.length) (hmax : b.length ≤ paperMDU) :
    ∃ uri, paperURI b = .ok uri ∧ Base64.pad ∉ uri ∧ uri.length ≤ qrMaxStorage ∧
      ∀ n, decodePaperURI (uri ++ List.replicate n Base64.pad) = .ok b := by
  refine ⟨_, paperURI_ok hpos hmax, ?_, ?_, decodePaperURI_body hpos hmax⟩
  · have hscheme : Base64.pad ∉ uriSchemaPrefixBytes := by decide +kernel
    intro hmem
    rcases List.mem_append.mp hmem with h | h
    · exact hscheme h
    · exact Base64.pad_notMem_body b h
  · have hscheme : uriSchemaPrefixBytes.length = 6 := by decide +kernel
    have hmdu : paperMDU = 2210 := by decide +kernel
    rw [List.length_append, Base64.length_body, hscheme, qrMaxStorage]
    omega

/-- The longest payload gives a URI of exactly the size of a QR code. -/
theorem longest_paper_uri :
    ∃ uri, paperURI (List.replicate 2210 0) = .ok uri ∧ Base64.pad ∉ uri ∧ uri.length ≤ qrMaxStorage ∧
      ∀ n, decodePaperURI (uri ++ List.replicate n Base64.pad) = .ok (List.replicate 2210 0) :=
  paper_uri_round_trip (by rw [List.length_replicate]; decide) (by rw [List.length_replicate]; decide +kernel)

/-! ## Payloads that can be encoded again -/

/-- Before the padding stand only line breaks, four, eight or more of them, or nothing. -/
structure BlankPayload (encoded : Bytes) : Prop where
  lineBreaks : ∀ c ∈ trimPadding encoded, Base64.isLineBreak c = true
  groups : (trimPadding encoded).length % 4 = 0

theorem decode_repad_eq_nil_iff {encoded : Bytes} :
    Base64.decode urlEncoding (repad (trimPadding encoded)) = some [] ↔ BlankPayload encoded := by
  rw [Base64.decode_eq_some_nil_iff, repad]
  constructor
  · intro h
    split at h
    · -- padding that is added is not a line break
      rename_i hrest
      have hpad := h Base64.pad (List.mem_append_right _ (List.mem_replicate.mpr ⟨by omega, rfl⟩))
      cases hpad
    · rename_i hgroups
      exact ⟨h, not_not.mp hgroups⟩
  · intro h
    rw [if_neg (not_not.mpr h.groups)]
    exact h.lineBreaks

/-- What is decoded from a string could have been encoded, and comes back from its own URI,
exactly if the string is not a scheme with a blank payload. -/
theorem decoded_payload_encodable_iff (u : Bytes) :
    (∀ b, decodePaperURI u = .ok b →
      b ≠ [] ∧ b.length ≤ paperMDU ∧ ∃ uri, paperURI b = .ok uri ∧ decodePaperURI uri = .ok b) ↔
      ¬∃ encoded, u = uriSchemaPrefixBytes ++ encoded ∧ encoded ≠ [] ∧ BlankPayload encoded := by
  constructor
  · rintro h ⟨encoded, rfl, hne, hblank⟩
    have haccepted := decodePaperURI_ok_iff.mpr
      ⟨encoded, rfl, hne, decode_repad_eq_nil_iff.mpr hblank, Nat.zero_le _⟩
    exact (h [] haccepted).1 rfl
  · intro h b hb
    obtain ⟨encoded, hu, hne, hdecoded, hmax⟩ := decodePaperURI_ok_iff.mp hb
    have hpayload : b ≠ [] := by
      rintro rfl
      exact h ⟨encoded, hu, hne, decode_repad_eq_nil_iff.mp hdecoded⟩
    have hpos : 1 ≤ b.length := List.length_pos_iff.mpr hpayload
    have hback := decodePaperURI_body hpos hmax 0
    rw [List.replicate_zero, List.append_nil] at hback
    exact ⟨hpayload, hmax, _, paperURI_ok hpos hmax, hback⟩

/-- "lxm://=" is accepted, and decodes to a payload that cannot be encoded. -/
theorem padding_only_accepted :
    ∃ b, decodePaperURI (uriSchemaPrefixBytes ++ [Base64.pad]) = .ok b ∧
      paperURI b = .error .emptyPayload :=
  ⟨[], by decide +kernel, rfl⟩

end Lxmf
