-- SUMMARY: How a received message is parsed and verified, as inversion lemmas.
import ReticulumMf.Lxmf.Message
import ReticulumMf.Lxmf.Split

/-!
# Unpacking

What `applyPayload`, `parseInner` and `verifySource` return, and when. The
hashed bytes of an accepted payload are themselves a payload, of its first four
elements (`decodePayloadAndSplit_hashed`).
-/

namespace Lxmf

open Msgpack ByteReader

/-! ## Parsing -/

theorem applyPayload_ok_iff {o : MapOrder} {vs : List Any} {p : Payload} :
    applyPayload o vs = .ok p ↔ ∃ p0 p1 p2 p3 ps, vs = p0 :: p1 :: p2 :: p3 :: ps ∧
      asTimestamp p0 = .ok p.timestamp ∧ asBytes p1 = .ok p.title ∧ asBytes p2 = .ok p.content ∧
      asFields (o.visit [] p3) = .ok p.fields ∧ asStamp ps = .ok p.stamp := by
  unfold applyPayload
  split
  · rename_i p0 p1 p2 p3 ps
    simp only [Except.bind_eq_ok_iff, naming, Except.mapError_eq_ok_iff, Except.pure_eq_ok_iff]
    constructor
    · rintro ⟨ts, hts, title, htitle, content, hcontent, fields, hfields, stamp, hstamp, rfl⟩
      exact ⟨p0, p1, p2, p3, ps, rfl, hts, htitle, hcontent, hfields, hstamp⟩
    · rintro ⟨_, _, _, _, _, heq, hts, htitle, hcontent, hfields, hstamp⟩
      cases heq
      exact ⟨_, hts, _, htitle, _, hcontent, _, hfields, _, hstamp, rfl⟩
  · rename_i hshort
    simp only [reduceCtorEq, false_iff]
    rintro ⟨p0, p1, p2, p3, ps, rfl, -⟩
    exact hshort p0 p1 p2 p3 ps rfl

/-- The first four elements alone decode to the same content. -/
theorem applyPayload_take_four {o : MapOrder} {vs : List Any} {p : Payload}
    (h : applyPayload o vs = .ok p) :
    applyPayload o (vs.take 4) = .ok { p with stamp := none } ∧ (vs.take 4).length = 4 := by
  obtain ⟨p0, p1, p2, p3, ps, rfl, hts, htitle, hcontent, hfields, -⟩ := applyPayload_ok_iff.mp h
  exact ⟨applyPayload_ok_iff.mpr
    ⟨p0, p1, p2, p3, [], rfl, hts, htitle, hcontent, hfields, rfl⟩, rfl⟩

theorem parseInner_ok_iff {Identity : Type} {cr : Crypto Identity} {o : MapOrder}
    {dst inner : Bytes} {p : Parsed} :
    parseInner cr o dst inner = .ok p ↔
      dst.length = destinationLength ∧ destinationLength + signatureLength ≤ inner.length ∧
      ∃ vs hashed pl,
        decodePayloadAndSplit (inner.drop (destinationLength + signatureLength)) = .ok (vs, hashed) ∧
        applyPayload o vs = .ok pl ∧ p = inboundMessage cr dst inner hashed pl := by
  unfold parseInner
  split
  · simp_all
  split
  · simp only [reduceCtorEq, false_iff]
    omega
  rename_i hdst hlen
  simp only [Except.bind_eq_ok_iff, Except.mapError_eq_ok_iff, Except.pure_eq_ok_iff]
  constructor
  · rintro ⟨⟨vs, hashed⟩, hdec, pl, happ, rfl⟩
    exact ⟨by omega, by omega, vs, hashed, pl, hdec, happ, rfl⟩
  · rintro ⟨-, -, vs, hashed, pl, hdec, happ, rfl⟩
    exact ⟨(vs, hashed), hdec, pl, happ, rfl⟩

theorem take_inner {s g data : Bytes} (hs : s.length = destinationLength) :
    (s ++ g ++ data).take destinationLength = s := by
  rw [← hs, List.append_assoc, List.take_left]

theorem signature_inner {s g data : Bytes} (hs : s.length = destinationLength)
    (hg : g.length = signatureLength) :
    ((s ++ g ++ data).drop destinationLength).take signatureLength = g := by
  rw [← hs, ← hg, List.append_assoc, List.drop_left, List.take_left]

theorem drop_inner {s g data : Bytes} (hs : s.length = destinationLength)
    (hg : g.length = signatureLength) :
    (s ++ g ++ data).drop (destinationLength + signatureLength) = data := by
  rw [← hs, ← hg, ← List.length_append, List.drop_left]

/-! ## The hashed bytes -/

/-- The hashed bytes are an array of the first four elements. -/
theorem IsPayload.hashed_isPayload {data : Bytes} {c : Code} {ts : List WireTree}
    (h : IsPayload data c ts) : ∃ c', IsPayload (hashedBytes data ts) c' (ts.take 4) := by
  have hlen : (ts.take 4).length = 4 := by
    have := h.length
    rw [List.length_take]; omega
  rcases h.length with h4 | h5
  · have htake : ts.take 4 = ts := List.take_of_length_le (by omega)
    refine ⟨c, ?_⟩
    simpa only [hashedBytes, h4, if_true, htake] using h
  · refine ⟨.fixedArray 4, rfl, hlen, ?_, .inl hlen, ?_⟩
    · exact WireTree.allWF_iff.mpr fun t ht => WireTree.allWF_iff.mp h.wf t (List.mem_of_mem_take ht)
    · rw [hashedBytes, if_neg (by omega)]
      rfl

/-- Decoding the hashed bytes gives the first four elements back. -/
theorem decodePayloadAndSplit_hashed {data hashed : Bytes} {vs : List Any}
    (h : decodePayloadAndSplit data = .ok (vs, hashed)) :
    decodePayloadAndSplit hashed = .ok (vs.take 4, hashed) := by
  obtain ⟨c, ts, hp, hdec, rfl⟩ := decodePayloadAndSplit_ok_iff.mp h
  obtain ⟨c', hp'⟩ := hp.hashed_isPayload
  have hlen : (ts.take 4).length = 4 := by
    have := hp.length
    rw [List.length_take]; omega
  exact decodePayloadAndSplit_ok_iff.mpr ⟨c', ts.take 4, hp', List.forall₂_take 4 hdec, by
    rw [hashedBytes.eq_def (hashedBytes data ts), if_pos hlen]⟩

theorem unpackFromBytes_msg_iff {Identity : Type} {cr : Crypto Identity} {o : MapOrder}
    {dst inner : Bytes} {resolver : Option (Resolver Identity)} {m : LXMessage} :
    (unpackFromBytes cr o dst inner resolver).msg = some m ↔
      ∃ p, parseInner cr o dst inner = .ok p ∧ (verifySource cr resolver p).msg = some m := by
  unfold unpackFromBytes
  cases parseInner cr o dst inner <;> simp

/-- The four ways in which the check of a parsed message ends. -/
theorem verifySource_cases {Identity : Type} (cr : Crypto Identity)
    (resolver : Option (Resolver Identity)) (p : Parsed) :
    (∃ resolve id, resolver = some resolve ∧ resolve p.msg.sourceHash = .ok (some id) ∧
      cr.verify id p.signedPart p.msg.signature = true ∧
      verifySource cr resolver p = ⟨some { p.msg with signatureValidated := true }, none⟩) ∨
    ((∀ resolve id, resolver = some resolve → resolve p.msg.sourceHash ≠ .ok (some id)) ∧
      verifySource cr resolver p =
        ⟨some { p.msg with unverifiedReason := unverifiedSourceUnknown }, none⟩) ∨
    (∃ resolve id, resolver = some resolve ∧ resolve p.msg.sourceHash = .ok (some id) ∧
      cr.verify id p.signedPart p.msg.signature = false ∧
      verifySource cr resolver p =
        ⟨some { p.msg with unverifiedReason := unverifiedSignatureInvalid },
          some .signatureInvalid⟩) ∨
    (∃ resolve e, resolver = some resolve ∧ resolve p.msg.sourceHash = .error e ∧
      verifySource cr resolver p = ⟨none, some (.resolve e)⟩) := by
  cases resolver with
  | none => exact .inr (.inl ⟨by simp, rfl⟩)
  | some resolve =>
    cases hres : resolve p.msg.sourceHash with
    | error e => exact .inr (.inr (.inr ⟨resolve, e, rfl, hres, by simp [verifySource, hres]⟩))
    | ok id? =>
      cases id? with
      | none =>
        refine .inr (.inl ⟨?_, by simp [verifySource, hres]⟩)
        rintro _ id ⟨⟩ h
        cases hres.symm.trans h
      | some id =>
        cases hver : cr.verify id p.signedPart p.msg.signature with
        | true =>
          exact .inl ⟨resolve, id, rfl, hres, hver, by simp [verifySource, hres, hver]⟩
        | false =>
          exact .inr (.inr (.inl ⟨resolve, id, rfl, hres, hver,
            by simp [verifySource, hres, hver]⟩))

/-- The message is handed out unless the resolver fails. -/
theorem verifySource_msg_iff {Identity : Type} {cr : Crypto Identity}
    {resolver : Option (Resolver Identity)} {p : Parsed} :
    (∃ m, (verifySource cr resolver p).msg = some m) ↔
      ∀ resolve, resolver = some resolve → ∀ e, resolve p.msg.sourceHash ≠ .error e := by
  cases resolver with
  | none => simp [verifySource]
  | some f =>
    simp only [Option.some.injEq, forall_eq', verifySource]
    cases hf : f p.msg.sourceHash with
    | error e => simp
    | ok id? =>
      cases id? with
      | none => simp
      | some id => by_cases hver : cr.verify id p.signedPart p.msg.signature <;> simp [hver]

/-- Checking the signature changes nothing but the verdict. -/
theorem verifySource_msg {Identity : Type} {cr : Crypto Identity}
    {resolver : Option (Resolver Identity)} {p : Parsed} {m : LXMessage}
    (h : (verifySource cr resolver p).msg = some m) :
    m = { p.msg with
      signatureValidated := m.signatureValidated, unverifiedReason := m.unverifiedReason } := by
  rcases verifySource_cases cr resolver p with
    ⟨_, _, -, -, -, hv⟩ | ⟨-, hv⟩ | ⟨_, _, -, -, -, hv⟩ | ⟨_, _, -, -, hv⟩ <;>
    · rw [hv] at h
      first
      | cases h; rfl
      | cases h

end Lxmf
