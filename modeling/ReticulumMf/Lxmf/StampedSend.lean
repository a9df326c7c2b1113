-- SUMMARY: The stamped send paths, and when the receiver finds the stamp valid.
import ReticulumMf.Lxmf.PackUnpack
import ReticulumMf.Lxmf.Stamp

/-!
# Sending with a stamp

`SendStamped`, `SendStampedDirect` and `SendStampedPropagated` pack the message,
search a stamp for its hash, and pack it again with the stamp. The stamp is
valid at the receiver when the three encodings involved (the one hashed for the
search, the one hashed and the one transmitted by the second `Pack`) write the
same bytes.
-/

namespace Lxmf

open Msgpack ByteReader

variable {Identity : Type}

/-! ## The send paths -/

/-- What a send reads besides the message: the signer, the recipient's
destination, clock and map orders of both `Pack` calls, and the candidates the
stamp search draws. -/
structure SendEnv where
  signer : Option Signer
  recipient : Bytes → Except String Unit
  now₁ : BitVec 64
  now₂ : BitVec 64
  a₁ : MapOrder
  a₂ : MapOrder
  b₁ : MapOrder
  b₂ : MapOrder
  candidates : List Candidate

inductive SendError where
  | destinationLength
  | recipient (e : String)
  | noIdentity
  | pack (e : PackError)
  | prePack (e : PackError)
  | stampGeneration (e : StampError)
  | rePack (e : PackError)
  | notPacked
  deriving DecidableEq, Repr

/-- A `Pack` whose failure ends the send. -/
def packOr (cr : Crypto Identity) (now : BitVec 64) (o₁ o₂ : MapOrder) (signer : Option Signer)
    (wrap : PackError → SendError) (m : LXMessage) : Except SendError LXMessage :=
  match m.pack cr now o₁ o₂ signer with
  | (_, .error e) => .error (wrap e)
  | (m, .ok _) => .ok m

def checkDestination (m : LXMessage) : Except SendError Unit :=
  if m.destinationHash.length ≠ destinationLength then .error .destinationLength else .ok ()

def checkIdentity (env : SendEnv) : Except SendError Unit :=
  if env.signer.isNone then .error .noIdentity else .ok ()

/-- `Send`, up to the message whose `Packed` is encrypted and transmitted. -/
def send (cr : Crypto Identity) (env : SendEnv) (m : LXMessage) : Except SendError LXMessage := do
  checkDestination m
  (env.recipient m.destinationHash).mapError .recipient
  checkIdentity env
  packOr cr env.now₂ env.b₁ env.b₂ env.signer .pack m

/-- The search for a stamp of the packed message, which is then set. -/
def stampPacked (cr : Crypto Identity) (env : SendEnv) (stampCost : Int) (m : LXMessage) :
    Except SendError LXMessage := do
  let (stamp, value) ←
    (generateStamp cr m.hash stampCost workblockExpandRounds env.candidates).mapError
      .stampGeneration
  return { m with stamp := stamp, stampValue := value, stampValid := true }

def sendStamped (cr : Crypto Identity) (env : SendEnv) (stampCost : Int) (m : LXMessage) :
    Except SendError LXMessage :=
  if stampCost ≤ 0 then send cr env m
  else do
    checkIdentity env
    let m ← packOr cr env.now₁ env.a₁ env.a₂ env.signer .prePack m
    let m ← stampPacked cr env stampCost m
    send cr env m

/-- `sendDirectPacked`, up to the message whose `Packed` goes over the link. -/
def sendDirectPacked (m : LXMessage) : Except SendError LXMessage := do
  checkDestination m
  if m.packed = [] then .error .notPacked else .ok m

def sendDirect (cr : Crypto Identity) (env : SendEnv) (m : LXMessage) :
    Except SendError LXMessage := do
  checkIdentity env
  let m ← packOr cr env.now₂ env.b₁ env.b₂ env.signer .pack m
  sendDirectPacked m

def sendStampedDirect (cr : Crypto Identity) (env : SendEnv) (stampCost : Int) (m : LXMessage) :
    Except SendError LXMessage :=
  if stampCost ≤ 0 then sendDirect cr env m
  else do
    checkIdentity env
    let m ← packOr cr env.now₁ env.a₁ env.a₂ env.signer .prePack m
    let m ← stampPacked cr env stampCost m
    let m ← packOr cr env.now₂ env.b₁ env.b₂ env.signer .rePack m
    sendDirectPacked m

/-- `packForPropagation`, up to the message whose `Packed` is encrypted for the
recipient. A message that is packed already is not packed again. -/
def packForPropagation (cr : Crypto Identity) (env : SendEnv) (m : LXMessage) :
    Except SendError LXMessage := do
  checkDestination m
  (env.recipient m.destinationHash).mapError .recipient
  checkIdentity env
  if m.packed = [] then packOr cr env.now₂ env.b₁ env.b₂ env.signer .pack m else .ok m

def sendStampedPropagated (cr : Crypto Identity) (env : SendEnv) (stampCost : Int)
    (m : LXMessage) : Except SendError LXMessage := do
  checkIdentity env
  let m ← packOr cr env.now₁ env.a₁ env.a₂ env.signer .prePack m
  if stampCost > 0 then
    let m ← stampPacked cr env stampCost m
    let m ← packOr cr env.now₂ env.b₁ env.b₂ env.signer .rePack m
    packForPropagation cr env m
  else packForPropagation cr env m

/-- The stamped send paths. -/
inductive SendPath where
  | opportunistic | direct | propagated
  deriving DecidableEq, Repr

def SendPath.sendStamped : SendPath → Crypto Identity → SendEnv → Int → LXMessage →
    Except SendError LXMessage
  | .opportunistic => Lxmf.sendStamped
  | .direct => sendStampedDirect
  | .propagated => sendStampedPropagated

/-! ## What a stamped send has done -/

theorem packOr_ok_iff {cr : Crypto Identity} {now : BitVec 64} {o₁ o₂ : MapOrder}
    {signer : Option Signer} {wrap : PackError → SendError} {m m' : LXMessage} :
    packOr cr now o₁ o₂ signer wrap m = .ok m' ↔
      ∃ k, m.pack cr now o₁ o₂ signer = (m', .ok k) := by
  unfold packOr
  rcases m.pack cr now o₁ o₂ signer with ⟨m₀, e | k⟩
  · simp
  · simp [eq_comm]

theorem checkIdentity_ok {env : SendEnv} (h : checkIdentity env = .ok ()) :
    ∃ sign, env.signer = some sign := by
  unfold checkIdentity at h
  cases hs : env.signer with
  | none => simp [hs] at h
  | some sign => exact ⟨sign, rfl⟩

/-- The message as both encodings of the second `Pack` see it. -/
def SendEnv.repacked (env : SendEnv) (m : LXMessage) : LXMessage :=
  (m.withTimestamp env.now₁).withTimestamp env.now₂

/-- What a stamped send has computed: `body₁` is hashed for the stamp, `body₂`
is hashed by the second `Pack`, and `body₃` is transmitted. -/
structure StampedRun (cr : Crypto Identity) (env : SendEnv) (cost : Int) (m sent : LXMessage) where
  body₁ : Bytes
  body₂ : Bytes
  body₃ : Bytes
  signature : Bytes
  destination_length : m.destinationHash.length = destinationLength
  source_length : m.sourceHash.length = destinationLength
  signature_length : signature.length = signatureLength
  body₁_eq : (m.withTimestamp env.now₁).payloadBody env.a₁ = .ok body₁
  body₂_eq : (env.repacked m).payloadBody env.b₁ = .ok body₂
  body₃_eq : (env.repacked m).payloadBody env.b₂ = .ok body₃
  hash₁_eq : (m.pack cr env.now₁ env.a₁ env.a₂ env.signer).1.hash =
    cr.sha256 (hashedPart m.destinationHash m.sourceHash (0x94 :: body₁))
  hash₂_eq : sent.hash = cr.sha256 (hashedPart m.destinationHash m.sourceHash (0x94 :: body₂))
  stamp_length : sent.stamp.length = stampSize
  stamp_meets : ∃ wb, stampWorkblock cr
      (cr.sha256 (hashedPart m.destinationHash m.sourceHash (0x94 :: body₁)))
      workblockExpandRounds = .ok wb ∧ meetsTarget cr cost wb sent.stamp = true
  packed_eq : sent.packed = m.destinationHash ++ (m.sourceHash ++ signature ++
    (0x95 :: (body₃ ++ encodeGoBytes (some sent.stamp))))

theorem stampedRun_of_steps {cr : Crypto Identity} {env : SendEnv} {cost : Int}
    {wrap₁ wrap₂ : PackError → SendError} {m packed stamped sent : LXMessage}
    (hsigner : checkIdentity env = .ok ())
    (h₁ : packOr cr env.now₁ env.a₁ env.a₂ env.signer wrap₁ m = .ok packed)
    (hstamp : stampPacked cr env cost packed = .ok stamped)
    (h₂ : packOr cr env.now₂ env.b₁ env.b₂ env.signer wrap₂ stamped = .ok sent) :
    Nonempty (StampedRun cr env cost m sent) := by
  obtain ⟨sign, hsign⟩ := checkIdentity_ok hsigner
  obtain ⟨⟨stamp, value⟩, hgen, hset⟩ := Except.bind_eq_ok_iff.mp hstamp
  rw [Except.mapError_eq_ok_iff] at hgen
  obtain rfl := Except.pure_eq_ok_iff.mp hset
  rw [hsign, packOr_ok_iff] at h₁ h₂
  obtain ⟨k₁, hk₁⟩ := h₁
  obtain ⟨k₂, hk₂⟩ := h₂
  obtain ⟨⟨body₁, _, _, hdst, hsrc, hbody₁, -, -, -, -, -, rfl⟩⟩ := pack_ok hk₁
  obtain ⟨⟨body₂, signature, _, -, -, hbody₂, -, hsig, hpayload, hpacked, -, rfl⟩⟩ := pack_ok hk₂
  obtain ⟨hlen, hmeets⟩ := generateStamp_ok (by decide) hgen
  rcases hpayload with ⟨hnil, -⟩ | ⟨-, body₃, hbody₃, rfl⟩
  · have hnil : stamp = [] := hnil
    simp [hnil, stampSize] at hlen
  · exact ⟨⟨body₁, body₂, body₃, signature, hdst, hsrc, hsig, hbody₁, hbody₂, hbody₃,
      by rw [hsign, hk₁], rfl, hlen, hmeets,
      hpacked.trans (by simp only [List.append_assoc]; rfl)⟩⟩

theorem packed_ne_nil {cr : Crypto Identity} {now : BitVec 64} {o₁ o₂ : MapOrder}
    {signer : Option Signer} {wrap : PackError → SendError} {m m' : LXMessage}
    (hsigner : ∃ sign, signer = some sign) (h : packOr cr now o₁ o₂ signer wrap m = .ok m') :
    m'.packed ≠ [] := by
  obtain ⟨sign, rfl⟩ := hsigner
  obtain ⟨k, hk⟩ := packOr_ok_iff.mp h
  obtain ⟨run⟩ := pack_ok hk
  have hpacked : m'.packed = k.packed := (congrArg LXMessage.packed run.message_eq).trans rfl
  rw [hpacked, run.packed_eq]
  have := run.destination_length
  intro hnil
  simp_all [destinationLength]

/-- All three paths transmit what the second `Pack` produced. -/
theorem SendPath.sendStamped_ok {path : SendPath} {cr : Crypto Identity} {env : SendEnv}
    {cost : Int} {m sent : LXMessage} (hcost : 1 ≤ cost)
    (h : path.sendStamped cr env cost m = .ok sent) :
    Nonempty (StampedRun cr env cost m sent) := by
  cases path with
  | opportunistic =>
    simp only [SendPath.sendStamped, Lxmf.sendStamped, if_neg (show ¬cost ≤ 0 by omega)] at h
    obtain ⟨⟨⟩, hid, h⟩ := Except.bind_eq_ok_iff.mp h
    obtain ⟨packed, h₁, h⟩ := Except.bind_eq_ok_iff.mp h
    obtain ⟨stamped, hstamp, h⟩ := Except.bind_eq_ok_iff.mp h
    obtain ⟨-, -, h⟩ := Except.bind_eq_ok_iff.mp h
    obtain ⟨-, -, h⟩ := Except.bind_eq_ok_iff.mp h
    obtain ⟨-, -, h₂⟩ := Except.bind_eq_ok_iff.mp h
    exact stampedRun_of_steps hid h₁ hstamp h₂
  | direct =>
    simp only [SendPath.sendStamped, sendStampedDirect, if_neg (show ¬cost ≤ 0 by omega)] at h
    obtain ⟨⟨⟩, hid, h⟩ := Except.bind_eq_ok_iff.mp h
    obtain ⟨packed, h₁, h⟩ := Except.bind_eq_ok_iff.mp h
    obtain ⟨stamped, hstamp, h⟩ := Except.bind_eq_ok_iff.mp h
    obtain ⟨m₂, h₂, h⟩ := Except.bind_eq_ok_iff.mp h
    obtain ⟨-, -, h⟩ := Except.bind_eq_ok_iff.mp h
    split at h
    · cases h
    · cases h
      exact stampedRun_of_steps hid h₁ hstamp h₂
  | propagated =>
    obtain ⟨⟨⟩, hid, h⟩ := Except.bind_eq_ok_iff.mp h
    obtain ⟨packed, h₁, h⟩ := Except.bind_eq_ok_iff.mp h
    rw [if_pos (by omega)] at h
    obtain ⟨stamped, hstamp, h⟩ := Except.bind_eq_ok_iff.mp h
    obtain ⟨m₂, h₂, h⟩ := Except.bind_eq_ok_iff.mp h
    obtain ⟨-, -, h⟩ := Except.bind_eq_ok_iff.mp h
    obtain ⟨-, -, h⟩ := Except.bind_eq_ok_iff.mp h
    obtain ⟨-, -, h⟩ := Except.bind_eq_ok_iff.mp h
    rw [if_neg (packed_ne_nil (checkIdentity_ok hid) h₂)] at h
    cases h
    exact stampedRun_of_steps hid h₁ hstamp h₂

/-- A send whose steps succeed transmits what the second `Pack` produced. -/
theorem SendPath.sendStamped_of_steps (path : SendPath) {cr : Crypto Identity} {env : SendEnv}
    {cost : Int} {m packed stamped sent : LXMessage} {k₁ k₂ : Packing} (hcost : 1 ≤ cost)
    (hid : checkIdentity env = .ok ()) (hrecipient : ∀ d, env.recipient d = .ok ())
    (h₁ : m.pack cr env.now₁ env.a₁ env.a₂ env.signer = (packed, .ok k₁))
    (hstamp : stampPacked cr env cost packed = .ok stamped)
    (h₂ : stamped.pack cr env.now₂ env.b₁ env.b₂ env.signer = (sent, .ok k₂)) :
    path.sendStamped cr env cost m = .ok sent := by
  have hpack₁ (wrap) : packOr cr env.now₁ env.a₁ env.a₂ env.signer wrap m = .ok packed :=
    packOr_ok_iff.mpr ⟨k₁, h₁⟩
  have hpack₂ (wrap) : packOr cr env.now₂ env.b₁ env.b₂ env.signer wrap stamped = .ok sent :=
    packOr_ok_iff.mpr ⟨k₂, h₂⟩
  obtain ⟨sign, hsign⟩ := checkIdentity_ok hid
  obtain ⟨run⟩ := pack_ok (hsign ▸ h₂)
  have hdst : stamped.destinationHash.length = destinationLength := run.destination_length
  have hdst' : sent.destinationHash = stamped.destinationHash :=
    (congrArg LXMessage.destinationHash run.message_eq).trans rfl
  have hpacked := packed_ne_nil ⟨sign, hsign⟩ (hpack₂ .rePack)
  cases path <;>
    simp [SendPath.sendStamped, Lxmf.sendStamped, sendStampedDirect, sendStampedPropagated, send,
      sendDirectPacked, packForPropagation, checkDestination, hid, hrecipient, hpack₁, hpack₂,
      hstamp, hdst, hdst', hpacked, bind, Except.bind, Except.mapError,
      show ¬cost ≤ 0 by omega, show 0 < cost by omega]

/-! ## The stamp at the receiver -/

/-- A stamp behind an accepted payload leaves it accepted, with the same hashed bytes. -/
theorem decodePayloadAndSplit_add_stamp {o : MapOrder} {b stamp hashed : Bytes} {vs : List Any}
    {p : Payload} (hdec : decodePayloadAndSplit (0x94 :: b) = .ok (vs, hashed))
    (happ : applyPayload o vs = .ok p) (hstamp : stamp.length = stampSize) :
    decodePayloadAndSplit (0x95 :: (b ++ encodeGoBytes (some stamp))) =
        .ok (vs ++ [.bytes stamp], 0x94 :: b) ∧
      applyPayload o (vs ++ [.bytes stamp]) = .ok { p with stamp := some stamp } := by
  obtain ⟨c, ts, hp, hdecs, -⟩ := decodePayloadAndSplit_ok_iff.mp hdec
  have hbytes := hp.bytes
  simp only [WireTree.flatten, List.cons.injEq] at hbytes
  obtain rfl : c = .fixedArray 4 := Code.toByte_inj hbytes.1.symm
  have hlen : ts.length = 4 := hp.sized
  have hb : b = WireTree.flattenAll ts := hbytes.2
  have hleaf : (WireTree.leaf .bin8 stamp).flatten = encodeGoBytes (some stamp) := by
    simp [WireTree.flatten, encodeGoBytes, encodeBytesLen_eq, Code.bin, hstamp, stampSize]
  have hwf : (WireTree.leaf .bin8 stamp).WF := by
    simp [WireTree.WF, WireTree.Sized, Code.layout, hstamp, stampSize]
  constructor
  · refine decodePayloadAndSplit_ok_iff.mpr
      ⟨.fixedArray 5, ts ++ [.leaf .bin8 stamp], ⟨rfl, ?_, ?_, ?_, ?_⟩, ?_, ?_⟩
    · change (ts ++ [_]).length = 5
      simp [hlen]
    · rw [WireTree.allWF_iff]
      intro t ht
      rcases List.mem_append.mp ht with ht | ht
      · exact WireTree.allWF_iff.mp hp.wf t ht
      · rw [List.mem_singleton.mp ht]
        exact hwf
    · simp [hlen]
    · rw [WireTree.flatten, WireTree.flattenAll_append, WireTree.flattenAll, WireTree.flattenAll, hleaf,
        List.append_nil, hb]
      rfl
    · exact List.rel_append hdecs (.cons (decodes_bin8 (by simp [hstamp, stampSize])) .nil)
    · simp [hashedBytes, hlen, hb]
  · have hvs : vs.length = 4 := hdecs.length_eq.symm.trans hlen
    obtain ⟨p0, p1, p2, p3, ps, rfl, hts, htitle, hcontent, hfields, -⟩ :=
      applyPayload_ok_iff.mp happ
    obtain rfl : ps = [] := by simpa using hvs
    refine applyPayload_ok_iff.mpr
      ⟨p0, p1, p2, p3, [.bytes stamp], rfl, hts, htitle, hcontent, hfields, ?_⟩
    have hne : stamp ≠ [] := by
      rintro rfl
      simp [stampSize] at hstamp
    simp [asStamp, asBytes, cloneBytes, hne]

/-- Equal bytes have been written for equal timestamps and fields. -/
theorem payloadBody_inj {o o' : MapOrder} {m m' : LXMessage} {b : Bytes}
    (h : m.payloadBody o = .ok b) (h' : m'.payloadBody o' = .ok b)
    (htitle : m'.title = m.title) (hcontent : m'.content = m.content) :
    m'.timestamp = m.timestamp ∧ m'.encodeFields o' = m.encodeFields o := by
  obtain ⟨f, hf, rfl⟩ := Except.map_eq_ok_iff.mp h
  obtain ⟨f', hf', heq⟩ := Except.map_eq_ok_iff.mp h'
  rw [htitle, hcontent, List.append_assoc, List.append_assoc, List.append_assoc,
    List.append_assoc] at heq
  obtain ⟨htime, hrest⟩ := List.append_inj heq (by simp [encodeScalar, write])
  have hnat : m'.timestamp.toNat = m.timestamp.toNat := by
    simp only [encodeScalar, write, List.cons.injEq, true_and] at htime
    exact BigEndian.encode_inj m'.timestamp.isLt m.timestamp.isLt htime
  refine ⟨BitVec.eq_of_toNat_eq hnat, ?_⟩
  rw [hf, hf', List.append_cancel_left (List.append_cancel_left hrest)]

/-- The bytes a message's hash is taken of, for one encoding of its payload. -/
def LXMessage.hashInput (o : MapOrder) (m : LXMessage) : Except EncodeError Bytes :=
  (fun b => hashedPart m.destinationHash m.sourceHash (0x94 :: b)) <$> m.payloadBody o

/-- The message has the same timestamp in both `Pack` calls, all three encodings
write its fields alike, and the receiver accepts it without a stamp. -/
structure SafeToStamp (env : SendEnv) (o : MapOrder) (resolver : Option (Resolver Identity))
    (m : LXMessage) : Prop where
  timestamp : (env.repacked m).timestamp = (m.withTimestamp env.now₁).timestamp
  hashed : m.encodeFields env.b₁ = m.encodeFields env.a₁
  transmitted : m.encodeFields env.b₂ = m.encodeFields env.a₁
  accepted : ∀ b, (m.withTimestamp env.now₁).payloadBody env.a₁ = .ok b →
    ∃ vs hashed p, decodePayloadAndSplit (0x94 :: b) = .ok (vs, hashed) ∧
      applyPayload o vs = .ok p
  resolved : ∀ resolve, resolver = some resolve → ∀ e, resolve m.sourceHash ≠ .error e

/-- The receiver unpacks a message whose stamp it finds valid. -/
def StampAccepted (cr : Crypto Identity) (o : MapOrder) (resolver : Option (Resolver Identity))
    (cost : Int) (sent : LXMessage) : Prop :=
  ∃ r, (unpack cr o sent.packed resolver).msg = some r ∧ (r.validateStamp cr cost []).2 = .ok true

/-- The hash the stamp is searched for. -/
def SendEnv.firstHash (cr : Crypto Identity) (env : SendEnv) (m : LXMessage) : Bytes :=
  (m.pack cr env.now₁ env.a₁ env.a₂ env.signer).1.hash

/-- Neither of the two inputs that are hashed after the search collides with the
first, and the stamp does not happen to be valid for another hash as well. -/
structure NoCoincidence (cr : Crypto Identity) (env : SendEnv) (o : MapOrder)
    (resolver : Option (Resolver Identity)) (cost : Int) (m sent : LXMessage) : Prop where
  collision : ∀ x x', (m.withTimestamp env.now₁).hashInput env.a₁ = .ok x →
    ((env.repacked m).hashInput env.b₁ = .ok x' ∨
      hashPreimage m.destinationHash (sent.packed.drop destinationLength) = some x') →
    cr.sha256 x' = cr.sha256 x → x' = x
  luck : ∀ r, (unpack cr o sent.packed resolver).msg = some r → r.hash ≠ env.firstHash cr m →
    (r.validateStamp cr cost []).2 ≠ .ok true

section

variable {cr : Crypto Identity} {env : SendEnv} {cost : Int} {m sent : LXMessage}

theorem StampedRun.unpack_eq (run : StampedRun cr env cost m sent) (o : MapOrder)
    (resolver : Option (Resolver Identity)) :
    unpack cr o sent.packed resolver =
      unpackFromBytes cr o m.destinationHash (sent.packed.drop destinationLength) resolver := by
  have hlen : 2 * destinationLength + signatureLength ≤ sent.packed.length := by
    rw [run.packed_eq]
    simp only [List.length_append, run.destination_length, run.source_length,
      run.signature_length]
    omega
  rw [unpack, if_neg (by omega)]
  congr 1
  rw [run.packed_eq, ← run.destination_length, List.take_left]

theorem StampedRun.inner_eq (run : StampedRun cr env cost m sent) :
    sent.packed.drop destinationLength = m.sourceHash ++ run.signature ++
      (0x95 :: (run.body₃ ++ encodeGoBytes (some sent.stamp))) := by
  rw [run.packed_eq, ← run.destination_length, List.drop_left]

/-- Under the condition, the three encodings are the same bytes. -/
theorem StampedRun.bodies_eq (run : StampedRun cr env cost m sent) {o : MapOrder}
    {resolver : Option (Resolver Identity)} (h : SafeToStamp env o resolver m) :
    run.body₂ = run.body₁ ∧ run.body₃ = run.body₁ := by
  have hbody (o : MapOrder) (hfields : m.encodeFields o = m.encodeFields env.a₁) :
      (env.repacked m).payloadBody o = (m.withTimestamp env.now₁).payloadBody env.a₁ := by
    unfold LXMessage.payloadBody
    rw [h.timestamp]
    exact congrArg _ hfields
  have h₂ := (hbody env.b₁ h.hashed).symm.trans run.body₂_eq
  have h₃ := (hbody env.b₂ h.transmitted).symm.trans run.body₃_eq
  rw [run.body₁_eq] at h₂ h₃
  exact ⟨(Except.ok.inj h₂).symm, (Except.ok.inj h₃).symm⟩

/-- Under the condition, the hash stays and the receiver finds the stamp valid. -/
theorem StampedRun.valid (run : StampedRun cr env cost m sent) (hpos : 1 ≤ cost)
    (hmax : cost ≤ 256) {o : MapOrder} {resolver : Option (Resolver Identity)}
    (h : SafeToStamp env o resolver m) :
    sent.hash = env.firstHash cr m ∧ StampAccepted cr o resolver cost sent := by
  obtain ⟨h₂, h₃⟩ := run.bodies_eq h
  refine ⟨by rw [run.hash₂_eq, h₂]; exact run.hash₁_eq.symm, ?_⟩
  obtain ⟨vs, hashed, p, hdec, happ⟩ := h.accepted _ run.body₁_eq
  obtain ⟨hdec₅, happ₅⟩ := decodePayloadAndSplit_add_stamp hdec happ run.stamp_length
  have hsource : (sent.packed.drop destinationLength).take destinationLength = m.sourceHash := by
    rw [run.inner_eq, take_inner run.source_length]
  obtain ⟨q, hq, hparse⟩ : ∃ q, q = inboundMessage cr m.destinationHash
      (sent.packed.drop destinationLength) (0x94 :: run.body₁) { p with stamp := some sent.stamp } ∧
      parseInner cr o m.destinationHash (sent.packed.drop destinationLength) = .ok q := by
    refine ⟨_, rfl, parseInner_ok_iff.mpr ⟨run.destination_length, ?_, _, _, _, ?_, happ₅, rfl⟩⟩
    · rw [run.inner_eq]
      simp only [List.length_append, run.source_length, run.signature_length]
      omega
    · rw [run.inner_eq, drop_inner run.source_length run.signature_length, h₃, hdec₅]
  have hqsource : q.msg.sourceHash = m.sourceHash := by rw [hq]; exact hsource
  obtain ⟨r, hr⟩ : ∃ r, (verifySource cr resolver q).msg = some r :=
    verifySource_msg_iff.mpr fun f hf => hqsource ▸ h.resolved f hf
  refine ⟨r, ?_, ?_⟩
  · rw [run.unpack_eq]
    exact unpackFromBytes_msg_iff.mpr ⟨q, hparse, hr⟩
  · have hhash : r.hash =
        cr.sha256 (hashedPart m.destinationHash m.sourceHash (0x94 :: run.body₁)) := by
      rw [verifySource_msg hr, hq]
      simp only [inboundMessage, hsource]
    have hstamp : r.stamp = sent.stamp := by rw [verifySource_msg hr, hq]; rfl
    refine (LXMessage.validateStamp_iff ?_ (hstamp ▸ run.stamp_length) hpos hmax).mpr ?_
    · rw [hhash]
      intro hnil
      simpa [hnil] using cr.sha256_length
        (hashedPart m.destinationHash m.sourceHash (0x94 :: run.body₁))
    · rw [hhash, hstamp]
      exact run.stamp_meets

/-- And only under it, coincidences apart. -/
theorem StampedRun.safe (run : StampedRun cr env cost m sent) {o : MapOrder}
    {resolver : Option (Resolver Identity)}
    (hno : NoCoincidence cr env o resolver cost m sent) (hhash : sent.hash = env.firstHash cr m)
    (hvalid : StampAccepted cr o resolver cost sent) : SafeToStamp env o resolver m := by
  obtain ⟨r, hr, htrue⟩ := hvalid
  have hfirst : (m.withTimestamp env.now₁).hashInput env.a₁ =
      .ok (hashedPart m.destinationHash m.sourceHash (0x94 :: run.body₁)) :=
    Except.map_eq_ok_iff.mpr ⟨_, run.body₁_eq, rfl⟩
  have hsecond : (env.repacked m).hashInput env.b₁ =
      .ok (hashedPart m.destinationHash m.sourceHash (0x94 :: run.body₂)) :=
    Except.map_eq_ok_iff.mpr ⟨_, run.body₂_eq, rfl⟩
  -- the second `Pack` hashed the same bytes as the first
  have h₂ : run.body₂ = run.body₁ := by
    have := hno.collision _ _ hfirst (.inl hsecond)
      (run.hash₂_eq.symm.trans (hhash.trans run.hash₁_eq))
    exact (List.cons.inj (List.append_cancel_left this)).2
  -- and so did the receiver
  have hrhash : r.hash = env.firstHash cr m := by
    by_contra hne
    exact hno.luck r hr hne htrue
  rw [run.unpack_eq] at hr
  obtain ⟨q, hparse, hverify⟩ := unpackFromBytes_msg_iff.mp hr
  have hpre := hashPreimage_of_parseInner hparse
  have hqhash : q.msg.hash = env.firstHash cr m := by rw [← hrhash, verifySource_msg hverify]
  obtain ⟨-, -, vs, hashed, pl, hdec, happ, rfl⟩ := parseInner_ok_iff.mp hparse
  have hresolved := verifySource_msg_iff.mp ⟨r, hverify⟩
  have hpart := hno.collision _ _ hfirst (.inr hpre) (hqhash.trans run.hash₁_eq)
  simp only [inboundMessage, run.inner_eq, take_inner run.source_length] at hpart hresolved
  rw [run.inner_eq, drop_inner run.source_length run.signature_length] at hdec
  obtain rfl : hashed = 0x94 :: run.body₁ := List.append_cancel_left hpart
  have hbody₂ := run.body₂_eq
  rw [h₂] at hbody₂
  obtain ⟨h₃, -⟩ := stamped_body_eq (payloadBody_length hbody₂ run.body₃_eq) hdec
  have hbody₃ := run.body₃_eq
  rw [← h₃] at hbody₃
  obtain ⟨htime, hfields⟩ := payloadBody_inj run.body₁_eq hbody₂ rfl rfl
  refine ⟨htime, hfields, ?_, ?_, hresolved⟩
  · exact (payloadBody_inj run.body₁_eq hbody₃ rfl rfl).2
  · intro b hb
    obtain rfl : run.body₁ = b := Except.ok.inj (run.body₁_eq.symm.trans hb)
    exact ⟨_, _, _, decodePayloadAndSplit_hashed hdec, (applyPayload_take_four happ).1⟩

end

/-- On every stamped path and for every cost up to 256, the second `Pack` keeps
the hash and the receiver finds the stamp valid if the message is safe to stamp,
and, coincidences apart, only then. -/
theorem stamped_send_valid_iff (cr : Crypto Identity) (path : SendPath) (env : SendEnv)
    (cost : Int) (o : MapOrder) (resolver : Option (Resolver Identity)) (m sent : LXMessage)
    (hpos : 1 ≤ cost) (hmax : cost ≤ 256) (hsend : path.sendStamped cr env cost m = .ok sent) :
    (SafeToStamp env o resolver m →
      sent.hash = env.firstHash cr m ∧ StampAccepted cr o resolver cost sent) ∧
    (NoCoincidence cr env o resolver cost m sent →
      (sent.hash = env.firstHash cr m ∧ StampAccepted cr o resolver cost sent ↔
        SafeToStamp env o resolver m)) := by
  obtain ⟨run⟩ := SendPath.sendStamped_ok hpos hsend
  exact ⟨run.valid hpos hmax, fun hno =>
    ⟨fun h => run.safe hno h.1 h.2, run.valid hpos hmax⟩⟩

/-! ## Two fields in two orders -/

def exampleHeader : Bytes := List.replicate 16 1 ++ List.replicate 16 2

/-- A hash that takes the end of the data behind one header, and the start of any
other data. Hashing a work block then gives the hash it was derived from. -/
def endsCrypto : Crypto Unit where
  sha256 b :=
    if b.take 32 = exampleHeader then (b.reverse ++ List.replicate 32 0).take 32
    else (b ++ List.replicate 32 0).take 32
  sha256_length b := by split <;> simp
  verify _ _ _ := true

theorem endsCrypto_sha256 {h x : Bytes} (hlen : h.length = 32) (hne : h ≠ exampleHeader) :
    endsCrypto.sha256 (h ++ x) = h := by
  simp [endsCrypto, ← hlen, hne]

theorem endsCrypto_workblock {h wb : Bytes} {rounds : Int} (hlen : h.length = 32)
    (hne : h ≠ exampleHeader)
    (hblock : (workblockBlock endsCrypto h 0).toOption.map (·.take 32) = some h)
    (hwb : stampWorkblock endsCrypto h rounds = .ok wb) (stamp : Bytes) :
    endsCrypto.sha256 (wb ++ stamp) = h := by
  obtain ⟨block, rest, hb, rfl⟩ := stampWorkblock_head hwb
  obtain ⟨block', hb', htake⟩ := Option.map_eq_some_iff.mp hblock
  obtain rfl : block = block' := by
    simpa [hb, Except.toOption] using hb'
  rw [← List.take_append_drop 32 block, htake, List.append_assoc, List.append_assoc,
    endsCrypto_sha256 hlen hne]

/-- A message with two fields. -/
def twoFieldsMessage : LXMessage where
  destinationHash := List.replicate 16 1
  sourceHash := List.replicate 16 2
  fields := some [(1, .scalar (.bool true)), (2, .scalar (.int .int8 0))]
  timestamp := 1

/-- The map is iterated in one order, except maybe for the transmitted encoding. -/
def twoFieldsEnv (transmitted : MapOrder) : SendEnv where
  signer := some tailSigner
  recipient _ := .ok ()
  now₁ := 1
  now₂ := 1
  a₁ := .listed
  a₂ := .listed
  b₁ := .listed
  b₂ := transmitted
  candidates := [⟨List.replicate 32 0, length_zeros⟩]

/-- The first `Pack` and the stamp that is found for it. -/
def twoFieldsPacked : LXMessage × Except PackError Packing :=
  twoFieldsMessage.pack endsCrypto 1 .listed .listed (some tailSigner)

def twoFieldsStamped : LXMessage :=
  { twoFieldsPacked.1 with stamp := List.replicate 32 0, stampValue := 14, stampValid := true }

/-- The second `Pack`. -/
def twoFieldsSent (transmitted : MapOrder) : LXMessage × Except PackError Packing :=
  twoFieldsStamped.pack endsCrypto 1 .listed transmitted (some tailSigner)

theorem twoFields_stampPacked (transmitted : MapOrder) :
    stampPacked endsCrypto (twoFieldsEnv transmitted) 1 twoFieldsPacked.1 =
      .ok twoFieldsStamped := by
  obtain ⟨wb, hwb⟩ : ∃ wb, stampWorkblock endsCrypto twoFieldsPacked.1.hash
      workblockExpandRounds = .ok wb :=
    stampWorkblock_ok endsCrypto workblockExpandRounds (by decide) (by decide +kernel)
  have hsum := endsCrypto_workblock (by decide +kernel) (by decide +kernel) (by decide +kernel) hwb
    (List.replicate 32 0)
  have hmeets : bytesLE twoFieldsPacked.1.hash (stampTargetBytes 1) = true := by decide +kernel
  have hvalue : leadingZeroBits twoFieldsPacked.1.hash = 14 := by decide +kernel
  have hfind : (twoFieldsEnv transmitted).candidates.find?
      (fun c => meetsTarget endsCrypto 1 wb c.val) = some ⟨List.replicate 32 0, rfl⟩ := by
    simp only [twoFieldsEnv, List.find?_cons, meetsTarget, hsum, hmeets]
  have hgen : generateStamp endsCrypto twoFieldsPacked.1.hash 1 workblockExpandRounds
      (twoFieldsEnv transmitted).candidates = .ok (List.replicate 32 0, 14) := by
    simp only [generateStamp, show ¬(1 : Int) ≤ 0 by decide, if_false,
      show ¬workblockExpandRounds ≤ 0 by decide, hwb, hfind, bind, Except.bind, stampValue, hsum,
      hvalue]
    rfl
  rw [stampPacked, hgen]
  rfl

theorem twoFields_sendStamped (path : SendPath) {transmitted : MapOrder} {k : Packing}
    (h : (twoFieldsSent transmitted).2 = .ok k) :
    path.sendStamped endsCrypto (twoFieldsEnv transmitted) 1 twoFieldsMessage =
      .ok (twoFieldsSent transmitted).1 := by
  have hok : twoFieldsPacked.2.toOption.isSome = true := by decide +kernel
  obtain ⟨k₁, hk₁⟩ := Option.isSome_iff_exists.mp hok
  have h₁ : twoFieldsPacked = (twoFieldsPacked.1, .ok k₁) :=
    Prod.ext rfl (Except.toOption_eq_some_iff.mp hk₁)
  have h₂ : twoFieldsSent transmitted = ((twoFieldsSent transmitted).1, .ok k) := Prod.ext rfl h
  exact path.sendStamped_of_steps (by decide) rfl (fun _ => rfl) h₁
    (twoFields_stampPacked transmitted) h₂

/-- With the fields transmitted in another order, the receiver finds the stamp
invalid, whichever path the message took. -/
theorem stamped_two_fields_rejected :
    ∃ sent r, (∀ path : SendPath,
        path.sendStamped endsCrypto (twoFieldsEnv .reversed) 1 twoFieldsMessage = .ok sent) ∧
      (unpack endsCrypto .listed sent.packed none).msg = some r ∧
      (r.validateStamp endsCrypto 1 []).2 = .ok false := by
  have hok : (twoFieldsSent .reversed).2.toOption.isSome = true := by decide +kernel
  obtain ⟨k, hk⟩ := Option.isSome_iff_exists.mp hok
  have hrun : (unpack endsCrypto .listed (twoFieldsSent .reversed).1.packed none).msg.map
      (fun r => (r.stamp.length, r.hash.length, r.hash == exampleHeader,
        (workblockBlock endsCrypto r.hash 0).toOption.map (·.take 32) == some r.hash,
        bytesLE r.hash (stampTargetBytes 1))) = some (32, 32, false, true, false) := by
    decide +kernel
  obtain ⟨r, hr, hprops⟩ := Option.map_eq_some_iff.mp hrun
  simp only [Prod.mk.injEq, beq_eq_false_iff_ne, beq_iff_eq] at hprops
  obtain ⟨hstamp, hlen, hne, hblock, hmisses⟩ := hprops
  refine ⟨_, r, fun path => twoFields_sendStamped path (Except.toOption_eq_some_iff.mp hk), hr, ?_⟩
  have hhash : r.hash ≠ [] := by
    intro hnil
    simp [hnil] at hlen
  have hstamp' : r.stamp ≠ [] := by
    intro hnil
    simp [hnil] at hstamp
  obtain ⟨wb, hwb⟩ := stampWorkblock_ok endsCrypto workblockExpandRounds (by decide) hhash
  simp [LXMessage.validateStamp, hhash, hstamp', hwb, stampValid, hstamp, stampSize, meetsTarget,
    endsCrypto_workblock hlen hne hblock hwb, hmisses]

/-- In one order the stamp is valid. -/
theorem stamped_two_fields_accepted :
    ∃ sent, sendStamped endsCrypto (twoFieldsEnv .listed) 1 twoFieldsMessage = .ok sent ∧
      sent.hash = (twoFieldsEnv .listed).firstHash endsCrypto twoFieldsMessage ∧
      StampAccepted endsCrypto .listed none 1 sent := by
  have hok : (twoFieldsSent .listed).2.toOption.isSome = true := by decide +kernel
  obtain ⟨k, hk⟩ := Option.isSome_iff_exists.mp hok
  have hsend := twoFields_sendStamped .opportunistic (Except.toOption_eq_some_iff.mp hk)
  refine ⟨_, hsend, (stamped_send_valid_iff endsCrypto .opportunistic (twoFieldsEnv .listed) 1
    .listed none twoFieldsMessage _ (by decide) (by decide) hsend).1 ⟨?_, rfl, rfl, ?_, ?_⟩⟩
  · decide +kernel
  · intro b hb
    have hrun : ((twoFieldsMessage.withTimestamp 1).payloadBody .listed).toOption.bind (fun b =>
        (decodePayloadAndSplit (0x94 :: b)).toOption.bind fun q =>
          (applyPayload .listed q.1).toOption.map fun _ => ()) = some () := by decide +kernel
    obtain ⟨b', hb', hrun⟩ := Option.bind_eq_some_iff.mp hrun
    obtain ⟨⟨vs, hashed⟩, hdec, hrun⟩ := Option.bind_eq_some_iff.mp hrun
    obtain ⟨p, happ, -⟩ := Option.map_eq_some_iff.mp hrun
    obtain rfl : b' = b := Except.ok.inj ((Except.toOption_eq_some_iff.mp hb').symm.trans hb)
    exact ⟨vs, hashed, p, Except.toOption_eq_some_iff.mp hdec, Except.toOption_eq_some_iff.mp happ⟩
  · intro _ h
    cases h

end Lxmf
