-- SUMMARY: Sending over propagation nodes until one accepts the message.
import ReticulumMf.Lxmf.LinkPayload
import ReticulumMf.Lxmf.Registry

/-!
# Retrying over propagation nodes

`SendPropagatedWithRetry` tries the candidates of `AttemptOrder` in turn. A failed link or
transfer leads to the next candidate. A message that cannot be packed for one node, for
example since no stamp of the node's cost was found in time, ends the whole send, though
the next node may ask for less. And the send never returns when it drops a cached link
that is active: the link's closed callback takes the mutex that `clearPropagationLink`
holds. `retry_first_success_iff` says that nothing else goes wrong.
-/

namespace Lxmf

open Msgpack Sorting

variable {Identity : Type}

/-! ## One attempt -/

/-- What the surroundings answer during one attempt: the known identities, the local
identity, clock and map orders of `Pack`, clock and search of `PackPropagated`, the cached
link and whether it is active, the outcome of establishing a link, and whether the link is
still active once the transfer over it has failed. -/
structure AttemptEnv (Identity : Type) where
  recallIdentity : Bytes → Except String (Option Identity)
  fromHash : Bytes → Identity → Except String Recipient
  signer : Option Signer
  now : BitVec 64
  order : MapOrder
  stampedOrder : MapOrder
  propagatedNow : BitVec 64
  candidates : List Candidate
  cachedLink : LinkEnv
  cachedActive : Bool
  establish : Bytes → Except String LinkEnv
  stillActive : Bool

inductive RetryError where
  | destinationLength
  | identityNotFound (e : String)
  | destinationUnknown
  | recipient (e : String)
  | noIdentity
  | pack (e : PackError)
  | propagate (e : PropagationError)
  | nodeLength
  | link (e : String)
  | transfer (e : TransmitError)
  | failedAfter (attempts : Nat) (last : RetryError)
  | noPropagationNode
  deriving DecidableEq, Repr

/-- `packForPropagation`: the message afterwards and the result. -/
def PropagatedMessage.packForPropagation (cr : Crypto Identity) (env : AttemptEnv Identity)
    (pnStampCost : Int) (m : PropagatedMessage) : PropagatedMessage × Except RetryError Unit :=
  if m.destinationHash.length ≠ destinationLength then (m, .error .destinationLength)
  else
    match env.recallIdentity m.destinationHash with
    | .error e => (m, .error (.identityNotFound e))
    | .ok none => (m, .error .destinationUnknown)
    | .ok (some remoteIdentity) =>
      match env.fromHash m.destinationHash remoteIdentity with
      | .error e => (m, .error (.recipient e))
      | .ok recipient =>
        if env.signer.isNone then (m, .error .noIdentity)
        else
          let packing : LXMessage × Except PackError Unit :=
            if m.packed = [] then
              Prod.map id (Except.map fun _ => ())
                (m.toLXMessage.pack cr env.now env.order env.stampedOrder env.signer)
            else (m.toLXMessage, .ok ())
          let m := { m with toLXMessage := packing.1 }
          match packing.2 with
          | .error e => (m, .error (.pack e))
          | .ok () =>
            let m := { m with propagationStamp := [], propagationPacked := [], transientID := [] }
            Prod.map id (Except.mapError .propagate)
              (m.packPropagated cr env.propagatedNow env.candidates (some recipient) pnStampCost)

/-- The message, the node that the cached link leads to, and what was uploaded where. -/
structure SendState where
  msg : PropagatedMessage
  propLinkNode : Option Bytes
  uploads : List (Bytes × Bytes)

/-- `clearPropagationLink`; none if it does not return. Tearing down an active link runs
its closed callback, which waits for `propLinkMu`. -/
def SendState.clearPropagationLink (isActive : Bool) (st : SendState) : Option SendState :=
  match st.propLinkNode with
  | none => some st
  | some _ => if isActive then none else some { st with propLinkNode := none }

/-- `establishPropagationLink` stores the link. -/
def SendState.establishPropagationLink (env : AttemptEnv Identity) (node : Bytes) (st : SendState) :
    SendState × Except RetryError LinkEnv :=
  match env.establish node with
  | .error e => (st, .error (.link e))
  | .ok lnk => ({ st with propLinkNode := some node }, .ok lnk)

/-- `ensurePropagationLink` drops a cached link that it cannot use as
`clearPropagationLink` does, under the same mutex. -/
def SendState.ensurePropagationLink (env : AttemptEnv Identity) (node : Bytes) (st : SendState) :
    Option (SendState × Except RetryError LinkEnv) :=
  if node.length ≠ destinationLength then some (st, .error .nodeLength)
  else if st.propLinkNode = some node ∧ env.cachedActive then some (st, .ok env.cachedLink)
  else (st.clearPropagationLink env.cachedActive).map (·.establishPropagationLink env node)

def SendState.sendPropagationPayload (lnk : LinkEnv) (node payload : Bytes) (st : SendState) :
    SendState × Except RetryError Unit :=
  match (lnk.sendPropagationPayload payload).2 with
  | .error e => (st, .error (.transfer e))
  | .ok () => ({ st with uploads := st.uploads ++ [(node, payload)] }, .ok ())

/-- The assignments to the message after a transfer. -/
def SendState.markSent (st : SendState) : SendState :=
  { st with msg := { st.msg with
      method := methodPropagated
      representation :=
        if st.msg.propagationPacked.length > linkPacketMaxContent then representationResource
        else representationPacket
      state := stateSent } }

inductive AttemptOutcome where
  | packFailed (e : RetryError)
  | linkFailed (e : RetryError)
  | transferFailed (e : RetryError)
  | sent
  deriving DecidableEq, Repr

/-- One round of the loop, up to what follows from its outcome; none if it does not end. -/
def tryNode (cr : Crypto Identity) (env : AttemptEnv Identity) (node : PropagationNode) (st : SendState) :
    Option (SendState × AttemptOutcome) :=
  let (msg, packed) := st.msg.packForPropagation cr env node.stampCost
  let st := { st with msg }
  match packed with
  | .error e => some (st, .packFailed e)
  | .ok () =>
    match st.clearPropagationLink env.cachedActive with
    | none => none
    | some st =>
      match st.establishPropagationLink env node.hash with
      | (st, .error e) => some (st, .linkFailed e)
      | (st, .ok lnk) =>
        match st.sendPropagationPayload lnk node.hash st.msg.propagationPacked with
        | (st, .error e) => (st.clearPropagationLink env.stillActive).map (·, .transferFailed e)
        | (st, .ok ()) => some (st.markSent, .sent)

/-! ## The send -/

/-- The loop of `SendPropagatedWithRetry`, from attempt `i` on. -/
def retryLoop (cr : Crypto Identity) (env : Nat → AttemptEnv Identity) (maxAttempts : Nat) :
    Nat → List PropagationNode → Option RetryError → SendState →
      Option (SendState × Except RetryError PropagationNode)
  | _, [], lastErr, st =>
    some (st, .error (lastErr.elim .noPropagationNode fun e => .failedAfter maxAttempts e))
  | i, node :: nodes, _, st =>
    match tryNode cr (env i) node st with
    | none => none
    | some (st, .packFailed e) => some (st, .error e)
    | some (st, .linkFailed e) | some (st, .transferFailed e) =>
      retryLoop cr env maxAttempts (i + 1) nodes (some e) st
    | some (st, .sent) => some (st, .ok node)

def sendPropagated (cr : Crypto Identity) (env : AttemptEnv Identity) (node : Bytes) (pnStampCost : Int)
    (st : SendState) : Option (SendState × Except RetryError Unit) :=
  let (msg, packed) := st.msg.packForPropagation cr env pnStampCost
  let st := { st with msg }
  match packed with
  | .error e => some (st, .error e)
  | .ok () =>
    match st.ensurePropagationLink env node with
    | none => none
    | some (st, .error e) => some (st, .error e)
    | some (st, .ok lnk) =>
      match st.sendPropagationPayload lnk node st.msg.propagationPacked with
      | (st, .error e) => some (st, .error e)
      | (st, .ok ()) => some (st.markSent, .ok ())

/-- `SendPropagatedWithRetry`; none if it does not return. -/
def sendPropagatedWithRetry (cr : Crypto Identity) (v : Visit PropagationNode) (s : Sorter PropagationNode)
    (env : Nat → AttemptEnv Identity) (transport : Option (Bytes → Bool))
    (registry : Option PropagationRegistry) (preferred : Bytes) (maxAttempts : Int) (st : SendState) :
    Option (SendState × Except RetryError PropagationNode) :=
  match registry with
  | none =>
    (sendPropagated cr (env 0) preferred leastStampCost st).map
      (Prod.map id (Except.map fun _ => ⟨preferred, [], 0, 0, 0⟩))
  | some registry =>
    let maxAttempts := if maxAttempts < 1 then 1 else maxAttempts
    let candidates := PropagationRegistry.attemptOrder v s (some registry) transport preferred (fun _ => false) 0
    if candidates.length = 0 then some (st, .error .noPropagationNode)
    else
      let maxAttempts :=
        if maxAttempts ≤ 0 ∨ maxAttempts > candidates.length then (candidates.length : Int) else maxAttempts
      retryLoop cr env maxAttempts.toNat 0 (candidates.take maxAttempts.toNat) none st

/-! ## All attempts -/

/-- What packing, link and transfer come to for a node, when the cached link is just
forgotten before the attempt and after a failed transfer. -/
def attempt (cr : Crypto Identity) (env : AttemptEnv Identity) (node : PropagationNode) (st : SendState) :
    SendState × AttemptOutcome :=
  let (msg, packed) := st.msg.packForPropagation cr env node.stampCost
  match packed with
  | .error e => ({ st with msg }, .packFailed e)
  | .ok () =>
    match env.establish node.hash with
    | .error e => ({ st with msg, propLinkNode := none }, .linkFailed (.link e))
    | .ok lnk =>
      match (lnk.sendPropagationPayload msg.propagationPacked).2 with
      | .error e => ({ st with msg, propLinkNode := none }, .transferFailed (.transfer e))
      | .ok () =>
        (SendState.markSent ⟨msg, some node.hash, st.uploads ++ [(node.hash, msg.propagationPacked)]⟩, .sent)

/-- The attempt drops a link that is active: the one that is cached at its beginning, or its
own after a failed transfer. -/
def AttemptEnv.blocks (env : AttemptEnv Identity) (st : SendState) : AttemptOutcome → Bool
  | .packFailed _ => false
  | .linkFailed _ | .sent => st.propLinkNode.isSome && env.cachedActive
  | .transferFailed _ => st.propLinkNode.isSome && env.cachedActive || env.stillActive

/-- An attempt with the states before and after it. -/
structure AttemptRecord where
  node : PropagationNode
  before : SendState
  after : SendState
  outcome : AttemptOutcome
  blocks : Bool

/-- The attempts as if every candidate were tried, from attempt `i` on. -/
def attempts (cr : Crypto Identity) (env : Nat → AttemptEnv Identity) :
    Nat → List PropagationNode → SendState → List AttemptRecord
  | _, [], _ => []
  | i, node :: nodes, st =>
    let (after, outcome) := attempt cr (env i) node st
    ⟨node, st, after, outcome, (env i).blocks st outcome⟩ :: attempts cr env (i + 1) nodes after

/-- Attempt `k` is the first in which packing, link and transfer succeed. -/
structure FirstSent (rs : List AttemptRecord) (k : Nat) (rec : AttemptRecord) : Prop where
  at_k : rs[k]? = some rec
  sent : rec.outcome = .sent
  before : ∀ j < k, ∀ rec', rs[j]? = some rec' → rec'.outcome ≠ .sent

/-- The candidates that may be tried. -/
def triedCandidates (v : Visit PropagationNode) (s : Sorter PropagationNode) (transport : Option (Bytes → Bool))
    (registry : PropagationRegistry) (preferred : Bytes) (maxAttempts : Int) : List PropagationNode :=
  (PropagationRegistry.attemptOrder v s (some registry) transport preferred (fun _ => false) 0).take
    (max 1 maxAttempts).toNat

/-- The send returns the first candidate for which everything succeeds. The payload
packed for its cost was uploaded to it, and nothing else. Without such a candidate
the send returns an error and the state of the message is as before. -/
structure RetryResult (cr : Crypto Identity) (env : Nat → AttemptEnv Identity) (nodes : List PropagationNode)
    (st : SendState) (result : Option (SendState × Except RetryError PropagationNode)) : Prop where
  sent : ∀ k rec, FirstSent (attempts cr env 0 nodes st) k rec →
    ∃ st', result = some (st', .ok rec.node) ∧ nodes[k]? = some rec.node ∧ st'.msg.state = stateSent ∧
      ∃ msg, rec.before.msg.packForPropagation cr (env k) rec.node.stampCost = (msg, .ok ()) ∧
        st'.uploads = st.uploads ++ [(rec.node.hash, msg.propagationPacked)]
  failed : (∀ k rec, ¬FirstSent (attempts cr env 0 nodes st) k rec) →
    ∃ st' e, result = some (st', .error e) ∧ st'.msg.state = st.msg.state

/-! ## What an attempt does -/

theorem packPropagated_state (cr : Crypto Identity) (now : BitVec 64) (candidates : List Candidate)
    (recipient : Recipient) (cost : Int) (m : PropagatedMessage) :
    (m.packPropagated cr now candidates (some recipient) cost).1.state = m.state := by
  simp only [PropagatedMessage.packPropagated, PropagatedMessage.encodeItem_eq]
  split
  · rfl
  · split
    · rfl
    · split
      · split <;> rfl
      · rfl

theorem LXMessage.pack_state (cr : Crypto Identity) (now : BitVec 64) (o₁ o₂ : MapOrder)
    (signer : Option Signer) (m : LXMessage) : (m.pack cr now o₁ o₂ signer).1.state = m.state := by
  unfold LXMessage.pack
  split
  · rfl
  · split
    · rfl
    · split
      · rfl
      · dsimp only
        split
        · rfl
        · split
          · rfl
          · split
            · rfl
            · split <;> rfl

theorem packForPropagation_state (cr : Crypto Identity) (env : AttemptEnv Identity) (cost : Int)
    (m : PropagatedMessage) : (m.packForPropagation cr env cost).1.state = m.state := by
  unfold PropagatedMessage.packForPropagation
  split
  · rfl
  · split
    · rfl
    · rfl
    · split
      · rfl
      · split
        · rfl
        · have hpacking : (if m.packed = [] then
              Prod.map id (Except.map fun _ => ())
                (m.toLXMessage.pack cr env.now env.order env.stampedOrder env.signer)
            else (m.toLXMessage, (.ok () : Except PackError Unit))).1.state = m.state := by
            split
            · exact LXMessage.pack_state ..
            · rfl
          dsimp only
          split
          · exact hpacking
          · exact (packPropagated_state ..).trans hpacking

/-- The message was packed for the node and uploaded to it. -/
structure SentTo (cr : Crypto Identity) (env : AttemptEnv Identity) (node : PropagationNode)
    (st st' : SendState) : Prop where
  state : st'.msg.state = stateSent
  uploads : ∃ msg, st.msg.packForPropagation cr env node.stampCost = (msg, .ok ()) ∧
    st'.uploads = st.uploads ++ [(node.hash, msg.propagationPacked)]

theorem attempt_cases {cr : Crypto Identity} {env : AttemptEnv Identity} {node : PropagationNode}
    {st st' : SendState} {outcome : AttemptOutcome} (h : attempt cr env node st = (st', outcome)) :
    outcome = .sent ∧ SentTo cr env node st st' ∨
      outcome ≠ .sent ∧ st'.msg.state = st.msg.state ∧ st'.uploads = st.uploads := by
  have hstate := packForPropagation_state cr env node.stampCost st.msg
  unfold attempt at h
  generalize hpack : st.msg.packForPropagation cr env node.stampCost = packing at h hstate
  obtain ⟨msg, packed⟩ := packing
  dsimp only at h
  split at h
  · cases h
    exact .inr ⟨by simp, hstate, rfl⟩
  · split at h
    · cases h
      exact .inr ⟨by simp, hstate, rfl⟩
    · split at h
      · cases h
        exact .inr ⟨by simp, hstate, rfl⟩
      · cases h
        exact .inl ⟨rfl, rfl, msg, hpack, rfl⟩

theorem clearPropagationLink_eq (isActive : Bool) (st : SendState) :
    st.clearPropagationLink isActive =
      if (st.propLinkNode.isSome && isActive) = true then none else some { st with propLinkNode := none } := by
  obtain ⟨msg, propLinkNode, uploads⟩ := st
  cases propLinkNode <;> simp [SendState.clearPropagationLink]

/-- A round of the loop ends as the attempt does, unless it drops an active link. -/
theorem tryNode_eq (cr : Crypto Identity) (env : AttemptEnv Identity) (node : PropagationNode) (st : SendState) :
    tryNode cr env node st =
      if env.blocks st (attempt cr env node st).2 = true then none else some (attempt cr env node st) := by
  unfold tryNode attempt
  generalize st.msg.packForPropagation cr env node.stampCost = packing
  obtain ⟨msg, packed⟩ := packing
  cases packed with
  | error e => rfl
  | ok u =>
    simp only [clearPropagationLink_eq, SendState.establishPropagationLink, SendState.sendPropagationPayload]
    by_cases hcached : (st.propLinkNode.isSome && env.cachedActive) = true
    · cases env.establish node.hash with
      | error e => simp [AttemptEnv.blocks, hcached]
      | ok lnk =>
        cases hsent : (lnk.sendPropagationPayload msg.propagationPacked).2 <;>
          simp [AttemptEnv.blocks, hcached, hsent]
    · cases env.establish node.hash with
      | error e => simp [AttemptEnv.blocks, hcached]
      | ok lnk =>
        cases hsent : (lnk.sendPropagationPayload msg.propagationPacked).2 with
        | error e => cases hstill : env.stillActive <;> simp [AttemptEnv.blocks, hcached, hsent, hstill]
        | ok u => simp [AttemptEnv.blocks, hcached, hsent]

/-! ## What the loop does -/

section

variable {cr : Crypto Identity} {env : Nat → AttemptEnv Identity} {nodes : List PropagationNode}
  {st : SendState}

def AttemptOutcome.IsPackFailed : AttemptOutcome → Prop
  | .packFailed _ => True
  | _ => False

/-- The loop goes on with the next candidate. -/
def AttemptOutcome.continues : AttemptOutcome → Bool
  | .linkFailed _ | .transferFailed _ => true
  | .packFailed _ | .sent => false

/-- No attempt that the loop comes to drops an active link. -/
def NoneBlocks : List AttemptRecord → Prop
  | [] => True
  | r :: rs => r.blocks = false ∧ (r.outcome.continues = true → NoneBlocks rs)

/-- No attempt before the first successful one fails in packing. -/
def PacksUntilSent (rs : List AttemptRecord) : Prop :=
  ∀ k rec, FirstSent rs k rec → ∀ j < k, ∀ rec', rs[j]? = some rec' → ¬rec'.outcome.IsPackFailed

theorem FirstSent.unique {rs : List AttemptRecord} {k k' : Nat} {rec rec' : AttemptRecord}
    (h : FirstSent rs k rec) (h' : FirstSent rs k' rec') : k = k' ∧ rec = rec' := by
  have hk : k = k' := by
    rcases Nat.lt_trichotomy k k' with hlt | heq | hgt
    · exact absurd h.sent (h'.before k hlt rec h.at_k)
    · exact heq
    · exact absurd h'.sent (h.before k' hgt rec' h'.at_k)
  subst hk
  exact ⟨rfl, Option.some.inj (h.at_k.symm.trans h'.at_k)⟩

theorem firstSent_cons_iff {r : AttemptRecord} {rs : List AttemptRecord} (hr : r.outcome ≠ .sent)
    {k : Nat} {rec : AttemptRecord} :
    FirstSent (r :: rs) k rec ↔ ∃ k', k = k' + 1 ∧ FirstSent rs k' rec := by
  constructor
  · intro h
    cases k with
    | zero =>
      have hrec : r = rec := Option.some.inj h.at_k
      exact absurd (hrec ▸ h.sent) hr
    | succ k => exact ⟨k, rfl, h.at_k, h.sent, fun j hj => h.before (j + 1) (Nat.succ_lt_succ hj)⟩
  · rintro ⟨k', rfl, h⟩
    refine ⟨h.at_k, h.sent, fun j hj rec' hrec' => ?_⟩
    cases j with
    | zero =>
      rw [← Option.some.inj hrec']
      exact hr
    | succ j => exact h.before j (Nat.lt_of_succ_lt_succ hj) rec' hrec'

/-- Each record is of one attempt. -/
theorem attempts_getElem? {i k : Nat} {rec : AttemptRecord} (h : (attempts cr env i nodes st)[k]? = some rec) :
    nodes[k]? = some rec.node ∧ attempt cr (env (i + k)) rec.node rec.before = (rec.after, rec.outcome) := by
  induction nodes generalizing i k st with
  | nil => cases h
  | cons node nodes ih =>
    cases k with
    | zero =>
      rw [attempts, List.getElem?_cons_zero, Option.some.injEq] at h
      subst h
      exact ⟨rfl, rfl⟩
    | succ k =>
      rw [attempts, List.getElem?_cons_succ] at h
      have hrec := ih h
      rw [show i + (k + 1) = i + 1 + k by omega]
      exact hrec

/-- Nothing is uploaded before the first success. -/
theorem uploads_before {i k : Nat} {rec : AttemptRecord} (h : FirstSent (attempts cr env i nodes st) k rec) :
    rec.before.uploads = st.uploads := by
  induction nodes generalizing i k st with
  | nil => cases h.at_k
  | cons node nodes ih =>
    cases k with
    | zero =>
      have hrec := h.at_k
      rw [attempts, List.getElem?_cons_zero, Option.some.injEq] at hrec
      subst hrec
      rfl
    | succ k =>
      have hfirst := h.before 0 (Nat.succ_pos k) _ rfl
      rw [attempts] at h
      obtain ⟨k', hk', hrest⟩ := (firstSent_cons_iff hfirst).mp h
      have htry : attempt cr (env i) node st =
        ((attempt cr (env i) node st).1, (attempt cr (env i) node st).2) := rfl
      rcases attempt_cases htry with ⟨hsent, -⟩ | ⟨-, -, huploads⟩
      · exact absurd hsent hfirst
      · exact (ih hrest).trans huploads

theorem packsUntilSent_cons_iff {r : AttemptRecord} {rs : List AttemptRecord} (hne : r.outcome ≠ .sent)
    (hpacked : ¬r.outcome.IsPackFailed) : PacksUntilSent (r :: rs) ↔ PacksUntilSent rs := by
  constructor
  · intro h k rec hfirst j hj rec' hrec'
    exact h (k + 1) rec ((firstSent_cons_iff hne).mpr ⟨k, rfl, hfirst⟩) (j + 1) (Nat.succ_lt_succ hj) rec' hrec'
  · intro h k rec hfirst j hj rec' hrec'
    obtain ⟨k', rfl, hrest⟩ := (firstSent_cons_iff hne).mp hfirst
    cases j with
    | zero =>
      rw [← Option.some.inj hrec']
      exact hpacked
    | succ j => exact h k' rec hrest j (Nat.lt_of_succ_lt_succ hj) rec' hrec'

/-- How the loop ends, given all attempts. -/
inductive LoopEnd (rs : List AttemptRecord) (st : SendState) :
    Option (SendState × Except RetryError PropagationNode) → Prop where
  | blocked (blocks : ¬NoneBlocks rs) : LoopEnd rs st none
  | sent {k : Nat} {rec : AttemptRecord} (noneBlocks : NoneBlocks rs) (first : FirstSent rs k rec)
      (packs : PacksUntilSent rs) : LoopEnd rs st (some (rec.after, .ok rec.node))
  | failed {st' : SendState} {e : RetryError} (noneBlocks : NoneBlocks rs) (state : st'.msg.state = st.msg.state)
      (unsent : ∀ k rec, FirstSent rs k rec → ¬PacksUntilSent rs) : LoopEnd rs st (some (st', .error e))

/-- The loop goes on after a failed link or transfer. -/
theorem LoopEnd.cons {r : AttemptRecord} {rs : List AttemptRecord} {st st' : SendState}
    {result : Option (SendState × Except RetryError PropagationNode)} (h : LoopEnd rs st' result)
    (hcontinues : r.outcome.continues = true) (hblocks : r.blocks = false)
    (hstate : st'.msg.state = st.msg.state) : LoopEnd (r :: rs) st result := by
  have hne : r.outcome ≠ .sent := by
    intro hsent
    rw [hsent] at hcontinues
    cases hcontinues
  have hpacked : ¬r.outcome.IsPackFailed := by
    intro hfailed
    cases hout : r.outcome <;> rw [hout] at hfailed hcontinues <;> first | exact hfailed | cases hcontinues
  cases h with
  | blocked blocks => exact .blocked fun h => blocks (h.2 hcontinues)
  | @sent k rec noneBlocks first packs =>
    exact .sent ⟨hblocks, fun _ => noneBlocks⟩ ((firstSent_cons_iff hne).mpr ⟨k, rfl, first⟩)
      ((packsUntilSent_cons_iff hne hpacked).mpr packs)
  | failed noneBlocks state unsent =>
    refine .failed ⟨hblocks, fun _ => noneBlocks⟩ (state.trans hstate) fun k rec hfirst hpacks => ?_
    obtain ⟨k', -, hrest⟩ := (firstSent_cons_iff hne).mp hfirst
    exact unsent k' rec hrest ((packsUntilSent_cons_iff hne hpacked).mp hpacks)

theorem retryLoop_ends (maxAttempts i : Nat) (nodes : List PropagationNode) (lastErr : Option RetryError)
    (st : SendState) :
    LoopEnd (attempts cr env i nodes st) st (retryLoop cr env maxAttempts i nodes lastErr st) := by
  induction nodes generalizing i lastErr st with
  | nil => exact .failed trivial rfl fun k rec h => absurd h.at_k (by simp [attempts])
  | cons node nodes ih =>
    unfold retryLoop attempts
    rw [tryNode_eq]
    generalize htry : attempt cr (env i) node st = result
    obtain ⟨st', outcome⟩ := result
    dsimp only
    cases hblocks : (env i).blocks st outcome with
    | true => exact .blocked fun h => Bool.noConfusion h.1
    | false =>
      have hcases := attempt_cases htry
      cases outcome with
      | packFailed e =>
        obtain ⟨hsent, -⟩ | ⟨hne, hstate, -⟩ := hcases
        · cases hsent
        · -- the loop ends here, though a later candidate may be fine
          refine .failed ⟨rfl, nofun⟩ hstate fun k rec hfirst hpacks => ?_
          obtain ⟨k', rfl, -⟩ := (firstSent_cons_iff hne).mp hfirst
          exact hpacks _ rec hfirst 0 (Nat.succ_pos k') _ rfl trivial
      | linkFailed e =>
        obtain ⟨hsent, -⟩ | ⟨-, hstate, -⟩ := hcases
        · cases hsent
        · exact (ih (i + 1) (some e) st').cons rfl rfl hstate
      | transferFailed e =>
        obtain ⟨hsent, -⟩ | ⟨-, hstate, -⟩ := hcases
        · cases hsent
        · exact (ih (i + 1) (some e) st').cons rfl rfl hstate
      | sent =>
        have hfirst : FirstSent (⟨node, st, st', .sent, false⟩ :: attempts cr env (i + 1) nodes st') 0
            ⟨node, st, st', .sent, false⟩ := ⟨rfl, rfl, fun j hj => absurd hj (Nat.not_lt_zero j)⟩
        have hnone : NoneBlocks (⟨node, st, st', .sent, false⟩ :: attempts cr env (i + 1) nodes st') := ⟨rfl, nofun⟩
        refine .sent hnone hfirst fun k rec h j hj => ?_
        rw [← (hfirst.unique h).1] at hj
        exact absurd hj (Nat.not_lt_zero j)

theorem retryLoop_result_iff (maxAttempts : Nat) :
    RetryResult cr env nodes st (retryLoop cr env maxAttempts 0 nodes none st) ↔
      PacksUntilSent (attempts cr env 0 nodes st) ∧ NoneBlocks (attempts cr env 0 nodes st) := by
  have hend : LoopEnd (attempts cr env 0 nodes st) st (retryLoop cr env maxAttempts 0 nodes none st) :=
    retryLoop_ends ..
  generalize retryLoop cr env maxAttempts 0 nodes none st = result at hend
  cases hend with
  | blocked blocks =>
    -- a send that does not return is wrong with and without a success
    refine iff_of_false (fun h => ?_) fun h => blocks h.2
    by_cases hsent : ∃ k rec, FirstSent (attempts cr env 0 nodes st) k rec
    · obtain ⟨k, rec, hfirst⟩ := hsent
      obtain ⟨st', hresult, -⟩ := h.sent k rec hfirst
      cases hresult
    · obtain ⟨st', e, hresult, -⟩ := h.failed fun k rec hfirst => hsent ⟨k, rec, hfirst⟩
      cases hresult
  | @sent k rec noneBlocks first packs =>
    refine iff_of_true ⟨fun k' rec' hfirst' => ?_, fun h => absurd first (h k rec)⟩ ⟨packs, noneBlocks⟩
    obtain ⟨rfl, rfl⟩ := first.unique hfirst'
    obtain ⟨hnode, htry⟩ := attempts_getElem? first.at_k
    rw [Nat.zero_add] at htry
    rcases attempt_cases htry with ⟨-, hsent⟩ | ⟨hne, -⟩
    · obtain ⟨msg, hmsg, huploads⟩ := hsent.uploads
      rw [uploads_before first] at huploads
      exact ⟨rec.after, rfl, hnode, hsent.state, msg, hmsg, huploads⟩
    · exact absurd first.sent hne
  | @failed st' e noneBlocks state unsent =>
    constructor
    · intro h
      refine ⟨fun k rec hfirst => ?_, noneBlocks⟩
      obtain ⟨st'', hresult, -⟩ := h.sent k rec hfirst
      cases hresult
    · intro hpacks
      exact ⟨fun k rec hfirst => absurd hpacks.1 (unsent k rec hfirst), fun _ => ⟨st', e, rfl, state⟩⟩

end

theorem sendPropagatedWithRetry_eq (cr : Crypto Identity) (v : Visit PropagationNode)
    (s : Sorter PropagationNode) (env : Nat → AttemptEnv Identity) (transport : Option (Bytes → Bool))
    (registry : PropagationRegistry) (preferred : Bytes) (maxAttempts : Int) (st : SendState) :
    ∃ n, sendPropagatedWithRetry cr v s env transport (some registry) preferred maxAttempts st =
      retryLoop cr env n 0 (triedCandidates v s transport registry preferred maxAttempts) none st := by
  unfold sendPropagatedWithRetry triedCandidates
  dsimp only
  generalize PropagationRegistry.attemptOrder v s (some registry) transport preferred (fun _ => false) 0 =
    candidates
  by_cases hempty : candidates.length = 0
  · rw [if_pos hempty, List.length_eq_zero_iff.mp hempty]
    exact ⟨0, by rw [List.take_nil]; rfl⟩
  · rw [if_neg hempty]
    refine ⟨_, congrArg (fun l => retryLoop cr env _ 0 l none st) ?_⟩
    split_ifs with h₁ h₂
    · rw [List.take_of_length_le (by omega), List.take_of_length_le (by omega)]
    · rw [Int.max_eq_left (by omega)]
    · rw [List.take_of_length_le (by omega), List.take_of_length_le (by omega)]
    · rw [Int.max_eq_right (by omega)]

/-- The send does what is expected of it exactly if no candidate before the first
successful one makes the packing fail, and no attempt drops an active link. -/
theorem retry_first_success_iff (cr : Crypto Identity) (v : Visit PropagationNode)
    (s : Sorter PropagationNode) (env : Nat → AttemptEnv Identity) (transport : Option (Bytes → Bool))
    (registry : PropagationRegistry) (preferred : Bytes) (maxAttempts : Int) (st : SendState) :
    RetryResult cr env (triedCandidates v s transport registry preferred maxAttempts) st
        (sendPropagatedWithRetry cr v s env transport (some registry) preferred maxAttempts st) ↔
      PacksUntilSent (attempts cr env 0 (triedCandidates v s transport registry preferred maxAttempts) st) ∧
      NoneBlocks (attempts cr env 0 (triedCandidates v s transport registry preferred maxAttempts) st) := by
  obtain ⟨n, hn⟩ := sendPropagatedWithRetry_eq cr v s env transport registry preferred maxAttempts st
  rw [hn]
  exact retryLoop_result_iff n

/-! ## A node that asks for too much -/

/-- A stamp of value 23. -/
def modestCandidate : Candidate := ⟨List.replicate 29 0 ++ [1, 0, 0], rfl⟩

/-- A link that takes packets. -/
def packetLink : LinkEnv where
  sendPacket _ := .ok ()
  transfer _ := .ok ()
  polls := []

/-- Everything works, and the search draws one candidate before it ends. -/
def modestEnv : AttemptEnv Unit where
  recallIdentity _ := .ok (some ())
  fromHash _ _ := .ok paddingRecipient
  signer := some tailSigner
  now := 1
  order := .listed
  stampedOrder := .listed
  propagatedNow := 1
  candidates := [modestCandidate]
  cachedLink := packetLink
  cachedActive := false
  establish _ := .ok packetLink
  stillActive := false

def costlyNode : PropagationNode := ⟨List.replicate 16 1, [], 200, 1, 0⟩
def cheapNode : PropagationNode := ⟨List.replicate 16 2, [], 13, 2, 0⟩

def twoNodes : PropagationRegistry := (PropagationRegistry.new.set costlyNode rfl).set cheapNode rfl

theorem meetsTarget_modestCandidate (cost : Int) (wb : Bytes) :
    meetsTarget plainCrypto cost wb modestCandidate.val =
      bytesLE ([0, 0, 1] ++ List.replicate 29 0) (stampTargetBytes cost) := by
  have hsum : plainCrypto.sha256 (wb ++ modestCandidate.val) = [0, 0, 1] ++ List.replicate 29 0 := by
    have hrev : modestCandidate.val.reverse = [0, 0, 1] ++ List.replicate 29 0 := by decide
    have hlen : ([0, 0, 1] ++ List.replicate 29 0 : Bytes).length = 32 := by decide
    simp only [plainCrypto, List.reverse_append, hrev, List.append_assoc]
    rw [← List.append_assoc [0, 0, 1] (List.replicate 29 0)]
    exact List.take_left' hlen
  rw [meetsTarget, hsum]

theorem packForPropagation_modest {m : PropagatedMessage} (hdst : m.destinationHash.length = destinationLength)
    (hpacked : m.packed ≠ []) (cost : Int) :
    m.packForPropagation plainCrypto modestEnv cost =
      Prod.map id (Except.mapError .propagate)
        ({ m with propagationStamp := [], propagationPacked := [], transientID := [] }.packPropagated
          plainCrypto 1 [modestCandidate] (some paddingRecipient) cost) := by
  simp [PropagatedMessage.packForPropagation, hdst, hpacked, modestEnv]

theorem attempt_costlyNode {st : SendState} (hdst : st.msg.destinationHash.length = destinationLength)
    (hpacked : st.msg.packed ≠ []) :
    ∃ st' e, attempt plainCrypto modestEnv costlyNode st = (st', .packFailed e) ∧
      st'.msg.destinationHash = st.msg.destinationHash ∧ st'.msg.packed = st.msg.packed := by
  have hid (data : Bytes) : plainCrypto.sha256 data ≠ [] := by
    intro hnil
    have hlen := plainCrypto.sha256_length data
    rw [hnil] at hlen
    cases hlen
  have htarget : bytesLE ([0, 0, 1] ++ List.replicate 29 0) (stampTargetBytes 200) = false := by decide
  have hstamp (data : Bytes) : generateStamp plainCrypto (plainCrypto.sha256 data) 200 workblockExpandRoundsPN
      [modestCandidate] = .error .notFound := by
    obtain ⟨wb, hwb⟩ := stampWorkblock_ok plainCrypto workblockExpandRoundsPN (by decide) (hid data)
    have hfind : [modestCandidate].find? (fun c => meetsTarget plainCrypto 200 wb c.val) = none :=
      List.find?_eq_none.mpr fun c hc => by
        rw [List.mem_singleton.mp hc, meetsTarget_modestCandidate, htarget]
        exact Bool.false_ne_true
    rw [generateStamp, if_neg (by decide), if_neg (by decide)]
    simp only [hwb, Except.ok_bind, hfind]
  simp only [attempt, packForPropagation_modest hdst hpacked, PropagatedMessage.packPropagated, costlyNode,
    if_neg hpacked, paddingRecipient_encrypt, hstamp]
  exact ⟨_, _, rfl, rfl, rfl⟩

theorem encodeBytesLen_length_le (n : Nat) : (encodeBytesLen n).length ≤ 5 := by
  unfold encodeBytesLen
  split_ifs <;> simp [write]

/-- What is uploaded of a short message fits in a link packet. -/
theorem PropagatedRun.packed_length_le {cr : Crypto Identity} {now : BitVec 64} {candidates : List Candidate}
    {cost : Int} {m m' : PropagatedMessage} {ciphertext : Bytes}
    (h : PropagatedRun cr now candidates cost m m' ciphertext) (hlen : ciphertext.length ≤ 200) :
    m'.propagationPacked.length ≤ linkPacketMaxContent := by
  obtain ⟨value, hstamp⟩ := h.stamp
  have hsize := (generateStamp_ok (by decide) hstamp).1
  have hhead := encodeBytesLen_length_le
    (m.packed.take destinationLength ++ ciphertext ++ m'.propagationStamp).length
  have htake : (m.packed.take destinationLength).length ≤ 16 := List.length_take_le _ _
  have hfloat : (encodeScalar false (.float64 now)).length = 9 := by simp [encodeScalar, write]
  have hstampSize : stampSize = 32 := rfl
  have hmax : linkPacketMaxContent = 319 := rfl
  rw [h.packed, propagationBytes]
  simp only [List.length_cons, List.length_append, hfloat] at hhead ⊢
  omega

theorem attempt_cheapNode {st : SendState} (hdst : st.msg.destinationHash.length = destinationLength)
    (hpacked : st.msg.packed ≠ []) (hshort : st.msg.packed.length ≤ 120) :
    ∃ st', attempt plainCrypto modestEnv cheapNode st = (st', .sent) := by
  have htarget : bytesLE ([0, 0, 1] ++ List.replicate 29 0) (stampTargetBytes 13) = true := by decide
  obtain ⟨m', hm'⟩ := packPropagated_isOk 1 (by decide : (1 : Int) ≤ 13)
    (m := { st.msg with propagationStamp := [], propagationPacked := [], transientID := [] }) hpacked
    (paddingRecipient_encrypt _)
    fun wb => ⟨modestCandidate, List.mem_singleton_self _, (meetsTarget_modestCandidate 13 wb).trans htarget⟩
  have hrun := packPropagated_ok (by decide) (paddingRecipient_encrypt _) hm'
  have hne : m'.propagationPacked.length ≠ 0 := by
    rw [hrun.packed, propagationBytes]
    simp
  have hle : m'.propagationPacked.length ≤ linkPacketMaxContent := by
    refine hrun.packed_length_le ?_
    rw [List.length_append, List.length_replicate, List.length_drop]
    exact Nat.add_le_add_right ((Nat.sub_le _ _).trans hshort) 80
  have hpack : st.msg.packForPropagation plainCrypto modestEnv cheapNode.stampCost = (m', .ok ()) := by
    rw [cheapNode, packForPropagation_modest hdst hpacked, hm']
    rfl
  have hlink : modestEnv.establish cheapNode.hash = .ok packetLink := rfl
  have hsent : (packetLink.sendPropagationPayload m'.propagationPacked).2 = .ok () :=
    LinkEnv.sendPropagationPayload_ok_iff.mpr ⟨hne, hle, rfl⟩
  simp only [attempt, hpack, hlink, hsent]
  exact ⟨_, rfl⟩

theorem twoNodes_candidates (v : Visit PropagationNode) (s : Sorter PropagationNode) :
    triedCandidates v s (some fun _ => true) twoNodes [] 2 = [costlyNode, cheapNode] := by
  have hvalues : twoNodes.values.filter (fun _ => true) = [costlyNode, cheapNode] := by decide
  have hsorted : [costlyNode, cheapNode].Pairwise fun a b => hopKey a < hopKey b := by
    simp only [List.pairwise_cons, List.mem_singleton, forall_eq, List.not_mem_nil, false_implies,
      implies_true, List.Pairwise.nil, and_true, hopKey_lt]
    exact .inl (by decide)
  have hbyHops : twoNodes.byHops v s (fun _ => true) = [costlyNode, cheapNode] :=
    eq_of_perm_of_pairwise PropagationRegistry.byHops_pairwise hsorted
      (PropagationRegistry.byHops_perm.trans (hvalues ▸ .refl _))
  rw [triedCandidates, attemptOrder_eq, hbyHops]
  decide

/-- The stamp for the first node is not found. The second node, to which the message could
be sent, is not tried. -/
theorem twoNodes_not_sent (v : Visit PropagationNode) (s : Sorter PropagationNode) {st : SendState}
    (hdst : st.msg.destinationHash.length = destinationLength) (hpacked : st.msg.packed ≠ [])
    (hshort : st.msg.packed.length ≤ 120) :
    (∃ rec, FirstSent (attempts plainCrypto (fun _ => modestEnv) 0
      (triedCandidates v s (some fun _ => true) twoNodes [] 2) st) 1 rec) ∧
    ∃ st' e, sendPropagatedWithRetry plainCrypto v s (fun _ => modestEnv) (some fun _ => true) (some twoNodes) [] 2
      st = some (st', .error e) := by
  obtain ⟨st₁, e, hcostly, hdst₁, hpacked₁⟩ := attempt_costlyNode hdst hpacked
  obtain ⟨st₂, hcheap⟩ := attempt_cheapNode (hdst₁ ▸ hdst) (hpacked₁ ▸ hpacked) (hpacked₁ ▸ hshort)
  have hattempts : attempts plainCrypto (fun _ => modestEnv) 0 [costlyNode, cheapNode] st =
      [⟨costlyNode, st, st₁, .packFailed e, false⟩,
        ⟨cheapNode, st₁, st₂, .sent, modestEnv.blocks st₁ .sent⟩] := by
    simp only [attempts, hcostly, hcheap, AttemptEnv.blocks]
  obtain ⟨n, hn⟩ := sendPropagatedWithRetry_eq plainCrypto v s (fun _ => modestEnv) (some fun _ => true)
    twoNodes [] 2 st
  rw [twoNodes_candidates] at hn ⊢
  refine ⟨⟨⟨cheapNode, st₁, st₂, .sent, modestEnv.blocks st₁ .sent⟩, ?_⟩, st₁, e, ?_⟩
  · rw [hattempts]
    refine ⟨rfl, rfl, fun j hj rec' hrec' => ?_⟩
    obtain rfl : j = 0 := by omega
    rw [← Option.some.inj hrec']
    simp
  · rw [hn, retryLoop, tryNode_eq, hcostly]
    rfl

/-- The message, packed before it is sent. -/
def packedState : SendState := ⟨packedContent [], none, []⟩

theorem packedState_packed : packedState.msg.packed ≠ [] := by
  intro hnil
  have hlen := packedContent_length []
  rw [show (packedContent []).packed = [] from hnil] at hlen
  exact absurd hlen (by decide)

theorem costly_node_ends_send :
    (∃ rec, FirstSent (attempts plainCrypto (fun _ => modestEnv) 0
      (triedCandidates (.listed _) (.merge _) (some fun _ => true) twoNodes [] 2) packedState) 1 rec) ∧
    ¬RetryResult plainCrypto (fun _ => modestEnv)
      (triedCandidates (.listed _) (.merge _) (some fun _ => true) twoNodes [] 2) packedState
      (sendPropagatedWithRetry plainCrypto (.listed _) (.merge _) (fun _ => modestEnv) (some fun _ => true)
        (some twoNodes) [] 2 packedState) := by
  have hdst : packedState.msg.destinationHash.length = destinationLength := by decide +kernel
  have hshort : packedState.msg.packed.length ≤ 120 := by decide +kernel
  obtain ⟨⟨rec, hfirst⟩, st', e, herr⟩ := twoNodes_not_sent (.listed _) (.merge _) hdst packedState_packed hshort
  refine ⟨⟨rec, hfirst⟩, fun h => ?_⟩
  obtain ⟨st'', hok, -⟩ := h.sent 1 rec hfirst
  rw [herr] at hok
  cases hok

end Lxmf
