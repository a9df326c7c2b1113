-- SUMMARY: What the steps of `onRoomContent` forward, to whom, and what they answer otherwise.
import ReticulumMf.Rrc.Accept
import ReticulumMf.Rrc.Authentic

/-!
# Relaying

`onRoomContent` checks the room name, the rate, the body and the membership, in
this order. It takes the recipients and the nickname in one critical section, builds
one envelope from the hub's own records and the message, and forwards it after that;
a message that fails a check is answered with an error.
-/

namespace Rrc

open Threads Transition

variable {text : GoText} {cfg : HubConfig} {t : Nat} {x : HubChoice} {s s' : HubState}
  {a b : HubAct} {r : Effect HubState HubAct} {i j : Nat} {env fwd : Envelope} {room : Bytes}
  {c c' : HubConf} {rest as todo : List HubAct}

/-! ## Admission -/

/-- The body is absent, or a text or byte string within the limit. -/
def BodyWithin (limits : HubLimits) (env : Envelope) : Prop :=
  env.hasBody = true →
    ∃ b, (env.body = .text b ∨ env.body = .bytes b) ∧ b.length ≤ limits.maxMsgBodyBytes

/-- The checks of `onRoomContent`: the rate is checked in the first state, the
membership in the second. -/
structure Admits (text : GoText) (cfg : HubConfig) (i : Nat) (env : Envelope) (s : HubState)
    (now : Int) (s' : HubState) : Prop where
  room : normalizeRoom text env.room ≠ []
  rate : ((s.peer i).allowRate cfg.limits.rateLimitMsgsPerMinute now).2 = true
  body : BodyWithin cfg.limits env
  member : normalizeRoom text env.room ∈ (s'.peer i).rooms

theorem bodyError_eq_none_iff {limits : HubLimits} :
    bodyError limits env = none ↔ BodyWithin limits env := by
  unfold bodyError BodyWithin
  cases env.hasBody with
  | false => simp
  | true => cases env.body <;> simp

/-! ## Recipients -/

/-- Session `j` is that of an active peer in the room, under another key than `i`. -/
def HubState.Receives (s : HubState) (i : Nat) (room : Bytes) (j : Nat) : Prop :=
  ∃ k, k ∈ s.members room ∧ k ≠ (s.peer i).peerHash ∧ s.peers.lookup k = some j ∧
    (s.peer j).active = true

theorem mem_recipients : j ∈ s.recipients i room ↔ s.Receives i room j := by
  simp only [HubState.recipients, HubState.Receives, List.mem_filterMap, AList.mem_keys]
  refine exists_congr fun k => and_congr_right fun _ => ?_
  split
  · simp [*]
  · simp [*]

/-- No session is listed twice, as each is in `h.peers` under its own hash only. -/
theorem recipients_nodup
    (hkeys : ∀ {k j}, s.peers.lookup k = some j → (s.peer j).peerHash = k) :
    (s.recipients i room).Nodup := by
  refine List.Nodup.filterMap (fun k k' j hk hk' => ?_) (s.members room).nodupKeys
  have hlookup : ∀ {k}, j ∈ (if k = (s.peer i).peerHash then none
      else (s.peers.lookup k).filter fun j => (s.peer j).active) → s.peers.lookup k = some j := by
    intro k hk
    split at hk
    · cases hk
    · exact (Option.filter_eq_some_iff.mp hk).1
  exact (hkeys (hlookup hk)).symm.trans (hkeys (hlookup hk'))

/-! ## The forwarded envelope -/

/-- What a forwarded envelope says: who sent it and where, by the hub's own
records, and the rest as it came in. -/
structure Stamped (sender nick room : Bytes) (env fwd : Envelope) : Prop where
  sender : fwd.sender = sender
  nick : fwd.nick = nick ∧ (fwd.hasNick = true ↔ nick ≠ [])
  room : fwd.room = room ∧ fwd.hasRoom = true
  type : fwd.type = env.type
  msgID : fwd.msgID = env.msgID
  timestamp : fwd.timestamp = env.timestamp
  body : fwd.hasBody = env.hasBody ∧ (env.hasBody = true → fwd.body = env.body)

theorem newEnvelope_isSome {fresh : Fresh} {msgType : Nat} {sender : Bytes}
    (hfresh : fresh.isSome = true) (hsender : sender.length = identityLength) :
    ∃ env, newEnvelope fresh msgType sender = some env := by
  obtain ⟨⟨id, millis⟩, rfl⟩ := Option.isSome_iff_exists.mp hfresh
  simp [newEnvelope, hsender]

theorem forwarded_stamped {p : HubPeer} {fresh : Fresh}
    (h : newEnvelope fresh env.type p.peerHash = some fwd) :
    Stamped p.peerHash p.nick room env (forwarded p room env fwd) := by
  unfold newEnvelope at h
  split at h
  · cases h
  obtain ⟨⟨id, millis⟩, -, rfl⟩ := Option.map_eq_some_iff.mp h
  by_cases hbody : env.hasBody = true <;> by_cases hnick : p.nick = [] <;>
    constructor <;> simp [forwarded, hbody, hnick]

/-! ## Steps -/

theorem onRoomContent_push (h : hubAct text cfg x s (.onRoomContent i env) = some r) :
    (normalizeRoom text env.room ≠ [] ∧
      ((s.peer i).allowRate cfg.limits.rateLimitMsgsPerMinute x.now).2 = true ∧
      r.push = [.relay i env (normalizeRoom text env.room)]) ∨
    (∀ s', ¬Admits text cfg i env s x.now s') ∧ ∃ msg, r.push = [.reply i (.error msg)] := by
  simp only [hubAct] at h
  split at h
  · rename_i hroom
    cases h
    exact .inr ⟨fun _ hadmits => hadmits.room hroom, _, rfl⟩
  · rename_i hroom
    split at h <;> cases h
    · exact .inl ⟨hroom, ‹_›, rfl⟩
    · exact .inr ⟨fun _ hadmits => absurd hadmits.rate ‹_›, _, rfl⟩

theorem relay_push (hfresh : x.fresh.isSome = true)
    (hhash : (s.peer i).peerHash.length = identityLength)
    (h : relayAct cfg x s i env room = some r) :
    (BodyWithin cfg.limits env ∧ room ∈ (s.peer i).rooms ∧ x.order.Perm (s.recipients i room) ∧
      ∃ fwd, Stamped (s.peer i).peerHash (s.peer i).nick room env fwd ∧
        r.push = x.order.map (.forward · fwd) ++ [.call i (.onMsg env)]) ∨
    ¬(BodyWithin cfg.limits env ∧ room ∈ (s.peer i).rooms) ∧
      ∃ msg, r.push = [.reply i (.error msg)] := by
  simp only [relayAct] at h
  split at h
  · rename_i msg hbody
    cases h
    refine .inr ⟨fun hok => ?_, msg, rfl⟩
    cases hbody.symm.trans (bodyError_eq_none_iff.mpr hok.1)
  · rename_i hbody
    split at h
    · cases h
      exact .inr ⟨fun hok => absurd hok.2 ‹_›, _, rfl⟩
    · rename_i hmember
      split at h
      · cases h
      · rename_i hblocked
        push Not at hblocked
        obtain ⟨fwd, hnew⟩ : ∃ fwd, newEnvelope x.fresh env.type (s.peer i).peerHash = some fwd :=
          newEnvelope_isSome hfresh hhash
        simp only [hnew] at h
        cases h
        exact .inl ⟨bodyError_eq_none_iff.mp hbody, not_not.mp hmember, hblocked.2, _,
          forwarded_stamped hnew, rfl⟩

/-- The last steps of a call: they push nothing. -/
def HubAct.Final (i : Nat) : HubAct → Prop
  | .reply j (.error _) => j = i
  | .forward _ _ | .call _ _ => True
  | _ => False

theorem HubAct.Final.push (ha : a.Final i) (h : hubAct text cfg x s a = some r) : r.push = [] := by
  refine List.eq_nil_iff_forall_not_mem.mpr fun b hb => ?_
  cases hubAct_leads h hb <;> exact ha.elim

theorem relay_final (h : relayAct cfg x s i env room = some r) : ∀ b ∈ r.push, b.Final i := by
  intro b hb
  cases relayAct_leads h hb with
  | relayError => exact rfl
  | forward _ _ | relayed => exact trivial

/-! ## Sending -/

def HubAct.sends : HubAct → Bool
  | .forward _ _ | .reply _ _ => true
  | _ => false

/-- Nothing else puts anything on the wire. -/
theorem sent_of_not_sends (h : hubAct text cfg x s a = some r) (ha : a.sends = false) :
    r.shared.sent = s.sent := by
  refine (hubAct_outcome h).sent_eq (fun i m heq => ?_) fun i env heq => ?_
  · subst heq
    cases ha
  · subst heq
    cases ha

/-- `sendEnvelope` succeeds: there is a session, it is not closed, its link is
active, and the packet can be made and handed over. -/
def HubPeer.canSend (p : HubPeer) (x : HubChoice) : Bool :=
  p.sess && !p.closed && p.status = .active && x.transmitted

theorem sendEnvelope_canSend (hsess : (s.peer i).sess = true) :
    (s.sendEnvelope x i env).1.sent =
      if (s.peer i).canSend x then s.sent ++ [(i, env)] else s.sent := by
  simp only [HubState.sendEnvelope, HubPeer.canSend, hsess]
  grind

/-- The envelope of a reply has the reply's type and room. -/
theorem reply_eq {m : Reply} (hfresh : x.fresh.isSome = true)
    (hsender : cfg.sender.length = identityLength) :
    ∃ env, env.type = m.type ∧ (m.room ≠ [] → env.room = m.room ∧ env.hasRoom = true) ∧
      s.reply cfg x i m = s.sendEnvelope x i env := by
  obtain ⟨env, hnew⟩ : ∃ env, newEnvelope x.fresh m.type cfg.sender = some env :=
    newEnvelope_isSome hfresh hsender
  simp only [HubState.reply, HubState.sendType, hnew]
  have htype := newEnvelope_type hnew
  refine ⟨_, ?_, fun hroom => ?_, rfl⟩
  · split <;> split <;> split <;> exact htype
  · rw [if_pos hroom]
    split <;> split <;> exact ⟨rfl, rfl⟩

/-- A choice with which everything works. -/
def readyChoice (order : List Nat) : HubChoice := { fresh := some ([], 0), order }

theorem relayAct_isSome (hi : s.Assigned i) :
    ∃ r, relayAct cfg (readyChoice (s.recipients i room)) s i env room = some r := by
  have hsess : (s.peer i).sess = true := hi
  simp only [relayAct, readyChoice, hsess]
  split
  · exact ⟨_, rfl⟩
  · split
    · exact ⟨_, rfl⟩
    · simp only [Bool.true_eq_false, List.Perm.refl, not_true_eq_false, or_self, if_false]
      split <;> exact ⟨_, rfl⟩

def sampleMsg : Envelope :=
  { type := typeMsg, sender := sampleIdentity, room := sampleRoom, hasRoom := true,
    body := .text [104, 105], hasBody := true }

end Rrc
