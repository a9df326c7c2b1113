-- SUMMARY: What one step of the hub can do to a peer, to the hub's maps and to what is sent.
import ReticulumMf.Rrc.Hub

/-!
# Steps of the hub

Each invariant of the hub looks at a few fields. This module says once which
actions write which: `Updates` for the record of one peer, `Commits` for the
critical sections that write `h.peers` and `h.rooms`, and lemmas for the
envelopes sent and the handlers called.
-/

namespace Rrc

open Threads

/-! ## What a step may write -/

/-- The actions that write the record of a peer, and what they leave there. -/
inductive HubAct.Updates (s : HubState) : HubAct → Nat → HubPeer → Prop
  | setPacketCallback {i : Nat} :
      Updates s (.setPacketCallback i) i { s.peer i with packetCallback := true }
  | takePending {i : Nat} : Updates s (.takePending i) i { s.peer i with pendingPlainData := none }
  | assignSess {i : Nat} : Updates s (.assignSess i) i { s.peer i with sess := true }
  | setIdentifiedCallback {i : Nat} :
      Updates s (.setIdentifiedCallback i) i { s.peer i with identifiedCallback := true }
  | queuePlain {i : Nat} {data : Plain} :
      Updates s (.queuePlain i data) i { s.peer i with pendingPlainData := some data }
  | setRemote {i : Nat} {hash : Bytes} :
      Updates s (.setRemote i hash) i { s.peer i with remoteIdentity := some hash }
  | bufferHello {i : Nat} {env : Envelope} :
      Updates s (.bufferHello i env) i { s.peer i with pendingHello := some env }
  | register {i : Nat} {hash : Bytes} (hfresh : (s.peer i).registerOnce = .fresh)
      (hlength : hash.length = identityLength) :
      Updates s (.register i hash) i { s.peer i with registerOnce := .running }
  | setHash {i : Nat} {hash : Bytes} :
      Updates s (.setHash i hash) i { s.peer i with peerHash := hash }
  | registerLocked {i : Nat} : Updates s (.registerLocked i) i { s.peer i with pendingHello := none }
  | onceDone {i : Nat} : Updates s (.onceDone i) i { s.peer i with registerOnce := .done }
  | applyInboundNick {i : Nat} {env : Envelope} {active : Bool} {nick : Bytes} :
      Updates s (.applyInboundNick i env active) i { s.peer i with nick }
  | onHello {i : Nat} {env : Envelope} :
      Updates s (.onHello i env) i { s.peer i with active := true }
  | onJoin {i : Nat} {env : Envelope} {rooms : GoSet Bytes} :
      Updates s (.onJoin i env) i { s.peer i with rooms }
  | onPart {i : Nat} {env : Envelope} {rooms : GoSet Bytes} :
      Updates s (.onPart i env) i { s.peer i with rooms }
  | onRoomContent {i : Nat} {env : Envelope} {msgTimes : List Int} :
      Updates s (.onRoomContent i env) i { s.peer i with msgTimes }
  | close {i : Nat} (hsess : (s.peer i).sess = true) :
      Updates s (.close i) i { s.peer i with closed := true }
  | teardown {i : Nat} (hstatus : (s.peer i).status = .active) :
      Updates s (.teardown i) i { s.peer i with status := .closed }

/-- A step changes no peer, or one as `Updates` says. -/
def HubAct.PeersAfter (a : HubAct) (s s' : HubState) : Prop :=
  s'.peer = s.peer ∨ ∃ i p, a.Updates s i p ∧ s'.peer = (s.set i p).peer

/-- The critical sections that write `h.peers` and `h.rooms`. -/
inductive HubAct.Commits (text : GoText) (cfg : HubConfig) (s : HubState) :
    HubAct → HubState → Prop
  | registerLocked {i : Nat} : Commits text cfg s (.registerLocked i) (s.registerLocked i).1
  | dropPeerIf {i : Nat} {s' : HubState} (h : s.dropPeerIf i = some s') :
      Commits text cfg s (.dropPeerIf i) s'
  | onJoin {i : Nat} {env : Envelope} {s' : HubState}
      (h : s.joinLocked cfg.limits i (normalizeRoom text env.room) = some s') :
      Commits text cfg s (.onJoin i env) s'
  | onPart {i : Nat} {env : Envelope} {s' : HubState}
      (h : s.partLocked i (normalizeRoom text env.room) = some s') :
      Commits text cfg s (.onPart i env) s'
  | hubClose : Commits text cfg s .hubClose { s with peers := ∅, rooms := ∅ }

/-- All that an action can do to the state. -/
inductive HubAct.Outcome (text : GoText) (cfg : HubConfig) (x : HubChoice) (s : HubState) :
    HubAct → HubState → Prop
  | same {a : HubAct} : Outcome text cfg x s a s
  | update {a : HubAct} {i : Nat} {p : HubPeer} (h : a.Updates s i p)
      (hrooms : p.rooms = (s.peer i).rooms) : Outcome text cfg x s a (s.set i p)
  | commit {a : HubAct} {s' : HubState} (h : a.Commits text cfg s s') : Outcome text cfg x s a s'
  | reply {i : Nat} {m : Reply} : Outcome text cfg x s (.reply i m) (s.reply cfg x i m).1
  | forward {i : Nat} {env : Envelope} :
      Outcome text cfg x s (.forward i env) (s.sendEnvelope x i env).1
  | call {i : Nat} {c : HubCall} :
      Outcome text cfg x s (.call i c) { s with calls := s.calls ++ [(i, c)] }

/-- The membership data of the hub: its two maps, and the rooms of each peer. -/
structure HubState.SameMembership (s s' : HubState) : Prop where
  peers : s'.peers = s.peers
  rooms : s'.rooms = s.rooms
  peerRooms : ∀ i, (s'.peer i).rooms = (s.peer i).rooms

/-- The control flow of the hub's goroutines: what an action can lead to next. -/
inductive HubAct.Leads (s : HubState) : HubAct → HubAct → Prop
  | takePending {i : Nat} {data : Plain} (h : (s.peer i).pendingPlainData = some data) :
      Leads s (.takePending i) (.handleInbound i data)
  | acceptReadRemote {i : Nat} {hash : Bytes} (h : (s.peer i).remoteIdentity = some hash) :
      Leads s (.acceptReadRemote i) (.register i hash)
  | deliver {i : Nat} {data : Plain} (h : (s.peer i).packetCallback = true) :
      Leads s (.deliver i data) (.handleInbound i data)
  | queuePlain {i : Nat} {data : Plain} : Leads s (.deliver i data) (.queuePlain i data)
  | checkRemote {i : Nat} {hash : Bytes} : Leads s (.checkRemote i hash) (.setRemote i hash)
  | setRemote {i : Nat} {hash : Bytes} : Leads s (.setRemote i hash) (.fireIdentified i hash)
  | fireIdentified {i : Nat} {hash : Bytes} (h : (s.peer i).identifiedCallback = true) :
      Leads s (.fireIdentified i hash) (.register i hash)
  | pong {i : Nat} {env : Envelope} : Leads s (.handleInbound i (some env)) (.reply i (.pong env))
  | onMsg {i : Nat} {env : Envelope} : Leads s (.handleInbound i (some env)) (.onMsg i env)
  | readRemote {i : Nat} {env : Envelope} (h : (s.peer i).peerHash = []) :
      Leads s (.onMsg i env) (.readRemote i env)
  | handle {i : Nat} {env : Envelope} (h : (s.peer i).peerHash ≠ []) :
      Leads s (.onMsg i env) (.handlePeer i env)
  | readRegister {i : Nat} {env : Envelope} {hash : Bytes}
      (h : (s.peer i).remoteIdentity = some hash) : Leads s (.readRemote i env) (.register i hash)
  | bufferHello {i : Nat} {env : Envelope} (h : (s.peer i).remoteIdentity = none)
      (htype : env.type = typeHello) : Leads s (.readRemote i env) (.bufferHello i env)
  | readRecheck {i : Nat} {env : Envelope} : Leads s (.readRemote i env) (.recheck i env)
  | recheck {i : Nat} {env : Envelope} (h : (s.peer i).peerHash ≠ []) :
      Leads s (.recheck i env) (.handlePeer i env)
  | setHash {i : Nat} {hash : Bytes} (hfresh : (s.peer i).registerOnce = .fresh)
      (hlength : hash.length = identityLength) : Leads s (.register i hash) (.setHash i hash)
  | registerLocked {i : Nat} {hash : Bytes} (hfresh : (s.peer i).registerOnce = .fresh)
      (hlength : hash.length = identityLength) : Leads s (.register i hash) (.registerLocked i)
  | onceDone {i : Nat} {hash : Bytes} : Leads s (.register i hash) (.onceDone i)
  | displace {i j : Nat} (h : s.peers.lookup (s.peer i).peerHash = some j) (hne : j ≠ i) :
      Leads s (.registerLocked i) (.close j)
  | waiting {i : Nat} {env : Envelope} (h : (s.peer i).pendingHello = some env) :
      Leads s (.registerLocked i) (.handlePeer i env)
  | handlePeer {i : Nat} {env : Envelope} :
      Leads s (.handlePeer i env) (.applyInboundNick i env (s.peer i).active)
  | nickTooLong {i : Nat} {env : Envelope} {active : Bool} {msg : String} :
      Leads s (.applyInboundNick i env active) (.reply i (.error msg))
  | nickClose {i : Nat} {env : Envelope} : Leads s (.applyInboundNick i env false) (.close i)
  | onHello {i : Nat} {env : Envelope} (htype : env.type = typeHello) :
      Leads s (.applyInboundNick i env false) (.onHello i env)
  | onJoin {i : Nat} {env : Envelope} : Leads s (.applyInboundNick i env true) (.onJoin i env)
  | onPart {i : Nat} {env : Envelope} : Leads s (.applyInboundNick i env true) (.onPart i env)
  | onRoomContent {i : Nat} {env : Envelope}
      (htype : env.type = typeMsg ∨ env.type = typeNotice ∨ env.type = typeAction) :
      Leads s (.applyInboundNick i env true) (.onRoomContent i env)
  | welcome {i : Nat} {env : Envelope} : Leads s (.onHello i env) (.reply i (.welcome env))
  | joinError {i : Nat} {env : Envelope} {msg : String} :
      Leads s (.onJoin i env) (.reply i (.error msg))
  | joined {i : Nat} {env : Envelope} {room : Bytes} {memberList : List Bytes} :
      Leads s (.onJoin i env) (.reply i (.joined room memberList env))
  | parted {i : Nat} {env : Envelope} {room : Bytes} :
      Leads s (.onPart i env) (.reply i (.parted room env))
  | contentError {i : Nat} {env : Envelope} {msg : String} :
      Leads s (.onRoomContent i env) (.reply i (.error msg))
  | relay {i : Nat} {env : Envelope} {room : Bytes} :
      Leads s (.onRoomContent i env) (.relay i env room)
  | relayError {i : Nat} {env : Envelope} {room : Bytes} {msg : String} :
      Leads s (.relay i env room) (.reply i (.error msg))
  | forward {i j : Nat} {env fwd : Envelope} {room : Bytes} (h : j ∈ s.recipients i room)
      (htype : fwd.type = env.type) : Leads s (.relay i env room) (.forward j fwd)
  | relayed {i : Nat} {env : Envelope} {room : Bytes} :
      Leads s (.relay i env room) (.call i (.onMsg env))
  | callOnHello {i : Nat} {env : Envelope} :
      Leads s (.reply i (.welcome env)) (.call i (.onHello env))
  | welcomeFailed {i : Nat} {env : Envelope} : Leads s (.reply i (.welcome env)) (.close i)
  | callOnJoin {i : Nat} {env : Envelope} {room : Bytes} {memberList : List Bytes} :
      Leads s (.reply i (.joined room memberList env)) (.call i (.onJoin room env))
  | callOnPart {i : Nat} {env : Envelope} {room : Bytes} :
      Leads s (.reply i (.parted room env)) (.call i (.onPart room env))
  | teardown {i : Nat} : Leads s (.close i) (.teardown i)
  | dropPeerIf {i : Nat} : Leads s (.close i) (.dropPeerIf i)
  | callOnClose {i : Nat} : Leads s (.dropPeerIf i) (.call i .onClose)
  | hubClose {k : Bytes} {j : Nat} (h : s.peers.lookup k = some j) : Leads s .hubClose (.close j)

/-- What an event from outside sets off. -/
inductive HubEvent.Starts (s : HubState) : HubEvent → HubAct → Prop
  | established {a : HubAct} (h : a ∈ acceptLink s.accepted) : Starts s .established a
  | packet {i : Nat} {data : Plain} (h : i < s.accepted) :
      Starts s (.packet i data) (.deliver i data)
  | identify {i : Nat} {hash : Bytes} (h : i < s.accepted)
      (hlength : hash.length = identityLength) : Starts s (.identify i hash) (.checkRemote i hash)
  | close : Starts s .close .hubClose

/-- What holds of each action of `acceptLink`. -/
@[elab_as_elim]
theorem mem_acceptLink_cases {i : Nat} {motive : HubAct → Prop} {b : HubAct} (hb : b ∈ acceptLink i)
    (packet : motive (.setPacketCallback i)) (pending : motive (.takePending i)) (sess : motive (.assignSess i))
    (identified : motive (.setIdentifiedCallback i)) (remote : motive (.acceptReadRemote i)) : motive b := by
  simp only [acceptLink, List.mem_cons, List.not_mem_nil, or_false] at hb
  rcases hb with rfl | rfl | rfl | rfl | rfl <;> assumption

variable {text : GoText} {cfg : HubConfig} {x : HubChoice} {s s' : HubState} {a : HubAct}
  {r : Effect HubState HubAct} {i j : Nat} {env : Envelope} {m : Reply}

/-! ## Sending -/

/-- A send either fails and changes nothing, or appends one envelope. -/
theorem sendEnvelope_cases (s : HubState) (x : HubChoice) (i : Nat) (env : Envelope) :
    s.sendEnvelope x i env = (s, false) ∨
      s.sendEnvelope x i env = ({ s with sent := s.sent ++ [(i, env)] }, true) ∧
        (s.peer i).closed = false ∧ (s.peer i).status = .active := by
  simp only [HubState.sendEnvelope]
  split
  · exact .inl rfl
  · rename_i h
    push Not at h
    exact .inr ⟨rfl, by simpa using h.1, h.2.1⟩

theorem reply_cases (cfg : HubConfig) (s : HubState) (x : HubChoice) (i : Nat) (m : Reply) :
    s.reply cfg x i m = (s, false) ∨
      ∃ env, env.type = m.type ∧
        s.reply cfg x i m = ({ s with sent := s.sent ++ [(i, env)] }, true) := by
  simp only [HubState.reply, HubState.sendType]
  split
  · exact .inl rfl
  · rename_i fwd hnew
    refine (sendEnvelope_cases s x i _).imp_right fun h => ⟨_, ?_, h.1⟩
    have htype := newEnvelope_type hnew
    split <;> split <;> split <;> exact htype

@[simp]
theorem sendEnvelope_peer : (s.sendEnvelope x i env).1.peer = s.peer := by
  obtain h | ⟨h, -⟩ := sendEnvelope_cases s x i env <;> rw [h]

@[simp]
theorem reply_peer : (s.reply cfg x i m).1.peer = s.peer := by
  obtain h | ⟨env, -, h⟩ := reply_cases cfg s x i m <;> rw [h]

@[simp]
theorem sendEnvelope_peers : (s.sendEnvelope x i env).1.peers = s.peers := by
  obtain h | ⟨h, -⟩ := sendEnvelope_cases s x i env <;> rw [h]

@[simp]
theorem reply_peers : (s.reply cfg x i m).1.peers = s.peers := by
  obtain h | ⟨env, -, h⟩ := reply_cases cfg s x i m <;> rw [h]

@[simp]
theorem sendEnvelope_rooms : (s.sendEnvelope x i env).1.rooms = s.rooms := by
  obtain h | ⟨h, -⟩ := sendEnvelope_cases s x i env <;> rw [h]

@[simp]
theorem reply_rooms : (s.reply cfg x i m).1.rooms = s.rooms := by
  obtain h | ⟨env, -, h⟩ := reply_cases cfg s x i m <;> rw [h]

/-- The rate check only touches the time stamps. -/
theorem allowRate_eq (limit : Nat) (now : Int) (p : HubPeer) :
    ∃ msgTimes, (p.allowRate limit now).1 = { p with msgTimes } := by
  unfold HubPeer.allowRate
  split
  · exact ⟨p.msgTimes, rfl⟩
  · dsimp only
    split
    · exact ⟨_, rfl⟩
    · exact ⟨_, rfl⟩

/-! ## One peer -/

theorem joinLocked_some {limits : HubLimits} {room : Bytes}
    (h : s.joinLocked limits i room = some s') :
    (room ∈ (s.peer i).rooms ∧ s' = s) ∨
      room ∉ (s.peer i).rooms ∧ (s.peer i).rooms.keys.length < limits.maxRoomsPerSession ∧
        s' = s.enterRoom i room := by
  simp only [HubState.joinLocked] at h
  split at h
  · cases h
    exact .inl ⟨‹_›, rfl⟩
  · split at h <;> cases h
    exact .inr ⟨‹_›, not_le.mp ‹_›, rfl⟩

theorem partLocked_some {room : Bytes} (h : s.partLocked i room = some s') :
    room ∈ (s.peer i).rooms ∧ s' = s.leaveRoom i room := by
  simp only [HubState.partLocked] at h
  split at h <;> cases h
  exact ⟨‹_›, rfl⟩

theorem dropPeerIf_some (h : s.dropPeerIf i = some s') :
    s.peers.lookup (s.peer i).peerHash = some i ∧ s' = s.removePeer i := by
  simp only [HubState.dropPeerIf] at h
  split at h
  · cases h
  · split at h <;> cases h
    exact ⟨not_not.mp ‹_›, rfl⟩

theorem relayAct_shared {room : Bytes} (h : relayAct cfg x s i env room = some r) :
    r.shared = s := by
  simp only [relayAct] at h
  split at h
  · cases h
    rfl
  · split at h
    · cases h
      rfl
    · split at h
      · cases h
      · split at h <;> cases h <;> rfl

theorem HubAct.Commits.peersAfter (h : a.Commits text cfg s s') : a.PeersAfter s s' := by
  cases h with
  | registerLocked => exact .inr ⟨_, _, .registerLocked, rfl⟩
  | dropPeerIf h =>
    obtain ⟨-, rfl⟩ := dropPeerIf_some h
    exact .inl rfl
  | onJoin h =>
    obtain ⟨-, rfl⟩ | ⟨-, -, rfl⟩ := joinLocked_some h
    · exact .inl rfl
    · exact .inr ⟨_, _, .onJoin, rfl⟩
  | onPart h =>
    obtain ⟨-, rfl⟩ := partLocked_some h
    exact .inr ⟨_, _, .onPart, rfl⟩
  | hubClose => exact .inl rfl

/-- The one place where the actions are taken apart. -/
theorem hubAct_outcome (h : hubAct text cfg x s a = some r) :
    a.Outcome text cfg x s r.shared := by
  cases a with
  | setPacketCallback i => cases h; exact .update .setPacketCallback rfl
  | takePending i => cases h; exact .update .takePending rfl
  | assignSess i => cases h; exact .update .assignSess rfl
  | setIdentifiedCallback i => cases h; exact .update .setIdentifiedCallback rfl
  | queuePlain i data => cases h; exact .update .queuePlain rfl
  | setRemote i hash => cases h; exact .update .setRemote rfl
  | bufferHello i env => cases h; exact .update .bufferHello rfl
  | setHash i hash => cases h; exact .update .setHash rfl
  | onceDone i => cases h; exact .update .onceDone rfl
  | onHello i env => cases h; exact .update .onHello rfl
  | registerLocked i => cases h; exact .commit .registerLocked
  | acceptReadRemote i | handlePeer i env => cases h; exact .same
  | call i c => cases h; exact .call
  | deliver i data | checkRemote i hash | fireIdentified i hash | onMsg i env | recheck i env =>
    simp only [hubAct] at h
    split at h <;> cases h <;> exact .same
  | handleInbound i data | readRemote i env =>
    simp only [hubAct] at h
    split at h
    · cases h; exact .same
    · split at h <;> cases h <;> exact .same
  | register i hash =>
    simp only [hubAct] at h
    split at h
    · cases h; exact .same
    · split at h <;> cases h
      · exact .update (.register ‹_› (not_not.mp ‹_›)) rfl
      · exact .same
  | applyInboundNick i env active =>
    simp only [hubAct] at h
    split at h
    · cases h; exact .same
    · split at h
      · cases h; exact .same
      · split at h <;> cases h
        exact .update .applyInboundNick rfl
  | onJoin i env =>
    simp only [hubAct] at h
    split at h
    · cases h; exact .same
    · split at h
      · cases h; exact .same
      · split at h <;> cases h
        · exact .same
        · exact .commit (.onJoin ‹_›)
  | onPart i env =>
    simp only [hubAct] at h
    split at h
    · cases h; exact .same
    · split at h <;> cases h
      · exact .same
      · exact .commit (.onPart ‹_›)
  | onRoomContent i env =>
    simp only [hubAct] at h
    obtain ⟨ts, hts⟩ := allowRate_eq cfg.limits.rateLimitMsgsPerMinute x.now (s.peer i)
    split at h
    · cases h; exact .same
    · split at h <;> cases h <;> rw [hts] <;> exact .update .onRoomContent rfl
  | relay i env room => exact relayAct_shared h ▸ .same
  | reply i m =>
    simp only [hubAct] at h
    split at h <;> cases h
    exact .reply
  | forward i env =>
    simp only [hubAct] at h
    split at h <;> cases h
    · exact .forward
    · exact .same
  | close i =>
    simp only [hubAct] at h
    split at h
    · cases h
    · split at h <;> cases h
      · exact .same
      · exact .update (.close (by simpa using ‹¬(s.peer i).sess = false›)) rfl
  | teardown i =>
    simp only [hubAct] at h
    split at h <;> cases h
    · exact .update (.teardown ‹_›) rfl
    · exact .same
  | dropPeerIf i =>
    simp only [hubAct] at h
    split at h <;> cases h
    · exact .same
    · exact .commit (.dropPeerIf ‹_›)
  | hubClose =>
    simp only [hubAct] at h
    split at h <;> cases h
    exact .commit .hubClose

theorem HubAct.Outcome.peersAfter (h : a.Outcome text cfg x s s') : a.PeersAfter s s' := by
  cases h with
  | same | call => exact .inl rfl
  | update h _ => exact .inr ⟨_, _, h, rfl⟩
  | commit h => exact h.peersAfter
  | reply => exact .inl reply_peer
  | forward => exact .inl sendEnvelope_peer

/-- Events from outside change the status of a link, or add a link. -/
theorem hubEnv_shared {e : HubEvent} (h : hubEnv s e = some r) :
    r.shared = s ∨ (∃ i status, r.shared = s.set i { s.peer i with status }) ∨
      e = .established ∧ r.shared = { s with accepted := s.accepted + 1 } := by
  cases e with
  | established => cases h; exact .inr (.inr ⟨rfl, rfl⟩)
  | close => cases h; exact .inl rfl
  | packet i data =>
    simp only [hubEnv, HubState.receive] at h
    split at h <;> cases h
    exact .inr (.inl ⟨i, .active, rfl⟩)
  | identify i hash =>
    simp only [hubEnv, HubState.receive] at h
    split at h
    · cases h
    · split at h <;> cases h
      exact .inr (.inl ⟨i, .active, rfl⟩)
  | linkStale i =>
    simp only [hubEnv] at h
    split at h <;> cases h
    exact .inr (.inl ⟨i, .stale, rfl⟩)
  | linkClosed i =>
    simp only [hubEnv] at h
    split at h <;> cases h
    exact .inr (.inl ⟨i, .closed, rfl⟩)

theorem hubEnv_outputs {e : HubEvent} (h : hubEnv s e = some r) :
    r.shared.sent = s.sent ∧ r.shared.calls = s.calls := by
  obtain heq | ⟨j, status, heq⟩ | ⟨-, heq⟩ := hubEnv_shared h <;> rw [heq] <;> exact ⟨rfl, rfl⟩

theorem hubEnv_accepted {e : HubEvent} (h : hubEnv s e = some r) :
    r.shared.accepted = s.accepted ∨
      e = .established ∧ r.shared.accepted = s.accepted + 1 := by
  obtain heq | ⟨i, status, heq⟩ | ⟨he, heq⟩ := hubEnv_shared h
  · exact .inl (by rw [heq])
  · exact .inl (by rw [heq]; rfl)
  · exact .inr ⟨he, by rw [heq]⟩

/-! ## Fields of a peer -/

theorem HubAct.PeersAfter.at (h : a.PeersAfter s s') (j : Nat) :
    ∃ p, s'.peer j = p ∧ (p = s.peer j ∨ a.Updates s j p) := by
  obtain heq | ⟨i, p, hp, heq⟩ := h
  · exact ⟨s.peer j, by rw [heq], .inl rfl⟩
  · rw [heq, HubState.set_peer]
    split
    · subst j
      exact ⟨p, rfl, .inr hp⟩
    · exact ⟨s.peer j, rfl, .inl rfl⟩

theorem HubAct.PeersAfter.peerHash (h : a.PeersAfter s s') (j : Nat) :
    (s'.peer j).peerHash = (s.peer j).peerHash ∨
      ∃ hash, a = .setHash j hash ∧ (s'.peer j).peerHash = hash := by
  obtain ⟨p, hp, rfl | hu⟩ := h.at j
  · exact .inl (by rw [hp])
  · rw [hp]
    cases hu <;> first | exact .inl rfl | exact .inr ⟨_, rfl, rfl⟩

theorem HubAct.PeersAfter.registerOnce (h : a.PeersAfter s s') (j : Nat) :
    (s'.peer j).registerOnce = (s.peer j).registerOnce ∨
      (∃ hash, a = .register j hash ∧ (s.peer j).registerOnce = .fresh ∧
        (s'.peer j).registerOnce = .running) ∨
      a = .onceDone j ∧ (s'.peer j).registerOnce = .done := by
  obtain ⟨p, hp, rfl | hu⟩ := h.at j
  · exact .inl (by rw [hp])
  · rw [hp]
    cases hu with
    | register hfresh _ => exact .inr (.inl ⟨_, rfl, hfresh, rfl⟩)
    | onceDone => exact .inr (.inr ⟨rfl, rfl⟩)
    | _ => exact .inl rfl

theorem HubAct.PeersAfter.remoteIdentity (h : a.PeersAfter s s') (j : Nat) :
    (s'.peer j).remoteIdentity = (s.peer j).remoteIdentity ∨
      ∃ hash, a = .setRemote j hash ∧ (s'.peer j).remoteIdentity = some hash := by
  obtain ⟨p, hp, rfl | hu⟩ := h.at j
  · exact .inl (by rw [hp])
  · rw [hp]
    cases hu <;> first | exact .inl rfl | exact .inr ⟨_, rfl, rfl⟩

theorem HubAct.PeersAfter.sess (h : a.PeersAfter s s') (j : Nat) :
    (s'.peer j).sess = (s.peer j).sess ∨ a = .assignSess j ∧ (s'.peer j).sess = true := by
  obtain ⟨p, hp, rfl | hu⟩ := h.at j
  · exact .inl (by rw [hp])
  · rw [hp]
    cases hu <;> first | exact .inl rfl | exact .inr ⟨rfl, rfl⟩

theorem HubAct.PeersAfter.identifiedCallback (h : a.PeersAfter s s') (j : Nat) :
    (s'.peer j).identifiedCallback = (s.peer j).identifiedCallback ∨
      a = .setIdentifiedCallback j ∧ (s'.peer j).identifiedCallback = true := by
  obtain ⟨p, hp, rfl | hu⟩ := h.at j
  · exact .inl (by rw [hp])
  · rw [hp]
    cases hu <;> first | exact .inl rfl | exact .inr ⟨rfl, rfl⟩

theorem HubAct.PeersAfter.active (h : a.PeersAfter s s') (j : Nat) :
    (s'.peer j).active = (s.peer j).active ∨
      (∃ env, a = .onHello j env) ∧ (s'.peer j).active = true := by
  obtain ⟨p, hp, rfl | hu⟩ := h.at j
  · exact .inl (by rw [hp])
  · rw [hp]
    cases hu <;> first | exact .inl rfl | exact .inr ⟨⟨_, rfl⟩, rfl⟩

theorem HubAct.PeersAfter.closed (h : a.PeersAfter s s') (j : Nat) :
    (s'.peer j).closed = (s.peer j).closed ∨ a = .close j ∧ (s'.peer j).closed = true := by
  obtain ⟨p, hp, rfl | hu⟩ := h.at j
  · exact .inl (by rw [hp])
  · rw [hp]
    cases hu <;> first | exact .inl rfl | exact .inr ⟨rfl, rfl⟩

theorem closed_mono (h : a.PeersAfter s s') (hi : (s.peer i).closed = true) :
    (s'.peer i).closed = true := by
  obtain heq | ⟨-, heq⟩ := h.closed i
  · exact heq.trans hi
  · exact heq

theorem HubAct.PeersAfter.status (h : a.PeersAfter s s') (j : Nat) :
    (s'.peer j).status = (s.peer j).status ∨ a = .teardown j ∧ (s'.peer j).status = .closed := by
  obtain ⟨p, hp, rfl | hu⟩ := h.at j
  · exact .inl (by rw [hp])
  · rw [hp]
    cases hu <;> first | exact .inl rfl | exact .inr ⟨rfl, rfl⟩

theorem HubAct.PeersAfter.pendingHello (h : a.PeersAfter s s') (j : Nat) :
    (s'.peer j).pendingHello = (s.peer j).pendingHello ∨
      (∃ env, a = .bufferHello j env ∧ (s'.peer j).pendingHello = some env) ∨
      a = .registerLocked j ∧ (s'.peer j).pendingHello = none := by
  obtain ⟨p, hp, rfl | hu⟩ := h.at j
  · exact .inl (by rw [hp])
  · rw [hp]
    cases hu with
    | bufferHello => exact .inr (.inl ⟨_, rfl, rfl⟩)
    | registerLocked => exact .inr (.inr ⟨rfl, rfl⟩)
    | _ => exact .inl rfl

theorem HubAct.PeersAfter.pendingPlainData (h : a.PeersAfter s s') (j : Nat) {data : Plain}
    (hdata : (s'.peer j).pendingPlainData = some data) :
    (s.peer j).pendingPlainData = some data ∨ a = .queuePlain j data := by
  obtain ⟨p, hp, rfl | hu⟩ := h.at j
  · exact .inl (by rw [hp] at hdata; exact hdata)
  · rw [hp] at hdata
    cases hu with
    | queuePlain =>
      cases hdata
      exact .inr rfl
    | takePending => cases hdata
    | _ => exact .inl hdata

/-- Events from outside leave everything but the status of a link alone. -/
theorem hubEnv_at {e : HubEvent} (h : hubEnv s e = some r) (j : Nat) :
    ∃ status, r.shared.peer j = { s.peer j with status } := by
  obtain heq | ⟨i, status, heq⟩ | ⟨-, heq⟩ := hubEnv_shared h
  · exact ⟨(s.peer j).status, by rw [heq]⟩
  · rw [heq, HubState.set_peer]
    split
    · subst j
      exact ⟨status, rfl⟩
    · exact ⟨(s.peer j).status, rfl⟩
  · exact ⟨(s.peer j).status, by rw [heq]⟩

/-! ## Membership -/

theorem HubState.SameMembership.refl : s.SameMembership s := ⟨rfl, rfl, fun _ => rfl⟩

theorem HubState.SameMembership.set {p : HubPeer} (h : p.rooms = (s.peer i).rooms) :
    s.SameMembership (s.set i p) := by
  refine ⟨rfl, rfl, fun j => ?_⟩
  rw [HubState.set_peer]
  split
  · rw [h, ‹j = i›]
  · rfl

theorem HubState.SameMembership.reply : s.SameMembership (s.reply cfg x i m).1 :=
  ⟨reply_peers, reply_rooms, fun j => by rw [reply_peer]⟩

theorem HubState.SameMembership.sendEnvelope : s.SameMembership (s.sendEnvelope x i env).1 :=
  ⟨sendEnvelope_peers, sendEnvelope_rooms, fun j => by rw [sendEnvelope_peer]⟩

theorem HubAct.Outcome.membership (h : a.Outcome text cfg x s s') :
    s.SameMembership s' ∨ a.Commits text cfg s s' := by
  cases h with
  | same => exact .inl .refl
  | call => exact .inl ⟨rfl, rfl, fun _ => rfl⟩
  | update _ hrooms => exact .inl (.set hrooms)
  | commit h => exact .inr h
  | reply => exact .inl .reply
  | forward => exact .inl .sendEnvelope

/-- The critical sections on the maps send and call nothing themselves. -/
theorem HubAct.Commits.outputs (h : a.Commits text cfg s s') :
    s'.accepted = s.accepted ∧ s'.sent = s.sent ∧ s'.calls = s.calls := by
  cases h with
  | registerLocked | hubClose => exact ⟨rfl, rfl, rfl⟩
  | dropPeerIf h =>
    obtain ⟨-, rfl⟩ := dropPeerIf_some h
    exact ⟨rfl, rfl, rfl⟩
  | onJoin h => obtain ⟨-, rfl⟩ | ⟨-, -, rfl⟩ := joinLocked_some h <;> exact ⟨rfl, rfl, rfl⟩
  | onPart h =>
    obtain ⟨-, rfl⟩ := partLocked_some h
    exact ⟨rfl, rfl, rfl⟩

theorem HubAct.Outcome.accepted (h : a.Outcome text cfg x s s') : s'.accepted = s.accepted := by
  cases h with
  | same | call | update _ _ => rfl
  | reply => obtain h | ⟨env, -, h⟩ := reply_cases cfg s x _ _ <;> rw [h]
  | forward => obtain h | ⟨h, -⟩ := sendEnvelope_cases s x _ _ <;> rw [h]
  | commit h => exact h.outputs.1

/-- Only replies and forwarding send. -/
theorem HubAct.Outcome.sent_eq (h : a.Outcome text cfg x s s') (hreply : ∀ i m, a ≠ .reply i m)
    (hforward : ∀ i env, a ≠ .forward i env) : s'.sent = s.sent := by
  cases h with
  | same | call | update _ _ => rfl
  | reply => exact absurd rfl (hreply _ _)
  | forward => exact absurd rfl (hforward _ _)
  | commit h => exact h.outputs.2.1

theorem HubAct.Outcome.calls_eq (h : a.Outcome text cfg x s s') (hcall : ∀ i k, a ≠ .call i k) :
    s'.calls = s.calls := by
  cases h with
  | same | update _ _ => rfl
  | call => exact absurd rfl (hcall _ _)
  | reply => obtain h | ⟨env, -, h⟩ := reply_cases cfg s x _ _ <;> rw [h]
  | forward => obtain h | ⟨h, -⟩ := sendEnvelope_cases s x _ _ <;> rw [h]
  | commit h => exact h.outputs.2.2

/-- Only three critical sections write `h.peers`. -/
theorem HubAct.Outcome.peers_eq (h : a.Outcome text cfg x s s')
    (hregister : ∀ i, a ≠ .registerLocked i) (hdrop : ∀ i, a ≠ .dropPeerIf i)
    (hclose : a ≠ .hubClose) : s'.peers = s.peers := by
  obtain hsame | hcommit := h.membership
  · exact hsame.peers
  · cases hcommit with
    | registerLocked => exact absurd rfl (hregister _)
    | dropPeerIf _ => exact absurd rfl (hdrop _)
    | hubClose => exact absurd rfl hclose
    | onJoin hjoin => obtain ⟨-, rfl⟩ | ⟨-, -, rfl⟩ := joinLocked_some hjoin <;> rfl
    | onPart hpart =>
      obtain ⟨-, rfl⟩ := partLocked_some hpart
      rfl

theorem hubEnv_membership {e : HubEvent} (h : hubEnv s e = some r) :
    s.SameMembership r.shared := by
  obtain heq | ⟨i, status, heq⟩ | ⟨-, heq⟩ := hubEnv_shared h
  · rw [heq]
    exact .refl
  · rw [heq]
    exact .set rfl
  · rw [heq]
    exact ⟨rfl, rfl, fun _ => rfl⟩

/-! ## Control flow -/

theorem dispatch_leads {active : Bool} {b : HubAct} (h : b ∈ dispatch i env active) :
    (HubAct.applyInboundNick i env active).Leads s b := by
  unfold dispatch at h
  cases active with
  | false =>
    simp only [Bool.not_false, if_true] at h
    split at h
    · cases h
    · obtain rfl := List.mem_singleton.mp h
      exact .onHello (not_not.mp ‹_›)
  | true =>
    simp only [Bool.not_true, Bool.false_eq_true, if_false] at h
    split at h
    · cases h
    split at h
    · obtain rfl := List.mem_singleton.mp h
      exact .onJoin
    split at h
    · obtain rfl := List.mem_singleton.mp h
      exact .onPart
    split at h
    · obtain rfl := List.mem_singleton.mp h
      exact .onRoomContent ‹_›
    · cases h

theorem forwarded_type {p : HubPeer} {room : Bytes} {fwd : Envelope} :
    (forwarded p room env fwd).type = fwd.type := by
  unfold forwarded
  dsimp only
  split <;> split <;> rfl

theorem relayAct_leads {room : Bytes} {b : HubAct} (h : relayAct cfg x s i env room = some r)
    (hb : b ∈ r.push) : (HubAct.relay i env room).Leads s b := by
  simp only [relayAct] at h
  split at h
  · cases h
    obtain rfl := List.mem_singleton.mp hb
    exact .relayError
  split at h
  · cases h
    obtain rfl := List.mem_singleton.mp hb
    exact .relayError
  split at h
  · cases h
  · rename_i horder
    push Not at horder
    split at h
    · cases h
      cases hb
    · rename_i fwd hnew
      cases h
      obtain hb | hb := List.mem_append.mp hb
      · obtain ⟨j, hj, rfl⟩ := List.mem_map.mp hb
        exact .forward (horder.2.mem_iff.mp hj) (forwarded_type.trans (newEnvelope_type hnew))
      · obtain rfl := List.mem_singleton.mp hb
        exact .relayed

theorem reply_next_leads {ok : Bool} {b : HubAct} (h : b ∈ m.next i ok) :
    (HubAct.reply i m).Leads s b := by
  cases m with
  | error msg | pong env => cases h
  | welcome env =>
    cases ok <;> obtain rfl := List.mem_singleton.mp h
    · exact .welcomeFailed
    · exact .callOnHello
  | joined room memberList env =>
    obtain rfl := List.mem_singleton.mp h
    exact .callOnJoin
  | parted room env =>
    obtain rfl := List.mem_singleton.mp h
    exact .callOnPart

/-- Only the delivery of a packet starts a goroutine. -/
theorem hubAct_spawn (h : hubAct text cfg x s a = some r) :
    r.spawn = [] ∨ ∃ i data, a = .deliver i data ∧ (s.peer i).packetCallback = true ∧
      r.push = [] ∧ r.spawn = [[.handleInbound i data]] := by
  cases a with
  | deliver i data =>
    simp only [hubAct] at h
    split at h <;> cases h
    · exact .inr ⟨i, data, rfl, ‹_›, rfl, rfl⟩
    · exact .inl rfl
  | relay i env room =>
    simp only [hubAct, relayAct] at h
    split at h
    · cases h; exact .inl rfl
    split at h
    · cases h; exact .inl rfl
    split at h
    · cases h
    split at h <;> cases h <;> exact .inl rfl
  | setPacketCallback | takePending | assignSess | setIdentifiedCallback | acceptReadRemote
  | queuePlain | setRemote | bufferHello | setHash | registerLocked | onceDone | handlePeer
  | onHello | call => cases h; exact .inl rfl
  | checkRemote | fireIdentified | onMsg | recheck | reply | forward | teardown | dropPeerIf
  | hubClose =>
    simp only [hubAct] at h
    split at h <;> cases h <;> exact .inl rfl
  | handleInbound | readRemote | register | onPart | onRoomContent | close =>
    simp only [hubAct] at h
    split at h
    · cases h <;> exact .inl rfl
    · split at h <;> cases h <;> exact .inl rfl
  | applyInboundNick | onJoin =>
    simp only [hubAct] at h
    split at h
    · cases h; exact .inl rfl
    · split at h
      · cases h; exact .inl rfl
      · split at h <;> cases h <;> exact .inl rfl

theorem hubAct_leads {b : HubAct} (h : hubAct text cfg x s a = some r) (hb : b ∈ r.push) :
    a.Leads s b := by
  cases a with
  | setPacketCallback | assignSess | setIdentifiedCallback | queuePlain | bufferHello | setHash
  | onceDone | call => cases h; cases hb
  | takePending i =>
    cases h
    obtain ⟨data, hdata, rfl⟩ := List.mem_map.mp hb
    exact .takePending (Option.mem_toList.mp hdata)
  | acceptReadRemote i =>
    cases h
    obtain ⟨hash, hhash, rfl⟩ := List.mem_map.mp hb
    exact .acceptReadRemote (Option.mem_toList.mp hhash)
  | deliver i data =>
    simp only [hubAct] at h
    split at h <;> cases h
    · cases hb
    · obtain rfl := List.mem_singleton.mp hb
      exact .queuePlain
  | checkRemote i hash =>
    simp only [hubAct] at h
    split at h <;> cases h
    · obtain rfl := List.mem_singleton.mp hb
      exact .checkRemote
    · cases hb
  | setRemote i hash =>
    cases h
    obtain rfl := List.mem_singleton.mp hb
    exact .setRemote
  | fireIdentified i hash =>
    simp only [hubAct] at h
    split at h <;> cases h
    · obtain rfl := List.mem_singleton.mp hb
      exact .fireIdentified ‹_›
    · cases hb
  | handleInbound i data =>
    simp only [hubAct] at h
    split at h
    · cases h; cases hb
    · split at h <;> cases h <;> simp only [List.mem_cons, List.not_mem_nil, or_false] at hb
      · obtain rfl | rfl := hb
        · exact .pong
        · exact .onMsg
      · subst hb
        exact .onMsg
  | onMsg i env =>
    simp only [hubAct] at h
    split at h <;> cases h <;> obtain rfl := List.mem_singleton.mp hb
    · exact .readRemote (List.length_eq_zero_iff.mp ‹_›)
    · exact .handle (mt List.length_eq_zero_iff.mpr ‹_›)
  | readRemote i env =>
    simp only [hubAct] at h
    split at h
    · cases h
      simp only [List.mem_cons, List.not_mem_nil, or_false] at hb
      obtain rfl | rfl := hb
      · exact .readRegister ‹_›
      · exact .readRecheck
    · split at h <;> cases h <;> obtain rfl := List.mem_singleton.mp hb
      · exact .bufferHello ‹_› ‹_›
      · exact .readRecheck
  | recheck i env =>
    simp only [hubAct] at h
    split at h <;> cases h
    · cases hb
    · obtain rfl := List.mem_singleton.mp hb
      exact .recheck (mt List.length_eq_zero_iff.mpr ‹_›)
  | register i hash =>
    simp only [hubAct] at h
    split at h
    · cases h; cases hb
    · split at h <;> cases h
      · simp only [List.mem_cons, List.not_mem_nil, or_false] at hb
        obtain rfl | rfl | rfl := hb
        · exact .setHash ‹_› (not_not.mp ‹_›)
        · exact .registerLocked ‹_› (not_not.mp ‹_›)
        · exact .onceDone
      · cases hb
  | registerLocked i =>
    cases h
    obtain hb | hb := List.mem_append.mp hb
    · obtain ⟨j, hj, rfl⟩ := List.mem_map.mp hb
      obtain ⟨hlookup, hne⟩ := Option.filter_eq_some_iff.mp (Option.mem_toList.mp hj)
      exact .displace hlookup (by simpa using hne)
    · obtain ⟨env, henv, rfl⟩ := List.mem_map.mp hb
      exact .waiting (Option.mem_toList.mp henv)
  | handlePeer i env =>
    cases h
    obtain rfl := List.mem_singleton.mp hb
    exact .handlePeer
  | applyInboundNick i env active =>
    simp only [hubAct] at h
    split at h
    · cases h
      exact dispatch_leads hb
    · split at h
      · cases h
        obtain hb | hb := List.mem_append.mp hb
        · obtain rfl := List.mem_singleton.mp hb
          exact .nickTooLong
        · cases active with
          | true => exact dispatch_leads hb
          | false =>
            obtain rfl := List.mem_singleton.mp hb
            exact .nickClose
      · split at h <;> cases h
        exact dispatch_leads hb
  | onHello i env =>
    cases h
    obtain rfl := List.mem_singleton.mp hb
    exact .welcome
  | onJoin i env =>
    simp only [hubAct] at h
    split at h
    · cases h
      obtain rfl := List.mem_singleton.mp hb
      exact .joinError
    · split at h
      · cases h
        obtain rfl := List.mem_singleton.mp hb
        exact .joinError
      · split at h <;> cases h <;> obtain rfl := List.mem_singleton.mp hb
        · exact .joinError
        · exact .joined
  | onPart i env =>
    simp only [hubAct] at h
    split at h
    · cases h; cases hb
    · split at h <;> cases h
      · cases hb
      · obtain rfl := List.mem_singleton.mp hb
        exact .parted
  | onRoomContent i env =>
    simp only [hubAct] at h
    split at h
    · cases h
      obtain rfl := List.mem_singleton.mp hb
      exact .contentError
    · split at h <;> cases h <;> obtain rfl := List.mem_singleton.mp hb
      · exact .relay
      · exact .contentError
  | relay i env room => exact relayAct_leads h hb
  | reply i m =>
    simp only [hubAct] at h
    split at h <;> cases h
    exact reply_next_leads hb
  | forward i env =>
    simp only [hubAct] at h
    split at h <;> cases h <;> cases hb
  | close i =>
    simp only [hubAct] at h
    split at h
    · cases h
    · split at h <;> cases h
      · cases hb
      · simp only [List.mem_cons, List.not_mem_nil, or_false] at hb
        obtain rfl | rfl := hb
        · exact .teardown
        · exact .dropPeerIf
  | teardown i =>
    simp only [hubAct] at h
    split at h <;> cases h <;> cases hb
  | dropPeerIf i =>
    simp only [hubAct] at h
    split at h <;> cases h
    · cases hb
    · obtain rfl := List.mem_singleton.mp hb
      exact .callOnClose
  | hubClose =>
    simp only [hubAct] at h
    split at h <;> cases h
    obtain ⟨j, hj, rfl⟩ := List.mem_map.mp hb
    obtain ⟨⟨k, j⟩, hkj, rfl⟩ := List.mem_map.mp ((List.Perm.mem_iff ‹_›).mp hj)
    exact .hubClose (AList.mem_lookup_iff.mpr hkj)

theorem hubAct_starts {b : HubAct} (h : hubAct text cfg x s a = some r)
    (hb : b ∈ r.push ∨ ∃ l ∈ r.spawn, b ∈ l) : a.Leads s b := by
  obtain hb | ⟨l, hl, hb⟩ := hb
  · exact hubAct_leads h hb
  · obtain hspawn | ⟨i, data, rfl, hcallback, -, hspawn⟩ := hubAct_spawn h
    · rw [hspawn] at hl
      cases hl
    · rw [hspawn, List.mem_singleton] at hl
      subst hl
      obtain rfl := List.mem_singleton.mp hb
      exact .deliver hcallback

theorem hubEnv_starts {e : HubEvent} {l : List HubAct} {b : HubAct} (h : hubEnv s e = some r)
    (hl : l ∈ r.spawn) (hb : b ∈ l) : e.Starts s b := by
  cases e with
  | established =>
    cases h
    obtain rfl := List.mem_singleton.mp hl
    exact .established hb
  | close =>
    cases h
    obtain rfl := List.mem_singleton.mp hl
    obtain rfl := List.mem_singleton.mp hb
    exact .close
  | packet i data =>
    simp only [hubEnv, HubState.receive] at h
    split at h <;> cases h
    obtain rfl := List.mem_singleton.mp hl
    obtain rfl := List.mem_singleton.mp hb
    exact .packet (by grind)
  | identify i hash =>
    simp only [hubEnv, HubState.receive] at h
    split at h
    · cases h
    · split at h <;> cases h
      obtain rfl := List.mem_singleton.mp hl
      obtain rfl := List.mem_singleton.mp hb
      exact .identify (by grind) (not_not.mp ‹_›)
  | linkStale i | linkClosed i =>
    simp only [hubEnv] at h
    split at h <;> cases h
    cases hl

end Rrc
