-- SUMMARY: The hub relays and answers nothing more often than it came in.
import Mathlib.Algebra.BigOperators.Group.Finset.Piecewise
import ReticulumMf.Rrc.History

/-!
# The traffic of the hub

A packet is in one place at a time: with the link that received it, in the link's
queue, or with a goroutine that works on it. `stock_le_received` keeps the account:
if each step of the hub uses up what it makes out of a packet, no more goes out
than has come in. Two uses: a message reaches a session at most as often as it was
sent, and never comes back to it; and there is at most one PONG for a PING.
-/

namespace Rrc

open Threads Transition

variable {text : GoText} {cfg : HubConfig} {t : Nat} {x : HubChoice} {s s' : HubState}
  {a b : HubAct} {r : Effect HubState HubAct} {i j : Nat} {fwd : Envelope} {room : Bytes}
  {c c' : HubConf} {rest : List HubAct} {es : List (Event HubChoice HubEvent)}

/-! ## The queues of the links -/

section Account

variable {want : Nat → Envelope → Bool}

def HubPeer.queued (want : Envelope → Bool) (p : HubPeer) : Nat :=
  if p.pendingPlainData.any (·.any want) then 1 else 0

/-- How many packets of interest wait for a packet callback. -/
def HubState.queued (want : Nat → Envelope → Bool) (s : HubState) : Nat :=
  ∑ i ∈ Finset.range s.accepted, (s.peer i).queued (want i)

theorem queued_set (want : Nat → Envelope → Bool) (p : HubPeer) (hi : i < s.accepted) :
    (s.set i p).queued want + (s.peer i).queued (want i) = s.queued want + p.queued (want i) := by
  have hmem : i ∈ Finset.range s.accepted := Finset.mem_range.mpr hi
  have hset : (fun l => ((s.set i p).peer l).queued (want l)) =
      Function.update (fun l => (s.peer l).queued (want l)) i (p.queued (want i)) := by
    funext l
    rw [HubState.set_peer, Function.update_apply]
    split
    · rw [‹l = i›]
    · rfl
  have hold : s.queued want = (s.peer i).queued (want i) +
      ∑ l ∈ Finset.range s.accepted \ {i}, (s.peer l).queued (want l) :=
    Finset.sum_eq_add_sum_sdiff_singleton_of_mem hmem _
  have hnew : (s.set i p).queued want =
      ∑ l ∈ Finset.range s.accepted, ((s.set i p).peer l).queued (want l) := rfl
  rw [hnew, hset, Finset.sum_update_of_mem hmem, hold]
  omega

theorem HubAct.PeersAfter.pendingPlainData_eq (h : a.PeersAfter s s') (j : Nat)
    (htake : a ≠ .takePending j) (hqueue : ∀ data, a ≠ .queuePlain j data) :
    (s'.peer j).pendingPlainData = (s.peer j).pendingPlainData := by
  obtain ⟨p, hp, rfl | hu⟩ := h.at j
  · rw [hp]
  · rw [hp]
    cases hu with
    | takePending => exact absurd rfl htake
    | queuePlain => exact absurd rfl (hqueue _)
    | _ => rfl

theorem queued_congr (haccepted : s'.accepted = s.accepted)
    (h : ∀ i, (s'.peer i).pendingPlainData = (s.peer i).pendingPlainData) :
    s'.queued want = s.queued want := by
  simp only [HubState.queued, HubPeer.queued, haccepted, h]

/-- The action uses the queue of link `i`. -/
def HubAct.UsesQueue (i : Nat) : HubAct → Prop
  | .deliver j _ | .queuePlain j _ | .takePending j => j = i
  | _ => False

/-- The queues in use are those of accepted links, and a link has to be accepted to
have one. -/
structure QueuesAccepted (c : HubConf) : Prop where
  actions : Each (fun s _ as => ∀ a ∈ as, ∀ i, a.UsesQueue i → i < s.accepted) c
  empty : ∀ {i}, c.shared.accepted ≤ i → (c.shared.peer i).pendingPlainData = none

theorem QueuesAccepted.run (h : QueuesAccepted c) (hthread : c.threads[t]? = some (a :: rest))
    (hact : hubAct text cfg x c.shared a = some r) : QueuesAccepted (afterRun c t rest r) := by
  have hout := hubAct_outcome hact
  have ha : ∀ i, a.UsesQueue i → i < c.shared.accepted := h.actions t _ hthread a List.mem_cons_self
  refine ⟨?_, fun {i} hi => ?_⟩
  · refine Each.forall_run h.actions hthread (fun _ hb => by rwa [hout.accepted]) fun b hb i hi => ?_
    rw [hout.accepted]
    cases hubAct_starts hact hb with
    | queuePlain => exact ha i hi
    | _ => exact hi.elim
  · have hi : c.shared.accepted ≤ i := hout.accepted ▸ hi
    have hempty := h.empty hi
    obtain ⟨p, hp, rfl | hu⟩ := hout.peersAfter.at i
    · rw [hp, hempty]
    · rw [hp]
      cases hu with
      | takePending => rfl
      | queuePlain => exact absurd (ha i rfl) (not_lt.mpr hi)
      | _ => exact hempty

theorem QueuesAccepted.env (h : QueuesAccepted c) {e : HubEvent}
    (henv : hubEnv c.shared e = some r) : QueuesAccepted ⟨r.shared, c.threads ++ r.spawn⟩ := by
  have hle : c.shared.accepted ≤ r.shared.accepted := by
    obtain heq | ⟨-, heq⟩ := hubEnv_accepted henv <;> omega
  refine ⟨?_, fun {i} hi => ?_⟩
  · refine Each.forall_env h.actions (fun b hb i hi => (hb i hi).trans_le hle) fun l hl b hb i hi => ?_
    cases hubEnv_starts henv hl hb with
    | established hmem =>
      cases henv
      revert hi
      refine mem_acceptLink_cases hmem False.elim ?_ False.elim False.elim False.elim
      rintro rfl
      exact Nat.lt_succ_self _
    | packet hi' =>
      obtain rfl := hi
      exact hi'.trans_le hle
    | identify _ _ | close => exact hi.elim
  · obtain ⟨status, heq⟩ := hubEnv_at henv i
    rw [heq]
    exact h.empty (hle.trans hi)

theorem QueuesAccepted.step (h : QueuesAccepted c) {e : Event HubChoice HubEvent}
    (hstep : hubStep text cfg c e = some c') : QueuesAccepted c' := by
  cases Program.steps_of_step hstep with
  | run hthread hact => exact h.run hthread hact
  | env henv => exact h.env henv

theorem hubInit_queuesAccepted : QueuesAccepted hubInit := by
  constructor <;> simp [hubInit, Each]

/-! ## The account -/

/-- A packet of interest comes in. -/
def packetWanted (want : Nat → Envelope → Bool) : HubEvent → Bool
  | .packet i (some env) => want i env
  | _ => false

/-- `p` follows the packets of interest from the link to `handleInbound`, and events from
outside start nothing else of the kind. -/
structure FollowsPackets (want : Nat → Envelope → Bool) (p : HubAct → Bool) : Prop where
  deliver : ∀ i data, p (.deliver i data) = data.any (want i)
  queuePlain : ∀ i data, p (.queuePlain i data) = data.any (want i)
  handleInbound : ∀ i data, p (.handleInbound i data) = data.any (want i)
  accept : ∀ i, ∀ b ∈ acceptLink i, p b = false
  checkRemote : ∀ i hash, p (.checkRemote i hash) = false
  hubClose : p .hubClose = false

/-- Not one of the steps that move a packet to and from the queue of its link. -/
def HubAct.isWork : HubAct → Bool
  | .deliver .. | .queuePlain .. | .takePending _ => false
  | _ => true

variable {p : HubAct → Bool} {q : Nat × Envelope → Bool}

/-- What is of interest at the hub: sent, or in a queue. -/
def HubState.account (want : Nat → Envelope → Bool) (q : Nat × Envelope → Bool) (s : HubState) :
    Nat := s.sent.countP q + s.queued want

theorem account_set (want : Nat → Envelope → Bool) (q : Nat × Envelope → Bool) (peer : HubPeer)
    (hi : i < s.accepted) :
    (s.set i peer).account want q + (s.peer i).queued (want i) =
      s.account want q + peer.queued (want i) := by
  have hset := queued_set want peer hi
  have hsent : (s.set i peer).sent = s.sent := rfl
  simp only [HubState.account, hsent]
  omega

theorem account_moves (hp : FollowsPackets want p) (hqueues : QueuesAccepted c)
    (hthread : c.threads[t]? = some (a :: rest)) (hact : hubAct text cfg x c.shared a = some r)
    (ha : a.isWork = false) :
    r.shared.account want q + r.push.countP p + (r.spawn.map (List.countP p)).sum ≤
      c.shared.account want q + [a].countP p := by
  have huses := hqueues.actions t _ hthread a List.mem_cons_self
  cases a with
  | deliver i data =>
    simp only [hubAct] at hact
    split at hact <;> cases hact <;>
      simp [hp.deliver, hp.queuePlain, hp.handleInbound, List.countP_singleton]
  | queuePlain i data =>
    cases hact
    have hset := account_set want q { c.shared.peer i with pendingPlainData := some data }
      (huses i rfl)
    have hnew : HubPeer.queued (want i) { c.shared.peer i with pendingPlainData := some data } =
        [HubAct.queuePlain i data].countP p := by
      simp [HubPeer.queued, hp.queuePlain, List.countP_singleton]
    exact (Nat.le_add_right _ _).trans (hset.trans (congrArg _ hnew)).le
  | takePending i =>
    cases hact
    have hset := account_set want q { c.shared.peer i with pendingPlainData := none }
      (huses i rfl)
    have hpush : ((c.shared.peer i).pendingPlainData.toList.map (HubAct.handleInbound i)).countP p =
        (c.shared.peer i).queued (want i) := by
      cases hdata : (c.shared.peer i).pendingPlainData with
      | none => simp [HubPeer.queued, hdata]
      | some data => simp [HubPeer.queued, hdata, hp.handleInbound, List.countP_singleton]
    exact ((congrArg _ hpush).trans hset).le.trans (Nat.le_add_right _ _)
  | _ => cases ha

/-- An event from outside brings one packet at most. -/
theorem account_env (hp : FollowsPackets want p) (hqueues : QueuesAccepted c) {e : HubEvent}
    (henv : hubEnv c.shared e = some r) :
    r.shared.account want q + (r.spawn.map (List.countP p)).sum ≤
      c.shared.account want q + [e].countP (packetWanted want) := by
  have hsent := (hubEnv_outputs henv).1
  have hpeer : ∀ i, (r.shared.peer i).pendingPlainData = (c.shared.peer i).pendingPlainData :=
    fun i => by
      obtain ⟨status, heq⟩ := hubEnv_at henv i
      rw [heq]
  have hqueued : r.shared.queued want = c.shared.queued want := by
    obtain heq | ⟨-, heq⟩ := hubEnv_accepted henv
    · exact queued_congr heq hpeer
    · have hnew := hqueues.empty (le_refl c.shared.accepted)
      simp only [HubState.queued, HubPeer.queued, heq, hpeer, Finset.sum_range_succ, hnew]
      rfl
  have hspawn : (r.spawn.map (List.countP p)).sum ≤ [e].countP (packetWanted want) := by
    cases e with
    | established =>
      cases henv
      simp [countP_eq_zero (hp.accept c.shared.accepted)]
    | close =>
      cases henv
      simp [hp.hubClose]
    | packet i data =>
      simp only [hubEnv, HubState.receive] at henv
      split at henv <;> cases henv
      cases data with
      | none => simp [hp.deliver]
      | some env => cases hwant : want i env <;> simp [hp.deliver, packetWanted, hwant]
    | identify i hash =>
      simp only [hubEnv, HubState.receive] at henv
      split at henv
      · cases henv
      · split at henv <;> cases henv
        simp [hp.checkRemote]
    | linkStale i | linkClosed i =>
      simp only [hubEnv] at henv
      split at henv <;> cases henv
      simp
  simp only [HubState.account, hsent, hqueued]
  omega

/-- If each step of the hub's own work uses up a packet, or what has become of one, for
what it sends and starts, there is never more of interest than has come in. -/
theorem stock_le_received {Inv : HubConf → Prop} (hp : FollowsPackets want p)
    (hinv : ∀ {c e c'}, Inv c → e ∈ es → hubStep text cfg c e = some c' → Inv c')
    (hwork : ∀ {c : HubConf} {t : Nat} {x a rest r}, Inv c → c.threads[t]? = some (a :: rest) →
      hubAct text cfg x c.shared a = some r → a.isWork = true →
      r.shared.sent.countP q + r.push.countP p ≤ c.shared.sent.countP q + [a].countP p)
    (hinit : Inv hubInit) (hrun : run (hubStep text cfg) hubInit es = some c) :
    stock (HubState.account want q) p c ≤ es.countP (Event.brings (packetWanted want)) := by
  have hstep : ∀ {c e c'}, QueuesAccepted c ∧ Inv c → e ∈ es → hubStep text cfg c e = some c' →
      QueuesAccepted c' ∧ Inv c' :=
    fun h he hstep => ⟨h.1.step hstep, hinv h.2 he hstep⟩
  have hact : ∀ {c : HubConf} {t : Nat} {x a rest r}, QueuesAccepted c ∧ Inv c →
      c.threads[t]? = some (a :: rest) → (hubProgram text cfg).act t x c.shared a = some r →
      r.shared.account want q + r.push.countP p + (r.spawn.map (List.countP p)).sum ≤
        c.shared.account want q + [a].countP p := by
    intro c t x a rest r h hthread hact
    cases ha : a.isWork with
    | false => exact account_moves hp h.1 hthread hact ha
    | true =>
      have hle := hwork h.2 hthread hact ha
      have hout := hubAct_outcome hact
      have hqueued : r.shared.queued want = c.shared.queued want := by
        refine queued_congr hout.accepted fun i => ?_
        refine hout.peersAfter.pendingPlainData_eq i ?_ fun data => ?_
        · rintro rfl
          cases ha
        · rintro rfl
          cases ha
      have hspawn : r.spawn = [] := by
        obtain hspawn | ⟨i, data, rfl, -⟩ := hubAct_spawn hact
        · exact hspawn
        · cases ha
      simp only [HubState.account, hqueued, hspawn, List.map_nil, List.sum_nil]
      omega
  have hle := stock_le_of_run (fun c => QueuesAccepted c ∧ Inv c) (HubState.account want q) p
    (packetWanted want) hstep hact (fun h henv => account_env hp h.1 henv)
    ⟨hubInit_queuesAccepted, hinit⟩ hrun
  have hzero : stock (HubState.account want q) p hubInit = 0 := rfl
  rwa [hzero, Nat.zero_add] at hle

theorem sent_le_stock (want : Nat → Envelope → Bool) (q : Nat × Envelope → Bool)
    (p : HubAct → Bool) (c : HubConf) :
    c.shared.sent.countP q ≤ stock (HubState.account want q) p c :=
  (Nat.le_add_right _ _).trans (Nat.le_add_right _ _)

end Account

/-! ## Chat -/

/-- What the hub hands on as it came in, and the room it goes to. -/
structure Message where
  type : Nat
  msgID : Bytes
  timestamp : Nat
  body : Option CborValue
  room : Bytes

def Envelope.message (env : Envelope) (room : Bytes) : Message :=
  ⟨env.type, env.msgID, env.timestamp, if env.hasBody then some env.body else none, room⟩

/-- An inbound envelope is chat with a message of interest. -/
def Envelope.chats (text : GoText) (κ : Message → Bool) (env : Envelope) : Bool :=
  env.isChat && κ (env.message (normalizeRoom text env.room))

/-- A message of interest goes out on session `j`. -/
def reaches (κ : Message → Bool) (j : Nat) (m : Nat × Envelope) : Bool :=
  m.1 = j && m.2.isChat && κ (m.2.message m.2.room)

/-- The message comes in on another link than `j`. -/
def saidElsewhere (text : GoText) (κ : Message → Bool) (j i : Nat) (env : Envelope) : Bool :=
  i ≠ j && env.chats text κ

/-- The action may yet bring a message of interest to session `j`. -/
def HubAct.mayReach (text : GoText) (κ : Message → Bool) (j : Nat) : HubAct → Bool
  | .deliver i data | .queuePlain i data | .handleInbound i data =>
    data.any (saidElsewhere text κ j i)
  | .onMsg i env | .readRemote i env | .recheck i env | .handlePeer i env
  | .applyInboundNick i env _ | .onRoomContent i env | .relay i env _ =>
    saidElsewhere text κ j i env
  | .forward l fwd => reaches κ j (l, fwd)
  | _ => false

section Chat

variable {κ : Message → Bool} {env : Envelope}

theorem mayReach_follows : FollowsPackets (saidElsewhere text κ j) (HubAct.mayReach text κ j) where
  deliver _ _ := rfl
  queuePlain _ _ := rfl
  handleInbound _ _ := rfl
  accept _ _ hb := mem_acceptLink_cases hb rfl rfl rfl rfl rfl
  checkRemote _ _ := rfl
  hubClose := rfl

theorem Stamped.message_eq {sender nick : Bytes} (h : Stamped sender nick room env fwd) :
    fwd.isChat = env.isChat ∧ fwd.message fwd.room = env.message room := by
  refine ⟨by simp only [Envelope.isChat, h.type], ?_⟩
  simp only [Envelope.message, h.type, h.msgID, h.timestamp, h.room.1, h.body.1]
  cases hbody : env.hasBody with
  | false => rfl
  | true => simp [h.body.2 hbody]

theorem dispatch_mayReach (text : GoText) (κ : Message → Bool) (i j : Nat) (env : Envelope)
    (active : Bool) :
    (dispatch i env active).countP (HubAct.mayReach text κ j) ≤
      [HubAct.applyInboundNick i env active].countP (HubAct.mayReach text κ j) := by
  unfold dispatch
  split
  · split <;> simp [HubAct.mayReach]
  · split
    · simp
    · split
      · simp [HubAct.mayReach]
      · split
        · simp [HubAct.mayReach]
        · split
          · exact Nat.le_refl _
          · simp

/-- The critical section forwards one envelope to the recipients, or nothing. -/
theorem relayAct_push (h : relayAct cfg x s i env room = some r) :
    (∃ (order : List Nat) (fwd : Envelope), order.Perm (s.recipients i room) ∧
      r.push = order.map (.forward · fwd) ++ [.call i (.onMsg env)]) ∨
    r.push = [] ∨ ∃ msg, r.push = [.reply i (.error msg)] := by
  simp only [relayAct] at h
  split at h
  · cases h
    exact .inr (.inr ⟨_, rfl⟩)
  · split at h
    · cases h
      exact .inr (.inr ⟨_, rfl⟩)
    · split at h
      · cases h
      · rename_i hblocked
        push Not at hblocked
        split at h <;> cases h
        · exact .inr (.inl rfl)
        · exact .inl ⟨_, _, hblocked.2, rfl⟩

/-- Of what the critical section forwards, a session gets one envelope at most. -/
theorem relayAct_countP (hreg : Registration c) (hact : relayAct cfg x c.shared i env room = some r)
    {p : HubAct → Bool} (hforward : ∀ l fwd, p (.forward l fwd) = true → l = j)
    (hcall : p (.call i (.onMsg env)) = false) (hreply : ∀ msg, p (.reply i (.error msg)) = false) :
    r.push.countP p = 0 ∨
      r.push.countP p = 1 ∧ ∃ fwd, .forward j fwd ∈ r.push ∧ p (.forward j fwd) = true := by
  obtain ⟨order, fwd, horder, hpush⟩ | hpush | ⟨msg, hpush⟩ := relayAct_push hact
  · have hcount : r.push.countP p ≤ order.countP (· = j) := by
      rw [hpush, List.countP_append, List.countP_map, List.countP_singleton, hcall]
      refine (Nat.add_zero _).le.trans (List.countP_mono_left fun l _ hl => ?_)
      simpa using hforward l fwd hl
    have hnodup : order.Nodup := horder.nodup_iff.mpr (recipients_nodup hreg.keys)
    have hone : order.countP (· = j) ≤ 1 := List.nodup_iff_count_le_one.mp hnodup j
    by_cases hzero : r.push.countP p = 0
    · exact .inl hzero
    · obtain ⟨b, hb, hpb⟩ := List.countP_pos_iff.mp (Nat.pos_of_ne_zero hzero)
      refine .inr ⟨by omega, fwd, ?_⟩
      rw [hpush, List.mem_append, List.mem_map, List.mem_singleton] at hb
      obtain ⟨l, hl, rfl⟩ | rfl := hb
      · obtain rfl := hforward l fwd hpb
        exact ⟨by simp [hpush, hl], hpb⟩
      · rw [hcall] at hpb
        cases hpb
  · exact .inl (by simp [hpush])
  · exact .inl (by simp [hpush, hreply])

/-- A message is forwarded to a session at most once, and only if it is another's. -/
theorem relay_mayReach (hreg : Registration c)
    (hact : relayAct cfg x c.shared i env (normalizeRoom text env.room) = some r) :
    r.push.countP (HubAct.mayReach text κ j) ≤
      [HubAct.relay i env (normalizeRoom text env.room)].countP (HubAct.mayReach text κ j) := by
  have hforward : ∀ l fwd, (HubAct.forward l fwd).mayReach text κ j = true → l = j := by
    intro l fwd hl
    simp only [HubAct.mayReach, reaches, Bool.and_eq_true, decide_eq_true_eq] at hl
    exact hl.1.1
  obtain hzero | ⟨hone, fwd, hmem, hreach⟩ := relayAct_countP hreg hact hforward rfl fun _ => rfl
  · exact hzero.trans_le (Nat.zero_le _)
  · obtain ⟨-, -, ⟨key, -, hne, hlookup, -⟩, hstamped⟩ := relay_forward hact hmem
    have hij : i ≠ j := by
      rintro rfl
      exact hne (hreg.keys hlookup).symm
    have hsaid : saidElsewhere text κ j i env = true := by
      simpa [HubAct.mayReach, reaches, saidElsewhere, Envelope.chats, hij, hstamped.message_eq] using hreach
    simp [hone, HubAct.mayReach, hsaid]

theorem sendEnvelope_countP (q : Nat × Envelope → Bool) :
    (s.sendEnvelope x i fwd).1.sent.countP q ≤ s.sent.countP q + [(i, fwd)].countP q := by
  obtain heq | ⟨heq, -⟩ := sendEnvelope_cases s x i fwd
  · rw [heq]
    exact Nat.le_add_right _ _
  · rw [heq, List.countP_append]

/-- Replies are not chat. -/
theorem reply_countP {q : Nat × Envelope → Bool} (hq : ∀ k env, env.isChat = false → q (k, env) = false)
    {m : Reply} : (s.reply cfg x i m).1.sent.countP q = s.sent.countP q := by
  obtain heq | ⟨env, htype, heq⟩ := reply_cases cfg s x i m
  · rw [heq]
  · rw [heq, List.countP_append, List.countP_singleton, hq i env (Reply.not_chat htype)]
    rfl

theorem reaches_of_not_chat (k : Nat) (env : Envelope) (h : env.isChat = false) : reaches κ j (k, env) = false := by
  simp [reaches, h]

theorem work_mayReach (hid : Identities es c) (hkept : HistoryKept text cfg es c)
    (hthread : c.threads[t]? = some (a :: rest)) (hact : hubAct text cfg x c.shared a = some r)
    (ha : a.isWork = true) :
    r.shared.sent.countP (reaches κ j) + r.push.countP (HubAct.mayReach text κ j) ≤
      c.shared.sent.countP (reaches κ j) + [a].countP (HubAct.mayReach text κ j) := by
  have hsourced : a.Sourced text cfg es := hkept.actions t _ hthread a List.mem_cons_self
  -- an action that is no reply and no forwarding sends nothing
  have hquiet : a.sends = false → r.push.countP (HubAct.mayReach text κ j) ≤
      [a].countP (HubAct.mayReach text κ j) →
      r.shared.sent.countP (reaches κ j) + r.push.countP (HubAct.mayReach text κ j) ≤
        c.shared.sent.countP (reaches κ j) + [a].countP (HubAct.mayReach text κ j) := by
    intro hsends hle
    rw [sent_of_not_sends hact hsends]
    omega
  cases a with
  | forward i fwd =>
    simp only [hubAct] at hact
    split at hact <;> cases hact
    · exact sendEnvelope_countP _
    · exact Nat.le_add_right _ _
  | reply i m =>
    have hnone : r.push.countP (HubAct.mayReach text κ j) = 0 := by
      refine countP_eq_zero fun b hb => ?_
      cases hubAct_leads hact hb <;> rfl
    rw [hnone]
    simp only [hubAct] at hact
    split at hact <;> cases hact
    exact (reply_countP reaches_of_not_chat).le.trans (Nat.le_add_right _ _)
  | relay i env room =>
    obtain ⟨-, rfl⟩ := hsourced
    exact hquiet rfl (relay_mayReach hid.registration hact)
  | applyInboundNick i env active =>
    refine hquiet rfl ?_
    have hdispatch := dispatch_mayReach text κ i j env active
    simp only [hubAct] at hact
    split at hact
    · cases hact
      exact hdispatch
    · split at hact
      · cases hact
        cases active with
        | true => exact hdispatch
        | false => exact Nat.zero_le _
      · split at hact <;> cases hact
        exact hdispatch
  | handleInbound i data =>
    refine hquiet rfl ?_
    simp only [hubAct] at hact
    split at hact
    · cases hact
      exact Nat.zero_le _
    · split at hact <;> cases hact <;> exact Nat.le_refl _
  | registerLocked i =>
    -- what has waited for the registration is a HELLO
    refine hquiet rfl (Nat.le_trans (Nat.le_of_eq (countP_eq_zero fun b hb => ?_)) (Nat.zero_le _))
    cases hubAct_leads hact hb with
    | displace _ _ => rfl
    | waiting hwaiting =>
      simp [HubAct.mayReach, saidElsewhere, Envelope.chats, Envelope.isChat, (hkept.waiting hwaiting).2,
        typeHello, typeMsg, typeNotice, typeAction]
  | readRemote i env =>
    refine hquiet rfl ?_
    simp only [hubAct] at hact
    split at hact
    · cases hact
      exact Nat.le_refl _
    · split at hact <;> cases hact
      · exact Nat.zero_le _
      · exact Nat.le_refl _
  | onMsg i env =>
    refine hquiet rfl ?_
    simp only [hubAct] at hact
    split at hact <;> cases hact <;> exact Nat.le_refl _
  | recheck i env =>
    refine hquiet rfl ?_
    simp only [hubAct] at hact
    split at hact <;> cases hact
    · exact Nat.zero_le _
    · exact Nat.le_refl _
  | onRoomContent i env =>
    refine hquiet rfl ?_
    obtain ⟨-, -, hpush⟩ | ⟨-, msg, hpush⟩ := onRoomContent_push hact
    · rw [hpush]
      exact Nat.le_refl _
    · simp [hpush, HubAct.mayReach]
  | handlePeer i env =>
    refine hquiet rfl ?_
    cases hact
    exact Nat.le_refl _
  | deliver | queuePlain | takePending => cases ha
  | _ =>
    refine hquiet rfl (Nat.le_trans (Nat.le_of_eq (countP_eq_zero fun b hb => ?_)) (Nat.zero_le _))
    cases hubAct_leads hact hb <;> rfl

theorem mayReach_stock_le (j : Nat) (κ : Message → Bool)
    (hrun : run (hubStep text cfg) hubInit es = some c) :
    stock (HubState.account (saidElsewhere text κ j) (reaches κ j)) (HubAct.mayReach text κ j) c ≤
      es.countP (Event.brings (packetWanted (saidElsewhere text κ j))) := by
  exact stock_le_received mayReach_follows traced_step
    (fun h hthread hact ha => work_mayReach h.1 h.2 hthread hact ha)
    ⟨hubInit_identities, hubInit_historyKept⟩ hrun

/-- Whatever messages one picks: no session gets more of them than have come in on the
other links. -/
theorem relayed_le_said (j : Nat) (κ : Message → Bool)
    (hrun : run (hubStep text cfg) hubInit es = some c) :
    c.shared.sent.countP (reaches κ j) ≤ es.countP (Event.brings (packetWanted (saidElsewhere text κ j))) :=
  (sent_le_stock ..).trans (mayReach_stock_le j κ hrun)

/-- The message of `chatInRoom` came in once and has gone out once. -/
theorem sample_relayed_once :
    ∃ c, run (hubStep .ascii sampleHub) hubInit chatInRoom = some c ∧
      c.shared.sent.countP (reaches (fun _ => true) 1) = 1 ∧
      chatInRoom.countP (Event.brings (packetWanted (saidElsewhere .ascii (fun _ => true) 1))) = 1 ∧
      c.shared.sent.countP (reaches (fun _ => true) 1) ≤
        chatInRoom.countP (Event.brings (packetWanted (saidElsewhere .ascii (fun _ => true) 1))) := by
  have hend : (run (hubStep .ascii sampleHub) hubInit chatInRoom).map (fun c =>
      c.shared.sent.countP (reaches (fun _ => true) 1)) = some 1 := by
    decide +kernel
  obtain ⟨c, hrun, heq⟩ := Option.map_eq_some_iff.mp hend
  exact ⟨c, hrun, heq, by decide +kernel, relayed_le_said 1 (fun _ => true) hrun⟩

end Chat

/-! ## PING and PONG -/

/-- A PING of interest comes in on link `j`. -/
def pings (κ : CborValue → Bool) (j i : Nat) (env : Envelope) : Bool :=
  i = j && env.type = typePing && κ env.body

def pongs (κ : CborValue → Bool) (j : Nat) (m : Nat × Envelope) : Bool :=
  m.1 = j && m.2.type = typePong && κ m.2.body

/-- The action may yet answer a PING of interest. -/
def HubAct.mayPong (κ : CborValue → Bool) (j : Nat) : HubAct → Bool
  | .deliver i data | .queuePlain i data | .handleInbound i data => data.any (pings κ j i)
  | .reply i (.pong env) => i = j && κ env.body
  | _ => false

section Pong

variable {κ : CborValue → Bool}

theorem mayPong_follows : FollowsPackets (pings κ j) (HubAct.mayPong κ j) where
  deliver _ _ := rfl
  queuePlain _ _ := rfl
  handleInbound _ _ := rfl
  accept _ _ hb := mem_acceptLink_cases hb rfl rfl rfl rfl rfl
  checkRemote _ _ := rfl
  hubClose := rfl

theorem eq_nil_of_isNil {body : CborValue} (h : isNil body = true) : body = .nil := by
  cases body <;> first | rfl | cases h

/-- The envelope of a reply has the type and the body of the reply. -/
theorem reply_sent (cfg : HubConfig) (s : HubState) (x : HubChoice) (i : Nat) (m : Reply) :
    s.reply cfg x i m = (s, false) ∨
      ∃ env, env.type = m.type ∧ env.body = m.body cfg ∧ env.hasBody = !isNil (m.body cfg) ∧
        s.reply cfg x i m = ({ s with sent := s.sent ++ [(i, env)] }, true) := by
  simp only [HubState.reply, HubState.sendType]
  split
  · exact .inl rfl
  · rename_i env hnew
    obtain ⟨-, id, millis, -, rfl⟩ := newEnvelope_some hnew
    refine (sendEnvelope_cases s x i _).imp_right fun h => ⟨_, ?_, ?_, ?_, h.1⟩
    · split <;> split <;> split <;> rfl
    · split <;> split <;> split <;> first | rfl | exact (eq_nil_of_isNil ‹_›).symm
    · split <;> split <;> split <;> simp [*]

theorem reply_pongs {m : Reply} :
    (s.reply cfg x i m).1.sent.countP (pongs κ j) ≤
      s.sent.countP (pongs κ j) + [HubAct.reply i m].countP (HubAct.mayPong κ j) := by
  obtain heq | ⟨env, htype, hbody, -, heq⟩ := reply_sent cfg s x i m
  · rw [heq]
    exact Nat.le_add_right _ _
  · rw [heq, List.countP_append]
    refine Nat.add_le_add_left ?_ _
    cases m with
    | pong ping =>
      have hbody : env.body = ping.body := hbody
      simp only [List.countP_singleton, pongs, HubAct.mayPong, hbody, Bool.and_eq_true]
      split
      · rename_i h
        rw [if_pos ⟨h.1.1, h.2⟩]
      · exact Nat.zero_le _
    | _ => simp [pongs, htype, Reply.type, typePong, typeError, typeWelcome, typeJoined, typeParted]

theorem work_mayPong (hkept : HistoryKept text cfg es c)
    (hthread : c.threads[t]? = some (a :: rest)) (hact : hubAct text cfg x c.shared a = some r)
    (ha : a.isWork = true) :
    r.shared.sent.countP (pongs κ j) + r.push.countP (HubAct.mayPong κ j) ≤
      c.shared.sent.countP (pongs κ j) + [a].countP (HubAct.mayPong κ j) := by
  cases a with
  | forward i fwd =>
    have hfinal : (HubAct.forward i fwd).Final i := trivial
    have hnone : r.push = [] := hfinal.push hact
    -- what is forwarded is chat
    obtain ⟨-, env, -, -, hchat, -, -, -, -, hstamped⟩ :=
      (hkept.actions t _ hthread _ List.mem_cons_self).origin
    have htype : fwd.type ≠ typePong := by
      rw [hstamped.type]
      intro heq
      simp [Envelope.isChat, heq, typePong, typeMsg, typeNotice, typeAction] at hchat
    rw [hnone]
    simp only [hubAct] at hact
    split at hact <;> cases hact
    · obtain heq | ⟨heq, -⟩ := sendEnvelope_cases c.shared x i fwd
      · rw [heq]
        exact Nat.le_add_right _ _
      · rw [heq, List.countP_append, List.countP_singleton, if_neg (by simp [pongs, htype])]
        exact Nat.le_add_right _ _
    · exact Nat.le_add_right _ _
  | reply i m =>
    have hnone : r.push.countP (HubAct.mayPong κ j) = 0 := by
      refine countP_eq_zero fun b hb => ?_
      cases hubAct_leads hact hb <;> rfl
    rw [hnone]
    simp only [hubAct] at hact
    split at hact <;> cases hact
    exact reply_pongs
  | handleInbound i data =>
    rw [sent_of_not_sends hact rfl]
    refine Nat.add_le_add_left ?_ _
    simp only [hubAct] at hact
    split at hact
    · cases hact
      exact Nat.zero_le _
    · split at hact <;> cases hact
      · rename_i htype
        simp [HubAct.mayPong, pings, htype, List.countP_cons]
      · exact Nat.zero_le _
  | deliver | queuePlain | takePending => cases ha
  | _ =>
    rw [sent_of_not_sends hact rfl]
    refine Nat.add_le_add_left (Nat.le_trans (Nat.le_of_eq (countP_eq_zero fun b hb => ?_))
      (Nat.zero_le _)) _
    cases hubAct_leads hact hb <;> rfl

/-- There is at most one PONG for each PING, and it says what the PING said. -/
theorem pongs_le_pings (j : Nat) (κ : CborValue → Bool)
    (hrun : run (hubStep text cfg) hubInit es = some c) :
    c.shared.sent.countP (pongs κ j) ≤ es.countP (Event.brings (packetWanted (pings κ j))) := by
  refine (sent_le_stock (pings κ j) _ (HubAct.mayPong κ j) c).trans ?_
  exact stock_le_received mayPong_follows traced_step
    (fun h hthread hact ha => work_mayPong h.2 hthread hact ha)
    ⟨hubInit_identities, hubInit_historyKept⟩ hrun

def samplePing : Envelope := { type := typePing, sender := sampleIdentity, body := .uint 5, hasBody := true }

/-- A link that is not even identified gets one PONG for its PING. -/
theorem sample_pong_once :
    ∃ c, run (hubStep .ascii sampleHub) hubInit
        ([.env .established] ++ turns 0 5 ++ [.env (.packet 0 (some samplePing))] ++ turns 1 1 ++ turns 2 2) =
          some c ∧
      c.shared.sent.countP (pongs (fun _ => true) 0) = 1 ∧
      c.shared.sent.countP (pongs (fun _ => true) 0) ≤ 1 := by
  have hend : (run (hubStep .ascii sampleHub) hubInit
      ([.env .established] ++ turns 0 5 ++ [.env (.packet 0 (some samplePing))] ++ turns 1 1 ++
        turns 2 2)).map (fun c => c.shared.sent.countP (pongs (fun _ => true) 0)) = some 1 := by
    decide +kernel
  obtain ⟨c, hrun, heq⟩ := Option.map_eq_some_iff.mp hend
  exact ⟨c, hrun, heq, pongs_le_pings 0 (fun _ => true) hrun⟩

end Pong

end Rrc
