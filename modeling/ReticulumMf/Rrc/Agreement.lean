-- SUMMARY: When a client and the hub agree on the rooms of its session.
import Mathlib.Data.List.DropRight
import ReticulumMf.Rrc.Joint

/-!
# Agreement on the rooms

Replaying the logged changes on the client's room set gives the hub's. Each
logged change is on its way: as a reply the hub is about to send, as a packet in
flight, or in a handler of the client. So when nothing is on its way, the log is
empty and the two sets are equal. Both facts need that no JOINED or PARTED is
lost in sending and that the changes of a room are made in the hub's order.
-/

namespace Rrc

open Threads Transition Replay

variable {text : GoText} {ccfg : ClientConfig} {hcfg : HubConfig} {i : Nat} {ch : RoomChange}

/-! ## The hub's side -/

section Hub

variable {t : Nat} {x : HubChoice} {s s' : HubState} {a b : HubAct} {r : Effect HubState HubAct}
  {c : HubConf} {rest : List HubAct} {m : Reply}

/-- A room name as the hub keeps it. -/
def NormalRoom (text : GoText) (room : Bytes) : Prop :=
  room ≠ [] ∧ ∃ name, room = normalizeRoom text name

theorem HubAct.PeersAfter.rooms (h : a.PeersAfter s s') (j : Nat) :
    (s'.peer j).rooms = (s.peer j).rooms ∨ (∃ env, a = .onJoin j env) ∨ ∃ env, a = .onPart j env := by
  obtain ⟨p, hp, rfl | hu⟩ := h.at j
  · exact .inl (by rw [hp])
  · rw [hp]
    cases hu with
    | onJoin => exact .inr (.inl ⟨_, rfl⟩)
    | onPart => exact .inr (.inr ⟨_, rfl⟩)
    | _ => exact .inl rfl

/-- What a step of the hub decides about session `i`, and what it does to the rooms. -/
inductive Decides (text : GoText) (i : Nat) (s s' : HubState) : List RoomChange → Prop
  | nothing (h : s'.roomSet i = s.roomSet i) : Decides text i s s' []
  | change {ch : RoomChange} (hnormal : NormalRoom text ch.key)
      (h : s'.roomSet i = ch.apply (s.roomSet i)) : Decides text i s s' [ch]

theorem HubAct.Leads.change (h : a.Leads s b) (hb : b.change i ≠ none) :
    (∃ env, a = .onJoin i env) ∨ ∃ env, a = .onPart i env := by
  cases h with
  | @joined j env room memberList =>
    by_cases hj : j = i
    · exact .inl ⟨env, by rw [hj]⟩
    · simp [HubAct.change, hj] at hb
  | @parted j env room =>
    by_cases hj : j = i
    · exact .inr ⟨env, by rw [hj]⟩
    · simp [HubAct.change, hj] at hb
  | pong | nickTooLong | welcome | joinError | contentError | relayError =>
    simp [HubAct.change, Reply.change] at hb
  | _ => simp [HubAct.change] at hb

theorem roomSet_enterRoom {room : Bytes} :
    (s.enterRoom i room).roomSet i = Change.apply ⟨room, true⟩ (s.roomSet i) := by
  ext k
  simp only [HubState.roomSet, HubState.enterRoom, Change.apply, HubState.set_peer_self,
    Set.mem_ofPred_eq, AList.mem_insert]
  grind

theorem roomSet_leaveRoom {room : Bytes} :
    (s.leaveRoom i room).roomSet i = Change.apply ⟨room, false⟩ (s.roomSet i) := by
  ext k
  simp only [HubState.roomSet, HubState.leaveRoom, Change.apply, HubState.set_peer_self,
    Set.mem_ofPred_eq, AList.mem_erase]
  grind

theorem roomSet_apply_of_mem {room : Bytes} (h : room ∈ (s.peer i).rooms) :
    s.roomSet i = Change.apply ⟨room, true⟩ (s.roomSet i) := by
  ext k
  simp only [HubState.roomSet, Change.apply, Set.mem_ofPred_eq]
  grind

theorem sendError_change (j : Nat) (msg : String) :
    (sendError j msg).filterMap (HubAct.change i) = [] := by
  simp [sendError, HubAct.change, Reply.change]

theorem decides_error (j : Nat) (msg : String) :
    Decides text i s s ((sendError j msg).filterMap (HubAct.change i)) := by
  rw [sendError_change]
  exact .nothing rfl

theorem onJoin_decides {env : Envelope} (h : hubAct text hcfg x s (.onJoin i env) = some r) :
    Decides text i s r.shared (r.push.filterMap (HubAct.change i)) := by
  simp only [hubAct] at h
  split at h
  · cases h
    exact decides_error i _
  · rename_i hroom
    split at h
    · cases h
      exact decides_error i _
    · split at h <;> cases h
      · exact decides_error i _
      · rename_i s' hjoin
        have hpush : ∀ memberList, [HubAct.reply i (.joined (normalizeRoom text env.room) memberList
            env)].filterMap (HubAct.change i) = [⟨normalizeRoom text env.room, true⟩] := by
          simp [HubAct.change, Reply.change]
        rw [hpush]
        refine .change ⟨hroom, _, rfl⟩ ?_
        obtain ⟨hmem, rfl⟩ | ⟨-, -, rfl⟩ := joinLocked_some hjoin
        · exact roomSet_apply_of_mem hmem
        · exact roomSet_enterRoom

theorem onPart_decides {env : Envelope} (h : hubAct text hcfg x s (.onPart i env) = some r) :
    Decides text i s r.shared (r.push.filterMap (HubAct.change i)) := by
  simp only [hubAct] at h
  split at h
  · cases h
    exact .nothing rfl
  · rename_i hroom
    split at h <;> cases h
    · exact .nothing rfl
    · rename_i s' hpart
      have hpush : [HubAct.reply i (.parted (normalizeRoom text env.room) env)].filterMap
          (HubAct.change i) = [⟨normalizeRoom text env.room, false⟩] := by
        simp [HubAct.change, Reply.change]
      rw [hpush]
      obtain ⟨-, rfl⟩ := partLocked_some hpart
      exact .change ⟨hroom, _, rfl⟩ roomSet_leaveRoom

theorem hubAct_decides (h : hubAct text hcfg x s a = some r) :
    Decides text i s r.shared (r.push.filterMap (HubAct.change i)) := by
  by_cases hjoin : ∃ env, a = .onJoin i env
  · obtain ⟨env, rfl⟩ := hjoin
    exact onJoin_decides h
  by_cases hpart : ∃ env, a = .onPart i env
  · obtain ⟨env, rfl⟩ := hpart
    exact onPart_decides h
  have hnone : r.push.filterMap (HubAct.change i) = [] := by
    refine List.filterMap_eq_nil_iff.mpr fun b hb => ?_
    by_contra hchange
    exact ((hubAct_leads h hb).change hchange).elim hjoin hpart
  rw [hnone]
  obtain heq | hdecides := (hubAct_outcome h).peersAfter.rooms i
  · exact .nothing (by rw [HubState.roomSet, heq]; rfl)
  · exact absurd hdecides (by simp [hjoin, hpart])

/-- Room content that is relayed has one of the three types of room content. -/
def HubAct.ContentTyped : HubAct → Prop
  | .onRoomContent _ env | .relay _ env _ | .forward _ env =>
    env.type = typeMsg ∨ env.type = typeNotice ∨ env.type = typeAction
  | _ => True

theorem HubAct.Leads.contentTyped (h : a.Leads s b) (ha : a.ContentTyped) : b.ContentTyped := by
  cases h with
  | onRoomContent htype => exact htype
  | relay => exact ha
  | forward _ htype =>
    simp only [HubAct.ContentTyped, htype]
    exact ha
  | _ => exact trivial

def ContentTypes : HubConf → Prop := Each fun _ _ as => ∀ a ∈ as, a.ContentTyped

theorem ContentTypes.run (h : ContentTypes c) (hthread : c.threads[t]? = some (a :: rest))
    (hact : hubAct text hcfg x c.shared a = some r) : ContentTypes (afterRun c t rest r) :=
  Each.forall_run h hthread (fun _ hb => hb) fun _ hb =>
    (hubAct_starts hact hb).contentTyped (h t _ hthread a List.mem_cons_self)

theorem hubEnv_quiet {e : HubEvent} {l : List HubAct} (henv : hubEnv s e = some r)
    (hl : l ∈ r.spawn) (hb : b ∈ l) : b.ContentTyped ∧ ∀ i, b.change i = none := by
  cases hubEnv_starts henv hl hb with
  | established h => refine mem_acceptLink_cases h ?_ ?_ ?_ ?_ ?_ <;> exact ⟨trivial, fun _ => rfl⟩
  | packet _ | identify _ _ | close => exact ⟨trivial, fun _ => rfl⟩

theorem ContentTypes.env (h : ContentTypes c) {e : HubEvent} (henv : hubEnv c.shared e = some r) :
    ContentTypes ⟨r.shared, c.threads ++ r.spawn⟩ :=
  Each.forall_env h (fun _ hb => hb) fun _ hl _ hb => (hubEnv_quiet henv hl hb).1

theorem contentTypes_of_run {es : List (Event HubChoice HubEvent)}
    (hrun : run (hubStep text hcfg) hubInit es = some c) : ContentTypes c := by
  refine run_invariant (fun {c e c'} h hstep => ?_) (by simp [ContentTypes, hubInit, Each]) hrun
  cases Program.steps_of_step hstep with
  | run hthread hact => exact ContentTypes.run h hthread hact
  | env henv => exact ContentTypes.env h henv

/-- What a step sends, and on which session. -/
theorem HubAct.Outcome.sent (h : a.Outcome text hcfg x s s') :
    s'.sent = s.sent ∨
      (∃ j m env, a = .reply j m ∧ env.type = m.type ∧ s'.sent = s.sent ++ [(j, env)]) ∨
      ∃ j env, a = .forward j env ∧ s'.sent = s.sent ++ [(j, env)] := by
  cases h with
  | same | update _ _ | call => exact .inl rfl
  | commit h => exact .inl h.outputs.2.1
  | @reply j m =>
    obtain heq | ⟨env, htype, heq⟩ := reply_cases hcfg s x j m
    · exact .inl (by rw [heq])
    · exact .inr (.inl ⟨j, m, env, rfl, htype, by rw [heq]⟩)
  | @forward j env =>
    obtain heq | ⟨heq, -⟩ := sendEnvelope_cases s x j env
    · exact .inl (by rw [heq])
    · exact .inr (.inr ⟨j, env, rfl, by rw [heq]⟩)

theorem Envelope.change_eq_none {env : Envelope} (hjoined : env.type ≠ typeJoined)
    (hparted : env.type ≠ typeParted) : env.received.change text = none := by
  simp [Envelope.change, Envelope.received, hjoined, hparted]

/-- A step that sends no change to the session puts none on the wire. -/
theorem sentOn_change_none (hact : hubAct text hcfg x s a = some r) (htyped : a.ContentTyped)
    (hchange : a.change i = none) :
    ∀ env ∈ sentOn i (r.shared.sent.drop s.sent.length), env.received.change text = none := by
  intro env henv
  obtain heq | ⟨j, m, sent, rfl, htype, heq⟩ | ⟨j, sent, rfl, heq⟩ := (hubAct_outcome hact).sent
  · simp [heq, sentOn] at henv
  · rw [heq, List.drop_left] at henv
    by_cases hj : j = i
    · obtain rfl : env = sent := by simpa [sentOn, hj] using henv
      simp only [HubAct.change, hj, if_true] at hchange
      refine Envelope.change_eq_none ?_ ?_ <;> rw [htype]
      · cases m <;> simp_all [Reply.change, Reply.type, typeJoined, typeError, typeWelcome,
          typeParted, typePong]
      · cases m <;> simp_all [Reply.change, Reply.type, typeJoined, typeError, typeWelcome,
          typeParted, typePong]
    · simp [sentOn, hj] at henv
  · rw [heq, List.drop_left] at henv
    by_cases hj : j = i
    · obtain rfl : env = sent := by simpa [sentOn, hj] using henv
      refine Envelope.change_eq_none ?_ ?_ <;>
        obtain htype | htype | htype := htyped <;> rw [htype] <;> decide
    · simp [sentOn, hj] at henv

/-- A reply with a change that is sent arrives as that change. -/
theorem sentOn_reply (hsender : hcfg.sender.length = identityLength)
    (hidem : ∀ name, normalizeRoom text (normalizeRoom text name) = normalizeRoom text name)
    (hact : hubAct text hcfg x s (.reply i m) = some r) (hm : m.change = some ch)
    (hnormal : NormalRoom text ch.key) (hsend : (s.peer i).canSend x = true)
    (hfresh : x.fresh.isSome = true) :
    ∃ env, sentOn i (r.shared.sent.drop s.sent.length) = [env] ∧
      env.received.change text = some ch := by
  have hsess : (s.peer i).sess = true := by
    simp only [HubPeer.canSend, Bool.and_eq_true] at hsend
    exact hsend.1.1.1
  obtain ⟨env, htype, hroom, heq⟩ : ∃ env, env.type = m.type ∧
      (m.room ≠ [] → env.room = m.room ∧ env.hasRoom = true) ∧
      s.reply hcfg x i m = s.sendEnvelope x i env := reply_eq hfresh hsender
  have hsent : r.shared.sent = s.sent ++ [(i, env)] := by
    simp only [hubAct, hsess, Bool.true_eq_false, and_false, if_false] at hact
    cases hact
    rw [heq, sendEnvelope_canSend hsess, if_pos hsend]
  obtain ⟨hne, name, hname⟩ := hnormal
  have hkey : m.room = ch.key := by
    cases m <;> cases hm <;> rfl
  obtain ⟨henv, hhas⟩ := hroom (hkey ▸ hne)
  have hnorm : normalizeRoom text ch.key = ch.key := by
    rw [hname, hidem]
  refine ⟨env, ?_, ?_⟩
  · rw [hsent, List.drop_left]
    simp [sentOn]
  · cases m with
    | joined room memberList env' =>
      cases hm
      have htype' : env.type = typeJoined := htype
      simp only [Envelope.change, Envelope.received, htype', if_true, hhas, henv, Reply.room]
      rw [show normalizeRoom text room = room from hnorm]
    | parted room env' =>
      cases hm
      have htype' : env.type = typeParted := htype
      have hne' : typeParted ≠ typeJoined := by decide
      simp only [Envelope.change, Envelope.received, htype', hne', if_true, if_false, hhas, henv,
        Reply.room]
      rw [show normalizeRoom text room = room from hnorm]
    | _ => cases hm

end Hub

/-! ## The client's side -/

section Client

variable {x : ClientChoice} {s : Client} {a : ClientAct} {r : Effect Client ClientAct}

/-- The actions of the client's handlers and requests. -/
def ClientAct.Ordinary : ClientAct → Prop
  | .handleInbound _ | .dispatch _ | .offerWelcome _ | .addRoom _ | .removeRoom _ | .pong _
  | .call _ | .requireActive _ | .checkMember _ | .send _ => True
  | _ => False

theorem clientDispatch_ordinary {state : ClientState} {env : Envelope} :
    ∀ b ∈ clientDispatch state env, b.Ordinary := by
  intro b hb
  simp only [clientDispatch] at hb
  split at hb
  · split at hb
    · obtain rfl := List.mem_singleton.mp hb
      exact trivial
    · cases hb
  · split at hb
    · obtain rfl := List.mem_singleton.mp hb
      exact trivial
    · split at hb
      · obtain rfl := List.mem_singleton.mp hb
        exact trivial
      · split at hb
        · obtain rfl := List.mem_singleton.mp hb
          exact trivial
        · cases hb

theorem ClientRequest.next_ordinary {q : ClientRequest} :
    ∀ b ∈ (q.next text).2, b.Ordinary ∧ b.change text = none := by
  intro b hb
  cases q with
  | join room =>
    simp only [ClientRequest.next] at hb
    split at hb
    · cases hb
    · obtain rfl := List.mem_singleton.mp hb
      exact ⟨trivial, rfl⟩
  | part _ | content _ _ _ | ping _ =>
    obtain rfl := List.mem_singleton.mp hb
    exact ⟨trivial, rfl⟩

theorem requireActive_push {q : ClientRequest}
    (h : clientAct text ccfg x s (.requireActive q) = some r) :
    ∀ b ∈ r.push, b.Ordinary ∧ b.change text = none := by
  intro b hb
  simp only [clientAct] at h
  split at h
  · cases h
    cases hb
  · split at h <;> cases h
    · cases hb
    · rename_i hnext
      exact ClientRequest.next_ordinary b (by rw [hnext]; exact hb)

theorem ClientAct.Ordinary.push (ha : a.Ordinary) (h : clientAct text ccfg x s a = some r) :
    ∀ b ∈ r.push, b.Ordinary := by
  intro b hb
  cases a with
  | handleInbound data =>
    simp only [clientAct] at h
    split at h
    · cases h
      cases hb
    · split at h <;> cases h <;> simp only [List.mem_cons, List.not_mem_nil, or_false] at hb
      · obtain rfl | rfl := hb <;> exact trivial
      · subst hb
        exact trivial
  | dispatch env =>
    cases h
    exact clientDispatch_ordinary b hb
  | addRoom env | removeRoom env =>
    cases h
    obtain rfl := List.mem_singleton.mp hb
    exact trivial
  | offerWelcome env | pong env | call k | send q =>
    cases h
    cases hb
  | checkMember q =>
    simp only [clientAct] at h
    split at h <;> cases h
    · obtain rfl := List.mem_singleton.mp hb
      exact trivial
    · cases hb
  | requireActive q => exact (requireActive_push h b hb).1
  | _ => exact ha.elim

theorem Client.roomSet_of_sameCore {s' : Client} (h : s.SameCore s') : s'.roomSet = s.roomSet := by
  rw [Client.roomSet, h.rooms]
  rfl

/-- The client's rooms change by what an action applies. -/
theorem ClientAct.Ordinary.roomSet (ha : a.Ordinary) (h : clientAct text ccfg x s a = some r) :
    r.shared.roomSet = (a.applies text).elim s.roomSet (·.apply s.roomSet) := by
  cases a with
  | addRoom env =>
    cases h
    ext k
    simp only [Client.roomSet, ClientAct.applies, Option.elim_some, Change.apply,
      Set.mem_ofPred_eq, AList.mem_insert]
    grind
  | removeRoom env =>
    cases h
    ext k
    simp only [Client.roomSet, ClientAct.applies, Option.elim_some, Change.apply,
      Set.mem_ofPred_eq, AList.mem_erase]
    grind
  | offerWelcome env =>
    cases h
    simp only [Client.wake]
    split <;> rfl
  | call k =>
    cases h
    rfl
  | handleInbound _ | dispatch _ | pong _ | requireActive _ | checkMember _ | send _ =>
    have hout := clientAct_outcome h
    generalize r.shared = s' at hout
    cases hout with
    | other hsame => exact Client.roomSet_of_sameCore hsame
  | _ => exact ha.elim

def ClientAct.carries (text : GoText) (ch : RoomChange) (a : ClientAct) : Bool :=
  a.change text = some ch

theorem clientDispatch_carries {state : ClientState} {env : Envelope} :
    (clientDispatch state env).countP (ClientAct.carries text ch) =
      [ClientAct.dispatch env].countP (ClientAct.carries text ch) := by
  have hne : typeJoined ≠ typeWelcome ∧ typeParted ≠ typeWelcome ∧ typeParted ≠ typeJoined := by
    decide
  by_cases hjoined : env.type = typeJoined
  · simp [clientDispatch, hjoined, hne, ClientAct.carries, ClientAct.change, ClientAct.applies,
      Envelope.change]
  by_cases hparted : env.type = typeParted
  · simp [clientDispatch, hparted, hne, ClientAct.carries, ClientAct.change, ClientAct.applies,
      Envelope.change]
  have hzero : [ClientAct.dispatch env].countP (ClientAct.carries text ch) = 0 := by
    simp [ClientAct.carries, ClientAct.change, Envelope.change, hjoined, hparted]
  rw [hzero]
  refine countP_eq_zero fun b hb => ?_
  simp only [clientDispatch, hjoined, hparted, if_false] at hb
  split at hb
  · split at hb
    · obtain rfl := List.mem_singleton.mp hb
      rfl
    · cases hb
  · split at hb
    · obtain rfl := List.mem_singleton.mp hb
      rfl
    · cases hb

/-- An action passes its change on until it is applied. -/
theorem ClientAct.Ordinary.carries (ha : a.Ordinary) (h : clientAct text ccfg x s a = some r) :
    r.push.countP (ClientAct.carries text ch) + (if a.applies text = some ch then 1 else 0) =
      [a].countP (ClientAct.carries text ch) := by
  cases a with
  | handleInbound data =>
    simp only [clientAct] at h
    split at h
    · cases h
      rfl
    · split at h <;> cases h <;> rfl
  | dispatch env =>
    cases h
    exact clientDispatch_carries
  | addRoom env | removeRoom env =>
    cases h
    simp [ClientAct.carries, ClientAct.change, ClientAct.applies]
  | offerWelcome env | pong env | call k | send q =>
    cases h
    rfl
  | checkMember q =>
    simp only [clientAct] at h
    split at h <;> cases h <;> rfl
  | requireActive q =>
    refine countP_eq_zero fun b hb => ?_
    rw [ClientAct.carries, (requireActive_push h b hb).2]
    rfl
  | _ => exact ha.elim

end Client

/-! ## The invariant -/

def HubAct.carries (i : Nat) (ch : RoomChange) (a : HubAct) : Bool := a.change i = some ch

def Envelope.carries (text : GoText) (ch : RoomChange) (env : Envelope) : Bool :=
  env.received.change text = some ch

/-- How often a change is on its way to the client. -/
def Joint.underWay (text : GoText) (i : Nat) (ch : RoomChange) (j : Joint) : Nat :=
  pending (HubAct.carries i ch) j.hub + j.down.countP (Envelope.carries text ch) +
    pending (ClientAct.carries text ch) j.client

structure Synced (text : GoText) (i : Nat) (p : Joint × List RoomChange) : Prop where
  rooms : replay p.1.client.shared.roomSet p.2 = p.1.hub.shared.roomSet i
  logged : ∀ ch, p.2.count ch = p.1.underWay text i ch
  normal : Each (fun _ _ as => ∀ a ∈ as, ∀ ch, a.change i = some ch → NormalRoom text ch.key) p.1.hub
  typed : ContentTypes p.1.hub
  ordinary : Each (fun _ _ as => ∀ a ∈ as, a.Ordinary) p.1.client

variable {j j' : Joint} {log : List RoomChange}

theorem HubAct.session_of_change {a : HubAct} (h : a.change i = some ch) : a.session = some i := by
  cases a with
  | reply k m =>
    by_cases hk : k = i
    · rw [hk, HubAct.session]
    · simp [HubAct.change, hk] at h
  | _ => cases h

theorem Joint.Settled.underWay (h : j.Settled i) : j.underWay text i ch = 0 := by
  have hhub : pending (HubAct.carries i ch) j.hub = 0 :=
    h.hub.pending fun a ha => HubAct.session_of_change (of_decide_eq_true ha)
  have hclient : pending (ClientAct.carries text ch) j.client = 0 := by
    refine pending_eq_zero fun l hl a ha => ?_
    rw [h.client l hl] at ha
    cases ha
  rw [Joint.underWay, hhub, hclient, h.down]
  rfl

/-- When nothing is on its way, the log is empty. -/
theorem Synced.agrees (h : Synced text i (j, log)) : j.Agrees i := by
  intro hsettled _
  have hlog : log = [] := by
    refine List.eq_nil_iff_forall_not_mem.mpr fun ch hch => ?_
    exact List.count_eq_zero.mp ((h.logged ch).trans hsettled.underWay) hch
  have hrooms := h.rooms
  rw [hlog] at hrooms
  exact hrooms

theorem Joint.Started.synced (h : j.Started text hcfg i) : Synced text i (j, []) := by
  obtain ⟨es, hrun⟩ := h.reachable
  refine ⟨h.rooms, fun ch => h.settled.underWay.symm, ?_, contentTypes_of_run hrun, ?_⟩
  · intro n as has a ha ch hchange
    exact absurd (HubAct.session_of_change hchange)
      (h.settled.hub as (List.mem_of_getElem? has) a ha)
  · intro n as has a ha
    rw [h.settled.client as (List.mem_of_getElem? has)] at ha
    cases ha

/-! ## Steps of the hub -/

theorem Decides.replay {s s' : HubState} {changes : List RoomChange}
    (h : Decides text i s s' changes) : replay (s.roomSet i) changes = s'.roomSet i := by
  cases h with
  | nothing h => exact h.symm
  | change _ h => exact h.symm

theorem Decides.normal {s s' : HubState} {changes : List RoomChange}
    (h : Decides text i s s' changes) (hch : ch ∈ changes) : NormalRoom text ch.key := by
  cases h with
  | nothing _ => cases hch
  | change hnormal _ =>
    obtain rfl := List.mem_singleton.mp hch
    exact hnormal

section HubSteps

variable {t : Nat} {x : HubChoice} {s : HubState} {a : HubAct} {r : Effect HubState HubAct}
  {rest : List HubAct}

/-- A change that the hub was about to send is in flight after the step. -/
theorem sentOn_count (hsender : hcfg.sender.length = identityLength)
    (hidem : ∀ name, normalizeRoom text (normalizeRoom text name) = normalizeRoom text name)
    (hact : hubAct text hcfg x s a = some r) (htyped : a.ContentTyped)
    (hnormal : ∀ ch, a.change i = some ch → NormalRoom text ch.key)
    (hsent : a.change i ≠ none → (s.peer i).canSend x = true ∧ x.fresh.isSome = true) :
    (sentOn i (r.shared.sent.drop s.sent.length)).countP (Envelope.carries text ch) =
      [a].countP (HubAct.carries i ch) := by
  cases hchange : a.change i with
  | none =>
    have hzero : [a].countP (HubAct.carries i ch) = 0 := by
      simp [HubAct.carries, hchange]
    rw [hzero]
    refine countP_eq_zero fun env henv => ?_
    rw [Envelope.carries, sentOn_change_none hact htyped hchange env henv]
    rfl
  | some ch₀ =>
    obtain ⟨hsend, hfresh⟩ := hsent (by simp [hchange])
    cases a with
    | reply k m =>
      by_cases hk : k = i
      · subst hk
        have hm : m.change = some ch₀ := by simpa [HubAct.change] using hchange
        obtain ⟨env, heq, henv⟩ :=
          sentOn_reply hsender hidem hact hm (hnormal ch₀ hchange) hsend hfresh
        rw [heq, List.countP_singleton, List.countP_singleton, Envelope.carries, HubAct.carries,
          henv, hchange]
      · simp [HubAct.change, hk] at hchange
    | _ => cases hchange

theorem hubAct_spawn_change (hact : hubAct text hcfg x s a = some r) :
    ∀ l ∈ r.spawn, ∀ b ∈ l, b.change i = none := by
  intro l hl b hb
  obtain hspawn | ⟨k, data, -, -, -, hspawn⟩ := hubAct_spawn hact
  · rw [hspawn] at hl
    cases hl
  · rw [hspawn, List.mem_singleton] at hl
    subst hl
    obtain rfl := List.mem_singleton.mp hb
    rfl

theorem Synced.hub_run (hsender : hcfg.sender.length = identityLength)
    (hidem : ∀ name, normalizeRoom text (normalizeRoom text name) = normalizeRoom text name)
    (h : Synced text i (j, log)) (hthread : j.hub.threads[t]? = some (a :: rest))
    (hact : hubAct text hcfg x j.hub.shared a = some r)
    (hsent : a.change i ≠ none →
      (j.hub.shared.peer i).canSend x = true ∧ x.fresh.isSome = true) :
    Synced text i
      ({ j with
          hub := afterRun j.hub t rest r
          down := j.down ++ sentOn i (r.shared.sent.drop j.hub.shared.sent.length) },
        log ++ r.push.filterMap (HubAct.change i)) := by
  have hdecides : Decides text i j.hub.shared r.shared (r.push.filterMap (HubAct.change i)) :=
    hubAct_decides hact
  have htyped := h.typed t _ hthread a List.mem_cons_self
  have hnormal := h.normal t _ hthread a List.mem_cons_self
  refine ⟨?_, fun ch => ?_, ?_, h.typed.run hthread hact, h.ordinary⟩
  · have hrooms : replay j.client.shared.roomSet log = j.hub.shared.roomSet i := h.rooms
    rw [replay_append, hrooms]
    exact hdecides.replay
  · have hlogged : log.count ch = j.underWay text i ch := h.logged ch
    have hflight : (sentOn i (r.shared.sent.drop j.hub.shared.sent.length)).countP
        (Envelope.carries text ch) = [a].countP (HubAct.carries i ch) :=
      sentOn_count hsender hidem hact htyped hnormal hsent
    have hpending := pending_afterRun (HubAct.carries i ch) r hthread
    have hspawn : (r.spawn.map (List.countP (HubAct.carries i ch))).sum = 0 := by
      refine sum_countP_eq_zero fun l hl b hb => ?_
      rw [HubAct.carries, hubAct_spawn_change hact l hl b hb]
      rfl
    have hadded : (r.push.filterMap (HubAct.change i)).count ch =
        r.push.countP (HubAct.carries i ch) := by
      rw [List.count_filterMap]
      exact List.countP_congr fun b _ => by simp [HubAct.carries]
    simp only [Joint.underWay, List.count_append, List.countP_append] at hlogged ⊢
    omega
  · refine Each.forall_run h.normal hthread (fun _ hb => hb) fun b hb ch hchange => ?_
    obtain hb | ⟨l, hl, hb⟩ := hb
    · exact hdecides.normal (List.mem_filterMap.mpr ⟨b, hb, hchange⟩)
    · cases (hubAct_spawn_change hact l hl b hb).symm.trans hchange

theorem Synced.hub_env {e : HubEvent} (h : Synced text i (j, log))
    (henv : hubEnv j.hub.shared e = some r) :
    Synced text i
      ({ j with
          hub := ⟨r.shared, j.hub.threads ++ r.spawn⟩
          down := j.down ++ sentOn i (r.shared.sent.drop j.hub.shared.sent.length) }, log) := by
  have hdown : sentOn i (r.shared.sent.drop j.hub.shared.sent.length) = [] := by
    rw [(hubEnv_outputs henv).1, List.drop_length]
    rfl
  have hspawn : ∀ ch, ∀ l ∈ r.spawn, ∀ b ∈ l, HubAct.carries i ch b = false := by
    intro ch l hl b hb
    rw [HubAct.carries, (hubEnv_quiet henv hl hb).2]
    rfl
  refine ⟨?_, fun ch => ?_, ?_, h.typed.env henv, h.ordinary⟩
  · refine h.rooms.trans ?_
    obtain ⟨status, heq⟩ := hubEnv_at henv i
    simp only [HubState.roomSet, heq]
  · simp only [Joint.underWay, hdown, List.append_nil, pending_env_of_none (hspawn ch)]
    exact h.logged ch
  · refine Each.forall_env h.normal (fun _ hb => hb) fun l hl b hb ch hchange => ?_
    cases ((hubEnv_quiet henv hl hb).2 i).symm.trans hchange

end HubSteps

/-! ## Steps of the client -/

section ClientSteps

variable {t : Nat} {x : ClientChoice} {a : ClientAct} {r : Effect Client ClientAct}
  {rest : List ClientAct} {up : List Envelope}

theorem Synced.client_run (h : Synced text i (j, log))
    (hthread : j.client.threads[t]? = some (a :: rest))
    (hact : clientAct text ccfg x j.client.shared a = some r)
    (holdest : ∀ ch, a.applies text = some ch → isOldest ch log = true) :
    Synced text i
      ({ j with
          client := ⟨r.shared, j.client.threads.set t (r.push ++ rest) ++ r.spawn⟩
          up := up }, (a.applies text).elim log log.erase) := by
  have ha : a.Ordinary := h.ordinary t _ hthread a List.mem_cons_self
  have hspawn : r.spawn = [] := clientAct_spawn hact
  have hrooms : replay j.client.shared.roomSet log = j.hub.shared.roomSet i := h.rooms
  refine ⟨?_, fun ch => ?_, h.normal, h.typed, ?_⟩
  · dsimp only
    rw [ha.roomSet hact, ← hrooms]
    cases happlies : a.applies text with
    | none => rfl
    | some ch => exact replay_erase (holdest ch happlies)
  · have hlogged : log.count ch = j.underWay text i ch := h.logged ch
    have hpush : r.push.countP (ClientAct.carries text ch) +
        (if a.applies text = some ch then 1 else 0) = [a].countP (ClientAct.carries text ch) :=
      ha.carries hact
    have hpending := pending_run (p := ClientAct.carries text ch) (r := r) hthread
    rw [hspawn] at hpending ⊢
    simp only [List.map_nil, List.sum_nil, Nat.add_zero] at hpending
    simp only [Joint.underWay] at hlogged ⊢
    cases happlies : a.applies text with
    | none =>
      simp only [happlies, reduceCtorEq, if_false, Option.elim_none] at hpush ⊢
      omega
    | some ch₀ =>
      have hmem := mem_of_isOldest (holdest ch₀ happlies)
      simp only [happlies, Option.some.injEq, Option.elim_some, List.count_erase, beq_iff_eq] at hpush ⊢
      by_cases heq : ch₀ = ch
      · subst heq
        have hpos := List.count_pos_iff.mpr hmem
        simp only [if_true] at hpush ⊢
        omega
      · simp only [heq, if_false] at hpush ⊢
        omega
  · refine Each.forall_run h.ordinary hthread (fun _ hb => hb) fun b hb => ?_
    obtain hb | ⟨l, hl, -⟩ := hb
    · exact ha.push hact b hb
    · rw [hspawn] at hl
      cases hl

theorem clientEnv_roomSet {s : Client} {e : ClientEvent} (henv : clientEnv text s e = some r) :
    r.shared.roomSet = s.roomSet := by
  obtain ⟨hsame, -⟩ | ⟨-, -, -, heq⟩ := clientEnv_cases henv
  · exact Client.roomSet_of_sameCore hsame
  · rw [heq]
    simp only [Client.wake]
    split <;> rfl

/-- What the user does starts a request, or nothing. -/
theorem clientEnv_allowed {s : Client} {e : ClientEvent} {l : List ClientAct} {b : ClientAct}
    (hallowed : clientAllowed (.env e) = true) (henv : clientEnv text s e = some r)
    (hl : l ∈ r.spawn) (hb : b ∈ l) : ∃ q, b = .requireActive q := by
  cases e with
  | packet _ | linkClosed | close => cases hallowed
  | request q =>
    cases henv
    obtain rfl := List.mem_singleton.mp hl
    exact ⟨q, List.mem_singleton.mp hb⟩
  | setNick nick =>
    cases henv
    cases hl
  | established | linkStale | timerFires =>
    simp only [clientEnv] at henv
    split at henv <;> cases henv
    cases hl

theorem Synced.client_env {e : ClientEvent} (h : Synced text i (j, log))
    (hallowed : clientAllowed (.env e) = true)
    (henv : clientEnv text j.client.shared e = some r) :
    Synced text i
      ({ j with client := ⟨r.shared, j.client.threads ++ r.spawn⟩, up := up }, log) := by
  have hspawn : ∀ ch, ∀ l ∈ r.spawn, ∀ b ∈ l, ClientAct.carries text ch b = false := by
    intro ch l hl b hb
    obtain ⟨q, rfl⟩ := clientEnv_allowed hallowed henv hl hb
    rfl
  refine ⟨?_, fun ch => ?_, h.normal, h.typed, ?_⟩
  · dsimp only
    rw [clientEnv_roomSet henv]
    exact h.rooms
  · simp only [Joint.underWay, pending_env_of_none (hspawn ch)]
    exact h.logged ch
  · refine Each.forall_env h.ordinary (fun _ hb => hb) fun l hl b hb => ?_
    obtain ⟨q, rfl⟩ := clientEnv_allowed hallowed henv hl hb
    exact trivial

theorem countP_eraseIdx {p : Envelope → Bool} {l : List Envelope} {n : Nat} {env : Envelope}
    (h : l[n]? = some env) : (l.eraseIdx n).countP p + [env].countP p = l.countP p := by
  obtain ⟨hn, rfl⟩ := List.getElem?_eq_some_iff.mp h
  have hperm := (List.getElem_cons_eraseIdx_perm hn).countP_eq p
  rw [← hperm, ← List.countP_append, List.countP_append, Nat.add_comm, ← List.countP_append]
  rfl

/-- A packet that arrives at the client is in its handler now. -/
theorem Synced.client_packet {n : Nat} {env : Envelope} (h : Synced text i (j, log))
    (hn : j.down[n]? = some env)
    (henv : clientEnv text j.client.shared (.packet (some env.received)) = some r) :
    Synced text i
      ({ j with
          client := ⟨r.shared, j.client.threads ++ r.spawn⟩
          up := up
          down := j.down.eraseIdx n }, log) := by
  have hspawn : r.spawn = [[.handleInbound (some env.received)]] := by
    simp only [clientEnv] at henv
    split at henv <;> cases henv
    rfl
  refine ⟨?_, fun ch => ?_, h.normal, h.typed, ?_⟩
  · dsimp only
    rw [clientEnv_roomSet henv]
    exact h.rooms
  · have hlogged : log.count ch = j.underWay text i ch := h.logged ch
    have hflight := countP_eraseIdx (p := Envelope.carries text ch) hn
    have hpending := pending_env (p := ClientAct.carries text ch) (c := j.client) (r := r)
    have hsame : [ClientAct.handleInbound (some env.received)].countP (ClientAct.carries text ch) =
        [env].countP (Envelope.carries text ch) := rfl
    simp only [hspawn, List.map_cons, List.map_nil, List.sum_cons, List.sum_nil, Nat.add_zero,
      hsame] at hpending
    simp only [Joint.underWay, hspawn] at hlogged ⊢
    omega
  · refine Each.forall_env h.ordinary (fun _ hb => hb) fun l hl b hb => ?_
    rw [hspawn, List.mem_singleton] at hl
    subst hl
    obtain rfl := List.mem_singleton.mp hb
    exact trivial

end ClientSteps

/-! ## Runs -/

section Runs

variable {p p' : Joint × List RoomChange} {e : JointEvent}

theorem Synced.client_step {e : Event ClientChoice ClientEvent} {n : Joint}
    (h : Synced text i (j, log)) (hstep : jointStep text ccfg hcfg i j (.client e) = some n)
    (hgood : inOrder text i (j, log) (.client e) = true) :
    Synced text i (n, noteChanges text hcfg i j (.client e) log) := by
  simp only [jointStep] at hstep
  split at hstep
  · rename_i hallowed
    obtain ⟨c, hc, rfl⟩ := Option.map_eq_some_iff.mp hstep
    cases Program.steps_of_step hc with
    | run hthread hact =>
      simp only [inOrder, Config.next_eq hthread, Option.bind_some] at hgood
      simp only [noteChanges, Config.next_eq hthread, Option.bind_some]
      refine h.client_run hthread hact fun ch hch => ?_
      rw [hch] at hgood
      exact hgood
    | env henv => exact h.client_env hallowed henv
  · cases hstep

theorem Synced.hub_step (hsender : hcfg.sender.length = identityLength)
    (hidem : ∀ name, normalizeRoom text (normalizeRoom text name) = normalizeRoom text name)
    {e : Event HubChoice HubEvent} {n : Joint}
    (h : Synced text i (j, log)) (hstep : jointStep text ccfg hcfg i j (.hub e) = some n)
    (hgood : inOrder text i (j, log) (.hub e) = true) :
    Synced text i (n, noteChanges text hcfg i j (.hub e) log) := by
  simp only [jointStep] at hstep
  split at hstep
  · obtain ⟨c, hc, rfl⟩ := Option.map_eq_some_iff.mp hstep
    cases Program.steps_of_step hc with
    | @run _ x a _ _ hthread hact =>
      have hact' : hubAct text hcfg x j.hub.shared a = some _ := hact
      simp only [noteChanges, Config.next_eq hthread, Option.bind_some, hact', Option.elim_some]
      refine h.hub_run hsender hidem hthread hact fun hchange => ?_
      simp only [inOrder, Config.next_eq hthread] at hgood
      cases a with
      | reply k m =>
        by_cases hk : k = i
        · simp only [HubAct.change, hk, if_true] at hchange
          simpa [hk, hchange] using hgood
        · simp [HubAct.change, hk] at hchange
      | _ => exact absurd rfl hchange
    | env henv => exact h.hub_env henv
  · cases hstep

theorem Synced.step (hsender : hcfg.sender.length = identityLength)
    (hidem : ∀ name, normalizeRoom text (normalizeRoom text name) = normalizeRoom text name)
    (h : Synced text i p) (hstep : loggedStep text ccfg hcfg i p e = some p')
    (hgood : inOrder text i p e = true) : Synced text i p' := by
  obtain ⟨j, log⟩ := p
  obtain ⟨n, log'⟩ := p'
  obtain ⟨hstep, rfl⟩ := recorded_eq_some hstep
  cases e with
  | client e => exact h.client_step hstep hgood
  | hub e => exact h.hub_step hsender hidem hstep hgood
  | toHub k =>
    obtain ⟨env, -, hstep⟩ := Option.bind_eq_some_iff.mp hstep
    obtain ⟨c, hc, rfl⟩ := Option.map_eq_some_iff.mp hstep
    have herased : Synced text i ({ j with up := j.up.eraseIdx k }, log) :=
      ⟨h.rooms, h.logged, h.normal, h.typed, h.ordinary⟩
    cases Program.steps_of_step hc with
    | env henv => exact herased.hub_env (e := .packet i (some env.received)) henv
  | toClient k =>
    obtain ⟨env, hk, hstep⟩ := Option.bind_eq_some_iff.mp hstep
    obtain ⟨c, hc, rfl⟩ := Option.map_eq_some_iff.mp hstep
    cases Program.steps_of_step hc with
    | env henv => exact h.client_packet hk henv

/-- As long as no JOINED or PARTED fails to go out, and the client makes the changes of
each room in the hub's order, the two agree on the rooms whenever all is settled. -/
theorem rooms_agree_in_order (text : GoText) (ccfg : ClientConfig) (hcfg : HubConfig) (i : Nat)
    (hsender : hcfg.sender.length = identityLength)
    (hidem : ∀ name, normalizeRoom text (normalizeRoom text name) = normalizeRoom text name)
    {j : Joint} {es : List JointEvent} (hstart : j.Started text hcfg i)
    (hgood : AllSteps (loggedStep text ccfg hcfg i) (fun p e => inOrder text i p e = true)
      (j, []) es) :
    AllStates (loggedStep text ccfg hcfg i) (fun p => p.1.Agrees i) (j, []) es :=
  (allStates_of_good (fun h hstep hgood => h.step hsender hidem hstep hgood) hstart.synced
    hgood).imp fun _ h => h.agrees

end Runs

/-! ## A run -/

theorem dropWhile_trim {α : Type} (p : α → Bool) (l : List α) :
    ((l.dropWhile p).rdropWhile p).dropWhile p = (l.dropWhile p).rdropWhile p := by
  refine List.dropWhile_eq_self_iff.mpr fun hpos => ?_
  have hinit := List.rdropWhile_prefix p (l.dropWhile p)
  have hlen : 0 < (l.dropWhile p).length := hpos.trans_le hinit.length_le
  rw [hinit.getElem hpos]
  exact List.dropWhile_get_zero_not p l hlen

theorem map_trim {α : Type} {p : α → Bool} {f : α → α} (hf : ∀ a, p (f a) = p a) (l : List α) :
    ((l.map f).dropWhile p).rdropWhile p = ((l.dropWhile p).rdropWhile p).map f := by
  have hcomp : p ∘ f = p := funext hf
  simp only [List.rdropWhile, List.dropWhile_map, ← List.map_reverse, hcomp]

theorem ascii_normalizeRoom_idem (name : Bytes) :
    normalizeRoom .ascii (normalizeRoom .ascii name) = normalizeRoom .ascii name := by
  let space : UInt8 → Bool := fun b => b ∈ [9, 10, 11, 12, 13, 32]
  let lower : UInt8 → UInt8 := fun b => if 65 ≤ b ∧ b ≤ 90 then b + 32 else b
  have hspace : ∀ b, space (lower b) = space b := by
    intro b
    simp only [space, lower, List.mem_cons, List.not_mem_nil, or_false, decide_eq_decide]
    grind
  have hlower : lower ∘ lower = lower := by
    funext b
    simp only [lower, Function.comp]
    grind
  have hname : ∀ name, normalizeRoom .ascii name =
      ((name.dropWhile space).rdropWhile space).map lower := fun _ => rfl
  rw [hname, hname, map_trim hspace, dropWhile_trim, List.rdropWhile_idempotent, List.map_map,
    hlower]

/-- The client joins a room and leaves it again, and both replies arrive. -/
def joinThenPart : List JointEvent :=
  [.client (.env (.request (.join sampleRoom)))] ++ (clientTurns 2 2).map .client ++ [.toHub 0] ++
  (turns 4 1 ++ turns 5 7).map .hub ++
  [.client (.env (.request (.part sampleRoom)))] ++ (clientTurns 3 2).map .client ++ [.toHub 0] ++
  (turns 6 1 ++ turns 7 7).map .hub ++ [.toClient 0, .toClient 0]

/-- The handler of the JOINED runs first. -/
def repliesInOrder : List JointEvent :=
  joinThenPart ++ (clientTurns 4 4 ++ clientTurns 5 4).map .client

/-- The handler of the PARTED runs first. -/
def repliesSwapped : List JointEvent :=
  joinThenPart ++ (clientTurns 5 4 ++ clientTurns 4 4).map .client

/-- A client that has dialled and a session that has said HELLO. -/
def sampleJoint : Option Joint :=
  (run (clientStep .ascii sampleClient) (clientInit .ascii sampleClient)
    (sampleDial ++ clientTurns 0 4)).bind fun c =>
    (run (hubStep .ascii sampleHub) hubInit sampleActive).map fun d => { client := c, hub := d }

theorem sampleJoint_started {j : Joint} (h : sampleJoint = some j) :
    j.Started .ascii sampleHub 0 := by
  have hend : sampleJoint.map (fun j =>
      (j.client.threads.all List.isEmpty && j.hub.threads.all List.isEmpty &&
          (j.hub.shared.peer 0).active && j.client.shared.state = .active,
        j.hub.shared.peers.lookup (j.hub.shared.peer 0).peerHash, j.client.shared.rooms.keys,
        (j.hub.shared.peer 0).rooms.keys)) =
      some (true, some 0, [], []) := by
    decide +kernel
  rw [h] at hend
  simp only [Option.map_some, Option.some.injEq, Prod.mk.injEq, Bool.and_eq_true,
    decide_eq_true_eq] at hend
  obtain ⟨⟨⟨⟨hclient, hhub⟩, hactive⟩, hstate⟩, hcurrent, hrooms, hrooms'⟩ := hend
  obtain ⟨c, -, h⟩ := Option.bind_eq_some_iff.mp h
  obtain ⟨d, hrun, rfl⟩ := Option.map_eq_some_iff.mp h
  refine ⟨⟨_, hrun⟩, ⟨rfl, rfl, quiescent_of_isEmpty hclient, handlersFinished_of_isEmpty hhub⟩,
    hcurrent, ⟨hstate, hactive⟩, ?_⟩
  ext room
  simp only [Client.roomSet, HubState.roomSet, Set.mem_ofPred_eq, AList.mem_keys, hrooms, hrooms']

/-- Joined and left, with the replies handled in order: both sides agree. -/
theorem sample_rooms_agree :
    ∃ j : Joint, j.Started .ascii sampleHub 0 ∧
      (run (loggedStep .ascii sampleClient sampleHub 0) (j, []) repliesInOrder).isSome = true ∧
      AllStates (loggedStep .ascii sampleClient sampleHub 0) (fun p => p.1.Agrees 0) (j, [])
        repliesInOrder := by
  have hend : sampleJoint.map (fun j =>
      ((run (loggedStep .ascii sampleClient sampleHub 0) (j, []) repliesInOrder).isSome,
        decide (AllSteps (loggedStep .ascii sampleClient sampleHub 0)
          (fun p e => inOrder .ascii 0 p e = true) (j, []) repliesInOrder))) =
      some (true, true) := by
    decide +kernel
  obtain ⟨j, hj, heq⟩ := Option.map_eq_some_iff.mp hend
  simp only [Prod.mk.injEq] at heq
  obtain ⟨hsome, hgood⟩ := heq
  have hstart := sampleJoint_started hj
  exact ⟨j, hstart, hsome, rooms_agree_in_order .ascii sampleClient sampleHub 0 (by decide)
    ascii_normalizeRoom_idem hstart (of_decide_eq_true hgood)⟩

/-- The same packets, with the handlers of the two replies the other way round: all is
settled, and the client is in a room that the hub does not have it in. -/
theorem replies_swapped_disagree :
    ∃ j j' : Joint, j.Started .ascii sampleHub 0 ∧
      run (jointStep .ascii sampleClient sampleHub 0) j repliesSwapped = some j' ∧
      j'.Settled 0 ∧ j'.hub.shared.Current 0 ∧ sampleRoom ∈ j'.client.shared.roomSet ∧
      sampleRoom ∉ j'.hub.shared.roomSet 0 ∧ ¬j'.Agrees 0 := by
  have hend : sampleJoint.bind (fun j =>
      (run (jointStep .ascii sampleClient sampleHub 0) j repliesSwapped).map fun j' =>
        (j'.up.isEmpty && j'.down.isEmpty && j'.client.threads.all List.isEmpty &&
            j'.hub.threads.all List.isEmpty,
          j'.hub.shared.peers.lookup (j'.hub.shared.peer 0).peerHash,
          j'.client.shared.rooms.keys, (j'.hub.shared.peer 0).rooms.keys)) =
      some (true, some 0, [sampleRoom], []) := by
    decide +kernel
  obtain ⟨j, hj, hend⟩ := Option.bind_eq_some_iff.mp hend
  obtain ⟨j', hrun, heq⟩ := Option.map_eq_some_iff.mp hend
  simp only [Prod.mk.injEq, Bool.and_eq_true] at heq
  obtain ⟨⟨⟨⟨hup, hdown⟩, hclient⟩, hhub⟩, hcurrent, hjoined, hparted⟩ := heq
  have hsettled : j'.Settled 0 :=
    ⟨List.isEmpty_iff.mp hup, List.isEmpty_iff.mp hdown, quiescent_of_isEmpty hclient,
      handlersFinished_of_isEmpty hhub⟩
  have hin : sampleRoom ∈ j'.client.shared.roomSet := by
    simp [Client.roomSet, AList.mem_keys, hjoined]
  have hout : sampleRoom ∉ j'.hub.shared.roomSet 0 := by
    simp [HubState.roomSet, AList.mem_keys, hparted]
  exact ⟨j, j', sampleJoint_started hj, hrun, hsettled, hcurrent, hin, hout,
    fun hagrees => hout (hagrees hsettled hcurrent ▸ hin)⟩

end Rrc
