-- SUMMARY: Where the chat traffic of the hub comes from, and who gets to see it.
import ReticulumMf.Rrc.Membership
import ReticulumMf.Rrc.Relay

/-!
# The history of a relayed message

The handlers of different packets run at the same time, sessions displace each
other, and `onRoomContent` sends long after it has read the members. Whatever the
order, a chat envelope on the wire can be traced back: to the packet that brought
it, to the identity proved on the link it came in on, and to the JOINs of the
sender and of the receiver (`chat_traced`).
-/

namespace Rrc

open Threads Transition

variable {text : GoText} {cfg : HubConfig} {t : Nat} {x : HubChoice} {s s' : HubState}
  {a b : HubAct} {r : Effect HubState HubAct} {i j : Nat} {env fwd : Envelope} {room key : Bytes}
  {c c' : HubConf} {rest : List HubAct} {es : List (Event HubChoice HubEvent)}

/-! ## What has come in -/

/-- MSG, NOTICE and ACTION: what the hub relays. -/
def Envelope.isChat (env : Envelope) : Bool :=
  env.type = typeMsg ∨ env.type = typeNotice ∨ env.type = typeAction

/-- The envelope comes in on link `i` in the run. -/
def ReceivedIn (es : List (Event HubChoice HubEvent)) (i : Nat) (env : Envelope) : Prop :=
  .env (.packet i (some env)) ∈ es

/-- The remote of link `i` says HELLO. -/
def Greeted (es : List (Event HubChoice HubEvent)) (i : Nat) : Prop :=
  ∃ env, ReceivedIn es i env ∧ env.type = typeHello

/-- The remote of link `i` asks for the room. -/
def AskedFor (text : GoText) (es : List (Event HubChoice HubEvent)) (i : Nat) (room : Bytes) :
    Prop :=
  ∃ env, ReceivedIn es i env ∧ env.type = typeJoin ∧ normalizeRoom text env.room = room

/-- Someone who has proved the identity asks for the room. -/
def IdentityAskedFor (text : GoText) (es : List (Event HubChoice HubEvent)) (key room : Bytes) :
    Prop :=
  ∃ i, ProvedIn es i key ∧ AskedFor text es i room

/-- How a chat envelope gets to session `j`. It is what some other session of the room
sent, signed with the identity proved there; and the one who gets it has an identity of its
own, which has asked for the room too. -/
structure Traced (text : GoText) (cfg : HubConfig) (es : List (Event HubChoice HubEvent)) (j : Nat)
    (fwd : Envelope) : Prop where
  origin : ∃ i env, i ≠ j ∧ ReceivedIn es i env ∧ env.isChat = true ∧ Greeted es i ∧
    ProvedIn es i fwd.sender ∧ AskedFor text es i (normalizeRoom text env.room) ∧
    BodyWithin cfg.limits env ∧
    Stamped fwd.sender fwd.nick (normalizeRoom text env.room) env fwd
  audience : ∃ key, key ≠ fwd.sender ∧ ProvedIn es j key ∧ Greeted es j ∧
    IdentityAskedFor text es key fwd.room

/-! ## The invariant -/

/-- What an action carries has come in. -/
def HubAct.Sourced (text : GoText) (cfg : HubConfig) (es : List (Event HubChoice HubEvent)) :
    HubAct → Prop
  | .deliver i (some env) | .queuePlain i (some env) | .handleInbound i (some env) | .onMsg i env
  | .readRemote i env | .recheck i env | .handlePeer i env => ReceivedIn es i env
  | .bufferHello i env | .onHello i env => ReceivedIn es i env ∧ env.type = typeHello
  | .applyInboundNick i env active => ReceivedIn es i env ∧ (active = true → Greeted es i)
  | .onJoin i env => ReceivedIn es i env ∧ env.type = typeJoin
  | .onRoomContent i env => ReceivedIn es i env ∧ env.isChat = true ∧ Greeted es i
  | .relay i env room =>
    (ReceivedIn es i env ∧ env.isChat = true ∧ Greeted es i) ∧ room = normalizeRoom text env.room
  | .forward j fwd => Traced text cfg es j fwd
  | _ => True

/-- Everything the hub knows and does can be traced to what has come in. -/
structure HistoryKept (text : GoText) (cfg : HubConfig) (es : List (Event HubChoice HubEvent))
    (c : HubConf) : Prop where
  actions : Each (fun _ _ as => ∀ a ∈ as, a.Sourced text cfg es) c
  queued : ∀ {i env}, (c.shared.peer i).pendingPlainData = some (some env) → ReceivedIn es i env
  waiting : ∀ {i env}, (c.shared.peer i).pendingHello = some env →
    ReceivedIn es i env ∧ env.type = typeHello
  active : ∀ {i}, (c.shared.peer i).active = true → Greeted es i
  rooms : ∀ {i room}, room ∈ (c.shared.peer i).rooms → AskedFor text es i room
  members : ∀ {key room}, key ∈ c.shared.members room → IdentityAskedFor text es key room
  sent : ∀ m ∈ c.shared.sent, m.2.isChat = true → Traced text cfg es m.1 m.2

theorem hubInit_historyKept : HistoryKept text cfg es hubInit := by
  constructor <;> simp [hubInit, Each, HubState.members]

/-! ## Steps -/

/-- `onJoin` runs for JOINs only. -/
theorem type_of_onJoin_mem_dispatch (i : Nat) (env : Envelope)
    (h : .onJoin i env ∈ dispatch i env true) : env.type = typeJoin := by
  unfold dispatch at h
  split at h
  · contradiction
  · split at h
    · cases h
    · split at h
      · assumption
      · split at h
        · simp at h
        · split at h <;> simp at h

theorem hubAct_onJoin_type (h : hubAct text cfg x s (.applyInboundNick i env true) = some r)
    (hb : .onJoin i env ∈ r.push) : env.type = typeJoin := by
  refine type_of_onJoin_mem_dispatch i env ?_
  simp only [hubAct] at h
  split at h
  · cases h
    exact hb
  · split at h
    · cases h
      exact (List.mem_append.mp hb).resolve_left (by simp [sendError])
    · split at h <;> cases h
      exact hb

/-- What `onRoomContent` forwards, and to whom. -/
theorem relay_forward (h : relayAct cfg x s i env room = some r) (hb : .forward j fwd ∈ r.push) :
    BodyWithin cfg.limits env ∧ room ∈ (s.peer i).rooms ∧ s.Receives i room j ∧
      Stamped (s.peer i).peerHash (s.peer i).nick room env fwd := by
  simp only [relayAct] at h
  split at h
  · cases h
    simp [sendError] at hb
  · rename_i hbody
    split at h
    · cases h
      simp [sendError] at hb
    · rename_i hmember
      split at h
      · cases h
      · rename_i hblocked
        push Not at hblocked
        split at h <;> cases h
        · cases hb
        · rename_i new hnew
          have hj : j ∈ x.order ∧ forwarded (s.peer i) room env new = fwd := by simpa using hb
          obtain ⟨hj, rfl⟩ := hj
          exact ⟨bodyError_eq_none_iff.mp hbody, not_not.mp hmember,
            mem_recipients.mp (hblocked.2.mem_iff.mp hj), forwarded_stamped hnew⟩

/-- The facts about the hub on which its history rests. -/
structure Identities (es : List (Event HubChoice HubEvent)) (c : HubConf) : Prop where
  registration : Registration c
  handlers : HandlersIdentified c
  authentic : Authentic (ProvedIn es) c

/-- A relayed message is traced by what the hub finds in its critical section. -/
theorem HistoryKept.traced (h : HistoryKept text cfg es c) (hid : Identities es c)
    (hsourced : (HubAct.relay i env room).Sourced text cfg es) (hhashed : c.shared.Hashed i)
    (hact : relayAct cfg x c.shared i env room = some r) (hb : .forward j fwd ∈ r.push) :
    Traced text cfg es j fwd := by
  obtain ⟨⟨hreceived, hchat, hgreeted⟩, rfl⟩ := hsourced
  obtain ⟨hbody, hroom, ⟨key, hmember, hne, hlookup, hactive⟩, hstamped⟩ := relay_forward hact hb
  have hkey : (c.shared.peer j).peerHash = key := hid.registration.keys hlookup
  have hij : i ≠ j := by
    rintro rfl
    exact hne hkey.symm
  have hj : c.shared.Hashed j := hid.registration.listed ⟨key, hlookup⟩
  refine ⟨⟨i, env, hij, hreceived, hchat, hgreeted, ?_, h.rooms hroom, hbody, ?_⟩,
    ⟨key, ?_, ?_, h.active hactive, ?_⟩⟩
  · rw [hstamped.sender]
    exact hid.authentic.peer hhashed
  · rw [hstamped.sender, hstamped.nick.1]
    exact hstamped
  · rw [hstamped.sender]
    exact hne
  · exact hkey ▸ hid.authentic.peer hj
  · rw [hstamped.room.1]
    exact h.members hmember

theorem HistoryKept.sourced_of_act (h : HistoryKept text cfg es c) (hid : Identities es c)
    (hthread : c.threads[t]? = some (a :: rest)) (hact : hubAct text cfg x c.shared a = some r)
    (hb : b ∈ r.push ∨ ∃ l ∈ r.spawn, b ∈ l) : b.Sourced text cfg es := by
  have ha : a.Sourced text cfg es := h.actions t _ hthread a List.mem_cons_self
  have hpush : (∀ i data, a ≠ .deliver i data) → b ∈ r.push := fun hne => by
    obtain hb | ⟨l, hl, -⟩ := hb
    · exact hb
    · obtain hspawn | ⟨i, data, ha, -⟩ := hubAct_spawn hact
      · rw [hspawn] at hl
        cases hl
      · exact absurd ha (hne i data)
  cases hubAct_starts hact hb with
  | @takePending i data hdata =>
    cases data with
    | none => exact trivial
    | some env => exact h.queued hdata
  | @deliver i data _ | @queuePlain i data =>
    cases data with
    | none => exact trivial
    | some env => exact ha
  | onMsg | readRemote _ | handle _ | readRecheck | recheck _ => exact ha
  | bufferHello _ htype => exact ⟨ha, htype⟩
  | waiting hwaiting => exact (h.waiting hwaiting).1
  | handlePeer => exact ⟨ha, h.active⟩
  | onHello htype => exact ⟨ha.1, htype⟩
  | onJoin => exact ⟨ha.1, hubAct_onJoin_type hact (hpush (by simp))⟩
  | onRoomContent htype => exact ⟨ha.1, decide_eq_true htype, ha.2 rfl⟩
  | relay =>
    have hmem := hpush (by simp)
    obtain ⟨-, -, heq⟩ | ⟨-, msg, heq⟩ := onRoomContent_push hact
    · rw [heq] at hmem
      cases List.mem_singleton.mp hmem
      exact ⟨ha, rfl⟩
    · rw [heq] at hmem
      simp at hmem
  | forward _ _ =>
    exact h.traced hid ha (hid.handlers t _ hthread _ List.mem_cons_self _ rfl) hact (hpush (by simp))
  | _ => exact trivial

-- Only a JOIN brings anyone into a room.

theorem HubAct.Outcome.mem_rooms (h : a.Outcome text cfg x s s') (hroom : room ∈ (s'.peer j).rooms) :
    room ∈ (s.peer j).rooms ∨ ∃ env, a = .onJoin j env ∧ normalizeRoom text env.room = room := by
  obtain hsame | hcommit := h.membership
  · exact .inl (hsame.peerRooms j ▸ hroom)
  · cases hcommit with
    | registerLocked => exact .inl (registerLocked_rooms ▸ hroom)
    | dropPeerIf h =>
      obtain ⟨-, rfl⟩ := dropPeerIf_some h
      exact .inl hroom
    | onJoin h =>
      obtain ⟨-, rfl⟩ | ⟨-, -, rfl⟩ := joinLocked_some h
      · exact .inl hroom
      · obtain hroom | ⟨rfl, rfl⟩ := mem_rooms_enterRoom.mp hroom
        · exact .inl hroom
        · exact .inr ⟨_, rfl, rfl⟩
    | onPart h =>
      obtain ⟨-, rfl⟩ := partLocked_some h
      exact .inl (mem_rooms_leaveRoom.mp hroom).1
    | hubClose => exact .inl hroom

theorem HubAct.Outcome.mem_members (h : a.Outcome text cfg x s s') (hkey : key ∈ s'.members room) :
    key ∈ s.members room ∨
      ∃ i env, a = .onJoin i env ∧ normalizeRoom text env.room = room ∧ (s.peer i).peerHash = key := by
  obtain hsame | hcommit := h.membership
  · exact .inl (by rwa [HubState.members, hsame.rooms] at hkey)
  · cases hcommit with
    | @registerLocked i =>
      refine .inl ?_
      simp only [HubState.registerLocked, HubState.members] at hkey
      split at hkey
      · exact (mem_removeFromRooms.mp hkey).1
      · exact hkey
    | dropPeerIf h =>
      obtain ⟨-, rfl⟩ := dropPeerIf_some h
      exact .inl (mem_removeFromRooms.mp hkey).1
    | onJoin h =>
      obtain ⟨-, rfl⟩ | ⟨-, -, rfl⟩ := joinLocked_some h
      · exact .inl hkey
      · obtain hkey | ⟨rfl, rfl⟩ := mem_members_enterRoom.mp hkey
        · exact .inl hkey
        · exact .inr ⟨_, _, rfl, rfl, rfl⟩
    | onPart h =>
      obtain ⟨-, rfl⟩ := partLocked_some h
      exact .inl (mem_members_leaveRoom.mp hkey).1
    | hubClose => simp [HubState.members] at hkey

theorem Reply.not_chat {m : Reply} (h : env.type = m.type) : env.isChat = false := by
  cases m <;> simp [Envelope.isChat, h, Reply.type, typeMsg, typeNotice, typeAction, typeError,
    typeWelcome, typeJoined, typeParted, typePong]

/-- Chat is put on the wire by forwarding only. -/
theorem HubAct.Outcome.mem_sent {m : Nat × Envelope} (h : a.Outcome text cfg x s s')
    (hm : m ∈ s'.sent) (hchat : m.2.isChat = true) : m ∈ s.sent ∨ a = .forward m.1 m.2 := by
  cases h with
  | same | call | update _ _ => exact .inl hm
  | commit h => exact .inl (h.outputs.2.1 ▸ hm)
  | @reply i k =>
    obtain heq | ⟨env, htype, heq⟩ := reply_cases cfg s x i k
    · rw [heq] at hm
      exact .inl hm
    · rw [heq] at hm
      obtain hm | hm := List.mem_append.mp hm
      · exact .inl hm
      · cases List.mem_singleton.mp hm
        rw [Reply.not_chat htype] at hchat
        cases hchat
  | @forward i env =>
    obtain heq | ⟨heq, -⟩ := sendEnvelope_cases s x i env
    · rw [heq] at hm
      exact .inl hm
    · rw [heq] at hm
      obtain hm | hm := List.mem_append.mp hm
      · exact .inl hm
      · cases List.mem_singleton.mp hm
        exact .inr rfl

theorem HistoryKept.run (h : HistoryKept text cfg es c) (hid : Identities es c)
    (hthread : c.threads[t]? = some (a :: rest)) (hact : hubAct text cfg x c.shared a = some r) :
    HistoryKept text cfg es (afterRun c t rest r) := by
  have hout := hubAct_outcome hact
  have hafter := hout.peersAfter
  have ha : a.Sourced text cfg es := h.actions t _ hthread a List.mem_cons_self
  refine ⟨?_, ?_, ?_, ?_, ?_, ?_, ?_⟩
  · exact Each.forall_run h.actions hthread (fun _ hb => hb)
      fun b hb => h.sourced_of_act hid hthread hact hb
  · intro i env hdata
    obtain hdata | rfl := hafter.pendingPlainData i hdata
    · exact h.queued hdata
    · exact ha
  · intro i env hhello
    obtain heq | ⟨env', rfl, heq⟩ | ⟨-, heq⟩ := hafter.pendingHello i
    · exact h.waiting (heq ▸ hhello)
    · cases heq.symm.trans hhello
      exact ha
    · cases heq.symm.trans hhello
  · intro i hactive
    obtain heq | ⟨⟨env, rfl⟩, -⟩ := hafter.active i
    · exact h.active (heq ▸ hactive)
    · exact ⟨env, ha⟩
  · intro i room hroom
    obtain hroom | ⟨env, rfl, heq⟩ := hout.mem_rooms hroom
    · exact h.rooms hroom
    · exact ⟨env, ha.1, ha.2, heq⟩
  · intro key room hkey
    obtain hkey | ⟨i, env, rfl, heq, rfl⟩ := hout.mem_members hkey
    · exact h.members hkey
    · have hhashed : c.shared.Hashed i := hid.handlers t _ hthread _ List.mem_cons_self i rfl
      exact ⟨i, hid.authentic.peer hhashed, env, ha.1, ha.2, heq⟩
  · intro m hm hchat
    obtain hm | rfl := hout.mem_sent hm hchat
    · exact h.sent m hm hchat
    · exact ha

theorem HistoryKept.event (h : HistoryKept text cfg es c) {e : HubEvent} (he : .env e ∈ es)
    (henv : hubEnv c.shared e = some r) :
    HistoryKept text cfg es ⟨r.shared, c.threads ++ r.spawn⟩ := by
  have hpeer := hubEnv_at henv
  have hsame := hubEnv_membership henv
  refine ⟨?_, ?_, ?_, ?_, ?_, ?_, ?_⟩
  · refine Each.forall_env h.actions (fun _ hb => hb) fun l hl b hb => ?_
    cases hubEnv_starts henv hl hb with
    | established hmem => exact mem_acceptLink_cases hmem trivial trivial trivial trivial trivial
    | @packet i data _ =>
      cases data with
      | none => exact trivial
      | some env => exact he
    | identify _ _ | close => exact trivial
  · intro i env hdata
    obtain ⟨status, heq⟩ := hpeer i
    rw [heq] at hdata
    exact h.queued hdata
  · intro i env hhello
    obtain ⟨status, heq⟩ := hpeer i
    rw [heq] at hhello
    exact h.waiting hhello
  · intro i hactive
    obtain ⟨status, heq⟩ := hpeer i
    rw [heq] at hactive
    exact h.active hactive
  · intro i room hroom
    exact h.rooms (hsame.peerRooms i ▸ hroom)
  · intro key room hkey
    exact h.members (by rwa [HubState.members, hsame.rooms] at hkey)
  · intro m hm
    exact h.sent m ((hubEnv_outputs henv).1 ▸ hm)

/-! ## Runs -/

theorem Identities.step {e : Event HubChoice HubEvent} (h : Identities es c) (he : e ∈ es)
    (hstep : hubStep text cfg c e = some c') : Identities es c' := by
  refine ⟨h.registration.step hstep, ?_, ?_⟩
  · cases Program.steps_of_step hstep with
    | run hthread hact => exact h.handlers.run h.registration hthread hact
    | env henv => exact h.handlers.env henv
  · cases Program.steps_of_step hstep with
    | run hthread hact => exact h.authentic.run hthread hact
    | env henv =>
      exact h.authentic.env (fun i hash heq hlength => ⟨hlength, heq ▸ he⟩) henv

theorem hubInit_identities : Identities es hubInit := by
  refine ⟨hubInit_registration, ?_, ?_⟩
  · simp [HandlersIdentified, hubInit, Each]
  · constructor <;> simp [hubInit, Each, HubState.Hashed]

theorem HistoryKept.step {e : Event HubChoice HubEvent} (h : HistoryKept text cfg es c)
    (hid : Identities es c) (he : e ∈ es) (hstep : hubStep text cfg c e = some c') :
    HistoryKept text cfg es c' := by
  cases Program.steps_of_step hstep with
  | run hthread hact => exact h.run hid hthread hact
  | env henv => exact h.event he henv

theorem traced_step {e : Event HubChoice HubEvent} (h : Identities es c ∧ HistoryKept text cfg es c)
    (he : e ∈ es) (hstep : hubStep text cfg c e = some c') :
    Identities es c' ∧ HistoryKept text cfg es c' :=
  ⟨h.1.step he hstep, h.2.step h.1 he hstep⟩

theorem historyKept_of_run (hrun : run (hubStep text cfg) hubInit es = some c) :
    HistoryKept text cfg es c :=
  (run_within traced_step ⟨hubInit_identities, hubInit_historyKept⟩ hrun).2

/-- Every chat envelope the hub has put on the wire can be traced. -/
theorem chat_traced (hrun : run (hubStep text cfg) hubInit es = some c)
    (hsent : (j, fwd) ∈ c.shared.sent) (hchat : fwd.isChat = true) : Traced text cfg es j fwd :=
  (historyKept_of_run hrun).sent (j, fwd) hsent hchat

def otherIdentity : Bytes := List.replicate 16 2

/-- Two links, with different identities, are in a room. -/
def bothInRoom : List (Event HubChoice HubEvent) :=
  sampleActive ++ [.env (.packet 0 (some sampleJoin))] ++ turns 4 1 ++ turns 5 7 ++
  [.env .established] ++ turns 6 5 ++ [.env (.identify 1 otherIdentity)] ++ turns 7 7 ++
  [.env (.packet 1 (some sampleHello))] ++ turns 8 1 ++ turns 9 7 ++
  [.env (.packet 1 (some sampleJoin))] ++ turns 10 1 ++ turns 11 7

/-- And the first sends a message. -/
def chatInRoom : List (Event HubChoice HubEvent) :=
  bothInRoom ++ [.env (.packet 0 (some sampleMsg))] ++ turns 12 1 ++ turns 13 5 ++
  [.run 13 { fresh := some (List.replicate 8 1, 0), order := [1] }] ++ turns 13 2

theorem sample_chat_traced :
    ∃ c fwd, run (hubStep .ascii sampleHub) hubInit chatInRoom = some c ∧
      (1, fwd) ∈ c.shared.sent ∧ fwd.isChat = true ∧ Traced .ascii sampleHub chatInRoom 1 fwd := by
  have hend : (run (hubStep .ascii sampleHub) hubInit chatInRoom).map (fun c =>
      c.shared.sent.any fun m => m.1 = 1 && m.2.isChat) = some true := by
    decide +kernel
  obtain ⟨c, hrun, heq⟩ := Option.map_eq_some_iff.mp hend
  obtain ⟨⟨j, fwd⟩, hsent, hm⟩ := List.any_eq_true.mp heq
  simp only [Bool.and_eq_true, decide_eq_true_eq] at hm
  obtain ⟨rfl, hchat⟩ := hm
  exact ⟨c, fwd, hrun, hsent, hchat, chat_traced hrun hsent hchat⟩

end Rrc
