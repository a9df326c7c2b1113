-- SUMMARY: What a client sends and shows can be traced to its user and to what it has received.
import ReticulumMf.Rrc.ClientSteps

/-!
# The traffic of the client

The HELLO of `Dial`, the PONG for each PING and the requests of the user are sent
by goroutines that run at the same time, while the handlers of inbound packets
change the state and the rooms. Everything sent is one of the three, and requests
only go out after a WELCOME, chat only to a room with a JOINED
(`client_sent_traced`). Nothing is sent more often than there is reason to
(`client_sent_le`), and each envelope is shown once (`client_shown_le`).
-/

namespace Rrc

open Threads Transition

variable {text : GoText} {cfg : ClientConfig} {t : Nat} {x : ClientChoice} {s s' : Client}
  {a b : ClientAct} {r : Effect Client ClientAct} {c c' : ClientConf} {rest : List ClientAct}
  {es : List (Event ClientChoice ClientEvent)}

/-! ## Sending -/

/-- The envelope that `sendType` makes. -/
structure Envelope.Says (sender : Bytes) (msgType : Nat) (room : Bytes) (body : CborValue)
    (env : Envelope) : Prop where
  sender : env.sender = sender
  type : env.type = msgType
  room : env.room = room ∧ (env.hasRoom = true ↔ room ≠ [])
  body : env.body = body ∧ env.hasBody = !isNil body

theorem Client.sendType_sent (s : Client) (x : ClientChoice) (sender : Bytes) (msgType : Nat)
    (room : Bytes) (body : CborValue) (nick : Bytes) :
    (s.sendType x sender msgType room body nick).1 = s ∨
      ∃ env, env.Says sender msgType room body ∧
        (s.sendType x sender msgType room body nick).1 = { s with sent := s.sent ++ [env] } := by
  unfold Client.sendType
  split
  · exact .inl rfl
  · rename_i env hnew
    obtain ⟨-, id, millis, -, rfl⟩ := newEnvelope_some hnew
    dsimp only [Client.sendEnvelope]
    split
    · exact .inl rfl
    · refine .inr ⟨_, ?_, rfl⟩
      have hbody : isNil body = true → CborValue.nil = body := by
        cases body <;> first | exact fun _ => rfl | exact fun h => by cases h
      split <;> split <;> split <;> constructor <;> simp_all

/-- The fields of the envelope that a request sends. -/
def ClientRequest.Sends (text : GoText) (cfg : ClientConfig) (q : ClientRequest) (env : Envelope) :
    Prop :=
  env.Says cfg.sender (q.fields text).1 (q.fields text).2.1 (q.fields text).2.2.1

/-- All that an action sends. -/
theorem clientAct_sent (h : clientAct text cfg x s a = some r) :
    r.shared.sent = s.sent ∨ ∃ env, r.shared.sent = s.sent ++ [env] ∧
      (a = .sendHello ∧ env.Says cfg.sender typeHello [] cfg.helloBody ∨
        (∃ ping, a = .pong ping ∧ env.Says cfg.sender typePong [] ping.body) ∨
        ∃ q, a = .send q ∧ q.Sends text cfg env) := by
  have hother : a ≠ .sendHello → (∀ ping, a ≠ .pong ping) → (∀ q, a ≠ .send q) →
      r.shared.sent = s.sent := by
    intro hhello hpong hsend
    cases a with
    | sendHello => exact absurd rfl hhello
    | pong ping => exact absurd rfl (hpong ping)
    | send q => exact absurd rfl (hsend q)
    | select => obtain ⟨-, rfl⟩ | ⟨i, k, ch, -, rfl⟩ := selectAct_cases h <;> rfl
    | closeCh | offerWelcome env =>
      cases h
      simp only [Client.wake]
      split <;> rfl
    | _ =>
      simp only [clientAct] at h
      first
      | (cases h; rfl)
      | (split at h <;> cases h <;> rfl)
      | (split at h
         · cases h; rfl
         · split at h <;> cases h <;> rfl)
  cases a with
  | sendHello =>
    have hshared : r.shared = (s.sendType x cfg.sender typeHello [] cfg.helloBody s.nick).1 := by
      cases h
      rfl
    obtain heq | ⟨env, hsays, heq⟩ :=
      s.sendType_sent x cfg.sender typeHello [] cfg.helloBody s.nick
    · exact .inl (by rw [hshared, heq])
    · exact .inr ⟨env, by rw [hshared, heq], .inl ⟨rfl, hsays⟩⟩
  | pong ping =>
    have hshared : r.shared = (s.sendType x cfg.sender typePong [] ping.body []).1 := by
      cases h
      rfl
    obtain heq | ⟨env, hsays, heq⟩ := s.sendType_sent x cfg.sender typePong [] ping.body []
    · exact .inl (by rw [hshared, heq])
    · exact .inr ⟨env, by rw [hshared, heq], .inr (.inl ⟨ping, rfl, hsays⟩)⟩
  | send q =>
    have hshared : r.shared.sent = (s.sendType x cfg.sender (q.fields text).1 (q.fields text).2.1
        (q.fields text).2.2.1 (if (q.fields text).2.2.2 then s.nick else [])).1.sent := by
      cases h
      rfl
    obtain heq | ⟨env, hsays, heq⟩ := s.sendType_sent x cfg.sender (q.fields text).1
      (q.fields text).2.1 (q.fields text).2.2.1 (if (q.fields text).2.2.2 then s.nick else [])
    · exact .inl (by rw [hshared, heq])
    · exact .inr ⟨env, by rw [hshared, heq], .inr (.inr ⟨q, rfl, hsays⟩)⟩
  | _ => exact .inl (hother (by simp) (by simp) (by simp))

/-! ## Where it comes from -/

/-- The user makes the request in the run. -/
def RequestedIn (es : List (Event ClientChoice ClientEvent)) (q : ClientRequest) : Prop :=
  .env (.request q) ∈ es

/-- The envelope reaches the client in the run. -/
def ArrivedIn (es : List (Event ClientChoice ClientEvent)) (env : Envelope) : Prop :=
  .env (.packet (some env)) ∈ es

def Welcomed (es : List (Event ClientChoice ClientEvent)) : Prop :=
  ∃ env, ArrivedIn es env ∧ env.type = typeWelcome

def JoinedIn (text : GoText) (es : List (Event ClientChoice ClientEvent)) (room : Bytes) : Prop :=
  ∃ env, ArrivedIn es env ∧ env.type = typeJoined ∧ normalizeRoom text env.room = room

/-- Chat needs a JOINED for its room. -/
def ClientRequest.Admitted (text : GoText) (es : List (Event ClientChoice ClientEvent)) :
    ClientRequest → Prop
  | .content _ room _ => JoinedIn text es (normalizeRoom text room)
  | _ => True

/-- The three reasons for a client to send something. -/
inductive ClientSaid (text : GoText) (cfg : ClientConfig)
    (es : List (Event ClientChoice ClientEvent)) (env : Envelope) : Prop
  | hello (h : env.Says cfg.sender typeHello [] cfg.helloBody)
  | pong {ping : Envelope} (harrived : ArrivedIn es ping) (htype : ping.type = typePing)
      (h : env.Says cfg.sender typePong [] ping.body)
  | request {q : ClientRequest} (hrequested : RequestedIn es q) (hwelcomed : Welcomed es)
      (hadmitted : q.Admitted text es) (h : q.Sends text cfg env)

/-- What an action carries has come from outside. -/
def ClientAct.Sourced (text : GoText) (es : List (Event ClientChoice ClientEvent)) :
    ClientAct → Prop
  | .handleInbound (some env) | .dispatch env | .call (.onEnvelope env) => ArrivedIn es env
  | .offerWelcome env | .setActive env => ArrivedIn es env ∧ env.type = typeWelcome
  | .addRoom env => ArrivedIn es env ∧ env.type = typeJoined
  | .pong env => ArrivedIn es env ∧ env.type = typePing
  | .requireActive q => RequestedIn es q
  | .checkMember q => RequestedIn es q ∧ Welcomed es
  | .send q => RequestedIn es q ∧ Welcomed es ∧ q.Admitted text es
  | _ => True

/-- Everything the client knows, sends and shows has its reason. -/
structure ClientHistory (text : GoText) (cfg : ClientConfig)
    (es : List (Event ClientChoice ClientEvent)) (c : ClientConf) : Prop where
  actions : Each (fun _ _ as => ∀ a ∈ as, a.Sourced text es) c
  channel : ∀ {env}, c.shared.welcomeCh = some env → ArrivedIn es env ∧ env.type = typeWelcome
  woken : ∀ {env}, c.shared.wait = .ended (.welcome env) → ArrivedIn es env ∧ env.type = typeWelcome
  active : c.shared.state = .active → Welcomed es
  rooms : ∀ {room}, room ∈ c.shared.rooms → JoinedIn text es room
  sent : ∀ env ∈ c.shared.sent, ClientSaid text cfg es env
  shown : ∀ env, .onEnvelope env ∈ c.shared.calls → ArrivedIn es env

theorem clientInit_history : ClientHistory text cfg es (clientInit text cfg) := by
  refine ⟨?_, ?_, ?_, ?_, ?_, ?_, ?_⟩
  · intro i t ht a ha
    have hmem : t ∈ [[ClientAct.awaitLink]] := List.mem_of_getElem? ht
    rw [List.mem_singleton.mp hmem] at ha
    rw [List.mem_singleton.mp ha]
    exact trivial
  all_goals simp [clientInit]

/-! ## Steps -/

theorem Client.welcomeCh_of_mem_ready {i : Fin 3} {env : Envelope}
    (h : (i, .welcome env) ∈ s.ready) : s.welcomeCh = some env := by
  simp only [Client.ready, List.mem_append, List.mem_map, Prod.mk.injEq] at h
  obtain (⟨env', henv', -, heq⟩ | h) | h := h
  · cases heq
    exact Option.mem_toList.mp henv'
  · split at h
    · cases List.mem_singleton.mp h
    · cases h
  · split at h
    · cases List.mem_singleton.mp h
    · cases h

/-- What `Dial` does after its `select`. -/
theorem DialCase.eq_of_mem_next {k : DialCase} (hb : b ∈ k.next) :
    (∃ env, k = .welcome env ∧ b = .setActive env) ∨ b = .teardown ∨ ∃ q, b = .dialReturn q := by
  cases k with
  | welcome env => exact .inl ⟨env, rfl, List.mem_singleton.mp hb⟩
  | timeout =>
    simp only [DialCase.next, List.mem_cons, List.not_mem_nil, or_false] at hb
    obtain rfl | rfl := hb
    · exact .inr (.inl rfl)
    · exact .inr (.inr ⟨_, rfl⟩)
  | closed => exact .inr (.inr ⟨_, List.mem_singleton.mp hb⟩)

theorem DialCase.sourced_next {k : DialCase}
    (hk : ∀ {env}, k = .welcome env → ArrivedIn es env ∧ env.type = typeWelcome)
    (hb : b ∈ k.next) : b.Sourced text es := by
  obtain ⟨env, hwelcome, rfl⟩ | rfl | ⟨q, rfl⟩ := DialCase.eq_of_mem_next hb
  · exact hk hwelcome
  · exact trivial
  · exact trivial

/-- An active client goes on with a request: chat has its room checked, the rest is sent. -/
theorem requireActive_next {q : ClientRequest}
    (h : clientAct text cfg x s (.requireActive q) = some r) (hb : b ∈ r.push) :
    s.state = .active ∧ (b = .checkMember q ∨ b = .send q ∧ ∀ es, q.Admitted text es) := by
  simp only [clientAct] at h
  split at h
  · cases h
    cases hb
  · rename_i hrequire
    have hactive : s.state = .active := by
      by_contra hne
      simp [Client.requireActive, hne] at hrequire
    refine ⟨hactive, ?_⟩
    split at h <;> cases h
    · cases hb
    · rename_i hnext
      cases q with
      | join room =>
        simp only [ClientRequest.next] at hnext
        split at hnext <;> cases hnext
        exact .inr ⟨List.mem_singleton.mp hb, fun _ => trivial⟩
      | content _ _ _ =>
        cases hnext
        exact .inl (List.mem_singleton.mp hb)
      | part _ | ping _ =>
        cases hnext
        exact .inr ⟨List.mem_singleton.mp hb, fun _ => trivial⟩

theorem handleInbound_pong {env : Envelope} {data : Plain}
    (h : clientAct text cfg x s (.handleInbound data) = some r) (hb : .pong env ∈ r.push) :
    env.type = typePing := by
  simp only [clientAct] at h
  split at h
  · cases h
    cases hb
  · split at h <;> cases h
    · obtain ⟨rfl⟩ : env = _ := by simpa using hb
      assumption
    · simp at hb

theorem ClientHistory.sourced_of_act (h : ClientHistory text cfg es c)
    (hthread : c.threads[t]? = some (a :: rest)) (hact : clientAct text cfg x c.shared a = some r)
    (hb : b ∈ r.push) : b.Sourced text es := by
  have ha : a.Sourced text es := h.actions t _ hthread a List.mem_cons_self
  cases clientAct_leads hact hb with
  | taken hk hb =>
    exact DialCase.sourced_next (fun hw => h.channel (Client.welcomeCh_of_mem_ready (hw ▸ hk))) hb
  | woken hwait hb => exact DialCase.sourced_next (fun hw => h.woken (hw ▸ hwait)) hb
  | pong => exact ⟨ha, handleInbound_pong hact hb⟩
  | dispatch | onEnvelope => exact ha
  | offerWelcome htype _ | addRoom htype => exact ⟨ha, htype⟩
  | checkMember => exact ⟨ha, h.active (requireActive_next hact hb).1⟩
  | send =>
    obtain ⟨hactive, hcheck | ⟨-, hadmitted⟩⟩ := requireActive_next hact hb
    · cases hcheck
    · exact ⟨ha, h.active hactive, hadmitted es⟩
  | @sendContent q =>
    refine ⟨ha.1, ha.2, ?_⟩
    cases q with
    | content msgType room body =>
      simp only [clientAct] at hact
      split at hact
      · exact h.rooms ‹_›
      · cases hact
        cases hb
    | _ => exact trivial
  | _ => exact trivial

-- What the actions leave in the fields that decide over sending.

theorem clientAct_welcomeCh {env : Envelope} (h : clientAct text cfg x s a = some r)
    (henv : r.shared.welcomeCh = some env) : s.welcomeCh = some env ∨ a = .offerWelcome env := by
  by_cases hselect : a = .select
  · subst hselect
    simp only [clientAct, Client.selectAct] at h
    split at h
    · cases h
      exact .inl henv
    · obtain ⟨k, -, rfl⟩ := Option.map_eq_some_iff.mp h
      simp only at henv
      split at henv
      · cases henv
      · exact .inl henv
  · have hout := clientAct_outcome h
    generalize r.shared = s' at hout henv
    cases hout with
    | other h => exact .inl (h.welcomeCh ▸ henv)
    | park _ | take _ => exact absurd rfl hselect
    | closeCh =>
      simp only [Client.wake] at henv
      split at henv <;> exact .inl henv
    | offerWelcome =>
      simp only [Client.wake] at henv
      split at henv
      · exact .inl henv
      all_goals
        cases hch : s.welcomeCh with
        | none =>
          rw [hch] at henv
          cases henv
          exact .inr rfl
        | some old =>
          rw [hch] at henv
          exact .inl henv
    | _ => exact .inl henv

theorem ClientAct.Outcome.wait_welcome {env : Envelope} (h : a.Outcome text s s')
    (hwait : s'.wait = .ended (.welcome env)) :
    s.wait = .ended (.welcome env) ∨ s.welcomeCh = some env ∨ a = .offerWelcome env := by
  cases h with
  | other h => exact .inl (h.wait ▸ hwait)
  | park _ => cases hwait
  | take hk =>
    cases hwait
    exact .inr (.inl (Client.welcomeCh_of_mem_ready hk))
  | closeCh =>
    simp only [Client.wake] at hwait
    split at hwait
    · cases hwait
    all_goals exact .inl hwait
  | offerWelcome =>
    simp only [Client.wake] at hwait
    split at hwait
    · cases hwait
      exact .inr (.inr rfl)
    all_goals exact .inl hwait
  | _ => exact .inl hwait

theorem ClientAct.Outcome.state_active (h : a.Outcome text s s') (hactive : s'.state = .active) :
    s.state = .active ∨ ∃ env, a = .setActive env := by
  cases h with
  | other h => exact .inl (h.state ▸ hactive)
  | setActive => exact .inr ⟨_, rfl⟩
  | setAwaiting | onLinkClosed _ => cases hactive
  | closeCh | offerWelcome =>
    simp only [Client.wake] at hactive
    split at hactive <;> exact .inl hactive
  | _ => exact .inl hactive

theorem ClientAct.Outcome.mem_rooms {room : Bytes} (h : a.Outcome text s s') (hroom : room ∈ s'.rooms) :
    room ∈ s.rooms ∨ ∃ env, a = .addRoom env ∧ normalizeRoom text env.room = room := by
  cases h with
  | other h => exact .inl (h.rooms ▸ hroom)
  | onLinkClosed _ => cases hroom
  | closeCh | offerWelcome =>
    simp only [Client.wake] at hroom
    split at hroom <;> exact .inl hroom
  | addRoom =>
    obtain rfl | hroom := (AList.mem_insert _).mp hroom
    · exact .inr ⟨_, rfl, rfl⟩
    · exact .inl hroom
  | removeRoom => exact .inl (AList.mem_erase.mp hroom).2
  | _ => exact .inl hroom

theorem ClientAct.Outcome.mem_calls {k : ClientCall} (h : a.Outcome text s s') (hk : k ∈ s'.calls) :
    k ∈ s.calls ∨ a = .call k := by
  by_cases hcall : ∃ k', a = .call k'
  · obtain ⟨k', rfl⟩ := hcall
    cases h with
    | other h => exact .inl (h.calls ▸ hk)
    | call =>
      obtain hk | hk := List.mem_append.mp hk
      · exact .inl hk
      · exact .inr (by rw [List.mem_singleton.mp hk])
  · exact .inl (h.calls_eq (fun k' heq => hcall ⟨k', heq⟩) ▸ hk)

theorem ClientHistory.run (h : ClientHistory text cfg es c)
    (hthread : c.threads[t]? = some (a :: rest)) (hact : clientAct text cfg x c.shared a = some r) :
    ClientHistory text cfg es ⟨r.shared, c.threads.set t (r.push ++ rest) ++ r.spawn⟩ := by
  have hout := clientAct_outcome hact
  have ha : a.Sourced text es := h.actions t _ hthread a List.mem_cons_self
  refine ⟨?_, ?_, ?_, ?_, ?_, ?_, ?_⟩
  · refine Each.forall_run h.actions hthread (fun _ hb => hb) fun b hb => ?_
    obtain hb | ⟨l, hl, -⟩ := hb
    · exact h.sourced_of_act hthread hact hb
    · rw [clientAct_spawn hact] at hl
      cases hl
  · intro env henv
    obtain henv | rfl := clientAct_welcomeCh hact henv
    · exact h.channel henv
    · exact ha
  · intro env hwait
    obtain hwait | hch | rfl := hout.wait_welcome hwait
    · exact h.woken hwait
    · exact h.channel hch
    · exact ha
  · intro hactive
    obtain hactive | ⟨env, rfl⟩ := hout.state_active hactive
    · exact h.active hactive
    · exact ⟨env, ha⟩
  · intro room hroom
    obtain hroom | ⟨env, rfl, heq⟩ := hout.mem_rooms hroom
    · exact h.rooms hroom
    · exact ⟨env, ha.1, ha.2, heq⟩
  · intro env henv
    obtain heq | ⟨new, heq, hnew⟩ := clientAct_sent hact
    · exact h.sent env (heq ▸ henv)
    · simp only [heq, List.mem_append, List.mem_singleton] at henv
      obtain henv | rfl := henv
      · exact h.sent env henv
      · obtain ⟨-, hsays⟩ | ⟨ping, rfl, hsays⟩ | ⟨q, rfl, hsends⟩ := hnew
        · exact .hello hsays
        · exact .pong ha.1 ha.2 hsays
        · exact .request ha.1 ha.2.1 ha.2.2 hsends
  · intro env hcall
    obtain hcall | rfl := hout.mem_calls hcall
    · exact h.shown env hcall
    · exact ha

theorem clientEnv_sent {e : ClientEvent} (h : clientEnv text s e = some r) :
    r.shared.sent = s.sent := by
  cases e with
  | timerFires =>
    simp only [clientEnv, Client.wake] at h
    split at h
    · split at h <;> cases h <;> rfl
    · cases h
  | linkClosed | request q | setNick nick | close => cases h; rfl
  | established | packet data | linkStale =>
    simp only [clientEnv] at h
    split at h <;> cases h
    rfl

/-- An event from outside leaves alone what the history is about. -/
theorem clientEnv_same {e : ClientEvent} (h : clientEnv text s e = some r) :
    r.shared.state = s.state ∧ r.shared.rooms = s.rooms ∧ r.shared.welcomeCh = s.welcomeCh ∧
      r.shared.calls = s.calls ∧
      (r.shared.wait = s.wait ∨ r.shared.wait = .ended .timeout) := by
  obtain ⟨hsame, -⟩ | ⟨-, -, -, heq⟩ := clientEnv_cases h
  · exact ⟨hsame.state, hsame.rooms, hsame.welcomeCh, hsame.calls, .inl hsame.wait⟩
  · rw [heq]
    simp only [Client.wake]
    split
    · exact ⟨rfl, rfl, rfl, rfl, .inr rfl⟩
    all_goals exact ⟨rfl, rfl, rfl, rfl, .inl rfl⟩

theorem ClientHistory.event (h : ClientHistory text cfg es c) {e : ClientEvent} (he : .env e ∈ es)
    (henv : clientEnv text c.shared e = some r) :
    ClientHistory text cfg es ⟨r.shared, c.threads ++ r.spawn⟩ := by
  obtain ⟨hstate, hrooms, hch, hcalls, hwait⟩ := clientEnv_same henv
  refine ⟨?_, ?_, ?_, ?_, ?_, ?_, ?_⟩
  · refine Each.forall_env h.actions (fun _ hb => hb) fun l hl b hb => ?_
    cases e with
    | packet data =>
      simp only [clientEnv] at henv
      split at henv <;> cases henv
      rw [List.mem_singleton.mp hl] at hb
      rw [List.mem_singleton.mp hb]
      cases data with
      | none => exact trivial
      | some env => exact he
    | request q =>
      cases henv
      rw [List.mem_singleton.mp hl] at hb
      rw [List.mem_singleton.mp hb]
      exact he
    | linkClosed | close =>
      cases henv
      rw [List.mem_singleton.mp hl] at hb
      simp only [List.mem_cons, List.not_mem_nil, or_false] at hb
      obtain rfl | rfl := hb <;> exact trivial
    | setNick nick =>
      cases henv
      cases hl
    | established | linkStale | timerFires =>
      simp only [clientEnv] at henv
      split at henv <;> cases henv
      cases hl
  · intro env henv
    exact h.channel (hch ▸ henv)
  · intro env hwelcome
    obtain heq | heq := hwait
    · exact h.woken (heq ▸ hwelcome)
    · cases heq.symm.trans hwelcome
  · intro hactive
    exact h.active (hstate ▸ hactive)
  · intro room hroom
    exact h.rooms (hrooms ▸ hroom)
  · intro env hsent
    exact h.sent env (clientEnv_sent henv ▸ hsent)
  · intro env hcall
    exact h.shown env (hcalls ▸ hcall)

theorem clientHistory_of_run (hrun : run (clientStep text cfg) (clientInit text cfg) es = some c) :
    ClientHistory text cfg es c := by
  have hstep : ∀ {c e c'}, ClientHistory text cfg es c → e ∈ es →
      clientStep text cfg c e = some c' → ClientHistory text cfg es c' := by
    intro c e c' h he hstep
    cases Program.steps_of_step hstep with
    | run hthread hact => exact h.run hthread hact
    | env henv => exact h.event he henv
  exact run_within hstep clientInit_history hrun

/-- What a client has sent is its HELLO, an answer to a PING, or what its user asked for;
the last only after a WELCOME, and chat only in a room it was let into. -/
theorem client_sent_traced {env : Envelope}
    (hrun : run (clientStep text cfg) (clientInit text cfg) es = some c)
    (hsent : env ∈ c.shared.sent) : ClientSaid text cfg es env :=
  (clientHistory_of_run hrun).sent env hsent

/-- The user joins a room and says something there. -/
def sampleTalk : List (Event ClientChoice ClientEvent) :=
  sampleDial ++ clientTurns 0 4 ++ [.env (.request (.join sampleRoom))] ++ clientTurns 2 2 ++
  [.env (.packet (some sampleJoined))] ++ clientTurns 3 4 ++
  [.env (.request (.content typeMsg sampleRoom [104, 105]))] ++ clientTurns 4 3

theorem sample_client_sent_traced :
    ∃ c env, run (clientStep .ascii sampleClient) (clientInit .ascii sampleClient) sampleTalk = some c ∧
      env ∈ c.shared.sent ∧ env.type = typeMsg ∧ ClientSaid .ascii sampleClient sampleTalk env := by
  have hend : (run (clientStep .ascii sampleClient) (clientInit .ascii sampleClient) sampleTalk).map
      (fun c => c.shared.sent.any (·.type = typeMsg)) = some true := by
    decide +kernel
  obtain ⟨c, hrun, heq⟩ := Option.map_eq_some_iff.mp hend
  obtain ⟨env, hsent, htype⟩ := List.any_eq_true.mp heq
  exact ⟨c, env, hrun, hsent, of_decide_eq_true htype, client_sent_traced hrun hsent⟩

/-! ## How often -/

/-- A kind of envelope, by type, room and body. -/
abbrev Kind := Nat → Bytes → CborValue → Bool

def Envelope.isOf (κ : Kind) (env : Envelope) : Bool := κ env.type env.room env.body

/-- The request sends an envelope of the kind. -/
def ClientRequest.asks (text : GoText) (κ : Kind) (q : ClientRequest) : Bool :=
  κ (q.fields text).1 (q.fields text).2.1 (q.fields text).2.2.1

/-- The action may yet send something of the kind. -/
def ClientAct.maySend (text : GoText) (cfg : ClientConfig) (κ : Kind) : ClientAct → Bool
  | .awaitLink | .identify | .sendHello => κ typeHello [] cfg.helloBody
  | .handleInbound (some env) => env.type = typePing && κ typePong [] env.body
  | .pong env => κ typePong [] env.body
  | .requireActive q | .checkMember q | .send q => q.asks text κ
  | _ => false

/-- The event gives reason to send something of the kind. -/
def givesReason (text : GoText) (κ : Kind) : ClientEvent → Bool
  | .packet (some env) => env.type = typePing && κ typePong [] env.body
  | .request q => q.asks text κ
  | _ => false

section Account

variable {κ : Kind}

theorem Envelope.Says.isOf {sender room : Bytes} {msgType : Nat} {body : CborValue} {env : Envelope}
    (h : env.Says sender msgType room body) : env.isOf κ = κ msgType room body := by
  rw [Envelope.isOf, h.type, h.room.1, h.body.1]

theorem requireActive_countP {q : ClientRequest}
    (h : clientAct text cfg x s (.requireActive q) = some r) :
    r.push.countP (ClientAct.maySend text cfg κ) ≤
      [ClientAct.requireActive q].countP (ClientAct.maySend text cfg κ) := by
  simp only [clientAct] at h
  split at h
  · cases h
    exact Nat.zero_le _
  · split at h <;> cases h
    · exact Nat.zero_le _
    · rename_i hnext
      cases q with
      | join room =>
        simp only [ClientRequest.next] at hnext
        split at hnext <;> cases hnext
        exact Nat.le_refl _
      | part _ | ping _ | content _ _ _ =>
        cases hnext
        exact Nat.le_refl _

/-- An action starts nothing of the kind but what it is itself. -/
theorem maySend_push (h : clientAct text cfg x s a = some r) :
    r.push.countP (ClientAct.maySend text cfg κ) ≤ [a].countP (ClientAct.maySend text cfg κ) := by
  cases a with
  | awaitLink =>
    simp only [clientAct] at h
    split at h
    · cases h
      exact Nat.le_refl _
    · split at h <;> cases h
      · exact Nat.zero_le _
      · exact Nat.le_refl _
  | identify =>
    simp only [clientAct] at h
    split at h <;> cases h
    · exact Nat.zero_le _
    · exact Nat.le_refl _
  | handleInbound data =>
    simp only [clientAct] at h
    split at h
    · cases h
      exact Nat.zero_le _
    · split at h <;> cases h
      · rename_i env htype
        have hsame : ClientAct.maySend text cfg κ (.handleInbound (some env)) =
            ClientAct.maySend text cfg κ (.pong env) := by
          simp [ClientAct.maySend, htype]
        rw [List.countP_singleton, hsame, ← List.countP_singleton]
        exact Nat.le_refl _
      · exact Nat.zero_le _
  | requireActive q => exact requireActive_countP h
  | checkMember q =>
    simp only [clientAct] at h
    split at h <;> cases h
    · exact Nat.le_refl _
    · exact Nat.zero_le _
  | select =>
    refine Nat.le_trans (Nat.le_of_eq (countP_eq_zero fun b hb => ?_)) (Nat.zero_le _)
    cases clientAct_leads h hb with
    | taken _ hb => obtain ⟨env, -, rfl⟩ | rfl | ⟨q, rfl⟩ := DialCase.eq_of_mem_next hb <;> rfl
    | _ => rfl
  | resume =>
    refine Nat.le_trans (Nat.le_of_eq (countP_eq_zero fun b hb => ?_)) (Nat.zero_le _)
    cases clientAct_leads h hb with
    | woken _ hb => obtain ⟨env, -, rfl⟩ | rfl | ⟨q, rfl⟩ := DialCase.eq_of_mem_next hb <;> rfl
    | _ => rfl
  | _ =>
    refine Nat.le_trans (Nat.le_of_eq (countP_eq_zero fun b hb => ?_)) (Nat.zero_le _)
    cases clientAct_leads h hb <;> rfl

theorem maySend_act (h : clientAct text cfg x s a = some r) :
    r.shared.sent.countP (Envelope.isOf κ) + r.push.countP (ClientAct.maySend text cfg κ) ≤
      s.sent.countP (Envelope.isOf κ) + [a].countP (ClientAct.maySend text cfg κ) := by
  obtain heq | ⟨env, heq, hnew⟩ := clientAct_sent h
  · rw [heq]
    exact Nat.add_le_add_left (maySend_push h) _
  · -- what is sent was still to come, and nothing is started instead
    have hpush : r.push.countP (ClientAct.maySend text cfg κ) = 0 := by
      refine countP_eq_zero fun b hb => ?_
      obtain ⟨rfl, -⟩ | ⟨ping, rfl, -⟩ | ⟨q, rfl, -⟩ := hnew <;> cases clientAct_leads h hb <;> rfl
    have hkind : env.isOf κ = a.maySend text cfg κ := by
      obtain ⟨rfl, hsays⟩ | ⟨ping, rfl, hsays⟩ | ⟨q, rfl, hsends⟩ := hnew
      · exact hsays.isOf
      · exact hsays.isOf
      · exact Envelope.Says.isOf hsends
    rw [heq, hpush, List.countP_append, List.countP_singleton, hkind, ← List.countP_singleton]
    exact Nat.le_refl _

theorem maySend_env {e : ClientEvent} (h : clientEnv text s e = some r) :
    r.shared.sent.countP (Envelope.isOf κ) +
        (r.spawn.map (List.countP (ClientAct.maySend text cfg κ))).sum ≤
      s.sent.countP (Envelope.isOf κ) + [e].countP (givesReason text κ) := by
  rw [clientEnv_sent h]
  refine Nat.add_le_add_left ?_ _
  cases e with
  | packet data =>
    simp only [clientEnv] at h
    split at h <;> cases h
    cases data with
    | none => exact Nat.zero_le _
    | some env => exact Nat.le_refl _
  | request q =>
    cases h
    exact Nat.le_refl _
  | linkClosed | close | setNick nick =>
    cases h
    exact Nat.zero_le _
  | established | linkStale | timerFires =>
    simp only [clientEnv] at h
    split at h <;> cases h
    exact Nat.zero_le _

theorem maySend_stock_le (κ : Kind)
    (hrun : run (clientStep text cfg) (clientInit text cfg) es = some c) :
    stock (fun s : Client => s.sent.countP (Envelope.isOf κ)) (ClientAct.maySend text cfg κ) c ≤
      (if κ typeHello [] cfg.helloBody then 1 else 0) + es.countP (Event.brings (givesReason text κ)) := by
  have hle := stock_le_of_run (fun _ => True) (fun s => s.sent.countP (Envelope.isOf κ))
    (ClientAct.maySend text cfg κ) (givesReason text κ) (fun _ _ _ => trivial)
    (fun {c t x a rest r} _ _ (hact : clientAct text cfg x c.shared a = some r) => by
      rw [clientAct_spawn hact]
      exact maySend_act hact)
    (fun _ henv => maySend_env henv) trivial hrun
  have hinit : stock (fun s : Client => s.sent.countP (Envelope.isOf κ))
      (ClientAct.maySend text cfg κ) (clientInit text cfg) =
        [ClientAct.awaitLink].countP (ClientAct.maySend text cfg κ) := by
    simp [stock, clientInit, pending]
  rwa [hinit, List.countP_singleton] at hle

/-- A client sends no more of a kind than one HELLO, a PONG for each PING, and what it is
asked for. -/
theorem client_sent_le (κ : Kind)
    (hrun : run (clientStep text cfg) (clientInit text cfg) es = some c) :
    c.shared.sent.countP (Envelope.isOf κ) ≤
      (if κ typeHello [] cfg.helloBody then 1 else 0) + es.countP (Event.brings (givesReason text κ)) :=
  (Nat.le_add_right _ _).trans (maySend_stock_le κ hrun)

/-- A HELLO, a JOIN and a message. -/
theorem sample_client_sent_three :
    ∃ c, run (clientStep .ascii sampleClient) (clientInit .ascii sampleClient) sampleTalk = some c ∧
      c.shared.sent.countP (Envelope.isOf fun _ _ _ => true) = 3 ∧
      c.shared.sent.countP (Envelope.isOf fun _ _ _ => true) ≤
        1 + sampleTalk.countP (Event.brings (givesReason .ascii fun _ _ _ => true)) := by
  have hend : (run (clientStep .ascii sampleClient) (clientInit .ascii sampleClient) sampleTalk).map
      (fun c => c.shared.sent.countP (Envelope.isOf fun _ _ _ => true)) = some 3 := by
    decide +kernel
  obtain ⟨c, hrun, heq⟩ := Option.map_eq_some_iff.mp hend
  exact ⟨c, hrun, heq, client_sent_le (fun _ _ _ => true) hrun⟩

end Account

/-! ## What is shown -/

section Shown

variable {κ : Envelope → Bool}

/-- An envelope of interest is handed to the user. -/
def ClientCall.shows (κ : Envelope → Bool) : ClientCall → Bool
  | .onEnvelope env => κ env
  | _ => false

def ClientAct.mayShow (κ : Envelope → Bool) : ClientAct → Bool
  | .handleInbound (some env) | .dispatch env => κ env
  | .call k => k.shows κ
  | _ => false

def bringsEnvelope (κ : Envelope → Bool) : ClientEvent → Bool
  | .packet (some env) => κ env
  | _ => false

theorem clientDispatch_mayShow {state : ClientState} {env : Envelope} :
    (clientDispatch state env).countP (ClientAct.mayShow κ) ≤
      [ClientAct.dispatch env].countP (ClientAct.mayShow κ) := by
  unfold clientDispatch
  split
  · split <;> exact Nat.zero_le _
  · split
    · exact Nat.zero_le _
    · split
      · exact Nat.zero_le _
      · split
        · exact Nat.le_refl _
        · exact Nat.zero_le _

theorem mayShow_push (h : clientAct text cfg x s a = some r) (ha : ∀ k, a ≠ .call k) :
    r.push.countP (ClientAct.mayShow κ) ≤ [a].countP (ClientAct.mayShow κ) := by
  cases a with
  | handleInbound data =>
    simp only [clientAct] at h
    split at h
    · cases h
      exact Nat.zero_le _
    · split at h <;> cases h <;> exact Nat.le_refl _
  | dispatch env =>
    cases h
    exact clientDispatch_mayShow
  | select =>
    refine Nat.le_trans (Nat.le_of_eq (countP_eq_zero fun b hb => ?_)) (Nat.zero_le _)
    cases clientAct_leads h hb with
    | taken _ hb => obtain ⟨env, -, rfl⟩ | rfl | ⟨q, rfl⟩ := DialCase.eq_of_mem_next hb <;> rfl
    | _ => rfl
  | resume =>
    refine Nat.le_trans (Nat.le_of_eq (countP_eq_zero fun b hb => ?_)) (Nat.zero_le _)
    cases clientAct_leads h hb with
    | woken _ hb => obtain ⟨env, -, rfl⟩ | rfl | ⟨q, rfl⟩ := DialCase.eq_of_mem_next hb <;> rfl
    | _ => rfl
  | call k => exact absurd rfl (ha k)
  | _ =>
    refine Nat.le_trans (Nat.le_of_eq (countP_eq_zero fun b hb => ?_)) (Nat.zero_le _)
    cases clientAct_leads h hb <;> rfl

theorem mayShow_act (h : clientAct text cfg x s a = some r) :
    r.shared.calls.countP (ClientCall.shows κ) + r.push.countP (ClientAct.mayShow κ) ≤
      s.calls.countP (ClientCall.shows κ) + [a].countP (ClientAct.mayShow κ) := by
  by_cases hcall : ∃ k, a = .call k
  · obtain ⟨k, rfl⟩ := hcall
    cases h
    rw [List.countP_append]
    exact Nat.le_refl _
  · have ha : ∀ k, a ≠ .call k := fun k heq => hcall ⟨k, heq⟩
    rw [(clientAct_outcome h).calls_eq ha]
    exact Nat.add_le_add_left (mayShow_push h ha) _

theorem mayShow_env {e : ClientEvent} (h : clientEnv text s e = some r) :
    r.shared.calls.countP (ClientCall.shows κ) +
        (r.spawn.map (List.countP (ClientAct.mayShow κ))).sum ≤
      s.calls.countP (ClientCall.shows κ) + [e].countP (bringsEnvelope κ) := by
  rw [(clientEnv_same h).2.2.2.1]
  refine Nat.add_le_add_left ?_ _
  cases e with
  | packet data =>
    simp only [clientEnv] at h
    split at h <;> cases h
    cases data with
    | none => exact Nat.zero_le _
    | some env => exact Nat.le_refl _
  | linkClosed | close | setNick nick | request q =>
    cases h
    exact Nat.zero_le _
  | established | linkStale | timerFires =>
    simp only [clientEnv] at h
    split at h <;> cases h
    exact Nat.zero_le _

/-- No envelope is shown to the user more often than it has arrived. -/
theorem client_shown_le (κ : Envelope → Bool)
    (hrun : run (clientStep text cfg) (clientInit text cfg) es = some c) :
    c.shared.calls.countP (ClientCall.shows κ) ≤ es.countP (Event.brings (bringsEnvelope κ)) := by
  have hle := stock_le_of_run (fun _ => True) (fun s => s.calls.countP (ClientCall.shows κ))
    (ClientAct.mayShow κ) (bringsEnvelope κ) (fun _ _ _ => trivial)
    (fun {c t x a rest r} _ _ (hact : clientAct text cfg x c.shared a = some r) => by
      rw [clientAct_spawn hact]
      exact mayShow_act hact)
    (fun _ henv => mayShow_env henv) trivial hrun
  have hinit : stock (fun s : Client => s.calls.countP (ClientCall.shows κ)) (ClientAct.mayShow κ)
      (clientInit text cfg) = 0 := rfl
  rw [hinit, Nat.zero_add] at hle
  exact (Nat.le_add_right _ _).trans hle

end Shown

end Rrc
