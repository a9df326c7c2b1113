-- SUMMARY: What one step of the client can write, and what it leads to next.
import ReticulumMf.Rrc.Client

/-!
# Steps of the client

The state machine of the client, its room set and the `select` of `Dial` are
written by few actions. `Outcome` lists them; all others leave that core alone.
`Leads` is the control flow of the goroutines.
-/

namespace Rrc

open Threads

/-- The connection state, the rooms, the channels and `Dial`'s wait and result are unchanged. -/
structure Client.SameCore (s s' : Client) : Prop where
  state : s'.state = s.state
  rooms : s'.rooms = s.rooms
  welcomeCh : s'.welcomeCh = s.welcomeCh
  closedCh : s'.closedCh = s.closedCh
  timer : s'.timer = s.timer
  wait : s'.wait = s.wait
  result : s'.result = s.result
  calls : s'.calls = s.calls

/-- All that an action can do to the core. -/
inductive ClientAct.Outcome (text : GoText) (s : Client) : ClientAct → Client → Prop
  | other {a : ClientAct} {s' : Client} (h : s.SameCore s') : Outcome text s a s'
  | setAwaiting : Outcome text s .setAwaiting { s with state := .awaitingWelcome }
  | startTimer : Outcome text s .startTimer { s with timer := .running }
  | park (h : s.ready = []) : Outcome text s .select { s with wait := .parked }
  | take {i : Fin 3} {k : DialCase} {ch : Option Envelope} (h : (i, k) ∈ s.ready) :
      Outcome text s .select { s with wait := .ended k, welcomeCh := ch }
  | setActive {env : Envelope} {body : WelcomeBody} :
      Outcome text s (.setActive env) { s with welcome := some body, state := .active }
  | dialReturn {r : DialResult} : Outcome text s (.dialReturn r) { s with result := some r }
  | closeCh : Outcome text s .closeCh { s.wake .closed s with closedCh := true }
  | onLinkClosed (h : s.state ≠ .disconnected) :
      Outcome text s .onLinkClosed { s with state := .disconnected, rooms := ∅ }
  | offerWelcome {env : Envelope} :
      Outcome text s (.offerWelcome env)
        (s.wake (.welcome env) { s with welcomeCh := s.welcomeCh.or (some env) })
  | addRoom {env : Envelope} :
      Outcome text s (.addRoom env)
        { s with rooms := s.rooms.insert (normalizeRoom text env.room) () }
  | removeRoom {env : Envelope} :
      Outcome text s (.removeRoom env)
        { s with rooms := s.rooms.erase (normalizeRoom text env.room) }
  | call {k : ClientCall} : Outcome text s (.call k) { s with calls := s.calls ++ [k] }

/-- What an action can lead to next. -/
inductive ClientAct.Leads (s : Client) : ClientAct → ClientAct → Prop
  | awaitLink : Leads s .awaitLink .awaitLink
  | identify : Leads s .awaitLink .identify
  | sendHello : Leads s .identify .sendHello
  | setAwaiting : Leads s .sendHello .setAwaiting
  | startTimer : Leads s .setAwaiting .startTimer
  | select : Leads s .startTimer .select
  | resume (h : s.ready = []) : Leads s .select .resume
  | giveUp {a : ClientAct} : Leads s a .teardown
  | dialFails {a : ClientAct} {r : DialResult} (h : r ≠ .welcomeTimeout) : Leads s a (.dialReturn r)
  | taken {i : Fin 3} {k : DialCase} {b : ClientAct} (h : (i, k) ∈ s.ready) (hb : b ∈ k.next) :
      Leads s .select b
  | woken {k : DialCase} {b : ClientAct} (h : s.wait = .ended k) (hb : b ∈ k.next) :
      Leads s .resume b
  | callOnWelcome {env : Envelope} {body : WelcomeBody} :
      Leads s (.setActive env) (.call (.onWelcome body env))
  | closeCh : Leads s .teardown .closeCh
  | onLinkClosed {a : ClientAct} : Leads s a .onLinkClosed
  | callOnClose (h : s.state ≠ .disconnected) : Leads s .onLinkClosed (.call .onClose)
  | pong {env : Envelope} : Leads s (.handleInbound (some env)) (.pong env)
  | dispatch {env : Envelope} : Leads s (.handleInbound (some env)) (.dispatch env)
  | offerWelcome {env : Envelope} (htype : env.type = typeWelcome)
      (h : s.state = .awaitingWelcome) : Leads s (.dispatch env) (.offerWelcome env)
  | addRoom {env : Envelope} (htype : env.type = typeJoined) :
      Leads s (.dispatch env) (.addRoom env)
  | removeRoom {env : Envelope} (htype : env.type = typeParted) :
      Leads s (.dispatch env) (.removeRoom env)
  | onEnvelope {env : Envelope} : Leads s (.dispatch env) (.call (.onEnvelope env))
  | callOnJoined {env : Envelope} {room : Bytes} {members : List Bytes} :
      Leads s (.addRoom env) (.call (.onJoined room members env))
  | callOnParted {env : Envelope} {room : Bytes} :
      Leads s (.removeRoom env) (.call (.onParted room env))
  | checkMember {r : ClientRequest} : Leads s (.requireActive r) (.checkMember r)
  | send {r : ClientRequest} : Leads s (.requireActive r) (.send r)
  | sendContent {r : ClientRequest} : Leads s (.checkMember r) (.send r)

variable {text : GoText} {cfg : ClientConfig} {x : ClientChoice} {s s' : Client} {a b : ClientAct}
  {r : Effect Client ClientAct}

/-! ## Sending -/

theorem Client.SameCore.refl : s.SameCore s := ⟨rfl, rfl, rfl, rfl, rfl, rfl, rfl, rfl⟩

theorem Client.sendType_cases (s : Client) (x : ClientChoice) (sender : Bytes) (msgType : Nat)
    (room : Bytes) (body : CborValue) (nick : Bytes) :
    (s.sendType x sender msgType room body nick).1 = s ∨
      ∃ env, (s.sendType x sender msgType room body nick).1 = { s with sent := s.sent ++ [env] } := by
  unfold Client.sendType
  split
  · exact .inl rfl
  · dsimp only [Client.sendEnvelope]
    split
    · exact .inl rfl
    · exact .inr ⟨_, rfl⟩

theorem Client.sameCore_sendType {sender : Bytes} {msgType : Nat} {room : Bytes} {body : CborValue}
    {nick : Bytes} : s.SameCore (s.sendType x sender msgType room body nick).1 := by
  obtain heq | ⟨env, heq⟩ := s.sendType_cases x sender msgType room body nick
  · rw [heq]
    exact .refl
  · rw [heq]
    exact ⟨rfl, rfl, rfl, rfl, rfl, rfl, rfl, rfl⟩

theorem Client.SameCore.requestReturns {q : ClientRequest} {err : Option ClientError}
    (h : s.SameCore s') : s.SameCore (s'.requestReturns q err) :=
  ⟨h.state, h.rooms, h.welcomeCh, h.closedCh, h.timer, h.wait, h.result, h.calls⟩

/-! ## Actions -/

theorem mem_of_lookup {α β : Type} [DecidableEq α] {l : List (α × β)} {k : α} {v : β}
    (h : l.lookup k = some v) : (k, v) ∈ l := by
  obtain ⟨l₁, l₂, rfl, -⟩ := List.lookup_eq_some_iff.mp h
  simp

theorem selectAct_cases (h : s.selectAct x = some r) :
    s.ready = [] ∧ r = { shared := { s with wait := .parked }, push := [.resume] } ∨
      ∃ i k ch, (i, k) ∈ s.ready ∧
        r = { shared := { s with wait := .ended k, welcomeCh := ch }, push := k.next } := by
  unfold Client.selectAct at h
  split at h
  · rename_i hready
    cases h
    exact .inl ⟨hready, rfl⟩
  · obtain ⟨k, hk, rfl⟩ := Option.map_eq_some_iff.mp h
    exact .inr ⟨x.pick, k, _, mem_of_lookup hk, rfl⟩

theorem clientAct_outcome (h : clientAct text cfg x s a = some r) : a.Outcome text s r.shared := by
  cases a with
  | setAwaiting => cases h; exact .setAwaiting
  | startTimer => cases h; exact .startTimer
  | setActive env => cases h; exact .setActive
  | dialReturn q => cases h; exact .dialReturn
  | closeCh => cases h; exact .closeCh
  | offerWelcome env => cases h; exact .offerWelcome
  | addRoom env => cases h; exact .addRoom
  | removeRoom env => cases h; exact .removeRoom
  | call k => cases h; exact .call
  | dispatch env => cases h; exact .other .refl
  | sendHello | pong env => cases h; exact .other Client.sameCore_sendType
  | send q => cases h; exact .other Client.sameCore_sendType.requestReturns
  | select =>
    obtain ⟨hready, rfl⟩ | ⟨i, k, ch, hk, rfl⟩ := selectAct_cases h
    · exact .park hready
    · exact .take hk
  | onLinkClosed =>
    simp only [clientAct] at h
    split at h <;> cases h
    · exact .other .refl
    · exact .onLinkClosed ‹_›
  | resume | handleInbound data =>
    simp only [clientAct] at h
    split at h
    · cases h; exact .other .refl
    all_goals first | cases h | (split at h <;> cases h <;> exact .other .refl)
  | awaitLink =>
    simp only [clientAct] at h
    split at h
    · cases h; exact .other .refl
    · split at h <;> cases h <;> exact .other .refl
  | identify =>
    simp only [clientAct] at h
    split at h <;> cases h <;> exact .other .refl
  | teardown | sessionClose =>
    simp only [clientAct] at h
    split at h <;> cases h
    · exact .other ⟨rfl, rfl, rfl, rfl, rfl, rfl, rfl, rfl⟩
    · exact .other ⟨rfl, rfl, rfl, rfl, rfl, rfl, rfl, rfl⟩
  | checkMember q =>
    simp only [clientAct] at h
    split at h <;> cases h
    · exact .other .refl
    · exact .other Client.SameCore.refl.requestReturns
  | requireActive q =>
    simp only [clientAct] at h
    split at h
    · cases h; exact .other Client.SameCore.refl.requestReturns
    · split at h <;> cases h
      · exact .other Client.SameCore.refl.requestReturns
      · exact .other .refl

theorem ClientAct.Outcome.calls_eq (h : a.Outcome text s s') (hcall : ∀ k, a ≠ .call k) :
    s'.calls = s.calls := by
  cases h with
  | other h => exact h.calls
  | call => exact absurd rfl (hcall _)
  | closeCh | offerWelcome =>
    simp only [Client.wake]
    split <;> rfl
  | _ => rfl

theorem Client.timer_of_ready {i : Fin 3} (h : (i, .timeout) ∈ s.ready) : s.timer = .fired := by
  simp only [Client.ready, List.mem_append, List.mem_map, Prod.mk.injEq] at h
  obtain (⟨env, -, -, henv⟩ | h) | h := h
  · cases henv
  · split at h
    · assumption
    · cases h
  · split at h
    · cases List.mem_singleton.mp h
    · cases h

theorem Client.welcomeCh_of_ready (h : s.ready = []) : s.welcomeCh = none := by
  cases hch : s.welcomeCh with
  | none => rfl
  | some env => simp [Client.ready, hch] at h

/-- The wait of `Dial` changes where it gets to its `select`, and when it is parked. -/
theorem ClientAct.Outcome.wait (h : a.Outcome text s s') (hselect : a ≠ .select) :
    s'.wait = s.wait ∨ s.wait = .parked ∧ ∃ k, k ≠ .timeout ∧ s'.wait = .ended k := by
  cases h with
  | other h => exact .inl h.wait
  | park _ | take _ => exact absurd rfl hselect
  | closeCh =>
    simp only [Client.wake]
    split
    · exact .inr ⟨‹_›, .closed, nofun, rfl⟩
    all_goals exact .inl rfl
  | offerWelcome =>
    simp only [Client.wake]
    split
    · exact .inr ⟨‹_›, .welcome _, nofun, rfl⟩
    all_goals exact .inl rfl
  | _ => exact .inl rfl

theorem ClientAct.Outcome.timer (h : a.Outcome text s s') :
    s'.timer = s.timer ∨ a = .startTimer ∧ s'.timer = .running := by
  cases h with
  | other h => exact .inl h.timer
  | startTimer => exact .inr ⟨rfl, rfl⟩
  | closeCh | offerWelcome =>
    simp only [Client.wake]
    split <;> exact .inl rfl
  | _ => exact .inl rfl

theorem ClientAct.Outcome.result (h : a.Outcome text s s') :
    s'.result = s.result ∨ ∃ q, a = .dialReturn q ∧ s'.result = some q := by
  cases h with
  | other h => exact .inl h.result
  | dialReturn => exact .inr ⟨_, rfl, rfl⟩
  | closeCh | offerWelcome =>
    simp only [Client.wake]
    split <;> exact .inl rfl
  | _ => exact .inl rfl

theorem ClientAct.Outcome.welcomeCh (h : a.Outcome text s s') (hselect : a ≠ .select) :
    s'.welcomeCh = s.welcomeCh ∨ s.wait ≠ .parked ∧ s'.welcomeCh ≠ none := by
  cases h with
  | other h => exact .inl h.welcomeCh
  | park _ | take _ => exact absurd rfl hselect
  | closeCh =>
    simp only [Client.wake]
    split <;> exact .inl rfl
  | offerWelcome =>
    simp only [Client.wake]
    split
    · exact .inl rfl
    all_goals
      rename_i hwait
      exact .inr ⟨by simp [hwait], by simp⟩
  | _ => exact .inl rfl

theorem clientDispatch_leads {env : Envelope} (hb : b ∈ clientDispatch s.state env) :
    (ClientAct.dispatch env).Leads s b := by
  unfold clientDispatch at hb
  split at hb
  · split at hb
    · obtain rfl := List.mem_singleton.mp hb
      exact .offerWelcome ‹_› ‹_›
    · cases hb
  · split at hb
    · obtain rfl := List.mem_singleton.mp hb
      exact .addRoom ‹_›
    · split at hb
      · obtain rfl := List.mem_singleton.mp hb
        exact .removeRoom ‹_›
      · split at hb
        · obtain rfl := List.mem_singleton.mp hb
          exact .onEnvelope
        · cases hb

/-- The client's actions start no goroutines. -/
theorem clientAct_spawn (h : clientAct text cfg x s a = some r) : r.spawn = [] := by
  cases a with
  | select => obtain ⟨-, rfl⟩ | ⟨i, k, ch, -, rfl⟩ := selectAct_cases h <;> rfl
  | _ =>
    simp only [clientAct] at h
    first
    | (cases h; rfl)
    | (split at h <;> cases h <;> rfl)
    | (split at h
       · cases h; rfl
       · split at h <;> cases h <;> rfl)

theorem clientAct_leads (h : clientAct text cfg x s a = some r) (hb : b ∈ r.push) :
    a.Leads s b := by
  cases a with
  | dialReturn _ | closeCh | offerWelcome _ | pong _ | call _ | send _ => cases h; cases hb
  | setAwaiting =>
    cases h
    obtain rfl := List.mem_singleton.mp hb
    exact .startTimer
  | startTimer =>
    cases h
    obtain rfl := List.mem_singleton.mp hb
    exact .select
  | setActive env =>
    cases h
    obtain rfl | hb := List.mem_cons.mp hb
    · exact .callOnWelcome
    · obtain rfl := List.mem_singleton.mp hb
      exact .dialFails (by decide)
  | addRoom env =>
    cases h
    obtain rfl := List.mem_singleton.mp hb
    exact .callOnJoined
  | removeRoom env =>
    cases h
    obtain rfl := List.mem_singleton.mp hb
    exact .callOnParted
  | dispatch env =>
    cases h
    exact clientDispatch_leads hb
  | sendHello =>
    have hpush : r.push = if (s.sendType x cfg.sender typeHello [] cfg.helloBody s.nick).2 then
        [.setAwaiting] else [.teardown, .dialReturn .helloFailed] := by
      cases h
      rfl
    rw [hpush] at hb
    split at hb
    · obtain rfl := List.mem_singleton.mp hb
      exact .setAwaiting
    · obtain rfl | hb := List.mem_cons.mp hb
      · exact .giveUp
      · obtain rfl := List.mem_singleton.mp hb
        exact .dialFails (by decide)
  | select =>
    obtain ⟨hready, rfl⟩ | ⟨i, k, ch, hk, rfl⟩ := selectAct_cases h
    · obtain rfl := List.mem_singleton.mp hb
      exact .resume hready
    · exact .taken hk hb
  | resume =>
    simp only [clientAct] at h
    split at h <;> cases h
    exact .woken ‹_› hb
  | onLinkClosed =>
    simp only [clientAct] at h
    split at h <;> cases h
    · cases hb
    · obtain rfl := List.mem_singleton.mp hb
      exact .callOnClose ‹_›
  | handleInbound data =>
    simp only [clientAct] at h
    split at h
    · cases h; cases hb
    · split at h <;> cases h
      · obtain rfl | hb := List.mem_cons.mp hb
        · exact .pong
        · obtain rfl := List.mem_singleton.mp hb
          exact .dispatch
      · obtain rfl := List.mem_singleton.mp hb
        exact .dispatch
  | awaitLink =>
    simp only [clientAct] at h
    split at h
    · cases h
      obtain rfl := List.mem_singleton.mp hb
      exact .identify
    · split at h <;> cases h
      · obtain rfl | hb := List.mem_cons.mp hb
        · exact .giveUp
        · obtain rfl := List.mem_singleton.mp hb
          exact .dialFails (by decide)
      · obtain rfl := List.mem_singleton.mp hb
        exact .awaitLink
  | identify =>
    simp only [clientAct] at h
    split at h <;> cases h
    · obtain rfl | hb := List.mem_cons.mp hb
      · exact .giveUp
      · obtain rfl := List.mem_singleton.mp hb
        exact .dialFails (by decide)
    · obtain rfl := List.mem_singleton.mp hb
      exact .sendHello
  | teardown =>
    simp only [clientAct] at h
    split at h <;> cases h
    · obtain rfl | hb := List.mem_cons.mp hb
      · exact .closeCh
      · obtain rfl := List.mem_singleton.mp hb
        exact .onLinkClosed
    · cases hb
  | sessionClose =>
    simp only [clientAct] at h
    split at h <;> cases h
    · cases hb
    · obtain rfl | hb := List.mem_cons.mp hb
      · exact .giveUp
      · obtain rfl := List.mem_singleton.mp hb
        exact .onLinkClosed
  | checkMember q =>
    simp only [clientAct] at h
    split at h <;> cases h
    · obtain rfl := List.mem_singleton.mp hb
      exact .sendContent
    · cases hb
  | requireActive q =>
    simp only [clientAct] at h
    split at h
    · cases h; cases hb
    · split at h <;> cases h
      · cases hb
      · rename_i hnext
        cases q with
        | join room =>
          simp only [ClientRequest.next] at hnext
          split at hnext <;> cases hnext
          obtain rfl := List.mem_singleton.mp hb
          exact .send
        | content _ _ _ =>
          cases hnext
          obtain rfl := List.mem_singleton.mp hb
          exact .checkMember
        | part _ | ping _ =>
          cases hnext
          obtain rfl := List.mem_singleton.mp hb
          exact .send

theorem clientAct_starts (h : clientAct text cfg x s a = some r)
    (hb : b ∈ r.push ∨ ∃ l ∈ r.spawn, b ∈ l) : a.Leads s b := by
  obtain hb | ⟨l, hl, -⟩ := hb
  · exact clientAct_leads h hb
  · rw [clientAct_spawn h] at hl
    cases hl

/-! ## Events -/

/-- An event from outside leaves the core alone, except that the timer may fire. -/
theorem clientEnv_cases {e : ClientEvent} (h : clientEnv text s e = some r) :
    s.SameCore r.shared ∧ e ≠ .timerFires ∨
      e = .timerFires ∧ s.timer = .running ∧ r.spawn = [] ∧
        r.shared = { s.wake .timeout s with timer := .fired } := by
  cases e with
  | timerFires =>
    simp only [clientEnv] at h
    split at h <;> cases h
    exact .inr ⟨rfl, ‹_›, rfl, rfl⟩
  | linkClosed | request q | setNick nick | close =>
    cases h
    exact .inl ⟨⟨rfl, rfl, rfl, rfl, rfl, rfl, rfl, rfl⟩, nofun⟩
  | established | packet data | linkStale =>
    simp only [clientEnv] at h
    split at h <;> cases h
    exact .inl ⟨⟨rfl, rfl, rfl, rfl, rfl, rfl, rfl, rfl⟩, nofun⟩

/-- The goroutines an event can start. -/
theorem clientEnv_spawn {e : ClientEvent} {l : List ClientAct} (h : clientEnv text s e = some r)
    (hl : l ∈ r.spawn) :
    (∃ data, l = [.handleInbound data]) ∨ l = [.closeCh, .onLinkClosed] ∨
      (∃ q, l = [.requireActive q]) ∨ l = [.sessionClose, .onLinkClosed] := by
  cases e with
  | packet data =>
    simp only [clientEnv] at h
    split at h <;> cases h
    exact .inl ⟨data, List.mem_singleton.mp hl⟩
  | linkClosed => cases h; exact .inr (.inl (List.mem_singleton.mp hl))
  | request q => cases h; exact .inr (.inr (.inl ⟨q, List.mem_singleton.mp hl⟩))
  | close => cases h; exact .inr (.inr (.inr (List.mem_singleton.mp hl)))
  | setNick nick => cases h; cases hl
  | established | linkStale | timerFires =>
    simp only [clientEnv] at h
    split at h <;> cases h
    cases hl

end Rrc
