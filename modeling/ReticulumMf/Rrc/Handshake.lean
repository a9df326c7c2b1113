-- SUMMARY: What client and hub agree on once Dial has returned.
import ReticulumMf.Rrc.Network

/-!
# The handshake

`Dial` proves the identity, says HELLO and waits for the WELCOME; on the other side
the link is accepted, the identity registered and the HELLO handled, by goroutines
that may overtake each other. If `Dial` returns a client, the hub has made the session
of its link active, that session carries the identity hash of the client, and both know
the same name, version and limits (`dial_agrees`). The session may have been displaced
or closed since.
-/

namespace Rrc

open Threads Transition

/-! ## The WELCOME body -/

/-- What the client learns about the hub. -/
def HubConfig.welcome (cfg : HubConfig) : WelcomeBody :=
  { hubName := some cfg.name, hubVersion := some cfg.version, limits := some cfg.limits }

theorem parseWelcomeBody_reply (cfg : HubConfig) (env : Envelope) :
    parseWelcomeBody ((Reply.welcome env).body cfg) = some cfg.welcome := rfl

/-! ## The hub's side -/

section Hub

variable {text : GoText} {cfg : HubConfig} {t : Nat} {x : HubChoice} {a : HubAct}
  {r : Effect HubState HubAct} {c c' : HubConf} {rest : List HubAct}
  {es : List (Event HubChoice HubEvent)}

/-- A session is active when it is welcomed, and its peer registered. -/
structure Welcomes (cfg : HubConfig) (c : HubConf) : Prop where
  actions : Each (fun s _ as => ∀ a ∈ as, ∀ i env, a = .reply i (.welcome env) →
    (s.peer i).active = true) c
  sent : ∀ m ∈ c.shared.sent, m.2.type = typeWelcome → (c.shared.peer m.1).active = true ∧
    parseWelcomeBody m.2.received.body = some cfg.welcome
  active : ∀ {i}, (c.shared.peer i).active = true → c.shared.Hashed i

theorem hubInit_welcomes : Welcomes cfg hubInit := by
  constructor <;> simp [hubInit, Each]

theorem Welcomes.actions_run (h : Welcomes cfg c) (hthread : c.threads[t]? = some (a :: rest))
    (hact : hubAct text cfg x c.shared a = some r) :
    Each (fun s _ as => ∀ a ∈ as, ∀ i env, a = .reply i (.welcome env) →
      (s.peer i).active = true) (afterRun c t rest r) := by
  have hafter := (hubAct_outcome hact).peersAfter
  refine Each.forall_run h.actions hthread (fun b hb i env heq => active_mono hafter (hb i env heq)) ?_
  rintro b hb i env rfl
  cases hubAct_starts hact hb with
  | welcome =>
    cases hact
    simp

theorem Welcomes.sent_run (h : Welcomes cfg c) (hkept : HistoryKept text cfg es c)
    (hthread : c.threads[t]? = some (a :: rest)) (hact : hubAct text cfg x c.shared a = some r)
    {m : Nat × Envelope} (hm : m ∈ r.shared.sent) (htype : m.2.type = typeWelcome) :
    (r.shared.peer m.1).active = true ∧ parseWelcomeBody m.2.received.body = some cfg.welcome := by
  have hout := hubAct_outcome hact
  have hold : m ∈ c.shared.sent → (r.shared.peer m.1).active = true ∧
      parseWelcomeBody m.2.received.body = some cfg.welcome := fun hm =>
    (h.sent m hm htype).imp_left (active_mono hout.peersAfter)
  generalize r.shared = s' at hout hm hold ⊢
  cases hout with
  | same | call | update _ _ => exact hold hm
  | commit hcommit => exact hold (hcommit.outputs.2.1 ▸ hm)
  | @reply i k =>
    obtain heq | ⟨env, henv, hbody, hhas, heq⟩ := reply_sent cfg c.shared x i k
    · rw [heq] at hm
      exact hold (by simpa using hm)
    · rw [heq] at hm hold ⊢
      obtain hm | hm := List.mem_append.mp hm
      · exact hold hm
      · obtain rfl : m = (i, env) := List.mem_singleton.mp hm
        obtain ⟨hello, rfl⟩ := Reply.eq_of_type (henv ▸ htype)
        refine ⟨h.actions t _ hthread _ List.mem_cons_self i hello rfl, ?_⟩
        have hreceived : env.received.body = (Reply.welcome hello).body cfg := by
          rw [Envelope.received, hhas, hbody]
          rfl
        rw [hreceived, parseWelcomeBody_reply]
  | @forward i fwd =>
    have htraced : Traced text cfg es i fwd := hkept.actions t _ hthread _ List.mem_cons_self
    obtain ⟨-, env, -, -, hchat, -, -, -, -, hstamped⟩ := htraced.origin
    obtain heq | ⟨heq, -⟩ := sendEnvelope_cases c.shared x i fwd
    · rw [heq] at hm
      exact hold (by simpa using hm)
    · rw [heq] at hm hold ⊢
      obtain hm | hm := List.mem_append.mp hm
      · exact hold hm
      · obtain rfl : m = (i, fwd) := List.mem_singleton.mp hm
        have hwelcome : env.type = typeWelcome := hstamped.type.symm.trans htype
        simp [Envelope.isChat, hwelcome, typeWelcome, typeMsg, typeNotice, typeAction] at hchat

theorem Welcomes.run (h : Welcomes cfg c) (hid : Identities es c) (hkept : HistoryKept text cfg es c)
    (hthread : c.threads[t]? = some (a :: rest)) (hact : hubAct text cfg x c.shared a = some r) :
    Welcomes cfg (afterRun c t rest r) := by
  refine ⟨h.actions_run hthread hact, fun m hm => h.sent_run hkept hthread hact hm, ?_⟩
  intro i hactive
  have hmono := hid.registration.hashed_mono hthread hact i
  obtain heq | ⟨⟨env, rfl⟩, -⟩ := (hubAct_outcome hact).peersAfter.active i
  · exact hmono (h.active (heq ▸ hactive))
  · exact hmono (hid.handlers t _ hthread _ List.mem_cons_self i rfl)

theorem Welcomes.event (h : Welcomes cfg c) {e : HubEvent} (henv : hubEnv c.shared e = some r) :
    Welcomes cfg ⟨r.shared, c.threads ++ r.spawn⟩ := by
  have hpeer : ∀ i, (r.shared.peer i).active = (c.shared.peer i).active := fun i => by
    obtain ⟨status, heq⟩ := hubEnv_at henv i
    rw [heq]
  refine ⟨?_, fun m hm htype => ?_, fun {i} hactive => ?_⟩
  · refine Each.forall_env h.actions (fun b hb i env heq => (hpeer i).trans (hb i env heq)) ?_
    rintro l hl b hb i env rfl
    cases hubEnv_starts henv hl hb with
    | established hmem => simp [acceptLink] at hmem
  · rw [(hubEnv_outputs henv).1] at hm
    exact (h.sent m hm htype).imp_left (hpeer m.1).trans
  · obtain ⟨status, heq⟩ := hubEnv_at henv i
    rw [hpeer i] at hactive
    rw [HubState.Hashed, heq]
    exact h.active hactive

theorem welcomes_of_run (hrun : run (hubStep text cfg) hubInit es = some c) :
    Identities es c ∧ Welcomes cfg c := by
  have hstep : ∀ {c e c'}, (Identities es c ∧ HistoryKept text cfg es c) ∧ Welcomes cfg c → e ∈ es →
      hubStep text cfg c e = some c' →
      (Identities es c' ∧ HistoryKept text cfg es c') ∧ Welcomes cfg c' := by
    intro c e c' h he hstep
    refine ⟨traced_step h.1 he hstep, ?_⟩
    cases Program.steps_of_step hstep with
    | run hthread hact => exact h.2.run h.1.1 h.1.2 hthread hact
    | env henv => exact h.2.event henv
  have h := run_within hstep ⟨⟨hubInit_identities, hubInit_historyKept⟩, hubInit_welcomes⟩ hrun
  exact ⟨h.1.1, h.2⟩

end Hub

/-! ## The client's side -/

section Client

variable {text : GoText} {cfg : ClientConfig} {t : Nat} {x : ClientChoice} {s : Client}
  {a : ClientAct} {r : Effect Client ClientAct} {c c' : ClientConf} {rest : List ClientAct}
  {es : List (Event ClientChoice ClientEvent)}

theorem sendType_welcome (s : Client) (x : ClientChoice) (sender : Bytes) (msgType : Nat)
    (room : Bytes) (body : CborValue) (nick : Bytes) :
    (s.sendType x sender msgType room body nick).1.welcome = s.welcome := by
  obtain heq | ⟨env, heq⟩ := s.sendType_cases x sender msgType room body nick <;> rw [heq]

/-- Only `Dial` writes the WELCOME body, when it has got the envelope. -/
theorem clientAct_welcome (h : clientAct text cfg x s a = some r) :
    r.shared.welcome = s.welcome ∨
      ∃ env, a = .setActive env ∧ r.shared.welcome = some ((parseWelcomeBody env.body).getD {}) := by
  cases a with
  | setActive env =>
    cases h
    exact .inr ⟨env, rfl, rfl⟩
  | select => obtain ⟨-, rfl⟩ | ⟨i, k, ch, -, rfl⟩ := selectAct_cases h <;> exact .inl rfl
  | closeCh | offerWelcome env =>
    cases h
    simp only [Client.wake]
    split <;> exact .inl rfl
  | sendHello =>
    refine .inl ?_
    have hshared : r.shared = (s.sendType x cfg.sender typeHello [] cfg.helloBody s.nick).1 := by
      cases h
      rfl
    rw [hshared, sendType_welcome]
  | pong ping =>
    refine .inl ?_
    have hshared : r.shared = (s.sendType x cfg.sender typePong [] ping.body []).1 := by
      cases h
      rfl
    rw [hshared, sendType_welcome]
  | send q =>
    refine .inl ?_
    have hshared : r.shared.welcome = (s.sendType x cfg.sender (q.fields text).1 (q.fields text).2.1
        (q.fields text).2.2.1 (if (q.fields text).2.2.2 then s.nick else [])).1.welcome := by
      cases h
      rfl
    rw [hshared, sendType_welcome]
  | _ =>
    refine .inl ?_
    simp only [clientAct] at h
    first
    | (cases h; rfl)
    | (split at h <;> cases h <;> rfl)
    | (split at h
       · cases h; rfl
       · split at h <;> cases h <;> rfl)

theorem setActive_of_dialReturn (h : clientAct text cfg x s a = some r)
    (hb : .dialReturn .client ∈ r.push) : ∃ env, a = .setActive env := by
  cases a with
  | setActive env => exact ⟨env, rfl⟩
  | select =>
    obtain ⟨-, rfl⟩ | ⟨i, k, ch, -, rfl⟩ := selectAct_cases h
    · simp at hb
    · cases k <;> simp [DialCase.next] at hb
  | resume =>
    simp only [clientAct] at h
    split at h
    · rename_i k _
      cases h
      cases k <;> simp [DialCase.next] at hb
    all_goals cases h
  | sendHello =>
    have hpush : r.push = if (s.sendType x cfg.sender typeHello [] cfg.helloBody s.nick).2
        then [.setAwaiting] else [.teardown, .dialReturn .helloFailed] := by
      cases h
      rfl
    rw [hpush] at hb
    split at hb <;> simp at hb
  | awaitLink =>
    simp only [clientAct] at h
    split at h
    · cases h
      simp at hb
    · split at h <;> cases h <;> simp at hb
  | identify | teardown | onLinkClosed | sessionClose =>
    simp only [clientAct] at h
    split at h <;> cases h <;> simp at hb
  | setAwaiting | startTimer | dialReturn q | closeCh =>
    cases h
    simp at hb
  | _ => exact (ClientAct.Ordinary.push (by exact trivial) h _ hb).elim

/-- What `Dial` returns with comes from a WELCOME. -/
structure DialKnows (es : List (Event ClientChoice ClientEvent)) (c : ClientConf) : Prop where
  actions : Each (fun s _ as => ∀ a ∈ as, a = .dialReturn .client → s.welcome ≠ none) c
  result : c.shared.result = some .client → c.shared.welcome ≠ none
  welcome : ∀ {body}, c.shared.welcome = some body → ∃ env, ArrivedIn es env ∧
    env.type = typeWelcome ∧ body = (parseWelcomeBody env.body).getD {}

theorem clientInit_dialKnows : DialKnows es (clientInit text cfg) := by
  refine ⟨?_, ?_, ?_⟩
  · rintro i as has _ hmem rfl
    have has : as ∈ [[ClientAct.awaitLink]] := List.mem_of_getElem? has
    rw [List.mem_singleton.mp has] at hmem
    cases List.mem_singleton.mp hmem
  all_goals simp [clientInit]

theorem DialKnows.run (h : DialKnows es c) (hhist : ClientHistory text cfg es c)
    (hthread : c.threads[t]? = some (a :: rest)) (hact : clientAct text cfg x c.shared a = some r) :
    DialKnows es ⟨r.shared, c.threads.set t (r.push ++ rest) ++ r.spawn⟩ := by
  have hwelcome := clientAct_welcome hact
  have hkept : c.shared.welcome ≠ none → r.shared.welcome ≠ none := by
    intro hne
    obtain heq | ⟨env, -, heq⟩ := hwelcome <;> simp [heq, hne]
  refine ⟨?_, ?_, ?_⟩
  · refine Each.forall_run h.actions hthread (fun b hb heq => hkept (hb heq)) ?_
    rintro b (hb | ⟨l, hl, -⟩) rfl
    · obtain ⟨env, rfl⟩ := setActive_of_dialReturn hact hb
      cases hact
      simp
    · rw [clientAct_spawn hact] at hl
      cases hl
  · intro hresult
    obtain heq | ⟨q, rfl, heq⟩ := (clientAct_outcome hact).result
    · exact hkept (h.result (heq ▸ hresult))
    · obtain rfl : q = .client := Option.some.inj (heq.symm.trans hresult)
      exact hkept (h.actions t _ hthread _ List.mem_cons_self rfl)
  · intro body hbody
    obtain heq | ⟨env, rfl, heq⟩ := hwelcome
    · exact h.welcome (heq ▸ hbody)
    · have hsource : ArrivedIn es env ∧ env.type = typeWelcome :=
        hhist.actions t _ hthread _ List.mem_cons_self
      exact ⟨env, hsource.1, hsource.2, Option.some.inj (hbody.symm.trans heq)⟩

theorem clientEnv_welcome {e : ClientEvent} (h : clientEnv text s e = some r) :
    r.shared.welcome = s.welcome ∧ r.shared.result = s.result ∧
      ∀ l ∈ r.spawn, ∀ q, .dialReturn q ∉ l := by
  cases e with
  | timerFires =>
    simp only [clientEnv, Client.wake] at h
    split at h
    · split at h <;> cases h <;> simp
    · cases h
  | linkClosed | request q | setNick nick | close => cases h; simp
  | established | packet data | linkStale =>
    simp only [clientEnv] at h
    split at h <;> cases h
    simp

theorem DialKnows.event (h : DialKnows es c) {e : ClientEvent}
    (henv : clientEnv text c.shared e = some r) : DialKnows es ⟨r.shared, c.threads ++ r.spawn⟩ := by
  obtain ⟨hwelcome, hresult, hspawn⟩ := clientEnv_welcome henv
  refine ⟨?_, ?_, ?_⟩
  · refine Each.forall_env h.actions (fun b hb heq => hwelcome ▸ hb heq) ?_
    rintro l hl b hb rfl
    exact absurd hb (hspawn l hl .client)
  · intro hclient
    exact hwelcome ▸ h.result (hresult ▸ hclient)
  · intro body hbody
    exact h.welcome (hwelcome ▸ hbody)

theorem dialKnows_of_run (hrun : run (clientStep text cfg) (clientInit text cfg) es = some c) :
    DialKnows es c := by
  have hstep : ∀ {c e c'}, ClientHistory text cfg es c ∧ DialKnows es c → e ∈ es →
      clientStep text cfg c e = some c' → ClientHistory text cfg es c' ∧ DialKnows es c' := by
    intro c e c' h he hstep
    cases Program.steps_of_step hstep with
    | run hthread hact => exact ⟨h.1.run hthread hact, h.2.run h.1 hthread hact⟩
    | env henv => exact ⟨h.1.event he henv, h.2.event henv⟩
  exact (run_within hstep ⟨clientInit_history, clientInit_dialKnows⟩ hrun).2

end Client

/-! ## Both sides -/

/-- If `Dial` has succeeded, the client knows the hub's name, version and limits, and the hub
has made the session of its link active, which carries the client's own identity hash. -/
theorem dial_agrees {n : Nat} {text : GoText} {ccfg : Fin n → ClientConfig} {hcfg : HubConfig}
    {N : Network n} {es : List (NetEvent n)} {k : Fin n}
    (hrun : run (netStep text ccfg hcfg) (netInit text ccfg) es = some N)
    (hresult : (N.client k).shared.result = some .client) :
    (N.client k).shared.welcome = some hcfg.welcome ∧ (N.hub.shared.peer k).active = true ∧
      (N.hub.shared.peer k).peerHash = (ccfg k).sender := by
  obtain ⟨hs, cs, h⟩ := projects_of_run hrun
  have hknows := dialKnows_of_run (h.client k)
  obtain ⟨body, hbody⟩ := Option.ne_none_iff_exists'.mp (hknows.result hresult)
  obtain ⟨env, harrived, htype, rfl⟩ := hknows.welcome hbody
  -- the WELCOME is one that the hub has sent on this link
  obtain ⟨fwd, hsent, rfl⟩ := h.arrived harrived
  obtain ⟨hid, hwelcomes⟩ := welcomes_of_run h.hub
  obtain ⟨hactive, hparsed⟩ := hwelcomes.sent _ hsent htype
  refine ⟨?_, hactive, ?_⟩
  · rw [hbody, hparsed]
    rfl
  · have hproved : ProvedIn hs k (N.hub.shared.peer k).peerHash :=
      peerHash_proved h.hub (hwelcomes.active hactive)
    have hown := h.identities k _ hproved.2
    simpa [hubOwn] using hown

theorem sample_dial_agrees :
    ∃ N, run (netStep .ascii samplePair sampleHub) (netInit .ascii samplePair)
        (sampleArrival 0 0 ++ sampleArrival 1 4) = some N ∧
      (N.client 1).shared.result = some .client ∧
      (N.client 1).shared.welcome = some sampleHub.welcome ∧
      (N.hub.shared.peer 1).active = true ∧ (N.hub.shared.peer 1).peerHash = otherIdentity := by
  have hend : (run (netStep .ascii samplePair sampleHub) (netInit .ascii samplePair)
      (sampleArrival 0 0 ++ sampleArrival 1 4)).map (fun N => (N.client 1).shared.result) =
        some (some .client) := by
    decide +kernel
  obtain ⟨N, hrun, heq⟩ := Option.map_eq_some_iff.mp hend
  exact ⟨N, hrun, heq, dial_agrees (k := 1) hrun heq⟩

end Rrc
