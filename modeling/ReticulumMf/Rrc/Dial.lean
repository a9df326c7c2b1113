-- SUMMARY: When a WELCOME that reaches the client in time is certain to end Dial's wait.
import ReticulumMf.Rrc.ClientSteps

/-!
# Dial and its WELCOME

`dispatch` hands a WELCOME to `Dial` only if it reads that the client awaits it,
and `Dial` says so only after its HELLO has gone out. A WELCOME that is read too
early is lost. One that is read in time is on its way to the channel, or in it,
until the wait is over; if the timer does not fire in between, the wait does not
end with a timeout.
-/

namespace Rrc

open Threads Transition

variable {text : GoText} {cfg : ClientConfig} {t : Nat} {x : ClientChoice} {s s' : Client}
  {a b : ClientAct} {r : Effect Client ClientAct} {c c' : ClientConf} {rest : List ClientAct}

/-! ## Where Dial is -/

/-- The steps of `Dial` before the timer is started. -/
def ClientAct.beforeTimer : ClientAct → Bool
  | .awaitLink | .identify | .sendHello | .setAwaiting | .startTimer => true
  | _ => false

/-- The steps of `Dial` before its wait. -/
def ClientAct.beforeWait : ClientAct → Bool
  | .select => true
  | a => a.beforeTimer

def ClientAct.returnsTimeout : ClientAct → Bool
  | .dialReturn .welcomeTimeout => true
  | _ => false

def ClientAct.offersWelcome : ClientAct → Bool
  | .offerWelcome _ => true
  | _ => false

def DialWait.isOver : DialWait → Bool
  | .ended _ => true
  | _ => false

/-- `Dial` is in one place; parked it has found nothing ready, and it has timed out
only if the timer has fired. -/
structure Dialing (c : ClientConf) : Prop where
  once : pending ClientAct.beforeWait c ≤ 1
  before : 0 < pending ClientAct.beforeWait c → c.shared.wait = .before
  unstarted : 0 < pending ClientAct.beforeTimer c → c.shared.timer = .stopped
  parked : c.shared.wait = .parked → c.shared.welcomeCh = none
  fired : c.shared.wait = .ended .timeout → c.shared.timer = .fired
  returns : 0 < pending ClientAct.returnsTimeout c → c.shared.wait = .ended .timeout
  returned : c.shared.result = some .welcomeTimeout → c.shared.wait = .ended .timeout

theorem clientInit_dialing : Dialing (clientInit text cfg) := by
  constructor <;> simp [clientInit, pending, ClientAct.beforeWait, ClientAct.beforeTimer,
    ClientAct.returnsTimeout]

/-! ## Control flow -/

/-- The only answer of a `select` that leads to a timeout is the timer's. -/
theorem DialCase.mem_next {k : DialCase} (h : b ∈ k.next) :
    b.beforeWait = false ∧ b.offersWelcome = false ∧ (b.returnsTimeout = true → k = .timeout) := by
  cases k with
  | welcome env | closed =>
    obtain rfl := List.mem_singleton.mp h
    exact ⟨rfl, rfl, nofun⟩
  | timeout =>
    obtain rfl | h := List.mem_cons.mp h
    · exact ⟨rfl, rfl, nofun⟩
    · obtain rfl := List.mem_singleton.mp h
      exact ⟨rfl, rfl, fun _ => rfl⟩

theorem ClientAct.Leads.beforeWait (h : a.Leads s b) (hb : b.beforeWait = true) :
    a.beforeTimer = true := by
  cases h with
  | awaitLink | identify | sendHello | setAwaiting | startTimer | select => rfl
  | taken _ hmem | woken _ hmem => cases (DialCase.mem_next hmem).1.symm.trans hb
  | _ => cases hb

theorem ClientAct.beforeWait_of_beforeTimer (h : a.beforeTimer = true) : a.beforeWait = true := by
  cases a with
  | select => cases h
  | _ => exact h

theorem ClientAct.Leads.returnsTimeout (h : a.Leads s b) (hb : b.returnsTimeout = true) :
    a = .select ∨ a = .resume ∧ s.wait = .ended .timeout := by
  cases h with
  | dialFails hne =>
    rename_i q
    cases q with
    | welcomeTimeout => exact absurd rfl hne
    | _ => cases hb
  | taken _ _ => exact .inl rfl
  | woken hwait hmem => exact .inr ⟨rfl, (DialCase.mem_next hmem).2.2 hb ▸ hwait⟩
  | _ => cases hb

theorem beforeWait_push (hact : clientAct text cfg x s a = some r) :
    r.push.countP ClientAct.beforeWait ≤ [a].countP ClientAct.beforeTimer := by
  by_cases ha : a.beforeTimer = true
  · have hone : [a].countP ClientAct.beforeTimer = 1 := by simp [ha]
    rw [hone]
    cases a with
    | setAwaiting | startTimer => cases hact; exact le_rfl
    | sendHello =>
      have hpush : r.push = if (s.sendType x cfg.sender typeHello [] cfg.helloBody s.nick).2 then
          [.setAwaiting] else [.teardown, .dialReturn .helloFailed] := by
        cases hact
        rfl
      rw [hpush]
      split <;> decide
    | identify =>
      simp only [clientAct] at hact
      split at hact <;> cases hact <;> simp [ClientAct.beforeWait, ClientAct.beforeTimer]
    | awaitLink =>
      simp only [clientAct] at hact
      split at hact
      · cases hact
        exact le_rfl
      · split at hact <;> cases hact <;> simp [ClientAct.beforeWait, ClientAct.beforeTimer]
    | _ => cases ha
  · have hnone : r.push.countP ClientAct.beforeWait = 0 := countP_eq_zero fun b hb =>
      Bool.eq_false_iff.mpr fun hwait => ha ((clientAct_leads hact hb).beforeWait hwait)
    omega

/-! ## Dial along a run -/

theorem Dialing.at_beforeTimer (h : Dialing c) (hthread : c.threads[t]? = some (a :: rest))
    (ha : a.beforeTimer = true) : c.shared.timer = .stopped :=
  h.unstarted (pending_pos hthread List.mem_cons_self ha)

theorem Dialing.at_select (h : Dialing c) (hthread : c.threads[t]? = some (.select :: rest)) :
    c.shared.wait = .before :=
  h.before (pending_pos hthread List.mem_cons_self rfl)

/-- A wait that is over stays as it ended. -/
theorem Dialing.over_run (h : Dialing c) (hthread : c.threads[t]? = some (a :: rest))
    (hact : clientAct text cfg x c.shared a = some r) {k : DialCase}
    (hwait : c.shared.wait = .ended k) : r.shared.wait = .ended k := by
  have hselect : a ≠ .select := by
    rintro rfl
    cases hwait.symm.trans (h.at_select hthread)
  obtain heq | ⟨hparked, -⟩ := (clientAct_outcome hact).wait hselect
  · exact heq.trans hwait
  · cases hwait.symm.trans hparked

theorem beforeWait_run (hthread : c.threads[t]? = some (a :: rest))
    (hact : clientAct text cfg x c.shared a = some r) :
    pending ClientAct.beforeWait ⟨r.shared, c.threads.set t (r.push ++ rest) ++ r.spawn⟩ +
      [a].countP ClientAct.beforeWait ≤
        pending ClientAct.beforeWait c + [a].countP ClientAct.beforeTimer := by
  have hrun := pending_run (p := ClientAct.beforeWait) (r := r) hthread
  have hpush := beforeWait_push hact
  have hspawn : (r.spawn.map (List.countP ClientAct.beforeWait)).sum = 0 := by
    simp [clientAct_spawn hact]
  omega

/-- Who has not come to the wait yet is not the one who waits. -/
theorem Dialing.before_run (h : Dialing c) (hthread : c.threads[t]? = some (a :: rest))
    (hact : clientAct text cfg x c.shared a = some r)
    (hpos : 0 < pending ClientAct.beforeWait
      ⟨r.shared, c.threads.set t (r.push ++ rest) ++ r.spawn⟩) : r.shared.wait = .before := by
  have honce := h.once
  have hcount := beforeWait_run hthread hact
  have hselect : a ≠ .select := by
    rintro rfl
    have : [ClientAct.select].countP ClientAct.beforeWait = 1 := rfl
    have : [ClientAct.select].countP ClientAct.beforeTimer = 0 := rfl
    omega
  have hbefore : c.shared.wait = .before := by
    obtain hpos | ⟨b, hb, hwait⟩ := pending_pos_of_run hthread hpos
    · exact h.before hpos
    · have ha := (clientAct_starts hact hb).beforeWait hwait
      exact h.before (pending_pos hthread List.mem_cons_self (a.beforeWait_of_beforeTimer ha))
  obtain heq | ⟨hparked, -⟩ := (clientAct_outcome hact).wait hselect
  · exact heq.trans hbefore
  · cases hbefore.symm.trans hparked

theorem Dialing.unstarted_run (h : Dialing c) (hthread : c.threads[t]? = some (a :: rest))
    (hact : clientAct text cfg x c.shared a = some r)
    (hpos : 0 < pending ClientAct.beforeTimer
      ⟨r.shared, c.threads.set t (r.push ++ rest) ++ r.spawn⟩) : r.shared.timer = .stopped := by
  have hstopped : c.shared.timer = .stopped := by
    obtain hpos | ⟨b, hb, htimer⟩ := pending_pos_of_run hthread hpos
    · exact h.unstarted hpos
    · have hwait := b.beforeWait_of_beforeTimer htimer
      exact h.at_beforeTimer hthread ((clientAct_starts hact hb).beforeWait hwait)
  obtain heq | ⟨rfl, -⟩ := (clientAct_outcome hact).timer
  · exact heq.trans hstopped
  · -- this was the only step before the timer, and it is done
    have honce : pending ClientAct.beforeTimer c ≤ 1 :=
      (pending_le_of_imp fun b => b.beforeWait_of_beforeTimer).trans h.once
    have hrun := pending_run_of_none (p := ClientAct.beforeTimer) (r := r) hthread
      (by cases hact; simp [ClientAct.beforeTimer]) (by simp [clientAct_spawn hact])
    have : [ClientAct.startTimer].countP ClientAct.beforeTimer = 1 := rfl
    omega

theorem Dialing.parked_run (h : Dialing c) (hact : clientAct text cfg x c.shared a = some r)
    (hparked : r.shared.wait = .parked) : r.shared.welcomeCh = none := by
  by_cases hselect : a = .select
  · subst hselect
    obtain ⟨hready, rfl⟩ | ⟨i, k, ch, -, rfl⟩ := selectAct_cases hact
    · exact Client.welcomeCh_of_ready hready
    · cases hparked
  · have hold : c.shared.wait = .parked := by
      obtain heq | ⟨hold, -⟩ := (clientAct_outcome hact).wait hselect
      · exact heq.symm.trans hparked
      · exact hold
    obtain heq | ⟨hne, -⟩ := (clientAct_outcome hact).welcomeCh hselect
    · exact heq.trans (h.parked hold)
    · exact absurd hold hne

theorem Dialing.fired_run (h : Dialing c) (hthread : c.threads[t]? = some (a :: rest))
    (hact : clientAct text cfg x c.shared a = some r) (hwait : r.shared.wait = .ended .timeout) :
    r.shared.timer = .fired := by
  have hfired : c.shared.timer = .fired := by
    by_cases hselect : a = .select
    · subst hselect
      obtain ⟨-, rfl⟩ | ⟨i, k, ch, hk, rfl⟩ := selectAct_cases hact
      · cases hwait
      · cases hwait
        exact Client.timer_of_ready hk
    · obtain heq | ⟨-, k, hk, heq⟩ := (clientAct_outcome hact).wait hselect
      · exact h.fired (heq.symm.trans hwait)
      · cases heq.symm.trans hwait
        exact absurd rfl hk
  obtain heq | ⟨rfl, -⟩ := (clientAct_outcome hact).timer
  · exact heq.trans hfired
  · cases hfired.symm.trans (h.at_beforeTimer hthread rfl)

theorem Dialing.returns_run (h : Dialing c) (hthread : c.threads[t]? = some (a :: rest))
    (hact : clientAct text cfg x c.shared a = some r)
    (hpos : 0 < pending ClientAct.returnsTimeout
      ⟨r.shared, c.threads.set t (r.push ++ rest) ++ r.spawn⟩) :
    r.shared.wait = .ended .timeout := by
  obtain hpos | ⟨b, hb, hreturns⟩ := pending_pos_of_run hthread hpos
  · exact h.over_run hthread hact (h.returns hpos)
  · obtain rfl | ⟨rfl, hwait⟩ := (clientAct_starts hact hb).returnsTimeout hreturns
    · obtain ⟨-, rfl⟩ | ⟨i, k, ch, -, rfl⟩ := selectAct_cases hact
      · obtain rfl := List.mem_singleton.mp (hb.resolve_right (by simp))
        cases hreturns
      · rw [(DialCase.mem_next (hb.resolve_right (by simp))).2.2 hreturns]
    · exact h.over_run hthread hact hwait

theorem Dialing.returned_run (h : Dialing c) (hthread : c.threads[t]? = some (a :: rest))
    (hact : clientAct text cfg x c.shared a = some r)
    (hresult : r.shared.result = some .welcomeTimeout) : r.shared.wait = .ended .timeout := by
  refine h.over_run hthread hact ?_
  obtain heq | ⟨q, rfl, heq⟩ := (clientAct_outcome hact).result
  · exact h.returned (heq.symm.trans hresult)
  · cases heq.symm.trans hresult
    exact h.returns (pending_pos hthread List.mem_cons_self rfl)

theorem Dialing.run (h : Dialing c) (hthread : c.threads[t]? = some (a :: rest))
    (hact : clientAct text cfg x c.shared a = some r) :
    Dialing ⟨r.shared, c.threads.set t (r.push ++ rest) ++ r.spawn⟩ where
  once := by
    have honce := h.once
    have hcount := beforeWait_run hthread hact
    have hself : [a].countP ClientAct.beforeTimer ≤ [a].countP ClientAct.beforeWait :=
      List.countP_mono_left fun b _ => b.beforeWait_of_beforeTimer
    omega
  before := h.before_run hthread hact
  unstarted := h.unstarted_run hthread hact
  parked := h.parked_run hact
  fired := h.fired_run hthread hact
  returns := h.returns_run hthread hact
  returned := h.returned_run hthread hact

/-- Events start none of these steps. -/
theorem clientEnv_startsNone {e : ClientEvent} {l : List ClientAct}
    (henv : clientEnv text s e = some r) (hl : l ∈ r.spawn) (hb : b ∈ l) :
    b.beforeWait = false ∧ b.beforeTimer = false ∧ b.returnsTimeout = false := by
  obtain ⟨data, rfl⟩ | rfl | ⟨q, rfl⟩ | rfl := clientEnv_spawn henv hl <;>
    simp only [List.mem_cons, List.not_mem_nil, or_false] at hb
  · subst hb
    exact ⟨rfl, rfl, rfl⟩
  · obtain rfl | rfl := hb <;> exact ⟨rfl, rfl, rfl⟩
  · subst hb
    exact ⟨rfl, rfl, rfl⟩
  · obtain rfl | rfl := hb <;> exact ⟨rfl, rfl, rfl⟩

/-- The timer fires: `Dial` has started it, and takes the timeout if it is parked. -/
theorem wake_timeout (h : r.shared = { c.shared.wake .timeout c.shared with timer := .fired }) :
    r.shared.timer = .fired ∧ r.shared.result = c.shared.result ∧
      (c.shared.wait = .parked ∧ r.shared.wait = .ended .timeout ∨
        c.shared.wait ≠ .parked ∧ r.shared.wait = c.shared.wait) := by
  rw [h, Client.wake]
  split
  · exact ⟨rfl, rfl, .inl ⟨‹_›, rfl⟩⟩
  all_goals
    rename_i hwait
    exact ⟨rfl, rfl, .inr ⟨by simp [hwait], rfl⟩⟩

theorem Dialing.env (h : Dialing c) {e : ClientEvent} (henv : clientEnv text c.shared e = some r) :
    Dialing ⟨r.shared, c.threads ++ r.spawn⟩ := by
  have hwait := pending_env_of_none (c := c) fun l hl b hb => (clientEnv_startsNone henv hl hb).1
  have htimer := pending_env_of_none (c := c) fun l hl b hb =>
    (clientEnv_startsNone henv hl hb).2.1
  have hreturns := pending_env_of_none (c := c) fun l hl b hb =>
    (clientEnv_startsNone henv hl hb).2.2
  obtain ⟨hsame, -⟩ | ⟨-, hrunning, -, heq⟩ := clientEnv_cases henv
  · constructor
    · exact hwait.le.trans h.once
    · rw [hwait, hsame.wait]
      exact h.before
    · rw [htimer, hsame.timer]
      exact h.unstarted
    · rw [hsame.wait, hsame.welcomeCh]
      exact h.parked
    · rw [hsame.wait, hsame.timer]
      exact h.fired
    · rw [hreturns, hsame.wait]
      exact h.returns
    · rw [hsame.result, hsame.wait]
      exact h.returned
  · have hstarted : ¬0 < pending ClientAct.beforeTimer c := fun hpos => by
      cases hrunning.symm.trans (h.unstarted hpos)
    obtain ⟨hfired, hresult, ⟨hwas, hover⟩ | ⟨hwas, hsame⟩⟩ := wake_timeout heq
    · refine ⟨hwait.le.trans h.once, fun hpos => ?_, fun hpos => absurd (htimer ▸ hpos) hstarted,
        fun hparked => ?_, fun _ => hfired, fun _ => hover, fun _ => hover⟩
      · cases hwas.symm.trans (h.before (hwait ▸ hpos))
      · cases hover.symm.trans hparked
    · exact ⟨hwait.le.trans h.once, fun hpos => hsame.trans (h.before (hwait ▸ hpos)),
        fun hpos => absurd (htimer ▸ hpos) hstarted,
        fun hparked => absurd (hsame.symm.trans hparked) hwas, fun _ => hfired,
        fun hpos => hsame.trans (h.returns (hreturns ▸ hpos)),
        fun hr => hsame.trans (h.returned (hresult.symm.trans hr))⟩

theorem Dialing.step (h : Dialing c) {e : Event ClientChoice ClientEvent}
    (hstep : clientStep text cfg c e = some c') : Dialing c' := by
  cases Program.steps_of_step hstep with
  | run hthread hact => exact h.run hthread hact
  | env henv => exact h.env henv

/-! ## A WELCOME that is kept -/

/-- The wait is over, and not by a timeout; or the timer has not fired, and a WELCOME
is in the channel or on its way to it. -/
def WelcomeKept (c : ClientConf) : Prop :=
  (∃ k, k ≠ .timeout ∧ c.shared.wait = .ended k) ∨
    c.shared.timer ≠ .fired ∧ (0 < pending ClientAct.offersWelcome c ∨ c.shared.welcomeCh ≠ none)

/-- The WELCOME goes to a parked `Dial`, or the channel holds one now. -/
theorem offerWelcome_cases {env : Envelope}
    (hact : clientAct text cfg x s (.offerWelcome env) = some r) :
    r.shared.wait = .ended (.welcome env) ∨ r.shared.welcomeCh ≠ none := by
  cases hact
  simp only [Client.wake]
  split
  · exact .inl rfl
  all_goals exact .inr (by simp)

theorem WelcomeKept.run (h : WelcomeKept c) (hd : Dialing c)
    (hthread : c.threads[t]? = some (a :: rest))
    (hact : clientAct text cfg x c.shared a = some r) :
    WelcomeKept ⟨r.shared, c.threads.set t (r.push ++ rest) ++ r.spawn⟩ := by
  have hout := clientAct_outcome hact
  obtain ⟨k, hk, hwait⟩ | ⟨htimer, hkept⟩ := h
  · exact .inl ⟨k, hk, hd.over_run hthread hact hwait⟩
  have htimer' : r.shared.timer ≠ .fired := by
    obtain heq | ⟨-, heq⟩ := hout.timer
    · exact heq ▸ htimer
    · exact heq ▸ Timer.noConfusion
  by_cases hselect : a = .select
  · subst hselect
    have hpending := pending_le_run (p := ClientAct.offersWelcome) (r := r) hthread rfl
    obtain ⟨hready, rfl⟩ | ⟨i, k, ch, hk, rfl⟩ := selectAct_cases hact
    · have hpos := hkept.resolve_right (absurd (Client.welcomeCh_of_ready hready) ·)
      exact .inr ⟨htimer', .inl (hpos.trans_le hpending)⟩
    · refine .inl ⟨k, ?_, rfl⟩
      rintro rfl
      exact htimer (Client.timer_of_ready hk)
  by_cases hoffer : a.offersWelcome = true
  · cases a with
    | offerWelcome env =>
      obtain hwait | hch := offerWelcome_cases hact
      · exact .inl ⟨.welcome env, nofun, hwait⟩
      · exact .inr ⟨htimer', .inr hch⟩
    | _ => cases hoffer
  · refine .inr ⟨htimer', ?_⟩
    obtain hpos | hch := hkept
    · exact .inl (hpos.trans_le (pending_le_run hthread (by simpa using hoffer)))
    · obtain heq | ⟨-, hne⟩ := hout.welcomeCh hselect
      · exact .inr (heq ▸ hch)
      · exact .inr hne

/-! ## Runs -/

def ClientAct.dispatchesWelcome : ClientAct → Bool
  | .dispatch env => env.type = typeWelcome
  | _ => false

/-- A WELCOME is read while `Dial` awaits it or after its wait, and the timer does not
fire while a WELCOME is in the channel or on its way to it. -/
def GoodDial (c : ClientConf) : Event ClientChoice ClientEvent → Prop
  | .run t _ => ∀ a ∈ c.next t, a.dispatchesWelcome = true →
      c.shared.state = .awaitingWelcome ∨ c.shared.wait.isOver = true
  | .env .timerFires => c.shared.wait.isOver = true ∨
      pending ClientAct.offersWelcome c = 0 ∧ c.shared.welcomeCh = none
  | .env _ => True

instance {c : ClientConf} {e : Event ClientChoice ClientEvent} : Decidable (GoodDial c e) :=
  match e with
  | .run t _ => inferInstanceAs (Decidable (∀ a ∈ c.next t, a.dispatchesWelcome = true →
      c.shared.state = .awaitingWelcome ∨ c.shared.wait.isOver = true))
  | .env e =>
    match e with
    | .timerFires => inferInstanceAs (Decidable (c.shared.wait.isOver = true ∨
        pending ClientAct.offersWelcome c = 0 ∧ c.shared.welcomeCh = none))
    | .established | .packet _ | .linkStale | .linkClosed | .request _ | .setNick _ | .close =>
      .isTrue trivial

theorem DialWait.eq_of_isOver {w : DialWait} (h : w.isOver = true) : ∃ k, w = .ended k := by
  cases w with
  | ended k => exact ⟨k, rfl⟩
  | before | parked => cases h

theorem WelcomeKept.env (h : WelcomeKept c) (hd : Dialing c) {e : ClientEvent}
    (henv : clientEnv text c.shared e = some r) (hgood : GoodDial c (.env e)) :
    WelcomeKept ⟨r.shared, c.threads ++ r.spawn⟩ := by
  obtain ⟨hsame, -⟩ | ⟨rfl, -, -, heq⟩ := clientEnv_cases henv
  · obtain ⟨k, hk, hwait⟩ | ⟨htimer, hpos | hch⟩ := h
    · exact .inl ⟨k, hk, hsame.wait.trans hwait⟩
    · exact .inr ⟨hsame.timer ▸ htimer, .inl (hpos.trans_le pending_le_env)⟩
    · exact .inr ⟨hsame.timer ▸ htimer, .inr (hsame.welcomeCh ▸ hch)⟩
  · have hover : ∃ k, k ≠ .timeout ∧ c.shared.wait = .ended k := by
      obtain hover | ⟨htimer, hkept⟩ := h
      · exact hover
      · obtain hover | ⟨hzero, hnone⟩ := hgood
        · obtain ⟨k, hwait⟩ := DialWait.eq_of_isOver hover
          refine ⟨k, ?_, hwait⟩
          rintro rfl
          exact htimer (hd.fired hwait)
        · obtain hpos | hch := hkept
          · omega
          · exact absurd hnone hch
    obtain ⟨k, hk, hwait⟩ := hover
    exact .inl ⟨k, hk, by simp [heq, Client.wake, hwait]⟩

theorem WelcomeKept.step (h : Dialing c ∧ WelcomeKept c) {e : Event ClientChoice ClientEvent}
    (hstep : clientStep text cfg c e = some c') (hgood : GoodDial c e) :
    Dialing c' ∧ WelcomeKept c' := by
  refine ⟨h.1.step hstep, ?_⟩
  cases Program.steps_of_step hstep with
  | run hthread hact => exact h.2.run h.1 hthread hact
  | env henv => exact h.2.env h.1 henv hgood

/-- A WELCOME that is read while `Dial` awaits it is kept. -/
theorem Dialing.kept_of_dispatch (h : Dialing c) (htimer : c.shared.timer ≠ .fired)
    (hdispatch : (c.next t).any ClientAct.dispatchesWelcome = true)
    (hgood : GoodDial c (.run t x)) (hstep : clientStep text cfg c (.run t x) = some c') :
    WelcomeKept c' := by
  obtain ⟨a, hnext, ha⟩ := (Option.any_eq_true _ _).mp hdispatch
  have hread := hgood a hnext ha
  cases Program.steps_of_step hstep with
  | run hthread hact =>
    cases hnext.symm.trans (Config.next_eq hthread)
    cases a with
    | dispatch env =>
      cases hact
      obtain hstate | hover := hread
      · refine .inr ⟨htimer, .inl (pending_pos_run hthread (b := .offerWelcome env) ?_ rfl)⟩
        simp [clientDispatch, of_decide_eq_true ha, hstate]
      · obtain ⟨k, hwait⟩ := DialWait.eq_of_isOver hover
        refine .inl ⟨k, ?_, hwait⟩
        rintro rfl
        exact htimer (h.fired hwait)
    | _ => cases ha

/-- A WELCOME that reaches `dispatch` before the timer fires is not discarded, and
`Dial` does not return with a timeout, if each step from there on is good. -/
theorem welcome_in_time_kept (text : GoText) (cfg : ClientConfig) (t : Nat) (x : ClientChoice)
    (es₁ es₂ : List (Event ClientChoice ClientEvent)) (c₁ c : ClientConf)
    (hrun₁ : run (clientStep text cfg) (clientInit text cfg) es₁ = some c₁)
    (hdispatch : (c₁.next t).any ClientAct.dispatchesWelcome = true)
    (htimer : c₁.shared.timer ≠ .fired)
    (hrun₂ : run (clientStep text cfg) c₁ (.run t x :: es₂) = some c)
    (hgood : AllSteps (clientStep text cfg) GoodDial c₁ (.run t x :: es₂)) :
    WelcomeKept c ∧ c.shared.result ≠ some .welcomeTimeout := by
  have hd₁ : Dialing c₁ := run_invariant (fun h h' => h.step h') clientInit_dialing hrun₁
  obtain ⟨m, hm, hrun⟩ := run_cons.mp hrun₂
  obtain ⟨hfirst, hrest⟩ := hgood m hm
  have hkept := hd₁.kept_of_dispatch htimer hdispatch hfirst hm
  obtain ⟨hd, hkept⟩ := run_of_good (fun h h' => WelcomeKept.step h h') ⟨hd₁.step hm, hkept⟩ hrest hrun
  refine ⟨hkept, fun hresult => ?_⟩
  have hover := hd.returned hresult
  obtain ⟨k, hk, hwait⟩ | ⟨htimer, -⟩ := hkept
  · cases hover.symm.trans hwait
    exact hk rfl
  · exact htimer (hd.fired hover)

/-- `Dial` waits and a WELCOME reaches `dispatch`. -/
def welcomeArrives : List (Event ClientChoice ClientEvent) :=
  [.env .established] ++ clientTurns 0 6 ++ [.env (.packet (some sampleWelcome))] ++
  clientTurns 1 1

/-- It is handed over, `Dial` goes on and the timer fires too late. -/
def welcomeTaken : List (Event ClientChoice ClientEvent) :=
  clientTurns 1 1 ++ clientTurns 0 2 ++ [.env .timerFires] ++ clientTurns 0 2

theorem sample_welcome_kept :
    ∃ c₁ c, run (clientStep .ascii sampleClient) (clientInit .ascii sampleClient) welcomeArrives =
        some c₁ ∧
      run (clientStep .ascii sampleClient) c₁ (.run 1 {} :: welcomeTaken) = some c ∧
      WelcomeKept c ∧ c.shared.result ≠ some .welcomeTimeout := by
  have hend : (run (clientStep .ascii sampleClient) (clientInit .ascii sampleClient)
      welcomeArrives).bind (fun c₁ =>
        (run (clientStep .ascii sampleClient) c₁ (.run 1 {} :: welcomeTaken)).map fun _ =>
          ((c₁.next 1).any ClientAct.dispatchesWelcome, c₁.shared.timer,
            decide (AllSteps (clientStep .ascii sampleClient) GoodDial c₁
              (.run 1 {} :: welcomeTaken)))) = some (true, .running, true) := by
    decide +kernel
  obtain ⟨c₁, hrun₁, hend⟩ := Option.bind_eq_some_iff.mp hend
  obtain ⟨c, hrun₂, heq⟩ := Option.map_eq_some_iff.mp hend
  simp only [Prod.mk.injEq] at heq
  obtain ⟨hdispatch, htimer, hgood⟩ := heq
  exact ⟨c₁, c, hrun₁, hrun₂, welcome_in_time_kept .ascii sampleClient 1 {} welcomeArrives
    welcomeTaken c₁ c hrun₁ hdispatch (by simp [htimer]) hrun₂ (of_decide_eq_true hgood)⟩

/-- `Dial` has sent its HELLO, and the WELCOME reaches `dispatch` before `Dial` sets
the state. -/
def welcomeTooEarly : List (Event ClientChoice ClientEvent) :=
  [.env .established] ++ clientTurns 0 3 ++ [.env (.packet (some sampleWelcome))] ++
  clientTurns 1 1

/-- It is read, `Dial` waits, and the timer fires. -/
def welcomeLost : List (Event ClientChoice ClientEvent) :=
  clientTurns 0 3 ++ [.env .timerFires] ++ clientTurns 0 6

theorem early_welcome_discarded :
    ∃ c₁ c, run (clientStep .ascii sampleClient) (clientInit .ascii sampleClient) welcomeTooEarly =
        some c₁ ∧
      c₁.shared.sent.any (·.type = typeHello) = true ∧
      (c₁.next 1).any ClientAct.dispatchesWelcome = true ∧ c₁.shared.timer ≠ .fired ∧
      run (clientStep .ascii sampleClient) c₁ (.run 1 {} :: welcomeLost) = some c ∧
      c.shared.result = some .welcomeTimeout := by
  have hend : (run (clientStep .ascii sampleClient) (clientInit .ascii sampleClient)
      welcomeTooEarly).bind (fun c₁ =>
        (run (clientStep .ascii sampleClient) c₁ (.run 1 {} :: welcomeLost)).map fun c =>
          (c₁.shared.sent.any (·.type = typeHello), (c₁.next 1).any ClientAct.dispatchesWelcome,
            c₁.shared.timer, c.shared.result)) =
      some (true, true, .stopped, some .welcomeTimeout) := by
    decide +kernel
  obtain ⟨c₁, hrun₁, hend⟩ := Option.bind_eq_some_iff.mp hend
  obtain ⟨c, hrun₂, heq⟩ := Option.map_eq_some_iff.mp hend
  simp only [Prod.mk.injEq] at heq
  obtain ⟨hsent, hdispatch, htimer, hresult⟩ := heq
  exact ⟨c₁, c, hrun₁, hsent, hdispatch, by simp [htimer], hrun₂, hresult⟩

end Rrc
