-- SUMMARY: When a session that says HELLO is sent exactly one WELCOME.
import ReticulumMf.Rrc.Hello

/-!
# WELCOME

`onHello` makes the peer active, sends the WELCOME and calls the handler. Sent and
upcoming WELCOMEs add up to one for an active peer as long as no second handler
gets into `onHello`, or else its session is being closed. With what is known of
HELLOs, that settles what a link ends up with when its handlers are done.
-/

namespace Rrc

open Threads Transition

variable {text : GoText} {cfg : HubConfig} {t : Nat} {x : HubChoice} {s s' : HubState}
  {a b : HubAct} {r : Effect HubState HubAct} {i : Nat} {c c' : HubConf} {rest : List HubAct}

/-! ## Counting -/

/-- How many WELCOMEs have been sent on link `i`. -/
def HubState.welcomes (s : HubState) (i : Nat) : Nat :=
  s.sent.countP fun (j, env) => j = i ∧ env.type = typeWelcome

def HubCall.isOnHello : HubCall → Bool
  | .onHello _ => true
  | _ => false

/-- How often `OnHello` has been called for link `i`. -/
def HubState.helloCalls (s : HubState) (i : Nat) : Nat :=
  s.calls.countP fun (j, k) => j = i ∧ k.isOnHello

def HubAct.sendsWelcome (i : Nat) : HubAct → Bool
  | .reply j (.welcome _) => j = i
  | _ => false

def HubAct.callsOnHello (i : Nat) : HubAct → Bool
  | .call j (.onHello _) => j = i
  | _ => false

def HubAct.closes (i : Nat) : HubAct → Bool
  | .close j => j = i
  | _ => false

def HubAct.tearsDown (i : Nat) : HubAct → Bool
  | .teardown j => j = i
  | _ => false

theorem HubAct.eq_of_sendsWelcome (h : a.sendsWelcome i = true) :
    ∃ env, a = .reply i (.welcome env) := by
  cases a with
  | reply j m =>
    cases m with
    | welcome env => exact ⟨env, by rw [of_decide_eq_true h]⟩
    | _ => cases h
  | _ => cases h

theorem HubAct.eq_of_callsOnHello (h : a.callsOnHello i = true) :
    ∃ env, a = .call i (.onHello env) := by
  cases a with
  | call j k =>
    cases k with
    | onHello env => exact ⟨env, by rw [of_decide_eq_true h]⟩
    | _ => cases h
  | _ => cases h

theorem HubAct.Leads.of_sendsWelcome (h : a.Leads s b) (hb : b.sendsWelcome i = true) :
    ∃ env, a = .onHello i env := by
  obtain ⟨env, rfl⟩ := HubAct.eq_of_sendsWelcome hb
  cases h
  exact ⟨env, rfl⟩

theorem HubAct.Leads.of_callsOnHello (h : a.Leads s b) (hb : b.callsOnHello i = true) :
    ∃ env, a = .reply i (.welcome env) := by
  obtain ⟨env, rfl⟩ := HubAct.eq_of_callsOnHello hb
  cases h
  exact ⟨env, rfl⟩

/-- Sent and upcoming WELCOMEs of link `i`. -/
def welcomesDue (i : Nat) (c : HubConf) : Nat :=
  c.shared.welcomes i + pending (HubAct.sendsWelcome i) c

/-- Calls of `OnHello` for link `i` that have been made or are upcoming. -/
def helloCallsDue (i : Nat) (c : HubConf) : Nat :=
  c.shared.helloCalls i + pending (HubAct.callsOnHello i) c

theorem Reply.eq_of_type {m : Reply} (h : m.type = typeWelcome) : ∃ env, m = .welcome env := by
  cases m with
  | welcome env => exact ⟨env, rfl⟩
  | _ => cases h

theorem welcomes_of_other (hcarry : Carries text cfg i c)
    (hthread : c.threads[t]? = some (a :: rest)) (hact : hubAct text cfg x c.shared a = some r)
    (hwelcome : ∀ env, a ≠ .reply i (.welcome env)) :
    r.shared.welcomes i = c.shared.welcomes i := by
  have hout := hubAct_outcome hact
  cases a with
  | reply j m =>
    simp only [hubAct] at hact
    split at hact <;> cases hact
    obtain heq | ⟨env, htype, heq⟩ := reply_cases cfg c.shared x j m
    · rw [heq]
    · have hnot : ¬(j = i ∧ env.type = typeWelcome) := by
        rintro ⟨rfl, h⟩
        obtain ⟨env', rfl⟩ := Reply.eq_of_type (htype.symm.trans h)
        exact hwelcome env' rfl
      simp [heq, HubState.welcomes, hnot]
  | forward j env =>
    have hnot : env.type ≠ typeWelcome := (hcarry.disciplined t _ hthread).1
    simp only [hubAct] at hact
    split at hact <;> cases hact
    · obtain heq | ⟨heq, -⟩ := sendEnvelope_cases c.shared x j env
      · rw [heq]
      · simp [heq, HubState.welcomes, hnot]
    · rfl
  | _ => rw [HubState.welcomes, hout.sent_eq (by simp) (by simp), HubState.welcomes]

/-- An action other than `onHello` starts no WELCOME. -/
theorem pending_sendsWelcome (hthread : c.threads[t]? = some (a :: rest))
    (hact : hubAct text cfg x c.shared a = some r) (hhello : ∀ env, a ≠ .onHello i env) :
    pending (HubAct.sendsWelcome i) (afterRun c t rest r) + [a].countP (HubAct.sendsWelcome i) =
      pending (HubAct.sendsWelcome i) c := by
  have hstart : ∀ b, (b ∈ r.push ∨ ∃ l ∈ r.spawn, b ∈ l) → b.sendsWelcome i = false := by
    refine fun b hb => Bool.eq_false_iff.mpr fun hsends => ?_
    obtain ⟨env, ha⟩ := (hubAct_starts hact hb).of_sendsWelcome hsends
    exact hhello env ha
  exact pending_run_of_none hthread (fun b hb => hstart b (.inl hb))
    fun l hl b hb => hstart b (.inr ⟨l, hl, hb⟩)

/-- And one other than the sending of a WELCOME starts no call of `OnHello`. -/
theorem pending_callsOnHello (hthread : c.threads[t]? = some (a :: rest))
    (hact : hubAct text cfg x c.shared a = some r)
    (hwelcome : ∀ env, a ≠ .reply i (.welcome env)) :
    pending (HubAct.callsOnHello i) (afterRun c t rest r) + [a].countP (HubAct.callsOnHello i) =
      pending (HubAct.callsOnHello i) c := by
  have hstart : ∀ b, (b ∈ r.push ∨ ∃ l ∈ r.spawn, b ∈ l) → b.callsOnHello i = false := by
    refine fun b hb => Bool.eq_false_iff.mpr fun hcalls => ?_
    obtain ⟨env, ha⟩ := (hubAct_starts hact hb).of_callsOnHello hcalls
    exact hwelcome env ha
  exact pending_run_of_none hthread (fun b hb => hstart b (.inl hb))
    fun l hl b hb => hstart b (.inr ⟨l, hl, hb⟩)

theorem helloCallsDue_of_other (hthread : c.threads[t]? = some (a :: rest))
    (hact : hubAct text cfg x c.shared a = some r)
    (hwelcome : ∀ env, a ≠ .reply i (.welcome env)) :
    helloCallsDue i (afterRun c t rest r) = helloCallsDue i c := by
  have hpending := pending_callsOnHello hthread hact hwelcome
  have hcalls : r.shared.helloCalls i =
      c.shared.helloCalls i + [a].countP (HubAct.callsOnHello i) := by
    have hout := hubAct_outcome hact
    cases a with
    | call j k =>
      cases hact
      cases k <;> simp [HubState.helloCalls, HubCall.isOnHello, HubAct.callsOnHello]
    | _ =>
      rw [HubState.helloCalls, hout.calls_eq (by simp)]
      rfl
  simp only [helloCallsDue, hcalls]
  omega

theorem welcomesDue_of_other (hcarry : Carries text cfg i c)
    (hthread : c.threads[t]? = some (a :: rest)) (hact : hubAct text cfg x c.shared a = some r)
    (hhello : ∀ env, a ≠ .onHello i env) (hwelcome : ∀ env, a ≠ .reply i (.welcome env)) :
    welcomesDue i (afterRun c t rest r) = welcomesDue i c := by
  have hpending := pending_sendsWelcome hthread hact hhello
  have hself : [a].countP (HubAct.sendsWelcome i) = 0 := by
    refine countP_eq_zero fun b hb => Bool.eq_false_iff.mpr fun hsends => ?_
    obtain rfl := List.mem_singleton.mp hb
    obtain ⟨env, ha⟩ := HubAct.eq_of_sendsWelcome hsends
    exact hwelcome env ha
  simp only [welcomesDue, welcomes_of_other hcarry hthread hact hwelcome]
  omega

/-- `onHello` is about to send one. -/
theorem welcomesDue_onHello {env : Envelope}
    (hthread : c.threads[t]? = some (.onHello i env :: rest))
    (hact : hubAct text cfg x c.shared (.onHello i env) = some r) :
    welcomesDue i (afterRun c t rest r) = welcomesDue i c + 1 := by
  have hpending := pending_afterRun (HubAct.sendsWelcome i) r hthread
  have hpush : r.push.countP (HubAct.sendsWelcome i) = 1 := by
    cases hact
    simp [HubAct.sendsWelcome]
  have hspawn : (r.spawn.map (List.countP (HubAct.sendsWelcome i))).sum = 0 := by
    cases hact
    rfl
  have hself : [HubAct.onHello i env].countP (HubAct.sendsWelcome i) = 0 := rfl
  have hsent : r.shared.welcomes i = c.shared.welcomes i := by
    cases hact
    rfl
  simp only [welcomesDue, hsent]
  omega

/-- The WELCOME is sent and the handler is called next, or its failure closes the
session. -/
theorem due_welcome {env : Envelope}
    (hthread : c.threads[t]? = some (.reply i (.welcome env) :: rest))
    (hact : hubAct text cfg x c.shared (.reply i (.welcome env)) = some r) :
    (welcomesDue i (afterRun c t rest r) = welcomesDue i c ∧
      r.shared.welcomes i = c.shared.welcomes i + 1 ∧
      helloCallsDue i (afterRun c t rest r) = helloCallsDue i c + 1) ∨
    (r.shared.welcomes i = c.shared.welcomes i ∧
      helloCallsDue i (afterRun c t rest r) = helloCallsDue i c ∧
      0 < pending (HubAct.closes i) (afterRun c t rest r)) := by
  have hsends := pending_sendsWelcome hthread hact (i := i) (by simp)
  have hcalls := pending_afterRun (HubAct.callsOnHello i) r hthread
  have hself : [HubAct.reply i (.welcome env)].countP (HubAct.sendsWelcome i) = 1 := by
    simp [HubAct.sendsWelcome]
  have hself' : [HubAct.reply i (.welcome env)].countP (HubAct.callsOnHello i) = 0 := rfl
  have hspawn : (r.spawn.map (List.countP (HubAct.callsOnHello i))).sum = 0 := by
    simp only [hubAct] at hact
    split at hact <;> cases hact
    rfl
  have hlog : r.shared.helloCalls i = c.shared.helloCalls i := by
    rw [HubState.helloCalls, (hubAct_outcome hact).calls_eq (by simp)]
    rfl
  simp only [hubAct] at hact
  split at hact
  · cases hact
  have hshared : r.shared = (c.shared.reply cfg x i (.welcome env)).1 := by
    cases hact
    rfl
  have hpush : r.push = (Reply.welcome env).next i (c.shared.reply cfg x i (.welcome env)).2 := by
    cases hact
    rfl
  obtain heq | ⟨sent, htype, heq⟩ := reply_cases cfg c.shared x i (.welcome env)
  · have hsent : r.shared.welcomes i = c.shared.welcomes i := by rw [hshared, heq]
    have hclose : .close i ∈ r.push := by simp [hpush, heq, Reply.next]
    have hnone : r.push.countP (HubAct.callsOnHello i) = 0 := by
      simp [hpush, heq, Reply.next, HubAct.callsOnHello]
    refine .inr ⟨hsent, ?_, pending_pos_run hthread hclose (decide_eq_true rfl)⟩
    simp only [helloCallsDue, hlog]
    omega
  · have hsent : r.shared.welcomes i = c.shared.welcomes i + 1 := by
      simp [hshared, heq, HubState.welcomes, htype, Reply.type]
    have hone : r.push.countP (HubAct.callsOnHello i) = 1 := by
      simp [hpush, heq, Reply.next, HubAct.callsOnHello]
    refine .inl ⟨?_, hsent, ?_⟩
    · simp only [welcomesDue, hsent]
      omega
    · simp only [helloCallsDue, hlog]
      omega

/-! ## The invariant -/

structure WelcomeOnce (i : Nat) (c : HubConf) : Prop where
  inactive : (c.shared.peer i).active = false → welcomesDue i c = 0
  active : (c.shared.peer i).active = true → welcomesDue i c = 1 ∨
    (c.shared.peer i).closed = true ∨ 0 < pending (HubAct.closes i) c
  calls : helloCallsDue i c = c.shared.welcomes i
  torn : (c.shared.peer i).closed = true → (c.shared.peer i).status = .closed ∨
    0 < pending (HubAct.tearsDown i) c

/-- A HELLO is not stored for a link that is registered, `onHello` is entered once,
and `session.close` finds the link not stale. -/
def HubAct.keepsWelcome (i : Nat) (c : HubConf) : HubAct → Bool
  | .bufferHello j _ => j = i → (c.shared.peer i).registerOnce = .fresh ∨
      0 < pending (HubAct.registers i) c
  | .onHello j _ => j = i → (c.shared.peer i).active = false
  | .teardown j => j = i → (c.shared.peer i).status ≠ .stale
  | _ => true

/-- A session that is being closed is closed in the end. -/
theorem closing_run (hthread : c.threads[t]? = some (a :: rest))
    (hact : hubAct text cfg x c.shared a = some r)
    (h : (c.shared.peer i).closed = true ∨ 0 < pending (HubAct.closes i) c) :
    (r.shared.peer i).closed = true ∨ 0 < pending (HubAct.closes i) (afterRun c t rest r) := by
  obtain hclosed | hpos := h
  · exact .inl (closed_mono (hubAct_outcome hact).peersAfter hclosed)
  · by_cases ha : a.closes i = true
    · cases a with
      | close j =>
        obtain rfl : j = i := of_decide_eq_true ha
        simp only [hubAct] at hact
        split at hact
        · cases hact
        · split at hact <;> cases hact
          · exact .inl ‹_›
          · exact .inl (by simp)
      | _ => cases ha
    · exact .inr (hpos.trans_le (pending_le_run hthread (by simpa using ha)))

theorem WelcomeOnce.active_run (h : WelcomeOnce i c) (hcarry : Carries text cfg i c)
    (hthread : c.threads[t]? = some (a :: rest)) (hact : hubAct text cfg x c.shared a = some r)
    (hgood : a.keepsWelcome i c) (hactive : (r.shared.peer i).active = true) :
    welcomesDue i (afterRun c t rest r) = 1 ∨ (r.shared.peer i).closed = true ∨
      0 < pending (HubAct.closes i) (afterRun c t rest r) := by
  by_cases hhello : ∃ env, a = .onHello i env
  · obtain ⟨env, rfl⟩ := hhello
    have hinactive := h.inactive (of_decide_eq_true hgood rfl)
    exact .inl (by rw [welcomesDue_onHello hthread hact, hinactive])
  have hold : (c.shared.peer i).active = true := by
    obtain heq | ⟨hhello', -⟩ := (hubAct_outcome hact).peersAfter.active i
    · exact heq ▸ hactive
    · exact absurd hhello' hhello
  obtain hone | hclosing := h.active hold
  · by_cases hwelcome : ∃ env, a = .reply i (.welcome env)
    · obtain ⟨env, rfl⟩ := hwelcome
      obtain ⟨hdue, -⟩ | ⟨-, -, hpos⟩ := due_welcome hthread hact
      · exact .inl (hdue.trans hone)
      · exact .inr (.inr hpos)
    · refine .inl ((welcomesDue_of_other hcarry hthread hact ?_ ?_).trans hone)
      · exact fun env ha => hhello ⟨env, ha⟩
      · exact fun env ha => hwelcome ⟨env, ha⟩
  · exact .inr (closing_run hthread hact hclosing)

theorem WelcomeOnce.inactive_run (h : WelcomeOnce i c) (hcarry : Carries text cfg i c)
    (hthread : c.threads[t]? = some (a :: rest)) (hact : hubAct text cfg x c.shared a = some r)
    (hinactive : (r.shared.peer i).active = false) : welcomesDue i (afterRun c t rest r) = 0 := by
  have hafter := (hubAct_outcome hact).peersAfter
  have hold : welcomesDue i c = 0 := h.inactive <| Bool.eq_false_iff.mpr fun hactive =>
    Bool.eq_false_iff.mp hinactive (active_mono hafter hactive)
  rw [welcomesDue_of_other hcarry hthread hact, hold]
  · rintro env rfl
    cases hact
    simp at hinactive
  · rintro env rfl
    have hpos : 0 < pending (HubAct.sendsWelcome i) c :=
      pending_pos hthread List.mem_cons_self (decide_eq_true rfl)
    simp only [welcomesDue] at hold
    omega

theorem WelcomeOnce.calls_run (h : WelcomeOnce i c) (hcarry : Carries text cfg i c)
    (hthread : c.threads[t]? = some (a :: rest)) (hact : hubAct text cfg x c.shared a = some r) :
    helloCallsDue i (afterRun c t rest r) = r.shared.welcomes i := by
  have hcalls := h.calls
  by_cases hwelcome : ∃ env, a = .reply i (.welcome env)
  · obtain ⟨env, rfl⟩ := hwelcome
    obtain ⟨-, hsent, hdue⟩ | ⟨hsent, hdue, -⟩ := due_welcome hthread hact <;> omega
  · have hother : ∀ env, a ≠ .reply i (.welcome env) := fun env ha => hwelcome ⟨env, ha⟩
    rw [helloCallsDue_of_other hthread hact hother, welcomes_of_other hcarry hthread hact hother]
    exact hcalls

theorem linkClosed_mono (h : a.PeersAfter s s') (hi : (s.peer i).status = .closed) :
    (s'.peer i).status = .closed := by
  obtain heq | ⟨-, heq⟩ := h.status i
  · exact heq.trans hi
  · exact heq

theorem WelcomeOnce.torn_run (h : WelcomeOnce i c) (hthread : c.threads[t]? = some (a :: rest))
    (hact : hubAct text cfg x c.shared a = some r) (hgood : a.keepsWelcome i c)
    (hclosed : (r.shared.peer i).closed = true) :
    (r.shared.peer i).status = .closed ∨
      0 < pending (HubAct.tearsDown i) (afterRun c t rest r) := by
  have hafter := (hubAct_outcome hact).peersAfter
  cases hold : (c.shared.peer i).closed with
  | true =>
    obtain hstatus | hpos := h.torn hold
    · exact .inl (linkClosed_mono hafter hstatus)
    · by_cases ha : a.tearsDown i = true
      · cases a with
        | teardown j =>
          obtain rfl : j = i := of_decide_eq_true ha
          have hstale : (c.shared.peer j).status ≠ .stale := of_decide_eq_true hgood rfl
          simp only [hubAct] at hact
          split at hact <;> cases hact
          · exact .inl (by simp)
          · cases hstatus : (c.shared.peer j).status with
            | active => exact absurd hstatus ‹_›
            | stale => exact absurd hstatus hstale
            | closed => exact .inl rfl
        | _ => cases ha
      · exact .inr (hpos.trans_le (pending_le_run hthread (by simpa using ha)))
  | false =>
    obtain heq | ⟨rfl, -⟩ := hafter.closed i
    · exact absurd (heq ▸ hclosed) (by simp [hold])
    · have hpush : .teardown i ∈ r.push := by
        simp only [hubAct, hold] at hact
        split at hact <;> cases hact
        simp
      exact .inr (pending_pos_run hthread hpush (decide_eq_true rfl))

theorem WelcomeOnce.run (h : WelcomeOnce i c) (hcarry : Carries text cfg i c)
    (hthread : c.threads[t]? = some (a :: rest)) (hact : hubAct text cfg x c.shared a = some r)
    (hgood : a.keepsWelcome i c) : WelcomeOnce i (afterRun c t rest r) where
  inactive := h.inactive_run hcarry hthread hact
  active := h.active_run hcarry hthread hact hgood
  calls := h.calls_run hcarry hthread hact
  torn := h.torn_run hthread hact hgood

/-! ## Events from outside -/

/-- A closed link is not opened again. -/
theorem hubEnv_closed {e : HubEvent} (h : hubEnv s e = some r)
    (hi : (s.peer i).status = .closed) : (r.shared.peer i).status = .closed := by
  have hreceive : ∀ {j b}, s.receive j b = some r → (r.shared.peer i).status = .closed := by
    intro j b hb
    simp only [HubState.receive] at hb
    split at hb <;> cases hb
    rename_i hopen
    rw [HubState.set_peer, if_neg, hi]
    rintro rfl
    exact hopen (.inr hi)
  cases e with
  | established | close => cases h; exact hi
  | packet j data => exact hreceive h
  | identify j hash =>
    simp only [hubEnv] at h
    split at h
    · cases h
    · exact hreceive h
  | linkStale j =>
    simp only [hubEnv] at h
    split at h <;> cases h
    rename_i hactive
    rw [HubState.set_peer, if_neg, hi]
    rintro rfl
    cases hi.symm.trans hactive.2
  | linkClosed j =>
    simp only [hubEnv] at h
    split at h <;> cases h
    rw [HubState.set_peer]
    split
    · rfl
    · exact hi

theorem hubEnv_startsNone {e : HubEvent} {l : List HubAct} (h : hubEnv s e = some r)
    (hl : l ∈ r.spawn) (hb : b ∈ l) : b.sendsWelcome i = false ∧ b.callsOnHello i = false := by
  cases hubEnv_starts h hl hb with
  | established hmem => exact mem_acceptLink_cases hmem ⟨rfl, rfl⟩ ⟨rfl, rfl⟩ ⟨rfl, rfl⟩ ⟨rfl, rfl⟩ ⟨rfl, rfl⟩
  | packet _ | identify _ _ | close => exact ⟨rfl, rfl⟩

theorem WelcomeOnce.env (h : WelcomeOnce i c) {e : HubEvent} (henv : hubEnv c.shared e = some r) :
    WelcomeOnce i ⟨r.shared, c.threads ++ r.spawn⟩ := by
  obtain ⟨status, heq⟩ := hubEnv_at henv i
  obtain ⟨hsent, hlog⟩ := hubEnv_outputs henv
  have hle : ∀ p : HubAct → Bool, pending p c ≤ pending p ⟨r.shared, c.threads ++ r.spawn⟩ :=
    fun p => pending_le_env
  have hwelcomes : r.shared.welcomes i = c.shared.welcomes i := by
    simp only [HubState.welcomes, hsent]
  have hdue : welcomesDue i ⟨r.shared, c.threads ++ r.spawn⟩ = welcomesDue i c := by
    simp only [welcomesDue, hwelcomes]
    rw [pending_env_of_none fun l hl b hb => (hubEnv_startsNone henv hl hb).1]
  have hcalls : helloCallsDue i ⟨r.shared, c.threads ++ r.spawn⟩ = helloCallsDue i c := by
    simp only [helloCallsDue, HubState.helloCalls, hlog]
    rw [pending_env_of_none fun l hl b hb => (hubEnv_startsNone henv hl hb).2]
  refine ⟨fun hinactive => ?_, fun hactive => ?_, ?_, fun hclosed => ?_⟩
  · rw [heq] at hinactive
    exact hdue.trans (h.inactive hinactive)
  · rw [heq] at hactive ⊢
    obtain hone | hclosed | hpos := h.active hactive
    · exact .inl (hdue.trans hone)
    · exact .inr (.inl hclosed)
    · exact .inr (.inr (hpos.trans_le (hle _)))
  · exact hcalls.trans (h.calls.trans hwelcomes.symm)
  · obtain hstatus | hpos := h.torn (by rwa [heq] at hclosed)
    · exact .inl (hubEnv_closed henv hstatus)
    · exact .inr (hpos.trans_le (hle _))

/-! ## Runs -/

/-- The HELLOs that arrive on link `i` have acceptable nicknames. -/
def HelloNicksAccepted (text : GoText) (cfg : HubConfig) (i : Nat) (_ : HubConf) :
    Event HubChoice HubEvent → Prop
  | .env (.packet j (some env)) => j = i → HelloAccepted text cfg env
  | _ => True

/-- No step strands a HELLO of link `i`, welcomes it again or leaves it half closed. -/
def GoodWelcome (i : Nat) (c : HubConf) : Event HubChoice HubEvent → Prop
  | .run t _ => ∀ a ∈ c.next t, a.keepsWelcome i c
  | .env _ => True

instance {text : GoText} {cfg : HubConfig} {i : Nat} {c : HubConf}
    {e : Event HubChoice HubEvent} : Decidable (HelloNicksAccepted text cfg i c e) :=
  match e with
  | .run _ _ => .isTrue trivial
  | .env e =>
    match e with
    | .packet j (some env) =>
      inferInstanceAs (Decidable (j = i → env.type = typeHello → env.hasNick = false ∨
        (sanitizeNick text env.nick).length ≤ cfg.limits.maxNickBytes))
    | .packet _ none | .established | .identify .. | .linkStale _ | .linkClosed _ | .close =>
      .isTrue trivial

instance {i : Nat} {c : HubConf} {e : Event HubChoice HubEvent} : Decidable (GoodWelcome i c e) :=
  match e with
  | .run t _ => inferInstanceAs (Decidable (∀ a ∈ c.next t, a.keepsWelcome i c = true))
  | .env _ => .isTrue trivial

/-- All that is known of link `i` along such a run. -/
structure Welcoming (text : GoText) (cfg : HubConfig) (i : Nat) (c : HubConf) : Prop where
  registration : Registration c
  carries : Carries text cfg i c
  identified : Identified i c
  stored : HelloStored i c
  once : WelcomeOnce i c

theorem hubInit_welcoming : Welcoming text cfg i hubInit where
  registration := hubInit_registration
  carries := by constructor <;> simp [hubInit, Discipline.EachKeeps, Each]
  identified := by constructor <;> simp [hubInit]
  stored := by simp [hubInit, HelloStored]
  once := by
    constructor <;>
      simp [hubInit, welcomesDue, helloCallsDue, HubState.welcomes, HubState.helloCalls, pending]

theorem Welcoming.step (h : Welcoming text cfg i c) {e : Event HubChoice HubEvent}
    (hstep : hubStep text cfg c e = some c')
    (hgood : HelloNicksAccepted text cfg i c e ∧ GoodWelcome i c e) :
    Welcoming text cfg i c' := by
  cases Program.steps_of_step hstep with
  | run hthread hact =>
    have hkeeps := hgood.2 _ (Config.next_eq hthread)
    refine ⟨h.registration.run hthread hact, h.carries.run hthread hact,
      h.identified.run h.registration h.carries hthread hact,
      h.stored.run h.registration hthread hact ?_, h.once.run h.carries hthread hact hkeeps⟩
    rintro env rfl ⟨honce, hzero⟩
    obtain hfresh | hpos := of_decide_eq_true hkeeps rfl
    · exact honce hfresh
    · omega
  | env henv =>
    refine ⟨h.registration.env henv, h.carries.env henv ?_, h.identified.env henv,
      h.stored.env henv, h.once.env henv⟩
    rintro data rfl env rfl
    exact hgood.1 rfl

theorem HelloAlive.step (h : HelloAlive i c) (hw : Welcoming text cfg i c)
    {e : Event HubChoice HubEvent} (hstep : hubStep text cfg c e = some c') : HelloAlive i c' := by
  cases Program.steps_of_step hstep with
  | run hthread hact => exact h.run hw.registration hw.carries hthread hact
  | env henv => exact h.env henv

theorem Welcoming.step_alive (h : Welcoming text cfg i c ∧ HelloAlive i c)
    {e : Event HubChoice HubEvent} (hstep : hubStep text cfg c e = some c')
    (hgood : HelloNicksAccepted text cfg i c e ∧ GoodWelcome i c e) :
    Welcoming text cfg i c' ∧ HelloAlive i c' :=
  ⟨h.1.step hstep hgood, h.2.step h.1 hstep⟩

/-- A goroutine is about to handle a HELLO of link `i`. -/
def HubAct.handlesHello (i : Nat) : HubAct → Bool
  | .handleInbound j (some env) => j = i ∧ env.type = typeHello
  | _ => false

theorem HubAct.carriesHello_of_handlesHello (h : a.handlesHello i = true) :
    a.carriesHello i = true := by
  cases a with
  | handleInbound j data =>
    cases data with
    | none => cases h
    | some env => exact h
  | _ => cases h

/-- The link and session an action works for, if it is one of them. -/
def HubAct.session : HubAct → Option Nat
  | .setPacketCallback i | .takePending i | .assignSess i | .setIdentifiedCallback i
  | .acceptReadRemote i | .deliver i _ | .queuePlain i _ | .checkRemote i _ | .setRemote i _
  | .fireIdentified i _ | .handleInbound i _ | .onMsg i _ | .readRemote i _ | .bufferHello i _
  | .recheck i _ | .register i _ | .setHash i _ | .registerLocked i | .onceDone i
  | .handlePeer i _ | .applyInboundNick i _ _ | .onHello i _ | .onJoin i _ | .onPart i _
  | .onRoomContent i _ | .relay i _ _ | .reply i _ | .forward i _ | .call i _ | .close i
  | .teardown i | .dropPeerIf i => some i
  | .hubClose => none

/-- Nothing is left to do for link `i`. -/
def HandlersFinished (i : Nat) (c : HubConf) : Prop :=
  ∀ l ∈ c.threads, ∀ a ∈ l, a.session ≠ some i

theorem HandlersFinished.pending (h : HandlersFinished i c) {p : HubAct → Bool}
    (hp : ∀ a, p a = true → a.session = some i) : pending p c = 0 :=
  pending_eq_zero fun l hl a ha => Bool.eq_false_iff.mpr fun hpa => h l hl a ha (hp a hpa)

theorem handlersFinished_of_isEmpty (h : c.threads.all List.isEmpty = true) :
    HandlersFinished i c := by
  intro l hl a ha
  rw [quiescent_of_isEmpty h l hl] at ha
  cases ha

theorem HubAct.session_of_carriesHello (h : a.carriesHello i = true) : a.session = some i := by
  cases a with
  | handleInbound j data =>
    cases data with
    | none => cases h
    | some env => rw [HubAct.session, (of_decide_eq_true h).1]
  | applyInboundNick j env active =>
    cases active with
    | true => cases h
    | false => rw [HubAct.session, (of_decide_eq_true h).1]
  | onMsg j env | readRemote j env | bufferHello j env | recheck j env | handlePeer j env
  | onHello j env => rw [HubAct.session, (of_decide_eq_true h).1]
  | _ => cases h

theorem HubAct.session_of_tearsDown (h : a.tearsDown i = true) : a.session = some i := by
  cases a with
  | teardown j => rw [HubAct.session, of_decide_eq_true h]
  | _ => cases h

theorem HubAct.session_of_closes (h : a.closes i = true) : a.session = some i := by
  cases a with
  | close j => rw [HubAct.session, of_decide_eq_true h]
  | _ => cases h

theorem HubAct.session_of_registers (h : a.registers i = true) : a.session = some i := by
  cases a with
  | registerLocked j => rw [HubAct.session, of_decide_eq_true h]
  | _ => cases h

/-- An identified link is registered when its handlers are done. -/
theorem Welcoming.registered (hw : Welcoming text cfg i c)
    (hidentified : (c.shared.peer i).remoteIdentity ≠ none) (hfinished : HandlersFinished i c) :
    Registered c i := by
  refine ⟨?_, hfinished.pending fun a => HubAct.session_of_registers⟩
  obtain honce | hpos | hpos | ⟨hpos, -⟩ := hw.identified.registering hidentified
  · exact honce
  · refine absurd (hfinished.pending fun a ha => ?_) hpos.ne'
    obtain ⟨hash, rfl⟩ := HubAct.eq_of_callsRegister ha
    rfl
  · refine absurd (hfinished.pending fun a ha => ?_) hpos.ne'
    obtain rfl := HubAct.eq_of_readsOnAccept ha
    rfl
  · refine absurd (hfinished.pending fun a ha => ?_) hpos.ne'
    obtain ⟨hash, rfl⟩ := HubAct.eq_of_fires ha
    rfl

/-- Once everything is done, no count has anything left to come. -/
theorem Welcoming.finished (hw : Welcoming text cfg i c) (halive : HelloAlive i c)
    (hidentified : (c.shared.peer i).remoteIdentity ≠ none) (hfinished : HandlersFinished i c)
    (hopen : (c.shared.peer i).status ≠ .closed) :
    c.shared.welcomes i = 1 ∧ c.shared.helloCalls i = 1 ∧ (c.shared.peer i).active = true := by
  have hactive : (c.shared.peer i).active = true := by
    obtain hactive | hpending | hpos := halive
    · exact hactive
    · exact absurd (hw.registered hidentified hfinished) (hw.stored hpending)
    · exact absurd (hfinished.pending fun a => HubAct.session_of_carriesHello) hpos.ne'
  have hcalls := hw.once.calls
  have hsends : pending (HubAct.sendsWelcome i) c = 0 := hfinished.pending fun a ha => by
    obtain ⟨env, rfl⟩ := HubAct.eq_of_sendsWelcome ha
    rfl
  have hupcoming : pending (HubAct.callsOnHello i) c = 0 := hfinished.pending fun a ha => by
    obtain ⟨env, rfl⟩ := HubAct.eq_of_callsOnHello ha
    rfl
  obtain hone | hclosed | hpos := hw.once.active hactive
  · simp only [welcomesDue] at hone
    simp only [helloCallsDue] at hcalls
    exact ⟨by omega, by omega, hactive⟩
  · obtain hstatus | hpos := hw.once.torn hclosed
    · exact absurd hstatus hopen
    · exact absurd (hfinished.pending fun a => HubAct.session_of_tearsDown) hpos.ne'
  · exact absurd (hfinished.pending fun a => HubAct.session_of_closes) hpos.ne'

/-- A link on which a HELLO has been handled, in a run of good steps, has been sent
exactly one WELCOME once it is identified and its handlers are done, if it is
still open. -/
theorem one_welcome_per_session (text : GoText) (cfg : HubConfig) (i t : Nat)
    (es₁ es₂ : List (Event HubChoice HubEvent)) (c₁ c : HubConf)
    (hrun₁ : run (hubStep text cfg) hubInit es₁ = some c₁)
    (hhandled : (c₁.next t).any (HubAct.handlesHello i) = true)
    (hrun₂ : run (hubStep text cfg) c₁ es₂ = some c)
    (hnicks : AllSteps (hubStep text cfg) (HelloNicksAccepted text cfg i) hubInit (es₁ ++ es₂))
    (hgood : AllSteps (hubStep text cfg) (GoodWelcome i) hubInit (es₁ ++ es₂))
    (hidentified : (c.shared.peer i).remoteIdentity ≠ none) (hfinished : HandlersFinished i c)
    (hopen : (c.shared.peer i).status ≠ .closed) :
    c.shared.welcomes i = 1 ∧ c.shared.helloCalls i = 1 ∧ (c.shared.peer i).active = true := by
  obtain ⟨hgood₁, hgood₂⟩ := (hnicks.and hgood).of_append hrun₁
  have hw₁ : Welcoming text cfg i c₁ :=
    run_of_good (fun h h' => h.step h') hubInit_welcoming hgood₁ hrun₁
  have halive₁ : HelloAlive i c₁ := by
    obtain ⟨a, hnext, ha⟩ := (Option.any_eq_true _ _).mp hhandled
    obtain ⟨rest, hthread⟩ := Config.thread_of_next hnext
    exact .inr (.inr (pending_pos hthread List.mem_cons_self (a.carriesHello_of_handlesHello ha)))
  obtain ⟨hw, halive⟩ : Welcoming text cfg i c ∧ HelloAlive i c :=
    run_of_good (fun h h' => Welcoming.step_alive h h') ⟨hw₁, halive₁⟩ hgood₂ hrun₂
  exact hw.finished halive hidentified hfinished hopen

/-- The run of `sampleBuffered` up to the handling of its HELLO. -/
def bufferedDelivery : List (Event HubChoice HubEvent) :=
  [.env .established] ++ turns 0 5 ++ [.env (.packet 0 (some sampleHello))] ++ turns 1 1

/-- The rest of it: the HELLO is stored, and the registration answers it. -/
def bufferedAnswer : List (Event HubChoice HubEvent) :=
  turns 2 4 ++ [.env (.identify 0 sampleIdentity)] ++ turns 3 12

theorem buffered_hello_welcomed_once :
    ∃ c, run (hubStep .ascii sampleHub) hubInit (bufferedDelivery ++ bufferedAnswer) = some c ∧
      c.shared.welcomes 0 = 1 ∧ c.shared.helloCalls 0 = 1 ∧ (c.shared.peer 0).active = true := by
  have hend : (run (hubStep .ascii sampleHub) hubInit bufferedDelivery).bind (fun c₁ =>
      (run (hubStep .ascii sampleHub) c₁ bufferedAnswer).map fun c =>
        ((c₁.next 2).any (HubAct.handlesHello 0), (c.shared.peer 0).remoteIdentity,
          c.threads.all List.isEmpty, (c.shared.peer 0).status)) =
      some (true, some sampleIdentity, true, .active) := by
    decide +kernel
  obtain ⟨c₁, hrun₁, hend⟩ := Option.bind_eq_some_iff.mp hend
  obtain ⟨c, hrun₂, heq⟩ := Option.map_eq_some_iff.mp hend
  simp only [Prod.mk.injEq] at heq
  obtain ⟨hhandled, hremote, hthreads, hstatus⟩ := heq
  refine ⟨c, run_append.mpr ⟨c₁, hrun₁, hrun₂⟩, ?_⟩
  exact one_welcome_per_session .ascii sampleHub 0 2 bufferedDelivery bufferedAnswer c₁ c hrun₁
    hhandled hrun₂ (by decide +kernel) (by decide +kernel) (by simp [hremote])
    (handlersFinished_of_isEmpty hthreads) (by simp [hstatus])

/-- The HELLO's handler reads that the link is not identified; then the link is
identified and registered; then the HELLO is stored. -/
def strandedHello : List (Event HubChoice HubEvent) :=
  turns 2 3 ++ [.env (.identify 0 sampleIdentity)] ++ turns 3 7 ++ turns 2 1

/-- Two HELLOs on a registered link, up to the handling of the first. -/
def twoDeliveries : List (Event HubChoice HubEvent) :=
  sampleRegistration ++ [.env (.packet 0 (some sampleHello)), .env (.packet 0 (some sampleHello))] ++
  turns 2 1 ++ turns 3 1

/-- Both handlers read the active flag before either of them sets it. -/
def twoAnswers : List (Event HubChoice HubEvent) := turns 4 3 ++ turns 5 3 ++ turns 4 4 ++ turns 5 4

/-- Two runs in a row that end with no handler running, and how often the link is welcomed. -/
theorem welcomes_of_runs {es es' : List (Event HubChoice HubEvent)} {t n : Nat}
    (h : (run (hubStep .ascii sampleHub) hubInit es).bind (fun c₁ =>
      (run (hubStep .ascii sampleHub) c₁ es').map fun c =>
        ((c₁.next t).any (HubAct.handlesHello 0), (c.shared.peer 0).remoteIdentity,
          c.threads.all List.isEmpty, (c.shared.peer 0).status, c.shared.welcomes 0)) =
      some (true, some sampleIdentity, true, .active, n))
    (hnicks : AllSteps (hubStep .ascii sampleHub) (HelloNicksAccepted .ascii sampleHub 0) hubInit (es ++ es')) :
    ∃ c₁ c, run (hubStep .ascii sampleHub) hubInit es = some c₁ ∧
      (c₁.next t).any (HubAct.handlesHello 0) = true ∧
      run (hubStep .ascii sampleHub) c₁ es' = some c ∧
      AllSteps (hubStep .ascii sampleHub) (HelloNicksAccepted .ascii sampleHub 0) hubInit (es ++ es') ∧
      (c.shared.peer 0).remoteIdentity ≠ none ∧ HandlersFinished 0 c ∧
      (c.shared.peer 0).status ≠ .closed ∧ c.shared.welcomes 0 = n := by
  obtain ⟨c₁, hrun₁, hend⟩ := Option.bind_eq_some_iff.mp h
  obtain ⟨c, hrun₂, heq⟩ := Option.map_eq_some_iff.mp hend
  simp only [Prod.mk.injEq] at heq
  obtain ⟨hhandled, hremote, hthreads, hstatus, hwelcomes⟩ := heq
  exact ⟨c₁, c, hrun₁, hhandled, hrun₂, hnicks, by simp [hremote], handlersFinished_of_isEmpty hthreads,
    by simp [hstatus], hwelcomes⟩

/-- The first of these links is never welcomed, the second one twice. -/
theorem no_welcome_and_two_welcomes :
    (∃ c₁ c, run (hubStep .ascii sampleHub) hubInit bufferedDelivery = some c₁ ∧
      (c₁.next 2).any (HubAct.handlesHello 0) = true ∧
      run (hubStep .ascii sampleHub) c₁ strandedHello = some c ∧
      AllSteps (hubStep .ascii sampleHub) (HelloNicksAccepted .ascii sampleHub 0) hubInit
        (bufferedDelivery ++ strandedHello) ∧
      (c.shared.peer 0).remoteIdentity ≠ none ∧ HandlersFinished 0 c ∧
      (c.shared.peer 0).status ≠ .closed ∧ c.shared.welcomes 0 = 0) ∧
    ∃ c₁ c, run (hubStep .ascii sampleHub) hubInit twoDeliveries = some c₁ ∧
      (c₁.next 4).any (HubAct.handlesHello 0) = true ∧
      run (hubStep .ascii sampleHub) c₁ twoAnswers = some c ∧
      AllSteps (hubStep .ascii sampleHub) (HelloNicksAccepted .ascii sampleHub 0) hubInit
        (twoDeliveries ++ twoAnswers) ∧
      (c.shared.peer 0).remoteIdentity ≠ none ∧ HandlersFinished 0 c ∧
      (c.shared.peer 0).status ≠ .closed ∧ c.shared.welcomes 0 = 2 := by
  refine ⟨welcomes_of_runs ?_ ?_, welcomes_of_runs ?_ ?_⟩ <;> decide +kernel

end Rrc
