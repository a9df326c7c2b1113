-- SUMMARY: Which session is the current one of its identity, and what closing the others does.
import ReticulumMf.Rrc.LinkClose

/-!
# Sessions of one identity

An identity may open several links; the session that registers last displaces the
one before it. A ledger kept beside the run notes who registered last, whose
`dropPeerIf` has run and who was displaced. `h.peers` agrees with it as long as no
session registers whose close has already run: such a session is left in
`h.peers` for good. Displaced sessions do no harm, and `OnClose` is called once at
most.
-/

namespace Rrc

open Threads Transition

variable {text : GoText} {cfg : HubConfig} {t : Nat} {x : HubChoice} {s s' : HubState} {a : HubAct}
  {r : Effect HubState HubAct} {i j : Nat} {c c' : HubConf} {rest : List HubAct}

/-! ## The ledger -/

/-- What has happened to the sessions so far. -/
structure Ledger where
  /-- The session of an identity that registered last since the hub was last closed. -/
  last : Bytes → Option Nat := fun _ => none
  /-- The sessions whose own close has run, down to the critical section of `dropPeerIf`. -/
  closed : Nat → Bool := fun _ => false
  /-- The sessions that another registration took out of `h.peers`. -/
  displaced : Nat → Bool := fun _ => false

def Ledger.after (s : HubState) (g : Ledger) : HubAct → Ledger
  | .registerLocked i =>
    { g with
      last := Function.update g.last (s.peer i).peerHash (some i)
      displaced := fun j => g.displaced j || (s.registerLocked i).2.1 = some j }
  | .dropPeerIf i => { g with closed := Function.update g.closed i true }
  | .hubClose => { g with last := fun _ => none }
  | _ => g

def Ledger.note (c : HubConf) (e : Event HubChoice HubEvent) (g : Ledger) : Ledger :=
  match e with
  | .run t _ => (c.next t).elim g (g.after c.shared)
  | .env _ => g

/-- A step of the hub, with the ledger. -/
abbrev ledgerStep (text : GoText) (cfg : HubConfig) :
    HubConf × Ledger → Event HubChoice HubEvent → Option (HubConf × Ledger) :=
  recorded (hubStep text cfg) Ledger.note

def ledgerInit : HubConf × Ledger := (hubInit, {})

/-- `h.peers` holds the session of each identity that registered last, and nothing
if that session's own close has run. -/
def Ledger.Agrees (g : Ledger) (s : HubState) : Prop :=
  ∀ k i, s.peers.lookup k = some i ↔ g.last k = some i ∧ g.closed i = false

/-- A registration does not come after the close of its own session. -/
def RegistersOpen (p : HubConf × Ledger) : Event HubChoice HubEvent → Prop
  | .run t _ => ∀ i, p.1.next t = some (.registerLocked i) → p.2.closed i = false
  | .env _ => True

/-! ## OnClose -/

def HubCall.isOnClose : HubCall → Bool
  | .onClose => true
  | _ => false

def HubAct.callsOnClose (i : Nat) : HubAct → Bool
  | .call j k => j = i && k.isOnClose
  | _ => false

/-- How often `OnClose` has been called for a session. -/
def HubState.closeCalls (s : HubState) (i : Nat) : Nat :=
  s.calls.countP fun e => e.1 = i && e.2.isOnClose

/-- How often it has been called or is about to be. -/
def closings (c : HubConf) (i : Nat) : Nat :=
  c.shared.closeCalls i + pending (HubAct.callsOnClose i) c

theorem leads_callsOnClose {b : HubAct} (h : a.Leads s b) (hb : b.callsOnClose i = true) :
    a = .dropPeerIf i := by
  cases h with
  | callOnClose =>
    simp only [HubAct.callsOnClose, Bool.and_eq_true, decide_eq_true_eq] at hb
    rw [hb.1]
  | relayed | callOnHello | callOnJoin | callOnPart =>
    simp [HubAct.callsOnClose, HubCall.isOnClose] at hb
  | _ => cases hb

theorem dropPeerIf_eq_none (hi : ¬s.Listed i) : s.dropPeerIf i = none := by
  cases hdrop : s.dropPeerIf i with
  | none => rfl
  | some s' => exact absurd ⟨_, (dropPeerIf_some hdrop).1⟩ hi

theorem Registration.dropPeerIf_eq_some (h : Registration c) (hi : c.shared.Listed i) :
    c.shared.dropPeerIf i = some (c.shared.removePeer i) := by
  have hhash : (c.shared.peer i).peerHash ≠ [] := h.listed hi
  have hcur : c.shared.peers.lookup (c.shared.peer i).peerHash = some i :=
    h.listed_iff_current.mp hi
  simp [HubState.dropPeerIf, hhash, hcur]

/-- Only dropping a current session sets off a call of `OnClose`. -/
theorem closings_run (hthread : c.threads[t]? = some (a :: rest))
    (hact : hubAct text cfg x c.shared a = some r) (i : Nat) :
    closings (afterRun c t rest r) i = closings c i ∨
      a = .dropPeerIf i ∧ c.shared.Listed i ∧ closings (afterRun c t rest r) i = closings c i + 1 := by
  have hpending := pending_afterRun (HubAct.callsOnClose i) r hthread
  cases a with
  | call j k =>
    cases hact
    have hone : [HubAct.call j k].countP (HubAct.callsOnClose i) =
        [(j, k)].countP fun e => e.1 = i && e.2.isOnClose := by
      simp [List.countP_singleton, HubAct.callsOnClose]
    refine .inl ?_
    simp only [closings, HubState.closeCalls, List.countP_append, List.countP_nil, List.map_nil,
      List.sum_nil] at hpending ⊢
    omega
  | dropPeerIf j =>
    simp only [hubAct] at hact
    split at hact <;> cases hact
    · exact .inl (congrArg (c.shared.closeCalls i + ·) hpending)
    · obtain ⟨hcur, rfl⟩ := dropPeerIf_some ‹_›
      by_cases hj : j = i
      · subst hj
        refine .inr ⟨rfl, ⟨_, hcur⟩, ?_⟩
        simpa [closings, HubState.closeCalls, HubState.removePeer, HubAct.callsOnClose,
          HubCall.isOnClose, Nat.add_assoc] using hpending
      · refine .inl ?_
        simpa [closings, HubState.closeCalls, HubState.removePeer, HubAct.callsOnClose,
          HubCall.isOnClose, hj] using hpending
  | _ =>
    have hnone : ∀ b, (b ∈ r.push ∨ ∃ l ∈ r.spawn, b ∈ l) → b.callsOnClose i = false := by
      intro b hb
      refine Bool.eq_false_iff.mpr fun hcall => ?_
      cases leads_callsOnClose (hubAct_starts hact hb) hcall
    have hzero := pending_run_of_none (r := r) hthread (fun b hb => hnone b (.inl hb))
      (fun l hl b hb => hnone b (.inr ⟨l, hl, hb⟩))
    have hcalls := (hubAct_outcome hact).calls_eq (by simp)
    refine .inl ?_
    simp only [closings, HubState.closeCalls, hcalls]
    exact congrArg _ hzero

theorem closings_env {e : HubEvent} (henv : hubEnv c.shared e = some r) (i : Nat) :
    closings ⟨r.shared, c.threads ++ r.spawn⟩ i = closings c i := by
  have hpending : pending (HubAct.callsOnClose i) ⟨r.shared, c.threads ++ r.spawn⟩ =
      pending (HubAct.callsOnClose i) c := by
    refine pending_env_of_none fun l hl b hb => ?_
    cases hubEnv_starts henv hl hb with
    | established h => exact mem_acceptLink_cases h rfl rfl rfl rfl rfl
    | packet _ | identify _ _ | close => rfl
  rw [closings, hpending, HubState.closeCalls, (hubEnv_outputs henv).2]
  rfl

/-! ## What always holds -/

structure Tracked (p : HubConf × Ledger) : Prop where
  registration : Registration p.1
  once : ∀ i, closings p.1 i ≤ 1
  gone : ∀ {i}, 0 < closings p.1 i → Registered p.1 i ∧ ¬p.1.shared.Listed i
  displaced : ∀ {i}, p.2.displaced i = true →
    Registered p.1 i ∧ ¬p.1.shared.Listed i ∧ closings p.1 i = 0

theorem ledgerInit_tracked : Tracked ledgerInit := by
  have hzero : ∀ i, closings hubInit i = 0 := fun i => rfl
  refine ⟨hubInit_registration, ?_, ?_, ?_⟩
  · intro i
    exact (hzero i).trans_le (Nat.zero_le 1)
  · intro i hpos
    exact absurd (hzero i) hpos.ne'
  · intro i hi
    cases hi

theorem Ledger.displaced_after {g : Ledger} (h : (g.after s a).displaced i = true) :
    g.displaced i = true ∨
      ∃ j, a = .registerLocked j ∧ s.peers.lookup (s.peer j).peerHash = some i ∧ i ≠ j := by
  cases a with
  | registerLocked j =>
    simp only [Ledger.after, HubState.registerLocked, Bool.or_eq_true, decide_eq_true_eq,
      Option.filter_eq_some_iff] at h
    exact h.imp_right fun hold => ⟨j, rfl, hold.1, by simpa using hold.2⟩
  | _ => exact .inl h

theorem Ledger.note_run {g : Ledger} (hthread : c.threads[t]? = some (a :: rest)) :
    Ledger.note c (.run t x) g = g.after c.shared a := by
  rw [Ledger.note, Config.next_eq hthread]
  rfl

/-- What has left `h.peers` in a step: the current session is dropped or displaced. -/
theorem Registration.not_listed_of_not_spares (h : Registration c) (hi : c.shared.Listed i)
    (hthread : c.threads[t]? = some (a :: rest)) (hact : hubAct text cfg x c.shared a = some r)
    (hspares : ¬a.Spares c.shared i) : ¬r.shared.Listed i := by
  intro hi'
  have hcur : r.shared.Current i := (h.run hthread hact).listed_iff_current.mp hi'
  exact hspares ((h.current_run (h.listed_iff_current.mp hi) hthread hact).mp hcur)

theorem Tracked.run {g : Ledger} (h : Tracked (c, g)) (hthread : c.threads[t]? = some (a :: rest))
    (hact : hubAct text cfg x c.shared a = some r)
    (hstep : hubStep text cfg c (.run t x) = some (afterRun c t rest r)) :
    Tracked (afterRun c t rest r, g.after c.shared a) := by
  have hreg := h.registration
  have hlisted : ∀ {i}, c.shared.Listed i → closings c i = 0 := fun hi =>
    Nat.eq_zero_of_not_pos fun hpos => (h.gone hpos).2 hi
  refine ⟨hreg.run hthread hact, ?_, ?_, ?_⟩
  · intro i
    obtain heq | ⟨rfl, hi, heq⟩ := closings_run hthread hact i
    · exact heq.trans_le (h.once i)
    · exact (heq.trans (congrArg (· + 1) (hlisted hi))).le
  · intro i hpos
    obtain heq | ⟨rfl, hi, -⟩ := closings_run hthread hact i
    · exact gone_step (h.gone (heq ▸ hpos)) hstep
    · refine ⟨(hreg.registered hi).step hstep, ?_⟩
      exact hreg.not_listed_of_not_spares hi hthread hact fun hspares => hspares rfl
  · intro i hi
    obtain hi | ⟨j, rfl, hlookup, hne⟩ := Ledger.displaced_after hi
    · obtain ⟨hregistered, hlist, hzero⟩ := h.displaced hi
      obtain ⟨hregistered', hlist'⟩ := gone_step ⟨hregistered, hlist⟩ hstep
      obtain heq | ⟨-, hcur, -⟩ := closings_run hthread hact i
      · exact ⟨hregistered', hlist', heq.trans hzero⟩
      · exact absurd hcur hlist
    · have hlist : c.shared.Listed i := ⟨_, hlookup⟩
      refine ⟨(hreg.registered hlist).step hstep, ?_, ?_⟩
      · refine hreg.not_listed_of_not_spares hlist hthread hact fun hspares => hspares ?_
        exact (hreg.keys hlookup).symm
      · obtain heq | ⟨hdrop, -⟩ := closings_run hthread hact i
        · exact heq.trans (hlisted hlist)
        · cases hdrop

theorem Tracked.env {g : Ledger} (h : Tracked (c, g)) {e : HubEvent}
    (henv : hubEnv c.shared e = some r)
    (hstep : hubStep text cfg c (.env e) = some ⟨r.shared, c.threads ++ r.spawn⟩) :
    Tracked (⟨r.shared, c.threads ++ r.spawn⟩, g) := by
  have hclosings := closings_env henv
  refine ⟨h.registration.env henv, ?_, ?_, ?_⟩
  · intro i
    exact (hclosings i).trans_le (h.once i)
  · intro i hpos
    exact gone_step (h.gone (hclosings i ▸ hpos)) hstep
  · intro i hi
    obtain ⟨hregistered, hlist, hzero⟩ := h.displaced hi
    obtain ⟨hregistered', hlist'⟩ := gone_step ⟨hregistered, hlist⟩ hstep
    exact ⟨hregistered', hlist', (hclosings i).trans hzero⟩

theorem Tracked.step {p p' : HubConf × Ledger} {e : Event HubChoice HubEvent} (h : Tracked p)
    (hstep : ledgerStep text cfg p e = some p') : Tracked p' := by
  obtain ⟨c, g⟩ := p
  obtain ⟨c', g'⟩ := p'
  obtain ⟨hc', rfl⟩ := recorded_eq_some hstep
  cases Program.steps_of_step hc' with
  | run hthread hact =>
    rw [Ledger.note_run hthread]
    exact h.run hthread hact hc'
  | env henv => exact h.env henv hc'

/-! ## The current session -/

/-- `dropPeerIf` takes a session out of `h.peers`, wherever it is. -/
theorem Registration.lookup_dropPeerIf (h : Registration c)
    (hact : hubAct text cfg x c.shared (.dropPeerIf i) = some r) (k : Bytes) (j : Nat) :
    r.shared.peers.lookup k = some j ↔ c.shared.peers.lookup k = some j ∧ j ≠ i := by
  by_cases hi : c.shared.Listed i
  · have hcur : c.shared.peers.lookup (c.shared.peer i).peerHash = some i :=
      h.listed_iff_current.mp hi
    simp only [hubAct, h.dropPeerIf_eq_some hi] at hact
    cases hact
    by_cases hk : k = (c.shared.peer i).peerHash
    · subst hk
      simp only [HubState.removePeer, AList.lookup_erase, hcur]
      grind
    · simp only [HubState.removePeer, AList.lookup_erase_ne hk]
      refine (and_iff_left_of_imp fun hj hji => hk ?_).symm
      rw [← hji, h.keys hj]
  · simp only [hubAct, dropPeerIf_eq_none hi] at hact
    cases hact
    refine (and_iff_left_of_imp fun hj hji => hi ?_).symm
    exact ⟨k, hji ▸ hj⟩

theorem Ledger.Agrees.run {g : Ledger} (h : g.Agrees c.shared) (hreg : Registration c)
    (hact : hubAct text cfg x c.shared a = some r) :
    (g.after c.shared a).Agrees r.shared ↔ ∀ i, a = .registerLocked i → g.closed i = false := by
  cases a with
  | registerLocked i =>
    cases hact
    simp only [HubAct.registerLocked.injEq, forall_eq']
    constructor
    · intro h'
      refine ((h' (c.shared.peer i).peerHash i).mp ?_).2
      exact AList.lookup_insert ..
    · intro hopen k j
      by_cases hk : k = (c.shared.peer i).peerHash
      · subst hk
        simp only [Ledger.after, HubState.registerLocked, AList.lookup_insert, Function.update_self]
        grind
      · simp only [Ledger.after, HubState.registerLocked, AList.lookup_insert_ne hk,
          Function.update_of_ne hk]
        exact h k j
  | dropPeerIf i =>
    refine iff_of_true (fun k j => ?_) (by simp)
    rw [hreg.lookup_dropPeerIf hact, h k j, and_assoc]
    refine and_congr_right fun _ => ?_
    simp only [Ledger.after, Function.update_apply]
    grind
  | hubClose =>
    simp only [hubAct] at hact
    split at hact <;> cases hact
    refine iff_of_true (fun k j => ?_) (by simp)
    simp [Ledger.after]
  | _ =>
    refine iff_of_true (fun k j => ?_) (by simp)
    rw [(hubAct_outcome hact).peers_eq (by simp) (by simp) (by simp)]
    exact h k j

theorem Ledger.Agrees.step {p p' : HubConf × Ledger} {e : Event HubChoice HubEvent}
    (h : p.2.Agrees p.1.shared) (hreg : Registration p.1)
    (hstep : ledgerStep text cfg p e = some p') :
    p'.2.Agrees p'.1.shared ↔ RegistersOpen p e := by
  obtain ⟨c, g⟩ := p
  obtain ⟨c', g'⟩ := p'
  obtain ⟨hc', rfl⟩ := recorded_eq_some hstep
  cases Program.steps_of_step hc' with
  | run hthread hact =>
    rw [Ledger.note_run hthread, h.run hreg hact]
    simp only [RegistersOpen, Config.next_eq hthread, Option.some.injEq]
  | env henv =>
    refine iff_of_true (fun k i => ?_) trivial
    rw [(hubEnv_membership henv).peers]
    exact h k i

/-! ## Stale closes -/

/-- The steps of `session.close`. -/
def HubAct.Closes (i : Nat) : HubAct → Prop
  | .close j | .teardown j | .dropPeerIf j => j = i
  | _ => False

/-- Closing a displaced session changes neither `h.peers` nor `h.rooms`. -/
def StaleCloseHarmless (text : GoText) (cfg : HubConfig) (p : HubConf × Ledger)
    (e : Event HubChoice HubEvent) : Prop :=
  ∀ t x a i p', e = .run t x → p.1.next t = some a → a.Closes i → p.2.displaced i = true →
    ledgerStep text cfg p e = some p' →
    p'.1.shared.peers = p.1.shared.peers ∧ p'.1.shared.rooms = p.1.shared.rooms

theorem closes_unlisted (hact : hubAct text cfg x s a = some r) (ha : a.Closes i)
    (hi : ¬s.Listed i) : r.shared.peers = s.peers ∧ r.shared.rooms = s.rooms := by
  obtain hsame | hcommit := (hubAct_outcome hact).membership
  · exact ⟨hsame.peers, hsame.rooms⟩
  · generalize r.shared = s' at hcommit
    cases hcommit with
    | dropPeerIf hdrop =>
      cases ha
      cases (dropPeerIf_eq_none hi).symm.trans hdrop
    | _ => cases ha

theorem Tracked.staleCloseHarmless {p : HubConf × Ledger} {e : Event HubChoice HubEvent}
    (h : Tracked p) : StaleCloseHarmless text cfg p e := by
  intro t x a i p' he hnext hcloses hi hstep
  subst he
  obtain ⟨hc', -⟩ := recorded_eq_some hstep
  generalize p'.1 = c' at hc'
  cases Program.steps_of_step hc' with
  | run hthread hact =>
    cases (Config.next_eq hthread).symm.trans hnext
    exact closes_unlisted hact hcloses (h.displaced hi).2.1

/-- The current session of each identity is right, `OnClose` is called once at
most for each session, and never for a displaced one. -/
structure SessionsRight (p : HubConf × Ledger) : Prop where
  current : p.2.Agrees p.1.shared
  once : ∀ i, p.1.shared.closeCalls i ≤ 1
  silent : ∀ i, p.2.displaced i = true → p.1.shared.closeCalls i = 0

theorem Tracked.sessionsRight_iff {p : HubConf × Ledger} (h : Tracked p) :
    SessionsRight p ↔ p.2.Agrees p.1.shared := by
  refine ⟨SessionsRight.current, fun hagrees => ⟨hagrees, fun i => ?_, fun i hi => ?_⟩⟩
  · exact (Nat.le_add_right _ _).trans (h.once i)
  · exact Nat.eq_zero_of_add_eq_zero_right (h.displaced hi).2.2

/-! ## Runs -/

/-- Closing a displaced session does no harm in any run. The current sessions are
right throughout exactly in the runs where no session registers after its own
close has run. -/
theorem sessions_right_iff (text : GoText) (cfg : HubConfig)
    (es : List (Event HubChoice HubEvent)) :
    (AllStates (ledgerStep text cfg) SessionsRight ledgerInit es ∧
      AllSteps (ledgerStep text cfg) (StaleCloseHarmless text cfg) ledgerInit es) ↔
    AllSteps (ledgerStep text cfg) RegistersOpen ledgerInit es := by
  have hharmless : AllSteps (ledgerStep text cfg) (StaleCloseHarmless text cfg) ledgerInit es :=
    allSteps_of_invariant (fun h h' => Tracked.step h h') (fun h _ => h.staleCloseHarmless)
      ledgerInit_tracked
  rw [and_iff_left hharmless]
  refine allStates_iff_allSteps (fun h _ h' _ => Tracked.step h h') (fun h hright h' => ?_)
    ledgerInit_tracked (ledgerInit_tracked.sessionsRight_iff.mpr fun k i => ?_)
  · rw [(h.step h').sessionsRight_iff]
    exact hright.current.step h.registration h'
  · simp [ledgerInit, hubInit]

/-! ## A session that registers after its close -/

/-- A HELLO whose nickname is too long. -/
def longNickHello : Envelope :=
  { sampleHello with nick := List.replicate 33 97, hasNick := true }

/-- The goroutine of the identification has set the hash and not yet entered the
critical section when another one refuses a HELLO and closes the session. -/
def registeredAfterClose : List (Event HubChoice HubEvent) :=
  [.env .established] ++ turns 0 5 ++ [.env (.identify 0 sampleIdentity)] ++ turns 1 5 ++
  [.env (.packet 0 (some longNickHello))] ++ turns 2 1 ++ turns 3 8 ++ turns 1 2

/-- Every goroutine has finished, the session is closed, and it is the hub's
session of its identity. -/
theorem closed_session_current :
    ∃ p, run (ledgerStep .ascii sampleHub) ledgerInit registeredAfterClose = some p ∧
      Quiescent p.1 ∧ p.2.closed 0 = true ∧ p.1.shared.peers.lookup sampleIdentity = some 0 ∧
      ¬AllStates (ledgerStep .ascii sampleHub) SessionsRight ledgerInit registeredAfterClose := by
  have hend : (run (ledgerStep .ascii sampleHub) ledgerInit registeredAfterClose).map (fun p =>
      (p.1.threads.all List.isEmpty, p.2.closed 0, p.1.shared.peers.lookup sampleIdentity)) =
      some (true, true, some 0) := by
    decide +kernel
  obtain ⟨p, hrun, heq⟩ := Option.map_eq_some_iff.mp hend
  simp only [Prod.mk.injEq] at heq
  obtain ⟨hthreads, hclosed, hpeer⟩ := heq
  refine ⟨p, hrun, quiescent_of_isEmpty hthreads, hclosed, hpeer, fun hall => ?_⟩
  have hopen := (((hall.last hrun).current sampleIdentity 0).mp hpeer).2
  exact Bool.noConfusion (hopen.symm.trans hclosed)

end Rrc
