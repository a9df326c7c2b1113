-- SUMMARY: When the hub's handlers find the session of their peer assigned.
import ReticulumMf.Rrc.Registration

/-!
# Accepting a link

`acceptLink` installs the packet callback inside `newSession`, before the new
session is stored in `p.sess`. The handlers run only for registered peers, so
they find `p.sess` assigned unless a packet registers the peer first, which takes
a link that is identified already.
-/

namespace Rrc

open Threads Transition

variable {text : GoText} {cfg : HubConfig} {t : Nat} {x : HubChoice} {s s' : HubState}
  {a b : HubAct} {r : Effect HubState HubAct} {i : Nat} {c c' : HubConf} {rest : List HubAct}

/-- The action is part of a hub handler that runs for peer `i`. -/
def HubAct.HandlesFor (i : Nat) : HubAct → Prop
  | .handlePeer j _ | .applyInboundNick j _ _ | .onHello j _ | .onJoin j _ | .onPart j _
  | .onRoomContent j _ | .reply j (.error _) => j = i
  | _ => False

/-- Whenever a handler runs, `p.sess` has been assigned. -/
def HandlersHaveSession (c : HubConf) : Prop :=
  ∀ t, ∀ a ∈ c.next t, ∀ i, a.HandlesFor i → (c.shared.peer i).sess = true

/-! ## What comes after the assignment -/

def HubState.Assigned (s : HubState) (i : Nat) : Prop := (s.peer i).sess = true

def HubAct.AllowedAssigned (assigned : Nat → Prop) : HubAct → Prop
  | .setIdentifiedCallback i | .acceptReadRemote i | .register i _ | .setHash i _
  | .registerLocked i | .handlePeer i _ | .applyInboundNick i _ _ | .onHello i _ | .onJoin i _
  | .onPart i _ | .onRoomContent i _ | .relay i _ _ => assigned i
  | .reply i m => m.usesSess → assigned i
  | _ => True

def HubAct.assignedAfter (assigned : Nat → Prop) : HubAct → Nat → Prop
  | .assignSess i => fun j => j = i ∨ assigned j
  | _ => assigned

/-- Registering and handling come after the assignment. -/
def assignDiscipline : Discipline (Nat → Prop) HubAct :=
  ⟨HubAct.AllowedAssigned, HubAct.assignedAfter⟩

theorem assignDiscipline_monotone : assignDiscipline.Monotone where
  allowed {k k' a} hle h := by
    cases a with
    | setIdentifiedCallback i | acceptReadRemote i | register i _ | setHash i _ | registerLocked i
    | handlePeer i _ | applyInboundNick i _ _ | onHello i _ | onJoin i _ | onPart i _
    | onRoomContent i _ | relay i _ _ => exact hle i h
    | reply i m => exact fun hm => hle i (h hm)
    | _ => exact trivial
  after {k k' a} hle := by
    cases a with
    | assignSess i => exact fun j => Or.imp_right (hle j)
    | _ => exact hle
  grows {k a} := by
    cases a with
    | assignSess i => exact fun j => .inr
    | _ => exact fun _ h => h

structure SessionFirst (c : HubConf) : Prop where
  disciplined : assignDiscipline.EachKeeps HubState.Assigned c
  hashed : ∀ {i}, c.shared.Hashed i → c.shared.Assigned i
  identified : ∀ {i}, (c.shared.peer i).identifiedCallback = true → c.shared.Assigned i

theorem SessionFirst.handlers (h : SessionFirst c) : HandlersHaveSession c := by
  intro t a hnext i hhandles
  obtain ⟨rest, hthread⟩ := Config.thread_of_next hnext
  have hallowed := (h.disciplined t _ hthread).1
  cases a with
  | handlePeer j _ | applyInboundNick j _ _ | onHello j _ | onJoin j _ | onPart j _
  | onRoomContent j _ =>
    obtain rfl : j = i := hhandles
    exact hallowed
  | reply j m =>
    cases m with
    | error msg =>
      obtain rfl : j = i := hhandles
      exact hallowed rfl
    | _ => exact hhandles.elim
  | _ => exact hhandles.elim

/-! ## Steps -/

/-- No packet finds its link identified before `p.sess` is assigned. -/
def HubAct.readsAfterAssign (s : HubState) : HubAct → Bool
  | .readRemote i _ => (s.peer i).remoteIdentity = none ∨ (s.peer i).sess
  | _ => true

theorem SessionFirst.allowed_of_leads (h : SessionFirst c) (hgood : a.readsAfterAssign c.shared)
    (hallowed : assignDiscipline.Allowed c.shared.Assigned a) (hlead : a.Leads c.shared b) :
    assignDiscipline.Allowed c.shared.Assigned b := by
  cases hlead with
  | acceptReadRemote _ | setHash _ _ | registerLocked _ _ | waiting _ | handlePeer | onHello _
  | onJoin | onPart | onRoomContent _ | relay => exact hallowed
  | fireIdentified hcallback => exact h.identified hcallback
  | handle hhash | recheck hhash => exact h.hashed hhash
  | readRegister hremote =>
    obtain hnone | hsess := of_decide_eq_true hgood
    · cases hnone.symm.trans hremote
    · exact hsess
  | pong => exact fun hm => absurd hm Bool.false_ne_true
  | nickTooLong | welcome | joinError | joined | parted | contentError | relayError =>
    exact fun _ => hallowed
  | _ => exact trivial

theorem assigned_mono (h : a.PeersAfter s s') : s.Assigned ≤ s'.Assigned := by
  intro j hj
  obtain heq | ⟨-, heq⟩ := h.sess j
  · exact heq.trans hj
  · exact heq

theorem SessionFirst.run (h : SessionFirst c) (hthread : c.threads[t]? = some (a :: rest))
    (hact : hubAct text cfg x c.shared a = some r) (hgood : a.readsAfterAssign c.shared) :
    SessionFirst (afterRun c t rest r) := by
  have hafter := (hubAct_outcome hact).peersAfter
  have hmono := assigned_mono hafter
  obtain ⟨hallowed, hrest⟩ := h.disciplined t _ hthread
  have hrest' : assignDiscipline.Keeps r.shared.Assigned rest := by
    refine assignDiscipline_monotone.keeps (fun j hj => ?_) hrest
    cases a with
    | assignSess i =>
      cases hact
      obtain rfl | hj := hj
      · simp [HubState.Assigned]
      · exact hmono j hj
    | _ => exact hmono j hj
  have hstart : ∀ b, (b ∈ r.push ∨ ∃ l ∈ r.spawn, b ∈ l) →
      assignDiscipline.Allowed r.shared.Assigned b := fun b hb =>
    assignDiscipline_monotone.allowed hmono
      (h.allowed_of_leads hgood hallowed (hubAct_starts hact hb))
  refine ⟨?_, ?_, ?_⟩
  · exact h.disciplined.run assignDiscipline_monotone hthread hmono hrest' hstart
  · intro i hi
    obtain hi | ⟨hash, rfl⟩ := (hubAct_outcome hact).hashed hi
    · exact hmono i (h.hashed hi)
    · exact hmono i hallowed
  · intro i hi
    obtain heq | ⟨rfl, -⟩ := hafter.identifiedCallback i
    · exact hmono i (h.identified (heq.symm.trans hi))
    · exact hmono i hallowed

theorem SessionFirst.env (h : SessionFirst c) {e : HubEvent}
    (henv : hubEnv c.shared e = some r) : SessionFirst ⟨r.shared, c.threads ++ r.spawn⟩ := by
  have hassigned : ∀ i, r.shared.Assigned i ↔ c.shared.Assigned i := fun i => by
    obtain ⟨status, heq⟩ := hubEnv_at henv i
    simp only [HubState.Assigned, heq]
  refine ⟨?_, ?_, ?_⟩
  · refine h.disciplined.env assignDiscipline_monotone (fun i => (hassigned i).mpr) fun l hl => ?_
    cases e with
    | established =>
      cases henv
      obtain rfl := List.mem_singleton.mp hl
      exact ⟨trivial, trivial, trivial, .inl rfl, .inl rfl, trivial⟩
    | _ =>
      rw [← List.append_nil l]
      refine assignDiscipline_monotone.push (fun b hb => ?_) trivial
      cases hubEnv_starts henv hl hb <;> exact trivial
  · intro i hi
    obtain ⟨status, heq⟩ := hubEnv_at henv i
    exact (hassigned i).mpr (h.hashed (by simpa [HubState.Hashed, heq] using hi))
  · intro i hi
    obtain ⟨status, heq⟩ := hubEnv_at henv i
    exact (hassigned i).mpr (h.identified (by simpa [heq] using hi))

theorem hubInit_sessionFirst : SessionFirst hubInit := by
  constructor <;> simp [hubInit, Discipline.EachKeeps, Each, HubState.Hashed]

/-! ## Runs -/

def GoodAccept (c : HubConf) : Event HubChoice HubEvent → Prop
  | .run t _ => ∀ a ∈ c.next t, a.readsAfterAssign c.shared
  | .env _ => True

instance (c : HubConf) (e : Event HubChoice HubEvent) : Decidable (GoodAccept c e) :=
  match e with
  | .run t _ => inferInstanceAs (Decidable (∀ a ∈ c.next t, a.readsAfterAssign c.shared = true))
  | .env _ => .isTrue trivial

theorem SessionFirst.step (h : SessionFirst c) {e : Event HubChoice HubEvent}
    (hstep : hubStep text cfg c e = some c') (hgood : GoodAccept c e) : SessionFirst c' := by
  cases Program.steps_of_step hstep with
  | run hthread hact => exact h.run hthread hact (hgood _ (Config.next_eq hthread))
  | env henv => exact h.env henv

/-- In a run in which no packet finds its link identified before `acceptLink` has
assigned the session, every handler finds it assigned. -/
theorem handlers_have_session (text : GoText) (cfg : HubConfig)
    (es : List (Event HubChoice HubEvent))
    (hgood : AllSteps (hubStep text cfg) GoodAccept hubInit es) :
    AllStates (hubStep text cfg) HandlersHaveSession hubInit es := by
  have hfirst := allStates_of_good (fun h h' => SessionFirst.step h h') hubInit_sessionFirst hgood
  exact hfirst.imp fun c h => h.handlers

/-- So it is when the HELLO comes after the callback is set and before the link is
identified. -/
theorem buffered_hello_has_session :
    AllStates (hubStep .ascii sampleHub) HandlersHaveSession hubInit sampleBuffered :=
  handlers_have_session .ascii sampleHub sampleBuffered (by decide +kernel)

/-- The remote identifies itself and says HELLO before `acceptLink` starts: the
HELLO waits in the link, and is delivered as soon as the callback is set. -/
def earlyHello : List (Event HubChoice HubEvent) :=
  [.env .established, .env (.packet 0 (some sampleHello))] ++ turns 1 2 ++
  [.env (.identify 0 sampleIdentity)] ++ turns 2 3 ++ turns 0 10

/-- The action starts the handler for a peer. -/
def HubAct.startsHandler (i : Nat) : HubAct → Bool
  | .handlePeer j _ => j = i
  | _ => false

theorem HubAct.handlesFor_of_startsHandler (h : a.startsHandler i = true) : a.HandlesFor i := by
  cases a with
  | handlePeer j env =>
    have hj : j = i := of_decide_eq_true h
    exact hj
  | _ => cases h

/-- Its handler then runs before the session is assigned. -/
theorem early_hello_without_session :
    ¬AllStates (hubStep .ascii sampleHub) HandlersHaveSession hubInit earlyHello := by
  intro h
  have hend : (run (hubStep .ascii sampleHub) hubInit earlyHello).map (fun c =>
      ((c.next 0).any (HubAct.startsHandler 0), (c.shared.peer 0).sess)) = some (true, false) := by
    decide +kernel
  obtain ⟨c, hrun, heq⟩ := Option.map_eq_some_iff.mp hend
  simp only [Prod.mk.injEq] at heq
  obtain ⟨hthread, hsess⟩ := heq
  cases hnext : c.next 0 with
  | none =>
    rw [hnext] at hthread
    cases hthread
  | some a =>
    rw [hnext] at hthread
    have hassigned := h.last hrun 0 a hnext 0 (HubAct.handlesFor_of_startsHandler hthread)
    cases hsess.symm.trans hassigned

end Rrc
