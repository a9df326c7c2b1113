-- SUMMARY: Where a peer's hash comes from: an identity proved on its own link, set once.
import ReticulumMf.Rrc.Registration

/-!
# Authenticated identities

The hash of a peer is never taken from an envelope. It is the hash of an identity
that the remote has proved on the peer's link, handed on from the link to
`register`; the hub's handlers run only for peers that have one, and it does not
change any more once it is set.
-/

namespace Rrc

open Threads Transition

variable {text : GoText} {cfg : HubConfig} {t : Nat} {x : HubChoice} {s s' : HubState}
  {a b : HubAct} {r : Effect HubState HubAct} {i : Nat} {hash : Bytes} {c c' : HubConf}
  {rest : List HubAct}

/-! ## Proved identities -/

/-- The action hands on an identity hash of link `i`. -/
def HubAct.HandsOn (i : Nat) (hash : Bytes) : HubAct → Prop
  | .checkRemote j h | .setRemote j h | .fireIdentified j h | .register j h | .setHash j h =>
    j = i ∧ h = hash
  | _ => False

/-- Every identity hash in use for a link is one of those proved on it. -/
structure Authentic (proved : Nat → Bytes → Prop) (c : HubConf) : Prop where
  actions : Each (fun _ _ as => ∀ a ∈ as, ∀ i hash, a.HandsOn i hash → proved i hash) c
  remote : ∀ {i hash}, (c.shared.peer i).remoteIdentity = some hash → proved i hash
  peer : ∀ {i}, c.shared.Hashed i → proved i (c.shared.peer i).peerHash

variable {proved : Nat → Bytes → Prop}

theorem HubAct.Leads.handsOn (h : a.Leads s b) (hb : b.HandsOn i hash) :
    a.HandsOn i hash ∨ (s.peer i).remoteIdentity = some hash := by
  cases h with
  | acceptReadRemote hremote | readRegister hremote =>
    obtain ⟨rfl, rfl⟩ := hb
    exact .inr hremote
  | checkRemote | setRemote | fireIdentified _ | setHash _ _ => exact .inl hb
  | _ => exact hb.elim

theorem Authentic.run (h : Authentic proved c) (hthread : c.threads[t]? = some (a :: rest))
    (hact : hubAct text cfg x c.shared a = some r) : Authentic proved (afterRun c t rest r) := by
  have hafter := (hubAct_outcome hact).peersAfter
  have hself : ∀ i hash, a.HandsOn i hash → proved i hash :=
    h.actions t _ hthread a List.mem_cons_self
  have hstart : ∀ b, (b ∈ r.push ∨ ∃ l ∈ r.spawn, b ∈ l) → ∀ i hash, b.HandsOn i hash →
      proved i hash := by
    intro b hb i hash hhands
    obtain hhands | hremote := (hubAct_starts hact hb).handsOn hhands
    · exact hself i hash hhands
    · exact h.remote hremote
  refine ⟨?_, ?_, ?_⟩
  · exact Each.forall_run h.actions hthread (fun _ hb => hb) hstart
  · intro i hash hremote
    obtain heq | ⟨hash', rfl, heq⟩ := hafter.remoteIdentity i
    · exact h.remote (heq ▸ hremote)
    · cases heq.symm.trans hremote
      exact hself i hash ⟨rfl, rfl⟩
  · intro i hi
    obtain heq | ⟨hash, rfl, heq⟩ := hafter.peerHash i
    · have hi' : c.shared.Hashed i := fun hempty => hi (heq.trans hempty)
      exact heq ▸ h.peer hi'
    · exact heq ▸ hself i hash ⟨rfl, rfl⟩

theorem Authentic.env (h : Authentic proved c) {e : HubEvent}
    (hproved : ∀ i hash, e = .identify i hash → hash.length = identityLength → proved i hash)
    (henv : hubEnv c.shared e = some r) : Authentic proved ⟨r.shared, c.threads ++ r.spawn⟩ := by
  refine ⟨?_, ?_, ?_⟩
  · refine Each.forall_env h.actions (fun _ hb => hb) fun l hl b hb i hash hhands => ?_
    cases hubEnv_starts henv hl hb with
    | established hmem =>
      revert hhands
      exact mem_acceptLink_cases hmem False.elim False.elim False.elim False.elim False.elim
    | identify _ hlength =>
      obtain ⟨rfl, rfl⟩ := hhands
      exact hproved _ _ rfl hlength
    | packet _ | close => exact hhands.elim
  · intro i hash hremote
    obtain ⟨status, heq⟩ := hubEnv_at henv i
    rw [heq] at hremote
    exact h.remote hremote
  · intro i hi
    obtain ⟨status, heq⟩ := hubEnv_at henv i
    simp only [HubState.Hashed, heq] at hi ⊢
    exact h.peer hi

/-- The remote of link `i` proves an identity in the run. -/
def ProvedIn (es : List (Event HubChoice HubEvent)) (i : Nat) (hash : Bytes) : Prop :=
  hash.length = identityLength ∧ .env (.identify i hash) ∈ es

theorem authentic_of_run {es es' : List (Event HubChoice HubEvent)} (hes : ∀ e ∈ es', e ∈ es)
    (h : Authentic (ProvedIn es) c) (hrun : run (hubStep text cfg) c es' = some c') :
    Authentic (ProvedIn es) c' := by
  induction es' generalizing c with
  | nil =>
    cases hrun
    exact h
  | cons e es' ih =>
    obtain ⟨m, hm, hrun⟩ := run_cons.mp hrun
    refine ih (fun e he => hes e (List.mem_cons_of_mem _ he)) ?_ hrun
    cases Program.steps_of_step hm with
    | run hthread hact => exact h.run hthread hact
    | env henv =>
      refine h.env (fun i hash he hlength => ⟨hlength, ?_⟩) henv
      exact hes _ (he ▸ List.mem_cons_self)

/-- The hash of a peer is that of an identity proved on its link. -/
theorem peerHash_proved {es : List (Event HubChoice HubEvent)}
    (hrun : run (hubStep text cfg) hubInit es = some c) (hi : c.shared.Hashed i) :
    ProvedIn es i (c.shared.peer i).peerHash := by
  have hinit : Authentic (ProvedIn es) hubInit := by
    constructor <;> simp [hubInit, Each, HubState.Hashed]
  exact (authentic_of_run (fun _ he => he) hinit hrun).peer hi

/-! ## Handlers -/

/-- The action is part of a handler of the hub that runs for peer `i`. -/
def HubAct.Handles (i : Nat) : HubAct → Prop
  | .handlePeer j _ | .applyInboundNick j _ _ | .onHello j _ | .onJoin j _ | .onPart j _
  | .onRoomContent j _ | .relay j _ _ => j = i
  | _ => False

/-- The handlers run only for peers whose hash is set. -/
def HandlersIdentified : HubConf → Prop :=
  Each fun s _ as => ∀ a ∈ as, ∀ i, a.Handles i → s.Hashed i

theorem HubAct.Leads.handles (h : a.Leads s b) (hb : b.Handles i) :
    a.Handles i ∨ s.Hashed i ∨ a = .registerLocked i := by
  cases h with
  | handle hhash | recheck hhash =>
    obtain rfl := hb
    exact .inr (.inl hhash)
  | waiting _ =>
    obtain rfl := hb
    exact .inr (.inr rfl)
  | handlePeer | onHello _ | onJoin | onPart | onRoomContent _ | relay => exact .inl hb
  | _ => exact hb.elim

theorem HandlersIdentified.run (h : HandlersIdentified c) (hreg : Registration c)
    (hthread : c.threads[t]? = some (a :: rest)) (hact : hubAct text cfg x c.shared a = some r) :
    HandlersIdentified (afterRun c t rest r) := by
  have hmono := hreg.hashed_mono hthread hact
  have hstart : ∀ b, (b ∈ r.push ∨ ∃ l ∈ r.spawn, b ∈ l) → ∀ i, b.Handles i →
      r.shared.Hashed i := by
    intro b hb i hhandles
    refine hmono i ?_
    obtain hhandles | hi | rfl := (hubAct_starts hact hb).handles hhandles
    · exact h t _ hthread a List.mem_cons_self i hhandles
    · exact hi
    · exact (hreg.at_registerLocked hthread).1
  exact Each.forall_run h hthread (fun _ hall i hhandles => hmono i (hall i hhandles)) hstart

theorem HandlersIdentified.env (h : HandlersIdentified c) {e : HubEvent}
    (henv : hubEnv c.shared e = some r) :
    HandlersIdentified ⟨r.shared, c.threads ++ r.spawn⟩ := by
  refine Each.forall_env h (fun b hall i hhandles => ?_) fun l hl b hb i hhandles => ?_
  · obtain ⟨status, heq⟩ := hubEnv_at henv i
    have hi := hall i hhandles
    rw [HubState.Hashed, heq]
    exact hi
  · cases hubEnv_starts henv hl hb with
    | established hmem =>
      revert hhandles
      exact mem_acceptLink_cases hmem False.elim False.elim False.elim False.elim False.elim
    | packet _ | identify _ _ | close => exact hhandles.elim

/-- A handler that runs finds the hash of its peer set. -/
theorem handlersIdentified_of_run {es : List (Event HubChoice HubEvent)}
    (hrun : run (hubStep text cfg) hubInit es = some c) : HandlersIdentified c := by
  have hstep : ∀ {c e c'}, Registration c ∧ HandlersIdentified c →
      hubStep text cfg c e = some c' → Registration c' ∧ HandlersIdentified c' := by
    intro c e c' h hstep
    refine ⟨h.1.step hstep, ?_⟩
    cases Program.steps_of_step hstep with
    | run hthread hact => exact h.2.run h.1 hthread hact
    | env henv => exact h.2.env henv
  have hinit : HandlersIdentified hubInit := by simp [HandlersIdentified, hubInit, Each]
  exact (run_invariant hstep ⟨hubInit_registration, hinit⟩ hrun).2

end Rrc
