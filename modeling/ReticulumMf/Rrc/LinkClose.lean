-- SUMMARY: What becomes of a registered peer whose link is closed from outside.
import ReticulumMf.Rrc.Membership

/-!
# Closed links

A peer leaves `h.peers` in `dropPeerIf`, which only `session.close` calls. A link
that the remote tears down or that the watchdog gives up calls its closed
callback, and hub links have none. So the peer goes only if it is removed for
another reason: its session is closed by one of its handlers, a newer session of
the identity registers, or the hub is closed. When the hub is at rest and the room
sets have been kept, exactly those peers are forgotten
(`closed_link_forgotten_iff`).
-/

namespace Rrc

open Threads Transition

variable {text : GoText} {cfg : HubConfig} {t : Nat} {x : HubChoice} {s s' : HubState} {a : HubAct}
  {r : Effect HubState HubAct} {i : Nat} {c c' c₂ : HubConf} {rest : List HubAct}
  {es : List (Event HubChoice HubEvent)}

/-- The peer is not in `h.peers`, and its key is in no room unless a newer session
of its identity is registered. -/
def HubState.Forgotten (s : HubState) (i : Nat) : Prop :=
  let key := (s.peer i).peerHash
  s.peers.lookup key ≠ some i ∧ (s.peers.lookup key = none → ∀ room, key ∉ s.members room)

/-- The action does not take peer `i` out of `h.peers`. -/
def HubAct.Spares (s : HubState) (i : Nat) : HubAct → Prop
  | .dropPeerIf j => j ≠ i
  | .hubClose => False
  | .registerLocked j => (s.peer j).peerHash ≠ (s.peer i).peerHash
  | _ => True

def StepSpares (i : Nat) (c : HubConf) : Event HubChoice HubEvent → Prop
  | .run t _ => ∀ a ∈ c.next t, a.Spares c.shared i
  | .env _ => True

/-! ## Steps -/

theorem Registration.current_run (h : Registration c) (hcur : c.shared.Current i)
    (hthread : c.threads[t]? = some (a :: rest)) (hact : hubAct text cfg x c.shared a = some r) :
    r.shared.Current i ↔ a.Spares c.shared i := by
  have hlisted : c.shared.Listed i := ⟨_, hcur⟩
  have hkey := h.peerHash_run (h.listed hlisted) hthread hact
  have hcur' : c.shared.peers.lookup (c.shared.peer i).peerHash = some i := hcur
  rw [HubState.Current, hkey]
  cases a with
  | registerLocked j =>
    have hpos := (h.at_registerLocked hthread).2.2
    have hji : j ≠ i := by
      rintro rfl
      exact h.unlisted (by omega) hlisted
    cases hact
    simp only [HubAct.Spares]
    by_cases heq : (c.shared.peer j).peerHash = (c.shared.peer i).peerHash
    · rw [heq, AList.lookup_insert]
      simp [hji]
    · rw [AList.lookup_insert_ne (Ne.symm heq)]
      exact iff_of_true hcur' heq
  | dropPeerIf j =>
    simp only [HubAct.Spares, hubAct] at hact ⊢
    by_cases hji : j = i
    · subst hji
      have hhash : (c.shared.peer j).peerHash ≠ [] := h.listed hlisted
      simp only [HubState.dropPeerIf, List.length_eq_zero_iff, hhash, hcur', if_false, ne_eq,
        not_true_eq_false] at hact
      cases hact
      simp [HubState.removePeer]
    · refine iff_of_true ?_ hji
      split at hact <;> cases hact
      · exact hcur'
      · obtain ⟨hj, rfl⟩ := dropPeerIf_some ‹_›
        have hne : (c.shared.peer i).peerHash ≠ (c.shared.peer j).peerHash := fun heq =>
          hji (Option.some.inj (hj.symm.trans (heq ▸ hcur')))
        simpa [HubState.removePeer, AList.lookup_erase_ne hne] using hcur'
  | hubClose =>
    simp only [hubAct] at hact
    split at hact <;> cases hact
    simp [HubAct.Spares]
  | _ =>
    refine iff_of_true ?_ trivial
    rw [(hubAct_outcome hact).peers_eq (by simp) (by simp) (by simp)]
    exact hcur'

theorem Registration.current_env (hcur : c.shared.Current i) {e : HubEvent}
    (henv : hubEnv c.shared e = some r) : r.shared.Current i := by
  obtain ⟨status, heq⟩ := hubEnv_at henv i
  rw [HubState.Current, heq, (hubEnv_membership henv).peers]
  exact hcur

theorem Registration.current_step (h : Registration c) (hcur : c.shared.Current i)
    {e : Event HubChoice HubEvent} (hstep : hubStep text cfg c e = some c') :
    c'.shared.Current i ↔ StepSpares i c e := by
  cases Program.steps_of_step hstep with
  | run hthread hact =>
    rw [h.current_run hcur hthread hact]
    simp [StepSpares, Config.next_eq hthread]
  | env henv => exact iff_of_true (Registration.current_env hcur henv) trivial

/-- A registered peer that has left `h.peers` does not come back. -/
theorem not_listed_step (hreg : Registered c i) (hcur : ¬c.shared.Listed i)
    {e : Event HubChoice HubEvent} (hstep : hubStep text cfg c e = some c') :
    ¬c'.shared.Listed i := by
  cases Program.steps_of_step hstep with
  | run hthread hact =>
    intro hi
    obtain hi | rfl := (hubAct_outcome hact).listed hi
    · exact hcur hi
    · have hpos : 0 < pending (HubAct.registers i) c :=
        pending_pos hthread List.mem_cons_self (decide_eq_true rfl)
      exact absurd hreg.2 hpos.ne'
  | env henv =>
    rintro ⟨k, hk⟩
    exact hcur ⟨k, (hubEnv_membership henv).peers ▸ hk⟩

/-! ## Runs -/

theorem Registration.listed_iff_current (h : Registration c) :
    c.shared.Listed i ↔ c.shared.Current i :=
  ⟨fun ⟨k, hk⟩ => by rw [HubState.Current, h.keys hk]; exact hk, fun hcur => ⟨_, hcur⟩⟩

theorem gone_step {e : Event HubChoice HubEvent} (h : Registered c i ∧ ¬c.shared.Listed i)
    (hstep : hubStep text cfg c e = some c') : Registered c' i ∧ ¬c'.shared.Listed i :=
  ⟨h.1.step hstep, not_listed_step h.1 h.2 hstep⟩

theorem gone_of_run {es : List (Event HubChoice HubEvent)}
    (h : Registered c i ∧ ¬c.shared.Listed i) (hrun : run (hubStep text cfg) c es = some c') :
    Registered c' i ∧ ¬c'.shared.Listed i :=
  run_invariant (fun h hstep => gone_step h hstep) h hrun

/-! ## Other reasons to go -/

def HubAct.isHubClose : HubAct → Bool
  | .hubClose => true
  | _ => false

def HubAct.drops (i : Nat) : HubAct → Bool
  | .dropPeerIf j => j = i
  | _ => false

/-- Peer `i` has to go for a reason other than its link, on a run from `c` that ends
in `c₂`. -/
inductive RemovedOtherwise (i : Nat) (c₂ c : HubConf) (es : List (Event HubChoice HubEvent)) : Prop
  /-- `Hub.Close` has been called and is still to take the sessions, or it gets called. -/
  | hubClose (h : 0 < pending HubAct.isHubClose c ∨ .env .close ∈ es)
  /-- A session that is not registered yet has the same identity in the end. -/
  | newer {j : Nat} (hnew : ¬Registered c j)
      (hkey : (c₂.shared.peer j).peerHash = (c₂.shared.peer i).peerHash)
  /-- The session is closed and still to be dropped. -/
  | dropping (h : 0 < pending (HubAct.drops i) c)
  /-- The session is open, and gets closed. -/
  | closed (hopen : (c.shared.peer i).closed = false) (hclosed : (c₂.shared.peer i).closed = true)

/-- After `close` the session is closed. The call that closed it drops the peer, any
other does nothing. -/
theorem hubAct_close (h : hubAct text cfg x s (.close i) = some r) :
    (r.shared.peer i).closed = true ∧
      ((s.peer i).closed = false ∧ .dropPeerIf i ∈ r.push ∨
        (s.peer i).closed = true ∧ r.push = [] ∧ r.spawn = []) := by
  simp only [hubAct] at h
  split at h
  · cases h
  · split at h <;> cases h
    · exact ⟨‹_›, .inr ⟨‹_›, rfl, rfl⟩⟩
    · exact ⟨by simp, .inl ⟨Bool.eq_false_iff.mpr ‹_›, by simp⟩⟩

theorem closed_step {e : Event HubChoice HubEvent} (h : (c.shared.peer i).closed = true)
    (hstep : hubStep text cfg c e = some c') : (c'.shared.peer i).closed = true := by
  cases Program.steps_of_step hstep with
  | run hthread hact => exact closed_mono (hubAct_outcome hact).peersAfter h
  | env henv =>
    obtain ⟨status, heq⟩ := hubEnv_at henv i
    rw [heq]
    exact h

theorem closed_of_run (h : (c.shared.peer i).closed = true)
    (hrun : run (hubStep text cfg) c es = some c') : (c'.shared.peer i).closed = true :=
  run_invariant (fun h hstep => closed_step h hstep) h hrun

/-- A reason there is after a step was there before it. -/
theorem RemovedOtherwise.earlier {e : Event HubChoice HubEvent} (h : RemovedOtherwise i c₂ c' es)
    (hstep : hubStep text cfg c e = some c') (hrun : run (hubStep text cfg) c' es = some c₂) :
    RemovedOtherwise i c₂ c (e :: es) := by
  cases h with
  | hubClose h =>
    refine .hubClose ?_
    obtain hpending | hmem := h
    · cases Program.steps_of_step hstep with
      | run hthread hact =>
        obtain hpos | ⟨b, hb, hclose⟩ := pending_pos_of_run hthread hpending
        · exact .inl hpos
        · cases hubAct_starts hact hb <;> cases hclose
      | env henv =>
        obtain hpos | ⟨b, ⟨l, hl, hb⟩, hclose⟩ := pending_pos_of_env hpending
        · exact .inl hpos
        · cases hubEnv_starts henv hl hb with
          | close => exact .inr List.mem_cons_self
          | established hmem =>
            have hother : HubAct.isHubClose b = false := mem_acceptLink_cases hmem rfl rfl rfl rfl rfl
            cases hother.symm.trans hclose
          | _ => cases hclose
    · exact .inr (List.mem_cons_of_mem e hmem)
  | newer hnew hkey => exact .newer (fun hreg => hnew (hreg.step hstep)) hkey
  | dropping h =>
    cases Program.steps_of_step hstep with
    | @run t x a rest r hthread hact =>
      obtain hpos | ⟨b, hb, hdrop⟩ := pending_pos_of_run hthread h
      · exact .dropping hpos
      · cases hubAct_starts hact hb with
        | @dropPeerIf j =>
          -- only the call that closes the session starts to drop the peer
          obtain rfl : j = i := of_decide_eq_true hdrop
          have hclose : hubAct text cfg x c.shared (.close j) = some r := hact
          obtain ⟨hclosed, ⟨hopen, -⟩ | ⟨-, hpush, hspawn⟩⟩ := hubAct_close hclose
          · exact .closed hopen (closed_of_run hclosed hrun)
          · simp [hpush, hspawn] at hb
        | _ => cases hdrop
    | env henv =>
      obtain hpos | ⟨b, ⟨l, hl, hb⟩, hdrop⟩ := pending_pos_of_env h
      · exact .dropping hpos
      · cases hubEnv_starts henv hl hb with
        | established hmem =>
          have hother : HubAct.drops i b = false := mem_acceptLink_cases hmem rfl rfl rfl rfl rfl
          cases hother.symm.trans hdrop
        | _ => cases hdrop
  | closed hopen hclosed =>
    refine .closed (Bool.eq_false_iff.mpr fun h => ?_) hclosed
    exact Bool.false_ne_true (hopen.symm.trans (closed_step h hstep))

/-- A step that spares the peer leaves what would not spare it to be done. -/
theorem spared_pending {e : Event HubChoice HubEvent} {p : HubAct → Bool} (hspares : StepSpares i c e)
    (hstep : hubStep text cfg c e = some c')
    (hp : ∀ a : HubAct, a.Spares c.shared i → p a = false) : pending p c ≤ pending p c' := by
  cases Program.steps_of_step hstep with
  | run hthread hact => exact pending_le_run hthread (hp _ (hspares _ (Config.next_eq hthread)))
  | env henv => exact pending_le_env

/-- A reason there is before a step that spares the peer is still there after it. -/
theorem RemovedOtherwise.later {e : Event HubChoice HubEvent}
    (h : RemovedOtherwise i c₂ c (e :: es)) (hreg : Registration c) (hcur : c.shared.Current i)
    (hspares : StepSpares i c e) (hstep : hubStep text cfg c e = some c')
    (hrun : run (hubStep text cfg) c' es = some c₂) : RemovedOtherwise i c₂ c' es := by
  have hcur' : c'.shared.Current i := (hreg.current_step hcur hstep).mpr hspares
  cases h with
  | hubClose h =>
    refine .hubClose ?_
    obtain hpending | hmem := h
    · refine .inl (hpending.trans_le (spared_pending hspares hstep fun a ha => ?_))
      cases a with
      | hubClose => exact ha.elim
      | _ => rfl
    · obtain rfl | hmem := List.mem_cons.mp hmem
      · cases Program.steps_of_step hstep with
        | env henv =>
          cases henv
          exact .inl (by simp [pending, HubAct.isHubClose])
      · exact .inr hmem
  | @newer j hnew hkey =>
    refine .newer (fun hreg' => ?_) hkey
    cases Program.steps_of_step hstep with
    | run hthread hact =>
      -- the session registers in this step, and displaces the peer
      obtain hold | rfl := hreg.registered_of_run hthread hact hreg'
      · exact hnew hold
      · have hne := hspares _ (Config.next_eq hthread)
        have hj := (hreg.at_registerLocked hthread).1
        have hi := hreg.listed ⟨_, hcur⟩
        have hrun' := run_cons.mpr ⟨_, hstep, hrun⟩
        rw [peerHash_of_run hreg hj hrun', peerHash_of_run hreg hi hrun'] at hkey
        exact hne hkey
    | env henv => exact hnew ((registered_env henv).mp hreg')
  | dropping h =>
    refine .dropping (h.trans_le (spared_pending hspares hstep fun a ha => ?_))
    cases a with
    | dropPeerIf j => exact decide_eq_false ha
    | _ => rfl
  | closed hopen hclosed =>
    cases hafter : (c'.shared.peer i).closed with
    | false => exact .closed hafter hclosed
    | true =>
      cases Program.steps_of_step hstep with
      | @run t x a rest r hthread hact =>
        obtain heq | ⟨rfl, -⟩ := (hubAct_outcome hact).peersAfter.closed i
        · exact absurd (heq.symm.trans hafter) (by simp [hopen])
        · -- the step closes the session, so the dropping is next
          have hclose : hubAct text cfg x c.shared (.close i) = some r := hact
          obtain ⟨-, ⟨-, hpush⟩ | ⟨hclosed, -⟩⟩ := hubAct_close hclose
          · exact .dropping (pending_pos_run hthread hpush (decide_eq_true rfl))
          · exact absurd (hclosed.symm.trans hopen) (by simp)
      | env henv =>
        obtain ⟨status, heq⟩ := hubEnv_at henv i
        rw [heq] at hafter
        exact absurd (hafter.symm.trans hopen) (by simp)

/-- What takes the peer out of `h.peers` is a reason. -/
theorem removed_of_not_spares {e : Event HubChoice HubEvent} (hreg : Registration c)
    (hcur : c.shared.Current i) (hspares : ¬StepSpares i c e)
    (hstep : hubStep text cfg c e = some c') (hrun : run (hubStep text cfg) c' es = some c₂) :
    RemovedOtherwise i c₂ c (e :: es) := by
  cases e with
  | env e => exact absurd trivial hspares
  | run t x =>
    simp only [StepSpares, not_forall] at hspares
    obtain ⟨a, hnext, hspares⟩ := hspares
    obtain ⟨rest, hthread⟩ := Config.thread_of_next hnext
    cases a with
    | hubClose => exact .hubClose (.inl (pending_pos hthread List.mem_cons_self rfl))
    | dropPeerIf j =>
      exact .dropping (pending_pos hthread List.mem_cons_self (decide_eq_true (not_not.mp hspares)))
    | registerLocked j =>
      have hregisters : 0 < pending (HubAct.registers j) c :=
        pending_pos hthread List.mem_cons_self (decide_eq_true rfl)
      have hrun' := run_cons.mpr ⟨_, hstep, hrun⟩
      refine .newer (fun hj => hregisters.ne' hj.2) ?_
      rw [peerHash_of_run hreg (hreg.at_registerLocked hthread).1 hrun',
        peerHash_of_run hreg (hreg.listed ⟨_, hcur⟩) hrun']
      exact not_not.mp hspares
    | _ => exact absurd trivial hspares

/-- When the hub comes to rest, the current session is gone exactly if there was a
reason for it. -/
theorem not_current_iff_removed (hreg : Registration c) (hcur : c.shared.Current i)
    (hrun : run (hubStep text cfg) c es = some c₂) (hrest : Quiescent c₂) :
    ¬c₂.shared.Current i ↔ RemovedOtherwise i c₂ c es := by
  induction es generalizing c with
  | nil =>
    cases hrun
    refine iff_of_false (not_not_intro hcur) fun h => ?_
    have hzero := hrest.pending_eq_zero
    cases h with
    | hubClose h => simp [hzero] at h
    | @newer j hnew hkey =>
      -- at rest, a session with a hash has registered
      have hhashed : c₂.shared.Hashed j := by
        rw [HubState.Hashed, hkey]
        exact hreg.listed ⟨_, hcur⟩
      exact hnew ⟨fun hfresh => (hreg.fresh hfresh).1 hhashed, hzero _⟩
    | dropping h => exact h.ne' (hzero _)
    | closed hopen hclosed => exact Bool.false_ne_true (hopen.symm.trans hclosed)
  | cons e es ih =>
    obtain ⟨m, hm, hrun⟩ := run_cons.mp hrun
    have hstep := hreg.current_step hcur hm
    by_cases hspares : StepSpares i c e
    · rw [ih (hreg.step hm) (hstep.mpr hspares) hrun]
      exact ⟨fun h => h.earlier hm hrun, fun h => h.later hreg hcur hspares hm hrun⟩
    · -- the peer goes here, and does not come back
      have hgone : Registered m i ∧ ¬m.shared.Listed i :=
        ⟨(hreg.registered ⟨_, hcur⟩).step hm, fun hi =>
          hspares (hstep.mp ((hreg.step hm).listed_iff_current.mp hi))⟩
      refine iff_of_true (fun hi => (gone_of_run hgone hrun).2 ⟨_, hi⟩) ?_
      exact removed_of_not_spares hreg hcur hspares hm hrun

theorem consistent_of_run (hrun : run (hubStep text cfg) hubInit es = some c)
    (hgood : AllSteps (hubStep text cfg) (GoodMembership text cfg) hubInit es) :
    c.shared.Consistent := by
  have hstep : ∀ {c e c'}, Registration c ∧ c.shared.Consistent → hubStep text cfg c e = some c' →
      GoodMembership text cfg c e → Registration c' ∧ c'.shared.Consistent :=
    fun h hstep hgood => ⟨h.1.step hstep, (consistent_step h.1 h.2 hstep).mpr hgood⟩
  exact (run_of_good hstep ⟨hubInit_registration, hubInit_consistent⟩ hgood hrun).2

/-- Let the link of a registered peer be closed from outside. Nothing is set off by
that. If the hub comes to rest and no session that is not the current one of its
identity has changed the room sets, the peer is forgotten exactly if it had to go for
another reason. -/
theorem closed_link_forgotten_iff (text : GoText) (cfg : HubConfig)
    {es es' : List (Event HubChoice HubEvent)} {c c₁ c₂ : HubConf} {i : Nat}
    (hrun : run (hubStep text cfg) hubInit es = some c) (hcur : c.shared.Current i)
    (hclose : hubStep text cfg c (.env (.linkClosed i)) = some c₁)
    (hrun' : run (hubStep text cfg) c₁ es' = some c₂) (hrest : Quiescent c₂)
    (hgood : AllSteps (hubStep text cfg) (GoodMembership text cfg) hubInit
      (es ++ .env (.linkClosed i) :: es')) :
    c₁.threads = c.threads ∧ (c₂.shared.Forgotten i ↔ RemovedOtherwise i c₂ c₁ es') := by
  have hreg := registration_of_run hrun
  have hcur₁ : c₁.shared.Current i := (hreg.current_step hcur hclose).mpr trivial
  have hiff := not_current_iff_removed (hreg.step hclose) hcur₁ hrun' hrest
  have hconsistent : c₂.shared.Consistent :=
    consistent_of_run (run_append.mpr ⟨c, hrun, run_cons.mpr ⟨c₁, hclose, hrun'⟩⟩) hgood
  refine ⟨?_, fun h => hiff.mp h.1, fun h => ⟨hiff.mpr h, ?_⟩⟩
  · cases Program.steps_of_step hclose with
    | env henv =>
      simp only [hubProgram, hubEnv] at henv
      split at henv <;> cases henv
      exact List.append_nil _
  · intro hnone room hmem
    obtain ⟨j, hj, -⟩ := (hconsistent room _).mp hmem
    cases hnone.symm.trans hj

/-- A session joins a room, and all its handlers finish. -/
def sampleInRoom : List (Event HubChoice HubEvent) :=
  sampleActive ++ [.env (.packet 0 (some sampleJoin))] ++ turns 4 1 ++ turns 5 7

/-- `Hub.Close` is called and runs to its end. -/
def sampleHubClose : List (Event HubChoice HubEvent) :=
  [.env .close, .run 6 { order := [0] }] ++ turns 6 3

/-- The remote closes the link of a session that is in a room, and then the hub is
closed. -/
theorem hubClose_forgets_closed_link :
    ∃ c c₁ c₂, run (hubStep .ascii sampleHub) hubInit sampleInRoom = some c ∧
      sampleIdentity ∈ c.shared.members sampleRoom ∧
      hubStep .ascii sampleHub c (.env (.linkClosed 0)) = some c₁ ∧
      run (hubStep .ascii sampleHub) c₁ sampleHubClose = some c₂ ∧ c₂.shared.Forgotten 0 := by
  have hend : ((run (hubStep .ascii sampleHub) hubInit sampleInRoom).bind fun c =>
      (hubStep .ascii sampleHub c (.env (.linkClosed 0))).bind fun c₁ =>
        (run (hubStep .ascii sampleHub) c₁ sampleHubClose).map fun c₂ =>
          (decide (c.shared.Current 0), (c.shared.members sampleRoom).keys,
            c₂.threads.all List.isEmpty)) = some (true, [sampleIdentity], true) := by
    decide +kernel
  obtain ⟨c, hrun, hend⟩ := Option.bind_eq_some_iff.mp hend
  obtain ⟨c₁, hclose, hend⟩ := Option.bind_eq_some_iff.mp hend
  obtain ⟨c₂, hrun', heq⟩ := Option.map_eq_some_iff.mp hend
  simp only [Prod.mk.injEq] at heq
  obtain ⟨hcur, hmembers, hended⟩ := heq
  have hgood : AllSteps (hubStep .ascii sampleHub) (GoodMembership .ascii sampleHub) hubInit
      (sampleInRoom ++ .env (.linkClosed 0) :: sampleHubClose) := by
    decide +kernel
  have hforgotten := closed_link_forgotten_iff .ascii sampleHub hrun (of_decide_eq_true hcur) hclose
    hrun' (quiescent_of_isEmpty hended) hgood
  refine ⟨c, c₁, c₂, hrun, by simp [AList.mem_keys, hmembers], hclose, hrun', ?_⟩
  exact hforgotten.2.mpr (.hubClose (.inr List.mem_cons_self))

/-- The remote closes the link, and nothing else happens. -/
def closedAfterJoin : List (Event HubChoice HubEvent) := sampleInRoom ++ [.env (.linkClosed 0)]

/-- No goroutine is left to do anything, and the peer is still in the hub and in
its room. -/
theorem closed_link_still_listed :
    ∃ c, run (hubStep .ascii sampleHub) hubInit closedAfterJoin = some c ∧ Quiescent c ∧
      (c.shared.peer 0).status = .closed ∧ c.shared.hasPeer sampleIdentity = true ∧
      sampleIdentity ∈ c.shared.members sampleRoom := by
  have hend : (run (hubStep .ascii sampleHub) hubInit closedAfterJoin).map (fun c =>
      (c.threads.all List.isEmpty, (c.shared.peer 0).status, c.shared.hasPeer sampleIdentity,
        (c.shared.members sampleRoom).keys)) =
      some (true, .closed, true, [sampleIdentity]) := by
    decide +kernel
  obtain ⟨c, hrun, heq⟩ := Option.map_eq_some_iff.mp hend
  simp only [Prod.mk.injEq] at heq
  obtain ⟨hthreads, hstatus, hpeer, hmembers⟩ := heq
  exact ⟨c, hrun, quiescent_of_isEmpty hthreads, hstatus, hpeer,
    by simp [AList.mem_keys, hmembers]⟩

end Rrc
