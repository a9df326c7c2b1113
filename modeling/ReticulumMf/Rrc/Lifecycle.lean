-- SUMMARY: Where sessions end: each is the current one of its identity, or gets closed.
import ReticulumMf.Rrc.LinkClose
import ReticulumMf.Rrc.Welcome

/-!
# The end of a session

A session leaves `h.peers` in three ways: a newer one of its identity registers,
`Hub.Close` takes all, or it is dropped once it is closed. The first two leave the
closing to be done outside the lock, while other goroutines go on. In the end no
session is left over: each is current or closed (`session_current_or_closed`), and
`Hub.Close` closes all that were registered when it took them
(`hubClose_closes_all`).
-/

namespace Rrc

open Threads Transition

variable {text : GoText} {cfg : HubConfig} {t : Nat} {x : HubChoice} {s s' : HubState} {a : HubAct}
  {r : Effect HubState HubAct} {i j : Nat} {c c' : HubConf} {rest : List HubAct}
  {es es' : List (Event HubChoice HubEvent)}

/-- The session is closed, or some goroutine is about to close it. -/
def Ending (c : HubConf) (i : Nat) : Prop :=
  (c.shared.peer i).closed = true ∨ 0 < pending (HubAct.closes i) c

/-- Sessions are dropped after they are closed, and none is left over. -/
structure Accounted (c : HubConf) : Prop where
  drops : Each (fun s _ as => ∀ a ∈ as, ∀ i, a = .dropPeerIf i → (s.peer i).closed = true) c
  sessions : ∀ {i}, Registered c i → c.shared.Listed i ∨ Ending c i

theorem hubInit_accounted : Accounted hubInit := by
  refine ⟨by simp [hubInit, Each], fun {i} h => ?_⟩
  exact absurd rfl h.1

/-! ## Steps -/

theorem Ending.run (h : Ending c i) (hthread : c.threads[t]? = some (a :: rest))
    (hact : hubAct text cfg x c.shared a = some r) : Ending (afterRun c t rest r) i := by
  obtain hclosed | hpending := h
  · exact .inl (closed_mono (hubAct_outcome hact).peersAfter hclosed)
  · by_cases ha : a = .close i
    · subst ha
      exact .inl ((hubAct_close hact).1)
    · refine .inr (hpending.trans_le (pending_le_run hthread ?_))
      cases a with
      | close j => exact decide_eq_false fun heq => ha (by rw [heq])
      | _ => rfl

theorem Ending.step (h : Ending c i) {e : Event HubChoice HubEvent}
    (hstep : hubStep text cfg c e = some c') : Ending c' i := by
  cases Program.steps_of_step hstep with
  | run hthread hact => exact h.run hthread hact
  | env henv =>
    obtain ⟨status, heq⟩ := hubEnv_at henv i
    refine h.imp (fun hclosed => ?_) fun hpending => hpending.trans_le pending_le_env
    rw [heq]
    exact hclosed

/-- Who leaves `h.peers` is closed already, or will be. -/
theorem Accounted.ending_of_not_spares (h : Accounted c) (hreg : Registration c)
    (hcur : c.shared.Current i) (hthread : c.threads[t]? = some (a :: rest))
    (hact : hubAct text cfg x c.shared a = some r) (hspares : ¬a.Spares c.shared i) :
    Ending (afterRun c t rest r) i := by
  have hclose : .close i ∈ r.push → Ending (afterRun c t rest r) i := fun hmem =>
    .inr (pending_pos_run hthread hmem (decide_eq_true rfl))
  have hcur' : c.shared.peers.lookup (c.shared.peer i).peerHash = some i := hcur
  cases a with
  | dropPeerIf j =>
    obtain rfl : j = i := not_not.mp hspares
    exact .inl (closed_mono (hubAct_outcome hact).peersAfter
      (h.drops t _ hthread _ List.mem_cons_self j rfl))
  | hubClose =>
    refine hclose ?_
    simp only [hubAct] at hact
    split at hact <;> cases hact
    rename_i hperm
    have hmem := List.mem_map_of_mem (f := fun p => p.2) (AList.mem_lookup_iff.mp hcur')
    exact List.mem_map_of_mem (hperm.mem_iff.mpr hmem)
  | registerLocked j =>
    refine hclose ?_
    have hkey : (c.shared.peer j).peerHash = (c.shared.peer i).peerHash := not_not.mp hspares
    have hne : i ≠ j := by
      rintro rfl
      exact hreg.unlisted (pending_pos hthread List.mem_cons_self (decide_eq_true rfl)) ⟨_, hcur⟩
    have hold : (c.shared.peers.lookup (c.shared.peer j).peerHash).filter (· ≠ j) = some i :=
      Option.filter_eq_some_iff.mpr ⟨hkey ▸ hcur', decide_eq_true hne⟩
    cases hact
    refine List.mem_append_left _ ?_
    rw [hold]
    exact List.mem_singleton_self _
  | _ => exact absurd trivial hspares

theorem Accounted.run (h : Accounted c) (hreg : Registration c)
    (hthread : c.threads[t]? = some (a :: rest)) (hact : hubAct text cfg x c.shared a = some r) :
    Accounted (afterRun c t rest r) := by
  have hafter := (hubAct_outcome hact).peersAfter
  refine ⟨?_, fun {i} hi => ?_⟩
  · refine Each.forall_run h.drops hthread (fun b hb i heq => closed_mono hafter (hb i heq)) ?_
    rintro b hb i rfl
    cases hubAct_starts hact hb with
    | dropPeerIf => exact (hubAct_close hact).1
  · obtain hold | rfl := hreg.registered_of_run hthread hact hi
    · obtain hlisted | hending := h.sessions hold
      · have hcur := hreg.listed_iff_current.mp hlisted
        by_cases hspares : a.Spares c.shared i
        · exact .inl ⟨_, (hreg.current_run hcur hthread hact).mpr hspares⟩
        · exact .inr (h.ending_of_not_spares hreg hcur hthread hact hspares)
      · exact .inr (hending.run hthread hact)
    · cases hact
      exact .inl ⟨_, AList.lookup_insert _⟩

theorem Accounted.event (h : Accounted c) {e : HubEvent} (henv : hubEnv c.shared e = some r) :
    Accounted ⟨r.shared, c.threads ++ r.spawn⟩ := by
  refine ⟨?_, fun {i} hi => ?_⟩
  · refine Each.forall_env h.drops (fun b hb i heq => ?_) ?_
    · obtain ⟨status, hat⟩ := hubEnv_at henv i
      rw [hat]
      exact hb i heq
    · rintro l hl b hb i rfl
      cases hubEnv_starts henv hl hb with
      | established hmem => simp [acceptLink] at hmem
  · obtain ⟨status, hat⟩ := hubEnv_at henv i
    obtain ⟨k, hk⟩ | hclosed | hpending := h.sessions ((registered_env henv).mp hi)
    · exact .inl ⟨k, (hubEnv_membership henv).peers ▸ hk⟩
    · refine .inr (.inl ?_)
      rw [hat]
      exact hclosed
    · exact .inr (.inr (hpending.trans_le pending_le_env))

theorem accounted_of_run (hrun : run (hubStep text cfg) hubInit es = some c) : Accounted c := by
  have hstep : ∀ {c e c'}, Registration c ∧ Accounted c → hubStep text cfg c e = some c' →
      Registration c' ∧ Accounted c' := by
    intro c e c' h hstep
    refine ⟨h.1.step hstep, ?_⟩
    cases Program.steps_of_step hstep with
    | run hthread hact => exact h.2.run h.1 hthread hact
    | env henv => exact h.2.event henv
  exact (run_invariant hstep ⟨hubInit_registration, hubInit_accounted⟩ hrun).2

/-! ## At rest -/

theorem Ending.closed (h : Ending c i) (hrest : Quiescent c) : (c.shared.peer i).closed = true := by
  refine h.resolve_right ?_
  rw [hrest.pending_eq_zero]
  exact Nat.lt_irrefl 0

/-- When the hub is at rest, a session that has been identified is the current one of its
identity, or closed. -/
theorem session_current_or_closed (hrun : run (hubStep text cfg) hubInit es = some c)
    (hrest : Quiescent c) (hi : c.shared.Hashed i) :
    c.shared.Current i ∨ (c.shared.peer i).closed = true := by
  have hreg := registration_of_run hrun
  have hregistered : Registered c i :=
    ⟨fun hfresh => (hreg.fresh hfresh).1 hi, hrest.pending_eq_zero _⟩
  exact ((accounted_of_run hrun).sessions hregistered).imp hreg.listed_iff_current.mp
    (Ending.closed · hrest)

/-- A second session of the same identity registers. -/
def sampleSecondSession : List (Event HubChoice HubEvent) :=
  sampleRegistration ++ [.env .established] ++ turns 2 5 ++ [.env (.identify 1 sampleIdentity)] ++
  turns 3 10

theorem sample_displaced_closed :
    ∃ c, run (hubStep .ascii sampleHub) hubInit sampleSecondSession = some c ∧ Quiescent c ∧
      c.shared.Hashed 0 ∧ ¬c.shared.Current 0 ∧ (c.shared.peer 0).closed = true := by
  have hend : (run (hubStep .ascii sampleHub) hubInit sampleSecondSession).map (fun c =>
      (c.threads.all List.isEmpty, (c.shared.peer 0).peerHash, c.shared.peers.lookup sampleIdentity)) =
        some (true, sampleIdentity, some 1) := by
    decide +kernel
  obtain ⟨c, hrun, heq⟩ := Option.map_eq_some_iff.mp hend
  simp only [Prod.mk.injEq] at heq
  obtain ⟨hended, hhash, hlookup⟩ := heq
  have hrest := quiescent_of_isEmpty hended
  have hhashed : c.shared.Hashed 0 := by simp [HubState.Hashed, hhash, sampleIdentity]
  have hcur : ¬c.shared.Current 0 := by
    rw [HubState.Current, hhash, hlookup]
    simp
  exact ⟨c, hrun, hrest, hhashed, hcur, (session_current_or_closed hrun hrest hhashed).resolve_left hcur⟩

theorem eq_hubClose {o : Option HubAct} (h : o.any HubAct.isHubClose = true) : o = some .hubClose := by
  cases o with
  | none => cases h
  | some a =>
    cases a with
    | hubClose => rfl
    | _ => cases h

/-- Once `Hub.Close` has taken the sessions and the hub is at rest again, those that were
registered are closed and gone. -/
theorem hubClose_closes_all {c₁ c₂ : HubConf} (hrun : run (hubStep text cfg) hubInit es = some c)
    (hnext : c.next t = some .hubClose) (hstep : hubStep text cfg c (.run t x) = some c₁)
    (hrun' : run (hubStep text cfg) c₁ es' = some c₂) (hrest : Quiescent c₂)
    (hi : c.shared.Listed i) :
    (c₂.shared.peer i).closed = true ∧ ¬c₂.shared.Listed i := by
  have hreg := registration_of_run hrun
  have hcur := hreg.listed_iff_current.mp hi
  have hregistered := hreg.registered hi
  have hgone : ¬c₁.shared.Listed i := fun hlisted => by
    have hspares := (hreg.current_step hcur hstep).mp ((hreg.step hstep).listed_iff_current.mp hlisted)
    exact hspares _ hnext
  refine ⟨?_, (gone_of_run ⟨hregistered.step hstep, hgone⟩ hrun').2⟩
  have hending : Ending c₁ i :=
    ((accounted_of_run (run_snoc hrun hstep)).sessions (hregistered.step hstep)).resolve_left hgone
  exact Ending.closed (run_invariant (fun h hstep => Ending.step h hstep) hending hrun') hrest

theorem sample_hubClose_closes :
    ∃ c c₁ c₂, run (hubStep .ascii sampleHub) hubInit (sampleRegistration ++ [.env .close]) = some c ∧
      c.shared.Listed 0 ∧ hubStep .ascii sampleHub c (.run 2 { order := [0] }) = some c₁ ∧
      run (hubStep .ascii sampleHub) c₁ (turns 2 3) = some c₂ ∧
      (c₂.shared.peer 0).closed = true ∧ ¬c₂.shared.Listed 0 := by
  have hend : ((run (hubStep .ascii sampleHub) hubInit (sampleRegistration ++ [.env .close])).bind
      fun c => (hubStep .ascii sampleHub c (.run 2 { order := [0] })).bind fun c₁ =>
        (run (hubStep .ascii sampleHub) c₁ (turns 2 3)).map fun c₂ =>
          (c.shared.peers.lookup sampleIdentity, (c.next 2).any HubAct.isHubClose,
            c₂.threads.all List.isEmpty)) = some (some 0, true, true) := by
    decide +kernel
  obtain ⟨c, hrun, hend⟩ := Option.bind_eq_some_iff.mp hend
  obtain ⟨c₁, hstep, hend⟩ := Option.bind_eq_some_iff.mp hend
  obtain ⟨c₂, hrun', heq⟩ := Option.map_eq_some_iff.mp hend
  simp only [Prod.mk.injEq] at heq
  obtain ⟨hlookup, hnext, hended⟩ := heq
  refine ⟨c, c₁, c₂, hrun, ⟨_, hlookup⟩, hstep, hrun', ?_⟩
  exact hubClose_closes_all hrun (eq_hubClose hnext) hstep hrun' (quiescent_of_isEmpty hended)
    ⟨_, hlookup⟩

end Rrc
