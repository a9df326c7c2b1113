-- SUMMARY: What becomes of a HELLO: when it is certain to be handled by a registered peer.
import ReticulumMf.Rrc.Registration

/-!
# HELLO

A HELLO is handled at once, or waits in `p.pendingHello` for the registration of
its link. The invariants of this module follow it: along a run that stores no
HELLO once the link is registered, a HELLO is on its way, or waits for a
registration that is still to come, or the peer is active.
-/

namespace Rrc

open Threads Transition

variable {text : GoText} {cfg : HubConfig} {t : Nat} {x : HubChoice} {s s' : HubState}
  {a b : HubAct} {r : Effect HubState HubAct} {i : Nat} {c c' : HubConf} {rest : List HubAct}

/-! ## What the actions carry -/

/-- The nickname of the envelope is one that the hub accepts. -/
def NickAccepted (text : GoText) (cfg : HubConfig) (env : Envelope) : Prop :=
  env.hasNick = false ∨ (sanitizeNick text env.nick).length ≤ cfg.limits.maxNickBytes

/-- If it is a HELLO, its nickname is accepted. -/
def HelloAccepted (text : GoText) (cfg : HubConfig) (env : Envelope) : Prop :=
  env.type = typeHello → NickAccepted text cfg env

/-- What is known along a goroutine: how many links there are, and which of them
have their identified callback set. -/
structure Progress where
  accepted : Nat
  callback : Nat → Prop

instance : Preorder Progress where
  le k k' := k.accepted ≤ k'.accepted ∧ k.callback ≤ k'.callback
  le_refl k := ⟨le_rfl, le_rfl⟩
  le_trans _ _ _ h h' := ⟨h.1.trans h'.1, h.2.trans h'.2⟩

def HubState.progress (s : HubState) : Progress :=
  ⟨s.accepted, fun i => (s.peer i).identifiedCallback = true⟩

/-- Links are known when they are identified, `acceptLink` reads the remote identity
after it has set the callback, HELLOs for link `i` have accepted nicknames, only
HELLOs are stored, and no WELCOME is forwarded. -/
def HubAct.AllowedHello (text : GoText) (cfg : HubConfig) (i : Nat) (k : Progress) :
    HubAct → Prop
  | .checkRemote j _ | .setRemote j _ => j < k.accepted
  | .acceptReadRemote j => k.callback j
  | .deliver j data | .queuePlain j data | .handleInbound j data =>
    j = i → ∀ env ∈ data, HelloAccepted text cfg env
  | .onMsg j env | .readRemote j env | .recheck j env | .handlePeer j env
  | .applyInboundNick j env _ => j = i → HelloAccepted text cfg env
  | .bufferHello j env => env.type = typeHello ∧ (j = i → HelloAccepted text cfg env)
  | .onRoomContent _ env | .relay _ env _ | .forward _ env => env.type ≠ typeWelcome
  | _ => True

def HubAct.progressAfter (k : Progress) : HubAct → Progress
  | .setIdentifiedCallback i => ⟨k.accepted, fun j => j = i ∨ k.callback j⟩
  | _ => k

def helloDiscipline (text : GoText) (cfg : HubConfig) (i : Nat) : Discipline Progress HubAct :=
  ⟨HubAct.AllowedHello text cfg i, HubAct.progressAfter⟩

theorem helloDiscipline_monotone : (helloDiscipline text cfg i).Monotone where
  allowed {k k' a} hle h := by
    cases a with
    | checkRemote j _ | setRemote j _ => exact Nat.lt_of_lt_of_le h hle.1
    | acceptReadRemote j => exact hle.2 j h
    | _ => exact h
  after {k k' a} hle := by
    cases a with
    | setIdentifiedCallback j => exact ⟨hle.1, fun j' => Or.imp_right (hle.2 j')⟩
    | _ => exact hle
  grows {k a} := by
    cases a with
    | setIdentifiedCallback j => exact ⟨le_rfl, fun j' => .inr⟩
    | _ => exact le_rfl

/-- The discipline, and the envelopes that wait in link `i` and in its peer. -/
structure Carries (text : GoText) (cfg : HubConfig) (i : Nat) (c : HubConf) : Prop where
  disciplined : (helloDiscipline text cfg i).EachKeeps HubState.progress c
  queued : ∀ {env}, (c.shared.peer i).pendingPlainData = some (some env) →
    HelloAccepted text cfg env
  waiting : ∀ {env}, (c.shared.peer i).pendingHello = some env →
    env.type = typeHello ∧ HelloAccepted text cfg env

theorem Carries.allowed_of_leads (h : Carries text cfg i c)
    (hallowed : (helloDiscipline text cfg i).Allowed c.shared.progress a)
    (hlead : a.Leads c.shared b) :
    (helloDiscipline text cfg i).Allowed c.shared.progress b := by
  cases hlead with
  | takePending hdata =>
    rintro rfl env henv
    exact h.queued (henv ▸ hdata)
  | deliver _ | queuePlain => exact hallowed
  | checkRemote => exact hallowed
  | onMsg => exact fun hi => hallowed hi _ rfl
  | readRemote _ | handle _ | recheck _ | readRecheck | handlePeer => exact hallowed
  | bufferHello _ htype => exact ⟨htype, hallowed⟩
  | waiting hwait =>
    rintro rfl
    exact (h.waiting hwait).2
  | onRoomContent htype =>
    intro hwelcome
    rw [hwelcome] at htype
    revert htype
    decide
  | relay => exact hallowed
  | forward _ htype => exact fun hwelcome => hallowed (htype ▸ hwelcome)
  | _ => exact trivial

theorem progress_mono (h : a.Outcome text cfg x s s') : s.progress ≤ s'.progress := by
  refine ⟨h.accepted.ge, fun j hj => ?_⟩
  obtain heq | ⟨-, heq⟩ := h.peersAfter.identifiedCallback j
  · exact heq.trans hj
  · exact heq

theorem Carries.run (h : Carries text cfg i c) (hthread : c.threads[t]? = some (a :: rest))
    (hact : hubAct text cfg x c.shared a = some r) :
    Carries text cfg i (afterRun c t rest r) := by
  have hout := hubAct_outcome hact
  have hmono := progress_mono hout
  obtain ⟨hallowed, hrest⟩ := h.disciplined t _ hthread
  have hrest' : (helloDiscipline text cfg i).Keeps r.shared.progress rest := by
    refine helloDiscipline_monotone.keeps ?_ hrest
    cases a with
    | setIdentifiedCallback j =>
      refine ⟨hmono.1, fun j' hj' => ?_⟩
      cases hact
      obtain rfl | hj' := hj'
      · simp [HubState.progress]
      · exact hmono.2 j' hj'
    | _ => exact hmono
  have hstart : ∀ b, (b ∈ r.push ∨ ∃ l ∈ r.spawn, b ∈ l) →
      (helloDiscipline text cfg i).Allowed r.shared.progress b := fun b hb =>
    helloDiscipline_monotone.allowed hmono (h.allowed_of_leads hallowed (hubAct_starts hact hb))
  refine ⟨?_, ?_, ?_⟩
  · exact h.disciplined.run helloDiscipline_monotone hthread hmono hrest' hstart
  · intro env henv
    obtain hold | rfl := hout.peersAfter.pendingPlainData i henv
    · exact h.queued hold
    · exact hallowed rfl env rfl
  · intro env henv
    obtain heq | ⟨env', rfl, heq⟩ | ⟨-, heq⟩ := hout.peersAfter.pendingHello i
    · exact h.waiting (heq.symm.trans henv)
    · obtain rfl := Option.some.inj (heq.symm.trans henv)
      exact ⟨hallowed.1, hallowed.2 rfl⟩
    · cases heq.symm.trans henv

theorem Carries.env (h : Carries text cfg i c) {e : HubEvent}
    (henv : hubEnv c.shared e = some r)
    (hgood : ∀ data, e = .packet i data → ∀ env ∈ data, HelloAccepted text cfg env) :
    Carries text cfg i ⟨r.shared, c.threads ++ r.spawn⟩ := by
  have hpeer := hubEnv_at henv
  have hmono : c.shared.progress ≤ r.shared.progress := by
    refine ⟨by obtain h | ⟨-, h⟩ := hubEnv_accepted henv <;> simp [HubState.progress, h],
      fun j hj => ?_⟩
    obtain ⟨status, heq⟩ := hpeer j
    simpa [HubState.progress, heq] using hj
  obtain ⟨status, heq⟩ := hpeer i
  refine ⟨?_, fun henv => h.queued ?_, fun henv => h.waiting ?_⟩
  · refine h.disciplined.env helloDiscipline_monotone hmono fun l hl => ?_
    by_cases hnew : e = .established
    · subst hnew
      cases henv
      obtain rfl := List.mem_singleton.mp hl
      exact ⟨trivial, trivial, trivial, trivial, .inl rfl, trivial⟩
    · rw [← List.append_nil l]
      refine helloDiscipline_monotone.push (fun b hb => ?_) trivial
      cases hubEnv_starts henv hl hb with
      | established _ => exact absurd rfl hnew
      | packet _ => exact fun hi => hgood _ (by rw [hi])
      | identify hlt _ => exact Nat.lt_of_lt_of_le hlt hmono.1
      | close => exact trivial
  · rw [heq] at henv
    exact henv
  · rw [heq] at henv
    exact henv

/-! ## From identification to registration -/

def HubAct.readsOnAccept (i : Nat) : HubAct → Bool
  | .acceptReadRemote j => j = i
  | _ => false

def HubAct.callsRegister (i : Nat) : HubAct → Bool
  | .register j _ => j = i
  | _ => false

def HubAct.fires (i : Nat) : HubAct → Bool
  | .fireIdentified j _ => j = i
  | _ => false

/-- Once the remote has identified itself, a call of `register` has started or is
still to come. -/
structure Identified (i : Nat) (c : HubConf) : Prop where
  accepting : i < c.shared.accepted → (c.shared.peer i).identifiedCallback = true ∨
    0 < pending (HubAct.readsOnAccept i) c
  registering : (c.shared.peer i).remoteIdentity ≠ none →
    (c.shared.peer i).registerOnce ≠ .fresh ∨ 0 < pending (HubAct.callsRegister i) c ∨
    0 < pending (HubAct.readsOnAccept i) c ∨
    0 < pending (HubAct.fires i) c ∧ (c.shared.peer i).identifiedCallback = true

theorem registerOnce_mono (h : a.PeersAfter s s') (hi : (s.peer i).registerOnce ≠ .fresh) :
    (s'.peer i).registerOnce ≠ .fresh := by
  obtain heq | ⟨_, -, -, heq⟩ | ⟨-, heq⟩ := h.registerOnce i
  · exact heq ▸ hi
  · exact heq ▸ Once.noConfusion
  · exact heq ▸ Once.noConfusion

/-- A call of `register` that goes through leaves the `Once` used. -/
theorem register_used {hash : Bytes} (hlength : hash.length = identityLength)
    (hact : hubAct text cfg x s (.register i hash) = some r) :
    (r.shared.peer i).registerOnce ≠ .fresh := by
  simp only [hubAct] at hact
  split at hact
  · exact absurd hlength ‹_›
  · split at hact <;> cases hact
    · simp
    · rename_i hdone
      rw [hdone]
      exact Once.noConfusion

theorem HubAct.eq_of_readsOnAccept (h : a.readsOnAccept i = true) : a = .acceptReadRemote i := by
  cases a with
  | acceptReadRemote j => rw [of_decide_eq_true h]
  | _ => cases h

theorem HubAct.eq_of_callsRegister (h : a.callsRegister i = true) :
    ∃ hash, a = .register i hash := by
  cases a with
  | register j hash => exact ⟨hash, by rw [of_decide_eq_true h]⟩
  | _ => cases h

theorem HubAct.eq_of_fires (h : a.fires i = true) : ∃ hash, a = .fireIdentified i hash := by
  cases a with
  | fireIdentified j hash => exact ⟨hash, by rw [of_decide_eq_true h]⟩
  | _ => cases h

theorem Identified.accepting_run (h : Identified i c) (hcarry : Carries text cfg i c)
    (hthread : c.threads[t]? = some (a :: rest)) (hact : hubAct text cfg x c.shared a = some r)
    (hi : i < c.shared.accepted) :
    (r.shared.peer i).identifiedCallback = true ∨
      0 < pending (HubAct.readsOnAccept i) (afterRun c t rest r) := by
  have hprogress := progress_mono (hubAct_outcome hact)
  obtain hcallback | hpos := h.accepting hi
  · exact .inl (hprogress.2 i hcallback)
  · by_cases ha : a.readsOnAccept i = true
    · obtain rfl := HubAct.eq_of_readsOnAccept ha
      exact .inl (hprogress.2 i (hcarry.disciplined t _ hthread).1)
    · exact .inr (hpos.trans_le (pending_le_run hthread (by simpa using ha)))

theorem Identified.run (h : Identified i c) (hreg : Registration c) (hcarry : Carries text cfg i c)
    (hthread : c.threads[t]? = some (a :: rest)) (hact : hubAct text cfg x c.shared a = some r) :
    Identified i (afterRun c t rest r) := by
  have hafter := (hubAct_outcome hact).peersAfter
  have hprogress := progress_mono (hubAct_outcome hact)
  have hcall : ∀ hash, .register i hash ∈ r.push →
      0 < pending (HubAct.callsRegister i) (afterRun c t rest r) := fun hash hb =>
    pending_pos_run hthread hb (decide_eq_true rfl)
  refine ⟨fun hi => ?_, fun hremote => ?_⟩
  · exact h.accepting_run hcarry hthread hact ((hubAct_outcome hact).accepted ▸ hi)
  · obtain heq | ⟨hash, rfl, -⟩ := hafter.remoteIdentity i
    · rw [heq] at hremote
      obtain honce | hpos | hpos | ⟨hpos, hcallback⟩ := h.registering hremote
      · exact .inl (registerOnce_mono hafter honce)
      · by_cases ha : a.callsRegister i = true
        · obtain ⟨hash, rfl⟩ := HubAct.eq_of_callsRegister ha
          exact .inl (register_used (hreg.disciplined t _ hthread).1 hact)
        · exact .inr (.inl (hpos.trans_le (pending_le_run hthread (by simpa using ha))))
      · by_cases ha : a.readsOnAccept i = true
        · obtain rfl := HubAct.eq_of_readsOnAccept ha
          obtain ⟨hash, hhash⟩ := Option.ne_none_iff_exists'.mp hremote
          cases hact
          exact .inr (.inl (hcall hash (by simp [hhash])))
        · exact .inr (.inr (.inl (hpos.trans_le (pending_le_run hthread (by simpa using ha)))))
      · by_cases ha : a.fires i = true
        · obtain ⟨hash, rfl⟩ := HubAct.eq_of_fires ha
          simp only [hubAct, hcallback, if_true] at hact
          cases hact
          exact .inr (.inl (hcall hash (by simp)))
        · exact .inr (.inr (.inr ⟨hpos.trans_le (pending_le_run hthread (by simpa using ha)),
            hprogress.2 i hcallback⟩))
    · -- the callback is set, or `acceptLink` reads the identity after this
      have hlt : i < c.shared.accepted := (hcarry.disciplined t _ hthread).1
      obtain hcallback | hpos := h.accepting_run hcarry hthread hact hlt
      · cases hact
        refine .inr (.inr (.inr ⟨?_, hcallback⟩))
        exact pending_pos_run hthread (List.mem_singleton.mpr rfl) (decide_eq_true rfl)
      · exact .inr (.inr (.inl hpos))

theorem Identified.env (h : Identified i c) {e : HubEvent} (henv : hubEnv c.shared e = some r) :
    Identified i ⟨r.shared, c.threads ++ r.spawn⟩ := by
  obtain ⟨status, heq⟩ := hubEnv_at henv i
  have hle : ∀ p : HubAct → Bool, pending p c ≤ pending p ⟨r.shared, c.threads ++ r.spawn⟩ :=
    fun p => pending_le_env
  refine ⟨fun hi => ?_, fun hremote => ?_⟩
  · by_cases hold : i < c.shared.accepted
    · rw [heq]
      exact (h.accepting hold).imp_right fun hpos => hpos.trans_le (hle _)
    · obtain hsame | ⟨rfl, hnew⟩ := hubEnv_accepted henv
      · exact absurd (hsame ▸ hi) hold
      obtain rfl : i = c.shared.accepted := by
        dsimp only at hi
        omega
      cases henv
      refine .inr ?_
      rw [pending_env]
      simp [acceptLink, HubAct.readsOnAccept]
  · rw [heq] at hremote ⊢
    obtain honce | hpos | hpos | ⟨hpos, hcallback⟩ := h.registering hremote
    · exact .inl honce
    · exact .inr (.inl (hpos.trans_le (hle _)))
    · exact .inr (.inr (.inl (hpos.trans_le (hle _))))
    · exact .inr (.inr (.inr ⟨hpos.trans_le (hle _), hcallback⟩))

/-! ## A HELLO on its way -/

/-- The action handles a HELLO of link `i` that has not been found superfluous. -/
def HubAct.carriesHello (i : Nat) : HubAct → Bool
  | .handleInbound j (some env) | .onMsg j env | .readRemote j env | .bufferHello j env
  | .recheck j env | .handlePeer j env | .applyInboundNick j env false | .onHello j env =>
    j = i ∧ env.type = typeHello
  | _ => false

/-- A HELLO waits only for a registration that is still to come. -/
def HelloStored (i : Nat) (c : HubConf) : Prop :=
  (c.shared.peer i).pendingHello ≠ none → ¬Registered c i

/-- A HELLO has been handled, or waits, or is on its way. -/
def HelloAlive (i : Nat) (c : HubConf) : Prop :=
  (c.shared.peer i).active = true ∨ (c.shared.peer i).pendingHello ≠ none ∨
    0 < pending (HubAct.carriesHello i) c

theorem HelloStored.run (h : HelloStored i c) (hreg : Registration c)
    (hthread : c.threads[t]? = some (a :: rest)) (hact : hubAct text cfg x c.shared a = some r)
    (hgood : ∀ env, a = .bufferHello i env → ¬Registered c i) :
    HelloStored i (afterRun c t rest r) := by
  intro hpending hi
  obtain hold | rfl := hreg.registered_of_run hthread hact hi
  · obtain heq | ⟨env, rfl, -⟩ | ⟨-, heq⟩ := (hubAct_outcome hact).peersAfter.pendingHello i
    · exact h (heq ▸ hpending) hold
    · exact hgood env rfl hold
    · exact hpending heq
  · cases hact
    exact hpending (by simp)

theorem active_mono (h : a.PeersAfter s s') (hi : (s.peer i).active = true) :
    (s'.peer i).active = true := by
  obtain heq | ⟨-, heq⟩ := h.active i
  · exact heq.trans hi
  · exact heq

/-- A HELLO with an accepted nickname gets past it. -/
theorem applyInboundNick_hello {env : Envelope} (htype : env.type = typeHello)
    (hnick : NickAccepted text cfg env)
    (hact : hubAct text cfg x s (.applyInboundNick i env false) = some r) :
    r.push = [.onHello i env] := by
  have hdispatch : dispatch i env false = [.onHello i env] := by simp [dispatch, htype]
  simp only [hubAct] at hact
  split at hact
  · cases hact
    exact hdispatch
  · rename_i hsome
    push Not at hsome
    split at hact
    · rename_i hlong
      obtain hnone | hshort := hnick
      · exact absurd hnone hsome.1
      · omega
    · split at hact <;> cases hact
      exact hdispatch

/-- Handling a HELLO passes it on, stores it or makes the peer active. -/
theorem carriesHello_run (hreg : Registration c) (hcarry : Carries text cfg i c)
    (hthread : c.threads[t]? = some (a :: rest)) (hact : hubAct text cfg x c.shared a = some r)
    (ha : a.carriesHello i = true) : HelloAlive i (afterRun c t rest r) := by
  have hallowed := (hcarry.disciplined t _ hthread).1
  have hpass : ∀ b ∈ r.push, b.carriesHello i = true → HelloAlive i (afterRun c t rest r) :=
    fun b hb hcarries => .inr (.inr (pending_pos_run hthread hb hcarries))
  cases a with
  | handleInbound j data =>
    cases data with
    | none => cases ha
    | some env =>
      simp only [hubAct] at hact
      refine hpass (.onMsg j env) ?_ ha
      split at hact <;> cases hact <;> simp
  | onMsg j env =>
    simp only [hubAct] at hact
    split at hact <;> cases hact
    · exact hpass (.readRemote j env) (List.mem_singleton.mpr rfl) ha
    · exact hpass (.handlePeer j env) (List.mem_singleton.mpr rfl) ha
  | readRemote j env =>
    simp only [hubAct] at hact
    split at hact
    · cases hact
      exact hpass (.recheck j env) (by simp) ha
    · split at hact <;> cases hact
      · exact hpass (.bufferHello j env) (List.mem_singleton.mpr rfl) ha
      · exact hpass (.recheck j env) (List.mem_singleton.mpr rfl) ha
  | bufferHello j env =>
    obtain ⟨rfl, -⟩ := of_decide_eq_true ha
    cases hact
    exact .inr (.inl (by simp))
  | recheck j env =>
    obtain ⟨rfl, htype⟩ := of_decide_eq_true ha
    have hhash : (c.shared.peer j).peerHash ≠ [] := (hreg.disciplined t _ hthread).1 htype
    simp only [hubAct, List.length_eq_zero_iff, hhash, if_false] at hact
    cases hact
    exact hpass (.handlePeer j env) (List.mem_singleton.mpr rfl) ha
  | handlePeer j env =>
    obtain ⟨rfl, -⟩ := of_decide_eq_true ha
    cases hactive : (c.shared.peer j).active with
    | true => exact .inl (active_mono (hubAct_outcome hact).peersAfter hactive)
    | false =>
      cases hact
      exact hpass (.applyInboundNick j env false) (by simp [hactive]) ha
  | applyInboundNick j env active =>
    cases active with
    | true => cases ha
    | false =>
      obtain ⟨rfl, htype⟩ := of_decide_eq_true ha
      have hpush := applyInboundNick_hello htype (hallowed rfl htype) hact
      exact hpass (.onHello j env) (by simp [hpush]) ha
  | onHello j env =>
    obtain ⟨rfl, -⟩ := of_decide_eq_true ha
    cases hact
    exact .inl (by simp)
  | _ => cases ha

theorem HelloAlive.run (h : HelloAlive i c) (hreg : Registration c)
    (hcarry : Carries text cfg i c) (hthread : c.threads[t]? = some (a :: rest))
    (hact : hubAct text cfg x c.shared a = some r) : HelloAlive i (afterRun c t rest r) := by
  have hafter := (hubAct_outcome hact).peersAfter
  obtain hactive | hpending | hpos := h
  · exact .inl (active_mono hafter hactive)
  · obtain heq | ⟨env, -, heq⟩ | ⟨rfl, -⟩ := hafter.pendingHello i
    · exact .inr (.inl (heq ▸ hpending))
    · exact .inr (.inl (by simp [heq]))
    · obtain ⟨env, henv⟩ := Option.ne_none_iff_exists'.mp hpending
      cases hact
      refine .inr (.inr (pending_pos_run hthread (b := .handlePeer i env) ?_ ?_))
      · simp [henv]
      · exact decide_eq_true ⟨rfl, (hcarry.waiting henv).1⟩
  · by_cases ha : a.carriesHello i = true
    · exact carriesHello_run hreg hcarry hthread hact ha
    · exact .inr (.inr (hpos.trans_le (pending_le_run hthread (by simpa using ha))))

theorem HelloStored.env (h : HelloStored i c) {e : HubEvent} (henv : hubEnv c.shared e = some r) :
    HelloStored i ⟨r.shared, c.threads ++ r.spawn⟩ := by
  obtain ⟨status, heq⟩ := hubEnv_at henv i
  rintro hpending ⟨honce, hzero⟩
  rw [heq] at hpending honce
  exact h hpending ⟨honce, Nat.le_zero.mp (hzero ▸ pending_le_env)⟩

theorem HelloAlive.env (h : HelloAlive i c) {e : HubEvent} (henv : hubEnv c.shared e = some r) :
    HelloAlive i ⟨r.shared, c.threads ++ r.spawn⟩ := by
  obtain ⟨status, heq⟩ := hubEnv_at henv i
  obtain hactive | hpending | hpos := h
  · exact .inl (by rw [heq]; exact hactive)
  · exact .inr (.inl (by rw [heq]; exact hpending))
  · exact .inr (.inr (hpos.trans_le pending_le_env))

end Rrc
