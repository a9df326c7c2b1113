-- SUMMARY: How a peer becomes registered: its hash is set once, and `h.peers` holds it under that hash.
import ReticulumMf.Rrc.HubSteps

/-!
# Registration

`register` runs at most once for each link. It sets `p.peerHash`, then enters
the hub's critical section. The invariant counts the registrations that are
still under way: while there is one, the peer is not in `h.peers` yet, and before
its hash is set the hash is empty. So a peer in `h.peers` is there under its own
hash, which never changes again.
-/

namespace Rrc

open Threads Transition

variable {text : GoText} {cfg : HubConfig} {t : Nat} {x : HubChoice} {s s' : HubState} {a : HubAct}
  {r : Effect HubState HubAct} {i j : Nat} {c c' : HubConf} {rest : List HubAct}

/-! ## The order of a registration -/

/-- The identity hash of the peer is set. -/
def HubState.Hashed (s : HubState) (i : Nat) : Prop := (s.peer i).peerHash ≠ []

def HubAct.AllowedHashed (hashed : Nat → Prop) : HubAct → Prop
  | .checkRemote _ hash | .setRemote _ hash | .fireIdentified _ hash | .register _ hash
  | .setHash _ hash => hash.length = identityLength
  | .registerLocked i | .onceDone i => hashed i
  | .recheck i env => env.type = typeHello → hashed i
  | _ => True

def HubAct.hashedAfter (hashed : Nat → Prop) : HubAct → Nat → Prop
  | .setHash i _ | .register i _ => fun j => j = i ∨ hashed j
  | _ => hashed

/-- The critical section comes after the hash is set, and so does what a HELLO
handler does once it has registered its link. -/
def hashDiscipline : Discipline (Nat → Prop) HubAct := ⟨HubAct.AllowedHashed, HubAct.hashedAfter⟩

theorem hashDiscipline_monotone : hashDiscipline.Monotone where
  allowed {k k' a} hle h := by
    cases a with
    | registerLocked i | onceDone i => exact hle i h
    | recheck i env => exact fun htype => hle i (h htype)
    | _ => exact h
  after {k k' a} hle := by
    cases a with
    | setHash i hash | register i hash => exact fun j => Or.imp_right (hle j)
    | _ => exact hle
  grows {k a} := by
    cases a with
    | setHash i hash | register i hash => exact fun j => .inr
    | _ => exact fun _ h => h

/-! ## The invariant -/

def HubAct.setsHash (i : Nat) : HubAct → Bool
  | .setHash j _ => j = i
  | _ => false

def HubAct.registers (i : Nat) : HubAct → Bool
  | .registerLocked j => j = i
  | _ => false

/-- The peer is in `h.peers`, under whatever key. -/
def HubState.Listed (s : HubState) (i : Nat) : Prop := ∃ k, s.peers.lookup k = some i

structure Registration (c : HubConf) : Prop where
  disciplined : hashDiscipline.EachKeeps HubState.Hashed c
  identity : ∀ {i hash}, (c.shared.peer i).remoteIdentity = some hash →
    hash.length = identityLength
  keys : ∀ {k i}, c.shared.peers.lookup k = some i → (c.shared.peer i).peerHash = k
  fresh : ∀ {i}, (c.shared.peer i).registerOnce = .fresh →
    ¬c.shared.Hashed i ∧ pending (HubAct.registers i) c = 0 ∧ ¬c.shared.Listed i
  done : ∀ {i}, (c.shared.peer i).registerOnce = .done → c.shared.Hashed i
  once : ∀ i, pending (HubAct.registers i) c ≤ 1
  unlisted : ∀ {i}, 0 < pending (HubAct.registers i) c → ¬c.shared.Listed i
  setOnce : ∀ i, pending (HubAct.setsHash i) c ≤ pending (HubAct.registers i) c
  unset : ∀ {i}, 0 < pending (HubAct.setsHash i) c → ¬c.shared.Hashed i
  listed : ∀ {i}, c.shared.Listed i → c.shared.Hashed i

theorem hubInit_registration : Registration hubInit := by
  constructor <;> simp [hubInit, Discipline.EachKeeps, Each, HubState.Hashed, HubState.Listed, pending]

/-! ## Actions -/

/-- Apart from a first `register`, no action starts a registration. -/
theorem hubAct_registers (h : hubAct text cfg x s a = some r) (i : Nat) :
    ((∀ b ∈ r.push, b.setsHash i = false ∧ b.registers i = false) ∧
      (∀ l ∈ r.spawn, ∀ b ∈ l, b.setsHash i = false ∧ b.registers i = false)) ∨
    ∃ hash, a = .register i hash ∧ (s.peer i).registerOnce = .fresh ∧
      (r.shared.peer i).registerOnce = .running ∧
      r.push = [.setHash i hash, .registerLocked i, .onceDone i] ∧ r.spawn = [] := by
  by_cases hreg : ∃ hash, a = .register i hash ∧ (s.peer i).registerOnce = .fresh ∧
      hash.length = identityLength
  · obtain ⟨hash, rfl, hfresh, hlength⟩ := hreg
    simp only [hubAct, hfresh, hlength, ne_eq, not_true_eq_false, if_false] at h
    cases h
    exact .inr ⟨hash, rfl, hfresh, by simp, rfl, rfl⟩
  · have hstart : ∀ b, (b ∈ r.push ∨ ∃ l ∈ r.spawn, b ∈ l) →
        b.setsHash i = false ∧ b.registers i = false := by
      intro b hb
      have hlead := hubAct_starts h hb
      cases hlead with
      | setHash hfresh hlength =>
        exact ⟨decide_eq_false fun heq => hreg ⟨_, by rw [heq], heq ▸ hfresh, hlength⟩, rfl⟩
      | registerLocked hfresh hlength =>
        exact ⟨rfl, decide_eq_false fun heq => hreg ⟨_, by rw [heq], heq ▸ hfresh, hlength⟩⟩
      | _ => exact ⟨rfl, rfl⟩
    exact .inl ⟨fun b hb => hstart b (.inl hb), fun l hl b hb => hstart b (.inr ⟨l, hl, hb⟩)⟩

/-- `h.peers` gains an entry only in the critical section of `register`. -/
theorem HubAct.Outcome.lookup {k : Bytes} (h : a.Outcome text cfg x s s')
    (hk : s'.peers.lookup k = some j) :
    s.peers.lookup k = some j ∨ a = .registerLocked j ∧ k = (s.peer j).peerHash := by
  obtain hsame | hcommit := h.membership
  · exact .inl (hsame.peers ▸ hk)
  · cases hcommit with
    | @registerLocked i =>
      by_cases hkey : k = (s.peer i).peerHash
      · subst hkey
        simp only [HubState.registerLocked, AList.lookup_insert, Option.some.injEq] at hk
        subst hk
        exact .inr ⟨rfl, rfl⟩
      · simp only [HubState.registerLocked, AList.lookup_insert_ne hkey] at hk
        exact .inl hk
    | @dropPeerIf i _ h =>
      obtain ⟨-, rfl⟩ := dropPeerIf_some h
      by_cases hkey : k = (s.peer i).peerHash
      · subst hkey
        simp [HubState.removePeer] at hk
      · exact .inl (by simpa [HubState.removePeer, AList.lookup_erase_ne hkey] using hk)
    | onJoin h =>
      obtain ⟨-, rfl⟩ | ⟨-, -, rfl⟩ := joinLocked_some h
      · exact .inl hk
      · exact .inl hk
    | onPart h =>
      obtain ⟨-, rfl⟩ := partLocked_some h
      exact .inl hk
    | hubClose => simp at hk

/-- The configuration after thread `t` has performed its first action. -/
abbrev afterRun (c : HubConf) (t : Nat) (rest : List HubAct) (r : Effect HubState HubAct) :
    HubConf :=
  ⟨r.shared, c.threads.set t (r.push ++ rest) ++ r.spawn⟩

theorem pending_afterRun (p : HubAct → Bool) (r : Effect HubState HubAct)
    (hthread : c.threads[t]? = some (a :: rest)) :
    pending p (afterRun c t rest r) + [a].countP p =
      pending p c + r.push.countP p + (r.spawn.map (List.countP p)).sum :=
  pending_run hthread

/-- How an action moves the registration of one peer along. -/
theorem pending_registers (hthread : c.threads[t]? = some (a :: rest))
    (hact : hubAct text cfg x c.shared a = some r) (i : Nat) :
    ((∃ hash, a = .register i hash) ∧ (c.shared.peer i).registerOnce = .fresh ∧
      (r.shared.peer i).registerOnce = .running ∧
      pending (HubAct.setsHash i) (afterRun c t rest r) = pending (HubAct.setsHash i) c + 1 ∧
      pending (HubAct.registers i) (afterRun c t rest r) = pending (HubAct.registers i) c + 1) ∨
    (a = .registerLocked i ∧
      pending (HubAct.setsHash i) (afterRun c t rest r) = pending (HubAct.setsHash i) c ∧
      pending (HubAct.registers i) (afterRun c t rest r) + 1 = pending (HubAct.registers i) c) ∨
    ((∃ hash, a = .setHash i hash) ∧
      pending (HubAct.setsHash i) (afterRun c t rest r) + 1 = pending (HubAct.setsHash i) c ∧
      pending (HubAct.registers i) (afterRun c t rest r) = pending (HubAct.registers i) c) ∨
    (a ≠ .registerLocked i ∧ (∀ hash, a ≠ .setHash i hash) ∧
      pending (HubAct.setsHash i) (afterRun c t rest r) = pending (HubAct.setsHash i) c ∧
      pending (HubAct.registers i) (afterRun c t rest r) = pending (HubAct.registers i) c) := by
  obtain ⟨hpush, hspawn⟩ | ⟨hash, rfl, hfresh, hrunning, hpush, hspawn⟩ := hubAct_registers hact i
  · have hset := pending_run_of_none (r := r) hthread (fun b hb => (hpush b hb).1)
      (fun l hl b hb => (hspawn l hl b hb).1)
    have hreg := pending_run_of_none (r := r) hthread (fun b hb => (hpush b hb).2)
      (fun l hl b hb => (hspawn l hl b hb).2)
    cases a with
    | registerLocked j =>
      by_cases hj : j = i
      · subst hj
        simp only [HubAct.setsHash, HubAct.registers, List.countP_singleton] at hset hreg
        exact .inr (.inl ⟨rfl, by simpa using hset, by simpa using hreg⟩)
      · simp only [HubAct.setsHash, HubAct.registers, List.countP_singleton, hj] at hset hreg
        exact .inr (.inr (.inr ⟨by simpa using hj, by simp, by simpa using hset,
          by simpa using hreg⟩))
    | setHash j hash =>
      by_cases hj : j = i
      · subst hj
        simp only [HubAct.setsHash, HubAct.registers, List.countP_singleton] at hset hreg
        exact .inr (.inr (.inl ⟨⟨hash, rfl⟩, by simpa using hset, by simpa using hreg⟩))
      · simp only [HubAct.setsHash, HubAct.registers, List.countP_singleton, hj] at hset hreg
        exact .inr (.inr (.inr ⟨by simp, by simp [hj], by simpa using hset, by simpa using hreg⟩))
    | _ => exact .inr (.inr (.inr ⟨by simp, by simp, hset, hreg⟩))
  · have hset := pending_run (p := HubAct.setsHash i) (r := r) hthread
    have hreg := pending_run (p := HubAct.registers i) (r := r) hthread
    simp only [hpush, hspawn, HubAct.setsHash, HubAct.registers, List.countP_cons, List.countP_nil,
      List.map_nil, List.sum_nil] at hset hreg
    exact .inl ⟨⟨hash, rfl⟩, hfresh, hrunning, by simpa [afterRun, hpush, hspawn] using hset,
      by simpa [afterRun, hpush, hspawn] using hreg⟩

theorem Registration.hashed_mono (h : Registration c) (hthread : c.threads[t]? = some (a :: rest))
    (hact : hubAct text cfg x c.shared a = some r) : c.shared.Hashed ≤ r.shared.Hashed := by
  intro j hj
  obtain heq | ⟨hash, rfl, heq⟩ := (hubAct_outcome hact).peersAfter.peerHash j
  · exact fun hempty => hj (heq ▸ hempty)
  · have hlength : hash.length = identityLength := (h.disciplined t _ hthread).1
    rintro hempty
    rw [heq] at hempty
    simp [hempty, identityLength] at hlength

/-- Only `register` and the read before it push actions whose order matters. -/
theorem Registration.allowed_of_leads (h : Registration c) {b : HubAct}
    (hallowed : hashDiscipline.Allowed c.shared.Hashed a) (hlead : a.Leads c.shared b)
    (hregister : ∀ i hash, a ≠ .register i hash) (hread : ∀ i env, a ≠ .readRemote i env) :
    hashDiscipline.Allowed c.shared.Hashed b := by
  cases hlead with
  | acceptReadRemote hremote => exact h.identity hremote
  | checkRemote | setRemote | fireIdentified _ => exact hallowed
  | readRegister _ | readRecheck => exact absurd rfl (hread _ _)
  | setHash _ _ | registerLocked _ _ | onceDone => exact absurd rfl (hregister _ _)
  | _ => exact trivial

theorem Registration.keeps_push (h : Registration c) (hthread : c.threads[t]? = some (a :: rest))
    (hact : hubAct text cfg x c.shared a = some r) :
    hashDiscipline.Keeps r.shared.Hashed (r.push ++ rest) := by
  have hmono := h.hashed_mono hthread hact
  obtain ⟨hallowed, hrest⟩ := h.disciplined t _ hthread
  cases a with
  | setHash i hash =>
    cases hact
    refine hashDiscipline_monotone.keeps (fun j hj => ?_) hrest
    obtain rfl | hj := hj
    · intro hempty
      simp only [HubState.set_peer_self] at hempty
      simp [hashDiscipline, HubAct.AllowedHashed, hempty, identityLength] at hallowed
    · exact hmono j hj
  | register i hash =>
    simp only [hubAct] at hact
    split at hact
    · exact absurd hallowed ‹_›
    · split at hact <;> cases hact
      · refine ⟨hallowed, .inl rfl, .inl rfl, hashDiscipline_monotone.keeps (fun j hj => ?_) hrest⟩
        exact hj.imp_right (hmono j)
      · refine hashDiscipline_monotone.keeps (fun j hj => ?_) hrest
        obtain rfl | hj := hj
        · exact h.done ‹_›
        · exact hj
  | readRemote i env =>
    simp only [hubAct] at hact
    split at hact
    · cases hact
      exact ⟨h.identity ‹_›, fun _ => .inl rfl, hashDiscipline_monotone.keeps (fun j => .inr) hrest⟩
    · split at hact <;> cases hact
      · exact ⟨trivial, hrest⟩
      · exact ⟨fun htype => absurd htype ‹_›, hrest⟩
  | _ =>
    refine hashDiscipline_monotone.push (fun b hb => ?_)
      (hashDiscipline_monotone.keeps hmono hrest)
    exact hashDiscipline_monotone.allowed hmono
      (h.allowed_of_leads hallowed (hubAct_leads hact hb) (by simp) (by simp))

theorem HubAct.Outcome.listed (h : a.Outcome text cfg x s s') (hi : s'.Listed i) :
    s.Listed i ∨ a = .registerLocked i := by
  obtain ⟨k, hk⟩ := hi
  obtain hk | ⟨ha, -⟩ := h.lookup hk
  · exact .inl ⟨k, hk⟩
  · exact .inr ha

theorem HubAct.Outcome.hashed (h : a.Outcome text cfg x s s') (hi : s'.Hashed i) :
    s.Hashed i ∨ ∃ hash, a = .setHash i hash := by
  obtain heq | ⟨hash, ha, -⟩ := h.peersAfter.peerHash i
  · exact .inl fun hempty => hi (heq.trans hempty)
  · exact .inr ⟨hash, ha⟩

/-- In the critical section the hash is set, and this is the only registration. -/
theorem Registration.at_registerLocked (h : Registration c)
    (hthread : c.threads[t]? = some (.registerLocked i :: rest)) :
    c.shared.Hashed i ∧ pending (HubAct.setsHash i) c = 0 ∧
      pending (HubAct.registers i) c = 1 := by
  have hhashed : c.shared.Hashed i := (h.disciplined t _ hthread).1
  have hpos : 0 < pending (HubAct.registers i) c :=
    pending_pos hthread List.mem_cons_self (decide_eq_true rfl)
  refine ⟨hhashed, Nat.eq_zero_of_not_pos fun hset => h.unset hset hhashed, ?_⟩
  exact Nat.le_antisymm (h.once i) hpos

theorem Registration.run (h : Registration c) (hthread : c.threads[t]? = some (a :: rest))
    (hact : hubAct text cfg x c.shared a = some r) : Registration (afterRun c t rest r) where
  disciplined := by
    have hmono := h.hashed_mono hthread hact
    refine Each.run h.disciplined hthread (h.keeps_push hthread hact)
      (fun j as _ => hashDiscipline_monotone.keeps hmono) fun l hl _ _ => ?_
    obtain hspawn | ⟨i, data, -, -, -, hspawn⟩ := hubAct_spawn hact
    · rw [hspawn] at hl
      cases hl
    · rw [hspawn, List.mem_singleton] at hl
      subst hl
      exact ⟨trivial, trivial⟩
  identity {i hash} hremote := by
    obtain heq | ⟨hash', rfl, heq⟩ := (hubAct_outcome hact).peersAfter.remoteIdentity i
    · exact h.identity (heq ▸ hremote)
    · obtain rfl := Option.some.inj (heq.symm.trans hremote)
      exact (h.disciplined t _ hthread).1
  keys {k i} hk := by
    have hhash := (hubAct_outcome hact).peersAfter.peerHash i
    obtain hold | ⟨rfl, hkey⟩ := (hubAct_outcome hact).lookup hk
    · obtain heq | ⟨hash, rfl, -⟩ := hhash
      · exact heq.trans (h.keys hold)
      · have hset : 0 < pending (HubAct.setsHash i) c :=
          pending_pos hthread List.mem_cons_self (decide_eq_true rfl)
        exact absurd ⟨k, hold⟩ (h.unlisted (hset.trans_le (h.setOnce i)))
    · obtain heq | ⟨hash, heq, -⟩ := hhash
      · exact heq.trans hkey.symm
      · cases heq
  fresh {i} hfresh' := by
    have hout := hubAct_outcome hact
    have hfresh : (c.shared.peer i).registerOnce = .fresh := by
      obtain heq | ⟨_, -, -, heq⟩ | ⟨-, heq⟩ := hout.peersAfter.registerOnce i
      · exact heq.symm.trans hfresh'
      · cases heq.symm.trans hfresh'
      · cases heq.symm.trans hfresh'
    obtain ⟨hhash, hzero, hlisted⟩ := h.fresh hfresh
    have hset := h.setOnce i
    obtain ⟨-, -, hrunning, -⟩ | ⟨rfl, -, hreg⟩ | ⟨-, hset', -⟩ | ⟨hne, hne', -, hreg⟩ :=
      pending_registers hthread hact i
    · cases hrunning.symm.trans hfresh'
    · omega
    · omega
    · refine ⟨fun hi => ?_, hreg.trans hzero, fun hi => ?_⟩
      · exact (hout.hashed hi).elim hhash fun ⟨hash, ha⟩ => hne' hash ha
      · exact (hout.listed hi).elim hlisted hne
  done {i} hdone := by
    have hmono := h.hashed_mono hthread hact
    obtain heq | ⟨_, -, -, heq⟩ | ⟨rfl, -⟩ := (hubAct_outcome hact).peersAfter.registerOnce i
    · exact hmono i (h.done (heq.symm.trans hdone))
    · cases heq.symm.trans hdone
    · exact hmono i (h.disciplined t _ hthread).1
  once i := by
    have honce := h.once i
    obtain ⟨-, hfresh, -, -, hreg⟩ | ⟨rfl, -, hreg⟩ | ⟨-, -, hreg⟩ | ⟨-, -, -, hreg⟩ :=
      pending_registers hthread hact i
    · have hzero := (h.fresh hfresh).2.1
      omega
    · omega
    · omega
    · omega
  unlisted {i} hpos hi := by
    have hlisted := (hubAct_outcome hact).listed hi
    obtain ⟨⟨_, rfl⟩, hfresh, -⟩ | ⟨rfl, -, hreg⟩ | ⟨⟨_, rfl⟩, -, hreg⟩ | ⟨hne, -, -, hreg⟩ :=
      pending_registers hthread hact i
    · exact hlisted.elim (h.fresh hfresh).2.2 (by simp)
    · have hone := (h.at_registerLocked hthread).2.2
      omega
    · exact hlisted.elim (h.unlisted (hreg ▸ hpos)) (by simp)
    · exact hlisted.elim (h.unlisted (hreg ▸ hpos)) hne
  setOnce i := by
    have hle := h.setOnce i
    obtain ⟨-, -, -, hset, hreg⟩ | ⟨rfl, hset, hreg⟩ | ⟨-, hset, hreg⟩ | ⟨-, -, hset, hreg⟩ :=
      pending_registers hthread hact i
    · omega
    · have hzero := (h.at_registerLocked hthread).2.1
      omega
    · omega
    · omega
  unset {i} hpos hi := by
    have hhashed := (hubAct_outcome hact).hashed hi
    have hle := h.setOnce i
    have honce := h.once i
    obtain ⟨⟨_, rfl⟩, hfresh, -⟩ | ⟨rfl, hset, -⟩ | ⟨-, hset, -⟩ | ⟨-, hne, hset, -⟩ :=
      pending_registers hthread hact i
    · exact hhashed.elim (h.fresh hfresh).1 (by simp)
    · have hzero := (h.at_registerLocked hthread).2.1
      omega
    · omega
    · exact hhashed.elim (h.unset (hset ▸ hpos)) fun ⟨hash, ha⟩ => hne hash ha
  listed {i} hi := by
    have hmono := h.hashed_mono hthread hact
    obtain hi | rfl := (hubAct_outcome hact).listed hi
    · exact hmono i (h.listed hi)
    · exact hmono i (h.at_registerLocked hthread).1

/-! ## Runs -/

theorem hubEnv_registers {e : HubEvent} {l : List HubAct} {b : HubAct}
    (henv : hubEnv s e = some r) (hl : l ∈ r.spawn) (hb : b ∈ l) (i : Nat) :
    b.setsHash i = false ∧ b.registers i = false := by
  cases hubEnv_starts henv hl hb with
  | established h => exact mem_acceptLink_cases h ⟨rfl, rfl⟩ ⟨rfl, rfl⟩ ⟨rfl, rfl⟩ ⟨rfl, rfl⟩ ⟨rfl, rfl⟩
  | packet _ | identify _ _ | close => exact ⟨rfl, rfl⟩

theorem Registration.env (h : Registration c) {e : HubEvent}
    (henv : hubEnv c.shared e = some r) : Registration ⟨r.shared, c.threads ++ r.spawn⟩ := by
  have hpeer := hubEnv_at henv
  have hpeers := (hubEnv_membership henv).peers
  have hhash : ∀ i, r.shared.Hashed i ↔ c.shared.Hashed i := fun i => by
    obtain ⟨status, heq⟩ := hpeer i
    simp only [HubState.Hashed, heq]
  have honce : ∀ i, (r.shared.peer i).registerOnce = (c.shared.peer i).registerOnce := fun i => by
    obtain ⟨status, heq⟩ := hpeer i
    rw [heq]
  have hlisted : ∀ i, r.shared.Listed i ↔ c.shared.Listed i := fun i => by
    simp only [HubState.Listed, hpeers]
  have hset : ∀ i, pending (HubAct.setsHash i) ⟨r.shared, c.threads ++ r.spawn⟩ =
      pending (HubAct.setsHash i) c := fun i =>
    pending_env_of_none fun l hl b hb => (hubEnv_registers henv hl hb i).1
  have hreg : ∀ i, pending (HubAct.registers i) ⟨r.shared, c.threads ++ r.spawn⟩ =
      pending (HubAct.registers i) c := fun i =>
    pending_env_of_none fun l hl b hb => (hubEnv_registers henv hl hb i).2
  refine ⟨?_, ?_, ?_, ?_, ?_, ?_, ?_, ?_, ?_, ?_⟩
  · refine h.disciplined.env hashDiscipline_monotone (fun i => (hhash i).mpr) fun l hl => ?_
    rw [← List.append_nil l]
    refine hashDiscipline_monotone.push (fun b hb => ?_) trivial
    cases hubEnv_starts henv hl hb with
    | established h => exact mem_acceptLink_cases h trivial trivial trivial trivial trivial
    | identify _ hlength => exact hlength
    | packet _ | close => exact trivial
  · intro i hash hremote
    obtain ⟨status, heq⟩ := hpeer i
    exact h.identity (by rw [heq] at hremote; exact hremote)
  · intro k i hk
    obtain ⟨status, heq⟩ := hpeer i
    rw [heq]
    exact h.keys (hpeers ▸ hk)
  · intro i hfresh
    simp only [hhash, hlisted, hreg]
    exact h.fresh ((honce i).symm.trans hfresh)
  · intro i hdone
    exact (hhash i).mpr (h.done ((honce i).symm.trans hdone))
  · simpa only [hreg] using h.once
  · simp only [hreg, hlisted]
    exact h.unlisted
  · simpa only [hreg, hset] using h.setOnce
  · simp only [hset, hhash]
    exact h.unset
  · simp only [hlisted, hhash]
    exact h.listed

theorem Registration.step (h : Registration c) {e : Event HubChoice HubEvent}
    (hstep : hubStep text cfg c e = some c') : Registration c' := by
  cases Program.steps_of_step hstep with
  | run hthread hact => exact h.run hthread hact
  | env henv => exact h.env henv

/-- The bookkeeping of registrations is right in every state the hub reaches. -/
theorem registration_of_run {es : List (Event HubChoice HubEvent)}
    (hrun : run (hubStep text cfg) hubInit es = some c) : Registration c :=
  run_invariant (fun h h' => h.step h') hubInit_registration hrun

/-! ## Registered peers -/

/-- The critical section of the peer's registration is behind it. -/
def Registered (c : HubConf) (i : Nat) : Prop :=
  (c.shared.peer i).registerOnce ≠ .fresh ∧ pending (HubAct.registers i) c = 0

theorem Registration.registered (h : Registration c) (hi : c.shared.Listed i) : Registered c i :=
  ⟨fun hfresh => (h.fresh hfresh).2.2 hi, Nat.eq_zero_of_not_pos fun hpos => h.unlisted hpos hi⟩

theorem Registered.run (h : Registered c i) (hthread : c.threads[t]? = some (a :: rest))
    (hact : hubAct text cfg x c.shared a = some r) : Registered (afterRun c t rest r) i := by
  refine ⟨?_, ?_⟩
  · obtain heq | ⟨_, -, -, heq⟩ | ⟨-, heq⟩ := (hubAct_outcome hact).peersAfter.registerOnce i
    · exact heq ▸ h.1
    · exact heq ▸ Once.noConfusion
    · exact heq ▸ Once.noConfusion
  · obtain ⟨-, hfresh, -⟩ | ⟨-, -, hreg⟩ | ⟨-, -, hreg⟩ | ⟨-, -, -, hreg⟩ :=
      pending_registers hthread hact i
    · exact absurd hfresh h.1
    · have hzero := h.2
      omega
    · exact hreg.trans h.2
    · exact hreg.trans h.2

theorem registered_env {e : HubEvent} (henv : hubEnv c.shared e = some r) :
    Registered ⟨r.shared, c.threads ++ r.spawn⟩ i ↔ Registered c i := by
  obtain ⟨status, heq⟩ := hubEnv_at henv i
  have hpending : pending (HubAct.registers i) ⟨r.shared, c.threads ++ r.spawn⟩ =
      pending (HubAct.registers i) c :=
    pending_env_of_none fun l hl b hb => (hubEnv_registers henv hl hb i).2
  simp only [Registered, heq, hpending]

theorem Registered.step (h : Registered c i) {e : Event HubChoice HubEvent}
    (hstep : hubStep text cfg c e = some c') : Registered c' i := by
  cases Program.steps_of_step hstep with
  | run hthread hact => exact h.run hthread hact
  | env henv => exact (registered_env henv).mpr h

/-- A peer becomes registered in the critical section, and nowhere else. -/
theorem Registration.registered_of_run (h : Registration c)
    (hthread : c.threads[t]? = some (a :: rest)) (hact : hubAct text cfg x c.shared a = some r)
    (hi : Registered (afterRun c t rest r) i) : Registered c i ∨ a = .registerLocked i := by
  by_cases ha : a = .registerLocked i
  · exact .inr ha
  refine .inl ?_
  have hzero : pending (HubAct.registers i) c = 0 := by
    have hzero' := hi.2
    obtain ⟨-, -, -, -, hreg⟩ | ⟨ha', -⟩ | ⟨-, -, hreg⟩ | ⟨-, -, -, hreg⟩ :=
      pending_registers hthread hact i
    · omega
    · exact absurd ha' ha
    · omega
    · omega
  refine ⟨fun hfresh => ?_, hzero⟩
  obtain heq | ⟨hash, rfl, -, -⟩ | ⟨rfl, -⟩ := (hubAct_outcome hact).peersAfter.registerOnce i
  · exact hi.1 (heq.trans hfresh)
  · -- a first call of `register` has the critical section still to come
    have hlength : hash.length = identityLength := (h.disciplined t _ hthread).1
    simp only [hubAct, hlength, hfresh, ne_eq, not_true_eq_false, if_false] at hact
    have hpush : .registerLocked i ∈ r.push := by
      cases hact
      simp
    have hpos : 0 < pending (HubAct.registers i) (afterRun c t rest r) :=
      pending_pos_run hthread hpush (decide_eq_true rfl)
    exact absurd hi.2 hpos.ne'
  · exact (h.fresh hfresh).1 (h.disciplined t _ hthread).1

/-- The hash of a peer does not change any more once it is set. -/
theorem Registration.peerHash_run (h : Registration c) (hi : c.shared.Hashed i)
    (hthread : c.threads[t]? = some (a :: rest)) (hact : hubAct text cfg x c.shared a = some r) :
    (r.shared.peer i).peerHash = (c.shared.peer i).peerHash := by
  obtain heq | ⟨hash, rfl, -⟩ := (hubAct_outcome hact).peersAfter.peerHash i
  · exact heq
  · have hset : 0 < pending (HubAct.setsHash i) c :=
      pending_pos hthread List.mem_cons_self (decide_eq_true rfl)
    exact absurd hi (h.unset hset)

theorem Registration.peerHash_step (h : Registration c) (hi : c.shared.Hashed i)
    {e : Event HubChoice HubEvent} (hstep : hubStep text cfg c e = some c') :
    (c'.shared.peer i).peerHash = (c.shared.peer i).peerHash := by
  cases Program.steps_of_step hstep with
  | run hthread hact => exact h.peerHash_run hi hthread hact
  | env henv =>
    obtain ⟨status, heq⟩ := hubEnv_at henv i
    rw [heq]

theorem peerHash_of_run (h : Registration c) (hi : c.shared.Hashed i)
    {es : List (Event HubChoice HubEvent)} (hrun : run (hubStep text cfg) c es = some c') :
    (c'.shared.peer i).peerHash = (c.shared.peer i).peerHash := by
  have hinv : ∀ {m e m'}, Registration m ∧ (m.shared.peer i).peerHash = (c.shared.peer i).peerHash →
      hubStep text cfg m e = some m' →
      Registration m' ∧ (m'.shared.peer i).peerHash = (c.shared.peer i).peerHash := by
    rintro m e m' ⟨hreg, hhash⟩ hstep
    have hhashed : m.shared.Hashed i := by rwa [HubState.Hashed, hhash]
    exact ⟨hreg.step hstep, (hreg.peerHash_step hhashed hstep).trans hhash⟩
  exact (run_invariant hinv ⟨h, rfl⟩ hrun).2

end Rrc
