-- SUMMARY: What the goroutines of the hub and of Dial can wait for, and that nothing waits for ever.
import ReticulumMf.Rrc.Accept
import ReticulumMf.Rrc.ClientTraffic
import ReticulumMf.Rrc.Dial
import ReticulumMf.Rrc.History

/-!
# Progress

A goroutine of the hub waits only for `registerOnce`, which another goroutine holds
while it registers the same link. That one goes on: it calls handlers and closes
sessions, but does not register anything itself. So the hub's goroutines all come
to their end (`hub_settles`), and after finitely many steps (`hub_rests`).

On the client `Dial` waits, parked in its `select`; when it does, the timer runs, and
nothing that could wake it has been missed (`dial_settles`).
-/

namespace Rrc

open Threads Transition

/-! ## The hub -/

section Hub

variable {text : GoText} {cfg : HubConfig} {t : Nat} {x : HubChoice} {s s' : HubState}
  {a b : HubAct} {r : Effect HubState HubAct} {i j : Nat} {c c' : HubConf} {rest : List HubAct}
  {es es' : List (Event HubChoice HubEvent)}

/-- What may run inside `registerOnce.Do`. -/
def HubAct.Inner : HubAct → Prop
  | .setHash _ _ | .registerLocked _ | .onceDone _ | .handlePeer _ _ | .applyInboundNick _ _ _
  | .onHello _ _ | .onJoin _ _ | .onPart _ _ | .onRoomContent _ _ | .relay _ _ _ | .reply _ _
  | .forward _ _ | .call _ _ | .close _ | .teardown _ | .dropPeerIf _ => True
  | _ => False

def HubAct.endsOnce (i : Nat) : HubAct → Bool
  | .onceDone j => j = i
  | _ => false

/-- The action uses the session of peer `i`. -/
def HubAct.UsesSess (i : Nat) : HubAct → Prop
  | .applyInboundNick j _ _ | .relay j _ _ | .close j => j = i
  | .reply j m => j = i ∧ m.usesSess = true
  | _ => False

/-- No registration is started before one that is under way has ended, and each of those is
held by some goroutine. -/
structure OnceHeld (c : HubConf) : Prop where
  inner : Each (fun _ _ as => as.Pairwise fun a b => ∀ i, b.endsOnce i = true → a.Inner) c
  running : ∀ {i}, (c.shared.peer i).registerOnce = .running → 0 < pending (HubAct.endsOnce i) c

theorem hubInit_onceHeld : OnceHeld hubInit := by
  constructor <;> simp [hubInit, Each]

theorem HubAct.Leads.inner (h : a.Leads s b) (ha : a.Inner) : b.Inner := by
  cases h with
  | setHash _ _ | registerLocked _ _ | onceDone | displace _ _ | waiting _ | handlePeer | nickTooLong
  | nickClose | onHello _ | onJoin | onPart | onRoomContent _ | welcome | joinError | joined | parted
  | contentError | relay | relayError | forward _ _ | relayed | callOnHello | welcomeFailed
  | callOnJoin | callOnPart | teardown | dropPeerIf | callOnClose => exact trivial
  | _ => exact ha.elim

theorem HubAct.Leads.eq_register (h : a.Leads s b) (hb : b.endsOnce i = true) :
    ∃ hash, a = .register i hash := by
  cases h with
  | @onceDone j hash =>
    obtain rfl : j = i := of_decide_eq_true hb
    exact ⟨hash, rfl⟩
  | _ => cases hb

theorem HubAct.Leads.inner_of_register {hash : Bytes} (h : (HubAct.register i hash).Leads s b) :
    b.Inner := by
  cases h <;> exact trivial

theorem OnceHeld.run (h : OnceHeld c) (hthread : c.threads[t]? = some (a :: rest))
    (hact : hubAct text cfg x c.shared a = some r) : OnceHeld (afterRun c t rest r) := by
  obtain ⟨hhead, htail⟩ := List.pairwise_cons.mp (h.inner t _ hthread)
  have hnew : ∀ l : List HubAct, (∀ b ∈ l, a.Leads c.shared b) →
      l.Pairwise fun a b => ∀ i, b.endsOnce i = true → a.Inner := by
    refine fun l hl => List.pairwise_of_forall_mem_list fun b hb b' hb' i hends => ?_
    obtain ⟨hash, rfl⟩ := (hl b' hb').eq_register hends
    exact (hl b hb).inner_of_register
  refine ⟨Each.run h.inner hthread ?_ (fun _ _ _ hall => hall) ?_, fun {i} hrunning => ?_⟩
  · refine List.pairwise_append.mpr ⟨?_, htail, fun b hb b' hb' i hends => ?_⟩
    · exact hnew _ fun b hb => hubAct_leads hact hb
    · exact (hubAct_leads hact hb).inner (hhead b' hb' i hends)
  · exact fun l hl _ _ => hnew l fun b hb => hubAct_starts hact (.inr ⟨l, hl, hb⟩)
  · by_cases hdone : a = .onceDone i
    · subst hdone
      cases hact
      simp at hrunning
    · obtain heq | ⟨hash, rfl, hfresh, heq⟩ | ⟨heq, -⟩ :=
        (hubAct_outcome hact).peersAfter.registerOnce i
      · have hends : a.endsOnce i = false := by
          cases a with
          | onceDone j => exact decide_eq_false fun heq => hdone (by rw [heq])
          | _ => rfl
        exact (h.running (heq ▸ hrunning)).trans_le (pending_le_run hthread hends)
      · simp only [hubAct, hfresh] at hact
        split at hact <;> cases hact
        · cases hfresh.symm.trans heq
        · exact pending_pos_run hthread (b := .onceDone i) (by simp) (by simp [HubAct.endsOnce])
      · exact absurd heq hdone

theorem OnceHeld.event (h : OnceHeld c) {e : HubEvent} (henv : hubEnv c.shared e = some r) :
    OnceHeld ⟨r.shared, c.threads ++ r.spawn⟩ := by
  refine ⟨Each.env h.inner (fun _ _ hall => hall) fun l hl _ _ => ?_, fun {i} hrunning => ?_⟩
  · refine List.pairwise_of_forall_mem_list fun b _ b' hb' i hends => ?_
    cases hubEnv_starts henv hl hb' with
    | established hmem =>
      revert hends
      exact mem_acceptLink_cases hmem nofun nofun nofun nofun nofun
    | packet _ | identify _ _ | close => cases hends
  · obtain ⟨status, heq⟩ := hubEnv_at henv i
    rw [heq] at hrunning
    exact (h.running hrunning).trans_le pending_le_env

theorem onceHeld_of_run (hrun : run (hubStep text cfg) hubInit es = some c) : OnceHeld c := by
  have hstep : ∀ {c e c'}, OnceHeld c → hubStep text cfg c e = some c' → OnceHeld c' := by
    intro c e c' h hstep
    cases Program.steps_of_step hstep with
    | run hthread hact => exact h.run hthread hact
    | env henv => exact h.event henv
  exact run_invariant hstep hubInit_onceHeld hrun

/-- What a goroutine that cannot move is waiting for: a registration that is under way, or
a session that is not there. -/
theorem hubAct_blocked (h : ∀ x, hubAct text cfg x s a = none) :
    (∃ i hash, a = .register i hash ∧ (s.peer i).registerOnce = .running) ∨
      ∃ i, a.UsesSess i ∧ (s.peer i).sess = false := by
  cases a with
  | register i hash =>
    have hnone := h {}
    simp only [hubAct] at hnone
    split at hnone
    · cases hnone
    · split at hnone
      · cases hnone
      · exact .inl ⟨i, hash, rfl, ‹_›⟩
      · cases hnone
  | applyInboundNick i env active =>
    have hnone := h {}
    simp only [hubAct] at hnone
    split at hnone
    · cases hnone
    · split at hnone
      · cases hnone
      · split at hnone
        · exact .inr ⟨i, rfl, ‹_›⟩
        · cases hnone
  | relay i env room =>
    by_cases hsess : (s.peer i).sess = true
    · obtain ⟨r, hr⟩ : ∃ r, relayAct cfg (readyChoice (s.recipients i room)) s i env room = some r :=
        relayAct_isSome hsess
      cases hr.symm.trans (h _)
    · exact .inr ⟨i, rfl, Bool.eq_false_iff.mpr hsess⟩
  | reply i m =>
    have hnone := h {}
    simp only [hubAct] at hnone
    split at hnone
    · rename_i hsess
      exact .inr ⟨i, ⟨rfl, hsess.1⟩, hsess.2⟩
    · cases hnone
  | close i =>
    have hnone := h {}
    simp only [hubAct] at hnone
    split at hnone
    · exact .inr ⟨i, rfl, ‹_›⟩
    · split at hnone <;> cases hnone
  | hubClose =>
    have hnone := h { order := s.peers.entries.map (·.2) }
    simp [hubAct] at hnone
  | handleInbound i data | readRemote i env =>
    have hnone := h {}
    simp only [hubAct] at hnone
    split at hnone
    · cases hnone
    · split at hnone <;> cases hnone
  | onJoin i env =>
    have hnone := h {}
    simp only [hubAct] at hnone
    split at hnone
    · cases hnone
    · split at hnone
      · cases hnone
      · split at hnone <;> cases hnone
  | onPart i env | onRoomContent i env =>
    have hnone := h {}
    simp only [hubAct] at hnone
    split at hnone
    · cases hnone
    · split at hnone <;> cases hnone
  | deliver i data | checkRemote i hash | fireIdentified i hash | onMsg i env | recheck i env
  | forward i env | teardown i | dropPeerIf i =>
    have hnone := h {}
    simp only [hubAct] at hnone
    split at hnone <;> cases hnone
  | _ => cases h {}

/-- The goroutine's next step dereferences a nil session. -/
def HubConf.Crashed (c : HubConf) : Prop :=
  ∃ t a i, c.next t = some a ∧ a.UsesSess i ∧ (c.shared.peer i).sess = false

theorem OnceHeld.quiescent_or_crashed (h : OnceHeld c) (hstuck : (hubProgram text cfg).Stuck c) :
    Quiescent c ∨ HubConf.Crashed c := by
  by_cases hcrashed : HubConf.Crashed c
  · exact .inr hcrashed
  refine .inl fun as has => ?_
  obtain ⟨t, ht⟩ := List.mem_iff_getElem?.mp has
  cases as with
  | nil => rfl
  | cons a rest =>
    exfalso
    have hwaits : ∀ {t : Nat} {a : HubAct} {rest}, c.threads[t]? = some (a :: rest) →
        ∃ i hash, a = .register i hash ∧ (c.shared.peer i).registerOnce = .running := by
      intro t a rest ht
      refine (hubAct_blocked fun x => hstuck.blocked ht x).resolve_right ?_
      rintro ⟨i, huses, hsess⟩
      exact hcrashed ⟨t, a, i, Config.next_eq ht, huses, hsess⟩
    -- the one who registers is not waiting for a registration
    obtain ⟨i, hash, -, hrunning⟩ := hwaits ht
    obtain ⟨t', as, ht', b, hb, hends⟩ := exists_of_pending_pos (h.running hrunning)
    cases as with
    | nil => cases hb
    | cons a' rest' =>
      obtain ⟨i', hash', rfl, -⟩ := hwaits ht'
      obtain rfl | hb := List.mem_cons.mp hb
      · cases hends
      · exact (List.pairwise_cons.mp (h.inner t' _ ht')).1 b hb i hends

-- Sessions that are closed have been assigned.

theorem SessionFirst.uses_of_leads (h : SessionFirst c) (hreg : Registration c)
    (hallowed : assignDiscipline.Allowed c.shared.Assigned a) (hlead : a.Leads c.shared (.close j)) :
    c.shared.Assigned j := by
  cases hlead with
  | displace hlookup _ | hubClose hlookup => exact h.hashed (hreg.listed ⟨_, hlookup⟩)
  | nickClose => exact hallowed
  | welcomeFailed => exact hallowed rfl

/-- Whoever closes a session finds it assigned. -/
def ClosesAssigned : HubConf → Prop :=
  Each fun s _ as => ∀ a ∈ as, ∀ i, a = .close i → s.Assigned i

theorem ClosesAssigned.step (h : ClosesAssigned c) (hfirst : SessionFirst c) (hreg : Registration c)
    {e : Event HubChoice HubEvent} (hstep : hubStep text cfg c e = some c') : ClosesAssigned c' := by
  cases Program.steps_of_step hstep with
  | run hthread hact =>
    have hmono := assigned_mono (hubAct_outcome hact).peersAfter
    refine Each.forall_run h hthread (fun b hb i heq => hmono i (hb i heq)) ?_
    rintro b hb i rfl
    exact hmono i (hfirst.uses_of_leads hreg (hfirst.disciplined _ _ hthread).1 (hubAct_starts hact hb))
  | env henv =>
    refine Each.forall_env h (fun b hb i heq => ?_) ?_
    · obtain ⟨status, hat⟩ := hubEnv_at henv i
      rw [HubState.Assigned, hat]
      exact hb i heq
    · rintro l hl b hb i rfl
      cases hubEnv_starts henv hl hb with
      | established hmem => simp [acceptLink] at hmem

theorem not_crashed_of_good (hgood : AllSteps (hubStep text cfg) GoodAccept hubInit es)
    (hrun : run (hubStep text cfg) hubInit es = some c) : ¬HubConf.Crashed c := by
  have hstep : ∀ {c e c'}, SessionFirst c ∧ Registration c ∧ ClosesAssigned c →
      hubStep text cfg c e = some c' → GoodAccept c e →
      SessionFirst c' ∧ Registration c' ∧ ClosesAssigned c' := fun h hstep hgood =>
    ⟨h.1.step hstep hgood, h.2.1.step hstep, h.2.2.step h.1 h.2.1 hstep⟩
  have hinit : ClosesAssigned hubInit := by simp [ClosesAssigned, hubInit, Each]
  obtain ⟨hfirst, -, hcloses⟩ :=
    run_of_good hstep ⟨hubInit_sessionFirst, hubInit_registration, hinit⟩ hgood hrun
  rintro ⟨t, a, i, hnext, huses, hsess⟩
  obtain ⟨rest, hthread⟩ := Config.thread_of_next hnext
  have hallowed := (hfirst.disciplined t _ hthread).1
  refine Bool.eq_false_iff.mp hsess ?_
  cases a with
  | applyInboundNick j env active | relay j env room =>
    obtain rfl : j = i := huses
    exact hallowed
  | close j =>
    obtain rfl : j = i := huses
    exact hcloses t _ hthread _ List.mem_cons_self j rfl
  | reply j m =>
    obtain ⟨rfl, hm⟩ := huses
    exact hallowed hm
  | _ => exact huses.elim

/-- The hub does not deadlock: if no goroutine can move, all have ended, unless one has found
a nil session; and none does if no packet finds its link identified before `acceptLink` has
assigned the session. -/
theorem hub_settles (hrun : run (hubStep text cfg) hubInit es = some c)
    (hstuck : (hubProgram text cfg).Stuck c) :
    (Quiescent c ∨ HubConf.Crashed c) ∧
      (AllSteps (hubStep text cfg) GoodAccept hubInit es → Quiescent c) := by
  have hcases := (onceHeld_of_run hrun).quiescent_or_crashed hstuck
  exact ⟨hcases, fun hgood => hcases.resolve_right (not_crashed_of_good hgood hrun)⟩

/-- A HELLO has waited for the registration and is answered; then there is nothing to do. -/
theorem sample_hub_settles :
    ∃ c, run (hubStep .ascii sampleHub) hubInit sampleBuffered = some c ∧
      (hubProgram .ascii sampleHub).Stuck c ∧ Quiescent c := by
  have hend : (run (hubStep .ascii sampleHub) hubInit sampleBuffered).map
      (fun c => c.threads.all List.isEmpty) = some true := by
    decide +kernel
  obtain ⟨c, hrun, hended⟩ := Option.map_eq_some_iff.mp hend
  have hstuck := Program.stuck_of_ended (P := hubProgram .ascii sampleHub) (quiescent_of_isEmpty hended)
  exact ⟨c, hrun, hstuck, (hub_settles hrun hstuck).2 (by decide +kernel)⟩

/-! ## Termination -/

/-- How many steps an action leads to at most, with `n` sessions. -/
def HubAct.left (n : Nat) : HubAct → Nat
  | .forward _ _ | .call _ _ | .teardown _ | .queuePlain _ _ | .bufferHello _ _ | .setHash _ _
  | .onceDone _ | .setPacketCallback _ | .assignSess _ | .setIdentifiedCallback _ => 1
  | .dropPeerIf _ => 2
  | .close _ => 4
  | .reply _ _ => 5
  | .onHello _ _ | .onJoin _ _ | .onPart _ _ => 6
  | .relay _ _ _ => n + 6
  | .onRoomContent _ _ => n + 7
  | .applyInboundNick _ _ _ => n + 13
  | .handlePeer _ _ => n + 14
  | .recheck _ _ => n + 15
  | .registerLocked _ => n + 19
  | .register _ _ => n + 22
  | .fireIdentified _ _ | .acceptReadRemote _ => n + 23
  | .setRemote _ _ => n + 24
  | .checkRemote _ _ => n + 25
  | .readRemote _ _ => 2 * n + 38
  | .onMsg _ _ => 2 * n + 39
  | .handleInbound _ _ => 2 * n + 45
  | .deliver _ _ | .takePending _ => 2 * n + 46
  | .hubClose => 4 * n + 1

theorem dispatch_left (n i : Nat) (env : Envelope) (active : Bool) :
    ((dispatch i env active).map (HubAct.left n)).sum ≤ n + 7 := by
  unfold dispatch
  repeat' split
  all_goals simp [HubAct.left]

theorem Reply.next_left (n i : Nat) (ok : Bool) (m : Reply) :
    ((m.next i ok).map (HubAct.left n)).sum ≤ 4 := by
  cases m <;> cases ok <;> simp [Reply.next, HubAct.left]

theorem relay_left {n : Nat} {env : Envelope} {room : Bytes}
    (hn : (s.recipients i room).length ≤ n) (h : relayAct cfg x s i env room = some r) :
    (r.push.map (HubAct.left n)).sum < n + 6 := by
  simp only [relayAct] at h
  split at h
  · cases h
    simp [sendError, HubAct.left]
  · split at h
    · cases h
      simp [sendError, HubAct.left]
    · split at h
      · cases h
      · rename_i hblocked
        push Not at hblocked
        split at h <;> cases h
        · simp
        · have hlength : x.order.length ≤ n := hblocked.2.length_eq.trans_le hn
          simp [HubAct.left, Function.comp_def]
          omega

/-- Each action leads to fewer steps than it counts. -/
theorem hubAct_left {n : Nat} (hrecipients : ∀ i room, (s.recipients i room).length ≤ n)
    (hpeers : s.peers.entries.length ≤ n) (h : hubAct text cfg x s a = some r) :
    (r.push.map (HubAct.left n)).sum + (r.spawn.map fun t => (t.map (HubAct.left n)).sum).sum <
      a.left n := by
  cases a with
  | relay i env room =>
    have hspawn : r.spawn = [] := by
      obtain hspawn | ⟨i, data, heq, -⟩ := hubAct_spawn h
      · exact hspawn
      · cases heq
    rw [hspawn]
    exact relay_left (hrecipients i room) h
  | applyInboundNick i env active =>
    have hle := dispatch_left n i env active
    simp only [hubAct] at h
    split at h
    · cases h
      simp only [HubAct.left, List.map_nil, List.sum_nil]
      omega
    · split at h
      · cases h
        cases active <;> simp [sendError, HubAct.left] at hle ⊢
        omega
      · split at h <;> cases h
        simp only [HubAct.left, List.map_nil, List.sum_nil]
        omega
  | reply i m =>
    simp only [hubAct] at h
    split at h <;> cases h
    have hle := Reply.next_left n i (s.reply cfg x i m).2 m
    simp only [HubAct.left, List.map_nil, List.sum_nil]
    omega
  | registerLocked i =>
    cases h
    dsimp only
    cases Option.filter (fun j => decide (j ≠ i)) (AList.lookup (s.peer i).peerHash s.peers) <;>
      cases (s.peer i).pendingHello <;> simp [HubAct.left]
    omega
  | hubClose =>
    simp only [hubAct] at h
    split at h <;> cases h
    rename_i hperm
    have hlength : x.order.length ≤ n := by
      rw [hperm.length_eq, List.length_map]
      exact hpeers
    simp [HubAct.left, Function.comp_def]
    omega
  | takePending i =>
    cases h
    cases (s.peer i).pendingPlainData <;> simp [HubAct.left]
  | acceptReadRemote i =>
    cases h
    cases (s.peer i).remoteIdentity <;> simp [HubAct.left]
  | register i hash =>
    simp only [hubAct] at h
    split at h
    · cases h
      simp [HubAct.left]
    · split at h <;> cases h <;> simp [HubAct.left]
      omega
  | handleInbound i data =>
    simp only [hubAct] at h
    split at h
    · cases h
      simp [HubAct.left]
    · split at h <;> cases h <;> simp [HubAct.left]
      omega
  | readRemote i env =>
    simp only [hubAct] at h
    split at h
    · cases h
      simp [HubAct.left]
      omega
    · split at h <;> cases h <;> simp [HubAct.left]
      omega
  | onJoin i env =>
    simp only [hubAct] at h
    split at h
    · cases h
      simp [sendError, HubAct.left]
    · split at h
      · cases h
        simp [sendError, HubAct.left]
      · split at h <;> cases h <;> simp [sendError, HubAct.left]
  | onPart i env =>
    simp only [hubAct] at h
    split at h
    · cases h
      simp [HubAct.left]
    · split at h <;> cases h <;> simp [HubAct.left]
  | onRoomContent i env =>
    simp only [hubAct] at h
    split at h
    · cases h
      simp [sendError, HubAct.left]
    · split at h <;> cases h <;> simp [sendError, HubAct.left]
  | deliver i data | checkRemote i hash | fireIdentified i hash | onMsg i env | recheck i env
  | forward i env | teardown i | dropPeerIf i | close i =>
    simp only [hubAct] at h
    repeat' split at h
    all_goals cases h
    all_goals simp [HubAct.left] <;> omega
  | _ =>
    cases h
    simp [HubAct.left]

/-- No links, packets or requests to close come any more; links fall silent or are closed. -/
def HubEvent.quiet : HubEvent → Bool
  | .linkStale _ | .linkClosed _ => true
  | _ => false

theorem hubEnv_quiet_spawn {e : HubEvent} (he : e.quiet = true) (h : hubEnv s e = some r) :
    r.spawn = [] ∧ r.shared.accepted = s.accepted := by
  cases e with
  | linkStale i | linkClosed i =>
    simp only [hubEnv] at h
    split at h <;> cases h
    exact ⟨rfl, rfl⟩
  | _ => cases he

/-- Identities are proved on links that are there. -/
theorem identify_accepted (hrun : run (hubStep text cfg) hubInit es = some c) {hash : Bytes}
    (hmem : .env (.identify i hash) ∈ es) : i < c.shared.accepted := by
  refine run_history (fun es c => .env (.identify i hash) ∈ es → i < c.shared.accepted) nofun ?_
    hrun hmem
  intro es c e c' ih hstep hmem
  have hmono : c.shared.accepted ≤ c'.shared.accepted := by
    cases Program.steps_of_step hstep with
    | run hthread hact => exact (hubAct_outcome hact).accepted.ge
    | env henv => obtain heq | ⟨-, heq⟩ := hubEnv_accepted henv <;> simp [heq]
  obtain hmem | hmem := List.mem_append.mp hmem
  · exact (ih hmem).trans_le hmono
  · obtain rfl := List.mem_singleton.mp hmem
    cases Program.steps_of_step hstep with
    | env henv =>
      simp only [hubProgram, hubEnv, HubState.receive] at henv
      split at henv
      · cases henv
      · split at henv
        · cases henv
        · rename_i hlt
          push Not at hlt
          exact hlt.1.trans_le hmono

theorem listed_lt_accepted (hrun : run (hubStep text cfg) hubInit es = some c)
    (hi : c.shared.Listed i) : i < c.shared.accepted := by
  have hreg := registration_of_run hrun
  exact identify_accepted hrun (peerHash_proved hrun (hreg.listed hi)).2

theorem length_le_of_lt {l : List Nat} {n : Nat} (hnodup : l.Nodup) (hlt : ∀ j ∈ l, j < n) :
    l.length ≤ n := by
  have hsub : l ⊆ List.range n := fun j hj => List.mem_range.mpr (hlt j hj)
  simpa using (List.subperm_of_subset hnodup hsub).length_le

theorem recipients_length_le (hrun : run (hubStep text cfg) hubInit es = some c) (i : Nat)
    (room : Bytes) : (c.shared.recipients i room).length ≤ c.shared.accepted := by
  have hreg := registration_of_run hrun
  refine length_le_of_lt (recipients_nodup hreg.keys) fun j hj => ?_
  obtain ⟨k, -, -, hlookup, -⟩ := mem_recipients.mp hj
  exact listed_lt_accepted hrun ⟨k, hlookup⟩

theorem peers_length_le (hrun : run (hubStep text cfg) hubInit es = some c) :
    c.shared.peers.entries.length ≤ c.shared.accepted := by
  have hreg := registration_of_run hrun
  have hkeys : (c.shared.peers.entries.map (·.2)).map (fun j => (c.shared.peer j).peerHash) =
      c.shared.peers.keys := by
    rw [List.map_map]
    exact List.map_congr_left fun p hp => hreg.keys (AList.mem_lookup_iff.mpr hp)
  have hnodup : (c.shared.peers.entries.map (·.2)).Nodup := by
    refine List.Nodup.of_map (fun j => (c.shared.peer j).peerHash) ?_
    rw [hkeys]
    exact c.shared.peers.nodupKeys
  rw [← List.length_map (·.2)]
  refine length_le_of_lt hnodup fun j hj => ?_
  obtain ⟨p, hp, rfl⟩ := List.mem_map.mp hj
  exact listed_lt_accepted hrun ⟨p.1, AList.mem_lookup_iff.mpr hp⟩

/-- When nothing comes in any more, the hub takes no more steps than the actions it still has
to perform account for. -/
theorem hub_rests (hrun : run (hubStep text cfg) hubInit es = some c)
    (hquiet : ∀ e, .env e ∈ es' → e.quiet = true)
    (hrun' : run (hubStep text cfg) c es' = some c') :
    es'.countP Event.isRun + weight (HubAct.left c.shared.accepted) c' ≤
      weight (HubAct.left c.shared.accepted) c := by
  refine runs_add_weight_le
    (fun m => (∃ es, run (hubStep text cfg) hubInit es = some m) ∧
      m.shared.accepted = c.shared.accepted)
    (HubAct.left c.shared.accepted) ?_ ?_ (fun he henv => (hubEnv_quiet_spawn (hquiet _ he) henv).1)
    ⟨⟨es, hrun⟩, rfl⟩ hrun'
  · rintro m e m' ⟨⟨es, hm⟩, haccepted⟩ he hstep
    refine ⟨⟨es ++ [e], run_snoc hm hstep⟩, ?_⟩
    cases Program.steps_of_step hstep with
    | run hthread hact => exact (hubAct_outcome hact).accepted.trans haccepted
    | env henv => exact (hubEnv_quiet_spawn (hquiet _ he) henv).2.trans haccepted
  · rintro m t x a rest r ⟨⟨es, hm⟩, haccepted⟩ - hact
    refine hubAct_left (fun i room => ?_) ?_ hact
    · rw [← haccepted]
      exact recipients_length_le hm i room
    · rw [← haccepted]
      exact peers_length_le hm

/-- A link is accepted while a packet comes in on it. -/
theorem sample_hub_rests :
    ∃ c c', run (hubStep .ascii sampleHub) hubInit
        [.env .established, .env (.packet 0 (some sampleHello))] = some c ∧
      run (hubStep .ascii sampleHub) c (turns 1 2 ++ turns 0 4) = some c' ∧
      6 + weight (HubAct.left c.shared.accepted) c' ≤ weight (HubAct.left c.shared.accepted) c := by
  have hend : ((run (hubStep .ascii sampleHub) hubInit
      [.env .established, .env (.packet 0 (some sampleHello))]).bind fun c =>
        (run (hubStep .ascii sampleHub) c (turns 1 2 ++ turns 0 4)).map fun _ => ()) = some () := by
    decide +kernel
  obtain ⟨c, hrun, hend⟩ := Option.bind_eq_some_iff.mp hend
  obtain ⟨c', hrun', -⟩ := Option.map_eq_some_iff.mp hend
  exact ⟨c, c', hrun, hrun', hub_rests hrun (by simp [turns]) hrun'⟩

end Hub

/-! ## The client -/

section Client

variable {text : GoText} {cfg : ClientConfig} {t : Nat} {x : ClientChoice} {s s' : Client}
  {a b : ClientAct} {r : Effect Client ClientAct} {c c' : ClientConf} {rest : List ClientAct}
  {es : List (Event ClientChoice ClientEvent)}

/-- The last thing `Dial` has to do wherever it is: it goes on from there to its return. -/
def ClientAct.ToReturn : ClientAct → Prop
  | .awaitLink | .identify | .sendHello | .setAwaiting | .startTimer | .select | .resume
  | .setActive _ | .dialReturn _ => True
  | _ => False

def ClientAct.selects : ClientAct → Bool
  | .select => true
  | _ => false

def ClientAct.resumes : ClientAct → Bool
  | .resume => true
  | _ => false

/-- `Dial` has returned or is on its way; where it waits, its timer has been started, and
parked it has missed nothing. -/
structure DialProgress (c : ClientConf) : Prop where
  returns : c.shared.result ≠ none ∨ ∃ as a, c.threads[0]? = some (as ++ [a]) ∧ a.ToReturn
  started : 0 < pending ClientAct.selects c → c.shared.timer ≠ .stopped
  waits : 0 < pending ClientAct.resumes c → c.shared.wait ≠ .before
  timer : c.shared.wait = .parked → c.shared.timer = .running
  closed : c.shared.wait = .parked → c.shared.closedCh = false

theorem clientInit_dialProgress : DialProgress (clientInit text cfg) := by
  refine ⟨.inr ⟨[], .awaitLink, rfl, trivial⟩, ?_, ?_, ?_, ?_⟩ <;>
    simp [clientInit, pending, ClientAct.selects, ClientAct.resumes]

theorem DialCase.next_toReturn (k : DialCase) : ∃ as b, k.next = as ++ [b] ∧ b.ToReturn := by
  cases k with
  | welcome env => exact ⟨[], _, rfl, trivial⟩
  | timeout => exact ⟨[.teardown], _, rfl, trivial⟩
  | closed => exact ⟨[], _, rfl, trivial⟩

/-- A step of `Dial` returns, or ends with another step of `Dial`. -/
theorem toReturn_push (ha : a.ToReturn) (h : clientAct text cfg x s a = some r) :
    r.shared.result ≠ none ∨ ∃ as b, r.push = as ++ [b] ∧ b.ToReturn := by
  cases a with
  | awaitLink =>
    simp only [clientAct] at h
    split at h
    · cases h
      exact .inr ⟨[], _, rfl, trivial⟩
    · split at h <;> cases h
      · exact .inr ⟨[.teardown], _, rfl, trivial⟩
      · exact .inr ⟨[], _, rfl, trivial⟩
  | identify =>
    simp only [clientAct] at h
    split at h <;> cases h
    · exact .inr ⟨[.teardown], _, rfl, trivial⟩
    · exact .inr ⟨[], _, rfl, trivial⟩
  | sendHello =>
    have hpush : r.push = if (s.sendType x cfg.sender typeHello [] cfg.helloBody s.nick).2
        then [.setAwaiting] else [.teardown, .dialReturn .helloFailed] := by
      cases h
      rfl
    rw [hpush]
    split
    · exact .inr ⟨[], _, rfl, trivial⟩
    · exact .inr ⟨[.teardown], _, rfl, trivial⟩
  | setAwaiting | startTimer =>
    cases h
    exact .inr ⟨[], _, rfl, trivial⟩
  | select =>
    obtain ⟨-, rfl⟩ | ⟨i, k, ch, -, rfl⟩ := selectAct_cases h
    · exact .inr ⟨[], _, rfl, trivial⟩
    · exact .inr k.next_toReturn
  | resume =>
    simp only [clientAct] at h
    split at h <;> cases h
    exact .inr (DialCase.next_toReturn _)
  | setActive env =>
    cases h
    exact .inr ⟨[_], _, rfl, trivial⟩
  | dialReturn q =>
    cases h
    exact .inl (by simp)
  | _ => exact ha.elim

theorem DialProgress.returns_run (h : DialProgress c) (hthread : c.threads[t]? = some (a :: rest))
    (hact : clientAct text cfg x c.shared a = some r) :
    r.shared.result ≠ none ∨ ∃ as b,
      (c.threads.set t (r.push ++ rest) ++ r.spawn)[0]? = some (as ++ [b]) ∧ b.ToReturn := by
  obtain hresult | ⟨as, b, has, hb⟩ := h.returns
  · refine .inl ?_
    obtain heq | ⟨q, -, heq⟩ := (clientAct_outcome hact).result <;> simp [heq, hresult]
  · by_cases ht : t = 0
    · subst ht
      have hsplit : a :: rest = as ++ [b] := Option.some.inj (hthread.symm.trans has)
      cases as with
      | nil =>
        obtain ⟨rfl, rfl⟩ := List.cons_eq_cons.mp hsplit
        refine (toReturn_push hb hact).imp_right ?_
        rintro ⟨as, b, hpush, hb⟩
        exact ⟨as, b, by rw [thread_self hthread, List.append_nil, hpush], hb⟩
      | cons a' as =>
        rw [List.cons_append] at hsplit
        obtain ⟨-, rfl⟩ := List.cons_eq_cons.mp hsplit
        exact .inr ⟨r.push ++ as, b, by rw [thread_self hthread, List.append_assoc], hb⟩
    · exact .inr ⟨as, b, thread_other (Ne.symm ht) has, hb⟩

theorem ClientAct.Leads.selects (h : a.Leads s b) (hb : b.selects = true) : a = .startTimer := by
  cases h with
  | select => rfl
  | taken _ hmem | woken _ hmem =>
    obtain ⟨env, -, rfl⟩ | rfl | ⟨q, rfl⟩ := DialCase.eq_of_mem_next hmem <;> cases hb
  | _ => cases hb

theorem ClientAct.Leads.resumes (h : a.Leads s b) (hb : b.resumes = true) :
    a = .select ∧ s.ready = [] := by
  cases h with
  | resume hready => exact ⟨rfl, hready⟩
  | taken _ hmem | woken _ hmem =>
    obtain ⟨env, -, rfl⟩ | rfl | ⟨q, rfl⟩ := DialCase.eq_of_mem_next hmem <;> cases hb
  | _ => cases hb

/-- `Dial` does not come back before its wait. -/
theorem wait_ne_before (h : clientAct text cfg x s a = some r) (hwait : s.wait ≠ .before ∨ a = .select) :
    r.shared.wait ≠ .before := by
  by_cases hselect : a = .select
  · subst hselect
    obtain ⟨-, rfl⟩ | ⟨i, k, ch, -, rfl⟩ := selectAct_cases h <;> simp
  · obtain heq | ⟨-, k, -, heq⟩ := (clientAct_outcome h).wait hselect
    · rw [heq]
      exact hwait.resolve_right hselect
    · simp [heq]

/-- Who is parked was so before, or has found nothing ready. -/
theorem parked_of_run (h : clientAct text cfg x s a = some r) (hparked : r.shared.wait = .parked) :
    (s.wait = .parked ∧ a ≠ .select) ∨
      a = .select ∧ s.ready = [] ∧ r.shared.timer = s.timer ∧ r.shared.closedCh = s.closedCh := by
  by_cases hselect : a = .select
  · subst hselect
    obtain ⟨hready, rfl⟩ | ⟨i, k, ch, -, rfl⟩ := selectAct_cases h
    · exact .inr ⟨rfl, hready, rfl, rfl⟩
    · cases hparked
  · obtain heq | ⟨-, k, -, heq⟩ := (clientAct_outcome h).wait hselect
    · exact .inl ⟨heq ▸ hparked, hselect⟩
    · cases heq.symm.trans hparked

theorem Client.nothing_ready (h : s.ready = []) : s.timer ≠ .fired ∧ s.closedCh = false := by
  refine ⟨fun hfired => ?_, Bool.eq_false_iff.mpr fun hclosed => ?_⟩
  · simp [Client.ready, hfired] at h
  · simp [Client.ready, hclosed] at h

/-- The channel is closed for all to see: who is parked wakes up. -/
theorem ClientAct.Outcome.closedCh (h : a.Outcome text s s') :
    s'.closedCh = s.closedCh ∨ s'.wait ≠ .parked := by
  cases h with
  | other h => exact .inl h.closedCh
  | closeCh =>
    refine .inr ?_
    simp only [Client.wake]
    split
    · simp
    all_goals simp [*]
  | offerWelcome =>
    simp only [Client.wake]
    split <;> exact .inl rfl
  | _ => exact .inl rfl

theorem DialProgress.run (h : DialProgress c) (hthread : c.threads[t]? = some (a :: rest))
    (hact : clientAct text cfg x c.shared a = some r) :
    DialProgress ⟨r.shared, c.threads.set t (r.push ++ rest) ++ r.spawn⟩ := by
  have hout := clientAct_outcome hact
  have hstarted : c.shared.timer ≠ .stopped → r.shared.timer ≠ .stopped := by
    intro hne
    obtain heq | ⟨-, heq⟩ := hout.timer <;> simp [heq, hne]
  refine ⟨h.returns_run hthread hact, ?_, ?_, ?_, ?_⟩
  · intro hpending
    obtain hpending | ⟨b, hb, hselects⟩ := pending_pos_of_run hthread hpending
    · exact hstarted (h.started hpending)
    · obtain rfl := (clientAct_starts hact hb).selects hselects
      cases hact
      simp
  · intro hpending
    obtain hpending | ⟨b, hb, hresumes⟩ := pending_pos_of_run hthread hpending
    · exact wait_ne_before hact (.inl (h.waits hpending))
    · exact wait_ne_before hact (.inr ((clientAct_starts hact hb).resumes hresumes).1)
  · intro hparked
    obtain ⟨hold, -⟩ | ⟨rfl, hready, htimer, -⟩ := parked_of_run hact hparked
    · obtain heq | ⟨-, heq⟩ := hout.timer
      · exact heq.trans (h.timer hold)
      · exact heq
    · have hne := h.started (pending_pos hthread List.mem_cons_self rfl)
      have hfired := (Client.nothing_ready hready).1
      rw [htimer]
      cases htimer : c.shared.timer with
      | stopped => exact absurd htimer hne
      | running => rfl
      | fired => exact absurd htimer hfired
  · intro hparked
    obtain ⟨hold, -⟩ | ⟨rfl, hready, -, hclosed⟩ := parked_of_run hact hparked
    · exact (hout.closedCh.resolve_right (not_not.mpr hparked)).trans (h.closed hold)
    · exact hclosed.trans (Client.nothing_ready hready).2

theorem clientEnv_spawn_none {e : ClientEvent} (h : clientEnv text s e = some r) :
    ∀ l ∈ r.spawn, ∀ b ∈ l, b.selects = false ∧ b.resumes = false := by
  intro l hl b hb
  obtain ⟨data, rfl⟩ | rfl | ⟨q, rfl⟩ | rfl := clientEnv_spawn h hl <;>
    (simp only [List.mem_cons, List.not_mem_nil, or_false] at hb) <;>
    first
    | (obtain rfl := hb; exact ⟨rfl, rfl⟩)
    | (obtain rfl | rfl := hb <;> exact ⟨rfl, rfl⟩)

theorem DialProgress.event (h : DialProgress c) {e : ClientEvent}
    (henv : clientEnv text c.shared e = some r) :
    DialProgress ⟨r.shared, c.threads ++ r.spawn⟩ := by
  have hspawn := clientEnv_spawn_none henv
  have hselects := pending_env_of_none (c := c) fun l hl b hb => (hspawn l hl b hb).1
  have hresumes := pending_env_of_none (c := c) fun l hl b hb => (hspawn l hl b hb).2
  have hreturns : c.shared.result ≠ none ∨ ∃ as b,
      (c.threads ++ r.spawn)[0]? = some (as ++ [b]) ∧ b.ToReturn := by
    refine h.returns.imp_right ?_
    rintro ⟨as, b, has, hb⟩
    have hlt := (List.getElem?_eq_some_iff.mp has).1
    exact ⟨as, b, by rw [List.getElem?_append_left hlt, has], hb⟩
  obtain ⟨hsame, -⟩ | ⟨-, -, -, heq⟩ := clientEnv_cases henv
  · refine ⟨hsame.result ▸ hreturns, ?_, ?_, ?_, ?_⟩
    · rw [hselects, hsame.timer]
      exact h.started
    · rw [hresumes, hsame.wait]
      exact h.waits
    · rw [hsame.wait, hsame.timer]
      exact h.timer
    · rw [hsame.wait, hsame.closedCh]
      exact h.closed
  · obtain ⟨hresult, hwait⟩ : r.shared.result = c.shared.result ∧
        (c.shared.wait ≠ .before → r.shared.wait ≠ .before) ∧ r.shared.wait ≠ .parked := by
      rw [heq]
      simp only [Client.wake]
      split
      · simp
      all_goals simp [*]
    refine ⟨hresult ▸ hreturns, fun _ => by simp [heq], ?_, ?_, ?_⟩
    · rw [hresumes]
      exact fun hpending => hwait.1 (h.waits hpending)
    · exact fun hparked => absurd hparked hwait.2
    · exact fun hparked => absurd hparked hwait.2

/-- `Dial` is the only one who can be waiting. -/
theorem clientAct_blocked (h : ∀ x, clientAct text cfg x s a = none) :
    a = .resume ∧ ∀ k, s.wait ≠ .ended k := by
  cases a with
  | resume =>
    refine ⟨rfl, fun k hwait => ?_⟩
    have hnone := h {}
    simp [clientAct, hwait] at hnone
  | select =>
    exfalso
    cases hready : s.ready with
    | nil =>
      have hnone := h {}
      simp [clientAct, Client.selectAct, hready] at hnone
    | cons p ready =>
      have hnone := h { pick := p.1 }
      simp [clientAct, Client.selectAct, hready] at hnone
  | awaitLink | handleInbound data | requireActive q =>
    exfalso
    have hnone := h {}
    simp only [clientAct] at hnone
    split at hnone
    · cases hnone
    · split at hnone <;> cases hnone
  | identify | teardown | onLinkClosed | checkMember q | sessionClose =>
    exfalso
    have hnone := h {}
    simp only [clientAct] at hnone
    split at hnone <;> cases hnone
  | _ => cases h {}

theorem dialProgress_of_run (hrun : run (clientStep text cfg) (clientInit text cfg) es = some c) :
    Dialing c ∧ DialProgress c := by
  have hstep : ∀ {c e c'}, Dialing c ∧ DialProgress c → clientStep text cfg c e = some c' →
      Dialing c' ∧ DialProgress c' := by
    intro c e c' h hstep
    refine ⟨h.1.step hstep, ?_⟩
    cases Program.steps_of_step hstep with
    | run hthread hact => exact h.2.run hthread hact
    | env henv => exact h.2.event henv
  exact run_invariant hstep ⟨clientInit_dialing, clientInit_dialProgress⟩ hrun

/-- If no goroutine of the client can move, `Dial` has returned and all have ended; or `Dial`
is parked, with the timer running and nothing there that it has missed. -/
theorem dial_settles (hrun : run (clientStep text cfg) (clientInit text cfg) es = some c)
    (hstuck : (clientProgram text cfg).Stuck c) :
    (c.shared.result ≠ none ∧ Quiescent c) ∨
      c.shared.wait = .parked ∧ c.shared.timer = .running ∧ c.shared.welcomeCh = none ∧
        c.shared.closedCh = false := by
  obtain ⟨hdialing, h⟩ := dialProgress_of_run hrun
  by_cases hended : Quiescent c
  · refine .inl ⟨h.returns.resolve_right ?_, hended⟩
    rintro ⟨as, a, has, -⟩
    have hnil := hended _ (List.mem_of_getElem? has)
    simp at hnil
  · refine .inr ?_
    simp only [Quiescent, not_forall] at hended
    obtain ⟨as, has, hne⟩ := hended
    obtain ⟨t, ht⟩ := List.mem_iff_getElem?.mp has
    cases as with
    | nil => exact absurd rfl hne
    | cons a rest =>
      obtain ⟨rfl, hwait⟩ := clientAct_blocked fun x => hstuck.blocked ht x
      have hparked : c.shared.wait = .parked := by
        have hbefore := h.waits (pending_pos ht List.mem_cons_self rfl)
        cases hw : c.shared.wait with
        | before => exact absurd hw hbefore
        | parked => rfl
        | ended k => exact absurd hw (hwait k)
      exact ⟨hparked, h.timer hparked, hdialing.parked hparked, h.closed hparked⟩

def DialWait.isParked : DialWait → Bool
  | .parked => true
  | _ => false

theorem DialWait.eq_of_isParked {w : DialWait} (h : w.isParked = true) : w = .parked := by
  cases w with
  | parked => rfl
  | _ => cases h

/-- `Dial` waits for its WELCOME, and nothing else is going on. -/
theorem sample_dial_settles :
    ∃ c, run (clientStep .ascii sampleClient) (clientInit .ascii sampleClient)
        ([.env .established] ++ clientTurns 0 6) = some c ∧
      (clientProgram .ascii sampleClient).Stuck c ∧ c.shared.result = none ∧
      c.shared.wait = .parked ∧ c.shared.timer = .running := by
  have hend : (run (clientStep .ascii sampleClient) (clientInit .ascii sampleClient)
      ([.env .established] ++ clientTurns 0 6)).map (fun c =>
        (c.threads.all (List.all · ClientAct.resumes), c.shared.wait.isParked, c.shared.result)) =
      some (true, true, none) := by
    decide +kernel
  obtain ⟨c, hrun, heq⟩ := Option.map_eq_some_iff.mp hend
  simp only [Prod.mk.injEq] at heq
  obtain ⟨hall, hparked, hresult⟩ := heq
  have hstuck : (clientProgram .ascii sampleClient).Stuck c := by
    intro t x
    simp only [Program.step]
    split
    · rename_i a rest hthread
      have has := List.all_eq_true.mp hall _ (List.mem_of_getElem? hthread)
      have ha := List.all_eq_true.mp has a List.mem_cons_self
      cases a with
      | resume => simp [clientProgram, clientAct, DialWait.eq_of_isParked hparked]
      | _ => cases ha
    · rfl
  obtain ⟨hreturned, -⟩ | ⟨hwait, htimer, -, -⟩ := dial_settles hrun hstuck
  · exact absurd hresult hreturned
  · exact ⟨c, hrun, hstuck, hresult, hwait, htimer⟩

end Client

end Rrc
