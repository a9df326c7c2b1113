-- SUMMARY: The rate limit along whole runs of the hub: what one session can make it relay in a minute.
import ReticulumMf.Rrc.RateLimit
import ReticulumMf.Rrc.Traffic

/-!
# Flooding

Whatever the other sessions do, the window of a session is that of its own calls of
`allowRate`, and each message it gets relayed has been admitted by one of them. So in a part
of a run in which the clock readings of its calls lie within a minute, no session is sent
more of its messages than the limit, and what was on the way already
(`relayed_within_rate`).
-/

namespace Rrc

open Threads Transition

variable {text : GoText} {cfg : HubConfig} {t : Nat} {x : HubChoice} {s : HubState}
  {a b : HubAct} {r : Effect HubState HubAct} {i j k : Nat} {fwd env : Envelope} {room hash : Bytes}
  {c c' : HubConf} {rest : List HubAct} {es es' : List (Event HubChoice HubEvent)}

/-! ## The calls of one session -/

/-- The clock reading with which the action calls `allowRate` for session `i`. -/
def HubAct.rateCall (text : GoText) (i : Nat) (x : HubChoice) : HubAct → Option Int
  | .onRoomContent k env => if k = i ∧ normalizeRoom text env.room ≠ [] then some x.now else none
  | _ => none

def rateCall (text : GoText) (i : Nat) (c : HubConf) : Event HubChoice HubEvent → Option Int
  | .run t x => (c.next t).bind (HubAct.rateCall text i x)
  | .env _ => none

/-- The clock readings of all calls of `allowRate` for session `i` in a run. -/
def rateTimes (text : GoText) (cfg : HubConfig) (i : Nat) : HubConf → List (Event HubChoice HubEvent) → List Int
  | _, [] => []
  | c, e :: es =>
    match hubStep text cfg c e with
    | some c' => (rateCall text i c e).toList ++ rateTimes text cfg i c' es
    | none => []

theorem rateTimes_cons {e : Event HubChoice HubEvent} (h : hubStep text cfg c e = some c') :
    rateTimes text cfg i c (e :: es) = (rateCall text i c e).toList ++ rateTimes text cfg i c' es := by
  simp only [rateTimes, h]

/-- The action is admitted by `allowRate` for session `i`. -/
def HubAct.admitted (text : GoText) (cfg : HubConfig) (i : Nat) (x : HubChoice) (s : HubState) : HubAct → Bool
  | .onRoomContent k env => k = i ∧ normalizeRoom text env.room ≠ [] ∧
    ((s.peer i).allowRate cfg.limits.rateLimitMsgsPerMinute x.now).2 = true
  | _ => false

theorem HubAct.PeersAfter.msgTimes {s' : HubState} (h : a.PeersAfter s s') (i : Nat) :
    (s'.peer i).msgTimes = (s.peer i).msgTimes ∨ ∃ env, a = .onRoomContent i env := by
  obtain ⟨p, hp, rfl | hu⟩ := h.at i
  · exact .inl (by rw [hp])
  · rw [hp]
    cases hu <;> first | exact .inl rfl | exact .inr ⟨_, rfl⟩

/-- The window of session `i` after an action is that after the call the action makes. -/
theorem act_window (hact : hubAct text cfg x s a = some r) {w : RateState}
    (hw : (s.peer i).msgTimes = w.msgTimes.elems) :
    (r.shared.peer i).msgTimes = ((a.rateCall text i x).toList.foldl
        (RateState.call cfg.limits.rateLimitMsgsPerMinute) w).msgTimes.elems ∧
      ((a.rateCall text i x).toList.foldl (RateState.call cfg.limits.rateLimitMsgsPerMinute) w).accepted.length =
        w.accepted.length + if a.admitted text cfg i x s then 1 else 0 := by
  by_cases hcall : ∃ env, a = .onRoomContent i env ∧ normalizeRoom text env.room ≠ []
  · obtain ⟨env, rfl, hroom⟩ := hcall
    have hallow := allowRate_elems cfg.limits.rateLimitMsgsPerMinute x.now (s.peer i) w.msgTimes hw
    have htime : (HubAct.onRoomContent i env).rateCall text i x = some x.now := by
      simp [HubAct.rateCall, hroom]
    have hadmitted : (HubAct.onRoomContent i env).admitted text cfg i x s =
        (allowRateSlice cfg.limits.rateLimitMsgsPerMinute x.now w.msgTimes).2 := by
      simp [HubAct.admitted, hroom, hallow]
    have hpeer : (r.shared.peer i).msgTimes =
        (allowRateSlice cfg.limits.rateLimitMsgsPerMinute x.now w.msgTimes).1.elems := by
      simp only [hubAct, if_neg hroom, hallow] at hact
      split at hact <;> cases hact <;> simp
    rw [htime, hadmitted, hpeer]
    refine ⟨rfl, ?_⟩
    simp only [Option.toList_some, List.foldl_cons, List.foldl_nil, RateState.call]
    split <;> simp
  · have htime : a.rateCall text i x = none := by
      cases a with
      | onRoomContent k env =>
        simp only [HubAct.rateCall, ite_eq_right_iff]
        rintro ⟨rfl, hroom⟩
        exact absurd ⟨env, rfl, hroom⟩ hcall
      | _ => rfl
    have hadmitted : a.admitted text cfg i x s = false := by
      cases a with
      | onRoomContent k env =>
        refine Bool.eq_false_iff.mpr fun hadmitted => hcall ?_
        simp only [HubAct.admitted, decide_eq_true_eq] at hadmitted
        exact ⟨env, by rw [hadmitted.1], hadmitted.2.1⟩
      | _ => rfl
    have hpeer : (r.shared.peer i).msgTimes = (s.peer i).msgTimes := by
      obtain heq | ⟨env, rfl⟩ := (hubAct_outcome hact).peersAfter.msgTimes i
      · exact heq
      · have hroom : normalizeRoom text env.room = [] := by
          by_contra hroom
          exact hcall ⟨env, rfl, hroom⟩
        simp only [hubAct, if_pos hroom] at hact
        cases hact
        rfl
    rw [htime, hadmitted, hpeer]
    exact ⟨hw, rfl⟩

/-! ## What is relayed -/

/-- A chat message of the identity goes out on session `j`. -/
def ofIdentity (hash : Bytes) (j : Nat) (m : Nat × Envelope) : Bool :=
  m.1 = j && m.2.isChat && m.2.sender = hash

/-- The action may yet relay a message of session `i`, which has the identity, to session `j`. -/
def HubAct.mayRelay (i : Nat) (hash : Bytes) (j : Nat) : HubAct → Bool
  | .relay k _ _ => k = i
  | .forward l fwd => ofIdentity hash j (l, fwd)
  | _ => false

theorem mayRelay_cases (h : b.mayRelay i hash j = true) :
    (∃ k env room, b = .relay k env room) ∨ ∃ l fwd, b = .forward l fwd := by
  cases b with
  | relay k env room => exact .inl ⟨k, env, room, rfl⟩
  | forward l fwd => exact .inr ⟨l, fwd, rfl⟩
  | _ => cases h

/-- Only `onRoomContent` and its critical section start anything of the kind. -/
theorem HubAct.Leads.mayRelay (h : a.Leads s b) (ha : ∀ k env, a ≠ .onRoomContent k env)
    (ha' : ∀ k env room, a ≠ .relay k env room) : b.mayRelay i hash j = false := by
  refine Bool.eq_false_iff.mpr fun hb => ?_
  obtain ⟨k, env, room, rfl⟩ | ⟨l, fwd, rfl⟩ := mayRelay_cases hb
  · cases h
    exact ha _ _ rfl
  · cases h
    exact ha' _ _ _ rfl

/-- A message is relayed to a session at most once, and as one of the identity of the
session it came from. -/
theorem relay_mayRelay (hid : Identities es c) (hsole : ∀ k, ProvedIn es k hash → k = i)
    (hhashed : c.shared.Hashed k) (hact : relayAct cfg x c.shared k env room = some r) :
    r.push.countP (HubAct.mayRelay i hash j) ≤ [HubAct.relay k env room].countP (HubAct.mayRelay i hash j) := by
  have hforward : ∀ l fwd, (HubAct.forward l fwd).mayRelay i hash j = true → l = j := by
    intro l fwd hl
    simp only [HubAct.mayRelay, ofIdentity, Bool.and_eq_true, decide_eq_true_eq] at hl
    exact hl.1.1
  obtain hzero | ⟨hone, fwd, hmem, hof⟩ := relayAct_countP hid.registration hact hforward rfl fun _ => rfl
  · exact hzero.trans_le (Nat.zero_le _)
  · obtain ⟨-, -, -, hstamped⟩ := relay_forward hact hmem
    have hsender : fwd.sender = hash := by
      simp only [HubAct.mayRelay, ofIdentity, Bool.and_eq_true, decide_eq_true_eq] at hof
      exact hof.2
    have hproved : ProvedIn es k hash := by
      rw [← hsender, hstamped.sender]
      exact hid.authentic.peer hhashed
    simp [hone, HubAct.mayRelay, hsole k hproved]

theorem ofIdentity_of_not_chat (k : Nat) (env : Envelope) (h : env.isChat = false) :
    ofIdentity hash j (k, env) = false := by
  simp [ofIdentity, h]

theorem act_mayRelay (hid : Identities es c) (hsole : ∀ k, ProvedIn es k hash → k = i)
    (hthread : c.threads[t]? = some (a :: rest)) (hact : hubAct text cfg x c.shared a = some r) :
    r.shared.sent.countP (ofIdentity hash j) + r.push.countP (HubAct.mayRelay i hash j) +
        (r.spawn.map (List.countP (HubAct.mayRelay i hash j))).sum ≤
      c.shared.sent.countP (ofIdentity hash j) + [a].countP (HubAct.mayRelay i hash j) +
        if a.admitted text cfg i x c.shared then 1 else 0 := by
  have hspawn : (r.spawn.map (List.countP (HubAct.mayRelay i hash j))).sum = 0 := by
    obtain hspawn | ⟨i', data, -, -, -, hspawn⟩ := hubAct_spawn hact <;> simp [hspawn, HubAct.mayRelay]
  rw [hspawn, Nat.add_zero]
  cases a with
  | forward k fwd =>
    refine Nat.le_trans ?_ (Nat.le_add_right _ _)
    simp only [hubAct] at hact
    split at hact <;> cases hact
    · exact sendEnvelope_countP _
    · exact Nat.le_add_right _ _
  | reply k m =>
    have hnone : r.push.countP (HubAct.mayRelay i hash j) = 0 :=
      countP_eq_zero fun b hb => (hubAct_leads hact hb).mayRelay (by simp) (by simp)
    have hsent : r.shared.sent.countP (ofIdentity hash j) = c.shared.sent.countP (ofIdentity hash j) := by
      simp only [hubAct] at hact
      split at hact <;> cases hact
      exact reply_countP ofIdentity_of_not_chat
    omega
  | relay k env room =>
    have hhashed : c.shared.Hashed k := hid.handlers t _ hthread _ List.mem_cons_self k rfl
    have hle := relay_mayRelay (j := j) hid hsole hhashed hact
    rw [sent_of_not_sends hact rfl]
    omega
  | onRoomContent k env =>
    rw [sent_of_not_sends hact rfl]
    obtain ⟨hroom, hallowed, hpush⟩ | ⟨-, msg, hpush⟩ := onRoomContent_push hact
    · rw [hpush]
      by_cases hk : k = i
      · subst hk
        simp [HubAct.admitted, HubAct.mayRelay, hroom, hallowed]
      · simp [HubAct.mayRelay, hk]
    · simp [hpush, HubAct.mayRelay]
  | _ =>
    have hnone : r.push.countP (HubAct.mayRelay i hash j) = 0 :=
      countP_eq_zero fun b hb => (hubAct_leads hact hb).mayRelay (by simp) (by simp)
    rw [sent_of_not_sends hact rfl, hnone]
    omega

/-! ## Whole runs -/

/-- What session `j` has been sent of the identity, and what session `i` may yet send it. -/
abbrev relays (i : Nat) (hash : Bytes) (j : Nat) : HubConf → Nat :=
  stock (fun s => s.sent.countP (ofIdentity hash j)) (HubAct.mayRelay i hash j)

/-- The window `w` is that of session `i`. -/
def HasWindow (i : Nat) (w : RateState) (c : HubConf) : Prop :=
  (c.shared.peer i).msgTimes = w.msgTimes.elems

theorem step_window {e : Event HubChoice HubEvent} {w : RateState} (hid : Identities es c)
    (hsole : ∀ k, ProvedIn es k hash → k = i) (hw : HasWindow i w c) (hstep : hubStep text cfg c e = some c') :
    HasWindow i ((rateCall text i c e).toList.foldl (RateState.call cfg.limits.rateLimitMsgsPerMinute) w) c' ∧
      relays i hash j c' + w.accepted.length ≤ relays i hash j c +
        ((rateCall text i c e).toList.foldl
          (RateState.call cfg.limits.rateLimitMsgsPerMinute) w).accepted.length := by
  cases Program.steps_of_step hstep with
  | @run t x a rest r hthread hact =>
    have hcall : rateCall text i c (.run t x) = a.rateCall text i x := by
      rw [rateCall, Config.next_eq hthread, Option.bind_some]
    obtain ⟨hwindow, haccepted⟩ := act_window hact hw
    have hrelay := act_mayRelay (j := j) hid hsole hthread hact
    have hpending := pending_run (p := HubAct.mayRelay i hash j) (r := r) hthread
    rw [hcall, haccepted]
    refine ⟨hwindow, ?_⟩
    simp only [relays, stock]
    omega
  | @env e r henv =>
    obtain ⟨status, heq⟩ := hubEnv_at henv i
    have hspawn : (r.spawn.map (List.countP (HubAct.mayRelay i hash j))).sum = 0 := by
      refine sum_countP_eq_zero fun l hl b hb => ?_
      cases hubEnv_starts henv hl hb with
      | established hmem => exact mem_acceptLink_cases hmem rfl rfl rfl rfl rfl
      | packet _ | identify _ _ | close => rfl
    refine ⟨?_, ?_⟩
    · rw [HasWindow, heq]
      exact hw
    · simp only [relays, stock, pending_env, hspawn, (hubEnv_outputs henv).1]
      exact Nat.le_refl _

/-- Along a run, the window of a session is that of its calls, and each relayed message has
been admitted. -/
theorem run_window {w : RateState} (hid : Identities es c) (hes : ∀ e ∈ es', e ∈ es)
    (hsole : ∀ k, ProvedIn es k hash → k = i) (hw : HasWindow i w c)
    (hrun : run (hubStep text cfg) c es' = some c') :
    HasWindow i ((rateTimes text cfg i c es').foldl (RateState.call cfg.limits.rateLimitMsgsPerMinute) w) c' ∧
      relays i hash j c' + w.accepted.length ≤ relays i hash j c +
        ((rateTimes text cfg i c es').foldl
          (RateState.call cfg.limits.rateLimitMsgsPerMinute) w).accepted.length := by
  induction es' generalizing c w with
  | nil =>
    cases hrun
    exact ⟨hw, Nat.le_refl _⟩
  | cons e es' ih =>
    obtain ⟨m, hm, hrun⟩ := run_cons.mp hrun
    obtain ⟨hw', hle⟩ := step_window (j := j) hid hsole hw hm
    obtain ⟨hend, hrest⟩ := ih (hid.step (hes e List.mem_cons_self) hm)
      (fun e he => hes e (List.mem_cons_of_mem _ he)) hw' hrun
    rw [rateTimes_cons hm, List.foldl_append]
    exact ⟨hend, by omega⟩

/-- What has been accepted since there were `n`: as much as `msgTimes` has of the window that
ends at `T`, and as the limit, at most. -/
structure AcceptedSince (limit : Nat) (T : Int) (n : Nat) (w : RateState) : Prop where
  recorded : w.accepted.length ≤ n + w.msgTimes.elems.countP (inWindow T)
  bounded : w.accepted.length ≤ n + limit

/-- A call in the window drops nothing of the window, whatever the other readings are. -/
theorem AcceptedSince.call {limit n : Nat} {T now : Int} {w : RateState} (hlimit : limit ≠ 0)
    (hnow : inWindow T now = true) (h : AcceptedSince limit T n w) : AcceptedSince limit T n (w.call limit now) := by
  have hkept : (w.msgTimes.filterInPlace fun t => now - minute < t).elems.countP (inWindow T) =
      w.msgTimes.elems.countP (inWindow T) := by
    rw [Slice.elems_filterInPlace, List.countP_filter]
    -- the window begins a minute before T, which is not before now
    refine List.countP_congr fun a _ => ?_
    simp only [inWindow, Bool.and_eq_true, decide_eq_true_eq] at hnow ⊢
    omega
  have hlen := List.countP_le_length (p := inWindow T)
    (l := (w.msgTimes.filterInPlace fun t => now - minute < t).elems)
  rw [Slice.length_elems, hkept] at hlen
  have hrecorded := h.recorded
  simp only [RateState.call, allowRateSlice, if_neg hlimit]
  split
  · exact ⟨hkept ▸ hrecorded, h.bounded⟩
  · -- there was room, so fewer than the limit had been accepted
    constructor
    · simp only [if_pos, List.length_append, List.length_singleton, Slice.elems_append, List.countP_append, hkept,
        List.countP_singleton, hnow]
      omega
    · simp only [if_pos, List.length_append, List.length_singleton]
      omega

theorem foldl_call_accepted {limit : Nat} {T : Int} (hlimit : limit ≠ 0) {times : List Int}
    (htimes : ∀ now ∈ times, inWindow T now = true) (w : RateState) :
    (times.foldl (RateState.call limit) w).accepted.length ≤ w.accepted.length + limit :=
  (List.foldlRecOn times (RateState.call limit) (motive := AcceptedSince limit T w.accepted.length)
    ⟨Nat.le_add_right _ _, Nat.le_add_right _ _⟩ fun _ h now hnow => h.call hlimit (htimes now hnow)).bounded

/-- In a part of a run in which the clock readings of session `i` lie within a minute, no
session is sent more of its messages than the limit allows and were on the way before,
provided that no other link has its identity. -/
theorem relayed_within_rate {es₁ es₂ : List (Event HubChoice HubEvent)} {c₁ : HubConf} {T : Int}
    (hlimit : 1 ≤ cfg.limits.rateLimitMsgsPerMinute)
    (hrun₁ : run (hubStep text cfg) hubInit es₁ = some c₁) (hrun₂ : run (hubStep text cfg) c₁ es₂ = some c)
    (hsole : ∀ k, ProvedIn (es₁ ++ es₂) k hash → k = i)
    (hminute : ∀ now ∈ rateTimes text cfg i c₁ es₂, inWindow T now = true) :
    c.shared.sent.countP (ofIdentity hash j) ≤
      c₁.shared.sent.countP (ofIdentity hash j) + pending (HubAct.mayRelay i hash j) c₁ +
        cfg.limits.rateLimitMsgsPerMinute := by
  have hinit : HasWindow i ⟨newMsgTimes, []⟩ hubInit := rfl
  have hid₁ : Identities (es₁ ++ es₂) c₁ :=
    run_within (fun h he hstep => h.step (List.mem_append_left _ he) hstep) hubInit_identities hrun₁
  obtain ⟨hw₁, -⟩ := run_window (j := j) hubInit_identities (fun e he => List.mem_append_left _ he)
    hsole hinit hrun₁
  obtain ⟨-, hle⟩ := run_window (j := j) hid₁ (fun e he => List.mem_append_right _ he) hsole hw₁ hrun₂
  have haccepted := foldl_call_accepted (Nat.ne_of_gt hlimit) hminute
    ((rateTimes text cfg i hubInit es₁).foldl (RateState.call cfg.limits.rateLimitMsgsPerMinute) ⟨newMsgTimes, []⟩)
  simp only [relays, stock] at hle
  omega

/-- The identity that an event proves, and the link. -/
def identifies : Event HubChoice HubEvent → Option (Nat × Bytes)
  | .env (.identify i hash) => some (i, hash)
  | _ => none

theorem ProvedIn.mem_identifies (h : ProvedIn es k hash) : (k, hash) ∈ es.filterMap identifies :=
  List.mem_filterMap.mpr ⟨_, h.2, rfl⟩

/-- A hub that relays one message of a session in a minute. -/
def slowHub : HubConfig := { sampleHub with limits := { rateLimitMsgsPerMinute := 1 } }

/-- The first link sends two messages, at the same time. -/
def twoMessages : List (Event HubChoice HubEvent) :=
  [.env (.packet 0 (some sampleMsg)), .env (.packet 0 (some sampleMsg))] ++ turns 12 1 ++ turns 13 1 ++
  turns 14 5 ++ turns 15 5 ++ [.run 14 { fresh := some (List.replicate 8 1, 0), order := [1] }] ++
  turns 14 2 ++ turns 15 1

/-- One of them is relayed. -/
theorem sample_relayed_within_rate :
    ∃ c₁ c, run (hubStep .ascii slowHub) hubInit bothInRoom = some c₁ ∧
      run (hubStep .ascii slowHub) c₁ twoMessages = some c ∧
      c.shared.sent.countP (ofIdentity sampleIdentity 1) = 1 ∧
      c.shared.sent.countP (ofIdentity sampleIdentity 1) ≤
        c₁.shared.sent.countP (ofIdentity sampleIdentity 1) +
          pending (HubAct.mayRelay 0 sampleIdentity 1) c₁ + slowHub.limits.rateLimitMsgsPerMinute := by
  have hend : (run (hubStep .ascii slowHub) hubInit (bothInRoom ++ twoMessages)).map
      (·.shared.sent.countP (ofIdentity sampleIdentity 1)) = some 1 := by decide +kernel
  have hminute : (run (hubStep .ascii slowHub) hubInit bothInRoom).map
      (rateTimes .ascii slowHub 0 · twoMessages) = some [0, 0] := by decide +kernel
  obtain ⟨c, hrun, hcount⟩ := Option.map_eq_some_iff.mp hend
  obtain ⟨c₁, hrun₁, hrun₂⟩ := run_append.mp hrun
  rw [hrun₁, Option.map_some, Option.some.injEq] at hminute
  refine ⟨c₁, c, hrun₁, hrun₂, hcount, relayed_within_rate (by decide) hrun₁ hrun₂ (fun k hk => ?_)
    (T := 0) ?_⟩
  · have hmem := hk.mem_identifies
    have hall : (bothInRoom ++ twoMessages).filterMap identifies = [(0, sampleIdentity), (1, otherIdentity)] := by
      decide +kernel
    simpa [hall, sampleIdentity, otherIdentity] using hmem
  · rw [hminute]
    decide

end Rrc
