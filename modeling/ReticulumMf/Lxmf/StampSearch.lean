-- SUMMARY: The parallel search for a stamp: what its workers can return, and that it ends.
import ReticulumMf.Lib.Threads
import ReticulumMf.Lxmf.Stamp

/-!
# The parallel search

`GenerateStamp` starts workers that draw and test candidates until the context is
done. The first to find a stamp puts it into a channel with room for one and
cancels the context; another goroutine waits for the workers and closes the
channel; the caller takes what comes out of it.

`generateStamp` is the same search one candidate after the other, and the parallel
search returns nothing else (`search_refines`). A search without a stamp has run out
of time or of random bytes (`search_notFound`), and no goroutine is left behind
(`search_settles`, `search_stops`).
-/

namespace Lxmf

open Threads Transition

/-! ## The goroutines -/

structure Search where
  /-- The caller's context has ended. -/
  ended : Bool := false
  /-- `cancel` has been called. -/
  cancelled : Bool := false
  resCh : Option Candidate := none
  closed : Bool := false
  /-- The counter of the wait group. -/
  working : Nat := 0
  /-- What the caller got from the channel, once it has: a candidate, or that the channel
  is closed. -/
  outcome : Option (Option Candidate) := none
  /-- A send on, or a second close of, a closed channel. -/
  panicked : Bool := false
  /-- The candidates tested so far, and the workers that could draw none. -/
  tested : List Candidate := []
  failed : Nat := 0

/-- `subCtx.Done()` is closed. -/
def Search.isDone (s : Search) : Bool := s.ended || s.cancelled

inductive SearchAct where
  -- the caller
  | start
  | startCloser
  | receive
  -- a worker
  | check
  | draw
  | test (c : Candidate)
  | offer (c : Candidate)
  | done
  -- the goroutine that closes the channel
  | wait
  | close
  /-- By a worker that has found a stamp, or deferred by the caller. -/
  | cancel
  deriving DecidableEq

structure SearchChoice where
  /-- What `rand.Read` returns. -/
  drawn : Option Candidate := none
  /-- The case that the `select` of `offer` takes. -/
  sends : Bool := true

def searchAct (meets : Candidate → Bool) (x : SearchChoice) (s : Search) :
    SearchAct → Option (Effect Search SearchAct)
  | .start =>
    some { shared := { s with working := s.working + 1 }, spawn := [[.check, .done]] }
  | .startCloser => some { shared := s, spawn := [[.wait, .close]] }
  | .receive =>
    match s.resCh with
    | some c => some { shared := { s with resCh := none, outcome := some (some c) } }
    | none => if s.closed then some { shared := { s with outcome := some none } } else none
  | .check => if s.isDone then some { shared := s } else some { shared := s, push := [.draw] }
  | .draw =>
    match x.drawn with
    | none => some { shared := { s with failed := s.failed + 1 } }
    | some c => some { shared := s, push := [.test c] }
  | .test c =>
    some
      { shared := { s with tested := s.tested ++ [c] }
        push := [if meets c then .offer c else .check] }
  | .offer c =>
    if x.sends then
      if s.closed then some { shared := { s with panicked := true } }
      else if s.resCh = none then some { shared := { s with resCh := some c }, push := [.cancel] }
      else none
    else if s.isDone then some { shared := s }
    else none
  | .done => some { shared := { s with working := s.working - 1 } }
  | .wait => if s.working = 0 then some { shared := s } else none
  | .close =>
    if s.closed then some { shared := { s with panicked := true } }
    else some { shared := { s with closed := true } }
  | .cancel => some { shared := { s with cancelled := true } }

inductive SearchEvent where
  | contextEnds

def searchEnv (s : Search) : SearchEvent → Option (Effect Search SearchAct)
  | .contextEnds => some { shared := { s with ended := true } }

def searchProgram (meets : Candidate → Bool) : Program Search SearchAct SearchChoice SearchEvent :=
  ⟨fun _ => searchAct meets, searchEnv⟩

abbrev SearchConf := Threads.Config Search SearchAct

/-- The caller before its first worker. -/
def searchInit (workers : Nat) : SearchConf :=
  ⟨{}, [List.replicate workers .start ++ [.startCloser, .receive, .cancel]]⟩

/-- What `GenerateStamp` returns. -/
def returned {Identity : Type} (cr : Crypto Identity) (workblock : Bytes) :
    Option Candidate → Except StampError (Bytes × Int)
  | none => .error .notFound
  | some c => .ok (c.val, stampValue cr workblock c.val)

/-! ## What a goroutine still has to do -/

inductive CallerRole (s : Search) : List SearchAct → Prop
  | starting (k : Nat) (h : s.outcome = none) :
      CallerRole s (List.replicate k .start ++ [.startCloser, .receive, .cancel])
  | receiving (h : s.outcome = none) : CallerRole s [.receive, .cancel]
  | returning (h : s.outcome ≠ none) : CallerRole s [.cancel]
  | returned (h : s.outcome ≠ none) (hcancelled : s.cancelled = true) : CallerRole s []

/-- Some worker has sent a stamp, or the caller has been told that there is none. -/
def Search.Settled (s : Search) : Prop := s.resCh ≠ none ∨ s.outcome ≠ none

/-- A stamp that was found. -/
def Search.Found (meets : Candidate → Bool) (s : Search) (b : Candidate) : Prop :=
  meets b = true ∧ b ∈ s.tested

/-- The action is that of a worker which is still searching. -/
def SearchAct.isLive : SearchAct → Bool
  | .check | .draw | .test _ | .offer _ => true
  | _ => false

def SearchAct.isOffer : SearchAct → Bool
  | .offer _ => true
  | _ => false

inductive HelperRole (meets : Candidate → Bool) (s : Search) : List SearchAct → Prop
  | worker {a : SearchAct} (ha : a.isLive = true) (hoffer : ∀ b, a = .offer b → s.Found meets b) :
      HelperRole meets s [a, .done]
  | winner (h : s.Settled) : HelperRole meets s [.cancel, .done]
  | leaving : HelperRole meets s [.done]
  | waiting : HelperRole meets s [.wait, .close]
  | closing : HelperRole meets s [.close]
  | finished : HelperRole meets s []

def Role (meets : Candidate → Bool) (s : Search) (i : Nat) (as : List SearchAct) : Prop :=
  if i = 0 then CallerRole s as else HelperRole meets s as

/-! ## The invariant -/

structure SearchInv (meets : Candidate → Bool) (workers : Nat) (c : SearchConf) : Prop where
  caller : 0 < c.threads.length
  roles : Each (Role meets) c
  working : c.shared.working = pending (· = .done) c
  closers : pending (· = .startCloser) c + pending (· = .close) c +
    (if c.shared.closed then 1 else 0) = 1
  closing : Each (fun s _ as => as = [.close] → s.working = 0) c
  shut : c.shared.closed = true → c.shared.working = 0
  channel : ∀ {b}, c.shared.resCh = some b → c.shared.Found meets b
  found : ∀ {b}, c.shared.outcome = some (some b) → c.shared.Found meets b
  /-- As long as nothing is settled, nothing is cancelled. And until the context ends, a
  worker is searching or out of random bytes, and offers what it has found. -/
  searching : ¬c.shared.Settled → c.shared.cancelled = false ∧ (c.shared.ended = false →
    pending (· = .start) c + pending SearchAct.isLive c + c.shared.failed = workers ∧
      c.shared.tested.countP meets = pending SearchAct.isOffer c)
  lost : c.shared.outcome = some none → c.shared.closed = true ∧
    (c.shared.ended = true ∨ c.shared.failed = workers ∧ c.shared.tested.countP meets = 0)
  safe : c.shared.panicked = false

variable {meets : Candidate → Bool} {workers i : Nat} {x : SearchChoice} {s s' : Search}
  {a : SearchAct} {as rest : List SearchAct} {b : Candidate} {c c' : SearchConf}
  {r : Effect Search SearchAct} {es : List (Event SearchChoice SearchEvent)}

theorem searchInit_inv : SearchInv meets workers (searchInit workers) := by
  have hthread : ∀ {i as}, (searchInit workers).threads[i]? = some as →
      i = 0 ∧ as = List.replicate workers .start ++ [.startCloser, .receive, .cancel] := by
    intro i as has
    cases i with
    | zero =>
      cases has
      exact ⟨rfl, rfl⟩
    | succ i => cases has
  refine ⟨Nat.one_pos, fun i as has => ?_, ?_, ?_, fun i as has heq => rfl, ?_, ?_, ?_, ?_, ?_, ?_⟩
  · obtain ⟨rfl, rfl⟩ := hthread has
    exact CallerRole.starting workers rfl
  all_goals simp [searchInit, pending, SearchAct.isLive, SearchAct.isOffer, Search.Settled,
    List.countP_replicate]

/-! ## Moves -/

/-- All that a goroutine of the search can do: its number, its next action and those after
it, and the effect. -/
inductive Moves (meets : Candidate → Bool) (s : Search) :
    Nat → SearchAct → List SearchAct → Effect Search SearchAct → Prop
  | start (k : Nat) (h : s.outcome = none) :
      Moves meets s 0 .start (List.replicate k .start ++ [.startCloser, .receive, .cancel])
        { shared := { s with working := s.working + 1 }, spawn := [[.check, .done]] }
  | startCloser (h : s.outcome = none) :
      Moves meets s 0 .startCloser [.receive, .cancel] { shared := s, spawn := [[.wait, .close]] }
  | receiveStamp {b : Candidate} (hch : s.resCh = some b) :
      Moves meets s 0 .receive [.cancel]
        { shared := { s with resCh := none, outcome := some (some b) } }
  | receiveClosed (h : s.outcome = none) (hch : s.resCh = none) (hclosed : s.closed = true) :
      Moves meets s 0 .receive [.cancel] { shared := { s with outcome := some none } }
  | callerCancel (h : s.outcome ≠ none) :
      Moves meets s 0 .cancel [] { shared := { s with cancelled := true } }
  | leave {i : Nat} {a : SearchAct} (hi : i ≠ 0) (ha : a.isLive = true) (hdone : s.isDone = true) :
      Moves meets s i a [.done] { shared := s }
  | goOn {i : Nat} (hi : i ≠ 0) : Moves meets s i .check [.done] { shared := s, push := [.draw] }
  | fail {i : Nat} (hi : i ≠ 0) :
      Moves meets s i .draw [.done] { shared := { s with failed := s.failed + 1 } }
  | draw {i : Nat} (hi : i ≠ 0) (b : Candidate) :
      Moves meets s i .draw [.done] { shared := s, push := [.test b] }
  | hit {i : Nat} (hi : i ≠ 0) {b : Candidate} (hb : meets b = true) :
      Moves meets s i (.test b) [.done]
        { shared := { s with tested := s.tested ++ [b] }, push := [.offer b] }
  | miss {i : Nat} (hi : i ≠ 0) {b : Candidate} (hb : meets b = false) :
      Moves meets s i (.test b) [.done]
        { shared := { s with tested := s.tested ++ [b] }, push := [.check] }
  | send {i : Nat} (hi : i ≠ 0) {b : Candidate} (hb : s.Found meets b) (hch : s.resCh = none) :
      Moves meets s i (.offer b) [.done] { shared := { s with resCh := some b }, push := [.cancel] }
  | workerCancel {i : Nat} (hi : i ≠ 0) (h : s.Settled) :
      Moves meets s i .cancel [.done] { shared := { s with cancelled := true } }
  | done {i : Nat} (hi : i ≠ 0) :
      Moves meets s i .done [] { shared := { s with working := s.working - 1 } }
  | wait {i : Nat} (hi : i ≠ 0) (h : s.working = 0) :
      Moves meets s i .wait [.close] { shared := s }
  | close {i : Nat} (hi : i ≠ 0) (h : s.working = 0) :
      Moves meets s i .close [] { shared := { s with closed := true } }

/-- A worker keeps the wait group, and with it the channel, open. -/
theorem SearchInv.open_of_worker (h : SearchInv meets workers c)
    (hthread : c.threads[i]? = some [a, .done]) : c.shared.closed = false := by
  have hpos : 0 < pending (· = .done) c := pending_pos hthread (a := .done) (by simp) (by simp)
  by_contra hclosed
  have hzero := h.shut (by simpa using hclosed)
  have hworking := h.working
  omega

theorem SearchInv.moves (h : SearchInv meets workers c) (hthread : c.threads[i]? = some (a :: rest))
    (hact : searchAct meets x c.shared a = some r) : Moves meets c.shared i a rest r := by
  have hrole := h.roles i _ hthread
  simp only [Role] at hrole
  split at hrole
  · -- the caller
    rename_i hi
    subst hi
    generalize has : a :: rest = as at hrole
    cases hrole with
    | starting k houtcome =>
      cases k with
      | zero =>
        cases has
        cases hact
        exact .startCloser houtcome
      | succ k =>
        cases has
        cases hact
        exact .start k houtcome
    | receiving houtcome =>
      cases has
      simp only [searchAct] at hact
      split at hact
      · cases hact
        exact .receiveStamp ‹_›
      · split at hact <;> cases hact
        exact .receiveClosed houtcome ‹_› ‹_›
    | returning houtcome =>
      cases has
      cases hact
      exact .callerCancel houtcome
    | returned => cases has
  · rename_i hi
    generalize has : a :: rest = as at hrole
    cases hrole with
    | worker ha hoffer =>
      cases has
      cases a with
      | check =>
        simp only [searchAct] at hact
        split at hact <;> cases hact
        · exact .leave hi rfl ‹_›
        · exact .goOn hi
      | draw =>
        simp only [searchAct] at hact
        split at hact <;> cases hact
        · exact .fail hi
        · exact .draw hi _
      | test b =>
        cases hb : meets b with
        | true =>
          simp only [searchAct, hb] at hact
          cases hact
          exact .hit hi hb
        | false =>
          simp only [searchAct, hb] at hact
          cases hact
          exact .miss hi hb
      | offer b =>
        have hopen := h.open_of_worker hthread
        simp only [searchAct] at hact
        split at hact
        · rw [if_neg (by simp [hopen])] at hact
          split at hact <;> cases hact
          exact .send hi (hoffer b rfl) ‹_›
        · split at hact <;> cases hact
          exact .leave hi rfl ‹_›
      | _ => cases ha
    | winner hsettled =>
      cases has
      cases hact
      exact .workerCancel hi hsettled
    | leaving =>
      cases has
      cases hact
      exact .done hi
    | waiting =>
      cases has
      simp only [searchAct] at hact
      split at hact <;> cases hact
      exact .wait hi ‹_›
    | closing =>
      cases has
      have hpos : 0 < pending (· = .close) c := pending_pos hthread List.mem_cons_self (by simp)
      have hclosed : c.shared.closed = false := by
        by_contra hclosed
        have hone := h.closers
        rw [Bool.not_eq_false] at hclosed
        rw [if_pos hclosed] at hone
        omega
      simp only [searchAct, hclosed] at hact
      cases hact
      exact .close hi (h.closing i _ hthread rfl)
    | finished => cases has

/-! ## Steps -/

theorem Search.Found.mono (h : s.Found meets b) (htested : s.tested <+: s'.tested) :
    s'.Found meets b :=
  ⟨h.1, htested.subset h.2⟩

/-- What a move leaves as it was, or takes further in one direction. -/
theorem Moves.mono (h : Moves meets s i a rest r) :
    s.tested <+: r.shared.tested ∧ (s.Settled → r.shared.Settled) ∧
      (s.cancelled = true → r.shared.cancelled = true) ∧
      (i ≠ 0 → r.shared.outcome = s.outcome) := by
  cases h with
  | receiveStamp _ | receiveClosed _ _ _ =>
    exact ⟨List.prefix_rfl, fun _ => .inr (by simp), id, fun hi => absurd rfl hi⟩
  | callerCancel _ | workerCancel _ _ => exact ⟨List.prefix_rfl, id, fun _ => rfl, fun _ => rfl⟩
  | hit _ _ | miss _ _ => exact ⟨List.prefix_append _ _, id, id, fun _ => rfl⟩
  | send _ _ _ => exact ⟨List.prefix_rfl, fun _ => .inl (by simp), id, fun _ => rfl⟩
  | _ => exact ⟨List.prefix_rfl, id, id, fun _ => rfl⟩

theorem HelperRole.mono (h : HelperRole meets s as) (htested : s.tested <+: s'.tested)
    (hsettled : s.Settled → s'.Settled) : HelperRole meets s' as := by
  cases h with
  | worker ha hoffer => exact .worker ha fun b hb => (hoffer b hb).mono htested
  | winner h => exact .winner (hsettled h)
  | leaving => exact .leaving
  | waiting => exact .waiting
  | closing => exact .closing
  | finished => exact .finished

theorem CallerRole.mono (h : CallerRole s as) (houtcome : s'.outcome = s.outcome)
    (hcancelled : s.cancelled = true → s'.cancelled = true) : CallerRole s' as := by
  cases h with
  | starting k h => exact .starting k (houtcome.trans h)
  | receiving h => exact .receiving (houtcome.trans h)
  | returning h => exact .returning (houtcome ▸ h)
  | returned h hc => exact .returned (houtcome ▸ h) (hcancelled hc)

/-- The goroutine that moves goes on in its role, and so do those it starts. -/
theorem Moves.role (h : Moves meets s i a rest r) :
    Role meets r.shared i (r.push ++ rest) ∧
      ∀ as ∈ r.spawn, HelperRole meets r.shared as := by
  cases h with
  | start k h =>
    refine ⟨CallerRole.starting k h, fun as has => ?_⟩
    rw [List.mem_singleton.mp has]
    exact .worker rfl (by simp)
  | startCloser h =>
    refine ⟨CallerRole.receiving h, fun as has => ?_⟩
    rw [List.mem_singleton.mp has]
    exact .waiting
  | receiveStamp _ | receiveClosed _ _ _ => exact ⟨CallerRole.returning (by simp), by simp⟩
  | callerCancel h => exact ⟨CallerRole.returned h rfl, by simp⟩
  | leave hi _ _ | fail hi => exact ⟨by rw [Role, if_neg hi]; exact .leaving, by simp⟩
  | goOn hi | draw hi _ | miss hi _ =>
    exact ⟨by rw [Role, if_neg hi]; exact .worker rfl (by simp), by simp⟩
  | hit hi hb =>
    refine ⟨?_, by simp⟩
    rw [Role, if_neg hi]
    refine .worker rfl fun b' heq => ?_
    cases heq
    exact ⟨hb, by simp⟩
  | send hi _ _ => exact ⟨by rw [Role, if_neg hi]; exact .winner (.inl (by simp)), by simp⟩
  | workerCancel hi _ => exact ⟨by rw [Role, if_neg hi]; exact .leaving, by simp⟩
  | done hi | close hi _ => exact ⟨by rw [Role, if_neg hi]; exact .finished, by simp⟩
  | wait hi _ => exact ⟨by rw [Role, if_neg hi]; exact .closing, by simp⟩

theorem SearchInv.roles_run (h : SearchInv meets workers c)
    (hthread : c.threads[i]? = some (a :: rest)) (hmove : Moves meets c.shared i a rest r) :
    Each (Role meets) ⟨r.shared, c.threads.set i (r.push ++ rest) ++ r.spawn⟩ := by
  obtain ⟨htested, hsettled, hcancelled, houtcome⟩ := hmove.mono
  refine Each.run h.roles hthread hmove.role.1 (fun j as hj hrole => ?_) fun as has j hj => ?_
  · simp only [Role] at hrole ⊢
    split at hrole
    · rename_i hzero
      rw [if_pos hzero]
      exact hrole.mono (houtcome fun hi => hj (hzero.trans hi.symm)) hcancelled
    · rename_i hne
      rw [if_neg hne]
      exact hrole.mono htested hsettled
  · have hpos := (List.getElem?_eq_some_iff.mp hthread).1
    rw [Role, if_neg (by omega)]
    exact hmove.role.2 as has

theorem SearchInv.roles_mem (h : SearchInv meets workers c) (has : as ∈ c.threads) :
    CallerRole c.shared as ∧ c.threads[0]? = some as ∨ HelperRole meets c.shared as := by
  obtain ⟨j, hj⟩ := List.mem_iff_getElem?.mp has
  have hrole := h.roles j as hj
  simp only [Role] at hrole
  split at hrole
  · rename_i hzero
    exact .inl ⟨hrole, hzero ▸ hj⟩
  · exact .inr hrole

/-- Only the caller starts workers. -/
theorem SearchInv.pending_start (h : SearchInv meets workers c) (hcaller : c.threads[0]? = some as)
    (has : .start ∉ as) : pending (· = .start) c = 0 := by
  refine pending_eq_zero fun as' has' a ha => ?_
  obtain ⟨-, hcaller'⟩ | hrole := h.roles_mem has'
  · cases hcaller.symm.trans hcaller'
    exact decide_eq_false fun heq => has (heq ▸ ha)
  · cases hrole with
    | worker hlive _ =>
      obtain rfl | ha := List.mem_cons.mp ha
      · exact decide_eq_false fun heq => by rw [heq] at hlive; cases hlive
      · rw [List.mem_singleton.mp ha]
        rfl
    | winner _ | leaving | waiting | closing | finished =>
      revert a
      decide

/-- Behind a worker that is searching there is its `Done`. -/
theorem SearchInv.live_le (h : SearchInv meets workers c) :
    pending SearchAct.isLive c ≤ c.shared.working := by
  rw [h.working]
  refine pending_le_pending fun as has => ?_
  obtain ⟨hrole, -⟩ | hrole := h.roles_mem has
  · have hzero : as.countP SearchAct.isLive = 0 := by
      cases hrole <;> simp [SearchAct.isLive, List.countP_replicate]
    omega
  · cases hrole with
    | @worker a _ _ =>
      calc [a, .done].countP SearchAct.isLive
          = [a].countP SearchAct.isLive := by simp [List.countP_cons, SearchAct.isLive]
        _ ≤ 1 := List.countP_le_length
        _ ≤ [a, .done].countP (· = .done) := by simp [List.countP_cons]
    | _ => decide

theorem SearchAct.ne_of_isLive {b : SearchAct} (ha : a.isLive = true) (hb : b.isLive = false) :
    a ≠ b := by
  rintro rfl
  cases ha.symm.trans hb

/-- Only a start lets the wait group grow. -/
theorem Moves.working_eq_zero (h : Moves meets s i a rest r) (ha : a ≠ .start)
    (hzero : s.working = 0) : r.shared.working = 0 := by
  cases h with
  | start _ _ => exact absurd rfl ha
  | done _ =>
    change s.working - 1 = 0
    omega
  | _ => exact hzero

theorem Moves.closing (h : Moves meets s i a rest r) :
    (r.push ++ rest = [.close] → r.shared.working = 0) ∧ ∀ as ∈ r.spawn, as ≠ [.close] := by
  cases h with
  | wait _ hzero => exact ⟨fun _ => hzero, by simp⟩
  | start k _ => simp [List.append_eq_cons_iff]
  | _ => simp

/-- While there are workers to be started, the channel is open and nobody is about to close
it. -/
theorem SearchInv.starting (h : SearchInv meets workers c)
    (hthread : c.threads[i]? = some (.start :: rest)) :
    pending (· = .close) c = 0 ∧ c.shared.closed = false := by
  have hrole := h.roles_mem (List.mem_of_getElem? hthread)
  generalize has : SearchAct.start :: rest = as at hrole
  obtain ⟨hrole, hcaller⟩ | hrole := hrole
  · have hclosers := h.closers
    have hpos : 0 < pending (· = .startCloser) c := by
      cases hrole with
      | starting k _ => exact pending_pos hcaller (a := .startCloser) (by simp) (by simp)
      | _ => cases has
    cases hclosed : c.shared.closed with
    | true =>
      rw [hclosed, if_pos rfl] at hclosers
      omega
    | false => exact ⟨by omega, rfl⟩
  · cases hrole with
    | worker hlive _ =>
      cases has
      cases hlive
    | _ => cases has

theorem SearchInv.closing_run (h : SearchInv meets workers c)
    (hthread : c.threads[i]? = some (a :: rest)) (hmove : Moves meets c.shared i a rest r) :
    Each (fun s _ as => as = [.close] → s.working = 0)
      ⟨r.shared, c.threads.set i (r.push ++ rest) ++ r.spawn⟩ := by
  by_cases ha : a = .start
  · -- nobody is about to close the channel
    subst ha
    intro j as has heq
    subst heq
    have hpos := pending_pos (p := (· = .close)) has List.mem_cons_self (by simp)
    have hcount := pending_run (p := (· = .close)) (r := r) hthread
    have hnone := (h.starting hthread).1
    have hstarts : r.push.countP (· = .close) = 0 ∧
        (r.spawn.map (List.countP (· = .close))).sum = 0 := by
      cases hmove with
      | start _ _ => exact ⟨rfl, rfl⟩
      | leave _ hlive _ => cases hlive
    omega
  · refine Each.run h.closing hthread hmove.closing.1 (fun j as _ hold heq => ?_)
      fun as has j _ heq => absurd heq (hmove.closing.2 as has)
    exact hmove.working_eq_zero ha (hold heq)

/-- A search that nobody has settled goes on, or some worker gives up. -/
theorem SearchInv.searching_run (h : SearchInv meets workers c)
    (hthread : c.threads[i]? = some (a :: rest)) (hmove : Moves meets c.shared i a rest r)
    (hsettled : ¬r.shared.Settled) :
    r.shared.cancelled = false ∧ (r.shared.ended = false →
      pending (· = .start) ⟨r.shared, c.threads.set i (r.push ++ rest) ++ r.spawn⟩ +
            pending SearchAct.isLive ⟨r.shared, c.threads.set i (r.push ++ rest) ++ r.spawn⟩ +
          r.shared.failed = workers ∧
        r.shared.tested.countP meets =
          pending SearchAct.isOffer ⟨r.shared, c.threads.set i (r.push ++ rest) ++ r.spawn⟩) := by
  have hstart := pending_run (p := (· = .start)) (r := r) hthread
  have hlive := pending_run (p := SearchAct.isLive) (r := r) hthread
  have hoffer := pending_run (p := SearchAct.isOffer) (r := r) hthread
  obtain ⟨hcancelled, hold⟩ := h.searching (mt hmove.mono.2.1 hsettled)
  cases hmove with
  | receiveStamp _ | receiveClosed _ _ _ | send _ _ _ => simp [Search.Settled] at hsettled
  | callerCancel houtcome => exact absurd (.inr houtcome) hsettled
  | workerCancel _ hold => exact absurd hold hsettled
  | leave _ _ hdone =>
    refine ⟨hcancelled, fun hended => ?_⟩
    have hended : c.shared.ended = false := hended
    simp [Search.isDone, hcancelled, hended] at hdone
  | hit _ hb | miss _ hb =>
    refine ⟨hcancelled, fun hended => ?_⟩
    have hcounts := hold hended
    simp [SearchAct.isLive, SearchAct.isOffer, hb] at hstart hlive hoffer ⊢
    omega
  | _ =>
    refine ⟨hcancelled, fun hended => ?_⟩
    have hcounts := hold hended
    simp [List.countP_cons, SearchAct.isLive, SearchAct.isOffer] at hstart hlive hoffer ⊢
    omega

theorem SearchInv.run (h : SearchInv meets workers c) (hthread : c.threads[i]? = some (a :: rest))
    (hmove : Moves meets c.shared i a rest r) :
    SearchInv meets workers ⟨r.shared, c.threads.set i (r.push ++ rest) ++ r.spawn⟩ := by
  have hcount (p : SearchAct → Bool) := pending_run (p := p) (r := r) hthread
  have hcaller : 0 < (c.threads.set i (r.push ++ rest) ++ r.spawn).length := by
    simpa using .inl h.caller
  refine ⟨hcaller, h.roles_run hthread hmove, ?_, ?_, h.closing_run hthread hmove, ?_, ?_, ?_,
    h.searching_run hthread hmove, ?_, ?_⟩
  · have hdone := hcount (· = .done)
    have hworking := h.working
    cases hmove with
    | leave _ hlive _ =>
      simp [SearchAct.ne_of_isLive hlive (b := .done) rfl] at hdone ⊢
      omega
    | _ =>
      simp at hdone ⊢
      omega
  · have hstart := hcount (· = .startCloser)
    have hclose := hcount (· = .close)
    have hclosers := h.closers
    cases hmove with
    | leave _ hlive _ =>
      simp [SearchAct.ne_of_isLive hlive (b := .startCloser) rfl,
        SearchAct.ne_of_isLive hlive (b := .close) rfl] at hstart hclose ⊢
      omega
    | _ =>
      simp at hstart hclose ⊢
      omega
  · intro hclosed
    cases hmove with
    | start _ _ => cases (h.starting hthread).2.symm.trans hclosed
    | close _ hzero => exact hzero
    | done _ =>
      have hzero := h.shut hclosed
      simp only
      omega
    | _ => exact h.shut hclosed
  · intro b hb
    refine Search.Found.mono (s := c.shared) ?_ hmove.mono.1
    cases hmove with
    | receiveStamp _ => cases hb
    | send _ hfound _ =>
      cases hb
      exact hfound
    | _ => exact h.channel hb
  · intro b hb
    refine Search.Found.mono (s := c.shared) ?_ hmove.mono.1
    cases hmove with
    | receiveStamp hch =>
      cases hb
      exact h.channel hch
    | receiveClosed _ _ _ => cases hb
    | _ => exact h.found hb
  · intro hlost
    cases hmove with
    | receiveClosed houtcome hch hclosed =>
      have hsettled : ¬c.shared.Settled := by simp [Search.Settled, houtcome, hch]
      have hzero := h.shut hclosed
      have hlive := h.live_le
      have hoffers := pending_le_of_imp (p := SearchAct.isOffer) (q := SearchAct.isLive) (c := c)
        fun a ha => by cases a <;> first | rfl | cases ha
      have hstart := h.pending_start hthread (by simp)
      cases hended : c.shared.ended with
      | true => exact ⟨hclosed, .inl rfl⟩
      | false =>
        obtain ⟨hcounts, htested⟩ := (h.searching hsettled).2 hended
        exact ⟨hclosed, .inr ⟨by simp only; omega, by simp only; omega⟩⟩
    | receiveStamp _ => cases hlost
    | fail _ | hit _ _ | miss _ _ =>
      -- once the caller has been told, no worker is left
      have hclosed := (h.lost hlost).1
      exact absurd hclosed (by simp [h.open_of_worker hthread])
    | close _ _ => exact ⟨rfl, (h.lost hlost).2⟩
    | _ => exact h.lost hlost
  · cases hmove <;> exact h.safe

theorem SearchInv.event (h : SearchInv meets workers c) {e : SearchEvent}
    (henv : searchEnv c.shared e = some r) :
    SearchInv meets workers ⟨r.shared, c.threads ++ r.spawn⟩ := by
  cases e
  cases henv
  rw [List.append_nil]
  refine ⟨h.caller, fun j as has => ?_, h.working, h.closers, h.closing, h.shut, h.channel, h.found,
    fun hsettled => ⟨(h.searching hsettled).1, fun hended => by cases hended⟩,
    fun hlost => ⟨(h.lost hlost).1, .inl rfl⟩, h.safe⟩
  have hrole := h.roles j as has
  simp only [Role] at hrole ⊢
  split at hrole
  · rw [if_pos ‹_›]
    exact hrole.mono rfl id
  · rw [if_neg ‹_›]
    exact hrole.mono List.prefix_rfl id

theorem SearchInv.step {e : Event SearchChoice SearchEvent} (h : SearchInv meets workers c)
    (hstep : (searchProgram meets).step c e = some c') : SearchInv meets workers c' := by
  cases Program.steps_of_step hstep with
  | run hthread hact => exact h.run hthread (h.moves hthread hact)
  | @env e _ henv => exact h.event (e := e) henv

theorem searchInv_of_run
    (hrun : run (searchProgram meets).step (searchInit workers) es = some c) :
    SearchInv meets workers c :=
  run_invariant SearchInv.step searchInit_inv hrun

/-! ## The result -/

section Result

variable {Identity : Type} {cr : Crypto Identity} {messageID wb : Bytes} {stampCost expandRounds : Int}

/-- The goroutines of `GenerateStamp` on a work block. -/
def stampSearch (cr : Crypto Identity) (stampCost : Int) (wb : Bytes) :
    Program Search SearchAct SearchChoice SearchEvent :=
  searchProgram fun c => meetsTarget cr stampCost wb c.val

theorem generateStamp_eq (hcost : 0 < stampCost)
    (hwb : stampWorkblock cr messageID
      (if expandRounds ≤ 0 then workblockExpandRounds else expandRounds) = .ok wb)
    (candidates : List Candidate) :
    generateStamp cr messageID stampCost expandRounds candidates =
      returned cr wb (candidates.find? fun c => meetsTarget cr stampCost wb c.val) := by
  rw [generateStamp, if_neg (Int.not_le.mpr hcost)]
  simp only [hwb, Except.ok_bind]
  cases candidates.find? fun c => meetsTarget cr stampCost wb c.val <;> rfl

/-- Whatever the goroutines do, `GenerateStamp` returns what the search through the candidates
one after the other returns, for some order of those that were tested; once the context has
ended, any of them may be left out. And it never panics. -/
theorem search_refines (hcost : 0 < stampCost)
    (hwb : stampWorkblock cr messageID
      (if expandRounds ≤ 0 then workblockExpandRounds else expandRounds) = .ok wb)
    (hrun : run (stampSearch cr stampCost wb).step (searchInit workers) es = some c) :
    c.shared.panicked = false ∧ ∀ {result}, c.shared.outcome = some result →
      ∃ candidates : List Candidate, candidates.Subperm c.shared.tested ∧
        (c.shared.ended = false → candidates.Perm c.shared.tested) ∧
        generateStamp cr messageID stampCost expandRounds candidates = returned cr wb result := by
  have h := searchInv_of_run hrun
  refine ⟨h.safe, fun {result} houtcome => ?_⟩
  cases result with
  | some b =>
    -- the stamp that came first out of the channel
    obtain ⟨hmeets, htested⟩ := h.found houtcome
    have hperm := (List.perm_cons_erase htested).symm
    refine ⟨b :: c.shared.tested.erase b, hperm.subperm, fun _ => hperm, ?_⟩
    have hfirst : (b :: c.shared.tested.erase b).find? (fun c => meetsTarget cr stampCost wb c.val) =
        some b := List.find?_cons_of_pos hmeets
    rw [generateStamp_eq hcost hwb, hfirst]
  | none =>
    refine ⟨c.shared.tested.filter fun c => !meetsTarget cr stampCost wb c.val,
      (List.filter_sublist ..).subperm, fun hended => ?_, ?_⟩
    · obtain hended' | ⟨-, hnone⟩ := (h.lost houtcome).2
      · cases hended.symm.trans hended'
      · rw [List.filter_eq_self.mpr fun b hb => by simpa using List.countP_eq_zero.mp hnone b hb]
    · rw [generateStamp_eq hcost hwb, List.find?_eq_none.mpr]
      intro b hb
      simpa using (List.mem_filter.mp hb).2

/-- A hash that keeps the last 32 bytes. -/
def lastBytes (b : Bytes) : Bytes := ((b.reverse ++ List.replicate 32 0).take 32).reverse

theorem length_lastBytes (b : Bytes) : (lastBytes b).length = 32 := by
  simp [lastBytes]

def lastCrypto : Crypto Unit where
  sha256 := lastBytes
  sha256_length := length_lastBytes
  verify _ _ _ := false

theorem length_ones : (List.replicate 32 (255 : UInt8)).length = stampSize := rfl

def sampleMiss : Candidate := ⟨List.replicate 32 255, length_ones⟩
def sampleHit : Candidate := ⟨List.replicate 32 0, length_zeros⟩

/-- Both of two workers find a stamp, and the second sends first. -/
def sampleRace : List (Event SearchChoice SearchEvent) :=
  [.run 0 {}, .run 0 {}, .run 0 {}, .run 1 {}, .run 1 { drawn := some sampleMiss }, .run 1 {},
    .run 1 {}, .run 1 { drawn := some sampleHit }, .run 1 {}, .run 2 {},
    .run 2 { drawn := some sampleHit }, .run 2 {}, .run 2 {}, .run 2 {}]

/-- Then all goroutines end. -/
def sampleFinish : List (Event SearchChoice SearchEvent) :=
  [.run 1 { sends := false }, .run 1 {}, .run 2 {}, .run 0 {}, .run 0 {}, .run 3 {}, .run 3 {}]

theorem sample_search_refines :
    ∃ wb c, stampWorkblock lastCrypto [1] 1 = .ok wb ∧
      run (stampSearch lastCrypto 8 wb).step (searchInit 2) (sampleRace ++ sampleFinish) = some c ∧
      c.shared.outcome = some (some sampleHit) ∧ c.shared.ended = false ∧
      ∃ candidates : List Candidate, candidates.Perm c.shared.tested ∧
        generateStamp lastCrypto [1] 8 1 candidates = returned lastCrypto wb (some sampleHit) := by
  have hend : ((stampWorkblock lastCrypto [1] 1).toOption.bind fun wb =>
      (run (stampSearch lastCrypto 8 wb).step (searchInit 2) (sampleRace ++ sampleFinish)).map
        fun c => (c.shared.outcome, c.shared.ended)) = some (some (some sampleHit), false) := by
    decide +kernel
  obtain ⟨wb, hwb, hend⟩ := Option.bind_eq_some_iff.mp hend
  have hwb := Except.toOption_eq_some_iff.mp hwb
  obtain ⟨c, hrun, heq⟩ := Option.map_eq_some_iff.mp hend
  obtain ⟨houtcome, hended⟩ := Prod.mk.injEq .. ▸ heq
  have hwb' : stampWorkblock lastCrypto [1] (if (1 : Int) ≤ 0 then workblockExpandRounds else 1) =
      .ok wb := hwb
  obtain ⟨candidates, -, hperm, heq⟩ := (search_refines (by decide) hwb' hrun).2 houtcome
  exact ⟨wb, c, hwb, hrun, houtcome, hended, candidates, hperm hended, heq⟩

/-- Without a stamp, the context has ended, or every worker has run out of random bytes. -/
theorem search_notFound
    (hrun : run (stampSearch cr stampCost wb).step (searchInit workers) es = some c)
    (hlost : c.shared.outcome = some none) :
    c.shared.ended = true ∨ c.shared.failed = workers :=
  ((searchInv_of_run hrun).lost hlost).2.imp id And.left

/-- The only worker finds the context ended. -/
theorem sample_search_notFound :
    ∃ c, run (stampSearch lastCrypto 8 []).step (searchInit 1)
        [.run 0 {}, .run 0 {}, .env .contextEnds, .run 1 {}, .run 1 {}, .run 2 {}, .run 2 {},
          .run 0 {}] = some c ∧
      c.shared.outcome = some none ∧ (c.shared.ended = true ∨ c.shared.failed = 1) := by
  have hend : (run (stampSearch lastCrypto 8 []).step (searchInit 1)
      [.run 0 {}, .run 0 {}, .env .contextEnds, .run 1 {}, .run 1 {}, .run 2 {}, .run 2 {},
        .run 0 {}]).map (·.shared.outcome) = some (some none) := by
    decide +kernel
  obtain ⟨c, hrun, houtcome⟩ := Option.map_eq_some_iff.mp hend
  exact ⟨c, hrun, houtcome, search_notFound hrun houtcome⟩

end Result

/-! ## The end -/

/-- A helper that cannot move offers a stamp that nobody takes and nobody has called off, or
waits for such a worker. -/
theorem SearchInv.blocked (h : SearchInv meets workers c) (hstuck : (searchProgram meets).Stuck c)
    (hthread : c.threads[i]? = some (a :: rest)) (hi : i ≠ 0) :
    c.shared.resCh ≠ none ∧ c.shared.isDone = false ∨ c.shared.working ≠ 0 ∧ a = .wait := by
  have hrole := h.roles i _ hthread
  rw [Role, if_neg hi] at hrole
  have hblocked : ∀ x, searchAct meets x c.shared a = none := hstuck.blocked hthread
  generalize has : a :: rest = as at hrole
  cases hrole with
  | worker ha hoffer =>
    cases has
    cases a with
    | check =>
      have hnone := hblocked {}
      simp only [searchAct] at hnone
      split at hnone <;> cases hnone
    | draw => cases hblocked {}
    | test b => cases hblocked {}
    | offer b =>
      have hsend := hblocked { sends := true }
      have hleave := hblocked { sends := false }
      simp only [searchAct, h.open_of_worker hthread, Bool.false_eq_true, if_true, if_false,
        ite_eq_right_iff, reduceCtorEq, imp_false] at hsend hleave
      exact .inl ⟨hsend, by simpa using hleave⟩
    | _ => cases ha
  | winner _ | leaving =>
    cases has
    cases hblocked {}
  | waiting =>
    cases has
    have hwait := hblocked {}
    simp only [searchAct, ite_eq_right_iff, reduceCtorEq, imp_false] at hwait
    exact .inr ⟨hwait, rfl⟩
  | closing =>
    cases has
    have hnone := hblocked {}
    simp only [searchAct] at hnone
    split at hnone <;> cases hnone
  | finished => cases has

/-- The actions of one kind belong to the caller or to the helpers. -/
theorem exists_helper {p : SearchAct → Bool} (hpos : 0 < pending p c) (hcaller : ∀ as, c.threads[0]? = some as → ∀ a ∈ as, p a = false) :
    ∃ i a rest, c.threads[i]? = some (a :: rest) ∧ i ≠ 0 ∧ ∃ a' ∈ a :: rest, p a' = true := by
  obtain ⟨i, as, has, a', ha', hp⟩ := exists_of_pending_pos hpos
  have hi : i ≠ 0 := by
    rintro rfl
    cases (hcaller as has a' ha').symm.trans hp
  cases as with
  | nil => cases ha'
  | cons a rest => exact ⟨i, a, rest, has, hi, a', ha', hp⟩

/-- If nothing moves, a helper that is left offers a stamp. -/
theorem SearchInv.offers_of_stuck (h : SearchInv meets workers c)
    (hstuck : (searchProgram meets).Stuck c)
    (hcaller : ∀ as, c.threads[0]? = some as → .done ∉ as)
    (hthread : c.threads[i]? = some (a :: rest)) (hi : i ≠ 0) :
    c.shared.resCh ≠ none ∧ c.shared.isDone = false := by
  obtain hoffers | ⟨hworking, -⟩ := h.blocked hstuck hthread hi
  · exact hoffers
  · -- the wait group is not at zero: some worker has not left
    have hpos : 0 < pending (· = .done) c := by
      have hcount := h.working
      omega
    obtain ⟨j, a, rest, has, hj, a', ha', hdone⟩ := exists_helper hpos
      fun as has a ha => decide_eq_false fun heq => hcaller as has (heq ▸ ha)
    obtain hoffers | ⟨-, rfl⟩ := h.blocked hstuck has hj
    · exact hoffers
    · have hrole := h.roles j _ has
      rw [Role, if_neg hj] at hrole
      generalize heq : SearchAct.wait :: rest = as at hrole
      cases hrole with
      | worker hlive _ =>
        cases heq
        cases hlive
      | waiting =>
        cases heq
        simp only [List.mem_cons, List.not_mem_nil, or_false] at ha'
        obtain rfl | rfl := ha' <;> cases hdone
      | _ => cases heq

theorem SearchInv.settled (h : SearchInv meets workers c) (hstuck : (searchProgram meets).Stuck c) :
    c.shared.outcome ≠ none ∧ ∀ as ∈ c.threads, as = [] := by
  obtain ⟨as, has⟩ : ∃ as, c.threads[0]? = some as := ⟨_, List.getElem?_eq_getElem h.caller⟩
  have hrole : CallerRole c.shared as := by
    have hrole := h.roles 0 as has
    rwa [Role, if_pos rfl] at hrole
  have hmoves : ∀ {a rest}, as = a :: rest → ∀ x, searchAct meets x c.shared a = none :=
    fun heq => hstuck.blocked (heq ▸ has)
  cases hrole with
  | starting k _ =>
    cases k with
    | zero => cases hmoves rfl {}
    | succ k => cases hmoves rfl {}
  | returning _ => cases hmoves rfl {}
  | receiving _ =>
    -- the channel is empty and open, so somebody has still to close it
    exfalso
    have hreceive := hmoves rfl {}
    simp only [searchAct] at hreceive
    split at hreceive
    · cases hreceive
    · rename_i hempty
      split at hreceive
      · cases hreceive
      · rename_i hopen
        have hclosers := h.closers
        rw [if_neg hopen] at hclosers
        have hnone : ∀ p : SearchAct → Bool, p .receive = false → p .cancel = false →
            ∀ as, c.threads[0]? = some as → ∀ a ∈ as, p a = false := by
          intro p hreceive hcancel as has' a ha
          cases has.symm.trans has'
          simp only [List.mem_cons, List.not_mem_nil, or_false] at ha
          obtain rfl | rfl := ha
          · exact hreceive
          · exact hcancel
        have hpos : 0 < pending (· = .startCloser) c ∨ 0 < pending (· = .close) c := by omega
        have hhelper : ∃ i a rest, c.threads[i]? = some (a :: rest) ∧ i ≠ 0 := by
          obtain hpos | hpos := hpos
          · obtain ⟨i, a, rest, hthread, hi, -⟩ := exists_helper hpos (hnone _ rfl rfl)
            exact ⟨i, a, rest, hthread, hi⟩
          · obtain ⟨i, a, rest, hthread, hi, -⟩ := exists_helper hpos (hnone _ rfl rfl)
            exact ⟨i, a, rest, hthread, hi⟩
        obtain ⟨i, a, rest, hthread, hi⟩ := hhelper
        refine (h.offers_of_stuck hstuck (fun as has' => ?_) hthread hi).1 hempty
        cases has.symm.trans has'
        simp
  | returned houtcome hcancelled =>
    -- the context is done, so nobody has to wait with a stamp
    refine ⟨houtcome, fun as' has' => ?_⟩
    obtain ⟨i, hi⟩ := List.mem_iff_getElem?.mp has'
    cases as' with
    | nil => rfl
    | cons a rest =>
      have hne : i ≠ 0 := by
        rintro rfl
        cases has.symm.trans hi
      have hdone := (h.offers_of_stuck hstuck (fun as has' => by cases has.symm.trans has'; simp)
        hi hne).2
      simp [Search.isDone, hcancelled] at hdone

/-- The search does not get stuck: if no goroutine can move, the caller has its answer and all
goroutines have ended. -/
theorem search_settles {Identity : Type} {cr : Crypto Identity} {stampCost : Int} {wb : Bytes}
    (hrun : run (stampSearch cr stampCost wb).step (searchInit workers) es = some c)
    (hstuck : (stampSearch cr stampCost wb).Stuck c) :
    c.shared.outcome ≠ none ∧ ∀ as ∈ c.threads, as = [] :=
  (searchInv_of_run hrun).settled hstuck

theorem sample_search_settles :
    ∃ c, run (stampSearch lastCrypto 8 []).step (searchInit 2) (sampleRace ++ sampleFinish) = some c ∧
      (stampSearch lastCrypto 8 []).Stuck c ∧ c.shared.outcome ≠ none := by
  have hend : (run (stampSearch lastCrypto 8 []).step (searchInit 2)
      (sampleRace ++ sampleFinish)).map (·.threads.all (· = [])) = some true := by
    decide +kernel
  obtain ⟨c, hrun, hthreads⟩ := Option.map_eq_some_iff.mp hend
  have hstuck : (stampSearch lastCrypto 8 []).Stuck c :=
    Program.stuck_of_ended (by simpa using hthreads)
  exact ⟨c, hrun, hstuck, (search_settles hrun hstuck).1⟩

-- How long the search can go on.

/-- The steps that are left once the context is done. -/
def SearchAct.left : SearchAct → Nat
  | .start => 5
  | .startCloser => 3
  | .draw => 4
  | .test _ => 3
  | .offer _ => 2
  | _ => 1

/-- The same, but for the loop of a worker that may still go on. -/
def SearchAct.leftAtMost : SearchAct → Nat
  | .start => 5
  | .startCloser => 3
  | .check | .draw | .test _ | .offer _ => 4
  | _ => 1

theorem SearchAct.left_pos (a : SearchAct) : 0 < a.left := by
  cases a <;> simp [SearchAct.left]

theorem Moves.leftAtMost_le (h : Moves meets s i a rest r) :
    (r.push.map SearchAct.leftAtMost).sum +
      (r.spawn.map fun as => (as.map SearchAct.leftAtMost).sum).sum ≤ a.leftAtMost := by
  cases h <;> simp [SearchAct.leftAtMost]

theorem Moves.left_lt (h : Moves meets s i a rest r) (hdone : s.isDone = true)
    (hact : searchAct meets x s a = some r) :
    (r.push.map SearchAct.left).sum + (r.spawn.map fun as => (as.map SearchAct.left).sum).sum <
      a.left := by
  cases h with
  | goOn _ => simp [searchAct, hdone] at hact
  | leave _ _ _ => exact a.left_pos
  | _ => simp [SearchAct.left]

theorem searchInit_weight : weight SearchAct.leftAtMost (searchInit workers) = 5 * workers + 5 := by
  simp [weight, searchInit, SearchAct.leftAtMost]
  omega

theorem searchProgram_spawn {e : SearchEvent} (h : (searchProgram meets).env s e = some r) :
    r.spawn = [] := by
  cases e
  cases h
  rfl

theorem isDone_step {e : Event SearchChoice SearchEvent} (h : SearchInv meets workers c)
    (hdone : c.shared.isDone = true) (hstep : (searchProgram meets).step c e = some c') :
    c'.shared.isDone = true := by
  cases Program.steps_of_step hstep with
  | run hthread hact =>
    have hmove := h.moves hthread hact
    cases hmove <;> first | exact hdone | simp [Search.isDone]
  | @env e _ henv =>
    cases e
    cases henv
    rfl

/-- Once the context is done, whether it has ended or a stamp was found, the goroutines take
no more than five steps for each worker and five more. -/
theorem search_stops {Identity : Type} {cr : Crypto Identity} {stampCost : Int} {wb : Bytes}
    {es' : List (Event SearchChoice SearchEvent)}
    (hrun : run (stampSearch cr stampCost wb).step (searchInit workers) es = some c)
    (hdone : c.shared.isDone = true) (hrun' : run (stampSearch cr stampCost wb).step c es' = some c') :
    es'.countP Event.isRun ≤ 5 * workers + 5 := by
  have h := searchInv_of_run hrun
  have hfirst := weight_le_of_run (SearchInv _ workers) SearchAct.leftAtMost SearchInv.step
    (fun h hthread hact => (h.moves hthread hact).leftAtMost_le) searchProgram_spawn searchInit_inv hrun
  have hrest := runs_add_weight_le
    (fun c => SearchInv (fun b => meetsTarget cr stampCost wb b.val) workers c ∧ c.shared.isDone = true)
    SearchAct.left (fun h _ hstep => ⟨h.1.step hstep, isDone_step h.1 h.2 hstep⟩)
    (fun h hthread hact => (h.1.moves hthread hact).left_lt h.2 hact)
    (fun _ => searchProgram_spawn) ⟨h, hdone⟩ hrun'
  have hle := weight_le_weight SearchAct.left SearchAct.leftAtMost c
    fun a => by cases a <;> simp [SearchAct.left, SearchAct.leftAtMost]
  rw [searchInit_weight] at hfirst
  omega

/-- Seven more steps after the race. -/
theorem sample_search_stops :
    ∃ c c', run (stampSearch lastCrypto 8 []).step (searchInit 2) sampleRace = some c ∧
      c.shared.isDone = true ∧ run (stampSearch lastCrypto 8 []).step c sampleFinish = some c' ∧
      sampleFinish.countP Event.isRun = 7 ∧ sampleFinish.countP Event.isRun ≤ 5 * 2 + 5 := by
  have hend : ((run (stampSearch lastCrypto 8 []).step (searchInit 2) sampleRace).bind fun c =>
      (run (stampSearch lastCrypto 8 []).step c sampleFinish).map fun _ => c.shared.isDone) =
        some true := by
    decide +kernel
  obtain ⟨c, hrun, hend⟩ := Option.bind_eq_some_iff.mp hend
  obtain ⟨c', hrun', hdone⟩ := Option.map_eq_some_iff.mp hend
  exact ⟨c, c', hrun, hdone, hrun', rfl, search_stops hrun hdone hrun'⟩

end Lxmf
