-- SUMMARY: The messenger's cached links, and when a send locks a mutex it already holds.
import Mathlib.Logic.Function.Basic
import ReticulumMf.Lib.Threads
import ReticulumMf.Lxmf.Message

/-!
# Cached links

A messenger keeps one link to the last direct peer and one to the last
propagation node, each under a mutex of its own. The closed callback of such a
link takes the mutex of its cache. Tearing down an active link runs that
callback on the calling thread, so a thread that does so while it holds the
mutex waits for itself.
-/

namespace Lxmf

open Threads

/-! ## State and calls -/

/-- The direct peer's link under `deliveryLinkMu`, and the propagation node's
under `propLinkMu`. -/
inductive Cache where
  | delivery | propagation
  deriving DecidableEq, Repr

/-- A link, by the cache its closed callback clears. -/
structure CachedLink where
  cache : Cache
  active : Bool
  deriving DecidableEq, Repr

/-- The mutexes with the threads that hold them, the cached links with their
peers, and all links by number. -/
structure LinkState where
  holder : Cache → Option Nat
  cached : Cache → Option (Nat × Bytes)
  links : List CachedLink

def LinkState.isActive (s : LinkState) (l : Nat) : Bool := (s.links[l]?).any (·.active)

def LinkState.setActive (s : LinkState) (l : Nat) (b : Bool) : LinkState :=
  { s with links := s.links.modify l ({ · with active := b }) }

inductive SendCall where
  | sendDirect (peerHash : Bytes)
  | sendPropagated (propNodeHash : Bytes)
  /-- With the candidates of the registry, in the order of `AttemptOrder`. -/
  | sendPropagatedWithRetry (candidates : List Bytes) (maxAttempts : Int)
  deriving DecidableEq, Repr

/-- What a call goes on with when it has a link, or has failed to get one. -/
inductive Next where
  | done
  | retry (nodes : List Bytes)
  deriving DecidableEq, Repr

/-- The atomic actions of a call. Those whose name ends in `Locked` are the
bodies of critical sections. -/
inductive LinkAct where
  | call (c : SendCall)
  | lock (m : Cache)
  | unlock (m : Cache)
  | ensureLocked (m : Cache) (peer : Bytes)
  | clearLocked (m : Cache)
  | teardown (l : Nat)
  | forgetLocked (m : Cache)
  | closedLocked (m : Cache) (l : Nat)
  | establish (m : Cache) (peer : Bytes) (next : Next)
  | awaitActive (m : Cache) (l : Nat) (peer : Bytes) (next : Next)
  | storeLocked (m : Cache) (l : Nat) (peer : Bytes)
  | transfer (next : Next)
  | attempt (nodes : List Bytes)
  deriving DecidableEq, Repr

/-- What a call finds: whether the message packs, the link request goes out, the
wait for the link has timed out, and the transfer succeeds. -/
structure LinkChoice where
  packs : Bool
  requested : Bool
  timedOut : Bool
  transferred : Bool
  deriving DecidableEq, Repr

/-! ## Actions -/

/-- `ensureDeliveryLink` and `ensurePropagationLink`. -/
def ensureLink (m : Cache) (peer : Bytes) : List LinkAct :=
  if peer.length ≠ destinationLength then [] else [.lock m, .ensureLocked m peer]

/-- `clearDeliveryLink` and `clearPropagationLink`. -/
def clearLink (m : Cache) : List LinkAct := [.lock m, .clearLocked m]

/-- The closed callback that `establishDeliveryLink` and
`establishPropagationLink` install. -/
def closedCallback (m : Cache) (l : Nat) : List LinkAct :=
  [.lock m, .closedLocked m l, .unlock m]

/-- The loop of `SendPropagatedWithRetry` after a failed attempt. -/
def Next.failed : Next → List LinkAct
  | .done => []
  | .retry nodes => [.attempt nodes]

/-- A call up to its first critical section. A message that does not pack ends
it, or with retries the first attempt. -/
def SendCall.start (packs : Bool) : SendCall → List LinkAct
  | .sendDirect peerHash => if packs then ensureLink .delivery peerHash else []
  | .sendPropagated propNodeHash => if packs then ensureLink .propagation propNodeHash else []
  | .sendPropagatedWithRetry candidates maxAttempts =>
    let maxAttempts := if maxAttempts < 1 then 1 else maxAttempts
    [.attempt (candidates.take maxAttempts.toNat)]

/-- The part of `ensure...Link` after `Lock`. -/
def LinkState.ensureLocked (s : LinkState) (m : Cache) (peer : Bytes) : List LinkAct :=
  match s.cached m with
  | some (l, p) =>
    if s.isActive l ∧ p = peer then [.unlock m, .transfer .done]
    else [.teardown l, .forgetLocked m, .unlock m, .establish m peer .done]
  | none => [.unlock m, .establish m peer .done]

/-- The part of `clear...Link` after `Lock`. -/
def LinkState.clearLocked (s : LinkState) (m : Cache) : List LinkAct :=
  match s.cached m with
  | some (l, _) => [.teardown l, .forgetLocked m, .unlock m]
  | none => [.unlock m]

/-- `Link.Teardown`: an active link is closed, and its closed callback called. -/
def LinkState.teardown (s : LinkState) (l : Nat) : Effect LinkState LinkAct :=
  match s.links[l]? with
  | some ⟨m, true⟩ => { shared := s.setActive l false, push := closedCallback m l }
  | _ => { shared := s }

def linkAct (t : Nat) (x : LinkChoice) (s : LinkState) : LinkAct → Option (Effect LinkState LinkAct)
  | .call c => some { shared := s, push := c.start x.packs }
  | .lock m =>
    if s.holder m = none then
      some { shared := { s with holder := Function.update s.holder m (some t) } }
    else none
  | .unlock m => some { shared := { s with holder := Function.update s.holder m none } }
  | .ensureLocked m peer => some { shared := s, push := s.ensureLocked m peer }
  | .clearLocked m => some { shared := s, push := s.clearLocked m }
  | .teardown l => some (s.teardown l)
  | .forgetLocked m => some { shared := { s with cached := Function.update s.cached m none } }
  | .closedLocked m l =>
    some { shared :=
      if (s.cached m).map Prod.fst = some l then
        { s with cached := Function.update s.cached m none }
      else s }
  | .establish m peer next =>
    if x.requested then
      some {
        shared := { s with links := s.links ++ [⟨m, false⟩] }
        push := [.awaitActive m s.links.length peer next] }
    else some { shared := s, push := next.failed }
  | .awaitActive m l peer next =>
    some { shared := s, push :=
      if s.isActive l then [.lock m, .storeLocked m l peer, .unlock m, .transfer next]
      else if x.timedOut then .teardown l :: next.failed
      else [.awaitActive m l peer next] }
  | .storeLocked m l peer =>
    some { shared := { s with cached := Function.update s.cached m (some (l, peer)) } }
  | .transfer next =>
    some { shared := s, push :=
      match x.transferred, next with
      | false, .retry nodes => clearLink .propagation ++ [.attempt nodes]
      | _, _ => [] }
  | .attempt [] => some { shared := s }
  | .attempt (node :: nodes) =>
    some { shared := s, push :=
      if x.packs then clearLink .propagation ++ [.establish .propagation node (.retry nodes)]
      else [] }

/-- What happens besides: a thread starts to make calls, a link becomes active,
goes stale, or is closed by its remote side or watchdog, which runs the closed
callback on a thread of its own. -/
inductive LinkEvent where
  | calls (cs : List SendCall)
  | activate (l : Nat)
  | goStale (l : Nat)
  | remoteClose (l : Nat)
  deriving DecidableEq, Repr

def linkEnv (s : LinkState) : LinkEvent → Option (Effect LinkState LinkAct)
  | .calls cs => some { shared := s, spawn := [cs.map .call] }
  | .activate l => some { shared := s.setActive l true }
  | .goStale l => some { shared := s.setActive l false }
  | .remoteClose l =>
    (s.links[l]?).map fun k =>
      { shared := s.setActive l false, spawn := [closedCallback k.cache l] }

def linkProgram : Program LinkState LinkAct LinkChoice LinkEvent := ⟨linkAct, linkEnv⟩

def linkInit : Threads.Config LinkState LinkAct := ⟨⟨fun _ => none, fun _ => none, []⟩, []⟩

/-- A thread is about to lock a mutex it holds itself. -/
def SelfDeadlock (c : Threads.Config LinkState LinkAct) : Prop :=
  ∃ t m rest, c.threads[t]? = some (.lock m :: rest) ∧ c.shared.holder m = some t

/-! ## Lock discipline -/

/-- The mutexes a thread holds. -/
def LinkState.heldBy (s : LinkState) (t : Nat) (m : Cache) : Prop := s.holder m = some t

/-- What a thread may hold when it comes to an action. -/
def LinkAct.Allowed (held : Cache → Prop) : LinkAct → Prop
  | .lock m => ¬held m
  | .ensureLocked m _ => ∀ m', held m' ↔ m' = m
  | .unlock m | .clearLocked m => held m
  | .forgetLocked _ | .closedLocked _ _ | .storeLocked _ _ _ | .teardown _ => True
  | .call _ | .establish _ _ _ | .awaitActive _ _ _ _ | .transfer _ | .attempt _ => ∀ m, ¬held m

/-- What it holds once the action and all that the action pushes is done. -/
def LinkAct.after (held : Cache → Prop) : LinkAct → Cache → Prop
  | .lock m => fun m' => m' = m ∨ held m'
  | .unlock m | .ensureLocked m _ | .clearLocked m => fun m' => m' ≠ m ∧ held m'
  | _ => held

def lockDiscipline : Discipline (Cache → Prop) LinkAct := ⟨LinkAct.Allowed, LinkAct.after⟩

/-- The remaining actions of a thread never lock a mutex that is held by then. -/
abbrev Disciplined (held : Cache → Prop) (as : List LinkAct) : Prop := lockDiscipline.Keeps held as

/-- The action of a thread is good unless it tears down an active link while the
thread holds the mutex that the link's closed callback takes. -/
def GoodAct (t : Nat) (s : LinkState) : LinkAct → Prop
  | .teardown l => ∀ m, s.links[l]? = some ⟨m, true⟩ → ¬s.heldBy t m
  | _ => True

theorem heldBy_lock {s : LinkState} {t : Nat} {m m' : Cache} :
    ({ s with holder := Function.update s.holder m (some t) } : LinkState).heldBy t m' ↔
      m' = m ∨ s.heldBy t m' := by
  by_cases h : m' = m <;> simp [LinkState.heldBy, h]

theorem heldBy_unlock {s : LinkState} {t : Nat} {m m' : Cache} :
    ({ s with holder := Function.update s.holder m none } : LinkState).heldBy t m' ↔
      m' ≠ m ∧ s.heldBy t m' := by
  by_cases h : m' = m <;> simp [LinkState.heldBy, h]

/-- Actions that start and end with no mutex held. -/
def SelfContained (as : List LinkAct) : Prop :=
  Disciplined (fun _ => False) as ∧ lockDiscipline.atEnd (fun _ => False) as = fun _ => False

theorem SelfContained.append {as bs : List LinkAct} (has : SelfContained as)
    (hbs : SelfContained bs) : SelfContained (as ++ bs) :=
  ⟨has.1.append (by rw [has.2]; exact hbs.1), by rw [Discipline.atEnd_append, has.2, hbs.2]⟩

theorem SelfContained.disciplined {held : Cache → Prop} {as rest : List LinkAct}
    (has : SelfContained as) (hheld : ∀ m, ¬held m) (hrest : Disciplined held rest) :
    Disciplined held (as ++ rest) := by
  obtain rfl : held = fun _ => False := funext fun m => propext (iff_false_intro (hheld m))
  exact has.1.append (by rw [has.2]; exact hrest)

theorem SelfContained.nil : SelfContained [] := ⟨trivial, rfl⟩

/-- An action that is made with no mutex held, and pushes only such. -/
theorem SelfContained.single {a : LinkAct} (h : a.Allowed (fun _ => False))
    (hafter : a.after (fun _ => False) = fun _ => False) : SelfContained [a] :=
  ⟨⟨h, trivial⟩, hafter⟩

theorem selfContained_ensureLink (m : Cache) (peer : Bytes) : SelfContained (ensureLink m peer) := by
  unfold ensureLink
  split
  · exact .nil
  · simp [SelfContained, lockDiscipline, LinkAct.Allowed, LinkAct.after]

theorem selfContained_clearLink (m : Cache) : SelfContained (clearLink m) := by
  simp [clearLink, SelfContained, lockDiscipline, LinkAct.Allowed, LinkAct.after]

theorem selfContained_closedCallback (m : Cache) (l : Nat) :
    SelfContained (closedCallback m l) := by
  simp [closedCallback, SelfContained, lockDiscipline, LinkAct.Allowed, LinkAct.after]

theorem Next.selfContained_failed (next : Next) : SelfContained next.failed := by
  cases next with
  | done => exact .nil
  | retry nodes => exact .single (fun _ h => h) rfl

theorem SendCall.selfContained_start (packs : Bool) (c : SendCall) :
    SelfContained (c.start packs) := by
  cases c with
  | sendDirect peer =>
    cases packs with
    | false => exact .nil
    | true => exact selfContained_ensureLink .delivery peer
  | sendPropagated node =>
    cases packs with
    | false => exact .nil
    | true => exact selfContained_ensureLink .propagation node
  | sendPropagatedWithRetry candidates maxAttempts => exact .single (fun _ h => h) rfl

theorem selfContained_calls (cs : List SendCall) : SelfContained (cs.map .call) := by
  induction cs with
  | nil => exact .nil
  | cons c cs ih =>
    have hcall : SelfContained [.call c] := .single (fun _ h => h) rfl
    exact hcall.append ih

/-- Only `lock` and `unlock` change who holds a mutex. -/
theorem linkAct_holder {t : Nat} {x : LinkChoice} {s : LinkState} {a : LinkAct}
    {r : Effect LinkState LinkAct} (h : linkAct t x s a = some r) :
    (∃ m, a = .lock m ∧ s.holder m = none ∧ r = { shared :=
      { s with holder := Function.update s.holder m (some t) } }) ∨
    (∃ m, a = .unlock m ∧ r = { shared :=
      { s with holder := Function.update s.holder m none } }) ∨
    ((∀ m, a ≠ .lock m ∧ a ≠ .unlock m) ∧ r.shared.holder = s.holder) := by
  cases a with
  | lock m =>
    simp only [linkAct] at h
    split at h
    · exact .inl ⟨m, rfl, ‹_›, (Option.some.inj h).symm⟩
    · cases h
  | unlock m => exact .inr (.inl ⟨m, rfl, (Option.some.inj h).symm⟩)
  | teardown l =>
    obtain rfl := Option.some.inj h
    refine .inr (.inr ⟨by simp, ?_⟩)
    simp only [LinkState.teardown]
    split <;> rfl
  | closedLocked m l =>
    obtain rfl := Option.some.inj h
    refine .inr (.inr ⟨by simp, ?_⟩)
    dsimp only
    split <;> rfl
  | establish m peer next =>
    simp only [linkAct] at h
    split at h <;> obtain rfl := Option.some.inj h <;> exact .inr (.inr ⟨by simp, rfl⟩)
  | attempt nodes =>
    cases nodes <;> obtain rfl := Option.some.inj h <;> exact .inr (.inr ⟨by simp, rfl⟩)
  | _ =>
    obtain rfl := Option.some.inj h
    exact .inr (.inr ⟨by simp, rfl⟩)

theorem linkAct_push {t : Nat} {x : LinkChoice} {s : LinkState} {a : LinkAct} {rest : List LinkAct}
    {r : Effect LinkState LinkAct} (hact : linkAct t x s a = some r)
    (ha : ∀ m, a ≠ .lock m ∧ a ≠ .unlock m) (hgood : GoodAct t s a)
    (h : Disciplined (s.heldBy t) (a :: rest)) : Disciplined (s.heldBy t) (r.push ++ rest) := by
  obtain ⟨hallowed, hrest⟩ := h
  cases a with
  | lock m => exact absurd rfl (ha m).1
  | unlock m => exact absurd rfl (ha m).2
  | call c =>
    obtain rfl := Option.some.inj hact
    exact (c.selfContained_start _).disciplined hallowed hrest
  | ensureLocked m peer =>
    obtain rfl := Option.some.inj hact
    simp only [LinkState.ensureLocked]
    have hm : s.heldBy t m := (hallowed m).mpr rfl
    have hnone : ∀ m', ¬(m' ≠ m ∧ s.heldBy t m') := fun m' h' => h'.1 ((hallowed m').mp h'.2)
    split
    · split
      · exact ⟨hm, hnone, hrest⟩
      · exact ⟨trivial, trivial, hm, hnone, hrest⟩
    · exact ⟨hm, hnone, hrest⟩
  | clearLocked m =>
    obtain rfl := Option.some.inj hact
    simp only [LinkState.clearLocked]
    split
    · exact ⟨trivial, trivial, hallowed, hrest⟩
    · exact ⟨hallowed, hrest⟩
  | teardown l =>
    obtain rfl := Option.some.inj hact
    simp only [LinkState.teardown]
    split
    · rename_i m hl
      have hm : ¬s.heldBy t m := hgood m hl
      refine ⟨hm, trivial, .inl rfl, hrest.congr fun m' => ?_⟩
      by_cases hmm : m' = m
      · simp [lockDiscipline, LinkAct.after, hmm, hm]
      · simp [lockDiscipline, LinkAct.after, hmm]
    · exact hrest
  | forgetLocked m =>
    obtain rfl := Option.some.inj hact
    exact hrest
  | closedLocked m l =>
    obtain rfl := Option.some.inj hact
    exact hrest
  | storeLocked m l peer =>
    obtain rfl := Option.some.inj hact
    exact hrest
  | establish m peer next =>
    simp only [linkAct] at hact
    split at hact <;> obtain rfl := Option.some.inj hact
    · exact ⟨hallowed, hrest⟩
    · exact next.selfContained_failed.disciplined hallowed hrest
  | awaitActive m l peer next =>
    obtain rfl := Option.some.inj hact
    dsimp only
    have hnone : ∀ m', ¬(m' ≠ m ∧ (m' = m ∨ s.heldBy t m')) := by
      rintro m' ⟨hne, rfl | h'⟩
      · exact hne rfl
      · exact hallowed m' h'
    split
    · refine ⟨hallowed m, trivial, .inl rfl, hnone, hrest.congr fun m' => ?_⟩
      exact iff_of_false (hallowed m') (hnone m')
    · split
      · exact ⟨trivial, next.selfContained_failed.disciplined hallowed hrest⟩
      · exact ⟨hallowed, hrest⟩
  | transfer next =>
    obtain rfl := Option.some.inj hact
    cases next with
    | done => cases x.transferred <;> exact hrest
    | retry nodes =>
      have hnext : SelfContained [.attempt nodes] := .single (fun _ h => h) rfl
      cases x.transferred with
      | false => exact ((selfContained_clearLink _).append hnext).disciplined hallowed hrest
      | true => exact hrest
  | attempt nodes =>
    cases nodes with
    | nil =>
      obtain rfl := Option.some.inj hact
      exact hrest
    | cons node nodes =>
      obtain rfl := Option.some.inj hact
      have hnext : SelfContained [.establish .propagation node (.retry nodes)] :=
        .single (fun _ h => h) rfl
      dsimp only
      split
      · exact ((selfContained_clearLink _).append hnext).disciplined hallowed hrest
      · exact hrest

/-! ## Runs -/

/-- Every thread keeps the lock discipline, and mutexes are held by threads. -/
structure LinkInv (c : Threads.Config LinkState LinkAct) : Prop where
  disciplined : Each (fun s t as => Disciplined (s.heldBy t) as) c
  holders : ∀ m t, c.shared.holder m = some t → t < c.threads.length

theorem LinkInv.not_selfDeadlock {c : Threads.Config LinkState LinkAct} (h : LinkInv c) :
    ¬SelfDeadlock c := by
  rintro ⟨t, m, rest, hthread, hheld⟩
  exact (h.disciplined t _ hthread).1 hheld

theorem linkInit_inv : LinkInv linkInit :=
  ⟨fun i t ht => by simp [linkInit] at ht, fun m t ht => by simp [linkInit] at ht⟩

/-- The event is good unless its thread tears down an active link while it holds
the mutex of that link's cache. -/
def GoodLinkEvent (c : Threads.Config LinkState LinkAct) : Event LinkChoice LinkEvent → Prop
  | .run t _ => ∀ a rest, c.threads[t]? = some (a :: rest) → GoodAct t c.shared a
  | .env _ => True

theorem LinkInv.run {c : Threads.Config LinkState LinkAct} (h : LinkInv c) {t : Nat} {x : LinkChoice}
    {a : LinkAct} {rest : List LinkAct} {r : Effect LinkState LinkAct}
    (hthread : c.threads[t]? = some (a :: rest)) (hact : linkAct t x c.shared a = some r)
    (hspawn : r.spawn = []) (hgood : GoodAct t c.shared a) :
    LinkInv ⟨r.shared, c.threads.set t (r.push ++ rest) ++ r.spawn⟩ := by
  have hself := h.disciplined t _ hthread
  have ht : t < c.threads.length := (List.getElem?_eq_some_iff.mp hthread).1
  have hlength : (c.threads.set t (r.push ++ rest) ++ r.spawn).length = c.threads.length := by
    simp [hspawn]
  rcases linkAct_holder hact with ⟨m, rfl, hfree, rfl⟩ | ⟨m, rfl, rfl⟩ | ⟨hne, hholder⟩
  · refine ⟨h.disciplined.run hthread (hself.2.congr fun _ => heldBy_lock.symm) ?_ (by simp), ?_⟩
    · intro j as hj has
      refine has.congr fun m' => ?_
      by_cases hm : m' = m <;>
        simp [LinkState.heldBy, hm, hfree, Ne.symm hj]
    · intro m' j hj
      by_cases hm : m' = m
      · obtain rfl : t = j := by simpa [hm] using hj
        simpa using ht
      · simpa using h.holders m' j (by simpa [Function.update_apply, hm] using hj)
  · have hheld : c.shared.holder m = some t := hself.1
    refine ⟨h.disciplined.run hthread (hself.2.congr fun _ => heldBy_unlock.symm) ?_ (by simp), ?_⟩
    · intro j as hj has
      refine has.congr fun m' => ?_
      by_cases hm : m' = m <;>
        simp [LinkState.heldBy, hm, hheld, Ne.symm hj]
    · intro m' j hj
      by_cases hm : m' = m
      · simp [hm] at hj
      · simpa using h.holders m' j (by simpa [Function.update_apply, hm] using hj)
  · have hheldBy (j : Nat) : r.shared.heldBy j = c.shared.heldBy j := by
      unfold LinkState.heldBy
      rw [hholder]
    refine ⟨h.disciplined.run hthread ?_ ?_ (by simp [hspawn]), ?_⟩
    · rw [hheldBy]
      exact linkAct_push hact hne hgood hself
    · intro j as _ has
      rwa [hheldBy]
    · intro m j hj
      rw [hlength]
      exact h.holders m j (hholder ▸ hj)

theorem LinkInv.env {c : Threads.Config LinkState LinkAct} (h : LinkInv c) {e : LinkEvent}
    {r : Effect LinkState LinkAct} (henv : linkEnv c.shared e = some r) :
    LinkInv ⟨r.shared, c.threads ++ r.spawn⟩ := by
  have hfresh (j : Nat) (hj : c.threads.length ≤ j) (m : Cache) : ¬c.shared.heldBy j m :=
    fun hm => absurd (h.holders m j hm) (by omega)
  obtain ⟨hholder, hspawn⟩ : r.shared.holder = c.shared.holder ∧
      ∀ as ∈ r.spawn, SelfContained as := by
    cases e with
    | calls cs =>
      obtain rfl := Option.some.inj henv
      refine ⟨rfl, fun as has => ?_⟩
      obtain rfl := List.mem_singleton.mp has
      exact selfContained_calls cs
    | activate l =>
      obtain rfl := Option.some.inj henv
      exact ⟨rfl, by simp⟩
    | goStale l =>
      obtain rfl := Option.some.inj henv
      exact ⟨rfl, by simp⟩
    | remoteClose l =>
      obtain ⟨k, -, rfl⟩ := Option.map_eq_some_iff.mp henv
      refine ⟨rfl, fun as has => ?_⟩
      obtain rfl := List.mem_singleton.mp has
      exact selfContained_closedCallback k.cache l
  have hheldBy (j : Nat) : r.shared.heldBy j = c.shared.heldBy j := by
    unfold LinkState.heldBy
    rw [hholder]
  refine ⟨h.disciplined.env (fun j as has => by rwa [hheldBy]) fun as has j hj => ?_, ?_⟩
  · rw [hheldBy, ← List.append_nil as]
    exact (hspawn as has).disciplined (hfresh j hj) trivial
  · intro m j hj
    have := h.holders m j (hholder ▸ hj)
    simp only [List.length_append]
    omega

theorem linkAct_spawn {t : Nat} {x : LinkChoice} {s : LinkState} {a : LinkAct}
    {r : Effect LinkState LinkAct} (h : linkAct t x s a = some r) : r.spawn = [] := by
  unfold linkAct at h
  split at h <;> try split at h
  all_goals first | cases h; rfl | cases h
  rw [LinkState.teardown]
  split <;> rfl

/-- A good step keeps the invariant. -/
theorem LinkInv.step {c c' : Threads.Config LinkState LinkAct} {e : Event LinkChoice LinkEvent}
    (h : LinkInv c) (hstep : linkProgram.step c e = some c') (hgood : GoodLinkEvent c e) :
    LinkInv c' := by
  cases Program.steps_of_step hstep with
  | run hthread hact => exact h.run hthread hact (linkAct_spawn hact) (hgood _ _ hthread)
  | env henv => exact h.env henv

/-- A step that is not good leaves its thread waiting for itself. -/
theorem selfDeadlock_of_not_good {c c' : Threads.Config LinkState LinkAct}
    {e : Event LinkChoice LinkEvent} (hstep : linkProgram.step c e = some c')
    (hbad : ¬GoodLinkEvent c e) : SelfDeadlock c' := by
  cases Program.steps_of_step hstep with
  | env henv => exact absurd trivial hbad
  | @run t x a rest r hthread hact =>
    have ht : t < c.threads.length := (List.getElem?_eq_some_iff.mp hthread).1
    have hact' : ¬GoodAct t c.shared a := by
      intro hgood
      refine hbad fun a' rest' h' => ?_
      obtain ⟨rfl, -⟩ := List.cons.inj (Option.some.inj (hthread.symm.trans h'))
      exact hgood
    cases a with
    | teardown l =>
      simp only [GoodAct, not_forall, not_not] at hact'
      obtain ⟨m, hl, hheld⟩ := hact'
      obtain rfl := Option.some.inj hact
      refine ⟨t, m, [.closedLocked m l, .unlock m] ++ rest, ?_, ?_⟩
      · simp [LinkState.teardown, hl, closedCallback, ht]
      · simp only [LinkState.teardown, hl]
        exact hheld
    | _ => exact absurd trivial hact'

/-- Whatever calls are made and whatever happens to the links: no thread comes
to lock a mutex it holds exactly as long as no thread tears down an active link
while it holds the mutex of that link's cache. -/
theorem no_self_deadlock_iff (es : List (Event LinkChoice LinkEvent)) :
    Transition.AllStates linkProgram.step (fun c => ¬SelfDeadlock c) linkInit es ↔
      Transition.AllSteps linkProgram.step GoodLinkEvent linkInit es := by
  have hbase : ∀ {c e c'}, LinkInv c → ¬SelfDeadlock c → linkProgram.step c e = some c' →
      GoodLinkEvent c e → LinkInv c' := fun h _ hstep hgood => h.step hstep hgood
  have hiff : ∀ {c e c'}, LinkInv c → ¬SelfDeadlock c → linkProgram.step c e = some c' →
      (¬SelfDeadlock c' ↔ GoodLinkEvent c e) := by
    intro c e c' h _ hstep
    constructor
    · intro hnot
      by_contra hbad
      exact hnot (selfDeadlock_of_not_good hstep hbad)
    · intro hgood
      exact (h.step hstep hgood).not_selfDeadlock
  exact Transition.allStates_iff_allSteps hbase hiff linkInit_inv linkInit_inv.not_selfDeadlock

/-- Two direct sends to two peers, the first of which leaves an active link. -/
def peerSwitch : List (Event LinkChoice LinkEvent) :=
  let run := Event.run 0 ⟨true, true, false, true⟩
  [.env (.calls [.sendDirect (List.replicate 16 1), .sendDirect (List.replicate 16 2)]),
    -- the first send establishes and stores a link
    run, run, run, run, run, .env (.activate 0), run, run, run, run, run,
    -- the second finds it cached, and tears it down
    run, run, run, run]

/-- The second of the two sends waits for itself. -/
theorem peer_switch_self_deadlocks :
    ∃ c, Transition.run linkProgram.step linkInit peerSwitch = some c ∧ SelfDeadlock c := by
  have hrun : (Transition.run linkProgram.step linkInit peerSwitch).map
      (fun c => ((c.threads[0]?).bind List.head?, c.shared.holder .delivery)) =
      some (some (.lock .delivery), some 0) := by decide +kernel
  obtain ⟨c, hc, hstate⟩ := Option.map_eq_some_iff.mp hrun
  obtain ⟨hhead, hholder⟩ := Prod.mk.inj hstate
  obtain ⟨t, ht, hhead⟩ := Option.bind_eq_some_iff.mp hhead
  obtain ⟨rest, rfl⟩ := List.head?_eq_some_iff.mp hhead
  exact ⟨c, hc, 0, .delivery, rest, ht, hholder⟩

end Lxmf
