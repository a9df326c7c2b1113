-- SUMMARY: Concurrent calls of ensureDeliveryLink, and when a live link is lost from the cache.
import ReticulumMf.Lib.Threads
import ReticulumMf.Lxmf.Message

/-!
# The delivery link

`ensureDeliveryLink` looks for a cached link in one critical section, establishes a new one
without the mutex, and stores it in another. Two calls may both find no link and both
establish one; the second store then drops the first link, which stays open. A link may
also be closed before it is stored; its closed callback then finds nothing to clear.
`Link.Teardown` does nothing to a link that is not active, so a link that has gone stale,
or that becomes active after the call has given up, is dropped and stays open, too.

Here each critical section is one step. One of them does not end: dropping an active link
runs its closed callback, which waits for the mutex that is held.
-/

namespace Lxmf

open Transition Threads

/-! ## Links -/

/-- A link that has been requested is pending, during the handshake as well. An active link
that hears nothing for a while is stale. -/
inductive LinkStatus where
  | pending | active | stale | closed
  deriving DecidableEq, Repr

/-- A link made by `establishDeliveryLink`. -/
structure DeliveryLink where
  peer : Bytes
  status : LinkStatus
  deriving DecidableEq, Repr

namespace DeliveryLink

/-- The link has become active, and has neither been closed nor torn down since. -/
def Live (k : DeliveryLink) : Prop := k.status = .active ∨ k.status = .stale

instance instDecidableLive (k : DeliveryLink) : Decidable k.Live := inferInstanceAs (Decidable (_ ∨ _))

/-- `Link.Teardown` closes active links only. -/
def teardown (k : DeliveryLink) : DeliveryLink :=
  { k with status := if k.status = .active then .closed else k.status }

/-- The proof of the link arrives. -/
def activate (k : DeliveryLink) : DeliveryLink :=
  { k with status := if k.status = .pending then .active else k.status }

/-- The watchdog finds the link silent. -/
def goStale (k : DeliveryLink) : DeliveryLink :=
  { k with status := if k.status = .active then .stale else k.status }

/-- `HandleInbound` on a stale link. -/
def revive (k : DeliveryLink) : DeliveryLink :=
  { k with status := if k.status = .stale then .active else k.status }

def close (k : DeliveryLink) : DeliveryLink := { k with status := .closed }

end DeliveryLink

/-- All links by number, the cached one with its peer, and whether `deliveryLinkMu` is held
by a call that waits for it. -/
structure DeliveryState where
  deliveryLink : Option Nat
  deliveryLinkPeer : Option Bytes
  links : List DeliveryLink
  held : Bool

namespace DeliveryState

def isActive (s : DeliveryState) (l : Nat) : Bool := (s.links[l]?).any (·.status = .active)

def isStale (s : DeliveryState) (l : Nat) : Bool := (s.links[l]?).any (·.status = .stale)

def isLive (s : DeliveryState) (l : Nat) : Bool := (s.links[l]?).any fun k => decide k.Live

def change (s : DeliveryState) (l : Nat) (f : DeliveryLink → DeliveryLink) : DeliveryState :=
  { s with links := s.links.modify l f }

def forget (s : DeliveryState) : DeliveryState := { s with deliveryLink := none, deliveryLinkPeer := none }

end DeliveryState

/-! ## Steps -/

inductive DeliveryAct where
  | ensureDeliveryLink (peer : Bytes)
  | establishDeliveryLink (peer : Bytes)
  | awaitActive (l : Nat) (peer : Bytes)
  | teardown (l : Nat)
  | storeLink (l : Nat) (peer : Bytes)
  | closedCallback (l : Nat)
  deriving DecidableEq, Repr

/-- Whether the link request goes out, and whether the wait for the link has timed out. -/
structure DeliveryChoice where
  requested : Bool
  timedOut : Bool
  deriving DecidableEq, Repr

/-- The closed callback is called if the link was active. -/
def DeliveryState.teardown (s : DeliveryState) (l : Nat) : Effect DeliveryState DeliveryAct where
  shared := s.change l DeliveryLink.teardown
  push := if s.isActive l then [.closedCallback l] else []

/-- `ensureDeliveryLink` up to the end of its critical section. The mutex stays held when
the closed callback of the cached link is called. -/
def DeliveryState.ensureDeliveryLink (s : DeliveryState) (peer : Bytes) :
    Option (Effect DeliveryState DeliveryAct) :=
  if peer.length ≠ destinationLength then some { shared := s }
  else if s.held then none
  else
    match s.deliveryLink with
    | none => some { shared := s, push := [.establishDeliveryLink peer] }
    | some l =>
      if s.isActive l ∧ s.deliveryLinkPeer = some peer then some { shared := s }
      else if s.isActive l then
        some {
          shared := { (s.teardown l).shared with held := true }
          push := (s.teardown l).push ++ [.establishDeliveryLink peer] }
      else some { shared := (s.teardown l).shared.forget, push := [.establishDeliveryLink peer] }

def deliveryAct (_ : Nat) (x : DeliveryChoice) (s : DeliveryState) :
    DeliveryAct → Option (Effect DeliveryState DeliveryAct)
  | .ensureDeliveryLink peer => s.ensureDeliveryLink peer
  | .establishDeliveryLink peer =>
    if x.requested then
      some {
        shared := { s with links := s.links ++ [⟨peer, .pending⟩] }
        push := [.awaitActive s.links.length peer] }
    else some { shared := s }
  | .awaitActive l peer =>
    some { shared := s, push :=
      if s.isActive l then [.storeLink l peer]
      else if x.timedOut then [.teardown l]
      else [.awaitActive l peer] }
  | .teardown l => some (s.teardown l)
  | .storeLink l peer =>
    if s.held then none
    else some { shared := { s with deliveryLink := some l, deliveryLinkPeer := some peer } }
  | .closedCallback l =>
    if s.held then none else some { shared := if s.deliveryLink = some l then s.forget else s }

/-- A call is made, a link changes its status, or it is closed by its remote side or its
watchdog, which runs the closed callback on a thread of its own. -/
inductive DeliveryEvent where
  | call (peer : Bytes)
  | activate (l : Nat)
  | goStale (l : Nat)
  | revive (l : Nat)
  | close (l : Nat)
  deriving DecidableEq, Repr

def deliveryEnv (s : DeliveryState) : DeliveryEvent → Option (Effect DeliveryState DeliveryAct)
  | .call peer => some { shared := s, spawn := [[.ensureDeliveryLink peer]] }
  | .activate l => some { shared := s.change l DeliveryLink.activate }
  | .goStale l => some { shared := s.change l DeliveryLink.goStale }
  | .revive l => some { shared := s.change l DeliveryLink.revive }
  | .close l =>
    if (s.links[l]?).any (·.status ≠ .closed) then
      some { shared := s.change l DeliveryLink.close, spawn := [[.closedCallback l]] }
    else none

def deliveryProgram : Program DeliveryState DeliveryAct DeliveryChoice DeliveryEvent := ⟨deliveryAct, deliveryEnv⟩

def deliveryInit : Threads.Config DeliveryState DeliveryAct := ⟨⟨none, none, [], false⟩, []⟩

/-- Every live link is the cached one, and nothing is cached without one. -/
structure NoneOrphaned (s : DeliveryState) : Prop where
  cached : ∀ (l : Nat) (k : DeliveryLink), s.links[l]? = some k → k.Live →
    s.deliveryLink = some l ∧ s.deliveryLinkPeer = some k.peer
  empty : (∀ (l : Nat) (k : DeliveryLink), s.links[l]? = some k → ¬k.Live) → s.deliveryLink = none ∧ s.deliveryLinkPeer = none

def DeliveryAct.awaits (l : Nat) : DeliveryAct → Bool
  | .awaitActive l' _ => l' = l
  | _ => false

/-- A link is stored only as long as it is live, and in the place of no live link. It
becomes active while its call waits for it. And no stale link is dropped, neither from the
cache nor by the call that made it. -/
def GoodStep (c : Threads.Config DeliveryState DeliveryAct) : Event DeliveryChoice DeliveryEvent → Prop
  | .run t _ =>
    match c.next t with
    | some (.storeLink l _) =>
      c.shared.isLive l = true ∧ c.shared.deliveryLink.any c.shared.isLive = false
    | some (.ensureDeliveryLink _) => c.shared.deliveryLink.any c.shared.isStale = false
    | some (.teardown l) => c.shared.isStale l = false
    | _ => True
  | .env (.activate l) => 0 < pending (DeliveryAct.awaits l) c
  | .env _ => True

instance instDecidableGoodStep (c : Threads.Config DeliveryState DeliveryAct)
    (e : Event DeliveryChoice DeliveryEvent) : Decidable (GoodStep c e) := by
  unfold GoodStep
  split
  · split <;> infer_instance
  · infer_instance
  · infer_instance

/-! ## The invariant -/

/-- The action belongs to the call that established the link. -/
def DeliveryAct.owns (l : Nat) : DeliveryAct → Bool
  | .awaitActive l' _ | .teardown l' | .storeLink l' _ => l' = l
  | _ => false

def DeliveryAct.isCallback (l : Nat) : DeliveryAct → Bool
  | .closedCallback l' => l' = l
  | _ => false

/-- What the pending actions know about the links. -/
def DeliveryAct.Ok (links : List DeliveryLink) : DeliveryAct → Prop
  | .awaitActive l peer | .storeLink l peer => ∃ k, links[l]? = some k ∧ k.peer = peer
  | .teardown l => l < links.length
  | .closedCallback l => ∃ k, links[l]? = some k ∧ k.status = .closed
  | _ => True

/-- A link with the number of its pending owners and callbacks. A stored link has no owner
any more, and its callback is on the way if it is closed. -/
structure LinkOk (k : DeliveryLink) (isStored : Prop) (owners callbacks : Nat) : Prop where
  owned : owners ≤ 1
  unowned : isStored → owners = 0
  stored : isStored → k.Live ∨ k.status = .closed ∧ 0 < callbacks
  kept : k.Live → isStored ∨ 0 < owners

structure DeliveryInv (c : Threads.Config DeliveryState DeliveryAct) : Prop where
  acts : Each (fun s _ t => ∀ a ∈ t, a.Ok s.links) c
  links : ∀ (l : Nat) (k : DeliveryLink), c.shared.links[l]? = some k →
    LinkOk k (c.shared.deliveryLink = some l) (pending (DeliveryAct.owns l) c)
      (pending (DeliveryAct.isCallback l) c)
  fresh : ∀ l, c.shared.links.length ≤ l → pending (DeliveryAct.owns l) c = 0
  peer : ∀ l, c.shared.deliveryLink = some l →
    ∃ k, c.shared.links[l]? = some k ∧ c.shared.deliveryLinkPeer = some k.peer
  empty : c.shared.deliveryLink = none → c.shared.deliveryLinkPeer = none

theorem deliveryInit_inv : DeliveryInv deliveryInit where
  acts := fun i t ht => by cases ht
  links := fun l k hk => by cases hk
  fresh := fun _ _ => rfl
  peer := fun l hl => by cases hl
  empty := fun _ => rfl

theorem DeliveryInv.noneOrphaned {c : Threads.Config DeliveryState DeliveryAct} (h : DeliveryInv c) (hq : Quiescent c) :
    NoneOrphaned c.shared := by
  have hzero := hq.pending_eq_zero
  constructor
  · intro l k hk hlive
    have hstored : c.shared.deliveryLink = some l := by
      rcases (h.links l k hk).kept hlive with hstored | howned
      · exact hstored
      · exact absurd howned (by simp [hzero])
    obtain ⟨k', hk', hpeer⟩ := h.peer l hstored
    obtain rfl : k = k' := Option.some.inj (hk.symm.trans hk')
    exact ⟨hstored, hpeer⟩
  · intro hnone
    have hcached : c.shared.deliveryLink = none := by
      by_contra hne
      obtain ⟨l, hl⟩ := Option.ne_none_iff_exists'.mp hne
      obtain ⟨k, hk, -⟩ := h.peer l hl
      rcases (h.links l k hk).stored hl with hlive | ⟨-, hcallback⟩
      · exact hnone l k hk hlive
      · exact absurd hcallback (by simp [hzero])
    exact ⟨hcached, h.empty hcached⟩

/-! ## A call that waits for itself -/

/-- The mutex is held, and a thread that waits for it is never done. -/
def Jammed (c : Threads.Config DeliveryState DeliveryAct) : Prop :=
  c.shared.held = true ∧
    ∃ (t l : Nat) (rest : List DeliveryAct), c.threads[t]? = some (.closedCallback l :: rest)

theorem Jammed.not_quiescent {c : Threads.Config DeliveryState DeliveryAct} (h : Jammed c) : ¬Quiescent c := by
  intro hq
  obtain ⟨-, t, l, rest, ht⟩ := h
  cases hq _ (List.mem_of_getElem? ht)

theorem ensureDeliveryLink_held {s : DeliveryState} {peer : Bytes} {r : Effect DeliveryState DeliveryAct}
    (h : s.ensureDeliveryLink peer = some r) (hheld : s.held = true) : r = { shared := s } := by
  rw [DeliveryState.ensureDeliveryLink, if_pos hheld] at h
  split at h
  · exact (Option.some.inj h).symm
  · cases h

/-- Nobody gives the mutex back. -/
theorem deliveryAct_held {t : Nat} {x : DeliveryChoice} {s : DeliveryState} {a : DeliveryAct}
    {r : Effect DeliveryState DeliveryAct} (h : deliveryAct t x s a = some r) (hheld : s.held = true) :
    r.shared.held = true ∧ ∀ l, a ≠ .closedCallback l := by
  cases a with
  | ensureDeliveryLink peer =>
    rw [ensureDeliveryLink_held h hheld]
    exact ⟨hheld, nofun⟩
  | establishDeliveryLink peer =>
    simp only [deliveryAct] at h
    split at h <;> cases h <;> exact ⟨hheld, nofun⟩
  | awaitActive l peer =>
    cases h
    exact ⟨hheld, nofun⟩
  | teardown l =>
    cases h
    exact ⟨hheld, nofun⟩
  | storeLink l peer =>
    rw [deliveryAct, if_pos hheld] at h
    cases h
  | closedCallback l =>
    rw [deliveryAct, if_pos hheld] at h
    cases h

theorem deliveryEnv_held {s : DeliveryState} {e : DeliveryEvent} {r : Effect DeliveryState DeliveryAct}
    (h : deliveryEnv s e = some r) : r.shared.held = s.held := by
  cases e with
  | close l =>
    simp only [deliveryEnv] at h
    split at h <;> cases h
    rfl
  | _ =>
    cases h
    rfl

theorem Jammed.step {c c' : Threads.Config DeliveryState DeliveryAct} {e : Event DeliveryChoice DeliveryEvent}
    (h : Jammed c) (hstep : deliveryProgram.step c e = some c') : Jammed c' := by
  obtain ⟨hheld, t, l, rest, ht⟩ := h
  cases Program.steps_of_step hstep with
  | @run i x a rest' r hthread hact =>
    obtain ⟨hheld', hne⟩ := deliveryAct_held (t := i) hact hheld
    refine ⟨hheld', t, l, rest, ?_⟩
    by_cases hti : t = i
    · subst hti
      cases ht.symm.trans hthread
      exact absurd rfl (hne l)
    · exact thread_other hti ht
  | env henv =>
    refine ⟨(deliveryEnv_held henv).trans hheld, t, l, rest, ?_⟩
    rw [List.getElem?_append_left (List.getElem?_eq_some_iff.mp ht).1]
    exact ht

/-! ## Changes of a link -/

/-- Links are added, keep their peers, and stay closed. -/
def LinksGrow (links links' : List DeliveryLink) : Prop :=
  ∀ (l : Nat) (k : DeliveryLink), links[l]? = some k →
    ∃ k', links'[l]? = some k' ∧ k'.peer = k.peer ∧ (k.status = .closed → k'.status = .closed)

theorem LinksGrow.refl (links : List DeliveryLink) : LinksGrow links links :=
  fun _ k hk => ⟨k, hk, rfl, id⟩

theorem LinksGrow.concat (links : List DeliveryLink) (k : DeliveryLink) : LinksGrow links (links ++ [k]) := by
  intro l k' hk'
  have hl := (List.getElem?_eq_some_iff.mp hk').1
  exact ⟨k', by rw [List.getElem?_append_left hl, hk'], rfl, id⟩

theorem DeliveryAct.Ok.mono {links links' : List DeliveryLink} (hgrow : LinksGrow links links')
    {a : DeliveryAct} (h : a.Ok links) : a.Ok links' := by
  cases a with
  | ensureDeliveryLink peer => trivial
  | establishDeliveryLink peer => trivial
  | awaitActive l peer =>
    obtain ⟨k, hk, hpeer⟩ := h
    obtain ⟨k', hk', hpeer', -⟩ := hgrow l k hk
    exact ⟨k', hk', hpeer'.trans hpeer⟩
  | teardown l =>
    obtain ⟨k', hk', -⟩ := hgrow l _ (List.getElem?_eq_getElem h)
    exact (List.getElem?_eq_some_iff.mp hk').1
  | storeLink l peer =>
    obtain ⟨k, hk, hpeer⟩ := h
    obtain ⟨k', hk', hpeer', -⟩ := hgrow l k hk
    exact ⟨k', hk', hpeer'.trans hpeer⟩
  | closedCallback l =>
    obtain ⟨k, hk, hclosed⟩ := h
    obtain ⟨k', hk', -, hclosed'⟩ := hgrow l k hk
    exact ⟨k', hk', hclosed' hclosed⟩

/-- A change of a link that keeps its peer and does not reopen it. -/
structure KeepsLink (f : DeliveryLink → DeliveryLink) : Prop where
  peer : ∀ k, (f k).peer = k.peer
  closed : ∀ k, k.status = .closed → (f k).status = .closed

theorem keepsLink_teardown : KeepsLink DeliveryLink.teardown :=
  ⟨fun _ => rfl, fun k hk => by simp [DeliveryLink.teardown, hk]⟩

theorem keepsLink_activate : KeepsLink DeliveryLink.activate :=
  ⟨fun _ => rfl, fun k hk => by simp [DeliveryLink.activate, hk]⟩

theorem keepsLink_goStale : KeepsLink DeliveryLink.goStale :=
  ⟨fun _ => rfl, fun k hk => by simp [DeliveryLink.goStale, hk]⟩

theorem keepsLink_revive : KeepsLink DeliveryLink.revive :=
  ⟨fun _ => rfl, fun k hk => by simp [DeliveryLink.revive, hk]⟩

theorem keepsLink_close : KeepsLink DeliveryLink.close := ⟨fun _ => rfl, fun _ _ => rfl⟩

theorem change_getElem? {s : DeliveryState} {l l' : Nat} {f : DeliveryLink → DeliveryLink} {k : DeliveryLink}
    (h : (s.change l f).links[l']? = some k) :
    ∃ k₀, s.links[l']? = some k₀ ∧ (l = l' ∧ k = f k₀ ∨ l ≠ l' ∧ k = k₀) := by
  rw [DeliveryState.change, List.getElem?_modify, Option.map_eq_map, Option.map_eq_some_iff] at h
  obtain ⟨k₀, hk₀, hk⟩ := h
  refine ⟨k₀, hk₀, ?_⟩
  split at hk
  · exact .inl ⟨‹_›, hk.symm⟩
  · exact .inr ⟨‹_›, hk.symm⟩

theorem LinksGrow.change (s : DeliveryState) (l : Nat) {f : DeliveryLink → DeliveryLink} (hf : KeepsLink f) :
    LinksGrow s.links (s.change l f).links := by
  intro l' k hk
  refine ⟨if l = l' then f k else k, ?_, ?_, ?_⟩
  · rw [DeliveryState.change, List.getElem?_modify, hk]
    rfl
  · split
    · exact hf.peer k
    · rfl
  · intro hclosed
    split
    · exact hf.closed k hclosed
    · exact hclosed

/-! ## Each step -/

section

variable {c : Threads.Config DeliveryState DeliveryAct} {i : Nat} {rest : List DeliveryAct}

/-- The configuration after an action that starts no thread. -/
abbrev afterAct (c : Threads.Config DeliveryState DeliveryAct) (i : Nat) (rest : List DeliveryAct)
    (r : Effect DeliveryState DeliveryAct) : Threads.Config DeliveryState DeliveryAct :=
  ⟨r.shared, c.threads.set i (r.push ++ rest) ++ r.spawn⟩

theorem acts_run {a : DeliveryAct} {r : Effect DeliveryState DeliveryAct} (h : DeliveryInv c)
    (hthread : c.threads[i]? = some (a :: rest)) (hspawn : r.spawn = [])
    (hgrow : LinksGrow c.shared.links r.shared.links) (hpush : ∀ b ∈ r.push, b.Ok r.shared.links) :
    Each (fun s _ t => ∀ a ∈ t, a.Ok s.links) (afterAct c i rest r) := by
  refine Each.forall_run h.acts hthread (fun b hb => hb.mono hgrow) fun b hb => ?_
  rcases hb with hb | ⟨t, ht, -⟩
  · exact hpush b hb
  · rw [hspawn] at ht
    cases ht

/-- How many actions of a kind there are after an action that starts no thread. -/
theorem pending_afterAct {a : DeliveryAct} {r : Effect DeliveryState DeliveryAct} (p : DeliveryAct → Bool)
    (hthread : c.threads[i]? = some (a :: rest)) (hspawn : r.spawn = []) :
    pending p (afterAct c i rest r) + [a].countP p = pending p c + r.push.countP p := by
  rw [pending_run hthread, hspawn]
  rfl

/-- An action that changes nothing shared, and neither ends nor starts what counts. -/
theorem DeliveryInv.quiet (h : DeliveryInv c) {a : DeliveryAct} {push : List DeliveryAct}
    (hthread : c.threads[i]? = some (a :: rest)) (hpush : ∀ b ∈ push, b.Ok c.shared.links)
    (howns : ∀ l, [a].countP (DeliveryAct.owns l) = push.countP (DeliveryAct.owns l))
    (hcallbacks : ∀ l, [a].countP (DeliveryAct.isCallback l) = push.countP (DeliveryAct.isCallback l)) :
    DeliveryInv (afterAct c i rest { shared := c.shared, push := push }) := by
  have heqOwns (l : Nat) : pending (DeliveryAct.owns l) (afterAct c i rest { shared := c.shared, push := push }) =
      pending (DeliveryAct.owns l) c := by
    have hrun := pending_afterAct (r := { shared := c.shared, push := push }) (DeliveryAct.owns l) hthread rfl
    have hcount := howns l
    dsimp only at hrun
    omega
  have heqCallbacks (l : Nat) : pending (DeliveryAct.isCallback l)
      (afterAct c i rest { shared := c.shared, push := push }) = pending (DeliveryAct.isCallback l) c := by
    have hrun := pending_afterAct (r := { shared := c.shared, push := push }) (DeliveryAct.isCallback l) hthread rfl
    have hcount := hcallbacks l
    dsimp only at hrun
    omega
  refine ⟨acts_run h hthread rfl (.refl _) hpush, fun l k hk => ?_, fun l hl => ?_, h.peer, h.empty⟩
  · rw [heqOwns, heqCallbacks]
    exact h.links l k hk
  · rw [heqOwns]
    exact h.fresh l hl

theorem isActive_iff {s : DeliveryState} {l : Nat} :
    s.isActive l = true ↔ ∃ k, s.links[l]? = some k ∧ k.status = .active := by
  cases hk : s.links[l]? <;> simp [DeliveryState.isActive, hk]

theorem isLive_iff {s : DeliveryState} {l : Nat} :
    s.isLive l = true ↔ ∃ k, s.links[l]? = some k ∧ k.Live := by
  cases hk : s.links[l]? <;> simp [DeliveryState.isLive, hk]

theorem isStale_eq_false_iff {s : DeliveryState} {l : Nat} :
    s.isStale l = false ↔ ∀ k, s.links[l]? = some k → k.status ≠ .stale := by
  cases hk : s.links[l]? <;> simp [DeliveryState.isStale, hk]

theorem teardown_push_ok (s : DeliveryState) (l : Nat) :
    ∀ b ∈ (s.teardown l).push, b.Ok (s.change l DeliveryLink.teardown).links := by
  intro b hb
  simp only [DeliveryState.teardown] at hb
  split at hb
  · rename_i hactive
    obtain ⟨k, hk, hstatus⟩ := isActive_iff.mp hactive
    rw [List.mem_singleton.mp hb]
    refine ⟨k.teardown, ?_, by simp [DeliveryLink.teardown, hstatus]⟩
    rw [DeliveryState.change, List.getElem?_modify, hk]
    simp
  · cases hb

theorem teardown_push_owns (s : DeliveryState) (l l' : Nat) :
    (s.teardown l).push.countP (DeliveryAct.owns l') = 0 := by
  simp only [DeliveryState.teardown]
  split <;> simp [DeliveryAct.owns]

theorem not_live_teardown {k : DeliveryLink} (h : k.status ≠ .stale) : ¬k.teardown.Live := by
  by_cases hactive : k.status = .active <;> simp [DeliveryLink.Live, DeliveryLink.teardown, hactive, h]

/-- A link that is not active is dropped from the cache, and a new one is to be
established. -/
theorem DeliveryInv.drop (h : DeliveryInv c) {peer : Bytes} {l₀ : Nat}
    (hthread : c.threads[i]? = some (.ensureDeliveryLink peer :: rest)) (hcached : c.shared.deliveryLink = some l₀)
    (hstale : c.shared.isStale l₀ = false) :
    DeliveryInv (afterAct c i rest
      { shared := (c.shared.teardown l₀).shared.forget, push := [.establishDeliveryLink peer] }) := by
  have howns (l : Nat) := pending_afterAct
    (r := { shared := (c.shared.teardown l₀).shared.forget, push := [.establishDeliveryLink peer] })
    (DeliveryAct.owns l) hthread rfl
  simp only [List.countP_singleton, DeliveryAct.owns, Bool.false_eq_true, if_false, Nat.add_zero] at howns
  refine ⟨acts_run h hthread rfl (LinksGrow.change _ l₀ keepsLink_teardown) ?_, ?_, ?_, nofun, fun _ => rfl⟩
  · intro b hb
    rw [List.mem_singleton.mp hb]
    trivial
  · intro l k hk
    obtain ⟨k₀, hk₀, hchange⟩ := change_getElem? hk
    have hok := h.links l k₀ hk₀
    refine ⟨howns l ▸ hok.owned, nofun, nofun, fun hlive => .inr ?_⟩
    rcases hchange with ⟨rfl, rfl⟩ | ⟨hne, rfl⟩
    · -- only a stale link survives its teardown
      exact absurd hlive (not_live_teardown (isStale_eq_false_iff.mp hstale k₀ hk₀))
    · rw [howns l]
      refine (hok.kept hlive).resolve_left fun hstored => hne ?_
      exact Option.some.inj (hcached.symm.trans hstored)
  · intro l hl
    rw [howns l]
    refine h.fresh l ?_
    simpa [DeliveryState.teardown, DeliveryState.forget, DeliveryState.change] using hl

/-- The critical section ends as long as the cached link is not one to another peer that is
still active. -/
theorem DeliveryInv.ensure (h : DeliveryInv c) {peer : Bytes} {r : Effect DeliveryState DeliveryAct}
    (hthread : c.threads[i]? = some (.ensureDeliveryLink peer :: rest))
    (hstale : c.shared.deliveryLink.any c.shared.isStale = false)
    (hensure : c.shared.ensureDeliveryLink peer = some r) :
    DeliveryInv (afterAct c i rest r) ∨ Jammed (afterAct c i rest r) := by
  have hnone : DeliveryInv (afterAct c i rest { shared := c.shared }) :=
    h.quiet hthread (fun b hb => absurd hb List.not_mem_nil) (fun _ => rfl) fun _ => rfl
  unfold DeliveryState.ensureDeliveryLink at hensure
  split at hensure
  · cases hensure
    exact .inl hnone
  · split at hensure
    · cases hensure
    · split at hensure
      · -- nothing is cached
        cases hensure
        refine .inl (h.quiet hthread (fun b hb => ?_) (fun _ => rfl) fun _ => rfl)
        rw [List.mem_singleton.mp hb]
        trivial
      · rename_i l₀ hcached
        rw [hcached, Option.any_some] at hstale
        split at hensure
        · -- the cached link will do
          cases hensure
          exact .inl hnone
        · split at hensure
          · -- an active link is dropped: its callback waits for the end of this section
            rename_i hactive
            cases hensure
            refine .inr ⟨rfl, i, l₀, .establishDeliveryLink peer :: rest, ?_⟩
            have hlt := (List.getElem?_eq_some_iff.mp hthread).1
            simp [DeliveryState.teardown, hactive, hlt]
          · cases hensure
            exact .inl (h.drop hthread hcached hstale)

theorem DeliveryInv.establish (h : DeliveryInv c) {peer : Bytes}
    (hthread : c.threads[i]? = some (.establishDeliveryLink peer :: rest)) :
    DeliveryInv (afterAct c i rest
      { shared := { c.shared with links := c.shared.links ++ [⟨peer, .pending⟩] }
        push := [.awaitActive c.shared.links.length peer] }) := by
  have howns (l : Nat) := pending_afterAct
    (r := { shared := { c.shared with links := c.shared.links ++ [⟨peer, .pending⟩] }
            push := [.awaitActive c.shared.links.length peer] }) (DeliveryAct.owns l) hthread rfl
  have hcallbacks (l : Nat) := pending_afterAct
    (r := { shared := { c.shared with links := c.shared.links ++ [⟨peer, .pending⟩] }
            push := [.awaitActive c.shared.links.length peer] }) (DeliveryAct.isCallback l) hthread rfl
  simp only [List.countP_singleton, DeliveryAct.owns, DeliveryAct.isCallback, Bool.false_eq_true, if_false,
    Nat.add_zero, decide_eq_true_eq] at howns hcallbacks
  refine ⟨acts_run h hthread rfl (.concat _ _) ?_, ?_, ?_, ?_, h.empty⟩
  · intro b hb
    rw [List.mem_singleton.mp hb]
    exact ⟨_, List.getElem?_concat_length, rfl⟩
  · intro l k hk
    rw [howns l, hcallbacks l]
    by_cases hl : l < c.shared.links.length
    · rw [List.getElem?_append_left hl] at hk
      rw [if_neg (Nat.ne_of_gt hl), Nat.add_zero]
      exact h.links l k hk
    · have heq : l = c.shared.links.length := by
        have hlt := (List.getElem?_eq_some_iff.mp hk).1
        rw [List.length_append, List.length_singleton] at hlt
        omega
      have hfresh := h.fresh l (Nat.not_lt.mp hl)
      have hstored : c.shared.deliveryLink ≠ some l := fun hstored => by
        obtain ⟨k', hk', -⟩ := h.peer l hstored
        exact hl (List.getElem?_eq_some_iff.mp hk').1
      rw [hfresh, if_pos heq.symm]
      exact ⟨Nat.le_refl 1, fun hs => absurd hs hstored, fun hs => absurd hs hstored,
        fun _ => .inr Nat.one_pos⟩
  · intro l hl
    rw [List.length_append, List.length_singleton] at hl
    rw [howns l, if_neg (by omega), Nat.add_zero]
    exact h.fresh l (by omega)
  · intro l hl
    obtain ⟨k, hk, hpeer⟩ := h.peer l hl
    have hlt := (List.getElem?_eq_some_iff.mp hk).1
    exact ⟨k, by rw [List.getElem?_append_left hlt, hk], hpeer⟩

theorem DeliveryInv.await (h : DeliveryInv c) {l₀ : Nat} {peer : Bytes} (x : DeliveryChoice)
    (hthread : c.threads[i]? = some (.awaitActive l₀ peer :: rest)) :
    DeliveryInv (afterAct c i rest
      { shared := c.shared
        push :=
          if c.shared.isActive l₀ then [.storeLink l₀ peer]
          else if x.timedOut then [.teardown l₀]
          else [.awaitActive l₀ peer] }) := by
  have hok : DeliveryAct.Ok c.shared.links (.awaitActive l₀ peer) :=
    h.acts i _ hthread _ List.mem_cons_self
  have hlt : l₀ < c.shared.links.length := by
    obtain ⟨k, hk, -⟩ := hok
    exact (List.getElem?_eq_some_iff.mp hk).1
  refine h.quiet hthread ?_ ?_ ?_
  · intro b hb
    split at hb
    · rw [List.mem_singleton.mp hb]
      exact hok
    · split at hb <;> rw [List.mem_singleton.mp hb]
      · exact hlt
      · exact hok
  · intro l
    split
    · rfl
    · split <;> rfl
  · intro l
    split
    · rfl
    · split <;> rfl

/-- The link of a call is not stored before the call is done with it. -/
theorem DeliveryInv.not_stored (h : DeliveryInv c) {a : DeliveryAct} {l : Nat}
    (hthread : c.threads[i]? = some (a :: rest)) (howns : a.owns l = true) : c.shared.deliveryLink ≠ some l := by
  intro hstored
  obtain ⟨k, hk, -⟩ := h.peer l hstored
  have hpos : 0 < pending (DeliveryAct.owns l) c := pending_pos hthread List.mem_cons_self howns
  have hzero := (h.links l k hk).unowned hstored
  omega

theorem DeliveryInv.teardown (h : DeliveryInv c) {l₀ : Nat}
    (hthread : c.threads[i]? = some (.teardown l₀ :: rest)) (hstale : c.shared.isStale l₀ = false) :
    DeliveryInv (afterAct c i rest (c.shared.teardown l₀)) := by
  have howns (l : Nat) := pending_afterAct (r := c.shared.teardown l₀) (DeliveryAct.owns l) hthread rfl
  have hcallbacks (l : Nat) := pending_afterAct (r := c.shared.teardown l₀) (DeliveryAct.isCallback l) hthread rfl
  simp only [teardown_push_owns, List.countP_singleton, DeliveryAct.owns, DeliveryAct.isCallback,
    Bool.false_eq_true, if_false, Nat.add_zero, decide_eq_true_eq] at howns hcallbacks
  have hnot := h.not_stored (l := l₀) hthread (by simp [DeliveryAct.owns])
  refine ⟨acts_run h hthread rfl (LinksGrow.change _ l₀ keepsLink_teardown) (teardown_push_ok _ l₀), ?_, ?_, ?_,
    h.empty⟩
  · intro l k hk
    obtain ⟨k₀, hk₀, hchange⟩ := change_getElem? hk
    have hok := h.links l k₀ hk₀
    have hcount := howns l
    rcases hchange with ⟨rfl, rfl⟩ | ⟨hne, rfl⟩
    · -- the call was the only owner, and has given the link up
      rw [if_pos rfl] at hcount
      have howned := hok.owned
      exact ⟨by omega, fun hs => absurd hs hnot, fun hs => absurd hs hnot,
        fun hlive => absurd hlive (not_live_teardown (isStale_eq_false_iff.mp hstale k₀ hk₀))⟩
    · rw [if_neg hne, Nat.add_zero] at hcount
      rw [hcount]
      have hle : pending (DeliveryAct.isCallback l) c ≤
          pending (DeliveryAct.isCallback l) (afterAct c i rest (c.shared.teardown l₀)) := by
        have hcb := hcallbacks l
        omega
      refine ⟨hok.owned, hok.unowned, fun hs => ?_, hok.kept⟩
      exact (hok.stored hs).imp_right fun ⟨hclosed, hpos⟩ => ⟨hclosed, Nat.lt_of_lt_of_le hpos hle⟩
  · intro l hl
    have hcount := howns l
    have hfresh := h.fresh l (by simpa [DeliveryState.teardown, DeliveryState.change] using hl)
    omega
  · intro l hl
    obtain ⟨k, hk, hpeer⟩ := h.peer l hl
    obtain ⟨k', hk', hpeer', -⟩ := LinksGrow.change c.shared l₀ keepsLink_teardown l k hk
    exact ⟨k', hk', hpeer'.symm ▸ hpeer⟩

theorem DeliveryInv.store (h : DeliveryInv c) {l₀ : Nat} {peer : Bytes}
    (hthread : c.threads[i]? = some (.storeLink l₀ peer :: rest)) (hlive : c.shared.isLive l₀ = true)
    (hcached : c.shared.deliveryLink.any c.shared.isLive = false) :
    DeliveryInv (afterAct c i rest
      { shared := ⟨some l₀, some peer, c.shared.links, c.shared.held⟩ }) := by
  have howns (l : Nat) := pending_afterAct
    (r := { shared := ⟨some l₀, some peer, c.shared.links, c.shared.held⟩ })
    (DeliveryAct.owns l) hthread rfl
  simp only [List.countP_singleton, List.countP_nil, DeliveryAct.owns, decide_eq_true_eq, Nat.add_zero] at howns
  have hok : DeliveryAct.Ok c.shared.links (.storeLink l₀ peer) := h.acts i _ hthread _ List.mem_cons_self
  refine ⟨acts_run h hthread rfl (.refl _) (fun b hb => absurd hb List.not_mem_nil), ?_, ?_, ?_, nofun⟩
  · intro l k hk
    have hlink := h.links l k hk
    have hcount := howns l
    have howned := hlink.owned
    by_cases heq : l₀ = l
    · rw [if_pos heq] at hcount
      obtain ⟨k', hk', hlive'⟩ := isLive_iff.mp hlive
      obtain rfl : k = k' := Option.some.inj (hk.symm.trans (heq ▸ hk'))
      exact ⟨by omega, fun _ => by omega, fun _ => .inl hlive', fun _ => .inl (congrArg some heq)⟩
    · rw [if_neg heq, Nat.add_zero] at hcount
      have hnot : ¬(some l₀ = some l) := fun hs => heq (Option.some.inj hs)
      rw [hcount]
      refine ⟨howned, fun hs => absurd hs hnot, fun hs => absurd hs hnot, fun hlive' => ?_⟩
      rcases hlink.kept hlive' with hstored | hpos
      · -- what was stored until now is not live
        have hl : c.shared.isLive l = true := isLive_iff.mpr ⟨k, hk, hlive'⟩
        rw [hstored, Option.any_some, hl] at hcached
        cases hcached
      · exact .inr hpos
  · intro l hl
    have hcount := howns l
    have hfresh := h.fresh l hl
    omega
  · intro l hl
    cases hl
    obtain ⟨k, hk, hpeer⟩ := hok
    exact ⟨k, hk, congrArg some hpeer.symm⟩

theorem DeliveryInv.callback (h : DeliveryInv c) {l₀ : Nat}
    (hthread : c.threads[i]? = some (.closedCallback l₀ :: rest)) :
    DeliveryInv (afterAct c i rest
      { shared := if c.shared.deliveryLink = some l₀ then c.shared.forget else c.shared }) := by
  obtain ⟨k₀, hk₀, hclosed⟩ : DeliveryAct.Ok c.shared.links (.closedCallback l₀) :=
    h.acts i _ hthread _ List.mem_cons_self
  split
  · rename_i hstored
    have howns (l : Nat) := pending_afterAct (r := { shared := c.shared.forget }) (DeliveryAct.owns l) hthread rfl
    simp only [List.countP_singleton, List.countP_nil, DeliveryAct.owns, Bool.false_eq_true, if_false,
      Nat.add_zero] at howns
    refine ⟨acts_run h hthread rfl (.refl _) (fun b hb => absurd hb List.not_mem_nil), ?_, ?_, nofun, fun _ => rfl⟩
    · intro l k hk
      have hlink := h.links l k hk
      rw [howns l]
      refine ⟨hlink.owned, nofun, nofun, fun hlive => .inr ?_⟩
      refine (hlink.kept hlive).resolve_left fun hs => ?_
      -- the link that was stored is the closed one
      obtain rfl : l₀ = l := Option.some.inj (hstored.symm.trans hs)
      obtain rfl : k = k₀ := Option.some.inj (hk.symm.trans hk₀)
      rcases hlive with hactive | hstale
      · cases hclosed.symm.trans hactive
      · cases hclosed.symm.trans hstale
    · intro l hl
      rw [howns l]
      exact h.fresh l hl
  · rename_i hnot
    have howns (l : Nat) := pending_afterAct (r := { shared := c.shared }) (DeliveryAct.owns l) hthread rfl
    have hcallbacks (l : Nat) := pending_afterAct (r := { shared := c.shared }) (DeliveryAct.isCallback l) hthread rfl
    simp only [List.countP_singleton, List.countP_nil, DeliveryAct.owns, DeliveryAct.isCallback,
      Bool.false_eq_true, if_false, Nat.add_zero, decide_eq_true_eq] at howns hcallbacks
    refine ⟨acts_run h hthread rfl (.refl _) (fun b hb => absurd hb List.not_mem_nil), ?_, ?_, h.peer, h.empty⟩
    · intro l k hk
      have hlink := h.links l k hk
      rw [howns l]
      refine ⟨hlink.owned, hlink.unowned, fun hs => ?_, hlink.kept⟩
      have hcount := hcallbacks l
      rw [if_neg (fun heq : l₀ = l => hnot (heq ▸ hs)), Nat.add_zero] at hcount
      rw [hcount]
      exact hlink.stored hs
    · intro l hl
      rw [howns l]
      exact h.fresh l hl

theorem DeliveryInv.call (h : DeliveryInv c) (peer : Bytes) :
    DeliveryInv ⟨c.shared, c.threads ++ [[.ensureDeliveryLink peer]]⟩ := by
  have hsame (p : DeliveryAct → Bool) (hp : p (.ensureDeliveryLink peer) = false) :
      pending p (⟨c.shared, c.threads ++ [[.ensureDeliveryLink peer]]⟩ : Threads.Config DeliveryState DeliveryAct) =
        pending p c :=
    pending_env_of_none (r := ⟨c.shared, [], [[DeliveryAct.ensureDeliveryLink peer]]⟩) (by simpa using hp)
  refine ⟨?_, fun l k hk => ?_, fun l hl => ?_, h.peer, h.empty⟩
  · refine Each.forall_env (r := ⟨c.shared, [], [[DeliveryAct.ensureDeliveryLink peer]]⟩) h.acts
      (fun b => id) fun t ht b hb => ?_
    rw [List.mem_singleton.mp ht] at hb
    rw [List.mem_singleton.mp hb]
    trivial
  · rw [hsame _ rfl, hsame _ rfl]
    exact h.links l k hk
  · rw [hsame _ rfl]
    exact h.fresh l hl

/-- A link changes by itself, with the threads `spawn`, which own no link. -/
theorem DeliveryInv.changed (h : DeliveryInv c) {l₀ : Nat} {f : DeliveryLink → DeliveryLink}
    {spawn : List (List DeliveryAct)} (hf : KeepsLink f)
    (hlive : ∀ k, c.shared.links[l₀]? = some k → (f k).Live → k.Live ∨ 0 < pending (DeliveryAct.owns l₀) c)
    (hspawn : ∀ t ∈ spawn, ∀ b ∈ t, b.Ok (c.shared.change l₀ f).links)
    (hunowned : ∀ t ∈ spawn, ∀ b ∈ t, ∀ l, b.owns l = false)
    (hstored : ∀ k, k.Live ∨ k.status = .closed ∧ 0 < pending (DeliveryAct.isCallback l₀) c →
      (f k).Live ∨ (f k).status = .closed ∧
        0 < pending (DeliveryAct.isCallback l₀) ⟨c.shared.change l₀ f, c.threads ++ spawn⟩) :
    DeliveryInv ⟨c.shared.change l₀ f, c.threads ++ spawn⟩ := by
  have howns (l : Nat) : pending (DeliveryAct.owns l) ⟨c.shared.change l₀ f, c.threads ++ spawn⟩ =
      pending (DeliveryAct.owns l) c :=
    pending_env_of_none (r := ⟨c.shared.change l₀ f, [], spawn⟩) fun t ht b hb => hunowned t ht b hb l
  have hgrow := LinksGrow.change c.shared l₀ hf
  refine ⟨?_, fun l k hk => ?_, fun l hl => ?_, fun l hl => ?_, h.empty⟩
  · exact Each.forall_env (r := ⟨c.shared.change l₀ f, [], spawn⟩) h.acts (fun b hb => hb.mono hgrow) hspawn
  · obtain ⟨k₀, hk₀, hchange⟩ := change_getElem? hk
    have hok := h.links l k₀ hk₀
    rw [howns l]
    rcases hchange with ⟨rfl, rfl⟩ | ⟨-, rfl⟩
    · exact ⟨hok.owned, hok.unowned, fun hs => hstored k₀ (hok.stored hs), fun hl =>
        (hlive k₀ hk₀ hl).elim hok.kept .inr⟩
    · refine ⟨hok.owned, hok.unowned, fun hs => ?_, hok.kept⟩
      exact (hok.stored hs).imp_right fun ⟨hclosed, hpos⟩ => ⟨hclosed, Nat.lt_of_lt_of_le hpos
        (pending_le_env (r := ⟨c.shared.change l₀ f, [], spawn⟩))⟩
  · rw [howns l]
    exact h.fresh l (by simpa [DeliveryState.change] using hl)
  · obtain ⟨k, hk, hpeer⟩ := h.peer l hl
    obtain ⟨k', hk', hpeer', -⟩ := hgrow l k hk
    exact ⟨k', hk', hpeer'.symm ▸ hpeer⟩

/-- A link goes from one status to another, neither of them closed, and is live then if it
was or if a call still has it. -/
theorem DeliveryInv.restatus (h : DeliveryInv c) {l₀ : Nat} {f : DeliveryLink → DeliveryLink} (hf : KeepsLink f)
    (hlive : ∀ k, c.shared.links[l₀]? = some k → (f k).Live → k.Live ∨ 0 < pending (DeliveryAct.owns l₀) c)
    (hkept : ∀ k, k.Live → (f k).Live) : DeliveryInv ⟨c.shared.change l₀ f, c.threads ++ []⟩ := by
  refine h.changed hf hlive nofun nofun ?_
  rintro k (hlive | ⟨hclosed, hpos⟩)
  · exact .inl (hkept k hlive)
  · rw [List.append_nil]
    exact .inr ⟨hf.closed k hclosed, hpos⟩

theorem DeliveryInv.activate (h : DeliveryInv c) {l₀ : Nat} (hawaited : 0 < pending (DeliveryAct.awaits l₀) c) :
    DeliveryInv ⟨c.shared.change l₀ DeliveryLink.activate, c.threads ++ []⟩ := by
  have howned : pending (DeliveryAct.awaits l₀) c ≤ pending (DeliveryAct.owns l₀) c :=
    pending_le_of_imp fun a ha => by
      cases a <;> first | exact ha | cases ha
  refine h.restatus keepsLink_activate (fun _ _ _ => .inr (by omega)) ?_
  rintro k (hactive | hstale)
  · exact .inl (by simp [DeliveryLink.activate, hactive])
  · exact .inr (by simp [DeliveryLink.activate, hstale])

theorem live_goStale_iff (k : DeliveryLink) : k.goStale.Live ↔ k.Live := by
  cases hstatus : k.status <;> simp [DeliveryLink.Live, DeliveryLink.goStale, hstatus]

theorem live_revive_iff (k : DeliveryLink) : k.revive.Live ↔ k.Live := by
  cases hstatus : k.status <;> simp [DeliveryLink.Live, DeliveryLink.revive, hstatus]

theorem DeliveryInv.close (h : DeliveryInv c) {l₀ : Nat} (hl₀ : l₀ < c.shared.links.length) :
    DeliveryInv ⟨c.shared.change l₀ DeliveryLink.close, c.threads ++ [[.closedCallback l₀]]⟩ := by
  refine h.changed keepsLink_close (fun k _ hlive => ?_) ?_ ?_ ?_
  · rcases hlive with hactive | hstale
    · cases hactive
    · cases hstale
  · intro t ht b hb
    rw [List.mem_singleton.mp ht] at hb
    rw [List.mem_singleton.mp hb]
    refine ⟨(c.shared.links.get ⟨l₀, hl₀⟩).close, ?_, rfl⟩
    rw [DeliveryState.change, List.getElem?_modify, List.getElem?_eq_getElem hl₀]
    simp
  · intro t ht b hb l
    rw [List.mem_singleton.mp ht] at hb
    rw [List.mem_singleton.mp hb]
    rfl
  · intro k _
    refine .inr ⟨rfl, ?_⟩
    have henv := pending_env (p := DeliveryAct.isCallback l₀) (c := c)
      (r := ⟨c.shared.change l₀ DeliveryLink.close, [], [[.closedCallback l₀]]⟩)
    rw [henv]
    simp [DeliveryAct.isCallback]

end

theorem deliveryInv_step {c c' : Threads.Config DeliveryState DeliveryAct} {e : Event DeliveryChoice DeliveryEvent}
    (h : DeliveryInv c) (hgood : GoodStep c e) (hstep : deliveryProgram.step c e = some c') :
    DeliveryInv c' ∨ Jammed c' := by
  cases Program.steps_of_step hstep with
  | @run i x a rest r hthread hact =>
    simp only [GoodStep, Threads.Config.next_eq hthread] at hgood
    cases a with
    | ensureDeliveryLink peer => exact h.ensure hthread hgood hact
    | establishDeliveryLink peer =>
      left
      simp only [deliveryProgram, deliveryAct] at hact
      split at hact <;> cases hact
      · exact h.establish hthread
      · exact h.quiet hthread (fun b hb => absurd hb List.not_mem_nil) (fun _ => rfl) fun _ => rfl
    | awaitActive l peer =>
      cases hact
      exact .inl (h.await x hthread)
    | teardown l =>
      cases hact
      exact .inl (h.teardown hthread hgood)
    | storeLink l peer =>
      left
      simp only [deliveryProgram, deliveryAct] at hact
      split at hact <;> cases hact
      exact h.store hthread hgood.1 hgood.2
    | closedCallback l =>
      left
      simp only [deliveryProgram, deliveryAct] at hact
      split at hact <;> cases hact
      exact h.callback hthread
  | @env e r henv =>
    left
    cases e with
    | call peer =>
      cases henv
      exact h.call peer
    | activate l =>
      cases henv
      exact h.activate hgood
    | goStale l =>
      cases henv
      exact h.restatus keepsLink_goStale (fun k _ hl => .inl ((live_goStale_iff k).mp hl)) fun k =>
        (live_goStale_iff k).mpr
    | revive l =>
      cases henv
      exact h.restatus keepsLink_revive (fun k _ hl => .inl ((live_revive_iff k).mp hl)) fun k =>
        (live_revive_iff k).mpr
    | close l =>
      simp only [deliveryProgram, deliveryEnv] at henv
      split at henv <;> cases henv
      rename_i hany
      obtain ⟨k, hk, -⟩ := Option.any_eq_true _ _ |>.mp hany
      exact h.close (List.getElem?_eq_some_iff.mp hk).1

/-! ## Runs -/

/-- When no call and no callback is under way, the only live link is the cached one, as
long as links are stored live and in the place of no live link, become active while they
are waited for, and are not dropped when they are stale. -/
theorem delivery_links_cached {es : List (Event DeliveryChoice DeliveryEvent)}
    (hgood : AllSteps deliveryProgram.step GoodStep deliveryInit es) :
    AllStates deliveryProgram.step (fun c => Quiescent c → NoneOrphaned c.shared) deliveryInit es := by
  have hstep : ∀ {c e c'}, DeliveryInv c ∨ Jammed c → deliveryProgram.step c e = some c' → GoodStep c e →
      DeliveryInv c' ∨ Jammed c' := by
    rintro c e c' (h | h) hstep hgood
    · exact deliveryInv_step h hgood hstep
    · exact .inr (h.step hstep)
  refine (allStates_of_good hstep (.inl deliveryInit_inv) hgood).imp fun c h hq => ?_
  exact (h.resolve_right fun hjammed => hjammed.not_quiescent hq).noneOrphaned hq

def samplePeer : Bytes := List.replicate 16 7

/-- What a thread cannot know in advance, when all goes well. -/
def requested : DeliveryChoice := ⟨true, false⟩

/-- A call establishes a link and stores it. The link goes stale, hears again from its peer
and serves a second call. Then it is closed, and a third call replaces it. -/
def threeCalls : List (Event DeliveryChoice DeliveryEvent) :=
  [.env (.call samplePeer), .run 0 requested, .run 0 requested, .env (.activate 0), .run 0 requested,
    .run 0 requested, .env (.goStale 0), .env (.revive 0), .env (.call samplePeer), .run 1 requested,
    .env (.close 0), .env (.call samplePeer), .run 3 requested, .run 2 requested, .run 3 requested,
    .env (.activate 1), .run 3 requested, .run 3 requested]

theorem three_calls_cached :
    AllSteps deliveryProgram.step GoodStep deliveryInit threeCalls ∧
      AllStates deliveryProgram.step (fun c => Quiescent c → NoneOrphaned c.shared) deliveryInit threeCalls ∧
      run deliveryProgram.step deliveryInit threeCalls =
        some ⟨⟨some 1, some samplePeer, [⟨samplePeer, .closed⟩, ⟨samplePeer, .active⟩], false⟩, [[], [], [], []]⟩ :=
  ⟨by decide +kernel, delivery_links_cached (by decide +kernel), rfl⟩

/-- Two calls both find no link, and each stores its own. -/
def twoCalls : List (Event DeliveryChoice DeliveryEvent) :=
  [.env (.call samplePeer), .env (.call samplePeer), .run 0 requested, .run 1 requested,
    .run 0 requested, .run 1 requested, .env (.activate 0), .env (.activate 1),
    .run 0 requested, .run 1 requested, .run 0 requested, .run 1 requested]

def twoCallsEnd : Threads.Config DeliveryState DeliveryAct :=
  ⟨⟨some 1, some samplePeer, [⟨samplePeer, .active⟩, ⟨samplePeer, .active⟩], false⟩, [[], []]⟩

theorem second_store_orphans_first :
    run deliveryProgram.step deliveryInit twoCalls = some twoCallsEnd ∧ Quiescent twoCallsEnd ∧
      ¬NoneOrphaned twoCallsEnd.shared := by
  refine ⟨rfl, quiescent_of_isEmpty rfl, fun h => ?_⟩
  obtain ⟨hcached, -⟩ := h.cached 0 ⟨samplePeer, .active⟩ rfl (.inl rfl)
  cases hcached

end Lxmf
