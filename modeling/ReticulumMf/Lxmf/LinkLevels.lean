-- SUMMARY: The models of the cached links agree: deliveries and retries are runs of the links with mutexes.
import ReticulumMf.Lxmf.DeliveryLink
import ReticulumMf.Lxmf.LinkCache
import ReticulumMf.Lxmf.Retry

/-!
# Levels of the cached links

In `LinkCache` every lock and unlock of a link cache is a step. `DeliveryLink` takes a
critical section as one step, and `Retry` a whole send as a function. Here every run of the
one and every result of the other is a run of `LinkCache`. Where a run of `DeliveryLink`
jams and a send does not return, a thread of `LinkCache` waits for a mutex that it holds.
-/

namespace Lxmf

open Transition Threads

/-! ## Deliveries -/

def DeliveryLink.toCached (k : DeliveryLink) : CachedLink := ⟨.delivery, k.status = .active⟩

def DeliveryState.toLinkState (s : DeliveryState) (holder : Cache → Option Nat) : LinkState where
  holder := holder
  cached := Function.update (fun _ => none) .delivery
    (s.deliveryLink.bind fun l => s.deliveryLinkPeer.map (l, ·))
  links := s.links.map DeliveryLink.toCached

/-- No mutex is held. -/
def freeMutexes : Cache → Option Nat := fun _ => none

def DeliveryAct.linkActs : DeliveryAct → List LinkAct
  | .ensureDeliveryLink peer => ensureLink .delivery peer
  | .establishDeliveryLink peer => [.establish .delivery peer .done]
  | .awaitActive l peer => [.awaitActive .delivery l peer .done]
  | .teardown l => [.teardown l]
  | .storeLink l peer => [.lock .delivery, .storeLocked .delivery l peer, .unlock .delivery, .transfer .done]
  | .closedCallback l => Lxmf.closedCallback .delivery l

/-- The threads with every critical section spelled out. -/
def deliveryLinks (c : Threads.Config DeliveryState DeliveryAct) : Threads.Config LinkState LinkAct :=
  ⟨c.shared.toLinkState freeMutexes, c.threads.map (·.flatMap DeliveryAct.linkActs)⟩

def DeliveryChoice.toLinkChoice (x : DeliveryChoice) : LinkChoice := ⟨true, x.requested, x.timedOut, true⟩

/-- The cached link and its peer are set together. -/
def DeliveryState.Paired (s : DeliveryState) : Prop := s.deliveryLink.isSome = s.deliveryLinkPeer.isSome

theorem modify_map_toCached {links : List DeliveryLink} {l : Nat} {f : DeliveryLink → DeliveryLink} {b : Bool}
    (h : ∀ k, links[l]? = some k → ((f k).status = .active ↔ b = true)) :
    (links.modify l f).map DeliveryLink.toCached =
      (links.map DeliveryLink.toCached).modify l ({ · with active := b }) := by
  refine List.ext_getElem? fun n => ?_
  rw [List.getElem?_map, List.getElem?_modify, List.getElem?_modify, List.getElem?_map]
  cases hk : links[n]? with
  | none => rfl
  | some k =>
    by_cases hn : l = n
    · subst hn
      have hb := h k hk
      cases b <;> simp_all [DeliveryLink.toCached]
    · simp [hn]

theorem modify_map_toCached_same {links : List DeliveryLink} {l : Nat} {f : DeliveryLink → DeliveryLink}
    (h : ∀ k, links[l]? = some k → ((f k).status = .active ↔ k.status = .active)) :
    (links.modify l f).map DeliveryLink.toCached = links.map DeliveryLink.toCached := by
  refine List.ext_getElem? fun n => ?_
  rw [List.getElem?_map, List.getElem?_modify, List.getElem?_map]
  cases hk : links[n]? with
  | none => rfl
  | some k =>
    by_cases hn : l = n
    · subst hn
      simp [DeliveryLink.toCached, h k hk]
    · simp [hn]

section

variable {s : DeliveryState} {holder : Cache → Option Nat} {l : Nat}

theorem isActive_toLinkState : (s.toLinkState holder).isActive l = s.isActive l := by
  cases hk : s.links[l]? <;>
    simp [LinkState.isActive, DeliveryState.toLinkState, DeliveryState.isActive, DeliveryLink.toCached, hk]

theorem toLinkState_change {f : DeliveryLink → DeliveryLink} {b : Bool}
    (h : ∀ k, s.links[l]? = some k → ((f k).status = .active ↔ b = true)) :
    (s.change l f).toLinkState holder = (s.toLinkState holder).setActive l b := by
  simp only [DeliveryState.toLinkState, DeliveryState.change, LinkState.setActive, modify_map_toCached h]

theorem toLinkState_change_same {f : DeliveryLink → DeliveryLink}
    (h : ∀ k, s.links[l]? = some k → ((f k).status = .active ↔ k.status = .active)) :
    (s.change l f).toLinkState holder = s.toLinkState holder := by
  simp only [DeliveryState.toLinkState, DeliveryState.change, modify_map_toCached_same h]

/-- `Teardown` is the same at both levels. -/
theorem teardown_toLinkState :
    (s.toLinkState holder).teardown l =
      { shared := (s.teardown l).shared.toLinkState holder
        push := (s.teardown l).push.flatMap DeliveryAct.linkActs } := by
  by_cases hactive : s.isActive l = true
  · obtain ⟨k, hk, hstatus⟩ := isActive_iff.mp hactive
    have hlink : (s.toLinkState holder).links[l]? = some ⟨.delivery, true⟩ := by
      simp [DeliveryState.toLinkState, hk, DeliveryLink.toCached, hstatus]
    have hchange : (s.change l DeliveryLink.teardown).toLinkState holder =
        (s.toLinkState holder).setActive l false :=
      toLinkState_change fun k _ => by
        by_cases h : k.status = .active <;> simp [DeliveryLink.teardown, h]
    simp only [LinkState.teardown, hlink, DeliveryState.teardown, hactive, if_true, hchange]
    rw [List.flatMap_singleton]
    rfl
  · have hchange : (s.change l DeliveryLink.teardown).toLinkState holder = s.toLinkState holder :=
      toLinkState_change_same fun k hk => by
        have hstatus : k.status ≠ .active := fun h => hactive (isActive_iff.mpr ⟨k, hk, h⟩)
        simp [DeliveryLink.teardown, hstatus]
    rw [LinkState.teardown]
    split
    · rename_i m hlink
      have hisActive : (s.toLinkState holder).isActive l = true := by
        rw [LinkState.isActive, hlink]
        rfl
      exact absurd (isActive_toLinkState ▸ hisActive) hactive
    · simp only [DeliveryState.teardown, hactive, hchange]
      rfl

theorem cached_toLinkState :
    (s.toLinkState holder).cached .delivery = s.deliveryLink.bind fun l => s.deliveryLinkPeer.map (l, ·) := by
  simp [DeliveryState.toLinkState]

/-- Thread `i` holds the mutex of the delivery link. -/
def heldMutex (i : Nat) : Cache → Option Nat := Function.update freeMutexes .delivery (some i)

variable {i : Nat} {y : LinkChoice} {ys : List LinkChoice} {rest : List LinkAct} {peer : Bytes}

theorem alone_lock :
    linkProgram.alone i (s.toLinkState freeMutexes) (.lock .delivery :: rest) (y :: ys) =
      linkProgram.alone i (s.toLinkState (heldMutex i)) rest ys :=
  Program.alone_step rfl

theorem alone_unlock :
    linkProgram.alone i (s.toLinkState (heldMutex i)) (.unlock .delivery :: rest) (y :: ys) =
      linkProgram.alone i (s.toLinkState freeMutexes) rest ys := by
  have hholder : Function.update (heldMutex i) .delivery none = freeMutexes := by
    rw [heldMutex, Function.update_idem]
    exact Function.update_eq_self Cache.delivery freeMutexes
  rw [← hholder]
  exact Program.alone_step rfl

theorem alone_forgetLocked :
    linkProgram.alone i (s.toLinkState holder) (.forgetLocked .delivery :: rest) (y :: ys) =
      linkProgram.alone i (s.forget.toLinkState holder) rest ys :=
  Program.alone_step (by simp [linkProgram, linkAct, DeliveryState.toLinkState, DeliveryState.forget])

theorem alone_storeLocked :
    linkProgram.alone i (s.toLinkState holder) (.storeLocked .delivery l peer :: rest) (y :: ys) =
      linkProgram.alone i ({ s with deliveryLink := some l, deliveryLinkPeer := some peer }.toLinkState holder)
        rest ys :=
  Program.alone_step (by simp [linkProgram, linkAct, DeliveryState.toLinkState])

theorem alone_closedLocked (hpaired : s.Paired) :
    linkProgram.alone i (s.toLinkState holder) (.closedLocked .delivery l :: rest) (y :: ys) =
      linkProgram.alone i ((if s.deliveryLink = some l then s.forget else s).toLinkState holder) rest ys := by
  refine Program.alone_step ?_
  have hcached : ((s.toLinkState holder).cached .delivery).map Prod.fst = s.deliveryLink := by
    rw [cached_toLinkState]
    cases hlink : s.deliveryLink with
    | none => rfl
    | some l' =>
      obtain ⟨peer, hpeer⟩ : ∃ peer, s.deliveryLinkPeer = some peer := by
        rw [DeliveryState.Paired, hlink] at hpaired
        exact Option.isSome_iff_exists.mp hpaired.symm
      simp [hpeer]
  simp only [linkProgram, linkAct, hcached]
  split
  · simp [DeliveryState.toLinkState, DeliveryState.forget]
  · rfl

theorem alone_teardown :
    linkProgram.alone i (s.toLinkState holder) (.teardown l :: rest) (y :: ys) =
      linkProgram.alone i ((s.teardown l).shared.toLinkState holder)
        ((s.teardown l).push.flatMap DeliveryAct.linkActs ++ rest) ys :=
  Program.alone_cons (congrArg some teardown_toLinkState)

theorem alone_transfer (s' : LinkState) :
    linkProgram.alone i s' (.transfer .done :: rest) (y :: ys) = linkProgram.alone i s' rest ys :=
  Program.alone_step (by cases htransferred : y.transferred <;> simp [linkProgram, linkAct, htransferred])

theorem alone_ensureLocked (s' : LinkState) :
    linkProgram.alone i s' (.ensureLocked .delivery peer :: rest) (y :: ys) =
      linkProgram.alone i s' (s'.ensureLocked .delivery peer ++ rest) ys :=
  Program.alone_cons rfl

end

/-- What thread `i` does alone at the level of the mutexes: what it did in one step, or it is
left waiting for itself. -/
def DoesAlone (i : Nat) (s : DeliveryState) (acts rest : List LinkAct) (r : Effect DeliveryState DeliveryAct) :
    Prop :=
  ∃ ys, r.shared.held = false ∧ linkProgram.alone i (s.toLinkState freeMutexes) (acts ++ rest) ys =
      some (r.shared.toLinkState freeMutexes, r.push.flatMap DeliveryAct.linkActs ++ rest) ∨
    ∃ s' rest', r.shared.held = true ∧ linkProgram.alone i (s.toLinkState freeMutexes) (acts ++ rest) ys =
      some (s', .lock .delivery :: rest') ∧ s'.holder .delivery = some i

theorem ensure_alone {i : Nat} {s : DeliveryState} {peer : Bytes} {r : Effect DeliveryState DeliveryAct}
    (hensure : s.ensureDeliveryLink peer = some r) (hpaired : s.Paired) (hheld : s.held = false)
    (rest : List LinkAct) : DoesAlone i s (ensureLink .delivery peer) rest r := by
  have y : LinkChoice := ⟨true, true, true, true⟩
  unfold DeliveryState.ensureDeliveryLink at hensure
  rw [ensureLink]
  split at hensure
  · rename_i hlen
    cases hensure
    rw [if_pos hlen]
    exact ⟨[], .inl ⟨hheld, rfl⟩⟩
  · rename_i hlen
    rw [if_neg hlen]
    rw [if_neg (by simp [hheld])] at hensure
    have hcached : (s.toLinkState (heldMutex i)).cached .delivery =
        s.deliveryLink.bind fun l => s.deliveryLinkPeer.map (l, ·) := cached_toLinkState
    split at hensure
    · -- nothing is cached
      rename_i hlink
      cases hensure
      rw [hlink, Option.bind_none] at hcached
      refine ⟨[y, y, y], .inl ⟨hheld, ?_⟩⟩
      simp only [List.cons_append, List.nil_append, alone_lock, alone_ensureLocked, LinkState.ensureLocked, hcached,
        alone_unlock]
      rfl
    · rename_i l hlink
      obtain ⟨peer', hpeer⟩ : ∃ peer', s.deliveryLinkPeer = some peer' := by
        rw [DeliveryState.Paired, hlink] at hpaired
        exact Option.isSome_iff_exists.mp hpaired.symm
      rw [hlink, hpeer, Option.bind_some, Option.map_some] at hcached
      simp only [hpeer, Option.some.injEq] at hensure
      split at hensure
      · -- the cached link will do, and the send goes on to its transfer
        rename_i hsame
        cases hensure
        refine ⟨[y, y, y, y], .inl ⟨hheld, ?_⟩⟩
        simp only [List.cons_append, List.nil_append, alone_lock, alone_ensureLocked, LinkState.ensureLocked, hcached,
          isActive_toLinkState, if_pos hsame, alone_unlock, alone_transfer]
        rfl
      · rename_i hother
        have hdrop : (s.toLinkState (heldMutex i)).ensureLocked .delivery peer =
            [.teardown l, .forgetLocked .delivery, .unlock .delivery, .establish .delivery peer .done] := by
          simp only [LinkState.ensureLocked, hcached, isActive_toLinkState, if_neg hother]
        split at hensure
        · rename_i hactive
          cases hensure
          -- the callback comes before what is left of the critical section
          refine ⟨[y, y, y], .inr ⟨(s.teardown l).shared.toLinkState (heldMutex i),
            [.closedLocked .delivery l, .unlock .delivery, .forgetLocked .delivery, .unlock .delivery,
              .establish .delivery peer .done] ++ rest, rfl, ?_, by simp [DeliveryState.toLinkState, heldMutex]⟩⟩
          simp only [List.cons_append, List.nil_append, alone_lock, alone_ensureLocked, hdrop, alone_teardown,
            DeliveryState.teardown, hactive, if_true, List.flatMap_singleton]
          rfl
        · rename_i hinactive
          cases hensure
          refine ⟨[y, y, y, y, y], .inl ⟨hheld, ?_⟩⟩
          simp only [List.cons_append, List.nil_append, alone_lock, alone_ensureLocked, hdrop, alone_teardown,
            DeliveryState.teardown, if_neg hinactive, List.flatMap_nil, alone_forgetLocked, alone_unlock]
          rfl

/-- Each action is done alone at the level of the mutexes. -/
theorem deliveryAct_alone {i : Nat} {x : DeliveryChoice} {s : DeliveryState} {a : DeliveryAct}
    {r : Effect DeliveryState DeliveryAct} (hact : deliveryAct i x s a = some r) (hpaired : s.Paired)
    (hheld : s.held = false) (rest : List LinkAct) : DoesAlone i s a.linkActs rest r := by
  have y := x.toLinkChoice
  cases a with
  | ensureDeliveryLink peer => exact ensure_alone hact hpaired hheld rest
  | establishDeliveryLink peer =>
    simp only [deliveryAct] at hact
    split at hact
    · rename_i hreq
      cases hact
      refine ⟨[x.toLinkChoice], .inl ⟨hheld, ?_⟩⟩
      simp [Program.alone, linkProgram, linkAct, DeliveryAct.linkActs, DeliveryChoice.toLinkChoice, hreq,
        DeliveryState.toLinkState, DeliveryLink.toCached]
    · rename_i hreq
      cases hact
      refine ⟨[x.toLinkChoice], .inl ⟨hheld, ?_⟩⟩
      simp [Program.alone, linkProgram, linkAct, DeliveryAct.linkActs, DeliveryChoice.toLinkChoice, hreq, Next.failed]
  | awaitActive l peer =>
    cases hact
    refine ⟨[x.toLinkChoice], .inl ⟨hheld, ?_⟩⟩
    simp only [DeliveryAct.linkActs, Program.alone, linkProgram, linkAct, isActive_toLinkState,
      List.singleton_append]
    by_cases hactive : s.isActive l = true
    · simp [hactive, DeliveryAct.linkActs]
    · cases htimeout : x.timedOut <;>
        simp [hactive, htimeout, DeliveryChoice.toLinkChoice, DeliveryAct.linkActs, Next.failed]
  | teardown l =>
    cases hact
    exact ⟨[y], .inl ⟨hheld, alone_teardown⟩⟩
  | storeLink l peer =>
    rw [deliveryAct, if_neg (by simp [hheld])] at hact
    cases hact
    refine ⟨[y, y, y, y], .inl ⟨hheld, ?_⟩⟩
    simp only [DeliveryAct.linkActs, List.cons_append, List.nil_append, alone_lock, alone_storeLocked, alone_unlock,
      alone_transfer]
    rfl
  | closedCallback l =>
    rw [deliveryAct, if_neg (by simp [hheld])] at hact
    cases hact
    refine ⟨[y, y, y], .inl ⟨?_, ?_⟩⟩
    · split <;> exact hheld
    · simp only [DeliveryAct.linkActs, Lxmf.closedCallback, List.cons_append, List.nil_append, alone_lock,
        alone_closedLocked hpaired, alone_unlock]
      rfl

theorem deliveryAct_paired {t : Nat} {x : DeliveryChoice} {s : DeliveryState} {a : DeliveryAct}
    {r : Effect DeliveryState DeliveryAct} (h : deliveryAct t x s a = some r) (hpaired : s.Paired) :
    r.shared.Paired := by
  cases a with
  | ensureDeliveryLink peer =>
    simp only [deliveryAct, DeliveryState.ensureDeliveryLink] at h
    split at h
    · cases h
      exact hpaired
    · split at h
      · cases h
      · split at h
        · cases h
          exact hpaired
        · split at h
          · cases h
            exact hpaired
          · split at h <;> cases h
            · exact hpaired
            · rfl
  | establishDeliveryLink peer =>
    simp only [deliveryAct] at h
    split at h <;> cases h <;> exact hpaired
  | awaitActive l peer =>
    cases h
    exact hpaired
  | teardown l =>
    cases h
    exact hpaired
  | storeLink l peer =>
    simp only [deliveryAct] at h
    split at h <;> cases h
    rfl
  | closedCallback l =>
    simp only [deliveryAct] at h
    split at h <;> cases h
    dsimp only
    split
    · rfl
    · exact hpaired

theorem deliveryAct_spawn {t : Nat} {x : DeliveryChoice} {s : DeliveryState} {a : DeliveryAct}
    {r : Effect DeliveryState DeliveryAct} (h : deliveryAct t x s a = some r) : r.spawn = [] := by
  unfold deliveryAct DeliveryState.ensureDeliveryLink at h
  split at h <;> repeat' split at h
  all_goals first | cases h; rfl | cases h

theorem deliveryEnv_paired {s : DeliveryState} {e : DeliveryEvent} {r : Effect DeliveryState DeliveryAct}
    (h : deliveryEnv s e = some r) (hpaired : s.Paired) : r.shared.Paired := by
  cases e with
  | close l =>
    simp only [deliveryEnv] at h
    split at h <;> cases h
    exact hpaired
  | _ =>
    cases h
    exact hpaired

section

variable {c : Threads.Config DeliveryState DeliveryAct} {r : Effect DeliveryState DeliveryAct} {l : Nat}

theorem run_env_deliveryLinks (e : LinkEvent) {r' : Effect LinkState LinkAct}
    (henv : linkEnv (deliveryLinks c).shared e = some r') (hshared : r'.shared = r.shared.toLinkState freeMutexes)
    (hspawn : r'.spawn = r.spawn.map (·.flatMap DeliveryAct.linkActs)) :
    run linkProgram.step (deliveryLinks c) [.env e] = some (deliveryLinks ⟨r.shared, c.threads ++ r.spawn⟩) := by
  have hstep : linkProgram.step (deliveryLinks c) (.env e) =
      some ⟨r'.shared, (deliveryLinks c).threads ++ r'.spawn⟩ := by
    simp only [Program.step, linkProgram, henv, Option.map_some]
  rw [run, hstep, hshared, hspawn]
  simp [run, deliveryLinks]

/-- A link that has the status becomes active. In the cache this is an event only for such a
link, as the other ones are not told apart there. -/
theorem wakes_run {f : DeliveryLink → DeliveryLink} {status : LinkStatus}
    (hf : ∀ k, (f k).status = if k.status = status then .active else k.status) :
    ∃ es, run linkProgram.step (deliveryLinks c) es =
      some (deliveryLinks ⟨c.shared.change l f, c.threads⟩) := by
  by_cases hwakes : ∃ k, c.shared.links[l]? = some k ∧ k.status = status
  · obtain ⟨k, hk, hstatus⟩ := hwakes
    have hchange : (c.shared.change l f).toLinkState freeMutexes =
        (c.shared.toLinkState freeMutexes).setActive l true := by
      refine toLinkState_change fun k' hk' => ?_
      cases hk.symm.trans hk'
      simp [hf, hstatus]
    have hrun := run_env_deliveryLinks (r := { shared := c.shared.change l f }) (.activate l) rfl hchange.symm rfl
    rw [List.append_nil] at hrun
    exact ⟨_, hrun⟩
  · refine ⟨[], ?_⟩
    have hsame : (c.shared.change l f).toLinkState freeMutexes = c.shared.toLinkState freeMutexes := by
      refine toLinkState_change_same fun k hk => ?_
      have hstatus : k.status ≠ status := fun hstatus => hwakes ⟨k, hk, hstatus⟩
      rw [hf, if_neg hstatus]
    simp [run, deliveryLinks, hsame]

/-- What happens to a delivery link happens to the cached link. -/
theorem deliveryEnv_run {e : DeliveryEvent} (h : deliveryEnv c.shared e = some r) :
    ∃ es, run linkProgram.step (deliveryLinks c) es =
      some (deliveryLinks ⟨r.shared, c.threads ++ r.spawn⟩) := by
  cases e with
  | call peer =>
    cases h
    let d : Threads.Config LinkState LinkAct :=
      ⟨(deliveryLinks c).shared, (deliveryLinks c).threads ++ [[.call (.sendDirect peer)]]⟩
    have hthread : d.threads[c.threads.length]? = some [.call (.sendDirect peer)] := by
      simp [d, deliveryLinks]
    have halone : linkProgram.alone c.threads.length d.shared [.call (.sendDirect peer)]
        [⟨true, true, true, true⟩] = some (d.shared, ensureLink .delivery peer) := by
      simp [Program.alone, linkProgram, linkAct, SendCall.start]
    refine ⟨[.env (.calls [.sendDirect peer]), .run c.threads.length ⟨true, true, true, true⟩],
      run_cons.mpr ⟨d, rfl, (Program.run_alone hthread halone).trans ?_⟩⟩
    simp [d, deliveryLinks, DeliveryAct.linkActs]
  | activate l =>
    cases h
    rw [List.append_nil]
    exact wakes_run fun _ => rfl
  | revive l =>
    cases h
    rw [List.append_nil]
    exact wakes_run fun _ => rfl
  | goStale l =>
    cases h
    refine ⟨_, run_env_deliveryLinks (.goStale l) rfl (toLinkState_change fun k _ => ?_).symm rfl⟩
    by_cases hk : k.status = .active <;> simp [DeliveryLink.goStale, hk]
  | close l =>
    simp only [deliveryEnv] at h
    split at h <;> cases h
    rename_i hany
    obtain ⟨k, hk, -⟩ := Option.any_eq_true _ _ |>.mp hany
    have hlink : (deliveryLinks c).shared.links[l]? = some k.toCached := by
      simp [deliveryLinks, DeliveryState.toLinkState, hk]
    refine ⟨_, run_env_deliveryLinks (.remoteClose l) (by rw [linkEnv, hlink, Option.map_some])
      (toLinkState_change fun k _ => ?_).symm ?_⟩
    · simp [DeliveryLink.close]
    · simp [DeliveryLink.toCached, DeliveryAct.linkActs]

end

/-- The cached links come to where the delivery link has come. If that has jammed, a thread
of theirs waits for a mutex that it holds. -/
def InLinkCache (c : Threads.Config DeliveryState DeliveryAct) : Prop :=
  ∃ es d, run linkProgram.step linkInit es = some d ∧
    (c.shared.held = false ∧ d = deliveryLinks c ∨ c.shared.held = true ∧ SelfDeadlock d)

theorem InLinkCache.run {c : Threads.Config DeliveryState DeliveryAct} {i : Nat} {x : DeliveryChoice}
    {a : DeliveryAct} {rest : List DeliveryAct} {r : Effect DeliveryState DeliveryAct} (h : InLinkCache c)
    (hpaired : c.shared.Paired) (hthread : c.threads[i]? = some (a :: rest))
    (hact : deliveryAct i x c.shared a = some r) :
    InLinkCache ⟨r.shared, c.threads.set i (r.push ++ rest) ++ r.spawn⟩ := by
  obtain ⟨es, d, hrun, ⟨hheld, rfl⟩ | ⟨hheld, hdead⟩⟩ := h
  · have hthread' : (deliveryLinks c).threads[i]? = some (a.linkActs ++ rest.flatMap DeliveryAct.linkActs) := by
      simp [deliveryLinks, hthread]
    obtain ⟨ys, ⟨hfree, halone⟩ | ⟨s', rest', hjammed, halone, hholder⟩⟩ :=
      deliveryAct_alone hact hpaired hheld (rest.flatMap DeliveryAct.linkActs)
    · refine ⟨es ++ ys.map (.run i), _, run_append.mpr ⟨_, hrun, Program.run_alone hthread' halone⟩,
        .inl ⟨hfree, ?_⟩⟩
      simp [deliveryLinks, deliveryAct_spawn hact, List.map_set]
    · refine ⟨es ++ ys.map (.run i), _, run_append.mpr ⟨_, hrun, Program.run_alone hthread' halone⟩,
        .inr ⟨hjammed, i, .delivery, rest', ?_, hholder⟩⟩
      exact List.getElem?_set_self (List.getElem?_eq_some_iff.mp hthread').1
  · exact ⟨es, d, hrun, .inr ⟨(deliveryAct_held hact hheld).1, hdead⟩⟩

theorem InLinkCache.env {c : Threads.Config DeliveryState DeliveryAct} {e : DeliveryEvent}
    {r : Effect DeliveryState DeliveryAct} (h : InLinkCache c) (henv : deliveryEnv c.shared e = some r) :
    InLinkCache ⟨r.shared, c.threads ++ r.spawn⟩ := by
  have hsame := deliveryEnv_held henv
  obtain ⟨es, d, hrun, ⟨hheld, rfl⟩ | ⟨hheld, hdead⟩⟩ := h
  · obtain ⟨es', hrun'⟩ := deliveryEnv_run henv
    exact ⟨es ++ es', _, run_append.mpr ⟨_, hrun, hrun'⟩, .inl ⟨hsame.trans hheld, rfl⟩⟩
  · exact ⟨es, d, hrun, .inr ⟨hsame.trans hheld, hdead⟩⟩

theorem inLinkCache_init : InLinkCache deliveryInit := by
  have hfree : (fun _ => none) = freeMutexes := rfl
  refine ⟨[], linkInit, rfl, .inl ⟨rfl, ?_⟩⟩
  simp [linkInit, deliveryLinks, deliveryInit, DeliveryState.toLinkState, hfree]

/-- Every run of the delivery link is a run of the cached links. -/
theorem delivery_run_inLinkCache {es : List (Event DeliveryChoice DeliveryEvent)}
    {c : Threads.Config DeliveryState DeliveryAct} (h : run deliveryProgram.step deliveryInit es = some c) :
    InLinkCache c := by
  have hstep : ∀ {c e c'}, c.shared.Paired ∧ InLinkCache c → deliveryProgram.step c e = some c' →
      c'.shared.Paired ∧ InLinkCache c' := by
    rintro c e c' ⟨hpaired, hin⟩ hstep
    cases Program.steps_of_step hstep with
    | @run i x a rest r hthread hact =>
      exact ⟨deliveryAct_paired (t := i) hact hpaired, hin.run hpaired hthread hact⟩
    | env henv => exact ⟨deliveryEnv_paired henv hpaired, hin.env henv⟩
  have hinit : deliveryInit.shared.Paired ∧ InLinkCache deliveryInit := ⟨rfl, inLinkCache_init⟩
  exact (run_invariant hstep hinit h).2

/-! ## Retries -/

/-- No thread is at the cache of the propagation link, and the cached link, if any, leads to
the node. -/
structure CachesNode (s : LinkState) (node : Option Bytes) : Prop where
  free : s.holder .propagation = none
  node : (s.cached .propagation).map Prod.snd = node
  link : ∀ l p, s.cached .propagation = some (l, p) → ∃ b, s.links[l]? = some ⟨.propagation, b⟩

/-- Thread `t` is done with what it had to do before `rest`, with the node cached. -/
def GoesOn (t : Nat) (rest : List LinkAct) (node : Option Bytes) (d : Threads.Config LinkState LinkAct) : Prop :=
  d.threads[t]? = some rest ∧ CachesNode d.shared node

/-- The configurations that can be reached. -/
def Reaches (d : Threads.Config LinkState LinkAct) (Q : Threads.Config LinkState LinkAct → Prop) : Prop :=
  ∃ es d', run linkProgram.step d es = some d' ∧ Q d'

section

variable {d : Threads.Config LinkState LinkAct} {t : Nat} {as rest : List LinkAct}
  {Q Q' : Threads.Config LinkState LinkAct → Prop}

theorem Reaches.trans (h : Reaches d Q) (h' : ∀ d', Q d' → Reaches d' Q') : Reaches d Q' := by
  obtain ⟨es, d', hrun, hd'⟩ := h
  obtain ⟨es', d'', hrun', hd''⟩ := h' d' hd'
  exact ⟨es ++ es', d'', run_append.mpr ⟨d', hrun, hrun'⟩, hd''⟩

theorem Reaches.imp (h : Reaches d Q) (himp : ∀ d', Q d' → Q' d') : Reaches d Q' := by
  obtain ⟨es, d', hrun, hd'⟩ := h
  exact ⟨es, d', hrun, himp d' hd'⟩

theorem CachesNode.setActive {s : LinkState} {node : Option Bytes} (h : CachesNode s node) (l : Nat) (b : Bool) :
    CachesNode (s.setActive l b) node := by
  refine ⟨h.free, h.node, fun l' p hl' => ?_⟩
  obtain ⟨b', hb'⟩ := h.link l' p hl'
  by_cases hl : l = l'
  · exact ⟨b, by simp [LinkState.setActive, hb', hl]⟩
  · exact ⟨b', by simp [LinkState.setActive, hb', hl]⟩

/-- A step of thread `t` at the cache. -/
theorem GoesOn.alone {as' : List LinkAct} {s' : LinkState} {node node' : Option Bytes} (ys : List LinkChoice)
    (h : GoesOn t as node d) (halone : linkProgram.alone t d.shared as ys = some (s', as'))
    (hcaches : CachesNode s' node') : Reaches d fun d' => GoesOn t as' node' d' ∧ d'.shared = s' :=
  ⟨ys.map (.run t), _, Program.run_alone h.1 halone,
    ⟨List.getElem?_set_self (List.getElem?_eq_some_iff.mp h.1).1, hcaches⟩, rfl⟩

/-- A link becomes active or goes stale. -/
theorem GoesOn.setActive {node : Option Bytes} (h : GoesOn t as node d) (l : Nat) (b : Bool) :
    Reaches d fun d' => GoesOn t as node d' ∧ d'.shared = d.shared.setActive l b := by
  have hthread : (d.threads ++ [])[t]? = some as := by simpa using h.1
  have hcaches := h.2.setActive l b
  cases b with
  | false => exact ⟨[.env (.goStale l)], ⟨_, d.threads ++ []⟩, rfl, ⟨hthread, hcaches⟩, rfl⟩
  | true => exact ⟨[.env (.activate l)], ⟨_, d.threads ++ []⟩, rfl, ⟨hthread, hcaches⟩, rfl⟩

/-- What a thread has come to when a send, or a part of one, returns, or does not. -/
def SendEnds (t : Nat) (rest : List LinkAct) (cleared : Option SendState)
    (d : Threads.Config LinkState LinkAct) : Prop :=
  match cleared with
  | none => SelfDeadlock d
  | some st => GoesOn t rest st.propLinkNode d

theorem clear_reaches (isActive : Bool) (st : SendState)
    (h : GoesOn t (clearLink .propagation ++ rest) st.propLinkNode d) :
    Reaches d (SendEnds t rest (st.clearPropagationLink isActive)) := by
  have y : LinkChoice := ⟨true, true, true, true⟩
  have hnode := h.2.node
  rw [SendState.clearPropagationLink]
  cases hst : st.propLinkNode with
  | none =>
    have hcached : d.shared.cached .propagation = none := by simpa [hst] using hnode
    have halone : linkProgram.alone t d.shared (clearLink .propagation ++ rest) [y, y, y] =
        some ({ d.shared with
          holder := Function.update (Function.update d.shared.holder .propagation (some t)) .propagation none },
          rest) := by
      simp [Program.alone, linkProgram, linkAct, clearLink, h.2.free, LinkState.clearLocked, hcached]
    exact (h.alone _ halone ⟨by simp, by simp [hst, hcached], h.2.link⟩).imp fun _ => And.left
  | some node =>
    obtain ⟨⟨l, p⟩, hcached, -⟩ : ∃ c, d.shared.cached .propagation = some c ∧ c.2 = node := by
      rw [hst] at hnode
      exact Option.map_eq_some_iff.mp hnode
    obtain ⟨b, hb⟩ := h.2.link l p hcached
    -- the link is as active as the send finds it
    refine (h.setActive l isActive).trans fun d₁ h' => ?_
    obtain ⟨h₁, hd₁⟩ := h'
    have hfree := h₁.2.free
    have hcached₁ : d₁.shared.cached .propagation = some (l, p) := by rw [hd₁]; exact hcached
    have hlink : d₁.shared.links[l]? = some ⟨.propagation, isActive⟩ := by
      rw [hd₁]
      simp [LinkState.setActive, hb]
    cases isActive with
    | true =>
      have halone : linkProgram.alone t d₁.shared (clearLink .propagation ++ rest) [y, y, y] =
          some ({ d₁.shared.setActive l false with
              holder := Function.update d₁.shared.holder .propagation (some t) },
            .lock .propagation :: [.closedLocked .propagation l, .unlock .propagation,
              .forgetLocked .propagation, .unlock .propagation] ++ rest) := by
        simp [Program.alone, linkProgram, linkAct, clearLink, hfree, LinkState.clearLocked, hcached₁,
          LinkState.teardown, hlink, closedCallback, LinkState.setActive]
      refine ⟨[y, y, y].map (.run t), _, Program.run_alone h₁.1 halone, t, .propagation, _,
        List.getElem?_set_self (List.getElem?_eq_some_iff.mp h₁.1).1, ?_⟩
      simp
    | false =>
      have halone : linkProgram.alone t d₁.shared (clearLink .propagation ++ rest) [y, y, y, y, y] =
          some ({ d₁.shared with
              holder := Function.update (Function.update d₁.shared.holder .propagation (some t)) .propagation none
              cached := Function.update d₁.shared.cached .propagation none }, rest) := by
        simp [Program.alone, linkProgram, linkAct, clearLink, hfree, LinkState.clearLocked, hcached₁,
          LinkState.teardown, hlink]
      exact (h₁.alone _ halone ⟨by simp, by simp, by simp⟩).imp fun _ => And.left

/-- A link to the node is established and cached. -/
theorem establish_reaches {node : Option Bytes} {peer : Bytes} {next : Next}
    (h : GoesOn t (.establish .propagation peer next :: rest) node d) :
    Reaches d (GoesOn t (.transfer next :: rest) (some peer)) := by
  let y : LinkChoice := ⟨true, true, false, true⟩
  have hrequest : linkProgram.alone t d.shared (.establish .propagation peer next :: rest) [y] =
      some ({ d.shared with links := d.shared.links ++ [⟨.propagation, false⟩] },
        .awaitActive .propagation d.shared.links.length peer next :: rest) := by
    simp [Program.alone, linkProgram, linkAct, y]
  have hcaches : CachesNode { d.shared with links := d.shared.links ++ [⟨.propagation, false⟩] } node := by
    refine ⟨h.2.free, h.2.node, fun l p hl => ?_⟩
    obtain ⟨b, hb⟩ := h.2.link l p hl
    exact ⟨b, by rw [List.getElem?_append_left (List.getElem?_eq_some_iff.mp hb).1, hb]⟩
  refine (h.alone _ hrequest hcaches).trans fun d₁ h' => ?_
  obtain ⟨h₁, hd₁⟩ := h'
  refine (h₁.setActive d.shared.links.length true).trans fun d₂ h' => ?_
  obtain ⟨h₂, hd₂⟩ := h'
  have hlink : d₂.shared.links[d.shared.links.length]? = some ⟨.propagation, true⟩ := by
    simp [hd₂, hd₁, LinkState.setActive]
  have hstore : linkProgram.alone t d₂.shared
      (.awaitActive .propagation d.shared.links.length peer next :: rest) [y, y, y, y] =
      some ({ d₂.shared with
          holder := Function.update (Function.update d₂.shared.holder .propagation (some t)) .propagation none
          cached := Function.update d₂.shared.cached .propagation (some (d.shared.links.length, peer)) },
        .transfer next :: rest) := by
    simp [Program.alone, linkProgram, linkAct, LinkState.isActive, hlink, h₂.2.free]
  refine (h₂.alone _ hstore ⟨by simp, by simp, fun l p hl => ?_⟩).imp fun _ => And.left
  simp only [Function.update_self, Option.some.injEq, Prod.mk.injEq] at hl
  obtain ⟨rfl, -⟩ := hl
  exact ⟨true, hlink⟩

variable {Identity : Type} (cr : Crypto Identity)

/-- What a thread has come to after an attempt. -/
def AttemptEnds (t : Nat) (nodes : List Bytes) (rest : List LinkAct) (tried : Option (SendState × AttemptOutcome))
    (d : Threads.Config LinkState LinkAct) : Prop :=
  match tried with
  | none => SelfDeadlock d
  | some (st, outcome) => GoesOn t (if outcome.continues then .attempt nodes :: rest else rest) st.propLinkNode d

theorem tryNode_reaches (env : AttemptEnv Identity) (node : PropagationNode) {nodes : List Bytes} {st : SendState}
    (h : GoesOn t (.attempt (node.hash :: nodes) :: rest) st.propLinkNode d) :
    Reaches d (AttemptEnds t nodes rest (tryNode cr env node st)) := by
  unfold tryNode
  generalize st.msg.packForPropagation cr env node.stampCost = packing
  obtain ⟨msg, packed⟩ := packing
  cases packed with
  | error e =>
    have halone : linkProgram.alone t d.shared (.attempt (node.hash :: nodes) :: rest)
        [⟨false, true, true, true⟩] = some (d.shared, rest) := by
      simp [Program.alone, linkProgram, linkAct]
    exact (h.alone _ halone h.2).imp fun _ => And.left
  | ok u =>
    have halone : linkProgram.alone t d.shared (.attempt (node.hash :: nodes) :: rest)
        [⟨true, true, true, true⟩] =
        some (d.shared, clearLink .propagation ++ .establish .propagation node.hash (.retry nodes) :: rest) := by
      simp [Program.alone, linkProgram, linkAct]
    refine (h.alone _ halone h.2).trans fun d₁ h' => ?_
    obtain ⟨h₁, -⟩ := h'
    have hclear := clear_reaches env.cachedActive { st with msg := msg } h₁
    dsimp only
    generalize ({ st with msg := msg } : SendState).clearPropagationLink env.cachedActive = cleared at hclear ⊢
    cases cleared with
    | none => exact hclear
    | some st₁ =>
      refine hclear.trans fun d₂ h₂ => ?_
      dsimp only [SendState.establishPropagationLink]
      cases env.establish node.hash with
      | error e =>
        have hfailed : linkProgram.alone t d₂.shared (.establish .propagation node.hash (.retry nodes) :: rest)
            [⟨true, false, true, true⟩] = some (d₂.shared, .attempt nodes :: rest) := by
          simp [Program.alone, linkProgram, linkAct, Next.failed]
        exact (h₂.alone _ hfailed h₂.2).imp fun _ => And.left
      | ok lnk =>
        refine (establish_reaches h₂).trans fun d₃ h₃ => ?_
        dsimp only [SendState.sendPropagationPayload]
        cases hsent : (lnk.sendPropagationPayload st₁.msg.propagationPacked).2 with
        | error e =>
          have hfailed : linkProgram.alone t d₃.shared (.transfer (.retry nodes) :: rest)
              [⟨true, true, true, false⟩] = some (d₃.shared, clearLink .propagation ++ .attempt nodes :: rest) := by
            simp [Program.alone, linkProgram, linkAct]
          refine (h₃.alone _ hfailed h₃.2).trans fun d₄ h' => ?_
          obtain ⟨h₄, -⟩ := h'
          have hclear := clear_reaches env.stillActive { st₁ with propLinkNode := some node.hash } h₄
          dsimp only
          generalize ({ st₁ with propLinkNode := some node.hash } : SendState).clearPropagationLink
            env.stillActive = cleared at hclear ⊢
          cases cleared <;> exact hclear
        | ok u =>
          have hdone : linkProgram.alone t d₃.shared (.transfer (.retry nodes) :: rest)
              [⟨true, true, true, true⟩] = some (d₃.shared, rest) := by
            simp [Program.alone, linkProgram, linkAct]
          exact (h₃.alone _ hdone h₃.2).imp fun _ => And.left

/-- A send with retries is a run of the cached links. If it does not return, its thread waits
for a mutex that it holds. -/
theorem retryLoop_reaches (env : Nat → AttemptEnv Identity) (maxAttempts i : Nat) (nodes : List PropagationNode)
    (lastErr : Option RetryError) {st : SendState}
    (h : GoesOn t (.attempt (nodes.map PropagationNode.hash) :: rest) st.propLinkNode d) :
    Reaches d (SendEnds t rest ((retryLoop cr env maxAttempts i nodes lastErr st).map Prod.fst)) := by
  induction nodes generalizing i lastErr st d with
  | nil =>
    have halone : linkProgram.alone t d.shared (.attempt [] :: rest) [⟨true, true, true, true⟩] =
        some (d.shared, rest) := by
      simp [Program.alone, linkProgram, linkAct]
    exact (h.alone _ halone h.2).imp fun _ => And.left
  | cons node nodes ih =>
    refine (tryNode_reaches cr (env i) node h).trans fun d₁ h₁ => ?_
    rw [retryLoop]
    cases htried : tryNode cr (env i) node st with
    | none => exact ⟨[], d₁, rfl, by rw [htried] at h₁; exact h₁⟩
    | some tried =>
      obtain ⟨st₁, outcome⟩ := tried
      rw [htried] at h₁
      cases outcome with
      | packFailed e => exact ⟨[], d₁, rfl, h₁⟩
      | linkFailed e => exact ih (i + 1) (some e) h₁
      | transferFailed e => exact ih (i + 1) (some e) h₁
      | sent => exact ⟨[], d₁, rfl, h₁⟩

end

end Lxmf
