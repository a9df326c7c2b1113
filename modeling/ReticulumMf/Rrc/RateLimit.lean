-- SUMMARY: The rate limit of the hub as an exact sliding window.
import ReticulumMf.Lib.Slice
import ReticulumMf.Rrc.Hub

/-!
# The rate limit

`allowRate` keeps the times of the accepted messages of the last minute in `msgTimes`, which
it filters in place. It accepts as many messages as the limit in every minute, and
rejects no other (`rate_window_exact`).
-/

namespace Rrc

/-- `msgTimes` as `acceptLink` makes it. -/
def newMsgTimes : Slice Int := .make 0 8

/-- `allowRate` on the slice of the times. -/
def allowRateSlice (limit : Nat) (now : Int) (msgTimes : Slice Int) : Slice Int × Bool :=
  if limit = 0 then (msgTimes, true)
  else
    let cutoff := now - minute
    let kept := msgTimes.filterInPlace fun t => cutoff < t
    if kept.len ≥ limit then (kept, false) else (kept.append now, true)

/-- The hub's `allowRate` is that on the slice. -/
theorem allowRate_elems (limit : Nat) (now : Int) (p : HubPeer) (s : Slice Int) (hs : p.msgTimes = s.elems) :
    p.allowRate limit now =
      ({ p with msgTimes := (allowRateSlice limit now s).1.elems }, (allowRateSlice limit now s).2) := by
  simp only [HubPeer.allowRate, allowRateSlice, hs]
  split
  · rw [← hs]
  · rw [← Slice.length_elems, Slice.elems_filterInPlace]
    split <;> simp

/-- The slice of the times, and all times that have been accepted. -/
structure RateState where
  msgTimes : Slice Int
  accepted : List Int

/-- One call of `allowRate`. -/
def RateState.call (limit : Nat) (s : RateState) (now : Int) : RateState :=
  let (msgTimes, allowed) := allowRateSlice limit now s.msgTimes
  ⟨msgTimes, if allowed then s.accepted ++ [now] else s.accepted⟩

/-- The calls of one peer at the given times. -/
def rateCalls (limit : Nat) (times : List Int) : RateState :=
  times.foldl (RateState.call limit) ⟨newMsgTimes, []⟩

/-- The time lies in the window that ends at `t`. -/
def inWindow (t a : Int) : Bool := t - minute < a ∧ a ≤ t

/-- After the calls at `times`, a call at `now` is accepted exactly if there is room in the
window that ends there; `msgTimes` then holds what was accepted in the window; and no window
has more than `limit` accepted calls. -/
structure WindowExact (limit : Nat) (times : List Int) (now : Int) : Prop where
  accepted : (allowRateSlice limit now (rateCalls limit times).msgTimes).2 = true ↔
    (rateCalls limit times).accepted.countP (inWindow now) < limit
  recorded : (rateCalls limit (times ++ [now])).msgTimes.elems =
    (rateCalls limit (times ++ [now])).accepted.filter (inWindow now)
  bounded : ∀ t, (rateCalls limit (times ++ [now])).accepted.countP (inWindow t) ≤ limit

/-! ## One call -/

/-- After a call at `last`. -/
structure RateInv (limit : Nat) (last : Int) (s : RateState) : Prop where
  past : ∀ a ∈ s.accepted, a ≤ last
  recorded : s.msgTimes.elems = s.accepted.filter (inWindow last)
  bounded : ∀ t, s.accepted.countP (inWindow t) ≤ limit

theorem rateInv_init (limit : Nat) (last : Int) : RateInv limit last ⟨newMsgTimes, []⟩ :=
  ⟨fun _ h => absurd h List.not_mem_nil, rfl, fun _ => Nat.zero_le _⟩

section

variable {limit : Nat} {last now : Int} {s : RateState}

/-- What is left after the times before the window have been dropped. -/
theorem RateInv.kept (h : RateInv limit last s) (hle : last ≤ now) :
    (s.msgTimes.filterInPlace fun t => now - minute < t).elems = s.accepted.filter (inWindow now) := by
  rw [Slice.elems_filterInPlace, h.recorded, List.filter_filter]
  refine List.filter_congr fun a ha => ?_
  have hpast := h.past a ha
  simp only [inWindow, ← Bool.decide_and, decide_eq_decide]
  omega

theorem RateInv.allowed_iff (h : RateInv limit last s) (hle : last ≤ now) (hlimit : limit ≠ 0) :
    (allowRateSlice limit now s.msgTimes).2 = true ↔ s.accepted.countP (inWindow now) < limit := by
  have hlen : (s.msgTimes.filterInPlace fun t => now - minute < t).len = s.accepted.countP (inWindow now) := by
    rw [← Slice.length_elems, h.kept hle, List.countP_eq_length_filter]
  simp only [allowRateSlice, if_neg hlimit, hlen]
  split
  · exact iff_of_false Bool.false_ne_true (by omega)
  · exact iff_of_true rfl (by omega)

/-- A window with room at its end has at most one more call afterwards. -/
theorem countP_concat_le {as : List Int} (hpast : ∀ a ∈ as, a ≤ now) (hroom : as.countP (inWindow now) < limit)
    (hbound : ∀ t, as.countP (inWindow t) ≤ limit) (t : Int) : (as ++ [now]).countP (inWindow t) ≤ limit := by
  rw [List.countP_append, List.countP_singleton]
  split
  · rename_i hin
    -- what lies in the window that ends at t lies in the one that ends now
    have hmono : as.countP (inWindow t) ≤ as.countP (inWindow now) := by
      refine List.countP_mono_left fun a ha hwin => ?_
      have hle := hpast a ha
      simp only [inWindow, decide_eq_true_eq] at hin hwin ⊢
      omega
    omega
  · exact hbound t

theorem RateInv.call (h : RateInv limit last s) (hle : last ≤ now) (hlimit : limit ≠ 0) :
    RateInv limit now (s.call limit now) := by
  have hallowed := h.allowed_iff hle hlimit
  have hkept := h.kept hle
  have hpast (a : Int) (ha : a ∈ s.accepted) : a ≤ now := (h.past a ha).trans hle
  simp only [allowRateSlice, if_neg hlimit] at hallowed
  simp only [RateState.call, allowRateSlice, if_neg hlimit]
  split at hallowed
  · rename_i hfull
    rw [if_pos hfull]
    exact ⟨hpast, hkept, h.bounded⟩
  · rename_i hroom
    rw [if_neg hroom]
    have hnow : inWindow now now = true := by
      simp [inWindow, minute]
    refine ⟨fun a ha => ?_, ?_, countP_concat_le hpast (hallowed.mp rfl) h.bounded⟩
    · rcases List.mem_append.mp ha with hold | hnew
      · exact hpast a hold
      · exact (List.mem_singleton.mp hnew).le
    · rw [if_pos rfl, Slice.elems_append, hkept, List.filter_append, List.filter_cons_of_pos hnow, List.filter_nil]

end

/-! ## All calls -/

theorem rateCalls_concat (limit : Nat) (times : List Int) (now : Int) :
    rateCalls limit (times ++ [now]) = (rateCalls limit times).call limit now :=
  List.foldl_concat ..

theorem rateCalls_inv {limit : Nat} (hlimit : limit ≠ 0) {times : List Int} {now : Int}
    (hsorted : (times ++ [now]).Pairwise (· ≤ ·)) :
    ∃ last, last ≤ now ∧ RateInv limit last (rateCalls limit times) := by
  induction times using List.reverseRecOn generalizing now with
  | nil => exact ⟨now, Int.le_refl now, rateInv_init limit now⟩
  | append_singleton times last ih =>
    rw [List.pairwise_append] at hsorted
    obtain ⟨hbefore, -, hlast⟩ := hsorted
    obtain ⟨last', hle, hinv⟩ := ih hbefore
    rw [rateCalls_concat]
    exact ⟨last, hlast last (by simp) now (by simp), hinv.call hle hlimit⟩

theorem rate_window_exact {limit : Nat} (hlimit : 1 ≤ limit) {times : List Int} {now : Int}
    (hsorted : (times ++ [now]).Pairwise (· ≤ ·)) : WindowExact limit times now := by
  have hne : limit ≠ 0 := Nat.ne_of_gt hlimit
  obtain ⟨last, hle, hinv⟩ := rateCalls_inv hne hsorted
  have hcall := hinv.call hle hne
  rw [← rateCalls_concat] at hcall
  exact ⟨hinv.allowed_iff hle hne, hcall.recorded, hcall.bounded⟩

/-- Two calls are allowed in a minute; the third is too early. -/
theorem third_call_windowed :
    ([0, 1, 59999999999] ++ [60000000000] : List Int).Pairwise (· ≤ ·) ∧
      WindowExact 2 [0, 1, 59999999999] 60000000000 :=
  ⟨by decide, rate_window_exact (by decide) (by decide)⟩

end Rrc
