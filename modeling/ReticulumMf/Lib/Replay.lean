-- SUMMARY: A set kept up to date from a log of changes, which may be applied out of order between keys.
import Mathlib.Data.Set.Basic

/-!
# Replay

One party changes a set and logs each change; another has an older copy and
applies the changes it hears of. Replaying what is outstanding on the copy gives
the set. That stays so when the copy takes a change from the middle of the log,
as long as no older change of the same key is outstanding.
-/

namespace Replay

/-- A key enters the set, or leaves it. -/
structure Change (κ : Type) where
  key : κ
  present : Bool
  deriving DecidableEq, Repr

variable {κ : Type} {S : Set κ} {ch ch' : Change κ} {log log' : List (Change κ)}

def Change.apply (ch : Change κ) (S : Set κ) : Set κ :=
  {k | k = ch.key ∧ ch.present = true ∨ k ≠ ch.key ∧ k ∈ S}

def replay (S : Set κ) (log : List (Change κ)) : Set κ := log.foldl (fun S ch => ch.apply S) S

@[simp]
theorem replay_cons : replay S (ch :: log) = replay (ch.apply S) log := rfl

theorem replay_append : replay S (log ++ log') = replay (replay S log) log' := List.foldl_append

theorem Change.apply_comm (hne : ch.key ≠ ch'.key) :
    ch.apply (ch'.apply S) = ch'.apply (ch.apply S) := by
  ext k
  simp only [Change.apply, Set.mem_ofPred_eq]
  grind

variable [DecidableEq κ]

/-- The change is the oldest one of its key in the log. -/
def isOldest (ch : Change κ) (log : List (Change κ)) : Bool :=
  log.find? (·.key = ch.key) = some ch

/-- Applying the oldest change of a key and striking it from the log. -/
theorem replay_erase (h : isOldest ch log = true) : replay (ch.apply S) (log.erase ch) = replay S log := by
  induction log generalizing S with
  | nil => cases h
  | cons first log ih =>
    have h' : (first :: log).find? (·.key = ch.key) = some ch := of_decide_eq_true h
    by_cases hkey : first.key = ch.key
    · have hfirst : first = ch := by simpa [List.find?_cons, hkey] using h'
      rw [hfirst, List.erase_cons_head, replay_cons]
    · have hne : first ≠ ch := fun heq => hkey (congrArg Change.key heq)
      have hrest : isOldest ch log = true :=
        decide_eq_true (by simpa [List.find?_cons, hkey] using h')
      rw [List.erase_cons_tail (by simpa using hne), replay_cons, replay_cons,
        Change.apply_comm hkey, ih hrest]

theorem mem_of_isOldest (h : isOldest ch log = true) : ch ∈ log :=
  List.mem_of_find?_eq_some (of_decide_eq_true h)

end Replay
