-- SUMMARY: Slices over a backing array, appending, and filtering in place.
import Mathlib.Data.List.Basic

/-!
# Slices

A slice is the first part of a backing array. Appending writes into the array while there
is room. A loop that appends what it keeps to the empty part of the slice it reads writes
over elements that it has read already, and so it filters the slice.
-/

structure Slice (α : Type) where
  array : List α
  len : Nat
  len_le : len ≤ array.length

namespace Slice

variable {α : Type}

def elems (s : Slice α) : List α := s.array.take s.len

@[simp] theorem length_elems (s : Slice α) : s.elems.length = s.len := by
  rw [elems, List.length_take, Nat.min_eq_left s.len_le]

/-- A slice of length 0 over an array of `cap` zero values. -/
def make (zero : α) (cap : Nat) : Slice α := ⟨List.replicate cap zero, 0, Nat.zero_le _⟩

/-- Appending moves to a new array only if the old one is full. -/
def append (s : Slice α) (x : α) : Slice α :=
  if h : s.len < s.array.length then ⟨s.array.set s.len x, s.len + 1, by rw [List.length_set]; exact h⟩
  else ⟨s.elems ++ [x], s.len + 1, by simp⟩

@[simp] theorem elems_append (s : Slice α) (x : α) : (s.append x).elems = s.elems ++ [x] := by
  unfold append
  split
  · rename_i h
    rw [elems, List.take_succ_eq_append_getElem (by simpa using h), List.getElem_set_self,
      List.take_set_of_le (Nat.le_refl _), elems]
  · exact List.take_of_length_le (by simp)

/-- The loop over the elements from `i` on, `n` of them, that appends to `kept` those to
keep. It reads from the array that `kept` is written to. -/
def filterLoop (keep : α → Bool) : Nat → Nat → Slice α → Slice α
  | 0, _, kept => kept
  | n + 1, i, kept =>
    match kept.array[i]? with
    | none => kept
    | some x => filterLoop keep n (i + 1) (if keep x then kept.append x else kept)

/-- Filter a slice in its own array. -/
def filterInPlace (keep : α → Bool) (s : Slice α) : Slice α :=
  filterLoop keep s.len 0 ⟨s.array, 0, Nat.zero_le _⟩

/-- What is kept never overtakes what is read. -/
theorem elems_filterLoop (keep : α → Bool) {n i : Nat} {kept : Slice α} (hkept : kept.len ≤ i)
    (hn : i + n ≤ kept.array.length) :
    (filterLoop keep n i kept).elems = kept.elems ++ ((kept.array.drop i).take n).filter keep := by
  induction n generalizing i kept with
  | zero => simp [filterLoop]
  | succ n ih =>
    have hi : i < kept.array.length := by omega
    have hread : (kept.array.drop i).take (n + 1) = kept.array[i] :: (kept.array.drop (i + 1)).take n := by
      rw [List.drop_eq_getElem_cons hi, List.take_succ_cons]
    simp only [filterLoop, List.getElem?_eq_getElem hi, hread]
    cases hkeep : keep kept.array[i] with
    | false =>
      rw [if_neg Bool.false_ne_true, ih (by omega) (by omega), List.filter_cons_of_neg (by simp [hkeep])]
    | true =>
      have happend : kept.append kept.array[i] =
          ⟨kept.array.set kept.len kept.array[i], kept.len + 1, by simp; omega⟩ :=
        dif_pos (by omega)
      have hdrop : (kept.append kept.array[i]).array.drop (i + 1) = kept.array.drop (i + 1) := by
        rw [happend]
        exact List.drop_set_of_lt (by omega)
      rw [if_pos rfl, ih, hdrop, elems_append, List.filter_cons_of_pos hkeep, List.append_assoc]
      · rfl
      · rw [happend]
        exact Nat.succ_le_succ hkept
      · rw [happend, List.length_set]
        omega

@[simp] theorem elems_filterInPlace (keep : α → Bool) (s : Slice α) :
    (s.filterInPlace keep).elems = s.elems.filter keep := by
  rw [filterInPlace, elems_filterLoop keep (Nat.le_refl 0) (by simpa using s.len_le)]
  rfl

end Slice
