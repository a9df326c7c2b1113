-- SUMMARY: Sorting by a comparison function, and the orders in which a map is visited.
import Mathlib.Data.List.Sort
import Mathlib.Data.List.Lex
import Mathlib.Data.Prod.Lex

/-!
# Sorting

A sorter returns its input in some order that the comparison function allows; elements
that the comparison does not tell apart come in any order. If the comparison compares
keys, and no two elements have the same key, the result is the one strictly increasing
list of the elements (`Sorter.pairwise_key`), whatever order they came in (`eq_of_perm_of_pairwise`).
-/

namespace Sorting

variable {α β : Type}

/-- A strict weak order. -/
structure IsWeakOrder (less : α → α → Bool) : Prop where
  irrefl : ∀ a, less a a = false
  trans : ∀ a b c, less a b = true → less b c = true → less a c = true
  negTrans : ∀ a b c, less a b = false → less b c = false → less a c = false

structure Sorter (α : Type) where
  sort : (α → α → Bool) → List α → List α
  perm : ∀ less l, (sort less l).Perm l
  sorted : ∀ less l, IsWeakOrder less → (sort less l).Pairwise fun a b => less b a = false

/-- The order in which the entries of a map are visited. -/
structure Visit (α : Type) where
  order : List α → List α
  perm : ∀ l, (order l).Perm l

def Sorter.merge (α : Type) : Sorter α where
  sort less l := l.mergeSort fun a b => !less b a
  perm _ l := List.mergeSort_perm l _
  sorted less l h := by
    have hle : (l.mergeSort fun a b => !less b a).Pairwise fun a b => (!less b a) = true :=
      List.pairwise_mergeSort (fun a b c hab hbc => by
        simp only [Bool.not_eq_true'] at hab hbc ⊢
        exact h.negTrans c b a hbc hab)
      (fun a b => by
        cases hab : less b a with
        | false => rfl
        | true =>
          have hba : less a b = false := by
            by_contra hne
            have hself := h.trans a b a (Bool.of_not_eq_false hne) hab
            rw [h.irrefl] at hself
            cases hself
          simp [hba]) l
    exact hle.imp fun hab => by simpa using hab

def Visit.listed (α : Type) : Visit α := ⟨id, fun _ => .refl _⟩
def Visit.reversed (α : Type) : Visit α := ⟨List.reverse, List.reverse_perm⟩

/-! ## Sorting by a key -/

variable [LinearOrder β] {less : α → α → Bool} {key : α → β}

/-- The comparison function compares keys. -/
def ComparesBy (less : α → α → Bool) (key : α → β) : Prop := ∀ a b, less a b = decide (key a < key b)

theorem ComparesBy.false_iff (h : ComparesBy less key) {a b : α} : less a b = false ↔ key b ≤ key a := by
  rw [h, decide_eq_false_iff_not, not_lt]

theorem ComparesBy.isWeakOrder (h : ComparesBy less key) : IsWeakOrder less where
  irrefl _ := h.false_iff.mpr le_rfl
  trans a b c hab hbc := by
    rw [h, decide_eq_true_iff] at hab hbc ⊢
    exact hab.trans hbc
  negTrans a b c hab hbc := h.false_iff.mpr ((h.false_iff.mp hbc).trans (h.false_iff.mp hab))

theorem Sorter.pairwise_key (s : Sorter α) (h : ComparesBy less key) {l : List α} (hl : (l.map key).Nodup) :
    (s.sort less l).Pairwise fun a b => key a < key b := by
  have hle : (s.sort less l).Pairwise fun a b => key a ≤ key b :=
    (s.sorted less l h.isWeakOrder).imp fun hab => h.false_iff.mp hab
  have hne : (s.sort less l).Pairwise fun a b => key a ≠ key b :=
    List.pairwise_map.mp (((s.perm less l).map key).nodup_iff.mpr hl)
  exact hle.imp₂ (fun a b hab hkey => lt_of_le_of_ne hab hkey) hne

/-- A list is determined by its elements if its keys increase strictly. -/
theorem eq_of_perm_of_pairwise {l l' : List α} (hl : l.Pairwise fun a b => key a < key b)
    (hl' : l'.Pairwise fun a b => key a < key b) (hperm : l.Perm l') : l = l' :=
  List.Perm.eq_of_pairwise (fun _ _ _ _ hab hba => absurd hab (lt_asymm hba)) hl hl' hperm

end Sorting
