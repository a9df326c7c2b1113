-- SUMMARY: Inversion of successful computations in `Except`.
import Mathlib.Logic.Basic

/-!
# Inversion in `Except`

How a successful `bind`, `map`, `mapError` or fold came about.
-/

namespace Except

variable {ε ε' α β : Type}

@[simp] theorem ok_bind (a : α) (f : α → Except ε β) : (Except.ok a >>= f) = f a := rfl

theorem bind_eq_ok_iff {x : Except ε α} {f : α → Except ε β} {b : β} :
    (x >>= f) = .ok b ↔ ∃ a, x = .ok a ∧ f a = .ok b := by
  cases x <;> simp [bind, Except.bind]

theorem map_eq_ok_iff {x : Except ε α} {f : α → β} {b : β} :
    f <$> x = .ok b ↔ ∃ a, x = .ok a ∧ f a = b := by
  cases x <;> simp [Functor.map, Except.map]

@[simp] theorem mapError_eq_ok_iff {x : Except ε α} {f : ε → ε'} {a : α} :
    x.mapError f = .ok a ↔ x = .ok a := by
  cases x with
  | error e => exact iff_of_false (fun h => by cases h) (fun h => by cases h)
  | ok b =>
    have hok : (Except.ok b : Except ε α).mapError f = .ok b := rfl
    rw [hok, Except.ok.injEq, Except.ok.injEq]

@[simp] theorem pure_eq_ok_iff {a b : α} : (pure a : Except ε α) = .ok b ↔ a = b := by
  simp [pure, Except.pure]

theorem toOption_map {x : Except ε α} {f : α → β} : (f <$> x).toOption = x.toOption.map f := by
  cases x <;> rfl

theorem toOption_eq_some_iff {x : Except ε α} {a : α} : x.toOption = some a ↔ x = .ok a := by
  cases x <;> simp [Except.toOption]

theorem mapM_ok (f : α → Except ε β) (xs : List α) (h : ∀ x ∈ xs, ∃ y, f x = .ok y) :
    ∃ ys, xs.mapM f = .ok ys := by
  induction xs with
  | nil => exact ⟨[], rfl⟩
  | cons x xs ih =>
    obtain ⟨y, hy⟩ := h x (by simp)
    obtain ⟨ys, hys⟩ := ih fun z hz => h z (by simp [hz])
    exact ⟨y :: ys, by rw [List.mapM_cons, hy]; simp [bind, Except.bind, hys, pure, Except.pure]⟩

/-- What every successful step keeps holds after a successful fold. -/
theorem foldlM_invariant {f : β → α → Except ε β} {P : β → Prop} {xs : List α} {s s' : β}
    (h : xs.foldlM f s = .ok s') (hs : P s)
    (hstep : ∀ s, ∀ x ∈ xs, ∀ s', P s → f s x = .ok s' → P s') : P s' := by
  induction xs generalizing s with
  | nil =>
    cases h
    exact hs
  | cons x xs ih =>
    rw [List.foldlM_cons, bind_eq_ok_iff] at h
    obtain ⟨s₁, hx, hxs⟩ := h
    exact ih hxs (hstep s x List.mem_cons_self s₁ hs hx) fun s y hy => hstep s y (List.mem_cons_of_mem x hy)

/-- In a successful fold every step succeeds. -/
theorem foldlM_forall {f : β → α → Except ε β} {xs : List α} {s s' : β} (h : xs.foldlM f s = .ok s') :
    ∀ x ∈ xs, ∃ s₀ s₁, f s₀ x = .ok s₁ := by
  induction xs generalizing s with
  | nil => exact fun x hx => absurd hx List.not_mem_nil
  | cons y xs ih =>
    rw [List.foldlM_cons, bind_eq_ok_iff] at h
    obtain ⟨s₁, hy, hxs⟩ := h
    intro x hx
    cases List.mem_cons.mp hx with
    | inl heq => exact ⟨s, s₁, heq ▸ hy⟩
    | inr hmem => exact ih hxs x hmem

end Except
