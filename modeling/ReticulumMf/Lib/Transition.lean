-- SUMMARY: Runs of a partial step function, and the rules for invariants along them.
import Mathlib.Data.List.Induction
import Mathlib.Data.Option.Basic

/-!
# Runs

A system is a partial step function: `step s e` is the state after event `e`, or
none if `e` is not possible in `s`. A run is a list of events. The rules turn
what one step preserves into what every run preserves, for invariants that hold
always and for those that hold as long as each step meets a condition.
-/

namespace Transition

variable {σ ε : Type} (step : σ → ε → Option σ)

def run : σ → List ε → Option σ
  | s, [] => some s
  | s, e :: es => (step s e).bind fun s' => run s' es

/-- Every step of the run meets `Good`. -/
def AllSteps (Good : σ → ε → Prop) : σ → List ε → Prop
  | _, [] => True
  | s, e :: es => ∀ s', step s e = some s' → Good s e ∧ AllSteps Good s' es

/-- Every state of the run satisfies `P`, the first and the last included. -/
def AllStates (P : σ → Prop) : σ → List ε → Prop
  | s, [] => P s
  | s, e :: es => P s ∧ ∀ s', step s e = some s' → AllStates P s' es

instance decidableAllSteps {Good : σ → ε → Prop} [∀ s e, Decidable (Good s e)] :
    ∀ (s : σ) (es : List ε), Decidable (AllSteps step Good s es)
  | _, [] => .isTrue trivial
  | s, e :: es =>
    match h : step s e with
    | none => .isTrue fun s' hs' => by simp [h] at hs'
    | some m =>
      have : Decidable (AllSteps step Good m es) := decidableAllSteps m es
      decidable_of_iff (Good s e ∧ AllSteps step Good m es) <| by
        simp only [AllSteps, h, Option.some.injEq, forall_eq']

variable {step} {Inv : σ → Prop} {Good : σ → ε → Prop}

theorem run_cons {s s' : σ} {e : ε} {es : List ε} :
    run step s (e :: es) = some s' ↔ ∃ m, step s e = some m ∧ run step m es = some s' :=
  Option.bind_eq_some_iff

theorem run_append {s s' : σ} {es es' : List ε} :
    run step s (es ++ es') = some s' ↔ ∃ m, run step s es = some m ∧ run step m es' = some s' := by
  induction es generalizing s with
  | nil => simp [run]
  | cons e es ih => simp only [List.cons_append, run_cons, ih]; grind

theorem run_snoc {s m s' : σ} {es : List ε} {e : ε} (h : run step s es = some m)
    (h' : step m e = some s') : run step s (es ++ [e]) = some s' :=
  run_append.mpr ⟨m, h, run_cons.mpr ⟨s', h', rfl⟩⟩

theorem AllSteps.trivial (s : σ) (es : List ε) : AllSteps step (fun _ _ => True) s es := by
  induction es generalizing s with
  | nil => exact True.intro
  | cons e es ih => exact fun s' _ => ⟨True.intro, ih s'⟩

theorem AllSteps.and {Good Good' : σ → ε → Prop} {s : σ} {es : List ε}
    (h : AllSteps step Good s es) (h' : AllSteps step Good' s es) :
    AllSteps step (fun s e => Good s e ∧ Good' s e) s es := by
  induction es generalizing s with
  | nil => exact True.intro
  | cons e es ih =>
    intro m hm
    obtain ⟨hgood, hrest⟩ := h m hm
    obtain ⟨hgood', hrest'⟩ := h' m hm
    exact ⟨⟨hgood, hgood'⟩, ih hrest hrest'⟩

theorem AllSteps.imp {Good Good' : σ → ε → Prop} (himp : ∀ s e, Good s e → Good' s e) {s : σ} {es : List ε}
    (h : AllSteps step Good s es) : AllSteps step Good' s es := by
  induction es generalizing s with
  | nil => exact True.intro
  | cons e es ih =>
    intro m hm
    obtain ⟨hgood, hrest⟩ := h m hm
    exact ⟨himp s e hgood, ih hrest⟩

theorem allSteps_mem (s : σ) (es : List ε) : AllSteps step (fun _ e => e ∈ es) s es := by
  suffices h : ∀ es' : List ε, (∀ e ∈ es', e ∈ es) → ∀ s, AllSteps step (fun _ e => e ∈ es) s es' from
    h es (fun _ he => he) s
  intro es' hmem
  induction es' with
  | nil => exact fun _ => True.intro
  | cons e es' ih =>
    intro s s' _
    exact ⟨hmem e List.mem_cons_self, ih (fun e he => hmem e (List.mem_cons_of_mem _ he)) s'⟩

/-- The steps of a run are those of its first part and those of its second. -/
theorem AllSteps.of_append {Good : σ → ε → Prop} {s m : σ} {es es' : List ε}
    (h : AllSteps step Good s (es ++ es')) (hrun : run step s es = some m) :
    AllSteps step Good s es ∧ AllSteps step Good m es' := by
  induction es generalizing s with
  | nil =>
    cases hrun
    exact ⟨True.intro, h⟩
  | cons e es ih =>
    obtain ⟨n, hn, hrun⟩ := run_cons.mp hrun
    obtain ⟨hgood, hrest⟩ := h n hn
    obtain ⟨hfirst, hsecond⟩ := ih hrest hrun
    refine ⟨fun n' hn' => ?_, hsecond⟩
    cases hn.symm.trans hn'
    exact ⟨hgood, hfirst⟩

theorem AllStates.first {P : σ → Prop} {s : σ} {es : List ε} (h : AllStates step P s es) : P s := by
  cases es with
  | nil => exact h
  | cons e es => exact h.1

theorem AllStates.last {P : σ → Prop} {s s' : σ} {es : List ε} (h : AllStates step P s es)
    (hrun : run step s es = some s') : P s' := by
  induction es generalizing s with
  | nil =>
    cases hrun
    exact h
  | cons e es ih =>
    obtain ⟨m, hm, hrun⟩ := run_cons.mp hrun
    exact ih (h.2 m hm) hrun

theorem AllStates.imp {P Q : σ → Prop} (hPQ : ∀ s, P s → Q s) {s : σ} {es : List ε}
    (h : AllStates step P s es) : AllStates step Q s es := by
  induction es generalizing s with
  | nil => exact hPQ s h
  | cons e es ih => exact ⟨hPQ s h.1, fun s' hs' => ih (h.2 s' hs')⟩

/-- An invariant that each good step preserves holds along a run of good steps. -/
theorem allStates_of_good
    (hstep : ∀ {s e s'}, Inv s → step s e = some s' → Good s e → Inv s')
    {s : σ} {es : List ε} (hs : Inv s) (hgood : AllSteps step Good s es) :
    AllStates step Inv s es := by
  induction es generalizing s with
  | nil => exact hs
  | cons e es ih =>
    refine ⟨hs, fun s' hs' => ?_⟩
    obtain ⟨hgood, hrest⟩ := hgood s' hs'
    exact ih (hstep hs hs' hgood) hrest

/-- And so it holds in the state a run of good steps ends in. -/
theorem run_of_good
    (hstep : ∀ {s e s'}, Inv s → step s e = some s' → Good s e → Inv s')
    {s s' : σ} {es : List ε} (hs : Inv s) (hgood : AllSteps step Good s es)
    (hrun : run step s es = some s') : Inv s' := by
  induction es generalizing s with
  | nil =>
    cases hrun
    exact hs
  | cons e es ih =>
    obtain ⟨m, hm, hrun⟩ := run_cons.mp hrun
    obtain ⟨hgood, hrest⟩ := hgood m hm
    exact ih (hstep hs hm hgood) hrest hrun

/-- An invariant of every step holds at the end of every run. -/
theorem run_invariant (hstep : ∀ {s e s'}, Inv s → step s e = some s' → Inv s')
    {s s' : σ} {es : List ε} (hs : Inv s) (hrun : run step s es = some s') : Inv s' :=
  run_of_good (fun h h' _ => hstep h h') hs (AllSteps.trivial s es) hrun

/-- An invariant that speaks of the events so far. -/
theorem run_history (Past : List ε → σ → Prop) {s s' : σ} (hs : Past [] s)
    (hstep : ∀ {es s e s'}, Past es s → step s e = some s' → Past (es ++ [e]) s') {es : List ε}
    (hrun : run step s es = some s') : Past es s' := by
  induction es using List.reverseRecOn generalizing s' with
  | nil =>
    cases hrun
    exact hs
  | append_singleton es e ih =>
    obtain ⟨m, hm, hrun⟩ := run_append.mp hrun
    obtain ⟨n, hn, hrun⟩ := run_cons.mp hrun
    cases hrun
    exact hstep (ih hm) hn

/-- For an invariant that refers to the events of the run, a step is one of them. -/
theorem run_within {es : List ε} (hstep : ∀ {s e s'}, Inv s → e ∈ es → step s e = some s' → Inv s')
    {s s' : σ} (hs : Inv s) (hrun : run step s es = some s') : Inv s' :=
  run_of_good (fun h h' he => hstep h he h') hs (allSteps_mem s es) hrun

/-- Every step of a run is good if a step from an invariant state is. -/
theorem allSteps_of_invariant (hstep : ∀ {s e s'}, Inv s → step s e = some s' → Inv s')
    (hgood : ∀ {s e s'}, Inv s → step s e = some s' → Good s e) {s : σ} {es : List ε} (hs : Inv s) :
    AllSteps step Good s es := by
  induction es generalizing s with
  | nil => exact True.intro
  | cons e es ih => exact fun s' hs' => ⟨hgood hs hs', ih (hstep hs hs')⟩

/-- If a step preserves `Inv` exactly when it is good, `Inv` holds along exactly
the runs of good steps. `Base` is what else holds along such runs. -/
theorem allStates_iff_allSteps {Base : σ → Prop}
    (hbase : ∀ {s e s'}, Base s → Inv s → step s e = some s' → Good s e → Base s')
    (hstep : ∀ {s e s'}, Base s → Inv s → step s e = some s' → (Inv s' ↔ Good s e))
    {s : σ} {es : List ε} (hs : Base s) (hinv : Inv s) :
    AllStates step Inv s es ↔ AllSteps step Good s es := by
  induction es generalizing s with
  | nil => exact iff_of_true hinv True.intro
  | cons e es ih =>
    constructor
    · rintro ⟨-, h⟩ s' hs'
      have hinv' := (h s' hs').first
      have hgood := (hstep hs hinv hs').mp hinv'
      exact ⟨hgood, (ih (hbase hs hinv hs' hgood) hinv').mp (h s' hs')⟩
    · intro h
      refine ⟨hinv, fun s' hs' => ?_⟩
      obtain ⟨hgood, hrest⟩ := h s' hs'
      have hinv' := (hstep hs hinv hs').mpr hgood
      exact (ih (hbase hs hinv hs' hgood) hinv').mpr hrest

/-! ## Histories -/

section History

variable {γ : Type} {note : σ → ε → γ → γ}

/-- The system together with a record of what has happened, which it does not read. -/
def recorded (step : σ → ε → Option σ) (note : σ → ε → γ → γ) (p : σ × γ) (e : ε) :
    Option (σ × γ) :=
  (step p.1 e).map fun s' => (s', note p.1 e p.2)

theorem recorded_eq_some {p p' : σ × γ} {e : ε} (h : recorded step note p e = some p') :
    step p.1 e = some p'.1 ∧ p'.2 = note p.1 e p.2 := by
  obtain ⟨s', hs', rfl⟩ := Option.map_eq_some_iff.mp h
  exact ⟨hs', rfl⟩

end History

end Transition
