-- SUMMARY: What one thread does while the others interfere, and the calls it makes.
import ReticulumMf.Lib.Threads

/-!
# Calls

A call is an action with all that it pushes. The other threads may run between
any two of its steps, so what is known of a call is the list of the steps taken:
the state each of them found and the effect it had. `Performs` says which lists
are possible, `performs_of_run` that every run gives such a list, `state_before`
which state a step found, and `split` that a thread finishes a call before it goes
on.
-/

namespace Threads

open Transition

variable {σ α χ η : Type}

/-- A step that a thread has taken. -/
structure Taken (σ α χ : Type) where
  before : σ
  choice : χ
  action : α
  effect : Effect σ α

/-- By taking the steps, thread `t` gets from one list of actions to another. -/
inductive Program.Performs (P : Program σ α χ η) (t : Nat) :
    List α → List (Taken σ α χ) → List α → Prop
  | done {as : List α} : P.Performs t as [] as
  | step {s : σ} {x : χ} {a : α} {r : Effect σ α} {as todo : List α} {steps : List (Taken σ α χ)}
      (hact : P.act t x s a = some r) (hrest : P.Performs t (r.push ++ as) steps todo) :
      P.Performs t (a :: as) (⟨s, x, a, r⟩ :: steps) todo

variable {P : Program σ α χ η} {t : Nat} {as rest todo : List α} {steps : List (Taken σ α χ)}

theorem Program.Performs.snoc {s : σ} {x : χ} {a : α} {r : Effect σ α}
    (h : P.Performs t as steps (a :: todo)) (hact : P.act t x s a = some r) :
    P.Performs t as (steps ++ [⟨s, x, a, r⟩]) (r.push ++ todo) := by
  generalize hend : a :: todo = last at h
  induction h with
  | done =>
    subst hend
    exact .step hact .done
  | step hfirst _ ih => exact .step hfirst (ih hend)

/-- What is in front is finished before the rest is begun. -/
theorem Program.Performs.split (h : P.Performs t (as ++ rest) steps todo) :
    (∃ left, todo = left ++ rest ∧ P.Performs t as steps left) ∨
      ∃ first second, steps = first ++ second ∧ P.Performs t as first [] ∧
        P.Performs t rest second todo := by
  generalize hall : as ++ rest = all at h
  induction h generalizing as with
  | done => exact .inl ⟨as, hall.symm, .done⟩
  | @step s x a r all todo steps hact hrest ih =>
    cases as with
    | nil =>
      subst hall
      exact .inr ⟨[], _, rfl, .done, .step hact hrest⟩
    | cons b as =>
      obtain ⟨rfl, rfl⟩ := List.cons.inj hall
      obtain ⟨left, htodo, hleft⟩ | ⟨first, second, hsteps, hfirst, hsecond⟩ :=
        ih (List.append_assoc r.push as rest)
      · exact .inl ⟨left, htodo, .step hact hleft⟩
      · exact .inr ⟨_, second, congrArg (_ :: ·) hsteps, .step hact hfirst, hsecond⟩

/-- Steps that lead to a list of actions are followed by steps from that list. -/
theorem Program.Performs.after {mid : List α} {first second : List (Taken σ α χ)}
    (hfirst : P.Performs t as first mid) (h : P.Performs t as (first ++ second) todo) :
    P.Performs t mid second todo := by
  induction hfirst with
  | done => exact h
  | step _ _ ih =>
    cases h with
    | step _ hrest => exact ih hrest

theorem Program.Performs.eq_nil (h : P.Performs t [] steps todo) : todo = [] := by
  cases h
  rfl

theorem Program.Performs.act (h : P.Performs t as steps todo) :
    ∀ e ∈ steps, P.act t e.choice e.before e.action = some e.effect := by
  induction h with
  | done => exact fun e he => (List.not_mem_nil he).elim
  | step hact _ ih =>
    intro e he
    obtain rfl | he := List.mem_cons.mp he
    · exact hact
    · exact ih e he

/-- A kind of actions that push only actions of that kind. -/
theorem Program.Performs.all {Kind : α → Prop}
    (hkind : ∀ {x s a r}, Kind a → P.act t x s a = some r → ∀ b ∈ r.push, Kind b)
    (h : P.Performs t as steps todo) (has : ∀ a ∈ as, Kind a) :
    (∀ e ∈ steps, Kind e.action) ∧ ∀ a ∈ todo, Kind a := by
  induction h with
  | done => exact ⟨fun e he => (List.not_mem_nil he).elim, has⟩
  | @step s x a r as todo steps hact _ ih =>
    have ha : Kind a := has a List.mem_cons_self
    obtain ⟨hsteps, htodo⟩ := ih fun b hb => (List.mem_append.mp hb).elim (hkind ha hact b)
      fun hb => has b (List.mem_cons_of_mem a hb)
    refine ⟨fun e he => ?_, htodo⟩
    obtain rfl | he := List.mem_cons.mp he
    · exact ha
    · exact hsteps e he

/-- Actions that push nothing are taken one after the other. -/
theorem Program.Performs.actions {Flat : α → Prop}
    (hflat : ∀ {x s a r}, Flat a → P.act t x s a = some r → r.push = [])
    (h : P.Performs t as steps todo) (has : ∀ a ∈ as, Flat a) :
    as = steps.map Taken.action ++ todo := by
  induction h with
  | done => rfl
  | @step s x a r as todo steps hact _ ih =>
    have hpush := hflat (has a List.mem_cons_self) hact
    rw [hpush, List.nil_append] at ih
    exact congrArg (a :: ·) (ih fun b hb => has b (List.mem_cons_of_mem a hb))

/-! ## The steps taken in a run -/

/-- The record of the steps of thread `t`, after one more event. -/
def Program.took (P : Program σ α χ η) (t : Nat) (c : Config σ α) (e : Event χ η)
    (steps : List (Taken σ α χ)) : List (Taken σ α χ) :=
  match e with
  | .run u x =>
    if u = t then
      steps ++ ((c.next t).bind fun a => (P.act t x c.shared a).map (⟨c.shared, x, a, ·⟩)).toList
    else steps
  | .env _ => steps

/-- A step of the program, with the record of thread `t`. -/
abbrev Program.stepTaken (P : Program σ α χ η) (t : Nat) :
    Config σ α × List (Taken σ α χ) → Event χ η → Option (Config σ α × List (Taken σ α χ)) :=
  recorded P.step (P.took t)

theorem Program.took_run {c : Config σ α} {x : χ} {a : α} {r : Effect σ α}
    (hthread : c.threads[t]? = some (a :: rest)) (hact : P.act t x c.shared a = some r) :
    P.took t c (.run t x) steps = steps ++ [⟨c.shared, x, a, r⟩] := by
  simp [Program.took, Config.next_eq hthread, hact]

/-- What the thread has still to do follows from the steps it has taken. -/
theorem Program.Performs.stepTaken {p p' : Config σ α × List (Taken σ α χ)} {e : Event χ η}
    (h : ∃ todo, p.1.threads[t]? = some todo ∧ P.Performs t as p.2 todo)
    (hstep : P.stepTaken t p e = some p') :
    ∃ todo, p'.1.threads[t]? = some todo ∧ P.Performs t as p'.2 todo := by
  obtain ⟨c, steps⟩ := p
  obtain ⟨c', steps'⟩ := p'
  obtain ⟨hc', rfl⟩ := recorded_eq_some hstep
  obtain ⟨todo, htodo, hperforms⟩ := h
  cases Program.steps_of_step hc' with
  | @run u x a rest r hthread hact =>
    by_cases hu : u = t
    · subst hu
      cases htodo.symm.trans hthread
      rw [Program.took_run hthread hact]
      exact ⟨_, thread_self hthread, hperforms.snoc hact⟩
    · simp only [Program.took, hu, if_false]
      exact ⟨todo, thread_other (Ne.symm hu) htodo, hperforms⟩
  | env henv =>
    have ht : t < c.threads.length := (List.getElem?_eq_some_iff.mp htodo).1
    exact ⟨todo, (List.getElem?_append_left ht).trans htodo, hperforms⟩

theorem Program.performs_of_run {c : Config σ α} {p : Config σ α × List (Taken σ α χ)}
    {es : List (Event χ η)} (hthread : c.threads[t]? = some as)
    (hrun : run (P.stepTaken t) (c, []) es = some p) :
    ∃ todo, p.1.threads[t]? = some todo ∧ P.Performs t as p.2 todo :=
  run_invariant (fun h hstep => Program.Performs.stepTaken h hstep) ⟨as, hthread, .done⟩ hrun

/-- The events before thread `t` takes its step number `k`. -/
def untilStep (t : Nat) : Nat → List (Event χ η) → List (Event χ η)
  | _, [] => []
  | k, .env e :: es => .env e :: untilStep t k es
  | 0, .run u x :: es => if u = t then [] else .run u x :: untilStep t 0 es
  | k + 1, .run u x :: es => .run u x :: untilStep t (if u = t then k else k + 1) es

theorem untilStep_other {u : Nat} (hu : u ≠ t) (k : Nat) (x : χ) (es : List (Event χ η)) :
    untilStep t k (.run u x :: es) = .run u x :: untilStep t k es := by
  cases k <;> simp [untilStep, hu]

/-- The record grows with the run. -/
theorem Program.took_grows {p p' : Config σ α × List (Taken σ α χ)} {es : List (Event χ η)}
    (hrun : run (P.stepTaken t) p es = some p') : ∃ later, p'.2 = p.2 ++ later := by
  have hstep : ∀ {q e q'}, (∃ later, q.2 = p.2 ++ later) → P.stepTaken t q e = some q' →
      ∃ later, q'.2 = p.2 ++ later := by
    rintro q e q' ⟨later, hlater⟩ hstep
    obtain ⟨-, heq⟩ := recorded_eq_some hstep
    simp only [heq, hlater, Program.took]
    split
    · split
      · exact ⟨_, List.append_assoc _ _ _⟩
      · exact ⟨later, rfl⟩
    · exact ⟨later, rfl⟩
  exact run_invariant hstep ⟨[], (List.append_nil _).symm⟩ hrun

/-- A recorded step found the state that the events before it lead to. -/
theorem Program.state_before {c : Config σ α} {p : Config σ α × List (Taken σ α χ)}
    {es : List (Event χ η)} {k : Nat} {e : Taken σ α χ}
    (hrun : run (P.stepTaken t) (c, steps) es = some p) (hk : p.2[steps.length + k]? = some e) :
    ∃ m, run P.step c (untilStep t k es) = some m ∧ m.shared = e.before ∧ .run t e.choice ∈ es := by
  induction es generalizing c steps k with
  | nil =>
    cases hrun
    rw [List.getElem?_eq_none (Nat.le_add_right _ k)] at hk
    cases hk
  | cons e' es ih =>
    obtain ⟨⟨c', steps'⟩, hstep, hrun⟩ := run_cons.mp hrun
    obtain ⟨hc', hsteps⟩ := recorded_eq_some hstep
    simp only at hsteps
    cases Program.steps_of_step hc' with
    | @run u x a rest r hthread hact =>
      by_cases hu : u = t
      · subst hu
        rw [Program.took_run hthread hact] at hsteps
        cases k with
        | zero =>
          obtain ⟨later, hlater⟩ := Program.took_grows hrun
          rw [hlater, hsteps, List.append_assoc, Nat.add_zero, List.getElem?_append_right (Nat.le_refl _),
            Nat.sub_self] at hk
          cases hk
          exact ⟨c, by simp [untilStep, run], rfl, List.mem_cons_self⟩
        | succ k =>
          have hk' : p.2[steps'.length + k]? = some e := by
            rw [hsteps, List.length_append, List.length_singleton, Nat.add_assoc, Nat.add_comm 1 k]
            exact hk
          obtain ⟨m, hm, hbefore, hmem⟩ := ih hrun hk'
          refine ⟨m, ?_, hbefore, List.mem_cons_of_mem _ hmem⟩
          simp only [untilStep, if_true]
          exact run_cons.mpr ⟨_, hc', hm⟩
      · simp only [Program.took, hu, if_false] at hsteps
        obtain ⟨m, hm, hbefore, hmem⟩ := ih hrun (hsteps ▸ hk)
        refine ⟨m, ?_, hbefore, List.mem_cons_of_mem _ hmem⟩
        rw [untilStep_other hu]
        exact run_cons.mpr ⟨_, hc', hm⟩
    | env henv =>
      have hsame : steps' = steps := hsteps
      obtain ⟨m, hm, hbefore, hmem⟩ := ih hrun (hsame ▸ hk)
      refine ⟨m, ?_, hbefore, List.mem_cons_of_mem _ hmem⟩
      simp only [untilStep]
      exact run_cons.mpr ⟨_, hc', hm⟩

/-! ## Finishing -/

variable {Inv : Config σ α → Prop} {Ok : χ → Prop}

/-- From every invariant state the thread can do all of `as` by its own steps. -/
def Program.CanFinish (P : Program σ α χ η) (Inv : Config σ α → Prop) (Ok : χ → Prop) (t : Nat)
    (as : List α) : Prop :=
  ∀ c steps rest, Inv c → c.threads[t]? = some (as ++ rest) →
    ∃ (xs : List χ) (p : Config σ α × List (Taken σ α χ)), (∀ x ∈ xs, Ok x) ∧
      run (P.stepTaken t) (c, steps) (xs.map (.run t ·)) = some p ∧
      Inv p.1 ∧ p.1.threads[t]? = some rest

theorem Program.CanFinish.nil : P.CanFinish Inv Ok t [] := by
  intro c steps rest hinv hthread
  exact ⟨[], (c, steps), fun x hx => (List.not_mem_nil hx).elim, rfl, hinv, hthread⟩

theorem Program.CanFinish.append {bs : List α} (has : P.CanFinish Inv Ok t as)
    (hbs : P.CanFinish Inv Ok t bs) : P.CanFinish Inv Ok t (as ++ bs) := by
  intro c steps rest hinv hthread
  rw [List.append_assoc] at hthread
  obtain ⟨xs, ⟨m, taken⟩, hxs, hrun, hm, hthread⟩ := has c steps _ hinv hthread
  obtain ⟨ys, p, hys, hrun', hp, hthread⟩ := hbs m taken rest hm hthread
  refine ⟨xs ++ ys, p, fun x hx => (List.mem_append.mp hx).elim (hxs x) (hys x), ?_, hp, hthread⟩
  rw [List.map_append]
  exact run_append.mpr ⟨(m, taken), hrun, hrun'⟩

/-- An action can be finished if it can be performed and what it pushes can be. -/
theorem Program.CanFinish.action {a : α}
    (hinv : ∀ {c e c'}, Inv c → P.step c e = some c' → Inv c')
    (hact : ∀ {c}, Inv c → ∃ x r, Ok x ∧ P.act t x c.shared a = some r ∧
      P.CanFinish Inv Ok t r.push) : P.CanFinish Inv Ok t [a] := by
  intro c steps rest hc hthread
  obtain ⟨x, r, hx, hr, hpush⟩ := hact hc
  have hstep : P.step c (.run t x) =
      some ⟨r.shared, c.threads.set t (r.push ++ rest) ++ r.spawn⟩ := by
    simp only [Program.step, hthread, List.cons_append, List.nil_append, hr, Option.map_some]
  obtain ⟨xs, p, hxs, hrun, hp, hthread'⟩ :=
    hpush _ (P.took t c (.run t x) steps) rest (hinv hc hstep) (thread_self hthread)
  refine ⟨x :: xs, p, List.forall_mem_cons.mpr ⟨hx, hxs⟩, ?_, hp, hthread'⟩
  exact run_cons.mpr ⟨_, congrArg (Option.map _) hstep, hrun⟩

theorem Program.CanFinish.of_forall (h : ∀ a ∈ as, P.CanFinish Inv Ok t [a]) :
    P.CanFinish Inv Ok t as := by
  induction as with
  | nil => exact .nil
  | cons a as ih =>
    exact (h a List.mem_cons_self).append (ih fun b hb => h b (List.mem_cons_of_mem a hb))

end Threads
