-- SUMMARY: Threads that take turns at atomic actions on a shared state.
import Mathlib.Algebra.BigOperators.Group.List.Basic
import Mathlib.Algebra.Order.BigOperators.Group.List
import Mathlib.Tactic.Ring
import ReticulumMf.Lib.Transition

/-!
# Threads

A configuration is a shared state and the threads, each a list of the atomic
actions it still has to perform. Performing an action changes the shared state,
puts further actions in front of the thread's own, and may start threads; an
action that cannot be performed now blocks its thread. Between two actions the
environment may take a step.

Two ways to reason: a property of each thread's remaining actions (`Each`), and
the number of actions of some kind that are still to come (`pending`).
-/

namespace Threads

/-- What performing an action does. -/
structure Effect (σ α : Type) where
  shared : σ
  push : List α := []
  spawn : List (List α) := []

/-- The actions of the threads and the steps of the environment. The number
passed to `act` is the thread's, and `χ` is what it cannot know in advance. -/
structure Program (σ α χ η : Type) where
  act : Nat → χ → σ → α → Option (Effect σ α)
  env : σ → η → Option (Effect σ α)

structure Config (σ α : Type) where
  shared : σ
  threads : List (List α)

/-- The action that thread `t` performs next. -/
def Config.next {σ α : Type} (c : Config σ α) (t : Nat) : Option α := c.threads[t]?.bind List.head?

inductive Event (χ η : Type) where
  | run (thread : Nat) (choice : χ)
  | env (e : η)

variable {σ α χ η : Type}

theorem Config.next_eq {c : Config σ α} {t : Nat} {a : α} {rest : List α}
    (h : c.threads[t]? = some (a :: rest)) : c.next t = some a := by
  rw [Config.next, h]
  rfl

theorem Config.thread_of_next {c : Config σ α} {t : Nat} {a : α} (h : c.next t = some a) :
    ∃ rest, c.threads[t]? = some (a :: rest) := by
  obtain ⟨as, hthread, has⟩ := Option.bind_eq_some_iff.mp h
  cases as with
  | nil => cases has
  | cons b rest =>
    cases has
    exact ⟨rest, hthread⟩

def Program.step (P : Program σ α χ η) (c : Config σ α) : Event χ η → Option (Config σ α)
  | .run i x =>
    match c.threads[i]? with
    | some (a :: rest) =>
      (P.act i x c.shared a).map fun r =>
        ⟨r.shared, c.threads.set i (r.push ++ rest) ++ r.spawn⟩
    | _ => none
  | .env e => (P.env c.shared e).map fun r => ⟨r.shared, c.threads ++ r.spawn⟩

/-- How a step came about. -/
inductive Program.Steps (P : Program σ α χ η) (c : Config σ α) : Event χ η → Config σ α → Prop
  | run {i : Nat} {x : χ} {a : α} {rest : List α} {r : Effect σ α}
      (hthread : c.threads[i]? = some (a :: rest)) (hact : P.act i x c.shared a = some r) :
      P.Steps c (.run i x) ⟨r.shared, c.threads.set i (r.push ++ rest) ++ r.spawn⟩
  | env {e : η} {r : Effect σ α} (henv : P.env c.shared e = some r) :
      P.Steps c (.env e) ⟨r.shared, c.threads ++ r.spawn⟩

theorem Program.steps_of_step {P : Program σ α χ η} {c c' : Config σ α} {e : Event χ η}
    (h : P.step c e = some c') : P.Steps c e c' := by
  cases e with
  | run i x =>
    simp only [Program.step] at h
    split at h
    · rename_i hthread
      obtain ⟨r, hr, rfl⟩ := Option.map_eq_some_iff.mp h
      exact .run hthread hr
    · cases h
  | env e =>
    obtain ⟨r, hr, rfl⟩ := Option.map_eq_some_iff.mp h
    exact .env hr

/-- The acting thread goes on with what is left of its actions. -/
theorem thread_self {ts spawn : List (List α)} {i : Nat} {t t' : List α} (h : ts[i]? = some t) :
    (ts.set i t' ++ spawn)[i]? = some t' := by
  have hi : i < ts.length := (List.getElem?_eq_some_iff.mp h).1
  rw [List.getElem?_append_left (by simpa using hi), List.getElem?_set_self hi]

theorem thread_other {ts spawn : List (List α)} {i j : Nat} {t t' : List α} (hne : j ≠ i)
    (h : ts[j]? = some t) : (ts.set i t' ++ spawn)[j]? = some t := by
  have hj : j < ts.length := (List.getElem?_eq_some_iff.mp h).1
  rw [List.getElem?_append_left (by simpa using hj), List.getElem?_set_ne hne.symm, h]

/-! ## A thread on its own -/

/-- Thread `i` performs one action for each choice, and nobody else does anything: the shared
state and what is left of the thread. -/
def Program.alone (P : Program σ α χ η) (i : Nat) : σ → List α → List χ → Option (σ × List α)
  | s, as, [] => some (s, as)
  | _, [], _ :: _ => none
  | s, a :: rest, x :: xs =>
    match P.act i x s a with
    | some ⟨s', push, []⟩ => P.alone i s' (push ++ rest) xs
    | _ => none

theorem Program.alone_cons {P : Program σ α χ η} {i : Nat} {s s' : σ} {a : α} {push rest : List α} {x : χ}
    {xs : List χ} (h : P.act i x s a = some ⟨s', push, []⟩) :
    P.alone i s (a :: rest) (x :: xs) = P.alone i s' (push ++ rest) xs := by
  rw [Program.alone, h]

/-- An action that pushes nothing. -/
theorem Program.alone_step {P : Program σ α χ η} {i : Nat} {s s' : σ} {a : α} {rest : List α} {x : χ}
    {xs : List χ} (h : P.act i x s a = some ⟨s', [], []⟩) :
    P.alone i s (a :: rest) (x :: xs) = P.alone i s' rest xs :=
  P.alone_cons h

theorem Program.run_alone {P : Program σ α χ η} {c : Config σ α} {i : Nat} {as as' : List α} {s' : σ}
    {xs : List χ} (hthread : c.threads[i]? = some as) (h : P.alone i c.shared as xs = some (s', as')) :
    Transition.run P.step c (xs.map (.run i)) = some ⟨s', c.threads.set i as'⟩ := by
  induction xs generalizing c as with
  | nil =>
    cases h
    obtain ⟨hi, rfl⟩ := List.getElem?_eq_some_iff.mp hthread
    rw [List.set_getElem_self hi]
    rfl
  | cons x xs ih =>
    cases as with
    | nil => cases h
    | cons a rest =>
      rw [Program.alone] at h
      split at h
      · rename_i s push hact
        refine Transition.run_cons.mpr ⟨⟨s, c.threads.set i (push ++ rest) ++ []⟩, ?_, ?_⟩
        · rw [Program.step, hthread]
          simp only [hact, Option.map_some]
        · rw [ih (thread_self hthread) h, List.append_nil, List.set_set]
      · cases h

/-! ## A property of each thread -/

/-- Every thread satisfies `Q`, which may mention the shared state and the
thread's number. -/
def Each (Q : σ → Nat → List α → Prop) (c : Config σ α) : Prop :=
  ∀ i t, c.threads[i]? = some t → Q c.shared i t

/-- `Q` survives an action if it does for the acting thread, for the others, and
if it holds for the threads that are started. -/
theorem Each.run {Q : σ → Nat → List α → Prop} {c : Config σ α} {i : Nat} {a : α} {rest : List α}
    {r : Effect σ α} (h : Each Q c) (hthread : c.threads[i]? = some (a :: rest))
    (hself : Q r.shared i (r.push ++ rest))
    (hothers : ∀ j t, j ≠ i → Q c.shared j t → Q r.shared j t)
    (hspawn : ∀ t ∈ r.spawn, ∀ j, c.threads.length ≤ j → Q r.shared j t) :
    Each Q ⟨r.shared, c.threads.set i (r.push ++ rest) ++ r.spawn⟩ := by
  intro j t ht
  simp only [List.getElem?_append, List.length_set] at ht
  split at ht
  · by_cases hj : j = i
    · subst hj
      rw [List.getElem?_set_self ‹_›] at ht
      cases ht
      exact hself
    · rw [List.getElem?_set_ne (Ne.symm hj)] at ht
      exact hothers j t hj (h j t ht)
  · rename_i hle
    exact hspawn t (List.mem_of_getElem? ht) j (by omega)

theorem Each.env {Q : σ → Nat → List α → Prop} {c : Config σ α} {r : Effect σ α} (h : Each Q c)
    (hothers : ∀ j t, Q c.shared j t → Q r.shared j t)
    (hspawn : ∀ t ∈ r.spawn, ∀ j, c.threads.length ≤ j → Q r.shared j t) :
    Each Q ⟨r.shared, c.threads ++ r.spawn⟩ := by
  intro j t ht
  simp only [List.getElem?_append] at ht
  split at ht
  · exact hothers j t (h j t ht)
  · rename_i hle
    exact hspawn t (List.mem_of_getElem? ht) j (by omega)

/-- The actions to come besides the one that thread `i` performs. -/
def Others (c : Config σ α) (i : Nat) (rest : List α) (b : α) : Prop :=
  b ∈ rest ∨ ∃ j t, j ≠ i ∧ c.threads[j]? = some t ∧ b ∈ t

theorem Each.forall_run_of_others {Q : σ → α → Prop} {c : Config σ α} {i : Nat} {a : α}
    {rest : List α} {r : Effect σ α} (h : Each (fun s _ t => ∀ a ∈ t, Q s a) c)
    (hthread : c.threads[i]? = some (a :: rest))
    (hkept : ∀ b, Others c i rest b → Q c.shared b → Q r.shared b)
    (hstart : ∀ b, (b ∈ r.push ∨ ∃ t ∈ r.spawn, b ∈ t) → Q r.shared b) :
    Each (fun s _ t => ∀ a ∈ t, Q s a)
      ⟨r.shared, c.threads.set i (r.push ++ rest) ++ r.spawn⟩ := by
  have hall : Each (fun _ j t => ∀ b ∈ t, j ≠ i → Q r.shared b) c := fun j t ht b hb hj =>
    hkept b (.inr ⟨j, t, hj, ht, hb⟩) (h j t ht b hb)
  intro j t ht b hb
  by_cases hj : j = i
  · subst hj
    rw [thread_self hthread, Option.some.injEq] at ht
    subst ht
    obtain hb | hb := List.mem_append.mp hb
    · exact hstart b (.inl hb)
    · exact hkept b (.inl hb) (h j _ hthread b (List.mem_cons_of_mem a hb))
  · refine Each.run hall hthread (fun _ _ hne => absurd rfl hne) (fun _ _ _ hold => hold)
      (fun t ht _ _ b hb _ => hstart b (.inr ⟨t, ht, hb⟩)) j t ht b hb hj

/-- A property of every action to come survives if it does for the old actions and
holds for those that are pushed and spawned. -/
theorem Each.forall_run {Q : σ → α → Prop} {c : Config σ α} {i : Nat} {a : α} {rest : List α}
    {r : Effect σ α} (h : Each (fun s _ t => ∀ a ∈ t, Q s a) c)
    (hthread : c.threads[i]? = some (a :: rest)) (hkept : ∀ b, Q c.shared b → Q r.shared b)
    (hstart : ∀ b, (b ∈ r.push ∨ ∃ t ∈ r.spawn, b ∈ t) → Q r.shared b) :
    Each (fun s _ t => ∀ a ∈ t, Q s a)
      ⟨r.shared, c.threads.set i (r.push ++ rest) ++ r.spawn⟩ :=
  Each.forall_run_of_others h hthread (fun b _ => hkept b) hstart

theorem Each.forall_env {Q : σ → α → Prop} {c : Config σ α} {r : Effect σ α}
    (h : Each (fun s _ t => ∀ a ∈ t, Q s a) c) (hkept : ∀ b, Q c.shared b → Q r.shared b)
    (hstart : ∀ t ∈ r.spawn, ∀ b ∈ t, Q r.shared b) :
    Each (fun s _ t => ∀ a ∈ t, Q s a) ⟨r.shared, c.threads ++ r.spawn⟩ :=
  Each.env h (fun _ _ hall b hb => hkept b (hall b hb)) fun t ht _ _ => hstart t ht

/-! ## Disciplines -/

/-- What is known when an action is reached: which actions are allowed under some
knowledge, and what is known once an action, with all that it pushes, is done. -/
structure Discipline (γ α : Type) where
  Allowed : γ → α → Prop
  after : γ → α → γ

variable {γ : Type} {D : Discipline γ α}

/-- Each action of the list is allowed when it is reached. -/
def Discipline.Keeps (D : Discipline γ α) : γ → List α → Prop
  | _, [] => True
  | k, a :: as => D.Allowed k a ∧ D.Keeps (D.after k a) as

/-- What is known at the end of the list. -/
def Discipline.atEnd (D : Discipline γ α) (k : γ) (as : List α) : γ := as.foldl D.after k

@[simp]
theorem Discipline.keeps_nil {k : γ} : D.Keeps k [] := trivial

@[simp]
theorem Discipline.keeps_cons {k : γ} {a : α} {as : List α} :
    D.Keeps k (a :: as) ↔ D.Allowed k a ∧ D.Keeps (D.after k a) as := Iff.rfl

@[simp]
theorem Discipline.atEnd_nil {k : γ} : D.atEnd k [] = k := rfl

@[simp]
theorem Discipline.atEnd_cons {k : γ} {a : α} {as : List α} :
    D.atEnd k (a :: as) = D.atEnd (D.after k a) as := rfl

theorem Discipline.atEnd_append {k : γ} {as bs : List α} :
    D.atEnd k (as ++ bs) = D.atEnd (D.atEnd k as) bs := List.foldl_append

theorem Discipline.Keeps.append {k : γ} {as bs : List α} (has : D.Keeps k as)
    (hbs : D.Keeps (D.atEnd k as) bs) : D.Keeps k (as ++ bs) := by
  induction as generalizing k with
  | nil => exact hbs
  | cons a as ih => exact ⟨has.1, ih has.2 hbs⟩

theorem Discipline.Keeps.congr {ι : Type} {D : Discipline (ι → Prop) α} {k k' : ι → Prop}
    {as : List α} (h : D.Keeps k as) (heq : ∀ i, k i ↔ k' i) : D.Keeps k' as := by
  obtain rfl : k = k' := funext fun i => propext (heq i)
  exact h

/-- Knowledge that only grows, and allows more the more there is. -/
structure Discipline.Monotone [Preorder γ] (D : Discipline γ α) : Prop where
  allowed : ∀ {k k' a}, k ≤ k' → D.Allowed k a → D.Allowed k' a
  after : ∀ {k k' a}, k ≤ k' → D.after k a ≤ D.after k' a
  grows : ∀ {k a}, k ≤ D.after k a

theorem Discipline.Monotone.keeps [Preorder γ] (hD : D.Monotone) {k k' : γ} {as : List α}
    (hle : k ≤ k') (h : D.Keeps k as) : D.Keeps k' as := by
  induction as generalizing k k' with
  | nil => exact trivial
  | cons a as ih => exact ⟨hD.allowed hle h.1, ih (hD.after hle) h.2⟩

/-- Actions that are allowed now may be put in front. -/
theorem Discipline.Monotone.push [Preorder γ] (hD : D.Monotone) {k : γ} {as rest : List α}
    (has : ∀ a ∈ as, D.Allowed k a) (hrest : D.Keeps k rest) : D.Keeps k (as ++ rest) := by
  induction as generalizing k with
  | nil => exact hrest
  | cons a as ih =>
    refine ⟨has a List.mem_cons_self, ih (fun b hb => ?_) (hD.keeps hD.grows hrest)⟩
    exact hD.allowed hD.grows (has b (List.mem_cons_of_mem a hb))

/-- Every thread keeps the discipline from what the shared state tells. -/
def Discipline.EachKeeps (D : Discipline γ α) (know : σ → γ) : Config σ α → Prop :=
  Each fun s _ as => D.Keeps (know s) as

theorem Discipline.EachKeeps.run [Preorder γ] (hD : D.Monotone) {know : σ → γ} {c : Config σ α}
    {i : Nat} {a : α} {rest : List α} {r : Effect σ α} (h : D.EachKeeps know c)
    (hthread : c.threads[i]? = some (a :: rest)) (hmono : know c.shared ≤ know r.shared)
    (hrest : D.Keeps (know r.shared) rest)
    (hstart : ∀ b, (b ∈ r.push ∨ ∃ t ∈ r.spawn, b ∈ t) → D.Allowed (know r.shared) b) :
    D.EachKeeps know ⟨r.shared, c.threads.set i (r.push ++ rest) ++ r.spawn⟩ := by
  refine Each.run h hthread (hD.push (fun b hb => hstart b (.inl hb)) hrest)
    (fun j t _ => hD.keeps hmono) fun t ht j _ => ?_
  have hkeeps := hD.push (fun b hb => hstart b (.inr ⟨t, ht, hb⟩)) (keeps_nil (D := D))
  rwa [List.append_nil] at hkeeps

theorem Discipline.EachKeeps.env [Preorder γ] (hD : D.Monotone) {know : σ → γ} {c : Config σ α}
    {r : Effect σ α} (h : D.EachKeeps know c) (hmono : know c.shared ≤ know r.shared)
    (hspawn : ∀ t ∈ r.spawn, D.Keeps (know r.shared) t) :
    D.EachKeeps know ⟨r.shared, c.threads ++ r.spawn⟩ :=
  Each.env h (fun _ _ => hD.keeps hmono) fun t ht _ _ => hspawn t ht

/-! ## Counting -/

/-- The number of actions to come that satisfy `p`. -/
def pending (p : α → Bool) (c : Config σ α) : Nat := (c.threads.map (List.countP p)).sum

theorem sum_set {xs : List Nat} {i x y : Nat} (h : xs[i]? = some x) :
    (xs.set i y).sum + x = xs.sum + y := by
  induction xs generalizing i with
  | nil => cases h
  | cons z zs ih =>
    cases i with
    | zero =>
      obtain rfl : z = x := by simpa using h
      simp only [List.set_cons_zero, List.sum_cons]
      omega
    | succ i =>
      have := ih (by simpa using h)
      simp only [List.set_cons_succ, List.sum_cons]
      omega

/-- An action replaces itself by those it pushes and spawns. -/
theorem pending_run {p : α → Bool} {c : Config σ α} {i : Nat} {a : α} {rest : List α}
    {r : Effect σ α} (hthread : c.threads[i]? = some (a :: rest)) :
    pending p ⟨r.shared, c.threads.set i (r.push ++ rest) ++ r.spawn⟩ + [a].countP p =
      pending p c + r.push.countP p + (r.spawn.map (List.countP p)).sum := by
  have hget : (c.threads.map (List.countP p))[i]? = some ((a :: rest).countP p) := by
    rw [List.getElem?_map, hthread]
    rfl
  have hset := sum_set (y := (r.push ++ rest).countP p) hget
  have hcons : (a :: rest).countP p = [a].countP p + rest.countP p := by
    rw [← List.countP_append]
    rfl
  simp only [pending, List.map_append, List.map_set, List.sum_append, List.countP_append] at *
  omega

theorem pending_env {p : α → Bool} {c : Config σ α} {r : Effect σ α} :
    pending p ⟨r.shared, c.threads ++ r.spawn⟩ =
      pending p c + (r.spawn.map (List.countP p)).sum := by
  simp only [pending, List.map_append, List.sum_append]

theorem countP_eq_zero {p : α → Bool} {as : List α} (h : ∀ a ∈ as, p a = false) :
    as.countP p = 0 :=
  List.countP_eq_zero.mpr fun a ha => by simp [h a ha]

theorem sum_countP_eq_zero {p : α → Bool} {ts : List (List α)}
    (h : ∀ t ∈ ts, ∀ a ∈ t, p a = false) : (ts.map (List.countP p)).sum = 0 := by
  refine List.sum_eq_zero fun n hn => ?_
  obtain ⟨t, ht, rfl⟩ := List.mem_map.mp hn
  exact countP_eq_zero (h t ht)

/-- An action that starts none of a kind leaves one less of it, if it is one itself. -/
theorem pending_run_of_none {p : α → Bool} {c : Config σ α} {i : Nat} {a : α} {rest : List α}
    {r : Effect σ α} (hthread : c.threads[i]? = some (a :: rest))
    (hpush : ∀ b ∈ r.push, p b = false) (hspawn : ∀ t ∈ r.spawn, ∀ b ∈ t, p b = false) :
    pending p ⟨r.shared, c.threads.set i (r.push ++ rest) ++ r.spawn⟩ + [a].countP p =
      pending p c := by
  rw [pending_run hthread, countP_eq_zero hpush, sum_countP_eq_zero hspawn, Nat.add_zero]

/-- What an action is not one of, it leaves as many of. -/
theorem pending_le_run {p : α → Bool} {c : Config σ α} {i : Nat} {a : α} {rest : List α}
    {r : Effect σ α} (hthread : c.threads[i]? = some (a :: rest)) (ha : p a = false) :
    pending p c ≤ pending p ⟨r.shared, c.threads.set i (r.push ++ rest) ++ r.spawn⟩ := by
  have hrun := pending_run (p := p) (r := r) hthread
  have hzero : [a].countP p = 0 := countP_eq_zero (by simpa using ha)
  omega

theorem pending_le_env {p : α → Bool} {c : Config σ α} {r : Effect σ α} :
    pending p c ≤ pending p ⟨r.shared, c.threads ++ r.spawn⟩ := by
  rw [pending_env]
  exact Nat.le_add_right ..

theorem pending_env_of_none {p : α → Bool} {c : Config σ α} {r : Effect σ α}
    (hspawn : ∀ t ∈ r.spawn, ∀ b ∈ t, p b = false) :
    pending p ⟨r.shared, c.threads ++ r.spawn⟩ = pending p c := by
  rw [pending_env, sum_countP_eq_zero hspawn, Nat.add_zero]

theorem pending_pos {p : α → Bool} {c : Config σ α} {i : Nat} {t : List α} {a : α}
    (ht : c.threads[i]? = some t) (ha : a ∈ t) (hp : p a = true) : 0 < pending p c := by
  refine List.sum_pos_iff_exists_pos_nat.mpr ⟨t.countP p, ?_, ?_⟩
  · exact List.mem_map_of_mem (List.mem_of_getElem? ht)
  · exact List.countP_pos_iff.mpr ⟨a, ha, hp⟩

theorem pending_pos_run {p : α → Bool} {c : Config σ α} {i : Nat} {a b : α} {rest : List α}
    {r : Effect σ α} (hthread : c.threads[i]? = some (a :: rest)) (hb : b ∈ r.push)
    (hp : p b = true) :
    0 < pending p ⟨r.shared, c.threads.set i (r.push ++ rest) ++ r.spawn⟩ :=
  pending_pos (thread_self hthread) (List.mem_append_left rest hb) hp

/-- What is still to come after an action was so before, or the action started it. -/
theorem pending_pos_of_run {p : α → Bool} {c : Config σ α} {i : Nat} {a : α} {rest : List α}
    {r : Effect σ α} (hthread : c.threads[i]? = some (a :: rest))
    (h : 0 < pending p ⟨r.shared, c.threads.set i (r.push ++ rest) ++ r.spawn⟩) :
    0 < pending p c ∨ ∃ b, (b ∈ r.push ∨ ∃ t ∈ r.spawn, b ∈ t) ∧ p b = true := by
  by_contra hnone
  push Not at hnone
  obtain ⟨hzero, hstart⟩ := hnone
  have hrun := pending_run_of_none (p := p) (r := r) hthread
    (fun b hb => by simpa using hstart b (.inl hb))
    (fun t ht b hb => by simpa using hstart b (.inr ⟨t, ht, hb⟩))
  omega

theorem pending_pos_of_env {p : α → Bool} {c : Config σ α} {r : Effect σ α}
    (h : 0 < pending p ⟨r.shared, c.threads ++ r.spawn⟩) :
    0 < pending p c ∨ ∃ b, (∃ t ∈ r.spawn, b ∈ t) ∧ p b = true := by
  by_contra hnone
  push Not at hnone
  obtain ⟨hzero, hstart⟩ := hnone
  have henv := pending_env_of_none (p := p) (c := c) (r := r) fun t ht b hb => by
    simpa using hstart b ⟨t, ht, hb⟩
  omega

theorem pending_le_of_imp {p q : α → Bool} {c : Config σ α} (h : ∀ a, p a = true → q a = true) :
    pending p c ≤ pending q c :=
  List.sum_le_sum fun _ _ => List.countP_mono_left fun a _ => h a

theorem pending_eq_zero {p : α → Bool} {c : Config σ α}
    (h : ∀ t ∈ c.threads, ∀ a ∈ t, p a = false) : pending p c = 0 :=
  sum_countP_eq_zero h

/-- If there is at most one action of a kind and it is being performed, no other is of
that kind. -/
theorem alone_of_pending_le {p : α → Bool} {c : Config σ α} {i : Nat} {a : α} {rest : List α}
    (h : pending p c ≤ 1) (hthread : c.threads[i]? = some (a :: rest)) (ha : p a = true) {b : α}
    (hb : Others c i rest b) : p b = false := by
  have hcount := pending_run (p := p) (r := ⟨c.shared, [], []⟩) hthread
  have hone : [a].countP p = 1 := by simp [ha]
  simp only [List.countP_nil, List.map_nil, List.sum_nil] at hcount
  by_contra hpb
  have hpos : 0 < pending p ⟨c.shared, c.threads.set i ([] ++ rest) ++ []⟩ := by
    obtain hb | ⟨j, t, hj, ht, hb⟩ := hb
    · exact pending_pos (thread_self hthread) hb (by simpa using hpb)
    · exact pending_pos (thread_other hj ht) hb (by simpa using hpb)
  omega

/-! ## Accounts -/

section Accounts

open Transition

/-- What there is of a kind: in the shared state, and still to come. -/
def stock (held : σ → Nat) (p : α → Bool) (c : Config σ α) : Nat := held c.shared + pending p c

/-- The environment brings something of the kind. -/
def Event.brings (w : η → Bool) : Event χ η → Bool
  | .run _ _ => false
  | .env e => w e

/-- If no action makes anything of a kind out of nothing, there is never more of it than
there was at first and the environment has brought since. -/
theorem stock_le_of_run {P : Program σ α χ η} (Inv : Config σ α → Prop) (held : σ → Nat)
    (p : α → Bool) (w : η → Bool) {es : List (Event χ η)}
    (hinv : ∀ {c e c'}, Inv c → e ∈ es → P.step c e = some c' → Inv c')
    (hact : ∀ {c t x a rest r}, Inv c → c.threads[t]? = some (a :: rest) →
      P.act t x c.shared a = some r →
      held r.shared + r.push.countP p + (r.spawn.map (List.countP p)).sum ≤
        held c.shared + [a].countP p)
    (henv : ∀ {c e r}, Inv c → P.env c.shared e = some r →
      held r.shared + (r.spawn.map (List.countP p)).sum ≤ held c.shared + [e].countP w)
    {c c' : Config σ α} (hc : Inv c) (hrun : Transition.run P.step c es = some c') :
    stock held p c' ≤ stock held p c + es.countP (Event.brings w) := by
  suffices h : ∀ (es' : List (Event χ η)) (c : Config σ α), (∀ e ∈ es', e ∈ es) → Inv c →
      Transition.run P.step c es' = some c' →
      stock held p c' ≤ stock held p c + es'.countP (Event.brings w) from
    h es c (fun _ he => he) hc hrun
  intro es'
  induction es' with
  | nil =>
    intro c _ _ hrun
    cases hrun
    exact Nat.le_add_right ..
  | cons e es' ih =>
    intro c hmem hc hrun
    obtain ⟨m, hm, hrun⟩ := run_cons.mp hrun
    have hrest := ih m (fun e he => hmem e (List.mem_cons_of_mem _ he))
      (hinv hc (hmem e List.mem_cons_self) hm) hrun
    have hstep : stock held p m ≤ stock held p c + [e].countP (Event.brings w) := by
      cases Program.steps_of_step hm with
      | @run _ _ _ _ r hthread heffect =>
        have hle := hact hc hthread heffect
        have hpending := pending_run (p := p) (r := r) hthread
        simp only [stock]
        omega
      | @env e _ heffect =>
        have hle := henv hc heffect
        have hsame : ([.env e] : List (Event χ η)).countP (Event.brings w) = [e].countP w := rfl
        simp only [stock, pending_env, hsame]
        omega
    have hcons : ([e] ++ es').countP (Event.brings w) =
        [e].countP (Event.brings w) + es'.countP (Event.brings w) := List.countP_append
    rw [List.singleton_append] at hcons
    omega

end Accounts

/-- No thread has anything left to do. -/
def Quiescent (c : Config σ α) : Prop := ∀ t ∈ c.threads, t = []

theorem quiescent_of_isEmpty {c : Config σ α} (h : c.threads.all List.isEmpty = true) :
    Quiescent c :=
  fun t ht => List.isEmpty_iff.mp (List.all_eq_true.mp h t ht)

theorem Quiescent.pending_eq_zero {c : Config σ α} (h : Quiescent c) (p : α → Bool) :
    pending p c = 0 :=
  Threads.pending_eq_zero fun t ht a ha => by
    rw [h t ht] at ha
    cases ha

/-! ## Weights -/

section Weights

open Transition

/-- The weights of all actions to come. -/
def weight (w : α → Nat) (c : Config σ α) : Nat := (c.threads.map fun t => (t.map w).sum).sum

theorem weight_run (w : α → Nat) {c : Config σ α} {i : Nat} {a : α} {rest : List α} {r : Effect σ α}
    (hthread : c.threads[i]? = some (a :: rest)) :
    weight w ⟨r.shared, c.threads.set i (r.push ++ rest) ++ r.spawn⟩ + w a =
      weight w c + (r.push.map w).sum + (r.spawn.map fun t => (t.map w).sum).sum := by
  have hget : (c.threads.map fun t => (t.map w).sum)[i]? = some ((a :: rest).map w).sum := by
    rw [List.getElem?_map, hthread]
    rfl
  have hset := sum_set (y := ((r.push ++ rest).map w).sum) hget
  simp only [weight, List.map_append, List.map_set, List.sum_append, List.map_cons, List.sum_cons]
    at *
  omega

/-- If no action weighs less than what it starts, and the environment starts nothing, the
weights do not grow. -/
theorem weight_le_of_run {P : Program σ α χ η} (Inv : Config σ α → Prop) (w : α → Nat)
    {es : List (Event χ η)} (hinv : ∀ {c e c'}, Inv c → P.step c e = some c' → Inv c')
    (hact : ∀ {c t x a rest r}, Inv c → c.threads[t]? = some (a :: rest) →
      P.act t x c.shared a = some r →
      (r.push.map w).sum + (r.spawn.map fun t => (t.map w).sum).sum ≤ w a)
    (henv : ∀ {s e r}, P.env s e = some r → r.spawn = []) {c c' : Config σ α} (hc : Inv c)
    (hrun : run P.step c es = some c') : weight w c' ≤ weight w c := by
  have hstep : ∀ {m e m'}, Inv m ∧ weight w m ≤ weight w c → P.step m e = some m' →
      Inv m' ∧ weight w m' ≤ weight w c := by
    intro m e m' h hm
    refine ⟨hinv h.1 hm, ?_⟩
    cases Program.steps_of_step hm with
    | @run _ _ _ _ r hthread heffect =>
      have hle := hact h.1 hthread heffect
      have heq := weight_run w (r := r) hthread
      have hold := h.2
      omega
    | env heffect =>
      rw [henv heffect, List.append_nil]
      exact h.2
  exact (run_invariant hstep ⟨hc, Nat.le_refl _⟩ hrun).2

def Event.isRun : Event χ η → Bool
  | .run _ _ => true
  | .env _ => false

/-- If each action weighs more than what it starts, and the environment starts nothing, no
more actions are performed than the weights allow. -/
theorem runs_add_weight_le {P : Program σ α χ η} (Inv : Config σ α → Prop) (w : α → Nat)
    {es : List (Event χ η)}
    (hinv : ∀ {c e c'}, Inv c → e ∈ es → P.step c e = some c' → Inv c')
    (hact : ∀ {c t x a rest r}, Inv c → c.threads[t]? = some (a :: rest) →
      P.act t x c.shared a = some r →
      (r.push.map w).sum + (r.spawn.map fun t => (t.map w).sum).sum < w a)
    (henv : ∀ {s e r}, .env e ∈ es → P.env s e = some r → r.spawn = []) {c c' : Config σ α}
    (hc : Inv c) (hrun : run P.step c es = some c') :
    es.countP Event.isRun + weight w c' ≤ weight w c := by
  suffices h : ∀ (es' : List (Event χ η)) (c : Config σ α), (∀ e ∈ es', e ∈ es) → Inv c →
      run P.step c es' = some c' → es'.countP Event.isRun + weight w c' ≤ weight w c from
    h es c (fun _ he => he) hc hrun
  intro es'
  induction es' with
  | nil =>
    intro c _ _ hrun
    cases hrun
    simp
  | cons e es' ih =>
    intro c hmem hc hrun
    obtain ⟨m, hm, hrun⟩ := run_cons.mp hrun
    have he : e ∈ es := hmem e List.mem_cons_self
    have hrest := ih m (fun e he => hmem e (List.mem_cons_of_mem _ he)) (hinv hc he hm) hrun
    have hcons : (e :: es').countP Event.isRun = es'.countP Event.isRun + if e.isRun then 1 else 0 :=
      List.countP_cons
    rw [hcons]
    cases Program.steps_of_step hm with
    | @run _ _ _ _ r hthread heffect =>
      have hlt := hact hc hthread heffect
      have heq := weight_run w (r := r) hthread
      simp only [Event.isRun, if_true]
      omega
    | env heffect =>
      rw [henv he heffect, List.append_nil] at hrest
      exact hrest

/-- No thread can move, whatever it chooses. -/
def Program.Stuck (P : Program σ α χ η) (c : Config σ α) : Prop :=
  ∀ t x, P.step c (.run t x) = none

theorem Program.Stuck.blocked {P : Program σ α χ η} {c : Config σ α} (h : P.Stuck c) {t : Nat}
    {a : α} {rest : List α} (hthread : c.threads[t]? = some (a :: rest)) (x : χ) :
    P.act t x c.shared a = none := by
  have hnone := h t x
  simpa only [Program.step, hthread, Option.map_eq_none_iff] using hnone

theorem Program.stuck_of_ended {P : Program σ α χ η} {c : Config σ α} (h : ∀ t ∈ c.threads, t = []) :
    P.Stuck c := by
  intro t x
  simp only [Program.step]
  split
  · rename_i hthread
    cases h _ (List.mem_of_getElem? hthread)
  · rfl

theorem exists_of_pending_pos {p : α → Bool} {c : Config σ α} (h : 0 < pending p c) :
    ∃ (i : Nat) (t : List α), c.threads[i]? = some t ∧ ∃ a ∈ t, p a = true := by
  obtain ⟨n, hn, hpos⟩ := List.sum_pos_iff_exists_pos_nat.mp h
  obtain ⟨t, ht, rfl⟩ := List.mem_map.mp hn
  obtain ⟨i, hi⟩ := List.mem_iff_getElem?.mp ht
  exact ⟨i, t, hi, List.countP_pos_iff.mp hpos⟩

theorem weight_le_weight (w w' : α → Nat) (c : Config σ α) (h : ∀ a, w a ≤ w' a) :
    weight w c ≤ weight w' c :=
  List.sum_le_sum fun _ _ => List.sum_le_sum fun a _ => h a

theorem pending_le_pending {p q : α → Bool} {c : Config σ α}
    (h : ∀ t ∈ c.threads, t.countP p ≤ t.countP q) : pending p c ≤ pending q c :=
  List.sum_le_sum h

end Weights

end Threads
