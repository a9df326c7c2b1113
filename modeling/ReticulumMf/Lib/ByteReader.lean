-- SUMMARY: Readers over a byte string with a state, and a logic for what they consume.
import ReticulumMf.Lib.BigEndian

/-!
# Byte readers

A reader takes bytes off the front of its input, may consult how many are left,
and carries a state. `Local x P` says that whenever `x` succeeds, what it
consumed is a prefix `b` of the input, that its result depends on `b` and the
state only, as long as `m` bytes follow (a reader that compares an announced
length with what is left needs some), and that result, prefix and need satisfy
`P`. The rules below establish it along the structure of a reader.
-/

namespace ByteReader

structure Input (σ : Type) where
  rest : Bytes
  state : σ
  deriving DecidableEq, Repr

inductive Error (ε : Type) where
  | eof
  | unexpectedEof
  | failed (e : ε)
  deriving DecidableEq, Repr

abbrev Reader (ε σ α : Type) := EStateM (Error ε) (Input σ) α

variable {ε σ α β : Type}

def fail (e : ε) : Reader ε σ α := throw (.failed e)

/-- Exactly `n` bytes. A short input is used up. -/
def readN (n : Nat) : Reader ε σ Bytes := fun i =>
  if n ≤ i.rest.length then .ok (i.rest.take n) { i with rest := i.rest.drop n }
  else .error (if i.rest = [] then .eof else .unexpectedEof) { i with rest := [] }

def readByte : Reader ε σ UInt8 := fun i =>
  match i.rest with
  | [] => .error .eof i
  | b :: bs => .ok b { i with rest := bs }

def unreadByte (b : UInt8) : Reader ε σ Unit := fun i =>
  .ok () { i with rest := b :: i.rest }

/-- Fail unless at least `n` bytes are left. -/
def require (n : Nat) (e : Nat → ε) : Reader ε σ Unit := fun i =>
  if n ≤ i.rest.length then .ok () i else .error (.failed (e i.rest.length)) i

/-- Run `x` in an entered state, and leave it again however `x` ends. -/
def within (enter : σ → Except ε σ) (leave : σ → σ) (x : Reader ε σ α) : Reader ε σ α := fun i =>
  match enter i.state with
  | .error e => .error (.failed e) i
  | .ok st =>
    match x { i with state := st } with
    | .ok a j => .ok a { j with state := leave j.state }
    | .error e j => .error e { j with state := leave j.state }

/-- Run `f` on an accumulator `n` times. -/
def iterate (f : β → Reader ε σ β) : Nat → β → Reader ε σ β
  | 0, c => pure c
  | n + 1, c => f c >>= iterate f n

/-! ## Inversion -/

theorem bind_ok_iff {x : Reader ε σ α} {f : α → Reader ε σ β} {i k : Input σ} {b : β} :
    (x >>= f) i = .ok b k ↔ ∃ a j, x i = .ok a j ∧ f a j = .ok b k := by
  simp only [bind, EStateM.bind]
  cases x i <;> simp

theorem bind_eq_of_ok {x : Reader ε σ α} {f : α → Reader ε σ β} {i j : Input σ} {a : α}
    (h : x i = .ok a j) : (x >>= f) i = f a j := by
  simp only [bind, EStateM.bind, h]

@[simp] theorem pure_ok_iff {a b : α} {i j : Input σ} :
    (pure a : Reader ε σ α) i = .ok b j ↔ a = b ∧ i = j := by
  simp [pure, EStateM.pure]

@[simp] theorem fail_ne_ok {e : ε} {i j : Input σ} {a : α} :
    (fail e : Reader ε σ α) i ≠ .ok a j := by
  intro h
  cases h

theorem map_ok_iff {x : Reader ε σ α} {f : α → β} {i j : Input σ} {b : β} :
    (f <$> x) i = .ok b j ↔ ∃ a, x i = .ok a j ∧ f a = b := by
  rw [← bind_pure_comp, bind_ok_iff]
  constructor
  · rintro ⟨a, k, hx, hpure⟩
    obtain ⟨rfl, rfl⟩ := pure_ok_iff.mp hpure
    exact ⟨a, hx, rfl⟩
  · rintro ⟨a, hx, rfl⟩
    exact ⟨a, j, hx, rfl⟩

theorem readN_ok_iff {n : Nat} {i j : Input σ} {b : Bytes} :
    (readN n : Reader ε σ Bytes) i = .ok b j ↔
      b.length = n ∧ i.rest = b ++ j.rest ∧ j.state = i.state := by
  obtain ⟨rest, st⟩ := i
  obtain ⟨rest', st'⟩ := j
  unfold readN
  split
  · rename_i hn
    simp only [EStateM.Result.ok.injEq, Input.mk.injEq]
    constructor
    · rintro ⟨rfl, rfl, rfl⟩
      simpa using hn
    · rintro ⟨rfl, rfl, rfl⟩
      simp
  · rename_i hn
    simp only [reduceCtorEq, false_iff]
    rintro ⟨rfl, rfl, -⟩
    simp at hn

theorem readByte_ok_iff {i j : Input σ} {b : UInt8} :
    (readByte : Reader ε σ UInt8) i = .ok b j ↔ i.rest = b :: j.rest ∧ j.state = i.state := by
  obtain ⟨rest, st⟩ := i
  obtain ⟨rest', st'⟩ := j
  cases rest <;> simp [readByte]
  aesop

theorem require_ok_iff {n : Nat} {e : Nat → ε} {i j : Input σ} {u : Unit} :
    require n e i = .ok u j ↔ n ≤ i.rest.length ∧ i = j := by
  unfold require
  split <;> simp_all

/-! ## Results -/

/-- Whatever `x` returns satisfies `Q`. -/
def Produces (x : Reader ε σ α) (Q : α → Prop) : Prop := ∀ i a j, x i = .ok a j → Q a

namespace Produces

variable {x : Reader ε σ α} {Q : α → Prop}

theorem pure {a : α} (h : Q a) : Produces (pure a : Reader ε σ α) Q := by
  intro i a' j hx
  obtain ⟨rfl, -⟩ := pure_ok_iff.mp hx
  exact h

theorem fail (e : ε) : Produces (fail e : Reader ε σ α) Q := fun _ _ _ h => absurd h fail_ne_ok

theorem bind {f : α → Reader ε σ β} {R : β → Prop} (hx : Produces x Q)
    (hf : ∀ a, Q a → Produces (f a) R) : Produces (x >>= f) R := by
  intro i b k h
  obtain ⟨a, j, hxa, hfa⟩ := bind_ok_iff.mp h
  exact hf a (hx i a j hxa) j b k hfa

theorem trivial : Produces x (fun _ => True) := fun _ _ _ _ => True.intro

theorem map {f : α → β} {R : β → Prop} (hx : Produces x Q) (hf : ∀ a, Q a → R (f a)) :
    Produces (f <$> x) R := by
  rw [← bind_pure_comp]
  exact hx.bind fun a ha => Produces.pure (hf a ha)

theorem within {enter : σ → Except ε σ} {leave : σ → σ} (hx : Produces x Q) :
    Produces (within enter leave x) Q := by
  intro i a j h
  unfold ByteReader.within at h
  cases hst : enter i.state with
  | error e => simp [hst] at h
  | ok st =>
    simp only [hst] at h
    cases hres : x { i with state := st } with
    | error e k => simp [hres] at h
    | ok a' k =>
      simp only [hres, EStateM.Result.ok.injEq] at h
      exact h.1 ▸ hx _ _ _ hres

theorem iterate {f : α → Reader ε σ α} (hf : ∀ c, Q c → Produces (f c) Q) (n : Nat) {c : α}
    (hc : Q c) : Produces (iterate f n c) Q := by
  induction n generalizing c with
  | zero => exact Produces.pure hc
  | succ n ih => exact (hf c hc).bind fun c' hc' => ih hc'

end Produces

/-! ## States -/

/-- The state that is left, whether the reader succeeded or failed. -/
def endState : EStateM.Result (Error ε) (Input σ) α → σ
  | .ok _ j | .error _ j => j.state

/-- `x` leaves the state as it found it, also when it fails. -/
def KeepsState (x : Reader ε σ α) : Prop := ∀ i, endState (x i) = i.state

namespace KeepsState

variable {x : Reader ε σ α}

theorem pure (a : α) : KeepsState (pure a : Reader ε σ α) := fun _ => rfl

theorem fail (e : ε) : KeepsState (fail e : Reader ε σ α) := fun _ => rfl

theorem readN (n : Nat) : KeepsState (readN n : Reader ε σ Bytes) := by
  intro i
  unfold ByteReader.readN
  split <;> rfl

theorem readByte : KeepsState (readByte : Reader ε σ UInt8) := by
  intro i
  unfold ByteReader.readByte
  split <;> rfl

theorem unreadByte (b : UInt8) : KeepsState (unreadByte b : Reader ε σ Unit) := fun _ => rfl

theorem require (n : Nat) (e : Nat → ε) : KeepsState (require n e : Reader ε σ Unit) := by
  intro i
  unfold ByteReader.require
  split <;> rfl

theorem bind {f : α → Reader ε σ β} (hx : KeepsState x) (hf : ∀ a, KeepsState (f a)) :
    KeepsState (x >>= f) := by
  intro i
  have hi := hx i
  simp only [Bind.bind, EStateM.bind]
  cases hres : x i with
  | ok a j =>
    rw [hres] at hi
    exact (hf a j).trans hi
  | error e j =>
    rw [hres] at hi
    exact hi

theorem map {f : α → β} (hx : KeepsState x) : KeepsState (f <$> x) := by
  rw [← bind_pure_comp]
  exact hx.bind fun a => KeepsState.pure (f a)

/-- Entering and leaving a state around a reader, when leaving undoes entering. -/
theorem within {enter : σ → Except ε σ} {leave : σ → σ} (hx : KeepsState x)
    (hleave : ∀ st st', enter st = .ok st' → leave st' = st) : KeepsState (within enter leave x) := by
  intro i
  unfold ByteReader.within
  cases hst : enter i.state with
  | error e => rfl
  | ok st =>
    have hi := hx { i with state := st }
    dsimp only
    cases hres : x { i with state := st } with
    | ok a j | error a j =>
      rw [hres] at hi
      exact (congrArg leave hi).trans (hleave _ _ hst)

theorem iterate {f : β → Reader ε σ β} (hf : ∀ c, KeepsState (f c)) (n : Nat) (c : β) :
    KeepsState (iterate f n c) := by
  induction n generalizing c with
  | zero => exact KeepsState.pure c
  | succ n ih => exact (hf c).bind ih

end KeepsState

/-! ## Locality -/

/-- In the state `st`, `x` returns `a` on every input that starts with `b` and
has `m` bytes after it, and consumes exactly `b`. -/
def Reads (x : Reader ε σ α) (st : σ) (a : α) (b : Bytes) (m : Nat) : Prop :=
  ∀ r : Bytes, m ≤ r.length → x ⟨b ++ r, st⟩ = .ok a ⟨r, st⟩

def Local (x : Reader ε σ α) (P : α → Bytes → Nat → Prop) : Prop :=
  ∀ i a j, x i = .ok a j → ∃ b m, i.rest = b ++ j.rest ∧ j.state = i.state ∧
    m ≤ j.rest.length ∧ P a b m ∧ Reads x i.state a b m

namespace Local

variable {x : Reader ε σ α} {P Q : α → Bytes → Nat → Prop}

theorem mono (h : Local x P) (hPQ : ∀ a b m, P a b m → Q a b m) : Local x Q := by
  intro i a j hx
  obtain ⟨b, m, hrest, hst, hm, hP, hreads⟩ := h i a j hx
  exact ⟨b, m, hrest, hst, hm, hPQ a b m hP, hreads⟩

theorem pure (a : α) : Local (pure a : Reader ε σ α) (fun a' b m => a' = a ∧ b = [] ∧ m = 0) := by
  intro i a' j h
  obtain ⟨rfl, rfl⟩ := pure_ok_iff.mp h
  exact ⟨[], 0, rfl, rfl, Nat.zero_le _, ⟨rfl, rfl, rfl⟩, fun r _ => rfl⟩

theorem fail (e : ε) : Local (fail e : Reader ε σ α) P := fun _ _ _ h => absurd h fail_ne_ok

theorem bind {f : α → Reader ε σ β} {R : α → β → Bytes → Nat → Prop}
    (hx : Local x P) (hf : ∀ a, Local (f a) (R a)) :
    Local (x >>= f) (fun c b m => ∃ a b₁ m₁ b₂ m₂, P a b₁ m₁ ∧ R a c b₂ m₂ ∧
      b = b₁ ++ b₂ ∧ m = max m₂ (m₁ - b₂.length)) := by
  intro i c k h
  obtain ⟨a, j, hxa, hfa⟩ := bind_ok_iff.mp h
  obtain ⟨b₁, m₁, hrest₁, hst₁, hm₁, hP, hreads₁⟩ := hx i a j hxa
  obtain ⟨b₂, m₂, hrest₂, hst₂, hm₂, hR, hreads₂⟩ := hf a j c k hfa
  refine ⟨b₁ ++ b₂, max m₂ (m₁ - b₂.length), ?_, hst₂.trans hst₁, ?_,
    ⟨a, b₁, m₁, b₂, m₂, hP, hR, rfl, rfl⟩, ?_⟩
  · rw [hrest₁, hrest₂, List.append_assoc]
  · rw [hrest₂, List.length_append] at hm₁
    omega
  · intro r hr
    have hfirst := hreads₁ (b₂ ++ r) (by rw [List.length_append]; omega)
    have hsecond := hreads₂ r (by omega)
    rw [List.append_assoc, bind_eq_of_ok hfirst, ← hst₁, hsecond, hst₁]

/-- A reader that needs nothing after what it consumes, followed by a pure function. -/
theorem map {f : α → β} (hx : Local x P) :
    Local (f <$> x) (fun c b m => ∃ a, c = f a ∧ P a b m) := by
  rw [← bind_pure_comp]
  refine (hx.bind (fun a => Local.pure (f a))).mono ?_
  rintro c b m ⟨a, b₁, m₁, b₂, m₂, hP, ⟨rfl, rfl, rfl⟩, rfl, rfl⟩
  exact ⟨a, rfl, by simpa using hP⟩

theorem readN (n : Nat) :
    Local (readN n : Reader ε σ Bytes) (fun a b m => b = a ∧ a.length = n ∧ m = 0) := by
  intro i a j h
  obtain ⟨hlen, hrest, hst⟩ := readN_ok_iff.mp h
  exact ⟨a, 0, hrest, hst, Nat.zero_le _, ⟨rfl, hlen, rfl⟩,
    fun r _ => readN_ok_iff.mpr ⟨hlen, rfl, rfl⟩⟩

theorem readByte :
    Local (readByte : Reader ε σ UInt8) (fun a b m => b = [a] ∧ m = 0) := by
  intro i a j h
  obtain ⟨hrest, hst⟩ := readByte_ok_iff.mp h
  exact ⟨[a], 0, hrest, hst, Nat.zero_le _, ⟨rfl, rfl⟩,
    fun r _ => readByte_ok_iff.mpr ⟨rfl, rfl⟩⟩

theorem require (n : Nat) (e : Nat → ε) :
    Local (require n e : Reader ε σ Unit) (fun _ b m => b = [] ∧ m = n) := by
  intro i a j h
  obtain ⟨hn, rfl⟩ := require_ok_iff.mp h
  exact ⟨[], n, rfl, rfl, hn, ⟨rfl, rfl⟩, fun r hr => require_ok_iff.mpr ⟨hr, rfl⟩⟩

/-- Putting a byte back before a reader that takes at least one. -/
theorem unread (c : UInt8) (hx : Local x P) (hne : ∀ a b m, P a b m → b ≠ []) :
    Local (unreadByte c >>= fun _ => x) (fun a b m => P a (c :: b) m) := by
  intro i a j h
  obtain ⟨_, k, hk, hxk⟩ := bind_ok_iff.mp h
  simp only [unreadByte, EStateM.Result.ok.injEq] at hk
  obtain ⟨-, rfl⟩ := hk
  obtain ⟨b, m, hrest, hst, hm, hP, hreads⟩ := hx _ a j hxk
  cases b with
  | nil => exact absurd rfl (hne _ _ _ hP)
  | cons d b =>
    simp only [List.cons_append, List.cons.injEq] at hrest
    obtain ⟨rfl, hrest⟩ := hrest
    exact ⟨b, m, hrest, hst, hm, hP, fun r hr => hreads r hr⟩

/-- Entering and leaving a state around a reader, when leaving undoes entering. -/
theorem within {enter : σ → Except ε σ} {leave : σ → σ} (hx : Local x P)
    (hleave : ∀ st st', enter st = .ok st' → leave st' = st) :
    Local (within enter leave x) P := by
  intro i a j h
  unfold ByteReader.within at h
  cases hst : enter i.state with
  | error e => simp [hst] at h
  | ok st =>
    simp only [hst] at h
    cases hres : x { i with state := st } with
    | error e k => simp [hres] at h
    | ok a' k =>
      simp only [hres, EStateM.Result.ok.injEq] at h
      obtain ⟨rfl, rfl⟩ := h
      obtain ⟨b, m, hrest, hstk, hm, hP, hreads⟩ := hx _ _ _ hres
      refine ⟨b, m, hrest, ?_, hm, hP, ?_⟩
      · simp only [hstk, hleave _ _ hst]
      · intro r hr
        simp only [ByteReader.within, hst, hreads r hr, hleave _ _ hst]

/-- A loop, when each pass needs nothing after what it consumes. -/
theorem iterate {f : β → Reader ε σ β} {S : Bytes → Prop} {T : Nat → Bytes → Prop}
    (hzero : T 0 []) (hsucc : ∀ n b b', S b → T n b' → T (n + 1) (b ++ b'))
    (hf : ∀ c, Local (f c) (fun _ b m => S b ∧ m = 0)) (n : Nat) (c : β) :
    Local (iterate f n c) (fun _ b m => T n b ∧ m = 0) := by
  induction n generalizing c with
  | zero =>
    refine (Local.pure c).mono ?_
    rintro a b m ⟨-, rfl, rfl⟩
    exact ⟨hzero, rfl⟩
  | succ n ih =>
    refine ((hf c).bind ih).mono ?_
    rintro a b m ⟨c', b₁, m₁, b₂, m₂, ⟨hS, rfl⟩, ⟨hT, rfl⟩, rfl, rfl⟩
    exact ⟨hsucc n b₁ b₂ hS hT, by simp⟩

end Local

/-! ## Readers with a known result -/

/-- On the input `i`, `x` returns `a` and stops at `j` if `p` holds, and fails otherwise. -/
structure ReadsIff (x : Reader ε σ α) (i : Input σ) (p : Prop) (a : α) (j : Input σ) : Prop where
  reads : p → x i = .ok a j
  only : ∀ b k, x i = .ok b k → p

namespace ReadsIff

variable {x : Reader ε σ α} {i j k : Input σ} {a : α} {p q : Prop}

theorem of_ok (h : x i = .ok a j) : ReadsIff x i True a j :=
  ⟨fun _ => h, fun _ _ _ => True.intro⟩

theorem congr (h : ReadsIff x i p a j) (hpq : p ↔ q) : ReadsIff x i q a j := propext hpq ▸ h

theorem of_eq {y : Reader ε σ α} {i' : Input σ} (h : ReadsIff y i' p a j) (heq : x i = y i') :
    ReadsIff x i p a j :=
  ⟨fun hp => heq.trans (h.reads hp), fun b k hx => h.only b k (heq.symm.trans hx)⟩

theorem of_ne (h : ∀ b k, x i ≠ .ok b k) (hp : ¬ p) : ReadsIff x i p a j :=
  ⟨fun hp' => absurd hp' hp, fun b k hx => absurd hx (h b k)⟩

theorem bind {f : α → Reader ε σ β} {b : β} (hx : ReadsIff x i p a j)
    (hf : ReadsIff (f a) j q b k) : ReadsIff (x >>= f) i (p ∧ q) b k := by
  constructor
  · intro h
    rw [bind_eq_of_ok (hx.reads h.1)]
    exact hf.reads h.2
  · intro b' k' h
    obtain ⟨a', j', hxa, hfa⟩ := bind_ok_iff.mp h
    have hp := hx.only a' j' hxa
    have heq := hxa.symm.trans (hx.reads hp)
    simp only [EStateM.Result.ok.injEq] at heq
    rw [heq.1, heq.2] at hfa
    exact ⟨hp, hf.only b' k' hfa⟩

theorem bind_ok {f : α → Reader ε σ β} {b : β} (hx : x i = .ok a j)
    (hf : ReadsIff (f a) j q b k) : ReadsIff (x >>= f) i q b k :=
  ((of_ok hx).bind hf).congr (by simp)

theorem map {f : α → β} (hx : ReadsIff x i p a j) : ReadsIff (f <$> x) i p (f a) j :=
  (hx.bind (of_ok (a := f a) (x := pure (f a)) rfl)).congr (by simp)

/-- Entering a state, reading in it, and leaving it again. -/
theorem within {enter : σ → Except ε σ} {leave : σ → σ} {b r : Bytes} {st st' : σ}
    (henter : enter st = .ok st') (hleave : leave st' = st)
    (hx : ReadsIff x ⟨b, st'⟩ p a ⟨r, st'⟩) :
    ReadsIff (within enter leave x) ⟨b, st⟩ p a ⟨r, st⟩ := by
  constructor
  · intro hp
    simp only [ByteReader.within, henter, hx.reads hp, hleave]
  · intro a' j' h
    simp only [ByteReader.within, henter] at h
    cases hres : x ⟨b, st'⟩ with
    | error e i' => simp [hres] at h
    | ok a'' i' => exact hx.only _ _ hres

end ReadsIff

theorem within_ok {x : Reader ε σ α} {enter : σ → Except ε σ} {leave : σ → σ} {b : Bytes} {st : σ}
    {a : α} {j : Input σ} (h : within enter leave x ⟨b, st⟩ = .ok a j) :
    ∃ st' k, enter st = .ok st' ∧ x ⟨b, st'⟩ = .ok a k := by
  unfold within at h
  cases hst : enter st with
  | error e => simp [hst] at h
  | ok st' =>
    simp only [hst] at h
    cases hres : x ⟨b, st'⟩ with
    | error e k => simp [hres] at h
    | ok a' k =>
      simp only [hres, EStateM.Result.ok.injEq] at h
      exact ⟨st', k, rfl, h.1 ▸ hres⟩

theorem within_ne_ok {x : Reader ε σ α} {enter : σ → Except ε σ} {leave : σ → σ} {i : Input σ}
    {e : ε} (henter : enter i.state = .error e) (a : α) (j : Input σ) :
    within enter leave x i ≠ .ok a j := by
  simp [within, henter]

end ByteReader
