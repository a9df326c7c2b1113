-- SUMMARY: Files on a disk, and the system calls that create, write, rename and remove them.
import Mathlib.Data.Option.Basic
import Mathlib.Logic.Function.Basic

/-!
# Files

A name refers to a file, and a file has bytes. A file stays the same file when it gets
another name, and when its name is taken away it stays for those who have it open. No
file has two names, so that whatever is done by way of one name concerns the contents
under that name only.
-/

namespace Files

structure Disk (Path : Type) where
  names : Path → Option Nat
  bytes : Nat → List UInt8
  /-- The number of the next new file. -/
  next : Nat
  used : ∀ {p i}, names p = some i → i < next
  inj : ∀ {p q i}, names p = some i → names q = some i → p = q

variable {Path : Type} {d d' : Disk Path} {p q a b : Path} {i j : Nat}

namespace Disk

theorem none_ne_some {P : Prop} (h : (none : Option Nat) = some i) : P := by cases h

/-- A disk without files. -/
def empty : Disk Path where
  names _ := none
  bytes _ := []
  next := 0
  used := none_ne_some
  inj := none_ne_some

/-- What is found under a name. -/
def content (d : Disk Path) (p : Path) : Option (List UInt8) := (d.names p).map d.bytes

theorem content_eq (h : d.names p = some i) : d.content p = some (d.bytes i) := by
  rw [content, h, Option.map_some]

theorem content_congr (hnames : d'.names p = d.names p)
    (hbytes : ∀ i, d.names p = some i → d'.bytes i = d.bytes i) : d'.content p = d.content p := by
  rw [content, content, hnames]
  exact Option.map_congr hbytes

/-! ## Writing -/

/-- The bytes `bs` written over `old` at an offset. A gap before it is filled with zeros. -/
def splice (old : List UInt8) (off : Nat) (bs : List UInt8) : List UInt8 :=
  old.take off ++ List.replicate (off - old.length) 0 ++ bs ++ old.drop (off + bs.length)

/-- At the end of the old bytes, new ones are appended. -/
theorem splice_length (old bs : List UInt8) : splice old old.length bs = old ++ bs := by
  simp [splice]

def write (d : Disk Path) (i off : Nat) (bs : List UInt8) : Disk Path :=
  { d with bytes := Function.update d.bytes i (splice (d.bytes i) off bs) }

@[simp] theorem write_bytes_self {off : Nat} {bs : List UInt8} :
    (d.write i off bs).bytes i = splice (d.bytes i) off bs := Function.update_self ..

theorem write_bytes_of_ne {off : Nat} {bs : List UInt8} (h : j ≠ i) :
    (d.write i off bs).bytes j = d.bytes j := Function.update_of_ne h ..

/-- Writing to a file under one name leaves what is found under the others. -/
theorem write_bytes_of_names {off : Nat} {bs : List UInt8} (hp : d.names p = some i)
    (hq : d.names q = some j) (hne : q ≠ p) : (d.write i off bs).bytes j = d.bytes j :=
  write_bytes_of_ne fun hji => hne (d.inj (hji ▸ hq) hp)

theorem content_write_of_ne {off : Nat} {bs : List UInt8} (hp : d.names p = some i) (h : q ≠ p) :
    (d.write i off bs).content q = d.content q :=
  content_congr rfl fun _ hj => write_bytes_of_names hp hj h

/-! ## Creating -/

/-- The file that creating `p` opens: the one of that name, or a new one. -/
def fileAt (d : Disk Path) (p : Path) : Nat := (d.names p).getD d.next

theorem eq_of_fileAt (h : d.names q = some (d.fileAt p)) : q = p := by
  cases hp : d.names p with
  | none =>
    rw [fileAt, hp, Option.getD_none] at h
    exact absurd (d.used h) (Nat.lt_irrefl _)
  | some i =>
    rw [fileAt, hp, Option.getD_some] at h
    exact d.inj h hp

variable [DecidableEq Path]

theorem create_used (h : Function.update d.names p (some (d.fileAt p)) a = some i) :
    i < max d.next (d.fileAt p + 1) := by
  by_cases ha : a = p
  · subst ha
    rw [Function.update_self, Option.some.injEq] at h
    omega
  · rw [Function.update_of_ne ha] at h
    have := d.used h
    omega

theorem create_inj (ha : Function.update d.names p (some (d.fileAt p)) a = some i)
    (hb : Function.update d.names p (some (d.fileAt p)) b = some i) : a = b := by
  by_cases hap : a = p <;> by_cases hbp : b = p
  · rw [hap, hbp]
  · subst hap
    rw [Function.update_self, Option.some.injEq] at ha
    rw [Function.update_of_ne hbp, ← ha] at hb
    exact absurd (eq_of_fileAt hb) hbp
  · subst hbp
    rw [Function.update_self, Option.some.injEq] at hb
    rw [Function.update_of_ne hap, ← hb] at ha
    exact absurd (eq_of_fileAt ha) hap
  · rw [Function.update_of_ne hap] at ha
    rw [Function.update_of_ne hbp] at hb
    exact d.inj ha hb

/-- Opening a file with `O_CREATE` and `O_TRUNC`. -/
def create (d : Disk Path) (p : Path) : Disk Path where
  names := Function.update d.names p (some (d.fileAt p))
  bytes := Function.update d.bytes (d.fileAt p) []
  next := max d.next (d.fileAt p + 1)
  used := create_used
  inj := create_inj

@[simp] theorem create_names_self : (d.create p).names p = some (d.fileAt p) := Function.update_self ..

theorem create_names_of_ne (h : q ≠ p) : (d.create p).names q = d.names q := Function.update_of_ne h ..

@[simp] theorem create_bytes_self : (d.create p).bytes (d.fileAt p) = [] := Function.update_self ..

theorem create_bytes_of_ne (h : i ≠ d.fileAt p) : (d.create p).bytes i = d.bytes i :=
  Function.update_of_ne h ..

theorem le_create_next : d.next ≤ (d.create p).next := Nat.le_max_left ..

/-- The file of another name is left as it is. -/
theorem create_bytes_of_names (h : d.names q = some i) (hne : q ≠ p) :
    (d.create p).bytes i = d.bytes i :=
  create_bytes_of_ne fun hi => hne (eq_of_fileAt (hi ▸ h))

theorem content_create_of_ne (h : q ≠ p) : (d.create p).content q = d.content q :=
  content_congr (create_names_of_ne h) fun _ hi => create_bytes_of_names hi h

/-! ## Renaming and removing -/

theorem remove_used (h : Function.update d.names p none a = some i) : i < d.next := by
  by_cases ha : a = p
  · rw [ha, Function.update_self] at h
    cases h
  · rw [Function.update_of_ne ha] at h
    exact d.used h

theorem remove_inj (ha : Function.update d.names p none a = some i)
    (hb : Function.update d.names p none b = some i) : a = b := by
  by_cases hap : a = p
  · rw [hap, Function.update_self] at ha
    cases ha
  · by_cases hbp : b = p
    · rw [hbp, Function.update_self] at hb
      cases hb
    · rw [Function.update_of_ne hap] at ha
      rw [Function.update_of_ne hbp] at hb
      exact d.inj ha hb

def remove (d : Disk Path) (p : Path) : Disk Path where
  names := Function.update d.names p none
  bytes := d.bytes
  next := d.next
  used := remove_used
  inj := remove_inj

@[simp] theorem remove_names_self : (d.remove p).names p = none := Function.update_self ..

theorem remove_names_of_ne (h : q ≠ p) : (d.remove p).names q = d.names q := Function.update_of_ne h ..

theorem content_remove_of_ne (h : q ≠ p) : (d.remove p).content q = d.content q :=
  content_congr (remove_names_of_ne h) fun _ _ => rfl

theorem ne_of_remove (hp : d.names p = some i) (ha : (d.remove p).names a = some i) : False := by
  by_cases hap : a = p
  · rw [hap, remove_names_self] at ha
    cases ha
  · rw [remove_names_of_ne hap] at ha
    exact hap (d.inj ha hp)

theorem rename_used (hp : d.names p = some i)
    (h : Function.update (d.remove p).names q (some i) a = some j) : j < d.next := by
  by_cases ha : a = q
  · rw [ha, Function.update_self, Option.some.injEq] at h
    exact h ▸ d.used hp
  · rw [Function.update_of_ne ha] at h
    exact (d.remove p).used h

theorem rename_inj (hp : d.names p = some i)
    (ha : Function.update (d.remove p).names q (some i) a = some j)
    (hb : Function.update (d.remove p).names q (some i) b = some j) : a = b := by
  by_cases haq : a = q <;> by_cases hbq : b = q
  · rw [haq, hbq]
  · rw [haq, Function.update_self, Option.some.injEq] at ha
    rw [Function.update_of_ne hbq, ← ha] at hb
    exact (ne_of_remove hp hb).elim
  · rw [hbq, Function.update_self, Option.some.injEq] at hb
    rw [Function.update_of_ne haq, ← hb] at ha
    exact (ne_of_remove hp ha).elim
  · rw [Function.update_of_ne haq] at ha
    rw [Function.update_of_ne hbq] at hb
    exact (d.remove p).inj ha hb

/-- `p` becomes `q`, in one step; what was found under `q` is so no more. -/
def rename (d : Disk Path) (p q : Path) : Option (Disk Path) :=
  match hp : d.names p with
  | none => none
  | some i =>
    some
      { names := Function.update (d.remove p).names q (some i)
        bytes := d.bytes
        next := d.next
        used := rename_used hp
        inj := rename_inj hp }

/-- What a renaming has done. -/
structure Renamed (d : Disk Path) (p q : Path) (d' : Disk Path) : Prop where
  bytes : d'.bytes = d.bytes
  next : d'.next = d.next
  target : d'.names q = d.names p
  source : p ≠ q → d'.names p = none
  other : ∀ {a}, a ≠ p → a ≠ q → d'.names a = d.names a

theorem renamed (h : d.rename p q = some d') : d.Renamed p q d' := by
  unfold rename at h
  split at h
  · cases h
  · rename_i i hp
    cases h
    refine ⟨rfl, rfl, ?_, fun hne => ?_, fun hap haq => ?_⟩
    · exact (Function.update_self ..).trans hp.symm
    · exact (Function.update_of_ne hne ..).trans remove_names_self
    · exact (Function.update_of_ne haq ..).trans (remove_names_of_ne hap)

omit [DecidableEq Path] in
theorem Renamed.content_target (h : d.Renamed p q d') : d'.content q = d.content p := by
  rw [content, content, h.target, h.bytes]

omit [DecidableEq Path] in
theorem Renamed.content_of_ne (h : d.Renamed p q d') (hap : a ≠ p) (haq : a ≠ q) :
    d'.content a = d.content a :=
  content_congr (h.other hap haq) fun _ _ => by rw [h.bytes]

end Disk

end Files
