-- SUMMARY: Go values held in an `any`, as the MessagePack code writes and reads them, and Go map iteration order.
import ReticulumMf.Lib.BigEndian
import Mathlib.Data.List.Perm.Basic

/-!
# Go values behind an `any`

The dynamic values that reach the encoder or come out of the decoder. A map is
the list of its entries; which order a `range` over it visits them in is not
part of the value, and is supplied by a `MapOrder`.
-/

namespace Msgpack

/-- The Go integer types. -/
inductive IntKind where
  | int | int8 | int16 | int32 | int64
  | uint | uint8 | uint16 | uint32 | uint64
  deriving DecidableEq, Repr

namespace IntKind

def width : IntKind → Nat
  | int8 | uint8 => 8
  | int16 | uint16 => 16
  | int32 | uint32 => 32
  | int | int64 | uint | uint64 => 64

def signed : IntKind → Bool
  | int | int8 | int16 | int32 | int64 => true
  | uint | uint8 | uint16 | uint32 | uint64 => false

/-- The number a bit pattern denotes at this type. -/
def value (k : IntKind) (v : BitVec k.width) : Int :=
  if k.signed then v.toInt else v.toNat

theorem width_le (k : IntKind) : k.width ≤ 64 := by
  cases k <;> decide

theorem value_lt (k : IntKind) (v : BitVec k.width) : k.value v < 2 ^ 64 := by
  have hv := v.isLt
  have hpow : 2 ^ k.width ≤ 2 ^ 64 := Nat.pow_le_pow_right (by decide) k.width_le
  unfold value
  split
  · have := v.toInt_lt
    have : (2 : Int) ^ (k.width - 1) ≤ 2 ^ 63 := by cases k <;> decide
    omega
  · omega

theorem le_value (k : IntKind) (v : BitVec k.width) : -2 ^ 63 ≤ k.value v := by
  unfold value
  split
  · have := v.le_toInt
    have : (2 : Int) ^ (k.width - 1) ≤ 2 ^ 63 := by cases k <;> decide
    omega
  · omega

end IntKind

/-- The values that can be a map key: Go's comparable dynamic values. Strings
are byte strings, and a float is its IEEE bit pattern. -/
inductive Scalar where
  | nil
  | bool (b : Bool)
  | int (k : IntKind) (v : BitVec k.width)
  | float32 (bits : BitVec 32)
  | float64 (bits : BitVec 64)
  | string (s : Bytes)
  | time (sec : BitVec 64) (nsec : Nat)
  deriving DecidableEq, Repr

/-- The extension type -1 of a timestamp, as the byte on the wire. -/
def timeExtID : UInt8 := 0xff

/-- A string is shorter than `2^32`, the most a MessagePack length can say. -/
def Scalar.Fits : Scalar → Prop
  | .string s => s.length < 2 ^ 32
  | _ => True

/-- The map types behind an `any`: `map[byte]any`, `map[string]any` and
`map[any]any`. -/
inductive MapKind where
  | byte | string | any
  deriving DecidableEq, Repr

/-- The types whose nil value is still a typed value. -/
inductive NilKind where
  | bytes | slice | map (k : MapKind)
  deriving DecidableEq, Repr

/-- A Go value held in an `any`. Slices and maps are the non-nil ones;
`unsupported` stands for channels, functions and complex numbers. -/
inductive Any where
  | scalar (s : Scalar)
  | bytes (b : Bytes)
  | slice (xs : List Any)
  | map (k : MapKind) (es : List (Scalar × Any))
  | typedNil (k : NilKind)
  | unsupported (typ : String)
  deriving Repr

namespace Any

/-- Induction over values, with the hypothesis for every element of a slice and
every entry of a map. -/
@[elab_as_elim]
theorem induct {motive : Any → Prop}
    (scalar : ∀ s, motive (.scalar s)) (bytes : ∀ b, motive (.bytes b))
    (slice : ∀ xs, (∀ x ∈ xs, motive x) → motive (.slice xs))
    (map : ∀ k es, (∀ e ∈ es, motive e.2) → motive (.map k es))
    (typedNil : ∀ k, motive (.typedNil k)) (unsupported : ∀ t, motive (.unsupported t)) :
    ∀ v, motive v
  | .scalar s => scalar s
  | .bytes b => bytes b
  | .slice xs => slice xs (fun x _ => induct scalar bytes slice map typedNil unsupported x)
  | .map k es => map k es (fun e _ => induct scalar bytes slice map typedNil unsupported e.2)
  | .typedNil k => typedNil k
  | .unsupported t => unsupported t
termination_by v => sizeOf v
decreasing_by
  · rename_i h
    have := List.sizeOf_lt_of_mem h
    simp only [Any.slice.sizeOf_spec]
    omega
  · rename_i h
    have hmem := List.sizeOf_lt_of_mem h
    have hsnd : sizeOf e.2 < sizeOf e := by cases e; simp
    simp only [Any.map.sizeOf_spec]
    omega

mutual

/-- `p` holds of the value and of every value in it. -/
def Forall (p : Any → Prop) : Any → Prop
  | .slice xs => p (.slice xs) ∧ ForallElems p xs
  | .map k es => p (.map k es) ∧ ForallEntries p es
  | .scalar s => p (.scalar s)
  | .bytes b => p (.bytes b)
  | .typedNil k => p (.typedNil k)
  | .unsupported t => p (.unsupported t)

def ForallElems (p : Any → Prop) : List Any → Prop
  | [] => True
  | x :: xs => x.Forall p ∧ ForallElems p xs

def ForallEntries (p : Any → Prop) : List (Scalar × Any) → Prop
  | [] => True
  | (_, v) :: es => v.Forall p ∧ ForallEntries p es

end

theorem forall_slice_iff {p : Any → Prop} {xs : List Any} :
    (slice xs).Forall p ↔ p (.slice xs) ∧ ∀ x ∈ xs, x.Forall p := by
  have helems : ForallElems p xs ↔ ∀ x ∈ xs, x.Forall p := by
    induction xs with
    | nil => simp [ForallElems]
    | cons x xs ih => simp [ForallElems, ih]
  rw [Forall, helems]

theorem forall_map_iff {p : Any → Prop} {k : MapKind} {es : List (Scalar × Any)} :
    (map k es).Forall p ↔ p (.map k es) ∧ ∀ e ∈ es, e.2.Forall p := by
  have hentries : ForallEntries p es ↔ ∀ e ∈ es, e.2.Forall p := by
    induction es with
    | nil => simp [ForallEntries]
    | cons e es ih => simp [ForallEntries, ih]
  rw [Forall, hentries]

theorem Forall.imp {p q : Any → Prop} (hpq : ∀ v, p v → q v) {v : Any} (h : v.Forall p) :
    v.Forall q := by
  induction v using Any.induct with
  | slice xs ih =>
    obtain ⟨hp, hxs⟩ := forall_slice_iff.mp h
    exact forall_slice_iff.mpr ⟨hpq _ hp, fun x hx => ih x hx (hxs x hx)⟩
  | map k es ih =>
    obtain ⟨hp, hes⟩ := forall_map_iff.mp h
    exact forall_map_iff.mpr ⟨hpq _ hp, fun e he => ih e he (hes e he)⟩
  | scalar s => exact hpq _ h
  | bytes b => exact hpq _ h
  | typedNil k => exact hpq _ h
  | unsupported t => exact hpq _ h

/-- A string, byte slice, slice or map is shorter than `2^32`, and so are the
keys of a map. -/
def LengthFits : Any → Prop
  | .scalar s => s.Fits
  | .bytes b => b.length < 2 ^ 32
  | .slice xs => xs.length < 2 ^ 32
  | .map _ es => es.length < 2 ^ 32 ∧ ∀ e ∈ es, e.1.Fits
  | .typedNil _ | .unsupported _ => True

/-- Every length in the value can be written. -/
def Fits (v : Any) : Prop := v.Forall LengthFits

end Any

/-! ## Map iteration order -/

/-- The order in which one traversal of a value visits the entries of each map
in it. Maps are told apart by their path, so equal maps at different places may
be visited in different orders. -/
structure MapOrder where
  perm : List Nat → List (Scalar × Any) → List (Scalar × Any)
  isPerm : ∀ path es, (perm path es).Perm es

namespace MapOrder

/-- The order in which the entries are listed. -/
def listed : MapOrder := ⟨fun _ es => es, fun _ es => .refl es⟩

/-- Every map back to front. -/
def reversed : MapOrder := ⟨fun _ es => es.reverse, fun _ es => es.reverse_perm⟩

variable (o : MapOrder)

mutual

/-- The value with the entries of every map listed in the order they are visited. -/
def visit (path : List Nat) : Any → Any
  | .slice xs => .slice (visitAll path 0 xs)
  | .map k es => .map k (o.perm path (visitEntries path 0 es))
  | .scalar s => .scalar s
  | .bytes b => .bytes b
  | .typedNil k => .typedNil k
  | .unsupported t => .unsupported t

def visitAll (path : List Nat) (i : Nat) : List Any → List Any
  | [] => []
  | x :: xs => visit (i :: path) x :: visitAll path (i + 1) xs

def visitEntries (path : List Nat) (i : Nat) :
    List (Scalar × Any) → List (Scalar × Any)
  | [] => []
  | (k, v) :: es => (k, visit (i :: path) v) :: visitEntries path (i + 1) es

end

end MapOrder

end Msgpack
