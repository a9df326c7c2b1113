-- SUMMARY: Decimal texts of integers, and reading them.
import ReticulumMf.Lib.BigEndian
import Mathlib.Data.Nat.Digits.Defs
import Mathlib.Data.Nat.Digits.Lemmas

/-!
# Decimal integers

An integer is written as its decimal digits, after a minus sign if it is negative, and
read with an optional sign of either kind (`parse_format`).
-/

namespace Decimal

def digitByte (d : Nat) : UInt8 := UInt8.ofNat (48 + d)

def isDigit (b : UInt8) : Bool := 48 ≤ b && b ≤ 57

def formatNat (n : Nat) : Bytes :=
  if n = 0 then [48] else (Nat.digits 10 n).reverse.map digitByte

def format (n : Int) : Bytes :=
  if n < 0 then 45 :: formatNat n.natAbs else formatNat n.natAbs

/-- The value of digits. -/
def value (ds : Bytes) : Nat := ds.foldl (fun n d => 10 * n + (d.toNat - 48)) 0

def parseNat (ds : Bytes) : Option Nat :=
  if ds ≠ [] ∧ ds.all isDigit then some (value ds) else none

def parse : Bytes → Option Int
  | 45 :: ds => (parseNat ds).map fun n : Nat => -(n : Int)
  | 43 :: ds => (parseNat ds).map Int.ofNat
  | ds => (parseNat ds).map Int.ofNat

theorem digitByte_toNat {d : Nat} (h : d < 10) : (digitByte d).toNat = 48 + d := by
  simp only [digitByte, UInt8.toNat_ofNat']
  omega

theorem isDigit_iff {b : UInt8} : isDigit b = true ↔ 48 ≤ b.toNat ∧ b.toNat ≤ 57 := by
  simp [isDigit, UInt8.le_iff_toNat_le]

theorem formatNat_isDigit {n : Nat} {b : UInt8} (h : b ∈ formatNat n) : isDigit b = true := by
  unfold formatNat at h
  split at h
  · rw [List.mem_singleton.mp h]
    rfl
  · obtain ⟨d, hd, rfl⟩ := List.mem_map.mp h
    have hlt := Nat.digits_lt_base (by decide) (List.mem_reverse.mp hd)
    rw [isDigit_iff, digitByte_toNat hlt]
    omega

theorem formatNat_ne_nil (n : Nat) : formatNat n ≠ [] := by
  unfold formatNat
  split
  · exact List.cons_ne_nil _ _
  · rename_i hn
    rw [Ne, List.map_eq_nil_iff, List.reverse_eq_nil_iff]
    exact Nat.digits_ne_nil_iff_ne_zero.mpr hn

theorem value_map_digitByte {ds : List Nat} (h : ∀ d ∈ ds, d < 10) :
    value (ds.reverse.map digitByte) = Nat.ofDigits 10 ds := by
  rw [value, List.map_reverse, List.foldl_reverse, List.foldr_map, Nat.ofDigits_eq_foldr]
  induction ds with
  | nil => rfl
  | cons d ds ih =>
    rw [List.foldr_cons, List.foldr_cons, ih (fun d' hd' => h d' (List.mem_cons_of_mem d hd')),
      digitByte_toNat (h d List.mem_cons_self), Nat.add_sub_cancel_left, Nat.add_comm]
    rfl

theorem value_formatNat (n : Nat) : value (formatNat n) = n := by
  unfold formatNat
  split
  · rename_i hn
    rw [hn]
    rfl
  · rw [value_map_digitByte fun d hd => Nat.digits_lt_base (by decide) hd, Nat.ofDigits_digits]

theorem parseNat_formatNat (n : Nat) : parseNat (formatNat n) = some n := by
  have hall : (formatNat n).all isDigit = true := List.all_eq_true.mpr fun _ hb => formatNat_isDigit hb
  rw [parseNat, if_pos ⟨formatNat_ne_nil n, hall⟩, value_formatNat]

theorem parse_format (n : Int) : parse (format n) = some n := by
  have hparse := parseNat_formatNat n.natAbs
  unfold format
  split
  · rename_i hneg
    rw [parse, hparse, Option.map_some]
    congr 1
    omega
  · rename_i hpos
    unfold parse
    split
    · rename_i ds hds
      have hdigit := formatNat_isDigit (n := n.natAbs) (b := 45) (by rw [hds]; simp)
      cases hdigit
    · rename_i ds hds
      have hdigit := formatNat_isDigit (n := n.natAbs) (b := 43) (by rw [hds]; simp)
      cases hdigit
    · rw [hparse, Option.map_some, Int.ofNat_eq_natCast]
      congr 1
      omega

theorem format_ne_nil (n : Int) : format n ≠ [] := by
  unfold format
  split
  · exact List.cons_ne_nil _ _
  · exact formatNat_ne_nil _

/-- What is written are digits and the minus sign. -/
theorem mem_format {n : Int} {b : UInt8} (h : b ∈ format n) : b = 45 ∨ isDigit b = true := by
  unfold format at h
  split at h
  · exact (List.mem_cons.mp h).imp_right formatNat_isDigit
  · exact .inr (formatNat_isDigit h)

theorem length_format {n : Int} {k : Nat} (h : n.natAbs < 10 ^ (k + 1)) : (format n).length ≤ k + 2 := by
  have hnat : (formatNat n.natAbs).length ≤ k + 1 := by
    unfold formatNat
    split
    · simp
    · rw [List.length_map, List.length_reverse]
      exact (Nat.digits_length_le_iff (by decide) _).mpr h
  unfold format
  split
  · simpa using hnat
  · omega

/-! ## Digits of a fraction -/

/-- The last `w` digits of a number, with zeros in front. -/
def padded : Nat → Nat → Bytes
  | 0, _ => []
  | w + 1, n => padded w (n / 10) ++ [digitByte (n % 10)]

theorem value_append (ds es : Bytes) : value (ds ++ es) = value ds * 10 ^ es.length + value es := by
  induction es using List.reverseRecOn with
  | nil => simp [value]
  | append_singleton es e ih =>
    have hlast (xs : Bytes) : value (xs ++ [e]) = 10 * value xs + (e.toNat - 48) := by
      simp only [value, List.foldl_append, List.foldl_cons, List.foldl_nil]
    rw [← List.append_assoc, hlast, hlast, ih, List.length_append, List.length_singleton, Nat.pow_succ]
    ring

theorem length_padded (w n : Nat) : (padded w n).length = w := by
  induction w generalizing n with
  | zero => rfl
  | succ w ih => rw [padded, List.length_append, ih, List.length_singleton]

theorem padded_isDigit {w n : Nat} {b : UInt8} (h : b ∈ padded w n) : isDigit b = true := by
  induction w generalizing n with
  | zero => cases h
  | succ w ih =>
    cases List.mem_append.mp h with
    | inl hmem => exact ih hmem
    | inr hlast =>
      rw [List.mem_singleton.mp hlast, isDigit_iff, digitByte_toNat (by omega)]
      omega

theorem value_padded (w n : Nat) : value (padded w n) = n % 10 ^ w := by
  induction w generalizing n with
  | zero => simp [padded, value, Nat.mod_one]
  | succ w ih =>
    have hdigit : value [digitByte (n % 10)] = n % 10 := by
      simp only [value, List.foldl_cons, List.foldl_nil]
      rw [digitByte_toNat (by omega)]
      omega
    have hmod : n % 10 ^ (w + 1) = n % 10 + 10 * (n / 10 % 10 ^ w) := by rw [Nat.pow_succ', Nat.mod_mul]
    rw [padded, value_append, ih, hdigit, List.length_singleton, hmod]
    ring

theorem value_append_zeros (ds : Bytes) (k : Nat) : value (ds ++ List.replicate k 48) = value ds * 10 ^ k := by
  have hzeros : value (List.replicate k 48) = 0 := by
    induction k with
    | zero => rfl
    | succ k ih =>
      rw [List.replicate_succ', value_append, ih]
      rfl
  rw [value_append, hzeros, List.length_replicate, Nat.add_zero]

end Decimal
