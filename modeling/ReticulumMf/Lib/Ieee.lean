-- SUMMARY: The numbers that IEEE bit patterns denote.
import Mathlib.Algebra.Field.Rat
import Mathlib.Algebra.GroupWithZero.Basic
import Mathlib.Tactic.FieldSimp
import Mathlib.Tactic.NormNum
import Mathlib.Tactic.Ring

/-!
# IEEE formats

A bit pattern has a sign, an exponent and a fraction. `Format.value` is the rational
number it denotes, if it is neither infinite nor a NaN.
-/

namespace Ieee

structure Format where
  expBits : Nat
  fracBits : Nat

def binary32 : Format := ⟨8, 23⟩
def binary64 : Format := ⟨11, 52⟩

namespace Format

variable (f : Format)

/-- The exponent of the last bit of a subnormal number. -/
def minExp : Int := 2 - 2 ^ (f.expBits - 1) - f.fracBits

/-- A pattern put together from its fields. -/
def ofFields (sign exp frac : Nat) : Nat :=
  sign * 2 ^ (f.expBits + f.fracBits) + (exp * 2 ^ f.fracBits + frac)

def magnitude (exp frac : Nat) : ℚ :=
  if exp = 0 then frac * 2 ^ f.minExp
  else (2 ^ f.fracBits + frac) * 2 ^ (f.minExp + (exp - 1))

def fieldsValue (sign exp frac : Nat) : Option ℚ :=
  if exp = 2 ^ f.expBits - 1 then none
  else some (if sign = 0 then f.magnitude exp frac else -f.magnitude exp frac)

/-- The number that a pattern denotes. -/
def value (bits : Nat) : Option ℚ :=
  f.fieldsValue (bits / 2 ^ (f.expBits + f.fracBits)) (bits / 2 ^ f.fracBits % 2 ^ f.expBits)
    (bits % 2 ^ f.fracBits)

variable {f} {sign exp frac : Nat}

theorem value_ofFields (hexp : exp < 2 ^ f.expBits) (hfrac : frac < 2 ^ f.fracBits) :
    f.value (f.ofFields sign exp frac) = f.fieldsValue sign exp frac := by
  have hpow : 2 ^ (f.expBits + f.fracBits) = 2 ^ f.expBits * 2 ^ f.fracBits := Nat.pow_add ..
  have hpos : 0 < 2 ^ f.fracBits := Nat.two_pow_pos _
  have hhigh : f.ofFields sign exp frac =
      frac + 2 ^ f.fracBits * (exp + 2 ^ f.expBits * sign) := by
    rw [ofFields, hpow]
    ring
  have hfracEq : f.ofFields sign exp frac % 2 ^ f.fracBits = frac := by
    rw [hhigh, Nat.add_mul_mod_self_left, Nat.mod_eq_of_lt hfrac]
  have hdiv : f.ofFields sign exp frac / 2 ^ f.fracBits = exp + 2 ^ f.expBits * sign := by
    rw [hhigh, Nat.add_mul_div_left _ _ hpos, Nat.div_eq_of_lt hfrac, Nat.zero_add]
  have hexpEq : f.ofFields sign exp frac / 2 ^ f.fracBits % 2 ^ f.expBits = exp := by
    rw [hdiv, Nat.add_mul_mod_self_left, Nat.mod_eq_of_lt hexp]
  have hsignEq : f.ofFields sign exp frac / 2 ^ (f.expBits + f.fracBits) = sign := by
    rw [hpow, Nat.mul_comm, ← Nat.div_div_eq_div_mul, hdiv,
      Nat.add_mul_div_left _ _ (Nat.two_pow_pos _), Nat.div_eq_of_lt hexp, Nat.zero_add]
  rw [value, hsignEq, hexpEq, hfracEq]

theorem fieldsValue_infinite (h : exp = 2 ^ f.expBits - 1) : f.fieldsValue sign exp frac = none :=
  if_pos h

/-- A scaled fraction moves its scale into the exponent. -/
theorem mul_two_pow_zpow (m k : Nat) (e : Int) : (m * 2 ^ k : ℚ) * 2 ^ e = m * 2 ^ (k + e) := by
  rw [zpow_add₀ two_ne_zero, zpow_natCast, mul_assoc]

end Format

theorem binary32_minExp : binary32.minExp = -149 := rfl

theorem binary64_minExp : binary64.minExp = -1074 := rfl

/-- A normal number is an integer times a power of two. -/
theorem binary64_normal {exp frac : Nat} (hexp : exp ≠ 0) :
    binary64.magnitude exp frac = (2 ^ 52 + frac : ℕ) * (2 : ℚ) ^ ((exp : ℤ) - 1075) := by
  have hmin : binary64.minExp + ((exp : ℤ) - 1) = exp - 1075 := by
    rw [binary64_minExp]
    omega
  rw [Format.magnitude, if_neg hexp, hmin, Nat.cast_add, Nat.cast_pow, Nat.cast_ofNat]
  rfl

end Ieee
