-- SUMMARY: Hexadecimal texts of byte strings.
import ReticulumMf.Lib.Except
import ReticulumMf.Lib.Decimal

/-!
# Hexadecimal texts

A byte is written as two digits in lower case. Digits are read in either case, and a text
is accepted exactly if it is an even number of them (`decodeString_accepts_iff`).
-/

namespace Lxmf

def hexDigit (n : Nat) : UInt8 := UInt8.ofNat (if n < 10 then 48 + n else 87 + n)

/-- `hex.EncodeToString`. -/
def encodeToString (bs : Bytes) : Bytes := bs.flatMap fun b => [hexDigit (b.toNat / 16), hexDigit (b.toNat % 16)]

inductive HexError where
  | invalidByte (b : UInt8)
  | length
  deriving DecidableEq

def isHexDigit (b : UInt8) : Bool :=
  Decimal.isDigit b || (97 ≤ b && b ≤ 102) || (65 ≤ b && b ≤ 70)

/-- The value of a digit. -/
def hexValue (b : UInt8) : Nat :=
  if b ≤ 57 then b.toNat - 48 else if 97 ≤ b then b.toNat - 87 else b.toNat - 55

/-- `hex.DecodeString`. -/
def decodeString : Bytes → Except HexError Bytes
  | [] => .ok []
  | [p] => if isHexDigit p then .error .length else .error (.invalidByte p)
  | p :: q :: rest =>
    if isHexDigit p then
      if isHexDigit q then (UInt8.ofNat (16 * hexValue p + hexValue q) :: ·) <$> decodeString rest
      else .error (.invalidByte q)
    else .error (.invalidByte p)

/-! ## Reading back -/

theorem hexDigit_spec {n : Nat} (h : n < 16) : isHexDigit (hexDigit n) = true ∧ hexValue (hexDigit n) = n := by
  have hall : ∀ n < 16, isHexDigit (hexDigit n) = true ∧ hexValue (hexDigit n) = n := by decide
  exact hall n h

theorem decodeString_encodeToString (bs : Bytes) : decodeString (encodeToString bs) = .ok bs := by
  induction bs with
  | nil => rfl
  | cons b bs ih =>
    have hb := b.toNat_lt
    obtain ⟨hhigh, hhighValue⟩ := hexDigit_spec (n := b.toNat / 16) (by omega)
    obtain ⟨hlow, hlowValue⟩ := hexDigit_spec (n := b.toNat % 16) (by omega)
    have hbyte : UInt8.ofNat (16 * (b.toNat / 16) + b.toNat % 16) = b := by
      rw [Nat.div_add_mod, UInt8.ofNat_toNat]
    rw [encodeToString, List.flatMap_cons, ← encodeToString, List.cons_append, List.singleton_append, decodeString,
      if_pos hhigh, if_pos hlow, hhighValue, hlowValue, hbyte, ih]
    rfl

theorem encodeToString_inj {a b : Bytes} (h : encodeToString a = encodeToString b) : a = b := by
  have hdecode := decodeString_encodeToString a
  rw [h, decodeString_encodeToString b] at hdecode
  exact (Except.ok.inj hdecode).symm

/-- An even number of digits. -/
def IsHexText (s : Bytes) : Prop := (∀ b ∈ s, isHexDigit b = true) ∧ Even s.length

theorem decodeString_accepts_iff {s : Bytes} : (∃ bs, decodeString s = .ok bs) ↔ IsHexText s := by
  unfold IsHexText
  fun_induction decodeString s with
  | case1 => simp
  | case2 p hp => simp
  | case3 p hp => simp
  | case4 p q rest hp hq ih =>
    simp only [Except.map_eq_ok_iff, List.forall_mem_cons, hp, hq, true_and, List.length_cons, Nat.even_add_one,
      not_not, ← ih]
    constructor
    · rintro ⟨bs, bs', h, -⟩
      exact ⟨bs', h⟩
    · rintro ⟨bs, h⟩
      exact ⟨_, bs, h, rfl⟩
  | case5 p q rest hp hq => simp [hq]
  | case6 p q rest hp => simp [hp]

end Lxmf
