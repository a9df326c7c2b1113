-- SUMMARY: Byte strings and fixed-width big-endian numbers.
import Mathlib.Algebra.Order.Ring.Nat
import Mathlib.Data.List.Induction

/-!
# Big-endian numbers

Byte strings as lists of `UInt8`, and the two directions between a natural
number and its big-endian bytes at a given width.
-/

abbrev Bytes := List UInt8

instance instLawfulBEqBytes : LawfulBEq Bytes := inferInstance

namespace BigEndian

/-- The low `w` bytes of `n`, most significant first. -/
def encode : Nat → Nat → Bytes
  | 0, _     => []
  | w + 1, n => encode w (n / 256) ++ [UInt8.ofNat n]

/-- The number a byte string denotes, most significant byte first. -/
def decode (bs : Bytes) : Nat :=
  bs.foldl (fun acc b => acc * 256 + b.toNat) 0

@[simp] theorem encode_length (w n : Nat) : (encode w n).length = w := by
  induction w generalizing n with
  | zero => rfl
  | succ w ih => simp [encode, ih]

@[simp] theorem decode_nil : decode [] = 0 := rfl

theorem decode_append_singleton (bs : Bytes) (b : UInt8) :
    decode (bs ++ [b]) = decode bs * 256 + b.toNat := by
  simp [decode]

theorem decode_lt (bs : Bytes) : decode bs < 256 ^ bs.length := by
  induction bs using List.reverseRecOn with
  | nil => simp
  | append_singleton bs b ih =>
    have hb : b.toNat < 256 := b.toNat_lt
    rw [decode_append_singleton, List.length_append, List.length_singleton, pow_succ]
    omega

theorem decode_cons (b : UInt8) (bs : Bytes) : decode (b :: bs) = b.toNat * 256 ^ bs.length + decode bs := by
  induction bs using List.reverseRecOn with
  | nil => simp [decode]
  | append_singleton bs c ih =>
    rw [← List.cons_append, decode_append_singleton, decode_append_singleton, List.length_append,
      List.length_singleton, pow_succ, ← Nat.mul_assoc, ih, Nat.add_mul, Nat.add_assoc]

/-- The first byte bounds the number from below. -/
theorem le_decode_cons (b : UInt8) (bs : Bytes) : b.toNat * 256 ^ bs.length ≤ decode (b :: bs) := by
  rw [decode_cons]
  exact Nat.le_add_right ..

@[simp] theorem decode_replicate_zero (n : Nat) : decode (List.replicate n 0) = 0 := by
  induction n with
  | zero => rfl
  | succ n ih => simp [List.replicate_succ, decode_cons, ih]

/-- A single byte among zeros. -/
theorem decode_set_zero {n i : Nat} (hi : i < n) (b : UInt8) :
    decode ((List.replicate n 0).set i b) = b.toNat * 256 ^ (n - 1 - i) := by
  induction n generalizing i with
  | zero => exact absurd hi (Nat.not_lt_zero i)
  | succ n ih =>
    cases i with
    | zero => simp [List.replicate_succ, decode_cons]
    | succ i =>
      rw [List.replicate_succ, List.set_cons_succ, decode_cons, ih (Nat.lt_of_succ_lt_succ hi)]
      have hexp : n + 1 - 1 - (i + 1) = n - 1 - i := by omega
      rw [hexp, UInt8.toNat_zero, Nat.zero_mul, Nat.zero_add]

/-- A number that fits the width is read back. -/
theorem decode_encode {w n : Nat} (h : n < 256 ^ w) : decode (encode w n) = n := by
  induction w generalizing n with
  | zero => simp at h; simp [encode, h]
  | succ w ih =>
    have hdiv : n / 256 < 256 ^ w := by
      rw [Nat.div_lt_iff_lt_mul (by decide)]
      rwa [pow_succ] at h
    rw [encode, decode_append_singleton, ih hdiv, UInt8.toNat_ofNat']
    omega

/-- Every byte string is the encoding of the number it denotes. -/
theorem encode_decode (bs : Bytes) : encode bs.length (decode bs) = bs := by
  induction bs using List.reverseRecOn with
  | nil => rfl
  | append_singleton bs b ih =>
    have hb : b.toNat < 256 := b.toNat_lt
    have hdiv : (decode bs * 256 + b.toNat) / 256 = decode bs := by omega
    rw [decode_append_singleton, List.length_append, List.length_singleton, encode, hdiv, ih]
    congr 2
    apply UInt8.toNat_inj.mp
    rw [UInt8.toNat_ofNat']
    omega

/-- At a fixed width the encoding is injective. -/
theorem encode_inj {w m n : Nat} (hm : m < 256 ^ w) (hn : n < 256 ^ w)
    (h : encode w m = encode w n) : m = n := by
  rw [← decode_encode hm, ← decode_encode hn, h]

/-- The encoding forgets what does not fit the width. -/
theorem encode_mod (w n : Nat) : encode w (n % 256 ^ w) = encode w n := by
  induction w generalizing n with
  | zero => rfl
  | succ w ih =>
    have hdiv : n % 256 ^ (w + 1) / 256 = n / 256 % 256 ^ w := by
      rw [Nat.pow_succ, Nat.mul_comm, Nat.mod_mul_right_div_self]
    have hbyte : UInt8.ofNat (n % 256 ^ (w + 1)) = UInt8.ofNat n := by
      apply UInt8.toNat_inj.mp
      rw [UInt8.toNat_ofNat', UInt8.toNat_ofNat', Nat.pow_succ]
      exact Nat.mod_mod_of_dvd n (Nat.dvd_mul_left 256 (256 ^ w))
    rw [encode, hdiv, ih, hbyte, encode]

end BigEndian
