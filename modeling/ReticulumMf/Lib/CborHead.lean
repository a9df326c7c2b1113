-- SUMMARY: The heads of CBOR data items: a major type and an argument of up to eight bytes.
import ReticulumMf.Lib.BigEndian

/-!
# CBOR heads

A CBOR item starts with a head: three bits of major type, and an argument that
stands in the same byte if it is below 24 and in the next 1, 2, 4 or 8 bytes
otherwise.
-/

namespace Cbor

/-- The shortest head of this major type with this argument. -/
def head (major n : Nat) : Bytes :=
  if n < 24 then [UInt8.ofNat (32 * major + n)]
  else if n < 2 ^ 8 then UInt8.ofNat (32 * major + 24) :: BigEndian.encode 1 n
  else if n < 2 ^ 16 then UInt8.ofNat (32 * major + 25) :: BigEndian.encode 2 n
  else if n < 2 ^ 32 then UInt8.ofNat (32 * major + 26) :: BigEndian.encode 4 n
  else UInt8.ofNat (32 * major + 27) :: BigEndian.encode 8 n

/-- How many bytes the shortest head takes. -/
def headLength (n : Nat) : Nat :=
  if n < 24 then 1 else if n < 2 ^ 8 then 2 else if n < 2 ^ 16 then 3 else if n < 2 ^ 32 then 5 else 9

/-- An argument of `w` bytes, and what follows it. -/
def readArgument (w : Nat) (b : Bytes) : Option (Nat × Bytes) :=
  if w ≤ b.length then some (BigEndian.decode (b.take w), b.drop w) else none

/-- Major type and argument of a head, and what follows it. -/
def readHead : Bytes → Option (Nat × Nat × Bytes)
  | [] => none
  | b :: rest =>
    let major := b.toNat / 32
    match b.toNat % 32 with
    | 24 => (readArgument 1 rest).map (major, ·)
    | 25 => (readArgument 2 rest).map (major, ·)
    | 26 => (readArgument 4 rest).map (major, ·)
    | 27 => (readArgument 8 rest).map (major, ·)
    | n => if n < 24 then some (major, n, rest) else none

theorem head_ne_nil (major n : Nat) : head major n ≠ [] := by
  unfold head
  split_ifs <;> simp

@[simp]
theorem length_head (major n : Nat) : (head major n).length = headLength n := by
  unfold head headLength
  split_ifs <;> simp

theorem headLength_pos (n : Nat) : 0 < headLength n := by
  unfold headLength
  split_ifs <;> decide

theorem headLength_le (n : Nat) : headLength n ≤ 9 := by
  unfold headLength
  split_ifs <;> decide

theorem readArgument_encode {w n : Nat} (h : n < 256 ^ w) (r : Bytes) :
    readArgument w (BigEndian.encode w n ++ r) = some (n, r) := by
  have htake : (BigEndian.encode w n ++ r).take w = BigEndian.encode w n :=
    List.take_left' (BigEndian.encode_length w n)
  have hdrop : (BigEndian.encode w n ++ r).drop w = r := List.drop_left' (BigEndian.encode_length w n)
  rw [readArgument, if_pos (by simp), htake, hdrop, BigEndian.decode_encode h]

/-- A head is read back, whatever follows it. -/
theorem readHead_head {major n : Nat} (hmajor : major < 8) (hn : n < 2 ^ 64) (r : Bytes) :
    readHead (head major n ++ r) = some (major, n, r) := by
  have hbyte (i : Nat) (hi : i < 32) : (UInt8.ofNat (32 * major + i)).toNat = 32 * major + i := by
    rw [UInt8.toNat_ofNat']
    omega
  have hdiv (i : Nat) (hi : i < 32) : (32 * major + i) / 32 = major := by omega
  have hmod (i : Nat) (hi : i < 32) : (32 * major + i) % 32 = i := by omega
  unfold head
  split_ifs with h₁ h₂ h₃ h₄
  · rw [List.singleton_append, readHead, hbyte n (by omega), hdiv n (by omega), hmod n (by omega)]
    split <;> first | omega | simp [h₁]
  · rw [List.cons_append, readHead, hbyte 24 (by decide), hdiv 24 (by decide), hmod 24 (by decide)]
    simp [readArgument_encode (w := 1) (by omega : n < 256 ^ 1) r]
  · rw [List.cons_append, readHead, hbyte 25 (by decide), hdiv 25 (by decide), hmod 25 (by decide)]
    simp [readArgument_encode (w := 2) (by omega : n < 256 ^ 2) r]
  · rw [List.cons_append, readHead, hbyte 26 (by decide), hdiv 26 (by decide), hmod 26 (by decide)]
    simp [readArgument_encode (w := 4) (by omega : n < 256 ^ 4) r]
  · rw [List.cons_append, readHead, hbyte 27 (by decide), hdiv 27 (by decide), hmod 27 (by decide)]
    simp [readArgument_encode (w := 8) (by omega : n < 256 ^ 8) r]

end Cbor
