-- SUMMARY: Base64 with padding over an alphabet of 64 characters.
import Mathlib.Data.List.DropRight
import Mathlib.Data.List.Nodup
import ReticulumMf.Lib.BigEndian

/-!
# Base64

Three bytes are written as four characters. A last group of one or two bytes is filled up
with the padding character. Decoding ignores line breaks and does not look at the bits that
a padded group leaves over. The encoding splits into the characters for the bytes and the padding
(`encode_eq`), and decoding undoes it (`decode_encode`). A text of line breaks only decodes
to nothing (`decode_eq_some_nil_iff`).
-/

namespace Base64

/-- The character `=`. -/
def pad : UInt8 := 0x3d

def isLineBreak (c : UInt8) : Bool := c = 0x0a || c = 0x0d

structure Alphabet where
  chars : List UInt8
  length_eq : chars.length = 64
  nodup : chars.Nodup
  pad_notMem : pad ∉ chars
  noLineBreak : ∀ c ∈ chars, isLineBreak c = false

variable (α : Alphabet)

/-- The character for the six low bits of `n`. -/
def Alphabet.digit (n : Nat) : UInt8 :=
  α.chars.get ⟨n % 64, by rw [α.length_eq]; exact Nat.mod_lt n (by decide)⟩

def Alphabet.value (c : UInt8) : Option Nat := if c ∈ α.chars then some (α.chars.idxOf c) else none

/-- The padded encoding. -/
def encode : Bytes → Bytes
  | [] => []
  | [a] =>
    let n := a.toNat * 2 ^ 16
    [α.digit (n / 2 ^ 18), α.digit (n / 2 ^ 12), pad, pad]
  | [a, b] =>
    let n := a.toNat * 2 ^ 16 + b.toNat * 2 ^ 8
    [α.digit (n / 2 ^ 18), α.digit (n / 2 ^ 12), α.digit (n / 2 ^ 6), pad]
  | a :: b :: c :: rest =>
    let n := a.toNat * 2 ^ 16 + b.toNat * 2 ^ 8 + c.toNat
    α.digit (n / 2 ^ 18) :: α.digit (n / 2 ^ 12) :: α.digit (n / 2 ^ 6) :: α.digit n :: encode rest

/-- The groups of four characters, without line breaks between them. -/
def decodeGroups : Bytes → Option Bytes
  | [] => some []
  | c₀ :: c₁ :: c₂ :: c₃ :: rest => do
    let n := (← α.value c₀) * 2 ^ 18 + (← α.value c₁) * 2 ^ 12
    if c₂ = pad then
      if c₃ = pad ∧ rest = [] then some [UInt8.ofNat (n / 2 ^ 16)] else none
    else
      let n := n + (← α.value c₂) * 2 ^ 6
      if c₃ = pad then
        if rest = [] then some [UInt8.ofNat (n / 2 ^ 16), UInt8.ofNat (n / 2 ^ 8)] else none
      else
        let n := n + (← α.value c₃)
        return UInt8.ofNat (n / 2 ^ 16) :: UInt8.ofNat (n / 2 ^ 8) :: UInt8.ofNat n :: (← decodeGroups rest)
  | _ => none

/-- None if the text is not a padded encoding. -/
def decode (text : Bytes) : Option Bytes := decodeGroups α (text.filter (!isLineBreak ·))

/-! ## Digits -/

variable {α}

theorem Alphabet.digit_mem (n : Nat) : α.digit n ∈ α.chars := List.get_mem ..

theorem Alphabet.digit_ne_pad (n : Nat) : α.digit n ≠ pad := fun h => α.pad_notMem (h ▸ α.digit_mem n)

theorem Alphabet.value_digit (n : Nat) : α.value (α.digit n) = some (n % 64) := by
  rw [Alphabet.value, if_pos (α.digit_mem n), Alphabet.digit, List.get_eq_getElem, α.nodup.idxOf_getElem]

/-! ## The encoding -/

/-- The characters for the bytes, without the padding. -/
def body (α : Alphabet) : Bytes → Bytes
  | [] => []
  | [a] => (encode α [a]).take 2
  | [a, b] => (encode α [a, b]).take 3
  | a :: b :: c :: rest => (encode α [a, b, c]) ++ body α rest

/-- The number of padding characters after `n` bytes. -/
def padding (n : Nat) : Nat := (3 - n % 3) % 3

theorem encode_eq (bs : Bytes) : encode α bs = body α bs ++ List.replicate (padding bs.length) pad := by
  fun_induction body α bs with
  | case1 => rfl
  | case2 a => rfl
  | case3 a b => rfl
  | case4 a b c rest ih =>
    have hpadding : padding (rest.length + 3) = padding rest.length := by
      simp only [padding, Nat.add_mod_right]
    rw [List.append_assoc, List.length_cons, List.length_cons, List.length_cons, hpadding, ← ih]
    rfl

theorem length_body (bs : Bytes) : (body α bs).length = (4 * bs.length + 2) / 3 := by
  fun_induction body α bs with
  | case1 => rfl
  | case2 a => simp [encode]
  | case3 a b => simp [encode]
  | case4 a b c rest ih =>
    simp only [List.length_append, ih, List.length_cons, encode, List.length_nil]
    omega

theorem mem_body {bs : Bytes} {c : UInt8} (h : c ∈ body α bs) : c ∈ α.chars := by
  fun_induction body α bs with
  | case1 => cases h
  | case2 a =>
    simp only [encode, List.take_succ_cons, List.take_zero, List.mem_cons, List.not_mem_nil, or_false] at h
    rcases h with rfl | rfl <;> exact α.digit_mem _
  | case3 a b =>
    simp only [encode, List.take_succ_cons, List.take_zero, List.mem_cons, List.not_mem_nil, or_false] at h
    rcases h with rfl | rfl | rfl <;> exact α.digit_mem _
  | case4 a b c rest ih =>
    rcases List.mem_append.mp h with hgroup | hrest
    · simp only [encode, List.mem_cons, List.not_mem_nil, or_false] at hgroup
      rcases hgroup with rfl | rfl | rfl | rfl <;> exact α.digit_mem _
    · exact ih hrest

theorem pad_notMem_body (bs : Bytes) : pad ∉ body α bs := fun h => α.pad_notMem (mem_body h)

/-- Trimming the padding, however much of it there is, leaves the characters for the bytes. -/
theorem trim_body (bs : Bytes) (n : Nat) :
    (body α bs ++ List.replicate n pad).rdropWhile (· = pad) = body α bs := by
  induction n with
  | zero =>
    rw [List.replicate_zero, List.append_nil, List.rdropWhile_eq_self_iff]
    intro hne hlast
    have hmem := List.getLast_mem hne
    rw [of_decide_eq_true hlast] at hmem
    exact pad_notMem_body bs hmem
  | succ n ih =>
    rw [List.replicate_succ', ← List.append_assoc, List.rdropWhile_concat_pos _ _ _ (by simp), ih]

/-! ## Decoding -/

/-- Four groups of six bits make up a number of 24 bits. -/
theorem regroup {n : Nat} (h : n < 2 ^ 24) :
    n / 2 ^ 18 % 64 * 2 ^ 18 + n / 2 ^ 12 % 64 * 2 ^ 12 + n / 2 ^ 6 % 64 * 2 ^ 6 + n % 64 = n := by
  omega

theorem ofNat_eq {n : Nat} {a : UInt8} (h : n % 256 = a.toNat) : UInt8.ofNat n = a := by
  apply UInt8.toNat_inj.mp
  rw [UInt8.toNat_ofNat']
  exact h

theorem decodeGroups_encode (bs : Bytes) : decodeGroups α (encode α bs) = some bs := by
  fun_induction encode α bs with
  | case1 => rfl
  | case2 a n =>
    have ha := a.toNat_lt
    have hn : n / 2 ^ 18 % 64 * 2 ^ 18 + n / 2 ^ 12 % 64 * 2 ^ 12 = n := by omega
    have h₀ : UInt8.ofNat (n / 2 ^ 16) = a := ofNat_eq (by omega)
    simp only [decodeGroups, Alphabet.value_digit, Option.bind_eq_bind, Option.bind_some, if_true, and_self,
      hn, h₀]
  | case3 a b n =>
    have ha := a.toNat_lt
    have hb := b.toNat_lt
    have hn : n / 2 ^ 18 % 64 * 2 ^ 18 + n / 2 ^ 12 % 64 * 2 ^ 12 + n / 2 ^ 6 % 64 * 2 ^ 6 = n := by omega
    have h₀ : UInt8.ofNat (n / 2 ^ 16) = a := ofNat_eq (by omega)
    have h₁ : UInt8.ofNat (n / 2 ^ 8) = b := ofNat_eq (by omega)
    simp only [decodeGroups, Alphabet.value_digit, Option.bind_eq_bind, Option.bind_some,
      if_neg (Alphabet.digit_ne_pad _), if_true, hn, h₀, h₁]
  | case4 a b c rest n ih =>
    have ha := a.toNat_lt
    have hb := b.toNat_lt
    have hc := c.toNat_lt
    have hn := regroup (n := n) (by omega)
    have h₀ : UInt8.ofNat (n / 2 ^ 16) = a := ofNat_eq (by omega)
    have h₁ : UInt8.ofNat (n / 2 ^ 8) = b := ofNat_eq (by omega)
    have h₂ : UInt8.ofNat n = c := ofNat_eq (by omega)
    simp only [decodeGroups, Alphabet.value_digit, Option.bind_eq_bind, Option.bind_some,
      if_neg (Alphabet.digit_ne_pad _), hn, h₀, h₁, h₂, ih]
    rfl

theorem decode_encode (bs : Bytes) : decode α (encode α bs) = some bs := by
  have hplain : (encode α bs).filter (!isLineBreak ·) = encode α bs := by
    rw [List.filter_eq_self]
    intro c hc
    rw [encode_eq] at hc
    rcases List.mem_append.mp hc with hbody | hpad
    · simp [α.noLineBreak c (mem_body hbody)]
    · rw [List.eq_of_mem_replicate hpad]
      rfl
  rw [decode, hplain, decodeGroups_encode]

theorem decodeGroups_eq_some_nil_iff {text : Bytes} : decodeGroups α text = some [] ↔ text = [] := by
  constructor
  · intro h
    unfold decodeGroups at h
    split at h
    · rfl
    · simp only [Option.bind_eq_bind, Option.bind_eq_some_iff] at h
      obtain ⟨_, -, _, -, h⟩ := h
      split at h
      · split at h <;> cases h
      · obtain ⟨_, -, h⟩ := Option.bind_eq_some_iff.mp h
        split at h
        · split at h <;> cases h
        · obtain ⟨_, -, h⟩ := Option.bind_eq_some_iff.mp h
          obtain ⟨_, -, h⟩ := Option.bind_eq_some_iff.mp h
          cases h
    · cases h
  · rintro rfl
    rfl

/-- Nothing is decoded from line breaks, and only from them. -/
theorem decode_eq_some_nil_iff {text : Bytes} :
    decode α text = some [] ↔ ∀ c ∈ text, isLineBreak c = true := by
  rw [decode, decodeGroups_eq_some_nil_iff, List.filter_eq_nil_iff]
  simp

end Base64
