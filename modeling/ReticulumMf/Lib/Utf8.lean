-- SUMMARY: Byte strings as sequences of UTF-8 characters, with stray bytes in between.
import Mathlib.Data.List.DropRight
import Mathlib.Data.List.Flatten
import Mathlib.Data.List.Infix
import ReticulumMf.Lib.BigEndian

/-!
# UTF-8

A byte string is read from the left: a well-formed sequence is one character, and
a byte that starts none is passed over as a replacement character. Written
characters are read back as they were (`split_encode`), and so are those that are
left when some are dropped at either end (`trim_encode`).
-/

namespace Utf8

/-- U+FFFD, which stands for a stray byte. -/
def replacement : Char := Char.ofNat 0xFFFD

def encode (cs : List Char) : Bytes := cs.flatMap String.utf8EncodeChar

/-- The character whose bytes the string starts with. -/
def decodeChar (s : Bytes) : Option Char := s.toByteArray.utf8DecodeChar? 0

/-- The characters of a string of at most `n` bytes, each with the bytes it was read from. -/
def pieces : Nat → Bytes → List (Char × Bytes)
  | 0, _ | _ + 1, [] => []
  | n + 1, b :: bs =>
    match decodeChar (b :: bs) with
    | some c => (c, (b :: bs).take c.utf8Size) :: pieces n ((b :: bs).drop c.utf8Size)
    | none => (replacement, [b]) :: pieces n bs

def split (s : Bytes) : List (Char × Bytes) := pieces s.length s

/-- Drops the characters of some kind at both ends. A character at the end is whole
in the split, since its first byte is never passed over as part of another one. -/
def trim (p : Char → Bool) (s : Bytes) : Bytes :=
  (((split s).dropWhile (p ·.1)).reverse.dropWhile (p ·.1)).reverse.flatMap (·.2)

/-- The white space of Unicode. -/
def isSpace (c : Char) : Bool :=
  let r := c.toNat
  (9 ≤ r && r ≤ 13) || r = 0x20 || r = 0x85 || r = 0xa0 || r = 0x1680 ||
    (0x2000 ≤ r && r ≤ 0x200a) || r = 0x2028 || r = 0x2029 || r = 0x202f || r = 0x205f || r = 0x3000

def trimSpace (s : Bytes) : Bytes := trim isSpace s

/-! ## Reading back -/

theorem decodeChar_append (c : Char) (s : Bytes) :
    decodeChar (String.utf8EncodeChar c ++ s) = some c := by
  rw [decodeChar, List.toByteArray_append]
  exact ByteArray.utf8DecodeChar?_utf8EncodeChar_append

theorem pieces_append (c : Char) (s : Bytes) (n : Nat) :
    pieces (n + 1) (String.utf8EncodeChar c ++ s) =
      (c, String.utf8EncodeChar c) :: pieces n s := by
  have hdecode := decodeChar_append c s
  have hlen := String.length_utf8EncodeChar c
  have hpos := c.utf8Size_pos
  cases hbytes : String.utf8EncodeChar c with
  | nil =>
    rw [hbytes, List.length_nil] at hlen
    omega
  | cons b bs =>
    rw [hbytes] at hdecode hlen
    rw [List.cons_append] at hdecode ⊢
    simp only [pieces, hdecode]
    rw [← List.cons_append, ← hlen, List.take_left, List.drop_left]

theorem decodeChar_eq_some_iff {s : Bytes} {c : Char} :
    decodeChar s = some c ↔ String.utf8EncodeChar c <+: s := by
  constructor
  · intro h
    obtain ⟨l, hl⟩ := ByteArray.exists_of_utf8DecodeChar?_eq_some h
    refine ⟨l.data.toList, ?_⟩
    have hdata := congrArg (fun b : ByteArray => b.data.toList) hl
    simpa using hdata.symm
  · rintro ⟨t, rfl⟩
    exact decodeChar_append c t

theorem pieces_stray {b : UInt8} {s : Bytes} (h : decodeChar (b :: s) = none) (n : Nat) :
    pieces (n + 1) (b :: s) = (replacement, [b]) :: pieces n s := by
  simp only [pieces, h]

/-- A string is empty, starts with a character or starts with a stray byte. -/
theorem cases_head (s : Bytes) :
    s = [] ∨ (∃ c t, s = String.utf8EncodeChar c ++ t) ∨
      ∃ b t, s = b :: t ∧ decodeChar (b :: t) = none := by
  cases s with
  | nil => exact .inl rfl
  | cons b t =>
    cases h : decodeChar (b :: t) with
    | none => exact .inr (.inr ⟨b, t, rfl, h⟩)
    | some c =>
      obtain ⟨t', ht'⟩ := decodeChar_eq_some_iff.mp h
      exact .inr (.inl ⟨c, t', ht'.symm⟩)

theorem length_char_append (c : Char) (t : Bytes) :
    t.length < (String.utf8EncodeChar c ++ t).length := by
  have hpos := c.utf8Size_pos
  rw [List.length_append, String.length_utf8EncodeChar]
  omega

/-- More than enough steps change nothing. -/
theorem pieces_eq_split {n : Nat} {s : Bytes} (h : s.length ≤ n) : pieces n s = split s := by
  unfold split
  generalize hm : s.length = m at *
  replace hm : s.length ≤ m := Nat.le_of_eq hm
  induction m generalizing n s with
  | zero =>
    obtain rfl := List.eq_nil_of_length_eq_zero (Nat.le_zero.mp hm)
    cases n <;> rfl
  | succ m ih =>
    cases n with
    | zero => omega
    | succ n =>
      obtain rfl | ⟨c, t, rfl⟩ | ⟨b, t, rfl, hstray⟩ := cases_head s
      · rfl
      · have hlt := length_char_append c t
        rw [pieces_append, pieces_append, ih (by omega) (by omega)]
      · rw [List.length_cons] at hm
        rw [pieces_stray hstray, pieces_stray hstray, ih (by omega) (by omega)]

@[simp] theorem split_nil : split [] = [] := rfl

theorem split_char (c : Char) (t : Bytes) :
    split (String.utf8EncodeChar c ++ t) = (c, String.utf8EncodeChar c) :: split t := by
  have hlt := length_char_append c t
  rw [← pieces_eq_split (Nat.le_refl _)]
  obtain ⟨n, hn⟩ := Nat.exists_eq_succ_of_ne_zero (Nat.ne_of_gt (Nat.zero_lt_of_lt hlt))
  rw [hn] at hlt ⊢
  rw [pieces_append, pieces_eq_split (by omega)]

theorem split_stray {b : UInt8} {t : Bytes} (h : decodeChar (b :: t) = none) :
    split (b :: t) = (replacement, [b]) :: split t := pieces_stray h _

/-- Induction along the pieces of a string. -/
theorem split_induction {motive : Bytes → Prop} (nil : motive [])
    (char : ∀ c t, motive t → motive (String.utf8EncodeChar c ++ t))
    (stray : ∀ b t, decodeChar (b :: t) = none → motive t → motive (b :: t)) (s : Bytes) :
    motive s := by
  generalize hn : s.length = n
  replace hn : s.length ≤ n := Nat.le_of_eq hn
  induction n generalizing s with
  | zero =>
    obtain rfl := List.eq_nil_of_length_eq_zero (Nat.le_zero.mp hn)
    exact nil
  | succ n ih =>
    obtain rfl | ⟨c, t, rfl⟩ | ⟨b, t, rfl, hstray⟩ := cases_head s
    · exact nil
    · have hlt := length_char_append c t
      exact char c t (ih t (by omega))
    · exact stray b t hstray (ih t (by simpa using hn))

/-- The bytes of the pieces are those of the string. -/
theorem flatMap_split (s : Bytes) : (split s).flatMap (·.2) = s := by
  induction s using split_induction with
  | nil => rfl
  | char c t ih => rw [split_char, List.flatMap_cons, ih]
  | stray b t h ih => rw [split_stray h, List.flatMap_cons, ih, List.singleton_append]

theorem ne_nil_of_mem_split {s : Bytes} {e : Char × Bytes} (h : e ∈ split s) : e.2 ≠ [] := by
  induction s using split_induction with
  | nil => cases h
  | char c t ih =>
    rw [split_char] at h
    rcases List.mem_cons.mp h with rfl | h
    · intro hnil
      have hlen := String.length_utf8EncodeChar c
      have hpos := c.utf8Size_pos
      simp only at hnil
      rw [hnil, List.length_nil] at hlen
      omega
    · exact ih h
  | stray b t hb ih =>
    rw [split_stray hb] at h
    rcases List.mem_cons.mp h with rfl | h
    · exact List.cons_ne_nil _ _
    · exact ih h

/-- No piece goes over a byte that can only be the first one of a character. -/
theorem split_append {s t : Bytes} (ht : ∀ b, t.head? = some b → b.IsUTF8FirstByte) :
    split (s ++ t) = split s ++ split t := by
  induction s using split_induction with
  | nil => rfl
  | char c s ih => rw [List.append_assoc, split_char, split_char, ih, List.cons_append]
  | stray b s h ih =>
    have hstray : decodeChar (b :: (s ++ t)) = none := by
      rw [Option.eq_none_iff_forall_ne_some]
      intro c hc
      have hprefix := decodeChar_eq_some_iff.mp hc
      rw [← List.cons_append] at hprefix
      by_cases hlen : (String.utf8EncodeChar c).length ≤ (b :: s).length
      · have hshort := List.prefix_of_prefix_length_le hprefix (List.prefix_append (b :: s) t) hlen
        rw [decodeChar_eq_some_iff.mpr hshort] at h
        cases h
      · -- The first byte of `t` would be inside the character.
        have hlt : (b :: s).length < (String.utf8EncodeChar c).length := Nat.lt_of_not_le hlen
        have hbyte : (String.utf8EncodeChar c)[(b :: s).length]? = t.head? := by
          obtain ⟨r, hr⟩ := hprefix
          have hleft : (String.utf8EncodeChar c ++ r)[(b :: s).length]? =
              (String.utf8EncodeChar c)[(b :: s).length]? := List.getElem?_append_left hlt
          rw [← hleft, hr, List.getElem?_append_right (Nat.le_refl _),
            Nat.sub_self, List.head?_eq_getElem?]
        rw [List.getElem?_eq_getElem hlt] at hbyte
        have hzero := UInt8.isUTF8FirstByte_getElem_utf8EncodeChar.mp (ht _ hbyte.symm)
        simp at hzero
    rw [List.cons_append, split_stray hstray, split_stray h, ih, List.cons_append]

theorem split_encode_append (cs : List Char) (t : Bytes) :
    split (encode cs ++ t) = (cs.map fun c => (c, String.utf8EncodeChar c)) ++ split t := by
  induction cs with
  | nil => rfl
  | cons c cs ih =>
    rw [encode, List.flatMap_cons, List.append_assoc, split_char, ← encode, ih]
    rfl

/-- Written characters are read back. -/
theorem split_encode (cs : List Char) :
    split (encode cs) = cs.map fun c => (c, String.utf8EncodeChar c) := by
  simpa using split_encode_append cs []

/-- A visible ASCII character is one byte, and not white space. -/
theorem visible_char {b : UInt8} (hlow : 33 ≤ b) (hhigh : b < 127) :
    String.utf8EncodeChar (Char.ofNat b.toNat) = [b] ∧ isSpace (Char.ofNat b.toNat) = false := by
  have hall : ∀ n < 127, 33 ≤ n → String.utf8EncodeChar (Char.ofNat n) = [UInt8.ofNat n] ∧
      isSpace (Char.ofNat n) = false := by decide
  have hn := hall b.toNat hhigh hlow
  rwa [UInt8.ofNat_toNat] at hn

theorem split_visible {b : UInt8} (hlow : 33 ≤ b) (hhigh : b < 127) (t : Bytes) :
    split (b :: t) = (Char.ofNat b.toNat, [b]) :: split t := by
  have hchar := split_char (Char.ofNat b.toNat) t
  rwa [(visible_char hlow hhigh).1] at hchar

/-! ## Trimming -/

variable {p : Char → Bool}

/-- The pieces that are left. -/
def trimPieces (p : Char → Bool) (l : List (Char × Bytes)) : List (Char × Bytes) :=
  (l.dropWhile (p ·.1)).rdropWhile (p ·.1)

theorem trim_eq (s : Bytes) : trim p s = (trimPieces p (split s)).flatMap (·.2) := rfl

theorem trimPieces_sublist (l : List (Char × Bytes)) : (trimPieces p l).Sublist l :=
  ( List.rdropWhile_prefix _ _).sublist.trans (List.dropWhile_suffix _).sublist

theorem trim_sublist (s : Bytes) : (trim p s).Sublist s := by
  have h := (trimPieces_sublist (p := p) (split s)).flatMap (·.2)
  rwa [flatMap_split] at h

/-- Neither the first nor the last character is of the kind. -/
structure EndsWithout (p : Char → Bool) (s : Bytes) : Prop where
  head : ∀ e, (split s).head? = some e → p e.1 = false
  last : ∀ e, (split s).getLast? = some e → p e.1 = false

theorem eq_of_flatMap_length {l l' : List (Char × Bytes)} (h : l'.Sublist l)
    (hne : ∀ e ∈ l, e.2 ≠ []) (hlen : (l'.flatMap (·.2)).length = (l.flatMap (·.2)).length) :
    l' = l := by
  induction h with
  | slnil => rfl
  | @cons l' l e hsub ih =>
    have hle := (hsub.flatMap (·.2)).length_le
    have hpos := List.length_pos_of_ne_nil (hne e (by simp))
    rw [List.flatMap_cons, List.length_append] at hlen
    omega
  | @cons_cons l' l e hsub ih =>
    rw [List.flatMap_cons, List.flatMap_cons, List.length_append, List.length_append] at hlen
    rw [ih (fun e' he' => hne e' (List.mem_cons_of_mem e he')) (by omega)]

theorem trim_eq_self_iff {s : Bytes} : trim p s = s ↔ EndsWithout p s := by
  constructor
  · intro h
    have hlen : ((trimPieces p (split s)).flatMap (·.2)).length = ((split s).flatMap (·.2)).length := by
      rw [← trim_eq, h, flatMap_split]
    have heq := eq_of_flatMap_length (trimPieces_sublist (split s))
      (fun _ he => ne_nil_of_mem_split he) hlen
    have hsuffix := List.dropWhile_suffix (p := fun e : Char × Bytes => p e.1) (l := split s)
    have hprefix := List.rdropWhile_prefix (fun e : Char × Bytes => p e.1)
      ((split s).dropWhile fun e => p e.1)
    have hle := hprefix.length_le
    rw [← trimPieces, heq] at hle
    have hdrop := hsuffix.eq_of_length_le hle
    rw [trimPieces, hdrop] at heq
    constructor
    · intro e he
      cases hs : split s with
      | nil =>
        rw [hs] at he
        cases he
      | cons e' l =>
        rw [hs, List.head?_cons, Option.some.injEq] at he
        rw [hs, List.dropWhile_eq_self_iff] at hdrop
        subst he
        simpa using hdrop (Nat.zero_lt_succ _)
    · intro e he
      obtain ⟨l, hl⟩ := List.getLast?_eq_some_iff.mp he
      rw [hl, List.rdropWhile_eq_self_iff] at heq
      simpa using heq (by simp)
  · intro h
    have hdrop : (split s).dropWhile (p ·.1) = split s := by
      cases hs : split s with
      | nil => rfl
      | cons e l => exact List.dropWhile_cons_of_neg (by simp [h.head e (by rw [hs]; rfl)])
    have hrdrop : (split s).rdropWhile (p ·.1) = split s := by
      rw [List.rdropWhile_eq_self_iff]
      intro hne
      simp [h.last _ (List.getLast?_eq_some_getLast hne)]
    rw [trim_eq, trimPieces, hdrop, hrdrop, flatMap_split]

theorem trim_char_append {c : Char} (hc : p c = true) (t : Bytes) :
    trim p (String.utf8EncodeChar c ++ t) = trim p t := by
  have hdrop : ((c, String.utf8EncodeChar c) :: split t).dropWhile (p ·.1) = (split t).dropWhile (p ·.1) :=
    List.dropWhile_cons_of_pos hc
  rw [trim_eq, split_char, trimPieces, hdrop]
  rfl

theorem isUTF8FirstByte_head {c : Char} {t : Bytes} {b : UInt8}
    (h : (String.utf8EncodeChar c ++ t).head? = some b) : b.IsUTF8FirstByte := by
  have hpos : 0 < (String.utf8EncodeChar c).length := by
    rw [String.length_utf8EncodeChar]
    exact c.utf8Size_pos
  rw [List.head?_append_of_ne_nil _ (List.ne_nil_of_length_pos hpos), List.head?_eq_getElem?,
    List.getElem?_eq_getElem hpos, Option.some.injEq] at h
  exact h ▸ UInt8.isUTF8FirstByte_getElem_utf8EncodeChar.mpr rfl

theorem trim_append_char {c : Char} (hc : p c = true) (s : Bytes) :
    trim p (s ++ String.utf8EncodeChar c) = trim p s := by
  have hfirst (b : UInt8) (hb : (String.utf8EncodeChar c).head? = some b) : b.IsUTF8FirstByte :=
    isUTF8FirstByte_head (t := []) (by rwa [List.append_nil])
  have hchar : split (String.utf8EncodeChar c) = [(c, String.utf8EncodeChar c)] := by
    simpa using split_char c []
  rw [trim_eq, split_append hfirst, hchar, trimPieces, List.dropWhile_append]
  split
  · rename_i hall
    have hnil : ((split s).dropWhile fun e => p e.1) = [] := List.isEmpty_iff.mp hall
    have hdrop : [(c, String.utf8EncodeChar c)].dropWhile (fun e => p e.1) = [] :=
      List.dropWhile_cons_of_pos hc
    rw [trim_eq, trimPieces, hnil, hdrop]
  · have hlast (l : List (Char × Bytes)) : (l ++ [(c, String.utf8EncodeChar c)]).rdropWhile (p ·.1) =
        l.rdropWhile (p ·.1) := List.rdropWhile_concat_pos _ _ _ hc
    rw [hlast]
    rfl

theorem ne_append_char_of_trim {c : Char} {s : Bytes} (hc : p c = true) (h : trim p s = s) (t : Bytes) :
    s ≠ t ++ String.utf8EncodeChar c := by
  rintro rfl
  rw [trim_append_char hc] at h
  have hle := (trim_sublist (p := p) t).length_le
  have hpos := c.utf8Size_pos
  rw [h, List.length_append, String.length_utf8EncodeChar] at hle
  omega

theorem split_ne_nil {s : Bytes} (h : s ≠ []) : split s ≠ [] := by
  intro hnil
  have hs := flatMap_split s
  rw [hnil] at hs
  exact h hs.symm

theorem endsWithout_encode {cs : List Char} :
    EndsWithout p (encode cs) ↔
      (∀ c, cs.head? = some c → p c = false) ∧ ∀ c, cs.getLast? = some c → p c = false := by
  constructor
  · intro h
    refine ⟨fun c hc => h.head (c, String.utf8EncodeChar c) ?_,
      fun c hc => h.last (c, String.utf8EncodeChar c) ?_⟩
    · rw [split_encode, List.head?_map, hc, Option.map_some]
    · rw [split_encode, List.getLast?_map, hc, Option.map_some]
  · intro h
    refine ⟨fun e he => ?_, fun e he => ?_⟩
    · rw [split_encode, List.head?_map, Option.map_eq_some_iff] at he
      obtain ⟨c, hc, rfl⟩ := he
      exact h.1 c hc
    · rw [split_encode, List.getLast?_map, Option.map_eq_some_iff] at he
      obtain ⟨c, hc, rfl⟩ := he
      exact h.2 c hc

theorem trim_encode_eq_self {cs : List Char} (hhead : ∀ c, cs.head? = some c → p c = false)
    (hlast : ∀ c, cs.getLast? = some c → p c = false) : trim p (encode cs) = encode cs :=
  trim_eq_self_iff.mpr (endsWithout_encode.mpr ⟨hhead, hlast⟩)

/-- Characters may stand before a trimmed string, if the first of them is not of the kind. -/
theorem trim_encode_append {cs : List Char} {t : Bytes} (hcs : cs ≠ [])
    (hhead : ∀ c, cs.head? = some c → p c = false) (ht : t ≠ []) (htrim : trim p t = t) :
    trim p (encode cs ++ t) = encode cs ++ t := by
  refine trim_eq_self_iff.mpr ⟨?_, ?_⟩
  · intro e he
    rw [split_encode_append, List.head?_append_of_ne_nil _ (by simpa using hcs), List.head?_map,
      Option.map_eq_some_iff] at he
    obtain ⟨c, hc, rfl⟩ := he
    exact hhead c hc
  · intro e he
    rw [split_encode_append, List.getLast?_append_of_ne_nil _ (split_ne_nil ht)] at he
    exact (trim_eq_self_iff.mp htrim).last e he

/-- Two trimmed strings with characters between them. -/
theorem trim_append_encode_append {cs : List Char} {s t : Bytes} (hcs : cs ≠ []) (hs : s ≠ [])
    (hstrim : trim p s = s) (ht : t ≠ []) (httrim : trim p t = t) :
    trim p (s ++ (encode cs ++ t)) = s ++ (encode cs ++ t) := by
  obtain ⟨c, cs', rfl⟩ := List.exists_cons_of_ne_nil hcs
  have hsplit : split (s ++ (encode (c :: cs') ++ t)) = split s ++ split (encode (c :: cs') ++ t) := by
    refine split_append fun b hb => ?_
    rw [encode, List.flatMap_cons, List.append_assoc] at hb
    exact isUTF8FirstByte_head hb
  refine trim_eq_self_iff.mpr ⟨?_, ?_⟩
  · intro e he
    rw [hsplit, List.head?_append_of_ne_nil _ (split_ne_nil hs)] at he
    exact (trim_eq_self_iff.mp hstrim).head e he
  · intro e he
    rw [hsplit, split_encode_append, ← List.append_assoc,
      List.getLast?_append_of_ne_nil _ (split_ne_nil ht)] at he
    exact (trim_eq_self_iff.mp httrim).last e he

/-- Trimming written characters leaves some of them in a row. -/
theorem trim_encode (p : Char → Bool) (cs : List Char) :
    ∃ kept, kept <:+: cs ∧ trim p (encode cs) = encode kept := by
  have hcomp : (fun e : Char × Bytes => p e.1) ∘ (fun c => (c, String.utf8EncodeChar c)) = p := rfl
  refine ⟨((cs.dropWhile p).reverse.dropWhile p).reverse, ?_, ?_⟩
  · have hprefix : ((cs.dropWhile p).reverse.dropWhile p).reverse <+: cs.dropWhile p := by
      rw [← List.reverse_suffix, List.reverse_reverse]
      exact List.dropWhile_suffix p
    exact hprefix.isInfix.trans (List.dropWhile_suffix p).isInfix
  · rw [trim, split_encode, List.dropWhile_map, hcomp, ← List.map_reverse, List.dropWhile_map,
      hcomp, ← List.map_reverse, List.flatMap_map, encode]

theorem mem_split {s : Bytes} {e : Char × Bytes} (h : e ∈ split s) :
    e.2 = String.utf8EncodeChar e.1 ∨ e.1 = replacement := by
  induction s using split_induction with
  | nil => cases h
  | char c t ih =>
    rw [split_char] at h
    rcases List.mem_cons.mp h with rfl | h
    · exact .inl rfl
    · exact ih h
  | stray b t hb ih =>
    rw [split_stray hb] at h
    rcases List.mem_cons.mp h with rfl | h
    · exact .inr rfl
    · exact ih h

theorem split_dropWhile (q : Char × Bytes → Bool) (s : Bytes) :
    split (((split s).dropWhile q).flatMap (·.2)) = (split s).dropWhile q := by
  induction s using split_induction with
  | nil => rfl
  | char c t ih =>
    cases hq : q (c, String.utf8EncodeChar c) with
    | true => rw [split_char, List.dropWhile_cons_of_pos hq, ih]
    | false => rw [split_char, List.dropWhile_cons_of_neg (by simp [hq]), ← split_char, flatMap_split]
  | stray b t hb ih =>
    cases hq : q (replacement, [b]) with
    | true => rw [split_stray hb, List.dropWhile_cons_of_pos hq, ih]
    | false => rw [split_stray hb, List.dropWhile_cons_of_neg (by simp [hq]), ← split_stray hb, flatMap_split]

/-- A last character can be taken away, unless it stands for a stray byte. -/
theorem split_of_append_singleton {s : Bytes} {l : List (Char × Bytes)} {e : Char × Bytes}
    (h : split s = l ++ [e]) (he : e.1 ≠ replacement) : split (l.flatMap (·.2)) = l := by
  have hbytes : e.2 = String.utf8EncodeChar e.1 :=
    (mem_split (by rw [h]; simp)).resolve_right he
  have hs : s = l.flatMap (·.2) ++ String.utf8EncodeChar e.1 := by
    rw [← flatMap_split s, h, List.flatMap_append, List.flatMap_singleton, hbytes]
  have hfirst (b : UInt8) (hb : (String.utf8EncodeChar e.1).head? = some b) : b.IsUTF8FirstByte :=
    isUTF8FirstByte_head (t := []) (by rwa [List.append_nil])
  have hchar : split (String.utf8EncodeChar e.1) = [(e.1, String.utf8EncodeChar e.1)] := by
    simpa using split_char e.1 []
  have hsplit : split s = split (l.flatMap (·.2)) ++ [(e.1, String.utf8EncodeChar e.1)] := by
    rw [hs, split_append hfirst, hchar]
  exact (List.append_inj' (hsplit.symm.trans h) rfl).1

theorem split_rdropWhile (hp : p replacement = false) {s : Bytes} {l : List (Char × Bytes)}
    (h : split s = l) : split ((l.rdropWhile (p ·.1)).flatMap (·.2)) = l.rdropWhile (p ·.1) := by
  induction l using List.reverseRecOn generalizing s with
  | nil => rfl
  | append_singleton l e ih =>
    cases hpe : p e.1 with
    | true =>
      have hne : e.1 ≠ replacement := by
        intro heq
        rw [heq, hp] at hpe
        cases hpe
      have hdrop : (l ++ [e]).rdropWhile (p ·.1) = l.rdropWhile (p ·.1) :=
        List.rdropWhile_concat_pos _ _ _ hpe
      rw [hdrop]
      exact ih (split_of_append_singleton h hne)
    | false =>
      have hdrop : (l ++ [e]).rdropWhile (p ·.1) = l ++ [e] :=
        List.rdropWhile_concat_neg _ _ _ (by simp [hpe])
      rw [hdrop, ← h, flatMap_split]

/-- Reading what is left gives the pieces that are left. -/
theorem split_trim (hp : p replacement = false) (s : Bytes) : split (trim p s) = trimPieces p (split s) :=
  split_rdropWhile hp (split_dropWhile _ s)

end Utf8
