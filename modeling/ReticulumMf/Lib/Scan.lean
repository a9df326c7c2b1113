-- SUMMARY: Reading one number from the start of a text, as Go's `fmt.Sscanf` does.
import ReticulumMf.Lib.Decimal
import ReticulumMf.Lib.Except
import ReticulumMf.Lib.Utf8

/-!
# Scanning a number

`fmt.Sscanf` with the one verb `%d` or `%f` skips white space, takes the longest token
that looks like a number and converts it. What follows the token is left unread, and that
is no error. So a text is read if and only if it is white space, a number and anything
else (`scanInt_ok_iff`, `scanFloat_ok_iff`). A text that is nothing but a decimal number
is one token (`floatToken_decimal`).
-/

namespace Scan

open Decimal

inductive Error where
  | eof
  | unexpectedNewline
  | expectedInteger
  | invalidNumber
  | outOfRange
  deriving DecidableEq

/-- A 64-bit floating-point type with its conversions. -/
structure FloatConv where
  carrier : Type
  /-- `strconv.ParseFloat(s, 64)`. -/
  parseFloat : Bytes → Except Error carrier
  /-- `math.Ldexp`. -/
  ldexp : carrier → Int64 → carrier
  /-- `fmt.Sprintf("%.6f", f)`. -/
  formatMicro : carrier → Bytes
  parseFloat_nil : ∃ e, parseFloat [] = .error e

/-! ## Tokens -/

/-- What has been read, and the input that is left. -/
abbrev State := Bytes × Bytes

/-- Reads the next byte if it is of a kind, and says whether it was. -/
def accept (p : UInt8 → Bool) : State → Bool × State
  | (buf, []) => (false, buf, [])
  | (buf, b :: input) => if p b then (true, buf ++ [b], input) else (false, buf, b :: input)

/-- `accept(p) && accept(q) && …`. What was read before one fails stays read. -/
def acceptSeq : List (UInt8 → Bool) → State → Bool × State
  | [], s => (true, s)
  | p :: ps, s => if (accept p s).1 then acceptSeq ps (accept p s).2 else (false, (accept p s).2)

/-- Reads the bytes of a kind as long as there are any. -/
def acceptAll (p : UInt8 → Bool) (s : State) : State := (s.1 ++ s.2.takeWhile p, s.2.dropWhile p)

def isSign (b : UInt8) : Bool := b = 43 || b = 45

def isZero (b : UInt8) : Bool := b = 48

def isPoint (b : UInt8) : Bool := b = 46

/-- One of two letters, for a letter in either case. -/
def isLetter (upper lower : UInt8) (b : UInt8) : Bool := b = upper || b = lower

def isDecimalDigit (b : UInt8) : Bool := isDigit b || b = 95

def isHexadecimalDigit (b : UInt8) : Bool :=
  isDecimalDigit b || (97 ≤ b && b ≤ 102) || (65 ≤ b && b ≤ 70)

def isExponent (b : UInt8) : Bool := isLetter 69 101 b || isLetter 80 112 b

/-- Digits, and after a point more of them. -/
def acceptMantissa (digits : UInt8 → Bool) (s : State) : State :=
  let s := acceptAll digits s
  if (accept isPoint s).1 then acceptAll digits (accept isPoint s).2 else s

def acceptExponent (exponent : UInt8 → Bool) (s : State) : State :=
  if (accept exponent s).1 then acceptAll isDecimalDigit (accept isSign (accept exponent s).2).2 else s

def floatToken (input : Bytes) : State :=
  let nan := acceptSeq [isLetter 78 110, isLetter 65 97, isLetter 78 110] ([], input)
  if nan.1 then nan.2
  else
    let inf := acceptSeq [isLetter 73 105, isLetter 78 110, isLetter 70 102] (accept isSign nan.2).2
    if inf.1 then inf.2
    else
      let hex := acceptSeq [isZero, isLetter 88 120] inf.2
      if hex.1 then acceptExponent (isLetter 80 112) (acceptMantissa isHexadecimalDigit hex.2)
      else acceptExponent isExponent (acceptMantissa isDecimalDigit hex.2)

/-! ## Conversion -/

/-- `strconv.ParseInt(s, 10, 64)`, and `strconv.Atoi`. -/
def parseInt (s : Bytes) : Except Error Int64 :=
  match Decimal.parse s with
  | none => .error .invalidNumber
  | some n => if -2 ^ 63 ≤ n ∧ n < 2 ^ 63 then .ok (Int64.ofInt n) else .error .outOfRange

/-- A decimal number may have a binary exponent after `p`, which `ParseFloat` does not know. -/
def FloatConv.convertFloat (fc : FloatConv) (token : Bytes) : Except Error fc.carrier :=
  if 112 ∈ token ∧ 120 ∉ token ∧ 88 ∉ token then do
    let f ← fc.parseFloat (token.takeWhile (· ≠ 112))
    let m ← parseInt ((token.dropWhile (· ≠ 112)).tail)
    return fc.ldexp f m
  else fc.parseFloat token

def skipSpace (s : Bytes) : Except Error Bytes :=
  if '\n' ∈ ((Utf8.split s).takeWhile (Utf8.isSpace ·.1)).map Prod.fst then .error .unexpectedNewline
  else .ok (((Utf8.split s).dropWhile (Utf8.isSpace ·.1)).flatMap (·.2))

/-- `fmt.Sscanf(s, "%d", &v)`. -/
def scanInt (s : Bytes) : Except Error Int64 := do
  let input ← skipSpace s
  let signed := (accept isSign ([], input)).2
  match signed.2 with
  | [] => .error .eof
  | b :: _ => if isDigit b then parseInt (acceptAll isDigit signed).1 else .error .expectedInteger

/-- `fmt.Sscanf(s, "%f", &f)`. -/
def FloatConv.scanFloat (fc : FloatConv) (s : Bytes) : Except Error fc.carrier := do
  let input ← skipSpace s
  if input = [] then .error .eof else fc.convertFloat (floatToken input).1

/-! ## What a token is made of -/

/-- The bytes of the characters that are seen on a page. -/
def isVisible (b : UInt8) : Bool := 33 ≤ b && b < 127

/-- From `s` to `s'` only visible bytes are read. -/
def Reads (s s' : State) : Prop :=
  ∃ read, s.2 = read ++ s'.2 ∧ s'.1 = s.1 ++ read ∧ ∀ b ∈ read, isVisible b = true

namespace Reads

theorem refl (s : State) : Reads s s := ⟨[], rfl, (List.append_nil _).symm, fun _ hb => absurd hb List.not_mem_nil⟩

theorem trans {s s' s'' : State} (h : Reads s s') (h' : Reads s' s'') : Reads s s'' := by
  obtain ⟨read, hinput, hbuf, hread⟩ := h
  obtain ⟨read', hinput', hbuf', hread'⟩ := h'
  refine ⟨read ++ read', ?_, ?_, fun b hb => (List.mem_append.mp hb).elim (hread b) (hread' b)⟩
  · rw [hinput, hinput', List.append_assoc]
  · rw [hbuf', hbuf, List.append_assoc]

theorem accept {p : UInt8 → Bool} (hp : ∀ b, p b = true → isVisible b = true) (s : State) :
    Reads s (accept p s).2 := by
  obtain ⟨buf, input⟩ := s
  cases input with
  | nil => exact refl _
  | cons b input =>
    cases hb : p b with
    | true =>
      rw [Scan.accept, if_pos hb]
      exact ⟨[b], rfl, rfl, fun b' hb' => List.mem_singleton.mp hb' ▸ hp b hb⟩
    | false =>
      rw [Scan.accept, if_neg (by simp [hb])]
      exact refl _

theorem acceptAll {p : UInt8 → Bool} (hp : ∀ b, p b = true → isVisible b = true) (s : State) :
    Reads s (acceptAll p s) :=
  ⟨s.2.takeWhile p, List.takeWhile_append_dropWhile.symm, rfl, fun b hb => hp b (List.mem_takeWhile_imp hb)⟩

theorem acceptSeq {ps : List (UInt8 → Bool)} (hps : ∀ p ∈ ps, ∀ b, p b = true → isVisible b = true) (s : State) :
    Reads s (acceptSeq ps s).2 := by
  induction ps generalizing s with
  | nil => exact refl s
  | cons p ps ih =>
    have hfirst := Reads.accept (hps p List.mem_cons_self) s
    unfold Scan.acceptSeq
    split
    · exact hfirst.trans (ih (fun q hq => hps q (List.mem_cons_of_mem p hq)) _)
    · exact hfirst

end Reads

theorem isVisible_isSign {b : UInt8} (h : isSign b = true) : isVisible b = true := by
  simp only [isSign, Bool.or_eq_true, decide_eq_true_eq] at h
  rcases h with rfl | rfl <;> rfl

theorem isVisible_isLetter {upper lower : UInt8} (hupper : isVisible upper = true) (hlower : isVisible lower = true)
    {b : UInt8} (h : isLetter upper lower b = true) : isVisible b = true := by
  simp only [isLetter, Bool.or_eq_true, decide_eq_true_eq] at h
  rcases h with rfl | rfl
  · exact hupper
  · exact hlower

theorem isVisible_isHexadecimalDigit {b : UInt8} (h : isHexadecimalDigit b = true) : isVisible b = true := by
  simp only [isHexadecimalDigit, isDecimalDigit, isDigit, isVisible, Bool.or_eq_true, Bool.and_eq_true,
    decide_eq_true_eq, UInt8.le_iff_toNat_le, UInt8.lt_iff_toNat_lt, UInt8.reduceToNat] at h ⊢
  rcases h with ((h | rfl) | h) | h
  · omega
  · decide
  · omega
  · omega

theorem isVisible_isDecimalDigit {b : UInt8} (h : isDecimalDigit b = true) : isVisible b = true :=
  isVisible_isHexadecimalDigit (by simp [isHexadecimalDigit, h])

theorem isVisible_isExponent {b : UInt8} (h : isExponent b = true) : isVisible b = true := by
  rcases Bool.or_eq_true _ _ ▸ h with h | h
  · exact isVisible_isLetter rfl rfl h
  · exact isVisible_isLetter rfl rfl h

theorem reads_acceptMantissa {digits : UInt8 → Bool} (hdigits : ∀ b, digits b = true → isVisible b = true)
    (s : State) : Reads s (acceptMantissa digits s) := by
  have hpoint (b : UInt8) (hb : isPoint b = true) : isVisible b = true := by
    rw [of_decide_eq_true hb]
    rfl
  have hint := Reads.acceptAll hdigits s
  unfold acceptMantissa
  dsimp only
  split
  · exact hint.trans ((Reads.accept hpoint _).trans (Reads.acceptAll hdigits _))
  · exact hint

theorem reads_acceptExponent {exponent : UInt8 → Bool} (hexponent : ∀ b, exponent b = true → isVisible b = true)
    (s : State) : Reads s (acceptExponent exponent s) := by
  unfold acceptExponent
  split
  · exact (Reads.accept hexponent s).trans ((Reads.accept (fun _ => isVisible_isSign) _).trans
      (Reads.acceptAll (fun _ => isVisible_isDecimalDigit) _))
  · exact .refl s

theorem reads_floatToken (input : Bytes) : Reads ([], input) (floatToken input) := by
  have hnan : Reads ([], input) (acceptSeq [isLetter 78 110, isLetter 65 97, isLetter 78 110] ([], input)).2 := by
    refine Reads.acceptSeq (fun p hp b hb => ?_) _
    simp only [List.mem_cons, List.not_mem_nil, or_false] at hp
    rcases hp with rfl | rfl | rfl <;> exact isVisible_isLetter rfl rfl hb
  have hinf (s : State) : Reads s (acceptSeq [isLetter 73 105, isLetter 78 110, isLetter 70 102] (accept isSign s).2).2 := by
    refine (Reads.accept (fun _ => isVisible_isSign) s).trans (Reads.acceptSeq (fun p hp b hb => ?_) _)
    simp only [List.mem_cons, List.not_mem_nil, or_false] at hp
    rcases hp with rfl | rfl | rfl <;> exact isVisible_isLetter rfl rfl hb
  have hhex (s : State) : Reads s (acceptSeq [isZero, isLetter 88 120] s).2 := by
    refine Reads.acceptSeq (fun p hp b hb => ?_) s
    simp only [List.mem_cons, List.not_mem_nil, or_false] at hp
    rcases hp with rfl | rfl
    · rw [of_decide_eq_true hb]
      rfl
    · exact isVisible_isLetter rfl rfl hb
  unfold floatToken
  dsimp only
  split
  · exact hnan
  · refine hnan.trans ?_
    split
    · exact hinf _
    · refine (hinf _).trans ((hhex _).trans ?_)
      split
      · exact (reads_acceptMantissa (fun _ => isVisible_isHexadecimalDigit) _).trans
          (reads_acceptExponent (fun _ => isVisible_isLetter rfl rfl) _)
      · exact (reads_acceptMantissa (fun _ => isVisible_isDecimalDigit) _).trans
          (reads_acceptExponent (fun _ => isVisible_isExponent) _)

/-- The token and what is left make up the input. -/
theorem floatToken_append (input : Bytes) : (floatToken input).1 ++ (floatToken input).2 = input := by
  obtain ⟨read, hinput, hbuf, -⟩ := reads_floatToken input
  rw [hbuf, List.nil_append]
  exact hinput.symm

theorem floatToken_visible (input : Bytes) {b : UInt8} (h : b ∈ (floatToken input).1) : isVisible b = true := by
  obtain ⟨read, -, hbuf, hread⟩ := reads_floatToken input
  rw [hbuf] at h
  exact hread b h

/-! ## White space -/

/-- White space without a line feed. -/
def IsBlank (s : Bytes) : Prop := ∃ cs, s = Utf8.encode cs ∧ ∀ c ∈ cs, Utf8.isSpace c = true ∧ c ≠ '\n'

theorem isBlank_nil : IsBlank [] := ⟨[], rfl, fun _ h => absurd h List.not_mem_nil⟩

/-- The first character, if there is one, is not white space. -/
def StartsUnblank (s : Bytes) : Prop := ∀ e, (Utf8.split s).head? = some e → Utf8.isSpace e.1 = false

theorem startsUnblank_cons {b : UInt8} (h : isVisible b = true) (s : Bytes) : StartsUnblank (b :: s) := by
  simp only [isVisible, Bool.and_eq_true, decide_eq_true_eq] at h
  intro e he
  rw [Utf8.split_visible h.1 h.2, List.head?_cons] at he
  cases he
  exact (Utf8.visible_char h.1 h.2).2

theorem skipSpace_ok_iff {s input : Bytes} :
    skipSpace s = .ok input ↔ ∃ before, s = before ++ input ∧ IsBlank before ∧ StartsUnblank input := by
  constructor
  · intro h
    unfold skipSpace at h
    split at h
    · cases h
    · rename_i hline
      cases h
      refine ⟨((Utf8.split s).takeWhile (Utf8.isSpace ·.1)).flatMap (·.2), ?_, ?_, ?_⟩
      · rw [← List.flatMap_append, List.takeWhile_append_dropWhile, Utf8.flatMap_split]
      · refine ⟨((Utf8.split s).takeWhile (Utf8.isSpace ·.1)).map Prod.fst, ?_, fun c hc => ?_⟩
        · rw [Utf8.encode, List.flatMap_map]
          refine List.flatMap_congr fun e he => ?_
          have hspace := List.mem_takeWhile_imp he
          refine (Utf8.mem_split (List.takeWhile_sublist _ |>.mem he)).resolve_right fun hstray => ?_
          rw [hstray] at hspace
          exact absurd hspace (by decide)
        · refine ⟨?_, fun heq => hline (heq ▸ hc)⟩
          obtain ⟨e, he, rfl⟩ := List.mem_map.mp hc
          have hspace := List.mem_takeWhile_imp he
          exact hspace
      · intro e he
        rw [Utf8.split_dropWhile] at he
        have hnot := List.head?_dropWhile_not (fun e : Char × Bytes => Utf8.isSpace e.1) (Utf8.split s)
        rw [he] at hnot
        exact hnot
  · rintro ⟨before, rfl, ⟨cs, rfl, hcs⟩, hinput⟩
    have hspaces : ∀ e ∈ cs.map fun c => (c, String.utf8EncodeChar c), Utf8.isSpace e.1 = true := by
      intro e he
      obtain ⟨c, hc, rfl⟩ := List.mem_map.mp he
      exact (hcs c hc).1
    have hline : '\n' ∉ (cs.map fun c => (c, String.utf8EncodeChar c)).map Prod.fst := by
      intro hmem
      rw [List.map_map] at hmem
      obtain ⟨c, hc, heq⟩ := List.mem_map.mp hmem
      exact (hcs c hc).2 heq
    have htake : (Utf8.split input).takeWhile (Utf8.isSpace ·.1) = [] ∧
        (Utf8.split input).dropWhile (Utf8.isSpace ·.1) = Utf8.split input := by
      cases hsplit : Utf8.split input with
      | nil => exact ⟨rfl, rfl⟩
      | cons e es =>
        have he := hinput e (by rw [hsplit, List.head?_cons])
        exact ⟨List.takeWhile_cons_of_neg (by simp [he]), List.dropWhile_cons_of_neg (by simp [he])⟩
    rw [skipSpace, Utf8.split_encode_append, List.takeWhile_append_of_pos hspaces,
      List.dropWhile_append_of_pos hspaces, htake.1, htake.2, List.append_nil, if_neg hline, Utf8.flatMap_split]

/-! ## Integers and decimal numbers -/

def IsDigits (s : Bytes) : Prop := ∀ b ∈ s, isDigit b = true

/-- No sign, or one. -/
def IsSignText (s : Bytes) : Prop := s = [] ∨ s = [43] ∨ s = [45]

/-- Digits, after an optional sign. -/
def IsInteger (s : Bytes) : Prop :=
  ∃ sign digits, s = sign ++ digits ∧ IsSignText sign ∧ IsDigits digits ∧ digits ≠ []

/-- Nothing, or a point and digits. -/
def IsFraction (s : Bytes) : Prop := s = [] ∨ ∃ digits, s = 46 :: digits ∧ IsDigits digits

/-- Nothing, or `e` and an integer. -/
def IsExponentText (s : Bytes) : Prop := s = [] ∨ ∃ e n, s = e :: n ∧ isLetter 69 101 e = true ∧ IsInteger n

/-- A number in decimal notation: an optional sign, digits with an optional fraction, an
optional exponent. -/
structure DecimalText (s sign int fraction exponent : Bytes) : Prop where
  text : s = sign ++ (int ++ (fraction ++ exponent))
  isSign : IsSignText sign
  isInt : IsDigits int
  isFraction : IsFraction fraction
  isExponent : IsExponentText exponent
  digit : ∃ b ∈ int ++ fraction, isDigit b = true

def IsDecimal (s : Bytes) : Prop := ∃ sign int fraction exponent, DecimalText s sign int fraction exponent

/-- The next byte, if there is one, is not of a kind. -/
def NotNext (p : UInt8 → Bool) (s : Bytes) : Prop := ∀ b, s.head? = some b → p b = false

section NotNext

variable {p q : UInt8 → Bool} {s t buf : Bytes}

theorem notNext_nil : NotNext p [] := fun _ h => absurd h (by simp)

theorem notNext_cons {b : UInt8} (h : p b = false) : NotNext p (b :: s) := by
  intro b' hb'
  cases hb'
  exact h

theorem NotNext.append (hs : ∀ b ∈ s, p b = false) (ht : NotNext p t) : NotNext p (s ++ t) := by
  cases s with
  | nil => exact ht
  | cons b s => exact notNext_cons (hs b List.mem_cons_self)

theorem NotNext.mono (h : NotNext p s) (hpq : ∀ b, q b = true → p b = true) : NotNext q s := by
  intro b hb
  rw [← Bool.not_eq_true]
  intro hq
  have hp := hpq b hq
  rw [h b hb] at hp
  cases hp

theorem accept_neg (h : NotNext p s) : accept p (buf, s) = (false, buf, s) := by
  cases s with
  | nil => rfl
  | cons b s => exact if_neg (by simp [h b rfl])

theorem accept_pos {b : UInt8} (h : p b = true) : accept p (buf, b :: s) = (true, buf ++ [b], s) := if_pos h

theorem acceptSeq_neg {ps : List (UInt8 → Bool)} (h : NotNext p s) :
    acceptSeq (p :: ps) (buf, s) = (false, buf, s) := by
  rw [acceptSeq, accept_neg h]
  rfl

theorem acceptAll_append (hs : ∀ b ∈ s, p b = true) (ht : NotNext p t) :
    acceptAll p (buf, s ++ t) = (buf ++ s, t) := by
  have hnone : t.takeWhile p = [] ∧ t.dropWhile p = t := by
    cases t with
    | nil => exact ⟨rfl, rfl⟩
    | cons b t => exact ⟨List.takeWhile_cons_of_neg (by simp [ht b rfl]), List.dropWhile_cons_of_neg (by simp [ht b rfl])⟩
  simp only [acceptAll, List.takeWhile_append_of_pos hs, List.dropWhile_append_of_pos hs, hnone, List.append_nil]

theorem accept_sign (hs : IsSignText s) (ht : NotNext isSign t) :
    (accept isSign (buf, s ++ t)).2 = (buf ++ s, t) := by
  rcases hs with rfl | rfl | rfl
  · rw [List.nil_append, accept_neg ht, List.append_nil]
  · rfl
  · rfl

end NotNext

section Decimal

variable {buf int fraction exponent : Bytes}

theorem isDigit_not {p : UInt8 → Bool} (h : (List.range 10).all (fun d => !p (digitByte d)) = true) {b : UInt8}
    (hb : isDigit b = true) : p b = false := by
  rw [isDigit_iff] at hb
  have hdigit : b = digitByte (b.toNat - 48) := by
    apply UInt8.toNat.inj
    rw [digitByte_toNat (by omega)]
    omega
  have hall := List.all_eq_true.mp h (b.toNat - 48) (List.mem_range.mpr (by omega))
  rw [← hdigit] at hall
  simpa using hall

theorem isDecimalDigit_of_isDigit {b : UInt8} (h : isDigit b = true) : isDecimalDigit b = true := by
  simp [isDecimalDigit, h]

/-- A leading zero does not start a hexadecimal number if no `x` follows. -/
theorem acceptSeq_zero (buf : Bytes) (hint : IsDigits int) (hdigit : NotNext isDecimalDigit fraction)
    (hx : NotNext (isLetter 88 120) fraction) :
    (acceptSeq [isZero, isLetter 88 120] (buf, int ++ fraction)).1 = false ∧
      acceptAll isDecimalDigit (acceptSeq [isZero, isLetter 88 120] (buf, int ++ fraction)).2 =
        (buf ++ int, fraction) := by
  have hint' : ∀ b ∈ int, isDecimalDigit b = true := fun b hb => isDecimalDigit_of_isDigit (hint b hb)
  cases int with
  | nil =>
    have hzero : NotNext isZero fraction := hdigit.mono fun b hb => by
      rw [of_decide_eq_true hb]
      rfl
    rw [List.nil_append, acceptSeq_neg hzero]
    exact ⟨rfl, acceptAll_append (s := []) (fun _ h => absurd h List.not_mem_nil) hdigit⟩
  | cons d int =>
    by_cases hd : d = 48
    · have hnotx : NotNext (isLetter 88 120) (int ++ fraction) :=
        NotNext.append (fun b hb => isDigit_not (by decide) (hint b (List.mem_cons_of_mem d hb))) hx
      have haccept : acceptSeq [isZero, isLetter 88 120] (buf, d :: int ++ fraction) =
          (false, buf ++ [d], int ++ fraction) := by
        rw [List.cons_append, acceptSeq, accept_pos (decide_eq_true hd), if_pos rfl, acceptSeq_neg hnotx]
      rw [haccept]
      refine ⟨rfl, ?_⟩
      rw [acceptAll_append (fun b hb => hint' b (List.mem_cons_of_mem d hb)) hdigit, List.append_assoc,
        List.singleton_append]
    · have hzero : NotNext isZero (d :: int ++ fraction) := notNext_cons (decide_eq_false hd)
      rw [acceptSeq_neg hzero]
      exact ⟨rfl, acceptAll_append hint' hdigit⟩

theorem acceptMantissa_fraction {s : State} (hs : acceptAll isDecimalDigit s = (buf, fraction ++ exponent))
    (hfraction : IsFraction fraction)
    (hpoint : NotNext isPoint exponent) (hdigit : NotNext isDecimalDigit exponent) :
    acceptMantissa isDecimalDigit s = (buf ++ fraction, exponent) := by
  rw [acceptMantissa, hs]
  rcases hfraction with rfl | ⟨digits, rfl, hdigits⟩
  · rw [List.nil_append, accept_neg hpoint, List.append_nil]
    rfl
  · rw [List.cons_append, accept_pos (p := isPoint) rfl]
    dsimp only
    rw [if_pos rfl, acceptAll_append (fun b hb => isDecimalDigit_of_isDigit (hdigits b hb)) hdigit,
      List.append_assoc, List.singleton_append]

theorem acceptExponent_decimal (hexponent : IsExponentText exponent) :
    acceptExponent isExponent (buf, exponent) = (buf ++ exponent, []) := by
  rcases hexponent with rfl | ⟨e, n, rfl, he, sign, digits, rfl, hsign, hdigits, -⟩
  · rw [List.append_nil]
    rfl
  · have hexp : isExponent e = true := by simp [isExponent, he]
    have hnotsign : NotNext isSign digits := by
      rw [← List.append_nil digits]
      exact NotNext.append (fun b hb => isDigit_not (by decide) (hdigits b hb)) notNext_nil
    have hall : acceptAll isDecimalDigit (buf ++ [e] ++ sign, digits) = (buf ++ [e] ++ sign ++ digits, []) := by
      have happend : acceptAll isDecimalDigit (buf ++ [e] ++ sign, digits ++ []) = (buf ++ [e] ++ sign ++ digits, []) :=
        acceptAll_append (fun b hb => isDecimalDigit_of_isDigit (hdigits b hb)) notNext_nil
      rwa [List.append_nil] at happend
    rw [acceptExponent, accept_pos hexp, if_pos rfl, accept_sign hsign hnotsign, hall]
    simp

theorem notNext_exponent {p : UInt8 → Bool} (h : IsExponentText exponent) (hupper : p 69 = false)
    (hlower : p 101 = false) : NotNext p exponent := by
  rcases h with rfl | ⟨e, n, rfl, he, -⟩
  · exact notNext_nil
  · simp only [isLetter, Bool.or_eq_true, decide_eq_true_eq] at he
    rcases he with rfl | rfl
    · exact notNext_cons hupper
    · exact notNext_cons hlower

theorem notNext_fraction {p : UInt8 → Bool} (h : IsFraction fraction) (hpoint : p 46 = false)
    (hexponent : NotNext p exponent) : NotNext p (fraction ++ exponent) := by
  rcases h with rfl | ⟨digits, rfl, -⟩
  · exact hexponent
  · exact notNext_cons hpoint

/-- A decimal number is one token. -/
theorem floatToken_decimal {s : Bytes} (h : IsDecimal s) : floatToken s = (s, []) := by
  obtain ⟨sign, int, fraction, exponent, htext, hsign, hint, hfraction, hexponent, -⟩ := h
  have hrest {p : UInt8 → Bool} (hupper : p 69 = false) (hlower : p 101 = false) (hpoint : p 46 = false) :
      NotNext p (fraction ++ exponent) := notNext_fraction hfraction hpoint (notNext_exponent hexponent hupper hlower)
  have hbody {p : UInt8 → Bool} (hdigits : (List.range 10).all (fun d => !p (digitByte d)) = true)
      (hupper : p 69 = false) (hlower : p 101 = false) (hpoint : p 46 = false) :
      NotNext p (int ++ (fraction ++ exponent)) :=
    NotNext.append (fun b hb => isDigit_not hdigits (hint b hb)) (hrest hupper hlower hpoint)
  have hnan : NotNext (isLetter 78 110) s := by
    rw [htext]
    refine NotNext.append (fun b hb => ?_) (hbody (by decide) rfl rfl rfl)
    rcases hsign with rfl | rfl | rfl
    · cases hb
    · rw [List.mem_singleton.mp hb]
      rfl
    · rw [List.mem_singleton.mp hb]
      rfl
  have hzero := acceptSeq_zero sign hint (hrest rfl rfl rfl) (hrest rfl rfl rfl)
  rw [floatToken, acceptSeq_neg hnan]
  dsimp only
  rw [if_neg Bool.false_ne_true, htext, accept_sign hsign (hbody (by decide) rfl rfl rfl),
    acceptSeq_neg (hbody (by decide) rfl rfl rfl)]
  dsimp only
  rw [if_neg Bool.false_ne_true, List.nil_append, if_neg (by rw [hzero.1]; exact Bool.false_ne_true),
    acceptMantissa_fraction hzero.2 hfraction (notNext_exponent hexponent rfl rfl)
      (notNext_exponent hexponent rfl rfl), acceptExponent_decimal hexponent]
  simp only [List.append_assoc]

end Decimal

theorem IsInteger.isDecimal {s : Bytes} (h : IsInteger s) : IsDecimal s := by
  obtain ⟨sign, digits, rfl, hsign, hdigits, hne⟩ := h
  obtain ⟨d, hd⟩ := List.exists_mem_of_ne_nil digits hne
  exact ⟨sign, digits, [], [], by simp, hsign, hdigits, .inl rfl, .inl rfl, d, by simpa using hd, hdigits d hd⟩

theorem IsDecimal.ne_nil {s : Bytes} (h : IsDecimal s) : s ≠ [] := by
  obtain ⟨sign, int, fraction, exponent, htext, -, -, -, -, b, hb, -⟩ := h
  have hmem : b ∈ s := by
    rw [htext, ← List.append_assoc int]
    exact List.mem_append_right _ (List.mem_append_left _ hb)
  exact List.ne_nil_of_mem hmem

/-- The bytes of decimal notation. -/
def isDecimalByte (b : UInt8) : Bool := isSign b || isDigit b || isPoint b || isLetter 69 101 b

theorem isDecimalByte_of_isDigit {b : UInt8} (h : isDigit b = true) : isDecimalByte b = true := by
  simp [isDecimalByte, h]

theorem IsSignText.isDecimalByte {s : Bytes} (h : IsSignText s) {b : UInt8} (hb : b ∈ s) :
    isDecimalByte b = true := by
  rcases h with rfl | rfl | rfl
  · cases hb
  · rw [List.mem_singleton.mp hb]
    rfl
  · rw [List.mem_singleton.mp hb]
    rfl

theorem IsDecimal.isDecimalByte {s : Bytes} (h : IsDecimal s) {b : UInt8} (hb : b ∈ s) : isDecimalByte b = true := by
  obtain ⟨sign, int, fraction, exponent, rfl, hsign, hint, hfraction, hexponent, -⟩ := h
  simp only [List.mem_append] at hb
  rcases hb with hb | hb | hb | hb
  · exact hsign.isDecimalByte hb
  · exact isDecimalByte_of_isDigit (hint b hb)
  · rcases hfraction with rfl | ⟨digits, rfl, hdigits⟩
    · cases hb
    · rcases List.mem_cons.mp hb with rfl | hb
      · rfl
      · exact isDecimalByte_of_isDigit (hdigits b hb)
  · rcases hexponent with rfl | ⟨e, n, rfl, he, sign', digits, rfl, hsign', hdigits, -⟩
    · cases hb
    · simp only [List.mem_cons, List.mem_append] at hb
      rcases hb with rfl | hb | hb
      · simp [Scan.isDecimalByte, he]
      · exact hsign'.isDecimalByte hb
      · exact isDecimalByte_of_isDigit (hdigits b hb)

theorem IsDecimal.not_mem {s : Bytes} (h : IsDecimal s) {b : UInt8} (hb : Scan.isDecimalByte b = false) : b ∉ s := by
  intro hmem
  rw [h.isDecimalByte hmem] at hb
  cases hb

theorem IsDecimal.startsUnblank {s : Bytes} (h : IsDecimal s) (t : Bytes) : StartsUnblank (s ++ t) := by
  obtain ⟨b, s, rfl⟩ := List.exists_cons_of_ne_nil h.ne_nil
  refine startsUnblank_cons (floatToken_visible (b :: s) ?_) (s ++ t)
  rw [floatToken_decimal h]
  exact List.mem_cons_self

/-! ## What is read -/

/-- White space, an integer of 64 bits, and anything that does not go on with a digit. -/
structure ReadsInt (s before token after : Bytes) (v : Int64) : Prop where
  text : s = before ++ (token ++ after)
  blank : IsBlank before
  isInteger : IsInteger token
  ends : NotNext isDigit after
  value : parseInt token = .ok v

/-- White space, the longest token that looks like a number, and anything. The token is
converted. -/
structure FloatConv.ReadsFloat (fc : FloatConv) (s before token after : Bytes) (f : fc.carrier) : Prop where
  text : s = before ++ (token ++ after)
  blank : IsBlank before
  longest : floatToken (token ++ after) = (token, after)
  value : fc.convertFloat token = .ok f

theorem accept_isSign_spec (input : Bytes) :
    IsSignText (accept isSign ([], input)).2.1 ∧
      input = (accept isSign ([], input)).2.1 ++ (accept isSign ([], input)).2.2 := by
  cases input with
  | nil => exact ⟨.inl rfl, rfl⟩
  | cons b input =>
    cases hb : isSign b with
    | true =>
      rw [accept_pos hb]
      simp only [isSign, Bool.or_eq_true, decide_eq_true_eq] at hb
      exact ⟨.inr (by simpa using hb), rfl⟩
    | false =>
      rw [accept_neg (notNext_cons hb)]
      exact ⟨.inl rfl, rfl⟩

theorem notNext_dropWhile (p : UInt8 → Bool) (s : Bytes) : NotNext p (s.dropWhile p) := by
  intro b hb
  have hnot := List.head?_dropWhile_not p s
  rw [hb] at hnot
  exact hnot

theorem scanInt_ok_iff {s : Bytes} {v : Int64} :
    scanInt s = .ok v ↔ ∃ before token after, ReadsInt s before token after v := by
  rw [scanInt, Except.bind_eq_ok_iff]
  constructor
  · rintro ⟨input, hskip, h⟩
    obtain ⟨before, rfl, hblank, -⟩ := skipSpace_ok_iff.mp hskip
    obtain ⟨hsign, hinput⟩ := accept_isSign_spec input
    dsimp only at h
    generalize accept isSign ([], input) = signed at h hsign hinput
    obtain ⟨_, sign, rest⟩ := signed
    cases rest with
    | nil => cases h
    | cons b rest =>
      cases hb : isDigit b with
      | false => simp [hb] at h
      | true =>
        simp only [hb, if_true, acceptAll] at h
        refine ⟨before, sign ++ (b :: rest).takeWhile isDigit, (b :: rest).dropWhile isDigit, ?_, hblank,
          ⟨sign, _, rfl, hsign, fun _ hd => List.mem_takeWhile_imp hd, ?_⟩, notNext_dropWhile _ _, h⟩
        · rw [List.append_assoc, List.takeWhile_append_dropWhile]
          exact congrArg _ hinput
        · rw [List.takeWhile_cons_of_pos hb]
          exact List.cons_ne_nil _ _
  · rintro ⟨before, token, after, rfl, hblank, htoken, hends, hvalue⟩
    refine ⟨_, skipSpace_ok_iff.mpr ⟨before, rfl, hblank, htoken.isDecimal.startsUnblank after⟩, ?_⟩
    obtain ⟨sign, digits, rfl, hsign, hdigits, hne⟩ := htoken
    obtain ⟨d, ds, rfl⟩ := List.exists_cons_of_ne_nil hne
    have hd := hdigits d List.mem_cons_self
    have hnotsign : NotNext isSign (d :: ds ++ after) := notNext_cons (isDigit_not (by decide) hd)
    dsimp only
    rw [List.append_assoc, accept_sign hsign hnotsign, List.nil_append, acceptAll_append hdigits hends]
    rw [List.cons_append]
    dsimp only
    rw [if_pos hd, hvalue]

theorem FloatConv.convertFloat_nil (fc : FloatConv) (f : fc.carrier) : fc.convertFloat [] ≠ .ok f := by
  obtain ⟨e, he⟩ := fc.parseFloat_nil
  rw [convertFloat, if_neg (by simp), he]
  exact fun h => nomatch h

theorem FloatConv.ReadsFloat.startsUnblank {fc : FloatConv} {s before token after : Bytes} {f : fc.carrier}
    (h : fc.ReadsFloat s before token after f) : StartsUnblank (token ++ after) := by
  obtain ⟨-, -, hlongest, hvalue⟩ := h
  have hvisible {b : UInt8} (hb : b ∈ token) : isVisible b = true :=
    floatToken_visible (token ++ after) (by rwa [hlongest])
  cases token with
  | nil => exact absurd hvalue (fc.convertFloat_nil f)
  | cons b token => exact startsUnblank_cons (hvisible List.mem_cons_self) (token ++ after)

theorem FloatConv.scanFloat_ok_iff {fc : FloatConv} {s : Bytes} {f : fc.carrier} :
    fc.scanFloat s = .ok f ↔ ∃ before token after, fc.ReadsFloat s before token after f := by
  rw [scanFloat, Except.bind_eq_ok_iff]
  constructor
  · rintro ⟨input, hskip, h⟩
    obtain ⟨before, rfl, hblank, -⟩ := skipSpace_ok_iff.mp hskip
    split at h
    · cases h
    · refine ⟨before, (floatToken input).1, (floatToken input).2, ?_, hblank, ?_, h⟩
      · rw [floatToken_append]
      · rw [floatToken_append]
  · rintro ⟨before, token, after, h⟩
    have hne : token ++ after ≠ [] := by
      intro hnil
      have htoken := (List.append_eq_nil_iff.mp hnil).1
      exact fc.convertFloat_nil f (htoken ▸ h.value)
    refine ⟨_, skipSpace_ok_iff.mpr ⟨before, h.text, h.blank, h.startsUnblank⟩, ?_⟩
    rw [if_neg hne, h.longest, h.value]

/-! ## Texts that are one number -/

/-- White space before what starts without it is none. -/
theorem IsBlank.eq_nil {s before input : Bytes} (hs : StartsUnblank s) (hblank : IsBlank before)
    (hinput : StartsUnblank input) (h : s = before ++ input) : before = [] := by
  have hall := skipSpace_ok_iff.mpr ⟨[], (List.nil_append s).symm, isBlank_nil, hs⟩
  have hrest := skipSpace_ok_iff.mpr ⟨before, h, hblank, hinput⟩
  rw [hall] at hrest
  cases hrest
  exact List.append_left_eq_self.mp h.symm

theorem ReadsInt.whole {s before token after : Bytes} {v : Int64} (hs : IsInteger s)
    (h : ReadsInt s before token after v) : before = [] ∧ after = [] := by
  have hstarts := hs.isDecimal.startsUnblank []
  rw [List.append_nil] at hstarts
  have hbefore := h.blank.eq_nil hstarts (h.isInteger.isDecimal.startsUnblank after) h.text
  refine ⟨hbefore, ?_⟩
  obtain ⟨sign, digits, hdigits, hsign, hall, -⟩ := hs
  have htext : sign ++ digits = token ++ after := by rw [← hdigits, h.text, hbefore, List.nil_append]
  -- The sign is at most one byte, and the token at least one.
  have hlength : after.length ≤ digits.length := by
    have htoken := List.length_pos_of_ne_nil h.isInteger.isDecimal.ne_nil
    have hone : sign.length ≤ 1 := by rcases hsign with rfl | rfl | rfl <;> simp
    have heq := congrArg List.length htext
    simp only [List.length_append] at heq
    omega
  have hsuffix : after <:+ digits :=
    List.suffix_of_suffix_length_le (htext ▸ List.suffix_append token after) (List.suffix_append sign digits) hlength
  cases after with
  | nil => rfl
  | cons b after =>
    have hdigit := hall b (hsuffix.subset List.mem_cons_self)
    rw [h.ends b rfl] at hdigit
    cases hdigit

theorem FloatConv.ReadsFloat.whole {fc : FloatConv} {s before token after : Bytes} {f : fc.carrier}
    (hs : IsDecimal s) (h : fc.ReadsFloat s before token after f) : before = [] ∧ token = s ∧ after = [] := by
  have hstarts := hs.startsUnblank []
  rw [List.append_nil] at hstarts
  have hbefore := h.blank.eq_nil hstarts h.startsUnblank h.text
  have htext : s = token ++ after := by rw [h.text, hbefore, List.nil_append]
  have htoken := h.longest
  rw [← htext, floatToken_decimal hs] at htoken
  cases htoken
  exact ⟨hbefore, rfl, rfl⟩

theorem FloatConv.convertFloat_decimal (fc : FloatConv) {s : Bytes} (hs : IsDecimal s) :
    fc.convertFloat s = fc.parseFloat s := if_neg fun h => hs.not_mem rfl h.1

theorem scanInt_of_parseInt {s : Bytes} {v : Int64} (hs : IsInteger s) (h : parseInt s = .ok v) :
    scanInt s = .ok v :=
  scanInt_ok_iff.mpr ⟨[], s, [], by simp, isBlank_nil, hs, notNext_nil, h⟩

theorem FloatConv.scanFloat_of_parseFloat {fc : FloatConv} {s : Bytes} {f : fc.carrier} (hs : IsDecimal s)
    (h : fc.parseFloat s = .ok f) : fc.scanFloat s = .ok f :=
  scanFloat_ok_iff.mpr ⟨[], s, [], by simp, isBlank_nil, by rw [List.append_nil, floatToken_decimal hs],
    (fc.convertFloat_decimal hs).trans h⟩

theorem isInteger_format (n : Int) : IsInteger (Decimal.format n) := by
  have hdigits : IsDigits (formatNat n.natAbs) := fun _ => formatNat_isDigit
  unfold Decimal.format
  split
  · exact ⟨[45], _, rfl, .inr (.inr rfl), hdigits, formatNat_ne_nil _⟩
  · exact ⟨[], _, rfl, .inl rfl, hdigits, formatNat_ne_nil _⟩

theorem parseInt_format (v : Int64) : parseInt (Decimal.format v.toInt) = .ok v := by
  rw [parseInt, parse_format]
  dsimp only
  rw [if_pos ⟨v.le_toInt, v.toInt_lt⟩, Int64.ofInt_toInt]

end Scan
