-- SUMMARY: File names of the message store: writing them, and which names are read.
import ReticulumMf.Lib.Scan
import ReticulumMf.Lxmf.Config
import ReticulumMf.Lxmf.Hex

/-!
# File names of the message store

A stored message is named by its transient id, the time it was received and its stamp
value. The name that is written for a time of whole microseconds is read back
(`parse_messageStoreFilename`).

The reader splits the name and scans the numbers. The scanner stops behind a number, so
that names with white space before a number or any text behind it are accepted too
(`accepts_only_store_form_iff`).
-/

namespace Lxmf

open Decimal Scan

def underscore : UInt8 := 0x5f

inductive FilenameError where
  | invalidFilename (name : Bytes)
  | invalidTransientID (name : Bytes) (err : HexError)
  | invalidTimestamp (name : Bytes) (err : Scan.Error)
  | invalidStampValue (name : Bytes) (err : Scan.Error)
  deriving DecidableEq

variable (fc : FloatConv)

/-- `strings.TrimRight` with a cutset of one character. -/
def trimRight (c : UInt8) (s : Bytes) : Bytes := s.rdropWhile (· = c)

def formatFloat (f : fc.carrier) : Bytes :=
  let s := fc.formatMicro f
  let s := trimRight 48 s
  let s := trimRight 46 s
  if s = [] ∨ s = [45] then [48] else s

def parseFloat (s : Bytes) : Except Scan.Error fc.carrier := fc.scanFloat s

def parseInt64 (s : Bytes) : Except Scan.Error Int64 := scanInt s

def messageStoreFilename (transientID : Bytes) (receivedAt : fc.carrier) (stampValue : Int64) : Bytes :=
  encodeToString transientID ++ underscore :: formatFloat fc receivedAt ++ underscore :: itoa stampValue

def parseMessageStoreFilename (name : Bytes) : Except FilenameError (Bytes × fc.carrier × Int64) :=
  match name.splitOn underscore with
  | [id, received, stamp] => do
    let transientID ← (decodeString id).mapError (.invalidTransientID name)
    let receivedAt ← (parseFloat fc received).mapError (.invalidTimestamp name)
    let stampValue ← (parseInt64 stamp).mapError (.invalidStampValue name)
    return (transientID, receivedAt, stampValue)
  | _ => .error (.invalidFilename name)

/-! ## Components -/

theorem not_mem_of_mem_splitOn {c : UInt8} {s part : Bytes} (h : part ∈ s.splitOn c) : c ∉ part := by
  induction s generalizing part with
  | nil =>
    rw [List.splitOn_nil, List.mem_singleton] at h
    rw [h]
    exact List.not_mem_nil
  | cons b s ih =>
    rw [List.splitOn_cons_eq_if_modifyHead] at h
    split at h
    · cases List.mem_cons.mp h with
      | inl hnil =>
        rw [hnil]
        exact List.not_mem_nil
      | inr hmem => exact ih hmem
    · rename_i hne
      obtain ⟨first, parts, hparts⟩ := List.exists_cons_of_ne_nil (List.splitOn_ne_nil c s)
      rw [hparts, List.modifyHead_cons] at h
      cases List.mem_cons.mp h with
      | inl hfirst =>
        rw [hfirst, List.mem_cons, not_or]
        exact ⟨fun heq => hne (by simp [heq]), ih (hparts ▸ List.mem_cons_self)⟩
      | inr hmem => exact ih (hparts ▸ List.mem_cons_of_mem first hmem)

/-- Three components with no `_` in them. -/
structure Components (name id received stamp : Bytes) : Prop where
  text : name = id ++ underscore :: (received ++ underscore :: stamp)
  id : underscore ∉ id
  received : underscore ∉ received
  stamp : underscore ∉ stamp

theorem splitOn_eq_iff {name id received stamp : Bytes} :
    name.splitOn underscore = [id, received, stamp] ↔ Components name id received stamp := by
  have hjoin : [underscore].intercalate [id, received, stamp] =
      id ++ underscore :: (received ++ underscore :: stamp) := by
    simp [List.intercalate]
  constructor
  · intro h
    have hpart {part : Bytes} (hmem : part ∈ [id, received, stamp]) : underscore ∉ part :=
      not_mem_of_mem_splitOn (h ▸ hmem)
    refine ⟨?_, hpart (by simp), hpart (by simp), hpart (by simp)⟩
    rw [← hjoin, ← h, List.intercalate_splitOn]
  · rintro ⟨rfl, hid, hreceived, hstamp⟩
    rw [← hjoin]
    refine List.splitOn_intercalate underscore (fun part hpart => ?_) (by simp)
    simp only [List.mem_cons, List.not_mem_nil, or_false] at hpart
    rcases hpart with rfl | rfl | rfl <;> assumption

theorem parseMessageStoreFilename_ok_iff {name id : Bytes} {f : fc.carrier} {v : Int64} :
    parseMessageStoreFilename fc name = .ok (id, f, v) ↔
      ∃ hex received stamp, Components name hex received stamp ∧ decodeString hex = .ok id ∧
        parseFloat fc received = .ok f ∧ parseInt64 stamp = .ok v := by
  unfold parseMessageStoreFilename
  constructor
  · intro h
    split at h
    · rename_i hex received stamp hsplit
      simp only [Except.bind_eq_ok_iff, Except.mapError_eq_ok_iff, Except.pure_eq_ok_iff] at h
      obtain ⟨id', hid, f', hf, v', hv, heq⟩ := h
      cases heq
      exact ⟨hex, received, stamp, splitOn_eq_iff.mp hsplit, hid, hf, hv⟩
    · cases h
  · rintro ⟨hex, received, stamp, hcomponents, hid, hf, hv⟩
    rw [splitOn_eq_iff.mpr hcomponents]
    simp only [Except.bind_eq_ok_iff, Except.mapError_eq_ok_iff, Except.pure_eq_ok_iff]
    exact ⟨id, hid, f, hf, v, hv, rfl⟩

/-! ## Times of whole microseconds -/

def signText (t : Int) : Bytes := if t < 0 then [45] else []

/-- The sign and the integer part of a time in seconds. -/
def wholeText (t : Int) : Bytes := signText t ++ formatNat (t.natAbs / 10 ^ 6)

def fractionText (digits : Bytes) : Bytes := if digits = [] then [] else 46 :: digits

/-- The number `f` is a time of `t` microseconds: it is printed with six digits as what it
is, and it is what a text of at most six digits after the point is read as. -/
structure IsMicros (f : fc.carrier) (t : Int) : Prop where
  format : fc.formatMicro f = wholeText t ++ 46 :: padded 6 (t.natAbs % 10 ^ 6)
  parse : ∀ whole digits, IsDigits whole → whole ≠ [] → IsDigits digits → digits.length ≤ 6 →
    value whole * 10 ^ 6 + value digits * 10 ^ (6 - digits.length) = t.natAbs →
    fc.parseFloat (signText t ++ (whole ++ fractionText digits)) = .ok f

/-- Reads a text of at most six digits after the point, without an exponent. -/
def readMicros (s : Bytes) : Option Int :=
  let body := if s.head? = some 45 then s.tail else s
  let whole := body.takeWhile isDigit
  let digits := (body.dropWhile isDigit).tail
  if whole ≠ [] ∧ (body.dropWhile isDigit).head?.all isPoint ∧ digits.all isDigit ∧ digits.length ≤ 6 then
    let n : Nat := value whole * 10 ^ 6 + value digits * 10 ^ (6 - digits.length)
    some (if s.head? = some 45 then -n else n)
  else none

/-- Times as whole numbers of microseconds. -/
def micros : FloatConv where
  carrier := Int
  parseFloat s := match readMicros s with
    | some t => .ok t
    | none => .error .invalidNumber
  ldexp t m := if 0 ≤ m then t * 2 ^ m.toInt.toNat else t / 2 ^ (-m.toInt).toNat
  formatMicro t := wholeText t ++ 46 :: padded 6 (t.natAbs % 10 ^ 6)
  parseFloat_nil := ⟨_, rfl⟩

theorem readMicros_text {t : Int} {whole digits : Bytes} (hwhole : IsDigits whole) (hne : whole ≠ [])
    (hdigits : IsDigits digits) (hlength : digits.length ≤ 6)
    (hvalue : value whole * 10 ^ 6 + value digits * 10 ^ (6 - digits.length) = t.natAbs) :
    readMicros (signText t ++ (whole ++ fractionText digits)) = some t := by
  have hfraction : (fractionText digits).takeWhile isDigit = [] ∧ (fractionText digits).dropWhile isDigit =
      fractionText digits ∧ (fractionText digits).head?.all isPoint = true ∧ (fractionText digits).tail = digits := by
    unfold fractionText
    split
    · rename_i hnil
      exact ⟨rfl, rfl, rfl, hnil.symm⟩
    · exact ⟨rfl, rfl, rfl, rfl⟩
  have hhead : (whole ++ fractionText digits).head? ≠ some 45 := by
    obtain ⟨d, ds, rfl⟩ := List.exists_cons_of_ne_nil hne
    intro h
    have hd := hwhole d List.mem_cons_self
    rw [Option.some.inj h] at hd
    cases hd
  have hbody : (if (signText t ++ (whole ++ fractionText digits)).head? = some 45 then
      (signText t ++ (whole ++ fractionText digits)).tail else signText t ++ (whole ++ fractionText digits)) =
        whole ++ fractionText digits := by
    unfold signText
    split
    · rfl
    · exact if_neg hhead
  have hsign : (if (signText t ++ (whole ++ fractionText digits)).head? = some 45 then -(t.natAbs : Int)
      else t.natAbs) = t := by
    unfold signText
    split
    · rw [List.singleton_append, List.head?_cons, if_pos rfl]
      omega
    · rw [List.nil_append, if_neg hhead]
      omega
  simp only [readMicros, hbody, List.takeWhile_append_of_pos hwhole, List.dropWhile_append_of_pos hwhole, hfraction,
    List.append_nil, hvalue, hsign]
  exact if_pos ⟨hne, trivial, List.all_eq_true.mpr hdigits, hlength⟩

theorem micros_isMicros (t : Int) : IsMicros micros t t where
  format := rfl
  parse whole digits hwhole hne hdigits hlength hvalue := by
    have hread := readMicros_text hwhole hne hdigits hlength hvalue
    simp only [micros, hread]

/-! ## Names of the store's form -/

/-- Hexadecimal digits in pairs, a decimal number and a decimal integer, joined by `_`. -/
def StoreForm (name : Bytes) : Prop :=
  ∃ id received stamp, name = id ++ underscore :: (received ++ underscore :: stamp) ∧
    IsHexText id ∧ IsDecimal received ∧ IsInteger stamp

/-- The name is accepted only if it is of the store's form. -/
def AcceptedInStoreForm (name : Bytes) : Prop :=
  ∀ r, parseMessageStoreFilename fc name = .ok r → StoreForm name

/-- The numbers of a name that has an identifier, a time and a stamp value have nothing
around them, and the time is in decimal notation. -/
def NumbersBare (name : Bytes) : Prop :=
  ∀ id received stamp, Components name id received stamp → IsHexText id →
    ∀ before time after f, fc.ReadsFloat received before time after f →
      ∀ before' value after' v, ReadsInt stamp before' value after' v →
        before = [] ∧ after = [] ∧ IsDecimal time ∧ before' = [] ∧ after' = []

theorem IsHexText.not_mem {s : Bytes} (h : IsHexText s) : underscore ∉ s := by
  intro hmem
  have hdigit := h.1 underscore hmem
  cases hdigit

/-- A name of the store's form has the components it is made of. -/
theorem StoreForm.components {name id received stamp : Bytes} (h : StoreForm name)
    (hcomponents : Components name id received stamp) : IsDecimal received ∧ IsInteger stamp := by
  obtain ⟨id', received', stamp', htext, hid, hreceived, hstamp⟩ := h
  have hsplit := splitOn_eq_iff.mpr
    ⟨htext, hid.not_mem, hreceived.not_mem rfl, hstamp.isDecimal.not_mem (b := underscore) rfl⟩
  rw [splitOn_eq_iff.mpr hcomponents] at hsplit
  cases hsplit
  exact ⟨hreceived, hstamp⟩

theorem accepts_only_store_form_iff (name : Bytes) :
    AcceptedInStoreForm fc name ↔ NumbersBare fc name := by
  constructor
  · intro haccepted id received stamp hcomponents hid before time after f hf before' value after' v hv
    obtain ⟨bs, hbs⟩ := decodeString_accepts_iff.mpr hid
    have hform := haccepted _ ((parseMessageStoreFilename_ok_iff fc).mpr ⟨id, received, stamp, hcomponents, hbs,
      FloatConv.scanFloat_ok_iff.mpr ⟨before, time, after, hf⟩, scanInt_ok_iff.mpr ⟨before', value, after', hv⟩⟩)
    obtain ⟨hdecimal, hinteger⟩ := hform.components hcomponents
    obtain ⟨hbefore, htime, hafter⟩ := hf.whole hdecimal
    obtain ⟨hbefore', hafter'⟩ := hv.whole hinteger
    exact ⟨hbefore, hafter, htime ▸ hdecimal, hbefore', hafter'⟩
  · rintro hbare ⟨bs, f, v⟩ hparse
    obtain ⟨id, received, stamp, hcomponents, hid, hreceived, hstamp⟩ :=
      (parseMessageStoreFilename_ok_iff fc).mp hparse
    have hhex := decodeString_accepts_iff.mp ⟨bs, hid⟩
    obtain ⟨before, time, after, hf⟩ := FloatConv.scanFloat_ok_iff.mp hreceived
    obtain ⟨before', value, after', hv⟩ := scanInt_ok_iff.mp hstamp
    obtain ⟨rfl, rfl, hdecimal, rfl, rfl⟩ := hbare id received stamp hcomponents hhex _ _ _ _ hf _ _ _ _ hv
    refine ⟨id, received, stamp, hcomponents.text, hhex, ?_, ?_⟩
    · rw [hf.text]
      simpa using hdecimal
    · rw [hv.text]
      simpa using hv.isInteger

/-- A temporary file is accepted: the scanner leaves `.tmp` unread. -/
theorem temporary_name_accepted :
    parseMessageStoreFilename micros (textBytes "00_1_2.tmp") = .ok ([0], (1000000 : Int), 2) ∧
      ¬StoreForm (textBytes "00_1_2.tmp") := by
  refine ⟨rfl, fun hform => ?_⟩
  have hcomponents : Components (textBytes "00_1_2.tmp") (textBytes "00") (textBytes "1") (textBytes "2.tmp") :=
    splitOn_eq_iff.mp (by decide)
  have hinteger := (hform.components hcomponents).2
  exact hinteger.isDecimal.not_mem (b := 116) rfl (by decide)

/-! ## Reading a written name -/

variable {fc} {f : fc.carrier} {t : Int}

theorem trimRight_append_cons {c x : UInt8} (h : x ≠ c) (l s : Bytes) :
    trimRight c (l ++ x :: s) = l ++ x :: trimRight c s := by
  induction s using List.reverseRecOn with
  | nil => exact List.rdropWhile_concat_neg _ _ _ (by simpa using h)
  | append_singleton s y ih =>
    by_cases hy : y = c
    · have hdrop (l : Bytes) : trimRight c (l ++ [y]) = trimRight c l :=
        List.rdropWhile_concat_pos _ _ _ (by simpa using hy)
      rw [← List.cons_append, ← List.append_assoc, hdrop, hdrop, ih]
    · have hkeep (l : Bytes) : trimRight c (l ++ [y]) = l ++ [y] :=
        List.rdropWhile_concat_neg _ _ _ (by simpa using hy)
      rw [← List.cons_append, ← List.append_assoc, hkeep, hkeep, List.append_assoc, List.cons_append]

theorem trimRight_append {c : UInt8} {s : Bytes} (hs : s ≠ []) (h : c ∉ s) (l : Bytes) :
    trimRight c (l ++ s) = l ++ s := by
  refine List.rdropWhile_eq_self_iff.mpr fun hne hlast => h ?_
  rw [List.getLast_append_of_ne_nil _ hs] at hlast
  exact of_decide_eq_true hlast ▸ List.getLast_mem hs

theorem trimRight_append_replicate (c : UInt8) (s : Bytes) : ∃ k, s = trimRight c s ++ List.replicate k c := by
  refine ⟨(s.rtakeWhile (· = c)).length, ?_⟩
  have hall : s.rtakeWhile (· = c) = List.replicate (s.rtakeWhile (· = c)).length c :=
    List.eq_replicate_of_mem fun b hb => by simpa using List.mem_rtakeWhile_imp hb
  rw [← hall]
  exact List.rdropWhile_append_rtakeWhile.symm

theorem isDigits_wholeDigits (t : Int) : IsDigits (formatNat (t.natAbs / 10 ^ 6)) := fun _ => formatNat_isDigit

theorem signText_isSignText (t : Int) : IsSignText (signText t) := by
  unfold signText
  split
  · exact .inr (.inr rfl)
  · exact .inl rfl

theorem isDecimal_micros {digits : Bytes} (t : Int) (h : IsDigits digits) :
    IsDecimal (wholeText t ++ fractionText digits) := by
  obtain ⟨d, hd⟩ := List.exists_mem_of_ne_nil _ (formatNat_ne_nil (t.natAbs / 10 ^ 6))
  refine ⟨signText t, formatNat (t.natAbs / 10 ^ 6), fractionText digits, [], ?_, signText_isSignText t,
    isDigits_wholeDigits t, ?_, .inl rfl, d, List.mem_append_left _ hd, formatNat_isDigit hd⟩
  · rw [wholeText, List.append_nil, List.append_assoc]
  · unfold fractionText
    split
    · exact .inl rfl
    · exact .inr ⟨digits, rfl, h⟩

/-- Both trims stay behind the integer part. -/
theorem trimRight_micros {ds : Bytes} (t : Int) (h : IsDigits ds) :
    trimRight 46 (trimRight 48 (wholeText t ++ 46 :: ds)) = wholeText t ++ fractionText (trimRight 48 ds) := by
  have hdigits : IsDigits (trimRight 48 ds) := fun b hb => h b ((List.rdropWhile_prefix _ _).subset hb)
  rw [trimRight_append_cons (by decide)]
  generalize trimRight 48 ds = digits at hdigits
  unfold fractionText
  split
  · rename_i hnil
    have hpoint : (46 : UInt8) ∉ formatNat (t.natAbs / 10 ^ 6) := fun hmem => absurd (formatNat_isDigit hmem) (by decide)
    have hdrop : trimRight 46 (wholeText t ++ [46]) = trimRight 46 (wholeText t) :=
      List.rdropWhile_concat_pos _ _ _ rfl
    rw [hnil, hdrop, List.append_nil, wholeText, trimRight_append (formatNat_ne_nil _) hpoint]
  · rename_i hne
    have hpoint : (46 : UInt8) ∉ digits := fun hmem => absurd (hdigits 46 hmem) (by decide)
    have hkeep := trimRight_append hne hpoint (wholeText t ++ [46])
    rwa [List.append_assoc, List.singleton_append] at hkeep

/-- The digits after the point that are kept. -/
def microDigits (t : Int) : Bytes := trimRight 48 (padded 6 (t.natAbs % 10 ^ 6))

theorem isDigits_microDigits (t : Int) : IsDigits (microDigits t) :=
  fun _ hb => padded_isDigit ((List.rdropWhile_prefix _ _).subset hb)

theorem formatFloat_micros (h : IsMicros fc f t) : formatFloat fc f = wholeText t ++ fractionText (microDigits t) := by
  obtain ⟨d, hd⟩ := List.exists_mem_of_ne_nil _ (formatNat_ne_nil (t.natAbs / 10 ^ 6))
  have hmem : d ∈ wholeText t ++ fractionText (microDigits t) :=
    List.mem_append_left _ (List.mem_append_right _ hd)
  simp only [formatFloat, h.format, trimRight_micros t fun _ => padded_isDigit]
  refine if_neg fun hempty => ?_
  rcases hempty with hnil | hminus
  · exact List.not_mem_nil (hnil ▸ hmem)
  · have hd45 : d = 45 := List.mem_singleton.mp (hminus ▸ hmem)
    exact absurd (formatNat_isDigit hd) (by rw [hd45]; decide)

theorem parseFloat_formatFloat (h : IsMicros fc f t) : parseFloat fc (formatFloat fc f) = .ok f := by
  have hdigits := isDigits_microDigits t
  obtain ⟨k, hk⟩ := trimRight_append_replicate 48 (padded 6 (t.natAbs % 10 ^ 6))
  have hlength := congrArg List.length hk
  have hvalue := congrArg value hk
  rw [length_padded, List.length_append, List.length_replicate] at hlength
  rw [value_padded, value_append_zeros, Nat.mod_mod] at hvalue
  have hrest : 6 - (microDigits t).length = k := by
    unfold microDigits
    omega
  rw [formatFloat_micros h]
  refine FloatConv.scanFloat_of_parseFloat (isDecimal_micros t hdigits) ?_
  rw [wholeText, List.append_assoc]
  refine h.parse _ _ (isDigits_wholeDigits t) (formatNat_ne_nil _) hdigits (by unfold microDigits; omega) ?_
  rw [hrest, microDigits, ← hvalue, value_formatNat, Nat.div_add_mod']

/-- A written name is read back, and the integer part of the time is written in full. -/
theorem parse_messageStoreFilename (h : IsMicros fc f t) (id : Bytes) (v : Int64) :
    parseMessageStoreFilename fc (messageStoreFilename fc id f v) = .ok (id, f, v) ∧
      wholeText t <+: formatFloat fc f ∧ IsDecimal (formatFloat fc f) := by
  have hformat := formatFloat_micros h
  have hdecimal : IsDecimal (formatFloat fc f) := by
    rw [hformat]
    exact isDecimal_micros t (isDigits_microDigits t)
  have hhex := decodeString_accepts_iff.mp ⟨id, decodeString_encodeToString id⟩
  have hstamp := isInteger_format v.toInt
  refine ⟨(parseMessageStoreFilename_ok_iff fc).mpr ⟨encodeToString id, formatFloat fc f, itoa v, ?_,
    decodeString_encodeToString id, parseFloat_formatFloat h, ?_⟩, ?_, hdecimal⟩
  · refine ⟨?_, hhex.not_mem, hdecimal.not_mem rfl, hstamp.isDecimal.not_mem (b := underscore) rfl⟩
    rw [messageStoreFilename, List.append_assoc, List.cons_append]
  · exact scanInt_of_parseInt hstamp (parseInt_format v)
  · rw [hformat]
    exact List.prefix_append _ _

theorem negative_time_read_back :
    IsMicros micros (-1500000 : Int) (-1500000) ∧
      parseMessageStoreFilename micros (messageStoreFilename micros [0xab] (-1500000 : Int) 7) =
        .ok ([0xab], (-1500000 : Int), 7) ∧
      wholeText (-1500000) <+: formatFloat micros (-1500000 : Int) ∧ IsDecimal (formatFloat micros (-1500000 : Int)) :=
  ⟨micros_isMicros _, parse_messageStoreFilename (micros_isMicros _) [0xab] 7⟩

example : messageStoreFilename micros [0xab] (-1500000 : Int) 7 = textBytes "ab_-1.5_7" := by decide

end Lxmf
