-- SUMMARY: Which configurations are read back from the text they are written to.
import ReticulumMf.Lib.Except
import ReticulumMf.Lxmf.Config

/-!
# Reading a written configuration

Every line of a written configuration is a section header, a setting or empty. A setting
is read back if its text is on one line, is trimmed, fits the scanner's buffer and holds
no `#` (`readLine_setting`); the value is then the one that was written (`Setting.Reads`).

`WriteConfig` does not escape anything. No value that is read contains a `#`
(`HashFree`), so a configuration with one is never read back.
-/

namespace Lxmf

/-! ## Lines -/

theorem rawLines_terminated {ls : List Bytes} (h : ∀ l ∈ ls, newline ∉ l) :
    rawLines (ls.flatMap (· ++ [newline])) = ls := by
  have hjoin : ls.flatMap (· ++ [newline]) = [newline].intercalate (ls ++ [[]]) := by
    induction ls with
    | nil => rfl
    | cons l ls ih =>
      have hls : ls ++ [[]] ≠ [] := by simp
      obtain ⟨m, ms, hms⟩ := List.exists_cons_of_ne_nil hls
      rw [List.flatMap_cons, ih fun l' hl' => h l' (List.mem_cons_of_mem l hl'), List.cons_append, hms,
        List.intercalate_cons_cons]
  have hsplit : ([newline].intercalate (ls ++ [[]])).splitOn newline = ls ++ [[]] := by
    refine List.splitOn_intercalate newline (fun l hl => ?_) (by simp)
    cases List.mem_append.mp hl with
    | inl hmem => exact h l hmem
    | inr hnil => simp [List.mem_singleton.mp hnil]
  simp [rawLines, hjoin, hsplit]

/-- The line of a setting. -/
def Setting.line (s : Setting) (cfg : Config) : Bytes := textBytes s.key ++ textBytes " = " ++ s.text cfg

def ConfigSection.header (sec : ConfigSection) : Bytes := textBytes "[" ++ textBytes sec.name ++ textBytes "]"

def ConfigSection.lines (cfg : Config) (sec : ConfigSection) : List Bytes :=
  sec.header :: [] :: sec.settings.map (·.line cfg) ++ [[]]

theorem ConfigSection.emit_eq (cfg : Config) (sec : ConfigSection) :
    sec.emit cfg = (sec.lines cfg).flatMap (· ++ [newline]) := by
  have hnl : textBytes "\n" = [newline] := by decide
  have hend : textBytes "]\n\n" = textBytes "]" ++ [newline] ++ [newline] := by decide
  simp [emit, lines, header, Setting.line, hnl, hend, List.flatMap_map, List.append_assoc]

theorem writeConfig_eq (ft : FloatText) (cfg : Config) :
    writeConfig ft cfg = ((configSections ft).flatMap (ConfigSection.lines cfg)).flatMap (· ++ [newline]) := by
  rw [writeConfig, List.flatMap_assoc]
  exact List.flatMap_congr fun sec _ => sec.emit_eq cfg

/-! ## Reading a line -/

/-- The names of sections and keys. -/
def IsName (name : String) : Prop :=
  name.toList ≠ [] ∧ ∀ c ∈ name.toList, c ∈ "abcdefghijklmnopqrstuvwxyz_".toList

instance (name : String) : Decidable (IsName name) := @instDecidableAnd _ _ _ (List.decidableBAll _ _)

/-- A visible character of ASCII that is no separator of the format. -/
def IsPlainByte (b : UInt8) : Prop :=
  33 ≤ b.toNat ∧ b.toNat < 127 ∧ b ≠ hash ∧ b ≠ equalsSign ∧ b ≠ comma

instance (b : UInt8) : Decidable (IsPlainByte b) := inferInstanceAs (Decidable (_ ∧ _))

theorem nameChar_bytes : ∀ c ∈ "abcdefghijklmnopqrstuvwxyz_".toList, Utf8.isSpace c = false ∧
    ∀ b ∈ String.utf8EncodeChar c, IsPlainByte b ∧ b ≠ 0x5b := by
  have h : "abcdefghijklmnopqrstuvwxyz_".toList.all (fun c => !Utf8.isSpace c &&
      (String.utf8EncodeChar c).all fun b => decide (IsPlainByte b ∧ b ≠ 0x5b)) = true := by
    decide
  simpa only [List.all_eq_true, Bool.and_eq_true, Bool.not_eq_true', decide_eq_true_eq] using h

theorem IsName.bytes {name : String} (h : IsName name) :
    ∀ b ∈ textBytes name, IsPlainByte b ∧ b ≠ 0x5b := by
  intro b hb
  obtain ⟨c, hc, hb⟩ := List.mem_flatMap.mp hb
  exact (nameChar_bytes c (h.2 c hc)).2 b hb

theorem IsName.not_space {name : String} (h : IsName name) :
    ∀ c ∈ name.toList, Utf8.isSpace c = false := fun c hc => (nameChar_bytes c (h.2 c hc)).1

theorem textBytes_ne_nil {name : String} (h : name.toList ≠ []) : textBytes name ≠ [] := by
  obtain ⟨c, cs, hcs⟩ := List.exists_cons_of_ne_nil h
  intro hnil
  have hpos := c.utf8Size_pos
  rw [textBytes, hcs, Utf8.encode, List.flatMap_cons, List.append_eq_nil_iff] at hnil
  rw [← String.length_utf8EncodeChar, hnil.1] at hpos
  cases hpos

theorem IsName.trimSpace {name : String} (h : IsName name) :
    Utf8.trimSpace (textBytes name) = textBytes name :=
  Utf8.trim_encode_eq_self (fun c hc => h.not_space c (List.mem_of_head? hc))
    fun c hc => h.not_space c (List.mem_of_getLast? hc)

theorem dropCR_of_trimmed {line : Bytes} (h : Utf8.trimSpace line = line) : dropCR line = line := by
  refine if_neg fun hlast => ?_
  obtain ⟨t, ht⟩ := List.getLast?_eq_some_iff.mp hlast
  exact Utf8.ne_append_char_of_trim (c := '\r') (by decide) h t ht

theorem takeWhile_hash {line : Bytes} (h : hash ∉ line) : line.takeWhile (· ≠ hash) = line := by
  refine List.takeWhile_eq_self_iff.mpr fun b hb => ?_
  simpa using fun heq : b = hash => h (heq ▸ hb)

theorem cutEquals_append {a b : Bytes} (ha : equalsSign ∉ a) :
    cutEquals (a ++ equalsSign :: b) = some (a, b) := by
  have hall : ∀ x ∈ a, decide (x ≠ equalsSign) = true := fun x hx => by
    simpa using fun heq : x = equalsSign => ha (heq ▸ hx)
  have htake : (a ++ equalsSign :: b).takeWhile (· ≠ equalsSign) = a := by
    rw [List.takeWhile_append_of_pos hall, List.takeWhile_cons_of_neg (by simp), List.append_nil]
  have hdrop : (a ++ equalsSign :: b).dropWhile (· ≠ equalsSign) = equalsSign :: b := by
    rw [List.dropWhile_append_of_pos hall, List.dropWhile_cons_of_neg (by simp)]
  rw [cutEquals, if_pos (by simp), htake, hdrop]
  rfl

theorem readLine_nil (st : ReaderState) : readLine st [] = .ok { st with lineNo := st.lineNo + 1 } := rfl

theorem readLine_header (st : ReaderState) {sec : ConfigSection} (hname : IsName sec.name)
    (hlen : sec.header.length < maxTokenSize) :
    readLine st sec.header =
      .ok ⟨st.out.addSection (textBytes sec.name), textBytes sec.name, st.lineNo + 1⟩ := by
  have hheader : sec.header = Utf8.encode ('[' :: (sec.name.toList ++ [']'])) := by
    simp only [ConfigSection.header, textBytes, Utf8.encode, ← List.flatMap_append]
    rfl
  have htrim : Utf8.trimSpace sec.header = sec.header := by
    rw [hheader]
    refine Utf8.trim_encode_eq_self (fun c hc => ?_) fun c hc => ?_
    · cases hc
      decide
    · rw [← List.cons_append, List.getLast?_concat] at hc
      cases hc
      decide
  have hhash : hash ∉ sec.header := by
    intro h
    simp only [ConfigSection.header, List.mem_append] at h
    rcases h with (h | h) | h
    · exact absurd h (by decide)
    · exact (hname.bytes _ h).1.2.2.1 rfl
    · exact absurd h (by decide)
  have hinner : (sec.header.drop 1).dropLast = textBytes sec.name := by
    have hopen : textBytes "[" = [0x5b] := by decide
    have hclose : textBytes "]" = [0x5d] := by decide
    simp [ConfigSection.header, hopen, hclose]
  have hne : sec.header ≠ [] := by
    intro hnil
    have hdrop := hinner
    rw [hnil] at hdrop
    exact textBytes_ne_nil hname.1 hdrop.symm
  have hends : textBytes "[" <+: sec.header ∧ textBytes "]" <:+ sec.header :=
    ⟨⟨_, (List.append_assoc _ _ _).symm⟩, List.suffix_append _ _⟩
  simp only [readLine, dropCR_of_trimmed htrim, takeWhile_hash hhash, htrim, hinner, hname.trimSpace]
  rw [if_neg (Nat.not_le.mpr hlen), if_neg hne, if_pos hends, if_neg (textBytes_ne_nil hname.1)]

/-- The line of a setting, when it is trimmed: without a value it ends with the `=`. -/
theorem trimSpace_settingLine {key : String} {v : Bytes} (hkey : IsName key) (hv : Utf8.trimSpace v = v) :
    ∃ rest, Utf8.trimSpace (textBytes key ++ textBytes " = " ++ v) =
        (textBytes key ++ [0x20]) ++ equalsSign :: rest ∧ Utf8.trimSpace rest = v := by
  have hhead (cs : List Char) : ∀ c, (key.toList ++ cs).head? = some c → Utf8.isSpace c = false := by
    intro c hc
    rw [List.head?_append_of_ne_nil _ hkey.1] at hc
    exact hkey.not_space c (List.mem_of_head? hc)
  have hspace : (textBytes " = ") = [0x20, equalsSign] ++ String.utf8EncodeChar ' ' := by decide
  by_cases hnil : v = []
  · refine ⟨[], ?_, hnil.symm ▸ rfl⟩
    have hself : Utf8.trimSpace (textBytes key ++ [0x20, equalsSign]) = textBytes key ++ [0x20, equalsSign] := by
      have henc : textBytes key ++ [0x20, equalsSign] = Utf8.encode (key.toList ++ [' ', '=']) := by
        rw [Utf8.encode, List.flatMap_append]
        rfl
      rw [henc]
      refine Utf8.trim_encode_eq_self (hhead _) fun c hc => ?_
      rw [show key.toList ++ [' ', '='] = (key.toList ++ [' ']) ++ ['='] by simp, List.getLast?_concat] at hc
      cases hc
      decide
    rw [hnil, hspace, List.append_nil, ← List.append_assoc, Utf8.trimSpace,
      Utf8.trim_append_char (c := ' ') (by decide)]
    exact hself.trans (by simp)
  · refine ⟨String.utf8EncodeChar ' ' ++ v, ?_, ?_⟩
    · have henc : textBytes key ++ textBytes " = " = Utf8.encode (key.toList ++ [' ', '=', ' ']) := by
        rw [Utf8.encode, List.flatMap_append]
        rfl
      rw [henc, Utf8.trimSpace, Utf8.trim_encode_append (by simp) (hhead _) hnil hv, ← henc, hspace]
      simp
    · rw [Utf8.trimSpace, Utf8.trim_char_append (by decide)]
      exact hv

theorem readLine_setting {st : ReaderState} {key : String} {v : Bytes} (hcurrent : st.current ≠ [])
    (hkey : IsName key) (hv : Utf8.trimSpace v = v) (hhash : hash ∉ v)
    (hlen : (textBytes key ++ textBytes " = " ++ v).length < maxTokenSize) :
    readLine st (textBytes key ++ textBytes " = " ++ v) =
      .ok { st with out := st.out.assign st.current (textBytes key) v, lineNo := st.lineNo + 1 } := by
  obtain ⟨rest, htrim, hrest⟩ := trimSpace_settingLine hkey hv
  have hcr : dropCR (textBytes key ++ textBytes " = " ++ v) = textBytes key ++ textBytes " = " ++ v := by
    refine if_neg fun hlast => ?_
    by_cases hnil : v = []
    · rw [hnil, List.append_nil, List.getLast?_append_of_ne_nil _ (by decide)] at hlast
      exact absurd hlast (by decide)
    · rw [List.getLast?_append_of_ne_nil _ hnil] at hlast
      obtain ⟨t, ht⟩ := List.getLast?_eq_some_iff.mp hlast
      exact Utf8.ne_append_char_of_trim (c := '\r') (by decide) hv t ht
  have hline : hash ∉ textBytes key ++ textBytes " = " ++ v := by
    intro h
    simp only [List.mem_append] at h
    rcases h with (h | h) | h
    · exact (hkey.bytes _ h).1.2.2.1 rfl
    · exact absurd h (by decide)
    · exact hhash h
  have heq : equalsSign ∉ textBytes key ++ [0x20] := by
    intro h
    cases List.mem_append.mp h with
    | inl hmem => exact (hkey.bytes _ hmem).1.2.2.2.1 rfl
    | inr hmem => exact absurd hmem (by decide)
  have hkeytrim : Utf8.trimSpace (textBytes key ++ [0x20]) = textBytes key :=
    (Utf8.trim_append_char (c := ' ') (by decide) _).trans hkey.trimSpace
  have hbracket : ¬ (textBytes "[" <+: (textBytes key ++ [0x20]) ++ equalsSign :: rest ∧
      textBytes "]" <:+ (textBytes key ++ [0x20]) ++ equalsSign :: rest) := by
    rintro ⟨hopen, -⟩
    obtain ⟨b, bs, hbs⟩ := List.exists_cons_of_ne_nil (textBytes_ne_nil hkey.1)
    have hb := hkey.bytes b (by rw [hbs]; exact List.mem_cons_self)
    rw [hbs, show textBytes "[" = [0x5b] by decide, List.cons_append, List.cons_append,
      List.cons_prefix_cons] at hopen
    exact hb.2 hopen.1.symm
  simp only [readLine, hcr, takeWhile_hash hline, htrim, cutEquals_append heq, hkeytrim, hrest]
  rw [if_neg (Nat.not_le.mpr hlen), if_neg (by simp), if_neg hbracket, if_neg hcurrent,
    if_neg (textBytes_ne_nil hkey.1)]

/-! ## Reading the sections -/

/-- The line of the setting is read back as the text it was written with. -/
structure Setting.Readable (s : Setting) (cfg : Config) : Prop where
  name : IsName s.key
  trimmed : Utf8.trimSpace (s.text cfg) = s.text cfg
  hash : hash ∉ s.text cfg
  fits : (s.line cfg).length < maxTokenSize

/-- The values that are written, in the order of the settings. -/
def writtenValues (cfg : Config) (settings : List Setting) (m : Bytes → Option Bytes) : Bytes → Option Bytes :=
  settings.foldl (fun m s => Function.update m (textBytes s.key) (some (s.text cfg))) m

theorem writtenValues_of_not_mem {cfg : Config} {settings : List Setting} {m : Bytes → Option Bytes}
    {k : Bytes} (h : k ∉ settings.map (textBytes ·.key)) : writtenValues cfg settings m k = m k := by
  induction settings generalizing m with
  | nil => rfl
  | cons s settings ih =>
    rw [List.map_cons, List.mem_cons, not_or] at h
    exact (ih h.2).trans (Function.update_of_ne h.1 _ _)

theorem writtenValues_key {cfg : Config} {settings : List Setting} {m : Bytes → Option Bytes} {s : Setting}
    (hkeys : (settings.map (textBytes ·.key)).Nodup) (hs : s ∈ settings) :
    writtenValues cfg settings m (textBytes s.key) = some (s.text cfg) := by
  induction settings generalizing m with
  | nil => cases hs
  | cons s' settings ih =>
    rw [List.map_cons, List.nodup_cons] at hkeys
    cases List.mem_cons.mp hs with
    | inl heq =>
      subst heq
      exact (writtenValues_of_not_mem hkeys.1).trans (Function.update_self ..)
    | inr hmem => exact ih hkeys.2 hmem

theorem foldlM_settings {cfg : Config} {settings : List Setting} (st : ReaderState)
    {m : Bytes → Option Bytes} (hread : ∀ s ∈ settings, s.Readable cfg) (hcurrent : st.current ≠ [])
    (hout : st.out st.current = some m) :
    ∃ n, (settings.map (·.line cfg)).foldlM readLine st =
      .ok ⟨Function.update st.out st.current (some (writtenValues cfg settings m)), st.current, n⟩ := by
  induction settings generalizing st m with
  | nil => exact ⟨st.lineNo, by simp [writtenValues, ← hout, pure, Except.pure]⟩
  | cons s settings ih =>
    have hs := hread s List.mem_cons_self
    have hassign : st.out.assign st.current (textBytes s.key) (s.text cfg) =
        Function.update st.out st.current (some (Function.update m (textBytes s.key) (some (s.text cfg)))) := by
      rw [ConfigMaps.assign, hout, Option.map_some]
    have hline := readLine_setting hcurrent hs.name hs.trimmed hs.hash hs.fits
    rw [hassign] at hline
    obtain ⟨n, hn⟩ := ih
      ⟨Function.update st.out st.current
        (some (Function.update m (textBytes s.key) (some (s.text cfg)))), st.current, st.lineNo + 1⟩
      (fun s' hs' => hread s' (List.mem_cons_of_mem s hs')) hcurrent (Function.update_self ..)
    rw [Function.update_idem] at hn
    exact ⟨n, by rw [List.map_cons, List.foldlM_cons, Setting.line, hline]; exact hn⟩

/-- What the reader needs to read a section back. -/
structure ConfigSection.Readable (sec : ConfigSection) (cfg : Config) : Prop where
  name : IsName sec.name
  fits : sec.header.length < maxTokenSize
  keys : (sec.settings.map (textBytes ·.key)).Nodup
  settings : ∀ s ∈ sec.settings, s.Readable cfg

def ConfigSection.values (sec : ConfigSection) (cfg : Config) : Bytes → Option Bytes :=
  writtenValues cfg sec.settings fun _ => none

theorem foldlM_lines {cfg : Config} {sec : ConfigSection} {st : ReaderState} (hread : sec.Readable cfg)
    (hfresh : st.out (textBytes sec.name) = none) :
    ∃ st', (sec.lines cfg).foldlM readLine st = .ok st' ∧
      st'.out = Function.update st.out (textBytes sec.name) (some (sec.values cfg)) := by
  have hadd : st.out.addSection (textBytes sec.name) =
      Function.update st.out (textBytes sec.name) (some fun _ => none) := by
    rw [ConfigMaps.addSection, if_neg (by simp [hfresh])]
  obtain ⟨n, hn⟩ := foldlM_settings
    ⟨st.out.addSection (textBytes sec.name), textBytes sec.name, st.lineNo + 1 + 1⟩
    hread.settings (textBytes_ne_nil hread.name.1) (by rw [hadd]; exact Function.update_self ..)
  refine ⟨⟨Function.update (st.out.addSection (textBytes sec.name)) (textBytes sec.name)
    (some (sec.values cfg)), textBytes sec.name, n + 1⟩, ?_, ?_⟩
  · rw [ConfigSection.lines, List.cons_append, List.cons_append, List.foldlM_cons,
      readLine_header st hread.name hread.fits, Except.ok_bind, List.foldlM_cons, readLine_nil,
      Except.ok_bind, List.foldlM_append, hn, Except.ok_bind]
    rfl
  · rw [hadd, Function.update_idem]

theorem foldlM_sections {cfg : Config} {secs : List ConfigSection} (st : ReaderState)
    (hread : ∀ sec ∈ secs, sec.Readable cfg) (hnames : (secs.map (textBytes ·.name)).Nodup)
    (hfresh : ∀ sec ∈ secs, st.out (textBytes sec.name) = none) :
    ∃ st', (secs.flatMap (ConfigSection.lines cfg)).foldlM readLine st = .ok st' ∧
      (∀ sec ∈ secs, st'.out (textBytes sec.name) = some (sec.values cfg)) ∧
      ∀ name ∉ secs.map (textBytes ·.name), st'.out name = st.out name := by
  induction secs generalizing st with
  | nil => exact ⟨st, rfl, fun sec h => absurd h List.not_mem_nil, fun _ _ => rfl⟩
  | cons sec secs ih =>
    rw [List.map_cons, List.nodup_cons] at hnames
    obtain ⟨st₁, hst₁, hout₁⟩ := foldlM_lines (hread sec List.mem_cons_self) (hfresh sec List.mem_cons_self)
    have hother {name : Bytes} (hne : name ≠ textBytes sec.name) : st₁.out name = st.out name := by
      rw [hout₁, Function.update_of_ne hne]
    have hne {sec' : ConfigSection} (hmem : sec' ∈ secs) : textBytes sec'.name ≠ textBytes sec.name :=
      fun heq => hnames.1 (heq ▸ List.mem_map_of_mem hmem)
    obtain ⟨st₂, hst₂, hread₂, hother₂⟩ := ih st₁
      (fun sec' hmem => hread sec' (List.mem_cons_of_mem sec hmem)) hnames.2
      fun sec' hmem => (hother (hne hmem)).trans (hfresh sec' (List.mem_cons_of_mem sec hmem))
    refine ⟨st₂, ?_, ?_, ?_⟩
    · rw [List.flatMap_cons, List.foldlM_append, hst₁]
      exact hst₂
    · intro sec' hmem
      cases List.mem_cons.mp hmem with
      | inl heq => rw [heq, hother₂ _ hnames.1, hout₁, Function.update_self]
      | inr htail => exact hread₂ sec' htail
    · intro name hname
      rw [List.map_cons, List.mem_cons, not_or] at hname
      rw [hother₂ name hname.2, hother hname.1]

/-! ## Reading the values -/

/-- The documented behaviour of `strconv`: what is formatted is parsed to the same
number, a decimal integer is parsed to the float it is converted to, and a formatted
float has a few hundred plain characters. -/
structure FloatText.Documented (ft : FloatText) : Prop where
  parse_format : ∀ f, isNaN f = false → ft.parseFloat (ft.formatFloat f) = some f
  parse_itoa : ∀ n, ft.parseFloat (itoa n) = some (ft.ofInt64 n)
  format_ne_nil : ∀ f, ft.formatFloat f ≠ []
  format_plain : ∀ f, ∀ b ∈ ft.formatFloat f, IsPlainByte b
  length_format : ∀ f, (ft.formatFloat f).length ≤ 400

/-- A value is written on one line, trimmed, and is the value of its text. -/
structure Setting.Reads (s : Setting) (cfg : Config) : Prop where
  newline : newline ∉ s.text cfg
  trimmed : Utf8.trimSpace (s.text cfg) = s.text cfg
  parse_text : s.parse (s.text cfg) = s.get cfg

theorem IsPlainByte.ne_newline {b : UInt8} (h : IsPlainByte b) : b ≠ newline := by
  rintro rfl
  exact absurd h.1 (by decide)

theorem plainByte_char (b : UInt8) (h : IsPlainByte b) :
    String.utf8EncodeChar (Char.ofNat b.toNat) = [b] ∧ Utf8.isSpace (Char.ofNat b.toNat) = false :=
  Utf8.visible_char h.1 h.2.1

theorem trimSpace_of_plain {v : Bytes} (h : ∀ b ∈ v, IsPlainByte b) : Utf8.trimSpace v = v := by
  have henc : v = Utf8.encode (v.map fun b => Char.ofNat b.toNat) := by
    rw [Utf8.encode, List.flatMap_map]
    conv_lhs => rw [← List.flatMap_singleton' v]
    exact List.flatMap_congr fun b hb => (plainByte_char b (h b hb)).1.symm
  have hspace : ∀ c ∈ v.map (fun b => Char.ofNat b.toNat), Utf8.isSpace c = false := by
    intro c hc
    obtain ⟨b, hb, rfl⟩ := List.mem_map.mp hc
    exact (plainByte_char b (h b hb)).2
  rw [henc]
  exact Utf8.trim_encode_eq_self (fun c hc => hspace c (List.mem_of_head? hc))
    fun c hc => hspace c (List.mem_of_getLast? hc)

theorem boolStr_plain (b : Bool) : ∀ x ∈ boolStr b, IsPlainByte x := by
  have h : (boolStr b).all (fun x => decide (IsPlainByte x)) = true := by cases b <;> decide
  simpa only [List.all_eq_true, decide_eq_true_eq] using h

theorem itoa_plain (n : Int64) : ∀ b ∈ itoa n, IsPlainByte b := by
  intro b hb
  cases Decimal.mem_format hb with
  | inl heq =>
    subst heq
    decide
  | inr hdigit =>
    have hrange := Decimal.isDigit_iff.mp hdigit
    refine ⟨by omega, by omega, ?_, ?_, ?_⟩ <;>
    · rintro rfl
      exact absurd hrange (by decide)

theorem atoi_itoa (n : Int64) : atoi (itoa n) = some n := by
  rw [atoi, itoa, Decimal.parse_format, Option.bind_some, if_pos ⟨n.le_toInt, n.toInt_lt⟩, Int64.ofInt_toInt]

theorem parseInt_itoa (n : Int64) : parseInt (itoa n) = n := by
  have hne : itoa n ≠ [] := Decimal.format_ne_nil _
  simp only [parseInt, trimSpace_of_plain (itoa_plain n)]
  rw [if_neg hne, atoi_itoa, Option.getD_some]

theorem FloatText.floatStr_plain {ft : FloatText} (hft : ft.Documented) (f : BitVec 64) :
    ∀ b ∈ ft.floatStr f, IsPlainByte b := by
  unfold floatStr
  split
  · exact itoa_plain _
  · exact hft.format_plain f

theorem FloatText.floatStr_ne_nil {ft : FloatText} (hft : ft.Documented) (f : BitVec 64) :
    ft.floatStr f ≠ [] := by
  unfold floatStr
  split
  · exact Decimal.format_ne_nil _
  · exact hft.format_ne_nil f

/-- The bounds are positive, and a positive float has one bit pattern. -/
theorem eq_of_floatEQ {f g least : BitVec 64} (hleast : 0 < floatKey least) (h : floatLT f least = false)
    (hf : isNaN f = false) (hl : isNaN least = false) (heq : floatEQ f g = true) : f = g := by
  simp only [floatLT, floatEQ, hf, hl, Bool.and_eq_true, decide_eq_true_eq, Bool.not_false, Bool.true_and,
    decide_eq_false_iff_not, not_lt] at h heq
  have hkey := heq.2
  simp only [floatKey] at h hkey hleast
  refine BitVec.eq_of_toNat_eq ?_
  have hfb := f.isLt
  have hgb := g.isLt
  split_ifs at h hkey hleast <;> omega

theorem FloatText.parse_floatStr {ft : FloatText} (hft : ft.Documented) {f least : BitVec 64}
    (hleast : 0 < floatKey least) (hl : isNaN least = false) (hf : isNaN f = false)
    (h : floatLT f least = false) : ft.parseFloatOrZero (ft.floatStr f) = f := by
  simp only [parseFloatOrZero, trimSpace_of_plain (floatStr_plain hft f)]
  rw [if_neg (floatStr_ne_nil hft f)]
  unfold floatStr
  split
  · rename_i heq
    rw [hft.parse_itoa, Option.getD_some]
    exact (eq_of_floatEQ hleast h hf hl heq).symm
  · rw [hft.parse_format f hf, Option.getD_some]

theorem joinList_cons (e : Bytes) (es : List Bytes) :
    joinList (e :: es) = [comma].intercalate (e :: es.map (0x20 :: ·)) := by
  have hsep : textBytes ", " = [comma, 0x20] := by decide
  induction es generalizing e with
  | nil => simp [joinList]
  | cons e' es ih =>
    rw [joinList, List.intercalate_cons_cons, ← joinList, ih, List.map_cons, List.intercalate_cons_cons, hsep]
    cases es with
    | nil => simp
    | cons e'' es => simp [List.intercalate_cons_cons]

structure IsEntry (e : Bytes) : Prop where
  ne_nil : e ≠ []
  trimmed : Utf8.trimSpace e = e
  comma : comma ∉ e
  newline : newline ∉ e

theorem joinList_ne_nil {e : Bytes} {es : List Bytes} (he : IsEntry e) : joinList (e :: es) ≠ [] := by
  rw [joinList_cons]
  cases es with
  | nil => simpa using he.ne_nil
  | cons e' es => simp [List.intercalate_cons_cons, he.ne_nil]

theorem mem_joinList {es : List Bytes} {b : UInt8} (h : b ∈ joinList es) :
    b ∈ textBytes ", " ∨ ∃ e ∈ es, b ∈ e := by
  induction es with
  | nil => cases h
  | cons e es ih =>
    cases es with
    | nil => exact .inr ⟨e, by simp, by simpa [joinList] using h⟩
    | cons e' es =>
      rw [joinList, List.intercalate_cons_cons, List.append_assoc, List.mem_append, List.mem_append] at h
      rcases h with h | h | h
      · exact .inr ⟨e, List.mem_cons_self, h⟩
      · exact .inl h
      · exact (ih h).imp_right fun ⟨x, hx, hb⟩ => ⟨x, List.mem_cons_of_mem e hx, hb⟩

theorem trimSpace_joinList {es : List Bytes} (h : ∀ e ∈ es, IsEntry e) :
    Utf8.trimSpace (joinList es) = joinList es := by
  induction es with
  | nil => rfl
  | cons e es ih =>
    have he := h e List.mem_cons_self
    cases es with
    | nil => simpa [joinList] using he.trimmed
    | cons e' es =>
      have htail : ∀ x ∈ e' :: es, IsEntry x := fun x hx => h x (List.mem_cons_of_mem e hx)
      rw [joinList, List.intercalate_cons_cons, List.append_assoc, ← joinList]
      exact Utf8.trim_append_encode_append (by decide) he.ne_nil he.trimmed
        (joinList_ne_nil (htail e' List.mem_cons_self)) (ih htail)

theorem parseList_joinList {es : List Bytes} (h : ∀ e ∈ es, IsEntry e) : parseList (joinList es) = es := by
  simp only [parseList, trimSpace_joinList h]
  cases es with
  | nil => rfl
  | cons e es =>
    have hsplit : (joinList (e :: es)).splitOn comma = e :: es.map (0x20 :: ·) := by
      rw [joinList_cons]
      refine List.splitOn_intercalate comma (fun l hl => ?_) (by simp)
      cases List.mem_cons.mp hl with
      | inl heq => exact heq ▸ (h e List.mem_cons_self).comma
      | inr hmem =>
        obtain ⟨x, hx, rfl⟩ := List.mem_map.mp hmem
        have hcomma := (h x (List.mem_cons_of_mem e hx)).comma
        simpa [comma] using hcomma
    have htrim : (es.map (0x20 :: ·)).map Utf8.trimSpace = es := by
      have hmap : es.map (Utf8.trimSpace ∘ (0x20 :: ·)) = es.map id :=
        List.map_congr_left fun x hx =>
          (Utf8.trim_char_append (c := ' ') (by decide) x).trans (h x (List.mem_cons_of_mem e hx)).trimmed
      rw [List.map_map, hmap, List.map_id]
    rw [if_neg (joinList_ne_nil (h e List.mem_cons_self)), hsplit, List.map_cons, htrim,
      (h e List.mem_cons_self).trimmed]
    exact List.filter_eq_self.mpr fun x hx => by simpa using (h x hx).ne_nil

/-! ## Configurations -/

/-- A number at or above a bound that `ParseConfig` enforces. -/
def FloatWithin (least f : BitVec 64) : Prop := isNaN f = false ∧ floatLT f least = false

/-- The strings and the entries of the lists stand on one line and are trimmed, and the
numbers lie within the bounds that `ParseConfig` enforces. -/
structure Config.WellFormed (cfg : Config) : Prop where
  strings : ∀ v ∈ [cfg.lxmf.displayName, cfg.lxmf.onInbound, cfg.propagation.nodeName],
    newline ∉ v ∧ Utf8.trimSpace v = v
  lists : ∀ es ∈ [cfg.propagation.prioritiseDestinations, cfg.propagation.controlAllowed,
    cfg.propagation.staticPeers], ∀ e ∈ es, IsEntry e
  sizes : ∀ f ∈ [cfg.lxmf.deliveryTransferMaxAcceptedSize, cfg.propagation.propagationTransferMaxAcceptedKB,
    cfg.propagation.propagationMessageMaxAcceptedKB, cfg.propagation.propagationSyncMaxAcceptedKB],
    FloatWithin minTransferSize f
  storage : FloatWithin minStorageLimit cfg.propagation.messageStorageLimitMB
  target : propagationStampCostMin ≤ cfg.propagation.propagationStampCostTarget
  costs : ∀ n ∈ [cfg.propagation.propagationStampCostFlexibility, cfg.propagation.peeringCost,
    cfg.propagation.remotePeeringCostMax], 0 ≤ n
  level : logCritical ≤ cfg.logging.level ∧ cfg.logging.level ≤ logExtreme

/-- The texts of the strings and of the lists, each with its key. -/
def Config.texts (cfg : Config) : List (String × Bytes) :=
  [("display_name", cfg.lxmf.displayName), ("on_inbound", cfg.lxmf.onInbound),
    ("node_name", cfg.propagation.nodeName),
    ("prioritise_destinations", joinList cfg.propagation.prioritiseDestinations),
    ("control_allowed", joinList cfg.propagation.controlAllowed),
    ("static_peers", joinList cfg.propagation.staticPeers)]

/-- A line `key = text` that holds no `#` and fits the scanner's buffer. -/
def LineKept (key : String) (text : Bytes) : Prop :=
  hash ∉ text ∧ (textBytes key).length + 3 + text.length < maxTokenSize

instance (key : String) (text : Bytes) : Decidable (LineKept key text) := inferInstanceAs (Decidable (_ ∧ _))

section

variable {ft : FloatText} {cfg : Config}

theorem Setting.reads_of_plain {s : Setting} (h : ∀ b ∈ s.text cfg, IsPlainByte b)
    (hparse : s.parse (s.text cfg) = s.get cfg) : s.Reads cfg :=
  ⟨fun hmem => (h _ hmem).ne_newline rfl, trimSpace_of_plain h, hparse⟩

theorem Setting.bool_reads (key : String) (get : Config → Bool) (set : Config → Bool → Config) :
    (Setting.bool key get set).Reads cfg := by
  have hparse : ∀ b, parseBool (boolStr b) = b := by decide
  refine Setting.reads_of_plain (boolStr_plain (get cfg)) ?_
  simp only [Setting.bool, Setting.text, hparse]

theorem Setting.int_reads {key : String} {get : Config → Int64} {set : Config → Int64 → Config}
    {bound : Int64 → Int64} (h : bound (get cfg) = get cfg) : (Setting.int key get set bound).Reads cfg :=
  Setting.reads_of_plain (itoa_plain _) ((congrArg bound (parseInt_itoa _)).trans h)

theorem Setting.float_reads (hft : ft.Documented) {key : String} {get : Config → BitVec 64}
    {set : Config → BitVec 64 → Config} {least : BitVec 64} (hleast : 0 < floatKey least)
    (hl : isNaN least = false) (h : FloatWithin least (get cfg)) :
    (Setting.float ft key get set least).Reads cfg := by
  refine Setting.reads_of_plain (FloatText.floatStr_plain hft (get cfg)) ?_
  simp only [Setting.float, Setting.text, FloatText.parse_floatStr hft hleast hl h.1 h.2, h.2]
  exact if_neg Bool.false_ne_true

theorem Setting.string_reads {key : String} {get : Config → Bytes} {set : Config → Bytes → Config}
    (h : newline ∉ get cfg ∧ Utf8.trimSpace (get cfg) = get cfg) : (Setting.string key get set).Reads cfg :=
  ⟨h.1, h.2, rfl⟩

theorem Setting.list_reads {key : String} {get : Config → List Bytes} {set : Config → List Bytes → Config}
    (h : ∀ e ∈ get cfg, IsEntry e) : (Setting.list key get set).Reads cfg := by
  refine ⟨fun hmem => ?_, trimSpace_joinList h, parseList_joinList h⟩
  cases mem_joinList hmem with
  | inl hsep => exact absurd hsep (by decide)
  | inr hentry =>
    obtain ⟨e, he, hb⟩ := hentry
    exact (h e he).newline hb

theorem max_eq_self {n bound : Int64} (h : bound ≤ n) : max n bound = n := by
  rw [Int64.le_iff_toInt_le] at h
  change (if n ≤ bound then bound else n) = n
  split
  · rename_i hle
    rw [Int64.le_iff_toInt_le] at hle
    exact Int64.toInt_inj.mp (Int.le_antisymm h hle)
  · rfl

theorem Config.WellFormed.reads (hft : ft.Documented) (hcfg : cfg.WellFormed) :
    ∀ sec ∈ configSections ft, ∀ s ∈ sec.settings, s.Reads cfg := by
  have hsize : 0 < floatKey minTransferSize ∧ isNaN minTransferSize = false := by decide
  have hstorage : 0 < floatKey minStorageLimit ∧ isNaN minStorageLimit = false := by decide
  have hlevel : (let level := max cfg.logging.level logCritical
      if level > logExtreme then logExtreme else level) = cfg.logging.level := by
    have hle := hcfg.level.2
    rw [Int64.le_iff_toInt_le] at hle
    dsimp only
    rw [max_eq_self hcfg.level.1, if_neg]
    rw [gt_iff_lt, Int64.lt_iff_toInt_lt]
    omega
  have hstrings := hcfg.strings
  have hlists := hcfg.lists
  have hsizes := hcfg.sizes
  have hcosts := hcfg.costs
  simp only [List.forall_mem_cons, List.not_mem_nil, false_implies, implies_true, and_true] at hstrings hlists hsizes hcosts
  simp only [configSections, lxmfSection, propagationSection, loggingSection, List.forall_mem_cons,
    List.not_mem_nil, false_implies, implies_true, and_true]
  refine ⟨⟨Setting.string_reads hstrings.1, Setting.bool_reads .., Setting.int_reads rfl,
      Setting.float_reads hft hsize.1 hsize.2 hsizes.1, Setting.string_reads hstrings.2.1⟩,
    ⟨Setting.bool_reads .., Setting.string_reads hstrings.2.2, Setting.bool_reads .., Setting.bool_reads ..,
      Setting.int_reads rfl, Setting.bool_reads .., Setting.int_reads rfl,
      Setting.float_reads hft hstorage.1 hstorage.2 hcfg.storage,
      Setting.float_reads hft hsize.1 hsize.2 hsizes.2.1, Setting.float_reads hft hsize.1 hsize.2 hsizes.2.2.1,
      Setting.float_reads hft hsize.1 hsize.2 hsizes.2.2.2, Setting.int_reads (max_eq_self hcfg.target),
      Setting.int_reads (max_eq_self hcosts.1), Setting.int_reads (max_eq_self hcosts.2.1),
      Setting.int_reads (max_eq_self hcosts.2.2), Setting.list_reads hlists.1, Setting.list_reads hlists.2.1,
      Setting.list_reads hlists.2.2, Setting.int_reads rfl, Setting.bool_reads ..⟩,
    Setting.int_reads hlevel⟩

/-! ## What is kept is read back -/

/-- The float without its fraction, as an `int64`. -/
def truncate (f : BitVec 64) : Int64 :=
  let exponent := f.toNat / 2 ^ 52 % 2 ^ 11
  let mantissa : Int := f.toNat % 2 ^ 52 + 2 ^ 52
  let n := if exponent < 1075 then mantissa / 2 ^ (1075 - exponent) else mantissa * 2 ^ (exponent - 1075)
  Int64.ofInt (if f.toNat < 2 ^ 63 then n else -n)

/-- The letter `x`. -/
def bitMark : UInt8 := 0x78

/-- A number format for samples: integers have the texts of `strconv`, any other float is
written as a mark and the integer with its bits. -/
def bitText : FloatText where
  toInt64 := truncate
  ofInt64 n := float64OfInt n.toInt
  formatFloat f :=
    if float64OfInt (truncate f).toInt = f then itoa (truncate f) else bitMark :: itoa (Int64.ofBitVec f)
  parseFloat v :=
    if v.head? = some bitMark then (atoi v.tail).map Int64.toBitVec
    else (atoi v).map fun n => float64OfInt n.toInt

example : ∀ n ∈ [1000, 500, 256, 10240], bitText.floatStr (float64OfInt n) = Decimal.format n := by decide +kernel

/-- The names of a section and of its keys. -/
def ConfigSection.names (sec : ConfigSection) : String × List String := (sec.name, sec.settings.map (·.key))

structure NamesFit (names : String × List String) : Prop where
  section_name : IsName names.1
  section_length : (textBytes names.1).length ≤ 100
  keys : ∀ k ∈ names.2, IsName k ∧ (textBytes k).length ≤ 100
  keys_nodup : (names.2.map textBytes).Nodup

/-- The characters of a name by their codes, which compute faster than the list. -/
def isNameChar (c : Char) : Bool := (97 ≤ c.toNat && c.toNat ≤ 122) || c = '_'

theorem isName_of_all {name : String} (hne : name.toList ≠ []) (h : name.toList.all isNameChar = true) :
    IsName name := by
  refine ⟨hne, fun c hc => ?_⟩
  have hletters : ∀ n < 123, 97 ≤ n → Char.ofNat n ∈ "abcdefghijklmnopqrstuvwxyz_".toList := by decide
  have hchar := List.all_eq_true.mp h c hc
  simp only [isNameChar, Bool.or_eq_true, Bool.and_eq_true, decide_eq_true_eq] at hchar
  rcases hchar with ⟨hlow, hhigh⟩ | rfl
  · have hmem := hletters c.toNat (by omega) hlow
    rwa [Char.ofNat_toNat] at hmem
  · decide

theorem configSections_names (ft : FloatText) : ∀ names ∈ (configSections ft).map ConfigSection.names,
    NamesFit names := by
  have h : ∀ names ∈ (configSections bitText).map ConfigSection.names,
      (∀ k ∈ names.1 :: names.2, k.toList ≠ [] ∧ k.toList.all isNameChar = true ∧ (textBytes k).length ≤ 100) ∧
      (names.2.map textBytes).Nodup := by
    decide +kernel
  intro names hmem
  obtain ⟨hnames, hnodup⟩ := h names hmem
  have hfit (k) (hk : k ∈ names.1 :: names.2) : IsName k ∧ (textBytes k).length ≤ 100 :=
    ⟨isName_of_all (hnames k hk).1 (hnames k hk).2.1, (hnames k hk).2.2⟩
  have hname := hfit names.1 List.mem_cons_self
  exact ⟨hname.1, hname.2, fun k hk => hfit k (List.mem_cons_of_mem _ hk), hnodup⟩

theorem namesFit {sec : ConfigSection} (h : sec ∈ configSections ft) : NamesFit sec.names :=
  configSections_names ft _ (List.mem_map_of_mem h)

theorem configSections_nodup (ft : FloatText) : ((configSections ft).map (textBytes ·.name)).Nodup := by
  have h : ((configSections bitText).map (textBytes ·.name)).Nodup := by decide +kernel
  exact h

theorem Setting.key_isName {sec : ConfigSection} {s : Setting} (h : sec ∈ configSections ft)
    (hs : s ∈ sec.settings) : IsName s.key ∧ (textBytes s.key).length ≤ 100 :=
  (namesFit h).keys s.key (List.mem_map_of_mem hs)

theorem Setting.length_line (s : Setting) (cfg : Config) :
    (s.line cfg).length = (textBytes s.key).length + 3 + (s.text cfg).length := by
  rw [line, List.length_append, List.length_append]
  rfl

theorem length_itoa (n : Int64) : (itoa n).length < 400 := by
  have hlt : n.toInt.natAbs < 10 ^ (19 + 1) := by
    have hlow := n.le_toInt
    have hhigh := n.toInt_lt
    omega
  have h := Decimal.length_format hlt
  rw [itoa]
  omega

theorem lineKept_of_plain {key : String} {text : Bytes} (hkey : (textBytes key).length ≤ 100)
    (hplain : ∀ b ∈ text, IsPlainByte b) (hlen : text.length ≤ 400) : LineKept key text := by
  refine ⟨fun hmem => (hplain _ hmem).2.2.1 rfl, ?_⟩
  have hmax : 1000 ≤ maxTokenSize := by decide
  omega

theorem FloatText.length_floatStr (hft : ft.Documented) (f : BitVec 64) : (ft.floatStr f).length ≤ 400 := by
  unfold floatStr
  split
  · exact (length_itoa _).le
  · exact hft.length_format f

theorem length_boolStr (b : Bool) : (boolStr b).length ≤ 400 := by
  cases b <;> decide

/-- The lines of the other settings are always kept. -/
theorem lineKept_of_texts (hft : ft.Documented) (h : ∀ e ∈ cfg.texts, LineKept e.1 e.2) :
    ∀ sec ∈ configSections ft, ∀ s ∈ sec.settings, LineKept s.key (s.text cfg) := by
  have hbool {key : String} {b : Bool} (hkey : (textBytes key).length ≤ 100) : LineKept key (boolStr b) :=
    lineKept_of_plain hkey (boolStr_plain b) (length_boolStr b)
  have hint {key : String} {n : Int64} (hkey : (textBytes key).length ≤ 100) : LineKept key (itoa n) :=
    lineKept_of_plain hkey (itoa_plain n) (length_itoa n).le
  have hfloat {key : String} {f : BitVec 64} (hkey : (textBytes key).length ≤ 100) :
      LineKept key (ft.floatStr f) :=
    lineKept_of_plain hkey (FloatText.floatStr_plain hft f) (FloatText.length_floatStr hft f)
  have hsettings : ∀ sec ∈ configSections ft, ∀ s ∈ sec.settings, (textBytes s.key).length ≤ 100 →
      LineKept s.key (s.text cfg) := by
    simp only [Config.texts, configSections, lxmfSection, propagationSection, loggingSection,
      List.forall_mem_cons, List.not_mem_nil, false_implies, implies_true, and_true] at h ⊢
    obtain ⟨hdisplay, hinbound, hnode, hprioritise, hcontrol, hstatic⟩ := h
    exact ⟨⟨fun _ => hdisplay, hbool, hint, hfloat, fun _ => hinbound⟩,
      ⟨hbool, fun _ => hnode, hbool, hbool, hint, hbool, hint, hfloat, hfloat, hfloat, hfloat, hint, hint,
        hint, hint, fun _ => hprioritise, fun _ => hcontrol, fun _ => hstatic, hint, hbool⟩, hint⟩
  exact fun sec hsec s hs => hsettings sec hsec s hs (Setting.key_isName hsec hs).2

theorem configSection_readable (hft : ft.Documented) (hcfg : cfg.WellFormed)
    (h : ∀ e ∈ cfg.texts, LineKept e.1 e.2) {sec : ConfigSection} (hsec : sec ∈ configSections ft) :
    sec.Readable cfg where
  name := (namesFit hsec).section_name
  fits := by
    have hlen : (textBytes sec.name).length ≤ 100 := (namesFit hsec).section_length
    have hmax : 1000 ≤ maxTokenSize := by decide
    have hends : (textBytes "[").length = 1 ∧ (textBytes "]").length = 1 := by decide
    rw [ConfigSection.header, List.length_append, List.length_append, hends.1, hends.2]
    omega
  keys := by
    have hnodup := (namesFit hsec).keys_nodup
    rwa [ConfigSection.names, List.map_map] at hnodup
  settings := fun s hs => by
    have hkept := lineKept_of_texts hft h sec hsec s hs
    exact ⟨(Setting.key_isName hsec hs).1, (hcfg.reads hft sec hsec s hs).trimmed, hkept.1,
      (Setting.length_line s cfg).symm ▸ hkept.2⟩

theorem rawLines_writeConfig (hft : ft.Documented) (hcfg : cfg.WellFormed) :
    rawLines (writeConfig ft cfg) = (configSections ft).flatMap (ConfigSection.lines cfg) := by
  rw [writeConfig_eq]
  refine rawLines_terminated fun l hl hnl => ?_
  obtain ⟨sec, hsec, hl⟩ := List.mem_flatMap.mp hl
  have hname {name : String} (hn : IsName name) (hmem : newline ∈ textBytes name) : False :=
    (hn.bytes _ hmem).1.ne_newline rfl
  simp only [ConfigSection.lines, List.cons_append, List.mem_cons, List.mem_append, List.mem_map,
    List.not_mem_nil, or_false] at hl
  rcases hl with rfl | rfl | ⟨s, hs, rfl⟩ | rfl
  · simp only [ConfigSection.header, List.mem_append] at hnl
    rcases hnl with (hnl | hnl) | hnl
    · exact absurd hnl (by decide)
    · exact hname (namesFit hsec).section_name hnl
    · exact absurd hnl (by decide)
  · cases hnl
  · simp only [Setting.line, List.mem_append] at hnl
    rcases hnl with (hnl | hnl) | hnl
    · exact hname (Setting.key_isName hsec hs).1 hnl
    · exact absurd hnl (by decide)
    · exact (hcfg.reads hft sec hsec s hs).newline hnl
  · cases hnl

theorem apply_values (hft : ft.Documented) (hcfg : cfg.WellFormed) {sec : ConfigSection}
    (hsec : sec ∈ configSections ft) (c : Config) :
    sec.apply (sec.values cfg) c = sec.settings.foldl (fun c s => s.set c (s.get cfg)) c := by
  have hnodup := (namesFit hsec).keys_nodup
  rw [ConfigSection.names, List.map_map] at hnodup
  refine List.foldl_ext _ _ c fun c' s hs => ?_
  rw [ConfigSection.values, writtenValues_key hnodup hs]
  exact congrArg (s.set c') (hcfg.reads hft sec hsec s hs).parse_text

theorem set_lxmf (ft : FloatText) (cfg c : Config) :
    (lxmfSection ft).settings.foldl (fun c s => s.set c (s.get cfg)) c = { c with lxmf := cfg.lxmf } := rfl

theorem set_propagation (ft : FloatText) (cfg c : Config) :
    (propagationSection ft).settings.foldl (fun c s => s.set c (s.get cfg)) c =
      { c with propagation := cfg.propagation } := by
  cases c
  simp only [propagationSection, Setting.string, Setting.bool, Setting.int, Setting.float, Setting.list,
    List.foldl_cons, List.foldl_nil]

/-- Every setting is in the listings. -/
theorem set_all (ft : FloatText) (cfg c : Config) : (configSections ft).foldl (fun c sec =>
    sec.settings.foldl (fun c s => s.set c (s.get cfg)) c) c = cfg := by
  simp only [configSections, List.foldl_cons, List.foldl_nil, set_lxmf, set_propagation]
  rfl

theorem parseConfig_writeConfig (hft : ft.Documented) (hcfg : cfg.WellFormed)
    (h : ∀ e ∈ cfg.texts, LineKept e.1 e.2) : parseConfig ft (writeConfig ft cfg) = .ok cfg := by
  obtain ⟨st, hst, hout, -⟩ := foldlM_sections ⟨fun _ => none, [], 0⟩
    (fun sec hsec => configSection_readable hft hcfg h hsec) (configSections_nodup ft) fun _ _ => rfl
  have hmaps : readSectionedKV (writeConfig ft cfg) = .ok st.out := by
    rw [readSectionedKV, rawLines_writeConfig hft hcfg, hst]
    rfl
  rw [parseConfig, hmaps]
  refine congrArg Except.ok (Eq.trans (List.foldl_ext _ _ _ fun c sec hsec => ?_) (set_all ft cfg defaultConfig))
  rw [hout sec hsec]
  exact apply_values hft hcfg hsec c

/-! ## What is read holds no hash -/

def ConfigMaps.HashFree (out : ConfigMaps) : Prop :=
  ∀ name m k v, out name = some m → m k = some v → hash ∉ v

theorem ConfigMaps.HashFree.addSection {out : ConfigMaps} (h : out.HashFree) (name : Bytes) :
    (out.addSection name).HashFree := by
  unfold ConfigMaps.addSection
  split
  · exact h
  · intro name' m k v hm hv
    by_cases heq : name' = name
    · rw [heq, Function.update_self] at hm
      cases hm
      cases hv
    · rw [Function.update_of_ne heq] at hm
      exact h name' m k v hm hv

theorem ConfigMaps.HashFree.assign {out : ConfigMaps} (h : out.HashFree) {name k v : Bytes} (hv : hash ∉ v) :
    (out.assign name k v).HashFree := by
  intro name' m k' v' hm hv'
  by_cases heq : name' = name
  · rw [heq, ConfigMaps.assign, Function.update_self, Option.map_eq_some_iff] at hm
    obtain ⟨m₀, hm₀, rfl⟩ := hm
    by_cases hk : k' = k
    · rw [hk, Function.update_self] at hv'
      cases hv'
      exact hv
    · rw [Function.update_of_ne hk] at hv'
      exact h name m₀ k' v' hm₀ hv'
  · rw [ConfigMaps.assign, Function.update_of_ne heq] at hm
    exact h name' m k' v' hm hv'

/-- The value that a line assigns is a part of the line, and is cut off before a `#`. -/
theorem cutEquals_hash {raw before after : Bytes}
    (h : cutEquals (Utf8.trimSpace (raw.takeWhile (· ≠ hash))) = some (before, after)) :
    hash ∉ Utf8.trimSpace after := by
  unfold cutEquals at h
  split at h
  · cases h
    intro hmem
    have hline := ((Utf8.trim_sublist _).trans ((List.drop_sublist _ _).trans
      (List.dropWhile_sublist _))).subset hmem
    have htake := (Utf8.trim_sublist (p := Utf8.isSpace) _).subset hline
    simpa using List.mem_takeWhile_imp htake
  · cases h

theorem readLine_cases {st st' : ReaderState} {raw : Bytes} (h : readLine st raw = .ok st') :
    raw.length < maxTokenSize ∧ (st'.out = st.out ∨ (∃ name, st'.out = st.out.addSection name) ∨
      ∃ name k v, hash ∉ v ∧ st'.out = st.out.assign name k v) := by
  unfold readLine at h
  split at h
  · cases h
  rename_i hlen
  refine ⟨Nat.lt_of_not_le hlen, ?_⟩
  dsimp only at h
  split at h
  · cases h
    exact .inl rfl
  · split at h
    · split at h
      · cases h
      · cases h
        exact .inr (.inl ⟨_, rfl⟩)
    · split at h
      · cases h
      · rename_i before after hcut
        split at h
        · cases h
        · split at h
          · cases h
          · cases h
            exact .inr (.inr ⟨_, _, _, cutEquals_hash hcut, rfl⟩)

theorem readLine_hashFree {st st' : ReaderState} {raw : Bytes} (h : readLine st raw = .ok st')
    (hst : st.out.HashFree) : st'.out.HashFree := by
  rcases (readLine_cases h).2 with hout | ⟨name, hout⟩ | ⟨name, k, v, hv, hout⟩
  · exact hout ▸ hst
  · exact hout ▸ hst.addSection name
  · exact hout ▸ hst.assign hv

theorem readSectionedKV_hashFree {data : Bytes} {maps : ConfigMaps} (h : readSectionedKV data = .ok maps) :
    maps.HashFree := by
  obtain ⟨st, hst, rfl⟩ := Except.map_eq_ok_iff.mp h
  exact Except.foldlM_invariant (P := fun st : ReaderState => st.out.HashFree) hst
    (fun _ _ _ _ hm _ => by cases hm) fun st raw _ st' hfree hread => readLine_hashFree hread hfree

def Config.HashFree (cfg : Config) : Prop := ∀ e ∈ cfg.texts, hash ∉ e.2

theorem mem_intercalate {sep part : Bytes} {parts : List Bytes} {b : UInt8} (hpart : part ∈ parts)
    (hb : b ∈ part) : b ∈ sep.intercalate parts := by
  induction parts with
  | nil => cases hpart
  | cons part' parts ih =>
    cases parts with
    | nil =>
      rw [List.intercalate_singleton, ← List.mem_singleton.mp hpart]
      exact hb
    | cons part'' parts =>
      rw [List.intercalate_cons_cons, List.append_assoc, List.mem_append, List.mem_append]
      cases List.mem_cons.mp hpart with
      | inl heq => exact .inl (heq ▸ hb)
      | inr hmem => exact .inr (.inr (ih hmem))

theorem joinList_parseList_hash {v : Bytes} (h : hash ∉ v) : hash ∉ joinList (parseList v) := by
  intro hmem
  cases mem_joinList hmem with
  | inl hsep => exact absurd hsep (by decide)
  | inr hentry =>
    obtain ⟨e, he, hb⟩ := hentry
    simp only [parseList] at he
    split at he
    · cases he
    · obtain ⟨part, hpart, rfl⟩ := List.mem_map.mp (List.mem_of_mem_filter he)
      have hin := (Utf8.trim_sublist (p := Utf8.isSpace) part).subset hb
      have hjoin : hash ∈ [comma].intercalate ((Utf8.trimSpace v).splitOn comma) := mem_intercalate hpart hin
      rw [List.intercalate_splitOn] at hjoin
      exact h ((Utf8.trim_sublist (p := Utf8.isSpace) v).subset hjoin)

theorem set_hashFree (ft : FloatText) : ∀ sec ∈ configSections ft, ∀ s ∈ sec.settings, ∀ (c : Config) (v : Bytes),
    hash ∉ v → c.HashFree → (s.set c (s.parse v)).HashFree := by
  simp only [Config.HashFree, Config.texts, configSections, lxmfSection, propagationSection, loggingSection,
    Setting.string, Setting.bool, Setting.int, Setting.float, Setting.list, List.forall_mem_cons,
    List.not_mem_nil, false_implies, implies_true, and_true, true_and, imp_self]
  exact ⟨⟨fun c v hv hc => ⟨hv, hc.2⟩, fun c v hv hc => ⟨hc.1, hv, hc.2.2⟩⟩,
    fun c v hv hc => ⟨hc.1, hc.2.1, hv, hc.2.2.2⟩,
    fun c v hv hc => ⟨hc.1, hc.2.1, hc.2.2.1, joinList_parseList_hash hv, hc.2.2.2.2⟩,
    fun c v hv hc => ⟨hc.1, hc.2.1, hc.2.2.1, hc.2.2.2.1, joinList_parseList_hash hv, hc.2.2.2.2.2⟩,
    fun c v hv hc => ⟨hc.1, hc.2.1, hc.2.2.1, hc.2.2.2.1, hc.2.2.2.2.1, joinList_parseList_hash hv⟩⟩

theorem parseConfig_hashFree {data : Bytes} {cfg : Config} (h : parseConfig ft data = .ok cfg) : cfg.HashFree := by
  obtain ⟨maps, hmaps, hcfg⟩ := Except.bind_eq_ok_iff.mp h
  have hfree := readSectionedKV_hashFree hmaps
  have hdefault : defaultConfig.HashFree := by
    simp only [Config.HashFree, Config.texts, List.forall_mem_cons, List.not_mem_nil, false_implies,
      implies_true, and_true]
    decide
  rw [← Except.pure_eq_ok_iff.mp hcfg]
  refine List.foldlRecOn _ _ hdefault fun c hc sec hsec => ?_
  split
  · exact hc
  · rename_i values hvalues
    refine List.foldlRecOn _ _ hc fun c' hc' s hs => ?_
    split
    · exact hc'
    · rename_i v hv
      exact set_hashFree ft sec hsec s hs c' v (hfree _ _ _ _ hvalues hv) hc'

theorem line_fits_of_parseConfig {c : Config} (hft : ft.Documented) (hcfg : cfg.WellFormed)
    (h : parseConfig ft (writeConfig ft cfg) = .ok c) :
    ∀ sec ∈ configSections ft, ∀ s ∈ sec.settings, (s.line cfg).length < maxTokenSize := by
  intro sec hsec s hs
  obtain ⟨maps, hmaps, -⟩ := Except.bind_eq_ok_iff.mp h
  obtain ⟨st, hst, -⟩ := Except.map_eq_ok_iff.mp hmaps
  rw [rawLines_writeConfig hft hcfg] at hst
  have hmem : s.line cfg ∈ (configSections ft).flatMap (ConfigSection.lines cfg) := by
    refine List.mem_flatMap.mpr ⟨sec, hsec, ?_⟩
    simp only [ConfigSection.lines, List.cons_append, List.mem_cons, List.mem_append]
    exact .inr (.inr (.inl (List.mem_map_of_mem hs)))
  obtain ⟨s₀, s₁, hread⟩ := Except.foldlM_forall hst _ hmem
  exact (readLine_cases hread).1

/-- The texts belong to settings that are listed. -/
theorem texts_fit_of_lines (h : ∀ sec ∈ configSections ft, ∀ s ∈ sec.settings,
      (s.line cfg).length < maxTokenSize) :
    ∀ e ∈ cfg.texts, (textBytes e.1).length + 3 + e.2.length < maxTokenSize := by
  simp only [configSections, lxmfSection, propagationSection, loggingSection, Config.texts, Setting.length_line,
    List.forall_mem_cons, List.not_mem_nil, false_implies, implies_true, and_true] at h ⊢
  obtain ⟨⟨hdisplay, -, -, -, hinbound⟩, ⟨-, hnode, -, -, -, -, -, -, -, -, -, -, -, -, -, hprioritise,
    hcontrol, hstatic, -⟩, -⟩ := h
  exact ⟨hdisplay, hinbound, hnode, hprioritise, hcontrol, hstatic⟩

/-- A well-formed configuration is read back exactly if none of its strings and lists
holds a `#` and their lines fit the scanner's buffer. -/
theorem config_round_trip_iff (hft : ft.Documented) (hcfg : cfg.WellFormed) :
    parseConfig ft (writeConfig ft cfg) = .ok cfg ↔ ∀ e ∈ cfg.texts, LineKept e.1 e.2 := by
  constructor
  · intro h e he
    exact ⟨parseConfig_hashFree h e he,
      texts_fit_of_lines (line_fits_of_parseConfig hft hcfg h) e he⟩
  · exact parseConfig_writeConfig hft hcfg

end

/-! ## Samples -/

theorem itoa_unmarked (n : Int64) : (itoa n).head? ≠ some bitMark := by
  intro h
  cases Decimal.mem_format (List.mem_of_mem_head? h) with
  | inl heq => exact absurd heq (by decide)
  | inr hdigit => exact absurd hdigit (by decide)

theorem bitText_parse_itoa (n : Int64) : bitText.parseFloat (itoa n) = some (float64OfInt n.toInt) := by
  simp only [bitText, if_neg (itoa_unmarked n), atoi_itoa, Option.map_some]

theorem bitText_format_cases (f : BitVec 64) :
    float64OfInt (truncate f).toInt = f ∧ bitText.formatFloat f = itoa (truncate f) ∨
      bitText.formatFloat f = bitMark :: itoa (Int64.ofBitVec f) := by
  simp only [bitText]
  split
  · exact .inl ⟨‹_›, rfl⟩
  · exact .inr rfl

theorem bitText_documented : bitText.Documented where
  parse_format f _ := by
    obtain ⟨hint, heq⟩ | heq := bitText_format_cases f
    · rw [heq, bitText_parse_itoa, hint]
    · rw [heq]
      simp [bitText, atoi_itoa]
  parse_itoa := bitText_parse_itoa
  format_ne_nil f := by
    obtain ⟨-, heq⟩ | heq := bitText_format_cases f <;> rw [heq]
    · exact Decimal.format_ne_nil _
    · exact List.cons_ne_nil _ _
  format_plain f := by
    obtain ⟨-, heq⟩ | heq := bitText_format_cases f <;> rw [heq]
    · exact itoa_plain _
    · exact List.forall_mem_cons.mpr ⟨by decide, itoa_plain _⟩
  length_format f := by
    obtain ⟨-, heq⟩ | heq := bitText_format_cases f <;> rw [heq]
    · exact (length_itoa _).le
    · exact length_itoa _

/-- The defaults with another name. -/
def namedConfig (name : Bytes) : Config := { defaultConfig with lxmf.displayName := name }

theorem defaultConfig_wellFormed : defaultConfig.WellFormed where
  strings := by decide +kernel
  lists := by
    have h : ∀ es ∈ [defaultConfig.propagation.prioritiseDestinations,
        defaultConfig.propagation.controlAllowed, defaultConfig.propagation.staticPeers], es = [] := by decide
    intro es hes e he
    rw [h es hes] at he
    cases he
  sizes := by
    have hsizes : FloatWithin minTransferSize (float64OfInt 1000) ∧
        FloatWithin minTransferSize (float64OfInt 256) ∧ FloatWithin minTransferSize (float64OfInt 10240) :=
      ⟨⟨by decide +kernel, by decide +kernel⟩, ⟨by decide +kernel, by decide +kernel⟩,
        by decide +kernel, by decide +kernel⟩
    simp only [List.forall_mem_cons, List.not_mem_nil, false_implies, implies_true, and_true]
    exact ⟨hsizes.1, hsizes.2.1, hsizes.2.1, hsizes.2.2⟩
  storage := ⟨by decide +kernel, by decide +kernel⟩
  target := by decide
  costs := by
    simp only [List.forall_mem_cons, List.not_mem_nil, false_implies, implies_true, and_true]
    exact ⟨by decide, by decide, by decide⟩
  level := by decide

theorem namedConfig_wellFormed {name : Bytes} (h : newline ∉ name ∧ Utf8.trimSpace name = name) :
    (namedConfig name).WellFormed where
  strings := List.forall_mem_cons.mpr
    ⟨h, fun v hv => defaultConfig_wellFormed.strings v (List.mem_cons_of_mem _ hv)⟩
  lists := defaultConfig_wellFormed.lists
  sizes := defaultConfig_wellFormed.sizes
  storage := defaultConfig_wellFormed.storage
  target := defaultConfig_wellFormed.target
  costs := defaultConfig_wellFormed.costs
  level := defaultConfig_wellFormed.level

theorem default_config_read_back :
    defaultConfig.WellFormed ∧ parseConfig bitText (writeConfig bitText defaultConfig) = .ok defaultConfig := by
  have hkept : ∀ e ∈ defaultConfig.texts, LineKept e.1 e.2 := by decide +kernel
  exact ⟨defaultConfig_wellFormed, (config_round_trip_iff bitText_documented defaultConfig_wellFormed).mpr hkept⟩

/-- The rest of a display name after a `#` is taken for a comment. -/
theorem hash_name_not_read_back : (namedConfig (textBytes "a#b")).WellFormed ∧ bitText.Documented ∧
    ∀ ft : FloatText, ft.Documented →
      parseConfig ft (writeConfig ft (namedConfig (textBytes "a#b"))) ≠ .ok (namedConfig (textBytes "a#b")) := by
  refine ⟨namedConfig_wellFormed (by decide), bitText_documented, fun ft _ h => ?_⟩
  exact parseConfig_hashFree h ("display_name", textBytes "a#b") List.mem_cons_self (by decide)

end Lxmf
