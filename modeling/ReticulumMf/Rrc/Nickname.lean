-- SUMMARY: Which nicknames a second pass of SanitizeNick leaves as they are, and what the hub stores.
import ReticulumMf.Rrc.Limits

/-!
# Nicknames

`SanitizeNick` trims white space first and drops control characters afterwards,
which can bring white space to the ends again. `applyInboundNick` sanitises and
checks a nickname, and `setNick` sanitises it once more: what is stored is what was
checked exactly if no white space came to an end (`nick_stored_iff`).
-/

namespace Rrc

open Threads

variable {toLower : Bytes → Bytes} {cfg : HubConfig} {text : GoText} {x : HubChoice} {s : HubState}
  {i : Nat} {env : Envelope} {active : Bool} {r : Effect HubState HubAct} {nick : Bytes} {a : HubAct}
  {c c' : HubConf}

/-! ## The second pass -/

/-- The characters that ranging over the string yields. -/
def nickChars (nick : Bytes) : List Char := (Utf8.split nick).map (·.1)

/-- The characters that `SanitizeNick` keeps. -/
def keepsChar (c : Char) : Bool := keepsRune (.utf8 id) c.toNat

theorem sanitizeNick_utf8 (toLower : Bytes → Bytes) (nick : Bytes) :
    sanitizeNick (.utf8 toLower) nick =
      Utf8.encode ((nickChars (Utf8.trimSpace nick)).filter keepsChar) := by
  have hrunes : (GoText.utf8 toLower).runes (Utf8.trimSpace nick) =
      (nickChars (Utf8.trimSpace nick)).map Char.toNat := by
    rw [nickChars, List.map_map]
    rfl
  rw [sanitizeNick_eq nick (GoText.utf8_lawful toLower).runes_nil, ← GoText.utf8_write toLower]
  change (((GoText.utf8 toLower).runes (Utf8.trimSpace nick)).filter _).flatMap _ = _
  rw [hrunes, List.filter_map]
  rfl

theorem nickChars_encode (cs : List Char) : nickChars (Utf8.encode cs) = cs := by
  rw [nickChars, Utf8.split_encode, List.map_map]
  exact List.map_id cs

/-- The second pass only trims. -/
theorem sanitizeNick_sanitizeNick (toLower : Bytes → Bytes) (nick : Bytes) :
    sanitizeNick (.utf8 toLower) (sanitizeNick (.utf8 toLower) nick) =
      Utf8.trimSpace (sanitizeNick (.utf8 toLower) nick) := by
  rw [sanitizeNick_utf8 toLower (sanitizeNick _ nick), sanitizeNick_utf8 toLower nick]
  obtain ⟨kept, hkept, htrim⟩ :=
    Utf8.trim_encode Utf8.isSpace ((nickChars (Utf8.trimSpace nick)).filter keepsChar)
  have hall : kept.filter keepsChar = kept :=
    List.filter_eq_self.mpr fun c hc => (List.mem_filter.mp (hkept.subset hc)).2
  rw [Utf8.trimSpace, htrim, nickChars_encode, hall]

/-- Of the characters of the trimmed string that are kept, neither the first nor the
last is white space. -/
structure NoSpaceExposed (nick : Bytes) : Prop where
  first : ∀ c, (nickChars (Utf8.trimSpace nick)).find? keepsChar = some c → Utf8.isSpace c = false
  last : ∀ c, (nickChars (Utf8.trimSpace nick)).reverse.find? keepsChar = some c →
    Utf8.isSpace c = false

theorem sanitizeNick_idempotent_iff :
    sanitizeNick (.utf8 toLower) (sanitizeNick (.utf8 toLower) nick) =
      sanitizeNick (.utf8 toLower) nick ↔ NoSpaceExposed nick := by
  rw [sanitizeNick_sanitizeNick, sanitizeNick_utf8, Utf8.trimSpace, Utf8.trim_eq_self_iff,
    Utf8.endsWithout_encode, List.head?_filter, ← List.head?_reverse, ← List.filter_reverse,
    List.head?_filter]
  exact ⟨fun h => ⟨h.1, h.2⟩, fun h => ⟨h.first, h.last⟩⟩

/-! ## The stored nickname -/

/-- The nickname after `applyInboundNick`. -/
theorem applyInboundNick_nick (hnick : env.hasNick = true)
    (h : hubAct text cfg x s (.applyInboundNick i env active) = some r) :
    (r.shared.peer i).nick =
      if sanitizeNick text env.nick = [] ∨
          (sanitizeNick text env.nick).length > cfg.limits.maxNickBytes then (s.peer i).nick
      else sanitizeNick text (sanitizeNick text env.nick) := by
  simp only [hubAct, hnick, Bool.true_eq_false, false_or] at h
  split at h
  · rename_i hempty
    cases h
    exact (if_pos (.inl hempty)).symm
  rename_i hne
  split at h
  · rename_i hlong
    cases h
    exact (if_pos (.inr hlong)).symm
  rename_i hshort
  split at h <;> cases h
  rw [if_neg (not_or.mpr ⟨hne, hshort⟩), HubState.set_peer_self]

/-- White space, or a character that is dropped. -/
def Strippable (c : Char) : Prop := Utf8.isSpace c = true ∨ keepsChar c = false

/-- A nickname that comes in is not changed by a second pass; it is stored as it was
checked, and if there is nothing in it the stored one stays. -/
structure NickStored (text : GoText) (cfg : HubConfig) (nick : Bytes) : Prop where
  idempotent : sanitizeNick text (sanitizeNick text nick) = sanitizeNick text nick
  stored : ∀ {x s i env active r}, env.hasNick = true → env.nick = nick →
    hubAct text cfg x s (.applyInboundNick i env active) = some r →
    sanitizeNick text nick ≠ [] → (sanitizeNick text nick).length ≤ cfg.limits.maxNickBytes →
    (r.shared.peer i).nick = sanitizeNick text nick
  kept : ∀ {x s i env active r}, env.hasNick = true → env.nick = nick →
    hubAct text cfg x s (.applyInboundNick i env active) = some r →
    (∀ c ∈ nickChars nick, Strippable c) → (r.shared.peer i).nick = (s.peer i).nick

theorem nickChars_trimSpace_subset {c : Char} (h : c ∈ nickChars (Utf8.trimSpace nick)) :
    c ∈ nickChars nick := by
  have hsplit : Utf8.split (Utf8.trimSpace nick) = Utf8.trimPieces Utf8.isSpace (Utf8.split nick) :=
    Utf8.split_trim (by decide) nick
  rw [nickChars, hsplit] at h
  exact ((Utf8.trimPieces_sublist _).map _).subset h

/-- Nothing is left of strippable characters, unless white space comes to an end. -/
theorem sanitizeNick_strippable (hexposed : NoSpaceExposed nick)
    (h : ∀ c ∈ nickChars nick, Strippable c) : sanitizeNick (.utf8 toLower) nick = [] := by
  have hnone : (nickChars (Utf8.trimSpace nick)).find? keepsChar = none := by
    rw [Option.eq_none_iff_forall_ne_some]
    intro c hc
    have hkeeps := List.find?_some hc
    have hmem := nickChars_trimSpace_subset (List.mem_of_find?_eq_some hc)
    cases h c hmem with
    | inl hspace =>
      rw [hexposed.first c hc] at hspace
      cases hspace
    | inr hdropped =>
      rw [hkeeps] at hdropped
      cases hdropped
  rw [sanitizeNick_utf8, List.filter_eq_nil_iff.mpr fun c hc => by
    simpa using List.find?_eq_none.mp hnone c hc]
  rfl

/-- Sanitising twice is sanitising once, and the hub stores what it checked, exactly for
the nicknames where dropping characters brings no white space to an end. -/
theorem nick_stored_iff (toLower : Bytes → Bytes) (cfg : HubConfig) (nick : Bytes) :
    NickStored (.utf8 toLower) cfg nick ↔ NoSpaceExposed nick := by
  constructor
  · exact fun h => sanitizeNick_idempotent_iff.mp h.idempotent
  · intro hexposed
    have hidem : sanitizeNick (.utf8 toLower) (sanitizeNick (.utf8 toLower) nick) =
        sanitizeNick (.utf8 toLower) nick := sanitizeNick_idempotent_iff.mpr hexposed
    refine ⟨hidem, ?_, ?_⟩
    · intro x s i env active r hnick henv hact hne hlen
      subst henv
      rw [applyInboundNick_nick hnick hact, if_neg (not_or.mpr ⟨hne, Nat.not_lt.mpr hlen⟩), hidem]
    · intro x s i env active r hnick henv hact hstrip
      subst henv
      rw [applyInboundNick_nick hnick hact, if_pos (.inl (sanitizeNick_strippable hexposed hstrip))]

/-- A session has the nickname "bob", and a JOIN brings one of a space between two
control characters. -/
def blankNickJoin : List (Event HubChoice HubEvent) :=
  nickedJoin ++
  [.env (.packet 0 (some { sampleJoin with nick := [1, 32, 1], hasNick := true }))] ++
  turns 6 1 ++ turns 7 4

/-- The space is left by the first pass and dropped by the second, and the stored
nickname is cleared. -/
theorem blank_nick_clears_stored :
    sanitizeNick (.utf8 id) (sanitizeNick (.utf8 id) [1, 32, 1]) ≠ sanitizeNick (.utf8 id) [1, 32, 1] ∧
    (∀ c ∈ nickChars [1, 32, 1], Strippable c) ∧
    ∃ c c', Transition.run (hubStep (.utf8 id) sampleHub) hubInit nickedJoin = some c ∧
      (c.shared.peer 0).nick = [98, 111, 98] ∧
      Transition.run (hubStep (.utf8 id) sampleHub) hubInit blankNickJoin = some c' ∧
      (c'.shared.peer 0).nick = [] := by
  have hbefore : (Transition.run (hubStep (.utf8 id) sampleHub) hubInit nickedJoin).map
      (fun c => (c.shared.peer 0).nick) = some [98, 111, 98] := by
    decide +kernel
  have hafter : (Transition.run (hubStep (.utf8 id) sampleHub) hubInit blankNickJoin).map
      (fun c => (c.shared.peer 0).nick) = some [] := by
    decide +kernel
  have hchars : nickChars [1, 32, 1] = [Char.ofNat 1, ' ', Char.ofNat 1] := by decide +kernel
  obtain ⟨c, hrun, hnick⟩ := Option.map_eq_some_iff.mp hbefore
  obtain ⟨c', hrun', hnick'⟩ := Option.map_eq_some_iff.mp hafter
  refine ⟨by decide +kernel, ?_, c, c', hrun, hnick, hrun', hnick'⟩
  rw [hchars]
  simp only [List.forall_mem_cons, List.not_mem_nil, false_implies, implies_true, and_true]
  exact ⟨.inr (by decide), .inl (by decide), .inr (by decide)⟩

/-! ## The nicknames of a run -/

/-- The nickname that `applyInboundNick` accepts for peer `i`: it is neither empty nor
too long. -/
def HubAct.acceptsNick (text : GoText) (cfg : HubConfig) (i : Nat) : HubAct → Option Bytes
  | .applyInboundNick j env _ =>
    let nick := sanitizeNick text env.nick
    if j = i ∧ env.hasNick = true ∧ nick ≠ [] ∧ nick.length ≤ cfg.limits.maxNickBytes then some nick
    else none
  | _ => none

def acceptedNick (text : GoText) (cfg : HubConfig) (i : Nat) (c : HubConf) :
    Event HubChoice HubEvent → Option Bytes
  | .run t _ => (c.next t).bind (HubAct.acceptsNick text cfg i)
  | .env _ => none

/-- The last nickname accepted for peer `i` in the run, and `nick` if there is none. -/
def lastNick (text : GoText) (cfg : HubConfig) (i : Nat) :
    HubConf → List (Event HubChoice HubEvent) → Option Bytes → Option Bytes
  | _, [], nick => nick
  | c, e :: es, nick =>
    match hubStep text cfg c e with
    | none => nick
    | some c' => lastNick text cfg i c' es ((acceptedNick text cfg i c e).or nick)

/-- What `setNick` makes of an accepted nickname. -/
def storedFrom (text : GoText) (nick : Option Bytes) : Bytes := (nick.map (sanitizeNick text)).getD []

theorem hubAct_nick (h : hubAct text cfg x s a = some r) :
    (r.shared.peer i).nick =
      ((a.acceptsNick text cfg i).map (sanitizeNick text)).getD (s.peer i).nick := by
  by_cases ha : ∃ env active, a = .applyInboundNick i env active
  · obtain ⟨env, active, rfl⟩ := ha
    simp only [hubAct] at h
    simp only [HubAct.acceptsNick, true_and]
    split at h
    · rename_i hnone
      cases h
      rw [if_neg fun hok => hnone.elim (by simp [hok.1]) hok.2.1]
      rfl
    rename_i hnick
    push Not at hnick
    split at h
    · rename_i hlong
      cases h
      simp only [Nat.not_le.mpr hlong, and_false, if_false, Option.map_none, Option.getD_none]
    rename_i hlen
    split at h <;> cases h
    rw [if_pos ⟨by simpa using hnick.1, hnick.2, Nat.not_lt.mp hlen⟩, HubState.set_peer_self]
    rfl
  · have hnone : a.acceptsNick text cfg i = none := by
      cases a with
      | applyInboundNick j env active => exact if_neg fun hok => ha ⟨env, active, by rw [hok.1]⟩
      | _ => rfl
    rw [hnone]
    exact ((hubAct_outcome h).peersAfter.nick i).resolve_right ha

theorem nick_step {e : Event HubChoice HubEvent} {nick : Option Bytes}
    (h : (c.shared.peer i).nick = storedFrom text nick) (hstep : hubStep text cfg c e = some c') :
    (c'.shared.peer i).nick = storedFrom text ((acceptedNick text cfg i c e).or nick) := by
  cases Program.steps_of_step hstep with
  | run hthread hact =>
    rw [acceptedNick, Config.next_eq hthread]
    refine (hubAct_nick hact).trans ?_
    rw [h]
    simp only [Option.bind_some, storedFrom]
    cases HubAct.acceptsNick text cfg i _ <;> rfl
  | env henv =>
    obtain ⟨status, heq⟩ := hubEnv_at henv i
    rw [heq]
    exact h

/-- The stored nickname comes from the last one accepted. -/
theorem nick_of_run {es : List (Event HubChoice HubEvent)} {nick : Option Bytes}
    (h : (c.shared.peer i).nick = storedFrom text nick)
    (hrun : Transition.run (hubStep text cfg) c es = some c') :
    (c'.shared.peer i).nick = storedFrom text (lastNick text cfg i c es nick) := by
  induction es generalizing c nick with
  | nil =>
    cases hrun
    exact h
  | cons e es ih =>
    obtain ⟨m, hm, hrun⟩ := Transition.run_cons.mp hrun
    simp only [lastNick, hm]
    exact ih (nick_step h hm) hrun

end Rrc
