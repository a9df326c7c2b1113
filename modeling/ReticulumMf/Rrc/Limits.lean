-- SUMMARY: The hub's limits on rooms, room names and nicknames hold in every state it reaches.
import ReticulumMf.Lib.Utf8
import ReticulumMf.Rrc.HubSteps

/-!
# Limits

Rooms are counted and their names measured in `onJoin`; a set of members is
deleted with its last key in the four places where keys are removed. A nickname is
sanitised and measured, and then sanitised again before it is stored: the second
pass only drops characters at its ends, because what the first one writes is read
back as it was. `hub_within_limits` puts this together for every run.
-/

namespace Rrc

open Threads Transition

/-! ## Strings -/

/-- The runes that some string consists of. -/
def GoText.IsRune (text : GoText) (r : Nat) : Prop := ∃ s, r ∈ text.runes s

/-- What `strings` and `unicode/utf8` promise about strings made of written runes:
they are read back, and trimming space leaves some of the runes in a row. -/
structure GoText.Lawful (text : GoText) : Prop where
  runes_write : ∀ rs, (∀ r ∈ rs, text.IsRune r) → text.runes (rs.flatMap text.writeRune) = rs
  trimSpace_write : ∀ rs, (∀ r ∈ rs, text.IsRune r) →
    ∃ kept, kept <:+: rs ∧ text.trimSpace (rs.flatMap text.writeRune) = kept.flatMap text.writeRune

/-- Go's functions on UTF-8 strings, for a given `strings.ToLower`. -/
def GoText.utf8 (toLower : Bytes → Bytes) : GoText where
  trimSpace := Utf8.trimSpace
  toLower := toLower
  runes s := (Utf8.split s).map (·.1.toNat)
  writeRune r := String.utf8EncodeChar (if r.isValidChar then Char.ofNat r else Utf8.replacement)
  isControl r := r < 0x20 || (0x7f ≤ r && r < 0xa0)

theorem GoText.utf8_writeRune (toLower : Bytes → Bytes) (c : Char) :
    (GoText.utf8 toLower).writeRune c.toNat = String.utf8EncodeChar c := by
  have hvalid : c.toNat.isValidChar := c.valid
  simp only [GoText.utf8, if_pos hvalid, Char.ofNat_toNat]

theorem GoText.utf8_write (toLower : Bytes → Bytes) (cs : List Char) :
    (cs.map Char.toNat).flatMap (GoText.utf8 toLower).writeRune = Utf8.encode cs := by
  simp only [List.flatMap_map, GoText.utf8_writeRune]
  rfl

theorem GoText.utf8_isRune {toLower : Bytes → Bytes} {rs : List Nat}
    (h : ∀ r ∈ rs, (GoText.utf8 toLower).IsRune r) : ∃ cs : List Char, rs = cs.map Char.toNat := by
  induction rs with
  | nil => exact ⟨[], rfl⟩
  | cons r rs ih =>
    obtain ⟨s, hs⟩ := h r List.mem_cons_self
    obtain ⟨⟨c, b⟩, -, rfl⟩ := List.mem_map.mp hs
    obtain ⟨cs, rfl⟩ := ih fun r hr => h r (List.mem_cons_of_mem _ hr)
    exact ⟨c :: cs, rfl⟩

theorem GoText.utf8_lawful (toLower : Bytes → Bytes) : (GoText.utf8 toLower).Lawful where
  runes_write rs h := by
    obtain ⟨cs, rfl⟩ := GoText.utf8_isRune h
    rw [GoText.utf8_write]
    simp only [GoText.utf8, Utf8.split_encode, List.map_map]
    rfl
  trimSpace_write rs h := by
    obtain ⟨cs, rfl⟩ := GoText.utf8_isRune h
    obtain ⟨kept, hkept, htrim⟩ := Utf8.trim_encode Utf8.isSpace cs
    refine ⟨kept.map Char.toNat, hkept.map _, ?_⟩
    rw [GoText.utf8_write, GoText.utf8_write]
    exact htrim

/-! ## Nicknames -/

section Nicknames

variable {text : GoText}

/-- The runes that `SanitizeNick` keeps. -/
def keepsRune (text : GoText) (r : Nat) : Bool :=
  !(r = 0 || r = 10 || r = 13) && !text.isControl r

theorem sanitizeNick_eq (nick : Bytes) (h : text.runes [] = []) :
    sanitizeNick text nick =
      ((text.runes (text.trimSpace nick)).filter (keepsRune text)).flatMap text.writeRune := by
  rw [sanitizeNick]
  split
  · rename_i hempty
    rw [hempty, h]
    rfl
  · rfl

theorem GoText.Lawful.runes_nil (htext : text.Lawful) : text.runes [] = [] :=
  htext.runes_write [] nofun

/-- A nickname without control characters, as `SanitizeNick` writes it. -/
def CleanNick (text : GoText) (nick : Bytes) : Prop :=
  ∃ rs : List Nat, (∀ r ∈ rs, text.IsRune r ∧ keepsRune text r) ∧ nick = rs.flatMap text.writeRune

theorem sanitizeNick_clean (htext : text.Lawful) (nick : Bytes) :
    CleanNick text (sanitizeNick text nick) := by
  rw [sanitizeNick_eq nick htext.runes_nil]
  refine ⟨_, fun r hr => ?_, rfl⟩
  obtain ⟨hmem, hkeep⟩ := List.mem_filter.mp hr
  exact ⟨⟨_, hmem⟩, hkeep⟩

theorem CleanNick.no_control (htext : text.Lawful) {nick : Bytes} (h : CleanNick text nick) :
    ∀ r ∈ text.runes nick, text.isControl r = false := by
  obtain ⟨rs, hrs, rfl⟩ := h
  rw [htext.runes_write rs fun r hr => (hrs r hr).1]
  intro r hr
  have hkeep := (hrs r hr).2
  simp only [keepsRune, Bool.and_eq_true, Bool.not_eq_true'] at hkeep
  exact hkeep.2

/-- A second pass does not lengthen a nickname. -/
theorem CleanNick.sanitizeNick_length (htext : text.Lawful) {nick : Bytes}
    (h : CleanNick text nick) : (sanitizeNick text nick).length ≤ nick.length := by
  obtain ⟨rs, hrs, rfl⟩ := h
  obtain ⟨kept, hkept, htrim⟩ := htext.trimSpace_write rs fun r hr => (hrs r hr).1
  have hsub : ∀ r ∈ kept, text.IsRune r ∧ keepsRune text r := fun r hr =>
    hrs r (hkept.subset hr)
  have hall : kept.filter (keepsRune text) = kept :=
    List.filter_eq_self.mpr fun r hr => (hsub r hr).2
  rw [sanitizeNick_eq _ htext.runes_nil, htrim, htext.runes_write kept fun r hr => (hsub r hr).1,
    hall]
  exact (hkept.flatMap text.writeRune).length_le

end Nicknames

/-! ## The limits -/

variable {text : GoText} {cfg : HubConfig} {t : Nat} {x : HubChoice} {s s' : HubState} {a : HubAct}
  {r : Effect HubState HubAct} {i j : Nat} {c c' : HubConf} {rest : List HubAct} {room : Bytes}

/-- A room name that `onJoin` lets through. -/
structure RoomName (text : GoText) (limits : HubLimits) (room : Bytes) : Prop where
  normal : ∃ name, room = normalizeRoom text name
  nonempty : room ≠ []
  length : room.length ≤ limits.maxRoomNameBytes

/-- The rooms that a session may be in. -/
structure RoomSet (text : GoText) (limits : HubLimits) (rooms : GoSet Bytes) : Prop where
  count : rooms.keys.length ≤ limits.maxRoomsPerSession
  names : ∀ room ∈ rooms, RoomName text limits room

/-- A nickname that a session may store. -/
structure StoredNick (text : GoText) (limits : HubLimits) (nick : Bytes) : Prop where
  length : nick.length ≤ limits.maxNickBytes
  runes : ∀ r ∈ text.runes nick, text.isControl r = false

structure HubState.WithinLimits (text : GoText) (limits : HubLimits) (s : HubState) : Prop where
  peerRooms : ∀ i, RoomSet text limits (s.peer i).rooms
  nick : ∀ i, StoredNick text limits (s.peer i).nick
  rooms : ∀ room ∈ s.rooms, RoomName text limits room
  members : ∀ {room members}, s.rooms.lookup room = some members → members.keys ≠ []

/-! ## Rooms of the hub -/

/-- Every room is one of `rooms`, and none is empty. -/
structure RoomsWithin (rooms rooms' : GoMap Bytes (GoSet Bytes)) : Prop where
  mem : ∀ room ∈ rooms', room ∈ rooms
  nonempty : ∀ {room members}, rooms'.lookup room = some members → members.keys ≠ []

theorem removeMember_within {rooms : GoMap Bytes (GoSet Bytes)} (key room : Bytes)
    (h : ∀ {room members}, rooms.lookup room = some members → members.keys ≠ []) :
    RoomsWithin rooms (removeMember key rooms room) := by
  unfold removeMember
  cases hroom : rooms.lookup room with
  | none => exact ⟨fun _ hmem => hmem, h⟩
  | some members =>
    have hin : room ∈ rooms := AList.lookup_isSome.mp (by rw [hroom]; rfl)
    dsimp only
    split
    · refine ⟨fun room' hmem => ((AList.mem_erase).mp hmem).2, fun {room' members'} hlookup => ?_⟩
      by_cases heq : room' = room
      · subst heq
        rw [AList.lookup_erase] at hlookup
        cases hlookup
      · rw [AList.lookup_erase_ne heq] at hlookup
        exact h hlookup
    · rename_i hlen
      refine ⟨fun room' hmem => ?_, fun {room' members'} hlookup => ?_⟩
      · obtain rfl | hmem := (AList.mem_insert _).mp hmem
        · exact hin
        · exact hmem
      · by_cases heq : room' = room
        · subst heq
          rw [AList.lookup_insert, Option.some.injEq] at hlookup
          subst hlookup
          exact fun hnil => hlen (by rw [hnil]; rfl)
        · rw [AList.lookup_insert_ne heq] at hlookup
          exact h hlookup

theorem removeFromRooms_within {rooms : GoMap Bytes (GoSet Bytes)} (key : Bytes)
    (left : GoSet Bytes)
    (h : ∀ {room members}, rooms.lookup room = some members → members.keys ≠ []) :
    RoomsWithin rooms (removeFromRooms key rooms left) := by
  rw [removeFromRooms]
  generalize left.keys = rs
  induction rs generalizing rooms with
  | nil => exact ⟨fun _ hmem => hmem, h⟩
  | cons r rs ih =>
    have hfirst := removeMember_within key r h
    have hrest := ih hfirst.nonempty
    exact ⟨fun room hmem => hfirst.mem room (hrest.mem room hmem), hrest.nonempty⟩

/-! ## Steps -/

theorem storedNick_sanitized (htext : text.Lawful) {nick : Bytes}
    (hlen : (sanitizeNick text nick).length ≤ cfg.limits.maxNickBytes) :
    StoredNick text cfg.limits (sanitizeNick text (sanitizeNick text nick)) := by
  have hclean := sanitizeNick_clean htext nick
  refine ⟨(hclean.sanitizeNick_length htext).trans hlen, ?_⟩
  exact (sanitizeNick_clean htext _).no_control htext

theorem HubAct.PeersAfter.nick (h : a.PeersAfter s s') (j : Nat) :
    (s'.peer j).nick = (s.peer j).nick ∨ ∃ env active, a = .applyInboundNick j env active := by
  obtain ⟨p, hp, rfl | hu⟩ := h.at j
  · exact .inl (by rw [hp])
  · rw [hp]
    cases hu <;> first | exact .inl rfl | exact .inr ⟨_, _, rfl⟩

theorem nick_act (htext : text.Lawful) (hact : hubAct text cfg x s a = some r)
    (h : StoredNick text cfg.limits (s.peer j).nick) :
    StoredNick text cfg.limits (r.shared.peer j).nick := by
  obtain heq | ⟨env, active, rfl⟩ := (hubAct_outcome hact).peersAfter.nick j
  · rw [heq]
    exact h
  · simp only [hubAct] at hact
    split at hact
    · cases hact
      exact h
    split at hact
    · cases hact
      exact h
    rename_i hlen
    split at hact <;> cases hact
    rw [HubState.set_peer_self]
    exact storedNick_sanitized htext (not_lt.mp hlen)

/-- What `onJoin` adds is a room name. -/
theorem onJoin_rooms {env : Envelope} (hact : hubAct text cfg x s (.onJoin i env) = some r) :
    r.shared = s ∨ ∃ room, RoomName text cfg.limits room ∧ room ∉ (s.peer i).rooms ∧
      (s.peer i).rooms.keys.length < cfg.limits.maxRoomsPerSession ∧
      r.shared = s.enterRoom i room := by
  simp only [hubAct] at hact
  split at hact
  · cases hact
    exact .inl rfl
  rename_i hne
  split at hact
  · cases hact
    exact .inl rfl
  rename_i hlen
  split at hact <;> cases hact
  · exact .inl rfl
  · obtain ⟨-, heq⟩ | ⟨hroom, hcount, heq⟩ := joinLocked_some ‹_›
    · exact .inl heq
    · exact .inr ⟨_, ⟨⟨env.room, rfl⟩, hne, not_lt.mp hlen⟩, hroom, hcount, heq⟩

theorem RoomSet.insert {rooms : GoSet Bytes} (h : RoomSet text cfg.limits rooms)
    (hname : RoomName text cfg.limits room) (hroom : room ∉ rooms)
    (hcount : rooms.keys.length < cfg.limits.maxRoomsPerSession) :
    RoomSet text cfg.limits (rooms.insert room ()) := by
  constructor
  · rw [AList.insert_of_notMem hroom]
    exact hcount
  · intro room' hmem
    obtain rfl | hmem := (AList.mem_insert _).mp hmem
    · exact hname
    · exact h.names room' hmem

theorem RoomSet.erase {rooms : GoSet Bytes} (h : RoomSet text cfg.limits rooms) (room : Bytes) :
    RoomSet text cfg.limits (rooms.erase room) := by
  constructor
  · have hsub := (List.kerase_sublist room rooms.entries).map Sigma.fst
    exact hsub.length_le.trans h.count
  · exact fun room' hmem => h.names room' (AList.mem_erase.mp hmem).2

/-- The part of the limits that is about rooms. -/
structure HubState.RoomLimits (text : GoText) (limits : HubLimits) (s : HubState) : Prop where
  peerRooms : ∀ i, RoomSet text limits (s.peer i).rooms
  rooms : ∀ room ∈ s.rooms, RoomName text limits room
  members : ∀ {room members}, s.rooms.lookup room = some members → members.keys ≠ []

namespace HubState.RoomLimits

theorem congr (h : s.RoomLimits text cfg.limits) (hsame : s.SameMembership s') :
    s'.RoomLimits text cfg.limits := by
  constructor
  · intro i
    rw [hsame.peerRooms]
    exact h.peerRooms i
  · rw [hsame.rooms]
    exact h.rooms
  · rw [hsame.rooms]
    exact h.members

/-- Keys are taken out of rooms, and the rooms of peers stay as they are or shrink. -/
theorem shrink (h : s.RoomLimits text cfg.limits) (hrooms : RoomsWithin s.rooms s'.rooms)
    (hpeer : ∀ i, (s'.peer i).rooms = (s.peer i).rooms ∨
      ∃ room, (s'.peer i).rooms = (s.peer i).rooms.erase room) :
    s'.RoomLimits text cfg.limits := by
  constructor
  · intro i
    obtain heq | ⟨room, heq⟩ := hpeer i
    · rw [heq]
      exact h.peerRooms i
    · rw [heq]
      exact (h.peerRooms i).erase room
  · exact fun room hmem => h.rooms room (hrooms.mem room hmem)
  · exact hrooms.nonempty

theorem registerLocked (h : s.RoomLimits text cfg.limits) :
    (s.registerLocked i).1.RoomLimits text cfg.limits := by
  apply h.shrink
  · simp only [HubState.registerLocked]
    split
    · exact removeFromRooms_within _ _ h.members
    · exact ⟨fun _ hmem => hmem, h.members⟩
  · intro j
    simp only [HubState.registerLocked, HubState.set_peer]
    split
    · rename_i heq
      exact .inl (by rw [heq])
    · exact .inl rfl

theorem removePeer (h : s.RoomLimits text cfg.limits) :
    (s.removePeer i).RoomLimits text cfg.limits :=
  h.shrink (removeFromRooms_within _ _ h.members) fun _ => .inl rfl

theorem leaveRoom (h : s.RoomLimits text cfg.limits) :
    (s.leaveRoom i room).RoomLimits text cfg.limits := by
  apply h.shrink (removeMember_within _ _ h.members)
  intro j
  simp only [HubState.leaveRoom, HubState.set_peer]
  split
  · rename_i heq
    exact .inr ⟨room, by rw [heq]⟩
  · exact .inl rfl

theorem enterRoom (h : s.RoomLimits text cfg.limits) (hname : RoomName text cfg.limits room)
    (hroom : room ∉ (s.peer i).rooms)
    (hcount : (s.peer i).rooms.keys.length < cfg.limits.maxRoomsPerSession) :
    (s.enterRoom i room).RoomLimits text cfg.limits := by
  constructor
  · intro j
    simp only [HubState.enterRoom, HubState.set_peer]
    split
    · exact (h.peerRooms i).insert hname hroom hcount
    · exact h.peerRooms j
  · intro room' hmem
    obtain rfl | hmem := (AList.mem_insert _).mp hmem
    · exact hname
    · exact h.rooms room' hmem
  · intro room' members hlookup
    simp only [HubState.enterRoom] at hlookup
    by_cases heq : room' = room
    · subst heq
      rw [AList.lookup_insert, Option.some.injEq] at hlookup
      subst hlookup
      rw [AList.keys_insert]
      exact List.cons_ne_nil _ _
    · rw [AList.lookup_insert_ne heq] at hlookup
      exact h.members hlookup

theorem act (h : s.RoomLimits text cfg.limits) (hact : hubAct text cfg x s a = some r) :
    r.shared.RoomLimits text cfg.limits := by
  obtain hsame | hcommit := (hubAct_outcome hact).membership
  · exact h.congr hsame
  generalize hs' : r.shared = s' at hcommit
  cases hcommit with
  | registerLocked => exact h.registerLocked
  | dropPeerIf hdrop =>
    obtain ⟨-, rfl⟩ := dropPeerIf_some hdrop
    exact h.removePeer
  | onJoin =>
    rw [← hs']
    obtain heq | ⟨room, hname, hroom, hcount, heq⟩ := onJoin_rooms hact
    · rw [heq]
      exact h
    · rw [heq]
      exact h.enterRoom hname hroom hcount
  | onPart hpart =>
    obtain ⟨-, rfl⟩ := partLocked_some hpart
    exact h.leaveRoom
  | hubClose => exact ⟨h.peerRooms, by simp, by simp⟩

end HubState.RoomLimits

/-! ## Runs -/

theorem HubState.WithinLimits.step (htext : text.Lawful) {e : Event HubChoice HubEvent}
    (h : c.shared.WithinLimits text cfg.limits) (hstep : hubStep text cfg c e = some c') :
    c'.shared.WithinLimits text cfg.limits := by
  have hrooms : c.shared.RoomLimits text cfg.limits := ⟨h.peerRooms, h.rooms, h.members⟩
  cases Program.steps_of_step hstep with
  | run hthread hact =>
    have hrooms' := hrooms.act hact
    exact ⟨hrooms'.peerRooms, fun i => nick_act htext hact (h.nick i), hrooms'.rooms,
      hrooms'.members⟩
  | env henv =>
    have hrooms' := hrooms.congr (hubEnv_membership henv)
    refine ⟨hrooms'.peerRooms, fun i => ?_, hrooms'.rooms, hrooms'.members⟩
    obtain ⟨status, heq⟩ := hubEnv_at henv i
    rw [heq]
    exact h.nick i

theorem hubInit_withinLimits (htext : text.Lawful) :
    hubInit.shared.WithinLimits text cfg.limits where
  peerRooms _ := ⟨Nat.zero_le _, fun _ hmem => absurd hmem (AList.notMem_empty _)⟩
  nick _ := ⟨Nat.zero_le _, fun r hr => by
    have hnil : r ∈ text.runes [] := hr
    rw [htext.runes_nil] at hnil
    cases hnil⟩
  rooms _ hmem := absurd hmem (AList.notMem_empty _)
  members hlookup := by cases hlookup

/-- In every state the hub reaches, no session is in too many rooms, every room
name and every stored nickname is within its limits, and no set of members is empty. -/
theorem hub_within_limits (text : GoText) (htext : text.Lawful) (cfg : HubConfig)
    (es : List (Event HubChoice HubEvent)) :
    AllStates (hubStep text cfg) (fun c => c.shared.WithinLimits text cfg.limits) hubInit es := by
  have hstep : ∀ {c : HubConf} {e : Event HubChoice HubEvent} {c' : HubConf},
      c.shared.WithinLimits text cfg.limits → hubStep text cfg c e = some c' → True →
      c'.shared.WithinLimits text cfg.limits := fun h hstep _ => h.step htext hstep
  exact allStates_of_good hstep (hubInit_withinLimits htext) (AllSteps.trivial hubInit es)

/-- A session joins a room with a nickname that holds a control character and,
behind it, a space. -/
def nickedJoin : List (Event HubChoice HubEvent) :=
  sampleActive ++
  [.env (.packet 0 (some { sampleJoin with nick := [1, 32, 98, 111, 98], hasNick := true }))] ++
  turns 4 1 ++ turns 5 7

/-- The nickname is stored without both, and the limits hold. -/
theorem nicked_join_within_limits :
    ∃ c, run (hubStep (.utf8 id) sampleHub) hubInit nickedJoin = some c ∧
      (c.shared.peer 0).nick = [98, 111, 98] ∧
      c.shared.WithinLimits (.utf8 id) sampleHub.limits := by
  have hend : (run (hubStep (.utf8 id) sampleHub) hubInit nickedJoin).map
      (fun c => (c.shared.peer 0).nick) = some [98, 111, 98] := by
    decide +kernel
  obtain ⟨c, hrun, hnick⟩ := Option.map_eq_some_iff.mp hend
  have hall := hub_within_limits (.utf8 id) (GoText.utf8_lawful id) sampleHub nickedJoin
  exact ⟨c, hrun, hnick, hall.last hrun⟩

end Rrc
