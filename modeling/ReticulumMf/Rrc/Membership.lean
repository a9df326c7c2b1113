-- SUMMARY: When the hub's room sets and the rooms of its peers agree.
import ReticulumMf.Rrc.Registration

/-!
# Membership

Who is in a room is stored twice: `h.rooms[room]` is a set of identity keys, and
each peer has the set of its rooms. The two agree as long as every critical
section that adds or removes a room is entered by the current session of its
identity. A handler that has passed its active check may come too late for that.
-/

namespace Rrc

open Threads Transition

variable {text : GoText} {cfg : HubConfig} {t : Nat} {x : HubChoice} {s s' : HubState} {a : HubAct}
  {r : Effect HubState HubAct} {i j : Nat} {c c' : HubConf} {rest : List HubAct}
  {room room' key key' : Bytes}

/-- A key is in a room exactly if the peer under that key is. -/
def HubState.Consistent (s : HubState) : Prop :=
  ∀ room key, key ∈ s.members room ↔
    ∃ i, s.peers.lookup key = some i ∧ room ∈ (s.peer i).rooms

/-! ## Removal -/

theorem mem_removeMember {rooms : GoMap Bytes (GoSet Bytes)} :
    key' ∈ ((removeMember key rooms room).lookup room').getD ∅ ↔
      key' ∈ (rooms.lookup room').getD ∅ ∧ ¬(key' = key ∧ room' = room) := by
  unfold removeMember
  cases hroom : rooms.lookup room with
  | none =>
    by_cases h : room' = room
    · subst h
      simp [hroom]
    · simp [h]
  | some members =>
    by_cases h : room' = room
    · subst h
      dsimp only
      split
      · rename_i hempty
        have hnone : key' ∉ members.erase key := by
          rw [AList.mem_keys, List.length_eq_zero_iff.mp hempty]
          exact List.not_mem_nil
        rw [AList.mem_erase] at hnone
        simp only [AList.lookup_erase, hroom, Option.getD_none, Option.getD_some, and_true]
        exact iff_of_false (by simp) fun hk => hnone ⟨hk.2, hk.1⟩
      · simp only [AList.lookup_insert, hroom, Option.getD_some, AList.mem_erase, and_true]
        exact and_comm
    · dsimp only
      split
      · simp [AList.lookup_erase_ne h, h]
      · simp [AList.lookup_insert_ne h, h]

theorem mem_removeFromRooms {rooms : GoMap Bytes (GoSet Bytes)} {left : GoSet Bytes} :
    key' ∈ ((removeFromRooms key rooms left).lookup room').getD ∅ ↔
      key' ∈ (rooms.lookup room').getD ∅ ∧ ¬(key' = key ∧ room' ∈ left) := by
  rw [AList.mem_keys (s := left), removeFromRooms]
  generalize left.keys = rs
  induction rs generalizing rooms with
  | nil => simp
  | cons r rs ih =>
    rw [List.foldl_cons, ih, mem_removeMember, List.mem_cons]
    tauto

/-! ## Critical sections -/

/-- The session `i` is the current one of its identity. -/
def HubState.Current (s : HubState) (i : Nat) : Prop :=
  s.peers.lookup (s.peer i).peerHash = some i

/-- The current session of the identity of `i`, if there is one, is in the room. -/
def HubState.CurrentIn (s : HubState) (i : Nat) (room : Bytes) : Prop :=
  ∃ j, s.peers.lookup (s.peer i).peerHash = some j ∧ room ∈ (s.peer j).rooms

/-- A JOIN that adds a room and a PART that removes one are handled by the current
session, or make no difference to it. A session registers before it is in a room. -/
def HubAct.KeepsMembership (text : GoText) (cfg : HubConfig) (s : HubState) : HubAct → Prop
  | .onJoin i env =>
    let room := normalizeRoom text env.room
    room = [] ∨ room.length > cfg.limits.maxRoomNameBytes ∨ room ∈ (s.peer i).rooms ∨
      (s.peer i).rooms.keys.length ≥ cfg.limits.maxRoomsPerSession ∨
      s.Current i ∨ s.CurrentIn i room
  | .onPart i env =>
    let room := normalizeRoom text env.room
    room = [] ∨ room ∉ (s.peer i).rooms ∨ s.Current i ∨ ¬s.CurrentIn i room
  | .registerLocked i => (s.peer i).rooms.keys = []
  | _ => True

instance instDecidableCurrent : Decidable (s.Current i) :=
  inferInstanceAs (Decidable (s.peers.lookup (s.peer i).peerHash = some i))

instance instDecidableCurrentIn : Decidable (s.CurrentIn i room) :=
  inferInstanceAs (Decidable (∃ j ∈ s.peers.lookup (s.peer i).peerHash, room ∈ (s.peer j).rooms))

instance instDecidableKeepsMembership : Decidable (a.KeepsMembership text cfg s) :=
  match a with
  | .onJoin _ _ | .onPart _ _ => inferInstanceAs (Decidable (_ ∨ _))
  | .registerLocked _ => inferInstanceAs (Decidable (_ = _))
  | .setPacketCallback _ | .takePending _ | .assignSess _ | .setIdentifiedCallback _
  | .acceptReadRemote _ | .deliver _ _ | .queuePlain _ _ | .checkRemote _ _ | .setRemote _ _
  | .fireIdentified _ _ | .handleInbound _ _ | .onMsg _ _ | .readRemote _ _ | .bufferHello _ _
  | .recheck _ _ | .register _ _ | .setHash _ _ | .onceDone _ | .handlePeer _ _
  | .applyInboundNick _ _ _ | .onHello _ _ | .onRoomContent _ _ | .relay _ _ _ | .reply _ _
  | .forward _ _ | .call _ _ | .close _ | .teardown _ | .dropPeerIf _ | .hubClose =>
    .isTrue trivial

/-- Every peer is listed under its own hash. -/
def HubState.Keyed (s : HubState) : Prop :=
  ∀ key i, s.peers.lookup key = some i → (s.peer i).peerHash = key

theorem HubState.SameMembership.consistent_iff (h : s.SameMembership s') :
    s'.Consistent ↔ s.Consistent := by
  simp only [HubState.Consistent, HubState.members, h.peers, h.rooms, h.peerRooms]

-- Entering and leaving a room changes the membership of one key in one room.

@[simp]
theorem enterRoom_peers : (s.enterRoom i room).peers = s.peers := rfl

theorem mem_members_enterRoom :
    key ∈ (s.enterRoom i room).members room' ↔
      key ∈ s.members room' ∨ room' = room ∧ key = (s.peer i).peerHash := by
  simp only [HubState.enterRoom, HubState.members]
  by_cases h : room' = room
  · subst h
    simp [or_comm]
  · simp [AList.lookup_insert_ne h, h]

theorem mem_rooms_enterRoom :
    room' ∈ ((s.enterRoom i room).peer j).rooms ↔
      room' ∈ (s.peer j).rooms ∨ j = i ∧ room' = room := by
  simp only [HubState.enterRoom, HubState.set_peer]
  by_cases h : j = i
  · subst h
    simp [or_comm]
  · simp [h]

@[simp]
theorem leaveRoom_peers : (s.leaveRoom i room).peers = s.peers := rfl

theorem mem_members_leaveRoom :
    key ∈ (s.leaveRoom i room).members room' ↔
      key ∈ s.members room' ∧ ¬(key = (s.peer i).peerHash ∧ room' = room) :=
  mem_removeMember

theorem mem_rooms_leaveRoom :
    room' ∈ ((s.leaveRoom i room).peer j).rooms ↔
      room' ∈ (s.peer j).rooms ∧ ¬(j = i ∧ room' = room) := by
  simp only [HubState.leaveRoom, HubState.set_peer]
  by_cases h : j = i
  · subst h
    simp [AList.mem_erase, and_comm]
  · simp [h]

theorem consistent_enterRoom (hkeyed : s.Keyed) (hs : s.Consistent) :
    (s.enterRoom i room).Consistent ↔ s.Current i ∨ s.CurrentIn i room := by
  simp only [HubState.Consistent, mem_members_enterRoom, mem_rooms_enterRoom, enterRoom_peers]
  constructor
  · intro h
    obtain ⟨j, hj, hroom | ⟨rfl, -⟩⟩ := (h room (s.peer i).peerHash).mp (.inr ⟨rfl, rfl⟩)
    · exact .inr ⟨j, hj, hroom⟩
    · exact .inl hj
  · intro h r k
    rw [hs r k]
    constructor
    · rintro (⟨j, hj, hr⟩ | ⟨rfl, rfl⟩)
      · exact ⟨j, hj, .inl hr⟩
      · obtain hcur | ⟨j, hj, hr⟩ := h
        · exact ⟨i, hcur, .inr ⟨rfl, rfl⟩⟩
        · exact ⟨j, hj, .inl hr⟩
    · rintro ⟨j, hj, hr | ⟨rfl, rfl⟩⟩
      · exact .inl ⟨j, hj, hr⟩
      · exact .inr ⟨rfl, (hkeyed k j hj).symm⟩

theorem consistent_leaveRoom (hkeyed : s.Keyed) (hs : s.Consistent) :
    (s.leaveRoom i room).Consistent ↔ s.Current i ∨ ¬s.CurrentIn i room := by
  simp only [HubState.Consistent, mem_members_leaveRoom, mem_rooms_leaveRoom, leaveRoom_peers]
  constructor
  · intro h
    by_cases hcur : s.Current i
    · exact .inl hcur
    · refine .inr fun ⟨j, hj, hroom⟩ => ?_
      have hkept := (h room (s.peer i).peerHash).mpr
        ⟨j, hj, hroom, fun hji => hcur (by rw [HubState.Current, hj, hji.1])⟩
      exact hkept.2 ⟨rfl, rfl⟩
  · intro h r k
    rw [hs r k]
    constructor
    · rintro ⟨⟨j, hj, hr⟩, hne⟩
      exact ⟨j, hj, hr, fun ⟨hji, hrr⟩ => hne ⟨by rw [← hji, hkeyed k j hj], hrr⟩⟩
    · rintro ⟨j, hj, hr, hne⟩
      refine ⟨⟨j, hj, hr⟩, ?_⟩
      rintro ⟨rfl, rfl⟩
      obtain hcur | hcur := h
      · exact hne ⟨Option.some.inj (hj.symm.trans hcur), rfl⟩
      · exact hcur ⟨j, hj, hr⟩

/-- The current session leaves with all its rooms. -/
theorem consistent_removePeer (hs : s.Consistent) (hcur : s.Current i) :
    (s.removePeer i).Consistent := by
  intro r k
  have hmembers : k ∈ (s.removePeer i).members r ↔
      k ∈ s.members r ∧ ¬(k = (s.peer i).peerHash ∧ r ∈ (s.peer i).rooms) := mem_removeFromRooms
  rw [hmembers, hs r k]
  by_cases hk : k = (s.peer i).peerHash
  · subst hk
    have hi : s.peers.lookup (s.peer i).peerHash = some i := hcur
    simp [HubState.removePeer, hi]
  · simp [HubState.removePeer, AList.lookup_erase_ne hk, hk]

@[simp]
theorem registerLocked_rooms : ((s.registerLocked i).1.peer j).rooms = (s.peer j).rooms := by
  simp only [HubState.registerLocked, HubState.set_peer]
  split
  · rw [‹j = i›]
  · rfl

/-- Registering clears the key from the rooms of the session it displaces. -/
theorem mem_members_registerLocked (hs : s.Consistent) (hlisted : ¬s.Listed i) :
    key ∈ (s.registerLocked i).1.members room ↔
      key ∈ s.members room ∧ key ≠ (s.peer i).peerHash := by
  have hold := hs room key
  simp only [HubState.members] at hold
  cases hlookup : s.peers.lookup (s.peer i).peerHash with
  | none =>
    simp only [HubState.registerLocked, HubState.members, hlookup, Option.filter_none]
    refine ⟨fun hk => ⟨hk, ?_⟩, And.left⟩
    rintro rfl
    obtain ⟨j, hj, -⟩ := hold.mp hk
    cases hlookup.symm.trans hj
  | some j =>
    have hne : j ≠ i := fun hji => hlisted ⟨_, hji ▸ hlookup⟩
    simp only [HubState.registerLocked, HubState.members, hlookup, Option.filter_some, ne_eq, hne,
      not_false_eq_true, decide_true, if_true, mem_removeFromRooms]
    refine and_congr_right fun hk => not_congr ⟨And.left, ?_⟩
    rintro rfl
    obtain ⟨j', hj', hroom⟩ := hold.mp hk
    cases hlookup.symm.trans hj'
    exact ⟨rfl, hroom⟩

theorem consistent_registerLocked (hs : s.Consistent) (hlisted : ¬s.Listed i) :
    (s.registerLocked i).1.Consistent ↔ (s.peer i).rooms.keys = [] := by
  have hlookup : ∀ k, (s.registerLocked i).1.peers.lookup k =
      if k = (s.peer i).peerHash then some i else s.peers.lookup k := by
    intro k
    simp only [HubState.registerLocked]
    split
    · subst k
      exact AList.lookup_insert _
    · exact AList.lookup_insert_ne ‹_›
  simp only [HubState.Consistent, mem_members_registerLocked hs hlisted, registerLocked_rooms,
    hlookup]
  constructor
  · intro h
    refine List.eq_nil_iff_forall_not_mem.mpr fun r hr => ?_
    have hmem := (h r (s.peer i).peerHash).mpr ⟨i, if_pos rfl, AList.mem_keys.mpr hr⟩
    exact hmem.2 rfl
  · intro h r k
    split
    · refine iff_of_false (fun hk => hk.2 ‹_›) ?_
      rintro ⟨j, hj, hr⟩
      obtain rfl := Option.some.inj hj
      rw [AList.mem_keys, h] at hr
      cases hr
    · rename_i hk
      rw [hs r k, and_iff_left hk]

/-! ## Runs -/

theorem Registration.keyed (h : Registration c) : c.shared.Keyed := fun _ _ => h.keys

theorem consistent_act (hreg : Registration c) (hthread : c.threads[t]? = some (a :: rest))
    (hact : hubAct text cfg x c.shared a = some r) (hs : c.shared.Consistent) :
    r.shared.Consistent ↔ a.KeepsMembership text cfg c.shared := by
  cases a with
  | registerLocked i =>
    cases hact
    have hpos := (hreg.at_registerLocked hthread).2.2
    exact consistent_registerLocked hs (hreg.unlisted (by omega))
  | onJoin i env =>
    simp only [hubAct] at hact
    split at hact
    · cases hact
      exact iff_of_true hs (.inl ‹_›)
    · split at hact
      · cases hact
        exact iff_of_true hs (.inr (.inl ‹_›))
      · rename_i hne hlong
        simp only [HubAct.KeepsMembership, hne, hlong, false_or]
        split at hact
        · rename_i hjoin
          cases hact
          simp only [HubState.joinLocked] at hjoin
          split at hjoin
          · cases hjoin
          · split at hjoin
            · exact iff_of_true hs (.inr (.inl ‹_›))
            · cases hjoin
        · rename_i hjoin
          cases hact
          obtain ⟨hroom, rfl⟩ | ⟨hroom, hlimit, rfl⟩ := joinLocked_some hjoin
          · exact iff_of_true hs (.inl hroom)
          · simp only [hroom, not_le.mpr hlimit, false_or]
            exact consistent_enterRoom hreg.keyed hs
  | onPart i env =>
    simp only [hubAct] at hact
    split at hact
    · cases hact
      exact iff_of_true hs (.inl ‹_›)
    · rename_i hne
      simp only [HubAct.KeepsMembership, hne, false_or]
      split at hact
      · rename_i hpart
        cases hact
        simp only [HubState.partLocked] at hpart
        split at hpart
        · cases hpart
        · exact iff_of_true hs (.inl ‹_›)
      · rename_i hpart
        cases hact
        obtain ⟨hroom, rfl⟩ := partLocked_some hpart
        simp only [hroom, not_true_eq_false, false_or]
        exact consistent_leaveRoom hreg.keyed hs
  | dropPeerIf i =>
    refine iff_of_true ?_ trivial
    simp only [hubAct] at hact
    split at hact <;> cases hact
    · exact hs
    · obtain ⟨hcur, rfl⟩ := dropPeerIf_some ‹_›
      exact consistent_removePeer hs hcur
  | hubClose =>
    refine iff_of_true ?_ trivial
    simp only [hubAct] at hact
    split at hact <;> cases hact
    simp [HubState.Consistent, HubState.members]
  | _ =>
    refine iff_of_true ?_ trivial
    obtain hsame | hcommit := (hubAct_outcome hact).membership
    · exact hsame.consistent_iff.mpr hs
    · cases hcommit

/-- The step is not a critical section that a stale session enters. -/
def GoodMembership (text : GoText) (cfg : HubConfig) (c : HubConf) :
    Event HubChoice HubEvent → Prop
  | .run t _ => ∀ a ∈ c.next t, a.KeepsMembership text cfg c.shared
  | .env _ => True

instance instDecidableGoodMembership {e : Event HubChoice HubEvent} :
    Decidable (GoodMembership text cfg c e) :=
  match e with
  | .run t _ => inferInstanceAs (Decidable (∀ a ∈ c.next t, a.KeepsMembership text cfg c.shared))
  | .env _ => .isTrue trivial

theorem consistent_step {e : Event HubChoice HubEvent} (hreg : Registration c)
    (hs : c.shared.Consistent) (hstep : hubStep text cfg c e = some c') :
    c'.shared.Consistent ↔ GoodMembership text cfg c e := by
  cases Program.steps_of_step hstep with
  | run hthread hact =>
    rw [consistent_act hreg hthread hact hs]
    simp [GoodMembership, Config.next_eq hthread]
  | env henv => exact iff_of_true ((hubEnv_membership henv).consistent_iff.mpr hs) trivial

theorem hubInit_consistent : hubInit.shared.Consistent := by
  simp [HubState.Consistent, HubState.members, hubInit]

/-- The two records of who is in a room agree along exactly the runs in which no
session that is not the current one of its identity changes them. -/
theorem membership_consistent_iff (text : GoText) (cfg : HubConfig)
    (es : List (Event HubChoice HubEvent)) :
    AllStates (hubStep text cfg) (fun c => c.shared.Consistent) hubInit es ↔
      AllSteps (hubStep text cfg) (GoodMembership text cfg) hubInit es := by
  have hbase : ∀ {c : HubConf} {e : Event HubChoice HubEvent} {c' : HubConf}, Registration c →
      c.shared.Consistent → hubStep text cfg c e = some c' → GoodMembership text cfg c e →
      Registration c' := fun hreg _ hstep _ => hreg.step hstep
  exact allStates_iff_allSteps hbase consistent_step hubInit_registration hubInit_consistent

/-- A session says HELLO and sends a JOIN. Its handler has passed the active check
when a second session of the same identity registers; only then it joins. -/
def staleJoin : List (Event HubChoice HubEvent) :=
  sampleActive ++
  [.env (.packet 0 (some sampleJoin))] ++ turns 4 1 ++ turns 5 4 ++
  [.env .established, .env (.identify 1 sampleIdentity)] ++ turns 7 2 ++ turns 6 8 ++
  turns 5 1

/-- The key is then in a room that its current session is not in. -/
theorem stale_join_inconsistent :
    ¬AllStates (hubStep .ascii sampleHub) (fun c => c.shared.Consistent) hubInit staleJoin := by
  intro h
  have hend : (run (hubStep .ascii sampleHub) hubInit staleJoin).map (fun c =>
      (c.shared.peers.lookup sampleIdentity, (c.shared.members sampleRoom).keys,
        (c.shared.peer 1).rooms.keys)) = some (some 1, [sampleIdentity], []) := by
    decide +kernel
  obtain ⟨c, hrun, heq⟩ := Option.map_eq_some_iff.mp hend
  simp only [Prod.mk.injEq] at heq
  obtain ⟨hlookup, hmembers, hrooms⟩ := heq
  have hmem : sampleIdentity ∈ c.shared.members sampleRoom := by simp [AList.mem_keys, hmembers]
  obtain ⟨i, hi, hroom⟩ := (h.last hrun sampleRoom sampleIdentity).mp hmem
  obtain rfl := Option.some.inj (hlookup.symm.trans hi)
  simp [AList.mem_keys, hrooms] at hroom

end Rrc
