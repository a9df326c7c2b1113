-- SUMMARY: Whether what the hub forwards, and what it answers to a JOIN, fits into a link packet.
import ReticulumMf.Rrc.EnvelopeSize
import ReticulumMf.Rrc.Relay

/-!
# Sizes of what the hub sends

The hub drops the error of a send, so an envelope beyond the link's maximum
plaintext is lost without a trace. Two envelopes can grow that far: the forwarded
message, which gets the nickname the hub remembers and the normalised room name,
and JOINED with a member list, which has one identity for each member.
-/

namespace Rrc

open Threads Transition

variable {text : GoText} {cfg : HubConfig} {x : HubChoice} {s : HubState} {i : Nat}
  {env fwd : Envelope} {room : Bytes} {c : HubConf} {r : Effect HubState HubAct} {cbor : CborCodec}

/-! ## Forwarded messages -/

theorem BodyWithin.isBody {limits : HubLimits} (h : BodyWithin limits env) :
    env.hasBody = true → env.body.IsBody := by
  intro hbody
  obtain ⟨b, heq | heq, -⟩ := h hbody <;> rw [heq] <;> exact True.intro

theorem forwarded_version {p : HubPeer} : (forwarded p room env fwd).version = fwd.version := by
  unfold forwarded
  dsimp only
  split <;> split <;> rfl

/-- What the hub writes into the forwarded envelope takes so much more than what
stood there. -/
theorem forwarded_size (room : Bytes) {p : HubPeer} {fresh : Fresh} (hsend : env.Sendable)
    (hnew : newEnvelope fresh env.type p.peerHash = some fwd) :
    (forwarded p room env fwd).Sendable ∧
      (forwarded p room env fwd).size + fieldSize env.hasRoom (.text env.room) +
        fieldSize env.hasNick (.text env.nick) =
      env.size + fieldSize true (.text room) + fieldSize (decide (p.nick ≠ [])) (.text p.nick) := by
  obtain ⟨hsender, id, millis, -, hfwd⟩ := newEnvelope_some hnew
  have hstamp : Stamped p.peerHash p.nick room env (forwarded p room env fwd) :=
    forwarded_stamped hnew
  have hversion : (forwarded p room env fwd).version = env.version := by
    rw [forwarded_version, hfwd, hsend.version]
    rfl
  generalize forwarded p room env fwd = e at hstamp hversion
  have hnick : e.hasNick = decide (p.nick ≠ []) :=
    Bool.eq_iff_iff.mpr (hstamp.nick.2.trans (decide_eq_true_iff).symm)
  have hbody : fieldSize e.hasBody e.body = fieldSize env.hasBody env.body := by
    rw [hstamp.body.1]
    cases hb : env.hasBody with
    | false => rfl
    | true => rw [hstamp.body.2 hb]
  refine ⟨?_, ?_⟩
  · refine ⟨hversion.trans hsend.version, ?_, ?_, ?_, ?_, fun hb => ?_⟩
    · rw [hstamp.msgID, hsend.msgID]
    · rw [hstamp.sender, hsender]
    · rw [hstamp.type]
      exact hsend.type
    · rw [hstamp.timestamp]
      exact hsend.timestamp
    · rw [hstamp.body.1] at hb
      rw [hstamp.body.2 hb]
      exact hsend.body hb
  · rw [e.size_eq, env.size_eq, hversion, hstamp.type, hstamp.msgID, hstamp.timestamp,
      hstamp.sender, hsender, hsend.sender, hstamp.room.1, hstamp.room.2, hbody, hstamp.nick.1,
      hnick]
    omega

/-- A message that passes the checks of `onRoomContent` and itself fits into a
packet can be forwarded exactly if what the remembered nickname and the
normalised room name take beyond the message's own still fits. -/
theorem forwarded_fits_iff (text : GoText) (cfg : HubConfig) (cbor : CborCodec)
    (hcbor : cbor.Shortest) {s₀ s : HubState} {now : Int} {i : Nat} {fresh : Fresh}
    {env fwd : Envelope} {b : Bytes} (hadmits : Admits text cfg i env s₀ now s)
    (hown : env.marshal cbor = .ok b) (hlen : b.length ≤ linkMaxPlaintext)
    (hnew : newEnvelope fresh env.type (s.peer i).peerHash = some fwd) :
    (forwarded (s.peer i) (normalizeRoom text env.room) env fwd).Fits cbor ↔
      fieldSize true (.text (normalizeRoom text env.room)) +
          fieldSize (decide ((s.peer i).nick ≠ [])) (.text (s.peer i).nick) ≤
        fieldSize env.hasRoom (.text env.room) + fieldSize env.hasNick (.text env.nick) +
          (linkMaxPlaintext - b.length) := by
  have hbody := hadmits.body.isBody
  have hsize := Envelope.length_marshal hcbor hbody hown
  obtain ⟨hsend, hgrows⟩ := forwarded_size (normalizeRoom text env.room)
    (Envelope.sendable_of_marshal hcbor hbody hown) hnew
  rw [Envelope.fits_iff hcbor hsend]
  omega

/-- A state in which every peer is in the room, under a nickname of 32 bytes. -/
def sampleRoomState : HubState where
  peer _ :=
    { sess := true
      peerHash := sampleIdentity
      nick := List.replicate 32 97
      rooms := AList.insert sampleRoom () ∅ }

def sampleText (n : Nat) : Envelope where
  type := typeMsg
  msgID := List.replicate 8 1
  timestamp := 1700000000000
  sender := sampleIdentity
  room := sampleRoom
  hasRoom := true
  body := .text (List.replicate n 97)
  hasBody := true

theorem sampleText_forwarded_fits :
    ∃ fwd, newEnvelope (some ([], 0)) (sampleText 2).type (sampleRoomState.peer 0).peerHash =
        some fwd ∧
      (forwarded (sampleRoomState.peer 0) (normalizeRoom .ascii (sampleText 2).room)
        (sampleText 2) fwd).Fits hubCbor := by
  have hlength : (sampleText 2).encodedLength hubCbor = some 54 := by decide +kernel
  obtain ⟨b, hb, hlen⟩ := Envelope.encodedLength_eq_some.mp hlength
  have hadmits : Admits .ascii sampleHub 0 (sampleText 2) sampleRoomState 0 sampleRoomState :=
    { room := by decide
      rate := by decide
      body := fun _ => ⟨_, .inl rfl, by decide⟩
      member := by decide }
  obtain ⟨fwd, hnew⟩ : ∃ fwd, newEnvelope (some ([], 0)) (sampleText 2).type
      (sampleRoomState.peer 0).peerHash = some fwd := newEnvelope_isSome rfl (by decide)
  refine ⟨fwd, hnew, ?_⟩
  exact (forwarded_fits_iff .ascii sampleHub hubCbor hubCbor_shortest hadmits hb
    (by rw [hlen]; decide) hnew).mpr (by rw [hlen]; decide)

/-- The link is accepted and identified, and says HELLO; the next goroutine is `t`. -/
def entering (k t : Nat) (hello : Envelope) : List (Event HubChoice HubEvent) :=
  [.env .established] ++ turns t 4 ++ [.env (.identify k hello.sender)] ++ turns (t + 1) 6 ++
  [.env (.packet k (some hello))] ++ turns (t + 2) 1 ++ turns (t + 3) 5

/-- A packet comes in, and the goroutine that handles it takes `n` steps. -/
def arriving (k t n : Nat) (env : Envelope) : List (Event HubChoice HubEvent) :=
  [.env (.packet k (some env))] ++ turns t 1 ++ turns (t + 1) n

/-- Two links are in the room. The first gave a nickname of 32 bytes in its HELLO
and now sends the longest message, without it. -/
def longRelay : List (Event HubChoice HubEvent) :=
  entering 0 0 { sampleHello with nick := List.replicate 32 97, hasNick := true } ++
  arriving 0 4 5 sampleJoin ++
  entering 1 6 { sampleHello with sender := List.replicate 16 2 } ++ arriving 1 10 5 sampleJoin ++
  arriving 0 12 5 (sampleText 350) ++ [.run 13 { fresh := some ([], 0), order := [1] }]

/-- The encoded lengths of the message that the goroutine relays and of what it forwards. -/
def HubConf.relayLengths (c : HubConf) (t : Nat) : Option (Nat × Option Nat × Option Nat) :=
  match c.threads[t]? with
  | some [.forward _ fwd, .call _ (.onMsg env)] =>
    some (env.type, env.encodedLength hubCbor, fwd.encodedLength hubCbor)
  | _ => none

theorem HubConf.thread_of_relayLengths {t n : Nat} {own forwarded : Option Nat}
    (h : HubConf.relayLengths c t = some (n, own, forwarded)) :
    ∃ i j env fwd, c.threads[t]? = some [.forward j fwd, .call i (.onMsg env)] ∧ env.type = n ∧
      env.encodedLength hubCbor = own ∧ fwd.encodedLength hubCbor = forwarded := by
  unfold HubConf.relayLengths at h
  split at h
  · rename_i j fwd i env hthread
    cases h
    exact ⟨i, j, env, fwd, hthread, rfl, rfl, rfl⟩
  · cases h

/-- A hub with the default limits forwards a message of 404 bytes in an envelope
of 439. -/
theorem remembered_nick_overflows :
    sampleHub.limits = {} ∧
    ∃ c i j env fwd, run (hubStep .ascii sampleHub) hubInit longRelay = some c ∧
      c.threads[13]? = some [.forward j fwd, .call i (.onMsg env)] ∧ env.type = typeMsg ∧
      env.Fits hubCbor ∧ ¬fwd.Fits hubCbor := by
  have hend : (run (hubStep .ascii sampleHub) hubInit longRelay).bind (HubConf.relayLengths · 13) =
      some (typeMsg, some 404, some 439) := by
    decide +kernel
  obtain ⟨c, hrun, hlengths⟩ := Option.bind_eq_some_iff.mp hend
  obtain ⟨i, j, env, fwd, hthread, htype, hown, hfwd⟩ := HubConf.thread_of_relayLengths hlengths
  refine ⟨rfl, c, i, j, env, fwd, hrun, hthread, htype, ?_, ?_⟩
  · exact (Envelope.fits_iff_of_encodedLength hown).mpr (by decide)
  · exact fun hfits => absurd ((Envelope.fits_iff_of_encodedLength hfwd).mp hfits) (by decide)

/-! ## JOINED -/

/-- The envelope of a reply, as `sendType` builds it. -/
def Reply.envelope (cfg : HubConfig) (fresh : Fresh) (m : Reply) : Option Envelope :=
  (newEnvelope fresh m.type cfg.sender).map fun e =>
    let e := if m.room ≠ [] then { e with room := m.room, hasRoom := true } else e
    if isNil (m.body cfg) then e else { e with body := m.body cfg, hasBody := true }

theorem reply_envelope (m : Reply) :
    s.reply cfg x i m =
      match m.envelope cfg x.fresh with
      | none => (s, false)
      | some e => s.sendEnvelope x i e := by
  simp only [HubState.reply, HubState.sendType, Reply.envelope]
  cases newEnvelope x.fresh m.type cfg.sender with
  | none => rfl
  | some e => rfl

/-- The members of the room once the peer has joined it. -/
def HubState.membersAfterJoin (s : HubState) (i : Nat) (room : Bytes) : GoSet Bytes :=
  if room ∈ (s.peer i).rooms then s.members room
  else (s.members room).insert (s.peer i).peerHash ()

/-- How many of them are registered. -/
def HubState.listedAfterJoin (s : HubState) (i : Nat) (room : Bytes) : Nat :=
  (s.membersAfterJoin i room).keys.countP s.hasPeer

/-- What JOINED takes with that timestamp, for a room of that name, with so many
identities in the member list. -/
def joinedSize (millis : Nat) (room : Bytes) (listed : Nat) : Nat :=
  34 + Cbor.headLength millis + fieldSize true (.text room) +
    if listed = 0 then 0 else 1 + Cbor.headLength listed + 17 * listed

theorem joinedSize_zero_le {millis : Nat} (hroom : room.length ≤ 64) :
    joinedSize millis room 0 ≤ linkMaxPlaintext := by
  have htime := Cbor.headLength_le millis
  have hhead := Cbor.headLength_le room.length
  simp only [joinedSize, fieldSize, CborValue.size, CborValue.flatSize, linkMaxPlaintext, if_true]
  omega

theorem onJoin_joined {members : List Bytes}
    (h : hubAct text cfg x s (.onJoin i env) = some r)
    (hjoined : .reply i (.joined room members env) ∈ r.push) :
    room ≠ [] ∧ room.length ≤ cfg.limits.maxRoomNameBytes ∧
      ∃ s', s.joinLocked cfg.limits i room = some s' ∧
        members = if cfg.includeMemberList then s'.memberList room else [] := by
  simp only [hubAct] at h
  split at h
  · cases h
    cases List.mem_singleton.mp hjoined
  · rename_i hroom
    split at h
    · cases h
      cases List.mem_singleton.mp hjoined
    · rename_i hlen
      split at h <;> cases h
      · cases List.mem_singleton.mp hjoined
      · rename_i s' hjoin
        cases List.mem_singleton.mp hjoined
        exact ⟨hroom, not_lt.mp hlen, s', hjoin, rfl⟩

theorem joinLocked_members {limits : HubLimits} {s' : HubState}
    (h : s.joinLocked limits i room = some s') :
    s'.members room = s.membersAfterJoin i room ∧ s'.peers = s.peers ∧
      ∀ j, (s'.peer j).peerHash = (s.peer j).peerHash := by
  unfold HubState.membersAfterJoin
  obtain ⟨hmem, rfl⟩ | ⟨hmem, -, rfl⟩ := joinLocked_some h
  · exact ⟨by rw [if_pos hmem], rfl, fun _ => rfl⟩
  · refine ⟨by simp [hmem, HubState.enterRoom, HubState.members], rfl, fun j => ?_⟩
    simp only [HubState.enterRoom, HubState.set_peer]
    split
    · subst_vars
      rfl
    · rfl

theorem length_memberList {limits : HubLimits} {s' : HubState}
    (h : s.joinLocked limits i room = some s') :
    (s'.memberList room).length = s.listedAfterJoin i room := by
  obtain ⟨hmembers, hpeers, -⟩ := joinLocked_members h
  rw [HubState.memberList, List.length_filterMap_eq_countP, hmembers, hpeers,
    HubState.listedAfterJoin]
  congr 1
  funext pk
  simp [HubState.hasPeer]

theorem memberList_identity {limits : HubLimits} {s' : HubState}
    {es : List (Event HubChoice HubEvent)} (hrun : run (hubStep text cfg) hubInit es = some c)
    (h : c.shared.joinLocked limits i room = some s') :
    ∀ hash ∈ s'.memberList room, hash.length = identityLength := by
  obtain ⟨-, hpeers, hhash⟩ := joinLocked_members h
  intro hash hmem
  obtain ⟨pk, -, hpk⟩ := List.mem_filterMap.mp hmem
  obtain ⟨j, hj, rfl⟩ := Option.map_eq_some_iff.mp hpk
  rw [hpeers] at hj
  rw [hhash]
  exact (peerHash_proved hrun ((registration_of_run hrun).listed ⟨pk, hj⟩)).1

/-- JOINED with its fields; an empty member list is not sent. -/
def joinedEnvelope (sender id : Bytes) (millis : Nat) (room : Bytes) (members : List Bytes) :
    Envelope where
  type := typeJoined
  msgID := id
  timestamp := millis
  sender := sender
  room := room
  hasRoom := true
  body := if members.length > 0 then .array (members.map .bytes) else .nil
  hasBody := decide (members.length > 0)

theorem joined_envelope {members : List Bytes} {id : Bytes} {millis : Nat} {e : Envelope}
    (hroom : room ≠ [])
    (he : (Reply.joined room members env).envelope cfg (some (id, millis)) = some e) :
    cfg.sender.length = identityLength ∧ e = joinedEnvelope cfg.sender id millis room members := by
  obtain ⟨e₀, hnew, rfl⟩ := Option.map_eq_some_iff.mp he
  obtain ⟨hsender, id', millis', hfresh, rfl⟩ := newEnvelope_some hnew
  cases hfresh
  refine ⟨hsender, ?_⟩
  cases members <;> simp [Reply.room, Reply.body, Reply.type, isNil, hroom, joinedEnvelope]

theorem size_identities {members : List Bytes}
    (h : ∀ hash ∈ members, hash.length = identityLength) :
    (CborValue.array (members.map .bytes)).size =
      Cbor.headLength members.length + 17 * members.length := by
  have hitems : (members.map CborValue.bytes).map CborValue.flatSize =
      List.replicate members.length 17 := by
    rw [List.map_map]
    refine List.map_eq_replicate_iff.mpr fun hash hhash => ?_
    simp [CborValue.flatSize, h hash hhash, identityLength, Cbor.headLength]
  rw [CborValue.size, hitems, List.length_map, List.sum_replicate_nat, mul_comm]

section JoinedEnvelope

variable {sender id : Bytes} {millis : Nat} {members : List Bytes}

theorem joinedEnvelope_sendable (hsender : sender.length = identityLength)
    (hid : id.length = messageIDLength) (hmillis : millis < 2 ^ 64) :
    (joinedEnvelope sender id millis room members).Sendable where
  version := rfl
  msgID := hid
  sender := hsender
  type := (by decide : typeJoined < 2 ^ 64)
  timestamp := hmillis
  body h := by
    have hpos : members.length > 0 := of_decide_eq_true h
    simp only [joinedEnvelope, if_pos hpos]
    intro v hv
    obtain ⟨hash, -, rfl⟩ := List.mem_map.mp hv
    exact ⟨hash, rfl⟩

theorem joinedEnvelope_size (hsender : sender.length = identityLength)
    (hid : id.length = messageIDLength)
    (hmembers : ∀ hash ∈ members, hash.length = identityLength) :
    (joinedEnvelope sender id millis room members).size =
      joinedSize millis room members.length := by
  have hbody : fieldSize (decide (members.length > 0))
      (if members.length > 0 then .array (members.map .bytes) else .nil) =
      if members.length = 0 then 0 else 1 + Cbor.headLength members.length + 17 * members.length := by
    by_cases hpos : members.length > 0
    · rw [if_pos hpos, if_neg hpos.ne', fieldSize, if_pos (decide_eq_true hpos),
        size_identities hmembers, add_assoc]
    · rw [if_neg hpos, if_pos (Nat.eq_zero_of_not_pos hpos), fieldSize, if_neg (by simpa using hpos)]
  have hversion : Cbor.headLength 1 = 1 := rfl
  have htype : Cbor.headLength typeJoined = 1 := rfl
  have hids : Cbor.headLength messageIDLength + messageIDLength = 9 := rfl
  have hsenders : Cbor.headLength identityLength + identityLength = 17 := rfl
  rw [Envelope.size_eq, joinedSize]
  simp only [joinedEnvelope, hbody, hid, hsender, hversion, htype, hids, hsenders]
  simp only [fieldSize, Bool.false_eq_true, if_false]
  omega

end JoinedEnvelope

/-- A JOIN is accepted in a state the hub can reach. Its reply fits into a packet
exactly if the hub sends no member list, or the list is short enough. -/
theorem joined_fits_iff (text : GoText) (cfg : HubConfig) (cbor : CborCodec)
    (hcbor : cbor.Shortest) (hlimit : cfg.limits.maxRoomNameBytes = 64)
    {es : List (Event HubChoice HubEvent)} {c : HubConf} {x : HubChoice} {i millis : Nat}
    {env e : Envelope} {r : Effect HubState HubAct} {room id : Bytes} {members : List Bytes}
    (hrun : run (hubStep text cfg) hubInit es = some c)
    (hact : hubAct text cfg x c.shared (.onJoin i env) = some r)
    (hjoined : .reply i (.joined room members env) ∈ r.push)
    (hid : id.length = messageIDLength) (hmillis : millis < 2 ^ 64)
    (he : (Reply.joined room members env).envelope cfg (some (id, millis)) = some e) :
    e.Fits cbor ↔ (cfg.includeMemberList = true →
      joinedSize millis room (c.shared.listedAfterJoin i room) ≤ linkMaxPlaintext) := by
  obtain ⟨hroom, hlen, s', hjoin, hlist⟩ := onJoin_joined hact hjoined
  rw [hlimit] at hlen
  have hidentity : ∀ hash ∈ members, hash.length = identityLength := by
    rw [hlist]
    split
    · exact memberList_identity hrun hjoin
    · simp
  obtain ⟨hsender, rfl⟩ := joined_envelope hroom he
  rw [Envelope.fits_iff hcbor (joinedEnvelope_sendable hsender hid hmillis),
    joinedEnvelope_size hsender hid hidentity, hlist]
  cases cfg.includeMemberList with
  | true => simp [length_memberList hjoin]
  | false => simpa using joinedSize_zero_le hlen

/-- A hub with the default limits that sends member lists. -/
def listingHub : HubConfig := { sampleHub with includeMemberList := true }

/-- A room name of the maximum length. -/
def crowdedRoom : Bytes := List.replicate 64 97

/-- A link enters and joins the room; the next goroutine is `6 * k`. -/
def joining (k : Nat) : List (Event HubChoice HubEvent) :=
  let identity := List.replicate 16 (UInt8.ofNat k)
  entering k (6 * k) { sampleHello with sender := identity } ++
  arriving k (6 * k + 4) 5 { sampleJoin with sender := identity, room := crowdedRoom }

def crowd (n : Nat) : List (Event HubChoice HubEvent) := (List.range n).flatMap joining

def crowdedJoin : Envelope := { sampleJoin with room := crowdedRoom }

/-- In a room of two, JOINED fits. -/
theorem second_joined_fits :
    ∃ c r members e, run (hubStep .ascii listingHub) hubInit (crowd 2) = some c ∧
      hubAct .ascii listingHub {} c.shared (.onJoin 1 crowdedJoin) = some r ∧
      .reply 1 (.joined crowdedRoom members crowdedJoin) ∈ r.push ∧
      (Reply.joined crowdedRoom members crowdedJoin).envelope listingHub
        (some (List.replicate 8 1, 1700000000000)) = some e ∧ e.Fits hubCbor := by
  have hend : (run (hubStep .ascii listingHub) hubInit (crowd 2)).map (fun c =>
      (decide (crowdedRoom ∈ (c.shared.peer 1).rooms), c.shared.listedAfterJoin 1 crowdedRoom)) =
      some (true, 2) := by
    decide +kernel
  obtain ⟨c, hrun, heq⟩ := Option.map_eq_some_iff.mp hend
  simp only [Prod.mk.injEq, decide_eq_true_eq] at heq
  obtain ⟨hmember, hlisted⟩ := heq
  have hact : hubAct .ascii listingHub {} c.shared (.onJoin 1 crowdedJoin) =
      some { shared := c.shared,
             push := [.reply 1 (.joined crowdedRoom (c.shared.memberList crowdedRoom)
               crowdedJoin)] } := by
    have hroom : normalizeRoom .ascii crowdedJoin.room = crowdedRoom := by decide +kernel
    have hne : crowdedRoom ≠ [] := by decide
    have hlen : ¬crowdedRoom.length > listingHub.limits.maxRoomNameBytes := by decide
    simp only [hubAct, hroom, HubState.joinLocked, if_pos hmember, if_neg hne, if_neg hlen]
    rfl
  obtain ⟨e, he⟩ : ∃ e, (Reply.joined crowdedRoom (c.shared.memberList crowdedRoom)
      crowdedJoin).envelope listingHub (some (List.replicate 8 1, 1700000000000)) = some e :=
    ⟨_, rfl⟩
  refine ⟨c, _, _, e, hrun, hact, List.mem_singleton_self _, he, ?_⟩
  refine (joined_fits_iff .ascii listingHub hubCbor hubCbor_shortest rfl hrun hact
    (List.mem_singleton_self _) (by decide) (by decide) he).mpr fun _ => ?_
  rw [hlisted]
  decide

/-- The goroutine is about to send JOINED: whether the peer is in the room, how
long the room's name is, and how long the reply is. -/
def HubConf.joinedLength (c : HubConf) (t : Nat) : Option (Bool × Nat × Option Nat) :=
  match c.threads[t]? with
  | some [.reply i (.joined room members env)] =>
    some (decide (room ∈ (c.shared.peer i).rooms), room.length,
      ((Reply.joined room members env).envelope listingHub
        (some (List.replicate 8 1, 1700000000000))).bind (·.encodedLength hubCbor))
  | _ => none

theorem HubConf.thread_of_joinedLength {t n : Nat} {member : Bool} {length : Option Nat}
    (h : HubConf.joinedLength c t = some (member, n, length)) :
    ∃ i room members env, c.threads[t]? = some [.reply i (.joined room members env)] ∧
      decide (room ∈ (c.shared.peer i).rooms) = member ∧ room.length = n ∧
      ((Reply.joined room members env).envelope listingHub
        (some (List.replicate 8 1, 1700000000000))).bind (·.encodedLength hubCbor) = length := by
  unfold HubConf.joinedLength at h
  split at h
  · rename_i i room members env hthread
    cases h
    exact ⟨i, room, members, env, hthread, rfl, rfl, rfl⟩
  · cases h

/-- Nineteen links are in a room. The hub has recorded the last one as a member,
and its reply, of 435 bytes, cannot be sent. -/
theorem nineteenth_joined_overflows :
    listingHub.limits = {} ∧
    ∃ c i room members env e,
      run (hubStep .ascii listingHub) hubInit (crowd 19) = some c ∧
      c.threads[113]? = some [.reply i (.joined room members env)] ∧
      room ∈ (c.shared.peer i).rooms ∧
      (Reply.joined room members env).envelope listingHub
        (some (List.replicate 8 1, 1700000000000)) = some e ∧ ¬e.Fits hubCbor := by
  have hend : (run (hubStep .ascii listingHub) hubInit (crowd 19)).bind
      (HubConf.joinedLength · 113) = some (true, 64, some 435) := by
    decide +kernel
  obtain ⟨c, hrun, hlength⟩ := Option.bind_eq_some_iff.mp hend
  obtain ⟨i, room, members, env, hthread, hmember, -, hlen⟩ :=
    HubConf.thread_of_joinedLength hlength
  obtain ⟨e, he, hlen⟩ := Option.bind_eq_some_iff.mp hlen
  refine ⟨rfl, c, i, room, members, env, e, hrun, hthread, of_decide_eq_true hmember, he, ?_⟩
  exact fun hfits => absurd ((Envelope.fits_iff_of_encodedLength hlen).mp hfits) (by decide)

end Rrc
