-- SUMMARY: The RRC hub: its peers, sessions and links, and the atomic steps of its goroutines.
import Mathlib.Data.List.AList
import Mathlib.Logic.Function.Basic
import ReticulumMf.Lib.Threads
import ReticulumMf.Rrc.Envelope

/-!
# The hub

Every link the hub accepts gets a number, which stands for the link, its
`hubPeer` and its session. The established callback (`acceptLink`), each inbound
packet and each identification run on goroutines of their own; a goroutine's
atomic steps are its `h.mu` critical sections, its reads and writes of the link
and of `p`, and the calls it makes.

Of the link there is its status, the packet and identified callbacks, the one
queued packet and the remote identity. Hub links have no closed callback.
-/

namespace Rrc

open Threads

/-- A Go map. Ranging over one has no fixed order; where the order can matter it
is part of a step's choice. -/
abbrev GoMap (κ ν : Type) := AList fun _ : κ => ν

abbrev GoSet (κ : Type) := GoMap κ Unit

/-! ## State -/

inductive LinkStatus where
  | active
  | stale
  | closed
  deriving DecidableEq, Repr

/-- The state of a `sync.Once`. -/
inductive Once where
  | fresh
  | running
  | done
  deriving DecidableEq, Repr

/-- Plaintext of a link packet as `UnmarshalEnvelope` reads it: none if it is rejected. -/
abbrev Plain := Option Envelope

/-- A `hubPeer`, with the session and the link it belongs to. -/
structure HubPeer where
  /-- Whether `p.sess` has been assigned. -/
  sess : Bool := false
  peerHash : Bytes := []
  active : Bool := false
  rooms : GoSet Bytes := ∅
  msgTimes : List Int := []
  pendingHello : Option Envelope := none
  registerOnce : Once := .fresh
  nick : Bytes := []
  /-- The session's closed flag. -/
  closed : Bool := false
  status : LinkStatus := .active
  packetCallback : Bool := false
  pendingPlainData : Option Plain := none
  identifiedCallback : Bool := false
  /-- The hash of the identity the remote has proved. -/
  remoteIdentity : Option Bytes := none

/-- A call of one of the hub's handlers. -/
inductive HubCall where
  | onHello (env : Envelope)
  | onJoin (room : Bytes) (env : Envelope)
  | onPart (room : Bytes) (env : Envelope)
  | onMsg (env : Envelope)
  | onClose

structure HubState where
  /-- How many links have been established. -/
  accepted : Nat := 0
  peer : Nat → HubPeer := fun _ => {}
  peers : GoMap Bytes Nat := ∅
  /-- Room to the set of peer keys. -/
  rooms : GoMap Bytes (GoSet Bytes) := ∅
  /-- The envelopes sent, each with the session it went out on. -/
  sent : List (Nat × Envelope) := []
  calls : List (Nat × HubCall) := []

structure HubConfig where
  name : Bytes
  version : Bytes
  limits : HubLimits
  includeMemberList : Bool := false
  sender : Bytes

def HubState.set (s : HubState) (i : Nat) (p : HubPeer) : HubState :=
  { s with peer := Function.update s.peer i p }

@[simp]
theorem HubState.set_peer_self {s : HubState} {i : Nat} {p : HubPeer} : (s.set i p).peer i = p :=
  Function.update_self ..

theorem HubState.set_peer {s : HubState} {i j : Nat} {p : HubPeer} :
    (s.set i p).peer j = if j = i then p else s.peer j := Function.update_apply ..

@[simp]
theorem HubState.set_peers {s : HubState} {i : Nat} {p : HubPeer} :
    (s.set i p).peers = s.peers := rfl

@[simp]
theorem HubState.set_rooms {s : HubState} {i : Nat} {p : HubPeer} :
    (s.set i p).rooms = s.rooms := rfl

def HubState.hasPeer (s : HubState) (peerHash : Bytes) : Bool := (s.peers.lookup peerHash).isSome

def HubState.peerCount (s : HubState) : Nat := s.peers.keys.length

/-- The keys in a room's member set; none if there is no such room. -/
def HubState.members (s : HubState) (room : Bytes) : GoSet Bytes := (s.rooms.lookup room).getD ∅

/-! ## Critical sections -/

/-- `delete(members, key)` for one room, dropping the room once it is empty. -/
def removeMember (key : Bytes) (rooms : GoMap Bytes (GoSet Bytes)) (room : Bytes) :
    GoMap Bytes (GoSet Bytes) :=
  match rooms.lookup room with
  | some members =>
    let members := members.erase key
    if members.keys.length = 0 then rooms.erase room else rooms.insert room members
  | none => rooms

/-- The loop over a peer's rooms in `register` and `dropPeerIf`. -/
def removeFromRooms (key : Bytes) (rooms : GoMap Bytes (GoSet Bytes)) (left : GoSet Bytes) :
    GoMap Bytes (GoSet Bytes) :=
  left.keys.foldl (removeMember key) rooms

/-- The critical section of `register`: the state after it, the session that is
displaced, and the HELLO that was waiting. -/
def HubState.registerLocked (s : HubState) (i : Nat) :
    HubState × Option Nat × Option Envelope :=
  let p := s.peer i
  let key := p.peerHash
  let old := (s.peers.lookup key).filter (· ≠ i)
  let rooms := match old with
    | some j => removeFromRooms key s.rooms (s.peer j).rooms
    | none => s.rooms
  ({ s.set i { p with pendingHello := none } with peers := s.peers.insert key i, rooms },
    old, p.pendingHello)

/-- Removes a peer, with its key, from the maps. -/
def HubState.removePeer (s : HubState) (i : Nat) : HubState :=
  let key := (s.peer i).peerHash
  { s with peers := s.peers.erase key, rooms := removeFromRooms key s.rooms (s.peer i).rooms }

/-- The critical section of `dropPeerIf`: none if the session is not the current one. -/
def HubState.dropPeerIf (s : HubState) (i : Nat) : Option HubState :=
  let key := (s.peer i).peerHash
  if key.length = 0 then none
  else if s.peers.lookup key ≠ some i then none
  else some (s.removePeer i)

/-- Records a peer in a room, on both sides. -/
def HubState.enterRoom (s : HubState) (i : Nat) (room : Bytes) : HubState :=
  let p := s.peer i
  { s.set i { p with rooms := p.rooms.insert room () } with
    rooms := s.rooms.insert room ((s.members room).insert p.peerHash ()) }

def HubState.leaveRoom (s : HubState) (i : Nat) (room : Bytes) : HubState :=
  let p := s.peer i
  { s.set i { p with rooms := p.rooms.erase room } with
    rooms := removeMember p.peerHash s.rooms room }

/-- The critical section of `onJoin`: none if the room limit is exceeded. -/
def HubState.joinLocked (limits : HubLimits) (s : HubState) (i : Nat) (room : Bytes) :
    Option HubState :=
  let p := s.peer i
  if room ∈ p.rooms then some s
  else if p.rooms.keys.length ≥ limits.maxRoomsPerSession then none
  else some (s.enterRoom i room)

/-- The member list `onJoin` takes in the same critical section. The source ranges over the
members in any order. The list goes into the body of JOINED only, which a client hands to its
user: another order gives a body of the same length with the same hashes. -/
def HubState.memberList (s : HubState) (room : Bytes) : List Bytes :=
  (s.members room).keys.filterMap fun pk =>
    (s.peers.lookup pk).map fun j => (s.peer j).peerHash

/-- The critical section of `onPart`: none if the peer is not in the room. -/
def HubState.partLocked (s : HubState) (i : Nat) (room : Bytes) : Option HubState :=
  if room ∈ (s.peer i).rooms then some (s.leaveRoom i room) else none

/-- The sessions `onRoomContent` forwards to. -/
def HubState.recipients (s : HubState) (i : Nat) (room : Bytes) : List Nat :=
  (s.members room).keys.filterMap fun pk =>
    if pk = (s.peer i).peerHash then none
    else (s.peers.lookup pk).filter fun j => (s.peer j).active

def minute : Int := 60000000000

def HubPeer.allowRate (limit : Nat) (now : Int) (p : HubPeer) : HubPeer × Bool :=
  if limit = 0 then (p, true)
  else
    let kept := p.msgTimes.filter fun t => now - minute < t
    if kept.length ≥ limit then ({ p with msgTimes := kept }, false)
    else ({ p with msgTimes := kept ++ [now] }, true)

/-! ## Sending -/

/-- What a step cannot know in advance. -/
structure HubChoice where
  fresh : Fresh := none
  now : Int := 0
  /-- Whether marshalling the envelope and handing the packet to the link succeed. -/
  transmitted : Bool := true
  /-- The order in which a map is ranged over. -/
  order : List Nat := []

/-- `session.sendEnvelope`, and whether it succeeds. -/
def HubState.sendEnvelope (s : HubState) (x : HubChoice) (i : Nat) (env : Envelope) :
    HubState × Bool :=
  let p := s.peer i
  if p.closed ∨ p.status ≠ .active ∨ x.transmitted = false then (s, false)
  else ({ s with sent := s.sent ++ [(i, env)] }, true)

def isNil : CborValue → Bool
  | .nil => true
  | _ => false

/-- `session.sendType`. -/
def HubState.sendType (s : HubState) (x : HubChoice) (sender : Bytes) (i msgType : Nat)
    (room : Bytes) (body : CborValue) (nick : Bytes) : HubState × Bool :=
  match newEnvelope x.fresh msgType sender with
  | none => (s, false)
  | some env =>
    let env := if room ≠ [] then { env with room, hasRoom := true } else env
    let env := if isNil body then env else { env with body, hasBody := true }
    let env := if nick ≠ [] then { env with nick, hasNick := true } else env
    s.sendEnvelope x i env

/-- What the hub answers on a session. -/
inductive Reply where
  | error (msg : String)
  | welcome (env : Envelope)
  | joined (room : Bytes) (memberList : List Bytes) (env : Envelope)
  | parted (room : Bytes) (env : Envelope)
  | pong (env : Envelope)

def Reply.type : Reply → Nat
  | .error _ => typeError
  | .welcome _ => typeWelcome
  | .joined .. => typeJoined
  | .parted .. => typeParted
  | .pong _ => typePong

def Reply.room : Reply → Bytes
  | .joined room _ _ | .parted room _ => room
  | .error _ | .welcome _ | .pong _ => []

def Reply.body (cfg : HubConfig) : Reply → CborValue
  | .error msg => .text (goString msg)
  | .welcome _ =>
    .map [(.uint 0, .text cfg.name), (.uint 1, .text cfg.version), (.uint 3, cfg.limits.toMap)]
  | .joined _ memberList _ =>
    if memberList.length > 0 then .array (memberList.map .bytes) else .nil
  | .parted .. => .nil
  | .pong env => env.body

/-- Pongs go out on the session itself, everything else on `p.sess`. -/
def Reply.usesSess : Reply → Bool
  | .pong _ => false
  | _ => true

def HubState.reply (cfg : HubConfig) (x : HubChoice) (s : HubState) (i : Nat) (r : Reply) :
    HubState × Bool :=
  s.sendType x cfg.sender i r.type r.room (r.body cfg) []

/-! ## Actions -/

/-- The atomic steps of the hub's goroutines. -/
inductive HubAct where
  -- acceptLink, with SetPacketCallback inside newSession
  | setPacketCallback (i : Nat)
  | takePending (i : Nat)
  | assignSess (i : Nat)
  | setIdentifiedCallback (i : Nat)
  | acceptReadRemote (i : Nat)
  -- the link's handling of a packet
  | deliver (i : Nat) (data : Plain)
  | queuePlain (i : Nat) (data : Plain)
  | checkRemote (i : Nat) (hash : Bytes)
  | setRemote (i : Nat) (hash : Bytes)
  | fireIdentified (i : Nat) (hash : Bytes)
  -- session.handleInbound and the message closure of acceptLink
  | handleInbound (i : Nat) (data : Plain)
  | onMsg (i : Nat) (env : Envelope)
  | readRemote (i : Nat) (env : Envelope)
  | bufferHello (i : Nat) (env : Envelope)
  | recheck (i : Nat) (env : Envelope)
  -- register
  | register (i : Nat) (hash : Bytes)
  | setHash (i : Nat) (hash : Bytes)
  | registerLocked (i : Nat)
  | onceDone (i : Nat)
  -- the hub's handlers
  | handlePeer (i : Nat) (env : Envelope)
  | applyInboundNick (i : Nat) (env : Envelope) (active : Bool)
  | onHello (i : Nat) (env : Envelope)
  | onJoin (i : Nat) (env : Envelope)
  | onPart (i : Nat) (env : Envelope)
  | onRoomContent (i : Nat) (env : Envelope)
  | relay (i : Nat) (env : Envelope) (room : Bytes)
  | reply (i : Nat) (r : Reply)
  | forward (i : Nat) (env : Envelope)
  | call (i : Nat) (c : HubCall)
  -- session.close and Hub.Close
  | close (i : Nat)
  | teardown (i : Nat)
  | dropPeerIf (i : Nat)
  | hubClose

def acceptLink (i : Nat) : List HubAct :=
  [.setPacketCallback i, .takePending i, .assignSess i, .setIdentifiedCallback i,
    .acceptReadRemote i]

def sendError (i : Nat) (msg : String) : List HubAct := [.reply i (.error msg)]

/-- `handlePeer` after the nickname, by the active flag it read first. -/
def dispatch (i : Nat) (env : Envelope) (active : Bool) : List HubAct :=
  if !active then
    if env.type ≠ typeHello then [] else [.onHello i env]
  else if env.type = typeHello then []
  else if env.type = typeJoin then [.onJoin i env]
  else if env.type = typePart then [.onPart i env]
  else if env.type = typeMsg ∨ env.type = typeNotice ∨ env.type = typeAction then
    [.onRoomContent i env]
  else []

/-- What follows a reply. -/
def Reply.next (i : Nat) (ok : Bool) : Reply → List HubAct
  | .error _ | .pong _ => []
  | .welcome env => if ok then [.call i (.onHello env)] else [.close i]
  | .joined room _ env => [.call i (.onJoin room env)]
  | .parted room env => [.call i (.onPart room env)]

/-- The body check of `onRoomContent`. -/
def bodyError (limits : HubLimits) (env : Envelope) : Option String :=
  if env.hasBody then
    match env.body with
    | .text b | .bytes b =>
      if b.length > limits.maxMsgBodyBytes then some "message body too large" else none
    | _ => some "invalid message body"
  else none

/-- The envelope that `onRoomContent` forwards. -/
def forwarded (p : HubPeer) (room : Bytes) (env fwd : Envelope) : Envelope :=
  let fwd := { fwd with msgID := env.msgID, timestamp := env.timestamp, room, hasRoom := true }
  let fwd := if env.hasBody then { fwd with body := env.body, hasBody := true } else fwd
  if p.nick ≠ [] then { fwd with nick := p.nick, hasNick := true } else fwd

section

variable (text : GoText) (cfg : HubConfig)

/-- The critical section of `onRoomContent`, from the body check on. -/
def relayAct (x : HubChoice) (s : HubState) (i : Nat) (env : Envelope) (room : Bytes) :
    Option (Effect HubState HubAct) :=
  let p := s.peer i
  match bodyError cfg.limits env with
  | some msg => some { shared := s, push := sendError i msg }
  | none =>
    if room ∉ p.rooms then some { shared := s, push := sendError i "not a member of room" }
    else if p.sess = false ∨ ¬x.order.Perm (s.recipients i room) then none
    else match newEnvelope x.fresh env.type p.peerHash with
      | none => some { shared := s }
      | some fwd =>
        let fwd := forwarded p room env fwd
        some { shared := s, push := x.order.map (.forward · fwd) ++ [.call i (.onMsg env)] }

def hubAct (x : HubChoice) (s : HubState) : HubAct → Option (Effect HubState HubAct)
  | .setPacketCallback i => some { shared := s.set i { s.peer i with packetCallback := true } }
  | .takePending i =>
    -- a packet queued before the callback was set is delivered on this goroutine
    some { shared := s.set i { s.peer i with pendingPlainData := none },
           push := (s.peer i).pendingPlainData.toList.map (.handleInbound i) }
  | .assignSess i => some { shared := s.set i { s.peer i with sess := true } }
  | .setIdentifiedCallback i =>
    some { shared := s.set i { s.peer i with identifiedCallback := true } }
  | .acceptReadRemote i =>
    some { shared := s, push := (s.peer i).remoteIdentity.toList.map (.register i) }
  | .deliver i data =>
    if (s.peer i).packetCallback then some { shared := s, spawn := [[.handleInbound i data]] }
    else some { shared := s, push := [.queuePlain i data] }
  | .queuePlain i data => some { shared := s.set i { s.peer i with pendingPlainData := some data } }
  | .checkRemote i hash =>
    if (s.peer i).remoteIdentity = none then some { shared := s, push := [.setRemote i hash] }
    else some { shared := s }
  | .setRemote i hash =>
    some { shared := s.set i { s.peer i with remoteIdentity := some hash },
           push := [.fireIdentified i hash] }
  | .fireIdentified i hash =>
    if (s.peer i).identifiedCallback then some { shared := s, push := [.register i hash] }
    else some { shared := s }
  | .handleInbound i data =>
    match data with
    | none => some { shared := s }
    | some env =>
      if env.type = typePing then
        some { shared := s, push := [.reply i (.pong env), .onMsg i env] }
      else some { shared := s, push := [.onMsg i env] }
  | .onMsg i env =>
    if (s.peer i).peerHash.length = 0 then some { shared := s, push := [.readRemote i env] }
    else some { shared := s, push := [.handlePeer i env] }
  | .readRemote i env =>
    match (s.peer i).remoteIdentity with
    | some hash => some { shared := s, push := [.register i hash, .recheck i env] }
    | none =>
      if env.type = typeHello then some { shared := s, push := [.bufferHello i env] }
      else some { shared := s, push := [.recheck i env] }
  | .bufferHello i env => some { shared := s.set i { s.peer i with pendingHello := some env } }
  | .recheck i env =>
    if (s.peer i).peerHash.length = 0 then some { shared := s }
    else some { shared := s, push := [.handlePeer i env] }
  | .register i hash =>
    if hash.length ≠ identityLength then some { shared := s }
    else match (s.peer i).registerOnce with
      | .fresh =>
        some { shared := s.set i { s.peer i with registerOnce := .running },
               push := [.setHash i hash, .registerLocked i, .onceDone i] }
      | .running => none
      | .done => some { shared := s }
  | .setHash i hash => some { shared := s.set i { s.peer i with peerHash := hash } }
  | .registerLocked i =>
    let (s', old, waiting) := s.registerLocked i
    some { shared := s',
           push := old.toList.map .close ++ waiting.toList.map (.handlePeer i) }
  | .onceDone i => some { shared := s.set i { s.peer i with registerOnce := .done } }
  | .handlePeer i env =>
    some { shared := s, push := [.applyInboundNick i env (s.peer i).active] }
  | .applyInboundNick i env active =>
    let nick := sanitizeNick text env.nick
    if env.hasNick = false ∨ nick = [] then some { shared := s, push := dispatch i env active }
    else if nick.length > cfg.limits.maxNickBytes then
      some { shared := s, push := sendError i "nickname too long" ++
        if active then dispatch i env active else [.close i] }
    else if (s.peer i).sess = false then none
    else some { shared := s.set i { s.peer i with nick := sanitizeNick text nick },
                push := dispatch i env active }
  | .onHello i env =>
    some { shared := s.set i { s.peer i with active := true }, push := [.reply i (.welcome env)] }
  | .onJoin i env =>
    let room := normalizeRoom text env.room
    if room = [] then some { shared := s, push := sendError i "missing room" }
    else if room.length > cfg.limits.maxRoomNameBytes then
      some { shared := s, push := sendError i "room name too long" }
    else match s.joinLocked cfg.limits i room with
      | none => some { shared := s, push := sendError i "room limit exceeded" }
      | some s' =>
        let memberList := if cfg.includeMemberList then s'.memberList room else []
        some { shared := s', push := [.reply i (.joined room memberList env)] }
  | .onPart i env =>
    let room := normalizeRoom text env.room
    if room = [] then some { shared := s }
    else match s.partLocked i room with
      | none => some { shared := s }
      | some s' => some { shared := s', push := [.reply i (.parted room env)] }
  | .onRoomContent i env =>
    let room := normalizeRoom text env.room
    if room = [] then some { shared := s, push := sendError i "missing room" }
    else
      let (p, allowed) := (s.peer i).allowRate cfg.limits.rateLimitMsgsPerMinute x.now
      if allowed then some { shared := s.set i p, push := [.relay i env room] }
      else some { shared := s.set i p,
                  push := sendError i "Rate limit exceeded. Try again later." }
  | .relay i env room => relayAct cfg x s i env room
  | .reply i r =>
    -- a nil p.sess is dereferenced here, and the goroutine goes no further
    if r.usesSess ∧ (s.peer i).sess = false then none
    else
      let (s', ok) := s.reply cfg x i r
      some { shared := s', push := r.next i ok }
  | .forward i env =>
    if (s.peer i).sess then some { shared := (s.sendEnvelope x i env).1 } else some { shared := s }
  | .call i c => some { shared := { s with calls := s.calls ++ [(i, c)] } }
  | .close i =>
    if (s.peer i).sess = false then none
    else if (s.peer i).closed then some { shared := s }
    else some { shared := s.set i { s.peer i with closed := true },
                push := [.teardown i, .dropPeerIf i] }
  | .teardown i =>
    if (s.peer i).status = .active then
      some { shared := s.set i { s.peer i with status := .closed } }
    else some { shared := s }
  | .dropPeerIf i =>
    match s.dropPeerIf i with
    | none => some { shared := s }
    | some s' => some { shared := s', push := [.call i .onClose] }
  | .hubClose =>
    if x.order.Perm (s.peers.entries.map (·.2)) then
      some { shared := { s with peers := ∅, rooms := ∅ }, push := x.order.map .close }
    else none

/-! ## Events -/

/-- What happens to the hub from outside. -/
inductive HubEvent where
  /-- A new link is established. The link calls `acceptLink` for every RTT packet that it
  decrypts; here the initiator is taken to send the one of the handshake only, so that a
  link has one `hubPeer`. -/
  | established
  | packet (i : Nat) (data : Plain)
  | identify (i : Nat) (hash : Bytes)
  /-- The watchdog finds the link silent. -/
  | linkStale (i : Nat)
  /-- The remote tears the link down, or the watchdog gives it up. -/
  | linkClosed (i : Nat)
  | close

/-- A data packet arrives: closed links ignore it, stale ones come back to life. -/
def HubState.receive (s : HubState) (i : Nat) (handler : HubAct) :
    Option (Effect HubState HubAct) :=
  let p := s.peer i
  if s.accepted ≤ i ∨ p.status = .closed then none
  else some { shared := s.set i { p with status := .active }, spawn := [[handler]] }

def hubEnv (s : HubState) : HubEvent → Option (Effect HubState HubAct)
  | .established =>
    some { shared := { s with accepted := s.accepted + 1 }, spawn := [acceptLink s.accepted] }
  | .packet i data => s.receive i (.deliver i data)
  | .identify i hash =>
    if hash.length ≠ identityLength then none else s.receive i (.checkRemote i hash)
  | .linkStale i =>
    if i < s.accepted ∧ (s.peer i).status = .active then
      some { shared := s.set i { s.peer i with status := .stale } }
    else none
  | .linkClosed i =>
    if i < s.accepted ∧ (s.peer i).status ≠ .closed then
      some { shared := s.set i { s.peer i with status := .closed } }
    else none
  | .close => some { shared := s, spawn := [[.hubClose]] }

def hubProgram : Program HubState HubAct HubChoice HubEvent :=
  ⟨fun _ => hubAct text cfg, hubEnv⟩

abbrev HubConf := Config HubState HubAct

def hubInit : HubConf := ⟨{}, []⟩

/-- One step of the hub. -/
abbrev hubStep (c : HubConf) (e : Event HubChoice HubEvent) : Option HubConf :=
  (hubProgram text cfg).step c e

end

/-! ## A sample hub -/

/-- A hub with the default limits, on which runs can be replayed. -/
def sampleHub : HubConfig :=
  { name := goString "hub", version := goString "1", limits := {}, sender := List.replicate 16 7 }

/-- The goroutine takes its next `n` steps, and all its sends succeed. -/
def turns (t n : Nat) : List (Event HubChoice HubEvent) :=
  List.replicate n (.run t { fresh := some (List.replicate 8 1, 0) })

def sampleIdentity : Bytes := List.replicate 16 1

def sampleRoom : Bytes := [108, 111, 98, 98, 121]

def sampleHello : Envelope := { type := typeHello, sender := sampleIdentity }

def sampleJoin : Envelope :=
  { type := typeJoin, sender := sampleIdentity, room := sampleRoom, hasRoom := true }

/-- The first link is accepted and then identified. -/
def sampleRegistration : List (Event HubChoice HubEvent) :=
  [.env .established] ++ turns 0 5 ++ [.env (.identify 0 sampleIdentity)] ++ turns 1 7

/-- And its HELLO is answered. -/
def sampleActive : List (Event HubChoice HubEvent) :=
  sampleRegistration ++ [.env (.packet 0 (some sampleHello))] ++ turns 2 1 ++ turns 3 7

/-- The first link is accepted, says HELLO and then identifies itself. -/
def sampleBuffered : List (Event HubChoice HubEvent) :=
  [.env .established] ++ turns 0 5 ++ [.env (.packet 0 (some sampleHello))] ++ turns 1 1 ++
  turns 2 4 ++ [.env (.identify 0 sampleIdentity)] ++ turns 3 12

end Rrc
