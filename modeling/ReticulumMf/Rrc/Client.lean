-- SUMMARY: The RRC client: Dial, its session and link, and the atomic steps of its goroutines.
import ReticulumMf.Rrc.Hub

/-!
# The client

A client is one session over one link. `Dial` runs on the caller's goroutine;
each inbound packet, each closing of the link and each request run on others. As
in the hub, the atomic steps are the `c.mu` critical sections and the calls made
between them.

`Dial` waits in a `select` over the welcome channel, the timer and the closed
channel. It takes a case that is ready when it gets there; if there is none it
is parked, and the first case to become ready wakes it.
-/

namespace Rrc

open Threads

/-! ## The WELCOME and JOINED bodies -/

/-- `asUint64` on what the decoder returns: only negative integers come as signed ones. -/
def asUint64 : CborValue → Option Nat
  | .uint n => some n
  | _ => none

def asString : CborValue → Option Bytes
  | .text s => some s
  | _ => none

/-- `asBytes` on a value of the body. -/
def cborBytes : CborValue → Option Bytes
  | .bytes b => some b
  | _ => none

def coerceUintMap : CborValue → Option (List (Nat × CborValue))
  | .map entries => some (entries.filterMap fun (k, v) => (asUint64 k).map (·, v))
  | _ => none

/-- Limits that are missing in the map are zero. -/
def parseHubLimits (v : CborValue) : Option HubLimits :=
  (coerceUintMap v).map fun raw =>
    let limit := fun k => ((raw.lookup k).bind asUint64).getD 0
    { maxNickBytes := limit 0, maxRoomNameBytes := limit 1, maxMsgBodyBytes := limit 2,
      maxRoomsPerSession := limit 3, rateLimitMsgsPerMinute := limit 4 }

/-- A `WelcomeBody`: none stands for a field whose presence flag is not set. -/
structure WelcomeBody where
  hubName : Option Bytes := none
  hubVersion : Option Bytes := none
  capabilities : Option (List (Nat × CborValue)) := none
  limits : Option HubLimits := none

def parseWelcomeBody : CborValue → Option WelcomeBody
  | .nil => some {}
  | body => (coerceUintMap body).map fun raw =>
    { hubName := (raw.lookup 0).bind asString
      hubVersion := (raw.lookup 1).bind asString
      capabilities := (raw.lookup 2).bind coerceUintMap
      limits := (raw.lookup 3).bind parseHubLimits }

def parseJoinedMembers : CborValue → List Bytes
  | .array items => (items.filterMap cborBytes).filter (·.length = identityLength)
  | _ => []

/-! ## State -/

inductive ClientState where
  | connected
  | awaitingWelcome
  | active
  | disconnected
  deriving DecidableEq, Repr

inductive ClientError where
  | notWelcome
  | emptyRoom
  | notMember
  | notSent
  deriving DecidableEq, Repr

/-- How `Dial` returns: with the client, or with an error. -/
inductive DialResult where
  | client
  | dialTimeout
  | identifyFailed
  | helloFailed
  | welcomeTimeout
  | sessionClosed
  deriving DecidableEq, Repr

inductive ClientCall where
  | onWelcome (body : WelcomeBody) (env : Envelope)
  | onJoined (room : Bytes) (members : List Bytes) (env : Envelope)
  | onParted (room : Bytes) (env : Envelope)
  /-- `OnMsg`, `OnNotice`, `OnAction`, `OnError` or `OnPong`, by the envelope's type. -/
  | onEnvelope (env : Envelope)
  | onClose

/-- The case a `select` of `Dial` takes. -/
inductive DialCase where
  | welcome (env : Envelope)
  | timeout
  | closed

/-- Where `Dial` is with its `select`. -/
inductive DialWait where
  | before
  | parked
  | ended (k : DialCase)

inductive Timer where
  | stopped
  | running
  | fired
  deriving DecidableEq, Repr

structure ClientConfig where
  nick : Bytes := []
  name : Bytes := []
  version : Bytes := []
  capabilities : Option (List (Nat × CborValue)) := none
  sender : Bytes

/-- The calls of the API that send something. -/
inductive ClientRequest where
  | join (room : Bytes)
  | part (room : Bytes)
  /-- `SendMsg`, `SendNotice` and `SendAction`, by the type they send. -/
  | content (msgType : Nat) (room body : Bytes)
  | ping (body : CborValue)

structure Client where
  state : ClientState := .connected
  rooms : GoSet Bytes := ∅
  welcome : Option WelcomeBody := none
  /-- The session's nickname and its closed flag. -/
  nick : Bytes := []
  closed : Bool := false
  /-- The status of the link, none until it is established. -/
  status : Option LinkStatus := none
  /-- The welcome channel has room for one envelope. -/
  welcomeCh : Option Envelope := none
  closedCh : Bool := false
  timer : Timer := .stopped
  wait : DialWait := .before
  /-- What `Dial` has returned. -/
  result : Option DialResult := none
  sent : List Envelope := []
  calls : List ClientCall := []
  /-- The requests that have returned. -/
  returned : List (ClientRequest × Option ClientError) := []

def Client.requireActive (s : Client) : Option ClientError :=
  if s.state ≠ .active then some .notWelcome else none

/-! ## Sending -/

/-- What a step of the client cannot know in advance. -/
structure ClientChoice where
  fresh : Fresh := none
  /-- Whether marshalling the envelope and handing the packet to the link succeed. -/
  transmitted : Bool := true
  /-- Whether the deadline for the link has passed. -/
  expired : Bool := false
  /-- The case a `select` takes if more than one is ready: the welcome channel, the
  timer or the closed channel. -/
  pick : Fin 3 := 0

def Client.sendEnvelope (s : Client) (x : ClientChoice) (env : Envelope) : Client × Bool :=
  if s.closed ∨ s.status ≠ some .active ∨ x.transmitted = false then (s, false)
  else ({ s with sent := s.sent ++ [env] }, true)

def Client.sendType (s : Client) (x : ClientChoice) (sender : Bytes) (msgType : Nat)
    (room : Bytes) (body : CborValue) (nick : Bytes) : Client × Bool :=
  match newEnvelope x.fresh msgType sender with
  | none => (s, false)
  | some env =>
    let env := if room ≠ [] then { env with room, hasRoom := true } else env
    let env := if isNil body then env else { env with body, hasBody := true }
    let env := if nick ≠ [] then { env with nick, hasNick := true } else env
    s.sendEnvelope x env

/-- The body of the HELLO: a map of what the configuration gives, if anything. -/
def ClientConfig.helloBody (cfg : ClientConfig) : CborValue :=
  let entry (k : Nat) (v : Bytes) : List (CborValue × CborValue) :=
    if v ≠ [] then [(.uint k, .text v)] else []
  let caps : List (CborValue × CborValue) := cfg.capabilities.toList.map fun m =>
    (.uint 2, .map (m.map fun (k, v) => (.uint k, v)))
  let m := entry 0 cfg.name ++ entry 1 cfg.version ++ caps
  if m.isEmpty then .nil else .map m

/-! ## Actions -/

/-- The atomic steps of the client's goroutines. -/
inductive ClientAct where
  -- Dial, from the wait for the link on
  | awaitLink
  | identify
  | sendHello
  | setAwaiting
  | startTimer
  | select
  | resume
  | setActive (env : Envelope)
  | dialReturn (r : DialResult)
  -- the link, and the closed callbacks of link and session
  | teardown
  | closeCh
  | onLinkClosed
  -- session.handleInbound and dispatch
  | handleInbound (data : Plain)
  | dispatch (env : Envelope)
  | offerWelcome (env : Envelope)
  | addRoom (env : Envelope)
  | removeRoom (env : Envelope)
  | pong (env : Envelope)
  | call (k : ClientCall)
  -- requests, and Close
  | requireActive (r : ClientRequest)
  | checkMember (r : ClientRequest)
  | send (r : ClientRequest)
  | sessionClose

/-- The envelope a request sends: type, room and body, and whether the nickname goes
with it. -/
def ClientRequest.fields (text : GoText) : ClientRequest → Nat × Bytes × CborValue × Bool
  | .join room => (typeJoin, normalizeRoom text room, .nil, true)
  | .part room => (typePart, normalizeRoom text room, .nil, true)
  | .content msgType room body => (msgType, normalizeRoom text room, .text body, true)
  | .ping body => (typePing, [], body, false)

/-- What an active client does next for a request: JOIN checks the name, room content
checks the membership. -/
def ClientRequest.next (text : GoText) (r : ClientRequest) : Option ClientError × List ClientAct :=
  match r with
  | .join room => if normalizeRoom text room = [] then (some .emptyRoom, []) else (none, [.send r])
  | .content .. => (none, [.checkMember r])
  | .part _ | .ping _ => (none, [.send r])

/-- What `dispatch` does with an envelope once it has read the state. -/
def clientDispatch (state : ClientState) (env : Envelope) : List ClientAct :=
  if env.type = typeWelcome then
    if state = .awaitingWelcome then [.offerWelcome env] else []
  else if env.type = typeJoined then [.addRoom env]
  else if env.type = typeParted then [.removeRoom env]
  else if env.type ∈ [typeMsg, typeNotice, typeAction, typeError, typePong] then
    [.call (.onEnvelope env)]
  else []

/-- The cases of `Dial`'s `select` that are ready, with the choice that takes each. -/
def Client.ready (s : Client) : List (Fin 3 × DialCase) :=
  s.welcomeCh.toList.map (fun env => (0, .welcome env)) ++
  (if s.timer = .fired then [(1, .timeout)] else []) ++
  (if s.closedCh then [(2, .closed)] else [])

/-- What `Dial` does after its `select`. -/
def DialCase.next : DialCase → List ClientAct
  | .welcome env => [.setActive env]
  | .timeout => [.teardown, .dialReturn .welcomeTimeout]
  | .closed => [.dialReturn .sessionClosed]

/-- A case becomes ready: a parked `select` takes it. -/
def Client.wake (s : Client) (k : DialCase) (otherwise : Client) : Client :=
  match s.wait with
  | .parked => { s with wait := .ended k }
  | .before | .ended _ => otherwise

section

variable (text : GoText) (cfg : ClientConfig)

def Client.selectAct (x : ClientChoice) (s : Client) : Option (Effect Client ClientAct) :=
  match s.ready with
  | [] => some { shared := { s with wait := .parked }, push := [.resume] }
  | ready =>
    (ready.lookup x.pick).map fun k =>
      { shared := { s with wait := .ended k, welcomeCh := if x.pick = 0 then none else s.welcomeCh }
        push := k.next }

def Client.requestReturns (s : Client) (r : ClientRequest) (err : Option ClientError) : Client :=
  { s with returned := s.returned ++ [(r, err)] }

def clientAct (x : ClientChoice) (s : Client) : ClientAct → Option (Effect Client ClientAct)
  | .awaitLink =>
    if s.status = some .active then some { shared := s, push := [.identify] }
    else if x.expired then some { shared := s, push := [.teardown, .dialReturn .dialTimeout] }
    else some { shared := s, push := [.awaitLink] }
  | .identify =>
    if s.status ≠ some .active ∨ x.transmitted = false then
      some { shared := s, push := [.teardown, .dialReturn .identifyFailed] }
    else some { shared := s, push := [.sendHello] }
  | .sendHello =>
    let (s', ok) := s.sendType x cfg.sender typeHello [] cfg.helloBody s.nick
    some { shared := s',
           push := if ok then [.setAwaiting] else [.teardown, .dialReturn .helloFailed] }
  | .setAwaiting =>
    some { shared := { s with state := .awaitingWelcome }, push := [.startTimer] }
  | .startTimer => some { shared := { s with timer := .running }, push := [.select] }
  | .select => s.selectAct x
  | .resume =>
    match s.wait with
    | .ended k => some { shared := s, push := k.next }
    | .before | .parked => none
  | .setActive env =>
    let body := (parseWelcomeBody env.body).getD {}
    some { shared := { s with welcome := some body, state := .active },
           push := [.call (.onWelcome body env), .dialReturn .client] }
  | .dialReturn r => some { shared := { s with result := some r } }
  | .teardown =>
    if s.status = some .active then
      some { shared := { s with status := some .closed }, push := [.closeCh, .onLinkClosed] }
    else some { shared := s }
  | .closeCh => some { shared := { s.wake .closed s with closedCh := true } }
  | .onLinkClosed =>
    if s.state = .disconnected then some { shared := s }
    else some { shared := { s with state := .disconnected, rooms := ∅ }, push := [.call .onClose] }
  | .handleInbound data =>
    match data with
    | none => some { shared := s }
    | some env =>
      if env.type = typePing then some { shared := s, push := [.pong env, .dispatch env] }
      else some { shared := s, push := [.dispatch env] }
  | .dispatch env => some { shared := s, push := clientDispatch s.state env }
  | .offerWelcome env =>
    -- a full channel drops the envelope
    some { shared := s.wake (.welcome env) { s with welcomeCh := s.welcomeCh.or (some env) } }
  | .addRoom env =>
    let room := normalizeRoom text env.room
    some { shared := { s with rooms := s.rooms.insert room () },
           push := [.call (.onJoined room (parseJoinedMembers env.body) env)] }
  | .removeRoom env =>
    let room := normalizeRoom text env.room
    some { shared := { s with rooms := s.rooms.erase room },
           push := [.call (.onParted room env)] }
  | .pong env => some { shared := (s.sendType x cfg.sender typePong [] env.body []).1 }
  | .call k => some { shared := { s with calls := s.calls ++ [k] } }
  | .requireActive r =>
    match s.requireActive with
    | some err => some { shared := s.requestReturns r (some err) }
    | none =>
      match r.next text with
      | (some err, _) => some { shared := s.requestReturns r (some err) }
      | (none, next) => some { shared := s, push := next }
  | .checkMember r =>
    if (r.fields text).2.1 ∈ s.rooms then some { shared := s, push := [.send r] }
    else some { shared := s.requestReturns r (some .notMember) }
  | .send r =>
    let (msgType, room, body, withNick) := r.fields text
    let (s', ok) := s.sendType x cfg.sender msgType room body (if withNick then s.nick else [])
    some { shared := s'.requestReturns r (if ok then none else some .notSent) }
  | .sessionClose =>
    if s.closed then some { shared := s }
    else some { shared := { s with closed := true }, push := [.teardown, .onLinkClosed] }

/-! ## Events -/

/-- What happens to the client from outside. -/
inductive ClientEvent where
  | established
  | packet (data : Plain)
  /-- The watchdog finds the link silent. -/
  | linkStale
  /-- The remote tears the link down, or the watchdog gives it up. -/
  | linkClosed
  | timerFires
  | request (r : ClientRequest)
  | setNick (nick : Bytes)
  | close

def clientEnv (s : Client) : ClientEvent → Option (Effect Client ClientAct)
  | .established =>
    if s.status = none then some { shared := { s with status := some .active } } else none
  | .packet data =>
    if s.status = none ∨ s.status = some .closed then none
    else some { shared := { s with status := some .active }, spawn := [[.handleInbound data]] }
  | .linkStale =>
    if s.status = some .active then some { shared := { s with status := some .stale } } else none
  | .linkClosed =>
    some { shared := { s with status := some .closed }, spawn := [[.closeCh, .onLinkClosed]] }
  | .timerFires =>
    if s.timer = .running then
      some { shared := { s.wake .timeout s with timer := .fired } }
    else none
  | .request r => some { shared := s, spawn := [[.requireActive r]] }
  | .setNick nick => some { shared := { s with nick := sanitizeNick text nick } }
  | .close => some { shared := s, spawn := [[.sessionClose, .onLinkClosed]] }

def clientProgram : Program Client ClientAct ClientChoice ClientEvent :=
  ⟨fun _ => clientAct text cfg, clientEnv text⟩

abbrev ClientConf := Config Client ClientAct

/-- `Dial` has created the session and started the link. -/
def clientInit : ClientConf := ⟨{ nick := sanitizeNick text cfg.nick }, [[.awaitLink]]⟩

/-- One step of the client. -/
abbrev clientStep (c : ClientConf) (e : Event ClientChoice ClientEvent) : Option ClientConf :=
  (clientProgram text cfg).step c e

end

/-! ## A sample client -/

def sampleClient : ClientConfig := { sender := sampleIdentity }

/-- The goroutine takes its next `n` steps, and all its sends succeed. -/
def clientTurns (t n : Nat) : List (Event ClientChoice ClientEvent) :=
  List.replicate n (.run t { fresh := some (List.replicate 8 1, 0) })

def sampleWelcome : Envelope := { type := typeWelcome, sender := List.replicate 16 7 }

def sampleJoined : Envelope :=
  { type := typeJoined, sender := List.replicate 16 7, room := sampleRoom, hasRoom := true }

/-- `Dial` says HELLO and waits, and a WELCOME wakes it. -/
def sampleDial : List (Event ClientChoice ClientEvent) :=
  [.env .established] ++ clientTurns 0 6 ++ [.env (.packet (some sampleWelcome))] ++
  clientTurns 1 3

end Rrc
