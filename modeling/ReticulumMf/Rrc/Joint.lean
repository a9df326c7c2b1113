-- SUMMARY: One client and its session at the hub, with the packets in flight between them.
import ReticulumMf.Lib.Replay
import ReticulumMf.Rrc.ClientSteps
import ReticulumMf.Rrc.EnvelopeCodec
import ReticulumMf.Rrc.Membership
import ReticulumMf.Rrc.Relay
import ReticulumMf.Rrc.Welcome

/-!
# Client and hub

The client's link is link `i` of the hub. A packet that either side has sent is in
flight until it arrives, once, in any order; it then starts a handler, and the
handlers of both sides run in any order too. The texts in the packets are valid
UTF-8, so the receiver unmarshals what was sent (`Envelope.received`). The hub
serves other links as it likes. The client's user makes requests; the link is not
closed and `Close` is not called.

The hub decides on a JOIN or PART under its lock and sends the reply later. The
changes it has decided on and the client has not yet made are kept beside the run.
-/

namespace Rrc

open Threads Transition Replay

/-! ## The joint system -/

structure Joint where
  client : ClientConf
  hub : HubConf
  /-- The packets on their way to the hub. -/
  up : List Envelope := []
  /-- The packets on their way to the client. -/
  down : List Envelope := []

inductive JointEvent where
  /-- A goroutine of the client takes a step, or its user does something. -/
  | client (e : Event ClientChoice ClientEvent)
  | hub (e : Event HubChoice HubEvent)
  /-- The `n`th of the packets on their way to the hub arrives. -/
  | toHub (n : Nat)
  | toClient (n : Nat)

/-- Packets arrive from the network only, and the link stays open. -/
def clientAllowed : Event ClientChoice ClientEvent → Bool
  | .env (.packet _) | .env .linkClosed | .env .close => false
  | _ => true

def hubAllowed (i : Nat) : Event HubChoice HubEvent → Bool
  | .env (.packet j _) => j ≠ i
  | _ => true

section

variable (text : GoText) (ccfg : ClientConfig) (hcfg : HubConfig) (i : Nat)

def Joint.clientStep (j : Joint) (e : Event ClientChoice ClientEvent) : Option Joint :=
  (Rrc.clientStep text ccfg j.client e).map fun c =>
    { j with client := c, up := j.up ++ c.shared.sent.drop j.client.shared.sent.length }

/-- The envelopes that went out on session `i`. -/
def sentOn (sent : List (Nat × Envelope)) : List Envelope :=
  sent.filterMap fun e => if e.1 = i then some e.2 else none

def Joint.hubStep (j : Joint) (e : Event HubChoice HubEvent) : Option Joint :=
  (Rrc.hubStep text hcfg j.hub e).map fun c =>
    { j with hub := c, down := j.down ++ sentOn i (c.shared.sent.drop j.hub.shared.sent.length) }

def jointStep (j : Joint) : JointEvent → Option Joint
  | .client e => if clientAllowed e then j.clientStep text ccfg e else none
  | .hub e => if hubAllowed i e then j.hubStep text hcfg i e else none
  | .toHub n =>
    j.up[n]?.bind fun env =>
      { j with up := j.up.eraseIdx n }.hubStep text hcfg i (.env (.packet i (some env.received)))
  | .toClient n =>
    j.down[n]?.bind fun env =>
      { j with down := j.down.eraseIdx n }.clientStep text ccfg (.env (.packet (some env.received)))

end

/-! ## Changes of membership -/

abbrev RoomChange := Change Bytes

def Reply.change : Reply → Option RoomChange
  | .joined room _ _ => some ⟨room, true⟩
  | .parted room _ => some ⟨room, false⟩
  | _ => none

/-- The action sends a change to session `i`. -/
def HubAct.change (i : Nat) : HubAct → Option RoomChange
  | .reply j m => if j = i then m.change else none
  | _ => none

section

variable (text : GoText)

def Envelope.change (env : Envelope) : Option RoomChange :=
  if env.type = typeJoined then some ⟨normalizeRoom text env.room, true⟩
  else if env.type = typeParted then some ⟨normalizeRoom text env.room, false⟩
  else none

/-- The change an action of the client makes. -/
def ClientAct.applies : ClientAct → Option RoomChange
  | .addRoom env => some ⟨normalizeRoom text env.room, true⟩
  | .removeRoom env => some ⟨normalizeRoom text env.room, false⟩
  | _ => none

/-- The change an action of the client makes or leads to. -/
def ClientAct.change : ClientAct → Option RoomChange
  | .handleInbound (some env) | .dispatch env => env.change text
  | a => a.applies text

/-- The changes decided on and not yet made, after one more event: the replies that a
step of the hub gives rise to are added, and what the client applies is struck. -/
def noteChanges (hcfg : HubConfig) (i : Nat) (j : Joint) (e : JointEvent) (log : List RoomChange) :
    List RoomChange :=
  match e with
  | .hub (.run t x) =>
    ((j.hub.next t).bind (hubAct text hcfg x j.hub.shared)).elim log fun r =>
      log ++ r.push.filterMap (HubAct.change i)
  | .client (.run t _) =>
    ((j.client.next t).bind (ClientAct.applies text)).elim log log.erase
  | _ => log

/-- A step of client and hub, with the log. -/
abbrev loggedStep (ccfg : ClientConfig) (hcfg : HubConfig) (i : Nat) :
    Joint × List RoomChange → JointEvent → Option (Joint × List RoomChange) :=
  recorded (jointStep text ccfg hcfg i) (noteChanges text hcfg i)

/-- The hub's JOINED and PARTED go out, and the client makes the changes of each room
in the order in which the hub decided on them. -/
def inOrder (i : Nat) (p : Joint × List RoomChange) : JointEvent → Bool
  | .hub (.run t x) =>
    match p.1.hub.next t with
    | some (.reply j m) =>
      j ≠ i || m.change.isNone || ((p.1.hub.shared.peer i).canSend x && x.fresh.isSome)
    | _ => true
  | .client (.run t _) =>
    match (p.1.client.next t).bind (ClientAct.applies text) with
    | some ch => isOldest ch p.2
    | none => true
  | _ => true

end

/-! ## Agreement -/

/-- No packet is in flight and no handler is running for the session. -/
structure Joint.Settled (i : Nat) (j : Joint) : Prop where
  up : j.up = []
  down : j.down = []
  client : Quiescent j.client
  hub : HandlersFinished i j.hub

def Client.roomSet (s : Client) : Set Bytes := {room | room ∈ s.rooms}

def HubState.roomSet (s : HubState) (i : Nat) : Set Bytes := {room | room ∈ (s.peer i).rooms}

/-- Whenever everything has settled and the session is registered, client and hub
agree on the rooms. -/
def Joint.Agrees (i : Nat) (j : Joint) : Prop :=
  j.Settled i → j.hub.shared.Current i → j.client.shared.roomSet = j.hub.shared.roomSet i

/-- An active client and its session at a hub, in any state the hub can reach, before
the requests. -/
structure Joint.Started (text : GoText) (hcfg : HubConfig) (i : Nat) (j : Joint) : Prop where
  reachable : ∃ es, run (Rrc.hubStep text hcfg) hubInit es = some j.hub
  settled : j.Settled i
  current : j.hub.shared.Current i
  active : j.client.shared.state = .active ∧ (j.hub.shared.peer i).active = true
  rooms : j.client.shared.roomSet = j.hub.shared.roomSet i

end Rrc
