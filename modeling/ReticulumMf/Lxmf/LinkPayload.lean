-- SUMMARY: A payload handed to a link as a packet or as a resource, and when that succeeds.
import ReticulumMf.Lib.Except
import ReticulumMf.Lxmf.Propagation

/-!
# Payloads over a link

`sendPropagationPayload` sends a short payload as a link packet. A longer one becomes a
resource, whose status it polls until the resource is complete. The link activates a
resource and may cancel it; it never calls `MarkSegmentComplete`, which alone makes a
resource complete. So no payload longer than `LinkPacketMaxContent` is ever reported as
sent (`LinkEnv.sendPropagationPayload_ok_iff`).
-/

namespace Lxmf

/-! ## Resources -/

inductive ResourceStatus where
  | pending | active | complete | failed | cancelled
  deriving DecidableEq, Repr

structure Resource where
  data : Bytes
  status : ResourceStatus
  deriving DecidableEq, Repr

inductive ResourceError where
  | tooLarge
  deriving DecidableEq, Repr

namespace Resource

def defaultSegmentSize : Nat := 384
def maxSegments : Nat := 65535

/-- `resource.New` on a byte slice. The number of segments is a `uint16`. -/
def new (data : Bytes) : Except ResourceError Resource :=
  let segments := ((data.length + defaultSegmentSize - 1) / defaultSegmentSize) % 2 ^ 16
  if segments > maxSegments then .error .tooLarge else .ok ⟨data, .pending⟩

def activate (r : Resource) : Resource :=
  { r with status := if r.status = .pending then .active else r.status }

def cancel (r : Resource) : Resource :=
  { r with status := if r.status = .pending ∨ r.status = .active then .cancelled else r.status }

end Resource

/-- What a link calls on a resource that it sends. -/
inductive ResourceCall where
  | activate | cancel
  deriving DecidableEq, Repr

def Resource.after (r : Resource) : ResourceCall → Resource
  | .activate => r.activate
  | .cancel => r.cancel

theorem Resource.new_eq (data : Bytes) : Resource.new data = .ok ⟨data, .pending⟩ := by
  have hmod := Nat.mod_lt ((data.length + defaultSegmentSize - 1) / defaultSegmentSize) (by decide : 0 < 2 ^ 16)
  rw [Resource.new, if_neg (by unfold maxSegments; omega)]

/-- A link does not complete a resource. -/
theorem Resource.after_ne_complete {r : Resource} (h : r.status ≠ .complete) (call : ResourceCall) :
    (r.after call).status ≠ .complete := by
  cases call with
  | activate =>
    simp only [Resource.after, Resource.activate]
    split <;> simp [h]
  | cancel =>
    simp only [Resource.after, Resource.cancel]
    split <;> simp [h]

/-! ## Transmissions -/

/-- What a link answers: whether it takes a packet, whether it sends the parts of a
resource, and what it calls on the resource before each poll of its status, the last of
which is after the deadline. -/
structure LinkEnv where
  sendPacket : Bytes → Except String Unit
  transfer : Bytes → Except String Unit
  polls : List (List ResourceCall)

inductive Transmission where
  | packet (payload : Bytes)
  | resource (payload : Bytes)
  deriving DecidableEq, Repr

inductive TransmitError where
  | link (e : String)
  | emptyPayload
  | packet (e : String)
  | newResource (e : ResourceError)
  | sendResource (e : String)
  | transferFailed
  | transferTimeout
  deriving DecidableEq, Repr

def LinkEnv.sendResource (lnk : LinkEnv) (res : Resource) : Except String Resource :=
  (lnk.transfer res.data).map fun _ => res.activate

/-- The loop that waits for a resource. -/
def awaitResource (res : Resource) : List (List ResourceCall) → Except TransmitError Unit
  | [] => .error .transferTimeout
  | calls :: polls =>
    let res := calls.foldl Resource.after res
    match res.status with
    | .complete => .ok ()
    | .failed | .cancelled => .error .transferFailed
    | .pending | .active => awaitResource res polls

/-- `sendPropagationPayload`: what the link was given, and the result. -/
def LinkEnv.sendPropagationPayload (lnk : LinkEnv) (payload : Bytes) :
    Option Transmission × Except TransmitError Unit :=
  if payload.length = 0 then (none, .error .emptyPayload)
  else if payload.length ≤ linkPacketMaxContent then
    (some (.packet payload), (lnk.sendPacket payload).mapError .packet)
  else
    match Resource.new payload with
    | .error e => (none, .error (.newResource e))
    | .ok res =>
      match lnk.sendResource res with
      | .error e => (some (.resource payload), .error (.sendResource e))
      | .ok res => (some (.resource payload), awaitResource res lnk.polls)

/-! ## What succeeds -/

theorem foldl_after_ne_complete {r : Resource} (h : r.status ≠ .complete) (calls : List ResourceCall) :
    (calls.foldl Resource.after r).status ≠ .complete := by
  induction calls generalizing r with
  | nil => exact h
  | cons call calls ih => exact ih (Resource.after_ne_complete h call)

/-- The wait ends in an error, however long it is. -/
theorem awaitResource_ne_ok {res : Resource} (h : res.status ≠ .complete) (polls : List (List ResourceCall)) :
    awaitResource res polls ≠ .ok () := by
  induction polls generalizing res with
  | nil => simp [awaitResource]
  | cons calls polls ih =>
    have hres := foldl_after_ne_complete h calls
    rw [awaitResource]
    split
    · exact absurd ‹_› hres
    · simp
    · simp
    · exact ih hres
    · exact ih hres

/-- Only packets are reported as sent. -/
theorem LinkEnv.sendPropagationPayload_ok_iff {lnk : LinkEnv} {payload : Bytes} :
    (lnk.sendPropagationPayload payload).2 = .ok () ↔
      payload.length ≠ 0 ∧ payload.length ≤ linkPacketMaxContent ∧ lnk.sendPacket payload = .ok () := by
  unfold LinkEnv.sendPropagationPayload
  by_cases hempty : payload.length = 0
  · simp [hempty]
  · rw [if_neg hempty]
    by_cases hle : payload.length ≤ linkPacketMaxContent
    · rw [if_pos hle]
      simp [hempty, hle]
    · rw [if_neg hle, Resource.new_eq]
      refine iff_of_false ?_ fun h => hle h.2.1
      dsimp only [LinkEnv.sendResource]
      cases lnk.transfer payload with
      | error e => simp [Except.map]
      | ok u => exact awaitResource_ne_ok (by simp [Resource.activate]) _

/-- What the link is given, whatever it answers. -/
theorem LinkEnv.sendPropagationPayload_given (lnk : LinkEnv) {payload : Bytes} (h : payload.length ≠ 0) :
    (lnk.sendPropagationPayload payload).1 =
      some (if payload.length ≤ linkPacketMaxContent then .packet payload else .resource payload) := by
  unfold LinkEnv.sendPropagationPayload
  rw [if_neg h, Resource.new_eq]
  split
  · rfl
  · dsimp only
    split <;> rfl

end Lxmf
