-- SUMMARY: RRC envelopes and their body values, and the normal forms of room names and nicknames.
import ReticulumMf.Lib.BigEndian

/-!
# Envelopes

An RRC message is one envelope: a CBOR map with a type, a message ID, a
timestamp, the sender's identity hash, and optionally a room, a body and a
nickname. Go strings are byte lists here, as they may hold any bytes.
-/

namespace Rrc

def goString (s : String) : Bytes := s.toUTF8.toList

/-! ## Values and envelopes -/

/-- A value as the CBOR decoder returns it in an `any`. -/
inductive CborValue where
  | nil
  | bool (b : Bool)
  | uint (n : Nat)
  /-- The negative integer `-1 - n`. -/
  | nint (n : Nat)
  | bytes (b : Bytes)
  | text (s : Bytes)
  | array (items : List CborValue)
  | map (entries : List (CborValue × CborValue))
  /-- A float, by its bits. -/
  | float (bits : Nat)

def messageIDLength : Nat := 8
def identityLength : Nat := 16

def typeHello : Nat := 1
def typeWelcome : Nat := 2
def typeJoin : Nat := 10
def typeJoined : Nat := 11
def typePart : Nat := 12
def typeParted : Nat := 13
def typeMsg : Nat := 20
def typeNotice : Nat := 21
def typeAction : Nat := 22
def typePing : Nat := 30
def typePong : Nat := 31
def typeError : Nat := 40

structure Envelope where
  version : Nat := 1
  type : Nat
  msgID : Bytes := []
  timestamp : Nat := 0
  sender : Bytes
  room : Bytes := []
  body : CborValue := .nil
  nick : Bytes := []
  hasRoom : Bool := false
  hasBody : Bool := false
  hasNick : Bool := false

/-- What `NewEnvelope` takes from outside: the random message ID and the clock.
None if the random source fails. -/
abbrev Fresh := Option (Bytes × Nat)

def newEnvelope (fresh : Fresh) (msgType : Nat) (sender : Bytes) : Option Envelope :=
  if sender.length ≠ identityLength then none
  else fresh.map fun (id, millis) => { type := msgType, msgID := id, timestamp := millis, sender }

theorem newEnvelope_some {fresh : Fresh} {msgType : Nat} {sender : Bytes} {e : Envelope}
    (h : newEnvelope fresh msgType sender = some e) :
    sender.length = identityLength ∧ ∃ id millis, fresh = some (id, millis) ∧
      e = { type := msgType, msgID := id, timestamp := millis, sender } := by
  unfold newEnvelope at h
  split at h
  · cases h
  · rename_i hsender
    obtain ⟨⟨id, millis⟩, hfresh, rfl⟩ := Option.map_eq_some_iff.mp h
    exact ⟨not_not.mp hsender, id, millis, hfresh, rfl⟩

theorem newEnvelope_type {fresh : Fresh} {msgType : Nat} {sender : Bytes} {env : Envelope}
    (h : newEnvelope fresh msgType sender = some env) : env.type = msgType := by
  obtain ⟨-, id, millis, -, rfl⟩ := newEnvelope_some h
  rfl

/-! ## Hub limits and the WELCOME body -/

structure HubLimits where
  maxNickBytes : Nat := 32
  maxRoomsPerSession : Nat := 32
  maxRoomNameBytes : Nat := 64
  maxMsgBodyBytes : Nat := 350
  rateLimitMsgsPerMinute : Nat := 60

def HubLimits.toMap (l : HubLimits) : CborValue :=
  .map [(.uint 0, .uint l.maxNickBytes), (.uint 1, .uint l.maxRoomNameBytes),
    (.uint 2, .uint l.maxMsgBodyBytes), (.uint 3, .uint l.maxRoomsPerSession),
    (.uint 4, .uint l.rateLimitMsgsPerMinute)]

/-! ## Room names and nicknames -/

/-- The functions of Go's `strings` and `unicode` packages that room names and
nicknames go through. -/
structure GoText where
  trimSpace : Bytes → Bytes
  toLower : Bytes → Bytes
  /-- The runes that ranging over the string yields. -/
  runes : Bytes → List Nat
  /-- What `WriteRune` appends. -/
  writeRune : Nat → Bytes
  isControl : Nat → Bool

/-- Go's functions on ASCII strings. -/
def GoText.ascii : GoText where
  trimSpace s :=
    let isSpace := fun b : UInt8 => b ∈ [9, 10, 11, 12, 13, 32]
    ((s.dropWhile isSpace).reverse.dropWhile isSpace).reverse
  toLower s := s.map fun b => if 65 ≤ b ∧ b ≤ 90 then b + 32 else b
  runes s := s.map UInt8.toNat
  writeRune r := [UInt8.ofNat r]
  isControl r := r < 32 || r = 127

variable (text : GoText)

def normalizeRoom (name : Bytes) : Bytes := text.toLower (text.trimSpace name)

def sanitizeNick (nick : Bytes) : Bytes :=
  let nick := text.trimSpace nick
  if nick = [] then []
  else ((text.runes nick).filter fun r =>
    !(r = 0 || r = 10 || r = 13) && !text.isControl r).flatMap text.writeRune

end Rrc
