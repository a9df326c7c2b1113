-- SUMMARY: LXMF messages: packing on the sender's side, unpacking and verifying on the receiver's.
import Mathlib.Data.BitVec
import ReticulumMf.Msgpack.Encode
import ReticulumMf.Lxmf.Payload

/-!
# LXMF messages

`LXMessage.pack` encodes the payload, hashes and signs it, and encodes it a
second time when the message carries a stamp. `unpackFromBytes` decodes what was
received, recomputes hash and signed bytes from the wire, and checks the
signature with the identity a resolver returns for the source.

Every call that iterates a Go map takes the `MapOrder` of its traversal: `pack`
one for each of its two encodings, `unpackFromBytes` one for the conversion of
the decoded fields.
-/

namespace Lxmf

open Msgpack

def destinationLength : Nat := 16
def signatureLength : Nat := 64

def stateGenerating : UInt8 := 0x00
def methodUnknown : UInt8 := 0x00
def representationUnknown : UInt8 := 0x00
def unverifiedSourceUnknown : UInt8 := 0x01
def unverifiedSignatureInvalid : UInt8 := 0x02

/-- The cryptography the message code calls. -/
structure Crypto (Identity : Type) where
  sha256 : Bytes → Bytes
  sha256_length : ∀ b, (sha256 b).length = 32
  verify : Identity → (data signature : Bytes) → Bool

/-- A message. Title and content may be nil slices, `fields` a nil map; the
other byte slices are used by their content only. -/
structure LXMessage where
  destinationHash : Bytes
  sourceHash : Bytes
  title : GoBytes := none
  content : GoBytes := none
  fields : Option FieldMap := none
  timestamp : BitVec 64 := 0
  stamp : Bytes := []
  hash : Bytes := []
  signature : Bytes := []
  packed : Bytes := []
  state : UInt8 := stateGenerating
  method : UInt8 := methodUnknown
  representation : UInt8 := representationUnknown
  incoming : Bool := false
  signatureValidated : Bool := false
  unverifiedReason : UInt8 := 0
  stampValue : Int := 0
  stampValid : Bool := false

/-! ## Pack -/

def goBytesAny : GoBytes → Any
  | none => .typedNil .bytes
  | some b => .bytes b

def fieldsAny : Option FieldMap → Any
  | none => .typedNil (.map .byte)
  | some m => m.toAny

def LXMessage.payloadList (m : LXMessage) (includeStamp : Bool) : List Any :=
  [.scalar (.float64 m.timestamp), goBytesAny m.title, goBytesAny m.content, fieldsAny m.fields] ++
    if includeStamp && m.stamp ≠ [] then [.bytes m.stamp] else []

def encodePayload (o : MapOrder) (payload : List Any) : Except EncodeError Bytes :=
  encode true (o.visit [] (.slice payload))

/-- `m.Timestamp == 0`, for either zero. -/
def isZeroFloat (bits : BitVec 64) : Bool := bits = 0 || bits = 2 ^ 63

/-- A zero timestamp is replaced by the clock. -/
def LXMessage.withTimestamp (now : BitVec 64) (m : LXMessage) : LXMessage :=
  { m with timestamp := if isZeroFloat m.timestamp then now else m.timestamp }

/-- The bytes that are hashed. -/
def hashedPart (destinationHash sourceHash hashedPayload : Bytes) : Bytes :=
  destinationHash ++ sourceHash ++ hashedPayload

inductive PackError where
  | signerRequired
  | destinationLength
  | sourceLength
  | encode (e : EncodeError)
  | sign (e : String)
  | signatureLength (n : Nat)
  | encodeStamped (e : EncodeError)
  deriving DecidableEq, Repr

abbrev Signer := Bytes → Except String Bytes

/-- What a successful `Pack` returns, together with the bytes it handed to the
signer. -/
structure Packing where
  packed : Bytes
  signedPart : Bytes
  deriving DecidableEq, Repr

/-- `Pack`: the message afterwards and the result. A failing call leaves what it
has set so far. The clock reads `now`; `o₁` and `o₂` are the map orders of the
encodings without and with the stamp. -/
def LXMessage.pack {Identity : Type} (cr : Crypto Identity) (now : BitVec 64) (o₁ o₂ : MapOrder)
    (signer : Option Signer) (m : LXMessage) : LXMessage × Except PackError Packing :=
  match signer with
  | none => (m, .error .signerRequired)
  | some sign =>
    if m.destinationHash.length ≠ destinationLength then (m, .error .destinationLength)
    else if m.sourceHash.length ≠ destinationLength then (m, .error .sourceLength)
    else
      let m := m.withTimestamp now
      match encodePayload o₁ (m.payloadList false) with
      | .error e => (m, .error (.encode e))
      | .ok hashedPayload =>
        let hashedPart := hashedPart m.destinationHash m.sourceHash hashedPayload
        let m := { m with hash := cr.sha256 hashedPart }
        let signedPart := hashedPart ++ m.hash
        match sign signedPart with
        | .error e => (m, .error (.sign e))
        | .ok signature =>
          if signature.length ≠ signatureLength then
            (m, .error (.signatureLength signature.length))
          else
            let m := { m with signature := signature, signatureValidated := true }
            let payload :=
              if m.stamp = [] then .ok hashedPayload else encodePayload o₂ (m.payloadList true)
            match payload with
            | .error e => (m, .error (.encodeStamped e))
            | .ok packedPayload =>
              let packed := m.destinationHash ++ m.sourceHash ++ signature ++ packedPayload
              ({ m with packed := packed }, .ok ⟨packed, signedPart⟩)

/-! ## Unpack -/

inductive UnpackError where
  | destinationLength
  | tooShort (minimum : Nat)
  | payload (e : PayloadError)
  | element (part : PayloadElement) (e : PayloadError)
  | resolve (e : String)
  | signatureInvalid
  deriving DecidableEq, Repr

/-- A `SourceResolver`; no identity and no error means that the source is unknown. -/
abbrev Resolver (Identity : Type) := Bytes → Except String (Option Identity)

/-- The two results of `UnpackFromBytes`. On an invalid signature both are set. -/
structure Unpacked where
  msg : Option LXMessage
  err : Option UnpackError

/-- A message as received, before its signature is checked, and the bytes that
were hashed. -/
structure Parsed where
  msg : LXMessage
  hashedPart : Bytes

/-- The bytes the signature is checked against. -/
def Parsed.signedPart (p : Parsed) : Bytes := p.hashedPart ++ p.msg.hash

/-- The message `UnpackFromBytes` fills in from the wire and the decoded payload. -/
def inboundMessage {Identity : Type} (cr : Crypto Identity) (dst inner hashedPayload : Bytes)
    (p : Payload) : Parsed :=
  let source := inner.take destinationLength
  let signature := (inner.drop destinationLength).take signatureLength
  let packedPayload := inner.drop (destinationLength + signatureLength)
  let hashedPart := hashedPart dst source hashedPayload
  { hashedPart := hashedPart
    msg := {
      destinationHash := dst
      sourceHash := source
      signature := signature
      incoming := true
      timestamp := p.timestamp
      title := p.title
      content := p.content
      fields := p.fields
      stamp := p.stamp.getD []
      hash := cr.sha256 hashedPart
      packed := dst ++ source ++ signature ++ packedPayload } }

/-- The part of `UnpackFromBytes` before the source is resolved. -/
def parseInner {Identity : Type} (cr : Crypto Identity) (o : MapOrder)
    (dst inner : Bytes) : Except UnpackError Parsed :=
  if dst.length ≠ destinationLength then .error .destinationLength
  else if inner.length < destinationLength + signatureLength then
    .error (.tooShort (destinationLength + signatureLength))
  else do
    let (payload, hashedPayload) ←
      (decodePayloadAndSplit (inner.drop (destinationLength + signatureLength))).mapError .payload
    let p ← (applyPayload o payload).mapError fun e => .element e.1 e.2
    return inboundMessage cr dst inner hashedPayload p

/-- The part of `UnpackFromBytes` that resolves the source and verifies. -/
def verifySource {Identity : Type} (cr : Crypto Identity) (resolver : Option (Resolver Identity))
    (p : Parsed) : Unpacked :=
  match resolver with
  | none => ⟨some { p.msg with unverifiedReason := unverifiedSourceUnknown }, none⟩
  | some resolve =>
    match resolve p.msg.sourceHash with
    | .error e => ⟨none, some (.resolve e)⟩
    | .ok none => ⟨some { p.msg with unverifiedReason := unverifiedSourceUnknown }, none⟩
    | .ok (some sourceID) =>
      if cr.verify sourceID p.signedPart p.msg.signature then
        ⟨some { p.msg with signatureValidated := true }, none⟩
      else
        ⟨some { p.msg with unverifiedReason := unverifiedSignatureInvalid },
          some .signatureInvalid⟩

def unpackFromBytes {Identity : Type} (cr : Crypto Identity) (o : MapOrder) (dst inner : Bytes)
    (resolver : Option (Resolver Identity)) : Unpacked :=
  match parseInner cr o dst inner with
  | .error e => ⟨none, some e⟩
  | .ok p => verifySource cr resolver p

def unpack {Identity : Type} (cr : Crypto Identity) (o : MapOrder) (data : Bytes)
    (resolver : Option (Resolver Identity)) : Unpacked :=
  if data.length < 2 * destinationLength + signatureLength then
    ⟨none, some (.tooShort (2 * destinationLength + signatureLength))⟩
  else unpackFromBytes cr o (data.take destinationLength) (data.drop destinationLength) resolver

end Lxmf
