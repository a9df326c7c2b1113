-- SUMMARY: Message containers: decoding the metadata around packed LXMF bytes.
import ReticulumMf.Msgpack.Typed
import ReticulumMf.Lxmf.Message

/-!
# Containers

A container stores the packed bytes of a message with its delivery metadata.
`unmarshalContainer` is `msgpack.Unmarshal` at that struct: a map from field
names, whose unknown entries are skipped, or an array of all five fields; what
follows the value is not looked at.
-/

namespace Lxmf

open Msgpack ByteReader

structure Container where
  state : UInt8 := 0
  lxmfBytes : Bytes := []
  transportEncrypted : Bool := false
  transportEncryption : Bytes := []
  method : UInt8 := 0
  deriving DecidableEq, Repr

inductive ContainerField where
  | state | lxmfBytes | transportEncrypted | transportEncryption | method
  deriving DecidableEq, Repr

namespace ContainerField

/-- The fields in the order of the struct. -/
def all : List ContainerField :=
  [state, lxmfBytes, transportEncrypted, transportEncryption, method]

def name : ContainerField → String
  | state => "state"
  | lxmfBytes => "lxmf_bytes"
  | transportEncrypted => "transport_encrypted"
  | transportEncryption => "transport_encryption"
  | method => "method"

def decodeValue (f : ContainerField) (c : Container) : Decoder Container :=
  match f with
  | state => return { c with state := ← decodeUint8Value }
  | lxmfBytes => return { c with lxmfBytes := ← decodeBytesValue }
  | transportEncrypted => return { c with transportEncrypted := ← decodeBoolValue }
  | transportEncryption => return { c with transportEncryption := ← decodeBytesValue }
  | method => return { c with method := ← decodeUint8Value }

end ContainerField

/-- One entry of a struct encoded as a map. -/
def decodeContainerEntry (c : Container) : Decoder Container := do
  let name ← decodeBytesValue
  match ContainerField.all.find? (fun f => f.name.toUTF8.toList = name) with
  | some f => f.decodeValue c
  | none => do
    skip skipFuel
    return c

def decodeContainerFields : List ContainerField → Container → Decoder Container
  | [], c => return c
  | f :: fs, c => do decodeContainerFields fs (← f.decodeValue c)

/-- `decodeStructValue`. A code that heads neither a map nor an array fails with
the error of `mapLen`. -/
def decodeContainer : Decoder Container := do
  let c ← readCode
  if c.isArray then
    match ← arrayLen c with
    | none => return {}
    | some n =>
      if n = 0 then return {}
      else if n ≠ ContainerField.all.length then fail .arrayStruct
      else decodeContainerFields ContainerField.all {}
  else
    match ← mapLen c with
    | none => return {}
    | some n => iterate decodeContainerEntry n {}

def unmarshalContainer (data : Bytes) : Except (ByteReader.Error DecodeError) Container :=
  match within enterDepth leaveDepth decodeContainer ⟨data, ⟨0, 0⟩⟩ with
  | .ok c _ => .ok c
  | .error e _ => .error e

inductive ContainerError where
  | decode (e : ByteReader.Error DecodeError)
  | missingBytes
  | unpack (e : UnpackError)
  deriving DecidableEq, Repr

def representationPacket : UInt8 := 0x01

/-- `UnpackContainer`: the container, the message and the error. -/
def unpackContainer {Identity : Type} (cr : Crypto Identity) (o : MapOrder) (data : Bytes)
    (resolver : Option (Resolver Identity)) :
    Container × Option LXMessage × Option ContainerError :=
  match unmarshalContainer data with
  | .error e => ({}, none, some (.decode e))
  | .ok c =>
    if c.lxmfBytes = [] then (c, none, some .missingBytes)
    else
      let u := unpack cr o c.lxmfBytes resolver
      match u.msg with
      | none => (c, none, u.err.map .unpack)
      | some m =>
        let m := { m with
          state := c.state
          method := c.method
          representation :=
            if c.method ≠ methodUnknown ∧ m.representation = representationUnknown
            then representationPacket else m.representation }
        (c, some m, u.err.map .unpack)

end Lxmf
