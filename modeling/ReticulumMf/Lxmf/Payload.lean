-- SUMMARY: Decoding of the LXMF payload array: splitting, map limits, and the conversion of its elements.
import ReticulumMf.Msgpack.Decode

/-!
# The LXMF payload

A payload is a MessagePack array of timestamp, title, content and fields, with
an optional stamp. `decodePayloadAndSplit` decodes it and cuts out the bytes
that are hashed; `asBytes`, `asFields` and `asTimestamp` convert the elements.
-/

namespace Lxmf

open Msgpack ByteReader

/-- The failures behind `ErrInvalidPayload` and the decoder's own. -/
inductive PayloadError where
  | decode (e : ByteReader.Error DecodeError)
  | tooFewElements (n : Int)
  | tooLong (n : Nat)
  | trailingBytes
  | arrayLength (n : Nat)
  | timestampType
  | expectedBytes
  | expectedMap
  | fieldKeyRange (n : Int)
  | fieldKeyType
  | fieldKeyString (k : Bytes)
  deriving DecidableEq, Repr

/-! ## The map decoder -/

/-- The limits of `msgpackMapCtx`; its counter is `Levels.mapDepth`. -/
structure MapCtx where
  maxDepth : Nat
  maxPairs : Nat
  deriving DecidableEq, Repr

def msgpackMapMaxDepth : Nat := 32
def msgpackMapMaxPairs : Nat := 8192

def mapCtx : MapCtx := ⟨msgpackMapMaxDepth, msgpackMapMaxPairs⟩

def floatIsNaN (expBits fracBits : Nat) (bits : Nat) : Bool :=
  bits / 2 ^ fracBits % 2 ^ expBits = 2 ^ expBits - 1 && bits % 2 ^ fracBits ≠ 0

/-- Go's `==` on float bit patterns: a NaN equals nothing, the two zeros are equal. -/
def floatEq (expBits fracBits : Nat) (a b : Nat) : Bool :=
  let magnitude (n : Nat) := n % 2 ^ (expBits + fracBits)
  !floatIsNaN expBits fracBits a && !floatIsNaN expBits fracBits b &&
    (a = b || (magnitude a = 0 && magnitude b = 0))

/-- Go's `==` on map keys behind an `any`. -/
def keyEq : Scalar → Scalar → Bool
  | .float32 a, .float32 b => floatEq 8 23 a.toNat b.toNat
  | .float64 a, .float64 b => floatEq 11 52 a.toNat b.toNat
  | a, b => a = b

/-- `out[k] = v` on a `map[any]any`. -/
def insertEntry (k : Scalar) (v : Any) : List (Scalar × Any) → List (Scalar × Any)
  | [] => [(k, v)]
  | e :: es => if keyEq e.1 k then (k, v) :: es else e :: insertEntry k v es

def MapCtx.enter (ctx : MapCtx) (l : Levels) : Except DecodeError Levels :=
  if l.mapDepth ≥ ctx.maxDepth then .error (.mapNesting ctx.maxDepth)
  else .ok { l with mapDepth := l.mapDepth + 1 }

def MapCtx.leave (l : Levels) : Levels := { l with mapDepth := l.mapDepth - 1 }

/-- `out[k] = v` for the next key and value; a key that Go cannot compare is rejected. -/
def decodeEntry (decodeInterface : Decoder Any) (out : List (Scalar × Any)) :
    Decoder (List (Scalar × Any)) := do
  match ← decodeInterface with
  | .scalar k => return insertEntry k (← decodeInterface) out
  | _ => fail .mapKey

def MapCtx.decodeMap (ctx : MapCtx) (decodeInterface : Decoder Any) : Decoder Any :=
  within ctx.enter MapCtx.leave do
    match ← decodeMapLen with
    | none => return .scalar .nil
    | some n =>
      if n > ctx.maxPairs then fail (.mapTooLarge n)
      else .map .any <$> iterate (decodeEntry decodeInterface) n []

/-! ## Splitting the payload -/

/-- Every level of nesting takes one of the two counters up, so their limits
bound it. -/
def decodeFuel (ctx : MapCtx) : Nat := defaultDecodeDepthLimit + ctx.maxDepth + 1

/-- `dec.DecodeInterface` of the decoder set up for a payload. -/
def decodeElement : Decoder Any := decodeInterface mapCtx.decodeMap (decodeFuel mapCtx) false

def appendElement (out : List Any) : Decoder (List Any) := return out ++ [← decodeElement]

def runDecoder {α : Type} (x : Decoder α) (i : Input Levels) :
    Except PayloadError (α × Input Levels) :=
  match x i with
  | .ok a j => .ok (a, j)
  | .error e _ => .error (.decode e)

def decodePayloadAndSplit (data : Bytes) : Except PayloadError (List Any × Bytes) := do
  let (arrLen, r) ← runDecoder decodeArrayLen ⟨data, ⟨0, 0⟩⟩
  match arrLen with
  | none => .error (.tooFewElements (-1))
  | some arrLen =>
    if arrLen < 4 then .error (.tooFewElements arrLen)
    else if arrLen > 15 then .error (.tooLong arrLen)
    else
      let posAfterHeader := data.length - r.rest.length
      let (out, r) ← runDecoder (iterate appendElement 4 []) r
      let posAfterFourth := data.length - r.rest.length
      let hashed :=
        if arrLen = 4 then data
        else 0x94 :: (data.take posAfterFourth).drop posAfterHeader
      let (out, r) ← runDecoder (iterate appendElement (arrLen - 4) out) r
      if r.rest.length ≠ 0 then .error .trailingBytes
      else if arrLen ≠ 4 ∧ arrLen ≠ 5 then .error (.arrayLength arrLen)
      else .ok (out, hashed)

/-! ## Elements -/

/-- The `float64` nearest to an integer, ties to even, as a bit pattern. -/
def float64OfInt (n : Int) : BitVec 64 :=
  let m := n.natAbs
  let l := Nat.log2 m
  let magnitude :=
    if m = 0 then 0
    else if l ≤ 52 then (l + 1023) * 2 ^ 52 + (m - 2 ^ l) * 2 ^ (52 - l)
    else
      let unit := 2 ^ (l - 52)
      let q := m / unit
      let r := m % unit
      let up := if 2 * r > unit ∨ (2 * r = unit ∧ q % 2 = 1) then 1 else 0
      -- a carry out of the fraction moves on into the exponent
      (l + 1023) * 2 ^ 52 + (q - 2 ^ 52) + up
  BitVec.ofNat 64 ((if n < 0 then 2 ^ 63 else 0) + magnitude)

def asTimestamp : Any → Except PayloadError (BitVec 64)
  | .scalar (.float64 bits) => .ok bits
  | .scalar (.float32 bits) => .ok (float64OfFloat32 bits)
  | .scalar (.int .int _) | .scalar (.int .uint _) => .error .timestampType
  | .scalar (.int k v) => .ok (float64OfInt (k.value v))
  | _ => .error .timestampType

/-- A byte slice, which may be nil. -/
abbrev GoBytes := Option Bytes

/-- `append([]byte(nil), x...)`, which is nil for an empty `x`. -/
def cloneBytes (x : Bytes) : GoBytes := if x = [] then none else some x

def asBytes : Any → Except PayloadError GoBytes
  | .scalar .nil => .ok none
  | .bytes b => .ok (cloneBytes b)
  | .typedNil .bytes => .ok none
  | .scalar (.string s) => .ok (some s)
  | _ => .error .expectedBytes

def asByteKey : Scalar → Except PayloadError UInt8
  | .int .int _ | .int .uint _ => .error .fieldKeyType
  | .int k v =>
    if 0 ≤ k.value v ∧ k.value v ≤ 0xff then .ok (UInt8.ofNat (k.value v).toNat)
    else .error (.fieldKeyRange (k.value v))
  | _ => .error .fieldKeyType

/-- The entries of a `map[byte]any`. A map that the code builds is kept sorted
by key, so that equal Go maps are equal lists. -/
abbrev FieldMap := List (UInt8 × Any)

/-- `out[key] = v` on a `map[byte]any`. -/
def FieldMap.insert (key : UInt8) (v : Any) : FieldMap → FieldMap
  | [] => [(key, v)]
  | e :: es =>
    if key < e.1 then (key, v) :: e :: es
    else if key = e.1 then (key, v) :: es
    else e :: FieldMap.insert key v es

def byteKey (k : UInt8) : Scalar := .int .uint8 k.toBitVec

def FieldMap.toAny (m : FieldMap) : Any := .map .byte (m.map fun e => (byteKey e.1, e.2))

mutual

/-- `normalizeFieldValue`, over the entries in the order in which they are visited. -/
def normalizeFieldValue : Any → Except PayloadError Any
  | .map .any es => FieldMap.toAny <$> asFieldEntries [] es
  | .map .byte es => FieldMap.toAny <$> asFieldEntries [] es
  | .map .string es => .ok (.map .string es)
  | .slice xs => .slice <$> normalizeAll xs
  | .typedNil (.map .any) => .ok (FieldMap.toAny [])
  | .typedNil (.map .byte) => .ok (FieldMap.toAny [])
  | .typedNil (.map .string) => .ok (.typedNil (.map .string))
  | .typedNil .slice => .ok (.slice [])
  | .typedNil .bytes => .ok (.typedNil .bytes)
  | .scalar s => .ok (.scalar s)
  | .bytes b => .ok (.bytes b)
  | .unsupported t => .ok (.unsupported t)

def normalizeAll : List Any → Except PayloadError (List Any)
  | [] => .ok []
  | x :: xs => do
    let y ← normalizeFieldValue x
    let ys ← normalizeAll xs
    return y :: ys

/-- The loop of `asFields` over a `map[any]any`. On the keys of a `map[byte]any`
`asByteKey` is the identity, so it is the loop of `normalizeFieldValue` as well. -/
def asFieldEntries (out : FieldMap) : List (Scalar × Any) → Except PayloadError FieldMap
  | [] => .ok out
  | (k, v) :: es => do
    let key ← asByteKey k
    let normalized ← normalizeFieldValue v
    asFieldEntries (out.insert key normalized) es

end

/-- The loop of `asFields` over a `map[string]any`. -/
def asFieldsString (out : FieldMap) : List (Scalar × Any) → Except PayloadError FieldMap
  | [] => .ok out
  | (.string [c], v) :: es => do
    let normalized ← normalizeFieldValue v
    asFieldsString (out.insert c normalized) es
  | (.string k, _) :: _ => .error (.fieldKeyString k)
  | _ :: _ => .error .fieldKeyType

/-- `asFields`; none is the nil map. -/
def asFields : Any → Except PayloadError (Option FieldMap)
  | .scalar .nil => .ok none
  | .map .any es => some <$> asFieldEntries [] es
  | .typedNil (.map .any) => .ok (some [])
  | .map .string es => some <$> asFieldsString [] es
  | .typedNil (.map .string) => .ok (some [])
  | _ => .error .expectedMap

/-- Which element of the payload a failed conversion is about. -/
inductive PayloadElement where
  | payload | timestamp | title | content | fields | stamp
  deriving DecidableEq, Repr

/-- What `applyPayload` sets on a message. -/
structure Payload where
  timestamp : BitVec 64
  title : GoBytes
  content : GoBytes
  fields : Option FieldMap
  stamp : GoBytes

/-- Attach the element that was being converted, as `fmt.Errorf("title: %w", err)`. -/
def naming {α : Type} (element : PayloadElement) (x : Except PayloadError α) :
    Except (PayloadElement × PayloadError) α :=
  x.mapError (element, ·)

/-- The stamp, if there is a fifth element. -/
def asStamp : List Any → Except PayloadError GoBytes
  | [] => .ok none
  | p4 :: _ => asBytes p4

/-- `applyPayload`. The order `o` is the one in which `asFields` and
`normalizeFieldValue` visit the decoded maps. -/
def applyPayload (o : MapOrder) (payload : List Any) :
    Except (PayloadElement × PayloadError) Payload :=
  match payload with
  | p0 :: p1 :: p2 :: p3 :: ps => do
    let timestamp ← naming .timestamp (asTimestamp p0)
    let title ← naming .title (asBytes p1)
    let content ← naming .content (asBytes p2)
    let fields ← naming .fields (asFields (o.visit [] p3))
    let stamp ← naming .stamp (asStamp ps)
    return { timestamp, title, content, fields, stamp }
  | _ => .error (.payload, .tooFewElements payload.length)

end Lxmf
