-- SUMMARY: The configuration of the daemon: its settings, and the text they are written to and read from.
import ReticulumMf.Lib.Decimal
import ReticulumMf.Lib.Utf8
import ReticulumMf.Lxmf.Payload

/-!
# Configuration files

`WriteConfig` writes one line for each setting, in sections, without any escaping.
`ParseConfig` reads lines of the same kind over the defaults. A line ends before the
first `#`, and both sides of the first `=` are trimmed.

Each setting is listed once, with the text it is written as and the value it is read
as. The listings have the order of the source, which is the same in both functions.
-/

namespace Lxmf

/-! ## Settings -/

structure LXMFConfig where
  displayName : Bytes
  announceAtStart : Bool
  announceIntervalMinutes : Int64
  deliveryTransferMaxAcceptedSize : BitVec 64
  onInbound : Bytes
  deriving DecidableEq

structure PropagationConfig where
  enableNode : Bool
  nodeName : Bytes
  authRequired : Bool
  announceAtStart : Bool
  announceIntervalMinutes : Int64
  autopeer : Bool
  autopeerMaxDepth : Int64
  messageStorageLimitMB : BitVec 64
  propagationTransferMaxAcceptedKB : BitVec 64
  propagationMessageMaxAcceptedKB : BitVec 64
  propagationSyncMaxAcceptedKB : BitVec 64
  propagationStampCostTarget : Int64
  propagationStampCostFlexibility : Int64
  peeringCost : Int64
  remotePeeringCostMax : Int64
  prioritiseDestinations : List Bytes
  controlAllowed : List Bytes
  staticPeers : List Bytes
  maxPeers : Int64
  fromStaticOnly : Bool
  deriving DecidableEq

structure LoggingConfig where
  level : Int64
  deriving DecidableEq

/-- The floats are bit patterns; a nil list is an empty one. -/
structure Config where
  lxmf : LXMFConfig
  propagation : PropagationConfig
  logging : LoggingConfig
  deriving DecidableEq

def logCritical : Int64 := 1
def logInfo : Int64 := 4
def logExtreme : Int64 := 7
def propagationStampCostMin : Int64 := 13

/-- The bytes of a string constant. -/
def textBytes (s : String) : Bytes := Utf8.encode s.toList

def defaultConfig : Config where
  lxmf := {
    displayName := textBytes "Anonymous Peer"
    announceAtStart := false
    announceIntervalMinutes := 0
    deliveryTransferMaxAcceptedSize := float64OfInt 1000
    onInbound := [] }
  propagation := {
    enableNode := false
    nodeName := []
    authRequired := false
    announceAtStart := true
    announceIntervalMinutes := 360
    autopeer := true
    autopeerMaxDepth := 6
    messageStorageLimitMB := float64OfInt 500
    propagationTransferMaxAcceptedKB := float64OfInt 256
    propagationMessageMaxAcceptedKB := float64OfInt 256
    propagationSyncMaxAcceptedKB := float64OfInt 10240
    propagationStampCostTarget := 16
    propagationStampCostFlexibility := 3
    peeringCost := 18
    remotePeeringCostMax := 26
    prioritiseDestinations := []
    controlAllowed := []
    staticPeers := []
    maxPeers := 20
    fromStaticOnly := false }
  logging := { level := logInfo }

/-! ## Values -/

/-- The conversions between `float64` and `int64` and the texts of `strconv`:
`FormatFloat(f, 'f', -1, 64)`, and `ParseFloat(s, 64)`, which may fail. -/
structure FloatText where
  toInt64 : BitVec 64 → Int64
  ofInt64 : Int64 → BitVec 64
  formatFloat : BitVec 64 → Bytes
  parseFloat : Bytes → Option (BitVec 64)

def isNaN (f : BitVec 64) : Bool := f.toNat % 2 ^ 63 > 0x7ff * 2 ^ 52

/-- The numbers in the order of the floats; both zeros are 0. -/
def floatKey (f : BitVec 64) : Int :=
  if f.toNat < 2 ^ 63 then f.toNat else 2 ^ 63 - f.toNat

def floatLT (f g : BitVec 64) : Bool := !isNaN f && !isNaN g && floatKey f < floatKey g
def floatEQ (f g : BitVec 64) : Bool := !isNaN f && !isNaN g && floatKey f = floatKey g

/-- The constants 0.38 and 0.005. -/
def minTransferSize : BitVec 64 := 0x3fd851eb851eb852
def minStorageLimit : BitVec 64 := 0x3f747ae147ae147b

/-- `strings.ToLower`, for the letters that occur in the words it is compared with. No
other character is lowered to one of them. -/
def toLower (s : Bytes) : Bytes := s.map fun b => if 65 ≤ b ∧ b ≤ 90 then b + 32 else b

def parseBool (v : Bytes) : Bool :=
  toLower (Utf8.trimSpace v) ∈ ["1", "yes", "y", "true", "on"].map textBytes

def boolStr (b : Bool) : Bytes := if b then textBytes "yes" else textBytes "no"

def itoa (n : Int64) : Bytes := Decimal.format n.toInt

def atoi (s : Bytes) : Option Int64 :=
  (Decimal.parse s).bind fun n =>
    if -2 ^ 63 ≤ n ∧ n < 2 ^ 63 then some (Int64.ofInt n) else none

def parseInt (v : Bytes) : Int64 :=
  let v := Utf8.trimSpace v
  if v = [] then 0 else (atoi v).getD 0

def comma : UInt8 := 0x2c

def parseList (v : Bytes) : List Bytes :=
  let v := Utf8.trimSpace v
  if v = [] then [] else ((v.splitOn comma).map Utf8.trimSpace).filter (· ≠ [])

/-- `strings.Join(es, ", ")`. -/
def joinList (es : List Bytes) : Bytes := (textBytes ", ").intercalate es

def FloatText.floatStr (ft : FloatText) (f : BitVec 64) : Bytes :=
  if floatEQ f (ft.ofInt64 (ft.toInt64 f)) then itoa (ft.toInt64 f) else ft.formatFloat f

def FloatText.parseFloatOrZero (ft : FloatText) (v : Bytes) : BitVec 64 :=
  let v := Utf8.trimSpace v
  if v = [] then 0 else (ft.parseFloat v).getD 0

/-! ## The settings as they are listed -/

/-- A setting: its key, the place of its value, and the texts of the value. -/
structure Setting where
  key : String
  Value : Type
  get : Config → Value
  set : Config → Value → Config
  write : Value → Bytes
  parse : Bytes → Value

namespace Setting

def string (key : String) (get : Config → Bytes) (set : Config → Bytes → Config) : Setting :=
  ⟨key, Bytes, get, set, id, id⟩

def bool (key : String) (get : Config → Bool) (set : Config → Bool → Config) : Setting :=
  ⟨key, Bool, get, set, boolStr, parseBool⟩

/-- The bound is applied to what is read. -/
def int (key : String) (get : Config → Int64) (set : Config → Int64 → Config)
    (bound : Int64 → Int64) : Setting :=
  ⟨key, Int64, get, set, itoa, fun v => bound (parseInt v)⟩

def float (ft : FloatText) (key : String) (get : Config → BitVec 64)
    (set : Config → BitVec 64 → Config) (least : BitVec 64) : Setting :=
  ⟨key, BitVec 64, get, set, ft.floatStr, fun v =>
    let f := ft.parseFloatOrZero v
    if floatLT f least then least else f⟩

def list (key : String) (get : Config → List Bytes) (set : Config → List Bytes → Config) : Setting :=
  ⟨key, List Bytes, get, set, joinList, parseList⟩

/-- What `WriteConfig` writes. -/
def text (s : Setting) (cfg : Config) : Bytes := s.write (s.get cfg)

end Setting

structure ConfigSection where
  name : String
  settings : List Setting

section

variable (ft : FloatText)

def lxmfSection : ConfigSection where
  name := "lxmf"
  settings := [
    .string "display_name" (·.lxmf.displayName) fun c v => { c with lxmf.displayName := v },
    .bool "announce_at_start" (·.lxmf.announceAtStart) fun c v => { c with lxmf.announceAtStart := v },
    .int "announce_interval" (·.lxmf.announceIntervalMinutes)
      (fun c v => { c with lxmf.announceIntervalMinutes := v }) id,
    .float ft "delivery_transfer_max_accepted_size" (·.lxmf.deliveryTransferMaxAcceptedSize)
      (fun c v => { c with lxmf.deliveryTransferMaxAcceptedSize := v }) minTransferSize,
    .string "on_inbound" (·.lxmf.onInbound) fun c v => { c with lxmf.onInbound := v }]

def propagationSection : ConfigSection where
  name := "propagation"
  settings := [
    .bool "enable_node" (·.propagation.enableNode) fun c v => { c with propagation.enableNode := v },
    .string "node_name" (·.propagation.nodeName) fun c v => { c with propagation.nodeName := v },
    .bool "auth_required" (·.propagation.authRequired)
      fun c v => { c with propagation.authRequired := v },
    .bool "announce_at_start" (·.propagation.announceAtStart)
      fun c v => { c with propagation.announceAtStart := v },
    .int "announce_interval" (·.propagation.announceIntervalMinutes)
      (fun c v => { c with propagation.announceIntervalMinutes := v }) id,
    .bool "autopeer" (·.propagation.autopeer) fun c v => { c with propagation.autopeer := v },
    .int "autopeer_maxdepth" (·.propagation.autopeerMaxDepth)
      (fun c v => { c with propagation.autopeerMaxDepth := v }) id,
    .float ft "message_storage_limit" (·.propagation.messageStorageLimitMB)
      (fun c v => { c with propagation.messageStorageLimitMB := v }) minStorageLimit,
    .float ft "propagation_transfer_max_accepted_size" (·.propagation.propagationTransferMaxAcceptedKB)
      (fun c v => { c with propagation.propagationTransferMaxAcceptedKB := v }) minTransferSize,
    .float ft "propagation_message_max_accepted_size" (·.propagation.propagationMessageMaxAcceptedKB)
      (fun c v => { c with propagation.propagationMessageMaxAcceptedKB := v }) minTransferSize,
    .float ft "propagation_sync_max_accepted_size" (·.propagation.propagationSyncMaxAcceptedKB)
      (fun c v => { c with propagation.propagationSyncMaxAcceptedKB := v }) minTransferSize,
    .int "propagation_stamp_cost_target" (·.propagation.propagationStampCostTarget)
      (fun c v => { c with propagation.propagationStampCostTarget := v }) (max · propagationStampCostMin),
    .int "propagation_stamp_cost_flexibility" (·.propagation.propagationStampCostFlexibility)
      (fun c v => { c with propagation.propagationStampCostFlexibility := v }) (max · 0),
    .int "peering_cost" (·.propagation.peeringCost)
      (fun c v => { c with propagation.peeringCost := v }) (max · 0),
    .int "remote_peering_cost_max" (·.propagation.remotePeeringCostMax)
      (fun c v => { c with propagation.remotePeeringCostMax := v }) (max · 0),
    .list "prioritise_destinations" (·.propagation.prioritiseDestinations)
      fun c v => { c with propagation.prioritiseDestinations := v },
    .list "control_allowed" (·.propagation.controlAllowed)
      fun c v => { c with propagation.controlAllowed := v },
    .list "static_peers" (·.propagation.staticPeers) fun c v => { c with propagation.staticPeers := v },
    .int "max_peers" (·.propagation.maxPeers) (fun c v => { c with propagation.maxPeers := v }) id,
    .bool "from_static_only" (·.propagation.fromStaticOnly)
      fun c v => { c with propagation.fromStaticOnly := v }]

def loggingSection : ConfigSection where
  name := "logging"
  settings := [
    .int "loglevel" (·.logging.level) (fun c v => { c with logging.level := v })
      fun n => let level := max n logCritical; if level > logExtreme then logExtreme else level]

def configSections : List ConfigSection := [lxmfSection ft, propagationSection ft, loggingSection]

/-! ## Writing -/

def ConfigSection.emit (cfg : Config) (sec : ConfigSection) : Bytes :=
  textBytes "[" ++ textBytes sec.name ++ textBytes "]\n\n" ++
    sec.settings.flatMap (fun s => textBytes s.key ++ textBytes " = " ++ s.text cfg ++ textBytes "\n") ++
    textBytes "\n"

def writeConfig (cfg : Config) : Bytes := (configSections ft).flatMap (ConfigSection.emit cfg)

end

/-! ## Reading -/

inductive ConfigError where
  | emptyHeader (line : Nat)
  | malformed (line : Nat) (text : Bytes)
  | outsideSection (key : Bytes) (line : Nat)
  | emptyKey (line : Nat)
  | tooLong
  deriving DecidableEq, Repr

/-- A `map[string]map[string]string`. -/
abbrev ConfigMaps := Bytes → Option (Bytes → Option Bytes)

structure ReaderState where
  out : ConfigMaps
  current : Bytes
  lineNo : Nat

def newline : UInt8 := 0x0a
def carriageReturn : UInt8 := 0x0d
def hash : UInt8 := 0x23
def equalsSign : UInt8 := 0x3d

/-- The size of the scanner's buffer. A line has to leave room for its end. -/
def maxTokenSize : Nat := 2 ^ 20

/-- The lines of `bufio.ScanLines`. What follows the last newline is a line if it is not
empty. -/
def rawLines (data : Bytes) : List Bytes :=
  let lines := data.splitOn newline
  if lines.getLast? = some [] then lines.dropLast else lines

def dropCR (line : Bytes) : Bytes :=
  if line.getLast? = some carriageReturn then line.dropLast else line

/-- `strings.Cut(line, "=")`. -/
def cutEquals (line : Bytes) : Option (Bytes × Bytes) :=
  if equalsSign ∈ line then
    some (line.takeWhile (· ≠ equalsSign), (line.dropWhile (· ≠ equalsSign)).drop 1)
  else none

def ConfigMaps.addSection (out : ConfigMaps) (name : Bytes) : ConfigMaps :=
  if (out name).isSome then out else Function.update out name (some fun _ => none)

def ConfigMaps.assign (out : ConfigMaps) (name k v : Bytes) : ConfigMaps :=
  Function.update out name ((out name).map fun m => Function.update m k (some v))

/-- One round of the loop of `readSectionedKV`. -/
def readLine (st : ReaderState) (raw : Bytes) : Except ConfigError ReaderState :=
  if raw.length ≥ maxTokenSize then .error .tooLong
  else
    let lineNo := st.lineNo + 1
    let line := Utf8.trimSpace ((dropCR raw).takeWhile (· ≠ hash))
    if line = [] then .ok { st with lineNo }
    else if textBytes "[" <+: line ∧ textBytes "]" <:+ line then
      let current := Utf8.trimSpace (line.drop 1).dropLast
      if current = [] then .error (.emptyHeader lineNo)
      else .ok ⟨st.out.addSection current, current, lineNo⟩
    else
      match cutEquals line with
      | none => .error (.malformed lineNo line)
      | some (before, after) =>
        if st.current = [] then .error (.outsideSection (Utf8.trimSpace before) lineNo)
        else
          let k := Utf8.trimSpace before
          let v := Utf8.trimSpace after
          if k = [] then .error (.emptyKey lineNo)
          else .ok { st with out := st.out.assign st.current k v, lineNo }

def readSectionedKV (data : Bytes) : Except ConfigError ConfigMaps :=
  ReaderState.out <$> (rawLines data).foldlM readLine ⟨fun _ => none, [], 0⟩

/-- The settings that have a value are assigned. -/
def ConfigSection.apply (sec : ConfigSection) (values : Bytes → Option Bytes) (cfg : Config) : Config :=
  sec.settings.foldl (fun c s =>
    match values (textBytes s.key) with
    | none => c
    | some v => s.set c (s.parse v)) cfg

def parseConfig (ft : FloatText) (data : Bytes) : Except ConfigError Config := do
  let maps ← readSectionedKV data
  return (configSections ft).foldl (fun c sec =>
    match maps (textBytes sec.name) with
    | none => c
    | some values => sec.apply values c) defaultConfig

end Lxmf
