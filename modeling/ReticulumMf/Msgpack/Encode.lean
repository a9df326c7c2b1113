-- SUMMARY: The MessagePack encoder, and the syntax tree of what it writes.
import ReticulumMf.Lib.Except
import ReticulumMf.Lib.MsgpackFormat
import ReticulumMf.Msgpack.Value
import Mathlib.Tactic.SplitIfs

/-!
# The encoder

What `Encoder.Encode` appends to its buffer for a value, with compact floats and
interned strings off. The entries of a map are written in the order in which
they are listed; the iteration order of Go is applied beforehand by
`MapOrder.visit`.

`tree` is the syntax tree of the same output: `encode_eq_tree` relates the two,
and `tree_wf` shows that it is well-formed when all lengths fit.
-/

namespace Msgpack

inductive EncodeError where
  | unsupported (typ : String)
  deriving DecidableEq, Repr

/-! ## Numbers and lengths -/

/-- A code and a number of `w` bytes after it: `write1`, `write2`, `write4` and
`write8`, by width. -/
def write (w : Nat) (c : Code) (n : Nat) : Bytes :=
  c.toByte :: BigEndian.encode w n

/-- The unsigned number of width `w` bytes with the bits of `n`. -/
def unsigned (w : Nat) (n : Int) : Nat := (n % 2 ^ (8 * w)).toNat

def encodeUint (n : Nat) : Bytes :=
  if n ≤ 0x7f then [UInt8.ofNat n]
  else if n ≤ 0xff then write 1 .uint8 n
  else if n ≤ 0xffff then write 2 .uint16 n
  else if n ≤ 0xffffffff then write 4 .uint32 n
  else write 8 .uint64 n

def encodeInt (n : Int) : Bytes :=
  if n ≥ 0 then encodeUint n.toNat
  else if n ≥ -32 then [UInt8.ofNat (unsigned 1 n)]
  else if n ≥ -128 then write 1 .int8 (unsigned 1 n)
  else if n ≥ -32768 then write 2 .int16 (unsigned 2 n)
  else if n ≥ -2147483648 then write 4 .int32 (unsigned 4 n)
  else write 8 .int64 (unsigned 8 n)

/-- An integer of a Go type. The sized types use the compact form only when
`compact` is set; `int` and `uint` always do. -/
def encodeIntKind (compact : Bool) (k : IntKind) (v : BitVec k.width) : Bytes :=
  let n := k.value v
  match k, compact with
  | .int, _ | .int8, true | .int16, true | .int32, true | .int64, true => encodeInt n
  | .uint, _ | .uint8, true | .uint16, true | .uint32, true | .uint64, true => encodeUint n.toNat
  | .int8, false => write 1 .int8 (unsigned 1 n)
  | .int16, false => write 2 .int16 (unsigned 2 n)
  | .int32, false => write 4 .int32 (unsigned 4 n)
  | .int64, false => write 8 .int64 (unsigned 8 n)
  | .uint8, false => write 1 .uint8 n.toNat
  | .uint16, false => write 2 .uint16 n.toNat
  | .uint32, false => write 4 .uint32 n.toNat
  | .uint64, false => write 8 .uint64 n.toNat

def encodeBytesLen (l : Nat) : Bytes :=
  if l < 256 then write 1 .bin8 l
  else if l ≤ 0xffff then write 2 .bin16 l
  else write 4 .bin32 l

def encodeStringLen (l : Nat) : Bytes :=
  if l < 32 then [0xa0 ||| UInt8.ofNat l]
  else if l < 256 then write 1 .str8 l
  else if l ≤ 0xffff then write 2 .str16 l
  else write 4 .str32 l

def encodeArrayLen (l : Nat) : Bytes :=
  if l < 16 then [0x90 ||| UInt8.ofNat l]
  else if l ≤ 0xffff then write 2 .array16 l
  else write 4 .array32 l

def encodeMapLen (l : Nat) : Bytes :=
  if l < 16 then [0x80 ||| UInt8.ofNat l]
  else if l ≤ 0xffff then write 2 .map16 l
  else write 4 .map32 l

/-- The body of a timestamp extension: 4 bytes of seconds, 8 bytes of
nanoseconds and seconds packed together, or 12 bytes of both. -/
def encodeTimeBody (sec : BitVec 64) (nsec : Nat) : Bytes :=
  if sec.toNat / 2 ^ 34 = 0 then
    let data := nsec * 2 ^ 34 + sec.toNat
    if data < 2 ^ 32 then BigEndian.encode 4 data else BigEndian.encode 8 data
  else BigEndian.encode 4 nsec ++ BigEndian.encode 8 sec.toNat

def encodeExtLen (l : Nat) : Bytes :=
  match l with
  | 1 => [Code.fixExt1.toByte]
  | 2 => [Code.fixExt2.toByte]
  | 4 => [Code.fixExt4.toByte]
  | 8 => [Code.fixExt8.toByte]
  | 16 => [Code.fixExt16.toByte]
  | l =>
    if l ≤ 0xff then write 1 .ext8 l
    else if l ≤ 0xffff then write 2 .ext16 l
    else write 4 .ext32 l

def encodeTime (sec : BitVec 64) (nsec : Nat) : Bytes :=
  let b := encodeTimeBody sec nsec
  encodeExtLen b.length ++ timeExtID :: b

/-! ## Values -/

def encodeScalar (compact : Bool) : Scalar → Bytes
  | .nil => [Code.nil.toByte]
  | .bool b => [(if b then Code.true else Code.false).toByte]
  | .int k v => encodeIntKind compact k v
  | .float32 bits => write 4 .float bits.toNat
  | .float64 bits => write 8 .double bits.toNat
  | .string s => encodeStringLen s.length ++ s
  | .time sec nsec => encodeTime sec nsec

mutual

/-- `Encoder.Encode`. -/
def encode (compact : Bool) : Any → Except EncodeError Bytes
  | .scalar s => .ok (encodeScalar compact s)
  | .bytes b => .ok (encodeBytesLen b.length ++ b)
  | .slice xs => (encodeArrayLen xs.length ++ ·) <$> encodeAll compact xs
  | .map _ es => (encodeMapLen es.length ++ ·) <$> encodeEntries compact es
  | .typedNil _ => .ok [Code.nil.toByte]
  | .unsupported typ => .error (.unsupported typ)

def encodeAll (compact : Bool) : List Any → Except EncodeError Bytes
  | [] => .ok []
  | x :: xs => do
    let b ← encode compact x
    let bs ← encodeAll compact xs
    return b ++ bs

def encodeEntries (compact : Bool) : List (Scalar × Any) → Except EncodeError Bytes
  | [] => .ok []
  | (k, v) :: es => do
    let b ← encode compact v
    let bs ← encodeEntries compact es
    return encodeScalar compact k ++ b ++ bs

end

/-! ## Syntax trees of scalars -/

namespace WireTree

/-- A code followed by a number. -/
def number (w : Nat) (c : Code) (n : Nat) : WireTree := .leaf c (BigEndian.encode w n)

def uint (n : Nat) : WireTree :=
  if n ≤ 0x7f then .leaf (.posFixedNum (Fin.ofNat 128 n)) []
  else if n ≤ 0xff then number 1 .uint8 n
  else if n ≤ 0xffff then number 2 .uint16 n
  else if n ≤ 0xffffffff then number 4 .uint32 n
  else number 8 .uint64 n

def int (n : Int) : WireTree :=
  if n ≥ 0 then uint n.toNat
  else if n ≥ -32 then .leaf (.negFixedNum (Fin.ofNat 32 (unsigned 1 n))) []
  else if n ≥ -128 then number 1 .int8 (unsigned 1 n)
  else if n ≥ -32768 then number 2 .int16 (unsigned 2 n)
  else if n ≥ -2147483648 then number 4 .int32 (unsigned 4 n)
  else number 8 .int64 (unsigned 8 n)

def intKind (compact : Bool) (k : IntKind) (v : BitVec k.width) : WireTree :=
  let n := k.value v
  match k, compact with
  | .int, _ | .int8, true | .int16, true | .int32, true | .int64, true => int n
  | .uint, _ | .uint8, true | .uint16, true | .uint32, true | .uint64, true => uint n.toNat
  | .int8, false => number 1 .int8 (unsigned 1 n)
  | .int16, false => number 2 .int16 (unsigned 2 n)
  | .int32, false => number 4 .int32 (unsigned 4 n)
  | .int64, false => number 8 .int64 (unsigned 8 n)
  | .uint8, false => number 1 .uint8 n.toNat
  | .uint16, false => number 2 .uint16 n.toNat
  | .uint32, false => number 4 .uint32 n.toNat
  | .uint64, false => number 8 .uint64 n.toNat

end WireTree

/-- The code of a byte slice of this length. -/
def Code.bin (l : Nat) : Code :=
  if l < 256 then .bin8 else if l ≤ 0xffff then .bin16 else .bin32

def Code.str (l : Nat) : Code :=
  if l < 32 then .fixedStr (Fin.ofNat 32 l)
  else if l < 256 then .str8 else if l ≤ 0xffff then .str16 else .str32

def Code.array (l : Nat) : Code :=
  if l < 16 then .fixedArray (Fin.ofNat 16 l) else if l ≤ 0xffff then .array16 else .array32

def Code.map (l : Nat) : Code :=
  if l < 16 then .fixedMap (Fin.ofNat 16 l) else if l ≤ 0xffff then .map16 else .map32

/-- The code of a timestamp. -/
def Code.time (sec : BitVec 64) (nsec : Nat) : Code :=
  if sec.toNat / 2 ^ 34 = 0 then
    if nsec * 2 ^ 34 + sec.toNat < 2 ^ 32 then .fixExt4 else .fixExt8
  else .ext8

def Scalar.tree (compact : Bool) : Scalar → WireTree
  | .nil => .leaf .nil []
  | .bool b => .leaf (if b then .true else .false) []
  | .int k v => .intKind compact k v
  | .float32 bits => .number 4 .float bits.toNat
  | .float64 bits => .number 8 .double bits.toNat
  | .string s => .leaf (.str s.length) s
  | .time sec nsec => .leaf (.time sec nsec) (timeExtID :: encodeTimeBody sec nsec)

mutual

/-- The syntax tree of what `encode` writes; none if the value cannot be encoded. -/
def Any.tree (compact : Bool) : Any → Option WireTree
  | .scalar s => some (s.tree compact)
  | .bytes b => some (.leaf (.bin b.length) b)
  | .slice xs => (Any.trees compact xs).map (.node (.array xs.length))
  | .map _ es => (Any.entryTrees compact es).map (.node (.map es.length))
  | .typedNil _ => some (.leaf .nil [])
  | .unsupported _ => none

def Any.trees (compact : Bool) : List Any → Option (List WireTree)
  | [] => some []
  | x :: xs => do
    let t ← x.tree compact
    let ts ← Any.trees compact xs
    return t :: ts

def Any.entryTrees (compact : Bool) : List (Scalar × Any) → Option (List WireTree)
  | [] => some []
  | (k, v) :: es => do
    let t ← v.tree compact
    let ts ← Any.entryTrees compact es
    return k.tree compact :: t :: ts

end

/-! ## The bytes of the trees -/

theorem WireTree.flatten_number {w : Nat} {c : Code} (hc : c.layout = .leaf w) (n : Nat) :
    (WireTree.number w c n).flatten = write w c n := by
  simp [WireTree.number, WireTree.flatten, WireTree.lengthBytes, hc, write]

theorem WireTree.wf_number {w : Nat} {c : Code} (hc : c.layout = .leaf w) (n : Nat) :
    (WireTree.number w c n).WF := by
  simp [WireTree.number, WireTree.WF, WireTree.Sized, hc]

theorem WireTree.flatten_uint (n : Nat) : (WireTree.uint n).flatten = encodeUint n := by
  unfold WireTree.uint encodeUint
  split_ifs with hfix
  · have hmod : n % 128 = n := by omega
    simp [WireTree.flatten, WireTree.lengthBytes, Code.layout, Code.toByte, Fin.ofNat, hmod]
  all_goals exact WireTree.flatten_number rfl n

theorem WireTree.wf_uint (n : Nat) : (WireTree.uint n).WF := by
  unfold WireTree.uint
  split_ifs
  · simp [WireTree.WF, WireTree.Sized, Code.layout]
  all_goals exact WireTree.wf_number rfl n

theorem WireTree.flatten_int (n : Int) : (WireTree.int n).flatten = encodeInt n := by
  unfold WireTree.int encodeInt
  split_ifs with hpos hfix
  · exact WireTree.flatten_uint _
  · have hmod : 224 + unsigned 1 n % 32 = unsigned 1 n := by
      unfold unsigned; omega
    simp [WireTree.flatten, WireTree.lengthBytes, Code.layout, Code.toByte, Fin.ofNat, hmod]
  all_goals exact WireTree.flatten_number rfl _

theorem WireTree.wf_int (n : Int) : (WireTree.int n).WF := by
  unfold WireTree.int
  split_ifs
  · exact WireTree.wf_uint _
  · simp [WireTree.WF, WireTree.Sized, Code.layout]
  all_goals exact WireTree.wf_number rfl _

theorem WireTree.flatten_intKind (compact : Bool) (k : IntKind) (v : BitVec k.width) :
    (WireTree.intKind compact k v).flatten = encodeIntKind compact k v := by
  cases k <;> cases compact <;>
    first
    | exact WireTree.flatten_int _
    | exact WireTree.flatten_uint _
    | exact WireTree.flatten_number rfl _

theorem WireTree.wf_intKind (compact : Bool) (k : IntKind) (v : BitVec k.width) :
    (WireTree.intKind compact k v).WF := by
  cases k <;> cases compact <;>
    first
    | exact WireTree.wf_int _
    | exact WireTree.wf_uint _
    | exact WireTree.wf_number rfl _

theorem encodeBytesLen_eq (l : Nat) :
    encodeBytesLen l = (Code.bin l).toByte :: WireTree.lengthBytes (Code.bin l) l := by
  unfold encodeBytesLen Code.bin
  split_ifs <;> rfl

theorem encodeStringLen_eq (l : Nat) :
    encodeStringLen l = (Code.str l).toByte :: WireTree.lengthBytes (Code.str l) l := by
  have hor : ∀ i : Fin 32, (0xa0 ||| UInt8.ofNat i.val) = (Code.fixedStr i).toByte := by decide
  unfold encodeStringLen Code.str
  split_ifs with hfix
  · have h := hor ⟨l, hfix⟩
    have hl : Fin.ofNat 32 l = ⟨l, hfix⟩ := Fin.ext (Nat.mod_eq_of_lt hfix)
    rw [hl, ← h]
    rfl
  all_goals rfl

theorem encodeArrayLen_eq (l : Nat) :
    encodeArrayLen l = (Code.array l).toByte :: WireTree.lengthBytes (Code.array l) l := by
  have hor : ∀ i : Fin 16, (0x90 ||| UInt8.ofNat i.val) = (Code.fixedArray i).toByte := by decide
  unfold encodeArrayLen Code.array
  split_ifs with hfix
  · have h := hor ⟨l, hfix⟩
    have hl : Fin.ofNat 16 l = ⟨l, hfix⟩ := Fin.ext (Nat.mod_eq_of_lt hfix)
    rw [hl, ← h]
    rfl
  all_goals simp [WireTree.lengthBytes, Code.layout, write]

theorem encodeMapLen_eq (l : Nat) :
    encodeMapLen l = (Code.map l).toByte :: WireTree.lengthBytes (Code.map l) (2 * l) := by
  have hor : ∀ i : Fin 16, (0x80 ||| UInt8.ofNat i.val) = (Code.fixedMap i).toByte := by decide
  unfold encodeMapLen Code.map
  split_ifs with hfix
  · have h := hor ⟨l, hfix⟩
    have hl : Fin.ofNat 16 l = ⟨l, hfix⟩ := Fin.ext (Nat.mod_eq_of_lt hfix)
    rw [hl, ← h]
    rfl
  all_goals simp [WireTree.lengthBytes, Code.layout, write]

theorem flatten_time (sec : BitVec 64) (nsec : Nat) :
    (Scalar.tree compact (.time sec nsec)).flatten = encodeTime sec nsec := by
  simp only [Scalar.tree, WireTree.flatten, encodeTime, Code.time, encodeTimeBody]
  split_ifs <;> simp [encodeExtLen, WireTree.lengthBytes, Code.layout, write]

theorem wf_time (sec : BitVec 64) (nsec : Nat) :
    (Scalar.tree compact (.time sec nsec)).WF := by
  simp only [Scalar.tree, WireTree.WF, Code.time, encodeTimeBody]
  split_ifs <;> simp [WireTree.Sized, Code.layout]

theorem Scalar.flatten_tree (compact : Bool) (s : Scalar) :
    (s.tree compact).flatten = encodeScalar compact s := by
  cases s with
  | nil => rfl
  | bool b => cases b <;> rfl
  | int k v => exact WireTree.flatten_intKind compact k v
  | float32 bits => exact WireTree.flatten_number rfl _
  | float64 bits => exact WireTree.flatten_number rfl _
  | string s => simp [Scalar.tree, WireTree.flatten, encodeScalar, encodeStringLen_eq]
  | time sec nsec => exact flatten_time sec nsec

theorem Code.sized_str {l : Nat} (h : l < 2 ^ 32) : WireTree.Sized (.str l) .false l := by
  unfold Code.str
  split_ifs with hfix <;> simp [WireTree.Sized, Code.layout, Fin.ofNat] <;> omega

theorem Code.sized_bin {l : Nat} (h : l < 2 ^ 32) : WireTree.Sized (.bin l) .false l := by
  unfold Code.bin
  split_ifs <;> simp [WireTree.Sized, Code.layout] <;> omega

theorem Code.sized_array {l : Nat} (h : l < 2 ^ 32) : WireTree.Sized (.array l) .true l := by
  unfold Code.array
  split_ifs <;> simp [WireTree.Sized, Code.layout, Fin.ofNat] <;> omega

theorem Code.sized_map {l : Nat} (h : l < 2 ^ 32) : WireTree.Sized (.map l) .true (2 * l) := by
  unfold Code.map
  split_ifs <;> simp [WireTree.Sized, Code.layout, Fin.ofNat] <;> omega

theorem Scalar.wf_tree (compact : Bool) {s : Scalar} (h : s.Fits) :
    (s.tree compact).WF := by
  cases s with
  | nil => simp [Scalar.tree, WireTree.WF, WireTree.Sized, Code.layout]
  | bool b => cases b <;> simp [Scalar.tree, WireTree.WF, WireTree.Sized, Code.layout]
  | int k v => exact WireTree.wf_intKind compact k v
  | float32 bits => exact WireTree.wf_number rfl _
  | float64 bits => exact WireTree.wf_number rfl _
  | string s => exact Code.sized_str h
  | time sec nsec => exact wf_time sec nsec

/-! ## Values -/

theorem Any.length_trees {compact : Bool} {xs : List Any} {ts : List WireTree}
    (h : Any.trees compact xs = some ts) : ts.length = xs.length := by
  induction xs generalizing ts with
  | nil => simp only [Any.trees, Option.some.injEq] at h; simp [← h]
  | cons x xs ih =>
    simp only [Any.trees, bind, pure, Option.bind_eq_some_iff, Option.some.injEq] at h
    obtain ⟨t, -, ts', hts, rfl⟩ := h
    simp [ih hts]

theorem Any.length_entryTrees {compact : Bool} {es : List (Scalar × Any)} {ts : List WireTree}
    (h : Any.entryTrees compact es = some ts) : ts.length = 2 * es.length := by
  induction es generalizing ts with
  | nil => simp only [Any.entryTrees, Option.some.injEq] at h; simp [← h]
  | cons e es ih =>
    simp only [Any.entryTrees, bind, pure, Option.bind_eq_some_iff, Option.some.injEq] at h
    obtain ⟨t, -, ts', hts, rfl⟩ := h
    simp [ih hts]; omega

private theorem encodeAll_eq_trees_of {compact : Bool} {xs : List Any}
    (ih : ∀ x ∈ xs, (encode compact x).toOption = (x.tree compact).map WireTree.flatten) :
    (encodeAll compact xs).toOption = (Any.trees compact xs).map WireTree.flattenAll := by
  induction xs with
  | nil => rfl
  | cons x xs ihs =>
    have hx := ih x (by simp)
    have hxs := ihs (fun y hy => ih y (by simp [hy]))
    cases hb : encode compact x <;> cases ht : x.tree compact <;>
      cases hbs : encodeAll compact xs <;> cases hts : Any.trees compact xs <;>
      simp_all [encodeAll, Any.trees, Except.toOption, WireTree.flattenAll, bind, Except.bind,
        pure, Except.pure]

private theorem encodeEntries_eq_trees_of {compact : Bool} {es : List (Scalar × Any)}
    (ih : ∀ e ∈ es, (encode compact e.2).toOption = (e.2.tree compact).map WireTree.flatten) :
    (encodeEntries compact es).toOption = (Any.entryTrees compact es).map WireTree.flattenAll := by
  induction es with
  | nil => rfl
  | cons e es ihs =>
    have hx := ih e (by simp)
    have hxs := ihs (fun y hy => ih y (by simp [hy]))
    cases hb : encode compact e.2 <;> cases ht : e.2.tree compact <;>
      cases hbs : encodeEntries compact es <;> cases hts : Any.entryTrees compact es <;>
      simp_all [encodeEntries, Any.entryTrees, Except.toOption, WireTree.flattenAll, bind,
        Except.bind, pure, Except.pure, Scalar.flatten_tree]

/-- The encoder writes the bytes of the value's syntax tree. -/
theorem encode_eq_tree (compact : Bool) (v : Any) :
    (encode compact v).toOption = (v.tree compact).map WireTree.flatten := by
  induction v using Any.induct with
  | scalar s => simp [encode, Any.tree, Except.toOption, Scalar.flatten_tree]
  | bytes b => simp [encode, Any.tree, Except.toOption, WireTree.flatten, encodeBytesLen_eq]
  | slice xs ih =>
    rw [encode, Except.toOption_map, encodeAll_eq_trees_of ih, Any.tree, Option.map_map, Option.map_map]
    cases hts : Any.trees compact xs with
    | none => rfl
    | some ts =>
      simp [WireTree.flatten, encodeArrayLen_eq, Any.length_trees hts]
  | map k es ih =>
    rw [encode, Except.toOption_map, encodeEntries_eq_trees_of ih, Any.tree, Option.map_map,
      Option.map_map]
    cases hts : Any.entryTrees compact es with
    | none => rfl
    | some ts =>
      simp [WireTree.flatten, encodeMapLen_eq, Any.length_entryTrees hts]
  | typedNil k => rfl
  | unsupported t => rfl

theorem encode_ok_iff {compact : Bool} {v : Any} {b : Bytes} :
    encode compact v = .ok b ↔ ∃ t, v.tree compact = some t ∧ t.flatten = b := by
  have h := encode_eq_tree compact v
  cases he : encode compact v <;> cases ht : v.tree compact <;>
    simp_all [Except.toOption]

private theorem allWF_trees_of {compact : Bool} {xs : List Any}
    (ih : ∀ x ∈ xs, ∀ t, x.tree compact = some t → x.Fits → t.WF) :
    ∀ {ts : List WireTree}, Any.trees compact xs = some ts → (∀ x ∈ xs, x.Fits) → WireTree.AllWF ts := by
  induction xs with
  | nil =>
    intro ts h _
    simp only [Any.trees, Option.some.injEq] at h
    simp [← h, WireTree.AllWF]
  | cons x xs ihs =>
    intro ts h hfit
    simp only [Any.trees, bind, pure, Option.bind_eq_some_iff, Option.some.injEq] at h
    obtain ⟨t, ht, ts', hts, rfl⟩ := h
    exact ⟨ih x (by simp) t ht (hfit x (by simp)),
      ihs (fun y hy => ih y (by simp [hy])) hts (fun y hy => hfit y (by simp [hy]))⟩

private theorem allWF_entryTrees_of {compact : Bool} {es : List (Scalar × Any)}
    (ih : ∀ e ∈ es, ∀ t, e.2.tree compact = some t → e.2.Fits → t.WF) :
    ∀ {ts : List WireTree}, Any.entryTrees compact es = some ts →
      (∀ e ∈ es, e.1.Fits ∧ e.2.Fits) → WireTree.AllWF ts := by
  induction es with
  | nil =>
    intro ts h _
    simp only [Any.entryTrees, Option.some.injEq] at h
    simp [← h, WireTree.AllWF]
  | cons e es ihs =>
    intro ts h hfit
    simp only [Any.entryTrees, bind, pure, Option.bind_eq_some_iff, Option.some.injEq] at h
    obtain ⟨t, ht, ts', hts, rfl⟩ := h
    obtain ⟨hk, hv⟩ := hfit e (by simp)
    exact ⟨Scalar.wf_tree compact hk, ih e (by simp) t ht hv,
      ihs (fun y hy => ih y (by simp [hy])) hts (fun y hy => hfit y (by simp [hy]))⟩

/-- A value whose lengths fit has a well-formed syntax tree. -/
theorem Any.tree_wf {compact : Bool} {v : Any} {t : WireTree} (h : v.tree compact = some t)
    (hfit : v.Fits) : t.WF := by
  induction v using Any.induct generalizing t with
  | scalar s =>
    simp only [Any.tree, Option.some.injEq] at h
    exact h ▸ Scalar.wf_tree compact hfit
  | bytes b =>
    simp only [Any.tree, Option.some.injEq] at h
    exact h ▸ Code.sized_bin hfit
  | slice xs ih =>
    simp only [Any.tree, Option.map_eq_some_iff] at h
    obtain ⟨ts, hts, rfl⟩ := h
    obtain ⟨hlen, hxs⟩ := Any.forall_slice_iff.mp hfit
    refine ⟨?_, allWF_trees_of (fun x hx t ht hf => ih x hx ht hf) hts hxs⟩
    rw [Any.length_trees hts]
    exact Code.sized_array hlen
  | map k es ih =>
    simp only [Any.tree, Option.map_eq_some_iff] at h
    obtain ⟨ts, hts, rfl⟩ := h
    obtain ⟨⟨hlen, hkeys⟩, hvals⟩ := Any.forall_map_iff.mp hfit
    refine ⟨?_, allWF_entryTrees_of (fun x hx t ht hf => ih x hx ht hf) hts
      (fun e he => ⟨hkeys e he, hvals e he⟩)⟩
    rw [Any.length_entryTrees hts]
    exact Code.sized_map hlen
  | typedNil k =>
    simp only [Any.tree, Option.some.injEq] at h
    subst h
    simp [WireTree.WF, WireTree.Sized, Code.layout]
  | unsupported t => simp [Any.tree] at h

/-! ## Lengths -/

theorem Any.length_le_trees {compact : Bool} {xs : List Any} {ts : List WireTree}
    (h : Any.trees compact xs = some ts) :
    ∀ x ∈ xs, ∃ t, x.tree compact = some t ∧
      t.flatten.length ≤ (WireTree.flattenAll ts).length := by
  induction xs generalizing ts with
  | nil => simp
  | cons x xs ih =>
    simp only [Any.trees, bind, pure, Option.bind_eq_some_iff, Option.some.injEq] at h
    obtain ⟨t, ht, ts', hts, rfl⟩ := h
    rw [List.forall_mem_cons, WireTree.flattenAll, List.length_append]
    refine ⟨⟨t, ht, Nat.le_add_right _ _⟩, fun y hy => ?_⟩
    obtain ⟨u, hu, hle⟩ := ih hts y hy
    exact ⟨u, hu, by omega⟩

theorem Any.length_le_entryTrees {compact : Bool} {es : List (Scalar × Any)} {ts : List WireTree}
    (h : Any.entryTrees compact es = some ts) :
    ∀ e ∈ es, (e.1.tree compact).flatten.length ≤ (WireTree.flattenAll ts).length ∧
      ∃ t, e.2.tree compact = some t ∧ t.flatten.length ≤ (WireTree.flattenAll ts).length := by
  induction es generalizing ts with
  | nil => simp
  | cons e es ih =>
    simp only [Any.entryTrees, bind, pure, Option.bind_eq_some_iff, Option.some.injEq] at h
    obtain ⟨t, ht, ts', hts, rfl⟩ := h
    simp only [List.forall_mem_cons, WireTree.flattenAll, List.length_append]
    refine ⟨⟨by omega, t, ht, by omega⟩, fun e' he' => ?_⟩
    obtain ⟨hk, u, hu, hle⟩ := ih hts e' he'
    exact ⟨by omega, u, hu, by omega⟩

theorem Scalar.fits_of_length {compact : Bool} {s : Scalar}
    (h : (s.tree compact).flatten.length < 2 ^ 32) : s.Fits := by
  cases s with
  | string s =>
    simp only [Scalar.tree, WireTree.flatten, List.length_cons, List.length_append] at h
    simp only [Scalar.Fits]
    omega
  | _ => trivial

/-- A value that was written in fewer than `2^32` bytes has lengths that fit. -/
theorem Any.fits_of_length {compact : Bool} {v : Any} {t : WireTree} (h : v.tree compact = some t)
    (hlen : t.flatten.length < 2 ^ 32) : v.Fits := by
  induction v using Any.induct generalizing t with
  | scalar s =>
    simp only [Any.tree, Option.some.injEq] at h
    exact Scalar.fits_of_length (h ▸ hlen)
  | bytes b =>
    simp only [Any.tree, Option.some.injEq] at h
    subst h
    simp only [WireTree.flatten, List.length_cons, List.length_append] at hlen
    simp only [Any.Fits, Any.Forall, Any.LengthFits]
    omega
  | slice xs ih =>
    simp only [Any.tree, Option.map_eq_some_iff] at h
    obtain ⟨ts, hts, rfl⟩ := h
    simp only [WireTree.flatten, List.length_cons, List.length_append] at hlen
    have hcount := WireTree.length_le_flattenAll ts
    rw [Any.length_trees hts] at hcount
    refine Any.forall_slice_iff.mpr ⟨by simp only [Any.LengthFits]; omega, fun x hx => ?_⟩
    obtain ⟨u, hu, hle⟩ := Any.length_le_trees hts x hx
    exact ih x hx hu (by omega)
  | map k es ih =>
    simp only [Any.tree, Option.map_eq_some_iff] at h
    obtain ⟨ts, hts, rfl⟩ := h
    simp only [WireTree.flatten, List.length_cons, List.length_append] at hlen
    have hcount := WireTree.length_le_flattenAll ts
    rw [Any.length_entryTrees hts] at hcount
    have hentry := Any.length_le_entryTrees hts
    refine Any.forall_map_iff.mpr ⟨⟨by omega, fun e he => ?_⟩, fun e he => ?_⟩
    · exact Scalar.fits_of_length (lt_of_le_of_lt (hentry e he).1 (by omega))
    · obtain ⟨-, u, hu, hle⟩ := hentry e he
      exact ih e he hu (by omega)
  | typedNil k => trivial
  | unsupported t => trivial

end Msgpack
