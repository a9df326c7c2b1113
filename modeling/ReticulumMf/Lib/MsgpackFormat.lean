-- SUMMARY: The MessagePack wire format: first bytes, layouts, and the syntax trees a byte string can be read as.
import ReticulumMf.Lib.BigEndian

/-!
# The MessagePack format

A MessagePack value starts with one byte that fixes its layout: how many bytes
follow, or how many nested values. `WireTree` is the concrete syntax of a value,
`WireTree.flatten` its bytes. Distinct well-formed trees never have bytes one of
which starts with the other (`WireTree.flatten_append_inj`), so a byte string is a
MessagePack value in at most one way.
-/

namespace Msgpack

/-! ## First bytes -/

instance neZero16 : NeZero 16 := ⟨by decide⟩

instance neZero32 : NeZero 32 := ⟨by decide⟩

instance neZero128 : NeZero 128 := ⟨by decide⟩

/-- The meaning of the first byte of a value. -/
inductive Code where
  | posFixedNum (n : Fin 128) | negFixedNum (n : Fin 32)
  | fixedMap (n : Fin 16) | fixedArray (n : Fin 16) | fixedStr (n : Fin 32)
  | nil | unused | false | true
  | bin8 | bin16 | bin32 | ext8 | ext16 | ext32 | float | double
  | uint8 | uint16 | uint32 | uint64 | int8 | int16 | int32 | int64
  | fixExt1 | fixExt2 | fixExt4 | fixExt8 | fixExt16
  | str8 | str16 | str32 | array16 | array32 | map16 | map32
  deriving DecidableEq, Repr

namespace Code

def toByte : Code → UInt8
  | posFixedNum n => UInt8.ofNat n.val
  | negFixedNum n => UInt8.ofNat (0xe0 + n.val)
  | fixedMap n => UInt8.ofNat (0x80 + n.val)
  | fixedArray n => UInt8.ofNat (0x90 + n.val)
  | fixedStr n => UInt8.ofNat (0xa0 + n.val)
  | nil => 0xc0 | unused => 0xc1 | false => 0xc2 | true => 0xc3
  | bin8 => 0xc4 | bin16 => 0xc5 | bin32 => 0xc6
  | ext8 => 0xc7 | ext16 => 0xc8 | ext32 => 0xc9
  | float => 0xca | double => 0xcb
  | uint8 => 0xcc | uint16 => 0xcd | uint32 => 0xce | uint64 => 0xcf
  | int8 => 0xd0 | int16 => 0xd1 | int32 => 0xd2 | int64 => 0xd3
  | fixExt1 => 0xd4 | fixExt2 => 0xd5 | fixExt4 => 0xd6 | fixExt8 => 0xd7 | fixExt16 => 0xd8
  | str8 => 0xd9 | str16 => 0xda | str32 => 0xdb
  | array16 => 0xdc | array32 => 0xdd | map16 => 0xde | map32 => 0xdf

def ofByte (b : UInt8) : Code :=
  let n := b.toNat
  if n < 0x80 then posFixedNum (Fin.ofNat 128 n)
  else if n < 0x90 then fixedMap (Fin.ofNat 16 n)
  else if n < 0xa0 then fixedArray (Fin.ofNat 16 n)
  else if n < 0xc0 then fixedStr (Fin.ofNat 32 n)
  else match n with
    | 0xc0 => nil | 0xc1 => unused | 0xc2 => false | 0xc3 => true
    | 0xc4 => bin8 | 0xc5 => bin16 | 0xc6 => bin32
    | 0xc7 => ext8 | 0xc8 => ext16 | 0xc9 => ext32
    | 0xca => float | 0xcb => double
    | 0xcc => uint8 | 0xcd => uint16 | 0xce => uint32 | 0xcf => uint64
    | 0xd0 => int8 | 0xd1 => int16 | 0xd2 => int32 | 0xd3 => int64
    | 0xd4 => fixExt1 | 0xd5 => fixExt2 | 0xd6 => fixExt4 | 0xd7 => fixExt8 | 0xd8 => fixExt16
    | 0xd9 => str8 | 0xda => str16 | 0xdb => str32
    | 0xdc => array16 | 0xdd => array32 | 0xde => map16 | 0xdf => map32
    | _ => negFixedNum (Fin.ofNat 32 n)

@[simp] theorem ofByte_toByte (c : Code) : ofByte c.toByte = c := by
  cases c with
  | posFixedNum n => revert n; decide
  | negFixedNum n => revert n; decide
  | fixedMap n => revert n; decide
  | fixedArray n => revert n; decide
  | fixedStr n => revert n; decide
  | _ => rfl

@[simp] theorem toByte_ofByte (b : UInt8) : (ofByte b).toByte = b := by
  have h : ∀ i : Fin 256, (ofByte (UInt8.ofFin i)).toByte = UInt8.ofFin i := by
    decide +kernel
  exact h b.toFin

theorem toByte_inj {c c' : Code} (h : c.toByte = c'.toByte) : c = c' := by
  rw [← ofByte_toByte c, h, ofByte_toByte]

end Code

/-! ## Layouts -/

/-- What follows the first byte. A leaf holds bytes, a node holds values; either
the amount is fixed by the code, or a length of `w` bytes comes first. An
extension counts its type byte apart from its length (`extra`), and a map
counts pairs (`mult`). -/
inductive Layout where
  | leaf (n : Nat)
  | sizedLeaf (w extra : Nat)
  | node (n : Nat)
  | sizedNode (w mult : Nat)
  | invalid
  deriving DecidableEq, Repr

def Code.layout : Code → Layout
  | posFixedNum _ | negFixedNum _ | nil | false | true => .leaf 0
  | uint8 | int8 => .leaf 1
  | uint16 | int16 => .leaf 2
  | uint32 | int32 | float => .leaf 4
  | uint64 | int64 | double => .leaf 8
  | fixedStr n => .leaf n.val
  | fixExt1 => .leaf 2 | fixExt2 => .leaf 3 | fixExt4 => .leaf 5
  | fixExt8 => .leaf 9 | fixExt16 => .leaf 17
  | bin8 | str8 => .sizedLeaf 1 0
  | bin16 | str16 => .sizedLeaf 2 0
  | bin32 | str32 => .sizedLeaf 4 0
  | ext8 => .sizedLeaf 1 1 | ext16 => .sizedLeaf 2 1 | ext32 => .sizedLeaf 4 1
  | fixedArray n => .node n.val
  | fixedMap n => .node (2 * n.val)
  | array16 => .sizedNode 2 1 | array32 => .sizedNode 4 1
  | map16 => .sizedNode 2 2 | map32 => .sizedNode 4 2
  | unused => .invalid

/-! ## Trees -/

/-- The concrete syntax of a value. The children of a map alternate keys and
values. -/
inductive WireTree where
  | leaf (c : Code) (body : Bytes)
  | node (c : Code) (children : List WireTree)
  deriving Repr

namespace WireTree

/-- Induction over trees, with the hypothesis for every child of a node. -/
@[elab_as_elim]
theorem induct {motive : WireTree → Prop}
    (leaf : ∀ c body, motive (.leaf c body))
    (node : ∀ c children, (∀ t ∈ children, motive t) → motive (.node c children)) :
    ∀ t, motive t
  | .leaf c body => leaf c body
  | .node c children => node c children (fun t _ => induct leaf node t)

def children : WireTree → List WireTree
  | .leaf _ _ => []
  | .node _ children => children

/-- The length bytes between the first byte and the content. -/
def lengthBytes (c : Code) (size : Nat) : Bytes :=
  match c.layout with
  | .sizedLeaf w extra => BigEndian.encode w (size - extra)
  | .sizedNode w mult => BigEndian.encode w (size / mult)
  | _ => []

mutual

/-- The bytes of a tree. -/
def flatten : WireTree → Bytes
  | .leaf c body => c.toByte :: (lengthBytes c body.length ++ body)
  | .node c children => c.toByte :: (lengthBytes c children.length ++ flattenAll children)

def flattenAll : List WireTree → Bytes
  | [] => []
  | t :: ts => t.flatten ++ flattenAll ts

end

/-- The content of a code has the size the code announces. -/
def Sized (c : Code) (isNode : Bool) (size : Nat) : Prop :=
  match c.layout, isNode with
  | .leaf n, .false => size = n
  | .sizedLeaf w extra, .false => extra ≤ size ∧ size - extra < 256 ^ w
  | .node n, .true => size = n
  | .sizedNode w mult, .true => mult ∣ size ∧ size / mult < 256 ^ w
  | _, _ => False

mutual

/-- Every code in the tree announces the size of its own content. -/
def WF : WireTree → Prop
  | .leaf c body => Sized c .false body.length
  | .node c children => Sized c .true children.length ∧ AllWF children

def AllWF : List WireTree → Prop
  | [] => True
  | t :: ts => t.WF ∧ AllWF ts

end

theorem allWF_iff {ts : List WireTree} : AllWF ts ↔ ∀ t ∈ ts, t.WF := by
  induction ts with
  | nil => simp [AllWF]
  | cons t ts ih => simp [AllWF, ih]

@[simp] theorem flattenAll_append (ts us : List WireTree) :
    flattenAll (ts ++ us) = flattenAll ts ++ flattenAll us := by
  induction ts with
  | nil => rfl
  | cons t ts ih => simp [flattenAll, ih]

theorem flatten_ne_nil (t : WireTree) : t.flatten ≠ [] := by
  cases t <;> simp [flatten]

theorem length_le_flattenAll (ts : List WireTree) : ts.length ≤ (flattenAll ts).length := by
  induction ts with
  | nil => exact Nat.zero_le _
  | cons t ts ih =>
    have hpos := List.length_pos_iff.mpr t.flatten_ne_nil
    rw [flattenAll, List.length_cons, List.length_append]
    omega

/-! ## Unique reading -/

/-- A code heads either leaves or nodes. -/
theorem Sized.isNode_eq {c : Code} {k k' : Bool} {n n' : Nat}
    (h : Sized c k n) (h' : Sized c k' n') : k = k' := by
  unfold Sized at h h'
  cases hl : c.layout <;> cases k <;> cases k' <;> simp_all

/-- The length bytes determine the size of the content. -/
theorem lengthBytes_append_inj {c : Code} {k : Bool} {n n' : Nat} {x x' : Bytes}
    (hn : Sized c k n) (hn' : Sized c k n')
    (h : lengthBytes c n ++ x = lengthBytes c n' ++ x') : n = n' ∧ x = x' := by
  unfold Sized at hn hn'
  unfold lengthBytes at h
  cases hl : c.layout with
  | leaf m => cases k <;> simp_all
  | node m => cases k <;> simp_all
  | invalid => cases k <;> simp_all
  | sizedLeaf w extra =>
    cases k with
    | true => simp [hl] at hn
    | false =>
      simp only [hl] at hn hn' h
      obtain ⟨hlen, hx⟩ := List.append_inj h (by simp)
      have hsub := BigEndian.encode_inj hn.2 hn'.2 hlen
      exact ⟨by omega, hx⟩
  | sizedNode w mult =>
    cases k with
    | false => simp [hl] at hn
    | true =>
      simp only [hl] at hn hn' h
      obtain ⟨hlen, hx⟩ := List.append_inj h (by simp)
      have hdiv := BigEndian.encode_inj hn.2 hn'.2 hlen
      refine ⟨?_, hx⟩
      rw [← Nat.div_mul_cancel hn.1, hdiv, Nat.div_mul_cancel hn'.1]

/-- Unique reading, lifted from the elements of a list to the list. -/
private theorem flattenAll_append_inj_of {ts : List WireTree}
    (ih : ∀ t ∈ ts, ∀ (t' : WireTree) (r r' : Bytes), t.WF → t'.WF →
      t.flatten ++ r = t'.flatten ++ r' → t = t' ∧ r = r') :
    ∀ {ts' : List WireTree} {r r' : Bytes}, AllWF ts → AllWF ts' → ts.length = ts'.length →
      flattenAll ts ++ r = flattenAll ts' ++ r' → ts = ts' ∧ r = r' := by
  induction ts with
  | nil =>
    intro ts' r r' _ _ hlen h
    cases ts' with
    | nil => exact ⟨rfl, by simpa [flattenAll] using h⟩
    | cons _ _ => simp at hlen
  | cons t ts ihs =>
    intro ts' r r' hwf hwf' hlen h
    cases ts' with
    | nil => simp at hlen
    | cons t' ts' =>
      simp only [flattenAll, List.append_assoc] at h
      obtain ⟨rfl, hrest⟩ := ih t (by simp) t' _ _ hwf.1 hwf'.1 h
      obtain ⟨rfl, hr⟩ :=
        ihs (fun u hu => ih u (by simp [hu])) hwf.2 hwf'.2 (by simpa using hlen) hrest
      exact ⟨rfl, hr⟩

/-- Bytes are read as a well-formed tree in at most one way, whatever follows. -/
theorem flatten_append_inj {t t' : WireTree} {r r' : Bytes} (ht : t.WF) (ht' : t'.WF)
    (h : t.flatten ++ r = t'.flatten ++ r') : t = t' ∧ r = r' := by
  induction t using WireTree.induct generalizing t' r r' with
  | leaf c body =>
    cases t' with
    | leaf c' body' =>
      simp only [flatten, List.cons_append, List.cons.injEq, List.append_assoc] at h
      obtain rfl := Code.toByte_inj h.1
      obtain ⟨hlen, hbody⟩ := lengthBytes_append_inj ht ht' h.2
      obtain ⟨rfl, rfl⟩ := List.append_inj hbody hlen
      exact ⟨rfl, rfl⟩
    | node c' children' =>
      simp only [flatten, List.cons_append, List.cons.injEq] at h
      obtain rfl := Code.toByte_inj h.1
      cases Sized.isNode_eq ht ht'.1
  | node c children ih =>
    cases t' with
    | leaf c' body' =>
      simp only [flatten, List.cons_append, List.cons.injEq] at h
      obtain rfl := Code.toByte_inj h.1
      cases Sized.isNode_eq ht.1 ht'
    | node c' children' =>
      simp only [flatten, List.cons_append, List.cons.injEq, List.append_assoc] at h
      obtain rfl := Code.toByte_inj h.1
      obtain ⟨hlen, hchildren⟩ := lengthBytes_append_inj ht.1 ht'.1 h.2
      obtain ⟨rfl, rfl⟩ := flattenAll_append_inj_of
        (fun t hmem t' r r' hw hw' he => ih t hmem hw hw' he) ht.2 ht'.2 hlen hchildren
      exact ⟨rfl, rfl⟩

theorem flatten_inj {t t' : WireTree} (ht : t.WF) (ht' : t'.WF) (h : t.flatten = t'.flatten) :
    t = t' := by
  have happend : t.flatten ++ [] = t'.flatten ++ [] := by rw [h]
  exact (flatten_append_inj ht ht' happend).1

/-- Unique reading of a sequence of as many values. -/
theorem flattenAll_append_inj {ts ts' : List WireTree} {r r' : Bytes}
    (hts : AllWF ts) (hts' : AllWF ts') (hlen : ts.length = ts'.length)
    (h : flattenAll ts ++ r = flattenAll ts' ++ r') : ts = ts' ∧ r = r' :=
  flattenAll_append_inj_of (fun _ _ _ _ _ hw hw' he => flatten_append_inj hw hw' he)
    hts hts' hlen h

end WireTree

end Msgpack
