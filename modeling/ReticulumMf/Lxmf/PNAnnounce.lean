-- SUMMARY: Announce data of a propagation node: the layout that is accepted, and the readers of its elements.
import ReticulumMf.Lxmf.Announce
import ReticulumMf.Msgpack.Typed

/-!
# Propagation node announces

A propagation node announces an array of seven elements: a value that is ignored, a
number, a boolean, two numbers, an array of three costs, and a map of metadata. The
typed readers take a nil for a number or a boolean, so data with a nil in such a place
is accepted too (`accepted_layout_iff`).
-/

namespace Lxmf

open Msgpack ByteReader

def pnMetaName : UInt8 := 0x01
def maxPNAnnounceBytes : Nat := 256 * 2 ^ 10

/-! ## Decoding -/

def peekCode : Decoder Code := do
  let b ← readByte
  unreadByte b
  return Code.ofByte b

/-- The first element, which is ignored. -/
def skipFirst : Decoder Unit := do
  match ← peekCode with
  | .nil => do let _ ← readCode
  | _ => skip skipFuel

/-- A typed reader and what follows it. Unless the data has ended, its failure means that
the layout is another one, and the array is nil. -/
def orNilArray {α : Type} (x : Decoder α) (k : α → Decoder (List Any)) : Decoder (List Any) := fun i =>
  match x i with
  | .ok a j => k a j
  | .error (.failed _) j => .ok [] j
  | .error e j => .error e j

def int64Value (v : BitVec 64) : Any := .scalar (.int .int64 v)

/-- The elements of the array; empty for the nil array. -/
def decodePNElements : Decoder (List Any) := do
  if (← decodeArrayLen) ≠ some 7 then return []
  else
    skipFirst
    orNilArray decodeInt64 fun v1 =>
      orNilArray decodeBoolValue fun v2 =>
        orNilArray decodeInt64 fun v3 =>
          orNilArray decodeInt64 fun v4 => do
            if (← decodeArrayLen) ≠ some 3 then return []
            else
              orNilArray decodeInt64 fun ca0 =>
                orNilArray decodeInt64 fun ca1 =>
                  orNilArray decodeInt64 fun ca2 => do
                    let v6 ← decodeElement
                    return [.scalar .nil, int64Value v1, .scalar (.bool v2), int64Value v3,
                      int64Value v4, .slice [int64Value ca0, int64Value ca1, int64Value ca2], v6]

def decodePNAnnounceArray (data : Bytes) : Except AnnounceError (List Any) :=
  if data.length = 0 then .ok []
  else if data.length > maxPNAnnounceBytes then .error .tooLarge
  else Prod.fst <$> (runDecoder decodePNElements ⟨data, ⟨0, 0⟩⟩).mapError .decode

/-! ## Reading -/

def asSlice : Any → Option (List Any)
  | .slice xs => some xs
  | .typedNil .slice => some []
  | _ => none

/-- A `map[any]any` or a `map[string]any`. -/
def isAnyMap : Any → Bool
  | .map .any _ | .map .string _ | .typedNil (.map .any) | .typedNil (.map .string) => true
  | _ => false

def isBool : Any → Bool
  | .scalar (.bool _) => true
  | _ => false

def pnAnnounceDataIsValid (data : Bytes) : Bool :=
  match decodePNAnnounceArray data with
  | .ok (_ :: v1 :: v2 :: v3 :: v4 :: v5 :: v6 :: _) =>
    (asInt64 v1).isSome && isBool v2 && (asInt64 v3).isSome && (asInt64 v4).isSome &&
      ((asSlice v5).any fun costs => costs.length ≥ 3 && (costs.take 3).all (asInt64 · |>.isSome)) &&
      isAnyMap v6
  | _ => false

def pnAnnounceShapeValid : List Any → Bool
  | _ :: _ :: _ :: _ :: _ :: v5 :: v6 :: _ => (asSlice v5).any (·.length ≥ 3) && isAnyMap v6
  | _ => false

/-- The cost; none if `ok` is false. -/
def pnStampCostFromAppData (data : Bytes) : Except AnnounceError (Option Int) := do
  let arr ← decodePNAnnounceArray data
  if pnAnnounceShapeValid arr then
    let costs := (arr[5]?.bind asSlice).getD []
    match costs.head?.bind asInt64 with
    | some cost => return if cost < 0 then none else some cost
    | none => return none
  else return none

/-- `lookupAnyKey`, over the entries in the order in which they are visited. -/
def lookupAnyKey (m : List (Scalar × Any)) (key : UInt8) : Option Any :=
  (m.find? fun e => asInt64 (.scalar e.1) = some (key.toNat : Int)).map Prod.snd

/-- The name; none if `ok` is false. -/
def decodePNNameValue : Any → Option Bytes
  | .bytes x => some x
  | .typedNil .bytes => some []
  | .scalar (.string x) => some x
  | _ => none

/-- `PNNameFromAppData`. The order `o` is the one in which the metadata is visited. -/
def pnNameFromAppData (o : MapOrder) (data : Bytes) : Except AnnounceError (Option Bytes) := do
  let arr ← decodePNAnnounceArray data
  if pnAnnounceShapeValid arr then
    match arr[6]?.map (o.visit []) with
    | some (.map .any md) => return (lookupAnyKey md pnMetaName).bind decodePNNameValue
    | some (.map .string md) =>
      return ((md.find? (·.1 = .string [pnMetaName])).map Prod.snd).bind decodePNNameValue
    | _ => return none
  else return none

/-! ## The layout -/

/-- `data` starts with the whole array of the elements `ts`. -/
structure StartsWithArray (data : Bytes) (c : Code) (ts : List WireTree) : Prop where
  isArray : c.isArray
  wf : (WireTree.node c ts).WF
  bytes : (WireTree.node c ts).flatten <+: data

/-- The elements of a propagation node's array, where `number` and `bool` say what a
number and a boolean are. -/
structure IsPNArray (number bool : WireTree → Prop) (ts : List WireTree) : Prop where
  length : ts.length = 7
  numbers : ∀ i ∈ [1, 3, 4], ∀ t, ts[i]? = some t → number t
  bool : ∀ t, ts[2]? = some t → bool t
  costs : ∃ c us, ts[5]? = some (.node c us) ∧ c.isArray ∧ us.length = 3 ∧ ∀ u ∈ us, number u
  metadata : ∃ c us, ts[6]? = some (.node c us) ∧ c.isMap

def IsPNLayout (data : Bytes) : Prop :=
  ∃ c ts, StartsWithArray data c ts ∧ IsPNArray WireTree.IsNumber WireTree.IsBool ts

/-- The elements 1 to 4 and the costs. -/
def pnValues (ts : List WireTree) : List WireTree :=
  (ts.drop 1).take 4 ++ (ts[5]?.map WireTree.children).getD []

/-- Accepted data has the layout, and the readers of the cost and the name do not fail
on it. -/
structure PNAnnounceSound (data : Bytes) : Prop where
  layout : IsPNLayout data
  stampCost : ∃ cost, pnStampCostFromAppData data = .ok cost
  name : ∀ o, ∃ name, pnNameFromAppData o data = .ok name

/-! ## What is accepted -/

theorem peekCode_ok {i j : Input Levels} {c : Code} (h : peekCode i = .ok c j) :
    i = j ∧ ∃ r, i.rest = c.toByte :: r := by
  obtain ⟨b, k, hread, h⟩ := bind_ok_iff.mp h
  obtain ⟨hrest, hst⟩ := readByte_ok_iff.mp hread
  obtain ⟨_, _, hunread, h⟩ := bind_ok_iff.mp h
  obtain ⟨rfl, rfl⟩ := pure_ok_iff.mp h
  simp only [unreadByte, EStateM.Result.ok.injEq] at hunread
  refine ⟨?_, k.rest, by rw [Code.toByte_ofByte, hrest]⟩
  rw [← hunread.2, ← hrest, hst]

theorem skipFirst_consumes {rest : Bytes} {l : Levels} {u : Unit} {j : Input Levels}
    (h : skipFirst ⟨rest, l⟩ = .ok u j) :
    ∃ (t : WireTree) (r : Bytes), t.WF ∧ rest = t.flatten ++ r ∧ j = ⟨r, l⟩ := by
  obtain ⟨c, k, hpeek, h⟩ := bind_ok_iff.mp h
  obtain ⟨rfl, r, hcode⟩ := peekCode_ok hpeek
  obtain ⟨rest', l'⟩ := j
  cases c with
  | nil =>
    obtain ⟨c', k', hread, hpure⟩ := bind_ok_iff.mp h
    obtain ⟨-, rfl⟩ := pure_ok_iff.mp hpure
    obtain ⟨_, _, hrest, rfl, -, ⟨rfl, -⟩, -⟩ := readCode_local _ _ _ hread
    rw [hcode, List.singleton_append, List.cons.injEq] at hrest
    exact ⟨.nil, r, rfl, hcode, by rw [hrest.2]⟩
  | _ =>
    obtain ⟨_, _, hrest, rfl, -, ⟨⟨t, ht, rfl⟩, -⟩, -⟩ := skip_local _ _ _ _ h
    exact ⟨t, rest', ht, hrest, rfl⟩

theorem orNilArray_ok {α : Type} {x : Decoder α} {k : α → Decoder (List Any)} {i j : Input Levels}
    {out : List Any} (h : orNilArray x k i = .ok out j) (hne : out ≠ []) :
    ∃ a i', x i = .ok a i' ∧ k a i' = .ok out j := by
  unfold orNilArray at h
  cases hx : x i with
  | ok a i' =>
    simp only [hx] at h
    exact ⟨a, i', rfl, h⟩
  | error e i' =>
    simp only [hx] at h
    cases e with
    | failed e =>
      simp only [EStateM.Result.ok.injEq] at h
      exact absurd h.1.symm hne
    | _ => cases h

/-- A typed reader that succeeds, with the tree it has read. -/
theorem orNilArray_consumes {α : Type} {x : Decoder α} {P : WireTree → Prop} (hx : ReadsTree x P)
    {k : α → Decoder (List Any)} {rest : Bytes} {l : Levels} {j : Input Levels} {out : List Any}
    (h : orNilArray x k ⟨rest, l⟩ = .ok out j) (hne : out ≠ []) :
    ∃ (a : α) (t : WireTree) (r : Bytes), t.WF ∧ P t ∧ Reads x l a t.flatten 0 ∧
      rest = t.flatten ++ r ∧ k a ⟨r, l⟩ = .ok out j := by
  obtain ⟨a, ⟨r, l'⟩, hread, hk⟩ := orNilArray_ok h hne
  obtain ⟨t, ht, hP, hreads, hrest, rfl⟩ := hx.consumes hread
  exact ⟨a, t, r, ht, hP, hreads, hrest, hk⟩

/-- What is decoded to a map starts with the code of a map. -/
theorem isMap_of_decodes {t : WireTree} {v : Any} (ht : t.WF) (h : Decodes t v)
    (hv : isAnyMap v = true) : ∃ c us, t = .node c us ∧ c.isMap := by
  have hleaf : ¬v.IsLeaf := by
    cases v with
    | typedNil k => cases k <;> first | exact id | cases hv
    | map k es => exact id
    | _ => cases hv
  have hread (c : Code) (b : Bytes) (hb : t.flatten = c.toByte :: b) : c.isMap := by
    have hdec := h []
    rw [hb, List.append_nil] at hdec
    by_contra hmap
    by_cases harray : c.isArray = true
    · rw [decodeElement, decodeFuel, decodeInterface_array false _ harray] at hdec
      obtain ⟨o, _, -, hdec⟩ := bind_ok_iff.mp hdec
      cases o with
      | none =>
        obtain ⟨rfl, -⟩ := pure_ok_iff.mp hdec
        cases hv
      | some n =>
        have hslice := Produces.map (Q := fun _ => True) (R := fun v => ∃ xs, v = Any.slice xs)
          Produces.trivial (fun xs _ => ⟨xs, rfl⟩) _ _ _ hdec
        obtain ⟨xs, rfl⟩ := hslice
        cases hv
    · have hcode : (c.isArray || c.isMap) = false := by
        rw [Bool.or_eq_false_iff, ← Bool.not_eq_true, ← Bool.not_eq_true]
        exact ⟨harray, hmap⟩
      rw [decodeElement, decodeFuel, decodeInterface_leaf false _ hcode] at hdec
      exact hleaf (decodeLeaf_isLeaf _ _ _ _ _ hdec)
  cases t with
  | leaf c body =>
    have hmap := hread c _ rfl
    cases c <;> first | exact ht.elim | cases hmap
  | node c us => exact ⟨c, us, rfl, hread c _ rfl⟩

/-- The elements that were read, if the array is not nil. The last one is any value, and
the costs start with the number that their first tree is read as. -/
theorem decodePNElements_ok {data : Bytes} {arr : List Any} {j : Input Levels}
    (h : decodePNElements ⟨data, ⟨0, 0⟩⟩ = .ok arr j) (hne : arr ≠ []) :
    ∃ (c : Code) (t0 t1 t2 t3 t4 t6 : WireTree) (c5 : Code) (us : List WireTree) (v6 : Any),
      StartsWithArray data c [t0, t1, t2, t3, t4, .node c5 us, t6] ∧
      (∀ t ∈ [t1, t3, t4] ++ us, WireTree.OrNil WireTree.IsNumber t) ∧
      WireTree.OrNil WireTree.IsBool t2 ∧ c5.isArray ∧ us.length = 3 ∧ t6.WF ∧ Decodes t6 v6 ∧
      arr[6]? = some v6 ∧
      ∃ u us' v vs, us = u :: us' ∧ Reads decodeInt64 ⟨0, 0⟩ v u.flatten 0 ∧
        arr[5]? = some (.slice (int64Value v :: vs)) := by
  have hnil {r : Bytes} {l : Levels} : (return [] : Decoder (List Any)) ⟨r, l⟩ ≠ .ok arr j :=
    fun h => hne (pure_ok_iff.mp h).1.symm
  obtain ⟨n, ⟨r, l⟩, hlen, h⟩ := bind_ok_iff.mp h
  split at h
  · exact absurd h hnil
  rename_i hn
  obtain rfl : n = some 7 := not_not.mp hn
  obtain ⟨c, hc, hsized, -, rfl, rfl⟩ := decodeArrayLen_ok_iff.mp hlen
  obtain ⟨_, _, hfirst, h₁⟩ := bind_ok_iff.mp h
  obtain ⟨t0, r, ht0, rfl, rfl⟩ := skipFirst_consumes hfirst
  obtain ⟨v1, t1, r, ht1, hP1, -, rfl, h₂⟩ := orNilArray_consumes decodeInt64_local h₁ hne
  obtain ⟨v2, t2, r, ht2, hP2, -, rfl, h₃⟩ := orNilArray_consumes decodeBoolValue_local h₂ hne
  obtain ⟨v3, t3, r, ht3, hP3, -, rfl, h₄⟩ := orNilArray_consumes decodeInt64_local h₃ hne
  obtain ⟨v4, t4, r, ht4, hP4, -, rfl, h₅⟩ := orNilArray_consumes decodeInt64_local h₄ hne
  obtain ⟨n, ⟨r, l⟩, hlen', hcosts⟩ := bind_ok_iff.mp h₅
  split at hcosts
  · exact absurd hcosts hnil
  rename_i hn
  obtain rfl : n = some 3 := not_not.mp hn
  obtain ⟨c5, hc5, hsized5, -, rfl, rfl⟩ := decodeArrayLen_ok_iff.mp hlen'
  obtain ⟨ca0, u0, r, hu0, hQ0, hreads, rfl, h₆⟩ := orNilArray_consumes decodeInt64_local hcosts hne
  obtain ⟨ca1, u1, r, hu1, hQ1, -, rfl, h₇⟩ := orNilArray_consumes decodeInt64_local h₆ hne
  obtain ⟨ca2, u2, r, hu2, hQ2, -, rfl, h₈⟩ := orNilArray_consumes decodeInt64_local h₇ hne
  obtain ⟨v6, ⟨r, l⟩, hv6, hpure⟩ := bind_ok_iff.mp h₈
  obtain ⟨rfl, rfl⟩ := pure_ok_iff.mp hpure
  obtain ⟨t6, ht6, hdec, rfl, -⟩ := (decodeElement_ok_iff rfl).mp hv6
  refine ⟨c, t0, t1, t2, t3, t4, t6, c5, [u0, u1, u2], v6, ⟨hc, ⟨hsized, ?_⟩, r, ?_⟩, ?_, hP2, hc5,
    rfl, ht6, hdec, rfl, u0, _, ca0, _, rfl, hreads, rfl⟩
  · exact ⟨ht0, ht1, ht2, ht3, ht4, ⟨hsized5, hu0, hu1, hu2, trivial⟩, ht6, trivial⟩
  · simp [WireTree.flatten, WireTree.flattenAll]
  · simp [hP1, hP3, hP4, hQ0, hQ1, hQ2]

/-- An array that is not nil comes from the elements. -/
theorem decodePNAnnounceArray_ok {data : Bytes} {arr : List Any} (h : decodePNAnnounceArray data = .ok arr)
    (hne : arr ≠ []) : ∃ j, decodePNElements ⟨data, ⟨0, 0⟩⟩ = .ok arr j := by
  unfold decodePNAnnounceArray at h
  split_ifs at h
  · exact absurd (Except.ok.inj h).symm hne
  · obtain ⟨⟨_, j⟩, hrun, rfl⟩ := Except.map_eq_ok_iff.mp h
    rw [Except.mapError_eq_ok_iff, runDecoder_ok_iff] at hrun
    exact ⟨j, hrun⟩

/-- Accepted data has the layout, up to nils in the place of numbers and booleans. -/
theorem accepted_orNil {data : Bytes} (h : pnAnnounceDataIsValid data = true) :
    (∃ arr, decodePNAnnounceArray data = .ok arr) ∧
      ∃ c ts, StartsWithArray data c ts ∧
        IsPNArray (WireTree.OrNil WireTree.IsNumber) (WireTree.OrNil WireTree.IsBool) ts := by
  unfold pnAnnounceDataIsValid at h
  split at h
  · rename_i v0 v1 v2 v3 v4 v5 v6 vs harr
    refine ⟨⟨_, harr⟩, ?_⟩
    have hmap : isAnyMap v6 = true := (Bool.and_eq_true_iff.mp h).2
    obtain ⟨j, hrun⟩ := decodePNAnnounceArray_ok harr (List.cons_ne_nil _ _)
    obtain ⟨c, t0, t1, t2, t3, t4, t6, c5, us, v6', hstart, hnum, hbool, hc5, hus, ht6, hdec, hv6, -⟩ :=
      decodePNElements_ok hrun (List.cons_ne_nil _ _)
    obtain rfl : v6 = v6' := by simpa using hv6
    obtain ⟨c6, es, rfl, hc6⟩ := isMap_of_decodes ht6 hdec hmap
    refine ⟨c, _, hstart, rfl, ?_, ?_, ⟨c5, us, rfl, hc5, hus, ?_⟩, ⟨c6, es, rfl, hc6⟩⟩
    · simp [hnum t1 (by simp), hnum t3 (by simp), hnum t4 (by simp)]
    · simpa using hbool
    · exact fun u hu => hnum u (by simp [hu])
  · cases h

/-- An array is read in one way. -/
theorem StartsWithArray.unique {data : Bytes} {c c' : Code} {ts ts' : List WireTree}
    (h : StartsWithArray data c ts) (h' : StartsWithArray data c' ts') : ts = ts' := by
  obtain ⟨r, hr⟩ := h.bytes
  obtain ⟨r', hr'⟩ := h'.bytes
  have heq := (WireTree.flatten_append_inj h.wf h'.wf (hr.trans hr'.symm)).1
  injection heq

theorem mem_pnValues {ts : List WireTree} {t : WireTree} :
    t ∈ pnValues ts ↔
      (∃ i ∈ [1, 2, 3, 4], ts[i]? = some t) ∨ ∃ u, ts[5]? = some u ∧ t ∈ u.children := by
  rw [pnValues, List.mem_append]
  apply or_congr
  · rw [List.mem_iff_getElem?]
    constructor
    · rintro ⟨j, hj⟩
      rw [List.getElem?_take, List.getElem?_drop] at hj
      split_ifs at hj with hlt
      refine ⟨1 + j, ?_, hj⟩
      simp
      omega
    · rintro ⟨i, hi, ht⟩
      simp at hi
      refine ⟨i - 1, ?_⟩
      rw [List.getElem?_take, List.getElem?_drop, if_pos (by omega), Nat.add_sub_cancel' (by omega), ht]
  · cases ts[5]? <;> simp

theorem IsPNArray.iff_nil_notMem {ts : List WireTree}
    (h : IsPNArray (WireTree.OrNil WireTree.IsNumber) (WireTree.OrNil WireTree.IsBool) ts) :
    IsPNArray WireTree.IsNumber WireTree.IsBool ts ↔ WireTree.nil ∉ pnValues ts := by
  obtain ⟨c, us, hus, hc, hlen, hnum⟩ := h.costs
  rw [mem_pnValues]
  constructor
  · intro hs hmem
    obtain ⟨i, hi, hnil⟩ | ⟨u, hu, hnil⟩ := hmem
    · by_cases htwo : i = 2
      · subst htwo
        exact hs.bool _ hnil
      · have hi' : i ∈ [1, 3, 4] := by
          simp at hi ⊢
          omega
        exact hs.numbers i hi' _ hnil
    · obtain ⟨c', us', hus', -, -, hnum'⟩ := hs.costs
      rw [hu, Option.some.injEq] at hus'
      subst hus'
      exact hnum' _ hnil
  · intro hnil
    simp only [not_or, not_exists, not_and] at hnil
    have hleft {P : WireTree → Prop} {t : WireTree} (ht : WireTree.OrNil P t) (hne : ¬t = .nil) : P t :=
      ht.resolve_right hne
    refine ⟨h.length, fun i hi t ht => ?_, fun t ht => ?_, ⟨c, us, hus, hc, hlen, fun u hu => ?_⟩,
      h.metadata⟩
    · refine hleft (h.numbers i hi t ht) ?_
      rintro rfl
      refine hnil.1 i ?_ ht
      simp at hi ⊢
      omega
    · refine hleft (h.bool t ht) ?_
      rintro rfl
      exact hnil.1 2 (by simp) ht
    · refine hleft (hnum u hu) ?_
      rintro rfl
      exact hnil.2 _ hus hu

/-- Accepted data has the layout of a propagation node's announce if and only if none of
the elements 1 to 4 and of the three costs is nil. -/
theorem accepted_layout_iff {data : Bytes} (h : pnAnnounceDataIsValid data = true) :
    PNAnnounceSound data ↔
      ∀ c ts, StartsWithArray data c ts → WireTree.nil ∉ pnValues ts := by
  obtain ⟨⟨arr, harr⟩, c, ts, hstart, horNil⟩ := accepted_orNil h
  constructor
  · intro hsound c' ts' hstart'
    obtain ⟨c'', ts'', hstart'', hlayout⟩ := hsound.layout
    obtain rfl := hstart.unique hstart'
    obtain rfl := hstart.unique hstart''
    exact horNil.iff_nil_notMem.mp hlayout
  · intro hnil
    refine ⟨⟨c, ts, hstart, horNil.iff_nil_notMem.mpr (hnil c ts hstart)⟩, ?_, fun o => ?_⟩
    · rw [pnStampCostFromAppData, harr]
      simp only [bind, Except.bind]
      split
      · split <;> exact ⟨_, rfl⟩
      · exact ⟨_, rfl⟩
    · rw [pnNameFromAppData, harr]
      simp only [bind, Except.bind]
      split
      · split <;> exact ⟨_, rfl⟩
      · exact ⟨_, rfl⟩

/-- An announce with one value for the elements 1, 3 and 4 and the costs. -/
def uniformPNAnnounce (value flag : Code) : List WireTree :=
  let v := WireTree.leaf value []
  [.nil, v, .leaf flag [], v, v, .node (.fixedArray 3) [v, v, v], .node (.fixedMap 0) []]

theorem uniformPNAnnounce_startsWith (value flag : Code) (hvalue : value.layout = .leaf 0)
    (hflag : flag.layout = .leaf 0) {data : Bytes}
    (hdata : data = (WireTree.node (.fixedArray 7) (uniformPNAnnounce value flag)).flatten) :
    StartsWithArray data (.fixedArray 7) (uniformPNAnnounce value flag) := by
  have hleaf {c : Code} (hc : c.layout = .leaf 0) : (WireTree.leaf c []).WF := by
    simp only [WireTree.WF, WireTree.Sized, hc, List.length_nil]
  have hv := hleaf hvalue
  refine ⟨rfl, ?_, by rw [hdata]⟩
  exact ⟨rfl, hleaf rfl, hv, hleaf hflag, hv, hv, ⟨rfl, hv, hv, hv, trivial⟩, ⟨rfl, trivial⟩, trivial⟩

/-- A node that announces the numbers 5. -/
theorem five_announce_sound :
    PNAnnounceSound [0x97, 0xc0, 5, 0xc3, 5, 5, 0x93, 5, 5, 5, 0x80] := by
  refine (accepted_layout_iff (by decide +kernel)).mpr fun c ts h => ?_
  rw [h.unique (uniformPNAnnounce_startsWith (.posFixedNum 5) .true rfl rfl rfl)]
  simp [uniformPNAnnounce, pnValues, WireTree.children, WireTree.nil]

/-- An announce without any number or boolean is accepted. -/
theorem nil_announce_accepted :
    pnAnnounceDataIsValid [0x97, 0xc0, 0xc0, 0xc0, 0xc0, 0xc0, 0x93, 0xc0, 0xc0, 0xc0, 0x80] = true ∧
      ¬IsPNLayout [0x97, 0xc0, 0xc0, 0xc0, 0xc0, 0xc0, 0x93, 0xc0, 0xc0, 0xc0, 0x80] := by
  refine ⟨by decide +kernel, ?_⟩
  rintro ⟨c, ts, hstart, hlayout⟩
  obtain rfl := hstart.unique (uniformPNAnnounce_startsWith .nil .nil rfl rfl rfl)
  exact hlayout.numbers 1 (by simp) .nil rfl

end Lxmf
