-- SUMMARY: What the payload decoder makes of an encoded field value, and when its limits let it.
import ReticulumMf.Lib.Except
import ReticulumMf.Msgpack.Reread
import ReticulumMf.Lxmf.Split
import Mathlib.Data.List.Nodup

/-!
# Reading field values back

`Any.reread` is the value the decoder makes of an encoded one. The decoder gets
that far exactly when the value keeps to its limits: arrays nested at most 10000
deep, maps at most 32 deep and with at most 8192 entries (`tree_readsIff`).
-/

namespace Lxmf

open Msgpack ByteReader

/-! ## Nesting -/

mutual

/-- How deep a value nests, where each element of a slice lies `a` below the
slice, and a map counts `m`. -/
def nesting (a m : Nat) : Any → Nat
  | .slice xs => nestingElems a m xs
  | .map _ es => m + nestingEntries a m es
  | _ => 0

def nestingElems (a m : Nat) : List Any → Nat
  | [] => 0
  | x :: xs => max (a + nesting a m x) (nestingElems a m xs)

def nestingEntries (a m : Nat) : List (Scalar × Any) → Nat
  | [] => 0
  | (_, v) :: es => max (nesting a m v) (nestingEntries a m es)

end

/-- The most arrays that lie around a value. -/
def arrayNesting (v : Any) : Nat := nesting 1 0 v

/-- The most maps that lie within one another. -/
def mapNesting (v : Any) : Nat := nesting 0 1 v

theorem nesting_slice_le_iff {a m n : Nat} {xs : List Any} :
    nesting a m (.slice xs) ≤ n ↔ ∀ x ∈ xs, a + nesting a m x ≤ n := by
  rw [nesting]
  induction xs with
  | nil => simp [nestingElems]
  | cons x xs ih => simp [nestingElems, ih]

theorem nesting_map_le_iff {a m n : Nat} {k : MapKind} {es : List (Scalar × Any)} :
    nesting a m (.map k es) ≤ n ↔ m ≤ n ∧ ∀ e ∈ es, m + nesting a m e.2 ≤ n := by
  rw [nesting]
  induction es with
  | nil => simp [nestingEntries]
  | cons e es ih =>
    have hmax : m + max (nesting a m e.2) (nestingEntries a m es) ≤ n ↔
        m + nesting a m e.2 ≤ n ∧ m + nestingEntries a m es ≤ n := by omega
    simp only [nestingEntries, hmax, ih, List.forall_mem_cons]
    tauto

/-- A map has at most as many entries as the decoder takes. -/
def SmallMaps (v : Any) : Prop :=
  v.Forall fun
    | .map _ es => es.length ≤ msgpackMapMaxPairs
    | _ => True

/-- The value keeps to the decoder's limits when it is read at the levels `l`. -/
def WithinLimits (l : Levels) (v : Any) : Prop :=
  l.depth + arrayNesting v ≤ defaultDecodeDepthLimit ∧
    l.mapDepth + mapNesting v ≤ msgpackMapMaxDepth ∧ SmallMaps v

/-! ## Field values -/

/-- The keys of a Go map of this type: distinct, and of the type's key type. -/
def MapKind.Keys : MapKind → List Scalar → Prop
  | .byte, ks => ks.Nodup ∧ ∀ k ∈ ks, ∃ b, k = byteKey b
  | .string, ks => ks.Nodup ∧ ∀ k ∈ ks, ∃ s, k = .string s
  | .any, _ => False

/-- A value made of nil, booleans, integers, floats, strings, byte slices,
slices, and maps with byte or string keys. -/
def FieldValue (v : Any) : Prop :=
  v.Forall fun
    | .scalar s => s.IsPlain
    | .map k es => MapKind.Keys k (es.map Prod.fst)
    | .typedNil (.map .any) => False
    | .unsupported _ => False
    | _ => True

mutual

/-- A field value as it is read back. Below a slice the decoder is loose, below
a map strict. -/
def reread (loose : Bool) : Any → Any
  | .scalar s => .scalar (s.reread loose)
  | .bytes b => rereadBytes loose b
  | .slice xs => .slice (rereadAll xs)
  | .map _ es => .map .any (rereadEntries es)
  | .typedNil _ => .scalar .nil
  | .unsupported t => .unsupported t

def rereadAll : List Any → List Any
  | [] => []
  | x :: xs => reread true x :: rereadAll xs

def rereadEntries : List (Scalar × Any) → List (Scalar × Any)
  | [] => []
  | (k, v) :: es => (k.reread false, reread false v) :: rereadEntries es

end

theorem rereadAll_eq (xs : List Any) : rereadAll xs = xs.map (reread true) := by
  induction xs with
  | nil => rfl
  | cons x xs ih => rw [rereadAll, ih, List.map_cons]

theorem rereadEntries_eq (es : List (Scalar × Any)) :
    rereadEntries es = es.map fun e => (e.1.reread false, reread false e.2) := by
  induction es with
  | nil => rfl
  | cons e es ih => rw [rereadEntries, ih, List.map_cons]

/-! ## Keys -/

/-- A byte key is still a key for that byte after it was written and read. -/
theorem asByteKey_reread (k : UInt8) : asByteKey ((byteKey k).reread false) = .ok k := by
  have h : ∀ i : Fin 256, asByteKey ((byteKey (UInt8.ofFin i)).reread false) = .ok (UInt8.ofFin i) := by
    decide +kernel
  exact h k.toFin

theorem byteKey_inj {a b : UInt8} (h : byteKey a = byteKey b) : a = b := by
  have hread := asByteKey_reread a
  rw [h, asByteKey_reread b] at hread
  exact (Except.ok.inj hread).symm

theorem keyEq_int {k : IntKind} {v : BitVec k.width} {s : Scalar} (h : keyEq (.int k v) s = true) :
    .int k v = s := by
  cases s <;> exact of_decide_eq_true h

theorem keyEq_string {b : Bytes} {s : Scalar} (h : keyEq (.string b) s = true) : .string b = s := by
  cases s <;> exact of_decide_eq_true h

/-- The keys of a map are still told apart after they were written and read. -/
theorem MapKind.Keys.pairwise_reread {k : MapKind} {ks : List Scalar} (h : MapKind.Keys k ks) :
    (ks.map (Scalar.reread false)).Pairwise fun a b => keyEq a b = false := by
  rw [List.pairwise_map]
  cases k with
  | byte =>
    apply h.1.imp_of_mem
    intro a b ha hb hne
    obtain ⟨a, rfl⟩ := h.2 a ha
    obtain ⟨b, rfl⟩ := h.2 b hb
    rw [← Bool.not_eq_true]
    intro heq
    have hsame := congrArg asByteKey (keyEq_int heq)
    apply hne
    exact congrArg byteKey
      (Except.ok.inj ((asByteKey_reread a).symm.trans (hsame.trans (asByteKey_reread b))))
  | string =>
    apply h.1.imp_of_mem
    intro a b ha hb hne
    obtain ⟨a, rfl⟩ := h.2 a ha
    obtain ⟨b, rfl⟩ := h.2 b hb
    rw [← Bool.not_eq_true]
    intro heq
    exact hne (keyEq_string heq)
  | any => exact h.elim

theorem insertEntry_new {k : Scalar} {v : Any} {es : List (Scalar × Any)}
    (h : ∀ e ∈ es, keyEq e.1 k = false) : insertEntry k v es = es ++ [(k, v)] := by
  induction es with
  | nil => rfl
  | cons e es ih =>
    have he : ¬ keyEq e.1 k = true := by simp [h e (by simp)]
    rw [insertEntry, if_neg he, ih (fun e' he' => h e' (by simp [he'])), List.cons_append]

theorem MapKind.Keys.scalars {k : MapKind} {ks : List Scalar} (h : MapKind.Keys k ks) :
    ∀ s ∈ ks, s.IsPlain := by
  intro s hs
  cases k with
  | byte =>
    obtain ⟨b, rfl⟩ := h.2 s hs
    exact True.intro
  | string =>
    obtain ⟨b, rfl⟩ := h.2 s hs
    exact True.intro
  | any => exact h.elim

theorem MapKind.Keys.perm {k : MapKind} {ks ks' : List Scalar} (hperm : ks'.Perm ks)
    (h : MapKind.Keys k ks) : MapKind.Keys k ks' := by
  cases k with
  | any => exact h
  | byte | string =>
    constructor
    · exact hperm.nodup_iff.mpr h.1
    · intro s hs
      exact h.2 s (hperm.mem_iff.mp hs)

/-! ## Limits -/

theorem withinLimits_leaf {l : Levels} {v : Any} (hdepth : l.depth ≤ defaultDecodeDepthLimit)
    (hmap : l.mapDepth ≤ msgpackMapMaxDepth) (hv : nesting 1 0 v = 0 ∧ nesting 0 1 v = 0)
    (hsmall : SmallMaps v) : WithinLimits l v := by
  refine ⟨?_, ?_, hsmall⟩
  · rw [arrayNesting, hv.1]
    exact hdepth
  · rw [mapNesting, hv.2]
    exact hmap

/-- The levels inside an array. -/
def inArray (l : Levels) : Levels := { l with depth := l.depth + 1 }

/-- The levels inside a map. -/
def inMap (l : Levels) : Levels := { l with mapDepth := l.mapDepth + 1 }

theorem withinLimits_slice {l : Levels} {xs : List Any} (hdepth : l.depth ≤ defaultDecodeDepthLimit)
    (hmap : l.mapDepth ≤ msgpackMapMaxDepth) :
    WithinLimits l (.slice xs) ↔ ∀ x ∈ xs, WithinLimits (inArray l) x := by
  have harray : l.depth + arrayNesting (.slice xs) ≤ defaultDecodeDepthLimit ↔
      arrayNesting (.slice xs) ≤ defaultDecodeDepthLimit - l.depth := by omega
  have hmaps : l.mapDepth + mapNesting (.slice xs) ≤ msgpackMapMaxDepth ↔
      mapNesting (.slice xs) ≤ msgpackMapMaxDepth - l.mapDepth := by omega
  have hsmall : SmallMaps (.slice xs) ↔ ∀ x ∈ xs, SmallMaps x := by
    simp only [SmallMaps, Any.forall_slice_iff, true_and]
  rw [WithinLimits, harray, hmaps, hsmall, arrayNesting, mapNesting, nesting_slice_le_iff,
    nesting_slice_le_iff, ← forall₂_and, ← forall₂_and]
  apply forall₂_congr
  intro x _
  apply and_congr
  · simp only [inArray, arrayNesting]
    omega
  · apply and_congr _ Iff.rfl
    simp only [inArray, mapNesting]
    omega

theorem withinLimits_map {l : Levels} {k : MapKind} {es : List (Scalar × Any)}
    (hdepth : l.depth ≤ defaultDecodeDepthLimit) (hmap : l.mapDepth < msgpackMapMaxDepth) :
    WithinLimits l (.map k es) ↔
      es.length ≤ msgpackMapMaxPairs ∧ ∀ e ∈ es, WithinLimits (inMap l) e.2 := by
  have harray : l.depth + arrayNesting (.map k es) ≤ defaultDecodeDepthLimit ↔
      ∀ e ∈ es, l.depth + arrayNesting e.2 ≤ defaultDecodeDepthLimit := by
    have hshift : l.depth + arrayNesting (.map k es) ≤ defaultDecodeDepthLimit ↔
        nesting 1 0 (.map k es) ≤ defaultDecodeDepthLimit - l.depth := by
      rw [arrayNesting]
      omega
    rw [hshift, nesting_map_le_iff, and_iff_right (Nat.zero_le _)]
    apply forall₂_congr
    intro e _
    rw [arrayNesting]
    omega
  have hmaps : l.mapDepth + mapNesting (.map k es) ≤ msgpackMapMaxDepth ↔
      ∀ e ∈ es, (inMap l).mapDepth + mapNesting e.2 ≤ msgpackMapMaxDepth := by
    have hshift : l.mapDepth + mapNesting (.map k es) ≤ msgpackMapMaxDepth ↔
        nesting 0 1 (.map k es) ≤ msgpackMapMaxDepth - l.mapDepth := by
      rw [mapNesting]
      omega
    rw [hshift, nesting_map_le_iff, and_iff_right (by omega)]
    apply forall₂_congr
    intro e _
    rw [mapNesting, inMap]
    simp only
    omega
  have hsmall : SmallMaps (.map k es) ↔
      es.length ≤ msgpackMapMaxPairs ∧ ∀ e ∈ es, SmallMaps e.2 := by
    simp only [SmallMaps, Any.forall_map_iff]
  rw [WithinLimits, harray, hmaps, hsmall, and_left_comm (b := es.length ≤ _), and_left_comm,
    ← forall₂_and, ← forall₂_and]
  rfl

theorem not_withinLimits_map {l : Levels} {k : MapKind} {es : List (Scalar × Any)}
    (hmap : ¬ l.mapDepth < msgpackMapMaxDepth) : ¬ WithinLimits l (.map k es) := by
  intro h
  have hle := h.2.1
  rw [mapNesting, nesting] at hle
  omega

/-! ## Entries -/

/-- The entries of a map in a row. Their keys differ, so none replaces another. -/
theorem entries_readsIff {dec : Decoder Any} {l : Levels} {p : Any → Prop} {es : List (Scalar × Any)}
    {ts : List WireTree} (hts : Any.entryTrees true es = some ts)
    (hkey : ∀ e ∈ es, ∀ r, dec ⟨(e.1.tree true).flatten ++ r, l⟩ =
      .ok (.scalar (e.1.reread false)) ⟨r, l⟩)
    (hvalue : ∀ e ∈ es, ∀ t, e.2.tree true = some t →
      ∀ r, ReadsIff dec ⟨t.flatten ++ r, l⟩ (p e.2) (reread false e.2) ⟨r, l⟩)
    {out : List (Scalar × Any)}
    (hnew : ((out ++ rereadEntries es).map Prod.fst).Pairwise fun a b => keyEq a b = false)
    (r : Bytes) :
    ReadsIff (iterate (decodeEntry dec) es.length out) ⟨WireTree.flattenAll ts ++ r, l⟩
      (∀ e ∈ es, p e.2) (out ++ rereadEntries es) ⟨r, l⟩ := by
  induction es generalizing ts out with
  | nil =>
    simp only [Any.entryTrees, Option.some.injEq] at hts
    subst hts
    apply ReadsIff.congr (ReadsIff.of_ok (by
      simp [iterate, WireTree.flattenAll, rereadEntries, pure, EStateM.pure]))
    simp
  | cons e es ih =>
    simp only [Any.entryTrees, bind, pure, Option.bind_eq_some_iff, Option.some.injEq] at hts
    obtain ⟨t, ht, ts', hts', rfl⟩ := hts
    have hv := hvalue e (by simp) t ht (WireTree.flattenAll ts' ++ r)
    have hentry : insertEntry (e.1.reread false) (reread false e.2) out =
        out ++ [(e.1.reread false, reread false e.2)] := by
      apply insertEntry_new
      intro e' he'
      rw [List.map_append, List.pairwise_append] at hnew
      exact hnew.2.2 _ (List.mem_map_of_mem he') _ (by simp [rereadEntries])
    have hstep : ReadsIff (decodeEntry dec out)
        ⟨(e.1.tree true).flatten ++ (t.flatten ++ (WireTree.flattenAll ts' ++ r)), l⟩ (p e.2)
        (out ++ [(e.1.reread false, reread false e.2)]) ⟨WireTree.flattenAll ts' ++ r, l⟩ := by
      apply ReadsIff.bind_ok (hkey e (by simp) _)
      have hins := hv.map (f := fun v => insertEntry (e.1.reread false) v out)
      rwa [hentry] at hins
    have hsplit : out ++ rereadEntries (e :: es) =
        (out ++ [(e.1.reread false, reread false e.2)]) ++ rereadEntries es := by
      simp [rereadEntries]
    rw [hsplit] at hnew ⊢
    have hrest := ih hts' (fun y hy => hkey y (by simp [hy])) (fun y hy => hvalue y (by simp [hy])) hnew
    have hboth := hstep.bind hrest
    rw [WireTree.flattenAll, WireTree.flattenAll, List.append_assoc, List.append_assoc]
    apply ReadsIff.congr _ (List.forall_mem_cons (p := fun e : Scalar × Any => p e.2)).symm
    exact hboth

/-! ## Values -/

theorem FieldValue.elem {xs : List Any} (h : FieldValue (.slice xs)) : ∀ x ∈ xs, FieldValue x :=
  (Any.forall_slice_iff.mp h).2

theorem FieldValue.keys {k : MapKind} {es : List (Scalar × Any)} (h : FieldValue (.map k es)) :
    MapKind.Keys k (es.map Prod.fst) :=
  (Any.forall_map_iff.mp h).1

theorem FieldValue.value {k : MapKind} {es : List (Scalar × Any)} (h : FieldValue (.map k es)) :
    ∀ e ∈ es, FieldValue e.2 :=
  (Any.forall_map_iff.mp h).2

theorem decodeMap_readsIff {dec : Decoder Any} {l : Levels} {k : MapKind} {p : Any → Prop}
    {es : List (Scalar × Any)} {ts : List WireTree} (hts : Any.entryTrees true es = some ts)
    (hfits : (Any.map k es).Fits) (hkeys : MapKind.Keys k (es.map Prod.fst))
    (hroom : l.mapDepth < msgpackMapMaxDepth)
    (hkey : ∀ e ∈ es, ∀ r, dec ⟨(e.1.tree true).flatten ++ r, inMap l⟩ =
      .ok (.scalar (e.1.reread false)) ⟨r, inMap l⟩)
    (hvalue : ∀ e ∈ es, ∀ t, e.2.tree true = some t →
      ∀ r, ReadsIff dec ⟨t.flatten ++ r, inMap l⟩ (p e.2) (reread false e.2) ⟨r, inMap l⟩)
    (r : Bytes) :
    ReadsIff (mapCtx.decodeMap dec)
      ⟨(Code.map es.length).toByte :: (WireTree.lengthBytes (.map es.length) (2 * es.length) ++
        (WireTree.flattenAll ts ++ r)), l⟩
      (es.length ≤ msgpackMapMaxPairs ∧ ∀ e ∈ es, p e.2) (.map .any (rereadEntries es)) ⟨r, l⟩ := by
  have htree : (Any.map k es).tree true = some (.node (.map es.length) ts) := by
    rw [Any.tree, hts, Option.map_some]
  have hlen : 2 * es.length ≤ (WireTree.flattenAll ts).length :=
    AreValues.length_le ⟨ts, (Any.tree_wf htree hfits).2, Any.length_entryTrees hts, rfl⟩
  have hsized := Code.sized_map (Any.forall_map_iff.mp hfits).1.1
  have hhead := decodeMapLen_reads (inMap l) (Code.isMap_map es.length) hsized
    (b := WireTree.flattenAll ts ++ r) (by rw [List.length_append]; omega)
  have henter : mapCtx.enter l = .ok (inMap l) := if_neg (Nat.not_le.mpr hroom)
  apply ReadsIff.within henter rfl
  apply ReadsIff.bind_ok hhead
  by_cases hpairs : es.length ≤ msgpackMapMaxPairs
  · have hnew : (([] ++ rereadEntries es).map Prod.fst).Pairwise fun a b => keyEq a b = false := by
      have h := hkeys.pairwise_reread
      rw [List.map_map] at h
      rw [List.nil_append, rereadEntries_eq, List.map_map]
      exact h
    have hbody := (entries_readsIff hts hkey hvalue hnew r).map (f := Any.map .any)
    apply ReadsIff.congr _ (and_iff_right hpairs).symm
    exact hbody.of_eq (congrFun (if_neg (Nat.not_lt.mpr hpairs)) _)
  · apply ReadsIff.of_ne
    · intro b j hb
      have hfail := (congrFun (if_pos (Nat.lt_of_not_le hpairs)) _).symm.trans hb
      exact fail_ne_ok hfail
    · exact fun h => hpairs h.1

/-- The decoder reads an encoded field value if and only if it keeps to the
limits. The fuel and the levels always add up to the same number, so the fuel
never runs out first. -/
theorem tree_readsIff {v : Any} (hv : FieldValue v) (hfits : v.Fits) {t : WireTree}
    (ht : v.tree true = some t) {fuel : Nat} {l : Levels} (loose : Bool) (r : Bytes)
    (hdepth : l.depth ≤ defaultDecodeDepthLimit) (hmap : l.mapDepth ≤ msgpackMapMaxDepth)
    (hfuel : fuel + l.depth + l.mapDepth = decodeFuel mapCtx) :
    ReadsIff (decodeInterface mapCtx.decodeMap fuel loose) ⟨t.flatten ++ r, l⟩ (WithinLimits l v)
      (reread loose v) ⟨r, l⟩ := by
  have hlimits : decodeFuel mapCtx = defaultDecodeDepthLimit + msgpackMapMaxDepth + 1 := rfl
  obtain ⟨fuel, rfl⟩ : ∃ n, fuel = n + 1 := ⟨fuel - 1, by omega⟩
  induction v using Any.induct generalizing t fuel l loose r with
  | scalar s =>
    simp only [Any.tree, Option.some.injEq] at ht
    subst ht
    apply ReadsIff.congr (ReadsIff.of_ok (Scalar.reads loose r l hv hfits))
    exact iff_of_true trivial (withinLimits_leaf hdepth hmap ⟨rfl, rfl⟩ trivial)
  | bytes b =>
    simp only [Any.tree, Option.some.injEq] at ht
    subst ht
    apply ReadsIff.congr (ReadsIff.of_ok (bytes_reads loose r l hfits))
    exact iff_of_true trivial (withinLimits_leaf hdepth hmap ⟨rfl, rfl⟩ trivial)
  | typedNil k =>
    simp only [Any.tree, Option.some.injEq] at ht
    subst ht
    apply ReadsIff.congr (ReadsIff.of_ok (Scalar.reads (s := .nil) loose r l trivial trivial))
    exact iff_of_true trivial (withinLimits_leaf hdepth hmap ⟨rfl, rfl⟩ trivial)
  | unsupported s => exact (hv : False).elim
  | slice xs ih =>
    simp only [Any.tree, Option.map_eq_some_iff] at ht
    obtain ⟨ts, hts, rfl⟩ := ht
    have hlen := (Any.forall_slice_iff.mp hfits).1
    have helem (x) (hx : x ∈ xs) (t) (ht : x.tree true = some t) (r : Bytes) :
        ReadsIff (decodeInterfaceCond (decodeInterface mapCtx.decodeMap fuel true))
          ⟨t.flatten ++ r, l⟩ (WithinLimits (inArray l) x) (reread true x) ⟨r, l⟩ := by
      by_cases hroom : l.depth + 1 ≤ defaultDecodeDepthLimit
      · obtain ⟨f, rfl⟩ : ∃ f, fuel = f + 1 := ⟨fuel - 1, by omega⟩
        have henter : enterDepth l = .ok (inArray l) := if_neg (by omega)
        apply ReadsIff.within henter rfl
        apply ih x hx (hv.elem x hx) ((Any.forall_slice_iff.mp hfits).2 x hx) ht
        · exact hroom
        · exact hmap
        · simp only [inArray]
          omega
      · have henter : enterDepth l = .error (.depth defaultDecodeDepthLimit) := if_pos (by omega)
        apply ReadsIff.of_ne (within_ne_ok henter)
        intro hlim
        have hle := hlim.1
        simp only [inArray] at hle
        omega
    rw [WireTree.flatten, List.cons_append, Any.length_trees hts, List.append_assoc, reread,
      rereadAll_eq]
    apply ReadsIff.congr _ (withinLimits_slice hdepth hmap).symm
    exact (decodeSlice_readsIff l hts hfits helem r).of_eq
      (decodeInterface_array loose l (Code.isArray_array xs.length) _)
  | map k es ih =>
    simp only [Any.tree, Option.map_eq_some_iff] at ht
    obtain ⟨ts, hts, rfl⟩ := ht
    rw [WireTree.flatten, List.cons_append, Any.length_entryTrees hts, List.append_assoc, reread]
    apply ReadsIff.of_eq _ (decodeInterface_map loose l (Code.isMap_map es.length) _)
    by_cases hroom : l.mapDepth < msgpackMapMaxDepth
    · obtain ⟨f, rfl⟩ : ∃ f, fuel = f + 1 := ⟨fuel - 1, by omega⟩
      have hfit := Any.forall_map_iff.mp hfits
      apply ReadsIff.congr _ (withinLimits_map hdepth hroom).symm
      apply decodeMap_readsIff hts hfits hv.keys hroom
      · intro e he r
        exact Scalar.reads false r (inMap l) (hv.keys.scalars _ (List.mem_map_of_mem he))
          (hfit.1.2 e he)
      · intro e he t ht r
        apply ih e he (hv.value e he) (hfit.2 e he) ht
        · exact hdepth
        · exact hroom
        · simp only [inMap]
          omega
    · have henter : mapCtx.enter l = .error (.mapNesting msgpackMapMaxDepth) :=
        if_pos (Nat.le_of_not_lt hroom)
      exact ReadsIff.of_ne (within_ne_ok henter) (not_withinLimits_map hroom)

/-! ## Elements -/

theorem decodes_iff {v : Any} (hv : FieldValue v) (hfits : v.Fits) {t : WireTree}
    (ht : v.tree true = some t) (w : Any) :
    Decodes t w ↔ WithinLimits ⟨0, 0⟩ v ∧ w = reread false v := by
  have hread (r : Bytes) : ReadsIff decodeElement ⟨t.flatten ++ r, ⟨0, 0⟩⟩ (WithinLimits ⟨0, 0⟩ v)
      (reread false v) ⟨r, ⟨0, 0⟩⟩ :=
    tree_readsIff hv hfits ht false r (Nat.zero_le _) (Nat.zero_le _) rfl
  constructor
  · intro h
    have hlimits := (hread []).only _ _ (h [])
    refine ⟨hlimits, ?_⟩
    have heq := (h []).symm.trans ((hread []).reads hlimits)
    simpa using heq
  · intro h r
    rw [h.2]
    exact (hread r).reads h.1

theorem forall₂_decodes_iff {xs : List Any} (hv : ∀ x ∈ xs, FieldValue x) (hfits : ∀ x ∈ xs, x.Fits)
    {ts : List WireTree} (hts : Any.trees true xs = some ts) (vs : List Any) :
    List.Forall₂ Decodes ts vs ↔
      (∀ x ∈ xs, WithinLimits ⟨0, 0⟩ x) ∧ vs = xs.map (reread false) := by
  induction xs generalizing ts vs with
  | nil =>
    simp only [Any.trees, Option.some.injEq] at hts
    subst hts
    simp
  | cons x xs ih =>
    simp only [Any.trees, bind, pure, Option.bind_eq_some_iff, Option.some.injEq] at hts
    obtain ⟨t, ht, ts', hts', rfl⟩ := hts
    have hx := decodes_iff (hv x (by simp)) (hfits x (by simp)) ht
    have hxs := ih (fun y hy => hv y (by simp [hy])) (fun y hy => hfits y (by simp [hy])) hts'
    rw [List.forall_mem_cons, List.map_cons]
    constructor
    · intro h
      cases h with
      | cons hhead htail =>
        obtain ⟨hlimits, rfl⟩ := (hx _).mp hhead
        obtain ⟨hall, rfl⟩ := (hxs _).mp htail
        exact ⟨⟨hlimits, hall⟩, rfl⟩
    · rintro ⟨⟨hlimits, hall⟩, rfl⟩
      exact .cons ((hx _).mpr ⟨hlimits, rfl⟩) ((hxs _).mpr ⟨hall, rfl⟩)

end Lxmf
