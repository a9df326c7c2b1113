-- SUMMARY: The value a receiver ends up with for a field value, and which values it refuses to convert.
import ReticulumMf.Msgpack.Order
import ReticulumMf.Lxmf.Fields
import ReticulumMf.Lxmf.Message
import ReticulumMf.Lxmf.Reread
import Mathlib.Data.List.Perm.Subperm

/-!
# Received field values

`received` is a field value after encoding, decoding and normalization. The
conversion re-keys every map by bytes, so it refuses a value exactly if some
map with string keys in it has an entry (`normalize_reread_iff`). The orders in
which maps are iterated on the way do not matter.
-/

namespace Lxmf

open Msgpack ByteReader

/-! ## Visiting a field value -/

theorem FieldValue.visit (o : MapOrder) {v : Any} (h : FieldValue v) (path : List Nat) :
    FieldValue (o.visit path v) := by
  apply Any.Forall.visit o _ _ h
  · intro xs ys _ hxs
    exact hxs
  · intro k es es' hperm hes
    exact MapKind.Keys.perm hperm hes

theorem SmallMaps.visit (o : MapOrder) {v : Any} (h : SmallMaps v) (path : List Nat) :
    SmallMaps (o.visit path v) := by
  apply Any.Forall.visit o _ _ h
  · intro xs ys _ hxs
    exact hxs
  · intro k es es' hperm hes
    have hlen : es'.length = es.length := by simpa using hperm.length_eq
    exact Nat.le_trans (Nat.le_of_eq hlen) hes

theorem nestingEntries_perm {a m : Nat} {es es' : List (Scalar × Any)} (h : es.Perm es') :
    nestingEntries a m es = nestingEntries a m es' := by
  induction h with
  | nil => rfl
  | cons e _ ih => rw [nestingEntries, nestingEntries, ih]
  | swap e e' es =>
    rw [nestingEntries, nestingEntries, nestingEntries, nestingEntries]
    omega
  | trans _ _ ih ih' => rw [ih, ih']

theorem nesting_visit (a m : Nat) (o : MapOrder) (v : Any) (path : List Nat) :
    nesting a m (o.visit path v) = nesting a m v := by
  induction v using Any.induct generalizing path with
  | slice xs ih =>
    have helems (i : Nat) : nestingElems a m (o.visitAll path i xs) = nestingElems a m xs := by
      induction xs generalizing i with
      | nil => rfl
      | cons x xs ihs =>
        rw [MapOrder.visitAll, nestingElems, nestingElems, ih x (by simp),
          ihs (fun y hy => ih y (by simp [hy]))]
    rw [MapOrder.visit, nesting, nesting, helems]
  | map k es ih =>
    have hentries (i : Nat) :
        nestingEntries a m (o.visitEntries path i es) = nestingEntries a m es := by
      induction es generalizing i with
      | nil => rfl
      | cons e es ihs =>
        rw [MapOrder.visitEntries, nestingEntries, nestingEntries, ih e (by simp),
          ihs (fun y hy => ih y (by simp [hy]))]
    rw [MapOrder.visit, nesting, nesting, nestingEntries_perm (o.isPerm path _), hentries]
  | scalar s => rfl
  | bytes b => rfl
  | typedNil k => rfl
  | unsupported t => rfl

/-! ## Maps with string keys -/

/-- No map with string keys in the value has an entry. -/
def StringMapsEmpty (v : Any) : Prop :=
  v.Forall fun
    | .map .string es => es = []
    | _ => True

/-- A map keyed by bytes has at most 256 entries. -/
theorem MapKind.Keys.length_le {ks : List Scalar} (h : MapKind.Keys .byte ks) : ks.length ≤ 256 := by
  have hsub : ks ⊆ (List.range 256).map fun n => byteKey (UInt8.ofNat n) := by
    intro k hk
    obtain ⟨b, rfl⟩ := h.2 k hk
    apply List.mem_map.mpr
    exact ⟨b.toNat, List.mem_range.mpr b.toNat_lt, by rw [UInt8.ofNat_toNat]⟩
  have hle := (h.1.subperm hsub).length_le
  rwa [List.length_map, List.length_range] at hle

theorem FieldValue.smallMaps {v : Any} (hv : FieldValue v) (h : StringMapsEmpty v) : SmallMaps v := by
  induction v using Any.induct with
  | slice xs ih =>
    apply Any.forall_slice_iff.mpr
    exact ⟨True.intro, fun x hx => ih x hx (hv.elem x hx) ((Any.forall_slice_iff.mp h).2 x hx)⟩
  | map k es ih =>
    have hes := Any.forall_map_iff.mp h
    apply Any.forall_map_iff.mpr
    refine ⟨?_, fun e he => ih e he (hv.value e he) (hes.2 e he)⟩
    cases k with
    | byte =>
      have hle := hv.keys.length_le
      rw [List.length_map] at hle
      exact Nat.le_trans hle (by decide)
    | string =>
      have hnil : es = [] := hes.1
      rw [hnil]
      exact Nat.zero_le _
    | any => exact hv.keys.elim
  | scalar s => exact True.intro
  | bytes b => exact True.intro
  | typedNil k => exact True.intro
  | unsupported t => exact True.intro

/-! ## What is received -/

mutual

/-- A field value as the receiver has it, in a slice (`loose`) or in a map. -/
def received (loose : Bool) : Any → Any
  | .scalar s => .scalar (s.reread loose)
  | .bytes b => rereadBytes loose b
  | .slice xs => .slice (receivedAll xs)
  | .map _ es => .map .byte (receivedEntries es)
  | .typedNil _ => .scalar .nil
  | .unsupported t => .unsupported t

def receivedAll : List Any → List Any
  | [] => []
  | x :: xs => received true x :: receivedAll xs

def receivedEntries : List (Scalar × Any) → List (Scalar × Any)
  | [] => []
  | (k, v) :: es => (k, received false v) :: receivedEntries es

end

theorem receivedAll_eq (xs : List Any) : receivedAll xs = xs.map (received true) := by
  induction xs with
  | nil => rfl
  | cons x xs ih => rw [receivedAll, ih, List.map_cons]

theorem receivedEntries_eq (es : List (Scalar × Any)) :
    receivedEntries es = es.map fun e => (e.1, received false e.2) := by
  induction es with
  | nil => rfl
  | cons e es ih => rw [receivedEntries, ih, List.map_cons]

theorem FieldMap.forall_toAny_iff {p : Any → Prop} {m : FieldMap} :
    m.toAny.Forall p ↔ p m.toAny ∧ ∀ e ∈ m, e.2.Forall p := by
  rw [FieldMap.toAny, Any.forall_map_iff, List.forall_mem_map]

/-- The received entries of a map keyed by bytes. -/
def FieldMap.received (m : FieldMap) : FieldMap := m.map fun e => (e.1, Lxmf.received false e.2)

/-- Keys in increasing order: the one way in which a Go map is listed here. -/
def FieldMap.Sorted (m : FieldMap) : Prop := m.Pairwise fun e e' => e.1 < e'.1

/-- Every map with byte keys in the value is listed by increasing keys. -/
def SortedMaps (v : Any) : Prop :=
  v.Forall fun
    | .map .byte es => ∃ m : FieldMap, .map .byte es = m.toAny ∧ m.Sorted
    | _ => True

theorem FieldMap.insert_last {m : FieldMap} {k : UInt8} {v : Any} (h : ∀ e ∈ m, e.1 < k) :
    m.insert k v = m ++ [(k, v)] := by
  induction m with
  | nil => rfl
  | cons e m ih =>
    have hlt := h e (by simp)
    rw [FieldMap.insert, if_neg (UInt8.lt_asymm hlt), if_neg (UInt8.ne_of_lt hlt).symm,
      ih (fun e' he' => h e' (by simp [he'])), List.cons_append]

theorem FieldMap.insertAll_sorted {out m : FieldMap} (h : (out ++ m).Pairwise fun e e' => e.1 < e'.1) :
    out.insertAll m = out ++ m := by
  induction m generalizing out with
  | nil => rw [List.append_nil]; rfl
  | cons e m ih =>
    have hlast : out.insert e.1 e.2 = out ++ [e] := by
      apply FieldMap.insert_last
      intro e' he'
      exact (List.pairwise_append.mp h).2.2 e' he' e (by simp)
    have hsplit : out ++ e :: m = (out ++ [e]) ++ m := by simp
    rw [hsplit] at h ⊢
    rw [← ih h, ← hlast]
    rfl

/-! ## Normalization -/

/-- The conversion of a value that was written in the order `o` and read. -/
def Converts (o : MapOrder) (loose : Bool) (v : Any) : Prop :=
  ∀ path w, normalizeFieldValue (reread loose (o.visit path v)) = .ok w ↔
    StringMapsEmpty v ∧ w = received loose v

theorem normalizeAll_reread_iff {o : MapOrder} {xs : List Any} (h : ∀ x ∈ xs, Converts o true x)
    (path : List Nat) (i : Nat) (ys : List Any) :
    normalizeAll (rereadAll (o.visitAll path i xs)) = .ok ys ↔
      (∀ x ∈ xs, StringMapsEmpty x) ∧ ys = receivedAll xs := by
  induction xs generalizing i ys with
  | nil => simp [MapOrder.visitAll, rereadAll, normalizeAll, receivedAll, eq_comm]
  | cons x xs ih =>
    have hx := h x (by simp) (i :: path)
    have hxs := ih (fun y hy => h y (by simp [hy])) (i + 1)
    simp only [MapOrder.visitAll, rereadAll, normalizeAll, Except.bind_eq_ok_iff, hx, hxs,
      Except.pure_eq_ok_iff, List.forall_mem_cons, receivedAll]
    constructor
    · rintro ⟨y, ⟨hy, rfl⟩, ys', ⟨hys, rfl⟩, rfl⟩
      exact ⟨⟨hy, hys⟩, rfl⟩
    · rintro ⟨⟨hy, hys⟩, rfl⟩
      exact ⟨_, ⟨hy, rfl⟩, _, ⟨hys, rfl⟩, rfl⟩

/-- An entry of a map keyed by bytes, written and read. -/
theorem fieldEntry_reread_iff {o : MapOrder} {e : UInt8 × Any} (h : Converts o false e.2)
    (path : List Nat) (w : UInt8 × Any) :
    fieldEntry ((byteKey e.1).reread false, reread false (o.visit path e.2)) = some w ↔
      StringMapsEmpty e.2 ∧ w = (e.1, received false e.2) := by
  have hvalue := h path
  simp only [fieldEntry, asByteKey_reread, Except.toOption, bind, Option.bind, pure]
  cases hres : normalizeFieldValue (reread false (o.visit path e.2)) with
  | error err =>
    simp only [hres, reduceCtorEq, false_iff, not_and] at hvalue ⊢
    intro hempty
    exact absurd rfl (hvalue _ hempty)
  | ok value =>
    obtain ⟨hempty, rfl⟩ := (hvalue value).mp hres
    simp [hempty, eq_comm]

/-- The decoded entry `e'` converts to what is received for the entry `e`. -/
def EntryConverts (e' : Scalar × Any) (e : UInt8 × Any) : Prop :=
  ∀ w, fieldEntry e' = some w ↔ StringMapsEmpty e.2 ∧ w = (e.1, received false e.2)

theorem entryConverts_reread {o : MapOrder} {m : FieldMap} (h : ∀ e ∈ m, Converts o false e.2)
    (path : List Nat) (i : Nat) :
    List.Forall₂ EntryConverts
      (rereadEntries (o.visitEntries path i (m.map fun e => (byteKey e.1, e.2)))) m := by
  induction m generalizing i with
  | nil => exact .nil
  | cons e m ih =>
    apply List.Forall₂.cons
    · exact fieldEntry_reread_iff (h e (by simp)) (i :: path)
    · exact ih (fun e' he' => h e' (by simp [he'])) (i + 1)

theorem EntryConverts.isSome_iff {es : List (Scalar × Any)} {m : FieldMap}
    (h : List.Forall₂ EntryConverts es m) :
    (∀ e ∈ es, (fieldEntry e).isSome) ↔ ∀ e ∈ m, StringMapsEmpty e.2 := by
  induction h with
  | nil => simp
  | @cons e' e es m he _ ih =>
    rw [List.forall_mem_cons, List.forall_mem_cons, ih, Option.isSome_iff_exists]
    apply and_congr_left'
    constructor
    · intro hw
      obtain ⟨w, hw⟩ := hw
      exact ((he w).mp hw).1
    · intro hempty
      exact ⟨_, (he _).mpr ⟨hempty, rfl⟩⟩

theorem EntryConverts.filterMap_eq {es : List (Scalar × Any)} {m : FieldMap}
    (h : List.Forall₂ EntryConverts es m) (hempty : ∀ e ∈ m, StringMapsEmpty e.2) :
    es.filterMap fieldEntry = m.received := by
  induction h with
  | nil => rfl
  | @cons e' e es m he _ ih =>
    have hhead := (he _).mpr ⟨hempty e (by simp), rfl⟩
    rw [List.filterMap_cons_some hhead, ih (fun x hx => hempty x (by simp [hx]))]
    rfl

theorem FieldMap.Sorted.received {m : FieldMap} (h : m.Sorted) : m.received.Sorted := by
  rw [FieldMap.Sorted, FieldMap.received, List.pairwise_map]
  exact h

theorem FieldMap.Sorted.nodup {m : FieldMap} (h : m.Sorted) : (m.map Prod.fst).Nodup := by
  rw [List.Nodup, List.pairwise_map]
  exact h.imp fun hlt => UInt8.ne_of_lt hlt

/-- The loop of `asFields` over a decoded map: every map with string keys below
it must be empty, and then the entries come out as `FieldMap.received`. -/
theorem asFieldEntries_reread_iff {o : MapOrder} {m : FieldMap} (hsorted : m.Sorted)
    (h : ∀ e ∈ m, Converts o false e.2) (path : List Nat) (out : FieldMap) :
    asFieldEntries [] (rereadEntries (o.perm path
        (o.visitEntries path 0 (m.map fun e => (byteKey e.1, e.2))))) = .ok out ↔
      (∀ e ∈ m, StringMapsEmpty e.2) ∧ out = m.received := by
  have hconv := entryConverts_reread h path 0
  have hperm : (rereadEntries (o.perm path
      (o.visitEntries path 0 (m.map fun e => (byteKey e.1, e.2))))).Perm
      (rereadEntries (o.visitEntries path 0 (m.map fun e => (byteKey e.1, e.2)))) := by
    rw [rereadEntries_eq, rereadEntries_eq]
    exact (o.isPerm path _).map _
  have hall := EntryConverts.isSome_iff hconv
  rw [← forall_congr' fun e => imp_congr_left hperm.mem_iff] at hall
  rw [← Except.toOption_eq_some_iff, asFieldEntries_toOption, Option.ite_none_right_eq_some, hall,
    Option.some.injEq]
  apply and_congr_right
  intro hempty
  have hlist := EntryConverts.filterMap_eq hconv hempty
  have hnodup := hsorted.received.nodup
  rw [← hlist] at hnodup
  rw [← FieldMap.insertAll_perm (hperm.filterMap fieldEntry).symm
    (fun x hx y hy => List.inj_on_of_nodup_map hnodup hx hy), hlist, FieldMap.insertAll_sorted (by rw [List.nil_append]; exact hsorted.received), List.nil_append]
  exact eq_comm

/-- A key that is a string is no field key, so the loop stops there. -/
theorem asFieldEntries_string_ne {es : List (Scalar × Any)} (hne : es ≠ [])
    (hkeys : ∀ e ∈ es, ∃ s, e.1 = .string s) (out m : FieldMap) : asFieldEntries out es ≠ .ok m := by
  cases es with
  | nil => exact absurd rfl hne
  | cons e es =>
    obtain ⟨k, v⟩ := e
    obtain ⟨s, hs⟩ := hkeys (k, v) (by simp)
    obtain rfl : k = .string s := hs
    intro h
    cases h

theorem FieldMap.toAny_received (m : FieldMap) (loose : Bool) :
    m.received.toAny = Lxmf.received loose m.toAny := by
  rw [FieldMap.toAny, FieldMap.toAny, Lxmf.received, receivedEntries_eq, FieldMap.received,
    List.map_map, List.map_map]
  rfl

/-- A field value is converted unless a map with string keys in it has an entry. -/
theorem normalize_reread_iff (o : MapOrder) {v : Any} (hv : FieldValue v) (hsorted : SortedMaps v)
    (loose : Bool) : Converts o loose v := by
  induction v using Any.induct generalizing loose with
  | scalar s =>
    intro path w
    simp [MapOrder.visit, reread, normalizeFieldValue, received, StringMapsEmpty, Any.Forall, eq_comm]
  | bytes b =>
    intro path w
    cases loose <;>
      simp [MapOrder.visit, reread, rereadBytes, normalizeFieldValue, received, StringMapsEmpty,
        Any.Forall, eq_comm]
  | typedNil k =>
    intro path w
    simp [MapOrder.visit, reread, normalizeFieldValue, received, StringMapsEmpty, Any.Forall, eq_comm]
  | unsupported t => exact (hv : False).elim
  | slice xs ih =>
    intro path w
    have hxs := normalizeAll_reread_iff (fun x hx => ih x hx (hv.elem x hx)
      ((Any.forall_slice_iff.mp hsorted).2 x hx) true) path 0
    have hempty : StringMapsEmpty (.slice xs) ↔ ∀ x ∈ xs, StringMapsEmpty x := by
      simp only [StringMapsEmpty, Any.forall_slice_iff, true_and]
    simp only [MapOrder.visit, reread, normalizeFieldValue, Except.map_eq_ok_iff, hxs, hempty,
      received]
    constructor
    · rintro ⟨ys, ⟨hys, rfl⟩, rfl⟩
      exact ⟨hys, rfl⟩
    · rintro ⟨hys, rfl⟩
      exact ⟨_, ⟨hys, rfl⟩, rfl⟩
  | map k es ih =>
    intro path w
    have hconv (e) (he : e ∈ es) : Converts o false e.2 :=
      ih e he (hv.value e he) ((Any.forall_map_iff.mp hsorted).2 e he) false
    cases k with
    | any => exact hv.keys.elim
    | byte =>
      obtain ⟨m, hm, hms⟩ := (Any.forall_map_iff.mp hsorted).1
      obtain rfl : es = m.map fun e => (byteKey e.1, e.2) := by
        injection hm
      have hentries := asFieldEntries_reread_iff hms
        (fun e he => hconv _ (List.mem_map_of_mem he)) path
      have hempty : StringMapsEmpty m.toAny ↔ ∀ e ∈ m, StringMapsEmpty e.2 :=
        FieldMap.forall_toAny_iff.trans (and_iff_right True.intro)
      rw [MapOrder.visit, reread, normalizeFieldValue, Except.map_eq_ok_iff]
      simp only [hentries]
      rw [hm, hempty, ← FieldMap.toAny_received m loose]
      constructor
      · rintro ⟨out, ⟨hall, rfl⟩, rfl⟩
        exact ⟨hall, rfl⟩
      · rintro ⟨hall, rfl⟩
        exact ⟨_, ⟨hall, rfl⟩, rfl⟩
    | string =>
      rw [MapOrder.visit, reread, normalizeFieldValue, Except.map_eq_ok_iff]
      have hperm := visit_keys_perm o path es
      by_cases hes : es = []
      · subst hes
        have hnil : o.perm path (o.visitEntries path 0 []) = [] := (o.isPerm path []).eq_nil
        rw [hnil]
        simp [rereadEntries, asFieldEntries, received, receivedEntries, StringMapsEmpty, Any.Forall,
          Any.ForallEntries, FieldMap.toAny, eq_comm]
      · have hstring : ∀ e ∈ rereadEntries (o.perm path (o.visitEntries path 0 es)),
            ∃ s, e.1 = .string s := by
          rw [rereadEntries_eq, List.forall_mem_map]
          intro e he
          obtain ⟨s, hs⟩ := hv.keys.2 e.1 (hperm.mem_iff.mp (List.mem_map_of_mem he))
          exact ⟨s, by rw [hs]; rfl⟩
        have hne : rereadEntries (o.perm path (o.visitEntries path 0 es)) ≠ [] := by
          intro hnil
          apply hes
          have hlen := hperm.length_eq
          rw [rereadEntries_eq, List.map_eq_nil_iff] at hnil
          rw [hnil, List.map_nil, List.length_nil, List.length_map] at hlen
          exact List.eq_nil_of_length_eq_zero hlen.symm
        constructor
        · intro hout
          obtain ⟨out, hout, -⟩ := hout
          exact absurd hout (asFieldEntries_string_ne hne hstring [] out)
        · intro hempty
          exact absurd (Any.forall_map_iff.mp hempty.1).1 hes

/-! ## Fields -/

/-- What holds of the scalars, byte slices and slices in a value that is read back
holds throughout it if it holds of the maps. -/
theorem reread_forall {p : Any → Prop} (hscalar : ∀ s, p (.scalar s)) (hbytes : ∀ b, p (.bytes b))
    (hslice : ∀ xs, p (.slice xs))
    (hmap : ∀ k es, MapKind.Keys k (es.map Prod.fst) → p (.map .any (rereadEntries es)))
    {v : Any} (hv : FieldValue v) (loose : Bool) : (reread loose v).Forall p := by
  induction v using Any.induct generalizing loose with
  | slice xs ih =>
    rw [reread]
    apply Any.forall_slice_iff.mpr
    refine ⟨hslice _, ?_⟩
    rw [rereadAll_eq, List.forall_mem_map]
    exact fun x hx => ih x hx (hv.elem x hx) true
  | map k es ih =>
    rw [reread]
    apply Any.forall_map_iff.mpr
    refine ⟨hmap k es hv.keys, ?_⟩
    rw [rereadEntries_eq, List.forall_mem_map]
    exact fun e he => ih e he (hv.value e he) false
  | bytes b =>
    cases loose with
    | false => exact hbytes b
    | true => exact hscalar _
  | scalar s => exact hscalar _
  | typedNil k => exact hscalar _
  | unsupported t => exact (hv : False).elim

theorem reread_untypedMaps {v : Any} (hv : FieldValue v) (loose : Bool) :
    UntypedMaps (reread loose v) := by
  apply reread_forall _ _ _ _ hv loose
  · exact fun _ => True.intro
  · exact fun _ => True.intro
  · exact fun _ => True.intro
  · exact fun _ _ _ => rfl

theorem MapKind.Keys.byteKeys_nodup {k : MapKind} {es : List (Scalar × Any)}
    (h : MapKind.Keys k (es.map Prod.fst)) : (byteKeys (rereadEntries es)).Nodup := by
  rw [byteKeys, rereadEntries_eq, List.filterMap_map, List.Nodup, List.pairwise_filterMap]
  cases k with
  | any => exact h.elim
  | byte =>
    apply (List.pairwise_map.mp h.1).imp_of_mem
    intro e e' he he' hne b hb b' hb' heq
    obtain ⟨a, ha⟩ := h.2 e.1 (List.mem_map_of_mem he)
    obtain ⟨a', ha'⟩ := h.2 e'.1 (List.mem_map_of_mem he')
    simp only [Function.comp_apply, ha, asByteKey_reread, Except.toOption, Option.some.injEq] at hb
    simp only [Function.comp_apply, ha', asByteKey_reread, Except.toOption, Option.some.injEq] at hb'
    apply hne
    rw [ha, ha', hb, hb', heq]
  | string =>
    apply (List.pairwise_map.mp h.1).imp_of_mem
    intro e e' he _ _ b hb
    obtain ⟨s, hs⟩ := h.2 e.1 (List.mem_map_of_mem he)
    rw [Function.comp_apply, hs] at hb
    cases hb

theorem reread_distinctByteKeys {v : Any} (hv : FieldValue v) (loose : Bool) :
    DistinctByteKeys (reread loose v) := by
  apply reread_forall _ _ _ _ hv loose
  · exact fun _ => True.intro
  · exact fun _ => True.intro
  · exact fun _ => True.intro
  · exact fun _ _ hkeys => hkeys.byteKeys_nodup

theorem FieldMap.toAny_inj {m m' : FieldMap} (h : m.toAny = m'.toAny) : m = m' := by
  have hlist : m.map (fun e => (byteKey e.1, e.2)) = m'.map fun e => (byteKey e.1, e.2) := by
    injection h
  apply List.map_injective_iff.mpr _ hlist
  intro e e' heq
  obtain ⟨hkey, hvalue⟩ := Prod.mk.inj heq
  exact Prod.ext (byteKey_inj hkey) hvalue

/-- The fields as the receiver has them. -/
def receivedFields (fields : Option FieldMap) : Option FieldMap := fields.map FieldMap.received

/-- The whole conversion of fields that were written in the order `o` and are
visited in the order `o'`. -/
theorem asFields_reread_iff (o o' : MapOrder) {fields : Option FieldMap}
    (hv : FieldValue (fieldsAny fields)) (hsorted : SortedMaps (fieldsAny fields))
    (path path' : List Nat) (out : Option FieldMap) :
    asFields (o'.visit path' (reread false (o.visit path (fieldsAny fields)))) = .ok out ↔
      StringMapsEmpty (fieldsAny fields) ∧ out = receivedFields fields := by
  have hvisit := hv.visit o path
  rw [← Except.toOption_eq_some_iff, asFields_visit o' (reread_untypedMaps hvisit false)
    (reread_distinctByteKeys hvisit false).unambiguous, Except.toOption_eq_some_iff]
  cases fields with
  | none => simp [fieldsAny, MapOrder.visit, reread, asFields, receivedFields, StringMapsEmpty,
      Any.Forall, eq_comm]
  | some m =>
    obtain ⟨⟨m', hm, hms⟩, hvalues⟩ := FieldMap.forall_toAny_iff.mp hsorted
    obtain rfl : m = m' := FieldMap.toAny_inj hm
    have hfields := (FieldMap.forall_toAny_iff.mp hv).2
    have hentries := asFieldEntries_reread_iff hms
      (fun e he => normalize_reread_iff o (hfields e he) (hvalues e he) false) path
    have hempty : StringMapsEmpty m.toAny ↔ ∀ e ∈ m, StringMapsEmpty e.2 :=
      FieldMap.forall_toAny_iff.trans (and_iff_right True.intro)
    rw [fieldsAny, hempty, FieldMap.toAny, MapOrder.visit, reread, asFields, Except.map_eq_ok_iff]
    simp only [hentries]
    constructor
    · rintro ⟨a, ⟨hall, rfl⟩, rfl⟩
      exact ⟨hall, rfl⟩
    · rintro ⟨hall, rfl⟩
      exact ⟨_, ⟨hall, rfl⟩, rfl⟩

end Lxmf
