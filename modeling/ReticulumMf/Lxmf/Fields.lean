-- SUMMARY: The conversion of decoded fields, and when it is independent of map iteration order.
import ReticulumMf.Lib.Except
import ReticulumMf.Lxmf.Payload
import Mathlib.Data.List.Nodup

/-!
# Fields and iteration order

`asFields` and `normalizeFieldValue` build byte-keyed maps while they iterate
over decoded ones. Two keys of a decoded map may denote the same byte (the
integer types differ), and then the entry visited last wins. `asFields_visit`
shows that the order of iteration does not matter if such entries agree.
-/

namespace Lxmf

open Msgpack ByteReader

/-- An entry as it ends up in the field map; none if the key or the value is rejected. -/
def fieldEntry (e : Scalar × Any) : Option (UInt8 × Any) := do
  let key ← (asByteKey e.1).toOption
  let value ← (normalizeFieldValue e.2).toOption
  return (key, value)

def FieldMap.insertAll (out : FieldMap) (es : List (UInt8 × Any)) : FieldMap :=
  es.foldl (fun m e => m.insert e.1 e.2) out

theorem asFieldEntries_toOption (out : FieldMap) (es : List (Scalar × Any)) :
    (asFieldEntries out es).toOption =
      if ∀ e ∈ es, (fieldEntry e).isSome then some (out.insertAll (es.filterMap fieldEntry))
      else none := by
  induction es generalizing out with
  | nil => simp [asFieldEntries, Except.toOption, FieldMap.insertAll]
  | cons e es ih =>
    obtain ⟨k, v⟩ := e
    cases hk : asByteKey k with
    | error _ => simp [asFieldEntries, fieldEntry, hk, Except.toOption, bind, Except.bind]
    | ok key =>
      cases hv : normalizeFieldValue v with
      | error _ => simp [asFieldEntries, fieldEntry, hk, hv, Except.toOption, bind, Except.bind]
      | ok value =>
        have hentry : fieldEntry (k, v) = some (key, value) := by
          simp [fieldEntry, hk, hv, Except.toOption]
        have hstep : asFieldEntries out ((k, v) :: es) =
            asFieldEntries (out.insert key value) es := by
          simp [asFieldEntries, hk, hv, bind, Except.bind]
        rw [hstep, ih]
        simp only [List.forall_mem_cons, hentry, Option.isSome_some, true_and,
          List.filterMap_cons, FieldMap.insertAll, List.foldl_cons]

/-- Insertions at different keys commute; stated for the smaller key first. -/
private theorem FieldMap.insert_comm_of_lt {a b : UInt8} (hab : a < b) (v w : Any) (m : FieldMap) :
    (m.insert a v).insert b w = (m.insert b w).insert a v := by
  have hba : ¬ b < a := UInt8.lt_asymm hab
  have hne : b ≠ a := (UInt8.ne_of_lt hab).symm
  induction m with
  | nil => simp [FieldMap.insert, hab, hba, hne]
  | cons e m ih =>
    by_cases hlt : a < e.1
    · by_cases hbe : b < e.1
      · simp [FieldMap.insert, hlt, hbe, hab, hba, hne]
      · by_cases hbeq : b = e.1
        · subst hbeq
          simp [FieldMap.insert, hab, hba, hne]
        · simp [FieldMap.insert, hlt, hbe, hbeq, hba, hne]
    · by_cases heq : a = e.1
      · subst heq
        simp [FieldMap.insert, hba, hne]
      · have hea : e.1 < a := by
          rw [UInt8.lt_iff_toNat_lt] at hlt ⊢
          have : a.toNat ≠ e.1.toNat := fun h => heq (UInt8.toNat_inj.mp h)
          omega
        have hbe : ¬ b < e.1 := UInt8.lt_asymm (UInt8.lt_trans hea hab)
        have hbeq : b ≠ e.1 := (UInt8.ne_of_lt (UInt8.lt_trans hea hab)).symm
        simp [FieldMap.insert, hlt, heq, hbe, hbeq, ih]

theorem FieldMap.insert_comm {a b : UInt8} (hab : a ≠ b) (v w : Any) (m : FieldMap) :
    (m.insert a v).insert b w = (m.insert b w).insert a v := by
  by_cases h : a < b
  · exact insert_comm_of_lt h v w m
  · have hba : b < a := by
      rw [UInt8.lt_iff_toNat_lt] at h ⊢
      have : a.toNat ≠ b.toNat := fun h => hab (UInt8.toNat_inj.mp h)
      omega
    exact (insert_comm_of_lt hba w v m).symm

/-- Entries that agree wherever they have one key may be inserted in any order. -/
theorem FieldMap.insertAll_perm {es es' : List (UInt8 × Any)} (h : es.Perm es')
    (hagree : ∀ x ∈ es, ∀ y ∈ es, x.1 = y.1 → x = y) (out : FieldMap) :
    out.insertAll es = out.insertAll es' := by
  refine h.foldl_eq' ?_ out
  intro x hx y hy m
  by_cases hkey : x.1 = y.1
  · obtain rfl := hagree x hx y hy hkey
    rfl
  · exact FieldMap.insert_comm hkey x.2 y.2 m

/-- The keys of a map that denote a byte. -/
def byteKeys (es : List (Scalar × Any)) : List UInt8 :=
  es.filterMap fun e => (asByteKey e.1).toOption

/-- No map in the value has two keys that denote the same byte. -/
def DistinctByteKeys (v : Any) : Prop :=
  v.Forall fun
    | .map _ es => (byteKeys es).Nodup
    | _ => True

/-- Entries whose keys denote one byte have values that are normalized to the same. -/
def AgreeingEntries (es : List (Scalar × Any)) : Prop :=
  ∀ x ∈ es.filterMap fieldEntry, ∀ y ∈ es.filterMap fieldEntry, x.1 = y.1 → x = y

/-- The entries of every map in the value agree. -/
def Unambiguous (v : Any) : Prop :=
  v.Forall fun
    | .map _ es => AgreeingEntries es
    | _ => True

/-- Every map in the value is a `map[any]any`, as the decoder makes them. -/
def UntypedMaps (v : Any) : Prop :=
  v.Forall fun
    | .map k _ => k = .any
    | _ => True

theorem nodup_keys_fieldEntry {es : List (Scalar × Any)}
    (h : (byteKeys es).Nodup) :
    ((es.filterMap fieldEntry).map Prod.fst).Nodup := by
  refine h.sublist ?_
  clear h
  induction es with
  | nil => simp
  | cons e es ih =>
    unfold byteKeys at ih ⊢
    cases hk : (asByteKey e.1).toOption with
    | none => simpa [fieldEntry, hk] using ih
    | some key =>
      cases hv : (normalizeFieldValue e.2).toOption with
      | none => simpa [fieldEntry, hk, hv] using ih.cons key
      | some value => simpa [fieldEntry, hk, hv] using ih

theorem DistinctByteKeys.unambiguous {v : Any} (h : DistinctByteKeys v) : Unambiguous v := by
  refine Any.Forall.imp ?_ h
  intro v hv
  cases v with
  | map k es =>
    intro x hx y hy hkey
    exact List.inj_on_of_nodup_map (nodup_keys_fieldEntry hv) hx hy hkey
  | _ => exact hv

/-- The loop depends on the converted entries only, and not on their order if they agree. -/
theorem asFieldEntries_congr {es es' : List (Scalar × Any)}
    (h : (es.map fieldEntry).Perm (es'.map fieldEntry)) (hagree : AgreeingEntries es)
    (out : FieldMap) :
    (asFieldEntries out es).toOption = (asFieldEntries out es').toOption := by
  have hall : (∀ e ∈ es, (fieldEntry e).isSome) ↔ ∀ e ∈ es', (fieldEntry e).isSome := by
    have hmem (e : Option (UInt8 × Any)) :
        (e ∈ es.map fieldEntry → e.isSome) ↔ (e ∈ es'.map fieldEntry → e.isSome) :=
      imp_congr_left h.mem_iff
    simpa only [List.forall_mem_map] using forall_congr' hmem
  have hperm : (es.filterMap fieldEntry).Perm (es'.filterMap fieldEntry) := by
    simpa only [List.filterMap_map, Function.id_comp] using h.filterMap id
  simp only [asFieldEntries_toOption, hall]
  rw [FieldMap.insertAll_perm hperm hagree]

private theorem normalizeAll_visitAll_of {o : MapOrder} {xs : List Any}
    (ih : ∀ x ∈ xs, ∀ path, (normalizeFieldValue (o.visit path x)).toOption =
      (normalizeFieldValue x).toOption) (path : List Nat) (i : Nat) :
    (normalizeAll (o.visitAll path i xs)).toOption = (normalizeAll xs).toOption := by
  induction xs generalizing i with
  | nil => rfl
  | cons x xs ihs =>
    have hx := ih x (by simp) (i :: path)
    have hxs := ihs (fun y hy => ih y (by simp [hy])) (i + 1)
    simp only [MapOrder.visitAll, normalizeAll]
    cases h₁ : normalizeFieldValue (o.visit (i :: path) x) <;>
      cases h₂ : normalizeFieldValue x <;>
      cases h₃ : normalizeAll (o.visitAll path (i + 1) xs) <;>
      cases h₄ : normalizeAll xs <;>
      simp_all [Except.toOption, bind, Except.bind, pure, Except.pure]

theorem fieldEntry_visitEntries {o : MapOrder} {es : List (Scalar × Any)}
    (ih : ∀ e ∈ es, ∀ path, (normalizeFieldValue (o.visit path e.2)).toOption =
      (normalizeFieldValue e.2).toOption) (path : List Nat) (i : Nat) :
    (o.visitEntries path i es).map fieldEntry = es.map fieldEntry := by
  induction es generalizing i with
  | nil => rfl
  | cons e es ihs =>
    obtain ⟨k, v⟩ := e
    have hv : fieldEntry (k, o.visit (i :: path) v) = fieldEntry (k, v) := by
      simp only [fieldEntry, ih (k, v) (by simp) (i :: path)]
    have hes := ihs (fun y hy => ih y (by simp [hy])) (i + 1)
    simp only [MapOrder.visitEntries, List.map_cons, hv, hes]

theorem asFieldEntries_visit {o : MapOrder} {es : List (Scalar × Any)}
    (ih : ∀ e ∈ es, ∀ path, (normalizeFieldValue (o.visit path e.2)).toOption =
      (normalizeFieldValue e.2).toOption) (hagree : AgreeingEntries es) (path : List Nat) :
    (asFieldEntries [] (o.perm path (o.visitEntries path 0 es))).toOption =
      (asFieldEntries [] es).toOption := by
  have hperm := (o.isPerm path (o.visitEntries path 0 es)).map fieldEntry
  rw [fieldEntry_visitEntries ih] at hperm
  exact (asFieldEntries_congr hperm.symm hagree []).symm

/-- If the entries of its maps agree, a normalized value does not depend on the order
in which the maps were visited. -/
theorem normalizeFieldValue_visit (o : MapOrder) {v : Any} (hmaps : UntypedMaps v)
    (hkeys : Unambiguous v) (path : List Nat) :
    (normalizeFieldValue (o.visit path v)).toOption = (normalizeFieldValue v).toOption := by
  induction v using Any.induct generalizing path with
  | slice xs ih =>
    have hmaps := (Any.forall_slice_iff.mp hmaps).2
    have hkeys := (Any.forall_slice_iff.mp hkeys).2
    simp only [MapOrder.visit, normalizeFieldValue, Except.toOption_map]
    rw [normalizeAll_visitAll_of fun x hx path => ih x hx (hmaps x hx) (hkeys x hx) path]
  | map k es ih =>
    obtain ⟨hkind, hvals⟩ := Any.forall_map_iff.mp hmaps
    obtain rfl : k = .any := hkind
    obtain ⟨hagree, hkeys⟩ := Any.forall_map_iff.mp hkeys
    simp only [MapOrder.visit, normalizeFieldValue, Except.toOption_map]
    rw [asFieldEntries_visit (fun e he path => ih e he (hvals e he) (hkeys e he) path) hagree]
  | scalar s => rfl
  | bytes b => rfl
  | typedNil k => rfl
  | unsupported t => rfl

theorem asFields_visit (o : MapOrder) {v : Any} (hmaps : UntypedMaps v)
    (hkeys : Unambiguous v) (path : List Nat) :
    (asFields (o.visit path v)).toOption = (asFields v).toOption := by
  cases v with
  | map k es =>
    obtain ⟨hkind, hvals⟩ := Any.forall_map_iff.mp hmaps
    obtain rfl : k = .any := hkind
    obtain ⟨hagree, hkeys⟩ := Any.forall_map_iff.mp hkeys
    simp only [MapOrder.visit, asFields, Except.toOption_map]
    rw [asFieldEntries_visit (fun e he path =>
      normalizeFieldValue_visit o (hvals e he) (hkeys e he) path) hagree]
  | slice xs => rfl
  | scalar s => rfl
  | bytes b => rfl
  | typedNil k => rfl
  | unsupported t => rfl

/-! ## Decoded values -/

theorem mem_insertEntry {k : Scalar} {v : Any} {es : List (Scalar × Any)} {e : Scalar × Any}
    (h : e ∈ insertEntry k v es) : e = (k, v) ∨ e ∈ es := by
  induction es with
  | nil => simpa [insertEntry] using h
  | cons e' es ih =>
    simp only [insertEntry] at h
    split at h
    · exact (List.mem_cons.mp h).imp_right (List.mem_cons_of_mem _)
    · rcases List.mem_cons.mp h with rfl | h
      · exact .inr (by simp)
      · exact (ih h).imp_right (List.mem_cons_of_mem _)

/-- What holds of leaves, of slices and of every `map[any]any` holds throughout a decoded
value. -/
theorem decodeElement_forall {p : Any → Prop} (hleaf : ∀ v, v.IsLeaf → p v)
    (hslice : ∀ xs, p (.slice xs)) (hmap : ∀ es, p (.map .any es)) :
    Produces decodeElement (fun v => v.Forall p) := by
  refine decodeInterface_produces ?_ ?_ ?_ _ _
  · intro v hv
    cases v <;> first | exact hleaf _ hv | exact hv.elim
  · exact fun xs hxs => Any.forall_slice_iff.mpr ⟨hslice xs, hxs⟩
  · intro x hx
    refine Produces.within (Produces.trivial.bind fun o _ => ?_)
    cases o with
    | none => exact Produces.pure (hleaf _ True.intro)
    | some n =>
      by_cases hn : n > mapCtx.maxPairs
      · simpa only [hn, if_true] using Produces.fail _
      · simp only [hn, if_false]
        refine (Produces.iterate
          (Q := fun es : List (Scalar × Any) => ∀ e ∈ es, e.2.Forall p) ?_ n (by simp)).map
          fun es hes => Any.forall_map_iff.mpr ⟨hmap es, hes⟩
        intro es hes
        refine hx.bind fun k _ => ?_
        cases k with
        | scalar k =>
          refine hx.bind fun v hv => Produces.pure ?_
          intro e he
          rcases mem_insertEntry he with rfl | he
          · exact hv
          · exact hes e he
        | _ => exact Produces.fail _

/-- The decoder makes no maps but `map[any]any`. -/
theorem decodeElement_untypedMaps : Produces decodeElement UntypedMaps := by
  refine decodeElement_forall (fun v hv => ?_) (fun _ => True.intro) (fun _ => rfl)
  cases v <;> first | exact True.intro | exact hv.elim

end Lxmf
