-- SUMMARY: When decoding does not depend on the order in which maps are iterated.
import ReticulumMf.Lxmf.MessageId
import ReticulumMf.Lxmf.PNAnnounce
import ReticulumMf.Lxmf.Received

/-!
# Decoding and iteration order

A decoded map may have several keys that denote one byte, since the keys of the
wire are told apart by their types too. The fields of a message then have the
value that was visited last, and the name of a propagation node is the one that is
visited first. `decoding_order_free_iff` says that nothing else depends on the order.
-/

namespace Lxmf

open Msgpack ByteReader

/-! ## Fields -/

theorem FieldMap.lookup_insert (key : UInt8) (v : Any) (m : FieldMap) :
    List.lookup key (m.insert key v) = some v := by
  induction m with
  | nil => simp [FieldMap.insert]
  | cons e m ih =>
    unfold FieldMap.insert
    split_ifs with hlt heq
    · simp
    · simp
    · rw [List.lookup_cons, beq_false_of_ne heq, ih]

/-- The entry that is visited last is kept. -/
theorem asFieldEntries_moveLast {es : List (Scalar × Any)} {n : Nat} {k : Scalar} {v : Any}
    {m : FieldMap} (he : es[n]? = some (k, v)) (h : asFieldEntries [] (moveLast n es) = .ok m) :
    ∃ key w, asByteKey k = .ok key ∧ normalizeFieldValue v = .ok w ∧
      List.lookup key m = some w := by
  rw [moveLast, he, Option.toList_some, ← Except.toOption_eq_some_iff, asFieldEntries_toOption,
    Option.ite_none_right_eq_some, Option.some.injEq] at h
  obtain ⟨hall, rfl⟩ := h
  obtain ⟨⟨key, w⟩, hentry⟩ := Option.isSome_iff_exists.mp (hall (k, v) (by simp))
  have hconv := hentry
  simp only [fieldEntry, Option.bind_eq_bind, Option.bind_eq_some_iff, Except.toOption_eq_some_iff,
    Option.pure_def, Option.some.injEq, Prod.mk.injEq] at hconv
  obtain ⟨_, hkey, _, hvalue, rfl, rfl⟩ := hconv
  refine ⟨_, _, hkey, hvalue, ?_⟩
  rw [List.filterMap_append, List.filterMap_cons_some hentry, FieldMap.insertAll, List.foldl_append]
  exact FieldMap.lookup_insert _ _ _

/-- If every order of a map gives one result, its entries agree, and no value depends on
the order. -/
theorem agreeing_of_visits {es : List (Scalar × Any)} {path : List Nat} {m : FieldMap}
    (h : ∀ o : MapOrder, asFieldEntries [] (o.perm path (o.visitEntries path 0 es)) = .ok m) :
    AgreeingEntries es ∧
      ∀ e ∈ es, ∃ path' w, ∀ o : MapOrder, normalizeFieldValue (o.visit path' e.2) = .ok w := by
  have hentry {n : Nat} {e : Scalar × Any} (he : es[n]? = some e) (o : MapOrder) :
      ∃ key w, asByteKey e.1 = .ok key ∧ normalizeFieldValue (o.visit (n :: path) e.2) = .ok w ∧
        List.lookup key m = some w := by
    have hlast := h (o.rearrange path (moveLast n) (moveLast_perm n))
    rw [MapOrder.rearrange_entries] at hlast
    refine asFieldEntries_moveLast ?_ hlast
    rw [MapOrder.visitEntries_getElem?, he, Option.map_some, Nat.zero_add]
  constructor
  · have hlookup (x : UInt8 × Any) (hx : x ∈ es.filterMap fieldEntry) :
        List.lookup x.1 m = some x.2 := by
      obtain ⟨e, he, hx⟩ := List.mem_filterMap.mp hx
      obtain ⟨n, hn⟩ := List.mem_iff_getElem?.mp he
      obtain ⟨key, w, hkey, hvalue, hm⟩ := hentry hn .listed
      rw [MapOrder.listed_visit] at hvalue
      obtain rfl : (key, w) = x := by simpa [fieldEntry, hkey, hvalue, Except.toOption] using hx
      exact hm
    intro x hx y hy hkey
    have hvalue : some x.2 = some y.2 := by rw [← hlookup x hx, ← hlookup y hy, hkey]
    exact Prod.ext hkey (Option.some.inj hvalue)
  · intro e he
    obtain ⟨n, hn⟩ := List.mem_iff_getElem?.mp he
    obtain ⟨key, w, hkey, -, hm⟩ := hentry hn .listed
    refine ⟨n :: path, w, fun o => ?_⟩
    obtain ⟨key', w', hkey', hvalue, hm'⟩ := hentry hn o
    obtain rfl : key = key' := Except.ok.inj (hkey.symm.trans hkey')
    rw [hm, Option.some.injEq] at hm'
    rw [hvalue, hm']

theorem normalizeAll_getElem? {xs ys : List Any} (h : normalizeAll xs = .ok ys) {n : Nat} {x : Any}
    (hx : xs[n]? = some x) : ∃ y, ys[n]? = some y ∧ normalizeFieldValue x = .ok y := by
  induction xs generalizing ys n with
  | nil => cases hx
  | cons x' xs ih =>
    simp only [normalizeAll, Except.bind_eq_ok_iff, Except.pure_eq_ok_iff] at h
    obtain ⟨y, hy, ys, hys, rfl⟩ := h
    cases n with
    | zero =>
      cases hx
      exact ⟨y, rfl, hy⟩
    | succ n => exact ih hys hx

/-- A value that is normalized to the same in every order is unambiguous. -/
theorem unambiguous_of_visits {v : Any} (hmaps : UntypedMaps v) {path : List Nat} {w : Any}
    (h : ∀ o : MapOrder, normalizeFieldValue (o.visit path v) = .ok w) : Unambiguous v := by
  induction v using Any.induct generalizing path w with
  | slice xs ih =>
    have hmaps := (Any.forall_slice_iff.mp hmaps).2
    refine Any.forall_slice_iff.mpr ⟨True.intro, fun x hx => ?_⟩
    obtain ⟨n, hn⟩ := List.mem_iff_getElem?.mp hx
    have helem (o : MapOrder) :
        ∃ ys, w = .slice ys ∧ ∃ y, ys[n]? = some y ∧
          normalizeFieldValue (o.visit (n :: path) x) = .ok y := by
      have ho := h o
      rw [MapOrder.visit, normalizeFieldValue, Except.map_eq_ok_iff] at ho
      obtain ⟨ys, hys, rfl⟩ := ho
      refine ⟨ys, rfl, normalizeAll_getElem? hys ?_⟩
      rw [MapOrder.visitAll_getElem?, hn, Option.map_some, Nat.zero_add]
    obtain ⟨ys, rfl, y, hy, -⟩ := helem .listed
    have hvisits (o : MapOrder) : normalizeFieldValue (o.visit (n :: path) x) = .ok y := by
      obtain ⟨ys', heq, y', hy', hvalue⟩ := helem o
      cases heq
      rw [hy, Option.some.injEq] at hy'
      rw [hvalue, hy']
    exact ih x hx (hmaps x hx) hvisits
  | map k es ih =>
    obtain ⟨hkind, hvals⟩ := Any.forall_map_iff.mp hmaps
    obtain rfl : k = .any := hkind
    have hentries (o : MapOrder) : ∃ m : FieldMap, w = m.toAny ∧
        asFieldEntries [] (o.perm path (o.visitEntries path 0 es)) = .ok m := by
      have ho := h o
      rw [MapOrder.visit, normalizeFieldValue, Except.map_eq_ok_iff] at ho
      obtain ⟨m, hm, rfl⟩ := ho
      exact ⟨m, rfl, hm⟩
    obtain ⟨m, rfl, -⟩ := hentries .listed
    have hone (o : MapOrder) : asFieldEntries [] (o.perm path (o.visitEntries path 0 es)) = .ok m := by
      obtain ⟨m', heq, hm'⟩ := hentries o
      rw [hm', FieldMap.toAny_inj heq]
    obtain ⟨hagree, hvalues⟩ := agreeing_of_visits hone
    refine Any.forall_map_iff.mpr ⟨hagree, fun e he => ?_⟩
    obtain ⟨path', w, hw⟩ := hvalues e he
    exact ih e he (hvals e he) hw
  | scalar s => exact True.intro
  | bytes b => exact True.intro
  | typedNil k => exact True.intro
  | unsupported t => exact True.intro

theorem asFields_visits_iff {v : Any} (hmaps : UntypedMaps v) {o : MapOrder} {f : Option FieldMap}
    (h : asFields (o.visit [] v) = .ok f) :
    (∀ o' : MapOrder, asFields (o'.visit [] v) = .ok f) ↔ Unambiguous v := by
  constructor
  · intro hall
    cases v with
    | map k es =>
      obtain ⟨hkind, hvals⟩ := Any.forall_map_iff.mp hmaps
      obtain rfl : k = .any := hkind
      have hentries (o : MapOrder) : ∃ m, f = some m ∧
          asFieldEntries [] (o.perm [] (o.visitEntries [] 0 es)) = .ok m := by
        have ho := hall o
        rw [MapOrder.visit, asFields, Except.map_eq_ok_iff] at ho
        obtain ⟨m, hm, rfl⟩ := ho
        exact ⟨m, rfl, hm⟩
      obtain ⟨m, rfl, -⟩ := hentries .listed
      have hone (o : MapOrder) : asFieldEntries [] (o.perm [] (o.visitEntries [] 0 es)) = .ok m := by
        obtain ⟨m', heq, hm'⟩ := hentries o
        rw [hm', Option.some.inj heq]
      obtain ⟨hagree, hvalues⟩ := agreeing_of_visits hone
      refine Any.forall_map_iff.mpr ⟨hagree, fun e he => ?_⟩
      obtain ⟨path', w, hw⟩ := hvalues e he
      exact unambiguous_of_visits (hvals e he) hw
    | slice xs => cases h
    | scalar s => exact True.intro
    | bytes b => exact True.intro
    | typedNil k => exact True.intro
    | unsupported t => exact True.intro
  · intro hv o'
    rw [← Except.toOption_eq_some_iff, asFields_visit o' hmaps hv, ← asFields_visit o hmaps hv [], h]
    rfl

/-! ## Messages -/

/-- The decoded fields are unambiguous, unless the payload is rejected in every order. -/
def FieldsUnambiguous (data : Bytes) : Prop :=
  ∀ vs hashed o p,
    decodePayloadAndSplit (data.drop (2 * destinationLength + signatureLength)) = .ok (vs, hashed) →
    applyPayload o vs = .ok p → ∀ v, vs[3]? = some v → Unambiguous v

/-- Both fail, or both succeed, and the messages have the same fields. -/
structure SameOutcome (u u' : Unpacked) : Prop where
  fails : u.err.isSome = u'.err.isSome
  fields : u.msg.map LXMessage.fields = u'.msg.map LXMessage.fields

theorem applyPayload_of_unambiguous {vs : List Any} (hmaps : ∀ v ∈ vs, UntypedMaps v)
    (hv : ∀ v, vs[3]? = some v → Unambiguous v) {o : MapOrder} {p : Payload}
    (h : applyPayload o vs = .ok p) (o' : MapOrder) : applyPayload o' vs = .ok p := by
  obtain ⟨p0, p1, p2, p3, ps, rfl, hts, htitle, hcontent, hfields, hstamp⟩ := applyPayload_ok_iff.mp h
  exact applyPayload_ok_iff.mpr ⟨p0, p1, p2, p3, ps, rfl, hts, htitle, hcontent,
    (asFields_visits_iff (hmaps p3 (by simp)) hfields).mpr (hv p3 rfl) o', hstamp⟩

theorem unambiguous_of_applyPayload {vs : List Any} (hmaps : ∀ v ∈ vs, UntypedMaps v)
    {fields : Option FieldMap}
    (h : ∀ o : MapOrder, ∃ p, applyPayload o vs = .ok p ∧ p.fields = fields) :
    ∀ v, vs[3]? = some v → Unambiguous v := by
  intro v hv
  have hfields (o : MapOrder) : asFields (o.visit [] v) = .ok fields := by
    obtain ⟨p, hp, rfl⟩ := h o
    obtain ⟨_, _, _, _, _, rfl, -, -, -, hfields, -⟩ := applyPayload_ok_iff.mp hp
    cases hv
    exact hfields
  exact (asFields_visits_iff (hmaps v (List.mem_of_getElem? hv)) (hfields .listed)).mp hfields

theorem payload_of_unpack {data : Bytes} :
    (data.drop destinationLength).drop (destinationLength + signatureLength) =
      data.drop (2 * destinationLength + signatureLength) := by
  rw [List.drop_drop, Nat.two_mul, Nat.add_assoc]

section

variable {Identity : Type} {cr : Crypto Identity} {data : Bytes}

theorem parseInner_of_unambiguous {o : MapOrder} {p : Parsed} (hdata : FieldsUnambiguous data)
    (h : parseInner cr o (data.take destinationLength) (data.drop destinationLength) = .ok p)
    (o' : MapOrder) :
    parseInner cr o' (data.take destinationLength) (data.drop destinationLength) = .ok p := by
  obtain ⟨hdst, hlen, vs, hashed, pl, hdec, happ, rfl⟩ := parseInner_ok_iff.mp h
  have hv := hdata vs hashed o pl (payload_of_unpack ▸ hdec) happ
  exact parseInner_ok_iff.mpr ⟨hdst, hlen, vs, hashed, pl, hdec,
    applyPayload_of_unambiguous (decoded_untypedMaps hdec) hv happ o', rfl⟩

/-- Unambiguous data is unpacked to one message. -/
theorem unpack_of_unambiguous (hdata : FieldsUnambiguous data) {resolver : Option (Resolver Identity)}
    {o : MapOrder} {m : LXMessage} (h : (unpack cr o data resolver).msg = some m) (o' : MapOrder) :
    unpack cr o' data resolver = unpack cr o data resolver := by
  unfold unpack at h ⊢
  split
  · rfl
  · rename_i hlen
    rw [if_neg hlen] at h
    obtain ⟨p, hp, -⟩ := unpackFromBytes_msg_iff.mp h
    rw [unpackFromBytes, unpackFromBytes, hp, parseInner_of_unambiguous hdata hp o']

theorem sameOutcome_of_unambiguous (hdata : FieldsUnambiguous data)
    (resolver : Option (Resolver Identity)) (o o' : MapOrder) :
    SameOutcome (unpack cr o data resolver) (unpack cr o' data resolver) := by
  unfold unpack
  split
  · exact ⟨rfl, rfl⟩
  · unfold unpackFromBytes
    cases ho : parseInner cr o (data.take destinationLength) (data.drop destinationLength) with
    | ok p =>
      rw [parseInner_of_unambiguous hdata ho o']
      exact ⟨rfl, rfl⟩
    | error e =>
      cases ho' : parseInner cr o' (data.take destinationLength) (data.drop destinationLength) with
      | ok p =>
        rw [parseInner_of_unambiguous hdata ho' o] at ho
        cases ho
      | error e' => exact ⟨rfl, rfl⟩

/-- The source hash in a packed message. -/
def packedSource (data : Bytes) : Bytes := (data.drop destinationLength).take destinationLength

/-- Unless the resolver fails, a message is handed out whenever it is parsed. -/
theorem unpack_fields_iff {resolver : Option (Resolver Identity)}
    (hres : ∀ resolve, resolver = some resolve → ∀ e, resolve (packedSource data) ≠ .error e)
    {o : MapOrder} {fields : Option FieldMap} :
    (unpack cr o data resolver).msg.map LXMessage.fields = some fields ↔
      ∃ vs hashed p,
        decodePayloadAndSplit (data.drop (2 * destinationLength + signatureLength)) =
          .ok (vs, hashed) ∧ applyPayload o vs = .ok p ∧ p.fields = fields := by
  rw [Option.map_eq_some_iff]
  unfold unpack
  split
  · rename_i hshort
    rw [List.drop_eq_nil_of_le (Nat.le_of_lt hshort)]
    constructor
    · rintro ⟨m, hm, -⟩
      cases hm
    · rintro ⟨vs, hashed, p, hdec, -⟩
      obtain ⟨c, ts, hp, -⟩ := decodePayloadAndSplit_ok_iff.mp hdec
      cases hp.bytes
  · rename_i hlen
    have hdst : (data.take destinationLength).length = destinationLength := by
      rw [List.length_take]
      omega
    have hinner : destinationLength + signatureLength ≤ (data.drop destinationLength).length := by
      rw [List.length_drop]
      omega
    simp only [unpackFromBytes_msg_iff, parseInner_ok_iff, payload_of_unpack]
    constructor
    · rintro ⟨m, ⟨_, ⟨-, -, vs, hashed, p, hdec, happ, rfl⟩, hm⟩, rfl⟩
      refine ⟨vs, hashed, p, hdec, happ, ?_⟩
      rw [verifySource_msg hm]
      rfl
    · rintro ⟨vs, hashed, p, hdec, happ, rfl⟩
      obtain ⟨m, hm⟩ : ∃ m, (verifySource cr resolver (inboundMessage cr (data.take destinationLength)
          (data.drop destinationLength) hashed p)).msg = some m :=
        verifySource_msg_iff.mpr hres
      refine ⟨m, ⟨_, ⟨hdst, hinner, vs, hashed, p, hdec, happ, rfl⟩, hm⟩, ?_⟩
      rw [verifySource_msg hm]
      rfl

theorem none_resolves (data : Bytes) :
    ∀ resolve : Resolver Identity, none = some resolve → ∀ e, resolve (packedSource data) ≠ .error e :=
  nofun

theorem unambiguous_of_sameFields {resolver : Option (Resolver Identity)}
    (hres : ∀ resolve, resolver = some resolve → ∀ e, resolve (packedSource data) ≠ .error e)
    (h : ∀ o o', (unpack cr o data resolver).msg.map LXMessage.fields =
      (unpack cr o' data resolver).msg.map LXMessage.fields) :
    FieldsUnambiguous data := by
  intro vs hashed o p hdec happ
  have happly (o' : MapOrder) : ∃ p', applyPayload o' vs = .ok p' ∧ p'.fields = p.fields := by
    have hfields := (h o' o).trans ((unpack_fields_iff hres).mpr ⟨vs, hashed, p, hdec, happ, rfl⟩)
    obtain ⟨vs', hashed', p', hdec', happ', heq⟩ := (unpack_fields_iff hres).mp hfields
    rw [hdec] at hdec'
    cases hdec'
    exact ⟨p', happ', heq⟩
  exact unambiguous_of_applyPayload (decoded_untypedMaps hdec) happly

end

/-! ## Names -/

/-- The key is the number of the name, of any integer type. -/
def IsNameKey (k : Scalar) : Prop := asInt64 (.scalar k) = some (pnMetaName.toNat : Int)

instance (k : Scalar) : Decidable (IsNameKey k) :=
  inferInstanceAs (Decidable (asInt64 (.scalar k) = some (pnMetaName.toNat : Int)))

/-- The entries of the metadata whose key is the number of the name hold one name. -/
def NameUnambiguous (data : Bytes) : Prop :=
  ∀ arr es, decodePNAnnounceArray data = .ok arr → pnAnnounceShapeValid arr = true →
    arr[6]? = some (.map .any es) → ∀ e ∈ es, ∀ e' ∈ es, IsNameKey e.1 → IsNameKey e'.1 →
      decodePNNameValue e.2 = decodePNNameValue e'.2

/-- The name in the entries as they are visited. -/
def nameIn (es : List (Scalar × Any)) : Option Bytes :=
  (lookupAnyKey es pnMetaName).bind decodePNNameValue

theorem nameIn_eq (es : List (Scalar × Any)) :
    nameIn es = ((es.find? fun e => IsNameKey e.1).map Prod.snd).bind decodePNNameValue := rfl

theorem nameIn_cons {e : Scalar × Any} (h : IsNameKey e.1) (es : List (Scalar × Any)) :
    nameIn (e :: es) = decodePNNameValue e.2 := by
  have hfind : (e :: es).find? (fun e => IsNameKey e.1) = some e :=
    List.find?_cons_of_pos (decide_eq_true h)
  rw [nameIn_eq, hfind]
  rfl

theorem nameIn_of_mem {es : List (Scalar × Any)} {name : Option Bytes}
    (hall : ∀ e ∈ es, IsNameKey e.1 → decodePNNameValue e.2 = name)
    (hex : ∃ e ∈ es, IsNameKey e.1) : nameIn es = name := by
  obtain ⟨e, he, hkey⟩ := hex
  rw [nameIn_eq]
  cases hfind : es.find? fun e => IsNameKey e.1 with
  | none => exact absurd (decide_eq_true hkey) (List.find?_eq_none.mp hfind e he)
  | some e' =>
    have hkey' : decide (IsNameKey e'.1) = true :=
      List.find?_some (p := fun e : Scalar × Any => decide (IsNameKey e.1)) hfind
    exact hall e' (List.mem_of_find?_eq_some hfind) (of_decide_eq_true hkey')

theorem nameIn_of_forall_not {es : List (Scalar × Any)} (h : ∀ e ∈ es, ¬IsNameKey e.1) :
    nameIn es = none := by
  have hfind : es.find? (fun e => IsNameKey e.1) = none :=
    List.find?_eq_none.mpr fun e he hkey => h e he (of_decide_eq_true hkey)
  rw [nameIn_eq, hfind]
  rfl

theorem decodePNNameValue_visit (o : MapOrder) (path : List Nat) (v : Any) :
    decodePNNameValue (o.visit path v) = decodePNNameValue v := by
  cases v <;> rfl

/-- Every order gives one name if and only if the entries hold one name. -/
theorem nameIn_visits_iff {es : List (Scalar × Any)} :
    (∀ o o' : MapOrder, nameIn (o.perm [] (o.visitEntries [] 0 es)) =
        nameIn (o'.perm [] (o'.visitEntries [] 0 es))) ↔
      ∀ e ∈ es, ∀ e' ∈ es, IsNameKey e.1 → IsNameKey e'.1 →
        decodePNNameValue e.2 = decodePNNameValue e'.2 := by
  constructor
  · intro h e he e' he' hkey hkey'
    have hfirst {e : Scalar × Any} (he : e ∈ es) (hkey : IsNameKey e.1) :
        ∃ o : MapOrder, nameIn (o.perm [] (o.visitEntries [] 0 es)) = decodePNNameValue e.2 := by
      obtain ⟨n, hn⟩ := List.mem_iff_getElem?.mp he
      refine ⟨MapOrder.listed.rearrange [] (fun es => (moveLast n es).reverse)
        (fun es => (List.reverse_perm _).trans (moveLast_perm n es)), ?_⟩
      rw [MapOrder.rearrange_entries, moveLast, MapOrder.visitEntries_getElem?, hn, Option.map_some,
        MapOrder.listed_visit, Option.toList_some, List.reverse_append]
      exact nameIn_cons hkey _
    obtain ⟨o, ho⟩ := hfirst he hkey
    obtain ⟨o', ho'⟩ := hfirst he' hkey'
    rw [← ho, ← ho', h o o']
  · intro h
    have hmem {o : MapOrder} {e : Scalar × Any} (he : e ∈ o.perm [] (o.visitEntries [] 0 es)) :
        ∃ e' ∈ es, e.1 = e'.1 ∧ decodePNNameValue e.2 = decodePNNameValue e'.2 := by
      obtain ⟨e', he', path, rfl⟩ := mem_visitEntries ((o.isPerm [] _).mem_iff.mp he)
      exact ⟨e', he', rfl, decodePNNameValue_visit o path e'.2⟩
    by_cases hex : ∃ e ∈ es, IsNameKey e.1
    · obtain ⟨e, he, hkey⟩ := hex
      have hname (o : MapOrder) :
          nameIn (o.perm [] (o.visitEntries [] 0 es)) = decodePNNameValue e.2 := by
        apply nameIn_of_mem
        · intro x hx hxkey
          obtain ⟨e', he', hk, hvalue⟩ := hmem hx
          rw [hvalue]
          exact h e' he' e he (hk ▸ hxkey) hkey
        · obtain ⟨n, hn⟩ := List.mem_iff_getElem?.mp he
          have hvisited := MapOrder.visitEntries_getElem? o [] 0 n es
          rw [hn] at hvisited
          exact ⟨_, (o.isPerm [] _).mem_iff.mpr (List.mem_of_getElem? hvisited), hkey⟩
      intro o o'
      rw [hname, hname]
    · have hname (o : MapOrder) : nameIn (o.perm [] (o.visitEntries [] 0 es)) = none := by
        apply nameIn_of_forall_not
        intro x hx hxkey
        obtain ⟨e', he', hk, -⟩ := hmem hx
        exact hex ⟨e', he', hk ▸ hxkey⟩
      intro o o'
      rw [hname, hname]

/-- The decoded metadata is a `map[any]any`, if it is a map. -/
theorem pnMetadata_untypedMaps {data : Bytes} {arr : List Any} {v : Any}
    (h : decodePNAnnounceArray data = .ok arr) (hv : arr[6]? = some v) : UntypedMaps v := by
  have hne : arr ≠ [] := by
    rintro rfl
    cases hv
  obtain ⟨j, hrun⟩ := decodePNAnnounceArray_ok h hne
  obtain ⟨c, t0, t1, t2, t3, t4, t6, c5, us, v6, -, -, -, -, -, -, hdec, hv6, -⟩ := decodePNElements_ok hrun hne
  rw [hv6, Option.some.injEq] at hv
  exact Decodes.produces decodeElement_untypedMaps (List.forall₂_cons.mpr ⟨hdec, .nil⟩) v (by simp [hv])

/-- The announce has metadata that is searched for the name. -/
structure HasMetadata (data : Bytes) (arr : List Any) (es : List (Scalar × Any)) : Prop where
  decoded : decodePNAnnounceArray data = .ok arr
  shape : pnAnnounceShapeValid arr = true
  metadata : arr[6]? = some (.map .any es)

theorem HasMetadata.name {data : Bytes} {arr : List Any} {es : List (Scalar × Any)}
    (h : HasMetadata data arr es) (o : MapOrder) :
    pnNameFromAppData o data = .ok (nameIn (o.perm [] (o.visitEntries [] 0 es))) := by
  rw [pnNameFromAppData, h.decoded]
  simp only [bind, Except.bind, h.shape, if_true, h.metadata, Option.map_some, MapOrder.visit]
  rfl

/-- Without metadata there is no name. -/
theorem name_of_not_hasMetadata {data : Bytes} (h : ∀ arr es, ¬HasMetadata data arr es)
    (o o' : MapOrder) : pnNameFromAppData o data = pnNameFromAppData o' data := by
  have hnone (o : MapOrder) :
      pnNameFromAppData o data = (decodePNAnnounceArray data).map fun _ => none := by
    unfold pnNameFromAppData
    cases harr : decodePNAnnounceArray data with
    | error e => rfl
    | ok arr =>
      simp only [bind, Except.bind, Except.map]
      split_ifs with hshape
      · cases hv : arr[6]? with
        | none => rfl
        | some v =>
          have hmaps := pnMetadata_untypedMaps harr hv
          cases v with
          | map k es =>
            obtain rfl : k = .any := (Any.forall_map_iff.mp hmaps).1
            exact absurd ⟨harr, hshape, hv⟩ (h arr es)
          | _ => rfl
      · rfl
  rw [hnone, hnone]

theorem pnName_order_free_iff {data : Bytes} :
    (∀ o o', pnNameFromAppData o data = pnNameFromAppData o' data) ↔ NameUnambiguous data := by
  constructor
  · intro h arr es harr hshape hes
    have hname := HasMetadata.name ⟨harr, hshape, hes⟩
    refine nameIn_visits_iff.mp fun o o' => ?_
    exact Except.ok.inj ((hname o).symm.trans ((h o o').trans (hname o')))
  · intro h o o'
    by_cases hmeta : ∃ arr es, HasMetadata data arr es
    · obtain ⟨arr, es, hmeta⟩ := hmeta
      rw [hmeta.name, hmeta.name]
      exact congrArg _ (nameIn_visits_iff.mpr (h arr es hmeta.decoded hmeta.shape hmeta.metadata) o o')
    · exact name_of_not_hasMetadata (fun arr es h => hmeta ⟨arr, es, h⟩) o o'

/-- Neither the fields of a message nor the name of a propagation node depend on the
order in which maps are iterated if and only if the entries for one byte, respectively
for the name, agree. -/
theorem decoding_order_free_iff {Identity : Type} (cr : Crypto Identity) (data : Bytes) :
    ((∀ resolver o o', SameOutcome (unpack cr o data resolver) (unpack cr o' data resolver)) ↔
      FieldsUnambiguous data) ∧
    ((∀ o o', pnNameFromAppData o data = pnNameFromAppData o' data) ↔ NameUnambiguous data) := by
  refine ⟨⟨fun h => ?_, fun h => ?_⟩, pnName_order_free_iff⟩
  · exact unambiguous_of_sameFields (none_resolves data) fun o o' => (h none o o').fields
  · exact fun resolver o o' => sameOutcome_of_unambiguous h resolver o o'

/-- A message whose fields are the map `es`. -/
def fieldsInput (es : Bytes) : Bytes :=
  List.replicate 96 0 ++ [0x94, 0x01, 0xc4, 0x00, 0xc4, 0x00] ++ es

/-- An announce whose metadata is the map `es`. -/
def metadataInput (es : Bytes) : Bytes :=
  [0x97, 0xc0, 0x05, 0xc3, 0x05, 0x05, 0x93, 0x05, 0x05, 0x05] ++ es

/-- Maps with the key 1 as an `int8` and as a `uint8`: the value visited last becomes the
field, and the name visited first the name. -/
theorem colliding_keys_order_dependent :
    let fields := fieldsInput [0x82, 0x01, 0xc2, 0xcc, 0x01, 0xc3]
    let names := metadataInput [0x82, 0x01, 0xa1, 0x41, 0xcc, 0x01, 0xa1, 0x42]
    ¬SameOutcome (unpack plainCrypto .listed fields none) (unpack plainCrypto .reversed fields none) ∧
      (pnNameFromAppData .listed names).toOption = some (some [0x41]) ∧
      (pnNameFromAppData .reversed names).toOption = some (some [0x42]) := by
  intro fields names
  refine ⟨fun h => ?_, by decide +kernel, by decide +kernel⟩
  have hlisted : (unpack plainCrypto .listed fields none).msg.map LXMessage.fields =
      some (some [(1, .scalar (.bool true))]) := by rfl
  have hreversed : (unpack plainCrypto .reversed fields none).msg.map LXMessage.fields =
      some (some [(1, .scalar (.bool false))]) := by rfl
  have heq := hlisted.symm.trans (h.fields.trans hreversed)
  simp at heq

end Lxmf
