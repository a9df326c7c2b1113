-- SUMMARY: The number of bytes a value is written as does not depend on map iteration order.
import ReticulumMf.Msgpack.Encode
import Mathlib.Data.Option.NAry

/-!
# Iteration order and size

Two encodings of one value may list the entries of its maps in different orders.
They have the same length (`encode_visit_length`), and the same lengths in them.
-/

namespace Msgpack

/-- The number of bytes a value is written as. -/
def encodedSize (compact : Bool) (v : Any) : Option Nat :=
  (encode compact v).toOption.map List.length

def addEntrySize (compact : Bool) (e : Scalar × Any) (n : Option Nat) : Option Nat :=
  Option.map₂ (fun a b => (encodeScalar compact e.1).length + a + b) (encodedSize compact e.2) n

theorem encodeEntries_size (compact : Bool) (es : List (Scalar × Any)) :
    (encodeEntries compact es).toOption.map List.length =
      es.foldr (addEntrySize compact) (some 0) := by
  induction es with
  | nil => rfl
  | cons e es ih =>
    obtain ⟨k, v⟩ := e
    rw [List.foldr_cons, ← ih, addEntrySize, encodedSize]
    cases hv : encode compact v <;> cases hes : encodeEntries compact es <;>
      simp [encodeEntries, hv, hes, bind, Except.bind, pure, Except.pure, Except.toOption,
        Nat.add_assoc]

instance (compact : Bool) : LeftCommutative (addEntrySize compact) where
  left_comm e e' n := by
    unfold addEntrySize
    cases encodedSize compact e.2 <;> cases encodedSize compact e'.2 <;> cases n <;> simp
    omega

theorem encodeAll_size_congr {compact : Bool} {xs ys : List Any}
    (h : List.Forall₂ (fun x y => encodedSize compact x = encodedSize compact y) xs ys) :
    (encodeAll compact xs).toOption.map List.length =
      (encodeAll compact ys).toOption.map List.length := by
  induction h with
  | nil => rfl
  | @cons x y xs ys hxy _ ih =>
    unfold encodedSize at hxy
    cases hx : encode compact x <;> cases hy : encode compact y <;>
      cases hxs : encodeAll compact xs <;> cases hys : encodeAll compact ys <;>
      simp_all [encodeAll, bind, Except.bind, pure, Except.pure, Except.toOption]

theorem length_visitAll (o : MapOrder) (path : List Nat) (i : Nat) (xs : List Any) :
    (o.visitAll path i xs).length = xs.length := by
  induction xs generalizing i with
  | nil => rfl
  | cons x xs ih => simp [MapOrder.visitAll, ih]

theorem length_visitEntries (o : MapOrder) (path : List Nat) (i : Nat)
    (es : List (Scalar × Any)) : (o.visitEntries path i es).length = es.length := by
  induction es generalizing i with
  | nil => rfl
  | cons e es ih => simp [MapOrder.visitEntries, ih]

theorem visitAll_size {compact : Bool} {o : MapOrder} {xs : List Any}
    (ih : ∀ x ∈ xs, ∀ path, encodedSize compact (o.visit path x) = encodedSize compact x)
    (path : List Nat) (i : Nat) :
    List.Forall₂ (fun x y => encodedSize compact x = encodedSize compact y)
      (o.visitAll path i xs) xs := by
  induction xs generalizing i with
  | nil => exact .nil
  | cons x xs ihs =>
    exact .cons (ih x (by simp) _) (ihs (fun y hy => ih y (by simp [hy])) _)

theorem visitEntries_size {compact : Bool} {o : MapOrder} {es : List (Scalar × Any)}
    (ih : ∀ e ∈ es, ∀ path, encodedSize compact (o.visit path e.2) = encodedSize compact e.2)
    (path : List Nat) (i : Nat) :
    (o.visitEntries path i es).foldr (addEntrySize compact) (some 0) =
      es.foldr (addEntrySize compact) (some 0) := by
  induction es generalizing i with
  | nil => rfl
  | cons e es ihs =>
    obtain ⟨k, v⟩ := e
    simp only [MapOrder.visitEntries, List.foldr_cons, ihs (fun y hy => ih y (by simp [hy])),
      addEntrySize, ih (k, v) (by simp)]

private theorem size_append (b : Bytes) (x : Except EncodeError Bytes) :
    ((b ++ ·) <$> x).toOption.map List.length = (x.toOption.map List.length).map (b.length + ·) := by
  cases x <;> simp [Except.toOption, Functor.map, Except.map]

/-- The order of iteration does not change how many bytes are written. -/
theorem encodedSize_visit (compact : Bool) (o : MapOrder) (v : Any) (path : List Nat) :
    encodedSize compact (o.visit path v) = encodedSize compact v := by
  induction v using Any.induct generalizing path with
  | slice xs ih =>
    simp only [encodedSize, MapOrder.visit, encode, size_append, length_visitAll]
    rw [encodeAll_size_congr (visitAll_size ih path 0)]
  | map k es ih =>
    have hperm := o.isPerm path (o.visitEntries path 0 es)
    simp only [encodedSize, MapOrder.visit, encode, size_append, encodeEntries_size]
    rw [hperm.length_eq, length_visitEntries, hperm.foldr_eq, visitEntries_size ih]
  | scalar s => rfl
  | bytes b => rfl
  | typedNil k => rfl
  | unsupported t => rfl

theorem encode_visit_length {compact : Bool} {o o' : MapOrder} {path path' : List Nat} {v : Any}
    {b b' : Bytes} (h : encode compact (o.visit path v) = .ok b)
    (h' : encode compact (o'.visit path' v) = .ok b') : b.length = b'.length := by
  have := (encodedSize_visit compact o v path).trans (encodedSize_visit compact o' v path').symm
  simpa [encodedSize, h, h', Except.toOption] using this

theorem mem_visitAll {o : MapOrder} {path : List Nat} {i : Nat} {xs : List Any} {y : Any}
    (h : y ∈ o.visitAll path i xs) : ∃ x ∈ xs, ∃ path', y = o.visit path' x := by
  induction xs generalizing i with
  | nil => simp [MapOrder.visitAll] at h
  | cons x xs ih =>
    rcases List.mem_cons.mp h with rfl | h
    · exact ⟨x, by simp, _, rfl⟩
    · obtain ⟨x', hx', hy⟩ := ih h
      exact ⟨x', by simp [hx'], hy⟩

theorem mem_visitEntries {o : MapOrder} {path : List Nat} {i : Nat} {es : List (Scalar × Any)}
    {e : Scalar × Any} (h : e ∈ o.visitEntries path i es) :
    ∃ e' ∈ es, ∃ path', e = (e'.1, o.visit path' e'.2) := by
  induction es generalizing i with
  | nil => simp [MapOrder.visitEntries] at h
  | cons e' es ih =>
    rcases List.mem_cons.mp h with rfl | h
    · exact ⟨e', by simp, _, rfl⟩
    · obtain ⟨e'', he'', he⟩ := ih h
      exact ⟨e'', by simp [he''], he⟩

theorem visitEntries_keys (o : MapOrder) (path : List Nat) (i : Nat) (es : List (Scalar × Any)) :
    (o.visitEntries path i es).map Prod.fst = es.map Prod.fst := by
  induction es generalizing i with
  | nil => rfl
  | cons e es ih => rw [MapOrder.visitEntries, List.map_cons, ih, List.map_cons]

/-- A map has the same keys in any order. -/
theorem visit_keys_perm (o : MapOrder) (path : List Nat) (es : List (Scalar × Any)) :
    ((o.perm path (o.visitEntries path 0 es)).map Prod.fst).Perm (es.map Prod.fst) := by
  rw [← visitEntries_keys o path 0 es]
  exact (o.isPerm path (o.visitEntries path 0 es)).map Prod.fst

/-- What holds of every value in a tree holds there in any order, if it is about
the length of a slice and the keys of a map only. -/
theorem Any.Forall.visit {p : Any → Prop} (o : MapOrder)
    (hslice : ∀ xs ys, xs.length = ys.length → p (.slice xs) → p (.slice ys))
    (hmap : ∀ k es es', (es'.map Prod.fst).Perm (es.map Prod.fst) → p (.map k es) → p (.map k es'))
    {v : Any} (h : v.Forall p) (path : List Nat) : (o.visit path v).Forall p := by
  induction v using Any.induct generalizing path with
  | slice xs ih =>
    obtain ⟨hp, hxs⟩ := Any.forall_slice_iff.mp h
    apply Any.forall_slice_iff.mpr
    constructor
    · exact hslice _ _ (length_visitAll o path 0 xs).symm hp
    · intro y hy
      obtain ⟨x, hx, path', rfl⟩ := mem_visitAll hy
      exact ih x hx (hxs x hx) path'
  | map k es ih =>
    obtain ⟨hp, hvals⟩ := Any.forall_map_iff.mp h
    apply Any.forall_map_iff.mpr
    constructor
    · exact hmap _ _ _ (visit_keys_perm o path es) hp
    · intro e he
      obtain ⟨e', he', path', rfl⟩ := mem_visitEntries ((o.isPerm path _).mem_iff.mp he)
      exact ih e' he' (hvals e' he') path'
  | scalar s => exact h
  | bytes b => exact h
  | typedNil k => exact h
  | unsupported t => exact h

/-- Nor does it change whether the lengths fit. -/
theorem Any.Fits.visit (o : MapOrder) {v : Any} (h : v.Fits) (path : List Nat) :
    (o.visit path v).Fits := by
  apply Any.Forall.visit o _ _ h
  · intro xs ys hlen hxs
    exact Nat.lt_of_le_of_lt (Nat.le_of_eq hlen.symm) hxs
  · intro k es es' hperm hes
    have hlen : es'.length = es.length := by simpa using hperm.length_eq
    refine ⟨Nat.lt_of_le_of_lt (Nat.le_of_eq hlen) hes.1, ?_⟩
    intro e he
    obtain ⟨e', he', heq⟩ := List.mem_map.mp (hperm.mem_iff.mp (List.mem_map_of_mem he))
    exact heq ▸ hes.2 e' he'

/-! ## Orders -/

namespace MapOrder

variable {o : MapOrder} {path : List Nat}

theorem visitAll_getElem? (o : MapOrder) (path : List Nat) (i n : Nat) (xs : List Any) :
    (o.visitAll path i xs)[n]? = xs[n]?.map (o.visit ((i + n) :: path)) := by
  induction xs generalizing i n with
  | nil => rfl
  | cons x xs ih =>
    cases n with
    | zero => rfl
    | succ n => simp only [visitAll, List.getElem?_cons_succ, ih, Nat.add_right_comm, Nat.add_assoc]

theorem visitEntries_getElem? (o : MapOrder) (path : List Nat) (i n : Nat)
    (es : List (Scalar × Any)) :
    (o.visitEntries path i es)[n]? = es[n]?.map fun e => (e.1, o.visit ((i + n) :: path) e.2) := by
  induction es generalizing i n with
  | nil => rfl
  | cons e es ih =>
    cases n with
    | zero => rfl
    | succ n =>
      simp only [visitEntries, List.getElem?_cons_succ, ih, Nat.add_right_comm, Nat.add_assoc]

/-- Orders that agree below a path visit the values there alike. -/
theorem visitAll_congr {o' : MapOrder} {xs : List Any}
    (h : ∀ x ∈ xs, ∀ i, o.visit (i :: path) x = o'.visit (i :: path) x) (i : Nat) :
    o.visitAll path i xs = o'.visitAll path i xs := by
  apply List.ext_getElem?
  intro n
  rw [visitAll_getElem?, visitAll_getElem?]
  exact Option.map_congr fun x hx => h x (List.mem_of_getElem? hx) _

theorem visitEntries_congr {o' : MapOrder} {es : List (Scalar × Any)}
    (h : ∀ e ∈ es, ∀ i, o.visit (i :: path) e.2 = o'.visit (i :: path) e.2) (i : Nat) :
    o.visitEntries path i es = o'.visitEntries path i es := by
  apply List.ext_getElem?
  intro n
  rw [visitEntries_getElem?, visitEntries_getElem?]
  exact Option.map_congr fun e he => by rw [h e (List.mem_of_getElem? he)]

theorem listed_visit (path : List Nat) (v : Any) : listed.visit path v = v := by
  induction v using Any.induct generalizing path with
  | slice xs ih =>
    rw [visit, Any.slice.injEq]
    apply List.ext_getElem?
    intro n
    rw [visitAll_getElem?]
    cases hx : xs[n]? with
    | none => rfl
    | some x => rw [Option.map_some, ih x (List.mem_of_getElem? hx)]
  | map k es ih =>
    rw [visit, Any.map.injEq]
    refine ⟨rfl, List.ext_getElem? fun n => ?_⟩
    change (listed.visitEntries path 0 es)[n]? = _
    rw [visitEntries_getElem?]
    cases he : es[n]? with
    | none => rfl
    | some e => rw [Option.map_some, ih e (List.mem_of_getElem? he)]
  | scalar s => rfl
  | bytes b => rfl
  | typedNil k => rfl
  | unsupported t => rfl

/-- The order `o`, but with the entries of the map at `path` rearranged by `f`. -/
def rearrange (o : MapOrder) (path : List Nat) (f : List (Scalar × Any) → List (Scalar × Any))
    (hf : ∀ es, (f es).Perm es) : MapOrder where
  perm p es := if p = path then f es else o.perm p es
  isPerm p es := by
    split
    · exact hf es
    · exact o.isPerm p es

variable {f : List (Scalar × Any) → List (Scalar × Any)} {hf : ∀ es, (f es).Perm es}

theorem rearrange_visit_below {p : List Nat} (h : path.length < p.length) (v : Any) :
    (o.rearrange path f hf).visit p v = o.visit p v := by
  induction v using Any.induct generalizing p with
  | slice xs ih =>
    rw [visit, visit, visitAll_congr fun x hx i => ih x hx (Nat.lt_succ_of_lt h)]
  | map k es ih =>
    have hne : p ≠ path := by
      rintro rfl
      exact Nat.lt_irrefl _ h
    rw [visit, visit, visitEntries_congr fun e he i => ih e he (Nat.lt_succ_of_lt h)]
    exact congrArg _ (if_neg hne)
  | scalar s => rfl
  | bytes b => rfl
  | typedNil k => rfl
  | unsupported t => rfl

/-- The map at the path itself. -/
theorem rearrange_entries (es : List (Scalar × Any)) :
    (o.rearrange path f hf).perm path ((o.rearrange path f hf).visitEntries path 0 es) =
      f (o.visitEntries path 0 es) := by
  rw [visitEntries_congr fun e _ i => rearrange_visit_below (Nat.lt_succ_self _) e.2]
  exact if_pos rfl

end MapOrder

/-- The list with its `n`th entry, if there is one, at the end. -/
def moveLast {α : Type} (n : Nat) (es : List α) : List α := es.eraseIdx n ++ es[n]?.toList

theorem moveLast_perm {α : Type} (n : Nat) (es : List α) : (moveLast n es).Perm es := by
  unfold moveLast
  by_cases hn : n < es.length
  · rw [List.getElem?_eq_getElem hn]
    exact List.perm_append_comm.trans (List.getElem_cons_eraseIdx_perm hn)
  · rw [List.getElem?_eq_none (Nat.le_of_not_lt hn), List.eraseIdx_of_length_le (Nat.le_of_not_lt hn)]
    simp

end Msgpack
