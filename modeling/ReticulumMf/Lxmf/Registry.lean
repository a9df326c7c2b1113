-- SUMMARY: The registry of propagation nodes: announces, the list of nodes and the order of attempts.
import ReticulumMf.Lib.Sorting
import ReticulumMf.Lxmf.Config
import ReticulumMf.Lxmf.Hex
import ReticulumMf.Lxmf.OrderFree

/-!
# Propagation nodes

The registry keeps one node for each destination hash, from the latest valid announce.
`List` sorts the nodes by name and hash; `AttemptOrder` takes the reachable ones by hops
and hash, with a preferred node first. Both sort what was visited in any order with a
sort that is not stable. The comparisons tell all nodes apart, so that neither matters.
-/

namespace Lxmf

open Msgpack Sorting

/-! ## Strings -/

/-- Strings are compared byte by byte. -/
def stringKey (s : Bytes) : List Nat := s.map UInt8.toNat

theorem stringKey_inj {a b : Bytes} (h : stringKey a = stringKey b) : a = b :=
  List.map_injective_iff.mpr (fun _ _ => UInt8.toNat.inj) h

theorem stringKey_lt {a b : Bytes} : stringKey a < stringKey b ↔ a < b := by
  induction a generalizing b with
  | nil => cases b <;> simp [stringKey]
  | cons x a ih =>
    cases b with
    | nil => simp [stringKey]
    | cons y b =>
      simp only [stringKey, List.map_cons, List.cons_lt_cons_iff, UInt8.lt_iff_toNat_lt,
        UInt8.toNat_inj] at ih ⊢
      rw [ih]

/-! ## The registry -/

structure PropagationNode where
  hash : Bytes
  name : Bytes
  stampCost : Int
  hops : UInt8
  lastSeen : Nat
  deriving DecidableEq, Repr

def PropagationNode.key (n : PropagationNode) : Bytes := encodeToString n.hash

/-- A `map[string]*PropagationNode`. Each node is stored under the text of its hash. -/
structure PropagationRegistry where
  nodes : List (Bytes × PropagationNode)
  keys : (nodes.map Prod.fst).Nodup
  keyed : ∀ e ∈ nodes, e.1 = e.2.key
  hash_length : ∀ e ∈ nodes, e.2.hash.length = destinationLength

namespace PropagationRegistry

def new : PropagationRegistry := ⟨[], .nil, by simp, by simp⟩

/-- `r.nodes[key] = node`. -/
def set (r : PropagationRegistry) (n : PropagationNode) (h : n.hash.length = destinationLength) :
    PropagationRegistry where
  nodes := r.nodes.filter (·.1 ≠ n.key) ++ [(n.key, n)]
  keys := by
    rw [List.map_append, List.map_singleton, List.nodup_append]
    refine ⟨r.keys.sublist (List.filter_sublist.map _), List.nodup_singleton _, ?_⟩
    intro k hk k' hk'
    obtain ⟨e, he, rfl⟩ := List.mem_map.mp hk
    rw [List.mem_singleton.mp hk']
    simpa using (List.mem_filter.mp he).2
  keyed := by
    intro e he
    cases List.mem_append.mp he with
    | inl hold => exact r.keyed e (List.mem_of_mem_filter hold)
    | inr hnew => rw [List.mem_singleton.mp hnew]
  hash_length := by
    intro e he
    cases List.mem_append.mp he with
    | inl hold => exact r.hash_length e (List.mem_of_mem_filter hold)
    | inr hnew => rw [List.mem_singleton.mp hnew]; exact h

/-- The nodes, one for each hash. -/
def values (r : PropagationRegistry) : List PropagationNode := r.nodes.map Prod.snd

theorem values_keys (r : PropagationRegistry) : (r.values.map PropagationNode.key).Nodup := by
  have hkeys : r.nodes.map Prod.fst = r.nodes.map (PropagationNode.key ∘ Prod.snd) :=
    List.map_congr_left r.keyed
  rw [values, List.map_map, ← hkeys]
  exact r.keys

theorem values_hashes (r : PropagationRegistry) : (r.values.map PropagationNode.hash).Nodup := by
  have h : ((r.values.map PropagationNode.hash).map encodeToString).Nodup := by
    rw [List.map_map]
    exact r.values_keys
  exact h.of_map

theorem mem_values_set (r : PropagationRegistry) {n : PropagationNode} (h : n.hash.length = destinationLength)
    {n' : PropagationNode} :
    n' ∈ (r.set n h).values ↔ n' = n ∨ n'.hash ≠ n.hash ∧ n' ∈ r.values := by
  have hkey {e : Bytes × PropagationNode} (he : e ∈ r.nodes) : e.1 ≠ n.key ↔ e.2.hash ≠ n.hash := by
    rw [r.keyed e he]
    exact not_congr ⟨encodeToString_inj, congrArg encodeToString⟩
  simp only [values, set, List.map_append, List.map_singleton, List.mem_append, List.mem_map,
    List.mem_filter, List.mem_singleton, decide_eq_true_eq]
  constructor
  · rintro (⟨e, ⟨he, hne⟩, rfl⟩ | rfl)
    · exact .inr ⟨(hkey he).mp hne, e, he, rfl⟩
    · exact .inl rfl
  · rintro (rfl | ⟨hne, e, he, rfl⟩)
    · exact .inr rfl
    · exact .inl ⟨e, ⟨he, (hkey he).mpr hne⟩, rfl⟩

end PropagationRegistry

/-! ## Announces -/

section

variable {Identity : Type}

/-- The `identAny` of an announce: an identity, or nil or another type. -/
inductive IdentArg (Identity : Type) where
  | identity (id : Identity)
  | other

/-- An announce, with what is read of the surroundings while it is handled: the known
identities, the clock, and the order in which the metadata is visited. -/
structure Announce (Identity : Type) where
  destHash : Bytes
  identAny : IdentArg Identity
  appData : Bytes
  hops : UInt8
  recallIdentity : Bytes → Except String (Option Identity)
  now : Nat
  order : MapOrder

inductive RegistryError where
  | announce (e : AnnounceError)
  | destination (e : String)

def identityFromAnnounce (recallIdentity : Bytes → Except String (Option Identity)) :
    IdentArg Identity → Bytes → Except String (Option Identity)
  | .identity id, _ => .ok (some id)
  | .other, destHash => recallIdentity destHash

def leastStampCost : Int := propagationStampCostMin.toInt

/-- `ReceivedAnnounce`. `propagationDestinationHash` is the hash of an identity's
`lxmf.propagation` destination. -/
def PropagationRegistry.receivedAnnounce (propagationDestinationHash : Identity → Except String Bytes)
    (r : PropagationRegistry) (a : Announce Identity) : PropagationRegistry × Except RegistryError Unit :=
  if h : a.destHash.length ≠ destinationLength ∨ pnAnnounceDataIsValid a.appData = false then (r, .ok ())
  else
    match pnNameFromAppData a.order a.appData with
    | .error e => (r, .error (.announce e))
    | .ok name =>
      match pnStampCostFromAppData a.appData with
      | .error e => (r, .error (.announce e))
      | .ok cost =>
        let cost := cost.getD leastStampCost
        let cost := if cost < leastStampCost then leastStampCost else cost
        match identityFromAnnounce a.recallIdentity a.identAny a.destHash with
        | .error _ | .ok none => (r, .ok ())
        | .ok (some id) =>
          match propagationDestinationHash id with
          | .error e => (r, .error (.destination e))
          | .ok expected =>
            if expected ≠ a.destHash then (r, .ok ())
            else
              (r.set ⟨a.destHash, name.getD [], cost, a.hops, a.now⟩ (by simpa using (not_or.mp h).1), .ok ())

/-- An announce of a propagation node, signed for its own hash. -/
structure Announce.Valid (propagationDestinationHash : Identity → Except String Bytes)
    (a : Announce Identity) : Prop where
  length : a.destHash.length = destinationLength
  layout : pnAnnounceDataIsValid a.appData = true
  identity : ∃ id, identityFromAnnounce a.recallIdentity a.identAny a.destHash = .ok (some id) ∧
    propagationDestinationHash id = .ok a.destHash

/-- The number that is read as the cost. -/
def announcedCost (data : Bytes) : Option Int :=
  (decodePNAnnounceArray data).toOption.bind fun arr => ((arr[5]?.bind asSlice).getD []).head?.bind asInt64

/-- The announce gives the cost: the number that stands first in the sixth element. A nil
in its place counts as 0. -/
def AnnouncesCost (data : Bytes) (cost : Int) : Prop :=
  ∃ c ts c5 u us v, StartsWithArray data c ts ∧ ts[5]? = some (.node c5 (u :: us)) ∧
    ByteReader.Reads decodeInt64 ⟨0, 0⟩ v u.flatten 0 ∧ cost = v.toInt

/-- The seventh element of the announced array is the encoding of `md`. -/
def HasElementSix (data : Bytes) (md : Any) : Prop :=
  ∃ c ts t, StartsWithArray data c ts ∧ ts[6]? = some t ∧ Decodes t md

/-- A text, as a string or as bytes. -/
def IsText (v : Any) (text : Bytes) : Prop :=
  v = .scalar (.string text) ∨ v = .bytes text ∨ v = .typedNil .bytes ∧ text = []

/-- The announce gives the name: the text under the number of the name in its metadata.
The name is empty if nothing stands under that number, or something that is no text. -/
inductive AnnouncesName (data : Bytes) : Bytes → Prop where
  | named {es : List (Scalar × Any)} {e : Scalar × Any} {name : Bytes} (metadata : HasElementSix data (.map .any es))
      (mem : e ∈ es) (key : IsNameKey e.1) (text : IsText e.2 name) : AnnouncesName data name
  | unreadable {es : List (Scalar × Any)} {e : Scalar × Any} (metadata : HasElementSix data (.map .any es))
      (mem : e ∈ es) (key : IsNameKey e.1) (noText : ∀ name, ¬IsText e.2 name) : AnnouncesName data []
  | nameless {md : Any} (metadata : HasElementSix data md)
      (noKey : ∀ es, md = .map .any es → ∀ e ∈ es, ¬IsNameKey e.1) : AnnouncesName data []

/-- The node that is recorded for a valid announce. -/
def Announce.node (a : Announce Identity) : PropagationNode where
  hash := a.destHash
  name := ((pnNameFromAppData a.order a.appData).toOption.join).getD []
  stampCost := max leastStampCost ((announcedCost a.appData).getD leastStampCost)
  hops := a.hops
  lastSeen := a.now

/-- The node holds what the announce says, where too small costs are raised. -/
structure PropagationNode.Carries (n : PropagationNode) (a : Announce Identity) : Prop where
  hash : n.hash = a.destHash
  name : AnnouncesName a.appData n.name
  stampCost : ∃ cost, AnnouncesCost a.appData cost ∧ n.stampCost = max leastStampCost cost
  hops : n.hops = a.hops
  lastSeen : n.lastSeen = a.now

theorem shape_of_valid {data : Bytes} (h : pnAnnounceDataIsValid data = true) :
    ∃ arr, decodePNAnnounceArray data = .ok arr ∧ pnAnnounceShapeValid arr = true := by
  unfold pnAnnounceDataIsValid at h
  split at h
  · rename_i v0 v1 v2 v3 v4 v5 v6 vs harr
    simp only [Bool.and_eq_true] at h
    obtain ⟨⟨-, hcosts⟩, hmap⟩ := h
    refine ⟨_, harr, ?_⟩
    rw [pnAnnounceShapeValid, hmap, Bool.and_true]
    cases hv5 : asSlice v5 with
    | none =>
      rw [hv5] at hcosts
      cases hcosts
    | some costs =>
      rw [hv5, Option.any_some, Bool.and_eq_true] at hcosts
      exact hcosts.1
  · cases h

theorem pnStampCost_of_valid {data : Bytes} (h : pnAnnounceDataIsValid data = true) :
    pnStampCostFromAppData data = .ok ((announcedCost data).bind fun c => if c < 0 then none else some c) := by
  obtain ⟨arr, harr, hshape⟩ := shape_of_valid h
  rw [pnStampCostFromAppData, announcedCost, harr]
  simp only [bind, Except.bind, hshape, if_true, Except.toOption, Option.bind_some]
  cases hcost : ((arr[5]?.bind asSlice).getD []).head?.bind asInt64 <;> rfl

theorem pnName_of_valid {data : Bytes} (h : pnAnnounceDataIsValid data = true) (o : MapOrder) :
    ∃ name, pnNameFromAppData o data = .ok name := by
  obtain ⟨⟨arr, harr⟩, -⟩ := accepted_orNil h
  rw [pnNameFromAppData, harr]
  simp only [bind, Except.bind]
  split
  · split <;> exact ⟨_, rfl⟩
  · exact ⟨_, rfl⟩

theorem decodePNNameValue_eq_some_iff {v : Any} {text : Bytes} :
    decodePNNameValue v = some text ↔ IsText v text := by
  cases v with
  | scalar x => cases x <;> simp [decodePNNameValue, IsText]
  | typedNil k => cases k <;> simp [decodePNNameValue, IsText, eq_comm]
  | _ => simp [decodePNNameValue, IsText]

/-- What the entries are searched for, in the order in which they are visited. -/
theorem nameIn_cases (es : List (Scalar × Any)) :
    (∀ e ∈ es, ¬IsNameKey e.1) ∧ nameIn es = none ∨
      ∃ e ∈ es, IsNameKey e.1 ∧ nameIn es = decodePNNameValue e.2 := by
  rw [nameIn_eq]
  cases hfind : es.find? fun e => IsNameKey e.1 with
  | none => exact .inl ⟨fun e he hkey => List.find?_eq_none.mp hfind e he (decide_eq_true hkey), rfl⟩
  | some e =>
    have hkey : decide (IsNameKey e.1) = true :=
      List.find?_some (p := fun e : Scalar × Any => decide (IsNameKey e.1)) hfind
    exact .inr ⟨e, List.mem_of_find?_eq_some hfind, of_decide_eq_true hkey, rfl⟩

/-- The metadata and the costs of a valid announce are what stands in the announced array. -/
theorem elements_of_valid {data : Bytes} (h : pnAnnounceDataIsValid data = true) :
    ∃ arr md v vs, decodePNAnnounceArray data = .ok arr ∧ pnAnnounceShapeValid arr = true ∧
      (arr[6]? = some md ∧ HasElementSix data md) ∧
      arr[5]? = some (.slice (int64Value v :: vs)) ∧ AnnouncesCost data v.toInt := by
  obtain ⟨arr, harr, hshape⟩ := shape_of_valid h
  have hne : arr ≠ [] := by
    rintro rfl
    cases hshape
  obtain ⟨j, hrun⟩ := decodePNAnnounceArray_ok harr hne
  obtain ⟨c, t0, t1, t2, t3, t4, t6, c5, us, md, hstart, -, -, -, -, -, hdec, hmd,
    u, us', v, vs, rfl, hreads, hcosts⟩ := decodePNElements_ok hrun hne
  exact ⟨arr, md, v, vs, harr, hshape, ⟨hmd, c, _, t6, hstart, rfl, hdec⟩,
    hcosts, c, _, c5, u, us', v, hstart, rfl, hreads, rfl⟩

theorem announcesCost_of_valid {data : Bytes} (h : pnAnnounceDataIsValid data = true) :
    ∃ cost, AnnouncesCost data cost ∧ announcedCost data = some cost := by
  obtain ⟨arr, -, v, vs, harr, -, -, hcosts, hannounces⟩ := elements_of_valid h
  have hint : asInt64 (int64Value v) = some v.toInt := if_pos BitVec.toInt_lt
  refine ⟨v.toInt, hannounces, ?_⟩
  rw [announcedCost, harr, Except.toOption, Option.bind_some, hcosts]
  exact hint

/-- The recorded name is the announced one, whatever the order of the metadata. -/
theorem announcesName_of_valid {data : Bytes} (h : pnAnnounceDataIsValid data = true) (o : MapOrder) :
    AnnouncesName data (((pnNameFromAppData o data).toOption.join).getD []) := by
  obtain ⟨arr, md, -, -, harr, hshape, ⟨hmd, helement⟩, -⟩ := elements_of_valid h
  by_cases hmap : ∃ es, md = .map .any es
  · obtain ⟨es, rfl⟩ := hmap
    have hname : ((pnNameFromAppData o data).toOption.join).getD [] =
        (nameIn (o.perm [] (o.visitEntries [] 0 es))).getD [] := by
      rw [HasMetadata.name ⟨harr, hshape, hmd⟩ o]
      rfl
    have hmem {x : Scalar × Any} (hx : x ∈ o.perm [] (o.visitEntries [] 0 es)) :
        ∃ e ∈ es, x.1 = e.1 ∧ decodePNNameValue x.2 = decodePNNameValue e.2 := by
      obtain ⟨e, he, path, rfl⟩ := mem_visitEntries ((o.isPerm [] _).mem_iff.mp hx)
      exact ⟨e, he, rfl, decodePNNameValue_visit o path e.2⟩
    rw [hname]
    rcases nameIn_cases (o.perm [] (o.visitEntries [] 0 es)) with ⟨hnone, heq⟩ | ⟨x, hx, hkey, heq⟩
    · rw [heq]
      refine .nameless helement fun es' hes' e he hkey => ?_
      cases hes'
      obtain ⟨n, hn⟩ := List.mem_iff_getElem?.mp he
      have hvisited := MapOrder.visitEntries_getElem? o [] 0 n es
      rw [hn] at hvisited
      exact hnone _ ((o.isPerm [] _).mem_iff.mpr (List.mem_of_getElem? hvisited)) hkey
    · obtain ⟨e, he, hfst, hvalue⟩ := hmem hx
      rw [heq, hvalue]
      cases htext : decodePNNameValue e.2 with
      | none =>
        refine .unreadable helement he (hfst ▸ hkey) fun name hname => ?_
        rw [decodePNNameValue_eq_some_iff.mpr hname] at htext
        cases htext
      | some name => exact .named helement he (hfst ▸ hkey) (decodePNNameValue_eq_some_iff.mp htext)
  · have hname : pnNameFromAppData o data = .ok none := by
      have hmaps := pnMetadata_untypedMaps harr hmd
      rw [pnNameFromAppData, harr]
      simp only [bind, Except.bind, hshape, if_true, hmd, Option.map_some]
      cases md with
      | map k es =>
        obtain rfl : k = .any := (Any.forall_map_iff.mp hmaps).1
        exact absurd ⟨es, rfl⟩ hmap
      | _ => rfl
    rw [hname]
    exact .nameless helement fun es hes => absurd ⟨es, hes⟩ hmap

/-- A negative cost counts as none, and too small ones are raised. -/
theorem clamped_cost (announced : Option Int) :
    (let cost := (announced.bind fun c => if c < 0 then none else some c).getD leastStampCost
      if cost < leastStampCost then leastStampCost else cost) =
      max leastStampCost (announced.getD leastStampCost) := by
  have hleast : leastStampCost = 13 := by decide
  cases announced with
  | none => simp
  | some c =>
    simp only [Option.bind_some, Option.getD_some, hleast]
    split_ifs <;> simp_all <;> omega

variable {propagationDestinationHash : Identity → Except String Bytes}

theorem Announce.Valid.node_length {a : Announce Identity} (h : a.Valid propagationDestinationHash) :
    a.node.hash.length = destinationLength := h.length

theorem Announce.Valid.node_carries {a : Announce Identity} (h : a.Valid propagationDestinationHash) :
    a.node.Carries a := by
  obtain ⟨cost, hannounces, hcost⟩ := announcesCost_of_valid h.layout
  refine ⟨rfl, announcesName_of_valid h.layout a.order, ⟨cost, hannounces, ?_⟩, rfl, rfl⟩
  rw [Announce.node, hcost, Option.getD_some]

/-- What an announce does to the registry. -/
theorem receivedAnnounce_of_valid (r : PropagationRegistry) {a : Announce Identity}
    (h : a.Valid propagationDestinationHash) :
    (r.receivedAnnounce propagationDestinationHash a).1 = r.set a.node h.node_length := by
  obtain ⟨id, hid, hhash⟩ := h.identity
  obtain ⟨name, hname⟩ := pnName_of_valid h.layout a.order
  have hguard : ¬(a.destHash.length ≠ destinationLength ∨ pnAnnounceDataIsValid a.appData = false) := by
    simp [h.length, h.layout]
  have hnode : a.node.name = name.getD [] := by
    simp [Announce.node, hname, Except.toOption]
  rw [PropagationRegistry.receivedAnnounce, dif_neg hguard]
  simp only [hname, pnStampCost_of_valid h.layout, clamped_cost, hid, hhash, ne_eq, not_true_eq_false, if_false]
  congr 1
  simp [Announce.node, ← hnode]

theorem receivedAnnounce_of_not_valid (r : PropagationRegistry) {a : Announce Identity}
    (h : ¬a.Valid propagationDestinationHash) : (r.receivedAnnounce propagationDestinationHash a).1 = r := by
  unfold PropagationRegistry.receivedAnnounce
  split
  · rfl
  · rename_i hguard
    rw [not_or, not_not, Bool.not_eq_false] at hguard
    split
    · rfl
    · split
      · rfl
      · dsimp only
        split
        · rfl
        · rfl
        · rename_i id hid
          split
          · rfl
          · rename_i expected hexpected
            split
            · rfl
            · rename_i heq
              rw [ne_eq, not_not] at heq
              exact absurd ⟨hguard.1, hguard.2, id, hid, heq ▸ hexpected⟩ h

/-! ## Histories -/

/-- The registry after the announces. -/
def PropagationRegistry.received (propagationDestinationHash : Identity → Except String Bytes)
    (as : List (Announce Identity)) : PropagationRegistry :=
  as.foldl (fun r a => (r.receivedAnnounce propagationDestinationHash a).1) .new

/-- The latest valid announce of a hash. -/
def IsLatest (propagationDestinationHash : Identity → Except String Bytes) (as : List (Announce Identity))
    (hash : Bytes) (a : Announce Identity) : Prop :=
  ∃ before after, as = before ++ a :: after ∧ a.Valid propagationDestinationHash ∧ a.destHash = hash ∧
    ∀ b ∈ after, b.Valid propagationDestinationHash → b.destHash ≠ hash

theorem isLatest_nil {hash : Bytes} {a : Announce Identity} : ¬IsLatest propagationDestinationHash [] hash a := by
  rintro ⟨before, after, h, -⟩
  simp at h

theorem isLatest_concat {as : List (Announce Identity)} {hash : Bytes} {a b : Announce Identity} :
    IsLatest propagationDestinationHash (as ++ [b]) hash a ↔
      a = b ∧ b.Valid propagationDestinationHash ∧ b.destHash = hash ∨
      ¬(b.Valid propagationDestinationHash ∧ b.destHash = hash) ∧
        IsLatest propagationDestinationHash as hash a := by
  constructor
  · rintro ⟨before, after, heq, hvalid, hhash, hafter⟩
    rcases List.eq_nil_or_concat after with rfl | ⟨after', c, rfl⟩
    · obtain ⟨-, hba⟩ := List.append_inj' heq rfl
      cases hba
      exact .inl ⟨rfl, hvalid, hhash⟩
    · rw [List.concat_eq_append, ← List.cons_append, ← List.append_assoc] at heq
      obtain ⟨rfl, hcb⟩ := List.append_inj' heq rfl
      cases hcb
      refine .inr ⟨fun hb => ?_, before, after', rfl, hvalid, hhash, fun x hx => ?_⟩
      · exact hafter b (by simp) hb.1 hb.2
      · exact hafter x (by simp [hx])
  · rintro (⟨rfl, hvalid, hhash⟩ | ⟨hb, before, after, rfl, hvalid, hhash, hafter⟩)
    · exact ⟨as, [], rfl, hvalid, hhash, fun b hb => absurd hb List.not_mem_nil⟩
    · refine ⟨before, after ++ [b], by simp, hvalid, hhash, fun x hx hxvalid hxhash => ?_⟩
      cases List.mem_append.mp hx with
      | inl hold => exact hafter x hold hxvalid hxhash
      | inr hnew =>
        rw [List.mem_singleton] at hnew
        exact hb (hnew ▸ ⟨hxvalid, hxhash⟩)

/-- The registry holds the nodes of the latest valid announces. -/
theorem mem_values_received {as : List (Announce Identity)} {n : PropagationNode} :
    n ∈ (PropagationRegistry.received propagationDestinationHash as).values ↔
      ∃ a, IsLatest propagationDestinationHash as n.hash a ∧ n = a.node := by
  induction as using List.reverseRecOn with
  | nil =>
    constructor
    · intro h
      cases h
    · rintro ⟨a, hlatest, -⟩
      exact absurd hlatest isLatest_nil
  | append_singleton as b ih =>
    rw [PropagationRegistry.received, List.foldl_concat, ← PropagationRegistry.received]
    by_cases hb : b.Valid propagationDestinationHash
    · rw [receivedAnnounce_of_valid _ hb, PropagationRegistry.mem_values_set, ih]
      constructor
      · rintro (rfl | ⟨hne, a, hlatest, rfl⟩)
        · exact ⟨b, isLatest_concat.mpr (.inl ⟨rfl, hb, rfl⟩), rfl⟩
        · exact ⟨a, isLatest_concat.mpr (.inr ⟨fun h => hne h.2.symm, hlatest⟩), rfl⟩
      · rintro ⟨a, hlatest, hn⟩
        rcases isLatest_concat.mp hlatest with ⟨rfl, -, -⟩ | ⟨hnot, hold⟩
        · exact .inl hn
        · exact .inr ⟨fun h => hnot ⟨hb, h.symm⟩, a, hold, hn⟩
    · rw [receivedAnnounce_of_not_valid _ hb, ih]
      refine exists_congr fun a => and_congr_left fun _ => ?_
      rw [isLatest_concat]
      constructor
      · exact fun h => .inr ⟨fun hb' => hb hb'.1, h⟩
      · rintro (⟨-, hb', -⟩ | ⟨-, h⟩)
        · exact absurd hb' hb
        · exact h

theorem exists_isLatest {as : List (Announce Identity)} {a : Announce Identity} (ha : a ∈ as)
    (hvalid : a.Valid propagationDestinationHash) :
    ∃ b, IsLatest propagationDestinationHash as a.destHash b := by
  induction as using List.reverseRecOn with
  | nil => cases ha
  | append_singleton as b ih =>
    by_cases hb : b.Valid propagationDestinationHash ∧ b.destHash = a.destHash
    · exact ⟨b, isLatest_concat.mpr (.inl ⟨rfl, hb.1, hb.2⟩)⟩
    · cases List.mem_append.mp ha with
      | inl hold =>
        obtain ⟨c, hc⟩ := ih hold
        exact ⟨c, isLatest_concat.mpr (.inr ⟨hb, hc⟩)⟩
      | inr hnew =>
        rw [List.mem_singleton] at hnew
        exact absurd ⟨hnew ▸ hvalid, hnew ▸ rfl⟩ hb

theorem IsLatest.mem {as : List (Announce Identity)} {hash : Bytes} {a : Announce Identity}
    (h : IsLatest propagationDestinationHash as hash a) :
    a ∈ as ∧ a.Valid propagationDestinationHash ∧ a.destHash = hash := by
  obtain ⟨before, after, rfl, hvalid, hhash, -⟩ := h
  exact ⟨by simp, hvalid, hhash⟩

end

/-! ## The list of nodes -/

def nodeLess (a b : PropagationNode) : Bool := if a.name ≠ b.name then a.name < b.name else a.key < b.key

def nodeKey (n : PropagationNode) : List Nat ×ₗ List Nat := toLex (stringKey n.name, stringKey n.key)

theorem nodeKey_lt {a b : PropagationNode} :
    nodeKey a < nodeKey b ↔ a.name < b.name ∨ a.name = b.name ∧ a.key < b.key := by
  rw [nodeKey, nodeKey, Prod.Lex.toLex_lt_toLex, stringKey_lt, stringKey_lt]
  exact or_congr_right (and_congr_left fun _ => ⟨stringKey_inj, congrArg stringKey⟩)

theorem nodeLess_comparesBy : ComparesBy nodeLess nodeKey := by
  intro a b
  rw [Bool.eq_iff_iff, decide_eq_true_iff, nodeKey_lt, nodeLess]
  by_cases h : a.name = b.name
  · have hirrefl : ¬b.name < b.name := List.lt_irrefl b.name
    simp [h, hirrefl]
  · simp [h]

/-- `List`: `v` visits the map and `s` is `sort.Slice`. -/
def PropagationRegistry.list (v : Visit PropagationNode) (s : Sorter PropagationNode)
    (r : PropagationRegistry) : List PropagationNode :=
  s.sort nodeLess (v.order r.values)

namespace PropagationRegistry

variable {v : Visit PropagationNode} {s : Sorter PropagationNode} {r : PropagationRegistry}

theorem list_perm : (r.list v s).Perm r.values := (s.perm _ _).trans (v.perm _)

theorem list_pairwise : (r.list v s).Pairwise fun a b => nodeKey a < nodeKey b := by
  have hkeys : ((v.order r.values).map PropagationNode.key).Nodup :=
    ((v.perm r.values).map _).nodup_iff.mpr r.values_keys
  refine s.pairwise_key nodeLess_comparesBy ?_
  have hstrings : (((v.order r.values).map nodeKey).map fun k => (ofLex k).2).Nodup := by
    rw [List.map_map]
    have hmap := hkeys.map (f := stringKey) fun _ _ => stringKey_inj
    rwa [List.map_map] at hmap
  exact hstrings.of_map

theorem list_hashes : ((r.list v s).map PropagationNode.hash).Nodup :=
  (list_perm.map _).nodup_iff.mpr r.values_hashes

end PropagationRegistry

/-! ## The list after a history -/

/-- The metadata has no two keys that denote one integer. -/
def MetadataDistinct (data : Bytes) : Prop :=
  ∀ arr es, HasMetadata data arr es → es.Pairwise fun e e' =>
    ∀ i, ¬(asInt64 (.scalar e.1) = some i ∧ asInt64 (.scalar e'.1) = some i)

theorem MetadataDistinct.nameUnambiguous {data : Bytes} (h : MetadataDistinct data) : NameUnambiguous data := by
  intro arr es harr hshape hes e he e' he' hkey hkey'
  have hsymm : Std.Symm fun e e' : Scalar × Any =>
      ∀ i, ¬(asInt64 (.scalar e.1) = some i ∧ asInt64 (.scalar e'.1) = some i) :=
    ⟨fun _ _ h i hi => h i ⟨hi.2, hi.1⟩⟩
  by_cases heq : e = e'
  · rw [heq]
  · exact absurd (And.intro hkey hkey') ((h arr es ⟨harr, hshape, hes⟩).forall he he' heq _)

section

variable {Identity : Type} {propagationDestinationHash : Identity → Except String Bytes}

/-- A node without the time at which it was heard. -/
def PropagationNode.timeless (n : PropagationNode) : PropagationNode := { n with lastSeen := 0 }

/-- The announces say the same. -/
def Announce.Agrees (a a' : Announce Identity) : Prop :=
  a.destHash = a'.destHash ∧ a.appData = a'.appData ∧ a.hops = a'.hops

/-- For each hash with a valid announce, the latest ones say the same. -/
structure SameLatest (propagationDestinationHash : Identity → Except String Bytes)
    (as as' : List (Announce Identity)) : Prop where
  forth : ∀ hash a, IsLatest propagationDestinationHash as hash a →
    ∃ a', IsLatest propagationDestinationHash as' hash a' ∧ a.Agrees a'
  back : ∀ hash a', IsLatest propagationDestinationHash as' hash a' →
    ∃ a, IsLatest propagationDestinationHash as hash a ∧ a.Agrees a'

theorem Announce.Agrees.timeless_eq {a a' : Announce Identity} (h : a.Agrees a')
    (hdistinct : MetadataDistinct a.appData) : a.node.timeless = a'.node.timeless := by
  obtain ⟨hhash, hdata, hhops⟩ := h
  have hname : pnNameFromAppData a.order a.appData = pnNameFromAppData a'.order a.appData :=
    pnName_order_free_iff.mpr hdistinct.nameUnambiguous _ _
  simp only [PropagationNode.timeless, Announce.node, ← hdata, hhash, hhops, hname]

theorem mem_list {as : List (Announce Identity)} {v : Visit PropagationNode} {s : Sorter PropagationNode}
    {n : PropagationNode} :
    n ∈ (PropagationRegistry.received propagationDestinationHash as).list v s ↔
      ∃ a, IsLatest propagationDestinationHash as n.hash a ∧ n = a.node :=
  PropagationRegistry.list_perm.mem_iff.trans mem_values_received

theorem node_mem_list {as : List (Announce Identity)} {v : Visit PropagationNode} {s : Sorter PropagationNode}
    {hash : Bytes} {a : Announce Identity} (h : IsLatest propagationDestinationHash as hash a) :
    a.node ∈ (PropagationRegistry.received propagationDestinationHash as).list v s := by
  have hhash : a.node.hash = hash := h.mem.2.2
  exact mem_list.mpr ⟨a, hhash.symm ▸ h, rfl⟩

theorem mem_timeless_list {as : List (Announce Identity)} {v : Visit PropagationNode}
    {s : Sorter PropagationNode} {n : PropagationNode} :
    n ∈ ((PropagationRegistry.received propagationDestinationHash as).list v s).map PropagationNode.timeless ↔
      ∃ a hash, IsLatest propagationDestinationHash as hash a ∧ n = a.node.timeless := by
  rw [List.mem_map]
  constructor
  · rintro ⟨m, hm, rfl⟩
    obtain ⟨a, hlatest, hma⟩ := mem_list.mp hm
    exact ⟨a, m.hash, hlatest, by rw [← hma]⟩
  · rintro ⟨a, hash, hlatest, rfl⟩
    exact ⟨a.node, node_mem_list hlatest, rfl⟩

/-- Only the latest valid announces matter. -/
theorem timeless_list_eq {as as' : List (Announce Identity)} (v v' : Visit PropagationNode)
    (s s' : Sorter PropagationNode) (hsame : SameLatest propagationDestinationHash as as')
    (hdistinct : ∀ a ∈ as, a.Valid propagationDestinationHash → MetadataDistinct a.appData) :
    ((PropagationRegistry.received propagationDestinationHash as).list v s).map PropagationNode.timeless =
      ((PropagationRegistry.received propagationDestinationHash as').list v' s').map
        PropagationNode.timeless := by
  have hpairwise (r : PropagationRegistry) (v : Visit PropagationNode) (s : Sorter PropagationNode) :
      ((r.list v s).map PropagationNode.timeless).Pairwise fun a b => nodeKey a < nodeKey b :=
    List.pairwise_map.mpr PropagationRegistry.list_pairwise
  have hnodup (r : PropagationRegistry) (v : Visit PropagationNode) (s : Sorter PropagationNode) :
      ((r.list v s).map PropagationNode.timeless).Nodup := by
    refine (hpairwise r v s).imp fun {a b} hlt heq => ?_
    rw [heq] at hlt
    exact lt_irrefl _ hlt
  refine eq_of_perm_of_pairwise (hpairwise _ v s) (hpairwise _ v' s') ?_
  refine (List.perm_ext_iff_of_nodup (hnodup _ v s) (hnodup _ v' s')).mpr fun n => ?_
  rw [mem_timeless_list, mem_timeless_list]
  constructor
  · rintro ⟨a, hash, hlatest, rfl⟩
    obtain ⟨a', hlatest', hagrees⟩ := hsame.forth hash a hlatest
    exact ⟨a', hash, hlatest', hagrees.timeless_eq (hdistinct a hlatest.mem.1 hlatest.mem.2.1)⟩
  · rintro ⟨a', hash, hlatest', rfl⟩
    obtain ⟨a, hlatest, hagrees⟩ := hsame.back hash a' hlatest'
    exact ⟨a, hash, hlatest, (hagrees.timeless_eq (hdistinct a hlatest.mem.1 hlatest.mem.2.1)).symm⟩

/-- The list has one node for each hash with a valid announce, made of the latest one, in
strictly increasing order. Invalid announces change nothing, and without the times the
list is a function of the latest valid announces. -/
theorem registry_lists_latest (propagationDestinationHash : Identity → Except String Bytes)
    (as : List (Announce Identity)) (v : Visit PropagationNode) (s : Sorter PropagationNode) :
    ((PropagationRegistry.received propagationDestinationHash as).list v s).Pairwise (fun a b =>
      a.name < b.name ∨ a.name = b.name ∧ encodeToString a.hash < encodeToString b.hash) ∧
    (((PropagationRegistry.received propagationDestinationHash as).list v s).map
      PropagationNode.hash).Nodup ∧
    (∀ hash, (∃ a ∈ as, a.Valid propagationDestinationHash ∧ a.destHash = hash) ↔
      ∃ n ∈ (PropagationRegistry.received propagationDestinationHash as).list v s, n.hash = hash) ∧
    (∀ n ∈ (PropagationRegistry.received propagationDestinationHash as).list v s,
      ∃ a, IsLatest propagationDestinationHash as n.hash a ∧ n.Carries a) ∧
    (∀ hash a, IsLatest propagationDestinationHash as hash a →
      ∃ n ∈ (PropagationRegistry.received propagationDestinationHash as).list v s, n.Carries a) ∧
    (∀ r a, ¬a.Valid propagationDestinationHash →
      (PropagationRegistry.receivedAnnounce propagationDestinationHash r a).1 = r) ∧
    ∀ as' v' s', SameLatest propagationDestinationHash as as' →
      (∀ a ∈ as, a.Valid propagationDestinationHash → MetadataDistinct a.appData) →
      ((PropagationRegistry.received propagationDestinationHash as).list v s).map PropagationNode.timeless =
        ((PropagationRegistry.received propagationDestinationHash as').list v' s').map
          PropagationNode.timeless := by
  refine ⟨PropagationRegistry.list_pairwise.imp nodeKey_lt.mp, PropagationRegistry.list_hashes, fun hash => ?_,
    fun n hn => ?_, fun hash a hlatest => ⟨a.node, node_mem_list hlatest, hlatest.mem.2.1.node_carries⟩,
    fun r a => receivedAnnounce_of_not_valid r,
    fun as' v' s' hsame hdistinct => timeless_list_eq v v' s s' hsame hdistinct⟩
  · constructor
    · rintro ⟨a, ha, hvalid, rfl⟩
      obtain ⟨b, hb⟩ := exists_isLatest ha hvalid
      exact ⟨b.node, node_mem_list hb, hb.mem.2.2⟩
    · rintro ⟨n, hn, rfl⟩
      obtain ⟨a, hlatest, -⟩ := mem_list.mp hn
      exact ⟨a, hlatest.mem⟩
  · obtain ⟨a, hlatest, rfl⟩ := mem_list.mp hn
    exact ⟨a, hlatest, hlatest.mem.2.1.node_carries⟩

/-- An announce with sixteen times the byte as hash, where a hash is its own identity. -/
def namedAnnounce (byte : UInt8) (identity : Bytes) (metadata : Bytes) (hops : UInt8) : Announce Bytes where
  destHash := List.replicate 16 byte
  identAny := .identity identity
  appData := metadataInput metadata
  hops := hops
  recallIdentity _ := .ok none
  now := 0
  order := .listed

/-- The node of ones is called B and then A, and another identity calls it Z. The node
of twos has metadata without a name. -/
def heardAnnounces : List (Announce Bytes) :=
  [namedAnnounce 1 (List.replicate 16 1) [0x81, 0x01, 0xa1, 0x42] 3,
    namedAnnounce 2 (List.replicate 16 2) [0x81, 0x07, 0xa1, 0x43] 2,
    namedAnnounce 1 (List.replicate 16 1) [0x81, 0x01, 0xc4, 0x01, 0x41] 1,
    namedAnnounce 1 (List.replicate 16 2) [0x81, 0x01, 0xa1, 0x5a] 1]

theorem heard_announces_listed :
    ∃ n ∈ (PropagationRegistry.received Except.ok heardAnnounces).list (.reversed _) (.merge _),
      n.Carries (namedAnnounce 1 (List.replicate 16 1) [0x81, 0x01, 0xc4, 0x01, 0x41] 1) ∧ n.name = [0x41] := by
  have hlatest : IsLatest Except.ok heardAnnounces (List.replicate 16 1)
      (namedAnnounce 1 (List.replicate 16 1) [0x81, 0x01, 0xc4, 0x01, 0x41] 1) := by
    refine ⟨heardAnnounces.take 2, heardAnnounces.drop 3, rfl, ⟨rfl, by decide +kernel, _, rfl, rfl⟩, rfl, ?_⟩
    intro b hb hvalid
    obtain rfl := List.mem_singleton.mp hb
    obtain ⟨id, hid, hhash⟩ := hvalid.identity
    cases hid
    exact absurd (Except.ok.inj hhash) (by decide)
  obtain ⟨-, -, -, -, hlisted, -⟩ :=
    registry_lists_latest Except.ok heardAnnounces (.reversed _) (.merge _)
  obtain ⟨n, hn, hcarries⟩ := hlisted _ _ hlatest
  have hnames : ∀ n ∈ (PropagationRegistry.received Except.ok heardAnnounces).values,
      n.hash = List.replicate 16 1 → n.name = [0x41] := by decide +kernel
  exact ⟨n, hn, hcarries, hnames n (PropagationRegistry.list_perm.mem_iff.mp hn) hcarries.hash⟩

end

/-! ## The order of attempts -/

def PropagationRegistry.reachable (v : Visit PropagationNode) (s : Sorter PropagationNode)
    (hasPath : Bytes → Bool) (r : PropagationRegistry) : List PropagationNode :=
  (r.list v s).filter (hasPath ·.hash)

def hopLess (a b : PropagationNode) : Bool := if a.hops ≠ b.hops then a.hops < b.hops else a.key < b.key

/-- The closure of `AttemptOrder`, on its variables `out` and `seen`. -/
def appendNode (skip : Bytes → Bool) (st : List PropagationNode × List Bytes) (n : PropagationNode) :
    List PropagationNode × List Bytes :=
  if skip n.key then st else if n.key ∈ st.2 then st else (st.1 ++ [n], n.key :: st.2)

/-- The first loop of `AttemptOrder`, which ends at the preferred node. -/
def appendPreferred (preferred : Bytes) (skip : Bytes → Bool) (reachable : List PropagationNode) :
    List PropagationNode × List Bytes :=
  if preferred.length = destinationLength then
    match reachable.find? (·.hash = preferred) with
    | some n => appendNode skip ([], []) n
    | none => ([], [])
  else ([], [])

def PropagationRegistry.attemptOrder (v : Visit PropagationNode) (s : Sorter PropagationNode)
    (r : Option PropagationRegistry) (tr : Option (Bytes → Bool)) (preferred : Bytes) (skip : Bytes → Bool)
    (maxAttempts : Int) : List PropagationNode :=
  match r, tr with
  | some r, some hasPath =>
    let reachable := r.reachable v s hasPath
    if reachable.length = 0 then []
    else
      let reachable := s.sort hopLess reachable
      let out := (reachable.foldl (appendNode skip) (appendPreferred preferred skip reachable)).1
      if maxAttempts > 0 ∧ (out.length : Int) > maxAttempts then out.take maxAttempts.toNat else out
  | _, _ => []

def hopKey (n : PropagationNode) : Nat ×ₗ List Nat := toLex (n.hops.toNat, stringKey n.key)

theorem hopKey_lt {a b : PropagationNode} :
    hopKey a < hopKey b ↔ a.hops < b.hops ∨ a.hops = b.hops ∧ a.key < b.key := by
  rw [hopKey, hopKey, Prod.Lex.toLex_lt_toLex, stringKey_lt, UInt8.lt_iff_toNat_lt]
  exact or_congr_right (and_congr_left fun _ => UInt8.toNat_inj)

theorem hopLess_comparesBy : ComparesBy hopLess hopKey := by
  intro a b
  rw [Bool.eq_iff_iff, decide_eq_true_iff, hopKey_lt, hopLess]
  by_cases h : a.hops = b.hops
  · simp [h]
  · simp [h]

/-- The loop adds the nodes that are neither skipped nor seen, in their order. -/
theorem foldl_appendNode {skip : Bytes → Bool} {l : List PropagationNode}
    {st : List PropagationNode × List Bytes} (hl : (l.map PropagationNode.key).Nodup) :
    (l.foldl (appendNode skip) st).1 = st.1 ++ l.filter fun n => !skip n.key && n.key ∉ st.2 := by
  induction l generalizing st with
  | nil => simp
  | cons n l ih =>
    rw [List.map_cons, List.nodup_cons] at hl
    rw [List.foldl_cons, ih hl.2]
    unfold appendNode
    by_cases hskip : skip n.key = true
    · simp [hskip]
    · by_cases hseen : n.key ∈ st.2
      · simp [hskip, hseen]
      · rw [if_neg hskip, if_neg hseen, List.append_assoc]
        have hrest : l.filter (fun m => !skip m.key && decide (m.key ∉ n.key :: st.2)) =
            l.filter fun m => !skip m.key && decide (m.key ∉ st.2) := by
          refine List.filter_congr fun m hm => ?_
          have hne : m.key ≠ n.key := fun heq => hl.1 (heq ▸ List.mem_map_of_mem hm)
          simp [hne]
        rw [hrest, List.filter_cons_of_pos (by simp [hskip, hseen]), List.singleton_append]

section

variable {v : Visit PropagationNode} {s : Sorter PropagationNode} {r : PropagationRegistry}
  {hasPath skip : Bytes → Bool} {preferred : Bytes}

/-- The nodes by hops and hash. -/
def PropagationRegistry.byHops (v : Visit PropagationNode) (s : Sorter PropagationNode)
    (hasPath : Bytes → Bool) (r : PropagationRegistry) : List PropagationNode :=
  s.sort hopLess (r.reachable v s hasPath)

namespace PropagationRegistry

theorem reachable_perm : (r.reachable v s hasPath).Perm (r.values.filter (hasPath ·.hash)) :=
  list_perm.filter _

theorem reachable_hopKeys : ((r.reachable v s hasPath).map hopKey).Nodup := by
  have hkeys : ((r.reachable v s hasPath).map PropagationNode.key).Nodup :=
    (reachable_perm.map _).nodup_iff.mpr (r.values_keys.sublist (List.filter_sublist.map _))
  have hstrings : (((r.reachable v s hasPath).map hopKey).map fun k => (ofLex k).2).Nodup := by
    rw [List.map_map]
    have hmap := hkeys.map (f := stringKey) fun _ _ => stringKey_inj
    rwa [List.map_map] at hmap
  exact hstrings.of_map

theorem byHops_pairwise : (r.byHops v s hasPath).Pairwise fun a b => hopKey a < hopKey b :=
  s.pairwise_key hopLess_comparesBy reachable_hopKeys

theorem byHops_perm : (r.byHops v s hasPath).Perm (r.values.filter (hasPath ·.hash)) :=
  (s.perm _ _).trans reachable_perm

theorem byHops_eq (v v' : Visit PropagationNode) (s s' : Sorter PropagationNode) :
    r.byHops v s hasPath = r.byHops v' s' hasPath :=
  eq_of_perm_of_pairwise byHops_pairwise byHops_pairwise (byHops_perm.trans byHops_perm.symm)

theorem mem_byHops {n : PropagationNode} :
    n ∈ r.byHops v s hasPath ↔ n ∈ r.values ∧ hasPath n.hash = true := by
  rw [byHops_perm.mem_iff, List.mem_filter]

theorem byHops_keys : ((r.byHops v s hasPath).map PropagationNode.key).Nodup :=
  (byHops_perm.map _).nodup_iff.mpr (r.values_keys.sublist (List.filter_sublist.map _))

theorem hash_length_of_mem {n : PropagationNode} (h : n ∈ r.values) : n.hash.length = destinationLength := by
  obtain ⟨e, he, rfl⟩ := List.mem_map.mp h
  exact r.hash_length e he

end PropagationRegistry

/-- All reachable nodes that are not skipped: the preferred one first, the others by hops
and hash. -/
structure IsAttemptOrder (r : PropagationRegistry) (hasPath : Bytes → Bool) (preferred : Bytes)
    (skip : Bytes → Bool) (out : List PropagationNode) : Prop where
  hashes : (out.map PropagationNode.hash).Nodup
  mem : ∀ n, n ∈ out ↔ n ∈ r.values ∧ hasPath n.hash = true ∧ skip (encodeToString n.hash) = false
  first : ∀ n ∈ out, n.hash = preferred → out.head? = some n
  rest : (out.filter (·.hash ≠ preferred)).Pairwise fun a b =>
    a.hops < b.hops ∨ a.hops = b.hops ∧ encodeToString a.hash < encodeToString b.hash

/-- The list before it is cut off. -/
def fullOrder (preferred : Bytes) (skip : Bytes → Bool) (l : List PropagationNode) : List PropagationNode :=
  l.filter (fun n => !skip n.key && n.hash = preferred) ++ l.filter fun n => !skip n.key && n.hash ≠ preferred

/-- The first loop adds the preferred node if it is there and not skipped. -/
theorem appendPreferred_cases (preferred : Bytes) (skip : Bytes → Bool) {l : List PropagationNode}
    (hlen : ∀ n ∈ l, n.hash.length = destinationLength) :
    (∀ n ∈ l, skip n.key = false → n.hash ≠ preferred) ∧ appendPreferred preferred skip l = ([], []) ∨
      ∃ n ∈ l, skip n.key = false ∧ n.hash = preferred ∧
        appendPreferred preferred skip l = ([n], [n.key]) := by
  unfold appendPreferred
  split
  · split
    · rename_i n hfind
      have hn : n ∈ l := List.mem_of_find?_eq_some hfind
      have hhash : n.hash = preferred := by simpa using List.find?_some hfind
      by_cases hskip : skip n.key = true
      · refine .inl ⟨fun m hm hmskip heq => ?_, if_pos hskip⟩
        rw [PropagationNode.key, heq, ← hhash, ← PropagationNode.key, hskip] at hmskip
        cases hmskip
      · exact .inr ⟨n, hn, Bool.of_not_eq_true hskip, hhash, by simp [appendNode, hskip]⟩
    · rename_i hfind
      refine .inl ⟨fun n hn _ heq => ?_, rfl⟩
      exact absurd heq (by simpa using List.find?_eq_none.mp hfind n hn)
  · rename_i hne
    exact .inl ⟨fun n hn _ heq => hne (heq ▸ hlen n hn), rfl⟩

/-- Both loops together put the preferred node before the others. -/
theorem foldl_appendPreferred {l : List PropagationNode} (hl : (l.map PropagationNode.key).Nodup)
    (hlen : ∀ n ∈ l, n.hash.length = destinationLength) :
    (l.foldl (appendNode skip) (appendPreferred preferred skip l)).1 = fullOrder preferred skip l := by
  rcases appendPreferred_cases preferred skip hlen with
    ⟨habsent, hstart⟩ | ⟨n, hn, hskip, hhash, hstart⟩
  · have hnone : l.filter (fun n => !skip n.key && decide (n.hash = preferred)) = [] := by
      refine List.filter_eq_nil_iff.mpr fun n hn hcond => ?_
      simp only [Bool.and_eq_true, Bool.not_eq_true', decide_eq_true_eq] at hcond
      exact habsent n hn hcond.1 hcond.2
    rw [hstart, foldl_appendNode hl, fullOrder, hnone]
    refine congrArg _ (List.filter_congr fun n hn => ?_)
    cases hskip : skip n.key with
    | true => rfl
    | false => simp [habsent n hn hskip]
  · have hkey {m : PropagationNode} : m.key = n.key ↔ m.hash = preferred := by
      rw [← hhash]
      exact ⟨encodeToString_inj, congrArg encodeToString⟩
    have hone : l.filter (fun m => !skip m.key && decide (m.hash = preferred)) = [n] := by
      have hcongr : l.filter (fun m => !skip m.key && decide (m.hash = preferred)) = l.filter (· = n) := by
        refine List.filter_congr fun m hm => ?_
        by_cases heq : m = n
        · simp [heq, hskip, hhash]
        · have hne : m.hash ≠ preferred := fun h => heq (List.inj_on_of_nodup_map hl hm hn (hkey.mpr h))
          simp [heq, hne]
      rw [hcongr, List.filter_eq, List.count_eq_one_of_mem hl.of_map hn]
      rfl
    rw [hstart, foldl_appendNode hl, fullOrder, hone]
    refine congrArg _ (List.filter_congr fun m _ => ?_)
    simp [hkey]

theorem fullOrder_isAttemptOrder :
    IsAttemptOrder r hasPath preferred skip (fullOrder preferred skip (r.byHops v s hasPath)) := by
  have hnodup : ((r.byHops v s hasPath).map PropagationNode.hash).Nodup :=
    (PropagationRegistry.byHops_perm.map _).nodup_iff.mpr (r.values_hashes.sublist (List.filter_sublist.map _))
  have hsub (q : PropagationNode → Bool) : (((r.byHops v s hasPath).filter q).map PropagationNode.hash).Nodup :=
    hnodup.sublist (List.filter_sublist.map _)
  have hmem (n : PropagationNode) : n ∈ fullOrder preferred skip (r.byHops v s hasPath) ↔
      n ∈ r.values ∧ hasPath n.hash = true ∧ skip (encodeToString n.hash) = false := by
    simp only [fullOrder, List.mem_append, List.mem_filter, PropagationRegistry.mem_byHops, Bool.and_eq_true,
      Bool.not_eq_true', decide_eq_true_eq, PropagationNode.key]
    tauto
  have hfront {n : PropagationNode}
      (hn : n ∈ (r.byHops v s hasPath).filter fun n => !skip n.key && n.hash = preferred) :
      n.hash = preferred := by
    have h := (List.mem_filter.mp hn).2
    simp only [Bool.and_eq_true, decide_eq_true_eq] at h
    exact h.2
  have hback {n : PropagationNode}
      (hn : n ∈ (r.byHops v s hasPath).filter fun n => !skip n.key && n.hash ≠ preferred) :
      n.hash ≠ preferred := by
    have h := (List.mem_filter.mp hn).2
    simp only [Bool.and_eq_true, decide_eq_true_eq] at h
    exact h.2
  refine ⟨?_, hmem, ?_, ?_⟩
  · rw [fullOrder, List.map_append, List.nodup_append]
    refine ⟨hsub _, hsub _, fun h hh h' hh' heq => ?_⟩
    obtain ⟨n, hn, rfl⟩ := List.mem_map.mp hh
    obtain ⟨n', hn', rfl⟩ := List.mem_map.mp hh'
    exact hback hn' (heq ▸ hfront hn)
  · intro n hn hhash
    have hn' : n ∈ (r.byHops v s hasPath).filter fun n => !skip n.key && n.hash = preferred :=
      (List.mem_append.mp hn).resolve_right fun h => hback h hhash
    obtain ⟨m, ms, hms⟩ := List.exists_cons_of_ne_nil (List.ne_nil_of_mem hn')
    have hm : m ∈ (r.byHops v s hasPath).filter fun n => !skip n.key && n.hash = preferred := by
      rw [hms]
      exact List.mem_cons_self
    have heq : m = n := List.inj_on_of_nodup_map (hsub _) hm hn' ((hfront hm).trans hhash.symm)
    rw [fullOrder, hms, heq]
    rfl
  · have hnone : ((r.byHops v s hasPath).filter fun n => !skip n.key && n.hash = preferred).filter
        (·.hash ≠ preferred) = [] :=
      List.filter_eq_nil_iff.mpr fun n hn => by simpa using hfront hn
    have hall : ((r.byHops v s hasPath).filter fun n => !skip n.key && n.hash ≠ preferred).filter
        (·.hash ≠ preferred) = (r.byHops v s hasPath).filter fun n => !skip n.key && n.hash ≠ preferred :=
      List.filter_eq_self.mpr fun n hn => by simpa using hback hn
    rw [fullOrder, List.filter_append, hnone, hall, List.nil_append]
    exact (PropagationRegistry.byHops_pairwise.sublist List.filter_sublist).imp hopKey_lt.mp

theorem attemptOrder_eq (maxAttempts : Int) :
    PropagationRegistry.attemptOrder v s (some r) (some hasPath) preferred skip maxAttempts =
      let full := fullOrder preferred skip (r.byHops v s hasPath)
      if maxAttempts > 0 then full.take (min maxAttempts.toNat full.length) else full := by
  have hlen : ∀ n ∈ r.byHops v s hasPath, n.hash.length = destinationLength := fun n hn =>
    PropagationRegistry.hash_length_of_mem (PropagationRegistry.mem_byHops.mp hn).1
  have hout : ((r.byHops v s hasPath).foldl (appendNode skip)
      (appendPreferred preferred skip (r.byHops v s hasPath))).1 =
      fullOrder preferred skip (r.byHops v s hasPath) :=
    foldl_appendPreferred PropagationRegistry.byHops_keys hlen
  unfold PropagationRegistry.attemptOrder
  dsimp only
  split
  · rename_i hnil
    have hempty : r.byHops v s hasPath = [] := by
      rw [← List.length_eq_zero_iff, PropagationRegistry.byHops, (s.perm _ _).length_eq, hnil]
    simp [hempty, fullOrder]
  · rw [← PropagationRegistry.byHops, hout]
    by_cases hpos : maxAttempts > 0
    · rw [if_pos hpos]
      split
      · rename_i hlong
        rw [Nat.min_eq_left (by omega)]
      · rename_i hshort
        rw [Nat.min_eq_right (by omega), List.take_length]
    · rw [if_neg hpos, if_neg fun h => hpos h.1]

/-- One list of all candidates does for every order in which the map is visited and every
way to sort, and a positive number of attempts takes as many from its front. -/
theorem attempt_order_spec (r : PropagationRegistry) (hasPath : Bytes → Bool) (preferred : Bytes)
    (skip : Bytes → Bool) :
    ∃ full, IsAttemptOrder r hasPath preferred skip full ∧
      ∀ v s maxAttempts, PropagationRegistry.attemptOrder v s (some r) (some hasPath) preferred skip maxAttempts =
        if maxAttempts > 0 then full.take (min maxAttempts.toNat full.length) else full := by
  refine ⟨fullOrder preferred skip (r.byHops (.listed _) (.merge _) hasPath), fullOrder_isAttemptOrder, ?_⟩
  intro v s maxAttempts
  rw [attemptOrder_eq, PropagationRegistry.byHops_eq v (.listed _) s (.merge _)]

end

end Lxmf
