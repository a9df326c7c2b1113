-- SUMMARY: What an accepted payload holds: its framing, the limits on its maps, and byte keys in its fields.
import ReticulumMf.Msgpack.Order
import ReticulumMf.Lxmf.Fields
import ReticulumMf.Lxmf.Reread
import ReticulumMf.Lxmf.Unpack

/-!
# Limits of a payload

The map decoder is called back by the decoder for every map, and counts how deep it
is. A payload that is accepted keeps to its limits in every element
(`Decodes.within_limits`), its fields hold no map but those with byte keys, and the
counter is back at zero after every element (`accepted_payload_limits`).
-/

namespace Msgpack.WireTree

mutual

/-- The most maps on a path of the tree. -/
def mapNesting : WireTree → Nat
  | .leaf _ _ => 0
  | .node c ts => (if c.isMap then 1 else 0) + mapNestingAll ts

def mapNestingAll : List WireTree → Nat
  | [] => 0
  | t :: ts => max t.mapNesting (mapNestingAll ts)

end

mutual

/-- Every map in the tree has at most `n` pairs. -/
def MapsUpTo (n : Nat) : WireTree → Prop
  | .leaf _ _ => True
  | .node c ts => (c.isMap → ts.length ≤ 2 * n) ∧ AllMapsUpTo n ts

def AllMapsUpTo (n : Nat) : List WireTree → Prop
  | [] => True
  | t :: ts => t.MapsUpTo n ∧ AllMapsUpTo n ts

end

theorem mapNestingAll_le_iff {n : Nat} {ts : List WireTree} :
    mapNestingAll ts ≤ n ↔ ∀ t ∈ ts, t.mapNesting ≤ n := by
  induction ts with
  | nil => simp [mapNestingAll]
  | cons t ts ih => simp [mapNestingAll, ih]

theorem allMapsUpTo_iff {n : Nat} {ts : List WireTree} :
    AllMapsUpTo n ts ↔ ∀ t ∈ ts, t.MapsUpTo n := by
  induction ts with
  | nil => simp [AllMapsUpTo]
  | cons t ts ih => simp [AllMapsUpTo, ih]

theorem Sized.isArray_or_isMap {c : Code} {n : Nat} (h : Sized c .true n) : c.isArray ∨ c.isMap := by
  cases c <;> first | exact .inl rfl | exact .inr rfl | exact h.elim

end Msgpack.WireTree

namespace Lxmf

open Msgpack ByteReader

/-! ## Reading a known tree -/

/-- A decoder of whole values reads the value its input starts with. -/
theorem ReadsValues.stops {x : Decoder Any} (hx : ReadsValues x) {t : WireTree} (ht : t.WF) {r : Bytes}
    {l : Levels} {v : Any} {j : Input Levels} (h : x ⟨t.flatten ++ r, l⟩ = .ok v j) : j = ⟨r, l⟩ := by
  obtain ⟨_, _, hrest, hst, -, ⟨⟨t', ht', rfl⟩, -⟩, -⟩ := hx _ _ _ h
  obtain ⟨-, hr⟩ := WireTree.flatten_append_inj ht ht' hrest
  obtain ⟨rest, st⟩ := j
  simp only at hst hr
  rw [hst, hr]

/-- `x` reads the tree somewhere, at the levels `l`. -/
def ReadAt (x : Decoder Any) (l : Levels) (t : WireTree) : Prop :=
  ∃ r v, x ⟨t.flatten ++ r, l⟩ = .ok v ⟨r, l⟩

theorem readAt_of_ok {x : Decoder Any} (hx : ReadsValues x) {t : WireTree} (ht : t.WF) {r : Bytes}
    {l : Levels} {v : Any} {j : Input Levels} (h : x ⟨t.flatten ++ r, l⟩ = .ok v j) : ReadAt x l t := by
  obtain rfl := ReadsValues.stops hx ht h
  exact ⟨r, v, h⟩

theorem elems_readAt {elem : Decoder Any} (helem : ReadsValues elem) {ts : List WireTree}
    (hts : WireTree.AllWF ts) {out out' : List Any} {r : Bytes} {l : Levels} {j : Input Levels}
    (h : iterate (fun s => return s ++ [← elem]) ts.length out ⟨WireTree.flattenAll ts ++ r, l⟩ =
      .ok out' j) : ∀ t ∈ ts, ReadAt elem l t := by
  induction ts generalizing out with
  | nil => simp
  | cons t ts ih =>
    rw [WireTree.flattenAll, List.append_assoc] at h
    obtain ⟨out₁, k, hstep, hrest⟩ := bind_ok_iff.mp h
    obtain ⟨v, k', hv, hpure⟩ := bind_ok_iff.mp hstep
    obtain ⟨-, rfl⟩ := pure_ok_iff.mp hpure
    obtain rfl := ReadsValues.stops helem hts.1 hv
    exact List.forall_mem_cons.mpr ⟨⟨_, v, hv⟩, ih hts.2 hrest⟩

theorem entries_readAt {dec : Decoder Any} (hdec : ReadsValues dec) {n : Nat} {ts : List WireTree}
    (hts : WireTree.AllWF ts) (hlen : ts.length = 2 * n) {out out' : List (Scalar × Any)} {r : Bytes}
    {l : Levels} {j : Input Levels}
    (h : iterate (decodeEntry dec) n out ⟨WireTree.flattenAll ts ++ r, l⟩ = .ok out' j) :
    ∀ t ∈ ts, ReadAt dec l t := by
  induction n generalizing ts out with
  | zero =>
    obtain rfl := List.length_eq_zero_iff.mp hlen
    simp
  | succ n ih =>
    match ts, hts, hlen with
    | k :: v :: ts, hts, hlen =>
      simp only [WireTree.flattenAll, List.append_assoc] at h
      obtain ⟨out₁, i₁, hstep, hrest⟩ := bind_ok_iff.mp h
      obtain ⟨key, i₂, hkey, hvalue⟩ := bind_ok_iff.mp hstep
      obtain rfl := ReadsValues.stops hdec hts.1 hkey
      cases key with
      | scalar s =>
        obtain ⟨value, i₃, hread, hpure⟩ := bind_ok_iff.mp hvalue
        obtain ⟨-, rfl⟩ := pure_ok_iff.mp hpure
        obtain rfl := ReadsValues.stops hdec hts.2.1 hread
        have hmore := ih hts.2.2 (by simp only [List.length_cons] at hlen; omega) hrest
        exact List.forall_mem_cons.mpr ⟨⟨_, _, hkey⟩, List.forall_mem_cons.mpr ⟨⟨_, _, hread⟩, hmore⟩⟩
      | _ => exact absurd hvalue fail_ne_ok

/-! ## Limits -/

/-- What the map decoder has let through, when it starts at the levels `l`. -/
def TreeWithin (l : Levels) (t : WireTree) : Prop :=
  l.mapDepth + t.mapNesting ≤ msgpackMapMaxDepth ∧ t.MapsUpTo msgpackMapMaxPairs

theorem treeWithin_node {l : Levels} {c : Code} {ts : List WireTree}
    (hroom : l.mapDepth + (if c.isMap then 1 else 0) ≤ msgpackMapMaxDepth)
    (hpairs : c.isMap → ts.length ≤ 2 * msgpackMapMaxPairs)
    (hts : ∀ t ∈ ts, l.mapDepth + (if c.isMap then 1 else 0) + t.mapNesting ≤ msgpackMapMaxDepth ∧
      t.MapsUpTo msgpackMapMaxPairs) : TreeWithin l (.node c ts) := by
  refine ⟨?_, hpairs, WireTree.allMapsUpTo_iff.mpr fun t ht => (hts t ht).2⟩
  have hle : WireTree.mapNestingAll ts ≤
      msgpackMapMaxDepth - (l.mapDepth + if c.isMap then 1 else 0) :=
    WireTree.mapNestingAll_le_iff.mpr fun t ht => by
      have := (hts t ht).1
      omega
  rw [WireTree.mapNesting]
  omega

theorem enterDepth_mapDepth {l l' : Levels} (h : enterDepth l = .ok l') : l'.mapDepth = l.mapDepth := by
  unfold enterDepth at h
  split at h
  · cases h
  · cases h
    rfl

theorem enter_mapDepth {l l' : Levels} (h : mapCtx.enter l = .ok l') :
    l.mapDepth < msgpackMapMaxDepth ∧ l'.mapDepth = l.mapDepth + 1 := by
  unfold MapCtx.enter at h
  split at h
  · cases h
  · rename_i hroom
    cases h
    exact ⟨Nat.lt_of_not_le hroom, rfl⟩

/-- By induction on the tree: the children of an array are read at the same map depth,
those of a map one deeper. -/
theorem decodeInterface_within {t : WireTree} (ht : t.WF) {fuel : Nat} {loose : Bool} {l : Levels}
    (h : ReadAt (decodeInterface mapCtx.decodeMap fuel loose) l t)
    (hl : l.mapDepth ≤ msgpackMapMaxDepth) : TreeWithin l t := by
  have hreads (fuel : Nat) (loose : Bool) : ReadsValues (decodeInterface mapCtx.decodeMap fuel loose) :=
    decodeInterface_local (fun _ hx => MapCtx.decodeMap_local mapCtx hx) fuel loose
  induction t using WireTree.induct generalizing fuel loose l with
  | leaf c body => exact ⟨hl, trivial⟩
  | node c ts ih =>
    obtain ⟨r, v, h⟩ := h
    obtain ⟨hsized, hts⟩ := ht
    have hmem := WireTree.allWF_iff.mp hts
    have hbytes : ts.length ≤ (WireTree.flattenAll ts ++ r).length := by
      rw [List.length_append]
      exact Nat.le_add_right_of_le (WireTree.length_le_flattenAll ts)
    cases fuel with
    | zero => exact absurd h fail_ne_ok
    | succ fuel =>
      rw [WireTree.flatten, List.cons_append, List.append_assoc] at h
      obtain harray | hmap := WireTree.Sized.isArray_or_isMap hsized
      · have hnot : ¬c.isMap = true := by
          cases c <;> simp [Code.isArray, Code.isMap] at harray ⊢
        rw [decodeInterface_array loose l harray, decodeSlice,
          bind_eq_of_ok (arrayLen_reads harray hsized hbytes l)] at h
        obtain ⟨xs, hiter, -⟩ := map_ok_iff.mp h
        apply treeWithin_node
        · rw [if_neg hnot]
          exact hl
        · exact fun hmap => absurd hmap hnot
        · intro t ht
          rw [if_neg hnot, Nat.add_zero]
          obtain ⟨r', v', hread⟩ := elems_readAt (decodeInterfaceCond_local (hreads fuel true)) hts hiter t ht
          obtain ⟨l', k, henter, hinner⟩ := within_ok hread
          have hdepth := enterDepth_mapDepth henter
          have hwithin := ih t ht (hmem t ht) (readAt_of_ok (hreads fuel true) (hmem t ht) hinner)
            (by rw [hdepth]; exact hl)
          rwa [TreeWithin, hdepth] at hwithin
      · obtain ⟨n, hn⟩ : ∃ n, ts.length = 2 * n := by
          cases c with
          | fixedMap k => exact ⟨k.val, hsized⟩
          | map16 | map32 => exact hsized.1
          | _ => cases hmap
        rw [decodeInterface_map loose l hmap] at h
        obtain ⟨l', k, henter, hbody⟩ := within_ok h
        obtain ⟨hroom, hdepth⟩ := enter_mapDepth henter
        rw [hn] at hbytes hsized hbody
        rw [bind_eq_of_ok (decodeMapLen_reads l' hmap hsized hbytes)] at hbody
        dsimp only at hbody
        split at hbody
        · exact absurd hbody fail_ne_ok
        · rename_i hpairs
          obtain ⟨es, hiter, -⟩ := map_ok_iff.mp hbody
          apply treeWithin_node
          · rw [if_pos hmap]
            exact hroom
          · intro _
            have hmax : mapCtx.maxPairs = msgpackMapMaxPairs := rfl
            omega
          · intro t ht
            rw [if_pos hmap, ← hdepth]
            exact ih t ht (hmem t ht) (entries_readAt (hreads fuel false) hts hn hiter t ht)
              (by rw [hdepth]; exact hroom)

/-- No path in a decoded element crosses more than 32 maps, and no map in it has more
than 8192 pairs. -/
theorem Decodes.within_limits {t : WireTree} {v : Any} (h : Decodes t v) (ht : t.WF) :
    t.mapNesting ≤ msgpackMapMaxDepth ∧ t.MapsUpTo msgpackMapMaxPairs := by
  have hwithin := decodeInterface_within ht ⟨[], v, h []⟩ (Nat.zero_le _)
  rwa [TreeWithin, Nat.zero_add] at hwithin

/-! ## The counter -/

theorem MapCtx.decodeMap_keepsState (ctx : MapCtx) {dec : Decoder Any} (hdec : KeepsState dec) :
    KeepsState (ctx.decodeMap dec) := by
  refine KeepsState.within (decodeMapLen_keepsState.bind fun o => ?_) fun l l' => MapCtx.leave_enter
  cases o with
  | none => exact KeepsState.pure _
  | some n =>
    dsimp only
    split
    · exact KeepsState.fail _
    · refine (KeepsState.iterate (fun out => hdec.bind fun k => ?_) n _).map
      cases k with
      | scalar k => exact hdec.bind fun v => KeepsState.pure _
      | _ => exact KeepsState.fail _

theorem decodeElement_keepsState : KeepsState decodeElement :=
  decodeInterface_keepsState (fun _ hx => MapCtx.decodeMap_keepsState mapCtx hx) _ _

/-! ## Fields -/

/-- The value holds no map but those keyed by bytes. -/
def ByteKeyedMaps (v : Any) : Prop :=
  v.Forall fun
    | .map k es => k = .byte ∧ ∀ e ∈ es, ∃ b, e.1 = byteKey b
    | .typedNil (.map _) => False
    | _ => True

/-- The value holds no `map[string]any`, which is left as it is. -/
def NoStringMaps (v : Any) : Prop :=
  v.Forall fun
    | .map k _ => k ≠ .string
    | .typedNil (.map k) => k ≠ .string
    | _ => True

theorem decodeElement_noStringMaps : Produces decodeElement NoStringMaps := by
  refine decodeElement_forall (fun v hv => ?_) (fun _ => True.intro) (fun _ => nofun)
  cases v with
  | typedNil k => cases k <;> first | exact True.intro | exact hv.elim
  | slice | map => exact hv.elim
  | _ => exact True.intro

theorem NoStringMaps.visit (o : MapOrder) {v : Any} (h : NoStringMaps v) (path : List Nat) :
    NoStringMaps (o.visit path v) :=
  Any.Forall.visit o (fun _ _ _ _ => True.intro) (fun _ _ _ _ hk => hk) h path

theorem FieldMap.mem_insert {key : UInt8} {v : Any} {m : FieldMap} {e : UInt8 × Any}
    (h : e ∈ m.insert key v) : e = (key, v) ∨ e ∈ m := by
  induction m with
  | nil => simpa [FieldMap.insert] using h
  | cons e' m ih =>
    rw [FieldMap.insert] at h
    split_ifs at h
    · simpa using h
    · simp only [List.mem_cons] at h ⊢
      tauto
    · simp only [List.mem_cons] at h ⊢
      obtain rfl | h := h
      · exact .inr (.inl rfl)
      · exact (ih h).imp_right .inr

/-- The values of a field map hold no map but those keyed by bytes. -/
def FieldMap.ByteKeyedMaps (m : FieldMap) : Prop := ∀ e ∈ m, Lxmf.ByteKeyedMaps e.2

theorem FieldMap.ByteKeyedMaps.toAny {m : FieldMap} (h : m.ByteKeyedMaps) : Lxmf.ByteKeyedMaps m.toAny := by
  refine Any.forall_map_iff.mpr ⟨⟨rfl, fun e he => ?_⟩, fun e he => ?_⟩
  · obtain ⟨e', -, rfl⟩ := List.mem_map.mp he
    exact ⟨e'.1, rfl⟩
  · obtain ⟨e', he', rfl⟩ := List.mem_map.mp he
    exact h e' he'

theorem asFieldEntries_byteKeyedMaps {es : List (Scalar × Any)}
    (h : ∀ e ∈ es, ∀ w, normalizeFieldValue e.2 = .ok w → ByteKeyedMaps w) {out m : FieldMap}
    (hout : out.ByteKeyedMaps) (hm : asFieldEntries out es = .ok m) : m.ByteKeyedMaps := by
  induction es generalizing out with
  | nil =>
    obtain rfl := Except.ok.inj hm
    exact hout
  | cons e es ih =>
    obtain ⟨key, -, hm⟩ := Except.bind_eq_ok_iff.mp hm
    obtain ⟨w, hw, hm⟩ := Except.bind_eq_ok_iff.mp hm
    obtain ⟨hhead, htail⟩ := List.forall_mem_cons.mp h
    refine ih htail (fun e' he' => ?_) hm
    obtain rfl | he' := FieldMap.mem_insert he'
    · exact hhead w hw
    · exact hout e' he'

theorem normalizeAll_byteKeyedMaps {xs ys : List Any}
    (h : ∀ x ∈ xs, ∀ w, normalizeFieldValue x = .ok w → ByteKeyedMaps w) (hys : normalizeAll xs = .ok ys) :
    ∀ y ∈ ys, ByteKeyedMaps y := by
  induction xs generalizing ys with
  | nil =>
    obtain rfl := Except.ok.inj hys
    simp
  | cons x xs ih =>
    obtain ⟨y, hy, hys⟩ := Except.bind_eq_ok_iff.mp hys
    obtain ⟨ys', hys', hpure⟩ := Except.bind_eq_ok_iff.mp hys
    obtain rfl := Except.pure_eq_ok_iff.mp hpure
    obtain ⟨hhead, htail⟩ := List.forall_mem_cons.mp h
    exact List.forall_mem_cons.mpr ⟨hhead y hy, ih htail hys'⟩

theorem normalizeFieldValue_byteKeyedMaps {v w : Any} (hv : NoStringMaps v)
    (h : normalizeFieldValue v = .ok w) : ByteKeyedMaps w := by
  have hempty : ByteKeyedMaps (FieldMap.toAny []) := FieldMap.ByteKeyedMaps.toAny (by simp [FieldMap.ByteKeyedMaps])
  induction v using Any.induct generalizing w with
  | slice xs ih =>
    obtain ⟨ys, hys, rfl⟩ := Except.map_eq_ok_iff.mp h
    have hxs := (Any.forall_slice_iff.mp hv).2
    exact Any.forall_slice_iff.mpr
      ⟨True.intro, normalizeAll_byteKeyedMaps (fun x hx w hw => ih x hx (hxs x hx) hw) hys⟩
  | map k es ih =>
    obtain ⟨hk, hes⟩ := Any.forall_map_iff.mp hv
    have hentries {m : FieldMap} (hm : asFieldEntries [] es = .ok m) : ByteKeyedMaps m.toAny :=
      (asFieldEntries_byteKeyedMaps (fun e he w hw => ih e he (hes e he) hw)
        (by simp [FieldMap.ByteKeyedMaps]) hm).toAny
    cases k with
    | string => exact absurd rfl hk
    | any | byte =>
      obtain ⟨m, hm, rfl⟩ := Except.map_eq_ok_iff.mp h
      exact hentries hm
  | typedNil k =>
    cases k with
    | bytes =>
      obtain rfl := Except.ok.inj h
      exact True.intro
    | slice =>
      obtain rfl := Except.ok.inj h
      exact Any.forall_slice_iff.mpr ⟨True.intro, by simp⟩
    | map k =>
      cases k with
      | string => exact absurd rfl hv
      | any | byte =>
        obtain rfl := Except.ok.inj h
        exact hempty
  | scalar s | bytes b | unsupported t =>
    obtain rfl := Except.ok.inj h
    exact True.intro

theorem asFields_byteKeyedMaps {v : Any} (hv : NoStringMaps v) {f : FieldMap}
    (h : asFields v = .ok (some f)) : f.ByteKeyedMaps := by
  cases v with
  | map k es =>
    obtain ⟨hk, hes⟩ := Any.forall_map_iff.mp hv
    cases k with
    | any =>
      obtain ⟨m, hm, hf⟩ := Except.map_eq_ok_iff.mp h
      obtain rfl := Option.some.inj hf
      exact asFieldEntries_byteKeyedMaps (fun e he w hw => normalizeFieldValue_byteKeyedMaps (hes e he) hw)
        (by simp [FieldMap.ByteKeyedMaps]) hm
    | string => exact absurd rfl hk
    | byte => cases h
  | typedNil k =>
    have hf : f = [] := by
      cases k with
      | map k =>
        cases k with
        | any | string => exact (Option.some.inj (Except.ok.inj h)).symm
        | byte => cases h
      | _ => cases h
    simp [hf, FieldMap.ByteKeyedMaps]
  | scalar s => cases s <;> cases h
  | _ => cases h

/-! ## Accepted payloads -/

/-- What the decoder has checked of a payload that it accepts, and has made of its fields. -/
structure PayloadChecked (data hashed : Bytes) (p : Payload) : Prop where
  wellFormed : ∃ c ts, IsPayload data c ts ∧ hashed = hashedBytes data ts ∧
    ∀ t ∈ ts, t.mapNesting ≤ msgpackMapMaxDepth ∧ t.MapsUpTo msgpackMapMaxPairs
  fields : ∀ f, p.fields = some f → f.ByteKeyedMaps

/-- An accepted payload is one array of four or five elements within the limits, with
byte keys throughout its fields; and the counter of the map decoder is at zero after
every element, whether it was read or not. -/
theorem accepted_payload_limits :
    (∀ (data hashed : Bytes) (vs : List Any) (o : MapOrder) (p : Payload),
      decodePayloadAndSplit data = .ok (vs, hashed) → applyPayload o vs = .ok p →
        PayloadChecked data hashed p) ∧
    ∀ (n : Nat) (out : List Any) (i : Input Levels), i.state.mapDepth = 0 →
      (endState (iterate appendElement n out i)).mapDepth = 0 := by
  constructor
  · intro data hashed vs o p hdecode happly
    obtain ⟨c, ts, hp, hdec, hhashed⟩ := decodePayloadAndSplit_ok_iff.mp hdecode
    have hwf := WireTree.allWF_iff.mp hp.wf
    refine ⟨⟨c, ts, hp, hhashed, fun t ht => ?_⟩, fun f hf => ?_⟩
    · obtain ⟨v, hv⟩ := Decodes.of_mem hdec t ht
      exact hv.within_limits (hwf t ht)
    · obtain ⟨p0, p1, p2, p3, ps, rfl, -, -, -, hfields, -⟩ := applyPayload_ok_iff.mp happly
      have hp3 : NoStringMaps p3 := Decodes.produces decodeElement_noStringMaps hdec p3 (by simp)
      rw [hf] at hfields
      exact asFields_byteKeyedMaps (hp3.visit o []) hfields
  · intro n out i hi
    have hkeeps := KeepsState.iterate (f := appendElement)
      (fun out => decodeElement_keepsState.bind fun _ => KeepsState.pure _) n out i
    rw [hkeeps, hi]

/-- A payload with a map in its fields. -/
theorem nested_fields_limits :
    ∃ vs hashed p, decodePayloadAndSplit [0x94, 1, 0xc4, 0, 0xc4, 0, 0x81, 1, 0x81, 2, 3] =
        .ok (vs, hashed) ∧ applyPayload .reversed vs = .ok p ∧
      PayloadChecked [0x94, 1, 0xc4, 0, 0xc4, 0, 0x81, 1, 0x81, 2, 3] hashed p :=
  ⟨_, _, _, rfl, rfl, accepted_payload_limits.1 _ _ _ .reversed _ rfl rfl⟩

end Lxmf
