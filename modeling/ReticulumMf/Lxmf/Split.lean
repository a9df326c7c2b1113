-- SUMMARY: What the payload decoder accepts: one array of four or five values, split after the fourth.
import ReticulumMf.Lib.Except
import ReticulumMf.Msgpack.Reread
import ReticulumMf.Lxmf.Payload

/-!
# Splitting a payload

`decodePayloadAndSplit_ok_iff` characterises the accepted payloads by their
syntax: one array of four or five well-formed elements and nothing after it,
each element decoded on its own, and the hashed bytes those of the array without
its fifth element.
-/

namespace Lxmf

open Msgpack ByteReader

theorem decodeEntry_local {dec : Decoder Any} (hdec : ReadsValues dec)
    (out : List (Scalar × Any)) :
    Local (decodeEntry dec out) (fun _ b m => AreValues 2 b ∧ m = 0) := by
  unfold decodeEntry
  refine (hdec.bind (R := fun _ _ b m => IsValue b ∧ m = 0) fun k => ?_).mono ?_
  · cases k with
    | scalar k =>
      refine (hdec.bind fun v => Local.pure (insertEntry k v out)).mono ?_
      rintro _ b m ⟨_, _, _, _, _, ⟨hv, rfl⟩, ⟨-, rfl, rfl⟩, rfl, rfl⟩
      exact ⟨by simpa using hv, by simp⟩
    | _ => exact Local.fail _
  · rintro _ b m ⟨_, _, _, _, _, ⟨hk, rfl⟩, ⟨hv, rfl⟩, rfl, rfl⟩
    exact ⟨hk.areValues.append hv.areValues, by simp⟩

theorem MapCtx.leave_enter {ctx : MapCtx} {l l' : Levels} (h : ctx.enter l = .ok l') :
    MapCtx.leave l' = l := by
  unfold MapCtx.enter at h
  split at h
  · cases h
  · cases h
    simp [MapCtx.leave]

/-- The map decoder consumes whole maps when it is given a decoder of whole values. -/
theorem MapCtx.decodeMap_local (ctx : MapCtx) {dec : Decoder Any} (hdec : ReadsValues dec) :
    ReadsMaps (ctx.decodeMap dec) := by
  have hloop (n : Nat) := (Local.iterate (T := fun n b => AreValues (2 * n) b) AreValues.zero
    (fun n b b' hb hb' => by simpa [Nat.mul_add, Nat.add_comm] using hb.append hb')
    (decodeEntry_local hdec) n []).map (f := Any.map .any)
  unfold MapCtx.decodeMap
  refine Local.within ((decodeMapLen_local.bind
    (R := fun o _ b m => ∀ n, o = some n → AreValues (2 * n) b ∧ m = 0) fun o => ?_).mono ?_) ?_
  · cases o with
    | none => exact (Local.pure _).mono (by simp)
    | some n =>
      by_cases hn : n > ctx.maxPairs
      · simpa only [hn, if_true] using Local.fail _
      · simp only [hn, if_false]
        refine (hloop n).mono ?_
        rintro _ b m ⟨_, rfl, hvals, rfl⟩ n' ⟨⟩
        exact ⟨hvals, rfl⟩
  · rintro _ b m ⟨o, _, _, content, _, ⟨c, rest, rfl, hlen⟩, hR, rfl, rfl⟩
    refine ⟨c, rest ++ content, rfl, fun hc => ?_⟩
    obtain ⟨n, rfl, hsized, rfl, rfl⟩ := hlen hc
    obtain ⟨hvals, rfl⟩ := hR n rfl
    have hle := hvals.length_le
    exact ⟨hvals.isValue_node hsized, by omega⟩
  · exact fun l l' => MapCtx.leave_enter

theorem decodeElement_local : ReadsValues decodeElement :=
  decodeInterface_local (fun _ hx => MapCtx.decodeMap_local mapCtx hx) _ _

/-- The element decoder reads the tree `t` as `v`, whatever follows. -/
def Decodes (t : WireTree) (v : Any) : Prop :=
  ∀ r : Bytes, decodeElement ⟨t.flatten ++ r, ⟨0, 0⟩⟩ = .ok v ⟨r, ⟨0, 0⟩⟩

/-- What holds of whatever the element decoder returns holds of the decoded elements. -/
theorem Decodes.produces {Q : Any → Prop} (hQ : Produces decodeElement Q) {ts : List WireTree}
    {vs : List Any} (h : List.Forall₂ Decodes ts vs) : ∀ v ∈ vs, Q v := by
  induction h with
  | nil => simp
  | cons hv _ ih => exact List.forall_mem_cons.mpr ⟨hQ _ _ _ (hv []), ih⟩

theorem Decodes.of_mem {ts : List WireTree} {vs : List Any} (h : List.Forall₂ Decodes ts vs) :
    ∀ t ∈ ts, ∃ v, Decodes t v := by
  induction h with
  | nil => simp
  | cons hv _ ih => exact List.forall_mem_cons.mpr ⟨⟨_, hv⟩, ih⟩

theorem decodes_bytes {b : Bytes} (h : b.length < 2 ^ 32) : Decodes (.leaf (.bin b.length) b) (.bytes b) :=
  fun r => bytes_reads false r ⟨0, 0⟩ h

theorem decodes_bin8 {b : Bytes} (h : b.length < 256) : Decodes (.leaf .bin8 b) (.bytes b) := by
  have hcode : Code.bin b.length = .bin8 := if_pos h
  rw [← hcode]
  exact decodes_bytes (by omega)

theorem decodeElement_ok_iff {i j : Input Levels} {v : Any} (hi : i.state = ⟨0, 0⟩) :
    decodeElement i = .ok v j ↔
      ∃ t : WireTree, t.WF ∧ Decodes t v ∧ i.rest = t.flatten ++ j.rest ∧ j.state = ⟨0, 0⟩ := by
  obtain ⟨rest, st⟩ := i
  obtain ⟨rest', st'⟩ := j
  obtain rfl : st = ⟨0, 0⟩ := hi
  constructor
  · intro h
    obtain ⟨_, _, hrest, hst, -, ⟨⟨t, ht, rfl⟩, rfl⟩, hreads⟩ := decodeElement_local _ _ _ h
    exact ⟨t, ht, fun r => hreads r (Nat.zero_le _), hrest, hst⟩
  · rintro ⟨t, -, hv, hrest, hst⟩
    obtain rfl : st' = ⟨0, 0⟩ := hst
    have := hv rest'
    simp only at hrest
    rwa [← hrest] at this

theorem iterate_appendElement_ok_iff {n : Nat} {out out' : List Any} {i j : Input Levels}
    (hi : i.state = ⟨0, 0⟩) :
    iterate appendElement n out i = .ok out' j ↔
      ∃ (ts : List WireTree) (vs : List Any), WireTree.AllWF ts ∧ ts.length = n ∧
        List.Forall₂ Decodes ts vs ∧ out' = out ++ vs ∧
        i.rest = WireTree.flattenAll ts ++ j.rest ∧ j.state = ⟨0, 0⟩ := by
  induction n generalizing out i with
  | zero =>
    constructor
    · intro h
      obtain ⟨rfl, rfl⟩ := pure_ok_iff.mp h
      exact ⟨[], [], trivial, rfl, .nil, by simp, rfl, hi⟩
    · rintro ⟨ts, vs, -, hlen, hdec, rfl, hrest, hst⟩
      obtain rfl := List.length_eq_zero_iff.mp hlen
      cases hdec
      obtain ⟨_, _⟩ := i
      obtain ⟨_, _⟩ := j
      simp_all [iterate, WireTree.flattenAll]
  | succ n ih =>
    constructor
    · intro h
      obtain ⟨out₁, k, h₁, h₂⟩ := bind_ok_iff.mp h
      obtain ⟨v, k', hv, hpure⟩ := bind_ok_iff.mp h₁
      obtain ⟨rfl, rfl⟩ := pure_ok_iff.mp hpure
      obtain ⟨t, ht, hdec, hrest, hst⟩ := (decodeElement_ok_iff hi).mp hv
      obtain ⟨ts, vs, hts, rfl, hdecs, rfl, hrest', hst'⟩ := (ih hst).mp h₂
      exact ⟨t :: ts, v :: vs, ⟨ht, hts⟩, rfl, .cons hdec hdecs, by simp,
        by simp [WireTree.flattenAll, hrest, hrest'], hst'⟩
    · rintro ⟨ts, vs, hts, hlen, hdecs, rfl, hrest, hst⟩
      cases hdecs with
      | nil => simp at hlen
      | @cons t v ts vs hdec hdecs =>
        refine bind_ok_iff.mpr ⟨out ++ [v], ⟨WireTree.flattenAll ts ++ j.rest, ⟨0, 0⟩⟩, ?_, ?_⟩
        · refine bind_ok_iff.mpr ⟨v, _, (decodeElement_ok_iff hi).mpr
            ⟨t, hts.1, hdec, ?_, rfl⟩, rfl⟩
          simpa [WireTree.flattenAll] using hrest
        · exact (ih rfl).mpr ⟨ts, vs, hts.2, by simpa using hlen, hdecs, by simp, rfl, hst⟩

theorem runDecoder_ok_iff {α : Type} {x : Decoder α} {i j : Input Levels} {a : α} :
    runDecoder x i = .ok (a, j) ↔ x i = .ok a j := by
  unfold runDecoder
  cases x i <;> simp

/-- `data` is one array of the four or five elements `ts`, and nothing else. -/
structure IsPayload (data : Bytes) (c : Code) (ts : List WireTree) : Prop where
  isArray : c.isArray
  sized : WireTree.Sized c .true ts.length
  wf : WireTree.AllWF ts
  length : ts.length = 4 ∨ ts.length = 5
  bytes : data = (WireTree.node c ts).flatten

/-- The bytes that are hashed: the array without its stamp. -/
def hashedBytes (data : Bytes) (ts : List WireTree) : Bytes :=
  if ts.length = 4 then data else 0x94 :: WireTree.flattenAll (ts.take 4)

/-- The slice between two reader positions is what was read between them. -/
theorem slice_between (h b r : Bytes) :
    ((h ++ (b ++ r)).take ((h ++ (b ++ r)).length - r.length)).drop
      ((h ++ (b ++ r)).length - (b ++ r).length) = b := by
  have hfourth : (h ++ (b ++ r)).length - r.length = (h ++ b).length := by
    simp only [List.length_append]; omega
  have hheader : (h ++ (b ++ r)).length - (b ++ r).length = h.length := by
    simp only [List.length_append]; omega
  rw [hfourth, hheader, ← List.append_assoc, List.take_left, List.drop_left]

/-- What `decodePayloadAndSplit` accepts, and what it returns. -/
theorem decodePayloadAndSplit_ok_iff {data hashed : Bytes} {vs : List Any} :
    decodePayloadAndSplit data = .ok (vs, hashed) ↔
      ∃ (c : Code) (ts : List WireTree), IsPayload data c ts ∧ List.Forall₂ Decodes ts vs ∧
        hashed = hashedBytes data ts := by
  unfold decodePayloadAndSplit
  constructor
  · intro h
    obtain ⟨⟨arrLen, ⟨r₁, l₁⟩⟩, hlen, h⟩ := Except.bind_eq_ok_iff.mp h
    rw [runDecoder_ok_iff] at hlen
    cases arrLen with
    | none => simp at h
    | some n =>
      obtain ⟨c, hc, hsized, -, rfl, rfl⟩ := decodeArrayLen_ok_iff.mp hlen
      simp only at h
      split at h
      · cases h
      split at h
      · cases h
      obtain ⟨⟨out, ⟨r₂, l₂⟩⟩, hfour, h⟩ := Except.bind_eq_ok_iff.mp h
      rw [runDecoder_ok_iff, iterate_appendElement_ok_iff rfl] at hfour
      obtain ⟨ts₁, vs₁, hts₁, hlen₁, hdec₁, rfl, rfl, rfl⟩ := hfour
      obtain ⟨⟨out, ⟨r₃, l₃⟩⟩, hrest, h⟩ := Except.bind_eq_ok_iff.mp h
      rw [runDecoder_ok_iff, iterate_appendElement_ok_iff rfl] at hrest
      obtain ⟨ts₂, vs₂, hts₂, hlen₂, hdec₂, rfl, rfl, rfl⟩ := hrest
      simp only at h
      split at h
      · cases h
      split at h
      · cases h
      rename_i hge _ hempty hn
      cases h
      obtain rfl : r₃ = [] := List.length_eq_zero_iff.mp (by omega)
      have htotal : (ts₁ ++ ts₂).length = n := by rw [List.length_append]; omega
      have htake : (ts₁ ++ ts₂).take 4 = ts₁ := by rw [← hlen₁, List.take_left]
      refine ⟨c, ts₁ ++ ts₂, ⟨hc, htotal ▸ hsized, ?_, by omega, ?_⟩, ?_, ?_⟩
      · rw [WireTree.allWF_iff] at *
        exact fun t ht => (List.mem_append.mp ht).elim (hts₁ t) (hts₂ t)
      · simp [WireTree.flatten, htotal]
      · exact List.rel_append hdec₁ hdec₂
      · rw [hashedBytes, htotal, htake]
        exact if_congr Iff.rfl rfl
          (congrArg _ (slice_between (c.toByte :: WireTree.lengthBytes c n) _ _))
  · rintro ⟨c, ts, ⟨hc, hsized, hwf, hlen, rfl⟩, hdec, rfl⟩
    have hle : ts.length ≤ (WireTree.flattenAll ts).length :=
      AreValues.length_le ⟨ts, hwf, rfl, rfl⟩
    have hhead : runDecoder decodeArrayLen ⟨(WireTree.node c ts).flatten, ⟨0, 0⟩⟩ =
        .ok (some ts.length, ⟨WireTree.flattenAll ts, ⟨0, 0⟩⟩) :=
      runDecoder_ok_iff.mpr (decodeArrayLen_ok_iff.mpr ⟨c, hc, hsized, hle, rfl, rfl⟩)
    have hsplit : WireTree.flattenAll ts =
        WireTree.flattenAll (ts.take 4) ++ WireTree.flattenAll (ts.drop 4) := by
      rw [← WireTree.flattenAll_append, List.take_append_drop]
    rw [WireTree.allWF_iff] at hwf
    have hfour : runDecoder (iterate appendElement 4 []) ⟨WireTree.flattenAll ts, ⟨0, 0⟩⟩ =
        .ok (vs.take 4, ⟨WireTree.flattenAll (ts.drop 4), ⟨0, 0⟩⟩) :=
      runDecoder_ok_iff.mpr ((iterate_appendElement_ok_iff rfl).mpr
        ⟨ts.take 4, vs.take 4, WireTree.allWF_iff.mpr fun t ht => hwf t (List.mem_of_mem_take ht),
          by rw [List.length_take]; omega, List.forall₂_take 4 hdec, rfl, hsplit, rfl⟩)
    have hrest : runDecoder (iterate appendElement (ts.length - 4) (vs.take 4))
        ⟨WireTree.flattenAll (ts.drop 4), ⟨0, 0⟩⟩ = .ok (vs, ⟨[], ⟨0, 0⟩⟩) :=
      runDecoder_ok_iff.mpr ((iterate_appendElement_ok_iff rfl).mpr
        ⟨ts.drop 4, vs.drop 4, WireTree.allWF_iff.mpr fun t ht => hwf t (List.mem_of_mem_drop ht),
          List.length_drop, List.forall₂_drop 4 hdec, (List.take_append_drop 4 vs).symm,
          by simp, rfl⟩)
    have hbetween := slice_between (c.toByte :: WireTree.lengthBytes c ts.length)
      (WireTree.flattenAll (ts.take 4)) (WireTree.flattenAll (ts.drop 4))
    rw [← hsplit] at hbetween
    have h4 : ¬ ts.length < 4 := by omega
    have h15 : ¬ ts.length > 15 := by omega
    have h45 : ¬ (ts.length ≠ 4 ∧ ts.length ≠ 5) := by omega
    have hcut : (if ts.length = 4 then (WireTree.node c ts).flatten
        else 0x94 :: ((WireTree.node c ts).flatten.take
          ((WireTree.node c ts).flatten.length - (WireTree.flattenAll (ts.drop 4)).length)).drop
          ((WireTree.node c ts).flatten.length - (WireTree.flattenAll ts).length)) =
        hashedBytes (WireTree.node c ts).flatten ts :=
      if_congr Iff.rfl rfl (congrArg _ hbetween)
    simp only [hhead, bind, Except.bind, h4, h15, h45, if_false, hfour, hrest, hcut,
      List.length_nil, ne_eq, not_true_eq_false]

end Lxmf
