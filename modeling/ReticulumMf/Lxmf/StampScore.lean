-- SUMMARY: The validity of a stamp against its score.
import ReticulumMf.Lxmf.MessageId
import ReticulumMf.Lxmf.Stamp

/-!
# Validity and score of a stamp

`StampValid` compares the digest with a target byte by byte; `StampValue` counts the zero
bits in front. Both are read here as statements about the number that the digest denotes:
`bytesLE_iff` and `decode_stampTargetBytes` for the first, `le_leadingZeroBits_iff` for the
second.
-/

namespace Lxmf

open BigEndian

variable {Identity : Type}

/-! ## The target -/

/-- Byte strings of one length are ordered as the numbers they denote. -/
theorem bytesLE_iff {as bs : Bytes} (hlen : as.length = bs.length) :
    bytesLE as bs = true ↔ decode as ≤ decode bs := by
  induction as generalizing bs with
  | nil =>
    obtain rfl : bs = [] := List.length_eq_zero_iff.mp hlen.symm
    simp [bytesLE]
  | cons a as ih =>
    cases bs with
    | nil => cases hlen
    | cons b bs =>
      have hlen : as.length = bs.length := Nat.succ.inj hlen
      have has := decode_lt as
      have hbs := decode_lt bs
      rw [hlen] at has
      simp only [bytesLE, Bool.or_eq_true, decide_eq_true_eq, Bool.and_eq_true, ih hlen, decode_cons, hlen,
        UInt8.lt_iff_toNat_lt, ← UInt8.toNat_inj]
      -- the first bytes decide unless they are equal
      rcases Nat.lt_trichotomy a.toNat b.toNat with hlt | heq | hgt
      · have hmul : (a.toNat + 1) * 256 ^ bs.length ≤ b.toNat * 256 ^ bs.length := Nat.mul_le_mul_right _ hlt
        rw [Nat.add_mul] at hmul
        exact iff_of_true (.inl hlt) (by omega)
      · rw [heq]
        simp
      · have hmul : (b.toNat + 1) * 256 ^ bs.length ≤ a.toNat * 256 ^ bs.length := Nat.mul_le_mul_right _ hgt
        rw [Nat.add_mul] at hmul
        exact iff_of_false (by omega) (by omega)

theorem stampTargetBytes_length (cost : Int) : (stampTargetBytes cost).length = 32 := by
  unfold stampTargetBytes
  dsimp only
  split_ifs <;> simp

/-- The target of a cost is a single bit. -/
theorem decode_stampTargetBytes {c : Nat} (hpos : 1 ≤ c) (hmax : c ≤ 255) :
    decode (stampTargetBytes c) = 2 ^ (256 - c) := by
  have hindex : (31 - (256 - (c : Int)) / 8).toNat = 31 - (256 - c) / 8 := by omega
  have hbit : ((256 - (c : Int)) % 8).toNat = (256 - c) % 8 := by omega
  unfold stampTargetBytes
  dsimp only
  rw [if_neg (by omega), if_neg (by omega), hindex, hbit, decode_set_zero (by omega)]
  have hbyte : (UInt8.ofNat (1 <<< ((256 - c) % 8))).toNat = 2 ^ ((256 - c) % 8) := by
    have hlt : 2 ^ ((256 - c) % 8) < 2 ^ 8 := Nat.pow_lt_pow_right (by decide) (Nat.mod_lt _ (by decide))
    rw [UInt8.toNat_ofNat', Nat.one_shiftLeft, Nat.mod_eq_of_lt hlt]
  have hexp : (256 - c) % 8 + 8 * (32 - 1 - (31 - (256 - c) / 8)) = 256 - c := by omega
  rw [hbyte, show 256 = 2 ^ 8 from rfl, ← Nat.pow_mul, ← Nat.pow_add]
  exact congrArg (2 ^ ·) hexp

theorem decode_stampTargetBytes_max : decode (stampTargetBytes 256) = 0 := by
  decide +kernel

/-! ## The score -/

theorem le_leadingZeros_iff {b : UInt8} {n c : Nat} (hb : b.toNat < 2 ^ n) (hc : c ≤ n) :
    c ≤ leadingZeros b n ↔ b.toNat < 2 ^ (n - c) := by
  induction n generalizing c with
  | zero =>
    obtain rfl : c = 0 := Nat.le_zero.mp hc
    simpa [leadingZeros] using hb
  | succ n ih =>
    cases c with
    | zero => simpa using hb
    | succ c =>
      rw [leadingZeros, Nat.add_sub_add_right]
      split
      · rename_i hset
        have hge : 2 ^ n ≤ b.toNat := Nat.ge_two_pow_of_testBit hset
        have hle : 2 ^ (n - c) ≤ 2 ^ n := Nat.pow_le_pow_right (by decide) (Nat.sub_le n c)
        exact iff_of_false (Nat.not_succ_le_zero c) (by omega)
      · rename_i hclear
        have hlt : b.toNat < 2 ^ n := by
          rw [Nat.testBit_eq_decide_div_mod_eq] at hclear
          rw [Nat.pow_succ] at hb
          by_contra hge
          have hdiv : b.toNat / 2 ^ n = 1 :=
            Nat.div_eq_of_lt_le (by omega) (by omega)
          simp [hdiv] at hclear
        rw [Nat.succ_le_succ_iff, ih hlt (Nat.le_of_succ_le_succ hc)]

theorem leadingZeros_le (b : UInt8) (n : Nat) : leadingZeros b n ≤ n := by
  induction n with
  | zero => exact Nat.le_refl 0
  | succ n ih =>
    rw [leadingZeros]
    split <;> omega

theorem leadingZeroBits_le (bs : Bytes) : leadingZeroBits bs ≤ 8 * bs.length := by
  induction bs with
  | nil => exact Nat.le_refl 0
  | cons b bs ih =>
    have hb := leadingZeros_le b 8
    rw [leadingZeroBits, List.length_cons]
    split <;> omega

/-- There are `c` zero bits in front if the number fits in the bits that are left. -/
theorem le_leadingZeroBits_iff {bs : Bytes} {c : Nat} (hc : c ≤ 8 * bs.length) :
    c ≤ leadingZeroBits bs ↔ decode bs < 2 ^ (8 * bs.length - c) := by
  induction bs generalizing c with
  | nil =>
    obtain rfl : c = 0 := Nat.le_zero.mp hc
    simp [leadingZeroBits]
  | cons b bs ih =>
    have hbs : decode bs < 2 ^ (8 * bs.length) := by
      rw [Nat.pow_mul]
      exact decode_lt bs
    rw [List.length_cons] at hc ⊢
    rw [decode_cons, show 256 = 2 ^ 8 from rfl, ← Nat.pow_mul, leadingZeroBits]
    split
    · rename_i hzero
      rw [hzero, UInt8.toNat_zero, Nat.zero_mul, Nat.zero_add]
      by_cases hsmall : c ≤ 8
      · refine iff_of_true (by omega) (hbs.trans_le (Nat.pow_le_pow_right (by decide) (by omega)))
      · have hexp : 8 * (bs.length + 1) - c = 8 * bs.length - (c - 8) := by omega
        rw [hexp, ← ih (by omega)]
        omega
    · rename_i hne
      have hpos : 0 < b.toNat := Nat.pos_of_ne_zero fun h => hne (UInt8.toNat_inj.mp h)
      have hone : 2 ^ (8 * bs.length) ≤ b.toNat * 2 ^ (8 * bs.length) := Nat.le_mul_of_pos_left _ hpos
      by_cases hsmall : c ≤ 8
      · -- the first byte alone decides
        have hexp : 8 * (bs.length + 1) - c = 8 - c + 8 * bs.length := by omega
        rw [le_leadingZeros_iff b.toNat_lt hsmall, hexp, Nat.pow_add,
          ← Nat.div_lt_iff_lt_mul (Nat.two_pow_pos _), Nat.add_comm (b.toNat * _),
          Nat.add_mul_div_right _ _ (Nat.two_pow_pos _), Nat.div_eq_of_lt hbs, Nat.zero_add]
      · have hle := leadingZeros_le b 8
        have hpow : 2 ^ (8 * (bs.length + 1) - c) ≤ 2 ^ (8 * bs.length) :=
          Nat.pow_le_pow_right (by decide) (by omega)
        exact iff_of_false (by omega) (by omega)

theorem le_clz_iff {w : Nat} {x : BitVec w} {c : Nat} (hc : c ≤ w) :
    c ≤ x.clz.toNat ↔ x.toNat < 2 ^ (w - c) := by
  constructor
  · intro hle
    exact BitVec.toNat_lt_two_pow_sub_clz.trans_le (Nat.pow_le_pow_right (by decide) (by omega))
  · intro hlt
    by_contra hgt
    have hne : x ≠ 0#w := by
      rintro rfl
      rw [BitVec.clz_eq_iff_eq_zero.mpr rfl, BitVec.natCast_eq_ofNat, BitVec.toNat_ofNat,
        Nat.mod_eq_of_lt Nat.lt_two_pow_self] at hgt
      exact hgt hc
    have hge := BitVec.two_pow_sub_clz_le_toNat_of_ne_zero (by omega) hne
    have hpow : 2 ^ (w - c) ≤ 2 ^ (w - 1 - x.clz.toNat) := Nat.pow_le_pow_right (by decide) (by omega)
    omega

theorem leadingZeroBits_eq_clz {bs : Bytes} {w : Nat} (hw : 8 * bs.length = w) :
    leadingZeroBits bs = (BitVec.ofNat w (decode bs)).clz.toNat := by
  subst hw
  have hlt : decode bs < 2 ^ (8 * bs.length) := by
    rw [Nat.pow_mul]
    exact decode_lt bs
  have hiff {c : Nat} (hc : c ≤ 8 * bs.length) :
      c ≤ leadingZeroBits bs ↔ c ≤ (BitVec.ofNat (8 * bs.length) (decode bs)).clz.toNat := by
    rw [le_leadingZeroBits_iff hc, le_clz_iff hc, BitVec.toNat_ofNat, Nat.mod_eq_of_lt hlt]
  have hclz : (BitVec.ofNat (8 * bs.length) (decode bs)).clz.toNat ≤ 8 * bs.length := by
    have hle := BitVec.clz_le (x := BitVec.ofNat (8 * bs.length) (decode bs))
    rw [BitVec.le_def, BitVec.natCast_eq_ofNat, BitVec.toNat_ofNat, Nat.mod_eq_of_lt Nat.lt_two_pow_self] at hle
    exact hle
  exact Nat.le_antisymm ((hiff (leadingZeroBits_le bs)).mp (Nat.le_refl _)) ((hiff hclz).mpr (Nat.le_refl _))

/-! ## Validity and score -/

/-- The digest of a work block and a stamp, as a number. -/
def stampDigest (cr : Crypto Identity) (workblock stamp : Bytes) : Nat :=
  decode (cr.sha256 (workblock ++ stamp))

/-- Validity at each cost in terms of the digest and of the score, and the score itself. -/
structure ScoreMatches (cr : Crypto Identity) (workblock stamp : Bytes) : Prop where
  target : ∀ c : Nat, 1 ≤ c → c ≤ 255 →
    (stampValid cr stamp c workblock = true ↔ stampDigest cr workblock stamp ≤ 2 ^ (256 - c))
  score : ∀ c : Nat, 1 ≤ c → c ≤ 255 →
    (stampValid cr stamp c workblock = true ↔
      c ≤ stampValue cr workblock stamp ∨ stampDigest cr workblock stamp = 2 ^ (256 - c))
  zero : stampValid cr stamp 256 workblock = true ↔ stampDigest cr workblock stamp = 0
  excessive : ∀ c : Int, 256 < c → stampValid cr stamp c workblock = false
  value : stampValue cr workblock stamp = (BitVec.ofNat 256 (stampDigest cr workblock stamp)).clz.toNat
  value_zero : stampDigest cr workblock stamp = 0 → stampValue cr workblock stamp = 256
  smaller : ∀ c c' : Int, c' ≤ c → stampValid cr stamp c workblock = true →
    stampValid cr stamp c' workblock = true

section

variable {cr : Crypto Identity} {workblock stamp : Bytes}

theorem meetsTarget_iff (cost : Int) :
    meetsTarget cr cost workblock stamp = true ↔
      stampDigest cr workblock stamp ≤ decode (stampTargetBytes cost) :=
  bytesLE_iff (by rw [cr.sha256_length, stampTargetBytes_length])

theorem stampValid_iff (hlen : stamp.length = stampSize) {c : Nat} (hpos : 1 ≤ c) (hmax : c ≤ 255) :
    stampValid cr stamp c workblock = true ↔ stampDigest cr workblock stamp ≤ 2 ^ (256 - c) := by
  rw [stampValid_eq workblock hlen (by omega) (by omega), meetsTarget_iff, decode_stampTargetBytes hpos hmax]

theorem stampValid_max_iff (hlen : stamp.length = stampSize) :
    stampValid cr stamp 256 workblock = true ↔ stampDigest cr workblock stamp = 0 := by
  rw [stampValid_eq workblock hlen (by decide) (by decide), meetsTarget_iff, decode_stampTargetBytes_max,
    Nat.le_zero]

theorem stampValid_excessive (hlen : stamp.length = stampSize) {c : Int} (hc : 256 < c) :
    stampValid cr stamp c workblock = false := by
  rw [stampValid, if_neg (by omega), if_neg (by simp [hlen]), if_pos hc]

theorem stampValue_eq (hlen : stamp.length = stampSize) :
    stampValue cr workblock stamp = leadingZeroBits (cr.sha256 (workblock ++ stamp)) := by
  refine if_neg fun hnil => ?_
  rw [hnil] at hlen
  cases hlen

theorem le_stampValue_iff (hlen : stamp.length = stampSize) {c : Nat} (hc : c ≤ 256) :
    c ≤ stampValue cr workblock stamp ↔ stampDigest cr workblock stamp < 2 ^ (256 - c) := by
  have hdigest := cr.sha256_length (workblock ++ stamp)
  have hbits : c ≤ 8 * (cr.sha256 (workblock ++ stamp)).length := by omega
  have hiff := le_leadingZeroBits_iff hbits
  rw [hdigest] at hiff
  rw [stampValue_eq hlen, Int.ofNat_le]
  exact hiff

/-- A stamp that is valid at a cost is valid at every smaller one. -/
theorem stampValid_mono (hlen : stamp.length = stampSize) {c c' : Int} (hle : c' ≤ c)
    (h : stampValid cr stamp c workblock = true) : stampValid cr stamp c' workblock = true := by
  by_cases hpos : c' ≤ 0
  · exact if_pos hpos
  by_cases hbig : 256 < c
  · rw [stampValid_excessive hlen hbig] at h
    cases h
  obtain ⟨n, rfl⟩ := Int.eq_ofNat_of_zero_le (by omega : 0 ≤ c)
  obtain ⟨n', rfl⟩ := Int.eq_ofNat_of_zero_le (by omega : 0 ≤ c')
  by_cases heq : n' = n
  · rw [heq]
    exact h
  have hn' : n' ≤ 255 := by omega
  rw [stampValid_iff hlen (by omega) hn']
  by_cases hmax : n = 256
  · rw [hmax] at h
    rw [(stampValid_max_iff hlen).mp h]
    exact Nat.zero_le _
  · have hdigest := (stampValid_iff hlen (by omega) (by omega)).mp h
    exact hdigest.trans (Nat.pow_le_pow_right (by decide) (by omega))

theorem stamp_score_matches (cr : Crypto Identity) (workblock : Bytes) {stamp : Bytes}
    (hlen : stamp.length = stampSize) : ScoreMatches cr workblock stamp where
  target _ hpos hmax := stampValid_iff hlen hpos hmax
  score c hpos hmax := by
    rw [stampValid_iff hlen hpos hmax, le_stampValue_iff hlen (by omega), Nat.le_iff_lt_or_eq]
  zero := stampValid_max_iff hlen
  excessive _ hc := stampValid_excessive hlen hc
  value := by
    rw [stampValue_eq hlen, leadingZeroBits_eq_clz (w := 256) (by rw [cr.sha256_length])]
    rfl
  value_zero hzero := by
    have hge : (256 : Nat) ≤ stampValue cr workblock stamp :=
      (le_stampValue_iff hlen (Nat.le_refl 256)).mpr (by rw [hzero]; decide)
    have hle := leadingZeroBits_le (cr.sha256 (workblock ++ stamp))
    rw [cr.sha256_length] at hle
    rw [stampValue_eq hlen] at hge ⊢
    omega
  smaller _ _ hle := stampValid_mono hlen hle

end

/-- A stamp of zeros. -/
theorem zero_stamp_score :
    (List.replicate 32 0 : Bytes).length = stampSize ∧
      ScoreMatches plainCrypto [] (List.replicate 32 0) :=
  ⟨rfl, stamp_score_matches plainCrypto [] rfl⟩

end Lxmf
