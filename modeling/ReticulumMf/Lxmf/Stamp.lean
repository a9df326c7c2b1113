-- SUMMARY: Proof-of-work stamps: work block, target, search and validation.
import ReticulumMf.Lib.Except
import ReticulumMf.Lxmf.Message

/-!
# Stamps

A stamp is 32 bytes whose hash, taken together with a work block derived from
the message hash, lies at or below a target. `generateStamp` returns the first
candidate drawn that does; `LXMessage.validateStamp` checks the one a message
carries.
-/

namespace Lxmf

open Msgpack

variable {Identity : Type}

/-! ## Key derivation -/

def hmacBlockSize : Nat := 64

/-- HMAC-SHA256. -/
def hmac (cr : Crypto Identity) (key message : Bytes) : Bytes :=
  let key := if key.length > hmacBlockSize then cr.sha256 key else key
  let key := key ++ List.replicate (hmacBlockSize - key.length) 0
  cr.sha256 (key.map (· ^^^ 0x5c) ++ cr.sha256 (key.map (· ^^^ 0x36) ++ message))

inductive StampError where
  | hkdfLength
  | hkdfEmptyInput
  | hkdfOutputTooLong
  | expandRounds
  | materialRequired
  | stampCost
  | notFound
  | noHash
  deriving DecidableEq, Repr

/-- The expansion loop of `DeriveKey`: `n` more blocks after `block`, the first
of them numbered `i + 1`. -/
def expandBlocks (cr : Crypto Identity) (prk info : Bytes) : Nat → Nat → Bytes → Bytes
  | 0, _, _ => []
  | n + 1, i, block =>
    let block := hmac cr prk (block ++ info ++ [UInt8.ofNat (i + 1)])
    block ++ expandBlocks cr prk info n (i + 1) block

def deriveKey (cr : Crypto Identity) (secret salt info : Bytes) (length : Int) :
    Except StampError Bytes :=
  if length < 1 then .error .hkdfLength
  else if secret = [] then .error .hkdfEmptyInput
  else
    let salt := if salt = [] then List.replicate 32 0 else salt
    let prk := hmac cr salt secret
    let iterations := (length.toNat + 31) / 32
    if iterations > 255 then .error .hkdfOutputTooLong
    else .ok ((expandBlocks cr prk info iterations 0 []).take length.toNat)

/-! ## Work block and target -/

def workblockExpandRounds : Int := 3000
def stampSize : Nat := 32
def stampValueTicket : Int := 0x100
def ticketLength : Nat := 16

/-- Block `n` of the work block. -/
def workblockBlock (cr : Crypto Identity) (material : Bytes) (n : Nat) : Except StampError Bytes :=
  let nBytes := encodeScalar false (.int .int (BitVec.ofNat 64 n))
  deriveKey cr material (cr.sha256 (material ++ nBytes)) [] 256

def stampWorkblock (cr : Crypto Identity) (material : Bytes) (expandRounds : Int) :
    Except StampError Bytes :=
  if expandRounds ≤ 0 then .error .expandRounds
  else if material = [] then .error .materialRequired
  else List.flatten <$> (List.range expandRounds.toNat).mapM (workblockBlock cr material)

/-- `bytes.Compare(a, b) <= 0`. -/
def bytesLE : Bytes → Bytes → Bool
  | [], _ => true
  | _ :: _, [] => false
  | a :: as, b :: bs => a < b || (a = b && bytesLE as bs)

def stampTargetBytes (cost : Int) : Bytes :=
  let target := List.replicate 32 0
  if cost ≥ 256 then target
  else
    let pos := 256 - cost
    let byteIdx := 31 - pos / 8
    let bitIdx := pos % 8
    if byteIdx < 0 then target
    else target.set byteIdx.toNat (UInt8.ofNat (1 <<< bitIdx.toNat))

/-- The test both the search and the validation make. -/
def meetsTarget (cr : Crypto Identity) (cost : Int) (workblock stamp : Bytes) : Bool :=
  bytesLE (cr.sha256 (workblock ++ stamp)) (stampTargetBytes cost)

/-! ## Value and validity -/

/-- The zero bits in front of the highest set bit among the `n` lowest of `b`. -/
def leadingZeros (b : UInt8) : Nat → Nat
  | 0 => 0
  | n + 1 => if b.toNat.testBit n then 0 else leadingZeros b n + 1

def leadingZeroBits : Bytes → Nat
  | [] => 0
  | b :: bs => if b = 0 then 8 + leadingZeroBits bs else leadingZeros b 8

def stampValue (cr : Crypto Identity) (workblock stamp : Bytes) : Int :=
  if stamp = [] then 0 else leadingZeroBits (cr.sha256 (workblock ++ stamp))

def stampValid (cr : Crypto Identity) (stamp : Bytes) (targetCost : Int) (workblock : Bytes) :
    Bool :=
  if targetCost ≤ 0 then true
  else if stamp.length ≠ stampSize then false
  else if targetCost > 256 then false
  else meetsTarget cr targetCost workblock stamp

/-- A buffer the search workers fill with random bytes. -/
abbrev Candidate := { b : Bytes // b.length = stampSize }

theorem length_zeros : (List.replicate 32 (0 : UInt8)).length = stampSize := rfl

/-- `GenerateStamp`, for the candidates drawn by all workers, in the order in
which they are tested and up to the end of the context. -/
def generateStamp (cr : Crypto Identity) (messageID : Bytes) (stampCost expandRounds : Int)
    (candidates : List Candidate) : Except StampError (Bytes × Int) :=
  if stampCost ≤ 0 then .error .stampCost
  else do
    let rounds := if expandRounds ≤ 0 then workblockExpandRounds else expandRounds
    let wb ← stampWorkblock cr messageID rounds
    match candidates.find? fun c => meetsTarget cr stampCost wb c.val with
    | none => .error .notFound
    | some c => .ok (c.val, stampValue cr wb c.val)

def truncatedHash (cr : Crypto Identity) (ticket messageID : Bytes) : Bytes :=
  (cr.sha256 (ticket ++ messageID)).take destinationLength

/-- `ValidateStamp`: the message afterwards and the result. -/
def LXMessage.validateStamp (cr : Crypto Identity) (targetCost : Int) (tickets : List Bytes)
    (m : LXMessage) : LXMessage × Except StampError Bool :=
  if m.hash = [] then (m, .error .noHash)
  else if m.stamp ≠ [] ∧ tickets.any fun ticket =>
      ticket.length = ticketLength && truncatedHash cr ticket m.hash = m.stamp then
    ({ m with stampValue := stampValueTicket, stampValid := true }, .ok true)
  else if m.stamp = [] then ({ m with stampValid := false }, .ok false)
  else
    match stampWorkblock cr m.hash workblockExpandRounds with
    | .error e => (m, .error e)
    | .ok wb =>
      if !Lxmf.stampValid cr m.stamp targetCost wb then ({ m with stampValid := false }, .ok false)
      else ({ m with stampValue := Lxmf.stampValue cr wb m.stamp, stampValid := true }, .ok true)

/-! ## Work blocks exist -/

theorem workblockBlock_ok (cr : Crypto Identity) {material : Bytes} (h : material ≠ []) (n : Nat) :
    ∃ block, workblockBlock cr material n = .ok block := by
  simp [workblockBlock, deriveKey, h]

/-- Deriving the work block of a hash does not fail. -/
theorem stampWorkblock_ok (cr : Crypto Identity) {material : Bytes} (rounds : Int)
    (hrounds : 0 < rounds) (h : material ≠ []) :
    ∃ wb, stampWorkblock cr material rounds = .ok wb := by
  obtain ⟨blocks, hblocks⟩ :=
    Except.mapM_ok (workblockBlock cr material) (List.range rounds.toNat)
      fun n _ => workblockBlock_ok cr h n
  refine ⟨blocks.flatten, ?_⟩
  rw [stampWorkblock, if_neg (by omega), if_neg h, hblocks]
  rfl

/-- A work block starts with its block 0. -/
theorem stampWorkblock_head {cr : Crypto Identity} {material wb : Bytes} {rounds : Int}
    (h : stampWorkblock cr material rounds = .ok wb) :
    ∃ block rest, workblockBlock cr material 0 = .ok block ∧ wb = block ++ rest := by
  unfold stampWorkblock at h
  split at h
  · cases h
  split at h
  · cases h
  rename_i hrounds _
  obtain ⟨n, hn⟩ : ∃ n, rounds.toNat = n + 1 := ⟨rounds.toNat - 1, by omega⟩
  obtain ⟨blocks, hblocks, rfl⟩ := Except.map_eq_ok_iff.mp h
  rw [hn, List.range_succ_eq_map, List.mapM_cons] at hblocks
  obtain ⟨block, hblock, hblocks⟩ := Except.bind_eq_ok_iff.mp hblocks
  obtain ⟨rest, -, hrest⟩ := Except.bind_eq_ok_iff.mp hblocks
  obtain rfl := Except.pure_eq_ok_iff.mp hrest
  exact ⟨block, rest.flatten, hblock, List.flatten_cons⟩

/-! ## Generation and validation -/

/-- A stamp that was found meets the target on the work block of the hash. -/
theorem generateStamp_ok {cr : Crypto Identity} {messageID stamp : Bytes}
    {cost rounds value : Int} {candidates : List Candidate} (hrounds : 0 < rounds)
    (h : generateStamp cr messageID cost rounds candidates = .ok (stamp, value)) :
    stamp.length = stampSize ∧
      ∃ wb, stampWorkblock cr messageID rounds = .ok wb ∧
        meetsTarget cr cost wb stamp = true := by
  unfold generateStamp at h
  rw [if_neg (Int.not_le.mpr hrounds)] at h
  split at h
  · cases h
  · obtain ⟨wb, hwb, h⟩ := Except.bind_eq_ok_iff.mp h
    split at h
    · cases h
    · rename_i c hfind
      cases h
      exact ⟨c.property, wb, hwb, (List.find?_eq_some_iff_append.mp hfind).1⟩

theorem stampValid_eq {cr : Crypto Identity} {stamp : Bytes} {cost : Int} (wb : Bytes)
    (hlen : stamp.length = stampSize) (hpos : 1 ≤ cost) (hmax : cost ≤ 256) :
    stampValid cr stamp cost wb = meetsTarget cr cost wb stamp := by
  rw [stampValid, if_neg (by omega), if_neg (by simp [hlen]), if_neg (by omega)]

/-- Validation without tickets repeats the test of the search. -/
theorem LXMessage.validateStamp_iff {cr : Crypto Identity} {m : LXMessage} {cost : Int}
    (hhash : m.hash ≠ []) (hstamp : m.stamp.length = stampSize) (hpos : 1 ≤ cost)
    (hmax : cost ≤ 256) :
    (m.validateStamp cr cost []).2 = .ok true ↔
      ∃ wb, stampWorkblock cr m.hash workblockExpandRounds = .ok wb ∧
        meetsTarget cr cost wb m.stamp = true := by
  obtain ⟨wb, hwb⟩ := stampWorkblock_ok cr workblockExpandRounds (by decide) hhash
  have hne : m.stamp ≠ [] := by
    rintro h
    simp [h, stampSize] at hstamp
  have hvalid : Lxmf.stampValid cr m.stamp cost wb = meetsTarget cr cost wb m.stamp :=
    stampValid_eq wb hstamp hpos hmax
  cases htest : meetsTarget cr cost wb m.stamp <;>
    simp [validateStamp, hhash, hne, hwb, hvalid, htest]

end Lxmf
