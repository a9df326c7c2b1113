-- SUMMARY: The MF wire format of direct and group messages, and which messages survive it.
import ReticulumMf.Lib.BigEndian
import ReticulumMf.Lib.Except

/-!
# MF messages

An MF packet is the sender's hash and the text. A group message has a flag byte
and the group's hash in between. The flag stands where the text of a direct
message starts, and nothing escapes it: a direct message whose text starts with
that byte is read as a group message, or not at all. For every other message
unpacking undoes packing.
-/

namespace Mf

/-! ## The code -/

def senderHashLength : Nat := 16
def maxMessageSize : Nat := 420
def groupFlagPresent : UInt8 := 1

inductive Error where
  | invalidHashLength (expected got : Nat)
  | messageTooShort (detail : String)
  | messageTooLong (max got : Nat)
  deriving DecidableEq, Repr

/-- A message. Its group hash is empty if it has none; its text may hold any bytes. -/
structure Message where
  senderHash : Bytes
  groupHash : Bytes := []
  text : Bytes
  deriving DecidableEq

def Message.validate (m : Message) : Except Error Unit :=
  if m.senderHash.length ≠ senderHashLength then
    .error (.invalidHashLength senderHashLength m.senderHash.length)
  else if m.groupHash.length > 0 ∧ m.groupHash.length ≠ senderHashLength then
    .error (.invalidHashLength senderHashLength m.groupHash.length)
  else if m.text.length > maxMessageSize then
    .error (.messageTooLong maxMessageSize m.text.length)
  else .ok ()

def newMessageWithGroup (senderHash groupHash text : Bytes) : Except Error Message :=
  let m : Message := { senderHash, groupHash, text }
  m.validate.map fun _ => m

def newMessage (senderHash text : Bytes) : Except Error Message :=
  newMessageWithGroup senderHash [] text

def Message.len (m : Message) : Nat :=
  if m.groupHash.length > 0 then senderHashLength + 1 + senderHashLength + m.text.length
  else senderHashLength + m.text.length

/-- Go's `copy` into the part of the buffer from `off` up to `stop`. -/
def copyInto (buf : Bytes) (off stop : Nat) (src : Bytes) : Bytes :=
  let n := min (stop - off) src.length
  buf.take off ++ src.take n ++ buf.drop (off + n)

/-- The buffer that `Pack` fills. -/
def Message.payload (m : Message) : Bytes :=
  let payload : Bytes := List.replicate m.len 0
  let payload := copyInto payload 0 senderHashLength m.senderHash
  if m.groupHash.length > 0 then
    let payload := payload.set senderHashLength groupFlagPresent
    let payload := copyInto payload (senderHashLength + 1)
      (senderHashLength + 1 + senderHashLength) m.groupHash
    copyInto payload (senderHashLength + 1 + senderHashLength) payload.length m.text
  else copyInto payload senderHashLength payload.length m.text

def Message.pack (m : Message) : Except Error Bytes := m.validate.map fun _ => m.payload

def unpack (data : Bytes) : Except Error Message :=
  if data.length < senderHashLength then
    .error (.messageTooShort "minimum 16 bytes for sender hash")
  else
    let senderHash := data.take senderHashLength
    let rest := data.drop senderHashLength
    if rest.head? = some groupFlagPresent then
      if rest.length < 1 + senderHashLength then
        .error (.messageTooShort "truncated group payload")
      else
        let groupHash := (rest.drop 1).take senderHashLength
        newMessageWithGroup senderHash groupHash (rest.drop (1 + senderHashLength))
    else newMessage senderHash rest

/-! ## Valid messages -/

/-- What `Validate` accepts. -/
structure Message.Valid (m : Message) : Prop where
  sender : m.senderHash.length = senderHashLength
  group : m.groupHash = [] ∨ m.groupHash.length = senderHashLength
  text : m.text.length ≤ maxMessageSize

variable {m m' : Message}

theorem Message.validate_ok_iff : m.validate = .ok () ↔ m.Valid := by
  unfold Message.validate
  constructor
  · intro h
    split at h
    · cases h
    · split at h
      · cases h
      · split at h
        · cases h
        · rename_i hsender hgroup htext
          refine ⟨not_not.mp hsender, ?_, not_lt.mp htext⟩
          by_cases hempty : m.groupHash = []
          · exact .inl hempty
          · apply Or.inr
            by_contra hlength
            exact hgroup ⟨List.length_pos_iff.mpr hempty, hlength⟩
  · intro h
    have hgroup : ¬(m.groupHash.length > 0 ∧ m.groupHash.length ≠ senderHashLength) := by
      cases h.group with
      | inl hempty => simp [hempty]
      | inr hlength => exact fun hbad => hbad.2 hlength
    rw [if_neg (not_not.mpr h.sender), if_neg hgroup, if_neg (not_lt.mpr h.text)]

/-- A constructor returns what it was given, if that is valid. -/
theorem newMessageWithGroup_ok_iff {senderHash groupHash text : Bytes} :
    newMessageWithGroup senderHash groupHash text = .ok m ↔
      m = { senderHash, groupHash, text } ∧ m.Valid := by
  constructor
  · intro h
    obtain ⟨_, hvalidate, rfl⟩ := Except.map_eq_ok_iff.mp h
    exact ⟨rfl, Message.validate_ok_iff.mp hvalidate⟩
  · rintro ⟨rfl, hvalid⟩
    exact Except.map_eq_ok_iff.mpr ⟨(), Message.validate_ok_iff.mpr hvalid, rfl⟩

theorem newMessageWithGroup_valid (h : m.Valid) :
    newMessageWithGroup m.senderHash m.groupHash m.text = .ok m := newMessageWithGroup_ok_iff.mpr ⟨rfl, h⟩

/-! ## The packed form -/

/-- The bytes between the sender's hash and the text. -/
def Message.tag (m : Message) : Bytes :=
  if m.groupHash = [] then [] else groupFlagPresent :: m.groupHash

/-- Copying into a buffer that is filled with `d` so far. -/
theorem copyInto_replicate (d src : Bytes) (off stop : Nat) {k n : Nat} (hoff : off = d.length)
    (hn : n = src.length + k) (hstop : d.length + src.length ≤ stop) :
    copyInto (d ++ List.replicate n 0) off stop src = d ++ src ++ List.replicate k 0 := by
  subst hoff hn
  have hmin : min (stop - d.length) src.length = src.length := by omega
  simp [copyInto, hmin, List.drop_append, List.drop_replicate]

theorem Message.payload_direct (h : m.Valid) (hgroup : m.groupHash = []) :
    m.payload = m.senderHash ++ m.text := by
  have hsender := h.sender
  have hlen : m.len = m.senderHash.length + m.text.length := by
    simp [Message.len, hgroup, hsender]
  have hfirst : copyInto (List.replicate m.len 0) 0 senderHashLength m.senderHash =
      m.senderHash ++ List.replicate m.text.length 0 :=
    copyInto_replicate [] m.senderHash 0 _ rfl hlen (by simp [hsender])
  have hsecond := copyInto_replicate m.senderHash m.text senderHashLength _ (k := 0)
    hsender.symm rfl le_rfl
  simp only [List.replicate_zero, List.append_nil, Nat.add_zero] at hsecond
  simp [Message.payload, hgroup, hfirst, hsecond]

theorem Message.payload_group (h : m.Valid) (hgroup : m.groupHash.length = senderHashLength) :
    m.payload = m.senderHash ++ [groupFlagPresent] ++ m.groupHash ++ m.text := by
  have hsender := h.sender
  have hpos : m.groupHash.length > 0 := by simp [hgroup, senderHashLength]
  have hlen : m.len = m.senderHash.length + (m.groupHash.length + m.text.length + 1) := by
    rw [Message.len, if_pos hpos, hsender, hgroup]
    omega
  have hfirst : copyInto (List.replicate m.len 0) 0 senderHashLength m.senderHash =
      m.senderHash ++ List.replicate (m.groupHash.length + m.text.length + 1) 0 :=
    copyInto_replicate [] m.senderHash 0 _ rfl hlen (by simp [hsender])
  have hflag : (m.senderHash ++ List.replicate (m.groupHash.length + m.text.length + 1) 0).set
      senderHashLength groupFlagPresent =
      m.senderHash ++ [groupFlagPresent] ++
        List.replicate (m.groupHash.length + m.text.length) 0 := by
    simp [← hsender, List.replicate_succ]
  have hsecond := copyInto_replicate (m.senderHash ++ [groupFlagPresent]) m.groupHash
    (senderHashLength + 1) (senderHashLength + 1 + senderHashLength) (k := m.text.length)
    (by simp [hsender]) rfl (by simp [hsender, hgroup])
  have hthird := copyInto_replicate (m.senderHash ++ [groupFlagPresent] ++ m.groupHash) m.text
    (senderHashLength + 1 + senderHashLength)
    (m.senderHash ++ [groupFlagPresent] ++ m.groupHash ++
      List.replicate m.text.length 0).length (k := 0)
    (by simp [hsender, hgroup]; omega) rfl (by simp; omega)
  simp only [List.replicate_zero, List.append_nil, Nat.add_zero] at hthird
  simp only [Message.payload, if_pos hpos, hfirst, hflag, hsecond, hthird]

theorem Message.pack_eq (h : m.Valid) : m.pack = .ok (m.senderHash ++ m.tag ++ m.text) := by
  unfold Message.pack Message.tag
  rw [Message.validate_ok_iff.mpr h]
  cases h.group with
  | inl hempty =>
    rw [if_pos hempty, List.append_nil, ← m.payload_direct h hempty]
    rfl
  | inr hgroup =>
    have hne : m.groupHash ≠ [] := by
      intro hempty
      rw [hempty] at hgroup
      cases hgroup
    rw [if_neg hne]
    change Except.ok m.payload = _
    rw [m.payload_group h hgroup]
    simp

/-! ## Unpacking -/

/-- A group message, or a direct one whose text does not start with the flag. -/
def Message.Unambiguous (m : Message) : Prop :=
  m.groupHash = [] → m.text.head? ≠ some groupFlagPresent

instance : Decidable m.Unambiguous :=
  inferInstanceAs (Decidable (m.groupHash = [] → m.text.head? ≠ some groupFlagPresent))

theorem unpack_append {sender rest : Bytes} (h : sender.length = senderHashLength) :
    unpack (sender ++ rest) =
      if rest.head? = some groupFlagPresent then
        if rest.length < 1 + senderHashLength then
          .error (.messageTooShort "truncated group payload")
        else newMessageWithGroup sender ((rest.drop 1).take senderHashLength)
          (rest.drop (1 + senderHashLength))
      else newMessage sender rest := by
  simp [unpack, ← h]

/-- A direct message that is read has no group exactly if it is unambiguous. -/
theorem unpack_direct_group (h : m.Valid) (hgroup : m.groupHash = []) {r : Message}
    (hr : unpack (m.senderHash ++ m.text) = .ok r) : r.groupHash = [] ↔ m.Unambiguous := by
  rw [unpack_append h.sender] at hr
  split at hr
  · rename_i hflag
    split at hr
    · cases hr
    · rename_i hlong
      apply iff_of_false
      · rw [(newMessageWithGroup_ok_iff.mp hr).1]
        intro hempty
        have hlength := congrArg List.length hempty
        simp only [List.length_take, List.length_drop, List.length_nil, senderHashLength] at *
        omega
      · intro hm
        exact hm hgroup hflag
  · rename_i hflag
    apply iff_of_true
    · rw [(newMessageWithGroup_ok_iff.mp hr).1]
    · intro _
      exact hflag

theorem unpack_pack (h : m.Valid) (hm : m.Unambiguous) :
    unpack (m.senderHash ++ m.tag ++ m.text) = .ok m := by
  rw [List.append_assoc, unpack_append h.sender, Message.tag]
  cases h.group with
  | inl hempty =>
    have hflag := hm hempty
    have hnew := newMessageWithGroup_valid h
    rw [hempty] at hnew
    simp only [hempty, if_true, List.nil_append, if_neg hflag]
    exact hnew
  | inr hgroup =>
    have hne : m.groupHash ≠ [] := by
      intro hempty
      rw [hempty] at hgroup
      cases hgroup
    simp [hne, ← hgroup, Nat.add_comm 1, newMessageWithGroup_valid h]

/-- A valid message comes back from its packed form exactly if it is unambiguous, and
a direct message that is read at all is read as a direct one exactly then. On
unambiguous messages packing is injective. -/
theorem pack_unpack_iff (m : Message) (h : m.validate = .ok ()) :
    ((∃ data, m.pack = .ok data ∧ unpack data = .ok m) ↔ m.Unambiguous) ∧
      (m.groupHash = [] → ∀ data r, m.pack = .ok data → unpack data = .ok r →
        (r.groupHash = [] ↔ m.Unambiguous)) ∧
      (m.Unambiguous → ∀ m' : Message, m'.validate = .ok () → m'.Unambiguous →
        m'.pack = m.pack → m' = m) := by
  have hvalid := Message.validate_ok_iff.mp h
  have hpack := m.pack_eq hvalid
  refine ⟨⟨?_, ?_⟩, ?_, ?_⟩
  · intro hround
    cases hround with
    | intro data hdata =>
      intro hgroup
      rw [hpack, Message.tag, if_pos hgroup, List.append_nil] at hdata
      cases hdata.1
      exact (unpack_direct_group hvalid hgroup hdata.2).mp hgroup hgroup
  · intro hm
    exact ⟨_, hpack, unpack_pack hvalid hm⟩
  · intro hgroup data r hdata hr
    rw [hpack, Message.tag, if_pos hgroup, List.append_nil] at hdata
    cases hdata
    exact unpack_direct_group hvalid hgroup hr
  · intro hm m' h' hm' heq
    have hvalid' := Message.validate_ok_iff.mp h'
    rw [hpack, m'.pack_eq hvalid'] at heq
    have hback := unpack_pack hvalid' hm'
    rw [Except.ok.inj heq, unpack_pack hvalid hm] at hback
    exact (Except.ok.inj hback).symm

def sampleMessage : Message :=
  { senderHash := List.replicate 16 7, groupHash := List.replicate 16 9, text := [1, 104, 105] }

/-- A group message whose text starts with the flag byte comes back. -/
theorem group_message_comes_back :
    ∃ data, sampleMessage.pack = .ok data ∧ unpack data = .ok sampleMessage :=
  (pack_unpack_iff sampleMessage (by decide)).1.mpr (by decide)

/-- A direct message with such a text, long enough to hold a group hash. -/
def flaggedMessage : Message :=
  { senderHash := List.replicate 16 7, text := 1 :: List.replicate 16 9 ++ [104, 105] }

/-- It is valid, and the receiver takes it for a group message with another text. -/
theorem direct_message_read_as_group :
    flaggedMessage.validate = .ok () ∧ ∃ data, flaggedMessage.pack = .ok data ∧
      unpack data = .ok { senderHash := List.replicate 16 7, groupHash := List.replicate 16 9,
                          text := [104, 105] } :=
  ⟨by decide, _, rfl, by decide⟩

/-! ## What unpacking accepts -/

/-- The lengths that a packet may have after the sender's hash. -/
def AcceptedRest (rest : Bytes) : Prop :=
  if rest.head? = some groupFlagPresent then
    1 + senderHashLength ≤ rest.length ∧ rest.length ≤ 1 + senderHashLength + maxMessageSize
  else rest.length ≤ maxMessageSize

theorem unpack_append_ok_iff {sender rest : Bytes} (h : sender.length = senderHashLength) :
    (∃ m, unpack (sender ++ rest) = .ok m) ↔ AcceptedRest rest := by
  rw [unpack_append h, AcceptedRest]
  split
  · split
    · rename_i hshort
      exact iff_of_false nofun fun hrest => absurd hrest.1 (Nat.not_le.mpr hshort)
    · rename_i hlong
      simp only [newMessageWithGroup_ok_iff, exists_eq_left]
      constructor
      · intro hvalid
        have htext := hvalid.text
        rw [List.length_drop] at htext
        omega
      · intro hrest
        refine ⟨h, .inr ?_, ?_⟩
        · rw [List.length_take, List.length_drop]
          omega
        · rw [List.length_drop]
          omega
  · simp only [newMessage, newMessageWithGroup_ok_iff, exists_eq_left]
    exact ⟨fun hvalid => hvalid.text, fun hrest => ⟨h, .inl rfl, hrest⟩⟩

/-- What is read was packed from what it is read as. -/
theorem unpack_append_ok {sender rest : Bytes} (h : sender.length = senderHashLength)
    (hm : unpack (sender ++ rest) = .ok m) : m.pack = .ok (sender ++ rest) := by
  rw [unpack_append h] at hm
  split at hm
  · rename_i hflag
    split at hm
    · cases hm
    · rename_i hlong
      obtain ⟨rfl, hvalid⟩ := newMessageWithGroup_ok_iff.mp hm
      obtain ⟨rest, rfl⟩ := List.head?_eq_some_iff.mp hflag
      rw [List.length_cons] at hlong
      have hgroup : rest.take senderHashLength ≠ [] := by
        rw [Ne, List.take_eq_nil_iff, not_or]
        exact ⟨by decide, List.ne_nil_of_length_pos (by simp only [senderHashLength] at hlong; omega)⟩
      rw [Message.pack_eq hvalid, Message.tag, Nat.add_comm 1]
      simp [hgroup]
  · obtain ⟨rfl, hvalid⟩ := newMessageWithGroup_ok_iff.mp hm
    rw [Message.pack_eq hvalid, Message.tag, if_pos rfl, List.append_nil]

/-- `Unpack` accepts a hash and at most 420 bytes of text, with a second hash between
them exactly if the flag byte follows the first, and packing gives back what it accepted. -/
theorem unpack_accepts_iff (data : Bytes) :
    ((∃ m, unpack data = .ok m) ↔
      16 ≤ data.length ∧
        (data[16]? ≠ some 0x01 ∧ (data.drop 16).length ≤ 420 ∨
          data[16]? = some 0x01 ∧ 16 ≤ (data.drop 17).length ∧ (data.drop 33).length ≤ 420)) ∧
      ∀ m, unpack data = .ok m → m.pack = .ok data := by
  by_cases hlen : data.length < senderHashLength
  · have herror : unpack data = .error (.messageTooShort "minimum 16 bytes for sender hash") := by
      rw [unpack, if_pos hlen]
    rw [herror]
    exact ⟨iff_of_false nofun fun h => absurd h.1 (Nat.not_le.mpr hlen), nofun⟩
  · have hsender : (data.take 16).length = senderHashLength := by
      rw [List.length_take]
      exact Nat.min_eq_left (Nat.not_lt.mp hlen)
    have hflag : data[16]? = (data.drop 16).head? := by
      rw [List.head?_drop]
    have haccepts : (∃ m, unpack data = .ok m) ↔ AcceptedRest (data.drop 16) := by
      rw [← unpack_append_ok_iff hsender, List.take_append_drop]
    have hpack : ∀ m, unpack data = .ok m → m.pack = .ok data := by
      rw [← List.take_append_drop 16 data]
      exact fun m => unpack_append_ok hsender
    refine ⟨haccepts.trans ?_, hpack⟩
    rw [AcceptedRest, hflag]
    simp only [List.length_drop, senderHashLength, maxMessageSize, groupFlagPresent] at hlen ⊢
    split
    · rename_i h
      simp only [h, ne_eq, not_true_eq_false, false_and, false_or, true_and]
      omega
    · rename_i h
      simp only [h, ne_eq, not_false_eq_true, true_and, false_and, or_false]
      omega

end Mf
