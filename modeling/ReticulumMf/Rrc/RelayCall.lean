-- SUMMARY: What a whole call of `onRoomContent` puts on the wire, however it is interleaved.
import ReticulumMf.Lib.Calls
import ReticulumMf.Rrc.HubSize
import ReticulumMf.Rrc.Nickname

/-!
# Calls of onRoomContent

The hub sends outside its lock, so other goroutines run between the steps of a call:
what a call does is told by the list of its steps, each with the state it found. A
call is completed exactly if `p.sess` is assigned when it begins; without a session
it gets stuck where it first uses it. A completed call puts on the wire what it
should exactly if the link of each recipient takes the packet, and if sanitising
once more has not changed the nickname that was accepted last
(`relay_correct_iff`).
-/

namespace Rrc

open Threads Transition

variable {text : GoText} {cfg : HubConfig} {t : Nat} {x : HubChoice} {s s' : HubState}
  {a b : HubAct} {r : Effect HubState HubAct} {i j : Nat} {env fwd : Envelope} {room : Bytes}
  {c c' : HubConf} {rest as todo : List HubAct} {cbor : CborCodec}

abbrev HubTaken := Taken HubState HubAct HubChoice

/-! ## The wire -/

/-- What the step hands to a session to be sent. -/
def handed (cfg : HubConfig) (e : HubTaken) : Option (Nat × Envelope) :=
  match e.action with
  | .forward j env => some (j, env)
  | .reply j m => (m.envelope cfg e.choice.fresh).map (j, ·)
  | _ => none

/-- What the step puts on the wire. -/
def putOnWire (e : HubTaken) : List (Nat × Envelope) :=
  e.effect.shared.sent.drop e.before.sent.length

/-- `sendEnvelope` succeeds: there is a session, it is not closed, its link is active,
and `SendPacket` takes the packet, which is not too long. -/
structure LinkTakes (cbor : CborCodec) (p : HubPeer) (x : HubChoice) (env : Envelope) : Prop where
  assigned : p.sess = true
  notClosed : p.closed = false
  active : p.status = .active
  fits : env.Fits cbor
  transmitted : x.transmitted = true

/-- What the step hands to a session is taken by its link. -/
def Carried (cbor : CborCodec) (cfg : HubConfig) (e : HubTaken) : Prop :=
  ∀ j env, handed cfg e = some (j, env) → LinkTakes cbor (e.before.peer j) e.choice env

/-- `SendPacket` fails on a packet that is too long. -/
def SizeChecked (cbor : CborCodec) (cfg : HubConfig) (e : HubTaken) : Prop :=
  ∀ j env, handed cfg e = some (j, env) → e.choice.transmitted = true → env.Fits cbor

/-- The steps of a complete call of `onRoomContent`. The first is the rate check, the
second the critical section, if there is one; `nick` is the last nickname accepted
before it. -/
structure RelayRight (text : GoText) (cfg : HubConfig) (i : Nat) (sender : Bytes)
    (nick : Option Bytes) (env : Envelope) (call : List HubTaken) : Prop where
  unchanged : ∀ e ∈ call, e.before.SameMembership e.effect.shared
  sends : ∃ e₀ e₁ later, call = e₀ :: e₁ :: later ∧
    (Admits text cfg i env e₀.before e₀.choice.now e₁.before →
      ∃ (targets : List Nat) (fwd : Envelope),
        call.flatMap putOnWire = targets.map (·, fwd) ∧ targets.Nodup ∧
        (∀ j, j ∈ targets ↔ e₁.before.Receives i (normalizeRoom text env.room) j) ∧
        Stamped sender (nick.getD []) (normalizeRoom text env.room) env fwd) ∧
    (¬Admits text cfg i env e₀.before e₀.choice.now e₁.before →
      ∃ err, err.type = typeError ∧ call.flatMap putOnWire = [(i, err)])

/-- If the call forwards to anybody, the nickname accepted last is one that sanitising
once more does not change. -/
def NickKept (text : GoText) (cfg : HubConfig) (i : Nat) (nick : Option Bytes) (env : Envelope)
    (call : List HubTaken) : Prop :=
  ∀ e₀ e₁ later j, call = e₀ :: e₁ :: later →
    Admits text cfg i env e₀.before e₀.choice.now e₁.before →
    e₁.before.Receives i (normalizeRoom text env.room) j → ∀ n ∈ nick, sanitizeNick text n = n

/-! ## The steps of a call -/

/-- The actions of a call of `onRoomContent`. -/
def HubAct.Relays (i : Nat) (env : Envelope) (a : HubAct) : Prop :=
  a = .onRoomContent i env ∨ (∃ room, a = .relay i env room) ∨ a.Final i

theorem HubAct.Relays.push (ha : a.Relays i env) (h : hubAct text cfg x s a = some r) :
    ∀ b ∈ r.push, (∃ room, a = .onRoomContent i env ∧ b = .relay i env room) ∨ b.Final i := by
  intro b hb
  obtain rfl | ⟨room, rfl⟩ | ha := ha
  · cases hubAct_leads h hb with
    | contentError => exact .inr rfl
    | relay => exact .inl ⟨_, rfl, rfl⟩
  · exact .inr (relay_final h b hb)
  · rw [ha.push h] at hb
    cases hb

theorem HubAct.Relays.push_relays (ha : a.Relays i env) (h : hubAct text cfg x s a = some r) :
    ∀ b ∈ r.push, b.Relays i env := by
  intro b hb
  obtain ⟨room, -, rfl⟩ | hfinal := ha.push h b hb
  · exact .inr (.inl ⟨room, rfl⟩)
  · exact .inr (.inr hfinal)

/-- None of them is a critical section that writes the maps. -/
theorem HubAct.Relays.sameMembership (ha : a.Relays i env) (h : hubAct text cfg x s a = some r) :
    s.SameMembership r.shared := by
  obtain hsame | hcommit := (hubAct_outcome h).membership
  · exact hsame
  · generalize r.shared = s' at hcommit
    cases hcommit <;> simp [HubAct.Relays, HubAct.Final] at ha

/-- A step puts on the wire what it hands to a session that can send it, and nothing
else. -/
inductive Delivers (cfg : HubConfig) (e : HubTaken) : Prop
  | nothing (h : handed cfg e = none) (hwire : putOnWire e = [])
  | sent {m : Nat × Envelope} (h : handed cfg e = some m)
      (hsend : (e.before.peer m.1).canSend e.choice = true) (hwire : putOnWire e = [m])
  | lost {m : Nat × Envelope} (h : handed cfg e = some m)
      (hsend : (e.before.peer m.1).canSend e.choice = false) (hwire : putOnWire e = [])

/-- The session that the step hands something to can send. -/
def HandsToSender (cfg : HubConfig) (e : HubTaken) : Prop :=
  ∀ m, handed cfg e = some m → (e.before.peer m.1).canSend e.choice = true

theorem delivers_of_sendEnvelope {j : Nat} {fwd : Envelope}
    (hhanded : handed cfg ⟨s, x, a, r⟩ = some (j, fwd)) (hsess : (s.peer j).sess = true)
    (hsent : r.shared.sent = (s.sendEnvelope x j fwd).1.sent) : Delivers cfg ⟨s, x, a, r⟩ := by
  have hwire : putOnWire ⟨s, x, a, r⟩ = if (s.peer j).canSend x then [(j, fwd)] else [] := by
    rw [putOnWire, hsent, sendEnvelope_canSend hsess]
    split
    · exact List.drop_left
    · exact List.drop_length
  cases hsend : (s.peer j).canSend x with
  | false => exact .lost hhanded hsend (by rw [hwire, hsend]; rfl)
  | true => exact .sent hhanded hsend (by rw [hwire, hsend]; rfl)

theorem HubAct.Relays.delivers (ha : a.Relays i env) (h : hubAct text cfg x s a = some r) :
    Delivers cfg ⟨s, x, a, r⟩ := by
  have hquiet : r.shared.sent = s.sent → putOnWire ⟨s, x, a, r⟩ = [] := fun hsent => by
    rw [putOnWire, hsent]
    exact List.drop_length
  obtain rfl | ⟨room, rfl⟩ | ha := ha
  · exact .nothing rfl (hquiet (sent_of_not_sends h rfl))
  · exact .nothing rfl (hquiet (sent_of_not_sends h rfl))
  cases a with
  | call j k => exact .nothing rfl (hquiet (sent_of_not_sends h rfl))
  | forward j fwd =>
    simp only [hubAct] at h
    split at h <;> cases h
    · exact delivers_of_sendEnvelope rfl ‹_› rfl
    · exact .lost rfl (by simp_all [HubPeer.canSend]) (hquiet rfl)
  | reply j m =>
    cases m with
    | error msg =>
      simp only [hubAct, Reply.usesSess, true_and] at h
      split at h <;> cases h
      rename_i hsess
      have hreply : s.reply cfg x j (.error msg) = _ := reply_envelope (.error msg)
      cases herr : (Reply.error msg).envelope cfg x.fresh with
      | none =>
        rw [herr] at hreply
        exact .nothing (congrArg (Option.map _) herr) (hquiet (by rw [hreply]))
      | some err =>
        rw [herr] at hreply
        exact delivers_of_sendEnvelope (congrArg (Option.map _) herr)
          (Bool.eq_true_of_not_eq_false hsess) (by rw [hreply])
    | _ => exact ha.elim
  | _ => exact ha.elim

section Wire

variable {call : List HubTaken}

theorem wire_of_handsToSender (hwire : ∀ e ∈ call, Delivers cfg e)
    (h : ∀ e ∈ call, HandsToSender cfg e) : call.flatMap putOnWire = call.filterMap (handed cfg) := by
  induction call with
  | nil => rfl
  | cons e call ih =>
    rw [List.forall_mem_cons] at hwire h
    rw [List.flatMap_cons, ih hwire.2 h.2, List.filterMap_cons]
    cases hwire.1 with
    | nothing hnone hwire => rw [hnone, hwire, List.nil_append]
    | sent hm _ hwire => rw [hm, hwire, List.singleton_append]
    | lost hm hsend _ => exact absurd (h.1 _ hm) (by simp [hsend])

theorem wire_length_le (hwire : ∀ e ∈ call, Delivers cfg e) :
    (call.flatMap putOnWire).length ≤ (call.filterMap (handed cfg)).length := by
  induction call with
  | nil => exact Nat.le_refl _
  | cons e call ih =>
    rw [List.forall_mem_cons] at hwire
    have hrest := ih hwire.2
    rw [List.flatMap_cons, List.length_append, List.filterMap_cons]
    cases hwire.1 with
    | nothing hnone hwire => simpa only [hnone, hwire, List.length_nil, Nat.zero_add] using hrest
    | sent hm _ hwire =>
      simp only [hm, hwire, List.length_cons, List.length_nil]
      omega
    | lost hm _ hwire =>
      simp only [hm, hwire, List.length_cons, List.length_nil]
      omega

/-- If nothing is missing on the wire, all sessions could send. -/
theorem handsToSender_of_length (hwire : ∀ e ∈ call, Delivers cfg e)
    (hlength : (call.filterMap (handed cfg)).length ≤ (call.flatMap putOnWire).length) :
    ∀ e ∈ call, HandsToSender cfg e := by
  induction call with
  | nil => exact fun e he => (List.not_mem_nil he).elim
  | cons e call ih =>
    rw [List.forall_mem_cons] at hwire ⊢
    have hrest := wire_length_le hwire.2
    rw [List.flatMap_cons, List.filterMap_cons, List.length_append] at hlength
    cases hwire.1 with
    | nothing hnone hfirst =>
      simp only [hnone, hfirst, List.length_nil, Nat.zero_add] at hlength
      exact ⟨fun m hm => absurd (hnone.symm.trans hm) (by simp), ih hwire.2 hlength⟩
    | sent hm hsend hfirst =>
      simp only [hm, hfirst, List.length_cons, List.length_nil] at hlength
      refine ⟨fun m hm' => ?_, ih hwire.2 (by omega)⟩
      cases hm.symm.trans hm'
      exact hsend
    | lost hm _ hfirst =>
      simp only [hm, hfirst, List.length_cons, List.length_nil] at hlength
      omega

end Wire

theorem linkTakes_iff {p : HubPeer} :
    LinkTakes cbor p x env ↔ p.canSend x = true ∧ env.Fits cbor := by
  simp only [HubPeer.canSend, Bool.and_eq_true, Bool.not_eq_true', decide_eq_true_eq]
  exact ⟨fun h => ⟨⟨⟨⟨h.assigned, h.notClosed⟩, h.active⟩, h.transmitted⟩, h.fits⟩,
    fun h => ⟨h.1.1.1.1, h.1.1.1.2, h.1.1.2, h.2, h.1.2⟩⟩

theorem carried_iff {e : HubTaken} (hsize : SizeChecked cbor cfg e) :
    Carried cbor cfg e ↔ HandsToSender cfg e := by
  refine ⟨fun h m hm => (linkTakes_iff.mp (h m.1 m.2 hm)).1, fun h j env hm => ?_⟩
  have hsend := h (j, env) hm
  refine linkTakes_iff.mpr ⟨hsend, hsize j env hm ?_⟩
  simp only [HubPeer.canSend, Bool.and_eq_true] at hsend
  exact hsend.2

/-! ## What a call hands over -/

theorem error_envelope {msg : String} {fresh : Fresh} (hfresh : fresh.isSome = true)
    (hsender : cfg.sender.length = identityLength) :
    ∃ err, (Reply.error msg).envelope cfg fresh = some err ∧ err.type = typeError := by
  obtain ⟨err, hnew⟩ : ∃ err, newEnvelope fresh (Reply.error msg).type cfg.sender = some err :=
    newEnvelope_isSome hfresh hsender
  have htype := newEnvelope_type hnew
  refine ⟨_, congrArg (Option.map _) hnew, ?_⟩
  dsimp only
  split <;> split <;> exact htype

theorem handed_forwards {steps : List HubTaken} {order : List Nat} {k : HubCall}
    (h : order.map (HubAct.forward · fwd) ++ [.call i k] = steps.map Taken.action) :
    steps.filterMap (handed cfg) = order.map (·, fwd) := by
  induction order generalizing steps with
  | nil =>
    obtain ⟨e, rfl, he⟩ := List.map_eq_singleton_iff.mp h.symm
    simp [handed, he]
  | cons j order ih =>
    obtain ⟨e, steps, rfl, he, hsteps⟩ := List.map_eq_cons_iff.mp h.symm
    rw [List.filterMap_cons, ih hsteps.symm]
    simp [handed, he]

theorem handed_error {steps : List HubTaken} {msg : String}
    (hsender : cfg.sender.length = identityLength)
    (hfresh : ∀ e ∈ steps, e.choice.fresh.isSome = true)
    (h : [.reply i (.error msg)] = steps.map Taken.action) :
    ∃ err, err.type = typeError ∧ steps.filterMap (handed cfg) = [(i, err)] := by
  obtain ⟨e, rfl, he⟩ := List.map_eq_singleton_iff.mp h.symm
  obtain ⟨err, herr, htype⟩ : ∃ err, (Reply.error msg).envelope cfg e.choice.fresh = some err ∧
      err.type = typeError := error_envelope (hfresh e List.mem_cons_self) hsender
  exact ⟨err, htype, by simp [handed, he, herr]⟩

/-- What is found when the call uses the state. -/
structure SoundStep (i : Nat) (sender : Bytes) (e : HubTaken) : Prop where
  keys : ∀ {k j}, e.before.peers.lookup k = some j → (e.before.peer j).peerHash = k
  hash : (e.before.peer i).peerHash = sender
  fresh : e.choice.fresh.isSome = true

theorem relay_hands {sender : Bytes} {call : List HubTaken}
    (hsender : cfg.sender.length = identityLength) (hlength : sender.length = identityLength)
    (hcall : (hubProgram text cfg).Performs t [.onRoomContent i env] call [])
    (hsound : ∀ e ∈ call, SoundStep i sender e) :
    ∃ e₀ e₁ later, call = e₀ :: e₁ :: later ∧
      (Admits text cfg i env e₀.before e₀.choice.now e₁.before →
        ∃ (targets : List Nat) (fwd : Envelope),
          call.filterMap (handed cfg) = targets.map (·, fwd) ∧ targets.Nodup ∧
          (∀ j, j ∈ targets ↔ e₁.before.Receives i (normalizeRoom text env.room) j) ∧
          Stamped sender (e₁.before.peer i).nick (normalizeRoom text env.room) env fwd) ∧
      (¬Admits text cfg i env e₀.before e₀.choice.now e₁.before →
        ∃ err, err.type = typeError ∧ call.filterMap (handed cfg) = [(i, err)]) := by
  have hflat : ∀ {x s a r}, a.Final i → (hubProgram text cfg).act t x s a = some r → r.push = [] :=
    fun ha h => ha.push h
  cases hcall with
  | @step s x _ r _ _ steps hact hrest =>
    rw [List.append_nil] at hrest
    -- the first step is the rate check; if it passes, the second is the critical section
    obtain ⟨hroom, hrate, hpush⟩ | ⟨hnot, msg, hpush⟩ := onRoomContent_push hact
    · rw [hpush] at hrest
      cases hrest with
      | @step s' x' _ r' _ _ steps hact' hrest' =>
        have hsound' := hsound _ (List.mem_cons_of_mem _ List.mem_cons_self)
        have hskip : ∀ later : List HubTaken, (⟨s, x, .onRoomContent i env, r⟩ ::
            ⟨s', x', .relay i env (normalizeRoom text env.room), r'⟩ :: later).filterMap (handed cfg) =
            later.filterMap (handed cfg) := fun _ => rfl
        rw [List.append_nil] at hrest'
        refine ⟨_, _, steps, rfl, ?_⟩
        rw [hskip]
        -- all other steps are the ones that the critical section has pushed
        have hactions := hrest'.actions hflat (relay_final hact')
        obtain ⟨hbody, hmember, horder, fwd, hstamped, hpush'⟩ | ⟨hnot, msg, hpush'⟩ :=
          relay_push hsound'.fresh (by rw [hsound'.hash]; exact hlength) hact'
        · rw [hpush', List.append_nil] at hactions
          refine ⟨fun _ => ⟨x'.order, fwd, handed_forwards hactions, ?_, ?_, ?_⟩, fun hnot => ?_⟩
          · exact horder.nodup_iff.mpr (recipients_nodup hsound'.keys)
          · exact fun j => horder.mem_iff.trans mem_recipients
          · exact hsound'.hash ▸ hstamped
          · exact absurd ⟨hroom, hrate, hbody, hmember⟩ hnot
        · rw [hpush', List.append_nil] at hactions
          refine ⟨fun hadmits => absurd ⟨hadmits.body, hadmits.member⟩ hnot, fun _ => ?_⟩
          refine handed_error hsender (fun e he => ?_) hactions
          exact (hsound e (List.mem_cons_of_mem _ (List.mem_cons_of_mem _ he))).fresh
    · have hactions := hrest.actions hflat (by rw [hpush]; simp [HubAct.Final])
      rw [hpush, List.append_nil] at hactions
      obtain ⟨err, htype, hhanded⟩ :
          ∃ err, err.type = typeError ∧ steps.filterMap (handed cfg) = [(i, err)] :=
        handed_error hsender (fun e he => (hsound e (List.mem_cons_of_mem _ he)).fresh) hactions
      obtain ⟨e₁, rfl, -⟩ := List.map_eq_singleton_iff.mp hactions.symm
      exact ⟨_, e₁, [], rfl, fun hadmits => absurd hadmits (hnot _), fun _ => ⟨err, htype, hhanded⟩⟩

/-! ## When a call is right -/

/-- An envelope that says what a forwarded one should. -/
def stamp (sender nick room : Bytes) (env : Envelope) : Envelope :=
  { env with sender, nick, hasNick := nick ≠ [], room, hasRoom := true }

theorem stamp_stamped (sender nick room : Bytes) (env : Envelope) :
    Stamped sender nick room env (stamp sender nick room env) := by
  constructor <;> simp [stamp]

theorem storedFrom_eq {nick : Option Bytes} :
    storedFrom text nick = nick.getD [] ↔ ∀ n ∈ nick, sanitizeNick text n = n := by
  cases nick <;> simp [storedFrom]

theorem length_eq_of_mem_iff {targets targets' : List Nat} (h : targets.Nodup) (h' : targets'.Nodup)
    (hmem : ∀ j, j ∈ targets ↔ j ∈ targets') : targets.length = targets'.length :=
  ((List.perm_ext_iff_of_nodup h h').mpr hmem).length_eq

section Right

variable {sender : Bytes} {nick : Option Bytes} {call : List HubTaken}

theorem call_relays (hcall : (hubProgram text cfg).Performs t [.onRoomContent i env] call []) :
    ∀ e ∈ call, e.action.Relays i env :=
  (hcall.all (fun ha h => ha.push_relays h) (by simp [HubAct.Relays])).1

theorem call_delivers (hcall : (hubProgram text cfg).Performs t [.onRoomContent i env] call []) :
    ∀ e ∈ call, Delivers cfg e :=
  fun e he => (call_relays hcall e he).delivers (hcall.act e he)

/-- If the wire is right, there is as much on it as was handed over. -/
theorem RelayRight.handsToSender (h : RelayRight text cfg i sender nick env call)
    (hsender : cfg.sender.length = identityLength) (hlength : sender.length = identityLength)
    (hcall : (hubProgram text cfg).Performs t [.onRoomContent i env] call [])
    (hsound : ∀ e ∈ call, SoundStep i sender e) : ∀ e ∈ call, HandsToSender cfg e := by
  obtain ⟨e₀, e₁, later, rfl, hadmitted, hrefused⟩ := relay_hands hsender hlength hcall hsound
  obtain ⟨-, e₀', e₁', later', heq, hadmitted', hrefused'⟩ := h
  cases heq
  refine handsToSender_of_length (call_delivers hcall) (Nat.le_of_eq ?_)
  by_cases hadmits : Admits text cfg i env e₀.before e₀.choice.now e₁.before
  · obtain ⟨targets, fwd, hhanded, hnodup, hmem, -⟩ := hadmitted hadmits
    obtain ⟨targets', fwd', hsent, hnodup', hmem', -⟩ := hadmitted' hadmits
    rw [hhanded, hsent, List.length_map, List.length_map]
    exact length_eq_of_mem_iff hnodup hnodup' fun j => (hmem j).trans (hmem' j).symm
  · obtain ⟨err, -, hhanded⟩ := hrefused hadmits
    obtain ⟨err', -, hsent⟩ := hrefused' hadmits
    rw [hhanded, hsent, List.length_singleton, List.length_singleton]

/-- What a recipient got carries the stored nickname, and should carry the accepted one. -/
theorem RelayRight.nickKept (h : RelayRight text cfg i sender nick env call)
    (hsender : cfg.sender.length = identityLength) (hlength : sender.length = identityLength)
    (hcall : (hubProgram text cfg).Performs t [.onRoomContent i env] call [])
    (hsound : ∀ e ∈ call, SoundStep i sender e)
    (hnick : ∀ e, call[1]? = some e → (e.before.peer i).nick = storedFrom text nick) :
    NickKept text cfg i nick env call := by
  have hall := h.handsToSender hsender hlength hcall hsound
  obtain ⟨e₀, e₁, later, rfl, hadmitted, -⟩ := relay_hands hsender hlength hcall hsound
  obtain ⟨-, e₀', e₁', later', heq, hadmitted', -⟩ := h
  cases heq
  intro e₀' e₁' later' j heq hadmits hj
  cases heq
  obtain ⟨targets, fwd, hhanded, -, -, hstamped⟩ := hadmitted hadmits
  obtain ⟨targets', fwd', hsent, -, hmem', hstamped'⟩ := hadmitted' hadmits
  -- both lists are what is on the wire, so the recipient got the same envelope
  have hboth := hsent.symm.trans ((wire_of_handsToSender (call_delivers hcall) hall).trans hhanded)
  have hin : (j, fwd') ∈ targets'.map (·, fwd') := List.mem_map_of_mem ((hmem' j).mpr hj)
  rw [hboth] at hin
  obtain ⟨j', -, hfwd⟩ := List.mem_map.mp hin
  obtain rfl : fwd = fwd' := (Prod.ext_iff.mp hfwd).2
  rw [← storedFrom_eq, ← hnick e₁ rfl, ← hstamped.nick.1]
  exact hstamped'.nick.1

theorem relayRight_of_handsToSender
    (hsender : cfg.sender.length = identityLength) (hlength : sender.length = identityLength)
    (hcall : (hubProgram text cfg).Performs t [.onRoomContent i env] call [])
    (hsound : ∀ e ∈ call, SoundStep i sender e)
    (hnick : ∀ e, call[1]? = some e → (e.before.peer i).nick = storedFrom text nick)
    (hall : ∀ e ∈ call, HandsToSender cfg e) (hkept : NickKept text cfg i nick env call) :
    RelayRight text cfg i sender nick env call := by
  have hsent := wire_of_handsToSender (call_delivers hcall) hall
  obtain ⟨e₀, e₁, later, rfl, hadmitted, hrefused⟩ := relay_hands hsender hlength hcall hsound
  refine ⟨fun e he => (call_relays hcall e he).sameMembership (hcall.act e he), e₀, e₁, later, rfl, ?_, ?_⟩
  · intro hadmits
    obtain ⟨targets, fwd, hhanded, hnodup, hmem, hstamped⟩ := hadmitted hadmits
    cases targets with
    | nil =>
      -- nobody receives it, so any envelope will do
      exact ⟨[], stamp sender (nick.getD []) (normalizeRoom text env.room) env, hsent.trans hhanded,
        hnodup, hmem, stamp_stamped _ _ _ _⟩
    | cons j targets =>
      have hj := (hmem j).mp List.mem_cons_self
      have hsame := storedFrom_eq.mpr (hkept e₀ e₁ later j rfl hadmits hj)
      refine ⟨j :: targets, fwd, hsent.trans hhanded, hnodup, hmem, ?_⟩
      rw [← hsame, ← hnick e₁ rfl]
      exact hstamped
  · intro hadmits
    obtain ⟨err, htype, hhanded⟩ := hrefused hadmits
    exact ⟨err, htype, hsent.trans hhanded⟩

/-- A completed call is right exactly if all that it hands over is carried and the
nickname is kept. -/
theorem relayRight_iff (hsender : cfg.sender.length = identityLength) (hlength : sender.length = identityLength)
    (hcall : (hubProgram text cfg).Performs t [.onRoomContent i env] call [])
    (hsound : ∀ e ∈ call, SoundStep i sender e) (hsize : ∀ e ∈ call, SizeChecked cbor cfg e)
    (hnick : ∀ e, call[1]? = some e → (e.before.peer i).nick = storedFrom text nick) :
    RelayRight text cfg i sender nick env call ↔
      (∀ e ∈ call, Carried cbor cfg e) ∧ NickKept text cfg i nick env call := by
  have hcarried : (∀ e ∈ call, Carried cbor cfg e) ↔ ∀ e ∈ call, HandsToSender cfg e :=
    forall₂_congr fun e he => carried_iff (hsize e he)
  rw [hcarried]
  exact ⟨fun h => ⟨h.handsToSender hsender hlength hcall hsound, h.nickKept hsender hlength hcall hsound hnick⟩,
    fun h => relayRight_of_handsToSender hsender hlength hcall hsound hnick h.1 h.2⟩

end Right

/-! ## Completing a call -/

/-- However the call of goroutine `t` is interleaved, at any time it has been completed
or the goroutine can complete it. `rand.Read` does not fail. -/
def Completes (text : GoText) (cfg : HubConfig) (c : HubConf) (t i : Nat) (env : Envelope) : Prop :=
  ∀ (es : List (Event HubChoice HubEvent)) (p : HubConf × List HubTaken),
    (∀ u x, .run u x ∈ es → x.fresh.isSome = true) →
    run ((hubProgram text cfg).stepTaken t) (c, []) es = some p →
    ∃ (xs : List HubChoice) (p' : HubConf × List HubTaken) (call later : List HubTaken),
      (∀ x ∈ xs, x.fresh.isSome = true) ∧
      run ((hubProgram text cfg).stepTaken t) p (xs.map (.run t ·)) = some p' ∧
      p'.2 = call ++ later ∧ (hubProgram text cfg).Performs t [.onRoomContent i env] call []

theorem assigned_step {e : Event HubChoice HubEvent} (h : c.shared.Assigned i)
    (hstep : hubStep text cfg c e = some c') : c'.shared.Assigned i := by
  cases Program.steps_of_step hstep with
  | run hthread hact => exact assigned_mono (hubAct_outcome hact).peersAfter i h
  | env henv =>
    obtain ⟨status, heq⟩ := hubEnv_at henv i
    rw [HubState.Assigned, heq]
    exact h

abbrev FinishesRelay (text : GoText) (cfg : HubConfig) (t i : Nat) : List HubAct → Prop :=
  (hubProgram text cfg).CanFinish (·.shared.Assigned i) (·.fresh.isSome = true) t

theorem HubAct.Final.act (ha : a.Final i) (hi : s.Assigned i) :
    ∃ r, hubAct text cfg x s a = some r := by
  cases a with
  | call j k => exact ⟨_, rfl⟩
  | forward j fwd =>
    simp only [hubAct]
    split <;> exact ⟨_, rfl⟩
  | reply j m =>
    cases m with
    | error msg =>
      obtain rfl : j = i := ha
      have hsess : (s.peer j).sess = true := hi
      simp [hubAct, hsess]
    | _ => exact ha.elim
  | _ => exact ha.elim

theorem finishes_final (ha : a.Final i) : FinishesRelay text cfg t i [a] := by
  refine .action (fun h hstep => assigned_step h hstep) fun {c} h => ?_
  obtain ⟨r, hr⟩ : ∃ r, hubAct text cfg (readyChoice []) c.shared a = some r := ha.act h
  refine ⟨readyChoice [], r, rfl, hr, ?_⟩
  rw [ha.push hr]
  exact .nil

theorem finishes_relay : FinishesRelay text cfg t i [.relay i env room] := by
  refine .action (fun h hstep => assigned_step h hstep) fun {c} h => ?_
  obtain ⟨r, hr⟩ : ∃ r, relayAct cfg (readyChoice (c.shared.recipients i room)) c.shared i env room =
      some r := relayAct_isSome h
  exact ⟨_, r, rfl, hr, .of_forall fun b hb => finishes_final (relay_final hr b hb)⟩

theorem finishes_onRoomContent : FinishesRelay text cfg t i [.onRoomContent i env] := by
  refine .action (fun h hstep => assigned_step h hstep) fun {c} h => ?_
  obtain ⟨r, hr⟩ : ∃ r, hubAct text cfg (readyChoice []) c.shared (.onRoomContent i env) = some r := by
    simp only [hubAct]
    split
    · exact ⟨_, rfl⟩
    · split <;> exact ⟨_, rfl⟩
  refine ⟨readyChoice [], r, rfl, hr, .of_forall fun b hb => ?_⟩
  have hrelays : (HubAct.onRoomContent i env).Relays i env := .inl rfl
  obtain ⟨room, -, rfl⟩ | hfinal := hrelays.push hr b hb
  · exact finishes_relay
  · exact finishes_final hfinal

/-- Wherever a call stands, its goroutine can finish it. -/
theorem finishes_relays (htodo : ∀ a ∈ todo, a.Relays i env) :
    FinishesRelay text cfg t i todo := by
  refine .of_forall fun a ha => ?_
  obtain rfl | ⟨room, rfl⟩ | hfinal := htodo a ha
  · exact finishes_onRoomContent
  · exact finishes_relay
  · exact finishes_final hfinal

theorem completes_of_assigned (h : c.shared.Assigned i)
    (hthread : c.threads[t]? = some (.onRoomContent i env :: rest)) : Completes text cfg c t i env := by
  intro es p hfresh hrun
  have hbegin : c.threads[t]? = some ([.onRoomContent i env] ++ rest) := hthread
  obtain ⟨todo, htodo, hperforms⟩ := Program.performs_of_run hbegin hrun
  obtain ⟨left, rfl, hleft⟩ | ⟨call, later, hp, hcall, -⟩ := hperforms.split
  · have hkind : ∀ a ∈ left, a.Relays i env :=
      (hleft.all (fun ha h => ha.push_relays h) (by simp [HubAct.Relays])).2
    have hassigned : p.1.shared.Assigned i := by
      have hstep : ∀ {q e q'}, q.1.shared.Assigned i →
          (hubProgram text cfg).stepTaken t q e = some q' → q'.1.shared.Assigned i :=
        fun h hstep => assigned_step h (recorded_eq_some hstep).1
      exact run_invariant hstep h hrun
    obtain ⟨xs, p', hxs, hrun', -, hthread'⟩ :
        ∃ (xs : List HubChoice) (p' : HubConf × List HubTaken), (∀ x ∈ xs, x.fresh.isSome = true) ∧
          run ((hubProgram text cfg).stepTaken t) p (xs.map (.run t ·)) = some p' ∧
          p'.1.shared.Assigned i ∧ p'.1.threads[t]? = some rest :=
      finishes_relays hkind p.1 p.2 rest hassigned htodo
    obtain ⟨todo', htodo', hperforms'⟩ :=
      Program.performs_of_run hbegin (run_append.mpr ⟨p, hrun, hrun'⟩)
    cases htodo'.symm.trans hthread'
    obtain ⟨left', hleft', hcall⟩ | ⟨call, later, hp, hcall, -⟩ := hperforms'.split
    · obtain rfl : left' = [] := List.self_eq_append_left.mp hleft'
      exact ⟨xs, p', p'.2, [], hxs, hrun', (List.append_nil p'.2).symm, hcall⟩
    · exact ⟨xs, p', call, later, hxs, hrun', hp, hcall⟩
  · exact ⟨[], p, call, later, by simp, rfl, hp, hcall⟩

/-! ## Calls without a session -/

/-- Where a call can stand that has not got past its first use of `p.sess`. -/
def BeforeSession (i : Nat) (env : Envelope) (as : List HubAct) : Prop :=
  as = [.onRoomContent i env] ∨ (∃ room, as = [.relay i env room]) ∨
    ∃ msg, as = [.reply i (.error msg)]

theorem BeforeSession.step (h : BeforeSession i env (a :: as)) (hsess : (s.peer i).sess = false)
    (hact : hubAct text cfg x s a = some r) :
    BeforeSession i env (r.push ++ as) ∧ (r.shared.peer i).sess = false := by
  have hkept : (∀ j, a ≠ .assignSess j) → (r.shared.peer i).sess = false := fun ha => by
    obtain heq | ⟨heq, -⟩ := (hubAct_outcome hact).peersAfter.sess i
    · exact heq.trans hsess
    · exact absurd heq (ha i)
  obtain h | ⟨room, h⟩ | ⟨msg, h⟩ := h <;> obtain ⟨rfl, rfl⟩ := List.cons.inj h
  · refine ⟨?_, hkept (by simp)⟩
    rw [List.append_nil]
    obtain ⟨-, -, hpush⟩ | ⟨-, msg, hpush⟩ := onRoomContent_push hact
    · exact .inr (.inl ⟨_, hpush⟩)
    · exact .inr (.inr ⟨msg, hpush⟩)
  · refine ⟨?_, hkept (by simp)⟩
    rw [List.append_nil]
    simp only [hubAct, relayAct, hsess, true_or, if_true] at hact
    split at hact
    · cases hact
      exact .inr (.inr ⟨_, rfl⟩)
    · split at hact <;> cases hact
      exact .inr (.inr ⟨_, rfl⟩)
  · simp [hubAct, Reply.usesSess, hsess] at hact

/-- Left alone, such a call is never completed. -/
theorem BeforeSession.run {p : HubConf × List HubTaken} {steps : List HubTaken}
    {xs : List HubChoice} (h : BeforeSession i env as) (hsess : (c.shared.peer i).sess = false)
    (hthread : c.threads[t]? = some (as ++ rest))
    (hperforms : (hubProgram text cfg).Performs t [.onRoomContent i env] steps as)
    (hrun : Transition.run ((hubProgram text cfg).stepTaken t) (c, steps) (xs.map (.run t ·)) =
      some p) :
    ∃ todo, todo ≠ [] ∧ (hubProgram text cfg).Performs t [.onRoomContent i env] p.2 todo := by
  induction xs generalizing c steps as with
  | nil =>
    cases hrun
    refine ⟨as, ?_, hperforms⟩
    obtain rfl | ⟨room, rfl⟩ | ⟨msg, rfl⟩ := h <;> exact List.cons_ne_nil _ _
  | cons x xs ih =>
    obtain ⟨⟨m, taken⟩, hm, hrun⟩ := run_cons.mp hrun
    obtain ⟨hm, rfl⟩ := recorded_eq_some hm
    cases Program.steps_of_step hm with
    | @run _ _ a rest' r hthread' hact =>
      cases as with
      | nil => obtain h | ⟨_, h⟩ | ⟨_, h⟩ := h <;> cases h
      | cons b as =>
        cases hthread.symm.trans hthread'
        obtain ⟨hnext, hsess'⟩ := h.step hsess hact
        rw [Program.took_run hthread' hact] at hrun
        refine ih hnext hsess' ?_ (hperforms.snoc hact) hrun
        rw [List.append_assoc]
        exact thread_self hthread'

theorem not_completes (hsess : (c.shared.peer i).sess = false)
    (hthread : c.threads[t]? = some (.onRoomContent i env :: rest)) :
    ¬Completes text cfg c t i env := by
  intro h
  obtain ⟨xs, p, call, later, -, hrun, hp, hcall⟩ := h [] (c, []) (by simp) rfl
  have hthread' : c.threads[t]? = some ([.onRoomContent i env] ++ rest) := hthread
  obtain ⟨todo, hne, hperforms⟩ := BeforeSession.run (.inl rfl) hsess hthread' .done hrun
  rw [hp] at hperforms
  exact hne (hcall.after hperforms).eq_nil

/-! ## Calls in a run -/

section Runs

variable {es es' : List (Event HubChoice HubEvent)} {p : HubConf × List HubTaken}
  {call later : List HubTaken}

theorem soundStep_of_run (hreg : Registration c) (hhashed : c.shared.Hashed i)
    (hfresh : ∀ u x, .run u x ∈ es' → x.fresh.isSome = true)
    (hrun : run ((hubProgram text cfg).stepTaken t) (c, []) es' = some p) :
    ∀ e ∈ p.2, SoundStep i (c.shared.peer i).peerHash e := by
  intro e he
  obtain ⟨k, hk⟩ := List.mem_iff_getElem?.mp he
  obtain ⟨m, hm, hbefore, hchoice⟩ :=
    Program.state_before hrun (k := k) (by rw [List.length_nil, Nat.zero_add]; exact hk)
  have hreg' : Registration m := run_invariant (fun h hstep => h.step hstep) hreg hm
  refine ⟨hbefore ▸ hreg'.keys, ?_, hfresh t _ hchoice⟩
  rw [← hbefore]
  exact peerHash_of_run hreg hhashed hm

/-- The nickname found in the critical section is what was stored of the last one
accepted before. -/
theorem nick_at_critical_section (hrun : run (hubStep text cfg) hubInit es = some c)
    (hrun' : run ((hubProgram text cfg).stepTaken t) (c, []) es' = some p) {e : HubTaken}
    (he : p.2[1]? = some e) :
    (e.before.peer i).nick =
      storedFrom text (lastNick text cfg i hubInit (es ++ untilStep t 1 es') none) := by
  obtain ⟨m, hm, hbefore, -⟩ := Program.state_before hrun' (k := 1) he
  rw [← hbefore]
  exact nick_of_run rfl (run_append.mpr ⟨c, hrun, hm⟩)

end Runs

/-- A goroutine of a hub in any state it can reach is about to call
`onRoomContent`. The hash of the peer has been proved on its link. The call can be
completed, however it is interleaved, exactly if `p.sess` has been assigned. A completed
call puts one envelope on the wire for each member it should, under that hash and the
last nickname accepted for the peer, or one error for its sender, and changes no
membership, exactly if all that it hands over is carried and the nickname is one that a
second pass of `SanitizeNick` does not change. -/
theorem relay_correct_iff (text : GoText) (cfg : HubConfig) (cbor : CborCodec)
    (hsender : cfg.sender.length = identityLength) {es : List (Event HubChoice HubEvent)}
    {c : HubConf} {t i : Nat} {env : Envelope} {rest : List HubAct}
    (hrun : run (hubStep text cfg) hubInit es = some c)
    (hthread : c.threads[t]? = some (.onRoomContent i env :: rest)) :
    ProvedIn es i (c.shared.peer i).peerHash ∧
    (Completes text cfg c t i env ↔ (c.shared.peer i).sess = true) ∧
    ∀ (es' : List (Event HubChoice HubEvent)) (p : HubConf × List HubTaken)
      (call later : List HubTaken),
      (∀ u x, .run u x ∈ es' → x.fresh.isSome = true) →
      run ((hubProgram text cfg).stepTaken t) (c, []) es' = some p → p.2 = call ++ later →
      (hubProgram text cfg).Performs t [.onRoomContent i env] call [] →
      (∀ e ∈ call, SizeChecked cbor cfg e) →
      let nick := lastNick text cfg i hubInit (es ++ untilStep t 1 es') none
      (RelayRight text cfg i (c.shared.peer i).peerHash nick env call ↔
        (∀ e ∈ call, Carried cbor cfg e) ∧ NickKept text cfg i nick env call) := by
  have hhashed : c.shared.Hashed i :=
    handlersIdentified_of_run hrun t _ hthread _ List.mem_cons_self i rfl
  have hproved := peerHash_proved hrun hhashed
  refine ⟨hproved, ⟨fun h => ?_, fun hsess => completes_of_assigned hsess hthread⟩, ?_⟩
  · by_contra hsess
    exact not_completes (Bool.eq_false_iff.mpr hsess) hthread h
  · intro es' p call later hfresh hrun' hp hcall hsize
    have hsound := soundStep_of_run (registration_of_run hrun) hhashed hfresh hrun'
    have hmem : ∀ e ∈ call, e ∈ p.2 := fun e he => hp ▸ List.mem_append_left later he
    refine relayRight_iff hsender hproved.1 hcall (fun e he => hsound e (hmem e he)) hsize ?_
    intro e he
    refine nick_at_critical_section hrun hrun' ?_
    rw [hp]
    exact List.getElem?_append_left (List.getElem?_eq_some_iff.mp he).1 ▸ he

/-- The next action of the goroutine is `onRoomContent` for the peer, with a message. -/
def HubConf.relaysMessage (c : HubConf) (t i : Nat) : Bool :=
  match c.threads[t]? with
  | some (.onRoomContent j env :: _) => j = i && env.type = typeMsg
  | _ => false

theorem HubConf.thread_of_relaysMessage (h : HubConf.relaysMessage c t i = true) :
    ∃ env rest, c.threads[t]? = some (.onRoomContent i env :: rest) ∧ env.type = typeMsg := by
  unfold HubConf.relaysMessage at h
  split at h
  · rename_i j env rest hthread
    simp only [Bool.and_eq_true, decide_eq_true_eq] at h
    obtain ⟨rfl, htype⟩ := h
    exact ⟨env, rest, hthread, htype⟩
  · cases h

/-- Two links are in the room. The first gave the nickname "bob" in its HELLO, and its
message is about to be relayed. -/
def shortRelay : List (Event HubChoice HubEvent) :=
  entering 0 0 { sampleHello with nick := [98, 111, 98], hasNick := true } ++
  arriving 0 4 5 sampleJoin ++
  entering 1 6 { sampleHello with sender := List.replicate 16 2 } ++ arriving 1 10 5 sampleJoin ++
  arriving 0 12 4 (sampleText 2)

/-- The goroutine completes its call. -/
def shortRelayTurns : List (Event HubChoice HubEvent) :=
  turns 13 1 ++ [.run 13 { fresh := some ([], 0), order := [1] }] ++ turns 13 2

/-- What the step hands over can be sent, and is this long. -/
def handedLength (cfg : HubConfig) (e : HubTaken) : Option (Bool × Option Nat) :=
  (handed cfg e).map fun m => ((e.before.peer m.1).canSend e.choice, m.2.encodedLength hubCbor)

theorem carried_of_handedLength {e : HubTaken} {n : Nat}
    (h : ∀ l ∈ handedLength cfg e, l = (true, some n)) (hn : n ≤ linkMaxPlaintext) :
    Carried hubCbor cfg e := by
  intro j env hhanded
  have heq := h _ (congrArg (Option.map _) hhanded)
  obtain ⟨hsend, hlen⟩ := Prod.mk.inj heq
  exact linkTakes_iff.mpr ⟨hsend, (Envelope.fits_iff_of_encodedLength hlen).mpr hn⟩

theorem short_message_relayed :
    ∃ c p env, run (hubStep .ascii sampleHub) hubInit shortRelay = some c ∧
      c.threads[13]? = some [.onRoomContent 0 env] ∧ env.type = typeMsg ∧
      run ((hubProgram .ascii sampleHub).stepTaken 13) (c, []) shortRelayTurns = some p ∧
      (p.2.flatMap putOnWire).map Prod.fst = [1] ∧
      RelayRight .ascii sampleHub 0 sampleIdentity (some [98, 111, 98]) env p.2 := by
  have hstart : (run (hubStep .ascii sampleHub) hubInit shortRelay).map (fun c =>
      (HubConf.relaysMessage c 13 0, (c.threads[13]?).map List.length, (c.shared.peer 0).peerHash)) =
      some (true, some 1, sampleIdentity) := by
    decide +kernel
  have hend : ((run (hubStep .ascii sampleHub) hubInit shortRelay).bind fun c =>
      (run ((hubProgram .ascii sampleHub).stepTaken 13) (c, []) shortRelayTurns).map fun p =>
        ((p.1.threads[13]?).map List.length, p.2.map (handedLength sampleHub),
          (p.2.flatMap putOnWire).map Prod.fst)) =
      some (some 0, [none, none, some (true, some 59), none], [1]) := by
    decide +kernel
  have hnick : lastNick .ascii sampleHub 0 hubInit (shortRelay ++ untilStep 13 1 shortRelayTurns) none =
      some [98, 111, 98] := by
    decide +kernel
  obtain ⟨c, hrun, hstart⟩ := Option.map_eq_some_iff.mp hstart
  rw [hrun, Option.bind_some] at hend
  obtain ⟨p, hrun', hend⟩ := Option.map_eq_some_iff.mp hend
  simp only [Prod.mk.injEq] at hstart hend
  obtain ⟨hrelays, hbegin, hhash⟩ := hstart
  obtain ⟨hended, hlengths, hwire⟩ := hend
  obtain ⟨env, rest, hthread, htype⟩ := HubConf.thread_of_relaysMessage hrelays
  obtain rfl : rest = [] := by simpa [hthread] using hbegin
  obtain ⟨todo, htodo, hcall⟩ := Program.performs_of_run hthread hrun'
  obtain rfl : todo = [] := by simpa [htodo] using hended
  have hcarried : ∀ e ∈ p.2, Carried hubCbor sampleHub e := by
    intro e he
    have hmem : handedLength sampleHub e ∈ p.2.map (handedLength sampleHub) := List.mem_map_of_mem he
    rw [hlengths] at hmem
    refine carried_of_handedLength (n := 59) (fun l hl => ?_) (by decide)
    rw [Option.mem_def.mp hl] at hmem
    simpa using hmem
  have hfresh : ∀ u x, .run u x ∈ shortRelayTurns → x.fresh.isSome = true := by
    intro u x hx
    simp only [shortRelayTurns, turns, List.mem_append, List.mem_replicate, List.mem_singleton,
      Event.run.injEq] at hx
    obtain (⟨-, -, rfl⟩ | ⟨-, rfl⟩) | ⟨-, -, rfl⟩ := hx <;> rfl
  have hright := (relay_correct_iff .ascii sampleHub hubCbor (by decide) hrun hthread).2.2
    shortRelayTurns p p.2 [] hfresh hrun' (List.append_nil _).symm hcall
    (fun e he j env hhanded _ => (hcarried e he j env hhanded).fits)
  rw [hhash, hnick] at hright
  refine ⟨c, p, env, hrun, hthread, htype, hrun', hwire, hright.mpr ⟨hcarried, ?_⟩⟩
  exact fun _ _ _ _ _ _ _ n hn => by
    cases hn
    decide

/-- A HELLO has come before `acceptLink` could assign the session. Its handler has
made the peer active, and before it uses the session a message is handled. -/
def messageWithoutSession : List (Event HubChoice HubEvent) :=
  earlyHello ++ turns 0 3 ++ [.env (.packet 0 (some sampleMsg))] ++ turns 3 1 ++ turns 4 4

/-- The call cannot be completed: it neither forwards the message nor answers. -/
theorem message_without_session_stuck :
    ∃ c env rest, run (hubStep .ascii sampleHub) hubInit messageWithoutSession = some c ∧
      c.threads[4]? = some (.onRoomContent 0 env :: rest) ∧ env.type = typeMsg ∧
      (c.shared.peer 0).active = true ∧ ¬Completes .ascii sampleHub c 4 0 env := by
  have hend : (run (hubStep .ascii sampleHub) hubInit messageWithoutSession).map (fun c =>
      (HubConf.relaysMessage c 4 0, (c.shared.peer 0).active, (c.shared.peer 0).sess)) =
      some (true, true, false) := by
    decide +kernel
  obtain ⟨c, hrun, heq⟩ := Option.map_eq_some_iff.mp hend
  simp only [Prod.mk.injEq] at heq
  obtain ⟨hrelays, hactive, hsess⟩ := heq
  obtain ⟨env, rest, hthread, htype⟩ := HubConf.thread_of_relaysMessage hrelays
  exact ⟨c, env, rest, hrun, hthread, htype, hactive, not_completes hsess hthread⟩

end Rrc
