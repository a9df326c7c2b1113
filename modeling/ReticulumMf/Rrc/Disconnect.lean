-- SUMMARY: When a client that is disconnected stays so.
import ReticulumMf.Rrc.ClientSteps

/-!
# Disconnected clients

`onLinkClosed` makes the client disconnected and empties its room set. `Dial`
and `dispatch` write both without looking: a `Dial` that has still to set the
state, or a JOINED whose handler is on its way, brings the client back. As long
as no such step comes, nothing else does.
-/

namespace Rrc

open Threads Transition

variable {text : GoText} {cfg : ClientConfig} {t n : Nat} {x : ClientChoice} {s s' : Client}
  {a b : ClientAct} {r : Effect Client ClientAct} {c c' : ClientConf} {rest : List ClientAct}

/-! ## Calls of OnClose -/

def ClientCall.isOnClose : ClientCall → Bool
  | .onClose => true
  | _ => false

def ClientAct.callsOnClose : ClientAct → Bool
  | .call k => k.isOnClose
  | _ => false

def Client.closeCalls (s : Client) : Nat := s.calls.countP ClientCall.isOnClose

/-- Calls of `OnClose` that have been made or are upcoming. -/
def closeCallsDue (c : ClientConf) : Nat := c.shared.closeCalls + pending ClientAct.callsOnClose c

theorem ClientAct.Leads.of_callsOnClose (h : a.Leads s b) (hb : b.callsOnClose = true) :
    s.state ≠ .disconnected := by
  cases h with
  | callOnClose hstate => exact hstate
  | @taken i k b _ hmem | @woken k b _ hmem =>
    cases k with
    | welcome env | closed =>
      obtain rfl := List.mem_singleton.mp hmem
      cases hb
    | timeout =>
      obtain rfl | hmem := List.mem_cons.mp hmem
      · cases hb
      · obtain rfl := List.mem_singleton.mp hmem
        cases hb
  | _ => cases hb

theorem closeCalls_run (hact : clientAct text cfg x s a = some r) :
    r.shared.closeCalls = s.closeCalls + [a].countP ClientAct.callsOnClose := by
  have hout := clientAct_outcome hact
  cases a with
  | call k =>
    cases hact
    simp only [Client.closeCalls, List.countP_append]
    rfl
  | _ =>
    rw [Client.closeCalls, hout.calls_eq (by simp)]
    rfl

/-- While the client is disconnected no call of `OnClose` is started. -/
theorem closeCallsDue_run (hstate : c.shared.state = .disconnected)
    (hthread : c.threads[t]? = some (a :: rest))
    (hact : clientAct text cfg x c.shared a = some r) :
    closeCallsDue ⟨r.shared, c.threads.set t (r.push ++ rest) ++ r.spawn⟩ = closeCallsDue c := by
  have hpending := pending_run_of_none (p := ClientAct.callsOnClose) (r := r) hthread
    (fun b hb => Bool.eq_false_iff.mpr fun hcalls =>
      (clientAct_leads hact hb).of_callsOnClose hcalls hstate)
    (by simp [clientAct_spawn hact])
  have hmade := closeCalls_run hact
  simp only [closeCallsDue, hmade]
  omega

/-! ## Steps -/

/-- The client is disconnected and in no room, requests fail, and `OnClose` has been
called, or is about to be, `n` times in all. -/
structure StaysDisconnected (n : Nat) (c : ClientConf) : Prop where
  state : c.shared.state = .disconnected
  rooms : c.shared.rooms = ∅
  requests : c.shared.requireActive = some .notWelcome
  calls : closeCallsDue c = n

/-- The steps of `Dial` that set the state, and that of `dispatch` that adds a room. -/
def ClientAct.revives : ClientAct → Bool
  | .setAwaiting | .setActive _ | .addRoom _ => true
  | _ => false

def NotRevived (c : ClientConf) : Event ClientChoice ClientEvent → Prop
  | .run t _ => ∀ a ∈ c.next t, a.revives = false
  | .env _ => True

instance {c : ClientConf} {e : Event ClientChoice ClientEvent} : Decidable (NotRevived c e) :=
  match e with
  | .run t _ => inferInstanceAs (Decidable (∀ a ∈ c.next t, a.revives = false))
  | .env _ => .isTrue trivial

/-- Of the others, none touches the state of a disconnected client. -/
theorem core_of_not_revives (h : a.Outcome text s s') (hrevives : a.revives = false)
    (hstate : s.state = .disconnected) (hrooms : s.rooms = ∅) :
    s'.state = .disconnected ∧ s'.rooms = ∅ := by
  cases h with
  | other h => exact ⟨h.state.trans hstate, h.rooms.trans hrooms⟩
  | setAwaiting | setActive | addRoom => cases hrevives
  | onLinkClosed _ => exact ⟨rfl, rfl⟩
  | closeCh | offerWelcome =>
    simp only [Client.wake]
    split <;> exact ⟨hstate, hrooms⟩
  | removeRoom =>
    refine ⟨hstate, ?_⟩
    simp only [hrooms]
    rfl
  | startTimer | park | take | dialReturn | call => exact ⟨hstate, hrooms⟩

theorem not_staysDisconnected_of_revives (hrevives : a.revives = true)
    (hact : clientAct text cfg x s a = some r) :
    ¬(r.shared.state = .disconnected ∧ r.shared.rooms = ∅) := by
  cases a with
  | setAwaiting | setActive env =>
    cases hact
    rintro ⟨hstate, -⟩
    cases hstate
  | addRoom env =>
    cases hact
    rintro ⟨-, hrooms⟩
    have hmem : normalizeRoom text env.room ∈ s.rooms.insert (normalizeRoom text env.room) () :=
      AList.mem_insert _ |>.mpr (.inl rfl)
    dsimp only at hrooms
    rw [hrooms] at hmem
    exact AList.notMem_empty _ hmem
  | _ => cases hrevives

theorem StaysDisconnected.step_iff (h : StaysDisconnected n c)
    {e : Event ClientChoice ClientEvent} (hstep : clientStep text cfg c e = some c') :
    StaysDisconnected n c' ↔ NotRevived c e := by
  cases Program.steps_of_step hstep with
  | @run t x a rest r hthread hact =>
    have hnext : c.next t = some a := Config.next_eq hthread
    constructor
    · intro h' a' ha'
      obtain rfl : a = a' := Option.some.inj (hnext.symm.trans ha')
      exact Bool.eq_false_iff.mpr fun hrevives =>
        not_staysDisconnected_of_revives hrevives hact ⟨h'.state, h'.rooms⟩
    · intro hgood
      obtain ⟨hstate, hrooms⟩ :=
        core_of_not_revives (clientAct_outcome hact) (hgood a hnext) h.state h.rooms
      refine ⟨hstate, hrooms, ?_, (closeCallsDue_run h.state hthread hact).trans h.calls⟩
      simp [Client.requireActive, hstate]
  | @env e r henv =>
    refine iff_of_true ?_ trivial
    have hpending : pending ClientAct.callsOnClose ⟨r.shared, c.threads ++ r.spawn⟩ =
        pending ClientAct.callsOnClose c := by
      refine pending_env_of_none fun l hl b hb => ?_
      obtain ⟨data, rfl⟩ | rfl | ⟨q, rfl⟩ | rfl := clientEnv_spawn henv hl <;>
        simp only [List.mem_cons, List.not_mem_nil, or_false] at hb <;>
        first | (obtain rfl := hb; rfl) | (obtain rfl | rfl := hb <;> rfl)
    have hcore : r.shared.state = c.shared.state ∧ r.shared.rooms = c.shared.rooms ∧
        r.shared.calls = c.shared.calls := by
      obtain ⟨hsame, -⟩ | ⟨-, -, -, heq⟩ := clientEnv_cases henv
      · exact ⟨hsame.state, hsame.rooms, hsame.calls⟩
      · rw [heq, Client.wake]
        split <;> exact ⟨rfl, rfl, rfl⟩
    obtain ⟨hstate, hrooms, hcalls⟩ := hcore
    refine ⟨hstate.trans h.state, hrooms.trans h.rooms, ?_, ?_⟩
    · simp [Client.requireActive, hstate, h.state]
    · rw [← h.calls, closeCallsDue, closeCallsDue, hpending, Client.closeCalls, hcalls]
      rfl

/-! ## Runs -/

/-- From the step on in which `onLinkClosed` disconnects the client, it stays
disconnected exactly if no step of `Dial` sets the state and no JOINED is applied. -/
theorem disconnected_terminal_iff (text : GoText) (cfg : ClientConfig)
    (es : List (Event ClientChoice ClientEvent)) {t : Nat} {x : ClientChoice} {c c₁ : ClientConf}
    (hnext : c.next t = some .onLinkClosed) (hstate : c.shared.state ≠ .disconnected)
    (hstep : clientStep text cfg c (.run t x) = some c₁) :
    AllStates (clientStep text cfg) (StaysDisconnected (closeCallsDue c₁)) c₁ es ↔
      AllSteps (clientStep text cfg) NotRevived c₁ es := by
  have hfirst : c₁.shared.state = .disconnected ∧ c₁.shared.rooms = ∅ := by
    cases Program.steps_of_step hstep with
    | run hthread hact =>
      cases hnext.symm.trans (Config.next_eq hthread)
      simp only [clientProgram, clientAct, if_neg hstate] at hact
      cases hact
      exact ⟨rfl, rfl⟩
  have hbase : ∀ {c : ClientConf} {e : Event ClientChoice ClientEvent} {c' : ClientConf}, True →
      StaysDisconnected (closeCallsDue c₁) c → clientStep text cfg c e = some c' →
      NotRevived c e → True := fun _ _ _ _ => trivial
  have hinv : ∀ {c : ClientConf} {e : Event ClientChoice ClientEvent} {c' : ClientConf}, True →
      StaysDisconnected (closeCallsDue c₁) c → clientStep text cfg c e = some c' →
      (StaysDisconnected (closeCallsDue c₁) c' ↔ NotRevived c e) := fun _ h h' => h.step_iff h'
  refine allStates_iff_allSteps hbase hinv trivial ⟨hfirst.1, hfirst.2, ?_, rfl⟩
  simp [Client.requireActive, hfirst.1]

def ClientAct.isOnLinkClosed : ClientAct → Bool
  | .onLinkClosed => true
  | _ => false

theorem eq_onLinkClosed_of_any {o : Option ClientAct} (h : o.any ClientAct.isOnLinkClosed = true) :
    o = some .onLinkClosed := by
  cases o with
  | none => cases h
  | some a =>
    cases a with
    | onLinkClosed => rfl
    | _ => cases h

/-- `Dial` returns the client, and the link is closed. -/
def closedAfterDial : List (Event ClientChoice ClientEvent) :=
  sampleDial ++ clientTurns 0 4 ++ [.env .linkClosed] ++ clientTurns 2 1

/-- Then `Close` is called. -/
def lateClose : List (Event ClientChoice ClientEvent) :=
  clientTurns 2 1 ++ [.env .close] ++ clientTurns 3 4

theorem sample_stays_disconnected :
    ∃ c c₁, run (clientStep .ascii sampleClient) (clientInit .ascii sampleClient) closedAfterDial =
        some c ∧
      clientStep .ascii sampleClient c (.run 2 {}) = some c₁ ∧
      AllStates (clientStep .ascii sampleClient) (StaysDisconnected (closeCallsDue c₁)) c₁
        lateClose := by
  have hend : (run (clientStep .ascii sampleClient) (clientInit .ascii sampleClient)
      closedAfterDial).bind (fun c =>
        (clientStep .ascii sampleClient c (.run 2 {})).map fun c₁ =>
          ((c.next 2).any ClientAct.isOnLinkClosed, c.shared.state,
            decide (AllSteps (clientStep .ascii sampleClient) NotRevived c₁ lateClose))) =
      some (true, .active, true) := by
    decide +kernel
  obtain ⟨c, hrun, hend⟩ := Option.bind_eq_some_iff.mp hend
  obtain ⟨c₁, hstep, heq⟩ := Option.map_eq_some_iff.mp hend
  simp only [Prod.mk.injEq] at heq
  obtain ⟨hnext, hstate, hgood⟩ := heq
  refine ⟨c, c₁, hrun, hstep, ?_⟩
  have hne : c.shared.state ≠ .disconnected := by simp [hstate]
  exact (disconnected_terminal_iff .ascii sampleClient lateClose (eq_onLinkClosed_of_any hnext) hne hstep).mpr
    (of_decide_eq_true hgood)

/-- `Dial` has received the WELCOME and a JOINED is being handled when the link is
closed. -/
def closedDuringDial : List (Event ClientChoice ClientEvent) :=
  sampleDial ++ clientTurns 0 1 ++ [.env (.packet (some sampleJoined))] ++ clientTurns 2 2 ++
  [.env .linkClosed] ++ clientTurns 3 1

/-- `OnClose` is called; then `Dial` sets the state and the handler adds the room. -/
def lateWelcome : List (Event ClientChoice ClientEvent) :=
  clientTurns 3 1 ++ clientTurns 0 3 ++ clientTurns 2 2

/-- The client is active again and in a room, requests pass, and `Close` calls
`OnClose` once more. -/
theorem disconnected_client_revived :
    ∃ c c₁ c₂ c₃, run (clientStep .ascii sampleClient) (clientInit .ascii sampleClient)
        closedDuringDial = some c ∧
      c.next 3 = some .onLinkClosed ∧ c.shared.state ≠ .disconnected ∧
      clientStep .ascii sampleClient c (.run 3 {}) = some c₁ ∧ c₁.shared.state = .disconnected ∧
      run (clientStep .ascii sampleClient) c₁ lateWelcome = some c₂ ∧
      c₂.shared.state = .active ∧ sampleRoom ∈ c₂.shared.rooms ∧ c₂.shared.requireActive = none ∧
      run (clientStep .ascii sampleClient) c₂ ([.env .close] ++ clientTurns 4 4) = some c₃ ∧
      c₃.shared.closeCalls = 2 := by
  have hend : (run (clientStep .ascii sampleClient) (clientInit .ascii sampleClient)
      closedDuringDial).bind (fun c =>
        (clientStep .ascii sampleClient c (.run 3 {})).bind fun c₁ =>
          (run (clientStep .ascii sampleClient) c₁ lateWelcome).bind fun c₂ =>
            (run (clientStep .ascii sampleClient) c₂ ([.env .close] ++ clientTurns 4 4)).map
              fun c₃ => ((c.next 3).any ClientAct.isOnLinkClosed, c.shared.state, c₁.shared.state, c₂.shared.state,
                decide (sampleRoom ∈ c₂.shared.rooms), c₃.shared.closeCalls)) =
      some (true, .awaitingWelcome, .disconnected, .active, true, 2) := by
    decide +kernel
  obtain ⟨c, hrun, hend⟩ := Option.bind_eq_some_iff.mp hend
  obtain ⟨c₁, hstep, hend⟩ := Option.bind_eq_some_iff.mp hend
  obtain ⟨c₂, hrun₂, hend⟩ := Option.bind_eq_some_iff.mp hend
  obtain ⟨c₃, hrun₃, heq⟩ := Option.map_eq_some_iff.mp hend
  simp only [Prod.mk.injEq] at heq
  obtain ⟨hnext, hstate, hstate₁, hstate₂, hrooms, hcalls⟩ := heq
  exact ⟨c, c₁, c₂, c₃, hrun, eq_onLinkClosed_of_any hnext, by simp [hstate], hstep, hstate₁, hrun₂, hstate₂,
    of_decide_eq_true hrooms, by simp [Client.requireActive, hstate₂], hrun₃, hcalls⟩

end Rrc
