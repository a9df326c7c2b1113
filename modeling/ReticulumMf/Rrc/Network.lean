-- SUMMARY: A hub with its clients and strangers, and the packets between them: chat from end to end.
import Mathlib.Algebra.BigOperators.Fin
import Mathlib.Algebra.Order.BigOperators.Group.Finset
import ReticulumMf.Rrc.Agreement
import ReticulumMf.Rrc.ClientTraffic
import ReticulumMf.Rrc.Traffic

/-!
# The network

The first `n` links of the hub belong to clients of this library; the others belong
to strangers, who may send any packet. That the clients come first is only a numbering:
no step depends on the number of a link, and a link whose goroutines have not run yet
does nothing, so a link accepted after those of strangers can be counted as accepted
before them and used later. A packet in flight may be lost, and those
that arrive do so in any order. Link proofs cannot be forged: client `k` proves its
own identity, and no stranger proves that of a client.

What a client shows its user can be traced through the network to the user who said
it (`chat_authentic`), from a room that its own user has asked for
(`chat_confidential`), and nothing is shown more often than it was said
(`chat_shown_le_said`).
-/

namespace Rrc

open Threads Transition

/-! ## The system -/

structure Network (n : Nat) where
  hub : HubConf
  client : Fin n → ClientConf
  /-- The packets on their way from each client to the hub. -/
  up : Fin n → List Envelope
  /-- The packets on their way to each client. -/
  down : Fin n → List Envelope

inductive NetEvent (n : Nat) where
  /-- A goroutine of client `k` takes a step, or its user or link does something. -/
  | client (k : Fin n) (e : Event ClientChoice ClientEvent)
  | hub (e : Event HubChoice HubEvent)
  /-- A packet arrives. -/
  | toHub (k : Fin n) (m : Nat)
  | toClient (k : Fin n) (m : Nat)
  /-- A packet is lost. -/
  | loseUp (k : Fin n) (m : Nat)
  | loseDown (k : Fin n) (m : Nat)

/-- Packets reach a client from the network only. -/
def clientOwn : Event ClientChoice ClientEvent → Bool
  | .env (.packet _) => false
  | _ => true

section

variable {n : Nat} (text : GoText) (ccfg : Fin n → ClientConfig) (hcfg : HubConfig)

/-- Strangers send what they like, and prove identities of their own. -/
def hubOwn : Event HubChoice HubEvent → Bool
  | .env (.packet j _) => n ≤ j
  | .env (.identify j hash) =>
    if h : j < n then hash = (ccfg ⟨j, h⟩).sender else ∀ k, hash ≠ (ccfg k).sender
  | _ => true

def Network.clientStep (N : Network n) (k : Fin n) (e : Event ClientChoice ClientEvent) :
    Option (Network n) :=
  (Rrc.clientStep text (ccfg k) (N.client k) e).map fun c =>
    { N with
      client := Function.update N.client k c
      up := Function.update N.up k
        (N.up k ++ c.shared.sent.drop (N.client k).shared.sent.length) }

def Network.hubStep (N : Network n) (e : Event HubChoice HubEvent) : Option (Network n) :=
  (Rrc.hubStep text hcfg N.hub e).map fun c =>
    { N with
      hub := c
      down := fun k => N.down k ++ sentOn k (c.shared.sent.drop N.hub.shared.sent.length) }

def Network.takeUp (N : Network n) (k : Fin n) (m : Nat) : Network n :=
  { N with up := Function.update N.up k ((N.up k).eraseIdx m) }

def Network.takeDown (N : Network n) (k : Fin n) (m : Nat) : Network n :=
  { N with down := Function.update N.down k ((N.down k).eraseIdx m) }

def netStep (N : Network n) : NetEvent n → Option (Network n)
  | .client k e => if clientOwn e then N.clientStep text ccfg k e else none
  | .hub e => if hubOwn ccfg e then N.hubStep text hcfg e else none
  | .toHub k m =>
    (N.up k)[m]?.bind fun env =>
      (N.takeUp k m).hubStep text hcfg (.env (.packet k (some env.received)))
  | .toClient k m =>
    (N.down k)[m]?.bind fun env =>
      (N.takeDown k m).clientStep text ccfg k (.env (.packet (some env.received)))
  | .loseUp k m => some (N.takeUp k m)
  | .loseDown k m => some (N.takeDown k m)

/-- Every client has begun to dial. -/
def netInit : Network n := ⟨hubInit, fun k => clientInit text (ccfg k), fun _ => [], fun _ => []⟩

end

/-! ## The runs of the parties -/

/-- An envelope of interest arrives on link `k`. -/
def packetOn (k : Nat) (q : Envelope → Bool) : HubEvent → Bool :=
  packetWanted fun j env => j = k && q env

/-- A stranger sends something of interest. -/
def fromStranger (n : Nat) (q : Nat → Envelope → Bool) : HubEvent → Bool :=
  packetWanted fun j env => n ≤ j && q j env

def isRequest (w : ClientRequest → Bool) : ClientEvent → Bool
  | .request q => w q
  | _ => false

def NetEvent.requestAt {n : Nat} (k : Fin n) (w : ClientRequest → Bool) : NetEvent n → Bool
  | .client l e => l = k && e.brings (isRequest w)
  | _ => false

def NetEvent.fromStranger {n : Nat} (q : Nat → Envelope → Bool) : NetEvent n → Bool
  | .hub e => e.brings (Rrc.fromStranger n q)
  | _ => false

variable {n : Nat} {text : GoText} {ccfg : Fin n → ClientConfig} {hcfg : HubConfig}
  {N N' : Network n} {es : List (NetEvent n)} {k : Fin n}

/-- A run of the network is a run of the hub and one of each client. What has arrived at
one end and what is in flight has been sent at the other. -/
structure Projects (text : GoText) (ccfg : Fin n → ClientConfig) (hcfg : HubConfig)
    (es : List (NetEvent n)) (N : Network n) (hs : List (Event HubChoice HubEvent))
    (cs : Fin n → List (Event ClientChoice ClientEvent)) : Prop where
  hub : run (Rrc.hubStep text hcfg) hubInit hs = some N.hub
  client : ∀ k, run (Rrc.clientStep text (ccfg k)) (clientInit text (ccfg k)) (cs k) =
    some (N.client k)
  up : ∀ (k : Fin n) (q : Envelope → Bool),
    hs.countP (Event.brings (packetOn k q)) + (N.up k).countP (fun e => q e.received) ≤
      (N.client k).shared.sent.countP fun e => q e.received
  down : ∀ (k : Fin n) (q : Envelope → Bool),
    (cs k).countP (Event.brings (bringsEnvelope q)) + (N.down k).countP (fun e => q e.received) ≤
      (sentOn k N.hub.shared.sent).countP fun e => q e.received
  strangers : ∀ q, hs.countP (Event.brings (fromStranger n q)) ≤ es.countP (NetEvent.fromStranger q)
  requests : ∀ k w, (cs k).countP (Event.brings (isRequest w)) ≤ es.countP (NetEvent.requestAt k w)
  identities : ∀ j hash, .env (.identify j hash) ∈ hs → hubOwn ccfg (.env (.identify j hash)) = true

theorem hubStep_sent {c c' : HubConf} {e : Event HubChoice HubEvent}
    (h : Rrc.hubStep text hcfg c e = some c') :
    c'.shared.sent = c.shared.sent ++ c'.shared.sent.drop c.shared.sent.length := by
  have hprefix : ∃ new, c'.shared.sent = c.shared.sent ++ new := by
    cases Program.steps_of_step h with
    | run hthread hact =>
      obtain heq | ⟨j, m, env, -, -, heq⟩ | ⟨j, env, -, heq⟩ := (hubAct_outcome hact).sent
      · exact ⟨[], by rw [heq, List.append_nil]⟩
      · exact ⟨_, heq⟩
      · exact ⟨_, heq⟩
    | env henv => exact ⟨[], by rw [(hubEnv_outputs henv).1, List.append_nil]⟩
  obtain ⟨new, hnew⟩ := hprefix
  rw [hnew, List.drop_left]

theorem clientStep_sent {cfg : ClientConfig} {c c' : ClientConf} {e : Event ClientChoice ClientEvent}
    (h : Rrc.clientStep text cfg c e = some c') :
    c'.shared.sent = c.shared.sent ++ c'.shared.sent.drop c.shared.sent.length := by
  have hprefix : ∃ new, c'.shared.sent = c.shared.sent ++ new := by
    cases Program.steps_of_step h with
    | run hthread hact =>
      obtain heq | ⟨env, heq, -⟩ := clientAct_sent hact
      · exact ⟨[], by rw [heq, List.append_nil]⟩
      · exact ⟨_, heq⟩
    | env henv => exact ⟨[], by rw [clientEnv_sent henv, List.append_nil]⟩
  obtain ⟨new, hnew⟩ := hprefix
  rw [hnew, List.drop_left]

theorem sentOn_append (i : Nat) (sent new : List (Nat × Envelope)) :
    sentOn i (sent ++ new) = sentOn i sent ++ sentOn i new := List.filterMap_append

/-- A packet is taken from the network. -/
theorem countP_take_le (f : Fin n → List Envelope) (k : Fin n) (m : Nat) (l : Fin n) (q : Envelope → Bool) :
    (Function.update f k ((f k).eraseIdx m) l).countP q ≤ (f l).countP q := by
  by_cases hl : l = k
  · subst hl
    rw [Function.update_self]
    exact (List.eraseIdx_sublist (f l) m).countP_le
  · rw [Function.update_of_ne hl]

section Steps

variable {hs : List (Event HubChoice HubEvent)} {cs : Fin n → List (Event ClientChoice ClientEvent)}
  {ev : NetEvent n}

/-- A client takes a step, after a packet for it may have been taken from the network. -/
theorem Projects.client_step {e : Event ClientChoice ClientEvent}
    (h : Projects text ccfg hcfg es N hs cs) (down : Fin n → List Envelope)
    (hdown : ∀ q, [e].countP (Event.brings (bringsEnvelope q)) + (down k).countP (fun e => q e.received) ≤
      (N.down k).countP fun e => q e.received)
    (hother : ∀ l, l ≠ k → down l = N.down l)
    (hrequest : ∀ w, [e].countP (Event.brings (isRequest w)) ≤ [ev].countP (NetEvent.requestAt k w))
    (hstep : ({ N with down }).clientStep text ccfg k e = some N') :
    Projects text ccfg hcfg (es ++ [ev]) N' hs (Function.update cs k (cs k ++ [e])) := by
  obtain ⟨c, hc, rfl⟩ := Option.map_eq_some_iff.mp hstep
  have hsent : c.shared.sent = (N.client k).shared.sent ++
      c.shared.sent.drop (N.client k).shared.sent.length := clientStep_sent hc
  refine ⟨h.hub, fun l => ?_, fun l q => ?_, fun l q => ?_, fun q => ?_, fun l w => ?_, h.identities⟩
  · by_cases hl : l = k
    · subst hl
      simp only [Function.update_self]
      exact run_snoc (h.client l) hc
    · simp only [Function.update_of_ne hl]
      exact h.client l
  · have hle := h.up l q
    by_cases hl : l = k
    · subst hl
      have hcount := congrArg (List.countP fun e => q e.received) hsent
      simp only [Function.update_self, List.countP_append] at hcount ⊢
      omega
    · simpa only [Function.update_of_ne hl] using hle
  · have hle := h.down l q
    by_cases hl : l = k
    · subst hl
      have hq := hdown q
      simp only [Function.update_self, List.countP_append]
      omega
    · simpa only [Function.update_of_ne hl, hother l hl] using hle
  · rw [List.countP_append]
    exact (h.strangers q).trans (Nat.le_add_right _ _)
  · have hle := h.requests l w
    rw [List.countP_append]
    by_cases hl : l = k
    · subst hl
      have hw := hrequest w
      simp only [Function.update_self, List.countP_append]
      omega
    · simp only [Function.update_of_ne hl]
      exact hle.trans (Nat.le_add_right _ _)

/-- The hub takes a step, after a packet for it may have been taken from the network. -/
theorem Projects.hub_step {e : Event HubChoice HubEvent}
    (h : Projects text ccfg hcfg es N hs cs) (up : Fin n → List Envelope)
    (hup : ∀ (l : Fin n) q, [e].countP (Event.brings (packetOn l q)) + (up l).countP (fun e => q e.received) ≤
      (N.up l).countP fun e => q e.received)
    (hstranger : ∀ q, [e].countP (Event.brings (fromStranger n q)) ≤ [ev].countP (NetEvent.fromStranger q))
    (hidentity : ∀ j hash, e = .env (.identify j hash) → hubOwn ccfg e = true)
    (hstep : ({ N with up }).hubStep text hcfg e = some N') :
    Projects text ccfg hcfg (es ++ [ev]) N' (hs ++ [e]) cs := by
  obtain ⟨c, hc, rfl⟩ := Option.map_eq_some_iff.mp hstep
  have hsent : c.shared.sent = N.hub.shared.sent ++ c.shared.sent.drop N.hub.shared.sent.length :=
    hubStep_sent hc
  refine ⟨run_snoc h.hub hc, h.client, fun l q => ?_, fun l q => ?_, fun q => ?_, fun l w => ?_,
    fun j hash hmem => ?_⟩
  · have hle := h.up l q
    have hq := hup l q
    simp only [List.countP_append]
    omega
  · have hle := h.down l q
    have hcount := congrArg (fun sent => (sentOn l sent).countP fun e => q e.received) hsent
    simp only [sentOn_append, List.countP_append] at hcount ⊢
    omega
  · have hle := h.strangers q
    have hq := hstranger q
    simp only [List.countP_append]
    omega
  · rw [List.countP_append]
    exact (h.requests l w).trans (Nat.le_add_right _ _)
  · obtain hmem | hmem := List.mem_append.mp hmem
    · exact h.identities j hash hmem
    · have heq := (List.mem_singleton.mp hmem).symm
      exact heq ▸ hidentity j hash heq

/-- Packets are lost. -/
theorem Projects.lose (h : Projects text ccfg hcfg es N hs cs) (up down : Fin n → List Envelope)
    (hup : ∀ l (q : Envelope → Bool), (up l).countP q ≤ (N.up l).countP q)
    (hdown : ∀ l (q : Envelope → Bool), (down l).countP q ≤ (N.down l).countP q) :
    Projects text ccfg hcfg (es ++ [ev]) { N with up, down } hs cs := by
  refine ⟨h.hub, h.client, fun l q => ?_, fun l q => ?_, fun q => ?_, fun l w => ?_, h.identities⟩
  · exact (Nat.add_le_add_left (hup l _) _).trans (h.up l q)
  · exact (Nat.add_le_add_left (hdown l _) _).trans (h.down l q)
  · rw [List.countP_append]
    exact (h.strangers q).trans (Nat.le_add_right _ _)
  · rw [List.countP_append]
    exact (h.requests l w).trans (Nat.le_add_right _ _)

theorem deliver_up {m : Nat} {env : Envelope} (henv : (N.up k)[m]? = some env) (l : Fin n)
    (q : Envelope → Bool) :
    ([.env (.packet k (some env.received))] : List (Event HubChoice HubEvent)).countP
          (Event.brings (packetOn l q)) +
        (Function.update N.up k ((N.up k).eraseIdx m) l).countP (fun e => q e.received) ≤
      (N.up l).countP fun e => q e.received := by
  by_cases hl : l = k
  · subst hl
    have hcount := countP_eraseIdx (p := fun e => q e.received) henv
    have hq : (Event.env (.packet l (some env.received)) : Event HubChoice HubEvent).brings
        (packetOn l q) = q env.received := by
      simp [Event.brings, packetOn, packetWanted]
    rw [List.countP_singleton, hq, Function.update_self]
    rw [List.countP_singleton] at hcount
    omega
  · have hne : ((k : Nat) = l) = False := by simpa [Fin.ext_iff, eq_comm] using hl
    simp [Function.update_of_ne hl, Event.brings, packetOn, packetWanted, hne]

theorem deliver_down {m : Nat} {env : Envelope} (henv : (N.down k)[m]? = some env)
    (q : Envelope → Bool) :
    ([.env (.packet (some env.received))] : List (Event ClientChoice ClientEvent)).countP
          (Event.brings (bringsEnvelope q)) +
        (Function.update N.down k ((N.down k).eraseIdx m) k).countP (fun e => q e.received) ≤
      (N.down k).countP fun e => q e.received := by
  have hcount := countP_eraseIdx (p := fun e => q e.received) henv
  have hq : (Event.env (.packet (some env.received)) : Event ClientChoice ClientEvent).brings
      (bringsEnvelope q) = q env.received := rfl
  rw [List.countP_singleton, hq, Function.update_self]
  rw [List.countP_singleton] at hcount
  omega

/-- Every step of the network is one of its parties', or of none. -/
theorem Projects.step (h : Projects text ccfg hcfg es N hs cs)
    (hstep : netStep text ccfg hcfg N ev = some N') :
    ∃ hs' cs', Projects text ccfg hcfg (es ++ [ev]) N' hs' cs' := by
  cases ev with
  | client k e =>
    simp only [netStep] at hstep
    split at hstep
    · rename_i hown
      refine ⟨hs, _, h.client_step N.down (fun q => ?_) (fun _ _ => rfl) (fun w => ?_) hstep⟩
      · have hnone : [e].countP (Event.brings (bringsEnvelope q)) = 0 := by
          refine countP_eq_zero fun e' he' => ?_
          rw [List.mem_singleton.mp he']
          cases e with
          | run t x => rfl
          | env e =>
            cases e with
            | packet data => cases hown
            | _ => rfl
        omega
      · simp [NetEvent.requestAt, List.countP_singleton]
    · cases hstep
  | hub e =>
    simp only [netStep] at hstep
    split at hstep
    · rename_i hown
      refine ⟨_, cs, h.hub_step N.up (fun l q => ?_) (fun q => Nat.le_refl _)
        (fun _ _ _ => hown) hstep⟩
      have hnone : [e].countP (Event.brings (packetOn l q)) = 0 := by
        refine countP_eq_zero fun e' he' => ?_
        rw [List.mem_singleton.mp he']
        cases e with
        | run t x => rfl
        | env e =>
          cases e with
          | packet j data =>
            have hj : n ≤ j := by simpa [hubOwn] using hown
            cases data with
            | none => rfl
            | some env =>
              have hne : j ≠ l := by omega
              simp [Event.brings, packetOn, packetWanted, hne]
          | _ => rfl
      omega
    · cases hstep
  | toHub k m =>
    obtain ⟨env, henv, hstep⟩ := Option.bind_eq_some_iff.mp hstep
    refine ⟨_, cs, h.hub_step _ (fun l q => deliver_up henv l q) (fun q => ?_) (by simp) hstep⟩
    simp [Event.brings, fromStranger, packetWanted]
  | toClient k m =>
    obtain ⟨env, henv, hstep⟩ := Option.bind_eq_some_iff.mp hstep
    refine ⟨hs, _, h.client_step _ (deliver_down henv) (fun l hl => Function.update_of_ne hl _ _)
      (fun w => ?_) hstep⟩
    simp [Event.brings, isRequest]
  | loseUp k m =>
    cases hstep
    exact ⟨hs, cs, h.lose _ N.down (countP_take_le N.up k m) fun _ _ => Nat.le_refl _⟩
  | loseDown k m =>
    cases hstep
    exact ⟨hs, cs, h.lose N.up _ (fun _ _ => Nat.le_refl _) (countP_take_le N.down k m)⟩

theorem projects_of_run (hrun : run (netStep text ccfg hcfg) (netInit text ccfg) es = some N) :
    ∃ hs cs, Projects text ccfg hcfg es N hs cs := by
  refine run_history (fun es N => ∃ hs cs, Projects text ccfg hcfg es N hs cs) ?_ ?_ hrun
  · refine ⟨[], fun _ => [], rfl, fun _ => rfl, ?_, ?_, ?_, ?_, ?_⟩ <;> simp [netInit]
  · rintro es N e N' ⟨hs, cs, h⟩ hstep
    exact h.step hstep

end Steps

/-! ## Authenticity -/

section Authenticity

variable {hs : List (Event HubChoice HubEvent)} {cs : Fin n → List (Event ClientChoice ClientEvent)}
  {env : Envelope}

open Classical in
/-- What reaches a client has been sent by the hub on its link. -/
theorem Projects.arrived (h : Projects text ccfg hcfg es N hs cs) (henv : ArrivedIn (cs k) env) :
    ∃ fwd, ((k : Nat), fwd) ∈ N.hub.shared.sent ∧ env = fwd.received := by
  have hpos : 0 < (cs k).countP (Event.brings (bringsEnvelope fun e => e = env)) :=
    List.countP_pos_iff.mpr ⟨_, henv, by simp [Event.brings, bringsEnvelope]⟩
  have hsent : 0 < (sentOn k N.hub.shared.sent).countP fun e => decide (e.received = env) :=
    hpos.trans_le ((Nat.le_add_right _ _).trans (h.down k fun e => e = env))
  obtain ⟨fwd, hfwd, heq⟩ := List.countP_pos_iff.mp hsent
  obtain ⟨⟨j, fwd'⟩, hmem, hsome⟩ := List.mem_filterMap.mp hfwd
  split at hsome
  · rename_i hj
    obtain rfl : fwd' = fwd := Option.some.inj hsome
    exact ⟨fwd', hj ▸ hmem, (of_decide_eq_true heq).symm⟩
  · cases hsome

open Classical in
/-- What reaches the hub on the link of a client has been sent by it. -/
theorem Projects.received (h : Projects text ccfg hcfg es N hs cs) (henv : ReceivedIn hs k env) :
    ∃ e ∈ (N.client k).shared.sent, env = e.received := by
  have hpos : 0 < hs.countP (Event.brings (packetOn k fun e => e = env)) :=
    List.countP_pos_iff.mpr ⟨_, henv, by simp [Event.brings, packetOn, packetWanted]⟩
  have hsent : 0 < (N.client k).shared.sent.countP fun e => decide (e.received = env) :=
    hpos.trans_le ((Nat.le_add_right _ _).trans (h.up k fun e => e = env))
  obtain ⟨e, he, heq⟩ := List.countP_pos_iff.mp hsent
  exact ⟨e, he, (of_decide_eq_true heq).symm⟩

open Classical in
theorem Projects.requested (h : Projects text ccfg hcfg es N hs cs) {q : ClientRequest}
    (hq : RequestedIn (cs k) q) : .client k (.env (.request q)) ∈ es := by
  have hpos : 0 < (cs k).countP (Event.brings (isRequest fun q' => q' = q)) :=
    List.countP_pos_iff.mpr ⟨_, hq, by simp [Event.brings, isRequest]⟩
  obtain ⟨ev, hev, hreq⟩ := List.countP_pos_iff.mp (hpos.trans_le (h.requests k _))
  cases ev with
  | client l e =>
    simp only [NetEvent.requestAt, Bool.and_eq_true, decide_eq_true_eq] at hreq
    obtain ⟨rfl, hreq⟩ := hreq
    cases e with
    | run t x => cases hreq
    | env e =>
      cases e with
      | request q' =>
        have heq : q' = q := of_decide_eq_true hreq
        rwa [heq] at hev
      | _ => cases hreq
  | _ => cases hreq

/-- An identity that a client uses is proved on links of clients only. -/
theorem Projects.proved (h : Projects text ccfg hcfg es N hs cs) {j : Nat}
    (hproved : ProvedIn hs j (ccfg k).sender) :
    ∃ l : Fin n, (l : Nat) = j ∧ (ccfg l).sender = (ccfg k).sender := by
  have hown := h.identities j _ hproved.2
  simp only [hubOwn] at hown
  split at hown
  · rename_i hj
    exact ⟨⟨j, hj⟩, rfl, (of_decide_eq_true hown).symm⟩
  · exact absurd rfl (of_decide_eq_true hown k)

theorem Envelope.Says.received {sender room : Bytes} {msgType : Nat} {body : CborValue} {e : Envelope}
    (h : e.Says sender msgType room body) : e.received.Says sender msgType room body := by
  refine ⟨h.sender, h.type, ⟨?_, h.room.2⟩, ⟨?_, h.body.2⟩⟩
  · simp only [Envelope.received]
    split
    · exact h.room.1
    · rename_i hroom
      exact (not_not.mp (mt h.room.2.mpr hroom)).symm
  · simp only [Envelope.received]
    split
    · exact h.body.1
    · rename_i hbody
      rw [h.body.2, Bool.not_eq_true, Bool.not_eq_false'] at hbody
      exact (eq_nil_of_isNil hbody).symm

/-- What reaches the hub on the link of a client, and neither greets nor answers a PING, was
asked for by the client's user. -/
theorem Projects.asked (h : Projects text ccfg hcfg es N hs cs) (henv : ReceivedIn hs k env)
    (hhello : env.type ≠ typeHello) (hpong : env.type ≠ typePong) :
    ∃ q, .client k (.env (.request q)) ∈ es ∧ q.Sends text (ccfg k) env := by
  obtain ⟨e, he, rfl⟩ := h.received henv
  cases (clientHistory_of_run (h.client k)).sent e he with
  | hello hsays => exact absurd hsays.type hhello
  | pong _ _ hsays => exact absurd hsays.type hpong
  | @request q hrequested _ _ hsends => exact ⟨q, h.requested hrequested, hsends.received⟩

theorem Envelope.isChat_iff :
    env.isChat = true ↔ env.type = typeMsg ∨ env.type = typeNotice ∨ env.type = typeAction := by
  simp [Envelope.isChat]

/-- Chat is what the user sends with `SendMsg`, `SendNotice` and `SendAction`. -/
theorem ClientRequest.Sends.content {q : ClientRequest} {cfg : ClientConfig}
    (h : q.Sends text cfg env) (hchat : env.isChat = true) :
    ∃ room body, q = .content env.type room body ∧ env.room = normalizeRoom text room ∧
      env.body = .text body ∧ env.hasBody = true := by
  have htype := Envelope.isChat_iff.mp hchat
  rw [h.type] at htype
  cases q with
  | content msgType room body =>
    refine ⟨room, body, ?_, h.room.1, h.body.1, h.body.2⟩
    rw [h.type]
    rfl
  | join room | part room | ping body =>
    simp [ClientRequest.fields, typeJoin, typePart, typePing, typeMsg, typeNotice, typeAction] at htype

theorem Stamped.received {sender nick room : Bytes} {fwd : Envelope}
    (h : Stamped sender nick room env fwd) :
    fwd.received.room = room ∧ (env.hasBody = true → fwd.received.body = env.body) := by
  refine ⟨?_, fun hbody => ?_⟩
  · simp only [Envelope.received, h.room.2, if_true]
    exact h.room.1
  · simp only [Envelope.received, h.body.1, hbody, if_true]
    exact h.body.2 hbody

/-- Chat that a client shows under the name of a client was said by the user of a client of
that name, on another link and in a room that this user had asked for. -/
theorem chat_authentic {i : Fin n}
    (hrun : run (netStep text ccfg hcfg) (netInit text ccfg) es = some N)
    (hshown : .onEnvelope env ∈ (N.client k).shared.calls) (hchat : env.isChat = true)
    (hsender : env.sender = (ccfg i).sender) :
    ∃ l : Fin n, l ≠ k ∧ (ccfg l).sender = env.sender ∧
      (∃ room body, .client l (.env (.request (.content env.type room body))) ∈ es ∧
        env.room = normalizeRoom text (normalizeRoom text room) ∧ env.body = .text body) ∧
      ∃ q : ClientRequest, .client l (.env (.request q)) ∈ es ∧ (q.fields text).1 = typeJoin ∧
        normalizeRoom text (q.fields text).2.1 = env.room := by
  obtain ⟨hs, cs, h⟩ := projects_of_run hrun
  obtain ⟨fwd, hsent, rfl⟩ := h.arrived ((clientHistory_of_run (h.client k)).shown env hshown)
  have htraced : Traced text hcfg hs k fwd := (historyKept_of_run h.hub).sent _ hsent hchat
  obtain ⟨j, said, hne, hreceived, hsaidchat, -, hproved, ⟨ask, hask, hasktype, haskroom⟩, -, hstamped⟩ :=
    htraced.origin
  -- the name is proved on the link of a client
  have hname : fwd.sender = (ccfg i).sender := hsender
  obtain ⟨l, rfl, hl⟩ := h.proved (hname ▸ hproved)
  refine ⟨l, fun heq => hne (heq ▸ rfl), hl.trans hname.symm, ?_, ?_⟩
  · -- the user's request made the envelope that the hub stamped
    have htype := Envelope.isChat_iff.mp hsaidchat
    obtain ⟨q, hq, hsends⟩ := h.asked hreceived
      (fun heq => by rw [heq] at htype; revert htype; decide)
      (fun heq => by rw [heq] at htype; revert htype; decide)
    obtain ⟨room, body, rfl, hroom, hbody, hhas⟩ := hsends.content hsaidchat
    refine ⟨room, body, ?_, ?_, ?_⟩
    · have heq : fwd.received.type = said.type := hstamped.type
      rwa [heq]
    · rw [← hroom]
      exact hstamped.received.1
    · rw [← hbody]
      exact hstamped.received.2 hhas
  · obtain ⟨q, hq, hsends⟩ := h.asked hask (fun heq => by rw [hasktype] at heq; cases heq)
      (fun heq => by rw [hasktype] at heq; cases heq)
    refine ⟨q, hq, hsends.type.symm.trans hasktype, ?_⟩
    rw [← hsends.room.1, haskroom]
    exact hstamped.received.1.symm

-- Two clients in a room.

def samplePair : Fin 2 → ClientConfig := ![sampleClient, { sender := otherIdentity }]

def onHub (es : List (Event HubChoice HubEvent)) : List (NetEvent 2) := es.map .hub

def onClient (k : Fin 2) (es : List (Event ClientChoice ClientEvent)) : List (NetEvent 2) :=
  es.map (.client k)

/-- Client `k` dials; the hub's goroutines for it begin with `t`. -/
def sampleArrival (k : Fin 2) (t : Nat) : List (NetEvent 2) :=
  onClient k ([.env .established] ++ clientTurns 0 6) ++
  onHub ([.env .established] ++ turns t 5 ++ [.env (.identify k (samplePair k).sender)] ++
    turns (t + 1) 7) ++
  [.toHub k 0] ++ onHub (turns (t + 2) 1 ++ turns (t + 3) 7) ++
  [.toClient k 0] ++ onClient k (clientTurns 1 3 ++ clientTurns 0 4)

/-- Client `k` joins the room. -/
def sampleEntry (k : Fin 2) (t : Nat) : List (NetEvent 2) :=
  onClient k ([.env (.request (.join sampleRoom))] ++ clientTurns 2 2) ++
  [.toHub k 0] ++ onHub (turns t 1 ++ turns (t + 1) 7) ++
  [.toClient k 0] ++ onClient k (clientTurns 3 4)

/-- Both come to the room, and the first says something. -/
def sampleConversation : List (NetEvent 2) :=
  sampleArrival 0 0 ++ sampleArrival 1 4 ++ sampleEntry 0 8 ++ sampleEntry 1 10 ++
  onClient 0 ([.env (.request (.content typeMsg sampleRoom [104, 105]))] ++ clientTurns 4 3) ++
  [.toHub 0 0] ++
  onHub (turns 12 1 ++ turns 13 5 ++
    [.run 13 { fresh := some (List.replicate 8 1, 0), order := [1] }] ++ turns 13 2) ++
  [.toClient 1 0] ++ onClient 1 (clientTurns 4 3)

theorem sample_chat_authentic :
    ∃ N env, run (netStep .ascii samplePair sampleHub) (netInit .ascii samplePair) sampleConversation =
        some N ∧
      .onEnvelope env ∈ (N.client 1).shared.calls ∧ env.isChat = true ∧
      env.sender = (samplePair 0).sender ∧
      ∃ l : Fin 2, l ≠ 1 ∧ (samplePair l).sender = env.sender := by
  have hend : (run (netStep .ascii samplePair sampleHub) (netInit .ascii samplePair)
      sampleConversation).map (fun N => (N.client 1).shared.calls.any (ClientCall.shows fun env =>
        env.isChat && env.sender = (samplePair 0).sender)) = some true := by
    decide +kernel
  obtain ⟨N, hrun, heq⟩ := Option.map_eq_some_iff.mp hend
  obtain ⟨call, hcall, hshows⟩ := List.any_eq_true.mp heq
  cases call with
  | onEnvelope env =>
    obtain ⟨hchat, hsender⟩ := Bool.and_eq_true_iff.mp hshows
    have hsender := of_decide_eq_true hsender
    obtain ⟨l, hl, hname, -, -⟩ := chat_authentic hrun hcall hchat hsender
    exact ⟨N, env, hrun, hcall, hchat, hsender, l, hl, hname⟩
  | _ => cases hshows

/-- Chat that a client shows comes from a room that its user has asked for, or that of
another client of the same name. -/
theorem chat_confidential (hrun : run (netStep text ccfg hcfg) (netInit text ccfg) es = some N)
    (hshown : .onEnvelope env ∈ (N.client k).shared.calls) (hchat : env.isChat = true) :
    ∃ (l : Fin n) (q : ClientRequest), (ccfg l).sender = (ccfg k).sender ∧
      .client l (.env (.request q)) ∈ es ∧ (q.fields text).1 = typeJoin ∧
      normalizeRoom text (q.fields text).2.1 = env.room := by
  obtain ⟨hs, cs, h⟩ := projects_of_run hrun
  obtain ⟨fwd, hsent, rfl⟩ := h.arrived ((clientHistory_of_run (h.client k)).shown env hshown)
  have htraced : Traced text hcfg hs k fwd := (historyKept_of_run h.hub).sent _ hsent hchat
  obtain ⟨-, said, -, -, -, -, -, -, -, hstamped⟩ := htraced.origin
  obtain ⟨key, -, hproved, -, j, hasked, ask, hask, hasktype, haskroom⟩ := htraced.audience
  -- what is proved on the link of a client is its own name
  obtain rfl : key = (ccfg k).sender := by
    have hown := h.identities k key hproved.2
    simpa [hubOwn] using hown
  obtain ⟨l, rfl, hl⟩ := h.proved hasked
  obtain ⟨q, hq, hsends⟩ := h.asked hask (fun heq => by rw [hasktype] at heq; cases heq)
    (fun heq => by rw [hasktype] at heq; cases heq)
  refine ⟨l, q, hl, hq, hsends.type.symm.trans hasktype, ?_⟩
  rw [← hsends.room.1, haskroom, hstamped.room.1]
  exact hstamped.received.1.symm

theorem sample_chat_confidential :
    ∃ N env, run (netStep .ascii samplePair sampleHub) (netInit .ascii samplePair) sampleConversation =
        some N ∧
      .onEnvelope env ∈ (N.client 1).shared.calls ∧ env.isChat = true ∧
      ∃ (l : Fin 2) (q : ClientRequest), (samplePair l).sender = otherIdentity ∧
        .client l (.env (.request q)) ∈ sampleConversation ∧ (q.fields .ascii).1 = typeJoin := by
  have hend : (run (netStep .ascii samplePair sampleHub) (netInit .ascii samplePair)
      sampleConversation).map (fun N => (N.client 1).shared.calls.any (ClientCall.shows Envelope.isChat)) =
        some true := by
    decide +kernel
  obtain ⟨N, hrun, heq⟩ := Option.map_eq_some_iff.mp hend
  obtain ⟨call, hcall, hchat⟩ := List.any_eq_true.mp heq
  cases call with
  | onEnvelope env =>
    obtain ⟨l, q, hl, hq, hjoin, -⟩ := chat_confidential (k := 1) hrun hcall hchat
    exact ⟨N, env, hrun, hcall, hchat, l, q, hl, hq, hjoin⟩
  | _ => cases hchat

end Authenticity

/-! ## How often chat is shown -/

def Envelope.isChatOf (κ : Kind) (env : Envelope) : Bool := env.isChat && env.isOf κ

/-- What has to be sent for chat of the kind to go out: the hub normalises the room. -/
def Kind.sentAs (text : GoText) (κ : Kind) : Kind := fun msgType room body =>
  (msgType = typeMsg ∨ msgType = typeNotice ∨ msgType = typeAction) &&
    κ msgType (normalizeRoom text room) body

/-- The messages with which the hub relays the kind. -/
def Kind.message (κ : Kind) (m : Message) : Bool := κ m.type m.room (m.body.getD .nil)

section Count

variable {hs : List (Event HubChoice HubEvent)} {cs : Fin n → List (Event ClientChoice ClientEvent)}
  {env : Envelope} {κ : Kind}

theorem countP_le_sum {α ι : Type} (s : Finset ι) (l : List α) {p g : α → Bool} {f : ι → α → Bool}
    (h : ∀ a, p a = true → (∃ i ∈ s, f i a = true) ∨ g a = true) :
    l.countP p ≤ ∑ i ∈ s, l.countP (f i) + l.countP g := by
  induction l with
  | nil => simp
  | cons a l ih =>
    simp only [List.countP_cons, Finset.sum_add_distrib]
    suffices hone : (if p a = true then 1 else 0) ≤
        (∑ i ∈ s, if f i a = true then 1 else 0) + if g a = true then 1 else 0 by omega
    split
    · rename_i hp
      obtain ⟨i, hi, hf⟩ | hg := h a hp
      · have hle := Finset.single_le_sum (f := fun i => if f i a = true then 1 else 0)
          (fun _ _ => Nat.zero_le _) hi
        rw [if_pos hf] at hle
        exact hle.trans (Nat.le_add_right _ _)
      · rw [if_pos hg]
        exact Nat.le_add_left _ _
    · exact Nat.zero_le _

/-- What has gone out on a session is what the hub relayed. -/
theorem Projects.sentOn_le (h : Projects text ccfg hcfg es N hs cs) :
    (sentOn k N.hub.shared.sent).countP (fun e => e.received.isChatOf κ) ≤
      N.hub.shared.sent.countP (reaches κ.message k) := by
  rw [sentOn, List.countP_filterMap]
  refine List.countP_mono_left fun m hm hchat => ?_
  obtain ⟨j, fwd⟩ := m
  by_cases hj : j = k
  · rw [if_pos hj] at hchat
    obtain ⟨hchat, hkind⟩ := Bool.and_eq_true_iff.mp hchat
    obtain ⟨-, env, -, -, -, -, -, -, -, hstamped⟩ :=
      ((historyKept_of_run h.hub).sent _ hm hchat).origin
    have hroom : fwd.hasRoom = true := hstamped.room.2
    have hbody : (if fwd.hasBody = true then some fwd.body else none).getD .nil =
        if fwd.hasBody = true then fwd.body else .nil := by
      split <;> rfl
    have hreaches : reaches κ.message k (j, fwd) =
        (decide (j = k) && fwd.isChat && fwd.received.isOf κ) := by
      simp only [reaches, Kind.message, Envelope.message, Envelope.isOf, Envelope.received, hroom,
        if_true, hbody]
    rw [hreaches, hkind, decide_eq_true hj, Bool.true_and, Bool.and_true]
    exact hchat
  · rw [if_neg hj] at hchat
    cases hchat

/-- What a client has sent, as the hub sees it. -/
theorem Envelope.Says.chats_eq {sender room : Bytes} {msgType : Nat} {body : CborValue}
    (h : env.Says sender msgType room body) : env.chats text κ.message = κ.sentAs text msgType room body := by
  have hbody : (if env.hasBody = true then some env.body else none).getD .nil = body := by
    rw [h.body.2, h.body.1]
    cases hnil : isNil body with
    | true => exact (eq_nil_of_isNil hnil).symm
    | false => rfl
  simp only [Envelope.chats, Kind.message, Kind.sentAs, Envelope.message, Envelope.isChat, h.type,
    h.room.1, hbody]

theorem ClientSaid.exists_fields {cfg : ClientConfig} {es : List (Event ClientChoice ClientEvent)}
    (h : ClientSaid text cfg es env) : ∃ msgType room body, env.Says cfg.sender msgType room body := by
  cases h with
  | hello h | pong _ _ h | request _ _ _ h => exact ⟨_, _, _, h⟩

theorem Kind.sentAs_other {msgType : Nat} {room : Bytes} {body : CborValue} (hmsg : msgType ≠ typeMsg)
    (hnotice : msgType ≠ typeNotice) (haction : msgType ≠ typeAction) :
    κ.sentAs text msgType room body = false := by
  simp [Kind.sentAs, hmsg, hnotice, haction]

/-- What reaches the hub from a client was asked for by its user. -/
theorem Projects.packetOn_le (h : Projects text ccfg hcfg es N hs cs) (l : Fin n) :
    hs.countP (Event.brings (packetOn l (Envelope.chats text κ.message))) ≤
      es.countP (NetEvent.requestAt l (ClientRequest.asks text (κ.sentAs text))) := by
  have hother : ∀ room body, κ.sentAs text typeHello room body = false ∧
      κ.sentAs text typePong room body = false :=
    fun _ _ => ⟨Kind.sentAs_other (by decide) (by decide) (by decide),
      Kind.sentAs_other (by decide) (by decide) (by decide)⟩
  calc hs.countP (Event.brings (packetOn l (Envelope.chats text κ.message)))
      ≤ (N.client l).shared.sent.countP fun e => e.received.chats text κ.message :=
        (Nat.le_add_right _ _).trans (h.up l _)
    _ ≤ (N.client l).shared.sent.countP (Envelope.isOf (κ.sentAs text)) := by
        refine List.countP_mono_left fun e he hsays => ?_
        obtain ⟨_, _, _, hsaid⟩ := ((clientHistory_of_run (h.client l)).sent e he).exists_fields
        rw [hsaid.isOf, ← hsaid.received.chats_eq]
        exact hsays
    _ ≤ (cs l).countP (Event.brings (givesReason text (κ.sentAs text))) := by
        have hle := (Nat.le_add_right _ _).trans (maySend_stock_le (κ.sentAs text) (h.client l))
        simpa only [(hother _ _).1, Bool.false_eq_true, if_false, Nat.zero_add] using hle
    _ ≤ (cs l).countP (Event.brings (isRequest (ClientRequest.asks text (κ.sentAs text)))) := by
        refine List.countP_mono_left fun e _ hreason => ?_
        cases e with
        | run t x => cases hreason
        | env e =>
          cases e with
          | request q => exact hreason
          | packet data =>
            cases data with
            | none => cases hreason
            | some env => simp [Event.brings, givesReason, (hother _ _).2] at hreason
          | _ => cases hreason
    _ ≤ es.countP (NetEvent.requestAt l (ClientRequest.asks text (κ.sentAs text))) := h.requests l _

/-- What comes in on other links comes from other clients or from strangers. -/
theorem saidElsewhere_cases {e : Event HubChoice HubEvent} {q : Message → Bool}
    (h : e.brings (packetWanted (saidElsewhere text q k)) = true) :
    (∃ l ∈ Finset.univ.erase k, e.brings (packetOn l (Envelope.chats text q)) = true) ∨
      e.brings (fromStranger n fun _ => Envelope.chats text q) = true := by
  cases e with
  | run t x => cases h
  | env e =>
    cases e with
    | packet j data =>
      cases data with
      | none => cases h
      | some env =>
        obtain ⟨hne, hsays⟩ := Bool.and_eq_true_iff.mp h
        have hne : j ≠ k := of_decide_eq_true hne
        by_cases hj : j < n
        · refine .inl ⟨⟨j, hj⟩, ?_, ?_⟩
          · simpa [Fin.ext_iff] using hne
          · simpa [Event.brings, packetOn, packetWanted] using hsays
        · refine .inr ?_
          simpa [Event.brings, fromStranger, packetWanted, hsays] using hj
    | _ => cases h

/-- Chat of any kind is shown to a user no more often than the users of the other links have
said it. -/
theorem chat_shown_le_said (κ : Kind)
    (hrun : run (netStep text ccfg hcfg) (netInit text ccfg) es = some N) :
    (N.client k).shared.calls.countP (ClientCall.shows (Envelope.isChatOf κ)) ≤
      ∑ l ∈ Finset.univ.erase k,
          es.countP (NetEvent.requestAt l (ClientRequest.asks text (κ.sentAs text))) +
        es.countP (NetEvent.fromStranger fun _ => Envelope.chats text κ.message) := by
  obtain ⟨hs, cs, h⟩ := projects_of_run hrun
  calc (N.client k).shared.calls.countP (ClientCall.shows (Envelope.isChatOf κ))
      ≤ (cs k).countP (Event.brings (bringsEnvelope (Envelope.isChatOf κ))) :=
        client_shown_le _ (h.client k)
    _ ≤ (sentOn k N.hub.shared.sent).countP (fun e => e.received.isChatOf κ) :=
        (Nat.le_add_right _ _).trans (h.down k _)
    _ ≤ N.hub.shared.sent.countP (reaches κ.message k) := h.sentOn_le
    _ ≤ hs.countP (Event.brings (packetWanted (saidElsewhere text κ.message k))) :=
        (sent_le_stock ..).trans (mayReach_stock_le k κ.message h.hub)
    _ ≤ ∑ l ∈ Finset.univ.erase k, hs.countP (Event.brings (packetOn l (Envelope.chats text κ.message))) +
          hs.countP (Event.brings (fromStranger n fun _ => Envelope.chats text κ.message)) :=
        countP_le_sum _ _ fun _ => saidElsewhere_cases
    _ ≤ _ := Nat.add_le_add (Finset.sum_le_sum fun l _ => h.packetOn_le l) (h.strangers _)

/-- What the first user says once is shown once to the second. -/
theorem sample_chat_shown_once :
    ∃ N, run (netStep .ascii samplePair sampleHub) (netInit .ascii samplePair) sampleConversation =
        some N ∧
      (N.client 1).shared.calls.countP (ClientCall.shows (Envelope.isChatOf fun _ _ _ => true)) = 1 ∧
      (N.client 1).shared.calls.countP (ClientCall.shows (Envelope.isChatOf fun _ _ _ => true)) ≤
        ∑ l ∈ Finset.univ.erase 1, sampleConversation.countP
            (NetEvent.requestAt l (ClientRequest.asks .ascii (Kind.sentAs .ascii fun _ _ _ => true))) +
          sampleConversation.countP
            (NetEvent.fromStranger fun _ => Envelope.chats .ascii (Kind.message fun _ _ _ => true)) := by
  have hend : (run (netStep .ascii samplePair sampleHub) (netInit .ascii samplePair)
      sampleConversation).map (fun N => (N.client 1).shared.calls.countP
        (ClientCall.shows (Envelope.isChatOf fun _ _ _ => true))) = some 1 := by
    decide +kernel
  obtain ⟨N, hrun, heq⟩ := Option.map_eq_some_iff.mp hend
  exact ⟨N, hrun, heq, chat_shown_le_said (fun _ _ _ => true) hrun⟩

end Count

end Rrc
