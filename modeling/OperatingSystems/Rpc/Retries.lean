import Mathlib.Data.List.DropRight
import OperatingSystems.Rpc.Exchange

/-! # When a client gives up

`send_req_with_retry` as a machine over what `receive_packet_timeout` returns to it: nothing for a second, or a
packet. One counter is raised at the top of the loop, whatever led there, and a matching ack sets it back.

* `sendReqWithRetry`: the client after a list of outcomes; it is `none` once the call is over.
* `Patient`: the client dies only after five timeouts in a row without an ack between them, ignored packets leave
  it as it is, and it returns the value of a matching result.
* `patient_iff`: so it is exactly when no packet was ignored. An ignored packet is counted like a timeout. -/

namespace OperatingSystems.Rpc.Retries

open OperatingSystems.Lib.Transition OperatingSystems.Rpc.Server OperatingSystems.Rpc.Exchange

/-- What `receive_packet_timeout` returns: `recv_len = -1`, or a packet. -/
inductive Received
  | timeout
  | packet (fb : Feedback)
  deriving DecidableEq

/-- The client in `send_req_with_retry`, and `return_val` once the loop is left. -/
structure Sender where
  client : Client
  returnVal : Option ℤ

/-- The top of the loop: `if(retry++ == 5) die(..)`, or the request is sent and an answer awaited. -/
def enter (k : Call) : Call :=
  if k.retry = 5 then { k with phase := .dead } else { k with retry := k.retry + 1, phase := .waiting }

/-- A client that is still in the loop starts the next pass. -/
def loopTop (cl : Client) : Client := { cl with call := cl.call.map enter }

/-- The loop from one outcome to the next. -/
def pass (clientId : ℤ) (x : Sender) (r : Received) : Option Sender :=
  match x.client.call with
  | some k =>
    if k.phase = .waiting then
      match r with
      | .timeout => some ⟨loopTop { x.client with call := some { k with phase := .top } }, none⟩
      | .packet fb =>
        let y := receive x.client k clientId fb
        some ⟨loopTop y.1, y.2⟩
    else none
  | none => none

/-- The client when it waits for the first time. -/
def start (seqNumber : ℤ) (req : Request) : Sender := ⟨loopTop ⟨seqNumber, some ⟨req, 0, .top⟩⟩, none⟩

/-- **`send_req_with_retry`**, up to the last of the outcomes. -/
def sendReqWithRetry (clientId seqNumber : ℤ) (req : Request) (outcomes : List Received) : Option Sender :=
  runFun (pass clientId) (start seqNumber req) outcomes

/-! ### What the call should do -/

/-- The packet is for this client and its current request. -/
def Matches (clientId seqNumber : ℤ) (fb : Feedback) : Prop :=
  clientId = fb.clientId ∧ seqNumber = fb.seqNumber

instance (clientId seqNumber : ℤ) (fb : Feedback) : Decidable (Matches clientId seqNumber fb) :=
  inferInstanceAs (Decidable (_ ∧ _))

/-- `// Ignore packets that are for other client ids, or to old sequence numbers`. -/
def Ignored (clientId seqNumber : ℤ) : Received → Prop
  | .timeout => False
  | .packet fb => ¬ Matches clientId seqNumber fb

instance (clientId seqNumber : ℤ) : DecidablePred (Ignored clientId seqNumber)
  | .timeout => inferInstanceAs (Decidable False)
  | .packet fb => inferInstanceAs (Decidable (¬ Matches clientId seqNumber fb))

/-- A matching ack. -/
def isAck (clientId seqNumber : ℤ) : Received → Bool
  | .timeout => false
  | .packet fb => Matches clientId seqNumber fb ∧ fb.ack ≠ 0

/-- The timeouts since the last matching ack, or since the call. -/
def silence (clientId seqNumber : ℤ) (outcomes : List Received) : ℕ :=
  (outcomes.rtakeWhile fun r => !isAck clientId seqNumber r).count .timeout

/-- **The client gives up only on a silent server.** -/
structure Patient (clientId seqNumber : ℤ) (req : Request) (outcomes : List Received) (y : Sender) : Prop where
  dies : ∀ k, y.client.call = some k → k.phase = .dead → 5 ≤ silence clientId seqNumber outcomes
  ignores : ∀ before r after, outcomes = before ++ r :: after → Ignored clientId seqNumber r →
    sendReqWithRetry clientId seqNumber req (before ++ [r]) = sendReqWithRetry clientId seqNumber req before
  returns : ∀ v, y.returnVal = some v → y.client = ⟨seqNumber + 1, none⟩ ∧ ∃ before fb,
    outcomes = before ++ [.packet fb] ∧ Matches clientId seqNumber fb ∧ fb.ack = 0 ∧ v = fb.returnVal
  goes_on : y.returnVal = none → y.client.seqNumber = seqNumber ∧ y.client.call.isSome

variable {clientId seqNumber : ℤ} {req : Request} {outcomes : List Received} {x y : Sender} {k : Call}

theorem silence_timeout :
    silence clientId seqNumber (outcomes ++ [.timeout]) = silence clientId seqNumber outcomes + 1 := by
  unfold silence
  rw [List.rtakeWhile_concat_pos _ _ _ (by simp [isAck]), List.count_append, List.count_singleton_self]

theorem silence_ack {fb : Feedback} (hfb : Matches clientId seqNumber fb) (hack : fb.ack ≠ 0) :
    silence clientId seqNumber (outcomes ++ [.packet fb]) = 0 := by
  unfold silence
  rw [List.rtakeWhile_concat_neg _ _ _ (by simp [isAck, hfb, hack]), List.count_nil]

/-! ### One pass -/

/-- What waits at the end of a pass has its counter raised. -/
theorem loopTop_call {cl : Client} (h : (loopTop cl).call = some k) :
    ∃ k₀, cl.call = some k₀ ∧ (k₀.retry = 5 ∧ k = { k₀ with phase := .dead } ∨
      k₀.retry ≠ 5 ∧ k = { k₀ with retry := k₀.retry + 1, phase := .waiting }) := by
  obtain ⟨k₀, hk₀, rfl⟩ := Option.map_eq_some_iff.mp h
  refine ⟨k₀, hk₀, ?_⟩
  unfold enter
  by_cases h5 : k₀.retry = 5
  · exact .inl ⟨h5, if_pos h5⟩
  · exact .inr ⟨h5, if_neg h5⟩

section receive
variable {cl : Client} {fb : Feedback}

theorem receive_ignored (hm : ¬ Matches clientId cl.seqNumber fb) :
    receive cl k clientId fb = ({ cl with call := some { k with phase := .top } }, none) := if_neg hm

theorem receive_ack (hm : Matches clientId cl.seqNumber fb) (hack : fb.ack ≠ 0) :
    receive cl k clientId fb = ({ cl with call := some { k with retry := 0, phase := .top } }, none) :=
  (if_pos hm).trans (if_pos hack)

theorem receive_result (hm : Matches clientId cl.seqNumber fb) (hack : fb.ack = 0) :
    receive cl k clientId fb = (⟨cl.seqNumber + 1, none⟩, some fb.returnVal) :=
  (if_pos hm).trans (if_neg (not_not.mpr hack))

end receive

/-- **What a pass does.** -/
theorem pass_cases {r : Received} (h : pass clientId x r = some y) :
    ∃ k, x.client.call = some k ∧ k.phase = .waiting ∧
      (r = .timeout ∧ y = ⟨loopTop { x.client with call := some { k with phase := .top } }, none⟩ ∨
      (∃ fb, r = .packet fb ∧ ¬ Matches clientId x.client.seqNumber fb ∧
        y = ⟨loopTop { x.client with call := some { k with phase := .top } }, none⟩) ∨
      (∃ fb, r = .packet fb ∧ Matches clientId x.client.seqNumber fb ∧ fb.ack ≠ 0 ∧
        y = ⟨loopTop { x.client with call := some { k with retry := 0, phase := .top } }, none⟩) ∨
      ∃ fb, r = .packet fb ∧ Matches clientId x.client.seqNumber fb ∧ fb.ack = 0 ∧
        y = ⟨⟨x.client.seqNumber + 1, none⟩, some fb.returnVal⟩) := by
  unfold pass at h
  rcases hc : x.client.call with _ | k
  · rw [hc] at h
    cases h
  rw [hc] at h
  dsimp only at h
  split_ifs at h with hw
  refine ⟨k, rfl, hw, ?_⟩
  cases r with
  | timeout => exact .inl ⟨rfl, (Option.some.inj h).symm⟩
  | packet fb =>
    right
    have hy := (Option.some.inj h).symm
    by_cases hm : Matches clientId x.client.seqNumber fb
    · by_cases hack : fb.ack = 0
      · rw [receive_result hm hack] at hy
        exact .inr (.inr ⟨fb, rfl, hm, hack, hy⟩)
      · rw [receive_ack hm hack] at hy
        exact .inr (.inl ⟨fb, rfl, hm, hack, hy⟩)
    · rw [receive_ignored hm] at hy
      exact .inl ⟨fb, rfl, hm, hy⟩

/-! ### Runs -/

/-- Where the call stands: under way, or returned with the last outcome. -/
structure Stands (clientId seqNumber : ℤ) (outcomes : List Received) (y : Sender) : Prop where
  goes_on : y.returnVal = none → y.client.seqNumber = seqNumber ∧ y.client.call.isSome
  returns : ∀ v, y.returnVal = some v → y.client = ⟨seqNumber + 1, none⟩ ∧ ∃ before fb,
    outcomes = before ++ [.packet fb] ∧ Matches clientId seqNumber fb ∧ fb.ack = 0 ∧ v = fb.returnVal

/-- While the call is under way, the sequence number is that of the request. -/
theorem Stands.seqNumber_eq (h : Stands clientId seqNumber outcomes x) (hk : x.client.call = some k) :
    x.client.seqNumber = seqNumber := by
  refine (h.goes_on ?_).1
  by_contra hv
  obtain ⟨v, hv⟩ := Option.ne_none_iff_exists'.mp hv
  rw [(h.returns v hv).1] at hk
  cases hk

theorem stands (h : sendReqWithRetry clientId seqNumber req outcomes = some y) :
    Stands clientId seqNumber outcomes y := by
  refine runFun_rule (P := Stands clientId seqNumber) ⟨fun _ => ⟨rfl, rfl⟩, fun v hv => by cases hv⟩ ?_ h
  intro os x r y _ ih hp
  obtain ⟨k, hk, -, hcase⟩ := pass_cases hp
  have hseq := ih.seqNumber_eq hk
  rw [hseq] at hcase
  obtain ⟨-, rfl⟩ | ⟨fb, -, -, rfl⟩ | ⟨fb, -, -, -, rfl⟩ | ⟨fb, rfl, hm, hack, rfl⟩ := hcase
  · exact ⟨fun _ => ⟨hseq, rfl⟩, fun v hv => by cases hv⟩
  · exact ⟨fun _ => ⟨hseq, rfl⟩, fun v hv => by cases hv⟩
  · exact ⟨fun _ => ⟨hseq, rfl⟩, fun v hv => by cases hv⟩
  · refine ⟨fun hv => absurd hv (Option.some_ne_none _), fun v hv => ⟨rfl, os, fb, rfl, hm, hack, ?_⟩⟩
    exact (Option.some.inj hv).symm

/-- The counter is one more than the timeouts, in a call that ignored nothing. -/
def Counted (clientId seqNumber : ℤ) (outcomes : List Received) (y : Sender) : Prop :=
  (∀ r ∈ outcomes, ¬ Ignored clientId seqNumber r) → ∀ k, y.client.call = some k →
    k.phase = .waiting ∧ k.retry = silence clientId seqNumber outcomes + 1 ∨
      k.phase = .dead ∧ silence clientId seqNumber outcomes = 5

theorem counted (h : sendReqWithRetry clientId seqNumber req outcomes = some y) :
    Counted clientId seqNumber outcomes y := by
  refine runFun_rule (P := Counted clientId seqNumber) ?_ ?_ h
  · intro _ k hk
    cases hk
    exact .inl ⟨rfl, rfl⟩
  intro os x r y hx ih hp hall k' hk'
  obtain ⟨k, hk, hw, hcase⟩ := pass_cases hp
  rw [(stands hx).seqNumber_eq hk] at hcase
  have hretry : k.retry = silence clientId seqNumber os + 1 := by
    rcases ih (fun r hr => hall r (List.mem_append_left _ hr)) k hk with ⟨-, hr⟩ | ⟨hd, -⟩
    · exact hr
    · rw [hd] at hw
      cases hw
  obtain ⟨rfl, rfl⟩ | ⟨fb, rfl, hm, -⟩ | ⟨fb, rfl, hm, hack, rfl⟩ | ⟨fb, -, -, -, rfl⟩ := hcase
  · -- a timeout counts
    rw [silence_timeout]
    obtain ⟨k₀, hk₀, ⟨h5, rfl⟩ | ⟨h5, rfl⟩⟩ := loopTop_call hk'
    · cases hk₀
      exact .inr ⟨rfl, hretry ▸ h5⟩
    · cases hk₀
      exact .inl ⟨rfl, by rw [hretry]⟩
  · exact absurd hm (hall _ (List.mem_append_right _ (List.mem_singleton_self _)))
  · rw [silence_ack hm hack]
    obtain ⟨k₀, hk₀, ⟨h5, rfl⟩ | ⟨-, rfl⟩⟩ := loopTop_call hk'
    · cases hk₀
      cases h5
    · cases hk₀
      exact .inl ⟨rfl, rfl⟩
  · cases hk'

/-- **An ignored packet is counted**: it changes the client. -/
theorem ignored_counts {before after : List Received} {r : Received}
    (h : sendReqWithRetry clientId seqNumber req (before ++ r :: after) = some y)
    (hr : Ignored clientId seqNumber r) :
    sendReqWithRetry clientId seqNumber req (before ++ [r]) ≠ sendReqWithRetry clientId seqNumber req before := by
  unfold sendReqWithRetry at h ⊢
  rw [runFun_append] at h
  obtain ⟨x, hx, h⟩ := Option.bind_eq_some_iff.mp h
  obtain ⟨z, hz, -⟩ := Option.bind_eq_some_iff.mp h
  rw [runFun_concat, hx, Option.bind_some, hz]
  obtain ⟨k, hk, hw, hcase⟩ := pass_cases hz
  rw [(stands hx).seqNumber_eq hk] at hcase
  intro heq
  obtain rfl := Option.some.inj heq
  obtain ⟨rfl, -⟩ | ⟨fb, -, -, hz⟩ | ⟨fb, rfl, hm, -⟩ | ⟨fb, rfl, hm, -⟩ := hcase
  · exact hr
  · -- the counter went up, or the client died
    have hcall := congrArg (fun w : Sender => w.client.call) hz
    obtain ⟨k₀, hk₀, ⟨-, hd⟩ | ⟨-, hup⟩⟩ := loopTop_call (hcall.symm.trans hk)
    · rw [hd] at hw
      cases hw
    · cases hk₀
      exact absurd (congrArg Call.retry hup) (Nat.ne_of_lt (Nat.lt_succ_self _))
  · exact hr hm
  · exact hr hm

/-- **When the client is patient.** -/
theorem patient_iff (h : sendReqWithRetry clientId seqNumber req outcomes = some y) :
    Patient clientId seqNumber req outcomes y ↔ ∀ r ∈ outcomes, ¬ Ignored clientId seqNumber r := by
  constructor
  · intro hp r hmem hr
    obtain ⟨before, after, rfl⟩ := List.append_of_mem hmem
    exact ignored_counts h hr (hp.ignores before r after rfl hr)
  · intro hall
    have hst := stands h
    refine ⟨fun k hk hd => ?_, fun before r after he hr => ?_, hst.returns, hst.goes_on⟩
    · rcases counted h hall k hk with ⟨hw, -⟩ | ⟨-, h5⟩
      · rw [hd] at hw
        cases hw
      · exact h5.ge
    · refine absurd hr (hall r ?_)
      rw [he]
      exact List.mem_append_right _ List.mem_cons_self

/-- A `get` of client 7, whose packets to it stay away for four seconds after an ack. -/
def getThree : Request := ⟨1, 7, 0, -1, 3, -1⟩

theorem patient_getThree : ∃ y, y.returnVal = some 9 ∧ Patient 7 0 getThree [.timeout, .packet ⟨7, 0, 1, -1⟩,
    .timeout, .timeout, .timeout, .timeout, .packet ⟨7, 0, 0, 9⟩] y :=
  ⟨⟨⟨1, none⟩, some 9⟩, rfl, (patient_iff rfl).mpr (by decide)⟩

/-- Five packets for client 8, and no timeout: client 7 is dead. -/
theorem dead_unheard : ∃ y, sendReqWithRetry 7 0 getThree (List.replicate 5 (.packet ⟨8, 0, 0, 0⟩)) = some y ∧
    ¬ Patient 7 0 getThree (List.replicate 5 (.packet ⟨8, 0, 0, 0⟩)) y :=
  ⟨⟨⟨0, some ⟨getThree, 5, .dead⟩⟩, none⟩, rfl, fun h => absurd (h.dies _ rfl rfl) (by decide)⟩

end OperatingSystems.Rpc.Retries
