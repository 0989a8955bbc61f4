import Mathlib.Tactic
import OperatingSystems.Lib.History
import OperatingSystems.Lib.Transition
import OperatingSystems.Rpc.Server

/-! # Exactly-once calls over a lossy network

Up to 100 clients with different ids issue `RPC_get` and `RPC_put` calls, one after another, to one
server. The network keeps every packet that was ever sent and delivers any of them at any time, so
packets are lost, duplicated and reordered in both directions.

The history records when a call is issued, when the server executes a request, and when a call returns.
`Inv` ties the record of a client in the table to its sequence number: the server has executed exactly
the requests up to the recorded number, and the client is at the next number or waits for the reply to
this one. `Just` says what has to precede an event; it is kept by every step (`inv_step`), and
`exactly_once` reads the property of whole runs off it. -/

namespace OperatingSystems.Rpc.Exchange

open OperatingSystems.Lib.History OperatingSystems.Lib.Transition OperatingSystems.Rpc.Server

/-! ### Clients -/

/-- A get or put whose key lies inside the store. -/
def InStore : Op → Prop
  | .idle _ => False
  | .get key => 0 ≤ key ∧ key < numkeys
  | .put key _ => 0 ≤ key ∧ key < numkeys

/-- Where `send_req_with_retry` stands: at the top of its loop, in `receive_packet_timeout`, or dead. -/
inductive Phase
  | top
  | waiting
  | dead
  deriving DecidableEq

/-- A call in progress. -/
structure Call where
  req : Request
  retry : ℕ
  phase : Phase

/-- A client between calls or in one. -/
structure Client where
  seqNumber : ℤ
  call : Option Call

/-- **The end of a pass of `send_req_with_retry`** on a packet: the client, and the value if the call
returns. -/
def receive (cl : Client) (k : Call) (clientId : ℤ) (fb : Feedback) : Client × Option ℤ :=
  if clientId = fb.clientId ∧ cl.seqNumber = fb.seqNumber then
    if fb.ack ≠ 0 then ({ cl with call := some { k with retry := 0, phase := .top } }, none)
    else (⟨cl.seqNumber + 1, none⟩, some fb.returnVal)
  else ({ cl with call := some { k with phase := .top } }, none)

/-! ### The system -/

/-- What is observed of a run. -/
inductive Event (n : ℕ)
  | call (c : Fin n) (req : Request)
  | exec (req : Request) (result : ℤ)
  | ret (c : Fin n) (req : Request) (value : ℤ)

/-- The server, the clients, every packet ever sent, and the history. -/
structure World (n : ℕ) where
  server : Shared
  client : Fin n → Client
  reqs : List Request
  fdbks : List Feedback
  history : List (Event n)

/-- All clients between calls, at sequence number 0. -/
def World.start (n : ℕ) : World n := ⟨initShared, fun _ => ⟨0, none⟩, [], [], []⟩

/-- The packet and the event that serving a request leaves behind. -/
def World.served {n : ℕ} (w : World n) (req : Request) (s : Shared) : Outcome → World n
  | .ignored => { w with server := s }
  | .replied fb => { w with server := s, fdbks := fb :: w.fdbks }
  | .executed r => { w with server := s, history := w.history ++ [.exec req r] }

variable {n : ℕ}

/-- The steps of the system, for clients with the given ids. -/
inductive Step (ids : Fin n → ℤ) : World n → World n → Prop
  | call {w : World n} (c : Fin n) (op : Op) (hidle : (w.client c).call = none) (hop : InStore op) :
      Step ids w { w with
        client := Function.update w.client c { w.client c with
          call := some ⟨op.request (ids c) (w.client c).seqNumber, 0, .top⟩ }
        history := w.history ++ [.call c (op.request (ids c) (w.client c).seqNumber)] }
  | die {w : World n} (c : Fin n) (k : Call) (hk : (w.client c).call = some k)
      (htop : k.phase = .top) (hretry : k.retry = 5) :
      Step ids w { w with
        client := Function.update w.client c { w.client c with call := some { k with phase := .dead } } }
  | send {w : World n} (c : Fin n) (k : Call) (hk : (w.client c).call = some k)
      (htop : k.phase = .top) (hretry : k.retry ≠ 5) :
      Step ids w { w with
        client := Function.update w.client c { w.client c with
          call := some { k with retry := k.retry + 1, phase := .waiting } }
        reqs := k.req :: w.reqs }
  | timeout {w : World n} (c : Fin n) (k : Call) (hk : (w.client c).call = some k)
      (hwait : k.phase = .waiting) :
      Step ids w { w with
        client := Function.update w.client c { w.client c with call := some { k with phase := .top } } }
  | recv {w : World n} (c : Fin n) (k : Call) (hk : (w.client c).call = some k)
      (hwait : k.phase = .waiting) (fb : Feedback) (hfb : fb ∈ w.fdbks) :
      Step ids w { w with
        client := Function.update w.client c (receive (w.client c) k (ids c) fb).1
        history := w.history ++
          ((receive (w.client c) k (ids c) fb).2.map fun v => Event.ret c k.req v).toList }
  | serve {w : World n} (req : Request) (hreq : req ∈ w.reqs) (s : Shared) (o : Outcome)
      (hs : serve w.server req = some (s, o)) : Step ids w (w.served req s o)

/-- The system as a transition system. -/
def system (ids : Fin n → ℤ) : System (World n) Unit where
  init w := w = World.start n
  step w _ w' := Step ids w w'

/-! ### What a history should be -/

/-- The store as a map, after one more event. -/
def storeStep (m : ℤ → ℤ) : Event n → ℤ → ℤ
  | .exec req _ => if req.opcode = 2 then Function.update m req.key req.value else m
  | _ => m

/-- **The value of the last put to each key**, in the order of execution; 0 before the first. -/
def lastPut (h : List (Event n)) : ℤ → ℤ := h.foldl storeStep fun _ => 0

/-- The result of a request on the store that the history leaves. -/
def resultOf (h : List (Event n)) (req : Request) : ℤ := if req.opcode = 1 then lastPut h req.key else 0

/-- An execution of the request with this client id and sequence number. -/
def isExec (clientId seqNumber : ℤ) : Event n → Bool
  | .exec req _ => req.clientId = clientId ∧ req.seqNumber = seqNumber
  | _ => false

/-- A call that issues a request with this client id and sequence number. -/
def isCall (clientId seqNumber : ℤ) : Event n → Bool
  | .call _ req => req.clientId = clientId ∧ req.seqNumber = seqNumber
  | _ => false

/-- **What has to precede an event.** A call is issued with a new sequence number. A request is issued
before it is executed, is executed once, and with the result of the store at that time; it is executed
before its call returns, with the value returned. -/
def Just (ids : Fin n → ℤ) (pre : List (Event n)) : Event n → Prop
  | .call c req => req.clientId = ids c ∧ ∀ e ∈ pre, ¬ isCall req.clientId req.seqNumber e
  | .exec req r => (∃ c, .call c req ∈ pre) ∧
      (∀ e ∈ pre, ¬ isExec req.clientId req.seqNumber e) ∧ r = resultOf pre req
  | .ret c req v => .call c req ∈ pre ∧ .exec req v ∈ pre

theorem lastPut_snoc (h : List (Event n)) (e : Event n) :
    lastPut (h ++ [e]) = storeStep (lastPut h) e := by
  simp [lastPut, List.foldl_append]

@[simp] theorem lastPut_call (h : List (Event n)) (c : Fin n) (req : Request) :
    lastPut (h ++ [.call c req]) = lastPut h := lastPut_snoc h _

@[simp] theorem lastPut_ret (h : List (Event n)) (c : Fin n) (req : Request) (v : ℤ) :
    lastPut (h ++ [.ret c req v]) = lastPut h := lastPut_snoc h _

/-! ### The invariant -/

/-- What a client has issued. -/
structure ClientOk (clientId : ℤ) (cl : Client) (issued : Request → Prop) : Prop where
  nonneg : 0 ≤ cl.seqNumber
  le : ∀ req, issued req → req.clientId = clientId ∧ 0 ≤ req.seqNumber ∧
    req.seqNumber ≤ cl.seqNumber
  idle : cl.call = none → ∀ req, issued req → req.seqNumber < cl.seqNumber
  current : ∀ k, cl.call = some k → issued k.req ∧ k.req.seqNumber = cl.seqNumber ∧
    ∀ req, issued req → req.seqNumber = cl.seqNumber → req = k.req

/-- What the table knows about a client at sequence number `seqNumber`. -/
structure RecordOk (seqNumber : ℤ) (e : TableEntry) (executed : Request → ℤ → Prop) : Prop where
  ge : seqNumber - 1 ≤ e.seqNum
  le : ∀ req r, executed req r → req.seqNumber ≤ e.seqNum
  last : 0 ≤ e.seqNum → e.done ≠ 0 ∧ ∃ req, req.seqNumber = e.seqNum ∧ executed req e.result

/-- The request is a get or a put inside the store. -/
def Served (req : Request) : Prop :=
  (req.opcode = 1 ∨ req.opcode = 2) ∧ 0 ≤ req.key ∧ req.key < numkeys

/-- **An operation on the store** leaves the store that the history with its execution describes. -/
theorem execute_spec {h : List (Event n)} {req : Request} {ds : ℕ → ℤ} (result : ℤ)
    (hreq : Served req) (hds : ∀ key : ℤ, 0 ≤ key → key < numkeys → ds key.toNat = lastPut h key) :
    ∃ ds' r, execute ds req result = some (ds', r) ∧
      (∀ key : ℤ, 0 ≤ key → key < numkeys → ds' key.toNat = lastPut (h ++ [.exec req r]) key) ∧
      r = resultOf h req := by
  obtain ⟨hop, h0, h1⟩ := hreq
  have hin : ¬ (req.key > numkeys ∨ req.key < 0) := by omega
  have hlt : req.key.toNat < numkeys := by omega
  rcases hop with hop | hop
  · refine ⟨ds, ds req.key.toNat, by simp [execute, hop, Server.get, hin, hlt], fun key hk0 hk1 => ?_, ?_⟩
    · rw [lastPut_snoc, storeStep, if_neg (by omega)]
      exact hds key hk0 hk1
    · rw [resultOf, if_pos hop, hds _ h0 h1]
  · refine ⟨Function.update ds req.key.toNat req.value, 0, by simp [execute, hop, Server.put, hin, hlt],
      fun key hk0 hk1 => ?_, ?_⟩
    · rw [lastPut_snoc, storeStep, if_pos hop]
      by_cases hk : key = req.key
      · rw [hk, Function.update_self, Function.update_self]
      · rw [Function.update_of_ne hk, Function.update_of_ne (by omega)]
        exact hds key hk0 hk1
    · rw [resultOf, if_neg (by omega)]

/-- **The joint invariant** of the table, the store, the clients, the packets and the history. -/
structure Inv (ids : Fin n → ℤ) (w : World n) : Prop where
  table : ∃ used, TableOk (Finset.univ.image ids) w.server.table used
  store : ∀ key : ℤ, 0 ≤ key → key < numkeys → w.server.datastore key.toNat = lastPut w.history key
  just : Justified (Just ids) w.history
  client : ∀ c, ClientOk (ids c) (w.client c) fun req => .call c req ∈ w.history
  record : ∀ c, RecordOk (w.client c).seqNumber (recordOf w.server.table (ids c)) fun req r =>
    req.clientId = ids c ∧ .exec req r ∈ w.history
  served : ∀ c req, .call c req ∈ w.history → Served req
  reqs : ∀ req ∈ w.reqs, ∃ c, .call c req ∈ w.history
  fdbks : ∀ fb ∈ w.fdbks, fb.ack = 0 ∧ ∃ req, req.clientId = fb.clientId ∧
    req.seqNumber = fb.seqNumber ∧ .exec req fb.returnVal ∈ w.history

/-- The clients of the system: at most as many as the table has entries, with different ids, none of
them the id of a free entry. -/
structure Clients (ids : Fin n → ℤ) : Prop where
  card : n ≤ tableSize
  inj : Function.Injective ids
  nonneg : ∀ c, 0 ≤ ids c

/-- A step that only moves a call of a client to another phase, and sends what that call may send. -/
theorem Inv.phase {ids : Fin n → ℤ} {w : World n} (h : Inv ids w) {c : Fin n} {k l : Call}
    (hk : (w.client c).call = some k) (hreq : l.req = k.req) {reqs : List Request}
    (hreqs : ∀ req ∈ reqs, req = k.req ∨ req ∈ w.reqs) :
    Inv ids { w with
      client := Function.update w.client c { w.client c with call := some l }
      reqs := reqs } := by
  have hcur := (h.client c).current k hk
  refine { h with client := fun d => ?_, record := fun d => ?_, reqs := fun req hr => ?_ }
  · by_cases hd : d = c
    · subst hd
      have hc := h.client d
      simp only [Function.update_self]
      refine ⟨hc.nonneg, hc.le, fun h => by simp at h, fun k'' hk'' => ?_⟩
      cases hk''
      rw [hreq]
      exact hcur
    · simp only [Function.update_of_ne hd]
      exact h.client d
  · by_cases hd : d = c
    · subst hd
      simp only [Function.update_self]
      exact h.record d
    · simp only [Function.update_of_ne hd]
      exact h.record d
  · rcases hreqs req hr with rfl | hr
    · exact ⟨c, hcur.1⟩
    · exact h.reqs req hr

section
variable {ids : Fin n → ℤ} (hids : Clients ids)
include hids

theorem Clients.ne_free (c : Fin n) : ids c ≠ -1 := by
  have := hids.nonneg c
  omega

theorem inv_start : Inv ids (World.start n) where
  table := ⟨0, tableOk_init _⟩
  store _ _ _ := rfl
  just := justified_nil
  client c := ⟨le_rfl, fun _ h => by simp [World.start] at h, fun _ _ h => by simp [World.start] at h,
    fun _ h => by simp [World.start] at h⟩
  record c := by
    rw [World.start, recordOf_init (hids.ne_free c)]
    exact ⟨by simp [freeEntry], fun _ _ h => by simp at h, fun h => by simp [freeEntry] at h⟩
  served _ _ h := by simp [World.start] at h
  reqs _ h := by simp [World.start] at h
  fdbks _ h := by simp [World.start] at h

theorem Inv.call {w : World n} (h : Inv ids w) (c : Fin n) {op : Op}
    (hidle : (w.client c).call = none) (hop : InStore op) :
    Inv ids { w with
      client := Function.update w.client c { w.client c with
        call := some ⟨op.request (ids c) (w.client c).seqNumber, 0, .top⟩ }
      history := w.history ++ [.call c (op.request (ids c) (w.client c).seqNumber)] } := by
  set req := op.request (ids c) (w.client c).seqNumber with hreq
  have hid : req.clientId = ids c := Op.request_clientId ..
  have hseq : req.seqNumber = (w.client c).seqNumber := Op.request_seqNumber ..
  have hserved : Served req := by
    cases op with
    | idle time => exact hop.elim
    | get key => exact ⟨Or.inl rfl, hop⟩
    | put key value => exact ⟨Or.inr rfl, hop⟩
  have hmem : ∀ d req', Event.call d req' ∈ w.history ++ [Event.call c req] ↔
      Event.call d req' ∈ w.history ∨ (d = c ∧ req' = req) := fun d req' => by simp
  refine ⟨h.table, ?_, ?_, fun d => ?_, fun d => ?_, fun d req' hr => ?_, fun req' hr => ?_,
    fun fb hfb => ?_⟩
  · simpa only [lastPut_call] using h.store
  · refine justified_snoc.mpr ⟨h.just, hid, fun e he => ?_⟩
    cases e with
    | call d req' =>
      simp only [isCall, decide_eq_true_eq, not_and, hid]
      intro hd hs
      obtain rfl : d = c := hids.inj (by rw [← hd, ((h.client d).le req' he).1])
      have := (h.client d).idle hidle req' he
      omega
    | exec | ret => simp [isCall]
  · by_cases hd : d = c
    · subst hd
      have hc := h.client d
      simp only [Function.update_self]
      refine ⟨hc.nonneg, fun req' hr => ?_, fun hn => by simp at hn, fun k hk => ?_⟩
      · rcases (hmem d req').mp hr with hr | ⟨-, rfl⟩
        · exact hc.le req' hr
        · exact ⟨hid, hseq ▸ hc.nonneg, hseq.le⟩
      · cases hk
        refine ⟨(hmem d req).mpr (Or.inr ⟨rfl, rfl⟩), hseq, fun req' hr hs => ?_⟩
        rcases (hmem d req').mp hr with hr | ⟨-, rfl⟩
        · have hlt := hc.idle hidle req' hr
          simp only at hs
          omega
        · rfl
    · simp only [Function.update_of_ne hd, hmem, hd, false_and, or_false]
      exact h.client d
  · have hrec := h.record d
    have hc : ((Function.update w.client c { w.client c with call := some ⟨req, 0, .top⟩ }) d).seqNumber
        = (w.client d).seqNumber := by
      by_cases hd : d = c
      · subst hd; rw [Function.update_self]
      · rw [Function.update_of_ne hd]
    simpa [hc] using hrec
  · rcases (hmem d req').mp hr with hr | ⟨-, rfl⟩
    · exact h.served d req' hr
    · exact hserved
  · obtain ⟨d, hd⟩ := h.reqs req' hr
    exact ⟨d, by simp [hd]⟩
  · obtain ⟨hack, req', h1, h2, h3⟩ := h.fdbks fb hfb
    exact ⟨hack, req', h1, h2, by simp [h3]⟩

/-- **A reply is the reply to the current call**: a packet that matches the client id and the sequence
number carries the result with which the server executed the request of the call. -/
theorem Inv.reply {w : World n} (h : Inv ids w) {c : Fin n} {k : Call}
    (hk : (w.client c).call = some k) {fb : Feedback} (hfb : fb ∈ w.fdbks)
    (hm : ids c = fb.clientId ∧ (w.client c).seqNumber = fb.seqNumber) :
    Event.exec k.req fb.returnVal ∈ w.history := by
  obtain ⟨-, req, hid, hseq, hexec⟩ := h.fdbks fb hfb
  obtain ⟨pre, post, heq, ⟨d, hd⟩, -⟩ := h.just.of_mem hexec
  have hd' : Event.call d req ∈ w.history := by rw [heq]; simp [hd]
  have hdc : d = c := hids.inj (by rw [← ((h.client d).le req hd').1, hid, hm.1])
  subst hdc
  have : req = k.req := ((h.client d).current k hk).2.2 req hd' (by rw [hseq, hm.2])
  rwa [← this]

theorem Inv.recv {w : World n} (h : Inv ids w) {c : Fin n} {k : Call}
    (hk : (w.client c).call = some k) {fb : Feedback} (hfb : fb ∈ w.fdbks) :
    Inv ids { w with
      client := Function.update w.client c (receive (w.client c) k (ids c) fb).1
      history := w.history ++
        ((receive (w.client c) k (ids c) fb).2.map fun v => Event.ret c k.req v).toList } := by
  have hack := (h.fdbks fb hfb).1
  unfold receive
  split_ifs with hm ha
  · exact absurd hack ha
  · -- the call returns
    have hexec := h.reply hids hk hfb hm
    have hcur := (h.client c).current k hk
    have hmem : ∀ d req, Event.call d req ∈ w.history ++ [Event.ret c k.req fb.returnVal] ↔
        Event.call d req ∈ w.history := fun d req => by simp
    have hmem' : ∀ req r, Event.exec req r ∈ w.history ++ [Event.ret c k.req fb.returnVal] ↔
        Event.exec req r ∈ w.history := fun req r => by simp
    simp only [Option.map_some, Option.toList_some]
    refine ⟨h.table, ?_, justified_snoc.mpr ⟨h.just, hcur.1, hexec⟩, fun d => ?_, fun d => ?_,
      fun d req hr => h.served d req ((hmem d req).mp hr), ?_, ?_⟩
    · simpa only [lastPut_ret] using h.store
    · by_cases hd : d = c
      · subst hd
        have hc := h.client d
        have hnn := hc.nonneg
        simp only [Function.update_self, hmem]
        refine ⟨by simp only; omega, fun req hr => ?_, fun _ req hr => ?_, fun k' hk' => by simp at hk'⟩
        · have := hc.le req hr
          exact ⟨this.1, this.2.1, by simp only; omega⟩
        · have := (hc.le req hr).2.2
          simp only
          omega
      · simp only [Function.update_of_ne hd, hmem]
        exact h.client d
    · by_cases hd : d = c
      · subst hd
        have hr := h.record d
        simp only [Function.update_self, hmem']
        refine ⟨?_, hr.le, hr.last⟩
        have := hr.le k.req fb.returnVal ⟨((h.client d).le _ hcur.1).1, hexec⟩
        rw [hcur.2.1] at this
        omega
      · simp only [Function.update_of_ne hd, hmem']
        exact h.record d
    · intro req hr
      obtain ⟨d, hd⟩ := h.reqs req hr
      exact ⟨d, by simp [hd]⟩
    · intro fb' hfb'
      obtain ⟨ha', req, h1, h2, h3⟩ := h.fdbks fb' hfb'
      exact ⟨ha', req, h1, h2, by simp [h3]⟩
  · simpa using h.phase hk (l := { k with phase := .top }) rfl (fun _ hr => Or.inr hr)

/-- **The execution of a new request.** -/
theorem Inv.executed {w : World n} (h : Inv ids w) {c : Fin n} {req : Request} {r : ℤ} {s : Shared}
    {used : ℕ} {e : TableEntry} (hok : TableOk (Finset.univ.image ids) s.table used)
    (hstore : ∀ key : ℤ, 0 ≤ key → key < numkeys →
      s.datastore key.toNat = lastPut (w.history ++ [.exec req r]) key)
    (hrec : ∀ d, d ≠ -1 → recordOf s.table d =
      if d = req.clientId then { e with seqNum := req.seqNumber, done := 1, result := r }
      else recordOf w.server.table d)
    (hc : .call c req ∈ w.history) (hr : r = resultOf w.history req)
    (hcur : (w.client c).seqNumber = req.seqNumber)
    (hnew : ∀ req' r', req'.clientId = req.clientId → .exec req' r' ∈ w.history →
      req'.seqNumber < req.seqNumber) :
    Inv ids { w with server := s, history := w.history ++ [.exec req r] } := by
  have hid := ((h.client c).le req hc).1
  have hcall : ∀ d req', Event.call d req' ∈ w.history ++ [Event.exec req r] ↔
      Event.call d req' ∈ w.history := fun d req' => by simp
  have hexec : ∀ req' r', Event.exec req' r' ∈ w.history ++ [Event.exec req r] ↔
      Event.exec req' r' ∈ w.history ∨ (req' = req ∧ r' = r) := fun req' r' => by simp
  refine ⟨⟨used, hok⟩, hstore, justified_snoc.mpr ⟨h.just, ⟨c, hc⟩, fun a ha => ?_, hr⟩, fun d => ?_,
    fun d => ?_, fun d req' hr' => h.served d req' ((hcall d req').mp hr'), fun req' hr' => ?_,
    fun fb hfb => ?_⟩
  · cases a with
    | exec req' r' =>
      simp only [isExec, decide_eq_true_eq, not_and]
      intro hid' hseq
      have := hnew req' r' hid' ha
      omega
    | call | ret => simp [isExec]
  · simp only [hcall]
    exact h.client d
  · have hrd := h.record d
    simp only [hrec _ (hids.ne_free d), hexec]
    split_ifs with hd
    · have hdc : d = c := hids.inj (hd.trans hid)
      subst hdc
      refine ⟨by simp only; omega, ?_, fun _ => ⟨one_ne_zero, req, rfl, hid, Or.inr ⟨rfl, rfl⟩⟩⟩
      rintro req' r' ⟨hid', hex | ⟨rfl, -⟩⟩
      · exact (hnew req' r' (hid'.trans hd) hex).le
      · exact le_rfl
    · refine ⟨hrd.ge, ?_, fun h0 => ?_⟩
      · rintro req' r' ⟨hid', hex | ⟨rfl, -⟩⟩
        · exact hrd.le req' r' ⟨hid', hex⟩
        · exact absurd hid'.symm hd
      · obtain ⟨hdone, req', hseq, hid', hex⟩ := hrd.last h0
        exact ⟨hdone, req', hseq, hid', Or.inl hex⟩
  · obtain ⟨d, hd⟩ := h.reqs req' hr'
    exact ⟨d, (hcall d req').mpr hd⟩
  · obtain ⟨hack, req', h1, h2, h3⟩ := h.fdbks fb hfb
    exact ⟨hack, req', h1, h2, (hexec _ _).mpr (Or.inl h3)⟩

/-- **Serving a packet that is somewhere in the network** never leaves the table, and keeps the
invariant: the request is new exactly if it is the next of its client. -/
theorem Inv.serve {w : World n} (h : Inv ids w) {req : Request} (hreq : req ∈ w.reqs) :
    ∃ s o, Server.serve w.server req = some (s, o) ∧ Inv ids (w.served req s o) := by
  obtain ⟨c, hc⟩ := h.reqs req hreq
  obtain ⟨used, hok⟩ := h.table
  obtain ⟨hid, -, hle⟩ := (h.client c).le req hc
  have hcard : (Finset.univ.image ids).card ≤ tableSize := by
    rw [Finset.card_image_of_injective _ hids.inj, Finset.card_univ, Fintype.card_fin]
    exact hids.card
  have hfree : (-1 : ℤ) ∉ Finset.univ.image ids := by
    simp only [Finset.mem_image, Finset.mem_univ, true_and, not_exists]
    exact hids.ne_free
  have hmem : req.clientId ∈ Finset.univ.image ids :=
    Finset.mem_image.mpr ⟨c, Finset.mem_univ _, hid.symm⟩
  have hspec := @serve_spec _ _ _ hok hcard hfree _ hmem
  set e := recordOf w.server.table req.clientId with he
  have hrec := h.record c
  rw [← hid, ← he] at hrec
  -- the first two outcomes change no record
  have hkeep : ∀ {s' : Shared} {used' : ℕ}, TableOk (Finset.univ.image ids) s'.table used' →
      s'.datastore = w.server.datastore →
      (∀ d, d ≠ -1 → recordOf s'.table d =
        if d = req.clientId then e else recordOf w.server.table d) →
      Inv ids { w with server := s' } := by
    intro s' used' hok' hds hr
    refine { h with table := ⟨used', hok'⟩, store := ?_, record := fun d => ?_ }
    · simp only [hds]; exact h.store
    · have : recordOf s'.table (ids d) = recordOf w.server.table (ids d) := by
        rw [hr _ (hids.ne_free d)]
        split_ifs with hd
        · rw [hd]
        · rfl
      simp only [this]
      exact h.record d
  rcases lt_trichotomy req.seqNumber e.seqNum with hlt | heq | hgt
  · obtain ⟨s', used', hs, hok', hds, hr⟩ := hspec (o := .ignored) (by rw [serveRecord, if_pos hlt])
    exact ⟨s', _, hs, hkeep hok' hds hr⟩
  · obtain ⟨s', used', hs, hok', hds, hr⟩ := hspec (o := .replied (resend req e))
      (by rw [serveRecord, if_neg (by omega), if_pos heq.symm])
    have hk := hkeep hok' hds hr
    refine ⟨s', _, hs, { hk with fdbks := fun fb hfb => ?_ }⟩
    rcases List.mem_cons.mp hfb with rfl | hfb
    · obtain ⟨hdone, req', hseq, hid', hexec⟩ := hrec.last (heq ▸ ((h.client c).le req hc).2.1)
      rw [resend, if_pos hdone]
      exact ⟨rfl, req', hid', hseq.trans heq.symm, hexec⟩
    · exact h.fdbks fb hfb
  · -- a new request: it is the next one of its client
    have hge := hrec.ge
    obtain ⟨ds', r, hex, hstore, hr⟩ := execute_spec e.result (h.served c req hc) h.store
    obtain ⟨s', used', hs, hok', hds, hrec'⟩ := hspec (o := .executed r)
      (by rw [serveRecord, if_neg (by omega), if_neg (by omega), hex]; rfl)
    refine ⟨s', _, hs, h.executed hids hok' (fun key h0 h1 => ?_) hrec' hc hr ?_
      fun req' r' hid' hexec => ?_⟩
    · rw [hds]; exact hstore key h0 h1
    · omega
    · have := hrec.le req' r' ⟨hid', hexec⟩
      omega

/-- **Every step keeps the invariant.** -/
theorem inv_step {w w' : World n} (h : Inv ids w) (hs : Step ids w w') : Inv ids w' := by
  cases hs with
  | call c op hidle hop => exact h.call hids c hidle hop
  | die c k hk htop hretry => exact h.phase hk (l := { k with phase := .dead }) rfl fun _ hr => Or.inr hr
  | send c k hk htop hretry =>
    exact h.phase hk (l := { k with retry := k.retry + 1, phase := .waiting }) rfl
      fun req hr => List.mem_cons.mp hr
  | timeout c k hk hwait => exact h.phase hk (l := { k with phase := .top }) rfl fun _ hr => Or.inr hr
  | recv c k hk hwait fb hfb => exact h.recv hids hk hfb
  | serve req hreq s o hs =>
    obtain ⟨s', o', hs', hinv⟩ := h.serve hids hreq
    cases hs.symm.trans hs'
    exact hinv

theorem inv_reachable {w : World n} (h : (system ids).Reachable w) : Inv ids w := by
  refine h.invariant (I := Inv ids) (fun s hs => ?_) fun _ _ _ _ hi hs => inv_step hids hi hs
  obtain rfl : s = World.start n := hs
  exact inv_start hids

end

/-! ### Exactly once -/

/-- A request that has been executed was issued before, by the client it names. -/
theorem before_exec {n : ℕ} {ids : Fin n → ℤ} (hids : Clients ids) {h : List (Event n)}
    (hj : Justified (Just ids) h) {c : Fin n} {req : Request} {v : ℤ} (hcall : .call c req ∈ h)
    (hexec : .exec req v ∈ h) : Before h (.call c req) (.exec req v) := by
  obtain ⟨pre, post, rfl, ⟨d, hd⟩, -⟩ := hj.of_mem hexec
  obtain ⟨_, _, _, hid, -⟩ := hj.of_mem hcall
  obtain ⟨_, _, _, hid', -⟩ := hj.of_mem (List.mem_append_left _ hd)
  obtain rfl : d = c := hids.inj (hid'.symm.trans hid)
  exact before_of_mem hd

/-- **Exactly once.** In every run, whatever the network loses, duplicates and reorders: the server
finds an entry for every packet; it executes the operation of a client and sequence number at most once;
when a call returns a value, the server has executed this very request once, after the one call that
issued it and before the return, with this value as the result; and the result of a get is the value of
the last put to its key in the order of execution. -/
theorem exactly_once {n : ℕ} {ids : Fin n → ℤ} (hids : Clients ids) {w : World n}
    (h : (system ids).Reachable w) :
    (∀ req ∈ w.reqs, (Server.serve w.server req).isSome) ∧
    (∀ clientId seqNumber, w.history.countP (isExec clientId seqNumber) ≤ 1) ∧
    (∀ pre post c req v, w.history = pre ++ .ret c req v :: post →
      w.history.countP (isCall req.clientId req.seqNumber) = 1 ∧
      w.history.countP (isExec req.clientId req.seqNumber) = 1 ∧
      Before pre (.call c req) (.exec req v)) ∧
    ∀ pre post req v, w.history = pre ++ .exec req v :: post → req.opcode = 1 →
      v = lastPut pre req.key := by
  have hinv := inv_reachable hids h
  have hjust := hinv.just
  have hexec1 : ∀ clientId seqNumber, w.history.countP (isExec clientId seqNumber) ≤ 1 := by
    intro clientId seqNumber
    refine countP_le_one (hjust.mono fun pre e he hp a ha => ?_)
    cases e with
    | exec req r =>
      obtain ⟨rfl, rfl⟩ : req.clientId = clientId ∧ req.seqNumber = seqNumber := by
        simpa [isExec] using hp
      exact he.2.1 a ha
    | call | ret => simp [isExec] at hp
  have hcall1 : ∀ clientId seqNumber, w.history.countP (isCall clientId seqNumber) ≤ 1 := by
    intro clientId seqNumber
    refine countP_le_one (hjust.mono fun pre e he hp a ha => ?_)
    cases e with
    | call c req =>
      obtain ⟨rfl, rfl⟩ : req.clientId = clientId ∧ req.seqNumber = seqNumber := by
        simpa [isCall] using hp
      exact he.2 a ha
    | exec | ret => simp [isCall] at hp
  refine ⟨fun req hreq => ?_, hexec1, fun pre post c req v heq => ?_,
    fun pre post req v heq hget => ?_⟩
  · obtain ⟨s, o, hs, -⟩ := hinv.serve hids hreq
    rw [hs]; rfl
  · obtain ⟨hcall, hexec⟩ := hjust pre _ post heq
    have hsub : ∀ e ∈ pre, e ∈ w.history := fun e he => heq ▸ List.mem_append_left _ he
    refine ⟨le_antisymm (hcall1 _ _) (List.countP_pos_iff.mpr ⟨_, hsub _ hcall, ?_⟩),
      le_antisymm (hexec1 _ _) (List.countP_pos_iff.mpr ⟨_, hsub _ hexec, ?_⟩),
      before_exec hids (heq ▸ hjust).of_append hcall hexec⟩
    · simp [isCall]
    · simp [isExec]
  · obtain ⟨-, -, hr⟩ := hjust pre _ post heq
    rwa [resultOf, if_pos hget] at hr

/-! ### A run -/

/-- One client, with id 7. -/
def soleId : Fin 1 → ℤ := fun _ => 7

/-- The request of its first call, a put. -/
def firstPut : Request := (Op.put 3 10).request 7 0

/-- A run in which the request is sent twice, served twice, and its call returns. -/
theorem reachable_firstPut : ∃ w, (system soleId).Reachable w ∧
    w.history = [.call 0 firstPut, .exec firstPut 0, .ret 0 firstPut 0] := by
  have h0 : (system soleId).Reachable (World.start 1) := .init rfl
  have h1 := h0.step (a := ()) (Step.call 0 (.put 3 10) rfl ⟨by decide, by decide⟩)
  have h2 := h1.step (a := ()) (Step.send 0 ⟨firstPut, 0, .top⟩ rfl rfl (by decide))
  have h3 := h2.step (a := ()) (Step.timeout 0 ⟨firstPut, 1, .waiting⟩ rfl rfl)
  have h4 := h3.step (a := ()) (Step.send 0 ⟨firstPut, 1, .top⟩ rfl rfl (by decide))
  have h5 := h4.step (a := ()) (Step.serve firstPut (List.mem_cons_self ..) _ _ rfl)
  have h6 := h5.step (a := ()) (Step.serve firstPut (List.mem_cons_self ..) _ _ rfl)
  have h7 := h6.step (a := ())
    (Step.recv 0 ⟨firstPut, 2, .waiting⟩ rfl rfl ⟨7, 0, 0, 0⟩ (List.mem_cons_self ..))
  exact ⟨_, h7, rfl⟩

/-- The duplicate of the put is not executed again. -/
theorem exactly_once_firstPut : ∃ w, (system soleId).Reachable w ∧
    w.history = [.call 0 firstPut, .exec firstPut 0, .ret 0 firstPut 0] ∧
    w.history.countP (isExec 7 0) = 1 ∧
    Before [.call 0 firstPut, .exec firstPut 0] (Event.call (0 : Fin 1) firstPut) (.exec firstPut 0) := by
  obtain ⟨w, hw, hh⟩ := reachable_firstPut
  have hids : Clients soleId :=
    ⟨by decide, Function.injective_of_subsingleton _, fun _ => Int.natCast_nonneg 7⟩
  obtain ⟨-, -, hret, -⟩ := exactly_once hids hw
  obtain ⟨-, hexec, hbefore⟩ :=
    hret [.call 0 firstPut, .exec firstPut 0] [] 0 firstPut 0 (by rw [hh]; rfl)
  exact ⟨w, hw, hh, hexec, hbefore⟩

end OperatingSystems.Rpc.Exchange
