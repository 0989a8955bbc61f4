import Mathlib.Tactic
import OperatingSystems.Lib.History
import OperatingSystems.Lib.Transition
import OperatingSystems.Rpc.Server

/-! # The server with concurrent threads

`main` joins the thread of a get or a put but not the thread of an idle. Here each read or write of the
packet buffer, which all threads share with `main`, and of a field of the table is one step, and the
steps of `main`, of the threads and of the clients interleave in any order.

* `Pc.reads`: the field of the buffer that a thread reads next. A step depends on the buffer through
  this field alone (`Thread.step_congr`).
* `Undisturbed`: the thread that moves finds what it left: the field it reads is that of its own packet,
  the entry it claims is still free or of its client, and the `seq_num` it overwrites is the one it has
  read. The server enforces none of this; `idle_executed_twice` is a run where it fails.
* `at_most_once`: as long as the steps are undisturbed, every thread acts on its own packet, `seq_num`
  never decreases, and no request is executed twice. -/

namespace OperatingSystems.Rpc.Threads

open OperatingSystems.Lib.History OperatingSystems.Lib.Transition OperatingSystems.Rpc.Server

/-! ### Packets -/

/-- `struct packet_info`: the address of the sender, and the request in `buf`. -/
structure Packet where
  sock : ℤ
  req : Request

/-- The fields of the packet buffer. -/
inductive Field
  | sock
  | opcode
  | clientId
  | seqNumber
  | time
  | key
  | value

/-- A field of a packet. -/
def Packet.field (p : Packet) : Field → ℤ
  | .sock => p.sock
  | .opcode => p.req.opcode
  | .clientId => p.req.clientId
  | .seqNumber => p.req.seqNumber
  | .time => p.req.time
  | .key => p.req.key
  | .value => p.req.value

/-- The operation that `serve` performs for a request. -/
def operation (req : Request) : Op :=
  if req.opcode = 0 then .idle req.time
  else if req.opcode = 1 then .get req.key
  else .put req.key req.value

/-! ### Threads -/

/-- Where a thread of `serve` stands, with its local variables: the index of the entry, `temp_seqnum`,
and what it has read but not yet used. -/
inductive Pc
  | fdbkId
  | fdbkSeq
  | test (i : ℕ)
  | cmp (i : ℕ)
  | cmpReq (i : ℕ) (id : ℤ)
  | claimReq (i : ℕ)
  | claim (i : ℕ) (id : ℤ)
  | readSeq (i : ℕ)
  | cmpOld (i : ℕ) (temp : ℤ)
  | cmpSame (i : ℕ) (temp : ℤ)
  | readDone (i : ℕ)
  | readResult (i : ℕ)
  | send
  | clearDone (i : ℕ) (temp : ℤ)
  | readNew (i : ℕ) (temp : ℤ)
  | writeSeq (i : ℕ) (temp seq : ℤ)
  | cmpIdle (i : ℕ)
  | readTime (i : ℕ)
  | idle (i : ℕ) (time : ℤ)
  | cmpGet (i : ℕ)
  | readGetKey (i : ℕ)
  | get (i : ℕ) (key : ℤ)
  | readPutKey (i : ℕ)
  | readPutValue (i : ℕ) (key : ℤ)
  | put (i : ℕ) (key value : ℤ)
  | setDone (i : ℕ) (result : Option ℤ)
  | setResult (i : ℕ) (result : ℤ)
  | exit (executed : Bool)

/-- The field of the buffer that the next step reads. -/
def Pc.reads : Pc → Option Field
  | .fdbkId | .cmpReq .. | .claimReq _ => some .clientId
  | .fdbkSeq | .cmpOld .. | .cmpSame .. | .readNew .. => some .seqNumber
  | .send => some .sock
  | .cmpIdle _ | .cmpGet _ => some .opcode
  | .readTime _ => some .time
  | .readGetKey _ | .readPutKey _ => some .key
  | .readPutValue .. => some .value
  | _ => none

/-- The thread has written `seq_num`. -/
def Pc.marked : Pc → Bool
  | .cmpIdle _ | .readTime _ | .idle .. | .cmpGet _ | .readGetKey _ | .get .. | .readPutKey _
  | .readPutValue .. | .put .. | .setDone .. | .setResult .. => true
  | .exit executed => executed
  | _ => false

/-- The thread has performed the operation. -/
def Pc.executed : Pc → Bool
  | .setDone .. | .setResult .. => true
  | .exit executed => executed
  | _ => false

/-- A thread: the packet it was created for, `fdbk`, and where it stands. -/
structure Thread where
  own : Packet
  fdbk : Feedback
  pc : Pc

/-- What is observed of a thread. -/
inductive Event
  | claimed (i : ℕ) (clientId : ℤ)
  | marked (i : ℕ) (seqNumber : ℤ)
  | executed (clientId seqNumber : ℤ) (op : Op)
  | sent (sock : ℤ) (fdbk : Feedback)

/-- What one step of a thread leaves behind. -/
structure Moved where
  fdbk : Feedback
  pc : Pc
  shared : Shared
  event : Option Event

/-- Writing an entry of the table. -/
def setEntry (s : Shared) (i : ℕ) (f : TableEntry → TableEntry) : Shared :=
  { s with table := Function.update s.table i (f (s.table i)) }

/-- **One step of `serve`.** When the search ends without an entry, the access to `table[-1]` that
follows has no meaning: `none`. -/
def step (buf : Packet) (s : Shared) (fdbk : Feedback) (pc : Pc) : Option Moved :=
  let goto (pc : Pc) := some ⟨fdbk, pc, s, none⟩
  match pc with
  | .fdbkId => some ⟨{ fdbk with clientId := buf.req.clientId }, .fdbkSeq, s, none⟩
  | .fdbkSeq => some ⟨{ fdbk with seqNumber := buf.req.seqNumber }, .test 0, s, none⟩
  | .test i => if (s.table i).clientId = -1 then goto (.claimReq i) else goto (.cmp i)
  | .cmp i => goto (.cmpReq i (s.table i).clientId)
  | .cmpReq i id =>
    if id = buf.req.clientId then goto (.readSeq i)
    else if i + 1 < tableSize then goto (.test (i + 1)) else none
  | .claimReq i => goto (.claim i buf.req.clientId)
  | .claim i id =>
    some ⟨fdbk, .readSeq i, setEntry s i ({ · with clientId := id }), some (.claimed i id)⟩
  | .readSeq i => goto (.cmpOld i (s.table i).seqNum)
  | .cmpOld i temp => if temp > buf.req.seqNumber then goto (.exit false) else goto (.cmpSame i temp)
  | .cmpSame i temp =>
    if temp = buf.req.seqNumber then goto (.readDone i) else goto (.clearDone i temp)
  | .readDone i =>
    if (s.table i).done ≠ 0 then some ⟨{ fdbk with ack := 0 }, .readResult i, s, none⟩
    else some ⟨{ fdbk with ack := 1, returnVal := -1 }, .send, s, none⟩
  | .readResult i => some ⟨{ fdbk with returnVal := (s.table i).result }, .send, s, none⟩
  | .send => some ⟨fdbk, .exit false, s, some (.sent buf.sock fdbk)⟩
  | .clearDone i temp => some ⟨fdbk, .readNew i temp, setEntry s i ({ · with done := 0 }), none⟩
  | .readNew i temp => goto (.writeSeq i temp buf.req.seqNumber)
  | .writeSeq i _ seq =>
    some ⟨fdbk, .cmpIdle i, setEntry s i ({ · with seqNum := seq }), some (.marked i seq)⟩
  | .cmpIdle i => if buf.req.opcode = 0 then goto (.readTime i) else goto (.cmpGet i)
  | .readTime i => goto (.idle i buf.req.time)
  | .idle i time =>
    some ⟨fdbk, .setDone i none, s, some (.executed fdbk.clientId fdbk.seqNumber (.idle time))⟩
  | .cmpGet i => if buf.req.opcode = 1 then goto (.readGetKey i) else goto (.readPutKey i)
  | .readGetKey i => goto (.get i buf.req.key)
  | .get i key =>
    match Server.get s.datastore key with
    | none => none
    | some r =>
      some ⟨fdbk, .setDone i (some r), s, some (.executed fdbk.clientId fdbk.seqNumber (.get key))⟩
  | .readPutKey i => goto (.readPutValue i buf.req.key)
  | .readPutValue i key => goto (.put i key buf.req.value)
  | .put i key value =>
    match Server.put s.datastore key value with
    | none => none
    | some (datastore, r) => some ⟨fdbk, .setDone i (some r), { s with datastore := datastore },
        some (.executed fdbk.clientId fdbk.seqNumber (.put key value))⟩
  | .setDone i result =>
    some ⟨fdbk, result.elim (.exit true) (.setResult i), setEntry s i ({ · with done := 1 }), none⟩
  | .setResult i r => some ⟨fdbk, .exit true, setEntry s i ({ · with result := r }), none⟩
  | .exit _ => none

/-- **A step reads one field of the buffer.** -/
theorem step_congr {buf buf' : Packet} (s : Shared) (fdbk : Feedback) {pc : Pc}
    (h : ∀ f, pc.reads = some f → buf.field f = buf'.field f) :
    step buf s fdbk pc = step buf' s fdbk pc := by
  cases pc <;> simp_all [step, Pc.reads, Packet.field]

/-! ### What a thread knows of its packet -/

/-- The values that a thread has read are those of the request. -/
def Pc.Values (req : Request) : Pc → Prop
  | .claim _ id => id = req.clientId
  | .cmpSame _ temp => temp ≤ req.seqNumber
  | .clearDone _ temp | .readNew _ temp => temp < req.seqNumber
  | .writeSeq _ temp seq => temp < req.seqNumber ∧ seq = req.seqNumber
  | .readTime _ => req.opcode = 0
  | .idle _ time => operation req = .idle time
  | .cmpGet _ => req.opcode ≠ 0
  | .readGetKey _ => req.opcode = 1
  | .get _ key => operation req = .get key
  | .readPutKey _ => req.opcode ≠ 0 ∧ req.opcode ≠ 1
  | .readPutValue _ key => req.opcode ≠ 0 ∧ req.opcode ≠ 1 ∧ key = req.key
  | .put _ key value => operation req = .put key value
  | _ => True

/-- The reply in preparation is one to the request, and the values read are those of the request. -/
def Parsed (req : Request) (fdbk : Feedback) : Pc → Prop
  | .fdbkId => True
  | .fdbkSeq => fdbk.clientId = req.clientId
  | pc => fdbk.clientId = req.clientId ∧ fdbk.seqNumber = req.seqNumber ∧ pc.Values req

/-- The event concerns the packet. -/
def Event.Of (p : Packet) : Event → Prop
  | .claimed _ id => id = p.req.clientId
  | .marked _ seq => seq = p.req.seqNumber
  | .executed id seq op => id = p.req.clientId ∧ seq = p.req.seqNumber ∧ op = operation p.req
  | .sent sock fdbk =>
    sock = p.sock ∧ fdbk.clientId = p.req.clientId ∧ fdbk.seqNumber = p.req.seqNumber

/-- **A thread that reads its own packet acts on it.** -/
theorem parsed_step {own : Packet} {s : Shared} {fdbk : Feedback} {pc : Pc} {m : Moved}
    (h : Parsed own.req fdbk pc) (hs : step own s fdbk pc = some m) :
    Parsed own.req m.fdbk m.pc ∧ ∀ e, m.event = some e → e.Of own := by
  cases pc with
  | setDone i result => cases result <;> grind [step, Parsed, Pc.Values]
  | _ => grind [step, Parsed, Pc.Values, Event.Of, operation]

/-! ### The entries of the table -/

/-- The entries in use come first and belong to different clients. -/
structure Entries (table : ℕ → TableEntry) : Prop where
  inj : ∀ i j, (table i).clientId ≠ -1 → (table i).clientId = (table j).clientId → i = j
  first : ∀ i j, i ≤ j → (table j).clientId ≠ -1 → (table i).clientId ≠ -1

/-- The entries before `i` are in use, by other clients. -/
def Passed (table : ℕ → TableEntry) (clientId : ℤ) (i : ℕ) : Prop :=
  ∀ j < i, (table j).clientId ≠ -1 ∧ (table j).clientId ≠ clientId

/-- Entries in use keep their client, and `seq_num` never decreases. -/
structure Grows (t t' : ℕ → TableEntry) : Prop where
  keeps : ∀ i, (t i).clientId ≠ -1 → (t' i).clientId = (t i).clientId
  mono : ∀ i, (t i).seqNum ≤ (t' i).seqNum

theorem Grows.refl (t : ℕ → TableEntry) : Grows t t := ⟨fun _ _ => rfl, fun _ => le_rfl⟩

theorem Grows.trans {t t' t'' : ℕ → TableEntry} (h : Grows t t') (h' : Grows t' t'') :
    Grows t t'' where
  keeps i hi := by rw [h'.keeps i (by rwa [h.keeps i hi]), h.keeps i hi]
  mono i := (h.mono i).trans (h'.mono i)

theorem Passed.mono {t t' : ℕ → TableEntry} {cid : ℤ} {i : ℕ} (h : Passed t cid i)
    (hg : Grows t t') : Passed t' cid i := fun j hj => by
  rw [hg.keeps j (h j hj).1]
  exact h j hj

theorem setEntry_self (s : Shared) (i : ℕ) (f : TableEntry → TableEntry) :
    (setEntry s i f).table i = f (s.table i) := Function.update_self ..

theorem setEntry_of_ne (s : Shared) {i j : ℕ} (h : j ≠ i) (f : TableEntry → TableEntry) :
    (setEntry s i f).table j = s.table j := Function.update_of_ne h ..

section
variable {s : Shared} {i : ℕ} {f : TableEntry → TableEntry}

/-- Writing an entry without changing its client. -/
theorem Entries.setEntry (h : Entries s.table) (hf : (f (s.table i)).clientId = (s.table i).clientId) :
    Entries (setEntry s i f).table := by
  have hid : ∀ j, ((Threads.setEntry s i f).table j).clientId = (s.table j).clientId := by
    intro j
    rcases eq_or_ne j i with rfl | hj
    · rw [setEntry_self, hf]
    · rw [setEntry_of_ne s hj]
  refine ⟨fun j k => ?_, fun j k => ?_⟩
  · rw [hid, hid]; exact h.inj j k
  · rw [hid, hid]; exact h.first j k

/-- A client takes an entry that is free, or its own already, and passed all entries before it. -/
theorem Entries.claim (h : Entries s.table) {cid : ℤ} (hcid : cid ≠ -1) (hp : Passed s.table cid i)
    (hi : (s.table i).clientId = -1 ∨ (s.table i).clientId = cid) :
    Entries (Threads.setEntry s i ({ · with clientId := cid })).table := by
  -- no other entry belongs to the client
  have hother : ∀ j, j ≠ i → (s.table j).clientId ≠ cid := by
    intro j hj hjc
    rcases lt_or_gt_of_ne hj with hlt | hgt
    · exact (hp j hlt).2 hjc
    · have hne := h.first i j hgt.le (hjc ▸ hcid)
      have hic := hi.resolve_left hne
      exact hj (h.inj j i (hjc ▸ hcid) (hjc.trans hic.symm))
  refine ⟨fun j k hj hjk => ?_, fun j k hjk hk => ?_⟩
  · rcases eq_or_ne j i with rfl | hji <;> rcases eq_or_ne k j with rfl | hkj
    · rfl
    · rw [setEntry_self, setEntry_of_ne s hkj] at hjk
      exact absurd hjk.symm (hother k hkj)
    · rfl
    · rw [setEntry_of_ne s hji] at hj hjk
      rcases eq_or_ne k i with rfl | hki
      · rw [setEntry_self] at hjk
        exact absurd hjk (hother j hji)
      · rw [setEntry_of_ne s hki] at hjk
        exact h.inj j k hj hjk
  · rcases eq_or_ne j i with rfl | hji
    · rw [setEntry_self]; exact hcid
    · rw [setEntry_of_ne s hji]
      rcases eq_or_ne k i with rfl | hki
      · exact (hp j (by omega)).1
      · rw [setEntry_of_ne s hki] at hk
        exact h.first j k hjk hk

theorem Grows.setEntry (hid : (s.table i).clientId ≠ -1 →
    (f (s.table i)).clientId = (s.table i).clientId)
    (hseq : (s.table i).seqNum ≤ (f (s.table i)).seqNum) :
    Grows s.table (setEntry s i f).table := by
  refine ⟨fun j hj => ?_, fun j => ?_⟩
  · rcases eq_or_ne j i with rfl | hji
    · rw [setEntry_self, hid hj]
    · rw [setEntry_of_ne s hji]
  · rcases eq_or_ne j i with rfl | hji
    · rwa [setEntry_self]
    · rw [setEntry_of_ne s hji]

end

/-! ### What a thread knows of the table -/

/-- The index of the search. -/
def Pc.index : Pc → Option ℕ
  | .test i | .cmp i | .cmpReq i _ | .claimReq i | .claim i _ => some i
  | _ => none

/-- `found_idx`, after the search. -/
def Pc.entry : Pc → Option ℕ
  | .readSeq i | .cmpOld i _ | .cmpSame i _ | .readDone i | .readResult i | .clearDone i _
  | .readNew i _ | .writeSeq i _ _ | .cmpIdle i | .readTime i | .idle i _ | .cmpGet i | .readGetKey i
  | .get i _ | .readPutKey i | .readPutValue i _ | .put i _ _ | .setDone i _ | .setResult i _ => some i
  | _ => none

/-- **The invariant of a thread**: the search has passed the entries of other clients, the entry found
belongs to the client, and once marked, an entry of the client stays at least at the sequence number. -/
structure ThreadOk (t : ℕ → TableEntry) (p : Packet) (fdbk : Feedback) (pc : Pc) : Prop where
  id : p.req.clientId ≠ -1
  parsed : Parsed p.req fdbk pc
  passed : ∀ i, pc.index = some i → Passed t p.req.clientId i
  used : ∀ i, pc = .cmp i → (t i).clientId ≠ -1
  seen : ∀ i id, pc = .cmpReq i id → id ≠ -1 ∧ (t i).clientId = id
  owns : ∀ i, pc.entry = some i → (t i).clientId = p.req.clientId
  marked : pc.marked → ∃ i, (t i).clientId = p.req.clientId ∧ p.req.seqNumber ≤ (t i).seqNum

/-- The steps of other threads. -/
theorem ThreadOk.mono {t t' : ℕ → TableEntry} {p : Packet} {fdbk : Feedback} {pc : Pc}
    (h : ThreadOk t p fdbk pc) (hg : Grows t t') : ThreadOk t' p fdbk pc where
  id := h.id
  parsed := h.parsed
  passed i hi := (h.passed i hi).mono hg
  used i hi := by rw [hg.keeps i (h.used i hi)]; exact h.used i hi
  seen i id hi := by
    obtain ⟨h1, h2⟩ := h.seen i id hi
    exact ⟨h1, by rw [hg.keeps i (h2 ▸ h1), h2]⟩
  owns i hi := by
    have := h.owns i hi
    rw [hg.keeps i (this ▸ h.id), this]
  marked hm := by
    obtain ⟨i, hi, hs⟩ := h.marked hm
    exact ⟨i, by rw [hg.keeps i (hi ▸ h.id), hi], hs.trans (hg.mono i)⟩

/-- **The thread finds what it left**: the field it reads next is that of its own packet, the entry it
claims is free or of its client, and the `seq_num` it overwrites is `temp_seqnum`. -/
structure Undisturbed (buf : Packet) (t : ℕ → TableEntry) (own : Packet) (pc : Pc) : Prop where
  reads : ∀ f, pc.reads = some f → buf.field f = own.field f
  claim : ∀ i id, pc = .claim i id → (t i).clientId = -1 ∨ (t i).clientId = id
  mark : ∀ i temp seq, pc = .writeSeq i temp seq → (t i).seqNum = temp

instance (buf : Packet) (t : ℕ → TableEntry) (own : Packet) (pc : Pc) :
    Decidable (Undisturbed buf t own pc) :=
  decidable_of_iff
    ((∀ f ∈ pc.reads, buf.field f = own.field f) ∧
      (match pc with
        | .claim i id => decide ((t i).clientId = -1 ∨ (t i).clientId = id)
        | .writeSeq i temp _ => decide ((t i).seqNum = temp)
        | _ => true : Bool) = true)
    ⟨fun ⟨hr, hp⟩ => ⟨hr, fun i id hi => by subst hi; exact of_decide_eq_true hp,
        fun i temp seq hi => by subst hi; exact of_decide_eq_true hp⟩,
      fun ⟨hr, hc, hm⟩ => ⟨hr, by
        split
        · exact decide_eq_true (hc _ _ rfl)
        · exact decide_eq_true (hm _ _ _ rfl)
        · rfl⟩⟩

section
variable {s : Shared} {own : Packet} {fdbk : Feedback} {pc : Pc} {m : Moved} {i : ℕ}
variable (h : ThreadOk s.table own fdbk pc) (hs : step own s fdbk pc = some m)
include h hs

/-- **A step on the table** keeps the entries apart, and lets them grow. -/
theorem table_step {buf : Packet} (hu : Undisturbed buf s.table own pc) (he : Entries s.table) :
    Entries m.shared.table ∧ Grows s.table m.shared.table := by
  cases pc with
  | claim i id =>
    obtain rfl : id = own.req.clientId := h.parsed.2.2
    have hi := hu.claim i _ rfl
    cases hs
    exact ⟨he.claim h.id (h.passed i rfl) hi, .setEntry (fun hne => (hi.resolve_left hne).symm) le_rfl⟩
  | writeSeq i temp seq =>
    obtain ⟨hlt, rfl⟩ : temp < _ ∧ seq = _ := h.parsed.2.2
    have hi := hu.mark i _ _ rfl
    cases hs
    exact ⟨he.setEntry rfl, .setEntry (fun _ => rfl) (by simp only; omega)⟩
  | clearDone i temp => cases hs; exact ⟨he.setEntry rfl, .setEntry (fun _ => rfl) le_rfl⟩
  | setDone i result => cases hs; exact ⟨he.setEntry rfl, .setEntry (fun _ => rfl) le_rfl⟩
  | setResult i r => cases hs; exact ⟨he.setEntry rfl, .setEntry (fun _ => rfl) le_rfl⟩
  | _ =>
    have : m.shared.table = s.table := by grind [step]
    rw [this]
    exact ⟨he, .refl _⟩

/-- **A thread marks its entry** only if no thread has marked it for this request before. -/
theorem marked_step {buf : Packet} (hu : Undisturbed buf s.table own pc) (hm : m.pc.marked) :
    pc.marked ∨ ∃ i, (s.table i).clientId = own.req.clientId ∧
      (s.table i).seqNum < own.req.seqNumber := by
  cases pc with
  | writeSeq i temp seq =>
    obtain ⟨hlt, -⟩ : temp < _ ∧ seq = _ := h.parsed.2.2
    have hi := hu.mark i _ _ rfl
    exact Or.inr ⟨i, h.owns i rfl, by omega⟩
  | _ => grind [step, Pc.marked]

/-- The search goes on behind an entry of another client. -/
theorem passed_step (hi : m.pc.index = some i) : Passed s.table own.req.clientId i := by
  cases pc with
  | fdbkSeq =>
    cases hs
    cases hi
    exact fun j hj => absurd hj (Nat.not_lt_zero j)
  | cmpReq k id =>
    obtain ⟨hid, hk⟩ := h.seen k id rfl
    have hp := h.passed k rfl
    simp only [step] at hs
    split_ifs at hs with h1 h2
    · cases hs; cases hi
    · cases hs
      cases hi
      intro j hj
      rcases Nat.lt_succ_iff_lt_or_eq.mp hj with hlt | rfl
      · exact hp j hlt
      · exact ⟨hk ▸ hid, hk ▸ h1⟩
  | test k | cmp k | claimReq k =>
    have hp := h.passed k rfl
    grind [step, Pc.index]
  | setDone k result => cases result <;> grind [step, Pc.index]
  | _ => grind [step, Pc.index]

/-- The entry that is found, or claimed, belongs to the client. -/
theorem owns_step {buf : Packet} (hu : Undisturbed buf s.table own pc) (he : Entries s.table)
    (hi : m.pc.entry = some i) : (m.shared.table i).clientId = own.req.clientId := by
  have hold := (h.mono (table_step h hs hu he).2).owns i
  cases pc with
  | claim k id =>
    obtain rfl : id = own.req.clientId := h.parsed.2.2
    cases hs
    cases hi
    simp only [setEntry_self]
  | cmpReq k id =>
    obtain ⟨-, hk⟩ := h.seen k id rfl
    simp only [step] at hs
    split_ifs at hs with h1 h2
    · cases hs; cases hi
      rw [hk, h1]
    · cases hs; cases hi
  | setDone k result => cases result <;> grind [step, Pc.entry]
  | _ => grind [step, Pc.entry]

/-- **The invariant of the thread that moves.** -/
theorem threadOk_step {buf : Packet} (hu : Undisturbed buf s.table own pc) (he : Entries s.table) :
    ThreadOk m.shared.table own m.fdbk m.pc := by
  have hg := (table_step h hs hu he).2
  refine ⟨h.id, (parsed_step h.parsed hs).1, fun i hi => (passed_step h hs hi).mono hg, fun i hi => ?_,
    fun i id hi => ?_, fun i hi => owns_step h hs hu he hi, fun hm => ?_⟩
  · cases pc with
    | setDone k result => cases result <;> grind [step]
    | _ => grind [step]
  · cases pc with
    | cmp k =>
      have := h.used k rfl
      cases hs
      cases hi
      exact ⟨this, rfl⟩
    | setDone k result => cases result <;> grind [step]
    | _ => grind [step]
  · by_cases hm' : pc.marked
    · exact (h.mono hg).marked hm'
    · cases pc with
      | writeSeq k temp seq =>
        obtain ⟨-, rfl⟩ : temp < _ ∧ seq = _ := h.parsed.2.2
        have hk := h.owns k rfl
        cases hs
        refine ⟨k, ?_, ?_⟩
        · rw [setEntry_self]; exact hk
        · rw [setEntry_self]
      | _ => grind [step, Pc.marked]

theorem executed_step (hx : pc.executed) : m.pc.executed := by
  cases pc with
  | setDone k result => cases result <;> grind [step, Pc.executed]
  | _ => grind [step, Pc.executed]

end

theorem Pc.marked_of_executed {pc : Pc} (h : pc.executed) : pc.marked := by
  cases pc <;> first | rfl | exact h

/-! ### The system -/

/-- Where `main` stands: in `receive_packet`, before `pthread_create`, before the test of the opcode, or
in `pthread_join`. -/
inductive Main
  | recv
  | create
  | parse (t : ℕ)
  | join (t : ℕ)

/-- The clients: their addresses, and the call that each makes with a sequence number. -/
structure Clients where
  sock : ℤ → ℤ
  op : ℤ → ℤ → Op

/-- The packet of a client with a sequence number. -/
def Clients.packet (cs : Clients) (id seq : ℤ) : Packet := ⟨cs.sock id, (cs.op id seq).request id seq⟩

/-- The server, the sequence number that each client is at, and the events of the threads. -/
structure World where
  main : Main
  buf : Packet
  shared : Shared
  threads : List Thread
  seq : ℤ → ℤ
  history : List (ℕ × Event)

/-- No packet has arrived. -/
def World.start : World := ⟨.recv, ⟨0, ⟨0, 0, 0, 0, 0, 0⟩⟩, initShared, [], fun _ => 0, []⟩

/-- What moves next: a packet arrives, `main`, a thread, or a client that has its reply. -/
inductive Action
  | recv (id seq : ℤ)
  | main
  | thread (t : ℕ)
  | advance (id : ℤ)

/-- A reply with a result, to this client and sequence number. -/
def Event.replies (sock id seq : ℤ) : Event → Bool
  | .sent sock' fdbk => sock' = sock ∧ fdbk.clientId = id ∧ fdbk.seqNumber = seq ∧ fdbk.ack = 0
  | _ => false

/-- The execution of the request of this client and sequence number. -/
def Event.executes (id seq : ℤ) : Event → Bool
  | .executed id' seq' _ => id' = id ∧ seq' = seq
  | _ => false

/-- **One step of the system.** A packet that a client has sent, with its current sequence number or an
old one, may arrive at any time and any number of times. -/
def next (cs : Clients) (w : World) : Action → Option World
  | .recv id seq =>
    match w.main with
    | .recv =>
      if 0 ≤ id ∧ 0 ≤ seq ∧ seq ≤ w.seq id then
        some { w with main := .create, buf := cs.packet id seq }
      else none
    | _ => none
  | .main =>
    match w.main with
    | .recv => none
    | .create => some { w with
        main := .parse w.threads.length
        threads := w.threads ++ [⟨w.buf, ⟨0, 0, 0, 0⟩, .fdbkId⟩] }
    | .parse t => some { w with main := if w.buf.req.opcode ≠ 0 then .join t else .recv }
    | .join t =>
      match w.threads[t]? with
      | some ⟨_, _, .exit _⟩ => some { w with main := .recv }
      | _ => none
  | .thread t =>
    match w.threads[t]? with
    | none => none
    | some th => (step w.buf w.shared th.fdbk th.pc).map fun m => { w with
        shared := m.shared
        threads := w.threads.set t ⟨th.own, m.fdbk, m.pc⟩
        history := w.history ++ (m.event.map (t, ·)).toList }
  | .advance id =>
    if w.history.any fun e => e.2.replies (cs.sock id) id (w.seq id) then
      some { w with seq := Function.update w.seq id (w.seq id + 1) }
    else none

/-- The system. -/
def system (cs : Clients) : System World Action := .ofFun (· = .start) (next cs)

/-- The step is undisturbed, if it is one of a thread. -/
def Ok (w : World) : Action → Prop
  | .thread t => ∀ th, w.threads[t]? = some th → Undisturbed w.buf w.shared.table th.own th.pc
  | _ => True

instance (w : World) : (a : Action) → Decidable (Ok w a)
  | .thread t =>
    match h : w.threads[t]? with
    | some th => decidable_of_iff (Undisturbed w.buf w.shared.table th.own th.pc)
        ⟨fun hu th' ht' => by rw [h] at ht'; cases ht'; exact hu, fun hok => hok th h⟩
    | none => isTrue fun th ht => by rw [h] at ht; cases ht
  | .recv _ _ | .main | .advance _ => isTrue trivial

/-! ### The invariant -/

/-- **The invariant** of the undisturbed system: no two threads mark an entry for the same request, and
an event is of the packet of its thread. -/
structure Inv (w : World) : Prop where
  entries : Entries w.shared.table
  buf : w.main = .create → w.buf.req.clientId ≠ -1
  thread : ∀ (t : ℕ) (th : Thread), w.threads[t]? = some th → ThreadOk w.shared.table th.own th.fdbk th.pc
  marked : ∀ (t t' : ℕ) (th th' : Thread), w.threads[t]? = some th → w.threads[t']? = some th' →
    th.pc.marked → th'.pc.marked → th.own.req.clientId = th'.own.req.clientId →
    th.own.req.seqNumber = th'.own.req.seqNumber → t = t'
  event : ∀ (t : ℕ) (e : Event), (t, e) ∈ w.history → ∃ th : Thread, w.threads[t]? = some th ∧
    e.Of th.own ∧ ∀ id seq, e.executes id seq → th.pc.executed
  once : ∀ id seq, Justified
    (fun pre e => e.2.executes id seq → ∀ a ∈ pre, ¬ a.2.executes id seq) w.history

theorem inv_start : Inv .start where
  entries := ⟨fun _ _ h => absurd rfl h, fun _ _ _ h => absurd rfl h⟩
  buf h := by cases h
  thread t th h := by simp [World.start] at h
  marked t t' th th' h := by simp [World.start] at h
  event t e h := by simp [World.start] at h
  once id seq := justified_nil

/-- The step of a thread that executes. -/
theorem executes_step {p : Packet} {s : Shared} {fdbk : Feedback} {pc : Pc} {m : Moved} {e : Event}
    (hs : step p s fdbk pc = some m) (he : m.event = some e) {id seq : ℤ} (hx : e.executes id seq) :
    pc.marked ∧ ¬ pc.executed ∧ m.pc.executed := by
  cases pc with
  | setDone k result => cases hs; cases he
  | _ => grind [step, Pc.marked, Pc.executed, Event.executes]

/-- A new thread, on a packet of a client. -/
theorem Inv.create {w : World} (h : Inv w) (hm : w.main = .create) {main : Main}
    (hmain : main ≠ .create) :
    Inv { w with main := main, threads := w.threads ++ [⟨w.buf, ⟨0, 0, 0, 0⟩, .fdbkId⟩] } := by
  have hget : ∀ (t : ℕ) (th : Thread), (w.threads ++ [⟨w.buf, ⟨0, 0, 0, 0⟩, .fdbkId⟩])[t]? = some th →
      w.threads[t]? = some th ∨ th = ⟨w.buf, ⟨0, 0, 0, 0⟩, .fdbkId⟩ := by
    intro t th ht
    rw [List.getElem?_append] at ht
    split_ifs at ht with hlt
    · exact Or.inl ht
    · exact Or.inr (List.mem_singleton.mp (List.mem_of_getElem? ht))
  refine { h with buf := fun he => absurd he hmain, thread := ?_, marked := ?_, event := ?_ }
  · intro t th ht
    rcases hget t th ht with ht | rfl
    · exact h.thread t th ht
    · exact ⟨h.buf hm, trivial, nofun, nofun, nofun, nofun, nofun⟩
  · intro t t' th th' ht ht' hth hth'
    rcases hget t th ht with ht | rfl
    · rcases hget t' th' ht' with ht' | rfl
      · exact h.marked t t' th th' ht ht' hth hth'
      · cases hth'
    · cases hth
  · intro t e he
    obtain ⟨th, ht, hof⟩ := h.event t e he
    refine ⟨th, ?_, hof⟩
    obtain ⟨hlt, -⟩ := List.getElem?_eq_some_iff.mp ht
    exact (List.getElem?_append_left hlt).trans ht

/-- **The step of a thread.** -/
theorem Inv.move {w : World} (h : Inv w) {t : ℕ} {th : Thread} (ht : w.threads[t]? = some th)
    (hu : Undisturbed w.buf w.shared.table th.own th.pc) {m : Moved}
    (hs : step w.buf w.shared th.fdbk th.pc = some m) :
    Grows w.shared.table m.shared.table ∧ Inv { w with
      shared := m.shared
      threads := w.threads.set t ⟨th.own, m.fdbk, m.pc⟩
      history := w.history ++ (m.event.map (t, ·)).toList } := by
  rw [step_congr w.shared th.fdbk hu.reads] at hs
  have hth := h.thread t th ht
  obtain ⟨hentries, hgrows⟩ := table_step hth hs hu h.entries
  obtain ⟨-, hevent⟩ := parsed_step hth.parsed hs
  have hlt := (List.getElem?_eq_some_iff.mp ht).1
  have hself : (w.threads.set t ⟨th.own, m.fdbk, m.pc⟩)[t]? = some ⟨th.own, m.fdbk, m.pc⟩ :=
    List.getElem?_set_self hlt
  have hother : ∀ {t'}, t' ≠ t → (w.threads.set t ⟨th.own, m.fdbk, m.pc⟩)[t']? = w.threads[t']? :=
    fun hne => List.getElem?_set_ne hne.symm
  -- a thread that has marked an entry for the same request is this one
  have hsame : ∀ (t' : ℕ) (th' : Thread), w.threads[t']? = some th' → th'.pc.marked → m.pc.marked →
      th'.own.req.clientId = th.own.req.clientId →
      th'.own.req.seqNumber = th.own.req.seqNumber → t' = t := by
    intro t' th' ht' hmark' hmark hid hseq
    rcases marked_step hth hs hu hmark with hold | ⟨i, hi, hfresh⟩
    · exact h.marked t' t th' th ht' ht hmark' hold hid hseq
    · have hok := h.thread t' th' ht'
      obtain ⟨j, hj, hle⟩ := hok.marked hmark'
      obtain rfl : j = i := h.entries.inj j i (hj ▸ hok.id) (by rw [hj, hi, hid])
      omega
  refine ⟨hgrows, hentries, h.buf, fun t' th' ht' => ?_, fun t₁ t₂ th₁ th₂ h₁ h₂ hm₁ hm₂ hid hseq => ?_,
    fun t' e he => ?_, fun id seq => ?_⟩
  · rcases eq_or_ne t' t with rfl | hne
    · cases hself.symm.trans ht'
      exact threadOk_step hth hs hu h.entries
    · exact (h.thread t' th' (hother hne ▸ ht')).mono hgrows
  · rcases eq_or_ne t₁ t with rfl | hne₁ <;> rcases eq_or_ne t₂ t₁ with rfl | hne₂
    · rfl
    · cases hself.symm.trans h₁
      exact (hsame t₂ th₂ (hother hne₂ ▸ h₂) hm₂ hm₁ hid.symm hseq.symm).symm
    · rfl
    · rw [hother hne₁] at h₁
      rcases eq_or_ne t₂ t with rfl | hne
      · cases hself.symm.trans h₂
        exact hsame t₁ th₁ h₁ hm₁ hm₂ hid hseq
      · exact h.marked t₁ t₂ th₁ th₂ h₁ (hother hne ▸ h₂) hm₁ hm₂ hid hseq
  · rcases List.mem_append.mp he with he | he
    · obtain ⟨th', ht', hof, hx⟩ := h.event t' e he
      rcases eq_or_ne t' t with rfl | hne
      · cases ht.symm.trans ht'
        exact ⟨_, hself, hof, fun id seq hi => executed_step hth hs (hx id seq hi)⟩
      · exact ⟨th', (hother hne).trans ht', hof, hx⟩
    · obtain ⟨e', he', heq⟩ := Option.map_eq_some_iff.mp (Option.mem_toList.mp he)
      cases heq
      exact ⟨_, hself, hevent e he', fun id seq hi => (executes_step hs he' hi).2.2⟩
  · rcases hme : m.event with _ | e
    · simpa [hme] using h.once id seq
    · simp only [Option.map_some, Option.toList_some]
      refine justified_snoc.mpr ⟨h.once id seq, fun hx => ?_⟩
      rintro ⟨t', e'⟩ ha hx'
      obtain ⟨hmark, hnot, hdone⟩ := executes_step hs hme hx
      obtain ⟨th', ht', hof', hx''⟩ := h.event t' e' ha
      have hdone' := hx'' id seq hx'
      obtain ⟨hid, hseq⟩ : th'.own.req.clientId = th.own.req.clientId ∧
          th'.own.req.seqNumber = th.own.req.seqNumber := by
        have hof := hevent e hme
        cases e <;> cases e' <;> simp_all [Event.executes, Event.Of]
      obtain rfl := hsame t' th' ht' (Pc.marked_of_executed hdone') (Pc.marked_of_executed hdone)
        hid hseq
      cases ht.symm.trans ht'
      exact hnot hdone'

/-- **Every undisturbed step** keeps the invariant and lets the entries grow. -/
theorem inv_step {cs : Clients} {w w' : World} {a : Action} (h : Inv w) (hok : Ok w a)
    (hs : next cs w a = some w') : Grows w.shared.table w'.shared.table ∧ Inv w' := by
  cases a with
  | recv id seq =>
    simp only [next] at hs
    split at hs
    · split_ifs at hs with hc
      cases hs
      have hne : id ≠ -1 := by omega
      exact ⟨.refl _, { h with buf := fun _ => by simpa [Clients.packet] using hne }⟩
    · cases hs
  | main =>
    simp only [next] at hs
    split at hs
    · cases hs
    · rename_i hm
      cases hs
      exact ⟨.refl _, h.create hm (by simp)⟩
    · cases hs
      refine ⟨.refl _, { h with buf := fun he => ?_ }⟩
      simp only at he
      split_ifs at he
    · split at hs
      · cases hs
        exact ⟨.refl _, { h with buf := fun he => by cases he }⟩
      · cases hs
  | thread t =>
    simp only [next] at hs
    split at hs
    · cases hs
    · rename_i th ht
      obtain ⟨m, hm, rfl⟩ := Option.map_eq_some_iff.mp hs
      exact h.move ht (hok th ht) hm
  | advance id =>
    simp only [next] at hs
    split_ifs at hs
    cases hs
    exact ⟨.refl _, { h with }⟩

theorem inv_reachable {cs : Clients} {w : World} (h : ((system cs).only Ok).Reachable w) : Inv w := by
  refine h.invariant (I := Inv) (fun s hs => ?_)
    fun s a t _ hi (hst : Ok s a ∧ next cs s a = some t) => (inv_step hi hst.1 hst.2).2
  obtain rfl : s = .start := hs
  exact inv_start

/-! ### At most once -/

/-- **At most once, while the steps are undisturbed.** In every run in which each thread finds what it
left: a thread does everything it does for the packet it was created for, on the entry of its client; no
`seq_num` ever decreases; and the request of a client and sequence number is executed at most once. -/
theorem at_most_once (cs : Clients) {w : World} (h : ((system cs).only Ok).Reachable w) :
    (∀ (t : ℕ) (th : Thread), w.threads[t]? = some th →
      (∀ e, (t, e) ∈ w.history → e.Of th.own) ∧
      ∀ i, th.pc.entry = some i → (w.shared.table i).clientId = th.own.req.clientId) ∧
    (∀ as w', ((system cs).only Ok).Run w as w' →
      ∀ i, (w.shared.table i).seqNum ≤ (w'.shared.table i).seqNum) ∧
    ∀ id seq, w.history.countP (fun e => e.2.executes id seq) ≤ 1 := by
  have hinv := inv_reachable h
  refine ⟨fun t th ht => ⟨fun e he => ?_, (hinv.thread t th ht).owns⟩, fun as w' hrun => ?_,
    fun id seq => countP_le_one (hinv.once id seq)⟩
  · obtain ⟨th', ht', hof, -⟩ := hinv.event t e he
    cases ht.symm.trans ht'
    exact hof
  · have hgrows := System.Run.rel (r := fun w w' => Grows w.shared.table w'.shared.table)
      (fun _ => .refl _) (fun _ _ _ => .trans)
      (fun s a t hs (hst : Ok s a ∧ next cs s a = some t) => (inv_step (inv_reachable hs) hst.1 hst.2).1) h hrun
    exact hgrows.mono

/-! ### Runs -/

/-- Clients that make idle calls only. -/
def idlers : Clients := ⟨id, fun _ _ => .idle 1⟩

/-- A packet of client 7 arrives, and its thread makes `n` steps. -/
def arrival (t n : ℕ) : List Action := [.recv 7 0, .main, .main] ++ List.replicate n (.thread t)

/-- A thread on its own executes the request, and the thread of a duplicate that comes later does not. -/
theorem at_most_once_idlers : ∃ w, ((system idlers).only Ok).Reachable w ∧
    w.history.length = 4 ∧ w.history.countP (fun e => e.2.executes 7 0) ≤ 1 := by
  have hrun : (runFun (fun w a => if Ok w a then next idlers w a else none) .start
      (arrival 0 15 ++ arrival 1 11)).map (fun w => w.history.length) = some 4 := rfl
  obtain ⟨w, hw, hlength⟩ := Option.map_eq_some_iff.mp hrun
  have hr : ((system idlers).only Ok).Reachable w := by
    refine reachable_runFun (fun s a t hs => ?_) (.init rfl) hw
    split_ifs at hs with hok
    exact ⟨hok, hs⟩
  exact ⟨w, hr, hlength, (at_most_once idlers hr).2.2 7 0⟩

/-- **A duplicate and a delayed thread.** Both threads read `seq_num` before either writes it, and both
execute the request. -/
theorem idle_executed_twice : ∃ w, (system idlers).Reachable w ∧
    w.history.countP (fun e => e.2.executes 7 0) = 2 := by
  have hrun : (runFun (next idlers) .start (arrival 0 6 ++ arrival 1 6 ++
      List.replicate 8 (.thread 0) ++ List.replicate 8 (.thread 1))).map
        (fun w => w.history.countP fun e => e.2.executes 7 0) = some 2 := rfl
  obtain ⟨w, hw, hcount⟩ := Option.map_eq_some_iff.mp hrun
  exact ⟨w, reachable_runFun (fun _ _ _ h => h) (.init rfl) hw, hcount⟩

end OperatingSystems.Rpc.Threads
