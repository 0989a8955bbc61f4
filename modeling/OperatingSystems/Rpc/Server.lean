import Mathlib.Tactic

/-! # The RPC server

The packets, the key-value store, the table of clients and `serve`, as one thread runs it when no other
thread runs: the thread of a `get` or `put` is joined before the next packet is received. The table is
an array of 100 entries in which the client id `-1` marks a free entry.

* `claimEntry`: the search of the table, which assigns a free entry to a new client.
* `recordOf t cid`: what the table knows about a client. `serve` is a step on this map:
  `claimEntry_spec` finds the record of the client, and `recordOf_update` says that writing the found
  entry changes the record of that client alone.
* `TableOk`: the used entries come first and belong to different clients out of a given set. A set of
  at most 100 clients so always finds an entry. -/

namespace OperatingSystems.Rpc.Server

/-! ### Packets -/

/-- `client_request_t`. -/
structure Request where
  opcode : ℤ
  clientId : ℤ
  seqNumber : ℤ
  time : ℤ
  key : ℤ
  value : ℤ
  deriving DecidableEq

/-- `server_feedback_t`. -/
structure Feedback where
  clientId : ℤ
  seqNumber : ℤ
  ack : ℤ
  returnVal : ℤ
  deriving DecidableEq

/-- The calls of a client: `RPC_idle`, `RPC_get` and `RPC_put`. -/
inductive Op
  | idle (time : ℤ)
  | get (key : ℤ)
  | put (key value : ℤ)
  deriving DecidableEq

/-- The request that a call builds. -/
def Op.request (clientId seqNumber : ℤ) : Op → Request
  | .idle time => ⟨0, clientId, seqNumber, time, -1, -1⟩
  | .get key => ⟨1, clientId, seqNumber, -1, key, -1⟩
  | .put key value => ⟨2, clientId, seqNumber, -1, key, value⟩

@[simp] theorem Op.request_clientId (cid seq : ℤ) (op : Op) : (op.request cid seq).clientId = cid := by
  cases op <;> rfl

@[simp] theorem Op.request_seqNumber (cid seq : ℤ) (op : Op) : (op.request cid seq).seqNumber = seq := by
  cases op <;> rfl

/-! ### The store -/

/-- `NUMKEYS`. -/
def numkeys : ℕ := 1024

/-- `get`. The index `NUMKEYS` passes the test but lies behind the array: `none`. -/
def get (datastore : ℕ → ℤ) (key : ℤ) : Option ℤ :=
  if key > numkeys ∨ key < 0 then some (-1)
  else if key.toNat < numkeys then some (datastore key.toNat) else none

/-- `put`, with the store it leaves. -/
def put (datastore : ℕ → ℤ) (key value : ℤ) : Option ((ℕ → ℤ) × ℤ) :=
  if key > numkeys ∨ key < 0 then some (datastore, -1)
  else if key.toNat < numkeys then some (Function.update datastore key.toNat value, 0) else none

/-! ### The table -/

/-- `struct table_entry`. -/
structure TableEntry where
  clientId : ℤ
  seqNum : ℤ
  done : ℤ
  result : ℤ
  deriving DecidableEq

/-- The length of the table. -/
def tableSize : ℕ := 100

/-- An entry as `main` initialises it. -/
def freeEntry : TableEntry := ⟨-1, -1, 0, -1⟩

/-- The search for a client from index `i` on, `n` entries long: `found_idx` and `next_idx`, of which
`none` is `-1`. -/
def searchTable (table : ℕ → TableEntry) (clientId : ℤ) : ℕ → ℕ → Option ℕ × Option ℕ
  | 0, _ => (none, none)
  | n + 1, i =>
    if (table i).clientId = -1 then (none, some i)
    else if (table i).clientId = clientId then (some i, none)
    else searchTable table clientId n (i + 1)

/-- The search, and the assignment of a free entry if the client is not found. Without either,
`found_idx` stays `-1` and `serve` would access `table[-1]`: `none`. -/
def claimEntry (table : ℕ → TableEntry) (clientId : ℤ) : Option ((ℕ → TableEntry) × ℕ) :=
  match searchTable table clientId tableSize 0 with
  | (_, some i) => some (Function.update table i { table i with clientId := clientId }, i)
  | (some i, none) => some (table, i)
  | (none, none) => none

/-! ### Serving a packet -/

/-- The memory that the threads of the server share. -/
structure Shared where
  table : ℕ → TableEntry
  datastore : ℕ → ℤ

/-- What `serve` does for a packet: nothing, a reply, or the operation with its result (for an idle,
the result that the entry keeps). -/
inductive Outcome
  | ignored
  | replied (fdbk : Feedback)
  | executed (result : ℤ)

/-- The reply to a request that the table has already seen. -/
def resend (req : Request) (e : TableEntry) : Feedback :=
  if e.done ≠ 0 then ⟨req.clientId, req.seqNumber, 0, e.result⟩
  else ⟨req.clientId, req.seqNumber, 1, -1⟩

/-- The operation of a new request, with the store and the result it leaves. -/
def execute (datastore : ℕ → ℤ) (req : Request) (result : ℤ) : Option ((ℕ → ℤ) × ℤ) :=
  if req.opcode = 0 then some (datastore, result)
  else if req.opcode = 1 then (get datastore req.key).map fun r => (datastore, r)
  else put datastore req.key req.value

/-- **`serve`**, from the search of the table to the end of the thread. -/
def serve (s : Shared) (req : Request) : Option (Shared × Outcome) :=
  (claimEntry s.table req.clientId).bind fun (table, i) =>
    let e := table i
    if e.seqNum > req.seqNumber then some ({ s with table := table }, .ignored)
    else if e.seqNum = req.seqNumber then
      some ({ s with table := table }, .replied (resend req e))
    else (execute s.datastore req e.result).map fun (datastore, result) =>
      (⟨Function.update table i { e with seqNum := req.seqNumber, done := 1, result := result },
        datastore⟩, .executed result)

/-- The shared memory as `main` initialises it. -/
def initShared : Shared := ⟨fun _ => freeEntry, fun _ => 0⟩

/-! ### The table as a map -/

/-- The first entry of a client. -/
def indexOf (table : ℕ → TableEntry) (clientId : ℤ) : Option ℕ :=
  (List.range tableSize).find? fun i => (table i).clientId = clientId

/-- **What the table knows about a client**: its entry, or a free one under its id. -/
def recordOf (table : ℕ → TableEntry) (clientId : ℤ) : TableEntry :=
  match indexOf table clientId with
  | some i => table i
  | none => { freeEntry with clientId := clientId }

/-- The entries in use are the first `used`, of different clients in `ids`. -/
structure TableOk (ids : Finset ℤ) (table : ℕ → TableEntry) (used : ℕ) : Prop where
  le : used ≤ tableSize
  mem : ∀ i < used, (table i).clientId ∈ ids
  inj : ∀ i < used, ∀ j < used, (table i).clientId = (table j).clientId → i = j
  free : ∀ i, used ≤ i → table i = freeEntry

theorem indexOf_eq_some {t : ℕ → TableEntry} {cid : ℤ} {i : ℕ} :
    indexOf t cid = some i ↔
      i < tableSize ∧ (t i).clientId = cid ∧ ∀ j < i, (t j).clientId ≠ cid := by
  rw [indexOf, List.find?_range_eq_some]
  simp only [decide_eq_true_eq, List.mem_range, Bool.not_eq_true', decide_eq_false_iff_not]
  tauto

theorem indexOf_eq_none {t : ℕ → TableEntry} {cid : ℤ} :
    indexOf t cid = none ↔ ∀ i < tableSize, (t i).clientId ≠ cid := by
  simp [indexOf, List.find?_eq_none]

/-- The index of a client depends on the client ids alone. -/
theorem indexOf_congr {t t' : ℕ → TableEntry} {cid : ℤ}
    (h : ∀ i, (t' i).clientId = cid ↔ (t i).clientId = cid) : indexOf t' cid = indexOf t cid := by
  unfold indexOf
  congr 1
  funext i
  exact decide_eq_decide.mpr (h i)

/-- **Writing the entry of a client** changes the record of that client alone. -/
theorem recordOf_update {t : ℕ → TableEntry} {cid : ℤ} {i : ℕ} (hi : indexOf t cid = some i)
    {e : TableEntry} (he : e.clientId = cid) (c : ℤ) :
    recordOf (Function.update t i e) c = if c = cid then e else recordOf t c := by
  have hcid := (indexOf_eq_some.mp hi).2.1
  have hidx : indexOf (Function.update t i e) c = indexOf t c := by
    refine indexOf_congr fun j => ?_
    by_cases hj : j = i
    · subst hj; rw [Function.update_self, he, hcid]
    · rw [Function.update_of_ne hj]
  unfold recordOf
  rw [hidx]
  split_ifs with hc
  · subst hc; rw [hi]; exact Function.update_self ..
  · rcases hj : indexOf t c with _ | j
    · rfl
    · have hne : j ≠ i := by
        rintro rfl
        exact hc ((indexOf_eq_some.mp hj).2.1.symm.trans hcid)
      exact Function.update_of_ne hne ..

@[simp] theorem recordOf_clientId (t : ℕ → TableEntry) (cid : ℤ) : (recordOf t cid).clientId = cid := by
  unfold recordOf
  rcases h : indexOf t cid with _ | i
  · rfl
  · exact (indexOf_eq_some.mp h).2.1

/-! ### The search -/

theorem searchTable_found {t : ℕ → TableEntry} {cid : ℤ} :
    ∀ {n i j : ℕ}, i ≤ j → j < i + n → (∀ m, i ≤ m → m ≤ j → (t m).clientId ≠ -1) →
      (t j).clientId = cid → (∀ m, i ≤ m → m < j → (t m).clientId ≠ cid) →
      searchTable t cid n i = (some j, none)
  | 0, i, j, hij, hjn, _, _, _ => by omega
  | n + 1, i, j, hij, hjn, hused, hj, hfirst => by
    rw [searchTable, if_neg (hused i le_rfl hij)]
    rcases Nat.eq_or_lt_of_le hij with rfl | hlt
    · rw [if_pos hj]
    · rw [if_neg (hfirst i le_rfl hlt)]
      exact searchTable_found hlt (by omega) (fun m h1 h2 => hused m (by omega) h2) hj
        (fun m h1 h2 => hfirst m (by omega) h2)

theorem searchTable_next {t : ℕ → TableEntry} {cid : ℤ} :
    ∀ {n i j : ℕ}, i ≤ j → j < i + n → (∀ m, i ≤ m → m < j → (t m).clientId ≠ -1) →
      (t j).clientId = -1 → (∀ m, i ≤ m → m < j → (t m).clientId ≠ cid) →
      searchTable t cid n i = (none, some j)
  | 0, i, j, hij, hjn, _, _, _ => by omega
  | n + 1, i, j, hij, hjn, hused, hj, hfirst => by
    rw [searchTable]
    rcases Nat.eq_or_lt_of_le hij with rfl | hlt
    · rw [if_pos hj]
    · rw [if_neg (hused i le_rfl hlt), if_neg (hfirst i le_rfl hlt)]
      exact searchTable_next hlt (by omega) (fun m h1 h2 => hused m (by omega) h2) hj
        (fun m h1 h2 => hfirst m (by omega) h2)

section TableOk
variable {ids : Finset ℤ} {t : ℕ → TableEntry} {used : ℕ} {cid : ℤ} (h : TableOk ids t used)
include h

/-- The clients of the used entries and a client without an entry fit into the set. -/
theorem TableOk.used_lt (hcard : ids.card ≤ tableSize) (hcid : cid ∈ ids)
    (hnone : indexOf t cid = none) : used < tableSize := by
  have hsub : (Finset.range used).image (fun i => (t i).clientId) ⊆ ids.erase cid := by
    intro x hx
    obtain ⟨i, hi, rfl⟩ := Finset.mem_image.mp hx
    have hi' := Finset.mem_range.mp hi
    have hle := h.le
    exact Finset.mem_erase.mpr
      ⟨indexOf_eq_none.mp hnone i (by omega), h.mem i hi'⟩
  have hinj : Set.InjOn (fun i => (t i).clientId) (Finset.range used) := by
    intro i hi j hj hij
    exact h.inj i (by simpa using hi) j (by simpa using hj) hij
  have hle := Finset.card_le_card hsub
  rw [Finset.card_image_of_injOn hinj, Finset.card_range, Finset.card_erase_of_mem hcid] at hle
  have hpos := Finset.card_pos.mpr ⟨cid, hcid⟩
  omega

/-- Rewriting a used entry under the same client id. -/
theorem TableOk.update {i : ℕ} (hi : i < used) {e : TableEntry}
    (he : e.clientId = (t i).clientId) : TableOk ids (Function.update t i e) used := by
  have hid : ∀ j, (Function.update t i e j).clientId = (t j).clientId := by
    intro j
    by_cases hj : j = i
    · subst hj; rw [Function.update_self, he]
    · rw [Function.update_of_ne hj]
  refine ⟨h.le, fun j hj => ?_, fun j hj k hk hjk => ?_, fun j hj => ?_⟩
  · rw [hid]; exact h.mem j hj
  · rw [hid, hid] at hjk; exact h.inj j hj k hk hjk
  · rw [Function.update_of_ne (by omega)]
    exact h.free j hj

/-- A new client takes the first free entry. -/
theorem TableOk.claim (hlt : used < tableSize) (hcid : cid ∈ ids)
    (hnone : ∀ i < used, (t i).clientId ≠ cid) :
    TableOk ids (Function.update t used { freeEntry with clientId := cid }) (used + 1) := by
  refine ⟨hlt, fun i hi => ?_, fun i hi j hj hij => ?_, fun i hi => ?_⟩
  · by_cases hiu : i = used
    · subst hiu; rwa [Function.update_self]
    · rw [Function.update_of_ne hiu]
      exact h.mem i (by omega)
  · by_cases hiu : i = used <;> by_cases hju : j = used
    · rw [hiu, hju]
    · subst hiu
      rw [Function.update_self, Function.update_of_ne hju] at hij
      exact absurd hij.symm (hnone j (by omega))
    · subst hju
      rw [Function.update_self, Function.update_of_ne hiu] at hij
      exact absurd hij (hnone i (by omega))
    · rw [Function.update_of_ne hiu, Function.update_of_ne hju] at hij
      exact h.inj i (by omega) j (by omega) hij
  · rw [Function.update_of_ne (by omega)]
    exact h.free i (by omega)

/-- **The search finds the record of the client**, in an entry that is then its own, and no record
of a client changes. -/
theorem claimEntry_spec (hcard : ids.card ≤ tableSize) (hfree : (-1 : ℤ) ∉ ids) (hcid : cid ∈ ids) :
    ∃ t' i used', claimEntry t cid = some (t', i) ∧ TableOk ids t' used' ∧ i < used' ∧
      indexOf t' cid = some i ∧ t' i = recordOf t cid ∧
      ∀ c, c ≠ -1 → recordOf t' c = recordOf t c := by
  have hne : ∀ m < used, (t m).clientId ≠ -1 := fun m hm he => hfree (he ▸ h.mem m hm)
  have hcid' : cid ≠ -1 := fun he => hfree (he ▸ hcid)
  rcases hidx : indexOf t cid with _ | i
  · have hnone := indexOf_eq_none.mp hidx
    have hlt := h.used_lt hcard hcid hidx
    have hu : t used = freeEntry := h.free used le_rfl
    have hs : searchTable t cid tableSize 0 = (none, some used) :=
      searchTable_next (Nat.zero_le _) (by omega) (fun m _ hm => hne m hm) (by rw [hu]; rfl)
        (fun m _ hm => hnone m (by omega))
    have hrec : recordOf t cid = { freeEntry with clientId := cid } := by
      unfold recordOf; rw [hidx]
    have hidx' : indexOf (Function.update t used { freeEntry with clientId := cid }) cid =
        some used := by
      refine indexOf_eq_some.mpr ⟨hlt, by rw [Function.update_self], fun j hj => ?_⟩
      rw [Function.update_of_ne (by omega)]
      exact hnone j (by omega)
    refine ⟨Function.update t used { freeEntry with clientId := cid }, used, used + 1, ?_,
      h.claim hlt hcid (fun i hi => hnone i (by omega)), Nat.lt_succ_self _, hidx', ?_,
      fun c hc => ?_⟩
    · rw [claimEntry, hs]
      simp only [hu]
    · rw [Function.update_self, hrec]
    · by_cases hcc : c = cid
      · subst hcc
        rw [hrec]
        unfold recordOf
        rw [hidx']
        exact Function.update_self ..
      · -- neither the free entry nor the new one belongs to `c`
        have hidxc : indexOf (Function.update t used { freeEntry with clientId := cid }) c =
            indexOf t c := by
          refine indexOf_congr fun j => ?_
          by_cases hj : j = used
          · subst hj
            rw [Function.update_self, hu]
            exact ⟨fun he => absurd he.symm hcc, fun he => absurd he.symm hc⟩
          · rw [Function.update_of_ne hj]
        unfold recordOf
        rw [hidxc]
        rcases hj : indexOf t c with _ | j
        · rfl
        · refine Function.update_of_ne ?_ ..
          rintro rfl
          have := (indexOf_eq_some.mp hj).2.1
          rw [hu] at this
          exact hc this.symm
  · obtain ⟨hi, hic, hfirst⟩ := indexOf_eq_some.mp hidx
    have hiu : i < used := by
      by_contra hge
      rw [h.free i (by omega)] at hic
      exact hcid' hic.symm
    have hs : searchTable t cid tableSize 0 = (some i, none) :=
      searchTable_found (Nat.zero_le _) (by omega) (fun m _ hm => hne m (by omega)) hic
        (fun m _ hm => hfirst m hm)
    refine ⟨t, i, used, by rw [claimEntry, hs], h, hiu, hidx, ?_, fun c _ => rfl⟩
    unfold recordOf
    rw [hidx]

end TableOk

/-! ### Serving, on the map -/

/-- **`serve` as a step on the record of the client.** -/
def serveRecord (e : TableEntry) (datastore : ℕ → ℤ) (req : Request) :
    Option ((TableEntry × (ℕ → ℤ)) × Outcome) :=
  if e.seqNum > req.seqNumber then some ((e, datastore), .ignored)
  else if e.seqNum = req.seqNumber then some ((e, datastore), .replied (resend req e))
  else (execute datastore req e.result).map fun (datastore, result) =>
    (({ e with seqNum := req.seqNumber, done := 1, result := result }, datastore), .executed result)

/-- **`serve` refines the step on the record**, and touches the record of no other client. -/
theorem serve_spec {ids : Finset ℤ} {s : Shared} {used : ℕ} (h : TableOk ids s.table used)
    (hcard : ids.card ≤ tableSize) (hfree : (-1 : ℤ) ∉ ids) {req : Request}
    (hcid : req.clientId ∈ ids) {e : TableEntry} {ds : ℕ → ℤ} {o : Outcome}
    (hr : serveRecord (recordOf s.table req.clientId) s.datastore req = some ((e, ds), o)) :
    ∃ s' used', serve s req = some (s', o) ∧ TableOk ids s'.table used' ∧ s'.datastore = ds ∧
      ∀ c, c ≠ -1 →
        recordOf s'.table c = if c = req.clientId then e else recordOf s.table c := by
  obtain ⟨t, i, used', hclaim, hok, hi, hidx, hti, hrec⟩ := claimEntry_spec h hcard hfree hcid
  have hsame : ∀ c, c ≠ -1 → recordOf t c =
      if c = req.clientId then recordOf s.table req.clientId else recordOf s.table c := by
    intro c hc
    rw [hrec c hc]
    split_ifs with hcc
    · rw [hcc]
    · rfl
  unfold serve
  rw [hclaim, Option.bind_some]
  unfold serveRecord at hr
  simp only [hti]
  split_ifs at hr ⊢ with h1 h2
  · cases hr
    exact ⟨_, used', rfl, hok, rfl, hsame⟩
  · cases hr
    exact ⟨_, used', rfl, hok, rfl, hsame⟩
  · obtain ⟨⟨ds', r⟩, hex, hr⟩ := Option.map_eq_some_iff.mp hr
    cases hr
    rw [hex]
    refine ⟨_, used', rfl, hok.update hi ?_, rfl, fun c hc => ?_⟩
    · rw [hti]
    · refine (recordOf_update hidx ?_ c).trans (by rw [hrec c hc])
      exact recordOf_clientId _ _

theorem tableOk_init (ids : Finset ℤ) : TableOk ids initShared.table 0 :=
  ⟨Nat.zero_le _, fun i hi => by omega, fun i hi => by omega, fun _ _ => rfl⟩

theorem recordOf_init {cid : ℤ} (hcid : cid ≠ -1) :
    recordOf initShared.table cid = { freeEntry with clientId := cid } := by
  unfold recordOf
  rw [indexOf_eq_none.mpr fun i _ => Ne.symm hcid]

end OperatingSystems.Rpc.Server
