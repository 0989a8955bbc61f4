import OperatingSystems.Lib.Transition
import OperatingSystems.Rpc.Server

/-! # Any clients

The server with `get` and `put` requests of arbitrary clients, one after the other. Beside the shared memory we
keep `seen`, the clients that were served. The table holds one entry for each of them (`Booked`), until it is
full or a request carries the id `-1`, which marks the free entries. -/

namespace OperatingSystems.Rpc.Clients

open OperatingSystems.Lib.Transition OperatingSystems.Rpc.Server

/-- `serve`, from packet to packet. `get` and `put` of the key `NUMKEYS` go behind the store: any result, and any
store, but the table is left alone. -/
inductive Serves (s : Shared) (req : Request) : Shared → Prop
  | serve {s' : Shared} {o : Outcome} (h : serve s req = some (s', o)) : Serves s req s'
  | behind {t : ℕ → TableEntry} {i : ℕ} (r : ℤ) (datastore : ℕ → ℤ)
      (hclaim : claimEntry s.table req.clientId = some (t, i))
      (hnew : (t i).seqNum < req.seqNumber) (hex : execute s.datastore req (t i).result = none) :
      Serves s req ⟨Function.update t i { t i with seqNum := req.seqNumber, done := 1, result := r }, datastore⟩

/-- The server, with `get` and `put` requests. -/
def server : System Shared Request where
  init s := s = initShared
  step s req s' := req.opcode ≠ 0 ∧ Serves s req s'

/-- The client of the request was served; the id `-1` does not stay in the table. -/
def note (_ : Shared) (req : Request) (seen : Finset ℤ) : Finset ℤ :=
  if req.clientId = -1 then seen else insert req.clientId seen

/-- The server, with the clients it has seen. -/
def runs : System (Shared × Finset ℤ) Request := server.beside ∅ note

/-- There is an entry for the client, and a client `-1` has nothing executed. -/
def Good (x : Shared × Finset ℤ) (req : Request) : Prop :=
  (req.clientId = -1 → req.seqNumber ≤ -1) ∧ (req.clientId ∈ x.2 ∨ x.2.card < tableSize)

/-- Whoever was not seen would start from a fresh entry. -/
def Fresh (x : Shared × Finset ℤ) : Prop :=
  ∀ c ∉ x.2, ∀ t i, claimEntry x.1.table c = some (t, i) → t i = { freeEntry with clientId := c }

/-- **The request is served**: from an entry of the table, a fresh one for a new client; and no other client
notices. -/
structure Served (x : Shared × Finset ℤ) (req : Request) : Prop where
  entry : ∃ t i, claimEntry x.1.table req.clientId = some (t, i) ∧ i < tableSize ∧
    (req.clientId ∉ x.2 → t i = { freeEntry with clientId := req.clientId })
  first : req.clientId ∉ x.2 → req.seqNumber = 0 →
    ∀ s o, serve x.1 req = some (s, o) → ∃ r, o = .executed r
  others : ∀ y, runs.step x req y → Fresh y ∧ ∀ c, c ≠ req.clientId → recordOf y.1.table c = recordOf x.1.table c

/-! ### The table -/

/-- The entries in use belong to the clients that were seen, one to each. -/
structure Booked (t : ℕ → TableEntry) (seen : Finset ℤ) : Prop where
  ok : TableOk seen t seen.card
  free : (-1 : ℤ) ∉ seen

section Booked
variable {t : ℕ → TableEntry} {seen : Finset ℤ} {cid : ℤ} (h : Booked t seen)
include h

theorem Booked.exists_entry (hc : cid ∈ seen) : ∃ i < seen.card, (t i).clientId = cid := by
  have himage : (Finset.range seen.card).image (fun i => (t i).clientId) = seen := by
    refine Finset.eq_of_subset_of_card_le (fun c hc => ?_) ?_
    · obtain ⟨i, hi, rfl⟩ := Finset.mem_image.mp hc
      exact h.ok.mem i (Finset.mem_range.mp hi)
    · rw [Finset.card_image_of_injOn, Finset.card_range]
      intro i hi j hj hij
      exact h.ok.inj i (by simpa using hi) j (by simpa using hj) hij
  rw [← himage] at hc
  obtain ⟨i, hi, hic⟩ := Finset.mem_image.mp hc
  exact ⟨i, Finset.mem_range.mp hi, hic⟩

theorem Booked.ne_free {i : ℕ} (hi : i < seen.card) : (t i).clientId ≠ -1 :=
  fun he => h.free (he ▸ h.ok.mem i hi)

theorem Booked.ne_unseen (hc : cid ∉ seen) {i : ℕ} (hi : i < seen.card) : (t i).clientId ≠ cid :=
  fun he => hc (he ▸ h.ok.mem i hi)

/-- A client that was seen has its entry. -/
theorem Booked.claim_seen (hc : cid ∈ seen) :
    ∃ i < seen.card, claimEntry t cid = some (t, i) ∧ indexOf t cid = some i := by
  obtain ⟨i, hi, hic⟩ := h.exists_entry hc
  have hfirst : ∀ m, m < i → (t m).clientId ≠ cid := fun m hm he =>
    hm.ne (h.ok.inj m (hm.trans hi) i hi (he.trans hic.symm))
  have hle := h.ok.le
  have hs : searchTable t cid tableSize 0 = (some i, none) :=
    searchTable_found (Nat.zero_le _) (by omega) (fun m _ hm => h.ne_free (by omega)) hic fun m _ hm => hfirst m hm
  exact ⟨i, hi, by rw [claimEntry, hs], indexOf_eq_some.mpr ⟨by omega, hic, hfirst⟩⟩

/-- Whatever is in the first free entry, the next client gets it. -/
theorem Booked.claim_next {e : TableEntry} (he : e.clientId = -1) (hc : cid ∉ seen) (hlt : seen.card < tableSize) :
    claimEntry (Function.update t seen.card e) cid =
      some (Function.update (Function.update t seen.card e) seen.card { e with clientId := cid }, seen.card) := by
  have hne : ∀ {m}, m < seen.card → Function.update t seen.card e m = t m := fun hm =>
    Function.update_of_ne hm.ne _ _
  have hs : searchTable (Function.update t seen.card e) cid tableSize 0 = (none, some seen.card) :=
    searchTable_next (Nat.zero_le _) (by omega) (fun m _ hm => by rw [hne hm]; exact h.ne_free hm)
      (by rw [Function.update_self, he]) fun m _ hm => by rw [hne hm]; exact h.ne_unseen hc hm
  rw [claimEntry, hs]
  simp only [Function.update_self]

/-- Another one gets the first free entry. -/
theorem Booked.claim_new (hc : cid ∉ seen) (hlt : seen.card < tableSize) :
    claimEntry t cid = some (Function.update t seen.card { freeEntry with clientId := cid }, seen.card) := by
  have hu : t seen.card = freeEntry := h.ok.free _ le_rfl
  have hclaim := h.claim_next (e := t seen.card) (by rw [hu]; rfl) hc hlt
  rwa [Function.update_eq_self, hu] at hclaim

/-- In a full table there is none. -/
theorem Booked.claim_full (hc : cid ∉ seen) (hfull : seen.card = tableSize) : claimEntry t cid = none := by
  have hs : ∀ n i, i + n ≤ tableSize → searchTable t cid n i = (none, none) := by
    intro n
    induction n with
    | zero => exact fun i _ => rfl
    | succ n ih =>
      intro i hi
      rw [searchTable, if_neg (h.ne_free (by omega)), if_neg (h.ne_unseen hc (by omega))]
      exact ih (i + 1) (by omega)
  rw [claimEntry, hs _ _ (by omega)]

theorem Booked.fresh {s : Shared} (hs : s.table = t) : Fresh (s, seen) := by
  intro c hc t' i hclaim
  change claimEntry s.table c = some (t', i) at hclaim
  rw [hs] at hclaim
  rcases lt_or_eq_of_le h.ok.le with hlt | hfull
  · rw [h.claim_new hc hlt] at hclaim
    cases hclaim
    exact Function.update_self ..
  · rw [h.claim_full hc hfull] at hclaim
    cases hclaim

theorem Booked.record_unseen (hc : cid ∉ seen) : recordOf t cid = { freeEntry with clientId := cid } := by
  unfold recordOf
  rcases hi : indexOf t cid with _ | i
  · rfl
  · obtain ⟨-, hic, -⟩ := indexOf_eq_some.mp hi
    have hge : seen.card ≤ i := by
      by_contra hlt
      exact h.ne_unseen hc (not_le.mp hlt) hic
    show t i = _
    rw [h.ok.free i hge] at hic ⊢
    rw [← hic]

end Booked

/-! ### A request -/

variable {s s' : Shared} {seen : Finset ℤ} {req : Request} {t : ℕ → TableEntry} {i : ℕ}

/-- A request changes the entry of its client, when it is new. -/
theorem serves_table (hs : Serves s req s') : ∃ t i, claimEntry s.table req.clientId = some (t, i) ∧
    (s'.table = t ∨ (t i).seqNum < req.seqNumber ∧
      ∃ e, e.clientId = (t i).clientId ∧ s'.table = Function.update t i e) := by
  cases hs with
  | serve h =>
    unfold serve at h
    obtain ⟨⟨t, i⟩, hclaim, h⟩ := Option.bind_eq_some_iff.mp h
    refine ⟨t, i, hclaim, ?_⟩
    dsimp only at h
    split_ifs at h with h1 h2
    · cases h
      exact .inl rfl
    · cases h
      exact .inl rfl
    · obtain ⟨⟨ds, r⟩, -, h⟩ := Option.map_eq_some_iff.mp h
      cases h
      exact .inr ⟨lt_of_le_of_ne (not_lt.mp h1) h2,
        { t i with seqNum := req.seqNumber, done := 1, result := r }, rfl, rfl⟩
  | @behind t i r ds hclaim hnew hex =>
    exact ⟨t, i, hclaim, .inr ⟨hnew, { t i with seqNum := req.seqNumber, done := 1, result := r }, rfl, rfl⟩⟩

/-- A new request is executed. -/
theorem exists_serves (req : Request) (hclaim : claimEntry s.table req.clientId = some (t, i))
    (hnew : (t i).seqNum < req.seqNumber) :
    ∃ r ds, Serves s req
      ⟨Function.update t i { t i with seqNum := req.seqNumber, done := 1, result := r }, ds⟩ := by
  cases hex : execute s.datastore req (t i).result with
  | none => exact ⟨0, s.datastore, .behind 0 s.datastore hclaim hnew hex⟩
  | some x =>
    refine ⟨x.2, x.1, .serve (o := .executed x.2) ?_⟩
    unfold serve
    rw [hclaim, Option.bind_some]
    simp only [if_neg (not_lt.mpr hnew.le), if_neg hnew.ne, hex]
    rfl

/-- **Serving a client** keeps the table in order, and leaves the records of the others. -/
theorem Booked.serve (h : Booked s.table seen) (hg : Good (s, seen) req) (hs : Serves s req s') :
    Booked s'.table (note s req seen) ∧ ∀ c, c ≠ req.clientId → recordOf s'.table c = recordOf s.table c := by
  obtain ⟨t, i, hclaim, htable⟩ := serves_table hs
  by_cases hfree : req.clientId = -1
  · -- the first free entry stays free
    have hlt := hg.2.resolve_left (hfree ▸ h.free)
    have hu : s.table seen.card = freeEntry := h.ok.free _ le_rfl
    rw [hfree, h.claim_new h.free hlt] at hclaim
    cases hclaim
    have hsame : Function.update s.table seen.card freeEntry = s.table := by
      rw [← hu, Function.update_eq_self]
    have hs' : s'.table = s.table := by
      rcases htable with htable | ⟨hnew, -⟩
      · exact htable.trans hsame
      · rw [Function.update_self] at hnew
        exact absurd (hg.1 hfree) (not_le.mpr hnew)
    rw [hs', note, if_pos hfree]
    exact ⟨h, fun _ _ => rfl⟩
  rw [note, if_neg hfree]
  by_cases hseen : req.clientId ∈ seen
  · obtain ⟨j, hj, hclaim', hidx⟩ := h.claim_seen hseen
    rw [hclaim'] at hclaim
    cases hclaim
    rw [Finset.insert_eq_of_mem hseen]
    rcases htable with htable | ⟨-, e, he, htable⟩
    · rw [htable]
      exact ⟨h, fun _ _ => rfl⟩
    · rw [htable]
      refine ⟨⟨h.ok.update hj he, h.free⟩, fun c hc => ?_⟩
      rw [recordOf_update hidx (he.trans (indexOf_eq_some.mp hidx).2.1), if_neg hc]
  · have hlt := hg.2.resolve_left hseen
    have hcard := Finset.card_insert_of_notMem hseen
    have hnotin : (-1 : ℤ) ∉ insert req.clientId seen := by
      rw [Finset.mem_insert, not_or]
      exact ⟨Ne.symm hfree, h.free⟩
    have hok : TableOk (insert req.clientId seen) s.table seen.card :=
      ⟨h.ok.le, fun j hj => Finset.mem_insert_of_mem (h.ok.mem j hj), h.ok.inj, h.ok.free⟩
    obtain ⟨t', i', used, hclaim', -, -, hidx, -, hrec⟩ :=
      claimEntry_spec hok (hcard.trans_le hlt) hnotin (Finset.mem_insert_self _ _)
    rw [hclaim'] at hclaim
    cases hclaim
    rw [h.claim_new hseen hlt] at hclaim'
    cases hclaim'
    have hclaimed : Booked (Function.update s.table seen.card { freeEntry with clientId := req.clientId })
        (insert req.clientId seen) := by
      refine ⟨?_, hnotin⟩
      rw [hcard]
      exact hok.claim hlt (Finset.mem_insert_self _ _) fun j hj => h.ne_unseen hseen hj
    have hbooked : Booked s'.table (insert req.clientId seen) := by
      rcases htable with htable | ⟨-, e, he, htable⟩
      · rwa [htable]
      · rw [htable]
        exact ⟨hclaimed.ok.update (by rw [hcard]; exact Nat.lt_succ_self _) he, hnotin⟩
    refine ⟨hbooked, fun c hc => ?_⟩
    by_cases hcs : c ∈ seen
    · have hne : c ≠ -1 := fun he => h.free (he ▸ hcs)
      rcases htable with htable | ⟨-, e, he, htable⟩
      · rw [htable, hrec c hne]
      · rw [htable, recordOf_update hidx (he.trans (indexOf_eq_some.mp hidx).2.1), if_neg hc, hrec c hne]
    · rw [h.record_unseen hcs, hbooked.record_unseen]
      rw [Finset.mem_insert, not_or]
      exact ⟨hc, hcs⟩

theorem booked_init : Booked initShared.table ∅ := ⟨tableOk_init ∅, Finset.notMem_empty _⟩

theorem booked_reachable {x : Shared × Finset ℤ} (h : (runs.only Good).Reachable x) : Booked x.1.table x.2 :=
  h.invariant (I := fun x => Booked x.1.table x.2)
    (fun x hx => by
      obtain ⟨s, seen⟩ := x
      obtain ⟨rfl, rfl⟩ := hx
      exact booked_init)
    fun x req y _ ih hs => by
      obtain ⟨hg, ⟨-, hs⟩, hseen⟩ := hs
      rw [hseen]
      exact (ih.serve hg hs).1

theorem Booked.served (h : Booked s.table seen) (hg : Good (s, seen) req) : Served (s, seen) req := by
  have hentry : ∃ t i, claimEntry s.table req.clientId = some (t, i) ∧ i < tableSize := by
    have hle := h.ok.le
    by_cases hseen : req.clientId ∈ seen
    · obtain ⟨i, hi, hclaim, -⟩ := h.claim_seen hseen
      exact ⟨_, i, hclaim, by omega⟩
    · have hlt := hg.2.resolve_left hseen
      exact ⟨_, _, h.claim_new hseen hlt, hlt⟩
  obtain ⟨t, i, hclaim, hi⟩ := hentry
  refine ⟨⟨t, i, hclaim, hi, fun hseen => h.fresh rfl _ hseen t i hclaim⟩, fun hseen hseq s' o hs => ?_, fun y hy => ?_⟩
  · have hfresh := h.fresh rfl _ hseen t i hclaim
    change Server.serve s req = _ at hs
    unfold Server.serve at hs
    rw [hclaim, Option.bind_some] at hs
    simp only [hfresh, hseq, freeEntry] at hs
    obtain ⟨⟨ds, r⟩, -, hs⟩ := Option.map_eq_some_iff.mp hs
    cases hs
    exact ⟨r, rfl⟩
  · obtain ⟨⟨-, hs⟩, hseen⟩ := hy
    obtain ⟨hbooked, hothers⟩ := h.serve hg hs
    obtain ⟨s', seen'⟩ := y
    cases hseen
    exact ⟨hbooked.fresh rfl, hothers⟩

/-- A request that is not good is not served. -/
theorem Booked.good (h : Booked s.table seen) (hop : req.opcode ≠ 0) (hs : Served (s, seen) req) :
    Good (s, seen) req := by
  have hroom : req.clientId ∈ seen ∨ seen.card < tableSize := by
    by_contra hno
    rw [not_or, not_lt] at hno
    obtain ⟨t, i, hclaim, -⟩ := hs.entry
    rw [h.claim_full hno.1 (le_antisymm h.ok.le hno.2)] at hclaim
    cases hclaim
  refine ⟨fun hfree => ?_, hroom⟩
  by_contra hnew
  have hlt := hroom.resolve_left (hfree ▸ h.free)
  have hclaim := h.claim_new h.free hlt
  rw [← hfree] at hclaim
  obtain ⟨r, ds, hserves⟩ := exists_serves req hclaim (by
    rw [Function.update_self]
    exact not_le.mp hnew)
  obtain ⟨hfresh, -⟩ := hs.others (_, seen) ⟨⟨hop, hserves⟩, by rw [note, if_pos hfree]⟩
  -- the entry is still free, but not fresh
  obtain ⟨c, hc⟩ := Infinite.exists_notMem_finset seen
  simp only [Function.update_idem, Function.update_self, hfree] at hfresh
  have hentry := hfresh c hc _ _ (h.claim_next rfl hc hlt)
  rw [Function.update_self] at hentry
  exact hnew (congrArg TableEntry.seqNum hentry).le

/-- **Clients are served** as long as there is an entry for each and none of them has the id `-1`. -/
theorem served_iff {x : Shared × Finset ℤ} (h : (runs.only Good).Reachable x) :
    Fresh x ∧ ∀ req, req.opcode ≠ 0 → (Served x req ↔ Good x req) :=
  have hb := booked_reachable h
  ⟨hb.fresh rfl, fun _ hop => ⟨hb.good hop, hb.served⟩⟩

/-- After a `put` of client 5 and a `get` of client 9 these two and a new client are served, and a client `-1` with
something to execute is not. -/
theorem served_iff_two : ∃ s₁ s₂, serve initShared ⟨2, 5, 0, -1, 3, 7⟩ = some (s₁, .executed 0) ∧
    serve s₁ ⟨1, 9, 0, -1, 3, -1⟩ = some (s₂, .executed 7) ∧ Fresh (s₂, {9, 5}) ∧
    Served (s₂, {9, 5}) ⟨1, 5, 1, -1, 3, -1⟩ ∧ Served (s₂, {9, 5}) ⟨1, 9, 1, -1, 3, -1⟩ ∧
    Served (s₂, {9, 5}) ⟨2, 4, 0, -1, 3, 8⟩ ∧ ¬ Served (s₂, {9, 5}) ⟨1, -1, 0, -1, 3, -1⟩ := by
  obtain ⟨s₁, s₂, h₁, h₂⟩ : ∃ s₁ s₂, serve initShared ⟨2, 5, 0, -1, 3, 7⟩ = some (s₁, .executed 0) ∧
      serve s₁ ⟨1, 9, 0, -1, 3, -1⟩ = some (s₂, .executed 7) := ⟨_, _, rfl, rfl⟩
  have hroom₁ : ({5} : Finset ℤ).card < tableSize := by decide
  have hroom : ({9, 5} : Finset ℤ).card < tableSize := by decide
  have hfive : (5 : ℤ) ∈ ({9, 5} : Finset ℤ) := by decide
  have hnine : (9 : ℤ) ∈ ({9, 5} : Finset ℤ) := by decide
  have hinit : (runs.only Good).Reachable (initShared, ∅) := .init ⟨rfl, rfl⟩
  have hput : (runs.only Good).Reachable (s₁, {5}) :=
    .step hinit (a := ⟨2, 5, 0, -1, 3, 7⟩) ⟨⟨by decide, .inr (by decide)⟩, ⟨by decide, .serve h₁⟩, rfl⟩
  have hget : (runs.only Good).Reachable (s₂, {9, 5}) :=
    .step hput (a := ⟨1, 9, 0, -1, 3, -1⟩) ⟨⟨by decide, .inr hroom₁⟩, ⟨by decide, .serve h₂⟩, rfl⟩
  obtain ⟨hfresh, hserved⟩ := served_iff hget
  refine ⟨s₁, s₂, h₁, h₂, hfresh, (hserved _ (by decide)).mpr ⟨by decide, .inl hfive⟩,
    (hserved _ (by decide)).mpr ⟨by decide, .inl hnine⟩,
    (hserved _ (by decide)).mpr ⟨by decide, .inr hroom⟩, fun hs => ?_⟩
  exact absurd (((hserved _ (by decide)).mp hs).1 rfl) (by decide)

/-- The clients `0` to `n - 1`, with a `put` each. -/
theorem exists_seen {n : ℕ} (hn : n ≤ tableSize) :
    ∃ x, (runs.only Good).Reachable x ∧ x.2 = (Finset.range n).image Nat.cast := by
  induction n with
  | zero => exact ⟨(initShared, ∅), .init ⟨rfl, rfl⟩, rfl⟩
  | succ n ih =>
    obtain ⟨⟨s, seen⟩, hx, hseen⟩ := ih (by omega)
    change seen = _ at hseen
    have hb := booked_reachable hx
    have hcard : seen.card = n := by
      rw [hseen, Finset.card_image_of_injective _ Nat.cast_injective, Finset.card_range]
    have hnew : (n : ℤ) ∉ seen := by
      rw [hseen]
      simp
    let req : Request := ⟨2, n, 0, -1, 0, 0⟩
    have hlt : seen.card < tableSize := by omega
    have hne : req.clientId ≠ -1 := by
      show (n : ℤ) ≠ -1
      omega
    obtain ⟨r, ds, hs⟩ := exists_serves req (hb.claim_new hnew hlt) (by
      rw [Function.update_self]
      exact neg_one_lt_zero)
    refine ⟨⟨_, insert (n : ℤ) seen⟩, .step hx ⟨⟨fun he => absurd he hne, .inr hlt⟩, ⟨two_ne_zero, hs⟩, ?_⟩, ?_⟩
    · rw [note, if_neg hne]
    · rw [hseen, Finset.range_add_one, Finset.image_insert]

/-- Client `-1` executes a `get`, and then the first request of client 5, a `put`, is not executed but answered
with that result; and client 100 finds no entry after clients 0 to 99. -/
theorem not_served : (∃ s s', server.Run initShared [⟨1, -1, 0, -1, 3, -1⟩] s ∧
      serve s ⟨2, 5, 0, -1, 3, 9⟩ = some (s', .replied ⟨5, 0, 0, 0⟩) ∧ s'.datastore 3 = 0) ∧
    ∃ s, server.Reachable s ∧ claimEntry s.table 100 = none := by
  constructor
  · exact ⟨_, _, .snoc (.nil _) ⟨by decide, .serve rfl⟩, rfl, rfl⟩
  · obtain ⟨x, hx, hseen⟩ := exists_seen (n := tableSize) le_rfl
    refine ⟨x.1, hx.of_only.of_beside, (booked_reachable hx).claim_full ?_ ?_⟩
    · rw [hseen, Finset.mem_image]
      rintro ⟨n, hn, he⟩
      have hlt := Finset.mem_range.mp hn
      rw [tableSize] at hlt
      omega
    · rw [hseen, Finset.card_image_of_injective _ Nat.cast_injective, Finset.card_range]

end OperatingSystems.Rpc.Clients
