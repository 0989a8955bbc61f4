import OperatingSystems.Rpc.Clients

/-! # The store as a bounded map

The purpose of the store is a map on the keys from 0 to `NUMKEYS - 1`, at first all 0 (`KeyMap`). We keep it
beside the server: each `get` and `put` that is executed is also done on the map.

* `AsMap x req`: the server does on `req` what the map does, and of the table it writes only the entry of the
  client.
* `as_map_iff`: so it is for every request but those that execute on the key `NUMKEYS`, which `get` and `put` let
  through although the array ends there. -/

namespace OperatingSystems.Rpc.KeyValue

open OperatingSystems.Lib.Transition OperatingSystems.Rpc.Server OperatingSystems.Rpc.Clients

/-! ### The map -/

/-- **A map on the keys in range.** -/
abbrev KeyMap := Fin numkeys → ℤ

/-- The index of a key in range. -/
def KeyMap.index (key : ℤ) : Option (Fin numkeys) :=
  if h : 0 ≤ key ∧ key < numkeys then some ⟨key.toNat, by omega⟩ else none

/-- The value of a key, and -1 out of range. -/
def KeyMap.get (m : KeyMap) (key : ℤ) : ℤ :=
  match KeyMap.index key with
  | some k => m k
  | none => -1

/-- A new value for a key, with the result. -/
def KeyMap.put (m : KeyMap) (key value : ℤ) : KeyMap × ℤ :=
  match KeyMap.index key with
  | some k => (Function.update m k value, 0)
  | none => (m, -1)

/-- What a `get` or `put` request does to the map, with its result. -/
def KeyMap.answer (m : KeyMap) (req : Request) : KeyMap × ℤ :=
  if req.opcode = 1 then (m, m.get req.key) else m.put req.key req.value

theorem KeyMap.index_eq_some {key : ℤ} {k : Fin numkeys} : KeyMap.index key = some k ↔ key = (k : ℕ) := by
  unfold KeyMap.index
  have hk := k.isLt
  split_ifs with h
  · rw [Option.some.injEq, Fin.ext_iff]
    show key.toNat = k ↔ _
    omega
  · constructor
    · intro he
      cases he
    · intro he
      exact absurd ⟨by omega, by omega⟩ h

theorem KeyMap.index_eq_none {key : ℤ} : KeyMap.index key = none ↔ ¬ (0 ≤ key ∧ key < numkeys) := by
  unfold KeyMap.index
  split_ifs with h <;> simp [h]

/-- `put` answers 0 in range, and -1 out of range. -/
theorem KeyMap.put_result (m : KeyMap) (key value : ℤ) :
    (m.put key value).2 = if 0 ≤ key ∧ key < numkeys then 0 else -1 := by
  unfold KeyMap.put
  rcases h : KeyMap.index key with _ | k
  · rw [if_neg (KeyMap.index_eq_none.mp h)]
  · have hk := KeyMap.index_eq_some.mp h
    have hlt := k.isLt
    rw [if_pos ⟨by omega, by omega⟩]

/-- **`get` returns the last value put**, and `put` changes only its key. -/
theorem KeyMap.get_put (m : KeyMap) (key value key' : ℤ) : (m.put key value).1.get key' =
    if key' = key ∧ 0 ≤ key ∧ key < numkeys then value else m.get key' := by
  unfold KeyMap.put
  rcases h : KeyMap.index key with _ | k
  · rw [if_neg fun hin => KeyMap.index_eq_none.mp h hin.2]
  · have hk := KeyMap.index_eq_some.mp h
    have hlt := k.isLt
    by_cases he : key' = key
    · rw [if_pos ⟨he, by omega, by omega⟩, he]
      unfold KeyMap.get
      rw [h]
      exact Function.update_self ..
    · rw [if_neg fun hin => he hin.1]
      unfold KeyMap.get
      rcases h' : KeyMap.index key' with _ | k'
      · rfl
      · have hne : k' ≠ k := by
          rintro rfl
          exact he ((KeyMap.index_eq_some.mp h').trans hk.symm)
        exact Function.update_of_ne hne ..

/-! ### The array -/

/-- The array holds the map. -/
def Represents (datastore : ℕ → ℤ) (m : KeyMap) : Prop := ∀ k : Fin numkeys, datastore k = m k

section Represents
variable {datastore : ℕ → ℤ} {m : KeyMap} (h : Represents datastore m)
include h

/-- `get` reads the map, but for the key `NUMKEYS`. -/
theorem Represents.get {key : ℤ} (hne : key ≠ numkeys) : get datastore key = some (m.get key) := by
  unfold Server.get KeyMap.get
  rcases hi : KeyMap.index key with _ | k
  · have hout := KeyMap.index_eq_none.mp hi
    rw [if_pos (by omega)]
  · have hk := KeyMap.index_eq_some.mp hi
    have hlt := k.isLt
    have htoNat : key.toNat = k := by omega
    rw [if_neg (by omega), if_pos (by omega), htoNat, h k]

/-- `put` writes the map, but for the key `NUMKEYS`. -/
theorem Represents.put {key : ℤ} (value : ℤ) (hne : key ≠ numkeys) : ∃ ds,
    put datastore key value = some (ds, (m.put key value).2) ∧ Represents ds (m.put key value).1 := by
  unfold Server.put KeyMap.put
  rcases hi : KeyMap.index key with _ | k
  · have hout := KeyMap.index_eq_none.mp hi
    rw [if_pos (by omega)]
    exact ⟨datastore, rfl, h⟩
  · have hk := KeyMap.index_eq_some.mp hi
    have hlt := k.isLt
    have htoNat : key.toNat = k := by omega
    rw [if_neg (by omega), if_pos (by omega), htoNat]
    refine ⟨_, rfl, fun k' => ?_⟩
    show Function.update datastore k value k' = Function.update m k value k'
    by_cases hk' : k' = k
    · rw [hk', Function.update_self, Function.update_self]
    · rw [Function.update_of_ne (Fin.val_ne_of_ne hk'), Function.update_of_ne hk', h k']

theorem Represents.execute {req : Request} (result : ℤ) (hop : req.opcode ≠ 0) (hne : req.key ≠ numkeys) :
    ∃ ds, execute datastore req result = some (ds, (m.answer req).2) ∧ Represents ds (m.answer req).1 := by
  unfold Server.execute KeyMap.answer
  rw [if_neg hop]
  split_ifs
  · rw [h.get hne]
    exact ⟨datastore, rfl, h⟩
  · exact h.put req.value hne

end Represents

/-- The key `NUMKEYS` leads behind the array. -/
theorem execute_numkeys (datastore : ℕ → ℤ) {req : Request} (result : ℤ) (hop : req.opcode ≠ 0)
    (hkey : req.key = numkeys) : execute datastore req result = none := by
  have htoNat : ¬ (numkeys : ℤ).toNat < numkeys := by rw [Int.toNat_natCast]; exact lt_irrefl _
  unfold Server.execute
  rw [if_neg hop]
  split_ifs
  · rw [Server.get, hkey, if_neg (by omega), if_neg htoNat]
    rfl
  · rw [Server.put, hkey, if_neg (by omega), if_neg htoNat]

/-! ### The server -/

/-- The request is new to the entry `i` that it gets. -/
def New (s : Shared) (req : Request) (t : ℕ → TableEntry) (i : ℕ) : Prop :=
  claimEntry s.table req.clientId = some (t, i) ∧ (t i).seqNum < req.seqNumber

/-- A request that is executed is done on the map. -/
def note (s : Shared) (req : Request) (m : KeyMap) : KeyMap :=
  match claimEntry s.table req.clientId with
  | some x => if (x.1 x.2).seqNum < req.seqNumber then (m.answer req).1 else m
  | none => m

/-- The server with the map beside it. -/
def runs : System (Shared × KeyMap) Request := server.beside (fun _ => 0) note

/-- **The server does what the map does**: a new request is executed with the result of the map, which it leaves
in the array, and only the entry of its client is written; any other request leaves the array alone. -/
structure AsMap (x : Shared × KeyMap) (req : Request) : Prop where
  new : ∀ t i, New x.1 req t i → ∃ ds, Represents ds (x.2.answer req).1 ∧
    serve x.1 req = some (⟨Function.update t i { t i with
      seqNum := req.seqNumber, done := 1, result := (x.2.answer req).2 }, ds⟩, .executed (x.2.answer req).2)
  old : ∀ t i, claimEntry x.1.table req.clientId = some (t, i) → req.seqNumber ≤ (t i).seqNum →
    ∃ o, serve x.1 req = some (⟨t, x.1.datastore⟩, o)

/-- The request executes on the key `NUMKEYS`. -/
def OffByOne (x : Shared × KeyMap) (req : Request) : Prop := req.key = numkeys ∧ ∃ t i, New x.1 req t i

variable {s s' : Shared} {m : KeyMap} {req : Request} {t : ℕ → TableEntry} {i : ℕ}

theorem serve_new (hnew : New s req t i) : serve s req = (execute s.datastore req (t i).result).map fun x =>
    (⟨Function.update t i { t i with seqNum := req.seqNumber, done := 1, result := x.2 }, x.1⟩, .executed x.2) := by
  unfold serve
  rw [hnew.1, Option.bind_some]
  simp only [if_neg (not_lt.mpr hnew.2.le), if_neg hnew.2.ne]

theorem serve_old (hclaim : claimEntry s.table req.clientId = some (t, i)) (hold : req.seqNumber ≤ (t i).seqNum) :
    ∃ o, serve s req = some (⟨t, s.datastore⟩, o) := by
  unfold serve
  rw [hclaim, Option.bind_some]
  rcases lt_or_eq_of_le hold with hlt | heq
  · exact ⟨_, if_pos hlt⟩
  · refine ⟨.replied (resend req (t i)), ?_⟩
    simp only [heq, lt_irrefl, if_false, if_true]

theorem note_new (hnew : New s req t i) : note s req m = (m.answer req).1 := by
  unfold note
  rw [hnew.1]
  exact if_pos hnew.2

theorem note_old (hclaim : claimEntry s.table req.clientId = some (t, i)) (hold : req.seqNumber ≤ (t i).seqNum) :
    note s req m = m := by
  unfold note
  rw [hclaim]
  exact if_neg (not_lt.mpr hold)

/-- On other keys the server does what the map does. -/
theorem Represents.asMap (h : Represents s.datastore m) (hop : req.opcode ≠ 0) (hin : ¬ OffByOne (s, m) req) :
    AsMap (s, m) req := by
  refine ⟨fun t i hnew => ?_, fun t i hclaim hold => serve_old hclaim hold⟩
  have hne : req.key ≠ numkeys := fun hkey => hin ⟨hkey, t, i, hnew⟩
  obtain ⟨ds, hex, hds⟩ := h.execute (t i).result hop hne
  refine ⟨ds, hds, ?_⟩
  rw [serve_new hnew, hex]
  rfl

/-- **A step keeps the map in the array.** -/
theorem Represents.step (h : Represents s.datastore m) (hop : req.opcode ≠ 0) (hin : ¬ OffByOne (s, m) req)
    (hs : Serves s req s') : Represents s'.datastore (note s req m) := by
  have has := h.asMap hop hin
  cases hs with
  | serve hserve =>
    obtain ⟨⟨t, i⟩, hclaim, -⟩ := Option.bind_eq_some_iff.mp hserve
    by_cases hlt : (t i).seqNum < req.seqNumber
    · obtain ⟨ds, hds, heq⟩ := has.new t i ⟨hclaim, hlt⟩
      cases hserve.symm.trans heq
      rwa [note_new ⟨hclaim, hlt⟩]
    · obtain ⟨o', heq⟩ := has.old t i hclaim (not_lt.mp hlt)
      cases hserve.symm.trans heq
      rwa [note_old hclaim (not_lt.mp hlt)]
  | @behind t i r ds hclaim hnew hex =>
    -- only the key `NUMKEYS` leads there
    have hne : req.key ≠ numkeys := fun hkey => hin ⟨hkey, t, i, hclaim, hnew⟩
    obtain ⟨ds', hex', -⟩ := h.execute (t i).result hop hne
    rw [hex'] at hex
    cases hex

theorem represents_reachable {x : Shared × KeyMap} (h : (runs.only fun x req => ¬ OffByOne x req).Reachable x) :
    Represents x.1.datastore x.2 :=
  h.invariant (I := fun x => Represents x.1.datastore x.2)
    (fun x hx => by
      obtain ⟨s, m⟩ := x
      obtain ⟨rfl, rfl⟩ := hx
      exact fun _ => rfl)
    fun x req y _ ih hs => by
      obtain ⟨hin, ⟨hop, hs⟩, hm⟩ := hs
      rw [hm]
      exact ih.step hop hin hs

/-- **The store is a bounded map** in every run whose requests do not execute on the key `NUMKEYS`, and exactly
these requests are answered as by the map. -/
theorem as_map_iff {x : Shared × KeyMap} (h : (runs.only fun x req => ¬ OffByOne x req).Reachable x) :
    Represents x.1.datastore x.2 ∧ ∀ req, req.opcode ≠ 0 → (AsMap x req ↔ ¬ OffByOne x req) := by
  have hrep := represents_reachable h
  refine ⟨hrep, fun req hop => ⟨fun has hoff => ?_, hrep.asMap hop⟩⟩
  obtain ⟨hkey, t, i, hnew⟩ := hoff
  obtain ⟨ds, -, heq⟩ := has.new t i hnew
  rw [serve_new hnew, execute_numkeys _ _ hop hkey] at heq
  cases heq

/-- Client 5 puts 9 at key 3. -/
def putNine : Request := ⟨2, 5, 0, -1, 3, 9⟩

/-- Afterwards the server does as a map that has 9 at key 3. -/
theorem as_map_putNine : ∃ x : Shared × KeyMap, x.2.get 3 = 9 ∧ Represents x.1.datastore x.2 ∧
    ∀ req, req.opcode ≠ 0 → (AsMap x req ↔ ¬ OffByOne x req) := by
  have hin : ¬ OffByOne (initShared, fun _ => 0) putNine := fun hoff => absurd hoff.1 (by decide)
  have hstep : server.step initShared putNine _ := ⟨by decide, .serve (o := .executed 0) rfl⟩
  refine ⟨(_, note initShared putNine fun _ => 0), rfl, as_map_iff (.step (.init ?_) ⟨hin, hstep, rfl⟩)⟩
  exact ⟨rfl, rfl⟩

/-- Client 5 puts 9 at key 1024, in the new server. -/
theorem put_behind : ¬ AsMap (initShared, fun _ => 0) ⟨2, 5, 0, -1, 1024, 9⟩ := by
  intro has
  obtain ⟨ds, -, heq⟩ := has.new _ 0 ⟨rfl, by decide⟩
  cases heq

end OperatingSystems.Rpc.KeyValue
