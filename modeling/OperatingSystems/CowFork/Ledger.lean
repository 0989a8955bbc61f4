import OperatingSystems.CowFork.Paging
import OperatingSystems.Lib.RefCount

/-! # Who holds which page

A physical page is held by kernel owners, page directories, directory entries and user entries (`Slot`).
`holds m D K` reads the holdings off the memory, for the live directories `D` and the pages `K` that the
kernel owns outside of them: stacks, pipes, pages under way, and directories that are not live yet or no
longer.

* `Inv`: the holdings are counted by `refCnt`, and a kernel slot, like a user entry that can be written
  through, is the only holder of its page.
* One lemma for each way the code changes the holdings. `Inv.put` is the common part of those that write a
  user entry. -/

namespace OperatingSystems.CowFork

open Lib.RefCount

variable {L : Layout} {N : Prop} {m m' : Mem} {D K K' : Finset ℕ} {d d' v v' f g j : ℕ} {w : Word}

/-- The pages of the allocator. -/
def managed (L : Layout) : Set ℕ := {f | L.kend ≤ f * 4096 ∧ f < 4096}

theorem ne_zero_of_managed (h : f ∈ managed L) : f ≠ 0 := by
  obtain ⟨hlo, -⟩ := h
  have := L.text_lt_data
  have := L.data_le_end
  omega

theorem lt_of_managed (h : f ∈ managed L) : f < 2 ^ 20 := by
  have := h.2
  omega

/-- The entry for virtual page `v`; an absent table has absent entries. -/
def entry (m : Mem) (d v : ℕ) : Word :=
  if present (m.word d (v / 1024)) then m.word (pageOf (m.word d (v / 1024))) (v % 1024) else 0#32

theorem present_dir_of_entry (h : present (entry m d v)) : present (m.word d (v / 1024)) := by
  by_contra hn
  rw [entry, if_neg hn] at h
  exact not_present_zero h

/-- The entries are in the bytes. -/
theorem entry_congr (h : m'.byte = m.byte) : entry m' d v = entry m d v := by
  have hword : ∀ f j, m'.word f j = m.word f j := fun f j => Mem.word_congr (by rw [h])
  unfold entry
  rw [hword, hword]

/-- What can hold a page. `user d v` is an entry of a directory below `USERTOP`. -/
inductive Slot where
  | kern (f : ℕ)
  | dir (d : ℕ)
  | table (d j : ℕ)
  | user (d v : ℕ)
  deriving DecidableEq

/-- The page an entry holds. Nobody counts page 0, which an entry has after a handler out of memory. -/
def held (w : Word) : Option ℕ := if present w ∧ pageOf w ≠ 0 then some (pageOf w) else none

/-- The page that a slot holds. -/
def holds (m : Mem) (D K : Finset ℕ) : Slot → Option ℕ
  | .kern f => if f ∈ K then some f else none
  | .dir d => if d ∈ D then some d else none
  | .table d j => if d ∈ D ∧ j < 1024 then held (m.word d j) else none
  | .user d v => if d ∈ D ∧ v < 160 then held (entry m d v) else none

/-- The slots that must be the only holder of their page. -/
def Exclusive (m : Mem) : Slot → Prop
  | .user d v => writable (entry m d v)
  | _ => True

/-- **The ledger**: the holdings are counted, and what can be written through is held once. `N` says whether
user entries with page 0 are around. -/
structure Inv (L : Layout) (N : Prop) (m : Mem) (D K : Finset ℕ) : Prop where
  counted : Counted (managed L) m.refCnt m.freelist (holds m D K)
  outside : ∀ f, f ∉ managed L → f ≠ 0 → m.refCnt f = 0
  freePages : m.freePages = m.freelist.length
  exclusive : ∀ s f, Exclusive m s → holds m D K s = some f → m.refCnt f = 1
  userAccess : ∀ d ∈ D, ∀ v < 160, present (entry m d v) → userOk (entry m d v)
  root : ∀ d ∈ D, present (m.word d 0)
  rootUser : ∀ d ∈ D, userOk (m.word d 0) ∧ writable (m.word d 0)
  table : ∀ d ∈ D, ∀ j < 1024, present (m.word d j) → pageOf (m.word d j) ≠ 0
  frame : ∀ d ∈ D, ∀ v < 160, present (entry m d v) → pageOf (entry m d v) = 0 → N
  kernelRo : ∀ d ∈ D, ∀ v < 2 ^ 20, 160 ≤ v → present (entry m d v) → ¬ writable (entry m d v) →
    pageOf (entry m d v) ∉ managed L ∧ pageOf (entry m d v) ≠ 0
  aligned : ∀ d v d' v' f, holds m D K (.user d v) = some f → holds m D K (.user d' v') = some f → v = v'

/-! ### Holdings -/

theorem held_eq_some : held w = some f ↔ present w ∧ f ≠ 0 ∧ pageOf w = f := by
  unfold held
  split_ifs with h
  · simp only [Option.some.injEq, h.1, true_and]
    constructor
    · rintro rfl
      exact ⟨h.2, rfl⟩
    · exact fun h' => h'.2
  · simp only [false_iff]
    rintro ⟨hp, hf, rfl⟩
    exact h ⟨hp, hf⟩

theorem held_of_present (h : present w) (hw : pageOf w ≠ 0) : held w = some (pageOf w) := if_pos ⟨h, hw⟩

theorem held_of_absent (h : ¬ present w) : held w = none := if_neg fun h' => h h'.1

theorem held_of_null (h : pageOf w = 0) : held w = none := if_neg fun h' => h'.2 h

theorem holds_kern : holds m D K (.kern f) = some g ↔ f ∈ K ∧ f = g := by
  simp [holds]

theorem holds_dir : holds m D K (.dir d) = some g ↔ d ∈ D ∧ d = g := by
  simp [holds]

theorem holds_table :
    holds m D K (.table d j) = some g ↔
      (d ∈ D ∧ j < 1024) ∧ present (m.word d j) ∧ g ≠ 0 ∧ pageOf (m.word d j) = g := by
  simp [holds, held_eq_some]

theorem holds_user :
    holds m D K (.user d v) = some g ↔
      (d ∈ D ∧ v < 160) ∧ present (entry m d v) ∧ g ≠ 0 ∧ pageOf (entry m d v) = g := by
  simp [holds, held_eq_some]

theorem holds_insert : holds m D (insert f K) = Function.update (holds m D K) (.kern f) (some f) := by
  funext s
  rcases s with g | _ | _ | _
  · rcases eq_or_ne g f with rfl | hg
    · simp [holds]
    · simp [holds, hg]
  all_goals rfl

theorem holds_erase : holds m D (K.erase f) = Function.update (holds m D K) (.kern f) none := by
  funext s
  rcases s with g | _ | _ | _
  · rcases eq_or_ne g f with rfl | hg
    · simp [holds]
    · simp [holds, hg]
  all_goals rfl

namespace Inv

theorem managed_of_holds (h : Inv L N m D K) {s : Slot} (hs : holds m D K s = some f) : f ∈ managed L :=
  h.counted.mem_pool s f hs

/-- **The page of an exclusive slot has no other holder.** -/
theorem unique (h : Inv L N m D K) {s t : Slot} (hx : Exclusive m s) (hs : holds m D K s = some f)
    (ht : holds m D K t = some f) : s = t :=
  h.counted.unique (h.exclusive s f hx hs) hs ht

theorem holds_kern_self (hf : f ∈ K) : holds m D K (.kern f) = some f := holds_kern.mpr ⟨hf, rfl⟩

theorem holds_dir_self (hd : d ∈ D) : holds m D K (.dir d) = some d := holds_dir.mpr ⟨hd, rfl⟩

theorem holds_table_self (h : Inv L N m D K) (hd : d ∈ D) (hj : j < 1024) (hp : present (m.word d j)) :
    holds m D K (.table d j) = some (pageOf (m.word d j)) :=
  holds_table.mpr ⟨⟨hd, hj⟩, hp, h.table d hd j hj hp, rfl⟩

theorem holds_user_self (hd : d ∈ D) (hv : v < 160) (hp : present (entry m d v)) (hf : pageOf (entry m d v) ≠ 0) :
    holds m D K (.user d v) = some (pageOf (entry m d v)) := holds_user.mpr ⟨⟨hd, hv⟩, hp, hf, rfl⟩

theorem refCnt_kern (h : Inv L N m D K) (hf : f ∈ K) : m.refCnt f = 1 :=
  h.exclusive (.kern f) f trivial (holds_kern_self hf)

theorem kern_unique (h : Inv L N m D K) (hf : f ∈ K) {s : Slot} (hs : holds m D K s = some f) :
    s = .kern f :=
  (h.unique (s := .kern f) trivial (holds_kern_self hf) hs).symm

/-- A table of a live directory has no other holder. -/
theorem table_unique (h : Inv L N m D K) (hd : d ∈ D) (hj : j < 1024) (hp : present (m.word d j)) {s : Slot}
    (hs : holds m D K s = some (pageOf (m.word d j))) : s = .table d j :=
  (h.unique (s := .table d j) trivial (h.holds_table_self hd hj hp) hs).symm

theorem ne_of_kern (h : Inv L N m D K) (hf : f ∈ K) {s : Slot} (hs : holds m D K s = some g)
    (hne : s ≠ .kern f) : g ≠ f := by
  rintro rfl
  exact hne (h.kern_unique hf hs)

end Inv

/-! ### What a change of memory leaves alone -/

/-- The live directories and their tables read the same. -/
def SameTables (m m' : Mem) (D : Finset ℕ) : Prop :=
  ∀ d ∈ D, (∀ j < 1024, m'.word d j = m.word d j) ∧ ∀ v < 2 ^ 20, entry m' d v = entry m d v

/-- `w` is now the entry for page `v` of `d`, and otherwise the live directories read the same. -/
def TablesPut (m m' : Mem) (D : Finset ℕ) (d v : ℕ) (w : Word) : Prop :=
  ∀ d' ∈ D, (∀ j < 1024, m'.word d' j = m.word d' j) ∧
    ∀ v' < 2 ^ 20, entry m' d' v' = if d' = d ∧ v' = v then w else entry m d' v'

theorem holds_of_same (ht : SameTables m m' D) : holds m' D K = holds m D K := by
  funext s
  rcases s with f | d | ⟨d, j⟩ | ⟨d, v⟩
  · rfl
  · rfl
  · simp only [holds]
    split_ifs with h
    · rw [(ht d h.1).1 j h.2]
    · rfl
  · simp only [holds]
    split_ifs with h
    · rw [(ht d h.1).2 v (by omega)]
    · rfl

theorem holds_of_put (hd : d ∈ D) (hv : v < 160) (ht : TablesPut m m' D d v w) :
    holds m' D K = Function.update (holds m D K) (.user d v) (held w) := by
  funext s
  rcases s with f | e | ⟨e, j⟩ | ⟨e, u⟩
  · rfl
  · rfl
  · rw [Function.update_of_ne (by simp)]
    simp only [holds]
    split_ifs with h
    · rw [(ht e h.1).1 j h.2]
    · rfl
  · by_cases h : e = d ∧ u = v
    · obtain ⟨rfl, rfl⟩ := h
      rw [Function.update_self, holds, if_pos ⟨hd, hv⟩, (ht e hd).2 u (by omega), if_pos ⟨rfl, rfl⟩]
    · rw [Function.update_of_ne (by simpa using h)]
      simp only [holds]
      split_ifs with hu
      · rw [(ht e hu.1).2 u (by omega), if_neg h]
      · rfl

theorem exclusive_of_same (ht : SameTables m m' D) {s : Slot} (hs : holds m' D K s = some f)
    (hx : Exclusive m' s) : Exclusive m s := by
  rcases s with _ | _ | _ | ⟨d, v⟩
  · trivial
  · trivial
  · trivial
  · obtain ⟨⟨hd, hv⟩, -⟩ := holds_user.mp hs
    rwa [Exclusive, (ht d hd).2 v (by omega)] at hx

namespace Inv

/-- A change that leaves the tables alone keeps the ledger, when the counts still fit. -/
theorem of_same (h : Inv L N m D K) (ht : SameTables m m' D)
    (hc : Counted (managed L) m'.refCnt m'.freelist (holds m D K'))
    (ho : ∀ f, f ∉ managed L → f ≠ 0 → m'.refCnt f = 0) (hfree : m'.freePages = m'.freelist.length)
    (hx : ∀ s f, Exclusive m s → holds m D K' s = some f → m'.refCnt f = 1) : Inv L N m' D K' where
  counted := by rwa [holds_of_same ht]
  outside := ho
  freePages := hfree
  exclusive s f hs hf := by
    have hs' := exclusive_of_same ht hf hs
    rw [holds_of_same ht] at hf
    exact hx s f hs' hf
  userAccess d hd v hv := by
    rw [(ht d hd).2 v (by omega)]
    exact h.userAccess d hd v hv
  root d hd := by
    rw [(ht d hd).1 0 (by omega)]
    exact h.root d hd
  rootUser d hd := by
    rw [(ht d hd).1 0 (by omega)]
    exact h.rootUser d hd
  table d hd j hj := by
    rw [(ht d hd).1 j hj]
    exact h.table d hd j hj
  frame d hd v hv := by
    rw [(ht d hd).2 v (by omega)]
    exact h.frame d hd v hv
  kernelRo d hd v hv := by
    rw [(ht d hd).2 v hv]
    exact h.kernelRo d hd v hv
  aligned d v d' v' f := by
    rw [holds_of_same ht]
    exact h.aligned d v d' v' f

/-- The ledger, with entries that have page 0 allowed. -/
theorem of_null {N' : Prop} (h : Inv L N m D K) (hN : N') : Inv L N' m D K :=
  { h with frame := fun _ _ _ _ _ _ => hN }

/-- **A user entry is written.** -/
theorem put (h : Inv L N m D K) (hd : d ∈ D) (hv : v < 160) (ht : TablesPut m m' D d v w)
    (hK : K' ⊆ K) (hc : Counted (managed L) m'.refCnt m'.freelist (holds m' D K'))
    (ho : ∀ f, f ∉ managed L → f ≠ 0 → m'.refCnt f = 0) (hfree : m'.freePages = m'.freelist.length)
    (hx : ∀ s f, s ≠ .user d v → Exclusive m s → holds m D K s = some f → holds m' D K' s = some f →
      m'.refCnt f = 1)
    (hw : ∀ f, held w = some f → writable w → m'.refCnt f = 1) (hu : present w → userOk w)
    (hz : present w → pageOf w = 0 → N)
    (ha : ∀ f, held w = some f → ∀ e u, holds m D K (.user e u) = some f → u = v) : Inv L N m' D K' where
  counted := hc
  outside := ho
  freePages := hfree
  exclusive s f hs hf := by
    rcases eq_or_ne s (.user d v) with rfl | hne
    · rw [Exclusive, (ht d hd).2 v (by omega), if_pos ⟨rfl, rfl⟩] at hs
      rw [holds_of_put hd hv ht, Function.update_self] at hf
      exact hw f hf hs
    · refine hx s f hne ?_ ?_ hf
      · rcases s with _ | _ | _ | ⟨e, u⟩
        · trivial
        · trivial
        · trivial
        · obtain ⟨⟨he, hu⟩, -⟩ := holds_user.mp hf
          rwa [Exclusive, (ht e he).2 u (by omega), if_neg (by simpa using hne)] at hs
      · rw [holds_of_put hd hv ht, Function.update_of_ne hne] at hf
        rcases s with g | _ | _ | _
        · obtain ⟨hg, rfl⟩ := holds_kern.mp hf
          exact holds_kern.mpr ⟨hK hg, rfl⟩
        · exact hf
        · exact hf
        · exact hf
  userAccess e he u hu' := by
    rw [(ht e he).2 u (by omega)]
    split_ifs with h'
    · exact hu
    · exact h.userAccess e he u hu'
  root e he := by
    rw [(ht e he).1 0 (by omega)]
    exact h.root e he
  rootUser e he := by
    rw [(ht e he).1 0 (by omega)]
    exact h.rootUser e he
  table e he j hj := by
    rw [(ht e he).1 j hj]
    exact h.table e he j hj
  frame e he u hu' := by
    rw [(ht e he).2 u (by omega)]
    split_ifs
    · exact hz
    · exact h.frame e he u hu'
  kernelRo e he u hu' hle := by
    rw [(ht e he).2 u hu', if_neg (by omega)]
    exact h.kernelRo e he u hu' hle
  aligned e u e' u' f := by
    rw [holds_of_put hd hv ht]
    intro h1 h2
    have hold : ∀ {a b}, Slot.user a b ≠ .user d v →
        Function.update (holds m D K') (.user d v) (held w) (.user a b) = some f →
        holds m D K (.user a b) = some f := by
      intro a b hne hab
      rwa [Function.update_of_ne hne] at hab
    rcases eq_or_ne (Slot.user e u) (.user d v) with heq | hne
    · rcases eq_or_ne (Slot.user e' u') (.user d v) with heq' | hne'
      · rw [← heq'] at heq
        cases heq
        rfl
      · cases heq
        rw [Function.update_self] at h1
        exact (ha f h1 e' u' (hold hne' h2)).symm
    · rcases eq_or_ne (Slot.user e' u') (.user d v) with heq' | hne'
      · cases heq'
        rw [Function.update_self] at h2
        exact ha f h2 e u (hold hne h1)
      · exact h.aligned e u e' u' f (hold hne h1) (hold hne' h2)

end Inv

/-! ### Writes and tables -/

/-- No live directory and no table of one is page `f`. -/
def OffTables (m : Mem) (D : Finset ℕ) (f : ℕ) : Prop :=
  f ∉ D ∧ ∀ d ∈ D, ∀ j < 1024, present (m.word d j) → pageOf (m.word d j) ≠ f

/-- Where the tables are is in the directories. -/
theorem OffTables.of_dirs (h : OffTables m D f) (hdir : ∀ d ∈ D, ∀ j < 1024, m'.word d j = m.word d j) :
    OffTables m' D f := by
  refine ⟨h.1, fun d hd j hj => ?_⟩
  rw [hdir d hd j hj]
  exact h.2 d hd j hj

theorem sameTables_of_byte (hf : OffTables m D f) (hb : ∀ g, g ≠ f → m'.byte g = m.byte g) :
    SameTables m m' D := by
  intro d hd
  have hdir : ∀ j, m'.word d j = m.word d j := fun j =>
    Mem.word_congr (hb d fun h => hf.1 (h ▸ hd))
  refine ⟨fun j _ => hdir j, fun v hv => ?_⟩
  unfold entry
  rw [hdir]
  split_ifs with hp
  · exact Mem.word_congr (hb _ (hf.2 d hd _ (by omega) hp))
  · rfl

theorem sameTables_of_eq (hb : m'.byte = m.byte) : SameTables m m' D := by
  exact fun d _ => ⟨fun j _ => Mem.word_congr (by rw [hb]), fun v _ => entry_congr hb⟩

theorem SameTables.refl : SameTables m m D := fun _ _ => ⟨fun _ _ => rfl, fun _ _ => rfl⟩

theorem SameTables.trans {m₁ m₂ m₃ : Mem} (h : SameTables m₁ m₂ D) (h' : SameTables m₂ m₃ D) : SameTables m₁ m₃ D :=
  fun d hd => ⟨fun j hj => ((h' d hd).1 j hj).trans ((h d hd).1 j hj),
    fun v hv => ((h' d hd).2 v hv).trans ((h d hd).2 v hv)⟩

theorem OffTables.of_not_held (h : Inv L N m D K) (hf : ∀ s, holds m D K s = some f → ∃ g, s = .kern g) : OffTables m D f := by
  refine ⟨fun hd => ?_, fun d hd j hj hp heq => ?_⟩
  · obtain ⟨g, hg⟩ := hf _ (Inv.holds_dir_self hd)
    cases hg
  · obtain ⟨g, hg⟩ := hf _ (heq ▸ h.holds_table_self hd hj hp)
    cases hg

namespace Inv

theorem offTables_kern (h : Inv L N m D K) (hf : f ∈ K) : OffTables m D f :=
  .of_not_held h fun _ hs => ⟨f, h.kern_unique hf hs⟩

theorem offTables_null (h : Inv L N m D K) : OffTables m D 0 :=
  ⟨fun hd => ne_zero_of_managed (h.managed_of_holds (holds_dir_self hd)) rfl, h.table⟩

theorem offTables_free (h : Inv L N m D K) (hf : f ∈ m.freelist) : OffTables m D f :=
  .of_not_held h fun s hs => absurd hs (h.counted.of_mem_free hf s)

theorem offTables_user (h : Inv L N m D K) (hs : holds m D K (.user d v) = some f) : OffTables m D f := by
  refine ⟨fun hd => ?_, fun e he j hj hp heq => ?_⟩
  · cases h.unique (s := .dir f) trivial (holds_dir_self hd) hs
  · subst heq
    cases h.table_unique he hj hp hs

theorem table_ne_dir (h : Inv L N m D K) (hd : d ∈ D) (hj : j < 1024) (hp : present (m.word d j)) (he : d' ∈ D) :
    d' ≠ pageOf (m.word d j) := by
  intro heq
  cases h.table_unique hd hj hp (heq ▸ holds_dir_self (m := m) (K := K) he)

/-- The page of a user entry is not a table. -/
theorem user_ne_table (h : Inv L N m D K) (hd : d ∈ D) (hj : j < 1024) (hp : present (m.word d j))
    (hs : holds m D K (.user d' v) = some f) : f ≠ pageOf (m.word d j) := by
  rintro rfl
  cases h.table_unique hd hj hp hs

/-- **Writing an entry** of a live directory, in a memory whose tables read the same. -/
theorem tablesPut (h : Inv L N m D K) {n : Mem} (hs : SameTables m n D) (hd : d ∈ D) (hv : v < 2 ^ 20)
    (hp : present (m.word d (v / 1024))) :
    TablesPut m (n.setWord (pageOf (m.word d (v / 1024))) (v % 1024) w) D d v w := by
  intro e he
  have hdir : ∀ j < 1024, (n.setWord (pageOf (m.word d (v / 1024))) (v % 1024) w).word e j = m.word e j := by
    intro j hj
    rw [Mem.word_setWord_of_ne fun hne => h.table_ne_dir hd (by omega) hp he hne.1, (hs e he).1 j hj]
  refine ⟨hdir, fun u hu => ?_⟩
  unfold entry
  rw [hdir _ (by omega)]
  split_ifs with hpe hev hev
  · obtain ⟨rfl, rfl⟩ := hev
    exact Mem.word_setWord_self
  · have hold : n.word (pageOf (m.word e (u / 1024))) (u % 1024) = entry m e u := by
      rw [← (hs e he).2 u hu, entry, (hs e he).1 _ (by omega), if_pos hpe]
    rw [Mem.word_setWord_of_ne, hold, entry, if_pos hpe]
    rintro ⟨hpage, hidx⟩
    have hslot := h.table_unique hd (by omega) hp
      (hpage ▸ h.holds_table_self he (by omega : u / 1024 < 1024) hpe)
    simp only [Slot.table.injEq] at hslot
    exact hev ⟨hslot.1, by omega⟩
  · obtain ⟨rfl, rfl⟩ := hev
    exact absurd hp hpe
  · rfl

end Inv

/-! ### Images -/

/-- What an entry's page reads as, if there is one. -/
def shown (m : Mem) (w : Word) : Option (ℕ → BitVec 8) := if present w then some (m.byte (pageOf w)) else none

/-- What page `v` of `d` reads as, if there is one. -/
def image (m : Mem) (d v : ℕ) : Option (ℕ → BitVec 8) := shown m (entry m d v)

/-- The directories `D` map the same user memory. -/
def Kept (m m' : Mem) (D : Finset ℕ) : Prop := ∀ d ∈ D, ∀ v < 160, image m' d v = image m d v

/-- Page `v` of `d` now reads as `x`, and otherwise the live directories map the same user memory. -/
def ImagePut (m m' : Mem) (D : Finset ℕ) (d v : ℕ) (x : Option (ℕ → BitVec 8)) : Prop :=
  ∀ d' ∈ D, ∀ v' < 160, image m' d' v' = if d' = d ∧ v' = v then x else image m d' v'

theorem image_eq_none : image m d v = none ↔ ¬ present (entry m d v) := by
  unfold image shown
  split_ifs with h <;> simp [h]

theorem shown_of_present (h : present w) : shown m w = some (m.byte (pageOf w)) := if_pos h

theorem image_of_present (h : present (entry m d v)) : image m d v = some (m.byte (pageOf (entry m d v))) :=
  if_pos h

theorem Kept.refl : Kept m m D := fun _ _ _ _ => rfl

theorem Kept.trans {m₁ m₂ m₃ : Mem} (h : Kept m₁ m₂ D) (h' : Kept m₂ m₃ D) : Kept m₁ m₃ D :=
  fun d hd v hv => (h' d hd v hv).trans (h d hd v hv)

theorem Kept.mono {D' : Finset ℕ} (h : Kept m m' D) (hD : D' ⊆ D) : Kept m m' D' :=
  fun d hd => h d (hD hd)

/-- Entries that are the same show the same, when the counted pages and page 0 do. -/
theorem shown_congr (h0 : m'.byte 0 = m.byte 0) (hb : ∀ g, held w = some g → m'.byte g = m.byte g) :
    shown m' w = shown m w := by
  unfold shown
  split_ifs with hp
  · rcases eq_or_ne (pageOf w) 0 with hz | hz
    · rw [hz, h0]
    · rw [hb _ (held_of_present hp hz)]
  · rfl

theorem kept_of_same (hs : SameTables m m' D) (h0 : m'.byte 0 = m.byte 0)
    (hb : ∀ d ∈ D, ∀ v < 160, ∀ g, holds m D K (.user d v) = some g → m'.byte g = m.byte g) :
    Kept m m' D := by
  intro d hd v hv
  rw [image, image, (hs d hd).2 v (by omega)]
  refine shown_congr h0 fun g hg => hb d hd v hv g ?_
  rwa [holds, if_pos ⟨hd, hv⟩]

theorem imagePut_of_put (ht : TablesPut m m' D d v w) (h0 : m'.byte 0 = m.byte 0)
    (hb : ∀ d' ∈ D, ∀ v' < 160, ¬ (d' = d ∧ v' = v) → ∀ g, holds m D K (.user d' v') = some g →
      m'.byte g = m.byte g) : ImagePut m m' D d v (shown m' w) := by
  intro e he u hu
  rw [image, image, (ht e he).2 u (by omega)]
  split_ifs with h
  · rfl
  · refine shown_congr h0 fun g hg => hb e he u hu h g ?_
    rwa [holds, if_pos ⟨he, hu⟩]

theorem ImagePut.kept (h : ImagePut m m' D d v (image m d v)) : Kept m m' D := by
  intro e he u hu
  rw [h e he u hu]
  split_ifs with heq
  · rw [heq.1, heq.2]
  · rfl

theorem ImagePut.kept_erase {x : Option (ℕ → BitVec 8)} (h : ImagePut m m' D d v x) : Kept m m' (D.erase d) := by
  intro e he u hu
  rw [h e (Finset.mem_of_mem_erase he) u hu, if_neg fun heq => Finset.ne_of_mem_erase he heq.1]

/-! ### Frames -/

/-- **The frame of a call**: the pages that are not the allocator's read the same, and so do those that the
directories `E` or the kernel hold. -/
def Framed (L : Layout) (m m' : Mem) (E K : Finset ℕ) : Prop :=
  ∀ f, (f ∉ managed L ∨ ∃ s, holds m E K s = some f) → m'.byte f = m.byte f

theorem holds_mono {E : Finset ℕ} (hE : E ⊆ D) (hK : K ⊆ K') {s : Slot} (hs : holds m E K s = some f) :
    holds m D K' s = some f := by
  rcases s with g | e | ⟨e, j⟩ | ⟨e, v⟩
  · exact holds_kern.mpr ((holds_kern.mp hs).imp_left fun h => hK h)
  · exact holds_dir.mpr ((holds_dir.mp hs).imp_left fun h => hE h)
  · exact holds_table.mpr ((holds_table.mp hs).imp_left (.imp_left fun h => hE h))
  · exact holds_user.mpr ((holds_user.mp hs).imp_left (.imp_left fun h => hE h))

namespace Framed

variable {E E' : Finset ℕ} {m₁ : Mem}

theorem of_eq (hb : m'.byte = m.byte) : Framed L m m' E K := fun f _ => by rw [hb]

theorem refl : Framed L m m E K := of_eq rfl

/-- The write of a page that nobody there holds. -/
theorem of_byte (hf : f ∈ managed L) (hnone : ∀ s, holds m E K s ≠ some f)
    (hb : ∀ g, g ≠ f → m'.byte g = m.byte g) : Framed L m m' E K := by
  intro g hg
  refine hb g ?_
  rintro rfl
  obtain hman | ⟨s, hs⟩ := hg
  · exact hman hf
  · exact hnone s hs

theorem mono (h : Framed L m m' E' K') (hE : E ⊆ E') (hK : K ⊆ K') : Framed L m m' E K := by
  intro f hf
  refine h f (hf.imp_right ?_)
  rintro ⟨s, hs⟩
  exact ⟨s, holds_mono hE hK hs⟩

theorem same (h : Framed L m m' E K) : SameTables m m' E := by
  intro d hd
  have hdir : ∀ j, m'.word d j = m.word d j := fun j =>
    Mem.word_congr (h d (.inr ⟨.dir d, holds_dir.mpr ⟨hd, rfl⟩⟩))
  refine ⟨fun j _ => hdir j, fun v hv => ?_⟩
  unfold entry
  rw [hdir]
  split_ifs with hp
  · refine Mem.word_congr (h _ ?_)
    rcases eq_or_ne (pageOf (m.word d (v / 1024))) 0 with h0 | h0
    · exact .inl fun hman => ne_zero_of_managed hman h0
    · exact .inr ⟨.table d (v / 1024), holds_table.mpr ⟨⟨hd, by omega⟩, hp, h0, rfl⟩⟩
  · rfl

theorem holds_eq (h : Framed L m m' E K) : holds m' E K = holds m E K := holds_of_same h.same

theorem trans (h : Framed L m m₁ E K) (h' : Framed L m₁ m' E K) : Framed L m m' E K := by
  intro f hf
  rw [h' f (by rwa [h.holds_eq]), h f hf]

theorem kept (h : Framed L m m' E K) : Kept m m' E :=
  kept_of_same h.same (h 0 (.inl fun hman => ne_zero_of_managed hman rfl))
    fun _ _ _ _ _ hg => h _ (.inr ⟨_, hg⟩)

end Framed

namespace Inv

/-- The page of an exclusive slot of `d` is held by no other directory, and not by the kernel. -/
theorem not_held_erase (h : Inv L N m D K) {s : Slot} (hs : holds m D K s = some f) (hone : m.refCnt f = 1)
    (hnone : holds m (D.erase d) K s = none) (t : Slot) : holds m (D.erase d) K t ≠ some f := by
  intro ht
  have hst := h.counted.unique hone hs (holds_mono (Finset.erase_subset _ _) subset_rfl ht)
  rw [← hst, hnone] at ht
  cases ht

theorem framed_table (h : Inv L N m D K) (hd : d ∈ D) (hj : j < 1024) (hp : present (m.word d j))
    (hb : ∀ g, g ≠ pageOf (m.word d j) → m'.byte g = m.byte g) : Framed L m m' (D.erase d) K := by
  have hs := h.holds_table_self hd hj hp
  exact .of_byte (h.managed_of_holds hs)
    (h.not_held_erase hs (h.exclusive (.table d j) _ trivial hs) (by simp [holds])) hb

theorem framed_free (h : Inv L N m D K) (hf : f ∈ m.freelist) (hb : ∀ g, g ≠ f → m'.byte g = m.byte g) :
    Framed L m m' D K :=
  .of_byte ((h.counted.mem_free f).mp hf).1 (h.counted.of_mem_free hf) hb

/-- The write of a kernel page, seen by those who have other pages. -/
theorem framed_kern (h : Inv L N m D K') (hf : f ∈ K') (hfK : f ∉ K) (hK : K ⊆ K')
    (hb : ∀ g, g ≠ f → m'.byte g = m.byte g) : Framed L m m' D K := by
  refine .of_byte (h.managed_of_holds (holds_kern_self hf)) (fun s hs => ?_) hb
  have hkern := h.kern_unique hf (holds_mono subset_rfl hK hs)
  rw [hkern] at hs
  exact hfK (holds_kern.mp hs).1

/-- **The same holdings are counted the same**, and leave the same pages free. -/
theorem counts_eq {N' : Prop} (h : Inv L N m D K) (h' : Inv L N' m' D K) (hh : holds m' D K = holds m D K) :
    (∀ f, f ≠ 0 → m'.refCnt f = m.refCnt f) ∧ (∀ f, f ∈ m'.freelist ↔ f ∈ m.freelist) ∧
      m'.freePages = m.freePages := by
  have hcnt : ∀ f, f ≠ 0 → m'.refCnt f = m.refCnt f := by
    intro f hf
    by_cases hman : f ∈ managed L
    · have h1 := h.counted.count_eq f hman
      have h2 := h'.counted.count_eq f hman
      rw [hh, ← h1] at h2
      exact_mod_cast h2
    · rw [h.outside f hman hf, h'.outside f hman hf]
  have hfree : ∀ f, f ∈ m'.freelist ↔ f ∈ m.freelist := by
    intro f
    rw [h.counted.mem_free, h'.counted.mem_free]
    exact and_congr_right fun hman => by rw [hcnt f (ne_zero_of_managed hman)]
  refine ⟨hcnt, hfree, ?_⟩
  rw [h.freePages, h'.freePages]
  exact ((List.perm_ext_iff_of_nodup h'.counted.nodup h.counted.nodup).mpr hfree).length_eq

end Inv

end OperatingSystems.CowFork
