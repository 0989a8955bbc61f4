import OperatingSystems.CowFork.Spaces

/-! # Making and giving back a directory

* `Inv.setupkvm_frame`: a new live directory, or the few pages that a failed call leaves behind (`Unmade`).
* `Inv.freevm_frame`: all pages of a directory are given back. -/

namespace OperatingSystems.CowFork

open Lib.RefCount Lib.WeakestPre

variable {L : Layout} {N : Prop} {m m' : Mem} {D K : Finset ℕ} {d d' v f g : ℕ} {w : Word}

/-- The tables of entries `i ≤ j < i + n` of a directory. -/
def tablesFrom (m : Mem) (d i n : ℕ) : Finset ℕ :=
  ((Finset.Ico i (i + n)).filter fun j => present (m.word d j)).image fun j => pageOf (m.word d j)

theorem mem_tablesFrom {i n : ℕ} :
    f ∈ tablesFrom m d i n ↔ ∃ j, (i ≤ j ∧ j < i + n) ∧ present (m.word d j) ∧ pageOf (m.word d j) = f := by
  simp [tablesFrom, and_assoc]

theorem tablesFrom_succ {i n : ℕ} : tablesFrom m d i (n + 1) =
    if present (m.word d i) then insert (pageOf (m.word d i)) (tablesFrom m d (i + 1) n)
    else tablesFrom m d (i + 1) n := by
  have hIco : Finset.Ico i (i + (n + 1)) = insert i (Finset.Ico (i + 1) (i + 1 + n)) := by
    ext j
    simp only [Finset.mem_Ico, Finset.mem_insert]
    omega
  rw [tablesFrom, hIco, Finset.filter_insert]
  split_ifs
  · rw [Finset.image_insert, tablesFrom]
  · rfl

theorem tablesFrom_congr {i n : ℕ} (h : ∀ j, m'.word d j = m.word d j) :
    tablesFrom m' d i n = tablesFrom m d i n := by
  simp only [tablesFrom, h]

theorem tablePages_eq : tablePages m d = tablesFrom m d 0 1024 := by
  rw [tablePages, tablesFrom, Finset.range_eq_Ico]

namespace Inv

/-- The tables of a retired directory are freed, each once. -/
theorem freeTables_spec {n i : ℕ} (h : Inv L N m D (insert d (K ∪ tablesFrom m d i n)))
    (hne : ∀ j, i ≤ j → j < i + n → present (m.word d j) → pageOf (m.word d j) ≠ d ∧ pageOf (m.word d j) ∉ K)
    (hinj : ∀ j k, i ≤ j → j < k → k < i + n → present (m.word d j) → present (m.word d k) →
      pageOf (m.word d j) ≠ pageOf (m.word d k)) :
    Wp (freeTables L d n i) (fun _ m' => Inv L N m' D (insert d K) ∧ Framed L m m' D K ∧ m'.fails = m.fails ∧
      m.freelist.length ≤ m'.freelist.length) (fun _ _ => False) m := by
  induction n generalizing i m with
  | zero =>
    refine wp_pure.mpr ⟨?_, .refl, rfl, le_rfl⟩
    have hempty : tablesFrom m d i 0 = ∅ := by
      rw [tablesFrom, add_zero, Finset.Ico_self, Finset.filter_empty, Finset.image_empty]
    rwa [hempty, Finset.union_empty] at h
  | succ n ih =>
    rw [tablesFrom_succ] at h
    rw [freeTables]
    simp only [wp_bind, wp_readPte, wp_ite]
    refine ⟨fun hp => ?_, fun hp => ?_⟩
    · rw [if_pos hp, Finset.union_insert, Finset.insert_comm] at h
      obtain ⟨hpd, hpK⟩ := hne i le_rfl (by omega) hp
      have hnot : pageOf (m.word d i) ∉ insert d (K ∪ tablesFrom m d (i + 1) n) := by
        simp only [Finset.mem_insert, Finset.mem_union, not_or]
        refine ⟨hpd, hpK, fun hmem => ?_⟩
        obtain ⟨j, ⟨hlo, hhi⟩, hpj, heq⟩ := mem_tablesFrom.mp hmem
        exact hinj i j le_rfl (by omega) (by omega) hp hpj heq.symm
      have hframe : ∀ {m₁ : Mem}, (∀ g, g ≠ pageOf (m.word d i) → m₁.byte g = m.byte g) → Framed L m m₁ D K :=
        fun hb => h.framed_kern (Finset.mem_insert_self _ _) hpK
          ((Finset.subset_union_left.trans (Finset.subset_insert _ _)).trans (Finset.subset_insert _ _)) hb
      refine (h.kfree_spec (Finset.mem_insert_self _ _)).imp ?_
      rintro _ m₁ ⟨h₁, -, hf₁, hl₁, hb₁⟩
      have hword : ∀ j, m₁.word d j = m.word d j := fun j => Mem.word_congr (hb₁ d hpd.symm)
      rw [Finset.erase_insert hnot, ← tablesFrom_congr hword] at h₁
      refine (ih h₁ (fun j hlo hhi => ?_) (fun j k hlo hjk hhi => ?_)).imp ?_
      · rw [hword]
        exact hne j (by omega) (by omega)
      · rw [hword, hword]
        exact hinj j k (by omega) hjk (by omega)
      · rintro _ m₂ ⟨h₂, hk₂, hf₂, hl₂⟩
        exact ⟨h₂, (hframe hb₁).trans hk₂, hf₂.trans hf₁, hl₁.trans hl₂⟩
    · rw [if_neg hp] at h
      exact ih h (fun j hlo hhi => hne j (by omega) (by omega)) fun j k hlo hjk hhi =>
        hinj j k (by omega) hjk (by omega)

/-- **`freevm`** gives back a live directory with all it has. -/
theorem freevm_frame (h : Inv L N m D K) (hd : d ∈ D) :
    Wp (freevm L d) (fun _ m' => Inv L N m' (D.erase d) K ∧ Framed L m m' (D.erase d) K ∧ m'.fails = m.fails ∧
      m.freelist.length ≤ m'.freelist.length)
      (fun e _ => e = .deallocuvm ∧ ∃ v < 160, present (entry m d v) ∧ pageOf (entry m d v) = 0) m := by
  have hd0 := ne_zero_of_managed (h.managed_of_holds (holds_dir_self hd))
  unfold freevm
  rw [if_neg hd0]
  refine Wp.bind ((h.deallocuvm_frame 0 hd le_rfl).mono (fun _ _ hr => hr) ?_) ?_
  · rintro e _ ⟨rfl, v, -, hv, hnull⟩
    exact ⟨rfl, v, hv, hnull⟩
  rintro _ m₁ ⟨-, hfill, hf₁, hl₁⟩
  have h₁ := hfill.inv
  have hempty : ∀ v < 160, ¬ present (entry m₁ d v) := fun v hv =>
    image_eq_none.mp ((hfill.images d hd v hv).trans (if_pos ⟨rfl, Nat.zero_le v, hv⟩))
  rw [← Finset.insert_erase hd] at h₁
  obtain ⟨ha, h₂⟩ := h₁.retire (Finset.notMem_erase d D) hempty
  have hdK : d ∉ K := ha.disjoint d (Finset.mem_insert_self _ _)
  rw [dirPages, Finset.union_insert, tablePages_eq] at h₂
  have hmem : ∀ j < 1024, present (m₁.word d j) → pageOf (m₁.word d j) ∈ dirPages m₁ d := fun j hj hp =>
    Finset.mem_insert_of_mem (mem_tablePages.mpr ⟨j, hj, hp, rfl⟩)
  refine Wp.bind ((h₂.freeTables_spec (fun j _ hj hp => ?_) (fun j k _ hjk hk hp hp' heq => ?_)).mono
    (fun _ _ hr => hr) fun _ _ => False.elim) ?_
  · exact ⟨ha.table_ne j (by omega) hp, ha.disjoint _ (hmem j (by omega) hp)⟩
  · have := ha.table_inj j (by omega) k (by omega) hp hp' heq
    omega
  · rintro _ m₃ ⟨h₃, hk₃, hf₃, hl₃⟩
    have hframe : ∀ {m₄ : Mem}, (∀ g, g ≠ d → m₄.byte g = m₃.byte g) → Framed L m₃ m₄ (D.erase d) K :=
      h₃.framed_kern (Finset.mem_insert_self _ _) hdK (Finset.subset_insert _ _)
    refine (h₃.kfree_spec (Finset.mem_insert_self _ _)).mono ?_ fun _ _ => False.elim
    rintro _ m₄ ⟨h₄, -, hf₄, hl₄, hb₄⟩
    rw [Finset.erase_insert hdK] at h₄
    exact ⟨h₄, hfill.framed.trans (hk₃.trans (hframe hb₄)), hf₄.trans (hf₃.trans hf₁),
      hl₁.trans (hl₃.trans hl₄)⟩

theorem freevm_spec (h : Inv L N m D K) (hd : d ∈ D) :
    Wp (freevm L d) (fun _ m' => Inv L N m' (D.erase d) K ∧ Kept m m' (D.erase d) ∧ m'.fails = m.fails ∧
      m.freelist.length ≤ m'.freelist.length) (fun e _ => e = .deallocuvm ∧ N) m := by
  refine (h.freevm_frame hd).mono ?_ ?_
  · rintro _ m' ⟨h', hframe, hrest⟩
    exact ⟨h', hframe.kept, hrest⟩
  · rintro e m' ⟨rfl, v, hv, hp, h0⟩
    exact ⟨rfl, h.frame d hd v hv hp h0⟩

end Inv

/-- The entries of a directory that the ranges of `kmap` are in. -/
def kernTables : Finset ℕ := Finset.Ico 0 4 ∪ Finset.Ico 1016 1024

theorem card_kernTables : kernTables.card = 12 := by
  rw [kernTables, Finset.card_union_of_disjoint (Finset.Ico_disjoint_Ico_consecutive 0 4 1024 |>.mono_right
    (Finset.Ico_subset_Ico_left (by omega))), Nat.card_Ico, Nat.card_Ico]

theorem mem_kernTables {a : ℕ} (ha : a < 2 ^ 20) (h : a < 4096 ∨ 0xFE000 ≤ a) : a / 1024 ∈ kernTables := by
  simp only [kernTables, Finset.mem_union, Finset.mem_Ico]
  omega

/-- A directory under construction: it belongs to the kernel, and below page `b` its kernel part is there
as far as `setupkvm` got. -/
structure Building (L : Layout) (N : Prop) (m₀ m : Mem) (D K : Finset ℕ) (d b : ℕ) : Prop where
  inv : Inv L N m D (K ∪ dirPages m d)
  framed : Framed L m₀ m D K
  apart : Apart m D K d
  below : ∀ v < 2 ^ 20, present (entry m d v) → 160 ≤ v ∧ v < b
  kernelRo : ∀ v < 2 ^ 20, present (entry m d v) → ¬ writable (entry m d v) →
    pageOf (entry m d v) ∉ managed L ∧ pageOf (entry m d v) ≠ 0
  root : 160 < b → present (m.word d 0)
  tables : ∀ j < 1024, present (m.word d j) → j ∈ kernTables ∧ userOk (m.word d j) ∧ writable (m.word d j)
  fails : m.fails = m₀.fails
  length : m₀.freelist.length = m.freelist.length + (dirPages m d).card
  free : ∀ f ∈ m.freelist, f ∈ m₀.freelist
  taken : ∀ f ∈ dirPages m d, f ∈ m₀.freelist

theorem card_dirPages_le : (dirPages m d).card ≤ 1025 := by
  refine (Finset.card_insert_le _ _).trans (Nat.succ_le_succ ?_)
  exact Finset.card_image_le.trans ((Finset.card_filter_le _ _).trans (Finset.card_range 1024).le)

/-- With entries in `T` only, a directory has that many tables at most. -/
theorem card_dirPages {T : Finset ℕ} (h : ∀ j < 1024, present (m.word d j) → j ∈ T) :
    (dirPages m d).card ≤ T.card + 1 := by
  refine (Finset.card_insert_le _ _).trans (Nat.succ_le_succ (Finset.card_image_le.trans (Finset.card_le_card ?_)))
  intro j hj
  rw [Finset.mem_filter, Finset.mem_range] at hj
  exact h j hj.1 hj.2

theorem dirPages_congr (h : ∀ j < 1024, m'.word d j = m.word d j) : dirPages m' d = dirPages m d := by
  ext f
  simp only [dirPages, Finset.mem_insert, mem_tablePages]
  refine or_congr_right (exists_congr fun j => and_congr_right fun hj => ?_)
  rw [h j hj]

theorem mem_dirPages_table {j : ℕ} (hj : j < 1024) (hp : present (m.word d j)) :
    pageOf (m.word d j) ∈ dirPages m d :=
  Finset.mem_insert_of_mem (mem_tablePages.mpr ⟨j, hj, hp, rfl⟩)

/-- Writing an entry of a directory apart. -/
theorem Apart.entry_setWord {a : ℕ} (h : Apart m D K d) (ha : a < 2 ^ 20)
    (hp : present (m.word d (a / 1024))) (hv : v < 2 ^ 20) :
    entry (m.setWord (pageOf (m.word d (a / 1024))) (a % 1024) w) d v = if v = a then w else entry m d v := by
  have hdir : ∀ j, (m.setWord (pageOf (m.word d (a / 1024))) (a % 1024) w).word d j = m.word d j := fun j =>
    Mem.word_setWord_of_ne fun hne => h.table_ne _ (by omega) hp hne.1.symm
  unfold entry
  rw [hdir]
  split_ifs with hpv hva hva
  · subst hva
    exact Mem.word_setWord_self
  · refine Mem.word_setWord_of_ne fun hne => ?_
    have := h.table_inj _ (by omega) _ (by omega) hpv hp hne.1
    omega
  · subst hva
    exact absurd hp hpv
  · rfl

/-- An entry of a directory that `walkpgdir` has made leads to the table. -/
theorem pageOf_table {r : ℕ} (hr : r < 2 ^ 20) : pageOf (addr r ||| (pteP ||| pteW ||| pteU)) = r := by
  refine pageOf_addr_or hr fun k hk => ?_
  rw [BitVec.getLsbD_or, BitVec.getLsbD_or, getLsbD_pteP, getLsbD_pteW, getLsbD_pteU,
    decide_eq_false (by omega), decide_eq_false (by omega), decide_eq_false (by omega)]
  rfl

/-- In `t` page `r` hangs in entry `j` of the directory, as an empty table. -/
structure Hung (m t : Mem) (d j r : ℕ) (w : Word) : Prop where
  dir : ∀ k, t.word d k = if k = j then w else m.word d k
  empty : ∀ i, t.word r i = 0#32
  old : ∀ g k, g ≠ d → g ≠ r → t.word g k = m.word g k
  present : present w
  page : pageOf w = r

namespace Hung

variable {t m₁ : Mem} {j r : ℕ}

theorem of_fill (hbyte : m₁.byte = m.byte) (hrd : r ≠ d) (hp : CowFork.present w) (hpage : pageOf w = r) :
    Hung m ((m₁.fill r 0).setWord d j w) d j r w := by
  constructor
  case dir =>
    intro k
    split_ifs with hk
    · rw [hk, Mem.word_setWord_self]
    · rw [Mem.word_setWord_of_ne fun h' => hk h'.2]
      exact Mem.word_congr (by rw [Mem.byte_fill_of_ne hrd.symm, hbyte])
  case empty =>
    intro i
    rw [Mem.word_setWord_of_ne fun h' => hrd h'.1]
    exact Mem.word_fill_zero
  case old =>
    intro g k hgd hgr
    refine Mem.word_congr ?_
    rw [Mem.byte_setWord_of_ne hgd, Mem.byte_fill_of_ne hgr, hbyte]
  case present => exact hp
  case page => exact hpage

theorem dir_self (h : Hung m t d j r w) : t.word d j = w := (h.dir j).trans (if_pos rfl)

theorem dir_of_ne {k : ℕ} (h : Hung m t d j r w) (hk : k ≠ j) : t.word d k = m.word d k :=
  (h.dir k).trans (if_neg hk)

/-- The directory has one page more. -/
theorem dirPages (h : Hung m t d j r w) (hj : j < 1024) (habs : ¬ CowFork.present (m.word d j)) :
    CowFork.dirPages t d = insert r (CowFork.dirPages m d) := by
  ext f
  simp only [CowFork.dirPages, Finset.mem_insert, mem_tablePages, h.dir]
  constructor
  · rintro (rfl | ⟨k, hk, hp, rfl⟩)
    · exact .inr (.inl rfl)
    · split_ifs at hp ⊢ with hkj
      · exact .inl h.page
      · exact .inr (.inr ⟨k, hk, hp, rfl⟩)
  · rintro (rfl | rfl | ⟨k, hk, hp, rfl⟩)
    · exact .inr ⟨j, hj, by rw [if_pos rfl]; exact h.present, by rw [if_pos rfl]; exact h.page⟩
    · exact .inl rfl
    · have hkj : k ≠ j := fun heq => habs (heq ▸ hp)
      exact .inr ⟨k, hk, by rwa [if_neg hkj], by rw [if_neg hkj]⟩

/-- No entry of a page changes. -/
theorem entry (h : Hung m t d j r w) (ha : Apart m D K d) (hr : r ∉ CowFork.dirPages m d)
    (habs : ¬ CowFork.present (m.word d j)) : ∀ v < 2 ^ 20, CowFork.entry t d v = CowFork.entry m d v := by
  intro v hv
  unfold CowFork.entry
  rw [h.dir]
  by_cases hvj : v / 1024 = j
  · rw [if_pos hvj, if_pos h.present, h.page, hvj, if_neg habs, h.empty]
  · rw [if_neg hvj]
    split_ifs with hp
    · refine h.old _ _ (ha.table_ne _ (by omega) hp) fun heq => hr ?_
      rw [← heq]
      exact mem_dirPages_table (by omega) hp
    · rfl

theorem apart (h : Hung m t d j r w) (ha : Apart m D K d) (hj : j < 1024)
    (habs : ¬ CowFork.present (m.word d j)) (hr : r ∉ CowFork.dirPages m d) (hrd : r ≠ d) (hrK : r ∉ K)
    (hr0 : r ≠ 0) : Apart t D K d := by
  constructor
  case notLive => exact ha.notLive
  case disjoint =>
    intro f hf
    rw [h.dirPages hj habs] at hf
    rcases Finset.mem_insert.mp hf with rfl | hf
    · exact hrK
    · exact ha.disjoint f hf
  case table_ne =>
    intro k hk hp
    rw [h.dir] at hp ⊢
    split_ifs at hp ⊢ with hkj
    · rwa [h.page]
    · exact ha.table_ne k hk hp
  case table_ne_zero =>
    intro k hk hp
    rw [h.dir] at hp ⊢
    split_ifs at hp ⊢ with hkj
    · rwa [h.page]
    · exact ha.table_ne_zero k hk hp
  case table_inj =>
    intro i hi k hk hp hp' heq
    rw [h.dir] at hp hp'
    rw [h.dir, h.dir] at heq
    split_ifs at hp hp' heq with h1 h2 h2
    · rw [h1, h2]
    · exact absurd (h.page ▸ heq ▸ mem_dirPages_table hk hp') hr
    · exact absurd (h.page ▸ heq ▸ mem_dirPages_table hi hp) hr
    · exact ha.table_inj i hi k hk hp hp' heq
  case empty =>
    intro v hv
    rw [h.entry ha hr habs v (by omega)]
    exact ha.empty v hv

end Hung

namespace Building

variable {m₀ : Mem} {a b pa : ℕ} {perm : Word}

/-- An entry of the kernel part is written. -/
theorem write (h : Building L N m₀ m D K d b) (hab : b ≤ a) (hlo : 160 ≤ a) (ha : a < 2 ^ 20)
    (hroot : a < 1024 ∨ 160 < b) (hp : present (m.word d (a / 1024))) (hpa : pa < 2 ^ 20)
    (hperm : IsFlags perm) (hro : writable perm ∨ pa ∉ managed L ∧ pa ≠ 0) :
    Building L N m₀ (m.setWord (pageOf (m.word d (a / 1024))) (a % 1024) (mkPte pa perm)) D K d (a + 1) := by
  have hne : d ≠ pageOf (m.word d (a / 1024)) := (h.apart.table_ne _ (by omega) hp).symm
  have hdir : ∀ j, (m.setWord (pageOf (m.word d (a / 1024))) (a % 1024) (mkPte pa perm)).word d j =
      m.word d j := fun j => Mem.word_setWord_of_ne fun h' => hne h'.1
  have hentry := fun v (hv : v < 2 ^ 20) => h.apart.entry_setWord (w := mkPte pa perm) ha hp hv
  have hpages := dirPages_congr (m := m) (d := d) fun j _ => hdir j
  obtain ⟨hinv, -⟩ := h.inv.scribble
    (m.setWord (pageOf (m.word d (a / 1024))) (a % 1024) (mkPte pa perm))
    (Finset.mem_union_right _ (mem_dirPages_table (by omega) hp)) (fun g hg => Mem.byte_setWord_of_ne hg)
    rfl rfl rfl
  constructor
  case inv => rwa [hpages]
  case framed =>
    have hmem := mem_dirPages_table (m := m) (d := d) (by omega) hp
    exact h.framed.trans (h.inv.framed_kern (Finset.mem_union_right _ hmem) (h.apart.disjoint _ hmem)
      Finset.subset_union_left fun g hg => Mem.byte_setWord_of_ne hg)
  case apart =>
    constructor
    case notLive => exact h.apart.notLive
    case disjoint => rw [hpages]; exact h.apart.disjoint
    case table_ne => simp only [hdir]; exact h.apart.table_ne
    case table_ne_zero => simp only [hdir]; exact h.apart.table_ne_zero
    case table_inj => simp only [hdir]; exact h.apart.table_inj
    case empty =>
      intro v hv
      rw [hentry v (by omega), if_neg (by omega)]
      exact h.apart.empty v hv
  case below =>
    intro v hv
    rw [hentry v hv]
    split_ifs with hva
    · omega
    · intro hpv
      have := h.below v hv hpv
      omega
  case kernelRo =>
    intro v hv
    rw [hentry v hv]
    split_ifs with hva
    · intro _ hw
      rw [writable_mkPte] at hw
      rw [pageOf_mkPte hpa hperm]
      exact hro.resolve_left hw
    · exact h.kernelRo v hv
  case root =>
    intro _
    rw [hdir]
    rcases hroot with hlt | hb
    · rwa [Nat.div_eq_of_lt hlt] at hp
    · exact h.root hb
  case tables => simp only [hdir]; exact h.tables
  case fails => exact h.fails
  case length => rw [hpages]; exact h.length
  case free => exact h.free
  case taken => rw [hpages]; exact h.taken

/-- A new table is hung into the directory. -/
theorem attach {m₁ : Mem} {r j : ℕ} (h : Building L N m₀ m D K d b) (hbyte : m₁.byte = m.byte)
    (hfails : m₁.fails = m.fails) (hlist : m.freelist = r :: m₁.freelist)
    (h₁ : Inv L N m₁ D (insert r (K ∪ dirPages m d))) (hnone : ∀ s, holds m D (K ∪ dirPages m d) s ≠ some r)
    (hj : j < 1024) (hjk : j ∈ kernTables) (habs : ¬ present (m.word d j)) :
    Building L N m₀ ((m₁.fill r 0).setWord d j (addr r ||| (pteP ||| pteW ||| pteU))) D K d b ∧
      present (((m₁.fill r 0).setWord d j (addr r ||| (pteP ||| pteW ||| pteU))).word d j) ∧
      pageOf (((m₁.fill r 0).setWord d j (addr r ||| (pteP ||| pteW ||| pteU))).word d j) = r ∧
      (∀ k, k ≠ j → ((m₁.fill r 0).setWord d j (addr r ||| (pteP ||| pteW ||| pteU))).word d k = m.word d k) ∧
      ∀ v < 2 ^ 20, entry ((m₁.fill r 0).setWord d j (addr r ||| (pteP ||| pteW ||| pteU))) d v = entry m d v := by
  have hr := Inv.notMem_of_none hnone
  have hself : d ∈ dirPages m d := Finset.mem_insert_self _ _
  have hrp : r ∉ dirPages m d := fun h' => hr (Finset.mem_union_right _ h')
  have hrd : r ≠ d := fun heq => hrp (by rwa [heq])
  have hrlt := lt_of_managed (h₁.managed_of_holds (Inv.holds_kern_self (Finset.mem_insert_self _ _)))
  have hflags : userOk (addr r ||| (pteP ||| pteW ||| pteU)) ∧ writable (addr r ||| (pteP ||| pteW ||| pteU)) :=
    ⟨userOk_addr_or.mpr (by decide), writable_addr_or.mpr (by decide)⟩
  have hung := Hung.of_fill (j := j) hbyte hrd (present_addr_or.mpr (by decide)) (pageOf_table hrlt)
  generalize addr r ||| (pteP ||| pteW ||| pteU) = w at hflags hung
  have hpages := hung.dirPages hj habs
  have hentry := hung.entry h.apart hrp habs
  have hfree : r ∈ m.freelist := by rw [hlist]; exact List.mem_cons_self
  obtain ⟨h₂, -⟩ := h₁.fresh (m₁.fill r 0) hbyte (fun g hg => Mem.byte_fill_of_ne hg) rfl rfl rfl
  have hself' : d ∈ insert r (K ∪ dirPages m d) := Finset.mem_insert_of_mem (Finset.mem_union_right _ hself)
  obtain ⟨h₃, -⟩ := h₂.scribble ((m₁.fill r 0).setWord d j w) hself' (fun g hg => Mem.byte_setWord_of_ne hg)
    rfl rfl rfl
  refine ⟨?_, by rw [hung.dir_self]; exact hung.present, by rw [hung.dir_self]; exact hung.page,
    fun k hk => hung.dir_of_ne hk, hentry⟩
  constructor
  case inv => rwa [hpages, Finset.union_insert]
  case framed =>
    refine h.framed.trans (((h.inv.framed_free hfree fun g hg => ?_).mono subset_rfl Finset.subset_union_left).trans
      (h₂.framed_kern hself' (h.apart.disjoint d hself) ?_ fun g hg => Mem.byte_setWord_of_ne hg))
    · rw [Mem.byte_fill_of_ne hg, hbyte]
    · exact Finset.subset_union_left.trans (Finset.subset_insert _ _)
  case apart =>
    exact hung.apart h.apart hj habs hrp hrd (fun hK => hr (Finset.mem_union_left _ hK))
      (h₁.ne_zero_of_kern (Finset.mem_insert_self _ _))
  case below => exact fun v hv => by rw [hentry v hv]; exact h.below v hv
  case kernelRo => exact fun v hv => by rw [hentry v hv]; exact h.kernelRo v hv
  case root =>
    intro hb
    rw [hung.dir]
    split_ifs
    · exact hung.present
    · exact h.root hb
  case tables =>
    intro k hk hp
    rw [hung.dir] at hp ⊢
    split_ifs at hp ⊢ with hkj
    · exact ⟨hkj ▸ hjk, hflags⟩
    · exact h.tables k hk hp
  case fails => exact hfails.trans h.fails
  case length =>
    rw [hpages, Finset.card_insert_of_notMem hrp, h.length, hlist, List.length_cons]
    show _ = m₁.freelist.length + _
    omega
  case free => exact fun f hf => h.free f (by rw [hlist]; exact List.mem_cons_of_mem _ hf)
  case taken =>
    intro f hf
    rw [hpages] at hf
    rcases Finset.mem_insert.mp hf with rfl | hf
    · exact h.free f hfree
    · exact h.taken f hf

end Building

/-- A call ran out of memory. What it took before stays with the kernel. -/
def Failed (L : Layout) (N : Prop) (m m' : Mem) (D K : Finset ℕ) : Prop :=
  m.fails < m'.fails ∧ m.freelist.length ≤ 1025 ∧ m'.freelist = [] ∧ Kept m m' D ∧
    ∃ K', K ⊆ K' ∧ Inv L N m' D K'

/-- **A directory could not be made**: the pages it took so far are the kernel's, and nobody gives them back. -/
structure Unmade (L : Layout) (N : Prop) (m m' : Mem) (D K : Finset ℕ) : Prop where
  failed : Failed L N m m' D K
  inv : Inv L N m' D (K ∪ m.freelist.toFinset)
  framed : Framed L m m' D K
  few : m.freelist.length ≤ 12
  empty : m.freelist = [] → m' = { m with fails := m.fails + 1 }

theorem pdx_page {a : ℕ} (ha : a < 2 ^ 20) : pdx (a * 4096) = a / 1024 := by
  unfold pdx
  omega

theorem ptx_page {a : ℕ} : ptx (a * 4096) = a % 1024 := by
  unfold ptx
  omega

/-- The pages that `kmap` has. -/
def InKmap (v : ℕ) : Prop := 160 ≤ v ∧ v < 4096 ∨ 0xFE000 ≤ v

/-- An entry of the kernel part: the process has no access, and the page is the one of the same number. -/
def OfKernel (v : ℕ) (w : Word) : Prop := ¬ userOk w ∧ pageOf w = v

/-- A directory under construction has the tables of the pages of `kmap` below `b`, and no page that the
process can access. -/
structure Laid (L : Layout) (N : Prop) (m₀ m : Mem) (D K : Finset ℕ) (d b : ℕ) : Prop
    extends Building L N m₀ m D K d b where
  laid : ∀ v < b, InKmap v → present (m.word d (v / 1024))
  supervisor : ∀ v < 2 ^ 20, present (entry m d v) → OfKernel v (entry m d v)

namespace Laid

variable {m₀ : Mem} {a b : ℕ} {perm : Word}

/-- All tables of the kernel part are there in the end. -/
theorem card (h : Laid L N m₀ m D K d (2 ^ 20)) : (dirPages m d).card = 13 := by
  have hiff : ∀ j < 1024, present (m.word d j) ↔ j ∈ kernTables := by
    refine fun j hj => ⟨fun hp => (h.tables j hj hp).1, fun hk => ?_⟩
    have hlaid := h.laid (j * 1024 + 1023) (by omega) (by
      simp only [kernTables, Finset.mem_union, Finset.mem_Ico] at hk
      unfold InKmap
      omega)
    rwa [show (j * 1024 + 1023) / 1024 = j by omega] at hlaid
  have htabs : tablePages m d = kernTables.image fun j => pageOf (m.word d j) := by
    ext f
    simp only [mem_tablePages, Finset.mem_image]
    constructor
    · rintro ⟨j, hj, hp, rfl⟩
      exact ⟨j, (hiff j hj).mp hp, rfl⟩
    · rintro ⟨j, hk, rfl⟩
      have hj : j < 1024 := by
        simp only [kernTables, Finset.mem_union, Finset.mem_Ico] at hk
        omega
      exact ⟨j, hj, (hiff j hj).mpr hk, rfl⟩
  have hlt : ∀ j ∈ kernTables, j < 1024 := by
    intro j hk
    simp only [kernTables, Finset.mem_union, Finset.mem_Ico] at hk
    omega
  have hinj : Set.InjOn (fun j => pageOf (m.word d j)) kernTables := by
    intro i hi j hj heq
    exact h.apart.table_inj i (hlt i hi) j (hlt j hj) ((hiff i (hlt i hi)).mpr hi) ((hiff j (hlt j hj)).mpr hj) heq
  have hnotMem : d ∉ tablePages m d := by
    rw [mem_tablePages]
    rintro ⟨j, hj, hp, heq⟩
    exact h.apart.table_ne j hj hp heq
  rw [dirPages, Finset.card_insert_of_notMem hnotMem, htabs, Finset.card_image_of_injOn hinj, card_kernTables]

/-- One page of the kernel part is mapped; only a missing table can fail. -/
theorem mapPage_spec (h : Laid L N m₀ m D K d b) (hab : b ≤ a) (hgap : ∀ v, b ≤ v → v < a → ¬ InKmap v)
    (hlo : 160 ≤ a) (ha : a < 2 ^ 20) (hroot : a < 1024 ∨ 160 < b) (htab : a < 4096 ∨ 0xFE000 ≤ a)
    (hperm : IsFlags perm) (hu : ¬ userOk perm) (hro : writable perm ∨ a ∉ managed L ∧ a ≠ 0) :
    Wp (mapPage d a a perm) (fun r m' => r = true ∧ Laid L N m₀ m' D K d (a + 1) ∨
      r = false ∧ Unmade L N m₀ m' D K) (fun _ _ => False) m := by
  have hput : ∀ {m₁}, Laid L N m₀ m₁ D K d b → present (m₁.word d (a / 1024)) →
      Wp (do
        let w ← readPte (pageOf (m₁.word d (a / 1024)), a % 1024)
        if present w then throw .remap
        else
          writePte (pageOf (m₁.word d (a / 1024)), a % 1024) (mkPte a perm)
          return true) (fun r m' => r = true ∧ Laid L N m₀ m' D K d (a + 1) ∨
            r = false ∧ Unmade L N m₀ m' D K) (fun _ _ => False) m₁ := by
    intro m₁ h₁ hp
    simp only [wp_bind, wp_readPte, wp_ite, wp_throw, wp_writePte, wp_pure]
    refine ⟨fun hpe => ?_, fun _ => .inl ⟨trivial, h₁.toBuilding.write hab hlo ha hroot hp ha hperm hro,
      fun v hv hk => ?_, fun v hv => ?_⟩⟩
    rotate_left
    · rw [Mem.word_setWord_of_ne fun h' => h₁.apart.table_ne _ (by omega) hp h'.1.symm]
      rcases Nat.lt_trichotomy v a with hlt | rfl | hgt
      · exact h₁.laid v (not_le.mp fun hle => hgap v hle hlt hk) hk
      · exact hp
      · omega
    · rw [h₁.apart.entry_setWord ha hp hv]
      split_ifs with heq
      · exact fun _ => ⟨mt userOk_mkPte.mp hu, (pageOf_mkPte ha hperm).trans heq.symm⟩
      · exact h₁.supervisor v hv
    have hentry : entry m₁ d a = m₁.word (pageOf (m₁.word d (a / 1024))) (a % 1024) := if_pos hp
    have := h₁.below a ha (hentry ▸ hpe)
    omega
  unfold mapPage
  refine wp_bind.mpr ?_
  unfold walkpgdir
  rw [pdx_page ha, ptx_page]
  refine wp_bind.mpr (wp_readPte.mpr (wp_ite.mpr ⟨fun hp => wp_pure.mpr (hput h hp), fun habs => ?_⟩))
  rw [if_neg (by simp)]
  refine (h.inv.kalloc_spec.mono (fun _ _ hr => hr) fun _ _ => False.elim).bind ?_
  rintro r m₁ ⟨hbyte, ⟨rfl, hnil, rfl, h₁⟩ | ⟨hr, hf, hlist, h₁, hnone, -⟩⟩
  · rw [if_pos rfl]
    refine wp_pure.mpr (wp_pure.mpr (.inr ⟨rfl, ⟨Nat.lt_succ_of_le h.fails.ge, ?_, hnil,
      h.framed.kept.trans (kept_of_eq hbyte), _, Finset.subset_union_left, h₁⟩, ?_,
      h.framed.trans (.of_eq hbyte), ?_, fun hnil₀ => ?_⟩))
    · rw [h.length, hnil, List.length_nil, zero_add]
      exact card_dirPages_le
    · have hall : dirPages m d = m₀.freelist.toFinset := by
        refine Finset.eq_of_subset_of_card_le (fun f hf => List.mem_toFinset.mpr (h.taken f hf)) ?_
        refine (List.toFinset_card_le _).trans ?_
        rw [h.length, hnil, List.length_nil, zero_add]
      rwa [← hall]
    · -- the table that is missing is one of the twelve
      have hcard := card_dirPages (m := m) (d := d) (T := kernTables.erase (a / 1024)) fun j hj hp =>
        Finset.mem_erase.mpr ⟨fun heq => habs (heq ▸ hp), (h.tables j hj hp).1⟩
      rw [Finset.card_erase_of_mem (mem_kernTables ha htab), card_kernTables] at hcard
      rw [h.length, hnil, List.length_nil]
      omega
    · have hpos : 0 < (dirPages m d).card := Finset.card_pos.mpr ⟨d, Finset.mem_insert_self _ _⟩
      have hlen := h.length
      rw [hnil₀, List.length_nil] at hlen
      omega
  · rw [if_neg hr]
    obtain ⟨h₂, hp₂, hpage, hold, hent⟩ :=
      h.toBuilding.attach hbyte hf hlist h₁ hnone (by omega) (mem_kernTables ha htab) habs
    have hwp := hput ⟨h₂, fun v hv hk => by
      have hp := h.laid v hv hk
      rwa [hold _ fun heq => habs (heq ▸ hp)], fun v hv => by
        rw [hent v hv]
        exact h.supervisor v hv⟩ hp₂
    rw [hpage] at hwp
    exact wp_bind.mpr (wp_memset.mpr (wp_bind.mpr (wp_writePte.mpr (wp_pure.mpr hwp))))

/-- The rounds of `mappages` on the kernel part. -/
theorem mappagesLoop_spec {n : ℕ} (h : Laid L N m₀ m D K d b) (hab : b ≤ a)
    (hgap : ∀ v, b ≤ v → v < a → ¬ InKmap v) (hlo : 160 ≤ a) (ha : a + n < 2 ^ 20) (hroot : a < 1024 ∨ 160 < b)
    (htab : a + n < 4096 ∨ 0xFE000 ≤ a) (hperm : IsFlags perm) (hu : ¬ userOk perm)
    (hro : writable perm ∨ ∀ f, a ≤ f → f ≤ a + n → f ∉ managed L ∧ f ≠ 0) :
    Wp (mappagesLoop d perm n a a) (fun r m' => r = true ∧ Laid L N m₀ m' D K d (a + n + 1) ∨
      r = false ∧ Unmade L N m₀ m' D K) (fun _ _ => False) m := by
  induction n generalizing a b m with
  | zero =>
    exact h.mapPage_spec hab hgap hlo (by omega) hroot (by omega) hperm hu
      (hro.imp_right fun h' => h' a le_rfl le_rfl)
  | succ n ih =>
    rw [mappagesLoop]
    refine (h.mapPage_spec hab hgap hlo (by omega) hroot (by omega) hperm hu
      (hro.imp_right fun h' => h' a le_rfl (by omega))).bind ?_
    rintro r m₁ (⟨rfl, h₁⟩ | ⟨rfl, hf⟩)
    · rw [if_pos rfl, show a + (n + 1) + 1 = a + 1 + n + 1 by omega]
      exact ih h₁ le_rfl (fun v _ _ => by omega) (by omega) (by omega) (by omega) (by omega)
        (hro.imp_right fun h' f h1 h2 => h' f (by omega) (by omega))
    · rw [if_neg (by simp)]
      exact wp_pure.mpr (.inr ⟨rfl, hf⟩)

/-- **One range of `kmap`**, from page `a` to before page `e`. -/
theorem mappages_spec {e p size : ℕ} (h : Laid L N m₀ m D K d b) (hp : p = a * 4096)
    (hsize : size = (e - a) * 4096) (hab : b ≤ a) (hgap : ∀ v, b ≤ v → v < a → ¬ InKmap v) (hlo : 160 ≤ a)
    (hae : a < e) (he : e ≤ 2 ^ 20) (hroot : a < 1024 ∨ 160 < b) (htab : e ≤ 4096 ∨ 0xFE000 ≤ a)
    (hperm : IsFlags perm) (hu : ¬ userOk perm) (hro : writable perm ∨ ∀ f, a ≤ f → f < e → f ∉ managed L ∧ f ≠ 0) :
    Wp (mappages d p size (p / 4096) perm)
      (fun r m' => r = true ∧ Laid L N m₀ m' D K d e ∨ r = false ∧ Unmade L N m₀ m' D K)
      (fun _ _ => False) m := by
  have ha : p / 4096 = a := by omega
  have hcount : ((p + (e - a) * 4096 + (2 ^ 32 - 1)) % 2 ^ 32 / 4096 + (2 ^ 20 - p / 4096)) % 2 ^ 20 = e - a - 1 := by
    omega
  unfold mappages
  rw [hsize]
  simp only [hcount]
  rw [ha]
  have hro' : writable perm ∨ ∀ f, a ≤ f → f ≤ a + (e - a - 1) → f ∉ managed L ∧ f ≠ 0 :=
    hro.imp_right fun h' f h1 h2 => h' f h1 (by omega)
  have hwp := h.mappagesLoop_spec (n := e - a - 1) hab hgap hlo (by omega) hroot (by omega) hperm hu hro'
  rwa [show a + (e - a - 1) + 1 = e by omega] at hwp

end Laid

/-- The kernel part of a directory: the four ranges of `kmap` are in ascending order. -/
theorem Laid.mapKernel_spec {m₀ : Mem} (h : Laid L N m₀ m D K d 160) :
    Wp (mapKernel d (kmap L)) (fun r m' => r = true ∧ Laid L N m₀ m' D K d (2 ^ 20) ∨
      r = false ∧ Unmade L N m₀ m' D K) (fun _ _ => False) m := by
  have hdata := L.text_lt_data
  have hkend := L.data_le_end
  have htop := L.end_lt_phystop
  have hnext : ∀ a v, a ≤ v → v < a → ¬ InKmap v := fun a v h1 h2 => by omega
  have hhole : ∀ v, 4096 ≤ v → v < 0xFE000 → ¬ InKmap v := by
    intro v h1 h2
    unfold InKmap
    omega
  rw [kmap, mapKernel]
  refine Wp.bind (h.mappages_spec (a := 160) (e := 256) rfl rfl le_rfl (hnext 160) le_rfl (by omega) (by omega)
    (.inl (by omega)) (.inl (by omega)) isFlags_pteW (by decide) (.inl (by decide))) ?_
  rintro r m₁ (⟨rfl, h₁⟩ | ⟨rfl, hf₁⟩)
  swap
  · exact wp_pure.mpr (.inr ⟨rfl, hf₁⟩)
  rw [if_pos rfl, mapKernel]
  refine Wp.bind (h₁.mappages_spec (a := 256) (e := L.data) rfl (by omega) le_rfl (hnext 256) (by omega) (by omega)
    (by omega) (.inl (by omega)) (.inl (by omega)) isFlags_zero (by decide)
    (.inr fun f hlo hlt => ⟨fun hman => ?_, by omega⟩)) ?_
  · have := hman.1
    omega
  rintro r m₂ (⟨rfl, h₂⟩ | ⟨rfl, hf₂⟩)
  swap
  · exact wp_pure.mpr (.inr ⟨rfl, hf₂⟩)
  rw [if_pos rfl, mapKernel]
  refine Wp.bind (h₂.mappages_spec (a := L.data) (e := 4096) rfl (by unfold phystop; omega) le_rfl (hnext L.data)
    (by omega) (by omega) (by omega) (.inr (by omega)) (.inl (by omega)) isFlags_pteW (by decide) (.inl (by decide))) ?_
  rintro r m₃ (⟨rfl, h₃⟩ | ⟨rfl, hf₃⟩)
  swap
  · exact wp_pure.mpr (.inr ⟨rfl, hf₃⟩)
  rw [if_pos rfl, mapKernel]
  refine Wp.bind (h₃.mappages_spec (a := 0xFE000) (e := 2 ^ 20) (by omega) (by omega) (by omega) hhole (by omega)
    (by omega) le_rfl (.inr (by omega)) (.inr (by omega)) isFlags_pteW (by decide) (.inl (by decide))) ?_
  rintro r m₄ (⟨rfl, h₄⟩ | ⟨rfl, hf₄⟩)
  · rw [if_pos rfl, mapKernel]
    exact wp_pure.mpr (.inl ⟨rfl, h₄⟩)
  · exact wp_pure.mpr (.inr ⟨rfl, hf₄⟩)

/-- What `setupkvm` and the calls that begin with it promise: a new live directory, or a failed `kalloc`. -/
structure NewDir (L : Layout) (N : Prop) (m m' : Mem) (D K : Finset ℕ) (r : ℕ) : Prop where
  inv : Inv L N m' (insert r D) K
  notLive : r ∉ D
  kept : Kept m m' D

theorem NewDir.ne_zero {r : ℕ} (h : NewDir L N m m' D K r) : r ≠ 0 :=
  ne_zero_of_managed (h.inv.managed_of_holds (Inv.holds_dir_self (Finset.mem_insert_self _ _)))

/-- The complete kernel part makes a live directory. -/
theorem Laid.newDir {m₀ : Mem} (h : Laid L N m₀ m D K d (2 ^ 20)) : NewDir L N m₀ m D K d := by
  have hroot := h.root (by omega)
  exact ⟨h.inv.adopt h.apart hroot (h.tables 0 (by omega) hroot).2 fun v hv _ => h.kernelRo v hv, h.apart.notLive,
    h.framed.kept⟩

namespace Inv

/-- The empty directory that `setupkvm` starts from. -/
theorem building {m₁ : Mem} (h : Inv L N m D K) (hbyte : m₁.byte = m.byte) (hfails : m₁.fails = m.fails)
    (hlist : m.freelist = d :: m₁.freelist) (h₁ : Inv L N m₁ D (insert d K))
    (hnone : ∀ s, holds m D K s ≠ some d) : Building L N m (m₁.fill d 0) D K d 160 := by
  have hword : ∀ j, (m₁.fill d 0).word d j = 0#32 := fun j => Mem.word_fill_zero
  have hdir : ∀ j, ¬ present ((m₁.fill d 0).word d j) := fun j => by
    rw [hword]
    exact not_present_zero
  have habs : ∀ v, ¬ present (entry (m₁.fill d 0) d v) := by
    intro v
    rw [entry, if_neg (hdir _)]
    exact not_present_zero
  have hpages : dirPages (m₁.fill d 0) d = {d} := by
    ext f
    simp only [dirPages, Finset.mem_insert, mem_tablePages, hdir, Finset.mem_singleton, false_and, and_false,
      exists_false, or_false]
  have hfree : d ∈ m.freelist := by rw [hlist]; exact List.mem_cons_self
  obtain ⟨h₂, -⟩ := h₁.fresh (m₁.fill d 0) hbyte (fun g hg => Mem.byte_fill_of_ne hg) rfl rfl rfl
  constructor
  case inv => rwa [hpages, Finset.union_comm]
  case framed => exact h.framed_free hfree fun g hg => by rw [Mem.byte_fill_of_ne hg, hbyte]
  case apart =>
    constructor
    case notLive => exact fun hd => hnone _ (holds_dir_self hd)
    case disjoint =>
      intro f hf
      rw [hpages, Finset.mem_singleton] at hf
      exact hf ▸ notMem_of_none hnone
    case table_ne => exact fun j _ hp => absurd hp (hdir j)
    case table_ne_zero => exact fun j _ hp => absurd hp (hdir j)
    case table_inj => exact fun i _ _ _ hp => absurd hp (hdir i)
    case empty => exact fun v _ => habs v
  case below => exact fun v _ hp => absurd hp (habs v)
  case kernelRo => exact fun v _ hp => absurd hp (habs v)
  case root => exact fun hlt => absurd hlt (by omega)
  case tables => exact fun j _ hp => absurd hp (hdir j)
  case fails => exact hfails
  case length =>
    rw [hpages, Finset.card_singleton, hlist, List.length_cons]
    rfl
  case free => exact fun f hf => by rw [hlist]; exact List.mem_cons_of_mem _ hf
  case taken =>
    intro f hf
    rw [hpages, Finset.mem_singleton] at hf
    rwa [hf]

/-- `setupkvm` makes a directory with the whole kernel part, or leaves a few pages lost. -/
theorem setupkvm_laid (h : Inv L N m D K) :
    Wp (setupkvm L) (fun r m' => Laid L N m m' D K r (2 ^ 20) ∨ r = 0 ∧ Unmade L N m m' D K)
      (fun _ _ => False) m := by
  unfold setupkvm
  refine (h.kalloc_spec.mono (fun _ _ hr => hr) fun _ _ => False.elim).bind ?_
  rintro d m₁ ⟨hbyte, ⟨rfl, hnil, rfl, h₁⟩ | ⟨hd, hf, hlist, h₁, hnone, -⟩⟩
  · rw [if_pos rfl]
    refine wp_pure.mpr (.inr ⟨rfl, ⟨Nat.lt_succ_self _, ?_, hnil, kept_of_eq hbyte, K, subset_rfl, h₁⟩, ?_,
      .of_eq hbyte, ?_, fun _ => rfl⟩)
    · rw [hnil, List.length_nil]
      omega
    · have hempty : m.freelist.toFinset = ∅ := by rw [hnil, List.toFinset_nil]
      rwa [hempty, Finset.union_empty]
    · rw [hnil, List.length_nil]
      omega
  rw [if_neg hd]
  refine wp_bind.mpr (wp_memset.mpr ?_)
  have hstart : Laid L N m (m₁.fill d 0) D K d 160 := by
    have hstart := h.building hbyte hf hlist h₁ hnone
    refine ⟨hstart, fun v hv hk => ?_, fun v hv hp => ?_⟩
    · unfold InKmap at hk
      omega
    · have := hstart.below v hv hp
      omega
  refine (hstart.mapKernel_spec.mono (fun _ _ hr => hr) fun _ _ => False.elim).bind ?_
  rintro r m₂ (⟨rfl, h₂⟩ | ⟨rfl, hf₂⟩)
  · exact wp_pure.mpr (.inl h₂)
  · exact wp_pure.mpr (.inr ⟨rfl, hf₂⟩)

/-- **`setupkvm`** makes a live directory without user pages, of thirteen pages, or leaves fewer lost. -/
theorem setupkvm_frame (h : Inv L N m D K) :
    Wp (setupkvm L) (fun r m' => NewDir L N m m' D K r ∧ (∀ v < 160, ¬ present (entry m' r v)) ∧
      Framed L m m' D K ∧ m'.fails = m.fails ∧ m.freelist.length = m'.freelist.length + 13 ∨
      r = 0 ∧ Unmade L N m m' D K) (fun _ _ => False) m := by
  refine h.setupkvm_laid.imp ?_
  rintro r m' (h' | hun)
  · refine .inl ⟨h'.newDir, h'.apart.empty, h'.framed, h'.fails, ?_⟩
    rw [h'.length, h'.card]
  · exact .inr hun

theorem setupkvm_spec (h : Inv L N m D K) :
    Wp (setupkvm L) (fun r m' => NewDir L N m m' D K r ∧ (∀ v < 160, image m' r v = none) ∧
      m'.fails = m.fails ∧ m.freelist.length ≤ m'.freelist.length + 1025 ∨
      r = 0 ∧ Failed L N m m' D K) (fun _ _ => False) m := by
  refine h.setupkvm_frame.imp ?_
  rintro r m' (⟨hnew, hempty, -, hf, hl⟩ | ⟨hr, hun⟩)
  · exact .inl ⟨hnew, fun v hv => image_eq_none.mpr (hempty v hv), hf, by omega⟩
  · exact .inr ⟨hr, hun.failed⟩

end Inv

end OperatingSystems.CowFork
