import OperatingSystems.CowFork.Eager

/-! # The kernel part of an address space

`setupkvm` maps the kernel without `PTE_U`, page by page at its own number, and nothing changes that in an entry
later (`scarce_supervised`). So no access of a process gets through above `USERTOP` (`Supervised.faults`). -/

namespace OperatingSystems.CowFork

open Lib.WeakestPre

variable {L : Layout} {N : Prop} {m m' : Mem} {D K : Finset ℕ} {d p e v lo hi va : ℕ} {w : Word}
  {x : Option (ℕ → BitVec 8)} {P : Word → Prop} {write : Bool}

/-- The entries above `USERTOP` are those of the kernel part. -/
def Supervised (m : Mem) (d : ℕ) : Prop := ∀ v < 2 ^ 20, 160 ≤ v → present (entry m d v) → OfKernel v (entry m d v)

namespace Supervised

theorem faults (h : Supervised m d) (hlo : usertop ≤ va) (hva : va < 2 ^ 32) : Faults m d va write := by
  rintro ⟨-, -, hp, hu, -⟩
  unfold usertop at hlo
  exact (h (va / 4096) (by omega) (by omega) hp).1 hu

theorem of_entries (h : Supervised m d) (hent : ∀ v < 2 ^ 20, 160 ≤ v → entry m' d v = entry m d v) : Supervised m' d := by
  intro v hv hlo
  rw [hent v hv hlo]
  exact h v hv hlo

theorem same (h : Supervised m e) (hs : SameTables m m' D) (he : e ∈ D) : Supervised m' e :=
  h.of_entries fun v hv _ => (hs e he).2 v hv

theorem put (h : Supervised m e) (ht : TablesPut m m' D d v w) (he : e ∈ D) (hv : v < 160) : Supervised m' e :=
  h.of_entries fun u hu hlo => ((ht e he).2 u hu).trans (if_neg (by omega))

/-- A kernel entry is made writable. -/
theorem putKernel (h : Supervised m e) (ht : TablesPut m m' D d v (entry m d v ||| pteW)) (he : e ∈ D) :
    Supervised m' e := by
  intro u hu hlo
  rw [(ht e he).2 u hu]
  split_ifs with heq
  · unfold OfKernel
    rw [present_or_pteW, userOk_or_pteW, pageOf_or_pteW, ← heq.1, ← heq.2]
    exact h u hu hlo
  · exact h u hu hlo

theorem filled (h : Supervised m e) (hf : Filled L N m m' D K d lo hi x P) (he : e ∈ D) (hhi : hi ≤ 160) :
    Supervised m' e := by
  rcases eq_or_ne e d with rfl | hne
  · refine h.of_entries fun v hv hlo => ?_
    have hent := hf.entries.2 v hv
    rwa [if_neg (by omega)] at hent
  · exact h.same hf.framed.same (Finset.mem_erase.mpr ⟨hne, he⟩)

end Supervised

namespace Inv

/-! ### cowuvm -/

theorem cowuvmLoop_supervised {n i : ℕ} (h : Inv L N m D K) (hp : p ∈ D) (hd : d ∈ D) (hpd : p ≠ d)
    (hi : i + n ≤ 160) (habs : ∀ v < 160, i ≤ v → image m d v = none) :
    Wp (cowuvmLoop L p d n i) (fun _ m' => ∀ e ∈ D, Supervised m e → Supervised m' e) (fun _ _ => True) m := by
  induction n generalizing i m with
  | zero => exact wp_pure.mpr fun _ _ hs => hs
  | succ n ih =>
    rw [cowuvmLoop]
    have hi' : i < 160 := by omega
    refine wp_bind.mpr (h.wp_walk hp hi' ?_)
    simp only [wp_bind, wp_readPte, wp_ite, wp_throw, wp_writePte, ← h.entry_user hp hi']
    refine ⟨fun hpres => ?_, fun _ => trivial⟩
    obtain ⟨h₁, hchild, h₂, hput⟩ :=
      h.shareRound hp hd hpd hi' hpres (image_eq_none.mp (habs i hi' le_rfl)) rfl rfl rfl
    have ht := h.tablesPut_user (w := readOnly (entry m p i)) (n := m) .refl hp hi'
    refine h₁.wp_mapUser hd hi' (fun hremap => absurd hremap hchild) fun _ => ?_
    rw [if_pos rfl]
    have ht' := h₁.tablesPut_user (w := mkPte (pageOf (readOnly (entry m p i))) (pteFlags (readOnly (entry m p i))))
      (n := m.setWord (pageOf (m.word p 0)) i (readOnly (entry m p i))) .refl hd hi'
    refine wp_bind.mpr (wp_incRefCnt.mpr ?_)
    refine (ih h₂ (by omega) fun v hv hlo => ?_).imp fun _ m' hm' e he hs => ?_
    · rw [hput d hd v hv, if_neg (by omega)]
      exact habs v hv (by omega)
    · exact hm' e he ((hs.put ht he hi').put ht' he hi')

theorem cowuvm_supervised {sz : ℕ} (h : Inv L N m D K) (hp : p ∈ D) (hsz : sz ≤ usertop) :
    Wp (cowuvm L p sz) (fun r m' => (∀ e ∈ D, Supervised m e → Supervised m' e) ∧ (r ≠ 0 → Supervised m' r))
      (fun _ _ => True) m := by
  have htop := pgup_le hsz
  unfold cowuvm
  refine (h.setupkvm_laid.mono (fun _ _ hr => hr) fun _ _ => False.elim).bind ?_
  rintro d m₁ (hlaid | ⟨rfl, hun⟩)
  · have hnew := hlaid.newDir
    rw [if_neg hnew.ne_zero]
    have hpd : p ≠ d := fun heq => hnew.notLive (heq ▸ hp)
    have hd := Finset.mem_insert_self d D
    have hnone : ∀ v < 160, 0 ≤ v → image m₁ d v = none := fun v hv _ => image_eq_none.mpr (hlaid.apart.empty v hv)
    have hstart : Supervised m₁ d := fun v hv _ => hlaid.supervisor v hv
    refine ((hnew.inv.cowuvmLoop_spec (Finset.mem_insert_of_mem hp) hd hpd (n := pgup sz) (by omega) hnone).and
      (hnew.inv.cowuvmLoop_supervised (Finset.mem_insert_of_mem hp) hd hpd (n := pgup sz) (by omega) hnone)).mono ?_
        fun _ _ _ => trivial
    rintro r m' ⟨⟨rfl, -⟩, hsup⟩
    exact ⟨fun e he hs => hsup e (Finset.mem_insert_of_mem he) (hs.same hlaid.framed.same he), fun _ => hsup r hd hstart⟩
  · rw [if_pos rfl]
    exact wp_pure.mpr ⟨fun e he hs => hs.same hun.framed.same he, fun h0 => absurd rfl h0⟩

/-! ### The handler -/

theorem pgfltintr_supervised (h : Inv L N m D K) (hd : d ∈ D) (hva : va < 2 ^ 32) :
    Wp (pgfltintr d va) (fun _ m' => ∀ e ∈ D, Supervised m e → Supervised m' e) (fun _ _ => True) m := by
  unfold pgfltintr
  refine wp_bind.mpr (wp_walkpgdir_false (fun hpde => ?_) fun _ => wp_throw.mpr trivial)
  have hv : va / 4096 < 2 ^ 20 := by omega
  have hpdx : pdx va = va / 4096 / 1024 := by
    unfold pdx
    omega
  simp only [wp_bind, wp_readPte, wp_ite, wp_pure, wp_getRefCnt, wp_writePte, ← entry_va hva hpde,
    writable_pteFlags, present_pteFlags]
  rw [hpdx] at hpde ⊢
  rw [show ptx va = va / 4096 % 1024 from rfl]
  generalize va / 4096 = v at hv hpde
  refine ⟨fun hr => ⟨fun hlt => ?_, fun _ => ?_⟩, fun _ _ _ hs => hs⟩
  · have hlo : v < 160 := by
      by_contra hge
      obtain ⟨hman, hne⟩ := h.kernelRo d hd v hv (by omega) hr.2 hr.1
      have := h.outside _ hman hne
      omega
    refine h.kalloc_spec.mono ?_ fun _ _ => False.elim
    rintro r m₁ ⟨hbyte, hcase⟩
    have hsame : SameTables m m₁ D := sameTables_of_eq hbyte
    have h₁ : ∃ K', Inv L N m₁ D K' := by
      obtain ⟨-, -, -, h₁⟩ | ⟨-, -, -, h₁, -⟩ := hcase
      · exact ⟨K, h₁⟩
      · exact ⟨insert r K, h₁⟩
    obtain ⟨K', h₁⟩ := h₁
    refine wp_bind.mpr (h₁.wp_memmove_behind hd (fun f g hf _ => ?_) fun _ _ => trivial)
    have hoff : OffTables m₁ D f := by
      obtain ⟨hr0, rfl⟩ | ⟨-, hz, rfl⟩ := hf
      · obtain ⟨hr0', -⟩ | ⟨-, -, -, h₂, -⟩ := hcase
        · exact absurd hr0' hr0
        · exact h₂.offTables_kern (Finset.mem_insert_self _ _)
      · exact h₁.offTables_entry hd (by omega) hz
    have hcopy : SameTables m (m₁.copy f g) D :=
      hsame.trans (sameTables_of_byte hoff fun k hk => Mem.byte_copy_of_ne hk)
    rw [wp_bind, wp_decRefCnt, wp_writePte]
    intro e he hs
    exact hs.put (h.tablesPut (n := (m₁.copy f g).unref (pageOf (entry m d v))) hcopy hd hv hpde) he hlo
  · exact fun e he hs => hs.putKernel (h.tablesPut .refl hd hv hpde) he

/-! ### The first process -/

theorem inituvm_supervised {init : List (BitVec 8)} (h : Inv L False m D K) (hd : d ∈ D) :
    Wp (inituvm d init) (fun _ m' => ∀ e ∈ D, Supervised m e → Supervised m' e) (fun _ _ => True) m := by
  unfold inituvm
  rw [wp_ite]
  refine ⟨fun _ => wp_throw.mpr trivial, fun _ => (h.kalloc_spec.mono (fun _ _ hr => hr) fun _ _ => False.elim).bind ?_⟩
  rintro r m₁ ⟨hbyte, hcase⟩
  obtain ⟨K', h₂, hoff⟩ : ∃ K', Inv L False (m₁.fill r 0) D K' ∧ OffTables m D r := by
    obtain ⟨rfl, -, -, h₁⟩ | ⟨-, -, hlist, h₁, -⟩ := hcase
    · exact ⟨K, h₁.fillNull.2, h.offTables_null⟩
    · obtain ⟨h₂, -⟩ := h₁.fresh (m₁.fill r 0) hbyte (fun g hg => Mem.byte_fill_of_ne hg) rfl rfl rfl
      exact ⟨insert r K, h₂, h.offTables_free (by rw [hlist]; exact List.mem_cons_self)⟩
  have hfill : SameTables m (m₁.fill r 0) D := sameTables_of_byte hoff fun g hg => by rw [Mem.byte_fill_of_ne hg, hbyte]
  refine wp_bind.mpr (wp_memset.mpr (wp_bind.mpr (h₂.wp_mapUser (v := 0) hd (by omega) (fun _ => trivial) fun _ => ?_)))
  have ht := h₂.tablesPut_user (w := mkPte r (pteW ||| pteU)) (n := m₁.fill r 0) .refl hd (by omega : 0 < 160)
  refine writeBytes_spec.mono ?_ fun _ _ => False.elim
  rintro _ m' ⟨hb, -⟩ e he hs
  have hoff' := (hoff.of_dirs fun e he j hj => (hfill e he).1 j hj).of_dirs fun e he j hj => (ht e he).1 j hj
  exact ((hs.same hfill he).put ht he (by omega)).same (sameTables_of_byte hoff' hb) he

end Inv

/-! ### Whole runs -/

/-- A call keeps the kernel part of every directory that stays, and a new one has it. -/
theorem Call.settle_supervised {s : Pool} (h : Inv L True s.mem s.live s.kern) (hs : ∀ e ∈ s.live, Supervised s.mem e)
    (c : Call) (hc : c.Ok s) :
    Wp (c.run L) (fun r m' => ∀ e ∈ (c.settle s r m').live, Supervised (c.settle s r m').mem e) (fun _ _ => True)
      s.mem := by
  have hsame : ∀ {m'}, SameTables s.mem m' s.live → ∀ e ∈ s.live, Supervised m' e := fun hm e he => (hs e he).same hm he
  rcases c with _ | f | _ | ⟨d, oldsz, newsz⟩ | ⟨d, oldsz, newsz⟩ | ⟨d, sz⟩ | ⟨d, va⟩ | d
  · refine h.kalloc_spec.mono ?_ fun _ _ => False.elim
    rintro r m' ⟨hbyte, -⟩
    exact hsame (sameTables_of_eq hbyte)
  · refine Wp.bind ((h.kfree_spec hc).mono (fun _ _ hr => hr) fun _ _ => False.elim) ?_
    rintro _ m' ⟨-, -, -, -, hbyte⟩
    exact wp_pure.mpr (hsame (sameTables_of_byte (h.offTables_kern hc) hbyte))
  · refine h.setupkvm_laid.mono ?_ fun _ _ => False.elim
    rintro r m' (hlaid | ⟨rfl, hun⟩)
    · have hne := hlaid.newDir.ne_zero
      simp only [Call.settle, if_neg hne]
      intro e he
      obtain rfl | he := Finset.mem_insert.mp he
      · exact fun v hv _ => hlaid.supervisor v hv
      · exact hsame hlaid.framed.same e he
    · exact hsame hun.framed.same
  · refine (h.allocuvm_frame hc).mono ?_ fun _ _ _ => trivial
    rintro r m' ⟨-, ⟨-, rfl, -⟩ | ⟨-, -, hle, -, hf⟩ | ⟨-, -, -, -, hle, hf⟩⟩
    · exact hs
    · exact fun e he => (hs e he).filled hf he (pgup_le hle)
    · exact fun e he => (hs e he).filled hf he (pgup_le hle)
  · refine (h.deallocuvm_frame newsz hc.1 hc.2).mono ?_ fun _ _ _ => trivial
    rintro r m' ⟨-, hf, -⟩
    exact fun e he => (hs e he).filled hf he (pgup_le hc.2)
  · refine (h.cowuvm_supervised hc.1 hc.2).mono ?_ fun _ _ _ => trivial
    rintro r m' ⟨hkeeps, hnew⟩
    by_cases hr : r = 0
    · simp only [Call.settle, if_pos hr]
      exact fun e he => hkeeps e he (hs e he)
    · simp only [Call.settle, if_neg hr]
      intro e he
      obtain rfl | he := Finset.mem_insert.mp he
      · exact hnew hr
      · exact hkeeps e he (hs e he)
  · refine Wp.bind ((h.pgfltintr_supervised hc.1 hc.2).mono (fun _ _ hr => hr) fun _ _ _ => trivial) ?_
    rintro _ m' hkeeps
    exact wp_pure.mpr fun e he => hkeeps e he (hs e he)
  · refine Wp.bind ((h.freevm_frame hc).mono (fun _ _ hr => hr) fun _ _ _ => trivial) ?_
    rintro _ m' ⟨-, hframe, -⟩
    exact wp_pure.mpr fun e he => (hs e (Finset.mem_of_mem_erase he)).same hframe.same he

/-- **The run lemma**: every directory has the kernel part, at any amount of free memory. -/
theorem scarce_supervised {s : Pool} (h : (scarce L).Reachable s) : ∀ e ∈ s.live, Supervised s.mem e := by
  refine h.invariant (I := fun s => ∀ e ∈ s.live, Supervised s.mem e) ?_ ?_
  · rintro s ⟨m₀, m, -, -, rfl⟩ e he
    exact absurd he (Finset.notMem_empty e)
  · rintro s ev t hr hs hstep
    have hinv := scarce_inv hr
    rcases ev with c | ⟨d, v, o, b⟩ | ⟨f, o, b⟩
    · obtain ⟨r, m', hok, hrun, rfl⟩ := hstep
      exact (c.settle_supervised hinv hs hok).of_ok hrun
    · obtain ⟨⟨hd, hv, hp⟩, rfl⟩ := hstep
      exact fun e he => (hs e he).same (sameTables_of_byte (hinv.offTables_entry hd hv hp) fun _ hg =>
        Mem.byte_setByte_of_ne hg) he
    · obtain ⟨hf, rfl⟩ := hstep
      exact fun e he => (hs e he).same (sameTables_of_byte (hinv.offTables_kern hf) fun _ hg =>
        Mem.byte_setByte_of_ne hg) he

end OperatingSystems.CowFork

namespace OperatingSystems.CowFork.Processes

open Lib.WeakestPre ProcTable

variable {L : Layout} {s : State} {p : Fin nproc} {m : Mem} {initcode : List (BitVec 8)}

theorem userinit_supervised (h : Inv L False m ∅ ∅) :
    Wp (userinit L initcode) (fun _ s => ∀ p, (s.proc p).state ≠ .unused → Supervised s.mem (s.proc p).pgdir)
      (fun _ _ => True) (atBoot m) := by
  have hnonzero : ∀ f ∈ (atBoot m).mem.freelist, f ≠ 0 := fun f hf =>
    ne_zero_of_managed ((h.counted.mem_free f).mp hf).1
  unfold userinit
  refine ((allocproc_spec hnonzero).mono (fun _ _ ht => ht) fun _ _ => False.elim).bind ?_
  rintro r t hall
  cases hall with
  | full hfull => exact absurd rfl (hfull initproc)
  | noStack => exact wp_throw.mpr trivial
  | @entry np f next hnp hlist hf =>
    obtain ⟨h₁, -⟩ := h.take hlist
    simp only [wp_bind, wp_paging]
    refine h₁.setupkvm_laid.mono ?_ fun _ _ _ => trivial
    rintro d m₁ (hlaid | ⟨rfl, -⟩)
    · have hnew := hlaid.newDir
      simp only [modifyProc, idup, wp_modify, wp_ite, wp_throw, wp_bind, wp_paging, Function.update_self,
        Function.update_idem]
      refine ⟨fun _ => trivial, fun _ => ?_⟩
      refine (hnew.inv.inituvm_supervised (Finset.mem_insert_self _ _)).mono ?_ fun _ _ _ => trivial
      intro _ m₂ hsup
      have hd : Supervised m₂ d := hsup d (Finset.mem_insert_self _ _) fun v hv _ => hlaid.supervisor v hv
      intro p hp
      by_cases hpn : p = np
      · subst hpn
        rwa [Function.update_self]
      · rw [Function.update_of_ne hpn] at hp
        exact absurd rfl hp
    · simp only [modifyProc, wp_modify, wp_ite, wp_throw, wp_bind, wp_paging]
      exact ⟨fun _ => trivial, fun h0 => absurd trivial h0⟩

theorem Booted.supervised (h : Booted L s) (hp : (s.proc p).state ≠ .unused) : Supervised s.mem (s.proc p).pgdir := by
  obtain ⟨m₀, m, initcode, hblank, hkinit, huser, -⟩ := h
  have hinv : Inv L False m ∅ ∅ := ((kinit_spec hblank).of_ok hkinit).1
  exact (userinit_supervised hinv).of_ok huser p hp

end OperatingSystems.CowFork.Processes
