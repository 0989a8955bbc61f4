import OperatingSystems.CowFork.Trap

/-! # Runs that run out of memory

`pool` leaves out the calls of `setupkvm` and of the handler that lack memory. Here nothing is left out, and
processes and the kernel write their pages in between. The pages that a failed `setupkvm` took count as the
kernel's from then on.

* `scarce_inv`: the ledger is kept, with user entries that have page 0.
* `allocuvm_all_or_nothing`: what `allocuvm` does at any amount of free memory.
* `fault_out_of_memory`: what the handler does without a free page. -/

namespace OperatingSystems.CowFork

open Lib.WeakestPre Lib.Transition

variable {L : Layout} {N : Prop} {m m' : Mem} {D K : Finset ℕ} {s : Pool} {d v : ℕ}

/-! ### The system -/

/-- Calls of the kernel, and writes to pages in use. -/
inductive Event where
  | call (c : Call)
  /-- a byte of a user page is written, by the process or by the kernel for it -/
  | store (d v o : ℕ) (b : BitVec 8)
  /-- the kernel writes a byte of a page of its own -/
  | scribble (f o : ℕ) (b : BitVec 8)

/-- Who has what after a call that returned `r`, with or without memory. -/
def Call.settle (s : Pool) (r : ℕ) (m' : Mem) : Call → Pool
  | setupkvm =>
    if r = 0 then ⟨m', s.live, s.kern ∪ (s.mem.freelist.toFinset \ m'.freelist.toFinset)⟩
    else ⟨m', insert r s.live, s.kern⟩
  | cowuvm _ _ =>
    if r = 0 then ⟨m', s.live, s.kern ∪ (s.mem.freelist.toFinset \ m'.freelist.toFinset)⟩
    else ⟨m', insert r s.live, s.kern⟩
  | c => c.after s r m'

def Event.Step (L : Layout) (s s' : Pool) : Event → Prop
  | call c => ∃ r m', c.Ok s ∧ c.run L s.mem = .ok r m' ∧ s' = c.settle s r m'
  | store d v o b => (d ∈ s.live ∧ v < 160 ∧ present (entry s.mem d v)) ∧
      s' = { s with mem := s.mem.setByte (pageOf (entry s.mem d v)) o b }
  | scribble f o b => f ∈ s.kern ∧ s' = { s with mem := s.mem.setByte f o b }

/-- The runs of the allocator and the paging code, at any amount of free memory. -/
def scarce (L : Layout) : System Pool Event where
  init := (pool L).init
  step s e s' := e.Step L s s'

/-- A page that is not a table is written; the ledger does not see it. -/
theorem Inv.setByte {f o : ℕ} {b : BitVec 8} (h : Inv L N m D K) (hf : OffTables m D f) :
    Inv L N (m.setByte f o b) D K :=
  h.of_same (sameTables_of_byte hf fun _ hg => Mem.byte_setByte_of_ne hg) h.counted h.outside h.freePages h.exclusive

theorem Unmade.settle {s : Pool} (h : Unmade L N s.mem m' s.live s.kern) :
    Inv L N m' s.live (s.kern ∪ (s.mem.freelist.toFinset \ m'.freelist.toFinset)) := by
  rw [h.failed.2.2.1, List.toFinset_nil, Finset.sdiff_empty]
  exact h.inv

/-- **The step lemma** for calls, out of memory or not. -/
theorem Call.settle_spec (h : Inv L True s.mem s.live s.kern) (c : Call) (hc : c.Ok s) :
    Wp (c.run L) (fun r m' => Inv L True (c.settle s r m').mem (c.settle s r m').live (c.settle s r m').kern)
      (fun _ _ => True) s.mem := by
  have hnew : ∀ {r m'}, NewDir L True s.mem m' s.live s.kern r ∨ r = 0 ∧ Unmade L True s.mem m' s.live s.kern →
      Inv L True (Call.setupkvm.settle s r m').mem (Call.setupkvm.settle s r m').live
        (Call.setupkvm.settle s r m').kern := by
    rintro r m' (hnew | ⟨rfl, hun⟩)
    · rw [settle, if_neg hnew.ne_zero]
      exact hnew.inv
    · rw [settle, if_pos rfl]
      exact hun.settle
  rcases c with _ | f | _ | ⟨d, oldsz, newsz⟩ | ⟨d, oldsz, newsz⟩ | ⟨d, sz⟩ | ⟨d, va⟩ | d
  · refine h.kalloc_spec.mono ?_ fun _ _ => False.elim
    rintro r m' ⟨-, ⟨rfl, -, -, h'⟩ | ⟨hr, -, -, h', -⟩⟩
    · exact h'
    · show Inv L True m' s.live (if r = 0 then s.kern else insert r s.kern)
      rwa [if_neg hr]
  · refine Wp.bind ((h.kfree_spec hc).mono (fun _ _ hr => hr) fun _ _ => False.elim) ?_
    rintro _ m' ⟨h', -⟩
    exact wp_pure.mpr h'
  · refine h.setupkvm_frame.mono ?_ fun _ _ => False.elim
    rintro r m' (⟨hdir, -⟩ | hun)
    · exact hnew (.inl hdir)
    · exact hnew (.inr hun)
  · exact (h.allocuvm_spec hc).mono (fun r m' h' => h'.1) fun _ _ _ => trivial
  · exact (h.deallocuvm_spec newsz hc.1 hc.2).mono (fun r m' h' => h'.2.1) fun _ _ _ => trivial
  · refine (h.cowuvm_frame hc.1 hc.2).mono ?_ fun _ _ _ => trivial
    rintro r m' (⟨hdir, -⟩ | hun)
    · exact hnew (.inl hdir)
    · exact hnew (.inr hun)
  · refine Wp.bind ((h.pgfltintr_spec hc.1 hc.2).mono (fun _ _ hr => hr) fun _ _ _ => trivial) ?_
    rintro _ m' ⟨-, -, hres, -⟩
    exact wp_pure.mpr (hres (.inr trivial)).inv
  · refine Wp.bind ((h.freevm_spec hc).mono (fun _ _ hr => hr) fun _ _ _ => trivial) ?_
    rintro _ m' ⟨h', -⟩
    exact wp_pure.mpr h'

/-- **The run lemma**: the ledger is kept at any amount of free memory. -/
theorem scarce_inv (h : (scarce L).Reachable s) : Inv L True s.mem s.live s.kern := by
  refine h.invariant (I := fun s => Inv L True s.mem s.live s.kern) ?_ ?_
  · rintro s ⟨m₀, m, hblank, hinit, rfl⟩
    exact ((kinit_spec hblank).of_ok hinit).1.of_null trivial
  · rintro s (c | ⟨d, v, o, b⟩ | ⟨f, o, b⟩) t - hs hstep
    · obtain ⟨r, m', hok, hrun, rfl⟩ := hstep
      exact (c.settle_spec hs hok).of_ok hrun
    · obtain ⟨⟨hd, hv, hp⟩, rfl⟩ := hstep
      exact hs.setByte (hs.offTables_entry hd hv hp)
    · obtain ⟨hf, rfl⟩ := hstep
      exact hs.setByte (hs.offTables_kern hf)

/-- A call that has its memory is a step here, too. -/
theorem scarce_of_pool (h : (pool L).Reachable s) : (scarce L).Reachable s := by
  induction h with
  | init h => exact .init h
  | @step s t c h hs ih =>
    obtain ⟨r, m', hok, hrun, hmem, rfl⟩ := hs
    have hne : c.HasMemory s.mem m' → (c = .setupkvm ∨ ∃ d sz, c = .cowuvm d sz) → r ≠ 0 := by
      rintro hmem (rfl | ⟨d, sz, rfl⟩)
      · obtain ⟨hnew, -⟩ | ⟨-, hun⟩ := (pool_inv h).setupkvm_frame.of_ok hrun
        · exact hnew.ne_zero
        · exact absurd hmem hun.failed.1.ne'
      · obtain ⟨hnew, -⟩ | ⟨-, hun⟩ := ((pool_inv h).cowuvm_frame hok.1 hok.2).of_ok hrun
        · exact hnew.ne_zero
        · exact absurd hmem hun.failed.1.ne'
    refine ih.step (a := .call c) ⟨r, m', hok, hrun, ?_⟩
    cases c with
    | setupkvm => exact (if_neg (hne hmem (.inl rfl))).symm
    | cowuvm d sz => exact (if_neg (hne hmem (.inr ⟨d, sz, rfl⟩))).symm
    | _ => rfl

/-! ### All or nothing -/

/-- The same pages are mapped with the same flags, and the allocator counts the same. -/
structure Restored (m m' : Mem) (D : Finset ℕ) : Prop where
  map : SameMap m m' D
  refCnt : m'.refCnt = m.refCnt
  freePages : m'.freePages = m.freePages

/-- Zeroed pages of its own were added to `d` from `lo` to `hi`, and no other entry was changed. -/
structure Grown (m m' : Mem) (D : Finset ℕ) (d lo hi : ℕ) : Prop where
  given : ∀ v, lo ≤ v → v < hi → present (entry m' d v) ∧ writable (entry m' d v) ∧ userOk (entry m' d v) ∧
    m'.refCnt (pageOf (entry m' d v)) = 1 ∧ image m' d v = some fun _ => 0
  dirs : ∀ e ∈ D, ∀ j < 1024, m'.word e j = m.word e j
  entries : ∀ e ∈ D, ∀ v < 2 ^ 20, ¬ (e = d ∧ lo ≤ v ∧ v < hi) → entry m' e v = entry m e v

/-- `allocuvm` returns, and has done all of its work, which `deallocuvm` undoes, or nothing. -/
def AllOrNothing (L : Layout) (m : Mem) (D : Finset ℕ) (d oldsz newsz : ℕ) : Prop :=
  ∃ r m', allocuvm L d oldsz newsz m = .ok r m' ∧ (r = 0 → 0 < newsz → Restored m m' D) ∧
    (r = newsz → oldsz ≤ newsz → Grown m m' D d (pgup oldsz) (pgup newsz) ∧
      ∃ r' m'', deallocuvm L d newsz oldsz m' = .ok r' m'' ∧ Restored m m'' D)

theorem Restored.refl : Restored m m D := ⟨SameTables.refl.sameMap, rfl, rfl⟩

theorem Restored.of_map (h : Inv L N m D K) (h' : Inv L N m' D K) (hmap : SameMap m m' D)
    (hzero : m'.refCnt 0 = m.refCnt 0) : Restored m m' D := by
  obtain ⟨hcnt, -, hfree⟩ := h.counts_eq h' hmap.holds_eq
  refine ⟨hmap, funext fun f => ?_, hfree⟩
  rcases eq_or_ne f 0 with rfl | hf
  · exact hzero
  · exact hcnt f hf

theorem Filled.grown {lo hi : ℕ} (h : Filled L N m m' D K d lo hi (some fun _ => 0) Given) (hd : d ∈ D)
    (hhi : hi ≤ 160) : Grown m m' D d lo hi := by
  refine ⟨fun v hlo hv => ?_, fun e he j hj => ?_, fun e he v hv hout => ?_⟩
  · have hent := h.entries.2 v (by omega)
    rw [if_pos ⟨hlo, hv⟩] at hent
    obtain ⟨hp, hw, h0⟩ := hent
    have hs := Inv.holds_user_self (K := K) hd (by omega : v < 160) hp h0
    refine ⟨hp, hw, h.inv.userAccess d hd v (by omega) hp, h.inv.exclusive (.user d v) _ hw hs, ?_⟩
    rw [h.images d hd v (by omega), if_pos ⟨rfl, hlo, hv⟩]
  · rcases eq_or_ne e d with rfl | hne
    · exact h.entries.1 j hj
    · exact (h.framed.same e (Finset.mem_erase.mpr ⟨hne, he⟩)).1 j hj
  · rcases eq_or_ne e d with rfl | hne
    · have hent := h.entries.2 v hv
      rwa [if_neg fun hin => hout ⟨rfl, hin⟩] at hent
    · exact (h.framed.same e (Finset.mem_erase.mpr ⟨hne, he⟩)).2 v hv

theorem Inv.all_or_nothing {oldsz newsz : ℕ} (h : Inv L N m D K) (hd : d ∈ D)
    (hclear : ∀ v < 160, pgup oldsz ≤ v → ¬ present (entry m d v)) : AllOrNothing L m D d oldsz newsz := by
  have hrun : Wp (allocuvm L d oldsz newsz) (fun r m' => r = 0 ∧ m' = m ∧ usertop < newsz ∨
      r = max oldsz newsz ∧ newsz ≤ usertop ∧
        Filled L N m m' D K d (pgup oldsz) (pgup newsz) (some fun _ => 0) Given ∨
      r = 0 ∧ newsz ≤ usertop ∧ Filled L N m m' D K d (pgup oldsz) (pgup newsz) none (¬ present ·))
      (fun _ _ => False) m := by
    refine (h.allocuvm_frame hd).mono ?_ ?_
    · rintro r m' ⟨-, hout | ⟨hr, -, hle, -, hfill⟩ | ⟨hr, -, -, -, hle, hfill⟩⟩
      · exact .inl hout
      · exact .inr (.inl ⟨hr, hle, hfill⟩)
      · exact .inr (.inr ⟨hr, hle, hfill⟩)
    · rintro e _ ⟨-, v, hlo, hhi, hle, himg⟩
      have := pgup_le hle
      exact himg (image_eq_none.mpr (hclear v (by omega) hlo))
  obtain ⟨r, m', hok, hcase⟩ := hrun.returns
  refine ⟨r, m', hok, fun hr hpos => ?_, fun hr hle => ?_⟩
  · obtain ⟨-, rfl, -⟩ | ⟨hmax, -⟩ | ⟨-, hle, hfill⟩ := hcase
    · exact .refl
    · omega
    · have htop := pgup_le hle
      exact .of_map h hfill.inv (hfill.sameMap hd (fun _ _ _ => rfl) (fun v _ hlo hhi => hclear v (by omega) hlo)
        (fun _ _ => rfl) .refl) hfill.zero
  · obtain ⟨htop, hfill⟩ : newsz ≤ usertop ∧
        Filled L N m m' D K d (pgup oldsz) (pgup newsz) (some fun _ => 0) Given := by
      obtain ⟨hr0, -, hlt⟩ | ⟨-, htop, hfill⟩ | ⟨hr0, htop, hfill⟩ := hcase
      · omega
      · exact ⟨htop, hfill⟩
      · exact ⟨htop, hfill.of_empty (pgup_mono (by omega))⟩
    refine ⟨hfill.grown hd (pgup_le htop), ?_⟩
    have hle' := pgup_le htop
    have hback := (hfill.inv.deallocuvm_frame oldsz hd htop).mono (fun _ _ hq => hq) fun e _ he => by
      obtain ⟨-, v, hlo, hhi, -, h0⟩ := he
      have hent := hfill.entries.2 v (by omega)
      rw [if_pos ⟨hlo, hhi⟩] at hent
      exact hent.2.2 h0
    obtain ⟨r', m'', hok', -, hfill', -⟩ := hback.returns
    refine ⟨r', m'', hok', .of_map h hfill'.inv (hfill'.sameMap hd (fun v hv hout => ?_)
      (fun v _ hlo hhi => hclear v (by omega) hlo) hfill.entries.1 hfill.framed.same)
      (hfill'.zero.trans hfill.zero)⟩
    have hent := hfill.entries.2 v hv
    rwa [if_neg hout] at hent

/-- **`allocuvm` is all or nothing**, for every directory, at every size and amount of free memory. -/
theorem allocuvm_all_or_nothing (h : (scarce L).Reachable s) (hd : d ∈ s.live) (oldsz newsz : Word)
    (hclear : ∀ v < 160, pgup oldsz.toNat ≤ v → ¬ present (entry s.mem d v)) :
    AllOrNothing L s.mem s.live d oldsz.toNat newsz.toNat :=
  (scarce_inv h).all_or_nothing hd hclear

/-- Page 0 of a new directory is added, at the size of a page. -/
theorem allocuvm_all_or_nothing_first : ∃ (s : Pool) (d : ℕ), d ∈ s.live ∧ AllOrNothing smallKernel s.mem s.live d 0 4096 := by
  obtain ⟨s, d, h, hd, hempty, -⟩ := empty_reachable
  exact ⟨s, d, hd, allocuvm_all_or_nothing (scarce_of_pool h) hd 0#32 4096#32 fun v hv _ =>
    image_eq_none.mp (hempty v hv)⟩

/-! ### A fault without a free page -/

/-- The handler refuses: the process is killed and exits, and no byte of memory and no count is changed. -/
def Refused (m : Mem) (d : ℕ) (va : Word) (killed : Bool) : Prop :=
  ∃ m', trap true killed d va.toNat m = .ok .exit m' ∧ m'.byte = m.byte ∧ m'.refCnt = m.refCnt

/-- The page behind `va` is a page of another directory, too. -/
def SharedPage (s : Pool) (d va : ℕ) : Prop :=
  ∃ e ∈ s.live, e ≠ d ∧ ∃ v < 160, present (entry s.mem e v) ∧ pageOf (entry s.mem e v) = pageOf (entry s.mem d (va / 4096))

/-- **The handler without a free page** leaves a writable entry with page 0. -/
theorem Inv.pgfltintr_null {va : ℕ} (h : Inv L N m D K) (hd : d ∈ D) (hva : va < 2 ^ 32) (hnil : m.freelist = [])
    (hr : Rewrites m d va) (hnull : pageOf (entry m d (va / 4096)) = 0 ∨ 1 < m.refCnt (pageOf (entry m d (va / 4096)))) :
    Wp (pgfltintr d va) (fun _ m' => writable (entry m' d (va / 4096)) ∧ pageOf (entry m' d (va / 4096)) = 0)
      (fun _ _ => True) m := by
  unfold pgfltintr
  refine wp_bind.mpr (wp_walkpgdir_false (fun hpde => ?_) fun _ => wp_throw.mpr trivial)
  obtain ⟨hp, hw⟩ := hr
  have hv : va / 4096 < 2 ^ 20 := by omega
  have hpdx : pdx va = va / 4096 / 1024 := by
    unfold pdx
    omega
  simp only [wp_bind, wp_readPte, wp_ite, wp_pure, wp_getRefCnt, wp_writePte, ← entry_va hva hpde,
    writable_pteFlags, present_pteFlags]
  rw [hpdx] at hpde ⊢
  rw [show ptx va = va / 4096 % 1024 from rfl]
  generalize va / 4096 = v at hv hpde hp hw hnull
  have hput : ∀ {n : Mem} {w : Word}, SameTables m n D →
      entry (n.setWord (pageOf (m.word d (v / 1024))) (v % 1024) w) d v = w := by
    intro n w hs
    rw [(h.tablesPut hs hd hv hpde d hd).2 v hv, if_pos ⟨rfl, rfl⟩]
  refine ⟨fun _ => ⟨fun _ => ?_, fun hle => ?_⟩, fun hno => absurd ⟨hw, hp⟩ hno⟩
  · refine h.kalloc_spec.mono ?_ fun _ _ => False.elim
    rintro r m₁ ⟨hbyte, ⟨rfl, -, -, h₁⟩ | ⟨-, -, hlist, -⟩⟩
    swap
    · rw [hnil] at hlist
      cases hlist
    refine wp_bind.mpr (h₁.wp_memmove_behind hd (fun z g hz _ => ?_) fun _ _ => trivial)
    obtain ⟨hne, -⟩ | ⟨-, hz, rfl⟩ := hz
    · exact absurd rfl hne
    have hsame : SameTables m (m₁.copy (pageOf (entry m₁ d 0)) g) D :=
      (sameTables_of_eq hbyte).trans (sameTables_of_byte (h₁.offTables_entry hd (by omega) hz) fun k hk =>
        Mem.byte_copy_of_ne hk)
    rw [wp_bind, wp_decRefCnt, wp_writePte, hput]
    · refine ⟨?_, pageOf_addr_or (f := 0) (by omega) fun k hk => ?_⟩
      · rw [← BitVec.or_assoc]
        exact writable_or_pteW
      · rw [BitVec.getLsbD_or, isFlags_pteFlags k hk, isFlags_pteW k hk, Bool.or_false]
    · exact hsame
  · rw [hput .refl]
    exact ⟨writable_or_pteW, pageOf_or_pteW.trans (hnull.resolve_right hle)⟩

/-- Where a page is shared, it is page 0 or counted more than once. -/
theorem Inv.count_of_shared {va : ℕ} (h : Inv L N s.mem s.live K) (hd : d ∈ s.live) (hva : va < 2 ^ 32)
    (hr : Rewrites s.mem d va) (hs : SharedPage s d va) :
    pageOf (entry s.mem d (va / 4096)) = 0 ∨ 1 < s.mem.refCnt (pageOf (entry s.mem d (va / 4096))) := by
  obtain ⟨e, he, hne, u, hu, hpu, heq⟩ := hs
  refine or_iff_not_imp_left.mpr fun h0 => ?_
  have hother : holds s.mem s.live K (.user e u) = some (pageOf (entry s.mem d (va / 4096))) :=
    holds_user.mpr ⟨⟨he, hu⟩, hpu, h0, heq⟩
  have hlo : va / 4096 < 160 := by
    by_contra hge
    obtain ⟨hman, -⟩ := h.kernelRo d hd (va / 4096) (by omega) (by omega) hr.1 hr.2
    exact hman (h.managed_of_holds hother)
  have hown := holds_user_self (K := K) hd hlo hr.1 h0
  have hpos := h.counted.count_pos hown
  by_contra hle
  have hslot := h.counted.unique (by omega) hown hother
  simp only [Slot.user.injEq] at hslot
  exact hne hslot.1.symm

/-- **A copy-on-write fault without a free page** is never refused: if the handler returns, the process has
page 0 of physical memory, writable. -/
theorem fault_out_of_memory (h : (scarce L).Reachable s) (hd : d ∈ s.live) (va : Word) (killed : Bool)
    (hnil : s.mem.freelist = []) (hfault : CowFault s.mem d va.toNat true) (hshared : SharedPage s d va.toNat) :
    ¬ Refused s.mem d va killed ∧ ∀ r m', trap true killed d va.toNat s.mem = .ok r m' →
      writable (entry m' d (va.toNat / 4096)) ∧ pageOf (entry m' d (va.toNat / 4096)) = 0 := by
  obtain ⟨-, hp, -, hw⟩ := hfault
  have hinv := scarce_inv h
  have hnull := hinv.count_of_shared hd va.isLt ⟨hp, hw⟩ hshared
  have htrap : ∀ r m', trap true killed d va.toNat s.mem = .ok r m' →
      writable (entry m' d (va.toNat / 4096)) ∧ pageOf (entry m' d (va.toNat / 4096)) = 0 := by
    intro r m' hrun
    have hwp : Wp (trap true killed d va.toNat) (fun _ m' =>
        writable (entry m' d (va.toNat / 4096)) ∧ pageOf (entry m' d (va.toNat / 4096)) = 0)
        (fun _ _ => True) s.mem := by
      refine (hinv.pgfltintr_null hd va.isLt hnil ⟨hp, hw⟩ hnull).bind fun _ m₁ hm₁ => ?_
      rw [wp_ite, wp_pure, wp_pure]
      exact ⟨fun _ => hm₁, fun _ => hm₁⟩
    exact hwp.of_ok hrun
  refine ⟨?_, htrap⟩
  rintro ⟨m', hrun, hbyte, -⟩
  refine hw ?_
  rw [← entry_congr hbyte]
  exact (htrap _ m' hrun).1

/-- Pages can be taken until so many are left. -/
theorem scarce_drain {n : ℕ} (h : (scarce L).Reachable s) (hn : n ≤ s.mem.freelist.length) :
    ∃ m', m'.byte = s.mem.byte ∧ m'.freelist.length = n ∧ ∃ K, (scarce L).Reachable ⟨m', s.live, K⟩ := by
  obtain ⟨m, D, K⟩ := s
  obtain ⟨k, hk⟩ : ∃ k, m.freelist.length = n + k := ⟨m.freelist.length - n, by
    have : n ≤ m.freelist.length := hn
    omega⟩
  clear hn
  induction k generalizing m K with
  | zero => exact ⟨m, rfl, hk, K, h⟩
  | succ k ih =>
    obtain ⟨f, next, hlist⟩ := List.exists_cons_of_length_eq_add_one hk
    have hwp : Wp kalloc (fun r m' => r = f ∧ m' = m.taken f next) (fun _ _ => False) m := by
      refine wp_kalloc (fun hnil => ?_) fun g rest hcons => ?_
      · rw [hlist] at hnil
        cases hnil
      · rw [hlist] at hcons
        obtain ⟨rfl, rfl⟩ := List.cons.inj hcons
        exact ⟨rfl, rfl⟩
    obtain ⟨r, m₁, hrun, -, hm₁⟩ := hwp.returns
    have hstep : (scarce L).Reachable (Call.kalloc.settle ⟨m, D, K⟩ r m₁) :=
      h.step (a := .call .kalloc) ⟨r, m₁, trivial, hrun, rfl⟩
    rw [hm₁] at hstep
    refine ih (m.taken f next) _ hstep ?_
    rw [hlist, List.length_cons] at hk
    exact Nat.succ.inj hk

/-- A process writes a page that it shares, and no page is left. -/
theorem shared_scarce : ∃ (s : Pool) (d : ℕ), (scarce smallKernel).Reachable s ∧ d ∈ s.live ∧ s.mem.freelist = [] ∧
    CowFault s.mem d (0#32 : Word).toNat true ∧ SharedPage s d (0#32 : Word).toNat := by
  obtain ⟨s, d, e, h, hd, he, hne, -, -, hshared⟩ := shared_reachable
  obtain ⟨m', hbyte, hzero, K, h'⟩ := scarce_drain (scarce_of_pool h) (Nat.zero_le _)
  have hnil : m'.freelist = [] := List.length_eq_zero_iff.mp hzero
  have hent : ∀ c, entry m' c 0 = entry s.mem c 0 := fun c => entry_congr hbyte
  have hva : (0#32 : Word).toNat / 4096 = 0 := by decide
  refine ⟨_, d, h', hd, hnil, ⟨rfl, ?_, ?_, ?_⟩, e, he, hne.symm, 0, by omega, ?_, ?_⟩
  · rw [hva, hent]
    exact hshared.present
  · rw [hva, hent]
    exact (pool_inv h).userAccess d hd 0 (by omega) hshared.present
  · rw [hva, hent]
    exact hshared.readOnly
  · exact (hent e).symm ▸ hshared.other
  · rw [hva]
    exact (congrArg pageOf (hent e)).trans (hshared.same.trans (congrArg pageOf (hent d)).symm)

theorem fault_not_refused : ¬ ∀ (L : Layout) (s : Pool) (d : ℕ) (va : Word) (killed : Bool), (scarce L).Reachable s →
    d ∈ s.live → s.mem.freelist = [] → CowFault s.mem d va.toNat true → SharedPage s d va.toNat →
      Refused s.mem d va killed := by
  intro hall
  obtain ⟨s, d, h, hd, hnil, hfault, hshared⟩ := shared_scarce
  obtain ⟨m', hrun, hbyte, -⟩ := hall _ _ d _ false h hd hnil hfault hshared
  have hkills : KillsOffender s.mem d 0#32 false :=
    ⟨m', hrun, fun e => ⟨fun j _ => Mem.word_congr (by rw [hbyte]), fun v _ => entry_congr hbyte⟩⟩
  have hkilled := ((kills_offender_iff s.mem d 0#32 false).mp hkills).1
  cases hkilled

theorem fault_out_of_memory_shared : ∃ (s : Pool) (d : ℕ), ¬ Refused s.mem d 0#32 false ∧
    ∀ r m', trap true false d (0#32 : Word).toNat s.mem = .ok r m' →
      writable (entry m' d ((0#32 : Word).toNat / 4096)) ∧ pageOf (entry m' d ((0#32 : Word).toNat / 4096)) = 0 := by
  obtain ⟨s, d, h, hd, hnil, hfault, hshared⟩ := shared_scarce
  exact ⟨s, d, fault_out_of_memory h hd 0#32 false hnil hfault hshared⟩

end OperatingSystems.CowFork
