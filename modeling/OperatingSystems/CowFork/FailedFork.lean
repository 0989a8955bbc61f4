import OperatingSystems.CowFork.Processes

/-! # A fork that fails

`fork` gives back the kernel stack, but `setupkvm` does not give back the pages of the directory that it could
not finish. So a failed `fork` is without consequences only if it fails before that (`fork_atomic_iff`). -/

namespace OperatingSystems.CowFork.Processes

open Lib.WeakestPre Lib.Transition ProcTable

variable {L : Layout} {N : Prop} {s t : State} {p np : Fin nproc} {D K : Finset ℕ} {m : Mem} {d v f : ℕ}

/-! ### allocproc -/

/-- `allocproc` has no entry, no stack for its entry, or both. -/
inductive Allocated (s : State) : Option (Fin nproc) → State → Prop where
  | full (h : ∀ q, (s.proc q).state ≠ .unused) : Allocated s none s
  | noStack {np : Fin nproc} (hnp : (s.proc np).state = .unused) (hnil : s.mem.freelist = []) :
      Allocated s none { s with
        mem := { s.mem with fails := s.mem.fails + 1 }
        proc := Function.update s.proc np { s.proc np with state := .unused, pid := s.nextpid, kstack := 0 }
        nextpid := s.nextpid + 1#32 }
  | entry {np : Fin nproc} {f : ℕ} {next : List ℕ} (hnp : (s.proc np).state = .unused)
      (hlist : s.mem.freelist = f :: next) (hf : f ≠ 0) :
      Allocated s (some np) { s with
        mem := s.mem.taken f next
        proc := Function.update s.proc np { s.proc np with state := .embryo, pid := s.nextpid, kstack := f }
        nextpid := s.nextpid + 1#32 }

theorem allocproc_spec (hfree : ∀ f ∈ s.mem.freelist, f ≠ 0) :
    Wp allocproc (Allocated s) (fun _ _ => False) s := by
  unfold allocproc
  rw [wp_bind, wp_get]
  split
  · next hnone =>
    refine wp_pure.mpr (.full fun q hq => ?_)
    rw [List.find?_eq_none] at hnone
    exact hnone q (List.mem_finRange q) (by simpa using hq)
  · next np hsome =>
    have hnp : (s.proc np).state = .unused := by simpa using List.find?_some hsome
    simp only [modifyProc, wp_bind, wp_modify, wp_paging, wp_ite, wp_pure, Function.update_self,
      Function.update_idem]
    refine wp_kalloc (fun hnil => ⟨fun _ => .noStack hnp hnil, fun h => absurd rfl h⟩) fun f next hlist => ?_
    have hf := hfree f (by rw [hlist]; exact List.mem_cons_self)
    exact ⟨fun h => absurd h hf, fun _ => .entry hnp hlist hf⟩

/-! ### The open files -/

/-- The files that the process has open are referenced. -/
def Referenced (s : State) (p : Fin nproc) (n : ℕ) : Prop :=
  ∀ fd < n, ∀ f, (s.proc p).ofile fd = some f → 1 ≤ s.fileRef f

/-- `dupFiles` stops on a file that nobody references. -/
theorem dupFiles_spec (hp : p ≠ np) (n : ℕ) : Wp (dupFiles p np n)
    (fun _ t => Referenced s p n ∧ (t.proc p) = s.proc p ∧ (t.proc np).pid = (s.proc np).pid ∧
      ∀ f, 1 ≤ t.fileRef f ↔ 1 ≤ s.fileRef f)
    (fun _ _ => ¬ Referenced s p n) s := by
  induction n with
  | zero =>
    refine wp_pure.mpr ⟨?_, rfl, rfl, fun _ => .rfl⟩
    intro fd hfd
    omega
  | succ n ih =>
    unfold dupFiles
    refine Wp.bind (ih.mono (fun _ _ h => h) fun _ _ hno h => hno fun fd hfd => h fd (by omega)) ?_
    rintro _ t ⟨href, hproc, hpid, hiff⟩
    rw [wp_bind, wp_get, hproc]
    split
    · next hnone =>
      refine wp_pure.mpr ⟨fun fd hfd f hf => ?_, hproc, hpid, hiff⟩
      rcases Nat.lt_succ_iff_lt_or_eq.mp hfd with hlt | rfl
      · exact href fd hlt f hf
      · rw [hnone] at hf
        cases hf
    · next f hsome =>
      simp only [filedup, modifyProc, wp_bind, wp_get, wp_ite, wp_throw, wp_set, wp_modify]
      refine ⟨fun hlt hall => ?_, fun hge => ⟨fun fd hfd g hg => ?_, ?_, ?_, fun g => ?_⟩⟩
      · have hpos := (hiff f).mpr (hall n (Nat.lt_succ_self n) f hsome)
        omega
      · rcases Nat.lt_succ_iff_lt_or_eq.mp hfd with hlt | rfl
        · exact href fd hlt g hg
        · rw [hsome] at hg
          cases hg
          exact (hiff f).mp (by omega)
      · rw [Function.update_of_ne hp]
        exact hproc
      · rw [Function.update_self]
        exact hpid
      · by_cases hgf : g = f
        · subst hgf
          rw [Function.update_self, ← hiff g]
          omega
        · rw [Function.update_of_ne hgf]
          exact hiff g

/-! ### The parent -/

/-- The process can write page `v`: it is mapped writable, or the handler makes it so, for which it needs a page
only if the old one is shared. -/
def CanWrite (m : Mem) (d v : ℕ) : Prop :=
  present (entry m d v) ∧ userOk (entry m d v) ∧
    (writable (entry m d v) ∨ m.refCnt (pageOf (entry m d v)) ≤ 1 ∨ m.freelist ≠ [])

/-- Where a page can be written, the handler makes the entry writable. -/
theorem CanWrite.handler (h : Inv L N m D K) (hd : d ∈ D) (hv : v < 160) (hw : CanWrite m d v)
    (h0 : pageOf (entry m d v) ≠ 0) :
    Wp (pgfltintr d (v * 4096)) (fun _ m' => writable (entry m' d v) ∧ pageOf (entry m' d v) ≠ 0) (fun _ _ => False) m := by
  obtain ⟨hp, -, hcase⟩ := hw
  have hva : v * 4096 < 2 ^ 32 := by omega
  have hpde : present (m.word d (pdx (v * 4096))) := by
    rw [pdx_user hv]
    exact h.root d hd
  have hput : ∀ {n : Mem} {w : Word}, SameTables m n D →
      entry (n.setWord (pageOf (m.word d (v / 1024))) (v % 1024) w) d v = w := by
    intro n w hs
    rw [(h.tablesPut hs hd (by omega) (present_dir_of_entry hp) d hd).2 v (by omega), if_pos ⟨rfl, rfl⟩]
  have hpdx : pdx (v * 4096) = v / 1024 := by
    unfold pdx
    omega
  unfold pgfltintr
  refine wp_bind.mpr (wp_walkpgdir_false (fun _ => ?_) fun hno => absurd hpde hno)
  simp only [wp_bind, wp_readPte, wp_ite, wp_pure, wp_getRefCnt, wp_writePte, ← entry_va hva hpde,
    writable_pteFlags, present_pteFlags]
  rw [hpdx, show ptx (v * 4096) = v % 1024 by unfold ptx; omega, show v * 4096 / 4096 = v by omega]
  refine ⟨fun hr => ⟨fun hlt => ?_, fun _ => ?_⟩, fun hno => ⟨by_contra fun hnw => hno ⟨hnw, hp⟩, h0⟩⟩
  · have hne : m.freelist ≠ [] := by
      rcases hcase with hw | hle | hne
      · exact absurd hw hr.1
      · omega
      · exact hne
    refine h.kalloc_spec.mono ?_ fun _ _ => False.elim
    rintro r m₁ ⟨hbyte, ⟨rfl, hnil, -⟩ | ⟨hr0, -, hlist, h₁, hnone, -⟩⟩
    · exact absurd hnil hne
    rw [wp_bind, wp_memmove hr0 h0, wp_bind, wp_decRefCnt, wp_writePte]
    have hman := h₁.managed_of_holds (Inv.holds_kern_self (Finset.mem_insert_self _ _))
    have hoff : OffTables m D r := h.offTables_free (by rw [hlist]; exact List.mem_cons_self)
    rw [hput (sameTables_of_byte hoff fun g hg => by
      rw [← hbyte]
      exact Mem.byte_copy_of_ne hg)]
    refine ⟨by rw [← BitVec.or_assoc]; exact writable_or_pteW, ?_⟩
    rw [pageOf_addr_or (lt_of_managed hman) fun k hk => by
      rw [BitVec.getLsbD_or, isFlags_pteFlags k hk, isFlags_pteW k hk, Bool.or_false]]
    exact hr0
  · rw [hput .refl]
    exact ⟨writable_or_pteW, by rwa [pageOf_or_pteW]⟩

/-- **A fork without consequences**: the pages and their counts, the process table, and the references to files
and inodes are as before, and the parent reads the same bytes and can write what it could write. -/
structure Undone (s t : State) (p : Fin nproc) : Prop where
  freePages : t.mem.freePages = s.mem.freePages
  refCnt : ∀ f, t.mem.refCnt f = s.mem.refCnt f
  states : ∀ q, (t.proc q).state = (s.proc q).state
  files : t.fileRef = s.fileRef
  inodes : t.inodeRef = s.inodeRef
  bytes : ∀ v < 160, image t.mem (s.proc p).pgdir v = image s.mem (s.proc p).pgdir v
  writes : ∀ v < 160, CanWrite s.mem (s.proc p).pgdir v → CanWrite t.mem (s.proc p).pgdir v

/-- A `fork` that returns -1 has no consequences. -/
def FailsClean (L : Layout) (s : State) (p : Fin nproc) : Prop := ∀ t, fork L p s = .ok (-1) t → Undone s t p

/-- There is an entry for the child and a page for its stack, but its directory cannot be finished. -/
def Loses (s : State) : Prop := (∃ q, (s.proc q).state = .unused) ∧ 2 ≤ s.mem.freePages ∧ s.mem.freePages ≤ 13

/-- The fork succeeds, and the child gets the pid -1. -/
def Wraps (s : State) (p : Fin nproc) : Prop :=
  s.nextpid = -1#32 ∧ (∃ q, (s.proc q).state = .unused) ∧ 14 ≤ s.mem.freePages ∧
    (∀ v < pgup (s.proc p).sz.toNat, present (entry s.mem (s.proc p).pgdir v)) ∧ Referenced s p nofile

/-! ### fork -/

/-- A page was taken from the free list and freed again. -/
theorem undone_of_freed (h : Inv L N s.mem D K) (hd : (s.proc p).pgdir ∈ D) (hlist : s.mem.freelist = [f])
    (hmem : t.mem = ({ s.mem.taken f [] with fails := s.mem.fails + 1 } : Mem).freed f)
    (hstate : ∀ q, (t.proc q).state = (s.proc q).state) (hfile : t.fileRef = s.fileRef)
    (hinode : t.inodeRef = s.inodeRef) : Undone s t p := by
  have hfree : f ∈ s.mem.freelist := by simp [hlist]
  have hzero : s.mem.refCnt f = 0 := ((h.counted.mem_free f).mp hfree).2
  have hne := ne_zero_of_managed ((h.counted.mem_free f).mp hfree).1
  have hbyte : ∀ g, g ≠ f → t.mem.byte g = s.mem.byte g := fun g hg => by
    rw [hmem]
    exact Mem.byte_freed_of_ne hg
  have hsame : SameTables s.mem t.mem D := sameTables_of_byte (h.offTables_free hfree) hbyte
  have hentry := fun v (hv : v < 160) => (hsame _ hd).2 v (by omega)
  have hcnt : ∀ g, t.mem.refCnt g = s.mem.refCnt g := by
    intro g
    rw [hmem]
    by_cases hg : g = f
    · subst hg
      exact (Function.update_self ..).trans hzero.symm
    · have htaken : (s.mem.taken f []).refCnt g = s.mem.refCnt g := Mem.refCnt_taken_of_ne hg
      exact (Mem.refCnt_freed_of_ne hg).trans htaken
  refine ⟨?_, hcnt, hstate, hfile, hinode, fun v hv => ?_, ?_⟩
  · have hpages := h.freePages
    rw [hlist] at hpages
    rw [hmem, hpages]
    show s.mem.freePages - 1 + 1 = 1
    rw [hpages]
    rfl
  · refine kept_of_same (K := K) hsame (hbyte 0 hne.symm) (fun d hd v hv g hg => hbyte g ?_) _ hd v hv
    rintro rfl
    exact h.counted.of_mem_free hfree _ hg
  · rintro v hv ⟨hp, hu, hcase⟩
    unfold CanWrite
    rw [hentry v hv, hcnt]
    refine ⟨hp, hu, hcase.imp_right (.imp_right fun _ => ?_)⟩
    rw [hmem]
    exact List.cons_ne_nil _ _

/-- **What `fork` does**: it fails without consequences, it fails and keeps pages, or it succeeds. -/
inductive Forked (s : State) (p : Fin nproc) : ℤ → State → Prop where
  | clean {t : State} (hclean : (∀ q, (s.proc q).state ≠ .unused) ∨ s.mem.freePages < 2) (h : Undone s t p) :
      Forked s p (-1) t
  | lossy {t : State} (hloses : Loses s) (h : t.mem.freePages = 1) : Forked s p (-1) t
  | child {t : State} {np : Fin nproc} (hnp : (s.proc np).state = .unused) (hpages : 14 ≤ s.mem.freePages)
      (hpresent : ∀ v < pgup (s.proc p).sz.toNat, present (entry s.mem (s.proc p).pgdir v))
      (hfiles : Referenced s p nofile) (h : (t.proc np).state = .runnable) : Forked s p s.nextpid.toInt t

theorem fork_spec (h : Inv L N s.mem D K) (hd : (s.proc p).pgdir ∈ D) (hsz : (s.proc p).sz.toNat ≤ usertop)
    (hrun : (s.proc p).state ≠ .unused) :
    Wp (fork L p) (Forked s p) (fun _ _ => 14 ≤ s.mem.freePages ∧
      ¬ ((∀ v < pgup (s.proc p).sz.toNat, present (entry s.mem (s.proc p).pgdir v)) ∧ Referenced s p nofile)) s := by
  have htop := pgup_le hsz
  unfold fork forkWith
  have hnonzero : ∀ f ∈ s.mem.freelist, f ≠ 0 := fun f hf => ne_zero_of_managed ((h.counted.mem_free f).mp hf).1
  refine (allocproc_spec hnonzero).mono (fun _ _ ht => ht) (fun _ _ he => he.elim) |>.bind ?_
  rintro r t hall
  cases hall with
  | full hfull =>
    exact wp_pure.mpr (.clean (.inl hfull) ⟨rfl, fun _ => rfl, fun _ => rfl, rfl, rfl, fun _ _ => rfl, fun _ _ h => h⟩)
  | @noStack np hnp hnil =>
    refine wp_pure.mpr (.clean (.inr ?_) ⟨rfl, fun _ => rfl, fun q => ?_, rfl, rfl, fun _ _ => rfl, fun _ _ h => h⟩)
    · rw [h.freePages, hnil]
      exact Nat.zero_lt_two
    · by_cases hq : q = np
      · subst hq
        simp only [Function.update_self, hnp]
      · simp only [Function.update_of_ne hq]
  | @entry np f next hnp hlist hf =>
    have hpnp : p ≠ np := by
      rintro rfl
      exact hrun hnp
    have hpages := h.freePages
    rw [hlist, List.length_cons] at hpages
    obtain ⟨h₁, -⟩ := h.take hlist
    have hcow := (h₁.cowuvm_frame hd hsz).and (h₁.cowuvm_shares hd hsz)
    have hlen : (s.mem.taken f next).freelist = next := rfl
    simp only [wp_bind, wp_get, wp_paging, Function.update_of_ne hpnp]
    refine hcow.mono ?_ ?_
    · rintro r m' ⟨⟨hnew, -, -, hl⟩ | ⟨rfl, hun⟩, hshared⟩
      · have hpresent : ∀ v < pgup (s.proc p).sz.toNat, present (entry s.mem (s.proc p).pgdir v) := by
          intro v hv
          have hp := (hshared hnew.ne_zero v hv).present
          have hkept : image m' (s.proc p).pgdir v = image s.mem (s.proc p).pgdir v := hnew.kept _ hd v (by omega)
          rw [image_of_present hp] at hkept
          by_contra habs
          rw [image_eq_none.mpr habs] at hkept
          cases hkept
        have hmany : 14 ≤ s.mem.freePages := by
          rw [hlen] at hl
          omega
        simp only [modifyProc, wp_modify, wp_ite, wp_bind, Function.update_self, Function.update_idem]
        refine ⟨fun h0 => absurd h0 hnew.ne_zero, fun _ => ?_⟩
        refine (dupFiles_spec hpnp nofile).mono ?_ fun _ _ hno => ⟨hmany, fun hall => hno ?_⟩
        · rintro _ t ⟨href, -⟩
          simp only [idup, wp_bind, wp_modify, wp_pure]
          refine .child hnp hmany hpresent (fun fd hfd g hg => href fd hfd g ?_) ?_
          · simp only [Function.update_of_ne hpnp, hg]
          · simp only [Function.update_self]
        · intro fd hfd g hg
          simp only [Function.update_of_ne hpnp] at hg
          exact hall.2 fd hfd g hg
      · simp only [modifyProc, wp_modify, wp_ite, wp_bind, Function.update_self, Function.update_idem, wp_pure,
          wp_paging, not_true_eq_false, false_implies, and_true, true_implies]
        have hfK : f ∈ insert f K ∪ (s.mem.taken f next).freelist.toFinset :=
          Finset.mem_union_left _ (Finset.mem_insert_self _ _)
        have hone := hun.inv.refCnt_kern hfK
        refine wp_kfree (hun.inv.managed_of_holds (Inv.holds_kern_self hfK)) (fun hlt => absurd hlt (by omega))
          (fun _ => ?_) (by omega)
        have hfew : next.length ≤ 12 := hun.few
        by_cases hnext : next = []
        · subst hnext
          refine .clean (.inr (by rw [hpages]; decide)) (undone_of_freed h hd hlist ?_ (fun q => ?_) rfl rfl)
          · rw [hun.empty rfl]
            rfl
          · by_cases hq : q = np
            · subst hq
              simp only [Function.update_self, hnp]
            · simp only [Function.update_of_ne hq]
        · have hpos := List.length_pos_iff.mpr hnext
          refine .lossy ⟨⟨np, hnp⟩, by omega, by omega⟩ ?_
          have hzero := hun.inv.freePages
          rw [hun.failed.2.2.1] at hzero
          exact congrArg (· + 1) hzero
    · rintro e m' ⟨⟨-, ⟨v, hv, hnone⟩, hl⟩, -⟩
      rw [hlen] at hl
      exact ⟨by omega, fun hall => image_eq_none.mp hnone (hall.1 v hv)⟩

/-- With too few pages for the directory of the child, pages are lost. -/
theorem not_failsClean_of_loses (h : Inv L N s.mem D K) (hd : (s.proc p).pgdir ∈ D)
    (hsz : (s.proc p).sz.toNat ≤ usertop) (hrun : (s.proc p).state ≠ .unused) (hloses : Loses s) :
    ¬ FailsClean L s p := by
  intro hclean
  obtain ⟨⟨q, hq⟩, hlo, hhi⟩ := hloses
  obtain ⟨r, t, hok, hforked⟩ := ((fork_spec h hd hsz hrun).mono (fun _ _ hf => hf) fun _ _ he => by
    have := he.1
    omega).returns
  cases hforked with
  | clean hc => exact hc.elim (fun hfull => hfull q hq) (by omega)
  | lossy _ hone =>
    have heq := (hclean t hok).freePages
    omega
  | child _ hpages => omega

/-- **A failed fork is without consequences** if and only if it is not the directory of the child that there are
too few pages for, and no child gets the pid -1. -/
theorem fails_clean_iff {s : State} {pool : Pool} (h : (scarce L).Reachable pool) (hmem : pool.mem = s.mem)
    (hd : (s.proc p).pgdir ∈ pool.live) (hsz : (s.proc p).sz.toNat ≤ usertop) (hrun : (s.proc p).state ≠ .unused) :
    FailsClean L s p ↔ ¬ Loses s ∧ ¬ Wraps s p := by
  have hinv := scarce_inv h
  rw [hmem] at hinv
  have hspec := fork_spec hinv hd hsz hrun
  constructor
  · refine fun hclean => ⟨fun hloses => not_failsClean_of_loses hinv hd hsz hrun hloses hclean, fun hwraps => ?_⟩
    obtain ⟨hpid, ⟨q, hq⟩, hpages, hpresent, hfiles⟩ := hwraps
    obtain ⟨r, t, hok, hforked⟩ := (hspec.mono (fun _ _ hf => hf) fun _ _ he =>
      he.2 ⟨hpresent, hfiles⟩).returns
    cases hforked with
    | clean hc => exact hc.elim (fun hfull => hfull q hq) (by omega)
    | lossy hloses =>
      have := hloses.2.2
      omega
    | @child t np hnp _ _ _ hstate =>
      have hneg : s.nextpid.toInt = -1 := by
        rw [hpid]
        rfl
      rw [hneg] at hok
      have hsame := (hclean t hok).states np
      rw [hstate, hnp] at hsame
      cases hsame
  · rintro ⟨hloses, hwraps⟩ t hok
    have hforked := hspec.of_ok hok
    generalize hr : (-1 : ℤ) = r at hforked
    cases hforked with
    | clean _ hundone => exact hundone
    | lossy hl => exact absurd hl hloses
    | child hnp hpages hpresent hfiles =>
      refine absurd ⟨?_, ⟨_, hnp⟩, hpages, hpresent, hfiles⟩ hwraps
      exact BitVec.eq_of_toInt_eq (hr.symm.trans rfl)

/-- An unused entry of the process table. -/
def unusedProc : Proc := ⟨0#32, 0, 0, .unused, 0#32, none, ⟨0#32, 0#32, 0#32⟩, false, fun _ => none, 0, []⟩

/-- One process, with an empty address space. -/
def alone (m : Mem) (d : ℕ) : State where
  mem := m
  proc := Function.update (fun _ => unusedProc) 0 { unusedProc with state := .running, pid := 1#32, pgdir := d }
  nextpid := 2#32
  fileRef _ := 0
  inodeRef _ := 0

theorem alone_running {m : Mem} {d : ℕ} : ((alone m d).proc 0).state ≠ .unused := by
  simp [alone]

/-- A directory, and any small number of free pages. -/
theorem exists_freePages {n : ℕ} (hn : n ≤ 2799) : ∃ (pool : Pool) (d : ℕ), (scarce smallKernel).Reachable pool ∧
    d ∈ pool.live ∧ pool.mem.freePages = n := by
  obtain ⟨s, d, h, hd, -, hlen⟩ := empty_reachable
  obtain ⟨m, -, htwo, K, h'⟩ := scarce_drain (n := n) (scarce_of_pool h) (by omega)
  have hinv : Inv smallKernel True m s.live K := scarce_inv h'
  exact ⟨⟨m, s.live, K⟩, d, h', hd, hinv.freePages.trans htwo⟩

/-- With one free page, which the kernel stack takes, `fork` fails without consequences. -/
theorem fails_clean_one : ∃ (pool : Pool) (d : ℕ) (t : State), (scarce smallKernel).Reachable pool ∧
    d ∈ pool.live ∧ pool.mem.freePages = 1 ∧ fork smallKernel 0 (alone pool.mem d) = .ok (-1) t ∧
    FailsClean smallKernel (alone pool.mem d) 0 := by
  obtain ⟨pool, d, h, hd, hone⟩ := exists_freePages (n := 1) (by decide)
  have hpages : (alone pool.mem d).mem.freePages = 1 := hone
  obtain ⟨r, t, hok, hforked⟩ := ((fork_spec (scarce_inv h) hd (Nat.zero_le _) alone_running).mono
    (fun _ _ hf => hf) fun _ _ he => by
      exact absurd (he.1.trans hpages.le) (by decide)).returns
  refine ⟨pool, d, t, h, hd, hone, ?_, (fails_clean_iff h rfl hd (Nat.zero_le _) alone_running).mpr ⟨?_, ?_⟩⟩
  · cases hforked with
    | clean => exact hok
    | lossy => exact hok
    | child _ hmany => exact absurd (hmany.trans hpages.le) (by decide)
  · rintro ⟨-, htwo, -⟩
    exact absurd (htwo.trans hpages.le) (by decide)
  · rintro ⟨-, -, hmany, -⟩
    exact absurd (hmany.trans hpages.le) (by decide)

/-- With two free pages `fork` keeps one of them. -/
theorem not_failsClean_two : ∃ (pool : Pool) (d : ℕ), (scarce smallKernel).Reachable pool ∧ d ∈ pool.live ∧
    pool.mem.freePages = 2 ∧ ¬ FailsClean smallKernel (alone pool.mem d) 0 := by
  obtain ⟨pool, d, h, hd, htwo⟩ := exists_freePages (n := 2) (by decide)
  refine ⟨pool, d, h, hd, htwo, ?_⟩
  refine not_failsClean_of_loses (scarce_inv h) hd (Nat.zero_le _) alone_running ⟨⟨1, rfl⟩, ?_, ?_⟩
  · exact htwo.ge
  · exact htwo.le.trans (by decide)

end OperatingSystems.CowFork.Processes
