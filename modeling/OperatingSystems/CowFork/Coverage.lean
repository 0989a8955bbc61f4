import OperatingSystems.CowFork.Sizes

/-! # Address spaces in whole runs

Processes call `sbrk`, `fork` and `exec`, store and fault, in any order and at any amount of free memory. The pages
below the size of a process are always there, so that `cowuvm` finds them (`pages_below_size`), unless somebody
has called `sbrk` by minus the whole size, or `exec` with a file that overruns. -/

namespace OperatingSystems.CowFork.Processes

open Lib.WeakestPre Lib.Transition ProcTable

/-! ### The system -/

/-- What a process does: calls, and accesses that go through or fault. -/
inductive Action where
  | sbrk (n : Word)
  | fork
  | exec (namei : Bytes → Option File) (path : Bytes) (argv : List Bytes)
  | store (va : Word) (b : BitVec 8)
  | fault (va : Word)

def Action.run (L : Layout) (p : Fin nproc) : Action → Code Unit
  | sbrk n => do
    let _ ← sysSbrk L p n
    return ()
  | fork => do
    let _ ← Processes.fork L p
    return ()
  | exec namei path argv => do
    let _ ← Processes.exec L namei p path argv
    return ()
  | store va b => do
    let s ← get
    writeByte (s.proc p).pgdir va.toNat b
  | fault va => do
    let s ← get
    pgfltintr (s.proc p).pgdir va.toNat

/-- What the process can do. The strings for `exec` end below its size, and a store goes through if the hardware
lets it. -/
def Action.Ok (s : State) (p : Fin nproc) (a : Action) : Prop :=
  (s.proc p).state = .runnable ∧
    match a with
    | exec _ _ argv => ∀ x ∈ argv, x.length < (s.proc p).sz.toNat
    | store va _ => ¬ Faults s.mem (s.proc p).pgdir va.toNat true
    | _ => True

/-- The kernel from boot on, and the processes that it runs. -/
def calls (L : Layout) : System State (Fin nproc × Action) where
  init := Booted L
  step s a t := a.2.Ok s a.1 ∧ a.2.run L a.1 s = .ok () t

/-- It is neither `sbrk` by minus the whole size nor `exec` of a file that overruns. -/
def Action.Spares (s : State) (p : Fin nproc) : Action → Prop
  | sbrk n => ¬ Empties s p n
  | exec namei path _ => ∀ ip, namei path = some ip → ¬ ip.Overruns s.mem.freelist.length
  | _ => True

variable {L : Layout} {s t : State} {D K : Finset ℕ} {p : Fin nproc} {n : Word}

/-! ### Steps -/

namespace Sized

theorem store_spec {va : Word} {b : BitVec 8} (h : Sized L s D K) (hp : (s.proc p).state ≠ .unused)
    (hva : ¬ Faults s.mem (s.proc p).pgdir va.toNat true) :
    Wp ((Action.store va b).run L p) (fun _ t => Sized L t D K) (fun _ _ => False) s := by
  have hd := h.dirs.mem p hp
  have hlt : va.toNat < usertop := by
    by_contra hge
    exact hva ((h.spaces p hp).supervised.faults (not_lt.mp hge) va.isLt)
  have hv : va.toNat / 4096 < 160 := by
    unfold usertop at hlt
    omega
  have hoff := h.inv.offTables_entry hd hv (not_not.mp hva).2.2.1
  unfold Action.run writeByte
  rw [wp_bind, wp_get, wp_paging, wp_modify]
  exact h.of_same (.of_proc rfl) (h.inv.setByte hoff) (sameTables_of_byte hoff fun g hg => Mem.byte_setByte_of_ne hg)

theorem fault_spec {va : Word} (h : Sized L s D K) (hp : (s.proc p).state ≠ .unused) :
    Wp ((Action.fault va).run L p) (fun _ t => Sized L t D K) (fun _ _ => True) s := by
  have hd := h.dirs.mem p hp
  unfold Action.run
  rw [wp_bind, wp_get, wp_paging]
  refine ((h.inv.pgfltintr_spec hd va.isLt).and (h.inv.pgfltintr_supervised hd va.isLt)).mono ?_ fun _ _ _ => trivial
  rintro _ m ⟨⟨-, -, hres, -⟩, hkeeps⟩
  have hres := hres (.inr trivial)
  refine h.same (.of_proc rfl) hres.inv fun q hq => ?_
  have hdq := h.dirs.mem q hq
  exact (h.spaces q hq).of_present (hres.present_iff _ hdq) (hkeeps _ hdq (h.spaces q hq).supervised)

/-- **The step lemma.** -/
theorem step {a : Action} (h : Sized L s D K) (hok : a.Ok s p) (hs : a.Spares s p) :
    Wp (a.run L p) (fun _ t => ∃ D K, Sized L t D K) (fun _ _ => True) s := by
  obtain ⟨hstate, hok⟩ := hok
  have hp : (s.proc p).state ≠ .unused := by rw [hstate]; exact fun h' => by cases h'
  cases a with
  | sbrk n =>
    unfold Action.run sysSbrk
    simp only [wp_bind, wp_get]
    refine (h.growproc_spec hp hs).mono ?_ fun _ _ _ => trivial
    rintro r t ⟨-, ht⟩
    simp only [wp_ite, wp_pure]
    exact ⟨fun _ => ⟨D, K, ht⟩, fun _ => ⟨D, K, ht⟩⟩
  | fork => exact ((h.fork_spec hp).mono (fun _ _ ht => ht) fun _ _ _ => trivial).bind fun _ _ ht => wp_pure.mpr ht
  | exec namei path argv =>
    have hlen : ∀ x ∈ argv, x.length < usertop := fun x hx => (hok x hx).trans_le (h.spaces p hp).size
    exact (h.exec_sized hp hs hlen).bind fun _ _ ht => wp_pure.mpr ht
  | store va b => exact (h.store_spec hp hok).mono (fun _ _ ht => ⟨D, K, ht⟩) fun _ _ => False.elim
  | fault va => exact (h.fault_spec hp).imp fun _ _ ht => ⟨D, K, ht⟩

end Sized

/-! ### Runs -/

theorem Booted.sized (h : Booted L s) : ∃ D K, Sized L s D K := by
  obtain ⟨⟨D, K, hown⟩, hsane⟩ := h.good
  refine ⟨D, K, hown.inv.of_null trivial, hown.dirs, fun p hp => ⟨(hsane p).pos hp, (hsane p).size hp, fun v hv => ?_, ?_⟩⟩
  · refine ⟨fun hpv => by_contra fun hge => ?_, present_of_lt hsane hp hv⟩
    have hnone := ((hsane p).pages hp v).mpr (not_lt.mp hge)
    exact image_eq_none.mp ((view_of_used hp hv).symm.trans hnone) hpv
  · exact h.supervised hp

/-- **The run lemma.** -/
theorem calls_sized (h : ((calls L).only fun s a => a.2.Spares s a.1).Reachable s) : ∃ D K, Sized L s D K := by
  refine h.invariant (I := fun s => ∃ D K, Sized L s D K) (fun s hs => Booted.sized hs) fun s a t _ hsized hstep => ?_
  obtain ⟨D, K, hs⟩ := hsized
  exact (hs.step hstep.2.1 hstep.1).of_ok hstep.2.2

/-! ### What the size promises -/

/-- Every page below the size is there, and the process can access it. -/
def Covers (m : Mem) (d sz : ℕ) : Prop :=
  ∀ va < sz, va % 4096 = 0 → present (m.word d (pdx va)) ∧ userOk (m.word d (pdx va)) ∧
    present (entry m d (va / 4096)) ∧ userOk (entry m d (va / 4096))

/-- `fork` does not stop in `cowuvm`. -/
def Forkable (L : Layout) (s : State) (p : Fin nproc) : Prop :=
  ∀ e t, fork L p s = .error e t → e ≠ .cowuvmPte ∧ e ≠ .cowuvmPage

/-- A `growproc` that fails has no consequences. -/
def GrowsClean (L : Layout) (s : State) (p : Fin nproc) (n : Word) : Prop :=
  ∀ t, growproc L p n s = .ok (-1) t → Unchanged s t p

namespace Sized

theorem covers (h : Sized L s D K) (hp : (s.proc p).state ≠ .unused) :
    Covers s.mem (s.proc p).pgdir (s.proc p).sz.toNat := by
  intro va hva _
  have hd := h.dirs.mem p hp
  obtain ⟨hv, hpv⟩ := (h.spaces p hp).page_lt hva
  have hpdx : pdx va = 0 := by
    unfold pdx
    omega
  rw [hpdx]
  exact ⟨h.inv.root _ hd, (h.inv.rootUser _ hd).1, hpv, h.inv.userAccess _ hd _ hv hpv⟩

theorem forkable (h : Sized L s D K) (hp : (s.proc p).state ≠ .unused) : Forkable L s p := by
  intro e t hrun
  rw [(h.fork_spec hp).of_error hrun]
  exact ⟨nofun, nofun⟩

theorem growsClean_iff (h : Sized L s D K) (hp : (s.proc p).state ≠ .unused) :
    GrowsClean L s p n ↔ ¬ Empties s p n ∨ HasNull s.mem (s.proc p).pgdir := by
  by_cases hn : Empties s p n
  · have hspec := h.growproc_empties hp hn
    refine ⟨fun hclean => .inr (by_contra fun hnull => ?_), fun hnull t hrun => ?_⟩
    · obtain ⟨r, t, hrun, -, rfl, -, hgone⟩ := (hspec.mono (fun _ _ ht => ht) fun _ _ he => hnull he).returns
      have hspace := h.spaces p hp
      have h0 : 0 < (s.proc p).sz.toNat := Nat.pos_of_ne_zero fun h0 => hspace.pos (BitVec.eq_of_toNat_eq h0)
      have hpv := (hspace.page_lt h0).2
      have hent := ((hclean t hrun).restored.map _ (Finset.mem_singleton_self _)).2 0 (by omega) (.inl hpv)
      exact hgone 0 (by omega) (hent ▸ hpv)
    · exact absurd (hnull.resolve_left fun hno => hno hn) (hspec.of_ok hrun).1
  · exact ⟨fun _ => .inl hn, fun _ t hrun => ((h.growproc_spec hp hn).of_ok hrun).1 rfl⟩

end Sized

/-- **The pages below the size are there** in every run without the two calls, `fork` finds them, and `growproc`
fails without consequences exactly if it does not take all pages. -/
theorem pages_below_size (h : ((calls L).only fun s a => a.2.Spares s a.1).Reachable s)
    (hp : (s.proc p).state ≠ .unused) :
    Covers s.mem (s.proc p).pgdir (s.proc p).sz.toNat ∧ Forkable L s p ∧
      ∀ n, GrowsClean L s p n ↔ ¬ Empties s p n ∨ HasNull s.mem (s.proc p).pgdir := by
  obtain ⟨D, K, hs⟩ := calls_sized h
  exact ⟨hs.covers hp, hs.forkable hp, fun n => hs.growsClean_iff hp⟩

/-- The first process can run and has one page, and there is no other. -/
theorem Booted.first (h : Booted L s) : (s.proc initproc).state = .runnable ∧ (s.proc initproc).sz = 4096#32 ∧
    ∀ q, q ≠ initproc → (s.proc q).state = .unused := by
  obtain ⟨m₀, m, initcode, hblank, hkinit, huser, hfails⟩ := h
  have hinv : Inv L False m ∅ ∅ := ((kinit_spec hblank).of_ok hkinit).1
  exact (((userinit_spec hinv).of_ok huser).2.2 hfails).2

theorem ne_unused_of_runnable (h : (s.proc p).state = .runnable) : (s.proc p).state ≠ .unused := by
  rw [h]
  exact fun h' => by cases h'

/-- A `sbrk` that there is memory for. -/
theorem Sized.growproc_grows (h : Sized L s D K) (hp : (s.proc p).state ≠ .unused) (hgrow : 0 < n.toInt)
    (hsz : ((s.proc p).sz + n).toNat ≤ usertop) (hfree : 160 ≤ s.mem.freelist.length) :
    Wp (growproc L p n) (fun r t => r = 0 ∧ (t.proc p).sz = (s.proc p).sz + n ∧
      (∀ q, (t.proc q).state = (s.proc q).state ∧ (t.proc q).ofile = (s.proc q).ofile) ∧
      s.mem.freelist.length ≤ t.mem.freelist.length + 160) (fun _ _ => False) s := by
  have hspace := h.spaces p hp
  have hlt := toNat_grown hspace.size hgrow
  have htop := pgup_le hsz
  unfold growproc
  simp only [wp_bind, wp_get, wp_ite, wp_paging, wp_pure, setSize, modifyProc, wp_modify]
  refine ⟨fun _ => ?_, fun hno => absurd hgrow hno⟩
  refine (h.inv.allocuvm_frame (h.dirs.mem p hp)).mono ?_ ?_
  · rintro r m ⟨hlen, ⟨-, -, hbig⟩ | ⟨rfl, -⟩ | ⟨-, -, hfew, -⟩⟩
    · omega
    · rw [max_eq_right hlt.le]
      refine ⟨fun h0 => absurd h0 (by omega), fun _ => ⟨trivial, ?_, fun q => ?_, hlen⟩⟩
      · rw [Function.update_self, BitVec.ofNat_toNat, BitVec.setWidth_eq]
      · by_cases hqp : q = p
        · subst hqp
          simp only [Function.update_self, and_self]
        · simp only [Function.update_of_ne hqp, and_self]
    · omega
  · rintro e _ ⟨-, v, hlo, hhi, -, hne⟩
    exact hne (image_eq_none.mpr fun hpv => absurd ((hspace.pages v (by omega)).mp hpv) (not_lt.mpr hlo))

theorem sbrk_run {r : ℤ} (h : growproc L p n s = .ok r t) : (Action.sbrk n).run L p s = .ok () t := by
  have hspec : Wp ((Action.sbrk n).run L p) (fun _ u => u = t) (fun _ _ => False) s := by
    unfold Action.run sysSbrk
    simp only [wp_bind, wp_get]
    refine wp_of_ok h ?_
    simp only [wp_ite, wp_pure, implies_true, and_self]
  obtain ⟨_, u, hok, rfl⟩ := hspec.returns
  exact hok

theorem fork_run {r : ℤ} (h : fork L p s = .ok r t) : Action.fork.run L p s = .ok () t := by
  have hspec : Wp (Action.fork.run L p) (fun _ u => u = t) (fun _ _ => False) s := by
    unfold Action.run
    rw [wp_bind]
    exact wp_of_ok h (wp_pure.mpr rfl)
  obtain ⟨_, u, hok, rfl⟩ := hspec.returns
  exact hok

/-- A `fork` that there is an entry and memory for, by a process without open files. -/
theorem Sized.fork_child (h : Sized L s D K) (hp : (s.proc p).state ≠ .unused)
    (hfiles : ∀ fd, (s.proc p).ofile fd = none) (hun : ∃ q, (s.proc q).state = .unused)
    (hfree : 14 ≤ s.mem.freelist.length) :
    Wp (fork L p) (fun _ t => ∃ np, (s.proc np).state = .unused ∧ (t.proc np).state = .runnable)
      (fun _ _ => False) s := by
  have hspace := h.spaces p hp
  have htop := pgup_le hspace.size
  have hpages := h.inv.freePages
  refine (Processes.fork_spec h.inv (h.dirs.mem p hp) hspace.size hp).mono ?_ ?_
  · rintro r t hforked
    cases hforked with
    | clean hfail =>
      obtain ⟨q, hq⟩ := hun
      rcases hfail with hfull | hfew
      · exact absurd hq (hfull q)
      · omega
    | lossy hloses =>
      have := hloses.2.2
      omega
    | child hnp _ _ _ hstate => exact ⟨_, hnp, hstate⟩
  · rintro e t ⟨-, hno⟩
    refine hno ⟨fun v hv => (hspace.pages v (by omega)).mpr hv, fun fd _ f hf => ?_⟩
    rw [hfiles fd] at hf
    cases hf

/-- The first process gets another page by `sbrk`, and forks: the pages below the size of its child are there. -/
theorem pages_below_size_forked : ∃ s t np,
    ((calls smallKernel).only fun s a => a.2.Spares s a.1).Reachable s ∧ (s.proc initproc).sz = 8192#32 ∧
    ((calls smallKernel).only fun s a => a.2.Spares s a.1).step s (initproc, .fork) t ∧ np ≠ initproc ∧
    (t.proc np).state = .runnable ∧ (t.proc np).sz ≠ 0#32 ∧
    Covers t.mem (t.proc np).pgdir (t.proc np).sz.toNat ∧ Forkable smallKernel t np := by
  obtain ⟨s₀, hs₀, hpages⟩ := booted_pages
  obtain ⟨hrun, hsz, hnone⟩ := hs₀.first
  have hused := ne_unused_of_runnable hrun
  obtain ⟨D, K, hsized⟩ := hs₀.sized
  have hspec : Wp (growproc smallKernel initproc 4096#32) _ _ s₀ :=
    hsized.growproc_grows hused (by decide) (by rw [hsz]; decide) (by omega)
  obtain ⟨r, s, hgrow, -, hnew, hsame, hleft⟩ := hspec.returns
  have hbreak : ((calls smallKernel).only fun s a => a.2.Spares s a.1).Reachable s := by
    refine .step (.init hs₀) (a := (initproc, .sbrk 4096#32)) ⟨?_, ⟨hrun, trivial⟩, sbrk_run hgrow⟩
    rintro ⟨hneg, -⟩
    exact absurd hneg (by decide)
  have hrun' : (s.proc initproc).state = .runnable := (hsame initproc).1.trans hrun
  have hfiles : ∀ fd, (s.proc initproc).ofile fd = none := by
    intro fd
    rw [(hsame initproc).2]
    exact (hs₀.good.2 initproc).files fd
  have hone : (s.proc 1).state = .unused := (hsame 1).1.trans (hnone 1 (by decide))
  obtain ⟨D', K', hsized'⟩ := calls_sized hbreak
  obtain ⟨pid, t, hfork, np, hnp, hstate⟩ :=
    (hsized'.fork_child (ne_unused_of_runnable hrun') hfiles ⟨1, hone⟩ (by omega)).returns
  have hstep : ((calls smallKernel).only fun s a => a.2.Spares s a.1).step s (initproc, .fork) t :=
    ⟨trivial, ⟨hrun', trivial⟩, fork_run hfork⟩
  have hused' := ne_unused_of_runnable hstate
  obtain ⟨D'', K'', hsized''⟩ := calls_sized (.step hbreak hstep)
  obtain ⟨hcovers, hforkable, -⟩ := pages_below_size (.step hbreak hstep) hused'
  refine ⟨s, t, np, hbreak, by rw [hnew, hsz]; rfl, hstep, ?_, hstate, (hsized''.spaces np hused').pos, hcovers,
    hforkable⟩
  rintro rfl
  exact ne_unused_of_runnable hrun' hnp

theorem toInt_neg_lt {sz : Word} (hpos : sz ≠ 0#32) (hle : sz.toNat ≤ usertop) : (-sz).toInt < 0 := by
  have h0 : sz.toNat ≠ 0 := fun h0 => hpos (BitVec.eq_of_toNat_eq h0)
  unfold usertop at hle
  have hneg : (-sz).toNat = 2 ^ 32 - sz.toNat := by
    rw [BitVec.toNat_neg]
    omega
  rw [BitVec.toInt_eq_toNat_cond, hneg]
  omega

/-- The first process calls `sbrk` by minus its size: its pages are gone, and its size is as before. -/
theorem sbrk_minus_size : ¬ ∀ (L : Layout) (s : State) (p : Fin nproc), (calls L).Reachable s →
    (s.proc p).state ≠ .unused → Covers s.mem (s.proc p).pgdir (s.proc p).sz.toNat ∧ Forkable L s p ∧
      ∀ n, GrowsClean L s p n := by
  intro hall
  obtain ⟨s, hs⟩ := booted_exists
  have hrun := hs.first.1
  have hused := ne_unused_of_runnable hrun
  obtain ⟨D, K, hsized⟩ := hs.sized
  obtain ⟨⟨D', K', hown⟩, -⟩ := hs.good
  have hspace := hsized.spaces initproc hused
  have hnull : ¬ HasNull s.mem (s.proc initproc).pgdir := fun ⟨v, hv, hp, h0⟩ =>
    hown.inv.frame _ (hown.dirs.mem initproc hused) v hv hp h0
  have hempties : Empties s initproc (-(s.proc initproc).sz) :=
    ⟨toInt_neg_lt hspace.pos hspace.size, BitVec.add_right_neg _⟩
  obtain ⟨r, t, hgrow, -, rfl, hproc, hgone⟩ :=
    ((hsized.growproc_empties hused hempties).mono (fun _ _ ht => ht) fun _ _ he => hnull he).returns
  have hstep := sbrk_run hgrow
  have ht : (calls smallKernel).Reachable t := .step (.init hs) (a := (initproc, _)) ⟨⟨hrun, trivial⟩, hstep⟩
  have hcov := (hall smallKernel t initproc ht (by rwa [hproc])).1 0
  rw [hproc] at hcov
  have h0 : 0 < (s.proc initproc).sz.toNat := Nat.pos_of_ne_zero fun h0 => hspace.pos (BitVec.eq_of_toNat_eq h0)
  exact hgone 0 (by omega) (hcov h0 rfl).2.2.1

end OperatingSystems.CowFork.Processes
