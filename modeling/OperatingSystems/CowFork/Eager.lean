import OperatingSystems.CowFork.Views

/-! # Copy-on-write against copying

Two kernels run the same processes from boot on: one forks with `cowuvm` and resolves write faults, the other
forks with `copyuvm`. Both come to what `Private` comes to, step by step (`Op.run_follows`), so to the same
(`cow_as_eager`). -/

namespace OperatingSystems.CowFork

open Lib.WeakestPre

variable {L : Layout} {N : Prop} {m m' : Mem} {D K : Finset ℕ} {d f : ℕ}

/-! ### The memory of the first process -/

theorem writeBytes_spec {bytes : List (BitVec 8)} :
    Wp (writeBytes f bytes) (fun _ m' => (∀ g, g ≠ f → m'.byte g = m.byte g) ∧ m'.refCnt = m.refCnt ∧
      m'.freelist = m.freelist ∧ m'.freePages = m.freePages ∧ m'.fails = m.fails) (fun _ _ => False) m := by
  unfold writeBytes
  rw [wp_modify]
  generalize bytes.zipIdx = bs
  induction bs generalizing m with
  | nil => exact ⟨fun _ _ => rfl, rfl, rfl, rfl, rfl⟩
  | cons b bs ih =>
    obtain ⟨hb, hrest⟩ := ih (m := m.setByte f b.2 b.1)
    exact ⟨fun g hg => (hb g hg).trans (Mem.byte_setByte_of_ne hg), hrest⟩

/-- Page 0 is set through a null pointer. -/
theorem Inv.fillNull {b : BitVec 8} (h : Inv L N m D K) : SameTables m (m.fill 0 b) D ∧ Inv L N (m.fill 0 b) D K := by
  have hsame : SameTables m (m.fill 0 b) D := sameTables_of_byte h.offTables_null fun g hg => Mem.byte_fill_of_ne hg
  exact ⟨hsame, h.of_same hsame h.counted h.outside h.freePages h.exclusive⟩

/-- `inituvm` maps one page. -/
theorem Inv.inituvm_spec {init : List (BitVec 8)} (h : Inv L False m D K) (hd : d ∈ D)
    (hempty : ∀ v < 160, ¬ present (entry m d v)) :
    Wp (inituvm d init) (fun _ m' => m.freelist.length ≤ m'.freelist.length + 1 ∧
      (m.freelist ≠ [] → m'.fails = m.fails) ∧ (m'.fails = m.fails → Inv L False m' D K ∧ ∀ v < 160, present (entry m' d v) ↔ v = 0))
      (fun _ _ => 4096 ≤ init.length) m := by
  unfold inituvm
  rw [wp_ite, wp_throw]
  refine ⟨id, fun _ => (h.kalloc_spec.mono (fun _ _ hr => hr) fun _ _ => False.elim).bind ?_⟩
  rintro r m₁ ⟨hbyte, ⟨rfl, hnil, rfl, h₁⟩ | ⟨hr, hfails, hlist, h₁, hnone, hcnt⟩⟩
  · obtain ⟨hsame, h₂⟩ := h₁.fillNull (b := 0)
    refine wp_bind.mpr (wp_memset.mpr (wp_bind.mpr (h₂.wp_mapUser (v := 0) hd (by omega) (fun hp => ?_) fun _ => ?_)))
    · rw [(hsame d hd).2 0 (by omega)] at hp
      exact absurd hp (hempty 0 (by omega))
    · refine writeBytes_spec.mono ?_ fun _ _ => False.elim
      rintro _ m' ⟨-, -, -, -, hf⟩
      have hf : m'.fails = m.fails + 1 := hf
      refine ⟨?_, fun hne => absurd hnil hne, fun heq => by omega⟩
      rw [hnil]
      exact Nat.zero_le _
  · have hb₁ : ∀ v < 160, ¬ present (entry (m₁.fill r 0) d v) := by
      intro v hv
      have hsame : SameTables m (m₁.fill r 0) D :=
        sameTables_of_byte (h.offTables_free (by rw [hlist]; exact List.mem_cons_self)) fun g hg => by
          rw [Mem.byte_fill_of_ne hg, hbyte]
      rw [(hsame d hd).2 v (by omega)]
      exact hempty v hv
    obtain ⟨h₂, hk₂⟩ := h₁.fresh (m₁.fill r 0) hbyte (fun g hg => Mem.byte_fill_of_ne hg) rfl rfl rfl
    refine wp_bind.mpr (wp_memset.mpr (wp_bind.mpr (h₂.wp_mapUser (v := 0) hd (by omega) (fun hp => ?_) fun habs => ?_)))
    · exact absurd hp (hb₁ 0 (by omega))
    · have hput := h.wroteFresh hlist hcnt hbyte hfails h₁ hnone hd (by omega) habs isFlags_pteW_pteU (by decide)
      have ht := hput.tables d hd
      refine writeBytes_spec.mono ?_ fun _ _ => False.elim
      rintro _ m' ⟨hb, hrc, hl, hfp, hf⟩
      have hlt : r < 2 ^ 20 := lt_of_managed (h₁.managed_of_holds (holds_kern_self (Finset.mem_insert_self _ _)))
      have hent := (ht.2 0 (by omega)).trans (if_pos ⟨rfl, rfl⟩)
      have hpage : pageOf (mkPte r (pteW ||| pteU)) = r := pageOf_mkPte hlt isFlags_pteW_pteU
      have hs := holds_user_self (K := K) hd (v := 0) (by omega) (by rw [hent]; exact present_mkPte)
        (by rw [hent, hpage]; exact hr)
      rw [hent, hpage] at hs
      have hsame := sameTables_of_byte (hput.inv.offTables_user hs) hb
      have hfree : (m'.freePages : ℕ) = m'.freelist.length := by
        rw [hfp, hl]
        exact hput.inv.freePages
      refine ⟨?_, fun _ => hf.trans hput.fails, fun _ => ⟨?_, fun v hv => ?_⟩⟩
      · have hl : m'.freelist = m₁.freelist := hl
        rw [hlist, List.length_cons, hl]
      · refine hput.inv.of_same hsame ?_ (fun g hg hg0 => ?_) hfree fun s g hs hg => ?_
        · rw [hrc, hl]
          exact hput.inv.counted
        · rw [hrc]
          exact hput.inv.outside g hg hg0
        · rw [hrc]
          exact hput.inv.exclusive s g hs hg
      · rw [(hsame d hd).2 v (by omega), ht.2 v (by omega)]
        split_ifs with hv0
        · exact iff_of_true present_mkPte hv0.2
        · exact iff_of_false (hempty v hv) fun h0 => hv0 ⟨rfl, h0⟩

end OperatingSystems.CowFork

namespace OperatingSystems.CowFork.Processes

open Lib.WeakestPre Lib.Transition ProcTable

variable {L : Layout} {dup : ℕ → ℕ → Kernel ℕ} {s t s₀ : State} {p : Fin nproc} {m : Mem} {op : Op} {tries : ℕ}
  {initcode : List (BitVec 8)}

/-- A table with one process, that has one page. -/
theorem good_first {q : Fin nproc} {c : Proc} (hproc : s.proc = Function.update (fun _ => unusedProc) q c)
    (hsz : c.sz = 4096#32) (hfile : ∀ fd, c.ofile fd = none)
    (hinv : Inv L False s.mem (insert c.pgdir ∅) (insert c.kstack ∅))
    (hpages : ∀ v < 160, present (entry s.mem c.pgdir v) ↔ v = 0) : Good L s := by
  have hnone : ∀ {page : Proc → ℕ}, Each (atBoot s.mem) page ∅ :=
    ⟨fun p hp => absurd rfl hp, fun p _ hp => absurd rfl hp⟩
  have hother : ∀ r, r ≠ q → s.proc r = (atBoot s.mem).proc r := fun r hr => by
    rw [hproc, Function.update_of_ne hr]
    rfl
  have hq : s.proc q = c := by rw [hproc, Function.update_self]
  refine ⟨⟨_, _, hinv, hnone.add hother (by rw [hq]) (Finset.notMem_empty _),
    hnone.add hother (by rw [hq]) (Finset.notMem_empty _)⟩, fun p => ?_⟩
  show ((s.proc p).bare).Sane (view s p)
  by_cases hp : p = q
  · subst hp
    have hsz' : c.sz.toNat = 4096 := by rw [hsz]; rfl
    rw [hq]
    refine ⟨fun _ h0 => ?_, fun _ => ?_, fun hused v => ?_, hfile⟩
    · have h0 : c.sz = 0#32 := h0
      rw [h0] at hsz'
      exact absurd hsz' (by decide)
    · show c.sz.toNat ≤ usertop
      rw [hsz']
      decide
    · show view s p v = none ↔ pgup c.sz.toNat ≤ v
      have hused' : (s.proc p).state ≠ .unused := by rw [hq]; exact hused
      rw [hsz', show pgup 4096 = 1 from rfl]
      rcases lt_or_ge v 160 with hv | hv
      · rw [view_of_used hused' hv, image_eq_none, hq, hpages v hv]
        omega
      · rw [view, if_neg fun h' => absurd h'.2 (by omega)]
        exact iff_of_true rfl (by omega)
  · rw [hother p hp]
    exact ⟨fun hu => absurd rfl hu, fun hu => absurd rfl hu, fun hu => absurd rfl hu, fun _ => rfl⟩

/-- **`userinit`** makes a process in order. With a few free pages nothing goes wrong. -/
theorem userinit_spec (h : Inv L False m ∅ ∅) :
    Wp (userinit L initcode) (fun _ s => m.freelist.length ≤ s.mem.freelist.length + 15 ∧
      (15 ≤ m.freelist.length → s.mem.fails = m.fails) ∧ (s.mem.fails = m.fails → Good L s ∧ (s.proc initproc).state = .runnable ∧
        (s.proc initproc).sz = 4096#32 ∧ ∀ q, q ≠ initproc → (s.proc q).state = .unused))
      (fun _ _ => 15 ≤ m.freelist.length → 4096 ≤ initcode.length) (atBoot m) := by
  have hnonzero : ∀ f ∈ (atBoot m).mem.freelist, f ≠ 0 := fun f hf =>
    ne_zero_of_managed ((h.counted.mem_free f).mp hf).1
  have hfirst : (List.finRange nproc).find? (fun q => ((atBoot m).proc q).state = .unused) = some initproc := rfl
  unfold userinit
  refine ((allocproc_spec hnonzero).and allocproc_first).mono (fun _ _ ht => ht) (fun _ _ he => he.1.elim) |>.bind ?_
  rintro r t ⟨hall, hr⟩
  cases hall with
  | full hfull => exact absurd rfl (hfull initproc)
  | @noStack np hnp hnil =>
    refine wp_throw.mpr fun hlen => ?_
    have hnil : m.freelist = [] := hnil
    rw [hnil, List.length_nil] at hlen
    omega
  | @entry np f next hnp hlist hf =>
    obtain rfl : initproc = np := by
      have := hr np rfl
      rw [hfirst] at this
      exact Option.some_inj.mp this
    obtain ⟨h₁, hnone⟩ := h.take hlist
    simp only [wp_bind, wp_paging]
    have hlen : m.freelist.length = next.length + 1 := by
      rw [show m.freelist = f :: next from hlist, List.length_cons]
    refine h₁.setupkvm_frame.mono ?_ fun _ _ => False.elim
    rintro d m₁ (⟨hnew, hempty, -, hf₁, hl₁⟩ | ⟨rfl, hun⟩)
    · simp only [modifyProc, idup, wp_modify, wp_ite, wp_throw, wp_bind, wp_paging,
        Function.update_self, Function.update_idem]
      refine ⟨fun h0 => absurd h0 hnew.ne_zero, fun _ => ?_⟩
      refine (hnew.inv.inituvm_spec (Finset.mem_insert_self _ _) hempty).mono ?_ fun _ _ he _ => he
      rintro _ m₂ ⟨hl₂, hmem, hgood⟩
      have hl₁ : next.length = m₁.freelist.length + 13 := hl₁
      have hf₁ : m₁.fails = m.fails := hf₁
      refine ⟨by omega, fun hle => (hmem fun hnil => ?_).trans hf₁, fun hfails => ?_⟩
      · rw [hnil, List.length_nil] at hl₁
        omega
      · obtain ⟨h₂, hpages⟩ := hgood (hfails.trans hf₁.symm)
        refine ⟨?_, trivial, trivial, fun q hq => ?_⟩
        swap
        · simp only [Function.update_of_ne hq]
          rfl
        have hproc : (atBoot m).proc = fun _ => unusedProc := rfl
        exact good_first (congrArg (Function.update · initproc _) hproc) rfl (fun _ => rfl) h₂ hpages
    · simp only [modifyProc, wp_modify, wp_ite, wp_throw, wp_bind, wp_paging]
      refine ⟨fun _ hle => ?_, fun h0 => absurd trivial h0⟩
      have hfew : next.length ≤ 12 := hun.few
      omega

theorem Booted.good (h : Booted L s) : Good L s := by
  obtain ⟨m₀, m, initcode, hblank, hkinit, huser, hfails⟩ := h
  have hinv : Inv L False m ∅ ∅ := ((kinit_spec hblank).of_ok hkinit).1
  exact (((userinit_spec hinv).of_ok huser).2.2 hfails).1

/-! ### Steps -/

/-- How often the handler runs for a step: a store that faults needs it once. -/
def Op.handlerRuns (s : State) (p : Fin nproc) : Op → ℕ
  | store va _ => if Faults s.mem (s.proc p).pgdir va.toNat true then 1 else 0
  | _ => 0

/-- `init` must not exit. -/
def Op.IsInitExit (p : Fin nproc) (op : Op) : Prop := p = initproc ∧ op = .exit

/-- **The step lemma**: whatever forks the address space, a step of the kernel is one of private processes. -/
theorem Op.run_follows (hdup : Forks L dup) (htries : 0 < tries) (h : Good L s) (hok : op.Ok s p) :
    Wp (op.run L dup tries p) (fun r t => t.mem.fails = s.mem.fails →
      Follows L s (s.abs.step p op) r.1 t ∧ r.2 = op.handlerRuns s p)
      (fun _ t => s.mem.fails < t.mem.fails ∨ op.IsInitExit p) s := by
  obtain ⟨hstate, hok⟩ := hok
  have hrun : (s.proc p).state ≠ .unused := by rw [hstate]; exact fun h' => by cases h'
  cases op with
  | fork =>
    refine ((forkWith_follows hdup h hrun).mono (fun _ _ hr => hr) fun _ _ he => .inl he).bind fun r t hr => ?_
    exact wp_pure.mpr fun hf => ⟨hr hf, rfl⟩
  | load va =>
    refine (load_follows h hrun hok).mono (fun r t hr _ => ⟨hr.1, hr.2.1⟩) fun _ _ => False.elim
  | store va b => exact (store_follows h hrun hok htries).mono (fun _ _ hr => hr) fun _ _ he => .inl he
  | sbrk n =>
    refine ((sbrk_follows h hrun hok).mono (fun _ _ hr => hr) fun _ _ => False.elim).bind fun r t hr => ?_
    exact wp_pure.mpr fun hf => ⟨hr hf, rfl⟩
  | exit =>
    refine ((exit_follows h hrun).mono (fun _ _ hr => hr) fun _ _ he => .inr ⟨he.1.2, rfl⟩).bind fun _ t hr => ?_
    exact wp_pure.mpr fun _ => ⟨hr.1, rfl⟩
  | wait =>
    refine ((wait_follows h).mono (fun _ _ hr => hr) fun _ _ => False.elim).bind fun r t hr => ?_
    cases r <;> exact wp_pure.mpr fun _ => ⟨hr.2, rfl⟩

/-! ### Runs -/

/-- A step of a process, what came of it, and how often the handler ran. -/
structure Event where
  proc : Fin nproc
  op : Op
  out : Out
  handlerRuns : ℕ

/-- Who did what. -/
def Event.act (e : Event) : Fin nproc × Op := (e.proc, e.op)

/-- The processes of a kernel that forks with `dup`, in any order, from boot on. An access runs the handler up to
`tries` times. No `kalloc` fails. -/
def processes (L : Layout) (dup : ℕ → ℕ → Kernel ℕ) (tries : ℕ) : System State Event where
  init := Booted L
  step s e t := e.op.Ok s e.proc ∧ e.op.run L dup tries e.proc s = .ok (e.out, e.handlerRuns) t ∧
    t.mem.fails = s.mem.fails

/-- A `kalloc` of the step fails. -/
def LacksMemory (L : Layout) (dup : ℕ → ℕ → Kernel ℕ) (tries : ℕ) (s : State) (p : Fin nproc) (op : Op) : Prop :=
  match op.run L dup tries p s with
  | .ok _ t => t.mem.fails ≠ s.mem.fails
  | .error _ t => t.mem.fails ≠ s.mem.fails

/-- The process can do it, unless a `kalloc` fails or `init` exits. -/
def Goes (L : Layout) (dup : ℕ → ℕ → Kernel ℕ) (tries : ℕ) (s : State) (p : Fin nproc) (op : Op) : Prop :=
  (∃ out n t, (processes L dup tries).step s ⟨p, op, out, n⟩ t) ∨ LacksMemory L dup tries s p op ∨ op.IsInitExit p

variable {dup' : ℕ → ℕ → Kernel ℕ} {es es' : List Event} {e : Event}

theorem processes_step (hdup : Forks L dup) (htries : 0 < tries) (h : Good L s)
    (hs : (processes L dup tries).step s e t) :
    Follows L s (s.abs.step e.proc e.op) e.out t ∧ e.handlerRuns = e.op.handlerRuns s e.proc :=
  (Op.run_follows hdup htries h hs.1).of_ok hs.2.1 hs.2.2

theorem processes_good (hdup : Forks L dup) (htries : 0 < tries) (h : Good L s₀)
    (hrun : (processes L dup tries).Run s₀ es s) : Good L s := by
  induction hrun with
  | nil => exact h
  | snoc _ hs ih => exact (processes_step hdup htries ih hs).1.good

theorem goes_of_good (hdup : Forks L dup) (htries : 0 < tries) (h : Good L s) (hok : op.Ok s p) :
    Goes L dup tries s p op := by
  have hspec := Op.run_follows hdup htries h hok
  unfold Goes LacksMemory
  cases hrun : op.run L dup tries p s with
  | ok r t =>
    by_cases hf : t.mem.fails = s.mem.fails
    · exact .inl ⟨r.1, r.2, t, hok, hrun, hf⟩
    · exact .inr (.inl hf)
  | error e t => exact .inr ((hspec.of_error hrun).imp_left fun hlt => hlt.ne')

/-- **The run lemma**: two kernels that do the same steps agree. -/
theorem processes_agree (hdup : Forks L dup) (hdup' : Forks L dup') (htries : 0 < tries) (h : Good L s₀)
    (hs : (processes L dup tries).Run s₀ es s) (ht : (processes L dup' tries).Run s₀ es' t)
    (hacts : es.map Event.act = es'.map Event.act) : es.map Event.out = es'.map Event.out ∧ s.abs = t.abs := by
  induction hs generalizing es' t with
  | nil =>
    cases ht with
    | nil => exact ⟨rfl, rfl⟩
    | snoc => simp at hacts
  | @snoc s u as a hs hstep ih =>
    cases ht with
    | nil => simp at hacts
    | @snoc t₁ _ bs b ht hstep' =>
      rw [List.map_append, List.map_append] at hacts
      obtain ⟨has, hab⟩ := List.append_inj' hacts rfl
      obtain ⟨houts, habs⟩ := ih ht has
      have hab : a.proc = b.proc ∧ a.op = b.op := by simpa [Event.act] using hab
      have h₁ := (processes_step hdup htries (processes_good hdup htries h hs) hstep).1
      have h₂ := (processes_step hdup' htries (processes_good hdup' htries h ht) hstep').1
      rw [hab.1, hab.2, habs] at h₁
      refine ⟨?_, h₁.abs_eq.trans h₂.abs_eq.symm⟩
      rw [List.map_append, List.map_append, houts, List.map_singleton, List.map_singleton, h₁.out_eq, h₂.out_eq]

/-- What a process may do depends on its private state only. -/
theorem ok_iff_of_abs (h : s.abs = t.abs) : op.Ok s p ↔ op.Ok t p := by
  have hp : (s.proc p).bare = (t.proc p).bare := congrFun (congrArg Private.proc h) p
  have hstate : (s.proc p).bare.state = (t.proc p).bare.state := congrArg Proc.state hp
  have hsz : (s.proc p).bare.sz = (t.proc p).bare.sz := congrArg Proc.sz hp
  simp only [Proc.bare] at hstate hsz
  unfold Op.Ok
  rw [hstate, hsz]

/-- There is a page below the size. -/
theorem Good.page_of_lt {va : Word} (h : Good L s) (hrun : (s.proc p).state = .runnable) (hva : va < (s.proc p).sz) :
    ∃ f, view s p (va.toNat / 4096) = some f := by
  have hused : (s.proc p).state ≠ .unused := by rw [hrun]; exact fun h' => by cases h'
  obtain ⟨hv, hpage⟩ := page_lt ((h.2 p).size hused) (BitVec.lt_def.mp hva)
  exact ⟨_, (view_of_used hused hv).trans (image_of_present (present_of_lt h.2 hused hv hpage))⟩

/-- A store leaves the pages of the others alone. -/
theorem store_view {q : Fin nproc} {va : Word} {b : BitVec 8} {out : Out} (hfol : Follows L s (s.abs.store p va b) out t)
    (hq : q ≠ p) : view t q = view s q := by
  have hpage : view t = _ := congrArg Private.page hfol.abs_eq
  rw [hpage]
  exact Function.update_of_ne hq ..

/-- **Copy-on-write is not visible**, in any run of a kernel that forks with `cowuvm` beside one that forks with
`copyuvm` and does the same steps. -/
structure AsEager (L : Layout) (tries : ℕ) (s₀ : State) : Prop where
  /-- every step comes to the same: a load gets the same byte -/
  outs : ∀ {es es' s t}, (processes L (cowuvm L) tries).Run s₀ es s → (processes L (copyuvm L) tries).Run s₀ es' t →
    es.map Event.act = es'.map Event.act → es.map Event.out = es'.map Event.out
  /-- the pages of every process have the same contents -/
  pages : ∀ {es es' s t}, (processes L (cowuvm L) tries).Run s₀ es s → (processes L (copyuvm L) tries).Run s₀ es' t →
    es.map Event.act = es'.map Event.act → ∀ p, view s p = view t p
  /-- whatever may be done next, neither kernel gets stuck over it -/
  next : ∀ {es es' s t}, (processes L (cowuvm L) tries).Run s₀ es s → (processes L (copyuvm L) tries).Run s₀ es' t →
    es.map Event.act = es'.map Event.act → ∀ p op, (op.Ok s p ↔ op.Ok t p) ∧
      (op.Ok s p → Goes L (cowuvm L) tries s p op ∧ Goes L (copyuvm L) tries t p op)
  /-- a load that is tried gets the byte that the process has there -/
  loads : ∀ {es s p va out n t}, (processes L (cowuvm L) tries).Run s₀ es s →
    (processes L (cowuvm L) tries).step s ⟨p, .load va, out, n⟩ t →
    ∃ f, view s p (va.toNat / 4096) = some f ∧ out = .byte (f (va.toNat % 4096))
  /-- a store is not seen by another process -/
  alone : ∀ {es s p va b out n t}, (processes L (cowuvm L) tries).Run s₀ es s →
    (processes L (cowuvm L) tries).step s ⟨p, .store va b, out, n⟩ t → ∀ q, q ≠ p → view t q = view s q
  /-- a store that faults is done after one run of the handler -/
  once : ∀ {es s p va b out n t}, (processes L (cowuvm L) tries).Run s₀ es s →
    (processes L (cowuvm L) tries).step s ⟨p, .store va b, out, n⟩ t →
    out = .done ∧ n = if Faults s.mem (s.proc p).pgdir va.toNat true then 1 else 0

/-- A kernel whose processes are in order does not show how it forks. -/
theorem Good.asEager (h : Good L s₀) (htries : 0 < tries) : AsEager L tries s₀ := by
  have hcow : Forks L (cowuvm L) := forks_cowuvm
  have hcopy : Forks L (copyuvm L) := forks_copyuvm
  constructor
  case outs => exact fun hs ht hacts => (processes_agree hcow hcopy htries h hs ht hacts).1
  case pages =>
    intro es es' s t hs ht hacts p
    have habs := (processes_agree hcow hcopy htries h hs ht hacts).2
    exact congrFun (congrArg Private.page habs) p
  case next =>
    intro es es' s t hs ht hacts p op
    have hiff : op.Ok s p ↔ op.Ok t p := ok_iff_of_abs (processes_agree hcow hcopy htries h hs ht hacts).2
    exact ⟨hiff, fun hok => ⟨goes_of_good hcow htries (processes_good hcow htries h hs) hok,
      goes_of_good hcopy htries (processes_good hcopy htries h ht) (hiff.mp hok)⟩⟩
  case loads =>
    intro es s p va out n t hs hstep
    have hgood := processes_good hcow htries h hs
    have hout : out = (s.abs.load p va).1 := (processes_step hcow htries hgood hstep).1.out_eq
    obtain ⟨f, hf⟩ := hgood.page_of_lt hstep.1.1 hstep.1.2
    refine ⟨f, hf, hout.trans ?_⟩
    unfold Private.load
    rw [show s.abs.page p (va.toNat / 4096) = some f from hf]
  case alone =>
    intro es s p va b out n t hs hstep q hq
    exact store_view (processes_step hcow htries (processes_good hcow htries h hs) hstep).1 hq
  case once =>
    intro es s p va b out n t hs hstep
    obtain ⟨hfol, hn⟩ := processes_step hcow htries (processes_good hcow htries h hs) hstep
    exact ⟨hfol.out_eq, hn⟩

/-- **Copy-on-write fork refines eager fork.** -/
theorem cow_as_eager (hboot : Booted L s₀) (htries : 0 < tries) : AsEager L tries s₀ := hboot.good.asEager htries

/-- A kernel that has just started, with many free pages. -/
theorem booted_pages : ∃ s, Booted smallKernel s ∧ 2780 ≤ s.mem.freelist.length := by
  obtain ⟨_, m, hrun, hinv, hlen, -⟩ :=
    (kinit_spec (L := smallKernel) (m := ⟨fun _ _ => 0, [], 0, fun _ => 0, 0⟩) ⟨rfl, fun _ => rfl⟩).returns
  have hmany : 2795 ≤ m.freelist.length := by
    rw [hlen]
    decide
  have hfree : 15 ≤ m.freelist.length := by omega
  have hspec : Wp (userinit smallKernel []) _ _ (atBoot m) := userinit_spec hinv
  obtain ⟨_, s, hs, hQ⟩ := (hspec.mono (fun _ _ h => h) fun _ _ h => absurd (h hfree) (by decide)).returns
  have hleft := hQ.1
  exact ⟨s, ⟨_, m, [], ⟨rfl, fun _ => rfl⟩, hrun, hs, hQ.2.1 hfree⟩, by omega⟩

theorem booted_exists : ∃ s, Booted smallKernel s :=
  let ⟨s, hs, _⟩ := booted_pages
  ⟨s, hs⟩

theorem cow_as_eager_once : ∃ s, Booted smallKernel s ∧ AsEager smallKernel 1 s :=
  let ⟨s, hs⟩ := booted_exists
  ⟨s, hs, cow_as_eager hs Nat.one_pos⟩

end OperatingSystems.CowFork.Processes
