import OperatingSystems.CowFork.Forking
import OperatingSystems.Lib.Transition

/-! # Reference counts over whole runs

The allocator and the paging code as a transition system from `kinit` on: a step is one call of the kernel,
with the live directories and the pages that the kernel owns as ghosts. The calls are those their callers
make: on a live directory, with sizes of processes, and `kfree` on a page that the kernel owns. Steps in
which `setupkvm` or the handler runs out of memory are left out. -/

namespace OperatingSystems.CowFork

open Lib.RefCount Lib.WeakestPre Lib.Transition

variable {L : Layout} {m m' : Mem} {D K : Finset ℕ} {d v f : ℕ}

/-! ### The start -/

/-- `kmem` before `kinit`. -/
def Blank (m : Mem) : Prop := m.freelist = [] ∧ ∀ f, m.refCnt f = 0

/-- The pages `lo ≤ f < hi` are free, and nothing else is. -/
structure FreeRange (m : Mem) (lo hi : ℕ) : Prop where
  nodup : m.freelist.Nodup
  mem_iff : ∀ f, f ∈ m.freelist ↔ lo ≤ f ∧ f < hi
  refCnt : ∀ f, m.refCnt f = 0
  freePages : m.freePages = m.freelist.length

theorem FreeRange.kfreeInit_spec {lo p : ℕ} (h : FreeRange m lo p) (hlo : lo ≤ p) (hp : L.kend ≤ p * 4096)
    (hhi : p < 4096) :
    Wp (kfreeInit L p) (fun _ m' => FreeRange m' lo (p + 1) ∧ m'.fails = m.fails) (fun _ _ => False) m := by
  unfold kfreeInit phystop
  rw [if_neg (by omega), wp_modify]
  refine ⟨⟨?_, fun f => ?_, fun f => ?_, congrArg (· + 1) h.freePages⟩, rfl⟩
  · refine List.nodup_cons.mpr ⟨fun hmem => ?_, h.nodup⟩
    have := (h.mem_iff p).mp hmem
    omega
  · rw [List.mem_cons, h.mem_iff]
    omega
  · rcases eq_or_ne f p with rfl | hf
    · exact Function.update_self ..
    · exact (Function.update_of_ne hf _ _).trans (h.refCnt f)

theorem FreeRange.kinitLoop_spec {lo p n : ℕ} (h : FreeRange m lo p) (hlo : lo ≤ p) (hp : L.kend ≤ p * 4096)
    (hhi : p + n ≤ 4096) :
    Wp (kinitLoop L n p) (fun _ m' => FreeRange m' lo (p + n) ∧ m'.fails = m.fails) (fun _ _ => False) m := by
  induction n generalizing p m with
  | zero => exact wp_pure.mpr ⟨h, rfl⟩
  | succ n ih =>
    rw [kinitLoop]
    refine (h.kfreeInit_spec hlo hp (by omega)).bind ?_
    rintro _ m₁ ⟨h₁, hf₁⟩
    have hnext : L.kend ≤ (p + 1) * 4096 := hp.trans (Nat.mul_le_mul_right _ (Nat.le_succ p))
    refine (ih h₁ (by omega) hnext (by omega)).imp ?_
    rintro _ m' ⟨h', hf'⟩
    refine ⟨?_, hf'.trans hf₁⟩
    rwa [show p + (n + 1) = p + 1 + n by omega]

/-- With all pages free, nobody holds one. -/
theorem FreeRange.inv (h : FreeRange m (pgup L.kend) 4096) : Inv L False m ∅ ∅ := by
  have hnone : ∀ s, holds m ∅ ∅ s = none := by
    rintro (_ | _ | _ | _) <;> simp [holds]
  constructor
  case counted =>
    refine ⟨fun f => ?_, fun s f hs => absurd hs (by simp [hnone]), h.nodup, fun f => ?_⟩
    · simp [refs, hnone, h.refCnt]
    · rw [h.mem_iff, h.refCnt]
      unfold managed pgup
      simp only [Set.mem_ofPred_eq, and_true]
      omega
  case outside => exact fun f _ _ => h.refCnt f
  case freePages => exact h.freePages
  case exclusive => exact fun s f _ hs => absurd hs (by simp [hnone])
  case userAccess => exact fun d hd => absurd hd (Finset.notMem_empty d)
  case root => exact fun d hd => absurd hd (Finset.notMem_empty d)
  case rootUser => exact fun d hd => absurd hd (Finset.notMem_empty d)
  case table => exact fun d hd => absurd hd (Finset.notMem_empty d)
  case frame => exact fun d hd => absurd hd (Finset.notMem_empty d)
  case kernelRo => exact fun d hd => absurd hd (Finset.notMem_empty d)
  case aligned => exact fun d v d' v' f hs => absurd hs (by simp [hnone])

/-- **`kinit`** makes a ledger without holders. -/
theorem kinit_spec (h : Blank m) :
    Wp (kinit L) (fun _ m' => Inv L False m' ∅ ∅ ∧ m'.freelist.length = 4096 - pgup L.kend ∧
      m'.fails = m.fails) (fun _ _ => False) m := by
  have hle : pgup L.kend ≤ 4096 := by
    have := L.end_lt_phystop
    unfold pgup
    omega
  have hfree : FreeRange { m with freePages := 0 } (pgup L.kend) (pgup L.kend) := by
    refine ⟨?_, fun f => ?_, h.2, ?_⟩
    · rw [show ({ m with freePages := 0 } : Mem).freelist = [] from h.1]
      exact List.nodup_nil
    · rw [show ({ m with freePages := 0 } : Mem).freelist = [] from h.1]
      simp only [List.not_mem_nil, false_iff]
      omega
    · exact (congrArg List.length h.1).symm
  unfold kinit
  rw [wp_bind, wp_modify]
  refine (hfree.kinitLoop_spec (L := L) le_rfl (by unfold pgup; omega) (by unfold phystop; omega)).imp ?_
  rintro _ m' ⟨h', hf⟩
  rw [show pgup L.kend + (phystop / 4096 - pgup L.kend) = 4096 by unfold phystop; omega] at h'
  refine ⟨h'.inv, ?_, hf⟩
  have hset : m'.freelist.toFinset = Finset.Ico (pgup L.kend) 4096 := by
    ext f
    rw [List.mem_toFinset, h'.mem_iff, Finset.mem_Ico]
  rw [← List.toFinset_card_of_nodup h'.nodup, hset, Nat.card_Ico]

/-! ### The system -/

/-- The memory, with the live directories and the pages that the kernel owns. -/
structure Pool where
  mem : Mem
  live : Finset ℕ
  kern : Finset ℕ

/-- The calls. -/
inductive Call where
  | kalloc
  | kfree (f : ℕ)
  | setupkvm
  | allocuvm (d oldsz newsz : ℕ)
  | deallocuvm (d oldsz newsz : ℕ)
  | cowuvm (d sz : ℕ)
  | pgfltintr (d va : ℕ)
  | freevm (d : ℕ)

def Call.run (L : Layout) : Call → Kernel ℕ
  | kalloc => CowFork.kalloc
  | kfree f => do
    CowFork.kfree L f
    return 0
  | setupkvm => CowFork.setupkvm L
  | allocuvm d oldsz newsz => CowFork.allocuvm L d oldsz newsz
  | deallocuvm d oldsz newsz => CowFork.deallocuvm L d oldsz newsz
  | cowuvm d sz => CowFork.cowuvm L d sz
  | pgfltintr d va => do
    CowFork.pgfltintr d va
    return 0
  | freevm d => do
    CowFork.freevm L d
    return 0

/-- What the callers see to. -/
def Call.Ok (s : Pool) : Call → Prop
  | kalloc => True
  | kfree f => f ∈ s.kern
  | setupkvm => True
  | allocuvm d _ _ => d ∈ s.live
  | deallocuvm d oldsz _ => d ∈ s.live ∧ oldsz ≤ usertop
  | cowuvm d sz => d ∈ s.live ∧ sz ≤ usertop
  | pgfltintr d va => d ∈ s.live ∧ va < 2 ^ 32
  | freevm d => d ∈ s.live

/-- `setupkvm` and the handler got the pages they asked for. -/
def Call.HasMemory (m m' : Mem) : Call → Prop
  | setupkvm => m'.fails = m.fails
  | cowuvm _ _ => m'.fails = m.fails
  | pgfltintr _ _ => m'.fails = m.fails
  | _ => True

/-- Who has what after a call that returned `r`. -/
def Call.after (s : Pool) (r : ℕ) (m' : Mem) : Call → Pool
  | kalloc => ⟨m', s.live, if r = 0 then s.kern else insert r s.kern⟩
  | kfree f => ⟨m', s.live, s.kern.erase f⟩
  | setupkvm => ⟨m', insert r s.live, s.kern⟩
  | allocuvm _ _ _ => ⟨m', s.live, s.kern⟩
  | deallocuvm _ _ _ => ⟨m', s.live, s.kern⟩
  | cowuvm _ _ => ⟨m', insert r s.live, s.kern⟩
  | pgfltintr _ _ => ⟨m', s.live, s.kern⟩
  | freevm d => ⟨m', s.live.erase d, s.kern⟩

/-- The runs of the allocator and the paging code. -/
def pool (L : Layout) : System Pool Call where
  init s := ∃ m₀ m, Blank m₀ ∧ kinit L m₀ = .ok () m ∧ s = ⟨m, ∅, ∅⟩
  step s c s' := ∃ r m', c.Ok s ∧ c.run L s.mem = .ok r m' ∧ c.HasMemory s.mem m' ∧ s' = c.after s r m'

/-- The panics that say that the counts are wrong. -/
def Panic.IsCount : Panic → Prop
  | kfree => True
  | kfreeCount => True
  | deallocuvm => True
  | _ => False

/-- **The step lemma**: a call that has its memory keeps the ledger, and no call panics over a count. -/
theorem Call.spec {s : Pool} (h : Inv L False s.mem s.live s.kern) (c : Call) (hc : c.Ok s) :
    Wp (c.run L) (fun r m' => c.HasMemory s.mem m' →
      Inv L False (c.after s r m').mem (c.after s r m').live (c.after s r m').kern) (fun e _ => ¬ e.IsCount)
      s.mem := by
  rcases c with _ | f | _ | ⟨d, oldsz, newsz⟩ | ⟨d, oldsz, newsz⟩ | ⟨d, sz⟩ | ⟨d, va⟩ | d
  · refine h.kalloc_spec.mono ?_ fun _ _ => False.elim
    rintro r m' ⟨-, ⟨rfl, -, -, h'⟩ | ⟨hr, -, -, h', -⟩⟩ -
    · exact h'
    · rwa [after, if_neg hr]
  · refine Wp.bind ((h.kfree_spec hc).mono (fun _ _ hr => hr) fun _ _ => False.elim) ?_
    rintro _ m' ⟨h', -⟩
    exact wp_pure.mpr fun _ => h'
  · refine h.setupkvm_spec.mono ?_ fun _ _ => False.elim
    rintro r m' (⟨hnew, -⟩ | ⟨-, hf, -⟩) hmem
    · exact hnew.inv
    · rw [HasMemory] at hmem
      omega
  · refine (h.allocuvm_spec hc).mono (fun r m' h' _ => h'.1) ?_
    rintro e _ (⟨rfl, -⟩ | ⟨-, hN⟩)
    · exact id
    · exact hN.elim
  · exact (h.deallocuvm_spec newsz hc.1 hc.2).mono (fun r m' h' _ => h'.2.1) fun _ _ he => he.2.elim
  · refine (forks_cowuvm h hc.1 hc.2).mono ?_ ?_
    · rintro r m' (⟨hnew, -⟩ | ⟨-, hf, -⟩) hmem
      · exact hnew.inv
      · rw [HasMemory] at hmem
        omega
    · rintro e _ ⟨rfl | rfl, -⟩ <;> exact id
  · refine Wp.bind ((h.pgfltintr_spec hc.1 hc.2).mono (fun _ _ hr => hr) ?_) ?_
    · rintro e _ (⟨rfl, -⟩ | ⟨rfl, -⟩) <;> exact id
    · rintro _ m' ⟨-, -, hres, -⟩
      exact wp_pure.mpr fun hmem => (hres (.inl hmem)).inv
  · refine Wp.bind ((h.freevm_spec hc).mono (fun _ _ hr => hr) fun _ _ he => he.2.elim) ?_
    rintro _ m' ⟨h', -⟩
    exact wp_pure.mpr fun _ => h'

/-- **The run lemma**: the ledger is kept in every run. -/
theorem pool_inv {s : Pool} (h : (pool L).Reachable s) : Inv L False s.mem s.live s.kern := by
  refine h.invariant (I := fun s => Inv L False s.mem s.live s.kern) ?_ ?_
  · rintro s ⟨m₀, m, hblank, hinit, rfl⟩
    exact ((kinit_spec hblank).of_ok hinit).1
  · rintro s c t - hs ⟨r, m', hok, hrun, hmem, rfl⟩
    exact (c.spec hs hok).of_ok hrun hmem

/-! ### What the counts say -/

/-- The present entries below `USERTOP`, over all live directories, that point at `f`. -/
def userRefs (s : Pool) (f : ℕ) : Set (ℕ × ℕ) :=
  {p | p.1 ∈ s.live ∧ p.2 * 4096 < usertop ∧ present (entry s.mem p.1 p.2) ∧ pageOf (entry s.mem p.1 p.2) = f}

/-- The kernel's owners of `f`: a directory, an entry of a directory that has it as its table, or the kernel
itself. -/
def kernelRefs (s : Pool) (f : ℕ) : Set Slot :=
  {o | (∀ d v, o ≠ .user d v) ∧ holds s.mem s.live s.kern o = some f}

theorem refs_eq_add (s : Pool) (hf0 : f ≠ 0) :
    refs (holds s.mem s.live s.kern) f = (userRefs s f).encard + (kernelRefs s f).encard := by
  have hinj : Function.Injective fun p : ℕ × ℕ => Slot.user p.1 p.2 := by
    rintro ⟨a, b⟩ ⟨c, d⟩ h
    simpa using h
  rw [← hinj.encard_image, refs, ← Set.encard_union_eq]
  · congr 1
    ext o
    simp only [Set.mem_ofPred_eq, Set.mem_union, Set.mem_image, userRefs, kernelRefs, Prod.exists]
    constructor
    · intro ho
      rcases o with g | d | ⟨d, j⟩ | ⟨d, v⟩
      · exact .inr ⟨by simp, ho⟩
      · exact .inr ⟨by simp, ho⟩
      · exact .inr ⟨by simp, ho⟩
      · obtain ⟨⟨hd, hv⟩, hp, -, hf⟩ := holds_user.mp ho
        exact .inl ⟨d, v, ⟨hd, by unfold usertop; omega, hp, hf⟩, rfl⟩
    · rintro (⟨d, v, ⟨hd, hv, hp, hf⟩, rfl⟩ | ⟨-, ho⟩)
      · exact holds_user.mpr ⟨⟨hd, by unfold usertop at hv; omega⟩, hp, hf0, hf⟩
      · exact ho
  · rw [Set.disjoint_left]
    rintro _ ⟨p, -, rfl⟩ ⟨hne, -⟩
    exact hne p.1 p.2 rfl

/-- The counts are right: `ref_cnt` of a page of the allocator is the number of user entries that map it and
of its kernel owners; the free list has the pages with count 0, once each, and `free_pages` of them; a page
that a process can write has count 1; no call panics over a count, and `kalloc` hands out no mapped page. -/
structure CountsRight (L : Layout) (s : Pool) : Prop where
  refCnt_eq : ∀ f ∈ managed L, (s.mem.refCnt f : ℕ∞) = (userRefs s f).encard + (kernelRefs s f).encard
  free_once : ∀ f ∈ managed L, s.mem.freelist.count f = if s.mem.refCnt f = 0 then 1 else 0
  free_managed : ∀ f ∈ s.mem.freelist, f ∈ managed L
  freePages_eq : s.mem.freePages = s.mem.freelist.length
  writable_one : ∀ d ∈ s.live, ∀ v, v * 4096 < usertop → present (entry s.mem d v) →
    writable (entry s.mem d v) → s.mem.refCnt (pageOf (entry s.mem d v)) = 1
  no_panic : ∀ c : Call, c.Ok s → ∀ e m', c.run L s.mem = .error e m' → ¬ e.IsCount
  kalloc_unmapped : ∀ f m', kalloc s.mem = .ok f m' → f ≠ 0 → userRefs s f = ∅

theorem lt_of_lt_usertop (hv : v * 4096 < usertop) : v < 160 := by
  unfold usertop at hv
  omega

/-- **The reference-count invariant**: in every run from `kinit` the counts are right. -/
theorem ref_cnt_counts {s : Pool} (h : (pool L).Reachable s) : CountsRight L s := by
  have hinv := pool_inv h
  constructor
  case refCnt_eq =>
    intro f hf
    rw [hinv.counted.count_eq f hf, refs_eq_add s (ne_zero_of_managed hf)]
  case free_once =>
    intro f hf
    rw [hinv.counted.nodup.count]
    simp only [hinv.counted.mem_free, hf, true_and]
  case free_managed => exact fun f hf => ((hinv.counted.mem_free f).mp hf).1
  case freePages_eq => exact hinv.freePages
  case writable_one =>
    intro d hd v hv hp hw
    have hv' := lt_of_lt_usertop hv
    exact hinv.exclusive (.user d v) _ hw (Inv.holds_user_self hd hv' hp (hinv.frame d hd v hv' hp))
  case no_panic => exact fun c hc e m' hrun => (c.spec hinv hc).of_error hrun
  case kalloc_unmapped =>
    intro f m' hrun hf
    obtain ⟨-, ⟨hr, -⟩ | ⟨-, -, -, -, hnone, -⟩⟩ := hinv.kalloc_spec.of_ok hrun
    · exact absurd hr hf
    · rw [Set.eq_empty_iff_forall_notMem]
      rintro ⟨d, v⟩ ⟨hd, hv, hp, hpage⟩
      exact hnone _ (holds_user.mpr ⟨⟨hd, lt_of_lt_usertop hv⟩, hp, hf, hpage⟩)

/-! ### A run with a shared page -/

/-- A kernel that ends below page 272. -/
def smallKernel : Layout where
  data := 264
  kend := 272 * 4096
  text_lt_data := by decide
  data_le_end := by decide
  end_lt_phystop := by decide

/-- A call that cannot stop and has its memory is a step. -/
theorem pool_step {s : Pool} (h : (pool L).Reachable s) {c : Call} (hc : c.Ok s) {Q : ℕ → Mem → Prop}
    (hwp : Wp (c.run L) Q (fun _ _ => False) s.mem) (hmem : ∀ r m', Q r m' → c.HasMemory s.mem m') :
    ∃ r m', Q r m' ∧ (pool L).Reachable (c.after s r m') := by
  obtain ⟨r, m', hrun, hQ⟩ := hwp.returns
  exact ⟨r, m', hQ, h.step ⟨r, m', hc, hrun, hmem r m' hQ, rfl⟩⟩

/-- After `setupkvm` there is a directory without user pages. -/
theorem empty_reachable : ∃ s d, (pool smallKernel).Reachable s ∧ d ∈ s.live ∧ (∀ v < 160, image s.mem d v = none) ∧
    2799 ≤ s.mem.freelist.length := by
  obtain ⟨_, m, hrun, hinv, hlen, -⟩ :=
    (kinit_spec (L := smallKernel) (m := ⟨fun _ _ => 0, [], 0, fun _ => 0, 0⟩) ⟨rfl, fun _ => rfl⟩).returns
  have hfree : m.freelist.length = 3824 := hlen
  have h₀ : (pool smallKernel).Reachable ⟨m, ∅, ∅⟩ := .init ⟨_, m, ⟨rfl, fun _ => rfl⟩, hrun, rfl⟩
  obtain ⟨d, m₁, ⟨-, hempty, -, hl₁⟩, h₁⟩ := pool_step h₀ (c := .setupkvm) trivial
    (hinv.setupkvm_spec.imp fun r m' h' => h'.resolve_right fun hbad => by
      have := hbad.2.2.1
      omega) fun r m' h' => h'.2.2.1
  refine ⟨_, d, h₁, Finset.mem_insert_self _ _, hempty, ?_⟩
  show 2799 ≤ m₁.freelist.length
  omega

/-- After `setupkvm`, `allocuvm` and `cowuvm`, two directories share a page. -/
theorem shared_reachable : ∃ s d e, (pool smallKernel).Reachable s ∧ d ∈ s.live ∧ e ∈ s.live ∧ d ≠ e ∧
    image s.mem d 0 = some (fun _ => 0) ∧ image s.mem e 0 = some (fun _ => 0) ∧ Shared s.mem d e 0 := by
  obtain ⟨⟨m₁, D₁, K₁⟩, d, h₁, hd, hempty, hfree₁⟩ := empty_reachable
  have hfree : 2799 ≤ m₁.freelist.length := hfree₁
  obtain ⟨r, m₂, ⟨-, hl, hok⟩, h₂⟩ := pool_step h₁ (c := .allocuvm d 0 4096) hd
    ((pool_inv h₁).allocuvm_spec hd |>.mono (fun r m' h' => h') fun e _ h' => by
      obtain ⟨-, v, -, hv, -, hne⟩ := h'.resolve_right fun hbad => hbad.2
      exact hne (hempty v (hv.trans (by decide)))) fun _ _ _ => trivial
  obtain ⟨-, -, hbad⟩ | ⟨-, -, -, hfill⟩ | ⟨-, -, hbad, -⟩ := hok
  · exact absurd hbad (by decide)
  swap
  · exact absurd hbad (by
      show ¬ m₁.freelist.length < 160
      omega)
  have himg : image m₂ d 0 = some fun _ => 0 := (hfill d hd 0 (by omega)).trans (if_pos ⟨rfl, by decide⟩)
  have hwp := (forks_cowuvm (pool_inv h₂) hd (show 4096 ≤ usertop by decide)).and
    ((pool_inv h₂).cowuvm_shares hd (show 4096 ≤ usertop by decide))
  obtain ⟨e, m₃, ⟨⟨hnew₃, hcopy, hf₃, -⟩, hshared⟩, h₃⟩ := pool_step h₂ (c := .cowuvm d 4096) ⟨hd, by decide⟩
    (hwp.mono (fun r m' h' => h'.imp_left fun hor => hor.resolve_right fun hbad => by
      have : m₂.freelist.length < 1185 := hbad.2.2
      have : m₁.freelist.length ≤ m₂.freelist.length + 160 := hl
      omega) fun e _ h' => by
        obtain ⟨⟨-, v, hv, hnone⟩, -⟩ := h'
        have hv0 : v = 0 := by
          have : pgup 4096 = 1 := rfl
          omega
        rw [hv0] at hnone
        exact absurd (himg.symm.trans hnone) (by simp)) fun r m' h' => h'.1.2.2.1
  refine ⟨_, d, e, h₃, Finset.mem_insert_of_mem hd, Finset.mem_insert_self _ _, ?_, ?_, ?_⟩
  · rintro rfl
    exact hnew₃.notLive hd
  · exact (hnew₃.kept d hd 0 (by omega)).trans himg
  · exact ⟨(hcopy 0 (by omega)).trans ((if_pos (by decide)).trans himg), hshared hnew₃.ne_zero 0 (by decide)⟩

theorem ref_cnt_counts_shared : ∃ s d e, d ∈ s.live ∧ e ∈ s.live ∧ d ≠ e ∧
    image s.mem d 0 = some (fun _ => 0) ∧ image s.mem e 0 = some (fun _ => 0) ∧ CountsRight smallKernel s := by
  obtain ⟨s, d, e, h, hd, he, hne, himg, himg', -⟩ := shared_reachable
  exact ⟨s, d, e, hd, he, hne, himg, himg', ref_cnt_counts h⟩

end OperatingSystems.CowFork
