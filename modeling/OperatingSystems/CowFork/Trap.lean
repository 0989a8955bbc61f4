import OperatingSystems.CowFork.Counting

/-! # Page faults that are not copy-on-write faults

`trap` for a page fault, and which user accesses fault. The handler looks at the present bit and the write
bit of the entry alone, and marks the process killed only where it panics.

* `KillsOffender`: the process exits, and every entry is as before.
* `kills_offender_iff`: that happens to a process that was killed before, and nowhere else. -/

namespace OperatingSystems.CowFork

open Lib.WeakestPre Lib.Transition

variable {m m' : Mem} {d va : ℕ} {E : Panic → Mem → Prop}

/-- Where `trap` leaves the process: back in user space, or in `exit`. -/
inductive Next where
  | resume
  | exit
  deriving DecidableEq

/-- `trap` with `T_PGFLT`. `user` is `(tf->cs & 3) == DPL_USER`, and `killed` is that of the process, which
the handler changes only before a panic. -/
def trap (user killed : Bool) (pgdir va : ℕ) : Kernel Next := do
  pgfltintr pgdir va
  if killed ∧ user then return .exit else return .resume

/-- The hardware lets no user access through here. -/
def Faults (m : Mem) (d va : ℕ) (write : Bool) : Prop :=
  ¬ (present (m.word d (pdx va)) ∧ userOk (m.word d (pdx va)) ∧ present (entry m d (va / 4096)) ∧
    userOk (entry m d (va / 4096)) ∧
    (write → writable (m.word d (pdx va)) ∧ writable (entry m d (va / 4096))))

/-- The fault is a write to a present read-only page of the user. -/
def CowFault (m : Mem) (d va : ℕ) (write : Bool) : Prop :=
  write ∧ present (entry m d (va / 4096)) ∧ userOk (entry m d (va / 4096)) ∧
    ¬ writable (entry m d (va / 4096))

/-- `pgfltintr` goes on to change the entry. -/
def Rewrites (m : Mem) (d va : ℕ) : Prop :=
  present (entry m d (va / 4096)) ∧ ¬ writable (entry m d (va / 4096))

/-- The process is killed and exits, without a panic, and every entry of every directory is as before. -/
def KillsOffender (m : Mem) (d : ℕ) (va : Word) (killed : Bool) : Prop :=
  ∃ m', trap true killed d va.toNat m = .ok .exit m' ∧
    ∀ e, (∀ j < 1024, m'.word e j = m.word e j) ∧ ∀ v < 2 ^ 20, entry m' e v = entry m e v

/-- **What the handler does to the entry**: nothing, or it sets the write bit. -/
theorem pgfltintr_entry (hva : va < 2 ^ 32) :
    Wp (pgfltintr d va) (fun _ m' => present (m.word d (pdx va)) ∧ (¬ Rewrites m d va → m' = m) ∧
      (Rewrites m d va → writable (m'.word (pageOf (m.word d (pdx va))) (ptx va)))) (fun _ _ => True) m := by
  unfold pgfltintr
  refine wp_bind.mpr (wp_walkpgdir_false (fun hpde => ?_) fun _ => wp_throw.mpr trivial)
  simp only [wp_bind, wp_readPte, wp_ite, wp_pure, wp_getRefCnt, wp_writePte, ← entry_va hva hpde,
    writable_pteFlags, present_pteFlags]
  refine ⟨fun hr => ?_, fun hno => ⟨hpde, fun _ => trivial, fun hr => ?_⟩⟩
  obtain ⟨hw, hp⟩ := hr
  refine ⟨fun _ => ?_, fun _ => ?_⟩
  · refine Wp.trivial.imp fun r m₁ _ => ?_
    refine Wp.bind Wp.trivial fun _ m₂ _ => ?_
    rw [wp_bind, wp_decRefCnt, wp_writePte, Mem.word_setWord_self, ← BitVec.or_assoc]
    exact ⟨hpde, fun hno => absurd ⟨hp, hw⟩ hno, fun _ => writable_or_pteW⟩
  · rw [Mem.word_setWord_self]
    exact ⟨hpde, fun hno => absurd ⟨hp, hw⟩ hno, fun _ => writable_or_pteW⟩
  · exact absurd ⟨hr.2, hr.1⟩ hno

/-- Where the handler sets the write bit, not every entry is as before. -/
theorem Rewrites.ne (h : Rewrites m d va) (hva : va < 2 ^ 32)
    (hw : writable (m'.word (pageOf (m.word d (pdx va))) (ptx va))) (hdir : ∀ j < 1024, m'.word d j = m.word d j)
    (hentry : ∀ v < 2 ^ 20, entry m' d v = entry m d v) : False := by
  have hpde : present (m.word d (pdx va)) := by
    have := present_dir_of_entry h.1
    rwa [show va / 4096 / 1024 = pdx va by unfold pdx; omega] at this
  have hword := hdir (pdx va) pdx_lt
  refine h.2 ?_
  rw [← hentry _ (by omega), entry_va hva (by rwa [hword]), hword]
  exact hw

/-- **A page fault kills the process** and leaves the entries alone exactly when the process was killed
before and the handler finds an entry it passes over. -/
theorem kills_offender_iff (m : Mem) (d : ℕ) (va : Word) (killed : Bool) :
    KillsOffender m d va killed ↔
      killed = true ∧ present (m.word d (pdx va.toNat)) ∧ ¬ Rewrites m d va.toNat := by
  have hva := va.isLt
  have hspec := pgfltintr_entry (m := m) (d := d) hva
  constructor
  · rintro ⟨m', hrun, hsame⟩
    have htrap : Wp (trap true killed d va.toNat) (fun r m' => r = .exit → killed = true ∧
        present (m.word d (pdx va.toNat)) ∧
        (Rewrites m d va.toNat → writable (m'.word (pageOf (m.word d (pdx va.toNat))) (ptx va.toNat))))
        (fun _ _ => True) m := by
      unfold trap
      refine hspec.bind fun _ m₁ hm₁ => ?_
      obtain ⟨hpde, -, hw⟩ := hm₁
      rw [wp_ite, wp_pure, wp_pure]
      exact ⟨fun hk _ => ⟨hk.1, hpde, hw⟩, fun _ hexit => by cases hexit⟩
    obtain ⟨hk, hpde, hw⟩ := htrap.of_ok hrun rfl
    exact ⟨hk, hpde, fun hr => hr.ne hva (hw hr) (hsame d).1 (hsame d).2⟩
  · rintro ⟨rfl, hpde, hno⟩
    have hret : Wp (trap true true d va.toNat) (fun r m' => r = .exit ∧ m' = m) (fun _ _ => False) m := by
      unfold trap pgfltintr
      refine wp_bind.mpr (wp_bind.mpr (wp_walkpgdir_false (fun hp => ?_) fun hp => absurd hpde hp))
      simp only [wp_bind, wp_readPte, wp_ite, wp_pure, wp_getRefCnt, wp_writePte, ← entry_va hva hp,
        writable_pteFlags, present_pteFlags]
      exact ⟨fun hr => absurd ⟨hr.2, hr.1⟩ hno, fun _ => ⟨fun _ => ⟨trivial, trivial⟩, fun hne => absurd ⟨trivial, trivial⟩ hne⟩⟩
    obtain ⟨r, m', hrun, rfl, rfl⟩ := hret.returns
    exact ⟨m', hrun, fun _ => ⟨fun _ _ => rfl, fun _ _ => rfl⟩⟩

/-- A process reads an address that is not mapped, and survives. -/
theorem fault_survived : ¬ ∀ (L : Layout) (s : Pool) (d : ℕ) (va : Word) (write killed : Bool),
    (pool L).Reachable s → d ∈ s.live → Faults s.mem d va.toNat write → ¬ CowFault s.mem d va.toNat write →
      KillsOffender s.mem d va killed := by
  intro hall
  obtain ⟨s, d, h, hd, hempty, -⟩ := empty_reachable
  have hva : (0#32 : Word).toNat / 4096 = 0 := by decide
  have habs : ¬ present (entry s.mem d ((0#32 : Word).toNat / 4096)) := by
    rw [hva]
    exact image_eq_none.mp (hempty 0 (by omega))
  generalize 0#32 = va at habs
  have hkills := hall _ _ d va false false h hd (fun h => habs h.2.2.1) fun h => habs h.2.1
  obtain ⟨hk, -⟩ := (kills_offender_iff _ _ _ _).mp hkills
  cases hk

end OperatingSystems.CowFork
