import OperatingSystems.Files.Buffers

/-! # Results of a fixed size

Where `sys_fstat`, `sys_pipe` and `sys_getpinfo` store their results. The first two have `argptr` check the
whole result; `sys_getpinfo` has it check four bytes, and then `getpinfo` stores the whole of `struct pstat`
(`contained_iff`). -/

namespace OperatingSystems.Files.Results

open OperatingSystems.Files.Buffers OperatingSystems.Files.Syscalls OperatingSystems.Lib.Footprint
  OperatingSystems.Lib.WeakestPre OperatingSystems.Lib.Words OperatingSystems.Pipes

/-! ### What the calls touch -/

section
variable {I : ℕ → Prop} {s : System}

theorem touches_store (a m : ℕ) (w : Word) : SysTouches (In a m) (store a m w) s := touches_toUser _ _ _

/-- The fields of `struct stat` lie in it. -/
theorem touches_stati (x : Fin ninode) (st : ℕ) : SysTouches (In st sizeofStat) (stati x st) s := by
  have hfield : ∀ (o m : ℕ) (w : Word) (t : System), o + m ≤ sizeofStat →
      SysTouches (In st sizeofStat) (store (st + o) m w) t := by
    intro o m w t hle
    refine (touches_store _ _ _).more fun a ha => ?_
    unfold In at ha ⊢
    omega
  refine within_get ((hfield 4 4 _ _ (by decide)).bind fun _ _ => (hfield 8 4 _ _ (by decide)).bind fun _ _ =>
    (hfield 0 2 _ _ (by decide)).bind fun _ _ => (hfield 12 2 _ _ (by decide)).bind fun _ _ =>
    hfield 16 4 _ _ (by decide))

theorem touches_filealloc : SysTouches I filealloc s := by
  unfold filealloc
  refine within_get ?_
  split
  · exact within_pure _
  · exact (touches_modifyFile _).bind fun _ _ => within_pure _

theorem touches_kalloc : SysTouches I kalloc s := by
  unfold kalloc
  refine within_get ?_
  split
  · exact within_pure _
  · exact within_set_bind (.of_eq rfl) (within_pure _)

theorem touches_pipeclose (p : ℕ) (writable : Bool) : SysTouches I (pipeclose p writable) s :=
  within_get (within_set (.of_eq rfl))

theorem touches_fileclose (f : Fin nfile) : SysTouches I (fileclose f) s := by
  refine within_get (within_ite (fun _ => within_throw _) fun _ => ?_)
  refine within_ite (fun _ => touches_modifyFile _) fun _ => ?_
  refine (touches_modifyFile _).bind fun _ t => ?_
  split
  · exact touches_pipeclose _ _
  · exact touches_of_still (still_iput _)
  · exact within_pure _

theorem touches_pipealloc : SysTouches I pipealloc s := by
  refine touches_filealloc.bind fun f0 t => ?_
  split
  · exact within_pure _
  · refine touches_filealloc.bind fun f1 t => ?_
    split
    · exact (touches_fileclose _).bind fun _ _ => within_pure _
    · refine touches_kalloc.bind fun page t => ?_
      split
      · exact (touches_fileclose _).bind fun _ _ => (touches_fileclose _).bind fun _ _ => within_pure _
      · exact Within.bind (within_modify (.of_eq rfl)) fun _ _ => (touches_modifyFile _).bind fun _ _ =>
          (touches_modifyFile _).bind fun _ _ => within_pure _

theorem touches_setOfile (fd : ℕ) (f : Option (Fin nfile)) : SysTouches I (setOfile fd f) s :=
  within_modify (.of_eq rfl)

theorem touches_fdalloc (f : Fin nfile) : SysTouches I (fdalloc f) s := by
  unfold fdalloc
  refine within_get ?_
  split
  · exact within_pure _
  · exact (touches_setOfile _ _).bind fun _ _ => within_pure _

/-! ### The calls -/

theorem touches_filestat (f : Fin nfile) (st : ℕ) : SysTouches (In st sizeofStat) (filestat f st) s := by
  refine within_get ?_
  split
  · exact (touches_of_still (still_ilock _)).bind fun _ _ => (touches_stati _ _).bind fun _ _ =>
      (touches_of_still (still_iunlock _)).bind fun _ _ => within_pure _
  · exact within_pure _

theorem touches_getpinfo (p : ℕ) : SysTouches (In p sizeofPstat) (getpinfo p) s := by
  refine within_ite (fun _ => within_pure _) fun _ => within_get ?_
  exact (touches_toUser _ _ _).bind fun _ _ => within_pure _

end

/-- A call with a pointer to a result of a fixed size. -/
inductive Call where
  | getpinfo
  | fstat
  | pipe
  deriving DecidableEq

namespace Call

def code : Call → Sys ℤ
  | .getpinfo => sysGetpinfo
  | .fstat => sysFstat
  | .pipe => sysPipe

/-- The number of the argument that is the pointer. -/
def arg : Call → ℕ
  | .getpinfo => 0
  | .fstat => 1
  | .pipe => 0

/-- The size that `argptr` is asked to check. -/
def asked : Call → Word
  | .getpinfo => 4#32
  | .fstat => BitVec.ofNat 32 sizeofStat
  | .pipe => 8#32

/-- The size of the result. -/
def size : Call → ℕ
  | .getpinfo => sizeofPstat
  | .fstat => sizeofStat
  | .pipe => 8

variable {c : Call} {s : System} {p : Word}

theorem asked_eq (h : c ≠ .getpinfo) : c.asked.toNat = c.size := by
  cases c with
  | getpinfo => exact absurd rfl h
  | fstat => rfl
  | pipe => rfl

/-- The result is stored where the pointer points to. -/
theorem touches_code : SysTouches
    (fun b => ∃ p, argptr s c.arg c.asked = some p ∧ (c = .getpinfo → p ≠ 0#32) ∧ In p.toNat c.size b) c.code s := by
  cases c with
  | getpinfo =>
    refine within_get ?_
    split
    · exact within_pure _
    · next p hp =>
      by_cases hnull : p = 0#32
      · subst hnull
        exact within_pure _
      · exact (touches_getpinfo _).more fun b hb => ⟨p, hp, fun _ => hnull, hb⟩
  | fstat =>
    refine within_get ?_
    split
    · exact within_pure _
    · split
      · exact within_pure _
      · next p hp => exact (touches_filestat _ _).more fun b hb => ⟨p, hp, (fun h => absurd h (by decide)), hb⟩
  | pipe =>
    refine within_get ?_
    split
    · exact within_pure _
    · next p hp =>
      have hstore : ∀ (o : ℕ) (w : Word) (t : System), o + 4 ≤ 8 → SysTouches
          (fun b => ∃ p, argptr s 0 8#32 = some p ∧ (Call.pipe = .getpinfo → p ≠ 0#32) ∧ In p.toNat 8 b)
          (store (p.toNat + o) 4 w) t := by
        intro o w t hle
        refine (touches_store _ _ _).more fun b hb => ⟨p, hp, (fun h => absurd h (by decide)), ?_⟩
        unfold In at hb ⊢
        omega
      refine touches_pipealloc.bind fun files t => ?_
      split
      · exact within_pure _
      · refine (touches_fdalloc _).bind fun fd0 t => ?_
        split
        · exact (touches_fileclose _).bind fun _ _ => (touches_fileclose _).bind fun _ _ => within_pure _
        · refine (touches_fdalloc _).bind fun fd1 t => ?_
          split
          · exact (touches_setOfile _ _).bind fun _ _ => (touches_fileclose _).bind fun _ _ =>
              (touches_fileclose _).bind fun _ _ => within_pure _
          · exact (hstore 0 _ _ (by decide)).bind fun _ _ => (hstore 4 _ _ (by decide)).bind fun _ _ => within_pure _

/-- Without a pointer the call returns at once. -/
theorem wp_code_none (h : argptr s c.arg c.asked = none) :
    Wp c.code (fun r t => r = -1 ∧ t = s) (fun _ _ => False) s := by
  cases c with
  | getpinfo =>
    have h : argptr s 0 4#32 = none := h
    simp [code, sysGetpinfo, h]
  | fstat =>
    have h : argptr s 1 (BitVec.ofNat 32 sizeofStat) = none := h
    unfold code sysFstat
    rw [wp_bind, wp_get]
    split
    · exact wp_pure.mpr ⟨rfl, rfl⟩
    · rw [h]
      exact wp_pure.mpr ⟨rfl, rfl⟩
  | pipe =>
    have h : argptr s 0 8#32 = none := h
    simp [code, sysPipe, h]

/-- The whole result does not fit below `sz`. -/
def Unfit (c : Call) (s : System) : Prop := ∃ p, argint s c.arg = some p ∧ s.proc.sz.toNat < p.toNat + c.size

/-- All bytes that the call stores lie below `sz`, and if the result does not fit the call returns -1 and stores
nothing. -/
def Contained (c : Call) (s : System) : Prop :=
  Wp c.code (fun r t => (∀ b ∈ t.touched, b < s.proc.sz.toNat) ∧ (c.Unfit s → r = -1 ∧ t.touched = []))
    (fun _ t => (∀ b ∈ t.touched, b < s.proc.sz.toNat) ∧ ¬ c.Unfit s) (fresh s)

/-- The pointer of `getpinfo` passes the check of four bytes, and `struct pstat` ends beyond `sz`. -/
def Overruns (c : Call) (s : System) : Prop :=
  c = .getpinfo ∧ ∃ p, argptr s 0 4#32 = some p ∧ p ≠ 0#32 ∧ s.proc.sz.toNat < p.toNat + sizeofPstat

/-- `argptr` finds out that a block does not fit. -/
theorem argptr_unfit {k : ℕ} {size : Word} (hp : argint s k = some p) (hsize : size.toNat < 2 ^ 31)
    (h : s.proc.sz.toNat < p.toNat + size.toNat) : argptr s k size = none := by
  cases hq : argptr s k size with
  | none => rfl
  | some q =>
    obtain rfl : q = p := Option.some.inj ((argptr_spec hq).1.symm.trans hp)
    have := argptr_below hq hsize
    omega

theorem asked_small : c.asked.toNat < 2 ^ 31 := by
  cases c <;> decide

/-- A call whose result does not fit returns -1 and stores nothing, unless it overruns. -/
theorem wp_code_unfit (hno : ¬ c.Overruns s) (h : c.Unfit s) :
    Wp c.code (fun r t => r = -1 ∧ t = s) (fun _ _ => False) s := by
  obtain ⟨p, hp, hunfit⟩ := h
  by_cases hc : c = .getpinfo
  · subst hc
    cases hq : argptr s 0 4#32 with
    | none => exact wp_code_none (c := .getpinfo) hq
    | some q =>
      obtain rfl : q = p := Option.some.inj ((argptr_spec hq).1.symm.trans hp)
      have hnull : q = 0#32 := by
        by_contra hne
        exact hno ⟨rfl, q, hq, hne, hunfit⟩
      subst hnull
      simp [code, sysGetpinfo, hq, Syscalls.getpinfo]
  · refine wp_code_none (argptr_unfit hp asked_small ?_)
    rwa [asked_eq hc]

end Call

open Call

theorem not_contained_of_overruns {c : Call} {s : System} (h : c.Overruns s) : ¬ c.Contained s := by
  obtain ⟨rfl, p, hp, hnull, hlt⟩ := h
  intro hcont
  have hunfit : Call.getpinfo.Unfit s := ⟨p, (argptr_spec hp).1, hlt⟩
  have hp' : argptr (fresh s) 0 4#32 = some p := hp
  have hnull' : p.toNat ≠ 0 := fun h => hnull (BitVec.eq_of_toNat_eq h)
  -- It stores all of the structure and returns 0, or it does not get beyond a page that is not mapped.
  have hrun : Wp Call.getpinfo.code (fun r _ => r = 0) (fun _ _ => True) (fresh s) := by
    simp only [code, sysGetpinfo, hp', Syscalls.getpinfo, hnull', if_false, wp_bind, wp_get]
    exact Wp.trivial.imp fun _ _ _ => wp_pure.mpr rfl
  obtain ⟨r, t, -, hr, -, ht⟩ := ((hrun.and hcont).mono (fun _ _ h => h) fun _ _ h => h.2.2 hunfit).returns
  rw [hr] at ht
  exact absurd (ht hunfit).1 (by decide)

/-- **Results stay inside the memory of the process** if and only if no `struct pstat` overruns its end: always
for `fstat` and `pipe`, and for `getpinfo` if there is room for the whole structure, not just for the four bytes
that are checked. -/
theorem contained_iff (c : Call) (s : System) : c.Contained s ↔ ¬ c.Overruns s := by
  refine ⟨fun hcont hover => not_contained_of_overruns hover hcont, fun hno => ?_⟩
  have hbelow : ∀ t : System, (∀ b ∈ t.touched, ∃ p, argptr (fresh s) c.arg c.asked = some p ∧
      (c = .getpinfo → p ≠ 0#32) ∧ In p.toNat c.size b) → ∀ b ∈ t.touched, b < s.proc.sz.toNat := by
    intro t ht b hb
    obtain ⟨p, hp, hnull, hin⟩ := ht b hb
    unfold In at hin
    by_cases hc : c = .getpinfo
    · subst hc
      by_contra hle
      refine hno ⟨rfl, p, hp, hnull rfl, ?_⟩
      have : b < p.toNat + sizeofPstat := hin.2
      omega
    · have hfit : p.toNat + c.asked.toNat ≤ s.proc.sz.toNat := argptr_below hp asked_small
      rw [asked_eq hc] at hfit
      omega
  have hin := touches_code (c := c) (s := fresh s)
  by_cases hunfit : c.Unfit s
  · refine (wp_code_unfit (s := fresh s) hno hunfit).mono ?_ fun _ _ h => h.elim
    rintro r t ⟨rfl, rfl⟩
    exact ⟨fun b hb => absurd hb (List.not_mem_nil), fun _ => ⟨rfl, rfl⟩⟩
  · exact Wp.mono hin (fun _ t ht => ⟨hbelow t (ht.of_nil rfl), fun h => absurd h hunfit⟩)
      fun _ t ht => ⟨hbelow t (ht.of_nil rfl), hunfit⟩

/-- `getpinfo(2092)` in a process of 2096 bytes. -/
def lastWord : System := { readMinusOne with
  user := fun b => if b = 4 then 44#8 else if b = 5 then 8#8 else 0#8
  proc := ⟨2096#32, by decide, 0#32, fun _ => none, fun a => decide (a < 4096),
    fun _ ha => decide_eq_true (ha.trans (by decide))⟩ }

/-- It writes beyond the end of the process, in its last page. -/
theorem not_contained_lastWord : ¬ Call.getpinfo.Contained lastWord :=
  not_contained_of_overruns ⟨rfl, 2092#32, rfl, by decide, by decide⟩

end OperatingSystems.Files.Results
