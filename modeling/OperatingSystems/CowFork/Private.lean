import OperatingSystems.CowFork.Calls

/-! # Processes with memory of their own

* `Op.run`: what a process does in one step, with the function that `fork` copies the address space with.
* `Private`: the same processes as their programs see them, each with pages that nobody shares. It knows no
  directories, no stacks of the kernel, and no free pages.
* `State.abs`: the processes that a state of the kernel stands for. -/

namespace OperatingSystems.CowFork.Processes

open Lib.WeakestPre ProcTable

/-! ### Steps -/

/-- What a process can do. -/
inductive Op where
  | fork
  | load (va : Word)
  | store (va : Word) (b : BitVec 8)
  | sbrk (n : Word)
  | exit
  | wait

/-- What comes of it. -/
inductive Out where
  /-- the return value of a call -/
  | value (r : ℤ)
  /-- the byte that a load got -/
  | byte (b : BitVec 8)
  | done
  /-- the process has to wait for its children -/
  | blocked
  /-- the access faults still -/
  | faults
  deriving DecidableEq

/-- What comes of an access that runs the handler up to `tries` times, and how often it ran. -/
def accessed {α : Type} (tries : ℕ) (out : α → Out) : Option (α × ℕ) → Out × ℕ
  | none => (.faults, tries)
  | some x => (out x.1, x.2)

/-- What `p` does, and how often the handler runs for it. -/
def Op.run (L : Layout) (dup : ℕ → ℕ → Kernel ℕ) (tries : ℕ) (p : Fin nproc) : Op → Code (Out × ℕ)
  | fork => do
    let r ← forkWith dup L p
    return (.value r, 0)
  | load va => do
    let s ← get
    let r ← userLoad (s.proc p).pgdir va.toNat tries
    return accessed tries .byte r
  | store va b => do
    let s ← get
    let r ← userStore (s.proc p).pgdir va.toNat b tries
    return accessed tries (fun _ => .done) r
  | sbrk n => do
    let r ← sysSbrk L p n
    return (.value r, 0)
  | exit => do
    Processes.exit p
    return (.done, 0)
  | wait => do
    match ← Processes.wait L p with
    | none => return (.blocked, 0)
    | some r => return (.value r, 0)

/-- The process is there to act, it accesses memory below its size, and it keeps some. -/
def Op.Ok (s : State) (p : Fin nproc) (op : Op) : Prop :=
  (s.proc p).state = .runnable ∧
    match op with
    | load va => va < (s.proc p).sz
    | store va _ => va < (s.proc p).sz
    | sbrk n => n.toInt < 0 → (s.proc p).sz + n ≠ 0#32
    | _ => True

/-! ### Private memory -/

/-- The contents of a page. -/
abbrev Page := ℕ → BitVec 8

/-- The process table, `nextpid`, and the pages of every process. -/
@[ext] structure Private where
  proc : Fin nproc → Proc
  nextpid : Word
  page : Fin nproc → ℕ → Option Page

/-- The process table after the end of `p`. -/
def gone (proc : Fin nproc → Proc) (p : Fin nproc) : Fin nproc → Proc :=
  let left := fun q => (Function.update proc p { proc p with cwd := 0 } q).passedOn p
  Function.update left p { left p with state := .zombie }

/-- All but the end of `p` itself: its directory and the others are as before. -/
theorem gone_cases (proc : Fin nproc → Proc) (p q : Fin nproc) :
    gone proc p q = if q = p then { (proc p).passedOn p with cwd := 0, state := .zombie } else (proc q).passedOn p := by
  unfold gone Proc.passedOn
  by_cases hq : q = p
  · subst hq
    simp only [Function.update_self, if_true]
    split_ifs <;> rfl
  · simp only [Function.update_of_ne hq, if_neg hq]

namespace Private

/-- A child with the pages of its parent. -/
def fork (a : Private) (p : Fin nproc) : Out × Private :=
  match (List.finRange nproc).find? fun q => (a.proc q).state = .unused with
  | none => (.value (-1), a)
  | some np =>
    (.value a.nextpid.toInt,
      { proc := Function.update a.proc np { a.proc np with
          sz := (a.proc p).sz, state := .runnable, pid := a.nextpid, parent := some p,
          tf := { (a.proc p).tf with eax := 0#32 }, cwd := (a.proc p).cwd, name := (a.proc p).name }
        nextpid := a.nextpid + 1#32
        page := Function.update a.page np (a.page p) })

def load (a : Private) (p : Fin nproc) (va : Word) : Out × Private :=
  match a.page p (va.toNat / 4096) with
  | none => (.faults, a)
  | some f => (.byte (f (va.toNat % 4096)), a)

def store (a : Private) (p : Fin nproc) (va : Word) (b : BitVec 8) : Out × Private :=
  (.done, { a with page := Function.update a.page p fun v =>
    if v = va.toNat / 4096 then (a.page p v).map fun old => Function.update old (va.toNat % 4096) b else a.page p v })

/-- The process gets another size, and the pages in between are as `x` says. -/
def resize (a : Private) (p : Fin nproc) (sz : Word) (lo hi : ℕ) (x : Option Page) : Private :=
  { a with
    proc := Function.update a.proc p { a.proc p with sz := sz }
    page := Function.update a.page p fun v => if lo ≤ v ∧ v < hi then x else a.page p v }

def sbrk (a : Private) (p : Fin nproc) (n : Word) : Out × Private :=
  let sz := (a.proc p).sz
  let new := sz + n
  if 0 < n.toInt then
    if usertop < new.toNat then (.value (-1), a)
    else (.value sz.toInt, a.resize p new (pgup sz.toNat) (pgup new.toNat) (some fun _ => 0))
  else if n.toInt < 0 ∧ new < sz then (.value sz.toInt, a.resize p new (pgup new.toNat) (pgup sz.toNat) none)
  else (.value sz.toInt, a)

/-- The children go to `init`, and the process stays in the table. -/
def exit (a : Private) (p : Fin nproc) : Out × Private := (.done, { a with proc := gone a.proc p })

def wait (a : Private) (p : Fin nproc) : Out × Private :=
  match (List.finRange nproc).find? fun q => (a.proc q).parent = some p ∧ (a.proc q).state = .zombie with
  | some q =>
    (.value (a.proc q).pid.toInt,
      { a with
        proc := Function.update a.proc q
          { a.proc q with state := .unused, pid := 0#32, parent := none, name := [], killed := false }
        page := Function.update a.page q fun _ => none })
  | none => if (∀ q, (a.proc q).parent ≠ some p) ∨ (a.proc p).killed then (.value (-1), a) else (.blocked, a)

def step (a : Private) (p : Fin nproc) : Op → Out × Private
  | .fork => a.fork p
  | .load va => a.load p va
  | .store va b => a.store p va b
  | .sbrk n => a.sbrk p n
  | .exit => a.exit p
  | .wait => a.wait p

end Private

/-- A process has the pages below its size, of which there is one at least. It has no file open. -/
structure Proc.Sane (q : Proc) (page : ℕ → Option Page) : Prop where
  pos : q.state ≠ .unused → q.sz ≠ 0#32
  size : q.state ≠ .unused → q.sz.toNat ≤ usertop
  pages : q.state ≠ .unused → ∀ v, page v = none ↔ pgup q.sz.toNat ≤ v
  files : ∀ fd, q.ofile fd = none

/-- Below `USERTOP` the sum of `growproc` does not wrap around. -/
theorem toNat_grown {sz n : Word} (hsz : sz.toNat ≤ usertop) (hn : 0 < n.toInt) :
    sz.toNat < (sz + n).toNat := by
  have hcond := BitVec.toInt_eq_toNat_cond n
  unfold usertop at hsz
  rw [BitVec.toNat_add]
  split_ifs at hcond <;> omega

namespace Private

/-- Every process is in order. -/
def Sane (a : Private) : Prop := ∀ p, (a.proc p).Sane (a.page p)

namespace Sane

variable {a : Private} {p : Fin nproc} {n : Word}

/-- One process changes. -/
theorem update (h : a.Sane) {q : Proc} {x : ℕ → Option Page} {k : Word} (hq : q.Sane x) :
    Sane ⟨Function.update a.proc p q, k, Function.update a.page p x⟩ := by
  intro r
  by_cases hr : r = p
  · subst hr
    simpa only [Function.update_self] using hq
  · simpa only [Function.update_of_ne hr] using h r

theorem fork (h : a.Sane) (hp : (a.proc p).state ≠ .unused) : (a.fork p).2.Sane := by
  unfold Private.fork
  split
  · exact h
  · next np _ => exact h.update ⟨fun _ => (h p).pos hp, fun _ => (h p).size hp, fun _ => (h p).pages hp, (h np).files⟩

theorem store (h : a.Sane) (va : Word) (b : BitVec 8) : (a.store p va b).2.Sane := by
  have hq : (a.proc p).Sane fun v => if v = va.toNat / 4096 then
      (a.page p v).map fun old => Function.update old (va.toNat % 4096) b else a.page p v := by
    refine ⟨(h p).pos, (h p).size, fun hp v => ?_, (h p).files⟩
    rw [← (h p).pages hp v]
    split_ifs
    · exact Option.map_eq_none_iff
    · rfl
  have := h.update (p := p) (k := a.nextpid) hq
  rwa [Function.update_eq_self] at this

theorem sbrk (h : a.Sane) (hp : (a.proc p).state ≠ .unused) (hn : n.toInt < 0 → (a.proc p).sz + n ≠ 0#32) :
    (a.sbrk p n).2.Sane := by
  have hsz := (h p).size hp
  have hpages := (h p).pages hp
  simp only [Private.sbrk]
  split_ifs with hpos htop hneg
  · exact h
  · have hlt := toNat_grown hsz hpos
    have hmono := pgup_mono hlt.le
    refine h.update ⟨fun _ h0 => ?_, fun _ => not_lt.mp htop, fun _ v => ?_, (h p).files⟩
    · have h0 : (a.proc p).sz + n = 0#32 := h0
      rw [h0] at hlt
      exact absurd hlt (Nat.not_lt_zero _)
    · show (if _ then _ else _) = none ↔ pgup ((a.proc p).sz + n).toNat ≤ v
      split_ifs with hv
      · simp only [false_iff]
        omega
      · rw [hpages v]
        omega
  · have hlt := BitVec.lt_def.mp hneg.2
    have hmono := pgup_mono hlt.le
    refine h.update ⟨fun _ => hn hneg.1, fun _ => hlt.le.trans hsz, fun _ v => ?_, (h p).files⟩
    show (if _ then _ else _) = none ↔ pgup ((a.proc p).sz + n).toNat ≤ v
    split_ifs with hv
    · simp only [true_iff]
      exact hv.1
    · rw [hpages v]
      omega
  · exact h

theorem exit (h : a.Sane) (hp : (a.proc p).state ≠ .unused) : (a.exit p).2.Sane := by
  intro q
  have hproc : (q ≠ p → ((a.exit p).2.proc q).state = (a.proc q).state) ∧
      ((a.exit p).2.proc q).sz = (a.proc q).sz ∧ ((a.exit p).2.proc q).ofile = (a.proc q).ofile := by
    simp only [Private.exit, gone_cases, Proc.passedOn]
    split_ifs with hq <;> simp_all
  obtain ⟨hstate, hsz, hfile⟩ := hproc
  have hused : ((a.exit p).2.proc q).state ≠ .unused → (a.proc q).state ≠ .unused := by
    intro hq
    by_cases hqp : q = p
    · exact hqp ▸ hp
    · rwa [← hstate hqp]
  exact ⟨fun hq => hsz ▸ (h q).pos (hused hq), fun hq => hsz ▸ (h q).size (hused hq),
    fun hq => hsz ▸ (h q).pages (hused hq), fun fd => (congrFun hfile fd).trans ((h q).files fd)⟩

theorem wait (h : a.Sane) : (a.wait p).2.Sane := by
  unfold Private.wait
  split
  · next q _ => exact h.update ⟨fun hq => absurd rfl hq, fun hq => absurd rfl hq, fun hq => absurd rfl hq, (h q).files⟩
  · split_ifs <;> exact h

/-- **The step lemma** of the private processes. -/
theorem step (h : a.Sane) {op : Op} (hp : (a.proc p).state ≠ .unused)
    (hn : ∀ n, op = .sbrk n → n.toInt < 0 → (a.proc p).sz + n ≠ 0#32) : (a.step p op).2.Sane := by
  cases op with
  | fork => exact h.fork hp
  | load va =>
    simp only [Private.step, Private.load]
    split <;> exact h
  | store va b => exact h.store va b
  | sbrk n => exact h.sbrk hp (hn n rfl)
  | exit => exact h.exit hp
  | wait => exact h.wait

end Sane

end Private

/-! ### The processes of a state -/

/-- A process without the pages that the kernel has for it. -/
def Proc.bare (q : Proc) : Proc := { q with pgdir := 0, kstack := 0 }

/-- The pages of a process. -/
def view (s : State) (p : Fin nproc) (v : ℕ) : Option Page :=
  if (s.proc p).state ≠ .unused ∧ v < 160 then image s.mem (s.proc p).pgdir v else none

def State.abs (s : State) : Private where
  proc p := (s.proc p).bare
  nextpid := s.nextpid
  page := view s

end OperatingSystems.CowFork.Processes
