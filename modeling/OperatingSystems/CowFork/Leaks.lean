import OperatingSystems.CowFork.KernelStores

/-! # Who sees what the kernel stores

The kernel's stores pass over a cleared write bit, and only the handler copies a shared page. So what a system
call stores for a process shows in every process that has the page, too.

* `Call.does`: a call stores the bytes `Call.stores`, which are read off the state before it.
* `stores_private_iff`: the others see nothing of it exactly if none of the bytes lands in a page of theirs, except
  where it is the byte that is there. -/

namespace OperatingSystems.CowFork.Descriptors

open Lib.WeakestPre Lib.Transition Processes ProcTable

variable {L : Layout} {s t u : Machine} {D K : Finset ℕ} {p : Fin nproc} {addr dst off : Word} {f pi : ℕ}
  {us : List (Word × List (BitVec 8))} {ws : List ((ℕ × ℕ) × BitVec 8)} {α β : Type}

/-! ### What a call stores -/

/-- The bytes of a ring buffer that have not been read. -/
def unread (data : ℕ → BitVec 8) (size : ℕ) (r w : Word) : List (BitVec 8) :=
  (List.range (w - r).toNat).map fun i => data ((r + BitVec.ofNat 32 i).toNat % size)

/-- The bytes that `consoleread` copies of those in the buffer: a line, or up to a `C('D')`. -/
def lineOf : ℕ → List (BitVec 8) → List (BitVec 8)
  | 0, _ => []
  | _, [] => []
  | n + 1, c :: cs => if c = 4#8 then [] else if c = 10#8 then [c] else c :: lineOf n cs

def pipeStores (s : Machine) (pi : ℕ) (addr n : Word) : List (Word × List (BitVec 8)) :=
  bytewise addr ((unread (s.pipe pi).data pipesize (s.pipe pi).nread (s.pipe pi).nwrite).take n.toInt.toNat)

def consoleStores (s : Machine) (dst : Word) (n : ℕ) : List (Word × List (BitVec 8)) :=
  bytewise dst (lineOf n (unread s.input.buf inputBuf s.input.r s.input.w))

def blockStores (s : Machine) (f : ℕ) (dst off : Word) (left : ℕ) : List (Word × List (BitVec 8)) :=
  bytewise dst ((s.inode (s.file f).ip).file.slice off.toNat (chunk off left))

/-- A read from a file on the disk has not stored anything when it first sleeps. -/
def filereadStores (s : Machine) (f : ℕ) (addr n : Word) : List (Word × List (BitVec 8)) :=
  if (s.file f).readable then
    match (s.file f).type with
    | .pipe => pipeStores s (s.file f).pipe addr n
    | .inode =>
      if (s.inode (s.file f).ip).type = tDev ∧ (s.inode (s.file f).ip).major = console then
        consoleStores s addr n.toInt.toNat
      else []
    | .none => []
  else []

def statStores (ip : Inode) (st : Word) : List (Word × List (BitVec 8)) :=
  [(st + 4#32, wordBytes ip.dev), (st + 8#32, wordBytes ip.inum), (st, shortBytes ip.type),
    (st + 12#32, shortBytes ip.nlink), (st + 16#32, wordBytes ip.file.size)]

def freeFiles (s : Machine) : List ℕ := (List.range nfile).filter fun f => s.st.fileRef f = 0

def freeFds (s : Machine) (p : Fin nproc) : List ℕ := (List.range nofile).filter fun fd => (s.st.proc p).ofile fd = none

/-- The descriptors of a new pipe, if there are two files, two descriptors and a page for it. -/
def pipeFds (s : Machine) (p : Fin nproc) : Option (ℕ × ℕ) :=
  match freeFiles s, s.st.mem.freelist, freeFds s p with
  | _ :: _ :: _, _ :: _, fd0 :: fd1 :: _ => some (fd0, fd1)
  | _, _, _ => none

/-- A system call that stores through a pointer of the process, or the rest of one that has slept. -/
inductive Call where
  | read
  | fstat
  | pipe
  | resume (k : Pending)

def Call.run (L : Layout) (p : Fin nproc) : Call → Syscall ℤ
  | read => sysRead p
  | fstat => sysFstat p
  | pipe => sysPipe L p
  | resume k => Descriptors.resume p k

/-- A call that goes on has checked its pointer before. -/
def Call.Ok (s : Machine) (p : Fin nproc) : Call → Prop
  | resume k => k.Inside (s.st.proc p).sz
  | _ => True

/-- **What the call stores**, with the addresses, unless a page is not there. -/
def Call.stores (s : Machine) (p : Fin nproc) : Call → List (Word × List (BitVec 8))
  | read =>
    match readArgs s.st p with
    | .ok (some (f, addr, n)) => filereadStores s f addr n
    | _ => []
  | fstat =>
    match fstatArgs s.st p with
    | .ok (some (f, st)) => if (s.file f).type = .inode then statStores (s.inode (s.file f).ip) st else []
    | _ => []
  | pipe =>
    match argptr s.st p 0 8#32, pipeFds s p with
    | .ok (some fd), some (fd0, fd1) =>
      [(fd, wordBytes (BitVec.ofNat 32 fd0)), (fd + 4#32, wordBytes (BitVec.ofNat 32 fd1))]
    | _, _ => []
  | resume (.pipe pi addr n) => pipeStores s pi addr n
  | resume (.console _ dst n _) => consoleStores s dst n
  | resume (.block f dst off left _) => blockStores s f dst off left

/-! ### Rules for the rest of the text -/

namespace Does

/-- Something beside the processes and their memory is changed. -/
theorem change {g : Machine → Machine} {f : PUnit → Syscall α} (h : Ready L s D K) (hst : (g s).st = s.st)
    (htype : ∀ x, ((g s).file x).type = (s.file x).type) (hrest : Ready L (g s) D K → Does L D p (f ⟨⟩) (g s) ws) :
    Does L D p (modify g >>= f) s ws := by
  have hsame : SameSpaces s.st (g s).st := .of_proc (congrArg State.proc hst)
  have htab : SameTables s.st.mem (g s).st.mem D := by
    rw [hst]
    exact .refl
  have hready : Ready L (g s) D K := h.same hsame (hst ▸ h.inv) htab fun x hx => by
    rw [htype, h.closed x (by rwa [← hst])]
  have heff : Effect L D s (g s) [] := .of_byte hready hsame htab fun _ _ _ _ _ => by rw [hst]
  unfold Does
  rw [wp_bind, wp_modify]
  exact from_effect heff (hrest hready)

theorem of_get {f : Machine → Syscall α} (h : Does L D p (f s) s ws) : Does L D p (get >>= f) s ws := by
  unfold Does
  rw [wp_bind, wp_get]
  exact h

theorem of_ite {c : Prop} [Decidable c] {x y : Syscall α} (hx : c → Does L D p x s ws) (hy : ¬ c → Does L D p y s ws) :
    Does L D p (if c then x else y) s ws := by
  split_ifs with hc
  · exact hx hc
  · exact hy hc

end Does

theorem advance_does {r : ℤ} (h : Ready L s D K) : Does L D p (advance f r) s [] := by
  unfold advance modifyFile
  split_ifs with hr
  · refine .change h rfl (fun x => ?_) fun h' => .pure h'
    by_cases hx : x = f
    · subst hx
      simp only [Function.update_self]
    · simp only [Function.update_of_ne hx]
  · exact .pure h

theorem unread_self {data : ℕ → BitVec 8} {size : ℕ} {r : Word} : unread data size r r = [] := by
  unfold unread
  rw [BitVec.sub_self]
  rfl

theorem unread_of_ne {data : ℕ → BitVec 8} {size : ℕ} {r w : Word} (h : r ≠ w) :
    unread data size r w = data (r.toNat % size) :: unread data size (r + 1#32) w := by
  have hlt := r.isLt
  have hlt' := w.isLt
  have hne : r.toNat ≠ w.toNat := fun heq => h (BitVec.eq_of_toNat_eq heq)
  have hlen : (w - r).toNat = (w - (r + 1#32)).toNat + 1 := by
    simp only [BitVec.toNat_sub, BitVec.toNat_add, BitVec.toNat_ofNat]
    omega
  unfold unread
  rw [hlen, List.range_succ_eq_map, List.map_cons, List.map_map, BitVec.add_zero]
  congr 1
  refine List.map_congr_left fun i _ => ?_
  rw [Function.comp_apply, Nat.succ_eq_add_one, Nat.add_comm i 1, BitVec.ofNat_add, ← BitVec.add_assoc]

/-! ### Reading -/

theorem pipereadLoop_does {n i : ℕ} (h : Ready L s D K) (hp : (s.st.proc p).state ≠ .unused)
    (hlt : (addr + BitVec.ofNat 32 i).toNat + n ≤ 2 ^ 20) :
    Does L D p (pipereadLoop p pi addr n i) s (reach s.st.mem (s.st.proc p).pgdir
      (bytewise (addr + BitVec.ofNat 32 i)
        ((unread (s.pipe pi).data pipesize (s.pipe pi).nread (s.pipe pi).nwrite).take n))) := by
  induction n generalizing s i with
  | zero => exact .pure h
  | succ n ih =>
    rw [pipereadLoop]
    refine .of_get ?_
    by_cases hempty : (s.pipe pi).nread = (s.pipe pi).nwrite
    · simp only [hempty, if_true, unread_self, List.take_nil]
      exact .pure h
    simp only [hempty, if_false]
    rw [unread_of_ne hempty, List.take_succ_cons, bytewise]
    refine .change h rfl (fun _ => rfl) fun h₁ => ?_
    refine .store h₁ hp (by rw [List.length_singleton]; omega) fun m h₂ => ?_
    have hnext : addr + BitVec.ofNat 32 i + 1#32 = addr + BitVec.ofNat 32 (i + 1) := by
      rw [BitVec.ofNat_add, BitVec.add_assoc]
    have hrest := ih (i := i + 1) h₂ hp (by rw [← hnext, toNat_add_one (by omega)]; omega)
    rw [hnext]
    simpa only [Function.update_self] using hrest

theorem piperead_does {n : Word} (h : Ready L s D K) (hp : (s.st.proc p).state ≠ .unused)
    (hin : (Pending.pipe pi addr n).Inside (s.st.proc p).sz) :
    Does L D p (piperead p pi addr n) s (reach s.st.mem (s.st.proc p).pgdir (pipeStores s pi addr n)) := by
  have hsize := h.size p hp
  have hin' : addr.toNat + n.toInt.toNat ≤ (s.st.proc p).sz.toNat := hin
  unfold usertop at hsize
  unfold piperead pipeStores
  refine .of_get (.of_ite (fun hempty => ?_) fun _ => ?_)
  · rw [hempty.1, unread_self, List.take_nil]
    refine .of_ite (fun _ => .pure h) fun _ => .throw h fun k hk => ?_
    cases hk
    exact hin
  · have hloop : Does L D p (pipereadLoop p pi addr n.toInt.toNat 0) s _ :=
      pipereadLoop_does h hp (by rw [BitVec.add_zero]; omega)
    rwa [BitVec.add_zero] at hloop

theorem consolereadLoop_does {n target : ℕ} (h : Ready L s D K) (hp : (s.st.proc p).state ≠ .unused)
    (hin : dst.toNat + n ≤ (s.st.proc p).sz.toNat) :
    Does L D p (consolereadLoop p f target n dst) s
      (reach s.st.mem (s.st.proc p).pgdir (consoleStores s dst n)) := by
  unfold consoleStores
  induction n generalizing s dst with
  | zero => exact advance_does h
  | succ n ih =>
    have hsize := h.size p hp
    unfold usertop at hsize
    rw [consolereadLoop]
    refine .of_get ?_
    by_cases hempty : s.input.r = s.input.w
    · simp only [hempty, if_true, unread_self, lineOf]
      refine .of_ite (fun _ => advance_does h) fun _ => .throw h fun k hk => ?_
      cases hk
      exact hin
    simp only [hempty, if_false]
    rw [unread_of_ne hempty, lineOf]
    generalize s.input.buf (s.input.r.toNat % inputBuf) = c
    by_cases heof : c = 4#8
    · rw [if_pos heof, if_pos heof]
      split_ifs
      · exact .change h rfl (fun _ => rfl) fun h₁ => advance_does h₁
      · exact advance_does h
    rw [if_neg heof, if_neg heof]
    refine .change h rfl (fun _ => rfl) fun h₁ => ?_
    by_cases hnl : c = 10#8
    · rw [if_pos hnl, if_pos hnl, bytewise, bytewise]
      exact .store h₁ hp (by rw [List.length_singleton]; omega) fun m h₂ => advance_does h₂
    · rw [if_neg hnl, if_neg hnl, bytewise]
      refine .store h₁ hp (by rw [List.length_singleton]; omega) fun m h₂ => ?_
      refine ih h₂ hp ?_
      rw [toNat_add_one (by omega)]
      exact (by omega : dst.toNat + 1 + n ≤ (s.st.proc p).sz.toNat)

theorem nextBlock_does {left n : ℕ} (h : Ready L s D K)
    (hin : (Pending.block f dst off left n).Inside (s.st.proc p).sz) :
    Does L D p (nextBlock f dst off left n) s [] := by
  unfold nextBlock
  refine .of_ite (fun _ => advance_does h) fun _ => .throw h fun k hk => ?_
  cases hk
  exact hin

theorem chunk_le (off : Word) (left : ℕ) : chunk off left ≤ left ∧ chunk off left ≤ bsize :=
  ⟨min_le_left _ _, (min_le_right _ _).trans (Nat.sub_le _ _)⟩

theorem readBlock_does {left n : ℕ} (h : Ready L s D K) (hp : (s.st.proc p).state ≠ .unused)
    (hin : (Pending.block f dst off left n).Inside (s.st.proc p).sz) :
    Does L D p (readBlock p f dst off left n) s
      (reach s.st.mem (s.st.proc p).pgdir (blockStores s f dst off left)) := by
  have hsize := h.size p hp
  have hin' : dst.toNat + left ≤ (s.st.proc p).sz.toNat + maxfile * bsize := hin
  obtain ⟨hleft, hblock⟩ := chunk_le off left
  unfold usertop at hsize
  unfold maxfile bsize at hin'
  unfold bsize at hblock
  unfold readBlock blockStores
  refine .of_get ?_
  rw [← List.append_nil (bytewise _ _)]
  refine .storeBytes h hp ?_ fun m h₁ => nextBlock_does h₁ ?_
  · rw [File.length_slice]
    omega
  · show (dst + BitVec.ofNat 32 (chunk off left)).toNat + (left - chunk off left) ≤
      (s.st.proc p).sz.toNat + maxfile * bsize
    have hnext : (dst + BitVec.ofNat 32 (chunk off left)).toNat = dst.toNat + chunk off left := by
      rw [BitVec.toNat_add, BitVec.toNat_ofNat]
      omega
    rw [hnext]
    unfold maxfile bsize
    omega

/-! ### Arguments -/

/-- The one thing that can stop a load. -/
def Faulty (x : Except Break α) : Prop := ∀ e, x = .error e → e = .panic .fault

theorem Faulty.pure {a : α} : Faulty (Pure.pure a : Except Break α) := fun _ h => by cases h

theorem Faulty.bind {x : Except Break α} {g : α → Except Break β} (hx : Faulty x)
    (hg : ∀ a, x = .ok a → Faulty (g a)) : Faulty (x >>= g) := by
  cases x with
  | error e => exact fun e' h => hx e' (congrArg Except.error (Except.error.inj h))
  | ok a => exact hg a rfl

variable {st : State} {k : ℕ} {size i n : Word}

theorem argint_faulty : Faulty (argint st p k) := by
  intro e h
  unfold argint fetchint at h
  split_ifs at h
  exact (Except.error.inj h).symm

theorem argptr_faulty : Faulty (argptr st p k size) := by
  refine argint_faulty.bind fun a _ => ?_
  cases a with
  | none => exact .pure
  | some i =>
    simp only
    split_ifs <;> exact .pure

theorem argfd_faulty : Faulty (argfd st p k) := by
  refine argint_faulty.bind fun a _ => ?_
  cases a with
  | none => exact .pure
  | some i =>
    simp only
    split_ifs <;> exact .pure

/-- The check of a pointer: it and the end of what it points to are below the size, unless the sum wraps around. -/
theorem argptr_ok (h : argptr st p k size = .ok (some i)) :
    i.toNat < (st.proc p).sz.toNat ∧ (i + size).toNat ≤ (st.proc p).sz.toNat := by
  unfold argptr at h
  cases harg : argint st p k with
  | error e =>
    rw [harg] at h
    cases h
  | ok a =>
    rw [harg] at h
    cases a with
    | none => cases h
    | some j =>
      simp only [bind, Except.bind] at h
      split_ifs at h with hno
      · cases h
      · obtain rfl : j = i := Option.some.inj (Except.ok.inj h)
        rw [not_or, BitVec.not_le, BitVec.not_lt] at hno
        exact hno

theorem argptr_inside (h : argptr st p k size = .ok (some i)) (hsz : (st.proc p).sz.toNat ≤ usertop) :
    i.toNat + size.toInt.toNat ≤ (st.proc p).sz.toNat := by
  obtain ⟨hlt, hle⟩ := argptr_ok h
  unfold usertop at hsz
  rw [BitVec.toNat_add] at hle
  rw [BitVec.toInt_eq_toNat_cond]
  have := size.isLt
  split_ifs <;> omega

theorem fstatArgs_faulty : Faulty (fstatArgs st p) := by
  refine argfd_faulty.bind fun a _ => ?_
  cases a with
  | none => exact .pure
  | some f =>
    refine argptr_faulty.bind fun b _ => ?_
    cases b <;> exact .pure

theorem readArgs_faulty : Faulty (readArgs st p) := by
  refine argfd_faulty.bind fun a _ => ?_
  cases a with
  | none => exact .pure
  | some f =>
    refine argint_faulty.bind fun b _ => ?_
    cases b with
    | none => exact .pure
    | some n =>
      refine argptr_faulty.bind fun c _ => ?_
      cases c <;> exact .pure

/-! ### read and fstat -/

theorem Does.of_ofExcept {x : Except Break β} {g : β → Syscall α} (h : Ready L s D K) (hx : Faulty x)
    (herr : (∃ e, x = .error e) → ws = []) (hok : ∀ b, x = .ok b → Does L D p (g b) s ws) :
    Does L D p (MonadExcept.ofExcept x >>= g) s ws := by
  cases x with
  | error e =>
    rw [herr ⟨e, rfl⟩]
    refine .throw h fun k hk => ?_
    rw [hx e rfl] at hk
    cases hk
  | ok b => exact hok b rfl

theorem file_size (ip : Inode) : ip.file.size.toNat = ip.file.data.length := by
  unfold File.size
  rw [BitVec.toNat_ofNat]
  exact Nat.mod_eq_of_lt ip.file.size_lt

/-- No sleep with more to read than a file can hold, even if the count is negative. -/
theorem readi_does {ip : Inode} (h : Ready L s D K) (hp : (s.st.proc p).state ≠ .unused)
    (hlt : addr.toNat < (s.st.proc p).sz.toNat) (hin : addr.toNat + n.toInt.toNat ≤ (s.st.proc p).sz.toNat) :
    Does L D p (readi p f ip addr off n) s (reach s.st.mem (s.st.proc p).pgdir
      (if ip.type = tDev ∧ ip.major = console then consoleStores s addr n.toInt.toNat else [])) := by
  unfold readi
  by_cases hdev : ip.type = tDev
  · rw [if_pos hdev]
    by_cases hcons : ip.major = console
    · rw [if_pos hcons, if_pos ⟨hdev, hcons⟩]
      exact consolereadLoop_does h hp hin
    · rw [if_neg hcons, if_neg fun hboth => hcons hboth.2]
      exact advance_does h
  have hno : ¬ (ip.type = tDev ∧ ip.major = console) := fun hboth => hdev hboth.1
  rw [if_neg hdev, if_neg hno]
  refine .of_ite (fun _ => advance_does h) fun hoff => nextBlock_does h ?_
  have hsize := file_size ip
  have hmax := ip.size_le
  rw [not_or, gt_iff_lt, BitVec.not_lt, BitVec.not_lt] at hoff
  have hle : off.toNat ≤ ip.file.size.toNat := hoff.1
  show addr.toNat + (if off + n > ip.file.size then ip.file.size - off else n).toNat ≤ _ + maxfile * bsize
  split_ifs with hend
  · rw [BitVec.toNat_sub_of_le hoff.1]
    omega
  · have hend' : (off + n).toNat ≤ ip.file.size.toNat := BitVec.not_lt.mp hend
    have hwrap : off.toNat ≤ (off + n).toNat := hoff.2
    have hsum : (off + n).toNat = off.toNat + n.toNat := by
      rw [BitVec.toNat_add] at hwrap ⊢
      have := off.isLt
      have := n.isLt
      omega
    omega

theorem fileread_does (h : Ready L s D K) (hp : (s.st.proc p).state ≠ .unused)
    (hlt : addr.toNat < (s.st.proc p).sz.toNat) (hin : addr.toNat + n.toInt.toNat ≤ (s.st.proc p).sz.toNat) :
    Does L D p (fileread p f addr n) s (reach s.st.mem (s.st.proc p).pgdir (filereadStores s f addr n)) := by
  unfold fileread filereadStores
  refine .of_get ?_
  by_cases hread : (s.file f).readable
  · rw [if_neg (not_not.mpr hread), if_pos hread]
    cases (s.file f).type with
    | none => exact .throw h fun k hk => by cases hk
    | pipe => exact piperead_does h hp hin
    | inode => exact readi_does h hp hlt hin
  · rw [if_pos hread, if_neg hread]
    exact .pure h

/-- The pointer of `read` is checked with the count. -/
theorem readArgs_ok (h : readArgs st p = .ok (some (f, addr, n))) : argptr st p 1 n = .ok (some addr) := by
  unfold readArgs at h
  cases hfd : argfd st p 0 with
  | error e =>
    rw [hfd] at h
    cases h
  | ok a =>
    rw [hfd] at h
    cases a with
    | none => cases h
    | some g =>
      cases hint : argint st p 2 with
      | error e =>
        simp only [hint, bind, Except.bind] at h
        cases h
      | ok b =>
        cases b with
        | none =>
          simp only [hint, bind, Except.bind] at h
          cases h
        | some m =>
          cases hptr : argptr st p 1 m with
          | error e =>
            simp only [hint, hptr, bind, Except.bind] at h
            cases h
          | ok c =>
            simp only [hint, hptr, bind, Except.bind] at h
            cases c with
            | none => cases h
            | some va =>
              cases h
              exact hptr

theorem sysRead_does (h : Ready L s D K) (hp : (s.st.proc p).state ≠ .unused) :
    Does L D p (sysRead p) s (reach s.st.mem (s.st.proc p).pgdir (Call.read.stores s p)) := by
  unfold sysRead
  refine .of_get (.of_ofExcept h readArgs_faulty (fun ⟨e, he⟩ => ?_) fun b hb => ?_)
  · simp only [Call.stores, he]
    rfl
  · simp only [Call.stores, hb]
    obtain _ | ⟨f, addr, n⟩ := b
    · exact .pure h
    · have hptr := readArgs_ok hb
      exact fileread_does h hp (argptr_ok hptr).1 (argptr_inside hptr (h.size p hp))

theorem stati_does {f : Unit → Syscall α} {ip : Inode} (h : Ready L s D K) (hp : (s.st.proc p).state ≠ .unused)
    (hlt : addr.toNat + 20 ≤ 2 ^ 20)
    (hrest : ∀ m, Ready L { s with st := { s.st with mem := m } } D K →
      Does L D p (f ()) { s with st := { s.st with mem := m } } []) :
    Does L D p (stati p ip addr >>= f) s (reach s.st.mem (s.st.proc p).pgdir (statStores ip addr)) := by
  have hadd : ∀ k < 20, (addr + BitVec.ofNat 32 k).toNat = addr.toNat + k := by
    intro k hk
    rw [BitVec.toNat_add, BitVec.toNat_ofNat]
    omega
  have h4 : (addr + 4#32).toNat = addr.toNat + 4 := hadd 4 (by omega)
  have h8 : (addr + 8#32).toNat = addr.toNat + 8 := hadd 8 (by omega)
  have h12 : (addr + 12#32).toNat = addr.toNat + 12 := hadd 12 (by omega)
  have h16 : (addr + 16#32).toNat = addr.toNat + 16 := hadd 16 (by omega)
  have hword : ∀ w : Word, (wordBytes w).length = 4 := fun _ => rfl
  have hshort : ∀ w : BitVec 16, (shortBytes w).length = 2 := fun _ => rfl
  unfold stati statStores
  simp only [bind_assoc]
  refine .store h hp (by rw [hword]; omega) fun _ h₁ => ?_
  refine .store h₁ hp (by rw [hword]; omega) fun _ h₂ => ?_
  refine .store h₂ hp (by rw [hshort]; omega) fun _ h₃ => ?_
  refine .store h₃ hp (by rw [hshort]; omega) fun _ h₄ => ?_
  exact .store h₄ hp (by rw [hword]; omega) fun m h₅ => hrest m h₅

theorem fstatArgs_ok (h : fstatArgs st p = .ok (some (f, addr))) : argptr st p 1 20#32 = .ok (some addr) := by
  unfold fstatArgs at h
  cases hfd : argfd st p 0 with
  | error e =>
    rw [hfd] at h
    cases h
  | ok a =>
    rw [hfd] at h
    cases a with
    | none => cases h
    | some g =>
      cases hptr : argptr st p 1 20#32 with
      | error e =>
        simp only [hptr, bind, Except.bind] at h
        cases h
      | ok c =>
        simp only [hptr, bind, Except.bind] at h
        cases c with
        | none => cases h
        | some va =>
          cases h
          rfl

theorem sysFstat_does (h : Ready L s D K) (hp : (s.st.proc p).state ≠ .unused) :
    Does L D p (sysFstat p) s (reach s.st.mem (s.st.proc p).pgdir (Call.fstat.stores s p)) := by
  unfold sysFstat
  refine .of_get (.of_ofExcept h fstatArgs_faulty (fun ⟨e, he⟩ => ?_) fun b hb => ?_)
  · simp only [Call.stores, he]
    rfl
  · simp only [Call.stores, hb]
    obtain _ | ⟨f, addr⟩ := b
    · exact .pure h
    have hin := argptr_inside (fstatArgs_ok hb) (h.size p hp)
    have hsize := h.size p hp
    have h20 : (20#32 : Word).toInt.toNat = 20 := by decide
    unfold usertop at hsize
    unfold filestat
    refine .of_get ?_
    by_cases hino : (s.file f).type = .inode
    · simp only [hino, if_true]
      exact stati_does h hp (by omega) fun _ h₁ => .pure h₁
    · simp only [hino, if_false]
      exact .pure h

/-! ### pipe -/

@[simp] theorem wp_lower {c : Code α} {Q : α → Machine → Prop} {E : Break → Machine → Prop} :
    Wp (liftM c : Syscall α) Q E s ↔
      Wp c (fun a t => Q a { s with st := t }) (fun e t => E (.panic e) { s with st := t }) s.st := by
  show Wp (lower c) Q E s ↔ _
  unfold Wp lower
  cases c s.st <;> rfl

theorem filter_rest {l rest : List ℕ} {q q' : ℕ → Bool} {x : ℕ} (hl : l.Nodup) (h : l.filter q = x :: rest)
    (hq : ∀ y, q' y = (q y && y != x)) : l.filter q' = rest := by
  have hnodup : (x :: rest).Nodup := h ▸ hl.filter q
  rw [show q' = fun y => (y != x) && q y from funext fun y => by rw [hq, Bool.and_comm], ← List.filter_filter, h,
    List.filter_cons_of_neg (by simp), List.filter_eq_self]
  intro y hy
  simpa using fun heq : y = x => (List.nodup_cons.mp hnodup).1 (heq ▸ hy)

/-- A new file is the first without references. -/
theorem filealloc_spec : Wp filealloc
    (fun r t => match r with
      | none => t = s ∧ freeFiles s = []
      | some f => t = { s with st := { s.st with fileRef := Function.update s.st.fileRef f 1 } } ∧
          freeFiles s = f :: freeFiles t)
    (fun _ _ => False) s := by
  unfold filealloc
  rw [wp_bind, wp_get, ← List.head?_filter]
  show Wp (match (freeFiles s).head? with | none => _ | some f => _) _ _ _
  cases hfree : freeFiles s with
  | nil => exact wp_pure.mpr ⟨rfl, rfl⟩
  | cons f rest =>
    simp only [List.head?_cons, wp_bind, wp_set, wp_pure]
    refine ⟨trivial, congrArg (f :: ·) (Eq.symm ?_)⟩
    refine filter_rest List.nodup_range hfree fun y => ?_
    by_cases hy : y = f
    · subst hy
      simp
    · simp [hy]

/-- A file with one reference is closed. -/
def closeFile (s : Machine) (f : ℕ) : Machine :=
  { s with
    st := { s.st with fileRef := Function.update s.st.fileRef f 0 }
    file := Function.update s.file f { s.file f with type := .none } }

theorem Ready.closeFile (h : Ready L s D K) : Ready L (closeFile s f) D K :=
  h.same (.of_proc rfl) h.inv .refl fun x hx => by
    by_cases hxf : x = f
    · subst hxf
      simp only [Descriptors.closeFile, Function.update_self]
    · simp only [Descriptors.closeFile, Function.update_of_ne hxf] at hx ⊢
      exact h.closed x hx

/-- One end of a pipe is closed. -/
def closeEnd (s : Machine) (pi : ℕ) (writable : Bool) : Machine :=
  { s with
    pipe := Function.update s.pipe pi
      (if writable then { s.pipe pi with writeopen := false } else { s.pipe pi with readopen := false }) }

theorem fileclose_new (href : s.st.fileRef f = 1) (htype : (s.file f).type = .none) :
    Wp (fileclose L f) (fun _ t => t = closeFile s f) (fun _ _ => False) s := by
  unfold fileclose Processes.fileclose modifyFile
  simp only [wp_bind, wp_get, wp_lower, wp_ite, wp_throw, wp_set, wp_modify, wp_pure, href, htype]
  exact ⟨fun h => absurd h (lt_irrefl 1), fun _ => ⟨fun _ => rfl, fun h => absurd trivial h⟩⟩

/-- Nobody is left at the pipe. -/
def Pipe.Shut (q : Pipe) : Prop := q.readopen = false ∧ q.writeopen = false

instance {q : Pipe} : Decidable q.Shut := inferInstanceAs (Decidable (_ ∧ _))

theorem fileclose_pipe (h : Ready L s D K) (href : s.st.fileRef f = 1) (htype : (s.file f).type = .pipe)
    (hpi : (s.file f).pipe = pi) (hK : pi ∈ K) :
    Wp (fileclose L f)
      (fun _ t => if ((closeEnd s pi (s.file f).writable).pipe pi).Shut then
          ∃ m, t = { closeEnd (closeFile s f) pi (s.file f).writable with
            st := { (closeFile s f).st with mem := m } } ∧
            Inv L True m D (K.erase pi) ∧ Kept s.st.mem m D ∧ SameTables s.st.mem m D
        else t = closeEnd (closeFile s f) pi (s.file f).writable)
      (fun _ _ => False) s := by
  subst hpi
  unfold fileclose Processes.fileclose modifyFile pipeclose modifyPipe
  simp only [wp_bind, wp_get, wp_lower, wp_ite, wp_throw, wp_set, wp_modify, wp_pure, wp_paging, href, htype]
  refine ⟨fun hlt => absurd hlt (lt_irrefl 1), fun _ => ⟨fun _ => ⟨fun hshut => ?_, fun hopen => ?_⟩,
    fun hne => absurd trivial hne⟩⟩
  · refine (h.inv.kfree_spec hK).mono (fun _ m hfreed => ?_) fun _ _ => False.elim
    obtain ⟨hinv, hkept, -, -, hbyte⟩ := hfreed
    rw [if_pos (by exact hshut)]
    exact ⟨m, rfl, hinv, hkept, sameTables_of_byte (h.inv.offTables_kern hK) hbyte⟩
  · rw [if_neg (by exact hopen)]
    rfl

/-- The two ends of a new pipe. -/
structure Opened (L : Layout) (s : Machine) (D K : Finset ℕ) (rf wf pi : ℕ) : Prop where
  ready : Ready L s D K
  mem : pi ∈ K
  ne : rf ≠ wf
  readRef : s.st.fileRef rf = 1
  writeRef : s.st.fileRef wf = 1
  reader : (s.file rf).type = .pipe ∧ (s.file rf).pipe = pi ∧ (s.file rf).writable = false
  writer : (s.file wf).type = .pipe ∧ (s.file wf).pipe = pi ∧ (s.file wf).writable = true
  writeopen : (s.pipe pi).writeopen = true

/-- Both ends of a new pipe are closed again. -/
theorem closeBoth_does {rf wf : ℕ} {r : ℤ} (h : Opened L s D K rf wf pi) :
    Does L D p (fileclose L rf >>= fun _ => fileclose L wf >>= fun _ => Pure.pure r) s [] := by
  obtain ⟨hrt, hrp, hrw⟩ := h.reader
  obtain ⟨hwt, hwp, hww⟩ := h.writer
  have hopen : ¬ ((closeEnd s pi (s.file rf).writable).pipe pi).Shut := fun hshut => by
    have hw := hshut.2
    simp [closeEnd, hrw, h.writeopen] at hw
  refine Wp.bind ((fileclose_pipe h.ready h.readRef hrt hrp h.mem).mono (fun _ t ht => ht) fun _ _ => False.elim) ?_
  intro _ t ht
  rw [if_neg hopen, hrw] at ht
  have hfile : t.file wf = s.file wf := by
    rw [ht]
    exact Function.update_of_ne h.ne.symm _ _
  have href : t.st.fileRef wf = 1 := by
    rw [ht, ← h.writeRef]
    exact Function.update_of_ne h.ne.symm _ _
  have hready : Ready L t D K := by
    have hclosed : Ready L (closeFile s rf) D K := h.ready.closeFile
    rw [ht]
    exact hclosed.same (.of_proc rfl) hclosed.inv .refl hclosed.closed
  have hshut : ((closeEnd t pi (t.file wf).writable).pipe pi).Shut := by
    rw [hfile, hww, ht]
    simp [Pipe.Shut, closeEnd]
  refine Wp.bind ((fileclose_pipe hready href (hfile ▸ hwt) (hfile ▸ hwp) h.mem).mono (fun _ u hu => hu)
    fun _ _ => False.elim) ?_
  intro _ u hu
  rw [if_pos hshut] at hu
  obtain ⟨m, rfl, hinv, hkept, htab⟩ := hu
  have hmem : t.st.mem = s.st.mem := by
    rw [ht]
    rfl
  have hsame : SameSpaces s.st t.st := .of_proc (by rw [ht]; rfl)
  have hready' : Ready L (closeFile t wf) D K := hready.closeFile
  refine wp_pure.mpr (.of_byte (hready'.same (.of_proc rfl) hinv htab hready'.closed) (hsame.trans (.of_proc rfl))
    (hmem ▸ htab) fun e he v hv hp => ?_)
  have himage := hkept e he v hv
  have hent := (htab e he).2 v (by omega)
  rw [hmem] at himage hent
  rw [image_of_present (by rwa [hent]), image_of_present hp, hent] at himage
  exact Option.some.inj himage

/-- There are two files and a page for a pipe. -/
def Room (s : Machine) : Prop := (∃ f0 f1 rest, freeFiles s = f0 :: f1 :: rest) ∧ s.st.mem.freelist ≠ []

theorem ref_of_mem_freeFiles (hf : f ∈ freeFiles s) : s.st.fileRef f = 0 := by simpa using (List.mem_filter.mp hf).2

/-- One file more is in use. -/
def newFile (s : Machine) (f : ℕ) : Machine :=
  { s with st := { s.st with fileRef := Function.update s.st.fileRef f 1 } }

theorem Ready.newFile (h : Ready L s D K) : Ready L (newFile s f) D K :=
  h.same (.of_proc rfl) h.inv .refl fun x hx => by
    by_cases hxf : x = f
    · subst hxf
      simp [Descriptors.newFile] at hx
    · exact h.closed x (by rwa [← Function.update_of_ne hxf 1 s.st.fileRef])

/-- A pipe in page `pi`, between files `f0` and `f1`. -/
def openPipe (s : Machine) (f0 f1 pi : ℕ) : Machine :=
  let reader := { s.file f0 with type := .pipe, readable := true, writable := false, pipe := pi }
  let file := Function.update s.file f0 reader
  let q := { s.pipe pi with readopen := true, writeopen := true, nwrite := 0#32, nread := 0#32 }
  { s with
    pipe := Function.update s.pipe pi q
    file := Function.update file f1 { file f1 with type := .pipe, readable := false, writable := true, pipe := pi } }

theorem Ready.openPipe {f0 f1 : ℕ} (h : Ready L s D K) (h0 : s.st.fileRef f0 ≠ 0) (h1 : s.st.fileRef f1 ≠ 0) :
    Ready L (openPipe s f0 f1 pi) D K :=
  h.same (.of_proc rfl) h.inv .refl fun x hx => by
    have hx1 : x ≠ f1 := fun heq => h1 (heq ▸ hx)
    have hx0 : x ≠ f0 := fun heq => h0 (heq ▸ hx)
    simp only [Descriptors.openPipe, Function.update_of_ne hx1, Function.update_of_ne hx0]
    exact h.closed x hx

theorem pipealloc_spec (h : Ready L s D K) :
    Wp (pipealloc L)
      (fun r t => Effect L D s t [] ∧ t.st.proc = s.st.proc ∧ match r with
        | none => ¬ Room s
        | some (rf, wf) => Room s ∧ ∃ K' pi, Opened L t D K' rf wf pi)
      (fun _ _ => False) s := by
  unfold pipealloc
  refine Wp.bind filealloc_spec ?_
  rintro (_ | f0) t ht
  · obtain ⟨rfl, hnil⟩ := ht
    refine wp_pure.mpr ⟨.refl h, rfl, fun hroom => ?_⟩
    obtain ⟨⟨f0, f1, rest, hfree⟩, -⟩ := hroom
    rw [hnil] at hfree
    cases hfree
  obtain ⟨ht, hfree₀⟩ := ht
  replace ht : t = newFile s f0 := ht
  subst ht
  have href₀ : (newFile s f0).st.fileRef f0 = 1 := Function.update_self _ _ _
  have htype₀ : (s.file f0).type = .none := h.closed f0 (ref_of_mem_freeFiles (hfree₀ ▸ List.mem_cons_self))
  refine Wp.bind filealloc_spec ?_
  rintro (_ | f1) u hu
  · obtain ⟨rfl, hnil⟩ := hu
    refine Wp.bind (fileclose_new href₀ htype₀) fun _ u hu => ?_
    subst hu
    refine wp_pure.mpr ⟨.of_byte h.newFile.closeFile (.of_proc rfl) .refl fun _ _ _ _ _ => rfl, rfl, fun hroom => ?_⟩
    obtain ⟨⟨g0, g1, rest, hfree⟩, -⟩ := hroom
    rw [hfree₀, hnil] at hfree
    cases hfree
  obtain ⟨hu, hfree₁⟩ := hu
  replace hu : u = newFile (newFile s f0) f1 := hu
  subst hu
  have hzero₁ := ref_of_mem_freeFiles (hfree₁ ▸ List.mem_cons_self)
  have hne : f0 ≠ f1 := fun heq => by
    rw [← heq, href₀] at hzero₁
    cases hzero₁
  have htype₁ : (s.file f1).type = .none := h.newFile.closed f1 hzero₁
  have hready := (h.newFile (f := f0)).newFile (f := f1)
  rw [wp_bind, wp_lower, wp_paging]
  refine h.inv.kalloc_spec.mono (fun pg m ⟨hbyte, htook⟩ => ?_) fun _ _ => False.elim
  obtain ⟨rfl, hnil, -, hinv⟩ | ⟨hne0, -, hlist, hinv, -, -⟩ := htook
  · have hready' : Ready L { newFile (newFile s f0) f1 with
        st := { (newFile (newFile s f0) f1).st with mem := m } } D K :=
      hready.same (.of_proc rfl) hinv (sameTables_of_eq hbyte) hready.closed
    rw [if_pos rfl]
    refine Wp.bind (fileclose_new ?_ htype₀) fun _ v hv => ?_
    · exact (Function.update_of_ne hne _ _).trans href₀
    subst hv
    refine Wp.bind (fileclose_new ?_ ?_) fun _ v hv => ?_
    · exact (Function.update_of_ne hne.symm _ _).trans (Function.update_self _ _ _)
    · exact (congrArg OpenFile.type (Function.update_of_ne hne.symm _ _)).trans htype₁
    subst hv
    refine wp_pure.mpr ⟨.of_byte hready'.closeFile.closeFile (.of_proc rfl) (sameTables_of_eq hbyte)
      fun _ _ _ _ _ => congrFun hbyte _, rfl, fun hroom => hroom.2 hnil⟩
  · rw [if_neg hne0]
    unfold modifyPipe modifyFile
    simp only [wp_bind, wp_modify, wp_pure]
    have hready' := hready.same (t := { newFile (newFile s f0) f1 with
      st := { (newFile (newFile s f0) f1).st with mem := m } }) (.of_proc rfl) hinv (sameTables_of_eq hbyte)
      hready.closed
    have href₁ : (newFile (newFile s f0) f1).st.fileRef f1 = 1 := Function.update_self _ _ _
    have href₀' : (newFile (newFile s f0) f1).st.fileRef f0 = 1 := (Function.update_of_ne hne _ _).trans href₀
    have hopened : Ready L (openPipe _ f0 f1 pg) D (insert pg K) :=
      hready'.openPipe (href₀' ▸ one_ne_zero) (href₁ ▸ one_ne_zero)
    refine ⟨.of_byte hopened (.of_proc rfl) (sameTables_of_eq hbyte) fun _ _ _ _ _ => congrFun hbyte _, rfl,
      ⟨⟨f0, f1, _, hfree₀.trans (congrArg (f0 :: ·) hfree₁)⟩, hlist ▸ List.cons_ne_nil _ _⟩, insert pg K, pg, hopened,
      Finset.mem_insert_self _ _, hne, href₀', href₁, ?_, ?_, ?_⟩
    · simp [Function.update_of_ne hne]
    · simp
    · simp

/-- A descriptor is set. -/
def putFd (s : Machine) (p : Fin nproc) (fd : ℕ) (f : Option ℕ) : Machine :=
  let q := { s.st.proc p with ofile := Function.update (s.st.proc p).ofile fd f }
  { s with st := { s.st with proc := Function.update s.st.proc p q } }

variable {fd fd0 fd1 rf wf : ℕ} {g : Option ℕ}

theorem putFd_same (s : Machine) (p : Fin nproc) (fd : ℕ) (g : Option ℕ) :
    SameSpaces s.st (putFd s p fd g).st :=
  .update rfl rfl rfl .rfl

theorem Opened.putFd (h : Opened L s D K rf wf pi) : Opened L (putFd s p fd g) D K rf wf pi :=
  { h with ready := h.ready.same (putFd_same s p fd g) h.ready.inv .refl h.ready.closed }

theorem fdalloc_spec : Wp (fdalloc p f)
    (fun r t => match r with
      | none => t = s ∧ freeFds s p = []
      | some fd => t = putFd s p fd (some f) ∧ freeFds s p = fd :: freeFds t p)
    (fun _ _ => False) s := by
  unfold fdalloc setFd modifyProc
  rw [wp_bind, wp_get, ← List.head?_filter]
  show Wp (match (freeFds s p).head? with | none => _ | some fd => _) _ _ _
  cases hfree : freeFds s p with
  | nil => exact wp_pure.mpr ⟨rfl, rfl⟩
  | cons fd rest =>
    simp only [List.head?_cons, wp_bind, wp_lower, wp_modify, wp_pure]
    refine ⟨rfl, congrArg (fd :: ·) (Eq.symm ?_)⟩
    refine filter_rest List.nodup_range hfree fun y => ?_
    by_cases hy : y = fd
    · subst hy
      simp
    · simp [hy]

/-- A descriptor is set, and the rest goes on. -/
theorem setFd_does {c : Unit → Syscall α} (h : Ready L (putFd s p fd g) D K)
    (hrest : Does L D p (c ()) (putFd s p fd g) ws) : Does L D p ((setFd p fd g : Code Unit) >>= c) s ws := by
  have heff : Effect L D s (putFd s p fd g) [] := .of_byte h (putFd_same s p fd g) .refl fun _ _ _ _ _ => rfl
  unfold Does setFd modifyProc
  rw [wp_bind, wp_lower, wp_modify]
  exact Does.from_effect heff hrest

theorem pipeFds_of_not_room (h : ¬ Room s) : pipeFds s p = none := by
  unfold pipeFds
  split
  next f0 f1 rest x xs fd0 fd1 fds hfree hlist hfds =>
    exact absurd ⟨⟨f0, f1, rest, hfree⟩, hlist ▸ List.cons_ne_nil _ _⟩ h
  next => rfl

theorem pipeFds_of_room (h : Room s) : pipeFds s p = match freeFds s p with
    | fd0 :: fd1 :: _ => some (fd0, fd1)
    | _ => none := by
  obtain ⟨⟨f0, f1, rest, hfree⟩, hlist⟩ := h
  obtain ⟨x, xs, hlist⟩ := List.exists_cons_of_ne_nil hlist
  unfold pipeFds
  rw [hfree, hlist]
  rcases freeFds s p with _ | ⟨fd0, _ | ⟨fd1, fds⟩⟩ <;> rfl

theorem sysPipe_does (h : Ready L s D K) (hp : (s.st.proc p).state ≠ .unused) :
    Does L D p (sysPipe L p) s (reach s.st.mem (s.st.proc p).pgdir (Call.pipe.stores s p)) := by
  unfold sysPipe
  refine .of_get (.of_ofExcept h argptr_faulty (fun ⟨e, he⟩ => ?_) fun b hb => ?_)
  · simp only [Call.stores, he]
    rfl
  simp only [Call.stores, hb]
  obtain _ | fd := b
  · exact .pure h
  have hin := argptr_inside hb (h.size p hp)
  have hsize := h.size p hp
  have h8 : (8#32 : Word).toInt.toNat = 8 := by decide
  unfold usertop at hsize
  refine Wp.bind ((pipealloc_spec h).mono (fun _ _ ht => ht) fun _ _ => False.elim) ?_
  rintro (_ | ⟨rf, wf⟩) t ⟨heff, hproc, ht⟩
  · rw [pipeFds_of_not_room ht]
    exact wp_pure.mpr heff
  obtain ⟨hroom, K', pi, hopened⟩ := ht
  rw [pipeFds_of_room hroom, ← reach_same heff.tables (h.dirs.mem p hp)]
  refine Does.from_effect heff ?_
  have hfds : freeFds s p = freeFds t p := by
    unfold freeFds
    rw [hproc]
  rw [hfds, ← hproc]
  refine Wp.bind (fdalloc_spec.mono (fun _ _ hu => hu) fun _ _ => False.elim) ?_
  rintro (_ | fd0) u hu
  · obtain ⟨rfl, hnil⟩ := hu
    rw [hnil]
    exact closeBoth_does hopened
  obtain ⟨rfl, hfds₀⟩ := hu
  rw [hfds₀]
  have hopened₀ : Opened L (putFd t p fd0 (some rf)) D K' rf wf pi := hopened.putFd
  have heff₀ : Effect L D t (putFd t p fd0 (some rf)) [] :=
    .of_byte hopened₀.ready (putFd_same t p fd0 (some rf)) .refl fun _ _ _ _ _ => rfl
  have hpgdir := (putFd_same t p fd0 (some rf) p).1
  rw [← hpgdir]
  refine Does.from_effect heff₀ (Wp.bind (fdalloc_spec.mono (fun _ _ hu => hu) fun _ _ => False.elim) ?_)
  rintro (_ | fd1) u hu
  · obtain ⟨rfl, hnil⟩ := hu
    rw [hnil]
    have hopened₁ : Opened L (putFd (putFd t p fd0 (some rf)) p fd0 none) D K' rf wf pi := hopened₀.putFd
    exact setFd_does hopened₁.ready (closeBoth_does hopened₁)
  obtain ⟨rfl, hfds₁⟩ := hu
  rw [hfds₁]
  have hopened₁ : Opened L (putFd (putFd t p fd0 (some rf)) p fd1 (some wf)) D K' rf wf pi := hopened₀.putFd
  have heff₁ : Effect L D (putFd t p fd0 (some rf)) _ [] :=
    .of_byte hopened₁.ready (putFd_same _ p fd1 (some wf)) .refl fun _ _ _ _ _ => rfl
  have hpgdir₁ := (putFd_same (putFd t p fd0 (some rf)) p fd1 (some wf) p).1
  have hstate := mt (putFd_same t p fd0 (some rf) p).2.2.mp (hproc ▸ hp)
  have hstate₁ := mt (putFd_same (putFd t p fd0 (some rf)) p fd1 (some wf) p).2.2.mp hstate
  have h4 : (fd + 4#32).toNat = fd.toNat + 4 := by
    rw [BitVec.toNat_add, BitVec.toNat_ofNat]
    omega
  have hword : ∀ w : Word, (wordBytes w).length = 4 := fun _ => rfl
  rw [← hpgdir₁]
  refine Does.from_effect heff₁ (.store hopened₁.ready hstate₁ (by rw [hword]; omega) fun _ h₁ => ?_)
  exact .store h₁ hstate₁ (by rw [hword]; omega) fun _ h₂ => .pure h₂

/-! ### Who sees it -/

/-- **A call stores the bytes `Call.stores`**, up to the first page that is not there. -/
theorem Call.does (c : Call) (h : Ready L s D K) (hp : (s.st.proc p).state ≠ .unused) (hok : c.Ok s p) :
    Does L D p (c.run L p) s (reach s.st.mem (s.st.proc p).pgdir (c.stores s p)) := by
  cases c with
  | read => exact sysRead_does h hp
  | fstat => exact sysFstat_does h hp
  | pipe => exact sysPipe_does h hp
  | resume k =>
    cases k with
    | pipe pi addr n => exact piperead_does h hp hok
    | console f dst n target => exact consolereadLoop_does h hp hok
    | block f dst off left n => exact readBlock_does h hp hok

/-- Every process but `p` has the same memory as before. -/
def OthersKept (p : Fin nproc) (s t : Machine) : Prop :=
  ∀ q ≠ p, (s.st.proc q).state ≠ .unused → ∀ v < 160,
    image t.st.mem (t.st.proc q).pgdir v = image s.st.mem (s.st.proc q).pgdir v

/-- The call keeps the memory of the others, whether it returns, sleeps or stops. -/
def StaysPrivate (L : Layout) (c : Call) (p : Fin nproc) (s : Machine) : Prop :=
  Wp (c.run L p) (fun _ t => OthersKept p s t) (fun _ t => OthersKept p s t) s

/-- One of the bytes lands in a page of another process, which has another byte there. -/
def Leaks (s : Machine) (p : Fin nproc) (ws : List ((ℕ × ℕ) × BitVec 8)) : Prop :=
  ∃ q ≠ p, (s.st.proc q).state ≠ .unused ∧ ∃ v < 160, present (entry s.st.mem (s.st.proc q).pgdir v) ∧
    ∃ o b, lands ws (pageOf (entry s.st.mem (s.st.proc q).pgdir v)) o = some b ∧
      b ≠ s.st.mem.byte (pageOf (entry s.st.mem (s.st.proc q).pgdir v)) o

theorem Effect.othersKept_iff (h : Ready L s D K) (he : Effect L D s t ws) : OthersKept p s t ↔ ¬ Leaks s p ws := by
  constructor
  · rintro hkept ⟨q, hq, hused, v, hv, hp, o, b, hb, hne⟩
    have hmem := h.dirs.mem q hused
    have himage := hkept q hq hused v hv
    have hent := (he.tables _ hmem).2 v (by omega)
    have hbyte := he.bytes _ hmem v hv hp o
    rw [(he.spaces q).1, image_of_present hp, image_of_present (hent ▸ hp), hent] at himage
    rw [hb, congrFun (Option.some.inj himage)] at hbyte
    exact hne hbyte.symm
  · intro hno q hq hused v hv
    have hmem := h.dirs.mem q hused
    have hent := (he.tables _ hmem).2 v (by omega)
    rw [(he.spaces q).1]
    by_cases hp : present (entry s.st.mem (s.st.proc q).pgdir v)
    · rw [image_of_present hp, image_of_present (hent ▸ hp), hent]
      refine congrArg some (funext fun o => ?_)
      rw [he.bytes _ hmem v hv hp o]
      cases hb : lands ws (pageOf (entry s.st.mem (s.st.proc q).pgdir v)) o with
      | none => rfl
      | some b =>
        by_contra hne
        exact hno ⟨q, hq, hused, v, hv, hp, o, b, hb, hne⟩
    · rw [image_eq_none.mpr hp, image_eq_none.mpr (hent ▸ hp)]

/-- **What the kernel stores for a process stays private** exactly if no byte lands in a page of another one, where
it is new: `vmenable` leaves write protection off in the kernel, and nothing copies the page before. -/
theorem stores_private_iff (h : (scarce L).Reachable ⟨s.st.mem, D, K⟩) (hdirs : Each s.st Proc.pgdir D)
    (hsize : ∀ q, (s.st.proc q).state ≠ .unused → (s.st.proc q).sz.toNat ≤ usertop)
    (hclosed : ∀ f, s.st.fileRef f = 0 → (s.file f).type = .none) (hp : (s.st.proc p).state ≠ .unused) (c : Call)
    (hok : c.Ok s p) :
    StaysPrivate L c p s ↔ ¬ Leaks s p (reach s.st.mem (s.st.proc p).pgdir (c.stores s p)) := by
  have hready : Ready L s D K := .of_reachable h hdirs hsize hclosed
  have hdoes := c.does hready hp hok
  constructor
  · intro hpriv
    exact wp_const.mp ((hpriv.and hdoes).mono (fun _ t ht => (ht.2.othersKept_iff hready).mp ht.1)
      fun _ t ht => (ht.2.1.othersKept_iff hready).mp ht.1)
  · intro hno
    exact hdoes.mono (fun _ t he => (he.othersKept_iff hready).mpr hno) fun _ t he =>
      (he.1.othersKept_iff hready).mpr hno

/-! A child with all its pages shared calls `fstat(0, 0)`: the type of file 0 is in page 0 of the parent, then. -/

/-- A process with nothing on its stack, and file 0 open. -/
def process (d : ℕ) (state : ProcState) : Processes.Proc where
  sz := 4096#32
  pgdir := d
  kstack := 0
  state := state
  pid := 0#32
  parent := none
  tf := ⟨0#32, 0#32, 0#32⟩
  killed := false
  ofile fd := if fd = 0 then some 0 else none
  cwd := 0
  name := []

/-- Process 0 runs with directory `d`, and process 1 waits with `e`. -/
def twoProcesses (m : Mem) (d e : ℕ) : Machine where
  st := {
    mem := m
    proc := fun q => if q = 0 then process d .running else if q = 1 then process e .runnable else process 0 .unused
    nextpid := 0#32
    fileRef := fun f => if f = 0 then 2 else 0
    inodeRef := fun _ => 0 }
  file f := ⟨if f = 0 then .inode else .none, true, false, 0, 0, 0#32⟩
  pipe _ := ⟨fun _ => 0#8, 0#32, 0#32, false, false⟩
  inode _ := ⟨1#32, 2#32, 2#16, 0#16, 1#16, ⟨[], by decide⟩, by decide⟩
  input := ⟨fun _ => 0#8, 0#32, 0#32⟩

variable {m : Mem} {d e : ℕ} {va : Word}

theorem reaches_zero (hpres : present (entry m d 0)) (hva : va.toNat + k ≤ 4096) : Reaches m d va k := by
  intro i hi
  rw [BitVec.toNat_add, BitVec.toNat_ofNat, Nat.div_eq_of_lt (by omega)]
  exact hpres

theorem place_zero (hva : va.toNat < 4096) : place m d va = (pageOf (entry m d 0), va.toNat) := by
  unfold place
  rw [Nat.div_eq_of_lt hva, Nat.mod_eq_of_lt hva]

/-- A word in a page of zeros. -/
theorem fetchint_zero (hpres : present (entry st.mem (st.proc p).pgdir 0))
    (hzero : st.mem.byte (pageOf (entry st.mem (st.proc p).pgdir 0)) = fun _ => 0#8) (hi : i.toNat + 4 < 4096)
    (hsz : (st.proc p).sz = 4096#32) : fetchint st p i = .ok (some 0#32) := by
  have hadd : ∀ k < 5, (i + BitVec.ofNat 32 k).toNat = i.toNat + k := by
    intro k hk
    rw [BitVec.toNat_add, BitVec.toNat_ofNat]
    omega
  have hin : ¬ ((st.proc p).sz ≤ i ∨ (st.proc p).sz < i + 4#32) := by
    have h4 := hadd 4 (by omega)
    rw [hsz, BitVec.le_def, BitVec.lt_def, h4, BitVec.toNat_ofNat]
    omega
  have hload : ∀ k < 4, loadByte st.mem (st.proc p).pgdir (i + BitVec.ofNat 32 k) = 0#8 := by
    intro k hk
    unfold loadByte
    rw [place_zero (by rw [hadd k (by omega)]; omega), hzero]
  have h0 := hload 0 (by omega)
  rw [BitVec.add_zero] at h0
  unfold fetchint loadWord
  rw [if_neg hin, if_pos (reaches_zero hpres hi.le), h0, hload 3 (by omega), hload 2 (by omega), hload 1 (by omega)]
  rfl

theorem fstat_leaks : ∃ (s : Machine) (v : ℕ),
    image s.st.mem (s.st.proc 0).pgdir v = image s.st.mem (s.st.proc 1).pgdir v ∧
    ¬ StaysPrivate smallKernel .fstat 0 s := by
  obtain ⟨⟨m, D, K⟩, d, e, h, hd, he, hne, himg, himg', hshared⟩ := shared_reachable
  have hused : ∀ q, ((twoProcesses m d e).st.proc q).state ≠ .unused → q = 0 ∨ q = 1 := by
    intro q hq
    by_contra hno
    rw [not_or] at hno
    simp [twoProcesses, process, hno.1, hno.2] at hq
  have hdirs : Each (twoProcesses m d e).st Proc.pgdir D := by
    constructor
    case mem =>
      intro q hq
      obtain rfl | rfl := hused q hq
      · exact hd
      · exact he
    case inj =>
      intro q r hq hr heq
      obtain rfl | rfl := hused q hq <;> obtain rfl | rfl := hused r hr
      · rfl
      · exact absurd heq hne
      · exact absurd heq hne.symm
      · rfl
  have hsize : ∀ q, ((twoProcesses m d e).st.proc q).state ≠ .unused →
      ((twoProcesses m d e).st.proc q).sz.toNat ≤ usertop := by
    intro q hq
    obtain rfl | rfl := hused q hq <;> exact (by decide : (4096#32 : Word).toNat ≤ usertop)
  have hclosed : ∀ f, (twoProcesses m d e).st.fileRef f = 0 → ((twoProcesses m d e).file f).type = .none := by
    intro f hf
    by_cases h0 : f = 0 <;> simp [twoProcesses, h0] at hf ⊢
  refine ⟨twoProcesses m d e, 0, himg.trans himg'.symm, ?_⟩
  rw [stores_private_iff (scarce_of_pool h) hdirs hsize hclosed (fun h' => by cases h') .fstat trivial, not_not]
  have hzero : m.byte (pageOf (entry m d 0)) = fun _ => 0#8 := by
    rw [image_of_present hshared.present] at himg
    exact Option.some.inj himg
  have hargint : ∀ k < 2, argint (twoProcesses m d e).st 0 k = .ok (some 0#32) := by
    intro k hk
    refine fetchint_zero hshared.present hzero ?_ rfl
    show (0#32 + 4#32 + BitVec.ofNat 32 (4 * k)).toNat + 4 < 4096
    interval_cases k <;> decide
  have hargs : fstatArgs (twoProcesses m d e).st 0 = .ok (some (0, 0#32)) := by
    simp only [fstatArgs, argfd, argptr, hargint 0 (by omega), hargint 1 (by omega)]
    rfl
  have hstores : Call.fstat.stores (twoProcesses m d e) 0 = statStores ((twoProcesses m d e).inode 0) 0#32 := by
    simp only [Call.stores, hargs]
    rfl
  have hreach : ∀ va : Word, va.toNat < 17 → ∀ n < 5, Reaches m d va n := fun va hva n hn =>
    reaches_zero hshared.present (by omega)
  have hplace : ∀ va : Word, va.toNat < 20 → place m d va = (pageOf (entry m d 0), va.toNat) := fun va hva =>
    place_zero (by omega)
  have hfirst : ∀ g k : ℕ, k ≠ 0 → ((g, 0) == (g, k)) = false := fun g k hk =>
    beq_false_of_ne fun heq => hk (Prod.mk.inj heq).2.symm
  refine ⟨1, by decide, ProcState.noConfusion, 0, by decide, hshared.other, 0, 2#8, ?_, ?_⟩
  · rw [hstores, statStores]
    show lands (reach m d _) (pageOf (entry m e 0)) 0 = _
    rw [hshared.same]
    simp [reach, hreach, placed, hplace, lands, wordBytes, shortBytes, twoProcesses, File.size, List.lookup_cons,
      hfirst]
  · show _ ≠ m.byte (pageOf (entry m e 0)) 0
    rw [hshared.same, hzero]
    decide

end OperatingSystems.CowFork.Descriptors
