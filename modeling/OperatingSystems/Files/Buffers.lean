import OperatingSystems.Files.Runs
import OperatingSystems.Files.Touches

/-! # The buffer of read and write

Which bytes of the process `sys_read` and `sys_write` touch. `argptr` lets a negative size pass, as long as the
pointer and the size add up to an address of the process. The console and the pipes then do nothing, but `readi`
and `writei` take the size as a number without a sign (`confined_iff`). -/

namespace OperatingSystems.Files.Buffers

open OperatingSystems.Files.Syscalls OperatingSystems.Lib.Footprint OperatingSystems.Lib.WeakestPre
  OperatingSystems.Lib.Words OperatingSystems.Pipes

/-! ### The first byte of a transfer -/

section
variable {s t : System} {x : Fin ninode} {bn n off p : ℕ}

/-- `bmap` and `bread` get block `bn` of the file. -/
def Gets (s : System) (x : Fin ninode) (bn : ℕ) (t : System) : Prop :=
  ∃ b u data, Syscalls.bmap x bn s = .ok b u ∧ bread b.toNat u = .ok data t

theorem Gets.still (h : Gets s x bn t) : Still s t := by
  obtain ⟨b, u, data, hb, hdata⟩ := h
  have hu : Still s u := (still_bmap x bn).of_ok hb
  have ht : Still u t := (still_bread b.toNat).of_ok hdata
  exact ⟨ht.1.trans hu.1, ht.2.trans hu.2⟩

/-- What has a block lies before `MAXFILE`. -/
theorem Gets.lt (h : Gets s x (off / bsize) t) : off < maxfile * bsize := by
  obtain ⟨b, u, data, hb, -⟩ := h
  by_contra hout
  rw [Syscalls.bmap_out ((Nat.le_div_iff_mul_le (by decide)).mpr (not_lt.mp hout))] at hb
  cases hb

/-- A buffer that is mapped at its start is touched there. -/
theorem mem_reach {m : ℕ} (hm : 0 < m) (hp : s.proc.mapped p = true) :
    p ∈ s.touched ++ List.range' p (reach s.proc.mapped p m) := by
  refine List.mem_append_right _ (List.mem_range'_1.mpr ?_)
  have := reach_pos hp hm
  omega

theorem mem_toUser {m : ℕ} {bytes : ℕ → Byte} (hm : 0 < m) (hp : s.proc.mapped p = true) :
    Wp (Syscalls.toUser p m bytes) (fun _ t => p ∈ t.touched) (fun _ t => p ∈ t.touched) s := by
  have hmem := mem_reach (s := s) hm hp
  simp only [Syscalls.toUser, Files.toUser, wp_bind, wp_get, wp_kernel, wp_ite, wp_throw, wp_pure]
  exact wp_modify.mpr ⟨fun _ => hmem, fun _ => hmem⟩

theorem mem_fromUser {m : ℕ} (hm : 0 < m) (hp : s.proc.mapped p = true) :
    Wp (Syscalls.fromUser p m) (fun _ t => p ∈ t.touched) (fun _ t => p ∈ t.touched) s := by
  have hmem := mem_reach (s := s) hm hp
  simp [Syscalls.fromUser, Files.fromUser, hmem]

/-- The bytes of a turn. -/
theorem turn_pos (hn : 0 < n) : 0 < min (n - 0) (bsize - off % bsize) := by
  have := Nat.mod_lt off (show 0 < bsize by decide)
  omega

/-- What has been touched stays so. -/
theorem SysTouches.mem {α : Type} {c : Sys α} {a : ℕ} (h : SysTouches (fun _ => True) c s)
    (ha : a ∈ s.touched) : Wp c (fun _ t => a ∈ t.touched) (fun _ t => a ∈ t.touched) s :=
  Within.wp_mem h ha

theorem mem_readLoop (hn : 0 < n) (hb : Gets s x (off / bsize) t) (hp : s.proc.mapped p = true) :
    Wp (Syscalls.readLoop x n n 0 off p) (fun _ u => p ∈ u.touched) (fun _ u => p ∈ u.touched) s := by
  obtain ⟨fuel, rfl⟩ : ∃ fuel, n = fuel + 1 := ⟨n - 1, by omega⟩
  have ht : t.proc.mapped p = true := hb.still.2 ▸ hp
  obtain ⟨b, u, data, hb, hdata⟩ := hb
  unfold Syscalls.readLoop
  rw [if_pos hn, wp_bind_of_ok hb, wp_bind_of_ok hdata]
  refine (mem_toUser (turn_pos hn) ht).bind fun _ v hv => ?_
  exact SysTouches.mem ((touches_readLoop x _ _).more fun _ _ => trivial) hv

theorem mem_writeLoop (hn : 0 < n) (hb : Gets s x (off / bsize) t) (hp : s.proc.mapped p = true) :
    Wp (Syscalls.writeLoop x n n 0 off p) (fun _ u => p ∈ u.touched) (fun _ u => p ∈ u.touched) s := by
  obtain ⟨fuel, rfl⟩ : ∃ fuel, n = fuel + 1 := ⟨n - 1, by omega⟩
  have ht : t.proc.mapped p = true := hb.still.2 ▸ hp
  obtain ⟨b, u, data, hb, hdata⟩ := hb
  unfold Syscalls.writeLoop
  rw [if_pos hn, wp_bind_of_ok hb, wp_bind_of_ok hdata]
  refine (mem_fromUser (turn_pos hn) ht).bind fun bytes v hv => SysTouches.mem ?_ hv
  exact (touches_of_still (still_bwrite _ _)).bind fun _ _ => (touches_writeLoop x _ _).more fun _ _ => trivial

/-- Without its first block a transfer touches nothing. -/
theorem untouched_readLoop (hb : ∀ t, ¬ Gets s x (off / bsize) t) :
    SysTouches (fun _ => False) (Syscalls.readLoop x n n 0 off p) s := by
  cases n with
  | zero => exact within_pure _
  | succ n =>
    refine within_ite (fun _ => ?_) fun _ => within_pure _
    refine (touches_of_still (still_bmap _ _)).bind_of_ok fun b u hu => ?_
    exact (touches_of_still (still_bread _)).bind_stops fun data t ht => hb t ⟨b, u, data, hu, ht⟩

theorem untouched_writeLoop (hb : ∀ t, ¬ Gets s x (off / bsize) t) :
    SysTouches (fun _ => False) (Syscalls.writeLoop x n n 0 off p) s := by
  cases n with
  | zero => exact within_pure _
  | succ n =>
    refine within_ite (fun _ => ?_) fun _ => within_pure _
    refine (touches_of_still (still_bmap _ _)).bind_of_ok fun b u hu => ?_
    exact (touches_of_still (still_bread _)).bind_stops fun data t ht => hb t ⟨b, u, data, hu, ht⟩

end

/-! ### The calls -/

/-- `sys_read` or `sys_write`. -/
inductive Access where
  | read
  | write

namespace Access

def code : Access → Sys ℤ
  | .read => sysRead
  | .write => sysWrite

/-- Whether a file can be read or written. -/
def allowed : Access → File → Bool
  | .read => File.readable
  | .write => File.writable

def onPipe : Access → ℕ → ℕ → ℤ → Code ℤ
  | .read => piperead
  | .write => pipewrite

def onInode : Access → Fin ninode → ℕ → Word → Word → Sys ℤ
  | .read => Syscalls.readi
  | .write => Syscalls.writei

def stop : Access → Stop
  | .read => .fileread
  | .write => .filewrite

theorem code_eq (a : Access) : a.code = transfer (transferFile a.allowed a.onPipe a.onInode a.stop) := by
  cases a <;> rfl

/-- The checks of `readi` and `writei` let the transfer start; there is something to read. -/
def Starts (a : Access) (d : Dinode) (off n : Word) : Prop :=
  d.type ≠ tDev ∧ off ≤ d.size ∧ ¬ off + n < off ∧ (a = .read → off < d.size)

theorem touches_onPipe (a : Access) (p addr : ℕ) (n : ℤ) {s : Kernel} :
    Touches (In addr n.toNat) (a.onPipe p addr n) s := by
  cases a with
  | read => exact touches_piperead p addr n
  | write => exact touches_pipewrite p addr n

theorem touches_onInode (a : Access) (x : Fin ninode) (p : ℕ) (off n : Word) {s : System} :
    SysTouches (In p n.toNat) (a.onInode x p off n) s := by
  cases a with
  | read => exact touches_readi x p off n
  | write => exact touches_writei x p off n

variable {a : Access} {s : System} {x : Fin ninode} {p : ℕ} {off n : Word}

/-- A negative size is a large one. -/
theorem large_of_neg (hn : n.toInt < 0) : 2 ^ 31 ≤ n.toNat := by
  rw [BitVec.toInt_eq_toNat_cond] at hn
  split_ifs at hn <;> omega

/-- The clipped size of a read that starts. -/
theorem readable_pos {size : Word} (hn : n.toInt < 0) (hoff : off < size) :
    0 < (if size < off + n then size - off else n).toNat := by
  have hlarge := large_of_neg hn
  simp only [BitVec.lt_def] at hoff ⊢
  split_ifs with hclip
  · rw [BitVec.toNat_sub_of_le (BitVec.le_def.mpr hoff.le)]
    omega
  · omega

/-- The clipped size of a write that starts in a block of the file. -/
theorem writable_pos (hn : n.toInt < 0) (hoff : off.toNat < maxfile * bsize) :
    0 < (if BitVec.ofNat 32 (maxfile * bsize) < off + n then BitVec.ofNat 32 (maxfile * bsize) - off
      else n).toNat := by
  have hlarge := large_of_neg hn
  have hlast : (BitVec.ofNat 32 (maxfile * bsize)).toNat = maxfile * bsize := rfl
  split_ifs with hclip
  · rw [BitVec.toNat_sub_of_le (BitVec.le_def.mpr (hlast ▸ hoff.le))]
    omega
  · omega

/-- A negative size does not keep a transfer that starts from its first byte. -/
theorem mem_onInode {t : System} (hn : n.toInt < 0) (h : a.Starts (s.inode x).toDinode off n)
    (hb : Gets s x (off.toNat / bsize) t) (hp : s.proc.mapped p = true) :
    Wp (a.onInode x p off n) (fun _ u => p ∈ u.touched) (fun _ u => p ∈ u.touched) s := by
  obtain ⟨htype, hsize, hwrap, hread⟩ := h
  have hbounds : ¬ ((s.inode x).size < off ∨ off + n < off) := not_or.mpr ⟨BitVec.not_lt.mpr hsize, hwrap⟩
  cases a with
  | read =>
    unfold onInode Syscalls.readi
    rw [wp_bind, wp_get, if_neg htype, if_neg hbounds]
    exact (mem_readLoop (readable_pos hn (hread rfl)) hb hp).bind fun _ _ hu => wp_pure.mpr hu
  | write =>
    unfold onInode Syscalls.writei
    rw [wp_bind, wp_get, if_neg htype, if_neg hbounds]
    refine (mem_writeLoop (writable_pos hn hb.lt) hb hp).bind fun off' u hu => ?_
    refine SysTouches.mem (within_get (within_ite (fun _ => ?_) fun _ => within_pure _)) hu
    exact (touches_of_still (still_modifyInode _ _)).bind fun _ _ =>
      (touches_of_still (still_iupdate _)).bind fun _ _ => within_pure _

/-- The clipped size of a read at the end of the file. -/
theorem readable_end {size : Word} (hn : n.toInt < 0) (hoff : off ≤ size) (hwrap : ¬ off + n < off)
    (hend : ¬ off < size) : (if size < off + n then size - off else n).toNat = 0 := by
  obtain rfl : off = size := BitVec.le_antisymm hoff (BitVec.not_lt.mp hend)
  have hlarge := large_of_neg hn
  rw [if_pos, BitVec.sub_self]
  · rfl
  · simp only [BitVec.lt_def, BitVec.toNat_add] at hwrap ⊢
    omega

theorem not_in_of_neg (hn : n.toInt < 0) (q : ℕ) (hq : In p n.toInt.toNat q) : False := by
  unfold In at hq
  omega

/-- A transfer with a negative size that does not start touches nothing. -/
theorem untouched_onInode (hn : n.toInt < 0)
    (h : ¬ (a.Starts (s.inode x).toDinode off n ∧ ∃ t, Gets s x (off.toNat / bsize) t)) :
    SysTouches (fun _ => False) (a.onInode x p off n) s := by
  cases a with
  | read =>
    refine within_get (within_ite (fun _ => within_ite (fun _ => ?_) fun _ => within_pure _) fun htype => ?_)
    · exact touches_onConsole x fun _ => (touches_consoleread p n.toInt).more (not_in_of_neg hn)
    · refine within_ite (fun _ => within_pure _) fun hbounds => ?_
      rw [not_or, BitVec.not_lt] at hbounds
      refine Within.bind ?_ fun _ _ => within_pure _
      by_cases hoff : off < (s.inode x).size
      · exact untouched_readLoop fun t ht => h ⟨⟨htype, hbounds.1, hbounds.2, fun _ => hoff⟩, t, ht⟩
      · rw [readable_end hn hbounds.1 hbounds.2 hoff]
        exact within_pure _
  | write =>
    refine within_get (within_ite (fun _ => within_ite (fun _ => ?_) fun _ => within_pure _) fun htype => ?_)
    · exact touches_onConsole x fun _ => (touches_consolewrite p n.toInt).more (not_in_of_neg hn)
    · refine within_ite (fun _ => within_pure _) fun hbounds => ?_
      rw [not_or, BitVec.not_lt] at hbounds
      refine Within.bind ?_ fun off' u => within_get (within_ite (fun _ => ?_) fun _ => within_pure _)
      · refine untouched_writeLoop fun t ht => h ⟨⟨htype, hbounds.1, hbounds.2, ?_⟩, t, ht⟩
        exact fun hread => by cases hread
      · exact (touches_of_still (still_modifyInode _ _)).bind fun _ _ =>
          (touches_of_still (still_iupdate _)).bind fun _ _ => within_pure _

end Access

/-! ### The system calls -/

section
variable {I : ℕ → Prop} {s : System} {f : Fin nfile} {addr p : ℕ} {n : Word}

theorem touches_modifyFile (g : File → File) : SysTouches I (modifyFile f g) s := within_modify (.of_eq rfl)

/-- What comes after the transfer with an inode. -/
theorem touches_after (x : Fin ninode) (r : ℤ) : SysTouches I (do
    if 0 < r then modifyFile f fun ff => { ff with off := ff.off + BitVec.ofInt 32 r }
    liftM (iunlock x)
    return r : Sys ℤ) s := by
  have hrest : ∀ t : System, SysTouches I (do liftM (iunlock x); return r : Sys ℤ) t := fun t =>
    (touches_of_still (still_iunlock x)).bind fun _ _ => within_pure _
  exact within_ite (fun _ => (touches_modifyFile _).bind fun _ t => hrest t) fun _ => hrest s

theorem touches_transferFile {allowed : File → Bool} {onPipe : ℕ → ℕ → ℤ → Code ℤ}
    {onInode : Fin ninode → ℕ → Word → Word → Sys ℤ} {stop : Stop}
    (hpipe : ∀ p t, Touches I (onPipe p addr n.toInt) t)
    (hinode : ∀ x t, allowed (s.file f) = true → (s.file f).type = .inode x → Syscalls.ilock x s = .ok () t →
      SysTouches I (onInode x addr (t.file f).off n) t) :
    SysTouches I (transferFile allowed onPipe onInode stop f addr n) s := by
  refine within_get (within_ite (fun _ => within_pure _) fun hallowed => ?_)
  rw [Bool.not_eq_false] at hallowed
  split
  · exact touches_liftM (hpipe _ _)
  · next x hx =>
    refine (touches_of_still (still_ilock x)).bind_of_ok fun _ t ht => within_get ?_
    exact (hinode x t hallowed hx ht).bind fun r _ => touches_after x r
  · exact within_throw _

theorem touches_transfer {op : Fin nfile → ℕ → Word → Sys ℤ}
    (h : ∀ f n p, argint s 2 = some n → argptr s 1 n = some p → argfd s 0 = some f →
      SysTouches I (op f p.toNat n) s) : SysTouches I (transfer op) s := by
  refine within_get ?_
  split
  · exact within_pure _
  · next f hf =>
    split
    · exact within_pure _
    · next n hn =>
      split
      · exact within_pure _
      · next p hp => exact h f n p hn hp hf

theorem wp_transfer {op : Fin nfile → ℕ → Word → Sys ℤ} {Q : ℤ → System → Prop} {E : Stop → System → Prop}
    {p : Word} (hf : argfd s 0 = some f) (hn : argint s 2 = some n) (hp : argptr s 1 n = some p) :
    Wp (transfer op) Q E s ↔ Wp (op f p.toNat n) Q E s := by
  unfold transfer
  rw [wp_bind, wp_get]
  simp only [hf, hn, hp]

/-- What `argptr` checks. -/
theorem argptr_spec {k : ℕ} {size p : Word} (h : argptr s k size = some p) :
    argint s k = some p ∧ p.toNat < s.proc.sz.toNat ∧ (p + size).toNat ≤ s.proc.sz.toNat := by
  unfold argptr at h
  split at h
  · cases h
  · next i hi =>
    split_ifs at h with hout
    cases h
    rw [not_or, BitVec.not_le, BitVec.not_lt] at hout
    exact ⟨hi, hout.1, hout.2⟩

/-- A size that is not negative lies below `sz` with the whole buffer. -/
theorem argptr_below {k : ℕ} {size p : Word} (h : argptr s k size = some p) (hsize : size.toNat < 2 ^ 31) :
    p.toNat + size.toNat ≤ s.proc.sz.toNat := by
  obtain ⟨-, hlt, hle⟩ := argptr_spec h
  have hsz := s.proc.sz_le
  unfold usertop at hsz
  rw [BitVec.toNat_add] at hle
  omega

end

/-- The bytes between the pointer and the end of the buffer that lie below `sz`; the pointer is argument 1,
and the size is argument 2. -/
def Buffer (s : System) (b : ℕ) : Prop :=
  ∃ p n, argint s 1 = some p ∧ argint s 2 = some n ∧ p.toNat ≤ b ∧ (b : ℤ) < p.toNat + n.toInt ∧
    b < s.proc.sz.toNat

/-- The system before a call has touched anything. -/
def fresh (s : System) : System := { s with touched := [] }

/-- The call touches only bytes of its buffer. A negative size makes it empty. -/
def Confined (c : Sys ℤ) (s : System) : Prop :=
  Wp c (fun _ t => ∀ b ∈ t.touched, Buffer s b) (fun _ t => ∀ b ∈ t.touched, Buffer s b) (fresh s)

/-- The call gets the inode, the checks of `readi` or `writei` let the transfer start, and it gets the first
block. -/
def Begins (a : Access) (s : System) (f : Fin nfile) (x : Fin ninode) (n : Word) : Prop :=
  ∃ t u, Syscalls.ilock x s = .ok () t ∧ a.Starts (t.inode x).toDinode (t.file f).off n ∧
    Gets t x ((t.file f).off.toNat / bsize) u

/-- The size is negative, `argptr` lets it pass, and the file has bytes to read from its offset on or room to
write. -/
def Spills (a : Access) (s : System) : Prop :=
  ∃ f n p x, argfd s 0 = some f ∧ argint s 2 = some n ∧ argptr s 1 n = some p ∧ n.toInt < 0 ∧
    a.allowed (s.file f) = true ∧ (s.file f).type = .inode x ∧ Begins a (fresh s) f x n

/-- A call that spills touches the byte at the pointer. -/
theorem not_confined_of_spills {a : Access} {s : System} (h : Spills a s) : ¬ Confined a.code s := by
  obtain ⟨f, n, p, x, hf, hn, hp, hneg, hallowed, hx, t, u, hlock, hstart, hb⟩ := h
  intro hconf
  have hstill : Still (fresh s) t := (still_ilock x).of_ok hlock
  have hmapped : t.proc.mapped p.toNat = true := by
    rw [hstill.2]
    exact s.proc.mapped_below _ (argptr_spec hp).2.1
  have hmem : Wp a.code (fun _ t => p.toNat ∈ t.touched) (fun _ t => p.toNat ∈ t.touched) (fresh s) := by
    rw [a.code_eq]
    refine (wp_transfer (s := fresh s) hf hn hp).mpr ?_
    unfold transferFile
    rw [wp_bind, wp_get, if_neg (Bool.not_eq_false _ ▸ hallowed)]
    have hx' : ((fresh s).file f).type = .inode x := hx
    simp only [hx']
    rw [wp_bind_of_ok hlock, wp_bind, wp_get]
    refine (Access.mem_onInode hneg hstart hb hmapped).bind fun r v hv => ?_
    exact SysTouches.mem (touches_after x r) hv
  have hfalse : Wp a.code (fun _ _ => False) (fun _ _ => False) (fresh s) := by
    refine (hconf.and hmem).mono (fun _ t ht => ?_) fun _ t ht => ?_
    all_goals
      obtain ⟨q, m, hq, hm, -, hlt, -⟩ := ht.1 _ ht.2
      obtain rfl : q = p := Option.some.inj (hq.symm.trans (argptr_spec hp).1)
      obtain rfl : m = n := Option.some.inj (hm.symm.trans hn)
      omega
  obtain ⟨_, _, _, h⟩ := hfalse.returns
  exact h

/-- **read and write stay inside the buffer** if and only if the call does not spill: for every size that is not
negative, and for a negative one unless it gets to the blocks of a file. -/
theorem confined_iff (a : Access) (s : System) : Confined a.code s ↔ ¬ Spills a s := by
  refine ⟨fun hconf hspill => not_confined_of_spills hspill hconf, fun hno => ?_⟩
  have hin : SysTouches (Buffer s) a.code (fresh s) := by
    rw [a.code_eq]
    refine touches_transfer fun f n p hn hp hf => ?_
    have harg : argint s 1 = some p := (argptr_spec hp).1
    by_cases hneg : n.toInt < 0
    · refine Within.more (I := fun _ => False) (touches_transferFile (fun q t => ?_) fun x t ha hx hlock => ?_)
        fun _ h => h.elim
      · exact (a.touches_onPipe q p.toNat n.toInt).more (Access.not_in_of_neg hneg)
      · refine Access.untouched_onInode hneg fun ⟨hstart, u, hb⟩ => ?_
        exact hno ⟨f, n, p, x, hf, hn, hp, hneg, ha, hx, t, u, hlock, hstart, hb⟩
    · have hsmall : n.toNat < 2 ^ 31 := by
        by_contra hlarge
        rw [BitVec.toInt_eq_toNat_cond] at hneg
        split_ifs at hneg <;> omega
      have hnat : n.toInt = n.toNat := BitVec.toInt_eq_toNat_of_lt (by omega)
      have hbelow : p.toNat + n.toNat ≤ s.proc.sz.toNat := argptr_below (s := fresh s) hp hsmall
      refine (touches_transferFile (I := In p.toNat n.toNat) (fun q t => ?_) fun x t _ _ _ => ?_).more ?_
      · exact (a.touches_onPipe q p.toNat n.toInt).more (In.mono toNat_toInt_le)
      · exact a.touches_onInode x p.toNat _ n
      · intro b hb
        unfold In at hb
        exact ⟨p, n, harg, hn, hb.1, by omega, by omega⟩
  exact Wp.mono hin (fun _ _ ht => ht.of_nil rfl) fun _ _ ht => ht.of_nil rfl

/-- The root directory of a new disk is open as file 0, for `read(0, 16, -1)`. -/
def readMinusOne : System where
  toKernel := { Runs.newDisk with
    inode := fun x => ⟨if x = 0 then Runs.rootInode else cleared 0#16, 1, if x = 0 then 1 else 0, false, x = 0⟩
    user := fun b => if b = 8 then 16#8 else if 12 ≤ b ∧ b < 16 then 255#8 else 0#8 }
  file f := if f = 0 then ⟨.inode 0, 1, true, false, 0#32⟩ else ⟨.none, 0, false, false, 0#32⟩
  proc := ⟨4096#32, by decide, 0#32, fun fd => if fd = 0 then some 0 else none, fun a => decide (a < 4096),
    fun _ ha => decide_eq_true ha⟩
  pages := []
  pstat _ := ⟨false, 0, 0, 0, 0, 0⟩
  buf := none
  turns := []

/-- `read(0, 16, -1)` writes the directory into the memory of the process from byte 16 on. -/
theorem not_confined_readMinusOne : ¬ Confined sysRead readMinusOne := by
  refine not_confined_of_spills (a := .read) ⟨0, 4294967295#32, 16#32, 0, rfl, rfl, rfl, by decide, rfl, rfl, ?_⟩
  refine ⟨_, _, rfl, ⟨?_, ?_, ?_, fun _ => ?_⟩, _, _, _, rfl, rfl⟩
  all_goals decide

/-- It does so too when it first has to wait for another process that has the directory locked. -/
example : ¬ Confined sysRead { readMinusOne with
    inode := fun x => { readMinusOne.inode x with busy := true }
    turns := [some ⟨readMinusOne.toKernel, readMinusOne.file, []⟩] } := by
  refine not_confined_of_spills (a := .read) ⟨0, 4294967295#32, 16#32, 0, rfl, rfl, rfl, by decide, rfl, rfl, ?_⟩
  refine ⟨_, _, rfl, ⟨?_, ?_, ?_, fun _ => ?_⟩, _, _, _, rfl, rfl⟩
  all_goals decide

end OperatingSystems.Files.Buffers
