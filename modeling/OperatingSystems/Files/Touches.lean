import OperatingSystems.Files.Syscalls
import OperatingSystems.Lib.Footprint

/-! # What the calls touch

Which bytes of the process each function reads or writes, whatever the other processes do. Only the console, the
pipes and the loops of `readi` and `writei` touch any, all of them in the buffer they were given. -/

namespace OperatingSystems.Files.Syscalls

open OperatingSystems.Lib.Footprint OperatingSystems.Lib.WeakestPre OperatingSystems.Lib.Words
  OperatingSystems.Pipes

/-- The addresses of a buffer. -/
def In (p n a : ℕ) : Prop := p ≤ a ∧ a < p + n

theorem In.sub {p q n m : ℕ} (hlo : p ≤ q) (hhi : q + m ≤ p + n) (a : ℕ) (ha : In q m a) : In p n a :=
  ⟨hlo.trans ha.1, lt_of_lt_of_le ha.2 hhi⟩

theorem In.mono {p n m : ℕ} (h : n ≤ m) : ∀ a, In p n a → In p m a := In.sub le_rfl (Nat.add_le_add_left h p)

theorem toNat_toInt_le {n : Word} : n.toInt.toNat ≤ n.toNat := by
  rw [BitVec.toInt_eq_toNat_cond]
  split_ifs <;> omega

/-! ### The console and the pipes -/

/-- The code touches only addresses with `I`. -/
abbrev Touches {α : Type} (I : ℕ → Prop) (c : Code α) (s : Kernel) : Prop := Within (More Kernel.touched I) c s

section
variable {s : Kernel} {I : ℕ → Prop}

theorem touches_wake : Touches I Files.sleep s := by
  unfold Files.sleep
  refine within_get ?_
  split
  · exact within_throw _
  · exact within_set (.of_eq rfl)

theorem more_range {s t : Kernel} {p n : ℕ} (ht : t.touched = s.touched ++ List.range' p n) :
    More Kernel.touched (In p n) s t :=
  ⟨_, ht, fun a ha => by simpa [In] using ha⟩

theorem touches_put (dst m : ℕ) (bytes : ℕ → Byte) : Touches (In dst m) (Files.toUser dst m bytes) s :=
  wp_modify.mpr (more_range rfl)

theorem touches_take (src m : ℕ) : Touches (In src m) (Files.fromUser src m) s := by
  unfold Touches Within Files.fromUser
  simp only [wp_bind, wp_get, wp_set, wp_pure]
  exact more_range rfl

theorem touches_consoleWait (k : ℕ) : ∀ {s : Kernel}, Touches I (consoleWait k) s := by
  induction k with
  | zero => exact within_throw _
  | succ k ih =>
    intro s
    refine within_get (within_ite (fun _ => ?_) fun _ => within_pure _)
    exact within_ite (fun _ => within_pure _) fun _ => touches_wake.bind fun _ _ => ih

theorem touches_consoleLoop (target n : ℕ) :
    ∀ {s : Kernel} {dst : ℕ}, Touches (In dst n) (consoleLoop target dst n) s := by
  induction n with
  | zero => exact within_pure _
  | succ n ih =>
    intro s dst
    refine within_get ((touches_consoleWait _).bind fun killed t => within_ite (fun _ => within_pure _) fun _ => ?_)
    refine within_get (within_ite (fun _ => ?_) fun _ => ?_)
    · exact within_ite (fun _ => within_set_bind (.of_eq rfl) (within_pure _)) fun _ => within_pure _
    · refine within_set_bind (.of_eq rfl) (Within.bind ?_ fun _ _ => ?_)
      · exact (touches_put dst 1 _).more (In.sub (by omega) (by omega))
      · exact within_ite (fun _ => within_pure _) fun _ => ih.more (In.sub (by omega) (by omega))

theorem touches_consoleread (dst : ℕ) (n : ℤ) : Touches (In dst n.toNat) (consoleread dst n) s := by
  refine (touches_consoleLoop _ _).bind fun left t => ?_
  split <;> exact within_pure _

theorem touches_consolewrite (buf : ℕ) (n : ℤ) : Touches (In buf n.toNat) (consolewrite buf n) s :=
  (touches_take _ _).bind fun _ _ => within_pure _

theorem touches_pipereadWait (p k : ℕ) : ∀ {s : Kernel}, Touches I (pipereadWait p k) s := by
  induction k with
  | zero => exact within_throw _
  | succ k ih =>
    intro s
    refine within_get (within_ite (fun _ => ?_) fun _ => within_pure _)
    exact within_ite (fun _ => within_pure _) fun _ => touches_wake.bind fun _ _ => ih

theorem touches_pipereadLoop (p addr n : ℕ) :
    ∀ {s : Kernel} {i : ℕ}, Touches (In (addr + i) n) (pipereadLoop p addr i n) s := by
  induction n with
  | zero => exact within_pure _
  | succ n ih =>
    intro s i
    refine within_get (within_ite (fun _ => within_pure _) fun _ => within_set_bind (.of_eq rfl) ?_)
    refine Within.bind ?_ fun _ _ => ih.more (In.sub ?_ ?_)
    · exact (touches_put (addr + i) 1 _).more (In.sub (by omega) (by omega))
    · omega
    · omega

theorem touches_piperead (p addr : ℕ) (n : ℤ) : Touches (In addr n.toNat) (piperead p addr n) s := by
  refine within_get ((touches_pipereadWait _ _).bind fun killed t => within_ite (fun _ => within_pure _) fun _ => ?_)
  exact (touches_pipereadLoop p addr n.toNat (i := 0)).bind fun _ _ => within_pure _

theorem touches_pipewriteWait (p k : ℕ) : ∀ {s : Kernel}, Touches I (pipewriteWait p k) s := by
  induction k with
  | zero => exact within_throw _
  | succ k ih =>
    intro s
    refine within_get (within_ite (fun _ => ?_) fun _ => within_pure _)
    exact within_ite (fun _ => within_pure _) fun _ => touches_wake.bind fun _ _ => ih

theorem touches_pipewriteLoop (p addr n : ℕ) :
    ∀ {s : Kernel} {i : ℕ}, Touches (In (addr + i) n) (pipewriteLoop p addr i n) s := by
  induction n with
  | zero => exact within_pure _
  | succ n ih =>
    intro s i
    refine within_get ((touches_pipewriteWait _ _).bind fun failed t => within_ite (fun _ => within_pure _) fun _ => ?_)
    refine Within.bind ?_ fun _ _ => within_get (within_set_bind (.of_eq rfl) (ih.more (In.sub ?_ ?_)))
    · exact (touches_take (addr + i) 1).more (In.sub (by omega) (by omega))
    · omega
    · omega

theorem touches_pipewrite (p addr : ℕ) (n : ℤ) : Touches (In addr n.toNat) (pipewrite p addr n) s := by
  refine (touches_pipewriteLoop p addr n.toNat (i := 0)).bind fun _ _ => ?_
  exact within_ite (fun _ => within_pure _) fun _ => within_pure _

end

/-! ### Blocks and inodes -/

/-- The process has touched nothing, and its memory is where it was. -/
def Still (s t : System) : Prop := t.touched = s.touched ∧ t.proc = s.proc

instance : IsPreorder System Still where
  refl _ := ⟨rfl, rfl⟩
  trans _ _ _ h h' := ⟨h'.1.trans h.1, h'.2.trans h.2⟩

section
variable {s : System}

theorem still_liftM {α : Type} {c : Code α} (h : Wp c (fun _ t => t.touched = s.touched)
    (fun _ t => t.touched = s.touched) s.toKernel) : Within Still (liftM c : Sys α) s :=
  wp_kernel.mpr (Wp.mono h (fun _ _ ht => ⟨ht, rfl⟩) fun _ _ ht => ⟨ht, rfl⟩)

theorem still_modifyInode (x : Fin ninode) (f : Inode → Inode) :
    Within Still (liftM (modifyInode x f) : Sys Unit) s := still_liftM (wp_modify.mpr rfl)

theorem still_iunlock (x : Fin ninode) : Within Still (liftM (iunlock x) : Sys Unit) s := by
  refine still_liftM ?_
  simp [iunlock, modifyInode]

theorem still_sleep : Within Still sleep s := by
  unfold sleep
  refine within_get ?_
  split
  · exact within_set ⟨rfl, rfl⟩
  · exact within_throw _

theorem still_diskSleep : Within Still diskSleep s :=
  within_get (within_ite (fun _ => still_sleep) fun _ => within_pure _)

theorem still_bread (b : ℕ) : Within Still (bread b) s :=
  within_get (within_ite (fun _ => within_throw _) fun _ =>
    still_diskSleep.bind fun _ _ => within_get (within_pure _))

theorem still_bwrite (b : ℕ) (data : ℕ → Byte) : Within Still (bwrite b data) s :=
  Within.bind (within_modify ⟨Kernel.touched_write _ _ _, rfl⟩) fun _ _ => still_diskSleep

theorem still_holding {α : Type} {c : Sys α} (b : ℕ) (h : ∀ t, Within Still c t) :
    Within Still (holding b c) s := by
  refine Within.bind (within_modify ⟨rfl, rfl⟩) fun _ t => (h t).bind fun r u => ?_
  exact Within.bind (within_modify ⟨rfl, rfl⟩) fun _ _ => within_pure _

theorem still_readsb : Within Still readsb s := (still_bread 1).bind fun _ _ => within_pure _

theorem still_ballocLoop (ninodes : Word) (k : ℕ) :
    ∀ {s : System} {b : ℕ}, Within Still (ballocLoop ninodes k b) s := by
  induction k with
  | zero => exact within_throw _
  | succ k ih =>
    intro s b
    refine (still_bread _).bind fun data t => ?_
    split
    · exact ih
    · exact (still_bwrite _ _).bind fun _ _ => within_pure _

theorem still_balloc : Within Still balloc s := still_readsb.bind fun _ _ => still_ballocLoop _ _

theorem still_bzero (b : ℕ) : Within Still (bzero b) s := (still_bread b).bind fun _ _ => still_bwrite _ _

theorem still_bfree (b : Word) : Within Still (bfree b) s := by
  refine (still_bzero _).bind fun _ _ => still_readsb.bind fun sb _ => (still_bread _).bind fun data _ => ?_
  exact within_ite (fun _ => within_throw _) fun _ => still_bwrite _ _

theorem still_iupdate (x : Fin ninode) : Within Still (iupdate x) s :=
  within_get ((still_bread _).bind fun _ _ => within_get (still_bwrite _ _))

theorem still_ilockWait (x : Fin ninode) (k : ℕ) : ∀ {s : System}, Within Still (ilockWait x k) s := by
  induction k with
  | zero => exact within_throw _
  | succ k ih =>
    intro s
    exact within_get (within_ite (fun _ => still_sleep.bind fun _ _ => ih) fun _ => within_pure _)

theorem still_ilock (x : Fin ninode) : Within Still (ilock x) s := by
  refine within_get (within_ite (fun _ => within_throw _) fun _ => (still_ilockWait _ _).bind fun _ _ => ?_)
  refine (still_modifyInode _ _).bind fun _ t => within_get (within_ite (fun _ => ?_) fun _ => within_pure _)
  exact (still_bread _).bind fun _ _ => within_get ((still_modifyInode _ _).bind fun _ _ =>
    within_ite (fun _ => within_throw _) fun _ => within_pure _)

theorem still_addrOf (x : Fin ninode) (j : ℕ) : Within Still (addrOf x j) s := by
  refine within_get (within_ite (fun _ => ?_) fun _ => within_pure _)
  exact still_balloc.bind fun _ _ => (still_modifyInode _ _).bind fun _ _ => within_pure _

theorem still_bmap (x : Fin ninode) (bn : ℕ) : Within Still (bmap x bn) s := by
  refine within_ite (fun _ => still_addrOf x bn) fun _ => within_ite (fun _ => ?_) fun _ => within_throw _
  refine (still_addrOf x ndirect).bind fun ind _ => (still_bread _).bind fun a _ => ?_
  refine within_ite (fun _ => ?_) fun _ => within_pure _
  refine (still_holding _ fun _ => still_balloc).bind fun _ _ => ?_
  exact (still_bwrite _ _).bind fun _ _ => within_pure _

theorem still_freeDirect (x : Fin ninode) (n : ℕ) : ∀ {s : System}, Within Still (freeDirect x n) s := by
  induction n with
  | zero => exact within_pure _
  | succ j ih =>
    intro s
    refine ih.bind fun _ t => within_get (within_ite (fun _ => ?_) fun _ => within_pure _)
    exact (still_bfree _).bind fun _ _ => still_modifyInode _ _

theorem still_freeEntries (a : ℕ → Word) (n : ℕ) : ∀ {s : System}, Within Still (freeEntries a n) s := by
  induction n with
  | zero => exact within_pure _
  | succ j ih =>
    intro s
    exact ih.bind fun _ t => within_ite (fun _ => still_bfree _) fun _ => within_pure _

theorem still_itrunc (x : Fin ninode) : Within Still (itrunc x) s := by
  refine (still_freeDirect x _).bind fun _ t => within_get ?_
  have hrest : ∀ u : System, Within Still
      (do liftM (modifyInode x fun ip => { ip with size := 0#32 }); iupdate x : Sys Unit) u := fun u =>
    (still_modifyInode _ _).bind fun _ _ => still_iupdate _
  refine within_ite (fun _ => (still_bread _).bind fun a _ => ?_) fun _ => hrest _
  refine (still_holding _ fun _ => still_freeEntries _ _).bind fun _ _ => ?_
  exact (still_bfree _).bind fun _ _ =>
    (still_modifyInode _ _).bind fun _ u => hrest u

theorem still_iput (x : Fin ninode) : Within Still (iput x) s := by
  refine within_get (within_ite (fun _ => within_ite (fun _ => ?_) fun _ => ?_) fun _ => still_modifyInode _ _)
  · exact within_throw_bind _
  · exact (still_modifyInode _ _).bind fun _ _ => (still_itrunc _).bind fun _ _ =>
      (still_modifyInode _ _).bind fun _ _ => (still_iupdate _).bind fun _ _ =>
      (still_modifyInode _ _).bind fun _ _ => still_modifyInode _ _

end

/-! ### The contents of files -/

/-- The code of a system call touches only addresses with `I`. -/
abbrev SysTouches {α : Type} (I : ℕ → Prop) (c : Sys α) (s : System) : Prop :=
  Within (More (fun s : System => s.touched) I) c s

section
variable {s : System} {I : ℕ → Prop}

theorem touches_of_still {α : Type} {c : Sys α} (h : Within Still c s) : SysTouches I c s :=
  h.mono fun _ _ ht => .of_eq ht.1

theorem touches_liftM {α : Type} {c : Code α} (h : Touches I c s.toKernel) : SysTouches I (liftM c : Sys α) s :=
  wp_kernel.mpr (Wp.mono h (fun _ _ ht => ht) fun _ _ ht => ht)

theorem touches_toUser (dst m : ℕ) (bytes : ℕ → Byte) : SysTouches (In dst m) (toUser dst m bytes) s := by
  refine within_get (Within.bind ?_ fun _ _ => within_ite (fun _ => within_throw _) fun _ => within_pure _)
  exact (touches_liftM (touches_put _ _ _)).more (In.mono (reach_le _ _ _))

theorem touches_fromUser (src m : ℕ) : SysTouches (In src m) (fromUser src m) s := by
  refine within_get (Within.bind ?_ fun _ _ => within_ite (fun _ => within_throw_bind _) fun _ => within_pure _)
  exact (touches_liftM (touches_take _ _)).more (In.mono (reach_le _ _ _))

theorem touches_onConsole (x : Fin ninode) {c : Code ℤ} (h : ∀ t, Touches I c t) :
    SysTouches I (onConsole x c) s :=
  (touches_of_still (still_iunlock x)).bind fun _ t => (touches_liftM (h t.toKernel)).bind fun _ _ =>
    (touches_of_still (still_ilock x)).bind fun _ _ => within_pure _

theorem touches_readLoop (x : Fin ninode) (n fuel : ℕ) :
    ∀ {s : System} {tot off dst : ℕ}, SysTouches (In dst (n - tot)) (readLoop x n fuel tot off dst) s := by
  induction fuel with
  | zero => exact within_pure _
  | succ fuel ih =>
    intro s tot off dst
    refine within_ite (fun hlt => ?_) fun _ => within_pure _
    refine (touches_of_still (still_bmap _ _)).bind fun b _ => (touches_of_still (still_bread _)).bind fun data _ => ?_
    refine Within.bind ?_ fun _ _ => ih.more (In.sub ?_ ?_)
    · exact (touches_toUser dst _ _).more (In.sub (by omega) (by omega))
    · omega
    · omega

theorem touches_writeLoop (x : Fin ninode) (n fuel : ℕ) :
    ∀ {s : System} {tot off src : ℕ}, SysTouches (In src (n - tot)) (writeLoop x n fuel tot off src) s := by
  induction fuel with
  | zero => exact within_pure _
  | succ fuel ih =>
    intro s tot off src
    refine within_ite (fun hlt => ?_) fun _ => within_pure _
    refine (touches_of_still (still_bmap _ _)).bind fun b _ => (touches_of_still (still_bread _)).bind fun data _ => ?_
    refine Within.bind ?_ fun bytes _ => (touches_of_still (still_bwrite _ _)).bind fun _ _ => ih.more (In.sub ?_ ?_)
    · exact (touches_fromUser src _).more (In.sub (by omega) (by omega))
    · omega
    · omega

/-- Beyond `MAXFILE` there are no blocks. -/
theorem bmap_out {x : Fin ninode} {bn : ℕ} (h : maxfile ≤ bn) : bmap x bn = throw .bmap := by
  unfold maxfile at h
  unfold bmap
  rw [if_neg (by omega), if_neg (by omega)]

theorem touches_writeLoop_out {x : Fin ninode} {n fuel tot off src : ℕ} (h : maxfile * bsize ≤ off) :
    SysTouches I (writeLoop x n fuel tot off src) s := by
  cases fuel with
  | zero => exact within_pure _
  | succ fuel =>
    refine within_ite (fun _ => ?_) fun _ => within_pure _
    rw [bmap_out ((Nat.le_div_iff_mul_le (by decide)).mpr h)]
    exact within_throw_bind _

/-- The size that `readi` and `writei` work with after they have clipped it to `bound`. -/
theorem clip_le {off n bound : Word} (hoff : off ≤ bound) (hwrap : ¬ off + n < off) :
    (if bound < off + n then bound - off else n).toNat ≤ n.toNat := by
  simp only [BitVec.le_def, BitVec.lt_def, BitVec.toNat_add] at hoff hwrap ⊢
  split_ifs with hclip
  · rw [BitVec.toNat_sub_of_le hoff]
    omega
  · exact le_rfl

theorem touches_readi (x : Fin ninode) (dst : ℕ) (off n : Word) :
    SysTouches (In dst n.toNat) (readi x dst off n) s := by
  refine within_get (within_ite (fun _ => within_ite (fun _ => ?_) fun _ => within_pure _) fun _ => ?_)
  · exact touches_onConsole x fun t => (touches_consoleread dst n.toInt).more (In.mono toNat_toInt_le)
  · refine within_ite (fun _ => within_pure _) fun hbounds => ?_
    rw [not_or, BitVec.not_lt] at hbounds
    refine Within.bind ?_ fun _ _ => within_pure _
    exact (touches_readLoop x _ _).more (In.mono ((Nat.sub_le _ _).trans (clip_le hbounds.1 hbounds.2)))

theorem touches_writei (x : Fin ninode) (src : ℕ) (off n : Word) :
    SysTouches (In src n.toNat) (writei x src off n) s := by
  refine within_get (within_ite (fun _ => within_ite (fun _ => ?_) fun _ => within_pure _) fun _ => ?_)
  · exact touches_onConsole x fun t => (touches_consolewrite src n.toInt).more (In.mono toNat_toInt_le)
  · refine within_ite (fun _ => within_pure _) fun hbounds => ?_
    rw [not_or, BitVec.not_lt] at hbounds
    refine Within.bind ?_ fun off' t => within_get (within_ite (fun _ => ?_) fun _ => within_pure _)
    · by_cases hlast : off ≤ BitVec.ofNat 32 (maxfile * bsize)
      · exact (touches_writeLoop x _ _).more (In.mono ((Nat.sub_le _ _).trans (clip_le hlast hbounds.2)))
      · exact touches_writeLoop_out (not_le.mp hlast).le
    · exact (touches_of_still (still_modifyInode _ _)).bind fun _ _ =>
        (touches_of_still (still_iupdate _)).bind fun _ _ => within_pure _

end

end OperatingSystems.Files.Syscalls
