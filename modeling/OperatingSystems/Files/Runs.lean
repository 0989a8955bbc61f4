import OperatingSystems.Files.Allocation

/-! # The calls keep the blocks apart

`readi` and `writei` on top of `bmap`, and from there the runs: in any order of calls the blocks stay apart, and
`bfree` never finds its block free (`blocks_apart`). -/

namespace OperatingSystems.Files.Runs

open OperatingSystems.Files.Allocation OperatingSystems.Files.Sharing OperatingSystems.Lib.Transition
  OperatingSystems.Lib.WeakestPre OperatingSystems.Lib.Words OperatingSystems.Pipes

section
variable {s t : Kernel} {x : Fin ninode} {i : ℕ}

/-! ### Contents -/

theorem keepsFull_toUser (dst m : ℕ) (bytes : ℕ → Byte) : KeepsFull (toUser dst m bytes) :=
  keepsFull_modify fun _ => rfl

theorem keepsFull_fromUser (src m : ℕ) : KeepsFull (fromUser src m) := by
  intro s hs
  simp only [fromUser, wp_bind, wp_get, wp_set, wp_pure]
  exact hs

theorem keepsFull_readLoop (x : Fin ninode) (n fuel : ℕ) :
    ∀ tot off dst, KeepsFull (readLoop x n fuel tot off dst) := by
  induction fuel with
  | zero => exact fun _ _ _ => keepsFull_pure _
  | succ fuel ih =>
    intro tot off dst
    refine .ite ?_ (keepsFull_pure _)
    exact (keepsFull_bmap _ _).bind fun b => keepsFull_get.bind fun s =>
      (keepsFull_toUser _ _ _).bind fun _ => ih _ _ _

theorem keepsFull_writeLoop (x : Fin ninode) (n fuel : ℕ) :
    ∀ tot off src, KeepsFull (writeLoop x n fuel tot off src) := by
  induction fuel with
  | zero => exact fun _ _ _ => keepsFull_pure _
  | succ fuel ih =>
    intro tot off src
    refine .ite ?_ (keepsFull_pure _)
    exact (keepsFull_bmap _ _).bind fun b => (keepsFull_fromUser _ _).bind fun bytes =>
      keepsFull_get.bind fun s => (keepsFull_bwrite _ _).bind fun _ => ih _ _ _

theorem sameDisk_toUser (dst m : ℕ) (bytes : ℕ → Byte) :
    Wp (toUser dst m bytes) (fun _ t => SameDisk s t) (fun _ _ => False) s := by
  simp only [toUser, wp_modify]
  exact ⟨rfl, rfl, rfl, rfl, rfl, rfl⟩

theorem sameDisk_fromUser (src m : ℕ) :
    Wp (fromUser src m) (fun _ t => SameDisk s t) (fun _ _ => False) s := by
  simp only [fromUser, wp_bind, wp_get, wp_set, wp_pure]
  exact ⟨rfl, rfl, rfl, rfl, rfl, rfl⟩

/-- A file is read. -/
theorem readLoop_spec {n fuel : ℕ} : ∀ {s : Kernel} {tot off dst : ℕ}, Sound s → Caches s i x →
    Wp (readLoop x n fuel tot off dst) (fun _ t => t.full = true ∨ Sound t ∧ Caches t i x)
      (fun e t => t.full = true ∨ e = .bmap) s := by
  induction fuel with
  | zero => exact fun h hx => wp_pure.mpr (Or.inr ⟨h, hx⟩)
  | succ fuel ih =>
    intro s tot off dst h hx
    unfold readLoop
    rw [wp_ite]
    constructor
    · intro _
      refine wp_unless_full (bmap_spec h hx (off / bsize)) (fun b => ?_) ?_
      · exact keepsFull_get.bind fun s => (keepsFull_toUser _ _ _).bind fun _ => keepsFull_readLoop _ _ _ _ _ _
      · rintro b t ⟨ht, hxt, -, -⟩
        refine wp_bind.mpr (wp_get.mpr ?_)
        refine Wp.bind ((sameDisk_toUser dst _ _).mono (fun _ _ hu => hu) fun _ _ he => he.elim) ?_
        intro _ u hu
        exact ih (hu.sound ht) (hu.caches hxt)
    · intro _
      exact wp_pure.mpr (Or.inr ⟨h, hx⟩)

/-- A file is written: no block of it is an indirect block. -/
theorem writeLoop_spec {n fuel : ℕ} : ∀ {s : Kernel} {tot off src : ℕ}, Sound s → Caches s i x →
    Wp (writeLoop x n fuel tot off src) (fun _ t => t.full = true ∨ Sound t ∧ Caches t i x)
      (fun e t => t.full = true ∨ e = .bmap) s := by
  induction fuel with
  | zero => exact fun h hx => wp_pure.mpr (Or.inr ⟨h, hx⟩)
  | succ fuel ih =>
    intro s tot off src h hx
    unfold writeLoop
    rw [wp_ite]
    constructor
    · intro _
      refine wp_unless_full (bmap_spec h hx (off / bsize)) (fun b => ?_) ?_
      · exact (keepsFull_fromUser _ _).bind fun bytes => keepsFull_get.bind fun s =>
          (keepsFull_bwrite _ _).bind fun _ => keepsFull_writeLoop _ _ _ _ _ _
      · rintro b t ⟨ht, hxt, hne, hheld⟩
        refine Wp.bind ((sameDisk_fromUser src _).mono (fun _ _ hu => hu) fun _ _ he => he.elim) ?_
        intro bytes u hu
        refine wp_bind.mpr (wp_get.mpr ?_)
        have hsound := hu.sound ht
        have hheld' : held u (i, placeOf (off / bsize)) = b := by rw [hu.held, hheld]
        have hdata : u.sb.IsData b.toNat := by
          have := hsound.blocks.area (i, placeOf (off / bsize))
          rw [heldBut_empty, hheld'] at this
          exact this hne
        simp only [bwrite, wp_bind, wp_get, wp_ite, wp_set, wp_throw]
        refine ⟨fun _ => ih ?_ (hu.caches hxt), fun hnot => absurd hdata hnot⟩
        rw [← hheld'] at hne ⊢
        refine hsound.setData hne (fun k hk => ?_) rfl
        -- neither an address below NDIRECT nor an entry is the indirect block
        unfold placeOf at hk
        split_ifs at hk with hlt
        · have hsame := Place.addr.inj (Prod.mk.inj hk).2
          omega
        · exact Place.noConfusion (Prod.mk.inj hk).2
    · intro _
      exact wp_pure.mpr (Or.inr ⟨h, hx⟩)

/-- The disk does not change, and the call sleeps if it stops. -/
def Idle {α : Type} (c : Code α) : Prop :=
  ∀ s, Wp c (fun _ t => SameDisk s t) (fun e t => SameDisk s t ∧ e = .asleep) s

section
variable {α β : Type} {c c' : Code α} {f : α → Code β}

theorem idle_pure (a : α) : Idle (pure a : Code α) := fun s => wp_pure.mpr (.refl s)

theorem Idle.bind (h : Idle c) (hf : ∀ a, Idle (f a)) : Idle (c >>= f) := by
  intro s
  refine (h s).bind fun a t ht => (hf a t).mono (fun _ u hu => ht.trans hu) ?_
  exact fun _ u hu => ⟨ht.trans hu.1, hu.2⟩

theorem idle_get : Idle (get : Code Kernel) := fun s => wp_get.mpr (.refl s)

theorem idle_throw : Idle (throw .asleep : Code α) := fun s => wp_throw.mpr ⟨.refl s, rfl⟩

theorem Idle.ite {p : Prop} [Decidable p] (h : Idle c) (h' : Idle c') : Idle (if p then c else c') := by
  split_ifs
  · exact h
  · exact h'

end

theorem idle_sleep : Idle sleep := by
  intro s
  unfold sleep
  simp only [wp_bind, wp_get]
  split
  · exact wp_throw.mpr ⟨.refl s, rfl⟩
  · exact wp_set.mpr ⟨rfl, rfl, rfl, rfl, rfl, rfl⟩

theorem idle_toUser (dst m : ℕ) (bytes : ℕ → Byte) : Idle (toUser dst m bytes) := fun _ =>
  (sameDisk_toUser dst m bytes).mono (fun _ _ h => h) fun _ _ he => he.elim

theorem idle_consoleWait (k : ℕ) : Idle (consoleWait k) := by
  induction k with
  | zero => exact idle_throw
  | succ k ih =>
    exact idle_get.bind fun s => .ite (.ite (idle_pure _) (idle_sleep.bind fun _ => ih)) (idle_pure _)

theorem idle_consoleLoop (target n : ℕ) : ∀ dst, Idle (consoleLoop target dst n) := by
  induction n with
  | zero => exact fun _ => idle_pure _
  | succ n ih =>
    intro dst
    refine idle_get.bind fun s => (idle_consoleWait _).bind fun killed => .ite (idle_pure _) ?_
    -- the byte is taken from the buffer
    intro t
    refine wp_bind.mpr (wp_get.mpr ?_)
    rw [wp_ite]
    constructor
    · intro _
      simp only [wp_bind, wp_ite, wp_set, wp_pure]
      exact ⟨fun _ => ⟨rfl, rfl, rfl, rfl, rfl, rfl⟩, fun _ => .refl t⟩
    · intro _
      refine wp_bind.mpr (wp_set.mpr ?_)
      have htaken : SameDisk t { t with input := { t.input with r := t.input.r + 1#32 } } :=
        ⟨rfl, rfl, rfl, rfl, rfl, rfl⟩
      have hrest : Idle (do
          toUser dst 1 fun _ => t.input.buf (t.input.r.toNat % inputBuf)
          if t.input.buf (t.input.r.toNat % inputBuf) = newline then return some n
          else consoleLoop target (dst + 1) n) :=
        (idle_toUser _ _ _).bind fun _ => .ite (idle_pure _) (ih _)
      exact (hrest _).mono (fun _ _ hu => htaken.trans hu) fun _ _ hu => ⟨htaken.trans hu.1, hu.2⟩

theorem idle_consoleread (dst : ℕ) (n : ℤ) : Idle (consoleread dst n) := by
  refine (idle_consoleLoop _ _ _).bind fun left => ?_
  cases left with
  | none => exact idle_pure _
  | some k => exact idle_pure _

theorem idle_consolewrite (buf : ℕ) (n : ℤ) : Idle (consolewrite buf n) := by
  refine Idle.bind (fun s => ?_) fun _ => idle_pure _
  exact (sameDisk_fromUser buf n.toNat).mono (fun _ _ h => h) fun _ _ he => he.elim

/-- What a call may stop at. -/
def Harmless (e : Stop) : Prop := e ≠ .bfree ∧ e ≠ .outside

theorem Idle.sound {α : Type} {c : Code α} (hc : Idle c) (h : Sound s) :
    Wp c (fun _ t => t.full = true ∨ Sound t) (fun e t => t.full = true ∨ Harmless e) s := by
  refine (hc s).mono (fun _ t ht => Or.inr (ht.sound h)) ?_
  rintro _ _ ⟨-, rfl⟩
  exact Or.inr ⟨nofun, nofun⟩

theorem harmless_bmap {e : Stop} {t : Kernel} (he : t.full = true ∨ e = .bmap) :
    t.full = true ∨ Harmless e := by
  rcases he with he | rfl
  · exact Or.inl he
  · exact Or.inr ⟨nofun, nofun⟩

theorem readi_spec (h : Sound s) (hx : Caches s i x) (dst : ℕ) (off n : Word) :
    Wp (readi x dst off n) (fun _ t => t.full = true ∨ Sound t)
      (fun e t => t.full = true ∨ Harmless e) s := by
  unfold readi
  refine wp_bind.mpr (wp_get.mpr ?_)
  dsimp only
  rw [wp_ite]
  constructor
  · intro _
    rw [wp_ite]
    exact ⟨fun _ => (idle_consoleread dst n.toInt).sound h, fun _ => wp_pure.mpr (Or.inr h)⟩
  · intro _
    rw [wp_ite]
    refine ⟨fun _ => wp_pure.mpr (Or.inr h), fun _ => ?_⟩
    refine Wp.bind ((readLoop_spec h hx).mono (fun _ _ ht => ht) fun _ _ => harmless_bmap) ?_
    rintro _ t ht
    exact wp_pure.mpr (ht.imp_right And.left)

theorem writei_spec (h : Sound s) (hx : Caches s i x) (src : ℕ) (off n : Word) :
    Wp (writei x src off n) (fun _ t => t.full = true ∨ Sound t)
      (fun e t => t.full = true ∨ Harmless e) s := by
  unfold writei
  refine wp_bind.mpr (wp_get.mpr ?_)
  dsimp only
  rw [wp_ite]
  constructor
  · intro _
    rw [wp_ite]
    exact ⟨fun _ => (idle_consolewrite src n.toInt).sound h, fun _ => wp_pure.mpr (Or.inr h)⟩
  · intro _
    rw [wp_ite]
    refine ⟨fun _ => wp_pure.mpr (Or.inr h), fun _ => ?_⟩
    refine wp_unless_full ((writeLoop_spec h hx).mono (fun _ _ ht => ht) fun _ _ => harmless_bmap)
      (fun off => ?_) ?_
    · refine keepsFull_get.bind fun t => .ite ?_ (keepsFull_pure _)
      exact (keepsFull_modifyInode _ _).bind fun _ => (keepsFull_iupdate _).bind fun _ => keepsFull_pure _
    · rintro off t ⟨ht, hxt⟩
      refine wp_bind.mpr (wp_get.mpr ?_)
      rw [wp_ite]
      refine ⟨fun _ => ?_, fun _ => wp_pure.mpr (Or.inr ht)⟩
      have hsize := iupdate_spec ht hxt (f := fun ip => { ip with size := BitVec.ofNat 32 off })
        fun _ => ⟨rfl, rfl, rfl, rfl⟩
      refine wp_bind.mpr ((wp_bind.mp hsize).mono (fun _ u hu => ?_) fun _ _ he => he.elim)
      refine wp_bind.mpr (hu.mono (fun _ v hv => ?_) fun _ _ he => he.elim)
      exact wp_pure.mpr (Or.inr hv.1)

end

/-! ### Runs -/

/-- The calls of the inode layer. `bmap` stands for `dirlookup`, which looks at the blocks of a directory, and
`iupdate` is called after other fields have changed. `elsewhere` is what happens outside the file system. -/
inductive Call where
  | ialloc (type : Short)
  | iget (inum : ℕ)
  | idup (x : Fin ninode)
  | ilock (x : Fin ninode)
  | iunlock (x : Fin ninode)
  | iput (x : Fin ninode)
  | iupdate (x : Fin ninode) (major minor nlink : Short)
  | bmap (x : Fin ninode) (bn : ℕ)
  | readi (x : Fin ninode) (dst : ℕ) (off n : Word)
  | writei (x : Fin ninode) (src : ℕ) (off n : Word)
  | elsewhere (wake : Wake) (wakes : List Wake) (user : ℕ → Byte)

/-- The call, without its result. -/
def Call.code : Call → Code Unit
  | .ialloc type => do
    let _ ← Files.ialloc type
    return ()
  | .iget inum => do
    let _ ← Files.iget inum
    return ()
  | .idup x => Files.idup x
  | .ilock x => Files.ilock x
  | .iunlock x => Files.iunlock x
  | .iput x => Files.iput x
  | .iupdate x major minor nlink => do
    modifyInode x fun ip => { ip with major := major, minor := minor, nlink := nlink }
    Files.iupdate x
  | .bmap x bn => do
    let _ ← Files.bmap x bn
    return ()
  | .readi x dst off n => do
    let _ ← Files.readi x dst off n
    return ()
  | .writei x src off n => do
    let _ ← Files.writei x src off n
    return ()
  | .elsewhere wake wakes user => modify fun s =>
    { s with killed := wake.killed, input := wake.input, pipe := wake.pipe, wakes := wakes, user := user }

/-- The caller has a reference to the inode. -/
def Refers (s : Kernel) (x : Fin ninode) : Prop := 0 < (s.inode x).ref

/-- The caller holds the lock of the inode. -/
def Locks (s : Kernel) (x : Fin ninode) : Prop :=
  Refers s x ∧ (s.inode x).busy = true ∧ (s.inode x).valid = true

/-- What the callers keep to: inode numbers come from the directories, which only name inodes of the disk;
a reference is held, and for reading and writing the lock. -/
def Call.Allowed (s : Kernel) : Call → Prop
  | .ialloc _ | .elsewhere _ _ _ => True
  | .iget inum => inum < s.sb.ninodes.toNat
  | .idup x | .ilock x | .iunlock x | .iput x => Refers s x
  | .iupdate x _ _ _ | .bmap x _ | .readi x _ _ _ | .writei x _ _ _ => Locks s x

/-- What the claim about the blocks says of a state, with the disk inodes as well. -/
structure Apart (s : Kernel) : Prop where
  unique : ∀ p q, held s p ≠ 0#32 → held s p = held s q → p = q
  marked : ∀ p, held s p ≠ 0#32 → s.bitmap (held s p).toNat = true
  zero : ∀ b, s.sb.IsData b → s.bitmap b = false → ∀ o < bsize, s.block b o = 0#8
  disk : ∀ i < s.sb.ninodes.toNat, ∀ j ≤ ndirect,
    (s.dinode i).addrs j = 0#32 ∨ (s.dinode i).addrs j = held s (i, .addr j)

/-- **An image** at boot: nothing is cached, the blocks are apart, the addresses are those of data blocks, and
the blocks before the data are marked. -/
structure Image (s : Kernel) : Prop where
  empty : ∀ x, (s.inode x).ref = 0
  apart : Apart s
  data : ∀ p, held s p ≠ 0#32 → s.sb.IsData (held s p).toNat
  system : ∀ b < s.sb.start, s.bitmap b = true
  full : s.full = false

/-- The runs of the calls on a disk that is never full. -/
def calls : System Kernel Call where
  init := Image
  step s c t := c.Allowed s ∧ c.code s = .ok () t ∧ t.full = false

theorem Image.sound {s : Kernel} (h : Image s) : Sound s := by
  have hnone : ∀ i x, ¬ Caches s i x := fun i x hx => absurd hx.1 (by simp [h.empty x])
  refine ⟨⟨?_, ?_, h.apart.zero, h.system, ?_⟩, fun i x hx => absurd hx (hnone i x)⟩
  · rw [heldBut_empty]
    exact ⟨fun p q hp hpq => h.apart.unique p q hp hpq, h.apart.marked⟩
  · rw [heldBut_empty]
    exact h.data
  · exact ⟨fun x _ hx => absurd hx (by simp [h.empty x]), fun x hx => absurd hx (by simp [h.empty x])⟩

theorem apart_of_sound {s : Kernel} (h : Sound s) : Apart s := by
  have hnames := h.blocks.names
  rw [heldBut_empty] at hnames
  refine ⟨hnames.inj, hnames.used, h.blocks.zero, fun i hi j hj => ?_⟩
  rw [held_addr hi hj]
  rcases addrs_cases h.blocks.cache i with ⟨x, hx, heq⟩ | ⟨-, heq⟩
  · rw [heq]
    exact h.disk i x hx j hj
  · rw [heq]
    exact Or.inr rfl

/-- The result of a call is not needed. -/
theorem wp_result {α : Type} {c : Code α} {s : Kernel} {E : Stop → Kernel → Prop}
    (h : Wp c (fun _ t => t.full = true ∨ Sound t) E s) :
    Wp (do
      let _ ← c
      return ()) (fun _ t => t.full = true ∨ Sound t) E s :=
  h.bind fun _ _ ht => wp_pure.mpr ht

/-- **What a call does.** -/
theorem call_spec {s : Kernel} (h : Sound s) {c : Call} (hc : c.Allowed s) :
    Wp c.code (fun _ t => t.full = true ∨ Sound t) (fun e t => t.full = true ∨ Harmless e) s := by
  have hlock : ∀ {x}, Locks s x → Caches s (s.inode x).inum x := fun hx => ⟨hx.1, hx.2.2, rfl⟩
  cases c with
  | ialloc type =>
    refine wp_result ((ialloc_spec h type).mono (fun _ _ => Or.inr) ?_)
    rintro _ _ (rfl | rfl) <;> exact Or.inr ⟨nofun, nofun⟩
  | iget inum =>
    refine wp_result ((iget_spec h hc).mono (fun _ _ => Or.inr) ?_)
    rintro _ _ rfl
    exact Or.inr ⟨nofun, nofun⟩
  | idup x => exact (idup_spec h hc).mono (fun _ _ => Or.inr) fun _ _ he => he.elim
  | ilock x =>
    refine (ilock_spec h).mono (fun _ _ => Or.inr) ?_
    rintro _ _ (rfl | rfl | rfl) <;> exact Or.inr ⟨nofun, nofun⟩
  | iunlock x =>
    refine (iunlock_spec h).mono (fun _ _ => Or.inr) ?_
    rintro _ _ rfl
    exact Or.inr ⟨nofun, nofun⟩
  | iput x =>
    refine (iput_spec h hc).mono (fun _ _ => Or.inr) ?_
    rintro _ _ rfl
    exact Or.inr ⟨nofun, nofun⟩
  | iupdate x major minor nlink =>
    refine (iupdate_spec h (hlock hc)
      (f := fun ip => { ip with major := major, minor := minor, nlink := nlink })
      fun _ => ⟨rfl, rfl, rfl, rfl⟩).mono (fun _ _ ht => Or.inr ht.1) ?_
    exact fun _ _ he => he.elim
  | bmap x bn =>
    refine wp_result ((bmap_spec h (hlock hc) bn).mono (fun _ _ ht => ht.imp_right And.left) ?_)
    exact fun _ _ => harmless_bmap
  | readi x dst off n => exact wp_result (readi_spec h (hlock hc) dst off n)
  | writei x src off n => exact wp_result (writei_spec h (hlock hc) src off n)
  | elsewhere wake wakes user =>
    exact wp_modify.mpr (Or.inr (SameDisk.sound (s := s) ⟨rfl, rfl, rfl, rfl, rfl, rfl⟩ h))

theorem sound_reachable {s : Kernel} (h : calls.Reachable s) : Sound s := by
  refine h.invariant (fun _ => Image.sound) ?_
  rintro s c t - hs ⟨hc, hrun, hfull⟩
  refine ((call_spec hs hc).of_ok hrun).resolve_left ?_
  rw [hfull]
  decide

/-- **The blocks stay apart** in every run of calls in any order on a disk that is never full: no block has two
places, all that have one are marked, and all others hold zeros, so that a new indirect block starts without
entries. `bfree` never finds its block free, and nothing but data is written as data. -/
theorem blocks_apart {s : Kernel} (h : calls.Reachable s) :
    Apart s ∧
      (∀ b, s.sb.IsData b → s.bitmap b = false → ∀ j < nindirect, word (s.block b) (4 * j) = 0#32) ∧
      ∀ (c : Call) (e : Stop) (t : Kernel), c.Allowed s → c.code s = .error e t → t.full = false →
        e ≠ .bfree ∧ e ≠ .outside := by
  have hs := sound_reachable h
  refine ⟨apart_of_sound hs, fun b hb hfree j hj => word_zero fun o _ ho => ?_, fun c e t hc hrun hfull => ?_⟩
  · refine hs.blocks.zero b hb hfree o ?_
    unfold nindirect at hj
    unfold bsize
    omega
  · refine ((call_spec hs hc).of_error hrun).resolve_left ?_
    rw [hfull]
    decide

/-- The root directory of a new disk, with its block. -/
def rootInode : Dinode where
  type := tDir
  major := 0#16
  minor := 0#16
  nlink := 1#16
  size := 512#32
  addrs := Function.update (fun _ => 0#32) 0 29#32

/-- Its entries: inode 1 as "." and as "..". -/
def rootBlock (o : ℕ) : Byte :=
  if o = 0 ∨ o = 16 then 1#8 else if o = 2 ∨ o = 18 ∨ o = 19 then 46#8 else 0#8

/-- The disk of `mkfs` with nothing but the root directory. -/
def newDisk : Kernel where
  sb := ⟨1024#32, 200#32⟩
  bitmap b := decide (b < 30)
  dinode := Function.update (fun _ => cleared 0#16) 1 rootInode
  block := Function.update (fun _ _ => 0#8) 29 rootBlock
  inode _ := ⟨cleared 0#16, 0, 0, false, false⟩
  full := false
  input := ⟨fun _ => 0#8, 0#32, 0#32, 0#32⟩
  pipe _ := ⟨fun _ => 0#8, 0#32, 0#32, true, true⟩
  killed := false
  wakes := []
  user _ := 0#8
  touched := []

theorem held_newDisk {p : ℕ × Place} (hp : held newDisk p ≠ 0#32) :
    p = (1, .addr 0) ∧ held newDisk p = 29#32 := by
  have haddrs : ∀ k, addrs newDisk k = (newDisk.dinode k).addrs := fun k =>
    addrs_of_not_caches fun x hx => absurd hx.1 (lt_irrefl 0)
  have hzero : ∀ k j, (k ≠ 1 ∨ j ≠ 0) → addrs newDisk k j = 0#32 := by
    intro k j hkj
    rw [haddrs, newDisk]
    dsimp only
    by_cases hk : k = 1
    · subst hk
      have hj : j ≠ 0 := hkj.resolve_left (not_not.mpr rfl)
      simp only [Function.update_self, rootInode, Function.update_of_ne hj]
    · rw [Function.update_of_ne hk]
      rfl
  obtain ⟨k, j | j⟩ := p
  · by_cases hkj : k = 1 ∧ j = 0
    · obtain ⟨rfl, rfl⟩ := hkj
      refine ⟨rfl, ?_⟩
      rw [held_addr (by decide) (by decide), haddrs]
      rfl
    · refine absurd ?_ hp
      simp only [held, hzero k j (not_and_or.mp hkj), ite_self]
  · refine absurd ?_ hp
    simp [held, hzero k ndirect (Or.inr (by decide))]

theorem image_newDisk : Image newDisk := by
  refine ⟨fun _ => rfl, ⟨fun p q hp hpq => ?_, fun p hp => ?_, fun b hb hfree o _ => ?_, fun i hi j hj => ?_⟩,
    fun p hp => ?_, fun b hb => ?_, rfl⟩
  · obtain ⟨hp', -⟩ := held_newDisk hp
    obtain ⟨hq', -⟩ := held_newDisk (hpq ▸ hp)
    rw [hp', hq']
  · rw [(held_newDisk hp).2]
    rfl
  · have hne : b ≠ 29 := by
      rintro rfl
      cases hfree
    rw [newDisk]
    dsimp only
    rw [Function.update_of_ne hne]
  · rw [held_addr hi hj, addrs_of_not_caches fun x hx => absurd hx.1 (lt_irrefl 0)]
    exact Or.inr rfl
  · rw [(held_newDisk hp).2]
    decide
  · have hlt : b < 29 := hb
    exact decide_eq_true (by omega)

instance (s : Kernel) (x : Fin ninode) : Decidable (Refers s x) := inferInstanceAs (Decidable (_ < _))

instance (s : Kernel) (x : Fin ninode) : Decidable (Locks s x) := inferInstanceAs (Decidable (_ ∧ _))

instance (s : Kernel) : (c : Call) → Decidable (c.Allowed s)
  | .ialloc _ | .elsewhere _ _ _ => .isTrue trivial
  | .iget inum => inferInstanceAs (Decidable (inum < s.sb.ninodes.toNat))
  | .idup x | .ilock x | .iunlock x | .iput x => inferInstanceAs (Decidable (Refers s x))
  | .iupdate x _ _ _ | .bmap x _ | .readi x _ _ _ | .writei x _ _ _ => inferInstanceAs (Decidable (Locks s x))

/-- The state after a call that is allowed, and does not stop or find the disk full. -/
def afterCall (s : Kernel) (c : Call) : Option Kernel :=
  match c.code s with
  | .ok _ t => if c.Allowed s ∧ t.full = false then some t else none
  | .error _ _ => none

theorem calls_of_afterCall (s : Kernel) (c : Call) (t : Kernel) (h : afterCall s c = some t) : calls.step s c t := by
  unfold afterCall at h
  split at h
  · next u hrun =>
    split_ifs at h with hc
    cases h
    exact ⟨hc.1, hrun, hc.2⟩
  · cases h

/-- A file is created as inode 2, in entry `x` of the cache, and gets 600 bytes. -/
def newFile (x : Fin ninode) : List Call :=
  [.ialloc tFile, .ilock x, .iupdate x 0#16 0#16 1#16, .writei x 0 0#32 600#32, .iunlock x, .iput x]

/-- Its two blocks are apart from that of the root directory. -/
theorem blocks_apart_newFile : ∃ s ∈ runFun afterCall newDisk (newFile 0), (s.inode 0).ref = 0 ∧
    held s (1, .addr 0) = 29#32 ∧ held s (2, .addr 0) = 30#32 ∧ held s (2, .addr 1) = 31#32 ∧ Apart s := by
  have hrun : ∃ s ∈ runFun afterCall newDisk (newFile 0), (s.inode 0).ref = 0 ∧ held s (1, .addr 0) = 29#32 ∧
      held s (2, .addr 0) = 30#32 ∧ held s (2, .addr 1) = 31#32 := by
    decide +kernel
  obtain ⟨s, hs, href, hroot, hfirst, hsecond⟩ := hrun
  exact ⟨s, hs, href, hroot, hfirst, hsecond,
    (blocks_apart (reachable_runFun calls_of_afterCall (.init image_newDisk) hs)).1⟩

end OperatingSystems.Files.Runs
