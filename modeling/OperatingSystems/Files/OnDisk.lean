import OperatingSystems.Files.Removal

/-! # The files on the disk

A store has the files by their inode numbers. Each call changes it as `replay` says, and after any run of calls
the disk alone says what the store says (`disk_stores`). -/

namespace OperatingSystems.Files.OnDisk

open OperatingSystems.Files.Allocation OperatingSystems.Files.FileBytes OperatingSystems.Files.Removal
  OperatingSystems.Files.Runs OperatingSystems.Files.Sharing OperatingSystems.Files.Stable
  OperatingSystems.Lib.Splice OperatingSystems.Lib.Transition OperatingSystems.Lib.WeakestPre
  OperatingSystems.Lib.Words OperatingSystems.Pipes

/-- The files by their numbers. -/
abbrev Store := ℕ → Stored

/-- **What a call does to the files.** The number behind a reference, how many references there are, and the
memory of the process are those of the kernel when the call begins. -/
def replay (s : Kernel) : Call → Store → Store
  | .ialloc type, st =>
    match (List.range s.sb.ninodes.toNat).find? fun i => 1 ≤ i ∧ (st i).type = 0#16 with
    | some i => Function.update st i (fresh type)
    | none => st
  | .iupdate x major minor nlink, st =>
    let i := (s.inode x).inum
    Function.update st i { st i with major := major, minor := minor, nlink := nlink }
  | .writei x src off n, st =>
    let i := (s.inode x).inum
    if (st i).type = tDev then st
    else Function.update st i ((st i).write off.toNat n.toNat fun k => s.user (src + k))
  | .iput x, st =>
    let i := (s.inode x).inum
    if (s.inode x).ref = 1 ∧ (s.inode x).valid = true ∧ (st i).nlink = 0#16 then
      Function.update st i (removed (st i))
    else st
  | .iget _, st | .idup _, st | .ilock _, st | .iunlock _, st | .bmap _ _, st | .readi _ _ _ _, st
  | .elsewhere _ _ _, st => st

/-- `dirlookup` looks at the blocks of a directory up to its size. -/
def Call.InFile (s : Kernel) : Call → Prop
  | .bmap x bn => bn * bsize < (s.inode x).size.toNat
  | _ => True

/-- **A formatted disk**: an image with whole files. -/
structure Formatted (s : Kernel) : Prop where
  image : Image s
  whole : Whole s

/-- The runs of the calls from a disk, with the files. -/
def runs (s₀ : Kernel) : System (Kernel × Store) Call :=
  System.beside { init := (· = s₀), step := fun s c t => Call.InFile s c ∧ calls.step s c t } (stored s₀) replay

theorem Formatted.settled {s : Kernel} (h : Formatted s) : Settled s := by
  have hnone : ∀ i x, ¬ Caches s i x := fun i x hx => absurd hx.1 (by simp [h.image.empty x])
  exact ⟨h.image.sound, ⟨fun i x hx => absurd hx (hnone i x), fun i x hx => absurd hx (hnone i x)⟩, h.whole⟩

section
variable {s t : Kernel} {x : Fin ninode} {i : ℕ}

/-- The files after a call, if the disk has not been found full. -/
def Replays (s : Kernel) (c : Call) (t : Kernel) : Prop :=
  t.full = true ∨ Settled t ∧ stored t = replay s c (stored s)

/-- What a call may stop at. -/
def Stops (e : Stop) (t : Kernel) : Prop := t.full = true ∨ e ≠ .bfree ∧ e ≠ .outside ∧ e ≠ .bmap

theorem stored_of_view {v : View} (h : view t = v) : stored t = v.file := congrArg View.file h

theorem caches_of_locks (h : Locks s x) : Caches s (s.inode x).inum x := ⟨h.1, h.2.2, rfl⟩

theorem type_of_locks (hs : Settled s) (h : Locks s x) : (stored s (s.inode x).inum).type = (s.inode x).type := by
  rw [stored, ← hs.synced.copy _ x (caches_of_locks h)]

/-- What does not touch the disk replays as nothing. -/
theorem replays_of_idle {c : Code ℤ} {call : Call} (h : Settled s) (hc : Idle c)
    (hcall : replay s call (stored s) = stored s) :
    Wp c (fun _ t => Replays s call t) Stops s := by
  refine (hc s).mono (fun _ t ht => ?_) ?_
  · obtain ⟨hs, hbyte⟩ := h.of_sameDisk ht
    refine Or.inr ⟨hs, ?_⟩
    rw [hcall]
    funext j
    simp only [stored, fileSize, hbyte, ht.dinode]
  · rintro e t ⟨-, rfl⟩
    exact Or.inr ⟨by decide, by decide, by decide⟩

theorem replays_of_view {call : Call} {v : View} (ht : Settled t) (hview : view t = v)
    (hv : v.file = replay s call (stored s)) : Replays s call t := Or.inr ⟨ht, (stored_of_view hview).trans hv⟩

/-- A reference has been taken. -/
theorem file_of_gets {v w : View} (h : Gets v w i x) : w.file = v.file := by
  rcases h with ⟨-, -, rfl⟩ | ⟨-, -, rfl⟩ <;> rfl

/-- The result of a call is not needed. -/
theorem wp_drop {α : Type} {c : Code α} {Q : Kernel → Prop} {E : Stop → Kernel → Prop}
    (h : Wp c (fun _ t => Q t) E s) :
    Wp (do
      let _ ← c
      return ()) (fun _ t => Q t) E s := h.bind fun _ _ ht => wp_pure.mpr ht

theorem readi_replays (h : Settled s) (hx : Locks s x) (dst : ℕ) (off n : Word) :
    Wp (readi x dst off n) (fun _ t => Replays s (.readi x dst off n) t) Stops s := by
  by_cases htype : (s.inode x).type = tDev
  · unfold readi
    refine wp_bind.mpr (wp_get.mpr ?_)
    dsimp only
    rw [if_pos htype, wp_ite]
    exact ⟨fun _ => replays_of_idle h (idle_consoleread dst _) rfl, fun _ => wp_pure.mpr (Or.inr ⟨h, rfl⟩)⟩
  · refine (readi_stable h (caches_of_locks hx) htype dst off n).mono ?_ fun _ _ he => he.elim
    rintro r t ⟨-, tc, ht⟩
    have hsame : SameDisk s t := by
      rw [ht]
      exact ⟨rfl, rfl, rfl, rfl, rfl, rfl⟩
    obtain ⟨hs, hbyte⟩ := h.of_sameDisk hsame
    refine Or.inr ⟨hs, ?_⟩
    funext j
    simp only [stored, fileSize, hbyte, hsame.dinode, replay]

theorem writei_replays (h : Settled s) (hx : Locks s x) (src : ℕ) (off n : Word) :
    Wp (writei x src off n) (fun _ t => Replays s (.writei x src off n) t) Stops s := by
  have hi := type_of_locks h hx
  by_cases htype : (s.inode x).type = tDev
  · have hsame : replay s (.writei x src off n) (stored s) = stored s := if_pos (hi.trans htype)
    unfold writei
    refine wp_bind.mpr (wp_get.mpr ?_)
    dsimp only
    rw [if_pos htype, wp_ite]
    refine ⟨fun _ => replays_of_idle h (idle_consolewrite src _) hsame, fun _ => wp_pure.mpr (Or.inr ⟨h, hsame.symm⟩)⟩
  · refine (writei_stable h (caches_of_locks hx) htype src off n).mono ?_ fun _ _ he => Or.inl (he.resolve_right id)
    rintro r t (ht | ⟨-, ht, hview⟩)
    · exact Or.inl ht
    · exact replays_of_view ht hview (if_neg fun hc => htype (hi.symm.trans hc)).symm

/-- **What a call does to the files.** -/
theorem call_replays (h : Settled s) {c : Call} (hc : c.Allowed s) (hin : Call.InFile s c) :
    Wp c.code (fun _ t => Replays s c t) Stops s := by
  cases c with
  | ialloc type =>
    refine wp_drop ((ialloc_stable h type).mono ?_ ?_)
    · rintro y t ⟨ht, -, i, hfind, hgets⟩
      refine Or.inr ⟨ht, (file_of_gets hgets).trans ?_⟩
      simp only [replay, hfind]
      rfl
    · rintro _ _ (rfl | rfl) <;> exact Or.inr ⟨by decide, by decide, by decide⟩
  | iget inum =>
    refine wp_drop ((iget_stable h hc).mono ?_ ?_)
    · rintro y t ⟨ht, -, hgets⟩
      exact Or.inr ⟨ht, file_of_gets hgets⟩
    · rintro _ _ rfl
      exact Or.inr ⟨by decide, by decide, by decide⟩
  | idup x =>
    refine (idup_stable h hc).mono ?_ fun _ _ he => he.elim
    exact fun _ t ht => replays_of_view ht.1 ht.2.2 rfl
  | ilock x =>
    refine (ilock_stable h).mono ?_ ?_
    · exact fun _ t ht => replays_of_view ht.1 ht.2.2.2.2 rfl
    · rintro _ _ (rfl | rfl | ⟨rfl, -⟩) <;> exact Or.inr ⟨by decide, by decide, by decide⟩
  | iunlock x =>
    refine (iunlock_stable h).mono ?_ ?_
    · exact fun _ t ht => replays_of_view ht.1 ht.2.2 rfl
    · rintro _ _ ⟨rfl, -⟩
      exact Or.inr ⟨by decide, by decide, by decide⟩
  | iput x =>
    refine (iput_stable h hc).mono ?_ ?_
    · rintro _ t ⟨ht, -, hview⟩
      refine replays_of_view ht hview ?_
      by_cases hlast : (s.inode x).ref = 1 ∧ (s.inode x).valid = true ∧ (stored s (s.inode x).inum).nlink = 0#16
      · have hputs : puts (view s) x = _ := if_pos hlast
        have hreplay : replay s (.iput x) (stored s) = _ := if_pos hlast
        rw [hputs, hreplay]
        rfl
      · have hputs : puts (view s) x = _ := if_neg hlast
        have hreplay : replay s (.iput x) (stored s) = _ := if_neg hlast
        rw [hputs, hreplay]
        rfl
    · rintro _ _ ⟨rfl, -⟩
      exact Or.inr ⟨by decide, by decide, by decide⟩
  | iupdate x major minor nlink =>
    refine (iupdate_stable h (caches_of_locks hc)
      (fun ip => { ip with major := major, minor := minor, nlink := nlink })
      fun _ => ⟨⟨rfl, rfl, rfl⟩, rfl, rfl, rfl, rfl⟩).mono ?_ fun _ _ he => he.elim
    exact fun _ t ht => replays_of_view ht.1 ht.2.2 rfl
  | bmap x bn =>
    have hx := caches_of_locks hc
    have hsize : (s.inode x).size.toNat = fileSize s (s.inode x).inum := by rw [fileSize, ← h.synced.copy _ x hx]
    have hpos : 0 < bsize := by decide
    have hheld := h.whole.blocks _ (lt_of_caches h.sound hx) (bn * bsize) (hsize ▸ hin)
    rw [Nat.mul_div_cancel _ hpos] at hheld
    refine wp_drop ((bmap_found h.sound hx hheld).mono ?_ fun _ _ he => he.elim)
    rintro _ _ ⟨-, rfl⟩
    exact Or.inr ⟨h, rfl⟩
  | readi x dst off n => exact wp_drop (readi_replays h hc dst off n)
  | writei x src off n => exact wp_drop (writei_replays h hc src off n)
  | elsewhere wake wakes user =>
    refine wp_modify.mpr ?_
    obtain ⟨hs, hbyte⟩ := h.of_sameDisk (t := { s with
      killed := wake.killed, input := wake.input, pipe := wake.pipe, wakes := wakes, user := user })
      ⟨rfl, rfl, rfl, rfl, rfl, rfl⟩
    refine Or.inr ⟨hs, ?_⟩
    funext j
    simp only [stored, hbyte]
    rfl

end

/-! ### Runs -/

section
variable {s₀ s : Kernel} {st : Store}

theorem settled_reachable (h₀ : Formatted s₀) (h : (runs s₀).Reachable (s, st)) : Settled s ∧ stored s = st := by
  refine System.Reachable.invariant (I := fun p : Kernel × Store => Settled p.1 ∧ stored p.1 = p.2) ?_ ?_ h
  · rintro p ⟨hp, hst⟩
    have hp' : p.1 = s₀ := hp
    rw [hp', hst]
    exact ⟨h₀.settled, rfl⟩
  · rintro p c q - ⟨hp, hst⟩ ⟨⟨hin, hc, hrun, hfull⟩, hq⟩
    have hnot : ¬ q.1.full = true := by
      rw [hfull]
      decide
    rw [hq, ← hst]
    exact ((call_replays hp hc hin).of_ok hrun).resolve_left hnot

/-- What an entry of the cache refers to. -/
abbrev fileOf (s : Kernel) (st : Store) (x : Fin ninode) : Stored := st (s.inode x).inum

/-- **The disk keeps the files**, after any run of calls in any order on a disk that is never full: what it would
have after a restart is what the calls have made of the files. A read returns the bytes of its file and
changes no other memory, a write says how much it has written, and no call stops because a block is lost or
missing. -/
theorem disk_stores (h₀ : Formatted s₀) (h : (runs s₀).Reachable (s, st)) :
    stored (restart s) = st ∧
      (∀ (x : Fin ninode) (dst : ℕ) (off n : Word), Locks s x → (fileOf s st x).type ≠ tDev →
        ∃ r t, readi x dst off n s = .ok r t ∧ r = readCount (fileOf s st x).size off.toNat n.toNat ∧
          t.user = splice s.user dst r.toNat fun k => (fileOf s st x).byte (off.toNat + k)) ∧
      (∀ (x : Fin ninode) (src : ℕ) (off n : Word) (r : ℤ) (t : Kernel), Locks s x →
        (fileOf s st x).type ≠ tDev → writei x src off n s = .ok r t → t.full = false →
        r = writeCount (fileOf s st x).size off.toNat n.toNat) ∧
      ∀ (c : Call) (e : Stop) (t : Kernel), c.Allowed s → Call.InFile s c → c.code s = .error e t →
        t.full = false → e ≠ .bfree ∧ e ≠ .outside ∧ e ≠ .bmap := by
  obtain ⟨hs, rfl⟩ := settled_reachable h₀ h
  have htype : ∀ {x : Fin ninode}, Locks s x → (fileOf s (stored s) x).type ≠ tDev → (s.inode x).type ≠ tDev :=
    fun hx hne heq => hne ((type_of_locks hs hx).trans heq)
  refine ⟨?_, fun x dst off n hx hne => ?_, fun x src off n r t hx hne hrun hfull => ?_,
    fun c e t hc hin hrun hfull => ?_⟩
  · funext i
    simp only [stored, fileSize, byteAt_restart hs]
    rfl
  · obtain ⟨r, t, hrun, hr, tc, rfl⟩ := (readi_stable hs (caches_of_locks hx) (htype hx hne) dst off n).returns
    exact ⟨r, _, hrun, hr, rfl⟩
  · have hspec := (writei_stable hs (caches_of_locks hx) (htype hx hne) src off n).of_ok hrun
    refine (hspec.resolve_left ?_).1
    rw [hfull]
    decide
  · refine ((call_replays hs hc hin).of_error hrun).resolve_left ?_
    rw [hfull]
    decide

/-- **The bitmap is exact** after any run of calls: a data block is marked if and only if a file of the disk has
it, and then in one place only; a file has all the blocks up to its size, and a free inode has none. -/
theorem bitmap_exact (h₀ : Formatted s₀) (h : (runs s₀).Reachable (s, st)) :
    (∀ b, s.sb.IsData b → (s.bitmap b = true ↔ ∃! p, held (restart s) p ≠ 0#32 ∧ (held (restart s) p).toNat = b)) ∧
      (∀ i < s.sb.ninodes.toNat, ∀ k < (st i).size, held (restart s) (i, placeOf (k / bsize)) ≠ 0#32) ∧
      ∀ i < s.sb.ninodes.toNat, (st i).type = 0#16 → ∀ p, held (restart s) (i, p) = 0#32 := by
  obtain ⟨hs, rfl⟩ := settled_reachable h₀ h
  rw [held_restart hs]
  refine ⟨fun b hb => ⟨fun hmark => ?_, ?_⟩, hs.whole.blocks, hs.whole.free⟩
  · obtain ⟨p, hp, hpb⟩ := hs.whole.marked b hb hmark
    refine ⟨p, ⟨hp, hpb⟩, fun q hq => ?_⟩
    exact (held_inj hs.sound hp (BitVec.eq_of_toNat_eq (hpb.trans hq.2.symm))).symm
  · rintro ⟨p, ⟨hp, rfl⟩, -⟩
    exact marked_held hs.sound hp

end

theorem formatted_newDisk : Formatted newDisk := by
  have hsize : ∀ i, fileSize newDisk i = if i = 1 then 512 else 0 := by
    intro i
    unfold fileSize newDisk
    dsimp only
    split_ifs with hi
    · rw [hi, Function.update_self]
      rfl
    · rw [Function.update_of_ne hi]
      rfl
  have hroot : held newDisk (1, .addr 0) = 29#32 := (held_newDisk (p := (1, .addr 0)) (by decide)).2
  refine ⟨image_newDisk, ⟨fun i _ => ?_, fun i _ k hk => ?_, fun i _ k hk => ?_, fun i _ h0 p => ?_,
    fun b hb hmark => ?_⟩⟩
  · rw [hsize]
    split_ifs <;> decide
  · rw [hsize] at hk
    split_ifs at hk with hi
    · have hk0 : k / bsize = 0 := Nat.div_eq_of_lt hk
      rw [hi, hk0, show placeOf 0 = .addr 0 from rfl, hroot]
      decide
    · exact absurd hk (Nat.not_lt_zero k)
  · refine byteAt_of_not_held ?_
    by_contra hne
    obtain ⟨hp, -⟩ := held_newDisk hne
    rw [hsize, if_pos (Prod.mk.inj hp).1] at hk
    have h0 : k / bsize = 0 := placeOf_inj (Prod.mk.inj hp).2
    have hpos : 1 ≤ k / bsize := (Nat.one_le_div_iff (by decide)).mpr hk
    omega
  · by_contra hne
    obtain ⟨hp, -⟩ := held_newDisk hne
    rw [(Prod.mk.inj hp).1] at h0
    exact absurd h0 (by decide)
  · have hlt : b < 30 := of_decide_eq_true hmark
    have hge : 29 ≤ b := hb.1
    exact ⟨(1, .addr 0), by rw [hroot]; decide, by rw [hroot]; show 29 = b; omega⟩

/-- The new disk with its root directory locked, and a process with the byte `v` everywhere in its memory. -/
def rootLocked (v : Byte) : Kernel :=
  { newDisk with
    inode := fun x => if x.val = 0 then ⟨rootInode, 1, 1, true, true⟩ else newDisk.inode x
    user := fun _ => v }

theorem reachable_rootLocked (v : Byte) : (runs newDisk).Reachable (rootLocked v, stored newDisk) := by
  let s1 : Kernel := { newDisk with inode := Function.update newDisk.inode 0 ⟨cleared 0#16, 1, 1, false, false⟩ }
  let s2 : Kernel := { newDisk with
    inode := fun x => if x.val = 0 then ⟨rootInode, 1, 1, true, true⟩ else newDisk.inode x }
  have h0 : (runs newDisk).Reachable (newDisk, stored newDisk) := .init ⟨rfl, rfl⟩
  have h1 : (runs newDisk).Reachable (s1, stored newDisk) :=
    .step (a := Call.iget 1) h0 ⟨⟨trivial, (by decide : 1 < 200), rfl, rfl⟩, rfl⟩
  have hlock : (Call.ilock 0).code s1 = .ok () s2 := by
    show EStateM.Result.ok () _ = _
    congr 1
    simp only [s1, s2, Function.update_idem]
    congr 1
    funext x
    by_cases hx : x = 0
    · subst hx
      rfl
    · have hval : x.val ≠ 0 := fun h0 => hx (Fin.ext h0)
      rw [Function.update_of_ne hx, if_neg hval]
  have h2 : (runs newDisk).Reachable (s2, stored newDisk) :=
    .step (a := Call.ilock 0) h1 ⟨⟨trivial, Nat.one_pos, hlock, rfl⟩, rfl⟩
  exact .step (a := Call.elsewhere ⟨false, newDisk.input, newDisk.pipe⟩ [] fun _ => v) h2
    ⟨⟨trivial, trivial, rfl, rfl⟩, rfl⟩

/-- A byte is written to the root directory, and the disk has it. -/
theorem disk_stores_byte : ∃ s st, (runs newDisk).Reachable (s, st) ∧ (stored (restart s) 1).byte 3 = 9#8 := by
  obtain ⟨t, hrun, hfull⟩ : ∃ t, (Call.writei 0 0 3#32 1#32).code (rootLocked 9#8) = .ok () t ∧ t.full = false :=
    ⟨_, rfl, rfl⟩
  have hreach : (runs newDisk).Reachable (t, replay (rootLocked 9#8) (.writei 0 0 3#32 1#32) (stored newDisk)) :=
    .step (a := .writei 0 0 3#32 1#32) (reachable_rootLocked 9#8)
      ⟨⟨trivial, ⟨Nat.one_pos, rfl, rfl⟩, hrun, hfull⟩, rfl⟩
  have hstored := (disk_stores formatted_newDisk hreach).1
  exact ⟨_, _, hreach, (congrArg (fun st : Store => (st 1).byte 3) hstored).trans rfl⟩

/-- With the root directory open, block 29 is marked, and has one place. -/
theorem bitmap_exact_root : ∃! p, held (restart (rootLocked 0#8)) p ≠ 0#32 ∧
    (held (restart (rootLocked 0#8)) p).toNat = 29 :=
  ((bitmap_exact formatted_newDisk (reachable_rootLocked 0#8)).1 29 (by decide)).mp rfl

end OperatingSystems.Files.OnDisk
