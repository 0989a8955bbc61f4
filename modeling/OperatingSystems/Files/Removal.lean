import OperatingSystems.Files.Stable

/-! # The end of a file

When the last reference to a file without a name is dropped, `iput` frees its blocks and its inode
(`iput_stable`). The blocks that are freed are those of its places, and no others. -/

namespace OperatingSystems.Files.Removal

open OperatingSystems.Files.Allocation OperatingSystems.Files.FileBytes OperatingSystems.Files.Runs
  OperatingSystems.Files.Sharing OperatingSystems.Files.Stable OperatingSystems.Lib.Splice
  OperatingSystems.Lib.WeakestPre OperatingSystems.Lib.Words OperatingSystems.Pipes

section
variable {s t u : Kernel} {x : Fin ninode} {i j n : ℕ} {F G : Set ℕ}

/-! ### Blocks are freed -/

/-- Some blocks have been freed, and the others are as before. -/
structure Freed (F : Set ℕ) (s t : Kernel) : Prop where
  kept : ∀ b, b ∉ F → t.block b = s.block b ∧ t.bitmap b = s.bitmap b
  gone : ∀ b ∈ F, t.bitmap b = false

theorem Freed.none (hF : F = ∅) (hblock : t.block = s.block) (hbitmap : t.bitmap = s.bitmap) : Freed F s t := by
  subst hF
  exact ⟨fun b _ => ⟨congrFun hblock b, congrFun hbitmap b⟩, fun b hb => absurd hb (Set.notMem_empty b)⟩

theorem Freed.trans (h : Freed F s t) (h' : Freed G t u) : Freed (F ∪ G) s u := by
  refine ⟨fun b hb => ?_, fun b hb => ?_⟩
  · rw [Set.mem_union, not_or] at hb
    obtain ⟨hbl, hbm⟩ := h.kept b hb.1
    obtain ⟨hbl', hbm'⟩ := h'.kept b hb.2
    exact ⟨hbl'.trans hbl, hbm'.trans hbm⟩
  · by_cases hG : b ∈ G
    · exact h'.gone b hG
    · rw [(h'.kept b hG).2]
      exact h.gone b (hb.resolve_right hG)

theorem Freed.congr (h : Freed F s t) (hFG : ∀ b, b ∈ F ↔ b ∈ G) : Freed G s t :=
  (Set.ext hFG) ▸ h

/-- The entries and the addresses do not matter. -/
theorem Freed.of_eq (h : Freed F s t) (hblock : u.block = t.block) (hbitmap : u.bitmap = t.bitmap) : Freed F s u := by
  refine ⟨fun b hb => ?_, fun b hb => ?_⟩
  · rw [hblock, hbitmap]
    exact h.kept b hb
  · rw [hbitmap]
    exact h.gone b hb

theorem bfree_freed (s : Kernel) (w : Word) :
    Wp (bfree w) (fun _ t => Freed {w.toNat} s t ∧ ∃ bm bl, t = { s with block := bl, bitmap := bm })
      (fun _ _ => True) s := by
  simp only [bfree, bzero, bwrite, wp_bind, wp_get, wp_ite, wp_set, wp_throw, implies_true, and_true, true_and]
  intro _ _
  refine ⟨⟨fun b hb => ?_, fun b hb => ?_⟩, _, _, rfl⟩
  · have hne : b ≠ w.toNat := hb
    exact ⟨Function.update_of_ne hne .., Function.update_of_ne hne ..⟩
  · have heq : b = w.toNat := hb
    subst heq
    exact Function.update_self ..

/-- The numbers in a list of block numbers, without the zeros. -/
def numbers (n : ℕ) (a : ℕ → Word) : Set ℕ := { b | ∃ j < n, a j ≠ 0#32 ∧ (a j).toNat = b }

theorem numbers_zero (a : ℕ → Word) : numbers 0 a = ∅ := by
  ext b
  simp [numbers]

theorem mem_numbers_succ {a : ℕ → Word} {b : ℕ} :
    b ∈ numbers (n + 1) a ↔ b ∈ numbers n a ∨ a n ≠ 0#32 ∧ (a n).toNat = b := by
  constructor
  · rintro ⟨j, hj, hb⟩
    rcases Nat.lt_succ_iff_lt_or_eq.mp hj with hj | rfl
    · exact Or.inl ⟨j, hj, hb⟩
    · exact Or.inr hb
  · rintro (⟨j, hj, hb⟩ | hb)
    · exact ⟨j, by omega, hb⟩
    · exact ⟨n, by omega, hb⟩

theorem freeDirect_freed (x : Fin ninode) (s : Kernel) (n : ℕ) :
    Wp (freeDirect x n) (fun _ t => Freed (numbers n (s.inode x).addrs) s t ∧ Truncates s t x ∧
      ∀ j, (t.inode x).addrs j = if j < n then 0#32 else (s.inode x).addrs j) (fun _ _ => True) s := by
  induction n with
  | zero =>
    exact wp_pure.mpr ⟨.none (numbers_zero _) rfl rfl, .refl s x, fun j => (if_neg (Nat.not_lt_zero j)).symm⟩
  | succ n ih =>
    refine wp_bind.mpr (ih.mono ?_ fun _ _ he => he)
    rintro _ t ⟨ht, hframe, haddrs⟩
    have hn : (t.inode x).addrs n = (s.inode x).addrs n := (haddrs n).trans (if_neg (lt_irrefl n))
    refine wp_bind.mpr (wp_get.mpr ?_)
    rw [hn, wp_ite]
    constructor
    · intro hne
      refine wp_bind.mpr ((bfree_freed t _).mono ?_ fun _ _ he => he)
      rintro _ u ⟨hu, bm, bl, rfl⟩
      simp only [setAddr, modifyInode, wp_modify, Function.update_self]
      refine ⟨((ht.trans hu).congr fun b => ?_).of_eq rfl rfl, hframe.trans ⟨bm, bl, _, rfl⟩, fun j => ?_⟩
      · rw [mem_numbers_succ]
        exact or_congr_right ⟨fun hb => ⟨hne, hb.symm⟩, fun hb => hb.2.symm⟩
      · by_cases hj : j = n
        · rw [hj, Function.update_self, if_pos (Nat.lt_succ_self n)]
        · rw [Function.update_of_ne hj, haddrs]
          exact if_congr (by omega) rfl rfl
    · intro h0
      have h0' : (s.inode x).addrs n = 0#32 := not_not.mp h0
      refine wp_pure.mpr ⟨ht.congr fun b => ?_, hframe, fun j => ?_⟩
      · rw [mem_numbers_succ]
        exact ⟨Or.inl, fun hb => hb.resolve_right fun hc => hc.1 h0'⟩
      · rw [haddrs]
        by_cases hj : j = n
        · rw [hj, if_neg (lt_irrefl n), if_pos (Nat.lt_succ_self n), h0']
        · exact if_congr (by omega) rfl rfl

theorem freeEntries_freed (s : Kernel) (a : ℕ → Word) (n : ℕ) :
    Wp (freeEntries a n) (fun _ t => Freed (numbers n a) s t ∧ ∃ bm bl, t = { s with block := bl, bitmap := bm })
      (fun _ _ => True) s := by
  induction n with
  | zero => exact wp_pure.mpr ⟨.none (numbers_zero _) rfl rfl, s.bitmap, s.block, rfl⟩
  | succ n ih =>
    refine wp_bind.mpr (ih.mono ?_ fun _ _ he => he)
    rintro _ t ⟨ht, bm, bl, rfl⟩
    rw [wp_ite]
    constructor
    · intro hne
      refine (bfree_freed _ _).imp ?_
      rintro _ u ⟨hu, bm', bl', rfl⟩
      refine ⟨(ht.trans hu).congr fun b => ?_, bm', bl', rfl⟩
      rw [mem_numbers_succ]
      exact or_congr_right ⟨fun hb => ⟨hne, hb.symm⟩, fun hb => hb.2.symm⟩
    · intro h0
      refine wp_pure.mpr ⟨ht.congr fun b => ?_, bm, bl, rfl⟩
      rw [mem_numbers_succ]
      exact ⟨Or.inl, fun hb => hb.resolve_right fun hc => h0 hc.1⟩

/-- The blocks of a file. -/
def blocksOf (s : Kernel) (i : ℕ) : Set ℕ := { b | ∃ p, held s (i, p) ≠ 0#32 ∧ (held s (i, p)).toNat = b }

/-- The blocks of a file are those of its addresses and those of its entries. -/
theorem mem_blocksOf (h : Sound s) (hx : Caches s i x) {b : ℕ} :
    b ∈ blocksOf s i ↔ b ∈ numbers (ndirect + 1) (s.inode x).addrs ∨
      (s.inode x).addrs ndirect ≠ 0#32 ∧
        b ∈ numbers nindirect fun j => word (s.block ((s.inode x).addrs ndirect).toNat) (4 * j) := by
  have hi := lt_of_caches h hx
  rw [← addrs_of_caches h.blocks.cache hx]
  constructor
  · rintro ⟨j | j, hne, hb⟩
    · by_cases hj : j ≤ ndirect
      · rw [held_addr hi hj] at hne hb
        exact Or.inl ⟨j, by omega, hne, hb⟩
      · exact absurd (if_neg fun hc => hj hc.2) hne
    · obtain ⟨-, hj, hind, -⟩ := held_indirect hne
      rw [held_entry hi hj hind] at hne hb
      exact Or.inr ⟨hind, j, hj, hne, hb⟩
  · rintro (⟨j, hj, hne, hb⟩ | ⟨hind, j, hj, hne, hb⟩)
    · refine ⟨.addr j, ?_⟩
      rw [held_addr hi (by omega)]
      exact ⟨hne, hb⟩
    · refine ⟨.entry j, ?_⟩
      rw [held_entry hi hj hind]
      exact ⟨hne, hb⟩

/-- **`itrunc`** frees the blocks of the file, and no others. -/
theorem itrunc_freed (h : Sound s) (hx : Caches s i x) :
    Wp (itrunc x) (fun _ t => Freed (blocksOf s i) s t ∧ ∃ u, Truncates s u x ∧
      (∀ j ≤ ndirect, (u.inode x).addrs j = 0#32) ∧ t = updated u x { u.inode x with size := 0#32 })
      (fun _ _ => True) s := by
  have hend : ∀ u, Freed (blocksOf s i) s u → Truncates s u x → (∀ j ≤ ndirect, (u.inode x).addrs j = 0#32) →
      Wp (do
        modifyInode x fun ip => { ip with size := 0#32 }
        iupdate x) (fun _ t => Freed (blocksOf s i) s t ∧ ∃ u, Truncates s u x ∧
          (∀ j ≤ ndirect, (u.inode x).addrs j = 0#32) ∧ t = updated u x { u.inode x with size := 0#32 })
        (fun _ _ => True) u := by
    intro u hu hframe haddrs
    refine (wp_iupdate _).mono (fun _ t ht => ?_) fun _ _ he => he.elim
    subst ht
    exact ⟨hu.of_eq rfl rfl, u, hframe, haddrs, rfl⟩
  unfold itrunc
  refine wp_bind.mpr ((freeDirect_freed x s ndirect).mono ?_ fun _ _ he => he)
  rintro _ t ⟨ht, hframe, haddrs⟩
  have hlast : (t.inode x).addrs ndirect = (s.inode x).addrs ndirect := (haddrs _).trans (if_neg (lt_irrefl _))
  refine wp_bind.mpr (wp_get.mpr ?_)
  dsimp only
  rw [hlast, wp_ite]
  constructor
  · intro hind
    have hi := lt_of_caches h hx
    have hsame := addrs_of_caches h.blocks.cache hx
    -- the indirect block itself has not been freed yet
    have hnot : ((s.inode x).addrs ndirect).toNat ∉ numbers ndirect (s.inode x).addrs := by
      rintro ⟨j, hj, hne, heq⟩
      rw [← hsame, ← held_addr hi hj.le] at hne
      rw [← hsame, ← held_addr hi hj.le, ← held_addr hi le_rfl] at heq
      have hplace := held_inj h hne (BitVec.eq_of_toNat_eq heq)
      have hjn := Place.addr.inj (Prod.mk.inj hplace).2
      omega
    rw [(ht.kept _ hnot).1]
    refine wp_bind.mpr ((freeEntries_freed t _ nindirect).mono ?_ fun _ _ he => he)
    rintro _ u ⟨hu, bm, bl, rfl⟩
    refine wp_bind.mpr ((bfree_freed _ _).mono ?_ fun _ _ he => he)
    rintro _ v ⟨hv, bm', bl', rfl⟩
    refine wp_bind.mpr (wp_modify.mpr (hend _ ?_ (hframe.trans ⟨bm', bl', _, rfl⟩) fun j hj => ?_))
    · refine ((ht.trans (hu.trans hv)).congr fun b => ?_).of_eq rfl rfl
      rw [mem_blocksOf h hx, mem_numbers_succ]
      constructor
      · rintro (hb | hb | hb)
        · exact Or.inl (Or.inl hb)
        · exact Or.inr ⟨hind, hb⟩
        · exact Or.inl (Or.inr ⟨hind, hb.symm⟩)
      · rintro ((hb | ⟨-, hb⟩) | ⟨-, hb⟩)
        · exact Or.inl hb
        · exact Or.inr (Or.inr hb.symm)
        · exact Or.inr (Or.inl hb)
    · simp only [Function.update_self]
      by_cases hjn : j = ndirect
      · rw [hjn, Function.update_self]
      · rw [Function.update_of_ne hjn, haddrs, if_pos (by omega)]
  · intro h0
    have hind : (s.inode x).addrs ndirect = 0#32 := not_not.mp h0
    refine hend t (ht.congr fun b => ?_) hframe fun j hj => ?_
    · rw [mem_blocksOf h hx, mem_numbers_succ]
      constructor
      · exact fun hb => Or.inl (Or.inl hb)
      · rintro ((hb | ⟨hne, -⟩) | ⟨hne, -⟩)
        · exact hb
        · exact absurd hind hne
        · exact absurd hind hne
    · rw [haddrs]
      split_ifs with hlt
      · rfl
      · rwa [show j = ndirect by omega]

/-! ### The last reference is dropped -/

/-- A file that is gone. -/
def removed (f : Stored) : Stored := { f with type := 0#16, size := 0, byte := fun _ => 0#8 }

/-- The blocks and the inode of a file have been freed, and its entry of the cache. -/
structure Emptied (s t : Kernel) (i : ℕ) (x : Fin ninode) : Prop where
  freed : Freed (blocksOf s i) s t
  sb : t.sb = s.sb
  user : t.user = s.user
  full : t.full = s.full
  entry : handle t x = ⟨i, 0, false, false⟩
  others : ∀ y, y ≠ x → t.inode y = s.inode y
  disk : ∃ ad, (∀ j ≤ ndirect, ad j = 0#32) ∧
    t.dinode i = { s.dinode i with type := 0#16, size := 0#32, addrs := ad }
  rest : ∀ k, k ≠ i → t.dinode k = s.dinode k

theorem Emptied.caches (he : Emptied s t i x) {k : ℕ} {y : Fin ninode} (hy : Caches t k y) :
    y ≠ x ∧ Caches s k y := by
  have hyx : y ≠ x := by
    rintro rfl
    have hpos : 0 < (handle t y).ref := hy.1
    rw [he.entry] at hpos
    exact lt_irrefl 0 hpos
  refine ⟨hyx, ?_⟩
  rwa [Caches, he.others y hyx] at hy

theorem Emptied.synced (he : Emptied s t i x) (h : Settled s) (hx : Caches s i x) : Synced t := by
  have hall : ∀ k y, Caches t k y → (t.inode y).toDinode = t.dinode k ∧ (t.dinode k).type ≠ 0#16 := by
    intro k y hy
    obtain ⟨hyx, hys⟩ := he.caches hy
    have hki : k ≠ i := fun hki =>
      hyx (h.sound.blocks.cache.inj y x hys.1 hx.1 (hys.2.2.trans (hki.trans hx.2.2.symm)))
    rw [he.others y hyx, he.rest k hki]
    exact ⟨h.synced.copy k y hys, h.synced.type k y hys⟩
  exact ⟨fun k y hy => (hall k y hy).1, fun k y hy => (hall k y hy).2⟩

theorem Emptied.held (he : Emptied s t i x) (h : Settled s) (hx : Caches s i x) (ht : Sound t) (p : ℕ × Place) :
    held t p = if p.1 = i then 0#32 else Sharing.held s p := by
  have hsync := he.synced h hx
  have haddrs : ∀ k, Sharing.addrs t k = (t.dinode k).addrs := hsync.addrs ht.blocks.cache
  have haddrs' : ∀ k, Sharing.addrs s k = (s.dinode k).addrs := h.synced.addrs h.sound.blocks.cache
  obtain ⟨ad, had, hdisk⟩ := he.disk
  obtain ⟨k, j | j⟩ := p
  · by_cases hk : k = i
    · subst hk
      rw [if_pos rfl]
      refine ite_eq_right_iff.mpr fun hj => ?_
      rw [haddrs, hdisk]
      exact had j hj.2
    · simp only [Sharing.held, haddrs, haddrs', he.sb, he.rest k hk, if_neg hk]
  · by_cases hk : k = i
    · subst hk
      rw [if_pos rfl]
      refine if_neg fun hj => hj.2.2 ?_
      rw [haddrs, hdisk]
      exact had ndirect le_rfl
    · rw [if_neg hk]
      simp only [Sharing.held, haddrs, haddrs', he.sb, he.rest k hk]
      split_ifs with hj
      · -- the indirect block of another file is not freed
        have hheld : Sharing.held s (k, .addr ndirect) = (s.dinode k).addrs ndirect := by
          rw [held_addr hj.1 le_rfl, haddrs']
        have hnot : ((s.dinode k).addrs ndirect).toNat ∉ blocksOf s i := by
          rintro ⟨q, hq, hqb⟩
          rw [← hheld] at hqb
          have hplace := held_inj h.sound hq (BitVec.eq_of_toNat_eq hqb)
          exact hk (Prod.mk.inj hplace).1.symm
        rw [(he.freed.kept _ hnot).1]
      · rfl

theorem Emptied.byteAt (he : Emptied s t i x) (h : Settled s) (hx : Caches s i x) (ht : Sound t) (k : ℕ) :
    byteAt t k = if k = i then fun _ => 0#8 else FileBytes.byteAt s k := by
  have hheld := he.held h hx ht
  funext o
  by_cases hk : k = i
  · rw [if_pos hk]
    exact byteAt_of_not_held ((hheld _).trans (if_pos hk))
  · rw [if_neg hk]
    unfold FileBytes.byteAt
    rw [hheld, if_neg hk]
    split_ifs with h0
    · rfl
    · have hnot : (Sharing.held s (k, placeOf (o / bsize))).toNat ∉ blocksOf s i := by
        rintro ⟨q, hq, hqb⟩
        have hplace := held_inj h.sound hq (BitVec.eq_of_toNat_eq hqb)
        exact hk (Prod.mk.inj hplace).1.symm
      rw [(he.freed.kept _ hnot).1]

theorem Emptied.settled (he : Emptied s t i x) (h : Settled s) (hx : Caches s i x) (ht : Sound t) : Settled t := by
  have hheld := he.held h hx ht
  have hbyte := he.byteAt h hx ht
  obtain ⟨ad, had, hdisk⟩ := he.disk
  have hzero : fileSize t i = 0 := by
    rw [fileSize, hdisk]
    rfl
  have hsize : ∀ k, k ≠ i → fileSize t k = fileSize s k := fun k hk => by rw [fileSize, he.rest k hk, fileSize]
  have hold := h.whole
  refine ⟨ht, he.synced h hx, ?_⟩
  constructor
  · intro k hk
    by_cases hki : k = i
    · rw [hki, hzero]
      exact Nat.zero_le _
    · rw [hsize k hki]
      exact hold.size k (he.sb ▸ hk)
  · intro k hk o ho
    by_cases hki : k = i
    · rw [hki, hzero] at ho
      exact absurd ho (Nat.not_lt_zero o)
    · rw [hheld, if_neg hki]
      exact hold.blocks k (he.sb ▸ hk) o (hsize k hki ▸ ho)
  · intro k hk o ho
    rw [hbyte]
    by_cases hki : k = i
    · rw [if_pos hki]
    · rw [if_neg hki]
      exact hold.tail k (he.sb ▸ hk) o (hsize k hki ▸ ho)
  · intro k hk h0 p
    rw [hheld]
    by_cases hki : k = i
    · exact if_pos hki
    · rw [if_neg hki]
      rw [he.rest k hki] at h0
      exact hold.free k (he.sb ▸ hk) h0 p
  · intro b hb hmark
    have hnot : b ∉ blocksOf s i := fun hmem => by
      rw [he.freed.gone b hmem] at hmark
      cases hmark
    rw [(he.freed.kept b hnot).2] at hmark
    obtain ⟨p, hp, hpb⟩ := hold.marked b (he.sb ▸ hb) hmark
    have hpi : p.1 ≠ i := by
      rintro rfl
      exact hnot ⟨p.2, hp, hpb⟩
    refine ⟨p, ?_⟩
    rw [hheld, if_neg hpi]
    exact ⟨hp, hpb⟩

theorem Emptied.view (he : Emptied s t i x) (h : Settled s) (hx : Caches s i x) (ht : Sound t) :
    view t = ((view s).setFile i (removed (stored s i))).setHandle x ⟨i, 0, false, false⟩ := by
  have hbyte := he.byteAt h hx ht
  obtain ⟨ad, had, hdisk⟩ := he.disk
  refine View.ext (congrArg (fun sb => sb.ninodes.toNat) he.sb) ?_ ?_ he.user
  · funext k
    by_cases hk : k = i
    · subst hk
      simp only [Stable.view, View.setHandle, View.setFile, stored, fileSize, hbyte, hdisk, Function.update_self,
        if_true, removed]
      rfl
    · simp only [Stable.view, View.setHandle, View.setFile, stored, fileSize, hbyte, he.rest k hk, if_neg hk,
        Function.update_of_ne hk]
  · funext y
    by_cases hyx : y = x
    · subst hyx
      simp only [View.setHandle, Function.update_self]
      exact he.entry
    · simp only [Stable.view, View.setHandle, View.setFile, Function.update_of_ne hyx, handle, he.others y hyx]

/-- What `iput` does. -/
def puts (v : View) (x : Fin ninode) : View :=
  let c := v.handle x
  if c.ref = 1 ∧ c.valid = true ∧ (v.file c.inum).nlink = 0#16 then
    (v.setFile c.inum (removed (v.file c.inum))).setHandle x ⟨c.inum, 0, false, false⟩
  else v.setHandle x { c with ref := c.ref - 1 }

/-- The code of `iput` for the last reference. -/
theorem iput_empties (h : Settled s) (hx : Caches s i x) (hone : (s.inode x).ref = 1) :
    Wp (do
      modifyInode x fun ip => { ip with busy := true }
      itrunc x
      modifyInode x fun ip => { ip with type := 0#16 }
      iupdate x
      modifyInode x fun ip => { ip with busy := false, valid := false }
      modifyInode x fun ip => { ip with ref := ip.ref - 1 }) (fun _ t => Emptied s t i x) (fun _ _ => False) s := by
  have hb : Edits s _ x { s.inode x with busy := true } := .of_modify Iff.rfl rfl rfl
  have hbs := hb.sound rfl rfl rfl h.sound
  have hbx := (hb.caches i x).mpr hx
  refine wp_bind.mpr (wp_modify.mpr ?_)
  refine wp_bind.mpr (((itrunc_spec hbs hbx).and (itrunc_freed hbs hbx)).mono ?_ fun _ _ he => he.1)
  rintro _ _ ⟨-, hfreed, u, ⟨bm, bl, ad, hu⟩, hzero, rfl⟩
  have hsame : blocksOf { s with inode := Function.update s.inode x { s.inode x with busy := true } } i =
      blocksOf s i := by
    have haddrs := hb.addrs_eq h.sound.blocks.cache rfl
    have hheld : ∀ p, held { s with inode := Function.update s.inode x { s.inode x with busy := true } } p =
        held s p := by
      rintro ⟨k, j | j⟩ <;> simp only [held, haddrs]
    simp only [blocksOf, hheld]
  rw [hsame] at hfreed
  have hcopy := h.synced.copy i x hx
  have hinum := hx.2.2
  subst hu
  simp only [modifyInode, iupdate, wp_bind, wp_modify, updated, Function.update_self, Function.update_idem,
    hinum] at hzero ⊢
  refine ⟨⟨hfreed.kept, hfreed.gone⟩, rfl, rfl, rfl, ?_, fun y hy => ?_, ⟨ad, hzero, ?_⟩, fun k hk => ?_⟩
  · simp only [handle, Function.update_self, hone]
  · exact Function.update_of_ne hy ..
  · simp only [Function.update_self, ← hcopy]
  · exact Function.update_of_ne hk ..

/-- **`iput`** drops a reference, and with the last one a file without a name. -/
theorem iput_stable (h : Settled s) (hx : 0 < (s.inode x).ref) :
    Wp (iput x) (fun _ t => Settled t ∧ t.full = s.full ∧ view t = puts (view s) x)
      (fun e _ => e = .iput ∧ (handle s x).busy = true) s := by
  have hexact : Wp (iput x) (fun _ t => if (s.inode x).ref = 1 ∧ (s.inode x).valid ∧ (s.inode x).nlink = 0#16
      then Emptied s t (s.inode x).inum x
      else t = { s with inode := Function.update s.inode x { s.inode x with ref := (s.inode x).ref - 1 } })
      (fun _ _ => (s.inode x).busy = true) s := by
    unfold iput
    refine wp_bind.mpr (wp_get.mpr ?_)
    rw [wp_ite]
    constructor
    · intro hlast
      rw [wp_ite]
      refine ⟨fun hbusy => wp_throw.mpr hbusy, fun _ => ?_⟩
      refine (iput_empties h ⟨hx, hlast.2.1, rfl⟩ hlast.1).mono (fun _ t ht => ?_) fun _ _ he => he.elim
      rwa [if_pos hlast]
    · intro hnot
      simp only [if_neg hnot, modifyInode, wp_modify]
  refine ((iput_spec h.sound hx).and hexact).mono ?_ fun _ _ he => he
  rintro _ t ⟨ht, hcase⟩
  by_cases hlast : (s.inode x).ref = 1 ∧ (s.inode x).valid = true ∧ (s.inode x).nlink = 0#16
  · rw [if_pos hlast] at hcase
    have hc : Caches s (s.inode x).inum x := ⟨hx, hlast.2.1, rfl⟩
    have hnlink : (stored s (s.inode x).inum).nlink = 0#16 := by
      rw [stored, ← h.synced.copy _ x hc]
      exact hlast.2.2
    refine ⟨hcase.settled h hc ht, hcase.full, (hcase.view h hc ht).trans ?_⟩
    exact (if_pos ⟨hlast.1, hlast.2.1, hnlink⟩).symm
  · rw [if_neg hlast] at hcase
    have hnot : ¬ ((handle s x).ref = 1 ∧ (handle s x).valid = true ∧ (stored s (handle s x).inum).nlink = 0#16) := by
      rintro ⟨hone, hvalid, hnlink⟩
      refine hlast ⟨hone, hvalid, ?_⟩
      have hc : Caches s (s.inode x).inum x := ⟨hx, hvalid, rfl⟩
      have hcopy := h.synced.copy _ x hc
      have hsame : (s.inode x).nlink = (s.dinode (s.inode x).inum).nlink := by rw [← hcopy]
      exact hsame.trans hnlink
    obtain ⟨hs, hview⟩ := h.entry_same hx ht hcase rfl rfl rfl
    refine ⟨hs, by rw [hcase], hview.trans ?_⟩
    exact (if_neg hnot).symm

end

end OperatingSystems.Files.Removal
