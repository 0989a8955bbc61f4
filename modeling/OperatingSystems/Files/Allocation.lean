import OperatingSystems.Files.Sharing

/-! # Giving blocks out and taking them back

What `balloc`, `bmap`, `itrunc` and the calls on inodes up to `iput` do to `Sound`. Code that has found the disk
full is not followed any further (`wp_unless_full`). -/

namespace OperatingSystems.Files.Allocation

open OperatingSystems.Files.Sharing OperatingSystems.Lib.Naming OperatingSystems.Lib.Transition
  OperatingSystems.Lib.WeakestPre OperatingSystems.Lib.Words OperatingSystems.Pipes

/-! ### The full disk -/

/-- What has been said about a disk that is full is true of it from then on. -/
def KeepsFull {α : Type} (c : Code α) : Prop :=
  ∀ s, s.full = true → Wp c (fun _ t => t.full = true) (fun _ t => t.full = true) s

section
variable {α β : Type} {c c' : Code α} {f : α → Code β}

theorem keepsFull_pure (a : α) : KeepsFull (pure a : Code α) := fun _ h => by simpa using h

theorem keepsFull_throw (e : Stop) : KeepsFull (throw e : Code α) := fun _ h => by simpa using h

theorem keepsFull_get : KeepsFull (get : Code Kernel) := fun _ h => by simpa using h

theorem keepsFull_modify {g : Kernel → Kernel} (hg : ∀ s, (g s).full = s.full) :
    KeepsFull (modify g : Code Unit) := fun s h => by simpa [hg] using h

theorem KeepsFull.bind (h : KeepsFull c) (hf : ∀ a, KeepsFull (f a)) : KeepsFull (c >>= f) := by
  intro s hs
  exact wp_bind.mpr ((h s hs).mono (fun a t ht => hf a t ht) fun _ _ he => he)

theorem KeepsFull.ite {p : Prop} [Decidable p] (h : KeepsFull c) (h' : KeepsFull c') :
    KeepsFull (if p then c else c') := by
  split_ifs
  · exact h
  · exact h'

/-- What follows a call, unless the disk is full. -/
theorem wp_unless_full {s : Kernel} {Q : α → Kernel → Prop} {R : β → Kernel → Prop}
    {E : Stop → Kernel → Prop} (h : Wp c (fun a t => t.full = true ∨ Q a t) (fun e t => t.full = true ∨ E e t) s)
    (hfull : ∀ a, KeepsFull (f a))
    (hf : ∀ a t, Q a t → Wp (f a) (fun b t => t.full = true ∨ R b t) (fun e t => t.full = true ∨ E e t) t) :
    Wp (c >>= f) (fun b t => t.full = true ∨ R b t) (fun e t => t.full = true ∨ E e t) s := by
  refine h.bind fun a t ht => ?_
  rcases ht with ht | ht
  · exact (hfull a t ht).mono (fun _ _ h => Or.inl h) fun _ _ h => Or.inl h
  · exact hf a t ht

end

theorem keepsFull_modifyInode (x : Fin ninode) (g : Inode → Inode) : KeepsFull (modifyInode x g) :=
  keepsFull_modify fun _ => rfl

theorem keepsFull_iupdate (x : Fin ninode) : KeepsFull (iupdate x) := keepsFull_modify fun _ => rfl

theorem keepsFull_bwrite (b : ℕ) (data : ℕ → Byte) : KeepsFull (bwrite b data) := by
  intro s hs
  unfold bwrite
  simp only [wp_bind, wp_get, wp_ite, wp_set, wp_throw]
  exact ⟨fun _ => hs, fun _ => hs⟩

theorem keepsFull_balloc : KeepsFull balloc := by
  intro s hs
  unfold balloc
  simp only [wp_bind, wp_get]
  split
  · simp only [wp_bind, wp_set, wp_throw]
  · simp [hs]

theorem keepsFull_addrOf (x : Fin ninode) (j : ℕ) : KeepsFull (addrOf x j) := by
  refine keepsFull_get.bind fun s => .ite ?_ (keepsFull_pure _)
  exact keepsFull_balloc.bind fun a => (keepsFull_modifyInode _ _).bind fun _ => keepsFull_pure _

theorem keepsFull_bmap (x : Fin ninode) (bn : ℕ) : KeepsFull (bmap x bn) := by
  refine .ite (keepsFull_addrOf x bn) (.ite ?_ (keepsFull_throw _))
  refine (keepsFull_addrOf x ndirect).bind fun ind => keepsFull_get.bind fun s => .ite ?_ (keepsFull_pure _)
  exact keepsFull_balloc.bind fun a => (keepsFull_bwrite _ _).bind fun _ => keepsFull_pure _

/-! ### The calls -/

section
variable {s t : Kernel} {x : Fin ninode} {i j : ℕ}

/-- **`balloc`** hands out a block that no place has, and that holds zeros. -/
theorem balloc_spec (h : Sound s) :
    Wp balloc (fun a t => t.full = true ∨ Sound t ∧ Fresh t a ∧ ∃ bm, t = { s with bitmap := bm })
      (fun _ t => t.full = true ∨ False) s := by
  unfold balloc
  simp only [wp_bind, wp_get]
  split
  · simp only [wp_bind, wp_set, wp_throw, true_or]
  · next b hb =>
    simp only [wp_bind, wp_set, wp_pure]
    have hfree : s.bitmap b = false := by simpa using List.find?_some hb
    by_cases hsize : s.sb.size.toNat ≤ b
    · simp [hsize]
    · have hlt := s.sb.size.isLt
      have hnum : (BitVec.ofNat 32 b).toNat = b := by
        rw [BitVec.toNat_ofNat]
        exact Nat.mod_eq_of_lt (by omega)
      have hstart : s.sb.start ≤ b := by
        by_contra hlt
        rw [h.blocks.system b (by omega)] at hfree
        cases hfree
      have hfull : (s.full || decide (s.sb.size.toNat ≤ b)) = s.full := by simp [hsize]
      rw [hfull]
      refine Or.inr ⟨h.mark b, ⟨?_, ?_, fun p hp => ?_, ?_⟩, _, rfl⟩
      · exact hnum.symm ▸ ⟨hstart, not_le.mp hsize⟩
      · rw [hnum]
        exact Function.update_self ..
      · -- what has a place is marked
        have hp : held s p = BitVec.ofNat 32 b := hp
        have hne : BitVec.ofNat 32 b ≠ 0#32 := by
          intro h0
          rw [h0] at hnum
          rw [← hnum] at hstart
          simp [Superblock.start] at hstart
        have hused := h.blocks.names.used p
        rw [heldBut_empty, hp, hnum] at hused
        exact absurd (hfree.symm.trans (hused hne)) (by decide)
      · rw [hnum]
        exact h.blocks.zero b ⟨hstart, not_le.mp hsize⟩ hfree

/-- An address of an inode, allocated if there is none. -/
theorem addrOf_spec (h : Sound s) (hx : Caches s i x) (hj : j ≤ ndirect) :
    Wp (addrOf x j) (fun a t => t.full = true ∨ Sound t ∧ Caches t i x ∧ a ≠ 0#32 ∧ addrs t i j = a)
      (fun e t => t.full = true ∨ e = .bmap) s := by
  have haddr : (s.inode x).addrs j = addrs s i j := by rw [addrs_of_caches h.blocks.cache hx]
  refine wp_bind.mpr (wp_get.mpr ?_)
  rw [wp_ite]
  constructor
  · intro h0
    refine wp_unless_full ((balloc_spec h).mono (fun _ _ h => h) fun _ _ h => h.imp_right False.elim) ?_ ?_
    · exact fun a => (keepsFull_modifyInode _ _).bind fun _ => keepsFull_pure _
    · rintro a t ⟨ht, ha, bm, rfl⟩
      simp only [setAddr, modifyInode, wp_bind, wp_modify, wp_pure]
      obtain ⟨hu, hc, -, haddrs⟩ := ht.setAddr ha hx hj (haddr ▸ h0) rfl
      exact Or.inr ⟨hu, hc, ha.ne_zero, by rw [haddrs, Function.update_self]⟩
  · intro hne
    rw [wp_pure]
    exact Or.inr ⟨h, hx, hne, haddr.symm⟩

/-- The place of a block of a file. -/
def placeOf (bn : ℕ) : Place := if bn < ndirect then .addr bn else .entry (bn - ndirect)

/-- **`bmap`** finds the block of a place. -/
theorem bmap_spec (h : Sound s) (hx : Caches s i x) (bn : ℕ) :
    Wp (bmap x bn)
      (fun a t => t.full = true ∨ Sound t ∧ Caches t i x ∧ a ≠ 0#32 ∧ held t (i, placeOf bn) = a)
      (fun e t => t.full = true ∨ e = .bmap) s := by
  have hi : ∀ {t}, Sound t → Caches t i x → i < t.sb.ninodes.toNat := fun ht hx =>
    hx.2.2 ▸ ht.blocks.cache.inum x hx.1
  unfold bmap
  rw [wp_ite]
  constructor
  · intro hbn
    refine (addrOf_spec h hx hbn.le).imp fun a t ht => ht.imp_right ?_
    rintro ⟨ht, hxt, hne, ha⟩
    refine ⟨ht, hxt, hne, ?_⟩
    rw [placeOf, if_pos hbn, held_addr (hi ht hxt) hbn.le, ha]
  · intro hbn
    rw [wp_ite]
    constructor
    · intro hin
      refine wp_unless_full (addrOf_spec h hx le_rfl) (fun ind => ?_) ?_
      · refine keepsFull_get.bind fun s => .ite ?_ (keepsFull_pure _)
        exact keepsFull_balloc.bind fun a => (keepsFull_bwrite _ _).bind fun _ => keepsFull_pure _
      · rintro ind t ⟨ht, hxt, hne, rfl⟩
        have hheld := held_entry (hi ht hxt) hin hne
        rw [placeOf, if_neg hbn]
        refine wp_bind.mpr (wp_get.mpr ?_)
        rw [wp_ite]
        constructor
        · intro h0
          refine wp_unless_full ((balloc_spec ht).mono (fun _ _ h => h) fun _ _ h => h.imp_right False.elim) ?_ ?_
          · exact fun a => (keepsFull_bwrite _ _).bind fun _ => keepsFull_pure _
          · rintro a u ⟨hu, ha, bm, rfl⟩
            have hdata : t.sb.IsData (addrs t i ndirect).toNat := by
              have := ht.blocks.area (i, .addr ndirect)
              rw [heldBut_empty, held_addr (hi ht hxt) le_rfl] at this
              exact this hne
            simp only [bwrite, wp_bind, wp_get, wp_ite, wp_set, wp_pure]
            obtain ⟨hv, hc, hentry⟩ := hu.setEntry ha hxt hin hne rfl
            exact ⟨fun _ => Or.inr ⟨hv, hc, ha.ne_zero, hentry⟩, fun hnot => absurd hdata hnot⟩
        · intro hne'
          rw [wp_pure]
          exact Or.inr ⟨ht, hxt, hne', hheld⟩
    · intro _
      rw [wp_throw]
      exact Or.inr rfl

/-! ### Truncation -/

/-- **`bfree`** never finds the block of a place free. -/
theorem bfree_spec {D : Set (ℕ × Place)} (h : SoundBut D s) {p : ℕ × Place} (hpD : p ∉ D)
    (hp : held s p ≠ 0#32) :
    Wp (bfree (held s p)) (fun _ t => SoundBut (insert p D) t ∧ t = { s with
        block := Function.update s.block (held s p).toNat fun _ => 0#8
        bitmap := Function.update s.bitmap (held s p).toNat false })
      (fun _ _ => False) s := by
  have hdata := h.area p
  have hused := h.names.used p
  rw [heldBut_of_notMem hpD] at hdata hused
  simp only [bfree, bzero, bwrite, wp_bind, wp_get, wp_ite, wp_set, wp_throw]
  refine ⟨fun _ => ⟨fun hfree => ?_, fun _ => ⟨h.free hpD hp rfl, trivial⟩⟩, fun hnot => absurd (hdata hp) hnot⟩
  exact absurd (hfree.symm.trans (hused hp)) (by decide)

/-- What truncation changes: the bitmap, the data blocks and the addresses of one inode. -/
def Truncates (s t : Kernel) (x : Fin ninode) : Prop :=
  ∃ bitmap block ad, t = { s with
    bitmap := bitmap
    block := block
    inode := Function.update s.inode x { s.inode x with addrs := ad } }

theorem Truncates.refl (s : Kernel) (x : Fin ninode) : Truncates s s x :=
  ⟨s.bitmap, s.block, (s.inode x).addrs, by simp⟩

theorem Truncates.trans {u : Kernel} (h : Truncates s t x) (h' : Truncates t u x) : Truncates s u x := by
  obtain ⟨bm, bl, ad, rfl⟩ := h
  obtain ⟨bm', bl', ad', rfl⟩ := h'
  exact ⟨bm', bl', ad', by simp⟩

theorem Truncates.of_free {bm : ℕ → Bool} {bl : ℕ → ℕ → Byte}
    (ht : t = { s with block := bl, bitmap := bm }) : Truncates s t x := by
  subst ht
  exact ⟨bm, bl, (s.inode x).addrs, by simp⟩

/-- An address is cleared after its block has been freed. -/
theorem clear_spec {D : Set (ℕ × Place)} (h : SoundBut D s) (hx : Caches s i x) (hj : j ≤ ndirect)
    (hD : ∀ q ∈ D, q = (i, .addr j) ∨ j = ndirect ∧ ∃ l, q = (i, .entry l)) :
    Wp (setAddr x j 0#32) (fun _ t => SoundBut ∅ t ∧ Caches t i x ∧ Truncates s t x) (fun _ _ => False) s := by
  simp only [setAddr, modifyInode, wp_modify]
  obtain ⟨ht, hc⟩ := h.clear hx hj hD rfl
  exact ⟨ht, hc, s.bitmap, s.block, _, rfl⟩

theorem freeDirect_spec {n : ℕ} (hn : n ≤ ndirect) (h : SoundBut ∅ s) (hx : Caches s i x) :
    Wp (freeDirect x n) (fun _ t => SoundBut ∅ t ∧ Caches t i x ∧ Truncates s t x) (fun _ _ => False) s := by
  induction n with
  | zero => exact wp_pure.mpr ⟨h, hx, .refl s x⟩
  | succ n ih =>
    refine (ih (by omega)).bind ?_
    rintro _ t ⟨ht, hxt, htr⟩
    refine wp_bind.mpr (wp_get.mpr ?_)
    rw [wp_ite]
    have hi : i < t.sb.ninodes.toNat := hxt.2.2 ▸ ht.cache.inum x hxt.1
    have hheld : held t (i, .addr n) = (t.inode x).addrs n := by
      rw [held_addr hi (by omega), addrs_of_caches ht.cache hxt]
    rw [← hheld]
    constructor
    · intro hne
      refine (bfree_spec ht (Set.notMem_empty _) hne).bind ?_
      rintro _ u ⟨hu, heq⟩
      have hxu : Caches u i x := by rw [heq]; exact hxt
      refine (clear_spec hu hxu (j := n) (by omega) fun q hq => ?_).imp ?_
      · exact Or.inl (by simpa using hq)
      · rintro _ v ⟨hv, hxv, htr'⟩
        exact ⟨hv, hxv, htr.trans ((Truncates.of_free heq).trans htr')⟩
    · intro _
      exact wp_pure.mpr ⟨ht, hxt, htr⟩

/-- The first entries of the indirect block of an inode. -/
def entriesBelow (i n : ℕ) : Set (ℕ × Place) := { q | ∃ l < n, q = (i, .entry l) }

theorem entriesBelow_succ (i n : ℕ) : entriesBelow i (n + 1) = insert (i, .entry n) (entriesBelow i n) := by
  ext q
  simp only [entriesBelow, Set.mem_ofPred_eq, Set.mem_insert_iff, Nat.lt_succ_iff_lt_or_eq]
  constructor
  · rintro ⟨l, hl | rfl, rfl⟩
    · exact Or.inr ⟨l, hl, rfl⟩
    · exact Or.inl rfl
  · rintro (rfl | ⟨l, hl, rfl⟩)
    · exact ⟨n, Or.inr rfl, rfl⟩
    · exact ⟨l, Or.inl hl, rfl⟩

/-- The loop over the entries: those that are freed are still in the indirect block. -/
theorem freeEntries_spec {n : ℕ} (hn : n ≤ nindirect) (h : SoundBut ∅ s) (hx : Caches s i x)
    (hind : addrs s i ndirect ≠ 0#32) {a : ℕ → Word}
    (ha : ∀ l, a l = word (s.block (addrs s i ndirect).toNat) (4 * l)) :
    Wp (freeEntries a n)
      (fun _ t => SoundBut (entriesBelow i n) t ∧
        t.block (addrs s i ndirect).toNat = s.block (addrs s i ndirect).toNat ∧
        ∃ bm bl, t = { s with block := bl, bitmap := bm }) (fun _ _ => False) s := by
  have hi : i < s.sb.ninodes.toNat := hx.2.2 ▸ h.cache.inum x hx.1
  induction n with
  | zero =>
    refine wp_pure.mpr ⟨?_, rfl, s.bitmap, s.block, rfl⟩
    have hempty : entriesBelow i 0 = ∅ := by simp [entriesBelow]
    rwa [hempty]
  | succ n ih =>
    refine (ih (by omega)).bind ?_
    rintro _ t ⟨ht, hblock, bm, bl, heq⟩
    have haddrs : addrs t i = addrs s i := addrs_congr (by rw [heq]) (by rw [heq]) i
    have hheld : held t (i, .entry n) = a n := by
      rw [held_entry (by rw [heq]; exact hi) (by omega) (by rwa [haddrs]), haddrs, hblock, ha]
    have hnot : (i, Place.entry n) ∉ entriesBelow i n := by
      rintro ⟨l, hl, hq⟩
      cases hq
      exact lt_irrefl _ hl
    rw [← hheld, entriesBelow_succ, wp_ite]
    constructor
    · intro hne
      refine (bfree_spec ht hnot hne).imp ?_
      rintro _ u ⟨hu, hueq⟩
      refine ⟨hu, ?_, ?_⟩
      · -- the entry is not the indirect block itself
        have hself : held t (i, .addr ndirect) = addrs s i ndirect := by
          rw [held_addr (by rw [heq]; exact hi) le_rfl, haddrs]
        have hmem : (i, Place.addr ndirect) ∉ entriesBelow i n := by
          rintro ⟨l, -, hq⟩
          cases hq
        have hinj := ht.names.inj (i, .entry n) (i, .addr ndirect)
        rw [heldBut_of_notMem hnot, heldBut_of_notMem hmem, hself] at hinj
        have hdiff : (addrs s i ndirect).toNat ≠ (held t (i, .entry n)).toNat := by
          intro hsame
          have := hinj hne (BitVec.eq_of_toNat_eq hsame.symm)
          cases this
        rw [hueq]
        dsimp only
        rw [Function.update_of_ne hdiff, hblock]
      · subst heq
        exact ⟨_, _, hueq⟩
    · intro h0
      refine wp_pure.mpr ⟨?_, hblock, bm, bl, heq⟩
      refine ht.forget rfl rfl rfl (fun q => ?_) ht.cache
      by_cases hq : q ∈ insert (i, Place.entry n) (entriesBelow i n)
      · exact Or.inl (heldBut_of_mem hq)
      · rw [heldBut_of_notMem hq, heldBut_of_notMem fun hq' => hq (Set.mem_insert_of_mem _ hq')]
        exact Or.inr rfl

theorem Truncates.diskOk (h : Truncates s t x) (hx : Caches s i x) {k : ℕ} (hk : k ≠ i) (hd : DiskOk s k) :
    DiskOk t k := by
  obtain ⟨bm, bl, ad, rfl⟩ := h
  intro y hy j hj
  have hyx : y ≠ x := by
    rintro rfl
    have hinum := hy.2.2
    simp only [Function.update_self] at hinum
    exact hk (hinum.symm.trans hx.2.2)
  simp only [Caches, Function.update_of_ne hyx] at hy ⊢
  exact hd y hy j hj

/-- **`itrunc`** gives all the blocks of an inode back. -/
theorem itrunc_spec (h : Sound s) (hx : Caches s i x) :
    Wp (itrunc x) (fun _ t => Sound t ∧ Caches t i x) (fun _ _ => False) s := by
  -- the size and the disk inode
  have hend : ∀ u, SoundBut ∅ u → Caches u i x → Truncates s u x →
      Wp (do
        modifyInode x fun ip => { ip with size := 0#32 }
        iupdate x) (fun _ t => Sound t ∧ Caches t i x) (fun _ _ => False) u := by
    intro u hu hxu htr
    simp only [modifyInode, iupdate, wp_bind, wp_modify]
    have he : Edits u _ x { u.inode x with size := 0#32 } := .of_modify Iff.rfl rfl rfl
    have hxv := (he.caches i x).mpr hxu
    refine ⟨(he.soundBut rfl rfl rfl hu).update hxv (fun k hk => ?_) ?_, hxv⟩
    · exact he.diskOk rfl (htr.diskOk hx hk (h.disk k))
    · simp only [Function.update_self, hxu.2.2]
  unfold itrunc
  refine (freeDirect_spec le_rfl h.blocks hx).bind ?_
  rintro _ t ⟨ht, hxt, htr⟩
  refine wp_bind.mpr (wp_get.mpr ?_)
  dsimp only
  rw [← addrs_of_caches ht.cache hxt, wp_ite]
  constructor
  · intro hind
    refine (freeEntries_spec le_rfl ht hxt hind fun _ => rfl).bind ?_
    rintro _ u ⟨hu, hblock, bm, bl, heq⟩
    have hxu : Caches u i x := by rw [heq]; exact hxt
    have hi : i < u.sb.ninodes.toNat := hxu.2.2 ▸ hu.cache.inum x hxu.1
    have haddrs : addrs u i = addrs t i := addrs_congr (by rw [heq]) (by rw [heq]) i
    have hheld : held u (i, .addr ndirect) = addrs t i ndirect := by rw [held_addr hi le_rfl, haddrs]
    have hnot : (i, Place.addr ndirect) ∉ entriesBelow i nindirect := by
      rintro ⟨l, -, hq⟩
      cases hq
    rw [← hheld] at hind ⊢
    refine (bfree_spec hu hnot hind).bind ?_
    rintro _ v ⟨hv, hveq⟩
    have hxv : Caches v i x := by rw [hveq]; exact hxu
    refine (clear_spec hv hxv le_rfl fun q hq => ?_).bind ?_
    · rcases hq with rfl | ⟨l, -, rfl⟩
      · exact Or.inl rfl
      · exact Or.inr ⟨rfl, l, rfl⟩
    · rintro _ w ⟨hw, hxw, htr'⟩
      exact hend w hw hxw (((htr.trans (.of_free heq)).trans (.of_free hveq)).trans htr')
  · intro _
    exact hend t ht hxt htr

/-! ### Inodes -/

theorem iget_spec (h : Sound s) (hi : i < s.sb.ninodes.toNat) :
    Wp (iget i) (fun _ t => Sound t) (fun e _ => e = .iget) s := by
  unfold iget
  simp only [wp_bind, wp_get]
  split
  · next y hy =>
    simp only [modifyInode, wp_bind, wp_modify, wp_pure]
    have hpos : 0 < (s.inode y).ref := by
      have := List.find?_some hy
      simp only [decide_eq_true_eq] at this
      exact this.1
    have he : Edits s _ y { s.inode y with ref := (s.inode y).ref + 1 } :=
      .of_modify (iff_of_true (Nat.succ_pos _) hpos) rfl rfl
    exact he.sound rfl rfl rfl h
  · next hnone =>
    split
    · simp only [wp_throw]
    · next y hy =>
      simp only [modifyInode, wp_bind, wp_modify, wp_pure]
      refine h.enter rfl (fun z hz => ?_) hi rfl
      have := List.find?_eq_none.mp hnone z (List.mem_finRange z)
      simp only [decide_eq_true_eq, not_and] at this
      exact this hz

theorem ialloc_spec (h : Sound s) (type : Short) :
    Wp (ialloc type) (fun _ t => Sound t) (fun e _ => e = .ialloc ∨ e = .iget) s := by
  unfold ialloc
  simp only [wp_bind, wp_get]
  split
  · simp only [wp_throw, true_or]
  · next inum hinum =>
    have hlt : inum < s.sb.ninodes.toNat := List.mem_range.mp (List.mem_of_find?_eq_some hinum)
    simp only [wp_bind, wp_set]
    exact (iget_spec (h.clearInode inum type) hlt).mono (fun _ _ ht => ht) fun _ _ he => Or.inr he

theorem ilock_spec (h : Sound s) :
    Wp (ilock x) (fun _ t => Sound t) (fun e _ => e = .ilock ∨ e = .asleep ∨ e = .ilockType) s := by
  unfold ilock
  simp only [modifyInode, wp_bind, wp_get, wp_ite, wp_throw, wp_modify, wp_pure, true_or, or_true,
    implies_true, true_and]
  intro hlt _
  have he : Edits s _ x { s.inode x with busy := true } := .of_modify Iff.rfl rfl rfl
  have hb := he.sound rfl rfl rfl h
  refine ⟨fun hv => ?_, fun _ => hb⟩
  have hpos : 0 < (s.inode x).ref := by omega
  intro _
  simp only [Function.update_self, Function.update_idem]
  exact h.load (c := ⟨s.dinode (s.inode x).inum, (s.inode x).inum, (s.inode x).ref, true, true⟩) hpos
    ⟨hpos, rfl, rfl⟩ rfl

theorem iunlock_spec (h : Sound s) : Wp (iunlock x) (fun _ t => Sound t) (fun e _ => e = .iunlock) s := by
  unfold iunlock
  simp only [modifyInode, wp_bind, wp_get, wp_ite, wp_throw, wp_modify, implies_true, true_and]
  intro _
  have he : Edits s _ x { s.inode x with busy := false } := .of_modify Iff.rfl rfl rfl
  exact he.sound rfl rfl rfl h

theorem idup_spec (h : Sound s) (hx : 0 < (s.inode x).ref) :
    Wp (idup x) (fun _ t => Sound t) (fun _ _ => False) s := by
  unfold idup
  simp only [modifyInode, wp_modify]
  have he : Edits s _ x { s.inode x with ref := (s.inode x).ref + 1 } :=
    .of_modify (iff_of_true (Nat.succ_pos _) hx) rfl rfl
  exact he.sound rfl rfl rfl h

/-- A change of the other fields of an inode, written to the disk. -/
theorem iupdate_spec (h : Sound s) (hx : Caches s i x) {f : Inode → Inode}
    (hf : ∀ ip, (f ip).ref = ip.ref ∧ (f ip).valid = ip.valid ∧ (f ip).inum = ip.inum ∧
      (f ip).addrs = ip.addrs) :
    Wp (do
      modifyInode x f
      iupdate x) (fun _ t => Sound t ∧ Caches t i x) (fun _ _ => False) s := by
  simp only [modifyInode, iupdate, wp_bind, wp_modify]
  obtain ⟨href, hvalid, hinum, haddrs⟩ := hf (s.inode x)
  have he : Edits s _ x (f (s.inode x)) := .of_modify (by rw [href]) hvalid hinum
  have hs := he.sound haddrs rfl rfl h
  have hxt := (he.caches i x).mpr hx
  refine ⟨hs.blocks.update hxt (fun k _ => hs.disk k) ?_, hxt⟩
  simp only [Function.update_self, hinum, hx.2.2]

theorem dropRef_spec (h : Sound s) (hx : 0 < (s.inode x).ref) :
    Wp (modifyInode x fun ip => { ip with ref := ip.ref - 1 }) (fun _ t => Sound t) (fun _ _ => False) s := by
  simp only [modifyInode, wp_modify]
  by_cases hone : (s.inode x).ref = 1
  · refine h.leave (c := { s.inode x with ref := (s.inode x).ref - 1 }) ?_ ?_ rfl <;> simp [hone]
  · have he : Edits s _ x { s.inode x with ref := (s.inode x).ref - 1 } :=
      .of_modify (iff_of_true (Nat.sub_pos_of_lt (by omega)) hx) rfl rfl
    exact he.sound rfl rfl rfl h

/-- **`iput`** drops a reference, and gives up the inode with the last one if no name is left for it. -/
theorem iput_spec (h : Sound s) (hx : 0 < (s.inode x).ref) :
    Wp (iput x) (fun _ t => Sound t) (fun e _ => e = .iput) s := by
  have hend : ∀ t, Sound t → 0 < (t.inode x).ref →
      Wp (modifyInode x fun ip => { ip with ref := ip.ref - 1 }) (fun _ t => Sound t)
        (fun e _ => e = .iput) t :=
    fun t ht hpos => (dropRef_spec ht hpos).mono (fun _ _ ht => ht) fun _ _ he => he.elim
  unfold iput
  refine wp_bind.mpr (wp_get.mpr ?_)
  rw [wp_ite]
  constructor
  · rintro ⟨-, hvalid, -⟩
    rw [wp_ite]
    refine ⟨fun _ => wp_throw.mpr rfl, fun _ => ?_⟩
    have hcache : Caches s (s.inode x).inum x := ⟨hx, hvalid, rfl⟩
    have hb : Edits s _ x { s.inode x with busy := true } := .of_modify Iff.rfl rfl rfl
    refine wp_bind.mpr (wp_modify.mpr ?_)
    refine Wp.bind ((itrunc_spec (hb.sound rfl rfl rfl h) ((hb.caches _ x).mpr hcache)).mono
      (fun _ _ ht => ht) fun _ _ he => he.elim) ?_
    rintro _ t ⟨ht, hxt⟩
    have htype := iupdate_spec ht hxt (f := fun ip => { ip with type := 0#16 }) fun _ => ⟨rfl, rfl, rfl, rfl⟩
    refine wp_bind.mpr ((wp_bind.mp htype).mono (fun _ u hu => ?_) fun _ _ he => he.elim)
    refine wp_bind.mpr (hu.mono ?_ fun _ _ he => he.elim)
    rintro _ v ⟨hv, hxv⟩
    simp only [modifyInode, wp_bind, wp_modify]
    -- the copy is not valid any more, and then not in use
    have hout : Sound { v with
        inode := Function.update v.inode x { v.inode x with busy := false, valid := false } } :=
      hv.leave (c := { v.inode x with busy := false, valid := false }) (fun _ => ⟨hxv.1, rfl⟩) (fun _ => rfl) rfl
    refine wp_modify.mp (hend _ hout ?_)
    simpa only [Function.update_self] using hxv.1
  · intro _
    exact hend s h hx

end

end OperatingSystems.Files.Allocation
