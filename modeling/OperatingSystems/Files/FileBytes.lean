import OperatingSystems.Files.Runs
import OperatingSystems.Lib.Splice

/-! # The bytes of the files

`byteAt` is a byte of a file, wherever its block is. Blocks that are added to a file hold zeros, so that no byte of
any file changes (`bmap_grows`); a block that is written changes bytes of its own file only (`byteAt_setData`);
`readLoop` and `writeLoop` copy the bytes of the file, whatever the blocks are. -/

namespace OperatingSystems.Files.FileBytes

open OperatingSystems.Files.Allocation OperatingSystems.Files.Runs OperatingSystems.Files.Sharing
  OperatingSystems.Lib.Splice OperatingSystems.Lib.WeakestPre OperatingSystems.Lib.Words OperatingSystems.Pipes

/-- **A byte of a file**, or 0 where the file has no block. -/
def byteAt (s : Kernel) (i k : ℕ) : Byte :=
  if held s (i, placeOf (k / bsize)) = 0#32 then 0#8
  else s.block (held s (i, placeOf (k / bsize))).toNat (k % bsize)

section
variable {s t u : Kernel} {x : Fin ninode} {i j k bn : ℕ} {a : Word} {p q : ℕ × Place}

/-! ### Places -/

/-- No byte of a file is in an indirect block. -/
theorem placeOf_ne (bn : ℕ) : placeOf bn ≠ .addr ndirect := by
  unfold placeOf
  split_ifs with hlt
  · intro h
    have heq := Place.addr.inj h
    omega
  · exact Place.noConfusion

theorem placeOf_inj : ∀ {bn bn' : ℕ}, placeOf bn = placeOf bn' → bn = bn' := by
  intro bn bn' h
  unfold placeOf at h
  split_ifs at h with h1 h2
  · exact Place.addr.inj h
  · have heq := Place.entry.inj h
    omega

theorem held_inj (h : Sound s) (hp : held s p ≠ 0#32) (heq : held s p = held s q) : p = q := by
  have hinj := h.blocks.names.inj p q
  rw [heldBut_empty] at hinj
  exact hinj hp heq

theorem isData_held (h : Sound s) (hp : held s p ≠ 0#32) : s.sb.IsData (held s p).toNat := by
  have harea := h.blocks.area p
  rw [heldBut_empty] at harea
  exact harea hp

theorem marked_held (h : Sound s) (hp : held s p ≠ 0#32) : s.bitmap (held s p).toNat = true := by
  have hused := h.blocks.names.used p
  rw [heldBut_empty] at hused
  exact hused hp

theorem held_toNat_ne (h : Sound s) (hp : held s p ≠ 0#32) (hne : p ≠ q) :
    (held s p).toNat ≠ (held s q).toNat :=
  fun heq => hne (held_inj h hp (BitVec.eq_of_toNat_eq heq))

theorem lt_of_caches (h : Sound s) (hx : Caches s i x) : i < s.sb.ninodes.toNat :=
  hx.2.2 ▸ h.blocks.cache.inum x hx.1

theorem byteAt_of_held (h : held s (i, placeOf (k / bsize)) ≠ 0#32) :
    byteAt s i k = s.block (held s (i, placeOf (k / bsize))).toNat (k % bsize) := if_neg h

theorem byteAt_of_not_held (h : held s (i, placeOf (k / bsize)) = 0#32) : byteAt s i k = 0#8 := if_pos h

theorem held_congr (hsb : t.sb = s.sb) (hdinode : t.dinode = s.dinode) (hinode : t.inode = s.inode)
    (hblock : t.block = s.block) : held t = held s := by
  funext p
  have haddrs := addrs_congr hinode hdinode
  obtain ⟨l, m | m⟩ := p <;> simp only [held, haddrs, hsb, hblock]

theorem byteAt_congr (hheld : held t = held s) (hblock : t.block = s.block) (i k : ℕ) :
    byteAt t i k = byteAt s i k := by
  unfold byteAt
  rw [hheld, hblock]

/-! ### Blocks are added -/

/-- A place has taken a block of zeros: no byte has changed, unless the other blocks of data have. -/
theorem byteAt_take (hother : ∀ q, q ≠ p → held t q = held s q) (h0 : held s p = 0#32)
    (hzero : ∀ o < bsize, t.block (held t p).toNat o = 0#8)
    (hblock : ∀ j bn, held s (j, placeOf bn) ≠ 0#32 →
      t.block (held s (j, placeOf bn)).toNat = s.block (held s (j, placeOf bn)).toNat) (j k : ℕ) :
    byteAt t j k = byteAt s j k := by
  by_cases hjp : (j, placeOf (k / bsize)) = p
  · have hs : byteAt s j k = 0#8 := byteAt_of_not_held (hjp ▸ h0)
    rw [hs]
    unfold byteAt
    split_ifs with ht
    · rfl
    · rw [hjp]
      exact hzero _ (Nat.mod_lt _ (by decide))
  · unfold byteAt
    rw [hother _ hjp]
    split_ifs with hs
    · rfl
    · rw [hblock j (k / bsize) hs]

/-- The other places of an inode that has taken a fresh block for an address. -/
theorem held_setAddr (h : Sound s) (ha : Fresh s a) (hx : Caches s i x) (hj : j ≤ ndirect)
    (h0 : addrs s i j = 0#32)
    (ht : t = { s with
      inode := Function.update s.inode x
        { s.inode x with addrs := Function.update (s.inode x).addrs j a } })
    (q : ℕ × Place) (hq : q ≠ (i, .addr j)) : held t q = held s q := by
  obtain ⟨-, -, -, hself⟩ := h.setAddr ha hx hj h0 ht
  have he : Edits s t x { s.inode x with addrs := Function.update (s.inode x).addrs j a } :=
    ⟨by rw [ht], by rw [ht], by rw [ht], Iff.rfl, rfl, rfl⟩
  have hother := he.addrs h.blocks.cache hx
  have hblock : t.block = s.block := by rw [ht]
  obtain ⟨l, m | m⟩ := q
  · by_cases hl : l = i
    · subst hl
      have hm : m ≠ j := fun hm => hq (by rw [hm])
      simp only [held, he.sb, hself, Function.update_of_ne hm]
    · simp only [held, he.sb, hother, if_neg hl]
  · by_cases hl : l = i
    · subst hl
      by_cases hjn : j = ndirect
      · -- the new indirect block has no entries, as there were none before
        subst hjn
        simp only [held, he.sb, hself, hblock, Function.update_self, h0, ne_eq, not_true_eq_false, and_false,
          if_false]
        split_ifs with hm
        · refine word_zero fun o _ ho => ha.zero o ?_
          have := hm.2.1
          unfold nindirect at this
          unfold bsize
          omega
        · rfl
      · simp only [held, he.sb, hself, hblock, Function.update_of_ne (Ne.symm hjn)]
    · simp only [held, he.sb, hblock, hother, if_neg hl]

/-- The other places of an inode that has taken a fresh block for an entry. -/
theorem held_setEntry (h : Sound s) (hi : i < s.sb.ninodes.toNat)
    (ht : t = { s with
      block := Function.update s.block (addrs s i ndirect).toNat
        (setWord (s.block (addrs s i ndirect).toNat) (4 * j) a) })
    (q : ℕ × Place) (hq : q ≠ (i, .entry j)) : held t q = held s q := by
  have haddrs : ∀ k, addrs t k = addrs s k := addrs_congr (by rw [ht]) (by rw [ht])
  have hsb : t.sb = s.sb := by rw [ht]
  obtain ⟨l, m | m⟩ := q
  · simp only [held, hsb, haddrs]
  · simp only [held, hsb, haddrs]
    split_ifs with hm
    · rw [ht]
      dsimp only
      by_cases hl : l = i
      · subst hl
        have hmj : m ≠ j := fun hmj => hq (by rw [hmj])
        rw [Function.update_self, word_setWord_of_disjoint (by omega)]
      · have hne : (addrs s l ndirect).toNat ≠ (addrs s i ndirect).toNat := by
          rw [← held_addr hm.1 le_rfl, ← held_addr hi le_rfl]
          refine held_toNat_ne h ?_ fun heq => hl (Prod.mk.inj heq).1
          rw [held_addr hm.1 le_rfl]
          exact hm.2.2
        rw [Function.update_of_ne hne]
    · rfl

/-- All that has changed are blocks and their marks, and which of them an inode has. -/
def Reblocks (s t : Kernel) (x : Fin ninode) : Prop :=
  ∃ bitmap block ad touched, t = { s with
    bitmap := bitmap
    block := block
    touched := touched
    inode := Function.update s.inode x { s.inode x with addrs := ad } }

theorem Reblocks.of_inode {bm : ℕ → Bool} {bl : ℕ → ℕ → Byte} {tc : List ℕ} (x : Fin ninode)
    (ht : t = { s with bitmap := bm, block := bl, touched := tc }) : Reblocks s t x :=
  ⟨bm, bl, (s.inode x).addrs, tc, by simp [ht]⟩

theorem Reblocks.trans (h : Reblocks s t x) (h' : Reblocks t u x) : Reblocks s u x := by
  obtain ⟨bm, bl, ad, tc, rfl⟩ := h
  obtain ⟨bm', bl', ad', tc', rfl⟩ := h'
  exact ⟨bm', bl', ad', tc', by simp⟩

/-- **What a file is after blocks have been added or written**: places keep their blocks, no other file gets any,
every new mark is that of a place, and the bytes are as they are said to be. -/
structure Extends (s t : Kernel) (x : Fin ninode) (byte : ℕ → ℕ → Byte) : Prop where
  frame : Reblocks s t x
  keeps : ∀ p, held s p ≠ 0#32 → held t p = held s p
  others : ∀ p, p.1 ≠ (s.inode x).inum → held t p = held s p
  marks : ∀ b, t.bitmap b = true → s.bitmap b = true ∨ ∃ p, held t p ≠ 0#32 ∧ (held t p).toNat = b
  bytes : ∀ j k, byteAt t j k = byte j k

variable {byte byte' : ℕ → ℕ → Byte}

theorem Extends.refl (s : Kernel) (x : Fin ninode) : Extends s s x (byteAt s) :=
  ⟨.of_inode x rfl, fun _ _ => rfl, fun _ _ => rfl, fun _ => Or.inl, fun _ _ => rfl⟩

theorem Reblocks.inum (h : Reblocks s t x) : (t.inode x).inum = (s.inode x).inum := by
  obtain ⟨bm, bl, ad, tc, rfl⟩ := h
  simp only [Function.update_self]

theorem Extends.trans (h : Extends s t x byte) (h' : Extends t u x byte') : Extends s u x byte' := by
  have hkeeps : ∀ p, held s p ≠ 0#32 → held t p ≠ 0#32 ∧ held u p = held s p := fun p hp => by
    have hst := h.keeps p hp
    rw [h'.keeps p (hst ▸ hp), hst]
    exact ⟨hp, rfl⟩
  refine ⟨h.frame.trans h'.frame, fun p hp => (hkeeps p hp).2, fun p hp => ?_, fun b hb => ?_, h'.bytes⟩
  · rw [h'.others p (h.frame.inum ▸ hp), h.others p hp]
  rcases h'.marks b hb with ht | hu
  · refine (h.marks b ht).imp_right ?_
    rintro ⟨p, hp, hpb⟩
    have hpu := h'.keeps p hp
    exact ⟨p, hpu ▸ hp, hpu ▸ hpb⟩
  · exact Or.inr hu

/-- Blocks are added after that. -/
theorem Extends.grow (h : Extends s t x byte) (h' : Extends t u x (byteAt t)) : Extends s u x byte := by
  have hu := h.trans h'
  exact ⟨hu.frame, hu.keeps, hu.others, hu.marks, fun j k => (hu.bytes j k).trans (h.bytes j k)⟩

theorem Extends.sb (h : Extends s t x byte) : t.sb = s.sb := by
  obtain ⟨bm, bl, ad, tc, rfl⟩ := h.frame
  rfl

theorem Extends.dinode (h : Extends s t x byte) : t.dinode = s.dinode := by
  obtain ⟨bm, bl, ad, tc, rfl⟩ := h.frame
  rfl

theorem Extends.user (h : Extends s t x byte) : t.user = s.user := by
  obtain ⟨bm, bl, ad, tc, rfl⟩ := h.frame
  rfl

theorem Extends.full (h : Extends s t x byte) : t.full = s.full := by
  obtain ⟨bm, bl, ad, tc, rfl⟩ := h.frame
  rfl

/-- The entry of the cache, but for the addresses. -/
theorem Extends.inode (h : Extends s t x byte) : ∃ ad, t.inode x = { s.inode x with addrs := ad } := by
  obtain ⟨bm, bl, ad, tc, rfl⟩ := h.frame
  exact ⟨ad, Function.update_self ..⟩

theorem Extends.inode_of_ne (h : Extends s t x byte) {y : Fin ninode} (hy : y ≠ x) : t.inode y = s.inode y := by
  obtain ⟨bm, bl, ad, tc, rfl⟩ := h.frame
  exact Function.update_of_ne hy ..

/-- A marked block is taken for a place that had none. -/
theorem Extends.of_take (h : Fresh u a) (hbm : ∀ b, t.bitmap b = true → s.bitmap b = true ∨ b = a.toNat)
    (h0 : held s p = 0#32) (hpx : p.1 = (s.inode x).inum) (hp : held t p = a)
    (hother : ∀ q, q ≠ p → held t q = held s q)
    (hnew : t.block a.toNat = u.block a.toNat)
    (hblock : ∀ j bn, held s (j, placeOf bn) ≠ 0#32 →
      t.block (held s (j, placeOf bn)).toNat = s.block (held s (j, placeOf bn)).toNat)
    (hframe : Reblocks s t x) : Extends s t x (byteAt s) := by
  refine ⟨hframe, fun q hq => hother q fun heq => hq (heq ▸ h0), fun q hq => hother q fun heq => hq (heq ▸ hpx),
    fun b hb => (hbm b hb).imp_right ?_, byteAt_take hother h0 (fun o ho => ?_) hblock⟩
  · rintro rfl
    exact ⟨p, hp ▸ h.ne_zero, by rw [hp]⟩
  · rw [hp, hnew]
    exact h.zero o ho

/-- The block that `balloc` marks. -/
theorem balloc_marks (s : Kernel) :
    Wp balloc (fun a t => t.full = true ∨ ∀ b, t.bitmap b = true → s.bitmap b = true ∨ b = a.toNat)
      (fun _ t => t.full = true) s := by
  unfold balloc
  simp only [wp_bind, wp_get]
  split
  · simp only [wp_bind, wp_set, wp_throw]
  · next b _ =>
    simp only [wp_bind, wp_set, wp_pure]
    by_cases hsize : s.sb.size.toNat ≤ b
    · simp [hsize]
    · have hlt := s.sb.size.isLt
      refine Or.inr fun c hc => ?_
      by_cases hcb : c = b
      · refine Or.inr ?_
        rw [hcb, BitVec.toNat_ofNat]
        exact (Nat.mod_eq_of_lt (by omega)).symm
      · exact Or.inl (by simpa [Function.update_of_ne hcb] using hc)

theorem balloc_fresh (h : Sound s) :
    Wp balloc (fun a t => t.full = true ∨ (Sound t ∧ Fresh t a ∧ ∃ bm, t = { s with bitmap := bm }) ∧
      ∀ b, t.bitmap b = true → s.bitmap b = true ∨ b = a.toNat) (fun _ t => t.full = true ∨ False) s :=
  ((balloc_spec h).and (balloc_marks s)).mono
    (fun _ _ ht => ht.1.elim Or.inl fun hl => ht.2.imp_right fun hr => ⟨hl, hr⟩) fun _ _ he => Or.inl he.2

/-- An address, with the block that may have been added for it. -/
theorem addrOf_extends (h : Sound s) (hx : Caches s i x) (hj : j ≤ ndirect) :
    Wp (addrOf x j)
      (fun a t => t.full = true ∨ (Sound t ∧ Caches t i x ∧ a ≠ 0#32 ∧ addrs t i j = a) ∧ Extends s t x (byteAt s))
      (fun _ t => t.full = true ∨ False) s := by
  have hi := lt_of_caches h hx
  have haddr : (s.inode x).addrs j = addrs s i j := by rw [addrs_of_caches h.blocks.cache hx]
  refine wp_bind.mpr (wp_get.mpr ?_)
  rw [wp_ite]
  constructor
  · intro h0
    refine wp_unless_full (balloc_fresh h) ?_ ?_
    · exact fun a => (keepsFull_modifyInode _ _).bind fun _ => keepsFull_pure _
    · rintro a t ⟨⟨ht, ha, bm, rfl⟩, hbm⟩
      simp only [setAddr, modifyInode, wp_bind, wp_modify, wp_pure]
      have h0' : addrs s i j = 0#32 := haddr ▸ h0
      obtain ⟨hu, hc, hheld, haddrs⟩ := ht.setAddr ha hx hj h0' rfl
      refine Or.inr ⟨⟨hu, hc, ha.ne_zero, by rw [haddrs, Function.update_self]⟩, ?_⟩
      have hmark : held { s with bitmap := bm } = held s := held_congr rfl rfl rfl rfl
      refine .of_take ha hbm (p := (i, .addr j)) ?_ hx.2.2.symm hheld (fun q hq => ?_) rfl (fun _ _ _ => rfl)
        ⟨_, _, _, _, rfl⟩
      swap
      · rw [held_setAddr ht ha hx hj h0' rfl q hq, hmark]
      rw [held_addr hi hj, h0']
  · intro hne
    rw [wp_pure]
    exact Or.inr ⟨⟨h, hx, hne, haddr.symm⟩, .refl s x⟩

/-- **`bmap` adds blocks of zeros**, and only if the disk is full it stops. -/
theorem bmap_extends (h : Sound s) (hx : Caches s i x) (hbn : bn < maxfile) :
    Wp (bmap x bn)
      (fun a t => t.full = true ∨
        (Sound t ∧ Caches t i x ∧ a ≠ 0#32 ∧ held t (i, placeOf bn) = a) ∧ Extends s t x (byteAt s))
      (fun _ t => t.full = true ∨ False) s := by
  unfold bmap
  rw [wp_ite]
  constructor
  · intro hlt
    refine (addrOf_extends h hx hlt.le).imp fun a t ht => ht.imp_right ?_
    rintro ⟨⟨ht, hxt, hne, ha⟩, he⟩
    refine ⟨⟨ht, hxt, hne, ?_⟩, he⟩
    rw [placeOf, if_pos hlt, held_addr (lt_of_caches ht hxt) hlt.le, ha]
  · intro hnlt
    rw [wp_ite]
    constructor
    · intro hin
      refine wp_unless_full (addrOf_extends h hx le_rfl) (fun ind => ?_) ?_
      · refine keepsFull_get.bind fun s => .ite ?_ (keepsFull_pure _)
        exact keepsFull_balloc.bind fun a => (keepsFull_bwrite _ _).bind fun _ => keepsFull_pure _
      · rintro ind t ⟨⟨ht, hxt, hne, rfl⟩, he⟩
        have hi := lt_of_caches ht hxt
        have hind : held t (i, .addr ndirect) = addrs t i ndirect := held_addr hi le_rfl
        rw [placeOf, if_neg hnlt]
        refine wp_bind.mpr (wp_get.mpr ?_)
        rw [wp_ite]
        constructor
        · intro h0
          refine wp_unless_full (balloc_fresh ht) ?_ ?_
          · exact fun a => (keepsFull_bwrite _ _).bind fun _ => keepsFull_pure _
          · rintro a u ⟨⟨hu, ha, bm, rfl⟩, hbm⟩
            have hdata : t.sb.IsData (addrs t i ndirect).toNat := hind ▸ isData_held ht (hind ▸ hne)
            simp only [bwrite, wp_bind, wp_get, wp_ite, wp_set, wp_pure]
            obtain ⟨hv, hc, hentry⟩ := hu.setEntry ha hxt hin hne rfl
            refine ⟨fun _ => Or.inr ⟨⟨hv, hc, ha.ne_zero, hentry⟩, he.grow ?_⟩, fun hnot => absurd hdata hnot⟩
            -- the fresh block is not the indirect block, nor is any block of data
            have hne' : a.toNat ≠ (addrs t i ndirect).toNat := fun heq =>
              ha.unheld (i, .addr ndirect) (hind.trans (BitVec.eq_of_toNat_eq heq.symm))
            have hmark : held { t with bitmap := bm } = held t := held_congr rfl rfl rfl rfl
            refine .of_take ha hbm (p := (i, .entry (bn - ndirect))) ?_ hxt.2.2.symm hentry (fun q hq => ?_)
              (Function.update_of_ne hne' ..) (fun l m hl => Function.update_of_ne ?_ ..)
              (.of_inode x rfl)
            · rw [held_entry hi hin hne, h0]
            · exact (held_setEntry hu hi rfl q hq).trans (congrFun hmark q)
            · rw [← hind]
              exact held_toNat_ne ht hl fun heq => placeOf_ne m (Prod.mk.inj heq).2
        · intro hne'
          rw [wp_pure]
          exact Or.inr ⟨⟨ht, hxt, hne', held_entry hi hin hne⟩, he⟩
    · intro hnin
      unfold maxfile at hbn
      omega

/-! ### Blocks are read and written -/

/-- `bmap` on a block that the file has. -/
theorem bmap_found (h : Sound s) (hx : Caches s i x) (hp : held s (i, placeOf bn) ≠ 0#32) :
    Wp (bmap x bn) (fun a t => a = held s (i, placeOf bn) ∧ s = t) (fun _ _ => False) s := by
  have hi := lt_of_caches h hx
  have haddr : (s.inode x).addrs = addrs s i := (addrs_of_caches h.blocks.cache hx).symm
  unfold bmap
  unfold placeOf at hp ⊢
  rw [wp_ite]
  constructor
  · intro hlt
    rw [if_pos hlt, held_addr hi hlt.le, ← haddr] at hp ⊢
    refine wp_bind.mpr (wp_get.mpr ?_)
    rw [if_neg hp, wp_pure]
    exact ⟨rfl, rfl⟩
  · intro hnlt
    rw [if_neg hnlt] at hp ⊢
    obtain ⟨-, hj, hind, -⟩ := held_indirect hp
    rw [if_pos hj]
    rw [held_entry hi hj hind, ← haddr] at hp ⊢
    rw [← haddr] at hind
    have hget : Wp (addrOf x ndirect) (fun a t => a = (s.inode x).addrs ndirect ∧ s = t) (fun _ _ => False) s := by
      refine wp_bind.mpr (wp_get.mpr ?_)
      rw [if_neg hind, wp_pure]
      exact ⟨rfl, rfl⟩
    refine hget.bind ?_
    rintro _ _ ⟨rfl, rfl⟩
    refine wp_bind.mpr (wp_get.mpr ?_)
    rw [if_neg hp, wp_pure]
    exact ⟨rfl, rfl⟩

/-- A block of data is not an indirect block. -/
theorem held_setData (h : Sound s) (hp : held s (i, placeOf bn) ≠ 0#32) {data : ℕ → Byte}
    (ht : t = { s with block := Function.update s.block (held s (i, placeOf bn)).toNat data }) :
    held t = held s := by
  have hsb : t.sb = s.sb := by rw [ht]
  have haddrs : ∀ k, addrs t k = addrs s k := addrs_congr (by rw [ht]) (by rw [ht])
  funext q
  obtain ⟨k, l | l⟩ := q
  · simp only [held, haddrs, hsb]
  · simp only [held, haddrs, hsb]
    split_ifs with hcond
    · have hne : (addrs s k ndirect).toNat ≠ (held s (i, placeOf bn)).toNat := by
        rw [← held_addr hcond.1 le_rfl]
        exact (held_toNat_ne h hp fun heq => placeOf_ne bn (Prod.mk.inj heq).2).symm
      rw [ht]
      dsimp only
      rw [Function.update_of_ne hne]
    · rfl

/-- **A block of data is written**: bytes of its file change, and no others. -/
theorem byteAt_setData (h : Sound s) (hp : held s (i, placeOf bn) ≠ 0#32) {data : ℕ → Byte}
    (ht : t = { s with block := Function.update s.block (held s (i, placeOf bn)).toNat data }) (j k : ℕ) :
    byteAt t j k = if j = i ∧ k / bsize = bn then data (k % bsize) else byteAt s j k := by
  have hheld := held_setData h hp ht
  split_ifs with hjk
  · obtain ⟨rfl, rfl⟩ := hjk
    rw [byteAt_of_held (hheld ▸ hp), hheld, ht]
    exact congrFun (Function.update_self ..) _
  · unfold byteAt
    rw [hheld]
    split_ifs with h0
    · rfl
    · have hne : (held s (j, placeOf (k / bsize))).toNat ≠ (held s (i, placeOf bn)).toNat := by
        refine held_toNat_ne h h0 fun heq => hjk ?_
        exact ⟨(Prod.mk.inj heq).1, placeOf_inj (Prod.mk.inj heq).2⟩
      rw [ht]
      dsimp only
      rw [Function.update_of_ne hne]

/-- The bytes of one turn of a loop over blocks are in one block. -/
theorem div_of_turn (n o : ℕ) (h1 : o ≤ k) (h2 : k < o + min n (bsize - o % bsize)) : k / bsize = o / bsize := by
  unfold bsize at *
  omega

theorem mod_of_turn (n o : ℕ) (h1 : o ≤ k) (h2 : k < o + min n (bsize - o % bsize)) :
    k % bsize = o % bsize + (k - o) := by
  unfold bsize at *
  omega

/-- **`readLoop` copies the bytes of a file** that has all the blocks. -/
theorem readLoop_copies {n fuel : ℕ} : ∀ {s : Kernel} {tot off dst : ℕ}, n - tot ≤ fuel → Sound s → Caches s i x →
    (∀ k, off ≤ k → k < off + (n - tot) → held s (i, placeOf (k / bsize)) ≠ 0#32) →
    Wp (readLoop x n fuel tot off dst)
      (fun _ t => ∃ tc, t = { s with
        user := splice s.user dst (n - tot) fun k => byteAt s i (off + k)
        touched := tc })
      (fun _ _ => False) s := by
  induction fuel with
  | zero =>
    intro s tot off dst hn _ _ _
    have h0 : n - tot = 0 := Nat.le_zero.mp hn
    exact wp_pure.mpr ⟨s.touched, by rw [h0, splice_zero]⟩
  | succ fuel ih =>
    intro s tot off dst hn h hx hheld
    unfold readLoop
    rw [wp_ite]
    constructor
    · intro hlt
      have hpos : 0 < bsize - off % bsize := Nat.sub_pos_of_lt (Nat.mod_lt _ (by decide))
      have hfound : held s (i, placeOf (off / bsize)) ≠ 0#32 := hheld off le_rfl (by omega)
      refine (bmap_found h hx hfound).bind ?_
      rintro _ _ ⟨rfl, rfl⟩
      refine wp_bind.mpr (wp_get.mpr (wp_bind.mpr (wp_modify.mpr ?_)))
      dsimp only
      generalize hm : min (n - tot) (bsize - off % bsize) = m
      have hrest : n - tot = m + (n - (tot + m)) := by omega
      -- the bytes of the block are bytes of the file
      have hbytes : ∀ k < m, s.block (held s (i, placeOf (off / bsize))).toNat (off % bsize + k) =
          byteAt s i (off + k) := by
        intro k hk
        have hdiv : (off + k) / bsize = off / bsize := div_of_turn (n - tot) off (by omega) (by omega)
        have hmod : (off + k) % bsize = off % bsize + k := by
          rw [mod_of_turn (n - tot) off (by omega) (by omega), Nat.add_sub_cancel_left]
        rw [byteAt_of_held (by rwa [hdiv]), hdiv, hmod]
      have hfuel : n - (tot + m) ≤ fuel := by omega
      refine Wp.imp (ih hfuel (SameDisk.sound (s := s) ⟨rfl, rfl, rfl, rfl, rfl, rfl⟩ h) hx
        fun k hk1 hk2 => hheld k (by omega) (by omega)) ?_
      rintro _ _ ⟨tc, rfl⟩
      refine ⟨tc, ?_⟩
      have huser : splice (splice s.user dst m fun k => byteAt s i (off + k)) (dst + m) (n - (tot + m))
          (fun k => byteAt s i (off + (m + k))) = splice s.user dst (n - tot) fun k => byteAt s i (off + k) := by
        rw [hrest]
        exact splice_append
      have hfirst : splice s.user dst m _ = splice s.user dst m _ := splice_congr hbytes
      rw [← huser, ← hfirst]
      simp only [Nat.add_assoc]
      rfl
    · intro hge
      have h0 : n - tot = 0 := by omega
      exact wp_pure.mpr ⟨s.touched, by rw [h0, splice_zero]⟩

/-- The bytes of all files, with a window of one of them written. -/
def written (s : Kernel) (i off n src : ℕ) (j : ℕ) : ℕ → Byte :=
  if j = i then splice (byteAt s i) off n fun k => s.user (src + k) else byteAt s j

/-- One turn of `writeLoop`, on a block that the file has. -/
theorem turn_writes (src : ℕ) (tc : List ℕ) {off m : ℕ} (h : Sound s) (hp : held s (i, placeOf (off / bsize)) ≠ 0#32)
    (hm : m ≤ bsize - off % bsize)
    (ht : t = { s with
      touched := tc
      block := Function.update s.block (held s (i, placeOf (off / bsize))).toNat
        (splice (s.block (held s (i, placeOf (off / bsize))).toNat) (off % bsize) m fun k => s.user (src + k)) }) :
    Sound t ∧ held t = held s ∧ Extends s t x (written s i off m src) := by
  have hpos : 0 < bsize - off % bsize := Nat.sub_pos_of_lt (Nat.mod_lt _ (by decide))
  obtain ⟨u, hu⟩ : ∃ u, u = { s with touched := tc } := ⟨_, rfl⟩
  have hus : Sound u := SameDisk.sound (s := s) (by rw [hu]; exact ⟨rfl, rfl, rfl, rfl, rfl, rfl⟩) h
  have huh : held u = held s := held_congr (by rw [hu]) (by rw [hu]) (by rw [hu]) (by rw [hu])
  have hub : byteAt u = byteAt s := by
    funext j k
    exact byteAt_congr huh (by rw [hu]) j k
  have htu : t = { u with
      block := Function.update u.block (held u (i, placeOf (off / bsize))).toNat
        (splice (s.block (held s (i, placeOf (off / bsize))).toNat) (off % bsize) m fun k => s.user (src + k)) } := by
    rw [ht, huh, hu]
  have hp' : held u (i, placeOf (off / bsize)) ≠ 0#32 := huh.symm ▸ hp
  have hheld : held t = held s := (held_setData hus hp' htu).trans huh
  refine ⟨hus.setData hp' (fun k hk => placeOf_ne _ (Prod.mk.inj hk).2) htu, hheld, .of_inode x ht,
    fun p _ => congrFun hheld p, fun p _ => congrFun hheld p, fun b hb => Or.inl (by rwa [ht] at hb), fun j k => ?_⟩
  rw [byteAt_setData hus hp' htu, hub]
  unfold written
  by_cases hji : j = i
  · subst hji
    rw [if_pos rfl]
    by_cases hk : off ≤ k ∧ k < off + m
    · have hdiv : k / bsize = off / bsize := div_of_turn m off hk.1 (by omega)
      have hmod : k % bsize = off % bsize + (k - off) := mod_of_turn m off hk.1 (by omega)
      have hlt : k - off < m := by omega
      rw [if_pos ⟨rfl, hdiv⟩, hmod, splice_add hlt, splice_of_mem hk.1 hk.2]
    · have hout : splice (byteAt s j) off m (fun k => s.user (src + k)) k = byteAt s j k := if_neg hk
      rw [hout]
      by_cases hdiv : k / bsize = off / bsize
      · rw [if_pos ⟨rfl, hdiv⟩, byteAt_of_held (by rwa [hdiv]), hdiv]
        refine if_neg fun hin => hk ?_
        unfold bsize at *
        omega
      · rw [if_neg fun hc => hdiv hc.2]
  · rw [if_neg fun hc => hji hc.1, if_neg hji]

/-- The code of the turn, and what comes after it. -/
theorem wp_turn {off src m : ℕ} {α : Type} {c : Code α} {Q : α → Kernel → Prop} {E : Stop → Kernel → Prop}
    (h : Sound s) (hx : Caches s i x) (hp : held s (i, placeOf (off / bsize)) ≠ 0#32) (hm : m ≤ bsize - off % bsize)
    (hc : ∀ t, Sound t → Caches t i x → held t = held s → t.inode = s.inode →
      Extends s t x (written s i off m src) → Wp c Q E t) :
    Wp (do
      let bytes ← fromUser src m
      let s' ← get
      bwrite (held s (i, placeOf (off / bsize))).toNat fun l =>
        if off % bsize ≤ l ∧ l < off % bsize + m then bytes (l - off % bsize)
        else s'.block (held s (i, placeOf (off / bsize))).toNat l
      c) Q E s := by
  simp only [fromUser, bwrite, wp_bind, wp_get, wp_set, wp_ite, wp_throw, wp_pure]
  refine ⟨fun _ => ?_, fun hnot => absurd (isData_held h hp) hnot⟩
  obtain ⟨ht, hheld, hst⟩ := turn_writes (x := x) src (s.touched ++ List.range' src m) h hp hm rfl
  exact hc _ ht hx hheld rfl hst

theorem written_zero (s : Kernel) (i off src : ℕ) : written s i off 0 src = byteAt s := by
  funext j
  unfold written
  rw [splice_zero]
  split_ifs with hj
  · rw [hj]
  · rfl

/-- **`writeLoop` writes a window of the file**, and no other byte of any file. -/
theorem writeLoop_writes {n fuel : ℕ} : ∀ {s : Kernel} {tot off src : ℕ}, n - tot ≤ fuel → Sound s → Caches s i x →
    off + (n - tot) ≤ maxfile * bsize →
    Wp (writeLoop x n fuel tot off src)
      (fun o t => t.full = true ∨
        (Sound t ∧ Caches t i x ∧ o = off + (n - tot) ∧
          ∀ k, off ≤ k → k < off + (n - tot) → held t (i, placeOf (k / bsize)) ≠ 0#32) ∧
        Extends s t x (written s i off (n - tot) src))
      (fun _ t => t.full = true ∨ False) s := by
  have hdone : ∀ {s : Kernel} {tot off src : ℕ}, n - tot = 0 → Sound s → Caches s i x →
      (Sound s ∧ Caches s i x ∧ off = off + (n - tot) ∧
        ∀ k, off ≤ k → k < off + (n - tot) → held s (i, placeOf (k / bsize)) ≠ 0#32) ∧
      Extends s s x (written s i off (n - tot) src) := by
    intro s tot off src h0 h hx
    rw [h0, written_zero]
    exact ⟨⟨h, hx, rfl, fun k hk1 hk2 => absurd hk1 (by omega)⟩, .refl s x⟩
  induction fuel with
  | zero =>
    intro s tot off src hn h hx _
    exact wp_pure.mpr (Or.inr (hdone (Nat.le_zero.mp hn) h hx))
  | succ fuel ih =>
    intro s tot off src hn h hx hmax
    unfold writeLoop
    rw [wp_ite]
    constructor
    · intro hlt
      have hbn : off / bsize < maxfile := (Nat.div_lt_iff_lt_mul (by decide)).mpr (by omega)
      refine wp_unless_full (bmap_extends h hx hbn) (fun b => ?_) ?_
      · exact (keepsFull_fromUser _ _).bind fun bytes => keepsFull_get.bind fun s =>
          (keepsFull_bwrite _ _).bind fun _ => keepsFull_writeLoop _ _ _ _ _ _
      · rintro b t ⟨⟨ht, hxt, hne, rfl⟩, hst⟩
        have hpos : 0 < bsize - off % bsize := Nat.sub_pos_of_lt (Nat.mod_lt _ (by decide))
        generalize hm : min (n - tot) (bsize - off % bsize) = m
        have hrest : n - tot = m + (n - (tot + m)) := by omega
        have hfuel : n - (tot + m) ≤ fuel := by omega
        refine wp_turn ht hxt hne (by omega) fun v hvs hxv hvh _ htv => ?_
        refine Wp.mono (ih hfuel hvs hxv (by omega)) ?_ fun _ _ he => he
        rintro o w (hw | ⟨⟨hw, hxw, rfl, hall⟩, hvw⟩)
        · exact Or.inl hw
        refine Or.inr ⟨⟨hw, hxw, by omega, fun k hk1 hk2 => ?_⟩, ?_⟩
        · by_cases hk : off + m ≤ k
          · exact hall k hk (by omega)
          · have hdiv : k / bsize = off / bsize := div_of_turn (n - tot) off hk1 (by omega)
            rw [hdiv, hvw.keeps _ (hvh.symm ▸ hne), hvh]
            exact hne
        · -- the turn and the turns after it
          have hsw := (hst.trans htv).trans hvw
          refine ⟨hsw.frame, hsw.keeps, hsw.others, hsw.marks, fun j k => ?_⟩
          have hts : byteAt t = byteAt s := by
            funext j k
            exact hst.bytes j k
          have hvt : ∀ j, byteAt v j = written t i off m src j := fun j => funext fun k => htv.bytes j k
          rw [hsw.bytes j k]
          unfold written
          by_cases hj : j = i
          · rw [if_pos hj, if_pos hj, hvt i, written, if_pos rfl, hts, hrest, ← splice_append, htv.user,
              hst.user]
            simp only [Nat.add_assoc]
          · rw [if_neg hj, if_neg hj, hvt j, written, if_neg hj, hts]
    · intro hge
      exact wp_pure.mpr (Or.inr (hdone (by omega) h hx))

/-- A window that has all its blocks gets none. -/
theorem writeLoop_found {n fuel : ℕ} : ∀ {s : Kernel} {tot off src : ℕ}, n - tot ≤ fuel → Sound s → Caches s i x →
    (∀ k, off ≤ k → k < off + (n - tot) → held s (i, placeOf (k / bsize)) ≠ 0#32) →
    Wp (writeLoop x n fuel tot off src) (fun _ t => t.inode = s.inode) (fun _ _ => True) s := by
  induction fuel with
  | zero => exact fun _ _ _ _ => wp_pure.mpr rfl
  | succ fuel ih =>
    intro s tot off src hn h hx hheld
    unfold writeLoop
    rw [wp_ite]
    constructor
    · intro hlt
      have hpos : 0 < bsize - off % bsize := Nat.sub_pos_of_lt (Nat.mod_lt _ (by decide))
      have hfound : held s (i, placeOf (off / bsize)) ≠ 0#32 := hheld off le_rfl (by omega)
      refine wp_bind.mpr ((bmap_found h hx hfound).mono ?_ fun _ _ _ => trivial)
      rintro _ _ ⟨rfl, rfl⟩
      generalize hm : min (n - tot) (bsize - off % bsize) = m
      have hfuel : n - (tot + m) ≤ fuel := by omega
      refine wp_turn h hx hfound (by omega) fun t ht hxt hth hinode _ => ?_
      refine Wp.imp (ih hfuel ht hxt fun k hk1 hk2 => ?_) fun _ u hu => hu.trans hinode
      rw [hth]
      exact hheld k (by omega) (by omega)
    · intro _
      exact wp_pure.mpr rfl

end

end OperatingSystems.Files.FileBytes
