import Mathlib.Data.BitVec
import OperatingSystems.Files.Contents
import OperatingSystems.Lib.Naming
import OperatingSystems.Lib.Transition

/-! # Who has which block

A place is an address of an inode or an entry of its indirect block, and the inode is the copy in the cache,
if there is a valid one. `Sound` says that no data block has two places, that every block with a place is
marked in the bitmap, and that every other data block holds zeros. -/

namespace OperatingSystems.Files.Sharing

open OperatingSystems.Lib.Naming OperatingSystems.Lib.Transition OperatingSystems.Lib.WeakestPre
  OperatingSystems.Lib.Words OperatingSystems.Pipes

/-! ### Places -/

/-- A place for a block number: `addrs[j]`, or the `j`th entry of the indirect block. -/
inductive Place where
  | addr (j : ℕ)
  | entry (j : ℕ)
  deriving DecidableEq

/-- The entry of the cache is a valid copy of the inode. -/
def Caches (s : Kernel) (i : ℕ) (x : Fin ninode) : Prop :=
  0 < (s.inode x).ref ∧ (s.inode x).valid = true ∧ (s.inode x).inum = i

instance (s : Kernel) (i : ℕ) (x : Fin ninode) : Decidable (Caches s i x) :=
  inferInstanceAs (Decidable (_ ∧ _ ∧ _))

/-- The entry of the cache for an inode, if it has a valid one. -/
def cached (s : Kernel) (i : ℕ) : Option (Fin ninode) := (List.finRange ninode).find? fun x => Caches s i x

/-- The addresses of an inode: those in the cache, if there is a valid copy, or those on the disk. -/
def addrs (s : Kernel) (i : ℕ) : ℕ → Word :=
  match cached s i with
  | some x => (s.inode x).addrs
  | none => (s.dinode i).addrs

/-- **What a place of an inode holds**: the number of a block, or 0. -/
def held (s : Kernel) : ℕ × Place → Word
  | (i, .addr j) => if i < s.sb.ninodes.toNat ∧ j ≤ ndirect then addrs s i j else 0#32
  | (i, .entry j) =>
    if i < s.sb.ninodes.toNat ∧ j < nindirect ∧ addrs s i ndirect ≠ 0#32 then
      word (s.block (addrs s i ndirect).toNat) (4 * j)
    else 0#32

/-- No two entries of the cache are for one inode, and all are for inodes of the disk. -/
structure CacheOk (s : Kernel) : Prop where
  inj : ∀ x y, 0 < (s.inode x).ref → 0 < (s.inode y).ref → (s.inode x).inum = (s.inode y).inum → x = y
  inum : ∀ x, 0 < (s.inode x).ref → (s.inode x).inum < s.sb.ninodes.toNat

/-- The disk has each address of a cached inode, or none in its place. -/
def DiskOk (s : Kernel) (i : ℕ) : Prop :=
  ∀ x, Caches s i x → ∀ j ≤ ndirect,
    (s.dinode i).addrs j = 0#32 ∨ (s.dinode i).addrs j = (s.inode x).addrs j

open Classical in
/-- What the places hold except those in `D`, which are about to be cleared. -/
noncomputable def heldBut (D : Set (ℕ × Place)) (s : Kernel) (p : ℕ × Place) : Word :=
  if p ∈ D then 0#32 else held s p

/-- The blocks are as they should be, except for the places in `D`. -/
structure SoundBut (D : Set (ℕ × Place)) (s : Kernel) : Prop where
  names : Exclusive (heldBut D s) fun w => s.bitmap w.toNat = true
  area : ∀ p, heldBut D s p ≠ 0#32 → s.sb.IsData (heldBut D s p).toNat
  zero : ∀ b, s.sb.IsData b → s.bitmap b = false → ∀ o < bsize, s.block b o = 0#8
  system : ∀ b < s.sb.start, s.bitmap b = true
  cache : CacheOk s

/-- **The invariant of the blocks.** -/
structure Sound (s : Kernel) : Prop where
  blocks : SoundBut ∅ s
  disk : ∀ i, DiskOk s i

theorem heldBut_of_mem {D : Set (ℕ × Place)} {s : Kernel} {p : ℕ × Place} (h : p ∈ D) :
    heldBut D s p = 0#32 := if_pos h

theorem heldBut_of_notMem {D : Set (ℕ × Place)} {s : Kernel} {p : ℕ × Place} (h : p ∉ D) :
    heldBut D s p = held s p := if_neg h

@[simp] theorem heldBut_empty {s : Kernel} : heldBut ∅ s = held s := by
  funext p
  exact heldBut_of_notMem (Set.notMem_empty p)

/-! ### The cache -/

section
variable {s t : Kernel} {D : Set (ℕ × Place)} {x : Fin ninode} {i j : ℕ}

theorem cached_eq_some (h : CacheOk s) (hx : Caches s i x) : cached s i = some x := by
  obtain ⟨y, hy⟩ : ∃ y, cached s i = some y := by
    refine Option.isSome_iff_exists.mp (List.find?_isSome.mpr ⟨x, List.mem_finRange x, ?_⟩)
    simpa using hx
  have hc : Caches s i y := by simpa using List.find?_some hy
  rw [hy, h.inj x y hx.1 hc.1 (hx.2.2.trans hc.2.2.symm)]

theorem cached_eq_none : cached s i = none ↔ ∀ x, ¬ Caches s i x := by
  simp [cached]

theorem addrs_of_caches (h : CacheOk s) (hx : Caches s i x) : addrs s i = (s.inode x).addrs := by
  rw [addrs, cached_eq_some h hx]

theorem addrs_of_not_caches (h : ∀ x, ¬ Caches s i x) : addrs s i = (s.dinode i).addrs := by
  rw [addrs, cached_eq_none.mpr h]

/-- Each address is that of the cache or that of the disk. -/
theorem addrs_cases (h : CacheOk s) (i : ℕ) :
    (∃ x, Caches s i x ∧ addrs s i = (s.inode x).addrs) ∨
      (∀ x, ¬ Caches s i x) ∧ addrs s i = (s.dinode i).addrs := by
  by_cases hx : ∃ x, Caches s i x
  · obtain ⟨x, hx⟩ := hx
    exact Or.inl ⟨x, hx, addrs_of_caches h hx⟩
  · exact Or.inr ⟨not_exists.mp hx, addrs_of_not_caches (not_exists.mp hx)⟩

theorem held_addr (hi : i < s.sb.ninodes.toNat) (hj : j ≤ ndirect) : held s (i, .addr j) = addrs s i j :=
  if_pos ⟨hi, hj⟩

theorem held_entry (hi : i < s.sb.ninodes.toNat) (hj : j < nindirect) (hne : addrs s i ndirect ≠ 0#32) :
    held s (i, .entry j) = word (s.block (addrs s i ndirect).toNat) (4 * j) := if_pos ⟨hi, hj, hne⟩

/-- The indirect block of an inode has a place. -/
theorem held_indirect (h : held s (i, .entry j) ≠ 0#32) :
    i < s.sb.ninodes.toNat ∧ j < nindirect ∧ addrs s i ndirect ≠ 0#32 ∧
      held s (i, .addr ndirect) = addrs s i ndirect := by
  by_cases hc : i < s.sb.ninodes.toNat ∧ j < nindirect ∧ addrs s i ndirect ≠ 0#32
  · exact ⟨hc.1, hc.2.1, hc.2.2, held_addr hc.1 le_rfl⟩
  · exact absurd (if_neg hc) h

end

/-! ### What changes keep -/

section
variable {s t : Kernel} {D D' : Set (ℕ × Place)} {x : Fin ninode} {i j : ℕ} {a : Word}

theorem CacheOk.of_imp (h : CacheOk s) (hsb : t.sb = s.sb)
    (hinode : ∀ x, 0 < (t.inode x).ref → 0 < (s.inode x).ref ∧ (t.inode x).inum = (s.inode x).inum) :
    CacheOk t := by
  refine ⟨fun x y hx hy hxy => ?_, fun x hx => ?_⟩
  · obtain ⟨hx', hxi⟩ := hinode x hx
    obtain ⟨hy', hyi⟩ := hinode y hy
    exact h.inj x y hx' hy' (hxi.symm.trans (hxy.trans hyi))
  · obtain ⟨hx', hxi⟩ := hinode x hx
    rw [hxi, hsb]
    exact h.inum x hx'

/-- Inodes lose addresses. -/
theorem held_forget (hsb : t.sb = s.sb) (hblock : t.block = s.block)
    (haddrs : ∀ i, ∀ j ≤ ndirect, addrs t i j = 0#32 ∨ addrs t i j = addrs s i j) (p : ℕ × Place) :
    held t p = 0#32 ∨ held t p = held s p := by
  obtain ⟨i, j | j⟩ := p
  · simp only [held, hsb]
    split_ifs with hc
    · exact haddrs i j hc.2
    · exact Or.inl rfl
  · by_cases hne : held t (i, .entry j) = 0#32
    · exact Or.inl hne
    · obtain ⟨hi, hj, hind, -⟩ := held_indirect hne
      have heq := (haddrs i ndirect le_rfl).resolve_left hind
      rw [held_entry hi hj hind, heq, hblock, held_entry (hsb ▸ hi) hj (heq ▸ hind)]
      exact Or.inr rfl

/-- Places forget their blocks. -/
theorem SoundBut.forget (h : SoundBut D s) (hsb : t.sb = s.sb) (hbitmap : t.bitmap = s.bitmap)
    (hblock : t.block = s.block)
    (hheld : ∀ p, heldBut D' t p = 0#32 ∨ heldBut D' t p = heldBut D s p) (hc : CacheOk t) :
    SoundBut D' t := by
  refine ⟨h.names.forget hheld fun w hw => hbitmap ▸ hw, fun p hp => ?_, ?_, ?_, hc⟩
  · have heq := (hheld p).resolve_left hp
    rw [hsb, heq]
    exact h.area p (heq ▸ hp)
  · rw [hsb, hbitmap, hblock]
    exact h.zero
  · rw [hsb, hbitmap]
    exact h.system

theorem SoundBut.forget_addrs (h : SoundBut ∅ s) (hsb : t.sb = s.sb) (hbitmap : t.bitmap = s.bitmap)
    (hblock : t.block = s.block)
    (haddrs : ∀ i, ∀ j ≤ ndirect, addrs t i j = 0#32 ∨ addrs t i j = addrs s i j) (hc : CacheOk t) :
    SoundBut ∅ t := by
  refine h.forget hsb hbitmap hblock ?_ hc
  simp only [heldBut_empty]
  exact held_forget hsb hblock haddrs

/-- The number of a free block that no place has. -/
structure Fresh (s : Kernel) (a : Word) : Prop where
  data : s.sb.IsData a.toNat
  used : s.bitmap a.toNat = true
  unheld : ∀ p, held s p ≠ a
  zero : ∀ o < bsize, s.block a.toNat o = 0#8

theorem Fresh.ne_zero (h : Fresh s a) : a ≠ 0#32 := by
  rintro rfl
  have := h.data.1
  simp [Superblock.start] at this

/-- A place takes a fresh block. -/
theorem SoundBut.take (h : SoundBut ∅ s) (ha : Fresh s a) {p : ℕ × Place} (hsb : t.sb = s.sb)
    (hbitmap : t.bitmap = s.bitmap)
    (hzero : ∀ b, s.bitmap b = false → t.block b = s.block b) (hp : held t p = a)
    (hother : ∀ q, q ≠ p → held t q = 0#32 ∨ held t q = held s q) (hc : CacheOk t) : SoundBut ∅ t := by
  have hnames := h.names
  simp only [heldBut_empty] at hnames
  refine ⟨?_, fun q hq => ?_, fun b hb hfree => ?_, ?_, hc⟩
  · simp only [heldBut_empty]
    exact hnames.take ha.unheld hp hother (fun w hw => hbitmap ▸ hw) (hbitmap ▸ ha.used)
  · rw [heldBut_empty] at hq ⊢
    rw [hsb]
    by_cases hqp : q = p
    · rw [hqp, hp]
      exact ha.data
    · have heq := (hother q hqp).resolve_left hq
      have harea := h.area q
      rw [heldBut_empty, ← heq] at harea
      exact harea hq
  · rw [hsb] at hb
    rw [hbitmap] at hfree
    rw [hzero b hfree]
    exact h.zero b hb hfree
  · rw [hsb, hbitmap]
    exact h.system

/-- An entry of the cache is edited; it stays that of its inode. -/
structure Edits (s t : Kernel) (x : Fin ninode) (c : Inode) : Prop where
  inode : t.inode = Function.update s.inode x c
  sb : t.sb = s.sb
  dinode : t.dinode = s.dinode
  ref : 0 < c.ref ↔ 0 < (s.inode x).ref
  valid : c.valid = (s.inode x).valid
  inum : c.inum = (s.inode x).inum

variable {c : Inode}

theorem Edits.of_modify (href : 0 < c.ref ↔ 0 < (s.inode x).ref) (hvalid : c.valid = (s.inode x).valid)
    (hinum : c.inum = (s.inode x).inum) :
    Edits s { s with inode := Function.update s.inode x c } x c :=
  ⟨rfl, rfl, rfl, href, hvalid, hinum⟩

theorem Edits.inode_eq (h : Edits s t x c) (y : Fin ninode) : (0 < (t.inode y).ref ↔ 0 < (s.inode y).ref) ∧
    (t.inode y).valid = (s.inode y).valid ∧ (t.inode y).inum = (s.inode y).inum := by
  rw [h.inode]
  by_cases hyx : y = x
  · subst hyx
    rw [Function.update_self]
    exact ⟨h.ref, h.valid, h.inum⟩
  · rw [Function.update_of_ne hyx]
    exact ⟨Iff.rfl, rfl, rfl⟩

theorem Edits.cacheOk (h : Edits s t x c) (hc : CacheOk s) : CacheOk t :=
  hc.of_imp h.sb fun y hy => ⟨(h.inode_eq y).1.mp hy, (h.inode_eq y).2.2⟩

theorem Edits.caches (h : Edits s t x c) (k : ℕ) (y : Fin ninode) : Caches t k y ↔ Caches s k y := by
  obtain ⟨href, hvalid, hinum⟩ := h.inode_eq y
  unfold Caches
  rw [href, hvalid, hinum]

/-- The addresses of the inode are those of the new entry, and no others change. -/
theorem Edits.addrs (h : Edits s t x c) (hc : CacheOk s) (hx : Caches s i x) (k : ℕ) :
    addrs t k = if k = i then c.addrs else addrs s k := by
  by_cases hk : k = i
  · subst hk
    rw [if_pos rfl, addrs_of_caches (h.cacheOk hc) ((h.caches k x).mpr hx), h.inode, Function.update_self]
  · rw [if_neg hk]
    rcases addrs_cases hc k with ⟨y, hy, heq⟩ | ⟨hnone, heq⟩
    · have hyx : y ≠ x := by
        rintro rfl
        exact hk (hy.2.2.symm.trans hx.2.2)
      rw [heq, addrs_of_caches (h.cacheOk hc) ((h.caches k y).mpr hy), h.inode, Function.update_of_ne hyx]
    · rw [heq, addrs_of_not_caches fun y hy => hnone y ((h.caches k y).mp hy), h.dinode]

/-- Edits of anything but the addresses. -/
theorem Edits.addrs_eq (h : Edits s t x c) (hc : CacheOk s) (hip : c.addrs = (s.inode x).addrs) (k : ℕ) :
    Sharing.addrs t k = Sharing.addrs s k := by
  by_cases hx : ∃ i, Caches s i x
  · obtain ⟨i, hx⟩ := hx
    rw [h.addrs hc hx]
    split_ifs with hk
    · rw [hip, hk, addrs_of_caches hc hx]
    · rfl
  · have hne : ∀ k y, Caches s k y → y ≠ x := by
      rintro k y hy rfl
      exact hx ⟨k, hy⟩
    rcases addrs_cases hc k with ⟨y, hy, heq⟩ | ⟨hnone, heq⟩
    · rw [heq, addrs_of_caches (h.cacheOk hc) ((h.caches k y).mpr hy), h.inode,
        Function.update_of_ne (hne k y hy)]
    · rw [heq, addrs_of_not_caches fun y hy => hnone y ((h.caches k y).mp hy), h.dinode]

theorem Edits.diskOk (h : Edits s t x c) (hip : c.addrs = (s.inode x).addrs) (hd : DiskOk s i) :
    DiskOk t i := by
  intro y hy j hj
  have hy' := hd y ((h.caches i y).mp hy) j hj
  rw [h.dinode, h.inode]
  by_cases hyx : y = x
  · subst hyx
    rwa [Function.update_self, hip]
  · rwa [Function.update_of_ne hyx]

theorem Edits.soundBut (h : Edits s t x c) (hip : c.addrs = (s.inode x).addrs)
    (hbitmap : t.bitmap = s.bitmap) (hblock : t.block = s.block) (hs : SoundBut ∅ s) : SoundBut ∅ t :=
  hs.forget_addrs h.sb hbitmap hblock (fun k j _ => Or.inr (by rw [h.addrs_eq hs.cache hip]))
    (h.cacheOk hs.cache)

theorem Edits.sound (h : Edits s t x c) (hip : c.addrs = (s.inode x).addrs)
    (hbitmap : t.bitmap = s.bitmap) (hblock : t.block = s.block) (hs : Sound s) : Sound t :=
  ⟨h.soundBut hip hbitmap hblock hs.blocks, fun k => h.diskOk hip (hs.disk k)⟩

/-- **An inode takes a fresh block** for an address that it does not have. -/
theorem Sound.setAddr (h : Sound s) (ha : Fresh s a) (hx : Caches s i x) (hj : j ≤ ndirect)
    (h0 : addrs s i j = 0#32)
    (ht : t = { s with
      inode := Function.update s.inode x
        { s.inode x with addrs := Function.update (s.inode x).addrs j a } }) :
    Sound t ∧ Caches t i x ∧ held t (i, .addr j) = a ∧
      addrs t i = Function.update (addrs s i) j a := by
  have hc := h.blocks.cache
  have hinode : t.inode = Function.update s.inode x
      { s.inode x with addrs := Function.update (s.inode x).addrs j a } := by rw [ht]
  have he : Edits s t x _ := ⟨hinode, by rw [ht], by rw [ht], Iff.rfl, rfl, rfl⟩
  have haddrs := he.addrs hc hx
  have hblock : t.block = s.block := by rw [ht]
  have hi : i < s.sb.ninodes.toNat := hx.2.2 ▸ hc.inum x hx.1
  have hself : addrs t i = Function.update (addrs s i) j a := by
    rw [haddrs i, if_pos rfl, addrs_of_caches hc hx]
  have hheld : held t (i, .addr j) = a := by
    rw [held_addr (he.sb ▸ hi) hj, hself, Function.update_self]
  refine ⟨⟨h.blocks.take ha (p := (i, .addr j)) he.sb (by rw [ht]) (fun b _ => by rw [hblock]) hheld ?_
    (he.cacheOk hc), fun k y hy l hl => ?_⟩, (he.caches i x).mpr hx, hheld, hself⟩
  · rintro ⟨k, l | l⟩ hne
    · refine Or.inr ?_
      simp only [held, he.sb]
      by_cases hk : k = i
      · subst hk
        have hlj : l ≠ j := fun hlj => hne (by rw [hlj])
        rw [hself, Function.update_of_ne hlj]
      · rw [haddrs k, if_neg hk]
    · simp only [held, he.sb, hblock]
      by_cases hk : k = i
      · subst hk
        by_cases hjn : j = ndirect
        · -- the entries of a fresh block are zero
          subst hjn
          refine Or.inl ?_
          rw [hself, Function.update_self]
          split_ifs with hcond
          · refine word_zero fun o _ ho => ha.zero o ?_
            have := hcond.2.1
            unfold nindirect at this
            unfold bsize
            omega
          · rfl
        · refine Or.inr ?_
          rw [hself, Function.update_of_ne (Ne.symm hjn)]
      · rw [haddrs k, if_neg hk]
        exact Or.inr rfl
  · have hy' := (he.caches k y).mp hy
    rw [he.dinode, hinode]
    by_cases hyx : y = x
    · subst hyx
      obtain rfl : k = i := hy'.2.2.symm.trans hx.2.2
      rw [Function.update_self]
      have hdisk := h.disk k y hx l hl
      by_cases hlj : l = j
      · subst hlj
        rw [addrs_of_caches hc hx] at h0
        rw [h0, or_self] at hdisk
        exact Or.inl hdisk
      · simpa only [Function.update_of_ne hlj] using hdisk
    · rw [Function.update_of_ne hyx]
      exact h.disk k y hy' l hl

/-- The cache is not changed. -/
theorem addrs_congr (hinode : t.inode = s.inode) (hdinode : t.dinode = s.dinode) (k : ℕ) :
    addrs t k = addrs s k := by
  cases s
  cases t
  cases hinode
  cases hdinode
  rfl

theorem DiskOk.of_eq (h : DiskOk s i) (hinode : t.inode = s.inode) (hdinode : t.dinode = s.dinode) :
    DiskOk t i := by
  simpa only [DiskOk, Caches, hinode, hdinode] using h

theorem CacheOk.of_inode_eq (h : CacheOk s) (hsb : t.sb = s.sb) (hinode : t.inode = s.inode) :
    CacheOk t := h.of_imp hsb fun _ hx => by rw [hinode] at hx ⊢; exact ⟨hx, rfl⟩

/-- **An indirect block takes a fresh block** for an entry that it does not have. -/
theorem Sound.setEntry (h : Sound s) (ha : Fresh s a) (hx : Caches s i x) (hj : j < nindirect)
    (hind : addrs s i ndirect ≠ 0#32)
    (ht : t = { s with
      block := Function.update s.block (addrs s i ndirect).toNat
        (setWord (s.block (addrs s i ndirect).toNat) (4 * j) a) }) :
    Sound t ∧ Caches t i x ∧ held t (i, .entry j) = a := by
  have hc := h.blocks.cache
  have hi : i < s.sb.ninodes.toNat := hx.2.2 ▸ hc.inum x hx.1
  have haddrs : ∀ k, addrs t k = addrs s k := addrs_congr (by rw [ht]) (by rw [ht])
  have hsb : t.sb = s.sb := by rw [ht]
  have hiind : held s (i, .addr ndirect) = addrs s i ndirect := held_addr hi le_rfl
  have hheld : held t (i, .entry j) = a := by
    rw [held_entry (hsb ▸ hi) hj (by rwa [haddrs]), haddrs, ht]
    dsimp only
    rw [Function.update_self, word_setWord_self]
  have hused : s.bitmap (addrs s i ndirect).toNat = true := by
    have := h.blocks.names.used (i, .addr ndirect)
    rw [heldBut_empty, hiind] at this
    exact this hind
  refine ⟨⟨h.blocks.take ha (p := (i, .entry j)) hsb (by rw [ht]) (fun b hb => ?_) hheld ?_
    (hc.of_inode_eq hsb (by rw [ht])), fun k => (h.disk k).of_eq (by rw [ht]) (by rw [ht])⟩, ?_, hheld⟩
  · have hne : b ≠ (addrs s i ndirect).toNat := by
      rintro rfl
      rw [hused] at hb
      cases hb
    rw [ht]
    exact Function.update_of_ne hne ..
  · rintro ⟨k, l | l⟩ hne
    · simp only [held, haddrs, hsb, or_true]
    · refine Or.inr ?_
      simp only [held, haddrs, hsb]
      split_ifs with hcond
      · rw [ht]
        dsimp only
        by_cases hsame : (addrs s k ndirect).toNat = (addrs s i ndirect).toNat
        · rw [hsame, Function.update_self]
          have hki : k = i := by
            have hinj := h.blocks.names.inj (k, .addr ndirect) (i, .addr ndirect)
            rw [heldBut_empty, hiind, held_addr hcond.1 le_rfl] at hinj
            exact (Prod.mk.inj (hinj hcond.2.2 (BitVec.eq_of_toNat_eq hsame))).1
          subst hki
          have hlj : l ≠ j := fun hlj => hne (by rw [hlj])
          rw [word_setWord_of_disjoint (by omega)]
        · rw [Function.update_of_ne hsame]
      · rfl
  · rw [Caches, ht]
    exact hx

/-- **Data is written** to a block that has a place, other than an indirect block. -/
theorem Sound.setData (h : Sound s) {p : ℕ × Place} (hp : held s p ≠ 0#32) (hind : ∀ k, p ≠ (k, .addr ndirect))
    {data : ℕ → Byte} (ht : t = { s with block := Function.update s.block (held s p).toNat data }) :
    Sound t := by
  have hsb : t.sb = s.sb := by rw [ht]
  have hbitmap : t.bitmap = s.bitmap := by rw [ht]
  have haddrs : ∀ k, addrs t k = addrs s k := addrs_congr (by rw [ht]) (by rw [ht])
  have hheld : held t = held s := by
    funext q
    obtain ⟨k, l | l⟩ := q
    · simp only [held, haddrs, hsb]
    · simp only [held, haddrs, hsb]
      split_ifs with hcond
      · have hinj := h.blocks.names.inj (k, .addr ndirect) p
        rw [heldBut_empty, held_addr hcond.1 le_rfl] at hinj
        have hne : (addrs s k ndirect).toNat ≠ (held s p).toNat := fun heq =>
          hind k (hinj hcond.2.2 (BitVec.eq_of_toNat_eq heq)).symm
        rw [ht]
        dsimp only
        rw [Function.update_of_ne hne]
      · rfl
  have hused := h.blocks.names.used p
  rw [heldBut_empty] at hused
  refine ⟨⟨?_, ?_, fun b hb hfree => ?_, ?_, h.blocks.cache.of_inode_eq hsb (by rw [ht])⟩,
    fun k => (h.disk k).of_eq (by rw [ht]) (by rw [ht])⟩
  · rw [heldBut_empty, hheld, hbitmap, ← heldBut_empty]
    exact h.blocks.names
  · rw [heldBut_empty, hheld, hsb, ← heldBut_empty]
    exact h.blocks.area
  · rw [hsb] at hb
    rw [hbitmap] at hfree
    have hne : b ≠ (held s p).toNat := by
      rintro rfl
      rw [hused hp] at hfree
      cases hfree
    rw [ht]
    dsimp only
    rw [Function.update_of_ne hne]
    exact h.blocks.zero b hb hfree
  · rw [hsb, hbitmap]
    exact h.blocks.system

/-- **A block is freed**, and its place is about to be cleared. -/
theorem SoundBut.free (h : SoundBut D s) {p : ℕ × Place} (hpD : p ∉ D) (hp : held s p ≠ 0#32)
    (ht : t = { s with
      block := Function.update s.block (held s p).toNat fun _ => 0#8
      bitmap := Function.update s.bitmap (held s p).toNat false }) :
    SoundBut (insert p D) t := by
  have hsb : t.sb = s.sb := by rw [ht]
  have haddrs : ∀ k, addrs t k = addrs s k := addrs_congr (by rw [ht]) (by rw [ht])
  have hheld : ∀ q, held t q = 0#32 ∨ held t q = held s q := by
    rintro ⟨k, l | l⟩
    · simp only [held, haddrs, hsb, or_true]
    · simp only [held, haddrs, hsb]
      split_ifs with hcond
      · rw [ht]
        dsimp only
        by_cases hsame : (addrs s k ndirect).toNat = (held s p).toNat
        · rw [hsame, Function.update_self]
          exact Or.inl (word_zero fun _ _ _ => rfl)
        · rw [Function.update_of_ne hsame]
          exact Or.inr rfl
      · exact Or.inl rfl
  have hbut : ∀ q, q ≠ p → heldBut (insert p D) t q = 0#32 ∨ heldBut (insert p D) t q = heldBut D s q := by
    intro q hqp
    by_cases hq : q ∈ D
    · exact Or.inl (heldBut_of_mem (Set.mem_insert_of_mem p hq))
    · rw [heldBut_of_notMem hq, heldBut_of_notMem fun hq' => hq'.elim hqp hq]
      exact hheld q
  have hself : heldBut (insert p D) t p = 0#32 := heldBut_of_mem (Set.mem_insert p D)
  have hps : heldBut D s p = held s p := heldBut_of_notMem hpD
  have hdata := h.area p
  rw [hps] at hdata
  refine ⟨h.names.drop hself hbut fun w hw hne => ?_, fun q hq => ?_, fun b hb hfree => ?_, fun b hb => ?_,
    h.cache.of_inode_eq hsb (by rw [ht])⟩
  · rw [hps] at hne
    rw [ht]
    dsimp only
    rwa [Function.update_of_ne fun heq => hne (BitVec.eq_of_toNat_eq heq)]
  · have hqp : q ≠ p := fun hqp => hq (hqp ▸ hself)
    have heq := (hbut q hqp).resolve_left hq
    rw [hsb, heq]
    exact h.area q (heq ▸ hq)
  · rw [hsb] at hb
    rw [ht] at hfree ⊢
    dsimp only at hfree ⊢
    by_cases hbp : b = (held s p).toNat
    · rw [hbp, Function.update_self]
      exact fun _ _ => rfl
    · rw [Function.update_of_ne hbp] at hfree ⊢
      exact h.zero b hb hfree
  · rw [hsb] at hb
    have hbp : b ≠ (held s p).toNat := by
      rintro rfl
      exact absurd (hdata hp).1 (not_le.mpr hb)
    rw [ht]
    dsimp only
    rw [Function.update_of_ne hbp]
    exact h.system b hb

/-- **The place of a freed block is cleared**, with all that hangs on it. -/
theorem SoundBut.clear (h : SoundBut D s) (hx : Caches s i x) (hj : j ≤ ndirect)
    (hD : ∀ q ∈ D, q = (i, .addr j) ∨ j = ndirect ∧ ∃ l, q = (i, .entry l))
    (ht : t = { s with
      inode := Function.update s.inode x
        { s.inode x with addrs := Function.update (s.inode x).addrs j 0#32 } }) :
    SoundBut ∅ t ∧ Caches t i x := by
  have hc := h.cache
  have he : Edits s t x { s.inode x with addrs := Function.update (s.inode x).addrs j 0#32 } :=
    ⟨by rw [ht], by rw [ht], by rw [ht], Iff.rfl, rfl, rfl⟩
  have hself : addrs t i = Function.update (addrs s i) j 0#32 := by
    rw [he.addrs hc hx, if_pos rfl, addrs_of_caches hc hx]
  have haddrs : ∀ k, ∀ l ≤ ndirect, addrs t k l = 0#32 ∨ addrs t k l = addrs s k l := by
    intro k l _
    by_cases hk : k = i
    · subst hk
      rw [hself]
      by_cases hl : l = j
      · rw [hl, Function.update_self]
        exact Or.inl rfl
      · rw [Function.update_of_ne hl]
        exact Or.inr rfl
    · rw [he.addrs hc hx, if_neg hk]
      exact Or.inr rfl
  refine ⟨h.forget he.sb (by rw [ht]) (by rw [ht]) (fun q => ?_) (he.cacheOk hc), (he.caches i x).mpr hx⟩
  rw [heldBut_empty]
  by_cases hq : q ∈ D
  · refine Or.inl ?_
    rcases hD q hq with rfl | ⟨rfl, l, rfl⟩
    · simp only [held, hself, Function.update_self, ite_self]
    · simp only [held, hself, Function.update_self, ne_eq, not_true, and_false, if_false]
  · rw [heldBut_of_notMem hq]
    exact held_forget he.sb (by rw [ht]) haddrs q

/-- The disk gets the copy of the cache. -/
theorem SoundBut.update (h : SoundBut ∅ s) (hx : Caches s i x) (hdisk : ∀ k, k ≠ i → DiskOk s k)
    (ht : t = { s with dinode := Function.update s.dinode i (s.inode x).toDinode }) : Sound t := by
  have hc := h.cache
  have hcaches : ∀ k y, Caches t k y ↔ Caches s k y := fun k y => by rw [ht]; rfl
  have hinode : t.inode = s.inode := by rw [ht]
  have hct : CacheOk t := hc.of_inode_eq (by rw [ht]) hinode
  have haddrs : ∀ k, addrs t k = addrs s k := by
    intro k
    by_cases hk : k = i
    · subst hk
      rw [addrs_of_caches hct ((hcaches k x).mpr hx), addrs_of_caches hc hx, hinode]
    · rcases addrs_cases hc k with ⟨y, hy, heq⟩ | ⟨hnone, heq⟩
      · rw [heq, addrs_of_caches hct ((hcaches k y).mpr hy), hinode]
      · rw [heq, addrs_of_not_caches fun y hy => hnone y ((hcaches k y).mp hy), ht]
        dsimp only
        rw [Function.update_of_ne hk]
  refine ⟨h.forget_addrs (by rw [ht]) (by rw [ht]) (by rw [ht]) (fun k j _ => Or.inr (by rw [haddrs])) hct,
    fun k y hy j hj => ?_⟩
  have hy' := (hcaches k y).mp hy
  rw [hinode, ht]
  dsimp only
  by_cases hk : k = i
  · subst hk
    rw [Function.update_self, hc.inj y x hy'.1 hx.1 (hy'.2.2.trans hx.2.2.symm)]
    exact Or.inr rfl
  · rw [Function.update_of_ne hk]
    exact hdisk k hk y hy' j hj

/-- **The cache changes**: it keeps a copy, has it from the disk, or loses it. -/
theorem Sound.recache (h : Sound s) (hc : CacheOk t)
    (hcopy : ∀ k y, Caches t k y → Caches s k y ∧ (t.inode y).addrs = (s.inode y).addrs ∨
      (t.inode y).addrs = (s.dinode k).addrs)
    (ht : t = { s with inode := t.inode }) : Sound t := by
  have hdinode : t.dinode = s.dinode := by rw [ht]
  -- the disk has what the kernel has, or nothing
  have hdisk : ∀ k, ∀ j ≤ ndirect, (s.dinode k).addrs j = 0#32 ∨ (s.dinode k).addrs j = addrs s k j := by
    intro k j hj
    rcases addrs_cases h.blocks.cache k with ⟨y, hy, heq⟩ | ⟨-, heq⟩
    · rw [heq]
      exact h.disk k y hy j hj
    · rw [heq]
      exact Or.inr rfl
  refine ⟨h.blocks.forget_addrs (by rw [ht]) (by rw [ht]) (by rw [ht]) (fun k j hj => ?_) hc,
    fun k y hy j hj => ?_⟩
  · rcases addrs_cases hc k with ⟨y, hy, heq⟩ | ⟨-, heq⟩
    · rw [heq]
      rcases hcopy k y hy with ⟨hy', hsame⟩ | hsame
      · rw [hsame, addrs_of_caches h.blocks.cache hy']
        exact Or.inr rfl
      · rw [hsame]
        exact hdisk k j hj
    · rw [heq, hdinode]
      exact hdisk k j hj
  · rw [hdinode]
    rcases hcopy k y hy with ⟨hy', hsame⟩ | hsame
    · rw [hsame]
      exact h.disk k y hy' j hj
    · rw [hsame]
      exact Or.inr rfl

/-- A copy leaves the cache. -/
theorem Sound.leave (h : Sound s) (hinum : 0 < c.ref → 0 < (s.inode x).ref ∧ c.inum = (s.inode x).inum)
    (hout : 0 < c.ref → c.valid = false)
    (ht : t = { s with inode := Function.update s.inode x c }) : Sound t := by
  have hinode : t.inode = Function.update s.inode x c := by rw [ht]
  refine h.recache (h.blocks.cache.of_imp (by rw [ht]) fun y hy => ?_) (fun k y hy => ?_) (by rw [ht])
  · rw [hinode] at hy ⊢
    by_cases hyx : y = x
    · subst hyx
      rw [Function.update_self] at hy ⊢
      exact hinum hy
    · rw [Function.update_of_ne hyx] at hy ⊢
      exact ⟨hy, rfl⟩
  · rw [Caches, hinode] at hy
    rw [hinode]
    by_cases hyx : y = x
    · subst hyx
      rw [Function.update_self] at hy
      obtain ⟨href, hvalid, -⟩ := hy
      exact absurd ((hout href).symm.trans hvalid) (by decide)
    · rw [Function.update_of_ne hyx] at hy ⊢
      exact Or.inl ⟨hy, rfl⟩

/-- An entry of the cache that nobody uses is given to an inode. -/
theorem Sound.enter (h : Sound s) (hv : c.valid = false)
    (hnew : ∀ y, 0 < (s.inode y).ref → (s.inode y).inum ≠ c.inum) (hlt : c.inum < s.sb.ninodes.toNat)
    (ht : t = { s with inode := Function.update s.inode x c }) : Sound t := by
  have hc := h.blocks.cache
  have hinode : t.inode = Function.update s.inode x c := by rw [ht]
  have hcases : ∀ y, y = x ∧ t.inode y = c ∨ y ≠ x ∧ t.inode y = s.inode y := by
    intro y
    rw [hinode]
    by_cases hyx : y = x
    · subst hyx
      exact Or.inl ⟨rfl, Function.update_self ..⟩
    · exact Or.inr ⟨hyx, Function.update_of_ne hyx ..⟩
  refine h.recache ⟨fun y z hy hz hyz => ?_, fun y hy => ?_⟩ (fun k y hy => ?_) (by rw [ht])
  · rcases hcases y with ⟨hyx, heq⟩ | ⟨-, heq⟩ <;> rcases hcases z with ⟨hzx, heq'⟩ | ⟨-, heq'⟩
    · rw [hyx, hzx]
    · rw [heq'] at hz
      rw [heq, heq'] at hyz
      exact absurd hyz.symm (hnew z hz)
    · rw [heq] at hy
      rw [heq, heq'] at hyz
      exact absurd hyz (hnew y hy)
    · rw [heq] at hy
      rw [heq'] at hz
      rw [heq, heq'] at hyz
      exact hc.inj y z hy hz hyz
  · have hsb : t.sb = s.sb := by rw [ht]
    rw [hsb]
    rcases hcases y with ⟨-, heq⟩ | ⟨-, heq⟩ <;> rw [heq] at hy ⊢
    · exact hlt
    · exact hc.inum y hy
  · rw [Caches] at hy
    rcases hcases y with ⟨-, heq⟩ | ⟨-, heq⟩ <;> rw [heq] at hy ⊢
    · exact absurd (hv.symm.trans hy.2.1) (by decide)
    · exact Or.inl ⟨hy, rfl⟩

/-- An entry of the cache gets the copy of the disk. -/
theorem Sound.load (h : Sound s) (hx : 0 < (s.inode x).ref)
    (hip : 0 < c.ref ∧ c.inum = (s.inode x).inum ∧ c.addrs = (s.dinode (s.inode x).inum).addrs)
    (ht : t = { s with inode := Function.update s.inode x c }) : Sound t := by
  have hinode : t.inode = Function.update s.inode x c := by rw [ht]
  refine h.recache (h.blocks.cache.of_imp (by rw [ht]) fun y hy => ?_) (fun k y hy => ?_) (by rw [ht])
  · rw [hinode] at hy ⊢
    by_cases hyx : y = x
    · subst hyx
      rw [Function.update_self]
      exact ⟨hx, hip.2.1⟩
    · rw [Function.update_of_ne hyx] at hy ⊢
      exact ⟨hy, rfl⟩
  · rw [Caches, hinode] at hy
    rw [hinode]
    by_cases hyx : y = x
    · subst hyx
      rw [Function.update_self] at hy ⊢
      rw [hip.2.2, ← hip.2.1, hy.2.2]
      exact Or.inr rfl
    · rw [Function.update_of_ne hyx] at hy ⊢
      exact Or.inl ⟨hy, rfl⟩

end

/-- A free inode of the disk is cleared. -/
theorem Sound.clearInode {s : Kernel} (h : Sound s) (i : ℕ) (type : Short) :
    Sound { s with dinode := Function.update s.dinode i (cleared type) } := by
  have hc := h.blocks.cache
  have hct : CacheOk { s with dinode := Function.update s.dinode i (cleared type) } := hc.of_inode_eq rfl rfl
  refine ⟨h.blocks.forget_addrs rfl rfl rfl (fun k j _ => ?_) hct, fun k y hy j hj => ?_⟩
  · rcases addrs_cases hc k with ⟨y, hy, heq⟩ | ⟨hnone, heq⟩
    · rw [heq, addrs_of_caches hct (x := y) hy]
      exact Or.inr rfl
    · rw [heq, addrs_of_not_caches (s := { s with dinode := Function.update s.dinode i (cleared type) }) hnone]
      dsimp only
      by_cases hk : k = i
      · subst hk
        rw [Function.update_self]
        exact Or.inl rfl
      · rw [Function.update_of_ne hk]
        exact Or.inr rfl
  · dsimp only
    by_cases hk : k = i
    · subst hk
      rw [Function.update_self]
      exact Or.inl rfl
    · rw [Function.update_of_ne hk]
      exact h.disk k y hy j hj

/-- A block is marked. -/
theorem Sound.mark {s : Kernel} (h : Sound s) (b : ℕ) :
    Sound { s with bitmap := Function.update s.bitmap b true } := by
  have hmono : ∀ c, s.bitmap c = true → Function.update s.bitmap b true c = true := by
    intro c hc
    by_cases hcb : c = b
    · rw [hcb, Function.update_self]
    · rwa [Function.update_of_ne hcb]
  refine ⟨⟨?_, h.blocks.area, fun c hc hfree => ?_, fun c hc => hmono c (h.blocks.system c hc),
    h.blocks.cache.of_inode_eq rfl rfl⟩, h.disk⟩
  · exact h.blocks.names.forget (fun _ => Or.inr rfl) fun w => hmono w.toNat
  · refine h.blocks.zero c hc ?_
    by_contra hused
    have := hmono c (by simpa using hused)
    exact absurd (hfree.symm.trans this) (by decide)

/-- The disk and the cache are the same. -/
structure SameDisk (s t : Kernel) : Prop where
  sb : t.sb = s.sb
  bitmap : t.bitmap = s.bitmap
  dinode : t.dinode = s.dinode
  block : t.block = s.block
  inode : t.inode = s.inode
  full : t.full = s.full

theorem SameDisk.refl (s : Kernel) : SameDisk s s := ⟨rfl, rfl, rfl, rfl, rfl, rfl⟩

theorem SameDisk.trans {s t u : Kernel} (h : SameDisk s t) (h' : SameDisk t u) : SameDisk s u :=
  ⟨h'.sb.trans h.sb, h'.bitmap.trans h.bitmap, h'.dinode.trans h.dinode, h'.block.trans h.block,
    h'.inode.trans h.inode, h'.full.trans h.full⟩

theorem SameDisk.addrs {s t : Kernel} (h : SameDisk s t) (k : ℕ) : addrs t k = addrs s k :=
  addrs_congr h.inode h.dinode k

theorem SameDisk.caches {s t : Kernel} (h : SameDisk s t) {i : ℕ} {x : Fin ninode} (hx : Caches s i x) :
    Caches t i x := by
  rwa [Caches, h.inode]

theorem SameDisk.held {s t : Kernel} (h : SameDisk s t) : held t = held s := by
  funext p
  obtain ⟨k, l | l⟩ := p <;> simp only [Sharing.held, h.addrs, h.sb, h.block]

theorem SameDisk.sound {s t : Kernel} (h : SameDisk s t) (hs : Sound s) : Sound t := by
  refine ⟨hs.blocks.forget h.sb h.bitmap h.block (fun p => ?_) (hs.blocks.cache.of_inode_eq h.sb h.inode),
    fun k => (hs.disk k).of_eq h.inode h.dinode⟩
  rw [heldBut_empty, heldBut_empty, h.held]
  exact Or.inr rfl

end OperatingSystems.Files.Sharing
