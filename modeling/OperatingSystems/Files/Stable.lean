import OperatingSystems.Files.FileBytes

/-! # Between the calls

`Settled` says that the disk has everything that the cache has, that a file has the blocks up to its size and
only zeros after it, and that a marked block has a place. Every call leaves it so. -/

namespace OperatingSystems.Files.Stable

open OperatingSystems.Files.Allocation OperatingSystems.Files.FileBytes OperatingSystems.Files.Runs
  OperatingSystems.Files.Sharing OperatingSystems.Lib.Splice OperatingSystems.Lib.WeakestPre
  OperatingSystems.Lib.Words OperatingSystems.Pipes

/-- The size of a file. -/
def fileSize (s : Kernel) (i : ℕ) : ℕ := (s.dinode i).size.toNat

/-! ### What the calls can tell -/

/-- A file. -/
@[ext] structure Stored where
  type : Short
  major : Short
  minor : Short
  nlink : Short
  size : ℕ
  byte : ℕ → Byte

def stored (s : Kernel) (i : ℕ) : Stored :=
  ⟨(s.dinode i).type, (s.dinode i).major, (s.dinode i).minor, (s.dinode i).nlink, fileSize s i, byteAt s i⟩

/-- An entry of the cache, without its copy of the inode. -/
structure Handle where
  inum : ℕ
  ref : ℕ
  busy : Bool
  valid : Bool

def handle (s : Kernel) (x : Fin ninode) : Handle :=
  ⟨(s.inode x).inum, (s.inode x).ref, (s.inode x).busy, (s.inode x).valid⟩

/-- **What the calls can tell**: the files, the references to them, and the memory of the process. -/
@[ext] structure View where
  ninodes : ℕ
  file : ℕ → Stored
  handle : Fin ninode → Handle
  user : ℕ → Byte

def view (s : Kernel) : View := ⟨s.sb.ninodes.toNat, stored s, handle s, s.user⟩

/-- A file has changed. -/
def View.setFile (v : View) (i : ℕ) (f : Stored) : View := { v with file := Function.update v.file i f }

/-- An entry of the cache has changed. -/
def View.setHandle (v : View) (x : Fin ninode) (c : Handle) : View :=
  { v with handle := Function.update v.handle x c }

@[simp] theorem View.setFile_self (v : View) (i : ℕ) : v.setFile i (v.file i) = v := by
  simp [View.setFile]

/-! ### The invariant -/

/-- The cache agrees with the disk. -/
structure Synced (s : Kernel) : Prop where
  copy : ∀ i x, Caches s i x → (s.inode x).toDinode = s.dinode i
  type : ∀ i x, Caches s i x → (s.dinode i).type ≠ 0#16

/-- The files are as their sizes say, and no block is lost. -/
structure Whole (s : Kernel) : Prop where
  size : ∀ i < s.sb.ninodes.toNat, fileSize s i ≤ maxfile * bsize
  blocks : ∀ i < s.sb.ninodes.toNat, ∀ k < fileSize s i, held s (i, placeOf (k / bsize)) ≠ 0#32
  tail : ∀ i < s.sb.ninodes.toNat, ∀ k, fileSize s i ≤ k → byteAt s i k = 0#8
  free : ∀ i < s.sb.ninodes.toNat, (s.dinode i).type = 0#16 → ∀ p, held s (i, p) = 0#32
  marked : ∀ b, s.sb.IsData b → s.bitmap b = true → ∃ p, held s p ≠ 0#32 ∧ (held s p).toNat = b

/-- **The invariant between the calls.** -/
structure Settled (s : Kernel) : Prop where
  sound : Sound s
  synced : Synced s
  whole : Whole s

section
variable {s t : Kernel} {x : Fin ninode} {i j k : ℕ}

/-! ### The disk alone -/

/-- The addresses are those of the disk. -/
theorem Synced.addrs (h : Synced s) (hc : CacheOk s) (i : ℕ) : addrs s i = (s.dinode i).addrs := by
  rcases addrs_cases hc i with ⟨x, hx, heq⟩ | ⟨-, heq⟩
  · rw [heq, ← h.copy i x hx]
  · exact heq

/-- Two states with the same disk have the same files, whatever is cached. -/
theorem held_eq_of_disk (hs : Synced s) (hsc : CacheOk s) (ht : Synced t) (htc : CacheOk t) (hsb : t.sb = s.sb)
    (hdinode : t.dinode = s.dinode) (hblock : t.block = s.block) : held t = held s := by
  have haddrs : ∀ k, Sharing.addrs t k = Sharing.addrs s k := fun k => by
    rw [hs.addrs hsc, ht.addrs htc, hdinode]
  funext p
  obtain ⟨l, m | m⟩ := p <;> simp only [held, haddrs, hsb, hblock]

/-- What is cached has changed, and nothing else. -/
theorem Settled.recache (h : Settled s) (ht : Sound t) (hsync : Synced t) (hsb : t.sb = s.sb)
    (hbitmap : t.bitmap = s.bitmap) (hdinode : t.dinode = s.dinode) (hblock : t.block = s.block) :
    Settled t ∧ byteAt t = byteAt s := by
  have hheld : held t = held s :=
    held_eq_of_disk h.synced h.sound.blocks.cache hsync ht.blocks.cache hsb hdinode hblock
  have hbyte : byteAt t = byteAt s := by
    funext j k
    exact byteAt_congr hheld hblock j k
  have hsize : fileSize t = fileSize s := by
    funext j
    rw [fileSize, hdinode, fileSize]
  refine ⟨⟨ht, hsync, ?_⟩, hbyte⟩
  obtain ⟨hmax, hblocks, htail, hfree, hmarked⟩ := h.whole
  constructor <;> simpa only [hsize, hheld, hbyte, hsb, hbitmap, hdinode]

/-- The memory of the process, the console and the pipes do not matter. -/
theorem Settled.of_sameDisk (h : Settled s) (hst : SameDisk s t) : Settled t ∧ byteAt t = byteAt s := by
  have hcaches : ∀ i x, Caches t i x ↔ Caches s i x := fun i x => by rw [Caches, Caches, hst.inode]
  refine h.recache (hst.sound h.sound) ⟨fun i x hx => ?_, fun i x hx => ?_⟩ hst.sb hst.bitmap hst.dinode hst.block
  · rw [hst.inode, hst.dinode]
    exact h.synced.copy i x ((hcaches i x).mp hx)
  · rw [hst.dinode]
    exact h.synced.type i x ((hcaches i x).mp hx)

/-- The machine is restarted: the cache is empty. -/
def restart (s : Kernel) : Kernel := { s with inode := fun _ => ⟨cleared 0#16, 0, 0, false, false⟩ }

theorem not_caches_restart (s : Kernel) (i : ℕ) (x : Fin ninode) : ¬ Caches (restart s) i x :=
  fun hx => absurd hx.1 (lt_irrefl 0)

theorem held_restart (h : Settled s) : held (restart s) = held s := by
  have hcache : CacheOk (restart s) :=
    ⟨fun x _ hx => absurd hx (lt_irrefl 0), fun x hx => absurd hx (lt_irrefl 0)⟩
  have hsync : Synced (restart s) :=
    ⟨fun i x hx => absurd hx (not_caches_restart s i x), fun i x hx => absurd hx (not_caches_restart s i x)⟩
  exact held_eq_of_disk h.synced h.sound.blocks.cache hsync hcache rfl rfl rfl

/-- **A restart loses nothing.** -/
theorem byteAt_restart (h : Settled s) : byteAt (restart s) = byteAt s := by
  funext j k
  exact byteAt_congr (held_restart h) rfl j k

/-! ### Reading and writing -/

/-- Offsets wrap around at 2³². -/
theorem wraps_iff {off n : Word} : off + n < off ↔ 2 ^ 32 ≤ off.toNat + n.toNat := by
  have := off.isLt
  have := n.isLt
  rw [BitVec.lt_def, BitVec.toNat_add]
  omega

theorem toInt_small {n : Word} (h : n.toNat ≤ maxfile * bsize) : n.toInt = n.toNat := by
  rw [BitVec.toInt_eq_toNat_cond, if_pos]
  have hmax : maxfile * bsize = 71680 := rfl
  omega

/-- A request is cut at the end of what there is. -/
theorem clip_toNat {size off n : Word} {m : ℕ} (hm : size.toNat = m) (hoff : off.toNat ≤ m)
    (hn : off.toNat + n.toNat < 2 ^ 32) :
    (if size < off + n then size - off else n).toNat = min n.toNat (m - off.toNat) := by
  have hsum : (off + n).toNat = off.toNat + n.toNat := by
    rw [BitVec.toNat_add]
    exact Nat.mod_eq_of_lt hn
  have hsub : (size - off).toNat = m - off.toNat := by
    rw [BitVec.toNat_sub_of_le (by rw [BitVec.le_def]; omega), hm]
  split_ifs with hlt <;> rw [BitVec.lt_def, hsum] at hlt <;> omega

/-- The result of `readi` on a file of some size. -/
def readCount (size off n : ℕ) : ℤ :=
  if size < off ∨ 2 ^ 32 ≤ off + n then -1 else (min n (size - off) : ℕ)

/-- **`readi` copies bytes of the file**, as far as it goes, and changes no file. -/
theorem readi_stable (h : Settled s) (hx : Caches s i x) (htype : (s.inode x).type ≠ tDev) (dst : ℕ) (off n : Word) :
    Wp (readi x dst off n)
      (fun r t => r = readCount (fileSize s i) off.toNat n.toNat ∧ ∃ tc, t = { s with
        user := splice s.user dst r.toNat fun k => byteAt s i (off.toNat + k)
        touched := tc }) (fun _ _ => False) s := by
  have hi := lt_of_caches h.sound hx
  have hsize : (s.inode x).size.toNat = fileSize s i := by rw [fileSize, ← h.synced.copy i x hx]
  have hmax := h.whole.size i hi
  unfold readi
  refine wp_bind.mpr (wp_get.mpr ?_)
  dsimp only
  rw [if_neg htype, wp_ite]
  constructor
  · rintro hbad
    rw [BitVec.lt_def, hsize, wraps_iff] at hbad
    rw [wp_pure]
    refine ⟨(if_pos hbad).symm, s.touched, ?_⟩
    rw [show (-1 : ℤ).toNat = 0 from rfl, splice_zero]
  · intro hok
    rw [BitVec.lt_def, hsize, wraps_iff, not_or, not_lt, not_le] at hok
    have hclip : (if (s.inode x).size < off + n then (s.inode x).size - off else n).toNat =
        min n.toNat (fileSize s i - off.toNat) := clip_toNat hsize hok.1 hok.2
    generalize (if (s.inode x).size < off + n then (s.inode x).size - off else n) = m at hclip ⊢
    have hcount : readCount (fileSize s i) off.toNat n.toNat = m.toNat := by
      rw [readCount, if_neg (not_or.mpr ⟨not_lt.mpr hok.1, not_le.mpr hok.2⟩), hclip]
    refine (readLoop_copies (Nat.sub_le _ _) h.sound hx fun k _ hk => ?_).bind ?_
    · exact h.whole.blocks i hi k (by omega)
    · rintro _ _ ⟨tc, rfl⟩
      rw [wp_pure, toInt_small (by omega), hcount, Int.toNat_natCast]
      exact ⟨rfl, tc, rfl⟩

/-! ### An inode is written to the disk -/

/-- The entry stays that of its inode. -/
structure SameEntry (c d : Inode) : Prop where
  ref : c.ref = d.ref
  valid : c.valid = d.valid
  inum : c.inum = d.inum

/-- `iupdate` after a change of the entry. -/
def updated (s : Kernel) (x : Fin ninode) (c : Inode) : Kernel :=
  { s with
    inode := Function.update s.inode x c
    dinode := Function.update s.dinode c.inum c.toDinode }

theorem wp_iupdate (f : Inode → Inode) :
    Wp (do
      modifyInode x f
      iupdate x) (fun _ t => t = updated s x (f (s.inode x))) (fun _ _ => False) s := by
  simp only [modifyInode, iupdate, wp_bind, wp_modify, Function.update_self, updated]

variable {c : Inode}

theorem SameEntry.caches (h : SameEntry c (s.inode x)) (k : ℕ) (y : Fin ninode) :
    Caches (updated s x c) k y ↔ Caches s k y := by
  unfold Caches updated
  by_cases hyx : y = x
  · subst hyx
    simp only [Function.update_self, h.ref, h.valid, h.inum]
  · simp only [Function.update_of_ne hyx]

theorem sound_updated (h : Sound s) (hx : Caches s i x) (hc : SameEntry c (s.inode x))
    (haddrs : c.addrs = (s.inode x).addrs) : Sound (updated s x c) := by
  have he : Edits s _ x c := .of_modify (by rw [hc.ref]) hc.valid hc.inum
  have hs := he.sound haddrs rfl rfl h
  refine hs.blocks.update ((he.caches i x).mpr hx) (fun k _ => hs.disk k) ?_
  simp only [updated, Function.update_self, hc.inum, hx.2.2]

/-- The places are the same, if the addresses are. -/
theorem held_updated (h : Sound s) (hx : Caches s i x) (hc : SameEntry c (s.inode x))
    (haddrs : c.addrs = (s.inode x).addrs) : held (updated s x c) = held s := by
  have hcache := h.blocks.cache
  have hcache' := (sound_updated h hx hc haddrs).blocks.cache
  have hsame : ∀ k, Sharing.addrs (updated s x c) k = Sharing.addrs s k := by
    intro k
    rcases addrs_cases hcache k with ⟨y, hy, heq⟩ | ⟨hnone, heq⟩
    · rw [heq, addrs_of_caches hcache' ((hc.caches k y).mpr hy)]
      by_cases hyx : y = x
      · subst hyx
        simp only [updated, Function.update_self, haddrs]
      · simp only [updated, Function.update_of_ne hyx]
    · have hki : k ≠ c.inum := fun hki => hnone x ⟨hx.1, hx.2.1, hki.trans hc.inum |>.symm⟩
      rw [heq, addrs_of_not_caches fun y hy => hnone y ((hc.caches k y).mp hy)]
      simp only [updated, Function.update_of_ne hki]
  funext p
  obtain ⟨l, m | m⟩ := p <;> simp only [held, hsame] <;> rfl

/-- The cache agrees with the disk after an update, if it did for the other inodes. -/
theorem synced_updated (h : Sound s) (hx : Caches s i x) (hc : SameEntry c (s.inode x))
    (hcopy : ∀ k y, Caches s k y → y ≠ x → (s.inode y).toDinode = s.dinode k ∧ (s.dinode k).type ≠ 0#16)
    (htype : c.type ≠ 0#16) : Synced (updated s x c) := by
  have hall : ∀ k y, Caches (updated s x c) k y →
      ((updated s x c).inode y).toDinode = (updated s x c).dinode k ∧ ((updated s x c).dinode k).type ≠ 0#16 := by
    intro k y hy
    have hy' := (hc.caches k y).mp hy
    by_cases hyx : y = x
    · subst hyx
      have hk : k = c.inum := hy'.2.2.symm.trans hc.inum.symm
      simp only [updated, hk, Function.update_self]
      exact ⟨trivial, htype⟩
    · have hk : k ≠ c.inum := fun hk =>
        hyx (h.blocks.cache.inj y x hy'.1 hx.1 (hy'.2.2.trans (hk.trans hc.inum)))
      simp only [updated, Function.update_of_ne hyx, Function.update_of_ne hk]
      exact hcopy k y hy' hyx
  exact ⟨fun k y hy => (hall k y hy).1, fun k y hy => (hall k y hy).2⟩

theorem dinode_updated (s : Kernel) (x : Fin ninode) (c : Inode) : (updated s x c).dinode c.inum = c.toDinode :=
  Function.update_self ..

theorem dinode_updated_of_ne (hk : k ≠ c.inum) : (updated s x c).dinode k = s.dinode k :=
  Function.update_of_ne hk ..

theorem stored_updated (h : Sound s) (hx : Caches s i x) (hc : SameEntry c (s.inode x))
    (haddrs : c.addrs = (s.inode x).addrs) :
    stored (updated s x c) = Function.update (stored s) i
      ⟨c.type, c.major, c.minor, c.nlink, c.size.toNat, byteAt s i⟩ := by
  have hbyte : byteAt (updated s x c) = byteAt s := by
    funext j k
    exact byteAt_congr (held_updated h hx hc haddrs) rfl j k
  have hi : c.inum = i := hc.inum.trans hx.2.2
  funext j
  by_cases hj : j = i
  · have hdisk : (updated s x c).dinode j = c.toDinode := hj.trans hi.symm ▸ dinode_updated s x c
    rw [hj, Function.update_self, ← hj, stored, fileSize, hbyte, hdisk]
  · rw [Function.update_of_ne hj, stored, fileSize, hbyte, dinode_updated_of_ne (hi.symm ▸ hj)]
    rfl

/-- The references are the same. -/
theorem handle_updated (hc : SameEntry c (s.inode x)) (hbusy : c.busy = (s.inode x).busy) :
    handle (updated s x c) = handle s := by
  funext y
  unfold handle updated
  by_cases hyx : y = x
  · subst hyx
    simp only [Function.update_self, hc.ref, hc.valid, hc.inum, hbusy]
  · simp only [Function.update_of_ne hyx]

/-- **`iupdate` after a change of the link count or the device numbers.** -/
theorem iupdate_stable (h : Settled s) (hx : Caches s i x) (f : Inode → Inode)
    (hf : ∀ ip, SameEntry (f ip) ip ∧ (f ip).busy = ip.busy ∧ (f ip).type = ip.type ∧ (f ip).size = ip.size ∧
      (f ip).addrs = ip.addrs) :
    Wp (do
      modifyInode x f
      iupdate x) (fun _ t => Settled t ∧ t.full = s.full ∧
        view t = (view s).setFile i { stored s i with
          major := (f (s.inode x)).major, minor := (f (s.inode x)).minor, nlink := (f (s.inode x)).nlink })
      (fun _ _ => False) s := by
  obtain ⟨hc, hbusy, htype, hsize, haddrs⟩ := hf (s.inode x)
  have hcopy := h.synced.copy i x hx
  refine (wp_iupdate f).imp fun _ t ht => ?_
  subst ht
  have hheld := held_updated h.sound hx hc haddrs
  have hbyte : byteAt (updated s x (f (s.inode x))) = byteAt s := by
    funext j k
    exact byteAt_congr hheld rfl j k
  have hdisk : ∀ k, ((updated s x (f (s.inode x))).dinode k).type = (s.dinode k).type ∧
      fileSize (updated s x (f (s.inode x))) k = fileSize s k := by
    intro k
    unfold fileSize
    by_cases hk : k = (f (s.inode x)).inum
    · have hki : k = i := hk.trans (hc.inum.trans hx.2.2)
      rw [hk, dinode_updated, htype, hsize, ← hk, hki, ← hcopy]
      exact ⟨rfl, rfl⟩
    · rw [dinode_updated_of_ne hk]
      exact ⟨rfl, rfl⟩
  refine ⟨⟨sound_updated h.sound hx hc haddrs, synced_updated h.sound hx hc ?_ ?_, ?_⟩, rfl, ?_⟩
  · exact fun k y hy _ => ⟨h.synced.copy k y hy, h.synced.type k y hy⟩
  · rw [htype, show (s.inode x).type = (s.dinode i).type by rw [← hcopy]]
    exact h.synced.type i x hx
  · obtain ⟨hmax, hblocks, htail, hfree, hmarked⟩ := h.whole
    constructor <;> simpa only [hheld, hbyte, hdisk]
  · have hstored := stored_updated h.sound hx hc haddrs
    rw [htype, hsize] at hstored
    refine View.ext rfl (hstored.trans ?_) (handle_updated hc hbusy) rfl
    simp only [View.setFile, view, stored, fileSize, ← hcopy]

/-! ### Writing -/

/-- The result of `writei` on a file of some size. -/
def writeCount (size off n : ℕ) : ℤ :=
  if size < off ∨ 2 ^ 32 ≤ off + n then -1 else (min n (maxfile * bsize - off) : ℕ)

/-- **A file is written**: as much as fits, if the offset is in the file or at its end. -/
def Stored.write (f : Stored) (off n : ℕ) (g : ℕ → Byte) : Stored :=
  if f.size < off ∨ 2 ^ 32 ≤ off + n then f
  else { f with
    size := max f.size (off + min n (maxfile * bsize - off))
    byte := splice f.byte off (min n (maxfile * bsize - off)) g }

variable {u : Kernel} {off m src : ℕ}

/-- A file that has been written, with the new size on the disk. -/
structure Wrote (s t u : Kernel) (i off m : ℕ) : Prop where
  held : Sharing.held u = Sharing.held t
  block : u.block = t.block
  bitmap : u.bitmap = t.bitmap
  sb : u.sb = s.sb
  user : u.user = s.user
  full : u.full = s.full
  other : ∀ j, j ≠ i → u.dinode j = s.dinode j
  type : (u.dinode i).type = (s.dinode i).type
  major : (u.dinode i).major = (s.dinode i).major
  minor : (u.dinode i).minor = (s.dinode i).minor
  nlink : (u.dinode i).nlink = (s.dinode i).nlink
  size : fileSize u i = max (fileSize s i) (off + m)
  handle : Stable.handle u = Stable.handle s

theorem byteAt_wrote (hw : Wrote s t u i off m) : byteAt u = byteAt t := by
  funext j k
  exact byteAt_congr hw.held hw.block j k

theorem whole_wrote (hw : Wrote s t u i off m) (h : Settled s) (hx : Caches s i x)
    (he : Extends s t x (written s i off m src)) (hoff : off ≤ fileSize s i) (hmax : off + m ≤ maxfile * bsize)
    (hwin : ∀ k, off ≤ k → k < off + m → held t (i, placeOf (k / bsize)) ≠ 0#32) : Whole u := by
  have hi := lt_of_caches h.sound hx
  have hsize : ∀ j, j ≠ i → fileSize u j = fileSize s j := fun j hj => by rw [fileSize, hw.other j hj, fileSize]
  have hold := h.whole
  constructor
  · intro j hj
    rw [hw.sb] at hj
    by_cases hji : j = i
    · rw [hji, hw.size]
      exact max_le (hold.size i hi) hmax
    · rw [hsize j hji]
      exact hold.size j hj
  · intro j hj k hk
    rw [hw.sb] at hj
    rw [hw.held]
    by_cases hji : j = i
    · subst hji
      rw [hw.size] at hk
      by_cases hks : k < fileSize s j
      · have hs := hold.blocks j hj k hks
        rwa [he.keeps _ hs]
      · exact hwin k (by omega) (by omega)
    · rw [hsize j hji] at hk
      have hs := hold.blocks j hj k hk
      rwa [he.keeps _ hs]
  · intro j hj k hk
    rw [hw.sb] at hj
    rw [byteAt_wrote hw, he.bytes, written]
    by_cases hji : j = i
    · subst hji
      rw [hw.size] at hk
      rw [if_pos rfl, splice_of_ge (by omega)]
      exact hold.tail j hj k (by omega)
    · rw [if_neg hji]
      rw [hsize j hji] at hk
      exact hold.tail j hj k hk
  · intro j hj h0 p
    rw [hw.sb] at hj
    by_cases hji : j = i
    · rw [hji, hw.type] at h0
      exact absurd h0 (h.synced.type i x hx)
    · rw [hw.other j hji] at h0
      rw [hw.held, he.others (j, p) (by rwa [hx.2.2])]
      exact hold.free j hj h0 p
  · intro b hb hmark
    rw [hw.sb] at hb
    rw [hw.bitmap] at hmark
    rw [hw.held]
    rcases he.marks b hmark with hs | ht
    · obtain ⟨p, hp, hpb⟩ := hold.marked b hb hs
      have hpt := he.keeps p hp
      exact ⟨p, hpt ▸ hp, hpt ▸ hpb⟩
    · exact ht

theorem view_wrote (hw : Wrote s t u i off m) (he : Extends s t x (written s i off m src)) :
    view u = (view s).setFile i { stored s i with
      size := max (fileSize s i) (off + m)
      byte := splice (byteAt s i) off m fun k => s.user (src + k) } := by
  refine View.ext (congrArg (fun sb => sb.ninodes.toNat) hw.sb) ?_ hw.handle hw.user
  have hbyte : byteAt u = written s i off m src := by
    rw [byteAt_wrote hw]
    funext j k
    exact he.bytes j k
  funext j
  by_cases hji : j = i
  · subst hji
    simp only [View.setFile, view, stored, Function.update_self, hbyte, written, if_true, hw.type, hw.major,
      hw.minor, hw.nlink, hw.size]
  · simp only [View.setFile, view, stored, Function.update_of_ne hji, hbyte, written, if_neg hji, hw.other j hji,
      fileSize]

/-- The size has not changed: nor has the inode. -/
theorem wrote_within (h : Settled s) (he : Extends s t x (written s i off m src))
    (hinode : t.inode = s.inode) (hin : off + m ≤ fileSize s i) : Wrote s t t i off m ∧ Synced t := by
  have hcaches : ∀ k y, Caches t k y ↔ Caches s k y := fun k y => by rw [Caches, Caches, hinode]
  have hsize : fileSize t i = max (fileSize s i) (off + m) := by
    rw [fileSize, he.dinode, ← fileSize]
    omega
  refine ⟨⟨rfl, rfl, rfl, he.sb, he.user, he.full, fun j _ => by rw [he.dinode], by rw [he.dinode],
    by rw [he.dinode], by rw [he.dinode], by rw [he.dinode], hsize, by funext y; rw [handle, hinode, handle]⟩, ?_⟩
  constructor
  · intro k y hy
    rw [hinode, he.dinode]
    exact h.synced.copy k y ((hcaches k y).mp hy)
  · intro k y hy
    rw [he.dinode]
    exact h.synced.type k y ((hcaches k y).mp hy)

/-- The size has changed, and the inode is written to the disk. -/
theorem wrote_beyond (h : Settled s) (hx : Caches s i x) (ht : Sound t) (hxt : Caches t i x)
    (he : Extends s t x (written s i off m src)) (hmax : off + m ≤ maxfile * bsize) (hout : fileSize s i < off + m)
    (hu : u = updated t x { t.inode x with size := BitVec.ofNat 32 (off + m) }) :
    Wrote s t u i off m ∧ Sound u ∧ Synced u := by
  obtain ⟨ad, hip⟩ := he.inode
  have hcopy := h.synced.copy i x hx
  obtain ⟨c, hcdef⟩ : ∃ c : Inode, c = { t.inode x with size := BitVec.ofNat 32 (off + m) } := ⟨_, rfl⟩
  rw [← hcdef] at hu
  have hc : SameEntry c (t.inode x) := by
    rw [hcdef]
    exact ⟨rfl, rfl, rfl⟩
  have haddrs : c.addrs = (t.inode x).addrs := by rw [hcdef]
  have hinum : c.inum = i := hc.inum.trans hxt.2.2
  have hnum : (BitVec.ofNat 32 (off + m)).toNat = off + m := by
    rw [BitVec.toNat_ofNat]
    have hle : maxfile * bsize = 71680 := rfl
    exact Nat.mod_eq_of_lt (by omega)
  have hfield : c.toDinode = { s.dinode i with size := BitVec.ofNat 32 (off + m), addrs := ad } := by
    rw [hcdef, hip, ← hcopy]
  have hdisk : u.dinode i = c.toDinode := by rw [hu, ← hinum, dinode_updated]
  have hhandle : handle t = handle s := by
    funext y
    by_cases hyx : y = x
    · rw [hyx, handle, hip, handle]
    · rw [handle, he.inode_of_ne hyx, handle]
  rw [hfield] at hdisk
  refine ⟨⟨?_, by rw [hu]; rfl, by rw [hu]; rfl, ?_, ?_, ?_, fun j hj => ?_, by rw [hdisk], by rw [hdisk],
    by rw [hdisk], by rw [hdisk], ?_, ?_⟩, ?_, ?_⟩
  · rw [hu, held_updated ht hxt hc haddrs]
  · rw [hu, ← he.sb]
    rfl
  · rw [hu, ← he.user]
    rfl
  · rw [hu, ← he.full]
    rfl
  · rw [hu, dinode_updated_of_ne (hinum.symm ▸ hj), he.dinode]
  · rw [fileSize, hdisk, hnum]
    omega
  · rw [hu, handle_updated hc (by rw [hcdef]), hhandle]
  · rw [hu]
    exact sound_updated ht hxt hc haddrs
  · rw [hu]
    refine synced_updated ht hxt hc (fun k y hy hyx => ?_) ?_
    · rw [he.inode_of_ne hyx, he.dinode]
      have hys : Caches s k y := by rwa [Caches, he.inode_of_ne hyx] at hy
      exact ⟨h.synced.copy k y hys, h.synced.type k y hys⟩
    · rw [hfield]
      exact h.synced.type i x hx

/-- **`writei` writes the file**, and no other. -/
theorem writei_stable (h : Settled s) (hx : Caches s i x) (htype : (s.inode x).type ≠ tDev) (src : ℕ) (off n : Word) :
    Wp (writei x src off n)
      (fun r t => t.full = true ∨ r = writeCount (fileSize s i) off.toNat n.toNat ∧ Settled t ∧
        view t = (view s).setFile i ((stored s i).write off.toNat n.toNat fun k => s.user (src + k)))
      (fun _ t => t.full = true ∨ False) s := by
  have hi := lt_of_caches h.sound hx
  have hsize : (s.inode x).size.toNat = fileSize s i := by rw [fileSize, ← h.synced.copy i x hx]
  have hmaxsize := h.whole.size i hi
  unfold writei
  refine wp_bind.mpr (wp_get.mpr ?_)
  dsimp only
  rw [if_neg htype, wp_ite]
  constructor
  · rintro hbad
    rw [BitVec.lt_def, hsize, wraps_iff] at hbad
    rw [wp_pure]
    refine Or.inr ⟨(if_pos hbad).symm, h, ?_⟩
    have hsame : (stored s i).write off.toNat n.toNat (fun k => s.user (src + k)) = stored s i := if_pos hbad
    rw [hsame]
    exact ((view s).setFile_self i).symm
  · intro hok
    rw [BitVec.lt_def, hsize, wraps_iff] at hok
    obtain ⟨hoff, hnowrap⟩ := not_or.mp hok
    have hlast : (BitVec.ofNat 32 (maxfile * bsize)).toNat = maxfile * bsize := rfl
    have hclip : (if BitVec.ofNat 32 (maxfile * bsize) < off + n then BitVec.ofNat 32 (maxfile * bsize) - off
        else n).toNat = min n.toNat (maxfile * bsize - off.toNat) := clip_toNat hlast (by omega) (by omega)
    have hcount : writeCount (fileSize s i) off.toNat n.toNat = (min n.toNat (maxfile * bsize - off.toNat) : ℕ) :=
      if_neg hok
    have hwrite : (stored s i).write off.toNat n.toNat (fun k => s.user (src + k)) = { stored s i with
        size := max (fileSize s i) (off.toNat + min n.toNat (maxfile * bsize - off.toNat))
        byte := splice (byteAt s i) off.toNat (min n.toNat (maxfile * bsize - off.toNat))
          fun k => s.user (src + k) } := if_neg hok
    rw [hcount, hwrite]
    rw [← hclip]
    generalize (if BitVec.ofNat 32 (maxfile * bsize) < off + n then BitVec.ofNat 32 (maxfile * bsize) - off
        else n) = m at hclip ⊢
    have hmax : off.toNat + m.toNat ≤ maxfile * bsize := by omega
    have hnum : m.toInt = m.toNat := toInt_small (by omega)
    -- a window within the file gets no blocks
    have hstays : off.toNat + m.toNat ≤ fileSize s i →
        Wp (writeLoop x m.toNat m.toNat 0 off.toNat src) (fun _ t => t.inode = s.inode) (fun _ _ => True) s :=
      fun hin => writeLoop_found (Nat.sub_le _ _) h.sound hx fun k _ hk => h.whole.blocks i hi k (by omega)
    have hloop : Wp (writeLoop x m.toNat m.toNat 0 off.toNat src)
        (fun o t => t.full = true ∨ ((Sound t ∧ Caches t i x ∧ o = off.toNat + m.toNat ∧
          ∀ k, off.toNat ≤ k → k < off.toNat + m.toNat → held t (i, placeOf (k / bsize)) ≠ 0#32) ∧
          Extends s t x (written s i off.toNat m.toNat src)) ∧
          (off.toNat + m.toNat ≤ fileSize s i → t.inode = s.inode)) (fun _ t => t.full = true ∨ False) s := by
      have hwrites : Wp (writeLoop x m.toNat m.toNat 0 off.toNat src) _ _ s :=
        writeLoop_writes (Nat.sub_le _ _) h.sound hx hmax
      by_cases hin : off.toNat + m.toNat ≤ fileSize s i
      · exact (hwrites.and (hstays hin)).mono (fun _ _ ht => ht.1.imp_right fun hr => ⟨hr, fun _ => ht.2⟩)
          fun _ _ he => he.1
      · exact hwrites.imp fun _ _ ht => ht.imp_right fun hr => ⟨hr, fun hin' => absurd hin' hin⟩
    refine wp_unless_full hloop (fun o => ?_) ?_
    · refine keepsFull_get.bind fun t => .ite ?_ (keepsFull_pure _)
      exact (keepsFull_modifyInode _ _).bind fun _ => (keepsFull_iupdate _).bind fun _ => keepsFull_pure _
    · rintro o t ⟨⟨⟨ht, hxt, rfl, hwin⟩, he⟩, hinode⟩
      have hts : (t.inode x).size.toNat = fileSize s i := by
        obtain ⟨ad, hip⟩ := he.inode
        rw [hip, hsize]
      refine wp_bind.mpr (wp_get.mpr ?_)
      rw [wp_ite, hts]
      constructor
      · rintro ⟨-, hout⟩
        refine wp_bind.mpr ((wp_bind.mp (wp_iupdate _)).mono (fun _ u hu => ?_) fun _ _ he => he.elim)
        refine wp_bind.mpr (hu.mono (fun _ v hv => ?_) fun _ _ he => he.elim)
        obtain ⟨hw, hv, hsync⟩ := wrote_beyond h hx ht hxt he hmax hout hv
        exact wp_pure.mpr (Or.inr ⟨hnum, ⟨hv, hsync, whole_wrote hw h hx he (by omega) hmax hwin⟩, view_wrote hw he⟩)
      · intro hnot
        have hin : off.toNat + m.toNat ≤ fileSize s i := by omega
        obtain ⟨hw, hsync⟩ := wrote_within h he (hinode hin) hin
        exact wp_pure.mpr (Or.inr ⟨hnum, ⟨ht, hsync, whole_wrote hw h hx he (by omega) hmax hwin⟩, view_wrote hw he⟩)

/-! ### References -/

/-- **One entry of the cache has changed**: if it has a copy, it is that of the disk. -/
theorem Settled.entry (h : Settled s) (ht : Sound t) (hset : t = { s with inode := Function.update s.inode x c })
    (hcopy : 0 < c.ref → c.valid = true → c.toDinode = s.dinode c.inum ∧ (s.dinode c.inum).type ≠ 0#16) :
    Settled t ∧ view t = (view s).setHandle x ⟨c.inum, c.ref, c.busy, c.valid⟩ := by
  have hinode : t.inode = Function.update s.inode x c := by rw [hset]
  have hdinode : t.dinode = s.dinode := by rw [hset]
  have hall : ∀ k y, Caches t k y → (t.inode y).toDinode = s.dinode k ∧ (s.dinode k).type ≠ 0#16 := by
    intro k y hy
    rw [Caches, hinode] at hy
    rw [hinode]
    by_cases hyx : y = x
    · subst hyx
      rw [Function.update_self] at hy ⊢
      rw [← hy.2.2]
      exact hcopy hy.1 hy.2.1
    · rw [Function.update_of_ne hyx] at hy ⊢
      exact ⟨h.synced.copy k y hy, h.synced.type k y hy⟩
  have hsync : Synced t := by
    constructor
    · intro k y hy
      rw [hdinode]
      exact (hall k y hy).1
    · intro k y hy
      rw [hdinode]
      exact (hall k y hy).2
  obtain ⟨hs, hbyte⟩ := h.recache ht hsync (by rw [hset]) (by rw [hset]) hdinode (by rw [hset])
  refine ⟨hs, View.ext ?_ ?_ ?_ ?_⟩
  · rw [hset]
    rfl
  · funext j
    simp only [view, View.setHandle, stored, fileSize, hbyte, hdinode]
  · funext y
    by_cases hyx : y = x
    · subst hyx
      simp only [view, View.setHandle, handle, hinode, Function.update_self]
    · simp only [view, View.setHandle, handle, hinode, Function.update_of_ne hyx]
  · rw [hset]
    rfl

/-- What `iget` does to the cache. -/
def Gets (v w : View) (i : ℕ) (x : Fin ninode) : Prop :=
  0 < (v.handle x).ref ∧ (v.handle x).inum = i ∧
      w = v.setHandle x { v.handle x with ref := (v.handle x).ref + 1 } ∨
    (∀ y, 0 < (v.handle y).ref → (v.handle y).inum ≠ i) ∧ (v.handle x).ref = 0 ∧
      w = v.setHandle x ⟨i, 1, false, false⟩

/-- **`iget`** takes a reference. -/
theorem iget_stable (h : Settled s) (hi : i < s.sb.ninodes.toNat) :
    Wp (iget i) (fun x t => Settled t ∧ t.full = s.full ∧ Gets (view s) (view t) i x) (fun e _ => e = .iget) s := by
  have hexact : Wp (iget i) (fun x t => ∃ c : Inode, t = { s with inode := Function.update s.inode x c } ∧
      (0 < (s.inode x).ref ∧ (s.inode x).inum = i ∧ c = { s.inode x with ref := (s.inode x).ref + 1 } ∨
        (∀ y, 0 < (s.inode y).ref → (s.inode y).inum ≠ i) ∧ (s.inode x).ref = 0 ∧
          c = { s.inode x with inum := i, ref := 1, busy := false, valid := false })) (fun _ _ => True) s := by
    unfold iget
    simp only [wp_bind, wp_get]
    split
    · next y hy =>
      simp only [modifyInode, wp_bind, wp_modify, wp_pure]
      have hmem := List.find?_some hy
      simp only [decide_eq_true_eq] at hmem
      exact ⟨_, rfl, Or.inl ⟨hmem.1, hmem.2, rfl⟩⟩
    · next hnone =>
      split
      · simp only [wp_throw]
      · next y hy =>
        simp only [modifyInode, wp_bind, wp_modify, wp_pure]
        refine ⟨_, rfl, Or.inr ⟨fun z hz hzi => ?_, by simpa using List.find?_some hy, rfl⟩⟩
        have hout := List.find?_eq_none.mp hnone z (List.mem_finRange z)
        simp only [decide_eq_true_eq] at hout
        exact hout ⟨hz, hzi⟩
  refine ((iget_spec h.sound hi).and hexact).mono ?_ fun _ _ he => he.1
  rintro x t ⟨ht, c, hset, hcases⟩
  have hfull : t.full = s.full := by rw [hset]
  rcases hcases with ⟨hpos, hinum, rfl⟩ | ⟨hout, hzero, rfl⟩
  · obtain ⟨hs, hview⟩ := h.entry ht hset fun _ hv =>
      ⟨h.synced.copy _ x ⟨hpos, hv, rfl⟩, h.synced.type _ x ⟨hpos, hv, rfl⟩⟩
    exact ⟨hs, hfull, Or.inl ⟨hpos, hinum, hview⟩⟩
  · obtain ⟨hs, hview⟩ := h.entry ht hset fun _ hv => absurd hv Bool.false_ne_true
    exact ⟨hs, hfull, Or.inr ⟨hout, hzero, hview⟩⟩

/-- An entry with a reference keeps its copy, whatever happens to the count and the lock. -/
theorem Settled.entry_same (h : Settled s) (hpos : 0 < (s.inode x).ref) (ht : Sound t)
    (hset : t = { s with inode := Function.update s.inode x c }) (hc : c.toDinode = (s.inode x).toDinode)
    (hinum : c.inum = (s.inode x).inum) (hvalid : c.valid = (s.inode x).valid) :
    Settled t ∧ view t = (view s).setHandle x ⟨c.inum, c.ref, c.busy, c.valid⟩ := by
  refine h.entry ht hset fun _ hv => ?_
  have hx : Caches s c.inum x := ⟨hpos, hvalid ▸ hv, hinum.symm⟩
  exact ⟨hc.trans (h.synced.copy _ x hx), h.synced.type _ x hx⟩

theorem idup_stable (h : Settled s) (hx : 0 < (s.inode x).ref) :
    Wp (idup x) (fun _ t => Settled t ∧ t.full = s.full ∧
      view t = (view s).setHandle x { handle s x with ref := (handle s x).ref + 1 }) (fun _ _ => False) s := by
  have hexact : Wp (idup x) (fun _ t => t = { s with
      inode := Function.update s.inode x { s.inode x with ref := (s.inode x).ref + 1 } }) (fun _ _ => False) s := by
    simp only [idup, modifyInode, wp_modify]
  refine ((idup_spec h.sound hx).and hexact).mono ?_ fun _ _ he => he.1
  rintro _ t ⟨ht, hset⟩
  obtain ⟨hs, hview⟩ := h.entry_same hx ht hset rfl rfl rfl
  exact ⟨hs, by rw [hset], hview⟩

/-- **`ilock`** takes the lock, and reads the inode if the cache does not have it. -/
theorem ilock_stable (h : Settled s) :
    Wp (ilock x) (fun _ t => Settled t ∧ t.full = s.full ∧ 0 < (handle s x).ref ∧ (handle s x).busy = false ∧
      view t = (view s).setHandle x { handle s x with busy := true, valid := true })
      (fun e _ => e = .ilock ∨ e = .asleep ∨ e = .ilockType ∧ (handle s x).valid = false ∧
        (stored s (handle s x).inum).type = 0#16) s := by
  have hexact : Wp (ilock x) (fun _ t => 0 < (s.inode x).ref ∧ (s.inode x).busy = false ∧
      ((s.inode x).valid = true ∧
        t = { s with inode := Function.update s.inode x { s.inode x with busy := true } } ∨
      (s.inode x).valid = false ∧ (s.dinode (s.inode x).inum).type ≠ 0#16 ∧ t = { s with
        inode := Function.update s.inode x
          ⟨s.dinode (s.inode x).inum, (s.inode x).inum, (s.inode x).ref, true, true⟩ }))
      (fun e _ => e = .ilockType → (s.inode x).valid = false ∧ (s.dinode (s.inode x).inum).type = 0#16) s := by
    unfold ilock
    simp only [modifyInode, wp_bind, wp_get, wp_ite, wp_throw, wp_modify, wp_pure]
    refine ⟨fun _ he => absurd he (by decide), fun hpos => ⟨fun _ he => absurd he (by decide), fun hbusy => ?_⟩⟩
    have hfree : (s.inode x).busy = false := by simpa using hbusy
    simp only [Function.update_self, Function.update_idem]
    refine ⟨fun hv => ⟨fun h0 _ => ⟨hv, h0⟩, fun hne => ?_⟩, fun hv => ?_⟩
    · exact ⟨by omega, hfree, Or.inr ⟨hv, hne, trivial⟩⟩
    · exact ⟨by omega, hfree, Or.inl ⟨by simpa using hv, trivial⟩⟩
  refine ((ilock_spec h.sound).and hexact).mono ?_ ?_
  · rintro _ t ⟨ht, hpos, hbusy, ⟨hv, hset⟩ | ⟨hv, hne, hset⟩⟩
    · obtain ⟨hs, hview⟩ := h.entry_same hpos ht hset rfl rfl rfl
      refine ⟨hs, by rw [hset], hpos, hbusy, hview.trans ?_⟩
      simp only [handle, hv]
    · obtain ⟨hs, hview⟩ := h.entry ht hset fun _ _ => ⟨rfl, hne⟩
      exact ⟨hs, by rw [hset], hpos, hbusy, hview⟩
  · rintro e t ⟨he | he | he, htype⟩
    · exact Or.inl he
    · exact Or.inr (Or.inl he)
    · exact Or.inr (Or.inr ⟨he, htype he⟩)

theorem iunlock_stable (h : Settled s) :
    Wp (iunlock x) (fun _ t => Settled t ∧ t.full = s.full ∧
      view t = (view s).setHandle x { handle s x with busy := false })
      (fun e _ => e = .iunlock ∧ ((handle s x).busy = false ∨ (handle s x).ref = 0)) s := by
  have hexact : Wp (iunlock x) (fun _ t => 0 < (s.inode x).ref ∧ t = { s with
      inode := Function.update s.inode x { s.inode x with busy := false } })
      (fun _ _ => (s.inode x).busy = false ∨ (s.inode x).ref = 0) s := by
    simp only [iunlock, modifyInode, wp_bind, wp_get, wp_ite, wp_throw, wp_modify]
    exact ⟨fun hc => hc.imp_right fun _ => by omega, fun hc => ⟨by omega, trivial⟩⟩
  refine ((iunlock_spec h.sound).and hexact).mono ?_ fun _ _ he => he
  rintro _ t ⟨ht, hpos, hset⟩
  obtain ⟨hs, hview⟩ := h.entry_same hpos ht hset rfl rfl rfl
  exact ⟨hs, by rw [hset], hview⟩

/-- A file that has just been allocated. -/
def fresh (type : Short) : Stored := ⟨type, 0#16, 0#16, 0#16, 0, fun _ => 0#8⟩

/-! ### A free inode is cleared -/

/-- The disk with an inode that is cleared. -/
def clear (s : Kernel) (i : ℕ) (type : Short) : Kernel :=
  { s with dinode := Function.update s.dinode i (cleared type) }

section
variable {y : Fin ninode} {type : Short}

theorem dinode_clear_of_ne (hk : k ≠ i) : (clear s i type).dinode k = s.dinode k := Function.update_of_ne hk _ _

theorem dinode_clear_self : (clear s i type).dinode i = cleared type := Function.update_self ..

/-- A free inode is in no entry of the cache. -/
theorem caches_clear (h : Synced s) (h0 : (s.dinode i).type = 0#16) (hy : Caches (clear s i type) k y) :
    Caches s k y ∧ k ≠ i := by
  have hy' : Caches s k y := hy
  exact ⟨hy', fun hk => h.type k y hy' (hk ▸ h0)⟩

theorem synced_clear (h : Synced s) (h0 : (s.dinode i).type = 0#16) : Synced (clear s i type) := by
  constructor
  · intro k y hy
    obtain ⟨hy', hk⟩ := caches_clear h h0 hy
    rw [dinode_clear_of_ne hk]
    exact h.copy k y hy'
  · intro k y hy
    obtain ⟨hy', hk⟩ := caches_clear h h0 hy
    rw [dinode_clear_of_ne hk]
    exact h.type k y hy'

theorem held_clear (h : Settled s) (hi : i < s.sb.ninodes.toNat) (h0 : (s.dinode i).type = 0#16) :
    held (clear s i type) = held s := by
  have hsync : Synced (clear s i type) := synced_clear h.synced h0
  have hcache := (h.sound.clearInode i type).blocks.cache
  have haddrs : ∀ k, k ≠ i → Sharing.addrs (clear s i type) k = Sharing.addrs s k := fun k hk => by
    rw [hsync.addrs hcache, h.synced.addrs h.sound.blocks.cache, dinode_clear_of_ne hk]
  have hnone : ∀ j, Sharing.addrs (clear s i type) i j = 0#32 := fun j => by
    rw [hsync.addrs hcache, dinode_clear_self]
    rfl
  have hsb : (clear s i type).sb = s.sb := rfl
  have hblock : (clear s i type).block = s.block := rfl
  funext p
  obtain ⟨k, j | j⟩ := p
  · by_cases hk : k = i
    · rw [hk, h.whole.free i hi h0]
      simp only [held, hnone, ite_self]
    · simp only [held, haddrs k hk, hsb]
  · by_cases hk : k = i
    · rw [hk, h.whole.free i hi h0]
      simp only [held, hnone, ne_eq, not_true_eq_false, and_false, if_false]
    · simp only [held, haddrs k hk, hsb, hblock]

theorem byteAt_clear (h : Settled s) (hi : i < s.sb.ninodes.toNat) (h0 : (s.dinode i).type = 0#16) :
    byteAt (clear s i type) = byteAt s := by
  funext j k
  exact byteAt_congr (held_clear h hi h0) rfl j k

theorem fileSize_clear : fileSize (clear s i type) k = if k = i then 0 else fileSize s k := by
  rw [fileSize]
  split_ifs with hk
  · rw [hk, dinode_clear_self]
    rfl
  · rw [dinode_clear_of_ne hk, fileSize]

theorem whole_clear (h : Settled s) (hi : i < s.sb.ninodes.toNat) (h0 : (s.dinode i).type = 0#16) :
    Whole (clear s i type) := by
  have hold := h.whole
  constructor
  case size =>
    intro j hj
    rw [fileSize_clear]
    split_ifs
    · exact Nat.zero_le _
    · exact hold.size j hj
  case blocks =>
    intro j hj k hk
    rw [fileSize_clear] at hk
    rw [held_clear h hi h0]
    split_ifs at hk
    · exact absurd hk (Nat.not_lt_zero k)
    · exact hold.blocks j hj k hk
  case tail =>
    intro j hj k hk
    rw [fileSize_clear] at hk
    rw [byteAt_clear h hi h0]
    split_ifs at hk with hji
    · rw [hji]
      exact byteAt_of_not_held (hold.free i hi h0 _)
    · exact hold.tail j hj k hk
  case free =>
    intro j hj hj0 p
    rw [held_clear h hi h0]
    by_cases hji : j = i
    · rw [hji]
      exact hold.free i hi h0 p
    · rw [dinode_clear_of_ne hji] at hj0
      exact hold.free j hj hj0 p
  case marked =>
    rw [held_clear h hi h0]
    exact hold.marked

theorem view_clear (h : Settled s) (hi : i < s.sb.ninodes.toNat) (h0 : (s.dinode i).type = 0#16) :
    view (clear s i type) = (view s).setFile i (fresh type) := by
  refine View.ext rfl ?_ rfl rfl
  funext j
  by_cases hj : j = i
  · subst hj
    have hbytes : byteAt (clear s j type) j = fun _ => 0#8 := by
      rw [byteAt_clear h hi h0]
      exact funext fun k => byteAt_of_not_held (h.whole.free j hi h0 _)
    simp only [view, View.setFile, stored, Function.update_self, fileSize_clear, if_true, hbytes, fresh,
      dinode_clear_self]
    rfl
  · simp only [view, View.setFile, stored, Function.update_of_ne hj, fileSize_clear, if_neg hj, byteAt_clear h hi h0,
      dinode_clear_of_ne hj]

/-- A free inode of the disk is cleared. -/
theorem Settled.clear (h : Settled s) (hi : i < s.sb.ninodes.toNat) (h0 : (s.dinode i).type = 0#16) (type : Short) :
    Settled (clear s i type) ∧ view (clear s i type) = (view s).setFile i (fresh type) :=
  ⟨⟨h.sound.clearInode i type, synced_clear h.synced h0, whole_clear h hi h0⟩, view_clear h hi h0⟩

end

/-- **`ialloc`** takes the first free inode, and a reference to it. -/
theorem ialloc_stable (h : Settled s) (type : Short) :
    Wp (ialloc type) (fun x t => Settled t ∧ t.full = s.full ∧
      ∃ i, (List.range s.sb.ninodes.toNat).find? (fun i => 1 ≤ i ∧ (stored s i).type = 0#16) = some i ∧
        Gets ((view s).setFile i (fresh type)) (view t) i x) (fun e _ => e = .ialloc ∨ e = .iget) s := by
  unfold ialloc
  simp only [wp_bind, wp_get]
  split
  · exact wp_throw.mpr (Or.inl rfl)
  · next i hfind =>
    have hi : i < s.sb.ninodes.toNat := List.mem_range.mp (List.mem_of_find?_eq_some hfind)
    have hmem := List.find?_some hfind
    simp only [decide_eq_true_eq] at hmem
    rw [wp_bind, wp_set]
    obtain ⟨hu, hview⟩ := h.clear hi hmem.2 type
    refine (iget_stable hu hi).mono ?_ fun _ _ he => Or.inr he
    rintro x t ⟨ht, hfull, hgets⟩
    exact ⟨ht, hfull, i, hfind, hview ▸ hgets⟩

end

end OperatingSystems.Files.Stable
