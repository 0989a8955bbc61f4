import Mathlib.Tactic
import OperatingSystems.RunScan.Copy
import OperatingSystems.RunScan.DirWalk
import OperatingSystems.RunScan.Geometry

/-! # Runscan: the output directory

The whole of `main`: the scan writes `file-<i>.jpg` and `file-<i>-details.txt` for every inode `i` that
is a JPEG and looks for a directory entry `top_secret`. If there is one, the entries of its first block
get named copies and the files of all other inodes are removed; otherwise the entries of every
directory get named copies.

* `FileName`, `Dir`: the files of a directory by name; a name with a slash is no file of it, and what
  opening one does is left to the surroundings (`Env`).
* `runscan` is the directory when `main` ends; it is `none` where a null `FILE *` is used.
* `scan_spec`: after the scan the flags and the files are those of the recovered inodes. -/

namespace OperatingSystems.RunScan.Output

open OperatingSystems.RunScan.Copy OperatingSystems.RunScan.DirWalk
open OperatingSystems.RunScan.Geometry

/-! ### Names -/

/-- The name of a file in a directory: not empty, without a slash, and not `.` or `..`. -/
def Proper (name : List UInt8) : Prop :=
  name ≠ [] ∧ 47 ∉ name ∧ name ≠ [46] ∧ name ≠ [46, 46]

instance (name : List UInt8) : Decidable (Proper name) := inferInstanceAs (Decidable (_ ∧ _))

/-- A proper name. -/
structure FileName where
  bytes : List UInt8
  proper : Proper bytes
deriving DecidableEq

/-- `%u`. -/
def decimal (n : ℕ) : List UInt8 := (Nat.toDigits 10 n).map fun c => UInt8.ofNat c.toNat

/-- `file-`, `.jpg` and `-details.txt`. -/
def fileBytes : List UInt8 := [102, 105, 108, 101, 45]
def jpgBytes : List UInt8 := [46, 106, 112, 103]
def detailsBytes : List UInt8 := [45, 100, 101, 116, 97, 105, 108, 115, 46, 116, 120, 116]

/-- `top_secret`. -/
def topSecretBytes : List UInt8 := [116, 111, 112, 95, 115, 101, 99, 114, 101, 116]

theorem isDigit_bounds {c : Char} (h : c.isDigit = true) : 48 ≤ c.toNat ∧ c.toNat ≤ 57 :=
  Char.isDigit_iff_toNat.mp h

/-- The digits can be read back from their bytes. -/
theorem map_decimal (n : ℕ) :
    (decimal n).map (fun b => Char.ofNat b.toNat) = Nat.toDigits 10 n := by
  rw [decimal, List.map_map]
  conv_rhs => rw [← List.map_id (Nat.toDigits 10 n)]
  refine List.map_congr_left fun c hc => ?_
  have hd := isDigit_bounds (Nat.isDigit_of_mem_toDigits (by decide) (by decide) hc)
  show Char.ofNat (UInt8.ofNat c.toNat).toNat = c
  rw [UInt8.toNat_ofNat', Nat.mod_eq_of_lt (by omega), Char.ofNat_toNat]

theorem digit_of_mem_decimal {n : ℕ} {b : UInt8} (hb : b ∈ decimal n) : 48 ≤ b.toNat := by
  obtain ⟨c, hc, rfl⟩ := List.mem_map.mp hb
  have hd := isDigit_bounds (Nat.isDigit_of_mem_toDigits (by decide) (by decide) hc)
  rw [UInt8.toNat_ofNat', Nat.mod_eq_of_lt (by omega)]
  exact hd.1

theorem decimal_injective : Function.Injective decimal := by
  intro m n h
  have hdigits : Nat.toDigits 10 m = Nat.toDigits 10 n := by
    rw [← map_decimal, h, map_decimal]
  calc m = Nat.ofDigitChars 10 (Nat.toDigits 10 m) 0 := Nat.ofDigitChars_ten_toDigits.symm
    _ = Nat.ofDigitChars 10 (Nat.toDigits 10 n) 0 := by rw [hdigits]
    _ = n := Nat.ofDigitChars_ten_toDigits

/-- A number between a first and a last part without slashes is a proper name. -/
theorem proper_numbered (n : ℕ) {last : List UInt8} (hlast : 47 ∉ last) :
    Proper (fileBytes ++ decimal n ++ last) := by
  refine ⟨by simp [fileBytes], ?_, by simp [fileBytes], by simp [fileBytes]⟩
  simp only [List.mem_append, not_or]
  refine ⟨⟨by decide, fun hmem => ?_⟩, hlast⟩
  exact absurd (digit_of_mem_decimal hmem) (by decide)

/-- `file-<i>.jpg`. -/
def jpgName (i : ℕ) : FileName := ⟨fileBytes ++ decimal i ++ jpgBytes, proper_numbered i (by decide)⟩

/-- `file-<i>-details.txt`. -/
def detailsName (i : ℕ) : FileName :=
  ⟨fileBytes ++ decimal i ++ detailsBytes, proper_numbered i (by decide)⟩

theorem jpgName_injective : Function.Injective jpgName := by
  intro i j h
  have hb := congrArg FileName.bytes h
  exact decimal_injective (List.append_cancel_left (List.append_cancel_right hb))

theorem detailsName_injective : Function.Injective detailsName := by
  intro i j h
  have hb := congrArg FileName.bytes h
  exact decimal_injective (List.append_cancel_left (List.append_cancel_right hb))

theorem jpgName_ne_detailsName (i j : ℕ) : jpgName i ≠ detailsName j := by
  intro h
  have hb := congrArg (fun f => f.bytes.getLast?) h
  simp [jpgName, detailsName, jpgBytes, detailsBytes, List.getLast?_append] at hb

/-! ### The directory -/

/-- The files of the output directory with their bytes. -/
abbrev Dir := FileName → Option (List UInt8)

/-- The fields of `struct ext2_inode` that `main` reads. -/
structure Ext2Inode extends Inode where
  iUid : UInt16
  iLinksCount : UInt16

/-- What surrounds the run: the memory behind its arrays, an inode it could not read, and the paths
that lead out of the output directory. -/
structure Env where
  /-- What a read-ahead past a pointer array of inode `n` fetches. -/
  stray : ℕ → ℕ → List UInt8
  /-- The bytes behind `buffer` when it holds the first block of inode `n`. -/
  behind : ℕ → ℕ → UInt8
  /-- The byte behind `inode_is_jpg`. -/
  strayFlag : Bool
  /-- `bg_inode_table` of a descriptor behind `groups`. -/
  strayTable : ℕ → UInt32
  /-- What `read_inode` leaves when it seeks to a negative offset. -/
  lostInode : ℤ → Ext2Inode
  /-- What opening a name that is not proper does: nothing, or a file here or elsewhere. -/
  resolve : List UInt8 → Option (Option FileName)

/-- `fopen` of a path below the output directory for writing: `none` is a null pointer, and
`some none` a file elsewhere. -/
def fopenWrite (env : Env) (name : List UInt8) : Option (Option FileName) :=
  if h : Proper name then some (some ⟨name, h⟩) else env.resolve name

/-- Writing to an open file, which is in the directory or elsewhere. -/
def put (out : Dir) (fp : Option FileName) (bytes : List UInt8) : Dir :=
  match fp with
  | some f => Function.update out f (some bytes)
  | none => out

/-- **The named copy** of `file-<inode>.jpg`. The new file is truncated before the old one is read. A
null pointer for either is used by `fread` or `fclose`. -/
def copyNamed (env : Env) (out : Dir) (inode : ℕ) (name : List UInt8) : Option Dir :=
  match out (jpgName inode), fopenWrite env name with
  | some _, some newFp =>
    let truncated := put out newFp []
    some (put truncated newFp ((truncated (jpgName inode)).getD []))
  | _, _ => none

/-- `remove` of both files of an inode. -/
def removeFiles (out : Dir) (inode : ℕ) : Dir :=
  Function.update (Function.update out (jpgName inode) none) (detailsName inode) none

/-! ### Reading the image -/

/-- The image as blocks are read from it: `BLOCK_OFFSET` of a block number is a 32-bit product, and the
block size divides `2 ^ 32`. -/
def seen (d : Disk) : Disk := fun k => d (k % 2 ^ 32)

/-- `read_inode`, from the offset that it seeks to. -/
def readInode (env : Env) (d : Disk) (offset : ℤ) : Ext2Inode :=
  if 0 ≤ offset then
    { iMode := u16 d (offset.toNat + 0)
      iUid := u16 d (offset.toNat + 2)
      iSize := u32 d (offset.toNat + 4)
      iLinksCount := u16 d (offset.toNat + 26)
      iBlock := fun k => (u32 d (offset.toNat + 40 + 4 * k)).toNat }
  else env.lostInode offset

/-- `buffer` with the block `p` in it, when it is the first block of inode `n`. -/
def bufferOf (env : Env) (d : Disk) (g : Globals) (n p : ℕ) : Buffer := fun k =>
  if k < g.blockSize.toNat then seen d (p * g.blockSize.toNat + k) else env.behind n k

/-- `S_ISDIR`. -/
def sIsdir (mode : UInt16) : Bool := mode &&& 0xF000 == 0x4000

/-- The bytes of the JPEG that the scan recovers from an inode. -/
def recovered (env : Env) (d : Disk) (g : Globals) (v : InodeRead) : Option (List UInt8) :=
  recover (seen d) g.blockSize (env.stray v.number.toNat) (readInode env d v.offset).toInode

/-- The entries that a walk over the first block of an inode visits. -/
def visits (env : Env) (d : Disk) (g : Globals) (n : ℕ) (inode : Ext2Inode) : List Visit :=
  dirWalk (bufferOf env d g n (inode.iBlock 0)) g.blockSize.toNat

/-- `%hu\n%u\n%hu`. -/
def details (inode : Ext2Inode) : List UInt8 :=
  decimal inode.iLinksCount.toNat ++ [10] ++ decimal inode.iSize.toNat ++ [10] ++
    decimal inode.iUid.toNat

/-! ### The scan -/

/-- The variables of `main`: `inode_is_jpg` with the byte behind it, the inode of
`top_secret_dentry` if `have_top_secret`, and the directory. -/
structure State where
  inodeIsJpg : ℕ → Bool
  topSecret : Option ℕ
  out : Dir

/-- The length of `inode_is_jpg`. -/
def flagCount (g : Globals) : UInt32 := g.numGroups * g.inodesPerGroup + 1

/-- All flags are cleared; the directory is new. -/
def start (env : Env) (g : Globals) : State where
  inodeIsJpg := fun i => if i < (flagCount g).toNat then false else env.strayFlag
  topSecret := none
  out := fun _ => none

/-- Writing over the start of a file that is opened without truncating it. -/
def overwrite (old : Option (List UInt8)) (bytes : List UInt8) : List UInt8 :=
  bytes ++ (old.getD []).drop bytes.length

/-- Both files of a JPEG. -/
def saveJpg (env : Env) (d : Disk) (s : State) (v : InodeRead) (bytes : List UInt8) : State :=
  let n := v.number.toNat
  let out := Function.update s.out (jpgName n) (some (overwrite (s.out (jpgName n)) bytes))
  { s with
    inodeIsJpg := Function.update s.inodeIsJpg n true
    out := Function.update out (detailsName n) (some (details (readInode env d v.offset))) }

/-- The search for `top_secret` in a directory. The last entry of that name stays. -/
def findTopSecret (g : Globals) (s : State) (e : Visit) : State :=
  if e.inode ≤ (flagCount g).toNat ∧ e.name = topSecretBytes then { s with topSecret := some e.inode }
  else s

/-- **The body of the scan**; `none` is a write behind `inode_is_jpg`. -/
def scanInode (env : Env) (d : Disk) (g : Globals) (s : State) (v : InodeRead) : Option State :=
  match recovered env d g v with
  | some bytes => if v.number < flagCount g then some (saveJpg env d s v bytes) else none
  | none =>
    let inode := readInode env d v.offset
    if sIsdir inode.iMode then
      some ((visits env d g v.number.toNat inode).foldl (findTopSecret g) s)
    else some s

/-- The whole scan. -/
def scanAll (env : Env) (d : Disk) (g : Globals) : Option State :=
  (groupLoop d (readSuperBlock d) g 0).foldlM (scanInode env d g) (start env g)

/-! ### The two modes -/

/-- **The body of the loop over a directory block.** The mode for `top_secret` clears the flag. -/
def nameEntry (env : Env) (g : Globals) (clear : Bool) (s : State) (e : Visit) : Option State :=
  if e.inode ≤ (flagCount g).toNat ∧ e.name ≠ [] ∧ s.inodeIsJpg e.inode then
    let flags := if clear then Function.update s.inodeIsJpg e.inode false else s.inodeIsJpg
    (copyNamed env s.out e.inode e.name).map fun out => { s with inodeIsJpg := flags, out := out }
  else some s

/-- `locate_inode_table`, also for a group that `groups` does not have. -/
def tableOf (env : Env) (d : Disk) (g : Globals) (ngroup : ℕ) : UInt32 :=
  if ngroup < g.numGroups.toNat then locateInodeTable d g ngroup
  else blockOffset g (env.strayTable ngroup)

/-- The inode that the mode for `top_secret` reads for the number `t`. -/
def topSecretInode (env : Env) (d : Disk) (g : Globals) (t : ℕ) : Ext2Inode :=
  readInode env d (inodeOffset (tableOf env d g (t / g.inodesPerGroup.toNat))
    (t % g.inodesPerGroup.toNat : ℕ) (readSuperBlock d).sInodeSize)

/-- The entries that this mode visits. -/
def topSecretVisits (env : Env) (d : Disk) (g : Globals) (t : ℕ) : List Visit :=
  visits env d g t (topSecretInode env d g t)

/-- One round of the clean-up: the files of an inode whose flag is still set are removed. -/
def cleanInode (inodeIsJpg : ℕ → Bool) (out : Dir) (i : ℕ) : Dir :=
  if inodeIsJpg i then removeFiles out i else out

/-- **The mode for `top_secret`.** -/
def topSecretMode (env : Env) (d : Disk) (g : Globals) (s : State) (t : ℕ) : Option Dir :=
  ((topSecretVisits env d g t).foldlM (nameEntry env g true) s).map fun s' =>
    (List.range (flagCount g).toNat).foldl (cleanInode s'.inodeIsJpg) s'.out

/-- The mode without `top_secret`: all directories are walked once more. -/
def allJpgMode (env : Env) (d : Disk) (g : Globals) (s : State) : Option Dir :=
  ((groupLoop d (readSuperBlock d) g 0).foldlM (fun s v =>
    let inode := readInode env d v.offset
    if sIsdir inode.iMode then
      (visits env d g v.number.toNat inode).foldlM (nameEntry env g false) s
    else some s) s).map State.out

/-- **`main`**, in a new output directory. -/
def runscan (env : Env) (d : Disk) : Option Dir :=
  (ext2ReadInit (readSuperBlock d)).bind fun g =>
    (scanAll env d g).bind fun s =>
      match s.topSecret with
      | some t => topSecretMode env d g s t
      | none => allJpgMode env d g s

/-! ### What the scan leaves -/

/-- **Inode `i` is recovered**: it is a JPEG that the scan reads. -/
def IsRecovered (env : Env) (d : Disk) (g : Globals) (vs : List InodeRead) (i : ℕ) : Prop :=
  ∃ v ∈ vs, v.number.toNat = i ∧ (recovered env d g v).isSome

instance (env : Env) (d : Disk) (g : Globals) (vs : List InodeRead) (i : ℕ) :
    Decidable (IsRecovered env d g vs i) := inferInstanceAs (Decidable (∃ v ∈ vs, _))

section Scan
variable {env : Env} {d : Disk} {g : Globals}

theorem isRecovered_cons {v : InodeRead} {vs : List InodeRead} {i : ℕ} :
    IsRecovered env d g (v :: vs) i ↔
      (v.number.toNat = i ∧ (recovered env d g v).isSome) ∨ IsRecovered env d g vs i :=
  List.exists_mem_cons_iff ..

/-- The search for `top_secret` leaves the flags and the files. -/
theorem foldl_findTopSecret (es : List Visit) (s : State) :
    (es.foldl (findTopSecret g) s).inodeIsJpg = s.inodeIsJpg ∧
      (es.foldl (findTopSecret g) s).out = s.out := by
  induction es generalizing s with
  | nil => exact ⟨rfl, rfl⟩
  | cons e es ih =>
    rw [List.foldl_cons, (ih _).1, (ih _).2, findTopSecret]
    split_ifs
    · exact ⟨rfl, rfl⟩
    · exact ⟨rfl, rfl⟩

/-- What one round of the scan does: it saves a JPEG, or changes only what it knows of `top_secret`. -/
theorem scanInode_cases {s s' : State} {v : InodeRead} (h : scanInode env d g s v = some s') :
    (∃ bytes, recovered env d g v = some bytes ∧ v.number < flagCount g ∧
        s' = saveJpg env d s v bytes) ∨
      (recovered env d g v = none ∧ s'.inodeIsJpg = s.inodeIsJpg ∧ s'.out = s.out) := by
  unfold scanInode at h
  split at h
  · next bytes hrec =>
    split_ifs at h with hlt
    exact Or.inl ⟨bytes, hrec, hlt, (Option.some.inj h).symm⟩
  · next hrec =>
    refine Or.inr ⟨hrec, ?_⟩
    dsimp only at h
    split_ifs at h
    · rw [← Option.some.inj h]
      exact foldl_findTopSecret _ s
    · rw [← Option.some.inj h]
      exact ⟨rfl, rfl⟩

/-- The files of a JPEG are new after it is saved. -/
theorem isSome_saveJpg (s : State) (v : InodeRead) (bytes : List UInt8) (f : FileName) :
    ((saveJpg env d s v bytes).out f).isSome ↔
      (f = jpgName v.number.toNat ∨ f = detailsName v.number.toNat) ∨ (s.out f).isSome := by
  simp only [saveJpg, Function.update_apply]
  split_ifs with h1 h2
  · simp [h1]
  · simp [h2]
  · simp [h1, h2]

/-- **The scan**, by induction on the inodes read: flags and files are those of the recovered inodes,
whose numbers are all in range. -/
theorem scan_spec (vs : List InodeRead) (s s' : State)
    (h : vs.foldlM (scanInode env d g) s = some s') :
    (∀ i, s'.inodeIsJpg i ↔ s.inodeIsJpg i ∨ IsRecovered env d g vs i) ∧
      (∀ f, (s'.out f).isSome ↔ (s.out f).isSome ∨
        ∃ i, IsRecovered env d g vs i ∧ (f = jpgName i ∨ f = detailsName i)) ∧
      ∀ i, IsRecovered env d g vs i → i < (flagCount g).toNat := by
  induction vs generalizing s with
  | nil =>
    obtain rfl : s = s' := Option.some.inj h
    simp [IsRecovered]
  | cons v vs ih =>
    rw [List.foldlM_cons] at h
    obtain ⟨s1, h1, h2⟩ := Option.bind_eq_some_iff.mp h
    obtain ⟨hflag, hout, hlt⟩ := ih s1 h2
    simp only [isRecovered_cons]
    rcases scanInode_cases h1 with ⟨bytes, hrec, hnum, rfl⟩ | ⟨hrec, hflag1, hout1⟩
    · simp only [hrec, Option.isSome_some, and_true]
      refine ⟨fun i => ?_, fun f => ?_, fun i hi => ?_⟩
      · rw [hflag i]
        simp only [saveJpg, Function.update_apply]
        split_ifs with hi
        · simp [hi]
        · simp [Ne.symm hi]
      · rw [hout f, isSome_saveJpg]
        simp only [or_and_right, exists_or, exists_eq_left']
        exact or_assoc.trans or_left_comm
      · rcases hi with rfl | hi
        · exact UInt32.lt_iff_toNat_lt.mp hnum
        · exact hlt i hi
    · simp only [hrec, Option.isSome_none, Bool.false_eq_true, and_false, false_or]
      rw [hflag1] at hflag
      rw [hout1] at hout
      exact ⟨hflag, hout, hlt⟩

/-- The number found for `top_secret` after the entries `es`. -/
def secretIn (g : Globals) (es : List Visit) (t : Option ℕ) : Option ℕ :=
  es.foldl (fun t e =>
    if e.inode ≤ (flagCount g).toNat ∧ e.name = topSecretBytes then some e.inode else t) t

/-- The number found for `top_secret` after the inodes `vs`. -/
def secretOf (env : Env) (d : Disk) (g : Globals) (vs : List InodeRead) (t : Option ℕ) : Option ℕ :=
  vs.foldl (fun t v =>
    if recovered env d g v = none ∧ sIsdir (readInode env d v.offset).iMode then
      secretIn g (visits env d g v.number.toNat (readInode env d v.offset)) t
    else t) t

theorem topSecret_foldl (es : List Visit) (s : State) :
    (es.foldl (findTopSecret g) s).topSecret = secretIn g es s.topSecret := by
  induction es generalizing s with
  | nil => rfl
  | cons e es ih =>
    rw [List.foldl_cons, ih, secretIn, secretIn, List.foldl_cons, findTopSecret]
    split_ifs
    · rfl
    · rfl

/-- The scan comes to its end if `inode_is_jpg` holds a flag for every JPEG. -/
theorem scan_total (vs : List InodeRead) (s : State)
    (hlt : ∀ i, IsRecovered env d g vs i → i < (flagCount g).toNat) :
    ∃ s', vs.foldlM (scanInode env d g) s = some s' ∧
      s'.topSecret = secretOf env d g vs s.topSecret := by
  induction vs generalizing s with
  | nil => exact ⟨s, rfl, rfl⟩
  | cons v vs ih =>
    simp only [isRecovered_cons] at hlt
    obtain ⟨s1, h1, htop⟩ : ∃ s1, scanInode env d g s v = some s1 ∧
        s1.topSecret = secretOf env d g [v] s.topSecret := by
      unfold scanInode
      simp only [secretOf, List.foldl_cons, List.foldl_nil]
      split
      · next bytes hrec =>
        have hnum : v.number < flagCount g :=
          UInt32.lt_iff_toNat_lt.mpr (hlt _ (Or.inl ⟨rfl, by rw [hrec]; rfl⟩))
        exact ⟨_, if_pos hnum, by simp [hrec, saveJpg]⟩
      · next hrec =>
        by_cases hdir : sIsdir (readInode env d v.offset).iMode
        · exact ⟨_, if_pos hdir, by rw [topSecret_foldl, if_pos ⟨hrec, hdir⟩]⟩
        · exact ⟨s, if_neg hdir, by rw [if_neg fun hc => hdir hc.2]⟩
    obtain ⟨s', h2, htop'⟩ := ih s1 fun i hi => hlt i (Or.inr hi)
    refine ⟨s', ?_, ?_⟩
    · rw [List.foldlM_cons, h1]
      exact h2
    · rw [htop', htop]
      rfl

/-- The scan comes to its end wherever the inode numbers fit 32 bits. -/
theorem scanAll_total (env : Env) (d : Disk) (g : Globals)
    (hfit : g.numGroups.toNat * g.inodesPerGroup.toNat + 1 < 2 ^ 32) :
    ∃ s, scanAll env d g = some s ∧
      s.topSecret = secretOf env d g (groupLoop d (readSuperBlock d) g 0) none := by
  refine scan_total _ _ fun i hi => ?_
  obtain ⟨v, hv, rfl, -⟩ := hi
  have hmem : v.number.toNat ∈ (groupLoop d (readSuperBlock d) g 0).map fun v => v.number.toNat :=
    List.mem_map_of_mem hv
  rw [numbers_groupLoop d _ g (by omega), List.mem_range'_1] at hmem
  have hcount : (flagCount g).toNat = g.numGroups.toNat * g.inodesPerGroup.toNat + 1 := by
    rw [flagCount, UInt32.toNat_add, UInt32.toNat_mul, Nat.mod_add_mod]
    exact Nat.mod_eq_of_lt hfit
  omega

end Scan

end OperatingSystems.RunScan.Output
