import Mathlib.Tactic
import OperatingSystems.RunScan.Output

/-! # Runscan: the output of the mode for `top_secret`

In this mode `inode_is_jpg` is first the set of the recovered inodes, then of those that still need a
named copy, and at last of those whose files are removed. The first entry of an inode clears its flag,
so that a second entry of the same inode gets no copy.

* `chosen`: the entries `E`, read where the scan reads the inode of `top_secret`; the mode looks it up
  elsewhere if it is the last of a group (`topSecretVisits_eq`).
* `copied`: the entries that get a copy, as the flags stand when the walk comes to them.
* `copyAll_spec`, `copyAll_total`: what a list of copies leaves, and when it comes to its end.
* `output_iff`: if `top_secret` is not the last inode of a group, the directory is the wanted one exactly
  if the entries name distinct inodes, their names are proper, and no entry runs into the byte behind
  `inode_is_jpg`. -/

namespace OperatingSystems.RunScan.TopSecret

open OperatingSystems.RunScan.Copy OperatingSystems.RunScan.DirWalk
open OperatingSystems.RunScan.Geometry OperatingSystems.RunScan.Output

/-! ### What is wanted -/

/-- The inode numbered `t`, at the place that the numbers of the scan give it: they start at 1 in the
first group, and each group has the next `inodes_per_group` of them. -/
def numberedInode (env : Env) (d : Disk) (g : Globals) (t : ℕ) : Ext2Inode :=
  readInode env d (inodeOffset (tableOf env d g ((t - 1) / g.inodesPerGroup.toNat))
    ((t - 1) % g.inodesPerGroup.toNat + 1 : ℕ) (readSuperBlock d).sInodeSize)

/-- The entries in the first block of `top_secret`. -/
def secretEntries (env : Env) (d : Disk) (g : Globals) (t : ℕ) : List Visit :=
  visits env d g t (numberedInode env d g t)

/-- **The entries `E`**: those in the first block of `top_secret` that have a name and whose inode is
recovered. -/
def chosen (env : Env) (d : Disk) (g : Globals) (t : ℕ) : List Visit :=
  (secretEntries env d g t).filter fun e =>
    e.name ≠ [] ∧ IsRecovered env d g (groupLoop d (readSuperBlock d) g 0) e.inode

/-- The scan finds `top_secret` as inode `t`. -/
structure Found (env : Env) (d : Disk) (g : Globals) (t : ℕ) : Prop where
  init : ext2ReadInit (readSuperBlock d) = some g
  scan : ∃ s, scanAll env d g = some s ∧ s.topSecret = some t

/-- The names differ from each other and from those that the scan gives. -/
structure Distinct (es : List Visit) : Prop where
  nodup : (es.map Visit.name).Nodup
  free : ∀ e ∈ es, ∀ i, e.name ≠ (jpgName i).bytes ∧ e.name ≠ (detailsName i).bytes

/-- **The wanted directory**: both files of every inode that occurs, for every entry a file of its name
with the bytes of `file-<i>.jpg`, and no other file. -/
structure Exact (es : List Visit) (out : Dir) : Prop where
  only : ∀ f, (out f).isSome →
    ∃ e ∈ es, f = jpgName e.inode ∨ f = detailsName e.inode ∨ f.bytes = e.name
  saved : ∀ e ∈ es, (out (jpgName e.inode)).isSome ∧ (out (detailsName e.inode)).isSome
  named : ∀ e ∈ es, ∃ f : FileName, f.bytes = e.name ∧ (out f).isSome ∧ out f = out (jpgName e.inode)

/-! ### The inode of `top_secret` -/

section Numbers
variable {env : Env} {d : Disk} {g : Globals} {t : ℕ}

/-- Below the last number of a group, counting from 1 gives the same two parts as counting from 0. -/
theorem parts_of_mod_ne {p t : ℕ} (h : t % p ≠ 0) : (t - 1) / p = t / p ∧ (t - 1) % p + 1 = t % p := by
  have hsplit := Nat.div_add_mod t p
  rcases Nat.eq_zero_or_pos p with rfl | hp
  · simp at h ⊢
    omega
  · have hlt := Nat.mod_lt t hp
    have hparts : (t - 1) / p = t / p ∧ (t - 1) % p = t % p - 1 :=
      (Nat.div_mod_unique hp).mpr ⟨by omega, by omega⟩
    exact ⟨hparts.1, by omega⟩

/-- So the mode reads the inode of `top_secret` unless it is the last of a group. -/
theorem topSecretVisits_eq (h : t % g.inodesPerGroup.toNat ≠ 0) :
    topSecretVisits env d g t = secretEntries env d g t := by
  obtain ⟨hdiv, hmod⟩ := parts_of_mod_ne h
  rw [topSecretVisits, topSecretInode, secretEntries, numberedInode, hdiv, hmod]

/-- This inode is the one that the scan has read under the number `t`. -/
theorem scanned_numberedInode (h1 : 1 ≤ t)
    (ht : t ≤ g.numGroups.toNat * g.inodesPerGroup.toNat) (hlt : t < 2 ^ 32) :
    ∃ v ∈ groupLoop d (readSuperBlock d) g 0, v.number.toNat = t ∧
      numberedInode env d g t = readInode env d v.offset := by
  have hp : 0 < g.inodesPerGroup.toNat := Nat.pos_of_ne_zero fun h0 => by simp [h0] at ht; omega
  have hn : (t - 1) / g.inodesPerGroup.toNat < g.numGroups.toNat :=
    (Nat.div_lt_iff_lt_mul hp).mpr (by omega)
  have hi := Nat.mod_lt (t - 1) hp
  have hsum := Nat.div_add_mod' (t - 1) g.inodesPerGroup.toNat
  refine ⟨_, mem_groupLoop.mpr ⟨_, hn, _, Nat.le_add_left 1 _, hi, rfl⟩, ?_, ?_⟩
  · show (visitInode d (readSuperBlock d) g _ _).number.toNat = t
    rw [visitInode, toNat_number (by omega)]
    omega
  · rw [numberedInode, tableOf, if_pos hn]
    rfl

end Numbers

/-! ### Which entries get a copy -/

/-- The entry passes the tests of the loop. -/
def Passes (g : Globals) (flags : ℕ → Bool) (e : Visit) : Prop :=
  e.inode ≤ (flagCount g).toNat ∧ e.name ≠ [] ∧ flags e.inode

instance (g : Globals) (flags : ℕ → Bool) (e : Visit) : Decidable (Passes g flags e) :=
  inferInstanceAs (Decidable (_ ∧ _))

/-- The entries that get a copy: each clears the flag of its inode. -/
def copied (g : Globals) : (ℕ → Bool) → List Visit → List Visit
  | _, [] => []
  | flags, e :: es =>
    if Passes g flags e then e :: copied g (Function.update flags e.inode false) es
    else copied g flags es

/-- The copies, one after the other. -/
def copyAll (env : Env) (out : Dir) (cs : List Visit) : Option Dir :=
  cs.foldlM (fun out e => copyNamed env out e.inode e.name) out

/-- The flags that the copies leave. -/
def cleared (flags : ℕ → Bool) (cs : List Visit) : ℕ → Bool :=
  fun i => flags i && !decide (i ∈ cs.map Visit.inode)

section Copied
variable {g : Globals} {flags : ℕ → Bool} {es : List Visit}

theorem passes_update {e e' : Visit} :
    Passes g (Function.update flags e.inode false) e' ↔
      Passes g flags e' ∧ e'.inode ≠ e.inode := by
  unfold Passes
  rw [Function.update_apply]
  split_ifs with h
  · simp [h]
  · simp [h]

theorem copied_sublist : ∀ (es : List Visit) (flags : ℕ → Bool), (copied g flags es).Sublist es
  | [], _ => List.Sublist.slnil
  | e :: es, flags => by
    unfold copied
    split_ifs
    · exact (copied_sublist es _).cons_cons e
    · exact (copied_sublist es flags).cons e

theorem passes_of_mem_copied {c : Visit} : ∀ (es : List Visit) (flags : ℕ → Bool),
    c ∈ copied g flags es → Passes g flags c
  | [], _, h => by simp [copied] at h
  | e :: es, flags, h => by
    unfold copied at h
    split_ifs at h with hp
    · rcases List.mem_cons.mp h with rfl | h
      · exact hp
      · exact (passes_update.mp (passes_of_mem_copied es _ h)).1
    · exact passes_of_mem_copied es flags h

/-- An inode gets at most one copy. -/
theorem nodup_copied : ∀ (es : List Visit) (flags : ℕ → Bool),
    ((copied g flags es).map Visit.inode).Nodup
  | [], _ => List.nodup_nil
  | e :: es, flags => by
    unfold copied
    split_ifs
    · refine List.nodup_cons.mpr ⟨fun hmem => ?_, nodup_copied es _⟩
      obtain ⟨c, hc, heq⟩ := List.mem_map.mp hmem
      exact (passes_update.mp (passes_of_mem_copied es _ hc)).2 heq
    · exact nodup_copied es flags

/-- Every inode whose entries pass the tests gets a copy. -/
theorem inode_mem_copied {e : Visit} : ∀ (es : List Visit) (flags : ℕ → Bool),
    e ∈ es → Passes g flags e → e.inode ∈ (copied g flags es).map Visit.inode
  | e' :: es, flags, hmem, hp => by
    unfold copied
    split_ifs with hp'
    · by_cases heq : e.inode = e'.inode
      · rw [heq]
        exact List.mem_cons_self
      · have hes : e ∈ es := (List.mem_cons.mp hmem).resolve_left fun h => heq (h ▸ rfl)
        exact List.mem_cons_of_mem _ (inode_mem_copied es _ hes (passes_update.mpr ⟨hp, heq⟩))
    · have hes : e ∈ es := (List.mem_cons.mp hmem).resolve_left fun h => hp' (h ▸ hp)
      exact inode_mem_copied es flags hes hp

/-- If they name distinct inodes, all entries that pass get a copy. -/
theorem copied_eq_filter (p : Visit → Prop) [DecidablePred p] :
    ∀ (es : List Visit) (flags : ℕ → Bool), (∀ e ∈ es, Passes g flags e ↔ p e) →
      ((es.filter p).map Visit.inode).Nodup → copied g flags es = es.filter p
  | [], _, _, _ => rfl
  | e :: es, flags, hiff, hnodup => by
    unfold copied
    by_cases hp : p e
    · rw [List.filter_cons_of_pos (by simpa using hp), List.map_cons, List.nodup_cons] at hnodup
      rw [if_pos ((hiff e List.mem_cons_self).mpr hp),
        List.filter_cons_of_pos (by simpa using hp)]
      congr 1
      refine copied_eq_filter p es _ (fun e' he' => ?_) hnodup.2
      rw [passes_update, hiff e' (List.mem_cons_of_mem _ he')]
      refine ⟨fun h => h.1, fun h => ⟨h, fun heq => hnodup.1 ?_⟩⟩
      exact List.mem_map.mpr ⟨e', List.mem_filter.mpr ⟨he', by simpa using h⟩, heq⟩
    · rw [List.filter_cons_of_neg (by simpa using hp)] at hnodup ⊢
      rw [if_neg fun h => hp ((hiff e List.mem_cons_self).mp h)]
      exact copied_eq_filter p es flags
        (fun e' he' => hiff e' (List.mem_cons_of_mem _ he')) hnodup

theorem cleared_nil (flags : ℕ → Bool) : cleared flags [] = flags := by
  funext i
  simp [cleared]

theorem cleared_cons (flags : ℕ → Bool) (e : Visit) (cs : List Visit) :
    cleared flags (e :: cs) = cleared (Function.update flags e.inode false) cs := by
  funext i
  by_cases h : i = e.inode
  · simp [cleared, h]
  · simp [cleared, h]

theorem nameEntry_of_passes {env : Env} {s : State} {e : Visit} (hp : Passes g s.inodeIsJpg e) :
    nameEntry env g true s e = (copyNamed env s.out e.inode e.name).map fun out =>
      { s with inodeIsJpg := Function.update s.inodeIsJpg e.inode false, out := out } := if_pos hp

theorem nameEntry_of_not {env : Env} {s : State} {e : Visit} (hp : ¬ Passes g s.inodeIsJpg e) :
    nameEntry env g true s e = some s := if_neg hp

/-- **The loop makes the copies**, by induction on the entries. -/
theorem foldlM_nameEntry (env : Env) : ∀ (es : List Visit) (s : State),
    es.foldlM (nameEntry env g true) s =
      (copyAll env s.out (copied g s.inodeIsJpg es)).map fun out =>
        { s with inodeIsJpg := cleared s.inodeIsJpg (copied g s.inodeIsJpg es), out := out }
  | [], s => by
    rw [copied, cleared_nil]
    rfl
  | e :: es, s => by
    rw [List.foldlM_cons]
    unfold copied
    split_ifs with hp
    · rw [nameEntry_of_passes hp, copyAll, List.foldlM_cons, cleared_cons]
      cases copyNamed env s.out e.inode e.name with
      | none => rfl
      | some out => exact foldlM_nameEntry env es _
    · rw [nameEntry_of_not hp]
      exact foldlM_nameEntry env es s

end Copied

/-! ### What the copies leave -/

/-- The names of the entries are proper, and none is a name that the scan gives to a JPEG. -/
def Good (cs : List Visit) : Prop := ∀ c ∈ cs, Proper c.name ∧ ∀ i, c.name ≠ (jpgName i).bytes

section CopyAll
variable {env : Env}

theorem copyNamed_eq {out : Dir} {c : Visit} (hp : Proper c.name)
    (hfree : ∀ i, c.name ≠ (jpgName i).bytes) :
    copyNamed env out c.inode c.name =
      (out (jpgName c.inode)).map fun bytes => Function.update out ⟨c.name, hp⟩ (some bytes) := by
  have hne : jpgName c.inode ≠ ⟨c.name, hp⟩ := fun h => hfree _ (congrArg FileName.bytes h).symm
  unfold copyNamed
  rw [fopenWrite, dif_pos hp]
  cases hold : out (jpgName c.inode) with
  | none => rfl
  | some bytes => simp [put, Function.update_of_ne hne, hold]

/-- What one copy does: its source is there, and only the file of its name changes. -/
theorem copyNamed_spec {out out' : Dir} {c : Visit} (hp : Proper c.name)
    (hfree : ∀ i, c.name ≠ (jpgName i).bytes) (h : copyNamed env out c.inode c.name = some out') :
    (out (jpgName c.inode)).isSome ∧ (∀ f, f.bytes ≠ c.name → out' f = out f) ∧
      ∀ f, f.bytes = c.name → out' f = out (jpgName c.inode) := by
  rw [copyNamed_eq hp hfree, Option.map_eq_some_iff] at h
  obtain ⟨bytes, hold, rfl⟩ := h
  refine ⟨by rw [hold]; rfl, fun f hf => ?_, fun f hf => ?_⟩
  · exact Function.update_of_ne (fun h => hf (congrArg FileName.bytes h)) _ _
  · obtain rfl : f = ⟨c.name, hp⟩ := by cases f; congr 1
    rw [Function.update_self, hold]

/-- **What the copies leave**, by induction on their list: every source was there, the files of other
names are left alone, and each copy has the bytes of its source. -/
theorem copyAll_spec : ∀ (cs : List Visit) (out : Dir) {out' : Dir}, Good cs →
    copyAll env out cs = some out' →
    (∀ c ∈ cs, (out (jpgName c.inode)).isSome) ∧
      (∀ f, (∀ c ∈ cs, f.bytes ≠ c.name) → out' f = out f) ∧
      ((cs.map Visit.name).Nodup → ∀ c ∈ cs, ∀ f, f.bytes = c.name → out' f = out (jpgName c.inode))
  | [], out, out', _, h => by
    obtain rfl : out = out' := Option.some.inj h
    simp
  | c :: cs, out, out', hgood, h => by
    obtain ⟨hp, hfree⟩ := hgood c List.mem_cons_self
    rw [copyAll, List.foldlM_cons] at h
    obtain ⟨out1, h1, h2⟩ := Option.bind_eq_some_iff.mp h
    obtain ⟨hsrc, hother, hcopy⟩ := copyNamed_spec hp hfree h1
    have hjpg : ∀ i, out1 (jpgName i) = out (jpgName i) := fun i => hother _ (Ne.symm (hfree i))
    obtain ⟨ihsrc, ihother, ihcopy⟩ :=
      copyAll_spec cs out1 (fun c hc => hgood c (List.mem_cons_of_mem _ hc)) h2
    refine ⟨?_, fun f hf => ?_, fun hnodup => ?_⟩
    · rintro c' hc'
      rcases List.mem_cons.mp hc' with rfl | hc'
      · exact hsrc
      · rw [← hjpg]
        exact ihsrc c' hc'
    · rw [ihother f fun c' hc' => hf c' (List.mem_cons_of_mem _ hc')]
      exact hother f (hf c List.mem_cons_self)
    · rw [List.map_cons, List.nodup_cons] at hnodup
      intro c' hc' f hf
      rcases List.mem_cons.mp hc' with rfl | hc'
      · rw [ihother f fun c hc heq => hnodup.1 (List.mem_map.mpr ⟨c, hc, heq.symm.trans hf⟩)]
        exact hcopy f hf
      · rw [ihcopy hnodup.2 c' hc' f hf, hjpg]

/-- The copies come to their end if every source is there. -/
theorem copyAll_total : ∀ (cs : List Visit) (out : Dir), Good cs →
    (∀ c ∈ cs, (out (jpgName c.inode)).isSome) → ∃ out', copyAll env out cs = some out'
  | [], out, _, _ => ⟨out, rfl⟩
  | c :: cs, out, hgood, hsrc => by
    obtain ⟨hp, hfree⟩ := hgood c List.mem_cons_self
    obtain ⟨bytes, hold⟩ := Option.isSome_iff_exists.mp (hsrc c List.mem_cons_self)
    have h1 : copyNamed env out c.inode c.name = _ := copyNamed_eq hp hfree
    rw [hold, Option.map_some] at h1
    obtain ⟨-, hother, -⟩ := copyNamed_spec hp hfree h1
    obtain ⟨out', h2⟩ := copyAll_total cs (Function.update out ⟨c.name, hp⟩ (some bytes))
      (fun c hc => hgood c (List.mem_cons_of_mem _ hc)) fun c' hc' => by
        rw [hother _ (Ne.symm (hfree _))]
        exact hsrc c' (List.mem_cons_of_mem _ hc')
    refine ⟨out', ?_⟩
    rw [copyAll, List.foldlM_cons, h1]
    exact h2

end CopyAll

/-! ### The clean-up -/

theorem removeFiles_apply (out : Dir) (i : ℕ) (f : FileName) :
    removeFiles out i f = if f = jpgName i ∨ f = detailsName i then none else out f := by
  unfold removeFiles
  simp only [Function.update_apply]
  split_ifs <;> simp_all

/-- The file is not one of a flagged inode below `n`. -/
def Kept (flags : ℕ → Bool) (n : ℕ) (f : FileName) : Prop :=
  ∀ i < n, flags i → f ≠ jpgName i ∧ f ≠ detailsName i

theorem kept_succ {flags : ℕ → Bool} {n : ℕ} {f : FileName} :
    Kept flags (n + 1) f ↔ Kept flags n f ∧ (flags n → f ≠ jpgName n ∧ f ≠ detailsName n) :=
  Nat.forall_lt_succ_right

/-- **The clean-up removes the files of the flagged inodes** and no others, by induction on the number
of inodes. -/
theorem foldl_cleanInode (flags : ℕ → Bool) (out : Dir) (f : FileName) : ∀ n : ℕ,
    (Kept flags n f → (List.range n).foldl (cleanInode flags) out f = out f) ∧
      (¬ Kept flags n f → (List.range n).foldl (cleanInode flags) out f = none)
  | 0 => ⟨fun _ => rfl, fun h => absurd (fun i hi => absurd hi (Nat.not_lt_zero i)) h⟩
  | n + 1 => by
    obtain ⟨hkept, hgone⟩ := foldl_cleanInode flags out f n
    rw [List.range_succ, List.foldl_append, List.foldl_cons, List.foldl_nil, cleanInode, kept_succ]
    split_ifs with hflag
    · rw [removeFiles_apply]
      split_ifs with hf
      · exact ⟨fun h => absurd hf (not_or.mpr (h.2 hflag)), fun _ => rfl⟩
      · exact ⟨fun h => hkept h.1, fun h => hgone fun hk => h ⟨hk, fun _ => not_or.mp hf⟩⟩
    · exact ⟨fun h => hkept h.1, fun h => hgone fun hk => h ⟨hk, fun hn => absurd hn hflag⟩⟩

/-! ### The output -/

section Output
variable {env : Env} {d : Disk} {g : Globals} {t : ℕ} {s : State}

/-- What the scan leaves, for the whole list of inodes. -/
theorem scanAll_spec (hs : scanAll env d g = some s) :
    (∀ i, IsRecovered env d g (groupLoop d (readSuperBlock d) g 0) i ↔
        i < (flagCount g).toNat ∧ s.inodeIsJpg i) ∧
      s.inodeIsJpg (flagCount g).toNat = env.strayFlag ∧
      (∀ f, (s.out f).isSome ↔ ∃ i, i < (flagCount g).toNat ∧ s.inodeIsJpg i ∧
        (f = jpgName i ∨ f = detailsName i)) := by
  obtain ⟨hflag, hout, hlt⟩ := scan_spec _ _ _ hs
  have hin : ∀ i, IsRecovered env d g (groupLoop d (readSuperBlock d) g 0) i ↔
      i < (flagCount g).toNat ∧ s.inodeIsJpg i := by
    intro i
    constructor
    · intro hrec
      exact ⟨hlt i hrec, (hflag i).mpr (Or.inr hrec)⟩
    · rintro ⟨hi, hjpg⟩
      refine ((hflag i).mp hjpg).resolve_left fun h0 => ?_
      simp [start, hi] at h0
  refine ⟨hin, ?_, fun f => ?_⟩
  · rw [Bool.eq_iff_iff, hflag]
    simp only [start, lt_irrefl, if_false, or_iff_left_iff_imp]
    exact fun hrec => absurd (hlt _ hrec) (lt_irrefl _)
  · rw [hout f]
    simp only [start, Option.isSome_none, Bool.false_eq_true, false_or, hin, and_assoc]

/-- The run of the mode for `top_secret`. -/
theorem runscan_eq (hg : ext2ReadInit (readSuperBlock d) = some g) (hs : scanAll env d g = some s)
    (ht : s.topSecret = some t) :
    runscan env d =
      (copyAll env s.out (copied g s.inodeIsJpg (topSecretVisits env d g t))).map fun out =>
        (List.range (flagCount g).toNat).foldl
          (cleanInode (cleared s.inodeIsJpg (copied g s.inodeIsJpg (topSecretVisits env d g t))))
          out := by
  rw [runscan, hg, Option.bind_some, hs, Option.bind_some, ht]
  show topSecretMode env d g s t = _
  rw [topSecretMode, foldlM_nameEntry, Option.map_map]
  rfl

/-- No entry with a name runs into the byte behind `inode_is_jpg`, or that byte is zero. -/
def NoStray (env : Env) (d : Disk) (g : Globals) (t : ℕ) : Prop :=
  ∀ e ∈ secretEntries env d g t, e.name ≠ [] → e.inode = (flagCount g).toNat →
    env.strayFlag = false

theorem mem_chosen {e : Visit} : e ∈ chosen env d g t ↔ e ∈ secretEntries env d g t ∧
    e.name ≠ [] ∧ IsRecovered env d g (groupLoop d (readSuperBlock d) g 0) e.inode := by
  rw [chosen, List.mem_filter, decide_eq_true_iff]

/-- A JPEG passes the tests, and whatever else passes is the byte behind the array. -/
theorem passes_iff (hs : scanAll env d g = some s) {e : Visit} (hne : e.inode ≠ (flagCount g).toNat) :
    Passes g s.inodeIsJpg e ↔
      e.name ≠ [] ∧ IsRecovered env d g (groupLoop d (readSuperBlock d) g 0) e.inode := by
  rw [Passes, (scanAll_spec hs).1, Nat.lt_iff_le_and_ne]
  tauto

/-- The entries that get a copy are those of `E`, as long as no stray byte is met. -/
theorem passes_iff_of_noStray (hs : scanAll env d g = some s) (hstray : NoStray env d g t) :
    ∀ e ∈ secretEntries env d g t, Passes g s.inodeIsJpg e ↔
      e.name ≠ [] ∧ IsRecovered env d g (groupLoop d (readSuperBlock d) g 0) e.inode := by
  intro e he
  by_cases hne : e.inode = (flagCount g).toNat
  · obtain ⟨hin, hbyte, -⟩ := scanAll_spec hs
    constructor
    · rintro ⟨-, hname, hflag⟩
      rw [hne, hbyte, hstray e he hname hne] at hflag
      exact absurd hflag Bool.false_ne_true
    · rintro ⟨-, hrec⟩
      exact absurd hne ((hin _).mp hrec).1.ne
  · exact passes_iff hs hne

theorem isSome_of_copyNamed {out out' : Dir} {i : ℕ} {name : List UInt8}
    (h : copyNamed env out i name = some out') : (out (jpgName i)).isSome := by
  unfold copyNamed at h
  split at h
  · next hold _ => rw [hold]; rfl
  · cases h

/-- If all copies are made, no stray byte was met: there is no JPEG of that number to copy. -/
theorem noStray_of_copyAll (hs : scanAll env d g = some s) (hgood : Good (chosen env d g t))
    {out : Dir}
    (h : copyAll env s.out (copied g s.inodeIsJpg (secretEntries env d g t)) = some out) :
    NoStray env d g t := by
  intro e he hname hinode
  rw [Bool.eq_false_iff]
  intro hset
  obtain ⟨hin, hbyte, hout⟩ := scanAll_spec hs
  have hpass : Passes g s.inodeIsJpg e := ⟨hinode.le, hname, by rw [hinode, hbyte, hset]⟩
  obtain ⟨c, hc, hci⟩ := List.mem_map.mp (inode_mem_copied _ _ he hpass)
  rw [hinode] at hci
  obtain ⟨pre, post, hsplit⟩ := List.append_of_mem hc
  have hnodup := nodup_copied (g := g) (secretEntries env d g t) s.inodeIsJpg
  have hpre : Good pre := by
    intro c' hc'
    have hmem : c' ∈ copied g s.inodeIsJpg (secretEntries env d g t) := by
      rw [hsplit]
      exact List.mem_append_left _ hc'
    have hne : c'.inode ≠ (flagCount g).toNat := by
      rw [hsplit, List.map_append, List.map_cons] at hnodup
      intro heq
      exact (List.nodup_append.mp hnodup).2.2 _ (List.mem_map_of_mem hc') _ List.mem_cons_self
        (heq.trans hci.symm)
    refine hgood c' (mem_chosen.mpr ⟨(copied_sublist _ _).subset hmem, ?_⟩)
    exact (passes_iff hs hne).mp (passes_of_mem_copied _ _ hmem)
  rw [hsplit, copyAll, List.foldlM_append] at h
  obtain ⟨out1, h1, h2⟩ := Option.bind_eq_some_iff.mp h
  rw [List.foldlM_cons] at h2
  obtain ⟨out2, h3, -⟩ := Option.bind_eq_some_iff.mp h2
  have hsrc := isSome_of_copyNamed h3
  rw [hci, (copyAll_spec pre s.out hpre h1).2.1 _ fun c' hc' => Ne.symm ((hpre c' hc').2 _)] at hsrc
  obtain ⟨i, hi, -, hf | hf⟩ := (hout _).mp hsrc
  · exact absurd (jpgName_injective hf) hi.ne'
  · exact jpgName_ne_detailsName _ _ hf

/-- Without a stray byte the entries that get a copy are entries of `E`. -/
theorem copied_sublist_chosen (hs : scanAll env d g = some s) (hstray : NoStray env d g t) :
    (copied g s.inodeIsJpg (secretEntries env d g t)).Sublist (chosen env d g t) := by
  have hsub := copied_sublist (g := g) (secretEntries env d g t) s.inodeIsJpg
  have hall : ∀ c ∈ copied g s.inodeIsJpg (secretEntries env d g t), c ∈ chosen env d g t :=
    fun c hc => mem_chosen.mpr ⟨hsub.subset hc, (passes_iff_of_noStray hs hstray c
      (hsub.subset hc)).mp (passes_of_mem_copied _ _ hc)⟩
  have hself := List.filter_eq_self.mpr fun c hc => (List.mem_filter.mp (hall c hc)).2
  rw [← hself]
  exact hsub.filter _

/-- If the output is right, every entry of `E` got a copy, so that they name distinct inodes. -/
theorem nodup_of_exact (hs : scanAll env d g = some s) (hnames : Distinct (chosen env d g t))
    (hgood : Good (chosen env d g t)) (hstray : NoStray env d g t) {out : Dir} {flags : ℕ → Bool}
    (h : copyAll env s.out (copied g s.inodeIsJpg (secretEntries env d g t)) = some out)
    (hexact : Exact (chosen env d g t)
      ((List.range (flagCount g).toNat).foldl (cleanInode flags) out)) :
    ((chosen env d g t).map Visit.inode).Nodup := by
  have hsub := copied_sublist_chosen hs hstray
  have hcopies := copyAll_spec _ _ (fun c hc => hgood c (hsub.subset hc)) h
  have hall : chosen env d g t ⊆ copied g s.inodeIsJpg (secretEntries env d g t) := by
    intro e he
    obtain ⟨f, hf, hsome, -⟩ := hexact.named e he
    have hkept : Kept flags (flagCount g).toNat f := by
      by_contra hno
      rw [(foldl_cleanInode flags out f _).2 hno] at hsome
      cases hsome
    rw [(foldl_cleanInode flags out f _).1 hkept] at hsome
    by_contra hnot
    have hother : ∀ c ∈ copied g s.inodeIsJpg (secretEntries env d g t), f.bytes ≠ c.name := by
      intro c hc heq
      have := List.inj_on_of_nodup_map hnames.nodup (hsub.subset hc) he (heq.symm.trans hf)
      exact hnot (this ▸ hc)
    rw [hcopies.2.1 f hother] at hsome
    obtain ⟨i, -, -, rfl | rfl⟩ := ((scanAll_spec hs).2.2 f).mp hsome
    · exact (hnames.free e he i).1 hf.symm
    · exact (hnames.free e he i).2 hf.symm
  have hlen := (List.subperm_of_subset (List.Nodup.of_map _ hnames.nodup) hall).length_le
  rw [← hsub.eq_of_length_le hlen]
  exact nodup_copied _ _

/-- What the clean-up keeps after a copy for every entry of `E`. -/
theorem exact_of_copyAll (hs : scanAll env d g = some s) (hnames : Distinct (chosen env d g t))
    (hgood : Good (chosen env d g t)) {out : Dir}
    (h : copyAll env s.out (chosen env d g t) = some out) :
    Exact (chosen env d g t) ((List.range (flagCount g).toNat).foldl
      (cleanInode (cleared s.inodeIsJpg (chosen env d g t))) out) := by
  obtain ⟨hin, -, hout⟩ := scanAll_spec hs
  obtain ⟨-, hother, hcopy⟩ := copyAll_spec _ _ hgood h
  have hclean := fun f => foldl_cleanInode (cleared s.inodeIsJpg (chosen env d g t)) out f
    (flagCount g).toNat
  have hset : ∀ e ∈ chosen env d g t, cleared s.inodeIsJpg (chosen env d g t) e.inode = false := by
    intro e he
    rw [cleared, decide_eq_true (List.mem_map_of_mem he), Bool.not_true, Bool.and_false]
  have hjpg : ∀ e ∈ chosen env d g t, Kept (cleared s.inodeIsJpg (chosen env d g t))
      (flagCount g).toNat (jpgName e.inode) := by
    intro e he i _ hi
    refine ⟨fun heq => ?_, jpgName_ne_detailsName _ _⟩
    rw [← jpgName_injective heq, hset e he] at hi
    cases hi
  have hdetails : ∀ e ∈ chosen env d g t, Kept (cleared s.inodeIsJpg (chosen env d g t))
      (flagCount g).toNat (detailsName e.inode) := by
    intro e he i _ hi
    refine ⟨(jpgName_ne_detailsName _ _).symm, fun heq => ?_⟩
    rw [← detailsName_injective heq, hset e he] at hi
    cases hi
  have hsrc : ∀ i, out (jpgName i) = s.out (jpgName i) := fun i =>
    hother _ fun c hc => (hnames.free c hc i).1.symm
  have hdsrc : ∀ i, out (detailsName i) = s.out (detailsName i) := fun i =>
    hother _ fun c hc => (hnames.free c hc i).2.symm
  have hsaved : ∀ e ∈ chosen env d g t,
      (s.out (jpgName e.inode)).isSome ∧ (s.out (detailsName e.inode)).isSome := by
    intro e he
    obtain ⟨hlt, hflag⟩ := (hin _).mp (mem_chosen.mp he).2.2
    exact ⟨(hout _).mpr ⟨_, hlt, hflag, Or.inl rfl⟩, (hout _).mpr ⟨_, hlt, hflag, Or.inr rfl⟩⟩
  refine ⟨fun f hf => ?_, fun e he => ?_, fun e he => ?_⟩
  · have hkept : Kept (cleared s.inodeIsJpg (chosen env d g t)) (flagCount g).toNat f := by
      by_contra hno
      rw [(hclean f).2 hno] at hf
      cases hf
    rw [(hclean f).1 hkept] at hf
    by_cases hname : ∃ e ∈ chosen env d g t, f.bytes = e.name
    · obtain ⟨e, he, heq⟩ := hname
      exact ⟨e, he, Or.inr (Or.inr heq)⟩
    · rw [hother f fun c hc heq => hname ⟨c, hc, heq⟩] at hf
      obtain ⟨i, hlt, hflag, hfi⟩ := (hout f).mp hf
      have hmem : i ∈ (chosen env d g t).map Visit.inode := by
        by_contra hno
        have := hkept i hlt (by rw [cleared, hflag, decide_eq_false hno]; rfl)
        exact absurd hfi (not_or.mpr this)
      obtain ⟨e, he, rfl⟩ := List.mem_map.mp hmem
      exact ⟨e, he, hfi.imp_right Or.inl⟩
  · rw [(hclean _).1 (hjpg e he), (hclean _).1 (hdetails e he), hsrc, hdsrc]
    exact hsaved e he
  · obtain ⟨hproper, hfree⟩ := hgood e he
    have hkept : Kept (cleared s.inodeIsJpg (chosen env d g t)) (flagCount g).toNat
        ⟨e.name, hproper⟩ := fun i _ _ =>
      ⟨fun heq => hfree i (congrArg FileName.bytes heq),
        fun heq => (hnames.free e he i).2 (congrArg FileName.bytes heq)⟩
    refine ⟨⟨e.name, hproper⟩, rfl, ?_, ?_⟩
    · rw [(hclean _).1 hkept, hcopy hnames.nodup e he _ rfl]
      exact (hsaved e he).1
    · rw [(hclean _).1 hkept, (hclean _).1 (hjpg e he), hcopy hnames.nodup e he _ rfl, hsrc]

end Output

/-- A right output asks for distinct inodes, proper names and no stray byte. -/
theorem of_exact {env : Env} {d : Disk} {g : Globals} {t : ℕ} (hfound : Found env d g t)
    (hnames : Distinct (chosen env d g t)) (hmod : t % g.inodesPerGroup.toNat ≠ 0) {out : Dir}
    (hrun : runscan env d = some out) (hexact : Exact (chosen env d g t) out) :
    ((chosen env d g t).map Visit.inode).Nodup ∧ (∀ e ∈ chosen env d g t, Proper e.name) ∧
      NoStray env d g t := by
  obtain ⟨s, hs, ht⟩ := hfound.scan
  rw [runscan_eq hfound.init hs ht, topSecretVisits_eq hmod] at hrun
  obtain ⟨out', hcopy, rfl⟩ := Option.map_eq_some_iff.mp hrun
  have hproper : ∀ e ∈ chosen env d g t, Proper e.name := by
    intro e he
    obtain ⟨f, hf, -⟩ := hexact.named e he
    exact hf ▸ f.proper
  have hgood : Good (chosen env d g t) :=
    fun e he => ⟨hproper e he, fun i => (hnames.free e he i).1⟩
  have hstray := noStray_of_copyAll hs hgood hcopy
  exact ⟨nodup_of_exact hs hnames hgood hstray hcopy hexact, hproper, hstray⟩

/-- **When the output is the wanted one.** For every image on which `top_secret` is found as an inode that
is not the last of its group, the names of `E` being distinct and none of those that the scan gives:
exactly if the entries of `E` name distinct inodes, their names are proper, and no entry runs into the
byte behind `inode_is_jpg`. -/
theorem output_iff (env : Env) (d : Disk) (g : Globals) (t : ℕ) (hfound : Found env d g t)
    (hnames : Distinct (chosen env d g t)) (hmod : t % g.inodesPerGroup.toNat ≠ 0) :
    (∃ out, runscan env d = some out ∧ Exact (chosen env d g t) out) ↔
      ((chosen env d g t).map Visit.inode).Nodup ∧ (∀ e ∈ chosen env d g t, Proper e.name) ∧
        NoStray env d g t := by
  constructor
  · rintro ⟨out, hrun, hexact⟩
    exact of_exact hfound hnames hmod hrun hexact
  · rintro ⟨hnodup, hproper, hstray⟩
    obtain ⟨s, hs, ht⟩ := hfound.scan
    rw [runscan_eq hfound.init hs ht, topSecretVisits_eq hmod]
    have hgood : Good (chosen env d g t) :=
      fun e he => ⟨hproper e he, fun i => (hnames.free e he i).1⟩
    have hcs : copied g s.inodeIsJpg (secretEntries env d g t) = chosen env d g t :=
      copied_eq_filter _ _ _ (passes_iff_of_noStray hs hstray) hnodup
    obtain ⟨hin, -, hout⟩ := scanAll_spec hs
    obtain ⟨out, hcopy⟩ := copyAll_total (chosen env d g t) s.out hgood fun e he => by
      obtain ⟨hlt, hflag⟩ := (hin _).mp (mem_chosen.mp he).2.2
      exact (hout _).mpr ⟨_, hlt, hflag, Or.inl rfl⟩
    rw [hcs, hcopy]
    exact ⟨_, rfl, exact_of_copyAll hs hnames hgood hcopy⟩

/-- Entries of which none passes the tests get no copy. -/
theorem copied_eq_nil {g : Globals} {flags : ℕ → Bool} {es : List Visit}
    (h : ∀ e ∈ es, ¬ Passes g flags e) : copied g flags es = [] :=
  List.eq_nil_iff_forall_not_mem.mpr fun c hc =>
    h c ((copied_sublist es flags).subset hc) (passes_of_mem_copied es flags hc)

/-- Without a copy the clean-up leaves nothing of the scan. -/
theorem clean_scan {env : Env} {d : Disk} {g : Globals} {s : State} (hs : scanAll env d g = some s) :
    (List.range (flagCount g).toNat).foldl (cleanInode s.inodeIsJpg) s.out = fun _ => none := by
  obtain ⟨-, -, hout⟩ := scanAll_spec hs
  funext f
  by_cases hkept : Kept s.inodeIsJpg (flagCount g).toNat f
  · rw [(foldl_cleanInode _ _ f _).1 hkept, ← Option.not_isSome_iff_eq_none, hout f]
    rintro ⟨i, hi, hflag, hf⟩
    exact not_or.mpr (hkept i hi hflag) hf
  · exact (foldl_cleanInode _ _ f _).2 hkept

/-- **The last inode of a group.** The mode reads another inode. If no named entry that it finds there is
of a recovered inode or runs into the byte behind `inode_is_jpg`, the output is the wanted one only where
nothing is wanted. -/
theorem output_last {env : Env} {d : Disk} {g : Globals} {t : ℕ} (hfound : Found env d g t)
    (hnone : ∀ e ∈ topSecretVisits env d g t, e.name ≠ [] → e.inode ≠ (flagCount g).toNat ∧
      ¬ IsRecovered env d g (groupLoop d (readSuperBlock d) g 0) e.inode) :
    (∃ out, runscan env d = some out ∧ Exact (chosen env d g t) out) ↔ chosen env d g t = [] := by
  obtain ⟨s, hs, ht⟩ := hfound.scan
  have hnil : copied g s.inodeIsJpg (topSecretVisits env d g t) = [] := by
    refine copied_eq_nil fun e he hpass => ?_
    obtain ⟨hne, hrec⟩ := hnone e he hpass.2.1
    exact hrec ((passes_iff hs hne).mp hpass).2
  have hrun : runscan env d = some fun _ => none := by
    rw [runscan_eq hfound.init hs ht, hnil, cleared_nil]
    exact congrArg some (clean_scan hs)
  rw [hrun]
  constructor
  · rintro ⟨out, hout, hexact⟩
    obtain rfl : _ = out := Option.some.inj hout
    refine List.eq_nil_iff_forall_not_mem.mpr fun e he => ?_
    exact absurd (hexact.saved e he).1 (by simp)
  · intro hempty
    rw [hempty]
    exact ⟨_, rfl, by simp, by simp, by simp⟩

/-! ### Two links to one inode -/

/-- Surroundings in which all memory is zero and nothing else can be opened. -/
def zeroEnv : Env where
  stray := fun _ _ => []
  behind := fun _ _ => 0
  strayFlag := false
  strayTable := fun _ => 0
  lostInode := fun _ => ⟨⟨0, 0, fun _ => 0⟩, 0, 0⟩
  resolve := fun _ => none

/-- An image of 64 blocks of 1 KiB with 16 inodes in block 5: the root directory (inode 2) has the entry
`top_secret` (inode 11), and this directory the entries `a.jpg` (inode 12) and `b.jpg` (inode `i`).
Inodes 12 and 13 are JPEGs of 4 bytes. -/
def image (i : UInt8) : Disk := fun k =>
  if k < 1024 then 0
  else if k < 2048 then
    if k = 1024 then 16 else if k = 1028 then 64 else if k = 1044 then 1 else if k = 1057 then 32
    else if k = 1064 then 16 else if k = 1080 then 0x53 else if k = 1081 then 0xEF
    else if k = 1112 then 128 else 0
  else if k < 5120 then if k = 2056 then 5 else 0
  else if k < 8192 then
    -- the inodes 2, 11, 12 and 13: mode, size, links and first block
    if k = 5248 then 0xED else if k = 5249 then 0x41 else if k = 5288 then 8
    else if k = 6400 then 0xED else if k = 6401 then 0x41 else if k = 6440 then 9
    else if k = 6528 then 0xA4 else if k = 6529 then 0x81 else if k = 6532 then 4
    else if k = 6554 then 2 else if k = 6568 then 10
    else if k = 6656 then 0xA4 else if k = 6657 then 0x81 else if k = 6660 then 4
    else if k = 6682 then 1 else if k = 6696 then 10 else 0
  else if k < 9216 then ([
    2, 0, 0, 0,  12, 0, 1, 2,  46, 0, 0, 0,  2, 0, 0, 0,  12, 0, 2, 2,  46, 46, 0, 0,
    11, 0, 0, 0,  232, 3, 10, 2,  116, 111, 112, 95, 115, 101, 99, 114, 101, 116] :
      List UInt8).getD (k - 8192) 0
  else if k < 10240 then ([
    11, 0, 0, 0,  12, 0, 1, 2,  46, 0, 0, 0,  2, 0, 0, 0,  12, 0, 2, 2,  46, 46, 0, 0,
    12, 0, 0, 0,  16, 0, 5, 1,  97, 46, 106, 112, 103, 0, 0, 0,
    i, 0, 0, 0,  216, 3, 5, 1,  98, 46, 106, 112, 103] : List UInt8).getD (k - 9216) 0
  else ([0xff, 0xd8, 0xff, 0xe0] : List UInt8).getD (k - 10240) 0

/-- Its super block. -/
def imageSuper : SuperBlock := ⟨16, 64, 1, 0, 8192, 16, 0xEF53, 128⟩

theorem valid_imageSuper : Valid imageSuper where
  magic := by decide
  log := by decide
  first := by decide
  blocks := by decide
  perGroup := by decide
  inodesPer := by decide
  inodeSize := by decide
  inodes := by decide

/-- Its geometry: one group of 16 inodes. -/
def imageGlobals : Globals := ⟨1024, 8, 2, 8192, 1, 16⟩

/-- Its inodes, in the order of the scan. -/
def imageReads (i : UInt8) : List InodeRead :=
  (List.range' 1 16).map (visitInode (image i) imageSuper imageGlobals 0)

section Image
variable {i : UInt8} (hsuper : readSuperBlock (image i) = imageSuper)
include hsuper

theorem groupLoop_image :
    groupLoop (image i) (readSuperBlock (image i)) imageGlobals 0 = imageReads i := by
  rw [hsuper, groupLoop_eq _ _ _ 1 0 rfl]
  exact List.append_nil _

theorem found_image (h : secretOf zeroEnv (image i) imageGlobals (imageReads i) none = some 11) :
    Found zeroEnv (image i) imageGlobals 11 := by
  have htotal := scanAll_total zeroEnv (image i) imageGlobals (by decide)
  rw [groupLoop_image hsuper, h] at htotal
  exact ⟨hsuper ▸ ext2ReadInit_eq valid_imageSuper, htotal⟩

theorem chosen_image : chosen zeroEnv (image i) imageGlobals 11 =
    (secretEntries zeroEnv (image i) imageGlobals 11).filter fun e =>
      e.name ≠ [] ∧ IsRecovered zeroEnv (image i) imageGlobals (imageReads i) e.inode := by
  rw [chosen, groupLoop_image hsuper]

end Image

/-- `a.jpg` and `b.jpg`. -/
def aJpg : List UInt8 := [97, 46, 106, 112, 103]
def bJpg : List UInt8 := [98, 46, 106, 112, 103]

theorem distinct_of_names {es : List Visit} (h : es.map Visit.name = [aJpg, bJpg]) : Distinct es := by
  refine ⟨by rw [h]; decide, fun e he i => ?_⟩
  have hmem : e.name ∈ [aJpg, bJpg] := h ▸ List.mem_map_of_mem he
  have hhead : e.name.head? ≠ some 102 := by
    rcases List.mem_cons.mp hmem with heq | hmem
    · rw [heq]
      decide
    · rw [List.mem_singleton.mp hmem]
      decide
  exact ⟨fun heq => hhead (heq ▸ rfl), fun heq => hhead (heq ▸ rfl)⟩

theorem super_linked : readSuperBlock (image 12) = imageSuper := by decide +kernel

theorem found_linked : Found zeroEnv (image 12) imageGlobals 11 :=
  found_image super_linked (by decide +kernel)

theorem visits_linked : (chosen zeroEnv (image 12) imageGlobals 11).map (fun e => (e.name, e.inode)) =
    [(aJpg, 12), (bJpg, 12)] := by
  rw [chosen_image super_linked]
  decide +kernel

theorem names_linked : (chosen zeroEnv (image 12) imageGlobals 11).map Visit.name = [aJpg, bJpg] := by
  have h := congrArg (List.map Prod.fst) visits_linked
  rwa [List.map_map] at h

theorem inodes_linked : (chosen zeroEnv (image 12) imageGlobals 11).map Visit.inode = [12, 12] := by
  have h := congrArg (List.map Prod.snd) visits_linked
  rwa [List.map_map] at h

/-- `a.jpg` and `b.jpg` are links to inode 12: the second gets no copy. -/
theorem linked_missing : Found zeroEnv (image 12) imageGlobals 11 ∧
    Distinct (chosen zeroEnv (image 12) imageGlobals 11) ∧
    ¬ ∃ out, runscan zeroEnv (image 12) = some out ∧
      Exact (chosen zeroEnv (image 12) imageGlobals 11) out := by
  refine ⟨found_linked, distinct_of_names names_linked, ?_⟩
  rintro ⟨out, hrun, hexact⟩
  have hnodup := (of_exact found_linked (distinct_of_names names_linked) (by decide) hrun hexact).1
  rw [inodes_linked] at hnodup
  exact absurd hnodup (by decide)

theorem super_single : readSuperBlock (image 13) = imageSuper := by decide +kernel

theorem visits_single : (chosen zeroEnv (image 13) imageGlobals 11).map (fun e => (e.name, e.inode)) =
    [(aJpg, 12), (bJpg, 13)] := by
  rw [chosen_image super_single]
  decide +kernel

theorem names_single : (chosen zeroEnv (image 13) imageGlobals 11).map Visit.name = [aJpg, bJpg] := by
  have h := congrArg (List.map Prod.fst) visits_single
  rwa [List.map_map] at h

theorem inodes_single : (chosen zeroEnv (image 13) imageGlobals 11).map Visit.inode = [12, 13] := by
  have h := congrArg (List.map Prod.snd) visits_single
  rwa [List.map_map] at h

/-- With a JPEG of its own for each, both get their copy. -/
theorem output_single : ∃ out, runscan zeroEnv (image 13) = some out ∧
    Exact (chosen zeroEnv (image 13) imageGlobals 11) out := by
  have hnames := names_single
  refine (output_iff zeroEnv (image 13) imageGlobals 11
    (found_image super_single (by decide +kernel)) (distinct_of_names hnames) (by decide)).mpr ⟨?_, ?_, ?_⟩
  · rw [inodes_single]
    decide
  · intro e he
    have hmem : e.name ∈ [aJpg, bJpg] := hnames ▸ List.mem_map_of_mem he
    revert hmem
    generalize e.name = name
    revert name
    decide
  · exact fun _ _ _ _ => rfl

end OperatingSystems.RunScan.TopSecret
