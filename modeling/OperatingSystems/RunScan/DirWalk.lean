import Mathlib.Tactic
import OperatingSystems.Lib.Walk

/-! # Runscan: the walk over a directory block

The three directory scans of `runscan` walk a block alike: from offset 24, past the entries `.` and
`..`, each entry is left by the length of its name rounded up to a multiple of 4, and not by its
`rec_len`. The walk so enters the slack behind a name and reads the bytes there as entries.

* `dirWalk`: what the walk visits; `DirBlock`: a well-formed block, its entries chained by `rec_len`.
* `SlackFilled`: the slack of every entry that has a live one behind it is made of whole stale entries
  and groups of 8 zero bytes; `forall_live_visited`: then every live entry is visited.
* `dvd_of_forall_live_visited`: slack of 4 bytes, or of zero bytes of another number than a multiple of
  8, loses the live entry behind it.
* `slackBlock`: a block with four stale bytes behind a name, in which the walk misses a live entry. -/

namespace OperatingSystems.RunScan.DirWalk

open OperatingSystems.Lib.Walk

/-! ### Entries -/

/-- The bytes from the start of `buffer`; those from `block_size` on lie behind the array. -/
abbrev Buffer := ℕ → UInt8

/-- The fields of a `struct ext2_dir_entry` read at `off`, stored in intel byte order. -/
structure Dentry where
  inode : ℕ
  recLen : ℕ
  nameLen : ℕ
  fileType : UInt8

/-- `(struct ext2_dir_entry*) & (buffer[offset])`. -/
def dentryAt (buf : Buffer) (off : ℕ) : Dentry where
  inode := (buf off).toNat + 2 ^ 8 * (buf (off + 1)).toNat + 2 ^ 16 * (buf (off + 2)).toNat +
    2 ^ 24 * (buf (off + 3)).toNat
  recLen := (buf (off + 4)).toNat + 2 ^ 8 * (buf (off + 5)).toNat
  nameLen := (buf (off + 6)).toNat
  fileType := buf (off + 7)

/-- `strncpy(name, dentry->name, name_len); name[name_len] = '\0'`, as the string `name` then is. -/
def nameAt (buf : Buffer) (off : ℕ) : List UInt8 :=
  ((List.range (dentryAt buf off).nameLen).map fun k => buf (off + 8 + k)).takeWhile (· != 0)

/-- `offset = (offset % 4 == 0) ? offset : offset + 4 - offset % 4`. -/
def align4 (offset : ℕ) : ℕ := if offset % 4 = 0 then offset else offset + 4 - offset % 4

/-- The step of the walk: past the four header fields and the name, then up to a multiple of 4. -/
def nextOffset (buf : Buffer) (offset : ℕ) : ℕ :=
  align4 (offset + 4 + 2 + 1 + 1 + (dentryAt buf offset).nameLen)

/-- What the body of the loop sees of an entry. -/
structure Visit where
  offset : ℕ
  inode : ℕ
  name : List UInt8

/-- The entry at `off` as the loop sees it. -/
def visitAt (buf : Buffer) (off : ℕ) : Visit := ⟨off, (dentryAt buf off).inode, nameAt buf off⟩

/-- **The walk**: `offset = 24; while (offset < block_size) …`. -/
def dirWalk (buf : Buffer) (blockSize : ℕ) : List Visit :=
  (walk (nextOffset buf) blockSize 24).map (visitAt buf)

/-! ### Well-formed blocks -/

/-- The entries from `off` on are chained by `rec_len` and tile the block up to its end. -/
inductive Chain (buf : Buffer) (blockSize : ℕ) : ℕ → List ℕ → Prop
  | nil : Chain buf blockSize blockSize []
  | cons {off : ℕ} {offs : List ℕ} (hmul : (dentryAt buf off).recLen % 4 = 0)
      (hlen : align4 (8 + (dentryAt buf off).nameLen) ≤ (dentryAt buf off).recLen)
      (h : Chain buf blockSize (off + (dentryAt buf off).recLen) offs) :
      Chain buf blockSize off (off :: offs)

/-- **A well-formed directory block** whose entries after `..` are at `offs`: `.` is at offset 0 and
`..` at offset 12. -/
structure DirBlock (buf : Buffer) (blockSize : ℕ) (offs : List ℕ) : Prop where
  chain : Chain buf blockSize 0 (0 :: 12 :: offs)
  dot : visitAt buf 0 = ⟨0, (dentryAt buf 0).inode, [46]⟩ ∧ (dentryAt buf 0).nameLen = 1
  dotdot : visitAt buf 12 = ⟨12, (dentryAt buf 12).inode, [46, 46]⟩ ∧ (dentryAt buf 12).nameLen = 2

/-- The entries of a chain that have a non-zero inode. -/
def live (buf : Buffer) (offs : List ℕ) : List ℕ :=
  offs.filter fun o => (dentryAt buf o).inode != 0

theorem Chain.head {buf : Buffer} {blockSize off o : ℕ} {offs : List ℕ}
    (h : Chain buf blockSize off (o :: offs)) : off = o := by
  cases h
  rfl

/-- The chain from `..` on. -/
theorem DirBlock.chain_dotdot {buf : Buffer} {blockSize : ℕ} {offs : List ℕ}
    (h : DirBlock buf blockSize offs) : Chain buf blockSize 12 (12 :: offs) := by
  obtain ⟨hchain, -, -⟩ := h
  rcases hchain with _ | ⟨-, -, htail⟩
  have hoff := htail.head
  rwa [hoff] at htail

theorem lt_nextOffset (buf : Buffer) (off : ℕ) : off < nextOffset buf off := by
  unfold nextOffset align4
  split_ifs <;> omega

theorem Chain.le {buf : Buffer} {blockSize off : ℕ} {offs : List ℕ}
    (h : Chain buf blockSize off offs) : off ≤ blockSize := by
  induction h with
  | nil => exact le_rfl
  | cons _ _ _ ih => omega

theorem Chain.mem {buf : Buffer} {blockSize off : ℕ} {offs : List ℕ}
    (h : Chain buf blockSize off offs) : ∀ o ∈ offs, off ≤ o ∧ o < blockSize := by
  induction h with
  | nil => simp
  | @cons off offs hmul hlen h ih =>
    have hpos : 0 < (dentryAt buf off).recLen := by
      unfold align4 at hlen
      split_ifs at hlen <;> omega
    have hle := h.le
    intro o ho
    rcases List.mem_cons.mp ho with rfl | ho
    · omega
    · have := ih o ho
      omega

theorem Chain.mod {buf : Buffer} {blockSize off : ℕ} {offs : List ℕ} (h : Chain buf blockSize off offs)
    (hmod : off % 4 = 0) : ∀ o ∈ offs, o % 4 = 0 := by
  induction h with
  | nil => simp
  | cons hmul hlen h ih =>
    simp only [List.forall_mem_cons]
    exact ⟨hmod, ih (by omega)⟩

theorem Chain.sorted {buf : Buffer} {blockSize off : ℕ} {offs : List ℕ}
    (h : Chain buf blockSize off offs) : offs.Pairwise (· < ·) := by
  induction h with
  | nil => exact List.Pairwise.nil
  | @cons off offs hmul hlen h ih =>
    refine List.pairwise_cons.mpr ⟨fun o ho => ?_, ih⟩
    have hpos : 0 < (dentryAt buf off).recLen := by
      unfold align4 at hlen
      split_ifs at hlen <;> omega
    have := (h.mem o ho).1
    omega

/-- The walk starts behind the name of `..`. -/
theorem DirBlock.nextOffset_dotdot {buf : Buffer} {blockSize : ℕ} {offs : List ℕ}
    (h : DirBlock buf blockSize offs) : nextOffset buf 12 = 24 := by
  unfold nextOffset align4
  rw [h.dotdot.2]
  rfl

/-! ### What the walk visits -/

/-- An entry is visited exactly when the walk comes to its offset. -/
theorem visitAt_mem_dirWalk {buf : Buffer} {blockSize o : ℕ} :
    visitAt buf o ∈ dirWalk buf blockSize ↔ o < blockSize ∧ Reach (nextOffset buf) 24 o := by
  rw [← mem_walk (lt_nextOffset buf), dirWalk, List.mem_map]
  constructor
  · rintro ⟨o', ho', heq⟩
    have : o' = o := congrArg Visit.offset heq
    rwa [← this]
  · exact fun h => ⟨o, h, rfl⟩

/-- Run by the walk's own steps: from `..` to the first live entry, and from each to the next one. -/
theorem forall_live_visited_iff {buf : Buffer} {blockSize : ℕ} {offs : List ℕ}
    (h : DirBlock buf blockSize offs) :
    (∀ o ∈ live buf offs, visitAt buf o ∈ dirWalk buf blockSize) ↔
      Segments (nextOffset buf) 24 (live buf offs) := by
  have hsorted : offs.Pairwise (· < ·) :=
    (List.pairwise_cons.mp (List.pairwise_cons.mp h.chain.sorted).2).2
  rw [live, ← forall_reach_iff (lt_nextOffset buf) (hsorted.filter _)]
  refine forall₂_congr fun o ho => ?_
  have hlt := (h.chain.mem o (by simp [(List.mem_filter.mp ho).1])).2
  rw [visitAt_mem_dirWalk]
  exact and_iff_right hlt

/-! ### The slack -/

/-- The bytes that the header and the name of an entry need, rounded up to a multiple of 4. -/
def needed (buf : Buffer) (off : ℕ) : ℕ := align4 (8 + (dentryAt buf off).nameLen)

/-- **What may lie in slack** from `a` to `b`: stale entries, each with the `rec_len` it was left with and
again with such slack behind its name, and groups of 8 zero bytes. -/
inductive StaleSlack (buf : Buffer) : ℕ → ℕ → Prop
  | nil {a : ℕ} : StaleSlack buf a a
  | entry {a b : ℕ} (hmul : (dentryAt buf a).recLen % 4 = 0)
      (hslack : StaleSlack buf (a + needed buf a) (a + (dentryAt buf a).recLen))
      (h : StaleSlack buf (a + (dentryAt buf a).recLen) b) : StaleSlack buf a b
  | zeros {a b : ℕ} (hzero : ∀ k < 8, buf (a + k) = 0) (h : StaleSlack buf (a + 8) b) :
      StaleSlack buf a b

/-- **The layout of a block**: behind `..` and behind every entry that has a live entry after it, the
slack is empty or made of stale entries and zero groups. -/
def SlackFilled (buf : Buffer) (offs : List ℕ) : Prop :=
  ∀ o ∈ 12 :: offs, (∃ o' ∈ live buf offs, o < o') →
    StaleSlack buf (o + needed buf o) (o + (dentryAt buf o).recLen)

theorem mem_live {buf : Buffer} {offs : List ℕ} {o : ℕ} :
    o ∈ live buf offs ↔ o ∈ offs ∧ (dentryAt buf o).inode ≠ 0 := by
  simp [live]

section Slack
variable {buf : Buffer}

theorem needed_mod (buf : Buffer) (off : ℕ) : needed buf off % 4 = 0 := by
  unfold needed align4
  split_ifs <;> omega

theorem le_needed (buf : Buffer) (off : ℕ) : 8 ≤ needed buf off := by
  unfold needed align4
  split_ifs <;> omega

/-- At a multiple of 4 the walk goes on behind the name. -/
theorem nextOffset_eq {off : ℕ} (h : off % 4 = 0) : nextOffset buf off = off + needed buf off := by
  unfold nextOffset needed align4
  split_ifs <;> omega

theorem needed_of_zeros {a : ℕ} (h : buf (a + 6) = 0) : needed buf a = 8 := by
  have hlen : (dentryAt buf a).nameLen = 0 := by simp [dentryAt, h]
  simp [needed, align4, hlen]

/-- **The walk comes through such slack**, by induction on what lies in it. -/
theorem StaleSlack.reach {a b : ℕ} (h : StaleSlack buf a b) (ha : a % 4 = 0) :
    Reach (nextOffset buf) a b := by
  induction h with
  | nil => exact Relation.ReflTransGen.refl
  | @entry a b hmul hslack h ihslack ih =>
    have hname : (a + needed buf a) % 4 = 0 := by
      have := needed_mod buf a
      omega
    refine reach_iff.mpr (Or.inr ?_)
    rw [nextOffset_eq ha]
    exact (ihslack hname).trans (ih (by omega))
  | @zeros a b hzero h ih =>
    refine reach_iff.mpr (Or.inr ?_)
    rw [nextOffset_eq ha, needed_of_zeros (hzero 6 (by decide))]
    exact ih (by omega)

/-- Zero bytes are left in steps of 8. -/
theorem reach_zeros {a b : ℕ} (ha : a % 4 = 0) (hzero : ∀ k, a ≤ k → k < b → buf k = 0) (hb : b % 4 = 0)
    (h : Reach (nextOffset buf) a b) : 8 ∣ b - a := by
  induction h using Relation.ReflTransGen.head_induction_on with
  | refl => simp
  | @head a c hstep h ih =>
    subst hstep
    have hle := reach_le (lt_nextOffset buf) h
    rw [nextOffset_eq ha] at ih hle
    have hneed := le_needed buf a
    rw [needed_of_zeros (hzero (a + 6) (by omega) (by omega))] at ih hle
    have hdvd := ih (by omega) (fun k hk => hzero k (by omega))
    omega

/-- Four bytes are too few for any entry. -/
theorem not_reach_four {a : ℕ} (ha : a % 4 = 0) : ¬ Reach (nextOffset buf) a (a + 4) := by
  intro h
  have hstep := (reach_iff.mp h).resolve_left (by omega)
  have hle := reach_le (lt_nextOffset buf) hstep
  rw [nextOffset_eq ha] at hle
  have := le_needed buf a
  omega

theorem Chain.needed_le {blockSize off : ℕ} {offs : List ℕ} (h : Chain buf blockSize off offs) :
    ∀ o ∈ offs, needed buf o ≤ (dentryAt buf o).recLen := by
  induction h with
  | nil => simp
  | cons hmul hlen h ih => exact List.forall_mem_cons.mpr ⟨hlen, ih⟩

/-- **The walk comes to the live entries of a chain**, by induction on the chain: before each it has come
through the slack of the entries in front. -/
theorem Chain.reach {blockSize off : ℕ} {offs : List ℕ} (h : Chain buf blockSize off offs)
    (hmod : off % 4 = 0)
    (hslack : ∀ o ∈ offs, (∃ o' ∈ live buf offs, o < o') →
      StaleSlack buf (o + needed buf o) (o + (dentryAt buf o).recLen)) :
    ∀ o ∈ live buf offs, Reach (nextOffset buf) off o := by
  induction h with
  | nil => simp [live]
  | @cons off offs hmul hlen h ih =>
    intro o ho
    obtain ⟨hmem, hinode⟩ := mem_live.mp ho
    rcases List.mem_cons.mp hmem with rfl | hmem
    · exact Relation.ReflTransGen.refl
    · have hlt : off < o := (List.pairwise_cons.mp (Chain.cons hmul hlen h).sorted).1 o hmem
      have hthrough := (hslack off List.mem_cons_self ⟨o, ho, hlt⟩).reach
        (by have := needed_mod buf off; omega)
      have htail := ih (by omega) (fun x hx ⟨y, hy, hxy⟩ =>
        hslack x (List.mem_cons_of_mem _ hx) ⟨y, mem_live.mpr
          ⟨List.mem_cons_of_mem _ (mem_live.mp hy).1, (mem_live.mp hy).2⟩, hxy⟩)
        o (mem_live.mpr ⟨hmem, hinode⟩)
      refine reach_iff.mpr (Or.inr ?_)
      rw [nextOffset_eq hmod]
      exact hthrough.trans htail

end Slack

/-- **When the walk finds every live entry.** In a well-formed block whose slack in front of live entries
is made of whole stale entries and groups of 8 zero bytes, the walk visits every live entry after `..`,
with its own offset, inode and name. -/
theorem forall_live_visited {buf : Buffer} {blockSize : ℕ} {offs : List ℕ}
    (h : DirBlock buf blockSize offs) (hslack : SlackFilled buf offs) :
    ∀ o ∈ offs, (dentryAt buf o).inode ≠ 0 → visitAt buf o ∈ dirWalk buf blockSize := by
  intro o ho hinode
  have hlt := (h.chain.mem o (by simp [ho])).2
  have hafter := (List.pairwise_cons.mp h.chain_dotdot.sorted).1 o ho
  have hlive : o ∈ live buf (12 :: offs) := mem_live.mpr ⟨List.mem_cons_of_mem _ ho, hinode⟩
  have hreach := h.chain_dotdot.reach (by decide) (fun x hx ⟨y, hy, hxy⟩ => ?_) o hlive
  · rw [visitAt_mem_dirWalk, ← h.nextOffset_dotdot]
    exact ⟨hlt, (reach_iff.mp hreach).resolve_left hafter.ne⟩
  · obtain ⟨hy, hinode⟩ := mem_live.mp hy
    refine hslack x hx ⟨y, mem_live.mpr ⟨(List.mem_cons.mp hy).resolve_left ?_, hinode⟩, hxy⟩
    rintro rfl
    have := (h.chain_dotdot.mem x hx).1
    omega

/-- **What is lost.** If every live entry is visited, the slack between two of them is not 4 bytes, and
if it is all zero it has a multiple of 8 bytes. -/
theorem dvd_of_forall_live_visited {buf : Buffer} {blockSize : ℕ} {offs : List ℕ}
    (h : DirBlock buf blockSize offs)
    (hall : ∀ o ∈ live buf offs, visitAt buf o ∈ dirWalk buf blockSize) {o : ℕ}
    (ho : o ∈ live buf offs) (hnext : o + (dentryAt buf o).recLen ∈ live buf offs) :
    (dentryAt buf o).recLen ≠ needed buf o + 4 ∧
      ((∀ k, o + needed buf o ≤ k → k < o + (dentryAt buf o).recLen → buf k = 0) →
        8 ∣ (dentryAt buf o).recLen - needed buf o) := by
  have hmod : ∀ x ∈ live buf offs, x % 4 = 0 := fun x hx =>
    h.chain_dotdot.mod (by decide) x (List.mem_cons_of_mem _ (mem_live.mp hx).1)
  have hfrom : ∀ x ∈ live buf offs, Reach (nextOffset buf) 24 x := fun x hx =>
    (visitAt_mem_dirWalk.mp (hall x hx)).2
  have ho4 := hmod o ho
  have hneed := needed_mod buf o
  have hmin := le_needed buf o
  have hlen := h.chain_dotdot.needed_le o (List.mem_cons_of_mem _ (mem_live.mp ho).1)
  have hreach := reach_of_lt (lt_nextOffset buf) (hfrom o ho) (hfrom _ hnext) (by omega)
  rw [nextOffset_eq ho4] at hreach
  constructor
  · intro hfour
    rw [hfour, ← Nat.add_assoc] at hreach
    exact not_reach_four (by omega) hreach
  · intro hzero
    have hdvd := reach_zeros (by omega) hzero (hmod _ hnext) hreach
    rwa [Nat.add_sub_add_left] at hdvd

/-- A block of 1024 bytes: behind `a.c` (inode 11) lies the stale entry of a removed file `old.c`, behind
`b.jpg` (inode 12) 8 zero bytes, and `c.jpg` (inode 14) has the rest. -/
def staleBlock : Buffer := fun k => ([
  2, 0, 0, 0,  12, 0, 1, 2,  46, 0, 0, 0,
  2, 0, 0, 0,  12, 0, 2, 2,  46, 46, 0, 0,
  11, 0, 0, 0,  28, 0, 3, 1,  97, 46, 99, 0,
  13, 0, 0, 0,  16, 0, 5, 1,  111, 108, 100, 46,  99, 0, 0, 0,
  12, 0, 0, 0,  24, 0, 5, 1,  98, 46, 106, 112,  103, 0, 0, 0,  0, 0, 0, 0,  0, 0, 0, 0,
  14, 0, 0, 0,  180, 3, 5, 1,  99, 46, 106, 112,  103, 0, 0, 0] : List UInt8).getD k 0

theorem dirBlock_staleBlock : DirBlock staleBlock 1024 [24, 52, 76] where
  chain := .cons (by decide) (by decide) (.cons (by decide) (by decide)
    (.cons (by decide) (by decide) (.cons (by decide) (by decide)
      (.cons (by decide) (by decide) .nil))))
  dot := ⟨by unfold visitAt; congr 1, by decide⟩
  dotdot := ⟨by unfold visitAt; congr 1, by decide⟩

theorem slackFilled_staleBlock : SlackFilled staleBlock [24, 52, 76] := by
  have hold : StaleSlack staleBlock 36 52 := .entry (by decide) .nil .nil
  have hzero : StaleSlack staleBlock 68 76 := .zeros (by decide) .nil
  simp only [SlackFilled, List.forall_mem_cons]
  refine ⟨fun _ => .nil, fun _ => hold, fun _ => hzero, ?_, by simp⟩
  rintro ⟨o, ho, hlt⟩
  have hmem := (mem_live.mp ho).1
  simp only [List.mem_cons, List.not_mem_nil, or_false] at hmem
  omega

/-- All its live entries are visited, the two behind the slack among them. -/
theorem forall_live_visited_staleBlock :
    DirBlock staleBlock 1024 [24, 52, 76] ∧ SlackFilled staleBlock [24, 52, 76] ∧
      visitAt staleBlock 24 ∈ dirWalk staleBlock 1024 ∧
      visitAt staleBlock 52 ∈ dirWalk staleBlock 1024 ∧
      visitAt staleBlock 76 ∈ dirWalk staleBlock 1024 := by
  have hall := forall_live_visited dirBlock_staleBlock slackFilled_staleBlock
  exact ⟨dirBlock_staleBlock, slackFilled_staleBlock, hall 24 (by decide) (by decide),
    hall 52 (by decide) (by decide), hall 76 (by decide) (by decide)⟩

/-! ### A block in which a live entry is missed -/

/-- A block of 1024 bytes: `.`, `..`, the file `a.c` (inode 11) in a record of 16 bytes of which its
name needs 12, and the file `b.jpg` (inode 12) in the rest. -/
def slackBlock : Buffer := fun k => ([
  2, 0, 0, 0,  12, 0, 1, 2,  46, 0, 0, 0,
  2, 0, 0, 0,  12, 0, 2, 2,  46, 46, 0, 0,
  11, 0, 0, 0,  16, 0, 3, 1,  97, 46, 99, 0,  0, 0, 0, 0,
  12, 0, 0, 0,  216, 3, 5, 1,  98, 46, 106, 112,  103, 0, 0, 0] : List UInt8).getD k 0

theorem dirBlock_slackBlock : DirBlock slackBlock 1024 [24, 40] where
  chain := .cons (by decide) (by decide) (.cons (by decide) (by decide)
    (.cons (by decide) (by decide) (.cons (by decide) (by decide) .nil)))
  dot := ⟨by unfold visitAt; congr 1, by decide⟩
  dotdot := ⟨by unfold visitAt; congr 1, by decide⟩

/-- From offset 24 the walk goes to 36 and 44, past the live entry at 40. -/
theorem slackBlock_missed : DirBlock slackBlock 1024 [24, 40] ∧ (dentryAt slackBlock 40).inode = 12 ∧
    visitAt slackBlock 40 ∉ dirWalk slackBlock 1024 := by
  refine ⟨dirBlock_slackBlock, by decide, fun h => ?_⟩
  have h24 := (visitAt_mem_dirWalk.mp h).2
  have h36 := (reach_iff.mp h24).resolve_left (by decide)
  have h44 := (reach_iff.mp h36).resolve_left (by decide)
  exact not_reach_of_lt (lt_nextOffset slackBlock) (by decide) h44

end OperatingSystems.RunScan.DirWalk
