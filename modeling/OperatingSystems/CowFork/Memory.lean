import Mathlib.Tactic

/-! # Physical memory and page-table entries

* `Word`: a page-table entry as the code computes it, with the masks of `mmu.h`.
* `Mem`: what the allocator and the paging code share, the bytes of physical memory and `kmem`. A physical
  page is named by its number, and so is a kernel pointer to its start: the kernel maps physical memory at
  its own address, and page 0 is the null pointer.
* `Kernel`: kernel code, which changes the memory and can panic.

The free list is the list of the page numbers that its links run through. `fails` counts the calls of
`kalloc` that found nothing; no code reads it. -/

namespace OperatingSystems.CowFork

/-! ### Page-table entries -/

abbrev Word := BitVec 32

def pteP : Word := 0x001#32
def pteW : Word := 0x002#32
def pteU : Word := 0x004#32

def pteFlags (pte : Word) : Word := pte &&& 0xFFF#32

/-- The address of a physical page. -/
def addr (f : ℕ) : Word := BitVec.ofNat 32 f <<< 12

/-- The page of an address: `pa / PGSIZE`. -/
def pageOf (pa : Word) : ℕ := (pa >>> 12).toNat

def present (pte : Word) : Prop := pte &&& pteP ≠ 0#32
def writable (pte : Word) : Prop := pte &&& pteW ≠ 0#32
def userOk (pte : Word) : Prop := pte &&& pteU ≠ 0#32

instance (pte : Word) : Decidable (present pte) := inferInstanceAs (Decidable (_ ≠ _))
instance (pte : Word) : Decidable (writable pte) := inferInstanceAs (Decidable (_ ≠ _))
instance (pte : Word) : Decidable (userOk pte) := inferInstanceAs (Decidable (_ ≠ _))

theorem and_one_bit (w : Word) {k : ℕ} (hk : k < 32) : w &&& 1#32 <<< k ≠ 0#32 ↔ w.getLsbD k = true := by
  rw [← BitVec.twoPow_eq, BitVec.and_twoPow]
  split_ifs with h
  · have htwo : BitVec.twoPow 32 k ≠ 0#32 := by
      intro h0
      have := congrArg (fun x => x.getLsbD k) h0
      simp [hk] at this
    simp [h, htwo]
  · simp [h]

theorem present_iff {w : Word} : present w ↔ w.getLsbD 0 = true := and_one_bit w (k := 0) (by omega)
theorem writable_iff {w : Word} : writable w ↔ w.getLsbD 1 = true := and_one_bit w (k := 1) (by omega)
theorem userOk_iff {w : Word} : userOk w ↔ w.getLsbD 2 = true := and_one_bit w (k := 2) (by omega)

@[simp] theorem not_present_zero : ¬ present 0#32 := by decide

/-- Bits 12 and up say which page. -/
theorem pageOf_eq {v w : Word} (h : ∀ k, 12 ≤ k → v.getLsbD k = w.getLsbD k) : pageOf v = pageOf w := by
  unfold pageOf
  congr 1
  ext k hk
  simp only [BitVec.getElem_ushiftRight]
  exact h _ (by omega)

theorem pageOf_lt (w : Word) : pageOf w < 2 ^ 20 := by
  unfold pageOf
  rw [BitVec.toNat_ushiftRight, Nat.shiftRight_eq_div_pow]
  have := w.isLt
  omega

theorem pageOf_addr {f : ℕ} (hf : f < 2 ^ 20) : pageOf (addr f) = f := by
  unfold pageOf addr
  rw [BitVec.toNat_ushiftRight, BitVec.toNat_shiftLeft, BitVec.toNat_ofNat, Nat.shiftLeft_eq,
    Nat.shiftRight_eq_div_pow]
  omega

section Bits

variable {w pa perm : Word} {f k : ℕ}

theorem getLsbD_pteP : pteP.getLsbD k = decide (k = 0) := by
  rw [show pteP = BitVec.twoPow 32 0 from rfl, BitVec.getLsbD_twoPow]
  by_cases h : k = 0 <;> simp [h, eq_comm]

theorem getLsbD_pteW : pteW.getLsbD k = decide (k = 1) := by
  rw [show pteW = BitVec.twoPow 32 1 from rfl, BitVec.getLsbD_twoPow]
  by_cases h : k = 1 <;> simp [h, eq_comm]

theorem getLsbD_pteU : pteU.getLsbD k = decide (k = 2) := by
  rw [show pteU = BitVec.twoPow 32 2 from rfl, BitVec.getLsbD_twoPow]
  by_cases h : k = 2 <;> simp [h, eq_comm]

theorem getLsbD_mask : (0xFFF#32).getLsbD k = decide (k < 12) := by
  rw [show 0xFFF#32 = BitVec.ofNat 32 (2 ^ 12 - 1) from rfl, BitVec.getLsbD_ofNat,
    Nat.testBit_two_pow_sub_one, ← Bool.decide_and]
  exact decide_eq_decide.mpr (by omega)

theorem getLsbD_pteFlags : (pteFlags w).getLsbD k = (w.getLsbD k && decide (k < 12)) := by
  unfold pteFlags
  rw [BitVec.getLsbD_and, getLsbD_mask]

theorem getLsbD_addr_of_lt (hk : k < 12) : (addr f).getLsbD k = false := by
  simp [addr, BitVec.getLsbD_shiftLeft, hk]

/-- The flags of a mapping lie below bit 12. -/
def IsFlags (perm : Word) : Prop := ∀ k, 12 ≤ k → perm.getLsbD k = false

theorem isFlags_pteFlags : IsFlags (pteFlags w) := by
  intro k hk
  rw [getLsbD_pteFlags, decide_eq_false (by omega), Bool.and_false]

theorem isFlags_zero : IsFlags 0#32 := fun _ _ => BitVec.getLsbD_zero

theorem isFlags_pteW : IsFlags pteW := by
  intro k hk
  rw [getLsbD_pteW, decide_eq_false (by omega)]

theorem isFlags_pteW_pteU : IsFlags (pteW ||| pteU) := by
  intro k hk
  rw [BitVec.getLsbD_or, getLsbD_pteW, getLsbD_pteU, decide_eq_false (by omega),
    decide_eq_false (by omega), Bool.or_false]

/-! The entries the code writes: a mapping, a share, a write-enable and a copy. -/

/-- The entry `mappages` writes. -/
def mkPte (pa : ℕ) (perm : Word) : Word := addr pa ||| perm ||| pteP

@[simp] theorem present_mkPte : present (mkPte f perm) := by
  rw [present_iff, mkPte, BitVec.getLsbD_or, getLsbD_pteP]
  simp

theorem writable_mkPte : writable (mkPte f perm) ↔ writable perm := by
  rw [writable_iff, writable_iff, mkPte, BitVec.getLsbD_or, BitVec.getLsbD_or, getLsbD_pteP,
    getLsbD_addr_of_lt (by omega)]
  simp

theorem userOk_mkPte : userOk (mkPte f perm) ↔ userOk perm := by
  rw [userOk_iff, userOk_iff, mkPte, BitVec.getLsbD_or, BitVec.getLsbD_or, getLsbD_pteP,
    getLsbD_addr_of_lt (by omega)]
  simp

theorem pageOf_mkPte (hf : f < 2 ^ 20) (hperm : IsFlags perm) : pageOf (mkPte f perm) = f := by
  refine (pageOf_eq fun k hk => ?_).trans (pageOf_addr hf)
  rw [mkPte, BitVec.getLsbD_or, BitVec.getLsbD_or, hperm k hk, getLsbD_pteP, decide_eq_false (by omega),
    Bool.or_false, Bool.or_false]

theorem writable_pteFlags : writable (pteFlags w) ↔ writable w := by
  rw [writable_iff, writable_iff, getLsbD_pteFlags, decide_eq_true (by omega), Bool.and_true]

theorem userOk_pteFlags : userOk (pteFlags w) ↔ userOk w := by
  rw [userOk_iff, userOk_iff, getLsbD_pteFlags, decide_eq_true (by omega), Bool.and_true]

theorem present_pteFlags : present (pteFlags w) ↔ present w := by
  rw [present_iff, present_iff, getLsbD_pteFlags, decide_eq_true (by omega), Bool.and_true]

/-- The entry `cowuvm` leaves in the parent. -/
def readOnly (pte : Word) : Word := pte &&& ~~~pteW

theorem getLsbD_readOnly : (readOnly w).getLsbD k = (w.getLsbD k && decide (k ≠ 1)) := by
  unfold readOnly
  rw [BitVec.getLsbD_and, BitVec.getLsbD_not, getLsbD_pteW]
  rcases lt_or_ge k 32 with hk | hk
  · simp [hk]
  · simp [BitVec.getLsbD_of_ge w k hk]

@[simp] theorem present_readOnly : present (readOnly w) ↔ present w := by
  rw [present_iff, present_iff, getLsbD_readOnly, decide_eq_true (by omega), Bool.and_true]

@[simp] theorem userOk_readOnly : userOk (readOnly w) ↔ userOk w := by
  rw [userOk_iff, userOk_iff, getLsbD_readOnly, decide_eq_true (by omega), Bool.and_true]

@[simp] theorem not_writable_readOnly : ¬ writable (readOnly w) := by
  rw [writable_iff, getLsbD_readOnly]
  simp

@[simp] theorem pageOf_readOnly : pageOf (readOnly w) = pageOf w :=
  pageOf_eq fun k hk => by rw [getLsbD_readOnly, decide_eq_true (by omega), Bool.and_true]

@[simp] theorem present_or_pteW : present (w ||| pteW) ↔ present w := by
  rw [present_iff, present_iff, BitVec.getLsbD_or, getLsbD_pteW, decide_eq_false (by omega), Bool.or_false]

@[simp] theorem userOk_or_pteW : userOk (w ||| pteW) ↔ userOk w := by
  rw [userOk_iff, userOk_iff, BitVec.getLsbD_or, getLsbD_pteW, decide_eq_false (by omega), Bool.or_false]

@[simp] theorem writable_or_pteW : writable (w ||| pteW) := by
  rw [writable_iff, BitVec.getLsbD_or, getLsbD_pteW, decide_eq_true rfl, Bool.or_true]

@[simp] theorem pageOf_or_pteW : pageOf (w ||| pteW) = pageOf w :=
  pageOf_eq fun k hk => by rw [BitVec.getLsbD_or, getLsbD_pteW, decide_eq_false (by omega), Bool.or_false]

theorem present_addr_or : present (addr f ||| perm) ↔ present perm := by
  rw [present_iff, present_iff, BitVec.getLsbD_or, getLsbD_addr_of_lt (by omega), Bool.false_or]

theorem userOk_addr_or : userOk (addr f ||| perm) ↔ userOk perm := by
  rw [userOk_iff, userOk_iff, BitVec.getLsbD_or, getLsbD_addr_of_lt (by omega), Bool.false_or]

theorem writable_addr_or : writable (addr f ||| perm) ↔ writable perm := by
  rw [writable_iff, writable_iff, BitVec.getLsbD_or, getLsbD_addr_of_lt (by omega), Bool.false_or]

theorem pageOf_addr_or (hf : f < 2 ^ 20) (hperm : IsFlags perm) : pageOf (addr f ||| perm) = f := by
  refine (pageOf_eq fun k hk => ?_).trans (pageOf_addr hf)
  rw [BitVec.getLsbD_or, hperm k hk, Bool.or_false]

end Bits

/-! ### Memory -/

/-- The panics of the allocator, the paging code and the process table. -/
inductive Panic where
  /-- "kfree": not the start of a page the allocator manages -/
  | kfree
  /-- "kfree": nobody has the page -/
  | kfreeCount
  /-- "kfree": `deallocuvm` found a page at address 0 -/
  | deallocuvm
  /-- "remap" -/
  | remap
  /-- "freevm: no pgdir" -/
  | freevm
  /-- "copyuvm: pte should exist" -/
  | copyuvmPte
  /-- "copyuvm: page not present" -/
  | copyuvmPage
  /-- "cowuvm: pte should exist" -/
  | cowuvmPte
  /-- "cowuvm: page not present" -/
  | cowuvmPage
  /-- "inituvm: more than a page" -/
  | inituvm
  /-- "CoW: Invalid virtual address" -/
  | pgfltintr
  /-- "loaduvm: addr must be page aligned" -/
  | loaduvmAlign
  /-- "loaduvm: address should exist" -/
  | loaduvmAddr
  /-- "userinit: out of memory?" -/
  | userinit
  /-- "init exiting" -/
  | initExiting
  /-- "filedup" -/
  | filedup
  /-- "fileclose" -/
  | fileclose
  /-- a kernel access to an address that no page is mapped at -/
  | fault
  /-- not a panic of the kernel: `uva2ka` follows the null pointer that `walkpgdir` gave it -/
  | nullPte
  deriving DecidableEq, Repr

/-- Physical memory and `kmem`. -/
structure Mem where
  byte : ℕ → ℕ → BitVec 8
  freelist : List ℕ
  freePages : ℕ
  refCnt : ℕ → ℕ
  fails : ℕ

/-- Kernel code. -/
abbrev Kernel := EStateM Panic Mem

namespace Mem

/-- The `i`th word of page `f`, least byte first. -/
def word (m : Mem) (f i : ℕ) : Word :=
  m.byte f (4 * i + 3) ++ m.byte f (4 * i + 2) ++ m.byte f (4 * i + 1) ++ m.byte f (4 * i)

def setWord (m : Mem) (f i : ℕ) (w : Word) : Mem :=
  { m with byte := fun g o => if g = f ∧ o / 4 = i then w.extractLsb' (8 * (o % 4)) 8 else m.byte g o }

def setByte (m : Mem) (f o : ℕ) (b : BitVec 8) : Mem :=
  { m with byte := Function.update m.byte f (Function.update (m.byte f) o b) }

/-- `memset` of a whole page. -/
def fill (m : Mem) (f : ℕ) (b : BitVec 8) : Mem := { m with byte := Function.update m.byte f fun _ => b }

/-- `memmove` of a whole page. -/
def copy (m : Mem) (f g : ℕ) : Mem := { m with byte := Function.update m.byte f (m.byte g) }

end Mem

namespace Mem

variable {m m' : Mem} {f g i j o : ℕ} {w : Word} {b : BitVec 8}

theorem word_congr (h : m'.byte f = m.byte f) : m'.word f i = m.word f i := by
  unfold word
  rw [h]

theorem append_bytes (w : Word) : w.extractLsb' 24 8 ++ w.extractLsb' 16 8 ++ w.extractLsb' 8 8 ++
    w.extractLsb' 0 8 = w := by
  ext k hk
  simp only [BitVec.getElem_append, BitVec.getElem_extractLsb']
  split_ifs <;> (rw [← BitVec.getLsbD_eq_getElem hk]; congr 1; omega)

@[simp] theorem word_setWord_self : (m.setWord f i w).word f i = w := by
  have h0 : (4 * i) / 4 = i ∧ 4 * i % 4 = 0 := by omega
  have h1 : (4 * i + 1) / 4 = i ∧ (4 * i + 1) % 4 = 1 := by omega
  have h2 : (4 * i + 2) / 4 = i ∧ (4 * i + 2) % 4 = 2 := by omega
  have h3 : (4 * i + 3) / 4 = i ∧ (4 * i + 3) % 4 = 3 := by omega
  simp only [word, setWord, h0, h1, h2, h3, and_self, if_true]
  exact append_bytes w

theorem word_setWord_of_ne (h : ¬ (g = f ∧ j = i)) : (m.setWord f i w).word g j = m.word g j := by
  unfold word setWord
  have hk : ∀ k, k < 4 → ¬ (g = f ∧ (4 * j + k) / 4 = i) := by
    rintro k hk ⟨hg, hj⟩
    exact h ⟨hg, by omega⟩
  have h0 : ¬ (g = f ∧ 4 * j / 4 = i) := hk 0 (by omega)
  simp only [if_neg (hk 3 (by omega)), if_neg (hk 2 (by omega)), if_neg (hk 1 (by omega)), if_neg h0]

theorem byte_setWord_of_ne (h : g ≠ f) : (m.setWord f i w).byte g = m.byte g := by
  funext o
  simp [setWord, h]

@[simp] theorem refCnt_setWord : (m.setWord f i w).refCnt = m.refCnt := rfl
@[simp] theorem freelist_setWord : (m.setWord f i w).freelist = m.freelist := rfl
@[simp] theorem freePages_setWord : (m.setWord f i w).freePages = m.freePages := rfl
@[simp] theorem fails_setWord : (m.setWord f i w).fails = m.fails := rfl

theorem byte_setByte_of_ne (h : g ≠ f) : (m.setByte f o b).byte g = m.byte g := by
  simp [setByte, h]

@[simp] theorem word_fill_zero : (m.fill f 0#8).word f i = 0#32 := by
  simp only [word, fill, Function.update_self]
  rfl

@[simp] theorem byte_fill_self : (m.fill f b).byte f = fun _ => b := by
  simp [fill]

theorem byte_fill_of_ne (h : g ≠ f) : (m.fill f b).byte g = m.byte g := by
  simp [fill, h]

@[simp] theorem byte_copy_self : (m.copy f g).byte f = m.byte g := by
  simp [copy]

theorem byte_copy_of_ne {k : ℕ} (h : k ≠ f) : (m.copy f g).byte k = m.byte k := by
  simp [copy, h]

end Mem

end OperatingSystems.CowFork
