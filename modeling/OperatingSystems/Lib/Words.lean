import Mathlib.Tactic

/-! # Words in byte arrays

A 32-bit word in an array of bytes, least byte first: `word` reads it at a byte offset, `setWord` writes
it. Reading back what was written gives the word, and words that do not overlap it stay.

Clearing the low bits of a word rounds it down (`toNat_clear_low`). -/

namespace OperatingSystems.Lib.Words

/-- The word at the offset. -/
def word (bytes : ℕ → BitVec 8) (o : ℕ) : BitVec 32 :=
  bytes (o + 3) ++ bytes (o + 2) ++ bytes (o + 1) ++ bytes o

/-- The array with the word at the offset replaced. -/
def setWord (bytes : ℕ → BitVec 8) (o : ℕ) (w : BitVec 32) (i : ℕ) : BitVec 8 :=
  if o ≤ i ∧ i < o + 4 then w.extractLsb' (8 * (i - o)) 8 else bytes i

variable {bytes bytes' : ℕ → BitVec 8} {o p i : ℕ} {w : BitVec 32}

theorem word_congr (h : ∀ i, o ≤ i → i < o + 4 → bytes' i = bytes i) : word bytes' o = word bytes o := by
  unfold word
  rw [h o le_rfl (by omega), h (o + 1) (by omega) (by omega), h (o + 2) (by omega) (by omega),
    h (o + 3) (by omega) (by omega)]

theorem append_bytes (w : BitVec 32) : w.extractLsb' 24 8 ++ w.extractLsb' 16 8 ++ w.extractLsb' 8 8 ++
    w.extractLsb' 0 8 = w := by
  ext k hk
  simp only [BitVec.getElem_append, BitVec.getElem_extractLsb']
  split_ifs <;> (rw [← BitVec.getLsbD_eq_getElem hk]; congr 1; omega)

theorem setWord_apply (h : i < 4) : setWord bytes o w (o + i) = w.extractLsb' (8 * i) 8 := by
  unfold setWord
  rw [if_pos ⟨by omega, by omega⟩, Nat.add_sub_cancel_left]

theorem setWord_of_lt_or (h : i < o ∨ o + 4 ≤ i) : setWord bytes o w i = bytes i := if_neg (by omega)

@[simp] theorem word_setWord_self : word (setWord bytes o w) o = w := by
  unfold word
  rw [setWord_apply (by omega), setWord_apply (by omega), setWord_apply (by omega),
    show setWord bytes o w o = w.extractLsb' 0 8 from setWord_apply (i := 0) (by omega)]
  exact append_bytes w

theorem word_setWord_of_disjoint (h : p + 4 ≤ o ∨ o + 4 ≤ p) :
    word (setWord bytes o w) p = word bytes p :=
  word_congr fun _ h1 h2 => setWord_of_lt_or (by omega)

/-- The words of an array of zeros. -/
theorem word_zero (h : ∀ i, o ≤ i → i < o + 4 → bytes i = 0#8) : word bytes o = 0#32 := by
  unfold word
  rw [h o le_rfl (by omega), h (o + 1) (by omega) (by omega), h (o + 2) (by omega) (by omega),
    h (o + 3) (by omega) (by omega)]
  rfl

/-! ### Low bits -/

variable {n : ℕ}

theorem clear_low (w : BitVec n) (k : ℕ) : w &&& ~~~BitVec.ofNat n (2 ^ k - 1) = w >>> k <<< k := by
  ext i hi
  have hbit : (BitVec.ofNat n (2 ^ k - 1))[i] = decide (i < k) := by
    rw [← BitVec.getLsbD_eq_getElem hi, BitVec.getLsbD_ofNat, Nat.testBit_two_pow_sub_one, decide_eq_true hi,
      Bool.true_and]
  simp only [BitVec.getElem_and, BitVec.getElem_not, hbit, BitVec.getElem_shiftLeft, BitVec.getElem_ushiftRight]
  by_cases h : i < k
  · simp [h]
  · simp [h, show k + (i - k) = i by omega, BitVec.getLsbD_eq_getElem hi]

/-- Without its low bits a word is rounded down. -/
theorem toNat_clear_low (w : BitVec n) (k : ℕ) :
    (w &&& ~~~BitVec.ofNat n (2 ^ k - 1)).toNat = w.toNat / 2 ^ k * 2 ^ k := by
  have hle := Nat.div_mul_le_self w.toNat (2 ^ k)
  have hlt := w.isLt
  rw [clear_low, BitVec.toNat_shiftLeft, BitVec.toNat_ushiftRight, Nat.shiftRight_eq_div_pow, Nat.shiftLeft_eq,
    Nat.mod_eq_of_lt (by omega)]

end OperatingSystems.Lib.Words
