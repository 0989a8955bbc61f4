import Mathlib.Algebra.Order.Monoid.Unbundled.Basic
import Mathlib.Data.List.Basic
import Mathlib.Tactic.SplitIfs

/-! # Reading in bounded pieces

A stream is read piece by piece: a piece ends behind the next terminator, when it is full, or at the end of the
stream. Lines that fit in a piece are read one by one (`pieces_lines_append`). -/

namespace OperatingSystems.Lib.Lines

variable {α : Type*} [DecidableEq α] {nl : α} {n : ℕ} {s l w : List α}

/-- The next piece of at most `n` elements. -/
def piece (nl : α) : ℕ → List α → List α
  | 0, _ => []
  | _ + 1, [] => []
  | n + 1, c :: s => if c = nl then [c] else c :: piece nl n s

/-- A piece and what is left behind it. -/
structure Read (α : Type*) where
  taken : List α
  rest : List α

/-- One read; there is none at the end of the stream. -/
def read (nl : α) (n : ℕ) (s : List α) : Option (Read α) :=
  if s.isEmpty then none else some ⟨piece nl n s, s.drop (piece nl n s).length⟩

/-- At most `fuel` reads. -/
def reads (nl : α) (n : ℕ) : ℕ → List α → List (List α)
  | 0, _ => []
  | fuel + 1, s =>
    match read nl n s with
    | some r => r.taken :: reads nl n fuel r.rest
    | none => []

/-- **The pieces of a stream**: every one has an element at least. -/
def pieces (nl : α) (n : ℕ) (s : List α) : List (List α) := reads nl n s.length s

/-- A line and its terminator. -/
def IsLine (nl : α) (l : List α) : Prop := ∃ w, nl ∉ w ∧ l = w ++ [nl]

instance : Decidable (IsLine nl l) :=
  decidable_of_iff (l.getLast? = some nl ∧ nl ∉ l.dropLast) <| by
    constructor
    · rintro ⟨hlast, hmem⟩
      obtain ⟨w, rfl⟩ := List.getLast?_eq_some_iff.mp hlast
      rw [List.dropLast_concat] at hmem
      exact ⟨w, hmem, rfl⟩
    · rintro ⟨w, hw, rfl⟩
      rw [List.dropLast_concat]
      exact ⟨List.getLast?_concat, hw⟩

/-! ### One piece -/

theorem length_piece_le : ∀ (n : ℕ) (s : List α), (piece nl n s).length ≤ n
  | 0, s => by simp [piece]
  | n + 1, [] => by simp [piece]
  | n + 1, c :: s => by
    rw [piece]
    split_ifs with hc
    · simp
    · rw [List.length_cons]
      exact Nat.succ_le_succ (length_piece_le n s)

theorem length_piece_pos (nl : α) (hn : 0 < n) (hs : s ≠ []) : 0 < (piece nl n s).length := by
  obtain ⟨c, s, rfl⟩ := List.exists_cons_of_ne_nil hs
  obtain ⟨n, rfl⟩ := Nat.exists_eq_succ_of_ne_zero (Nat.pos_iff_ne_zero.mp hn)
  rw [piece]
  split_ifs with hc <;> simp

/-- The terminator is at the end only. -/
theorem notMem_dropLast_piece : ∀ (n : ℕ) (s : List α), nl ∉ (piece nl n s).dropLast
  | 0, s => by simp [piece]
  | n + 1, [] => by simp [piece]
  | n + 1, c :: s => by
    rw [piece]
    split_ifs with hc
    · simp
    · cases hp : piece nl n s with
      | nil => simp
      | cons d t =>
        rw [List.dropLast_cons_cons, List.mem_cons, not_or]
        refine ⟨fun h => hc h.symm, ?_⟩
        rw [← hp]
        exact notMem_dropLast_piece n s

/-- What has no terminator and fits. -/
theorem piece_append_of_notMem : ∀ (w s : List α) (n : ℕ), nl ∉ w → w.length ≤ n →
    piece nl n (w ++ s) = w ++ piece nl (n - w.length) s
  | [], s, n, _, _ => rfl
  | c :: w, s, 0, _, hlen => absurd hlen (by simp)
  | c :: w, s, n + 1, hw, hlen => by
    rw [List.mem_cons, not_or] at hw
    rw [List.length_cons] at hlen
    rw [List.cons_append, piece, if_neg (fun h => hw.1 h.symm), piece_append_of_notMem w s n hw.2 (by omega),
      List.length_cons, Nat.add_sub_add_right, List.cons_append]

theorem IsLine.piece_append (hl : IsLine nl l) (hlen : l.length ≤ n) (s : List α) : piece nl n (l ++ s) = l := by
  obtain ⟨w, hw, rfl⟩ := hl
  rw [List.length_append, List.length_singleton] at hlen
  obtain ⟨m, hm⟩ := Nat.exists_eq_add_of_le' (show 1 ≤ n - w.length by omega)
  rw [List.append_assoc, piece_append_of_notMem w _ n hw (by omega), hm, List.singleton_append, piece, if_pos rfl]

theorem piece_of_notMem (hw : nl ∉ w) (hlen : w.length ≤ n) : piece nl n w = w := by
  have h := piece_append_of_notMem w [] n hw hlen
  rw [List.append_nil] at h
  rw [h]
  cases n - w.length <;> simp [piece]

omit [DecidableEq α] in
theorem IsLine.ne_nil (hl : IsLine nl l) : l ≠ [] := by
  obtain ⟨w, -, rfl⟩ := hl
  simp

/-! ### All pieces -/

theorem read_nil (nl : α) (n : ℕ) : read nl n [] = none := rfl

theorem read_of_ne_nil (hs : s ≠ []) : read nl n s = some ⟨piece nl n s, s.drop (piece nl n s).length⟩ := by
  rw [read, if_neg (by simpa using hs)]

theorem IsLine.read_append (hl : IsLine nl l) (hlen : l.length ≤ n) (s : List α) :
    read nl n (l ++ s) = some ⟨l, s⟩ := by
  rw [read_of_ne_nil (by simp [hl.ne_nil]), hl.piece_append hlen, List.drop_left]

/-- More reads than elements make no difference. -/
theorem reads_eq_pieces (hn : 0 < n) : ∀ (fuel : ℕ) (s : List α), s.length ≤ fuel → reads nl n fuel s = pieces nl n s := by
  suffices h : ∀ (fuel fuel' : ℕ) (s : List α), s.length ≤ fuel → s.length ≤ fuel' →
      reads nl n fuel s = reads nl n fuel' s from fun fuel s hs => h fuel s.length s hs le_rfl
  intro fuel
  induction fuel with
  | zero =>
    intro fuel' s hs _
    rw [List.eq_nil_of_length_eq_zero (Nat.le_zero.mp hs)]
    cases fuel' <;> rfl
  | succ fuel ih =>
    intro fuel' s hs hs'
    by_cases hnil : s = []
    · rw [hnil]
      cases fuel' <;> rfl
    · have hpos := List.length_pos_of_ne_nil hnil
      obtain ⟨fuel', rfl⟩ := Nat.exists_eq_succ_of_ne_zero (show fuel' ≠ 0 by omega)
      have hp := length_piece_pos nl hn hnil
      simp only [reads, read_of_ne_nil hnil]
      rw [ih fuel' _ (by rw [List.length_drop]; omega) (by rw [List.length_drop]; omega)]

theorem pieces_nil (nl : α) (n : ℕ) : pieces nl n [] = [] := rfl

theorem pieces_of_ne_nil (hn : 0 < n) (hs : s ≠ []) :
    pieces nl n s = piece nl n s :: pieces nl n (s.drop (piece nl n s).length) := by
  have hp := length_piece_pos nl hn hs
  have hpos := List.length_pos_of_ne_nil hs
  rw [← reads_eq_pieces hn (s.length + 1) s (by omega), reads, read_of_ne_nil hs]
  dsimp only
  rw [reads_eq_pieces hn _ _ (by rw [List.length_drop]; omega)]

/-- **A line is read.** -/
theorem pieces_line_append (hl : IsLine nl l) (hlen : l.length ≤ n) (s : List α) :
    pieces nl n (l ++ s) = l :: pieces nl n s := by
  have hn : 0 < n := (List.length_pos_of_ne_nil hl.ne_nil).trans_le hlen
  rw [pieces_of_ne_nil hn (by simp [hl.ne_nil]), hl.piece_append hlen, List.drop_left]

/-- **Lines are read one by one.** -/
theorem pieces_lines_append : ∀ (ls : List (List α)) (s : List α), (∀ l ∈ ls, IsLine nl l ∧ l.length ≤ n) →
    pieces nl n (ls.flatten ++ s) = ls ++ pieces nl n s
  | [], s, _ => rfl
  | l :: ls, s, h => by
    obtain ⟨hl, hlen⟩ := h l List.mem_cons_self
    rw [List.flatten_cons, List.append_assoc, pieces_line_append hl hlen,
      pieces_lines_append ls s fun l hl => h l (List.mem_cons_of_mem _ hl), List.cons_append]

/-- What is left without a terminator. -/
theorem pieces_of_notMem (hw : nl ∉ w) (hlen : w.length ≤ n) : pieces nl n w = if w = [] then [] else [w] := by
  split_ifs with hnil
  · rw [hnil, pieces_nil]
  · have hn : 0 < n := (List.length_pos_of_ne_nil hnil).trans_le hlen
    rw [pieces_of_ne_nil hn hnil, piece_of_notMem hw hlen, List.drop_length, pieces_nil]

/-- What holds of every piece that is read holds of all. -/
theorem forall_mem_pieces {P : List α → Prop} (hP : ∀ s : List α, s ≠ [] → P (piece nl n s)) (s : List α) :
    ∀ l ∈ pieces nl n s, P l := by
  suffices h : ∀ (fuel : ℕ) (s : List α), ∀ l ∈ reads nl n fuel s, P l from h _ s
  intro fuel
  induction fuel with
  | zero => exact fun s l hl => absurd hl (by simp [reads])
  | succ fuel ih =>
    intro s l hl
    by_cases hnil : s = []
    · rw [hnil, reads, read_nil] at hl
      cases hl
    · rw [reads, read_of_ne_nil hnil] at hl
      rcases List.mem_cons.mp hl with rfl | hl
      · exact hP s hnil
      · exact ih _ l hl

end OperatingSystems.Lib.Lines
