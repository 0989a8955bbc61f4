import Mathlib.Data.List.TakeWhile
import OperatingSystems.Fortunes.Parser

/-! # The fortune teller: bounds, and the fortunes that are printed

* `inBounds_iff`: the parser stays in its arrays exactly when what the file holds fits in what its header declares.
* `prints_iff`: which fortunes of a file are printed as they are. The others are those the code behind the loop
  takes for the last one, or does not. -/

namespace OperatingSystems.Fortunes.Results

open OperatingSystems.Lib.Lines OperatingSystems.Fortunes.Parser

/-! ### Bounds -/

/-- **The run stays in bounds**: every string is written in its array, and `fortunes` is indexed in `0 .. f_cnt - 1`. -/
def InBounds (fp : Bytes) (mode : Mode) (op : Bool) : Prop := badgerFortune fp mode op ≠ none

/-- **When a run stays in bounds.** -/
theorem inBounds_iff (fp : Bytes) (mode : Mode) (op : Bool) :
    InBounds fp mode op ↔ Rejected fp mode ∨ ∃ N, Bounded fp N := by
  rw [InBounds]
  by_cases hrun : Rejected fp mode
  · obtain ⟨message, h⟩ := badgerFortune_of_rejected hrun op
    rw [h]
    exact iff_of_true (Option.some_ne_none _) (.inl hrun)
  · rw [or_iff_right hrun]
    constructor
    · intro h
      by_contra hno
      exact h (badgerFortune_of_not_bounded hno hrun op)
    · rintro ⟨N, hN⟩
      rw [badgerFortune_of_bounded hN hrun op]
      exact Option.some_ne_none _

/-- One fortune, `abc`, in a file that declares strings of two bytes. -/
theorem not_inBounds_longFortune :
    ¬ InBounds [49, 10, 50, 10, 37, 10, 97, 98, 99, 10] (.number 1 (by decide)) false :=
  not_not.mpr (by decide)

/-! ### Fortune files -/

/-- A fortune: its lines, none of them `%`, and what is behind the last newline. -/
structure Fortune where
  lines : List Bytes
  rest : Bytes
  isLine : ∀ l ∈ lines, IsLine newline l
  notPercent : percentLine ∉ lines
  noLine : newline ∉ rest

namespace Fortune

/-- Its text. -/
def text (f : Fortune) : Bytes := f.lines.flatten ++ f.rest

/-- It as `fgets` reads it. -/
def pieces (f : Fortune) : List Bytes := f.lines ++ if f.rest = [] then [] else [f.rest]

/-- It as `strcat` gathers it. -/
def string (f : Fortune) : Bytes := f.pieces.flatMap cString

end Fortune

/-- The fortunes of a file, each behind a `%` line. -/
def body (fortunes : List Fortune) (trailing : Bool) : Bytes :=
  fortunes.flatMap (fun f => percentLine ++ f.text) ++ if trailing then percentLine else []

/-- All fortunes but the last end with a newline, and the last one before a final `%` line. -/
def Whole (fortunes : List Fortune) (trailing : Bool) : Prop :=
  ∀ f ∈ (if trailing then fortunes else fortunes.dropLast), f.rest = []

/-- **A fortune file**: its header declares `N` fortunes of at most `M` bytes. -/
structure FortuneFile where
  countLine : Bytes
  sizeLine : Bytes
  fortunes : List Fortune
  trailing : Bool
  N : ℕ
  M : ℕ
  headerLines : ∀ l ∈ [countLine, sizeLine], IsLine newline l ∧ l.length ≤ 19
  declaresCount : atoi countLine = N
  declaresSize : atoi sizeLine = M
  pos : 0 < N
  nonempty : 0 < fortunes.length
  whole : Whole fortunes trailing
  size : ∀ f ∈ fortunes, f.text.length ≤ M

/-- The file. -/
def FortuneFile.bytes (F : FortuneFile) : Bytes := F.countLine ++ (F.sizeLine ++ body F.fortunes F.trailing)

/-- The number of `%` lines. -/
def FortuneFile.percents (F : FortuneFile) : ℕ := F.fortunes.length + if F.trailing then 1 else 0

/-- **The fortune is printed as it is**: with `-n k`, and at every line of a batch file that asks for it. -/
structure Prints (file : Bytes) (op : Bool) (k : ℕ) (text : Bytes) : Prop where
  number : ∀ pos, badgerFortune file (.number k pos) op = some (.printed [⟨op, some text⟩])
  batch : ∀ bp, looksEmpty bp = false → ∃ out, badgerFortune file (.batch bp) op = some (.printed out) ∧
    ∀ (i : ℕ) (line : Bytes), (pieces newline 19 bp)[i]? = some line → atoi line = k →
      out[i]? = some ⟨op, some (text ++ [newline, newline])⟩

/-- The numbers of the program stay in `int`. -/
def FortuneFile.Small (F : FortuneFile) : Prop := F.M < intMax ∧ (F.N < intMax ∨ F.percents ≤ intMax)
  deriving Decidable

/-- What becomes of fortune `k`: it is stored at the next `%` line, or it is the last one and the last of those declared. -/
def FortuneFile.Kept (F : FortuneFile) (k : ℕ) (text : Bytes) : Prop :=
  0 ∉ text ∧ (k < F.N ∧ (k < F.fortunes.length ∨ F.trailing = true) ∨
    k = F.N ∧ (F.fortunes.length = F.N ∧ F.trailing = false ∨ text = []))
  deriving Decidable

/-! ### The strings of the fortunes -/

theorem zero_notMem_cString (b : Bytes) : 0 ∉ cString b := fun h => by
  simpa using List.mem_takeWhile_imp h

theorem cString_of_notMem {b : Bytes} (h : 0 ∉ b) : cString b = b :=
  List.takeWhile_eq_self_iff.mpr fun c hc => decide_eq_true fun h0 : c = 0 => h (h0 ▸ hc)

namespace Fortune
variable {f : Fortune} {n : ℕ}

theorem flatten_pieces (f : Fortune) : f.pieces.flatten = f.text := by
  rw [pieces, text, List.flatten_append]
  split_ifs with h
  · rw [h, List.flatten_nil]
  · rw [List.flatten_singleton]

/-- **The string is the text** up to zeros. -/
theorem string_eq_iff (f : Fortune) : f.string = f.text ↔ 0 ∉ f.text := by
  constructor
  · intro h h0
    rw [← h, string, List.mem_flatMap] at h0
    obtain ⟨b, -, hb⟩ := h0
    exact zero_notMem_cString b hb
  · intro h
    rw [string, ← flatten_pieces, List.flatMap_def]
    congr 1
    conv_rhs => rw [← List.map_id f.pieces]
    refine List.map_congr_left fun b hb => cString_of_notMem fun h0 => h ?_
    rw [← flatten_pieces]
    exact List.mem_flatten_of_mem hb h0

theorem length_string_le (f : Fortune) : f.string.length ≤ f.text.length := by
  rw [string, ← flatten_pieces, List.length_flatMap, List.length_flatten]
  exact List.sum_le_sum fun b _ => (List.takeWhile_sublist _).length_le

theorem percentLine_notMem (f : Fortune) : percentLine ∉ f.pieces := fun h => by
  rcases List.mem_append.mp h with h | h
  · exact f.notPercent h
  · split_ifs at h with hrest
    · cases h
    · rw [List.mem_singleton] at h
      exact f.noLine (by rw [← h]; decide)

end Fortune

/-! ### Reading a file -/

theorem isLine_percentLine : IsLine newline percentLine := ⟨[37], by decide, rfl⟩

/-- A fortune is read line by line. -/
theorem pieces_text_append {f : Fortune} {n : ℕ} (hlen : f.text.length ≤ n) {s : Bytes} (hs : f.rest = [] ∨ s = []) :
    pieces newline n (f.text ++ s) = f.pieces ++ pieces newline n s := by
  have hlines : ∀ l ∈ f.lines, IsLine newline l ∧ l.length ≤ n := fun l hl => by
    refine ⟨f.isLine l hl, le_trans ?_ hlen⟩
    rw [Fortune.text, List.length_append]
    exact le_trans (List.sublist_flatten_of_mem hl).length_le (Nat.le_add_right _ _)
  rw [Fortune.text, Fortune.pieces, List.append_assoc, pieces_lines_append _ _ hlines, List.append_assoc]
  rcases hs with hs | rfl
  · rw [hs, if_pos rfl]
    rfl
  · have hrest : f.rest.length ≤ n := by
      rw [Fortune.text, List.length_append] at hlen
      omega
    rw [List.append_nil, pieces_nil, List.append_nil, pieces_of_notMem f.noLine hrest]

/-- **The body is read fortune by fortune**, by induction on them. -/
theorem pieces_body {n : ℕ} (hn : 2 ≤ n) (trailing : Bool) (fs : List Fortune) (hwhole : Whole fs trailing)
    (hlen : ∀ f ∈ fs, f.text.length ≤ n) : pieces newline n (body fs trailing) =
      fs.flatMap (fun f => percentLine :: f.pieces) ++ if trailing then [percentLine] else [] := by
  induction fs with
  | nil =>
    cases trailing with
    | false => rfl
    | true =>
      show pieces newline n percentLine = [percentLine]
      have h := pieces_line_append isLine_percentLine hn []
      rwa [List.append_nil] at h
  | cons f fs ih =>
    have hbody : body (f :: fs) trailing = percentLine ++ (f.text ++ body fs trailing) := by
      simp only [body, List.flatMap_cons, List.append_assoc]
    have hrest : f.rest = [] ∨ body fs trailing = [] := by
      cases trailing with
      | true => exact .inl (hwhole f List.mem_cons_self)
      | false =>
        cases fs with
        | nil => exact .inr rfl
        | cons g fs => exact .inl (hwhole f List.mem_cons_self)
    have hwhole' : Whole fs trailing := by
      cases trailing with
      | true => exact fun g hg => hwhole g (List.mem_cons_of_mem f hg)
      | false =>
        cases fs with
        | nil => exact fun g hg => absurd hg (by simp)
        | cons g fs => exact fun g' hg => hwhole g' (List.mem_cons_of_mem f hg)
    rw [hbody, pieces_line_append isLine_percentLine hn, pieces_text_append (hlen f List.mem_cons_self) hrest,
      ih hwhole' fun g hg => hlen g (List.mem_cons_of_mem f hg), List.flatMap_cons, List.append_assoc,
      List.cons_append]

/-- Pieces other than the `%` line are gathered. -/
theorem textsFrom_append (ls : List Bytes) : ∀ (g : List Bytes) (temp : Bytes), percentLine ∉ g →
    textsFrom temp (g ++ ls) = textsFrom (temp ++ g.flatMap cString) ls
  | [], temp, _ => by rw [List.flatMap_nil, List.append_nil, List.nil_append]
  | b :: g, temp, hg => by
    rw [List.mem_cons, not_or] at hg
    rw [List.cons_append, textsFrom_cons _ _ (Ne.symm hg.1), textsFrom_append ls g _ hg.2, List.flatMap_cons,
      List.append_assoc]

/-- The texts behind the first one, by induction on the fortunes. -/
theorem textsFrom_fortunes (trailing : Bool) (fs : List Fortune) (temp : Bytes) :
    textsFrom temp (fs.flatMap (fun f => percentLine :: f.pieces) ++ if trailing then [percentLine] else []) =
      temp :: (fs.map Fortune.string ++ if trailing then [[]] else []) := by
  induction fs generalizing temp with
  | nil =>
    rw [List.flatMap_nil, List.nil_append, List.map_nil, List.nil_append]
    split_ifs
    · rw [textsFrom_percent, textsFrom_nil]
    · rw [textsFrom_nil]
  | cons f fs ih =>
    rw [List.flatMap_cons, List.append_assoc, List.cons_append, textsFrom_percent,
      textsFrom_append _ _ _ f.percentLine_notMem, ih]
    rfl

/-- **The texts are the fortunes**, and an empty one behind a final `%` line. -/
theorem texts_body {n : ℕ} (hn : 2 ≤ n) (trailing : Bool) {fs : List Fortune} (hne : 0 < fs.length)
    (hwhole : Whole fs trailing) (hlen : ∀ f ∈ fs, f.text.length ≤ n) :
    texts (pieces newline n (body fs trailing)) = fs.map Fortune.string ++ if trailing then [[]] else [] := by
  rw [texts, pieces_body hn trailing fs hwhole hlen]
  obtain ⟨f, fs, rfl⟩ := List.exists_cons_of_length_pos hne
  rw [List.flatMap_cons, List.append_assoc, List.cons_append, List.erase_cons_head,
    textsFrom_append _ _ _ f.percentLine_notMem, textsFrom_fortunes]
  rfl

/-! ### A fortune file -/

namespace FortuneFile
variable (F : FortuneFile)

/-- The texts the parser finds. -/
def strings : List Bytes := F.fortunes.map Fortune.string ++ if F.trailing then [[]] else []

theorem length_strings : F.strings.length = F.percents := by
  rw [strings, percents, List.length_append, List.length_map]
  split_ifs <;> rfl

theorem read_first : fgetsInt [] F.bytes = ⟨F.countLine, F.sizeLine ++ body F.fortunes F.trailing⟩ := by
  obtain ⟨hline, hlen⟩ := F.headerLines F.countLine (by simp)
  rw [fgetsInt, bytes, hline.read_append hlen]
  rfl

theorem second_eq : second F.bytes = ⟨F.sizeLine, body F.fortunes F.trailing⟩ := by
  obtain ⟨hline, hlen⟩ := F.headerLines F.sizeLine (by simp)
  rw [second, read_first, fgetsInt, hline.read_append hlen]
  rfl

theorem declared_eq : declared F.bytes = F.N := by
  rw [declared, read_first]
  exact F.declaresCount

theorem bufferSize_eq : bufferSize F.bytes = max 3 (F.M + 1) := by
  rw [bufferSize, second_eq, F.declaresSize]
  omega

theorem textsOf_eq : textsOf F.bytes = F.strings := by
  rw [textsOf, second_eq, bufferSize_eq]
  exact texts_body (by omega) F.trailing F.nonempty F.whole fun f hf => le_trans (F.size f hf) (by omega)

/-- The file does not look empty: it starts with the line of a number. -/
theorem looksEmpty_eq : looksEmpty F.bytes = false := by
  by_contra h
  have hne := (F.headerLines F.countLine (by simp)).1.ne_nil
  obtain ⟨c, s, hs⟩ := List.exists_cons_of_ne_nil hne
  rw [bytes, hs, looksEmpty, Bool.not_eq_false, decide_eq_true_eq] at h
  change c = 255 at h
  have hcount := F.declaresCount
  have hpos := F.pos
  rw [hs, h] at hcount
  have hzero : atoi (255 :: s) = 0 := rfl
  omega

/-- **The fortunes fit in what the header declares.** -/
theorem bounded_iff : (∃ N, Bounded F.bytes N) ↔ F.Small := by
  have hfits : ∀ t ∈ F.strings, t.length < max 3 (F.M + 1) := fun t ht => by
    rcases List.mem_append.mp ht with ht | ht
    · obtain ⟨f, hf, rfl⟩ := List.mem_map.mp ht
      have h1 := f.length_string_le
      have h2 := F.size f hf
      omega
    · split_ifs at ht
      · rw [List.mem_singleton.mp ht, List.length_nil]
        omega
      · cases ht
  constructor
  · rintro ⟨N, hdecl, -, hsize, hfit⟩
    rw [declared_eq, Nat.cast_inj] at hdecl
    rw [second_eq, F.declaresSize] at hsize
    have hcount := hfit.2
    rw [textsOf_eq, length_strings, ← hdecl, Nat.cast_zero, zero_add] at hcount
    exact ⟨hsize, hcount⟩
  · rintro ⟨hsize, hcount⟩
    refine ⟨F.N, F.declared_eq, F.pos, by rwa [second_eq, F.declaresSize], fun t ht => ?_, ?_⟩
    · rw [textsOf_eq] at ht
      rw [bufferSize_eq]
      exact hfits t (List.mem_of_mem_take ht)
    · rwa [textsOf_eq, length_strings, Nat.cast_zero, zero_add]

theorem not_rejected {mode : Mode} (hmode : mode.looksEmpty = false) (hn : mode.n ≤ F.N) :
    ¬ Rejected F.bytes mode := by
  rintro (h | h | h)
  · rw [looksEmpty_eq] at h
    cases h
  · rw [hmode] at h
    cases h
  · rw [declared_eq] at h
    omega

theorem getElem?_strings {k : ℕ} {f : Fortune} (hf : F.fortunes[k]? = some f) : F.strings[k]? = some f.string := by
  have hlt : k < (F.fortunes.map Fortune.string).length := by
    rw [List.length_map]
    exact (List.getElem?_eq_some_iff.mp hf).1
  rw [strings, List.getElem?_append_left hlt, List.getElem?_map, hf, Option.map_some]

/-- **What entry `k` holds.** -/
theorem entry_eq_iff {k : ℕ} {f : Fortune} (hk : 0 < k) (hkN : k ≤ F.N) (hf : F.fortunes[k - 1]? = some f) :
    entry F.N F.strings k = some f.text ↔ F.Kept k f.text := by
  have hkK : k - 1 < F.fortunes.length := (List.getElem?_eq_some_iff.mp hf).1
  have hget := F.getElem?_strings hf
  have hlen := F.length_strings
  have hpercents : F.percents = F.fortunes.length + if F.trailing then 1 else 0 := rfl
  rw [entry, Kept]
  rcases hkN.eq_or_lt with rfl | hlt
  · rw [if_pos rfl, Option.some_inj]
    by_cases hfew : F.percents ≤ F.N
    · have htrailing : F.trailing = false := by
        by_contra h
        rw [if_pos (by simpa using h)] at hpercents
        omega
      rw [htrailing, if_neg Bool.false_ne_true] at hpercents
      have hlast : F.strings.getLastD [] = f.string := by
        rw [List.getLastD_eq_getLast?, List.getLast?_eq_getElem?, hlen, show F.percents - 1 = F.N - 1 by omega, hget,
          Option.getD_some]
      rw [hlen, if_pos hfew, hlast, f.string_eq_iff]
      exact (and_iff_left (.inr ⟨rfl, .inl ⟨by omega, htrailing⟩⟩)).symm
    · have hmany : ¬ (F.fortunes.length = F.N ∧ F.trailing = false) := by
        rintro ⟨h, htrailing⟩
        rw [htrailing, if_neg Bool.false_ne_true] at hpercents
        omega
      rw [hlen, if_neg hfew]
      constructor
      · intro h
        rw [← h]
        exact ⟨List.not_mem_nil, .inr ⟨rfl, .inr rfl⟩⟩
      · rintro ⟨-, ⟨h, -⟩ | ⟨-, h | h⟩⟩
        · exact absurd h (lt_irrefl _)
        · exact absurd h hmany
        · exact h.symm
  · rw [if_neg hlt.ne, List.getElem?_dropLast, hlen]
    by_cases hstored : k < F.fortunes.length ∨ F.trailing = true
    · have hin : k - 1 < F.percents - 1 := by
        rcases hstored with h | h
        · omega
        · rw [if_pos h] at hpercents
          omega
      rw [if_pos hin, hget, Option.some_inj, f.string_eq_iff]
      exact (and_iff_left (.inl ⟨hlt, hstored⟩)).symm
    · rw [not_or, Bool.not_eq_true] at hstored
      rw [hstored.2, if_neg Bool.false_ne_true] at hpercents
      rw [if_neg (by omega)]
      refine iff_of_false (fun h => by cases h) ?_
      rintro ⟨-, ⟨-, h | h⟩ | ⟨h, -⟩⟩
      · exact hstored.1 h
      · rw [hstored.2] at h
        cases h
      · exact hlt.ne h

end FortuneFile

/-! ### The fortunes that are printed -/

/-- **When fortune `k` is printed as it is.** -/
theorem prints_iff (F : FortuneFile) (op : Bool) (k : ℕ) (f : Fortune) (hk : 0 < k) (hkN : k ≤ F.N)
    (hf : F.fortunes[k - 1]? = some f) : Prints F.bytes op k f.text ↔ F.Small ∧ F.Kept k f.text := by
  have hpos : (0 : ℤ) < k := by omega
  have hnumber : ¬ Rejected F.bytes (.number k hpos) := F.not_rejected rfl (Int.ofNat_le.mpr hkN)
  by_cases hsmall : F.Small
  swap
  · refine iff_of_false (fun h => ?_) fun h => hsmall h.1
    have hnone := badgerFortune_of_not_bounded (fun hb => hsmall (F.bounded_iff.mp hb)) hnumber op
    rw [h.number hpos] at hnone
    cases hnone
  rw [and_iff_right hsmall, ← F.entry_eq_iff hk hkN hf]
  obtain ⟨N, hN⟩ := F.bounded_iff.mpr hsmall
  have hNeq : N = F.N := by
    have h := hN.declared
    rw [F.declared_eq] at h
    omega
  rw [hNeq] at hN
  have hrun := fun mode (h : ¬ Rejected F.bytes mode) => badgerFortune_of_bounded hN h op
  rw [F.textsOf_eq] at hrun
  constructor
  · intro h
    have hprinted := h.number hpos
    rw [hrun _ hnumber, Option.some_inj, Outcome.printed.injEq, printed, Int.toNat_natCast] at hprinted
    simpa using hprinted
  · intro hentry
    constructor
    · intro pos
      rw [hrun _ hnumber, printed, Int.toNat_natCast, hentry]
    · intro bp hbp
      refine ⟨_, hrun _ (F.not_rejected hbp (by show (-1 : ℤ) ≤ _; omega)), fun i line hline hnum => ?_⟩
      rw [printed, List.getElem?_map, hline, Option.map_some, printedLine, hnum, if_neg (by omega), Int.toNat_natCast,
        hentry, Option.map_some]

/-- The fortune `hi`. -/
def hi : Fortune where
  lines := [[104, 105, newline]]
  rest := []
  isLine := by decide
  notPercent := by decide
  noLine := by decide

/-- A file of `N` fortunes that are all `hi`, with a final `%` line or not. -/
def allHi (N : ℕ) (trailing : Bool) (countLine : Bytes) (hline : IsLine newline countLine ∧ countLine.length ≤ 19)
    (hcount : atoi countLine = N) (hpos : 0 < N) : FortuneFile where
  countLine := countLine
  sizeLine := [57, newline]
  fortunes := List.replicate N hi
  trailing := trailing
  N := N
  M := 9
  headerLines := List.forall_mem_cons.mpr ⟨hline, List.forall_mem_singleton.mpr (by decide)⟩
  declaresCount := hcount
  declaresSize := by decide
  pos := hpos
  nonempty := by rwa [List.length_replicate]
  whole f hf := by
    have hmem : f ∈ List.replicate N hi := by
      split_ifs at hf
      · exact hf
      · exact List.mem_of_mem_dropLast hf
    rw [List.eq_of_mem_replicate hmem]
    rfl
  size f hf := by
    rw [List.eq_of_mem_replicate hf]
    decide

theorem prints_iff_allHi : 0 < 2 ∧ 2 ≤ 2 ∧ Prints (allHi 2 false [50, newline] (by decide) (by decide)
    (by decide)).bytes false 2 hi.text :=
  ⟨by decide, le_rfl, (prints_iff (allHi 2 false [50, newline] (by decide) (by decide) (by decide)) false 2 hi
    (by decide) le_rfl rfl).mpr ⟨by decide, by decide⟩⟩

/-- With a final `%` line the last fortune is stored, and then what is behind that line in its place. -/
theorem not_prints_finalPercent : ¬ Prints (allHi 1 true [49, newline] (by decide) (by decide) (by decide)).bytes
    false 1 hi.text := fun h =>
  absurd (h.number (by decide)) (by decide)

end OperatingSystems.Fortunes.Results
