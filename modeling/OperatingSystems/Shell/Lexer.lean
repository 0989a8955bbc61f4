import Mathlib.Data.List.GetD
import Mathlib.Tactic
import OperatingSystems.Lib.Runs

/-! # Smash: from a line to argument vectors

`main` splits a line at `;`, squeezes the white space of each command in a loop with two flags, trims it, skips
commands of white space only, and splits the others at white space. Both splits run `strtok` twice: once to count,
and once to copy the tokens into an array of that length.

* `commands line`: the argument vectors that the loop over the commands takes up. It is `none` if an array were
  written or read where it was not allocated or filled.
* `commands_eq`: they are the runs between white space of the runs between `;`, for those with a character other
  than white space; every array is filled. -/

namespace OperatingSystems.Shell.Lexer

open OperatingSystems.Lib.Runs

/-- The characters of a C string before its final zero. -/
abbrev CString := List Char

/-- `" \t\n"`. -/
def whiteSpace : List Char := [' ', '\t', '\n']

/-- `";"`. -/
def semicolon : List Char := [';']

/-- `strtok` at a place in a string: the next token and the place behind it. -/
def strtok (delim : List Char) (s : CString) : Option (Found Char) := nextRun (delim.contains ·) s

/-! ### Counting and copying -/

/-- The counting pass: `while(token != NULL) (*num_args)++`. -/
def countTokens (delim : List Char) (s : CString) : ℕ :=
  match h : strtok delim s with
  | some token => countTokens delim token.rest + 1
  | none => 0
termination_by s.length
decreasing_by exact length_rest_lt h

/-- An array of strings and how many it has got; `none` is a pointer that was not written. -/
structure Args where
  array : List (Option CString)
  numArgs : ℕ
  deriving DecidableEq

/-- `(*args)[(*num_args)++] = token_copy`, if the index is in the array. -/
def Args.push (a : Args) (token : CString) : Option Args :=
  if a.numArgs < a.array.length then some ⟨a.array.set a.numArgs (some token), a.numArgs + 1⟩ else none

/-- The copying pass. -/
def copyTokens (delim : List Char) (s : CString) (a : Args) : Option Args :=
  match _h : strtok delim s with
  | some token =>
    match a.push token.run with
    | some a => copyTokens delim token.rest a
    | none => none
  | none => some a
termination_by s.length
decreasing_by exact length_rest_lt _h

/-- `malloc` of as many pointers as tokens were counted, and the copy. -/
def splitTokens (delim : List Char) (line : CString) : Option Args :=
  copyTokens delim line ⟨List.replicate (countTokens delim line) none, 0⟩

/-- **`lexer`.** -/
def lexer (line : CString) : Option Args := splitTokens whiteSpace line

/-- **`split_cmds`.** -/
def splitCmds (line : CString) : Option Args := splitTokens semicolon line

/-! ### The commands of a line -/

/-- `c == ' ' || c == '\t' || c == '\n'`. -/
def isSpace (c : Char) : Bool := c = ' ' || c = '\t' || c = '\n'

/-- The variables of the squeezing loop; `index` is the length of `cmd`. -/
structure Squeezed where
  cmd : CString
  prevIsSpace : Bool
  allSpace : Bool

/-- The body of the loop, for one character. -/
def squeezeStep (x : Squeezed) (c : Char) : Squeezed :=
  if isSpace c then
    ⟨if !x.allSpace && !x.prevIsSpace then x.cmd ++ [c] else x.cmd, true, x.allSpace⟩
  else ⟨x.cmd ++ [c], false, false⟩

/-- `// remove extra white space`. -/
def squeeze (cmdString : CString) : Squeezed := cmdString.foldl squeezeStep ⟨[], false, true⟩

/-- `while(..) index--`, where there is a character that ends it. -/
def trim (cmd : CString) : CString := cmd.rdropWhile isSpace

/-- The body of the loop over the commands up to `lexer`: nothing for white space only. -/
def argVector (cmdString : CString) (out : List Args) : Option (List Args) :=
  let x := squeeze cmdString
  if x.allSpace then some out else (lexer (trim x.cmd)).map fun args => out ++ [args]

/-- `for(..; cmd_idx < num_cmds; cmd_idx++)`. -/
def cmdLoop (cmds : Args) (cmdIdx : ℕ) (out : List Args) : Option (List Args) :=
  if cmdIdx < cmds.numArgs then
    match cmds.array.getD cmdIdx none with
    | some cmdString =>
      match argVector cmdString out with
      | some out => cmdLoop cmds (cmdIdx + 1) out
      | none => none
    | none => none
  else some out
termination_by cmds.numArgs - cmdIdx

/-- **The argument vectors of a line**, in order. -/
def commands (line : CString) : Option (List Args) := (splitCmds line).bind fun cmds => cmdLoop cmds 0 []

/-! ### The two passes -/

/-- An array that is filled with these strings, all of them. -/
def filled (words : List CString) : Args := ⟨words.map some, words.length⟩

section Tokens
variable {delim : List Char} {s : CString}

theorem countTokens_eq (delim : List Char) (s : CString) :
    countTokens delim s = (runs (delim.contains ·) s).length := by
  induction s using countTokens.induct delim with
  | case1 s token h ih =>
    rw [countTokens]
    split
    · next token' h' =>
      obtain rfl := Option.some.inj (h'.symm.trans h)
      rw [runs_of_nextRun h, ih]
      rfl
    · next h' => exact absurd (h'.symm.trans h) (by simp)
  | case2 s h =>
    rw [countTokens]
    split
    · next token h' => exact absurd (h'.symm.trans h) (by simp)
    · rw [runs_of_nextRun_none h]
      rfl

/-- An array with room for the tokens that are left. -/
theorem push_eq (words : List CString) (n : ℕ) (token : CString) :
    Args.push ⟨words.map some ++ List.replicate (n + 1) none, words.length⟩ token =
      some ⟨(words ++ [token]).map some ++ List.replicate n none, (words ++ [token]).length⟩ := by
  unfold Args.push
  dsimp only
  rw [if_pos (by simp)]
  congr 2
  · rw [List.set_append_right _ _ (by simp), List.length_map, Nat.sub_self, List.replicate_succ, List.set_cons_zero,
      List.map_append, List.append_assoc]
    rfl
  · rw [List.length_append]
    rfl

/-- **The copying pass fills the array**, by induction on what is left of the string. -/
theorem copyTokens_eq (delim : List Char) (s : CString) : ∀ words : List CString,
    copyTokens delim s ⟨words.map some ++ List.replicate (countTokens delim s) none, words.length⟩ =
      some (filled (words ++ runs (delim.contains ·) s)) := by
  induction s using countTokens.induct delim with
  | case1 s token h ih =>
    intro words
    have hcount : countTokens delim s = countTokens delim token.rest + 1 := by
      rw [countTokens_eq, countTokens_eq, runs_of_nextRun h]
      rfl
    rw [copyTokens, hcount]
    split
    · next token' h' =>
      obtain rfl := Option.some.inj (h'.symm.trans h)
      rw [push_eq]
      dsimp only
      rw [ih, runs_of_nextRun h, List.append_assoc]
      rfl
    · next h' => exact absurd (h'.symm.trans h) (by simp)
  | case2 s h =>
    intro words
    have hcount : countTokens delim s = 0 := by
      rw [countTokens_eq, runs_of_nextRun_none h]
      rfl
    rw [copyTokens, hcount]
    split
    · next token h' => exact absurd (h'.symm.trans h) (by simp)
    · rw [runs_of_nextRun_none h, List.append_nil, List.replicate_zero, List.append_nil]
      rfl

/-- **The tokens are the runs**, and the array is as long as they are many. -/
theorem splitTokens_eq (delim : List Char) (line : CString) :
    splitTokens delim line = some (filled (runs (delim.contains ·) line)) := copyTokens_eq delim line []

theorem contains_whiteSpace (c : Char) : whiteSpace.contains c = isSpace c := by
  simp [whiteSpace, isSpace, Bool.or_assoc]

theorem lexer_eq (line : CString) : lexer line = some (filled (runs isSpace line)) := by
  have hdelim : (whiteSpace.contains ·) = isSpace := funext contains_whiteSpace
  rw [lexer, splitTokens_eq, hdelim]

theorem contains_semicolon (c : Char) : semicolon.contains c = decide (c = ';') := by
  simp [semicolon]

theorem splitCmds_eq (line : CString) : splitCmds line = some (filled (runs (· = ';') line)) := by
  have hdelim : (semicolon.contains ·) = fun c => decide (c = ';') := funext contains_semicolon
  rw [splitCmds, splitTokens_eq, hdelim]

end Tokens

/-! ### The squeeze -/

/-- **What the loop has kept** of the characters so far: the same runs. -/
structure Kept (s : CString) (x : Squeezed) : Prop where
  same : SameRuns isSpace s x.cmd
  prev : x.prevIsSpace = true → ∃ d, s.getLast? = some d ∧ isSpace d = true
  all : x.allSpace = s.all isSpace
  empty : x.allSpace = true → x.cmd = []

theorem Kept.step {s : CString} {x : Squeezed} (h : Kept s x) (c : Char) : Kept (s ++ [c]) (squeezeStep x c) := by
  have hlast : (s ++ [c]).getLast? = some c := List.getLast?_concat
  have hall : (s ++ [c]).all isSpace = (s.all isSpace && isSpace c) := by simp
  unfold squeezeStep
  by_cases hc : isSpace c
  · rw [if_pos hc]
    rw [hc, Bool.and_true] at hall
    by_cases hkeep : (!x.allSpace && !x.prevIsSpace) = true
    · -- the first separator behind a run
      rw [if_pos hkeep]
      refine ⟨h.same.append [c], fun _ => ⟨c, hlast, hc⟩, h.all.trans hall.symm, fun ha => ?_⟩
      rw [show x.allSpace = true from ha] at hkeep
      cases hkeep
    · rw [if_neg hkeep]
      refine ⟨?_, fun _ => ⟨c, hlast, hc⟩, h.all.trans hall.symm, h.empty⟩
      by_cases ha : x.allSpace
      · refine h.same.concat_of_forall (fun d hd => ?_) hc
        rw [h.all] at ha
        exact List.all_eq_true.mp ha d hd
      · have hp : x.prevIsSpace = true := by
          simpa [Bool.eq_false_iff.mpr ha] using hkeep
        obtain ⟨d, hs, hd⟩ := h.prev hp
        exact h.same.concat_of_getLast hs hd hc
  · rw [if_neg hc]
    refine ⟨h.same.append [c], fun hp => absurd hp Bool.false_ne_true, ?_, fun ha => absurd ha Bool.false_ne_true⟩
    rw [hall, Bool.eq_false_iff.mpr hc, Bool.and_false]

theorem kept_squeeze (s : CString) : Kept s (squeeze s) := by
  induction s using List.reverseRecOn with
  | nil => exact ⟨fun _ => rfl, fun h => absurd h Bool.false_ne_true, rfl, fun _ => rfl⟩
  | append_singleton s c ih =>
    have h := ih.step c
    rwa [squeeze, List.foldl_concat]

/-- **Squeezing and trimming keep the arguments.** -/
theorem runs_trim_squeeze (s : CString) : runs isSpace (trim (squeeze s).cmd) = runs isSpace s := by
  rw [trim, runs_rdropWhile, (kept_squeeze s).same.runs_eq]

/-! ### The line -/

theorem argVector_eq (cmdString : CString) (out : List Args) : argVector cmdString out =
    some (out ++ if cmdString.all isSpace then [] else [filled (runs isSpace cmdString)]) := by
  unfold argVector
  dsimp only
  rw [(kept_squeeze cmdString).all, lexer_eq, runs_trim_squeeze]
  split_ifs
  · rw [List.append_nil]
  · rfl

/-- What the pieces of a line lead to. -/
def vectors (pieces : List CString) : List Args :=
  (pieces.filter fun piece => !piece.all isSpace).map fun piece => filled (runs isSpace piece)

theorem vectors_cons (piece : CString) (pieces : List CString) : vectors (piece :: pieces) =
    (if piece.all isSpace then [] else [filled (runs isSpace piece)]) ++ vectors pieces := by
  unfold vectors
  by_cases h : piece.all isSpace <;> simp [h]

/-- **The loop over the commands** reads each from the array, by induction on those left. -/
theorem cmdLoop_eq (pieces : List CString) : ∀ (m i : ℕ) (out : List Args), i + m = pieces.length →
    cmdLoop (filled pieces) i out = some (out ++ vectors (pieces.drop i)) := by
  intro m
  induction m with
  | zero =>
    intro i out hm
    have hi : ¬ i < (filled pieces).numArgs := by
      show ¬ i < pieces.length
      omega
    rw [cmdLoop, if_neg hi, List.drop_eq_nil_of_le (by omega)]
    exact congrArg some (List.append_nil out).symm
  | succ m ih =>
    intro i out hm
    have hi : i < pieces.length := by omega
    have hget : (filled pieces).array.getD i none = some pieces[i] := by
      show (pieces.map some).getD i none = _
      rw [List.getD_eq_getElem _ _ (by rwa [List.length_map]), List.getElem_map]
    rw [cmdLoop, if_pos (show i < (filled pieces).numArgs from hi), hget]
    dsimp only
    rw [argVector_eq]
    dsimp only
    rw [ih (i + 1) _ (by omega), List.drop_eq_getElem_cons hi, vectors_cons, List.append_assoc]

/-- **The commands of a line** are its pieces between `;` that are not only white space, each with the words between
its white space as arguments. -/
theorem commands_eq (line : CString) : commands line = some
    (((runs (· = ';') line).filter fun piece => !piece.all isSpace).map fun piece => filled (runs isSpace piece)) := by
  rw [commands, splitCmds_eq, Option.bind_some, cmdLoop_eq _ _ 0 [] (Nat.zero_add _)]
  rfl

end OperatingSystems.Shell.Lexer
