import OperatingSystems.Shell.Stages

/-! # Smash: the descriptors of a pipeline

The shell creates all pipes of a command, forks a process for each stage, and then closes the pipes and waits. A
process puts the ends of its two pipes at descriptors 1 and 0 and closes all others, before it redirects its output
and runs its program. Here every `pipe`, `dup2` and `fork` succeeds.

* `Table`: the open descriptors of a process; a new one is the lowest that is not open.
* `runPipeline`: the processes, each with its table when it runs its program, and what the shell does behind them.
* `wired`: every process has the ends of its pipes and no other, the shell has its own descriptors only and waits
  once for each process; so a write end is open in one process at most. -/

namespace OperatingSystems.Shell.Wiring

open OperatingSystems.Shell.Lexer OperatingSystems.Shell.Stages

/-- What a descriptor refers to: something of the shell, an end of a pipe of this command, or a file. -/
inductive Entry (α : Type*)
  | own (a : α)
  | readEnd (pipe : ℕ)
  | writeEnd (pipe : ℕ)
  | file (name : CString)

/-- **The descriptors of a process**: from `bound` on none is open. -/
structure Table (ε : Type*) where
  fd : ℕ → Option ε
  bound : ℕ
  closed : ∀ d, bound ≤ d → fd d = none

namespace Table
variable {ε : Type*}

theorem exists_isNone (t : Table ε) : ∃ d, (t.fd d).isNone = true := ⟨t.bound, by rw [t.closed _ le_rfl]; rfl⟩

/-- The lowest descriptor that is not open. -/
def lowest (t : Table ε) : ℕ := Nat.find t.exists_isNone

/-- A descriptor gets another meaning. -/
def set (t : Table ε) (d : ℕ) (e : Option ε) : Table ε where
  fd := Function.update t.fd d e
  bound := max t.bound (d + 1)
  closed d' hd' := by
    rw [Function.update_of_ne (by omega)]
    exact t.closed d' (by omega)

/-- `close(d)`. -/
def close (t : Table ε) (d : ℕ) : Table ε := t.set d none

/-- `dup2(old, new)`. -/
def dup2 (t : Table ε) (old new : ℕ) : Table ε := t.set new (t.fd old)

theorem fd_lowest (t : Table ε) : t.fd t.lowest = none := Option.isNone_iff_eq_none.mp (Nat.find_spec t.exists_isNone)

theorem fd_set (t : Table ε) (d d' : ℕ) (e : Option ε) : (t.set d e).fd d' = if d' = d then e else t.fd d' :=
  Function.update_apply ..

theorem fd_dup2 (t : Table ε) (old new d : ℕ) :
    (t.dup2 old new).fd d = if d = new then t.fd old else t.fd d := Function.update_apply ..

theorem fd_close (t : Table ε) (d d' : ℕ) : (t.close d).fd d' = if d' = d then none else t.fd d' :=
  Function.update_apply ..

/-- Closing one after the other. -/
theorem fd_foldl_close (ds : List ℕ) (t : Table ε) (d : ℕ) :
    (ds.foldl close t).fd d = if d ∈ ds then none else t.fd d := by
  induction ds generalizing t with
  | nil => rfl
  | cons d₀ ds ih =>
    rw [List.foldl_cons, ih, fd_close]
    by_cases h1 : d ∈ ds <;> by_cases h2 : d = d₀ <;> simp [h1, h2]

end Table

/-- The table of the shell before the command. -/
def start {α : Type*} (t : Table α) : Table (Entry α) where
  fd d := (t.fd d).map .own
  bound := t.bound
  closed d hd := by rw [t.closed d hd]; rfl

variable {α : Type*}

/-! ### The shell -/

/-- The table of the shell, and `pipefds`. -/
structure Pipes (α : Type*) where
  table : Table (Entry α)
  pipefds : List ℕ

/-- `pipe(pipefds + i * 2)`. -/
def Pipes.pipe (x : Pipes α) (i : ℕ) : Pipes α :=
  let t := x.table.set x.table.lowest (some (.readEnd i))
  ⟨t.set t.lowest (some (.writeEnd i)), x.pipefds ++ [x.table.lowest, t.lowest]⟩

/-- `// create pipes if needed`. -/
def createPipes (t : Table α) (numPipes : ℕ) : Pipes α := (List.range numPipes).foldl Pipes.pipe ⟨start t, []⟩

/-- `// redirect output if needed`; the file is not always opened. -/
def redirect (opens : CString → Bool) (f : Option CString) (t : Table (Entry α)) : Option (Table (Entry α)) :=
  match f with
  | none => some t
  | some name =>
    if opens name then
      let newfd := t.lowest
      some ((((t.set newfd (some (.file name))).dup2 newfd 1).dup2 newfd 2).close newfd)
    else none

/-- **The child of stage `k`**, from the fork to `execv`; it may end before. -/
def childTable (opens : CString → Bool) (numPipes k : ℕ) (f : Option CString) (x : Pipes α) :
    Option (Table (Entry α)) :=
  let t := if k ≠ numPipes then x.table.dup2 (x.pipefds.getD (k * 2 + 1) 0) 1 else x.table
  let t := if k ≠ 0 then t.dup2 (x.pipefds.getD (k * 2 - 2) 0) 0 else t
  redirect opens f (x.pipefds.foldl Table.close t)

/-- A process that was forked. -/
structure Child (α : Type*) where
  stage : ℕ
  redirectFile : Option CString
  argv : List CString
  table : Option (Table (Entry α))

/-- The children, and `child_process_cnt`. -/
structure Forked (α : Type*) where
  children : List (Child α)
  childProcessCnt : ℕ

/-- The loop over the stages `k, …`, of which `m` are left; an error ends it. -/
def forkLoop (opens : CString → Bool) (numPipes : ℕ) (verdict : ℕ → Verdict) (x : Pipes α) :
    ℕ → ℕ → Forked α → Forked α
  | 0, _, y => y
  | m + 1, k, y =>
    match verdict k with
    | .started f argv => forkLoop opens numPipes verdict x m (k + 1)
        ⟨y.children ++ [⟨k, f, argv, childTable opens numPipes k f x⟩], y.childProcessCnt + 1⟩
    | .missing => y
    | .misused => y

/-- The children, the table of the shell behind them, and how often it waits. -/
structure Launched (α : Type*) where
  children : List (Child α)
  parent : Table (Entry α)
  waits : ℕ

/-- **A command of `num_pipes + 1` stages**, with the verdict on each. -/
def runPipeline (opens : CString → Bool) (t : Table α) (numPipes : ℕ) (verdict : ℕ → Verdict) : Launched α :=
  let x := createPipes t numPipes
  let y := forkLoop opens numPipes verdict x (numPipes + 1) 0 ⟨[], 0⟩
  ⟨y.children, x.pipefds.foldl Table.close x.table, y.childProcessCnt⟩

/-! ### What it should be -/

/-- An end of a pipe of the command. -/
def Entry.IsPipe : Entry α → Prop
  | .readEnd _ => True
  | .writeEnd _ => True
  | _ => False

/-- **The process of a stage is wired**: its input, its output, and no other end of a pipe. -/
structure Child.Wired (t : Table α) (numPipes : ℕ) (c : Child α) (u : Table (Entry α)) : Prop where
  input : u.fd 0 = if c.stage = 0 then (t.fd 0).map .own else some (.readEnd (c.stage - 1))
  output : c.redirectFile = none →
    u.fd 1 = if c.stage = numPipes then (t.fd 1).map .own else some (.writeEnd c.stage)
  redirected : ∀ name, c.redirectFile = some name → u.fd 1 = some (.file name)
  others : ∀ d e, u.fd d = some e → e.IsPipe → d = 0 ∨ d = 1

/-- **The pipeline is wired.** Each stage has a process up to the first that is rejected, and a process only ends
before its program if the file of its redirection does not open. -/
structure Launched.Wired (opens : CString → Bool) (t : Table α) (numPipes : ℕ) (verdict : ℕ → Verdict)
    (r : Launched α) : Prop where
  started : ∀ k ≤ numPipes, (∀ j ≤ k, ∃ f argv, verdict j = .started f argv) → ∃ c, r.children[k]? = some c
  verdicts : ∀ (i : ℕ) (c : Child α), r.children[i]? = some c → verdict i = .started c.redirectFile c.argv
  runs : ∀ c ∈ r.children, c.table = none ↔ ∃ name, c.redirectFile = some name ∧ opens name = false
  children : ∀ c ∈ r.children, c.stage ≤ numPipes ∧ ∀ u, c.table = some u → c.Wired t numPipes u
  parent : ∀ d, r.parent.fd d = (t.fd d).map .own
  waits : r.waits = r.children.length
  stages : ∀ (i : ℕ) (c : Child α), r.children[i]? = some c → c.stage = i
  writers : ∀ j, (∀ d, r.parent.fd d ≠ some (.writeEnd j)) ∧ ∀ c ∈ r.children, ∀ u, c.table = some u →
    (∃ d, u.fd d = some (.writeEnd j)) → c.stage = j

variable {t : Table α} {x : Pipes α} {m k : ℕ}

/-! ### The pipes -/

/-- **What `createPipes` has made**: the ends of the first `m` pipes are at `pipefds`, at descriptors that were not
open, and the others are as before. -/
structure Made (t : Table α) (m : ℕ) (x : Pipes α) : Prop where
  length : x.pipefds.length = 2 * m
  fresh : ∀ d ∈ x.pipefds, t.fd d = none
  isOpen : ∀ d ∈ x.pipefds, (x.table.fd d).isSome
  ends : ∀ i < m, x.table.fd (x.pipefds.getD (2 * i) 0) = some (.readEnd i) ∧
    x.table.fd (x.pipefds.getD (2 * i + 1) 0) = some (.writeEnd i)
  others : ∀ d ∉ x.pipefds, x.table.fd d = (t.fd d).map .own

theorem Made.mem (h : Made t m x) {i : ℕ} (hi : i < 2 * m) : x.pipefds.getD i 0 ∈ x.pipefds := by
  rw [List.getD_eq_getElem _ _ (by rw [h.length]; exact hi)]
  exact List.getElem_mem _

/-- A descriptor that is not open is none of the pipes. -/
theorem Made.of_closed (h : Made t m x) {d : ℕ} (hd : x.table.fd d = none) : d ∉ x.pipefds ∧ t.fd d = none := by
  have hmem : d ∉ x.pipefds := fun hmem => by
    have := h.isOpen d hmem
    rw [hd] at this
    cases this
  exact ⟨hmem, Option.map_eq_none_iff.mp ((h.others d hmem).symm.trans hd)⟩

/-- **One more pipe.** -/
theorem Made.pipe (h : Made t m x) : Made t (m + 1) (x.pipe m) := by
  obtain ⟨r, hr⟩ : ∃ r, x.table.lowest = r := ⟨_, rfl⟩
  obtain ⟨w, hw⟩ : ∃ w, (x.table.set r (some (.readEnd m))).lowest = w := ⟨_, rfl⟩
  have hx : x.pipe m = ⟨(x.table.set r (some (.readEnd m))).set w (some (.writeEnd m)), x.pipefds ++ [r, w]⟩ := by
    unfold Pipes.pipe
    rw [hr]
    dsimp only
    rw [hw]
  have hrnone : x.table.fd r = none := hr ▸ x.table.fd_lowest
  have hwnone := hw ▸ (x.table.set r (some (.readEnd m))).fd_lowest
  rw [Table.fd_set] at hwnone
  have hne : w ≠ r := fun he => by
    rw [if_pos he] at hwnone
    cases hwnone
  rw [if_neg hne] at hwnone
  obtain ⟨hrmem, hrt⟩ := h.of_closed hrnone
  obtain ⟨hwmem, hwt⟩ := h.of_closed hwnone
  have hfd : ∀ d, (x.pipe m).table.fd d =
      if d = w then some (.writeEnd m) else if d = r then some (.readEnd m) else x.table.fd d := fun d => by
    rw [hx, Table.fd_set, Table.fd_set]
  have hold : ∀ d ∈ x.pipefds, (x.pipe m).table.fd d = x.table.fd d := fun d hd => by
    have hdw : d ≠ w := fun he => hwmem (he ▸ hd)
    have hdr : d ≠ r := fun he => hrmem (he ▸ hd)
    rw [hfd, if_neg hdw, if_neg hdr]
  have hfds : (x.pipe m).pipefds = x.pipefds ++ [r, w] := by rw [hx]
  refine ⟨by rw [hfds, List.length_append, h.length]; rfl, fun d hd => ?_, fun d hd => ?_,
    fun i hi => ?_, fun d hd => ?_⟩
  · simp only [hfds, List.mem_append, List.mem_cons, List.not_mem_nil, or_false] at hd
    rcases hd with hd | rfl | rfl
    · exact h.fresh d hd
    · exact hrt
    · exact hwt
  · simp only [hfds, List.mem_append, List.mem_cons, List.not_mem_nil, or_false] at hd
    rcases hd with hd | rfl | rfl
    · rw [hold d hd]
      exact h.isOpen d hd
    · rw [hfd, if_neg hne.symm, if_pos rfl]
      rfl
    · rw [hfd, if_pos rfl]
      rfl
  · rw [hfds]
    by_cases him : i < m
    · rw [List.getD_append _ _ _ _ (by rw [h.length]; omega), List.getD_append _ _ _ _ (by rw [h.length]; omega),
        hold _ (h.mem (by omega)), hold _ (h.mem (by omega))]
      exact h.ends i him
    · obtain rfl : i = m := by omega
      rw [List.getD_append_right _ _ _ _ (by rw [h.length]), List.getD_append_right _ _ _ _ (by rw [h.length]; omega),
        h.length, Nat.sub_self, Nat.add_sub_cancel_left]
      refine ⟨?_, ?_⟩
      · show (x.pipe i).table.fd r = _
        rw [hfd, if_neg hne.symm, if_pos rfl]
      · show (x.pipe i).table.fd w = _
        rw [hfd, if_pos rfl]
  · simp only [hfds, List.mem_append, List.mem_cons, List.not_mem_nil, or_false, not_or] at hd
    rw [hfd, if_neg hd.2.2, if_neg hd.2.1]
    exact h.others d hd.1

theorem made_createPipes (t : Table α) : ∀ m, Made t m (createPipes t m)
  | 0 => ⟨rfl, fun d hd => absurd hd List.not_mem_nil, fun d hd => absurd hd List.not_mem_nil,
      fun i hi => absurd hi (Nat.not_lt_zero i), fun _ _ => rfl⟩
  | m + 1 => by
    have heq : createPipes t (m + 1) = (createPipes t m).pipe m := by
      rw [createPipes, List.range_succ, List.foldl_concat]
      rfl
    rw [heq]
    exact (made_createPipes t m).pipe

/-- The standard descriptors are none of the pipes. -/
theorem Made.not_mem (h : Made t m x) {d : ℕ} (hd : (t.fd d).isSome) : d ∉ x.pipefds := fun hmem => by
  rw [h.fresh d hmem] at hd
  cases hd

/-! ### The child -/

/-- The table of the child when it has closed the pipes. -/
def pluggedTable (numPipes k : ℕ) (x : Pipes α) : Table (Entry α) :=
  let t := if k ≠ numPipes then x.table.dup2 (x.pipefds.getD (k * 2 + 1) 0) 1 else x.table
  let t := if k ≠ 0 then t.dup2 (x.pipefds.getD (k * 2 - 2) 0) 0 else t
  x.pipefds.foldl Table.close t

/-- **Both ends are at their places**, and the rest is as in the shell before. -/
theorem Made.pluggedTable_fd (h : Made t m x) (h0 : (t.fd 0).isSome) (h1 : (t.fd 1).isSome) (hk : k ≤ m) (d : ℕ) :
    (pluggedTable m k x).fd d =
      if d = 0 ∧ k ≠ 0 then some (.readEnd (k - 1)) else if d = 1 ∧ k ≠ m then some (.writeEnd k)
      else (t.fd d).map .own := by
  have hm0 := h.not_mem h0
  have hm1 := h.not_mem h1
  have hout : ∀ d, (if k ≠ m then x.table.dup2 (x.pipefds.getD (k * 2 + 1) 0) 1 else x.table).fd d =
      if d = 1 ∧ k ≠ m then some (.writeEnd k) else x.table.fd d := by
    intro d
    by_cases hkm : k ≠ m
    · rw [if_pos hkm, Table.fd_dup2, Nat.mul_comm k 2, (h.ends k (by omega)).2]
      simp [hkm]
    · rw [if_neg hkm, if_neg fun hd => hkm hd.2]
  unfold pluggedTable
  dsimp only
  rw [Table.fd_foldl_close]
  by_cases hd : d ∈ x.pipefds
  · -- the end of a pipe is closed, and was not open before
    have hd0 : ¬ (d = 0 ∧ k ≠ 0) := fun he => hm0 (he.1 ▸ hd)
    have hd1 : ¬ (d = 1 ∧ k ≠ m) := fun he => hm1 (he.1 ▸ hd)
    rw [if_pos hd, if_neg hd0, if_neg hd1, h.fresh d hd]
    rfl
  · rw [if_neg hd, ← h.others d hd]
    by_cases hk0 : k ≠ 0
    · have hin : x.pipefds.getD (k * 2 - 2) 0 ∈ x.pipefds := h.mem (by omega)
      have hin1 : ¬ (x.pipefds.getD (k * 2 - 2) 0 = 1 ∧ k ≠ m) := fun he => hm1 (he.1 ▸ hin)
      have hidx : k * 2 - 2 = 2 * (k - 1) := by omega
      rw [if_pos hk0, Table.fd_dup2, hout, hout, if_neg hin1, hidx, (h.ends (k - 1) (by omega)).1]
      simp [hk0]
    · have hd0 : ¬ (d = 0 ∧ k ≠ 0) := fun he => hk0 he.2
      rw [if_neg hk0, hout, if_neg hd0]

/-- Redirecting changes the output, and opens no pipe. -/
theorem redirect_spec {opens : CString → Bool} {f : Option CString} {t u : Table (Entry α)}
    (h0 : (t.fd 0).isSome) (h1 : (t.fd 1).isSome) (hu : redirect opens f t = some u) :
    u.fd 0 = t.fd 0 ∧ (f = none → u.fd 1 = t.fd 1) ∧ (∀ name, f = some name → u.fd 1 = some (.file name)) ∧
      ∀ d e, u.fd d = some e → e.IsPipe → t.fd d = some e := by
  cases f with
  | none =>
    obtain rfl := Option.some.inj hu
    exact ⟨rfl, fun _ => rfl, fun name hn => absurd hn (by simp), fun _ _ h _ => h⟩
  | some name =>
    unfold redirect at hu
    dsimp only at hu
    split_ifs at hu with hopen
    obtain ⟨n, hn⟩ : ∃ n, t.lowest = n := ⟨_, rfl⟩
    have hnone : t.fd n = none := hn ▸ t.fd_lowest
    have hne : ∀ d, (t.fd d).isSome → d ≠ n := fun d hd he => by
      rw [he, hnone] at hd
      cases hd
    rw [hn] at hu
    obtain rfl := Option.some.inj hu
    have hfd : ∀ d, ((((t.set n (some (.file name))).dup2 n 1).dup2 n 2).close n).fd d =
        if d = n then none else if d = 2 ∨ d = 1 then some (.file name) else t.fd d := by
      intro d
      rw [Table.fd_close, Table.fd_dup2, Table.fd_dup2, Table.fd_dup2, Table.fd_set, Table.fd_set, if_pos rfl,
        if_neg (hne 1 h1).symm]
      split_ifs <;> simp_all
    refine ⟨?_, fun hf => absurd hf (by simp), fun name' hf => ?_, fun d e hd he => ?_⟩
    · rw [hfd, if_neg (hne 0 h0), if_neg (by omega)]
    · rw [hfd, if_neg (hne 1 h1), if_pos (.inr rfl), Option.some.inj hf]
    · rw [hfd] at hd
      split_ifs at hd
      · obtain rfl := Option.some.inj hd
        exact absurd he id
      · exact hd

/-- Without a file, or with one that opens, the child gets to its program. -/
theorem redirect_eq_none {opens : CString → Bool} {f : Option CString} {t : Table (Entry α)} :
    redirect opens f t = none ↔ ∃ name, f = some name ∧ opens name = false := by
  cases f with
  | none => simp [redirect]
  | some name => cases h : opens name <;> simp [redirect, h]

/-- **The process of a stage is wired.** -/
theorem Made.childWired (h : Made t m x) (hstd : ∀ d < 3, (t.fd d).isSome) {opens : CString → Bool} {c : Child α}
    (hk : c.stage ≤ m) {u : Table (Entry α)} (hu : childTable opens m c.stage c.redirectFile x = some u) :
    c.Wired t m u := by
  have hfd := h.pluggedTable_fd (hstd 0 (by omega)) (hstd 1 (by omega)) hk
  have hopen : ∀ d, (t.fd d).isSome → ((pluggedTable m c.stage x).fd d).isSome := fun d hd => by
    rw [hfd]
    split_ifs
    · rfl
    · rfl
    · rwa [Option.isSome_map]
  obtain ⟨hin, hout, hfile, hpipe⟩ := redirect_spec (hopen 0 (hstd 0 (by omega))) (hopen 1 (hstd 1 (by omega))) hu
  refine ⟨?_, fun hf => ?_, hfile, fun d e hd he => ?_⟩
  · rw [hin, hfd]
    by_cases h0 : c.stage = 0 <;> simp [h0]
  · rw [hout hf, hfd]
    by_cases hm : c.stage = m <;> simp [hm]
  · have hd' := hpipe d e hd he
    rw [hfd] at hd'
    split_ifs at hd' with h0 h1
    · exact .inl h0.1
    · exact .inr h1.1
    · obtain ⟨a, -, rfl⟩ := Option.map_eq_some_iff.mp hd'
      exact absurd he id

/-- The only write end that it has is that of its own pipe. -/
theorem Child.Wired.writer {numPipes : ℕ} {c : Child α} {u : Table (Entry α)} (h : c.Wired t numPipes u) {d j : ℕ}
    (hd : u.fd d = some (.writeEnd j)) : c.stage = j := by
  rcases h.others d _ hd trivial with rfl | rfl
  · rw [h.input] at hd
    split_ifs at hd
    · obtain ⟨a, -, ha⟩ := Option.map_eq_some_iff.mp hd
      cases ha
    · cases hd
  · cases hf : c.redirectFile with
    | some name =>
      rw [h.redirected name hf] at hd
      cases hd
    | none =>
      rw [h.output hf] at hd
      split_ifs at hd
      · obtain ⟨a, -, ha⟩ := Option.map_eq_some_iff.mp hd
        cases ha
      · cases hd
        rfl

/-! ### The loop -/

/-- What the loop has done when it comes to stage `k`. -/
structure Started (opens : CString → Bool) (numPipes : ℕ) (verdict : ℕ → Verdict) (x : Pipes α) (k : ℕ)
    (y : Forked α) : Prop where
  count : y.childProcessCnt = y.children.length
  length : y.children.length = k
  child : ∀ (i : ℕ) (c : Child α), y.children[i]? = some c → c.stage = i ∧
    verdict i = .started c.redirectFile c.argv ∧ c.table = childTable opens numPipes c.stage c.redirectFile x

/-- One more child. -/
theorem Started.fork {opens : CString → Bool} {numPipes : ℕ} {verdict : ℕ → Verdict} {y : Forked α}
    (h : Started opens numPipes verdict x k y) {f : Option CString} {argv : List CString}
    (hk : verdict k = .started f argv) : Started opens numPipes verdict x (k + 1)
      ⟨y.children ++ [⟨k, f, argv, childTable opens numPipes k f x⟩], y.childProcessCnt + 1⟩ := by
  have hlen := h.length
  refine ⟨by simp [h.count], by simp [hlen], fun i c hc => ?_⟩
  by_cases hi : i < y.children.length
  · rw [List.getElem?_append_left hi] at hc
    exact h.child i c hc
  · rw [List.getElem?_append_right (not_lt.mp hi), List.getElem?_singleton] at hc
    split_ifs at hc with h0
    obtain rfl : k = i := by omega
    obtain rfl := Option.some.inj hc
    exact ⟨rfl, hk, rfl⟩

/-- **The loop over the stages**, by induction on those left: it gets to the end, or to one that is rejected. -/
theorem started_forkLoop (opens : CString → Bool) (numPipes : ℕ) (verdict : ℕ → Verdict) (x : Pipes α) :
    ∀ (m k : ℕ) (y : Forked α), Started opens numPipes verdict x k y →
      ∃ k' ≤ k + m, Started opens numPipes verdict x k' (forkLoop opens numPipes verdict x m k y) ∧
        (k' = k + m ∨ ∀ f argv, verdict k' ≠ .started f argv)
  | 0, k, y, h => ⟨k, le_rfl, h, .inl rfl⟩
  | m + 1, k, y, h => by
    unfold forkLoop
    cases hk : verdict k with
    | missing => exact ⟨k, by omega, h, .inr fun f argv hv => by simp [hk] at hv⟩
    | misused => exact ⟨k, by omega, h, .inr fun f argv hv => by simp [hk] at hv⟩
    | started f argv =>
      obtain ⟨k', hk', hst, hend⟩ := started_forkLoop opens numPipes verdict x m (k + 1) _ (h.fork hk)
      exact ⟨k', by omega, hst, hend.imp_left fun he => by omega⟩

/-- **Every pipeline is wired.** -/
theorem wired (t : Table α) (hstd : ∀ d < 3, (t.fd d).isSome) (opens : CString → Bool) (numPipes : ℕ)
    (verdict : ℕ → Verdict) : (runPipeline opens t numPipes verdict).Wired opens t numPipes verdict := by
  have hmade := made_createPipes t numPipes
  obtain ⟨k, hk, hst, hend⟩ := started_forkLoop opens numPipes verdict (createPipes t numPipes) (numPipes + 1) 0
    ⟨[], 0⟩ ⟨rfl, rfl, fun i c hc => by cases hc⟩
  have hlen : (runPipeline opens t numPipes verdict).children.length = k := hst.length
  have htable : ∀ c ∈ (runPipeline opens t numPipes verdict).children, c.stage ≤ numPipes ∧
      c.table = childTable opens numPipes c.stage c.redirectFile (createPipes t numPipes) := by
    intro c hc
    obtain ⟨i, hi, hget⟩ := List.getElem_of_mem hc
    obtain ⟨hstage, -, htable⟩ := hst.child i c (by rw [← hget]; exact List.getElem?_eq_getElem hi)
    exact ⟨by omega, htable⟩
  have hchild : ∀ c ∈ (runPipeline opens t numPipes verdict).children, c.stage ≤ numPipes ∧
      ∀ u, c.table = some u → c.Wired t numPipes u := fun c hc =>
    ⟨(htable c hc).1, fun u hu => hmade.childWired hstd (htable c hc).1 ((htable c hc).2.symm.trans hu)⟩
  have hparent : ∀ d, (runPipeline opens t numPipes verdict).parent.fd d = (t.fd d).map .own := by
    intro d
    show (List.foldl Table.close (createPipes t numPipes).table (createPipes t numPipes).pipefds).fd d = _
    rw [Table.fd_foldl_close]
    by_cases hd : d ∈ (createPipes t numPipes).pipefds
    · rw [if_pos hd, hmade.fresh d hd]
      rfl
    · rw [if_neg hd, hmade.others d hd]
  refine ⟨fun j hj hall => ?_, fun i c hc => (hst.child i c hc).2.1, fun c hc => ?_, hchild, hparent, hst.count,
    fun i c hc => (hst.child i c hc).1, fun j => ⟨fun d hd => ?_, fun c hc u hu => ?_⟩⟩
  · -- the loop has not ended before stage `j`
    have hjk : j < k := by
      by_contra hkj
      rcases hend with hend | hend
      · omega
      · obtain ⟨f, argv, hv⟩ := hall k (not_lt.mp hkj)
        exact hend f argv hv
    exact ⟨_, List.getElem?_eq_getElem (hlen.symm ▸ hjk)⟩
  · rw [(htable c hc).2]
    exact redirect_eq_none
  · rw [hparent] at hd
    obtain ⟨a, -, ha⟩ := Option.map_eq_some_iff.mp hd
    cases ha
  · rintro ⟨d, hd⟩
    exact ((hchild c hc).2 u hu).writer hd

/-- A shell with its three standard descriptors, and three stages of which the last has no program: two processes,
and the second one reads from the pipe of the first. -/
theorem wired_three : ∃ t : Table ℕ, (∀ d < 3, (t.fd d).isSome) ∧
    (runPipeline (fun _ => true) t 2 fun k => if k = 2 then .missing else .started none [['a']]).waits = 2 ∧
    ∃ c u, (runPipeline (fun _ => true) t 2 fun k => if k = 2 then .missing else .started none [['a']]).children[1]? =
      some c ∧ c.table = some u ∧ u.fd 0 = some (.readEnd 0) := by
  have hstd : ∀ d < 3, ((⟨fun d => if d < 3 then some d else none, 3, fun d hd => if_neg (not_lt.mpr hd)⟩ :
      Table ℕ).fd d).isSome := by decide
  have hwired := wired _ hstd (fun _ => true) 2 fun k => if k = 2 then .missing else .started none [['a']]
  obtain ⟨c, hc⟩ := hwired.started 1 (by decide) fun j hj => ⟨none, [['a']], if_neg (by omega)⟩
  have hmem := List.mem_of_getElem? hc
  obtain ⟨u, hu⟩ := Option.ne_none_iff_exists'.mp fun hnone => by
    obtain ⟨name, -, hopen⟩ := (hwired.runs c hmem).mp hnone
    exact Bool.false_ne_true hopen.symm
  have hinput := ((hwired.children c hmem).2 u hu).input
  rw [hwired.stages 1 c hc] at hinput
  exact ⟨_, hstd, rfl, c, u, hc, hu, hinput⟩

end OperatingSystems.Shell.Wiring
