import OperatingSystems.Lib.Transition
import OperatingSystems.Shell.Lexer

/-! # Smash: the buffer of a command

The two loops of `main` that squeeze and trim a command write to `cmd`, a buffer with room for the command and its
final zero. Here `cmd` is a place in memory: `mem` is indexed from its start, and what is before it is there, too.
The second loop looks at `cmd[index - 1]` first.

* `progress`: what is in the buffer, as the lists of `Lexer` say.
* `not_safe_of_all`: a command of white space only makes the second loop read in front of the buffer.
* `squeeze_safe_iff`: all other commands keep to the buffer. -/

namespace OperatingSystems.Shell.Squeeze

open OperatingSystems.Lib.Transition OperatingSystems.Shell.Lexer

/-- An access of `cmd`. -/
inductive Access where
  | read (i : ℤ)
  | write (i : ℤ)
  deriving DecidableEq

/-- Where `main` is: in a loop, with its `i`, or behind `cmd[index] = '\0'`. -/
inductive Pc where
  | squeezing (i : ℕ)
  | trimming
  | ended
  deriving DecidableEq

/-- The variables of the loops, and the accesses so far. -/
structure State where
  pc : Pc
  mem : ℤ → Char
  index : ℤ
  prevIsSpace : Bool
  allSpace : Bool
  log : List Access

/-- `'\0'`. -/
def nul : Char := Char.ofNat 0

/-- `cmd[index] = c`. -/
def State.put (x : State) (c : Char) : State :=
  { x with mem := Function.update x.mem x.index c, log := x.log ++ [.write x.index] }

/-- `cmd[index++] = c`. -/
def State.push (x : State) (c : Char) : State := { x.put c with index := x.index + 1 }

/-- The body of the first loop. -/
def State.squeeze (x : State) (c : Char) : State :=
  if isSpace c then { if !x.allSpace && !x.prevIsSpace then x.push c else x with prevIsSpace := true }
  else { x.push c with prevIsSpace := false, allSpace := false }

/-- A look at `cmd[index - 1]`. -/
def State.look (x : State) : State := { x with log := x.log ++ [.read (x.index - 1)] }

/-- The condition of the second loop, and its body or what comes behind it. -/
def State.trim (x : State) : State :=
  if isSpace (x.mem (x.index - 1)) then { x.look with index := x.index - 1 }
  else { x.look.put nul with pc := .ended }

def next (cmdString : CString) (x : State) (_ : Unit) : Option State :=
  match x.pc with
  | .squeezing i =>
    match cmdString[i]? with
    | some c => some { x.squeeze c with pc := .squeezing (i + 1) }
    | none => some { x with pc := .trimming }
  | .trimming => some x.trim
  | .ended => none

/-- The start, with what is in memory. -/
def start (mem : ℤ → Char) : State := ⟨.squeezing 0, mem, 0, false, true, []⟩

/-- The two loops. -/
def loops (cmdString : CString) (mem : ℤ → Char) : System State Unit := .ofFun (· = start mem) (next cmdString)

/-- Writes are in the buffer, and reads are not in front of it. -/
def Access.InBuffer (n : ℕ) : Access → Prop
  | .read i => 0 ≤ i
  | .write i => 0 ≤ i ∧ i ≤ n

/-- **The loops keep to the buffer** and come to an end, with an `index` in it. -/
structure Safe (cmdString : CString) (mem : ℤ → Char) : Prop where
  accesses : ∀ x, (loops cmdString mem).Reachable x → ∀ a ∈ x.log, a.InBuffer cmdString.length
  terminates : ∃ k, ∀ as x, (loops cmdString mem).Run (start mem) as x → as.length ≤ k
  index : ∀ x, (loops cmdString mem).Reachable x → x.pc = .ended → 0 ≤ x.index

/-! ### What is in the buffer -/

variable {s w v : CString} {mem : ℤ → Char} {x y : State} {c : Char} {n : ℕ}

/-- The characters before `index`. -/
structure State.Has (x : State) (w : CString) : Prop where
  index : x.index = w.length
  mem : ∀ k (h : k < w.length), x.mem k = w[k]

/-- The log so far. -/
def State.Kept (x : State) (n : ℕ) : Prop := ∀ a ∈ x.log, a.InBuffer n

theorem State.Has.push (h : x.Has w) (c : Char) : (x.push c).Has (w ++ [c]) := by
  refine ⟨?_, fun k hk => ?_⟩
  · show x.index + 1 = _
    rw [h.index, List.length_append, List.length_singleton]
    rfl
  · show Function.update x.mem x.index c k = _
    rw [h.index]
    rcases Nat.lt_or_ge k w.length with hlt | hge
    · rw [Function.update_of_ne (by omega), List.getElem_append_left hlt]
      exact h.mem k hlt
    · have heq : k = w.length := by
        rw [List.length_append, List.length_singleton] at hk
        omega
      subst heq
      rw [Function.update_self, List.getElem_concat_length rfl]

theorem State.Has.last (h : x.Has (v ++ [c])) : x.index - 1 = v.length ∧ x.mem (x.index - 1) = c := by
  have hindex : x.index - 1 = v.length := by
    rw [h.index, List.length_append, List.length_singleton]
    omega
  refine ⟨hindex, ?_⟩
  rw [hindex, h.mem v.length (by simp), List.getElem_concat_length rfl]

theorem State.Kept.put (h : x.Kept n) (h0 : 0 ≤ x.index) (hn : x.index ≤ n) (c : Char) : (x.put c).Kept n := by
  intro a ha
  rcases List.mem_append.mp ha with ha | ha
  · exact h a ha
  · obtain rfl := List.mem_singleton.mp ha
    exact ⟨h0, hn⟩

/-! ### The lists of the first loop -/

theorem squeeze_concat (s : CString) (c : Char) : Lexer.squeeze (s ++ [c]) = squeezeStep (Lexer.squeeze s) c :=
  List.foldl_concat ..

/-- No more is written than was read. -/
theorem length_squeeze_le (s : CString) : (Lexer.squeeze s).cmd.length ≤ s.length := by
  induction s using List.reverseRecOn with
  | nil => exact le_rfl
  | append_singleton s c ih =>
    rw [squeeze_concat, List.length_append, List.length_singleton, squeezeStep]
    split_ifs <;> simp <;> omega

/-- What is not white space is kept. -/
theorem mem_squeeze (hc : isSpace c = false) (s : CString) (hmem : c ∈ s) : c ∈ (Lexer.squeeze s).cmd := by
  induction s using List.reverseRecOn with
  | nil => exact absurd hmem List.not_mem_nil
  | append_singleton s d ih =>
    rw [squeeze_concat, squeezeStep]
    rcases List.mem_append.mp hmem with hs | hd
    · have := ih hs
      split_ifs <;> simp [this]
    · obtain rfl := List.mem_singleton.mp hd
      rw [if_neg (by rw [hc]; exact Bool.false_ne_true)]
      exact List.mem_append_right _ (List.mem_singleton_self c)

/-! ### The run -/

/-- **What the loops have reached**, in terms of the lists: first the squeezed characters so far, and then what is
left of them to be trimmed. -/
def Progress (s : CString) (x : State) : Prop :=
  match x.pc with
  | .squeezing i => i ≤ s.length ∧ x.Has (Lexer.squeeze (s.take i)).cmd ∧
      x.prevIsSpace = (Lexer.squeeze (s.take i)).prevIsSpace ∧ x.allSpace = (Lexer.squeeze (s.take i)).allSpace
  | .trimming => ∃ w, w.length ≤ s.length ∧ x.Has w ∧ Lexer.trim w = Lexer.trim (Lexer.squeeze s).cmd
  | .ended => x.Has (Lexer.trim (Lexer.squeeze s).cmd) ∧ x.mem x.index = nul

/-- The rounds that are left, at most. -/
def State.left (s : CString) (x : State) : ℕ :=
  match x.pc with
  | .squeezing i => 2 * s.length - i + 3
  | .trimming => x.index.toNat + 2
  | .ended => 0

/-- One character in the memory and in the lists. -/
theorem State.Has.squeeze {z : Squeezed} (h : x.Has z.cmd) (hprev : x.prevIsSpace = z.prevIsSpace)
    (hall : x.allSpace = z.allSpace) (c : Char) : (x.squeeze c).Has (squeezeStep z c).cmd ∧
      (x.squeeze c).prevIsSpace = (squeezeStep z c).prevIsSpace ∧
      (x.squeeze c).allSpace = (squeezeStep z c).allSpace := by
  unfold State.squeeze squeezeStep
  rw [← hprev, ← hall]
  split_ifs with hc hkeep
  · exact ⟨⟨(h.push c).index, (h.push c).mem⟩, rfl, rfl⟩
  · exact ⟨⟨h.index, h.mem⟩, rfl, rfl⟩
  · exact ⟨⟨(h.push c).index, (h.push c).mem⟩, rfl, rfl⟩

theorem State.Kept.squeeze (h : x.Kept n) (h0 : 0 ≤ x.index) (hn : x.index ≤ n) (c : Char) :
    (x.squeeze c).Kept n := by
  unfold State.squeeze
  split_ifs
  · exact h.put h0 hn c
  · exact h
  · exact h.put h0 hn c

/-- **A round of the first loop.** -/
theorem progress_squeezing {i : ℕ} (hpc : x.pc = .squeezing i) (h : Progress s x) (hkept : x.Kept s.length)
    (hn : next s x () = some y) : Progress s y ∧ y.Kept s.length ∧ y.left s < x.left s := by
  rw [Progress, hpc] at h
  obtain ⟨hi, hhas, hprev, hall⟩ := h
  rw [next, hpc] at hn
  have hleft : x.left s = 2 * s.length - i + 3 := by rw [State.left, hpc]
  dsimp only at hn
  cases hc : s[i]? with
  | some c =>
    rw [hc] at hn
    cases hn
    obtain ⟨hlt, hget⟩ := List.getElem?_eq_some_iff.mp hc
    have htake : s.take (i + 1) = s.take i ++ [c] := by rw [List.take_add_one, hc]; rfl
    have hlen := length_squeeze_le (s.take i)
    rw [List.length_take] at hlen
    have hindex := hhas.index
    obtain ⟨hhas', hprev', hall'⟩ := hhas.squeeze hprev hall c
    refine ⟨?_, hkept.squeeze (by omega) (by omega) c, ?_⟩
    · show i + 1 ≤ s.length ∧ _
      rw [htake, squeeze_concat]
      exact ⟨hlt, ⟨hhas'.index, hhas'.mem⟩, hprev', hall'⟩
    · show 2 * s.length - (i + 1) + 3 < x.left s
      omega
  | none =>
    rw [hc] at hn
    cases hn
    have hlen := List.getElem?_eq_none_iff.mp hc
    rw [List.take_of_length_le hlen] at hhas
    have hle := length_squeeze_le s
    refine ⟨⟨_, hle, ⟨hhas.index, hhas.mem⟩, rfl⟩, hkept, ?_⟩
    show x.index.toNat + 2 < x.left s
    rw [hhas.index]
    omega

/-- A trimmed list that is not empty has a last character. -/
theorem exists_concat (h : Lexer.trim w ≠ []) : ∃ v c, w = v ++ [c] := by
  rcases List.eq_nil_or_concat w with rfl | ⟨v, c, rfl⟩
  · exact absurd rfl h
  · exact ⟨v, c, List.concat_eq_append ..⟩

/-- **A round of the second loop**: there is a character that ends it. -/
theorem progress_trimming (hs : Lexer.trim (Lexer.squeeze s).cmd ≠ []) (hpc : x.pc = .trimming) (h : Progress s x)
    (hkept : x.Kept s.length) : Progress s x.trim ∧ x.trim.Kept s.length ∧ x.trim.left s < x.left s := by
  rw [Progress, hpc] at h
  obtain ⟨w, hlen, hhas, htrim⟩ := h
  obtain ⟨v, c, rfl⟩ := exists_concat (htrim ▸ hs)
  obtain ⟨hindex, hlast⟩ := hhas.last
  have hlen' : v.length + 1 ≤ s.length := by simpa using hlen
  have hleft : x.left s = x.index.toNat + 2 := by rw [State.left, hpc]
  have hlook : x.look.Kept s.length := by
    intro a ha
    rcases List.mem_append.mp ha with ha | ha
    · exact hkept a ha
    · obtain rfl := List.mem_singleton.mp ha
      show 0 ≤ x.index - 1
      omega
  unfold State.trim
  rw [hlast]
  split_ifs with hc
  · have hpc' : ({ x.look with index := x.index - 1 } : State).pc = .trimming := hpc
    have hless : ({ x.look with index := x.index - 1 } : State).left s < x.left s := by
      rw [State.left, hpc', hleft]
      dsimp only
      omega
    refine ⟨?_, hlook, hless⟩
    rw [Progress, hpc']
    refine ⟨v, by omega, ⟨hindex, fun k hk => ?_⟩, ?_⟩
    · have := hhas.mem k (by simp; omega)
      rwa [List.getElem_append_left hk] at this
    · rw [← htrim, Lexer.trim, Lexer.trim, List.rdropWhile_concat_pos _ _ _ hc]
  · have hend : Lexer.trim (v ++ [c]) = v ++ [c] := List.rdropWhile_concat_neg _ _ _ hc
    refine ⟨?_, hlook.put (by show 0 ≤ x.index; omega) (by show x.index ≤ _; omega) nul, ?_⟩
    · rw [htrim] at hend
      show State.Has _ _ ∧ Function.update x.mem x.index nul x.index = nul
      rw [hend, Function.update_self]
      refine ⟨⟨hhas.index, fun k hk => ?_⟩, rfl⟩
      show Function.update x.mem x.index nul k = _
      rw [Function.update_of_ne (by rw [hhas.index]; omega)]
      exact hhas.mem k hk
    · show 0 < x.left s
      omega

/-! ### Which commands keep to the buffer -/

/-- With a character that is not white space, something is left of the command. -/
theorem trim_ne_nil (hs : ∃ c ∈ s, isSpace c = false) : Lexer.trim (Lexer.squeeze s).cmd ≠ [] := by
  obtain ⟨c, hmem, hc⟩ := hs
  intro hnil
  have hall := List.rdropWhile_eq_nil_iff.mp hnil c (mem_squeeze hc s hmem)
  rw [hc] at hall
  cases hall

theorem progress_start : Progress s (start mem) ∧ (start mem).Kept s.length := by
  refine ⟨⟨Nat.zero_le _, ⟨rfl, fun k hk => ?_⟩, rfl, rfl⟩, fun a ha => ?_⟩
  · exact absurd hk (Nat.not_lt_zero k)
  · exact absurd ha List.not_mem_nil

/-- **A round of either loop.** -/
theorem progress_next (hs : ∃ c ∈ s, isSpace c = false) (h : Progress s x) (hkept : x.Kept s.length)
    (hn : next s x () = some y) : Progress s y ∧ y.Kept s.length ∧ y.left s < x.left s := by
  cases hpc : x.pc with
  | squeezing i => exact progress_squeezing hpc h hkept hn
  | trimming =>
    rw [next, hpc] at hn
    cases hn
    exact progress_trimming (trim_ne_nil hs) hpc h hkept
  | ended =>
    rw [next, hpc] at hn
    cases hn

/-- **All that the loops reach**, unless the command is white space only. -/
theorem progress (hs : ∃ c ∈ s, isSpace c = false) (hx : (loops s mem).Reachable x) :
    Progress s x ∧ x.Kept s.length := by
  refine hx.invariant (I := fun x => Progress s x ∧ x.Kept s.length) ?_ fun x _ y _ ih hn => ?_
  · rintro _ rfl
    exact progress_start
  · obtain ⟨h, hkept, -⟩ := progress_next hs ih.1 ih.2 hn
    exact ⟨h, hkept⟩

theorem safe_of_exists (hs : ∃ c ∈ s, isSpace c = false) : Safe s mem := by
  refine ⟨fun x hx => (progress hs hx).2, ⟨(start mem).left s, fun as x hr => ?_⟩, fun x hx hpc => ?_⟩
  · have hlen := hr.length_le (f := State.left s) (fun x _ y hx hn => ?_) (.init rfl)
    · omega
    · obtain ⟨h, hkept⟩ := progress hs hx
      exact (progress_next hs h hkept hn).2.2
  · have h := (progress hs hx).1
    rw [Progress, hpc] at h
    rw [h.1.index]
    exact Int.natCast_nonneg _

/-- **The first loop ends**, with the squeezed command in the buffer. -/
theorem exists_trimming (s : CString) (mem : ℤ → Char) :
    ∃ x, (loops s mem).Reachable x ∧ x.pc = .trimming ∧ x.Has (Lexer.squeeze s).cmd := by
  suffices h : ∀ i ≤ s.length, ∃ x, (loops s mem).Reachable x ∧ x.pc = .squeezing i ∧ Progress s x ∧
      x.Kept s.length by
    obtain ⟨x, hx, hpc, hp, -⟩ := h s.length le_rfl
    rw [Progress, hpc] at hp
    dsimp only at hp
    rw [List.take_length] at hp
    refine ⟨{ x with pc := .trimming }, .step (a := ()) hx ?_, rfl, hp.2.1.index, hp.2.1.mem⟩
    show next s x () = _
    rw [next, hpc]
    dsimp only
    rw [List.getElem?_eq_none_iff.mpr le_rfl]
  intro i
  induction i with
  | zero => exact fun _ => ⟨start mem, .init rfl, rfl, progress_start⟩
  | succ i ih =>
    intro hi
    obtain ⟨x, hx, hpc, hp, hkept⟩ := ih (by omega)
    have hnext : next s x () = some { x.squeeze s[i] with pc := .squeezing (i + 1) } := by
      rw [next, hpc]
      dsimp only
      rw [List.getElem?_eq_getElem hi]
    obtain ⟨hp', hkept', -⟩ := progress_squeezing hpc hp hkept hnext
    exact ⟨_, .step (a := ()) hx hnext, rfl, hp', hkept'⟩

/-- **The string that `lexer` gets** is in the buffer in the end. -/
theorem exists_ended (hs : ∃ c ∈ s, isSpace c = false) : ∃ x, (loops s mem).Reachable x ∧ x.pc = .ended ∧
    x.Has (Lexer.trim (Lexer.squeeze s).cmd) ∧ x.mem x.index = nul := by
  suffices h : ∀ n x, (loops s mem).Reachable x → x.left s = n →
      ∃ y, (loops s mem).Reachable y ∧ y.pc = .ended by
    obtain ⟨x, hx, hpc⟩ := h _ (start mem) (.init rfl) rfl
    have hp := (progress hs hx).1
    rw [Progress, hpc] at hp
    exact ⟨x, hx, hpc, hp⟩
  intro n
  induction n using Nat.strong_induction_on with
  | _ n ih =>
    intro x hx hn
    cases hnext : next s x () with
    | some y =>
      obtain ⟨hp, hkept⟩ := progress hs hx
      have hleft := (progress_next hs hp hkept hnext).2.2
      exact ih _ (by omega) y (.step (a := ()) hx hnext) rfl
    | none =>
      refine ⟨x, hx, ?_⟩
      unfold next at hnext
      split at hnext
      · split at hnext <;> cases hnext
      · cases hnext
      · next hpc => exact hpc

/-- A command of white space only. -/
theorem not_safe_of_all (hs : ∀ c ∈ s, isSpace c = true) : ¬ Safe s mem := by
  obtain ⟨x, hx, hpc, hhas⟩ := exists_trimming s mem
  have hempty : (Lexer.squeeze s).cmd = [] := (kept_squeeze s).empty (by
    rw [(kept_squeeze s).all]
    exact List.all_eq_true.mpr hs)
  rw [hempty] at hhas
  intro h
  have hnext : (loops s mem).Reachable x.trim := .step (a := ()) hx (by
    show next s x () = some x.trim
    rw [next, hpc])
  have hread : Access.read (x.index - 1) ∈ x.trim.log := by
    unfold State.trim
    split_ifs
    · exact List.mem_append_right _ (List.mem_singleton_self _)
    · exact List.mem_append_left _ (List.mem_append_right _ (List.mem_singleton_self _))
  have hin : 0 ≤ x.index - 1 := h.accesses _ hnext _ hread
  rw [hhas.index] at hin
  exact absurd hin (by decide)

/-- **The loops keep to the buffer** if and only if the command is not white space only. -/
theorem squeeze_safe_iff (cmdString : CString) (mem : ℤ → Char) :
    Safe cmdString mem ↔ ∃ c ∈ cmdString, isSpace c = false := by
  refine ⟨fun h => ?_, safe_of_exists⟩
  by_contra hall
  push Not at hall
  refine not_safe_of_all (fun c hc => ?_) h
  simpa using hall c hc

/-- The first command of ` ;ls`. -/
theorem squeeze_unsafe :
    (splitCmds [' ', ';', 'l', 's']).map (fun cmds => cmds.array.getD 0 none) = some (some [' ']) ∧
    ¬ Safe [' '] fun _ => 'x' := by
  refine ⟨?_, not_safe_of_all fun c hc => ?_⟩
  · rw [splitCmds_eq]
    decide
  · rw [List.mem_singleton.mp hc]
    rfl

end OperatingSystems.Shell.Squeeze
