import OperatingSystems.CowFork.Program

/-! # exec, all or nothing

`exec` should return: 0 with the new image in place of the old one, or -1 and nothing has happened.

* `Untouched`, `Replaced`: the two ends.
* `exec_atomic`: what it takes of the file and of the free memory. -/

namespace OperatingSystems.CowFork

open Lib.RefCount Lib.WeakestPre

variable {L : Layout} {N : Prop} {m m' : Mem} {D K : Finset ℕ} {f : ℕ}

/-- A page in use has a holder, or is none of the allocator's. -/
theorem Inv.holder_of_used (h : Inv L N m D K) (hf : f ∉ m.freelist) : f ∉ managed L ∨ ∃ s, holds m D K s = some f := by
  by_cases hman : f ∈ managed L
  · exact .inr (h.counted.exists_holder hman fun h0 => hf ((h.counted.mem_free f).mpr ⟨hman, h0⟩))
  · exact .inl hman

end OperatingSystems.CowFork

namespace OperatingSystems.CowFork.Processes

open Lib.RefCount Lib.WeakestPre Lib.Transition ProcTable

variable {L : Layout} {N : Prop} {s t : State} {p : Fin nproc} {D K : Finset ℕ} {ip : File} {argv : List Bytes}
  {namei : Bytes → Option File} {path : Bytes} {m m₁ : Mem} {d n : ℕ} {c : ℕ → BitVec 8}

/-! ### The two ends -/

/-- **Nothing has happened**: the process is as before, with its page table and what is in its pages, there are as
many free pages, and nothing was written but to pages that were free. -/
structure Untouched (s t : State) (p : Fin nproc) : Prop where
  rest : t = { s with mem := t.mem }
  table : SameTables s.mem t.mem {(s.proc p).pgdir}
  contents : ∀ v < 160, image t.mem (s.proc p).pgdir v = image s.mem (s.proc p).pgdir v
  freePages : t.mem.freePages = s.mem.freePages
  bytes : ∀ f ∉ s.mem.freelist, t.mem.byte f = s.mem.byte f

/-- **The new image is in place**: the references that are left are those of the kernel, of the other directories
and of the new one, which has its user pages alone. What was in use before and is still was not written. -/
structure Replaced (L : Layout) (s t : State) (p : Fin nproc) (D K : Finset ℕ) : Prop where
  refs : ∀ f ∈ managed L, (t.mem.refCnt f : ℕ∞) =
    refs (holds t.mem ((insert (t.proc p).pgdir D).erase (s.proc p).pgdir) K) f
  alone : ∀ v < 160, present (entry t.mem (t.proc p).pgdir v) → t.mem.refCnt (pageOf (entry t.mem (t.proc p).pgdir v)) = 1
  bytes : ∀ f ∉ s.mem.freelist, f ∉ t.mem.freelist → t.mem.byte f = s.mem.byte f

/-- `exec` returns, all or nothing. -/
def ExecAtomic (L : Layout) (namei : Bytes → Option File) (p : Fin nproc) (path : Bytes) (argv : List Bytes)
    (D K : Finset ℕ) (s : State) : Prop :=
  ∃ r t, exec L namei p path argv s = .ok r t ∧ (r = -1 ∧ Untouched s t p ∨ r = 0 ∧ Replaced L s t p D K)

/-- What it takes: no memory at all or enough for a directory, segments that lie inside the image and start pages, as
far as there is memory for them, and no entry with page 0 to give back. -/
def File.Suits (ip : File) (argv : List Bytes) (m : Mem) (d : ℕ) : Prop :=
  ip.IsElf → m.freelist = [] ∨ 13 ≤ m.freelist.length ∧ ip.plan.Inside ip m.freelist.length ∧
    ip.plan.Aligned m.freelist.length ∧ ¬ (HasNull m d ∧ Builds ip.plan argv m.freelist.length)

theorem Untouched.of_byte (hbyte : m.byte = s.mem.byte) (hfree : m.freePages = s.mem.freePages) :
    Untouched s { s with mem := m } p where
  rest := rfl
  table := sameTables_of_eq hbyte
  contents := kept_of_eq (D := {(s.proc p).pgdir}) hbyte _ (Finset.mem_singleton_self _)
  freePages := hfree
  bytes f _ := congrFun hbyte f

/-- The new directory was given back. -/
theorem Untouched.of_framed (h : Inv L N s.mem D K) (hd : (s.proc p).pgdir ∈ D) (hinv : Inv L N m D K)
    (hf : Framed L s.mem m D K) : Untouched s { s with mem := m } p where
  rest := rfl
  table e he := hf.same e (Finset.mem_singleton.mp he ▸ hd)
  contents := hf.kept _ hd
  freePages := (h.counts_eq hinv hf.holds_eq).2.2
  bytes f hfree := hf f (h.holder_of_used hfree)

/-- The old directory was given back. -/
theorem Replaced.of_newSpace (h : Inv L N s.mem D K) (hd : (s.proc p).pgdir ∈ D) (hnew : NewSpace L N s.mem m₁ D K d n c)
    (hinv : Inv L N m ((insert d D).erase (s.proc p).pgdir) K)
    (hf : Framed L m₁ m ((insert d D).erase (s.proc p).pgdir) K) (hmem : t.mem = m) (hdir : (t.proc p).pgdir = d) :
    Replaced L s t p D K := by
  have hlive : d ∈ (insert d D).erase (s.proc p).pgdir :=
    Finset.mem_erase.mpr ⟨fun heq => hnew.notLive (heq ▸ hd), hnew.live⟩
  constructor
  case refs =>
    rw [hmem, hdir]
    exact hinv.counted.count_eq
  case alone =>
    intro v hv hp
    rw [hmem, hdir] at hp ⊢
    have hent := (hf.same d hlive).2 v (by omega)
    have hvn : v < n := by
      by_contra hge
      exact hnew.empty v hv (not_lt.mp hge) (hent ▸ hp)
    obtain ⟨-, hw, h0⟩ := hent ▸ hnew.given v hvn
    exact hinv.exclusive (.user d v) _ hw (Inv.holds_user_self hlive hv hp h0)
  case bytes =>
    intro f hfs hft
    rw [hmem] at hft ⊢
    have hlater := hinv.holder_of_used hft
    rw [hf.holds_eq] at hlater
    rw [hf f hlater, hnew.framed f (h.holder_of_used hfs)]

/-! ### exec -/

/-- What it takes is enough. -/
theorem atomic_of_suits (h : Inv L N s.mem D K) (hd : (s.proc p).pgdir ∈ D) (hip : namei path = some ip)
    (hlen : ∀ a ∈ argv, a.length < usertop) (hsuits : ip.Suits argv s.mem (s.proc p).pgdir) :
    ExecAtomic L namei p path argv D K s := by
  by_cases helf : ip.IsElf
  swap
  · have hno : ∀ ip', namei path = some ip' → ¬ ip'.IsElf := fun ip' hip' =>
      Option.some.inj (hip.symm.trans hip') ▸ helf
    obtain ⟨r, t, hrun, hr, ht⟩ := (exec_refused hno).returns
    subst hr ht
    exact ⟨_, _, hrun, .inl ⟨rfl, .of_byte rfl rfl⟩⟩
  have hcase := hsuits helf
  have hin : ip.plan.Inside ip s.mem.freelist.length := by
    obtain hnil | ⟨-, hin, -⟩ := hcase
    · intro x _ hreached
      rw [hnil, List.length_nil] at hreached
      exact absurd hreached (by unfold Segment.Reached; omega)
    · exact hin
  obtain ⟨r, t, hrun, hres⟩ := ((exec_spec h hd hip hin hlen).mono (fun _ _ hq => hq) fun e _ he => by
    obtain hnil | ⟨-, -, hal, hnull⟩ := hcase
    · obtain ⟨-, hno⟩ | ⟨-, -, n, -, -, hfree, -⟩ := he
      · refine hno fun x _ hreached => absurd hreached ?_
        rw [hnil, List.length_nil]
        unfold Segment.Reached
        omega
      · rw [hnil, List.length_nil] at hfree
        omega
    · obtain ⟨-, hno⟩ | ⟨-, hhas, hb⟩ := he
      · exact hno hal
      · exact hnull ⟨hhas, hb⟩).returns
  refine ⟨r, t, hrun, ?_⟩
  cases hres with
  | refused hno => exact absurd helf hno
  | noDir hun =>
    have hnil : s.mem.freelist = [] := hcase.resolve_right fun hmany => by
      have hfew := hun.few
      omega
    rw [hun.empty hnil]
    exact .inl ⟨rfl, .of_byte rfl rfl⟩
  | undone _ _ _ hinv hf => exact .inl ⟨rfl, .of_framed h hd hinv hf⟩
  | done _ _ _ _ _ _ hnew hinv hf =>
    exact .inr ⟨rfl, .of_newSpace h hd hnew hinv hf rfl (by simp only [Function.update_self]; rfl)⟩

/-- For a file that does not overrun it is what it takes. -/
theorem suits_of_atomic (h : Inv L N s.mem D K) (hd : (s.proc p).pgdir ∈ D) (hip : namei path = some ip)
    (hlen : ∀ a ∈ argv, a.length < usertop) (hin : ip.plan.Inside ip s.mem.freelist.length)
    (hatomic : ExecAtomic L namei p path argv D K s) : ip.Suits argv s.mem (s.proc p).pgdir := by
  intro helf
  obtain ⟨r, t, hrun, hend⟩ := hatomic
  cases (exec_spec h hd hip hin hlen).of_ok hrun with
  | refused hno => exact absurd helf hno
  | noDir hun =>
    obtain ⟨-, hend⟩ | ⟨hr, -⟩ := hend
    · have hpages := hend.freePages
      rw [hun.inv.freePages, h.freePages, hun.failed.2.2.1, List.length_nil] at hpages
      exact .inl (List.length_eq_zero_iff.mp hpages.symm)
    · exact absurd hr (by decide)
  | undone hdir hal hno => exact .inr ⟨hdir, hin, hal, fun hb => hno hb.2⟩
  | done _ hal _ _ _ hnull hnew =>
    have hlen := hnew.length
    exact .inr ⟨by omega, hin, hal, fun hb => hnull hb.1⟩

/-- **`exec` is all or nothing** if the file suits the free memory, and only then, unless the file overruns. -/
theorem exec_atomic (h : Inv L N s.mem D K) (hd : (s.proc p).pgdir ∈ D) (hip : namei path = some ip)
    (hlen : ∀ a ∈ argv, a.length < usertop) :
    (ip.Suits argv s.mem (s.proc p).pgdir → ExecAtomic L namei p path argv D K s) ∧
      (ip.plan.Inside ip s.mem.freelist.length → ExecAtomic L namei p path argv D K s →
        ip.Suits argv s.mem (s.proc p).pgdir) :=
  ⟨atomic_of_suits h hd hip hlen, suits_of_atomic h hd hip hlen⟩

/-- A valid executable, with thousands of free pages. -/
theorem exec_atomic_alone : ∃ (m : Mem) (d : ℕ) (D K : Finset ℕ), 2799 ≤ m.freelist.length ∧
    ExecAtomic smallKernel (fun _ => some onePage) 0 [] [[0x61#8]] D K (alone m d) := by
  obtain ⟨⟨m, D, K⟩, d, h, hd, hempty, hfree⟩ := empty_reachable
  have hfree : 2799 ≤ m.freelist.length := hfree
  refine ⟨m, d, D, K, hfree, (exec_atomic (s := alone m d) (p := 0) (pool_inv h) hd rfl (by decide)).1 fun _ => .inr ?_⟩
  refine ⟨?_, onePage_valid.inside _, onePage_valid.aligned _, ?_⟩
  · show 13 ≤ m.freelist.length
    omega
  · rintro ⟨⟨v, hv, hp, -⟩, -⟩
    exact image_eq_none.mp (hempty v hv) hp

/-- With two free pages `exec` of a valid executable returns -1 and keeps the pages. -/
theorem exec_keeps_pages : ¬ ∀ (L : Layout) (s : State) (p : Fin nproc) (D K : Finset ℕ) (namei : Bytes → Option File)
    (path : Bytes) (ip : File) (argv : List Bytes), Inv L True s.mem D K → (s.proc p).pgdir ∈ D →
      namei path = some ip → (∀ a ∈ argv, a.length < usertop) → ExecAtomic L namei p path argv D K s := by
  intro hall
  obtain ⟨s, d, h, hd, -, hlen⟩ := empty_reachable
  obtain ⟨m, -, htwo, K, h'⟩ := scarce_drain (n := 2) (scarce_of_pool h) (by omega)
  have hinv : Inv smallKernel True m s.live K := scarce_inv h'
  have hargs : ∀ a ∈ ([] : List Bytes), a.length < usertop := fun a ha => by cases ha
  have hatomic := hall smallKernel (alone m d) 0 s.live K (fun _ => some onePage) [] onePage [] hinv hd rfl hargs
  have hsuits := suits_of_atomic (s := alone m d) (p := 0) hinv hd rfl hargs (onePage_valid.inside _) hatomic
  obtain hnil | ⟨hmany, -⟩ := hsuits onePage_valid.elf
  · have hnil : m.freelist = [] := hnil
    rw [hnil, List.length_nil] at htwo
    omega
  · have hmany : 13 ≤ m.freelist.length := hmany
    omega

end OperatingSystems.CowFork.Processes
