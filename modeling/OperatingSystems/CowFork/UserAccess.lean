import OperatingSystems.CowFork.Scarce

/-! # Loads and stores of a process

The hardware lets an access through, or the handler runs and the access is tried again.

* `Inv.userLoad_spec`: a load from a mapped page reads the byte there, without the handler.
* `Inv.userStore_spec`: a store to a mapped page changes that byte of that directory only. The handler runs
  once if the entry is read-only, and does not run otherwise. -/

namespace OperatingSystems.CowFork

open Lib.WeakestPre

variable {L : Layout} {m m' : Mem} {D K : Finset ℕ} {d v o va : ℕ} {b : BitVec 8} {write : Bool} {α : Type}

instance : Decidable (Faults m d va write) := inferInstanceAs (Decidable (¬ _))

/-- An access by the process of `pgdir`, with the number of times that the handler runs for it. `none` stands for
an access that faults after `tries` runs still. The process is not killed, so that `trap` goes back to it. -/
def userAccess (pgdir va : ℕ) (write : Bool) (act : Kernel α) (tries : ℕ) : Kernel (Option (α × ℕ)) := do
  let m ← get
  if Faults m pgdir va write then
    match tries with
    | 0 => return none
    | tries + 1 => do
      pgfltintr pgdir va
      let r ← userAccess pgdir va write act tries
      return r.map fun x => (x.1, x.2 + 1)
  else
    let a ← act
    return some (a, 0)

/-- The byte that the hardware reads. -/
def readByte (pgdir va : ℕ) : Kernel (BitVec 8) := do
  let m ← get
  return m.byte (pageOf (entry m pgdir (va / 4096))) (va % 4096)

/-- The hardware writes a byte, through the entry that is there. -/
def writeByte (pgdir va : ℕ) (b : BitVec 8) : Kernel Unit :=
  modify fun m => m.setByte (pageOf (entry m pgdir (va / 4096))) (va % 4096) b

def userLoad (pgdir va : ℕ) : ℕ → Kernel (Option (BitVec 8 × ℕ)) := userAccess pgdir va false (readByte pgdir va)

def userStore (pgdir va : ℕ) (b : BitVec 8) : ℕ → Kernel (Option (Unit × ℕ)) :=
  userAccess pgdir va true (writeByte pgdir va b)

/-! ### What the hardware lets through -/

/-- Below `USERTOP` only the write bit of the entry can be missing. -/
theorem Inv.faults_iff {N : Prop} (h : Inv L N m D K) (hd : d ∈ D) (hva : va < usertop)
    (hp : present (entry m d (va / 4096))) : Faults m d va write ↔ write = true ∧ ¬ writable (entry m d (va / 4096)) := by
  have hpdx : pdx va = 0 := by
    unfold pdx
    unfold usertop at hva
    omega
  have hv : va / 4096 < 160 := by
    unfold usertop at hva
    omega
  obtain ⟨hu, hw⟩ := h.rootUser d hd
  simp only [Faults, hpdx, h.root d hd, hu, hw, hp, h.userAccess d hd _ hv hp, true_and, Classical.not_imp]

theorem userAccess_of_not_faults {act : Kernel α} {tries : ℕ} {Q : Option (α × ℕ) → Mem → Prop} {E : Panic → Mem → Prop}
    (hno : ¬ Faults m d va write) (hact : Wp act (fun a => Q (some (a, 0))) E m) :
    Wp (userAccess d va write act tries) Q E m := by
  unfold userAccess
  rw [wp_bind, wp_get, if_neg hno]
  exact hact.bind fun _ _ h => wp_pure.mpr h

/-! ### The counter of failed calls of `kalloc` -/

theorem target_unchanged {f : ℕ} : Wp (target d f) (fun _ m' => m' = m) (fun _ m' => m' = m) m := by
  unfold target
  rw [wp_ite, wp_pure, wp_bind]
  refine ⟨fun _ => rfl, fun _ => wp_walkpgdir_false (fun _ => ?_) fun _ => wp_throw.mpr rfl⟩
  simp only [wp_bind, wp_readPte, wp_ite, wp_pure, wp_throw, implies_true, and_self]

theorem memmove_fails {f g : ℕ} :
    Wp (memmove d f g) (fun _ m' => m'.fails = m.fails) (fun _ m' => m'.fails = m.fails) m := by
  unfold memmove
  refine (target_unchanged.mono (fun _ _ h => h) fun _ _ h => congrArg Mem.fails h).bind ?_
  rintro dst _ rfl
  refine (target_unchanged.mono (fun _ _ h => h) fun _ _ h => congrArg Mem.fails h).bind ?_
  rintro src _ rfl
  exact wp_modify.mpr rfl

theorem kfree_fails {f : ℕ} :
    Wp (kfree L f) (fun _ m' => m'.fails = m.fails) (fun _ m' => m'.fails = m.fails) m := by
  unfold kfree
  simp only [wp_ite, wp_throw, wp_bind, wp_get, wp_set]
  exact ⟨fun _ => trivial, fun _ => ⟨fun _ => trivial, fun _ => ⟨fun _ => rfl, fun _ => trivial⟩⟩⟩

/-- The handler asks for one page at most. -/
theorem pgfltintr_fails :
    Wp (pgfltintr d va) (fun _ m' => m.fails ≤ m'.fails) (fun _ m' => m.fails ≤ m'.fails) m := by
  unfold pgfltintr
  refine wp_bind.mpr (wp_walkpgdir_false (fun _ => ?_) fun _ => wp_throw.mpr le_rfl)
  simp only [wp_bind, wp_readPte, wp_ite, wp_pure, wp_getRefCnt, wp_writePte]
  refine ⟨fun _ => ⟨fun _ => ?_, fun _ => le_rfl⟩, fun _ => le_rfl⟩
  have hcopy : ∀ {n : Mem} {f g w : ℕ} {u : Word}, m.fails ≤ n.fails → Wp (do
      memmove d f g
      decRefCnt g
      writePte (w, ptx va) u) (fun _ m' => m.fails ≤ m'.fails) (fun _ m' => m.fails ≤ m'.fails) n := by
    intro n f g w u hn
    refine (memmove_fails.mono (fun _ _ h => h) fun _ _ h => hn.trans h.ge).bind fun _ n' h => ?_
    rw [wp_bind, wp_decRefCnt, wp_writePte]
    exact hn.trans h.ge
  exact wp_kalloc (fun _ => hcopy (Nat.le_succ _)) fun f next _ => hcopy le_rfl

theorem userAccess_fails {act : Kernel α}
    (hact : ∀ m, Wp act (fun _ m' => m'.fails = m.fails) (fun _ m' => m'.fails = m.fails) m) (tries : ℕ) :
    Wp (userAccess d va write act tries) (fun _ m' => m.fails ≤ m'.fails) (fun _ m' => m.fails ≤ m'.fails) m := by
  have hdone : ∀ {m : Mem}, Wp (do
      let a ← act
      return some (a, 0)) (fun _ m' => m.fails ≤ m'.fails) (fun _ m' => m.fails ≤ m'.fails) m := fun {m} =>
    ((hact m).mono (fun _ _ h => h) fun _ _ h => h.ge).bind fun _ _ h => wp_pure.mpr h.ge
  induction tries generalizing m with
  | zero =>
    unfold userAccess
    rw [wp_bind, wp_get, wp_ite, wp_pure]
    exact ⟨fun _ => le_rfl, fun _ => hdone⟩
  | succ n ih =>
    unfold userAccess
    rw [wp_bind, wp_get, wp_ite]
    refine ⟨fun _ => ?_, fun _ => hdone⟩
    refine pgfltintr_fails.bind fun _ m₁ h₁ => ?_
    refine (ih.mono (fun _ _ h => h) fun _ _ h => h₁.trans h).bind fun _ m₂ h₂ => ?_
    exact wp_pure.mpr (h₁.trans h₂)

/-! ### Loads and stores below the size -/

/-- The byte at `va` of directory `d` is now `b`, and no other page of a directory is different. -/
def Stored (m m' : Mem) (D : Finset ℕ) (d va : ℕ) (b : BitVec 8) : Prop :=
  ∀ e ∈ D, ∀ u < 160, image m' e u =
    if e = d ∧ u = va / 4096 then (image m d u).map fun old => Function.update old (va % 4096) b else image m e u

theorem Stored.of_kept {m₁ : Mem} (hk : Kept m m₁ D) (hd : d ∈ D) (h : Stored m₁ m' D d va b) : Stored m m' D d va b := by
  intro e he u hu
  rw [h e he u hu, hk e he u hu, hk d hd u hu]

namespace Inv

/-- **A byte of a writable page** belongs to one directory. -/
theorem writeByte_spec (h : Inv L False m D K) (hd : d ∈ D) (hva : va < usertop)
    (hp : present (entry m d (va / 4096))) (hw : writable (entry m d (va / 4096))) :
    Wp (writeByte d va b) (fun _ m' => Inv L False m' D K ∧ Stored m m' D d va b ∧ m'.fails = m.fails)
      (fun _ _ => False) m := by
  have hv : va / 4096 < 160 := by
    unfold usertop at hva
    omega
  have h0 : pageOf (entry m d (va / 4096)) ≠ 0 := h.frame d hd _ hv hp
  have hs := holds_user_self (K := K) hd hv hp h0
  have hoff := h.offTables_user hs
  have hsame : SameTables m (m.setByte (pageOf (entry m d (va / 4096))) (va % 4096) b) D :=
    sameTables_of_byte hoff fun g hg => Mem.byte_setByte_of_ne hg
  unfold writeByte
  refine wp_modify.mpr ⟨h.setByte hoff, fun e he u hu => ?_, rfl⟩
  unfold image
  rw [(hsame e he).2 u (by omega)]
  split_ifs with heq
  · obtain ⟨rfl, rfl⟩ := heq
    rw [shown_of_present hp, shown_of_present hp]
    simp [Mem.setByte]
  · by_cases hpu : present (entry m e u)
    · rw [shown_of_present hpu, shown_of_present hpu, Mem.byte_setByte_of_ne fun hpage => heq ?_]
      have hother := holds_user_self (K := K) he hu hpu (hpage ▸ h0)
      rw [hpage] at hother
      have hslot := h.unique (s := .user d (va / 4096)) hw hs hother
      injection hslot with h1 h2
      exact ⟨h1.symm, h2.symm⟩
    · rw [shown, shown, if_neg hpu, if_neg hpu]

theorem userLoad_spec (h : Inv L False m D K) (hd : d ∈ D) (hva : va < usertop)
    (hp : present (entry m d (va / 4096))) (tries : ℕ) :
    Wp (userLoad d va tries) (fun r m' => m' = m ∧ r = some (m.byte (pageOf (entry m d (va / 4096))) (va % 4096), 0))
      (fun _ _ => False) m := by
  refine userAccess_of_not_faults (fun hf => ?_) ?_
  · exact absurd ((h.faults_iff hd hva hp).mp hf).1 Bool.false_ne_true
  · unfold readByte
    rw [wp_bind, wp_get, wp_pure]
    exact ⟨rfl, rfl⟩

/-- **A store below the size.** Unless `kalloc` fails, it changes the one byte, after one run of the handler where
the entry is read-only and none where it is not. -/
theorem userStore_spec (h : Inv L False m D K) (hd : d ∈ D) (hva : va < usertop)
    (hp : present (entry m d (va / 4096))) (hz : present (entry m d 0)) {tries : ℕ} (htries : 0 < tries) :
    Wp (userStore d va b tries) (fun r m' => (m.freelist ≠ [] → m'.fails = m.fails) ∧ m.fails ≤ m'.fails ∧
      (m'.fails = m.fails → Inv L False m' D K ∧ Stored m m' D d va b ∧
        r = some ((), if writable (entry m d (va / 4096)) then 0 else 1)))
      (fun _ m' => m.freelist = [] ∧ m.fails < m'.fails) m := by
  have hwrite : ∀ {m₁ : Mem}, Inv L False m₁ D K → present (entry m₁ d (va / 4096)) →
      writable (entry m₁ d (va / 4096)) → ∀ n, Wp (userStore d va b n) (fun r m' => Inv L False m' D K ∧
        Stored m₁ m' D d va b ∧ m'.fails = m₁.fails ∧ r = some ((), 0)) (fun _ _ => False) m₁ := by
    intro m₁ h₁ hp₁ hw n
    refine userAccess_of_not_faults (fun hf => ((h₁.faults_iff hd hva hp₁).mp hf).2 hw) ?_
    exact (h₁.writeByte_spec hd hva hp₁ hw).imp fun _ _ hst => ⟨hst.1, hst.2.1, hst.2.2, rfl⟩
  obtain ⟨n, rfl⟩ : ∃ n, tries = n + 1 := ⟨tries - 1, by omega⟩
  by_cases hw : writable (entry m d (va / 4096))
  · refine (hwrite h hp hw _).mono ?_ fun _ _ => False.elim
    rintro r m' ⟨h', hst, hf, rfl⟩
    exact ⟨fun _ => hf, hf.ge, fun _ => ⟨h', hst, by rw [if_pos hw]⟩⟩
  have hv : va / 4096 < 160 := by
    unfold usertop at hva
    omega
  have hlt : va < 2 ^ 32 := by
    unfold usertop at hva
    omega
  have hpde : present (m.word d (pdx va)) := by
    have := present_dir_of_entry hp
    rwa [show va / 4096 / 1024 = pdx va by unfold pdx; omega] at this
  rw [if_neg hw]
  unfold userStore CowFork.userAccess
  rw [wp_bind, wp_get, if_pos ((h.faults_iff hd hva hp).mpr ⟨rfl, hw⟩)]
  refine ((h.pgfltintr_spec hd hlt).and pgfltintr_fails).mono (fun _ _ hr => hr) ?_ |>.bind ?_
  · rintro e m₁ ⟨⟨-, hno⟩ | ⟨-, -, hno⟩, -⟩
    · exact absurd hpde hno
    · exact absurd hz hno
  rintro - m₁ ⟨⟨hle, hmem, hres, hkept⟩, -⟩
  rw [wp_bind]
  by_cases hf : m₁.fails = m.fails
  · have hr := hres (.inl hf)
    have hk := hkept hf id
    have hp₁ := (hr.present_iff d hd _ hv).mpr hp
    refine (hwrite hr.inv hp₁ (hr.writable hv hp) n).mono ?_ fun _ _ => False.elim
    rintro r m' ⟨h', hst, hf', rfl⟩
    exact wp_pure.mpr ⟨fun _ => hf'.trans hf, hf'.trans hf |>.ge, fun _ => ⟨h', hst.of_kept hk hd, rfl⟩⟩
  · have hlt : m.fails < m₁.fails := by omega
    have hnil : m.freelist = [] := by_contra fun hne => hf (hmem hne)
    have hact : ∀ k, Wp (writeByte d va b) (fun _ m' => m'.fails = k.fails) (fun _ m' => m'.fails = k.fails) k :=
      fun _ => wp_modify.mpr rfl
    have hup : Wp (CowFork.userAccess d va true (writeByte d va b) n) (fun _ m' => m₁.fails ≤ m'.fails)
        (fun _ m' => m₁.fails ≤ m'.fails) m₁ := userAccess_fails hact n
    refine hup.mono ?_ fun _ _ h' => ⟨hnil, hlt.trans_le h'⟩
    intro r m' h'
    exact wp_pure.mpr ⟨fun hne => absurd hnil hne, hle.trans h', fun heq => by omega⟩

end Inv

end OperatingSystems.CowFork
