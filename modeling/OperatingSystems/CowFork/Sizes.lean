import OperatingSystems.CowFork.Commit
import OperatingSystems.CowFork.Supervisor

/-! # Sizes and pages

The size of a process says which of its pages are there. That is kept by every call at any amount of free memory,
but for two: `sbrk` by minus the whole size, which frees the pages and then fails, and `exec` of a file whose
segments do not lie inside the image. -/

namespace OperatingSystems.CowFork

open Lib.WeakestPre

variable {L : Layout} {N : Prop} {m m' : Mem} {D K : Finset ℕ} {d e f lo hi v : ℕ} {sz : Word}
  {x : Option (ℕ → BitVec 8)} {P : Word → Prop}

/-! ### Address spaces -/

/-- **An address space of a size**: the pages below the size are there, and no others. -/
structure Space (m : Mem) (d : ℕ) (sz : Word) : Prop where
  pos : sz ≠ 0#32
  size : sz.toNat ≤ usertop
  pages : ∀ v < 160, present (entry m d v) ↔ v < pgup sz.toNat
  supervised : Supervised m d

namespace Space

theorem of_present (h : Space m d sz) (hp : ∀ v < 160, present (entry m' d v) ↔ present (entry m d v))
    (hs : Supervised m' d) : Space m' d sz :=
  ⟨h.pos, h.size, fun v hv => (hp v hv).trans (h.pages v hv), hs⟩

theorem same (h : Space m d sz) (hs : SameTables m m' D) (hd : d ∈ D) : Space m' d sz :=
  h.of_present (fun v hv => by rw [(hs d hd).2 v (by omega)]) (h.supervised.same hs hd)

theorem kept (h : Space m d sz) (hk : Kept m m' D) (hd : d ∈ D) (hs : Supervised m' d) : Space m' d sz :=
  h.of_present (fun v hv => by rw [← not_iff_not, ← image_eq_none, ← image_eq_none, hk d hd v hv]) hs

theorem page_lt (h : Space m d sz) {va : ℕ} (hva : va < sz.toNat) : va / 4096 < 160 ∧ present (entry m d (va / 4096)) := by
  have hsize := h.size
  unfold usertop at hsize
  have hv : va / 4096 < 160 := by omega
  refine ⟨hv, (h.pages _ hv).mpr ?_⟩
  unfold pgup
  omega

/-- Pages of another address space came or went. -/
theorem filled (h : Space m e sz) (hf : Filled L N m m' D K d lo hi x P) (he : e ∈ D) (hed : e ≠ d) : Space m' e sz :=
  h.same hf.framed.same (Finset.mem_erase.mpr ⟨hed, he⟩)

/-- No pages came or went. -/
theorem of_empty (h : Space m d sz) (hf : Filled L N m m' D K d lo hi x P) (hle : hi ≤ lo) : Space m' d sz := by
  have hent : ∀ v < 2 ^ 20, entry m' d v = entry m d v := by
    intro v hv
    have hent := hf.entries.2 v hv
    rwa [if_neg (by omega)] at hent
  exact h.of_present (fun v hv => by rw [hent v (by omega)]) (h.supervised.of_entries fun v hv _ => hent v hv)

/-- The space has grown. -/
theorem grown {sz' : Word} (h : Space m d sz) (hf : Filled L N m m' D K d (pgup sz.toNat) (pgup sz'.toNat) x Given)
    (hd : d ∈ D) (hle : sz.toNat ≤ sz'.toNat) (hsize : sz'.toNat ≤ usertop) : Space m' d sz' := by
  have hmono := pgup_mono hle
  have htop := pgup_le hsize
  refine ⟨fun h0 => ?_, hsize, fun v hv => ?_, h.supervised.filled hf hd htop⟩
  · rw [h0] at hle
    exact h.pos (BitVec.eq_of_toNat_eq (Nat.le_zero.mp hle))
  · have hent := hf.entries.2 v (by omega)
    split_ifs at hent with hin
    · exact iff_of_true hent.1 hin.2
    · rw [hent, h.pages v hv]
      omega

/-- The space has shrunk. -/
theorem shrunk {sz' : Word} (h : Space m d sz)
    (hf : Filled L N m m' D K d (pgup sz'.toNat) (pgup sz.toNat) x (¬ present ·)) (hd : d ∈ D)
    (hpos : sz' ≠ 0#32) (hle : sz'.toNat ≤ sz.toNat) : Space m' d sz' := by
  have hmono := pgup_mono hle
  refine ⟨hpos, hle.trans h.size, fun v hv => ?_, h.supervised.filled hf hd (pgup_le h.size)⟩
  have hent := hf.entries.2 v (by omega)
  split_ifs at hent with hin
  · exact iff_of_false hent (by omega)
  · rw [hent, h.pages v hv]
    omega

end Space

/-! ### What is taken back -/

/-- A page in use that is no table of `d` reads the same after pages of `d` were unmapped that had not been mapped. -/
theorem Filled.byte_eq (hf : Filled L N m m' D K d lo hi none (¬ present ·)) (h : Inv L N m D K)
    (hclear : ∀ v < 160, lo ≤ v → v < hi → ¬ present (entry m d v)) (hfree : f ∉ m.freelist)
    (hoff : OffTables m {d} f) : m'.byte f = m.byte f := by
  by_cases hman : f ∈ managed L
  swap
  · exact hf.framed f (.inl hman)
  obtain ⟨s, hs⟩ : ∃ s, holds m D K s = some f := by
    refine h.counted.exists_holder hman fun h0 => hfree ((h.counted.mem_free f).mpr ⟨hman, h0⟩)
  have herase : ∀ {s}, holds m (D.erase d) K s = some f → m'.byte f = m.byte f := fun hs => hf.framed f (.inr ⟨_, hs⟩)
  have hne : ∀ {e}, e ∈ D → e ≠ d → e ∈ D.erase d := fun he hed => Finset.mem_erase.mpr ⟨hed, he⟩
  rcases s with g | e | ⟨e, j⟩ | ⟨e, v⟩
  · exact herase (s := .kern g) hs
  · obtain ⟨he, rfl⟩ := holds_dir.mp hs
    exact herase (holds_dir.mpr ⟨hne he fun hed => hoff.1 (Finset.mem_singleton.mpr hed), rfl⟩)
  · obtain ⟨⟨he, hj⟩, hp, h0, heq⟩ := holds_table.mp hs
    refine herase (holds_table.mpr ⟨⟨hne he ?_, hj⟩, hp, h0, heq⟩)
    rintro rfl
    exact hoff.2 e (Finset.mem_singleton_self e) j hj hp heq
  · obtain ⟨⟨he, hv⟩, hp, h0, heq⟩ := holds_user.mp hs
    rcases eq_or_ne e d with rfl | hed
    · have hout : ¬ (lo ≤ v ∧ v < hi) := fun hin => hclear v hv hin.1 hin.2 hp
      have hent := hf.entries.2 v (by omega)
      have himg := hf.images e he v hv
      rw [if_neg hout] at hent
      rw [if_neg fun hin => hout hin.2, image_of_present hp, image_of_present (hent ▸ hp), hent, heq] at himg
      exact Option.some.inj himg
    · exact herase (holds_user.mpr ⟨⟨hne he hed, hv⟩, hp, h0, heq⟩)

end OperatingSystems.CowFork

namespace OperatingSystems.CowFork.Processes

open Lib.WeakestPre ProcTable

variable {L : Layout} {s t : State} {D K K' : Finset ℕ} {p q np : Fin nproc} {n : Word}

/-! ### The processes -/

/-- Every process has an address space of its own, of its size. Entries with page 0 may be around. -/
structure Sized (L : Layout) (s : State) (D K : Finset ℕ) : Prop where
  inv : Inv L True s.mem D K
  dirs : Each s Proc.pgdir D
  spaces : ∀ p, (s.proc p).state ≠ .unused → Space s.mem (s.proc p).pgdir (s.proc p).sz

/-- Nobody gets or loses an address space, or another size. -/
def SameSpaces (s t : State) : Prop :=
  ∀ q, (t.proc q).pgdir = (s.proc q).pgdir ∧ (t.proc q).sz = (s.proc q).sz ∧
    ((t.proc q).state = .unused ↔ (s.proc q).state = .unused)

theorem SameSpaces.of_proc (h : t.proc = s.proc) : SameSpaces s t := fun q => by
  rw [h]
  exact ⟨rfl, rfl, .rfl⟩

theorem SameSpaces.trans {u : State} (h : SameSpaces s t) (h' : SameSpaces t u) : SameSpaces s u := fun q =>
  ⟨(h' q).1.trans (h q).1, (h' q).2.1.trans (h q).2.1, (h' q).2.2.trans (h q).2.2⟩

/-- One process is changed, in other fields. -/
theorem SameSpaces.update {c : Proc} (hproc : t.proc = Function.update s.proc q c)
    (hdir : c.pgdir = (s.proc q).pgdir) (hsz : c.sz = (s.proc q).sz)
    (hstate : c.state = .unused ↔ (s.proc q).state = .unused) : SameSpaces s t := by
  intro r
  rw [hproc]
  by_cases hr : r = q
  · subst hr
    rw [Function.update_self]
    exact ⟨hdir, hsz, hstate⟩
  · rw [Function.update_of_ne hr]
    exact ⟨rfl, rfl, .rfl⟩

namespace Sized

theorem same (h : Sized L s D K) (hsame : SameSpaces s t) (hinv : Inv L True t.mem D K')
    (hsp : ∀ q, (s.proc q).state ≠ .unused → Space t.mem (s.proc q).pgdir (s.proc q).sz) : Sized L t D K' := by
  refine ⟨hinv, h.dirs.same fun q => ⟨(hsame q).1, (hsame q).2.2⟩, fun q hq => ?_⟩
  rw [(hsame q).1, (hsame q).2.1]
  exact hsp q (mt (hsame q).2.2.mpr hq)

/-- The memory stays. -/
theorem of_mem (h : Sized L s D K) (hsame : SameSpaces s t) (hmem : t.mem = s.mem) : Sized L t D K :=
  h.same hsame (hmem ▸ h.inv) fun q hq => hmem ▸ h.spaces q hq

/-- The tables stay. -/
theorem of_same (h : Sized L s D K) (hsame : SameSpaces s t) (hinv : Inv L True t.mem D K')
    (hm : SameTables s.mem t.mem D) : Sized L t D K' :=
  h.same hsame hinv fun q hq => (h.spaces q hq).same hm (h.dirs.mem q hq)

/-- The pages stay. -/
theorem of_kept (h : Sized L s D K) (hsame : SameSpaces s t) (hinv : Inv L True t.mem D K')
    (hk : Kept s.mem t.mem D) (hs : ∀ d ∈ D, Supervised s.mem d → Supervised t.mem d) : Sized L t D K' :=
  h.same hsame hinv fun q hq =>
    (h.spaces q hq).kept hk (h.dirs.mem q hq) (hs _ (h.dirs.mem q hq) (h.spaces q hq).supervised)

/-- The size of one process changes, with its pages. -/
theorem resized (h : Sized L s D K) (hp : (s.proc p).state ≠ .unused) {sz : Word}
    (hproc : t.proc = Function.update s.proc p { s.proc p with sz := sz }) (hinv : Inv L True t.mem D K)
    (hspace : Space t.mem (s.proc p).pgdir sz)
    (hother : ∀ e ∈ D, e ≠ (s.proc p).pgdir → ∀ sz, Space s.mem e sz → Space t.mem e sz) : Sized L t D K := by
  have hsame : ∀ q, (t.proc q).pgdir = (s.proc q).pgdir ∧ ((t.proc q).state = .unused ↔ (s.proc q).state = .unused) := by
    intro q
    rw [hproc]
    by_cases hq : q = p
    · subst hq
      rw [Function.update_self]
      exact ⟨rfl, .rfl⟩
    · rw [Function.update_of_ne hq]
      exact ⟨rfl, .rfl⟩
  refine ⟨hinv, h.dirs.same hsame, fun q hq => ?_⟩
  have hused := mt (hsame q).2.mpr hq
  by_cases hqp : q = p
  · subst hqp
    rwa [hproc, Function.update_self]
  · rw [hproc, Function.update_of_ne hqp]
    exact hother _ (h.dirs.mem q hused) (fun heq => hqp (h.dirs.inj q p hused hp heq)) _ (h.spaces q hused)

end Sized

/-! ### sbrk -/

/-- The argument of `sbrk` is minus the size. -/
def Empties (s : State) (p : Fin nproc) (n : Word) : Prop := n.toInt < 0 ∧ (s.proc p).sz + n = 0#32

/-- **A call without consequences**: the same pages are mapped with the same flags and hold the same bytes, the
same pages are free, and nothing else is different. -/
structure Unchanged (s t : State) (p : Fin nproc) : Prop where
  rest : t = { s with mem := t.mem }
  restored : Restored s.mem t.mem {(s.proc p).pgdir}
  free : ∀ f, f ∈ t.mem.freelist ↔ f ∈ s.mem.freelist
  bytes : ∀ f ∉ s.mem.freelist, OffTables s.mem {(s.proc p).pgdir} f → t.mem.byte f = s.mem.byte f

theorem Unchanged.refl : Unchanged s s p := ⟨rfl, .refl, fun _ => .rfl, fun _ _ _ => rfl⟩

namespace Sized

variable {m : Mem} {lo hi : ℕ}

/-- Pages of the process came and went. -/
theorem unchanged (h : Sized L s D K) (hp : (s.proc p).state ≠ .unused)
    (hf : Filled L True s.mem m D K (s.proc p).pgdir lo hi none (¬ present ·)) (hhi : hi ≤ 160)
    (hclear : ∀ v < 160, lo ≤ v → v < hi → ¬ present (entry s.mem (s.proc p).pgdir v)) :
    Unchanged s { s with mem := m } p ∧ Sized L { s with mem := m } D K := by
  have hd := h.dirs.mem p hp
  have hmap : SameMap s.mem m D := hf.sameMap hd (fun _ _ _ => rfl) (fun v _ hlo hv => hclear v (by omega) hlo hv)
    (fun _ _ => rfl) .refl
  have hres := Restored.of_map h.inv hf.inv hmap hf.zero
  refine ⟨⟨rfl, ⟨fun e he => ?_, hres.refCnt, hres.freePages⟩, fun f => ?_, fun f hfree hoff => ?_⟩, ?_⟩
  · rw [Finset.mem_singleton] at he
    exact he ▸ hmap _ hd
  · rw [hf.inv.counted.mem_free, h.inv.counted.mem_free, hres.refCnt]
  · exact hf.byte_eq h.inv hclear hfree hoff
  · refine h.same (.of_proc rfl) hf.inv fun q hq => (h.spaces q hq).of_present (fun v hv => ?_) ?_
    · by_cases hcase : present (entry s.mem (s.proc q).pgdir v) ∨ present (entry m (s.proc q).pgdir v)
      · rw [(hmap _ (h.dirs.mem q hq)).2 v (by omega) hcase]
      · rw [not_or] at hcase
        exact iff_of_false hcase.2 hcase.1
    · exact (h.spaces q hq).supervised.filled hf (h.dirs.mem q hq) hhi

/-- **`growproc`** fails without consequences, or gives the process another size with the pages for it. -/
theorem growproc_spec (h : Sized L s D K) (hp : (s.proc p).state ≠ .unused) (hn : ¬ Empties s p n) :
    Wp (growproc L p n) (fun r t => (r = -1 → Unchanged s t p) ∧ Sized L t D K) (fun e _ => e = .deallocuvm) s := by
  have hd := h.dirs.mem p hp
  have hspace := h.spaces p hp
  have htop := pgup_le hspace.size
  unfold growproc
  simp only [wp_bind, wp_get, wp_ite, wp_paging, wp_pure, setSize, modifyProc, wp_modify]
  refine ⟨fun hgrow => ?_, fun hno => ⟨fun hneg => ?_, fun hzero => ?_⟩⟩
  · have hlt := toNat_grown hspace.size hgrow
    refine (h.inv.allocuvm_frame hd).mono ?_ ?_
    · rintro r m ⟨-, ⟨rfl, rfl, -⟩ | ⟨rfl, -, hle, -, hf⟩ | ⟨rfl, -, -, -, hle, hf⟩⟩
      · exact ⟨fun _ => ⟨fun _ => .refl, h⟩, fun hne => absurd rfl hne⟩
      · rw [max_eq_right hlt.le]
        refine ⟨fun h0 => absurd h0 (by omega), fun _ => ⟨fun heq => absurd heq (by decide), ?_⟩⟩
        rw [BitVec.ofNat_toNat, BitVec.setWidth_eq]
        exact h.resized hp rfl hf.inv (hspace.grown hf hd hlt.le hle) fun e he hne sz hs => hs.filled hf he hne
      · have htop' := pgup_le hle
        obtain ⟨hun, hsized⟩ := h.unchanged hp hf htop' fun v hv hlo _ hpv =>
          absurd ((hspace.pages v hv).mp hpv) (not_lt.mpr hlo)
        exact ⟨fun _ => ⟨fun _ => hun, hsized⟩, fun hne => absurd rfl hne⟩
    · rintro e _ ⟨-, v, hlo, hhi, hle, hne⟩
      have hv : v < 160 := hhi.trans_le (pgup_le hle)
      exact absurd (image_eq_none.mpr fun hpv => absurd ((hspace.pages v hv).mp hpv) (not_lt.mpr hlo)) hne
  · refine (h.inv.deallocuvm_frame _ hd hspace.size).mono ?_ fun e _ he => he.1
    rintro r m ⟨rfl, hf, -⟩
    have hnew : (s.proc p).sz + n ≠ 0#32 := fun h0 => hn ⟨hneg, h0⟩
    have hpos : ((s.proc p).sz + n).toNat ≠ 0 := fun h0 => hnew (BitVec.eq_of_toNat_eq h0)
    have hold : (s.proc p).sz.toNat ≠ 0 := fun h0 => hspace.pos (BitVec.eq_of_toNat_eq h0)
    refine ⟨fun h0 => absurd h0 (by omega), fun _ => ⟨fun heq => absurd heq (by decide), ?_⟩⟩
    rcases le_total ((s.proc p).sz + n).toNat (s.proc p).sz.toNat with hle | hge
    · rw [min_eq_right hle, BitVec.ofNat_toNat, BitVec.setWidth_eq]
      exact h.resized hp rfl hf.inv (hspace.shrunk hf hd hnew hle) fun e he hne sz hs => hs.filled hf he hne
    · rw [min_eq_left hge, BitVec.ofNat_toNat, BitVec.setWidth_eq]
      exact h.resized hp rfl hf.inv (hspace.of_empty hf (pgup_mono hge)) fun e he hne sz hs => hs.filled hf he hne
  · rw [BitVec.ofNat_toNat, BitVec.setWidth_eq]
    exact ⟨fun heq => absurd heq (by decide), h.of_mem (.update rfl rfl rfl .rfl) rfl⟩

/-- **`sbrk` by minus the size** fails, and all pages are gone. -/
theorem growproc_empties (h : Sized L s D K) (hp : (s.proc p).state ≠ .unused) (hn : Empties s p n) :
    Wp (growproc L p n) (fun r t => ¬ HasNull s.mem (s.proc p).pgdir ∧ r = -1 ∧ t.proc = s.proc ∧
      ∀ v < 160, ¬ present (entry t.mem (s.proc p).pgdir v))
      (fun _ _ => HasNull s.mem (s.proc p).pgdir) s := by
  have hd := h.dirs.mem p hp
  have hspace := h.spaces p hp
  have hold : 0 < (s.proc p).sz.toNat := Nat.pos_of_ne_zero fun h0 => hspace.pos (BitVec.eq_of_toNat_eq h0)
  have htop := pgup_le hspace.size
  obtain ⟨hneg, hzero⟩ := hn
  unfold growproc
  simp only [wp_bind, wp_get, wp_ite, wp_paging, wp_pure, setSize, modifyProc, wp_modify]
  refine ⟨fun hgrow => by omega, fun _ => ⟨fun _ => ?_, fun hno => absurd hneg hno⟩⟩
  rw [hzero]
  refine ((h.inv.deallocuvm_frame _ hd hspace.size).and (h.inv.deallocuvm_null hd hspace.size)).mono ?_ ?_
  · rintro r m ⟨⟨rfl, hf, -⟩, hnull⟩
    refine ⟨fun _ => ⟨?_, trivial, trivial, fun v hv => ?_⟩, fun hne => absurd (Nat.min_zero _) hne⟩
    · rintro ⟨v, hv, hpv, h0⟩
      exact hnull hold v (Nat.zero_le _) ((hspace.pages v hv).mp hpv) hpv h0
    · have hent := hf.entries.2 v (by omega)
      split_ifs at hent with hin
      · exact hent
      · rw [hent, hspace.pages v hv]
        exact fun hlt => hin ⟨Nat.zero_le _, hlt⟩
  · rintro e m ⟨⟨-, v, -, hhi, hpv, h0⟩, -⟩
    exact ⟨v, by omega, hpv, h0⟩

end Sized

/-! ### fork -/

/-- The loop over the open files leaves the address spaces alone. -/
theorem dupFiles_frame (n : ℕ) :
    Wp (dupFiles p np n) (fun _ t => t.mem = s.mem ∧ SameSpaces s t) (fun e _ => e = .filedup) s := by
  induction n with
  | zero => exact wp_pure.mpr ⟨rfl, .of_proc rfl⟩
  | succ n ih =>
    unfold dupFiles
    refine ih.bind ?_
    rintro _ t ⟨hmem, hsame⟩
    rw [wp_bind, wp_get]
    split
    · exact wp_pure.mpr ⟨hmem, hsame⟩
    · simp only [filedup, modifyProc, wp_bind, wp_get, wp_ite, wp_throw, wp_set, wp_modify]
      exact ⟨fun _ => trivial, fun _ => ⟨hmem, hsame.trans (.update rfl rfl rfl .rfl)⟩⟩

namespace Sized

/-- An entry that is not used is changed. -/
theorem unused (h : Sized L s D K) (hother : ∀ q, q ≠ np → t.proc q = s.proc q) (hs : (s.proc np).state = .unused)
    (ht : (t.proc np).state = .unused) (hinv : Inv L True t.mem D K') (hm : SameTables s.mem t.mem D) :
    Sized L t D K' := by
  have hne : ∀ q, (t.proc q).state ≠ .unused → t.proc q = s.proc q := fun q hq => hother q (by rintro rfl; exact hq ht)
  refine ⟨hinv, ⟨fun q hq => ?_, fun q r hq hr heq => ?_⟩, fun q hq => ?_⟩
  · have hproc := hne q hq
    rw [hproc] at hq ⊢
    exact h.dirs.mem q hq
  · have hproc := hne q hq
    have hproc' := hne r hr
    rw [hproc] at hq heq
    rw [hproc'] at hr heq
    exact h.dirs.inj q r hq hr heq
  · have hproc := hne q hq
    rw [hproc] at hq ⊢
    exact (h.spaces q hq).same hm (h.dirs.mem q hq)

/-- A new process, with the pages of its parent. -/
theorem child {d : ℕ} {c : Proc} (h : Sized L s D K) (hp : (s.proc p).state ≠ .unused)
    (hproc : t.proc = Function.update s.proc np c) (hdir : c.pgdir = d) (hsz : c.sz = (s.proc p).sz)
    (hnew : NewDir L True s.mem t.mem D K' d)
    (himg : ∀ v < 160, image t.mem d v = if v < pgup (s.proc p).sz.toNat then image s.mem (s.proc p).pgdir v else none)
    (hkeeps : ∀ e ∈ D, Supervised s.mem e → Supervised t.mem e) (hsup : Supervised t.mem d) :
    Sized L t (insert d D) K' := by
  have hother : ∀ q, q ≠ np → t.proc q = s.proc q := fun q hq => by rw [hproc, Function.update_of_ne hq]
  have hspace := h.spaces p hp
  refine ⟨hnew.inv, h.dirs.add hother (by rw [hproc, Function.update_self, hdir]) hnew.notLive, fun q hq => ?_⟩
  by_cases hqn : q = np
  · subst hqn
    rw [hproc, Function.update_self, hdir, hsz]
    refine ⟨hspace.pos, hspace.size, fun v hv => ?_, hsup⟩
    rw [← not_iff_not, ← image_eq_none, himg v hv]
    split_ifs with hlt
    · rw [image_eq_none, hspace.pages v hv]
    · exact iff_of_true rfl hlt
  · rw [hother q hqn] at hq ⊢
    have hd := h.dirs.mem q hq
    exact (h.spaces q hq).kept hnew.kept hd (hkeeps _ hd (h.spaces q hq).supervised)

/-- **`fork`** does not stop in `cowuvm`. -/
theorem fork_spec (h : Sized L s D K) (hp : (s.proc p).state ≠ .unused) :
    Wp (fork L p) (fun _ t => ∃ D K, Sized L t D K) (fun e _ => e = .filedup) s := by
  have hd := h.dirs.mem p hp
  have hspace := h.spaces p hp
  have htop := pgup_le hspace.size
  have hnonzero : ∀ f ∈ s.mem.freelist, f ≠ 0 := fun f hf => ne_zero_of_managed ((h.inv.counted.mem_free f).mp hf).1
  unfold fork forkWith
  refine ((allocproc_spec hnonzero).mono (fun _ _ ht => ht) fun _ _ => False.elim).bind ?_
  rintro r t hall
  cases hall with
  | full hfull => exact wp_pure.mpr ⟨D, K, h⟩
  | @noStack np hnp hnil =>
    refine wp_pure.mpr ⟨D, K, h.unused (fun q hq => Function.update_of_ne hq ..) hnp ?_ ?_ (sameTables_of_eq rfl)⟩
    · simp only [Function.update_self]
    · exact h.inv.of_same (sameTables_of_eq rfl) h.inv.counted h.inv.outside h.inv.freePages h.inv.exclusive
  | @entry np f next hnp hlist hf =>
    have hpnp : p ≠ np := by
      rintro rfl
      exact hp hnp
    obtain ⟨h₁, hnone⟩ := h.inv.take hlist
    have hk₁ : Kept s.mem (s.mem.taken f next) D := kept_of_eq rfl
    simp only [wp_bind, wp_get, wp_paging, Function.update_of_ne hpnp]
    refine ((h₁.cowuvm_frame hd hspace.size).and (h₁.cowuvm_supervised hd hspace.size)).mono ?_ ?_
    · rintro r m ⟨⟨hnew, himg, -⟩ | ⟨rfl, hun⟩, hkeeps, hsup⟩
      · simp only [modifyProc, wp_modify, wp_ite, wp_bind, Function.update_self, Function.update_idem]
        refine ⟨fun h0 => absurd h0 hnew.ne_zero, fun _ => ?_⟩
        refine (dupFiles_frame nofile).mono ?_ fun _ _ he => he
        rintro _ u ⟨hmem, hsame⟩
        simp only [idup, wp_bind, wp_modify, wp_pure, Function.update_idem, Function.update_self]
        have hused : (u.proc np).state ≠ .unused := mt (hsame np).2.2.mp (by simp only [Function.update_self, reduceCtorEq, not_false_eq_true])
        refine ⟨insert r D, insert f K, ((?_ : Sized L _ (insert r D) (insert f K)).of_mem hsame hmem).of_mem
          (.update rfl rfl rfl (iff_of_false (fun hu => by cases hu) hused)) rfl⟩
        refine h.child hp rfl rfl rfl ⟨hnew.inv, hnew.notLive, hk₁.trans hnew.kept⟩ (fun v hv => ?_)
          (fun e he hs => hkeeps e he (hs.same (sameTables_of_eq rfl) he)) (hsup hnew.ne_zero)
        rw [himg v hv]
        split_ifs
        · exact hk₁ _ hd v hv
        · rfl
      · simp only [modifyProc, wp_modify, wp_ite, wp_bind, Function.update_self, Function.update_idem, wp_pure,
          wp_paging, not_true_eq_false, false_implies, and_true, true_implies]
        have hfK : f ∈ insert f K ∪ (s.mem.taken f next).freelist.toFinset :=
          Finset.mem_union_left _ (Finset.mem_insert_self _ _)
        refine (hun.inv.kfree_spec hfK).mono ?_ fun _ _ => False.elim
        rintro _ m₂ ⟨h₂, -, -, -, hb₂⟩
        have hm : SameTables s.mem m₂ D :=
          ((sameTables_of_eq rfl).trans hun.framed.same).trans (sameTables_of_byte (hun.inv.offTables_kern hfK) hb₂)
        refine ⟨D, _, h.unused (fun q hq => Function.update_of_ne hq ..) hnp ?_ h₂ hm⟩
        simp only [Function.update_self]
    · rintro e _ ⟨⟨-, ⟨v, hv, hnone'⟩, -⟩, -⟩
      rw [hk₁ _ hd v (by omega)] at hnone'
      exact absurd ((hspace.pages v (by omega)).mpr hv) (image_eq_none.mp hnone')

end Sized

/-! ### exec -/

/-- The file is a program, and bytes of a segment go to pages that are not those of the image. -/
def File.Overruns (ip : File) (free : ℕ) : Prop := ip.IsElf ∧ ¬ ip.plan.Inside ip free

theorem pgup_pages (n : ℕ) : pgup (n * 4096) = n := by
  unfold pgup
  omega

namespace Sized

/-- A process with a new image, in `m₁`, after the old one was given back. -/
theorem runs {m₁ m : Mem} {d n : ℕ} {c : ℕ → BitVec 8} {path : Bytes} {argv : List Bytes} {w : Word} (h : Sized L s D K)
    (hp : (s.proc p).state ≠ .unused) (hpos : n ≠ 0) (hnew : NewSpace L True s.mem m₁ D K d n c)
    (hinv : Inv L True m ((insert d D).erase (s.proc p).pgdir) K)
    (hframe : Framed L m₁ m ((insert d D).erase (s.proc p).pgdir) K) (hmem : t.mem = m)
    (hproc : t.proc = Function.update s.proc p ((s.proc p).runs path d (imageOf n argv) w)) :
    Sized L t ((insert d D).erase (s.proc p).pgdir) K := by
  have hbound := hnew.bound
  have hother : ∀ q, q ≠ p → t.proc q = s.proc q := fun q hq => by rw [hproc, Function.update_of_ne hq]
  have hdirs : Each t Proc.pgdir ((insert d D).erase (s.proc p).pgdir) :=
    h.dirs.replace hp hother (by rw [hproc, Function.update_self]; rfl) hnew.notLive
  refine ⟨hmem ▸ hinv, hdirs, fun q hq => ?_⟩
  have hd := hdirs.mem q hq
  rw [hmem]
  by_cases hqp : q = p
  · subst hqp
    rw [hproc, Function.update_self] at hd ⊢
    have hsz : (BitVec.ofNat 32 (n * 4096)).toNat = n * 4096 := by
      rw [BitVec.toNat_ofNat]
      omega
    refine Space.same (m := m₁) ⟨fun h0 => ?_, ?_, fun v hv => ?_, ?_⟩ hframe.same hd
    · have h0 : (BitVec.ofNat 32 (n * 4096)).toNat = 0 := congrArg BitVec.toNat h0
      omega
    · show (BitVec.ofNat 32 (n * 4096)).toNat ≤ usertop
      unfold usertop
      omega
    · show present (entry m₁ d v) ↔ v < pgup (BitVec.ofNat 32 (n * 4096)).toNat
      rw [hsz, pgup_pages]
      exact ⟨fun hpv => by_contra fun hge => hnew.empty v hv (by omega) hpv, fun hlt => (hnew.given v hlt).1⟩
    · exact hnew.supervisor
  · rw [hother q hqp] at hq hd ⊢
    exact ((h.spaces q hq).same hnew.framed.same (h.dirs.mem q hq)).same hframe.same hd

/-- **`exec`** of a file that does not overrun keeps all address spaces whole. -/
theorem exec_sized {namei : Bytes → Option File} {path : Bytes} {argv : List Bytes} (h : Sized L s D K)
    (hp : (s.proc p).state ≠ .unused) (hfile : ∀ ip, namei path = some ip → ¬ ip.Overruns s.mem.freelist.length)
    (hlen : ∀ a ∈ argv, a.length < usertop) :
    Wp (exec L namei p path argv) (fun _ t => ∃ D K, Sized L t D K) (fun _ _ => True) s := by
  by_cases helf : ∃ ip, namei path = some ip ∧ ip.IsElf
  swap
  · refine (exec_refused fun ip hip hel => helf ⟨ip, hip, hel⟩).mono ?_ fun _ _ => False.elim
    rintro r _ ⟨-, rfl⟩
    exact ⟨D, K, h⟩
  obtain ⟨ip, hip, helf⟩ := helf
  have hin : ip.plan.Inside ip s.mem.freelist.length := by_contra fun hno => hfile ip hip ⟨helf, hno⟩
  refine (exec_spec h.inv (h.dirs.mem p hp) hip hin hlen).mono ?_ fun _ _ _ => trivial
  rintro r t hexec
  cases hexec with
  | refused => exact ⟨D, K, h⟩
  | noDir hun => exact ⟨D, _, h.of_same (.of_proc rfl) hun.inv hun.framed.same⟩
  | undone _ _ _ hinv hframe => exact ⟨D, K, h.of_same (.of_proc rfl) hinv hframe.same⟩
  | @done m₁ m d n _ _ hpages _ _ _ hnew hinv hframe =>
    refine ⟨_, K, h.runs hp ?_ hnew hinv hframe rfl rfl⟩
    rintro rfl
    obtain ⟨top, -, heq⟩ := Option.map_eq_some_iff.mp hpages
    exact absurd heq (Nat.succ_ne_zero _)

end Sized

end OperatingSystems.CowFork.Processes
