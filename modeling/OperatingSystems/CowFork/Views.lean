import OperatingSystems.CowFork.Private

/-! # A step of the kernel is a step of private processes

For each thing that a process can do, with any `dup` that forks an address space: unless a `kalloc` fails, the
kernel and `Private` come to the same end, and the processes of the state are those of `Private`. -/

namespace OperatingSystems.CowFork.Processes

open Lib.WeakestPre ProcTable

variable {L : Layout} {dup : ℕ → ℕ → Kernel ℕ} {s t : State} {D K : Finset ℕ} {p q np : Fin nproc} {m : Mem}
  {va n : Word} {b : BitVec 8} {tries : ℕ}

/-- The state is in order: every process has its directory and its stack, and the pages below its size. -/
def Good (L : Layout) (s : State) : Prop := (∃ D K, Owns L s D K) ∧ s.abs.Sane

/-- `t` is a state after `s` and `out`, as `next` says. -/
structure Follows (L : Layout) (s : State) (next : Out × Private) (out : Out) (t : State) : Prop where
  good : Good L t
  out_eq : out = next.1
  abs_eq : t.abs = next.2

/-! ### What a state stands for -/

theorem bare_update (f : Fin nproc → Proc) (np : Fin nproc) (x : Proc) :
    (fun q => (Function.update f np x q).bare) = Function.update (fun q => (f q).bare) np x.bare := by
  funext q
  by_cases h : q = np
  · subst h
    rw [Function.update_self, Function.update_self]
  · rw [Function.update_of_ne h, Function.update_of_ne h]

theorem view_of_used (hq : (s.proc q).state ≠ .unused) {v : ℕ} (hv : v < 160) :
    view s q v = image s.mem (s.proc q).pgdir v := if_pos ⟨hq, hv⟩

/-- Only the pages of `p` change. -/
theorem Owns.view_eq (h : Owns L s D K) (hp : (s.proc p).state ≠ .unused) (hown : SameOwners s t)
    {x : ℕ → Option Page} (hx : ∀ v, 160 ≤ v → x v = none)
    (himg : ∀ e ∈ D, ∀ v < 160, image t.mem e v = if e = (s.proc p).pgdir then x v else image s.mem e v) :
    view t = Function.update (view s) p x := by
  funext q v
  by_cases hq : (s.proc q).state = .unused
  · have hne : q ≠ p := by
      rintro rfl
      exact hp hq
    rw [Function.update_of_ne hne, view, view, if_neg fun h' => h'.1 ((hown q).2.2.mpr hq), if_neg fun h' => h'.1 hq]
  have hqt := mt (hown q).2.2.mp hq
  rcases lt_or_ge v 160 with hv | hv
  · rw [view_of_used hqt hv, (hown q).1, himg _ (h.dirs.mem q hq) v hv]
    by_cases hqp : q = p
    · subst hqp
      rw [if_pos rfl, Function.update_self]
    · rw [if_neg fun heq => hqp (h.dirs.inj q p hq hp heq), Function.update_of_ne hqp, view_of_used hq hv]
  · rw [view, if_neg fun h' => absurd h'.2 (by omega)]
    by_cases hqp : q = p
    · subst hqp
      rw [Function.update_self, hx v hv]
    · rw [Function.update_of_ne hqp, view, if_neg fun h' => absurd h'.2 (by omega)]

/-- Nothing changes in the pages of the processes. -/
theorem Owns.view_kept (h : Owns L s D K) (hown : SameOwners s t) (hk : Kept s.mem t.mem D) : view t = view s := by
  funext q v
  by_cases hq : (s.proc q).state = .unused
  · rw [view, view, if_neg fun h' => h'.1 ((hown q).2.2.mpr hq), if_neg fun h' => h'.1 hq]
  · rcases lt_or_ge v 160 with hv | hv
    · rw [view_of_used (mt (hown q).2.2.mp hq) hv, view_of_used hq hv, (hown q).1, hk _ (h.dirs.mem q hq) v hv]
    · rw [view, view, if_neg fun h' => absurd h'.2 (by omega), if_neg fun h' => absurd h'.2 (by omega)]

/-- A new process with the pages of its parent. -/
theorem Owns.view_add (h : Owns L s D K) (hother : ∀ q, q ≠ np → t.proc q = s.proc q)
    (hused : (t.proc np).state ≠ .unused) (hk : Kept s.mem t.mem D) {x : ℕ → Option Page}
    (hx : ∀ v, 160 ≤ v → x v = none) (himg : ∀ v < 160, image t.mem (t.proc np).pgdir v = x v) :
    view t = Function.update (view s) np x := by
  funext q v
  by_cases hq : q = np
  · subst hq
    rw [Function.update_self]
    rcases lt_or_ge v 160 with hv | hv
    · rw [view_of_used hused hv, himg v hv]
    · rw [view, if_neg fun h' => absurd h'.2 (by omega), hx v hv]
  · rw [Function.update_of_ne hq, view, view, hother q hq]
    split_ifs with hv
    · exact hk _ (h.dirs.mem q hv.1) v hv.2
    · rfl

/-- A process leaves the table. -/
theorem Owns.view_remove (h : Owns L s D K) (hq : (s.proc q).state ≠ .unused)
    (hother : ∀ r, r ≠ q → t.proc r = s.proc r) (hun : (t.proc q).state = .unused)
    (hk : Kept s.mem t.mem (D.erase (s.proc q).pgdir)) : view t = Function.update (view s) q fun _ => none := by
  funext r v
  by_cases hr : r = q
  · subst hr
    rw [Function.update_self, view, if_neg fun h' => h'.1 hun]
  · rw [Function.update_of_ne hr, view, view, hother r hr]
    split_ifs with hv
    · refine hk _ (Finset.mem_erase.mpr ⟨fun heq => hr (h.dirs.inj r q hv.1 hq heq), h.dirs.mem r hv.1⟩) v hv.2
    · rfl

/-! ### fork -/

theorem allocproc_first : Wp allocproc (fun r _ => ∀ np, r = some np →
    (List.finRange nproc).find? (fun q => (s.proc q).state = .unused) = some np) (fun _ _ => True) s := by
  unfold allocproc
  rw [wp_bind, wp_get]
  split
  · exact wp_pure.mpr fun np hnp => by cases hnp
  · next np hsome =>
    simp only [modifyProc, wp_bind, wp_modify, wp_paging, wp_ite, wp_pure]
    refine wp_kalloc (fun _ => ⟨?_, ?_⟩) fun f next _ => ⟨?_, ?_⟩
    · exact fun _ np' h => by cases h
    · rintro _ np' ⟨⟩
      exact hsome
    · exact fun _ np' h => by cases h
    · rintro _ np' ⟨⟩
      exact hsome

theorem dupFiles_none (h : ∀ fd, (s.proc p).ofile fd = none) (n : ℕ) :
    Wp (dupFiles p np n) (fun _ t => t = s) (fun _ _ => False) s := by
  induction n with
  | zero => exact wp_pure.mpr rfl
  | succ n ih =>
    unfold dupFiles
    refine ih.bind ?_
    rintro _ _ rfl
    rw [wp_bind, wp_get, h n]
    exact wp_pure.mpr rfl

/-- The child of `p` that `fork` leaves in entry `np`, with directory `d` and stack `f`. -/
def child (s : State) (p np : Fin nproc) (d f : ℕ) : Proc :=
  { s.proc np with
    sz := (s.proc p).sz, pgdir := d, kstack := f, state := .runnable, pid := s.nextpid, parent := some p,
    tf := { (s.proc p).tf with eax := 0#32 }, cwd := (s.proc p).cwd, name := (s.proc p).name }

/-- The state with the child, against the private processes. -/
theorem Owns.forked {d f : ℕ} (h : Owns L s D K) (hsane : s.abs.Sane) (hrun : (s.proc p).state ≠ .unused)
    (hfind : (List.finRange nproc).find? (fun q => (s.proc q).state = .unused) = some np)
    (hproc : t.proc = Function.update s.proc np (child s p np d f)) (hpid : t.nextpid = s.nextpid + 1#32)
    (hdD : d ∉ D) (hfK : f ∉ K) (hinv : Inv L False t.mem (insert d D) (insert f K)) (hk : Kept s.mem t.mem D)
    (himg : ∀ v < 160, image t.mem d v = if v < pgup (s.proc p).sz.toNat then image s.mem (s.proc p).pgdir v else none) :
    Follows L s (s.abs.fork p) (.value s.nextpid.toInt) t := by
  have hsz : (s.proc p).sz.toNat ≤ usertop := (hsane p).size hrun
  have htop := pgup_le hsz
  have hother : ∀ q, q ≠ np → t.proc q = s.proc q := fun q hq => by rw [hproc, Function.update_of_ne hq]
  have hnp : t.proc np = child s p np d f := by rw [hproc, Function.update_self]
  have hfork : s.abs.fork p = (.value s.nextpid.toInt,
      { proc := Function.update s.abs.proc np (child s p np d f).bare
        nextpid := s.nextpid + 1#32
        page := Function.update s.abs.page np (s.abs.page p) }) := by
    unfold Private.fork
    rw [show (List.finRange nproc).find? (fun q => (s.abs.proc q).state = .unused) = some np from hfind]
    rfl
  have hview : view t = Function.update (view s) np (view s p) := by
    refine h.view_add hother (by rw [hnp]; exact fun hu => by cases hu) hk (fun v hv => ?_) fun v hv => ?_
    · exact ((hsane p).pages hrun v).mpr (show pgup (s.proc p).sz.toNat ≤ v by omega)
    · rw [show (t.proc np).pgdir = d by rw [hnp]; rfl, himg v hv]
      split_ifs with hlt
      · exact (view_of_used hrun hv).symm
      · exact (((hsane p).pages hrun v).mpr (not_lt.mp hlt)).symm
  have habs : t.abs = (s.abs.fork p).2 := by
    rw [hfork]
    ext1
    · show (fun q => (t.proc q).bare) = _
      rw [hproc, bare_update]
      rfl
    · exact hpid
    · exact hview
  constructor
  case good =>
    refine ⟨⟨_, _, hinv, h.dirs.add hother (by rw [hnp]; rfl) hdD, h.kstacks.add hother (by rw [hnp]; rfl) hfK⟩, ?_⟩
    rw [habs]
    exact Private.Sane.fork hsane hrun
  case out_eq => rw [hfork]
  case abs_eq => exact habs

/-- **`fork`**, however the address space is forked, makes a child with the pages of its parent. -/
theorem forkWith_follows (hdup : Forks L dup) (h : Good L s) (hrun : (s.proc p).state ≠ .unused) :
    Wp (forkWith dup L p) (fun r t => t.mem.fails = s.mem.fails → Follows L s (s.abs.fork p) (.value r) t)
      (fun _ t => s.mem.fails < t.mem.fails) s := by
  obtain ⟨⟨D, K, hown⟩, hsane⟩ := h
  have hd := hown.dirs.mem p hrun
  have hsz : (s.proc p).sz.toNat ≤ usertop := (hsane p).size hrun
  have htop := pgup_le hsz
  have hnonzero : ∀ f ∈ s.mem.freelist, f ≠ 0 := fun f hf =>
    ne_zero_of_managed ((hown.inv.counted.mem_free f).mp hf).1
  unfold forkWith
  refine ((allocproc_spec hnonzero).and allocproc_first).mono (fun _ _ ht => ht) (fun _ _ he => he.1.elim) |>.bind ?_
  rintro r t ⟨hall, hfirst⟩
  cases hall with
  | full hfull =>
    have hfind : (List.finRange nproc).find? (fun q => (s.abs.proc q).state = .unused) = none :=
      List.find?_eq_none.mpr fun q _ => decide_eq_true_iff.not.mpr (hfull q)
    have hfork : s.abs.fork p = (.value (-1), s.abs) := by
      unfold Private.fork
      rw [hfind]
    exact wp_pure.mpr fun _ => ⟨⟨⟨D, K, hown⟩, hsane⟩, by rw [hfork], by rw [hfork]⟩
  | @noStack np hnp hnil => exact wp_pure.mpr fun hf => absurd hf (Nat.succ_ne_self _)
  | @entry np f next hnp hlist hf =>
    have hpnp : p ≠ np := by
      rintro rfl
      exact hrun hnp
    obtain ⟨h₁, hnone⟩ := hown.inv.take hlist
    have hk₁ : Kept s.mem (s.mem.taken f next) D := kept_of_eq rfl
    simp only [wp_bind, wp_get, wp_paging, Function.update_of_ne hpnp]
    refine (hdup h₁ hd hsz).mono ?_ ?_
    · rintro r m' (⟨hnew, himg, hfails, -⟩ | ⟨rfl, hfails, -⟩)
      · simp only [modifyProc, wp_modify, wp_ite, wp_bind, Function.update_self, Function.update_idem]
        refine ⟨fun h0 => absurd h0 hnew.ne_zero, fun _ => ?_⟩
        refine (dupFiles_none (fun fd => ?_) nofile).mono ?_ fun _ _ => False.elim
        · simp only [Function.update_of_ne hpnp]
          exact (hsane p).files fd
        rintro _ _ rfl
        simp only [idup, wp_bind, wp_modify, wp_pure, Function.update_idem, Function.update_self]
        refine fun _ => hown.forked (d := r) (f := f) hsane hrun (hfirst np rfl) rfl rfl hnew.notLive
          (Inv.notMem_of_none hnone) hnew.inv (hk₁.trans hnew.kept) fun v hv => ?_
        rw [himg v hv]
        split_ifs
        · exact hk₁ _ hd v hv
        · rfl
      · simp only [modifyProc, wp_modify, wp_ite, wp_bind, Function.update_self, Function.update_idem, wp_pure,
          wp_paging, not_true_eq_false, false_implies, and_true, true_implies]
        have hlt : s.mem.fails < m'.fails := hfails
        exact kfree_fails.mono (fun _ _ heq hf => by omega) fun _ _ heq => hlt.trans_eq heq.symm
    · rintro e m' ⟨-, v, hv, hnone'⟩
      rw [hk₁ _ hd v (by omega), ← view_of_used hrun (by omega)] at hnone'
      exact absurd (((hsane p).pages hrun v).mp hnone') (not_le.mpr hv)

/-! ### Memory -/

theorem page_lt {a sz : ℕ} (hsz : sz ≤ usertop) (ha : a < sz) : a / 4096 < 160 ∧ a / 4096 < pgup sz := by
  unfold usertop at hsz
  unfold pgup
  omega

/-- The pages below the size are there. -/
theorem present_of_lt (h : s.abs.Sane) (hrun : (s.proc p).state ≠ .unused) {v : ℕ} (hv : v < 160)
    (hlt : v < pgup (s.proc p).sz.toNat) : present (entry s.mem (s.proc p).pgdir v) := by
  by_contra habs
  have hnone : view s p v = none := (view_of_used hrun hv).trans (image_eq_none.mpr habs)
  exact absurd (((h p).pages hrun v).mp hnone) (not_le.mpr hlt)

/-- **A load** gets the byte of the process, without the handler. -/
theorem load_follows (h : Good L s) (hrun : (s.proc p).state ≠ .unused) (hva : va < (s.proc p).sz) :
    Wp ((Op.load va).run L dup tries p) (fun r t => Follows L s (s.abs.load p va) r.1 t ∧ r.2 = 0 ∧ t = s)
      (fun _ _ => False) s := by
  obtain ⟨⟨D, K, hown⟩, hsane⟩ := h
  have hd := hown.dirs.mem p hrun
  have hsz : (s.proc p).sz.toNat ≤ usertop := (hsane p).size hrun
  have hlt := BitVec.lt_def.mp hva
  obtain ⟨hv, hpage⟩ := page_lt hsz hlt
  have hview := view_of_used hrun hv
  have hp := present_of_lt hsane hrun hv hpage
  unfold Op.run
  rw [wp_bind, wp_get, wp_bind, wp_paging]
  refine (hown.inv.userLoad_spec hd (hlt.trans_le hsz) hp tries).mono ?_ fun _ _ => False.elim
  rintro r m' ⟨rfl, rfl⟩
  have hload : s.abs.load p va = (.byte (s.mem.byte (pageOf (entry s.mem (s.proc p).pgdir (va.toNat / 4096)))
      (va.toNat % 4096)), s.abs) := by
    have hsome : s.abs.page p (va.toNat / 4096) = _ := hview.trans (image_of_present hp)
    unfold Private.load
    rw [hsome]
  exact wp_pure.mpr ⟨⟨⟨⟨D, K, hown⟩, hsane⟩, by rw [hload]; rfl, by rw [hload]⟩, rfl, rfl⟩

/-- **A store** changes a byte of the process, after one run of the handler if it faults. -/
theorem store_follows (h : Good L s) (hrun : (s.proc p).state ≠ .unused) (hva : va < (s.proc p).sz)
    (htries : 0 < tries) :
    Wp ((Op.store va b).run L dup tries p) (fun r t => t.mem.fails = s.mem.fails →
      Follows L s (s.abs.store p va b) r.1 t ∧
        r.2 = if Faults s.mem (s.proc p).pgdir va.toNat true then 1 else 0)
      (fun _ t => s.mem.fails < t.mem.fails) s := by
  obtain ⟨⟨D, K, hown⟩, hsane⟩ := h
  have hd := hown.dirs.mem p hrun
  have hsz : (s.proc p).sz.toNat ≤ usertop := (hsane p).size hrun
  have hlt := BitVec.lt_def.mp hva
  obtain ⟨hv, hpage⟩ := page_lt hsz hlt
  have hp := present_of_lt hsane hrun hv hpage
  have hz := present_of_lt hsane hrun (v := 0) (by omega) (by omega)
  unfold Op.run
  rw [wp_bind, wp_get, wp_bind, wp_paging]
  refine (hown.inv.userStore_spec (b := b) hd (hlt.trans_le hsz) hp hz htries).mono ?_ fun _ _ he => he.2
  rintro r m' ⟨-, -, hrest⟩
  refine wp_pure.mpr fun hf => ?_
  obtain ⟨h', hst, rfl⟩ := hrest hf
  have hsame : SameOwners s { s with mem := m' } := fun q => ⟨rfl, rfl, .rfl⟩
  have habs : ({ s with mem := m' } : State).abs = (s.abs.store p va b).2 := by
    ext1
    · rfl
    · rfl
    · refine hown.view_eq hrun hsame (fun v hge => ?_) fun e he v hlt => ?_
      · have hnone : view s p v = none := if_neg fun h' => absurd h'.2 (by omega)
        rw [if_neg (by omega)]
        exact hnone
      · rw [hst e he v hlt]
        by_cases hed : e = (s.proc p).pgdir
        · rw [if_pos hed]
          subst hed
          rw [show s.abs.page p v = image s.mem (s.proc p).pgdir v from view_of_used hrun hlt]
          simp only [true_and]
        · rw [if_neg hed, if_neg fun h' => hed h'.1]
  refine ⟨⟨⟨⟨D, K, hown.same hsame h'⟩, ?_⟩, rfl, habs⟩, ?_⟩
  · rw [habs]
    exact Private.Sane.store hsane va b
  · simp only [accessed, hown.inv.faults_iff hd (hlt.trans_le hsz) hp, true_and, ite_not]

/-! ### sbrk -/

/-- The size of a process changes, with the pages in between. -/
theorem Owns.resized (h : Owns L s D K) (hrun : (s.proc p).state ≠ .unused) {sz : Word} {lo hi : ℕ} {x : Option Page}
    (hproc : t.proc = Function.update s.proc p { s.proc p with sz := sz }) (hpid : t.nextpid = s.nextpid)
    (hinv : Inv L False t.mem D K) (hfill : ImageFill s.mem t.mem D (s.proc p).pgdir lo hi x) (hhi : hi ≤ 160) :
    Owns L t D K ∧ t.abs = s.abs.resize p sz lo hi x := by
  have hsame : SameOwners s t := by
    intro q
    rw [hproc]
    by_cases hq : q = p
    · subst hq
      rw [Function.update_self]
      exact ⟨rfl, rfl, .rfl⟩
    · rw [Function.update_of_ne hq]
      exact ⟨rfl, rfl, .rfl⟩
  refine ⟨h.same hsame hinv, ?_⟩
  ext1
  · show (fun q => (t.proc q).bare) = _
    rw [hproc, bare_update]
    rfl
  · exact hpid
  · refine h.view_eq hrun hsame (fun v hv => ?_) fun e he v hv => ?_
    · have hnone : view s p v = none := if_neg fun h' => absurd h'.2 (by omega)
      rw [if_neg (by omega)]
      exact hnone
    · rw [hfill e he v hv]
      by_cases hed : e = (s.proc p).pgdir
      · subst hed
        rw [if_pos rfl, show s.abs.page p v = image s.mem (s.proc p).pgdir v from view_of_used hrun hv]
        simp only [true_and]
      · rw [if_neg hed, if_neg fun h' => hed h'.1]

/-- The pages of the processes are as before, and the process table, too. -/
theorem Owns.unchanged (h : Owns L s D K) (hproc : t.proc = s.proc) (hpid : t.nextpid = s.nextpid)
    (hinv : Inv L False t.mem D K) (hk : Kept s.mem t.mem D) : Owns L t D K ∧ t.abs = s.abs := by
  have hsame : SameOwners s t := fun q => by rw [hproc]; exact ⟨rfl, rfl, .rfl⟩
  refine ⟨h.same hsame hinv, ?_⟩
  ext1
  · show (fun q => (t.proc q).bare) = _
    rw [hproc]
    rfl
  · exact hpid
  · exact h.view_kept hsame hk

/-- An empty range of pages. -/
theorem ImageFill.kept {lo hi d : ℕ} {x : Option Page} {m m' : Mem} (h : ImageFill m m' D d lo hi x) (hle : hi ≤ lo) :
    Kept m m' D := by
  intro e he v hv
  rw [h e he v hv, if_neg (by omega)]

/-- **`growproc`** gives the process zeroed pages, or takes pages from it. -/
theorem growproc_spec (h : Owns L s D K) (hsane : s.abs.Sane) (hrun : (s.proc p).state ≠ .unused)
    (hn : n.toInt < 0 → (s.proc p).sz + n ≠ 0#32) :
    Wp (growproc L p n) (fun r t => t.mem.fails = s.mem.fails → (Owns L t D K ∧ t.abs = (s.abs.sbrk p n).2) ∧
      (s.abs.sbrk p n).1 = .value (if r < 0 then -1 else (s.proc p).sz.toInt)) (fun _ _ => False) s := by
  have hd := h.dirs.mem p hrun
  have hsz : (s.proc p).sz.toNat ≤ usertop := (hsane p).size hrun
  have htop := pgup_le hsz
  have hpos : (s.proc p).sz.toNat ≠ 0 := fun h0 => (hsane p).pos hrun (BitVec.eq_of_toNat_eq h0)
  unfold growproc
  simp only [wp_bind, wp_get, wp_ite, wp_paging, wp_pure, setSize, modifyProc, wp_modify]
  refine ⟨fun hgrow => ?_, fun hno => ⟨fun hneg => ?_, fun hzero => ?_⟩⟩
  · have hlt := toNat_grown hsz hgrow
    refine (h.inv.allocuvm_spec hd).mono ?_ ?_
    · rintro r m' ⟨hinv, -, ⟨rfl, rfl, hgt⟩ | ⟨rfl, hf, hle, hfill⟩ | ⟨rfl, hf, -⟩⟩
      · have hsbrk : s.abs.sbrk p n = (.value (-1), s.abs) := by
          simp only [Private.sbrk]
          rw [if_pos hgrow]
          exact if_pos hgt
        exact ⟨fun _ _ => by rw [hsbrk]; exact ⟨⟨h, rfl⟩, rfl⟩, fun hne => absurd rfl hne⟩
      · have hsbrk : s.abs.sbrk p n = (.value (s.proc p).sz.toInt,
            s.abs.resize p ((s.proc p).sz + n) (pgup (s.proc p).sz.toNat) (pgup ((s.proc p).sz + n).toNat)
              (some fun _ => 0)) := by
          simp only [Private.sbrk]
          rw [if_pos hgrow]
          exact if_neg (not_lt.mpr hle)
        rw [max_eq_right hlt.le, hsbrk]
        refine ⟨fun h0 => absurd h0 (by omega), fun _ _ => ⟨?_, rfl⟩⟩
        rw [BitVec.ofNat_toNat, BitVec.setWidth_eq]
        exact h.resized hrun rfl rfl hinv hfill (pgup_le hle)
      · exact ⟨fun _ heq => absurd heq (by omega), fun hne => absurd rfl hne⟩
    · rintro e m' (⟨-, v, hlo, hhi, hle, hne⟩ | ⟨-, hN⟩)
      · have hv : v < 160 := hhi.trans_le (pgup_le hle)
        rw [← view_of_used hrun hv] at hne
        exact hne (((hsane p).pages hrun v).mpr hlo)
      · exact hN
  · refine (h.inv.deallocuvm_spec _ hd hsz).mono ?_ fun e _ he => he.2
    rintro r m' ⟨rfl, hinv, hfill, hf, -⟩
    have hnew : ((s.proc p).sz + n).toNat ≠ 0 := fun h0 => hn hneg (BitVec.eq_of_toNat_eq h0)
    refine ⟨fun h0 => absurd h0 (by omega), fun _ _ => ?_⟩
    by_cases hlt : (s.proc p).sz + n < (s.proc p).sz
    · have hsbrk : s.abs.sbrk p n = (.value (s.proc p).sz.toInt,
          s.abs.resize p ((s.proc p).sz + n) (pgup ((s.proc p).sz + n).toNat) (pgup (s.proc p).sz.toNat) none) := by
        simp only [Private.sbrk]
        rw [if_neg hno]
        exact if_pos ⟨hneg, hlt⟩
      rw [hsbrk, min_eq_right (BitVec.lt_def.mp hlt).le, BitVec.ofNat_toNat, BitVec.setWidth_eq]
      exact ⟨h.resized hrun rfl rfl hinv hfill htop, rfl⟩
    · have hge : (s.proc p).sz.toNat ≤ ((s.proc p).sz + n).toNat := not_lt.mp fun hlt' => hlt (BitVec.lt_def.mpr hlt')
      have hsbrk : s.abs.sbrk p n = (.value (s.proc p).sz.toInt, s.abs) := by
        simp only [Private.sbrk]
        rw [if_neg hno]
        exact if_neg fun h' => hlt h'.2
      rw [hsbrk, min_eq_left hge, BitVec.ofNat_toNat, BitVec.setWidth_eq]
      exact ⟨h.unchanged (Function.update_eq_self ..) rfl hinv (ImageFill.kept hfill (pgup_mono hge)), rfl⟩
  · intro _
    have hsbrk : s.abs.sbrk p n = (.value (s.proc p).sz.toInt, s.abs) := by
      simp only [Private.sbrk]
      rw [if_neg hno]
      exact if_neg fun h' => hzero h'.1
    rw [hsbrk, BitVec.ofNat_toNat, BitVec.setWidth_eq]
    exact ⟨h.unchanged (Function.update_eq_self ..) rfl h.inv .refl, rfl⟩

theorem sbrk_follows (h : Good L s) (hrun : (s.proc p).state ≠ .unused)
    (hn : n.toInt < 0 → (s.proc p).sz + n ≠ 0#32) :
    Wp (sysSbrk L p n) (fun r t => t.mem.fails = s.mem.fails → Follows L s (s.abs.sbrk p n) (.value r) t)
      (fun _ _ => False) s := by
  obtain ⟨⟨D, K, hown⟩, hsane⟩ := h
  have hsane' : (s.abs.sbrk p n).2.Sane := Private.Sane.sbrk hsane hrun hn
  unfold sysSbrk
  rw [wp_bind, wp_get]
  refine (growproc_spec hown hsane hrun hn).bind fun r t hspec => ?_
  rw [wp_ite, wp_pure, wp_pure]
  refine ⟨fun hr hf => ?_, fun hr hf => ?_⟩
  all_goals
    obtain ⟨⟨hown', habs⟩, hout⟩ := hspec hf
    refine ⟨⟨⟨D, K, hown'⟩, habs ▸ hsane'⟩, ?_, habs⟩
    rw [hout]
  · rw [if_pos hr]
  · rw [if_neg hr]

/-! ### exit and wait -/

theorem closeFiles_none (h : ∀ fd, (s.proc p).ofile fd = none) (n : ℕ) :
    Wp (closeFiles p n) (fun _ t => t = s) (fun _ _ => False) s := by
  induction n with
  | zero => exact wp_pure.mpr rfl
  | succ n ih =>
    unfold closeFiles
    refine ih.bind ?_
    rintro _ _ rfl
    rw [wp_bind, wp_get, h n]
    exact wp_pure.mpr rfl

theorem exit_follows (h : Good L s) (hrun : (s.proc p).state ≠ .unused) :
    Wp (exit p) (fun _ t => Follows L s (s.abs.exit p) .done t ∧ t.mem = s.mem)
      (fun e t => (e = .initExiting ∧ p = initproc) ∧ t = s) s := by
  obtain ⟨⟨D, K, hown⟩, hsane⟩ := h
  have hsane' : (s.abs.exit p).2.Sane := Private.Sane.exit hsane hrun
  unfold exit
  rw [wp_ite, wp_throw]
  refine ⟨fun hp => ⟨⟨rfl, hp⟩, rfl⟩, fun _ => ?_⟩
  refine ((closeFiles_none (hsane p).files nofile).mono (fun _ _ ht => ht) fun _ _ => False.elim).bind ?_
  rintro _ s rfl
  simp only [wp_bind, wp_get, iput, modifyProc, wp_modify]
  refine ⟨?_, trivial⟩
  suffices hend : ∀ {t : State}, t.mem = s.mem → t.nextpid = s.nextpid → t.proc = gone s.proc p →
      Follows L s (s.abs.exit p) .done t from hend rfl rfl rfl
  intro t hmem hpid hproc
  have hsame : SameOwners s t := by
    intro q
    rw [hproc, gone_cases]
    unfold Proc.passedOn
    split_ifs with hq hpar hpar
    · exact ⟨congrArg (fun r => (s.proc r).pgdir) hq.symm, congrArg (fun r => (s.proc r).kstack) hq.symm,
        iff_of_false (fun h' => by cases h') (hq ▸ hrun)⟩
    · exact ⟨congrArg (fun r => (s.proc r).pgdir) hq.symm, congrArg (fun r => (s.proc r).kstack) hq.symm,
        iff_of_false (fun h' => by cases h') (hq ▸ hrun)⟩
    · exact ⟨rfl, rfl, Iff.rfl⟩
    · exact ⟨rfl, rfl, Iff.rfl⟩
  have habs : t.abs = (s.abs.exit p).2 := by
    ext1
    · show (fun q => (t.proc q).bare) = gone s.abs.proc p
      funext q
      rw [hproc, gone_cases, gone_cases]
      unfold Proc.passedOn State.abs Proc.bare
      split_ifs <;> rfl
    · exact hpid
    · exact hown.view_kept hsame (kept_of_eq (by rw [hmem]))
  exact ⟨⟨⟨D, K, hown.same hsame (hmem ▸ hown.inv)⟩, habs ▸ hsane'⟩, rfl, habs⟩

/-- The dead child that `wait` took out of the table. -/
def reaped (q : Proc) : Proc :=
  { q with kstack := 0, state := .unused, pid := 0#32, parent := none, name := [], killed := false }

theorem Owns.waited (h : Owns L s D K) (hsane : s.abs.Sane)
    (hfind : (List.finRange nproc).find? (fun q => (s.proc q).parent = some p ∧ (s.proc q).state = .zombie) = some q)
    (hproc : t.proc = Function.update s.proc q (reaped (s.proc q))) (hpid : t.nextpid = s.nextpid)
    (hinv : Inv L False t.mem (D.erase (s.proc q).pgdir) (K.erase (s.proc q).kstack))
    (hk : Kept s.mem t.mem (D.erase (s.proc q).pgdir)) :
    Follows L s (s.abs.wait p) (.value (s.proc q).pid.toInt) t := by
  have hz : (s.proc q).state = .zombie := (by simpa using List.find?_some hfind : _ ∧ _).2
  have hused : (s.proc q).state ≠ .unused := by rw [hz]; exact fun h' => by cases h'
  have hother : ∀ r, r ≠ q → t.proc r = s.proc r := fun r hr => by rw [hproc, Function.update_of_ne hr]
  have hun : (t.proc q).state = .unused := by rw [hproc, Function.update_self]; rfl
  have hwait : s.abs.wait p = (.value (s.proc q).pid.toInt,
      { proc := Function.update s.abs.proc q (reaped (s.proc q)).bare
        nextpid := s.nextpid
        page := Function.update s.abs.page q fun _ => none }) := by
    unfold Private.wait
    rw [show (List.finRange nproc).find? (fun q => (s.abs.proc q).parent = some p ∧
      (s.abs.proc q).state = .zombie) = some q from hfind]
    rfl
  have habs : t.abs = (s.abs.wait p).2 := by
    rw [hwait]
    ext1
    · show (fun q => (t.proc q).bare) = _
      rw [hproc, bare_update]
      rfl
    · exact hpid
    · exact h.view_remove hused hother hun hk
  constructor
  case good =>
    refine ⟨⟨_, _, hinv, h.dirs.remove hused hother hun, h.kstacks.remove hused hother hun⟩, ?_⟩
    rw [habs]
    exact Private.Sane.wait hsane
  case out_eq => rw [hwait]
  case abs_eq => exact habs

/-- What `wait` comes to. -/
def waited : Option ℤ → Out
  | none => .blocked
  | some r => .value r

/-- **`wait`** gives back the memory of a dead child. -/
theorem wait_follows (h : Good L s) :
    Wp (wait L p) (fun r t => t.mem.fails = s.mem.fails ∧ Follows L s (s.abs.wait p) (waited r) t)
      (fun _ _ => False) s := by
  obtain ⟨⟨D, K, hown⟩, hsane⟩ := h
  unfold wait
  rw [wp_bind, wp_get]
  split
  · next q hq =>
    have hz : (s.proc q).state = .zombie := (by simpa using List.find?_some hq : _ ∧ _).2
    have hused : (s.proc q).state ≠ .unused := by rw [hz]; exact fun h' => by cases h'
    simp only [wp_bind, wp_paging, modifyProc, wp_modify, wp_pure, Function.update_self, Function.update_idem]
    refine (hown.inv.kfree_spec (hown.kstacks.mem q hused)).mono ?_ fun _ _ => False.elim
    rintro _ m₁ ⟨h₁, hk₁, hf₁, -⟩
    refine (h₁.freevm_spec (hown.dirs.mem q hused)).mono ?_ fun _ _ he => he.2
    rintro _ m₂ ⟨h₂, hk₂, hf₂, -⟩
    exact ⟨hf₂.trans hf₁, hown.waited hsane hq rfl rfl h₂ ((hk₁.mono (Finset.erase_subset _ _)).trans hk₂)⟩
  · next hnone =>
    have hwait : s.abs.wait p = if (∀ q, (s.proc q).parent ≠ some p) ∨ (s.proc p).killed then (.value (-1), s.abs)
        else (.blocked, s.abs) := by
      unfold Private.wait
      rw [show (List.finRange nproc).find? (fun q => (s.abs.proc q).parent = some p ∧
        (s.abs.proc q).state = .zombie) = none from hnone]
      rfl
    rw [wp_ite, wp_pure, wp_pure, hwait]
    refine ⟨fun hc => ⟨rfl, ?_⟩, fun hc => ⟨rfl, ?_⟩⟩
    · rw [if_pos hc]
      exact ⟨⟨⟨D, K, hown⟩, hsane⟩, rfl, rfl⟩
    · rw [if_neg hc]
      exact ⟨⟨⟨D, K, hown⟩, hsane⟩, rfl, rfl⟩

end OperatingSystems.CowFork.Processes
