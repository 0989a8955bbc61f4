import OperatingSystems.CowFork.Ledger

/-! # The changes of the ledger

One theorem for each way in which the code takes a page, gives one up or rewrites an entry: the ledger is
kept, for the new sets of live directories and of kernel pages, and what happens to the user memory of the
live directories.

* pages of the kernel: `take`, `scribble`, `drop`
* entries: `unmap`, `map`, `rewrite`, `rewriteKernel`, `share`, `copyOut`
* directories: `adopt` makes one live, `retire` undoes it -/

namespace OperatingSystems.CowFork

open Lib.RefCount

variable {L : Layout} {N : Prop} {m m' : Mem} {D K : Finset ℕ} {d d' v f g : ℕ} {w : Word}

namespace Mem

/-- `kmem` after `kalloc` took the first free page. -/
def taken (m : Mem) (f : ℕ) (next : List ℕ) : Mem :=
  { m with freelist := next, refCnt := Function.update m.refCnt f 1, freePages := m.freePages - 1 }

/-- One reference less. -/
def unref (m : Mem) (f : ℕ) : Mem :=
  { m with refCnt := Function.update m.refCnt f (m.refCnt f - 1) }

/-- One reference more. -/
def ref (m : Mem) (f : ℕ) : Mem :=
  { m with refCnt := Function.update m.refCnt f (m.refCnt f + 1) }

/-- The memory after `kfree` of a page with one reference. -/
def freed (m : Mem) (f : ℕ) : Mem where
  byte := (m.fill f 1).byte
  freelist := f :: m.freelist
  freePages := m.freePages + 1
  refCnt := Function.update m.refCnt f 0
  fails := m.fails

theorem byte_freed_of_ne (h : g ≠ f) : (m.freed f).byte g = m.byte g := Mem.byte_fill_of_ne h

theorem refCnt_freed_of_ne (h : g ≠ f) : (m.freed f).refCnt g = m.refCnt g := Function.update_of_ne h _ _

theorem refCnt_unref_of_ne (h : g ≠ f) : (m.unref f).refCnt g = m.refCnt g := Function.update_of_ne h _ _

theorem refCnt_ref_of_ne (h : g ≠ f) : (m.ref f).refCnt g = m.refCnt g := Function.update_of_ne h _ _

theorem refCnt_taken_of_ne {next : List ℕ} (h : g ≠ f) : (m.taken f next).refCnt g = m.refCnt g :=
  Function.update_of_ne h _ _

theorem refCnt_taken_self {next : List ℕ} : (m.taken f next).refCnt f = 1 := Function.update_self ..

end Mem

namespace Inv

theorem outside_of_ne (h : Inv L N m D K) (hf : f ∈ managed L)
    (hr : ∀ g, g ≠ f → m'.refCnt g = m.refCnt g) (g : ℕ) (hg : g ∉ managed L) (hg0 : g ≠ 0) :
    m'.refCnt g = 0 := by
  rw [hr g fun heq => hg (heq ▸ hf)]
  exact h.outside g hg hg0

/-! ### Pages of the kernel -/

/-- **A page from the free list** belongs to the kernel, and nobody held it. -/
theorem take (h : Inv L N m D K) {next : List ℕ} (hf : m.freelist = f :: next) :
    Inv L N (m.taken f next) D (insert f K) ∧ ∀ s, holds m D K s ≠ some f := by
  have hmem : f ∈ m.freelist := by simp [hf]
  have hnone : ∀ s, holds m D K s ≠ some f := h.counted.of_mem_free hmem
  have hK : f ∉ K := fun hK => hnone _ (holds_kern_self hK)
  have hman := ((h.counted.mem_free f).mp hmem).1
  refine ⟨h.of_same (sameTables_of_eq rfl) ?_ (h.outside_of_ne hman fun g hg => Mem.refCnt_taken_of_ne hg)
    ?_ ?_, hnone⟩
  · rw [holds_insert]
    have hc := h.counted
    rw [hf] at hc
    exact hc.alloc (if_neg hK)
  · have := h.freePages
    rw [hf, List.length_cons] at this
    exact Nat.sub_eq_of_eq_add this
  · intro s g hx hs
    rcases eq_or_ne g f with rfl | hg
    · exact Mem.refCnt_taken_self
    · rw [holds_insert] at hs
      rw [Mem.refCnt_taken_of_ne hg]
      refine h.exclusive s g hx ?_
      rcases eq_or_ne s (.kern f) with rfl | hne
      · rw [Function.update_self] at hs
        exact absurd (Option.some.inj hs).symm hg
      · rwa [Function.update_of_ne hne] at hs

theorem ne_zero_of_kern (h : Inv L N m D K) (hf : f ∈ K) : f ≠ 0 :=
  ne_zero_of_managed (h.managed_of_holds (holds_kern_self hf))

/-- **The kernel writes a page of its own.** -/
theorem scribble (h : Inv L N m D K) (m' : Mem) (hf : f ∈ K) (hb : ∀ g, g ≠ f → m'.byte g = m.byte g)
    (hr : m'.refCnt = m.refCnt) (hl : m'.freelist = m.freelist) (hp : m'.freePages = m.freePages) :
    Inv L N m' D K ∧ Kept m m' D := by
  have hs := sameTables_of_byte (h.offTables_kern hf) hb
  refine ⟨h.of_same hs (by rw [hr, hl]; exact h.counted) (by rw [hr]; exact h.outside)
    (by rw [hp, hl]; exact h.freePages) ?_,
    kept_of_same hs (hb 0 (h.ne_zero_of_kern hf).symm) fun d hd v hv g hg => hb g (h.ne_of_kern hf hg (by simp))⟩
  intro s g hx hg
  rw [hr]
  exact h.exclusive s g hx hg

/-- **The kernel frees a page of its own.** -/
theorem drop (h : Inv L N m D K) (hf : f ∈ K) :
    Inv L N (m.freed f) D (K.erase f) ∧ Kept m (m.freed f) D := by
  have hs : SameTables m (m.freed f) D :=
    sameTables_of_byte (h.offTables_kern hf) fun g hg => Mem.byte_freed_of_ne hg
  have hman := h.managed_of_holds (holds_kern_self hf)
  refine ⟨h.of_same hs ?_ (h.outside_of_ne hman fun g hg => Mem.refCnt_freed_of_ne hg)
    (congrArg (· + 1) h.freePages) ?_,
    kept_of_same hs (Mem.byte_freed_of_ne (h.ne_zero_of_kern hf).symm) fun d hd v hv g hg =>
      Mem.byte_freed_of_ne (h.ne_of_kern hf hg (by simp))⟩
  · rw [holds_erase]
    exact h.counted.releaseLast (holds_kern_self hf) (h.refCnt_kern hf)
  · intro s g hx hg
    rw [holds_erase] at hg
    rcases eq_or_ne s (.kern f) with rfl | hne
    · rw [Function.update_self] at hg
      cases hg
    · rw [Function.update_of_ne hne] at hg
      rw [Mem.refCnt_freed_of_ne (h.ne_of_kern hf hg hne)]
      exact h.exclusive s g hx hg

/-! ### Entries -/

/-- The entry for user page `v`, where the live directory `d` has it. -/
theorem entry_user (h : Inv L N m D K) (hd : d ∈ D) (hv : v < 160) :
    entry m d v = m.word (pageOf (m.word d 0)) v := by
  rw [entry, Nat.div_eq_of_lt (by omega), Nat.mod_eq_of_lt (by omega), if_pos (h.root d hd)]

theorem tablesPut_user (h : Inv L N m D K) {n : Mem} (hs : SameTables m n D) (hd : d ∈ D) (hv : v < 160) :
    TablesPut m (n.setWord (pageOf (m.word d 0)) v w) D d v w := by
  have hdiv : v / 1024 = 0 := Nat.div_eq_of_lt (by omega)
  have hmod : v % 1024 = v := Nat.mod_eq_of_lt (by omega)
  have ht := h.tablesPut (w := w) hs hd (v := v) (by omega) (by rw [hdiv]; exact h.root d hd)
  rwa [hdiv, hmod] at ht

/-- The pages of user entries are not where the entries are. -/
theorem byte_user (h : Inv L N m D K) {n : Mem} (hd : d ∈ D) {e u i : ℕ}
    (hg : holds m D K (.user e u) = some g) :
    (n.setWord (pageOf (m.word d 0)) i w).byte g = n.byte g :=
  Mem.byte_setWord_of_ne (h.user_ne_table hd (by omega) (h.root d hd) hg)

theorem byte_zero_user (h : Inv L N m D K) {n : Mem} (hd : d ∈ D) {i : ℕ} :
    (n.setWord (pageOf (m.word d 0)) i w).byte 0 = n.byte 0 :=
  Mem.byte_setWord_of_ne (h.table d hd 0 (by omega) (h.root d hd)).symm

/-- What the live directories show after an entry was written, where nothing else was. -/
theorem imagePut_setWord (h : Inv L N m D K) {n : Mem} (hn : n.byte = m.byte) (hd : d ∈ D) (hv : v < 160)
    (hw : ∀ g, held w = some g → g ≠ pageOf (m.word d 0)) :
    ImagePut m (n.setWord (pageOf (m.word d 0)) v w) D d v (shown m w) := by
  have ht := h.tablesPut_user (w := w) (sameTables_of_eq hn) hd hv
  have himg := imagePut_of_put (K := K) ht (by rw [h.byte_zero_user hd, hn])
    fun e _ u _ _ g hg => by rw [h.byte_user hd hg, hn]
  have hshown : shown (n.setWord (pageOf (m.word d 0)) v w) w = shown m w :=
    shown_congr (by rw [h.byte_zero_user hd, hn]) fun g hg => by rw [Mem.byte_setWord_of_ne (hw g hg), hn]
  rwa [hshown] at himg

/-- **A user entry gives up a page that others share**: the count goes down, and the entry holds nothing. -/
theorem unmap (h : Inv L N m D K) {n : Mem} (hn : SameTables m n D) (hr : n.refCnt = m.refCnt)
    (hl : n.freelist = m.freelist) (hp : n.freePages = m.freePages) (hd : d ∈ D) (hv : v < 160)
    (hs : holds m D K (.user d v) = some f) (hlt : 1 < m.refCnt f) (hw : held w = none)
    (hu : present w → userOk w) (hz : present w → pageOf w = 0 → N) :
    Inv L N ((n.unref f).setWord (pageOf (m.word d 0)) v w) D K := by
  have hcnt : (n.unref f).refCnt = Function.update m.refCnt f (m.refCnt f - 1) := by
    show Function.update n.refCnt f (n.refCnt f - 1) = _
    rw [hr]
  have ht : TablesPut m ((n.unref f).setWord (pageOf (m.word d 0)) v w) D d v w :=
    h.tablesPut_user hn hd hv
  refine h.put hd hv ht subset_rfl ?_ ?_ ?_ ?_ (by simp [hw]) hu hz (by simp [hw])
  · rw [holds_of_put hd hv ht, hw, Mem.refCnt_setWord, hcnt, Mem.freelist_setWord]
    show Counted _ _ n.freelist _
    rw [hl]
    exact h.counted.release hs hlt
  · refine h.outside_of_ne (h.managed_of_holds hs) fun g hg => ?_
    rw [Mem.refCnt_setWord, hcnt, Function.update_of_ne hg]
  · show n.freePages = n.freelist.length
    rw [hp, hl]
    exact h.freePages
  · intro s g _ hx hg _
    have hone := h.exclusive s g hx hg
    have hne : g ≠ f := by
      rintro rfl
      omega
    rw [Mem.refCnt_setWord, hcnt, Function.update_of_ne hne]
    exact hone

/-- **A user page that nobody else has is unmapped** and freed. -/
theorem unmapLast (h : Inv L N m D K) (hd : d ∈ D) (hv : v < 160) (hs : holds m D K (.user d v) = some f)
    (hone : m.refCnt f = 1) :
    Inv L N ((m.freed f).setWord (pageOf (m.word d 0)) v 0#32) D K ∧
      ImagePut m ((m.freed f).setWord (pageOf (m.word d 0)) v 0#32) D d v none := by
  have hman := h.managed_of_holds hs
  have hheld : held 0#32 = none := held_of_absent not_present_zero
  have ht := h.tablesPut_user (w := 0#32) (n := m.freed f)
    (sameTables_of_byte (h.offTables_user hs) fun g hg => Mem.byte_freed_of_ne hg) hd hv
  refine ⟨h.put hd hv ht subset_rfl ?_ (h.outside_of_ne hman fun g hg => Mem.refCnt_freed_of_ne hg)
    (congrArg (· + 1) h.freePages) ?_ (by simp [hheld]) (by simp) (by simp) (by simp [hheld]),
    imagePut_of_put (K := K) ht ?_ fun e he u hu hne g hg => ?_⟩
  · rw [holds_of_put hd hv ht, hheld]
    exact h.counted.releaseLast hs hone
  · intro s g hne hx hg _
    have hg' : g ≠ f := by
      rintro rfl
      exact hne (h.counted.unique hone hg hs)
    exact (Mem.refCnt_freed_of_ne hg').trans (h.exclusive s g hx hg)
  · rw [h.byte_zero_user hd]
    exact Mem.byte_freed_of_ne (ne_zero_of_managed hman).symm
  · rw [h.byte_user hd hg]
    refine Mem.byte_freed_of_ne ?_
    rintro rfl
    have heq := h.counted.unique hone hg hs
    simp only [Slot.user.injEq] at heq
    exact hne heq

/-- **A page of the kernel is mapped** as a user page, where the entry held none. -/
theorem map (h : Inv L N m D K) {n : Mem} (hn : n.byte = m.byte) (hr : ∀ g, g ≠ 0 → n.refCnt g = m.refCnt g)
    (hl : n.freelist = m.freelist) (hp : n.freePages = m.freePages) (hd : d ∈ D) (hv : v < 160) (hf : f ∈ K)
    (hnone : held (entry m d v) = none) (hw : held w = some f) (hu : userOk w) :
    Inv L N (n.setWord (pageOf (m.word d 0)) v w) D (K.erase f) ∧
      ImagePut m (n.setWord (pageOf (m.word d 0)) v w) D d v (some (m.byte f)) := by
  have ht := h.tablesPut_user (w := w) (sameTables_of_eq hn) hd hv
  have hs : holds m D K (.user d v) = none := by rw [holds, if_pos ⟨hd, hv⟩, hnone]
  have hman : ∀ g ∈ managed L, (n.setWord (pageOf (m.word d 0)) v w).refCnt g = m.refCnt g := fun g hg =>
    hr g (ne_zero_of_managed hg)
  obtain ⟨hpres, -, hpage⟩ := held_eq_some.mp hw
  refine ⟨h.put hd hv ht (Finset.erase_subset _ _) ?_ (fun g hg hg0 => ?_) ?_ ?_ ?_ (fun _ => hu) ?_ ?_, ?_⟩
  · rw [holds_of_put hd hv ht, holds_erase, hw, Mem.freelist_setWord, hl]
    exact (h.counted.move (holds_kern_self hf) hs).of_count hman
  · exact (hr g hg0).trans (h.outside g hg hg0)
  · rw [Mem.freePages_setWord, Mem.freelist_setWord, hp, hl]
    exact h.freePages
  · intro s g _ hx hg _
    exact (hman g (h.managed_of_holds hg)).trans (h.exclusive s g hx hg)
  · intro g hg _
    rw [hw] at hg
    cases hg
    exact (hman f (h.managed_of_holds (holds_kern_self hf))).trans (h.refCnt_kern hf)
  · exact fun _ h0 => absurd (hpage.symm.trans h0) (h.ne_zero_of_kern hf)
  · intro g hg e u he
    rw [hw] at hg
    cases hg
    cases h.kern_unique hf he
  · have himg := h.imagePut_setWord (w := w) hn hd hv fun g hg heq => by
      rw [hw] at hg
      cases hg
      have hs := h.holds_table_self hd (by omega : 0 < 1024) (h.root d hd)
      rw [← heq] at hs
      cases h.kern_unique hf hs
    rwa [shown_of_present hpres, hpage] at himg

/-- **The bits of a user entry are rewritten**; the page stays. -/
theorem rewrite (h : Inv L N m D K) (hd : d ∈ D) (hv : v < 160) (hpres : present w ↔ present (entry m d v))
    (hpage : pageOf w = pageOf (entry m d v)) (hu : userOk w)
    (hw : ∀ f, held w = some f → writable w → m.refCnt f = 1) :
    Inv L N (m.setWord (pageOf (m.word d 0)) v w) D K ∧
      Kept m (m.setWord (pageOf (m.word d 0)) v w) D := by
  have ht := h.tablesPut_user (w := w) (n := m) .refl hd hv
  have hheld : held w = held (entry m d v) := by
    unfold held
    simp only [hpres, hpage]
  have hholds : holds m D K (.user d v) = held w := by rw [holds, if_pos ⟨hd, hv⟩, hheld]
  refine ⟨h.put hd hv ht subset_rfl ?_ h.outside h.freePages (fun s g _ hx hg _ => h.exclusive s g hx hg) hw
    (fun _ => hu) (fun hp h0 => h.frame d hd v hv (hpres.mp hp) (hpage ▸ h0)) (fun g hg e u he => ?_), ?_⟩
  · rw [holds_of_put hd hv ht, ← hholds, Function.update_eq_self]
    exact h.counted
  · exact h.aligned e u d v g he (hholds.trans hg)
  · have himg := h.imagePut_setWord (w := w) rfl hd hv fun g hg =>
      h.user_ne_table hd (by omega) (h.root d hd) (hholds.trans hg)
    refine ImagePut.kept (d := d) (v := v) ?_
    convert himg using 1
    unfold image shown
    simp only [hpres, hpage]

/-- **An entry of the kernel part is rewritten.** -/
theorem rewriteKernel (h : Inv L N m D K) (hd : d ∈ D) (hlo : 160 ≤ v) (hv : v < 2 ^ 20)
    (hp : present (m.word d (v / 1024)))
    (hw : present w → ¬ writable w → pageOf w ∉ managed L ∧ pageOf w ≠ 0) :
    Inv L N (m.setWord (pageOf (m.word d (v / 1024))) (v % 1024) w) D K ∧
      Kept m (m.setWord (pageOf (m.word d (v / 1024))) (v % 1024) w) D := by
  have ht := h.tablesPut (w := w) (n := m) .refl hd hv hp
  have huser : ∀ e ∈ D, ∀ u < 160,
      entry (m.setWord (pageOf (m.word d (v / 1024))) (v % 1024) w) e u = entry m e u := by
    intro e he u hu
    rw [(ht e he).2 u (by omega), if_neg (by omega)]
  have hholds : holds (m.setWord (pageOf (m.word d (v / 1024))) (v % 1024) w) D K = holds m D K := by
    funext s
    rcases s with g | e | ⟨e, j⟩ | ⟨e, u⟩
    · rfl
    · rfl
    · simp only [holds]
      split_ifs with he
      · rw [(ht e he.1).1 j he.2]
      · rfl
    · simp only [holds]
      split_ifs with he
      · rw [huser e he.1 u he.2]
      · rfl
  refine ⟨?_, fun e he u hu => ?_⟩
  · constructor
    case counted => rw [hholds]; exact h.counted
    case outside => exact h.outside
    case freePages => exact h.freePages
    case exclusive =>
      intro s g hx hg
      rw [hholds] at hg
      refine h.exclusive s g ?_ hg
      rcases s with _ | _ | _ | ⟨e, u⟩
      · trivial
      · trivial
      · trivial
      · obtain ⟨⟨he, hu⟩, -⟩ := holds_user.mp hg
        rwa [Exclusive, huser e he u hu] at hx
    case userAccess =>
      intro e he u hu
      rw [huser e he u hu]
      exact h.userAccess e he u hu
    case root =>
      intro e he
      rw [(ht e he).1 0 (by omega)]
      exact h.root e he
    case rootUser =>
      intro e he
      rw [(ht e he).1 0 (by omega)]
      exact h.rootUser e he
    case table =>
      intro e he j hj
      rw [(ht e he).1 j hj]
      exact h.table e he j hj
    case frame =>
      intro e he u hu
      rw [huser e he u hu]
      exact h.frame e he u hu
    case kernelRo =>
      intro e he u hu hle
      rw [(ht e he).2 u hu]
      split_ifs with heq
      · exact hw
      · exact h.kernelRo e he u hu hle
    case aligned => rw [hholds]; exact h.aligned
  · have hne := (h.table d hd _ (by omega) hp).symm
    rw [image, image, huser e he u hu]
    refine shown_congr (Mem.byte_setWord_of_ne hne) fun g hg => Mem.byte_setWord_of_ne ?_
    have hheld : holds m D K (.user e u) = some g := by rwa [holds, if_pos ⟨he, hu⟩]
    exact h.user_ne_table hd (by omega) hp hheld

/-- **A read-only page is shared** with the entry of another directory for the same page. -/
theorem share (h : Inv L N m D K) (hd : d ∈ D) (hd' : d' ∈ D) (hv : v < 160)
    (hro : ¬ writable (entry m d v)) (habs : ¬ present (entry m d' v)) (hs : held (entry m d v) = some f)
    (hw : held w = some f) (hu : userOk w) (hwro : ¬ writable w) :
    Inv L N ((m.setWord (pageOf (m.word d' 0)) v w).ref f) D K ∧
      ImagePut m ((m.setWord (pageOf (m.word d' 0)) v w).ref f) D d' v (shown m w) := by
  have ht : TablesPut m ((m.setWord (pageOf (m.word d' 0)) v w).ref f) D d' v w :=
    h.tablesPut_user (w := w) (n := m) .refl hd' hv
  have hheld : holds m D K (.user d v) = some f := by rw [holds, if_pos ⟨hd, hv⟩, hs]
  have hnone : holds m D K (.user d' v) = none := by rw [holds, if_pos ⟨hd', hv⟩, held_of_absent habs]
  have hman := h.managed_of_holds hheld
  refine ⟨h.put hd' hv ht subset_rfl ?_ (h.outside_of_ne hman fun g hg => Mem.refCnt_ref_of_ne hg) h.freePages
    ?_ (fun _ _ hww => absurd hww hwro) (fun _ => hu) ?_ ?_, ?_⟩
  · rw [holds_of_put hd' hv ht, hw]
    exact h.counted.retain hnone hheld
  · intro s g _ hx hg _
    have hne : g ≠ f := by
      rintro rfl
      cases h.unique hx hg hheld
      exact hro hx
    exact (Mem.refCnt_ref_of_ne hne).trans (h.exclusive s g hx hg)
  · intro _ h0
    obtain ⟨-, hf, hpage⟩ := held_eq_some.mp hw
    exact absurd (hpage.symm.trans h0) hf
  · intro g hg e u he
    rw [hw] at hg
    cases hg
    exact h.aligned e u d v _ he hheld
  · exact h.imagePut_setWord (n := m) rfl hd' hv fun g hg => by
      rw [hw] at hg
      cases hg
      exact h.user_ne_table hd' (by omega) (h.root d' hd') hheld

/-- **An entry that holds nothing is rewritten** to another one that holds nothing: page 0 is not counted. -/
theorem putNull (h : Inv L N m D K) {n : Mem} (hn : SameTables m n D) (hr : ∀ g, g ≠ 0 → n.refCnt g = m.refCnt g)
    (hl : n.freelist = m.freelist) (hp : n.freePages = m.freePages) (hd : d ∈ D) (hv : v < 160)
    (hnone : held (entry m d v) = none) (hw : held w = none) (hu : userOk w) (hN : N) :
    Inv L N (n.setWord (pageOf (m.word d 0)) v w) D K := by
  have ht := h.tablesPut_user (w := w) hn hd hv
  have hholds : holds m D K (.user d v) = held w := by rw [holds, if_pos ⟨hd, hv⟩, hnone, hw]
  have hman : ∀ g ∈ managed L, (n.setWord (pageOf (m.word d 0)) v w).refCnt g = m.refCnt g := fun g hg =>
    hr g (ne_zero_of_managed hg)
  refine h.put hd hv ht subset_rfl ?_ (fun g hg hg0 => ?_) ?_ ?_ (by simp [hw]) (fun _ => hu) (fun _ _ => hN)
    (by simp [hw])
  · rw [holds_of_put hd hv ht, ← hholds, Function.update_eq_self, Mem.freelist_setWord, hl]
    exact h.counted.of_count hman
  · exact (hr g hg0).trans (h.outside g hg hg0)
  · rw [Mem.freePages_setWord, Mem.freelist_setWord, hp, hl]
    exact h.freePages
  · intro s g _ hx hg _
    exact (hman g (h.managed_of_holds hg)).trans (h.exclusive s g hx hg)

/-- An entry with page 0 is shared; nobody counts it. -/
theorem shareNull (h : Inv L N m D K) (hd' : d' ∈ D) (hv : v < 160) (habs : ¬ present (entry m d' v))
    (hw : pageOf w = 0) (hu : userOk w) (hN : N) :
    Inv L N ((m.setWord (pageOf (m.word d' 0)) v w).ref 0) D K ∧
      ImagePut m ((m.setWord (pageOf (m.word d' 0)) v w).ref 0) D d' v (shown m w) := by
  have hheld : held w = none := held_of_null hw
  refine ⟨h.putNull (n := m.ref 0) (sameTables_of_eq rfl) (fun g hg => Mem.refCnt_ref_of_ne hg) rfl rfl hd' hv
    (held_of_absent habs) hheld hu hN, ?_⟩
  exact h.imagePut_setWord (n := m) rfl hd' hv fun g hg => by simp [hheld] at hg

/-- **A shared page is replaced** by a page of the kernel in one entry. -/
theorem copyOut (h : Inv L N m D K) (hd : d ∈ D) (hv : v < 160) (hs : holds m D K (.user d v) = some f)
    (hlt : 1 < m.refCnt f) (hg : g ∈ K) (hw : held w = some g) (hu : userOk w) :
    Inv L N ((m.unref f).setWord (pageOf (m.word d 0)) v w) D (K.erase g) ∧
      ImagePut m ((m.unref f).setWord (pageOf (m.word d 0)) v w) D d v (some (m.byte g)) := by
  have ht := h.tablesPut_user (w := w) (n := m.unref f) (sameTables_of_eq rfl) hd hv
  have hfg : g ≠ f := by
    rintro rfl
    cases h.kern_unique hg hs
  obtain ⟨hpres, -, hpage⟩ := held_eq_some.mp hw
  refine ⟨h.put hd hv ht (Finset.erase_subset _ _) ?_
    (h.outside_of_ne (h.managed_of_holds hs) fun k hk => Mem.refCnt_unref_of_ne hk) h.freePages ?_ ?_
    (fun _ => hu) (fun _ h0 => absurd (hpage.symm.trans h0) (h.ne_zero_of_kern hg)) ?_, ?_⟩
  · have hc := (h.counted.release hs hlt).move (s := .kern g) (t := .user d v) (a := g)
      (by rw [Function.update_of_ne (by simp)]; exact holds_kern_self hg) (Function.update_self ..)
    rw [Function.update_comm (by simp : Slot.kern g ≠ .user d v), Function.update_idem] at hc
    rw [holds_of_put hd hv ht, holds_erase, hw, Function.update_comm (by simp)]
    exact hc
  · intro s k _ hx hk _
    have hone := h.exclusive s k hx hk
    have hne : k ≠ f := by
      rintro rfl
      omega
    exact (Mem.refCnt_unref_of_ne hne).trans hone
  · intro k hk _
    rw [hw] at hk
    cases hk
    exact (Mem.refCnt_unref_of_ne hfg).trans (h.refCnt_kern hg)
  · intro k hk e u he
    rw [hw] at hk
    cases hk
    cases h.kern_unique hg he
  · have himg := h.imagePut_setWord (w := w) (n := m.unref f) rfl hd hv fun k hk heq => by
      rw [hw] at hk
      cases hk
      have hs' := h.holds_table_self hd (by omega : 0 < 1024) (h.root d hd)
      rw [← heq] at hs'
      cases h.kern_unique hg hs'
    rwa [shown_of_present hpres, hpage] at himg

end Inv

/-! ### Directories -/

/-- The tables of a directory. -/
def tablePages (m : Mem) (d : ℕ) : Finset ℕ :=
  ((Finset.range 1024).filter fun j => present (m.word d j)).image fun j => pageOf (m.word d j)

theorem mem_tablePages : f ∈ tablePages m d ↔ ∃ j < 1024, present (m.word d j) ∧ pageOf (m.word d j) = f := by
  simp [tablePages, and_assoc]

/-- The pages of a directory: its tables and its own. -/
def dirPages (m : Mem) (d : ℕ) : Finset ℕ := insert d (tablePages m d)

/-- A directory apart: it has each of its pages once, none of them in `K`, and maps no user page. -/
structure Apart (m : Mem) (D K : Finset ℕ) (d : ℕ) : Prop where
  notLive : d ∉ D
  disjoint : ∀ f ∈ dirPages m d, f ∉ K
  table_ne : ∀ j < 1024, present (m.word d j) → pageOf (m.word d j) ≠ d
  table_ne_zero : ∀ j < 1024, present (m.word d j) → pageOf (m.word d j) ≠ 0
  table_inj : ∀ i < 1024, ∀ j < 1024, present (m.word d i) → present (m.word d j) →
    pageOf (m.word d i) = pageOf (m.word d j) → i = j
  empty : ∀ v < 160, ¬ present (entry m d v)

/-- The slot that has the page of slot `s` when `d` is not live. -/
def Slot.retired (m : Mem) (d : ℕ) : Slot → Slot
  | .dir e => if e = d then .kern d else .dir e
  | .table e j => if e = d then .kern (pageOf (m.word d j)) else .table e j
  | s => s

/-- A slot of `d` passes its page to the kernel, any other slot keeps it. -/
theorem Slot.retired_cases {s : Slot} (hs : holds m (insert d D) K s = some f) :
    (s.retired m d = .kern f ∧ f ∈ dirPages m d ∧ (s = .dir d ∨ ∃ j, s = .table d j)) ∨
      (s.retired m d = s ∧ s ≠ .dir d ∧ ∀ j, s ≠ .table d j) := by
  rcases s with g | e | ⟨e, j⟩ | ⟨e, v⟩
  · exact .inr ⟨rfl, by simp, by simp⟩
  · obtain ⟨-, rfl⟩ := holds_dir.mp hs
    rcases eq_or_ne e d with rfl | hed
    · exact .inl ⟨if_pos rfl, Finset.mem_insert_self _ _, .inl rfl⟩
    · exact .inr ⟨if_neg hed, by simpa using hed, by simp⟩
  · obtain ⟨⟨-, hj⟩, hp, -, rfl⟩ := holds_table.mp hs
    rcases eq_or_ne e d with rfl | hed
    · exact .inl ⟨if_pos rfl, Finset.mem_insert_of_mem (mem_tablePages.mpr ⟨j, hj, hp, rfl⟩), .inr ⟨j, rfl⟩⟩
    · exact .inr ⟨if_neg hed, by simp, by simp [hed]⟩
  · exact .inr ⟨rfl, by simp, by simp⟩

namespace Apart

/-- A slot that keeps its page has it when `d` is not live, too. -/
theorem holds_of_ne (h : Apart m D K d) {s : Slot} (hs : holds m (insert d D) K s = some f)
    (hdir : s ≠ .dir d) (htab : ∀ j, s ≠ .table d j) : holds m D (K ∪ dirPages m d) s = some f := by
  rcases s with g | e | ⟨e, j⟩ | ⟨e, v⟩
  · obtain ⟨hg, rfl⟩ := holds_kern.mp hs
    exact holds_kern.mpr ⟨Finset.mem_union_left _ hg, rfl⟩
  · obtain ⟨he, rfl⟩ := holds_dir.mp hs
    exact holds_dir.mpr ⟨Finset.mem_of_mem_insert_of_ne he (by simpa using hdir), rfl⟩
  · obtain ⟨⟨he, hj⟩, hp⟩ := holds_table.mp hs
    refine holds_table.mpr ⟨⟨Finset.mem_of_mem_insert_of_ne he fun hed => ?_, hj⟩, hp⟩
    exact htab j (by rw [hed])
  · obtain ⟨⟨he, hv⟩, hp⟩ := holds_user.mp hs
    refine holds_user.mpr ⟨⟨Finset.mem_of_mem_insert_of_ne he fun hed => ?_, hv⟩, hp⟩
    exact h.empty v hv (hed ▸ hp.1)

/-- The slot of `d` that holds a page. -/
theorem own_unique (h : Apart m D K d) {s t : Slot} (hs : holds m (insert d D) K s = some f)
    (ht : holds m (insert d D) K t = some f) (hsd : s = .dir d ∨ ∃ j, s = .table d j)
    (htd : t = .dir d ∨ ∃ j, t = .table d j) : s = t := by
  rcases hsd with rfl | ⟨i, rfl⟩ <;> rcases htd with rfl | ⟨j, rfl⟩
  · rfl
  · obtain ⟨-, rfl⟩ := holds_dir.mp hs
    obtain ⟨⟨-, hj⟩, hp, -, heq⟩ := holds_table.mp ht
    exact absurd heq (h.table_ne j hj hp)
  · obtain ⟨-, rfl⟩ := holds_dir.mp ht
    obtain ⟨⟨-, hi⟩, hp, -, heq⟩ := holds_table.mp hs
    exact absurd heq (h.table_ne i hi hp)
  · obtain ⟨⟨-, hi⟩, hp, -, rfl⟩ := holds_table.mp hs
    obtain ⟨⟨-, hj⟩, hp', -, heq⟩ := holds_table.mp ht
    rw [h.table_inj i hi j hj hp hp' heq.symm]

/-- **The pages of a directory apart** are held as often when it is live as when they are the kernel's. -/
theorem refs_eq (h : Apart m D K d) :
    refs (holds m D (K ∪ dirPages m d)) f = refs (holds m (insert d D) K) f := by
  have hkern : ∀ {s : Slot}, holds m (insert d D) K s = some f → s = .kern f → f ∉ dirPages m d := by
    rintro s hs rfl hf
    exact h.disjoint f hf (holds_kern.mp hs).1
  refine refs_rename (Slot.retired m d) (fun s hs => ?_) (fun s t hs ht heq => ?_) fun t ht => ?_
  · rcases Slot.retired_cases hs with ⟨hr, hf, -⟩ | ⟨hr, hdir, htab⟩
    · rw [hr]
      exact holds_kern.mpr ⟨Finset.mem_union_right _ hf, rfl⟩
    · rw [hr]
      exact h.holds_of_ne hs hdir htab
  · rcases Slot.retired_cases hs with ⟨hr, hf, hsd⟩ | ⟨hr, -⟩ <;>
      rcases Slot.retired_cases ht with ⟨hr', hf', htd⟩ | ⟨hr', -⟩ <;> rw [hr, hr'] at heq
    · exact h.own_unique hs ht hsd htd
    · exact absurd hf (hkern ht heq.symm)
    · exact absurd hf' (hkern hs heq)
    · exact heq
  · rcases t with g | e | ⟨e, j⟩ | ⟨e, v⟩
    · obtain ⟨hg, rfl⟩ := holds_kern.mp ht
      rcases Finset.mem_union.mp hg with hgK | hgd
      · exact ⟨.kern g, holds_kern.mpr ⟨hgK, rfl⟩, rfl⟩
      · rcases Finset.mem_insert.mp hgd with rfl | hgt
        · exact ⟨.dir g, holds_dir.mpr ⟨Finset.mem_insert_self _ _, rfl⟩, if_pos rfl⟩
        · obtain ⟨j, hj, hp, rfl⟩ := mem_tablePages.mp hgt
          exact ⟨.table d j, holds_table.mpr ⟨⟨Finset.mem_insert_self _ _, hj⟩, hp, h.table_ne_zero j hj hp, rfl⟩,
            if_pos rfl⟩
    · obtain ⟨he, rfl⟩ := holds_dir.mp ht
      have hed : e ≠ d := fun heq => h.notLive (heq ▸ he)
      exact ⟨.dir e, holds_dir.mpr ⟨Finset.mem_insert_of_mem he, rfl⟩, if_neg hed⟩
    · obtain ⟨⟨he, hj⟩, hp, hf, rfl⟩ := holds_table.mp ht
      have hed : e ≠ d := fun heq => h.notLive (heq ▸ he)
      exact ⟨.table e j, holds_table.mpr ⟨⟨Finset.mem_insert_of_mem he, hj⟩, hp, hf, rfl⟩, if_neg hed⟩
    · obtain ⟨⟨he, hv⟩, hp⟩ := holds_user.mp ht
      exact ⟨.user e v, holds_user.mpr ⟨⟨Finset.mem_insert_of_mem he, hv⟩, hp⟩, rfl⟩

end Apart

namespace Inv

/-- **A directory becomes live**, and has its pages itself. -/
theorem adopt (h : Inv L N m D (K ∪ dirPages m d)) (ha : Apart m D K d) (hroot : present (m.word d 0))
    (hflags : userOk (m.word d 0) ∧ writable (m.word d 0))
    (hro : ∀ v < 2 ^ 20, 160 ≤ v → present (entry m d v) → ¬ writable (entry m d v) →
      pageOf (entry m d v) ∉ managed L ∧ pageOf (entry m d v) ≠ 0) : Inv L N m (insert d D) K := by
  have hkern : ∀ {f}, f ∈ dirPages m d → f ∈ K ∪ dirPages m d := Finset.mem_union_right _
  have huser : ∀ {e v f}, holds m (insert d D) K (.user e v) = some f →
      holds m D (K ∪ dirPages m d) (.user e v) = some f := fun hs =>
    ha.holds_of_ne hs (by simp) (by simp)
  constructor
  case counted =>
    refine h.counted.of_refs (fun f => ha.refs_eq.symm) fun s f hs => ?_
    rcases Slot.retired_cases hs with ⟨-, hf, -⟩ | ⟨-, hdir, htab⟩
    · exact h.managed_of_holds (holds_kern_self (hkern hf))
    · exact h.managed_of_holds (ha.holds_of_ne hs hdir htab)
  case outside => exact h.outside
  case freePages => exact h.freePages
  case exclusive =>
    intro s f hx hs
    rcases Slot.retired_cases hs with ⟨-, hf, -⟩ | ⟨-, hdir, htab⟩
    · exact h.refCnt_kern (hkern hf)
    · exact h.exclusive s f hx (ha.holds_of_ne hs hdir htab)
  case userAccess =>
    intro e he v hv hp
    rcases Finset.mem_insert.mp he with rfl | he
    · exact absurd hp (ha.empty v hv)
    · exact h.userAccess e he v hv hp
  case root =>
    intro e he
    rcases Finset.mem_insert.mp he with rfl | he
    · exact hroot
    · exact h.root e he
  case rootUser =>
    intro e he
    rcases Finset.mem_insert.mp he with rfl | he
    · exact hflags
    · exact h.rootUser e he
  case table =>
    intro e he
    rcases Finset.mem_insert.mp he with rfl | he
    · exact ha.table_ne_zero
    · exact h.table e he
  case frame =>
    intro e he v hv hp
    rcases Finset.mem_insert.mp he with rfl | he
    · exact absurd hp (ha.empty v hv)
    · exact h.frame e he v hv hp
  case kernelRo =>
    intro e he
    rcases Finset.mem_insert.mp he with rfl | he
    · exact hro
    · exact h.kernelRo e he
  case aligned => exact fun e v e' v' f h1 h2 => h.aligned e v e' v' f (huser h1) (huser h2)

/-- **A live directory without user pages is retired**: its pages are the kernel's. -/
theorem retire (h : Inv L N m (insert d D) K) (hd : d ∉ D) (hempty : ∀ v < 160, ¬ present (entry m d v)) :
    Apart m D K d ∧ Inv L N m D (K ∪ dirPages m d) := by
  have hself : d ∈ insert d D := Finset.mem_insert_self _ _
  have hown : ∀ {f}, f ∈ dirPages m d →
      ∃ s, holds m (insert d D) K s = some f ∧ Exclusive m s ∧ ∀ g, s ≠ .kern g := by
    intro f hf
    rcases Finset.mem_insert.mp hf with rfl | hf
    · exact ⟨.dir f, holds_dir_self hself, trivial, by simp⟩
    · obtain ⟨j, hj, hp, rfl⟩ := mem_tablePages.mp hf
      exact ⟨.table d j, h.holds_table_self hself hj hp, trivial, by simp⟩
  have ha : Apart m D K d := by
    constructor
    case notLive => exact hd
    case disjoint =>
      intro f hf hK
      obtain ⟨s, hs, -, hne⟩ := hown hf
      exact hne f (h.kern_unique hK hs)
    case table_ne =>
      intro j hj hp heq
      exact h.table_ne_dir hself hj hp hself heq.symm
    case table_ne_zero => exact h.table d hself
    case table_inj =>
      intro i hi j hj hp hp' heq
      have hs := h.table_unique hself hj hp' (heq ▸ h.holds_table_self hself hi hp)
      cases hs
      rfl
    case empty => exact hempty
  have hold : ∀ {s f}, (∀ g, s ≠ .kern g) → holds m D (K ∪ dirPages m d) s = some f →
      holds m (insert d D) K s = some f := by
    rintro (g | e | ⟨e, j⟩ | ⟨e, v⟩) f hne hs
    · exact absurd rfl (hne g)
    · obtain ⟨he, rfl⟩ := holds_dir.mp hs
      exact holds_dir.mpr ⟨Finset.mem_insert_of_mem he, rfl⟩
    · obtain ⟨⟨he, hj⟩, hp⟩ := holds_table.mp hs
      exact holds_table.mpr ⟨⟨Finset.mem_insert_of_mem he, hj⟩, hp⟩
    · obtain ⟨⟨he, hv⟩, hp⟩ := holds_user.mp hs
      exact holds_user.mpr ⟨⟨Finset.mem_insert_of_mem he, hv⟩, hp⟩
  have hkern : ∀ {g f}, holds m D (K ∪ dirPages m d) (.kern g) = some f →
      ∃ s, holds m (insert d D) K s = some f ∧ Exclusive m s := by
    intro g f hs
    obtain ⟨hg, rfl⟩ := holds_kern.mp hs
    rcases Finset.mem_union.mp hg with hK | hg
    · exact ⟨.kern g, holds_kern_self hK, trivial⟩
    · obtain ⟨s, hs, hx, -⟩ := hown hg
      exact ⟨s, hs, hx⟩
  refine ⟨ha, ?_⟩
  constructor
  case counted =>
    refine h.counted.of_refs (fun f => ha.refs_eq) fun s f hs => ?_
    rcases s with g | _ | _ | _
    · obtain ⟨t, ht, -⟩ := hkern hs
      exact h.managed_of_holds ht
    all_goals exact h.managed_of_holds (hold (by simp) hs)
  case outside => exact h.outside
  case freePages => exact h.freePages
  case exclusive =>
    intro s f hx hs
    rcases s with g | _ | _ | _
    · obtain ⟨t, ht, hxt⟩ := hkern hs
      exact h.exclusive t f hxt ht
    all_goals exact h.exclusive _ f hx (hold (by simp) hs)
  case userAccess => exact fun e he => h.userAccess e (Finset.mem_insert_of_mem he)
  case root => exact fun e he => h.root e (Finset.mem_insert_of_mem he)
  case rootUser => exact fun e he => h.rootUser e (Finset.mem_insert_of_mem he)
  case table => exact fun e he => h.table e (Finset.mem_insert_of_mem he)
  case frame => exact fun e he => h.frame e (Finset.mem_insert_of_mem he)
  case kernelRo => exact fun e he => h.kernelRo e (Finset.mem_insert_of_mem he)
  case aligned =>
    exact fun e v e' v' f h1 h2 => h.aligned e v e' v' f (hold (by simp) h1) (hold (by simp) h2)

end Inv

end OperatingSystems.CowFork
