import OperatingSystems.CowFork.Directories

/-! # Copying an address space, eagerly and on write

* `Forks` says what a fork of an address space is: a new directory whose user pages read as the old ones.
  `forks_copyuvm` and `forks_cowuvm`: both functions are that.
* `Inv.pgfltintr_spec`: the handler makes a read-only page writable and changes no image. -/

namespace OperatingSystems.CowFork

open Lib.RefCount Lib.WeakestPre

variable {L : Layout} {N : Prop} {m m' : Mem} {D K : Finset ℕ} {d p v f g : ℕ} {w : Word}

/-- The pages `lo ≤ v < hi` of `d` now read as those of `p` did, and nothing else changed. -/
def ImageCopy (m m' : Mem) (D : Finset ℕ) (p d lo hi : ℕ) : Prop :=
  ∀ e ∈ D, ∀ v < 160, image m' e v = if e = d ∧ lo ≤ v ∧ v < hi then image m p v else image m e v

theorem ImageCopy.refl {lo hi : ℕ} (h : hi ≤ lo) : ImageCopy m m D p d lo hi := by
  intro e _ u _
  rw [if_neg (by omega)]

theorem ImageCopy.cons {m₁ : Mem} {hi : ℕ} (h : ImagePut m m₁ D d v (image m p v))
    (h' : ImageCopy m₁ m' D p d (v + 1) hi) (hv : v < hi) (hp : p ∈ D) (hpd : p ≠ d) :
    ImageCopy m m' D p d v hi := by
  intro e he u hu
  have hp' : image m₁ p u = image m p u := by
    rw [h p hp u hu, if_neg fun heq => hpd heq.1]
  rw [h' e he u hu, h e he u hu, hp']
  split_ifs with h1 h2 h2 h3 h3
  · rfl
  · omega
  · rw [h2.2]
  · omega
  · omega
  · rfl

/-- Page `v` of `p` is also page `v` of `d`, and `p` cannot write it. -/
structure Shared (m : Mem) (p d v : ℕ) : Prop where
  present : present (entry m p v)
  readOnly : ¬ writable (entry m p v)
  other : CowFork.present (entry m d v)
  same : pageOf (entry m d v) = pageOf (entry m p v)

namespace Inv

/-- **One round of `cowuvm`**: the parent's entry loses its write permission, and the child gets a second
reference to the page. -/
theorem shareRound (h : Inv L N m D K) (hp : p ∈ D) (hd : d ∈ D) (hpd : p ≠ d) (hv : v < 160)
    (hpres : present (entry m p v)) (habs : ¬ present (entry m d v)) {m₁ m₂ : Mem}
    (hw : w = readOnly (entry m p v)) (hm₁ : m₁ = m.setWord (pageOf (m.word p 0)) v w)
    (hm₂ : m₂ = (m₁.setWord (pageOf (m₁.word d 0)) v (mkPte (pageOf w) (pteFlags w))).ref (pageOf w)) :
    Inv L N m₁ D K ∧ ¬ present (entry m₁ d v) ∧ Inv L N m₂ D K ∧ ImagePut m m₂ D d v (image m p v) := by
  have hwp : present w := by rwa [hw, present_readOnly]
  have hro : ¬ writable w := by rw [hw]; exact not_writable_readOnly
  have huser : userOk w := by rw [hw, userOk_readOnly]; exact h.userAccess p hp v hv hpres
  obtain ⟨h₁, hk₁⟩ := h.rewrite (w := w) hp hv (by rw [hw, present_readOnly]) (by rw [hw, pageOf_readOnly]) huser
    fun _ _ hw => absurd hw hro
  have ht := h.tablesPut_user (w := w) (n := m) .refl hp hv
  rw [← hm₁] at h₁ hk₁ ht
  have hparent : entry m₁ p v = w := by rw [(ht p hp).2 v (by omega), if_pos ⟨rfl, rfl⟩]
  have hchild : ¬ present (entry m₁ d v) := by
    rwa [(ht d hd).2 v (by omega), if_neg fun heq => hpd heq.1.symm]
  have hpage : pageOf (mkPte (pageOf w) (pteFlags w)) = pageOf w := pageOf_mkPte (pageOf_lt w) isFlags_pteFlags
  have hu' : userOk (mkPte (pageOf w) (pteFlags w)) := userOk_mkPte.mpr (userOk_pteFlags.mpr huser)
  have hshown : shown m₁ (mkPte (pageOf w) (pteFlags w)) = image m p v := by
    rw [← hk₁ p hp v hv, image, hparent, shown_of_present present_mkPte, shown_of_present hwp, hpage]
  rw [hm₂, ← hshown]
  refine ⟨h₁, hchild, ?_⟩
  rcases eq_or_ne (pageOf w) 0 with h0 | h0
  · have hN := h₁.frame p hp v hv (by rwa [hparent]) (by rwa [hparent])
    obtain ⟨h₂, hput⟩ := h₁.shareNull (w := mkPte (pageOf w) (pteFlags w)) hd hv hchild (hpage.trans h0) hu' hN
    rw [h0] at h₂ hput ⊢
    exact ⟨h₂, hk₁.imagePut hput⟩
  · obtain ⟨h₂, hput⟩ := h₁.share (f := pageOf w) (w := mkPte (pageOf w) (pteFlags w)) hp hd hv (by rwa [hparent])
      hchild (by rw [hparent, held_of_present hwp h0])
      (held_eq_some.mpr ⟨present_mkPte, h0, hpage⟩) hu' (by rwa [writable_mkPte, writable_pteFlags])
    exact ⟨h₂, hk₁.imagePut hput⟩

theorem cowuvmLoop_spec {n i : ℕ} (h : Inv L N m D K) (hp : p ∈ D) (hd : d ∈ D) (hpd : p ≠ d)
    (hi : i + n ≤ 160) (habs : ∀ v < 160, i ≤ v → image m d v = none) :
    Wp (cowuvmLoop L p d n i) (fun r m' => r = d ∧ Inv L N m' D K ∧ ImageCopy m m' D p d i (i + n) ∧
      m'.fails = m.fails ∧ m'.freelist = m.freelist)
      (fun e _ => e = .cowuvmPage ∧ ∃ v, i ≤ v ∧ v < i + n ∧ image m p v = none) m := by
  induction n generalizing i m with
  | zero => exact wp_pure.mpr ⟨rfl, h, .refl (by omega), rfl, rfl⟩
  | succ n ih =>
    rw [cowuvmLoop]
    have hi' : i < 160 := by omega
    refine wp_bind.mpr (h.wp_walk hp hi' ?_)
    simp only [wp_bind, wp_readPte, wp_ite, wp_throw, wp_writePte, ← h.entry_user hp hi']
    refine ⟨fun hpres => ?_, fun hpres => ⟨trivial, i, le_rfl, by omega, image_eq_none.mpr hpres⟩⟩
    obtain ⟨h₁, hchild, h₂, hput⟩ :=
      h.shareRound hp hd hpd hi' hpres (image_eq_none.mp (habs i hi' le_rfl)) rfl rfl rfl
    refine h₁.wp_mapUser hd hi' (fun hremap => absurd hremap hchild) fun _ => ?_
    rw [if_pos rfl]
    refine wp_bind.mpr (wp_incRefCnt.mpr ?_)
    refine (ih h₂ (by omega) fun v hv hlo => ?_).mono ?_ ?_
    · rw [hput d hd v hv, if_neg (by omega)]
      exact habs v hv (by omega)
    · rintro r m' ⟨rfl, h', hcopy, hf, hl⟩
      refine ⟨rfl, h', .cons hput ?_ (by omega) hp hpd, hf, hl⟩
      rwa [show i + (n + 1) = i + 1 + n by omega]
    · rintro e m' ⟨rfl, v, hlo, hhi, hnone⟩
      refine ⟨rfl, v, by omega, by omega, ?_⟩
      rwa [hput p hp v (by omega), if_neg fun heq => hpd heq.1] at hnone

/-- After `cowuvm` both directories have the pages, and neither can write them. -/
theorem cowuvmLoop_shares {n i : ℕ} (h : Inv L N m D K) (hp : p ∈ D) (hd : d ∈ D) (hpd : p ≠ d)
    (hi : i + n ≤ 160) (habs : ∀ v < 160, i ≤ v → image m d v = none) :
    Wp (cowuvmLoop L p d n i) (fun _ m' => ∀ v < 160, if i ≤ v ∧ v < i + n then Shared m' p d v else
      entry m' p v = entry m p v ∧ entry m' d v = entry m d v) (fun _ _ => True) m := by
  induction n generalizing i m with
  | zero =>
    refine wp_pure.mpr fun v _ => ?_
    rw [if_neg (by omega)]
    exact ⟨rfl, rfl⟩
  | succ n ih =>
    rw [cowuvmLoop]
    have hi' : i < 160 := by omega
    refine wp_bind.mpr (h.wp_walk hp hi' ?_)
    simp only [wp_bind, wp_readPte, wp_ite, wp_throw, wp_writePte, ← h.entry_user hp hi']
    refine ⟨fun hpres => ?_, fun _ => trivial⟩
    obtain ⟨h₁, hchild, h₂, hput⟩ :=
      h.shareRound hp hd hpd hi' hpres (image_eq_none.mp (habs i hi' le_rfl)) rfl rfl rfl
    have ht := h.tablesPut_user (w := readOnly (entry m p i)) (n := m) .refl hp hi'
    refine h₁.wp_mapUser hd hi' (fun hremap => absurd hremap hchild) fun _ => ?_
    rw [if_pos rfl]
    have ht' := h₁.tablesPut_user (w := mkPte (pageOf (readOnly (entry m p i))) (pteFlags (readOnly (entry m p i))))
      (n := m.setWord (pageOf (m.word p 0)) i (readOnly (entry m p i))) .refl hd hi'
    refine wp_bind.mpr (wp_incRefCnt.mpr ?_)
    refine (ih h₂ (by omega) fun v hv hlo => ?_).imp fun _ m' hm' v hv => ?_
    · rw [hput d hd v hv, if_neg (by omega)]
      exact habs v hv (by omega)
    have hrest := hm' v hv
    have hparent := (ht' p hp).2 v (by omega)
    rw [if_neg fun heq => hpd heq.1, (ht p hp).2 v (by omega)] at hparent
    have hchild' := (ht' d hd).2 v (by omega)
    rw [(ht d hd).2 v (by omega), if_neg fun heq : d = p ∧ v = i => hpd heq.1.symm] at hchild'
    rcases eq_or_ne v i with rfl | hne
    · rw [if_pos ⟨rfl, rfl⟩] at hparent hchild'
      rw [if_neg (by omega)] at hrest
      rw [if_pos (by omega)]
      refine ⟨?_, ?_, ?_, ?_⟩
      · rw [hrest.1]
        exact (congrArg present hparent).mpr (present_readOnly.mpr hpres)
      · rw [hrest.1]
        exact fun hw => not_writable_readOnly ((congrArg writable hparent).mp hw)
      · rw [hrest.2]
        exact (congrArg present hchild').mpr present_mkPte
      · rw [hrest.1, hrest.2]
        refine (congrArg pageOf hchild').trans ((pageOf_mkPte (pageOf_lt _) isFlags_pteFlags).trans ?_)
        exact (congrArg pageOf hparent).symm
    · rw [if_neg fun heq => hne heq.2] at hparent hchild'
      by_cases hin : i + 1 ≤ v ∧ v < i + 1 + n
      · rw [if_pos hin] at hrest
        rwa [if_pos (by omega)]
      · rw [if_neg hin] at hrest
        rw [if_neg (by omega)]
        exact ⟨hrest.1.trans hparent, hrest.2.trans hchild'⟩

theorem copyuvmLoop_spec {n i : ℕ} (h : Inv L False m D K) (hp : p ∈ D) (hd : d ∈ D) (hpd : p ≠ d)
    (hi : i + n ≤ 160) (habs : ∀ v < 160, i ≤ v → image m d v = none) :
    Wp (copyuvmLoop L p d n i) (fun r m' => r = d ∧ Inv L False m' D K ∧ ImageCopy m m' D p d i (i + n) ∧
      m'.fails = m.fails ∧ m.freelist.length = m'.freelist.length + n ∨
      r = 0 ∧ m.fails < m'.fails ∧ m.freelist.length < n)
      (fun e _ => e = .copyuvmPage ∧ ∃ v, i ≤ v ∧ v < i + n ∧ image m p v = none) m := by
  induction n generalizing i m with
  | zero => exact wp_pure.mpr (.inl ⟨rfl, h, .refl (by omega), rfl, rfl⟩)
  | succ n ih =>
    rw [copyuvmLoop]
    have hi' : i < 160 := by omega
    refine wp_bind.mpr (h.wp_walk hp hi' ?_)
    simp only [wp_bind, wp_readPte, wp_ite, wp_throw, ← h.entry_user hp hi']
    refine ⟨fun hpres => ?_, fun hpres => ⟨trivial, i, le_rfl, by omega, image_eq_none.mpr hpres⟩⟩
    refine h.kalloc_spec.mono ?_ fun _ _ => False.elim
    rintro r m₁ ⟨hbyte, ⟨rfl, hnil, hm₁, h₁⟩ | ⟨hr, hf, hlist, h₁, hnone, -⟩⟩
    · have hf : m₁.fails = m.fails + 1 := by rw [hm₁]
      rw [if_pos rfl]
      refine ((h₁.freevm_spec hd).mono (fun _ _ hr => hr) fun _ _ he => he.2.elim).bind ?_
      rintro _ m₂ ⟨-, -, hf₂, -⟩
      refine wp_pure.mpr (.inr ⟨rfl, by omega, ?_⟩)
      rw [hnil, List.length_nil]
      omega
    rw [if_neg hr]
    have hrK := notMem_of_none hnone
    have h0 : pageOf (entry m p i) ≠ 0 := h.frame p hp i hi' hpres
    have hs := holds_user_self (K := K) hp hi' hpres h0
    have hne : pageOf (entry m p i) ≠ r := fun heq => hnone _ (heq ▸ hs)
    obtain ⟨h₂, hk₂⟩ := h₁.fresh (m₁.copy r (pageOf (entry m p i))) hbyte
      (fun g hg => Mem.byte_copy_of_ne hg) rfl rfl rfl
    have habs₂ : ¬ present (entry (m₁.copy r (pageOf (entry m p i))) d i) :=
      image_eq_none.mp ((hk₂ d hd i hi').trans (habs i hi' le_rfl))
    refine wp_bind.mpr ((wp_memmove hr h0).mpr (wp_bind.mpr (h₂.wp_mapUser hd hi'
      (fun hremap => absurd hremap habs₂) fun _ => ?_)))
    rw [if_pos rfl]
    obtain ⟨h₃, hput⟩ := h₂.mapFresh hk₂ hrK hd hi' habs₂ isFlags_pteFlags
      (userOk_pteFlags.mpr (h.userAccess p hp i hi' hpres))
    rw [Mem.byte_copy_self, hbyte, ← image_of_present hpres] at hput
    have hlen : m.freelist.length = m₁.freelist.length + 1 := by rw [hlist, List.length_cons]
    refine (ih h₃ (by omega) fun v hv hlo => ?_).mono ?_ ?_
    · rw [hput d hd v hv, if_neg (by omega)]
      exact habs v hv (by omega)
    · rintro r' m' (⟨rfl, h', hcopy, hf', hl'⟩ | ⟨rfl, hf', hl'⟩)
      · refine .inl ⟨rfl, h', .cons hput ?_ (by omega) hp hpd, hf'.trans hf, ?_⟩
        · rwa [show i + (n + 1) = i + 1 + n by omega]
        · have : m₁.freelist.length = m'.freelist.length + n := hl'
          omega
      · refine .inr ⟨rfl, hf.symm.le.trans_lt hf', ?_⟩
        have : m₁.freelist.length < n := hl'
        omega
    · rintro e m' ⟨rfl, v, hlo, hhi, hnone'⟩
      refine ⟨rfl, v, by omega, by omega, ?_⟩
      rwa [hput p hp v (by omega), if_neg fun heq => hpd heq.1] at hnone'

end Inv

/-- The new directory of a fork, from the empty one and the copied pages. -/
theorem NewDir.imageCopy {m₁ : Mem} {sz : ℕ} (h : NewDir L N m m₁ D K d) (hp : p ∈ D)
    (hempty : ∀ v < 160, image m₁ d v = none) (h' : Inv L N m' (insert d D) K)
    (hcopy : ImageCopy m₁ m' (insert d D) p d 0 (pgup sz)) :
    NewDir L N m m' D K d ∧ ∀ v < 160, image m' d v = if v < pgup sz then image m p v else none := by
  refine ⟨⟨h', h.notLive, fun e he v hv => ?_⟩, fun v hv => ?_⟩
  · rw [hcopy e (Finset.mem_insert_of_mem he) v hv, if_neg (by rintro ⟨rfl, -⟩; exact h.notLive he)]
    exact h.kept e he v hv
  · rw [hcopy d (Finset.mem_insert_self _ _) v hv, hempty v hv, h.kept p hp v hv]
    simp only [true_and, Nat.zero_le]

/-- **`cowuvm`** makes a directory that shares the pages of the old one below the size. Only the directory
itself can lack memory. -/
theorem Inv.cowuvm_frame {sz : ℕ} (h : Inv L N m D K) (hp : p ∈ D) (hsz : sz ≤ usertop) :
    Wp (cowuvm L p sz) (fun r m' => NewDir L N m m' D K r ∧
        (∀ v < 160, image m' r v = if v < pgup sz then image m p v else none) ∧
        m'.fails = m.fails ∧ m.freelist.length = m'.freelist.length + 13 ∨
      r = 0 ∧ Unmade L N m m' D K)
      (fun e _ => e = .cowuvmPage ∧ (∃ v < pgup sz, image m p v = none) ∧ 13 ≤ m.freelist.length) m := by
  unfold cowuvm
  refine (h.setupkvm_frame.mono (fun _ _ hr => hr) fun _ _ => False.elim).bind ?_
  rintro d m₁ (⟨hnew, hempty, -, hf, hl⟩ | ⟨rfl, hun⟩)
  · rw [if_neg hnew.ne_zero]
    have hpd : p ≠ d := fun heq => hnew.notLive (heq ▸ hp)
    have hnone : ∀ v < 160, image m₁ d v = none := fun v hv => image_eq_none.mpr (hempty v hv)
    refine (hnew.inv.cowuvmLoop_spec (Finset.mem_insert_of_mem hp) (Finset.mem_insert_self _ _) hpd
      (n := pgup sz) (i := 0) ?_ fun v hv _ => hnone v hv).mono ?_ ?_
    · have := pgup_le hsz
      omega
    · rintro r m' ⟨rfl, h', hcopy, hf', hl'⟩
      rw [zero_add] at hcopy
      obtain ⟨hn, himg⟩ := hnew.imageCopy hp hnone h' hcopy
      exact .inl ⟨hn, himg, hf'.trans hf, by rwa [hl']⟩
    · rintro e m' ⟨rfl, v, -, hv, hnone⟩
      have := pgup_le hsz
      exact ⟨rfl, ⟨v, by omega, (hnew.kept p hp v (by omega)) ▸ hnone⟩, by omega⟩
  · rw [if_pos rfl]
    exact wp_pure.mpr (.inr ⟨rfl, hun⟩)

theorem Inv.cowuvm_spec {sz : ℕ} (h : Inv L N m D K) (hp : p ∈ D) (hsz : sz ≤ usertop) :
    Wp (cowuvm L p sz) (fun r m' => NewDir L N m m' D K r ∧
        (∀ v < 160, image m' r v = if v < pgup sz then image m p v else none) ∧
        m'.fails = m.fails ∧ m.freelist.length ≤ m'.freelist.length + 1025 ∨
      r = 0 ∧ Failed L N m m' D K)
      (fun e _ => e = .cowuvmPage ∧ ∃ v < pgup sz, image m p v = none) m := by
  refine (h.cowuvm_frame hp hsz).mono ?_ fun _ _ he => ⟨he.1, he.2.1⟩
  rintro r m' (⟨hnew, himg, hf, hl⟩ | ⟨hr, hun⟩)
  · exact .inl ⟨hnew, himg, hf, by omega⟩
  · exact .inr ⟨hr, hun.failed⟩

theorem Inv.cowuvm_shares {sz : ℕ} (h : Inv L N m D K) (hp : p ∈ D) (hsz : sz ≤ usertop) :
    Wp (cowuvm L p sz) (fun r m' => r ≠ 0 → ∀ v < pgup sz, Shared m' p r v) (fun _ _ => True) m := by
  have htop := pgup_le hsz
  unfold cowuvm
  refine (h.setupkvm_frame.mono (fun _ _ hr => hr) fun _ _ => False.elim).bind ?_
  rintro d m₁ (⟨hnew, hempty, -⟩ | ⟨rfl, -⟩)
  · rw [if_neg hnew.ne_zero]
    have hpd : p ≠ d := fun heq => hnew.notLive (heq ▸ hp)
    have hp' := Finset.mem_insert_of_mem (a := p) (b := d) hp
    have hd' := Finset.mem_insert_self d D
    have hnone : ∀ v < 160, 0 ≤ v → image m₁ d v = none := fun v hv _ => image_eq_none.mpr (hempty v hv)
    refine ((hnew.inv.cowuvmLoop_spec hp' hd' hpd (n := pgup sz) (by omega) hnone).and
      (hnew.inv.cowuvmLoop_shares hp' hd' hpd (n := pgup sz) (by omega) hnone)).mono ?_ fun _ _ _ => trivial
    rintro r m' ⟨⟨rfl, -⟩, hshared⟩ - v hv
    have hv' := hshared v (by omega)
    rwa [if_pos (by omega)] at hv'
  · rw [if_pos rfl]
    exact wp_pure.mpr fun h0 => absurd rfl h0

/-- **A fork of an address space**: a new directory with the user pages of the old one below the size, or a
failed `kalloc`. It stops only on a page that is missing below the size. -/
def Forks (L : Layout) (dup : ℕ → ℕ → Kernel ℕ) : Prop :=
  ∀ {m : Mem} {D K : Finset ℕ} {p sz : ℕ}, Inv L False m D K → p ∈ D → sz ≤ usertop →
    Wp (dup p sz) (fun r m' => NewDir L False m m' D K r ∧
        (∀ v < 160, image m' r v = if v < pgup sz then image m p v else none) ∧
        m'.fails = m.fails ∧ m.freelist.length ≤ m'.freelist.length + 1185 ∨
      r = 0 ∧ m.fails < m'.fails ∧ m.freelist.length < 1185)
      (fun e _ => (e = .cowuvmPage ∨ e = .copyuvmPage) ∧ ∃ v < pgup sz, image m p v = none) m

theorem forks_cowuvm : Forks L (cowuvm L) := by
  intro m D K p sz h hp hsz
  refine (h.cowuvm_spec hp hsz).mono ?_ fun e _ he => ⟨.inl he.1, he.2⟩
  rintro r m' (⟨hnew, himg, hf, hl⟩ | ⟨rfl, hf, hl, -⟩)
  · exact .inl ⟨hnew, himg, hf, by omega⟩
  · exact .inr ⟨rfl, hf, by omega⟩

theorem forks_copyuvm : Forks L (copyuvm L) := by
  intro m D K p sz h hp hsz
  unfold copyuvm
  refine (h.setupkvm_spec.mono (fun _ _ hr => hr) fun _ _ => False.elim).bind ?_
  rintro d m₁ (⟨hnew, hempty, hf, hl⟩ | ⟨rfl, hf, hl, -⟩)
  · rw [if_neg hnew.ne_zero]
    have hpd : p ≠ d := fun heq => hnew.notLive (heq ▸ hp)
    have hle := pgup_le hsz
    refine (hnew.inv.copyuvmLoop_spec (Finset.mem_insert_of_mem hp) (Finset.mem_insert_self _ _) hpd
      (n := pgup sz) (i := 0) (by omega) fun v hv _ => hempty v hv).mono ?_ ?_
    · rintro r m' (⟨rfl, h', hcopy, hf', hl'⟩ | ⟨rfl, hf', hl'⟩)
      · rw [zero_add] at hcopy
        obtain ⟨hn, himg⟩ := hnew.imageCopy hp hempty h' hcopy
        exact .inl ⟨hn, himg, hf'.trans hf, by omega⟩
      · exact .inr ⟨rfl, by omega, by omega⟩
    · rintro e m' ⟨rfl, v, -, hv, hnone⟩
      exact ⟨.inr rfl, v, by omega, (hnew.kept p hp v (by omega)) ▸ hnone⟩
  · rw [if_pos rfl]
    exact wp_pure.mpr (.inr ⟨rfl, hf, by omega⟩)

/-! ### The handler -/

theorem pdx_lt {va : ℕ} : pdx va < 1024 := Nat.mod_lt _ (by omega)

theorem entry_va {va : ℕ} (hva : va < 2 ^ 32) (hp : present (m.word d (pdx va))) :
    entry m d (va / 4096) = m.word (pageOf (m.word d (pdx va))) (ptx va) := by
  have h1 : va / 4096 / 1024 = pdx va := by
    unfold pdx
    omega
  rw [entry, h1, if_pos hp]
  rfl

/-- Page `f'` is behind the kernel's pointer to page `f` while `d` is the running directory. -/
def Behind (m : Mem) (d f f' : ℕ) : Prop :=
  f ≠ 0 ∧ f' = f ∨ f = 0 ∧ present (entry m d 0) ∧ f' = pageOf (entry m d 0)

/-- What `pgfltintr` promises at page `v` of directory `d`. -/
structure Resolved (L : Layout) (N : Prop) (m m' : Mem) (D K : Finset ℕ) (d v : ℕ) : Prop where
  inv : Inv L N m' D K
  present_iff : ∀ e ∈ D, ∀ u < 160, present (entry m' e u) ↔ present (entry m e u)
  length : m.freelist.length ≤ m'.freelist.length + 1
  writable : v < 160 → present (entry m d v) → writable (entry m' d v)

/-- A present entry is made writable. -/
theorem Resolved.of_put (h : Inv L N m' D K) (ht : TablesPut m m' D d v w) (hd : d ∈ D) (hv : v < 2 ^ 20)
    (hp : present (entry m d v)) (hpw : present w) (hw : CowFork.writable w)
    (hl : m.freelist.length ≤ m'.freelist.length + 1) : Resolved L N m m' D K d v := by
  refine ⟨h, fun e he u hu => ?_, hl, fun _ _ => ?_⟩
  · rw [(ht e he).2 u (by omega)]
    split_ifs with heq
    · rw [heq.1, heq.2]
      exact iff_of_true hpw hp
    · rfl
  · rwa [(ht d hd).2 v hv, if_pos ⟨rfl, rfl⟩]

/-- The entry the handler writes, with a copy on page `f`. -/
theorem copied_entry (hp : present w) (hu : userOk w) (hf : f < 2 ^ 20) :
    present (addr f ||| (pteFlags w ||| pteW)) ∧ userOk (addr f ||| (pteFlags w ||| pteW)) ∧
      writable (addr f ||| (pteFlags w ||| pteW)) ∧ pageOf (addr f ||| (pteFlags w ||| pteW)) = f := by
  refine ⟨?_, ?_, ?_, pageOf_addr_or hf fun k hk => ?_⟩
  · rwa [present_addr_or, present_or_pteW, present_pteFlags]
  · rwa [userOk_addr_or, userOk_or_pteW, userOk_pteFlags]
  · rw [← BitVec.or_assoc]
    exact writable_or_pteW
  · rw [BitVec.getLsbD_or, isFlags_pteFlags k hk, isFlags_pteW k hk, Bool.or_false]

namespace Inv

theorem wp_target {E : Panic → Mem → Prop} (h : Inv L N m D K) (hd : d ∈ D) {Q : ℕ → Mem → Prop}
    (hQ : ∀ f', Behind m d f f' → Q f' m) (hE : f = 0 → ¬ present (entry m d 0) → E .fault m) :
    Wp (target d f) Q E m := by
  unfold target
  rw [wp_ite, wp_pure, wp_bind]
  refine ⟨fun hf => hQ f (.inl ⟨hf, rfl⟩), fun hf => ?_⟩
  have hf0 : f = 0 := not_not.mp hf
  refine h.wp_walk (v := 0) hd (by omega) ?_
  simp only [wp_bind, wp_readPte, wp_ite, wp_throw, wp_pure, ← h.entry_user hd (by omega : 0 < 160)]
  exact ⟨fun hp => hQ _ (.inr ⟨hf0, hp, rfl⟩), fun hp => hE hf0 hp⟩

/-- `memmove` while `d` is the running directory. -/
theorem wp_memmove_behind {E : Panic → Mem → Prop} (h : Inv L N m D K) (hd : d ∈ D) {Q : Unit → Mem → Prop}
    (hQ : ∀ f' g', Behind m d f f' → Behind m d g g' → Q () (m.copy f' g'))
    (hE : f = 0 ∨ g = 0 → ¬ present (entry m d 0) → E .fault m) : Wp (memmove d f g) Q E m := by
  unfold memmove
  refine wp_bind.mpr (h.wp_target hd (fun f' hf' => ?_) fun h0 => hE (.inl h0))
  refine wp_bind.mpr (h.wp_target hd (fun g' hg' => ?_) fun h0 => hE (.inr h0))
  exact wp_modify.mpr (hQ f' g' hf' hg')

/-- No user page is a directory or a table. -/
theorem offTables_entry (h : Inv L N m D K) (hd : d ∈ D) (hv : v < 160) (hp : present (entry m d v)) :
    OffTables m D (pageOf (entry m d v)) := by
  rcases eq_or_ne (pageOf (entry m d v)) 0 with h0 | h0
  · rw [h0]
    exact h.offTables_null
  · exact h.offTables_user (holds_user_self (K := K) hd hv hp h0)

/-- The handler on a shared page. -/
theorem resolveShared (h : Inv L N m D K) (hd : d ∈ D) (hv : v < 160) (hp : present (entry m d v))
    (h0 : pageOf (entry m d v) ≠ 0) (hlt : 1 < m.refCnt (pageOf (entry m d v))) {m₁ : Mem} {r : ℕ}
    (hbyte : m₁.byte = m.byte) (hlist : m.freelist = r :: m₁.freelist) (h₁ : Inv L N m₁ D (insert r K))
    (hnone : ∀ s, holds m D K s ≠ some r) (hcnt : ∀ g, g ≠ r → m₁.refCnt g = m.refCnt g)
    (hm' : m' = ((m₁.copy r (pageOf (entry m d v))).unref (pageOf (entry m d v))).setWord
      (pageOf (m.word d 0)) v (addr r ||| (pteFlags (entry m d v) ||| pteW))) :
    Resolved L N m m' D K d v ∧ Kept m m' D := by
  have hs := holds_user_self (K := K) hd hv hp h0
  have hne : pageOf (entry m d v) ≠ r := fun heq => hnone _ (heq ▸ hs)
  have hsame : SameTables m (m₁.copy r (pageOf (entry m d v))) D :=
    sameTables_of_byte (f := r) (h.offTables_free (by simp [hlist])) fun g hg => by
      rw [Mem.byte_copy_of_ne hg, hbyte]
  obtain ⟨h₂, hk₂⟩ := h₁.fresh (m₁.copy r (pageOf (entry m d v))) hbyte
    (fun g hg => Mem.byte_copy_of_ne hg) rfl rfl rfl
  have hs₂ : holds (m₁.copy r (pageOf (entry m d v))) D (insert r K) (.user d v) = some (pageOf (entry m d v)) := by
    rwa [holds_of_same hsame]
  have hmem : r ∈ insert r K := Finset.mem_insert_self _ _
  obtain ⟨hpres, hu, hw, hpage⟩ := copied_entry hp (h.userAccess d hd v hv hp)
    (lt_of_managed (h₂.managed_of_holds (holds_kern_self hmem)))
  have hout := h₂.copyOut hd hv hs₂
    (by rw [show (m₁.copy r (pageOf (entry m d v))).refCnt = m₁.refCnt from rfl, hcnt _ hne]; exact hlt)
    hmem (held_eq_some.mpr ⟨hpres, h₂.ne_zero_of_kern hmem, hpage⟩) hu
  rw [(hsame d hd).1 0 (by omega), Finset.erase_insert (notMem_of_none hnone), Mem.byte_copy_self, hbyte,
    ← image_of_present hp, ← hm'] at hout
  have ht := h.tablesPut_user (w := addr r ||| (pteFlags (entry m d v) ||| pteW))
    (n := (m₁.copy r (pageOf (entry m d v))).unref (pageOf (entry m d v))) hsame hd hv
  rw [← hm'] at ht
  refine ⟨.of_put hout.1 ht hd (by omega) hp hpres hw ?_, (hk₂.imagePut hout.2).kept⟩
  rw [hlist, hm']
  exact le_rfl

/-- The handler on page 0, in a copy of what is behind the null pointer. -/
theorem resolveNull (h : Inv L N m D K) (hd : d ∈ D) (hv : v < 160) (hp : present (entry m d v))
    (h0 : pageOf (entry m d v) = 0) {m₁ : Mem} {r : ℕ} (hbyte : m₁.byte = m.byte)
    (hlist : m.freelist = r :: m₁.freelist) (h₁ : Inv L N m₁ D (insert r K))
    (hnone : ∀ s, holds m D K s ≠ some r)
    (hm' : m' = ((m₁.copy r g).unref 0).setWord (pageOf (m.word d 0)) v
      (addr r ||| (pteFlags (entry m d v) ||| pteW))) : Resolved L N m m' D K d v := by
  have hsame : SameTables m (m₁.copy r g) D :=
    sameTables_of_byte (f := r) (h.offTables_free (by simp [hlist])) fun k hk => by
      rw [Mem.byte_copy_of_ne hk, hbyte]
  obtain ⟨h₂, -⟩ := h₁.fresh (m₁.copy r g) hbyte (fun k hk => Mem.byte_copy_of_ne hk) rfl rfl rfl
  have hmem : r ∈ insert r K := Finset.mem_insert_self _ _
  obtain ⟨hpres, hu, hw, hpage⟩ := copied_entry hp (h.userAccess d hd v hv hp)
    (lt_of_managed (h₂.managed_of_holds (holds_kern_self hmem)))
  have hout := (h₂.map (n := (m₁.copy r g).unref 0) rfl (fun k hk => Mem.refCnt_unref_of_ne hk) rfl rfl hd hv hmem
    (by rw [(hsame d hd).2 v (by omega)]; exact held_of_null h0)
    (held_eq_some.mpr ⟨hpres, h₂.ne_zero_of_kern hmem, hpage⟩) hu).1
  rw [(hsame d hd).1 0 (by omega), Finset.erase_insert (notMem_of_none hnone), ← hm'] at hout
  have ht := h.tablesPut_user (w := addr r ||| (pteFlags (entry m d v) ||| pteW)) (n := (m₁.copy r g).unref 0)
    hsame hd hv
  rw [← hm'] at ht
  refine .of_put hout ht hd (by omega) hp hpres hw ?_
  rw [hlist, hm']
  exact le_rfl

/-- **The handler out of memory**: the copy goes to page 0 of the process, and the entry gets page 0. -/
theorem resolveOut (h : Inv L N m D K) (hd : d ∈ D) (hv : v < 160) (hp : present (entry m d v))
    (hlt : 1 < m.refCnt (pageOf (entry m d v))) (hN : N) (hz : present (entry m d 0)) {m₁ : Mem}
    (hbyte : m₁.byte = m.byte) (hr : m₁.refCnt = m.refCnt) (hl : m₁.freelist = m.freelist)
    (hfree : m₁.freePages = m.freePages)
    (hm' : m' = ((m₁.copy (pageOf (entry m d 0)) g).unref (pageOf (entry m d v))).setWord
      (pageOf (m.word d 0)) v (addr 0 ||| (pteFlags (entry m d v) ||| pteW))) :
    Resolved L N m m' D K d v := by
  have hsame : SameTables m (m₁.copy (pageOf (entry m d 0)) g) D :=
    sameTables_of_byte (h.offTables_entry hd (by omega) hz) fun k hk => by rw [Mem.byte_copy_of_ne hk, hbyte]
  obtain ⟨hpres, hu, hw, hpage⟩ := copied_entry (f := 0) hp (h.userAccess d hd v hv hp) (by omega)
  have hheld := held_of_null hpage
  have hinv : Inv L N m' D K := by
    rw [hm']
    rcases eq_or_ne (pageOf (entry m d v)) 0 with h0 | h0
    · rw [h0]
      refine h.putNull (n := (m₁.copy (pageOf (entry m d 0)) g).unref 0) hsame (fun k hk => ?_) hl hfree hd hv
        (held_of_null h0) hheld hu hN
      rw [Mem.refCnt_unref_of_ne hk]
      exact congrFun hr k
    · exact h.unmap hsame hr hl hfree hd hv (holds_user_self hd hv hp h0) hlt hheld (fun _ => hu) fun _ _ => hN
  have ht := h.tablesPut_user (w := addr 0 ||| (pteFlags (entry m d v) ||| pteW))
    (n := (m₁.copy (pageOf (entry m d 0)) g).unref (pageOf (entry m d v))) hsame hd hv
  rw [← hm'] at ht
  refine .of_put hinv ht hd (by omega) hp hpres hw ?_
  rw [hm']
  exact (congrArg List.length hl).symm.le.trans (Nat.le_succ _)

/-- The handler on a page that nobody shares. -/
theorem resolveOwn (h : Inv L N m D K) (hd : d ∈ D) (hv : v < 2 ^ 20) (hpde : present (m.word d (v / 1024)))
    (hp : present (entry m d v)) (hle : ¬ 1 < m.refCnt (pageOf (entry m d v)))
    (hm' : m' = m.setWord (pageOf (m.word d (v / 1024))) (v % 1024) (entry m d v ||| pteW)) :
    Resolved L N m m' D K d v ∧ Kept m m' D := by
  have ht := h.tablesPut (w := entry m d v ||| pteW) (n := m) .refl hd hv hpde
  rw [← hm'] at ht
  suffices h' : Inv L N m' D K ∧ Kept m m' D by
    refine ⟨.of_put h'.1 ht hd hv hp (present_or_pteW.mpr hp) writable_or_pteW ?_, h'.2⟩
    rw [hm']
    exact Nat.le_succ _
  rw [hm']
  rcases lt_or_ge v 160 with hlo | hhi
  · rw [Nat.div_eq_of_lt (by omega), Nat.mod_eq_of_lt (by omega)]
    refine h.rewrite hd hlo present_or_pteW pageOf_or_pteW ?_ fun f hf _ => ?_
    · rw [userOk_or_pteW]
      exact h.userAccess d hd v hlo hp
    · obtain ⟨-, h0, rfl⟩ := held_eq_some.mp hf
      rw [pageOf_or_pteW] at h0 ⊢
      have hpos := h.counted.count_pos (holds_user_self (K := K) hd hlo hp h0)
      omega
  · exact h.rewriteKernel hd hhi hv hpde fun _ hw => absurd writable_or_pteW hw

/-- **The write-fault handler** gives the directory a page of its own to write, and nobody sees a
difference. Out of memory, it leaves page 0 behind. It stops where there is no page table, and where the
kernel's access to page 0 faults. -/
theorem pgfltintr_spec {va : ℕ} (h : Inv L N m D K) (hd : d ∈ D) (hva : va < 2 ^ 32) :
    Wp (pgfltintr d va) (fun _ m' => m.fails ≤ m'.fails ∧ (m.freelist ≠ [] → m'.fails = m.fails) ∧
      (m'.fails = m.fails ∨ N → Resolved L N m m' D K d (va / 4096)) ∧
      (m'.fails = m.fails → ¬ N → Kept m m' D))
      (fun e _ => e = .pgfltintr ∧ ¬ present (m.word d (pdx va)) ∨
        e = .fault ∧ (m.freelist = [] ∨ N) ∧ ¬ present (entry m d 0)) m := by
  unfold pgfltintr
  refine wp_bind.mpr (wp_walkpgdir_false (fun hpde => ?_) fun hpde => wp_throw.mpr (.inl ⟨rfl, hpde⟩))
  have hv : va / 4096 < 2 ^ 20 := by omega
  have hpdx : pdx va = va / 4096 / 1024 := by
    unfold pdx
    omega
  simp only [wp_bind, wp_readPte, wp_ite, wp_pure, wp_getRefCnt, wp_writePte, ← entry_va hva hpde,
    writable_pteFlags, present_pteFlags]
  rw [hpdx] at hpde ⊢
  rw [show ptx va = va / 4096 % 1024 from rfl]
  generalize va / 4096 = v at hv hpde
  refine ⟨fun hr => ?_, fun hno => ?_⟩
  obtain ⟨hw, hp⟩ := hr
  refine ⟨fun hlt => ?_, fun hle => ?_⟩
  · have hlo : v < 160 := by
      by_contra hge
      obtain ⟨hman, hne⟩ := h.kernelRo d hd v hv (by omega) hp hw
      have := h.outside _ hman hne
      omega
    rw [Nat.div_eq_of_lt (by omega), Nat.mod_eq_of_lt (by omega)]
    refine h.kalloc_spec.mono ?_ fun _ _ => False.elim
    rintro r m₁ ⟨hbyte, ⟨rfl, hnil, hm₁, h₁⟩ | ⟨hr, hf, hlist, h₁, hnone, hcnt⟩⟩
    · have hf : m₁.fails = m.fails + 1 := by rw [hm₁]
      have hz₁ : entry m₁ d 0 = entry m d 0 := (sameTables_of_eq hbyte d hd).2 0 (by omega)
      rw [← hz₁]
      refine wp_bind.mpr (h₁.wp_memmove_behind hd (fun z g hz _ => ?_) fun _ hz => .inr ⟨rfl, .inl hnil, hz⟩)
      obtain ⟨hne, -⟩ | ⟨-, hz, rfl⟩ := hz
      · exact absurd rfl hne
      have hne : m₁.fails ≠ m.fails := by omega
      rw [wp_bind, wp_decRefCnt, wp_writePte]
      refine ⟨by rw [Mem.fails_setWord]; exact hf.symm ▸ Nat.le_succ _, fun hmem => absurd hnil hmem, fun hN => ?_,
        fun heq => absurd heq hne⟩
      exact h.resolveOut hd hlo hp hlt (hN.resolve_left hne) (hz₁ ▸ hz) hbyte (by rw [hm₁]) (by rw [hm₁])
        (by rw [hm₁]) (by rw [← hz₁])
    · refine wp_bind.mpr (h₁.wp_memmove_behind hd (fun r' g hr' hg => ?_) fun h0 hz => ?_)
      · obtain ⟨-, rfl⟩ | ⟨h0, -⟩ := hr'
        swap
        · exact absurd h0 hr
        rw [wp_bind, wp_decRefCnt, wp_writePte]
        refine ⟨hf.symm.le, fun _ => hf, fun _ => ?_, fun _ hN => ?_⟩
        · rcases eq_or_ne (pageOf (entry m d v)) 0 with h0 | h0
          · exact h.resolveNull hd hlo hp h0 hbyte hlist h₁ hnone (by rw [h0])
          · obtain ⟨-, rfl⟩ | ⟨h0', -⟩ := hg
            · exact (h.resolveShared hd hlo hp h0 hlt hbyte hlist h₁ hnone hcnt rfl).1
            · exact absurd h0' h0
        · have h0 : pageOf (entry m d v) ≠ 0 := fun h0 => hN (h.frame d hd v hlo hp h0)
          obtain ⟨-, rfl⟩ | ⟨h0', -⟩ := hg
          · exact (h.resolveShared hd hlo hp h0 hlt hbyte hlist h₁ hnone hcnt rfl).2
          · exact absurd h0' h0
      · have h0' := h0.resolve_left hr
        refine .inr ⟨rfl, .inr (h.frame d hd v hlo hp h0'), ?_⟩
        rwa [(sameTables_of_eq hbyte d hd).2 0 (by omega)] at hz
  · obtain ⟨hres, hkept⟩ := h.resolveOwn hd hv hpde hp hle rfl
    exact ⟨le_rfl, fun _ => rfl, fun _ => hres, fun _ _ => hkept⟩
  · refine ⟨le_rfl, fun _ => trivial, fun _ => ⟨h, fun _ _ _ _ => .rfl, Nat.le_succ _, fun _ hp => ?_⟩,
      fun _ _ => .refl⟩
    by_contra hw
    exact hno ⟨hw, hp⟩

end Inv

end OperatingSystems.CowFork
