import OperatingSystems.CowFork.Changes
import OperatingSystems.Lib.WeakestPre

/-! # Specifications of the paging code

One specification for each function, over the ledger: what it does to the holdings, to the user memory of
the live directories (`image`), and when it stops. A failed `kalloc` shows in `fails`.

* `Inv.allocuvm_spec`, `Inv.deallocuvm_spec`: pages of one directory come and go.
* `Inv.allocuvm_frame`, `Inv.deallocuvm_frame`: the same with the entries and the frame of the call. -/

namespace OperatingSystems.CowFork

open Lib.RefCount Lib.WeakestPre

variable {L : Layout} {N : Prop} {m m' : Mem} {D K : Finset ℕ} {d d' v f g : ℕ} {w : Word} {α : Type}
  {E : Panic → Mem → Prop}

/-! ### Small steps -/

@[simp] theorem wp_readPte {pte : ℕ × ℕ} {Q : Word → Mem → Prop} :
    Wp (readPte pte) Q E m ↔ Q (m.word pte.1 pte.2) m := by
  simp only [readPte, wp_bind, wp_get, wp_pure]

@[simp] theorem wp_writePte {pte : ℕ × ℕ} {Q : Unit → Mem → Prop} :
    Wp (writePte pte w) Q E m ↔ Q () (m.setWord pte.1 pte.2 w) := wp_modify

@[simp] theorem wp_memset {b : BitVec 8} {Q : Unit → Mem → Prop} :
    Wp (memset f b) Q E m ↔ Q () (m.fill f b) := wp_modify

theorem wp_target (hf : f ≠ 0) {Q : ℕ → Mem → Prop} : Wp (target d f) Q E m ↔ Q f m := by
  unfold target
  rw [if_pos hf, wp_pure]

theorem wp_memmove (hf : f ≠ 0) (hg : g ≠ 0) {Q : Unit → Mem → Prop} :
    Wp (memmove d f g) Q E m ↔ Q () (m.copy f g) := by
  unfold memmove
  rw [wp_bind, wp_target hf, wp_bind, wp_target hg, wp_modify]

@[simp] theorem wp_incRefCnt {Q : Unit → Mem → Prop} :
    Wp (incRefCnt f) Q E m ↔ Q () (m.ref f) := wp_modify

@[simp] theorem wp_decRefCnt {Q : Unit → Mem → Prop} :
    Wp (decRefCnt f) Q E m ↔ Q () (m.unref f) := wp_modify

@[simp] theorem wp_getRefCnt {Q : ℕ → Mem → Prop} :
    Wp (getRefCnt f) Q E m ↔ Q (m.refCnt f) m := by
  simp only [getRefCnt, wp_bind, wp_get, wp_pure]

theorem wp_kalloc {Q : ℕ → Mem → Prop} (hnil : m.freelist = [] → Q 0 { m with fails := m.fails + 1 })
    (hcons : ∀ f next, m.freelist = f :: next → Q f (m.taken f next)) : Wp kalloc Q E m := by
  unfold kalloc
  simp only [wp_bind, wp_get]
  split
  next h => exact wp_bind.mpr (wp_set.mpr (wp_pure.mpr (hnil h)))
  next f next h => exact wp_bind.mpr (wp_set.mpr (wp_pure.mpr (hcons f next h)))

theorem wp_kfree {Q : Unit → Mem → Prop} (hf : f ∈ managed L) (hshared : 1 < m.refCnt f → Q () (m.unref f))
    (hlast : m.refCnt f = 1 → Q () (m.freed f)) (hpos : 0 < m.refCnt f) : Wp (kfree L f) Q E m := by
  obtain ⟨hlo, hhi⟩ := hf
  unfold kfree phystop
  simp only [wp_ite, wp_bind, wp_get]
  refine ⟨fun h => absurd h (by omega), fun _ => ⟨fun h => wp_set.mpr (hshared h), fun h => ⟨fun h1 => ?_, fun h1 => ?_⟩⟩⟩
  · have := hlast h1
    rw [h1]
    exact wp_set.mpr this
  · omega

theorem wp_walkpgdir_false {va : ℕ} {Q : Option (ℕ × ℕ) → Mem → Prop}
    (hsome : present (m.word d (pdx va)) → Q (some (pageOf (m.word d (pdx va)), ptx va)) m)
    (hnone : ¬ present (m.word d (pdx va)) → Q none m) : Wp (walkpgdir d va false) Q E m := by
  unfold walkpgdir
  simp only [wp_bind, wp_readPte, wp_ite, wp_pure]
  exact ⟨hsome, fun h => ⟨fun _ => hnone h, fun h' => absurd trivial h'⟩⟩

theorem wp_walkpgdir_present {va : ℕ} {b : Bool} {Q : Option (ℕ × ℕ) → Mem → Prop}
    (hp : present (m.word d (pdx va))) (hQ : Q (some (pageOf (m.word d (pdx va)), ptx va)) m) :
    Wp (walkpgdir d va b) Q E m := by
  unfold walkpgdir
  simp only [wp_bind, wp_readPte, wp_ite, wp_pure]
  exact ⟨fun _ => hQ, fun h => absurd hp h⟩

theorem pdx_user (hv : v < 160) : pdx (v * 4096) = 0 := by
  unfold pdx
  omega

theorem ptx_user (hv : v < 160) : ptx (v * 4096) = v := by
  unfold ptx
  omega

namespace Inv

theorem wp_walk (h : Inv L N m D K) (hd : d ∈ D) (hv : v < 160) {b : Bool} {Q : Option (ℕ × ℕ) → Mem → Prop}
    (hQ : Q (some (pageOf (m.word d 0), v)) m) : Wp (walkpgdir d (v * 4096) b) Q E m := by
  refine wp_walkpgdir_present (by rw [pdx_user hv]; exact h.root d hd) ?_
  rwa [pdx_user hv, ptx_user hv]

/-- Mapping one page of a live directory. -/
theorem wp_mapUser (h : Inv L N m D K) (hd : d ∈ D) (hv : v < 160) {perm : Word} {Q : Bool → Mem → Prop}
    (hremap : present (entry m d v) → E .remap m)
    (hQ : ¬ present (entry m d v) → Q true (m.setWord (pageOf (m.word d 0)) v (mkPte f perm))) :
    Wp (mappages d (v * 4096) 4096 f perm) Q E m := by
  have hcount : ((v * 4096 + 4096 + (2 ^ 32 - 1)) % 2 ^ 32 / 4096 + (2 ^ 20 - v * 4096 / 4096)) % 2 ^ 20 = 0 := by
    omega
  have ha : v * 4096 / 4096 = v := by omega
  unfold mappages
  simp only [hcount]
  rw [ha, mappagesLoop, mapPage]
  refine wp_bind.mpr (h.wp_walk hd hv ?_)
  simp only [wp_bind, wp_readPte, wp_ite, wp_throw, wp_writePte, wp_pure, ← h.entry_user hd hv]
  exact ⟨hremap, hQ⟩

end Inv

/-! ### Taking and freeing pages -/

/-- The directories `D` are left alone, except that the pages `lo ≤ v < hi` of `d` read as `x`. -/
def ImageFill (m m' : Mem) (D : Finset ℕ) (d lo hi : ℕ) (x : Option (ℕ → BitVec 8)) : Prop :=
  ∀ e ∈ D, ∀ v < 160, image m' e v = if e = d ∧ lo ≤ v ∧ v < hi then x else image m e v

theorem ImageFill.refl {lo hi : ℕ} {x : Option (ℕ → BitVec 8)} (h : hi ≤ lo) : ImageFill m m D d lo hi x := by
  intro e _ u _
  rw [if_neg (by omega)]

theorem ImageFill.cons {m₁ : Mem} {hi : ℕ} {x : Option (ℕ → BitVec 8)} (h : ImagePut m m₁ D d v x)
    (h' : ImageFill m₁ m' D d (v + 1) hi x) (hv : v < hi) : ImageFill m m' D d v hi x := by
  intro e he u hu
  rw [h' e he u hu, h e he u hu]
  split_ifs <;> first | rfl | omega

theorem ImageFill.skip {hi : ℕ} {x : Option (ℕ → BitVec 8)} (h : ImageFill m m' D d (v + 1) hi x)
    (hx : image m d v = x) : ImageFill m m' D d v hi x := by
  intro e he u hu
  rw [h e he u hu]
  split_ifs with h1 h2 h2
  · rfl
  · omega
  · obtain ⟨rfl, h2⟩ := h2
    rw [show u = v by omega, hx]
  · rfl

theorem ImageFill.kept_erase {lo hi : ℕ} {x : Option (ℕ → BitVec 8)} (h : ImageFill m m' D d lo hi x) :
    Kept m m' (D.erase d) := by
  intro e he u hu
  rw [h e (Finset.mem_of_mem_erase he) u hu, if_neg fun heq => Finset.ne_of_mem_erase he heq.1]

theorem ImagePut.fill {m₁ : Mem} {lo hi : ℕ} {x y : Option (ℕ → BitVec 8)} (h : ImagePut m m₁ D d v y)
    (h' : ImageFill m₁ m' D d lo hi x) (hlo : lo ≤ v) (hhi : v < hi) : ImageFill m m' D d lo hi x := by
  intro e he u hu
  rw [h' e he u hu, h e he u hu]
  split_ifs with h1 h2
  · rfl
  · exact absurd ⟨h2.1, by omega, by omega⟩ h1
  · rfl

theorem Kept.fill {m₁ : Mem} {lo hi : ℕ} {x : Option (ℕ → BitVec 8)} (h : Kept m m₁ D)
    (h' : ImageFill m₁ m' D d lo hi x) : ImageFill m m' D d lo hi x := by
  intro e he u hu
  rw [h' e he u hu, h e he u hu]

/-- The entries `lo ≤ v < hi` of `d` are now as `P` says; its other entries and its directory are the same. -/
def EntriesFill (m m' : Mem) (d lo hi : ℕ) (P : Word → Prop) : Prop :=
  (∀ j < 1024, m'.word d j = m.word d j) ∧
    ∀ v < 2 ^ 20, if lo ≤ v ∧ v < hi then P (entry m' d v) else entry m' d v = entry m d v

section EntriesFill

variable {lo hi : ℕ} {P : Word → Prop} {m₁ : Mem}

theorem EntriesFill.refl (h : hi ≤ lo) : EntriesFill m m d lo hi P := by
  refine ⟨fun _ _ => rfl, fun u _ => ?_⟩
  rw [if_neg (by omega)]

theorem EntriesFill.cons (h : TablesPut m m₁ D d v w) (hd : d ∈ D) (h' : EntriesFill m₁ m' d (v + 1) hi P)
    (hw : P w) (hv : v < hi) : EntriesFill m m' d v hi P := by
  refine ⟨fun j hj => (h'.1 j hj).trans ((h d hd).1 j hj), fun u hu => ?_⟩
  have h1 := h'.2 u hu
  have h2 := (h d hd).2 u hu
  rcases eq_or_ne u v with rfl | hne
  · rw [if_neg (by omega)] at h1
    rw [if_pos ⟨rfl, rfl⟩] at h2
    rwa [if_pos ⟨le_rfl, hv⟩, h1, h2]
  · rw [if_neg fun heq => hne heq.2] at h2
    by_cases hin : v ≤ u ∧ u < hi
    · rw [if_pos (by omega)] at h1
      rwa [if_pos hin]
    · rw [if_neg (by omega)] at h1
      rw [if_neg hin, h1, h2]

theorem EntriesFill.skip (h : EntriesFill m m' d (v + 1) hi P) (hx : P (entry m d v)) :
    EntriesFill m m' d v hi P := by
  refine ⟨h.1, fun u hu => ?_⟩
  have h1 := h.2 u hu
  rcases eq_or_ne u v with rfl | hne
  · rw [if_neg (by omega)] at h1
    rw [h1]
    split_ifs
    · exact hx
    · rfl
  · by_cases hin : v ≤ u ∧ u < hi
    · rw [if_pos (by omega)] at h1
      rwa [if_pos hin]
    · rw [if_neg (by omega)] at h1
      rwa [if_neg hin]

theorem EntriesFill.of_same (h : SameTables m m₁ D) (hd : d ∈ D) (h' : EntriesFill m₁ m' d lo hi P) :
    EntriesFill m m' d lo hi P := by
  refine ⟨fun j hj => (h'.1 j hj).trans ((h d hd).1 j hj), fun u hu => ?_⟩
  have h1 := h'.2 u hu
  rwa [(h d hd).2 u hu] at h1

theorem EntriesFill.of_put (h : TablesPut m m₁ D d v w) (hd : d ∈ D) (h' : EntriesFill m₁ m' d lo hi P)
    (hlo : lo ≤ v) (hhi : v < hi) : EntriesFill m m' d lo hi P := by
  refine ⟨fun j hj => (h'.1 j hj).trans ((h d hd).1 j hj), fun u hu => ?_⟩
  have h1 := h'.2 u hu
  split_ifs at h1 ⊢ with hin
  · exact h1
  · rw [h1, (h d hd).2 u hu, if_neg (by omega)]

end EntriesFill

/-- **An entry of `d` was written**, as `w`, and its page reads as `x`. -/
structure Wrote (L : Layout) (N : Prop) (m m' : Mem) (D K : Finset ℕ) (d v : ℕ) (w : Word)
    (x : Option (ℕ → BitVec 8)) : Prop where
  inv : Inv L N m' D K
  images : ImagePut m m' D d v x
  tables : TablesPut m m' D d v w
  framed : Framed L m m' (D.erase d) K
  zero : m'.refCnt 0 = m.refCnt 0
  fails : m'.fails = m.fails

/-- **The pages `lo ≤ v < hi` of `d` were written**: they read as `x`, with entries as `P` says. -/
structure Filled (L : Layout) (N : Prop) (m m' : Mem) (D K : Finset ℕ) (d lo hi : ℕ)
    (x : Option (ℕ → BitVec 8)) (P : Word → Prop) : Prop where
  inv : Inv L N m' D K
  images : ImageFill m m' D d lo hi x
  entries : EntriesFill m m' d lo hi P
  framed : Framed L m m' (D.erase d) K
  zero : m'.refCnt 0 = m.refCnt 0

section Filled

variable {lo hi : ℕ} {P : Word → Prop} {m₁ : Mem} {x y : Option (ℕ → BitVec 8)}

theorem Filled.refl (h : Inv L N m D K) (hle : hi ≤ lo) : Filled L N m m D K d lo hi x P :=
  ⟨h, .refl hle, .refl hle, .refl, rfl⟩

theorem Filled.of_empty {Q : Word → Prop} (h : Filled L N m m' D K d lo hi x P) (hle : hi ≤ lo) :
    Filled L N m m' D K d lo hi y Q := by
  refine ⟨h.inv, fun e he u hu => ?_, ⟨h.entries.1, fun u hu => ?_⟩, h.framed, h.zero⟩
  · rw [h.images e he u hu, if_neg (by omega), if_neg (by omega)]
  · have hent := h.entries.2 u hu
    rw [if_neg (by omega)] at hent
    rwa [if_neg (by omega)]

theorem Filled.put (h : Wrote L N m m₁ D K d v w y) (hd : d ∈ D) (h' : Filled L N m₁ m' D K d lo hi x P)
    (hlo : lo ≤ v) (hhi : v < hi) : Filled L N m m' D K d lo hi x P :=
  ⟨h'.inv, h.images.fill h'.images hlo hhi, .of_put h.tables hd h'.entries hlo hhi, h.framed.trans h'.framed,
    h'.zero.trans h.zero⟩

theorem Filled.cons (h : Wrote L N m m₁ D K d v w x) (hd : d ∈ D) (h' : Filled L N m₁ m' D K d (v + 1) hi x P)
    (hw : P w) (hv : v < hi) : Filled L N m m' D K d v hi x P :=
  ⟨h'.inv, .cons h.images h'.images hv, .cons h.tables hd h'.entries hw hv, h.framed.trans h'.framed,
    h'.zero.trans h.zero⟩

theorem Filled.skip (h : Filled L N m m' D K d (v + 1) hi x P) (hx : image m d v = x) (hP : P (entry m d v)) :
    Filled L N m m' D K d v hi x P :=
  ⟨h.inv, h.images.skip hx, h.entries.skip hP, h.framed, h.zero⟩

end Filled

/-- What a call of `kalloc` does. -/
def Took (L : Layout) (N : Prop) (m : Mem) (D K : Finset ℕ) (r : ℕ) (m' : Mem) : Prop :=
  m'.byte = m.byte ∧
    (r = 0 ∧ m.freelist = [] ∧ m' = { m with fails := m.fails + 1 } ∧ Inv L N m' D K ∨
      r ≠ 0 ∧ m'.fails = m.fails ∧ m.freelist = r :: m'.freelist ∧ Inv L N m' D (insert r K) ∧
        (∀ s, holds m D K s ≠ some r) ∧ ∀ g, g ≠ r → m'.refCnt g = m.refCnt g)

namespace Inv

theorem kalloc_spec (h : Inv L N m D K) : Wp kalloc (Took L N m D K) (fun _ _ => False) m := by
  refine wp_kalloc (fun hnil => ⟨rfl, .inl ⟨rfl, hnil, rfl, ?_⟩⟩) fun f next hf => ⟨rfl, .inr ?_⟩
  · exact h.of_same (sameTables_of_eq rfl) h.counted h.outside h.freePages h.exclusive
  · obtain ⟨hinv, hnone⟩ := h.take hf
    have hmem : f ∈ m.freelist := by simp [hf]
    exact ⟨ne_zero_of_managed ((h.counted.mem_free f).mp hmem).1, rfl, hf, hinv, hnone,
      fun g hg => Mem.refCnt_taken_of_ne hg⟩

/-- **The kernel frees a page of its own.** -/
theorem kfree_spec (h : Inv L N m D K) (hf : f ∈ K) :
    Wp (kfree L f) (fun _ m' => Inv L N m' D (K.erase f) ∧ Kept m m' D ∧ m'.fails = m.fails ∧
      m.freelist.length ≤ m'.freelist.length ∧ ∀ g, g ≠ f → m'.byte g = m.byte g) (fun _ _ => False) m := by
  have hone := h.refCnt_kern hf
  refine wp_kfree (h.managed_of_holds (holds_kern_self hf)) (fun hlt => absurd hlt (by omega)) (fun _ => ?_)
    (by omega)
  obtain ⟨hinv, hkept⟩ := h.drop hf
  exact ⟨hinv, hkept, rfl, Nat.le_succ _, fun g hg => Mem.byte_freed_of_ne hg⟩

/-- A user page of `d` is given up, and its entry cleared. -/
theorem unmapRound (h : Inv L N m D K) (hd : d ∈ D) (hv : v < 160) (hp : present (entry m d v))
    (hne : pageOf (entry m d v) ≠ 0) {Q : Unit → Mem → Prop}
    (hQ : ∀ m', Wrote L N m m' D K d v 0#32 none → m.freelist.length ≤ m'.freelist.length → Q () m') :
    Wp (do
      kfree L (pageOf (entry m d v))
      writePte (pageOf (m.word d 0), v) 0#32) Q E m := by
  have hs := holds_user_self (K := K) hd hv hp hne
  have hman := h.managed_of_holds hs
  have hroot := h.root d hd
  refine wp_bind.mpr (wp_kfree hman (fun hlt => ?_) (fun hone => ?_) (h.counted.count_pos hs))
  · have hheld : held 0#32 = none := held_of_absent not_present_zero
    have hinv := h.unmap (n := m) (w := 0#32) .refl rfl rfl rfl hd hv hs hlt hheld (by simp) (by simp)
    have hput := h.imagePut_setWord (n := m.unref (pageOf (entry m d v))) (w := 0#32) rfl hd hv (by simp [hheld])
    refine wp_writePte.mpr (hQ _ ⟨hinv, hput, h.tablesPut_user (sameTables_of_eq rfl) hd hv, ?_, ?_, rfl⟩ le_rfl)
    · exact h.framed_table hd (by omega) hroot fun g hg => Mem.byte_setWord_of_ne hg
    · exact Mem.refCnt_unref_of_ne hne.symm
  · obtain ⟨hinv, hput⟩ := h.unmapLast hd hv hs hone
    have hsame : SameTables m (m.freed (pageOf (entry m d v))) D :=
      sameTables_of_byte (h.offTables_user hs) fun g hg => Mem.byte_freed_of_ne hg
    have hframe : Framed L m (m.freed (pageOf (entry m d v))) (D.erase d) K :=
      .of_byte hman (h.not_held_erase hs hone (by simp [holds])) fun g hg => Mem.byte_freed_of_ne hg
    have hframe' : Framed L m ((m.freed (pageOf (entry m d v))).setWord (pageOf (m.word d 0)) v 0#32) (D.erase d) K := by
      intro g hg
      rw [← hframe g hg]
      refine Mem.byte_setWord_of_ne ?_
      rintro rfl
      have ht := h.holds_table_self hd (by omega) hroot
      obtain hout | ⟨t, hheld⟩ := hg
      · exact hout (h.managed_of_holds ht)
      · exact h.not_held_erase ht (h.exclusive (.table d 0) _ trivial ht) (by simp [holds]) t hheld
    refine wp_writePte.mpr (hQ _ ⟨hinv, hput, h.tablesPut_user hsame hd hv, hframe', ?_, rfl⟩ (Nat.le_succ _))
    exact Mem.refCnt_freed_of_ne hne.symm

/-- The rounds of `deallocuvm`; a page at address 0 stops them. -/
theorem deallocuvmLoop_frame {n a : ℕ} (h : Inv L N m D K) (hd : d ∈ D) (ha : a + n ≤ 160) :
    Wp (deallocuvmLoop L d n a) (fun _ m' => Filled L N m m' D K d a (a + n) none (¬ present ·) ∧
      m'.fails = m.fails ∧ m.freelist.length ≤ m'.freelist.length)
      (fun e _ => e = .deallocuvm ∧
        ∃ v, a ≤ v ∧ v < a + n ∧ present (entry m d v) ∧ pageOf (entry m d v) = 0) m := by
  induction n generalizing a m with
  | zero => exact wp_pure.mpr ⟨.refl h (by omega), rfl, le_rfl⟩
  | succ n ih =>
    rw [deallocuvmLoop]
    refine wp_bind.mpr (h.wp_walk hd (by omega) ?_)
    simp only [wp_bind, wp_readPte, wp_ite, wp_throw, ← h.entry_user hd (by omega : a < 160)]
    refine ⟨fun hp => ⟨fun h0 => ⟨trivial, a, le_rfl, by omega, hp, h0⟩, fun hne => ?_⟩, fun hp => ?_⟩
    · rw [← wp_bind, ← bind_assoc]
      refine wp_bind.mpr (h.unmapRound hd (by omega) hp hne fun m₁ hput hlen => ?_)
      refine (ih hput.inv (by omega)).mono ?_ ?_
      · rintro _ m' ⟨hfill, hf, hl⟩
        refine ⟨.cons hput hd ?_ not_present_zero (by omega), hf.trans hput.fails, hlen.trans hl⟩
        rwa [show a + (n + 1) = a + 1 + n by omega]
      · rintro e m' ⟨rfl, v, hlo, hhi, hpv, h0⟩
        rw [(hput.tables d hd).2 v (by omega), if_neg (by omega)] at hpv h0
        exact ⟨rfl, v, by omega, by omega, hpv, h0⟩
    · refine (ih h (by omega)).mono ?_ ?_
      · rintro _ m' ⟨hfill, hl⟩
        refine ⟨.skip ?_ (image_eq_none.mpr hp) hp, hl⟩
        rwa [show a + (n + 1) = a + 1 + n by omega]
      · rintro e m' ⟨rfl, v, hlo, hhi, hpv⟩
        exact ⟨rfl, v, by omega, by omega, hpv⟩

end Inv

theorem pgup_mono {a b : ℕ} (h : a ≤ b) : pgup a ≤ pgup b := by
  unfold pgup
  omega

theorem pgup_le {a : ℕ} (h : a ≤ usertop) : pgup a ≤ 160 := pgup_mono h

namespace Inv

/-- **`deallocuvm`** takes the pages between the sizes from one directory. -/
theorem deallocuvm_frame {oldsz : ℕ} (newsz : ℕ) (h : Inv L N m D K) (hd : d ∈ D) (hsz : oldsz ≤ usertop) :
    Wp (deallocuvm L d oldsz newsz) (fun r m' => r = min oldsz newsz ∧
      Filled L N m m' D K d (pgup newsz) (pgup oldsz) none (¬ present ·) ∧
      m'.fails = m.fails ∧ m.freelist.length ≤ m'.freelist.length)
      (fun e _ => e = .deallocuvm ∧
        ∃ v, pgup newsz ≤ v ∧ v < pgup oldsz ∧ present (entry m d v) ∧ pageOf (entry m d v) = 0) m := by
  unfold deallocuvm
  rw [wp_ite, wp_bind, wp_pure]
  refine ⟨fun hle => ⟨(min_eq_left hle).symm, .refl h (pgup_mono hle), rfl, le_rfl⟩, fun hlt => ?_⟩
  have hmono : pgup newsz ≤ pgup oldsz := pgup_mono (by omega)
  have hle := pgup_le hsz
  have hwp := h.deallocuvmLoop_frame hd (a := pgup newsz) (n := pgup oldsz - pgup newsz) (by omega)
  rw [Nat.add_sub_cancel' hmono] at hwp
  refine hwp.imp fun _ m' h' => ?_
  exact wp_pure.mpr ⟨(min_eq_right (by omega)).symm, h'⟩

theorem deallocuvm_spec {oldsz : ℕ} (newsz : ℕ) (h : Inv L N m D K) (hd : d ∈ D) (hsz : oldsz ≤ usertop) :
    Wp (deallocuvm L d oldsz newsz) (fun r m' => r = min oldsz newsz ∧ Inv L N m' D K ∧
      ImageFill m m' D d (pgup newsz) (pgup oldsz) none ∧ m'.fails = m.fails ∧
      m.freelist.length ≤ m'.freelist.length) (fun e _ => e = .deallocuvm ∧ N) m := by
  refine (h.deallocuvm_frame newsz hd hsz).mono ?_ ?_
  · rintro r m' ⟨hr, hfill, hf, hl⟩
    exact ⟨hr, hfill.inv, hfill.images, hf, hl⟩
  · rintro e m' ⟨rfl, v, -, hhi, hp, h0⟩
    have := pgup_le hsz
    exact ⟨rfl, h.frame d hd v (by omega) hp h0⟩

end Inv

theorem Kept.imagePut {m₁ : Mem} {x : Option (ℕ → BitVec 8)} (hk : Kept m m₁ D)
    (h : ImagePut m₁ m' D d v x) : ImagePut m m' D d v x := by
  intro e he u hu
  rw [h e he u hu, hk e he u hu]

theorem kept_of_eq (hb : m'.byte = m.byte) : Kept m m' D :=
  kept_of_same (K := ∅) (sameTables_of_eq hb) (by rw [hb]) fun _ _ _ _ _ _ => by rw [hb]

namespace Inv

theorem notMem_of_none (hnone : ∀ s, holds m D K s ≠ some f) : f ∉ K := fun hf =>
  hnone _ (holds_kern_self hf)

/-- A new page of the kernel, and what is written to it. -/
theorem fresh {m₁ : Mem} (h : Inv L N m₁ D (insert f K)) (m' : Mem) (hbyte : m₁.byte = m.byte)
    (hb : ∀ g, g ≠ f → m'.byte g = m₁.byte g) (hr : m'.refCnt = m₁.refCnt)
    (hl : m'.freelist = m₁.freelist) (hp : m'.freePages = m₁.freePages) :
    Inv L N m' D (insert f K) ∧ Kept m m' D := by
  obtain ⟨hinv, hkept⟩ := h.scribble m' (Finset.mem_insert_self _ _) hb hr hl hp
  exact ⟨hinv, (kept_of_eq hbyte).trans hkept⟩

/-- A new page of the kernel is mapped as a user page. -/
theorem mapFresh (h : Inv L N m' D (insert f K)) (hk : Kept m m' D) (hf : f ∉ K) (hd : d ∈ D) (hv : v < 160)
    (habs : ¬ present (entry m' d v)) {perm : Word} (hperm : IsFlags perm) (hu : userOk perm) :
    Inv L N (m'.setWord (pageOf (m'.word d 0)) v (mkPte f perm)) D K ∧
      ImagePut m (m'.setWord (pageOf (m'.word d 0)) v (mkPte f perm)) D d v (some (m'.byte f)) := by
  have hmem : f ∈ insert f K := Finset.mem_insert_self _ _
  have hlt := lt_of_managed (h.managed_of_holds (holds_kern_self hmem))
  have hpage := pageOf_mkPte hlt hperm
  have hheld : held (mkPte f perm) = some f := held_eq_some.mpr ⟨present_mkPte, h.ne_zero_of_kern hmem, hpage⟩
  obtain ⟨hinv, hput⟩ := h.map rfl (fun _ _ => rfl) rfl rfl hd hv hmem (held_of_absent habs) hheld
    (userOk_mkPte.mpr hu)
  rw [Finset.erase_insert hf] at hinv
  exact ⟨hinv, hk.imagePut hput⟩

/-- **A free page is filled with `b` and mapped** as a user page. -/
theorem wroteFresh {m₁ : Mem} {b : BitVec 8} (h : Inv L N m D K) (hlist : m.freelist = f :: m₁.freelist)
    (hcnt : ∀ g, g ≠ f → m₁.refCnt g = m.refCnt g)
    (hbyte : m₁.byte = m.byte) (hfails : m₁.fails = m.fails) (h₁ : Inv L N m₁ D (insert f K))
    (hnone : ∀ s, holds m D K s ≠ some f) (hd : d ∈ D) (hv : v < 160)
    (habs : ¬ present (entry (m₁.fill f b) d v)) {perm : Word} (hperm : IsFlags perm) (hu : userOk perm) :
    Wrote L N m ((m₁.fill f b).setWord (pageOf ((m₁.fill f b).word d 0)) v (mkPte f perm)) D K d v (mkPte f perm)
      (some fun _ => b) := by
  have hfree : f ∈ m.freelist := by rw [hlist]; exact List.mem_cons_self
  have hb : ∀ g, g ≠ f → (m₁.fill f b).byte g = m.byte g := fun g hg => by rw [Mem.byte_fill_of_ne hg, hbyte]
  obtain ⟨h₂, hk₂⟩ := h₁.fresh (m₁.fill f b) hbyte (fun g hg => Mem.byte_fill_of_ne hg) rfl rfl rfl
  obtain ⟨h₃, hput⟩ := h₂.mapFresh hk₂ (notMem_of_none hnone) hd hv habs hperm hu
  rw [Mem.byte_fill_self] at hput
  refine ⟨h₃, hput, fun e he => ?_, ?_, ?_, hfails⟩
  · have hsame := sameTables_of_byte (h.offTables_free hfree) hb e he
    have ht := h₂.tablesPut_user (w := mkPte f perm) (n := m₁.fill f b) .refl hd hv e he
    refine ⟨fun j hj => (ht.1 j hj).trans (hsame.1 j hj), fun u hu => ?_⟩
    rw [ht.2 u hu, hsame.2 u hu]
  · exact ((h.framed_free hfree hb).mono (Finset.erase_subset _ _) subset_rfl).trans
      ((h₂.framed_table hd (by omega) (h₂.root d hd) fun g hg => Mem.byte_setWord_of_ne hg).mono subset_rfl
        (Finset.subset_insert _ _))
  · exact hcnt 0 (h₁.ne_zero_of_kern (Finset.mem_insert_self _ _)).symm

end Inv

/-- The entry of a page that `allocuvm` gave. -/
def Given (w : Word) : Prop := present w ∧ writable w ∧ pageOf w ≠ 0

namespace Inv

theorem given_mkPte (h : Inv L N m D K) (hf : f ∈ K) : Given (mkPte f (pteW ||| pteU)) := by
  refine ⟨present_mkPte, writable_mkPte.mpr (by decide), ?_⟩
  rw [pageOf_mkPte (lt_of_managed (h.managed_of_holds (holds_kern_self hf))) isFlags_pteW_pteU]
  exact h.ne_zero_of_kern hf

/-- The rounds of `allocuvm`. Out of memory, the pages from `oldsz` on are taken back. -/
theorem allocuvmLoop_frame {n a oldsz newsz : ℕ} (h : Inv L N m D K) (hd : d ∈ D) (hlo : pgup oldsz ≤ a)
    (ha : a + n = pgup newsz) (hsz : newsz ≤ usertop) :
    Wp (allocuvmLoop L d oldsz newsz n a) (fun r m' => m.freelist.length ≤ m'.freelist.length + n ∧
      (r = newsz ∧ m'.fails = m.fails ∧ m.freelist.length = m'.freelist.length + n ∧
          Filled L N m m' D K d a (pgup newsz) (some fun _ => 0) Given ∨
        r = 0 ∧ m.fails < m'.fails ∧ m.freelist.length < n ∧
          Filled L N m m' D K d (pgup oldsz) (pgup newsz) none (¬ present ·)))
      (fun e _ => (e = .remap ∧ ∃ v, a ≤ v ∧ v < pgup newsz ∧ image m d v ≠ none) ∨
        e = .deallocuvm ∧
          ∃ v, pgup oldsz ≤ v ∧ v < pgup newsz ∧ present (entry m d v) ∧ pageOf (entry m d v) = 0) m := by
  have htop := pgup_le hsz
  induction n generalizing a m with
  | zero => exact wp_pure.mpr ⟨le_rfl, .inl ⟨rfl, rfl, rfl, .refl h (by omega)⟩⟩
  | succ n ih =>
    rw [allocuvmLoop]
    refine (h.kalloc_spec.mono (fun _ _ hr => hr) fun _ _ => False.elim).bind ?_
    rintro r m₁ ⟨hbyte, ⟨rfl, hnil, hm₁, h₁⟩ | ⟨hr, hfails, hlist, h₁, hnone, hcnt⟩⟩
    · -- out of memory: the pages of this call are taken back
      have hsame : SameTables m m₁ D := sameTables_of_eq hbyte
      rw [if_pos rfl]
      refine Wp.bind ((h₁.deallocuvm_frame oldsz hd hsz).mono (fun _ _ hr => hr) ?_) ?_
      · rintro e _ ⟨rfl, v, hv, hv', hp, h0⟩
        rw [(hsame d hd).2 v (by omega)] at hp h0
        exact .inr ⟨rfl, v, hv, hv', hp, h0⟩
      · rintro _ m₂ ⟨-, hfill, hf₂, hlen⟩
        have hf₁ : m₁.fails = m.fails + 1 := by rw [hm₁]
        rw [hnil, List.length_nil]
        refine wp_pure.mpr ⟨Nat.zero_le _, .inr ⟨rfl, by omega, Nat.succ_pos n, hfill.inv,
          (kept_of_eq hbyte).fill hfill.images, .of_same hsame hd hfill.entries,
          (Framed.of_eq hbyte).trans hfill.framed, ?_⟩⟩
        rw [hfill.zero, hm₁]
    · rw [if_neg hr]
      obtain ⟨h₂, hk₂⟩ := h₁.fresh (m₁.fill r 0) hbyte (fun g hg => Mem.byte_fill_of_ne hg) rfl rfl rfl
      refine wp_bind.mpr (wp_memset.mpr (wp_bind.mpr (h₂.wp_mapUser hd (by omega) (fun hp => ?_) fun habs => ?_)))
      · refine .inl ⟨rfl, a, le_rfl, by omega, fun himg => ?_⟩
        rw [← hk₂ d hd a (by omega)] at himg
        exact image_eq_none.mp himg hp
      · have hgiven := h₁.given_mkPte (Finset.mem_insert_self r K)
        have hput := h.wroteFresh hlist hcnt hbyte hfails h₁ hnone hd (by omega) habs isFlags_pteW_pteU (by decide)
        have hlen : m.freelist.length = m₁.freelist.length + 1 := by rw [hlist, List.length_cons]
        refine (ih hput.inv (by omega) (by omega)).mono ?_ ?_
        · rintro r' m' ⟨hlen', hok⟩
          have hlen₁ : m₁.freelist.length ≤ m'.freelist.length + n := hlen'
          refine ⟨by omega, ?_⟩
          rcases hok with ⟨hr', hf', hleft, hfill⟩ | ⟨hr', hf', hlt, hfill⟩
          · have hleft₁ : m₁.freelist.length = m'.freelist.length + n := hleft
            exact .inl ⟨hr', hf'.trans hfails, by omega, .cons hput hd hfill hgiven (by omega)⟩
          · refine .inr ⟨hr', hfails.symm.le.trans_lt hf', ?_, .put hput hd hfill hlo (by omega)⟩
            have : m₁.freelist.length < n := hlt
            omega
        · rintro e m' (⟨rfl, v, hlo', hhi, hne⟩ | ⟨rfl, v, hlo', hhi, hp, h0⟩)
          · refine .inl ⟨rfl, v, by omega, by omega, ?_⟩
            rwa [hput.images d hd v (by omega), if_neg (by omega)] at hne
          · rw [(hput.tables d hd).2 v (by omega)] at hp h0
            split_ifs at hp h0 with hva
            · exact absurd h0 hgiven.2.2
            · exact .inr ⟨rfl, v, hlo', hhi, hp, h0⟩

/-- **`allocuvm`** adds zeroed pages to one directory, or takes back what it added. -/
theorem allocuvm_frame {oldsz newsz : ℕ} (h : Inv L N m D K) (hd : d ∈ D) :
    Wp (allocuvm L d oldsz newsz) (fun r m' => m.freelist.length ≤ m'.freelist.length + 160 ∧
      (r = 0 ∧ m' = m ∧ usertop < newsz ∨
        r = max oldsz newsz ∧ m'.fails = m.fails ∧ newsz ≤ usertop ∧
          m.freelist.length = m'.freelist.length + (pgup newsz - pgup oldsz) ∧
          Filled L N m m' D K d (pgup oldsz) (pgup newsz) (some fun _ => 0) Given ∨
        r = 0 ∧ m.fails < m'.fails ∧ m.freelist.length < pgup newsz - pgup oldsz ∧ oldsz ≤ newsz ∧
          newsz ≤ usertop ∧ Filled L N m m' D K d (pgup oldsz) (pgup newsz) none (¬ present ·)))
      (fun e _ => (e = .remap ∨ e = .deallocuvm ∧ N) ∧
        ∃ v, pgup oldsz ≤ v ∧ v < pgup newsz ∧ newsz ≤ usertop ∧ image m d v ≠ none) m := by
  unfold allocuvm
  rw [wp_ite, wp_ite, wp_pure, wp_pure]
  refine ⟨fun hgt => ⟨by omega, .inl ⟨rfl, rfl, hgt⟩⟩, fun hle => ⟨fun hlt => ?_, fun hge => ?_⟩⟩
  · have hmono : pgup newsz ≤ pgup oldsz := pgup_mono (by omega)
    exact ⟨by omega, .inr (.inl ⟨(max_eq_left (by omega)).symm, rfl, by omega, by omega, .refl h hmono⟩)⟩
  · have hmono : pgup oldsz ≤ pgup newsz := pgup_mono (by omega)
    have hle' : pgup newsz ≤ 160 := pgup_le (by omega)
    refine (h.allocuvmLoop_frame hd le_rfl (Nat.add_sub_cancel' hmono) (by omega)).mono ?_ ?_
    · rintro r m' ⟨hlen, ⟨hr, hf, hleft, hfill⟩ | ⟨hr, hf, hlt, hrest⟩⟩
      · exact ⟨by omega, .inr (.inl ⟨hr.trans (max_eq_right (by omega)).symm, hf, by omega, hleft, hfill⟩)⟩
      · exact ⟨by omega, .inr (.inr ⟨hr, hf, hlt, by omega, by omega, hrest⟩)⟩
    · rintro e m' (⟨rfl, v, hlo, hhi, hne⟩ | ⟨rfl, v, hlo, hhi, hp, h0⟩)
      · exact ⟨.inl rfl, v, hlo, hhi, by omega, hne⟩
      · exact ⟨.inr ⟨rfl, h.frame d hd v (by omega) hp h0⟩, v, hlo, hhi, by omega,
          fun himg => image_eq_none.mp himg hp⟩

theorem allocuvm_spec {oldsz newsz : ℕ} (h : Inv L N m D K) (hd : d ∈ D) :
    Wp (allocuvm L d oldsz newsz) (fun r m' => Inv L N m' D K ∧
      m.freelist.length ≤ m'.freelist.length + 160 ∧
      (r = 0 ∧ m' = m ∧ usertop < newsz ∨
        r = max oldsz newsz ∧ m'.fails = m.fails ∧ newsz ≤ usertop ∧
          ImageFill m m' D d (pgup oldsz) (pgup newsz) (some fun _ => 0) ∨
        r = 0 ∧ m.fails < m'.fails ∧ m.freelist.length < 160 ∧ oldsz ≤ newsz ∧ newsz ≤ usertop ∧
          ImageFill m m' D d (pgup oldsz) (pgup newsz) none))
      (fun e _ => (e = .remap ∧ ∃ v, pgup oldsz ≤ v ∧ v < pgup newsz ∧ newsz ≤ usertop ∧ image m d v ≠ none) ∨
        e = .deallocuvm ∧ N) m := by
  refine (h.allocuvm_frame hd).mono ?_ ?_
  · rintro r m' ⟨hlen, ⟨hr, rfl, hgt⟩ | ⟨hr, hf, hle, -, hfill⟩ | ⟨hr, hf, hlt, hge, hle, hfill⟩⟩
    · exact ⟨h, hlen, .inl ⟨hr, rfl, hgt⟩⟩
    · exact ⟨hfill.inv, hlen, .inr (.inl ⟨hr, hf, hle, hfill.images⟩)⟩
    · have htop := pgup_le hle
      exact ⟨hfill.inv, hlen, .inr (.inr ⟨hr, hf, by omega, hge, hle, hfill.images⟩)⟩
  · rintro e m' ⟨rfl | hN, hex⟩
    · exact .inl ⟨rfl, hex⟩
    · exact .inr hN

end Inv

/-! ### What is taken back -/

/-- The directories `D` map the same pages with the same flags. -/
def SameMap (m m' : Mem) (D : Finset ℕ) : Prop :=
  ∀ d ∈ D, (∀ j < 1024, m'.word d j = m.word d j) ∧
    ∀ v < 2 ^ 20, present (entry m d v) ∨ present (entry m' d v) → entry m' d v = entry m d v

theorem SameTables.sameMap (h : SameTables m m' D) : SameMap m m' D := fun d hd =>
  ⟨(h d hd).1, fun v hv _ => (h d hd).2 v hv⟩

theorem SameMap.held_eq (h : SameMap m m' D) (hd : d ∈ D) (hv : v < 2 ^ 20) :
    held (entry m' d v) = held (entry m d v) := by
  by_cases hp : present (entry m d v) ∨ present (entry m' d v)
  · rw [(h d hd).2 v hv hp]
  · rw [not_or] at hp
    rw [held_of_absent hp.1, held_of_absent hp.2]

theorem SameMap.holds_eq (h : SameMap m m' D) : holds m' D K = holds m D K := by
  funext s
  rcases s with f | d | ⟨d, j⟩ | ⟨d, v⟩
  · rfl
  · rfl
  · simp only [holds]
    split_ifs with hd
    · rw [(h d hd.1).1 j hd.2]
    · rfl
  · simp only [holds]
    split_ifs with hd
    · rw [h.held_eq hd.1 (by omega)]
    · rfl

/-- The pages of `d` from `lo` to `hi` are unmapped: nothing else is. -/
theorem Filled.sameMap {lo hi : ℕ} {x : Option (ℕ → BitVec 8)} {m₀ : Mem}
    (h : Filled L N m m' D K d lo hi x (¬ present ·)) (hd : d ∈ D)
    (hrest : ∀ v < 2 ^ 20, ¬ (lo ≤ v ∧ v < hi) → entry m d v = entry m₀ d v)
    (hclear : ∀ v < 2 ^ 20, lo ≤ v → v < hi → ¬ present (entry m₀ d v))
    (hdir : ∀ j < 1024, m.word d j = m₀.word d j) (hsame : SameTables m₀ m (D.erase d)) : SameMap m₀ m' D := by
  intro e he
  rcases eq_or_ne e d with rfl | hne
  · refine ⟨fun j hj => (h.entries.1 j hj).trans (hdir j hj), fun v hv hp => ?_⟩
    have hent := h.entries.2 v hv
    by_cases hin : lo ≤ v ∧ v < hi
    · rw [if_pos hin] at hent
      exact absurd hp (not_or.mpr ⟨hclear v hv hin.1 hin.2, hent⟩)
    · rw [if_neg hin] at hent
      rw [hent, hrest v hv hin]
  · have he' := Finset.mem_erase.mpr ⟨hne, he⟩
    have h1 := hsame e he'
    have h2 := h.framed.same e he'
    exact ⟨fun j hj => (h2.1 j hj).trans (h1.1 j hj), fun v hv _ => (h2.2 v hv).trans (h1.2 v hv)⟩

end OperatingSystems.CowFork
