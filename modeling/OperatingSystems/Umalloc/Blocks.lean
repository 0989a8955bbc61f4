import OperatingSystems.Lib.Circle

/-! # Blocks on a line

What the allocator works on, without the bytes: blocks of `size a` units of 8 bytes from `a` on, the free ones in a
circular list that starts with an empty block `base` below all others.

* `Blocks.give`, `Blocks.merge`: a used block goes into the list, and a free block takes in the next one.
* `Blocks.take`, `Blocks.split`: a free block leaves the list, or its end does.
* `Blocks.grow`: a block above all others. -/

namespace OperatingSystems.Umalloc

open Lib.Circle

variable {base brk brk' a b p x n : ℕ} {size size' next next' : ℕ → ℕ} {F : Finset ℕ} {B B' : Set ℕ}

/-- The blocks, free ones `F` and used ones `B`, lie between `base` and the break and beside each other. -/
structure Blocks (base brk : ℕ) (size next : ℕ → ℕ) (F : Finset ℕ) (B : Set ℕ) : Prop where
  base_mem : base ∈ F
  base_size : size base = 0
  circular : Circular F next
  inside : ∀ a, a ∈ F ∨ a ∈ B → a ≠ base → base + 8 ≤ a ∧ 0 < size a ∧ a + 8 * size a ≤ brk
  apart : ∀ a b, a ∈ F ∨ a ∈ B → b ∈ F ∨ b ∈ B → a < b → a + 8 * size a ≤ b
  disjoint : ∀ a ∈ F, a ∉ B

/-- No free block ends where the next one starts. -/
def Coalesced (size next : ℕ → ℕ) (F : Finset ℕ) : Prop := ∀ a ∈ F, a < next a → a + 8 * size a ≠ next a

/-- The bytes of the blocks. -/
def covered (base : ℕ) (size : ℕ → ℕ) (F : Finset ℕ) (B : Set ℕ) : Set ℕ :=
  {x | ∃ a, (a ∈ F ∧ a ≠ base ∨ a ∈ B) ∧ a ≤ x ∧ x < a + 8 * size a}

namespace Blocks

theorem base_le (h : Blocks base brk size next F B) (ha : a ∈ F ∨ a ∈ B) : base ≤ a := by
  by_cases hne : a = base
  · exact hne.ge
  · have := (h.inside a ha hne).1
    omega

/-- Headers do not overlap. -/
theorem headers (h : Blocks base brk size next F B) (ha : a ∈ F ∨ a ∈ B) (hb : b ∈ F ∨ b ∈ B) (hne : a ≠ b) :
    a + 8 ≤ b ∨ b + 8 ≤ a := by
  have hba := h.base_le ha
  have hbb := h.base_le hb
  obtain hlt | hlt := lt_or_gt_of_ne hne
  · by_cases hbase : a = base
    · have := (h.inside b hb (by omega)).1
      omega
    · have := (h.inside a ha hbase).2.1
      have := h.apart a b ha hb hlt
      omega
  · by_cases hbase : b = base
    · have := (h.inside a ha (by omega)).1
      omega
    · have := (h.inside b hb hbase).2.1
      have := h.apart b a hb ha hlt
      omega

theorem ne_base (h : Blocks base brk size next F B) (ha : a ∈ B) : a ≠ base :=
  fun heq => h.disjoint base h.base_mem (heq ▸ ha)

/-- Only the blocks count. -/
theorem congr (h : Blocks base brk size next F B) (hsize : ∀ a, a ∈ F ∨ a ∈ B → size' a = size a)
    (hnext : ∀ a ∈ F, next' a = next a) : Blocks base brk size' next' F B where
  base_mem := h.base_mem
  base_size := (hsize base (.inl h.base_mem)).trans h.base_size
  circular a ha := hnext a ha ▸ h.circular a ha
  inside a ha hne := hsize a ha ▸ h.inside a ha hne
  apart a b ha hb := hsize a ha ▸ h.apart a b ha hb
  disjoint := h.disjoint

/-- **A used block goes into the list** behind `p`. -/
theorem give (h : Blocks base brk size next F B) (hb : b ∈ B) (hp : p ∈ F) (hbtw : Between p (next p) b)
    (h1 : next' p = b) (h2 : next' b = next p) (hrest : ∀ a ∈ F, a ≠ p → next' a = next a) :
    Blocks base brk size next' (insert b F) (B \ {b}) := by
  have hold : ∀ a, a ∈ insert b F ∨ a ∈ B \ {b} → a ∈ F ∨ a ∈ B := by
    rintro a (ha | ha)
    · obtain rfl | ha := Finset.mem_insert.mp ha
      · exact .inr hb
      · exact .inl ha
    · exact .inr ha.1
  constructor
  case base_mem => exact Finset.mem_insert_of_mem h.base_mem
  case base_size => exact h.base_size
  case circular => exact h.circular.insert hp hbtw h1 h2 hrest
  case inside => exact fun a ha => h.inside a (hold a ha)
  case apart => exact fun a c ha hc => h.apart a c (hold a ha) (hold c hc)
  case disjoint =>
    intro a ha hab
    obtain rfl | ha := Finset.mem_insert.mp ha
    · exact hab.2 rfl
    · exact h.disjoint a ha hab.1

/-- **A free block takes in the next one.** -/
theorem merge (h : Blocks base brk size next F B) (ha : a ∈ F) (hbase : a ≠ base) (hb : next a = b)
    (heq : a + 8 * size a = b) (h1 : size' a = size a + size b) (h2 : next' a = next b)
    (hsize : ∀ c, c ∈ F ∨ c ∈ B → c ≠ a → size' c = size c)
    (hnext : ∀ c ∈ F, c ≠ a → next' c = next c) : Blocks base brk size' next' (F.erase b) B := by
  subst hb
  have hmem := h.circular.next_mem ha
  have hpos := (h.inside a (.inl ha) hbase).2.1
  have hbaselt := (h.inside a (.inl ha) hbase).1
  have hne : next a ≠ a := by omega
  have hnb : next a ≠ base := by omega
  have hin := h.inside (next a) (.inl hmem) hnb
  have hold : ∀ c, c ∈ F.erase (next a) ∨ c ∈ B → (c ∈ F ∨ c ∈ B) ∧ c ≠ next a := by
    rintro c (hc | hc)
    · exact ⟨.inl (Finset.mem_of_mem_erase hc), Finset.ne_of_mem_erase hc⟩
    · exact ⟨.inr hc, fun hcn => h.disjoint _ hmem (hcn ▸ hc)⟩
  constructor
  case base_mem => exact Finset.mem_erase.mpr ⟨hnb.symm, h.base_mem⟩
  case base_size => exact (hsize base (.inl h.base_mem) hbase.symm).trans h.base_size
  case circular => exact h.circular.erase ha hne h2 fun c hc hca _ => hnext c hc hca
  case inside =>
    intro c hc hcb
    obtain ⟨hc', hcn⟩ := hold c hc
    by_cases hca : c = a
    · subst hca
      rw [h1]
      omega
    · rw [hsize c hc' hca]
      exact h.inside c hc' hcb
  case apart =>
    intro c d hc hd hlt
    obtain ⟨hc', hcn⟩ := hold c hc
    obtain ⟨hd', hdn⟩ := hold d hd
    by_cases hca : c = a
    · subst hca
      have h1' := h.apart c d hc' hd' hlt
      have h2' := h.apart (next c) d (.inl hmem) hd' (by omega)
      rw [h1]
      omega
    · rw [hsize c hc' hca]
      exact h.apart c d hc' hd' hlt
  case disjoint => exact fun c hc => h.disjoint c (Finset.mem_of_mem_erase hc)

/-- **A free block leaves the list.** -/
theorem take (h : Blocks base brk size next F B) (hp : p ∈ F) (hbase : next p ≠ base) (h1 : next' p = next (next p))
    (hrest : ∀ c ∈ F, c ≠ p → next' c = next c) :
    Blocks base brk size next' (F.erase (next p)) (insert (next p) B) := by
  have hmem := h.circular.next_mem hp
  have hne : next p ≠ p := by
    intro heq
    have hno := (h.circular p hp).2 base h.base_mem
    rw [heq] at hno hbase
    have := h.base_le (.inl hp)
    unfold Between at hno
    omega
  have hold : ∀ c, c ∈ F.erase (next p) ∨ c ∈ insert (next p) B → c ∈ F ∨ c ∈ B := by
    rintro c (hc | rfl | hc)
    · exact .inl (Finset.mem_of_mem_erase hc)
    · exact .inl hmem
    · exact .inr hc
  constructor
  case base_mem => exact Finset.mem_erase.mpr ⟨hbase.symm, h.base_mem⟩
  case base_size => exact h.base_size
  case circular => exact h.circular.erase hp hne h1 fun c hc hca _ => hrest c hc hca
  case inside => exact fun c hc => h.inside c (hold c hc)
  case apart => exact fun c d hc hd => h.apart c d (hold c hc) (hold d hd)
  case disjoint =>
    rintro c hc (rfl | hcB)
    · exact Finset.ne_of_mem_erase hc rfl
    · exact h.disjoint c (Finset.mem_of_mem_erase hc) hcB

/-- **The end of a free block becomes a used one.** -/
theorem split (h : Blocks base brk size next F B) (ha : a ∈ F) (hn : n < size a) (h0 : 0 < n)
    (hb : b = a + 8 * (size a - n)) (h1 : size' a = size a - n) (h2 : size' b = n)
    (hsize : ∀ c, c ∈ F ∨ c ∈ B → c ≠ a → size' c = size c) : Blocks base brk size' next F (insert b B) := by
  have hbase : a ≠ base := fun heq => by
    rw [heq, h.base_size] at hn
    omega
  have hin := h.inside a (.inl ha) hbase
  -- the new block lies inside the old one
  have hnew : ∀ c, c ∈ F ∨ c ∈ B → c + 8 * size c ≤ a ∨ c = a ∨ b + 8 * n ≤ c := by
    intro c hc
    obtain hlt | rfl | hlt := lt_trichotomy c a
    · exact .inl (h.apart c a hc (.inl ha) hlt)
    · exact .inr (.inl rfl)
    · have := h.apart a c (.inl ha) hc hlt
      exact .inr (.inr (by omega))
  have hbF : b ∉ F := fun hbF => by
    have := hnew b (.inl hbF)
    omega
  constructor
  case base_mem => exact h.base_mem
  case base_size => exact (hsize base (.inl h.base_mem) hbase.symm).trans h.base_size
  case circular => exact h.circular
  case inside =>
    rintro c hc hcb
    by_cases hca : c = a
    · subst hca
      rw [h1]
      omega
    by_cases hcb' : c = b
    · subst hcb'
      rw [h2]
      omega
    have hc' : c ∈ F ∨ c ∈ B := hc.imp_right fun hc => hc.resolve_left hcb'
    rw [hsize c hc' hca]
    exact h.inside c hc' hcb
  case apart =>
    intro c d hc hd hlt
    have hof : ∀ e, e ∈ F ∨ e ∈ insert b B → e ≠ b → e ∈ F ∨ e ∈ B := fun e he heb =>
      he.imp_right fun he => he.resolve_left heb
    by_cases hcb : c = b
    · subst hcb
      have := hnew d (hof d hd (by omega))
      rw [h2]
      omega
    have hc' := hof c hc hcb
    by_cases hca : c = a
    · subst hca
      rw [h1]
      by_cases hdb : d = b
      · omega
      · have := h.apart c d hc' (hof d hd hdb) hlt
        omega
    rw [hsize c hc' hca]
    by_cases hdb : d = b
    · have := hnew c hc'
      omega
    · exact h.apart c d hc' (hof d hd hdb) hlt
  case disjoint =>
    rintro c hc (rfl | hcB)
    · exact hbF hc
    · exact h.disjoint c hc hcB

/-- **A new block at the end.** -/
theorem grow (h : Blocks base brk size next F B) (hb : brk ≤ b) (hbb : base + 8 ≤ b) (hpos : 0 < size' b)
    (hend : b + 8 * size' b ≤ brk') (hsize : ∀ c, c ∈ F ∨ c ∈ B → size' c = size c) :
    Blocks base brk' size' next F (insert b B) := by
  have hlow : ∀ c, c ∈ F ∨ c ∈ B → c < b := by
    intro c hc
    by_cases hcb : c = base
    · omega
    · have := h.inside c hc hcb
      omega
  have hof : ∀ c, c ∈ F ∨ c ∈ insert b B → c ≠ b → c ∈ F ∨ c ∈ B := fun c hc hcb =>
    hc.imp_right fun hc => hc.resolve_left hcb
  constructor
  case base_mem => exact h.base_mem
  case base_size => exact (hsize base (.inl h.base_mem)).trans h.base_size
  case circular => exact h.circular
  case inside =>
    intro c hc hcbase
    by_cases hcb : c = b
    · subst hcb
      exact ⟨hbb, hpos, hend⟩
    · have := h.inside c (hof c hc hcb) hcbase
      rw [hsize c (hof c hc hcb)]
      omega
  case apart =>
    intro c d hc hd hlt
    have hcb : c ≠ b := fun hcb => by
      by_cases hdb : d = b
      · omega
      · have := hlow d (hof d hd hdb)
        omega
    have hc' := hof c hc hcb
    rw [hsize c hc']
    by_cases hdb : d = b
    · by_cases hcbase : c = base
      · rw [hcbase, h.base_size]
        omega
      · have := h.inside c hc' hcbase
        omega
    · exact h.apart c d hc' (hof d hd hdb) hlt
  case disjoint =>
    rintro c hc (rfl | hcB)
    · exact absurd (hlow c (.inl hc)) (lt_irrefl c)
    · exact h.disjoint c hc hcB

end Blocks

/-! ### The bytes of the blocks -/

theorem covered_congr (hsize : ∀ a, a ∈ F ∨ a ∈ B → size' a = size a) :
    covered base size' F B = covered base size F B := by
  refine Set.ext fun x => exists_congr fun a => and_congr_right fun ha => ?_
  rw [hsize a (ha.imp_left And.left)]

theorem covered_give (h : Blocks base brk size next F B) (hb : b ∈ B) :
    covered base size (insert b F) (B \ {b}) = covered base size F B := by
  refine Set.ext fun x => exists_congr fun a => and_congr_left fun _ => ?_
  by_cases hab : a = b
  · subst hab
    simp [h.ne_base hb, hb]
  · simp [hab]

theorem covered_merge (h : Blocks base brk size next F B) (ha : a ∈ F) (hbase : a ≠ base) (hb : next a = b)
    (heq : a + 8 * size a = b) (h1 : size' a = size a + size b)
    (hsize : ∀ c, c ∈ F ∨ c ∈ B → c ≠ a → size' c = size c) :
    covered base size' (F.erase b) B = covered base size F B := by
  subst hb
  have hmem := h.circular.next_mem ha
  have hin := h.inside a (.inl ha) hbase
  ext x
  constructor
  · rintro ⟨c, hc, hlo, hhi⟩
    by_cases hca : c = a
    · rw [hca] at hlo hhi
      by_cases hx : x < next a
      · exact ⟨a, .inl ⟨ha, hbase⟩, hlo, by omega⟩
      · exact ⟨next a, .inl ⟨hmem, by omega⟩, by omega, by omega⟩
    · have hc' := hc.imp_left fun hc => And.intro (Finset.mem_of_mem_erase hc.1) hc.2
      exact ⟨c, hc', hlo, by rwa [← hsize c (hc'.imp_left And.left) hca]⟩
  · rintro ⟨c, hc, hlo, hhi⟩
    by_cases hcn : c = next a
    · refine ⟨a, .inl ⟨Finset.mem_erase.mpr ⟨by omega, ha⟩, hbase⟩, by omega, ?_⟩
      rw [h1]
      rw [hcn] at hhi
      omega
    · refine ⟨c, hc.imp_left fun hc => ⟨Finset.mem_erase.mpr ⟨hcn, hc.1⟩, hc.2⟩, hlo, ?_⟩
      by_cases hca : c = a
      · rw [hca] at hhi ⊢
        omega
      · rwa [hsize c (hc.imp_left And.left) hca]

theorem covered_take (h : Blocks base brk size next F B) (hp : p ∈ F) (hbase : next p ≠ base) :
    covered base size (F.erase (next p)) (insert (next p) B) = covered base size F B := by
  have hmem := h.circular.next_mem hp
  refine Set.ext fun x => exists_congr fun a => and_congr_left fun _ => ?_
  by_cases hap : a = next p
  · simp [hap, hmem, hbase]
  · simp [hap]

theorem covered_split (h : Blocks base brk size next F B) (ha : a ∈ F) (hn : n < size a)
    (hb : b = a + 8 * (size a - n)) (h1 : size' a = size a - n) (h2 : size' b = n)
    (hsize : ∀ c, c ∈ F ∨ c ∈ B → c ≠ a → size' c = size c) (hbB : b ∉ B) :
    covered base size' F (insert b B) = covered base size F B := by
  have hbase : a ≠ base := fun heq => by
    rw [heq, h.base_size] at hn
    omega
  ext x
  constructor
  · rintro ⟨c, hc | rfl | hc, hlo, hhi⟩
    · by_cases hca : c = a
      · rw [hca] at hlo hhi
        exact ⟨a, .inl ⟨ha, hbase⟩, hlo, by omega⟩
      · exact ⟨c, .inl hc, hlo, by rwa [← hsize c (.inl hc.1) hca]⟩
    · exact ⟨a, .inl ⟨ha, hbase⟩, by omega, by omega⟩
    · by_cases hca : c = a
      · exact absurd (hca ▸ hc) (h.disjoint a ha)
      · exact ⟨c, .inr hc, hlo, by rwa [← hsize c (.inr hc) hca]⟩
  · rintro ⟨c, hc, hlo, hhi⟩
    by_cases hca : c = a
    · rw [hca] at hlo hhi
      by_cases hx : x < b
      · exact ⟨a, .inl ⟨ha, hbase⟩, hlo, by omega⟩
      · exact ⟨b, .inr (.inl rfl), by omega, by omega⟩
    · exact ⟨c, hc.imp_right .inr, hlo, by rwa [hsize c (hc.imp_left And.left) hca]⟩

theorem covered_grow (hsize : ∀ c, c ∈ F ∨ c ∈ B → size' c = size c) :
    covered base size' F (insert b B) = covered base size F B ∪ {x | b ≤ x ∧ x < b + 8 * size' b} := by
  rw [← covered_congr hsize]
  ext x
  constructor
  · rintro ⟨c, hc | rfl | hc, hx⟩
    · exact .inl ⟨c, .inl hc, hx⟩
    · exact .inr hx
    · exact .inl ⟨c, .inr hc, hx⟩
  · rintro (⟨c, hc, hx⟩ | hx)
    · exact ⟨c, hc.imp_right .inr, hx⟩
    · exact ⟨b, .inr (.inl rfl), hx⟩

end OperatingSystems.Umalloc
