import OperatingSystems.Umalloc.Free

/-! # malloc

* `Moved`: what a call changes, as the owner of a block sees it.
* `free_moved`, `malloc_spec`: the two calls; both return. -/

namespace OperatingSystems.Umalloc

open Lib.Circle Lib.Words Heap

variable {base bp p q a b n x : ℕ} {h t u : Heap} {F F' F₁ : Finset ℕ} {B B' B₁ : Set ℕ} {size next : ℕ → ℕ} {brk : ℕ}

namespace Blocks

/-- No header of another block is in a used one. -/
theorem outside_header (hB : Blocks base brk size next F B) (hb : b ∈ B) (hx : b ≤ x) (hx' : x < b + 8 * size b)
    (ha : a ∈ F ∨ a ∈ B) (hne : a ≠ b) : x < a ∨ a + 8 ≤ x := by
  have hbin := hB.inside b (.inr hb) (hB.ne_base hb)
  by_cases hab : a = base
  · omega
  have hain := hB.inside a ha hab
  obtain hlt | hlt := lt_or_gt_of_ne hne
  · have := hB.apart a b ha (.inr hb) hlt
    omega
  · have := hB.apart b a (.inr hb) ha hlt
    omega

/-- The header of a free block is one of its bytes, or `base`. -/
theorem outside_free (hB : Blocks base brk size next F B) (ha : a ∈ F) (hbase : x < base ∨ base + 8 ≤ x)
    (hno : x ∉ covered base size F B') : x < a ∨ a + 8 ≤ x := by
  by_cases hab : a = base
  · rwa [hab]
  · have hin := hB.inside a (.inl ha) hab
    by_contra hx
    exact hno ⟨a, .inl ⟨ha, hab⟩, by omega, by omega⟩

/-- The bytes of a used block are not those of a free one. -/
theorem not_covered (hB : Blocks base brk size next F B) (hb : b ∈ B) (hx : b ≤ x) (hx' : x < b + 8 * size b) :
    x ∉ covered base size F ∅ := by
  rintro ⟨a, ⟨ha, -⟩ | ha, hlo, hhi⟩
  · have hne : a ≠ b := fun heq => hB.disjoint a ha (heq ▸ hb)
    obtain hlt | hlt := lt_or_gt_of_ne hne
    · have := hB.apart a b (.inl ha) (.inr hb) hlt
      omega
    · have := hB.apart b a (.inr hb) (.inl ha) hlt
      omega
  · exact ha

end Blocks

theorem covered_mono (hBB : B ⊆ B') : covered base size F B ⊆ covered base size F B' :=
  fun _ ⟨a, ha, hx⟩ => ⟨a, ha.imp_right fun ha => hBB ha, hx⟩

/-- **What a call changes**: used blocks keep their sizes, and bytes below the break are kept that are neither
in a free block nor in one that becomes free, nor `base`. No memory is lost. -/
structure Moved (base : ℕ) (h t : Heap) (F F' : Finset ℕ) (B B' : Set ℕ) : Prop where
  good : Good base t F' B'
  freep : t.freep ∈ F'
  extent : covered base t.size F' B' = covered base h.size F B ∪ {x | h.brk ≤ x ∧ x < t.brk}
  brk : h.brk ≤ t.brk
  limit : t.limit = h.limit
  size : ∀ b ∈ B, b ∈ B' → t.size b = h.size b
  byte : ∀ x < h.brk, (x < base ∨ base + 8 ≤ x) → x ∉ covered base h.size F (B \ B') → t.byte x = h.byte x

/-- Two calls that leave the used blocks to their owners. -/
theorem Moved.trans (h1 : Moved base h t F F₁ B B₁)
    (h2 : Moved base t u F₁ F' B₁ B') (hs1 : B ⊆ B₁) (hs2 : B₁ ⊆ B') : Moved base h u F F' B B' := by
  have hnone1 : B \ B₁ = ∅ := Set.sdiff_eq_empty.mpr hs1
  have hnone2 : B₁ \ B' = ∅ := Set.sdiff_eq_empty.mpr hs2
  have hb1 := h1.byte
  have hb2 := h2.byte
  rw [hnone1] at hb1
  rw [hnone2] at hb2
  constructor
  case good => exact h2.good
  case freep => exact h2.freep
  case extent =>
    rw [h2.extent, h1.extent, Set.union_assoc]
    have hle1 := h1.brk
    have hle2 := h2.brk
    congr 1
    ext x
    simp only [Set.mem_union, Set.mem_ofPred_eq]
    omega
  case brk => exact h1.brk.trans h2.brk
  case limit => exact h2.limit.trans h1.limit
  case size => exact fun b hb hb' => (h2.size b (hs1 hb) hb').trans (h1.size b hb (hs1 hb))
  case byte =>
    intro x hx hbase hno
    rw [Set.sdiff_eq_empty.mpr (hs1.trans hs2)] at hno
    rw [hb2 x (hx.trans_le h1.brk) hbase, hb1 x hx hbase hno]
    intro hmem
    obtain ⟨a, ⟨ha, hne⟩ | ha, hlo, hhi⟩ : x ∈ covered base h.size F B := by
      have hcov := covered_mono (Set.empty_subset B₁) hmem
      rw [h1.extent] at hcov
      exact hcov.resolve_right fun hnew => absurd hx (not_lt.mpr hnew.1)
    · exact hno ⟨a, .inl ⟨ha, hne⟩, hlo, hhi⟩
    · rw [← h1.size a ha (hs1 ha)] at hhi
      exact h1.good.blocks.not_covered (hs1 ha) hlo hhi hmem

theorem union_new_self {S : Set ℕ} : S ∪ {x | brk ≤ x ∧ x < brk} = S :=
  Set.union_eq_self_of_subset_right fun _ hx => absurd hx.2 (not_lt.mpr hx.1)

/-- `free`, as the owners of other blocks see it. -/
theorem Freed.moved (hg : Good base h F B) (hb : bp ∈ B) (hp : p ∈ F) (hf : Freed base h t bp p F F' B) :
    Moved base h t F F' B (B \ {bp}) where
  good := hf.good
  freep := hf.freep
  extent := by
    rw [hf.extent, hf.brk, union_new_self]
  brk := hf.brk.ge
  limit := hf.limit
  size b hbB hb' := hf.size b hbB hb'.2
  byte x hx hbase hno := by
    have hbin := hg.blocks.inside bp (.inr hb) (hg.blocks.ne_base hb)
    refine hf.byte x ?_ ?_
    · by_contra hin
      exact hno ⟨bp, .inr ⟨hb, fun hb' => hb'.2 rfl⟩, by omega, by omega⟩
    · exact hg.blocks.outside_free hp hbase hno

/-- The list may be entered at another block. -/
theorem Good.withFreep (hg : Good base h F B) : Good base { h with freep := p } F B :=
  ⟨hg.blocks, hg.coalesced, hg.base_pos, hg.base_le, hg.brk_lt⟩

/-- **A used block of `n` units** is new. -/
structure Carved (base : ℕ) (h t : Heap) (n r : ℕ) (F : Finset ℕ) (B : Set ℕ) : Prop where
  moved : ∃ b F', r = b + 8 ∧ b ∉ B ∧ t.size b = n ∧ Moved base h t F F' B (insert b B)

/-- A block leaves the list. -/
theorem Good.take (hg : Good base h F B) (hp : p ∈ F) (hbase : h.ptr p ≠ base) :
    p ≠ h.ptr p ∧ Good base (h.setPtr p (h.ptr (h.ptr p))) (F.erase (h.ptr p)) (insert (h.ptr p) B) ∧
      (∀ a, a ∈ F ∨ a ∈ B → (h.setPtr p (h.ptr (h.ptr p))).size a = h.size a) ∧
      covered base (h.setPtr p (h.ptr (h.ptr p))).size (F.erase (h.ptr p)) (insert (h.ptr p) B) =
        covered base h.size F B := by
  have hq := hg.blocks.circular.next_mem hp
  have hno := (hg.blocks.circular p hp).2 base hg.blocks.base_mem
  have hlow := hg.blocks.base_le (.inl hp)
  have hlow' := hg.blocks.base_le (.inl hq)
  have hpq : p < h.ptr p := by
    unfold Between at hno
    omega
  have hhead : Header h (h.setPtr p (h.ptr (h.ptr p))) p := .setPtr
  have hptrp : (h.setPtr p (h.ptr (h.ptr p))).ptr p = h.ptr (h.ptr p) := ptr_setPtr ptr_lt
  have hsize : ∀ a, a ∈ F ∨ a ∈ B → (h.setPtr p (h.ptr (h.ptr p))).size a = h.size a := by
    intro a ha
    by_cases hap : a = p
    · rw [hap, size_setPtr]
    · exact hhead.size a (hg.far ha (.inl hp) hap)
  have hptr : ∀ a ∈ F, a ≠ p → (h.setPtr p (h.ptr (h.ptr p))).ptr a = h.ptr a := fun a ha hne =>
    hhead.ptr a (hg.far (.inl ha) (.inl hp) hne)
  have hsize' : ∀ a, a ∈ F.erase (h.ptr p) ∨ a ∈ insert (h.ptr p) B →
      (h.setPtr p (h.ptr (h.ptr p))).size a = h.size a := by
    rintro a (ha | rfl | ha)
    · exact hsize a (.inl (Finset.mem_of_mem_erase ha))
    · exact hsize _ (.inl hq)
    · exact hsize a (.inr ha)
  have hblocks := (hg.blocks.take hp hbase hptrp hptr).congr hsize' fun _ _ => rfl
  refine ⟨hpq.ne, ⟨hblocks, fun a ha hlt heq => ?_, hg.base_pos, hg.base_le, hg.brk_lt⟩, hsize,
    (covered_congr hsize').trans (covered_take hg.blocks hp hbase)⟩
  obtain ⟨-, ha⟩ := Finset.mem_erase.mp ha
  by_cases hap : a = p
  · -- the block that was in between is not empty
    rw [hap, hptrp] at hlt
    rw [hap, hptrp, hsize p (.inl hp)] at heq
    have hend := hg.blocks.apart p _ (.inl hp) (.inl hq) hpq
    have hno' := (hg.blocks.circular _ hq).2 p hp
    unfold Between at hno'
    omega
  · rw [hptr a ha hap] at hlt heq
    rw [hsize a (.inl ha)] at heq
    exact hg.coalesced a ha hlt heq

/-- The end of a free block is used. -/
theorem Good.split (hg : Good base h F B) (hq : q ∈ F) (hn : 0 < n) (hlt : n < h.size q)
    (hb : b = q + 8 * (h.size q - n)) :
    Good base ((h.setSize q (h.size q - n)).setSize b n) F (insert b B) ∧ b ∉ B ∧
      ((h.setSize q (h.size q - n)).setSize b n).size b = n ∧
      (∀ a ∈ B, ((h.setSize q (h.size q - n)).setSize b n).size a = h.size a) ∧
      covered base ((h.setSize q (h.size q - n)).setSize b n).size F (insert b B) = covered base h.size F B := by
  have hbase : q ≠ base := fun heq => by
    rw [heq, hg.blocks.base_size] at hlt
    omega
  have hin := hg.blocks.inside q (.inl hq) hbase
  have hbrk := hg.brk_lt
  have hqb : Far q b := .inl (by omega)
  have hbB : b ∉ B := fun hbB => by
    have := hg.blocks.apart q b (.inl hq) (.inr hbB) (by omega)
    omega
  have hfar : ∀ a, a ∈ F ∨ a ∈ B → a ≠ q → Far a q ∧ Far a b := by
    intro a ha hne
    have haq := hg.far ha (.inl hq) hne
    refine ⟨haq, ?_⟩
    obtain hlt' | hlt' := lt_or_gt_of_ne hne
    · unfold Far at haq ⊢
      omega
    · have := hg.blocks.apart q a (.inl hq) ha hlt'
      exact .inr (by omega)
  have hsizeq : ((h.setSize q (h.size q - n)).setSize b n).size q = h.size q - n := by
    rw [size_setSize_far hqb, size_setSize (by omega)]
  have hsizeb : ((h.setSize q (h.size q - n)).setSize b n).size b = n := size_setSize (by omega)
  have hsize : ∀ a, a ∈ F ∨ a ∈ B → a ≠ q → ((h.setSize q (h.size q - n)).setSize b n).size a = h.size a := by
    intro a ha hne
    obtain ⟨h1, h2⟩ := hfar a ha hne
    rw [size_setSize_far h2, size_setSize_far h1]
  have hptr : ∀ a ∈ F, ((h.setSize q (h.size q - n)).setSize b n).ptr a = h.ptr a := by
    intro a ha
    by_cases hne : a = q
    · rw [hne, ptr_setSize_far hqb, ptr_setSize]
    · obtain ⟨h1, h2⟩ := hfar a (.inl ha) hne
      rw [ptr_setSize_far h2, ptr_setSize_far h1]
  have hblocks := (hg.blocks.split hq hlt hn hb hsizeq hsizeb hsize).congr (fun _ _ => rfl) hptr
  refine ⟨⟨hblocks, fun a ha => ?_, hg.base_pos, hg.base_le, hbrk⟩, hbB, hsizeb, fun a ha => ?_,
    covered_split hg.blocks hq hlt hb hsizeq hsizeb hsize hbB⟩
  · have hco := hg.coalesced a ha
    rw [hptr a ha]
    by_cases hne : a = q
    · subst hne
      rw [hsizeq]
      intro hlt' heq
      have := hg.blocks.apart a _ (.inl hq) (.inl (hg.blocks.circular.next_mem hq)) hlt'
      omega
    · rw [hsize a (.inl ha) hne]
      exact hco
  · exact hsize a (.inr ha) fun heq => hg.blocks.disjoint q hq (heq ▸ ha)

/-- **A block that is large enough** loses what is asked for. -/
theorem carve_spec (hg : Good base h F B) (hp : p ∈ F) (hn : 0 < n) (hle : n ≤ h.size (h.ptr p)) :
    Carved base h (carve h n p (h.ptr p)).2 n (carve h n p (h.ptr p)).1 F B := by
  have hq := hg.blocks.circular.next_mem hp
  have hbase : h.ptr p ≠ base := fun heq => by
    rw [heq, hg.blocks.base_size] at hle
    omega
  have hin := hg.blocks.inside _ (.inl hq) hbase
  have hbrk := hg.brk_lt
  unfold carve
  by_cases hall : h.size (h.ptr p) = n
  · rw [if_pos hall]
    obtain ⟨hpq, hgood, hsize, hcov⟩ := hg.take hp hbase
    have hhead : Header h (h.setPtr p (h.ptr (h.ptr p))) p := .setPtr
    refine ⟨h.ptr p, F.erase (h.ptr p), plus_eq (by omega), hg.blocks.disjoint _ hq, (hsize _ (.inl hq)).trans hall,
      hgood.withFreep, Finset.mem_erase.mpr ⟨hpq, hp⟩, hcov.trans union_new_self.symm, le_rfl, rfl,
      fun a ha _ => hsize a (.inr ha), fun x _ hbase' hno => hhead.byte x (hg.blocks.outside_free hp hbase' hno)⟩
  · rw [if_neg hall]
    have hq' : plus (h.ptr p) (h.size (h.ptr p) - n) = h.ptr p + 8 * (h.size (h.ptr p) - n) := plus_eq (by omega)
    have hsz : (h.setSize (h.ptr p) (h.size (h.ptr p) - n)).size (h.ptr p) = h.size (h.ptr p) - n :=
      size_setSize (by omega)
    simp only [hsz, hq']
    obtain ⟨hgood, hnot, hsizeb, hsize, hcov⟩ := hg.split hq hn (by omega) rfl
    refine ⟨h.ptr p + 8 * (h.size (h.ptr p) - n), F, plus_eq (by omega), hnot, hsizeb, hgood.withFreep, hp,
      hcov.trans union_new_self.symm, le_rfl, rfl, fun a ha _ => hsize a ha, fun x _ hbase' hno => ?_⟩
    have hnone : ¬ (h.ptr p ≤ x ∧ x < h.ptr p + 8 * h.size (h.ptr p)) := fun hx => hno ⟨_, .inl ⟨hq, hbase⟩, hx⟩
    exact (byte_setSize (by omega)).trans (byte_setSize (by omega))

/-! ### More memory -/

/-- The units that `morecore` asks for. -/
def more (nu : ℕ) : ℕ := if nu < 4096 then 4096 else nu

theorem le_more (nu : ℕ) : nu ≤ more nu ∧ 0 < more nu := by
  unfold more
  split_ifs <;> omega

theorem morecore_eq {fuel : ℕ} : morecore fuel h n = match h.sbrk (more n * 8 % 2 ^ 32) with
    | none => some (0, h)
    | some (hp, h) => (free fuel (h.setSize hp (more n)) (plus hp 1)).map fun h => (h.freep, h) := rfl

/-- **`morecore` returns**: 0 if the kernel refuses, or there is a free block that is large enough. -/
theorem morecore_spec (hg : Good base h F B) (hf : h.freep ∈ F) (hlim : h.limit < 2 ^ 31) (hn : more n * 8 < 2 ^ 31) :
    h.limit < h.brk + 8 * more n ∧ Returns (fun fuel => morecore fuel h n) (0, h) ∨
      h.brk + 8 * more n ≤ h.limit ∧ ∃ t F', Returns (fun fuel => morecore fuel h n) (t.freep, t) ∧
        Moved base h t F F' B B ∧ ∃ a ∈ F', n ≤ t.size a := by
  obtain ⟨hle, hpos⟩ := le_more n
  have hmod : more n * 8 % 2 ^ 32 = 8 * more n := by omega
  by_cases hfit : h.brk + 8 * more n ≤ h.limit
  · have hsbrk : h.sbrk (8 * more n) = some (h.brk, { h with brk := h.brk + 8 * more n }) := by
      unfold sbrk
      rw [if_neg (by omega), if_pos (by omega), if_pos hfit]
    -- the new memory is a used block first
    have hhead : Header { h with brk := h.brk + 8 * more n } _ h.brk := .setSize (n := more n)
    have hlow : ∀ a, a ∈ F ∨ a ∈ B → Far a h.brk := by
      intro a ha
      by_cases hab : a = base
      · exact .inl (hab ▸ hg.base_le)
      · have := hg.blocks.inside a ha hab
        exact .inl (by omega)
    have hbB : h.brk ∉ B := fun hb => by
      have := hlow _ (.inr hb)
      unfold Far at this
      omega
    have hsizeb : (setSize { h with brk := h.brk + 8 * more n } h.brk (more n)).size h.brk = more n :=
      size_setSize (by omega)
    have hsize : ∀ a, a ∈ F ∨ a ∈ B → (setSize { h with brk := h.brk + 8 * more n } h.brk (more n)).size a = h.size a :=
      fun a ha => hhead.size a (hlow a ha)
    have hptr : ∀ a ∈ F, (setSize { h with brk := h.brk + 8 * more n } h.brk (more n)).ptr a = h.ptr a :=
      fun a ha => hhead.ptr a (hlow a (.inl ha))
    have hgood : Good base (setSize { h with brk := h.brk + 8 * more n } h.brk (more n)) F (insert h.brk B) := by
      have hgrown : Blocks base (h.brk + 8 * more n) _ h.ptr F (insert h.brk B) :=
        hg.blocks.grow le_rfl hg.base_le (by omega) (by rw [hsizeb]) hsize
      refine ⟨hgrown.congr (fun _ _ => rfl) hptr, fun a ha => ?_, hg.base_pos,
        hg.base_le.trans (Nat.le_add_right _ _), ?_⟩
      · rw [hsize a (.inl ha), hptr a ha]
        exact hg.coalesced a ha
      · show h.brk + 8 * more n < 2 ^ 31
        omega
    have hcov : covered base _ F (insert h.brk B) = _ := covered_grow hsize
    have hbrk := hg.brk_lt
    have hbefore : before (plus h.brk 1) = h.brk := by
      unfold before plus
      omega
    obtain ⟨t, p, F', hp, ⟨k, hk⟩, hfreed⟩ := free_spec hgood hf (.inl rfl) hbefore
    have hdiff : insert h.brk B \ {h.brk} = B := Set.insert_sdiff_self_of_notMem hbB
    obtain ⟨hgood', hfreep, ⟨a, ha, hroom⟩, hext, hsize', hbyte, hbrk', hlimit⟩ := hfreed
    rw [hdiff] at hgood' hext
    refine .inr ⟨hfit, t, F', ⟨k, fun fuel hfuel => ?_⟩,
      ⟨hgood', hfreep, ?_, ?_, hlimit, fun b hb _ => ?_, fun x hx hbase hno => ?_⟩, a, ha, by omega⟩
    · simp only [morecore_eq, hmod, hsbrk, hk fuel hfuel, Option.map_some]
    · rw [hext, hcov, hsizeb, hbrk']
      rfl
    · rw [hbrk']
      exact Nat.le_add_right _ _
    · exact (hsize' b (.inr hb) fun heq => hbB (heq ▸ hb)).trans (hsize b (.inr hb))
    · exact (hbyte x (.inl hx) (hg.blocks.outside_free hp hbase hno)).trans (hhead.byte x (.inl hx))
  · have hsbrk : h.sbrk (8 * more n) = none := by
      unfold sbrk
      rw [if_neg (by omega), if_pos (by omega), if_neg hfit]
    refine .inl ⟨not_le.mp hfit, 0, fun fuel _ => ?_⟩
    simp only [morecore_eq, hmod, hsbrk]

/-! ### The loop -/

/-- What holds of the two ways the loop ends holds of the loop: at a block that is large enough, and where it came from
when there is none. -/
theorem mallocLoop_rule (hg : Good base h F B) (hf : h.freep ∈ F) (hn : 0 < n) {Q : ℕ × Heap → Prop}
    (hcarve : ∀ r t, (∃ a ∈ F, n ≤ h.size a) → Carved base h t n r F B → Q (r, t))
    (hlast : (∀ a ∈ F, h.size a < n) → ∀ prevp,
      ∃ out, Returns (fun fuel => mallocLoop n fuel h prevp h.freep) out ∧ Q out) :
    ∃ out, Returns (fun fuel => mallocLoop n fuel h h.freep (h.ptr h.freep)) out ∧ Q out := by
  refine hg.blocks.circular.tour hf (fun a => h.size a < n)
    (motive := fun a => ∀ prevp ∈ F, h.ptr prevp = a →
      ∃ out, Returns (fun fuel => mallocLoop n fuel h prevp a) out ∧ Q out) ?_ ?_ ?_ h.freep hf rfl
  · rintro a ha hbig prevp hprev rfl
    rw [not_lt] at hbig
    refine ⟨carve h n prevp (h.ptr prevp), ?_, hcarve _ _ ⟨_, ha, hbig⟩ (carve_spec hg hprev hn hbig)⟩
    exact (Returns.const _).succ fun fuel => by rw [mallocLoop, if_pos hbig]
  · intro a ha hne hbad ih prevp _ _
    obtain ⟨out, hret, hout⟩ := ih a ha rfl
    exact ⟨out, hret.succ fun fuel => by rw [mallocLoop, if_neg (not_le.mpr hbad), if_neg hne], hout⟩
  · exact fun hbad prevp _ _ => hlast hbad prevp

/-- The request is refused: no free block is large enough, and the kernel has no memory. -/
def Refused (h : Heap) (F : Finset ℕ) (n : ℕ) : Prop := (∀ a ∈ F, h.size a < n) ∧ h.limit < h.brk + 8 * more n

/-- **The loop returns**, after `morecore` if it must. -/
theorem mallocLoop_spec (hg : Good base h F B) (hf : h.freep ∈ F) (hlim : h.limit < 2 ^ 31) (hn : 0 < n)
    (hmore : more n * 8 < 2 ^ 31) :
    ∃ r t, Returns (fun fuel => mallocLoop n fuel h h.freep (h.ptr h.freep)) (r, t) ∧
      (r = 0 ∧ t = h ∧ Refused h F n ∨ ¬ Refused h F n ∧ Carved base h t n r F B) := by
  refine (mallocLoop_rule hg hf hn
    (Q := fun out => out.1 = 0 ∧ out.2 = h ∧ Refused h F n ∨ ¬ Refused h F n ∧ Carved base h out.2 n out.1 F B)
    (fun r t ⟨a, ha, hbig⟩ hc => .inr ⟨fun hno => absurd (hno.1 a ha) (not_lt.mpr hbig), hc⟩)
    fun hbad prevp => ?_).elim fun ⟨r, t⟩ ⟨hret, hout⟩ => ⟨r, t, hret, hout⟩
  have hsmall := hbad _ hf
  obtain ⟨hno, k, hk⟩ | ⟨hfit, u, F', ⟨k, hk⟩, hmoved, a, ha, hbig⟩ := morecore_spec hg hf hlim hmore
  · refine ⟨(0, h), Returns.succ (f := fun fuel => match morecore fuel h n with
      | none => none
      | some (p, t) => if p = 0 then some (0, t) else mallocLoop n fuel t p (t.ptr p)) ⟨k, fun fuel hfuel => ?_⟩
      fun fuel => ?_, .inl ⟨rfl, rfl, hbad, hno⟩⟩
    · simp only [hk fuel hfuel, if_true]
    · exact (if_neg (not_le.mpr hsmall)).trans (if_pos rfl)
  · -- what was added is large enough
    obtain ⟨⟨r, t⟩, ⟨k', hk'⟩, b, F'', hr, hb, hsize, hcarved⟩ := mallocLoop_rule hmoved.good hmoved.freep hn
      (Q := fun out => Carved base u out.2 n out.1 F' B) (fun r t _ hc => hc)
      fun hall => absurd (hall a ha) (not_lt.mpr hbig)
    have hpos : u.freep ≠ 0 := by
      have := hmoved.good.blocks.base_le (.inl hmoved.freep)
      have := hg.base_pos
      omega
    refine ⟨(r, t), Returns.succ (f := fun fuel => match morecore fuel h n with
      | none => none
      | some (p, t) => if p = 0 then some (0, t) else mallocLoop n fuel t p (t.ptr p))
      ⟨max k k', fun fuel hfuel => ?_⟩ fun fuel => ?_,
      .inr ⟨fun hno => absurd hno.2 (not_lt.mpr hfit), b, F'', hr, hb, hsize,
        hmoved.trans hcarved le_rfl (Set.subset_insert b B)⟩⟩
    · simp only [hk fuel ((le_max_left k k').trans hfuel), if_neg hpos]
      exact hk' fuel ((le_max_right k k').trans hfuel)
    · exact (if_neg (not_le.mpr hsmall)).trans (if_pos rfl)

end OperatingSystems.Umalloc
