import OperatingSystems.Umalloc.Allocator
import OperatingSystems.Umalloc.Blocks

/-! # free

* `Good`: the headers in memory are those of blocks on a line, and no two free ones are neighbours.
* `free_spec`: `free` finds the place for a used block, and keeps all that. -/

namespace OperatingSystems.Umalloc

open Lib.Circle Lib.Words

variable {base bp p q a b n x : ℕ} {h t : Heap} {F : Finset ℕ} {B : Set ℕ}

/-! ### Headers -/

/-- The headers at `a` and `b` do not overlap. -/
def Far (a b : ℕ) : Prop := a + 8 ≤ b ∨ b + 8 ≤ a

theorem Far.symm (hf : Far a b) : Far b a := Or.symm hf

namespace Heap

theorem ptr_lt : h.ptr p < 2 ^ 32 := BitVec.isLt _

theorem size_lt : h.size p < 2 ^ 32 := BitVec.isLt _

@[simp] theorem ptr_setPtr (hq : q < 2 ^ 32) : (h.setPtr p q).ptr p = q := by
  unfold ptr setPtr
  rw [word_setWord_self, BitVec.toNat_ofNat, Nat.mod_eq_of_lt hq]

@[simp] theorem size_setPtr : (h.setPtr p q).size p = h.size p := by
  unfold size setPtr
  rw [word_setWord_of_disjoint (.inr le_rfl)]

theorem ptr_setPtr_far (hf : Far a p) : (h.setPtr p q).ptr a = h.ptr a := by
  unfold ptr setPtr
  rw [word_setWord_of_disjoint (by unfold Far at hf; omega)]

theorem size_setPtr_far (hf : Far a p) : (h.setPtr p q).size a = h.size a := by
  unfold size setPtr
  rw [word_setWord_of_disjoint (by unfold Far at hf; omega)]

@[simp] theorem ptr_setSize : (h.setSize p n).ptr p = h.ptr p := by
  unfold ptr setSize
  rw [word_setWord_of_disjoint (.inl le_rfl)]

@[simp] theorem size_setSize (hn : n < 2 ^ 32) : (h.setSize p n).size p = n := by
  unfold size setSize
  rw [word_setWord_self, BitVec.toNat_ofNat, Nat.mod_eq_of_lt hn]

theorem ptr_setSize_far (hf : Far a p) : (h.setSize p n).ptr a = h.ptr a := by
  unfold ptr setSize
  rw [word_setWord_of_disjoint (by unfold Far at hf; omega)]

theorem size_setSize_far (hf : Far a p) : (h.setSize p n).size a = h.size a := by
  unfold size setSize
  rw [word_setWord_of_disjoint (by unfold Far at hf; omega)]

theorem byte_setPtr (hx : x < p ∨ p + 8 ≤ x) : (h.setPtr p q).byte x = h.byte x :=
  setWord_of_lt_or (by omega)

theorem byte_setSize (hx : x < p ∨ p + 8 ≤ x) : (h.setSize p n).byte x = h.byte x :=
  setWord_of_lt_or (by omega)

end Heap

open Heap

/-- Only the header at `p` was written. -/
structure Header (h t : Heap) (p : ℕ) : Prop where
  ptr : ∀ a, Far a p → t.ptr a = h.ptr a
  size : ∀ a, Far a p → t.size a = h.size a
  byte : ∀ x, x < p ∨ p + 8 ≤ x → t.byte x = h.byte x
  brk : t.brk = h.brk
  limit : t.limit = h.limit

theorem Header.setPtr : Header h (h.setPtr p q) p :=
  ⟨fun _ => ptr_setPtr_far, fun _ => size_setPtr_far, fun _ => byte_setPtr, rfl, rfl⟩

theorem Header.setSize : Header h (h.setSize p n) p :=
  ⟨fun _ => ptr_setSize_far, fun _ => size_setSize_far, fun _ => byte_setSize, rfl, rfl⟩

theorem Header.trans {u : Heap} (h1 : Header h t p) (h2 : Header t u p) : Header h u p :=
  ⟨fun a ha => (h2.ptr a ha).trans (h1.ptr a ha), fun a ha => (h2.size a ha).trans (h1.size a ha),
    fun x hx => (h2.byte x hx).trans (h1.byte x hx), h2.brk.trans h1.brk, h2.limit.trans h1.limit⟩

theorem joinRight_header : Header h (joinRight h bp p) bp := by
  unfold joinRight
  split_ifs
  · exact Header.setSize.trans .setPtr
  · exact .setPtr

theorem joinLeft_header : Header h (joinLeft h bp p) p := by
  unfold joinLeft
  split_ifs
  · exact Header.setSize.trans .setPtr
  · exact .setPtr

theorem plus_eq (hlt : a + 8 * n < 2 ^ 32) : plus a n = a + 8 * n := Nat.mod_eq_of_lt hlt

/-! ### Blocks in memory -/

/-- **The headers are in order**: they make up blocks on a line below 2 GB, of which no two free ones are neighbours. -/
structure Good (base : ℕ) (h : Heap) (F : Finset ℕ) (B : Set ℕ) : Prop where
  blocks : Blocks base h.brk h.size h.ptr F B
  coalesced : Coalesced h.size h.ptr F
  base_pos : 0 < base
  base_le : base + 8 ≤ h.brk
  brk_lt : h.brk < 2 ^ 31

theorem Good.far (hg : Good base h F B) (ha : a ∈ F ∨ a ∈ B) (hb : b ∈ F ∨ b ∈ B) (hne : a ≠ b) : Far a b :=
  hg.blocks.headers ha hb hne

theorem Good.inside (hg : Good base h F B) (ha : a ∈ F ∨ a ∈ B) : base ≤ a ∧ a + 8 * h.size a < 2 ^ 31 := by
  refine ⟨hg.blocks.base_le ha, ?_⟩
  have hbrk := hg.brk_lt
  have hbase := hg.base_le
  by_cases hne : a = base
  · rw [hne, hg.blocks.base_size]
    omega
  · have := (hg.blocks.inside a ha hne).2.2
    omega

/-- A place in the list is below the block that goes there. -/
theorem Good.lt_of_between (hg : Good base h F B) (hb : bp ∈ B) (hp : p ∈ F) (hbtw : Between p (h.ptr p) bp) :
    p < bp := by
  have hno := (hg.blocks.circular p hp).2 base hg.blocks.base_mem
  have hle := hg.blocks.base_le (.inl hp)
  have hlow := (hg.blocks.inside bp (.inr hb) (hg.blocks.ne_base hb)).1
  unfold Between at hno hbtw
  omega

theorem joinRight_blocks (hg : Good base h F B) (hb : bp ∈ B) (hp : p ∈ F) (hbtw : Between p (h.ptr p) bp) :
    ∃ F', p ∈ F' ∧ bp ∈ F' ∧ h.size bp ≤ (joinRight h bp p).size bp ∧
      Blocks base h.brk (joinRight h bp p).size (Function.update (joinRight h bp p).ptr p bp) F' (B \ {bp}) ∧
      (∀ a ∈ F', a ≠ p → a < (joinRight h bp p).ptr a →
        a + 8 * (joinRight h bp p).size a ≠ (joinRight h bp p).ptr a) ∧
      covered base (joinRight h bp p).size F' (B \ {bp}) = covered base h.size F B := by
  have hlt := hg.lt_of_between hb hp hbtw
  have hq := hg.blocks.circular.next_mem hp
  have hbF : bp ∉ F := fun hbF => hg.blocks.disjoint bp hbF hb
  have hfar : ∀ a ∈ F, Far a bp := fun a ha => hg.far (.inl ha) (.inr hb) fun heq => hbF (heq ▸ ha)
  have hin := (hg.inside (.inr hb)).2
  have hsize : ∀ a, a ∈ F ∨ a ∈ B → a ≠ bp → (joinRight h bp p).size a = h.size a := fun a ha hne =>
    joinRight_header.size a (hg.far ha (.inr hb) hne)
  have hptr : ∀ a ∈ F, (joinRight h bp p).ptr a = h.ptr a := fun a ha => joinRight_header.ptr a (hfar a ha)
  have hgive : Blocks base h.brk h.size (Function.update (Function.update h.ptr bp (h.ptr p)) p bp) (insert bp F)
      (B \ {bp}) := by
    refine hg.blocks.give hb hp hbtw (Function.update_self _ _ _) ?_ fun a ha hne => ?_
    · rw [Function.update_of_ne hlt.ne', Function.update_self]
    · rw [Function.update_of_ne hne, Function.update_of_ne fun heq : a = bp => hbF (heq ▸ ha)]
  -- the blocks in memory, with the pointer to `bp` that is not there yet
  have hold : ∀ a, a ∈ insert bp F ∨ a ∈ B \ {bp} → a ≠ bp → a ∈ F ∨ a ∈ B := fun a ha hne =>
    ha.imp (fun ha => (Finset.mem_insert.mp ha).resolve_left hne) fun ha => ha.1
  have hptr' : ∀ a ∈ insert bp F, a ≠ bp → Function.update (joinRight h bp p).ptr p bp a =
      Function.update (Function.update h.ptr bp (h.ptr p)) p bp a := by
    intro a ha hne
    by_cases hap : a = p
    · rw [hap, Function.update_self, Function.update_self]
    · rw [Function.update_of_ne hap, Function.update_of_ne hap, Function.update_of_ne hne]
      exact hptr a ((Finset.mem_insert.mp ha).resolve_left hne)
  have hgap : ∀ a ∈ F, a ≠ p → a < (joinRight h bp p).ptr a →
      a + 8 * (joinRight h bp p).size a ≠ (joinRight h bp p).ptr a := by
    intro a ha _
    rw [hptr a ha, hsize a (.inl ha) fun heq => hbF (heq ▸ ha)]
    exact hg.coalesced a ha
  by_cases hright : plus bp (h.size bp) = h.ptr p
  · rw [plus_eq (by omega)] at hright
    have hpos := (hg.blocks.inside bp (.inr hb) (hg.blocks.ne_base hb)).2.1
    have hpq : h.ptr p ≠ p := by omega
    have hinq := (hg.inside (.inl hq)).2
    have hsizeb : (joinRight h bp p).size bp = h.size bp + h.size (h.ptr p) := by
      unfold joinRight
      rw [if_pos (by rw [plus_eq (by omega)]; exact hright), size_setPtr, size_setSize (by omega)]
    have hptrb : (joinRight h bp p).ptr bp = h.ptr (h.ptr p) := by
      unfold joinRight
      rw [if_pos (by rw [plus_eq (by omega)]; exact hright), ptr_setPtr ptr_lt, ptr_setSize_far (hfar p hp),
        ptr_setSize_far (hfar _ hq)]
    -- the next block, as the list has it with `bp` in it
    have hnb : Function.update (Function.update h.ptr bp (h.ptr p)) p bp bp = h.ptr p := by
      rw [Function.update_of_ne hlt.ne', Function.update_self]
    have hnq : Function.update (Function.update h.ptr bp (h.ptr p)) p bp (h.ptr p) = h.ptr (h.ptr p) := by
      rw [Function.update_of_ne hpq, Function.update_of_ne (by omega)]
    have hptrb' : Function.update (joinRight h bp p).ptr p bp bp =
        Function.update (Function.update h.ptr bp (h.ptr p)) p bp (h.ptr p) := by
      rw [Function.update_of_ne hlt.ne', hnq, hptrb]
    have hmerge : Blocks base h.brk (joinRight h bp p).size (Function.update (joinRight h bp p).ptr p bp)
        ((insert bp F).erase (h.ptr p)) (B \ {bp}) :=
      hgive.merge (Finset.mem_insert_self bp F) (hg.blocks.ne_base hb) hnb hright hsizeb hptrb'
        (fun a ha hne => hsize a (hold a ha hne) hne) hptr'
    refine ⟨_, Finset.mem_erase.mpr ⟨hpq.symm, Finset.mem_insert_of_mem hp⟩,
      Finset.mem_erase.mpr ⟨by omega, Finset.mem_insert_self _ _⟩, by omega, hmerge, fun a ha hap => ?_, ?_⟩
    · obtain ⟨-, ha⟩ := Finset.mem_erase.mp ha
      obtain rfl | ha := Finset.mem_insert.mp ha
      · rw [hsizeb, hptrb]
        have hposq := (hg.blocks.inside _ (.inl hq) (by have := hg.blocks.base_le (.inl hp); omega)).2.1
        exact fun _ heq => hg.coalesced _ hq (by omega) (by omega)
      · exact hgap a ha hap
    · rw [covered_merge hgive (Finset.mem_insert_self bp F) (hg.blocks.ne_base hb) hnb hright hsizeb
        fun a ha hne => hsize a (hold a ha hne) hne, covered_give hg.blocks hb]
  · have hsizeb : (joinRight h bp p).size bp = h.size bp := by
      unfold joinRight
      rw [if_neg hright, size_setPtr]
    have hptrb : (joinRight h bp p).ptr bp = h.ptr p := by
      unfold joinRight
      rw [if_neg hright, ptr_setPtr ptr_lt]
    rw [plus_eq (by omega)] at hright
    have hsize' : ∀ a, a ∈ insert bp F ∨ a ∈ B \ {bp} → (joinRight h bp p).size a = h.size a := by
      intro a ha
      by_cases hne : a = bp
      · rw [hne, hsizeb]
      · exact hsize a (hold a ha hne) hne
    refine ⟨insert bp F, Finset.mem_insert_of_mem hp, Finset.mem_insert_self _ _, hsizeb.ge,
      hgive.congr hsize' (fun a ha => ?_), fun a ha hap => ?_, ?_⟩
    · by_cases hne : a = bp
      · rw [hne, Function.update_of_ne hlt.ne', Function.update_of_ne hlt.ne', Function.update_self, hptrb]
      · exact hptr' a ha hne
    · obtain rfl | ha := Finset.mem_insert.mp ha
      · rw [hsizeb, hptrb]
        exact fun _ => hright
      · exact hgap a ha hap
    · rw [covered_congr hsize', covered_give hg.blocks hb]

theorem joinLeft_blocks {u : Heap} {brk : ℕ} (hblocks : Blocks base brk u.size (Function.update u.ptr p bp) F B)
    (hp : p ∈ F) (hb : bp ∈ F) (hlt : p < bp)
    (hgap : ∀ a ∈ F, a ≠ p → a < u.ptr a → a + 8 * u.size a ≠ u.ptr a) (hend : ∀ a ∈ F, a + 8 * u.size a < 2 ^ 31) :
    ∃ F', p ∈ F' ∧ Blocks base brk (joinLeft u bp p).size (joinLeft u bp p).ptr F' B ∧
      Coalesced (joinLeft u bp p).size (joinLeft u bp p).ptr F' ∧ (∃ a ∈ F', u.size bp ≤ (joinLeft u bp p).size a) ∧
      covered base (joinLeft u bp p).size F' B = covered base u.size F B := by
  have hfar : ∀ a, a ∈ F ∨ a ∈ B → a ≠ p → Far a p := fun a ha hne => hblocks.headers ha (.inl hp) hne
  have hsize : ∀ a, a ∈ F ∨ a ∈ B → a ≠ p → (joinLeft u bp p).size a = u.size a := fun a ha hne =>
    joinLeft_header.size a (hfar a ha hne)
  have hptr : ∀ a ∈ F, a ≠ p → (joinLeft u bp p).ptr a = u.ptr a := fun a ha hne =>
    joinLeft_header.ptr a (hfar a (.inl ha) hne)
  have hptr' : ∀ a ∈ F, a ≠ p → (joinLeft u bp p).ptr a = Function.update u.ptr p bp a := fun a ha hne => by
    rw [hptr a ha hne, Function.update_of_ne hne]
  have hendp := hend p hp
  have hendb := hend bp hb
  by_cases hleft : plus p (u.size p) = bp
  · rw [plus_eq (by omega)] at hleft
    have hbase : p ≠ base := fun heq => by
      rw [heq, hblocks.base_size] at hleft
      omega
    have hsizep : (joinLeft u bp p).size p = u.size p + u.size bp := by
      unfold joinLeft
      rw [if_pos (by rw [plus_eq (by omega)]; exact hleft), size_setPtr, size_setSize (by omega)]
    have hptrp : (joinLeft u bp p).ptr p = u.ptr bp := by
      unfold joinLeft
      rw [if_pos (by rw [plus_eq (by omega)]; exact hleft), ptr_setPtr ptr_lt,
        ptr_setSize_far (hfar bp (.inl hb) hlt.ne')]
    have hnp : Function.update u.ptr p bp p = bp := Function.update_self _ _ _
    have hnb : (joinLeft u bp p).ptr p = Function.update u.ptr p bp bp := by
      rw [Function.update_of_ne hlt.ne', hptrp]
    have hmerge : Blocks base brk (joinLeft u bp p).size (joinLeft u bp p).ptr (F.erase bp) B :=
      hblocks.merge hp hbase hnp hleft hsizep hnb hsize hptr'
    have hcov := covered_merge hblocks hp hbase hnp hleft hsizep hsize
    have hp' : p ∈ F.erase bp := Finset.mem_erase.mpr ⟨hlt.ne, hp⟩
    refine ⟨F.erase bp, hp', hmerge, fun a ha => ?_, ⟨p, hp', by omega⟩, hcov⟩
    obtain ⟨-, ha⟩ := Finset.mem_erase.mp ha
    by_cases hap : a = p
    · rw [hap, hsizep, hptrp]
      have hpos := (hblocks.inside bp (.inl hb) (by have := hblocks.base_le (.inl hp); omega)).2.1
      exact fun _ heq => hgap bp hb hlt.ne' (by omega) (by omega)
    · rw [hsize a (.inl ha) hap, hptr a ha hap]
      exact hgap a ha hap
  · have hsizep : (joinLeft u bp p).size p = u.size p := by
      unfold joinLeft
      rw [if_neg hleft, size_setPtr]
    have hptrp : (joinLeft u bp p).ptr p = bp := by
      unfold joinLeft
      rw [if_neg hleft, ptr_setPtr (by omega)]
    have hsize' : ∀ a, a ∈ F ∨ a ∈ B → (joinLeft u bp p).size a = u.size a := by
      intro a ha
      by_cases hne : a = p
      · rw [hne, hsizep]
      · exact hsize a ha hne
    rw [plus_eq (by omega)] at hleft
    refine ⟨F, hp, hblocks.congr hsize' fun a ha => ?_, fun a ha => ?_, ⟨bp, hb, (hsize' bp (.inl hb)).ge⟩,
      covered_congr hsize'⟩
    · by_cases hne : a = p
      · rw [hne, Function.update_self, hptrp]
      · exact hptr' a ha hne
    · by_cases hne : a = p
      · rw [hne, hsizep, hptrp]
        exact fun _ => hleft
      · rw [hsize' a (.inl ha), hptr a ha hne]
        exact hgap a ha hne

/-- **`bp` is in the list**, and has come together with its neighbours. -/
structure Freed (base : ℕ) (h t : Heap) (bp p : ℕ) (F F' : Finset ℕ) (B : Set ℕ) : Prop where
  good : Good base t F' (B \ {bp})
  freep : t.freep ∈ F'
  room : ∃ a ∈ F', h.size bp ≤ t.size a
  extent : covered base t.size F' (B \ {bp}) = covered base h.size F B
  size : ∀ a ∈ B, a ≠ bp → t.size a = h.size a
  byte : ∀ x, (x < bp ∨ bp + 8 ≤ x) → (x < p ∨ p + 8 ≤ x) → t.byte x = h.byte x
  brk : t.brk = h.brk
  limit : t.limit = h.limit

theorem link_freed (hg : Good base h F B) (hb : bp ∈ B) (hp : p ∈ F) (hbtw : Between p (h.ptr p) bp) :
    ∃ F', Freed base h (link h bp p) bp p F F' B := by
  obtain ⟨F', hpF, hbF, hle, hblocks, hgap, hcov⟩ := joinRight_blocks hg hb hp hbtw
  have hlt := hg.lt_of_between hb hp hbtw
  have hin := (hg.inside (.inr hb)).2
  have hfarp : Far p bp := hg.far (.inl hp) (.inr hb) hlt.ne
  have h1 : Header h (joinRight h bp p) bp := joinRight_header
  have h2 : Header (joinRight h bp p) (joinLeft (joinRight h bp p) bp p) p := joinLeft_header
  have hlow := hg.base_le
  have hbrk := hg.brk_lt
  have hend : ∀ a ∈ F', a + 8 * (joinRight h bp p).size a < 2 ^ 31 := by
    intro a ha
    by_cases hab : a = base
    · rw [hab, hblocks.base_size]
      omega
    · have := (hblocks.inside a (.inl ha) hab).2.2
      omega
  obtain ⟨F'', hpF'', hblocks', hco, ⟨a, ha, hroom⟩, hcov'⟩ := joinLeft_blocks hblocks hpF hbF hlt hgap hend
  have hbrk' := h2.brk.trans h1.brk
  refine ⟨F'', ⟨⟨?_, hco, hg.base_pos, ?_, ?_⟩, hpF'', ⟨a, ha, hle.trans hroom⟩, hcov'.trans hcov, fun b hbB hne => ?_,
    fun x hx hx' => (h2.byte x hx').trans (h1.byte x hx), hbrk', h2.limit.trans h1.limit⟩⟩
  · exact hbrk'.symm ▸ hblocks'
  · exact hlow.trans hbrk'.ge
  · exact hbrk'.trans_lt hbrk
  · have hbp : b ≠ p := fun heq => hg.blocks.disjoint p hp (heq ▸ hbB)
    exact (h2.size b (hg.far (.inr hbB) (.inl hp) hbp)).trans (h1.size b (hg.far (.inr hbB) (.inr hb) hne))

/-! ### The call -/

/-- The loop comes to the place, wherever it starts. -/
theorem findPlace_returns (hc : Circular F h.ptr) (hbF : bp ∉ F) (ha : a ∈ F) :
    ∃ p ∈ F, Between p (h.ptr p) bp ∧ Returns (fun fuel => findPlace h bp fuel a) p := by
  obtain ⟨t, ht, hbtw⟩ := hc.exists_between ⟨a, ha⟩ hbF
  have hfound : ∀ p ∈ F, Between p (h.ptr p) bp → Returns (fun fuel => findPlace h bp fuel p) p := by
    refine fun p _ hbtw => (Returns.const p).succ fun fuel => ?_
    rw [findPlace]
    split_ifs with h1 h2
    · rfl
    · rfl
    · exact absurd hbtw (not_or.mpr ⟨h1, h2⟩)
  refine hc.walk ht (motive := fun a => ∃ p ∈ F, Between p (h.ptr p) bp ∧ Returns (fun fuel => findPlace h bp fuel a) p)
    ⟨t, ht, hbtw, hfound t ht hbtw⟩ (fun a ha _ ih => ?_) ha
  by_cases hhere : Between a (h.ptr a) bp
  · exact ⟨a, ha, hhere, hfound a ha hhere⟩
  · obtain ⟨p, hp, hbtw, hret⟩ := ih
    have hno := not_or.mp hhere
    exact ⟨p, hp, hbtw, hret.succ fun fuel => by rw [findPlace, if_neg hno.1, if_neg hno.2]⟩

/-- **`free` of a used block returns**, and the block is free. -/
theorem free_spec {ap : ℕ} (hg : Good base h F B) (hf : h.freep ∈ F) (hb : bp ∈ B) (hap : before ap = bp) :
    ∃ t p F', p ∈ F ∧ Returns (fun fuel => free fuel h ap) t ∧ Freed base h t bp p F F' B := by
  subst hap
  obtain ⟨p, hp, hbtw, hret⟩ := findPlace_returns hg.blocks.circular (fun hbF => hg.blocks.disjoint _ hbF hb) hf
  obtain ⟨F', hfreed⟩ := link_freed hg hb hp hbtw
  exact ⟨_, p, F', hp, hret.map _, hfreed⟩

end OperatingSystems.Umalloc
