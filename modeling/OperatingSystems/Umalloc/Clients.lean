import OperatingSystems.Lib.Transition
import OperatingSystems.Umalloc.Malloc

/-! # Programs that use the allocator

A program calls `malloc` and `free`, writes its blocks and its other memory, and moves the break itself. Beside
the memory stand the blocks it has, with what it asked for and wrote last, and the memory `morecore` has got.

* `blocks_private`: the blocks are apart, and each holds what was written to it last.
* `memory_accounted`: what `morecore` has got is in blocks, and the free list goes through the free ones.
* `malloc_returns`: when `malloc` returns 0. -/

namespace OperatingSystems.Umalloc

open Lib.Circle Lib.Words Lib.Transition Heap

/-- The memory of a program, and what it knows of it. -/
structure Client where
  heap : Heap
  /-- the number of bytes asked for, by the pointer that `malloc` returned -/
  live : ℕ → Option ℕ
  /-- what is in a block -/
  text : ℕ → ℕ → BitVec 8
  /-- what `morecore` has got -/
  arena : Set ℕ

inductive Event where
  | malloc (nbytes : ℕ)
  | free (p : ℕ)
  /-- byte `i` of block `p` is written -/
  | store (p i : ℕ) (b : BitVec 8)
  /-- another byte is written, that is not in the memory of the allocator -/
  | other (x : ℕ) (b : BitVec 8)
  | sbrk (n : ℕ)
  /-- the kernel has more or less memory -/
  | limit (n : ℕ)

def Heap.store (h : Heap) (x : ℕ) (b : BitVec 8) : Heap := { h with byte := Function.update h.byte x b }

/-- The state after `malloc` returned `r`. -/
def Client.allocated (s : Client) (n r : ℕ) (t : Heap) : Client where
  heap := t
  live := if r = 0 then s.live else Function.update s.live r (some n)
  text := if r = 0 then s.text else Function.update s.text r fun i => t.byte (r + i)
  arena := s.arena ∪ {x | s.heap.brk ≤ x ∧ x < t.brk}

/-- A program asks for less than 2 GB, frees what it has, and stays in its blocks. -/
def Event.Step (base : ℕ) (s s' : Client) : Event → Prop
  | malloc n => n + 16 ≤ 2 ^ 31 ∧ ∃ r t, Returns (fun fuel => Umalloc.malloc base fuel s.heap n) (r, t) ∧
      s' = s.allocated n r t
  | free p => ∃ n t, s.live p = some n ∧ Returns (fun fuel => Umalloc.free fuel s.heap p) t ∧
      s' = { s with heap := t, live := Function.update s.live p none }
  | store p i b => ∃ n, s.live p = some n ∧ i < n ∧ s' = { s with
      heap := s.heap.store (p + i) b
      text := Function.update s.text p (Function.update (s.text p) i b) }
  | other x b => (x < base ∨ base + 8 ≤ x) ∧ x ∉ s.arena ∧ s' = { s with heap := s.heap.store x b }
  | sbrk n => 0 < n ∧ n < 2 ^ 31 ∧ ∃ p t, s.heap.sbrk n = some (p, t) ∧ s' = { s with heap := t }
  | limit n => n < 2 ^ 31 ∧ s' = { s with heap := { s.heap with limit := n } }

/-- Programs whose allocator has its `base` below the break. -/
def clients (base : ℕ) : System Client Event where
  init s := 0 < base ∧ base + 8 ≤ s.heap.brk ∧ s.heap.brk < 2 ^ 31 ∧ s.heap.limit < 2 ^ 31 ∧ s.heap.freep = 0 ∧
    (∀ p, s.live p = none) ∧ s.arena = ∅
  step s e s' := e.Step base s s'

/-! ### The invariant -/

variable {base p q a b c n k x i r : ℕ} {w : BitVec 8} {h t : Heap} {F F' : Finset ℕ} {B : Set ℕ} {s s' : Client}
  {e : Event}

/-- The headers of the blocks of the program. -/
def Client.used (s : Client) : Set ℕ := {b | s.live (b + 8) ≠ none}

/-- The program is in order, with free blocks `F`. -/
structure Sound (base : ℕ) (s : Client) (F : Finset ℕ) : Prop where
  good : Good base s.heap F s.used
  freep : s.heap.freep ∈ F
  arena : s.arena = covered base s.heap.size F s.used
  size : ∀ p n, s.live p = some n → 8 ≤ p ∧ s.heap.size (p - 8) = units n ∧ n + 8 ≤ 8 * units n
  text : ∀ p n, s.live p = some n → ∀ i < n, s.heap.byte (p + i) = s.text p i

/-- Before the first `malloc`, and from then on. -/
def Inv (base : ℕ) (s : Client) : Prop :=
  0 < base ∧ base + 8 ≤ s.heap.brk ∧ s.heap.brk < 2 ^ 31 ∧ s.heap.limit < 2 ^ 31 ∧
    (s.heap.freep = 0 ∧ (∀ p, s.live p = none) ∧ s.arena = ∅ ∨ ∃ F, Sound base s F)

theorem le_units (hn : n + 16 ≤ 2 ^ 31) : n + 8 ≤ 8 * units n ∧ more (units n) * 8 < 2 ^ 31 := by
  unfold more units
  split_ifs <;> omega

theorem units_pos (n : ℕ) : 0 < units n := Nat.succ_pos _

/-- The list with `base` alone. -/
theorem Good.start (hb : 0 < base) (hle : base + 8 ≤ h.brk) (hlt : h.brk < 2 ^ 31) :
    Good base { (h.setPtr base base).setSize base 0 with freep := base } {base} ∅ := by
  have hptr : ((h.setPtr base base).setSize base 0).ptr base = base := by
    rw [ptr_setSize, ptr_setPtr (by omega)]
  have hsize : ((h.setPtr base base).setSize base 0).size base = 0 := size_setSize (by omega)
  have honly : ∀ a, a ∈ ({base} : Finset ℕ) ∨ a ∈ (∅ : Set ℕ) → a = base := fun a ha =>
    Finset.mem_singleton.mp (ha.resolve_right id)
  refine ⟨⟨Finset.mem_singleton_self _, hsize, .singleton hptr, fun a ha hne => absurd (honly a ha) hne,
    fun a c ha hc hlt => ?_, fun _ _ => id⟩, fun a ha hlt => ?_, hb, hle, hlt⟩
  · rw [honly a ha, honly c hc] at hlt
    exact absurd hlt (lt_irrefl _)
  · have heq := honly a (.inl ha)
    subst heq
    exact absurd hlt (hptr.symm ▸ lt_irrefl _)

theorem used_empty (h : ∀ p, s.live p = none) : s.used = ∅ := Set.eq_empty_of_forall_notMem fun _ hb => hb (h _)

theorem Sound.mem_used (hs : Sound base s F) (hp : s.live p = some n) : p - 8 ∈ s.used := fun hnone => by
  rw [Nat.sub_add_cancel (hs.size p n hp).1, hp] at hnone
  cases hnone

/-- The bytes of a block that the program may use are bytes of a used block. -/
theorem Sound.payload (hs : Sound base s F) (hp : s.live p = some n) (hi : i < n) :
    p - 8 + 8 ≤ p + i ∧ p + i < p - 8 + 8 * s.heap.size (p - 8) := by
  obtain ⟨h8, hsize, hle⟩ := hs.size p n hp
  omega

/-- **How `malloc` starts**: with the list that is there, or with `base` alone. -/
theorem Inv.enter (hi : Inv base s) : ∃ h F, Sound base { s with heap := h } F ∧ h.brk = s.heap.brk ∧
    h.limit = s.heap.limit ∧
    (∀ n fuel, malloc base fuel s.heap n = mallocLoop (units n) fuel h h.freep (h.ptr h.freep)) := by
  obtain ⟨hpos, hle, hbrk, hlim, ⟨hfresh, hlive, harena⟩ | ⟨F, hs⟩⟩ := hi
  · refine ⟨{ (s.heap.setPtr base base).setSize base 0 with freep := base }, {base},
      ⟨?_, Finset.mem_singleton_self _, ?_, fun p n hp => ?_, fun p n hp => ?_⟩, rfl, rfl, fun n fuel => ?_⟩
    · show Good base _ {base} s.used
      rw [used_empty hlive]
      exact .start hpos hle hbrk
    · show s.arena = covered base _ {base} s.used
      rw [used_empty hlive, harena]
      refine Eq.symm (Set.eq_empty_of_forall_notMem ?_)
      rintro x ⟨a, ⟨ha, hne⟩ | ha, -⟩
      · exact hne (Finset.mem_singleton.mp ha)
      · exact ha
    · exact absurd ((hlive p).symm.trans hp) (Option.some_ne_none n).symm
    · exact absurd ((hlive p).symm.trans hp) (Option.some_ne_none n).symm
    · unfold malloc
      rw [if_pos hfresh]
  · have hne : s.heap.freep ≠ 0 := by
      have := hs.good.blocks.base_le (.inl hs.freep)
      omega
    refine ⟨s.heap, F, hs, rfl, rfl, fun n fuel => ?_⟩
    unfold malloc
    rw [if_neg hne]

/-- The pointer of a call of `malloc` that succeeds. -/
theorem Client.used_allocated (hr : r = b + 8) : (s.allocated n r t).used = insert b s.used := by
  have hne : r ≠ 0 := by omega
  ext a
  unfold used allocated
  simp only [if_neg hne]
  by_cases hab : a = b
  · subst hab
    simp [hr]
  · have : a + 8 ≠ r := by omega
    simp [this, hab, Function.update_of_ne]

theorem Sound.allocated (hs : Sound base { s with heap := h } F) (hbrk : h.brk = s.heap.brk) (hn : n + 16 ≤ 2 ^ 31)
    (hc : Carved base h t (units n) r F s.used) : ∃ F', Sound base (s.allocated n r t) F' := by
  obtain ⟨b, F', hr, hb, hsize, hm⟩ := hc
  have hne : r ≠ 0 := by omega
  have hused := Client.used_allocated (s := s) (n := n) (t := t) hr
  have hnone : s.live r = none := by
    by_contra hlive
    rw [hr] at hlive
    exact hb hlive
  have hlive : ∀ p k, (s.allocated n r t).live p = some k → p = r ∧ k = n ∨ p ≠ r ∧ s.live p = some k := by
    intro p k hp
    unfold Client.allocated at hp
    simp only [if_neg hne] at hp
    by_cases hpr : p = r
    · rw [hpr, Function.update_self] at hp
      exact .inl ⟨hpr, (Option.some.inj hp).symm⟩
    · rw [Function.update_of_ne hpr] at hp
      exact .inr ⟨hpr, hp⟩
  refine ⟨F', ⟨hused ▸ hm.good, hm.freep, ?_, fun p k hp => ?_, fun p k hp i hi => ?_⟩⟩
  · rw [hused]
    show s.arena ∪ {x | s.heap.brk ≤ x ∧ x < t.brk} = _
    rw [← hbrk, show s.arena = _ from hs.arena]
    exact hm.extent.symm
  · obtain ⟨rfl, rfl⟩ | ⟨hpr, hp'⟩ := hlive p k hp
    · refine ⟨by omega, ?_, (le_units hn).1⟩
      rw [hr, Nat.add_sub_cancel]
      exact hsize
    · obtain ⟨h8, hsz, hle⟩ := hs.size p k hp'
      have hmem := hs.mem_used hp'
      exact ⟨h8, (hm.size _ hmem (.inr hmem)).trans hsz, hle⟩
  · obtain ⟨rfl, rfl⟩ | ⟨hpr, hp'⟩ := hlive p k hp
    · unfold Client.allocated
      simp only [if_neg hne, Function.update_self]
    · have hmem := hs.mem_used hp'
      have hin : p - 8 + 8 ≤ p + i ∧ p + i < p - 8 + 8 * h.size (p - 8) := hs.payload hp' hi
      have hbl : base + 8 ≤ p - 8 ∧ 0 < h.size (p - 8) ∧ p - 8 + 8 * h.size (p - 8) ≤ h.brk :=
        hs.good.blocks.inside _ (.inr hmem) (hs.good.blocks.ne_base hmem)
      have hkeep : t.byte (p + i) = h.byte (p + i) := by
        refine hm.byte _ (by omega) (.inr (by omega)) ?_
        rw [Set.sdiff_eq_empty.mpr (Set.subset_insert b s.used)]
        exact hs.good.blocks.not_covered hmem (by omega) hin.2
      have htext : (s.allocated n r t).text p = s.text p := by
        unfold Client.allocated
        simp only [if_neg hne, Function.update_of_ne hpr]
      rw [htext]
      exact hkeep.trans (hs.text p k hp' i hi)

/-! ### The other steps -/

theorem before_eq (h8 : 8 ≤ p) (hp : p < 2 ^ 32) : before p = p - 8 := by
  unfold before
  omega

theorem Sound.freed (hs : Sound base s F) (hp : s.live p = some n)
    (hret : Returns (fun fuel => free fuel s.heap p) t) :
    t.brk = s.heap.brk ∧ t.limit = s.heap.limit ∧
      ∃ F', Sound base { s with heap := t, live := Function.update s.live p none } F' := by
  obtain ⟨h8, hsize, hle⟩ := hs.size p n hp
  have hmem := hs.mem_used hp
  have hin := hs.good.inside (.inr hmem)
  obtain ⟨t', g, F', hg, hret', hfreed⟩ := free_spec hs.good hs.freep hmem (before_eq h8 (by omega))
  obtain rfl := hret.unique hret'
  have hm := hfreed.moved hs.good hmem hg
  have hused : Client.used { s with heap := t, live := Function.update s.live p none } = s.used \ {p - 8} := by
    ext a
    unfold Client.used
    by_cases hap : a + 8 = p
    · subst hap
      simp
    · simp [hap, show a ≠ p - 8 by omega]
  have hlive : ∀ q k, Function.update s.live p none q = some k → q ≠ p ∧ s.live q = some k := by
    intro q k hqk
    by_cases hqp : q = p
    · rw [hqp, Function.update_self] at hqk
      cases hqk
    · rw [Function.update_of_ne hqp] at hqk
      exact ⟨hqp, hqk⟩
  refine ⟨hfreed.brk, hfreed.limit, F', ⟨hused ▸ hm.good, hm.freep, ?_, fun q k hqk => ?_, fun q k hqk i hi => ?_⟩⟩
  · rw [hused]
    exact hs.arena.trans hfreed.extent.symm
  · obtain ⟨hne, hqk'⟩ := hlive q k hqk
    obtain ⟨h8', hsize', hle'⟩ := hs.size q k hqk'
    exact ⟨h8', (hfreed.size _ (hs.mem_used hqk') (by omega)).trans hsize', hle'⟩
  · obtain ⟨hne, hqk'⟩ := hlive q k hqk
    have h8' := (hs.size q k hqk').1
    have hmem' := hs.mem_used hqk'
    have hin' := hs.payload hqk' hi
    have hlo : q - 8 ≤ q + i := by omega
    refine Eq.trans ?_ (hs.text q k hqk' i hi)
    exact hfreed.byte _ (hs.good.blocks.outside_header hmem' hlo hin'.2 (.inr hmem) (by omega))
      (hs.good.blocks.outside_header hmem' hlo hin'.2 (.inl hg) fun heq => hs.good.blocks.disjoint g hg (heq ▸ hmem'))

/-- A byte is written that is in no header. -/
theorem Good.store (hg : Good base h F B) (hx : ∀ a, a ∈ F ∨ a ∈ B → x < a ∨ a + 8 ≤ x) :
    Good base (h.store x w) F B ∧ ∀ a, a ∈ F ∨ a ∈ B → (h.store x w).size a = h.size a := by
  have hbyte : ∀ y, y ≠ x → (h.store x w).byte y = h.byte y := fun y hy => Function.update_of_ne hy _ _
  have hsize : ∀ a, a ∈ F ∨ a ∈ B → (h.store x w).size a = h.size a := fun a ha => by
    have := hx a ha
    exact congrArg BitVec.toNat (word_congr fun i _ _ => hbyte i (by omega))
  have hptr : ∀ a ∈ F, (h.store x w).ptr a = h.ptr a := fun a ha => by
    have := hx a (.inl ha)
    exact congrArg BitVec.toNat (word_congr fun i _ _ => hbyte i (by omega))
  refine ⟨⟨hg.blocks.congr hsize hptr, fun a ha => ?_, hg.base_pos, hg.base_le, hg.brk_lt⟩, hsize⟩
  rw [hsize a (.inl ha), hptr a ha]
  exact hg.coalesced a ha

/-- Blocks with pointers of the program lie apart. -/
theorem Sound.apart (hs : Sound base s F) (hp : s.live p = some n) (hq : s.live q = some k) (hne : p ≠ q) :
    p - 8 + 8 * units n ≤ q - 8 ∨ q - 8 + 8 * units k ≤ p - 8 := by
  have h8 := (hs.size p n hp).1
  have h8' := (hs.size q k hq).1
  have hp' := hs.mem_used hp
  have hq' := hs.mem_used hq
  rw [← (hs.size p n hp).2.1, ← (hs.size q k hq).2.1]
  obtain hlt | hlt := lt_or_gt_of_ne hne
  · exact .inl (hs.good.blocks.apart _ _ (.inr hp') (.inr hq') (by omega))
  · exact .inr (hs.good.blocks.apart _ _ (.inr hq') (.inr hp') (by omega))

theorem Sound.stored (hs : Sound base s F) (hp : s.live p = some n) (hi : i < n) :
    Sound base { s with
      heap := s.heap.store (p + i) w
      text := Function.update s.text p (Function.update (s.text p) i w) } F := by
  obtain ⟨h8, hsize, hle⟩ := hs.size p n hp
  have hmem := hs.mem_used hp
  have hin := hs.payload hp hi
  obtain ⟨hgood, hsizes⟩ := hs.good.store (x := p + i) (w := w) fun a ha => by
    by_cases hap : a = p - 8
    · omega
    · exact hs.good.blocks.outside_header hmem (by omega) hin.2 ha hap
  refine ⟨hgood, hs.freep, hs.arena.trans (covered_congr hsizes).symm, fun q k hq => ?_, fun q k hq j hj => ?_⟩
  · obtain ⟨h8', hsize', hle'⟩ := hs.size q k hq
    exact ⟨h8', (hsizes _ (.inr (hs.mem_used hq))).trans hsize', hle'⟩
  · show Function.update s.heap.byte (p + i) w (q + j) =
      Function.update s.text p (Function.update (s.text p) i w) q j
    have htext := hs.text q k hq j hj
    by_cases hqp : q = p
    · subst hqp
      rw [Function.update_self]
      by_cases hji : j = i
      · rw [hji, Function.update_self, Function.update_self]
      · rw [Function.update_of_ne (by omega), Function.update_of_ne hji, htext]
    · have hapart := hs.apart hq hp hqp
      have hle' := (hs.size q k hq).2.2
      have h8' := (hs.size q k hq).1
      rw [Function.update_of_ne hqp, Function.update_of_ne (by omega), htext]

theorem Sound.other (hs : Sound base s F) (hbase : x < base ∨ base + 8 ≤ x) (hx : x ∉ s.arena) :
    Sound base { s with heap := s.heap.store x w } F := by
  rw [hs.arena] at hx
  obtain ⟨hgood, hsizes⟩ := hs.good.store (x := x) (w := w) fun a ha => by
    obtain ha | ha := ha
    · exact hs.good.blocks.outside_free ha hbase hx
    · have hin := hs.good.blocks.inside a (.inr ha) (hs.good.blocks.ne_base ha)
      by_contra hno
      exact hx ⟨a, .inr ha, by omega, by omega⟩
  refine ⟨hgood, hs.freep, hs.arena.trans (covered_congr hsizes).symm, fun q k hq => ?_, fun q k hq j hj => ?_⟩
  · obtain ⟨h8', hsize', hle'⟩ := hs.size q k hq
    exact ⟨h8', (hsizes _ (.inr (hs.mem_used hq))).trans hsize', hle'⟩
  · have hin := hs.payload hq hj
    have hne : q + j ≠ x := fun heq => hx ⟨q - 8, .inr (hs.mem_used hq), by omega, by omega⟩
    exact (Function.update_of_ne hne _ _).trans (hs.text q k hq j hj)

/-- The break goes up. -/
theorem Good.raise (hg : Good base h F B) (hbrk : h.brk ≤ t.brk) (hlt : t.brk < 2 ^ 31) (hbyte : t.byte = h.byte) :
    Good base t F B := by
  have hsize : t.size = h.size := by
    unfold size
    rw [hbyte]
  have hptr : t.ptr = h.ptr := by
    unfold ptr
    rw [hbyte]
  refine ⟨?_, ?_, hg.base_pos, hg.base_le.trans hbrk, hlt⟩
  · rw [hsize, hptr]
    exact { hg.blocks with inside := fun a ha hne => by have := hg.blocks.inside a ha hne; omega }
  · rw [hsize, hptr]
    exact hg.coalesced

/-- **The step lemma.** -/
theorem Inv.step (hi : Inv base s) (hstep : e.Step base s s') : Inv base s' := by
  obtain ⟨hpos, hle, hbrk, hlim, hcase⟩ := id hi
  cases e with
  | malloc n =>
    obtain ⟨hn, r, t, hret, rfl⟩ := hstep
    obtain ⟨h, F, hs, hbrk', hlim', heq⟩ := hi.enter
    obtain ⟨r', t', hret', hout⟩ := mallocLoop_spec hs.good hs.freep (hlim'.trans_lt hlim) (units_pos n)
      (le_units hn).2
    obtain ⟨rfl, rfl⟩ := Prod.mk.inj (hret.unique (by simpa only [heq] using hret'))
    obtain ⟨rfl, rfl, -⟩ | ⟨-, hc⟩ := hout
    · have hsame : s.allocated n 0 t = { s with heap := t } := by
        unfold Client.allocated
        rw [hbrk', union_new_self]
        rfl
      rw [hsame]
      exact ⟨hpos, hle.trans hbrk'.ge, hbrk'.trans_lt hbrk, hlim'.trans_lt hlim, .inr ⟨F, hs⟩⟩
    · obtain ⟨F', hs'⟩ := hs.allocated hbrk' hn hc
      obtain ⟨b, F'', -, -, -, hm⟩ := hc
      exact ⟨hpos, hs'.good.base_le, hs'.good.brk_lt, hm.limit.trans_lt (hlim'.trans_lt hlim), .inr ⟨F', hs'⟩⟩
  | free p =>
    obtain ⟨n, t, hp, hret, rfl⟩ := hstep
    obtain ⟨-, hlive, -⟩ | ⟨F, hs⟩ := hcase
    · exact absurd ((hlive p).symm.trans hp) (Option.some_ne_none n).symm
    · obtain ⟨hbrk', hlim', F', hs'⟩ := hs.freed hp hret
      exact ⟨hpos, hle.trans hbrk'.ge, hbrk'.trans_lt hbrk, hlim'.trans_lt hlim, .inr ⟨F', hs'⟩⟩
  | store p i b =>
    obtain ⟨n, hp, hin, rfl⟩ := hstep
    obtain ⟨-, hlive, -⟩ | ⟨F, hs⟩ := hcase
    · exact absurd ((hlive p).symm.trans hp) (Option.some_ne_none n).symm
    · exact ⟨hpos, hle, hbrk, hlim, .inr ⟨F, hs.stored hp hin⟩⟩
  | other x b =>
    obtain ⟨hx, hno, rfl⟩ := hstep
    exact ⟨hpos, hle, hbrk, hlim, hcase.imp id fun ⟨F, hs⟩ => ⟨F, hs.other hx hno⟩⟩
  | sbrk n =>
    obtain ⟨h0, hlt, p, t, hsbrk, rfl⟩ := hstep
    unfold Heap.sbrk at hsbrk
    rw [if_neg (by omega), if_pos hlt] at hsbrk
    split_ifs at hsbrk with hfit
    obtain ⟨-, rfl⟩ := Prod.mk.inj (Option.some.inj hsbrk)
    have hbrk' : s.heap.brk + n < 2 ^ 31 := by omega
    refine ⟨hpos, hle.trans (Nat.le_add_right _ _), hbrk', hlim, hcase.imp id fun ⟨F, hs⟩ => ⟨F, ?_⟩⟩
    exact ⟨hs.good.raise (Nat.le_add_right _ _) hbrk' rfl, hs.freep, hs.arena, hs.size, hs.text⟩
  | limit n =>
    obtain ⟨hlt, rfl⟩ := hstep
    refine ⟨hpos, hle, hbrk, hlt, hcase.imp id fun ⟨F, hs⟩ => ⟨F, ?_⟩⟩
    exact ⟨hs.good.raise le_rfl hbrk rfl, hs.freep, hs.arena, hs.size, hs.text⟩

/-- **The run lemma.** -/
theorem clients_inv (h : (clients base).Reachable s) : Inv base s :=
  h.invariant (fun _ ⟨hpos, hle, hbrk, hlim, hfree, hlive, harena⟩ =>
    ⟨hpos, hle, hbrk, hlim, .inl ⟨hfree, hlive, harena⟩⟩) fun _ _ _ _ hi hstep => hi.step hstep

/-! ### Vacant memory -/

/-- The bytes of the allocator that are in no block of the program. -/
def Client.Vacant (s : Client) (x : ℕ) : Prop :=
  x ∈ s.arena ∧ ∀ p n, s.live p = some n → x < p - 8 ∨ p - 8 + 8 * units n ≤ x

theorem Sound.vacant_iff (hs : Sound base s F) : s.Vacant x ↔ x ∈ covered base s.heap.size F ∅ := by
  constructor
  · rintro ⟨hx, hno⟩
    rw [hs.arena] at hx
    obtain ⟨a, ha | ha, hlo, hhi⟩ := hx
    · exact ⟨a, .inl ha, hlo, hhi⟩
    · obtain ⟨n, hn⟩ := Option.ne_none_iff_exists'.mp ha
      have hsize := (hs.size _ n hn).2.1
      have := hno _ n hn
      rw [Nat.add_sub_cancel] at this hsize
      omega
  · intro hx
    refine ⟨hs.arena ▸ covered_mono (Set.empty_subset _) hx, fun p n hp => ?_⟩
    by_contra hin
    rw [← (hs.size p n hp).2.1] at hin
    exact hs.good.blocks.not_covered (hs.mem_used hp) (by omega) (by omega) hx

/-- No free block touches another one. -/
theorem Good.not_adjacent (hg : Good base h F B) (ha : a ∈ F) (hc : c ∈ F) (hca : a < c) : a + 8 * h.size a ≠ c := by
  intro heq
  have hno := (hg.blocks.circular a ha).2 c hc
  have hlt : a < h.ptr a := by
    unfold Between at hno
    omega
  have hle : h.ptr a ≤ c := by
    unfold Between at hno
    omega
  have hnext := hg.blocks.apart a _ (.inl ha) (.inl (hg.blocks.circular.next_mem ha)) hlt
  exact hg.coalesced a ha hlt (by omega)

/-- Vacant bytes in a row are in one block of the free list. -/
theorem Good.run (hg : Good base h F B) (hk : 0 < k) (hrun : ∀ i < 8 * k, x + i ∈ covered base h.size F ∅) :
    ∃ a ∈ F, k ≤ h.size a := by
  obtain ⟨a, ⟨ha, hne⟩ | ha, hlo, hhi⟩ := hrun 0 (by omega)
  swap
  · exact ha.elim
  refine ⟨a, ha, ?_⟩
  by_contra hsmall
  -- the byte behind the block is in the next one
  obtain ⟨c, ⟨hc, hcne⟩ | hc, hlo', hhi'⟩ := hrun (a + 8 * h.size a - x) (by omega)
  swap
  · exact hc
  rw [Nat.add_sub_cancel' (by omega)] at hlo' hhi'
  have hca : a < c := by
    by_contra hle
    obtain rfl | hlt := eq_or_lt_of_le (not_lt.mp hle)
    · omega
    · have := hg.blocks.apart c a (.inl hc) (.inl ha) hlt
      omega
  have hle := hg.blocks.apart a c (.inl ha) (.inl hc) hca
  exact hg.not_adjacent ha hc hca (by omega)

theorem Inv.free_returns (hi : Inv base s) (hp : s.live p = some n) :
    ∃ t, Returns (fun fuel => free fuel s.heap p) t := by
  obtain ⟨-, -, -, -, ⟨-, hlive, -⟩ | ⟨F, hs⟩⟩ := hi
  · exact absurd ((hlive p).symm.trans hp) (Option.some_ne_none n).symm
  · have hmem := hs.mem_used hp
    have hin := hs.good.inside (.inr hmem)
    obtain ⟨t, -, -, -, hret, -⟩ := free_spec hs.good hs.freep hmem (before_eq (hs.size p n hp).1 (by omega))
    exact ⟨t, hret⟩

theorem Inv.malloc_returns (hi : Inv base s) (hn : n + 16 ≤ 2 ^ 31) :
    ∃ r t, Returns (fun fuel => malloc base fuel s.heap n) (r, t) ∧
      (r = 0 ↔ (¬ ∃ x, ∀ i < 8 * units n, s.Vacant (x + i)) ∧ s.heap.limit < s.heap.brk + 8 * more (units n)) := by
  obtain ⟨u, F, hs, hbrk, hlim, heq⟩ := hi.enter
  have hlim' := hi.2.2.2.1
  obtain ⟨r, t, hret, hout⟩ := mallocLoop_spec hs.good hs.freep (hlim.trans_lt hlim') (units_pos n) (le_units hn).2
  refine ⟨r, t, by simpa only [heq] using hret, ?_⟩
  have hvacant : ∀ x, s.Vacant x ↔ x ∈ covered base u.size F ∅ := fun x => hs.vacant_iff
  have hrun : (∃ x, ∀ i < 8 * units n, s.Vacant (x + i)) ↔ ∃ a ∈ F, units n ≤ u.size a := by
    simp only [hvacant]
    refine ⟨fun ⟨x, hx⟩ => hs.good.run (units_pos n) hx, fun ⟨a, ha, hle⟩ => ⟨a, fun i hi => ?_⟩⟩
    have hsize : 0 < u.size a := (units_pos n).trans_le hle
    refine ⟨a, .inl ⟨ha, fun hab => ?_⟩, Nat.le_add_right a i, Nat.add_lt_add_left (by omega) a⟩
    have hzero : u.size base = 0 := hs.good.blocks.base_size
    rw [hab, hzero] at hsize
    exact lt_irrefl 0 hsize
  have hrefused : Refused u F (units n) ↔ (¬ ∃ x, ∀ i < 8 * units n, s.Vacant (x + i)) ∧
      s.heap.limit < s.heap.brk + 8 * more (units n) := by
    unfold Refused
    rw [hrun, ← hbrk, ← hlim]
    simp only [not_exists, not_and, not_le]
  rw [← hrefused]
  obtain ⟨hr, -, hno⟩ | ⟨hyes, b, -, hr, -⟩ := hout
  · exact ⟨fun _ => hno, fun _ => hr⟩
  · exact ⟨fun h0 => absurd h0 (by omega), fun hno => absurd hno hyes⟩

/-- What `malloc` returns is no block of the program yet. -/
theorem Inv.malloc_new (hi : Inv base s) (hn : n + 16 ≤ 2 ^ 31)
    (hret : Returns (fun fuel => malloc base fuel s.heap n) (r, t)) (hr : r ≠ 0) : s.live r = none := by
  obtain ⟨u, F, hs, -, hlim, heq⟩ := hi.enter
  have hlim' := hi.2.2.2.1
  obtain ⟨r', t', hret', hout⟩ := mallocLoop_spec hs.good hs.freep (hlim.trans_lt hlim') (units_pos n) (le_units hn).2
  obtain ⟨rfl, rfl⟩ := Prod.mk.inj (hret.unique (by simpa only [heq] using hret'))
  obtain ⟨h0, -⟩ | ⟨-, b, F', rfl, hb, -⟩ := hout
  · exact absurd h0 hr
  · by_contra hlive
    exact hb hlive

/-- The bytes of the blocks belong to the allocator. -/
theorem Sound.mem_arena (hs : Sound base s F) (hp : s.live p = some n) (hlo : p - 8 ≤ x)
    (hhi : x < p - 8 + 8 * units n) : x ∈ s.arena := by
  rw [hs.arena]
  exact ⟨p - 8, .inr (hs.mem_used hp), hlo, (hs.size p n hp).2.1.symm ▸ hhi⟩

/-! ### Programs with blocks -/

/-- The program gets a block, if there is room. -/
theorem reachable_malloc (h : (clients base).Reachable s) (hn : n + 16 ≤ 2 ^ 31)
    (hroom : (∃ x, ∀ i < 8 * units n, s.Vacant (x + i)) ∨ s.heap.brk + 8 * more (units n) ≤ s.heap.limit) :
    ∃ r s', (clients base).Reachable s' ∧ s.live r = none ∧ s'.live = Function.update s.live r (some n) ∧
      s.arena ⊆ s'.arena := by
  have hi := clients_inv h
  obtain ⟨r, t, hret, hr⟩ := hi.malloc_returns hn
  have hne : r ≠ 0 := by
    intro h0
    obtain ⟨hno, hlim⟩ := hr.mp h0
    exact hroom.elim hno fun hle => absurd hlim (not_lt.mpr hle)
  have hstep : (Event.malloc n).Step base s (s.allocated n r t) := ⟨hn, r, t, hret, rfl⟩
  refine ⟨r, _, .step (a := .malloc n) h hstep, hi.malloc_new hn hret hne, ?_, Set.subset_union_left⟩
  unfold Client.allocated
  exact if_neg hne

/-- The program gives a block back. -/
theorem reachable_free (h : (clients base).Reachable s) (hp : s.live p = some n) :
    ∃ s', (clients base).Reachable s' ∧ s'.live = Function.update s.live p none ∧ s'.arena = s.arena := by
  obtain ⟨t, hret⟩ := (clients_inv h).free_returns hp
  have hstep : (Event.free p).Step base s { s with heap := t, live := Function.update s.live p none } :=
    ⟨n, t, hp, hret, rfl⟩
  exact ⟨_, .step (a := .free p) h hstep, rfl, rfl⟩

/-- A program that has just started. -/
def started : Client := ⟨⟨fun _ => 0#8, 0, 4096, 2 ^ 20⟩, fun _ => none, fun _ _ => 0#8, ∅⟩

theorem reachable_started : (clients 16).Reachable started :=
  .init ⟨by decide, by decide, by decide, by decide, rfl, fun _ => rfl, rfl⟩

theorem Inv.sound (hi : Inv base s) (hp : s.live p = some n) : ∃ F, Sound base s F := by
  obtain ⟨-, -, -, -, ⟨-, hnone, -⟩ | hs⟩ := hi
  · exact absurd ((hnone p).symm.trans hp) (Option.some_ne_none n).symm
  · exact hs

/-- A program with a block of 100 bytes. -/
theorem one_block : ∃ s p, (clients 16).Reachable s ∧ s.live p = some 100 ∧ (∀ q ≠ p, s.live q = none) ∧
    s.heap.freep ≠ 0 := by
  obtain ⟨p, s, h, -, hlive, -⟩ := reachable_malloc (n := 100) reachable_started (by decide) (.inr (by decide))
  have hp : s.live p = some 100 := by rw [hlive, Function.update_self]
  obtain ⟨F, hs⟩ := (clients_inv h).sound hp
  refine ⟨s, p, h, hp, fun q hq => ?_, fun h0 => ?_⟩
  · rw [hlive, Function.update_of_ne hq]
    rfl
  · have := hs.good.base_pos
    have := hs.good.blocks.base_le (.inl hs.freep)
    omega

/-- A program that has given its first block back, got two others, and written one of them. -/
theorem two_blocks : ∃ s q r, (clients 16).Reachable s ∧ s.live q = some 40 ∧ s.live r = some 20 ∧ q ≠ r ∧
    s.text q 5 = 7#8 := by
  obtain ⟨s₁, p, h₁, hp, honly, -⟩ := one_block
  obtain ⟨F, hs⟩ := (clients_inv h₁).sound hp
  obtain ⟨s₂, h₂, hlive₂, harena₂⟩ := reachable_free h₁ hp
  have hnone : ∀ q, s₂.live q = none := fun q => by
    rw [hlive₂, Function.update_apply]
    split_ifs with hq
    · rfl
    · exact honly q hq
  -- the bytes of the first block are vacant now, and enough for both
  have hrow : ∀ i < 112, p - 8 + i ∈ s₂.arena := fun i hi => by
    rw [harena₂]
    exact hs.mem_arena hp (Nat.le_add_right _ _) (Nat.add_lt_add_left hi _)
  obtain ⟨q, s₃, h₃, -, hlive₃, harena₃⟩ := reachable_malloc (n := 40) h₂ (by decide)
    (.inl ⟨p - 8, fun i hi => ⟨hrow i (hi.trans (by decide)), fun a n ha => by rw [hnone a] at ha; cases ha⟩⟩)
  have hq : s₃.live q = some 40 := by rw [hlive₃, Function.update_self]
  have hvacant : ∀ x, p - 8 ≤ x → x < p - 8 + 112 → (x < q - 8 ∨ q - 8 + 48 ≤ x) → s₃.Vacant x := by
    intro x hlo hhi hout
    refine ⟨harena₃ (Nat.add_sub_cancel' hlo ▸ hrow (x - (p - 8)) (by omega)), fun a n ha => ?_⟩
    rw [hlive₃, Function.update_apply] at ha
    split_ifs at ha with haq
    · cases ha
      exact haq ▸ hout
    · exact absurd ha (by simp [hnone a])
  have hroom : ∃ x, ∀ i < 8 * units 20, s₃.Vacant (x + i) := by
    have h32 : 8 * units 20 = 32 := rfl
    rw [h32]
    by_cases hfirst : p - 8 + 32 ≤ q - 8 ∨ q - 8 + 48 ≤ p - 8
    · exact ⟨p - 8, fun i hi => hvacant _ (by omega) (by omega) (by omega)⟩
    · exact ⟨q - 8 + 48, fun i hi => hvacant _ (by omega) (by omega) (by omega)⟩
  obtain ⟨r, s₄, h₄, hnew, hlive₄, -⟩ := reachable_malloc (n := 20) h₃ (by decide) (.inl hroom)
  have hqr : q ≠ r := fun heq => by
    rw [← heq, hq] at hnew
    cases hnew
  have hq₄ : s₄.live q = some 40 := by rw [hlive₄, Function.update_of_ne hqr, hq]
  have hr₄ : s₄.live r = some 20 := by rw [hlive₄, Function.update_self]
  have hstep : (Event.store q 5 7#8).Step 16 s₄ { s₄ with
      heap := s₄.heap.store (q + 5) 7#8
      text := Function.update s₄.text q (Function.update (s₄.text q) 5 7#8) } := ⟨40, hq₄, by decide, rfl⟩
  refine ⟨_, q, r, .step (a := .store q 5 7#8) h₄ hstep, hq₄, hr₄, hqr, ?_⟩
  simp only [Function.update_self]

/-! ### Results -/

/-- **The blocks of a program are its own**: they lie apart in the memory of the allocator, each with its header and
room for what was asked for, and hold what was written to them last. -/
theorem blocks_private (h : (clients base).Reachable s) :
    (∀ p n, s.live p = some n → 8 ≤ p ∧ n + 8 ≤ 8 * units n ∧
      (∀ x, p - 8 ≤ x → x < p - 8 + 8 * units n → x ∈ s.arena) ∧ ∀ i < n, s.heap.byte (p + i) = s.text p i) ∧
    ∀ p q n k, s.live p = some n → s.live q = some k → p ≠ q →
      p - 8 + 8 * units n ≤ q - 8 ∨ q - 8 + 8 * units k ≤ p - 8 := by
  obtain ⟨-, -, -, -, ⟨-, hlive, -⟩ | ⟨F, hs⟩⟩ := clients_inv h
  · refine ⟨fun p n hp => ?_, fun p q n k hp => ?_⟩ <;>
      exact absurd ((hlive p).symm.trans hp) (Option.some_ne_none n).symm
  · refine ⟨fun p n hp => ?_, fun p q n k hp hq hne => hs.apart hp hq hne⟩
    obtain ⟨h8, -, hle⟩ := hs.size p n hp
    exact ⟨h8, hle, fun x hlo hhi => hs.mem_arena hp hlo hhi, hs.text p n hp⟩

theorem blocks_private_two : ∃ (s : Client) (q r : ℕ), s.live q = some 40 ∧ s.live r = some 20 ∧
    (q - 8 + 8 * units 40 ≤ r - 8 ∨ r - 8 + 8 * units 20 ≤ q - 8) ∧ s.heap.byte (q + 5) = 7#8 := by
  obtain ⟨s, q, r, h, hq, hr, hne, htext⟩ := two_blocks
  obtain ⟨hblocks, hapart⟩ := blocks_private h
  exact ⟨s, q, r, hq, hr, hapart q r 40 20 hq hr hne, ((hblocks q 40 hq).2.2.2 5 (by decide)).trans htext⟩

/-- The free list of a program goes around the blocks `F`, from `base` upwards. They make up the vacant memory, and no
two of them touch. -/
structure Listed (base : ℕ) (s : Client) (F : Finset ℕ) : Prop where
  base_mem : base ∈ F
  freep : s.heap.freep ∈ F
  circular : Circular F s.heap.ptr
  low : ∀ a ∈ F, base ≤ a
  vacant : ∀ x, s.Vacant x ↔ ∃ a ∈ F, a ≤ x ∧ x < a + 8 * s.heap.size a
  apart : ∀ a ∈ F, ∀ c ∈ F, a < c → a + 8 * s.heap.size a < c

/-- **No memory is lost**, and free neighbours come together. -/
theorem memory_accounted (h : (clients base).Reachable s) (hfirst : s.heap.freep ≠ 0) : ∃ F, Listed base s F := by
  obtain ⟨-, -, -, -, ⟨hfree, -⟩ | ⟨F, hs⟩⟩ := clients_inv h
  · exact absurd hfree hfirst
  refine ⟨F, hs.good.blocks.base_mem, hs.freep, hs.good.blocks.circular, fun a ha => hs.good.blocks.base_le (.inl ha),
    fun x => ?_, fun a ha c hc hlt => ?_⟩
  · rw [hs.vacant_iff]
    constructor
    · rintro ⟨a, ⟨ha, -⟩ | ha, hx⟩
      · exact ⟨a, ha, hx⟩
      · exact ha.elim
    · rintro ⟨a, ha, hlo, hhi⟩
      refine ⟨a, .inl ⟨ha, fun heq => ?_⟩, hlo, hhi⟩
      rw [heq, hs.good.blocks.base_size] at hhi
      omega
  · exact lt_of_le_of_ne (hs.good.blocks.apart a c (.inl ha) (.inl hc) hlt) (hs.good.not_adjacent ha hc hlt)

theorem memory_accounted_one : ∃ (s : Client) (p : ℕ) (F : Finset ℕ), s.live p = some 100 ∧ Listed 16 s F := by
  obtain ⟨s, p, h, hp, -, hfirst⟩ := one_block
  obtain ⟨F, hF⟩ := memory_accounted h hfirst
  exact ⟨s, p, F, hp, hF⟩

/-- **Both calls return**, and `malloc` returns 0 exactly if there is no vacant memory in a row and the kernel has
none. -/
theorem calls_return (h : (clients base).Reachable s) :
    (∀ p n, s.live p = some n → ∃ t, Returns (fun fuel => free fuel s.heap p) t) ∧
    ∀ n, n + 16 ≤ 2 ^ 31 → ∃ r t, Returns (fun fuel => malloc base fuel s.heap n) (r, t) ∧
      (r = 0 ↔ (¬ ∃ x, ∀ i < 8 * units n, s.Vacant (x + i)) ∧ s.heap.limit < s.heap.brk + 8 * more (units n)) :=
  ⟨fun _ _ hp => (clients_inv h).free_returns hp, fun _ hn => (clients_inv h).malloc_returns hn⟩

theorem calls_return_one : ∃ (s : Client) (p : ℕ), s.live p = some 100 ∧
    (∃ t, Returns (fun fuel => free fuel s.heap p) t) ∧
    ∃ r t, Returns (fun fuel => malloc 16 fuel s.heap 7000) (r, t) := by
  obtain ⟨s, p, h, hp, -⟩ := one_block
  obtain ⟨r, t, hret, -⟩ := (calls_return h).2 7000 (by decide)
  exact ⟨s, p, hp, (calls_return h).1 p 100 hp, r, t, hret⟩

end OperatingSystems.Umalloc
