import OperatingSystems.Lib.Words

/-! # The allocator of user programs

`umalloc.c`. A pointer is a number below 2^32, and 0 is `NULL`. The loops have fuel, and are `none` without it.

`sbrk` is the system call: `growproc` moves the break up as long as the kernel has memory, and down. -/

namespace OperatingSystems.Umalloc

open Lib.Words

/-- The memory of the process; `freep`; the break, and how far the kernel lets it go at the moment. -/
structure Heap where
  byte : ℕ → BitVec 8
  freep : ℕ
  brk : ℕ
  limit : ℕ

/-- `p + n` for a `Header *`, of 8 bytes. -/
def plus (p n : ℕ) : ℕ := (p + 8 * n) % 2 ^ 32

/-- `p - 1`. -/
def before (p : ℕ) : ℕ := (p + (2 ^ 32 - 8)) % 2 ^ 32

namespace Heap

/-- `p->s.ptr`. -/
def ptr (h : Heap) (p : ℕ) : ℕ := (word h.byte p).toNat

/-- `p->s.size`. -/
def size (h : Heap) (p : ℕ) : ℕ := (word h.byte (p + 4)).toNat

def setPtr (h : Heap) (p q : ℕ) : Heap := { h with byte := setWord h.byte p (BitVec.ofNat 32 q) }

def setSize (h : Heap) (p n : ℕ) : Heap := { h with byte := setWord h.byte (p + 4) (BitVec.ofNat 32 n) }

def sbrk (h : Heap) (n : ℕ) : Option (ℕ × Heap) :=
  if n = 0 then some (h.brk, h)
  else if n < 2 ^ 31 then
    if h.brk + n ≤ h.limit then some (h.brk, { h with brk := h.brk + n }) else none
  else
    -- a negative number
    let sz := (h.brk + n) % 2 ^ 32
    if h.brk ≤ sz then some (h.brk, h) else if sz = 0 then none else some (h.brk, { h with brk := sz })

end Heap

/-- The loop of `free`: the block that `bp` goes behind. -/
def findPlace (h : Heap) (bp : ℕ) : ℕ → ℕ → Option ℕ
  | 0, _ => none
  | fuel + 1, p =>
    if bp > p ∧ bp < h.ptr p then some p
    else if p ≥ h.ptr p ∧ (bp > p ∨ bp < h.ptr p) then some p
    else findPlace h bp fuel (h.ptr p)

/-- `bp` takes in the block behind it, if it is free. -/
def joinRight (h : Heap) (bp p : ℕ) : Heap :=
  if plus bp (h.size bp) = h.ptr p then
    let h := h.setSize bp (h.size bp + h.size (h.ptr p))
    h.setPtr bp (h.ptr (h.ptr p))
  else h.setPtr bp (h.ptr p)

/-- `p` takes in `bp`, if it ends there. -/
def joinLeft (h : Heap) (bp p : ℕ) : Heap :=
  if plus p (h.size p) = bp then
    let h := h.setSize p (h.size p + h.size bp)
    h.setPtr p (h.ptr bp)
  else h.setPtr p bp

/-- The rest of `free`: `bp` goes into the list behind `p`. -/
def link (h : Heap) (bp p : ℕ) : Heap := { joinLeft (joinRight h bp p) bp p with freep := p }

def free (fuel : ℕ) (h : Heap) (ap : ℕ) : Option Heap :=
  (findPlace h (before ap) fuel h.freep).map (link h (before ap))

def morecore (fuel : ℕ) (h : Heap) (nu : ℕ) : Option (ℕ × Heap) :=
  let nu := if nu < 4096 then 4096 else nu
  match h.sbrk (nu * 8 % 2 ^ 32) with
  | none => some (0, h)
  | some (hp, h) => (free fuel (h.setSize hp nu) (plus hp 1)).map fun h => (h.freep, h)

/-- `nunits` units of the block `p` behind `prevp`: all of it, or its end. -/
def carve (h : Heap) (nunits prevp p : ℕ) : ℕ × Heap :=
  if h.size p = nunits then (plus p 1, { h.setPtr prevp (h.ptr p) with freep := prevp })
  else
    let h := h.setSize p (h.size p - nunits)
    let p := plus p (h.size p)
    (plus p 1, { h.setSize p nunits with freep := prevp })

/-- The loop of `malloc`. -/
def mallocLoop (nunits : ℕ) : ℕ → Heap → ℕ → ℕ → Option (ℕ × Heap)
  | 0, _, _, _ => none
  | fuel + 1, h, prevp, p =>
    if h.size p ≥ nunits then some (carve h nunits prevp p)
    else if p = h.freep then
      match morecore fuel h nunits with
      | none => none
      | some (p, h) => if p = 0 then some (0, h) else mallocLoop nunits fuel h p (h.ptr p)
    else mallocLoop nunits fuel h p (h.ptr p)

/-- The units for a request, with the header. -/
def units (nbytes : ℕ) : ℕ := (nbytes + 7) % 2 ^ 32 / 8 + 1

/-- `malloc`, with the address of `base`. -/
def malloc (base fuel : ℕ) (h : Heap) (nbytes : ℕ) : Option (ℕ × Heap) :=
  let h := if h.freep = 0 then { (h.setPtr base base).setSize base 0 with freep := base } else h
  mallocLoop (units nbytes) fuel h h.freep (h.ptr h.freep)

/-- What a loop returns with enough fuel. -/
def Returns {α : Type} (f : ℕ → Option α) (a : α) : Prop := ∃ n, ∀ fuel ≥ n, f fuel = some a

namespace Returns

variable {α β : Type} {f g : ℕ → Option α} {a b : α}

theorem const (a : α) : Returns (fun _ => some a) a := ⟨0, fun _ _ => rfl⟩

theorem unique (h : Returns f a) (h' : Returns f b) : a = b := by
  obtain ⟨n, hn⟩ := h
  obtain ⟨k, hk⟩ := h'
  have heq := hn (max n k) (le_max_left n k)
  rw [hk (max n k) (le_max_right n k)] at heq
  exact (Option.some.inj heq).symm

/-- One more round. -/
theorem succ (h : Returns f a) (hg : ∀ fuel, g (fuel + 1) = f fuel) : Returns g a := by
  obtain ⟨n, hn⟩ := h
  refine ⟨n + 1, fun fuel hfuel => ?_⟩
  obtain ⟨fuel, rfl⟩ : ∃ k, fuel = k + 1 := ⟨fuel - 1, by omega⟩
  rw [hg]
  exact hn fuel (by omega)

theorem map (h : Returns f a) (e : α → β) : Returns (fun fuel => (f fuel).map e) (e a) := by
  obtain ⟨n, hn⟩ := h
  exact ⟨n, fun fuel hfuel => by simp only [hn fuel hfuel, Option.map_some]⟩

end Returns

end OperatingSystems.Umalloc
