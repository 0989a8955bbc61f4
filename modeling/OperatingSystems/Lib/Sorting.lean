import Mathlib.Tactic

/-! # Stable sorting by a key

`StableSort key xs ys`: `ys` has the entries of `xs`, in the order of their keys, and those with one key in
the order of `xs`. Merging is `List.merge`, which takes the left entry on a tie. -/

namespace OperatingSystems.Lib.Sorting

variable {α κ : Type*} [LinearOrder κ] {key : α → κ} {xs xs' ys ys' : List α} {x y : α}

/-- The left of two entries goes first, unless the key of the right one is smaller. -/
def leftFirst (key : α → κ) (x y : α) : Bool := decide (key x ≤ key y)

/-- `ys` is `xs`, sorted by `key` and stably so. -/
structure StableSort (key : α → κ) (xs ys : List α) : Prop where
  perm : ys.Perm xs
  sorted : ys.Pairwise fun x y => key x ≤ key y
  stable : ∀ k, ys.filter (fun x => key x = k) = xs.filter fun x => key x = k

theorem stableSort_of_length_le_one (h : xs.length ≤ 1) : StableSort key xs xs := by
  refine ⟨.refl _, ?_, fun _ => rfl⟩
  match xs, h with
  | [], _ => exact .nil
  | [x], _ => exact List.pairwise_singleton _ x

theorem sorted_merge (hx : xs.Pairwise fun x y => key x ≤ key y) (hy : ys.Pairwise fun x y => key x ≤ key y) :
    (xs.merge ys (leftFirst key)).Pairwise fun x y => key x ≤ key y := by
  have hx' : xs.Pairwise fun a b => leftFirst key a b := hx.imp fun hle => decide_eq_true hle
  have hy' : ys.Pairwise fun a b => leftFirst key a b := hy.imp fun hle => decide_eq_true hle
  have h := List.pairwise_merge (fun a b c hab hbc => ?_) (fun a b => ?_) xs ys hx' hy'
  · exact h.imp fun hle => of_decide_eq_true hle
  · exact decide_eq_true ((of_decide_eq_true hab).trans (of_decide_eq_true hbc))
  · rcases le_total (key a) (key b) with hle | hle
    · simp [leftFirst, hle]
    · simp [leftFirst, hle]

/-- **A merge keeps the order of the entries with one key**, the left ones first. -/
theorem filter_merge (hx : xs.Pairwise fun x y => key x ≤ key y) (k : κ) :
    (xs.merge ys (leftFirst key)).filter (fun x => key x = k) =
      xs.filter (fun x => key x = k) ++ ys.filter fun x => key x = k := by
  induction xs generalizing ys with
  | nil => simp
  | cons x xs ihx =>
    obtain ⟨hle, hxs⟩ := List.pairwise_cons.mp hx
    induction ys with
    | nil => simp
    | cons y ys ihy =>
      rw [List.cons_merge_cons]
      split_ifs with hxy
      · rw [List.filter_cons, List.filter_cons, ihx hxs]
        split_ifs <;> rfl
      · have hlt : key y < key x := lt_of_not_ge fun hle => hxy (decide_eq_true hle)
        rw [List.filter_cons, ihy, List.filter_cons (x := y)]
        split_ifs with hy
        · -- no entry of the left list has the key of `y`
          have hnone : (x :: xs).filter (fun x => key x = k) = [] := by
            rw [List.filter_eq_nil_iff]
            intro a ha hka
            have hka' : key a = k := by simpa using hka
            have hy' : key y = k := by simpa using hy
            rcases List.mem_cons.mp ha with rfl | ha
            · exact absurd (hy'.trans hka'.symm) hlt.ne
            · exact absurd (hy'.trans hka'.symm) (hlt.trans_le (hle a ha)).ne
          rw [hnone]
          rfl
        · rfl

/-- **Merging stable sorts of two lists** sorts the lists one after the other. -/
theorem StableSort.merge (hx : StableSort key xs xs') (hy : StableSort key ys ys') :
    StableSort key (xs ++ ys) (xs'.merge ys' (leftFirst key)) where
  perm := (List.merge_perm_append (leftFirst key)).trans (hx.perm.append hy.perm)
  sorted := sorted_merge hx.sorted hy.sorted
  stable k := by rw [filter_merge hx.sorted, hx.stable, hy.stable, List.filter_append]

/-- A stable sort of entries is one of what they stand for. -/
theorem StableSort.map {β : Type*} {f : α → β} (h : StableSort key xs ys) (key' : β → κ)
    (hkey : ∀ x ∈ xs, key' (f x) = key x) : StableSort key' (xs.map f) (ys.map f) := by
  have hkey' : ∀ y ∈ ys, key' (f y) = key y := fun y hy => hkey y (h.perm.mem_iff.mp hy)
  refine ⟨h.perm.map f, ?_, fun k => ?_⟩
  · rw [List.pairwise_map]
    refine h.sorted.imp_of_mem fun hx hy hle => ?_
    rwa [hkey' _ hx, hkey' _ hy]
  · have hfilter : ∀ zs : List α, (∀ z ∈ zs, key' (f z) = key z) →
        (zs.map f).filter (fun b => key' b = k) = (zs.filter fun a => key a = k).map f := by
      intro zs hzs
      rw [List.filter_map]
      congr 1
      refine List.filter_congr fun z hz => ?_
      simp [hzs z hz]
    rw [hfilter _ hkey', hfilter _ hkey, h.stable]

end OperatingSystems.Lib.Sorting
