import Mathlib.Tactic

/-! # Circular sorted lists

A finite set of a linear order, with a pointer from each element to the following one and from the largest to the
smallest. `Circular F next` says so of the pointers alone, without an order of visits.

* `Circular.insert`, `Circular.erase`: the two changes of such a list, each of one pointer in the set.
* `Circular.exists_between`: every place is between an element and its successor.
* `Circular.walk`: whoever follows the pointers comes to any element.
* `Circular.tour`: whoever starts behind `t` has seen all the others on coming to `t`. -/

namespace OperatingSystems.Lib.Circle

variable {α : Type*} [LinearOrder α] {F : Finset α} {next next' : α → α} {a b c t x : α}

/-- `x` is on the way from `a` to `b`, which leads over the end of the order if `b ≤ a`. -/
def Between (a b x : α) : Prop := a < x ∧ x < b ∨ b ≤ a ∧ (a < x ∨ x < b)

instance : Decidable (Between a b x) := inferInstanceAs (Decidable (_ ∨ _))

/-- The pointers go around the set. -/
def Circular (F : Finset α) (next : α → α) : Prop := ∀ a ∈ F, next a ∈ F ∧ ∀ c ∈ F, ¬ Between a (next a) c

theorem not_between_left : ¬ Between a b a := by
  unfold Between
  grind

theorem not_between_right : ¬ Between a b b := by
  unfold Between
  grind

/-- The way is cut in two. -/
theorem Between.split (hx : Between a b x) : Between a b c ↔ Between a x c ∨ c = x ∨ Between x b c := by
  unfold Between at *
  grind

theorem Between.right (hx : Between a b x) : Between a x c → ¬ Between x b c := by
  unfold Between at *
  grind

namespace Circular

theorem next_mem (h : Circular F next) (ha : a ∈ F) : next a ∈ F := (h a ha).1

theorem not_mem (h : Circular F next) (ha : a ∈ F) (hx : Between a (next a) x) : x ∉ F := fun hxF => (h a ha).2 x hxF hx

theorem singleton (h : next a = a) : Circular {a} next := by
  intro b hb
  obtain rfl := Finset.mem_singleton.mp hb
  rw [h]
  refine ⟨hb, fun c hc => ?_⟩
  rw [Finset.mem_singleton.mp hc]
  exact not_between_left

/-- **A new element** between one and the next. -/
theorem insert (h : Circular F next) (ha : a ∈ F) (hx : Between a (next a) x) (h1 : next' a = x) (h2 : next' x = next a)
    (hrest : ∀ b ∈ F, b ≠ a → next' b = next b) : Circular (Insert.insert x F) next' := by
  have hno := (h a ha).2
  intro b hb
  obtain rfl | hbF := Finset.mem_insert.mp hb
  · rw [h2]
    refine ⟨Finset.mem_insert_of_mem (h.next_mem ha), Finset.forall_mem_insert _ _ _ |>.mpr ⟨not_between_left, ?_⟩⟩
    exact fun c hc hbtw => hno c hc (hx.split.mpr (.inr (.inr hbtw)))
  by_cases hba : b = a
  · subst hba
    rw [h1]
    refine ⟨Finset.mem_insert_self _ _, Finset.forall_mem_insert _ _ _ |>.mpr ⟨not_between_right, ?_⟩⟩
    exact fun c hc hbtw => hno c hc (hx.split.mpr (.inl hbtw))
  · rw [hrest b hbF hba]
    refine ⟨Finset.mem_insert_of_mem (h.next_mem hbF),
      Finset.forall_mem_insert _ _ _ |>.mpr ⟨fun hbtw => ?_, (h b hbF).2⟩⟩
    have hb' := hno b hbF
    have ha' := (h b hbF).2 a ha
    have hn' := (h b hbF).2 _ (h.next_mem ha)
    have hn'' := hno _ (h.next_mem hbF)
    unfold Between at *
    grind

/-- **The next element is taken out.** -/
theorem erase (h : Circular F next) (ha : a ∈ F) (hne : next a ≠ a) (h1 : next' a = next (next a))
    (hrest : ∀ b ∈ F, b ≠ a → b ≠ next a → next' b = next b) : Circular (F.erase (next a)) next' := by
  have hmem := h.next_mem ha
  intro b hb
  obtain ⟨hbn, hbF⟩ := Finset.mem_erase.mp hb
  have ha' := (h a ha).2
  have hn' := (h _ hmem).2
  by_cases hba : b = a
  · subst hba
    rw [h1]
    refine ⟨Finset.mem_erase.mpr ⟨fun heq => ?_, h.next_mem hmem⟩, fun c hc hbtw => ?_⟩
    · have := hn' b ha
      unfold Between at *
      grind
    · obtain ⟨hcn, hcF⟩ := Finset.mem_erase.mp hc
      have hc1 := ha' c hcF
      have hc2 := hn' c hcF
      unfold Between at *
      grind
  · rw [hrest b hbF hba hbn]
    refine ⟨Finset.mem_erase.mpr ⟨fun heq => ?_, h.next_mem hbF⟩, fun c hc =>
      (h b hbF).2 c (Finset.mem_of_mem_erase hc)⟩
    have h1 := (h b hbF).2 a ha
    have h2 := ha' b hbF
    rw [heq] at h1
    unfold Between at *
    grind

/-- Every other place is in some gap. -/
theorem exists_between (h : Circular F next) (hne : F.Nonempty) (hx : x ∉ F) : ∃ a ∈ F, Between a (next a) x := by
  by_cases hlow : ∃ a ∈ F, a < x
  · -- the largest element below `x`
    obtain ⟨a, ha, hmax⟩ := (F.filter (· < x)).exists_max_image id
      (hlow.imp fun a ha => Finset.mem_filter.mpr ha)
    rw [Finset.mem_filter] at ha
    refine ⟨a, ha.1, ?_⟩
    have hnext := h.next_mem ha.1
    have hmax' := fun c hc hcx => hmax c (Finset.mem_filter.mpr ⟨hc, hcx⟩)
    have := hmax' _ hnext
    have hxn : next a ≠ x := fun heq => hx (heq ▸ hnext)
    unfold Between
    grind
  · -- the largest element of all
    obtain ⟨a, ha, hmax⟩ := F.exists_max_image id hne
    refine ⟨a, ha, .inr ⟨hmax _ (h.next_mem ha), .inr ?_⟩⟩
    have hnext := h.next_mem ha
    exact lt_of_le_of_ne (not_lt.mp fun hlt => hlow ⟨_, hnext, hlt⟩) fun heq => hx (heq ▸ hnext)

/-! ### Following the pointers -/

/-- What is still to come on the way to `t`. -/
def ahead (F : Finset α) (t a : α) : Finset α := F.filter fun c => ¬ Between t a c

/-- A step passes the element it starts from, and no other. -/
theorem between_next (h : Circular F next) (ht : t ∈ F) (ha : a ∈ F) (hne : a ≠ t) (hc : c ∈ F) :
    Between t (next a) c ↔ Between t a c ∨ c = a := by
  have hc' := (h a ha).2 c hc
  have ht' := (h a ha).2 t ht
  unfold Between at *
  grind

theorem ahead_next (h : Circular F next) (ht : t ∈ F) (ha : a ∈ F) (hne : a ≠ t) :
    (ahead F t (next a)).card < (ahead F t a).card := by
  refine Finset.card_lt_card (Finset.ssubset_iff_of_subset (fun c hc => ?_) |>.mpr ⟨a, ?_, fun hmem => ?_⟩)
  · rw [ahead, Finset.mem_filter] at hc ⊢
    exact ⟨hc.1, fun hbtw => hc.2 ((h.between_next ht ha hne hc.1).mpr (.inl hbtw))⟩
  · exact Finset.mem_filter.mpr ⟨ha, not_between_right⟩
  · exact (Finset.mem_filter.mp hmem).2 ((h.between_next ht ha hne ha).mpr (.inr rfl))

/-- **Whoever follows the pointers comes to `t`.** -/
theorem walk (h : Circular F next) (ht : t ∈ F) {motive : α → Prop} (here : motive t)
    (step : ∀ a ∈ F, a ≠ t → motive (next a) → motive a) (ha : a ∈ F) : motive a := by
  induction hn : (ahead F t a).card using Nat.strong_induction_on generalizing a with
  | _ n ih =>
    by_cases hne : a = t
    · exact hne ▸ here
    · exact step a ha hne (ih _ (hn ▸ h.ahead_next ht ha hne) (h.next_mem ha) rfl)

/-- **Whoever starts behind `t`** and stops at the first element that is not bad has seen all of them when it comes
to `t`. -/
theorem tour (h : Circular F next) (ht : t ∈ F) (bad : α → Prop) {motive : α → Prop}
    (found : ∀ a ∈ F, ¬ bad a → motive a) (step : ∀ a ∈ F, a ≠ t → bad a → motive (next a) → motive a)
    (last : (∀ a ∈ F, bad a) → motive t) :
    motive (next t) := by
  have hrest : ∀ a ∈ F, (∀ c ∈ F, Between t a c → bad c) → motive a := by
    intro a ha
    refine h.walk ht (motive := fun a => (∀ c ∈ F, Between t a c → bad c) → motive a) (fun hseen => ?_)
      (fun a ha hne ih hseen => ?_) ha
    · by_cases hbad : bad t
      · refine last fun c hc => ?_
        by_cases hct : c = t
        · exact hct ▸ hbad
        · exact hseen c hc (.inr ⟨le_rfl, (lt_or_gt_of_ne hct).symm⟩)
      · exact found t ht hbad
    · by_cases hbad : bad a
      · refine step a ha hne hbad (ih fun c hc hbtw => ?_)
        obtain hbtw | rfl := (h.between_next ht ha hne hc).mp hbtw
        · exact hseen c hc hbtw
        · exact hbad
      · exact found a ha hbad
  exact hrest _ (h.next_mem ht) fun c hc hbtw => absurd hbtw ((h t ht).2 c hc)

end Circular

end OperatingSystems.Lib.Circle
