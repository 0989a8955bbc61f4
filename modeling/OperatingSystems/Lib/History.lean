import Mathlib.Tactic

/-! # Histories

A history is the list of the events of a run, oldest first. It is `Justified` if every event in it
stands in a given relation to the events before it. Extending a history by one event then asks for the
justification of that event alone (`justified_snoc`), and a kind of event of which none may precede
another occurs at most once (`countP_le_one`). -/

namespace OperatingSystems.Lib.History

variable {ε : Type*}

/-- Every event is justified by the events before it. -/
def Justified (J : List ε → ε → Prop) (h : List ε) : Prop :=
  ∀ pre e post, h = pre ++ e :: post → J pre e

/-- `a` occurs, and later `b`. -/
def Before (h : List ε) (a b : ε) : Prop := ∃ p q r, h = p ++ a :: q ++ b :: r

variable {J : List ε → ε → Prop}

theorem justified_nil : Justified J [] := fun _ _ _ h => by simp at h

theorem justified_snoc {h : List ε} {e : ε} : Justified J (h ++ [e]) ↔ Justified J h ∧ J h e := by
  constructor
  · intro hj
    refine ⟨fun pre a post heq => hj pre a (post ++ [e]) (by simp [heq]), hj h e [] rfl⟩
  · rintro ⟨hj, he⟩ pre a post heq
    rcases List.eq_nil_or_concat post with rfl | ⟨post', b, rfl⟩
    · obtain ⟨h1, h2⟩ := List.append_inj' heq rfl
      cases h2
      exact h1 ▸ he
    · have heq' : h ++ [e] = (pre ++ a :: post') ++ [b] := by rw [heq]; simp
      exact hj pre a post' (List.append_inj' heq' rfl).1

theorem Justified.of_append {h h' : List ε} (hj : Justified J (h ++ h')) : Justified J h :=
  fun pre e post heq => hj pre e (post ++ h') (by simp [heq])

theorem Justified.mono {J' : List ε → ε → Prop} {h : List ε} (hj : Justified J h)
    (himp : ∀ pre e, J pre e → J' pre e) : Justified J' h :=
  fun pre e post heq => himp _ _ (hj pre e post heq)

/-- An event of the history has its justification in an earlier part of it. -/
theorem Justified.of_mem {h : List ε} (hj : Justified J h) {e : ε} (he : e ∈ h) :
    ∃ pre post, h = pre ++ e :: post ∧ J pre e := by
  obtain ⟨pre, post, rfl⟩ := List.append_of_mem he
  exact ⟨pre, post, rfl, hj pre e post rfl⟩

theorem before_of_mem {pre post : List ε} {a b : ε} (h : a ∈ pre) :
    Before (pre ++ b :: post) a b := by
  obtain ⟨p, q, rfl⟩ := List.append_of_mem h
  exact ⟨p, q, post, rfl⟩

/-- **At most once**: no event of a kind has one of that kind before it. -/
theorem countP_le_one {p : ε → Bool} :
    ∀ {h : List ε}, Justified (fun pre e => p e → ∀ a ∈ pre, ¬ p a) h → h.countP p ≤ 1 := by
  intro h
  induction h using List.reverseRecOn with
  | nil => simp
  | append_singleton h e ih =>
    intro hj
    obtain ⟨hj, he⟩ := justified_snoc.mp hj
    have := ih hj
    rw [List.countP_append, List.countP_singleton]
    split_ifs with hp
    · have h0 : h.countP p = 0 := List.countP_eq_zero.mpr (he hp)
      omega
    · omega

end OperatingSystems.Lib.History
