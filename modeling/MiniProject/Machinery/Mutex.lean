import Mathlib.Data.Option.Basic

/-!
# Machinery/Mutex — one lock, and who is inside

The parties that are between `acquire` and `release` of a lock are exactly its holder, of whom there
is one or none.
-/

namespace MiniProject

universe u

variable {A : Type u} {inside inside' : A → Prop} {holder holder' : Option A} {a b : A}

/-- Who is inside holds the lock. -/
def Guarded (inside : A → Prop) (holder : Option A) : Prop := ∀ a, inside a ↔ holder = some a

/-- **Mutual exclusion.** -/
theorem Guarded.eq (h : Guarded inside holder) (ha : inside a) (hb : inside b) : a = b :=
  Option.some.inj (((h a).mp ha).symm.trans ((h b).mp hb))

/-- Nobody is inside while the lock is free. -/
theorem Guarded.not_inside (h : Guarded inside none) : ¬ inside a := fun ha => nomatch (h a).mp ha

theorem Guarded.acquire (h : Guarded inside none) (ha : inside' a)
    (hothers : ∀ b, b ≠ a → (inside' b ↔ inside b)) : Guarded inside' (some a) := by
  intro b
  by_cases hb : b = a
  · rw [hb]
    exact iff_of_true ha rfl
  · rw [hothers b hb]
    exact iff_of_false h.not_inside fun heq => hb (Option.some.inj heq).symm

theorem Guarded.release (h : Guarded inside holder) (ha : inside a) (ha' : ¬ inside' a)
    (hothers : ∀ b, b ≠ a → (inside' b ↔ inside b)) : Guarded inside' none := by
  intro b
  refine iff_of_false (fun hb' => ?_) nofun
  by_cases hb : b = a
  · rw [hb] at hb'
    exact ha' hb'
  · exact hb (h.eq ((hothers b hb).mp hb') ha)

/-- A step inside, or outside. -/
theorem Guarded.keep (h : Guarded inside holder) (hall : ∀ b, inside' b ↔ inside b) :
    Guarded inside' holder := fun b => (hall b).trans (h b)

/-- **A step of one party**, to a lock that nobody else has. -/
theorem Guarded.move (h : Guarded inside holder) (hothers : ∀ b, b ≠ a → (inside' b ↔ inside b))
    (hin : inside' a → holder' = some a ∧ ∀ b, b ≠ a → ¬ inside b)
    (hout : ¬ inside' a → inside a → holder' = none)
    (hkeep : ¬ inside' a → ¬ inside a → holder' = holder) : Guarded inside' holder' := by
  by_cases hnew : inside' a
  · obtain ⟨hholder, hfree⟩ := hin hnew
    intro b
    rw [hholder]
    by_cases hb : b = a
    · rw [hb]
      exact iff_of_true hnew rfl
    · rw [hothers b hb]
      exact iff_of_false (hfree b hb) fun heq => hb (Option.some.inj heq).symm
  · by_cases hold : inside a
    · rw [hout hnew hold]
      exact h.release hold hnew hothers
    · rw [hkeep hnew hold]
      refine h.keep fun b => ?_
      by_cases hb : b = a
      · rw [hb]
        exact iff_of_false hnew hold
      · exact hothers b hb

end MiniProject
