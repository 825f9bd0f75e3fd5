import Mathlib.Algebra.Order.Ring.Int
import Mathlib.Data.Int.Notation
import Mathlib.Data.List.Basic

/-!
# Machinery/Qsort — sorting by the sign of a comparison

`qsort` knows an order only through the signs a comparison returns.  If these are the signs of one
order of the elements (`Consistent`), what it leaves is in that order; of any other comparison
nothing is promised.  So a property of what `qsort` leaves has to hold for every function that
`Sorts`.
-/

namespace MiniProject

universe u

variable {α : Type u} {cmp : α → α → ℤ} {l : List α}

/-- The signs of `cmp` are those of one order of the elements of `l`. -/
structure Consistent (cmp : α → α → ℤ) (l : List α) : Prop where
  swap : ∀ a ∈ l, ∀ b ∈ l, (cmp a b < 0 ↔ 0 < cmp b a)
  trans : ∀ a ∈ l, ∀ b ∈ l, ∀ c ∈ l, cmp a b ≤ 0 → cmp b c ≤ 0 → cmp a c ≤ 0

/-- What is promised of `qsort`. -/
def Sorts (qsort : (α → α → ℤ) → List α → List α) : Prop :=
  ∀ cmp l, Consistent cmp l →
    (qsort cmp l).Perm l ∧ (qsort cmp l).Pairwise fun a b => cmp a b ≤ 0

/-- **Where no two elements compare equal, what is left is strictly in order.** -/
theorem Sorts.pairwise {qsort : (α → α → ℤ) → List α → List α} (hsorts : Sorts qsort)
    (h : Consistent cmp l) (hnodup : l.Nodup)
    (hne : ∀ a ∈ l, ∀ b ∈ l, a ≠ b → cmp a b ≠ 0) :
    (qsort cmp l).Pairwise fun a b => cmp a b < 0 := by
  obtain ⟨hperm, hle⟩ := hsorts cmp l h
  have hdistinct : (qsort cmp l).Pairwise (· ≠ ·) := hperm.nodup_iff.mpr hnodup
  refine (hle.and hdistinct).imp_of_mem fun {a b} ha hb hab => ?_
  have hne' := hne a (hperm.subset ha) b (hperm.subset hb) hab.2
  omega

/-- …and there is no other such order of the elements. -/
theorem Sorts.eq_of_pairwise {qsort : (α → α → ℤ) → List α → List α} (hsorts : Sorts qsort)
    (h : Consistent cmp l) (hne : ∀ a ∈ l, ∀ b ∈ l, a ≠ b → cmp a b ≠ 0) {l' : List α}
    (hperm : l'.Perm l) (hle : l'.Pairwise fun a b => cmp a b ≤ 0) : qsort cmp l = l' := by
  obtain ⟨hperm', hle'⟩ := hsorts cmp l h
  refine (hperm'.trans hperm.symm).eq_of_pairwise (fun a b ha hb hab hba => ?_) hle' hle
  by_contra hab'
  have hzero := hne a (hperm'.subset ha) b (hperm.subset hb) hab'
  have hswap := h.swap a (hperm'.subset ha) b (hperm.subset hb)
  omega

/-- A merge sort. -/
def mergeQsort (cmp : α → α → ℤ) (l : List α) : List α :=
  (l.attach.mergeSort fun a b => cmp a b ≤ 0).map Subtype.val

/-- It keeps the promise. -/
theorem sorts_mergeQsort : Sorts (mergeQsort (α := α)) := by
  intro cmp l h
  have hle : (l.attach.mergeSort fun a b => cmp a b ≤ 0).Pairwise
      fun a b : { x // x ∈ l } => decide (cmp a b ≤ 0) = true := by
    refine List.pairwise_mergeSort (fun a b c hab hbc => ?_) (fun a b => ?_) _
    · exact decide_eq_true (h.trans a a.2 b b.2 c c.2 (of_decide_eq_true hab)
        (of_decide_eq_true hbc))
    · have hswap := h.swap b b.2 a a.2
      rw [Bool.or_eq_true, decide_eq_true_eq, decide_eq_true_eq]
      omega
  constructor
  · have hperm := (List.mergeSort_perm l.attach fun a b => cmp a b ≤ 0).map Subtype.val
    rwa [List.attach_map_subtype_val] at hperm
  · exact List.pairwise_map.mpr (hle.imp fun hab => of_decide_eq_true hab)

end MiniProject
