import Mathlib.Algebra.Order.Ring.Int
import Mathlib.Data.Fin.Basic

/-!
# Machinery/Cyclic — looking around a ring, from behind the last place

`scan` looks at the places of a ring in order, from the one behind `start` round to `start` itself,
and `gap` is how many it passes over on the way to a place.  Once `start` has moved to what was
found, everything else that was looked for is nearer than before (`gap_lt_of_scan`).
-/

namespace MiniProject

variable {n : ℕ} {start p q : Fin n} {P : Fin n → Bool}

/-- `(start + i) % n`. -/
def after (start : Fin n) (i : ℕ) : Fin n :=
  ⟨(start + i) % n, Nat.mod_lt _ (Nat.zero_lt_of_lt start.isLt)⟩

/-- The number of places between `start` and `p`. -/
def gap (start p : Fin n) : ℕ :=
  if start.val < p.val then p.val - start.val - 1 else p.val + n - start.val - 1

/-- The first place behind `start` with `P`, in the order of the ring. -/
def scan (start : Fin n) (P : Fin n → Bool) : Option (Fin n) :=
  ((List.range n).map fun i => after start (i + 1)).find? P

theorem gap_lt (start p : Fin n) : gap start p < n := by
  rw [gap]
  split <;> omega

/-- Going as far as the gap, and one step, leads to the place. -/
theorem after_gap (start p : Fin n) : after start (gap start p + 1) = p := by
  ext
  rw [after, gap]
  dsimp only
  split
  · rw [Nat.mod_eq_of_lt (by omega)]
    omega
  · have hsum : start.val + (p.val + n - start.val - 1 + 1) = p.val + n := by omega
    rw [hsum, Nat.add_mod_right, Nat.mod_eq_of_lt p.isLt]

theorem gap_after {i : ℕ} (hi : i < n) : gap start (after start (i + 1)) = i := by
  have hval : (after start (i + 1)).val = (start.val + (i + 1)) % n := rfl
  rw [gap]
  by_cases hlt : start.val + (i + 1) < n
  · rw [Nat.mod_eq_of_lt hlt] at hval
    split <;> omega
  · rw [Nat.mod_eq_sub_mod (Nat.le_of_not_lt hlt), Nat.mod_eq_of_lt (by omega)] at hval
    split <;> omega

/-- **A scan finds the nearest place.** -/
theorem scan_eq_some :
    scan start P = some p ↔ P p = true ∧ ∀ q, gap start q < gap start p → P q = false := by
  rw [scan, List.find?_map, Option.map_eq_some_iff]
  simp only [List.find?_range_eq_some, List.mem_range, Function.comp_apply, Bool.not_eq_true']
  constructor
  · rintro ⟨i, ⟨hP, hi, hfirst⟩, rfl⟩
    refine ⟨hP, fun q hq => ?_⟩
    rw [gap_after hi] at hq
    exact after_gap start q ▸ hfirst _ hq
  · rintro ⟨hP, hfirst⟩
    refine ⟨gap start p, ⟨?_, gap_lt start p, fun j hj => ?_⟩, after_gap start p⟩
    · rw [after_gap]
      exact hP
    · refine hfirst _ ?_
      rw [gap_after (Nat.lt_trans hj (gap_lt start p))]
      exact hj

theorem scan_eq_none : scan start P = none ↔ ∀ p, P p = false := by
  rw [scan, List.find?_map, Option.map_eq_none_iff, List.find?_range_eq_none]
  constructor
  · intro h p
    have hp := h _ (gap_lt start p)
    rw [Function.comp_apply, after_gap] at hp
    simpa using hp
  · intro h i _
    simp [h]

/-- Gaps add up along the ring. -/
theorem gap_of_lt (h : gap start q < gap start p) : gap start q + gap q p + 1 = gap start p := by
  simp only [gap] at h ⊢
  split_ifs at h ⊢ <;> omega

/-- Of two places behind `q`, the nearer one stays the nearer when `q` is reached. -/
theorem gap_lt_gap_iff {p' : Fin n} (hp : gap start q < gap start p)
    (hp' : gap start q < gap start p') : gap q p < gap q p' ↔ gap start p < gap start p' := by
  have hadd := gap_of_lt hp
  have hadd' := gap_of_lt hp'
  omega

/-- **What is found is nearest.** -/
theorem gap_lt_of_scan_of_ne (h : scan start P = some q) (hp : P p = true) (hne : q ≠ p) :
    gap start q < gap start p := by
  obtain ⟨-, hfirst⟩ := scan_eq_some.mp h
  have hle : ¬ gap start p < gap start q := fun hlt => by
    rw [hfirst p hlt] at hp
    cases hp
  have hneq : gap start q ≠ gap start p := fun heq => by
    refine hne ?_
    rw [← after_gap start q, heq, after_gap]
  omega

/-- **Whatever else was looked for is nearer afterwards.** -/
theorem gap_lt_of_scan (h : scan start P = some q) (hp : P p = true) (hne : q ≠ p) :
    gap q p < gap start p := by
  have hadd : gap start q + gap q p + 1 = gap start p := gap_of_lt (gap_lt_of_scan_of_ne h hp hne)
  omega

end MiniProject
