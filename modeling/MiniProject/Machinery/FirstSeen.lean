import Mathlib.Data.List.Induction
import Mathlib.Data.List.Nodup

/-!
# Machinery/FirstSeen — first occurrences, by a table of what has been seen

A loop that skips what it has seen keeps the first occurrences of a list, in order.  If its table
has only `n` places, what comes when they are taken is not written down and is kept whenever it
occurs (`firstSeen`).  That makes no difference exactly if nothing past the `n`-th first occurrence
occurs twice (`firstSeen_eq_iff`).
-/

namespace MiniProject

universe u

variable {α : Type u} [BEq α] [LawfulBEq α] {l seen : List α} {a b : α} {n : ℕ}

/-! ## First occurrences -/

theorem eraseDups_concat_of_mem (h : a ∈ l) : (l ++ [a]).eraseDups = l.eraseDups := by
  rw [List.eraseDups_append]
  simp [List.removeAll, h]

theorem eraseDups_concat_of_notMem (h : a ∉ l) : (l ++ [a]).eraseDups = l.eraseDups ++ [a] := by
  rw [List.eraseDups_append]
  simp [List.removeAll, h, List.eraseDups_cons]

theorem nodup_eraseDups (l : List α) : l.eraseDups.Nodup := by
  induction l using List.reverseRecOn with
  | nil => exact List.nodup_nil
  | append_singleton l a ih =>
    by_cases h : a ∈ l
    · rwa [eraseDups_concat_of_mem h]
    · rw [eraseDups_concat_of_notMem h]
      have hnew : a ∉ l.eraseDups := mt List.mem_eraseDups.mp h
      refine List.nodup_append.mpr ⟨ih, List.nodup_singleton a, fun b hb c hc heq => hnew ?_⟩
      rwa [← List.mem_singleton.mp hc, ← heq]

/-- What is full of first occurrences stays as it is. -/
theorem take_eraseDups_concat (h : n ≤ l.eraseDups.length) :
    (l ++ [a]).eraseDups.take n = l.eraseDups.take n := by
  by_cases ha : a ∈ l
  · rw [eraseDups_concat_of_mem ha]
  · rw [eraseDups_concat_of_notMem ha, List.take_append_of_le_length h]

/-! ## What is new -/

/-- The first occurrences of what is not in `seen`. -/
def newOnes (seen l : List α) : List α := (l.filter (· ∉ seen)).eraseDups

@[simp] theorem newOnes_nil (seen : List α) : newOnes seen [] = [] := rfl

theorem newOnes_nil_left (l : List α) : newOnes [] l = l.eraseDups := by simp [newOnes]

theorem mem_newOnes : a ∈ newOnes seen l ↔ a ∈ l ∧ a ∉ seen := by
  rw [newOnes, List.mem_eraseDups, List.mem_filter, decide_eq_true_eq]

theorem newOnes_cons_of_mem (h : a ∈ seen) : newOnes seen (a :: l) = newOnes seen l := by
  rw [newOnes, List.filter_cons_of_neg (by simpa using h), newOnes]

theorem newOnes_cons_of_notMem (h : a ∉ seen) :
    newOnes seen (a :: l) = a :: newOnes (seen ++ [a]) l := by
  rw [newOnes, List.filter_cons_of_pos (by simpa using h), List.eraseDups_cons,
    List.filter_filter, newOnes]
  refine congrArg (a :: ·.eraseDups) (List.filter_congr fun b _ => ?_)
  rw [Bool.eq_iff_iff]
  simp [and_comm]

/-- What has been seen, or does not occur, need not be noted. -/
theorem newOnes_append_of_mem (h : a ∈ seen ∨ a ∉ l) :
    newOnes (seen ++ [a]) l = newOnes seen l := by
  rw [newOnes, newOnes]
  refine congrArg List.eraseDups (List.filter_congr fun b hb => ?_)
  have hab : b = a → b ∈ seen := by
    rintro rfl
    exact h.resolve_right fun h => h hb
  by_cases hb' : b ∈ seen
  · simp [hb']
  · simp [hb', mt hab hb']

/-- **What comes first among the new ones** is the first element that is not in `seen`. -/
theorem cons_eq_newOnes_iff {l' : List α} :
    a :: l' = newOnes seen l ↔ l.find? (· ∉ seen) = some a ∧ l' = newOnes (seen ++ [a]) l := by
  induction l with
  | nil => simp
  | cons b l ih =>
    by_cases hb : b ∈ seen
    · rw [newOnes_cons_of_mem hb, newOnes_cons_of_mem (List.mem_append_left _ hb),
        List.find?_cons_of_neg (by simpa using hb), ih]
    · rw [newOnes_cons_of_notMem hb, List.find?_cons_of_pos (by simpa using hb), List.cons_eq_cons,
        Option.some_inj, eq_comm (a := a)]
      refine and_congr_right fun heq => ?_
      rw [heq, newOnes_cons_of_mem (List.mem_append_right _ (List.mem_singleton_self a))]

/-! ## A table with `n` places -/

/-- What the loop keeps of a list, with `seen` in its table. -/
def firstSeen (n : ℕ) : List α → List α → List α
  | _, [] => []
  | seen, a :: l =>
    if a ∈ seen then firstSeen n seen l
    else a :: firstSeen n (if seen.length < n then seen ++ [a] else seen) l

theorem firstSeen_cons_of_mem (h : a ∈ seen) : firstSeen n seen (a :: l) = firstSeen n seen l :=
  if_pos h

theorem firstSeen_cons_of_lt (h : a ∉ seen) (hlt : seen.length < n) :
    firstSeen n seen (a :: l) = a :: firstSeen n (seen ++ [a]) l := by
  rw [firstSeen, if_neg h, if_pos hlt]

theorem firstSeen_cons_of_le (h : a ∉ seen) (hle : n ≤ seen.length) :
    firstSeen n seen (a :: l) = a :: firstSeen n seen l := by
  rw [firstSeen, if_neg h, if_neg (Nat.not_lt.mpr hle)]

theorem mem_firstSeen : b ∈ firstSeen n seen l ↔ b ∈ l ∧ b ∉ seen := by
  induction l generalizing seen with
  | nil => simp [firstSeen]
  | cons a l ih =>
    by_cases ha : a ∈ seen
    · rw [firstSeen_cons_of_mem ha, ih, List.mem_cons]
      exact ⟨fun h => ⟨.inr h.1, h.2⟩, fun h => ⟨h.1.resolve_left fun heq => h.2 (heq ▸ ha), h.2⟩⟩
    by_cases hlt : seen.length < n
    · rw [firstSeen_cons_of_lt ha hlt, List.mem_cons, ih, List.mem_cons]
      by_cases hb : b = a
      · simp [hb, ha]
      · simp [hb]
    · rw [firstSeen_cons_of_le ha (Nat.le_of_not_lt hlt), List.mem_cons, ih, List.mem_cons]
      by_cases hb : b = a
      · simp [hb, ha]
      · simp [hb]

/-- If nothing is kept twice, the first occurrences are kept. -/
theorem firstSeen_eq_of_nodup (h : (firstSeen n seen l).Nodup) :
    firstSeen n seen l = newOnes seen l := by
  induction l generalizing seen with
  | nil => rfl
  | cons a l ih =>
    by_cases ha : a ∈ seen
    · rw [firstSeen_cons_of_mem ha] at h ⊢
      rw [ih h, newOnes_cons_of_mem ha]
    rw [newOnes_cons_of_notMem ha]
    by_cases hlt : seen.length < n
    · rw [firstSeen_cons_of_lt ha hlt] at h ⊢
      rw [ih (List.nodup_cons.mp h).2]
    · rw [firstSeen_cons_of_le ha (Nat.le_of_not_lt hlt)] at h ⊢
      obtain ⟨hnew, h⟩ := List.nodup_cons.mp h
      have hal : a ∉ l := fun hal => hnew (mem_firstSeen.mpr ⟨hal, ha⟩)
      rw [ih h, newOnes_append_of_mem (.inr hal)]

/-- **The table makes no difference exactly if nothing occurs twice that it had no place for.** -/
theorem firstSeen_eq_iff :
    firstSeen n seen l = newOnes seen l ↔
      ∀ b ∈ (newOnes seen l).drop (n - seen.length), l.count b = 1 := by
  induction l generalizing seen with
  | nil => simp [firstSeen]
  | cons a l ih =>
    have hcount : ∀ {b}, b ≠ a → (a :: l).count b = l.count b := fun hb =>
      List.count_cons_of_ne hb.symm
    by_cases ha : a ∈ seen
    · rw [firstSeen_cons_of_mem ha, newOnes_cons_of_mem ha, ih]
      refine forall₂_congr fun b hb => ?_
      have hne : b ≠ a := fun heq => (mem_newOnes.mp (List.mem_of_mem_drop hb)).2 (heq.symm ▸ ha)
      rw [hcount hne]
    rw [newOnes_cons_of_notMem ha]
    by_cases hlt : seen.length < n
    · have hdrop : n - seen.length = n - (seen ++ [a]).length + 1 := by
        rw [List.length_append, List.length_singleton]
        omega
      rw [firstSeen_cons_of_lt ha hlt, List.cons_inj_right, ih, hdrop, List.drop_succ_cons]
      refine forall₂_congr fun b hb => ?_
      have hnew := (mem_newOnes.mp (List.mem_of_mem_drop hb)).2
      rw [hcount fun heq => hnew (by simp [heq])]
    · have hzero : n - seen.length = 0 := by omega
      rw [firstSeen_cons_of_le ha (Nat.le_of_not_lt hlt), List.cons_inj_right, hzero,
        List.drop_zero, List.forall_mem_cons, List.count_cons_self, Nat.add_eq_right,
        List.count_eq_zero]
      by_cases hal : a ∈ l
      · refine iff_of_false (fun heq => ?_) fun h => h.1 hal
        have hmem : a ∈ newOnes (seen ++ [a]) l := heq ▸ mem_firstSeen.mpr ⟨hal, ha⟩
        exact (mem_newOnes.mp hmem).2 (List.mem_append_right _ (List.mem_singleton_self a))
      · rw [newOnes_append_of_mem (.inr hal), ih, hzero, List.drop_zero]
        refine ⟨fun h => ⟨hal, fun b hb => ?_⟩, fun h b hb => ?_⟩
        · rw [hcount fun heq => hal (heq ▸ (mem_newOnes.mp hb).1)]
          exact h b hb
        · rw [← hcount fun heq => hal (heq ▸ (mem_newOnes.mp hb).1)]
          exact h.2 b hb

end MiniProject
