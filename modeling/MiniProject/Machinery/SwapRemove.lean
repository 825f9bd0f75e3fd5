import Mathlib.Data.List.Perm.Basic

/-!
# Machinery/SwapRemove — taking an element out of an array by moving the last one there

The order of what is left changes, and nothing else (`swapErase_perm`): where an element is known by
its key, all the others are left (`swapErase_perm_filter`).
-/

namespace MiniProject

universe u v

variable {α : Type u} {β : Type v}

/-- The last element is written over the one at `i`, and the length goes down by one. -/
def swapRemove (l : List α) (i : ℕ) : List α :=
  match l.getLast? with
  | none => []
  | some x => (l.set i x).dropLast

/-- The first element that meets `p` is taken out. -/
def swapErase (p : α → Bool) (l : List α) : List α :=
  match l.findIdx? p with
  | none => l
  | some i => swapRemove l i

/-- **All elements but the one at `i` are left**, in some order. -/
theorem swapRemove_perm {l : List α} {i : ℕ} (h : i < l.length) :
    (swapRemove l i).Perm (l.eraseIdx i) := by
  obtain rfl | ⟨init, x, rfl⟩ := List.eq_nil_or_concat' l
  · exact absurd h (Nat.not_lt_zero i)
  · rw [List.length_append, List.length_singleton] at h
    rw [swapRemove, List.getLast?_concat]
    by_cases hi : i < init.length
    · dsimp only
      rw [List.set_append_left _ _ hi, List.dropLast_concat,
        List.eraseIdx_append_of_lt_length hi]
      exact (List.set_perm_cons_eraseIdx hi x).trans (List.perm_append_singleton _ _).symm
    · obtain rfl : i = init.length := by omega
      dsimp only
      rw [List.set_append_right _ _ (Nat.le_refl _),
        List.eraseIdx_append_of_length_le (Nat.le_refl _), Nat.sub_self, List.set_cons_zero,
        List.dropLast_concat, List.eraseIdx_cons_zero, List.append_nil]

/-- **All elements but the first that meets `p` are left**, in some order. -/
theorem swapErase_perm (p : α → Bool) (l : List α) : (swapErase p l).Perm (l.eraseP p) := by
  rw [swapErase, List.eraseP_eq_eraseIdx]
  cases h : l.findIdx? p with
  | none => exact List.Perm.refl l
  | some i => exact swapRemove_perm (List.findIdx?_eq_some_iff_getElem.mp h).1

theorem length_swapErase_le (p : α → Bool) (l : List α) : (swapErase p l).length ≤ l.length := by
  rw [(swapErase_perm p l).length_eq]
  exact List.length_eraseP_le

/-- Erasing by a key erases the key. -/
theorem map_swapErase_perm [DecidableEq β] (f : α → β) (b : β) (l : List α) :
    ((swapErase (fun a => f a = b) l).map f).Perm ((l.map f).erase b) := by
  rw [List.erase_eq_eraseP', List.eraseP_map]
  exact (swapErase_perm _ l).map f

/-- **Where the keys are distinct, all elements with another key are left**, in some order. -/
theorem swapErase_perm_filter [DecidableEq β] (f : α → β) (b : β) {l : List α}
    (h : (l.map f).Nodup) :
    (swapErase (fun a => f a = b) l).Perm (l.filter fun a => f a ≠ b) := by
  refine (swapErase_perm _ l).trans (List.Perm.of_eq ?_)
  induction l with
  | nil => rfl
  | cons a l ih =>
    obtain ⟨hnew, h⟩ := List.nodup_cons.mp h
    by_cases ha : f a = b
    · have hrest : ∀ x ∈ l, f x ≠ b := fun x hx heq =>
        hnew (ha.trans heq.symm ▸ List.mem_map_of_mem hx)
      rw [List.eraseP_cons_of_pos (by simpa using ha), List.filter_cons_of_neg (by simpa using ha),
        List.filter_eq_self.mpr (by simpa using hrest)]
    · rw [List.eraseP_cons_of_neg (by simpa using ha), List.filter_cons_of_pos (by simpa using ha),
        ih h]

end MiniProject
