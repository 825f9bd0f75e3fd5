import Mathlib.Algebra.Order.Ring.Int
import Mathlib.Data.Nat.Notation
import Mathlib.Logic.Function.Basic

/-!
# Machinery/Ring — a ring buffer between two counters that wrap around

A reader's and a writer's counter of 32 bits only ever go up, past their largest value to zero; the
buffer is `cap` cells, and a counter names the cell of its remainder.  Where `cap` divides `2 ^ 32`
and the counters are no further apart than `cap`, the cells between them are a queue.
-/

namespace MiniProject.Ring

universe u

variable {β : Type u} {cap : ℕ} [NeZero cap]

/-- The cell of a counter. -/
def idx (cap : ℕ) [NeZero cap] (c : BitVec 32) : Fin cap :=
  ⟨c.toNat % cap, Nat.mod_lt _ (Nat.pos_of_ne_zero (NeZero.ne cap))⟩

/-- How far apart the counters are. -/
def size (r w : BitVec 32) : ℕ := (w - r).toNat

/-- What is between them, oldest first. -/
def contents (data : Fin cap → β) (r w : BitVec 32) : List β :=
  (List.range (size r w)).map fun i => data (idx cap (r + BitVec.ofNat 32 i))

variable {data : Fin cap → β} {r w : BitVec 32} {b : β}

@[simp] theorem length_contents : (contents data r w).length = size r w := by simp [contents]

@[simp] theorem contents_self : contents data r r = [] := by
  rw [contents, size, BitVec.sub_self]
  rfl

theorem size_eq_zero : size r w = 0 ↔ r = w := by
  rw [size]
  constructor
  · intro h
    bv_omega
  · rintro rfl
    simp

theorem contents_eq_nil : contents data r w = [] ↔ r = w := by
  rw [← List.length_eq_zero_iff, length_contents, size_eq_zero]

omit [NeZero cap] in
/-- The test for a full buffer. -/
theorem full_iff (hcap : cap < 2 ^ 32) : w = r + BitVec.ofNat 32 cap ↔ size r w = cap := by
  rw [size]
  constructor
  · rintro rfl
    bv_omega
  · intro h
    bv_omega

theorem size_succ (h : size r w < 2 ^ 32 - 1) : size r (w + 1) = size r w + 1 := by
  simp only [size] at h ⊢
  bv_omega

theorem size_read (h : r ≠ w) : size r w = size (r + 1) w + 1 := by
  rw [size, size]
  bv_omega

theorem size_unwrite (h : r ≠ w) : size r w = size r (w - 1) + 1 := by
  rw [size, size]
  bv_omega

/-- Cells that are less than `cap` apart are different. -/
theorem idx_ne (hdvd : cap ∣ 2 ^ 32) {i : ℕ} (hi : i < size r w) (hw : size r w < cap) :
    idx cap (r + BitVec.ofNat 32 i) ≠ idx cap w := by
  intro heq
  have hcap : cap ≤ 2 ^ 32 := Nat.le_of_dvd (by decide) hdvd
  have hw' : w = r + BitVec.ofNat 32 (size r w) := by
    rw [size]
    bv_omega
  have hmod := Fin.val_eq_of_eq heq
  rw [hw'] at hmod
  simp only [idx, BitVec.toNat_add, BitVec.toNat_ofNat, Nat.add_mod_mod,
    Nat.mod_mod_of_dvd _ hdvd] at hmod
  have hsub := Nat.sub_mod_eq_zero_of_mod_eq hmod.symm
  rw [Nat.add_sub_add_left] at hsub
  have hlt : size r w - i < cap := by omega
  rw [Nat.mod_eq_of_lt hlt] at hsub
  omega

/-- **A byte goes in at the end.** -/
theorem contents_write (hdvd : cap ∣ 2 ^ 32) (hcap : cap < 2 ^ 32) (h : size r w < cap) :
    contents (Function.update data (idx cap w) b) r (w + 1) = contents data r w ++ [b] := by
  have hw : r + BitVec.ofNat 32 (size r w) = w := by
    rw [size]
    bv_omega
  rw [contents, size_succ (by omega), List.range_succ, List.map_append, contents]
  refine congrArg₂ (· ++ ·) (List.map_congr_left fun i hi => ?_) ?_
  · rw [Function.update_of_ne (idx_ne hdvd (List.mem_range.mp hi) h)]
  · rw [List.map_singleton, hw, Function.update_self]

/-- **A byte comes out at the front.** -/
theorem contents_read (h : r ≠ w) :
    contents data r w = data (idx cap r) :: contents data (r + 1) w := by
  rw [contents, size_read h, List.range_succ_eq_map, List.map_cons, List.map_map, contents]
  refine congrArg₂ List.cons ?_ (List.map_congr_left fun i _ => ?_)
  · simp
  · rw [Function.comp_apply, Nat.succ_eq_add_one]
    refine congrArg data (congrArg (idx cap) ?_)
    bv_omega

/-- …or at the end. -/
theorem contents_unwrite (h : r ≠ w) :
    contents data r w = contents data r (w - 1) ++ [data (idx cap (w - 1))] := by
  have hw : r + BitVec.ofNat 32 (size r (w - 1)) = w - 1 := by
    rw [size]
    bv_omega
  rw [contents, size_unwrite h, List.range_succ, List.map_append, List.map_singleton, hw, contents]

/-- A third counter in between cuts the queue in two. -/
theorem contents_append {e : BitVec 32} (h : size r w + size w e = size r e) :
    contents data r e = contents data r w ++ contents data w e := by
  rw [contents, ← h, List.range_add, List.map_append, List.map_map, contents, contents]
  refine congrArg₂ (· ++ ·) rfl (List.map_congr_left fun i _ => ?_)
  rw [Function.comp_apply]
  refine congrArg data (congrArg (idx cap) ?_)
  rw [size] at *
  bv_omega

end MiniProject.Ring
