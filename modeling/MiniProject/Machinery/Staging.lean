import MiniProject.Machinery.Files

/-!
# Machinery/Staging — one position, a writer and a reader

A writer fills a file through a description; a reader that shares the description seeks to the start
and reads up to the end.  When the writer goes on meanwhile, both move the same position: its bytes
land on what is still to be read, and the reader steps over them.

`Staged` is what stays true: behind the position the file is what was written early, and everything
before it was either read or written late.
-/

namespace MiniProject

universe u

variable {β : Type u}

/-- The file `data` at position `pos` after the writer wrote `early`, and since the reader sought to
the start `late` more, with `got` read. -/
structure Staged (data : List β) (pos : ℕ) (early late got : List β) : Prop where
  pos_eq : pos = got.length + late.length
  length_eq : data.length = max early.length pos
  drop_eq : data.drop pos = early.drop pos
  got_le : got.length ≤ early.length
  got_eq : late = [] → got = early.take pos

namespace Staged

variable {data early late got : List β} {pos : ℕ}

/-- The reader has just sought to the start. -/
theorem start (early : List β) : Staged early 0 early [] [] :=
  ⟨rfl, by simp, rfl, Nat.zero_le _, fun _ => rfl⟩

theorem pos_le (h : Staged data pos early late got) : pos ≤ data.length := by
  rw [h.length_eq]
  exact Nat.le_max_right _ _

/-- **A late write** goes over what is still to be read. -/
theorem write [Inhabited β] (h : Staged data pos early late got) (bs : List β) :
    Staged (splice data pos bs) (pos + bs.length) early (late ++ bs) got := by
  refine ⟨?_, ?_, ?_, h.got_le, ?_⟩
  · rw [List.length_append, h.pos_eq, Nat.add_assoc]
  · rw [length_splice h.pos_le, h.length_eq]
    omega
  · rw [drop_splice h.pos_le, ← List.drop_drop, h.drop_eq, List.drop_drop]
  · intro hlate
    obtain ⟨hlate, hbs⟩ := List.append_eq_nil_iff.mp hlate
    rw [hbs, List.length_nil, Nat.add_zero]
    exact h.got_eq hlate

/-- **A read** takes what is left of the early bytes. -/
theorem read (h : Staged data pos early late got) (k : ℕ) :
    Staged data (pos + ((data.drop pos).take k).length) early late
      (got ++ (data.drop pos).take k) := by
  have hpos := h.pos_eq
  have hlen := h.length_eq
  have hgot := h.got_le
  have htake : ((data.drop pos).take k).length ≤ data.length - pos := by
    rw [List.length_take, List.length_drop]
    exact Nat.min_le_right _ _
  refine ⟨?_, ?_, ?_, ?_, ?_⟩
  · rw [List.length_append]
    omega
  · omega
  · rw [← List.drop_drop, h.drop_eq, List.drop_drop]
  · rw [List.length_append]
    omega
  · intro hlate
    have hread : (data.drop pos).take k =
        (early.drop pos).take ((data.drop pos).take k).length := by
      rw [h.drop_eq, List.length_take, List.take_eq_take_min]
    rw [List.take_add, ← hread, ← h.got_eq hlate]

/-- A read that returns nothing stands behind the early bytes. -/
theorem le_of_read_eq_nil (h : Staged data pos early late got) {k : ℕ} (hk : 0 < k)
    (hnil : (data.drop pos).take k = []) : early.length ≤ pos := by
  rw [h.drop_eq, List.take_eq_nil_iff, List.drop_eq_nil_iff] at hnil
  exact hnil.resolve_left (Nat.ne_of_gt hk)

/-- **The reader that reached the end got everything exactly when nothing was written late.** -/
theorem got_eq_iff (h : Staged data pos early late got) (hend : early.length ≤ pos) :
    got = early ++ late ↔ late = [] := by
  constructor
  · intro hall
    have hlen := congrArg List.length hall
    rw [List.length_append] at hlen
    have hle := h.got_le
    exact List.length_eq_zero_iff.mp (by omega)
  · intro hlate
    rw [h.got_eq hlate, hlate, List.append_nil, List.take_of_length_le hend]

end Staged

end MiniProject
