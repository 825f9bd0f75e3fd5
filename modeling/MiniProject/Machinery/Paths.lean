import Mathlib.Data.List.Lex
import Mathlib.Data.List.Sort

/-!
# Machinery/Paths — paths in lexicographic order

A path is a list of names.  In lexicographic order a path comes before those it is the beginning of,
and nothing comes between them: the paths behind it that it is not the beginning of come behind all
of these (`lt_of_not_isPrefix`).  So a list of paths that is sorted goes through a tree in preorder:
each is followed at once by what is below it (`block_of_sorted`).
-/

namespace MiniProject

variable {α : Type*} [LinearOrder α] {l y z : List α} {a b : α}

theorem lt_append_of_ne_nil (l : List α) (h : y ≠ []) : l < l ++ y := by
  induction l with
  | nil =>
    obtain ⟨a, y, rfl⟩ := List.exists_cons_of_ne_nil h
    exact .nil
  | cons a l ih => exact .cons ih

/-- What is below an earlier name comes before what is below a later one. -/
theorem append_cons_lt_append_cons (l : List α) (h : a < b) (y z : List α) :
    l ++ a :: y < l ++ b :: z := by
  induction l with
  | nil => exact .rel h
  | cons c l ih => exact .cons ih

theorem not_isPrefix_of_lt (h : y < l) : ¬l <+: y := by
  rintro ⟨t, rfl⟩
  rcases t with _ | ⟨a, t⟩
  · rw [List.append_nil] at h
    exact lt_irrefl _ h
  · exact lt_asymm h (lt_append_of_ne_nil l (List.cons_ne_nil a t))

/-- **Nothing comes between a path and what is below it.** -/
theorem lt_of_not_isPrefix (hlt : l < y) (hy : ¬l <+: y) (hz : l <+: z) : z < y := by
  obtain ⟨t, rfl⟩ := hz
  induction l generalizing y with
  | nil => exact absurd List.nil_prefix hy
  | cons a l ih =>
    cases hlt with
    | rel h => exact .rel h
    | cons h => exact .cons (ih h fun hpre => hy ((List.prefix_cons_inj a).mpr hpre))

/-- What follows a path in a sorted list: first what is below it. -/
theorem split_of_sorted {rest : List (List α)} (h : rest.Pairwise (· < ·))
    (hl : ∀ y ∈ rest, l < y) :
    ∃ block after, rest = block ++ after ∧ (∀ y ∈ block, l <+: y) ∧ ∀ y ∈ after, ¬l <+: y := by
  induction rest with
  | nil => exact ⟨[], [], rfl, nofun, nofun⟩
  | cons x rest ih =>
    obtain ⟨hx, hrest⟩ := List.pairwise_cons.mp h
    obtain ⟨hlx, hlrest⟩ := List.forall_mem_cons.mp hl
    by_cases hpre : l <+: x
    · obtain ⟨block, after, rfl, hblock, hafter⟩ := ih hrest hlrest
      exact ⟨x :: block, after, rfl, List.forall_mem_cons.mpr ⟨hpre, hblock⟩, hafter⟩
    · refine ⟨[], x :: rest, rfl, nofun, List.forall_mem_cons.mpr ⟨hpre, fun y hy hpre' => ?_⟩⟩
      exact lt_asymm (hx y hy) (lt_of_not_isPrefix hlx hpre hpre')

/-- **Preorder**: in a sorted list each path is followed by those below it, and only then by
others. -/
theorem block_of_sorted {es : List (List α)} (h : es.Pairwise (· < ·)) (hl : l ∈ es) :
    ∃ before block after, es = before ++ l :: (block ++ after) ∧ (∀ y ∈ block, l <+: y) ∧
      ∀ y ∈ before ++ after, ¬l <+: y := by
  obtain ⟨before, rest, rfl⟩ := List.append_of_mem hl
  obtain ⟨-, hrest, hbefore⟩ := List.pairwise_append.mp h
  obtain ⟨hl, hrest⟩ := List.pairwise_cons.mp hrest
  obtain ⟨block, after, rfl, hblock, hafter⟩ := split_of_sorted hrest hl
  refine ⟨before, block, after, rfl, hblock, fun y hy => ?_⟩
  rcases List.mem_append.mp hy with hy | hy
  · exact not_isPrefix_of_lt (hbefore y hy l List.mem_cons_self)
  · exact hafter y hy

end MiniProject
