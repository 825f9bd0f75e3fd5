import Mathlib.Data.List.Basic

/-!
# Machinery/Joins — a loop that joins pieces

The usual loop writes the separator before every piece but the first.  If the state stands for what
has been written (`rep`) and both writes append to that, the loop appends the pieces joined
(`foldlM_zipIdx_intercalate`), whatever `rep` keeps of it.
-/

namespace MiniProject

universe u v w

variable {α : Type u} {β : Type v} {σ : Type w}

/-- A first piece, and the others each behind a separator. -/
theorem intercalate_cons_eq (sep a : List β) (as : List (List β)) :
    sep.intercalate (a :: as) = a ++ as.flatMap (sep ++ ·) := by
  induction as generalizing a with
  | nil => simp [List.intercalate]
  | cons b bs ih =>
    rw [List.intercalate_cons_cons, ih b, List.flatMap_cons]
    simp only [List.append_assoc]

section Loop

variable (rep : List β → σ) (cat : σ → Option σ) (step : σ → α → Option σ) {sep : List β}
  {piece : α → List β}

/-- The pieces behind the first: the separator is written each time. -/
theorem foldlM_zipIdx_succ (hsep : ∀ x, cat (rep x) = some (rep (x ++ sep)))
    (hstep : ∀ x a, step (rep x) a = some (rep (x ++ piece a))) (as : List α) (k : ℕ)
    (x : List β) :
    (as.zipIdx (k + 1)).foldlM
        (fun s a => (if a.2 > 0 then cat s else some s).bind (step · a.1)) (rep x)
      = some (rep (x ++ (as.map piece).flatMap (sep ++ ·))) := by
  induction as generalizing k x with
  | nil => simp
  | cons a as ih =>
    rw [List.zipIdx_cons, List.foldlM_cons, if_pos (Nat.succ_pos k), hsep, Option.bind_eq_bind,
      Option.bind_some, hstep, Option.bind_some, ih, List.map_cons, List.flatMap_cons]
    simp only [List.append_assoc]

/-- **The loop appends the pieces joined.** -/
theorem foldlM_zipIdx_intercalate (hsep : ∀ x, cat (rep x) = some (rep (x ++ sep)))
    (hstep : ∀ x a, step (rep x) a = some (rep (x ++ piece a))) (as : List α) (x : List β) :
    as.zipIdx.foldlM
        (fun s a => (if a.2 > 0 then cat s else some s).bind (step · a.1)) (rep x)
      = some (rep (x ++ sep.intercalate (as.map piece))) := by
  cases as with
  | nil => simp [List.intercalate]
  | cons a as =>
    rw [List.zipIdx_cons, List.foldlM_cons, if_neg (Nat.lt_irrefl 0), Option.bind_eq_bind,
      Option.bind_some, hstep, Option.bind_some, List.map_cons, intercalate_cons_eq,
      ← List.append_assoc]
    exact foldlM_zipIdx_succ rep cat step hsep hstep as 0 _

end Loop

/-- A loop whose checks all pass does what it does without them. -/
theorem foldl_eq_of_foldlM {step : σ → α → Option σ} {step' : σ → α → σ}
    (hstep : ∀ s a s', step s a = some s' → step' s a = s') {as : List α} {s s' : σ}
    (h : as.foldlM step s = some s') : as.foldl step' s = s' := by
  induction as generalizing s with
  | nil => exact Option.some.inj h
  | cons a as ih =>
    rw [List.foldlM_cons] at h
    obtain ⟨s₁, hs₁, h⟩ := Option.bind_eq_some_iff.mp h
    rw [List.foldl_cons, hstep s a s₁ hs₁]
    exact ih h

end MiniProject
