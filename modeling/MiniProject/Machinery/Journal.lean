import Mathlib.Algebra.Order.Ring.Int
import Mathlib.Data.Finset.Basic
import Mathlib.Logic.Function.Basic

/-!
# Machinery/Journal — redoing writes, and what a crash keeps

A redo journal is a list of writes that were agreed on before they are carried out.  Redoing all of
them gives one result, however many were carried out already (`replay_update`), and nothing new once
they all were (`replay_eq_self`).

What a journal is for is `Durable`: a store that several activities write to, and of which a crash
keeps what it was at the last commit, when no activity was under way.
-/

namespace MiniProject

universe u v w

variable {α : Type u} {β : Type v} [DecidableEq α] {f g : α → β} {ws : List (α × β)} {x : α} {v : β}

/-- The writes, in order. -/
def replay (f : α → β) : List (α × β) → α → β
  | [] => f
  | w :: ws => replay (Function.update f w.1 w.2) ws

/-- What was there before a write does not matter. -/
theorem replay_congr (h : x ∈ ws.map Prod.fst ∨ f x = g x) : replay f ws x = replay g ws x := by
  induction ws generalizing f g with
  | nil => exact h.resolve_left List.not_mem_nil
  | cons w ws ih =>
    refine ih ?_
    by_cases hx : x = w.1
    · exact .inr (by rw [hx, Function.update_self, Function.update_self])
    · rw [Function.update_of_ne hx, Function.update_of_ne hx]
      exact h.imp_left fun hmem => (List.mem_cons.mp hmem).resolve_left hx

/-- **Carrying out one of the writes first changes nothing.** -/
theorem replay_update (hx : x ∈ ws.map Prod.fst) :
    replay (Function.update f x v) ws = replay f ws := by
  funext y
  refine replay_congr ?_
  by_cases hy : y = x
  · exact .inl (hy ▸ hx)
  · exact .inr (Function.update_of_ne hy v f)

/-- Where the writes say what `g` does, redoing them gives `g` there. -/
theorem replay_eq_of_agree (h : ∀ w ∈ ws, g w.1 = w.2) :
    replay f ws x = if x ∈ ws.map Prod.fst then g x else f x := by
  induction ws generalizing f with
  | nil => rfl
  | cons w ws ih =>
    rw [replay, ih fun w' hw' => h w' (List.mem_cons_of_mem w hw'), List.map_cons]
    by_cases hx : x = w.1
    · simp [hx, h w List.mem_cons_self]
    · simp only [Function.update_of_ne hx, List.mem_cons, hx, false_or]

/-- **Redoing what was carried out changes nothing.** -/
theorem replay_eq_self (h : ∀ w ∈ ws, f w.1 = w.2) : replay f ws = f := by
  funext x
  rw [replay_eq_of_agree h, ite_self]

/-! ## What a crash keeps -/

variable {A : Type w} [DecidableEq A]

/-- A store as the activities see it now, and as it was at the last commit. -/
structure Durable (A : Type w) (α : Type u) (β : Type v) where
  active : Finset A
  now : α → β
  kept : α → β

namespace Durable

/-- What can happen to it. -/
inductive Event (A : Type w) (α : Type u) (β : Type v)
  | start (a : A)
  | write (a : A) (x : α) (v : β)
  | finish (a : A)
  | commit
  | crash
  deriving DecidableEq, Repr

/-- Nothing is under way, and everything is kept. -/
def clean (f : α → β) : Durable A α β := ⟨∅, f, f⟩

/-- Only what is under way writes; a commit waits until nothing is, and a crash goes back to it. -/
def step (t : Durable A α β) : Event A α β → Option (Durable A α β)
  | .start a => if a ∈ t.active then none else some { t with active := insert a t.active }
  | .write a x v =>
    if a ∈ t.active then some { t with now := Function.update t.now x v } else none
  | .finish a => if a ∈ t.active then some { t with active := t.active.erase a } else none
  | .commit => if t.active = ∅ then some { t with kept := t.now } else none
  | .crash => some ⟨∅, t.kept, t.kept⟩

/-- Only a commit changes what is kept. -/
theorem kept_step {t t' : Durable A α β} {e : Event A α β} (h : t.step e = some t')
    (he : e ≠ .commit) : t'.kept = t.kept := by
  cases e with
  | start a | finish a =>
    rw [step] at h
    split_ifs at h
    cases h
    rfl
  | write a x v =>
    rw [step] at h
    split_ifs at h
    cases h
    rfl
  | commit => exact absurd rfl he
  | crash =>
    cases h
    rfl

end Durable

end MiniProject
