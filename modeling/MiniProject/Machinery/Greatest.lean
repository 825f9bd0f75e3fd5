import Mathlib.Algebra.Order.Ring.Int
import Mathlib.Order.Defs.LinearOrder
import Mathlib.Data.List.Basic

/-!
# Machinery/Greatest — the first of the greatest elements of a list

A search for the greatest element goes through a list and keeps what it likes best so far; what is
only as good as that does not replace it.  So it ends with the first of the greatest, and its three
steps are the three lemmas about a list that is one element longer.
-/

namespace MiniProject

variable {α κ : Type*} [LinearOrder κ]

/-- Among the elements of `l` that are `ok`, `a` has the greatest key, and is the first that has. -/
def FirstGreatest (ok : α → Prop) (key : α → κ) (l : List α) (a : α) : Prop :=
  ∃ before after, l = before ++ a :: after ∧ ok a ∧ (∀ b ∈ before, ok b → key b < key a) ∧
    ∀ b ∈ after, ok b → key b ≤ key a

namespace FirstGreatest

variable {ok : α → Prop} {key : α → κ} {l : List α} {a b : α}

theorem mem (h : FirstGreatest ok key l a) : a ∈ l := by
  obtain ⟨before, after, rfl, -, -, -⟩ := h
  exact List.mem_append_right _ List.mem_cons_self

theorem isOk (h : FirstGreatest ok key l a) : ok a := by
  obtain ⟨before, after, -, hok, -, -⟩ := h
  exact hok

theorem le (h : FirstGreatest ok key l a) (hb : b ∈ l) (hok : ok b) : key b ≤ key a := by
  obtain ⟨before, after, rfl, -, hbefore, hafter⟩ := h
  rcases List.mem_append.mp hb with hb | hb
  · exact le_of_lt (hbefore b hb hok)
  · rcases List.mem_cons.mp hb with rfl | hb
    · exact le_rfl
    · exact hafter b hb hok

/-- **An element that is no better** leaves it as it is. -/
theorem concat_of_le (h : FirstGreatest ok key l a) (hb : ok b → key b ≤ key a) :
    FirstGreatest ok key (l ++ [b]) a := by
  obtain ⟨before, after, rfl, hok, hbefore, hafter⟩ := h
  refine ⟨before, after ++ [b], by simp, hok, hbefore, fun c hc => ?_⟩
  rcases List.mem_append.mp hc with hc | hc
  · exact hafter c hc
  · rwa [List.mem_singleton.mp hc]

/-- **A better one** takes its place. -/
theorem concat_of_lt (h : FirstGreatest ok key l a) (hb : ok b) (hlt : key a < key b) :
    FirstGreatest ok key (l ++ [b]) b :=
  ⟨l, [], rfl, hb, fun _ hc hok => lt_of_le_of_lt (h.le hc hok) hlt, nofun⟩

/-- **The first one** has nothing to be compared with. -/
theorem concat_of_none (h : ∀ c ∈ l, ¬ok c) (hb : ok b) : FirstGreatest ok key (l ++ [b]) b :=
  ⟨l, [], rfl, hb, fun c hc hok => absurd hok (h c hc), nofun⟩

end FirstGreatest

end MiniProject
