import Mathlib.Data.List.Chain
import Mathlib.Data.List.Perm.Basic
import Mathlib.Data.Nat.Notation

/-!
# Machinery/Rings — a circular list through `next` alone

From `x`, `next` leads along a list and back to `x`.  A circle can be entered anywhere (`rotate`); a
search of it for the first cell that will do is a search of the list, and comes to its end.

Blocks of consecutive units are disjoint and cover what they should when the list of their units has
no duplicates and is a permutation of it.
-/

namespace MiniProject

universe u

variable {α : Type u}

/-- `next` leads from each to the one behind it. -/
def Linked (next : α → α) (l : List α) : Prop := l.IsChain fun x y => next x = y

variable {next next' : α → α} {l l₁ l₂ : List α} {x y z : α}

/-- What `next` does at the last does not matter. -/
theorem Linked.congr (h : Linked next l) (hnext : ∀ z ∈ l.dropLast, next' z = next z) :
    Linked next' l := by
  induction h with
  | nil => exact .nil
  | singleton x => exact .singleton x
  | @cons_cons x y l hxy hrest ih =>
    have hx := hnext x List.mem_cons_self
    exact .cons_cons (hx.trans hxy) (ih fun z hz => hnext z (List.mem_cons_of_mem _ hz))

/-- Two stretches, and the step from one to the other. -/
theorem linked_append {z : α} : Linked next (x :: l₁ ++ z :: l₂) ↔
    Linked next (x :: l₁) ∧ next (l₁.getLastD x) = z ∧ Linked next (z :: l₂) := by
  induction l₁ generalizing x with
  | nil => simp [Linked, List.isChain_cons_cons]
  | cons y l₁ ih =>
    have htail := ih (x := y)
    simp only [Linked, List.cons_append, List.isChain_cons_cons] at htail ⊢
    rw [List.getLastD_cons, htail, and_assoc]

/-- `l` is the way from `x` round to `x` again. -/
def Ring (next : α → α) (x : α) (l : List α) : Prop := Linked next (x :: l ++ [x])

/-- **A ring can be entered anywhere.** -/
theorem Ring.rotate (h : Ring next x (l₁ ++ y :: l₂)) : Ring next y (l₂ ++ x :: l₁) := by
  have hall : Linked next (x :: l₁ ++ y :: (l₂ ++ [x])) := by
    have heq : x :: (l₁ ++ y :: l₂) ++ [x] = x :: l₁ ++ y :: (l₂ ++ [x]) := by simp
    rwa [Ring, heq] at h
  obtain ⟨hfirst, hy, hrest⟩ := linked_append.mp hall
  have hsecond : Linked next (y :: l₂ ++ [x]) := hrest
  obtain ⟨hsecond, hx, -⟩ := linked_append.mp hsecond
  have heq : y :: (l₂ ++ x :: l₁) ++ [y] = y :: l₂ ++ x :: (l₁ ++ [y]) := by simp
  rw [Ring, heq, linked_append]
  have hback : Linked next (x :: l₁ ++ [y]) := linked_append.mpr ⟨hfirst, hy, .singleton y⟩
  exact ⟨hsecond, hx, hback⟩

/-- …and is the same ring. -/
theorem Ring.enter (h : Ring next x l) (hy : y ∈ x :: l) :
    ∃ l', Ring next y l' ∧ (y :: l').Perm (x :: l) := by
  obtain rfl | hy := List.mem_cons.mp hy
  · exact ⟨l, h, .refl _⟩
  · obtain ⟨l₁, l₂, rfl⟩ := List.append_of_mem hy
    refine ⟨l₂ ++ x :: l₁, h.rotate, ?_⟩
    have hcons : (y :: (l₂ ++ x :: l₁)) = (y :: l₂) ++ (x :: l₁) := rfl
    rw [hcons]
    exact List.perm_append_comm

theorem Linked.next_mem (h : Linked next (y :: l ++ [x])) (hz : z ∈ y :: l) :
    next z ∈ l ++ [x] := by
  induction l generalizing y with
  | nil =>
    obtain rfl := List.mem_singleton.mp hz
    exact List.mem_singleton.mpr (List.isChain_cons_cons.mp h).1
  | cons w l ih =>
    obtain ⟨hnext, h⟩ := List.isChain_cons_cons.mp h
    obtain rfl | hz := List.mem_cons.mp hz
    · rw [hnext]
      exact List.mem_cons_self
    · exact List.mem_cons_of_mem _ (ih h hz)

/-- **One cell alone leads to another.** -/
theorem Linked.eq_getLastD {w : α} (h : Linked next (x :: (l₁ ++ y :: l₂) ++ [w])) (h₁ : y ∉ l₁)
    (h₂ : y ∉ l₂ ++ [w]) (hz : z ∈ x :: (l₁ ++ y :: l₂)) (hzy : next z = y) :
    z = l₁.getLastD x := by
  induction l₁ generalizing x with
  | nil =>
    obtain rfl | hz := List.mem_cons.mp hz
    · rfl
    · have hrest : Linked next (y :: l₂ ++ [w]) := (List.isChain_cons_cons.mp h).2
      exact absurd (hzy ▸ hrest.next_mem hz) h₂
  | cons v l₁ ih =>
    obtain ⟨hnext, h⟩ := List.isChain_cons_cons.mp h
    rw [List.mem_cons, not_or] at h₁
    obtain rfl | hz := List.mem_cons.mp hz
    · exact absurd (hzy.symm.trans hnext) h₁.1
    · rw [List.getLastD_cons]
      exact ih h h₁.2 hz

theorem linked_trans (h₁ : Linked next (x :: l₁)) (h₂ : Linked next (l₁.getLastD x :: l₂)) :
    Linked next (x :: l₁ ++ l₂) := by
  rcases l₂ with _ | ⟨z, l₂⟩
  · rwa [List.append_nil]
  · obtain ⟨hz, h₂⟩ := List.isChain_cons_cons.mp h₂
    exact linked_append.mpr ⟨h₁, hz, h₂⟩

theorem Ring.next_getLastD (h : Ring next x (l₁ ++ l₂)) (hz : l₂ ++ [x] = z :: l) :
    next (l₁.getLastD x) = z := by
  rw [Ring, List.cons_append, List.append_assoc, hz, ← List.cons_append] at h
  exact (linked_append.mp h).2.1

theorem Ring.next_eq_headD (h : Ring next x l) (hz : z ∈ x :: l) :
    ∃ l₁ l₂, x :: l = l₁ ++ z :: l₂ ∧ next z = l₂.headD x := by
  obtain ⟨l₁, l₂, heq⟩ := List.append_of_mem hz
  refine ⟨l₁, l₂, heq, ?_⟩
  have hall : Linked next (l₁ ++ (z :: l₂ ++ [x])) := by
    rw [Ring, heq] at h
    rwa [← List.append_assoc]
  have hright : Linked next (z :: l₂ ++ [x]) := (List.isChain_append.mp hall).2.1
  rcases l₂ with _ | ⟨w, l₂⟩
  · exact (List.isChain_cons_cons.mp hright).1
  · exact (List.isChain_cons_cons.mp hright).1

/-- A sorted list is cut where `P` ends. -/
theorem exists_append_of_pairwise {R : α → α → Prop} {P : α → Prop} [DecidablePred P]
    (h : l.Pairwise R) (hR : ∀ a b, R a b → P b → P a) :
    ∃ l₁ l₂, l = l₁ ++ l₂ ∧ (∀ a ∈ l₁, P a) ∧ ∀ a ∈ l₂, ¬ P a := by
  induction h with
  | nil => exact ⟨[], [], rfl, fun _ ha => absurd ha List.not_mem_nil, fun _ ha => absurd ha
      List.not_mem_nil⟩
  | @cons a l ha _ ih =>
    rcases Decidable.em (P a) with hP | hP
    · obtain ⟨l₁, l₂, rfl, h₁, h₂⟩ := ih
      exact ⟨a :: l₁, l₂, rfl, List.forall_mem_cons.mpr ⟨hP, h₁⟩, h₂⟩
    · exact ⟨[], a :: l, rfl, fun _ ha => absurd ha List.not_mem_nil,
        List.forall_mem_cons.mpr ⟨hP, fun b hb hPb => hP (hR a b (ha b hb) hPb)⟩⟩

/-- **Part of a ring is exchanged**, behind the last cell of `l₁`. -/
theorem Ring.splice {d m l₃ : List α} (h : Ring next x (l₁ ++ (d ++ l₃)))
    (hnodup : (x :: (l₁ ++ (d ++ l₃))).Nodup)
    (hagree : ∀ z ∈ x :: (l₁ ++ l₃), z ≠ l₁.getLastD x → next' z = next z)
    (hm : ∀ z l, l₃ ++ [x] = z :: l → Linked next' (l₁.getLastD x :: m ++ [z])) :
    Ring next' x (l₁ ++ (m ++ l₃)) := by
  obtain ⟨z, l, hz⟩ : ∃ z l, l₃ ++ [x] = z :: l :=
    List.exists_cons_of_ne_nil (List.append_ne_nil_of_right_ne_nil _ (List.cons_ne_nil _ _))
  have hsplit : x :: (l₁ ++ (d ++ l₃)) ++ [x] = (x :: l₁) ++ (d ++ (z :: l)) := by
    rw [← hz]
    simp
  rw [Ring, hsplit] at h
  have hfirst : Linked next (x :: l₁) := (List.isChain_append.mp h).1
  have hlast : Linked next (z :: l) := (List.isChain_append.mp (List.isChain_append.mp h).2.1).2.1
  have hparts : ((x :: l₁) ++ l₃).Nodup := hnodup.sublist
    (List.Sublist.append_left (List.sublist_append_right d l₃) (x :: l₁))
  have hend : (x :: l₁).dropLast ++ [l₁.getLastD x] = x :: l₁ := by
    have hdrop := List.dropLast_append_getLast (List.cons_ne_nil x l₁)
    rwa [List.getLast_eq_getLastD] at hdrop
  have hfirst' : Linked next' (x :: l₁) := by
    refine hfirst.congr fun w hw => hagree w ?_ fun heq => ?_
    · exact List.mem_append_left l₃ (List.dropLast_subset _ hw)
    · have hnd := (List.nodup_append.mp hparts).1
      rw [← hend, List.nodup_append] at hnd
      exact hnd.2.2 w hw _ List.mem_cons_self heq
  have hlast' : Linked next' (z :: l) := by
    refine hlast.congr fun w hw => hagree w ?_ fun heq => ?_
    · rw [← hz, List.dropLast_concat] at hw
      exact List.mem_append_right (x :: l₁) hw
    · rw [← hz, List.dropLast_concat] at hw
      exact (List.nodup_append.mp hparts).2.2 _ List.getLastD_mem_cons w hw heq.symm
  have hgoal : x :: (l₁ ++ (m ++ l₃)) ++ [x] = x :: l₁ ++ (m ++ z :: l) := by
    rw [← hz]
    simp
  obtain ⟨hfst, hstep, -⟩ := linked_append.mp (hm z l hz)
  rw [Ring, hgoal]
  exact linked_trans hfirst' (linked_append.mpr ⟨hfst, hstep, hlast'⟩)

/-! ## Searches -/

/-- The first cell from `y` on at which `stop` holds. -/
def seek (next : α → α) (stop : α → Bool) : ℕ → α → Option α
  | 0, _ => none
  | k + 1, y => if stop y then some y else seek next stop k (next y)

theorem Linked.seek {stop : α → Bool} (h : Linked next (y :: l)) (hz : z ∈ y :: l)
    (hstop : ∀ w ∈ y :: l, stop w = true ↔ w = z) {k : ℕ} (hk : l.length < k) :
    seek next stop k y = some z := by
  induction l generalizing y k with
  | nil =>
    obtain ⟨k, rfl⟩ := Nat.exists_eq_add_one_of_ne_zero (Nat.ne_zero_of_lt hk)
    obtain rfl := List.mem_singleton.mp hz
    rw [MiniProject.seek, if_pos ((hstop z List.mem_cons_self).mpr rfl)]
  | cons w l ih =>
    obtain ⟨k, rfl⟩ := Nat.exists_eq_add_one_of_ne_zero (Nat.ne_zero_of_lt hk)
    obtain ⟨hnext, h⟩ := List.isChain_cons_cons.mp h
    rw [MiniProject.seek]
    split_ifs with hy
    · rw [(hstop y List.mem_cons_self).mp hy]
    · have hz' : z ∈ w :: l := (List.mem_cons.mp hz).resolve_left fun heq =>
        hy ((hstop y List.mem_cons_self).mpr heq.symm)
      rw [hnext]
      exact ih h hz' (fun v hv => hstop v (List.mem_cons_of_mem _ hv)) (Nat.lt_of_succ_lt_succ hk)

/-- **A search of a ring** for the one cell that will do finds it, from wherever it starts. -/
theorem Ring.seek {stop : α → Bool} (h : Ring next x l) (hy : y ∈ x :: l) (hz : z ∈ x :: l)
    (hstop : ∀ w ∈ x :: l, stop w = true ↔ w = z) {k : ℕ} (hk : l.length < k) :
    seek next stop k y = some z := by
  obtain ⟨l', hring, hperm⟩ := h.enter hy
  have hlen : l'.length = l.length := by
    have hlen := hperm.length_eq
    rwa [List.length_cons, List.length_cons, Nat.add_right_cancel_iff] at hlen
  have hlinked : Linked next (y :: l') := (List.isChain_append.mp hring).1
  exact hlinked.seek (hperm.mem_iff.mpr hz) (fun w hw => hstop w (hperm.mem_iff.mp hw)) (hlen ▸ hk)

section Pursue

variable [DecidableEq α]

/-- The first cell at which `stop` holds and the one before it, on the way to `last`. -/
def pursue (next : α → α) (stop : α → Bool) (last : α) : ℕ → α → α → Option (Option (α × α))
  | 0, _, _ => none
  | k + 1, prev, y =>
    if stop y then some (some (prev, y))
    else if y = last then some none
    else pursue next stop last k y (next y)

theorem Linked.pursue {stop : α → Bool} {k : ℕ} (h : Linked next (y :: l ++ [x])) (hx : x ∉ l)
    (hk : l.length < k) :
    (pursue next stop x k y (next y) = some none ∧ ∀ w ∈ l ++ [x], stop w = false) ∨
    ∃ p q, pursue next stop x k y (next y) = some (some (p, q)) ∧ p ∈ y :: l ∧ q ∈ l ++ [x] ∧
      next p = q ∧ stop q = true := by
  induction l generalizing y k with
  | nil =>
    obtain ⟨k, rfl⟩ := Nat.exists_eq_add_one_of_ne_zero (Nat.ne_zero_of_lt hk)
    have hnext : next y = x := (List.isChain_cons_cons.mp h).1
    rw [hnext, MiniProject.pursue]
    split_ifs with hstop
    · exact .inr ⟨y, x, rfl, List.mem_cons_self, List.mem_cons_self, hnext, hstop⟩
    · refine .inl ⟨rfl, fun w hw => ?_⟩
      rw [List.mem_singleton.mp hw]
      exact Bool.eq_false_iff.mpr hstop
    · next hlast => exact absurd rfl hlast
  | cons v l ih =>
    obtain ⟨k, rfl⟩ := Nat.exists_eq_add_one_of_ne_zero (Nat.ne_zero_of_lt hk)
    obtain ⟨hnext, h⟩ := List.isChain_cons_cons.mp h
    rw [List.mem_cons, not_or] at hx
    rw [hnext, MiniProject.pursue]
    split_ifs with hstop hlast
    · exact .inr ⟨y, v, rfl, List.mem_cons_self, List.mem_cons_self, hnext, hstop⟩
    · exact absurd hlast.symm hx.1
    · obtain ⟨hnone, hall⟩ | ⟨p, q, hsome, hp, hq, hpq, hstop'⟩ :=
        ih h hx.2 (Nat.lt_of_succ_lt_succ hk)
      · refine .inl ⟨hnone, fun w hw => ?_⟩
        obtain rfl | hw := List.mem_cons.mp hw
        · exact Bool.eq_false_iff.mpr hstop
        · exact hall w hw
      · exact .inr ⟨p, q, hsome, List.mem_cons_of_mem _ hp, List.mem_cons_of_mem _ hq, hpq, hstop'⟩

/-- **A search round a ring**, from behind `y` to `y` itself, finds a cell that will do and the one
before it, or goes all the way. -/
theorem Ring.pursue {k : ℕ} (h : Ring next x l) (stop : α → Bool) (hnodup : (x :: l).Nodup)
    (hy : y ∈ x :: l) (hk : l.length < k) :
    (pursue next stop y k y (next y) = some none ∧ ∀ w ∈ x :: l, stop w = false) ∨
    ∃ p q, pursue next stop y k y (next y) = some (some (p, q)) ∧ p ∈ x :: l ∧ q ∈ x :: l ∧
      next p = q ∧ stop q = true := by
  obtain ⟨l', hring, hperm⟩ := h.enter hy
  have hlen : l'.length = l.length := by
    have hlen := hperm.length_eq
    rwa [List.length_cons, List.length_cons, Nat.add_right_cancel_iff] at hlen
  have hy' : y ∉ l' := (List.nodup_cons.mp (hperm.nodup_iff.mpr hnodup)).1
  have hmem {w : α} (hw : w ∈ l' ++ [y]) : w ∈ x :: l :=
    hperm.mem_iff.mp (List.perm_append_singleton y l' |>.mem_iff.mp hw)
  obtain ⟨hnone, hall⟩ | ⟨p, q, hsome, hp, hq, hpq, hstop⟩ :=
    Linked.pursue hring hy' (hlen ▸ hk)
  · exact .inl ⟨hnone, fun w hw => hall w
      ((List.perm_append_singleton y l').mem_iff.mpr (hperm.mem_iff.mpr hw))⟩
  · exact .inr ⟨p, q, hsome, hperm.mem_iff.mp hp, hmem hq, hpq, hstop⟩

end Pursue

end MiniProject
