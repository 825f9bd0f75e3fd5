import Mathlib.Data.List.Chain
import Mathlib.Data.List.Dedup
import Mathlib.Data.Option.Basic
import Mathlib.Logic.Function.Basic

/-!
# Machinery/Links — a circular list through `next` and `prev`

Some cells and a head are linked both ways, into a circle that starts and ends at the head.  The
circle is a list; a cell is put in behind the head and taken out wherever it is by four writes and
by two, and a walk from the head meets the cells in their order, or in the opposite one.

Where what is used goes to the front, the order is the order of last use (`recent_concat`).
-/

namespace MiniProject

universe u

variable {α : Type u}

/-- The two neighbours of each cell, and of the head, which is `none`. -/
structure Links (α : Type u) where
  next : Option α → Option α
  prev : Option α → Option α

namespace Links

/-- The head alone. -/
def empty : Links α := ⟨fun _ => none, fun _ => none⟩

/-- A cell goes behind the head. -/
def insert [DecidableEq α] (L : Links α) (a : α) : Links α where
  next := Function.update (Function.update L.next (some a) (L.next none)) none (some a)
  prev := Function.update (Function.update L.prev (some a) none) (L.next none) (some a)

/-- A cell is taken out. -/
def remove [DecidableEq α] (L : Links α) (a : α) : Links α where
  next := Function.update L.next (L.prev (some a)) (L.next (some a))
  prev := Function.update L.prev (L.next (some a)) (L.prev (some a))

/-- The first cell that satisfies `p` on the way along `step`, up to the head. -/
def find (step : Option α → Option α) (p : α → Bool) : ℕ → Option α → Option α
  | 0, _ | _, none => none
  | k + 1, some a => if p a then some a else find step p k (step (some a))

/-- Neighbours. -/
def Joined (L : Links α) (x y : Option α) : Prop := L.next x = y ∧ L.prev y = x

/-- **The circle is the list `l`.** -/
structure Linked (L : Links α) (l : List α) : Prop where
  chain : (none :: (l.map some ++ [none])).IsChain L.Joined
  nodup : l.Nodup

theorem linked_empty : Linked (empty : Links α) [] :=
  ⟨List.isChain_pair.mpr ⟨rfl, rfl⟩, List.nodup_nil⟩

/-- A walk is a search of the list it goes along. -/
theorem find_eq {step : Option α → Option α} {l : List α} {x : Option α} (p : α → Bool)
    (h : (x :: (l.map some ++ [none])).IsChain fun y z => step y = z) {k : ℕ} (hk : l.length ≤ k) :
    find step p k (step x) = l.find? p := by
  induction l generalizing x k with
  | nil =>
    rw [(List.isChain_cons_cons.mp h).1]
    cases k <;> rfl
  | cons a l ih =>
    obtain ⟨hx, h⟩ := List.isChain_cons_cons.mp h
    obtain ⟨k, rfl⟩ : ∃ j, k = j + 1 :=
      Nat.exists_eq_add_one_of_ne_zero (Nat.ne_zero_of_lt hk)
    rw [hx, find, List.find?_cons]
    cases p a with
    | true => rfl
    | false => exact ih h (Nat.le_of_succ_le_succ hk)

variable {L : Links α} {l l₁ l₂ : List α} {a : α}

/-- **A walk forwards.** -/
theorem Linked.find_next (h : Linked L l) (p : α → Bool) {k : ℕ} (hk : l.length ≤ k) :
    find L.next p k (L.next none) = l.find? p :=
  find_eq p (h.chain.imp fun _ _ hxy => hxy.1) hk

/-- **A walk backwards.** -/
theorem Linked.find_prev (h : Linked L l) (p : α → Bool) {k : ℕ} (hk : l.length ≤ k) :
    find L.prev p k (L.prev none) = l.reverse.find? p := by
  refine find_eq p ?_ (by rwa [List.length_reverse])
  have hrev :
      none :: (l.reverse.map some ++ [none]) = (none :: (l.map some ++ [none])).reverse := by
    simp
  rw [hrev, List.isChain_reverse]
  exact h.chain.imp fun _ _ hxy => hxy.2

/-- The links that a stretch of the circle goes along are all it depends on. -/
theorem isChain_transport {L' : Links α} {xs : List (Option α)} (h : xs.IsChain L.Joined)
    (hnext : ∀ x ∈ xs.dropLast, L'.next x = L.next x)
    (hprev : ∀ x ∈ xs.tail, L'.prev x = L.prev x) : xs.IsChain L'.Joined := by
  induction h with
  | nil => exact .nil
  | singleton x => exact .singleton x
  | @cons_cons x y xs hxy hrest ih =>
    have hx := hnext x List.mem_cons_self
    have hy := hprev y List.mem_cons_self
    refine .cons_cons ⟨hx.trans hxy.1, hy.trans hxy.2⟩ (ih (fun z hz => ?_) fun z hz => ?_)
    · exact hnext z (List.mem_cons_of_mem _ hz)
    · exact hprev z (List.mem_cons_of_mem _ hz)

theorem nodup_map_some (h : l.Nodup) : (l.map some).Nodup := h.map (Option.some_injective α)

variable [DecidableEq α]

theorem Linked.insert (h : Linked L l) (ha : a ∉ l) : Linked (L.insert a) (a :: l) := by
  refine ⟨?_, List.nodup_cons.mpr ⟨ha, h.nodup⟩⟩
  obtain ⟨y, ys, hys⟩ : ∃ y ys, l.map some ++ [none] = y :: ys :=
    List.exists_cons_of_ne_nil (List.append_ne_nil_of_right_ne_nil _ (List.cons_ne_nil _ _))
  have hchain := h.chain
  rw [hys] at hchain
  obtain ⟨hjoined, hrest⟩ := List.isChain_cons_cons.mp hchain
  have hmem {x : Option α} (hx : x ∈ y :: ys) : x ≠ some a := by
    rintro rfl
    rw [← hys] at hx
    exact ha (by simpa using hx)
  have hnodup : (y :: ys).Nodup := by
    rw [← hys]
    simp [List.nodup_append, nodup_map_some h.nodup]
  have hlast : (y :: ys).dropLast = l.map some := by rw [← hys, List.dropLast_concat]
  rw [List.map_cons, List.cons_append, hys]
  refine .cons_cons ⟨by simp [Links.insert], ?_⟩ (.cons_cons ⟨?_, ?_⟩ (isChain_transport hrest
    (fun x hx => ?_) fun x hx => ?_))
  · have hy := hmem List.mem_cons_self
    simp [Links.insert, hjoined.1, Function.update_of_ne (Ne.symm hy)]
  · simp [Links.insert, hjoined.1]
  · simp [Links.insert, hjoined.1]
  · rw [hlast] at hx
    have hxa := hmem (List.dropLast_subset _ (hlast ▸ hx))
    obtain ⟨b, -, rfl⟩ := List.mem_map.mp hx
    simp [Links.insert, Function.update_of_ne hxa]
  · have hxy : x ≠ y := fun heq => (List.nodup_cons.mp hnodup).1 (heq ▸ hx)
    simp [Links.insert, hjoined.1, Function.update_of_ne hxy,
      Function.update_of_ne (hmem (List.mem_cons_of_mem _ hx))]

theorem Linked.remove (h : Linked L (l₁ ++ a :: l₂)) : Linked (L.remove a) (l₁ ++ l₂) := by
  have hnodup : (l₁ ++ l₂).Nodup := h.nodup.sublist
    (List.Sublist.append_left (List.sublist_cons_self _ _) _)
  refine ⟨?_, hnodup⟩
  obtain ⟨xs, x, hxs⟩ : ∃ xs x, none :: l₁.map some = xs ++ [x] :=
    (List.eq_nil_or_concat' _).resolve_left (List.cons_ne_nil _ _)
  obtain ⟨y, ys, hys⟩ : ∃ y ys, l₂.map some ++ [none] = y :: ys :=
    List.exists_cons_of_ne_nil (List.append_ne_nil_of_right_ne_nil _ (List.cons_ne_nil _ _))
  have hall : none :: ((l₁ ++ a :: l₂).map some ++ [none]) = xs ++ x :: some a :: y :: ys := by
    rw [List.map_append, List.append_assoc, ← List.cons_append, hxs, List.map_cons,
      List.cons_append, hys, List.append_assoc, List.singleton_append]
  have hgoal : none :: ((l₁ ++ l₂).map some ++ [none]) = xs ++ x :: y :: ys := by
    rw [List.map_append, List.append_assoc, ← List.cons_append, hxs, hys, List.append_assoc,
      List.singleton_append]
  have hchain := h.chain
  rw [hall, List.isChain_append_cons_cons, List.isChain_cons_cons] at hchain
  obtain ⟨hleft, hxa, hay, hright⟩ := hchain
  -- nothing but the head occurs twice on the way round
  have hfront : (xs ++ x :: (y :: ys).dropLast).Nodup := by
    have heq : xs ++ x :: (y :: ys).dropLast = none :: (l₁ ++ l₂).map some := by
      rw [← hys, List.dropLast_concat, List.map_append, ← List.cons_append, hxs, List.append_assoc,
        List.singleton_append]
    rw [heq, List.nodup_cons]
    exact ⟨by simp, nodup_map_some hnodup⟩
  have hback : ((xs ++ [x]).tail ++ y :: ys).Nodup := by
    rw [← hxs, List.tail_cons, ← hys, ← List.append_assoc, ← List.map_append, List.nodup_append']
    exact ⟨nodup_map_some hnodup, List.nodup_singleton _, by simp⟩
  rw [hgoal, List.isChain_append_cons_cons]
  refine ⟨isChain_transport hleft (fun z hz => ?_) fun z hz => ?_, ⟨?_, ?_⟩,
    isChain_transport hright (fun z hz => ?_) fun z hz => ?_⟩
  · rw [List.dropLast_concat] at hz
    have hzx : z ≠ x := fun heq =>
      (List.disjoint_of_nodup_append hfront) hz (heq ▸ List.mem_cons_self)
    simp [Links.remove, hxa.2, Function.update_of_ne hzx]
  · have hzy : z ≠ y := fun heq =>
      (List.disjoint_of_nodup_append hback) hz (heq ▸ List.mem_cons_self)
    simp [Links.remove, hay.1, Function.update_of_ne hzy]
  · simp [Links.remove, hxa.2, hay.1]
  · simp [Links.remove, hxa.2, hay.1]
  · have hzx : z ≠ x := fun heq =>
      (List.nodup_cons.mp (List.nodup_append.mp hfront).2.1).1 (heq ▸ hz)
    simp [Links.remove, hxa.2, Function.update_of_ne hzx]
  · have hzy : z ≠ y := fun heq =>
      (List.nodup_cons.mp (List.nodup_append.mp hback).2.1).1 (heq ▸ hz)
    simp [Links.remove, hay.1, Function.update_of_ne hzy]

/-- **A cell moves to the front.** -/
theorem Linked.move (h : Linked L l) (ha : a ∈ l) :
    Linked ((L.remove a).insert a) (a :: l.erase a) := by
  obtain ⟨l₁, l₂, -, rfl, herase⟩ := List.exists_erase_eq ha
  rw [herase]
  refine h.remove.insert fun hmem => ?_
  have hperm : (l₁ ++ a :: l₂).Perm (a :: (l₁ ++ l₂)) := List.perm_middle
  exact (List.nodup_cons.mp (hperm.nodup_iff.mp h.nodup)).1 hmem

end Links

/-- Pairs that do not end in `a` stay as they are, and those that do are looked at. -/
theorem pairwise_at {R S : α → α → Prop} {l₁ l₂ : List α} {a : α} (hl : (l₁ ++ a :: l₂).Nodup)
    (h : (l₁ ++ a :: l₂).Pairwise R) (ha : ∀ x ∈ l₁, S x a)
    (hS : ∀ x y, y ≠ a → R x y → S x y) : (l₁ ++ a :: l₂).Pairwise S := by
  obtain ⟨h₁, h₂, h₁₂⟩ := List.pairwise_append.mp h
  obtain ⟨ha₂, h₂⟩ := List.pairwise_cons.mp h₂
  have hnot : a ∉ l₁ ++ l₂ := (List.nodup_cons.mp (List.perm_middle.nodup_iff.mp hl)).1
  have hne {x : α} (hx : x ∈ l₁ ++ l₂) : x ≠ a := fun heq => hnot (heq ▸ hx)
  have hS₁ {x : α} (hx : x ∈ l₁) : x ≠ a := hne (List.mem_append_left _ hx)
  have hS₂ {x : α} (hx : x ∈ l₂) : x ≠ a := hne (List.mem_append_right _ hx)
  refine List.pairwise_append.mpr ⟨h₁.imp_of_mem fun _ hy hxy => hS _ _ (hS₁ hy) hxy,
    List.pairwise_cons.mpr ⟨fun y hy => hS a y (hS₂ hy) (ha₂ y hy),
      h₂.imp_of_mem fun _ hy hxy => hS _ _ (hS₂ hy) hxy⟩, fun x hx y hy => ?_⟩
  obtain rfl | hy := List.mem_cons.mp hy
  · exact ha x hx
  · exact hS x y (hS₂ hy) (h₁₂ x hx y (List.mem_cons_of_mem _ hy))

/-- What was used, the most recent first. -/
def recent [DecidableEq α] (l : List α) : List α := l.dedup.reverse

theorem nodup_recent [DecidableEq α] (l : List α) : (recent l).Nodup :=
  List.nodup_reverse.mpr (List.nodup_dedup l)

@[simp] theorem mem_recent [DecidableEq α] {l : List α} {a : α} : a ∈ recent l ↔ a ∈ l := by
  simp [recent]

/-- **What is used goes to the front.** -/
theorem recent_concat [DecidableEq α] (l : List α) (a : α) :
    recent (l ++ [a]) = a :: (recent l).erase a := by
  have hdedup : (l ++ [a]).dedup = l.dedup.erase a ++ [a] := by
    induction l with
    | nil => rfl
    | cons b l ih =>
      rw [List.cons_append, List.dedup_cons, List.dedup_cons, ih]
      by_cases hb : b ∈ l
      · rw [if_pos hb, if_pos (List.mem_append_left _ hb)]
      · rw [if_neg hb, List.erase_cons]
        by_cases hba : b = a
        · have hnot : a ∉ l.dedup := by rwa [List.mem_dedup, ← hba]
          rw [if_pos (by simp [hba]), if_pos (by simp [hba]), List.erase_of_not_mem hnot]
        · rw [if_neg (by simp [hb, hba]), if_neg (by simp [hba]), List.cons_append]
  rw [recent, hdedup, List.reverse_concat, recent, (List.nodup_dedup l).erase_eq_filter,
    (List.nodup_reverse.mpr (List.nodup_dedup l)).erase_eq_filter, List.filter_reverse]

end MiniProject
