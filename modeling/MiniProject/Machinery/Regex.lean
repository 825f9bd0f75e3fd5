import Mathlib.Data.List.Infix
import Mathlib.Data.List.TakeWhile

/-!
# Machinery/Regex — a search that backtracks

Patterns of characters and of groups `(p+)`, which is as far as a line of fields needs it.  A group
takes as much as it can, and less if the rest of the pattern does not match behind that; a search
tries one position after the other.  What is found fits (`fits_of_search`), and a group in front of
what ends it takes all of it (`matchAt_group`).
-/

namespace MiniProject

/-- A character, or one or more characters of a class, captured. -/
inductive Item
  | lit (c : Char)
  | group (p : Char → Bool)

/-- The match at the beginning of a text: what its groups have captured. -/
def matchAt : List Item → List Char → Option (List (List Char))
  | [], _ => some []
  | .lit _ :: _, [] => none
  | .lit c :: items, x :: text => if x = c then matchAt items text else none
  | .group p :: items, text =>
    ((List.range (text.takeWhile p).length).reverse).findSome? fun k =>
      (matchAt items (text.drop (k + 1))).map (text.take (k + 1) :: ·)

/-- `re.search`: the first position with a match. -/
def search (items : List Item) (text : List Char) : Option (List (List Char)) :=
  text.tails.findSome? (matchAt items)

/-- A text that a pattern describes, with what its groups are. -/
inductive Fits : List Item → List (List Char) → List Char → Prop
  | nil : Fits [] [] []
  | lit {c items caps text} (h : Fits items caps text) : Fits (.lit c :: items) caps (c :: text)
  | group {p : Char → Bool} {g items caps text} (hne : g ≠ []) (hall : ∀ c ∈ g, p c)
    (h : Fits items caps text) : Fits (.group p :: items) (g :: caps) (g ++ text)

variable {items : List Item} {caps : List (List Char)} {text g : List Char} {p : Char → Bool}

/-- Characters up to the end of the first stretch of a class are of the class. -/
theorem forall_mem_take_takeWhile {k : ℕ} (hk : k ≤ (text.takeWhile p).length) :
    ∀ c ∈ text.take k, p c := by
  intro c hc
  have htake : text.take k = (text.takeWhile p).take k := by
    have hpre := List.takeWhile_prefix (l := text) p
    rw [List.prefix_iff_eq_take.mp hpre, List.take_take, Nat.min_eq_left]
    simpa using hk
  rw [htake] at hc
  exact List.mem_takeWhile_imp (List.mem_of_mem_take hc)

/-- **A match fits** what it has gone over. -/
theorem fits_of_matchAt (h : matchAt items text = some caps) :
    ∃ front rest, text = front ++ rest ∧ Fits items caps front := by
  induction items generalizing text caps with
  | nil =>
    cases h
    exact ⟨[], text, rfl, .nil⟩
  | cons item items ih =>
    cases item with
    | lit c =>
      cases text with
      | nil => cases h
      | cons x text =>
        obtain ⟨rfl, hrest⟩ := Option.ite_none_right_eq_some.mp h
        obtain ⟨front, rest, rfl, hfits⟩ := ih hrest
        exact ⟨x :: front, rest, rfl, .lit hfits⟩
    | group p =>
      obtain ⟨k, hk, h⟩ := List.exists_of_findSome?_eq_some h
      rw [List.mem_reverse, List.mem_range] at hk
      obtain ⟨caps, hmatch, rfl⟩ := Option.map_eq_some_iff.mp h
      obtain ⟨front, rest, hrest, hfits⟩ := ih hmatch
      have hlen : k + 1 ≤ text.length :=
        Nat.le_trans hk (List.takeWhile_prefix p).length_le
      refine ⟨text.take (k + 1) ++ front, rest, ?_, .group ?_ ?_ hfits⟩
      · rw [List.append_assoc, ← hrest, List.take_append_drop]
      · refine List.ne_nil_of_length_pos ?_
        rw [List.length_take, Nat.min_eq_left hlen]
        exact Nat.succ_pos k
      · exact forall_mem_take_takeWhile hk

/-- …and so does what a search finds. -/
theorem fits_of_search (h : search items text = some caps) :
    ∃ before front rest, text = before ++ front ++ rest ∧ Fits items caps front := by
  obtain ⟨tail, htail, hmatch⟩ := List.exists_of_findSome?_eq_some h
  obtain ⟨before, rfl⟩ := (List.mem_tails tail text).mp htail
  obtain ⟨front, rest, rfl, hfits⟩ := fits_of_matchAt hmatch
  exact ⟨before, front, rest, (List.append_assoc _ _ _).symm, hfits⟩

theorem Fits.of_lit {c : Char} (h : Fits (.lit c :: items) caps text) :
    ∃ rest, text = c :: rest ∧ Fits items caps rest := by
  cases h with
  | lit h => exact ⟨_, rfl, h⟩

theorem Fits.of_group (h : Fits (.group p :: items) caps text) :
    ∃ g tail rest, caps = g :: tail ∧ text = g ++ rest ∧ g ≠ [] ∧ (∀ c ∈ g, p c) ∧
      Fits items tail rest := by
  cases h with
  | group hne hall h => exact ⟨_, _, _, rfl, rfl, hne, hall, h⟩

/-- A word of the pattern stands in the text. -/
theorem Fits.of_word {word : List Char} (h : Fits (word.map .lit ++ items) caps text) :
    ∃ rest, text = word ++ rest ∧ Fits items caps rest := by
  induction word generalizing text with
  | nil => exact ⟨text, rfl, h⟩
  | cons c word ih =>
    obtain ⟨rest, rfl, hrest⟩ := h.of_lit
    obtain ⟨rest, rfl, hfits⟩ := ih hrest
    exact ⟨rest, rfl, hfits⟩

theorem search_of_matchAt (h : matchAt items text = some caps) : search items text = some caps := by
  cases text <;> simp [search, h]

theorem matchAt_lit (c : Char) : matchAt (.lit c :: items) (c :: text) = matchAt items text := by
  rw [matchAt, if_pos rfl]

/-- A pattern that starts with a word. -/
theorem matchAt_word (word : List Char) :
    matchAt (word.map .lit ++ items) (word ++ text) = matchAt items text := by
  induction word with
  | nil => rfl
  | cons c word ih => exact (matchAt_lit c).trans ih

/-- **A group takes all that is of its class** if the rest matches behind it. -/
theorem matchAt_group (hne : g ≠ []) (hall : ∀ c ∈ g, p c) (hend : ∀ c ∈ text.head?, p c = false)
    (h : matchAt items text = some caps) :
    matchAt (.group p :: items) (g ++ text) = some (g :: caps) := by
  have hnone : text.takeWhile p = [] := by
    cases text with
    | nil => rfl
    | cons c text => rw [List.takeWhile_cons_of_neg (by simp [hend c rfl])]
  have hwhile : (g ++ text).takeWhile p = g := by
    rw [List.takeWhile_append_of_pos hall, hnone, List.append_nil]
  obtain ⟨n, hn⟩ := Nat.exists_eq_add_one_of_ne_zero fun h0 => hne (List.length_eq_zero_iff.mp h0)
  rw [matchAt, hwhile, hn, List.range_succ, List.reverse_append, List.reverse_singleton,
    List.singleton_append, List.findSome?_cons]
  have hdrop : (g ++ text).drop (n + 1) = text := by rw [← hn, List.drop_left]
  have htake : (g ++ text).take (n + 1) = g := by rw [← hn, List.take_left]
  rw [hdrop, htake, h]
  rfl

end MiniProject
