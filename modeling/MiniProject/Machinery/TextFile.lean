import Mathlib.Algebra.Order.Ring.Int
import Mathlib.Data.List.Basic

/-!
# Machinery/TextFile — a file read as text

What `open(path)` makes of a file: its bytes are decoded as UTF-8, strictly; the three ends of a
line become one (`newlines`); and the lines come one by one, each with its end.  Bytes are the
characters below 256.  Those below 128 are characters by themselves, whatever stands around them
(`decode_ascii_append`, `decode_append_ascii`), and a line has no `'\n'` but at its end
(`lines_spec`); joined again the lines are the text (`joined_lines`).  `fgets` gives the lines as
long as they fit into its buffer (`fgetsAll_flatMap`).
-/

namespace MiniProject

/-- UTF-8, byte by byte: how many bytes the character is still to have, the bounds of the next one,
and the value so far. -/
def decodeFrom (owed low high value : ℕ) : List Char → Option (List Char)
  | [] => if owed = 0 then some [] else none
  | c :: bytes =>
    let b := c.toNat
    match owed with
    | 0 =>
      if b < 0x80 then (decodeFrom 0 0 0 0 bytes).map (c :: ·)
      else if 0xC2 ≤ b ∧ b ≤ 0xDF then decodeFrom 1 0x80 0xBF (b - 0xC0) bytes
      else if 0xE0 ≤ b ∧ b ≤ 0xEF then
        decodeFrom 2 (if b = 0xE0 then 0xA0 else 0x80) (if b = 0xED then 0x9F else 0xBF) (b - 0xE0)
          bytes
      else if 0xF0 ≤ b ∧ b ≤ 0xF4 then
        decodeFrom 3 (if b = 0xF0 then 0x90 else 0x80) (if b = 0xF4 then 0x8F else 0xBF) (b - 0xF0)
          bytes
      else none
    | owed + 1 =>
      if low ≤ b ∧ b ≤ high then
        if owed = 0 then
          (decodeFrom 0 0 0 0 bytes).map (Char.ofNat (value * 64 + (b - 0x80)) :: ·)
        else decodeFrom owed 0x80 0xBF (value * 64 + (b - 0x80)) bytes
      else none

/-- `bytes.decode("utf-8")`; `none` is a `UnicodeDecodeError`. -/
def decode (bytes : List Char) : Option (List Char) := decodeFrom 0 0 0 0 bytes

/-- Universal newlines. -/
def newlines : List Char → List Char
  | [] => []
  | '\r' :: '\n' :: text => '\n' :: newlines text
  | '\r' :: text => '\n' :: newlines text
  | c :: text => c :: newlines text

/-- The lines of a text, with their ends. -/
def lines : List Char → List (List Char)
  | [] => []
  | c :: text =>
    if c = '\n' then [c] :: lines text
    else
      match lines text with
      | [] => [[c]]
      | line :: rest => (c :: line) :: rest

/-- What `fgets(line, size, file)` gives, one call after the other; the call under way has `room`
for more. -/
def fgetsFrom (size : ℕ) : ℕ → List Char → List (List Char)
  | _, [] => []
  | room, c :: text =>
    if c = '\n' ∨ room = 1 then [c] :: fgetsFrom size (size - 1) text
    else
      match fgetsFrom size (room - 1) text with
      | [] => [[c]]
      | line :: rest => (c :: line) :: rest

/-- …from the beginning of the file to its end. -/
def fgetsAll (size : ℕ) (text : List Char) : List (List Char) := fgetsFrom size (size - 1) text

example : decode ([0xC3, 0xA9, 0x2C].map Char.ofNat) = some ['é', ','] := by decide

example : decode ([0xC3, 0x2C].map Char.ofNat) = none := by decide

variable {bytes ascii text line : List Char}

/-! ## Decoding -/

/-- Bytes below 128 in front. -/
theorem decode_ascii_append (h : ∀ c ∈ ascii, c.toNat < 0x80) :
    decode (ascii ++ bytes) = (decode bytes).map (ascii ++ ·) := by
  induction ascii with
  | nil => simp
  | cons c ascii ih =>
    have hc : c.toNat < 0x80 := h c List.mem_cons_self
    have ih := ih fun c hc => h c (List.mem_cons_of_mem _ hc)
    rw [decode, List.cons_append, decodeFrom]
    simp only [hc, if_true]
    rw [← decode, ih, Option.map_map]
    rfl

theorem decode_ascii (h : ∀ c ∈ ascii, c.toNat < 0x80) : decode ascii = some ascii := by
  rw [← List.append_nil ascii, decode_ascii_append h]
  rfl

/-- Where nothing is owed the bounds are not looked at. -/
theorem decodeFrom_zero {low high value : ℕ} :
    decodeFrom 0 low high value bytes = decode bytes := by
  cases bytes <;> rfl

/-- No byte below 128 continues a character. -/
theorem decodeFrom_append_ascii (h : ∀ c ∈ ascii, c.toNat < 0x80) {owed low high value : ℕ}
    (hlow : owed ≠ 0 → 0x80 ≤ low) :
    decodeFrom owed low high value (bytes ++ ascii) =
      (decodeFrom owed low high value bytes).map (· ++ ascii) := by
  induction bytes generalizing owed low high value with
  | nil =>
    cases owed with
    | zero => exact decodeFrom_zero.trans (decode_ascii h)
    | succ owed =>
      cases ascii with
      | nil => rfl
      | cons c ascii =>
        have hc : ¬ low ≤ c.toNat := by
          have := h c List.mem_cons_self
          have := hlow (Nat.succ_ne_zero owed)
          omega
        simp [decodeFrom, hc]
  | cons c bytes ih =>
    have hzero : decodeFrom 0 0 0 0 (bytes ++ ascii) =
        (decodeFrom 0 0 0 0 bytes).map (· ++ ascii) := ih (absurd rfl)
    cases owed with
    | zero =>
      rw [List.cons_append, decodeFrom, decodeFrom]
      split_ifs <;> first | rfl | exact ih fun _ => by omega | simp [hzero, Function.comp_def]
    | succ owed =>
      rw [List.cons_append, decodeFrom, decodeFrom]
      split_ifs <;> first | rfl | exact ih fun _ => by omega | simp [hzero, Function.comp_def]

/-- …and behind. -/
theorem decode_append_ascii (h : ∀ c ∈ ascii, c.toNat < 0x80) :
    decode (bytes ++ ascii) = (decode bytes).map (· ++ ascii) :=
  decodeFrom_append_ascii h (absurd rfl)

/-! ## Lines -/

theorem not_mem_newlines (text : List Char) : '\r' ∉ newlines text := by
  fun_induction newlines text with
  | case1 => exact List.not_mem_nil
  | case2 text ih => exact List.not_mem_cons_of_ne_of_not_mem (by decide) ih
  | case3 text hne ih => exact List.not_mem_cons_of_ne_of_not_mem (by decide) ih
  | case4 c text hcrlf hcr ih => exact List.not_mem_cons_of_ne_of_not_mem (Ne.symm hcr) ih

theorem newlines_eq_self (h : '\r' ∉ text) : newlines text = text := by
  fun_induction newlines text with
  | case1 => rfl
  | case2 text ih => exact absurd List.mem_cons_self h
  | case3 text hne ih => exact absurd List.mem_cons_self h
  | case4 c text hcrlf hcr ih => rw [ih fun hmem => h (List.mem_cons_of_mem _ hmem)]

theorem flatten_lines (text : List Char) : (lines text).flatten = text := by
  fun_induction lines text with
  | case1 => rfl
  | case2 text ih => rw [List.flatten_cons, ih, List.singleton_append]
  | case3 c text hc hnil ih => rw [← ih, hnil]; rfl
  | case4 c text hc line rest heq ih => rw [← ih, heq]; rfl

/-- The characters of a line are those of the text. -/
theorem mem_of_mem_lines (h : line ∈ lines text) {c : Char} (hc : c ∈ line) : c ∈ text :=
  flatten_lines text ▸ List.mem_flatten_of_mem h hc

/-- **A line has its end at its end** only. -/
theorem lines_spec (h : line ∈ lines text) :
    ∃ front, '\n' ∉ front ∧ (line = front ∨ line = front ++ ['\n']) := by
  fun_induction lines text generalizing line with
  | case1 => cases h
  | case2 text ih =>
    rcases List.mem_cons.mp h with rfl | h
    · exact ⟨[], List.not_mem_nil, .inr rfl⟩
    · exact ih h
  | case3 c text hc hnil ih =>
    obtain rfl := List.mem_singleton.mp h
    exact ⟨[c], by simpa using Ne.symm hc, .inl rfl⟩
  | case4 c text hc first rest heq ih =>
    rw [heq] at ih
    rcases List.mem_cons.mp h with rfl | h
    · obtain ⟨front, hfront, hline⟩ := ih List.mem_cons_self
      refine ⟨c :: front, List.not_mem_cons_of_ne_of_not_mem (Ne.symm hc) hfront, ?_⟩
      exact hline.imp (congrArg (c :: ·)) (congrArg (c :: ·))
    · exact ih (List.mem_cons_of_mem _ h)

theorem not_mem_dropLast (h : line ∈ lines text) : '\n' ∉ line.dropLast := by
  obtain ⟨front, hfront, rfl | rfl⟩ := lines_spec h
  · exact fun hmem => hfront (List.dropLast_subset _ hmem)
  · rwa [List.dropLast_concat]

/-- One line. -/
theorem lines_singleton (h : '\n' ∉ line) : lines (line ++ ['\n']) = [line ++ ['\n']] := by
  induction line with
  | nil => rfl
  | cons c line ih =>
    have hc : c ≠ '\n' := fun hc => h (hc ▸ List.mem_cons_self)
    rw [List.cons_append, lines, if_neg hc, ih fun hmem => h (List.mem_cons_of_mem _ hmem)]

/-- A line in front of others. -/
theorem lines_append_line (h : '\n' ∉ line) (text : List Char) :
    lines (line ++ '\n' :: text) = (line ++ ['\n']) :: lines text := by
  induction line with
  | nil => rw [List.nil_append, lines, if_pos rfl, List.nil_append]
  | cons c line ih =>
    have hc : c ≠ '\n' := fun hc => h (hc ▸ List.mem_cons_self)
    rw [List.cons_append, lines, if_neg hc, ih fun hmem => h (List.mem_cons_of_mem _ hmem)]
    rfl

/-- A line that has no end. -/
theorem lines_of_notMem (hne : line ≠ []) (h : '\n' ∉ line) : lines line = [line] := by
  induction line with
  | nil => exact absurd rfl hne
  | cons c line ih =>
    have hc : c ≠ '\n' := fun hc => h (hc ▸ List.mem_cons_self)
    rw [lines, if_neg hc]
    rcases line with _ | ⟨d, line⟩
    · rfl
    · rw [ih (List.cons_ne_nil _ _) fun hmem => h (List.mem_cons_of_mem _ hmem)]

/-! ## Lines without their ends -/

/-- A line without its end. -/
def chomp (line : List Char) : List Char := if '\n' ∈ line then line.dropLast else line

theorem chomp_of_notMem (h : '\n' ∉ line) : chomp line = line := if_neg h

theorem chomp_concat (line : List Char) : chomp (line ++ ['\n']) = line := by
  rw [chomp, if_pos (List.mem_append_right _ (List.mem_singleton_self _)), List.dropLast_concat]

theorem chomp_cons {c : Char} (hc : c ≠ '\n') (hne : line ≠ []) :
    chomp (c :: line) = c :: chomp line := by
  obtain ⟨d, line, rfl⟩ := List.exists_cons_of_ne_nil hne
  simp only [chomp, List.mem_cons, Ne.symm hc, false_or, List.dropLast_cons_cons]
  split <;> rfl

theorem ne_nil_of_mem_lines (h : line ∈ lines text) : line ≠ [] := by
  fun_induction lines text generalizing line with
  | case1 => cases h
  | case2 text ih =>
    rcases List.mem_cons.mp h with rfl | h
    · exact List.cons_ne_nil _ _
    · exact ih h
  | case3 c text hc hnil ih =>
    obtain rfl := List.mem_singleton.mp h
    exact List.cons_ne_nil _ _
  | case4 c text hc first rest heq ih =>
    rw [heq] at ih
    rcases List.mem_cons.mp h with rfl | h
    · exact List.cons_ne_nil _ _
    · exact ih (List.mem_cons_of_mem _ h)

/-- The characters of a line without its end are those of the text. -/
theorem mem_of_mem_chomp {c : Char} (h : line ∈ (lines text).map chomp) (hc : c ∈ line) :
    c ∈ text := by
  obtain ⟨line', hline, rfl⟩ := List.mem_map.mp h
  refine mem_of_mem_lines hline ?_
  rw [chomp] at hc
  split at hc
  · exact List.dropLast_subset _ hc
  · exact hc

/-- Lines with a `'\n'` between each two, and one at the end or not. -/
def joined (trailing : Bool) : List (List Char) → List Char
  | [] => []
  | [line] => line ++ if trailing then ['\n'] else []
  | line :: rest => line ++ '\n' :: joined trailing rest

theorem joined_cons_cons {trailing : Bool} (c : Char) (line : List Char)
    (rest : List (List Char)) :
    joined trailing ((c :: line) :: rest) = c :: joined trailing (line :: rest) := by
  cases rest <;> rfl

/-- **Round trip**: the lines without their ends, joined again. -/
theorem joined_lines (text : List Char) :
    joined (text.getLast? = some '\n') ((lines text).map chomp) = text := by
  fun_induction lines text with
  | case1 => rfl
  | case2 text ih =>
    rcases text with _ | ⟨d, text⟩
    · rfl
    · have hne : lines (d :: text) ≠ [] := by
        intro hnil
        have hflat := flatten_lines (d :: text)
        rw [hnil] at hflat
        cases hflat
      obtain ⟨line, rest, heq⟩ := List.exists_cons_of_ne_nil hne
      rw [heq] at ih ⊢
      rw [List.getLast?_cons_cons]
      exact congrArg ('\n' :: ·) ih
  | case3 c text hc hnil ih =>
    have htext : text = [] := by rw [← flatten_lines text, hnil]; rfl
    subst htext
    simp [joined, chomp_of_notMem, Ne.symm hc, hc]
  | case4 c text hc line rest heq ih =>
    have hline : line ≠ [] := by
      refine ne_nil_of_mem_lines (?_ : line ∈ lines text)
      rw [heq]
      exact List.mem_cons_self
    rcases text with _ | ⟨d, text⟩
    · cases heq
    · rw [List.map_cons, chomp_cons hc hline, List.getLast?_cons_cons, joined_cons_cons,
        ← List.map_cons, ← heq, ih]

/-! ## `fgets` -/

/-- A line that fits. -/
theorem fgetsFrom_append_line {size room : ℕ} (h : '\n' ∉ line) (hroom : line.length < room)
    (text : List Char) : fgetsFrom size room (line ++ '\n' :: text)
      = (line ++ ['\n']) :: fgetsAll size text := by
  induction line generalizing room with
  | nil => rw [List.nil_append, fgetsFrom, if_pos (.inl rfl), List.nil_append, fgetsAll]
  | cons c line ih =>
    have hc : c ≠ '\n' := fun hc => h (hc ▸ List.mem_cons_self)
    rw [List.length_cons] at hroom
    have hrest : fgetsFrom size (room - 1) (line ++ '\n' :: text) = _ :=
      ih (fun hmem => h (List.mem_cons_of_mem _ hmem)) (by omega)
    rw [List.cons_append, fgetsFrom, if_neg (not_or.mpr ⟨hc, by omega⟩), hrest]
    rfl

/-- **Lines that fit are read as they are.** -/
theorem fgetsAll_flatMap {size : ℕ} {ls : List (List Char)} (h : ∀ line ∈ ls, '\n' ∉ line)
    (hroom : ∀ line ∈ ls, line.length + 1 < size) :
    fgetsAll size (ls.flatMap (· ++ ['\n'])) = ls.map (· ++ ['\n']) := by
  induction ls with
  | nil => rfl
  | cons line ls ih =>
    obtain ⟨hline, h⟩ := List.forall_mem_cons.mp h
    obtain ⟨hfits, hroom⟩ := List.forall_mem_cons.mp hroom
    rw [List.flatMap_cons, List.append_assoc, List.singleton_append, fgetsAll,
      fgetsFrom_append_line hline (by omega), ih h hroom, List.map_cons]

end MiniProject
