import MiniProject.Shell.Lexemes

/-!
# Shell/Quoting — every list of words can be written down

A word is quoted in one of two styles: between single quotes, each `'` of it written `'\''`, or
between double quotes with a backslash before each `"` and `\`.  Either way it is a run of fragments
that stands for the word (`Style.frags_quoted`), so quoted words with blanks between them are a line
of the lexical grammar with these words and no others (`lexes_written`), and `maketoken` gives them
back (`maketoken_written`).
-/

namespace MiniProject.Shell

/-- The two ways of quoting a word. -/
inductive Style
  | single | double
  deriving DecidableEq, Repr

namespace Style

/-- The quote a word begins and ends with. -/
def mark : Style → Char
  | .single => '\''
  | .double => '"'

/-- A character of the word between them. -/
def char : Style → Char → Text
  | .single, c => if c = '\'' then ['\'', '\\', '\'', '\''] else [c]
  | .double, c => if c = '"' ∨ c = '\\' then ['\\', c] else [c]

/-- The word as it is written. -/
def quoted (style : Style) (word : Text) : Text :=
  style.mark :: (word.flatMap style.char ++ [style.mark])

theorem quoted_ne_nil (style : Style) (word : Text) : style.quoted word ≠ [] := List.cons_ne_nil _ _

/-- Single quotes that are open with `body` between them: a `'` of the word closes them, is escaped,
and opens new ones. -/
theorem frags_single {body : Text} (hbody : '\'' ∉ body) (word : Text) :
    Frags ('\'' :: (body ++ (word.flatMap single.char ++ ['\'']))) (body ++ word) := by
  induction word generalizing body with
  | nil => simpa using Frags.cons (.single hbody) .nil
  | cons c word ih =>
    by_cases hc : c = '\''
    · have hrest : Frags ('\'' :: ([] ++ (word.flatMap single.char ++ ['\'']))) ([] ++ word) :=
        ih List.not_mem_nil
      have hall := Frags.cons (.single hbody) (.cons (.escape '\'') hrest)
      simpa [char, hc] using hall
    · have hbody' : '\'' ∉ body ++ [c] := by
        simpa [hbody] using fun h : '\'' = c => hc h.symm
      simpa [char, hc] using ih hbody'

/-- Between double quotes each character stands for itself. -/
theorem dqBody_double (after : Option Char) (word : Text) :
    DqBody after (word.flatMap double.char) word := by
  induction word with
  | nil => exact .nil
  | cons c word ih =>
    rw [List.flatMap_cons]
    by_cases hc : c = '"' ∨ c = '\\'
    · rw [char, if_pos hc]
      exact .escape hc ih
    · obtain ⟨hquote, hback⟩ := not_or.mp hc
      rw [char, if_neg hc]
      exact .char hquote (fun h => absurd h hback) ih

/-- **A quoted word is a run of fragments that stands for it.** -/
theorem frags_quoted (style : Style) (word : Text) : Frags (style.quoted word) word := by
  cases style with
  | single =>
    have hbody : '\'' ∉ ([] : Text) := List.not_mem_nil
    exact frags_single hbody word
  | double =>
    have hbody := Frags.cons (.double (dqBody_double _ word)) .nil
    rwa [List.append_nil, List.append_nil] at hbody

end Style

/-- A non-empty run of spaces and tabs. -/
abbrev Gap := { gap : Text // gap ≠ [] ∧ ∀ c ∈ gap, c = ' ' ∨ c = '\t' }

namespace Gap

theorem isBlank (gap : Gap) : ∀ c ∈ gap.1, isBlank c := by
  intro c hc
  rcases gap.2.2 c hc with rfl | rfl <;> rfl

/-- A gap ends a word. -/
theorem ends (gap : Gap) (cs : Text) : Ends (gap.1 ++ cs) := by
  obtain ⟨c, rest, hgap⟩ := List.exists_cons_of_ne_nil gap.2.1
  intro d hd
  rw [hgap] at hd
  obtain rfl : c = d := by simpa using hd
  exact .inl (gap.isBlank c (by simp [hgap]))

end Gap

/-- Blanks in front of a line are skipped. -/
theorem Lexes.blanks {gap cs : Text} {ts : List Token} {o : Option Text}
    (hgap : ∀ c ∈ gap, isBlank c) (h : Lexes cs ts o) : Lexes (gap ++ cs) ts o := by
  induction gap with
  | nil => exact h
  | cons c gap ih =>
    have ⟨hc, hgap⟩ := List.forall_mem_cons.mp hgap
    exact .blank hc (ih hgap)

/-- Words in their styles, joined by the gaps in turn. -/
def written : List (Style × Text) → (ℕ → Gap) → Text
  | [], _ => []
  | [word], _ => word.1.quoted word.2
  | word :: next :: words, gaps =>
    word.1.quoted word.2 ++ ((gaps 0).1 ++ written (next :: words) fun i => gaps (i + 1))

/-- **The words of such a line, and no other token.** -/
theorem lexes_written (words : List (Style × Text)) (gaps : ℕ → Gap) :
    Lexes (written words gaps) (words.map fun word => ⟨.word, word.2⟩) none := by
  induction words generalizing gaps with
  | nil => exact .nil
  | cons word words ih =>
    have hfrags := word.1.frags_quoted word.2
    cases words with
    | nil =>
      have hlast := Lexes.word (word.1.quoted_ne_nil _) hfrags (show Ends [] from nofun) .nil
      rwa [List.append_nil] at hlast
    | cons next words =>
      have hrest := Lexes.blanks (gaps 0).isBlank (ih fun i => gaps (i + 1))
      exact .word (word.1.quoted_ne_nil _) hfrags ((gaps 0).ends _) hrest

/-- **What is quoted is read back**: fewer words than `tokens` has places, each of them shorter than
the array for one. -/
theorem maketoken_written (words : List (Style × Text)) (gaps : ℕ → Gap)
    (hcount : words.length < maxtok) (hlen : ∀ word ∈ words, word.2.length < wordSize) :
    maketoken (written words gaps) = .ok (words.map fun word => ⟨.word, word.2⟩) := by
  have hroom : Room wordSize maxtok 0 (OpenQuote (written words gaps))
      (words.map fun word => ⟨.word, word.2⟩) none := by
    refine room_of_lt (fun t ht => ?_) nofun (by simpa using hcount)
    obtain ⟨word, hword, rfl⟩ := List.mem_map.mp ht
    exact hlen word hword
  rw [maketoken_eq_of_lexes (lexes_written words gaps) hroom, if_pos rfl]

/-- `it's`, the empty word and `a "b"\`. -/
theorem maketoken_written_its : maketoken (written [(.single, "it's".toList), (.single, []),
      (.double, "a \"b\"\\".toList)] fun _ => ⟨[' ', '\t'], by simp⟩)
    = .ok [⟨.word, "it's".toList⟩, ⟨.word, []⟩, ⟨.word, "a \"b\"\\".toList⟩] :=
  maketoken_written _ _ (by decide) (by simp [wordSize])

end MiniProject.Shell
