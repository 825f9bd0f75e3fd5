import MiniProject.Shell.Token

/-!
# Shell/Grammar — the command-line grammar, as concrete syntax trees

    line  := empty | group (sep group)* ['&']        sep   := ';' | '&'
    group := cmd ('|' cmd)*                          redir := '<' | '>' | '>>'
    cmd   := WORD (WORD | redir WORD)*

A tree keeps the tokens it was read from at its leaves, each under a proof of its type, so `tokens`
is the text of a tree and a list is derivable when it is the text of some tree.  The grammar has a
parameter `S`: token types that may stand, meaning nothing, wherever an argument may.  The grammar
above is the one with no such type.
-/

namespace MiniProject.Shell

open TokenType

/-- A token of a type that `p` accepts. -/
abbrev Tok (p : TokenType → Prop) := {t : Token // p t.type}

variable {S : TokenType → Prop}

/-- What may follow the first word of a command. -/
inductive Item (S : TokenType → Prop)
  | word (w : Tok (· = .word))
  | redir (r : Tok IsRedir) (w : Tok (· = .word))
  | stray (t : Tok S)

/-- `cmd := WORD item*` -/
structure Cmd (S : TokenType → Prop) where
  head : Tok (· = .word)
  items : List (Item S)

/-- `group := cmd ('|' cmd)*` -/
structure Group (S : TokenType → Prop) where
  head : Cmd S
  tail : List (Tok (· = .pipe) × Cmd S)

/-- A line that is not empty: `group (sep group)* ['&']`. -/
structure Groups (S : TokenType → Prop) where
  head : Group S
  tail : List (Tok IsSep × Group S)
  last : Option (Tok (· = .amp))

/-- A whole line; `none` is the empty one. -/
abbrev Line (S : TokenType → Prop) := Option (Groups S)

/-! ## The text of a tree -/

/-- The tokens of an item. -/
def Item.tokens : Item S → List Token
  | .word w => [w.1]
  | .redir r w => [r.1, w.1]
  | .stray t => [t.1]

/-- The tokens of a command after its first word. -/
def itemTokens (items : List (Item S)) : List Token := items.flatMap Item.tokens

@[simp] theorem itemTokens_nil : itemTokens ([] : List (Item S)) = [] := rfl

@[simp] theorem itemTokens_cons (i : Item S) (items : List (Item S)) :
    itemTokens (i :: items) = i.tokens ++ itemTokens items := by simp [itemTokens]

/-- The tokens of a command. -/
def Cmd.tokens (c : Cmd S) : List Token := c.head.1 :: itemTokens c.items

/-- The tokens of a group after its first command. -/
def pipeTokens (tail : List (Tok (· = .pipe) × Cmd S)) : List Token :=
  tail.flatMap fun pc => pc.1.1 :: pc.2.tokens

@[simp] theorem pipeTokens_nil : pipeTokens ([] : List (Tok (· = .pipe) × Cmd S)) = [] := rfl

@[simp] theorem pipeTokens_cons (p : Tok (· = .pipe)) (c : Cmd S)
    (tail : List (Tok (· = .pipe) × Cmd S)) :
    pipeTokens ((p, c) :: tail) = p.1 :: (c.tokens ++ pipeTokens tail) := by simp [pipeTokens]

/-- The tokens of a group. -/
def Group.tokens (g : Group S) : List Token := g.head.tokens ++ pipeTokens g.tail

/-- The tokens of a line after its first group, less a closing `&`. -/
def sepTokens (tail : List (Tok IsSep × Group S)) : List Token :=
  tail.flatMap fun sg => sg.1.1 :: sg.2.tokens

@[simp] theorem sepTokens_nil : sepTokens ([] : List (Tok IsSep × Group S)) = [] := rfl

@[simp] theorem sepTokens_cons (s : Tok IsSep) (g : Group S) (tail : List (Tok IsSep × Group S)) :
    sepTokens ((s, g) :: tail) = s.1 :: (g.tokens ++ sepTokens tail) := by simp [sepTokens]

/-- The optional closing `&`. -/
def lastTokens (last : Option (Tok (· = .amp))) : List Token := (last.map Subtype.val).toList

/-- The tokens of a line that is not empty. -/
def Groups.tokens (l : Groups S) : List Token :=
  l.head.tokens ++ (sepTokens l.tail ++ lastTokens l.last)

/-- The tokens of a line. -/
def Line.tokens (l : Line S) : List Token := (l.map Groups.tokens).getD []

/-! ## Stray tokens -/

/-- A token is stray only where the grammar allows it. -/
def Legal (S : TokenType → Prop) (t : Token) : Prop := t.type.IsStray → S t.type

/-- A token of a type the grammar names is legal. -/
theorem Tok.legal {p : TokenType → Prop} (x : Tok p) (hp : ∀ u, p u → ¬ u.IsStray) :
    Legal S x.1 := fun h => absurd h (hp _ x.2)

theorem legal_word (w : Tok (· = .word)) : Legal S w.1 := Tok.legal w (by rintro u rfl; decide)

theorem legal_redir (r : Tok IsRedir) : Legal S r.1 :=
  Tok.legal r (by rintro u (rfl | rfl | rfl) <;> decide)

theorem Item.legal (i : Item S) : ∀ t ∈ i.tokens, Legal S t := by
  intro t ht
  cases i with
  | word w => obtain rfl := List.mem_singleton.mp ht; exact legal_word w
  | redir r w =>
    rcases List.mem_pair.mp ht with rfl | rfl
    · exact legal_redir r
    · exact legal_word w
  | stray s => obtain rfl := List.mem_singleton.mp ht; exact fun _ => s.2

theorem Cmd.legal (c : Cmd S) : ∀ t ∈ c.tokens, Legal S t := by
  intro t ht
  rcases List.mem_cons.mp ht with rfl | ht
  · exact legal_word c.head
  · obtain ⟨i, -, hi⟩ := List.mem_flatMap.mp ht
    exact i.legal t hi

theorem Group.legal (g : Group S) : ∀ t ∈ g.tokens, Legal S t := by
  intro t ht
  rcases List.mem_append.mp ht with ht | ht
  · exact g.head.legal t ht
  · obtain ⟨⟨p, c⟩, -, hpc⟩ := List.mem_flatMap.mp ht
    rcases List.mem_cons.mp hpc with rfl | hc
    · exact Tok.legal p (by rintro u rfl; decide)
    · exact c.legal t hc

/-- **A stray token of a line is one the grammar allows.** -/
theorem Line.legal (l : Line S) : ∀ t ∈ l.tokens, Legal S t := by
  intro t ht
  obtain _ | l := l
  · exact absurd ht List.not_mem_nil
  rcases List.mem_append.mp ht with ht | ht
  · exact l.head.legal t ht
  rcases List.mem_append.mp ht with ht | ht
  · obtain ⟨⟨s, g⟩, -, hsg⟩ := List.mem_flatMap.mp ht
    rcases List.mem_cons.mp hsg with rfl | hg
    · exact Tok.legal s (by rintro u (rfl | rfl) <;> decide)
    · exact g.legal t hg
  · rw [lastTokens, Option.toList_map] at ht
    obtain ⟨a, -, rfl⟩ := List.mem_map.mp ht
    exact Tok.legal (p := (· = .amp)) a (by rintro u rfl; decide)

/-! ## Derivability -/

/-- **A token list is derivable** when it is the text of a tree. -/
def Derivable (S : TokenType → Prop) (ts : List Token) : Prop := ∃ l : Line S, l.tokens = ts

/-- No token type stands for nothing: the grammar displayed above. -/
abbrev NoStray : TokenType → Prop := fun _ => False

end MiniProject.Shell
