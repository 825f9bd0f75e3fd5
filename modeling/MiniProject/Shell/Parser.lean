import MiniProject.Machinery.Outcome
import MiniProject.Shell.Grammar

/-!
# Shell/Parser — `parsing` accepts exactly the grammar's token lists

`parsing` is a four-state automaton.  In its state 1, inside a command, it has no branch for the
three token types the lexer never emits and passes over them, so its language is the grammar with
those as stray tokens (`parsing_eq_ok_iff`); on the lists a lexer can produce it is the grammar
itself.

The engine is one description of what state 1 accepts, `accepts_args_iff`: the rest of a command,
then of its group, then of its line.  The other three states want one more word first.
-/

namespace MiniProject.Shell

open TokenType

/-! ## The automaton -/

/-- The parser's `state`: 0, 1, 2 and 3 in this order. -/
inductive ParseState
  | start | args | target | amp
  deriving DecidableEq, Repr

/-- One round of the loop of `parsing`; an error carries the line it prints. -/
def advance : ParseState → TokenType → Except Text ParseState
  | .start, t => if t = .word then .ok .args else .error invalidSyntax
  | .args, t =>
    if t = .word then .ok .args
    else if t = .lt ∨ t = .gt ∨ t = .gtgt then .ok .target
    else if t = .pipe ∨ t = .semi then .ok .start
    else if t = .amp then .ok .amp
    else .ok .args -- no `else` in the source: the state stays
  | .target, t => if t = .word then .ok .args else .error invalidSyntax
  | .amp, t => if t = .word then .ok .args else .error invalidSyntax

/-- What `parsing` does once the tokens are spent. -/
def ParseState.finish : ParseState → Except Text Unit
  | .start => .error invalidSyntax
  | .target => .error invalidSyntax
  | .args => .ok ()
  | .amp => .ok ()

/-- The loop of `parsing` from a state. -/
def parseFrom : ParseState → List Token → Except Text Unit
  | s, [] => s.finish
  | s, t :: ts => advance s t.type >>= fun s' => parseFrom s' ts

/-- `parsing`: `.ok` is its 1, an error its 0 with the line it prints. -/
def parsing (tokens : List Token) : Except Text Unit :=
  if tokens.length = 0 then .ok () else parseFrom .start tokens

/-! ## What each state accepts -/

/-- The loop accepts `ts` from state `s`. -/
def Accepts (s : ParseState) (ts : List Token) : Prop := parseFrom s ts = .ok ()

@[simp] theorem accepts_nil (s : ParseState) : Accepts s [] ↔ s = .args ∨ s = .amp := by
  cases s <;> simp [Accepts, parseFrom, ParseState.finish]

theorem accepts_cons (s : ParseState) (t : Token) (ts : List Token) :
    Accepts s (t :: ts) ↔ ∃ s', advance s t.type = .ok s' ∧ Accepts s' ts := by
  rw [Accepts, parseFrom]
  exact bind_eq_ok

/-- Outside a command only a word is accepted, and it opens one. -/
theorem accepts_cons_of_ne_args {s : ParseState} (hs : s ≠ .args) (t : Token) (ts : List Token) :
    Accepts s (t :: ts) ↔ t.type = .word ∧ Accepts .args ts := by
  rw [accepts_cons]
  by_cases h : t.type = .word
  · cases s <;> simp_all [advance]
  · cases s <;> simp_all [advance]

/-- Inside a command the type of the next token names the state it leads to. -/
theorem accepts_args_cons {t : Token} {s : ParseState} (h : advance .args t.type = .ok s)
    (ts : List Token) : Accepts .args (t :: ts) ↔ Accepts s ts := by
  rw [accepts_cons, h]
  exact ⟨fun ⟨_, h', h''⟩ => by cases h'; exact h'', fun h' => ⟨s, rfl, h'⟩⟩

section Advance

variable {t : TokenType}

theorem advance_args_word (h : t = .word) : advance .args t = .ok .args := by subst h; rfl

theorem advance_args_redir (h : t.IsRedir) : advance .args t = .ok .target := by
  rcases h with rfl | rfl | rfl <;> rfl

theorem advance_args_pipe (h : t = .pipe) : advance .args t = .ok .start := by subst h; rfl

theorem advance_args_stray (h : t.IsStray) : advance .args t = .ok .args := by
  rcases h with rfl | rfl | rfl <;> rfl

/-- After a separator a word has to follow, or, after `&`, the end. -/
theorem advance_args_sep (h : t.IsSep) :
    ∃ s, advance .args t = .ok s ∧ s ≠ .args ∧ (t = .amp → s = .amp) := by
  rcases h with rfl | rfl
  · exact ⟨.start, rfl, nofun, nofun⟩
  · exact ⟨.amp, rfl, nofun, fun _ => rfl⟩

end Advance

/-! ## Trees are accepted

Reading a complete part of a tree from inside a command ends inside a command again, so the parser
accepts what follows the part exactly when it accepts the whole. -/

variable {S : TokenType → Prop}

theorem accepts_itemTokens (hS : ∀ t, S t → t.IsStray) (items : List (Item S)) (ts : List Token) :
    Accepts .args (itemTokens items ++ ts) ↔ Accepts .args ts := by
  induction items with
  | nil => rfl
  | cons item items ih =>
    rw [itemTokens_cons, List.append_assoc, ← ih]
    cases item with
    | word w => exact accepts_args_cons (advance_args_word w.2) _
    | redir r w =>
      refine (accepts_args_cons (advance_args_redir r.2) _).trans ?_
      exact (accepts_cons_of_ne_args (by decide) w.1 _).trans (and_iff_right w.2)
    | stray t => exact accepts_args_cons (advance_args_stray (hS _ t.2)) _

/-- A command, read where one may begin. -/
theorem accepts_cmdTokens (hS : ∀ t, S t → t.IsStray) {s : ParseState} (hs : s ≠ .args)
    (c : Cmd S) (ts : List Token) : Accepts s (c.tokens ++ ts) ↔ Accepts .args ts := by
  rw [Cmd.tokens, List.cons_append, accepts_cons_of_ne_args hs, accepts_itemTokens hS]
  exact and_iff_right c.head.2

theorem accepts_pipeTokens (hS : ∀ t, S t → t.IsStray) (tail : List (Tok (· = .pipe) × Cmd S))
    (ts : List Token) : Accepts .args (pipeTokens tail ++ ts) ↔ Accepts .args ts := by
  induction tail with
  | nil => rfl
  | cons pc tail ih =>
    obtain ⟨p, c⟩ := pc
    rw [pipeTokens_cons, List.cons_append, List.append_assoc,
      accepts_args_cons (advance_args_pipe p.2), accepts_cmdTokens hS (by decide), ih]

/-- A group, read where one may begin. -/
theorem accepts_groupTokens (hS : ∀ t, S t → t.IsStray) {s : ParseState} (hs : s ≠ .args)
    (g : Group S) (ts : List Token) : Accepts s (g.tokens ++ ts) ↔ Accepts .args ts := by
  rw [Group.tokens, List.append_assoc, accepts_cmdTokens hS hs, accepts_pipeTokens hS]

theorem accepts_sepTokens (hS : ∀ t, S t → t.IsStray) (tail : List (Tok IsSep × Group S))
    (ts : List Token) : Accepts .args (sepTokens tail ++ ts) ↔ Accepts .args ts := by
  induction tail with
  | nil => rfl
  | cons sg tail ih =>
    obtain ⟨sep, g⟩ := sg
    obtain ⟨s, hs, hne, -⟩ := advance_args_sep sep.2
    rw [sepTokens_cons, List.cons_append, List.append_assoc, accepts_args_cons hs,
      accepts_groupTokens hS hne, ih]

theorem accepts_lastTokens (last : Option (Tok (· = .amp))) : Accepts .args (lastTokens last) := by
  cases last with
  | none => simp [lastTokens]
  | some a =>
    obtain ⟨s, hs, -, hamp⟩ := advance_args_sep (Or.inr a.2)
    exact (accepts_args_cons hs []).mpr (by simp [hamp a.2])

/-! ## What is accepted is a tree -/

/-- The rest of a line after the first word of a command: of the command, of its group, of the
line. -/
structure Rest (S : TokenType → Prop) where
  items : List (Item S)
  pipes : List (Tok (· = .pipe) × Cmd S)
  seps : List (Tok IsSep × Group S)
  last : Option (Tok (· = .amp))

namespace Rest

/-- The tokens of the rest of a line. -/
def tokens (r : Rest S) : List Token :=
  itemTokens r.items ++ (pipeTokens r.pipes ++ (sepTokens r.seps ++ lastTokens r.last))

/-- The group that a first word and the rest of the line open. -/
def group (w : Tok (· = .word)) (r : Rest S) : Group S := ⟨⟨w, r.items⟩, r.pipes⟩

/-- Nothing more. -/
def nil : Rest S := ⟨[], [], [], none⟩

/-- One more item in front. -/
def consItem (i : Item S) (r : Rest S) : Rest S := { r with items := i :: r.items }

/-- A pipe and the first word of the next command in front. -/
def consPipe (p : Tok (· = .pipe)) (w : Tok (· = .word)) (r : Rest S) : Rest S :=
  { r with items := [], pipes := (p, ⟨w, r.items⟩) :: r.pipes }

/-- A separator and the first word of the next group in front. -/
def consSep (s : Tok IsSep) (w : Tok (· = .word)) (r : Rest S) : Rest S :=
  { r with items := [], pipes := [], seps := (s, group w r) :: r.seps }

@[simp] theorem tokens_nil : (nil : Rest S).tokens = [] := rfl

@[simp] theorem tokens_consItem (i : Item S) (r : Rest S) :
    (r.consItem i).tokens = i.tokens ++ r.tokens := by
  simp [tokens, consItem, itemTokens]

@[simp] theorem tokens_consPipe (p : Tok (· = .pipe)) (w : Tok (· = .word)) (r : Rest S) :
    (r.consPipe p w).tokens = p.1 :: w.1 :: r.tokens := by
  simp [tokens, consPipe, itemTokens, pipeTokens, Cmd.tokens]

@[simp] theorem tokens_consSep (s : Tok IsSep) (w : Tok (· = .word)) (r : Rest S) :
    (r.consSep s w).tokens = s.1 :: w.1 :: r.tokens := by
  simp [tokens, consSep, group, itemTokens, pipeTokens, sepTokens, Group.tokens, Cmd.tokens]

/-- The line a first word and its rest make. -/
def line (w : Tok (· = .word)) (r : Rest S) : Groups S := ⟨group w r, r.seps, r.last⟩

theorem tokens_line (w : Tok (· = .word)) (r : Rest S) : (line w r).tokens = w.1 :: r.tokens := by
  simp [line, group, tokens, Groups.tokens, Group.tokens, Cmd.tokens]

end Rest

/-- **What the parser accepts inside a command is the rest of a line.**  By induction on the length,
for a redirection, a pipe or a separator is read together with the word that has to follow. -/
theorem exists_rest {ts : List Token} (hS : ∀ t ∈ ts, t.type.IsStray → S t.type)
    (h : Accepts .args ts) : ∃ r : Rest S, r.tokens = ts := by
  induction hn : ts.length using Nat.strongRecOn generalizing ts with
  | ind n ih =>
    have next : ∀ {us : List Token}, us.length < ts.length → us ⊆ ts → Accepts .args us →
        ∃ r : Rest S, r.tokens = us := fun hlt hsub hus =>
      ih _ (hn ▸ hlt) (fun t ht => hS t (hsub ht)) hus rfl
    have word : ∀ {s : ParseState} {us : List Token}, s ≠ .args → us.length < ts.length →
        us ⊆ ts → Accepts s us → us ≠ [] →
        ∃ (w : Tok (· = .word)) (r : Rest S), us = w.1 :: r.tokens := by
      intro s us hs hlt hsub hus hne
      obtain ⟨w, us, rfl⟩ := List.exists_cons_of_ne_nil hne
      obtain ⟨hw, hus⟩ := (accepts_cons_of_ne_args hs w us).mp hus
      obtain ⟨r, rfl⟩ := next (by simp at hlt; omega) (fun t ht => hsub (by simp [ht])) hus
      exact ⟨⟨w, hw⟩, r, rfl⟩
    cases ts with
    | nil => exact ⟨.nil, rfl⟩
    | cons t us =>
      have hlt : us.length < (t :: us).length := by simp
      have hsub : us ⊆ t :: us := List.subset_cons_self t us
      obtain ⟨s, hs, hus⟩ := (accepts_cons _ _ _).mp h
      cases htype : t.type with
      | word =>
        rw [htype] at hs
        cases hs
        obtain ⟨r, rfl⟩ := next hlt hsub hus
        exact ⟨r.consItem (.word ⟨t, htype⟩), by simp [Item.tokens]⟩
      | lt | gt | gtgt =>
        rw [htype] at hs
        cases hs
        obtain ⟨w, r, rfl⟩ := word (by decide) hlt hsub hus (by rintro rfl; simp at hus)
        exact ⟨r.consItem (.redir ⟨t, by simp [IsRedir, htype]⟩ w), by simp [Item.tokens]⟩
      | pipe =>
        rw [htype] at hs
        cases hs
        obtain ⟨w, r, rfl⟩ := word (by decide) hlt hsub hus (by rintro rfl; simp at hus)
        exact ⟨r.consPipe ⟨t, htype⟩ w, by simp⟩
      | semi =>
        rw [htype] at hs
        cases hs
        obtain ⟨w, r, rfl⟩ := word (by decide) hlt hsub hus (by rintro rfl; simp at hus)
        exact ⟨r.consSep ⟨t, .inl htype⟩ w, by simp⟩
      | amp =>
        rw [htype] at hs
        cases hs
        -- only a `&` may also close the line
        by_cases hnil : us = []
        · subst hnil
          exact ⟨⟨[], [], [], some ⟨t, htype⟩⟩, rfl⟩
        · obtain ⟨w, r, rfl⟩ := word (by decide) hlt hsub hus hnil
          exact ⟨r.consSep ⟨t, .inr htype⟩ w, by simp⟩
      | fragment | dq | sq =>
        have hstray : t.type.IsStray := by simp [IsStray, htype]
        rw [advance_args_stray hstray] at hs
        cases hs
        obtain ⟨r, rfl⟩ := next hlt hsub hus
        exact ⟨r.consItem (.stray ⟨t, hS t (by simp) hstray⟩), by simp [Item.tokens]⟩

/-- **Inside a command the parser accepts exactly the rests of lines.** -/
theorem accepts_args_iff {ts : List Token} (hS : ∀ t, S t → t.IsStray)
    (hts : ∀ t ∈ ts, t.type.IsStray → S t.type) :
    Accepts .args ts ↔ ∃ r : Rest S, r.tokens = ts := by
  refine ⟨exists_rest hts, ?_⟩
  rintro ⟨r, rfl⟩
  rw [Rest.tokens, accepts_itemTokens hS, accepts_pipeTokens hS, accepts_sepTokens hS]
  exact accepts_lastTokens r.last

/-! ## `parsing` -/

theorem parsing_cons (t : Token) (ts : List Token) :
    parsing (t :: ts) = .ok () ↔ t.type = .word ∧ Accepts .args ts :=
  accepts_cons_of_ne_args (by decide) t ts

/-- **`parsing` accepts exactly what the grammar derives**, with a stray token allowed for each
type the automaton passes over. -/
theorem parsing_eq_ok_iff {ts : List Token} (hS : ∀ t, S t → t.IsStray)
    (hts : ∀ t ∈ ts, t.type.IsStray → S t.type) : parsing ts = .ok () ↔ Derivable S ts := by
  cases ts with
  | nil => exact ⟨fun _ => ⟨none, rfl⟩, fun _ => rfl⟩
  | cons t ts =>
    rw [parsing_cons, accepts_args_iff hS fun u hu => hts u (List.mem_cons_of_mem t hu)]
    constructor
    · rintro ⟨ht, r, rfl⟩
      exact ⟨some (Rest.line ⟨t, ht⟩ r), Rest.tokens_line ⟨t, ht⟩ r⟩
    · rintro ⟨_ | l, hl⟩
      · cases hl
      · have hline : Rest.line l.head.head.head
            ⟨l.head.head.items, l.head.tail, l.tail, l.last⟩ = l := rfl
        have htok : l.tokens = t :: ts := hl
        rw [← hline, Rest.tokens_line] at htok
        obtain ⟨rfl, rfl⟩ := List.cons.inj htok
        exact ⟨l.head.head.head.2, _, rfl⟩

/-- A rejected list is answered with the syntax message. -/
theorem parseFrom_error {s : ParseState} {ts : List Token} {e : Text}
    (h : parseFrom s ts = .error e) : e = invalidSyntax := by
  induction ts generalizing s with
  | nil => cases s <;> simp_all [parseFrom, ParseState.finish]
  | cons t ts ih =>
    rw [parseFrom] at h
    rcases bind_eq_error.mp h with ha | ⟨s', -, h⟩
    · cases s <;> simp only [advance] at ha <;> split_ifs at ha <;> cases ha <;> rfl
    · exact ih h

/-- **The language of `parsing`.**  It returns 1 on the texts of the trees that may hold stray
tokens, prints the syntax message and returns 0 on every other list, and where no token is stray
its language is the grammar's. -/
theorem parsing_language (ts : List Token) :
    (parsing ts = .ok () ↔ Derivable IsStray ts) ∧
      (parsing ts = .ok () ∨ parsing ts = .error invalidSyntax) ∧
      ((∀ t ∈ ts, ¬ t.type.IsStray) → (parsing ts = .ok () ↔ Derivable NoStray ts)) := by
  refine ⟨parsing_eq_ok_iff (fun _ h => h) fun _ _ h => h, ?_,
    fun h => parsing_eq_ok_iff (fun _ h' => h'.elim) fun t ht hst => h t ht hst⟩
  cases ts with
  | nil => exact .inl rfl
  | cons t ts =>
    change parseFrom .start (t :: ts) = _ ∨ parseFrom .start (t :: ts) = _
    cases h : parseFrom .start (t :: ts) with
    | ok => exact .inl rfl
    | error e => exact .inr (congrArg _ (parseFrom_error h))

/-- A word and a fragment: accepted, and not a line of the grammar. -/
theorem parsing_word_fragment :
    parsing [⟨.word, ['a']⟩, ⟨.fragment, ['b']⟩] = .ok () ∧
      ¬ Derivable NoStray [⟨.word, ['a']⟩, ⟨.fragment, ['b']⟩] := by
  refine ⟨rfl, ?_⟩
  rintro ⟨l, hl⟩
  exact Line.legal l ⟨.fragment, ['b']⟩ (by simp [hl]) (.inl rfl)

end MiniProject.Shell
