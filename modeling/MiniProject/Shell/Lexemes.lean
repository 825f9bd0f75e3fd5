import MiniProject.Shell.Lexer

/-!
# Shell/Lexemes — the lexical grammar, and `maketoken` as its reader

A line is a sequence of blanks, operators and words, and a word is a non-empty run of fragments: a
bare character, `\c`, `'…'` or `"…"`.  `Lexes line ts o` reads a line by these rules, taking as much
as it can for a word and for `>>`; `o` is the text of a word that the end of the line broke off.

Every line is read in one way (`exists_lexes`, `Lexes.unique`), and `maketoken` finds it wherever
its arrays have room (`lexFrom_eq_of_lexes`).
-/

namespace MiniProject.Shell

/-! ## Fragments -/

/-- A character with no meaning of its own outside quotes. -/
def IsBare (c : Char) : Prop :=
  c ≠ '\\' ∧ c ≠ '\'' ∧ c ≠ '"' ∧ isBlank c = false ∧ isOperator c = false

/-- The text between double quotes and what it stands for; `after` is the character behind it.  A
backslash is literal unless a quote or a backslash follows. -/
inductive DqBody (after : Option Char) : Text → Text → Prop
  | nil : DqBody after [] []
  | escape {c : Char} {body value : Text} : c = '"' ∨ c = '\\' → DqBody after body value →
      DqBody after ('\\' :: c :: body) (c :: value)
  | char {c : Char} {body value : Text} : c ≠ '"' →
      (c = '\\' → body.head?.or after ≠ some '"' ∧ body.head?.or after ≠ some '\\') →
      DqBody after body value → DqBody after (c :: body) (c :: value)

/-- A fragment and what it stands for. -/
inductive Frag : Text → Text → Prop
  | bare {c : Char} : IsBare c → Frag [c] [c]
  | escape (c : Char) : Frag ['\\', c] [c]
  | single {body : Text} : '\'' ∉ body → Frag ('\'' :: (body ++ ['\''])) body
  | double {body value : Text} : DqBody (some '"') body value →
      Frag ('"' :: (body ++ ['"'])) value

/-- A run of fragments and what it stands for. -/
inductive Frags : Text → Text → Prop
  | nil : Frags [] []
  | cons {r v rs vs : Text} : Frag r v → Frags rs vs → Frags (r ++ rs) (v ++ vs)

/-- One more fragment. -/
theorem Frags.snoc {rs vs r v : Text} (h : Frags rs vs) (hfrag : Frag r v) :
    Frags (rs ++ r) (vs ++ v) := by
  induction h with
  | nil => simpa using Frags.cons hfrag .nil
  | cons hfrag' _ ih =>
    rw [List.append_assoc, List.append_assoc]
    exact .cons hfrag' ih

/-- One more character between double quotes that are not closed. -/
theorem DqBody.snoc {body value : Text} {c : Char} (h : DqBody none body value) (hquote : c ≠ '"')
    (hback : c ≠ '\\') : DqBody none (body ++ [c]) (value ++ [c]) := by
  induction h with
  | nil => exact .char hquote (fun h => absurd h hback) .nil
  | escape hesc _ ih => exact .escape hesc ih
  | @char _ body _ hquote' hback' _ ih =>
    refine .char hquote' (fun h => ?_) ih
    have hnext := hback' h
    cases body with
    | nil => exact ⟨by simpa using hquote, by simpa using hback⟩
    | cons d body => exact hnext

/-- A fragment that the end of the line breaks off: a lone backslash or an open quote. -/
inductive Broken : Text → Text → Prop
  | backslash : Broken ['\\'] []
  | single {body : Text} : '\'' ∉ body → Broken ('\'' :: body) body
  | double {body value : Text} : DqBody none body value → Broken ('"' :: body) value

/-! ## Lines -/

/-- No fragment begins here: the line ends, or a blank or an operator follows. -/
def Ends (cs : Text) : Prop := ∀ c ∈ cs.head?, isBlank c ∨ isOperator c

/-- The operators of one character that can be read on sight. -/
inductive Operator : Char → TokenType → Prop
  | pipe : Operator '|' .pipe
  | amp : Operator '&' .amp
  | semi : Operator ';' .semi
  | lt : Operator '<' .lt

/-- **The lexical grammar.** -/
inductive Lexes : Text → List Token → Option Text → Prop
  | nil : Lexes [] [] none
  | broken {r v r' v' : Text} : Frags r v → Broken r' v' → Lexes (r ++ r') [] (some (v ++ v'))
  | blank {c : Char} {cs : Text} {ts : List Token} {o : Option Text} : isBlank c →
      Lexes cs ts o → Lexes (c :: cs) ts o
  | word {r v cs : Text} {ts : List Token} {o : Option Text} : r ≠ [] → Frags r v → Ends cs →
      Lexes cs ts o → Lexes (r ++ cs) (⟨.word, v⟩ :: ts) o
  | op {c : Char} {t : TokenType} {cs : Text} {ts : List Token} {o : Option Text} :
      Operator c t → Lexes cs ts o → Lexes (c :: cs) (⟨t, []⟩ :: ts) o
  | gt {cs : Text} {ts : List Token} {o : Option Text} : cs.head? ≠ some '>' →
      Lexes cs ts o → Lexes ('>' :: cs) (⟨.gt, []⟩ :: ts) o
  | gtgt {cs : Text} {ts : List Token} {o : Option Text} :
      Lexes cs ts o → Lexes ('>' :: '>' :: cs) (⟨.gtgt, []⟩ :: ts) o

/-- The line ends inside quotes or with an unquoted lone backslash: a broken fragment follows a text
that is complete. -/
def Unterminated (line : Text) : Prop :=
  ∃ pre ts rest v, line = pre ++ rest ∧ Lexes pre ts none ∧ Broken rest v

/-- A complete text and behind it one with `Q`. -/
def EndsIn (Q : Text → Prop) (line : Text) : Prop :=
  ∃ pre ts rest, line = pre ++ rest ∧ Lexes pre ts none ∧ Q rest

/-- The line ends inside quotes. -/
def OpenQuote : Text → Prop := EndsIn fun rest => rest ≠ ['\\'] ∧ ∃ v, Broken rest v

theorem Ends.of_append {cs rest : Text} (h : Ends (cs ++ rest)) : Ends cs := by
  cases cs with
  | nil => exact nofun
  | cons c cs => exact h

/-! ### The end of a line is the end of its rest -/

namespace EndsIn

variable {Q : Text → Prop} {cs : Text}

/-- Behind the fragments of a word. -/
theorem of_frags {r v rest : Text} (h : Frags r v) (hQ : Q rest) : EndsIn Q (r ++ rest) := by
  by_cases hr : r = []
  · exact ⟨[], [], rest, by rw [hr], .nil, hQ⟩
  · refine ⟨r, [⟨.word, v⟩], rest, rfl, ?_, hQ⟩
    simpa using Lexes.word hr h (show Ends [] from nofun) .nil

theorem blank {c : Char} (hc : isBlank c) (h : EndsIn Q cs) : EndsIn Q (c :: cs) := by
  obtain ⟨pre, ts, rest, rfl, h, hQ⟩ := h
  exact ⟨c :: pre, ts, rest, rfl, .blank hc h, hQ⟩

theorem word {r v : Text} (hr : r ≠ []) (hfrags : Frags r v) (hcs : Ends cs) (h : EndsIn Q cs) :
    EndsIn Q (r ++ cs) := by
  obtain ⟨pre, ts, rest, rfl, h, hQ⟩ := h
  exact ⟨r ++ pre, _, rest, by simp, .word hr hfrags hcs.of_append h, hQ⟩

theorem op {c : Char} {t : TokenType} (hop : Operator c t) (h : EndsIn Q cs) :
    EndsIn Q (c :: cs) := by
  obtain ⟨pre, ts, rest, rfl, h, hQ⟩ := h
  exact ⟨c :: pre, _, rest, rfl, .op hop h, hQ⟩

theorem gt (hnext : cs.head? ≠ some '>') (h : EndsIn Q cs) : EndsIn Q ('>' :: cs) := by
  obtain ⟨pre, ts, rest, rfl, h, hQ⟩ := h
  refine ⟨'>' :: pre, _, rest, rfl, .gt ?_ h, hQ⟩
  cases pre with
  | nil => nofun
  | cons c pre => exact hnext

theorem gtgt (h : EndsIn Q cs) : EndsIn Q ('>' :: '>' :: cs) := by
  obtain ⟨pre, ts, rest, rfl, h, hQ⟩ := h
  exact ⟨'>' :: '>' :: pre, _, rest, rfl, .gtgt h, hQ⟩

end EndsIn

/-! ## Every line is read -/

/-- A double quote is closed by the next unescaped quote, or never. -/
theorem exists_dqBody (cs : Text) :
    (∃ body value rest, cs = body ++ '"' :: rest ∧ DqBody (some '"') body value) ∨
      ∃ value, DqBody none cs value := by
  induction hn : cs.length using Nat.strongRecOn generalizing cs with
  | ind n ih =>
    rcases cs with _ | ⟨c, cs⟩
    · exact .inr ⟨[], .nil⟩
    by_cases hquote : c = '"'
    · exact .inl ⟨[], [], cs, by rw [hquote]; rfl, .nil⟩
    by_cases hesc : c = '\\' ∧ (cs.head? = some '"' ∨ cs.head? = some '\\')
    · obtain ⟨rfl, hd⟩ := hesc
      obtain ⟨d, cs, rfl⟩ : ∃ d ds, cs = d :: ds := by
        cases cs with
        | nil => simp at hd
        | cons d ds => exact ⟨d, ds, rfl⟩
      have hd' : d = '"' ∨ d = '\\' := by simpa using hd
      rcases ih cs.length (by simp at hn; omega) cs rfl with
        ⟨body, value, rest, rfl, hb⟩ | ⟨value, hb⟩
      · exact .inl ⟨_, _, rest, rfl, .escape hd' hb⟩
      · exact .inr ⟨_, .escape hd' hb⟩
    · rcases ih cs.length (by simp at hn; omega) cs rfl with
        ⟨body, value, rest, rfl, hb⟩ | ⟨value, hb⟩
      · refine .inl ⟨_, _, rest, rfl, .char hquote (fun hc => ?_) hb⟩
        have hnext : (body ++ '"' :: rest).head? = body.head?.or (some '"') := by
          cases body <;> rfl
        rw [hnext] at hesc
        exact not_or.mp fun h => hesc ⟨hc, h⟩
      · refine .inr ⟨_, .char hquote (fun hc => ?_) hb⟩
        rw [Option.or_none]
        exact not_or.mp fun h => hesc ⟨hc, h⟩

/-- A line that does not end a word begins with a fragment, whole or broken. -/
theorem exists_frag {c : Char} {cs : Text} (h : ¬ Ends (c :: cs)) :
    (∃ r v rest, c :: cs = r ++ rest ∧ r ≠ [] ∧ Frag r v) ∨ ∃ v, Broken (c :: cs) v := by
  by_cases hback : c = '\\'
  · rcases cs with _ | ⟨d, cs⟩
    · exact .inr ⟨[], by rw [hback]; exact .backslash⟩
    · exact .inl ⟨['\\', d], [d], cs, by rw [hback]; rfl, by simp, .escape d⟩
  by_cases hsingle : c = '\''
  · by_cases hclose : '\'' ∈ cs
    · obtain ⟨body, rest, rfl, hbody⟩ := List.eq_append_cons_of_mem hclose
      exact .inl ⟨_, body, rest, by rw [hsingle]; simp, by simp, .single hbody⟩
    · exact .inr ⟨cs, by rw [hsingle]; exact .single hclose⟩
  by_cases hdouble : c = '"'
  · rcases exists_dqBody cs with ⟨body, value, rest, rfl, hb⟩ | ⟨value, hb⟩
    · exact .inl ⟨_, value, rest, by rw [hdouble]; simp, by simp, .double hb⟩
    · exact .inr ⟨value, by rw [hdouble]; exact .double hb⟩
  have hbare : isBlank c = false ∧ isOperator c = false := by simpa [Ends] using h
  exact .inl ⟨[c], [c], cs, rfl, by simp, .bare ⟨hback, hsingle, hdouble, hbare.1, hbare.2⟩⟩

/-- **Maximal munch**: the fragments in front of a line, up to where no more begins or one
breaks. -/
theorem exists_frags (cs : Text) :
    ∃ r v rest, cs = r ++ rest ∧ Frags r v ∧ (Ends rest ∨ ∃ v', Broken rest v') := by
  induction hn : cs.length using Nat.strongRecOn generalizing cs with
  | ind n ih =>
    by_cases hends : Ends cs
    · exact ⟨[], [], cs, rfl, .nil, .inl hends⟩
    rcases cs with _ | ⟨c, cs⟩
    · exact absurd (by simp [Ends]) hends
    rcases exists_frag hends with ⟨r, v, rest, heq, hne, hfrag⟩ | ⟨v, hb⟩
    · have hlt : rest.length < n := by
        have := List.length_pos_of_ne_nil hne
        rw [← hn, heq, List.length_append]
        omega
      obtain ⟨rs, vs, rest', rfl, hfrags, hrest⟩ := ih _ hlt rest rfl
      exact ⟨r ++ rs, v ++ vs, rest', by simp [heq], .cons hfrag hfrags, hrest⟩
    · exact ⟨[], [], _, rfl, .nil, .inr ⟨v, hb⟩⟩

/-- What follows a word begins with a blank or an operator, and reads on behind it. -/
theorem exists_lexes_of_ends {n : ℕ} {c : Char} {cs : Text} (hc : isBlank c ∨ isOperator c)
    (hn : (c :: cs).length = n)
    (ih : ∀ k < n, ∀ cs : Text, cs.length = k → ∃ ts o, Lexes cs ts o) :
    ∃ ts o, Lexes (c :: cs) ts o := by
  have hlt : cs.length < n := by simp at hn; omega
  obtain ⟨ts, o, h⟩ := ih _ hlt cs rfl
  by_cases hblank : isBlank c
  · exact ⟨ts, o, .blank hblank h⟩
  have hop : isOperator c := hc.resolve_left hblank
  by_cases hgt : c = '>'
  · subst hgt
    by_cases hnext : cs.head? = some '>'
    · obtain ⟨cs, rfl⟩ : ∃ ds, cs = '>' :: ds := ⟨cs.tail, (List.cons_head?_tail hnext).symm⟩
      obtain ⟨ts, o, h⟩ := ih cs.length (by simp at hlt; omega) cs rfl
      exact ⟨_, o, .gtgt h⟩
    · exact ⟨_, o, .gt hnext h⟩
  · obtain ⟨t, ht⟩ : ∃ t, Operator c t := by
      simp only [isOperator, Bool.or_eq_true, decide_eq_true_eq] at hop
      rcases hop with (((rfl | rfl) | rfl) | rfl) | rfl
      · exact ⟨_, .pipe⟩
      · exact ⟨_, .amp⟩
      · exact ⟨_, .semi⟩
      · exact ⟨_, .lt⟩
      · exact absurd rfl hgt
    exact ⟨_, o, .op ht h⟩

/-- **Every line is read by the lexical grammar.** -/
theorem exists_lexes (cs : Text) : ∃ ts o, Lexes cs ts o := by
  induction hn : cs.length using Nat.strongRecOn generalizing cs with
  | ind n ih =>
    have ih' : ∀ k < n, ∀ cs : Text, cs.length = k → ∃ ts o, Lexes cs ts o :=
      fun k hk cs hcs => ih k hk cs hcs
    obtain ⟨r, v, rest, rfl, hfrags, hends | ⟨v', hb⟩⟩ := exists_frags cs
    · by_cases hr : r = []
      · subst hr
        rcases rest with _ | ⟨c, cs⟩
        · exact ⟨[], none, .nil⟩
        · exact exists_lexes_of_ends (hends c rfl) hn ih'
      · have hlt : rest.length < n := by
          have := List.length_pos_of_ne_nil hr
          rw [← hn, List.length_append]
          omega
        obtain ⟨ts, o, h⟩ := ih _ hlt rest rfl
        exact ⟨_, o, .word hr hfrags hends h⟩
    · exact ⟨[], _, .broken hfrags hb⟩

/-! ## `maketoken` reads it

Read a word's fragments as one write to the array, then the rest of the line from a state with no
word. -/

section Reader

variable {n m : ℕ}

/-- The state with `v` written to the word. -/
def LexState.append (s : LexState) (v : Text) : LexState :=
  { s with word := s.word ++ v, content := true }

/-- The state between two words. -/
def LexState.between (tokens : List Token) : LexState := { tokens }

@[simp] theorem LexState.append_append (s : LexState) (v w : Text) :
    (s.append v).append w = s.append (v ++ w) := by simp [LexState.append]

theorem LexState.put_eq {s : LexState} (h : s.word.length < n) (c : Char) :
    s.put n c = .ok (s.append [c]) := if_pos h

theorem scan_cons (s : LexState) (c : Char) (cs : Text) :
    scan n m s (c :: cs) = lexStep n m s c cs.head? >>= fun p =>
      if p.2 then scan n m p.1 cs.tail else scan n m p.1 cs := by
  cases cs with
  | nil => simp [scan]
  | cons d cs => rfl

theorem LexState.append_nil {s : LexState} (h : s.content = true) : s.append [] = s := by
  cases s
  simp_all [LexState.append]

/-- Between single quotes everything is written down. -/
theorem scan_single {body : Text} (hbody : '\'' ∉ body) {s : LexState} (hq : s.quote = .single)
    (hc : s.content = true) (hroom : s.word.length + body.length ≤ n) (rest : Text) :
    scan n m s (body ++ rest) = scan n m (s.append body) rest := by
  induction body generalizing s with
  | nil => rw [s.append_nil hc, List.nil_append]
  | cons c body ih =>
    have hne : c ≠ '\'' := fun h => hbody (by simp [h])
    have hstep : lexStep n m s c (body ++ rest).head? = .ok (s.append [c], false) := by
      have hput := s.put_eq (n := n) (by simp at hroom; omega) c
      simp [lexStep, hq, hne, hput]
    rw [List.cons_append, scan_cons, hstep, ok_bind, if_neg Bool.false_ne_true,
      ih (fun h => hbody (by simp [h])) (by simpa [LexState.append] using hq) rfl
        (by simp [LexState.append] at hroom ⊢; omega), LexState.append_append,
        List.singleton_append]

/-- Between double quotes the value of the body is written down. -/
theorem scan_double {after : Option Char} {body value : Text} (hbody : DqBody after body value)
    {s : LexState} (hq : s.quote = .double) (hc : s.content = true)
    (hroom : s.word.length + value.length ≤ n) {rest : Text} (hrest : rest.head? = after) :
    scan n m s (body ++ rest) = scan n m (s.append value) rest := by
  induction hbody generalizing s with
  | nil => rw [s.append_nil hc, List.nil_append]
  | @escape c body value hesc _ ih =>
    have hstep : lexStep n m s '\\' (some c) = .ok (s.append [c], true) := by
      have hput := s.put_eq (n := n) (by simp at hroom; omega) c
      rcases hesc with rfl | rfl <;> simp [lexStep, hq, hput]
    rw [List.cons_append, scan_cons, List.cons_append, List.head?_cons, hstep, ok_bind, if_pos rfl,
      List.tail_cons, ih (by simpa [LexState.append] using hq) rfl
        (by simp [LexState.append] at hroom ⊢; omega), LexState.append_append,
        List.singleton_append]
  | @char c body value hquote hback _ ih =>
    have hstep : lexStep n m s c (body ++ rest).head? = .ok (s.append [c], false) := by
      have hput := s.put_eq (n := n) (by simp at hroom; omega) c
      rw [List.head?_append, hrest]
      by_cases hcb : c = '\\'
      · simp [lexStep, hq, hback hcb, hquote, hput]
      · simp [lexStep, hq, hcb, hquote, hput]
    rw [List.cons_append, scan_cons, hstep, ok_bind, if_neg Bool.false_ne_true,
      ih (by simpa [LexState.append] using hq) rfl (by simp [LexState.append] at hroom ⊢; omega),
      LexState.append_append, List.singleton_append]

theorem scan_openSingle {s : LexState} (hq : s.quote = .none) (rest : Text) :
    scan n m s ('\'' :: rest) = scan n m { s with quote := .single, content := true } rest := by
  rw [scan_cons]
  simp [lexStep, hq]

theorem scan_openDouble {s : LexState} (hq : s.quote = .none) (rest : Text) :
    scan n m s ('"' :: rest) = scan n m { s with quote := .double, content := true } rest := by
  rw [scan_cons]
  simp [lexStep, hq]

theorem scan_closeSingle {s : LexState} (hq : s.quote = .single) (rest : Text) :
    scan n m s ('\'' :: rest) = scan n m { s with quote := .none } rest := by
  rw [scan_cons]
  simp [lexStep, hq]

theorem scan_closeDouble {s : LexState} (hq : s.quote = .double) (rest : Text) :
    scan n m s ('"' :: rest) = scan n m { s with quote := .none } rest := by
  rw [scan_cons]
  simp [lexStep, hq]

/-- **A fragment is read as one write of what it stands for.** -/
theorem scan_frag {r v : Text} (h : Frag r v) {s : LexState} (hq : s.quote = .none)
    (hroom : s.word.length + v.length ≤ n) (rest : Text) :
    scan n m s (r ++ rest) = scan n m (s.append v) rest := by
  obtain ⟨q, w, b, ts⟩ := s
  obtain rfl : q = .none := hq
  cases h with
  | @bare c hc =>
    obtain ⟨hback, hsingle, hdouble, hblank, hop⟩ := hc
    have hput := LexState.put_eq (n := n) (s := ⟨.none, w, b, ts⟩) hroom c
    rw [List.singleton_append, scan_cons]
    simp [lexStep, hback, hsingle, hdouble, hblank, hop, hput]
  | escape c =>
    have hput := LexState.put_eq (n := n) (s := ⟨.none, w, b, ts⟩) hroom c
    rw [List.cons_append, List.singleton_append, scan_cons]
    simp [lexStep, hput]
  | single hbody =>
    rw [List.cons_append, List.append_assoc, scan_openSingle rfl,
      scan_single hbody (s := ⟨.single, w, true, ts⟩) rfl rfl hroom, List.singleton_append,
      scan_closeSingle rfl]
    rfl
  | double hbody =>
    rw [List.cons_append, List.append_assoc, scan_openDouble rfl,
      scan_double hbody (s := ⟨.double, w, true, ts⟩) rfl rfl hroom rfl, List.singleton_append,
      scan_closeDouble rfl]
    rfl

theorem Frag.ne_nil {r v : Text} (h : Frag r v) : r ≠ [] := by cases h <;> simp

theorem Frags.eq_nil {r v : Text} (h : Frags r v) (hr : r = []) : v = [] := by
  cases h with
  | nil => rfl
  | cons hfrag _ => exact absurd (List.append_eq_nil_iff.mp hr).1 hfrag.ne_nil

/-- A run of fragments likewise. -/
theorem scan_frags {r v : Text} (h : Frags r v) {s : LexState} (hq : s.quote = .none)
    (hc : s.content = true ∨ r ≠ []) (hroom : s.word.length + v.length ≤ n) (rest : Text) :
    scan n m s (r ++ rest) = scan n m (s.append v) rest := by
  induction h generalizing s with
  | nil => rw [s.append_nil (hc.resolve_right fun h => h rfl), List.nil_append]
  | @cons r v rs vs hfrag _ ih =>
    have hlen : (v ++ vs).length = v.length + vs.length := List.length_append
    rw [List.append_assoc, scan_frag hfrag hq (by omega),
      ih (s := s.append v) hq (.inl rfl) (by simp [LexState.append]; omega),
      LexState.append_append]

/-! ### Between words -/

@[simp] theorem LexState.flush_between (tokens : List Token) :
    (LexState.between tokens).flush n m = .ok (LexState.between tokens) := rfl

theorem LexState.flush_append {tokens : List Token} {v : Text} (hv : v.length < n)
    (htok : tokens.length < m) : ((LexState.between tokens).append v).flush n m
      = .ok (LexState.between (tokens ++ [⟨.word, v⟩])) := by
  simp [LexState.flush, LexState.append, LexState.between, LexState.emit, hv, htok]

theorem ne_quotes {c : Char} (hc : isBlank c ∨ isOperator c) :
    c ≠ '\\' ∧ c ≠ '\'' ∧ c ≠ '"' := by
  refine ⟨?_, ?_, ?_⟩ <;> rintro rfl <;> revert hc <;> decide

/-- Where no fragment begins, the round ends the word first. -/
theorem lexStep_of_ends {s s' : LexState} {c : Char} (hc : isBlank c ∨ isOperator c)
    (hq : s.quote = .none) (hs : s.flush n m = .ok s') (hs' : s'.flush n m = .ok s')
    (hq' : s'.quote = .none) (next : Option Char) :
    lexStep n m s c next = lexStep n m s' c next := by
  obtain ⟨hback, hsingle, hdouble⟩ := ne_quotes hc
  by_cases hblank : isBlank c
  · simp [lexStep, hq, hq', hback, hsingle, hdouble, hblank, hs, hs']
  · have hop := hc.resolve_left hblank
    simp [lexStep, hq, hq', hback, hsingle, hdouble, hblank, hop, hs, hs']

/-- **A word that ends becomes a token**, and the rest is read from between two words. -/
theorem lexFrom_append {tokens : List Token} {v cs : Text} (hv : v.length < n)
    (htok : tokens.length < m) (hcs : Ends cs) :
    lexFrom n m ((LexState.between tokens).append v) cs
      = lexFrom n m (LexState.between (tokens ++ [⟨.word, v⟩])) cs := by
  have hflush := LexState.flush_append hv htok
  cases cs with
  | nil => simp [lexFrom, scan, hflush]
  | cons c cs =>
    have hstep := lexStep_of_ends (hcs c rfl) rfl hflush (LexState.flush_between _) rfl cs.head?
    rw [lexFrom, lexFrom, scan_cons, scan_cons, hstep]

theorem lexFrom_between_nil (tokens : List Token) :
    lexFrom n m (LexState.between tokens) [] = .ok tokens := rfl

theorem lexFrom_blank (tokens : List Token) {c : Char} (hc : isBlank c) (cs : Text) :
    lexFrom n m (LexState.between tokens) (c :: cs) = lexFrom n m (LexState.between tokens) cs := by
  obtain ⟨hback, hsingle, hdouble⟩ := ne_quotes (.inl hc)
  have hstep : lexStep n m (LexState.between tokens) c cs.head?
      = .ok (LexState.between tokens, false) := by
    simp [lexStep, LexState.between, LexState.flush, hback, hsingle, hdouble, hc]
  rw [lexFrom, lexFrom, scan_cons, hstep, ok_bind, if_neg Bool.false_ne_true]

theorem lexFrom_op {tokens : List Token} (htok : tokens.length < m) {c : Char} {t : TokenType}
    (hop : Operator c t) (cs : Text) : lexFrom n m (LexState.between tokens) (c :: cs)
      = lexFrom n m (LexState.between (tokens ++ [⟨t, []⟩])) cs := by
  have hstep : lexStep n m (LexState.between tokens) c cs.head?
      = .ok (LexState.between (tokens ++ [⟨t, []⟩]), false) := by
    cases hop <;> simp [lexStep, LexState.between, LexState.flush, isBlank, isOperator,
      LexState.emit, htok]
  rw [lexFrom, lexFrom, scan_cons, hstep, ok_bind, if_neg Bool.false_ne_true]

theorem lexFrom_gt {tokens : List Token} (htok : tokens.length < m) {cs : Text}
    (hnext : cs.head? ≠ some '>') : lexFrom n m (LexState.between tokens) ('>' :: cs)
      = lexFrom n m (LexState.between (tokens ++ [⟨.gt, []⟩])) cs := by
  have hstep : lexStep n m (LexState.between tokens) '>' cs.head?
      = .ok (LexState.between (tokens ++ [⟨.gt, []⟩]), false) := by
    simp [lexStep, LexState.between, LexState.flush, isBlank, isOperator, LexState.emit, htok,
      hnext]
  rw [lexFrom, lexFrom, scan_cons, hstep, ok_bind, if_neg Bool.false_ne_true]

theorem lexFrom_gtgt {tokens : List Token} (htok : tokens.length < m) (cs : Text) :
    lexFrom n m (LexState.between tokens) ('>' :: '>' :: cs)
      = lexFrom n m (LexState.between (tokens ++ [⟨.gtgt, []⟩])) cs := by
  have hstep : lexStep n m (LexState.between tokens) '>' (some '>')
      = .ok (LexState.between (tokens ++ [⟨.gtgt, []⟩]), true) := by
    simp [lexStep, LexState.between, LexState.flush, isBlank, isOperator, LexState.emit, htok]
  rw [lexFrom, lexFrom, scan_cons, List.head?_cons, hstep, ok_bind, if_pos rfl, List.tail_cons]

/-- A line that ends inside quotes is rejected once its last word is written. -/
theorem finish_of_open {s : LexState} (hq : s.quote ≠ .none) (hc : s.content = true)
    (hword : s.word.length < n) (htok : s.tokens.length < m) :
    (s.flush n m >>= fun s => if s.quote = .none then .ok s.tokens
      else .error (.invalid invalidSyntax) : Except LexError (List Token))
      = .error (.invalid invalidSyntax) := by
  simp [LexState.flush, LexState.emit, hc, hword, htok, hq]

/-- A broken fragment leaves the loop inside its quotes, or stops it at the backslash. -/
theorem lexFrom_broken {r v : Text} (h : Broken r v) {s : LexState} (hq : s.quote = .none)
    (hroom : r ≠ ['\\'] → s.word.length + v.length < n ∧ s.tokens.length < m) :
    lexFrom n m s r = .error (.invalid invalidSyntax) := by
  cases h with
  | backslash => simp [lexFrom, scan, lexStep, hq]
  | single hbody =>
    obtain ⟨hroom, htok⟩ := hroom (by simp)
    have hscan := scan_single hbody (s := { s with quote := .single, content := true })
      (n := n) (m := m) rfl rfl (Nat.le_of_lt hroom) []
    rw [List.append_nil, scan] at hscan
    rw [lexFrom, scan_openSingle hq, hscan, ok_bind]
    exact finish_of_open nofun rfl (by simpa [LexState.append] using hroom) htok
  | double hbody =>
    obtain ⟨hroom, htok⟩ := hroom (by simp)
    have hscan := scan_double hbody (s := { s with quote := .double, content := true })
      (n := n) (m := m) rfl rfl (Nat.le_of_lt hroom) (show [].head? = none from rfl)
    rw [List.append_nil, scan] at hscan
    rw [lexFrom, scan_openDouble hq, hscan, ok_bind]
    exact finish_of_open nofun rfl (by simpa [LexState.append] using hroom) htok

/-- **Room for a reading**: for each token a place behind the `used` ones and for each word its NUL;
a word that the end of the line breaks off needs both only if it is written to a token
(`closing`). -/
structure Room (n m used : ℕ) (closing : Prop) (ts : List Token) (o : Option Text) : Prop where
  words : ∀ t ∈ ts, t.value.length < n
  tokens : used + ts.length ≤ m
  broken : ∀ v ∈ o, v.length ≤ n ∧ (closing → v.length < n ∧ used + ts.length < m)

/-- A place to spare is room for any ending. -/
theorem room_of_lt {used : ℕ} {closing : Prop} {ts : List Token} {o : Option Text}
    (hts : ∀ t ∈ ts, t.value.length < n) (ho : ∀ v ∈ o, v.length < n)
    (hm : used + ts.length < m) : Room n m used closing ts o :=
  ⟨hts, Nat.le_of_lt hm, fun v hv => ⟨Nat.le_of_lt (ho v hv), fun _ => ⟨ho v hv, hm⟩⟩⟩

/-- The first token takes a place. -/
theorem room_cons {used : ℕ} {closing : Prop} {t : Token} {ts : List Token} {o : Option Text} :
    Room n m used closing (t :: ts) o ↔
      t.value.length < n ∧ used < m ∧ Room n m (used + 1) closing ts o := by
  have hlen : used + (t :: ts).length = used + 1 + ts.length := by
    rw [List.length_cons]
    omega
  constructor
  · intro h
    refine ⟨h.words t List.mem_cons_self, ?_, fun u hu => h.words u (List.mem_cons_of_mem _ hu),
      hlen ▸ h.tokens, hlen ▸ h.broken⟩
    have := h.tokens
    rw [hlen] at this
    omega
  · rintro ⟨ht, -, h⟩
    exact ⟨List.forall_mem_cons.mpr ⟨ht, h.words⟩, hlen ▸ h.tokens, hlen ▸ h.broken⟩

theorem Room.imp {used : ℕ} {closing closing' : Prop} {ts : List Token} {o : Option Text}
    (h : Room n m used closing ts o) (himp : closing' → closing) : Room n m used closing' ts o :=
  ⟨h.words, h.tokens, fun v hv => ⟨(h.broken v hv).1, fun hc => (h.broken v hv).2 (himp hc)⟩⟩

theorem room_snoc {tokens : List Token} {closing : Prop} {t : Token} {ts : List Token}
    {o : Option Text} : Room n m (tokens ++ [t]).length closing ts o ↔
      Room n m (tokens.length + 1) closing ts o := by
  rw [List.length_append, List.length_singleton]

/-- **`maketoken` reads what the lexical grammar reads**, if its arrays have the room: the tokens of
a complete line, the syntax error for a broken one. -/
theorem lexFrom_eq_of_lexes {line : Text} {ts : List Token} {o : Option Text} (h : Lexes line ts o)
    {tokens : List Token} (hroom : Room n m tokens.length (OpenQuote line) ts o) :
    lexFrom n m (LexState.between tokens) line
      = if o = none then .ok (tokens ++ ts) else .error (.invalid invalidSyntax) := by
  induction h generalizing tokens with
  | nil => rw [lexFrom_between_nil, if_pos rfl, List.append_nil]
  | @broken r v r' v' hfrags hbroken =>
    obtain ⟨hv, hopen⟩ := hroom.broken _ rfl
    have hopen' : r' ≠ ['\\'] → v.length + v'.length < n ∧ tokens.length < m := fun hne => by
      simpa using hopen (.of_frags hfrags ⟨hne, v', hbroken⟩)
    rw [if_neg nofun]
    rw [List.length_append] at hv
    by_cases hr : r = []
    · subst hr
      refine lexFrom_broken hbroken rfl fun hne => ⟨?_, (hopen' hne).2⟩
      have := (hopen' hne).1
      exact Nat.lt_of_le_of_lt (Nat.add_le_add_right (Nat.zero_le _) _) this
    · rw [lexFrom, scan_frags hfrags (s := .between tokens) rfl (.inr hr)
        (by simp [LexState.between]; omega)]
      refine lexFrom_broken (s := (LexState.between tokens).append v) hbroken rfl fun hne => ?_
      simpa [LexState.append, LexState.between] using hopen' hne
  | blank hc _ ih => rw [lexFrom_blank tokens hc, ih (hroom.imp (EndsIn.blank hc))]
  | @word r v cs ts o hr hfrags hcs _ ih =>
    obtain ⟨hv, htok, hroom⟩ := room_cons.mp hroom
    dsimp only at hv
    have hroom' := hroom.imp (EndsIn.word hr hfrags hcs)
    rw [lexFrom, scan_frags hfrags (s := .between tokens) rfl (.inr hr) (by
        simp [LexState.between]; omega)]
    change lexFrom n m ((LexState.between tokens).append v) cs = _
    rw [lexFrom_append hv htok hcs, ih (room_snoc.mpr hroom'), List.append_assoc,
      List.singleton_append]
  | @op c t cs ts o hop _ ih =>
    obtain ⟨-, htok, hroom⟩ := room_cons.mp hroom
    have hroom' := hroom.imp (EndsIn.op hop)
    rw [lexFrom_op htok hop, ih (room_snoc.mpr hroom'), List.append_assoc, List.singleton_append]
  | @gt cs ts o hnext _ ih =>
    obtain ⟨-, htok, hroom⟩ := room_cons.mp hroom
    have hroom' := hroom.imp (EndsIn.gt hnext)
    rw [lexFrom_gt htok hnext, ih (room_snoc.mpr hroom'), List.append_assoc, List.singleton_append]
  | @gtgt cs ts o _ ih =>
    obtain ⟨-, htok, hroom⟩ := room_cons.mp hroom
    have hroom' := hroom.imp EndsIn.gtgt
    rw [lexFrom_gtgt htok, ih (room_snoc.mpr hroom'), List.append_assoc, List.singleton_append]

end Reader

/-! ## One reading -/

/-- Arrays with room for any given tokens. -/
theorem exists_room (ts : List Token) (o : Option Text) :
    ∃ n, (∀ t ∈ ts, t.value.length < n) ∧ ∀ v ∈ o, v.length < n := by
  induction ts with
  | nil => exact ⟨(o.map List.length).getD 0 + 1, nofun, by rintro v rfl; simp⟩
  | cons t ts ih =>
    obtain ⟨n, hts, ho⟩ := ih
    refine ⟨n + t.value.length + 1, fun u hu => ?_, fun v hv => by have := ho v hv; omega⟩
    rcases List.mem_cons.mp hu with rfl | hu
    · omega
    · have := hts u hu; omega

/-- **A line is read in one way.**  Two readings both fit arrays that are large enough, and there
`maketoken` finds each of them. -/
theorem Lexes.unique {line : Text} {ts ts' : List Token} {o' : Option Text}
    (h : Lexes line ts none) (h' : Lexes line ts' o') : ts = ts' ∧ o' = none := by
  obtain ⟨n, hts, -⟩ := exists_room ts none
  obtain ⟨n', hts', ho'⟩ := exists_room ts' o'
  have hrun : lexFrom (n + n') (ts.length + ts'.length + 1) (.between []) line = _ :=
    lexFrom_eq_of_lexes h
      (room_of_lt (fun t ht => by have := hts t ht; omega) nofun (by rw [List.length_nil]; omega))
  have hrun' : lexFrom (n + n') (ts.length + ts'.length + 1) (.between []) line = _ :=
    lexFrom_eq_of_lexes h' (room_of_lt (fun t ht => by have := hts' t ht; omega)
      (fun v hv => by have := ho' v hv; omega) (by rw [List.length_nil]; omega))
  rw [hrun, if_pos rfl] at hrun'
  by_cases hopen' : o' = none
  · rw [if_pos hopen'] at hrun'
    exact ⟨by simpa using hrun', hopen'⟩
  · rw [if_neg hopen'] at hrun'
    cases hrun'

/-! ## Broken lines -/

/-- What may follow the fragments of a word may follow a complete text, joining the last word if it
touches it. -/
theorem Lexes.append {pre : Text} {ts : List Token} (h : Lexes pre ts none) {rest : Text}
    {Q : Option Text → Prop} (hword : ∀ r v, Frags r v → ∃ ts o, Lexes (r ++ rest) ts o ∧ Q o)
    (hrest : rest.head? ≠ some '>') : ∃ ts o, Lexes (pre ++ rest) ts o ∧ Q o := by
  generalize ho : (none : Option Text) = o at h
  induction h with
  | nil => exact hword [] [] .nil
  | broken _ _ => cases ho
  | blank hc _ ih =>
    obtain ⟨ts, o, h, hQ⟩ := ih ho
    exact ⟨ts, o, .blank hc h, hQ⟩
  | @word r _ cs _ _ hr hfrags hcs _ ih =>
    rw [List.append_assoc]
    cases cs with
    | nil => exact hword _ _ hfrags
    | cons c cs =>
      obtain ⟨ts, o, h, hQ⟩ := ih ho
      exact ⟨_, o, .word hr hfrags hcs h, hQ⟩
  | op hop _ ih =>
    obtain ⟨ts, o, h, hQ⟩ := ih ho
    exact ⟨_, o, .op hop h, hQ⟩
  | @gt cs _ _ hnext _ ih =>
    obtain ⟨ts, o, h, hQ⟩ := ih ho
    refine ⟨_, o, .gt ?_ h, hQ⟩
    cases cs with
    | nil => exact hrest
    | cons c cs => exact hnext
  | gtgt _ ih =>
    obtain ⟨ts, o, h, hQ⟩ := ih ho
    exact ⟨_, o, .gtgt h, hQ⟩

/-- A broken fragment behind a complete text breaks the line… -/
theorem Lexes.append_broken {pre : Text} {ts : List Token} (h : Lexes pre ts none)
    {rest v : Text} (hb : Broken rest v) : ∃ ts v, Lexes (pre ++ rest) ts (some v) := by
  have hrest : rest.head? ≠ some '>' := by cases hb <;> simp
  obtain ⟨ts, o, hlex, v, rfl⟩ := h.append (Q := fun o => ∃ v, o = some v)
    (fun r v hfrags => ⟨[], _, .broken hfrags hb, _, rfl⟩) hrest
  exact ⟨ts, v, hlex⟩

/-- …and a whole fragment leaves it complete. -/
theorem Lexes.append_frag {pre : Text} {ts : List Token} (h : Lexes pre ts none) {r v : Text}
    (hfrag : Frag r v) : ∃ ts, Lexes (pre ++ r) ts none := by
  have hr : r.head? ≠ some '>' := by
    cases hfrag with
    | bare hc =>
      rintro ⟨⟩
      exact absurd hc.2.2.2.2 (by decide)
    | escape | single | double => simp
  have hword : ∀ r' v', Frags r' v' → Lexes (r' ++ r) [⟨.word, v' ++ v⟩] none := by
    intro r' v' hfrags
    have hne : r' ++ r ≠ [] := fun h => hfrag.ne_nil (List.append_eq_nil_iff.mp h).2
    simpa using Lexes.word hne (hfrags.snoc hfrag) (show Ends [] from nofun) .nil
  obtain ⟨ts, o, hlex, rfl⟩ := h.append (Q := fun o => o = none)
    (fun r' v' hfrags => ⟨_, none, hword r' v' hfrags, rfl⟩) hr
  exact ⟨ts, hlex⟩

/-- A line read as broken has its broken fragment behind a complete text. -/
theorem Lexes.unterminated {line : Text} {ts : List Token} {v : Text}
    (h : Lexes line ts (some v)) : Unterminated line := by
  have hend : EndsIn (fun rest => ∃ v, Broken rest v) line := by
    generalize ho : some v = o at h
    induction h with
    | nil => cases ho
    | broken hfrags hb => exact .of_frags hfrags ⟨_, hb⟩
    | blank hc _ ih => exact (ih ho).blank hc
    | word hr hfrags hcs _ ih => exact (ih ho).word hr hfrags hcs
    | op hop _ ih => exact (ih ho).op hop
    | gt hnext _ ih => exact (ih ho).gt hnext
    | gtgt _ ih => exact (ih ho).gtgt
  obtain ⟨pre, ts, rest, hline, hpre, v, hb⟩ := hend
  exact ⟨pre, ts, rest, v, hline, hpre, hb⟩

/-! ## `maketoken` -/

/-- The line has fewer than `maxtok` tokens, and each of them, with a word the end of the line
breaks off, is shorter than `wordSize`. -/
def FitsArrays (line : Text) : Prop :=
  ∃ ts o, Lexes line ts o ∧ ts.length < maxtok ∧ (∀ t ∈ ts, t.value.length < wordSize) ∧
    ∀ v ∈ o, v.length < wordSize

theorem maketoken_eq_of_lexes {line : Text} {ts : List Token} {o : Option Text}
    (h : Lexes line ts o) (hroom : Room wordSize maxtok 0 (OpenQuote line) ts o) :
    maketoken line = if o = none then .ok ts else .error (.invalid invalidSyntax) :=
  (lexFrom_eq_of_lexes h hroom : lexFrom wordSize maxtok (LexState.between []) line = _)

/-- **`maketoken` is the reader of the lexical grammar.**  On a line that fits its arrays it
succeeds exactly when the line is not broken off inside quotes or behind a lone backslash, its
tokens are then the grammar's, and otherwise it prints the syntax message. -/
theorem maketoken_spec {line : Text} (h : FitsArrays line) :
    ((∃ ts, maketoken line = .ok ts) ↔ ¬ Unterminated line) ∧
      (∀ ts, maketoken line = .ok ts ↔ Lexes line ts none) ∧
      (Unterminated line → maketoken line = .error (.invalid invalidSyntax)) := by
  obtain ⟨ts, o, hlex, hlen, hts, ho⟩ := h
  have hrun := maketoken_eq_of_lexes hlex (room_of_lt hts ho (by omega))
  cases o with
  | none =>
    rw [if_pos rfl] at hrun
    have hclosed : ¬ Unterminated line := by
      rintro ⟨pre, us, rest, v, rfl, hpre, hb⟩
      obtain ⟨ts', v', h'⟩ := hpre.append_broken hb
      exact nomatch (hlex.unique h').2
    refine ⟨iff_of_true ⟨ts, hrun⟩ hclosed, fun us => ⟨fun h => ?_, fun h => ?_⟩,
      fun h => absurd h hclosed⟩
    · rw [hrun] at h
      cases h
      exact hlex
    · rw [hrun, (hlex.unique h).1]
  | some v =>
    rw [if_neg nofun] at hrun
    refine ⟨iff_of_false (by simp [hrun]) (not_not_intro hlex.unterminated), fun us => ?_,
      fun _ => hrun⟩
    refine iff_of_false (by simp [hrun]) fun h => ?_
    exact nomatch (h.unique hlex).2

/-- `a\ b>>''` has three tokens. -/
theorem maketoken_spec_redirect : maketoken "a\\ b>>''".toList
    = .ok [⟨.word, "a b".toList⟩, ⟨.gtgt, []⟩, ⟨.word, []⟩] := by
  have hlast : Lexes "''".toList [⟨.word, []⟩] none :=
    .word (r := ['\'', '\'']) nofun (.cons (.single (List.not_mem_nil)) .nil)
      (show Ends [] from nofun) .nil
  have hbare : ∀ c ∈ ['a', 'b'], IsBare c := by simp [IsBare, isBlank, isOperator]
  have hline : Lexes "a\\ b>>''".toList [⟨.word, "a b".toList⟩, ⟨.gtgt, []⟩, ⟨.word, []⟩] none :=
    .word (r := ['a', '\\', ' ', 'b']) nofun
      (.cons (.bare (hbare 'a' (by simp))) (.cons (.escape ' ')
        (.cons (.bare (hbare 'b' (by simp))) .nil)))
      (show Ends ['>', '>', '\'', '\''] by simp [Ends, isOperator]) (.gtgt hlast)
  exact ((maketoken_spec ⟨_, _, hline, by decide, by decide, nofun⟩).2.1 _).mpr hline

end MiniProject.Shell
