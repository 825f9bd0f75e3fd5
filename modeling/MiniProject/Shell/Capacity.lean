import MiniProject.Shell.Lexemes
import MiniProject.Shell.Segments

/-!
# Shell/Capacity — the lines and the trees that fit the arrays

Neither `maketoken` nor `run_cmd` asks how full an array is.  Each write adds to what is there, so a
reading that gets past a part of its input had the room for that part, and the condition can be read
off the lexemes of the line (`safe_maketoken_iff`) and off the tree of the tokens
(`runCmd_inBounds_iff`).
-/

namespace MiniProject.Shell

open TokenType

/-! ## `maketoken` -/

/-- No write was past an array. -/
def Safe {α : Type} (x : Except LexError α) : Prop := ∀ o, x ≠ .error (.overrun o)

theorem Safe.of_bind {α β : Type} {x : Except LexError α} {f : α → Except LexError β}
    (h : Safe (x >>= f)) : Safe x := by
  rintro o rfl
  exact h o rfl

section Reader

variable {n m : ℕ} {s : LexState} {rest : Text}

theorem length_word_append (s : LexState) (v : Text) :
    (s.append v).word.length = s.word.length + v.length := List.length_append

theorem lt_of_safe_put {c : Char} (h : Safe (s.put n c)) : s.word.length < n := by
  by_contra hroom
  exact h .word (if_neg hroom)

/-- A round of the loop was safe if the loop was. -/
theorem Safe.lexStep {c : Char} {cs : Text} (h : Safe (scan n m s (c :: cs))) :
    Safe (lexStep n m s c cs.head?) := by
  rw [scan_cons] at h
  exact h.of_bind

/-! ### A text that has been written down had the room -/

theorem room_of_safe_single {body : Text} (hbody : '\'' ∉ body) (hq : s.quote = .single)
    (hc : s.content = true) (hle : s.word.length ≤ n) (h : Safe (scan n m s (body ++ rest))) :
    s.word.length + body.length ≤ n := by
  induction body generalizing s with
  | nil => exact hle
  | cons c body ih =>
    have hne : c ≠ '\'' := fun h => hbody (by simp [h])
    have hlt : s.word.length < n := by
      have hstep := h.lexStep
      simp only [lexStep, hq, if_neg hne] at hstep
      exact lt_of_safe_put hstep.of_bind
    have hone : '\'' ∉ [c] := fun h => hne (List.mem_singleton.mp h).symm
    have hread := scan_single hone hq hc (m := m) hlt (body ++ rest)
    rw [List.singleton_append] at hread
    rw [List.cons_append, hread] at h
    have hrest := ih (s := s.append [c]) (fun h => hbody (List.mem_cons_of_mem _ h)) hq rfl
      (by rw [length_word_append]; exact hlt) h
    rw [length_word_append] at hrest
    simp at hrest ⊢
    omega

theorem room_of_safe_double {after : Option Char} {body value : Text}
    (hbody : DqBody after body value) (hq : s.quote = .double) (hc : s.content = true)
    (hle : s.word.length ≤ n) (hrest : rest.head? = after)
    (h : Safe (scan n m s (body ++ rest))) : s.word.length + value.length ≤ n := by
  induction hbody generalizing s with
  | nil => exact hle
  | @escape c body value hesc _ ih =>
    have hlt : s.word.length < n := by
      have hstep := h.lexStep
      rcases hesc with rfl | rfl
      · simp [lexStep, hq] at hstep
        exact lt_of_safe_put hstep.of_bind
      · simp [lexStep, hq] at hstep
        exact lt_of_safe_put hstep.of_bind
    have hread := scan_double (.escape hesc .nil) hq hc (m := m) hlt
      (show (body ++ rest).head? = _ from rfl)
    rw [List.cons_append, List.singleton_append] at hread
    rw [List.cons_append, List.cons_append, hread] at h
    have hroom := ih (s := s.append [c]) hq rfl (by rw [length_word_append]; exact hlt) h
    rw [length_word_append] at hroom
    simp at hroom ⊢
    omega
  | @char c body value hquote hback _ ih =>
    have hnext : (body ++ rest).head? = body.head?.or after := by rw [List.head?_append, hrest]
    rw [List.cons_append] at h
    have hlt : s.word.length < n := by
      have hstep := h.lexStep
      rw [hnext] at hstep
      by_cases hcb : c = '\\'
      · simp [lexStep, hq, hback hcb, hquote] at hstep
        exact lt_of_safe_put hstep.of_bind
      · simp [lexStep, hq, hcb, hquote] at hstep
        exact lt_of_safe_put hstep.of_bind
    have hone : DqBody (body.head?.or after) [c] [c] := .char hquote hback .nil
    have hread := scan_double hone hq hc (m := m) hlt hnext
    rw [List.singleton_append] at hread
    rw [hread] at h
    have hroom := ih (s := s.append [c]) hq rfl (by rw [length_word_append]; exact hlt) h
    rw [length_word_append] at hroom
    simp at hroom ⊢
    omega

theorem room_of_safe_frag {r v : Text} (hfrag : Frag r v) (hq : s.quote = .none)
    (hle : s.word.length ≤ n) (h : Safe (scan n m s (r ++ rest))) :
    s.word.length + v.length ≤ n := by
  cases hfrag with
  | @bare c hc =>
    obtain ⟨hback, hsingle, hdouble, hblank, hop⟩ := hc
    have hstep := h.lexStep
    simp [lexStep, hq, hback, hsingle, hdouble, hblank, hop] at hstep
    exact lt_of_safe_put hstep.of_bind
  | escape c =>
    have hstep := h.lexStep
    simp [lexStep, hq] at hstep
    exact lt_of_safe_put hstep.of_bind
  | single hbody =>
    rw [List.cons_append, List.append_assoc, scan_openSingle hq] at h
    exact room_of_safe_single (s := { s with quote := .single, content := true }) hbody rfl rfl hle
      h
  | double hbody =>
    rw [List.cons_append, List.append_assoc, scan_openDouble hq] at h
    exact room_of_safe_double (s := { s with quote := .double, content := true }) hbody rfl rfl hle
      rfl h

theorem room_of_safe_frags {r v : Text} (hfrags : Frags r v) (hq : s.quote = .none)
    (hle : s.word.length ≤ n) (h : Safe (scan n m s (r ++ rest))) :
    s.word.length + v.length ≤ n := by
  induction hfrags generalizing s with
  | nil => exact hle
  | @cons r v rs vs hfrag _ ih =>
    rw [List.append_assoc] at h
    have hroom := room_of_safe_frag hfrag hq hle h
    rw [scan_frag hfrag hq hroom] at h
    have hroom' := ih (s := s.append v) hq (by rw [length_word_append]; exact hroom) h
    rw [length_word_append] at hroom'
    rw [List.length_append]
    omega

/-! ### A token that has been written had the room -/

theorem room_of_safe_flush (hc : s.content = true) (h : Safe (s.flush n m)) :
    s.word.length < n ∧ s.tokens.length < m := by
  rw [LexState.flush, if_pos hc] at h
  have hword : s.word.length < n := by
    by_contra hword
    exact h .word (if_neg hword)
  rw [if_pos hword] at h
  refine ⟨hword, ?_⟩
  by_contra htok
  exact h.of_bind .tokens (if_neg htok)

/-- Where no fragment begins, the round writes the word first… -/
theorem safe_flush_of_safe_lexStep {c : Char} {next : Option Char}
    (hc : isBlank c ∨ isOperator c) (hq : s.quote = .none) (h : Safe (lexStep n m s c next)) :
    Safe (s.flush n m) := by
  obtain ⟨hback, hsingle, hdouble⟩ := ne_quotes hc
  by_cases hblank : isBlank c
  · simp only [lexStep, hq, if_neg hback, if_neg hsingle, if_neg hdouble, if_pos hblank] at h
    exact h.of_bind
  · have hop := hc.resolve_left hblank
    simp only [lexStep, hq, if_neg hback, if_neg hsingle, if_neg hdouble, if_neg hblank,
      if_pos hop] at h
    exact h.of_bind

/-- …and then the operator. -/
theorem room_of_safe_operator {tokens : List Token} {c : Char} {next : Option Char}
    (hop : isOperator c) (h : Safe (lexStep n m (LexState.between tokens) c next)) :
    tokens.length < m := by
  by_contra htok
  refine h .tokens ?_
  simp only [isOperator, Bool.or_eq_true, decide_eq_true_eq] at hop
  rcases hop with (((rfl | rfl) | rfl) | rfl) | rfl
  case inr =>
    by_cases hnext : next = some '>' <;>
      simp [lexStep, LexState.between, LexState.flush, isBlank, isOperator, LexState.emit, htok,
        hnext]
  all_goals
    simp [lexStep, LexState.between, LexState.flush, isBlank, isOperator, LexState.emit, htok]

theorem Safe.scan {line : Text} (h : Safe (lexFrom n m s line)) : Safe (scan n m s line) :=
  h.of_bind

/-- A word that ends in front of `cs` has been written to a token. -/
theorem room_of_safe_append {tokens : List Token} {v cs : Text} (hcs : Ends cs)
    (h : Safe (lexFrom n m ((LexState.between tokens).append v) cs)) :
    v.length < n ∧ tokens.length < m := by
  refine room_of_safe_flush (s := (LexState.between tokens).append v) rfl ?_
  cases cs with
  | nil => exact Safe.of_bind (f := fun s => if s.quote = .none then .ok s.tokens else _) h
  | cons c cs => exact safe_flush_of_safe_lexStep (hcs c rfl) rfl h.scan.lexStep

/-- A word that the end of the line breaks off inside quotes has been written to one, too. -/
theorem room_of_safe_broken {r v : Text} (hb : Broken r v) (hq : s.quote = .none)
    (hle : s.word.length ≤ n) (h : Safe (lexFrom n m s r)) :
    s.word.length + v.length ≤ n ∧
      (r ≠ ['\\'] → s.word.length + v.length < n ∧ s.tokens.length < m) := by
  cases hb with
  | backslash => exact ⟨hle, fun hne => absurd rfl hne⟩
  | single hbody =>
    rw [lexFrom, scan_openSingle hq] at h
    have hroom := room_of_safe_single (s := { s with quote := .single, content := true })
      hbody rfl rfl hle (show Safe (scan n m _ (_ ++ [])) by
        rw [List.append_nil]; exact h.of_bind)
    have hscan := scan_single hbody (s := { s with quote := .single, content := true })
      (m := m) rfl rfl hroom []
    rw [List.append_nil, scan] at hscan
    rw [hscan, ok_bind] at h
    obtain ⟨hword, htok⟩ := room_of_safe_flush rfl h.of_bind
    rw [length_word_append] at hword
    exact ⟨hroom, fun _ => ⟨hword, htok⟩⟩
  | double hbody =>
    rw [lexFrom, scan_openDouble hq] at h
    have hroom := room_of_safe_double (s := { s with quote := .double, content := true })
      hbody rfl rfl hle rfl (show Safe (scan n m _ (_ ++ [])) by
        rw [List.append_nil]; exact h.of_bind)
    have hscan := scan_double hbody (s := { s with quote := .double, content := true })
      (m := m) rfl rfl hroom (show [].head? = none from rfl)
    rw [List.append_nil, scan] at hscan
    rw [hscan, ok_bind] at h
    obtain ⟨hword, htok⟩ := room_of_safe_flush rfl h.of_bind
    rw [length_word_append] at hword
    exact ⟨hroom, fun _ => ⟨hword, htok⟩⟩

/-! ### A line that is read without a fault has the room -/

/-- The line ends with a lone backslash. -/
def Dangling : Text → Prop := EndsIn (· = ['\\'])

/-- **A safe reading had the room**; the word in front of a lone backslash is left where it is. -/
theorem room_of_safe {line : Text} {ts : List Token} {o : Option Text} (h : Lexes line ts o)
    (hn : 0 < n) {tokens : List Token} (hle : tokens.length ≤ m)
    (hsafe : Safe (lexFrom n m (LexState.between tokens) line)) :
    Room n m tokens.length (¬ Dangling line) ts o := by
  induction h generalizing tokens with
  | nil => exact ⟨nofun, hle, nofun⟩
  | @broken r v r' v' hfrags hb =>
    refine ⟨nofun, hle, ?_⟩
    rintro _ ⟨⟩
    have hv := room_of_safe_frags hfrags (s := .between tokens) rfl (Nat.zero_le _) hsafe.scan
    have hbroken : v.length + v'.length ≤ n ∧
        (r' ≠ ['\\'] → v.length + v'.length < n ∧ tokens.length < m) := by
      by_cases hr : r = []
      · subst hr
        obtain rfl : v = [] := hfrags.eq_nil rfl
        have hroom := room_of_safe_broken (s := .between tokens) hb rfl (Nat.zero_le _) hsafe
        simpa [LexState.between] using hroom
      · rw [lexFrom, scan_frags hfrags (s := .between tokens) rfl (.inr hr) hv] at hsafe
        have hroom := room_of_safe_broken (s := (LexState.between tokens).append v) hb rfl
          (by rw [length_word_append]; exact hv) hsafe
        rw [length_word_append] at hroom
        simpa [LexState.between, LexState.append] using hroom
    rw [List.length_append]
    exact ⟨hbroken.1, fun hclosing => hbroken.2 fun hr' => hclosing (.of_frags hfrags hr')⟩
  | blank hc _ ih =>
    rw [lexFrom_blank tokens hc] at hsafe
    exact (ih hle hsafe).imp fun h h' => h (h'.blank hc)
  | @word r v cs ts o hr hfrags hcs _ ih =>
    have hv := room_of_safe_frags hfrags (s := .between tokens) rfl (Nat.zero_le _) hsafe.scan
    rw [lexFrom, scan_frags hfrags (s := .between tokens) rfl (.inr hr) hv] at hsafe
    obtain ⟨hword, htok⟩ := room_of_safe_append hcs hsafe
    change Safe (lexFrom n m ((LexState.between tokens).append v) cs) at hsafe
    rw [lexFrom_append hword htok hcs] at hsafe
    have hroom := room_snoc.mp (ih (by simp; omega) hsafe)
    exact room_cons.mpr ⟨hword, htok, hroom.imp fun h h' => h (h'.word hr hfrags hcs)⟩
  | @op c t cs ts o hop _ ih =>
    have htok := room_of_safe_operator (by cases hop <;> rfl) hsafe.scan.lexStep
    rw [lexFrom_op htok hop] at hsafe
    have hroom := room_snoc.mp (ih (by simp; omega) hsafe)
    exact room_cons.mpr ⟨hn, htok, hroom.imp fun h h' => h (h'.op hop)⟩
  | @gt cs ts o hnext _ ih =>
    have htok := room_of_safe_operator rfl hsafe.scan.lexStep
    rw [lexFrom_gt htok hnext] at hsafe
    have hroom := room_snoc.mp (ih (by simp; omega) hsafe)
    exact room_cons.mpr ⟨hn, htok, hroom.imp fun h h' => h (h'.gt hnext)⟩
  | @gtgt cs ts o _ ih =>
    have htok := room_of_safe_operator rfl hsafe.scan.lexStep
    rw [lexFrom_gtgt htok] at hsafe
    have hroom := room_snoc.mp (ih (by simp; omega) hsafe)
    exact room_cons.mpr ⟨hn, htok, hroom.imp fun h h' => h h'.gtgt⟩

/-- The two ways to break a line off exclude each other: one more character completes a lone
backslash, and leaves a quote open. -/
theorem not_dangling_of_openQuote {line : Text} (h : OpenQuote line) : ¬ Dangling line := by
  rintro ⟨pre', ts', rest', hline, hpre', rfl⟩
  obtain ⟨pre, ts, rest, rfl, hpre, hne, v, hb⟩ := h
  have hopen : ∃ v, Broken (rest ++ ['x']) v := by
    cases hb with
    | backslash => exact absurd rfl hne
    | single hbody => exact ⟨_, .single (by simpa using hbody)⟩
    | double hbody => exact ⟨_, .double (hbody.snoc (by decide) (by decide))⟩
  obtain ⟨_, hb⟩ := hopen
  obtain ⟨ts, v, hbroken⟩ := hpre.append_broken hb
  obtain ⟨ts', hwhole⟩ := hpre'.append_frag (.escape 'x')
  rw [← List.append_assoc, hline, List.append_assoc] at hbroken
  exact nomatch (hwhole.unique hbroken).2

end Reader

/-- **`maketoken` writes in bounds** exactly on the lines it has room for: at most `maxtok` tokens,
each word shorter than `wordSize`; of a line that ends inside quotes the last word counts as a token
too, in front of a lone backslash it may fill the array. -/
theorem safe_maketoken_iff (line : Text) : Safe (maketoken line) ↔
    ∃ ts o, Lexes line ts o ∧ Room wordSize maxtok 0 (OpenQuote line) ts o := by
  constructor
  · intro h
    obtain ⟨ts, o, hlex⟩ := exists_lexes line
    have hnil : ([] : List Token).length ≤ maxtok := Nat.zero_le _
    have hroom := room_of_safe hlex (by decide) hnil h
    exact ⟨ts, o, hlex, hroom.imp not_dangling_of_openQuote⟩
  · rintro ⟨ts, o, hlex, hroom⟩ e h
    rw [maketoken_eq_of_lexes hlex hroom] at h
    split at h <;> cases h

/-- **257 semicolons**, and a word of 1024 characters: both lines are of documented length. -/
theorem not_safe_maketoken :
    ¬ Safe (maketoken (List.replicate 257 ';')) ∧ ¬ Safe (maketoken (List.replicate 1024 'a')) :=
  ⟨fun h => h .tokens (by decide +kernel), fun h => h .word (by decide +kernel)⟩

/-! ## `run_cmd`

The same for the inner loop, which reads a command item by item. -/

section Builder

variable {S : TokenType → Prop} {done : List Commands} {c : Commands} {ts : List Token}
  {r : Builder × List Token}

theorem addArg_eq_ok {v : Text} {c' : Commands} :
    c.addArg v = .ok c' → c.argv.length < argvSize := by
  rw [Commands.addArg]
  split <;> simp [*]

theorem addIn_eq_ok {v : Text} {c' : Commands} :
    c.addIn v = .ok c' → c.inFiles.length < inFilesSize := by
  rw [Commands.addIn]
  split <;> simp [*]

theorem addOut_eq_ok {v : Text} {append : Bool} {c' : Commands} :
    c.addOut v append = .ok c' → c.outFiles.length < outFilesSize := by
  rw [Commands.addOut]
  split <;> simp [*]

/-- An item that has been read had the room. -/
theorem room_of_collect_item (item : Item S) (hc : c.Room)
    (h : collect ⟨done, c⟩ (item.tokens ++ ts) = .ok r) : (c.extend [item]).Room := by
  obtain ⟨harg, hin, hout⟩ := hc
  rw [Commands.extend_singleton]
  simp only [Commands.Room, List.length_append]
  cases item with
  | word w =>
    rw [Item.tokens, List.singleton_append, collect.eq_def] at h
    simp only [w.2] at h
    obtain ⟨c', hadd, -⟩ := bind_eq_ok.mp h
    have := addArg_eq_ok hadd
    exact ⟨by simp [Item.arg]; omega, by simpa [Item.inFile] using hin,
      by simpa [Item.outFile] using hout⟩
  | redir r w =>
    rw [Item.tokens, List.cons_append, List.singleton_append, collect.eq_def] at h
    rcases r.2 with hr | hr | hr
    · simp only [hr] at h
      obtain ⟨c', hadd, -⟩ := bind_eq_ok.mp h
      have := addIn_eq_ok hadd
      exact ⟨by simpa [Item.arg] using harg, by simp [Item.inFile, hr]; omega,
        by simpa [Item.outFile, hr] using hout⟩
    · simp only [hr] at h
      obtain ⟨c', hadd, -⟩ := bind_eq_ok.mp h
      have := addOut_eq_ok hadd
      exact ⟨by simpa [Item.arg] using harg, by simpa [Item.inFile, hr] using hin,
        by simp [Item.outFile, hr]; omega⟩
    · simp only [hr] at h
      obtain ⟨c', hadd, -⟩ := bind_eq_ok.mp h
      have := addOut_eq_ok hadd
      exact ⟨by simpa [Item.arg] using harg, by simpa [Item.inFile, hr] using hin,
        by simp [Item.outFile, hr]; omega⟩
  | stray t => simpa [Item.arg, Item.inFile, Item.outFile] using ⟨harg, hin, hout⟩

theorem room_of_collect_items (items : List (Item S)) (hS : ∀ t, S t → t.IsStray) (hc : c.Room)
    (h : collect ⟨done, c⟩ (itemTokens items ++ ts) = .ok r) : (c.extend items).Room := by
  induction items generalizing c with
  | nil => simpa [Commands.extend] using hc
  | cons item items ih =>
    rw [itemTokens_cons, List.append_assoc] at h
    have hitem := room_of_collect_item item hc h
    rw [collect_item done c item hS hitem] at h
    rw [Commands.extend_cons]
    exact ih hitem h

theorem room_of_collect_cmd (c : Cmd S) (hS : ∀ t, S t → t.IsStray)
    (h : collect ⟨done, {}⟩ (c.tokens ++ ts) = .ok r) : c.commands.Room := by
  have hrec : ({} : Commands).extend (.word c.head :: c.items) = c.commands := by
    simp [Commands.extend, Cmd.commands, List.filterMap_cons, Item.arg, Item.inFile, Item.outFile]
  rw [← hrec]
  exact room_of_collect_items _ hS ⟨Nat.zero_le _, Nat.zero_le _, Nat.zero_le _⟩ h

/-- A pipe that has been read found a stage that fits and a place for the next. -/
theorem fits_of_collect_pipe (p : Tok (· = .pipe)) (h : collect ⟨done, c⟩ (p.1 :: ts) = .ok r)
    (hc : c.Room) : c.Fits ∧ done.length + 1 < pipelineSize := by
  have hp : p.1.type = .pipe := p.2
  rw [collect.eq_def] at h
  simp only [hp] at h
  obtain ⟨c', hnull, h⟩ := bind_eq_ok.mp h
  obtain ⟨b, hnext, -⟩ := bind_eq_ok.mp h
  rw [Commands.nullTerminate] at hnull
  rw [Builder.next] at hnext
  refine ⟨⟨?_, hc.2⟩, ?_⟩
  · by_contra hfull
    rw [if_neg hfull] at hnull
    cases hnull
  · by_contra hfull
    rw [if_neg hfull] at hnext
    cases hnext

/-- **A group that has been read fits**, its last NULL apart. -/
theorem fits_of_collect_pipes (tail : List (Tok (· = .pipe) × Cmd S)) (hS : ∀ t, S t → t.IsStray)
    (hdone : ∀ d ∈ done, d.Fits) (hlen : done.length < pipelineSize) (hc : c.Room)
    (h : collect ⟨done, c⟩ (pipeTokens tail ++ ts) = .ok r) :
    ∃ b : Builder, collect b ts = .ok r ∧ b.cur.Room ∧ (∀ d ∈ b.done, d.Fits) ∧
      b.done.length < pipelineSize ∧
      b.done ++ [b.cur] = done ++ c :: tail.map fun pc => pc.2.commands := by
  induction tail generalizing done c with
  | nil => exact ⟨⟨done, c⟩, h, hc, hdone, hlen, rfl⟩
  | cons pc tail ih =>
    obtain ⟨p, c'⟩ := pc
    rw [pipeTokens_cons, List.cons_append, List.append_assoc] at h
    obtain ⟨hfits, hnext⟩ := fits_of_collect_pipe p h hc
    rw [collect_pipe done c p hfits hnext] at h
    have hroom := room_of_collect_cmd c' hS h
    rw [collect_cmd _ c' hS hroom] at h
    have hdone' : ∀ d ∈ done ++ [c], d.Fits :=
      List.forall_mem_append.mpr ⟨hdone, by simpa using hfits⟩
    obtain ⟨b, hb, hcur, hbdone, hblen, hpipe⟩ := ih hdone' (by simpa using hnext) hroom h
    exact ⟨b, hb, hcur, hbdone, hblen, by rw [hpipe]; simp⟩

/-- **A group that `run_cmd` has built fits its arrays.** -/
theorem fits_of_nextSegment (g : Group S) (hS : ∀ t, S t → t.IsStray)
    (hts : ∀ t ∈ ts.head?, t.type.IsSep) {seg : Segment × List Token}
    (h : nextSegment (g.tokens ++ ts) = .ok seg) : Fits g.pipeline := by
  obtain ⟨⟨b', rest⟩, hcollect, h⟩ := bind_eq_ok.mp h
  obtain ⟨c', hnull, -⟩ := bind_eq_ok.mp h
  rw [Group.tokens, List.append_assoc] at hcollect
  have hroom := room_of_collect_cmd g.head hS hcollect
  rw [collect_cmd [] g.head hS hroom] at hcollect
  obtain ⟨b, hb, hcur, hdone, hlen, hpipe⟩ :=
    fits_of_collect_pipes g.tail hS (List.forall_mem_nil _) (by decide) hroom hcollect
  have hstop : collect b ts = .ok (b, ts) := by
    cases ts with
    | nil => rfl
    | cons t ts =>
      rw [collect.eq_def]
      rcases hts t rfl with ht | ht <;> simp [ht]
  rw [hstop] at hb
  obtain ⟨rfl, rfl⟩ := Prod.mk.inj (Except.ok.inj hb)
  have hfits : b.cur.Fits := by
    refine ⟨?_, hcur.2⟩
    by_contra hfull
    rw [Commands.nullTerminate, if_neg hfull] at hnull
    cases hnull
  rw [Group.pipeline, ← List.nil_append (_ :: _), ← hpipe]
  exact ⟨by rw [List.length_append]; exact hlen,
    List.forall_mem_append.mpr ⟨hdone, by simpa using hfits⟩⟩

end Builder

/-! ### The outer loop -/

section Dispatch

variable {σ : Type} {d : Dispatch σ}

/-- The launches themselves stay inside their arrays. -/
structure Dispatch.Sound (d : Dispatch σ) : Prop where
  foreground : ∀ p s o, d.foreground p s ≠ .error (.overrun o)
  background : ∀ p s o, d.background p s ≠ .error (.overrun o)

theorem dispatchAll_ne_overrun (hd : d.Sound) (segs : List Segment) (s : σ) (o : Overrun) :
    dispatchAll d segs s ≠ .error (.overrun o) := by
  induction segs generalizing s with
  | nil => exact nofun
  | cons seg segs ih =>
    rw [dispatchAll]
    split
    · intro h
      rcases bind_eq_error.mp h with h | ⟨s', -, h⟩
      · exact hd.background _ _ _ h
      · exact ih s' h
    · intro h
      rcases bind_eq_error.mp h with h | ⟨⟨started, s'⟩, -, h⟩
      · exact hd.foreground _ _ _ h
      · dsimp only at h
        split at h
        · exact ih s' h
        · cases h

/-- A segment that cannot be built stops `run_cmd`. -/
theorem runSegments_of_error {t : Token} {ts : List Token} {o : Overrun}
    (h : nextSegment (t :: ts) = .error o) (s : σ) :
    runSegments d (t :: ts) s = .error (.overrun o) := by
  rw [runSegments]
  split
  · rename_i h'
    rw [h] at h'
    cases h'
    rfl
  · rename_i h'
    rw [h] at h'
    cases h'

theorem nextSegment_of_runSegments {ts : List Token} {s : σ} (hne : ts ≠ [])
    (h : ∀ o, runSegments d ts s ≠ .error (.overrun o)) : ∃ r, nextSegment ts = .ok r := by
  obtain ⟨t, ts, rfl⟩ := List.exists_cons_of_ne_nil hne
  cases hnext : nextSegment (t :: ts) with
  | error o => exact absurd (runSegments_of_error hnext s) (h o)
  | ok r => exact ⟨r, rfl⟩

end Dispatch

theorem noting_sound : noting.Sound := ⟨nofun, nofun⟩

/-- Noting a call down, `run_cmd` goes on behind its segment. -/
theorem runSegments_noting {ts rest : List Token} {seg : Segment} (hne : ts ≠ [])
    (h : nextSegment ts = .ok (seg, rest)) (hstray : seg.isStray = false) (calls : List Launch) :
    runSegments noting ts calls = runSegments noting rest (calls ++ [seg.launch]) := by
  obtain ⟨t, ts, rfl⟩ := List.exists_cons_of_ne_nil hne
  rw [runSegments]
  split
  · rename_i h'
    rw [h] at h'
    cases h'
  · rename_i h'
    rw [h] at h'
    cases h'
    rw [hstray, if_neg Bool.false_ne_true, Segment.launch]
    split <;> rfl

theorem fits_of_runSegments {S : TokenType → Prop} (g : Group S) (tail : List (Tok IsSep × Group S))
    (last : Option (Tok (· = .amp))) (hS : ∀ t, S t → t.IsStray) {calls : List Launch}
    (h : ∀ o, runSegments noting (g.tokens ++ (sepTokens tail ++ lastTokens last)) calls
      ≠ .error (.overrun o)) : ∀ seg ∈ segmentsFrom g tail last, Fits seg.pipeline := by
  have hne := g.tokens_append_ne_nil (sepTokens tail ++ lastTokens last)
  obtain ⟨r, hnext⟩ := nextSegment_of_runSegments hne h
  induction tail generalizing g calls r with
  | nil =>
    have hfits : Fits g.pipeline := by
      refine fits_of_nextSegment g hS (fun t ht => ?_) hnext
      rcases last with _ | a
      · cases ht
      · cases ht
        exact .inr a.2
    rw [segmentsFrom]
    exact List.forall_mem_singleton.mpr hfits
  | cons sg tail ih =>
    obtain ⟨sep, g'⟩ := sg
    rw [sepTokens_cons, List.cons_append, List.append_assoc] at hnext h hne
    have hfits : Fits g.pipeline :=
      fits_of_nextSegment g hS (by rintro t ⟨⟩; exact sep.2) hnext
    rw [runSegments_noting hne (nextSegment_sep g sep hS hfits _) (g.not_isStray _)] at h
    have hne' := g'.tokens_append_ne_nil (sepTokens tail ++ lastTokens last)
    obtain ⟨r', hnext'⟩ := nextSegment_of_runSegments hne' h
    rw [segmentsFrom]
    exact List.forall_mem_cons.mpr ⟨hfits, ih g' h hne' r' hnext'⟩

/-- **On an accepted token list `run_cmd` writes in bounds**, whatever its launches return, exactly
when every command of the line has fewer than `argvSize` words and at most `inFilesSize` and
`outFilesSize` files, and no pipeline more than `pipelineSize` of them. -/
theorem runCmd_inBounds_iff {ts : List Token} (h : parsing ts = .ok ()) :
    (∀ (σ : Type) (d : Dispatch σ), d.Sound → ∀ s o, runCmd d ts s ≠ .error (.overrun o)) ↔
      ∃ tree : Line IsStray, tree.tokens = ts ∧ tree.Fits := by
  obtain ⟨tree, rfl⟩ := (parsing_eq_ok_iff (fun _ h => h) fun _ _ h => h).mp h
  have hrun : ∀ (σ : Type) (d : Dispatch σ) (s : σ) (o : Overrun),
      runCmd d tree.tokens s = .error (.overrun o) ↔
        runSegments d tree.tokens s = .error (.overrun o) := by
    intro σ d s o
    rw [runCmd, bind_eq_error]
    refine or_iff_left ?_
    rintro ⟨_, _, h⟩
    cases h
  constructor
  · intro hall
    refine ⟨tree, rfl, ?_⟩
    rcases tree with _ | l
    · intro seg hseg
      cases hseg
    · exact fits_of_runSegments l.head l.tail l.last (fun _ h => h) fun o h =>
        hall _ noting noting_sound [] o ((hrun _ _ _ _).mpr h)
  · rintro ⟨tree', htokens, hfits⟩ σ d hd s o hov
    rw [hrun, ← htokens, runSegments_tokens d tree' (fun _ h => h) hfits] at hov
    exact dispatchAll_ne_overrun hd _ _ _ hov

/-- `a < f | b > g & c`, whatever the launches return. -/
theorem runCmd_inBounds_iff_pipe :
    let ts : List Token := [⟨.word, ['a']⟩, ⟨.lt, []⟩, ⟨.word, ['f']⟩, ⟨.pipe, []⟩, ⟨.word, ['b']⟩,
      ⟨.gt, []⟩, ⟨.word, ['g']⟩, ⟨.amp, []⟩, ⟨.word, ['c']⟩]
    parsing ts = .ok () ∧ ∀ (σ : Type) (d : Dispatch σ), d.Sound → ∀ s o,
      runCmd d ts s ≠ .error (.overrun o) :=
  ⟨rfl, (runCmd_inBounds_iff rfl).mpr ⟨some
    ⟨⟨⟨wordTok ['a'], [.redir ⟨⟨.lt, []⟩, .inl rfl⟩ (wordTok ['f'])]⟩,
        [(⟨⟨.pipe, []⟩, rfl⟩,
          ⟨wordTok ['b'], [.redir ⟨⟨.gt, []⟩, .inr (.inl rfl)⟩ (wordTok ['g'])]⟩)]⟩,
      [(⟨⟨.amp, []⟩, .inr rfl⟩, ⟨⟨wordTok ['c'], []⟩, []⟩)], none⟩, rfl, by decide⟩⟩

/-- **A command of 100 words** is accepted, and leaves no place for its NULL. -/
theorem not_runCmd_inBounds :
    parsing (List.replicate 100 ⟨.word, ['a']⟩) = .ok () ∧
      dispatched (List.replicate 100 ⟨.word, ['a']⟩) = .error (.overrun .argv) := by
  have hnext : nextSegment (List.replicate 100 ⟨.word, ['a']⟩) = .error .argv := by decide +kernel
  refine ⟨by decide +kernel, ?_⟩
  rw [dispatched, runCmd]
  exact bind_eq_error.mpr (.inl (runSegments_of_error hnext []))

end MiniProject.Shell
