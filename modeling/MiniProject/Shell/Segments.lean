import MiniProject.Shell.Parser

/-!
# Shell/Segments — `run_cmd` builds the parse tree the parser accepted

`run_cmd` cuts the token array at `;` and `&` and fills one `commands` record per stage, with no
help from the parser: it is a nested loop that looks one token ahead of a redirection and steps
over whatever it does not expect.  On the text of a tree its rounds are the groups of that tree,
each with the separator behind it (`rounds_tokens`), so that it reads every token once and
dispatches the segments of the tree (`runSegments_tokens`).

What is dispatched is a parameter: `runCmd` runs over any state on which a foreground and a
background launch act.
-/

namespace MiniProject.Shell

open TokenType

/-! ## The records `run_cmd` fills -/

/-- An entry of `out_files`. -/
structure OutFile where
  file : Text
  append : Bool
  deriving DecidableEq, Repr

/-- `commands` of `shell.h`, one stage of a pipeline; the three counters are the lengths. -/
structure Commands where
  argv : List Text := []
  inFiles : List Text := []
  outFiles : List OutFile := []
  deriving DecidableEq, Repr

/-- `terminator` of `execute.c`. -/
inductive Terminator
  | semi | amp | fin
  deriving DecidableEq, Repr

/-- A pipeline and the token that ended it. -/
structure Segment where
  pipeline : List Commands
  term : Terminator
  deriving DecidableEq, Repr

namespace Commands

/-- `cur->argv[cur->argcount++] = v`. -/
def addArg (c : Commands) (v : Text) : Except Overrun Commands :=
  if c.argv.length < argvSize then .ok { c with argv := c.argv ++ [v] } else .error .argv

/-- `cur->in_files[cur->incount++] = v`. -/
def addIn (c : Commands) (v : Text) : Except Overrun Commands :=
  if c.inFiles.length < inFilesSize then .ok { c with inFiles := c.inFiles ++ [v] }
  else .error .inFiles

/-- `cur->out_files[cur->outcount++]`, its two fields set. -/
def addOut (c : Commands) (v : Text) (append : Bool) : Except Overrun Commands :=
  if c.outFiles.length < outFilesSize then
    .ok { c with outFiles := c.outFiles ++ [⟨v, append⟩] }
  else .error .outFiles

/-- `cur->argv[cur->argcount] = NULL`. -/
def nullTerminate (c : Commands) : Except Overrun Commands :=
  if c.argv.length < argvSize then .ok c else .error .argv

end Commands

/-- `pipeline[0..stage_count)` and `*cur`. -/
structure Builder where
  done : List Commands := []
  cur : Commands := {}

/-- `stage_count++; cur = &pipeline[stage_count]`: the record is written to next. -/
def Builder.next (b : Builder) : Except Overrun Builder :=
  if b.done.length + 1 < pipelineSize then .ok ⟨b.done ++ [b.cur], {}⟩ else .error .pipeline

/-- The inner loop of `run_cmd`: the record under construction and the tokens it stopped at. -/
def collect : Builder → List Token → Except Overrun (Builder × List Token)
  | b, [] => .ok (b, [])
  | b, t :: ts =>
    match t.type with
    | .semi => .ok (b, t :: ts)
    | .amp => .ok (b, t :: ts)
    | .word => do collect { b with cur := ← b.cur.addArg t.value } ts
    | .lt =>
      match ts with
      | [] => .ok (b, []) -- `i + 1 < tok_count` fails and no other branch takes the token
      | f :: ts => do collect { b with cur := ← b.cur.addIn f.value } ts
    | .gt =>
      match ts with
      | [] => .ok (b, [])
      | f :: ts => do collect { b with cur := ← b.cur.addOut f.value false } ts
    | .gtgt =>
      match ts with
      | [] => .ok (b, [])
      | f :: ts => do collect { b with cur := ← b.cur.addOut f.value true } ts
    | .pipe => do
      let cur ← b.cur.nullTerminate
      let b ← Builder.next { b with cur }
      collect b ts
    | _ => collect b ts

/-- One round of the outer loop of `run_cmd`, up to the dispatch. -/
def nextSegment (ts : List Token) : Except Overrun (Segment × List Token) := do
  let (b, rest) ← collect {} ts
  let cur ← b.cur.nullTerminate
  let pipeline := b.done ++ [cur]
  match rest with
  | [] => .ok (⟨pipeline, .fin⟩, [])
  | t :: rest => .ok (⟨pipeline, if t.type = .semi then .semi else .amp⟩, rest)

/-- `stage_count == 0 || pipeline[0].argcount == 0`: the round ends without a dispatch. -/
def Segment.isStray (seg : Segment) : Bool :=
  seg.pipeline.length == 0 || (seg.pipeline.headD {}).argv.length == 0

/-! ## The outer loop -/

/-- Why the shell does not go on: `exit`, or a write past an array. -/
inductive Halt
  | exit
  | overrun (o : Overrun)
  deriving DecidableEq, Repr

/-- What `run_cmd` calls: `run_foreground` with its return value, `run_background` and
`flush_pending_bg_msg`. -/
structure Dispatch (σ : Type*) where
  foreground : List Commands → σ → Except Halt (Bool × σ)
  background : List Commands → σ → Except Halt σ
  flushPending : σ → σ

/-- **The inner loop takes tokens off the front only.** -/
theorem collect_suffix {b b' : Builder} {ts rest : List Token}
    (h : collect b ts = .ok (b', rest)) : rest <:+ ts := by
  fun_induction collect b ts with
  | case1 | case2 | case3 => cases h; exact List.suffix_refl _
  | case5 | case7 | case9 => cases h; exact List.nil_suffix
  | case4 b t ts _ ih =>
    obtain ⟨_, -, h⟩ := bind_eq_ok.mp h
    exact (ih _ h).trans (List.suffix_cons _ _)
  | case6 b t _ f ts ih | case8 b t _ f ts ih | case10 b t _ f ts ih =>
    obtain ⟨_, -, h⟩ := bind_eq_ok.mp h
    exact (ih _ h).trans (List.suffix_append [t, f] ts)
  | case11 b t ts _ ih =>
    obtain ⟨_, -, h⟩ := bind_eq_ok.mp h
    obtain ⟨_, -, h⟩ := bind_eq_ok.mp h
    exact (ih _ h).trans (List.suffix_cons _ _)
  | case12 b t ts _ _ _ _ _ _ _ ih => exact (ih h).trans (List.suffix_cons _ _)

/-- A round leaves what stands behind the separator it stopped at, or nothing. -/
theorem nextSegment_suffix {ts rest : List Token} {seg : Segment}
    (h : nextSegment ts = .ok (seg, rest)) : rest = [] ∨ ∃ t, t :: rest <:+ ts := by
  obtain ⟨⟨b, us⟩, hb, h⟩ := bind_eq_ok.mp h
  obtain ⟨_, -, h⟩ := bind_eq_ok.mp h
  have hsuffix := collect_suffix hb
  cases us with
  | nil => cases h; exact .inl rfl
  | cons u us => cases h; exact .inr ⟨u, hsuffix⟩

/-- **A round of the outer loop makes progress.** -/
theorem nextSegment_length_lt {t : Token} {ts rest : List Token} {seg : Segment}
    (h : nextSegment (t :: ts) = .ok (seg, rest)) : rest.length < (t :: ts).length := by
  rcases nextSegment_suffix h with rfl | ⟨u, hu⟩
  · simp
  · exact Nat.lt_of_succ_le hu.length_le

/-- The outer loop of `run_cmd`. -/
def runSegments {σ : Type*} (d : Dispatch σ) : List Token → σ → Except Halt σ
  | [], s => .ok s
  | t :: ts, s =>
    match h : nextSegment (t :: ts) with
    | .error o => .error (.overrun o)
    | .ok (seg, rest) =>
      have := nextSegment_length_lt h
      if seg.isStray then runSegments d rest s
      else if seg.term = .amp then do runSegments d rest (← d.background seg.pipeline s)
      else do
        let (started, s) ← d.foreground seg.pipeline s
        if started then runSegments d rest s else .ok s
termination_by ts => ts.length
decreasing_by
  all_goals
    rw [List.length_cons] at this
    simp only [List.length_cons]
    omega

/-- The rounds of the outer loop, without what they dispatch: the tokens a round reads and the
segment it has built at its end. -/
def rounds : List Token → Except Overrun (List (List Token × Segment))
  | [] => .ok []
  | t :: ts =>
    match h : nextSegment (t :: ts) with
    | .error o => .error o
    | .ok (seg, rest) =>
      have := nextSegment_length_lt h
      do .ok (((t :: ts).take ((t :: ts).length - rest.length), seg) :: (← rounds rest))
termination_by ts => ts.length
decreasing_by
  rw [List.length_cons] at this
  simp only [List.length_cons]
  omega

/-- `run_cmd`. -/
def runCmd {σ : Type*} (d : Dispatch σ) (tokens : List Token) (s : σ) : Except Halt σ := do
  let s ← runSegments d tokens s
  .ok (d.flushPending s)

/-! ## The segments of a tree -/

variable {S : TokenType → Prop}

/-- The argument an item adds. -/
def Item.arg : Item S → Option Text
  | .word w => some w.1.value
  | .redir _ _ => none
  | .stray _ => none

/-- The input file an item names: the word after `<`. -/
def Item.inFile : Item S → Option Text
  | .redir r w => if r.1.type = .lt then some w.1.value else none
  | _ => none

/-- The output file an item names: the word after `>` or `>>`. -/
def Item.outFile : Item S → Option OutFile
  | .redir r w => if r.1.type = .lt then none else some ⟨w.1.value, r.1.type = .gtgt⟩
  | _ => none

/-- What a list of items adds to a record. -/
def Commands.extend (c : Commands) (items : List (Item S)) : Commands where
  argv := c.argv ++ items.filterMap Item.arg
  inFiles := c.inFiles ++ items.filterMap Item.inFile
  outFiles := c.outFiles ++ items.filterMap Item.outFile

/-- **The record of a command**: its words, the files after `<`, the files after `>` and `>>`, each
in order. -/
def Cmd.commands (c : Cmd S) : Commands where
  argv := c.head.1.value :: c.items.filterMap Item.arg
  inFiles := c.items.filterMap Item.inFile
  outFiles := c.items.filterMap Item.outFile

/-- The pipeline of a group: a record for each command between the pipes. -/
def Group.pipeline (g : Group S) : List Commands :=
  g.head.commands :: g.tail.map fun pc => pc.2.commands

/-- The terminator a separator stands for. -/
def Tok.term (s : Tok IsSep) : Terminator := if s.1.type = .semi then .semi else .amp

/-- The segments of a group and of what follows it: every group with the separator after it. -/
def segmentsFrom (g : Group S) : List (Tok IsSep × Group S) → Option (Tok (· = .amp)) → List Segment
  | [], last => [⟨g.pipeline, if last.isSome then .amp else .fin⟩]
  | (s, g') :: tail, last => ⟨g.pipeline, Tok.term s⟩ :: segmentsFrom g' tail last

/-- **The segments of a line**, in order. -/
def Line.segments : Line S → List Segment
  | none => []
  | some l => segmentsFrom l.head l.tail l.last

/-- The rounds over a group and what follows it: the tokens of every group and of the separator
after it, with the segment. -/
def roundsFrom (g : Group S) :
    List (Tok IsSep × Group S) → Option (Tok (· = .amp)) → List (List Token × Segment)
  | [], last => [(g.tokens ++ lastTokens last, ⟨g.pipeline, if last.isSome then .amp else .fin⟩)]
  | (s, g') :: tail, last =>
    (g.tokens ++ [s.1], ⟨g.pipeline, Tok.term s⟩) :: roundsFrom g' tail last

/-- The rounds over a line. -/
def Line.rounds : Line S → List (List Token × Segment)
  | none => []
  | some l => roundsFrom l.head l.tail l.last

theorem map_snd_roundsFrom (g : Group S) (tail : List (Tok IsSep × Group S))
    (last : Option (Tok (· = .amp))) :
    (roundsFrom g tail last).map Prod.snd = segmentsFrom g tail last := by
  induction tail generalizing g with
  | nil => rfl
  | cons sg tail ih => rw [roundsFrom, List.map_cons, ih, segmentsFrom]

/-- The rounds over a line build its segments. -/
theorem Line.map_snd_rounds (l : Line S) : l.rounds.map Prod.snd = l.segments := by
  rcases l with _ | l
  · rfl
  · exact map_snd_roundsFrom l.head l.tail l.last

/-! ## Room in the arrays -/

/-- A record fits `argv` (with its NULL), `in_files` and `out_files`. -/
def Commands.Fits (c : Commands) : Prop :=
  c.argv.length < argvSize ∧ c.inFiles.length ≤ inFilesSize ∧ c.outFiles.length ≤ outFilesSize

/-- …without the NULL. -/
def Commands.Room (c : Commands) : Prop :=
  c.argv.length ≤ argvSize ∧ c.inFiles.length ≤ inFilesSize ∧ c.outFiles.length ≤ outFilesSize

theorem Commands.Fits.room {c : Commands} (h : c.Fits) : c.Room := ⟨Nat.le_of_lt h.1, h.2⟩

/-- A pipeline fits the array of stages, and each stage its own. -/
def Fits (p : List Commands) : Prop := p.length ≤ pipelineSize ∧ ∀ c ∈ p, c.Fits

/-- Every pipeline of a line fits. -/
def Line.Fits (l : Line S) : Prop := ∀ seg ∈ l.segments, Shell.Fits seg.pipeline

instance (c : Commands) : Decidable c.Fits := inferInstanceAs (Decidable (_ ∧ _))
instance (p : List Commands) : Decidable (Fits p) := inferInstanceAs (Decidable (_ ∧ _))
instance (l : Line S) : Decidable l.Fits := inferInstanceAs (Decidable (∀ seg ∈ l.segments, _))

/-! ## The inner loop on a tree

Records only grow, so room for the finished record is room at every step on the way to it. -/

theorem Commands.extend_singleton (c : Commands) (i : Item S) :
    c.extend [i] = ⟨c.argv ++ i.arg.toList, c.inFiles ++ i.inFile.toList,
      c.outFiles ++ i.outFile.toList⟩ := by
  simp only [Commands.extend, List.filterMap_cons, List.filterMap_nil]
  cases i.arg <;> cases i.inFile <;> cases i.outFile <;> rfl

/-- One item extends the record under construction. -/
theorem collect_item (done : List Commands) (c : Commands) (item : Item S)
    (hS : ∀ t, S t → t.IsStray) (hfit : (c.extend [item]).Room) (ts : List Token) :
    collect ⟨done, c⟩ (item.tokens ++ ts) = collect ⟨done, c.extend [item]⟩ ts := by
  rw [Commands.extend_singleton] at hfit ⊢
  obtain ⟨harg, hin, hout⟩ := hfit
  simp only [List.length_append] at harg hin hout
  cases item with
  | word w =>
    have hw : w.1.type = .word := w.2
    have hroom : c.argv.length < argvSize := by
      simp [Item.arg] at harg
      omega
    rw [Item.tokens, List.singleton_append, collect.eq_def]
    simp [hw, Commands.addArg, hroom, Item.arg, Item.inFile, Item.outFile]
  | redir r w =>
    rcases r.2 with hr | hr | hr
    · have hroom : c.inFiles.length < inFilesSize := by
        simp [Item.inFile, hr] at hin
        omega
      simp [Item.tokens, collect, hr, Commands.addIn, hroom, Item.arg, Item.inFile, Item.outFile]
    · have hroom : c.outFiles.length < outFilesSize := by
        simp [Item.outFile, hr] at hout
        omega
      simp [Item.tokens, collect, hr, Commands.addOut, hroom, Item.arg, Item.inFile, Item.outFile]
    · have hroom : c.outFiles.length < outFilesSize := by
        simp [Item.outFile, hr] at hout
        omega
      simp [Item.tokens, collect, hr, Commands.addOut, hroom, Item.arg, Item.inFile, Item.outFile]
  | stray t =>
    rw [Item.tokens, List.singleton_append, collect.eq_def]
    rcases hS _ t.2 with ht | ht | ht <;> simp [ht, Item.arg, Item.inFile, Item.outFile]

theorem Commands.extend_cons (c : Commands) (item : Item S) (items : List (Item S)) :
    c.extend (item :: items) = (c.extend [item]).extend items := by
  simp only [Commands.extend, List.filterMap_cons, List.filterMap_nil]
  cases item.arg <;> cases item.inFile <;> cases item.outFile <;> simp

/-- A record that has room for more items has room without them. -/
theorem Commands.room_of_extend {c : Commands} {items : List (Item S)}
    (h : (c.extend items).Room) : c.Room := by
  obtain ⟨harg, hin, hout⟩ := h
  simp only [Commands.extend, List.length_append] at harg hin hout
  exact ⟨by omega, by omega, by omega⟩

/-- **The items of a command extend the record under construction.** -/
theorem collect_items (done : List Commands) (c : Commands) (items : List (Item S))
    (hS : ∀ t, S t → t.IsStray) (hfit : (c.extend items).Room) (ts : List Token) :
    collect ⟨done, c⟩ (itemTokens items ++ ts) = collect ⟨done, c.extend items⟩ ts := by
  induction items generalizing c with
  | nil => simp [Commands.extend]
  | cons item items ih =>
    rw [Commands.extend_cons] at hfit ⊢
    rw [itemTokens_cons, List.append_assoc,
      collect_item done c item hS (Commands.room_of_extend hfit), ih _ hfit]

/-- A command fills a fresh record. -/
theorem collect_cmd (done : List Commands) (c : Cmd S) (hS : ∀ t, S t → t.IsStray)
    (hfit : c.commands.Room) (ts : List Token) :
    collect ⟨done, {}⟩ (c.tokens ++ ts) = collect ⟨done, c.commands⟩ ts := by
  have hrec : (⟨[c.head.1.value], [], []⟩ : Commands).extend c.items = c.commands := by
    simp [Commands.extend, Cmd.commands]
  rw [← hrec] at hfit ⊢
  rw [← collect_items done _ c.items hS hfit ts, Cmd.tokens, List.cons_append]
  have hfirst : (({} : Commands).extend [Item.word (S := S) c.head]).Room := by
    rw [Commands.extend_singleton]
    exact ⟨show 1 ≤ 100 by decide, Nat.zero_le _, Nat.zero_le _⟩
  exact collect_item done {} (.word c.head) hS hfirst _

/-- A pipe closes the record and opens the next. -/
theorem collect_pipe (done : List Commands) (c : Commands) (p : Tok (· = .pipe))
    (hc : c.Fits) (hlen : done.length + 1 < pipelineSize) (ts : List Token) :
    collect ⟨done, c⟩ (p.1 :: ts) = collect ⟨done ++ [c], {}⟩ ts := by
  have hp : p.1.type = .pipe := p.2
  rw [collect.eq_def]
  simp [hp, Commands.nullTerminate, Builder.next, hc.1, hlen]

/-- The rest of a group fills a record for each of its commands. -/
theorem collect_pipes (done : List Commands) (c : Commands)
    (tail : List (Tok (· = .pipe) × Cmd S)) (hS : ∀ t, S t → t.IsStray)
    (hfit : Fits (done ++ c :: tail.map fun pc => pc.2.commands)) (ts : List Token) :
    ∃ b : Builder, collect ⟨done, c⟩ (pipeTokens tail ++ ts) = collect b ts ∧ b.cur.Fits ∧
      b.done ++ [b.cur] = done ++ c :: tail.map fun pc => pc.2.commands := by
  induction tail generalizing done c with
  | nil => exact ⟨⟨done, c⟩, rfl, hfit.2 c (by simp), rfl⟩
  | cons pc tail ih =>
    obtain ⟨p, c'⟩ := pc
    have hlen : done.length + 1 < pipelineSize := by
      have := hfit.1
      simp at this
      omega
    have happ : done ++ c :: ((p, c') :: tail).map (fun pc => pc.2.commands)
        = (done ++ [c]) ++ c'.commands :: tail.map fun pc => pc.2.commands := by simp
    rw [happ] at hfit ⊢
    rw [pipeTokens_cons, List.cons_append, List.append_assoc,
      collect_pipe done c p (hfit.2 c (by simp)) hlen,
      collect_cmd _ c' hS (hfit.2 c'.commands (by simp)).room]
    exact ih _ _ hfit

/-- **A group fills its pipeline.** -/
theorem collect_group (g : Group S) (hS : ∀ t, S t → t.IsStray) (hfit : Fits g.pipeline)
    (ts : List Token) : ∃ b : Builder, collect {} (g.tokens ++ ts) = collect b ts ∧ b.cur.Fits ∧
      b.done ++ [b.cur] = g.pipeline := by
  rw [Group.tokens, List.append_assoc]
  rw [collect_cmd [] g.head hS (hfit.2 _ (by simp [Group.pipeline])).room]
  exact collect_pipes [] g.head.commands g.tail hS hfit ts

/-- One round on the last group of a line. -/
theorem nextSegment_last (g : Group S) (hS : ∀ t, S t → t.IsStray) (hfit : Fits g.pipeline) :
    nextSegment g.tokens = .ok (⟨g.pipeline, .fin⟩, []) := by
  obtain ⟨b, hb, hcur, hpipe⟩ := collect_group g hS hfit []
  rw [List.append_nil] at hb
  simp [nextSegment, hb, collect, Commands.nullTerminate, hcur.1, ← hpipe]

/-- One round on a group and the separator after it. -/
theorem nextSegment_sep (g : Group S) (s : Tok IsSep) (hS : ∀ t, S t → t.IsStray)
    (hfit : Fits g.pipeline) (ts : List Token) :
    nextSegment (g.tokens ++ s.1 :: ts) = .ok (⟨g.pipeline, Tok.term s⟩, ts) := by
  obtain ⟨b, hb, hcur, hpipe⟩ := collect_group g hS hfit (s.1 :: ts)
  have hstop : collect b (s.1 :: ts) = .ok (b, s.1 :: ts) := by
    rw [collect.eq_def]
    rcases s.2 with hs | hs <;> simp [hs]
  simp [nextSegment, hb, hstop, Commands.nullTerminate, hcur.1, ← hpipe, Tok.term]

/-! ## The rounds

Every token list is cut by the rounds into the stretches they read; what is dispatched is the
segment of each round that is not stray, in order. -/

/-- A round in front of the others. -/
theorem rounds_of_nextSegment {ts rest : List Token} {seg : Segment}
    {rs : List (List Token × Segment)} (hne : ts ≠ []) (h : nextSegment ts = .ok (seg, rest))
    (hrest : rounds rest = .ok rs) :
    rounds ts = .ok ((ts.take (ts.length - rest.length), seg) :: rs) := by
  obtain ⟨t, ts, rfl⟩ := List.exists_cons_of_ne_nil hne
  rw [rounds]
  split
  · rename_i h'; rw [h] at h'; cases h'
  · rename_i h'
    rw [h] at h'
    cases h'
    simp only [hrest]
    rfl

/-- The first round of a list that has rounds, and the others. -/
theorem nextSegment_of_rounds {t : Token} {ts : List Token} {rs : List (List Token × Segment)}
    (h : rounds (t :: ts) = .ok rs) : ∃ seg rest rs', nextSegment (t :: ts) = .ok (seg, rest) ∧
      rounds rest = .ok rs' ∧
      rs = ((t :: ts).take ((t :: ts).length - rest.length), seg) :: rs' := by
  rw [rounds] at h
  split at h
  · cases h
  · rename_i seg rest hnext
    obtain ⟨rs', hrest, h⟩ := bind_eq_ok.mp h
    cases h
    exact ⟨seg, rest, rs', hnext, hrest, rfl⟩

/-- **The rounds read every token once**, in order. -/
theorem flatten_rounds {ts : List Token} {rs : List (List Token × Segment)}
    (h : rounds ts = .ok rs) : (rs.map Prod.fst).flatten = ts := by
  induction hn : ts.length using Nat.strong_induction_on generalizing ts rs with
  | _ n ih =>
  cases ts with
  | nil => rw [rounds] at h; cases h; rfl
  | cons t ts =>
    obtain ⟨seg, rest, rs', hnext, hrest, rfl⟩ := nextSegment_of_rounds h
    have hsuffix : rest <:+ t :: ts := by
      rcases nextSegment_suffix hnext with rfl | ⟨u, hu⟩
      · exact List.nil_suffix
      · exact (List.suffix_cons u rest).trans hu
    rw [List.map_cons, List.flatten_cons, ih _ (hn ▸ nextSegment_length_lt hnext) hrest rfl]
    conv_rhs => rw [← List.take_append_drop ((t :: ts).length - rest.length) (t :: ts)]
    rw [← List.suffix_iff_eq_drop.mp hsuffix]

section Dispatch

variable {σ : Type*} (d : Dispatch σ)

/-- Dispatching segments one after the other, until a foreground launch returns 0. -/
def dispatchAll : List Segment → σ → Except Halt σ
  | [], s => .ok s
  | seg :: segs, s =>
    if seg.term = .amp then do dispatchAll segs (← d.background seg.pipeline s)
    else do
      let (started, s) ← d.foreground seg.pipeline s
      if started then dispatchAll segs s else .ok s

/-- **The outer loop dispatches its rounds**, the stray ones passed over. -/
theorem runSegments_of_rounds {ts : List Token} {rs : List (List Token × Segment)}
    (h : rounds ts = .ok rs) (s : σ) :
    runSegments d ts s = dispatchAll d ((rs.map Prod.snd).filter (!·.isStray)) s := by
  induction hn : ts.length using Nat.strong_induction_on generalizing ts rs s with
  | _ n ih =>
  cases ts with
  | nil => rw [rounds] at h; cases h; rw [runSegments]; rfl
  | cons t ts =>
    obtain ⟨seg, rest, rs', hnext, hrest, rfl⟩ := nextSegment_of_rounds h
    have ih := fun s => ih _ (hn ▸ nextSegment_length_lt hnext) hrest s rfl
    rw [runSegments]
    split
    · rename_i h'; rw [hnext] at h'; cases h'
    · rename_i h'
      rw [hnext] at h'
      cases h'
      rw [List.map_cons, List.filter_cons]
      cases seg.isStray with
      | true => exact ih s
      | false => simp only [Bool.false_eq_true, if_false, Bool.not_false, if_true, dispatchAll, ih]

end Dispatch

/-! ## The outer loop on a tree -/

theorem Group.tokens_append_ne_nil (g : Group S) (ts : List Token) : g.tokens ++ ts ≠ [] := by
  simp [Group.tokens, Cmd.tokens]

theorem Group.not_isStray (g : Group S) (t : Terminator) :
    (⟨g.pipeline, t⟩ : Segment).isStray = false := rfl

/-- A round that reads `us` off the front. -/
theorem rounds_append {us rest : List Token} {seg : Segment} {rs : List (List Token × Segment)}
    (hne : us ++ rest ≠ []) (h : nextSegment (us ++ rest) = .ok (seg, rest))
    (hrest : rounds rest = .ok rs) : rounds (us ++ rest) = .ok ((us, seg) :: rs) := by
  rw [rounds_of_nextSegment hne h hrest, List.length_append, Nat.add_sub_cancel, List.take_left']
  rfl

theorem rounds_nil : rounds [] = .ok [] := by rw [rounds]

/-- **The rounds over the text of a tree are its groups**, each with the separator after it. -/
theorem rounds_from (g : Group S) (tail : List (Tok IsSep × Group S))
    (last : Option (Tok (· = .amp))) (hS : ∀ t, S t → t.IsStray)
    (hfit : ∀ seg ∈ segmentsFrom g tail last, Fits seg.pipeline) :
    rounds (g.tokens ++ (sepTokens tail ++ lastTokens last)) = .ok (roundsFrom g tail last) := by
  induction tail generalizing g with
  | nil =>
    have hne := g.tokens_append_ne_nil (lastTokens last)
    rw [show sepTokens [] ++ lastTokens last = lastTokens last from rfl, roundsFrom]
    rcases last with _ | a
    · have h := nextSegment_last g hS (hfit _ (List.mem_singleton_self _))
      rw [← List.append_nil g.tokens] at h
      simpa [lastTokens] using rounds_append (by simpa [lastTokens] using hne) h rounds_nil
    · have h := nextSegment_sep g ⟨a.1, .inr a.2⟩ hS (hfit _ (List.mem_singleton_self _)) []
      have hterm : Tok.term ⟨a.1, .inr a.2⟩ = .amp := by
        rw [Tok.term, a.2]; rfl
      rw [hterm, ← List.append_nil [a.1], ← List.append_assoc] at h
      simpa [lastTokens] using rounds_append (by simp) h rounds_nil
  | cons sg tail ih =>
    obtain ⟨sep, g'⟩ := sg
    rw [segmentsFrom] at hfit
    have h := nextSegment_sep g sep hS (hfit _ List.mem_cons_self)
      (g'.tokens ++ (sepTokens tail ++ lastTokens last))
    have hrest := ih g' fun seg hseg => hfit seg (List.mem_cons_of_mem _ hseg)
    rw [roundsFrom, sepTokens_cons, List.cons_append, List.append_assoc]
    rw [← List.singleton_append (x := sep.1), ← List.append_assoc] at h ⊢
    exact rounds_append (by simp) h hrest

/-- **The rounds over the text of a tree are those of the tree.** -/
theorem rounds_tokens (l : Line S) (hS : ∀ t, S t → t.IsStray) (hfit : l.Fits) :
    rounds l.tokens = .ok l.rounds := by
  rcases l with _ | l
  · exact rounds_nil
  · exact rounds_from l.head l.tail l.last hS hfit

theorem segmentsFrom_not_isStray (g : Group S) (tail : List (Tok IsSep × Group S))
    (last : Option (Tok (· = .amp))) : ∀ seg ∈ segmentsFrom g tail last, seg.isStray = false := by
  induction tail generalizing g with
  | nil => simp [segmentsFrom, g.not_isStray]
  | cons sg tail ih => simpa [segmentsFrom, g.not_isStray] using ih sg.2

/-- No segment of a tree is stray: every command of it has an argument. -/
theorem Line.not_isStray (l : Line S) : ∀ seg ∈ l.segments, seg.isStray = false := by
  rcases l with _ | l
  · simp [Line.segments]
  · exact segmentsFrom_not_isStray l.head l.tail l.last

/-- **`run_cmd` on the text of a tree dispatches the segments of the tree.** -/
theorem runSegments_tokens {σ : Type*} (d : Dispatch σ) (l : Line S) (hS : ∀ t, S t → t.IsStray)
    (hfit : l.Fits) (s : σ) : runSegments d l.tokens s = dispatchAll d l.segments s := by
  have hkept : l.segments.filter (!·.isStray) = l.segments :=
    List.filter_eq_self.mpr fun seg hseg => by simp [l.not_isStray seg hseg]
  rw [runSegments_of_rounds d (rounds_tokens l hS hfit), l.map_snd_rounds, hkept]

/-! ## What is dispatched -/

/-- A call `run_cmd` makes. -/
inductive Launch
  | foreground (pipeline : List Commands)
  | background (pipeline : List Commands)
  deriving DecidableEq, Repr

/-- The call a segment leads to. -/
def Segment.launch (seg : Segment) : Launch :=
  if seg.term = .amp then .background seg.pipeline else .foreground seg.pipeline

/-- Calls that are only noted down, every foreground one as started. -/
def noting : Dispatch (List Launch) where
  foreground p calls := .ok (true, calls ++ [.foreground p])
  background p calls := .ok (calls ++ [.background p])
  flushPending calls := calls

/-- The calls `run_cmd` makes for a token list when none of them stops it. -/
def dispatched (ts : List Token) : Except Halt (List Launch) := runCmd noting ts []

theorem dispatchAll_noting (segs : List Segment) (calls : List Launch) :
    dispatchAll noting segs calls = .ok (calls ++ segs.map Segment.launch) := by
  induction segs generalizing calls with
  | nil => simp [dispatchAll]
  | cons seg segs ih =>
    have hstep : dispatchAll noting (seg :: segs) calls
        = dispatchAll noting segs (calls ++ [seg.launch]) := by
      by_cases h : seg.term = .amp
      · rw [dispatchAll, if_pos h, Segment.launch, if_pos h]; rfl
      · rw [dispatchAll, if_neg h, Segment.launch, if_neg h]; rfl
    rw [hstep, ih, List.map_cons, List.append_assoc, List.singleton_append]

/-- `run_cmd` reads `ts` the way `tree` is written: its rounds are the groups of the tree in order,
each over the group's tokens and the separator after it, so that every token is read in one round;
none ends with the `continue` of a stray token; and what it calls is what the segments say. -/
structure ReadAs (tree : Line S) (ts : List Token) : Prop where
  rounds : Shell.rounds ts = .ok tree.rounds
  readOnce : (tree.rounds.map Prod.fst).flatten = ts
  noneStray : ∀ r ∈ tree.rounds, r.2.isStray = false
  launches : dispatched ts = .ok (tree.segments.map Segment.launch)

/-- The grammar with stray tokens in `S` reads `ts`, and `run_cmd` builds what any tree it reads
there says. -/
def BuildsTree (S : TokenType → Prop) (ts : List Token) : Prop :=
  Derivable S ts ∧ ∀ tree : Line S, tree.tokens = ts → tree.Fits → ReadAs tree ts

theorem buildsTree_of_parsing {ts : List Token} (hS : ∀ t, S t → t.IsStray)
    (hts : ∀ t ∈ ts, t.type.IsStray → S t.type) (h : parsing ts = .ok ()) : BuildsTree S ts := by
  refine ⟨(parsing_eq_ok_iff hS hts).mp h, ?_⟩
  rintro tree rfl hfit
  have hrounds := rounds_tokens tree hS hfit
  refine ⟨hrounds, flatten_rounds hrounds, fun r hr => ?_, ?_⟩
  · exact tree.not_isStray r.2 (tree.map_snd_rounds ▸ List.mem_map_of_mem hr)
  · rw [dispatched, runCmd, runSegments_tokens noting tree hS hfit, dispatchAll_noting]
    simp [noting]

/-- **What `run_cmd` builds is the parse tree of what the parser accepted**: a round and a call for
each group in order, in the background exactly when `&` follows it, with a record for each of its
commands, every token read once.  With no stray token in the list the grammar is the one without
them. -/
theorem dispatched_of_parsing {ts : List Token} (h : parsing ts = .ok ()) :
    BuildsTree IsStray ts ∧ ((∀ t ∈ ts, ¬ t.type.IsStray) → BuildsTree NoStray ts) :=
  ⟨buildsTree_of_parsing (fun _ h => h) (fun _ _ h => h) h,
    fun hno => buildsTree_of_parsing (fun _ h => h.elim) (fun t ht hst => hno t ht hst) h⟩

/-- A word of a command line. -/
def wordTok (w : Text) : Tok (· = .word) := ⟨⟨.word, w⟩, rfl⟩

/-- Two commands with a pipe between them. -/
def pipeOf (a b : Cmd NoStray) : Group NoStray := ⟨a, [(⟨⟨.pipe, []⟩, rfl⟩, b)]⟩

/-- The tree of `a < f | b & c`. -/
def pipeTree : Line NoStray :=
  some ⟨pipeOf ⟨wordTok ['a'], [.redir ⟨⟨.lt, []⟩, .inl rfl⟩ (wordTok ['f'])]⟩ ⟨wordTok ['b'], []⟩,
    [(⟨⟨.amp, []⟩, .inr rfl⟩, ⟨⟨wordTok ['c'], []⟩, []⟩)], none⟩

/-- `a < f | b & c` is read in two rounds: a background pipeline of two stages and a foreground
command. -/
theorem dispatched_of_parsing_pipe :
    ReadAs pipeTree [⟨.word, ['a']⟩, ⟨.lt, []⟩, ⟨.word, ['f']⟩, ⟨.pipe, []⟩, ⟨.word, ['b']⟩,
        ⟨.amp, []⟩, ⟨.word, ['c']⟩] ∧
      pipeTree.segments.map Segment.launch =
        [.background [⟨[['a']], [['f']], []⟩, ⟨[['b']], [], []⟩],
          .foreground [⟨[['c']], [], []⟩]] :=
  ⟨((dispatched_of_parsing rfl).2 (by decide)).2 pipeTree rfl (by decide), rfl⟩

end MiniProject.Shell
