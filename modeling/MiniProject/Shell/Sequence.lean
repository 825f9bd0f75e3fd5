import MiniProject.Shell.Launch

/-!
# Shell/Sequence — where a line stops

`run_foreground` returns 0 if it starts nothing, and `run_cmd` then leaves the rest of the line
alone; `run_background` returns nothing, and `run_cmd` goes on.  So a line stops at a command that
is nowhere, with everything before it executed, exactly as long as no launch in the background fails
on the way (`stops_iff`).
-/

namespace MiniProject.Shell

open TokenType

/-! ## The initial stretch up to a failure -/

section UpTo

variable {α : Type*} {p : α → Bool}

/-- The elements up to the first without `p`, that one included. -/
def upTo (p : α → Bool) : List α → List α
  | [] => []
  | a :: l => a :: if p a then upTo p l else []

theorem upTo_isPrefix (l : List α) : upTo p l <+: l := by
  induction l with
  | nil => exact List.nil_prefix
  | cons a l ih =>
    rw [upTo]
    split
    · exact (List.prefix_cons_inj a).mpr ih
    · exact (List.prefix_cons_inj a).mpr List.nil_prefix

/-- What passes is passed over. -/
theorem upTo_append {l : List α} (h : ∀ a ∈ l, p a = true) (l' : List α) :
    upTo p (l ++ l') = l ++ upTo p l' := by
  induction l with
  | nil => rfl
  | cons a l ih =>
    obtain ⟨ha, hl⟩ := List.forall_mem_cons.mp h
    rw [List.cons_append, upTo, if_pos ha, ih hl, List.cons_append]

/-- An element of the stretch has only such in front of it that pass. -/
theorem of_upTo_eq {l pre post : List α} {a : α} (h : upTo p l = pre ++ a :: post) :
    (∀ b ∈ pre, p b = true) ∧
      ∃ rest, l = pre ++ a :: rest ∧ post = if p a then upTo p rest else [] := by
  induction pre generalizing l with
  | nil =>
    cases l with
    | nil => cases h
    | cons b l =>
      rw [upTo, List.nil_append, List.cons.injEq] at h
      obtain ⟨rfl, rfl⟩ := h
      exact ⟨nofun, l, rfl, rfl⟩
  | cons b pre ih =>
    cases l with
    | nil => cases h
    | cons c l =>
      rw [upTo, List.cons_append, List.cons.injEq] at h
      obtain ⟨rfl, h⟩ := h
      split at h
      · rename_i hc
        obtain ⟨hpre, rest, rfl, hpost⟩ := ih h
        exact ⟨List.forall_mem_cons.mpr ⟨hc, hpre⟩, rest, rfl, hpost⟩
      · exact absurd h.symm (List.append_ne_nil_of_right_ne_nil _ (List.cons_ne_nil _ _))

end UpTo

/-! ## The segments in turn -/

/-- What a launch finds: the outside, and the shell between two commands. -/
structure World where
  env : Env
  sys : Sys
  atPrompt : AtPrompt sys

/-- A segment whose turn has come. -/
structure Attempt where
  pipeline : List Commands
  background : Bool
  world : World

namespace Attempt

variable (a : Attempt)

/-- What becomes of it. -/
def launched : Launched := (launch a.world.env a.background a.pipeline a.world.sys).1

/-- It has one command, which is nowhere. -/
def Missing : Prop := ∃ c, a.pipeline = [c] ∧ IsMissing a.world.env c

/-- Its processes were started, or the shell has run it itself. -/
def Executed : Prop := a.launched ≠ .refused

/-- `run_cmd` goes on behind it: in the foreground unless it was refused, or was `exit`. -/
def passes : Bool :=
  a.background ||
    match a.launched with
    | .refused => false
    | .builtin argv => argv.head? ≠ some "exit".toList
    | .started _ => true

/-- Everything that its processes need to be started is there. -/
def Startable : Prop := Ready a.world.env a.background a.pipeline a.world.sys.store

/-- It is in the background, or can be started, or is a builtin other than `exit` for the shell. -/
def GoesOn : Prop :=
  a.background = true ∨ a.Startable ∨
    (runsInShell a.pipeline = true ∧ (a.pipeline.headD {}).argv.head? ≠ some "exit".toList)

end Attempt

/-- Each launch is tried in the world of its turn; `exit` ends the shell, and with it the line. -/
def trying (o : ℕ → World) : Dispatch (List Attempt) where
  foreground p tried :=
    let a : Attempt := ⟨p, false, o tried.length⟩
    .ok (a.passes, tried ++ [a])
  background p tried := .ok (tried ++ [⟨p, true, o tried.length⟩])
  flushPending tried := tried

/-- The segments of a line, each in the world of its turn. -/
def turns (o : ℕ → World) : ℕ → List Segment → List Attempt
  | _, [] => []
  | i, seg :: segs => ⟨seg.pipeline, seg.term = .amp, o i⟩ :: turns o (i + 1) segs

/-- **`run_cmd` tries the segments in order**, up to the first that does not pass. -/
theorem dispatchAll_trying (o : ℕ → World) (segs : List Segment) (tried : List Attempt) :
    dispatchAll (trying o) segs tried =
      .ok (tried ++ upTo Attempt.passes (turns o tried.length segs)) := by
  induction segs generalizing tried with
  | nil => rw [dispatchAll, turns, upTo, List.append_nil]
  | cons seg segs ih =>
    have hlen : ∀ a : Attempt, (tried ++ [a]).length = tried.length + 1 := fun _ =>
      List.length_append
    by_cases hamp : seg.term = .amp
    · have hpass : Attempt.passes ⟨seg.pipeline, true, o tried.length⟩ = true := rfl
      rw [dispatchAll, if_pos hamp, turns, decide_eq_true hamp, upTo, if_pos hpass]
      change dispatchAll (trying o) segs (tried ++ [_]) = _
      rw [ih, hlen, List.append_assoc, List.singleton_append]
    · rw [dispatchAll, if_neg hamp, turns, decide_eq_false hamp, upTo]
      change (if Attempt.passes _ then dispatchAll (trying o) segs (tried ++ [_])
        else .ok (tried ++ [_])) = _
      split
      · rw [ih, hlen, List.append_assoc, List.singleton_append]
      · rfl

theorem runCmd_trying (tree : Line IsStray) (hfit : tree.Fits) (o : ℕ → World) :
    runCmd (trying o) tree.tokens [] = .ok (upTo Attempt.passes (turns o 0 tree.segments)) := by
  rw [runCmd, runSegments_tokens (trying o) tree (fun _ h => h) hfit, dispatchAll_trying]
  rfl

/-! ## What becomes of a launch -/

theorem stageAndFork_ne_builtin (env : Env) (taken : Taken) (background : Bool)
    (pipeline : List Commands) (resolved : List (Option Text)) (s : Sys) (argv : List Text) :
    (stageAndFork env taken background pipeline resolved s).1 ≠ .builtin argv := by
  rw [stageAndFork]
  split
  · simp
  · split
    · simp
    · simp

theorem isBuiltin_of_isShellOnlyBuiltin {cmd : Text} (h : isShellOnlyBuiltin cmd = true) :
    isBuiltin cmd = true := by
  have hsub : ∀ name ∈ shellOnlyBuiltins, name ∈ builtins := by decide
  exact List.contains_iff_mem.mpr (hsub cmd (List.contains_iff_mem.mp h))

/-- A command for the shell itself is not looked up. -/
theorem presolve_of_runsInShell {env : Env} {pipeline : List Commands} {s : Sys}
    (h : runsInShell pipeline = true) : (presolve env pipeline s).1.isSome := by
  refine (presolve_isSome env pipeline s).mpr ?_
  rintro c rfl ⟨name, hname, hbuiltin, -⟩
  rw [runsInShell, Bool.and_eq_true, Option.mem_def.mp hname] at h
  rw [isBuiltin_of_isShellOnlyBuiltin h.2] at hbuiltin
  cases hbuiltin

/-- In the background the shell runs no builtin itself. -/
theorem launch_ne_builtin (env : Env) (pipeline : List Commands) (s : Sys) (argv : List Text) :
    (launch env true pipeline s).1 ≠ .builtin argv := by
  obtain ⟨out, hlaunch⟩ := launchTaking_eq env .whole true pipeline s
  rw [launch, hlaunch]
  split
  · exact nofun
  · rw [if_neg (fun h => nomatch h.1)]
    exact stageAndFork_ne_builtin _ _ _ _ _ _ _

namespace Attempt

variable {a : Attempt}

/-- A command that is nowhere refuses the launch. -/
theorem launched_of_missing (h : a.Missing) : a.launched = .refused := by
  obtain ⟨c, hp, hmissing⟩ := h
  obtain ⟨out, hlaunch⟩ :=
    launchTaking_eq a.world.env .whole a.background a.pipeline a.world.sys
  have hnone : (presolve a.world.env a.pipeline a.world.sys).1 = none := by
    by_contra hsome
    have hfound := (presolve_isSome a.world.env a.pipeline a.world.sys).mp
      (Option.isSome_iff_ne_none.mpr hsome)
    exact hfound c hp hmissing
  rw [launched, launch, hlaunch, hnone]

theorem not_executed_of_missing (h : a.Missing) : ¬ a.Executed := fun hexec =>
  hexec (launched_of_missing h)

/-- What is executed in the background is started. -/
theorem executed_iff (hbg : a.background = true) : a.Executed ↔ a.Startable := by
  rw [Startable, ← launch_started_iff a.world.atPrompt, Executed, launched, hbg]
  constructor
  · intro hne
    cases hres : (launch a.world.env true a.pipeline a.world.sys).1 with
    | refused => exact absurd hres hne
    | builtin argv => exact absurd hres (launch_ne_builtin _ _ _ argv)
    | started job => exact ⟨job, _, Prod.ext hres rfl⟩
  · rintro ⟨job, s', hstart⟩
    rw [hstart]
    exact nofun

/-- What passes in the foreground was executed. -/
theorem executed_of_passes (h : a.passes = true) (hfg : a.background = false) : a.Executed := by
  intro hrefused
  rw [passes, hfg, hrefused] at h
  cases h

/-- What the shell runs itself, and what it starts, are different launches. -/
theorem launched_of_runsInShell (hbg : a.background = false) (h : runsInShell a.pipeline = true) :
    a.launched = .builtin (a.pipeline.headD {}).argv := by
  obtain ⟨out, hlaunch⟩ :=
    launchTaking_eq a.world.env .whole a.background a.pipeline a.world.sys
  have hsome : (presolve a.world.env a.pipeline a.world.sys).1.isSome := presolve_of_runsInShell h
  obtain ⟨resolved, hpre⟩ := Option.isSome_iff_exists.mp hsome
  rw [launched, launch, hlaunch, hpre]
  dsimp only
  rw [if_pos ⟨hbg, h⟩]

theorem passes_iff : a.passes = true ↔ a.GoesOn := by
  rw [passes, GoesOn, Bool.or_eq_true]
  refine or_congr_right' fun hfg => ?_
  rw [Bool.not_eq_true] at hfg
  by_cases hshell : runsInShell a.pipeline = true
  · have hnot : ¬ a.Startable := fun hstart => by
      rw [hstart.notShell hfg] at hshell
      cases hshell
    rw [launched_of_runsInShell hfg hshell]
    simp [hnot, hshell]
  · rw [or_iff_left (fun h => hshell h.1), Startable, ← launch_started_iff a.world.atPrompt]
    obtain ⟨out, hlaunch⟩ :=
    launchTaking_eq a.world.env .whole a.background a.pipeline a.world.sys
    cases hres : a.launched with
    | refused =>
      refine iff_of_false (fun h => nomatch h) fun ⟨job, s', hstart⟩ => ?_
      rw [launched, hstart] at hres
      cases hres
    | builtin argv =>
      rw [launched, launch, hlaunch] at hres
      split at hres
      · cases hres
      · rw [if_neg fun h => hshell h.2] at hres
        exact absurd hres (stageAndFork_ne_builtin _ _ _ _ _ _ _)
    | started job => exact iff_of_true rfl ⟨job, _, Prod.ext hres rfl⟩

end Attempt

/-! ## Where the line stops -/

/-- **A line stops at a command that is nowhere**: of what was tried, which are segments in order,
nothing comes after it, and everything before it was executed. -/
def Stops (turns tried : List Attempt) : Prop :=
  tried <+: turns ∧ ∀ pre a post, tried = pre ++ a :: post → a.Missing →
    post = [] ∧ ∀ b ∈ pre, b.Executed

/-- A background launch that is reached and cannot start is not for a missing command, unless it
ends the line, and no missing command is reached behind it. -/
def Kept (turns : List Attempt) : Prop :=
  ∀ pre a mid b rest, turns = pre ++ a :: (mid ++ b :: rest) →
    (∀ t ∈ pre ++ a :: mid, t.GoesOn) → a.background = true → ¬ a.Startable →
      ¬ a.Missing ∧ ¬ b.Missing

theorem kept_of_stops {l : List Attempt} (h : Stops l (upTo Attempt.passes l)) : Kept l := by
  rintro pre a mid b rest rfl hgoes hbg hstart
  have hpass : ∀ t ∈ pre ++ a :: mid, t.passes = true := fun t ht =>
    Attempt.passes_iff.mpr (hgoes t ht)
  have hexec : ¬ a.Executed := fun hexec => hstart ((Attempt.executed_iff hbg).mp hexec)
  have hassoc : pre ++ a :: (mid ++ b :: rest) = (pre ++ a :: mid) ++ b :: rest := by simp
  have htried : upTo Attempt.passes (pre ++ a :: (mid ++ b :: rest)) =
      (pre ++ a :: mid) ++ upTo Attempt.passes (b :: rest) := by
    rw [hassoc, upTo_append hpass]
  rw [upTo] at htried
  refine ⟨fun hmissing => ?_, fun hmissing => ?_⟩
  · have hpost := (h.2 pre a _ (by rw [htried, List.append_assoc, List.cons_append]) hmissing).1
    exact absurd hpost (List.append_ne_nil_of_right_ne_nil _ (List.cons_ne_nil _ _))
  · exact hexec ((h.2 (pre ++ a :: mid) b _ htried hmissing).2 a (by simp))

theorem stops_of_kept {l : List Attempt} (h : Kept l) : Stops l (upTo Attempt.passes l) := by
  refine ⟨upTo_isPrefix l, fun pre a post htried hmissing => ?_⟩
  obtain ⟨hpre, rest, rfl, hpost⟩ := of_upTo_eq htried
  refine ⟨?_, fun b hb => ?_⟩
  · rw [hpost]
    split
    · rename_i hpass
      have hbg : a.background = true := by
        by_contra hfg
        exact Attempt.not_executed_of_missing hmissing
          (Attempt.executed_of_passes hpass (by simpa using hfg))
      cases rest with
      | nil => rfl
      | cons b rest =>
        have hstart : ¬ a.Startable := fun hstart =>
          Attempt.not_executed_of_missing hmissing ((Attempt.executed_iff hbg).mpr hstart)
        have hall : ∀ t ∈ pre ++ a :: [], t.GoesOn := by
          simpa [or_imp, forall_and, ← Attempt.passes_iff] using ⟨hpre, hpass⟩
        exact absurd hmissing (h pre a [] b rest rfl hall hbg hstart).1
    · rfl
  · by_contra hexec
    have hbg : b.background = true := by
      by_contra hfg
      exact hexec (Attempt.executed_of_passes (hpre b hb) (by simpa using hfg))
    obtain ⟨pre, mid, rfl⟩ := List.append_of_mem hb
    have hstart : ¬ b.Startable := fun hstart => hexec ((Attempt.executed_iff hbg).mpr hstart)
    exact (h pre b mid a rest (by simp) (fun t ht => Attempt.passes_iff.mp (hpre t ht)) hbg
      hstart).2 hmissing

/-- **A line stops at the first command that is nowhere**, everything before it executed and nothing
after it tried, exactly if no background launch before it, nor its own, fails on the way. -/
theorem stops_iff (tree : Line IsStray) (hfit : tree.Fits) (o : ℕ → World) :
    ∃ tried, runCmd (trying o) tree.tokens [] = .ok tried ∧
      (Stops (turns o 0 tree.segments) tried ↔ Kept (turns o 0 tree.segments)) :=
  ⟨_, runCmd_trying tree hfit o, kept_of_stops, stops_of_kept⟩

/-- The command `n`. -/
def single (n : Char) : Group IsStray := ⟨⟨⟨⟨.word, [n]⟩, rfl⟩, []⟩, []⟩

/-- In `/` there is `b`, and nothing else. -/
def World.onlyB : World where
  env := { Env.obliging with executable := fun path => path == ['/', 'b'] }
  sys := .prompt fun _ => none
  atPrompt := atPrompt_prompt _

/-- `b ; n ; b`: the last command is not tried. -/
theorem stops_iff_semicolons :
    ∃ tried, runCmd (trying fun _ => .onlyB) (Line.tokens (some ⟨single 'b',
        [(⟨⟨.semi, []⟩, .inl rfl⟩, single 'n'), (⟨⟨.semi, []⟩, .inl rfl⟩, single 'b')], none⟩)) []
          = .ok tried ∧
      Stops (turns (fun _ => .onlyB) 0 (Line.segments (some ⟨single 'b',
        [(⟨⟨.semi, []⟩, .inl rfl⟩, single 'n'), (⟨⟨.semi, []⟩, .inl rfl⟩, single 'b')], none⟩)))
          tried := by
  obtain ⟨tried, hrun, hiff⟩ := stops_iff (some ⟨single 'b',
    [(⟨⟨.semi, []⟩, .inl rfl⟩, single 'n'), (⟨⟨.semi, []⟩, .inl rfl⟩, single 'b')], none⟩)
    (by decide) fun _ => .onlyB
  refine ⟨tried, hrun, hiff.mpr fun pre a mid b rest hturns _ hbg _ => ?_⟩
  have hmem : a ∈ pre ++ a :: (mid ++ b :: rest) := by simp
  rw [← hturns] at hmem
  have hnone : ∀ t ∈ turns (fun _ => World.onlyB) 0 (Line.segments (some ⟨single 'b',
      [(⟨⟨.semi, []⟩, .inl rfl⟩, single 'n'), (⟨⟨.semi, []⟩, .inl rfl⟩, single 'b')], none⟩)),
      t.background = false := by
    simp [turns, Line.segments, segmentsFrom, Tok.term]
  rw [hnone a hmem] at hbg
  cases hbg

/-- **`n & b` runs `b`**, though `n` is nowhere. -/
theorem not_stops :
    ∃ tried, runCmd (trying fun _ => .onlyB) (Line.tokens (some ⟨single 'n',
        [(⟨⟨.amp, []⟩, .inr rfl⟩, single 'b')], none⟩)) [] = .ok tried ∧
      ¬ Stops (turns (fun _ => .onlyB) 0 (Line.segments (some ⟨single 'n',
        [(⟨⟨.amp, []⟩, .inr rfl⟩, single 'b')], none⟩))) tried := by
  refine ⟨_, runCmd_trying _ (by decide) _, fun h => ?_⟩
  have hmissing : Attempt.Missing ⟨Group.pipeline (single 'n'), true, .onlyB⟩ :=
    ⟨⟨[['n']], [], []⟩, rfl, by decide⟩
  exact List.cons_ne_nil _ _ (h.2 [] _ _ rfl hmissing).1

end MiniProject.Shell
