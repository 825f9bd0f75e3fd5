import MiniProject.Machinery.Runs
import MiniProject.Shell.Recall

/-!
# Shell/Hop — the arguments of `hop`, one after another

`hopping` goes through its arguments from left to right; where each leads depends on what the ones
before it have changed.  A name that is no directory breaks off the loop.  But `-` with no previous
directory and a directory that cannot be entered only `continue` it, like a `.` does, so the loop
stops at the first failure exactly if that is such a name, or the last argument (`orderly_iff`).
-/

namespace MiniProject.Shell.Hopping

/-! ## The shell and the directories -/

/-- What `hop` finds outside: each name is looked up from the directory the shell is in, `chdir`
fails with the text of its `errno`, and `time n` is the time at the `n`-th update. -/
structure Outside where
  shome : Text
  isDir : Text → Text → Bool
  chdir : Text → Text → Except Text Text
  realpath : Text → Text → Option Text
  time : ℕ → ℤ

/-- The directory the shell is in, `previous`, the file `.frecency` and the number of its
updates. -/
structure State where
  cwd : Text
  previous : Text
  file : Text
  updates : ℕ
  deriving DecidableEq, Repr

/-- The line of a failure that is not one of `chdir`. -/
def noSuchDirectory : Text := "hop: no such directory\n".toList

/-- `perror("hop")`. -/
def hopError (error : Text) : Text := "hop: ".toList ++ error ++ ['\n']

/-- What an argument stands for: the four branches of the chain of `if`s. -/
inductive Target
  | path (target : Text)
  | noPrevious
  | here
  | noSuch
  deriving DecidableEq, Repr

/-- How the body of the loop ends, with what it has printed. -/
structure Reply where
  state : State
  said : Text
  breaks : Bool
  deriving DecidableEq, Repr

section Loop

variable (w : Outside)

/-- The chain of `if`s. -/
def target (s : State) (arg : Text) : Target :=
  if arg = ['~'] then .path w.shome
  else if arg = ['-'] then if s.previous = [] then .noPrevious else .path s.previous
  else if arg = ['.'] then .here
  else if w.isDir s.cwd arg then .path arg
  else
    match getFrecency (w.isDir s.cwd) arg s.file with
    | some path => .path path
    | none => .noSuch

/-- `chdir` has led to `cwd`; `None` where `freq_update` runs past its rows. -/
def enter (s : State) (path cwd : Text) : Option State :=
  match w.realpath cwd path with
  | none => some { s with cwd, previous := s.cwd }
  | some resolved =>
    (freqUpdate s.file resolved (w.time s.updates)).map fun file =>
      { cwd, previous := s.cwd, file, updates := s.updates + 1 }

/-- The body of the loop. -/
def hopOne (s : State) (arg : Text) : Option Reply :=
  match target w s arg with
  | .noPrevious => some ⟨s, noSuchDirectory, false⟩
  | .here => some ⟨s, [], false⟩
  | .noSuch => some ⟨s, noSuchDirectory, true⟩
  | .path path =>
    match w.chdir s.cwd path with
    | .error error => some ⟨s, hopError error, false⟩
    | .ok cwd => (enter w s path cwd).map fun t => ⟨t, [], false⟩

/-- The loop: the state it leaves, and the arguments it has come to with what each printed. -/
def loop : State → List Text → Option (State × List (Text × Text))
  | s, [] => some (s, [])
  | s, arg :: args =>
    (hopOne w s arg).bind fun r =>
      if r.breaks then some (r.state, [(arg, r.said)])
      else (loop r.state args).map fun p => (p.1, (arg, r.said) :: p.2)

/-- `hop` alone means home. -/
def arguments (args : List Text) : List Text := if args = [] then [['~']] else args

/-- `hopping`. -/
def hopping (s : State) (args : List Text) : Option (State × List (Text × Text)) :=
  loop w s (arguments args)

/-! ## Arguments that fail -/

/-- There is no such directory, no previous one, or it cannot be entered. -/
def Fails (s : State) (arg : Text) : Prop :=
  match target w s arg with
  | .noPrevious | .noSuch => True
  | .here => False
  | .path path => ∃ error, w.chdir s.cwd path = .error error

instance (s : State) (arg : Text) : Decidable (Fails w s arg) :=
  match h : target w s arg with
  | .noPrevious | .noSuch => isTrue (by rw [Fails, h]; trivial)
  | .here => isFalse (by rw [Fails, h]; exact id)
  | .path path =>
    match hdir : w.chdir s.cwd path with
    | .error error => isTrue (by rw [Fails, h]; exact ⟨error, hdir⟩)
    | .ok cwd => isFalse (by rw [Fails, h]; exact fun ⟨_, h⟩ => nomatch hdir.symm.trans h)

/-- One argument that does not fail. -/
def advance (s : State) (arg : Text) : Option State :=
  if Fails w s arg then none else (hopOne w s arg).map Reply.state

/-- None of the arguments fails. -/
def NoneFails (s : State) (args : List Text) : Prop :=
  ∀ before arg after t, args = before ++ arg :: after → run (advance w) s before = some t →
    ¬Fails w t arg

/-- The loop is as it would be without what follows the first argument that fails. -/
def Halts (s : State) (args : List Text) : Prop :=
  ∀ before arg after t, args = before ++ arg :: after → run (advance w) s before = some t →
    Fails w t arg → loop w s args = loop w s (before ++ [arg])

/-- The first argument that fails is a name that is nowhere, or the last one. -/
def LeavesOff (s : State) (args : List Text) : Prop :=
  ∀ before arg after t, args = before ++ arg :: after → run (advance w) s before = some t →
    Fails w t arg → after = [] ∨ target w t arg = .noSuch

end Loop

variable {w : Outside} {s t : State} {arg : Text} {args before : List Text}

/-- **An argument that fails changes nothing**, and breaks off the loop if it is nowhere. -/
theorem hopOne_of_fails (h : Fails w s arg) :
    ∃ said, hopOne w s arg = some ⟨s, said, decide (target w s arg = .noSuch)⟩ := by
  rw [Fails] at h
  rw [hopOne]
  split at h
  · rename_i htarget
    simp only [htarget]
    exact ⟨_, rfl⟩
  · rename_i htarget
    simp only [htarget]
    exact ⟨_, rfl⟩
  · exact h.elim
  · rename_i path htarget
    obtain ⟨error, herror⟩ := h
    simp only [htarget, herror]
    exact ⟨_, rfl⟩

/-- **…and one that does not fail never does.** -/
theorem breaks_of_not_fails {r : Reply} (h : ¬Fails w s arg) (hr : hopOne w s arg = some r) :
    r.breaks = false := by
  rw [Fails] at h
  rw [hopOne] at hr
  split at h
  · exact absurd trivial h
  · exact absurd trivial h
  · rename_i htarget
    simp only [htarget] at hr
    cases hr
    rfl
  · rename_i path htarget
    simp only [htarget] at hr
    split at hr
    · rename_i error herror
      exact absurd ⟨error, herror⟩ h
    · obtain ⟨t, -, rfl⟩ := Option.map_eq_some_iff.mp hr
      rfl

theorem advance_eq_some :
    advance w s arg = some t ↔
      ¬Fails w s arg ∧ ∃ said, hopOne w s arg = some ⟨t, said, false⟩ := by
  rw [advance, Option.ite_none_left_eq_some]
  refine and_congr_right fun hnot => ⟨fun h => ?_, ?_⟩
  · obtain ⟨⟨state, said, breaks⟩, hr, rfl⟩ := Option.map_eq_some_iff.mp h
    obtain rfl : breaks = false := breaks_of_not_fails hnot hr
    exact ⟨said, hr⟩
  · rintro ⟨said, hr⟩
    rw [hr]
    rfl

/-- **Behind arguments that do not fail the loop goes on** from where they have led. -/
theorem loop_append_of_run (h : run (advance w) s before = some t) :
    ∃ log, ∀ rest, loop w s (before ++ rest) =
      (loop w t rest).map fun p => (p.1, log ++ p.2) := by
  induction before generalizing s with
  | nil =>
    cases h
    exact ⟨[], fun rest => by simp⟩
  | cons arg before ih =>
    obtain ⟨u, hu, h⟩ := run_cons_eq_some.mp h
    obtain ⟨-, said, hr⟩ := advance_eq_some.mp hu
    obtain ⟨log, hlog⟩ := ih h
    refine ⟨(arg, said) :: log, fun rest => ?_⟩
    rw [List.cons_append, loop, hr, Option.bind_some, if_neg (by simp), hlog, Option.map_map]
    rfl

theorem loop_of_fails (h : Fails w s arg) :
    ∃ said, ∀ after, loop w s (arg :: after) =
      if target w s arg = .noSuch then some (s, [(arg, said)])
      else (loop w s after).map fun p => (p.1, (arg, said) :: p.2) := by
  obtain ⟨said, hr⟩ := hopOne_of_fails h
  refine ⟨said, fun after => ?_⟩
  rw [loop, hr, Option.bind_some]
  simp only [decide_eq_true_eq]

/-- A loop that has something to do leaves a trace of it. -/
theorem log_ne_nil {p : State × List (Text × Text)} (h : loop w s (arg :: args) = some p) :
    p.2 ≠ [] := by
  obtain ⟨r, -, h⟩ := Option.bind_eq_some_iff.mp h
  split at h
  · cases h
    exact List.cons_ne_nil _ _
  · obtain ⟨q, -, rfl⟩ := Option.map_eq_some_iff.mp h
    exact List.cons_ne_nil _ _

theorem arguments_of_ne_nil (h : args ≠ []) : arguments args = args := if_neg h

/-- **What follows the failure is not come to** exactly if there is nothing, or it is of a name that
is nowhere. -/
theorem loop_eq_iff {after : List Text} (h : Fails w s arg) :
    loop w s (arg :: after) = loop w s [arg] ↔ after = [] ∨ target w s arg = .noSuch := by
  obtain ⟨said, hloop⟩ := loop_of_fails h
  rw [hloop after, hloop []]
  by_cases hnoSuch : target w s arg = .noSuch
  · simp [hnoSuch]
  · rw [if_neg hnoSuch, if_neg hnoSuch, or_iff_left hnoSuch]
    constructor
    · intro heq
      obtain ⟨p, hp, hnil⟩ := Option.map_eq_some_iff.mp heq
      cases after with
      | nil => rfl
      | cons arg' after => exact absurd (List.cons.inj (congrArg Prod.snd hnil)).2 (log_ne_nil hp)
    · rintro rfl
      rfl

/-- **The loop halts at the first failure** exactly if it leaves off there. -/
theorem halts_iff : Halts w s args ↔ LeavesOff w s args := by
  refine forall_congr' fun before => forall_congr' fun arg => forall_congr' fun after =>
    forall_congr' fun t => forall_congr' fun hargs => forall_congr' fun hrun =>
    forall_congr' fun hfails => ?_
  obtain ⟨log, hlog⟩ := loop_append_of_run hrun
  rw [hargs, hlog, hlog, ← loop_eq_iff hfails]
  refine (Option.map_injective ?_).eq_iff
  intro p q hpq
  obtain ⟨h₁, h₂⟩ := Prod.mk.inj hpq
  exact Prod.ext h₁ (List.append_cancel_left h₂)

/-- **The loop over two lists**, if no argument of the first one fails. -/
theorem loop_append {more : List Text} (h : NoneFails w s args) :
    loop w s (args ++ more) = (loop w s args).bind fun p =>
      (loop w p.1 more).map fun q => (q.1, p.2 ++ q.2) := by
  induction args generalizing s with
  | nil => simp [loop]
  | cons arg args ih =>
    have hnot : ¬Fails w s arg := h [] arg args s rfl rfl
    rw [List.cons_append, loop, loop]
    rcases hr : hopOne w s arg with _ | ⟨t, said, breaks⟩
    · rfl
    · obtain rfl : breaks = false := breaks_of_not_fails hnot hr
      have hnext : NoneFails w t args := by
        intro before arg' after u hargs hrun
        refine h (arg :: before) arg' after u (by rw [hargs]; rfl) ?_
        exact run_cons_eq_some.mpr ⟨t, advance_eq_some.mpr ⟨hnot, said, hr⟩, hrun⟩
      simp only [Option.bind_some, Bool.false_eq_true, if_false]
      rw [ih hnext]
      rcases loop w t args with _ | p
      · rfl
      · simp only [Option.bind_some, Option.map_some, Option.map_map]
        rfl

/-- **The arguments up to the first failure, in order**, and nothing behind it; and two lists with
arguments in them, if none of the first fails, are as good as one.  (A list with none is no empty
list to `hop`, it is `~`.) -/
def Orderly (w : Outside) (s : State) (args : List Text) : Prop :=
  Halts w s (arguments args) ∧
    ∀ a b, a ≠ [] → b ≠ [] → args = a ++ b → NoneFails w s a →
      hopping w s args = (hopping w s a).bind fun p =>
        (hopping w p.1 b).map fun q => (q.1, p.2 ++ q.2)

/-- **`hop` is orderly exactly if the first argument that fails is a name that is nowhere**, or the
last one. -/
theorem orderly_iff : Orderly w s args ↔ LeavesOff w s (arguments args) := by
  rw [Orderly, halts_iff]
  refine and_iff_left fun a b ha hb hargs hnone => ?_
  subst hargs
  simp only [hopping, arguments_of_ne_nil ha, arguments_of_ne_nil hb,
    arguments_of_ne_nil (List.append_ne_nil_of_left_ne_nil ha b)]
  exact loop_append hnone

/-- **`hop - /a` in a new shell**: there is no previous directory, and the shell is in `/a`. -/
theorem not_orderly :
    let a : Text := ['/', 'a']
    let w : Outside := ⟨a, fun _ _ => true, fun _ path => .ok path, fun _ path => some path,
      fun _ => 7⟩
    let s : State := ⟨['/'], [], [], 0⟩
    (hopping w s [['-'], a]).map Prod.fst = some ⟨a, ['/'], "/a 1 7\n".toList, 1⟩ ∧
      ¬Orderly w s [['-'], a] := by
  intro a w s
  have htwo : (loop w s [['-'], a]).map Prod.fst = some ⟨a, ['/'], "/a 1 7\n".toList, 1⟩ := by
    decide +kernel
  have hone : (loop w s [['-']]).map Prod.fst = some s := by decide +kernel
  refine ⟨htwo, fun h => ?_⟩
  have hsame : loop w s [['-'], a] = loop w s [['-']] := h.1 [] ['-'] [a] s rfl rfl trivial
  rw [hsame, hone] at htwo
  exact absurd htwo (by decide)

end MiniProject.Shell.Hopping
