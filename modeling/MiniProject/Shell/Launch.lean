import MiniProject.Shell.Input
import MiniProject.Shell.Output

/-!
# Shell/Launch — `run_foreground` and `run_background` up to the last `fork`

Both look the commands up, stage the input, open the output, make all pipes and then fork: every
child starts with a copy of the parent's whole table and keeps two descriptors of it.

    presolve → build_input_tmp → prepare_output → pipe × (n − 1) [→ pipe(gate)] → fork × n

`launch` is that prefix, with the descriptor table each child has built when it reaches its `exec`
or `run_builtin`; `Life.step` is the rest, one system call of the shell or one write of a stage at a
time.
-/

namespace MiniProject.Shell

/-! ## Looking a command up -/

/-- The names `is_builtin` knows. -/
def builtins : List Text :=
  ["hop", "reveal", "peek", "locate", "exit", "activities", "resume", "ping", "spy", "snoop"].map
    String.toList

/-- The names `is_shell_only_builtin` knows. -/
def shellOnlyBuiltins : List Text :=
  ["hop", "exit", "activities", "resume", "ping", "spy", "snoop"].map String.toList

/-- `is_builtin`. -/
def isBuiltin (cmd : Text) : Bool := builtins.contains cmd

/-- `is_shell_only_builtin`. -/
def isShellOnlyBuiltin (cmd : Text) : Bool := shellOnlyBuiltins.contains cmd

/-- The name `resolving` searches for, which it also hands back in `*stripped`. -/
def stripped : Text → Text
  | '%' :: name => name
  | name => name

/-- The tokens of `strtok(path, ":")`. -/
def pathDirs (path : Text) : List Text := (path.splitOn ':').filter (· ≠ [])

/-- `snprintf(res, sizeof(res), "%s/%s", dir, name)`. -/
def joinPath (dir name : Text) : Text := (dir ++ '/' :: name).take 10099

/-- `resolving`; `none` is its NULL. -/
def resolving (env : Env) (name : Text) : Option Text :=
  if '/' ∈ stripped name then
    if env.executable (stripped name) then some (stripped name) else none
  else
    let here := if name.head? = some '%' then [] else env.cwd.toList
    let dirs := here ++ (env.path.map pathDirs).getD []
    (dirs.map fun dir => joinPath dir (stripped name)).find? env.executable

/-- The line for a command that is not found. -/
def notFound (name : Text) : Text :=
  "cshell: command not found (".toList ++ stripped name ++ ")\n".toList

/-- A stage that names a command, and one that is nowhere. -/
def IsMissing (env : Env) (c : Commands) : Prop :=
  ∃ name ∈ c.argv.head?, isBuiltin name = false ∧ resolving env name = none

instance (env : Env) (c : Commands) : Decidable (IsMissing env c) :=
  inferInstanceAs (Decidable (∃ name ∈ c.argv.head?, _))

/-- The loop of `presolve`; `none` when it returns 0 from inside. -/
def presolveLoop (env : Env) (stageCount : ℕ) :
    List Commands → Bool → List (Option Text) → Sys → Option (Bool × List (Option Text)) × Sys
  | [], allOk, resolved, s => (some (allOk, resolved), s)
  | c :: cs, allOk, resolved, s =>
    match c.argv with
    | [] => presolveLoop env stageCount cs allOk (resolved ++ [none]) s
    | name :: _ =>
      if isBuiltin name then presolveLoop env stageCount cs allOk (resolved ++ [none]) s
      else
        match resolving env name with
        | none =>
          let s := s.print (notFound name)
          if stageCount = 1 then (none, s)
          else presolveLoop env stageCount cs false (resolved ++ [none]) s
        | some path =>
          presolveLoop env stageCount cs allOk (resolved ++ [some (path.take 4999)]) s

/-- `presolve`: `resolved`, or `none` when it returns 0. -/
def presolve (env : Env) (pipeline : List Commands) (s : Sys) : Option (List (Option Text)) × Sys :=
  match presolveLoop env pipeline.length pipeline true [] s with
  | (none, s) => (none, s)
  | (some (allOk, resolved), s) =>
    (if 1 < pipeline.length ∨ allOk then some resolved else none, s)

/-! ## Pipes and children -/

/-- `for(i…) pipe(pipes[i])`: `k` pipes from number `i` on. -/
def openPipes : ℕ → ℕ → Sys → List (ℕ × ℕ) × Sys
  | 0, _, s => ([], s)
  | k + 1, i, s =>
    let (r, s) := s.alloc (.pipeR i)
    let (w, s) := s.alloc (.pipeW i)
    let (pipes, s) := openPipes k (i + 1) s
    ((r, w) :: pipes, s)

/-- `pipe(gate)`, in the background only. -/
def openGate (background : Bool) (s : Sys) : Option (ℕ × ℕ) × Sys :=
  if background then
    let (r, s) := s.alloc .gateR
    let (w, s) := s.alloc .gateW
    (some (r, w), s)
  else (none, s)

/-- `in_fd`, when it is a descriptor. -/
def InFd.toList : InFd → List ℕ
  | .fd d => [d]
  | _ => []

/-- The two ends of every pipe, as the closing loops run through them. -/
def pipeDescs (pipes : List (ℕ × ℕ)) : List ℕ := pipes.flatMap fun p => [p.1, p.2]

/-- What the shell holds for a pipeline; `gate` is there in the background only. -/
structure Fds where
  inFd : InFd
  octx : OutCtx
  pipes : List (ℕ × ℕ)
  gate : Option (ℕ × ℕ)
  deriving DecidableEq, Repr

namespace Fds

variable (f : Fds)

/-- `if(i < stage_count - 1) dup2(pipes[i][1], 1); else if(octx.tmp_fd >= 0) dup2(octx.tmp_fd,
1)`. -/
def connectOut (n i : ℕ) (t : FdTable Handle) : FdTable Handle :=
  if i < n - 1 then
    match f.pipes[i]? with
    | some p => t.dup2 p.2 1
    | none => t
  else
    match f.octx.tmpFd with
    | some d => t.dup2 d 1
    | none => t

/-- `dup2(pipes[i - 1][0], 0)`. -/
def connectPipe (i : ℕ) (t : FdTable Handle) : FdTable Handle :=
  match f.pipes[i - 1]? with
  | some p => t.dup2 p.1 0
  | none => t

/-- What a child closes before it goes on. -/
def closeInherited (t : FdTable Handle) : FdTable Handle :=
  (((t.closeAll (pipeDescs f.pipes)).closeAll f.inFd.toList).closeAll
    f.octx.tmpFd.toList).closeAll f.octx.realFds

/-- The child of `run_foreground` for stage `i` of `n`. -/
def kidForeground (n i : ℕ) (t : FdTable Handle) : FdTable Handle :=
  let t :=
    if 0 < i then f.connectPipe i t
    else
      match f.inFd with
      | .fd d => t.dup2 d 0
      | _ => t
  f.closeInherited (f.connectOut n i t)

/-- The stdin of the first child of `run_background`: the staged input, or `/dev/null`. -/
def gatedStdin (env : Env) (t : FdTable Handle) : FdTable Handle :=
  match f.inFd with
  | .fd d => t.dup2 d 0
  | _ =>
    if env.devNull then
      let (d, t) := t.alloc .devNull
      (t.dup2 d 0).close d
    else t

/-- The child of `run_background` for stage `i` of `n`; the first one waits at the gate. -/
def kidBackground (env : Env) (gate : ℕ × ℕ) (n i : ℕ) (t : FdTable Handle) : FdTable Handle :=
  let t :=
    if i = 0 then f.gatedStdin env ((t.close gate.2).close gate.1) else f.connectPipe i t
  f.closeInherited (((f.connectOut n i t).close gate.1).close gate.2)

/-- The child for stage `i` of `n`. -/
def kid (env : Env) (n i : ℕ) (t : FdTable Handle) : FdTable Handle :=
  match f.gate with
  | none => f.kidForeground n i t
  | some gate => f.kidBackground env gate n i t

end Fds

/-- What a child goes on to. -/
inductive Call
  | builtin (argv : List Text)
  | exec (path : Text) (argv : List Text)
  | exit (code : ℕ)
  deriving DecidableEq, Repr

/-- A child at its `exec`, `run_builtin` or `exit`: its stage, its descriptors and that call. -/
structure Kid where
  stage : ℕ
  fds : FdTable Handle
  call : Call

/-- The call of a stage; an empty entry of `resolved` makes it `exit(127)`. -/
def kidCall (name : Text) (argv : List Text) (resolved : Option Text) : Call :=
  if isBuiltin name then .builtin argv
  else
    match resolved with
    | none => .exit 127
    | some path => .exec path argv

/-- The fork loop: a child for every stage that has arguments. -/
def forkLoop (kid : ℕ → FdTable Handle) : ℕ → List Commands → List (Option Text) → List Kid
  | _, [], _ => []
  | i, c :: cs, resolved =>
    match c.argv with
    | [] => forkLoop kid (i + 1) cs resolved.tail
    | name :: _ =>
      ⟨i, kid i, kidCall name c.argv resolved.head?.join⟩ ::
        forkLoop kid (i + 1) cs resolved.tail

/-! ## The launch -/

/-- A pipeline whose children are running: which function started it, what the shell holds for it,
and the children. -/
structure Started where
  background : Bool
  fds : Fds
  kids : List Kid

/-- How the prefix of `run_foreground` or `run_background` ends: with an early return, with a
builtin run by the shell itself, or with the children forked. -/
inductive Launched
  | refused
  | builtin (argv : List Text)
  | started (job : Started)

/-- `stage_count == 1 && incount == 0 && outcount == 0 && is_shell_only_builtin(argv[0])`. -/
def runsInShell : List Commands → Bool
  | [c] => c.inFiles.length == 0 && c.outFiles.length == 0 &&
      (c.argv.head?.map isShellOnlyBuiltin).getD false
  | _ => false

/-- What runs in the shell has no redirection. -/
theorem files_of_runsInShell {pipeline : List Commands} (h : runsInShell pipeline = true)
    {c : Commands} (hc : c ∈ pipeline) : c.inFiles = [] ∧ c.outFiles = [] := by
  rcases pipeline with _ | ⟨c', _ | ⟨c'', cs⟩⟩
  · cases hc
  · obtain rfl := List.mem_singleton.mp hc
    simp only [runsInShell, Bool.and_eq_true, beq_iff_eq, List.length_eq_zero_iff] at h
    exact h.1
  · cases h

/-- What both functions do after `presolve`, up to the last `fork`. -/
def stageAndFork (env : Env) (taken : Taken) (background : Bool) (pipeline : List Commands)
    (resolved : List (Option Text)) (s : Sys) : Launched × Sys :=
  match buildInputTmp env taken (pipeline.headD {}) s with
  | (.failed, s) => (.refused, s)
  | (inFd, s) =>
    match prepareOutput env (pipeline.getLastD {}) s with
    | (none, s) => (.refused, s.closeAll inFd.toList)
    | (some octx, s) =>
      let n := pipeline.length
      let (pipes, s) := openPipes (n - 1) 0 s
      let (gate, s) := openGate background s
      let fds : Fds := ⟨inFd, octx, pipes, gate⟩
      let kids := forkLoop (fun i => fds.kid env n i s.fds) 0 pipeline resolved
      (.started ⟨background, fds, kids⟩, s)

/-- `run_foreground` up to its last `fork`. -/
def launchForeground (env : Env) (taken : Taken) (pipeline : List Commands) (s : Sys) :
    Launched × Sys :=
  match presolve env pipeline s with
  | (none, s) => (.refused, s)
  | (some resolved, s) =>
    if runsInShell pipeline then (.builtin (pipeline.headD {}).argv, s)
    else stageAndFork env taken false pipeline resolved s

/-- `run_background` up to its last `fork`. -/
def launchBackground (env : Env) (taken : Taken) (pipeline : List Commands) (s : Sys) :
    Launched × Sys :=
  match presolve env pipeline s with
  | (none, s) => (.refused, s)
  | (some resolved, s) => stageAndFork env taken true pipeline resolved s

/-- Either of the two. -/
def launchTaking (env : Env) (taken : Taken) (background : Bool) :
    List Commands → Sys → Launched × Sys :=
  if background then launchBackground env taken else launchForeground env taken

/-- …when every `write` takes all it is given. -/
def launch (env : Env) : Bool → List Commands → Sys → Launched × Sys := launchTaking env .whole

/-- **The shell between two commands**: it holds descriptors 0, 1 and 2 and nothing else, and none
of the files is open. -/
structure AtPrompt (s : Sys) : Prop where
  fds : ∀ d, s.fds.get d = if d < 3 then some (.std d) else none
  desc : ∀ h, s.store.desc h = none

/-- A shell at its prompt over given files. -/
def Sys.prompt (files : Text → Option (List Byte)) : Sys where
  fds := ⟨fun d => if d < 3 then some (.std d) else none, 3, fun _ h => if_neg (by omega)⟩
  store := ⟨fun _ => none, fun f => match f with | .path p => files p | _ => none⟩
  out := []

theorem atPrompt_prompt (files : Text → Option (List Byte)) : AtPrompt (Sys.prompt files) :=
  ⟨fun _ => rfl, fun _ => rfl⟩

/-- An outside where every command and every file is there and every call succeeds. -/
def Env.obliging : Env where
  executable _ := true
  cwd := some []
  path := none
  readable _ := true
  writable _ := true
  mkstempIn := true
  mkstempOut := true
  devNull := true

/-! ## What a launch went through -/

/-- Looking the commands up prints, and changes nothing else. -/
theorem presolveLoop_snd (env : Env) (n : ℕ) (cs : List Commands) (allOk : Bool)
    (resolved : List (Option Text)) (s : Sys) :
    ∃ out, (presolveLoop env n cs allOk resolved s).2 = { s with out } := by
  induction cs generalizing allOk resolved s with
  | nil => exact ⟨s.out, rfl⟩
  | cons c cs ih =>
    rw [presolveLoop]
    split
    · exact ih _ _ s
    · split
      · exact ih _ _ s
      · split
        · dsimp only
          split
          · exact ⟨_, rfl⟩
          · exact ih _ _ _
        · exact ih _ _ s

theorem presolve_snd (env : Env) (pipeline : List Commands) (s : Sys) :
    ∃ out, (presolve env pipeline s).2 = { s with out } := by
  obtain ⟨out, hout⟩ := presolveLoop_snd env pipeline.length pipeline true [] s
  refine ⟨out, ?_⟩
  rw [← hout, presolve]
  split <;> (rename_i h; rw [h])

/-- **The states a started pipeline went through**: `s₁` behind `build_input_tmp`, `s₂` behind
`prepare_output`, `s₃` behind the pipes. -/
structure Forked (env : Env) (taken : Taken) (background : Bool) (pipeline : List Commands)
    (resolved : List (Option Text)) (s s₁ s₂ s₃ s' : Sys) (job : Started) : Prop where
  input : buildInputTmp env taken (pipeline.headD {}) s = (job.fds.inFd, s₁)
  inFd_ne : job.fds.inFd ≠ .failed
  output : prepareOutput env (pipeline.getLastD {}) s₁ = (some job.fds.octx, s₂)
  pipes : openPipes (pipeline.length - 1) 0 s₂ = (job.fds.pipes, s₃)
  gate : openGate background s₃ = (job.fds.gate, s')
  background_eq : job.background = background
  kids : job.kids =
    forkLoop (fun i => job.fds.kid env pipeline.length i s'.fds) 0 pipeline resolved

theorem stageAndFork_started {env : Env} {taken : Taken} {background : Bool}
    {pipeline : List Commands} {resolved : List (Option Text)} {s s' : Sys} {job : Started}
    (h : stageAndFork env taken background pipeline resolved s = (.started job, s')) :
    ∃ s₁ s₂ s₃, Forked env taken background pipeline resolved s s₁ s₂ s₃ s' job := by
  rw [stageAndFork] at h
  split at h
  · cases h
  · rename_i inFd s₁ hne hin
    split at h
    · cases h
    · rename_i octx s₂ hout
      cases h
      exact ⟨s₁, s₂, _, hin, hne, hout, rfl, rfl, rfl, rfl⟩

/-- Either launch behind `presolve`. -/
theorem launchTaking_eq_presolve (env : Env) (taken : Taken) (background : Bool)
    (pipeline : List Commands) (s : Sys) :
    launchTaking env taken background pipeline s =
      match presolve env pipeline s with
      | (none, s₀) => (.refused, s₀)
      | (some resolved, s₀) =>
        if background = false ∧ runsInShell pipeline = true then
          (.builtin (pipeline.headD {}).argv, s₀)
        else stageAndFork env taken background pipeline resolved s₀ := by
  rw [launchTaking]
  cases background with
  | true =>
    rw [if_pos rfl, launchBackground]
    rcases presolve env pipeline s with ⟨_ | resolved, s₀⟩ <;> simp
  | false =>
    rw [if_neg Bool.false_ne_true, launchForeground]
    rcases presolve env pipeline s with ⟨_ | resolved, s₀⟩ <;> simp

/-- **Either launch**: lines are printed, and then it is refused, or a builtin runs in the shell, or
the pipeline is staged and forked. -/
theorem launchTaking_eq (env : Env) (taken : Taken) (background : Bool) (pipeline : List Commands)
    (s : Sys) : ∃ out, launchTaking env taken background pipeline s =
      match (presolve env pipeline s).1 with
      | none => (.refused, { s with out })
      | some resolved =>
        if background = false ∧ runsInShell pipeline = true then
          (.builtin (pipeline.headD {}).argv, { s with out })
        else stageAndFork env taken background pipeline resolved { s with out } := by
  obtain ⟨out, hout⟩ := presolve_snd env pipeline s
  refine ⟨out, ?_⟩
  rw [← hout, launchTaking_eq_presolve]
  rcases presolve env pipeline s with ⟨_ | resolved, s₀⟩ <;> rfl

/-- A launch that starts something has found the commands, and started it from the state it began
in but for the lines printed. -/
theorem launchTaking_started {env : Env} {taken : Taken} {background : Bool}
    {pipeline : List Commands} {s s' : Sys} {job : Started}
    (h : launchTaking env taken background pipeline s = (.started job, s')) :
    ∃ resolved out s₁ s₂ s₃,
      (presolve env pipeline s).1 = some resolved ∧
      (background = false → runsInShell pipeline = false) ∧
      Forked env taken background pipeline resolved { s with out } s₁ s₂ s₃ s' job := by
  obtain ⟨out, hout⟩ := launchTaking_eq env taken background pipeline s
  rw [hout] at h
  split at h
  · cases h
  · rename_i resolved hpre
    split at h
    · cases h
    · rename_i hshell
      obtain ⟨s₁, s₂, s₃, hforked⟩ := stageAndFork_started h
      exact ⟨resolved, out, s₁, s₂, s₃, hpre, fun hbg => by simpa [hbg] using hshell, hforked⟩

/-! ## When a launch starts something, and with what -/

@[simp] theorem store_openPipes (k i : ℕ) (s : Sys) : (openPipes k i s).2.store = s.store := by
  induction k generalizing i s with
  | zero => rfl
  | succ k ih => exact ih (i + 1) _

@[simp] theorem store_openGate (background : Bool) (s : Sys) :
    (openGate background s).2.store = s.store := by
  cases background <;> rfl

/-- What a launch asks for before it forks. -/
structure Ready (env : Env) (background : Bool) (pipeline : List Commands)
    (store : Store Handle File Byte) : Prop where
  found : ∀ c, pipeline = [c] → ¬ IsMissing env c
  notShell : background = false → runsInShell pipeline = false
  input : InputReady env store (pipeline.headD {})
  output : OutputReady env (pipeline.getLastD {})

theorem presolveLoop_isSome (env : Env) {n : ℕ} (hn : n ≠ 1) (cs : List Commands) (allOk : Bool)
    (resolved : List (Option Text)) (s : Sys) :
    (presolveLoop env n cs allOk resolved s).1.isSome := by
  induction cs generalizing allOk resolved s with
  | nil => rfl
  | cons c cs ih =>
    rw [presolveLoop]
    split
    · exact ih _ _ _
    · split
      · exact ih _ _ _
      · split
        · dsimp only
          exact ih _ _ _
        · exact ih _ _ _

/-- In a pipeline of one stage `presolve` insists on the command; in a longer one it goes on. -/
theorem presolve_isSome (env : Env) (pipeline : List Commands) (s : Sys) :
    (presolve env pipeline s).1.isSome ↔ ∀ c, pipeline = [c] → ¬ IsMissing env c := by
  rcases pipeline with _ | ⟨c, _ | ⟨c', cs⟩⟩
  · exact iff_of_true rfl fun c hc => nomatch hc
  · have hone : (∀ d, [c] = [d] → ¬ IsMissing env d) ↔ ¬ IsMissing env c :=
      ⟨fun h => h c rfl, fun h d hd => List.singleton_inj.mp hd ▸ h⟩
    rw [hone, IsMissing, presolve]
    simp only [List.length_singleton, presolveLoop]
    rcases c.argv with _ | ⟨name, args⟩
    · simp
    · cases hb : isBuiltin name <;> cases hr : resolving env name <;> simp [hb, hr]
  · have hlen : (c :: c' :: cs).length ≠ 1 := by simp
    have hsome := presolveLoop_isSome env hlen (c :: c' :: cs) true [] s
    refine iff_of_true ?_ fun d hd => nomatch hd
    rw [presolve]
    revert hsome
    rcases presolveLoop env (c :: c' :: cs).length (c :: c' :: cs) true [] s with
      ⟨_ | ⟨ok, res⟩, s'⟩
    · exact fun h => nomatch h
    · intro _
      dsimp only
      rw [if_pos (.inl (by simp))]
      rfl

theorem stageAndFork_ready {env : Env} {background : Bool} {pipeline : List Commands}
    (taken : Taken) (resolved : List (Option Text)) {s : Sys} (hnone : ∀ h, s.store.desc h = none)
    (hin : InputReady env s.store (pipeline.headD {}))
    (hout : OutputReady env (pipeline.getLastD {})) :
    ∃ job s', stageAndFork env taken background pipeline resolved s = (.started job, s') := by
  obtain ⟨inFd, s₁, hbuild, hne, -⟩ := buildInputTmp_ready taken hnone hin
  obtain ⟨octx, s₂, hprep, -⟩ := prepareOutput_ready (s := s₁) hout
  rw [stageAndFork, hbuild]
  cases inFd with
  | failed => exact absurd rfl hne
  | none =>
    dsimp only
    rw [hprep]
    exact ⟨_, _, rfl⟩
  | fd d =>
    dsimp only
    rw [hprep]
    exact ⟨_, _, rfl⟩

/-- **A launch that gets what it asks for starts the pipeline**, and only such a launch does. -/
theorem launchTaking_started_iff {env : Env} {background : Bool} {pipeline : List Commands}
    {s : Sys} (taken : Taken) (hs : AtPrompt s) :
    (∃ job s', launchTaking env taken background pipeline s = (.started job, s')) ↔
      Ready env background pipeline s.store := by
  constructor
  · rintro ⟨job, s', h⟩
    obtain ⟨resolved, out, s₁, s₂, s₃, hpre, hshell, hforked⟩ := launchTaking_started h
    refine ⟨(presolve_isSome env pipeline s).mp (by rw [hpre]; rfl), hshell, ?_, ?_⟩
    · by_contra hin
      have hfail := buildInputTmp_not_ready (s := { s with out }) taken hin
      rw [hforked.input] at hfail
      exact hforked.inFd_ne hfail
    · by_contra hout
      have hfail := prepareOutput_not_ready (s := s₁) hout
      rw [hforked.output] at hfail
      cases hfail
  · intro h
    obtain ⟨out, hout⟩ := launchTaking_eq env taken background pipeline s
    obtain ⟨resolved, hpre⟩ :=
      Option.isSome_iff_exists.mp ((presolve_isSome env pipeline s).mpr h.found)
    rw [hout, hpre]
    have hnot : ¬ (background = false ∧ runsInShell pipeline = true) := by
      rintro ⟨hbg, hrun⟩
      rw [h.notShell hbg] at hrun
      cases hrun
    dsimp only
    rw [if_neg hnot]
    exact stageAndFork_ready taken resolved (s := { s with out }) hs.desc h.input h.output

/-- …whatever `write` takes. -/
theorem launch_started_iff {env : Env} {background : Bool} {pipeline : List Commands} {s : Sys}
    (hs : AtPrompt s) : (∃ job s', launch env background pipeline s = (.started job, s')) ↔
      Ready env background pipeline s.store :=
  launchTaking_started_iff .whole hs

/-- **The files behind a launch**: the input staged, then the targets opened. -/
theorem launchTaking_staged {env : Env} {taken : Taken} {background : Bool}
    {pipeline : List Commands} {s s' : Sys} {job : Started} (hs : AtPrompt s)
    (h : launchTaking env taken background pipeline s = (.started job, s')) :
    ∃ store, InputStaged env taken (pipeline.headD {}) s.store store job.fds.inFd ∧
      OutputStaged (pipeline.getLastD {}) store s'.store job.fds.octx := by
  have hready := (launchTaking_started_iff taken hs).mp ⟨job, s', h⟩
  obtain ⟨resolved, out, s₁, s₂, s₃, -, -, hforked⟩ := launchTaking_started h
  obtain ⟨inFd, t₁, hbuild, -, hin⟩ :=
    buildInputTmp_ready (s := { s with out }) taken hs.desc hready.input
  rw [hforked.input] at hbuild
  cases hbuild
  obtain ⟨octx, t₂, hprep, hout⟩ := prepareOutput_ready (s := s₁) hready.output
  rw [hforked.output] at hprep
  cases hprep
  have hpipes := store_openPipes (pipeline.length - 1) 0 s₂
  rw [hforked.pipes] at hpipes
  have hgate := store_openGate background s₃
  rw [hforked.gate] at hgate
  dsimp only at hpipes hgate
  refine ⟨s₁.store, hin, ?_⟩
  rw [hgate, hpipes]
  exact hout

end MiniProject.Shell
