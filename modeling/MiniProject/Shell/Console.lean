import MiniProject.Machinery.Children
import MiniProject.Machinery.Runs
import MiniProject.Shell.Jobs

/-!
# Shell/Console — the terminal, the jobs and the prompt

The shell over a whole session: it launches pipelines, resumes and pings jobs, and its `SIGCHLD`
handler comes in at any moment.  A job that holds the terminal can be stopped from it.

Three commands give a job the terminal or change what it does:

    run_foreground   fork → fill → activate → lookup → takeTerminal → wait → giveBack → leave
                                                                    → clearFg → flush → prompt
    run_background   fork → fill → activate → announce → prompt
    resume           cont → say → grab → mark → await → settle | expired → release → prompt
                     cont → run → prompt

A stage is forked straight into the group of its pipeline, and the group is named after the slot the
pipeline gets: a signal for a job reaches all its processes, and nobody else.  `ping` of a process
is for its whole job.
-/

namespace MiniProject.Shell

/-! ## The machine -/

/-- How `resume` is to go on; a timeout of 0 is none. -/
inductive Resume
  | bg
  | fg (timeout : ℕ)
  deriving DecidableEq, Repr

/-- The signals that stop a process or let it go on. -/
inductive Sig
  | stop | tstp | cont
  deriving DecidableEq, Repr

/-- What the default action makes of a process. -/
def Sig.act : Sig → Phase → Phase
  | .stop => Phase.stop
  | .tstp => Phase.stop
  | .cont => Phase.cont

/-- What `ping` is aimed at. -/
inductive Target
  | job (num : ℕ)
  | process (pid : Pid)
  deriving DecidableEq, Repr

/-- The slot `ping` finds. -/
def JobTable.find (t : JobTable) : Target → Option ℕ
  | .job num => t.findJobByNumber num
  | .process pid => t.findJobContainingPid pid

/-- Where the shell stands: before the step it is named after.  `k` is the slot `j` points to. -/
inductive Place
  | prompt
  | fork | fill | activate | announce
  | lookup | takeTerminal
  | wait (remaining : ℕ)
  | giveBack (stopped : Bool)
  | leave (stopped : Bool)
  | clearFg | flush
  | cont (k : ℕ) (how : Resume)
  | run (k : ℕ)
  | say (k timeout : ℕ)
  | grab (k timeout : ℕ)
  | mark (k timeout : ℕ)
  | await (k timeout remaining : ℕ)
  | settle (k timeout remaining : ℕ)
  | expired (k : ℕ)
  | release (k : ℕ)
  | fault (o : Overrun)
  deriving DecidableEq, Repr

/-- The shell and its children.  `terminal` is the group that holds it, `none` the shell's; the
fields from `names` on are those of the pipeline launched last. -/
structure Console where
  children : Children ℕ
  table : JobTable
  terminal : Option ℕ
  pending : Bool
  handling : Bool
  place : Place
  names : List Text
  command : Text
  background : Bool
  forked : List Pid
  slot : ℕ
  num : ℕ
  job : Option ℕ

namespace Console

/-- One step of the shell, of a child, of the terminal or of the handler. -/
inductive Event
  | main
  | launch (names : List Text) (command : Text) (background : Bool)
  | resume (num : ℕ) (how : Resume)
  | ping (target : Target) (sig : Sig)
  | fork (p : Pid)
  | collect (p : Pid)
  | noticeStop (p : Pid)
  | noChild
  | timeout
  | ctrlZ
  | exits (p : Pid) (normal : Bool)
  | signal
  | reaps (p : Pid)
  | handled
  deriving DecidableEq, Repr

/-- The shell when it starts. -/
def initial : Console where
  children := ⟨[], [], List.nodup_nil⟩
  table := ⟨[], 1, false, [], [], Nat.zero_le _, numbered_nil⟩
  terminal := none
  pending := false
  handling := false
  place := .prompt
  names := []
  command := []
  background := false
  forked := []
  slot := 0
  num := 0
  job := none

variable (s : Console)

/-- The lines `[n] + Stopped`, `[n] + Running` and `[n] pid`. -/
def stopLine : Text :=
  ['['] ++ (toString s.num).toList ++ "] + Stopped\t".toList ++ s.command ++ ['\n']

@[inherit_doc stopLine]
def runLine (k : ℕ) : Text :=
  match s.table.jobs[k]? with
  | none => []
  | some j => ['['] ++ (toString j.number).toList ++ "] + Running\t".toList ++ j.command ++ ['\n']

@[inherit_doc stopLine]
def announcement : Text :=
  ['['] ++ (toString s.num).toList ++ "] ".toList ++ (toString (s.forked.headD 0)).toList ++ ['\n']

/-- The line `resume: job timed out`. -/
def timedOut : Text := "resume: job timed out\n".toList

/-- `command` of slot `k`. -/
def commandAt (k : ℕ) : Text := ((s.table.jobs[k]?.map Job.command).getD []) ++ ['\n']

/-- `run_foreground` or `run_background` at its fork loop. -/
def launch (names : List Text) (command : Text) (background : Bool) : Option Console :=
  if s.place = .prompt ∧ names ≠ [] then
    some { s with
      table := if background then s.table else { s.table with fgRunning := true }
      place := .fork, names, command, background, forked := []
      slot := s.table.jobs.length, num := s.table.nextJob, job := none }
  else none

/-- `resuming` behind its checks. -/
def resume (num : ℕ) (how : Resume) : Option Console :=
  if s.place = .prompt then
    match s.table.findJobByNumber num with
    | none => some s
    | some k => some { s with place := .cont k how }
  else none

/-- `pinging` behind its checks. -/
def ping (target : Target) (sig : Sig) : Option Console :=
  if s.place = .prompt then
    match s.table.find target with
    | none => some s
    | some k => some { s with children := s.children.signal k sig.act, pending := true }
  else none

/-- The steps in which the shell has no choice. -/
def main : Option Console :=
  match s.place with
  | .prompt => some { s with table := s.table.flushPendingBgMsg } -- the end of `run_cmd`
  | .fork => if s.forked.length < s.names.length then none else some { s with place := .fill }
  | .fill =>
    match s.table.fillSlot (s.forked.headD 0) s.forked s.names s.command s.background with
    | .error o => some { s with place := .fault o }
    | .ok table => some { s with table, place := .activate }
  | .activate =>
    some { s with
      table := s.table.setActive s.slot true
      place := if s.background then .announce else .lookup }
  | .announce => some { s with table := s.table.print s.announcement, place := .prompt }
  | .lookup => some { s with job := s.table.findJobByNumber s.num, place := .takeTerminal }
  | .takeTerminal => some { s with terminal := some s.slot, place := .wait s.names.length }
  | .wait remaining => if remaining = 0 then some { s with place := .giveBack false } else none
  | .giveBack stopped => some { s with terminal := none, place := .leave stopped }
  | .leave stopped =>
    match s.job with
    | none => some { s with place := .clearFg }
    | some k =>
      some { s with
        table := if stopped then s.table else s.table.setActive k false, place := .clearFg }
  | .clearFg => some { s with table := { s.table with fgRunning := false }, place := .flush }
  | .flush => some { s with table := s.table.flushPendingBgMsg, place := .prompt }
  | .cont k how =>
    some { s with
      children := s.children.signal k Phase.cont
      pending := true
      place := match how with
        | .bg => .run k
        | .fg timeout => .say k timeout }
  | .run k =>
    some { s with table := (s.table.setState k .running).print (s.runLine k), place := .prompt }
  | .say k timeout =>
    some { s with table := s.table.print (s.commandAt k), place := .grab k timeout }
  | .grab k timeout => some { s with terminal := some k, place := .mark k timeout }
  | .mark k timeout =>
    some { s with
      table := s.table.setState k .running
      place := .await k timeout (s.table.pidsAt k).length }
  | .await k timeout remaining =>
    if remaining = 0 then some { s with place := .settle k timeout 0 } else none
  | .settle k timeout remaining =>
    some { s with
      table := if timeout = 0 ∧ remaining = 0 then s.table.setActive k false else s.table
      place := .release k }
  | .expired k =>
    some { s with table := (s.table.print timedOut).setActive k false, place := .release k }
  | .release _ => some { s with terminal := none, place := .prompt }
  | .fault _ => none

/-- `fork` returns `p` to the shell. -/
def fork (p : Pid) : Option Console :=
  if h : s.place = .fork ∧ s.forked.length < s.names.length ∧
      p ∉ s.children.pids ++ s.children.reaped then
    some { s with children := s.children.fork p s.slot h.2.2, forked := s.forked ++ [p] }
  else none

/-- `waitpid(-pgid, &status, WUNTRACED)` returns `p`, which has terminated. -/
def collect (p : Pid) : Option Console :=
  match s.place, s.children.phase? p with
  | .wait (remaining + 1), some (.zombie _) =>
    if h : s.children.InGroup p s.slot then
      some { s with children := s.children.reap p h.mem_pids, place := .wait remaining }
    else none
  | .await k timeout (remaining + 1), some (.zombie _) =>
    if h : s.children.InGroup p k then
      some { s with children := s.children.reap p h.mem_pids, place := .await k timeout remaining }
    else none
  | _, _ => none

/-- …which has stopped. -/
def noticeStop (p : Pid) : Option Console :=
  match s.place, s.children.phase? p with
  | .wait (_ + 1), some (.stopped false) =>
    if s.children.InGroup p s.slot then
      some { s with
        children := s.children.setPhase p (.stopped true)
        table := ((s.job.map fun k => s.table.setState k .stopped).getD s.table).print s.stopLine
        place := .giveBack true }
    else none
  | .await k timeout (remaining + 1), some (.stopped false) =>
    if s.children.InGroup p k then
      some { s with
        children := s.children.setPhase p (.stopped true)
        table := s.table.setState k .stopped
        place := .settle k timeout (remaining + 1) }
    else none
  | _, _ => none

/-- …fails with `ECHILD`. -/
def noChild : Option Console :=
  match s.place with
  | .wait (_ + 1) =>
    if s.children.HasGroup s.slot then none else some { s with place := .giveBack false }
  | .await k timeout (remaining + 1) =>
    if s.children.HasGroup k then none
    else some { s with place := .settle k timeout (remaining + 1) }
  | _ => none

/-- `SIGALRM` comes before `alarm(0)`. -/
def timeout : Option Console :=
  match s.place with
  | .await k timeout _ => if timeout = 0 then none else some { s with place := .expired k }
  | .settle k timeout _ => if timeout = 0 then none else some { s with place := .expired k }
  | _ => none

/-- Ctrl-Z: `SIGTSTP` for the group that holds the terminal.  The shell does nothing about it. -/
def ctrlZ : Console :=
  match s.terminal with
  | none => s
  | some g => { s with children := s.children.signal g Phase.stop, pending := true }

/-- A child terminates, and if it is stopped, it is killed. -/
def exits (p : Pid) (normal : Bool) : Option Console :=
  match s.children.phase? p with
  | some .running =>
    some { s with children := s.children.setPhase p (.zombie normal), pending := true }
  | some (.stopped _) =>
    if normal then none
    else some { s with children := s.children.setPhase p (.zombie normal), pending := true }
  | _ => none

/-- One step of the loop in `reap_finished`. -/
def reaps (p : Pid) : Option Console :=
  match s.children.phase? p with
  | some (.zombie normal) =>
    if h : p ∈ s.children.pids then
      some { s with children := s.children.reap p h, table := s.table.reapFinished p normal }
    else none
  | _ => none

/-- One step; the shell stands still while the handler runs. -/
def step (s : Console) : Event → Option Console
  | .main => if s.handling then none else s.main
  | .launch names command background =>
    if s.handling then none else s.launch names command background
  | .resume num how => if s.handling then none else s.resume num how
  | .ping target sig => if s.handling then none else s.ping target sig
  | .fork p => if s.handling then none else s.fork p
  | .collect p => if s.handling then none else s.collect p
  | .noticeStop p => if s.handling then none else s.noticeStop p
  | .noChild => if s.handling then none else s.noChild
  | .timeout => if s.handling then none else s.timeout
  | .ctrlZ => some s.ctrlZ
  | .exits p normal => s.exits p normal
  | .signal =>
    if s.pending ∧ ¬ s.handling then some { s with pending := false, handling := true } else none
  | .reaps p => if s.handling then s.reaps p else none
  | .handled =>
    if s.handling ∧ ∀ x ∈ s.children.unreaped, ∀ normal, x.phase ≠ .zombie normal then
      some { s with handling := false }
    else none

/-! ## What a step can do -/

/-- A step that may change nothing: a `resume` or a `ping` of no job, or Ctrl-Z at the prompt. -/
def Vain (s : Console) : Event → Prop
  | .resume _ _ | .ctrlZ => True
  | .ping target _ => s.table.find target = none
  | _ => False

/-- A step: one of `main`, one that changes nothing, or one of those in which something is chosen or
comes from outside. -/
inductive Moves (s : Console) : Event → Console → Prop
  | main {s'} (h : s.main = some s') : Moves s .main s'
  | idle {e} (he : s.Vain e) : Moves s e s
  | launch {names command background} (hplace : s.place = .prompt) :
    Moves s (.launch names command background) { s with
      table := if background then s.table else { s.table with fgRunning := true }
      place := .fork, names, command, background, forked := []
      slot := s.table.jobs.length, num := s.table.nextJob, job := none }
  | resume {num how k} (hplace : s.place = .prompt) (hfind : s.table.findJobByNumber num = some k) :
    Moves s (.resume num how) { s with place := .cont k how }
  | ping {target sig k} (hplace : s.place = .prompt) (hfind : s.table.find target = some k) :
    Moves s (.ping target sig) { s with children := s.children.signal k sig.act, pending := true }
  | fork {p} (hplace : s.place = .fork) (hlt : s.forked.length < s.names.length)
    (hfresh : p ∉ s.children.pids ++ s.children.reaped) :
    Moves s (.fork p) { s with
      children := s.children.fork p s.slot hfresh, forked := s.forked ++ [p] }
  | collect {p remaining} (hplace : s.place = .wait (remaining + 1))
    (hp : s.children.InGroup p s.slot) :
    Moves s (.collect p) { s with
      children := s.children.reap p hp.mem_pids, place := .wait remaining }
  | collectResumed {p k timeout remaining} (hplace : s.place = .await k timeout (remaining + 1))
    (hp : s.children.InGroup p k) :
    Moves s (.collect p) { s with
      children := s.children.reap p hp.mem_pids, place := .await k timeout remaining }
  | noticeStop {p remaining} (hplace : s.place = .wait (remaining + 1))
    (hphase : s.children.phase? p = some (.stopped false)) (hp : s.children.InGroup p s.slot) :
    Moves s (.noticeStop p) { s with
      children := s.children.setPhase p (.stopped true)
      table := ((s.job.map fun k => s.table.setState k .stopped).getD s.table).print s.stopLine
      place := .giveBack true }
  | noticeStopResumed {p k timeout remaining} (hplace : s.place = .await k timeout (remaining + 1))
    (hphase : s.children.phase? p = some (.stopped false)) (hp : s.children.InGroup p k) :
    Moves s (.noticeStop p) { s with
      children := s.children.setPhase p (.stopped true)
      table := s.table.setState k .stopped
      place := .settle k timeout (remaining + 1) }
  | noChild {remaining} (hplace : s.place = .wait (remaining + 1))
    (hnone : ¬ s.children.HasGroup s.slot) : Moves s .noChild { s with place := .giveBack false }
  | noChildResumed {k timeout remaining} (hplace : s.place = .await k timeout (remaining + 1))
    (hnone : ¬ s.children.HasGroup k) :
    Moves s .noChild { s with place := .settle k timeout (remaining + 1) }
  | timeout {k timeout remaining}
    (hplace : s.place = .await k timeout remaining ∨ s.place = .settle k timeout remaining) :
    Moves s .timeout { s with place := .expired k }
  | ctrlZ {g} (hterm : s.terminal = some g) :
    Moves s .ctrlZ { s with children := s.children.signal g Phase.stop, pending := true }
  | exits {p normal} : Moves s (.exits p normal) { s with
      children := s.children.setPhase p (.zombie normal), pending := true }
  | signal : Moves s .signal { s with pending := false, handling := true }
  | reaps {p normal} (hphase : s.children.phase? p = some (.zombie normal))
    (hp : p ∈ s.children.pids) :
    Moves s (.reaps p) { s with
      children := s.children.reap p hp, table := s.table.reapFinished p normal }
  | handled : Moves s .handled { s with handling := false }

variable {s : Console} {s' : Console} {e : Event}

theorem moves_of_collect {p : Pid} (h : s.collect p = some s') : Moves s (.collect p) s' := by
  rw [collect] at h
  split at h
  · rename_i hplace _
    split at h
    · rename_i hp
      cases h
      exact .collect hplace hp
    · cases h
  · rename_i hplace _
    split at h
    · rename_i hp
      cases h
      exact .collectResumed hplace hp
    · cases h
  · cases h

theorem moves_of_noticeStop {p : Pid} (h : s.noticeStop p = some s') :
    Moves s (.noticeStop p) s' := by
  rw [noticeStop] at h
  split at h
  · rename_i hplace hphase
    obtain ⟨hp, h⟩ := Option.ite_none_right_eq_some.mp h
    cases h
    exact .noticeStop hplace hphase hp
  · rename_i hplace hphase
    obtain ⟨hp, h⟩ := Option.ite_none_right_eq_some.mp h
    cases h
    exact .noticeStopResumed hplace hphase hp
  · cases h

theorem moves_of_noChild (h : s.noChild = some s') : Moves s .noChild s' := by
  rw [noChild] at h
  split at h
  · rename_i hplace
    obtain ⟨hnone, h⟩ := Option.ite_none_left_eq_some.mp h
    cases h
    exact .noChild hplace hnone
  · rename_i hplace
    obtain ⟨hnone, h⟩ := Option.ite_none_left_eq_some.mp h
    cases h
    exact .noChildResumed hplace hnone
  · cases h

theorem moves_of_timeout (h : s.timeout = some s') : Moves s .timeout s' := by
  rw [timeout] at h
  split at h
  · rename_i hplace
    obtain ⟨-, h⟩ := Option.ite_none_left_eq_some.mp h
    cases h
    exact .timeout (.inl hplace)
  · rename_i hplace
    obtain ⟨-, h⟩ := Option.ite_none_left_eq_some.mp h
    cases h
    exact .timeout (.inr hplace)
  · cases h

theorem moves_of_exits {p : Pid} {normal : Bool} (h : s.exits p normal = some s') :
    Moves s (.exits p normal) s' := by
  rw [exits] at h
  split at h
  · cases h
    exact .exits
  · obtain ⟨-, h⟩ := Option.ite_none_left_eq_some.mp h
    cases h
    exact .exits
  · cases h

theorem moves_of_resume {num : ℕ} {how : Resume} (h : s.resume num how = some s') :
    Moves s (.resume num how) s' := by
  obtain ⟨hplace, h⟩ := Option.ite_none_right_eq_some.mp h
  split at h
  · cases h
    exact .idle trivial
  · rename_i hfind
    cases h
    exact .resume hplace hfind

theorem moves_of_ping {target : Target} {sig : Sig} (h : s.ping target sig = some s') :
    Moves s (.ping target sig) s' := by
  obtain ⟨hplace, h⟩ := Option.ite_none_right_eq_some.mp h
  split at h
  · rename_i hfind
    cases h
    exact .idle hfind
  · rename_i hfind
    cases h
    exact .ping hplace hfind

/-- **A step is one of the moves.** -/
theorem moves_of_step (h : s.step e = some s') : Moves s e s' := by
  cases e with
  | main => exact .main (Option.ite_none_left_eq_some.mp h).2
  | launch names command background =>
    have h := (Option.ite_none_left_eq_some.mp h).2
    obtain ⟨⟨hplace, -⟩, h⟩ := Option.ite_none_right_eq_some.mp h
    cases h
    exact .launch hplace
  | resume num how => exact moves_of_resume (Option.ite_none_left_eq_some.mp h).2
  | ping target sig => exact moves_of_ping (Option.ite_none_left_eq_some.mp h).2
  | fork p =>
    have h := (Option.ite_none_left_eq_some.mp h).2
    rw [fork] at h
    split at h
    · rename_i hp
      cases h
      exact .fork hp.1 hp.2.1 hp.2.2
    · cases h
  | collect p => exact moves_of_collect (Option.ite_none_left_eq_some.mp h).2
  | noticeStop p => exact moves_of_noticeStop (Option.ite_none_left_eq_some.mp h).2
  | noChild => exact moves_of_noChild (Option.ite_none_left_eq_some.mp h).2
  | timeout => exact moves_of_timeout (Option.ite_none_left_eq_some.mp h).2
  | ctrlZ =>
    cases h
    rw [ctrlZ]
    split
    · exact .idle trivial
    · rename_i hterm
      exact .ctrlZ hterm
  | exits p normal => exact moves_of_exits h
  | signal =>
    obtain ⟨-, h⟩ := Option.ite_none_right_eq_some.mp h
    cases h
    exact .signal
  | reaps p =>
    have h := (Option.ite_none_right_eq_some.mp h).2
    rw [reaps] at h
    split at h
    · rename_i hphase
      split at h
      · rename_i hp
        cases h
        exact .reaps hphase hp
      · cases h
    · cases h
  | handled =>
    obtain ⟨-, h⟩ := Option.ite_none_right_eq_some.mp h
    cases h
    exact .handled

end Console

end MiniProject.Shell
