import MiniProject.Machinery.Children
import MiniProject.Machinery.Runs
import MiniProject.Shell.Jobs

/-!
# Shell/Control — job control: the shell, its children and the `SIGCHLD` handler

`run_foreground` and `run_background` from their first `fork` to their return, as one machine:

    fork ⇄ join → fill → activate → lookup → takeTerminal → wait → giveBack → leave
                                                           → clearFg → flush → returned
                            (background)  → announce → openGate → detached

Between any two steps of the shell a child may move, and the handler may come in; the shell stands
still until the handler has left.  A run is a list of labels, which fixes the pids, the order of all
this and what each `waitpid` returns.

`fork` gives out fresh pids: a pid stands for one process over the whole run.
-/

namespace MiniProject.Shell

/-! ## `build_command_string` -/

/-- `strncat(out, s, outsize - strlen(out) - 1)`. -/
def strncat (outsize : ℕ) (out s : Text) : Text := out ++ s.take (outsize - out.length - 1)

/-- The inner loop of `build_command_string`. -/
def catArgs (outsize : ℕ) (out : Text) (argv : List Text) : Text :=
  argv.zipIdx.foldl (fun out a =>
    strncat outsize (if a.2 > 0 then strncat outsize out [' '] else out) a.1) out

/-- `build_command_string`. -/
def buildCommandString (pipeline : List Commands) (outsize : ℕ) : Text :=
  pipeline.zipIdx.foldl (fun out c =>
    catArgs outsize (if c.2 > 0 then strncat outsize out " | ".toList else out) c.1.argv) []

/-! ## The machine -/

/-- Where the shell stands: before the step it is named after. -/
inductive Pc
  | fork | join | fill | activate
  | lookup | takeTerminal
  | wait (remaining : ℕ)
  | giveBack (stopped : Bool)
  | leave (stopped : Bool)
  | clearFg (stopped : Bool)
  | flush (stopped : Bool)
  | returned (stopped : Bool)
  | announce | openGate | detached
  | fault (o : Overrun)
  deriving DecidableEq, Repr

/-- The shell between two command lines.  Jobs are about its children, past ones included. -/
structure Idle where
  children : Children Pid
  table : JobTable
  shellPgid : Pid
  pending : Bool
  known : ∀ k p, table.Answers k p → children.Knows p

/-- The shell when it starts. -/
def Idle.initial (shellPgid : Pid) : Idle where
  children := ⟨[], [], List.nodup_nil⟩
  table := ⟨[], 1, false, [], [], Nat.zero_le _, numbered_nil⟩
  shellPgid := shellPgid
  pending := false
  known _ _ h := nomatch h.1

/-- A pipeline and whether it is to run in the background. -/
structure Request where
  pipeline : List Commands
  background : Bool
  nonempty : pipeline ≠ []

/-- `a | b`. -/
def Request.twoStages (background : Bool) : Request where
  pipeline := [⟨[['a']], [], []⟩, ⟨[['b']], [], []⟩]
  background := background
  nonempty := fun h => nomatch h

/-- `names[i] = pipeline[i].argv[0]`. -/
def Request.names (r : Request) : List Text := r.pipeline.map fun c => c.argv.headD []

/-- `run_foreground` or `run_background` at work.  `forked` is `pids` as far as it is filled,
`group` is `group_pgid` with `none` for 0, `slot` and `num` are `job_count` and `next_job` as
`register_job` found them, and `job` is `j`. -/
structure Ctl where
  request : Request
  shellPgid : Pid
  children : Children Pid
  table : JobTable
  forked : List Pid
  group : Option Pid
  slot : ℕ
  num : ℕ
  job : Option ℕ
  terminal : Pid
  gateOpen : Bool
  pending : Bool
  handling : Bool
  pc : Pc

/-- One step of the shell (`main`, `fork`, and what `waitpid` finds), of a child, or of the
handler. -/
inductive Label
  | main
  | fork (p : Pid)
  | collect (p : Pid)
  | noticeStop (p : Pid)
  | noChild
  | joins (p : Pid)
  | exits (p : Pid) (normal : Bool)
  | stops (p : Pid)
  | continues (p : Pid)
  | signal
  | reaps (p : Pid)
  | handled
  deriving DecidableEq, Repr

namespace Ctl

/-- The pipeline has passed `build_input_tmp` and `prepare_output`; the foreground has set
`fg_running`. -/
def start (r : Request) (i : Idle) : Ctl where
  request := r
  shellPgid := i.shellPgid
  children := i.children
  table := if r.background then i.table else { i.table with fgRunning := true }
  forked := []
  group := none
  slot := i.table.jobs.length
  num := i.table.nextJob
  job := none
  terminal := i.shellPgid
  gateOpen := false
  pending := i.pending
  handling := false
  pc := .fork

variable (s : Ctl)

/-- `command`. -/
def command : Text := buildCommandString s.request.pipeline 512

/-- Nobody has `p` for a pid or a group. -/
def Fresh (p : Pid) : Prop :=
  p ∉ s.children.pids ++ s.children.reaped ∧ ¬ s.children.HasGroup p ∧ p ≠ s.shellPgid

instance (p : Pid) : Decidable (s.Fresh p) := inferInstanceAs (Decidable (_ ∧ _))

/-- The lines `[n] pid` and `[n] + Stopped`. -/
def announcement : Text :=
  ['['] ++ (toString s.num).toList ++ "] ".toList ++ (toString (s.group.getD 0)).toList ++ ['\n']

@[inherit_doc announcement]
def stopLine : Text :=
  ['['] ++ (toString s.num).toList ++ "] + Stopped\t".toList ++ s.command ++ ['\n']

/-- The steps in which the shell has no choice. -/
def main : Option Ctl :=
  match s.pc with
  | .fork =>
    if s.forked.length < s.request.names.length then none else some { s with pc := .fill }
  | .join =>
    s.forked.getLast?.map fun p =>
      { s with
        children := s.children.setpgid p (s.group.getD p)
        group := if s.forked.length = 1 then some p else s.group
        pc := .fork }
  | .fill =>
    match s.table.fillSlot (s.group.getD 0) s.forked s.request.names s.command
      s.request.background with
    | .error o => some { s with pc := .fault o }
    | .ok t =>
      some { s with
        table := t, slot := s.table.jobs.length, num := s.table.nextJob, pc := .activate }
  | .activate =>
    some { s with
      table := s.table.setActive s.slot true
      pc := if s.request.background then .announce else .lookup }
  | .lookup => some { s with job := s.table.findJobByNumber s.num, pc := .takeTerminal }
  | .takeTerminal =>
    some { s with terminal := s.group.getD 0, pc := .wait s.request.names.length }
  | .wait remaining => if remaining = 0 then some { s with pc := .giveBack false } else none
  | .giveBack stopped => some { s with terminal := s.shellPgid, pc := .leave stopped }
  | .leave stopped =>
    match s.job with
    | none => some { s with pc := .clearFg stopped }
    | some k =>
      some { s with
        table := if stopped then s.table else s.table.setActive k false, pc := .clearFg stopped }
  | .clearFg stopped =>
    some { s with table := { s.table with fgRunning := false }, pc := .flush stopped }
  | .flush stopped => some { s with table := s.table.flushPendingBgMsg, pc := .returned stopped }
  | .announce => some { s with table := s.table.print s.announcement, pc := .openGate }
  | .openGate => some { s with gateOpen := true, pc := .detached }
  | .returned _ => none
  | .detached => none
  | .fault _ => none

/-- `fork` returns `p` to the shell. -/
def fork (p : Pid) : Option Ctl :=
  if h : s.pc = .fork ∧ s.forked.length < s.request.names.length ∧ s.Fresh p then
    some { s with
      children := s.children.fork p s.shellPgid h.2.2.1, forked := s.forked ++ [p], pc := .join }
  else none

/-- `waitpid(-group_pgid, &status, WUNTRACED)` returns `p`, which has terminated. -/
def collect (p : Pid) : Option Ctl :=
  match s.pc, s.group, s.children.phase? p with
  | .wait (remaining + 1), some g, some (.zombie _) =>
    if h : s.children.InGroup p g then
      some { s with children := s.children.reap p h.mem_pids, pc := .wait remaining }
    else none
  | _, _, _ => none

/-- …which has stopped. -/
def noticeStop (p : Pid) : Option Ctl :=
  match s.pc, s.group, s.children.phase? p with
  | .wait (_ + 1), some g, some (.stopped false) =>
    if s.children.InGroup p g then
      some { s with
        children := s.children.setPhase p (.stopped true)
        table := ((s.job.map fun k => s.table.setState k .stopped).getD s.table).print s.stopLine
        pc := .giveBack true }
    else none
  | _, _, _ => none

/-- …fails with `ECHILD`. -/
def noChild : Option Ctl :=
  match s.pc, s.group with
  | .wait (_ + 1), some g =>
    if s.children.HasGroup g then none else some { s with pc := .giveBack false }
  | _, _ => none

/-- A child goes from one phase to another, and the shell gets a `SIGCHLD`. -/
def shift (p : Pid) (phase : Phase) : Ctl :=
  { s with children := s.children.setPhase p phase, pending := true }

/-- A child terminates.  Unless it is killed, it is not stopped, and stage 0 of a background
pipeline has read the gate. -/
def exits (p : Pid) (normal : Bool) : Option Ctl :=
  match s.children.phase? p with
  | some .running =>
    if normal ∧ s.request.background ∧ s.forked.head? = some p ∧ ¬ s.gateOpen then none
    else some (s.shift p (.zombie normal))
  | some (.stopped _) => if normal then none else some (s.shift p (.zombie normal))
  | _ => none

/-- One step of the loop in `reap_finished`: `waitpid(-1, &status, WNOHANG)` returns `p`. -/
def reaps (p : Pid) : Option Ctl :=
  match s.children.phase? p with
  | some (.zombie normal) =>
    if h : p ∈ s.children.pids then
      some { s with children := s.children.reap p h, table := s.table.reapFinished p normal }
    else none
  | _ => none

/-- One step.  The shell stands still while the handler runs, and the handler is not interrupted by
its own signal. -/
def step (s : Ctl) : Label → Option Ctl
  | .main => if s.handling then none else s.main
  | .fork p => if s.handling then none else s.fork p
  | .collect p => if s.handling then none else s.collect p
  | .noticeStop p => if s.handling then none else s.noticeStop p
  | .noChild => if s.handling then none else s.noChild
  | .joins p =>
    if p ∈ s.forked ∧ s.children.phase? p = some .running then
      some { s with children := s.children.setpgid p (s.group.getD p) }
    else none
  | .exits p normal => s.exits p normal
  | .stops p =>
    if s.children.phase? p = some .running then some (s.shift p (.stopped false)) else none
  | .continues p =>
    match s.children.phase? p with
    | some (.stopped _) => some (s.shift p .running)
    | _ => none
  | .signal =>
    if s.pending ∧ ¬ s.handling then some { s with pending := false, handling := true } else none
  | .reaps p => if s.handling then s.reaps p else none
  | .handled =>
    if s.handling ∧ ∀ x ∈ s.children.unreaped, ∀ normal, x.phase ≠ .zombie normal then
      some { s with handling := false }
    else none

/-! ## What a step can do -/

/-- The steps of the shell that touch neither its children nor the jobs: from one place to the
next. -/
inductive Quiet (s : Ctl) : Pc → Pc → Prop
  | takeTerminal : Quiet s .takeTerminal (.wait s.request.names.length)
  | done : Quiet s (.wait 0) (.giveBack false)
  | noChild {remaining g} (hg : s.group = some g) (hnone : ¬ s.children.HasGroup g) :
    Quiet s (.wait (remaining + 1)) (.giveBack false)
  | giveBack {stopped} : Quiet s (.giveBack stopped) (.leave stopped)
  | keep {stopped} (h : s.job = none ∨ stopped = true) :
    Quiet s (.leave stopped) (.clearFg stopped)
  | clearFg {stopped} : Quiet s (.clearFg stopped) (.flush stopped)
  | flush {stopped} : Quiet s (.flush stopped) (.returned stopped)
  | announce : Quiet s .announce .openGate
  | openGate : Quiet s .openGate .detached

/-- What a step does to the children and the jobs. -/
inductive Moves (s : Ctl) : Label → Ctl → Prop
  | fork {p} (hpc : s.pc = .fork) (hlt : s.forked.length < s.request.names.length)
    (hfresh : s.Fresh p) :
    Moves s (.fork p) { s with
      children := s.children.fork p s.shellPgid hfresh.1, forked := s.forked ++ [p], pc := .join }
  | join {p} (hpc : s.pc = .join) (hp : s.forked.getLast? = some p) :
    Moves s .main { s with
      children := s.children.setpgid p (s.group.getD p)
      group := if s.forked.length = 1 then some p else s.group
      pc := .fork }
  | ready (hpc : s.pc = .fork) (hlen : s.request.names.length ≤ s.forked.length) :
    Moves s .main { s with pc := .fill }
  | overrun {o} (hpc : s.pc = .fill)
    (h : s.table.fillSlot (s.group.getD 0) s.forked s.request.names s.command
      s.request.background = .error o) : Moves s .main { s with pc := .fault o }
  | fill {t} (hpc : s.pc = .fill)
    (h : s.table.fillSlot (s.group.getD 0) s.forked s.request.names s.command
      s.request.background = .ok t) :
    Moves s .main { s with
      table := t, slot := s.table.jobs.length, num := s.table.nextJob, pc := .activate }
  | activate (hpc : s.pc = .activate) :
    Moves s .main { s with
      table := s.table.setActive s.slot true
      pc := if s.request.background then .announce else .lookup }
  | lookup (hpc : s.pc = .lookup) :
    Moves s .main { s with job := s.table.findJobByNumber s.num, pc := .takeTerminal }
  | deactivate {k} (hpc : s.pc = .leave false) (hjob : s.job = some k) :
    Moves s .main { s with table := s.table.setActive k false, pc := .clearFg false }
  | quiet {l} {s' : Ctl} (hl : l = .main ∨ l = .noChild) (hpc : Quiet s s.pc s'.pc)
    (hchildren : s'.children = s.children) (hjobs : s'.table.jobs = s.table.jobs)
    (hforked : s'.forked = s.forked) (hgroup : s'.group = s.group)
    (hslot : s'.slot = s.slot ∧ s'.num = s.num ∧ s'.job = s.job)
    (hrequest : s'.request = s.request) (hshell : s'.shellPgid = s.shellPgid) : Moves s l s'
  | collect {p g remaining} (hpc : s.pc = .wait (remaining + 1)) (hg : s.group = some g)
    (hp : s.children.InGroup p g) :
    Moves s (.collect p) { s with
      children := s.children.reap p hp.mem_pids, pc := .wait remaining }
  | noticeStop {p g remaining} (hpc : s.pc = .wait (remaining + 1)) (hg : s.group = some g)
    (hp : s.children.InGroup p g) :
    Moves s (.noticeStop p) { s with
      children := s.children.setPhase p (.stopped true)
      table := ((s.job.map fun k => s.table.setState k .stopped).getD s.table).print s.stopLine
      pc := .giveBack true }
  | joins {p} (hp : p ∈ s.forked) :
    Moves s (.joins p) { s with children := s.children.setpgid p (s.group.getD p) }
  | exits {p normal} : Moves s (.exits p normal) (s.shift p (.zombie normal))
  | stops {p} : Moves s (.stops p) (s.shift p (.stopped false))
  | continues {p} : Moves s (.continues p) (s.shift p .running)
  | signal : Moves s .signal { s with pending := false, handling := true }
  | reaps {p normal} (hp : p ∈ s.children.pids) :
    Moves s (.reaps p) { s with
      children := s.children.reap p hp, table := s.table.reapFinished p normal }
  | handled : Moves s .handled { s with handling := false }

variable {s : Ctl} {s' : Ctl} {l : Label}

theorem moves_of_main (h : s.main = some s') : Moves s .main s' := by
  rw [main] at h
  split at h
  case h_1 hpc =>
    split at h
    · cases h
    · rename_i hlen
      cases h
      exact .ready hpc (Nat.le_of_not_lt hlen)
  case h_2 hpc =>
    obtain ⟨p, hp, rfl⟩ := Option.map_eq_some_iff.mp h
    exact .join hpc hp
  case h_3 hpc =>
    split at h
    · rename_i o hfill
      cases h
      exact .overrun hpc hfill
    · rename_i t hfill
      cases h
      exact .fill hpc hfill
  case h_4 hpc =>
    cases h
    exact .activate hpc
  case h_5 hpc =>
    cases h
    exact .lookup hpc
  case h_7 remaining hpc =>
    split at h
    · rename_i h0
      cases h
      exact .quiet (.inl rfl) (by rw [hpc, h0]; exact .done) rfl rfl rfl rfl ⟨rfl, rfl, rfl⟩ rfl
        rfl
    · cases h
  case h_9 stopped hpc =>
    split at h
    · rename_i hjob
      cases h
      exact .quiet (.inl rfl) (by rw [hpc]; exact .keep (.inl hjob)) rfl rfl rfl rfl
        ⟨rfl, rfl, rfl⟩ rfl rfl
    · rename_i k hjob
      cases h
      cases stopped with
      | false => exact .deactivate hpc hjob
      | true =>
        exact .quiet (.inl rfl) (by rw [hpc]; exact .keep (.inr rfl)) rfl rfl rfl rfl
          ⟨rfl, rfl, rfl⟩ rfl rfl
  case h_6 hpc | h_8 hpc | h_10 hpc | h_11 hpc | h_12 hpc | h_13 hpc =>
    cases h
    exact .quiet (.inl rfl) (by rw [hpc]; constructor) rfl rfl rfl rfl ⟨rfl, rfl, rfl⟩ rfl rfl
  case h_14 | h_15 | h_16 => cases h

/-- **A step is one of the moves.** -/
theorem moves_of_step (h : s.step l = some s') : Moves s l s' := by
  cases l with
  | main =>
    exact moves_of_main (Option.ite_none_left_eq_some.mp h).2
  | fork p =>
    have h := (Option.ite_none_left_eq_some.mp h).2
    rw [fork] at h
    split at h
    · rename_i hp
      cases h
      exact .fork hp.1 hp.2.1 hp.2.2
    · cases h
  | collect p =>
    have h := (Option.ite_none_left_eq_some.mp h).2
    rw [collect] at h
    split at h
    · rename_i hpc hg _
      split at h
      · rename_i hp
        cases h
        exact .collect hpc hg hp
      · cases h
    · cases h
  | noticeStop p =>
    have h := (Option.ite_none_left_eq_some.mp h).2
    rw [noticeStop] at h
    split at h
    · rename_i hpc hg _
      obtain ⟨hp, h⟩ := Option.ite_none_right_eq_some.mp h
      cases h
      exact .noticeStop hpc hg hp
    · cases h
  | noChild =>
    have h := (Option.ite_none_left_eq_some.mp h).2
    rw [noChild] at h
    split at h
    · rename_i hpc hg
      obtain ⟨hnone, h⟩ := Option.ite_none_left_eq_some.mp h
      cases h
      exact .quiet (.inr rfl) (by rw [hpc]; exact .noChild hg hnone) rfl rfl rfl rfl
        ⟨rfl, rfl, rfl⟩ rfl rfl
    · cases h
  | joins p =>
    obtain ⟨hp, h⟩ := Option.ite_none_right_eq_some.mp h
    cases h
    exact .joins hp.1
  | exits p normal =>
    rw [step, exits] at h
    split at h
    · obtain ⟨-, h⟩ := Option.ite_none_left_eq_some.mp h
      cases h
      exact .exits
    · obtain ⟨-, h⟩ := Option.ite_none_left_eq_some.mp h
      cases h
      exact .exits
    · cases h
  | stops p =>
    obtain ⟨-, h⟩ := Option.ite_none_right_eq_some.mp h
    cases h
    exact .stops
  | continues p =>
    rw [step] at h
    split at h
    · cases h
      exact .continues
    · cases h
  | signal =>
    obtain ⟨-, h⟩ := Option.ite_none_right_eq_some.mp h
    cases h
    exact .signal
  | reaps p =>
    have h := (Option.ite_none_right_eq_some.mp h).2
    rw [reaps] at h
    split at h
    · split at h
      · cases h
        exact .reaps _
      · cases h
    · cases h
  | handled =>
    obtain ⟨-, h⟩ := Option.ite_none_right_eq_some.mp h
    cases h
    exact .handled

end Ctl

end MiniProject.Shell
