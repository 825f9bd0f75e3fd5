import MiniProject.Machinery.Runs
import MiniProject.Shell.Launch

/-!
# Shell/Life — a pipeline from its last `fork` to the return of the shell

The stages write while the shell closes its ends, waits and copies, in any order: a run is a list of
events, one write of a stage or one step of the shell each.

    foreground   forked → waiting → flush_output → returned
    background   forked → waiting → returned

`waiting` is behind the closing loop over the pipes.  How long the shell stays there is left open: a
foreground pipeline leaves it when every stage has terminated or when one has stopped, and a stopped
stage goes on writing once it is resumed.
-/

namespace MiniProject.Shell

/-- Where the shell stands. -/
inductive LifePc
  | forked
  | waiting
  | flushing (pc : FlushPc)
  | returned
  deriving DecidableEq, Repr

/-- Before `flush_output` has moved the position of the staging file. -/
def LifePc.BeforeFlush : LifePc → Prop
  | .forked | .waiting | .flushing .start => True
  | _ => False

instance (pc : LifePc) : Decidable pc.BeforeFlush := by
  unfold LifePc.BeforeFlush
  split <;> infer_instance

/-- A pipeline and the shell that started it, with what each stage wrote to its stdout before
`flush_output` and from then on. -/
structure Life where
  job : Started
  sys : Sys
  pc : LifePc
  early : ℕ → List Byte
  late : ℕ → List Byte

/-- One write of a stage, or one step of the shell. -/
inductive Event
  | write (stage : ℕ) (bs : List Byte)
  | shell
  deriving DecidableEq, Repr

/-- The loop that closes the pipes, and `close(in_fd)`; in the background the gate goes first. -/
def Started.closeEnds (job : Started) (s : Sys) : Sys :=
  let s :=
    match job.fds.gate with
    | none => s
    | some (r, w) => (s.close r).close w
  (s.closeAll (pipeDescs job.fds.pipes)).closeAll job.fds.inFd.toList

namespace Life

/-- The life of a pipeline whose children have just been forked. -/
def init (job : Started) (sys : Sys) : Life := ⟨job, sys, .forked, fun _ => [], fun _ => []⟩

/-- What a stage wrote in its whole life. -/
def written (l : Life) (i : ℕ) : List Byte := l.early i ++ l.late i

/-- A stage writes through its own table. -/
def stageWrite (l : Life) (kid : Kid) (bs : List Byte) : Life :=
  let sys :=
    match kid.fds.get 1 with
    | none => l.sys
    | some h => { l.sys with store := l.sys.store.write h bs }
  if l.pc.BeforeFlush then
    { l with sys, early := Function.update l.early kid.stage (l.early kid.stage ++ bs) }
  else { l with sys, late := Function.update l.late kid.stage (l.late kid.stage ++ bs) }

/-- One event. -/
def step (l : Life) : Event → Option Life
  | .write i bs => (l.job.kids.find? fun kid => kid.stage = i).map fun kid => l.stageWrite kid bs
  | .shell =>
    match l.pc with
    | .forked => some { l with sys := l.job.closeEnds l.sys, pc := .waiting }
    | .waiting =>
      if l.job.background then
        let sys := (l.sys.closeAll l.job.fds.octx.tmpFd.toList).closeAll l.job.fds.octx.realFds
        some { l with sys, pc := .returned }
      else some { l with pc := .flushing .start }
    | .flushing .done => some { l with pc := .returned }
    | .flushing pc =>
      let (pc, sys) := flushStep l.job.fds.octx pc l.sys
      some { l with sys, pc := .flushing pc }
    | .returned => none

/-- **A whole life**: the launch, and the events behind it, if it starts something and they are
possible. -/
def ofLaunch (env : Env) (background : Bool) (pipeline : List Commands) (s : Sys)
    (events : List Event) : Option Life :=
  match launch env background pipeline s with
  | (.started job, s') => run step (init job s') events
  | _ => none

theorem ofLaunch_eq_some {env : Env} {background : Bool} {pipeline : List Commands} {s : Sys}
    {events : List Event} {l : Life} (h : ofLaunch env background pipeline s events = some l) :
    ∃ job s', launch env background pipeline s = (.started job, s') ∧
      run step (init job s') events = some l := by
  rw [ofLaunch] at h
  split at h
  · rename_i job s' hlaunch
    exact ⟨job, s', hlaunch, h⟩
  · cases h

/-- **What an event does**, by where the shell stands. -/
inductive Moves (l : Life) : Event → Life → Prop
  | write (kid : Kid) (bs : List Byte) (hkid : kid ∈ l.job.kids) :
      Moves l (.write kid.stage bs) (l.stageWrite kid bs)
  | closeEnds (hpc : l.pc = .forked) :
      Moves l .shell { l with sys := l.job.closeEnds l.sys, pc := .waiting }
  | leave (hpc : l.pc = .waiting) (hbg : l.job.background = true) :
      Moves l .shell { l with
        sys := (l.sys.closeAll l.job.fds.octx.tmpFd.toList).closeAll l.job.fds.octx.realFds
        pc := .returned }
  | flush (hpc : l.pc = .waiting) (hbg : l.job.background = false) :
      Moves l .shell { l with pc := .flushing .start }
  | copy (p : FlushPc) (hpc : l.pc = .flushing p) (hp : p ≠ .done) :
      Moves l .shell { l with
        sys := (flushStep l.job.fds.octx p l.sys).2
        pc := .flushing (flushStep l.job.fds.octx p l.sys).1 }
  | leaveFlushed (hpc : l.pc = .flushing .done) : Moves l .shell { l with pc := .returned }

theorem moves_of_step {l l' : Life} {e : Event} (h : l.step e = some l') : l.Moves e l' := by
  cases e with
  | write i bs =>
    obtain ⟨kid, hfind, rfl⟩ := Option.map_eq_some_iff.mp h
    have hstage : kid.stage = i := by simpa using List.find?_some hfind
    exact hstage ▸ .write kid bs (List.mem_of_find?_eq_some hfind)
  | shell =>
    rw [step] at h
    split at h
    · rename_i hpc
      cases h
      exact .closeEnds hpc
    · rename_i hpc
      split at h
      · rename_i hbg
        cases h
        exact .leave hpc hbg
      · rename_i hbg
        cases h
        exact .flush hpc (by simpa using hbg)
    · rename_i hpc
      cases h
      exact .leaveFlushed hpc
    · rename_i p hne hpc
      cases h
      exact .copy p hpc hne
    · cases h

/-- No event changes what was launched. -/
theorem Moves.job_eq {l l' : Life} {e : Event} (h : l.Moves e l') : l'.job = l.job := by
  cases h with
  | write kid bs hkid =>
    rw [stageWrite]
    dsimp only
    split <;> rfl
  | closeEnds hpc | leave hpc hbg | flush hpc hbg | copy p hpc hp | leaveFlushed hpc => rfl

/-- The closing loop touches no file. -/
@[simp] theorem store_closeEnds (job : Started) (s : Sys) : (job.closeEnds s).store = s.store := by
  rw [Started.closeEnds]
  cases job.fds.gate <;> rfl

/-- A step of `flush_output` opens nothing. -/
theorem desc_flushStep_of_none {octx : OutCtx} {pc : FlushPc} {s : Sys} {h : Handle}
    (hnone : s.store.desc h = none) : (flushStep octx pc s).2.store.desc h = none := by
  rw [flushStep]
  split
  · exact hnone
  · rename_i tfd _
    split
    · dsimp only [Sys.rewind]
      split
      · exact hnone
      · exact Store.desc_rewind_of_none hnone _
    · have hread : (s.read tfd bufSize).2.store.desc h = none := by
        rw [Sys.read]
        split
        · exact hnone
        · exact Store.desc_read_of_none hnone _ _
      dsimp only
      split <;> exact hread
    · exact hnone
    · dsimp only [Sys.write]
      split
      · exact hnone
      · exact Store.desc_write_of_none hnone _ _
    · exact hnone
    · exact hnone

/-- **No event opens a description.** -/
theorem Moves.desc_of_none {l l' : Life} {e : Event} (h : l.Moves e l') {x : Handle}
    (hnone : l.sys.store.desc x = none) : l'.sys.store.desc x = none := by
  cases h with
  | write kid bs hkid =>
    rw [stageWrite]
    dsimp only
    split <;> cases kid.fds.get 1 <;> first
      | exact hnone
      | exact Store.desc_write_of_none hnone _ _
  | closeEnds hpc => rwa [store_closeEnds]
  | copy p hpc hp => exact desc_flushStep_of_none hnone
  | leave hpc hbg | flush hpc hbg | leaveFlushed hpc => exact hnone

/-- …nor does a run of them. -/
theorem desc_of_run {l l' : Life} {events : List Event} (hrun : run step l events = some l')
    {x : Handle} (hnone : l.sys.store.desc x = none) : l'.sys.store.desc x = none :=
  invariant' (I := fun m => m.sys.store.desc x = none)
    (fun _ _ _ hI hstep => (moves_of_step hstep).desc_of_none hI) hnone hrun

end Life

end MiniProject.Shell
