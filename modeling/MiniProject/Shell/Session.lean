import MiniProject.Machinery.Runs
import MiniProject.Shell.Control
import MiniProject.Shell.Launch
import MiniProject.Shell.Parser

/-!
# Shell/Session — the job table over a whole session

A session is a list of lines, run one segment after the other; what a launch finds outside and what
happens to the table meanwhile is left to the labels.  Every pipeline that gets as far as its
children is registered, foreground ones included, and no slot is ever given back, so the slot of a
registration is the number of pipelines launched before it: the writes of `register_job` are in
bounds exactly when at most `maxjobs` pipelines have been launched, of at most `maxjobProcess`
stages each (`inBounds_iff`).
-/

namespace MiniProject.Shell

/-! ## Between two registrations -/

/-- What is written to the table other than by `register_job`: by the handler, the wait loops,
`resume` and the messages. -/
inductive Edit
  | reaped (pid : Pid) (normal : Bool)
  | state (k : ℕ) (state : JobState)
  | active (k : ℕ) (active : Bool)
  | fgRunning (on : Bool)
  | flush
  deriving DecidableEq, Repr

/-- One of them. -/
def JobTable.edit (t : JobTable) : Edit → JobTable
  | .reaped pid normal => t.reapFinished pid normal
  | .state k state => t.setState k state
  | .active k active => t.setActive k active
  | .fgRunning on => { t with fgRunning := on }
  | .flush => t.flushPendingBgMsg

/-- No slot is taken or given back. -/
@[simp] theorem length_jobs_edit (t : JobTable) (e : Edit) :
    (t.edit e).jobs.length = t.jobs.length := by
  cases e with
  | reaped pid normal => exact JobTable.length_jobs_reapFinished
  | state k state => exact JobTable.length_jobs_setState state
  | active k active => exact JobTable.length_jobs_setActive active
  | fgRunning | flush => rfl

@[simp] theorem length_jobs_edits (t : JobTable) (es : List Edit) :
    (es.foldl JobTable.edit t).jobs.length = t.jobs.length := by
  induction es generalizing t with
  | nil => rfl
  | cons e es ih => rw [List.foldl_cons, ih, length_jobs_edit]

/-! ## The session -/

/-- What a round meets: the files and commands there are, the pid each `fork` returns, and the edits
of the table since the round before. -/
structure Outside where
  env : Env
  sys : Sys
  pid : ℕ → Pid
  edits : List Edit

/-- An outside in which everything is there, at a prompt with no files. -/
def Outside.obliging : Outside := ⟨.obliging, .prompt fun _ => none, (100 + ·), []⟩

/-- A call of `register_job`: `job_count` as it finds it, and `nproc`. -/
structure Registration where
  slot : ℕ
  nproc : ℕ
  deriving DecidableEq, Repr

/-- The call writes inside the table. -/
def Registration.InBounds (c : Registration) : Prop := c.slot < maxjobs ∧ c.nproc ≤ maxjobProcess

/-- The loops of `main` and `run_cmd`: the lines to come, what is left of the line at work, and the
job table; the pipelines that have been launched, the calls of `register_job`, and why the shell has
stopped. -/
structure Session where
  lines : List (List Token)
  line : Option (List Token)
  table : JobTable
  launched : List (List Commands)
  calls : List Registration
  halt : Option Halt

namespace Session

/-- A session on the given lines. -/
def start (lines : List (List Token)) : Session where
  lines := lines
  line := none
  table := (Idle.initial 0).table
  launched := []
  calls := []
  halt := none

variable (s : Session)

/-- `register_job` for a pipeline whose children have been forked. -/
def register (o : Outside) (pipeline : List Commands) (background : Bool) :
    Except Overrun (ℕ × JobTable) :=
  s.table.registerJob (o.pid 0) ((List.range pipeline.length).map o.pid)
    (pipeline.map fun c => c.argv.headD []) (buildCommandString pipeline 512) background

/-- `run_foreground` or `run_background` on a segment. -/
def launch (o : Outside) (seg : Segment) (rest : List Token) : Session :=
  let background := decide (seg.term = .amp)
  match (Shell.launch o.env background seg.pipeline o.sys).1 with
  | .refused => { s with line := some (if background then rest else []) } -- `break`
  | .builtin argv =>
    if argv.head? = some "exit".toList then { s with halt := some .exit }
    else { s with line := some rest }
  | .started _ =>
    let s : Session := { s with
      launched := s.launched ++ [seg.pipeline]
      calls := s.calls ++ [⟨s.table.jobs.length, seg.pipeline.length⟩] }
    match s.register o seg.pipeline background with
    | .error e => { s with halt := some (.overrun e) }
    | .ok (_, table) => { s with table, line := some rest }

/-- One round of `run_cmd`, or of `main` from one line to the next. -/
def round (o : Outside) : Session :=
  match s.line with
  | none =>
    match s.lines with
    | [] => s
    | line :: lines =>
      match parsing line with
      | .error _ => { s with lines }
      | .ok () => { s with line := some line, lines }
  | some [] => { s with line := none, table := s.table.flushPendingBgMsg }
  | some (t :: ts) =>
    match nextSegment (t :: ts) with
    | .error e => { s with halt := some (.overrun e) }
    | .ok (seg, rest) => if seg.isStray then { s with line := some rest } else s.launch o seg rest

/-- The edits of the table, and then a round. -/
def step (s : Session) (o : Outside) : Option Session :=
  if s.halt.isSome then none
  else some (round { s with table := o.edits.foldl JobTable.edit s.table } o)

/-- **Every call of `register_job` was in bounds.** -/
def InBounds : Prop := ∀ c ∈ s.calls, c.InBounds

/-! ## The slot of a registration -/

/-- The table is as long as the list of launches, until a registration fails; each call found it as
long as it was then. -/
structure Counted : Prop where
  table : s.halt = none → s.table.jobs.length = s.launched.length
  calls : s.calls = s.launched.zipIdx.map fun p => ⟨p.2, p.1.length⟩

variable {s : Session} {s' : Session}

theorem counted_start (lines : List (List Token)) : (start lines).Counted := ⟨fun _ => rfl, rfl⟩

/-- A step that launches nothing keeps the count. -/
theorem Counted.congr (h : s.Counted) (hlen : s'.table.jobs.length = s.table.jobs.length)
    (hhalt : s'.halt = none → s.halt = none) (hlaunched : s'.launched = s.launched)
    (hcalls : s'.calls = s.calls) : s'.Counted := by
  refine ⟨fun hnone => ?_, ?_⟩
  · rw [hlen, hlaunched]
    exact h.table (hhalt hnone)
  · rw [hcalls, hlaunched]
    exact h.calls

/-- `register_job` takes one slot. -/
theorem length_register {o : Outside} {pipeline : List Commands} {background : Bool} {num : ℕ}
    {table : JobTable} (h : s.register o pipeline background = .ok (num, table)) :
    table.jobs.length = s.table.jobs.length + 1 := by
  obtain ⟨t, hfill, h⟩ := bind_eq_ok.mp h
  cases h
  rw [JobTable.length_jobs_setActive]
  exact JobTable.length_jobs_fillSlot hfill

theorem Counted.launch (h : s.Counted) (hnone : s.halt = none) (o : Outside) (seg : Segment)
    (rest : List Token) : (s.launch o seg rest).Counted := by
  rw [Session.launch]
  dsimp only
  split
  · exact h.congr rfl id rfl rfl
  · split
    · exact h.congr rfl (fun _ => hnone) rfl rfl
    · exact h.congr rfl id rfl rfl
  · have hcalls : s.calls ++ [⟨s.table.jobs.length, seg.pipeline.length⟩] =
        (s.launched ++ [seg.pipeline]).zipIdx.map fun p => (⟨p.2, p.1.length⟩ : Registration) := by
      rw [List.zipIdx_append, List.map_append, ← h.calls, h.table hnone]
      simp
    split
    · exact ⟨nofun, hcalls⟩
    · rename_i hok
      refine ⟨fun _ => ?_, hcalls⟩
      rw [List.length_append, List.length_singleton, ← h.table hnone]
      exact length_register hok

/-- **The slot of the next registration is the number of launches.** -/
theorem counted_step {o : Outside} (h : s.Counted) (hstep : s.step o = some s') : s'.Counted := by
  obtain ⟨hhalt, hstep⟩ := Option.ite_none_left_eq_some.mp hstep
  have hnone : s.halt = none := Option.not_isSome_iff_eq_none.mp hhalt
  have hedited : Counted { s with table := o.edits.foldl JobTable.edit s.table } :=
    h.congr (length_jobs_edits _ _) id rfl rfl
  cases hstep
  rw [round]
  split
  · split
    · exact hedited
    · split
      · exact hedited.congr rfl id rfl rfl
      · exact hedited.congr rfl id rfl rfl
  · exact hedited.congr rfl id rfl rfl
  · split
    · exact hedited.congr rfl (fun _ => hnone) rfl rfl
    · split
      · exact hedited.congr rfl id rfl rfl
      · exact hedited.launch hnone o _ _

/-- **In a session the writes of `register_job` are in bounds** exactly when no more than `maxjobs`
pipelines have been launched, and none of more than `maxjobProcess` stages. -/
theorem inBounds_iff {lines : List (List Token)} {os : List Outside}
    (h : run step (start lines) os = some s) :
    s.InBounds ↔ s.launched.length ≤ maxjobs ∧ ∀ p ∈ s.launched, p.length ≤ maxjobProcess := by
  have hcount : s.Counted :=
    invariant' (fun _ _ _ => counted_step) (counted_start lines) h
  rw [InBounds, hcount.calls]
  simp only [List.forall_mem_map, Registration.InBounds]
  constructor
  · intro hall
    refine ⟨?_, fun p hp => ?_⟩
    · by_contra hlong
      have hmem : (s.launched[maxjobs], maxjobs) ∈ s.launched.zipIdx :=
        List.mem_zipIdx_iff_getElem?.mpr (List.getElem?_eq_getElem (by omega))
      exact absurd (hall _ hmem).1 (Nat.lt_irrefl _)
    · obtain ⟨i, hi⟩ := List.mem_iff_getElem?.mp hp
      exact (hall (p, i) (List.mem_zipIdx_iff_getElem?.mpr hi)).2
  · rintro ⟨hlen, hstages⟩ ⟨p, i⟩ hmem
    have hi := List.mem_zipIdx_iff_getElem?.mp hmem
    have hlt := (List.getElem?_eq_some_iff.mp hi).1
    exact ⟨by omega, hstages p (List.mem_of_getElem? hi)⟩

/-- `a & a`. -/
theorem inBounds_iff_two :
    ∃ s, run step (start [[⟨.word, ['a']⟩, ⟨.amp, []⟩, ⟨.word, ['a']⟩]])
        (List.replicate 4 .obliging) = some s ∧ s.launched.length = 2 ∧
      (s.InBounds ↔
        s.launched.length ≤ maxjobs ∧ ∀ p ∈ s.launched, p.length ≤ maxjobProcess) := by
  have hrun : (run step (start [[⟨.word, ['a']⟩, ⟨.amp, []⟩, ⟨.word, ['a']⟩]])
      (List.replicate 4 .obliging)).map (·.launched.length) = some 2 := by decide +kernel
  obtain ⟨s, hs, hlen⟩ := Option.map_eq_some_iff.mp hrun
  exact ⟨s, hs, hlen, inBounds_iff hs⟩

/-- The line `a | a | … | a` of `n + 1` stages. -/
def stages (n : ℕ) : List Token :=
  ⟨.word, ['a']⟩ :: (List.replicate n [⟨.pipe, []⟩, ⟨.word, ['a']⟩]).flatten

/-- **A pipeline of 17 stages** is accepted, and its registration writes past the slot. -/
theorem not_inBounds : parsing (stages 16) = .ok () ∧
    ∃ s, run step (start [stages 16]) (List.replicate 2 .obliging) = some s ∧
      s.halt = some (.overrun .jobPids) ∧ ¬ s.InBounds := by
  have hrun : (run step (start [stages 16]) (List.replicate 2 .obliging)).map
      (fun s => (s.calls, s.halt)) = some ([⟨0, 17⟩], some (.overrun .jobPids)) := by
    decide +kernel
  obtain ⟨s, hs, hcalls⟩ := Option.map_eq_some_iff.mp hrun
  obtain ⟨hcalls, hhalt⟩ := Prod.mk.inj hcalls
  refine ⟨rfl, s, hs, hhalt, fun h => ?_⟩
  have hcall : (⟨0, 17⟩ : Registration).InBounds := h _ (by rw [hcalls]; exact .head _)
  exact absurd hcall.2 (by decide)

end Session

end MiniProject.Shell
