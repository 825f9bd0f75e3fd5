import MiniProject.Kernel.Loop
import MiniProject.Machinery.Mutex

/-!
# Kernel/Locks — who runs where, on any number of CPUs

A CPU takes `p->lock` on one side of `swtch`, and lets go of it on the other: the scheduler holds
the lock of the process it has chosen until that process runs, and the process that gives up the CPU
holds its own until the scheduler is back.  In between, the process is RUNNABLE, SLEEPING or ZOMBIE
while a CPU still runs on its stack; the lock keeps everybody else away (`exclusive_run`).

A step is a section under the lock of one process, which is free before; the lock is held between
steps only across `swtch`.  What a process calls comes in any order, so that the orders in which the
system calls make these calls are among them.
-/

namespace MiniProject.Kernel

/-! ## The machine -/

/-- What a CPU executes: the scheduler's loop, and in that of MLFQ the head of the loop over the
levels, or what is left of a level; the scheduler about to switch into a process; the process, with
its own lock or without; the process about to switch back; or the scheduler, back from `swtch`.
What is left of the RR scheduler's loop comes along. -/
inductive Pos
  | loop (place : Place)
  | level (q : ℕ)
  | scan (q : Fin nmlfq) (rest : List Slot)
  | into (p : Slot) (rest : List Slot)
  | on (p : Slot) (rest : List Slot) (locked : Bool)
  | off (p : Slot) (rest : List Slot)
  | back (p : Slot) (rest : List Slot)
  deriving DecidableEq, Repr

namespace Pos

/-- The process whose turn it is. -/
def proc : Pos → Option Slot
  | .loop _ | .level _ | .scan _ _ => none
  | .into p _ | .on p _ _ | .off p _ | .back p _ => some p

/-- The process whose lock is held. -/
def locked : Pos → Option Slot
  | .loop _ | .level _ | .scan _ _ | .on _ _ false => none
  | .into p _ | .on p _ true | .off p _ | .back p _ => some p

/-- The process that is RUNNING. -/
def runs : Pos → Option Slot
  | .into p _ | .on p _ _ => some p
  | .loop _ | .level _ | .scan _ _ | .off _ _ | .back _ _ => none

/-- The process whose registers the CPU has. -/
def loaded : Pos → Option Slot
  | .on p _ _ | .off p _ => some p
  | .loop _ | .level _ | .scan _ _ | .into _ _ | .back _ _ => none

end Pos

/-- The kernel on `n` CPUs: `last_boost_tick` of each scheduler, `cpus[c].proc`, what each CPU
executes, who holds `p->lock`, and whether `p->context` is saved. -/
structure Cpus (n : ℕ) where
  globals : Globals
  lastBoostTick : Fin n → ℕ
  cur : Fin n → Option Slot
  pos : Fin n → Pos
  holder : Slot → Option (Fin n)
  saved : Slot → Bool

/-- The process whose lock a call takes, last of all. -/
def Call.locks (r : Slot) : Call → Slot
  | .alloc q _ | .ready q | .undo q | .wake _ q | .kill _ q | .setkilled q | .reap q => q
  | .prepare _ => r

/-- A call changes no other process. -/
theorem Globals.table_of_call_of_ne {k k' : Globals} {r q : Slot} {x : Call}
    (h : k.call r x = some k') (hq : q ≠ x.locks r) : k'.table q = k.table q := by
  cases x with
  | alloc q' ok =>
    obtain ⟨-, h⟩ := Option.ite_none_right_eq_some.mp h
    cases h
    exact table_allocproc_of_ne hq
  | ready | undo | kill | reap =>
    obtain ⟨-, h⟩ := Option.ite_none_right_eq_some.mp h
    cases h
    exact table_modify_of_ne hq
  | prepare | wake | setkilled =>
    cases h
    exact table_modify_of_ne hq

namespace Cpus

variable {n : ℕ}

/-- What can happen next. -/
inductive Event (n : ℕ)
  | go (c : Fin n)
  | swtch (c : Fin n)
  | release (c : Fin n)
  | tick (c : Fin n)
  | yield (c : Fin n)
  | sleep (c : Fin n)
  | call (c : Fin n) (x : Call)
  | adopt (c : Fin n) (q : Slot)
  | die (c : Fin n) (status : ℤ)
  | sched (c : Fin n)
  | land (c : Fin n)
  | clock
  | wake (chan : Chan) (q : Slot)
  deriving DecidableEq, Repr

/-- `userinit` is done, and the schedulers about to start. -/
def boot (n : ℕ) : Cpus n :=
  ⟨.boot, fun _ => 0, fun _ => none, fun _ => .loop .top, fun _ => none, fun _ => true⟩

variable (build : Build) (s : Cpus n) (c : Fin n)

/-- CPU `c` gets somewhere. -/
def setPos (pos : Pos) : Cpus n := { s with pos := Function.update s.pos c pos }

/-- `acquire(&p->lock)`. -/
def acquire (p : Slot) : Cpus n := { s with holder := Function.update s.holder p (some c) }

/-- `release(&p->lock)`. -/
def release (p : Slot) : Cpus n := { s with holder := Function.update s.holder p none }

/-- With `p->lock`: RUNNING, and `c->proc = p`. -/
def dispatch (p : Slot) (rest : List Slot) : Cpus n :=
  { (s.acquire c p).setPos c (.into p rest) with
    globals := s.globals.dispatch p, cur := Function.update s.cur c (some p) }

/-- A round of a loop over the table, for which it takes `p->lock`. -/
def round (p : Slot) (next : Cpus n) : Option (Cpus n) :=
  if s.holder p = none then some next else none

/-- `start = mlfq_last[q]`, which every level reads for itself; `wfi` behind the last one. -/
def enterLevel (q : ℕ) : Cpus n :=
  if h : q < nmlfq then
    s.setPos c
      (.scan ⟨q, h⟩ ((List.range nproc).map fun i => after (s.globals.last ⟨q, h⟩) (i + 1)))
  else s.setPos c (.loop .idle)

/-- A round of the loop over a level, or its end. -/
def scanLevel (q : Fin nmlfq) : List Slot → Option (Cpus n)
  | [] => some (s.setPos c (.level (q + 1)))
  | p :: rest =>
    s.round p
      (if s.globals.table.waits q p then
        { s with globals.last := Function.update s.globals.last q p }.dispatch c p []
      else s.setPos c (.scan q rest))

/-- The scheduler's next step, up to `swtch`, but for the levels of MLFQ. -/
def go : Place → Option (Cpus n)
  | .top =>
    match build with
    | .rr => some (s.setPos c (.loop (.rrScan (List.finRange nproc) false)))
    | .fifo => some (s.setPos c (.loop (.fifoScan (List.finRange nproc) none)))
    | .mlfq =>
      if boostDue s.globals.ticks (s.lastBoostTick c) then
        some { s.setPos c (.loop (.boost (List.finRange nproc))) with
          lastBoostTick := Function.update s.lastBoostTick c s.globals.ticks }
      else some (s.setPos c (.level 0))
  | .boost [] => some (s.setPos c (.level 0))
  | .boost (p :: rest) =>
    s.round p { s.setPos c (.loop (.boost rest)) with globals := s.globals.modify p Proc.boost }
  | .fifoScan [] none => some (s.setPos c (.loop .top))
  | .fifoScan [] (some p) =>
    s.round p
      (if (s.globals.table p).state = .runnable then s.dispatch c p []
      else s.setPos c (.loop .top))
  | .fifoScan (p :: rest) chosen =>
    s.round p (s.setPos c (.loop (.fifoScan rest (s.globals.table.chooseFifo chosen p))))
  | .rrScan [] found => some (s.setPos c (.loop (if found then .top else .idle)))
  | .rrScan (p :: rest) found =>
    s.round p
      (if (s.globals.table p).state = .runnable then s.dispatch c p rest
      else s.setPos c (.loop (.rrScan rest found)))
  | .idle => some (s.setPos c (.loop .top))
  | .mlfqScan _ | .running _ _ => none

/-- The process that runs, without its own lock. -/
def running? : Option (Slot × List Slot) :=
  match s.pos c with
  | .on p rest false => some (p, rest)
  | _ => none

/-- With `p->lock`: `p` gets another state, and calls `sched`. -/
def leave (p : Slot) (rest : List Slot) (f : Proc → Proc) : Option (Cpus n) :=
  s.round p { (s.acquire c p).setPos c (.off p rest) with globals := s.globals.modify p f }

/-- A step. -/
def step : Event n → Option (Cpus n)
  | .go c =>
    match s.pos c with
    | .loop place => s.go build c place
    | .level q => some (s.enterLevel c q)
    | .scan q rest => s.scanLevel c q rest
    | _ => none
  | .swtch c =>
    match s.pos c with
    | .into p rest =>
      some { s.setPos c (.on p rest true) with saved := Function.update s.saved p false }
    | _ => none
  | .release c =>
    match s.pos c with
    | .on p rest true => some ((s.release p).setPos c (.on p rest false))
    | _ => none
  | .tick c => (s.running? c).map fun (p, _) =>
    { s with globals := s.globals.modify p fun x => (x.charge build).getD x }
  | .yield c =>
    (s.running? c).bind fun (p, rest) => s.leave c p rest ({ · with state := .runnable })
  | .sleep c => (s.running? c).bind fun (p, rest) =>
    if (s.globals.table p).chan = none then s.round p s
    else s.leave c p rest (·.sleep build)
  | .call c x => (s.running? c).bind fun (p, _) =>
    (s.globals.call p x).bind fun globals =>
      s.round (x.locks p) { s with
        globals
        saved := match x with
          | .alloc q true => Function.update s.saved q true
          | _ => s.saved }
  | .adopt c q => (s.running? c).bind fun (p, _) =>
    if (s.globals.table q).parent = some p then
      some { s with globals := s.globals.modify q ({ · with parent := some s.globals.initproc }) }
    else none
  | .die c status => (s.running? c).bind fun (p, rest) =>
    if p = s.globals.initproc then none else s.leave c p rest (·.exit status s.globals.ticks)
  | .sched c =>
    match s.pos c with
    | .off p rest =>
      some { s.setPos c (.back p rest) with saved := Function.update s.saved p true }
    | _ => none
  | .land c =>
    match s.pos c with
    | .back p rest =>
      some { (s.release p).setPos c (.loop (Loop.back build rest)) with
        cur := Function.update s.cur c none }
    | _ => none
  | .clock => some { s with globals.ticks := uint (s.globals.ticks + 1) }
  | .wake chan q => s.round q { s with globals := s.globals.modify q (·.wake chan) }

/-! ## What holds of every state -/

variable {build : Build} {s s' : Cpus n} {e : Event n} {c d : Fin n} {p q r : Slot}
variable {rest : List Slot} {pos : Pos}

/-- **Who is where**: every process is with one CPU at most, its lock is held from one side of
`swtch` to the other, and a context that is not saved is in the registers of a CPU. -/
structure Placed (s : Cpus n) : Prop where
  cur : ∀ c, s.cur c = (s.pos c).proc
  unique : ∀ c d p, (s.pos c).proc = some p → (s.pos d).proc = some p → c = d
  guarded : ∀ p, Guarded (fun c => (s.pos c).locked = some p) (s.holder p)
  running : ∀ p, (s.globals.table p).state = .running ↔ ∃ c, (s.pos c).runs = some p
  saved : ∀ p, s.saved p = false → ∃ c, (s.pos c).loaded = some p

theorem placed_boot : (boot n).Placed := by
  refine ⟨fun _ => rfl, nofun, fun p c => iff_of_false nofun nofun, fun p => ?_, nofun⟩
  refine iff_of_false (fun h => ?_) (fun ⟨_, hc⟩ => nomatch hc)
  by_cases hp : p = 0
  · subst hp
    cases h
  · rw [show (boot n).globals.table p = .zero from Globals.table_boot_of_ne hp] at h
    cases h

theorem Pos.proc_of_locked (h : pos.locked = some p) : pos.proc = some p := by
  cases pos with
  | on p rest locked =>
    cases locked with
    | false => cases h
    | true => exact h
  | loop | level | scan | into | off | back => exact h

theorem Pos.proc_of_runs (h : pos.runs = some p) : pos.proc = some p := by
  cases pos with
  | into | on => exact h
  | loop | level | scan | off | back => cases h

theorem Pos.proc_of_loaded (h : pos.loaded = some p) : pos.proc = some p := by
  cases pos with
  | on | off => exact h
  | loop | level | scan | into | back => cases h

/-- A process whose lock is free is with a CPU exactly if it is RUNNING there. -/
theorem Pos.runs_of_proc (h : pos.proc = some p) (hfree : pos.locked ≠ some p) :
    pos.runs = some p := by
  cases pos with
  | loop | level | scan => cases h
  | on => exact h
  | into | off | back => exact absurd h hfree

/-- In the scheduler's loop no process is with the CPU. -/
theorem Pos.ne_of_proc_none (h : pos.proc = none) (p : Slot) :
    pos.locked ≠ some p ∧ pos.runs ≠ some p ∧ pos.loaded ≠ some p :=
  have hno {p : Slot} (hp : pos.proc = some p) : False := Option.some_ne_none p (hp.symm.trans h)
  ⟨fun hp => hno (proc_of_locked hp), fun hp => hno (proc_of_runs hp),
    fun hp => hno (proc_of_loaded hp)⟩

theorem Placed.runs_of_proc (h : s.Placed) (hfree : s.holder p = none)
    (hc : (s.pos c).proc = some p) : (s.pos c).runs = some p := by
  refine Pos.runs_of_proc hc fun hlocked => ?_
  have hguarded := h.guarded p
  rw [hfree] at hguarded
  exact hguarded.not_inside hlocked

/-- Nobody is with a process that is not RUNNING, and whose lock is free. -/
theorem Placed.proc_ne (h : s.Placed) (hfree : s.holder p = none)
    (hp : (s.globals.table p).state ≠ .running) (c : Fin n) : (s.pos c).proc ≠ some p :=
  fun hc => hp ((h.running p).mpr ⟨c, h.runs_of_proc hfree hc⟩)

/-- **What a step of one CPU keeps**: it gets to `pos`, and the lock, the state and the context of
every process go with it. -/
theorem Placed.setPos (h : s.Placed) (hpos : s'.pos = Function.update s.pos c pos)
    (hcur : s'.cur = Function.update s.cur c pos.proc)
    (hproc : ∀ p, pos.proc = some p → ∀ d, d ≠ c → (s.pos d).proc ≠ some p)
    (hlocked : ∀ p, pos.locked = some p → s'.holder p = some c)
    (hunlocked : ∀ p, pos.locked ≠ some p → (s.pos c).locked = some p → s'.holder p = none)
    (hholder : ∀ p, pos.locked ≠ some p → (s.pos c).locked ≠ some p → s'.holder p = s.holder p)
    (hrunning : ∀ p, (s'.globals.table p).state = .running ↔
      pos.runs = some p ∨ (s.pos c).runs ≠ some p ∧ (s.globals.table p).state = .running)
    (hsaved : ∀ p, s'.saved p = false →
      pos.loaded = some p ∨ (s.pos c).loaded ≠ some p ∧ s.saved p = false) : s'.Placed := by
  have hself : s'.pos c = pos := by rw [hpos, Function.update_self]
  have hother {d : Fin n} (hd : d ≠ c) : s'.pos d = s.pos d := by
    rw [hpos, Function.update_of_ne hd]
  refine ⟨fun d => ?_, fun d d' p hd hd' => ?_, fun p => ?_, fun p => ?_, fun p hp => ?_⟩
  · by_cases hd : d = c
    · rw [hd, hcur, Function.update_self, hself]
    · rw [hcur, Function.update_of_ne hd, hother hd]
      exact h.cur d
  · by_cases hdc : d = c
    all_goals by_cases hdc' : d' = c
    · rw [hdc, hdc']
    · rw [hdc, hself] at hd
      rw [hother hdc'] at hd'
      exact absurd hd' (hproc p hd d' hdc')
    · rw [hdc', hself] at hd'
      rw [hother hdc] at hd
      exact absurd hd (hproc p hd' d hdc)
    · rw [hother hdc] at hd
      rw [hother hdc'] at hd'
      exact h.unique d d' p hd hd'
  · refine (h.guarded p).move (a := c) (fun d hd => by rw [hother hd]) (fun hnew => ?_)
      (fun hnew => ?_) fun hnew => ?_
    all_goals rw [hself] at hnew
    · refine ⟨hlocked p hnew, fun d hd hin => ?_⟩
      exact hproc p (Pos.proc_of_locked hnew) d hd (Pos.proc_of_locked hin)
    · exact hunlocked p hnew
    · exact hholder p hnew
  · rw [hrunning, h.running]
    constructor
    · rintro (hp | ⟨hne, d, hd⟩)
      · exact ⟨c, by rw [hself]; exact hp⟩
      · have hdc : d ≠ c := by
          rintro rfl
          exact hne hd
        exact ⟨d, by rw [hother hdc]; exact hd⟩
    · rintro ⟨d, hd⟩
      by_cases hdc : d = c
      · rw [hdc, hself] at hd
        exact .inl hd
      · rw [hother hdc] at hd
        refine .inr ⟨fun hc => hdc ?_, d, hd⟩
        exact h.unique d c p (Pos.proc_of_runs hd) (Pos.proc_of_runs hc)
  · rcases hsaved p hp with hp | ⟨hne, hold⟩
    · exact ⟨c, by rw [hself]; exact hp⟩
    · obtain ⟨d, hd⟩ := h.saved p hold
      have hdc : d ≠ c := by
        rintro rfl
        exact hne hd
      exact ⟨d, by rw [hother hdc]; exact hd⟩

/-- What leaves every CPU where it is. -/
theorem Placed.congr (h : s.Placed) (hpos : s'.pos = s.pos) (hcur : s'.cur = s.cur)
    (hholder : s'.holder = s.holder)
    (hrunning : ∀ p, (s'.globals.table p).state = .running ↔ (s.globals.table p).state = .running)
    (hsaved : ∀ p, s'.saved p = false → s.saved p = false) : s'.Placed := by
  refine ⟨?_, ?_, ?_, fun p => ?_, fun p hp => ?_⟩
  · rw [hpos, hcur]
    exact h.cur
  · rw [hpos]
    exact h.unique
  · rw [hpos, hholder]
    exact h.guarded
  · rw [hrunning, hpos]
    exact h.running p
  · rw [hpos]
    exact h.saved p (hsaved p hp)

/-! ## The scheduler -/

/-- A step in the loop. -/
theorem Placed.scan (h : s.Placed) (hc : (s.pos c).proc = none) (hnone : pos.proc = none)
    (hpos : s'.pos = Function.update s.pos c pos) (hcur : s'.cur = s.cur)
    (hholder : s'.holder = s.holder) (hsaved : s'.saved = s.saved)
    (hrunning : ∀ p, (s'.globals.table p).state = .running ↔ (s.globals.table p).state = .running) :
    s'.Placed := by
  have hnot (p : Slot) := Pos.ne_of_proc_none hc p
  have hnot' (p : Slot) := Pos.ne_of_proc_none hnone p
  refine h.setPos hpos ?_ (fun p hp => ?_) (fun p hp => absurd hp (hnot' p).1)
    (fun p _ hp => absurd hp (hnot p).1) (fun p _ _ => by rw [hholder]) (fun p => ?_) fun p hp => ?_
  · rw [hcur, hnone]
    refine (Function.update_eq_self_iff.mpr ?_).symm
    rw [h.cur, hc]
  · cases hnone.symm.trans hp
  · rw [hrunning, or_iff_right (hnot' p).2.1, and_iff_right (hnot p).2.1]
  · rw [hsaved] at hp
    exact .inr ⟨(hnot p).2.2, hp⟩

/-- **A scheduler takes a process that is RUNNABLE**, under its lock. -/
theorem Placed.dispatch (h : s.Placed) (hc : (s.pos c).proc = none)
    (hfree : s.holder p = none) (hp : (s.globals.table p).state = .runnable) :
    (s.dispatch c p rest).Placed := by
  have hnot (d : Fin n) : (s.pos d).proc ≠ some p := h.proc_ne hfree (by rw [hp]; nofun) d
  have hnone (q : Slot) := Pos.ne_of_proc_none hc q
  refine h.setPos rfl rfl (fun q hq d _ => ?_) (fun q hq => ?_)
    (fun q _ hq => absurd hq (hnone q).1) (fun q hq _ => ?_) (fun q => ?_) fun q hq => ?_
  · cases hq
    exact hnot d
  · cases hq
    exact Function.update_self _ _ _
  · exact Function.update_of_ne (fun heq => hq (congrArg some heq.symm)) _ _
  · rw [and_iff_right (hnone q).2.1]
    dsimp only [Cpus.dispatch, Pos.runs]
    by_cases hq : q = p
    · rw [hq, Globals.table_dispatch_self]
      exact iff_of_true rfl (.inl rfl)
    · rw [Globals.table_dispatch_of_ne hq]
      simp [Ne.symm hq]
  · exact .inr ⟨(hnone q).2.2, hq⟩

/-- A round of a loop. -/
theorem Placed.round {next : Cpus n} (hnext : s.holder p = none → next.Placed)
    (hstep : s.round p next = some s') : s'.Placed := by
  obtain ⟨hfree, hstep⟩ := Option.ite_none_right_eq_some.mp hstep
  cases hstep
  exact hnext hfree

/-- The CPU gets somewhere else in the loop. -/
theorem Placed.move (h : s.Placed) (hc : (s.pos c).proc = none) (hnone : pos.proc = none) :
    (s.setPos c pos).Placed :=
  h.scan hc hnone rfl rfl rfl rfl fun _ => Iff.rfl

theorem Placed.enterLevel {level : ℕ} (h : s.Placed) (hc : (s.pos c).proc = none) :
    (s.enterLevel c level).Placed := by
  rw [Cpus.enterLevel]
  split
  · exact h.move hc rfl
  · exact h.move hc rfl

theorem Placed.scanLevel {level : Fin nmlfq} (h : s.Placed) (hc : (s.pos c).proc = none)
    (hstep : s.scanLevel c level rest = some s') : s'.Placed := by
  cases rest with
  | nil =>
    cases hstep
    exact h.move hc rfl
  | cons p rest =>
    refine Placed.round (fun hfree => ?_) hstep
    split
    · rename_i hwaits
      simp only [Table.waits, decide_eq_true_eq] at hwaits
      have hlast : Placed { s with globals.last := Function.update s.globals.last level p } :=
        h.congr rfl rfl rfl (fun _ => Iff.rfl) fun _ => id
      exact hlast.dispatch hc hfree hwaits.1
    · exact h.move hc rfl

theorem Placed.go {place : Place} (h : s.Placed) (hc : (s.pos c).proc = none)
    (hstep : s.go build c place = some s') : s'.Placed := by
  have hmove {pos : Pos} (hnone : pos.proc = none) : (s.setPos c pos).Placed := h.move hc hnone
  rw [Cpus.go.eq_def] at hstep
  split at hstep
  case h_1 => -- `.top`
    cases build with
    | rr | fifo =>
      cases hstep
      exact hmove rfl
    | mlfq =>
      dsimp only at hstep
      split at hstep <;> cases hstep
      · exact h.scan hc rfl rfl rfl rfl rfl fun _ => Iff.rfl
      · exact hmove rfl
  case h_3 p rest => -- `.boost`
    refine Placed.round (fun _ => ?_) hstep
    refine h.scan hc rfl rfl rfl rfl rfl fun q => ?_
    refine Table.modify_rel (R := fun _ x y => y.state = .running ↔ x.state = .running)
      (fun _ _ => Iff.rfl) ?_ q
    rw [Proc.boost]
    split <;> rfl
  case h_5 p => -- the end of `.fifoScan`
    refine Placed.round (fun hfree => ?_) hstep
    split
    · exact h.dispatch hc hfree ‹_›
    · exact hmove rfl
  case h_6 => -- `.fifoScan`
    exact Placed.round (fun _ => hmove rfl) hstep
  case h_8 p rest found => -- `.rrScan`
    refine Placed.round (fun hfree => ?_) hstep
    split
    · exact h.dispatch hc hfree ‹_›
    · exact hmove rfl
  case h_10 | h_11 => cases hstep
  all_goals
    cases hstep
    exact hmove rfl

/-! ## The process -/

theorem Pos.ne_of_proc (h : pos.proc = some p) (hq : q ≠ p) :
    pos.locked ≠ some q ∧ pos.runs ≠ some q ∧ pos.loaded ≠ some q := by
  have hne : ¬ pos.proc = some q := fun hq' => hq (Option.some.inj (hq'.symm.trans h))
  exact ⟨fun h => hne (proc_of_locked h), fun h => hne (proc_of_runs h),
    fun h => hne (proc_of_loaded h)⟩

/-- **A CPU stays with its process.** -/
theorem Placed.stay (h : s.Placed) (hc : (s.pos c).proc = some p) (hproc : pos.proc = some p)
    (hpos : s'.pos = Function.update s.pos c pos) (hcur : s'.cur = s.cur)
    (hholder : ∀ q, q ≠ p → s'.holder q = s.holder q)
    (hlocked : pos.locked = some p → s'.holder p = some c)
    (hunlocked : pos.locked ≠ some p → s'.holder p = none)
    (hfree : (s.pos c).locked ≠ some p → s.holder p = none)
    (htable : ∀ q, q ≠ p → s'.globals.table q = s.globals.table q)
    (hrunning : (s'.globals.table p).state = .running ↔ pos.runs = some p)
    (hsaved : ∀ q, q ≠ p → s'.saved q = s.saved q)
    (hloaded : s'.saved p = false → pos.loaded = some p) : s'.Placed := by
  have hnew {q : Slot} (hq : q ≠ p) := Pos.ne_of_proc hproc hq
  have hold {q : Slot} (hq : q ≠ p) := Pos.ne_of_proc hc hq
  have heq {q : Slot} (hq : pos.locked = some q ∨ (s.pos c).locked = some q) : q = p := by
    by_contra hne
    exact hq.elim (hnew hne).1 (hold hne).1
  refine h.setPos hpos ?_ (fun q hq d hd hd' => ?_) (fun q hq => ?_) (fun q hne hq => ?_)
    (fun q hne hne' => ?_) (fun q => ?_) fun q hq => ?_
  · refine hcur.trans (Function.update_eq_self_iff.mpr ?_).symm
    rw [h.cur, hc, hproc]
  · cases hproc.symm.trans hq
    exact hd (h.unique d c p hd' hc)
  · obtain rfl := heq (.inl hq)
    exact hlocked hq
  · obtain rfl := heq (.inr hq)
    exact hunlocked hne
  · by_cases hq : q = p
    · subst hq
      rw [hunlocked hne, hfree hne']
    · exact hholder q hq
  · by_cases hq : q = p
    · subst hq
      rw [hrunning]
      refine ⟨.inl, fun hr => hr.resolve_right fun ⟨hne, hstate⟩ => ?_⟩
      obtain ⟨d, hd⟩ := (h.running q).mp hstate
      rw [h.unique d c q (Pos.proc_of_runs hd) hc] at hd
      exact hne hd
    · rw [htable q hq]
      simp [hnew hq, hold hq]
  · by_cases hqp : q = p
    · subst hqp
      exact .inl (hloaded hq)
    · rw [hsaved q hqp] at hq
      exact .inr ⟨(hold hqp).2.2, hq⟩

theorem Placed.holder_eq (h : s.Placed) (hc : (s.pos c).locked = some p) :
    s.holder p = some c := (h.guarded p c).mp hc

/-- `swtch` into the process, whose lock is held. -/
theorem Placed.swtch (h : s.Placed) (hc : s.pos c = .into p rest) :
    Placed { s.setPos c (.on p rest true) with saved := Function.update s.saved p false } := by
  have hrunning : (s.globals.table p).state = .running :=
    (h.running p).mpr ⟨c, by rw [hc]; rfl⟩
  refine h.stay (by rw [hc]; rfl) rfl rfl rfl (fun _ _ => rfl) (fun _ => ?_)
    (fun hne => absurd rfl hne) (fun hne => ?_) (fun _ _ => rfl) (iff_of_true hrunning rfl)
    (fun q hq => Function.update_of_ne hq _ _) fun _ => rfl
  · exact h.holder_eq (by rw [hc]; rfl)
  · exact absurd (by rw [hc]; rfl) hne

/-- The process lets go of its lock. -/
theorem Placed.release (h : s.Placed) (hc : s.pos c = .on p rest true) :
    ((s.release p).setPos c (.on p rest false)).Placed := by
  have hrunning : (s.globals.table p).state = .running :=
    (h.running p).mpr ⟨c, by rw [hc]; rfl⟩
  refine h.stay (by rw [hc]; rfl) rfl rfl rfl (fun q hq => Function.update_of_ne hq _ _) nofun
    (fun _ => Function.update_self _ _ _) (fun hne => ?_) (fun _ _ => rfl)
    (iff_of_true hrunning rfl) (fun _ _ => rfl) fun _ => rfl
  exact absurd (by rw [hc]; rfl) hne

theorem running?_eq_some : s.running? c = some (p, rest) ↔ s.pos c = .on p rest false := by
  rw [running?]
  split
  · rename_i hc
    rw [hc]
    simp
  · rename_i hne
    refine iff_of_false nofun fun hc => hne p rest hc

/-- **The process gives up the CPU**, under its lock. -/
theorem Placed.leave {f : Proc → Proc} (h : s.Placed) (hc : s.pos c = .on p rest false)
    (hf : (f (s.globals.table p)).state ≠ .running) (hstep : s.leave c p rest f = some s') :
    s'.Placed := by
  refine Placed.round (fun hfree => ?_) hstep
  refine h.stay (by rw [hc]; rfl) rfl rfl rfl
    (fun q hq => Function.update_of_ne hq _ _) (fun _ => Function.update_self _ _ _)
    (fun hne => absurd rfl hne) (fun _ => hfree) (fun q hq => Globals.table_modify_of_ne hq) ?_
    (fun _ _ => rfl) fun _ => rfl
  dsimp only
  rw [Globals.table_modify_self]
  exact iff_of_false hf nofun

theorem Placed.not_running (h : s.Placed) (hc : (s.pos c).proc = some p)
    (hne : (s.pos c).runs ≠ some p) : (s.globals.table p).state ≠ .running := by
  intro hstate
  obtain ⟨d, hd⟩ := (h.running p).mp hstate
  rw [h.unique d c p (Pos.proc_of_runs hd) hc] at hd
  exact hne hd

/-- `swtch` back, which saves the context. -/
theorem Placed.sched (h : s.Placed) (hc : s.pos c = .off p rest) :
    Placed { s.setPos c (.back p rest) with saved := Function.update s.saved p true } := by
  have hrunning : (s.globals.table p).state ≠ .running :=
    h.not_running (c := c) (by rw [hc]; rfl) (by rw [hc]; nofun)
  refine h.stay (by rw [hc]; rfl) rfl rfl rfl (fun _ _ => rfl) (fun _ => ?_)
    (fun hne => absurd rfl hne) (fun hne => ?_) (fun _ _ => rfl) (iff_of_false hrunning nofun)
    (fun q hq => Function.update_of_ne hq _ _) fun hsaved => ?_
  · exact h.holder_eq (by rw [hc]; rfl)
  · exact absurd (by rw [hc]; rfl) hne
  · dsimp only at hsaved
    rw [Function.update_self] at hsaved
    cases hsaved

/-- The scheduler lets go of the process. -/
theorem Placed.land (h : s.Placed) (hc : s.pos c = .back p rest) {place : Place} :
    Placed { (s.release p).setPos c (.loop place) with
      cur := Function.update s.cur c none } := by
  refine h.setPos rfl rfl nofun nofun (fun q _ hq => ?_) (fun q _ hq => ?_) (fun q => ?_)
    fun q hq => .inr ⟨by rw [hc]; nofun, hq⟩
  · rw [hc] at hq
    cases hq
    exact Function.update_self _ _ _
  · refine Function.update_of_ne (fun hqp => hq ?_) _ _
    rw [hc, hqp]
    rfl
  · rw [hc]
    simp [Pos.runs, Cpus.setPos, Cpus.release]

/-- A call makes no process RUNNING, and takes the CPU from none. -/
theorem running_of_touched {k : Globals} {x : Option Call} {y z : Proc} (h : k.Touched x q y z) :
    z.state = .running ↔ y.state = .running := by
  constructor
  · intro hz
    cases h with
    | nudged hyz =>
      rcases hyz.state with hstate | ⟨-, hstate⟩
      · rw [← hstate]
        exact hz
      · cases hstate.symm.trans hz
    | alloc | allocFailed | ready | freed => cases hz
  · intro hy
    rw [(h.nudged_of (.inl hy)).state_eq (by rw [hy]; nofun), hy]

/-- What leaves every CPU where it is. -/
theorem Placed.touched {k : Globals} {x : Option Call} (h : s.Placed) (hpos : s'.pos = s.pos)
    (hcur : s'.cur = s.cur) (hholder : s'.holder = s.holder)
    (hsaved : ∀ p, s'.saved p = false → s.saved p = false)
    (ht : ∀ q, k.Touched x q (s.globals.table q) (s'.globals.table q)) : s'.Placed :=
  h.congr hpos hcur hholder (fun q => running_of_touched (ht q)) hsaved

/-- `allocproc` makes a context. -/
theorem saved_of_call {x : Call} {saved : Slot → Bool}
    (h : (match x with
      | .alloc q true => Function.update saved q true
      | _ => saved) p = false) : saved p = false := by
  split at h
  · rename_i q
    by_cases hpq : p = q
    · rw [hpq, Function.update_self] at h
      cases h
    · rw [Function.update_of_ne hpq] at h
      exact h
  · exact h

theorem Placed.step (h : s.Placed) (hstep : step build s e = some s') : s'.Placed := by
  cases e with
  | go c =>
    dsimp only [Cpus.step] at hstep
    split at hstep
    · exact h.go (by rw [‹s.pos c = _›]; rfl) hstep
    · cases hstep
      exact h.enterLevel (by rw [‹s.pos c = _›]; rfl)
    · exact h.scanLevel (by rw [‹s.pos c = _›]; rfl) hstep
    · cases hstep
  | swtch c =>
    dsimp only [Cpus.step] at hstep
    split at hstep <;> cases hstep
    exact h.swtch ‹_›
  | release c =>
    dsimp only [Cpus.step] at hstep
    split at hstep <;> cases hstep
    exact h.release ‹_›
  | tick c =>
    obtain ⟨⟨p, rest⟩, -, rfl⟩ := Option.map_eq_some_iff.mp hstep
    refine h.congr rfl rfl rfl (fun q => ?_) fun _ => id
    refine Table.modify_rel (R := fun _ x y => y.state = .running ↔ x.state = .running)
      (fun _ _ => Iff.rfl) ?_ q
    rcases hx : (s.globals.table p).charge build with _ | x
    · rfl
    · rw [Option.getD_some, Proc.charge_spec hx]
  | yield c =>
    obtain ⟨⟨p, rest⟩, hp, hstep⟩ := Option.bind_eq_some_iff.mp hstep
    exact h.leave (running?_eq_some.mp hp) (show ProcState.runnable ≠ .running by decide) hstep
  | sleep c =>
    obtain ⟨⟨p, rest⟩, hp, hstep⟩ := Option.bind_eq_some_iff.mp hstep
    dsimp only at hstep
    split at hstep
    · exact Placed.round (fun _ => h) hstep
    · exact h.leave (running?_eq_some.mp hp) (show ProcState.sleeping ≠ .running by decide) hstep
  | call c x =>
    obtain ⟨⟨p, rest⟩, -, hstep⟩ := Option.bind_eq_some_iff.mp hstep
    obtain ⟨k, hk, hstep⟩ := Option.bind_eq_some_iff.mp hstep
    refine Placed.round (fun _ => ?_) hstep
    exact h.touched rfl rfl rfl (fun _ => saved_of_call) (Globals.called_of_call hk).touched
  | adopt c q =>
    obtain ⟨⟨p, rest⟩, -, hstep⟩ := Option.bind_eq_some_iff.mp hstep
    obtain ⟨-, hstep⟩ := Option.ite_none_right_eq_some.mp hstep
    cases hstep
    exact h.touched (x := none) rfl rfl rfl (fun _ => id)
      (Globals.touched_modify (.nudged (nudged_parent _ _)))
  | die c status =>
    obtain ⟨⟨p, rest⟩, hp, hstep⟩ := Option.bind_eq_some_iff.mp hstep
    obtain ⟨-, hstep⟩ := Option.ite_none_left_eq_some.mp hstep
    exact h.leave (running?_eq_some.mp hp) (show ProcState.zombie ≠ .running by decide) hstep
  | sched c =>
    dsimp only [Cpus.step] at hstep
    split at hstep <;> cases hstep
    exact h.sched ‹_›
  | land c =>
    dsimp only [Cpus.step] at hstep
    split at hstep <;> cases hstep
    exact h.land ‹_›
  | clock =>
    cases hstep
    exact h.congr rfl rfl rfl (fun _ => Iff.rfl) fun _ => id
  | wake chan q =>
    refine Placed.round (fun _ => ?_) hstep
    exact h.touched (x := none) rfl rfl rfl (fun _ => id)
      (Globals.touched_modify (.nudged (nudged_wake _ _)))

/-! ## Exclusion -/

/-- A process whose lock is free runs exactly if it is current on one CPU. -/
theorem Placed.running_iff (h : s.Placed) (hfree : s.holder p = none) :
    (s.globals.table p).state = .running ↔ ∃! c, s.cur c = some p := by
  simp only [h.cur]
  rw [h.running]
  constructor
  · rintro ⟨c, hc⟩
    exact ⟨c, Pos.proc_of_runs hc, fun d hd => h.unique d c p hd (Pos.proc_of_runs hc)⟩
  · rintro ⟨c, hc, -⟩
    exact ⟨c, h.runs_of_proc hfree hc⟩

/-- The context a CPU switches into is saved: otherwise another CPU has the registers. -/
theorem Placed.saved_of_swtch (h : s.Placed) (hc : s.cur c = some p)
    (hstep : Cpus.step build s (.swtch c) = some s') : s.saved p = true := by
  dsimp only [Cpus.step] at hstep
  split at hstep
  · rename_i q rest hpos
    rw [h.cur, hpos] at hc
    cases hc
    refine Bool.eq_true_of_not_eq_false fun hsaved => ?_
    obtain ⟨d, hd⟩ := h.saved p hsaved
    have hdc := h.unique d c p (Pos.proc_of_loaded hd) (by rw [hpos]; rfl)
    rw [hdc, hpos] at hd
    cases hd
  · cases hstep

/-- No slot becomes free. -/
def Stays (s s' : Cpus n) : Prop :=
  ∀ q, (s.globals.table q).state ≠ .unused → (s'.globals.table q).state ≠ .unused

theorem stays_modify {f : Proc → Proc} (htable : s'.globals.table = s.globals.table.modify p f)
    (hf : (s.globals.table p).state ≠ .unused → (f (s.globals.table p)).state ≠ .unused) :
    Stays s s' := by
  rw [Stays, htable]
  exact Table.modify_rel (R := fun _ x y => x.state ≠ .unused → y.state ≠ .unused)
    (fun _ _ => id) hf

theorem stays_nudge {f : Proc → Proc} (htable : s'.globals.table = s.globals.table.modify p f)
    (hf : ∀ x, Nudged x (f x)) : Stays s s' := by
  refine stays_modify htable fun hp => ?_
  rcases (hf (s.globals.table p)).state with h | ⟨-, h⟩ <;> rw [h]
  · exact hp
  · nofun

theorem stays_round {next : Cpus n} (hnext : Stays s next) (hstep : s.round p next = some s') :
    Stays s s' := by
  obtain ⟨-, hstep⟩ := Option.ite_none_right_eq_some.mp hstep
  cases hstep
  exact hnext

theorem stays_leave {f : Proc → Proc} (hf : (f (s.globals.table p)).state ≠ .unused)
    (hstep : s.leave c p rest f = some s') : Stays s s' :=
  stays_round (stays_modify rfl fun _ => hf) hstep

theorem stays_dispatch {k : Globals} (hk : k.table = s.globals.table) :
    Stays s ({ s with globals := k }.dispatch c p rest) := by
  refine stays_modify (p := p) (f := (·.dispatch k.ticks)) ?_ fun _ => ?_
  · rw [← hk]
    rfl
  · exact show ProcState.running ≠ .unused by decide

theorem stays_enterLevel {level : ℕ} : Stays s (s.enterLevel c level) := by
  rw [enterLevel]
  split <;> exact fun _ => id

theorem stays_scanLevel {level : Fin nmlfq} (hstep : s.scanLevel c level rest = some s') :
    Stays s s' := by
  cases rest with
  | nil =>
    cases hstep
    exact fun _ => id
  | cons p rest =>
    refine stays_round ?_ hstep
    split
    · exact stays_dispatch rfl
    · exact fun _ => id

theorem stays_go {place : Place} (hstep : s.go build c place = some s') : Stays s s' := by
  have hmove {pos : Pos} : Stays s (s.setPos c pos) := fun _ => id
  rw [Cpus.go.eq_def] at hstep
  split at hstep
  case h_1 => -- `.top`
    cases build with
    | rr | fifo =>
      cases hstep
      exact hmove
    | mlfq =>
      dsimp only at hstep
      split at hstep <;> cases hstep
      · exact fun _ => id
      · exact hmove
  case h_3 p rest => -- `.boost`
    refine stays_round (stays_modify rfl fun hp => ?_) hstep
    rw [Proc.boost]
    split <;> exact hp
  case h_5 p => -- the end of `.fifoScan`
    refine stays_round ?_ hstep
    split
    · exact stays_dispatch rfl
    · exact hmove
  case h_6 => -- `.fifoScan`
    exact stays_round hmove hstep
  case h_8 p rest found => -- `.rrScan`
    refine stays_round ?_ hstep
    split
    · exact stays_dispatch rfl
    · exact hmove
  case h_10 | h_11 => cases hstep
  all_goals
    cases hstep
    exact hmove

/-- Only a call frees a slot. -/
theorem stays_step (hcall : ∀ c x, e ≠ .call c x) (hstep : step build s e = some s') :
    Stays s s' := by
  cases e with
  | go c =>
    dsimp only [Cpus.step] at hstep
    split at hstep
    · exact stays_go hstep
    · cases hstep
      exact stays_enterLevel
    · exact stays_scanLevel hstep
    · cases hstep
  | swtch | release | sched | land =>
    dsimp only [Cpus.step] at hstep
    split at hstep <;> cases hstep
    exact fun _ => id
  | tick c =>
    obtain ⟨⟨p, rest⟩, -, rfl⟩ := Option.map_eq_some_iff.mp hstep
    refine stays_modify rfl fun hp => ?_
    rcases hx : (s.globals.table p).charge build with _ | x
    · exact hp
    · rw [Option.getD_some, Proc.charge_spec hx]
      exact hp
  | yield c =>
    obtain ⟨⟨p, rest⟩, -, hstep⟩ := Option.bind_eq_some_iff.mp hstep
    exact stays_leave (show ProcState.runnable ≠ .unused by decide) hstep
  | sleep c =>
    obtain ⟨⟨p, rest⟩, -, hstep⟩ := Option.bind_eq_some_iff.mp hstep
    dsimp only at hstep
    split at hstep
    · exact stays_round (fun _ => id) hstep
    · exact stays_leave (show ProcState.sleeping ≠ .unused by decide) hstep
  | call c x => exact absurd rfl (hcall c x)
  | adopt c q =>
    obtain ⟨⟨p, rest⟩, -, hstep⟩ := Option.bind_eq_some_iff.mp hstep
    obtain ⟨-, hstep⟩ := Option.ite_none_right_eq_some.mp hstep
    cases hstep
    exact stays_nudge rfl fun x => nudged_parent x _
  | die c status =>
    obtain ⟨⟨p, rest⟩, -, hstep⟩ := Option.bind_eq_some_iff.mp hstep
    obtain ⟨-, hstep⟩ := Option.ite_none_left_eq_some.mp hstep
    exact stays_leave (show ProcState.zombie ≠ .unused by decide) hstep
  | clock =>
    cases hstep
    exact fun _ => id
  | wake chan q => exact stays_round (stays_nudge rfl fun x => nudged_wake x chan) hstep

/-- **A call that frees a slot** has its lock, and finds no process RUNNING there. -/
theorem freed_of_step (hstep : step build s e = some s')
    (hq : (s.globals.table q).state ≠ .unused) (hq' : (s'.globals.table q).state = .unused) :
    s.holder q = none ∧ (s.globals.table q).state ≠ .running := by
  by_cases hcall : ∃ c x, e = .call c x
  · obtain ⟨c, x, rfl⟩ := hcall
    obtain ⟨⟨p, rest⟩, -, hstep⟩ := Option.bind_eq_some_iff.mp hstep
    obtain ⟨k, hk, hstep⟩ := Option.bind_eq_some_iff.mp hstep
    obtain ⟨hfree, hstep⟩ := Option.ite_none_right_eq_some.mp hstep
    cases hstep
    have hx : x.locks p = q := by
      by_contra hne
      refine hq ?_
      rw [← Globals.table_of_call_of_ne hk fun heq => hne heq.symm]
      exact hq'
    refine ⟨hx ▸ hfree, fun hrun => ?_⟩
    have htouched := (Globals.called_of_call hk).touched q
    rw [(running_of_touched htouched).mpr hrun] at hq'
    cases hq'
  · exact absurd hq' (stays_step (fun c x he => hcall ⟨c, x, he⟩) hstep q hq)

/-- **Who runs where**, in every reachable state. -/
theorem exclusive_run {es : List (Event n)} (h : run (step build) (boot n) es = some s) :
    (∀ c d p, s.cur c = some p → s.cur d = some p → c = d) ∧
    (∀ p, s.holder p = none →
      ((s.globals.table p).state = .running ↔ ∃! c, s.cur c = some p)) ∧
    (∀ c p s', s.cur c = some p → step build s (.swtch c) = some s' → s.saved p = true) ∧
    (∀ e s' q, step build s e = some s' → (s.globals.table q).state ≠ .unused →
      (s'.globals.table q).state = .unused → ∀ c, s.cur c ≠ some q) := by
  have hplaced : s.Placed := invariant' (fun _ _ _ hs hstep => hs.step hstep) placed_boot h
  refine ⟨fun c d p hc hd => ?_, fun p => hplaced.running_iff, fun c p s' => ?_,
    fun e s' q hstep hq hq' c hc => ?_⟩
  · rw [hplaced.cur] at hc hd
    exact hplaced.unique c d p hc hd
  · exact hplaced.saved_of_swtch
  · obtain ⟨hfree, hnot⟩ := freed_of_step hstep hq hq'
    rw [hplaced.cur] at hc
    exact hplaced.proc_ne hfree hnot c hc

/-- Under RR, `init` on CPU 0 forks, and CPU 1 takes its child; `init` sleeps, and the child wakes
it and exits. -/
def pair : List (Event 2) :=
  [.go 0, .go 0, .swtch 0, .release 0, .call 0 (.alloc 1 true), .call 0 (.ready 1), .go 1, .go 1,
    .go 1, .swtch 1, .release 1, .call 0 (.prepare (.proc 0)), .sleep 0, .sched 0, .land 0,
    .call 1 (.wake (.proc 0) 0), .die 1 3, .sched 1]

theorem exclusive_run_pair : ∃ s : Cpus 2, run (step .rr) (boot 2) pair = some s ∧
    (s.holder 1 = none →
      ((s.globals.table 1).state = .running ↔ ∃! c, s.cur c = some 1)) ∧
    ∀ c d, s.cur c = some 1 → s.cur d = some 1 → c = d := by
  have hs := Option.eq_some_of_isSome
    (show (run (step .rr) (boot 2) pair).isSome by decide +kernel)
  have hrun := exclusive_run hs
  exact ⟨_, hs, hrun.2.1 1, fun c d => hrun.1 c d 1⟩

end Cpus

end MiniProject.Kernel
