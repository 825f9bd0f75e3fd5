import MiniProject.Kernel.Globals
import MiniProject.Machinery.Mutex
import MiniProject.Machinery.Runs

/-!
# Kernel/Tasks — processes in the midst of `kfork`, `kexit`, `kwait` and `kkill`

Each process has a program counter of its own in these four functions, and a step is one section
under `wait_lock` or `p->lock`, or one round of a loop over the table; whoever is RUNNING may take
the next one, so that every interleaving on any number of CPUs is a run.  `Tasks.Control` is what
holds of the program counters.
-/

namespace MiniProject.Kernel

/-! ## Program counters -/

/-- Where a process is.  Of `kfork`: in front of `acquire(&wait_lock)`, and behind
`np->parent = p`.  Of `kexit`: in the loop of `reparent` or of one of the two wakeups, in front of
`acquire(&p->lock)`, or at its end.  Of `kwait`: in the loop over the children, in front of
`sleep_prepare`, of `release(&wait_lock)`, of `sleep`, and of the next `acquire(&wait_lock)`.  Of
`kkill`: in its loop.  A process is `away` from another `sleep_prepare` to the `sleep`. -/
inductive Pc
  | user
  | away
  | forked (np : Slot)
  | adopting (np : Slot)
  | reparent (status : ℤ) (rest : List Slot)
  | wakeInit (status : ℤ) (rest wakes : List Slot)
  | wakeParent (status : ℤ) (parent : Slot) (wakes : List Slot)
  | dying (status : ℤ)
  | dead
  | scan (addr : ℕ) (rest : List Slot) (havekids : Bool)
  | prepare (addr : ℕ)
  | unlock (addr : ℕ)
  | sleep (addr : ℕ)
  | slept (addr : ℕ)
  | killing (pid : ℤ) (rest : List Slot)
  deriving DecidableEq, Repr

namespace Pc

/-- Whether `wait_lock` is held. -/
def holds : Pc → Bool
  | .adopting _ | .reparent _ _ | .wakeInit _ _ _ | .wakeParent _ _ _ | .dying _ | .scan _ _ _
  | .prepare _ | .unlock _ => true
  | .user | .away | .forked _ | .dead | .sleep _ | .slept _ | .killing _ _ => false

/-- Whether the process is in one of the functions. -/
def busy : Pc → Bool
  | .user | .away | .dead => false
  | _ => true

/-- The process that `kfork` is about to start. -/
def child : Pc → Option Slot
  | .forked np | .adopting np => some np
  | _ => none

/-- What is left of the table for `reparent`, in `kexit`. -/
def orphaning : Pc → Option (List Slot)
  | .reparent _ rest | .wakeInit _ rest _ => some rest
  | .wakeParent _ _ _ | .dying _ => some []
  | _ => none

/-- From `sleep_prepare` in `kwait` to the next look at the children. -/
def waits : Pc → Bool
  | .unlock _ | .sleep _ | .slept _ => true
  | _ => false

variable {pc : Pc}

theorem busy_of_holds (h : pc.holds) : pc.busy := by
  cases pc <;> first | rfl | cases h

theorem holds_of_not_busy (h : pc.busy = false) : pc.holds = false := by
  cases pc <;> first | rfl | cases h

theorem orphaning_of_not_holds (h : pc.holds = false) : pc.orphaning = none := by
  cases pc <;> first | rfl | cases h

theorem holds_of_orphaning (h : pc.orphaning ≠ none) : pc.holds := by
  by_contra hout
  exact h (orphaning_of_not_holds (Bool.eq_false_iff.mpr hout))

theorem ne_adopting_of_not_holds {np : Slot} (h : pc.holds = false) : pc ≠ .adopting np := by
  rintro rfl
  cases h

end Pc

/-! ## The age of a process -/

/-- How far a process has come; it sleeps and runs while it is alive. -/
inductive Age
  | free
  | embryo
  | alive
  | zombie
  deriving DecidableEq, Repr

/-- The age that a state is of. -/
def ProcState.age : ProcState → Age
  | .unused => .free
  | .used => .embryo
  | .sleeping | .runnable | .running => .alive
  | .zombie => .zombie

/-- The age of a process. -/
def Proc.age (x : Proc) : Age := x.state.age

/-- What leaves a process its age and its parent, and gives it no channel. -/
structure Calm (x y : Proc) : Prop where
  age : y.age = x.age
  parent : y.parent = x.parent
  pid : y.pid = x.pid
  xstate : y.xstate = x.xstate
  chan : y.chan = x.chan ∨ y.chan = none

section Calm

variable {x y : Proc}

theorem Calm.refl (x : Proc) : Calm x x := ⟨rfl, rfl, rfl, rfl, .inl rfl⟩

/-- Who wakes up is as old as before. -/
theorem age_wake (state : ProcState) :
    (if state = .sleeping then ProcState.runnable else state).age = state.age := by
  split
  · rename_i h
    rw [h]
    rfl
  · rfl

theorem calm_wake (x : Proc) (chan : Chan) : Calm x (x.wake chan) := by
  rw [Proc.wake]
  split
  · exact ⟨age_wake _, rfl, rfl, rfl, .inr rfl⟩
  · exact .refl x

theorem calm_kill (x : Proc) : Calm x x.kill := ⟨age_wake _, rfl, rfl, rfl, .inl rfl⟩

theorem calm_setkilled (x : Proc) : Calm x { x with killed := true } :=
  ⟨rfl, rfl, rfl, rfl, .inl rfl⟩

theorem calm_dispatch (hx : x.state = .runnable) (ticks : ℕ) : Calm x (x.dispatch ticks) :=
  ⟨by rw [Proc.age, Proc.age, hx]; rfl, rfl, rfl, rfl, .inl rfl⟩

theorem calm_yield (hx : x.state = .running) : Calm x { x with state := .runnable } :=
  ⟨by rw [Proc.age, Proc.age, hx]; rfl, rfl, rfl, rfl, .inl rfl⟩

theorem calm_sleep (hx : x.state = .running) (build : Build) : Calm x (x.sleep build) :=
  ⟨by rw [Proc.age, Proc.age, hx]; rfl, rfl, rfl, rfl, .inl rfl⟩

end Calm

/-! ## The machine -/

/-- How far `kfork` gets: `allocproc` fails, `uvmcopy` fails, or neither. -/
inductive Forking
  | noProc
  | noCopy
  | done
  deriving DecidableEq, Repr

/-- Who holds `wait_lock`, and the processes. -/
structure Tasks where
  globals : Globals
  waitLock : Option Slot
  pc : Slot → Pc

namespace Tasks

/-- What can happen next: a process enters a function, or goes on in it, with `copyout` failing or
not; or others, and the clock, do something. -/
inductive Event
  | fork (p np : Slot) (how : Forking)
  | exit (p : Slot) (status : ℤ)
  | wait (p : Slot) (addr : ℕ)
  | kill (p : Slot) (pid : ℤ)
  | go (p : Slot)
  | fault (p : Slot)
  | setkilled (p : Slot)
  | prepare (p : Slot) (chan : Chan)
  | sleep (p : Slot)
  | dispatch (p : Slot)
  | yield (p : Slot)
  | wake (chan : Chan) (q : Slot)
  | clock
  deriving DecidableEq, Repr

/-- `userinit` is done. -/
def boot : Tasks := ⟨.boot, none, fun _ => .user⟩

section Step

variable (build : Build) (s : Tasks) (p : Slot)

/-- The process in a slot. -/
def proc (q : Slot) : Proc := s.globals.table q

/-- `initproc`. -/
def initproc : Slot := s.globals.initproc

/-- Writing to one process. -/
def modify (q : Slot) (f : Proc → Proc) : Tasks := { s with globals := s.globals.modify q f }

/-- Process `p` gets somewhere. -/
def setPc (pc : Pc) : Tasks := { s with pc := Function.update s.pc p pc }

/-- `acquire(&wait_lock)`. -/
def acquire (pc : Pc) : Option Tasks :=
  if s.waitLock = none then some { s.setPc p pc with waitLock := some p } else none

/-- `release(&wait_lock)`. -/
def release (pc : Pc) : Tasks := { s.setPc p pc with waitLock := none }

/-- Process `p` is at `pc`, and with a CPU. -/
def At (pc : Pc) : Prop := s.pc p = pc ∧ (s.proc p).state = .running

instance (pc : Pc) : Decidable (s.At p pc) := inferInstanceAs (Decidable (_ ∧ _))

/-- `kfork`, up to `release(&np->lock)`. -/
def kfork (np : Slot) : Forking → Tasks
  | .noProc => { s with globals := s.globals.allocproc np false }
  | .noCopy => { s with globals := (s.globals.allocproc np true).modify np Proc.free }
  | .done =>
    let name := (s.proc p).name
    let s := { s with globals := (s.globals.allocproc np true).modify np ({ · with name }) }
    (s.setPc np .user).setPc p (.forked np)

/-- The next step of a process that is in one of the functions. -/
def go : Pc → Option Tasks
  | .forked np => (s.modify np ({ · with parent := some p })).acquire p (.adopting np)
  | .adopting np => some ((s.modify np ({ · with state := .runnable })).release p .user)
  | .reparent status (q :: rest) =>
    if (s.proc q).parent = some p then
      some ((s.modify q ({ · with parent := some s.initproc })).setPc p
        (.wakeInit status rest (List.finRange nproc)))
    else some (s.setPc p (.reparent status rest))
  | .reparent status [] =>
    match (s.proc p).parent with
    | some parent => some (s.setPc p (.wakeParent status parent (List.finRange nproc)))
    | none => some (s.setPc p (.dying status))
  | .wakeInit status rest (q :: wakes) =>
    some ((s.modify q (·.wake (.proc s.initproc))).setPc p (.wakeInit status rest wakes))
  | .wakeInit status rest [] => some (s.setPc p (.reparent status rest))
  | .wakeParent status parent (q :: wakes) =>
    some ((s.modify q (·.wake (.proc parent))).setPc p (.wakeParent status parent wakes))
  | .wakeParent status _ [] => some (s.setPc p (.dying status))
  | .dying status => some ((s.modify p (·.exit status s.globals.ticks)).release p .dead)
  | .scan addr (q :: rest) havekids =>
    if (s.proc q).parent = some p then
      if (s.proc q).state = .zombie then
        some ((s.modify q fun x => { x with parent := none }.free).release p .user)
      else some (s.setPc p (.scan addr rest true))
    else some (s.setPc p (.scan addr rest havekids))
  | .scan addr [] havekids =>
    if !havekids || (s.proc p).killed then some (s.release p .user)
    else some (s.setPc p (.prepare addr))
  | .prepare addr =>
    some ((s.modify p ({ · with chan := some (.proc p) })).setPc p (.unlock addr))
  | .unlock addr => some (s.release p (.sleep addr))
  | .sleep addr =>
    if (s.proc p).chan = none then some (s.setPc p (.slept addr))
    else some ((s.modify p (·.sleep build)).setPc p (.slept addr))
  | .slept addr => s.acquire p (.scan addr (List.finRange nproc) false)
  | .killing pid (q :: rest) =>
    if (s.proc q).pid = pid then some ((s.modify q Proc.kill).setPc p .user)
    else some (s.setPc p (.killing pid rest))
  | .killing _ [] => some (s.setPc p .user)
  | .user | .away | .dead => none

/-- A step; the clock does not take the CPU from who holds `wait_lock`. -/
def step : Event → Option Tasks
  | .fork p np how =>
    if s.At p .user ∧ (s.proc np).state = .unused then some (s.kfork p np how) else none
  | .exit p status =>
    if s.At p .user ∧ p ≠ s.initproc then s.acquire p (.reparent status (List.finRange nproc))
    else none
  | .wait p addr =>
    if s.At p .user then s.acquire p (.scan addr (List.finRange nproc) false) else none
  | .kill p pid =>
    if s.At p .user then some (s.setPc p (.killing pid (List.finRange nproc))) else none
  | .go p => if (s.proc p).state = .running then s.go build p (s.pc p) else none
  | .fault p =>
    match s.pc p with
    | .scan addr (q :: _) _ =>
      if (s.proc p).state = .running ∧ addr ≠ 0 ∧ (s.proc q).parent = some p ∧
          (s.proc q).state = .zombie then
        some (s.release p .user)
      else none
    | _ => none
  | .setkilled p =>
    if s.At p .user then some (s.modify p ({ · with killed := true })) else none
  | .prepare p chan =>
    if s.At p .user ∧ ∀ q, chan ≠ .proc q then
      some ((s.modify p ({ · with chan := some chan })).setPc p .away)
    else none
  | .sleep p =>
    if s.At p .away then
      if (s.proc p).chan = none then some (s.setPc p .user)
      else some ((s.modify p (·.sleep build)).setPc p .user)
    else none
  | .dispatch p =>
    if (s.proc p).state = .runnable then some (s.modify p (·.dispatch s.globals.ticks)) else none
  | .yield p =>
    if (s.proc p).state = .running ∧ s.waitLock ≠ some p then
      some (s.modify p ({ · with state := .runnable }))
    else none
  | .wake chan q => some (s.modify q (·.wake chan))
  | .clock => some { s with globals.ticks := uint (s.globals.ticks + 1) }

end Step

/-! ## What a step does -/

/-- What others do to a process, and the clock. -/
def Event.calm : Event → Bool
  | .setkilled _ | .dispatch _ | .yield _ | .wake _ _ => true
  | _ => false

/-- **What a step does**, a constructor for each section of the code. -/
inductive Does (build : Build) (s : Tasks) : Event → Tasks → Prop
  | calm {e q f} (he : e.calm) (hf : Calm (s.proc q) (f (s.proc q))) : Does build s e (s.modify q f)
  | clock : Does build s .clock { s with globals.ticks := uint (s.globals.ticks + 1) }
  | forkFailed {p np how} (hp : s.At p .user) (hnp : (s.proc np).state = .unused)
    (hhow : how ≠ .done) : Does build s (.fork p np how) (s.kfork p np how)
  | fork {p np} (hp : s.At p .user) (hnp : (s.proc np).state = .unused) :
    Does build s (.fork p np .done) (s.kfork p np .done)
  | adopt {p np} (hp : s.At p (.forked np)) (hlk : s.waitLock = none) :
    Does build s (.go p)
      { (s.modify np ({ · with parent := some p })).setPc p (.adopting np) with waitLock := some p }
  | ready {p np} (hp : s.At p (.adopting np)) :
    Does build s (.go p) ((s.modify np ({ · with state := .runnable })).release p .user)
  | exit {p status} (hp : s.At p .user) (hinit : p ≠ s.initproc) (hlk : s.waitLock = none) :
    Does build s (.exit p status)
      { s.setPc p (.reparent status (List.finRange nproc)) with waitLock := some p }
  | orphan {p status q rest} (hp : s.At p (.reparent status (q :: rest)))
    (hq : (s.proc q).parent = some p) :
    Does build s (.go p) ((s.modify q ({ · with parent := some s.initproc })).setPc p
      (.wakeInit status rest (List.finRange nproc)))
  | pass {p status q rest} (hp : s.At p (.reparent status (q :: rest)))
    (hq : (s.proc q).parent ≠ some p) : Does build s (.go p) (s.setPc p (.reparent status rest))
  | reparented {p status parent} (hp : s.At p (.reparent status []))
    (hparent : (s.proc p).parent = some parent) :
    Does build s (.go p) (s.setPc p (.wakeParent status parent (List.finRange nproc)))
  | fatherless {p status} (hp : s.At p (.reparent status [])) (hparent : (s.proc p).parent = none) :
    Does build s (.go p) (s.setPc p (.dying status))
  | wakeInit {p status rest q wakes} (hp : s.At p (.wakeInit status rest (q :: wakes))) :
    Does build s (.go p)
      ((s.modify q (·.wake (.proc s.initproc))).setPc p (.wakeInit status rest wakes))
  | wokeInit {p status rest} (hp : s.At p (.wakeInit status rest [])) :
    Does build s (.go p) (s.setPc p (.reparent status rest))
  | wakeParent {p status parent q wakes} (hp : s.At p (.wakeParent status parent (q :: wakes))) :
    Does build s (.go p)
      ((s.modify q (·.wake (.proc parent))).setPc p (.wakeParent status parent wakes))
  | wokeParent {p status parent} (hp : s.At p (.wakeParent status parent [])) :
    Does build s (.go p) (s.setPc p (.dying status))
  | die {p status} (hp : s.At p (.dying status)) :
    Does build s (.go p) ((s.modify p (·.exit status s.globals.ticks)).release p .dead)
  | wait {p addr} (hp : s.At p .user) (hlk : s.waitLock = none) :
    Does build s (.wait p addr)
      { s.setPc p (.scan addr (List.finRange nproc) false) with waitLock := some p }
  | skip {p addr q rest havekids} (hp : s.At p (.scan addr (q :: rest) havekids))
    (hq : (s.proc q).parent ≠ some p) : Does build s (.go p) (s.setPc p (.scan addr rest havekids))
  | look {p addr q rest havekids} (hp : s.At p (.scan addr (q :: rest) havekids))
    (hq : (s.proc q).parent = some p) (hq' : (s.proc q).state ≠ .zombie) :
    Does build s (.go p) (s.setPc p (.scan addr rest true))
  | reap {p addr q rest havekids} (hp : s.At p (.scan addr (q :: rest) havekids))
    (hq : (s.proc q).parent = some p) (hq' : (s.proc q).state = .zombie) :
    Does build s (.go p)
      ((s.modify q fun x => { x with parent := none }.free).release p .user)
  | fault {p addr q rest havekids} (hp : s.At p (.scan addr (q :: rest) havekids)) :
    Does build s (.fault p) (s.release p .user)
  | fail {p addr havekids} (hp : s.At p (.scan addr [] havekids))
    (hfail : havekids = false ∨ (s.proc p).killed) : Does build s (.go p) (s.release p .user)
  | again {p addr} (hp : s.At p (.scan addr [] true)) (hp' : (s.proc p).killed = false) :
    Does build s (.go p) (s.setPc p (.prepare addr))
  | prepare {p addr} (hp : s.At p (.prepare addr)) :
    Does build s (.go p)
      ((s.modify p ({ · with chan := some (.proc p) })).setPc p (.unlock addr))
  | unlock {p addr} (hp : s.At p (.unlock addr)) : Does build s (.go p) (s.release p (.sleep addr))
  | awake {p addr} (hp : s.At p (.sleep addr)) (hp' : (s.proc p).chan = none) :
    Does build s (.go p) (s.setPc p (.slept addr))
  | sleep {p addr} (hp : s.At p (.sleep addr)) (hp' : (s.proc p).chan ≠ none) :
    Does build s (.go p) ((s.modify p (·.sleep build)).setPc p (.slept addr))
  | rescan {p addr} (hp : s.At p (.slept addr)) (hlk : s.waitLock = none) :
    Does build s (.go p)
      { s.setPc p (.scan addr (List.finRange nproc) false) with waitLock := some p }
  | kill {p pid} (hp : s.At p .user) :
    Does build s (.kill p pid) (s.setPc p (.killing pid (List.finRange nproc)))
  | hit {p pid q rest} (hp : s.At p (.killing pid (q :: rest))) (hq : (s.proc q).pid = pid) :
    Does build s (.go p) ((s.modify q Proc.kill).setPc p .user)
  | miss {p pid q rest} (hp : s.At p (.killing pid (q :: rest))) (hq : (s.proc q).pid ≠ pid) :
    Does build s (.go p) (s.setPc p (.killing pid rest))
  | killFailed {p pid} (hp : s.At p (.killing pid [])) : Does build s (.go p) (s.setPc p .user)
  | prepareOther {p chan} (hp : s.At p .user) (hchan : ∀ q, chan ≠ .proc q) :
    Does build s (.prepare p chan)
      ((s.modify p ({ · with chan := some chan })).setPc p .away)
  | awakeOther {p} (hp : s.At p .away) : Does build s (.sleep p) (s.setPc p .user)
  | sleepOther {p} (hp : s.At p .away) :
    Does build s (.sleep p) ((s.modify p (·.sleep build)).setPc p .user)

variable {build : Build} {s s' : Tasks} {e : Event} {p q np : Slot} {pc : Pc}

theorem acquire_eq_some (h : s.acquire p pc = some s') :
    s.waitLock = none ∧ s' = { s.setPc p pc with waitLock := some p } := by
  obtain ⟨hlk, h⟩ := Option.ite_none_right_eq_some.mp h
  exact ⟨hlk, (Option.some.inj h).symm⟩

/-- The code of the four functions. -/
theorem does_of_go (hp : (s.proc p).state = .running) (h : s.go build p (s.pc p) = some s') :
    Does build s (.go p) s' := by
  rw [go.eq_def] at h
  split at h <;> rename_i hpc
  case h_1 => -- `.forked`
    obtain ⟨hlk, rfl⟩ := acquire_eq_some h
    exact .adopt ⟨hpc, hp⟩ hlk
  case h_2 => -- `.adopting`
    cases h
    exact .ready ⟨hpc, hp⟩
  case h_3 => -- `.reparent`
    split at h <;> cases h
    · exact .orphan ⟨hpc, hp⟩ ‹_›
    · exact .pass ⟨hpc, hp⟩ ‹_›
  case h_4 =>
    split at h <;> cases h
    · exact .reparented ⟨hpc, hp⟩ ‹_›
    · exact .fatherless ⟨hpc, hp⟩ ‹_›
  case h_5 => -- `.wakeInit`
    cases h
    exact .wakeInit ⟨hpc, hp⟩
  case h_6 =>
    cases h
    exact .wokeInit ⟨hpc, hp⟩
  case h_7 => -- `.wakeParent`
    cases h
    exact .wakeParent ⟨hpc, hp⟩
  case h_8 =>
    cases h
    exact .wokeParent ⟨hpc, hp⟩
  case h_9 => -- `.dying`
    cases h
    exact .die ⟨hpc, hp⟩
  case h_10 => -- `.scan`
    split at h
    · split at h <;> cases h
      · exact .reap ⟨hpc, hp⟩ ‹_› ‹_›
      · exact .look ⟨hpc, hp⟩ ‹_› ‹_›
    · cases h
      exact .skip ⟨hpc, hp⟩ ‹_›
  case h_11 havekids =>
    split at h <;> rename_i hcond <;> cases h
    · exact .fail ⟨hpc, hp⟩ (by simpa using hcond)
    · simp only [Bool.or_eq_true, Bool.not_eq_true', not_or, Bool.not_eq_false,
        Bool.not_eq_true] at hcond
      rw [hcond.1] at hpc
      exact .again ⟨hpc, hp⟩ hcond.2
  case h_12 => -- `.prepare`
    cases h
    exact .prepare ⟨hpc, hp⟩
  case h_13 => -- `.unlock`
    cases h
    exact .unlock ⟨hpc, hp⟩
  case h_14 => -- `.sleep`
    split at h <;> cases h
    · exact .awake ⟨hpc, hp⟩ ‹_›
    · exact .sleep ⟨hpc, hp⟩ ‹_›
  case h_15 => -- `.slept`
    obtain ⟨hlk, rfl⟩ := acquire_eq_some h
    exact .rescan ⟨hpc, hp⟩ hlk
  case h_16 => -- `.killing`
    split at h <;> cases h
    · exact .hit ⟨hpc, hp⟩ ‹_›
    · exact .miss ⟨hpc, hp⟩ ‹_›
  case h_17 =>
    cases h
    exact .killFailed ⟨hpc, hp⟩
  all_goals cases h

theorem does_of_step (h : step build s e = some s') : Does build s e s' := by
  cases e with
  | fork p np how =>
    obtain ⟨⟨hp, hnp⟩, h⟩ := Option.ite_none_right_eq_some.mp h
    cases h
    cases how with
    | done => exact .fork hp hnp
    | noProc | noCopy => exact .forkFailed hp hnp nofun
  | exit p status =>
    obtain ⟨⟨hp, hinit⟩, h⟩ := Option.ite_none_right_eq_some.mp h
    obtain ⟨hlk, rfl⟩ := acquire_eq_some h
    exact .exit hp hinit hlk
  | wait p addr =>
    obtain ⟨hp, h⟩ := Option.ite_none_right_eq_some.mp h
    obtain ⟨hlk, rfl⟩ := acquire_eq_some h
    exact .wait hp hlk
  | kill p pid =>
    obtain ⟨hp, h⟩ := Option.ite_none_right_eq_some.mp h
    cases h
    exact .kill hp
  | go p =>
    obtain ⟨hp, h⟩ := Option.ite_none_right_eq_some.mp h
    exact does_of_go hp h
  | fault p =>
    dsimp only [step] at h
    split at h
    · rename_i hpc
      obtain ⟨⟨hp, -⟩, h⟩ := Option.ite_none_right_eq_some.mp h
      cases h
      exact .fault ⟨hpc, hp⟩
    · cases h
  | setkilled p =>
    obtain ⟨-, h⟩ := Option.ite_none_right_eq_some.mp h
    cases h
    exact .calm rfl (calm_setkilled _)
  | prepare p chan =>
    obtain ⟨⟨hp, hchan⟩, h⟩ := Option.ite_none_right_eq_some.mp h
    cases h
    exact .prepareOther hp hchan
  | sleep p =>
    obtain ⟨hp, h⟩ := Option.ite_none_right_eq_some.mp h
    split at h <;> cases h
    · exact .awakeOther hp
    · exact .sleepOther hp
  | dispatch p =>
    obtain ⟨hp, h⟩ := Option.ite_none_right_eq_some.mp h
    cases h
    exact .calm rfl (calm_dispatch hp _)
  | yield p =>
    obtain ⟨hp, h⟩ := Option.ite_none_right_eq_some.mp h
    cases h
    exact .calm rfl (calm_yield hp.1)
  | wake chan q =>
    cases h
    exact .calm rfl (calm_wake _ chan)
  | clock =>
    cases h
    exact .clock

/-! ## Who is where -/

@[simp] theorem proc_modify_self {f : Proc → Proc} : (s.modify q f).proc q = f (s.proc q) :=
  Globals.table_modify_self

theorem proc_modify_of_ne {f : Proc → Proc} (h : p ≠ q) : (s.modify q f).proc p = s.proc p :=
  Globals.table_modify_of_ne h

/-- A write that relates old and new. -/
theorem proc_modify_rel {R : Proc → Proc → Prop} {f : Proc → Proc} (hrefl : ∀ x, R x x)
    (hf : R (s.proc q) (f (s.proc q))) (p : Slot) : R (s.proc p) ((s.modify q f).proc p) :=
  Table.modify_rel (R := fun _ => R) (fun _ => hrefl) hf p

theorem At.age (h : s.At p pc) : (s.proc p).age = .alive := by
  rw [Proc.age, h.2]
  rfl

theorem At.ne {q : Slot} (h : s.At p pc) (hq : (s.proc q).age ≠ .alive) : q ≠ p := by
  rintro rfl
  exact hq h.age

theorem age_of_unused (h : (s.proc p).state = .unused) : (s.proc p).age = .free := by
  rw [Proc.age, h]
  rfl

theorem age_of_zombie (h : (s.proc p).state = .zombie) : (s.proc p).age = .zombie := by
  rw [Proc.age, h]
  rfl

/-- What becomes of `wait_lock` when process `p` gets to `pc`. -/
inductive Hands (s s' : Tasks) (p : Slot) (pc : Pc) : Prop
  | keep (hlk : s'.waitLock = s.waitLock) (hholds : pc.holds = (s.pc p).holds)
  | take (hlk : s.waitLock = none) (hlk' : s'.waitLock = some p) (hholds : pc.holds)
  | drop (hin : (s.pc p).holds) (hlk' : s'.waitLock = none) (hout : pc.holds = false)

/-- **What holds of the program counters**: one process at most holds `wait_lock`, who is in one of
the functions is alive, each child on its way has one parent that is about to start it, and `init`
does not exit. -/
structure Control (s : Tasks) : Prop where
  guarded : Guarded (fun p => (s.pc p).holds) s.waitLock
  alive : ∀ p, (s.pc p).busy → (s.proc p).age = .alive
  zombie : ∀ p, (s.proc p).age = .zombie → s.pc p = .dead
  embryo : ∀ p np, (s.pc p).child = some np → (s.proc np).age = .embryo
  unique : ∀ p q np, (s.pc p).child = some np → (s.pc q).child = some np → p = q
  init : (s.proc s.initproc).age = .alive
  exits : ∀ p rest, (s.pc p).orphaning = some rest → p ≠ s.initproc

theorem Hands.guarded (h : Guarded (fun p => (s.pc p).holds) s.waitLock) (hands : Hands s s' p pc)
    (hpc : s'.pc = Function.update s.pc p pc) : Guarded (fun p => (s'.pc p).holds) s'.waitLock := by
  have hself : (s'.pc p).holds = pc.holds := by rw [hpc, Function.update_self]
  have hother {q : Slot} (hq : q ≠ p) : (s'.pc q).holds ↔ (s.pc q).holds := by
    rw [hpc, Function.update_of_ne hq]
  cases hands with
  | keep hlk hholds =>
    rw [hlk]
    refine h.keep fun q => ?_
    by_cases hq : q = p
    · rw [hq, hself, hholds]
    · exact hother hq
  | take hlk hlk' hholds =>
    rw [hlk] at h
    rw [hlk']
    exact h.acquire (hself.trans hholds) fun q => hother
  | drop hin hlk' hout =>
    rw [hlk']
    refine h.release hin ?_ fun q => hother
    rw [hself, hout]
    nofun

/-- **A step of one process**, with one slot of the table written. -/
theorem Control.update (h : s.Control) (hpc : s'.pc = Function.update s.pc p pc)
    (hands : Hands s s' p pc) (hinit : s'.initproc = s.initproc)
    (hage : ∀ r, r ≠ q → (s'.proc r).age = (s.proc r).age)
    (halive : pc.busy → (s'.proc p).age = .alive)
    (hzombie : (s'.proc p).age = .zombie → pc = .dead)
    (hq : q ≠ p → (s.pc q).busy → (s'.proc q).age = .alive)
    (hq' : (s'.proc q).age = .zombie → q ≠ p → s.pc q = .dead)
    (hchild : ∀ np, pc.child = some np → (s'.proc np).age = .embryo ∧
      ∀ r, r ≠ p → (s.pc r).child ≠ some np)
    (hembryo : (s.proc q).age = .embryo → (s'.proc q).age ≠ .embryo →
      ∀ r, r ≠ p → (s.pc r).child ≠ some q)
    (halive' : q = s.initproc → (s'.proc q).age = .alive)
    (hexits : ∀ rest, pc.orphaning = some rest → p ≠ s.initproc) : s'.Control := by
  have hself : s'.pc p = pc := by rw [hpc, Function.update_self]
  have hother {r : Slot} (hr : r ≠ p) : s'.pc r = s.pc r := by
    rw [hpc, Function.update_of_ne hr]
  refine ⟨hands.guarded h.guarded hpc, fun r hr => ?_, fun r hr => ?_, fun r np hr => ?_,
    fun r r' np hr hr' => ?_, ?_, fun r rest hr => ?_⟩
  · by_cases hrp : r = p
    · subst hrp
      rw [hself] at hr
      exact halive hr
    · rw [hother hrp] at hr
      by_cases hrq : r = q
      · subst hrq
        exact hq hrp hr
      · rw [hage r hrq]
        exact h.alive r hr
  · by_cases hrp : r = p
    · subst hrp
      rw [hself]
      exact hzombie hr
    · rw [hother hrp]
      by_cases hrq : r = q
      · subst hrq
        exact hq' hr hrp
      · rw [hage r hrq] at hr
        exact h.zombie r hr
  · by_cases hrp : r = p
    · subst hrp
      rw [hself] at hr
      exact (hchild np hr).1
    · rw [hother hrp] at hr
      have hold := h.embryo r np hr
      by_cases hnq : np = q
      · subst hnq
        by_contra hne
        exact hembryo hold hne r hrp hr
      · rw [hage np hnq, hold]
  · by_cases hrp : r = p
    all_goals by_cases hrp' : r' = p
    · rw [hrp, hrp']
    · subst hrp
      rw [hself] at hr
      rw [hother hrp'] at hr'
      exact absurd hr' ((hchild np hr).2 r' hrp')
    · subst hrp'
      rw [hself] at hr'
      rw [hother hrp] at hr
      exact absurd hr ((hchild np hr').2 r hrp)
    · rw [hother hrp] at hr
      rw [hother hrp'] at hr'
      exact h.unique r r' np hr hr'
  · rw [hinit]
    by_cases hiq : s.initproc = q
    · rw [hiq]
      exact halive' hiq.symm
    · rw [hage _ hiq]
      exact h.init
  · rw [hinit]
    by_cases hrp : r = p
    · subst hrp
      rw [hself] at hr
      exact hexits rest hr
    · rw [hother hrp] at hr
      exact h.exits r rest hr

/-- …and nobody gets older. -/
theorem Control.move (h : s.Control) (hpc : s'.pc = Function.update s.pc p pc)
    (hands : Hands s s' p pc) (hinit : s'.initproc = s.initproc)
    (hage : ∀ r, (s'.proc r).age = (s.proc r).age) (hp : (s.proc p).age = .alive)
    (hchild : pc.child = none ∨ pc.child = (s.pc p).child)
    (hexits : pc.orphaning = none ∨ p ≠ s.initproc) : s'.Control := by
  have hp' : (s'.proc p).age = .alive := (hage p).trans hp
  refine h.update (q := p) hpc hands hinit (fun r _ => hage r) (fun _ => hp')
    (fun hz => nomatch hp'.symm.trans hz) (fun hne => absurd rfl hne) (fun _ hne => absurd rfl hne)
    (fun np hnp => ?_) (fun he => nomatch hp.symm.trans he) (fun _ => hp') fun rest hrest => ?_
  · rcases hchild with hc | hc
    · cases hc.symm.trans hnp
    · have hold : (s.pc p).child = some np := hc.symm.trans hnp
      refine ⟨(hage np).trans (h.embryo p np hold), fun r hr hr' => hr ?_⟩
      exact h.unique r p np hr' hold
  · rcases hexits with hc | hc
    · cases hc.symm.trans hrest
    · exact hc

/-- Whoever is in a function stays there while others do something. -/
theorem Control.calm (h : s.Control) (hpc : s'.pc = s.pc) (hlk : s'.waitLock = s.waitLock)
    (hinit : s'.initproc = s.initproc) (hage : ∀ r, (s'.proc r).age = (s.proc r).age) :
    s'.Control := by
  refine ⟨?_, fun r => ?_, fun r => ?_, fun r np => ?_, ?_, ?_, ?_⟩
  · rw [hpc, hlk]
    exact h.guarded
  · rw [hpc, hage]
    exact h.alive r
  · rw [hpc, hage]
    exact h.zombie r
  · rw [hpc, hage]
    exact h.embryo r np
  · rw [hpc]
    exact h.unique
  · rw [hinit, hage]
    exact h.init
  · rw [hpc, hinit]
    exact h.exits

theorem age_modify {f : Proc → Proc} (hf : (f (s.proc q)).age = (s.proc q).age) (r : Slot) :
    ((s.modify q f).proc r).age = (s.proc r).age :=
  proc_modify_rel (R := fun x y => y.age = x.age) (fun _ => rfl) hf r

theorem initproc_kfork {how : Forking} : (s.kfork p np how).initproc = s.initproc := by
  cases how <;> rfl

theorem proc_kfork_of_ne {how : Forking} (h : q ≠ np) : (s.kfork p np how).proc q = s.proc q := by
  cases how with
  | noProc => exact Globals.table_allocproc_of_ne h
  | noCopy | done =>
    exact (Globals.table_modify_of_ne h).trans (Globals.table_allocproc_of_ne h)

/-- What `kfork` makes of a slot. -/
theorem proc_kfork_self {how : Forking} : (s.kfork p np how).proc np =
    match how with
    | .noProc => (s.proc np).free
    | .noCopy => ((s.proc np).alloc s.globals.nextpid s.globals.ticks).free
    | .done => { (s.proc np).alloc s.globals.nextpid s.globals.ticks with
        name := (s.proc p).name } := by
  cases how with
  | noProc => exact Globals.table_allocproc_self
  | noCopy | done =>
    refine Globals.table_modify_self.trans ?_
    rw [Globals.table_allocproc_self]
    rfl

theorem age_kfork {how : Forking} :
    ((s.kfork p np how).proc np).age = if how = .done then .embryo else .free := by
  rw [proc_kfork_self]
  cases how <;> rfl

theorem Control.not_busy (h : s.Control) (hp : (s.proc p).age ≠ .alive) :
    (s.pc p).busy = false := Bool.eq_false_iff.mpr fun hbusy => hp (h.alive p hbusy)

/-- The program counter of a slot that is free is left over from the last process there. -/
theorem Control.reset (h : s.Control) (hnp : (s.proc np).age = .free) :
    (s.setPc np .user).Control := by
  have hholds := Pc.holds_of_not_busy (h.not_busy (p := np) (by rw [hnp]; nofun))
  refine h.update (q := np) rfl (.keep rfl hholds.symm) rfl (fun _ _ => rfl) nofun (fun hz => ?_)
    (fun hne => absurd rfl hne) (fun _ hne => absurd rfl hne) nofun (fun he => ?_) (fun hi => ?_)
    nofun
  · cases hnp.symm.trans hz
  · cases hnp.symm.trans he
  · rw [hi] at hnp
    cases hnp.symm.trans h.init

/-- **A new child**, which nobody else is about to start. -/
theorem Control.fork (h : s.Control) (hp : s.At p .user) (hnp : (s.proc np).state = .unused) :
    (s.kfork p np .done).Control := by
  have hfree := age_of_unused hnp
  have hne : np ≠ p := hp.ne (by rw [hfree]; nofun)
  have hage : ((s.kfork p np .done).proc np).age = .embryo := age_kfork
  have hreset := h.reset hfree
  have hother {r : Slot} (hr : r ≠ np) : (s.kfork p np .done).proc r = s.proc r :=
    proc_kfork_of_ne hr
  have hpc : (s.setPc np .user).pc p = .user := (Function.update_of_ne hne.symm _ _).trans hp.1
  have hnot (r : Slot) : ((s.setPc np .user).pc r).child ≠ some np := fun hr => by
    cases hfree.symm.trans (hreset.embryo r np hr)
  refine hreset.update (p := p) (q := np) rfl (.keep rfl ?_) rfl
    (fun r hr => congrArg Proc.age (hother hr)) (fun _ => ?_) (fun hz => ?_) (fun _ hbusy => ?_)
    (fun hz => ?_) (fun np' hnp' => ?_) (fun he => ?_) (fun hi => ?_) nofun
  · rw [hpc]
    rfl
  · rw [hother hne.symm]
    exact hp.age
  · rw [hother hne.symm] at hz
    cases hp.age.symm.trans hz
  · rw [show (s.setPc np .user).pc np = .user from Function.update_self _ _ _] at hbusy
    cases hbusy
  · cases hage.symm.trans hz
  · cases hnp'
    exact ⟨hage, fun r _ => hnot r⟩
  · cases hfree.symm.trans he
  · rw [hi] at hfree
    cases hfree.symm.trans h.init

theorem Control.modify {f : Proc → Proc} (h : s.Control)
    (hf : (f (s.proc q)).age = (s.proc q).age) : (s.modify q f).Control :=
  h.calm rfl rfl rfl (age_modify hf)

theorem Control.setPc {pc₀ : Pc} (h : s.Control) (hpc : s.pc p = pc₀)
    (hage : (s.proc p).age = .alive) (hholds : pc.holds = pc₀.holds) (hchild : pc.child = none)
    (hexits : pc.orphaning = none ∨ pc₀.orphaning ≠ none) : (s.setPc p pc).Control := by
  refine h.move rfl (.keep rfl ?_) rfl (fun _ => rfl) hage (.inl hchild) (hexits.imp_right ?_)
  · rw [hpc, hholds]
  · intro hne
    obtain ⟨rest, hrest⟩ := Option.ne_none_iff_exists'.mp hne
    exact h.exits p rest (by rw [hpc, hrest])

theorem Control.release {pc₀ : Pc} (h : s.Control) (hpc : s.pc p = pc₀)
    (hage : (s.proc p).age = .alive) (hin : pc₀.holds) (hout : pc.holds = false)
    (hchild : pc.child = none) (hexits : pc.orphaning = none) : (s.release p pc).Control := by
  refine h.move rfl (.drop ?_ rfl hout) rfl (fun _ => rfl) hage (.inl hchild) (.inl hexits)
  rw [hpc]
  exact hin

/-- The child starts. -/
theorem Control.ready (h : s.Control) (hp : s.At p (.adopting np)) :
    ((s.modify np ({ · with state := .runnable })).release p .user).Control := by
  have hold : (s.pc p).child = some np := by rw [hp.1]; rfl
  have hembryo := h.embryo p np hold
  have hne : np ≠ p := hp.ne (by rw [hembryo]; nofun)
  have hage : ((s.modify np ({ · with state := .runnable })).proc np).age = .alive := by
    rw [proc_modify_self]
    rfl
  have hage' : ((s.modify np ({ · with state := .runnable })).proc p).age = .alive := by
    rw [proc_modify_of_ne hne.symm]
    exact hp.age
  refine h.update (q := np) rfl (.drop (by rw [hp.1]; rfl) rfl rfl) rfl
    (fun r hr => congrArg Proc.age (proc_modify_of_ne hr)) nofun (fun hz => ?_) (fun _ _ => hage)
    (fun hz => ?_) nofun (fun _ _ r hr hr' => hr (h.unique r p np hr' hold)) (fun _ => hage) nofun
  · cases hage'.symm.trans hz
  · cases hage.symm.trans hz

/-- A process that is not `init` exits. -/
theorem Control.die {status : ℤ} {ticks : ℕ} (h : s.Control) (hp : s.At p (.dying status)) :
    ((s.modify p (·.exit status ticks)).release p .dead).Control := by
  have hinit : p ≠ s.initproc := h.exits p [] (by rw [hp.1]; rfl)
  refine h.update (q := p) rfl (.drop (by rw [hp.1]; rfl) rfl rfl) rfl
    (fun r hr => congrArg Proc.age (proc_modify_of_ne hr)) nofun (fun _ => rfl)
    (fun hne => absurd rfl hne) (fun _ hne => absurd rfl hne) nofun (fun he => ?_)
    (fun hi => absurd hi hinit) nofun
  cases hp.age.symm.trans he

/-- A zombie is freed. -/
theorem Control.reap {f : Proc → Proc} (h : s.Control) (hp : s.At p pc) (hpc : pc.holds)
    (hq : (s.proc q).state = .zombie) (hf : (f (s.proc q)).age = .free) :
    ((s.modify q f).release p .user).Control := by
  have hzombie := age_of_zombie hq
  have hne : q ≠ p := hp.ne (by rw [hzombie]; nofun)
  have hage : ((s.modify q f).proc q).age = .free := by
    rw [proc_modify_self, hf]
  have hage' : ((s.modify q f).proc p).age = .alive := by
    rw [proc_modify_of_ne hne.symm]
    exact hp.age
  refine h.update (q := q) rfl (.drop (by rw [hp.1]; exact hpc) rfl rfl) rfl
    (fun r hr => congrArg Proc.age (proc_modify_of_ne hr)) nofun (fun hz => ?_) (fun _ hbusy => ?_)
    (fun hz => ?_) nofun (fun he => ?_) (fun hi => ?_) nofun
  · cases hage'.symm.trans hz
  · rw [h.zombie q hzombie] at hbusy
    cases hbusy
  · cases hage.symm.trans hz
  · cases hzombie.symm.trans he
  · rw [hi] at hzombie
    cases hzombie.symm.trans h.init

theorem Control.step (h : s.Control) (hstep : step build s e = some s') : s'.Control := by
  cases does_of_step hstep with
  | calm he hf => exact h.modify hf.age
  | clock => exact h.calm rfl rfl rfl fun _ => rfl
  | @forkFailed p np how hp hnp hhow =>
    refine h.calm ?_ ?_ initproc_kfork fun r => ?_
    · cases how with
      | done => exact absurd rfl hhow
      | noProc | noCopy => rfl
    · cases how <;> rfl
    · by_cases hr : r = np
      · rw [hr, age_kfork, if_neg hhow, age_of_unused hnp]
      · rw [proc_kfork_of_ne hr]
  | fork hp hnp => exact h.fork hp hnp
  | @adopt p np hp hlk =>
    exact h.move rfl (.take hlk rfl rfl) rfl
      (age_modify (f := ({ · with parent := some p })) rfl) hp.age (.inr (by rw [hp.1]; rfl))
      (.inl rfl)
  | ready hp => exact h.ready hp
  | exit hp hinit hlk =>
    exact h.move rfl (.take hlk rfl rfl) rfl (fun _ => rfl) hp.age (.inl rfl) (.inr hinit)
  | @orphan p status q rest hp hq =>
    have hmodify : (s.modify q ({ · with parent := some s.initproc })).Control := h.modify rfl
    exact hmodify.setPc hp.1 ((age_modify rfl p).trans hp.age) rfl rfl (.inr nofun)
  | pass hp | reparented hp | fatherless hp | wokeInit hp | wokeParent hp =>
    exact h.setPc hp.1 hp.age rfl rfl (.inr nofun)
  | @wakeInit p status rest q wakes hp =>
    have hage := (calm_wake (s.proc q) (.proc s.initproc)).age
    exact (h.modify hage).setPc hp.1 ((age_modify hage p).trans hp.age) rfl rfl (.inr nofun)
  | @wakeParent p status parent q wakes hp =>
    have hage := (calm_wake (s.proc q) (.proc parent)).age
    exact (h.modify hage).setPc hp.1 ((age_modify hage p).trans hp.age) rfl rfl (.inr nofun)
  | die hp => exact h.die hp
  | wait hp hlk | rescan hp hlk =>
    exact h.move rfl (.take hlk rfl rfl) rfl (fun _ => rfl) hp.age (.inl rfl) (.inl rfl)
  | reap hp hq hq' => exact h.reap hp rfl hq' rfl
  | fault hp | fail hp | unlock hp => exact h.release hp.1 hp.age rfl rfl rfl rfl
  | skip hp | look hp | again hp | awake hp | kill hp | miss hp | killFailed hp | awakeOther hp =>
    exact h.setPc hp.1 hp.age rfl rfl (.inl rfl)
  | @prepare p addr hp =>
    have hmodify : (s.modify p ({ · with chan := some (.proc p) })).Control := h.modify rfl
    exact hmodify.setPc hp.1 ((age_modify rfl p).trans hp.age) rfl rfl (.inl rfl)
  | @prepareOther p chan hp hchan =>
    have hmodify : (s.modify p ({ · with chan := some chan })).Control := h.modify rfl
    exact hmodify.setPc hp.1 ((age_modify rfl p).trans hp.age) rfl rfl (.inl rfl)
  | @sleep p addr hp hp' =>
    have hage := (calm_sleep hp.2 build).age
    exact (h.modify hage).setPc hp.1 ((age_modify hage p).trans hp.age) rfl rfl (.inl rfl)
  | @sleepOther p hp =>
    have hage := (calm_sleep hp.2 build).age
    exact (h.modify hage).setPc hp.1 ((age_modify hage p).trans hp.age) rfl rfl (.inl rfl)
  | @hit p pid q rest hp hq =>
    have hage := (calm_kill (s.proc q)).age
    exact (h.modify hage).setPc hp.1 ((age_modify hage p).trans hp.age) rfl rfl (.inl rfl)

theorem control_boot : boot.Control := by
  refine ⟨fun p => iff_of_false nofun nofun, nofun, fun p hp => ?_, nofun, nofun, rfl, nofun⟩
  by_cases hp0 : p = 0
  · subst hp0
    cases hp
  · rw [show boot.proc p = .zero from Globals.table_boot_of_ne hp0] at hp
    cases hp

end Tasks

end MiniProject.Kernel
