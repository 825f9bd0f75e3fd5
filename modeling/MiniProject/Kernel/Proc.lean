import Mathlib.Data.List.FinRange
import Mathlib.Logic.Function.Basic
import MiniProject.Machinery.Cyclic

/-!
# Kernel/Proc — the process table

`struct proc`, as far as scheduling goes, and the functions of `proc.c` on the table: each is what
the function does under its locks, so that a machine can take it as one step or as several.

The fields of the MLFQ build are there in all builds; the others leave them alone.
-/

namespace MiniProject.Kernel

/-! ## The data -/

/-- `NPROC` of `param.h`. -/
def nproc : ℕ := 64

/-- `NMLFQ`. -/
def nmlfq : ℕ := 4

/-- `BOOST_TICKS`. -/
def boostTicks : ℕ := 48

instance : NeZero nproc := ⟨by decide⟩

instance : NeZero nmlfq := ⟨by decide⟩

/-- A `struct proc *`. -/
abbrev Slot := Fin nproc

/-- What the kernel is compiled with: `-DFIFO`, `-DMLFQ` or neither. -/
inductive Build
  | rr | fifo | mlfq
  deriving DecidableEq, Repr

/-- `procstate`. -/
inductive ProcState
  | unused | used | sleeping | runnable | running | zombie
  deriving DecidableEq, Repr

/-- A `void *` slept on: a process, `&ticks`, or something else. -/
inductive Chan
  | proc (p : Slot)
  | ticks
  | addr (a : ℕ)
  deriving DecidableEq, Repr

/-- The value an `int` takes. -/
def int (z : ℤ) : ℤ := z.bmod (2 ^ 32)

theorem int_of_lt {z : ℤ} (h : 0 ≤ z) (hlt : z < 2 ^ 31) : int z = z := by
  rw [int, Int.bmod_eq_of_le (by omega) (by omega)]

/-- Only what does not fit gets smaller. -/
theorem int_le {z : ℤ} (h : 0 ≤ z) : int z ≤ z := by
  by_cases hlt : z < 2 ^ 31
  · rw [int_of_lt h hlt]
  · have hbmod := Int.bmod_lt (x := z) (m := 2 ^ 32) (by decide)
    rw [int]
    omega

/-- The value a `uint` takes. -/
def uint (k : ℕ) : ℕ := k % 2 ^ 32

/-- `mlfq_slice[q]`; `none` is past the array. -/
def mlfqSlice (q : ℤ) : Option ℤ := if 0 ≤ q then ([1, 4, 8, 16] : List ℤ)[q.toNat]? else none

/-- `struct proc`; a `chan` or `parent` of `none` is 0. -/
structure Proc where
  state : ProcState
  chan : Option Chan
  killed : Bool
  xstate : ℤ
  pid : ℤ
  parent : Option Slot
  name : List Char
  creationTime : ℕ
  firstRunTime : ℤ
  endTime : ℕ
  cpuTicks : ℤ
  queue : ℤ
  ticksUsed : ℤ
  deriving DecidableEq, Repr

/-- `proc[NPROC]`. -/
abbrev Table := Slot → Proc

/-! ## One process -/

namespace Proc

variable (x : Proc)

/-- As `procinit` leaves it. -/
def zero : Proc where
  state := .unused
  chan := none
  killed := false
  xstate := 0
  pid := 0
  parent := none
  name := []
  creationTime := 0
  firstRunTime := 0
  endTime := 0
  cpuTicks := 0
  queue := 0
  ticksUsed := 0

/-- `allocproc` from `found:` on. -/
def alloc (pid : ℤ) (ticks : ℕ) : Proc :=
  { x with
    pid, state := .used, creationTime := ticks, firstRunTime := -1, endTime := 0, cpuTicks := 0
    queue := 0, ticksUsed := 0 }

/-- `freeproc`. -/
def free : Proc :=
  { x with
    pid := 0, name := [], chan := none, killed := false, xstate := 0, state := .unused }

/-- `mlfq_boost`, its loop body. -/
def boost : Proc :=
  if x.state ≠ .unused ∧ x.state ≠ .zombie then { x with queue := 0, ticksUsed := 0 } else x

/-- `mlfq_timer_tick`; `none` is a read past `mlfq_slice`. -/
def mlfqTimerTick : Option Proc :=
  let x := { x with cpuTicks := int (x.cpuTicks + 1), ticksUsed := int (x.ticksUsed + 1) }
  (mlfqSlice x.queue).map fun slice =>
    if slice ≤ x.ticksUsed then
      { x with queue := if x.queue < nmlfq - 1 then x.queue + 1 else x.queue, ticksUsed := 0 }
    else x

/-- What a timer interrupt charges to the process it hits. -/
def charge (build : Build) : Option Proc :=
  match build with
  | .mlfq => x.mlfqTimerTick
  | _ => some { x with cpuTicks := int (x.cpuTicks + 1) }

/-- `sleep` of a process that has not been woken since `sleep_prepare`. -/
def sleep (build : Build) : Proc :=
  { x with ticksUsed := if build = .mlfq then 0 else x.ticksUsed, state := .sleeping }

/-- `wakeup`, its loop body. -/
def wake (chan : Chan) : Proc :=
  if x.chan = some chan then
    { x with chan := none, state := if x.state = .sleeping then .runnable else x.state }
  else x

/-- `kkill`, its loop body once the pid is found. -/
def kill : Proc :=
  { x with killed := true, state := if x.state = .sleeping then .runnable else x.state }

/-- The scheduler, up to `swtch`. -/
def dispatch (ticks : ℕ) : Proc :=
  { x with
    firstRunTime := if x.firstRunTime = -1 then int ticks else x.firstRunTime, state := .running }

/-- `kexit`, its last part. -/
def exit (status : ℤ) (ticks : ℕ) : Proc :=
  { x with xstate := status, endTime := ticks, state := .zombie }

end Proc

/-- A charge leaves all but three fields. -/
theorem Proc.charge_spec {x y : Proc} {build : Build} (h : x.charge build = some y) :
    y = { x with
      cpuTicks := int (x.cpuTicks + 1), queue := y.queue, ticksUsed := y.ticksUsed } := by
  have hmlfq : x.mlfqTimerTick = some y → y = { x with
      cpuTicks := int (x.cpuTicks + 1), queue := y.queue, ticksUsed := y.ticksUsed } := by
    intro h
    obtain ⟨slice, -, rfl⟩ := Option.map_eq_some_iff.mp h
    split <;> rfl
  cases build with
  | mlfq => exact hmlfq h
  | rr | fifo =>
    cases h
    rfl

theorem Proc.pid_charge (x : Proc) (build : Build) : ((x.charge build).getD x).pid = x.pid := by
  rcases h : x.charge build with _ | y
  · rfl
  · rw [Option.getD_some, charge_spec h]

/-! ## The table -/

namespace Table

variable (t : Table)

/-- Writing to one slot. -/
def modify (p : Slot) (f : Proc → Proc) : Table := Function.update t p (f (t p))

/-- `wakeup`. -/
def wakeup (chan : Chan) : Table := fun q => (t q).wake chan

/-- `reparent`. -/
def reparent (p initproc : Slot) : Table :=
  (List.finRange nproc).foldl (fun t pp =>
    if (t pp).parent = some p then
      (t.modify pp ({ · with parent := some initproc })).wakeup (.proc initproc)
    else t) t

/-- `p->state == RUNNABLE && p->queue == q`. -/
def waits (q : Fin nmlfq) (p : Slot) : Bool := (t p).state = .runnable ∧ (t p).queue = (q.val : ℤ)

/-- The selection of the MLFQ scheduler: the queues from the top, each from behind
`mlfq_last[q]`. -/
def pickMlfq (last : Fin nmlfq → Slot) : Option (Fin nmlfq × Slot) :=
  (List.finRange nmlfq).findSome? fun q => (scan (last q) (t.waits q)).map (q, ·)

/-- The body of the FIFO scheduler's loop over the table. -/
def chooseFifo (chosen : Option Slot) (p : Slot) : Option Slot :=
  if (t p).state = .runnable ∧ ∀ c ∈ chosen, (t p).pid < (t c).pid then some p else chosen

/-- The selection of the FIFO scheduler: the least pid. -/
def pickFifo : Option Slot := (List.finRange nproc).foldl t.chooseFifo none

end Table

/-! ## What others do to a process -/

/-- What happens to a process that neither runs nor is created or freed: it is woken or killed, and
gets another parent; nothing else changes. -/
structure Nudged (x y : Proc) : Prop where
  state : y.state = x.state ∨ (x.state = .sleeping ∧ y.state = .runnable)
  xstate : y.xstate = x.xstate
  pid : y.pid = x.pid
  name : y.name = x.name
  creationTime : y.creationTime = x.creationTime
  firstRunTime : y.firstRunTime = x.firstRunTime
  endTime : y.endTime = x.endTime
  cpuTicks : y.cpuTicks = x.cpuTicks
  queue : y.queue = x.queue
  ticksUsed : y.ticksUsed = x.ticksUsed

variable {x y z : Proc}

theorem Nudged.refl (x : Proc) : Nudged x x :=
  ⟨.inl rfl, rfl, rfl, rfl, rfl, rfl, rfl, rfl, rfl, rfl⟩

theorem Nudged.trans (hxy : Nudged x y) (hyz : Nudged y z) : Nudged x z where
  state := by
    rcases hyz.state with h | ⟨hy, hz⟩
    · rw [h]
      exact hxy.state
    · rcases hxy.state with h | ⟨-, h⟩
      · exact .inr ⟨h ▸ hy, hz⟩
      · rw [h] at hy
        cases hy
  xstate := hyz.xstate.trans hxy.xstate
  pid := hyz.pid.trans hxy.pid
  name := hyz.name.trans hxy.name
  creationTime := hyz.creationTime.trans hxy.creationTime
  firstRunTime := hyz.firstRunTime.trans hxy.firstRunTime
  endTime := hyz.endTime.trans hxy.endTime
  cpuTicks := hyz.cpuTicks.trans hxy.cpuTicks
  queue := hyz.queue.trans hxy.queue
  ticksUsed := hyz.ticksUsed.trans hxy.ticksUsed

/-- A process that does not sleep keeps its state. -/
theorem Nudged.state_eq (h : Nudged x y) (hx : x.state ≠ .sleeping) : y.state = x.state :=
  h.state.resolve_right fun h => hx h.1

theorem nudged_wake (x : Proc) (chan : Chan) : Nudged x (x.wake chan) := by
  rw [Proc.wake]
  split
  · refine ⟨?_, rfl, rfl, rfl, rfl, rfl, rfl, rfl, rfl, rfl⟩
    dsimp only
    split
    · exact .inr ⟨‹_›, rfl⟩
    · exact .inl rfl
  · exact .refl x

/-- A wakeup clears the channel. -/
theorem chan_wake (x : Proc) (chan : Chan) : (x.wake chan).chan ≠ some chan := by
  rw [Proc.wake]
  split
  · nofun
  · assumption

theorem nudged_kill (x : Proc) : Nudged x x.kill := by
  refine ⟨?_, rfl, rfl, rfl, rfl, rfl, rfl, rfl, rfl, rfl⟩
  rw [Proc.kill]
  dsimp only
  split
  · exact .inr ⟨‹_›, rfl⟩
  · exact .inl rfl

theorem nudged_parent (x : Proc) (parent : Option Slot) : Nudged x { x with parent } :=
  ⟨.inl rfl, rfl, rfl, rfl, rfl, rfl, rfl, rfl, rfl, rfl⟩

namespace Table

variable {t : Table} {p q : Slot} {f : Proc → Proc}

@[simp] theorem modify_self : t.modify p f p = f (t p) := Function.update_self _ _ _

theorem modify_of_ne (h : q ≠ p) : t.modify p f q = t q := Function.update_of_ne h _ _

/-- A write to a slot that relates old and new relates all. -/
theorem modify_rel {R : Slot → Proc → Proc → Prop} (hrefl : ∀ q x, R q x x)
    (hf : R p (t p) (f (t p))) (q : Slot) : R q (t q) (t.modify p f q) := by
  by_cases hq : q = p
  · rw [hq, modify_self]
    exact hf
  · rw [modify_of_ne hq]
    exact hrefl _ _

/-- **The MLFQ scheduler finds the nearest process of the topmost queue that has one.** -/
theorem pickMlfq_eq_some {last : Fin nmlfq → Slot} {q : Fin nmlfq} :
    t.pickMlfq last = some (q, p) ↔
      scan (last q) (t.waits q) = some p ∧ ∀ q' < q, ∀ p', t.waits q' p' = false := by
  rw [pickMlfq, ← Fin.findSome?_eq_findSome?_finRange, Fin.findSome?_eq_some_iff]
  simp only [Option.map_eq_some_iff, Prod.mk.injEq, Option.map_eq_none_iff, scan_eq_none]
  constructor
  · rintro ⟨q', ⟨p', hscan, rfl, rfl⟩, habove⟩
    exact ⟨hscan, habove⟩
  · rintro ⟨hscan, habove⟩
    exact ⟨q, ⟨p, hscan, rfl, rfl⟩, habove⟩

theorem pickMlfq_eq_none {last : Fin nmlfq → Slot} :
    t.pickMlfq last = none ↔ ∀ q p, t.waits q p = false := by
  rw [pickMlfq, ← Fin.findSome?_eq_findSome?_finRange, Fin.findSome?_eq_none_iff]
  simp only [Option.map_eq_none_iff, scan_eq_none]

/-- The choice among the slots seen so far. -/
def Least (t : Table) (seen : List Slot) : Option Slot → Prop
  | none => ∀ q ∈ seen, (t q).state ≠ .runnable
  | some c => (t c).state = .runnable ∧
    ∀ q ∈ seen, (t q).state = .runnable → (t c).pid ≤ (t q).pid

theorem Least.choose {seen : List Slot} {chosen : Option Slot} (h : t.Least seen chosen) :
    t.Least (seen ++ [p]) (t.chooseFifo chosen p) := by
  rw [chooseFifo]
  split
  · rename_i hp
    refine ⟨hp.1, fun q hq hrunnable => ?_⟩
    rcases List.mem_append.mp hq with hq | hq
    · cases chosen with
      | none => exact absurd hrunnable (h q hq)
      | some c => exact (Int.le_of_lt (hp.2 c rfl)).trans (h.2 q hq hrunnable)
    · rw [List.mem_singleton.mp hq]
  · rename_i hp
    cases chosen with
    | none =>
      intro q hq
      rcases List.mem_append.mp hq with hq | hq
      · exact h q hq
      · rw [List.mem_singleton.mp hq]
        exact fun hrunnable => hp ⟨hrunnable, nofun⟩
    | some c =>
      refine ⟨h.1, fun q hq hrunnable => ?_⟩
      rcases List.mem_append.mp hq with hq | hq
      · exact h.2 q hq hrunnable
      · rw [List.mem_singleton.mp hq] at hrunnable ⊢
        refine Int.not_lt.mp fun hlt => hp ⟨hrunnable, fun c' hc' => ?_⟩
        cases hc'
        exact hlt

/-- **The FIFO scheduler finds a RUNNABLE process of the least pid**, if there is any. -/
theorem least_pickFifo (t : Table) : t.Least (List.finRange nproc) t.pickFifo := by
  have hfold (rest : List Slot) : ∀ {seen chosen}, t.Least seen chosen →
      t.Least (seen ++ rest) (rest.foldl t.chooseFifo chosen) := by
    induction rest with
    | nil =>
      intro seen chosen h
      rw [List.append_nil]
      exact h
    | cons p rest ih =>
      intro seen chosen h
      rw [List.append_cons]
      exact ih h.choose
  exact hfold _ (show t.Least [] none from nofun)

theorem pickFifo_eq_some (h : t.pickFifo = some p) :
    (t p).state = .runnable ∧ ∀ q, (t q).state = .runnable → (t p).pid ≤ (t q).pid := by
  have hleast := least_pickFifo t
  rw [h] at hleast
  exact ⟨hleast.1, fun q => hleast.2 q (List.mem_finRange q)⟩

theorem pickFifo_eq_none (h : t.pickFifo = none) (q : Slot) : (t q).state ≠ .runnable := by
  have hleast := least_pickFifo t
  rw [h] at hleast
  exact hleast q (List.mem_finRange q)

/-- Reparenting nudges. -/
theorem nudged_reparent (t : Table) (p initproc q : Slot) :
    Nudged (t q) (t.reparent p initproc q) := by
  rw [reparent]
  induction List.finRange nproc generalizing t with
  | nil => exact .refl _
  | cons pp pps ih =>
    rw [List.foldl_cons]
    refine .trans ?_ (ih _)
    split
    · refine .trans ?_ (nudged_wake _ _)
      exact modify_rel (R := fun _ => Nudged) (fun _ => .refl) (nudged_parent _ _) q
    · exact .refl _

end Table

end MiniProject.Kernel
