import MiniProject.Kernel.Proc

/-!
# Kernel/Globals — the kernel's variables, and what a process has the kernel do

`Globals` are the variables the scheduler and the system calls share.  A `Call` is a part of a
system call that runs under its locks and returns to the process; sleeping, yielding and exiting
give up the CPU and stand apart.  Loops over the table take one step a slot, so that anything may
come between.
-/

namespace MiniProject.Kernel

/-- `proc`, `nextpid`, `ticks`, `mlfq_last` and `initproc`. -/
structure Globals where
  table : Table
  nextpid : ℤ
  ticks : ℕ
  last : Fin nmlfq → Slot
  initproc : Slot

/-- A part of a system call of a process. -/
inductive Call
  | alloc (q : Slot) (ok : Bool)
  | ready (q : Slot)
  | undo (q : Slot)
  | prepare (chan : Chan)
  | wake (chan : Chan) (q : Slot)
  | kill (pid : ℤ) (q : Slot)
  | setkilled (q : Slot)
  | reap (q : Slot)
  deriving DecidableEq, Repr

/-- Whether a pid is handed out. -/
def Call.isAlloc : Call → Bool
  | .alloc _ _ => true
  | _ => false

namespace Globals

variable (k : Globals)

/-- Writing to one process. -/
def modify (p : Slot) (f : Proc → Proc) : Globals := { k with table := k.table.modify p f }

/-- After `procinit` and `userinit`. -/
def boot : Globals where
  table := Table.modify (fun _ => .zero) 0 fun x => { x.alloc 1 0 with state := .runnable }
  nextpid := 2
  ticks := 0
  last _ := 0
  initproc := 0

/-- `allocproc` from `found:` on; it fails if a page cannot be had. -/
def allocproc (q : Slot) (ok : Bool) : Globals :=
  { k.modify q fun x => if ok then x.alloc k.nextpid k.ticks else x.free with
    nextpid := int (k.nextpid + 1) }

/-- One part of a system call of `r`: `allocproc` at a slot found free, the two ends of `kfork`,
`sleep_prepare`, one round of `wakeup` or `kkill`, `setkilled`, and the `freeproc` of `kwait`. -/
def call (r : Slot) : Call → Option Globals
  | .alloc q ok => if (k.table q).state = .unused then some (k.allocproc q ok) else none
  | .ready q =>
    if (k.table q).state = .used then
      some (k.modify q fun x =>
        { x with name := (k.table r).name, parent := some r, state := .runnable })
    else none
  | .undo q => if (k.table q).state = .used then some (k.modify q Proc.free) else none
  | .prepare chan => some (k.modify r ({ · with chan := some chan }))
  | .wake chan q => some (k.modify q (·.wake chan))
  | .kill pid q => if (k.table q).pid = pid then some (k.modify q Proc.kill) else none
  | .setkilled q => some (k.modify q ({ · with killed := true }))
  | .reap q =>
    if (k.table q).parent = some r ∧ (k.table q).state = .zombie then
      some (k.modify q fun x => { x with parent := none }.free)
    else none

/-- `clockintr` on CPU 0. -/
def clockintr : Globals := { k with ticks := uint (k.ticks + 1), table := k.table.wakeup .ticks }

/-- `mlfq_boost`. -/
def mlfqBoost : Globals := { k with table := fun q => (k.table q).boost }

/-- `yield`, up to `sched`. -/
def yield (r : Slot) : Globals := k.modify r ({ · with state := .runnable })

/-- `kexit`, from `acquire(&wait_lock)` to `sched`; `init` may not exit. -/
def kexit (r : Slot) (status : ℤ) : Option Globals :=
  if r = k.initproc then none
  else
    let t := k.table.reparent r k.initproc
    let t := match (k.table r).parent with
      | none => t
      | some parent => t.wakeup (.proc parent)
    some { k with table := t.modify r (·.exit status k.ticks) }

/-- The scheduler, from its choice up to `swtch`. -/
def dispatch (p : Slot) : Globals := k.modify p (·.dispatch k.ticks)

/-- The choice of the MLFQ scheduler, with the pointer of the queue. -/
def chooseMlfq : Option (Slot × Globals) :=
  (k.table.pickMlfq k.last).map fun (q, p) => (p, { k with last := Function.update k.last q p })

theorem table_boot_of_ne {q : Slot} (h : q ≠ 0) : boot.table q = .zero :=
  Table.modify_of_ne (t := fun _ => .zero) (f := fun x => { x.alloc 1 0 with state := .runnable }) h

/-! ## What a call does -/

variable {k k' : Globals} {r q : Slot} {c : Call}

/-- What a call, if there is one, makes of process `q`: it nudges it, creates it, gets it going, or
frees it. -/
inductive Touched (k : Globals) (c : Option Call) (q : Slot) (x : Proc) : Proc → Prop
  | nudged {y} (h : Nudged x y) : Touched k c q x y
  | alloc (hc : c = some (.alloc q true)) (h : x.state = .unused) :
    Touched k c q x (x.alloc k.nextpid k.ticks)
  | allocFailed (h : x.state = .unused) : Touched k c q x x.free
  | ready (h : x.state = .used) (name parent) :
    Touched k c q x { x with name, parent, state := .runnable }
  | freed (h : x.state = .used ∨ x.state = .zombie) (parent) :
    Touched k c q x { x with parent }.free

/-- A process that runs or waits to is only nudged. -/
theorem Touched.nudged_of {c : Option Call} {x y : Proc} (h : k.Touched c q x y)
    (hx : x.state = .running ∨ x.state = .runnable) : Nudged x y := by
  cases h with
  | nudged h => exact h
  | alloc _ h | allocFailed h | ready h => rcases hx with hx | hx <;> cases h.symm.trans hx
  | freed h => rcases hx with hx | hx <;> rcases h with h | h <;> cases h.symm.trans hx

/-- A process there is was there before, under its pid, or is new and has the next. -/
theorem Touched.alive {c : Option Call} {x y : Proc} (h : k.Touched c q x y)
    (hy : y.state ≠ .unused) :
    x.state ≠ .unused ∧ y.pid = x.pid ∨ c = some (.alloc q true) ∧ y.pid = k.nextpid := by
  cases h with
  | nudged h =>
    refine .inl ⟨fun hx => hy ?_, h.pid⟩
    rw [h.state_eq (by rw [hx]; decide), hx]
  | alloc hc => exact .inr ⟨hc, rfl⟩
  | ready hx => exact .inl ⟨by rw [hx]; decide, rfl⟩
  | allocFailed | freed => exact absurd rfl hy

/-- **A call touches processes**, and leaves the clock and the scheduler's variables alone. -/
structure Called (k : Globals) (c : Call) (k' : Globals) : Prop where
  touched : ∀ q, Touched k (some c) q (k.table q) (k'.table q)
  nextpid : k'.nextpid = if c.isAlloc then int (k.nextpid + 1) else k.nextpid
  ticks : k'.ticks = k.ticks
  last : k'.last = k.last
  initproc : k'.initproc = k.initproc

section Modify

variable {p : Slot} {f : Proc → Proc}

@[simp] theorem table_modify_self : (k.modify p f).table p = f (k.table p) := Table.modify_self

theorem table_modify_of_ne (h : q ≠ p) : (k.modify p f).table q = k.table q :=
  Table.modify_of_ne h

theorem table_allocproc {ok : Bool} : (k.allocproc p ok).table =
    k.table.modify p fun x => if ok then x.alloc k.nextpid k.ticks else x.free := rfl

@[simp] theorem table_allocproc_self {ok : Bool} : (k.allocproc p ok).table p =
    if ok then (k.table p).alloc k.nextpid k.ticks else (k.table p).free := by
  rw [table_allocproc, Table.modify_self]

theorem table_allocproc_of_ne {ok : Bool} (h : q ≠ p) : (k.allocproc p ok).table q = k.table q := by
  rw [table_allocproc, Table.modify_of_ne h]

@[simp] theorem table_dispatch_self : (k.dispatch p).table p = (k.table p).dispatch k.ticks :=
  table_modify_self

theorem table_dispatch_of_ne (h : q ≠ p) : (k.dispatch p).table q = k.table q :=
  table_modify_of_ne h

@[simp] theorem table_yield_self : (k.yield p).table p = { k.table p with state := .runnable } :=
  table_modify_self

theorem table_yield_of_ne (h : q ≠ p) : (k.yield p).table q = k.table q := table_modify_of_ne h

end Modify

theorem touched_modify {c : Option Call} {p : Slot} {f : Proc → Proc}
    (hf : Touched k c p (k.table p) (f (k.table p))) (q : Slot) :
    Touched k c q (k.table q) ((k.modify p f).table q) :=
  Table.modify_rel (fun _ x => .nudged (.refl x)) hf q

theorem called_of_call (h : k.call r c = some k') : Called k c k' := by
  cases c with
  | alloc q ok =>
    obtain ⟨hq, h⟩ := Option.ite_none_right_eq_some.mp h
    cases h
    have htouched := touched_modify (c := some (.alloc q ok)) (p := q)
      (f := fun x => if ok then x.alloc k.nextpid k.ticks else x.free) (by
        cases ok with
        | true => exact .alloc rfl hq
        | false => exact .allocFailed hq)
    exact ⟨htouched, rfl, rfl, rfl, rfl⟩
  | ready q =>
    obtain ⟨hq, h⟩ := Option.ite_none_right_eq_some.mp h
    cases h
    exact ⟨touched_modify (.ready hq _ _), rfl, rfl, rfl, rfl⟩
  | undo q =>
    obtain ⟨hq, h⟩ := Option.ite_none_right_eq_some.mp h
    cases h
    exact ⟨touched_modify (.freed (.inl hq) _), rfl, rfl, rfl, rfl⟩
  | prepare chan =>
    cases h
    have hnudged : Nudged (k.table r) { k.table r with chan := some chan } :=
      ⟨.inl rfl, rfl, rfl, rfl, rfl, rfl, rfl, rfl, rfl, rfl⟩
    exact ⟨touched_modify (.nudged hnudged), rfl, rfl, rfl, rfl⟩
  | wake chan q =>
    cases h
    exact ⟨touched_modify (.nudged (nudged_wake _ _)), rfl, rfl, rfl, rfl⟩
  | kill pid q =>
    obtain ⟨-, h⟩ := Option.ite_none_right_eq_some.mp h
    cases h
    exact ⟨touched_modify (.nudged (nudged_kill _)), rfl, rfl, rfl, rfl⟩
  | setkilled q =>
    cases h
    have hnudged : Nudged (k.table q) { k.table q with killed := true } :=
      ⟨.inl rfl, rfl, rfl, rfl, rfl, rfl, rfl, rfl, rfl, rfl⟩
    exact ⟨touched_modify (.nudged hnudged), rfl, rfl, rfl, rfl⟩
  | reap q =>
    obtain ⟨hq, h⟩ := Option.ite_none_right_eq_some.mp h
    cases h
    exact ⟨touched_modify (.freed (.inr hq.2) none), rfl, rfl, rfl, rfl⟩

/-- Only a running process gets the kernel to do something; others are nudged by a clock tick… -/
theorem nudged_clockintr (k : Globals) (q : Slot) : Nudged (k.table q) (k.clockintr.table q) :=
  nudged_wake _ _

/-- …and by an exit, which makes a zombie of the process. -/
theorem nudged_kexit {status : ℤ} (h : k.kexit r status = some k') :
    (∀ q, q ≠ r → Nudged (k.table q) (k'.table q)) ∧
      (∃ x, Nudged (k.table r) x ∧ k'.table r = x.exit status k.ticks) ∧
      k'.nextpid = k.nextpid ∧ k'.ticks = k.ticks ∧ k'.last = k.last ∧
      k'.initproc = k.initproc := by
  obtain ⟨-, h⟩ := Option.ite_none_left_eq_some.mp h
  have hnudged : ∀ t : Table, t = (match (k.table r).parent with
      | none => k.table.reparent r k.initproc
      | some parent => (k.table.reparent r k.initproc).wakeup (.proc parent)) →
      ∀ q, Nudged (k.table q) (t q) := by
    rintro t rfl q
    split
    · exact Table.nudged_reparent _ _ _ _
    · exact (Table.nudged_reparent _ _ _ _).trans (nudged_wake _ _)
  cases h
  refine ⟨fun q hq => ?_, ⟨_, hnudged _ rfl r, ?_⟩, rfl, rfl, rfl, rfl⟩
  · dsimp only
    rw [Table.modify_of_ne hq]
    exact hnudged _ rfl q
  · dsimp only
    rw [Table.modify_self]

end Globals

end MiniProject.Kernel
