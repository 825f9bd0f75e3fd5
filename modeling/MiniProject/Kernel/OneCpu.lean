import MiniProject.Kernel.Globals
import MiniProject.Machinery.Runs

/-!
# Kernel/OneCpu — the kernel on one CPU

A scheduler is what the loop of `scheduler()` does each time round, up to `swtch` or `wfi`; that is
one step here.  Between looks, interrupts come at any time, and the process that runs calls the
kernel, sleeps, exits, or loses the CPU to the clock.  `Uni.Kept` is all that a step other than a
look does to a process.
-/

namespace MiniProject.Kernel

/-! ## Schedulers -/

/-- How a turn of the scheduler's loop ends. -/
inductive Next
  | swtch (p : Slot)
  | again
  | wfi
  deriving DecidableEq, Repr

/-- The loop of `scheduler()`, with the locals it keeps from turn to turn. -/
structure Scheduler where
  build : Build
  Locals : Type
  init : Locals
  look : Locals → Globals → Next × Locals × Globals

/-- `cur != 0 && cur - last_boost_tick >= BOOST_TICKS`. -/
def boostDue (cur lastBoostTick : ℕ) : Prop :=
  cur ≠ 0 ∧ boostTicks ≤ uint (cur + (2 ^ 32 - lastBoostTick))

instance (cur lastBoostTick : ℕ) : Decidable (boostDue cur lastBoostTick) :=
  inferInstanceAs (Decidable (_ ∧ _))

/-- The MLFQ scheduler from `chosen = 0` on. -/
def mlfqPick (lastBoostTick : ℕ) (k : Globals) : Next × ℕ × Globals :=
  match k.chooseMlfq with
  | some (p, k) => (.swtch p, lastBoostTick, k)
  | none => (.wfi, lastBoostTick, k)

/-- The MLFQ scheduler; its local is `last_boost_tick`. -/
abbrev mlfq : Scheduler where
  build := .mlfq
  Locals := ℕ
  init := 0
  look lastBoostTick k :=
    if boostDue k.ticks lastBoostTick then mlfqPick k.ticks k.mlfqBoost
    else mlfqPick lastBoostTick k

/-- The FIFO scheduler; it has no `wfi`. -/
abbrev fifo : Scheduler where
  build := .fifo
  Locals := Unit
  init := ()
  look _ k :=
    match k.table.pickFifo with
    | some p => (.swtch p, (), k)
    | none => (.again, (), k)

/-! ## The machine -/

/-- Where the CPU is: with a process, in the scheduler's loop, with a tick since the last look or
not, or at its `wfi`. -/
inductive Mode
  | running (r : Slot)
  | loop (ticked : Bool)
  | idle
  deriving DecidableEq, Repr

/-- The kernel on one CPU. -/
structure Uni (sch : Scheduler) where
  globals : Globals
  locals : sch.Locals
  mode : Mode

namespace Uni

variable {sch : Scheduler}

/-- What can happen next.  `tickKilled` is a timer interrupt in user mode that finds the process
killed; `wake` is one round of a `wakeup` by an interrupt handler. -/
inductive Event
  | look
  | tick
  | tickKilled
  | wake (chan : Chan) (q : Slot)
  | call (c : Call)
  | sleep
  | exit (status : ℤ)
  deriving DecidableEq, Repr

/-- Whether the clock goes on. -/
def Event.isTick : Event → Bool
  | .tick | .tickKilled => true
  | _ => false

/-- Whether the process that runs asks to give up the CPU, or has to exit. -/
def Event.endsTurn : Event → Bool
  | .tickKilled | .sleep | .exit _ => true
  | _ => false

/-- The call of the process that runs. -/
def Event.call? : Event → Option Call
  | .call c => some c
  | _ => none

/-- Whether a pid is handed out. -/
def Event.isAlloc (e : Event) : Bool := e.call?.any Call.isAlloc

/-- `userinit` is done, and the scheduler about to start. -/
def boot (sch : Scheduler) : Uni sch := ⟨.boot, sch.init, .loop false⟩

/-- `c->proc`. -/
def cur (s : Uni sch) : Option Slot :=
  match s.mode with
  | .running r => some r
  | _ => none

/-- Where a turn of the loop leads. -/
def land : Next × sch.Locals × Globals → Uni sch
  | (.swtch p, locals, k) => ⟨k.dispatch p, locals, .running p⟩
  | (.again, locals, k) => ⟨k, locals, .loop false⟩
  | (.wfi, locals, k) => ⟨k, locals, .idle⟩

/-- One turn of the scheduler's loop. -/
def look (s : Uni sch) : Uni sch := land (sch.look s.locals s.globals)

/-- `clockintr`, and `usertrap` or `kerneltrap` behind it; that a charge never reads past
`mlfq_slice` is `Smp.inBand_run`. -/
def tick (s : Uni sch) : Uni sch :=
  let k := s.globals.clockintr
  let k := match s.mode with
    | .running r => (k.modify r fun x => (x.charge sch.build).getD x).yield r
    | _ => k
  { s with globals := k, mode := .loop true }

/-- A step. -/
def step (s : Uni sch) : Event → Option (Uni sch)
  | .look =>
    match s.mode with
    | .loop _ => some s.look
    | _ => none
  | .tick => some s.tick
  | .tickKilled => s.cur.bind fun r =>
    if (s.globals.table r).killed then
      (s.globals.clockintr.kexit r (-1)).map fun k => { s with globals := k, mode := .loop true }
    else none
  | .wake chan q => some
    { s with
      globals := s.globals.modify q (·.wake chan)
      mode := if s.mode = .idle then .loop false else s.mode }
  | .call c => s.cur.bind fun r => (s.globals.call r c).map fun k => { s with globals := k }
  | .sleep => s.cur.map fun r =>
    if (s.globals.table r).chan = none then s
    else { s with globals := s.globals.modify r (·.sleep sch.build), mode := .loop false }
  | .exit status => s.cur.bind fun r =>
    (s.globals.kexit r status).map fun k => { s with globals := k, mode := .loop false }

/-! ## What a step does -/

variable {s s' : Uni sch} {e : Event} {p q r : Slot}

theorem land_swtch (locals : sch.Locals) (k : Globals) :
    land (.swtch p, locals, k) = (⟨k.dispatch p, locals, .running p⟩ : Uni sch) := rfl

theorem cur_eq_some : s.cur = some r ↔ s.mode = .running r := by
  rw [cur]
  cases s.mode <;> simp

/-- What a step other than a look does to a process: what a call does, or it gives up the CPU. -/
inductive Fate (s s' : Uni sch) (e : Event) (q : Slot) : Prop
  | touched (h : s.globals.Touched e.call? q (s.globals.table q) (s'.globals.table q))
    (hcur : s'.cur = some q ↔ s.cur = some q)
  | left (hcur : s.cur = some q) (hnone : s'.cur = none)
    (hpid : (s'.globals.table q).pid = (s.globals.table q).pid)
    (hstate : (s'.globals.table q).state = .runnable ∨ (s'.globals.table q).state = .sleeping ∨
      (s'.globals.table q).state = .zombie)

/-- Everything else a step other than a look does. -/
structure Kept (s s' : Uni sch) (e : Event) : Prop where
  fate : ∀ q, Fate s s' e q
  ticks : s'.globals.ticks = if e.isTick then uint (s.globals.ticks + 1) else s.globals.ticks
  last : s'.globals.last = s.globals.last
  locals : s'.locals = s.locals
  nextpid : s'.globals.nextpid =
    if e.isAlloc then int (s.globals.nextpid + 1) else s.globals.nextpid
  ticked : s'.mode = .loop true ↔ e.isTick ∨ s.mode = .loop true

/-- No process comes or goes. -/
theorem fate_of_touched (hcur : s'.cur = s.cur)
    (h : ∀ q, s.globals.Touched e.call? q (s.globals.table q) (s'.globals.table q)) (q : Slot) :
    Fate s s' e q := .touched (h q) (by rw [hcur])

/-- The process gives up the CPU. -/
theorem fate_of_left (hr : s.cur = some r) (hnone : s'.cur = none)
    (h : ∀ q, q ≠ r → s.globals.Touched e.call? q (s.globals.table q) (s'.globals.table q))
    (hpid : (s'.globals.table r).pid = (s.globals.table r).pid)
    (hstate : (s'.globals.table r).state = .runnable ∨ (s'.globals.table r).state = .sleeping ∨
      (s'.globals.table r).state = .zombie) (q : Slot) : Fate s s' e q := by
  by_cases hq : q = r
  · subst hq
    exact .left hr hnone hpid hstate
  · refine .touched (h q hq) ?_
    rw [hnone, hr]
    exact iff_of_false nofun fun h => hq (Option.some.inj h).symm

theorem not_ticked (hr : s.cur = some r) : s.mode ≠ .loop true := by
  rw [cur_eq_some.mp hr]
  nofun

theorem kept_tick (s : Uni sch) : Kept s s.tick .tick := by
  have hclock (q : Slot) := Globals.nudged_clockintr s.globals q
  obtain ⟨k, locals, mode⟩ := s
  cases mode with
  | running r =>
    refine ⟨fate_of_left (r := r) rfl rfl (fun q hq => ?_) ?_ ?_, rfl, rfl, rfl, rfl,
      iff_of_true rfl (.inl rfl)⟩
    · refine .nudged ?_
      dsimp only [tick]
      rw [Globals.table_yield_of_ne hq, Globals.table_modify_of_ne hq]
      exact hclock q
    · dsimp only [tick]
      rw [Globals.table_yield_self, Globals.table_modify_self, Proc.pid_charge]
      exact (hclock r).pid
    · dsimp only [tick]
      rw [Globals.table_yield_self]
      exact .inl rfl
  | loop | idle =>
    exact ⟨fate_of_touched rfl fun q => .nudged (hclock q), rfl, rfl, rfl, rfl,
      iff_of_true rfl (.inl rfl)⟩

/-- An exit, by a process that the clock may have hit first. -/
theorem kept_of_kexit {k k' : Globals} {status : ℤ} (hr : s.cur = some r)
    (halloc : e.isAlloc = false)
    (hk : ∀ q, Nudged (s.globals.table q) (k.table q)) (hlast : k.last = s.globals.last)
    (hnextpid : k.nextpid = s.globals.nextpid)
    (hticks : k.ticks = if e.isTick then uint (s.globals.ticks + 1) else s.globals.ticks)
    (h : k.kexit r status = some k') : Kept s ⟨k', s.locals, .loop e.isTick⟩ e := by
  obtain ⟨hothers, ⟨x, hx, hxr⟩, hnextpid', hticks', hlast', -⟩ := Globals.nudged_kexit h
  refine ⟨fate_of_left hr rfl (fun q hq => .nudged ((hk q).trans (hothers q hq))) ?_ ?_,
    hticks'.trans hticks, hlast'.trans hlast, rfl, ?_, ?_⟩
  · dsimp only
    rw [hxr]
    exact hx.pid.trans (hk r).pid
  · dsimp only
    rw [hxr]
    exact .inr (.inr rfl)
  · rw [halloc]
    exact hnextpid'.trans hnextpid
  · simp [not_ticked hr]

/-- **What a step other than a look does.** -/
theorem kept_of_step (hne : e ≠ .look) (h : step s e = some s') : Kept s s' e := by
  cases e with
  | look => exact absurd rfl hne
  | tick =>
    cases h
    exact kept_tick s
  | tickKilled =>
    obtain ⟨r, hr, h⟩ := Option.bind_eq_some_iff.mp h
    obtain ⟨-, h⟩ := Option.ite_none_right_eq_some.mp h
    obtain ⟨k, hk, rfl⟩ := Option.map_eq_some_iff.mp h
    have hclock := Globals.nudged_clockintr s.globals
    exact kept_of_kexit (e := .tickKilled) hr rfl hclock rfl rfl rfl hk
  | wake chan q =>
    cases h
    have htouched := Globals.touched_modify (k := s.globals) (c := none) (p := q)
      (f := (·.wake chan)) (.nudged (nudged_wake _ chan))
    obtain ⟨k, locals, mode⟩ := s
    refine ⟨fate_of_touched ?_ htouched, rfl, rfl, rfl, rfl, ?_⟩
    · cases mode <;> rfl
    · cases mode <;> simp [Event.isTick]
  | call c =>
    obtain ⟨r, -, h⟩ := Option.bind_eq_some_iff.mp h
    obtain ⟨k, hk, rfl⟩ := Option.map_eq_some_iff.mp h
    have hcalled := Globals.called_of_call hk
    exact ⟨fate_of_touched rfl hcalled.touched, hcalled.ticks, hcalled.last, rfl, hcalled.nextpid,
      by simp [Event.isTick]⟩
  | sleep =>
    obtain ⟨r, hr, rfl⟩ := Option.map_eq_some_iff.mp h
    split
    · exact ⟨fate_of_touched rfl fun q => .nudged (.refl _), rfl, rfl, rfl, rfl,
        by simp [Event.isTick]⟩
    · refine ⟨fate_of_left hr rfl (fun q hq => ?_) ?_ ?_, rfl, rfl, rfl, rfl,
        by simp [Event.isTick, not_ticked hr]⟩
      · rw [Globals.table_modify_of_ne hq]
        exact .nudged (.refl _)
      · rw [Globals.table_modify_self]
        rfl
      · rw [Globals.table_modify_self]
        exact .inr (.inl rfl)
  | exit status =>
    obtain ⟨r, hr, h⟩ := Option.bind_eq_some_iff.mp h
    obtain ⟨k, hk, rfl⟩ := Option.map_eq_some_iff.mp h
    exact kept_of_kexit (e := .exit status) hr rfl (fun q => .refl _) rfl rfl rfl hk

/-- A process that loses the CPU without asking for it stays RUNNABLE. -/
theorem runnable_of_left (hr : s.cur = some r) (hnone : s'.cur = none) (he : e.endsTurn = false)
    (hne : e ≠ .look) (h : step s e = some s') : (s'.globals.table r).state = .runnable := by
  obtain ⟨k, locals, mode⟩ := s
  have hmode := cur_eq_some.mp hr
  dsimp only at hmode
  subst hmode
  cases e with
  | look => exact absurd rfl hne
  | tickKilled | sleep | exit => cases he
  | tick =>
    cases h
    dsimp only [tick]
    rw [Globals.table_yield_self]
  | wake =>
    cases h
    cases hnone
  | call =>
    obtain ⟨k', -, rfl⟩ := Option.map_eq_some_iff.mp h
    cases hnone

theorem unused_of_alloc {ok : Bool} (h : step s (.call (.alloc q ok)) = some s') :
    (s.globals.table q).state = .unused := by
  obtain ⟨r, -, h⟩ := Option.bind_eq_some_iff.mp h
  obtain ⟨k, hk, -⟩ := Option.map_eq_some_iff.mp h
  exact (Option.ite_none_right_eq_some.mp hk).1

/-! ## Whoever waits -/

/-- The process the CPU is with is the one that is RUNNING. -/
def Running (s : Uni sch) : Prop := ∀ r, s.cur = some r → (s.globals.table r).state = .running

/-- A process that is RUNNABLE is not with the CPU. -/
theorem Running.ne (h : s.Running) (hp : (s.globals.table p).state = .runnable) :
    s.cur ≠ some p := fun hcur => by
  rw [h p hcur] at hp
  cases hp

/-- A process that waits for the CPU is only nudged between looks. -/
theorem Kept.nudged (h : Kept s s' e) (hrun : s.Running)
    (hp : (s.globals.table p).state = .runnable) :
    Nudged (s.globals.table p) (s'.globals.table p) := by
  rcases h.fate p with ⟨ht, -⟩ | ⟨hcur, -⟩
  · exact ht.nudged_of (.inr hp)
  · exact absurd hcur (hrun.ne hp)

/-- Only a look gives the CPU to a process. -/
theorem Kept.cur (h : Kept s s' e) (hr : s'.cur = some r) : s.cur = some r := by
  rcases h.fate r with ⟨-, hcur⟩ | ⟨hcur, -⟩
  · exact hcur.mp hr
  · exact hcur

theorem Kept.running (h : Kept s s' e) (hrun : s.Running) : s'.Running := by
  intro r hr
  rcases h.fate r with ⟨ht, hcur⟩ | ⟨-, hnone, -⟩
  · have hstate := hrun r (hcur.mp hr)
    rw [(ht.nudged_of (.inl hstate)).state_eq (by rw [hstate]; decide), hstate]
  · rw [hnone] at hr
    cases hr

/-- A process there is was there before, under its pid, or is new and has the next. -/
theorem Kept.alive (h : Kept s s' e) (hrun : s.Running)
    (hq : (s'.globals.table q).state ≠ .unused) :
    (s.globals.table q).state ≠ .unused ∧
        (s'.globals.table q).pid = (s.globals.table q).pid ∨
      e = .call (.alloc q true) ∧ (s'.globals.table q).pid = s.globals.nextpid := by
  rcases h.fate q with ⟨ht, -⟩ | ⟨hcur, -, hpid, -⟩
  · rcases ht.alive hq with h | ⟨hcall, hpid⟩
    · exact .inl h
    · refine .inr ⟨?_, hpid⟩
      cases e with
      | call c => exact congrArg Event.call (Option.some.inj hcall)
      | look | tick | tickKilled | wake | sleep | exit => cases hcall
  · exact .inl ⟨by rw [hrun q hcur]; decide, hpid⟩

/-- Whatever the scheduler does, who gets the CPU is RUNNING. -/
theorem running_land (x : Next × sch.Locals × Globals) : (land x).Running := by
  obtain ⟨p | _ | _, locals, k⟩ := x
  · intro r hr
    obtain rfl : p = r := Option.some.inj hr
    rw [land_swtch]
    rw [Globals.table_dispatch_self]
    rfl
  · nofun
  · nofun

theorem Running.step (hrun : s.Running) (h : step s e = some s') : s'.Running := by
  by_cases he : e = .look
  · subst he
    rw [Uni.step] at h
    split at h
    · cases h
      exact running_land _
    · cases h
  · exact (kept_of_step he h).running hrun

theorem running_boot : (boot sch).Running := fun _ h => by cases h

end Uni

end MiniProject.Kernel
