import MiniProject.Kernel.OneCpu

/-!
# Kernel/Loop — the scheduler's loop in steps, on one CPU

`OneCpu` takes a turn of the scheduler's loop as one step.  Here a step is one round of the loop
over the table, under the lock of one process, so that interrupts come between any two of them,
where the loop leaves them on: the MLFQ and the FIFO scheduler always, the RR scheduler only at its
top, between `intr_on()` and `intr_off()`.  An interrupt is pending from `raise` to `take`.
`Loop.Fate` is what a step does to a process.
-/

namespace MiniProject.Kernel

/-! ## Interrupts -/

/-- An interrupt of the clock, or of a device, whose handler wakes what sleeps on some channels. -/
inductive Irq
  | timer
  | device (chans : List Chan)
  deriving DecidableEq, Repr

namespace Globals

variable (k : Globals)

/-- `devintr`; its handlers run to their end, with interrupts off. -/
def devintr : Irq → Globals
  | .timer => k.clockintr
  | .device chans => { k with table := chans.foldl Table.wakeup k.table }

variable {k : Globals} {q : Slot}

theorem nudged_devintr (k : Globals) (i : Irq) (q : Slot) :
    Nudged (k.table q) ((k.devintr i).table q) := by
  cases i with
  | timer => exact nudged_clockintr k q
  | device chans =>
    suffices h : ∀ t : Table, Nudged (t q) (chans.foldl Table.wakeup t q) from h k.table
    induction chans with
    | nil => exact fun t => .refl _
    | cons chan chans ih =>
      intro t
      rw [List.foldl_cons]
      exact .trans (nudged_wake _ chan) (ih (t.wakeup chan))

end Globals

/-! ## The loop -/

/-- Where the CPU is in `scheduler()`: at `intr_on()`, in `mlfq_boost`, at what is left of the loop
over the table, or at `wfi`; or with a process, and what is left of the RR scheduler's loop. -/
inductive Place
  | top
  | boost (rest : List Slot)
  | mlfqScan (rest : List (Fin nmlfq × Slot))
  | fifoScan (rest : List Slot) (chosen : Option Slot)
  | rrScan (rest : List Slot) (found : Bool)
  | idle
  | running (r : Slot) (rest : List Slot)
  deriving DecidableEq, Repr

/-- Whether interrupts are off there. -/
def Place.masked : Place → Bool
  | .rrScan _ _ | .idle => true
  | _ => false

/-- The places of a build's scheduler. -/
def Place.OfBuild (build : Build) : Place → Prop
  | .top | .running _ _ => True
  | .boost _ | .mlfqScan _ => build = .mlfq
  | .fifoScan _ _ => build = .fifo
  | .rrScan _ _ => build = .rr
  | .idle => build ≠ .fifo

/-- The loops over the queues and, from behind `mlfq_last[q]`, over the table. -/
def mlfqChecks (last : Fin nmlfq → Slot) : List (Fin nmlfq × Slot) :=
  (List.finRange nmlfq).flatMap fun q =>
    (List.range nproc).map fun i => (q, after (last q) (i + 1))

theorem mem_mlfqChecks (last : Fin nmlfq → Slot) (q : Fin nmlfq) (p : Slot) :
    (q, p) ∈ mlfqChecks last := by
  refine List.mem_flatMap.mpr ⟨q, List.mem_finRange q, List.mem_map.mpr ⟨gap (last q) p, ?_, ?_⟩⟩
  · exact List.mem_range.mpr (gap_lt _ _)
  · rw [after_gap]

/-- The kernel on one CPU, with `last_boost_tick` and the interrupts that are pending. -/
structure Loop where
  globals : Globals
  lastBoostTick : ℕ
  place : Place
  pending : List Irq

namespace Loop

/-- What can happen next: the scheduler goes on, an interrupt is raised or taken, or the process
that runs does something.  `takeKilled` is a timer interrupt in user mode that finds the process
killed. -/
inductive Event
  | go
  | raise (i : Irq)
  | take (i : Irq)
  | takeKilled
  | call (c : Call)
  | sleep
  | exit (status : ℤ)
  deriving DecidableEq, Repr

/-- The call of the process that runs. -/
def Event.call? : Event → Option Call
  | .call c => some c
  | _ => none

/-- Whether the clock goes on. -/
def Event.isTick : Event → Bool
  | .take .timer | .takeKilled => true
  | _ => false

/-- `userinit` is done, and the scheduler about to start. -/
def boot : Loop := ⟨.boot, 0, .top, []⟩

/-- The process that runs, and what is left of the RR scheduler's loop. -/
def running? (s : Loop) : Option (Slot × List Slot) :=
  match s.place with
  | .running r rest => some (r, rest)
  | _ => none

/-- `c->proc`. -/
def cur (s : Loop) : Option Slot := s.running?.map Prod.fst

variable (build : Build) (s : Loop)

/-- `swtch` returns to the scheduler. -/
def back (rest : List Slot) : Place :=
  match build with
  | .rr => .rrScan rest true
  | _ => .top

/-- Up to `swtch`. -/
def dispatch (p : Slot) (rest : List Slot) : Loop :=
  { s with globals := s.globals.dispatch p, place := .running p rest }

/-- The scheduler's next step; at `wfi` it waits for an interrupt. -/
def go : Option Loop :=
  match s.place with
  | .top =>
    match build with
    | .rr => some { s with place := .rrScan (List.finRange nproc) false }
    | .fifo => some { s with place := .fifoScan (List.finRange nproc) none }
    | .mlfq =>
      if boostDue s.globals.ticks s.lastBoostTick then
        some { s with lastBoostTick := s.globals.ticks, place := .boost (List.finRange nproc) }
      else some { s with place := .mlfqScan (mlfqChecks s.globals.last) }
  | .boost [] => some { s with place := .mlfqScan (mlfqChecks s.globals.last) }
  | .boost (p :: rest) =>
    some { s with globals := s.globals.modify p Proc.boost, place := .boost rest }
  | .mlfqScan [] => some { s with place := .idle }
  | .mlfqScan ((q, p) :: rest) =>
    if s.globals.table.waits q p then
      some ({ s with globals.last := Function.update s.globals.last q p }.dispatch p [])
    else some { s with place := .mlfqScan rest }
  | .fifoScan [] none => some { s with place := .top }
  | .fifoScan [] (some c) =>
    if (s.globals.table c).state = .runnable then some (s.dispatch c [])
    else some { s with place := .top }
  | .fifoScan (p :: rest) chosen =>
    some { s with place := .fifoScan rest (s.globals.table.chooseFifo chosen p) }
  | .rrScan [] found => some { s with place := if found then .top else .idle }
  | .rrScan (p :: rest) found =>
    if (s.globals.table p).state = .runnable then some (s.dispatch p rest)
    else some { s with place := .rrScan rest found }
  | .idle => if s.pending = [] then none else some { s with place := .top }
  | .running _ _ => none

/-- `usertrap` or `kerneltrap`: the handler runs, and the clock takes the CPU from the process. -/
def take (i : Irq) : Loop :=
  let k := s.globals.devintr i
  let pending := s.pending.erase i
  match s.place, i with
  | .running r rest, .timer =>
    { s with
      globals := (k.modify r fun x => (x.charge build).getD x).yield r
      place := back build rest
      pending }
  | _, _ => { s with globals := k, pending }

/-- A step. -/
def step : Event → Option Loop
  | .go => s.go build
  | .raise i => some { s with pending := i :: s.pending }
  | .take i => if i ∈ s.pending ∧ s.place.masked = false then some (s.take build i) else none
  | .takeKilled => s.running?.bind fun (r, rest) =>
    if .timer ∈ s.pending ∧ (s.globals.table r).killed then
      (s.globals.clockintr.kexit r (-1)).map fun k =>
        { s with globals := k, pending := s.pending.erase .timer, place := back build rest }
    else none
  | .call c => s.running?.bind fun (r, _) =>
    (s.globals.call r c).map fun k => { s with globals := k }
  | .sleep => s.running?.map fun (r, rest) =>
    if (s.globals.table r).chan = none then s
    else { s with globals := s.globals.modify r (·.sleep build), place := back build rest }
  | .exit status => s.running?.bind fun (r, rest) =>
    (s.globals.kexit r status).map fun k => { s with globals := k, place := back build rest }

/-! ## What a step does -/

variable {build : Build} {s s' : Loop} {e : Event} {p q r : Slot} {rest : List Slot}

theorem running?_eq_some : s.running? = some (r, rest) ↔ s.place = .running r rest := by
  rw [running?]
  cases s.place <;> simp

theorem cur_of_running? (h : s.running? = some (r, rest)) : s.cur = some r := by rw [cur, h]; rfl

theorem running?_of_cur (h : s.cur = none) : s.running? = none := Option.map_eq_none_iff.mp h

@[simp] theorem cur_back (k : Globals) (b : ℕ) (pending : List Irq) :
    (⟨k, b, back build rest, pending⟩ : Loop).cur = none := by
  cases build <;> rfl

/-- What a step does to a process. -/
inductive Fate (build : Build) (s s' : Loop) (e : Event) (q : Slot) : Prop
  | touched (h : s.globals.Touched e.call? q (s.globals.table q) (s'.globals.table q))
    (hcur : s'.cur = some q ↔ s.cur = some q)
  | boosted (h : s'.globals.table q = (s.globals.table q).boost) (hcur : s.cur = none)
    (hcur' : s'.cur = none)
  | dispatched (hcur : s.cur = none) (hrunnable : (s.globals.table q).state = .runnable)
    (h : s'.globals.table q = (s.globals.table q).dispatch s.globals.ticks)
    (hcur' : s'.cur = some q)
  | yielded (hcur : s.cur = some q) (hcur' : s'.cur = none) (htick : e = .take .timer) (x : Proc)
    (hx : Nudged (s.globals.table q) x)
    (h : s'.globals.table q = { (x.charge build).getD x with state := .runnable })
  | slept (hcur : s.cur = some q) (hcur' : s'.cur = none)
    (h : s'.globals.table q = (s.globals.table q).sleep build)
  | exited (hcur : s.cur = some q) (hcur' : s'.cur = none) (x : Proc)
    (hx : Nudged (s.globals.table q) x) (status : ℤ)
    (h : s'.globals.table q = x.exit status s'.globals.ticks)

/-- **What a step does**, to the clock and to every process. -/
structure Kept (build : Build) (s s' : Loop) (e : Event) : Prop where
  fate : ∀ q, Fate build s s' e q
  ticks : s'.globals.ticks = if e.isTick then uint (s.globals.ticks + 1) else s.globals.ticks

/-- No process comes or goes. -/
theorem fate_of_nudged (hcur : s'.cur = s.cur)
    (h : ∀ q, Nudged (s.globals.table q) (s'.globals.table q)) (q : Slot) :
    Fate build s s' e q := .touched (.nudged (h q)) (by rw [hcur])

theorem fate_of_move (htable : s'.globals.table = s.globals.table) (hcur : s'.cur = s.cur)
    (q : Slot) : Fate build s s' e q :=
  fate_of_nudged hcur (fun q => by rw [htable]; exact .refl _) q

/-- One process gives up the CPU. -/
theorem fate_of_left (hr : s.cur = some r) (hnone : s'.cur = none)
    (h : ∀ q, q ≠ r → Nudged (s.globals.table q) (s'.globals.table q))
    (hfate : Fate build s s' e r) (q : Slot) : Fate build s s' e q := by
  by_cases hq : q = r
  · subst hq
    exact hfate
  · refine .touched (.nudged (h q hq)) ?_
    rw [hnone, hr]
    exact iff_of_false nofun fun h => hq (Option.some.inj h).symm

/-- One process gets it. -/
theorem kept_dispatch {k : Globals} {b : ℕ} (hcur : s.cur = none)
    (htable : k.table = s.globals.table) (hticks : k.ticks = s.globals.ticks)
    (hp : (s.globals.table p).state = .runnable) (he : e.isTick = false) :
    Kept build s ⟨k.dispatch p, b, .running p rest, s.pending⟩ e := by
  refine ⟨fun q => ?_, by rw [he]; exact hticks⟩
  by_cases hq : q = p
  · subst hq
    refine .dispatched hcur hp ?_ rfl
    dsimp only
    rw [Globals.table_dispatch_self, htable, hticks]
  · refine .touched (.nudged ?_) ?_
    · dsimp only
      rw [Globals.table_dispatch_of_ne hq, htable]
      exact .refl _
    · rw [hcur]
      exact iff_of_false (fun h => hq (Option.some.inj h).symm) nofun

theorem kept_go (h : s.go build = some s') : Kept build s s' .go := by
  have hmove {place : Place} {b : ℕ} (hcur : s.cur = none)
      (hplace : (⟨s.globals, b, place, s.pending⟩ : Loop).cur = none) :
      Kept build s ⟨s.globals, b, place, s.pending⟩ .go :=
    ⟨fate_of_move rfl (hplace.trans hcur.symm), rfl⟩
  rw [go.eq_def] at h
  split at h
  all_goals rename_i hplace
  case h_12 => cases h
  all_goals have hcur : s.cur = none := by rw [cur, running?, hplace]; rfl
  case h_1 => -- `.top`
    cases build with
    | rr | fifo =>
      cases h
      exact hmove hcur rfl
    | mlfq =>
      dsimp only at h
      split at h <;> cases h <;> exact hmove hcur rfl
  case h_3 p rest => -- `.boost`
    cases h
    refine ⟨fun q => ?_, rfl⟩
    by_cases hq : q = p
    · subst hq
      exact .boosted Globals.table_modify_self hcur rfl
    · refine .touched (.nudged ?_) (by rw [hcur]; exact Iff.rfl)
      dsimp only
      rw [Globals.table_modify_of_ne hq]
      exact .refl _
  case h_5 q p rest => -- `.mlfqScan`
    split at h <;> cases h
    · rename_i hwaits
      simp only [Table.waits, decide_eq_true_eq] at hwaits
      exact kept_dispatch hcur rfl rfl hwaits.1 rfl
    · exact hmove hcur rfl
  case h_7 c => -- the end of `.fifoScan`
    split at h <;> cases h
    · exact kept_dispatch hcur rfl rfl ‹_› rfl
    · exact hmove hcur rfl
  case h_9 found => -- the end of `.rrScan`
    cases h
    cases found <;> exact hmove hcur rfl
  case h_10 p rest found => -- `.rrScan`
    split at h <;> cases h
    · exact kept_dispatch hcur rfl rfl ‹_› rfl
    · exact hmove hcur rfl
  case h_11 => -- `.idle`
    split at h <;> cases h
    exact hmove hcur rfl
  all_goals
    cases h
    exact hmove hcur rfl

/-- An exit, by a process that the clock may have hit first. -/
theorem fate_of_kexit {k k' : Globals} {status : ℤ} (hr : s.cur = some r) (hnone : s'.cur = none)
    (hk : ∀ q, Nudged (s.globals.table q) (k.table q)) (h : k.kexit r status = some k')
    (hk' : s'.globals = k') (q : Slot) : Fate build s s' e q := by
  obtain ⟨hothers, ⟨x, hx, hxr⟩, -, hticks, -⟩ := Globals.nudged_kexit h
  refine fate_of_left hr hnone (fun q hq => ?_) ?_ q
  · rw [hk']
    exact (hk q).trans (hothers q hq)
  · refine .exited hr hnone x ((hk r).trans hx) status ?_
    rw [hk', hticks, hxr]

theorem kept_take (i : Irq) : Kept build s (s.take build i) (.take i) := by
  have hirq := Globals.nudged_devintr s.globals i
  obtain ⟨k, b, place, pending⟩ := s
  have hticks : (k.devintr i).ticks = if (Event.take i).isTick then uint (k.ticks + 1)
      else k.ticks := by cases i <;> rfl
  rw [take.eq_def]
  dsimp only
  split
  · rename_i r rest
    refine ⟨fate_of_left (r := r) rfl (cur_back _ _ _) (fun q hq => ?_) ?_, hticks⟩
    · dsimp only
      rw [Globals.table_yield_of_ne hq, Globals.table_modify_of_ne hq]
      exact hirq q
    · refine .yielded rfl (cur_back _ _ _) rfl _ (hirq r) ?_
      dsimp only
      rw [Globals.table_yield_self, Globals.table_modify_self]
  · exact ⟨fate_of_nudged rfl hirq, hticks⟩

/-- **What a step does**, whatever it is. -/
theorem kept_of_step (h : step build s e = some s') : Kept build s s' e := by
  cases e with
  | go => exact kept_go h
  | raise i =>
    cases h
    exact ⟨fate_of_move rfl rfl, rfl⟩
  | take i =>
    obtain ⟨-, h⟩ := Option.ite_none_right_eq_some.mp h
    cases h
    exact kept_take i
  | takeKilled =>
    obtain ⟨⟨r, rest⟩, hr, h⟩ := Option.bind_eq_some_iff.mp h
    obtain ⟨-, h⟩ := Option.ite_none_right_eq_some.mp h
    obtain ⟨k, hk, rfl⟩ := Option.map_eq_some_iff.mp h
    refine ⟨fate_of_kexit (cur_of_running? hr) (cur_back _ _ _) (Globals.nudged_clockintr _) hk rfl,
      ?_⟩
    exact (Globals.nudged_kexit hk).2.2.2.1
  | call c =>
    obtain ⟨⟨r, rest⟩, -, h⟩ := Option.bind_eq_some_iff.mp h
    obtain ⟨k, hk, rfl⟩ := Option.map_eq_some_iff.mp h
    have hcalled := Globals.called_of_call hk
    exact ⟨fun q => .touched (hcalled.touched q) Iff.rfl, hcalled.ticks⟩
  | sleep =>
    obtain ⟨⟨r, rest⟩, hr, rfl⟩ := Option.map_eq_some_iff.mp h
    dsimp only
    split
    · exact ⟨fate_of_move rfl rfl, rfl⟩
    · have hcur := cur_of_running? hr
      refine ⟨fate_of_left hcur (cur_back _ _ _) (fun q hq => ?_) ?_, rfl⟩
      · dsimp only
        rw [Globals.table_modify_of_ne hq]
        exact .refl _
      · exact .slept hcur (cur_back _ _ _) Globals.table_modify_self
  | exit status =>
    obtain ⟨⟨r, rest⟩, hr, h⟩ := Option.bind_eq_some_iff.mp h
    obtain ⟨k, hk, rfl⟩ := Option.map_eq_some_iff.mp h
    refine ⟨fate_of_kexit (cur_of_running? hr) (cur_back _ _ _) (fun q => .refl _) hk rfl, ?_⟩
    exact (Globals.nudged_kexit hk).2.2.2.1

/-- The process the CPU is with is the one that is RUNNING. -/
def Running (s : Loop) : Prop := ∀ r, s.cur = some r → (s.globals.table r).state = .running

theorem running_boot : boot.Running := nofun

theorem Running.step (hrun : s.Running) (h : step build s e = some s') : s'.Running := by
  intro r hr
  cases (kept_of_step h).fate r with
  | touched ht hcur =>
    have hstate := hrun r (hcur.mp hr)
    rw [(ht.nudged_of (.inl hstate)).state_eq (by rw [hstate]; decide), hstate]
  | dispatched _ _ heq =>
    rw [heq]
    rfl
  | boosted _ _ hnone | yielded _ hnone | slept _ hnone | exited _ hnone =>
    rw [hnone] at hr
    cases hr

/-! ## Where a step leads -/

/-- But for the scheduler's own steps, the CPU stays where it is, or returns to the scheduler. -/
theorem place_of_step (hne : e ≠ .go) (h : step build s e = some s') :
    s'.place = s.place ∨ ∃ r rest, s.place = .running r rest ∧ s'.place = back build rest := by
  cases e with
  | go => exact absurd rfl hne
  | raise =>
    cases h
    exact .inl rfl
  | take i =>
    obtain ⟨-, h⟩ := Option.ite_none_right_eq_some.mp h
    cases h
    rw [take.eq_def]
    dsimp only
    split
    · rename_i r rest hplace
      exact .inr ⟨r, rest, hplace, rfl⟩
    · exact .inl rfl
  | takeKilled =>
    obtain ⟨⟨r, rest⟩, hr, h⟩ := Option.bind_eq_some_iff.mp h
    obtain ⟨-, h⟩ := Option.ite_none_right_eq_some.mp h
    obtain ⟨k, -, rfl⟩ := Option.map_eq_some_iff.mp h
    exact .inr ⟨r, rest, running?_eq_some.mp hr, rfl⟩
  | call c =>
    obtain ⟨⟨r, rest⟩, -, h⟩ := Option.bind_eq_some_iff.mp h
    obtain ⟨k, -, rfl⟩ := Option.map_eq_some_iff.mp h
    exact .inl rfl
  | sleep =>
    obtain ⟨⟨r, rest⟩, hr, rfl⟩ := Option.map_eq_some_iff.mp h
    dsimp only
    split
    · exact .inl rfl
    · exact .inr ⟨r, rest, running?_eq_some.mp hr, rfl⟩
  | exit status =>
    obtain ⟨⟨r, rest⟩, hr, h⟩ := Option.bind_eq_some_iff.mp h
    obtain ⟨k, -, rfl⟩ := Option.map_eq_some_iff.mp h
    exact .inr ⟨r, rest, running?_eq_some.mp hr, rfl⟩

theorem ofBuild_back : (back build rest).OfBuild build := by
  cases build <;> trivial

/-- The scheduler stays in the code of its build. -/
theorem ofBuild_step (hs : s.place.OfBuild build) (h : step build s e = some s') :
    s'.place.OfBuild build := by
  by_cases hne : e = .go
  · subst hne
    have h : s.go build = some s' := h
    rw [go.eq_def] at h
    split at h <;> rename_i hplace <;> rw [hplace] at hs
    case h_1 => -- `.top`
      cases build with
      | rr | fifo =>
        cases h
        exact rfl
      | mlfq =>
        dsimp only at h
        split at h <;> cases h <;> exact rfl
    case h_4 => -- `wfi`
      cases h
      rw [show build = .mlfq from hs]
      exact nofun
    case h_5 | h_10 =>
      split at h <;> cases h
      · trivial
      · exact hs
    case h_7 | h_11 => split at h <;> cases h <;> trivial
    case h_9 found => -- `wfi`, or the top
      cases h
      rw [show build = .rr from hs]
      cases found
      · exact nofun
      · trivial
    case h_12 => cases h
    case h_6 =>
      cases h
      trivial
    all_goals
      cases h
      exact hs
  · rcases place_of_step hne h with hplace | ⟨r, rest, -, hplace⟩
    · rwa [hplace]
    · rw [hplace]
      exact ofBuild_back

/-- In the scheduler, but for its own steps, interrupts come, where they are on, and nothing else
happens. -/
theorem eq_of_step (hne : e ≠ .go) (hcur : s.cur = none) (h : step build s e = some s') :
    (∃ i, e = .raise i ∧ s' = { s with pending := i :: s.pending }) ∨
      ∃ i, e = .take i ∧ s.place.masked = false ∧
        s' = { s with globals := s.globals.devintr i, pending := s.pending.erase i } := by
  have hnone := running?_of_cur hcur
  cases e with
  | go => exact absurd rfl hne
  | raise i =>
    cases h
    exact .inl ⟨i, rfl, rfl⟩
  | take i =>
    obtain ⟨⟨-, hmask⟩, h⟩ := Option.ite_none_right_eq_some.mp h
    refine .inr ⟨i, rfl, hmask, ?_⟩
    cases h
    rw [take.eq_def]
    split
    · rename_i r rest hplace
      rw [running?_eq_some.mpr hplace] at hnone
      cases hnone
    · rfl
  | takeKilled | call | sleep | exit =>
    rw [step, hnone] at h
    cases h

end Loop

end MiniProject.Kernel
