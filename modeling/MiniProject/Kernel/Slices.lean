import MiniProject.Kernel.Globals
import MiniProject.Machinery.Runs

/-!
# Kernel/Slices — every process is within its slice

Four functions write `queue` and `ticks_used`, and `mlfq_timer_tick` reads `mlfq_slice[p->queue]`:
on any number of CPUs, whatever they do and in whatever order, the queue of every slot is one of the
four and `ticks_used` is below the queue's slice (`inBand_run`).
-/

namespace MiniProject.Kernel

/-! ## The band -/

/-- The queue is one of the four, and the slice is not used up. -/
structure InBand (x : Proc) : Prop where
  queue_nonneg : 0 ≤ x.queue
  queue_le : x.queue ≤ 3
  ticksUsed_nonneg : 0 ≤ x.ticksUsed
  ticksUsed_lt : ∀ slice ∈ mlfqSlice x.queue, x.ticksUsed < slice

variable {x y : Proc}

theorem mlfqSlice_of_le {q : ℤ} (h : 0 ≤ q) (hle : q ≤ 3) :
    ∃ slice, mlfqSlice q = some slice ∧ 0 < slice ∧ slice ≤ 16 := by
  obtain rfl | rfl | rfl | rfl : q = 0 ∨ q = 1 ∨ q = 2 ∨ q = 3 := by omega
  · exact ⟨1, rfl, by decide, by decide⟩
  · exact ⟨4, rfl, by decide, by decide⟩
  · exact ⟨8, rfl, by decide, by decide⟩
  · exact ⟨16, rfl, by decide, by decide⟩

/-- A process at the start of its slice. -/
theorem inBand_of_zero (h : 0 ≤ x.queue) (hle : x.queue ≤ 3) (hticks : x.ticksUsed = 0) :
    InBand x := by
  refine ⟨h, hle, by omega, fun slice hslice => ?_⟩
  obtain ⟨slice', hslice', hpos, -⟩ := mlfqSlice_of_le h hle
  obtain rfl : slice' = slice := Option.some.inj (hslice'.symm.trans hslice)
  omega

/-- Only two fields count. -/
theorem InBand.congr (h : InBand x) (hqueue : y.queue = x.queue)
    (hticks : y.ticksUsed = x.ticksUsed) : InBand y := by
  refine ⟨?_, ?_, ?_, ?_⟩
  · rw [hqueue]
    exact h.queue_nonneg
  · rw [hqueue]
    exact h.queue_le
  · rw [hticks]
    exact h.ticksUsed_nonneg
  · rw [hqueue, hticks]
    exact h.ticksUsed_lt

theorem Nudged.inBand (h : Nudged x y) (hx : InBand x) : InBand y := hx.congr h.queue h.ticksUsed

theorem InBand.sleep (h : InBand x) (build : Build) : InBand (x.sleep build) := by
  rw [Proc.sleep]
  split
  · exact inBand_of_zero h.queue_nonneg h.queue_le rfl
  · exact h.congr rfl rfl

theorem InBand.boost (h : InBand x) : InBand x.boost := by
  rw [Proc.boost]
  split
  · exact inBand_of_zero (Int.le_refl 0) (by decide : (0 : ℤ) ≤ 3) rfl
  · exact h

theorem InBand.touched {k : Globals} {c : Option Call} {q : Slot} (h : InBand x)
    (ht : k.Touched c q x y) : InBand y := by
  cases ht with
  | nudged hxy => exact hxy.inBand h
  | alloc => exact inBand_of_zero (Int.le_refl 0) (by decide : (0 : ℤ) ≤ 3) rfl
  | allocFailed | ready | freed => exact h.congr rfl rfl

/-- **What a tick does**: it counts, and a slice used up leads to the next queue, if there is
one. -/
theorem mlfqTimerTick_eq {slice : ℤ} (hslice : mlfqSlice x.queue = some slice)
    (h : 0 ≤ x.ticksUsed) (hlt : x.ticksUsed + 1 < 2 ^ 31) :
    x.mlfqTimerTick = some
      (if slice ≤ x.ticksUsed + 1 then
        { x with
          cpuTicks := int (x.cpuTicks + 1)
          queue := if x.queue < nmlfq - 1 then x.queue + 1 else x.queue
          ticksUsed := 0 }
      else { x with cpuTicks := int (x.cpuTicks + 1), ticksUsed := x.ticksUsed + 1 }) := by
  have hint : int (x.ticksUsed + 1) = x.ticksUsed + 1 := int_of_lt (by omega) hlt
  rw [Proc.mlfqTimerTick]
  dsimp only
  rw [hslice, hint]
  rfl

/-- **A tick reads inside `mlfq_slice`**, and leaves the process in its band. -/
theorem InBand.mlfqTimerTick (h : InBand x) : ∃ y, x.mlfqTimerTick = some y ∧ InBand y := by
  obtain ⟨hqueue, hle, hticks, hlt⟩ := h
  obtain ⟨slice, hslice, hpos, hmax⟩ := mlfqSlice_of_le hqueue hle
  have hused := hlt slice hslice
  refine ⟨_, mlfqTimerTick_eq hslice hticks (by omega), ?_⟩
  split
  · have hlast : (nmlfq : ℤ) = 4 := rfl
    refine inBand_of_zero ?_ ?_ rfl
    · dsimp only
      split <;> omega
    · dsimp only
      split <;> omega
  · rename_i hle'
    refine ⟨hqueue, hle, ?_, fun slice' hslice' => ?_⟩
    · dsimp only
      omega
    · obtain rfl : slice = slice' := Option.some.inj (hslice.symm.trans hslice')
      exact Int.lt_of_not_ge hle'

/-! ## Many CPUs -/

/-- The MLFQ kernel on `n` CPUs: `cpus[c].proc`, and whether `mlfq_slice` was ever read past its
end. -/
structure Smp (n : ℕ) where
  globals : Globals
  cur : Fin n → Option Slot
  past : Bool

namespace Smp

variable {n : ℕ}

/-- What can happen next; `tick` and `yield` are the two things a timer interrupt does to the
process it hits, `boost` and `wake` are one round of a loop. -/
inductive Event (n : ℕ)
  | clock
  | boost (q : Slot)
  | pass (c : Fin n)
  | tick (c : Fin n)
  | yield (c : Fin n)
  | call (c : Fin n) (x : Call)
  | sleep (c : Fin n)
  | exit (c : Fin n) (status : ℤ)
  | wake (chan : Chan) (q : Slot)
  deriving DecidableEq, Repr

/-- No process runs yet. -/
def boot (n : ℕ) : Smp n := ⟨.boot, fun _ => none, false⟩

/-- CPU `c` goes back to its scheduler. -/
def leave (s : Smp n) (c : Fin n) (globals : Globals) : Smp n :=
  { s with globals, cur := Function.update s.cur c none }

/-- A step. -/
def step (s : Smp n) : Event n → Option (Smp n)
  | .clock => some { s with globals := s.globals.clockintr }
  | .boost q => some { s with globals := s.globals.modify q Proc.boost }
  | .pass c =>
    if s.cur c = none then
      s.globals.chooseMlfq.map fun (p, globals) =>
        { s with globals := globals.dispatch p, cur := Function.update s.cur c (some p) }
    else none
  | .tick c => (s.cur c).map fun p =>
    match (s.globals.table p).mlfqTimerTick with
    | some x => { s with globals := s.globals.modify p fun _ => x }
    | none => { s with past := true }
  | .yield c => (s.cur c).map fun p => s.leave c (s.globals.yield p)
  | .call c x => (s.cur c).bind fun p =>
    (s.globals.call p x).map fun globals => { s with globals }
  | .sleep c => (s.cur c).map fun p =>
    if (s.globals.table p).chan = none then s
    else s.leave c (s.globals.modify p (·.sleep .mlfq))
  | .exit c status => (s.cur c).bind fun p => (s.globals.kexit p status).map (s.leave c)
  | .wake chan q => some { s with globals := s.globals.modify q (·.wake chan) }

/-- Every process is in the band, and no read was outside. -/
structure Banded (s : Smp n) : Prop where
  inBand : ∀ q, InBand (s.globals.table q)
  past : s.past = false

theorem banded_boot : (boot n).Banded := by
  refine ⟨fun q => ?_, rfl⟩
  have hzero : InBand .zero := inBand_of_zero (Int.le_refl 0) (by decide : (0 : ℤ) ≤ 3) rfl
  refine Table.modify_rel (t := fun _ => .zero) (p := 0)
    (f := fun x => { x.alloc 1 0 with state := .runnable })
    (R := fun _ x y => InBand x → InBand y) (fun _ _ => id) (fun _ => ?_) q hzero
  exact inBand_of_zero (Int.le_refl 0) (by decide : (0 : ℤ) ≤ 3) rfl

variable {s s' : Smp n} {e : Event n}

/-- Writing a process that stays in the band. -/
theorem Banded.modify (h : s.Banded) {p : Slot} {f : Proc → Proc}
    (hf : InBand (s.globals.table p) → InBand (f (s.globals.table p))) (q : Slot) :
    InBand ((s.globals.modify p f).table q) :=
  Table.modify_rel (R := fun _ x y => InBand x → InBand y) (fun _ _ => id) hf q (h.inBand q)

theorem Banded.step (h : s.Banded) (hstep : step s e = some s') : s'.Banded := by
  cases e with
  | clock =>
    cases hstep
    exact ⟨fun q => (Globals.nudged_clockintr _ q).inBand (h.inBand q), h.past⟩
  | boost q =>
    cases hstep
    exact ⟨h.modify fun hq => hq.boost, h.past⟩
  | pass c =>
    obtain ⟨-, hstep⟩ := Option.ite_none_right_eq_some.mp hstep
    obtain ⟨⟨p, globals⟩, hchoose, rfl⟩ := Option.map_eq_some_iff.mp hstep
    obtain ⟨⟨q, p'⟩, -, hglobals⟩ := Option.map_eq_some_iff.mp hchoose
    cases hglobals
    exact ⟨h.modify fun hp => hp.congr rfl rfl, h.past⟩
  | tick c =>
    obtain ⟨p, -, rfl⟩ := Option.map_eq_some_iff.mp hstep
    obtain ⟨x, hx, hband⟩ := (h.inBand p).mlfqTimerTick
    rw [hx]
    exact ⟨h.modify fun _ => hband, h.past⟩
  | yield c =>
    obtain ⟨p, -, rfl⟩ := Option.map_eq_some_iff.mp hstep
    exact ⟨h.modify fun hp => hp.congr rfl rfl, h.past⟩
  | call c x =>
    obtain ⟨p, -, hstep⟩ := Option.bind_eq_some_iff.mp hstep
    obtain ⟨globals, hcall, rfl⟩ := Option.map_eq_some_iff.mp hstep
    exact ⟨fun q => (h.inBand q).touched ((Globals.called_of_call hcall).touched q), h.past⟩
  | sleep c =>
    obtain ⟨p, -, rfl⟩ := Option.map_eq_some_iff.mp hstep
    split
    · exact h
    · exact ⟨h.modify fun hp => hp.sleep .mlfq, h.past⟩
  | exit c status =>
    obtain ⟨p, -, hstep⟩ := Option.bind_eq_some_iff.mp hstep
    obtain ⟨globals, hexit, rfl⟩ := Option.map_eq_some_iff.mp hstep
    obtain ⟨hothers, ⟨x, hx, hp⟩, -⟩ := Globals.nudged_kexit hexit
    refine ⟨fun q => ?_, h.past⟩
    by_cases hq : q = p
    · subst hq
      have hband : InBand x := hx.inBand (h.inBand q)
      rw [leave, hp]
      exact hband.congr rfl rfl
    · exact (hothers q hq).inBand (h.inBand q)
  | wake chan q =>
    cases hstep
    exact ⟨h.modify fun hq => (nudged_wake _ chan).inBand hq, h.past⟩

/-- **Every process of every reachable state is within its slice**, and no tick read past
`mlfq_slice`. -/
theorem inBand_run {es : List (Event n)} (h : run step (boot n) es = some s) :
    (∀ q, InBand (s.globals.table q)) ∧ s.past = false :=
  have hbanded : s.Banded := invariant' (fun _ _ _ hs hstep => hs.step hstep) banded_boot h
  ⟨hbanded.inBand, hbanded.past⟩

/-- `init` runs, forks, and is ticked down to the second queue while the child is on the other
CPU. -/
theorem inBand_run_two : ∃ s : Smp 2,
    run step (boot 2) [.pass 0, .call 0 (.alloc 1 true), .call 0 (.ready 1), .pass 1, .clock,
      .tick 0, .yield 0, .boost 1] = some s ∧
      (∀ q, InBand (s.globals.table q)) ∧ s.past = false := by
  obtain ⟨s, hs⟩ := Option.isSome_iff_exists.mp (show (run step (boot 2) [.pass 0,
    .call 0 (.alloc 1 true), .call 0 (.ready 1), .pass 1, .clock, .tick 0, .yield 0,
    .boost 1]).isSome from rfl)
  exact ⟨s, hs, inBand_run hs⟩

end Smp

end MiniProject.Kernel
