import Mathlib.Algebra.BigOperators.Group.Finset.Piecewise
import Mathlib.Algebra.Order.BigOperators.Group.Finset
import MiniProject.Kernel.Loop

/-!
# Kernel/Times — what the scheduling statistics say

`creation_time`, `first_run_time`, `end_time` and `cpu_ticks` are written in five places.  On one
CPU, whichever the scheduler, they are in order for every process that exits, and no tick is charged
twice, so that `compare_schedulers.py` computes no negative time (`times_run`).
-/

namespace MiniProject.Kernel

/-! ## The statistics -/

/-- The numbers of a line `PROCSTATS,…` that `kexit` prints. -/
structure Row where
  creation : ℤ
  firstRun : ℤ
  fin : ℤ
  cpuTicks : ℤ

/-- `printk` in `kexit`; `%d` prints an `int`. -/
def Proc.row (x : Proc) : Row :=
  ⟨int x.creationTime, x.firstRunTime, int x.endTime, x.cpuTicks⟩

namespace Row

variable (r : Row)

/-- `t` of `compute_metrics`. -/
def turnaround : ℤ := r.fin - r.creation

/-- `wait`. -/
def waiting : ℤ := r.turnaround - r.cpuTicks

/-- `resp`. -/
def response : ℤ := r.firstRun - r.creation

end Row

/-! ## The history -/

/-- The kernel with its history: the tick of the first dispatch of each process, and how often
`first_run_time` was written since its creation. -/
structure Timed where
  loop : Loop
  firstRun : Slot → Option ℕ
  writes : Slot → ℕ

namespace Timed

open Loop (Event)

/-- `userinit` is done. -/
def boot : Timed := ⟨.boot, fun _ => none, fun _ => 0⟩

variable (build : Build) (s : Timed)

/-- The process of which a step makes a new one. -/
def created : Event → Option Slot
  | .call (.alloc q _) => some q
  | _ => none

/-- The process that gets the CPU from the scheduler. -/
def dispatched (loop : Loop) : Option Slot := if s.loop.cur = none then loop.cur else none

/-- A step. -/
def step (e : Event) : Option Timed :=
  (s.loop.step build e).map fun loop =>
    { loop
      firstRun := fun q =>
        if created e = some q then none
        else if s.dispatched loop = some q then (s.firstRun q).or (some s.loop.globals.ticks)
        else s.firstRun q
      writes := fun q =>
        if created e = some q then 0
        else if s.dispatched loop = some q ∧ (s.loop.globals.table q).firstRunTime = -1 then
          s.writes q + 1
        else s.writes q }

/-- The ticks that a step charges to all processes together. -/
def charged (e : Event) : ℕ :=
  match s.step build e with
  | none => 0
  | some s' => ∑ q, ((s'.loop.globals.table q).cpuTicks - (s.loop.globals.table q).cpuTicks).toNat

/-! ## What holds all along -/

/-- The times of a process, at tick `now`. -/
structure Dated (now : ℕ) (x : Proc) (firstRun : Option ℕ) (writes : ℕ) : Prop where
  cpuTicks_nonneg : 0 ≤ x.cpuTicks
  cpuTicks_le : x.state ≠ .unused → x.creationTime + x.cpuTicks ≤ now
  waiting : x.state ≠ .unused → firstRun = none →
    x.firstRunTime = -1 ∧ writes = 0 ∧ (x.state = .used ∨ x.state = .runnable)
  ran : x.state ≠ .unused → ∀ t, firstRun = some t →
    x.firstRunTime = t ∧ writes = 1 ∧ x.creationTime ≤ t ∧ t ≤ now
  ended : x.state = .zombie → ∀ t, firstRun = some t →
    t ≤ x.endTime ∧ x.creationTime + x.cpuTicks ≤ x.endTime ∧ x.endTime ≤ now

variable {now now' : ℕ} {x y : Proc} {firstRun : Option ℕ} {writes : ℕ}

/-- Time goes on. -/
theorem Dated.mono (h : Dated now x firstRun writes) (hle : now ≤ now') :
    Dated now' x firstRun writes := by
  refine ⟨h.cpuTicks_nonneg, fun hx => ?_, h.waiting, fun hx t ht => ?_, fun hx t ht => ?_⟩
  · have hcpu := h.cpuTicks_le hx
    omega
  · obtain ⟨hfirst, hwrites, hcreated, hnow⟩ := h.ran hx t ht
    exact ⟨hfirst, hwrites, hcreated, hnow.trans hle⟩
  · obtain ⟨hend, hcpu, hnow⟩ := h.ended hx t ht
    exact ⟨hend, hcpu, hnow.trans hle⟩

/-- There is nothing to say of a slot that is free. -/
theorem dated_of_unused (hx : x.state = .unused) (hcpu : 0 ≤ x.cpuTicks) :
    Dated now x firstRun writes := by
  refine ⟨hcpu, fun h => absurd hx h, fun h => absurd hx h, fun h => absurd hx h, fun h => ?_⟩
  rw [hx] at h
  cases h

/-- A change of state that makes no zombie, and leaves the times alone. -/
theorem Dated.congr (h : Dated now x firstRun writes)
    (hunused : y.state ≠ .unused → x.state ≠ .unused)
    (hzombie : y.state = .zombie → x.state = .zombie)
    (hwaiting : firstRun = none → y.state ≠ .unused → y.state = .used ∨ y.state = .runnable)
    (hcreation : y.creationTime = x.creationTime) (hfirst : y.firstRunTime = x.firstRunTime)
    (hend : y.endTime = x.endTime) (hcpu : y.cpuTicks = x.cpuTicks) :
    Dated now y firstRun writes := by
  refine ⟨?_, fun hy => ?_, fun hy hnone => ?_, fun hy t ht => ?_, fun hy t ht => ?_⟩
  · rw [hcpu]
    exact h.cpuTicks_nonneg
  · rw [hcreation, hcpu]
    exact h.cpuTicks_le (hunused hy)
  · obtain ⟨hfirst', hwrites, -⟩ := h.waiting (hunused hy) hnone
    exact ⟨hfirst.trans hfirst', hwrites, hwaiting hnone hy⟩
  · rw [hfirst, hcreation]
    exact h.ran (hunused hy) t ht
  · rw [hend, hcreation, hcpu]
    exact h.ended (hzombie hy) t ht

theorem Dated.nudged (h : Dated now x firstRun writes) (hxy : Nudged x y) :
    Dated now y firstRun writes := by
  refine h.congr (fun hy hx => hy ?_) (fun hy => ?_) (fun hnone hy => ?_) hxy.creationTime
    hxy.firstRunTime hxy.endTime hxy.cpuTicks
  · rw [hxy.state_eq (by rw [hx]; decide), hx]
  · rcases hxy.state with hstate | ⟨-, hstate⟩
    · rw [← hstate, hy]
    · rw [hstate] at hy
      cases hy
  · by_cases hx : x.state = .unused
    · rw [hxy.state_eq (by rw [hx]; decide)] at hy
      exact absurd hx hy
    · rcases (h.waiting hx hnone).2.2 with hx | hx
      · rw [hxy.state_eq (by rw [hx]; decide)]
        exact .inl hx
      · rw [hxy.state_eq (by rw [hx]; decide)]
        exact .inr hx

/-- A process that runs has been dispatched. -/
theorem Dated.exists_firstRun (h : Dated now x firstRun writes)
    (hx : x.state = .running ∨ x.state = .sleeping ∨ x.state = .zombie) :
    ∃ t, firstRun = some t := by
  rcases firstRun with _ | t
  · have hstate := (h.waiting (by rintro h; simp [h] at hx) rfl).2.2
    rcases hstate with hstate | hstate <;> simp [hstate] at hx
  · exact ⟨t, rfl⟩

/-- The first dispatch writes `first_run_time`, and no other does. -/
theorem Dated.dispatch (h : Dated now x firstRun writes) (hx : x.state = .runnable)
    (hfew : now < 2 ^ 31) : Dated now (x.dispatch now) (firstRun.or (some now))
      (if x.firstRunTime = -1 then writes + 1 else writes) := by
  have halive : x.state ≠ .unused := by rw [hx]; decide
  have hcpu := h.cpuTicks_le halive
  have hnonneg := h.cpuTicks_nonneg
  refine ⟨hnonneg, fun _ => hcpu, fun _ hnone => ?_, fun _ t ht => ?_, nofun⟩
  · cases firstRun <;> cases hnone
  · rcases firstRun with _ | t'
    · cases ht
      obtain ⟨hfirst, hwrites, -⟩ := h.waiting halive rfl
      have hint : int now = now := int_of_lt (by omega) (by omega)
      have hcreated : x.creationTime ≤ now := by omega
      rw [if_pos hfirst, hwrites, Proc.dispatch, if_pos hfirst, hint]
      exact ⟨rfl, rfl, hcreated, Nat.le_refl _⟩
    · cases ht
      obtain ⟨hfirst, hwrites, hrest⟩ := h.ran halive t rfl
      have hne : x.firstRunTime ≠ -1 := by omega
      rw [if_neg hne, Proc.dispatch, if_neg hne]
      exact ⟨hfirst, hwrites, hrest⟩

/-- A charge is paid for by the tick. -/
theorem Dated.charge {build : Build} (h : Dated now x firstRun writes) (hx : x.state = .running)
    (hfew : now + 1 < 2 ^ 31) :
    Dated (now + 1) { (x.charge build).getD x with state := .runnable } firstRun writes := by
  have halive : x.state ≠ .unused := by rw [hx]; decide
  obtain ⟨t, rfl⟩ := h.exists_firstRun (.inl hx)
  have hcpu := h.cpuTicks_le halive
  have hnonneg := h.cpuTicks_nonneg
  obtain ⟨hfirst, hwrites, hcreated, hnow⟩ := h.ran halive t rfl
  rcases hy : x.charge build with _ | y
  · refine ⟨hnonneg, fun _ => ?_, fun _ hnone => (nomatch hnone), fun _ t ht => ?_, nofun⟩
    · exact hcpu.trans (by omega)
    · cases ht
      exact ⟨hfirst, hwrites, hcreated, by omega⟩
  · have hint : int (x.cpuTicks + 1) = x.cpuTicks + 1 := int_of_lt (by omega) (by omega)
    rw [Option.getD_some, Proc.charge_spec hy, hint]
    refine ⟨?_, fun _ => ?_, fun _ hnone => (nomatch hnone), fun _ t ht => ?_, nofun⟩
    · dsimp only
      omega
    · dsimp only
      omega
    · cases ht
      exact ⟨hfirst, hwrites, hcreated, by omega⟩

/-- An exit notes the tick. -/
theorem Dated.exit (h : Dated now x firstRun writes) (hx : x.state = .running) (status : ℤ)
    (hle : now ≤ now') : Dated now' (x.exit status now') firstRun writes := by
  have halive : x.state ≠ .unused := by rw [hx]; decide
  obtain ⟨t, rfl⟩ := h.exists_firstRun (.inl hx)
  have hcpu := h.cpuTicks_le halive
  obtain ⟨hfirst, hwrites, hcreated, hnow⟩ := h.ran halive t rfl
  refine ⟨h.cpuTicks_nonneg, fun _ => ?_, fun _ hnone => (nomatch hnone), fun _ t ht => ?_,
    fun _ t ht => ?_⟩
  · exact hcpu.trans (by omega)
  · cases ht
    exact ⟨hfirst, hwrites, hcreated, hnow.trans hle⟩
  · cases ht
    exact ⟨hnow.trans hle, hcpu.trans (Int.ofNat_le.mpr hle), Nat.le_refl _⟩

theorem dated_alloc (x : Proc) (pid : ℤ) : Dated now (x.alloc pid now) none 0 :=
  ⟨Int.le_refl 0, fun _ => Int.le_of_eq (Int.add_zero _), fun _ _ => ⟨rfl, rfl, .inl rfl⟩,
    fun _ _ ht => (nomatch ht), nofun⟩

/-- What a call does to a process it does not create. -/
theorem Dated.touched {k : Globals} {c : Option Call} {q : Slot}
    (h : Dated k.ticks x firstRun writes) (ht : k.Touched c q x y)
    (hc : ∀ ok, c ≠ some (.alloc q ok)) : Dated k.ticks y firstRun writes := by
  cases ht with
  | nudged hxy => exact h.nudged hxy
  | alloc heq => exact absurd heq (hc true)
  | allocFailed | freed => exact dated_of_unused rfl h.cpuTicks_nonneg
  | ready hx =>
    exact h.congr (fun _ => by rw [hx]; decide) nofun (fun _ _ => .inr rfl) rfl rfl rfl rfl

/-- …and to one it creates, or fails to. -/
theorem dated_of_created {k : Globals} {c : Option Call} {q : Slot} (hcpu : 0 ≤ x.cpuTicks)
    (hx : x.state = .unused) (ht : k.Touched c q x y) : Dated k.ticks y none 0 := by
  cases ht with
  | nudged hxy =>
    refine dated_of_unused ?_ ?_
    · rw [hxy.state_eq (by rw [hx]; decide), hx]
    · rw [hxy.cpuTicks]
      exact hcpu
  | alloc => exact dated_alloc x _
  | allocFailed | freed => exact dated_of_unused rfl hcpu
  | ready hused => cases hx.symm.trans hused

variable {build : Build} {s s' : Timed} {e : Event} {q : Slot}

/-- **The times of all processes** are in order. -/
structure Sound (s : Timed) : Prop where
  running : s.loop.Running
  dated : ∀ q, Dated s.loop.globals.ticks (s.loop.globals.table q) (s.firstRun q) (s.writes q)

theorem sound_boot : boot.Sound := by
  refine ⟨Loop.running_boot, fun q => ?_⟩
  by_cases hq : q = 0
  · subst hq
    exact (dated_alloc .zero 1).congr (fun _ => nofun) nofun
      (fun _ _ => .inr rfl) rfl rfl rfl rfl
  · rw [show boot.loop.globals.table q = .zero from Globals.table_boot_of_ne hq]
    exact dated_of_unused rfl (Int.le_refl 0)

theorem unused_of_created {loop : Loop} (h : s.loop.step build e = some loop)
    (hq : created e = some q) : (s.loop.globals.table q).state = .unused := by
  rw [created.eq_def] at hq
  split at hq
  · cases hq
    obtain ⟨r, -, h⟩ := Option.bind_eq_some_iff.mp h
    obtain ⟨k, hk, -⟩ := Option.map_eq_some_iff.mp h
    exact (Option.ite_none_right_eq_some.mp hk).1
  · cases hq

theorem call?_ne_of_created {ok : Bool} (hq : created e ≠ some q) :
    e.call? ≠ some (.alloc q ok) := by
  intro h
  cases e with
  | call c =>
    cases Option.some.inj h
    exact hq rfl
  | _ => cases h

theorem dispatched_ne {loop : Loop} {r : Slot} (hcur : s.loop.cur = some r) :
    s.dispatched loop ≠ some q := by
  rw [dispatched, if_neg (by rw [hcur]; nofun)]
  nofun

/-- A tick is one. -/
theorem ticks_step {loop : Loop} (h : s.loop.step build e = some loop)
    (hfew : s.loop.globals.ticks + (if e.isTick then 1 else 0) < 2 ^ 31) :
    loop.globals.ticks = s.loop.globals.ticks + if e.isTick then 1 else 0 := by
  have hticks := (Loop.kept_of_step h).ticks
  split at hticks
  · rename_i htick
    rw [if_pos htick] at hfew ⊢
    rw [hticks, uint, Nat.mod_eq_of_lt (by omega)]
  · rename_i htick
    rw [if_neg htick]
    exact hticks

/-- A process that has just been created has not run. -/
theorem Sound.dated_created (h : s.Sound) {loop : Loop} (hloop : s.loop.step build e = some loop)
    (hnew : created e = some q) :
    Dated s.loop.globals.ticks (loop.globals.table q) none 0 := by
  have hq := h.dated q
  have hunused := unused_of_created hloop hnew
  cases (Loop.kept_of_step hloop).fate q with
  | touched ht => exact dated_of_created hq.cpuTicks_nonneg hunused ht
  | boosted heq =>
    rw [heq, Proc.boost, if_neg fun hne => hne.1 hunused]
    exact dated_of_unused hunused hq.cpuTicks_nonneg
  | dispatched _ hrunnable => cases hunused.symm.trans hrunnable
  | yielded hcur | slept hcur | exited hcur => cases hunused.symm.trans (h.running q hcur)

/-- **The times stay in order.** -/
theorem Sound.step (h : s.Sound)
    (hfew : s.loop.globals.ticks + (if e.isTick then 1 else 0) < 2 ^ 31)
    (hstep : step build s e = some s') : s'.Sound ∧
      s'.loop.globals.ticks = s.loop.globals.ticks + if e.isTick then 1 else 0 := by
  obtain ⟨loop, hloop, rfl⟩ := Option.map_eq_some_iff.mp hstep
  have hticks := ticks_step hloop hfew
  have hle : s.loop.globals.ticks ≤ loop.globals.ticks := by omega
  refine ⟨⟨h.running.step hloop, fun q => ?_⟩, hticks⟩
  have hq := h.dated q
  have hfate := (Loop.kept_of_step hloop).fate q
  dsimp only
  by_cases hnew : created e = some q
  · rw [if_pos hnew, if_pos hnew]
    exact (h.dated_created hloop hnew).mono hle
  · rw [if_neg hnew, if_neg hnew]
    have hkept (hnot : s.dispatched loop ≠ some q)
        (hdated : Dated loop.globals.ticks (loop.globals.table q) (s.firstRun q) (s.writes q)) :
        Dated loop.globals.ticks (loop.globals.table q)
          (if s.dispatched loop = some q then (s.firstRun q).or (some s.loop.globals.ticks)
            else s.firstRun q)
          (if s.dispatched loop = some q ∧ (s.loop.globals.table q).firstRunTime = -1 then
            s.writes q + 1 else s.writes q) := by
      rw [if_neg hnot, if_neg fun hand => hnot hand.1]
      exact hdated
    cases hfate with
    | touched ht hcur =>
      refine hkept ?_ ((hq.touched ht fun ok => call?_ne_of_created hnew).mono hle)
      rw [dispatched]
      split
      · rename_i hnone
        rw [Ne, hcur, hnone]
        nofun
      · nofun
    | boosted heq hnone hnone' =>
      refine hkept ?_ (Dated.mono ?_ hle)
      · rw [dispatched, if_pos hnone, hnone']
        nofun
      · rw [heq, Proc.boost]
        split
        · exact hq.congr id id (fun hnone hy => (hq.waiting hy hnone).2.2) rfl rfl rfl rfl
        · exact hq
    | dispatched hnone hrunnable heq hcur =>
      have hdispatched : s.dispatched loop = some q := by
        rw [dispatched, if_pos hnone, hcur]
      rw [if_pos hdispatched, heq]
      simp only [hdispatched, true_and]
      exact (hq.dispatch hrunnable (by omega)).mono hle
    | yielded hcur _ htick x hx heq =>
      have hrun := h.running q hcur
      have hrun' : x.state = .running := by rw [hx.state_eq (by rw [hrun]; decide), hrun]
      subst htick
      refine hkept (dispatched_ne hcur) ?_
      rw [heq, show loop.globals.ticks = s.loop.globals.ticks + 1 from hticks]
      exact (hq.nudged hx).charge hrun' hfew
    | slept hcur _ heq =>
      refine hkept (dispatched_ne hcur) (Dated.mono ?_ hle)
      obtain ⟨t, ht⟩ := hq.exists_firstRun (.inl (h.running q hcur))
      rw [heq]
      refine hq.congr (fun _ => ?_) nofun (fun hnone => ?_) rfl rfl rfl rfl
      · rw [h.running q hcur]
        decide
      · rw [hnone] at ht
        cases ht
    | exited hcur _ x hx status heq =>
      have hrun := h.running q hcur
      have hrun' : x.state = .running := by rw [hx.state_eq (by rw [hrun]; decide), hrun]
      refine hkept (dispatched_ne hcur) ?_
      rw [heq]
      exact (hq.nudged hx).exit hrun' status hle

/-! ## What the clock pays for -/

/-- A call charges nobody. -/
theorem cpuTicks_le_of_touched {k : Globals} {c : Option Call}
    (h : k.Touched c q x y) (hx : 0 ≤ x.cpuTicks) : y.cpuTicks ≤ x.cpuTicks := by
  cases h with
  | nudged hxy => exact Int.le_of_eq hxy.cpuTicks
  | alloc => exact hx
  | allocFailed | ready | freed => exact Int.le_refl _

/-- A step charges the process that runs one tick, if the clock goes on, and nobody else. -/
theorem charge_le {loop : Loop} (h : s.Sound) (hloop : s.loop.step build e = some loop) (q : Slot) :
    ((loop.globals.table q).cpuTicks - (s.loop.globals.table q).cpuTicks).toNat ≤
      if s.loop.cur = some q ∧ e.isTick then 1 else 0 := by
  have hcpu := (h.dated q).cpuTicks_nonneg
  cases (Loop.kept_of_step hloop).fate q with
  | touched ht =>
    have hle := cpuTicks_le_of_touched ht hcpu
    omega
  | boosted heq =>
    have hboost : (s.loop.globals.table q).boost.cpuTicks = (s.loop.globals.table q).cpuTicks := by
      rw [Proc.boost]
      split <;> rfl
    rw [heq, hboost]
    omega
  | dispatched _ _ heq | slept _ _ heq =>
    rw [heq]
    dsimp only [Proc.dispatch, Proc.sleep]
    omega
  | exited _ _ x hx status heq =>
    rw [heq]
    dsimp only [Proc.exit]
    rw [hx.cpuTicks]
    omega
  | yielded hcur _ htick x hx heq =>
    subst htick
    rw [if_pos ⟨hcur, rfl⟩, heq]
    dsimp only
    rcases hy : x.charge build with _ | y
    · rw [Option.getD_none, hx.cpuTicks]
      omega
    · have hint : int (x.cpuTicks + 1) ≤ x.cpuTicks + 1 := by
        rw [hx.cpuTicks]
        exact int_le (by omega)
      rw [Option.getD_some, Proc.charge_spec hy]
      dsimp only
      rw [hx.cpuTicks] at hint ⊢
      omega

theorem charged_le (h : s.Sound) (hstep : step build s e = some s') :
    charged build s e ≤ if e.isTick then 1 else 0 := by
  obtain ⟨loop, hloop, rfl⟩ := Option.map_eq_some_iff.mp hstep
  rw [charged, hstep]
  refine (Finset.sum_le_sum fun q _ => charge_le h hloop q).trans ?_
  cases htick : e.isTick with
  | false => simp
  | true =>
    rcases hcur : s.loop.cur with _ | r
    · simp
    · simp [Finset.sum_ite_eq]

/-- **The times of a process that has exited** are in order. -/
theorem Dated.ordered (h : Dated now x firstRun writes) (hx : x.state = .zombie)
    (hfew : now < 2 ^ 31) :
    (∃ t, firstRun = some t ∧ writes = 1 ∧ x.firstRunTime = t ∧ x.creationTime ≤ t ∧
      t ≤ x.endTime) ∧ x.cpuTicks ≤ x.endTime - x.creationTime ∧
    0 ≤ x.row.turnaround ∧ 0 ≤ x.row.waiting ∧ 0 ≤ x.row.response := by
  obtain ⟨t, rfl⟩ := h.exists_firstRun (.inr (.inr hx))
  obtain ⟨hfirst, hwrites, hcreated, hnow⟩ := h.ran (by rw [hx]; decide) t rfl
  obtain ⟨hend, hcpu, hend'⟩ := h.ended hx t rfl
  have hnonneg := h.cpuTicks_nonneg
  have hcreation : int x.creationTime = x.creationTime := int_of_lt (by omega) (by omega)
  have hfin : int x.endTime = x.endTime := int_of_lt (by omega) (by omega)
  refine ⟨⟨t, rfl, hwrites, hfirst, hcreated, hend⟩, by omega, ?_, ?_, ?_⟩
  · rw [Row.turnaround, Proc.row, hcreation, hfin]
    dsimp only
    omega
  · rw [Row.waiting, Row.turnaround, Proc.row, hcreation, hfin]
    dsimp only
    omega
  · rw [Row.response, Proc.row, hcreation, hfirst]
    dsimp only
    omega

/-- **The statistics are right**: of every process that has exited, creation, first dispatch and end
are in order, it was charged no more than passed in between, and the times computed from them are
not negative; and over any stretch no more ticks are charged than pass. -/
theorem times_run {es es' : List Event} (hs : run (step build) boot es = some s)
    (hs' : run (step build) s es' = some s') (hfew : (es ++ es').countP Event.isTick < 2 ^ 31) :
    (∀ p x, s.loop.globals.table p = x → x.state = .zombie →
      (∃ t, s.firstRun p = some t ∧ s.writes p = 1 ∧ x.firstRunTime = t ∧ x.creationTime ≤ t ∧
        t ≤ x.endTime) ∧ x.cpuTicks ≤ x.endTime - x.creationTime ∧
      0 ≤ x.row.turnaround ∧ 0 ≤ x.row.waiting ∧ 0 ≤ x.row.response) ∧
    s.loop.globals.ticks + total (step build) (charged build) s es' ≤ s'.loop.globals.ticks := by
  have hinv : ∀ t e t', t.Sound →
      t.loop.globals.ticks + (if e.isTick then 1 else 0) < 2 ^ 31 → step build t e = some t' →
      t'.Sound ∧ t'.loop.globals.ticks = t.loop.globals.ticks + if e.isTick then 1 else 0 :=
    fun _ _ _ ht hfew hstep => ht.step hfew hstep
  rw [List.countP_append] at hfew
  have hzero : boot.loop.globals.ticks = 0 := rfl
  obtain ⟨hsound, hticks⟩ := invariant_spent' hinv sound_boot (by omega) hs
  obtain ⟨-, hticks'⟩ := invariant_spent' hinv hsound (by omega) hs'
  constructor
  · rintro p _ rfl hx
    exact (hsound.dated p).ordered hx (by omega)
  · have htotal := total_le_count hinv (fun _ _ _ ht hstep => charged_le ht hstep) hsound
      (by omega) hs'
    rw [hticks']
    exact Nat.add_le_add_left htotal _

/-- Under RR `init` loses the CPU to its child, which exits. -/
def child : List Event :=
  [.go, .go, .call (.alloc 1 true), .call (.ready 1), .raise .timer, .take .timer, .go, .exit 3]

/-- `init` gets it back, and is charged another tick. -/
def parent : List Event := List.replicate 65 Event.go ++ [.raise .timer, .take .timer]

theorem times_run_child : ∃ s s', run (step .rr) boot child = some s ∧
    run (step .rr) s parent = some s' ∧
    (s.loop.globals.table 1).cpuTicks ≤
      (s.loop.globals.table 1).endTime - (s.loop.globals.table 1).creationTime ∧
    s.loop.globals.ticks + total (step .rr) (charged .rr) s parent ≤ s'.loop.globals.ticks := by
  have hs := Option.eq_some_of_isSome
    (show (run (step .rr) boot child).isSome by decide +kernel)
  have hs' := Option.eq_some_of_isSome
    (show (run (step .rr) ((run (step .rr) boot child).get (by decide +kernel)) parent).isSome
      by decide +kernel)
  obtain ⟨htimes, htotal⟩ := times_run hs hs' (by decide)
  exact ⟨_, _, hs, hs', (htimes 1 _ rfl (by decide +kernel)).2.1, htotal⟩

end Timed

end MiniProject.Kernel
