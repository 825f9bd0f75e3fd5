import MiniProject.Kernel.OneCpu

/-!
# Kernel/Starvation — how long a RUNNABLE process waits under MLFQ

Two things bring a waiting process nearer to the CPU.  In queue 0 every look takes the pointer
closer to it (`gap_lt_of_scan`), and below queue 0 the clock runs towards the next boost, which
lifts it. `wait` puts both in one number, off which every tick takes one (`wait_step`) for which the
scheduler has come round its loop; the ticks that are ahead of it come on top
(`ticks_le_of_runnable`).
-/

namespace MiniProject.Kernel

/-! ## The choice -/

variable {k k' : Globals} {p c : Slot}

theorem waits_zero (hp : (k.table p).state = .runnable) (hqueue : (k.table p).queue = 0) :
    k.table.waits 0 p = true := by
  simp [Table.waits, hp, hqueue]

/-- With a process in queue 0 there is a choice… -/
theorem chooseMlfq_ne_none (hp : (k.table p).state = .runnable)
    (hqueue : (k.table p).queue = 0) : k.chooseMlfq ≠ none := by
  intro h
  have hwaits := Table.pickMlfq_eq_none.mp (Option.map_eq_none_iff.mp h) 0 p
  rw [waits_zero hp hqueue] at hwaits
  cases hwaits

/-- …from queue 0, which brings the pointer closer to it. -/
theorem gap_lt_of_chooseMlfq (h : k.chooseMlfq = some (c, k'))
    (hp : (k.table p).state = .runnable) (hqueue : (k.table p).queue = 0) (hne : c ≠ p) :
    gap (k'.last 0) p < gap (k.last 0) p := by
  obtain ⟨⟨q, c⟩, hpick, h⟩ := Option.map_eq_some_iff.mp h
  cases h
  obtain ⟨hscan, habove⟩ := Table.pickMlfq_eq_some.mp hpick
  have hwaits := waits_zero hp hqueue
  rcases Nat.eq_zero_or_pos q.val with hq | hq
  · obtain rfl : q = 0 := Fin.ext hq
    dsimp only
    rw [Function.update_self]
    exact gap_lt_of_scan hscan hwaits hne
  · rw [habove 0 hq p] at hwaits
    cases hwaits

/-- A choice does nothing but move a pointer. -/
theorem eq_of_chooseMlfq (h : k.chooseMlfq = some (c, k')) :
    k'.table = k.table ∧ k'.ticks = k.ticks := by
  obtain ⟨⟨q, p⟩, -, h⟩ := Option.map_eq_some_iff.mp h
  cases h
  exact ⟨rfl, rfl⟩

namespace Uni

/-! ## A look -/

variable {s s' : Uni mlfq} {e : Event} {b : ℕ}

/-- `last_boost_tick`. -/
def lastBoostTick (s : Uni mlfq) : ℕ := s.locals

/-- What follows a look, whoever is chosen. -/
theorem landed (h : s' = land (mlfqPick b k)) :
    s'.globals.ticks = k.ticks ∧ s'.lastBoostTick = b ∧ s'.mode ≠ .loop true := by
  rcases hchoose : k.chooseMlfq with _ | ⟨c, k'⟩
  · obtain rfl : s' = ⟨k, b, .idle⟩ := by rw [h, mlfqPick, hchoose]; rfl
    exact ⟨rfl, rfl, nofun⟩
  · obtain rfl : s' = ⟨k'.dispatch c, b, .running c⟩ := by
      rw [h, mlfqPick, hchoose]; rfl
    exact ⟨(eq_of_chooseMlfq hchoose).2, rfl, nofun⟩

/-- Whoever is not chosen keeps its queue, and in queue 0 is nearer to the pointer. -/
theorem nearer_of_landed (h : s' = land (mlfqPick b k))
    (hp : (k.table p).state = .runnable) (hp' : (s'.globals.table p).state = .runnable) :
    (s'.globals.table p).queue = (k.table p).queue ∧
      ((k.table p).queue = 0 → gap (s'.globals.last 0) p < gap (k.last 0) p) := by
  rcases hchoose : k.chooseMlfq with _ | ⟨c, k'⟩
  · obtain rfl : s' = ⟨k, b, .idle⟩ := by rw [h, mlfqPick, hchoose]; rfl
    exact ⟨rfl, fun hqueue => absurd hchoose (chooseMlfq_ne_none hp hqueue)⟩
  · obtain rfl : s' = ⟨k'.dispatch c, b, .running c⟩ := by
      rw [h, mlfqPick, hchoose]; rfl
    have hne : c ≠ p := by
      rintro rfl
      rw [Globals.table_dispatch_self] at hp'
      cases hp'
    constructor
    · rw [Globals.table_dispatch_of_ne hne.symm, (eq_of_chooseMlfq hchoose).1]
    · intro hqueue
      exact (gap_lt_of_chooseMlfq hchoose hp hqueue hne : gap (k'.last 0) p < _)

/-- A look boosts first, or not. -/
theorem step_look (h : step s .look = some s') :
    if boostDue s.globals.ticks s.lastBoostTick then
      s' = land (mlfqPick s.globals.ticks s.globals.mlfqBoost)
    else s' = land (mlfqPick s.lastBoostTick s.globals) := by
  have hlook : s.look = land (if boostDue s.globals.ticks s.lastBoostTick then
    mlfqPick s.globals.ticks s.globals.mlfqBoost else mlfqPick s.lastBoostTick s.globals) := rfl
  rw [step] at h
  split at h
  · cases h
    rw [hlook]
    split <;> rfl
  · cases h

/-! ## The clock -/

/-- The time since the last boost: a look finds it less than 48 ticks ago, or boosts. -/
structure Clocked (s : Uni mlfq) : Prop where
  running : s.Running
  lastBoostTick_le : s.lastBoostTick ≤ s.globals.ticks
  ticks_lt : s.mode ≠ .loop true → s.globals.ticks < s.lastBoostTick + boostTicks

/-- The clock is ahead of the scheduler: a tick comes before it has come round its loop since the
last one. -/
def Ahead (s : Uni mlfq) (e : Event) : Prop := e.isTick ∧ s.mode = .loop true

instance (s : Uni mlfq) (e : Event) : Decidable (Ahead s e) :=
  inferInstanceAs (Decidable (_ ∧ _))

/-- The ticks along a run that the scheduler has not come round for. -/
def ticksAhead (s : Uni mlfq) (es : List Event) : ℕ :=
  total step (fun s e => if Ahead s e then 1 else 0) s es

theorem clocked_boot : (boot mlfq).Clocked :=
  ⟨running_boot, Nat.le_refl 0, fun _ => by decide⟩

theorem lt_of_not_due {cur : ℕ} (hle : b ≤ cur) (hcur : cur < 2 ^ 32) (h : ¬ boostDue cur b) :
    cur < b + boostTicks := by
  rcases Nat.eq_zero_or_pos cur with hzero | hpos
  · have hboost : 0 < boostTicks := by decide
    omega
  · have hlt : uint (cur + (2 ^ 32 - b)) < boostTicks :=
      Nat.lt_of_not_le fun hdue => h ⟨Nat.ne_of_gt hpos, hdue⟩
    have hsum : cur + (2 ^ 32 - b) = cur - b + 2 ^ 32 := by omega
    rw [uint, hsum, Nat.add_mod_right, Nat.mod_eq_of_lt (by omega)] at hlt
    omega

/-- A look leaves the clock alone. -/
theorem Clocked.look (h : s.Clocked) (hwrap : s.globals.ticks < 2 ^ 32)
    (hstep : step s .look = some s') :
    s'.Clocked ∧ s'.globals.ticks = s.globals.ticks := by
  have hrunning : s'.Running := h.running.step hstep
  have hpos : 0 < boostTicks := by decide
  have hlook := step_look hstep
  split at hlook
  · obtain ⟨hticks, hlast, -⟩ := landed hlook
    have hticks' : s'.globals.ticks = s.globals.ticks := hticks
    exact ⟨⟨hrunning, by omega, fun _ => by omega⟩, hticks⟩
  · rename_i hdue
    obtain ⟨hticks, hlast, -⟩ := landed hlook
    have hlt := lt_of_not_due h.lastBoostTick_le hwrap hdue
    have hle := h.lastBoostTick_le
    exact ⟨⟨hrunning, by omega, fun _ => by omega⟩, hticks⟩

/-- **The clock is kept**, and counts the ticks. -/
theorem Clocked.step (h : s.Clocked)
    (hwrap : s.globals.ticks + (if e.isTick then 1 else 0) < 2 ^ 32)
    (hstep : step s e = some s') :
    s'.Clocked ∧ s'.globals.ticks = s.globals.ticks + if e.isTick then 1 else 0 := by
  by_cases he : e = .look
  · subst he
    exact h.look hwrap hstep
  · have hkept := kept_of_step he hstep
    have hrunning : s'.Running := hkept.running h.running
    have hlast : s'.lastBoostTick = s.lastBoostTick := hkept.locals
    obtain ⟨-, hle, hlt⟩ := h
    have hticks := hkept.ticks
    cases htick : e.isTick with
    | true =>
      rw [htick] at hticks hwrap
      have hticks' : s'.globals.ticks = s.globals.ticks + 1 :=
        hticks.trans (Nat.mod_eq_of_lt hwrap)
      refine ⟨⟨hrunning, by omega, fun hticked => ?_⟩, hticks'⟩
      exact absurd (hkept.ticked.mpr (.inl htick)) hticked
    | false =>
      rw [htick] at hticks
      have hticks' : s'.globals.ticks = s.globals.ticks := hticks
      refine ⟨⟨hrunning, by omega, fun hticked => ?_⟩, hticks'⟩
      have hlt' := hlt fun hmode => hticked (hkept.ticked.mpr (.inr hmode))
      omega

/-! ## Waiting -/

/-- **How many ticks a process can wait for**: in queue 0 one for each place between the pointer and
it; below, those to the next boost as well. -/
def wait (p : Slot) (s : Uni mlfq) : ℕ :=
  if (s.globals.table p).queue = 0 then
    gap (s.globals.last 0) p + if s.mode = .loop true then 0 else 1
  else s.lastBoostTick + boostTicks - s.globals.ticks + (nproc - 1)

theorem gap_le_wait (p : Slot) (s : Uni mlfq) : gap (s.globals.last 0) p ≤ s.wait p := by
  have hgap := gap_lt (s.globals.last 0) p
  rw [wait]
  split <;> omega

theorem Clocked.wait_le (h : s.Clocked) (p : Slot) : s.wait p ≤ boostTicks + nproc := by
  have hgap := gap_lt (s.globals.last 0) p
  have hle := h.lastBoostTick_le
  rw [wait]
  split
  · split <;> omega
  · omega

/-- In queue 0 a look brings the process nearer by what the next tick takes. -/
theorem wait_le_of_nearer {g : ℕ} (hqueue : (s'.globals.table p).queue = 0)
    (hgap : gap (s'.globals.last 0) p < g) : s'.wait p ≤ g := by
  rw [wait, if_pos hqueue]
  split <;> omega

/-- A look adds nothing to the wait of a process it passes over. -/
theorem wait_look (hp : (s.globals.table p).state = .runnable)
    (hp' : (s'.globals.table p).state = .runnable) (h : step s .look = some s') :
    s'.wait p ≤ s.wait p := by
  have hlook := step_look h
  split at hlook
  · have hboost : (s.globals.mlfqBoost.table p) =
        { s.globals.table p with queue := 0, ticksUsed := 0 } :=
      if_pos (by rw [hp]; decide)
    obtain ⟨hqueue, hgap⟩ := nearer_of_landed hlook (by rw [hboost, hp]) hp'
    rw [hboost] at hqueue hgap
    exact (wait_le_of_nearer hqueue (hgap rfl)).trans (gap_le_wait p s)
  · obtain ⟨hqueue, hgap⟩ := nearer_of_landed hlook hp hp'
    obtain ⟨hticks, hlast, -⟩ := landed hlook
    by_cases hzero : (s.globals.table p).queue = 0
    · exact (wait_le_of_nearer (hqueue.trans hzero) (hgap hzero)).trans (gap_le_wait p s)
    · rw [wait, wait, hqueue, if_neg hzero, if_neg hzero, hticks, hlast]

/-- **Every tick takes one off the wait**, unless it is ahead of the scheduler, and no step adds to
it. -/
theorem wait_step (h : s.Clocked) (hp : (s.globals.table p).state = .runnable)
    (hp' : (s'.globals.table p).state = .runnable)
    (hwrap : s.globals.ticks + (if e.isTick then 1 else 0) < 2 ^ 32)
    (hstep : step s e = some s') :
    s'.wait p + (if e.isTick then 1 else 0) ≤ s.wait p + if Ahead s e then 1 else 0 := by
  by_cases he : e = .look
  · subst he
    exact wait_look hp hp' hstep
  · have hkept := kept_of_step he hstep
    have hqueue : (s'.globals.table p).queue = (s.globals.table p).queue :=
      (hkept.nudged h.running hp).queue
    have hlast : s'.lastBoostTick = s.lastBoostTick := hkept.locals
    obtain ⟨-, hticks⟩ := h.step hwrap hstep
    rw [wait, wait, hqueue, hkept.last, hlast, hticks]
    cases htick : e.isTick with
    | true =>
      have hmode' := hkept.ticked.mpr (.inl htick)
      by_cases hmode : s.mode = .loop true
      · have hahead : Ahead s e := ⟨htick, hmode⟩
        simp only [hmode', hmode, hahead, if_true]
        split <;> omega
      · have hnot : ¬ Ahead s e := fun h => hmode h.2
        have hlt := h.ticks_lt hmode
        simp only [hmode', hmode, hnot, if_true, if_false]
        split <;> omega
    | false =>
      have hticked : s'.mode = .loop true ↔ s.mode = .loop true := by
        rw [hkept.ticked, htick]
        exact or_iff_right nofun
      simp only [hticked, Bool.false_eq_true, if_false, Nat.add_zero]
      exact Nat.le_add_right _ _

/-! ## The bound -/

/-- **No process waits for long**: as long as a process stays RUNNABLE, the counter goes up by at
most a boost interval, a tick for every process and the ticks that are ahead of the scheduler. -/
theorem ticks_le_of_runnable {es es' : List Event}
    (hs : run step (boot mlfq) es = some s) (hs' : run step s es' = some s')
    (hwrap : (es ++ es').countP Event.isTick < 2 ^ 32)
    (hp : Always step (fun t => (t.globals.table p).state = .runnable) s es') :
    s'.globals.ticks = s.globals.ticks + es'.countP Event.isTick ∧
      es'.countP Event.isTick ≤ boostTicks + nproc + ticksAhead s es' := by
  rw [List.countP_append] at hwrap
  have hstep : ∀ (t : Uni mlfq) e t', t.Clocked →
      t.globals.ticks + (if e.isTick then 1 else 0) < 2 ^ 32 → step t e = some t' →
      t'.Clocked ∧ t'.globals.ticks = t.globals.ticks + if e.isTick then 1 else 0 :=
    fun t e t' ht hwrap hstep => ht.step hwrap hstep
  have hzero : (boot mlfq).globals.ticks = 0 := rfl
  obtain ⟨hclocked, hticks⟩ := invariant_spent' hstep clocked_boot (by omega) hs
  obtain ⟨-, hticks'⟩ := invariant_spent' hstep hclocked (by omega) hs'
  refine ⟨hticks', ?_⟩
  have hrank : ∀ (t : Uni mlfq) e t', t.Clocked →
      (t.globals.table p).state = .runnable → (t'.globals.table p).state = .runnable →
      t.globals.ticks + (if e.isTick then 1 else 0) < 2 ^ 32 → step t e = some t' →
      t'.wait p + (if e.isTick then 1 else 0) ≤ t.wait p + if Ahead t e then 1 else 0 :=
    fun t e t' ht hp hp' hwrap hstep => wait_step ht hp hp' hwrap hstep
  have hcount := count_le_rank hstep hrank hclocked hp (by omega) hs'
  exact hcount.trans (Nat.add_le_add_right (hclocked.wait_le p) _)

/-- `init` has used up its first slice, and waits for its child to use up two. -/
theorem ticks_le_of_runnable_init : ∃ s s' : Uni mlfq,
    run step (boot mlfq) [.look, .call (.alloc 1 true), .call (.ready 1), .tick] = some s ∧
      run step s [.look, .tick, .look, .tick] = some s' ∧
      ticksAhead s [.look, .tick, .look, .tick] = 0 ∧
      s'.globals.ticks = s.globals.ticks + 2 ∧
      2 ≤ boostTicks + nproc + ticksAhead s [.look, .tick, .look, .tick] :=
  ⟨_, _, rfl, rfl, by decide +kernel, ticks_le_of_runnable (p := 0)
    (show run step (boot mlfq) [.look, .call (.alloc 1 true), .call (.ready 1), .tick] = some _
      from rfl)
    (show run step _ [.look, .tick, .look, .tick] = some _ from rfl)
    (by decide) (by decide)⟩

/-- **The scheduler may be late**: `init` has used up its first slice, and the clock ticks 113 times
before the loop comes round. -/
theorem not_ticks_le : ∃ s s' : Uni mlfq,
    run step (boot mlfq) [.look, .tick] = some s ∧
      run step s (List.replicate 113 .tick) = some s' ∧
      Always step (fun t => (t.globals.table 0).state = .runnable) s (List.replicate 113 .tick) ∧
      s.globals.ticks + (boostTicks + nproc) < s'.globals.ticks :=
  ⟨_, _, rfl, rfl, by decide +kernel, by decide +kernel⟩

end Uni

end MiniProject.Kernel
