import MiniProject.Kernel.Loop
import MiniProject.Kernel.Slices

/-!
# Kernel/Idle — when the scheduler waits for an interrupt

The loop executes `wfi` when it has looked at the whole table and found nobody.  The RR scheduler
looks with interrupts off, so that nobody becomes RUNNABLE meanwhile (`Ahead.rested`).  The MLFQ
scheduler leaves them on: a handler may wake a process that the loop has passed, and the CPU then
waits for another interrupt with work to do.  That is the only way (`rested_iff`).
-/

namespace MiniProject.Kernel

/-- The loop executes `wfi` next. -/
def Place.atWfi : Place → Bool
  | .mlfqScan [] | .rrScan [] false => true
  | _ => false

namespace Loop

/-- At a `wfi` nobody is RUNNABLE, or an interrupt is pending. -/
def Rested (s : Loop) (e : Event) : Prop :=
  e = .go → s.place.atWfi → (∀ p, (s.globals.table p).state ≠ .runnable) ∨ s.pending ≠ []

instance (s : Loop) (e : Event) : Decidable (Rested s e) :=
  inferInstanceAs (Decidable (_ → _ → _ ∨ _))

variable {s s' : Loop} {e : Event} {p : Slot}

/-! ## RR -/

/-- As long as the RR scheduler has found nobody, whoever is RUNNABLE is still to come. -/
structure Ahead (s : Loop) : Prop where
  ofBuild : s.place.OfBuild .rr
  mem_rest : ∀ rest, s.place = .rrScan rest false →
    ∀ p, (s.globals.table p).state = .runnable → p ∈ rest

theorem ahead_boot : boot.Ahead := ⟨trivial, nofun⟩

/-- It passes over those that are not. -/
theorem Ahead.go {rest' : List Slot} (h : s.Ahead) (hstep : s.go .rr = some s')
    (hplace' : s'.place = .rrScan rest' false) (hp : (s'.globals.table p).state = .runnable) :
    p ∈ rest' := by
  have hof := h.ofBuild
  rw [Loop.go.eq_def] at hstep
  split at hstep <;> rename_i hplace <;> rw [hplace] at hof
  case h_1 =>
    cases hstep
    injection hplace' with hrest
    exact hrest ▸ List.mem_finRange p
  case h_9 found =>
    cases hstep
    cases found <;> cases hplace'
  case h_10 q rest found =>
    split at hstep <;> cases hstep
    · cases hplace'
    · rename_i hq
      injection hplace' with hrest hfound
      subst hrest hfound
      refine (List.mem_cons.mp (h.mem_rest _ hplace p hp)).resolve_left ?_
      rintro rfl
      exact hq hp
  case h_11 =>
    split at hstep <;> cases hstep
    cases hplace'
  case h_12 => cases hstep
  all_goals cases hof

/-- Nothing but the scheduler's own steps goes on while it looks at the table. -/
theorem Ahead.step (h : s.Ahead) (hstep : step .rr s e = some s') : s'.Ahead := by
  refine ⟨ofBuild_step h.ofBuild hstep, fun rest hplace' p hp => ?_⟩
  by_cases hne : e = .go
  · subst hne
    exact h.go hstep hplace' hp
  · rcases place_of_step hne hstep with hplace | ⟨r, rest', -, hback⟩
    · rw [hplace] at hplace'
      have hcur : s.cur = none := by rw [cur, running?, hplace']; rfl
      rcases eq_of_step hne hcur hstep with ⟨i, -, rfl⟩ | ⟨i, -, hmask, -⟩
      · exact h.mem_rest rest hplace' p hp
      · rw [hplace'] at hmask
        cases hmask
    · rw [hback] at hplace'
      cases hplace'

/-- **The RR scheduler rests only when there is nothing to do.** -/
theorem Ahead.rested (h : s.Ahead) : Rested s e := by
  rintro - hwfi
  have hof := h.ofBuild
  refine .inl fun p hp => ?_
  rw [Place.atWfi.eq_def] at hwfi
  split at hwfi <;> rename_i hplace
  · rw [hplace] at hof
    cases hof
  · exact List.not_mem_nil (h.mem_rest _ hplace p hp)
  · cases hwfi

end Loop

/-! ## MLFQ -/

/-- Every step keeps a process within its slice. -/
theorem Loop.Fate.inBand {s s' : Loop} {e : Loop.Event} {q : Slot} (h : Loop.Fate .mlfq s s' e q)
    (hband : InBand (s.globals.table q)) : InBand (s'.globals.table q) := by
  cases h with
  | touched h => exact hband.touched h
  | boosted h =>
    rw [h]
    exact hband.boost
  | dispatched _ _ h =>
    rw [h]
    exact hband.congr rfl rfl
  | exited _ _ _ hx _ h =>
    rw [h]
    exact (hx.inBand hband).congr rfl rfl
  | yielded _ _ _ x hx h =>
    obtain ⟨y, hy, hyband⟩ := (hx.inBand hband).mlfqTimerTick
    rw [h, show x.charge .mlfq = some y from hy]
    exact hyband.congr rfl rfl
  | slept _ _ h =>
    rw [h]
    exact hband.sleep .mlfq

/-- The MLFQ kernel with the processes that an interrupt woke, in this turn of the loop, when the
loop had passed them. -/
structure Watched where
  loop : Loop
  missed : List Slot

namespace Watched

open Loop (Event Rested)

/-- The scheduler is about to start. -/
def boot : Watched := ⟨.boot, []⟩

variable (s : Watched)

/-- The loop does not come to the process any more, with what is left of it. -/
def Passed (rest : List (Fin nmlfq × Slot)) (x : Proc) (p : Slot) : Prop :=
  ∀ q : Fin nmlfq, x.queue = (q.val : ℤ) → (q, p) ∉ rest

instance (rest : List (Fin nmlfq × Slot)) (x : Proc) (p : Slot) : Decidable (Passed rest x p) :=
  inferInstanceAs (Decidable (∀ _, _))

/-- Those a handler wakes behind the loop. -/
def wokenBehind (rest : List (Fin nmlfq × Slot)) (t t' : Table) : List Slot :=
  (List.finRange nproc).filter fun p =>
    (t p).state ≠ .runnable ∧ (t' p).state = .runnable ∧ Passed rest (t' p) p

/-- The loop starts anew at its top. -/
def missedAfter (e : Event) (loop : Loop) : List Slot :=
  match e, s.loop.place with
  | .go, .top => []
  | .take _, .mlfqScan rest => s.missed ++ wokenBehind rest s.loop.globals.table loop.globals.table
  | _, _ => s.missed

/-- A step. -/
def step (e : Event) : Option Watched :=
  (s.loop.step .mlfq e).map fun loop => ⟨loop, s.missedAfter e loop⟩

/-- At a `wfi` with no interrupt pending none has woken a process behind the loop. -/
def Unmissed (e : Event) : Prop :=
  e = .go → s.loop.place.atWfi → s.loop.pending = [] → s.missed = []

instance (e : Event) : Decidable (s.Unmissed e) :=
  inferInstanceAs (Decidable (_ → _ → _ → _))

variable {s : Watched} {s' : Watched} {e : Event} {p : Slot}

/-- A process the loop looks at has a queue of its own. -/
theorem exists_queue {x : Proc} (h : InBand x) : ∃ q : Fin nmlfq, x.queue = (q.val : ℤ) := by
  obtain ⟨hnonneg, hle, -, -⟩ := h
  have hlt : x.queue.toNat < nmlfq := by
    have hnmlfq : nmlfq = 4 := rfl
    omega
  exact ⟨⟨x.queue.toNat, hlt⟩, (Int.toNat_of_nonneg hnonneg).symm⟩

/-- The loop comes to every process… -/
theorem not_passed_mlfqChecks {x : Proc} (h : InBand x) (last : Fin nmlfq → Slot) :
    ¬ Passed (mlfqChecks last) x p := by
  obtain ⟨q, hq⟩ := exists_queue h
  exact fun hpassed => hpassed q hq (mem_mlfqChecks last q p)

/-- …and passes it when it is not RUNNABLE, or in another queue. -/
theorem not_passed_of_cons {t : Table} {q : Fin nmlfq} {r : Slot}
    {rest : List (Fin nmlfq × Slot)} (h : ¬ Passed ((q, r) :: rest) (t p) p)
    (hp : (t p).state = .runnable) (hwaits : t.waits q r = false) : ¬ Passed rest (t p) p := by
  intro hpassed
  refine h fun q' hq' hmem => ?_
  rcases List.mem_cons.mp hmem with heq | hmem
  · cases heq
    simp [Table.waits, hp, hq'] at hwaits
  · exact hpassed q' hq' hmem

theorem missedAfter_top {loop : Loop} (h : s.loop.place = .top) : s.missedAfter .go loop = [] := by
  rw [missedAfter.eq_def, h]

theorem missedAfter_go {loop : Loop} (h : s.loop.place ≠ .top) :
    s.missedAfter .go loop = s.missed := by
  rw [missedAfter.eq_def]
  split
  · exact absurd ‹_› h
  · cases ‹Event.go = .take _›
  · rfl

theorem missedAfter_take {loop : Loop} {i : Irq} {rest : List (Fin nmlfq × Slot)}
    (h : s.loop.place = .mlfqScan rest) : s.missedAfter (.take i) loop =
      s.missed ++ wokenBehind rest s.loop.globals.table loop.globals.table := by
  rw [missedAfter.eq_def, h]

theorem mem_wokenBehind {rest : List (Fin nmlfq × Slot)} {t t' : Table} :
    p ∈ wokenBehind rest t t' ↔
      (t p).state ≠ .runnable ∧ (t' p).state = .runnable ∧ Passed rest (t' p) p := by
  simp [wokenBehind]

/-- **While the loop looks at the table**, who is RUNNABLE is still to come or missed. -/
structure Sighted (s : Watched) : Prop where
  ofBuild : s.loop.place.OfBuild .mlfq
  inBand : ∀ q, InBand (s.loop.globals.table q)
  boost : ∀ rest, s.loop.place = .boost rest → s.missed = []
  seen : ∀ rest, s.loop.place = .mlfqScan rest →
    ∀ p, (s.loop.globals.table p).state = .runnable →
      p ∈ s.missed ∨ ¬ Passed rest (s.loop.globals.table p) p
  missed : ∀ rest, s.loop.place = .mlfqScan rest →
    ∀ p ∈ s.missed, (s.loop.globals.table p).state = .runnable

theorem sighted_boot : boot.Sighted :=
  ⟨trivial, (Smp.banded_boot (n := 0)).inBand, nofun, nofun, nofun⟩

/-- Nothing is to be shown where the loop does not look at the table. -/
theorem sighted_elsewhere (hof : s.loop.place.OfBuild .mlfq)
    (hband : ∀ q, InBand (s.loop.globals.table q))
    (hboost : ∀ rest, s.loop.place = .boost rest → s.missed = [])
    (hscan : ∀ rest, s.loop.place ≠ .mlfqScan rest) : s.Sighted :=
  ⟨hof, hband, hboost, fun rest hrest => absurd hrest (hscan rest),
    fun rest hrest => absurd hrest (hscan rest)⟩

/-- The loop starts to look at the table, with nobody missed. -/
theorem sighted_mlfqChecks (hof : s.loop.place.OfBuild .mlfq)
    (hband : ∀ q, InBand (s.loop.globals.table q)) {last : Fin nmlfq → Slot}
    (hscan : s.loop.place = .mlfqScan (mlfqChecks last)) (hmissed : s.missed = []) : s.Sighted := by
  refine ⟨hof, hband, fun _ _ => hmissed, fun rest hrest p _ => .inr ?_, fun rest _ p hp => ?_⟩
  · cases hscan.symm.trans hrest
    exact not_passed_mlfqChecks (hband p) _
  · rw [hmissed] at hp
    cases hp

/-- The scheduler's own steps. -/
theorem Sighted.go (h : s.Sighted) (hstep : step s .go = some s') : s'.Sighted := by
  obtain ⟨loop, hgo, rfl⟩ := Option.map_eq_some_iff.mp hstep
  have hof := Loop.ofBuild_step h.ofBuild hgo
  have hband (q : Slot) : InBand (loop.globals.table q) :=
    ((Loop.kept_of_step hgo).fate q).inBand (h.inBand q)
  have hof' := h.ofBuild
  have hgo : s.loop.go .mlfq = some loop := hgo
  rw [Loop.go.eq_def] at hgo
  split at hgo <;> rename_i hplace <;> rw [hplace] at hof'
  case h_1 => -- `.top`
    have hmissed : s.missedAfter .go loop = [] := missedAfter_top hplace
    dsimp only at hgo
    split at hgo <;> cases hgo
    · exact sighted_elsewhere hof hband (fun _ _ => hmissed) (by simp)
    · exact sighted_mlfqChecks hof hband rfl hmissed
  all_goals
    have hmissed : s.missedAfter .go loop = s.missed :=
      missedAfter_go fun htop => by cases hplace.symm.trans htop
  case h_2 => -- the end of `.boost`
    rw [h.boost _ hplace] at hmissed
    cases hgo
    exact sighted_mlfqChecks hof hband rfl hmissed
  case h_3 q rest => -- `.boost`
    cases hgo
    exact sighted_elsewhere hof hband (fun _ _ => hmissed.trans (h.boost _ hplace)) (by simp)
  case h_5 q r rest => -- `.mlfqScan`
    split at hgo <;> cases hgo
    · exact sighted_elsewhere hof hband (by simp [Loop.dispatch])
        (by simp [Loop.dispatch])
    · rename_i hwaits
      refine ⟨hof, hband, by simp, fun rest' hrest p hp => ?_, fun rest' _ p hp => ?_⟩
      · cases hrest
        rw [hmissed]
        exact (h.seen _ hplace p hp).imp_right fun hpassed =>
          not_passed_of_cons hpassed hp (by simpa using hwaits)
      · rw [hmissed] at hp
        exact h.missed _ hplace p hp
  case h_4 =>
    cases hgo
    exact sighted_elsewhere hof hband (by simp) (by simp)
  case h_11 =>
    split at hgo <;> cases hgo
    exact sighted_elsewhere hof hband (by simp) (by simp)
  case h_12 => cases hgo
  all_goals cases hof'

/-- An interrupt while the loop looks at the table. -/
theorem Sighted.take (h : s.Sighted) {rest : List (Fin nmlfq × Slot)} {i : Irq}
    (hplace : s.loop.place = .mlfqScan rest) {loop : Loop} (hplace' : loop.place = .mlfqScan rest)
    (hof : loop.place.OfBuild .mlfq) (hband : ∀ q, InBand (loop.globals.table q))
    (hnudged : ∀ q, Nudged (s.loop.globals.table q) (loop.globals.table q)) :
    Sighted ⟨loop, s.missedAfter (.take i) loop⟩ := by
  rw [missedAfter_take hplace]
  refine ⟨hof, hband, fun rest' hrest => ?_, fun rest' hrest p hp => ?_, fun rest' hrest p hp => ?_⟩
  · cases hplace'.symm.trans hrest
  · cases hplace'.symm.trans hrest
    rw [List.mem_append, mem_wokenBehind]
    by_cases hpassed : Passed rest (loop.globals.table p) p
    · by_cases hold : (s.loop.globals.table p).state = .runnable
      · refine .inl (.inl ((h.seen rest hplace p hold).resolve_right fun hnot => hnot ?_))
        exact fun q hq => hpassed q ((hnudged p).queue.trans hq)
      · exact .inl (.inr ⟨hold, hp, hpassed⟩)
    · exact .inr hpassed
  · rcases List.mem_append.mp hp with hp | hp
    · have hold := h.missed rest hplace p hp
      dsimp only
      rw [(hnudged p).state_eq (by rw [hold]; decide), hold]
    · exact (mem_wokenBehind.mp hp).2.1

theorem Sighted.step (h : s.Sighted) (hstep : step s e = some s') : s'.Sighted := by
  by_cases hne : e = .go
  · subst hne
    exact h.go hstep
  · obtain ⟨loop, hloop, rfl⟩ := Option.map_eq_some_iff.mp hstep
    have hof := Loop.ofBuild_step h.ofBuild hloop
    have hband (q : Slot) : InBand (loop.globals.table q) :=
      ((Loop.kept_of_step hloop).fate q).inBand (h.inBand q)
    rcases Loop.place_of_step hne hloop with hplace | ⟨r, rest, -, hback⟩
    · by_cases hscan : ∃ rest, s.loop.place = .mlfqScan rest
      · obtain ⟨rest, hrest⟩ := hscan
        have hcur : s.loop.cur = none := by rw [Loop.cur, Loop.running?, hrest]; rfl
        rcases Loop.eq_of_step hne hcur hloop with ⟨i, rfl, rfl⟩ | ⟨i, rfl, -, rfl⟩
        · exact ⟨hof, hband, h.boost, h.seen, h.missed⟩
        · exact h.take hrest hrest hof hband (Globals.nudged_devintr _ i)
      · have hno (rest : List (Fin nmlfq × Slot)) : loop.place ≠ .mlfqScan rest :=
          fun hrest => hscan ⟨rest, hplace ▸ hrest⟩
        have hmissed : s.missedAfter e loop = s.missed := by
          rw [missedAfter.eq_def]
          split
          · exact absurd rfl hne
          · exact absurd ⟨_, ‹_›⟩ hscan
          · rfl
        exact sighted_elsewhere hof hband
          (fun rest hrest => hmissed.trans (h.boost rest (hplace ▸ hrest))) hno
    · have hback : loop.place = .top := hback
      refine sighted_elsewhere hof hband (fun _ hrest => ?_) fun _ hrest => ?_ <;>
        cases hback.symm.trans hrest

/-- **At a `wfi` with no interrupt pending** who is RUNNABLE has been missed. -/
theorem Sighted.rested_iff_unmissed (h : s.Sighted) : Rested s.loop e ↔ s.Unmissed e := by
  refine forall_congr' fun _ => forall_congr' fun hwfi => ?_
  have hof := h.ofBuild
  rw [Place.atWfi.eq_def] at hwfi
  split at hwfi <;> rename_i hplace
  · constructor
    · intro hrested hpending
      have hnone := hrested.resolve_right fun hne => hne hpending
      exact List.eq_nil_iff_forall_not_mem.mpr fun p hp => hnone p (h.missed _ hplace p hp)
    · intro hmissed
      by_cases hpending : s.loop.pending = []
      · refine .inl fun p hp => ?_
        rcases h.seen _ hplace p hp with hmem | hpassed
        · rw [hmissed hpending] at hmem
          cases hmem
        · exact hpassed fun _ _ => List.not_mem_nil
      · exact .inr hpending
  · rw [hplace] at hof
    cases hof
  · cases hwfi

/-- **The MLFQ scheduler waits with work to do exactly when an interrupt has woken a process behind
the loop**, and no other is pending; the RR scheduler never does. -/
theorem rested_iff (es : List Event) :
    (Along step (fun s e => Rested s.loop e) boot es ↔ Along step Unmissed boot es) ∧
      Along (Loop.step .rr) Rested .boot es :=
  ⟨along_congr' (fun _ _ _ ht hstep => ht.step hstep) (fun _ _ ht => ht.rested_iff_unmissed)
    sighted_boot,
    along_of_invariant (fun _ _ _ ht hstep => ht.step hstep) (fun _ _ ht => ht.rested)
      Loop.ahead_boot⟩

/-- `init` sleeps, and is woken when the loop has looked at the whole table. -/
def late : List Event :=
  List.replicate 65 Event.go ++ [Event.call (.prepare (.addr 5)), Event.sleep] ++
    List.replicate 257 Event.go ++
    [Event.raise (.device [.addr 5]), Event.take (.device [.addr 5]), Event.go]

/-- The CPU then waits, with `init` RUNNABLE. -/
theorem not_rested : ¬ ∀ es s, run step boot es = some s →
    Along step (fun s e => Rested s.loop e) boot es := by
  intro h
  have hsome := Option.eq_some_of_isSome (show (run step boot late).isSome by decide +kernel)
  have hrested := h late _ hsome
  revert hrested
  decide +kernel

end Watched

end MiniProject.Kernel
