import MiniProject.Kernel.OneCpu

/-!
# Kernel/Fifo — whose turn it is under FIFO

The timer takes the CPU from the process that runs in this build too, and the scheduler then chooses
the least pid among the RUNNABLE: it comes back to the same process if nobody older has become
RUNNABLE in the meantime, and only then (`strict_iff`).  Pids are handed out in order, so that the
least pid is the earliest process.
-/

namespace MiniProject.Kernel

/-! ## The history -/

/-- The FIFO kernel with its history: the process dispatched last, if it has not slept or exited
since, when each process was created, and how many were. -/
structure Fifo where
  uni : Uni fifo
  turn : Option Slot
  born : Slot → ℕ
  births : ℕ

namespace Fifo

open Uni (Event)

/-- `init` is the first. -/
def boot : Fifo := ⟨.boot fifo, none, fun _ => 0, 1⟩

variable (s : Fifo)

/-- A process is dispatched, or sleeps or exits if it comes to that. -/
def turnAfter (e : Event) (uni : Uni fifo) : Option Slot :=
  if e = .look then uni.cur.or s.turn else if e.endsTurn then uni.cur else s.turn

/-- A process is created. -/
def bornAfter : Event → Slot → ℕ
  | .call (.alloc q _) => Function.update s.born q s.births
  | _ => s.born

/-- A step. -/
def step (e : Event) : Option Fifo :=
  (s.uni.step e).map fun uni =>
    { uni
      turn := s.turnAfter e uni
      born := s.bornAfter e
      births := if e.isAlloc then s.births + 1 else s.births }

/-- The process that a step dispatches. -/
def dispatched (e : Event) : Option Slot := if e = .look then s.uni.look.cur else none

/-! ## What is claimed, and when it holds -/

/-- Nobody is dispatched out of turn, and whoever is dispatched is the earliest of the RUNNABLE. -/
structure Strict (e : Event) : Prop where
  unpreempted : ∀ r ∈ s.dispatched e, ∀ p ∈ s.turn, r = p
  earliest : ∀ r ∈ s.dispatched e, ∀ q, (s.uni.globals.table q).state = .runnable →
    s.born r ≤ s.born q

instance (e : Event) : Decidable (s.Strict e) :=
  decidable_of_iff
    ((∀ r ∈ s.dispatched e, ∀ p ∈ s.turn, r = p) ∧
      ∀ r ∈ s.dispatched e, ∀ q, (s.uni.globals.table q).state = .runnable → s.born r ≤ s.born q)
    ⟨fun h => ⟨h.1, h.2⟩, fun h => ⟨h.1, h.2⟩⟩

/-- When the scheduler looks in the middle of a turn, nobody older is RUNNABLE. -/
def NoOlder (e : Event) : Prop :=
  e = .look → ∀ p ∈ s.turn, ∀ q, (s.uni.globals.table q).state = .runnable → s.born p ≤ s.born q

variable {s : Fifo} {s' : Fifo} {e : Event} {p q r : Slot}

/-! ## What holds all along -/

/-- **The order of the pids is the order of the births**, and whose turn it is runs or is
RUNNABLE. -/
structure Ordered (s : Fifo) : Prop where
  running : s.uni.Running
  nextpid : s.uni.globals.nextpid = int (s.births + 1)
  pid : ∀ q, (s.uni.globals.table q).state ≠ .unused →
    (s.uni.globals.table q).pid = s.born q + 1
  born_lt : ∀ q, (s.uni.globals.table q).state ≠ .unused → s.born q < s.births
  born_inj : ∀ p q, (s.uni.globals.table p).state ≠ .unused →
    (s.uni.globals.table q).state ≠ .unused → s.born p = s.born q → p = q
  turn_running : ∀ r, s.uni.cur = some r → s.turn = some r
  turn_waiting : ∀ p, s.turn = some p → s.uni.cur = none →
    (s.uni.globals.table p).state = .runnable

/-- The births that a step adds. -/
theorem births_step (h : step s e = some s') :
    s'.births = if e.isAlloc then s.births + 1 else s.births := by
  obtain ⟨uni, -, rfl⟩ := Option.map_eq_some_iff.mp h
  rfl

theorem kept_of_step (hne : e ≠ .look) (h : step s e = some s') : Uni.Kept s.uni s'.uni e := by
  obtain ⟨uni, huni, rfl⟩ := Option.map_eq_some_iff.mp h
  exact Uni.kept_of_step hne huni

/-- A process after a step is one from before, or the one created. -/
def Dated (s s' : Fifo) (e : Event) (q : Slot) : Prop :=
  ((s.uni.globals.table q).state ≠ .unused ∧
      (s'.uni.globals.table q).pid = (s.uni.globals.table q).pid ∧ s'.born q = s.born q) ∨
    (e = .call (.alloc q true) ∧ (s'.uni.globals.table q).pid = s.uni.globals.nextpid ∧
      s'.born q = s.births)

theorem bornAfter_of_ne (h : ∀ ok, e ≠ .call (.alloc q ok)) : s.bornAfter e q = s.born q := by
  unfold bornAfter
  split
  · rename_i q' ok
    exact Function.update_of_ne (fun hq => h ok (by rw [hq])) _ _
  · rfl

theorem dated_of_step (h : s.Ordered) (hne : e ≠ .look) (hstep : step s e = some s')
    (hq : (s'.uni.globals.table q).state ≠ .unused) : Dated s s' e q := by
  obtain ⟨uni, huni, rfl⟩ := Option.map_eq_some_iff.mp hstep
  rcases (Uni.kept_of_step hne huni).alive h.running hq with ⟨hold, hpid⟩ | ⟨rfl, hpid⟩
  · refine .inl ⟨hold, hpid, bornAfter_of_ne ?_⟩
    rintro ok rfl
    exact hold (Uni.unused_of_alloc huni)
  · exact .inr ⟨rfl, hpid, Function.update_self _ _ _⟩

/-- Pids and births stay in order. -/
theorem Ordered.of_dated (h : s.Ordered) (hrun : s'.uni.Running)
    (hnextpid : s'.uni.globals.nextpid = int (s'.births + 1))
    (hbirths : s'.births = if e.isAlloc then s.births + 1 else s.births)
    (hfew : s'.births < 2 ^ 31)
    (hdated : ∀ q, (s'.uni.globals.table q).state ≠ .unused → Dated s s' e q)
    (hturn : ∀ r, s'.uni.cur = some r → s'.turn = some r)
    (hwait : ∀ p, s'.turn = some p → s'.uni.cur = none →
      (s'.uni.globals.table p).state = .runnable) : s'.Ordered where
  running := hrun
  nextpid := hnextpid
  turn_running := hturn
  turn_waiting := hwait
  pid q hq := by
    rcases hdated q hq with ⟨hold, hpid, hborn⟩ | ⟨rfl, hpid, hborn⟩
    · rw [hpid, hborn, h.pid q hold]
    · have hbirths' : s'.births = s.births + 1 := hbirths
      rw [hpid, hborn, h.nextpid]
      exact int_of_lt (by omega) (by omega)
  born_lt q hq := by
    rcases hdated q hq with ⟨hold, -, hborn⟩ | ⟨rfl, -, hborn⟩
    · have hlt := h.born_lt q hold
      rw [hborn, hbirths]
      split <;> omega
    · have hbirths' : s'.births = s.births + 1 := hbirths
      omega
  born_inj p q hp hq hpq := by
    rcases hdated p hp with ⟨holdp, -, hbornp⟩ | ⟨rfl, -, hbornp⟩ <;>
      rcases hdated q hq with ⟨holdq, -, hbornq⟩ | ⟨heq, -, hbornq⟩
    · exact h.born_inj p q holdp holdq (by rw [← hbornp, ← hbornq, hpq])
    · have hlt := h.born_lt p holdp
      omega
    · have hlt := h.born_lt q holdq
      omega
    · injection heq with heq
      injection heq

/-- The next pid keeps step with the births. -/
theorem Ordered.nextpid_step (h : s.Ordered) (hne : e ≠ .look) (hfew : s'.births < 2 ^ 31)
    (hstep : step s e = some s') : s'.uni.globals.nextpid = int (s'.births + 1) := by
  have hbirths := births_step hstep
  have hnextpid := (kept_of_step hne hstep).nextpid
  cases halloc : e.isAlloc with
  | true =>
    rw [halloc, if_pos rfl] at hbirths hnextpid
    have hint : int (s.births + 1) = s.births + 1 := int_of_lt (by omega) (by omega)
    rw [h.nextpid, hint] at hnextpid
    rw [hnextpid, hbirths, Int.natCast_succ]
  | false =>
    rw [halloc] at hbirths hnextpid
    rw [hbirths]
    exact hnextpid.trans h.nextpid

theorem turnAfter_of_endsTurn (hne : e ≠ .look) (he : e.endsTurn = true) (uni : Uni fifo) :
    s.turnAfter e uni = uni.cur := by
  rw [turnAfter, if_neg hne, if_pos he]

theorem turnAfter_of_kept (hne : e ≠ .look) (he : e.endsTurn = false) (uni : Uni fifo) :
    s.turnAfter e uni = s.turn := by
  rw [turnAfter, if_neg hne, he]
  rfl

/-- Who loses the CPU without asking for it, or had lost it, is RUNNABLE. -/
theorem Ordered.runnable_step (h : s.Ordered) (hne : e ≠ .look) (he : e.endsTurn = false)
    {uni : Uni fifo} (huni : s.uni.step e = some uni) (hnone : uni.cur = none)
    (hturn : s.turn = some p) : (uni.globals.table p).state = .runnable := by
  rcases hcur : s.uni.cur with _ | r
  · have hrunnable := h.turn_waiting p hturn hcur
    have hnudged := (Uni.kept_of_step hne huni).nudged h.running hrunnable
    rw [hnudged.state_eq (by rw [hrunnable]; decide), hrunnable]
  · obtain rfl : r = p := Option.some.inj ((h.turn_running r hcur).symm.trans hturn)
    exact Uni.runnable_of_left hcur hnone he hne huni

/-- Between looks, whose turn it is runs or waits until it sleeps or exits. -/
theorem Ordered.step_of_ne (h : s.Ordered) (hne : e ≠ .look) (hfew : s'.births < 2 ^ 31)
    (hstep : step s e = some s') : s'.Ordered := by
  have hkept := kept_of_step hne hstep
  have hnextpid := h.nextpid_step hne hfew hstep
  have hdated (q : Slot) := dated_of_step (q := q) h hne hstep
  obtain ⟨uni, huni, rfl⟩ := Option.map_eq_some_iff.mp hstep
  refine h.of_dated (hkept.running h.running) hnextpid rfl hfew hdated (fun r hr => ?_)
    fun p hp hnone => ?_
  · cases he : e.endsTurn with
    | true => exact (turnAfter_of_endsTurn hne he uni).trans hr
    | false => exact (turnAfter_of_kept hne he uni).trans (h.turn_running r (hkept.cur hr))
  · cases he : e.endsTurn with
    | true => exact nomatch (hp.symm.trans (turnAfter_of_endsTurn hne he uni)).trans hnone
    | false =>
      exact h.runnable_step hne he huni hnone ((turnAfter_of_kept hne he uni).symm.trans hp)

/-! ## A look -/

theorem look_some (h : s.uni.globals.table.pickFifo = some p) :
    s.uni.look = ⟨s.uni.globals.dispatch p, (), .running p⟩ := by
  have hlook : fifo.look s.uni.locals s.uni.globals = (.swtch p, (), s.uni.globals) := by
    dsimp only [fifo]
    rw [h]
  rw [Uni.look, hlook]
  rfl

theorem look_none (h : s.uni.globals.table.pickFifo = none) :
    s.uni.look = ⟨s.uni.globals, (), .loop false⟩ := by
  have hlook : fifo.look s.uni.locals s.uni.globals = (.again, (), s.uni.globals) := by
    dsimp only [fifo]
    rw [h]
  rw [Uni.look, hlook]
  rfl

/-- The scheduler is in its loop when it looks. -/
theorem of_look {uni : Uni fifo} (h : s.uni.step .look = some uni) :
    s.uni.cur = none ∧ uni = s.uni.look := by
  rw [Uni.step] at h
  split at h
  · rename_i ticked hmode
    cases h
    rw [Uni.cur, hmode]
    exact ⟨rfl, rfl⟩
  · cases h

theorem nextpid_look : s.uni.look.globals.nextpid = s.uni.globals.nextpid := by
  rcases hpick : s.uni.globals.table.pickFifo with _ | c
  · rw [look_none hpick]
  · rw [look_some hpick]
    rfl

/-- A look makes no process and keeps the pids. -/
theorem alive_look (hq : (s.uni.look.globals.table q).state ≠ .unused) :
    (s.uni.globals.table q).state ≠ .unused ∧
      (s.uni.look.globals.table q).pid = (s.uni.globals.table q).pid := by
  rcases hpick : s.uni.globals.table.pickFifo with _ | c
  · rw [look_none hpick] at hq ⊢
    exact ⟨hq, rfl⟩
  · rw [look_some hpick] at hq ⊢
    by_cases hqc : q = c
    · subst hqc
      rw [Globals.table_dispatch_self, (Table.pickFifo_eq_some hpick).1]
      exact ⟨nofun, rfl⟩
    · rw [Globals.table_dispatch_of_ne hqc] at hq ⊢
      exact ⟨hq, rfl⟩

/-- A look that gives the CPU to nobody changes nothing. -/
theorem globals_look (h : s.uni.look.cur = none) : s.uni.look.globals = s.uni.globals := by
  rcases hpick : s.uni.globals.table.pickFifo with _ | c
  · rw [look_none hpick]
  · rw [look_some hpick] at h
    cases h

/-- Whoever is dispatched has the turn. -/
theorem Ordered.step_look (h : s.Ordered) (hfew : s'.births < 2 ^ 31)
    (hstep : step s .look = some s') : s'.Ordered := by
  obtain ⟨uni, huni, rfl⟩ := Option.map_eq_some_iff.mp hstep
  have hrunning := h.running.step huni
  obtain ⟨hcur, rfl⟩ := of_look huni
  refine h.of_dated (e := .look) hrunning (nextpid_look.trans h.nextpid) rfl hfew
    (fun q hq => .inl ?_) (fun r hr => ?_) fun p hp hnone => ?_
  · obtain ⟨hold, hpid⟩ := alive_look hq
    exact ⟨hold, hpid, rfl⟩
  · show s.uni.look.cur.or s.turn = some r
    rw [show s.uni.look.cur = some r from hr]
    rfl
  · change s.uni.look.cur.or s.turn = some p at hp
    change s.uni.look.cur = none at hnone
    show (s.uni.look.globals.table p).state = .runnable
    rw [hnone] at hp
    rw [globals_look hnone]
    exact h.turn_waiting p hp hcur

theorem Ordered.step (h : s.Ordered) (hfew : s'.births < 2 ^ 31) (hstep : step s e = some s') :
    s'.Ordered := by
  by_cases hne : e = .look
  · subst hne
    exact h.step_look hfew hstep
  · exact h.step_of_ne hne hfew hstep

theorem ordered_boot : boot.Ordered := by
  have hslot (q : Slot) (hq : (boot.uni.globals.table q).state ≠ .unused) : q = 0 := by
    by_contra hne
    refine hq ?_
    exact congrArg Proc.state (Table.modify_of_ne hne)
  have hnextpid : (2 : ℤ) = int 2 := (int_of_lt (by decide) (by decide)).symm
  refine ⟨Uni.running_boot, hnextpid, fun q hq => ?_, fun q _ => Nat.zero_lt_one,
    fun p q hp hq _ => (hslot p hp).trans (hslot q hq).symm, nofun, nofun⟩
  rw [hslot q hq]
  rfl

/-! ## The turn -/

/-- Whoever is dispatched is the earliest of the RUNNABLE. -/
theorem Ordered.earliest (h : s.Ordered) {c : Slot}
    (hpick : s.uni.globals.table.pickFifo = some c)
    (hq : (s.uni.globals.table q).state = .runnable) : s.born c ≤ s.born q := by
  obtain ⟨hc, hleast⟩ := Table.pickFifo_eq_some hpick
  have hle := hleast q hq
  rw [h.pid c (by rw [hc]; decide), h.pid q (by rw [hq]; decide)] at hle
  omega

/-- **A look keeps to the turn exactly when nobody older is RUNNABLE.** -/
theorem Ordered.strict_look (h : s.Ordered) (hnone : s.uni.cur = none) :
    s.Strict .look ↔ s.NoOlder .look := by
  constructor
  · rintro ⟨hturn, hearliest⟩ - p hp q hq
    have hrunnable := h.turn_waiting p hp hnone
    rcases hpick : s.uni.globals.table.pickFifo with _ | c
    · exact absurd hrunnable (Table.pickFifo_eq_none hpick p)
    · have hdispatched : s.dispatched .look = some c := by
        rw [dispatched, if_pos rfl, look_some hpick]
        rfl
      rw [← hturn c hdispatched p hp]
      exact hearliest c hdispatched q hq
  · intro hold
    have hpicked (r : Slot) (hr : s.dispatched .look = some r) :
        s.uni.globals.table.pickFifo = some r := by
      rw [dispatched, if_pos rfl] at hr
      rcases hpick : s.uni.globals.table.pickFifo with _ | c
      · rw [look_none hpick] at hr
        cases hr
      · rw [look_some hpick] at hr
        exact hr
    refine ⟨fun r hr p hp => ?_, fun r hr q hq => h.earliest (hpicked r hr) hq⟩
    have hp' := h.turn_waiting p hp hnone
    have hr' := (Table.pickFifo_eq_some (hpicked r hr)).1
    have hle := hold rfl p hp r hr'
    have hge := h.earliest (hpicked r hr) hp'
    exact h.born_inj r p (by rw [hr']; decide) (by rw [hp']; decide) (Nat.le_antisymm hge hle)

theorem Ordered.strict_iff_noOlder (h : s.Ordered) (hstep : s.step e = some s') :
    s.Strict e ↔ s.NoOlder e := by
  by_cases hne : e = .look
  · subst hne
    obtain ⟨uni, huni, -⟩ := Option.map_eq_some_iff.mp hstep
    exact h.strict_look (of_look huni).1
  · have hdispatched : s.dispatched e = none := if_neg hne
    refine iff_of_true ⟨?_, ?_⟩ fun h => absurd h hne
    · rw [hdispatched]
      nofun
    · rw [hdispatched]
      nofun

/-- **FIFO is strict exactly when nobody older is RUNNABLE at a look in the middle of a turn**, in
every run in which the pids last. -/
theorem strict_iff {es : List Event} (h : run step boot es = some s) (hfew : s.births < 2 ^ 31) :
    Along step Strict boot es ↔ Along step NoOlder boot es := by
  refine along_congr_of_end (J := Ordered) (K := fun s => s.births < 2 ^ 31)
    (fun t e t' hstep hlt => ?_) (fun t e t' ht hlt hstep => ht.step hlt hstep)
    (fun t e t' ht _ hstep => ht.strict_iff_noOlder hstep) ordered_boot h hfew
  have hbirths := births_step hstep
  split at hbirths <;> omega

/-- `init` forks, and is asleep while the child runs… -/
theorem strict_iff_fork : ∃ s,
    run step boot [.look, .call (.alloc 1 true), .call (.ready 1), .call (.prepare (.addr 5)),
      .sleep, .look, .tick, .look] = some s ∧
      (Along step Strict boot [.look, .call (.alloc 1 true), .call (.ready 1),
        .call (.prepare (.addr 5)), .sleep, .look, .tick, .look] ↔
      Along step NoOlder boot [.look, .call (.alloc 1 true), .call (.ready 1),
        .call (.prepare (.addr 5)), .sleep, .look, .tick, .look]) :=
  ⟨_, rfl, strict_iff rfl (by decide)⟩

/-- …and takes the CPU from it when it is woken in the meantime. -/
theorem not_strict : ¬ ∀ (es : List Event) (s : Fifo), run step boot es = some s →
    s.births < 2 ^ 31 → Along step Strict boot es := by
  intro h
  have hrun := h [.look, .call (.alloc 1 true), .call (.ready 1), .call (.prepare (.addr 5)),
    .sleep, .look, .wake (.addr 5) 0, .tick, .look] _ rfl (by decide)
  revert hrun
  decide +kernel

end Fifo

end MiniProject.Kernel
