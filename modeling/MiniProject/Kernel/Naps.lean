import MiniProject.Kernel.Wakeups

/-!
# Kernel/Naps — `sys_sleep` and the clock

`sys_sleep` compares the ticks that have passed, as a difference of two `uint`s, with what it was
asked for, and sleeps on `&ticks` while they are too few; `clockintr` counts a tick and wakes the
sleepers under the same lock, one slot at a time.  Kills, preemptions and wakeups come in between.
Nobody returns too early, and nobody sleeps on past the interrupt that brought the last tick
(`sysSleep_spec`).
-/

namespace MiniProject.Kernel

open Rendezvous (Eased eased_wake eased_kill two)

/-- Where a process is in `sys_sleep`: before the step it is named after. -/
inductive NapPc
  | out
  | enter
  | read
  | test
  | check
  | prepare
  | release
  | sleep
  | resume
  | giveUp
  | finish
  | returned (r : ℤ)
  deriving DecidableEq, Repr

/-- Whether `tickslock` is held there. -/
def NapPc.holds : NapPc → Bool
  | .read | .test | .check | .prepare | .release | .giveUp | .finish => true
  | _ => false

/-- From the reading of `ticks` to the return. -/
def NapPc.counts : NapPc → Bool
  | .test | .check | .prepare | .release | .sleep | .resume | .giveUp | .finish => true
  | _ => false

/-- A call of `sys_sleep`: its argument, `ticks0`, how many ticks have passed since it was read, and
for how many of them `clockintr` has been through all the sleepers. -/
structure NapCall where
  pc : NapPc
  arg : BitVec 32
  ticks0 : BitVec 32
  passed : ℕ
  served : ℕ

/-- `n`, which is not negative any more. -/
def NapCall.n (c : NapCall) : BitVec 32 := if c.arg.toInt < 0 then 0 else c.arg

/-- Where `clockintr` is. -/
inductive Clockintr
  | out
  | locked
  | wakeup (rest : List Slot)
  | release
  deriving DecidableEq, Repr

/-- Between `ticks++` and the end of `wakeup`. -/
def Clockintr.wakes : Clockintr → Bool
  | .wakeup _ => true
  | _ => false

/-- Who has `tickslock`; `other` is `sys_uptime` or `sys_pause`. -/
inductive TicksHolder
  | sleeper (p : Slot)
  | clock
  | other
  deriving DecidableEq, Repr

/-- The processes, the clock, and the calls. -/
structure Naps where
  table : Table
  ticks : BitVec 32
  tickslock : Option TicksHolder
  clock : Clockintr
  calls : Slot → NapCall

namespace Naps

/-- What can happen next.  A process that is not in `sys_sleep` does what it likes to itself, and
`wakeOther` is a wakeup that is not the clock's, on `&ticks` too. -/
inductive Event
  | call (p : Slot) (arg : BitVec 32)
  | go (p : Slot)
  | leave (p : Slot)
  | clockintr
  | lockOther
  | unlockOther
  | outside (p : Slot) (x : Proc)
  | dispatch (p : Slot) (now : ℕ)
  | yield (p : Slot)
  | kill (pid : ℤ) (q : Slot)
  | wakeOther (chan : Chan) (q : Slot)

/-- Nobody is in `sys_sleep`. -/
def start (t : Table) (ticks : BitVec 32) : Naps :=
  ⟨t, ticks, none, .out, fun _ => ⟨.out, 0, 0, 0, 0⟩⟩

variable (s : Naps)

/-- Writing to one process. -/
def modify (p : Slot) (f : Proc → Proc) : Naps := { s with table := s.table.modify p f }

/-- Writing to one call. -/
def setCall (p : Slot) (c : NapCall) : Naps := { s with calls := Function.update s.calls p c }

/-- Process `p` goes on. -/
def setPc (p : Slot) (pc : NapPc) : Naps := s.setCall p { s.calls p with pc }

/-- `sys_sleep`, from `acquire(&tickslock)` on. -/
def sysSleep (build : Build) (p : Slot) : Option Naps :=
  match (s.calls p).pc with
  | .enter =>
    if s.tickslock = none then some { s.setPc p .read with tickslock := some (.sleeper p) }
    else none
  | .read =>
    some (s.setCall p { s.calls p with pc := .test, ticks0 := s.ticks, passed := 0, served := 0 })
  | .test =>
    some (s.setPc p (if (s.ticks - (s.calls p).ticks0).ult (s.calls p).n then .check else .finish))
  | .check => some (s.setPc p (if (s.table p).killed then .giveUp else .prepare))
  | .prepare => some ((s.modify p ({ · with chan := some .ticks })).setPc p .release)
  | .release => some { s.setPc p .sleep with tickslock := none }
  | .sleep =>
    if (s.table p).chan = none then some (s.setPc p .resume)
    else some ((s.modify p (·.sleep build)).setPc p .resume)
  | .resume =>
    if s.tickslock = none then some { s.setPc p .test with tickslock := some (.sleeper p) }
    else none
  | .giveUp => some { s.setPc p (.returned (-1)) with tickslock := none }
  | .finish => some { s.setPc p (.returned 0) with tickslock := none }
  | .out | .returned _ => none

/-- `clockintr`. -/
def clockintr : Option Naps :=
  match s.clock with
  | .out =>
    if s.tickslock = none then some { s with clock := .locked, tickslock := some .clock } else none
  | .locked =>
    some { s with
      ticks := s.ticks + 1
      clock := .wakeup (List.finRange nproc)
      calls := fun p =>
        if (s.calls p).pc.counts then { s.calls p with passed := (s.calls p).passed + 1 }
        else s.calls p }
  | .wakeup (q :: rest) => some { s.modify q (·.wake .ticks) with clock := .wakeup rest }
  | .wakeup [] =>
    some { s with
      clock := .release
      calls := fun p =>
        if (s.calls p).pc.counts then { s.calls p with served := (s.calls p).passed }
        else s.calls p }
  | .release => some { s with clock := .out, tickslock := none }

/-- A step. -/
def step (build : Build) (s : Naps) : Event → Option Naps
  | .call p arg =>
    if (s.calls p).pc = .out then some (s.setCall p { s.calls p with pc := .enter, arg }) else none
  | .go p => if (s.table p).state = .running then s.sysSleep build p else none
  | .leave p =>
    match (s.calls p).pc with
    | .returned _ => some (s.setPc p .out)
    | _ => none
  | .clockintr => s.clockintr
  | .lockOther => if s.tickslock = none then some { s with tickslock := some .other } else none
  | .unlockOther => if s.tickslock = some .other then some { s with tickslock := none } else none
  | .outside p x => if (s.calls p).pc = .out then some (s.modify p fun _ => x) else none
  | .dispatch p now =>
    if (s.table p).state = .runnable then some (s.modify p (·.dispatch now)) else none
  | .yield p =>
    if (s.table p).state = .running then some (s.modify p ({ · with state := .runnable }))
    else none
  | .kill pid q => if (s.table q).pid = pid then some (s.modify q Proc.kill) else none
  | .wakeOther chan q => some (s.modify q (·.wake chan))

/-! ## What holds of every process -/

variable {s s' : Naps} {build : Build} {e : Event} {p q : Slot}

/-- Process `p` in its call: what it has counted, what its place says of that, and that its channel
is `&ticks` only as long as the ticks are too few and a wakeup under way is still to come to it. -/
structure Fine (s : Naps) (p : Slot) (x : Proc) (c : NapCall) : Prop where
  lock : c.pc.holds → s.tickslock = some (.sleeper p)
  asleep : c.pc.counts → x.state = .sleeping → c.pc = .resume
  count : c.pc.counts → s.ticks = c.ticks0 + BitVec.ofNat 32 c.passed
  served : c.pc.counts → c.passed = c.served + if s.clock.wakes then 1 else 0
  short : c.pc = .check ∨ c.pc = .prepare → c.passed < 2 ^ 32 → c.passed < c.n.toNat
  waits : c.pc = .release ∨ c.pc = .sleep ∨ c.pc = .resume → x.chan = some .ticks →
    (c.passed < 2 ^ 32 → c.served < c.n.toNat) ∧ ∀ rest, s.clock = .wakeup rest → p ∈ rest
  done : c.pc = .finish ∨ c.pc = .returned 0 → c.passed < 2 ^ 32 → c.n.toNat ≤ c.passed
  killed : c.pc = .giveUp ∨ c.pc = .returned (-1) → x.killed = true

/-- **What every step keeps.** -/
structure Sound (s : Naps) : Prop where
  fine : ∀ p, s.Fine p (s.table p) (s.calls p)
  clock : s.clock ≠ .out → s.tickslock = some .clock

theorem fine_of_out {x : Proc} {c : NapCall} (hpc : c.pc = .out) : s.Fine p x c := by
  obtain ⟨pc, arg, ticks0, passed, served⟩ := c
  cases hpc
  exact ⟨nofun, nofun, nofun, nofun, nofun, nofun, nofun, nofun⟩

theorem sound_start (t : Table) (ticks : BitVec 32) : (start t ticks).Sound :=
  ⟨fun _ => fine_of_out rfl, fun h => absurd rfl h⟩

/-- What others do to a process leaves it as it is. -/
theorem Fine.eased {x y : Proc} {c : NapCall} (h : s.Fine p x c) (hxy : Eased x y)
    (hkilled : x.killed = true → y.killed = true) : s.Fine p y c where
  lock := h.lock
  asleep hc hy := h.asleep hc (hxy.state hy)
  count := h.count
  served := h.served
  short := h.short
  waits hpc hchan := by
    rcases hxy.chan with heq | heq
    · exact h.waits hpc (heq.symm.trans hchan)
    · cases heq.symm.trans hchan
  done := h.done
  killed hpc := hkilled (h.killed hpc)

/-- …and so does the lock, unless it is theirs, and the clock, unless it counts. -/
theorem Fine.congr' {x : Proc} {c : NapCall} (h : s.Fine p x c) (hticks : s'.ticks = s.ticks)
    (hwakes : s'.clock.wakes = s.clock.wakes)
    (hrest : ∀ rest', s'.clock = .wakeup rest' →
      ∃ rest, s.clock = .wakeup rest ∧ (p ∈ rest → p ∈ rest'))
    (hlock : c.pc.holds → s'.tickslock = s.tickslock) : s'.Fine p x c where
  lock hc := (hlock hc).trans (h.lock hc)
  asleep := h.asleep
  count := hticks ▸ h.count
  served := hwakes ▸ h.served
  short := h.short
  waits hpc hchan := by
    obtain ⟨hserved, hmem⟩ := h.waits hpc hchan
    refine ⟨hserved, fun rest' hclock => ?_⟩
    obtain ⟨rest, hclock, hsub⟩ := hrest rest' hclock
    exact hsub (hmem rest hclock)
  done := h.done
  killed := h.killed

theorem Fine.congr {x : Proc} {c : NapCall} (h : s.Fine p x c) (hticks : s'.ticks = s.ticks)
    (hclock : s'.clock = s.clock) (hlock : c.pc.holds → s'.tickslock = s.tickslock) :
    s'.Fine p x c :=
  h.congr' hticks (by rw [hclock]) (fun rest' h => ⟨rest', hclock.symm.trans h, id⟩) hlock

/-- A step of `p`: to the others nothing happens, and the lock is taken when it is free and given
back by whom it belongs to. -/
theorem Sound.of_one (h : s.Sound) (hticks : s'.ticks = s.ticks) (hclock : s'.clock = s.clock)
    {c : NapCall} (hcalls : s'.calls = Function.update s.calls p c)
    (htable : ∀ q, q ≠ p → s'.table q = s.table q)
    (hlock : s'.tickslock = s.tickslock ∨ s.tickslock = none ∨ s.tickslock = some (.sleeper p))
    (hp : s'.Fine p (s'.table p) c) : s'.Sound := by
  refine ⟨fun q => ?_, fun hout => ?_⟩
  · rw [hcalls]
    by_cases hq : q = p
    · rw [hq, Function.update_self]
      exact hp
    · rw [htable q hq, Function.update_of_ne hq]
      refine (h.fine q).congr hticks hclock fun hc => ?_
      have hmine := (h.fine q).lock hc
      rcases hlock with heq | hnone | hother
      · exact heq
      · cases hnone.symm.trans hmine
      · cases hother.symm.trans hmine
        exact absurd rfl hq
  · rw [hclock] at hout
    have hmine := h.clock hout
    rcases hlock with heq | hnone | hother
    · exact heq.trans hmine
    · cases hnone.symm.trans hmine
    · cases hother.symm.trans hmine

theorem table_modify_of_ne (s : Naps) (hq : q ≠ p) (f : Proc → Proc) :
    (s.modify p f).table q = s.table q := Table.modify_of_ne hq

theorem table_setPc_modify (s : Naps) (hq : q ≠ p) (f : Proc → Proc) (pc : NapPc) :
    ((s.modify p f).setPc p pc).table q = s.table q := Table.modify_of_ne hq

theorem table_setPc_modify_self (s : Naps) (f : Proc → Proc) (pc : NapPc) :
    ((s.modify p f).setPc p pc).table p = f (s.table p) := Table.modify_self

/-- `ticks - ticks0`, before it can wrap. -/
theorem toNat_ticks_sub {c : NapCall} (hcount : s.ticks = c.ticks0 + BitVec.ofNat 32 c.passed)
    (hpassed : c.passed < 2 ^ 32) : (s.ticks - c.ticks0).toNat = c.passed := by
  have hsub : s.ticks - c.ticks0 = BitVec.ofNat 32 c.passed := by
    rw [hcount, BitVec.add_comm, BitVec.add_sub_cancel]
  rw [hsub, BitVec.toNat_ofNat, Nat.mod_eq_of_lt hpassed]

/-- While a process holds the lock no wakeup is under way. -/
theorem Sound.not_wakes (h : s.Sound) (hp : (s.calls p).pc.holds) : s.clock = .out := by
  by_contra hclock
  have hmine := (h.fine p).lock hp
  rw [h.clock hclock] at hmine
  cases hmine

/-! ### `sys_sleep`, place by place -/

section Places

variable {x : Proc} {c : NapCall}

/-- A step behind `.read` carries the counts over; what is left is what the new place says. -/
theorem Fine.goOn {pc : NapPc} (h : s.Fine p x c) (hcounts : c.pc.counts)
    (hawake : x.state ≠ .sleeping) (hlock : pc.holds → s.tickslock = some (.sleeper p))
    (hshort : pc = .check ∨ pc = .prepare → c.passed < 2 ^ 32 → c.passed < c.n.toNat)
    (hwaits : pc = .release ∨ pc = .sleep ∨ pc = .resume → x.chan = some .ticks →
      (c.passed < 2 ^ 32 → c.served < c.n.toNat) ∧ ∀ rest, s.clock = .wakeup rest → p ∈ rest)
    (hdone : pc = .finish ∨ pc = .returned 0 → c.passed < 2 ^ 32 → c.n.toNat ≤ c.passed)
    (hkilled : pc = .giveUp ∨ pc = .returned (-1) → x.killed = true) :
    s.Fine p x { c with pc } where
  lock := hlock
  asleep _ hs := absurd hs hawake
  count _ := h.count hcounts
  served _ := h.served hcounts
  short := hshort
  waits := hwaits
  done := hdone
  killed := hkilled

/-- `ticks0 = ticks`: none has passed. -/
theorem Fine.read (h : s.Fine p x c) (hpc : c.pc = .read) (hawake : x.state ≠ .sleeping)
    (hout : s.clock = .out) :
    s.Fine p x { c with pc := .test, ticks0 := s.ticks, passed := 0, served := 0 } := by
  have hlock := h.lock (by rw [hpc]; rfl)
  refine ⟨fun _ => hlock, fun _ hs => absurd hs hawake, fun _ => ?_, fun _ => ?_, nofun, nofun,
    nofun, nofun⟩
  · exact (BitVec.add_zero _).symm
  · change _ = 0 + if s.clock.wakes then 1 else 0
    rw [hout]
    rfl

/-- `ticks - ticks0 < n` says whether the ticks that have passed are too few. -/
theorem Fine.test (h : s.Fine p x c) (hpc : c.pc = .test) (hawake : x.state ≠ .sleeping) :
    s.Fine p x { c with pc := if (s.ticks - c.ticks0).ult c.n then .check else .finish } := by
  have hcounts : c.pc.counts := by rw [hpc]; rfl
  have hlock := h.lock (by rw [hpc]; rfl)
  have hcount := h.count hcounts
  cases hult : (s.ticks - c.ticks0).ult c.n with
  | true =>
    refine h.goOn hcounts hawake (fun _ => hlock) (fun _ hlt => ?_) nofun nofun nofun
    rw [BitVec.ult, toNat_ticks_sub hcount hlt, decide_eq_true_eq] at hult
    exact hult
  | false =>
    refine h.goOn hcounts hawake (fun _ => hlock) nofun nofun (fun _ hlt => ?_) nofun
    rw [BitVec.ult, toNat_ticks_sub hcount hlt, decide_eq_false_iff_not, Nat.not_lt] at hult
    exact hult

/-- Who has been killed gives up. -/
theorem Fine.check (h : s.Fine p x c) (hpc : c.pc = .check) (hawake : x.state ≠ .sleeping) :
    s.Fine p x { c with pc := if x.killed then .giveUp else .prepare } := by
  have hcounts : c.pc.counts := by rw [hpc]; rfl
  have hlock := h.lock (by rw [hpc]; rfl)
  cases hk : x.killed with
  | true => exact h.goOn hcounts hawake (fun _ => hlock) nofun nofun nofun fun _ => hk
  | false =>
    exact h.goOn hcounts hawake (fun _ => hlock) (fun _ => h.short (.inl hpc)) nofun nofun nofun

/-- `sleep` sets the channel: the ticks are too few, and no wakeup is under way. -/
theorem Fine.prepare (h : s.Fine p x c) (hpc : c.pc = .prepare) (hawake : x.state ≠ .sleeping)
    (hout : s.clock = .out) :
    s.Fine p { x with chan := some .ticks } { c with pc := .release } := by
  have hlock := h.lock (by rw [hpc]; rfl)
  have hcount := h.count (by rw [hpc]; rfl)
  have hserved := h.served (by rw [hpc]; rfl)
  refine ⟨fun _ => hlock, fun _ hs => absurd hs hawake, fun _ => hcount, fun _ => hserved, nofun,
    fun _ _ => ⟨fun hlt => ?_, fun rest hrest => ?_⟩, nofun, nofun⟩
  · have hle : c.served ≤ c.passed := hserved ▸ Nat.le_add_right _ _
    exact Nat.lt_of_le_of_lt hle (h.short (.inr hpc) hlt)
  · cases hout.symm.trans hrest

/-- `tickslock` is given back with the channel set. -/
theorem Fine.release (h : s.Fine p x c) (hpc : c.pc = .release) (hawake : x.state ≠ .sleeping) :
    s.Fine p x { c with pc := .sleep } := by
  have hcounts : c.pc.counts := by rw [hpc]; rfl
  exact h.goOn hcounts hawake nofun nofun (fun _ => h.waits (.inl hpc)) nofun nofun

/-- The channel stays as it is, whether the process goes to sleep or not. -/
theorem Fine.sleep {y : Proc} (h : s.Fine p x c) (hpc : c.pc = .sleep) (hchan : y.chan = x.chan) :
    s.Fine p y { c with pc := .resume } := by
  have hcount := h.count (by rw [hpc]; rfl)
  have hserved := h.served (by rw [hpc]; rfl)
  exact ⟨nofun, fun _ _ => rfl, fun _ => hcount, fun _ => hserved, nofun,
    fun _ hy => h.waits (.inr (.inl hpc)) (hchan.symm.trans hy), nofun, nofun⟩

end Places

/-- **The process goes on in its call.** -/
theorem Sound.sysSleep (h : s.Sound) (hrun : (s.table p).state = .running)
    (hstep : s.sysSleep build p = some s') : s'.Sound := by
  have hp := h.fine p
  have hawake : (s.table p).state ≠ .sleeping := by
    rw [hrun]
    nofun
  rw [Naps.sysSleep] at hstep
  split at hstep <;> rename_i hpc
  case h_1 => -- `.enter`
    obtain ⟨hfree, hstep⟩ := Option.ite_none_right_eq_some.mp hstep
    cases hstep
    exact h.of_one rfl rfl rfl (fun _ _ => rfl) (.inr (.inl hfree))
      ⟨fun _ => rfl, nofun, nofun, nofun, nofun, nofun, nofun, nofun⟩
  case h_2 => -- `.read`
    cases hstep
    have hout := h.not_wakes (p := p) (by rw [hpc]; rfl)
    exact h.of_one rfl rfl rfl (fun _ _ => rfl) (.inl rfl)
      ((hp.read hpc hawake hout).congr rfl rfl fun _ => rfl)
  case h_3 => -- `.test`
    cases hstep
    exact h.of_one rfl rfl rfl (fun _ _ => rfl) (.inl rfl)
      ((hp.test hpc hawake).congr rfl rfl fun _ => rfl)
  case h_4 => -- `.check`
    cases hstep
    exact h.of_one rfl rfl rfl (fun _ _ => rfl) (.inl rfl)
      ((hp.check hpc hawake).congr rfl rfl fun _ => rfl)
  case h_5 => -- `.prepare`
    cases hstep
    have hout := h.not_wakes (p := p) (by rw [hpc]; rfl)
    refine h.of_one rfl rfl rfl (fun _ hq => s.table_setPc_modify hq _ _) (.inl rfl) ?_
    rw [table_setPc_modify_self]
    exact (hp.prepare hpc hawake hout).congr rfl rfl fun _ => rfl
  case h_6 => -- `.release`
    cases hstep
    have hlock := hp.lock (by rw [hpc]; rfl)
    exact h.of_one rfl rfl rfl (fun _ _ => rfl) (.inr (.inr hlock))
      ((hp.release hpc hawake).congr rfl rfl nofun)
  case h_7 => -- `.sleep`
    split at hstep <;> cases hstep
    · exact h.of_one rfl rfl rfl (fun _ _ => rfl) (.inl rfl)
        ((hp.sleep hpc rfl).congr rfl rfl fun _ => rfl)
    · refine h.of_one rfl rfl rfl (fun _ hq => s.table_setPc_modify hq _ _) (.inl rfl) ?_
      rw [table_setPc_modify_self]
      exact (hp.sleep (y := (s.table p).sleep build) hpc rfl).congr rfl rfl fun _ => rfl
  case h_8 => -- `.resume`
    obtain ⟨hfree, hstep⟩ := Option.ite_none_right_eq_some.mp hstep
    cases hstep
    have hcount := hp.count (by rw [hpc]; rfl)
    have hserved := hp.served (by rw [hpc]; rfl)
    exact h.of_one rfl rfl rfl (fun _ _ => rfl) (.inr (.inl hfree))
      ⟨fun _ => rfl, fun _ hs => absurd hs hawake, fun _ => hcount, fun _ => hserved, nofun, nofun,
        nofun, nofun⟩
  case h_9 => -- `.giveUp`
    cases hstep
    have h0 : ¬ (NapPc.returned (-1) = .finish ∨ NapPc.returned (-1) = .returned 0) := by decide
    have hlock := hp.lock (by rw [hpc]; rfl)
    exact h.of_one rfl rfl rfl (fun _ _ => rfl) (.inr (.inr hlock))
      ⟨nofun, nofun, nofun, nofun, nofun, nofun, fun hr => absurd hr h0,
        fun _ => hp.killed (.inl hpc)⟩
  case h_10 => -- `.finish`
    cases hstep
    have h1 : ¬ (NapPc.returned 0 = .giveUp ∨ NapPc.returned 0 = .returned (-1)) := by decide
    have hlock := hp.lock (by rw [hpc]; rfl)
    exact h.of_one rfl rfl rfl (fun _ _ => rfl) (.inr (.inr hlock))
      ⟨nofun, nofun, nofun, nofun, nofun, nofun, fun _ => hp.done (.inl hpc),
        fun hr => absurd hr h1⟩
  case h_11 | h_12 => cases hstep

theorem killed_wake {x : Proc} (chan : Chan) : (x.wake chan).killed = x.killed := by
  rw [Proc.wake]
  split <;> rfl

/-- Nobody is inside while the clock is. -/
theorem Sound.not_holds (h : s.Sound) (hclock : s.clock ≠ .out) : ¬ (s.calls q).pc.holds :=
  fun hin => hclock (h.not_wakes hin)

/-- A tick is one more that has passed, and its wakeup is still to come to everybody. -/
theorem Fine.ticked {x : Proc} {c : NapCall} (h : s.Fine p x c) (hout : ¬ c.pc.holds)
    (hclock : s.clock = .locked) (hticks : s'.ticks = s.ticks + 1)
    (hclock' : s'.clock = .wakeup (List.finRange nproc)) :
    s'.Fine p x (if c.pc.counts then { c with passed := c.passed + 1 } else c) := by
  split
  · rename_i hcounts
    refine ⟨fun hin => absurd hin hout, fun _ => h.asleep hcounts, fun _ => ?_, fun _ => ?_,
      fun hpc => ?_, fun hpc hchan => ⟨fun hlt => ?_, fun rest hrest => ?_⟩, fun hpc => ?_,
      h.killed⟩
    · change s'.ticks = _ + BitVec.ofNat 32 (_ + 1)
      rw [hticks, h.count hcounts, BitVec.ofNat_add, BitVec.add_assoc]
      rfl
    · have hserved := h.served hcounts
      rw [hclock] at hserved
      rw [hclock']
      exact congrArg (· + 1) hserved
    · refine absurd ?_ hout
      rcases hpc with hpc | hpc <;> rw [show c.pc = _ from hpc] <;> rfl
    · exact (h.waits hpc hchan).1 (Nat.lt_of_succ_lt hlt)
    · cases hclock'.symm.trans hrest
      exact List.mem_finRange p
    · rcases hpc with hpc | hpc
      · refine absurd (show c.pc.holds from ?_) hout
        rw [show c.pc = _ from hpc]
        rfl
      · rw [show c.pc = _ from hpc] at hcounts
        cases hcounts
  · rename_i hcounts
    refine ⟨fun hin => absurd hin hout, fun hc => absurd hc hcounts, fun hc => absurd hc hcounts,
      fun hc => absurd hc hcounts, h.short, fun hpc => ?_, h.done, h.killed⟩
    refine absurd ?_ hcounts
    rcases hpc with hpc | hpc | hpc <;> rw [hpc] <;> rfl

/-- When the loop of the wakeup is over it has been to everybody, and nobody waits. -/
theorem Fine.passedBy {x : Proc} {c : NapCall} (h : s.Fine p x c) (hout : ¬ c.pc.holds)
    (hclock : s.clock = .wakeup []) (hticks : s'.ticks = s.ticks) (hclock' : s'.clock = .release) :
    s'.Fine p x (if c.pc.counts then { c with served := c.passed } else c) := by
  have hnone : c.pc = .release ∨ c.pc = .sleep ∨ c.pc = .resume → x.chan ≠ some .ticks :=
    fun hpc hchan => List.not_mem_nil ((h.waits hpc hchan).2 [] hclock)
  split
  · rename_i hcounts
    refine ⟨fun hin => absurd hin hout, fun _ => h.asleep hcounts,
      fun _ => hticks.trans (h.count hcounts), fun _ => ?_, h.short,
      fun hpc hchan => absurd hchan (hnone hpc), h.done, h.killed⟩
    rw [hclock']
    rfl
  · rename_i hcounts
    exact ⟨fun hin => absurd hin hout, fun hc => absurd hc hcounts, fun hc => absurd hc hcounts,
      fun hc => absurd hc hcounts, h.short, fun hpc hchan => absurd hchan (hnone hpc), h.done,
      h.killed⟩

/-- **The clock counts and wakes**, one sleeper at a time. -/
theorem Sound.clockintr (h : s.Sound) (hstep : s.clockintr = some s') : s'.Sound := by
  rw [Naps.clockintr] at hstep
  split at hstep <;> rename_i hclock
  case h_1 => -- `.out`
    obtain ⟨hfree, hstep⟩ := Option.ite_none_right_eq_some.mp hstep
    cases hstep
    refine ⟨fun q => (h.fine q).congr' rfl ?_ nofun fun hin => ?_, fun _ => rfl⟩
    · rw [hclock]
      rfl
    · exact nomatch hfree.symm.trans ((h.fine q).lock hin)
  case h_2 => -- `.locked`
    cases hstep
    refine ⟨fun q => ?_, fun _ => h.clock (by rw [hclock]; nofun)⟩
    exact (h.fine q).ticked (h.not_holds (by rw [hclock]; nofun)) hclock rfl rfl
  case h_3 r rest => -- `.wakeup (r :: rest)`
    cases hstep
    refine ⟨fun q => ?_, fun _ => h.clock (by rw [hclock]; nofun)⟩
    by_cases hq : q = r
    · -- The round clears the channel of `r`.
      subst hq
      have hx := (h.fine q).eased (eased_wake _ .ticks) fun hk => (killed_wake .ticks).trans hk
      change Fine _ q (s.table.modify q (·.wake .ticks) q) _
      rw [Table.modify_self]
      refine ⟨hx.lock, hx.asleep, hx.count, fun hc => ?_, hx.short,
        fun _ hchan => absurd hchan (chan_wake _ _), hx.done, hx.killed⟩
      have hserved := hx.served hc
      rw [hclock] at hserved
      exact hserved
    · change Fine _ q ((s.modify r (·.wake .ticks)).table q) _
      rw [table_modify_of_ne s hq]
      refine (h.fine q).congr' rfl ?_ (fun rest' hrest => ⟨r :: rest, hclock, fun hmem => ?_⟩)
        fun _ => rfl
      · rw [hclock]
        rfl
      · cases hrest
        exact (List.mem_cons.mp hmem).resolve_left hq
  case h_4 => -- `.wakeup []`
    cases hstep
    refine ⟨fun q => ?_, fun _ => h.clock (by rw [hclock]; nofun)⟩
    exact (h.fine q).passedBy (h.not_holds (by rw [hclock]; nofun)) hclock rfl rfl
  case h_5 => -- `.release`
    cases hstep
    refine ⟨fun q => (h.fine q).congr' rfl ?_ nofun fun hin => ?_, fun hne => absurd rfl hne⟩
    · rw [hclock]
      rfl
    · exact absurd hin (h.not_holds (by rw [hclock]; nofun))

/-- A process that others do something to. -/
theorem Sound.eased (h : s.Sound) {f : Proc → Proc} (hf : ∀ x, Eased x (f x))
    (hkilled : ∀ x : Proc, x.killed = true → (f x).killed = true) : (s.modify p f).Sound := by
  refine ⟨fun q => ?_, h.clock⟩
  by_cases hq : q = p
  · rw [hq]
    change Fine _ p (s.table.modify p f p) _
    rw [Table.modify_self]
    exact ((h.fine p).eased (hf _) (hkilled _)).congr rfl rfl fun _ => rfl
  · rw [table_modify_of_ne s hq]
    exact (h.fine q).congr rfl rfl fun _ => rfl

theorem sound_step (h : s.Sound) (hstep : s.step build e = some s') : s'.Sound := by
  cases e with
  | call p arg =>
    obtain ⟨-, hstep⟩ := Option.ite_none_right_eq_some.mp hstep
    cases hstep
    exact h.of_one rfl rfl rfl (fun _ _ => rfl) (.inl rfl)
      ⟨nofun, nofun, nofun, nofun, nofun, nofun, nofun, nofun⟩
  | go p =>
    obtain ⟨hrun, hstep⟩ := Option.ite_none_right_eq_some.mp hstep
    exact h.sysSleep hrun hstep
  | leave p =>
    rw [step] at hstep
    split at hstep
    · cases hstep
      exact h.of_one rfl rfl rfl (fun _ _ => rfl) (.inl rfl) (fine_of_out rfl)
    · cases hstep
  | clockintr => exact h.clockintr hstep
  | lockOther =>
    obtain ⟨hfree, hstep⟩ := Option.ite_none_right_eq_some.mp hstep
    cases hstep
    refine ⟨fun q => (h.fine q).congr rfl rfl fun hin => ?_, fun hout => ?_⟩
    · cases hfree.symm.trans ((h.fine q).lock hin)
    · cases hfree.symm.trans (h.clock hout)
  | unlockOther =>
    obtain ⟨hother, hstep⟩ := Option.ite_none_right_eq_some.mp hstep
    cases hstep
    refine ⟨fun q => (h.fine q).congr rfl rfl fun hin => ?_, fun hout => ?_⟩
    · cases hother.symm.trans ((h.fine q).lock hin)
    · cases hother.symm.trans (h.clock hout)
  | outside p x =>
    obtain ⟨hout, hstep⟩ := Option.ite_none_right_eq_some.mp hstep
    cases hstep
    refine ⟨fun q => ?_, h.clock⟩
    by_cases hq : q = p
    · exact fine_of_out (hq ▸ hout)
    · rw [table_modify_of_ne s hq]
      exact (h.fine q).congr rfl rfl fun _ => rfl
  | dispatch p now =>
    obtain ⟨-, hstep⟩ := Option.ite_none_right_eq_some.mp hstep
    cases hstep
    exact h.eased (fun _ => ⟨.inl rfl, nofun⟩) fun _ => id
  | yield p =>
    obtain ⟨-, hstep⟩ := Option.ite_none_right_eq_some.mp hstep
    cases hstep
    exact h.eased (fun _ => ⟨.inl rfl, nofun⟩) fun _ => id
  | kill pid q =>
    obtain ⟨-, hstep⟩ := Option.ite_none_right_eq_some.mp hstep
    cases hstep
    exact h.eased eased_kill fun _ _ => rfl
  | wakeOther chan q =>
    cases hstep
    exact h.eased (eased_wake · chan) fun _ hk => (killed_wake chan).trans hk

/-- The ticks that were asked for. -/
theorem toNat_n (c : NapCall) : (c.n.toNat : ℤ) = max c.arg.toInt 0 := by
  rw [NapCall.n]
  split
  · rename_i hneg
    exact (max_eq_right (Int.le_of_lt hneg)).symm
  · rename_i hpos
    rw [max_eq_left (Int.not_lt.mp hpos)]
    have hint := BitVec.toInt_eq_toNat_cond c.arg
    split at hint <;> omega

/-- **`sys_sleep` returns 0 no sooner than it was asked to, and -1 only to a process that was
killed; and nobody is asleep on `&ticks` once the interrupt that brought the last tick it waits for
has been through all the sleepers.**  `ticks` may wrap, if no call is as long as that. -/
theorem sysSleep_spec {t : Table} {ticks : BitVec 32} {es : List Event}
    (h : run (step build) (start t ticks) es = some s) (p : Slot) :
    ((s.calls p).passed < 2 ^ 32 → (s.calls p).pc = .returned 0 →
        max (s.calls p).arg.toInt 0 ≤ (s.calls p).passed) ∧
      ((s.calls p).pc = .returned (-1) → (s.table p).killed = true) ∧
      ((s.calls p).passed < 2 ^ 32 → (s.calls p).pc.counts →
        ¬ ((s.table p).state = .sleeping ∧ (s.table p).chan = some .ticks ∧
          max (s.calls p).arg.toInt 0 ≤ (s.calls p).served)) := by
  have hsound : s.Sound := invariant' (I := Sound) (fun _ _ _ => sound_step) (sound_start t ticks) h
  have hp := hsound.fine p
  rw [← toNat_n]
  refine ⟨fun hlt hpc => ?_, fun hpc => hp.killed (.inr hpc), fun hlt hcounts => ?_⟩
  · exact Int.ofNat_le.mpr (hp.done (.inr hpc) hlt)
  · rintro ⟨hstate, hchan, hserved⟩
    have hpc := hp.asleep hcounts hstate
    have hshort := (hp.waits (.inr (.inr hpc)) hchan).1 hlt
    omega

/-- `ticks` wraps while process 0 waits for two of them: it wakes for the first, and sleeps
again. -/
private def wrapping : List Event :=
  [Event.dispatch 0 0, .call 0 2] ++ List.replicate 7 (Event.go 0) ++
    List.replicate 68 Event.clockintr ++ [Event.dispatch 0 0] ++ List.replicate 6 (Event.go 0) ++
    List.replicate 68 Event.clockintr ++ [Event.dispatch 0 0] ++ List.replicate 3 (Event.go 0)

theorem sysSleep_spec_wrap : ∃ s : Naps,
    run (step .mlfq) (start two (BitVec.ofNat 32 (2 ^ 32 - 1))) wrapping = some s ∧
      s.ticks = 1 ∧ (s.calls 0).pc = .returned 0 ∧
        max (s.calls 0).arg.toInt 0 ≤ (s.calls 0).passed := by
  obtain ⟨s, hs, hticks, hpc, hlt⟩ :
      ∃ s ∈ run (step .mlfq) (start two (BitVec.ofNat 32 (2 ^ 32 - 1))) wrapping,
        s.ticks = 1 ∧ (s.calls 0).pc = .returned 0 ∧ (s.calls 0).passed < 2 ^ 32 := by
    decide +kernel
  exact ⟨s, hs, hticks, hpc, (sysSleep_spec hs 0).1 hlt hpc⟩

end Naps

end MiniProject.Kernel
