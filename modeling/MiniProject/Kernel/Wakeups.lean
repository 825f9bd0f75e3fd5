import MiniProject.Kernel.Proc
import MiniProject.Machinery.Mutex
import MiniProject.Machinery.Runs

/-!
# Kernel/Wakeups — no wakeup is lost

A process that waits for a condition tests it under a lock `lk`, says with `sleep_prepare` where it
will sleep, releases `lk`, and only then sleeps; in between it runs, or waits for the CPU, and the
wakeup may come.  `wakeup` therefore clears the channel of whoever has one, asleep or not, and
`sleep` looks at it again.  Whoever makes the condition true holds `lk` until its `wakeup` is
through, one slot at a time (`no_lost_wakeup`).
-/

namespace MiniProject.Kernel

/-! ## The two parties -/

/-- Where a process is in `acquire(lk); while(!cond){ sleep_prepare(chan); release(lk); sleep();
acquire(lk); } release(lk)`; or between a `sleep_prepare` and a `sleep` on another channel. -/
inductive Phase
  | out
  | testing
  | satisfied
  | tested
  | prepared
  | released
  | slept
  | elsewhere
  deriving DecidableEq, Repr

/-- Whether `lk` is held there. -/
def Phase.holds : Phase → Bool
  | .testing | .satisfied | .tested | .prepared => true
  | _ => false

/-- From `sleep_prepare` to the next test. -/
def Phase.waits : Phase → Bool
  | .prepared | .released | .slept => true
  | _ => false

/-- Where a waker is in `acquire(lk); cond = 1; wakeup(chan); release(lk)`. -/
inductive Waking
  | out
  | locked
  | loop (rest : List Slot)
  | woke
  deriving DecidableEq, Repr

/-- Who holds `lk`. -/
inductive Holder (W : Type)
  | sleeper (p : Slot)
  | waker (w : W)
  deriving DecidableEq, Repr

/-- Processes and wakers at one channel; `woken p` holds once a wakeup has come to its end since
`p` last tested the condition. -/
structure Rendezvous (W : Type) where
  table : Table
  cond : Bool
  lk : Option (Holder W)
  phase : Slot → Phase
  waking : W → Waking
  woken : Slot → Bool

namespace Rendezvous

variable {W : Type}

/-- What can happen next; the last five are what others, and the clock, do to a process. -/
inductive Event (W : Type)
  | acquire (p : Slot)
  | test (p : Slot)
  | leave (p : Slot) (cond : Bool)
  | prepare (p : Slot)
  | release (p : Slot)
  | sleep (p : Slot)
  | prepareOther (p : Slot) (chan : Chan)
  | sleepOther (p : Slot)
  | lock (w : W)
  | set (w : W)
  | wake (w : W)
  | unlock (w : W)
  | dispatch (p : Slot) (ticks : ℕ)
  | yield (p : Slot)
  | kill (pid : ℤ) (q : Slot)
  | wakeOther (chan : Chan) (q : Slot)
  deriving DecidableEq, Repr

/-- Nobody is at the channel yet. -/
def start (t : Table) (cond : Bool) : Rendezvous W :=
  ⟨t, cond, none, fun _ => .out, fun _ => .out, fun _ => false⟩

variable (s : Rendezvous W)

/-- Writing to one process. -/
def modify (p : Slot) (f : Proc → Proc) : Rendezvous W := { s with table := s.table.modify p f }

/-- Process `p` gets to a phase. -/
def setPhase (p : Slot) (phase : Phase) : Rendezvous W :=
  { s with phase := Function.update s.phase p phase }

/-- The parties between `acquire(lk)` and `release(lk)`. -/
def inside : Holder W → Prop
  | .sleeper p => (s.phase p).holds
  | .waker w => s.waking w ≠ .out

/-- A waker that holds `lk` has been at slot `p`. -/
def Passed (p : Slot) : Prop := ∃ w rest, s.waking w = .loop rest ∧ p ∉ rest

/-- Waker `w` gets somewhere. -/
def setWaking [DecidableEq W] (w : W) (waking : Waking) : Rendezvous W :=
  { s with waking := Function.update s.waking w waking }

/-- Process `p` is at `phase`, and with a CPU. -/
def At (p : Slot) (phase : Phase) : Prop := s.phase p = phase ∧ (s.table p).state = .running

instance (p : Slot) (phase : Phase) : Decidable (s.At p phase) :=
  inferInstanceAs (Decidable (_ ∧ _))

/-- A step; a `leave` is a `release(lk)` when the condition holds, after using it up or not, or when
the process was killed. -/
def step [DecidableEq W] (build : Build) (chan : Chan) (s : Rendezvous W) :
    Event W → Option (Rendezvous W)
  | .acquire p =>
    if (s.At p .out ∨ s.At p .slept) ∧ s.lk = none then
      some { s.setPhase p .testing with lk := some (.sleeper p) }
    else none
  | .test p =>
    if s.At p .testing then
      some { s.setPhase p (if s.cond then .satisfied else .tested) with
        woken := Function.update s.woken p false }
    else none
  | .leave p cond =>
    if s.At p .satisfied then some { s.setPhase p .out with cond, lk := none }
    else if s.At p .tested ∧ (s.table p).killed then some { s.setPhase p .out with lk := none }
    else none
  | .prepare p =>
    if s.At p .tested then
      some ((s.modify p ({ · with chan := some chan })).setPhase p .prepared)
    else none
  | .release p => if s.At p .prepared then some { s.setPhase p .released with lk := none } else none
  | .sleep p =>
    if s.At p .released then
      if (s.table p).chan = none then some (s.setPhase p .slept)
      else some ((s.modify p (·.sleep build)).setPhase p .slept)
    else none
  | .prepareOther p chan' =>
    if s.At p .out ∧ chan' ≠ chan then
      some ((s.modify p ({ · with chan := some chan' })).setPhase p .elsewhere)
    else none
  | .sleepOther p =>
    if s.At p .elsewhere then
      if (s.table p).chan = none then some (s.setPhase p .out)
      else some ((s.modify p (·.sleep build)).setPhase p .out)
    else none
  | .lock w =>
    if s.waking w = .out ∧ s.lk = none then
      some { s.setWaking w .locked with lk := some (.waker w) }
    else none
  | .set w =>
    if s.waking w = .locked then
      some { s.setWaking w (.loop (List.finRange nproc)) with cond := true }
    else none
  | .wake w =>
    match s.waking w with
    | .loop (q :: rest) => some ((s.modify q (·.wake chan)).setWaking w (.loop rest))
    | .loop [] => some { s.setWaking w .woke with woken := fun _ => true }
    | _ => none
  | .unlock w =>
    if s.waking w = .woke then some { s.setWaking w .out with lk := none } else none
  | .dispatch p ticks =>
    if (s.table p).state = .runnable then some (s.modify p (·.dispatch ticks)) else none
  | .yield p =>
    if (s.table p).state = .running then some (s.modify p ({ · with state := .runnable }))
    else none
  | .kill pid q => if (s.table q).pid = pid then some (s.modify q Proc.kill) else none
  | .wakeOther chan' q => some (s.modify q (·.wake chan'))

/-! ## Who holds the lock -/

variable {build : Build} {chan : Chan} {s s' : Rendezvous W} {e : Event W} {p q : Slot} {w : W}
variable {x y : Proc} {phase phase' : Phase} {woken : Bool}

theorem inside_self (hphase : s'.phase = Function.update s.phase p phase) :
    s'.inside (.sleeper p) ↔ phase.holds := by
  rw [inside, hphase, Function.update_self]

theorem inside_of_ne (hwaking : s'.waking = s.waking)
    (hphase : s'.phase = Function.update s.phase p phase) (b : Holder W) (hb : b ≠ .sleeper p) :
    s'.inside b ↔ s.inside b := by
  cases b with
  | sleeper q =>
    have hq : q ≠ p := fun hq => hb (congrArg _ hq)
    rw [inside, inside, hphase, Function.update_of_ne hq]
  | waker w => rw [inside, inside, hwaking]

theorem inside_waker [DecidableEq W] {waking : Waking}
    (hwaking : s'.waking = Function.update s.waking w waking) :
    s'.inside (.waker w) ↔ waking ≠ .out := by
  rw [inside, hwaking, Function.update_self]

theorem inside_of_ne_waker [DecidableEq W] {waking : Waking} (hphase : s'.phase = s.phase)
    (hwaking : s'.waking = Function.update s.waking w waking) (b : Holder W) (hb : b ≠ .waker w) :
    s'.inside b ↔ s.inside b := by
  cases b with
  | sleeper q => rw [inside, inside, hphase]
  | waker w' =>
    have hw : w' ≠ w := fun hw => hb (congrArg _ hw)
    rw [inside, inside, hwaking, Function.update_of_ne hw]

theorem inside_congr (hphase : s'.phase = s.phase) (hwaking : s'.waking = s.waking)
    (b : Holder W) : s'.inside b ↔ s.inside b := by
  cases b <;> rw [inside, inside]
  · rw [hphase]
  · rw [hwaking]

/-- A process that goes on inside, or outside. -/
theorem guarded_phase (h : Guarded s.inside s.lk) (hwaking : s'.waking = s.waking)
    (hphase : s'.phase = Function.update s.phase p phase) (hlk : s'.lk = s.lk)
    (hholds : phase.holds = (s.phase p).holds) : Guarded s'.inside s'.lk := by
  rw [hlk]
  refine h.keep fun b => ?_
  by_cases hb : b = .sleeper p
  · rw [hb, inside_self hphase, hholds, inside]
  · exact inside_of_ne hwaking hphase b hb

/-- A process that lets go of `lk`. -/
theorem guarded_release (h : Guarded s.inside s.lk) (hwaking : s'.waking = s.waking)
    (hphase : s'.phase = Function.update s.phase p phase) (hlk : s'.lk = none)
    (hin : (s.phase p).holds) (hout : phase.holds = false) : Guarded s'.inside s'.lk := by
  rw [hlk]
  refine h.release (a := .sleeper p) hin ?_ (inside_of_ne hwaking hphase)
  rw [inside_self hphase, hout]
  nofun

theorem guarded_step [DecidableEq W] (h : Guarded s.inside s.lk)
    (hstep : step build chan s e = some s') : Guarded s'.inside s'.lk := by
  have hsame {s' : Rendezvous W} (hphase : s'.phase = s.phase) (hwaking : s'.waking = s.waking)
      (hlk : s'.lk = s.lk) : Guarded s'.inside s'.lk := by
    rw [hlk]
    exact h.keep (inside_congr hphase hwaking)
  have hgoing {w : W} {waking : Waking} {s' : Rendezvous W} (hphase : s'.phase = s.phase)
      (hwaking : s'.waking = Function.update s.waking w waking) (hlk : s'.lk = s.lk)
      (hin : s.waking w ≠ .out) (hin' : waking ≠ .out) : Guarded s'.inside s'.lk := by
    rw [hlk]
    refine h.keep fun b => ?_
    by_cases hb : b = .waker w
    · rw [hb, inside_waker hwaking]
      exact iff_of_true hin' hin
    · exact inside_of_ne_waker hphase hwaking b hb
  cases e with
  | acquire p =>
    obtain ⟨⟨-, hlk⟩, hstep⟩ := Option.ite_none_right_eq_some.mp hstep
    cases hstep
    rw [hlk] at h
    exact h.acquire ((inside_self rfl).mpr rfl) (inside_of_ne rfl rfl)
  | test p =>
    obtain ⟨⟨hp, -⟩, hstep⟩ := Option.ite_none_right_eq_some.mp hstep
    cases hstep
    refine guarded_phase h rfl rfl rfl ?_
    rw [hp]
    split <;> rfl
  | leave p cond =>
    dsimp only [step] at hstep
    split at hstep
    · rename_i hp
      cases hstep
      exact guarded_release h rfl rfl rfl (by rw [hp.1]; rfl) rfl
    · obtain ⟨⟨hp, -⟩, hstep⟩ := Option.ite_none_right_eq_some.mp hstep
      cases hstep
      exact guarded_release h rfl rfl rfl (by rw [hp.1]; rfl) rfl
  | prepare p =>
    obtain ⟨⟨hp, -⟩, hstep⟩ := Option.ite_none_right_eq_some.mp hstep
    cases hstep
    exact guarded_phase h rfl rfl rfl (by rw [hp]; rfl)
  | release p =>
    obtain ⟨⟨hp, -⟩, hstep⟩ := Option.ite_none_right_eq_some.mp hstep
    cases hstep
    exact guarded_release h rfl rfl rfl (by rw [hp]; rfl) rfl
  | sleep p =>
    obtain ⟨⟨hp, -⟩, hstep⟩ := Option.ite_none_right_eq_some.mp hstep
    split at hstep <;> cases hstep <;> exact guarded_phase h rfl rfl rfl (by rw [hp]; rfl)
  | prepareOther p chan' =>
    obtain ⟨⟨⟨hp, -⟩, -⟩, hstep⟩ := Option.ite_none_right_eq_some.mp hstep
    cases hstep
    exact guarded_phase h rfl rfl rfl (by rw [hp]; rfl)
  | sleepOther p =>
    obtain ⟨⟨hp, -⟩, hstep⟩ := Option.ite_none_right_eq_some.mp hstep
    split at hstep <;> cases hstep <;> exact guarded_phase h rfl rfl rfl (by rw [hp]; rfl)
  | lock w =>
    obtain ⟨⟨-, hlk⟩, hstep⟩ := Option.ite_none_right_eq_some.mp hstep
    cases hstep
    rw [hlk] at h
    exact h.acquire ((inside_waker rfl).mpr nofun) (inside_of_ne_waker rfl rfl)
  | set w =>
    obtain ⟨hw, hstep⟩ := Option.ite_none_right_eq_some.mp hstep
    cases hstep
    exact hgoing rfl rfl rfl (by rw [hw]; nofun) nofun
  | wake w =>
    dsimp only [step] at hstep
    split at hstep
    · rename_i hw
      cases hstep
      exact hgoing rfl rfl rfl (by rw [hw]; nofun) nofun
    · rename_i hw
      cases hstep
      exact hgoing rfl rfl rfl (by rw [hw]; nofun) nofun
    · cases hstep
  | unlock w =>
    obtain ⟨hw, hstep⟩ := Option.ite_none_right_eq_some.mp hstep
    cases hstep
    refine h.release (a := .waker w) (by rw [inside, hw]; nofun) ?_ (inside_of_ne_waker rfl rfl)
    rw [inside_waker rfl]
    exact fun hne => hne rfl
  | dispatch | yield | kill =>
    obtain ⟨-, hstep⟩ := Option.ite_none_right_eq_some.mp hstep
    cases hstep
    exact hsame rfl rfl rfl
  | wakeOther =>
    cases hstep
    exact hsame rfl rfl rfl

/-! ## What holds of every process -/

/-- **A process that waits**, and that a wakeup has come past since its last test, has no channel
any more. -/
structure Fine (chan : Chan) (x : Proc) (phase : Phase) (woken : Bool) (passed : Prop) : Prop where
  asleep : x.state = .sleeping → x.chan = some chan → phase = .slept
  elsewhere : phase = .elsewhere → x.chan ≠ some chan
  tested : phase = .tested ∨ phase = .prepared → woken = false
  woken : phase.waits → woken = true → x.chan ≠ some chan
  passed : phase.waits → passed → x.chan ≠ some chan

/-- What others do to a process: its channel stays or is cleared, and they put nobody to sleep. -/
structure Eased (x y : Proc) : Prop where
  chan : y.chan = x.chan ∨ y.chan = none
  state : y.state = .sleeping → x.state = .sleeping

theorem Eased.refl (x : Proc) : Eased x x := ⟨.inl rfl, id⟩

theorem eased_wake (x : Proc) (chan : Chan) : Eased x (x.wake chan) := by
  rw [Proc.wake]
  split
  · refine ⟨.inr rfl, fun h => ?_⟩
    dsimp only at h
    split at h
    · cases h
    · exact h
  · exact .refl x

theorem eased_kill (x : Proc) : Eased x x.kill := by
  refine ⟨.inl rfl, fun h => ?_⟩
  rw [Proc.kill] at h
  dsimp only at h
  split at h
  · cases h
  · exact h

variable {passed passed' : Prop}

theorem Eased.ne (h : Eased x y) (hx : x.chan ≠ some chan) : y.chan ≠ some chan := by
  rcases h.chan with h | h <;> rw [h]
  · exact hx
  · nofun

theorem Fine.eased (h : Fine chan x phase woken passed) (hxy : Eased x y) :
    Fine chan y phase woken passed := by
  refine ⟨fun hy hchan => ?_, fun hp => hxy.ne (h.elsewhere hp), h.tested,
    fun hp hw => hxy.ne (h.woken hp hw), fun hp hpass => hxy.ne (h.passed hp hpass)⟩
  rcases hxy.chan with heq | heq
  · exact h.asleep (hxy.state hy) (heq.symm.trans hchan)
  · cases heq.symm.trans hchan

theorem Fine.of_passed (h : Fine chan x phase woken passed) (hpassed : passed' → passed) :
    Fine chan x phase woken passed' :=
  ⟨h.asleep, h.elsewhere, h.tested, h.woken, fun hp hpass => h.passed hp (hpassed hpass)⟩

/-- A process that runs and does not wait. -/
theorem fine_of_running (hx : x.state = .running) (hwaits : phase.waits = false)
    (helse : phase ≠ .elsewhere) (htested : phase = .tested → woken = false) :
    Fine chan x phase woken passed := by
  refine ⟨fun h => ?_, fun h => absurd h helse, fun h => ?_, fun h => ?_, fun h => ?_⟩
  · rw [hx] at h
    cases h
  · rcases h with h | h
    · exact htested h
    · rw [h] at hwaits
      cases hwaits
  · rw [hwaits] at h
    cases h
  · rw [hwaits] at h
    cases h

/-- A process that goes on waiting. -/
theorem Fine.go_on (h : Fine chan x phase woken passed) (hphase : phase.waits)
    (hchan : y.chan = x.chan) (hy : y.state ≠ .sleeping ∨ phase' = .slept)
    (helse : phase' ≠ .elsewhere) (htested : phase' ≠ .tested ∧ phase' ≠ .prepared) :
    Fine chan y phase' woken passed := by
  refine ⟨fun hs _ => hy.resolve_left fun hne => hne hs, fun he => absurd he helse, fun ht => ?_,
    fun _ hw => ?_, fun _ hp => ?_⟩
  · exact absurd ht (not_or.mpr htested)
  · rw [hchan]
    exact h.woken hphase hw
  · rw [hchan]
    exact h.passed hphase hp

/-- **What every step keeps.** -/
structure Sound (chan : Chan) (s : Rendezvous W) : Prop where
  guarded : Guarded s.inside s.lk
  fine : ∀ p, Fine chan (s.table p) (s.phase p) (s.woken p) (s.Passed p)

theorem Sound.not_passed (h : s.Sound chan) (hp : (s.phase p).holds) : ¬ s.Passed q := by
  rintro ⟨w, rest, hw, -⟩
  have hin : s.inside (.waker w) := by
    rw [inside, hw]
    nofun
  cases h.guarded.eq (show s.inside (.sleeper p) from hp) hin

theorem passed_congr (h : s'.waking = s.waking) : s'.Passed q ↔ s.Passed q := by
  rw [Passed, Passed, h]

theorem passed_setWaking [DecidableEq W] {waking : Waking}
    (hwaking : s'.waking = Function.update s.waking w waking)
    (hpassed : ∀ rest, waking = .loop rest → q ∉ rest → s.Passed q) (h : s'.Passed q) :
    s.Passed q := by
  obtain ⟨w', rest, hw', hq⟩ := h
  rw [hwaking] at hw'
  by_cases hw : w' = w
  · rw [hw, Function.update_self] at hw'
    exact hpassed rest hw' hq
  · rw [Function.update_of_ne hw] at hw'
    exact ⟨w', rest, hw', hq⟩

/-- A step of one process. -/
theorem fine_of_one (h : s.Sound chan) (hwaking : s'.waking = s.waking)
    (htable : ∀ q, q ≠ p → s'.table q = s.table q) (hphase : ∀ q, q ≠ p → s'.phase q = s.phase q)
    (hwoken : ∀ q, q ≠ p → s'.woken q = s.woken q)
    (hp : Fine chan (s'.table p) (s'.phase p) (s'.woken p) (s.Passed p)) (q : Slot) :
    Fine chan (s'.table q) (s'.phase q) (s'.woken q) (s'.Passed q) := by
  refine Fine.of_passed ?_ (passed_congr hwaking).mp
  by_cases hq : q = p
  · rw [hq]
    exact hp
  · rw [htable q hq, hphase q hq, hwoken q hq]
    exact h.fine q

/-- A step on one process by others. -/
theorem fine_of_eased (h : s.Sound chan) {f : Proc → Proc} (hf : Eased (s.table p) (f (s.table p)))
    (q : Slot) :
    Fine chan ((s.modify p f).table q) (s.phase q) (s.woken q) (s.Passed q) :=
  (h.fine q).eased (Table.modify_rel (R := fun _ => Eased) (fun _ => .refl) hf q)

/-- A process moves to another phase. -/
theorem fine_setPhase (h : s.Sound chan) (hwaking : s'.waking = s.waking)
    (htable : s'.table = s.table) (hphase : s'.phase = Function.update s.phase p phase)
    (hwoken : ∀ q, q ≠ p → s'.woken q = s.woken q)
    (hp : Fine chan (s.table p) phase (s'.woken p) (s.Passed p)) (q : Slot) :
    Fine chan (s'.table q) (s'.phase q) (s'.woken q) (s'.Passed q) := by
  refine fine_of_one (p := p) h hwaking (fun q _ => by rw [htable]) (fun q hq => ?_) hwoken ?_ q
  · rw [hphase, Function.update_of_ne hq]
  · rw [htable, hphase, Function.update_self]
    exact hp

/-- …and changes itself. -/
theorem fine_modify (h : s.Sound chan) {f : Proc → Proc}
    (hp : Fine chan (f (s.table p)) phase (s.woken p) (s.Passed p)) (q : Slot) :
    Fine chan (((s.modify p f).setPhase p phase).table q)
      (((s.modify p f).setPhase p phase).phase q) (s.woken q) (s.Passed q) := by
  have hwaking : ((s.modify p f).setPhase p phase).waking = s.waking := rfl
  refine fine_of_one (p := p) h hwaking (fun q hq => ?_)
    (fun q hq => Function.update_of_ne hq _ _) (fun _ _ => rfl) ?_ q
  · exact Table.modify_of_ne hq
  · dsimp only [setPhase, modify]
    rw [Table.modify_self, Function.update_self]
    exact hp

/-- The waker's loop clears the channel of the process it comes to, -/
theorem fine_wake_cons [DecidableEq W] (h : s.Sound chan) {rest : List Slot}
    (hw : s.waking w = .loop (p :: rest)) (q : Slot) :
    Fine chan ((s.modify p (·.wake chan)).table q) (s.phase q) (s.woken q)
      (((s.modify p (·.wake chan)).setWaking w (.loop rest)).Passed q) := by
  have hq := fine_of_eased h (eased_wake (s.table p) chan) q
  by_cases hqp : q = p
  · subst hqp
    have hchan : ((s.table.modify q (·.wake chan)) q).chan ≠ some chan := by
      rw [Table.modify_self]
      exact chan_wake _ _
    exact ⟨hq.asleep, hq.elsewhere, hq.tested, hq.woken, fun _ _ => hchan⟩
  · refine hq.of_passed (passed_setWaking rfl fun rest' hrest hmem => ?_)
    cases hrest
    exact ⟨w, p :: rest, hw, List.not_mem_cons_of_ne_of_not_mem hqp hmem⟩

/-- …and at its end it has come past everybody: it holds `lk`, so nobody is between test and
`release`. -/
theorem fine_wake_nil (h : s.Sound chan) (hw : s.waking w = .loop []) (q : Slot)
    {passed : Prop} : Fine chan (s.table q) (s.phase q) true passed := by
  have hq := h.fine q
  have hpassed : s.Passed q := ⟨w, [], hw, List.not_mem_nil⟩
  have hout : ¬ (s.phase q).holds := fun hin => h.not_passed hin hpassed
  refine ⟨hq.asleep, hq.elsewhere, fun ht => absurd ?_ hout, fun hp _ => hq.passed hp hpassed,
    fun hp _ => hq.passed hp hpassed⟩
  rcases ht with ht | ht <;> rw [show s.phase q = _ from ht] <;> rfl

theorem Sound.step [DecidableEq W] (h : s.Sound chan) (hstep : step build chan s e = some s') :
    s'.Sound chan := by
  refine ⟨guarded_step h.guarded hstep, ?_⟩
  cases e with
  | acquire p =>
    obtain ⟨⟨hp, -⟩, hstep⟩ := Option.ite_none_right_eq_some.mp hstep
    cases hstep
    have hrun : (s.table p).state = .running := hp.elim (·.2) (·.2)
    exact fine_setPhase h rfl rfl rfl (fun _ _ => rfl) (fine_of_running hrun rfl nofun nofun)
  | test p =>
    obtain ⟨⟨-, hrun⟩, hstep⟩ := Option.ite_none_right_eq_some.mp hstep
    cases hstep
    refine fine_setPhase h rfl rfl rfl (fun q hq => Function.update_of_ne hq _ _) ?_
    refine fine_of_running hrun ?_ ?_ fun _ => Function.update_self _ _ _
    · split <;> rfl
    · split <;> nofun
  | leave p cond =>
    dsimp only [Rendezvous.step] at hstep
    split at hstep
    · rename_i hp
      cases hstep
      exact fine_setPhase h rfl rfl rfl (fun _ _ => rfl) (fine_of_running hp.2 rfl nofun nofun)
    · obtain ⟨⟨hp, -⟩, hstep⟩ := Option.ite_none_right_eq_some.mp hstep
      cases hstep
      exact fine_setPhase h rfl rfl rfl (fun _ _ => rfl) (fine_of_running hp.2 rfl nofun nofun)
  | prepare p =>
    obtain ⟨⟨hp, hrun⟩, hstep⟩ := Option.ite_none_right_eq_some.mp hstep
    cases hstep
    have hwoken := (h.fine p).tested (.inl hp)
    have hpassed : ¬ s.Passed p := h.not_passed (p := p) (by rw [hp]; rfl)
    refine fine_modify h ⟨fun hs => ?_, nofun, fun _ => hwoken, fun _ hw => ?_, fun _ hpass => ?_⟩
    · cases hrun.symm.trans hs
    · rw [hwoken] at hw
      cases hw
    · exact absurd hpass hpassed
  | release p =>
    obtain ⟨⟨hp, hrun⟩, hstep⟩ := Option.ite_none_right_eq_some.mp hstep
    cases hstep
    refine fine_setPhase h rfl rfl rfl (fun _ _ => rfl) ?_
    refine (h.fine p).go_on (by rw [hp]; rfl) rfl (.inl ?_) nofun ⟨nofun, nofun⟩
    rw [hrun]
    nofun
  | sleep p =>
    obtain ⟨⟨hp, hrun⟩, hstep⟩ := Option.ite_none_right_eq_some.mp hstep
    have hwaits : (s.phase p).waits := by rw [hp]; rfl
    split at hstep <;> cases hstep
    · exact fine_setPhase h rfl rfl rfl (fun _ _ => rfl)
        ((h.fine p).go_on hwaits rfl (.inr rfl) nofun ⟨nofun, nofun⟩)
    · exact fine_modify h ((h.fine p).go_on hwaits rfl (.inr rfl) nofun ⟨nofun, nofun⟩)
  | prepareOther p chan' =>
    obtain ⟨⟨⟨hp, hrun⟩, hne⟩, hstep⟩ := Option.ite_none_right_eq_some.mp hstep
    cases hstep
    refine fine_modify h ⟨fun hs => ?_, fun _ heq => ?_, nofun, nofun, nofun⟩
    · cases hrun.symm.trans hs
    · exact hne (Option.some.inj heq)
  | sleepOther p =>
    obtain ⟨⟨hp, hrun⟩, hstep⟩ := Option.ite_none_right_eq_some.mp hstep
    have hchan := (h.fine p).elsewhere hp
    split at hstep <;> cases hstep
    · exact fine_setPhase h rfl rfl rfl (fun _ _ => rfl) (fine_of_running hrun rfl nofun nofun)
    · exact fine_modify h ⟨fun _ heq => absurd heq hchan, nofun, nofun, nofun, nofun⟩
  | lock w =>
    obtain ⟨-, hstep⟩ := Option.ite_none_right_eq_some.mp hstep
    cases hstep
    exact fun q => (h.fine q).of_passed (passed_setWaking rfl nofun)
  | set w =>
    obtain ⟨-, hstep⟩ := Option.ite_none_right_eq_some.mp hstep
    cases hstep
    refine fun q => (h.fine q).of_passed (passed_setWaking rfl fun rest hrest hq => ?_)
    cases hrest
    exact absurd (List.mem_finRange q) hq
  | wake w =>
    dsimp only [Rendezvous.step] at hstep
    split at hstep
    · rename_i p rest hw
      cases hstep
      exact fine_wake_cons h hw
    · rename_i hw
      cases hstep
      exact fun q => fine_wake_nil h hw q
    · cases hstep
  | unlock w =>
    obtain ⟨-, hstep⟩ := Option.ite_none_right_eq_some.mp hstep
    cases hstep
    exact fun q => (h.fine q).of_passed (passed_setWaking rfl nofun)
  | dispatch p ticks =>
    obtain ⟨-, hstep⟩ := Option.ite_none_right_eq_some.mp hstep
    cases hstep
    exact fine_of_eased h ⟨.inl rfl, nofun⟩
  | yield p =>
    obtain ⟨-, hstep⟩ := Option.ite_none_right_eq_some.mp hstep
    cases hstep
    exact fine_of_eased h ⟨.inl rfl, nofun⟩
  | kill pid p =>
    obtain ⟨-, hstep⟩ := Option.ite_none_right_eq_some.mp hstep
    cases hstep
    exact fine_of_eased h (eased_kill _)
  | wakeOther chan' p =>
    cases hstep
    exact fine_of_eased h (eased_wake _ chan')

theorem sound_start {t : Table} {cond : Bool} (ht : ∀ p, (t p).state ≠ .sleeping) :
    (start t cond : Rendezvous W).Sound chan := by
  refine ⟨fun a => ?_, fun p => ⟨fun hs => absurd hs (ht p), nofun, nofun, nofun, nofun⟩⟩
  cases a with
  | sleeper => exact iff_of_false nofun nofun
  | waker => exact iff_of_false (fun hne => hne rfl) nofun

/-- **No wakeup is lost**: nobody sleeps at the channel after a wakeup has come to its end since it
last tested the condition. -/
theorem no_lost_wakeup [DecidableEq W] {t : Table} {cond : Bool} {es : List (Event W)}
    (ht : ∀ p, (t p).state ≠ .sleeping) (h : run (step build chan) (start t cond) es = some s)
    (p : Slot) :
    ¬ ((s.table p).state = .sleeping ∧ (s.table p).chan = some chan ∧ s.woken p = true) := by
  rintro ⟨hstate, hchan, hwoken⟩
  have hsound : s.Sound chan :=
    invariant' (fun _ _ _ hs hstep => hs.step hstep) (sound_start ht) h
  have hslept := (hsound.fine p).asleep hstate hchan
  exact (hsound.fine p).woken (by rw [hslept]; rfl) hwoken hchan

/-- Slots 0 and 1 hold processes that are RUNNABLE. -/
def two : Table := fun p => if p.val < 2 then { Proc.zero with state := .runnable } else .zero

/-- Process 0 releases `lk` and loses the CPU; the wakeup comes while it is RUNNABLE, so that it
does not sleep, while process 1 goes on waiting for the next one. -/
theorem no_lost_wakeup_late : ∃ s : Rendezvous Unit,
    run (step .rr (.addr 5)) (start two false)
      ([.dispatch 0 0, .acquire 0, .test 0, .prepare 0, .release 0, .yield 0, .lock (), .set ()] ++
        List.replicate 65 (Event.wake ()) ++ [Event.unlock (), Event.dispatch 0 0, Event.sleep 0,
        Event.acquire 0, Event.test 0, Event.leave 0 false, Event.dispatch 1 0, Event.acquire 1,
        Event.test 1, Event.prepare 1, Event.release 1, Event.sleep 1]) = some s ∧
    ¬ ((s.table 1).state = .sleeping ∧ (s.table 1).chan = some (.addr 5) ∧ s.woken 1 = true) := by
  have hs := Option.eq_some_of_isSome (show (run (step .rr (.addr 5)) (start two false)
      ([.dispatch 0 0, .acquire 0, .test 0, .prepare 0, .release 0, .yield 0, .lock (), .set ()] ++
        List.replicate 65 (Event.wake ()) ++ [Event.unlock (), Event.dispatch 0 0, Event.sleep 0,
        Event.acquire 0, Event.test 0, Event.leave 0 false, Event.dispatch 1 0, Event.acquire 1,
        Event.test 1, Event.prepare 1, Event.release 1, Event.sleep 1])).isSome by decide +kernel)
  exact ⟨_, hs, no_lost_wakeup (by decide) hs 1⟩

end Rendezvous

end MiniProject.Kernel
