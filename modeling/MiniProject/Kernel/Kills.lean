import MiniProject.Kernel.Tasks

/-!
# Kernel/Kills — a kill that comes too late

`kwait` tests `killed(p)`, says with `sleep_prepare` that it will sleep, releases `wait_lock` and
sleeps.  `wakeup` clears the channel of whoever has one, so that `sleep` returns at once; `kkill`
does not, and a kill between the test and the `sleep` is slept over, unless a wakeup comes as well.
That is the only way for a killed process to sleep in `kwait` (`heard_iff`).
-/

namespace MiniProject.Kernel

open Tasks (Event Does)

/-- In `kwait`, from the test of `killed(p)` to the next look at the children. -/
def Pc.pauses : Pc → Bool
  | .prepare _ | .unlock _ | .sleep _ | .slept _ => true
  | _ => false

theorem Pc.busy_of_pauses {pc : Pc} (h : pc.pauses) : pc.busy := by
  cases pc <;> first | rfl | cases h

/-- …up to `sleep`. -/
def Pc.tested : Pc → Bool
  | .prepare _ | .unlock _ | .sleep _ => true
  | _ => false

theorem Pc.pauses_of_tested {pc : Pc} (h : pc.tested) : pc.pauses := by
  cases pc <;> first | rfl | cases h

theorem Pc.pauses_of_waits {pc : Pc} (h : pc.waits) : pc.pauses := by
  cases pc <;> first | rfl | cases h

/-- The machine with its history: whether `kkill` has hit a process since it last tested
`killed(p)` in `kwait`, and whether a wakeup on its own channel has come since its
`sleep_prepare`. -/
structure Kills where
  tasks : Tasks
  hit : Slot → Bool
  woken : Slot → Bool

namespace Kills

/-- `userinit` is done. -/
def boot : Kills := ⟨.boot, fun _ => false, fun _ => false⟩

section Step

variable (build : Build) (s : Kills)

/-- The process in a slot. -/
def proc (q : Slot) : Proc := s.tasks.proc q

/-- Where it is. -/
def pc (q : Slot) : Pc := s.tasks.pc q

/-- A wakeup comes past a slot. -/
def wake (tasks : Tasks) (chan : Chan) (q : Slot) : Kills :=
  { s with tasks, woken := Function.update s.woken q (s.woken q || chan = .proc q) }

/-- What the code at a program counter adds to the history. -/
def recordGo (tasks : Tasks) (p : Slot) : Pc → Kills
  | .scan _ [] true => { s with tasks, hit := Function.update s.hit p false }
  | .prepare _ => { s with tasks, woken := Function.update s.woken p false }
  | .wakeInit _ _ (q :: _) => s.wake tasks (.proc s.tasks.initproc) q
  | .wakeParent _ parent (q :: _) => s.wake tasks (.proc parent) q
  | .killing pid (q :: _) =>
    if (s.proc q).pid = pid then { s with tasks, hit := Function.update s.hit q true }
    else { s with tasks }
  | _ => { s with tasks }

/-- What a step adds to the history. -/
def record (tasks : Tasks) : Event → Kills
  | .go p => s.recordGo tasks p (s.pc p)
  | .wake chan q => s.wake tasks chan q
  | _ => { s with tasks }

/-- A step. -/
def step (e : Event) : Option Kills := (s.tasks.step build e).map (s.record · e)

/-- No process sleeps in `kwait` that was hit since its test, and not woken since. -/
def Timely : Event → Prop
  | .go p => (s.pc p matches .sleep _) → s.hit p = false ∨ s.woken p = true
  | _ => True

instance : DecidablePred s.Timely
  | .go _ => inferInstanceAs (Decidable (_ → _))
  | .fork _ _ _ | .exit _ _ | .wait _ _ | .kill _ _ | .fault _ | .setkilled _ | .prepare _ _
  | .sleep _ | .dispatch _ | .yield _ | .wake _ _ | .clock => isTrue trivial

end Step

/-! ## What a step is for one process -/

/-- What neither puts a process to sleep nor kills nor wakes it. -/
structure Same (x y : Proc) : Prop where
  state : y.state = .sleeping → x.state = .sleeping
  chan : y.chan = x.chan
  killed : y.killed = x.killed

theorem Same.refl (x : Proc) : Same x x := ⟨id, rfl, rfl⟩

theorem Same.of_eq {x y : Proc} (h : y = x) : Same x y := h ▸ .refl x

/-- **What a step is for process `r`.** -/
inductive Feels (build : Build) (s : Kills) (e : Event) (s' : Kills) (r : Slot) : Prop
  | out (h : (s'.pc r).pauses = false)
  | keep (hpc : s'.pc r = s.pc r) (hproc : Same (s.proc r) (s'.proc r)) (hhit : s'.hit r = s.hit r)
    (hwoken : s'.woken r = s.woken r)
  | wake {chan} (hpc : s'.pc r = s.pc r) (hproc : s'.proc r = (s.proc r).wake chan)
    (hhit : s'.hit r = s.hit r) (hwoken : s'.woken r = (s.woken r || chan = .proc r))
  | kill (hpc : s'.pc r = s.pc r) (hproc : s'.proc r = (s.proc r).kill) (hhit : s'.hit r = true)
    (hwoken : s'.woken r = s.woken r)
  | test {addr} (hpc : s'.pc r = .prepare addr) (hproc : s'.proc r = s.proc r)
    (hkilled : (s.proc r).killed = false) (hhit : s'.hit r = false)
  | prepare {addr} (hpc : s.pc r = .prepare addr) (hpc' : s'.pc r = .unlock addr)
    (hproc : s'.proc r = { s.proc r with chan := some (.proc r) }) (hhit : s'.hit r = s.hit r)
    (hwoken : s'.woken r = false)
  | unlock {addr} (hpc : s.pc r = .unlock addr) (hpc' : s'.pc r = .sleep addr)
    (hproc : s'.proc r = s.proc r) (hhit : s'.hit r = s.hit r) (hwoken : s'.woken r = s.woken r)
  | awake {addr} (hpc : s.pc r = .sleep addr) (hpc' : s'.pc r = .slept addr)
    (hproc : s'.proc r = s.proc r) (hstate : (s.proc r).state = .running)
    (hwoken : s'.woken r = s.woken r)
  | sleep {addr} (he : e = .go r) (hpc : s.pc r = .sleep addr) (hpc' : s'.pc r = .slept addr)
    (hchan : (s.proc r).chan ≠ none) (hproc : s'.proc r = (s.proc r).sleep build)
    (hwoken : s'.woken r = s.woken r)

variable {build : Build} {s s' : Kills} {tasks : Tasks} {e : Event} {p q r np : Slot} {pc : Pc}

/-- Whoever does nothing, and to whom nothing is done. -/
theorem Feels.other (hpc : s'.pc r = s.pc r)
    (hproc : (s.pc r).pauses → Same (s.proc r) (s'.proc r)) (hhit : s'.hit r = s.hit r)
    (hwoken : s'.woken r = s.woken r) : Feels build s e s' r := by
  cases hpauses : (s.pc r).pauses with
  | false => exact .out ((congrArg Pc.pauses hpc).trans hpauses)
  | true => exact .keep hpc (hproc hpauses) hhit hwoken

/-- A step of process `p`, as long as it does not kill or wake another. -/
theorem Feels.move (hpc : s'.tasks.pc = Function.update s.tasks.pc p pc)
    (hself : s'.pc p = pc → Feels build s e s' p)
    (hproc : ∀ r, r ≠ p → (s.pc r).pauses → Same (s.proc r) (s'.proc r))
    (hhit : ∀ r, r ≠ p → s'.hit r = s.hit r) (hwoken : ∀ r, r ≠ p → s'.woken r = s.woken r) :
    Feels build s e s' r := by
  by_cases hr : r = p
  · rw [hr]
    refine hself ?_
    rw [Kills.pc, hpc, Function.update_self]
  · refine .other ?_ (hproc r hr) (hhit r hr) (hwoken r hr)
    rw [Kills.pc, hpc, Function.update_of_ne hr, Kills.pc]

/-- …and leaves, or stays out of, the part that matters. -/
theorem Feels.moveOut (hpc : tasks.pc = Function.update s.tasks.pc p pc) (hout : pc.pauses = false)
    (hproc : ∀ r, r ≠ p → (s.pc r).pauses → Same (s.proc r) (tasks.proc r)) :
    Feels build s e { s with tasks } r := by
  have hself (hp : Kills.pc { s with tasks } p = pc) : Feels build s e { s with tasks } p :=
    .out ((congrArg Pc.pauses hp).trans hout)
  exact .move hpc hself hproc (fun _ _ => rfl) fun _ _ => rfl

/-- A step of process `p`, which is elsewhere, that wakes `q`. -/
theorem Feels.moveWake {chan : Chan} (hpc : tasks.pc = Function.update s.tasks.pc p pc)
    (hout : pc.pauses = false) (hq : tasks.proc q = (s.proc q).wake chan)
    (hproc : ∀ r, r ≠ q → tasks.proc r = s.proc r) :
    Feels build s e (s.wake tasks chan q) r := by
  by_cases hr : r = p
  · refine .out ?_
    rw [hr, Kills.pc, show (s.wake tasks chan q).tasks.pc = _ from hpc, Function.update_self]
    exact hout
  · have hpcr : (s.wake tasks chan q).pc r = s.pc r := by
      rw [Kills.pc, show (s.wake tasks chan q).tasks.pc = _ from hpc, Function.update_of_ne hr,
        Kills.pc]
    by_cases hrq : r = q
    · subst hrq
      exact .wake hpcr hq rfl (Function.update_self _ _ _)
    · refine .other hpcr (fun _ => ?_) rfl (Function.update_of_ne hrq _ _)
      rw [show (s.wake tasks chan q).proc r = s.proc r from hproc r hrq]
      exact .refl _

theorem same_modify {f : Proc → Proc} (hf : Same (s.proc q) (f (s.proc q))) (r : Slot) :
    Same (s.proc r) ((s.tasks.modify q f).proc r) := Tasks.proc_modify_rel .refl hf r

/-- Only a living process is in a function. -/
theorem same_of_pauses (hcontrol : s.tasks.Control) (hq : (s.proc q).age ≠ .alive)
    (hproc : ∀ r, r ≠ q → tasks.proc r = s.proc r) (hr : (s.pc r).pauses) :
    Same (s.proc r) (tasks.proc r) := by
  refine .of_eq (hproc r ?_)
  rintro rfl
  exact hq (hcontrol.alive r (Pc.busy_of_pauses hr))

/-- What others do, and the clock. -/
theorem feels_of_calm (he : e.calm) (h : s.tasks.step build e = some tasks) :
    Feels build s e (s.record tasks e) r := by
  cases e with
  | setkilled p =>
    obtain ⟨hp, h⟩ := Option.ite_none_right_eq_some.mp h
    cases h
    by_cases hr : r = p
    · refine .out ?_
      rw [hr]
      exact congrArg Pc.pauses hp.1
    · exact .other rfl (fun _ => .of_eq (Tasks.proc_modify_of_ne hr)) rfl rfl
  | dispatch p | yield p =>
    obtain ⟨-, h⟩ := Option.ite_none_right_eq_some.mp h
    cases h
    exact .other rfl (fun _ => same_modify (q := p) ⟨fun hs => (by cases hs), rfl, rfl⟩ r) rfl rfl
  | wake chan q =>
    cases h
    by_cases hr : r = q
    · subst hr
      exact .wake rfl Tasks.proc_modify_self rfl (Function.update_self _ _ _)
    · exact .other rfl (fun _ => .of_eq (Tasks.proc_modify_of_ne hr)) rfl
        (Function.update_of_ne hr _ _)
  | _ => cases he

/-- A new child is in no function, and its parent is in `kfork`. -/
theorem feels_fork (hcontrol : s.tasks.Control) (hnp : (s.proc np).state = .unused) :
    Feels build s e (s.record (s.tasks.kfork p np .done) (.fork p np .done)) r := by
  have hfree : (s.proc np).age = .free := Tasks.age_of_unused hnp
  have hpc : (s.record (s.tasks.kfork p np .done) (.fork p np .done)).tasks.pc
      = Function.update (Function.update s.tasks.pc np .user) p (.forked np) := rfl
  by_cases hrp : r = p
  · refine .out ?_
    rw [hrp, Kills.pc, hpc, Function.update_self]
    rfl
  by_cases hrn : r = np
  · refine .out ?_
    rw [Kills.pc, hpc, Function.update_of_ne hrp, hrn, Function.update_self]
    rfl
  · refine .other ?_ (fun hr => ?_) rfl rfl
    · rw [Kills.pc, hpc, Function.update_of_ne hrp, Function.update_of_ne hrn, Kills.pc]
    · exact same_of_pauses hcontrol (q := np) (by rw [hfree]; nofun)
        (fun r => Tasks.proc_kfork_of_ne) hr

/-- `kkill` finds the pid. -/
theorem feels_hit : Feels build s e { s with
    tasks := (s.tasks.modify q Proc.kill).setPc p .user
    hit := Function.update s.hit q true } r := by
  by_cases hrp : r = p
  · refine .out ?_
    rw [hrp]
    exact congrArg Pc.pauses (Function.update_self p Pc.user s.tasks.pc)
  have hpc : Function.update s.tasks.pc p .user r = s.tasks.pc r := Function.update_of_ne hrp _ _
  by_cases hrq : r = q
  · subst hrq
    exact .kill hpc Tasks.proc_modify_self (Function.update_self _ _ _) rfl
  · exact .other hpc (fun _ => .of_eq (Tasks.proc_modify_of_ne hrq))
      (Function.update_of_ne hrq _ _) rfl

/-- **Every step is one of these, for each process.** -/
theorem feels_of_step (hcontrol : s.tasks.Control) (h : s.step build e = some s') (r : Slot) :
    Feels build s e s' r := by
  obtain ⟨tasks, htasks, rfl⟩ := Option.map_eq_some_iff.mp h
  have hgo {p : Slot} {pc : Pc} (hp : s.tasks.At p pc)
      (h : Feels build s (.go p) (s.recordGo tasks p pc) r) :
      Feels build s (.go p) (s.record tasks (.go p)) r := by
    rw [record, Kills.pc, hp.1]
    exact h
  have hrefl (r p : Slot) (_ : r ≠ p) (_ : (s.pc r).pauses) : Same (s.proc r) (s.proc r) := .refl _
  cases Tasks.does_of_step htasks with
  | calm he => exact feels_of_calm he htasks
  | clock => exact .other rfl (fun _ => .refl _) rfl rfl
  | @forkFailed p np how hp hnp hhow =>
    have hfree : (s.proc np).age = .free := Tasks.age_of_unused hnp
    have hother (r : Slot) (hr : r ≠ np) : (s.tasks.kfork p np how).proc r = s.proc r :=
      Tasks.proc_kfork_of_ne hr
    have hproc := same_of_pauses (r := r) hcontrol (by rw [hfree]; nofun) hother
    cases how with
    | done => exact absurd rfl hhow
    | noProc | noCopy => exact .other rfl hproc rfl rfl
  | fork hp hnp => exact feels_fork hcontrol hnp
  | @adopt p np hp | @ready p np hp =>
    have hembryo := hcontrol.embryo p np (by rw [hp.1]; rfl)
    have hnp : (s.proc np).age ≠ .alive := fun ha => nomatch hembryo.symm.trans ha
    exact hgo hp (.moveOut rfl rfl fun r _ =>
      same_of_pauses hcontrol hnp fun r => Tasks.proc_modify_of_ne)
  | exit hp | wait hp | kill hp | fault hp => exact .moveOut rfl rfl (hrefl · _)
  | @orphan p status q rest hp hq =>
    exact hgo hp (.moveOut rfl rfl fun r _ _ => same_modify (q := q) ⟨id, rfl, rfl⟩ r)
  | pass hp | reparented hp | fatherless hp | wokeInit hp | wokeParent hp | skip hp | look hp
  | rescan hp | killFailed hp =>
    exact hgo hp (.moveOut rfl rfl (hrefl · _))
  | die hp => exact hgo hp (.moveOut rfl rfl fun r hr _ => .of_eq (Tasks.proc_modify_of_ne hr))
  | wakeInit hp | wakeParent hp =>
    exact hgo hp (.moveWake rfl rfl Tasks.proc_modify_self fun r => Tasks.proc_modify_of_ne)
  | @reap p addr q rest havekids hp hq hq' =>
    have hzombie : (s.proc q).age = .zombie := Tasks.age_of_zombie hq'
    exact hgo hp (.moveOut rfl rfl fun r _ => same_of_pauses hcontrol (q := q)
      (by rw [hzombie]; nofun) fun r => Tasks.proc_modify_of_ne)
  | @fail p addr havekids hp hfail =>
    refine hgo hp ?_
    cases havekids with
    | false => exact .moveOut rfl rfl (hrefl · _)
    | true =>
      exact .move rfl (fun hpc => .out (congrArg Pc.pauses hpc)) (hrefl · p)
        (fun r hr => Function.update_of_ne hr _ _) fun _ _ => rfl
  | again hp hp' =>
    exact hgo hp (.move rfl (fun hpc => .test hpc rfl hp' (Function.update_self _ _ _)) (hrefl · _)
      (fun r hr => Function.update_of_ne hr _ _) fun _ _ => rfl)
  | prepare hp =>
    exact hgo hp (.move rfl
      (fun hpc => .prepare hp.1 hpc Tasks.proc_modify_self rfl (Function.update_self _ _ _))
      (fun r hr _ => .of_eq (Tasks.proc_modify_of_ne hr)) (fun _ _ => rfl)
      fun r hr => Function.update_of_ne hr _ _)
  | unlock hp =>
    exact hgo hp (.move rfl (fun hpc => .unlock hp.1 hpc rfl rfl rfl) (hrefl · _) (fun _ _ => rfl)
      fun _ _ => rfl)
  | awake hp hp' =>
    exact hgo hp (.move rfl (fun hpc => .awake hp.1 hpc rfl hp.2 rfl) (hrefl · _) (fun _ _ => rfl)
      fun _ _ => rfl)
  | sleep hp hp' =>
    exact hgo hp (.move rfl (fun hpc => .sleep rfl hp.1 hpc hp' Tasks.proc_modify_self rfl)
      (fun r hr _ => .of_eq (Tasks.proc_modify_of_ne hr)) (fun _ _ => rfl) fun _ _ => rfl)
  | @hit p pid q rest hp hq =>
    refine hgo hp ?_
    rw [recordGo, if_pos (show (s.proc q).pid = pid from hq)]
    exact feels_hit
  | @miss p pid q rest hp hq =>
    refine hgo hp ?_
    rw [recordGo, if_neg (show (s.proc q).pid ≠ pid from hq)]
    exact .moveOut rfl rfl (hrefl · _)
  | prepareOther hp hchan =>
    exact .moveOut rfl rfl fun r hr _ => .of_eq (Tasks.proc_modify_of_ne hr)
  | awakeOther hp => exact .moveOut rfl rfl (hrefl · _)
  | sleepOther hp => exact .moveOut rfl rfl fun r hr _ => .of_eq (Tasks.proc_modify_of_ne hr)

/-! ## What a process finds -/

/-- **What holds of a process in `kwait`**: between its test and its `sleep` it is killed if it was
hit, it has its channel until it is woken, and it does not sleep killed. -/
structure Fine (s : Kills) (r : Slot) : Prop where
  killed : (s.pc r).tested → (s.proc r).killed = s.hit r
  chan : (s.pc r).waits → (s.proc r).chan = if s.woken r then none else some (.proc r)
  asleep : ∀ addr, s.pc r = .slept addr → (s.proc r).state = .sleeping → (s.proc r).killed = false

theorem fine_of_not_pauses (h : (s.pc r).pauses = false) : s.Fine r := by
  refine ⟨fun ht => ?_, fun hw => ?_, fun addr hpc => ?_⟩
  · cases h.symm.trans (Pc.pauses_of_tested ht)
  · cases h.symm.trans (Pc.pauses_of_waits hw)
  · rw [hpc] at h
    cases h

/-- A wakeup, on a process whose channel is its own until it is woken. -/
theorem Fine.wake {chan : Chan} (h : s.Fine r) (hpc : s'.pc r = s.pc r)
    (hproc : s'.proc r = (s.proc r).wake chan) (hhit : s'.hit r = s.hit r)
    (hwoken : s'.woken r = (s.woken r || chan = .proc r)) : s'.Fine r := by
  have hkilled : (s'.proc r).killed = (s.proc r).killed := by
    rw [hproc, Proc.wake]
    split <;> rfl
  refine ⟨fun ht => ?_, fun hw => ?_, fun addr haddr hstate => ?_⟩
  · rw [hkilled, hhit]
    exact h.killed (hpc ▸ ht)
  · have hchan := h.chan (hpc ▸ hw)
    rw [hproc, hwoken, Proc.wake]
    cases hold : s.woken r with
    | true =>
      rw [hold] at hchan
      split
      · rfl
      · exact hchan
    | false =>
      rw [hold] at hchan
      have hchan : (s.proc r).chan = some (.proc r) := hchan
      by_cases heq : chan = .proc r
      · rw [if_pos (by rw [hchan, heq])]
        simp [heq]
      · rw [if_neg (fun hc => heq (Option.some.inj (hc.symm.trans hchan)))]
        simpa [heq] using hchan
  · rw [hkilled]
    refine h.asleep addr (hpc ▸ haddr) ?_
    rw [hproc, Proc.wake] at hstate
    split at hstate
    · dsimp only at hstate
      split at hstate
      · cases hstate
      · exact hstate
    · exact hstate

theorem Fine.step (h : s.Fine r) (hfeels : Feels build s e s' r) (htimely : s.Timely e) :
    s'.Fine r := by
  cases hfeels with
  | out hout => exact fine_of_not_pauses hout
  | keep hpc hproc hhit hwoken =>
    refine ⟨fun ht => ?_, fun hw => ?_, fun addr haddr hstate => ?_⟩
    · rw [hproc.killed, hhit]
      exact h.killed (hpc ▸ ht)
    · rw [hproc.chan, hwoken]
      exact h.chan (hpc ▸ hw)
    · rw [hproc.killed]
      exact h.asleep addr (hpc ▸ haddr) (hproc.state hstate)
  | wake hpc hproc hhit hwoken => exact h.wake hpc hproc hhit hwoken
  | kill hpc hproc hhit hwoken =>
    refine ⟨fun _ => ?_, fun hw => ?_, fun addr haddr hstate => ?_⟩
    · rw [hproc, hhit]
      rfl
    · rw [hproc, hwoken]
      exact h.chan (hpc ▸ hw)
    · rw [hproc, Proc.kill] at hstate
      dsimp only at hstate
      split at hstate
      · cases hstate
      · exact absurd hstate ‹_›
  | test hpc hproc hkilled hhit =>
    refine ⟨fun _ => ?_, fun hw => ?_, fun addr haddr => ?_⟩
    · rw [hproc, hkilled, hhit]
    · rw [hpc] at hw
      cases hw
    · cases hpc.symm.trans haddr
  | prepare hpc hpc' hproc hhit hwoken =>
    refine ⟨fun _ => ?_, fun _ => ?_, fun addr haddr => ?_⟩
    · rw [hproc, hhit]
      exact h.killed (by rw [hpc]; rfl)
    · rw [hproc, hwoken]
      rfl
    · cases hpc'.symm.trans haddr
  | unlock hpc hpc' hproc hhit hwoken =>
    refine ⟨fun _ => ?_, fun _ => ?_, fun addr haddr => ?_⟩
    · rw [hproc, hhit]
      exact h.killed (by rw [hpc]; rfl)
    · rw [hproc, hwoken]
      exact h.chan (by rw [hpc]; rfl)
    · cases hpc'.symm.trans haddr
  | awake hpc hpc' hproc hstate hwoken =>
    refine ⟨fun ht => ?_, fun _ => ?_, fun _ _ hstate' => ?_⟩
    · rw [hpc'] at ht
      cases ht
    · rw [hproc, hwoken]
      exact h.chan (by rw [hpc]; rfl)
    · rw [hproc, hstate] at hstate'
      cases hstate'
  | sleep he hpc hpc' hchan hproc hwoken =>
    have hold := h.chan (by rw [hpc]; rfl)
    refine ⟨fun ht => ?_, fun _ => ?_, fun _ _ _ => ?_⟩
    · rw [hpc'] at ht
      cases ht
    · rw [hproc, hwoken]
      exact hold
    · subst he
      have hkilled : (s.proc r).killed = false := by
        rw [h.killed (by rw [hpc]; rfl)]
        refine (htimely (by rw [hpc])).resolve_right fun hw => hchan ?_
        rw [hold, hw]
        rfl
      rw [hproc]
      exact hkilled

/-! ## Runs -/

/-- The next thing a process does is look at its children, and then at `killed(p)`. -/
def Looks (s : Tasks) (p : Slot) : Prop :=
  (∃ addr, s.pc p = .slept addr ∧ s.waitLock = none) ∨ ∃ addr rest havekids,
    s.pc p = .scan addr rest havekids

/-- Process `p` comes back from `kwait` by itself; if it finds no zombie it frees nobody, which is
a return of -1. -/
def Returns (build : Build) (s : Tasks) (p : Slot) : Prop :=
  ∃ n s', run (Tasks.step build) s (List.replicate n (.go p)) = some s' ∧ s'.pc p = .user ∧
    ((∀ q, (s.proc q).parent = some p → (s.proc q).state ≠ .zombie) → s'.globals = s.globals)

/-- **A killed waiter gets to see it**: it does not sleep on its own channel, and returns once it
gets the CPU and `wait_lock`. -/
def Heard (build : Build) (s : Kills) (p : Slot) : Prop :=
  (s.proc p).killed = true →
    (∀ addr, s.pc p = .slept addr → (s.proc p).state = .sleeping →
      (s.proc p).chan ≠ some (.proc p)) ∧
    ((s.proc p).state = .running → Looks s.tasks p → Returns build s.tasks p)

theorem returns_of_go {t t' : Tasks} (hgo : t.step build (.go p) = some t')
    (hglobals : t'.globals = t.globals) (h : Returns build t' p) : Returns build t p := by
  obtain ⟨n, t'', hrun, hpc, hsame⟩ := h
  refine ⟨n + 1, t'', run_cons_eq_some.mpr ⟨t', hgo, hrun⟩, hpc, fun hall => ?_⟩
  rw [hsame fun q => ?_, hglobals]
  rw [Tasks.proc, hglobals]
  exact hall q

/-- **A killed process comes to the end of its loop**, over what is left of the table. -/
theorem returns_of_scan {t : Tasks} {addr : ℕ} {rest : List Slot} {havekids : Bool}
    (hp : t.At p (.scan addr rest havekids)) (hkilled : (t.proc p).killed = true) :
    Returns build t p := by
  induction rest generalizing t havekids with
  | nil =>
    refine ⟨1, t.release p .user, ?_, Function.update_self _ _ _, fun _ => rfl⟩
    rw [List.replicate_one, run, Tasks.step, if_pos hp.2, hp.1, Tasks.go, hkilled, Bool.or_true,
      if_pos rfl]
    rfl
  | cons q rest ih =>
    have hat (havekids : Bool) :
        (t.setPc p (.scan addr rest havekids)).At p (.scan addr rest havekids) :=
      ⟨Function.update_self _ _ _, hp.2⟩
    have hstep : t.step build (.go p) = t.go build p (.scan addr (q :: rest) havekids) := by
      rw [Tasks.step, if_pos hp.2, hp.1]
    rw [Tasks.go] at hstep
    split at hstep
    · rename_i hparent
      split at hstep
      · rename_i hzombie
        let f (x : Proc) : Proc := { x with parent := none }.free
        refine ⟨1, (t.modify q f).release p .user, ?_, Function.update_self _ _ _,
          fun hall => absurd hzombie (hall q hparent)⟩
        rw [List.replicate_one, run, hstep]
        rfl
      · exact returns_of_go hstep rfl (ih (hat true) hkilled)
    · exact returns_of_go hstep rfl (ih (hat havekids) hkilled)

theorem returns_of_looks {t : Tasks} (hp : (t.proc p).state = .running) (h : Looks t p)
    (hkilled : (t.proc p).killed = true) : Returns build t p := by
  rcases h with ⟨addr, hpc, hlk⟩ | ⟨addr, rest, havekids, hpc⟩
  · have hstep : t.step build (.go p) = t.acquire p (.scan addr (List.finRange nproc) false) := by
      rw [Tasks.step, if_pos hp, hpc, Tasks.go]
    rw [Tasks.acquire, if_pos hlk] at hstep
    refine returns_of_go hstep rfl (returns_of_scan ⟨Function.update_self _ _ _, hp⟩ hkilled)
  · exact returns_of_scan ⟨hpc, hp⟩ hkilled

/-- What holds as long as every step is timely. -/
structure Sound (s : Kills) : Prop where
  control : s.tasks.Control
  fine : ∀ p, s.Fine p

theorem Sound.heard (h : s.Sound) (p : Slot) : s.Heard build p := by
  refine fun hkilled => ⟨fun addr hpc hstate => ?_, fun hp hlooks => ?_⟩
  · cases hkilled.symm.trans ((h.fine p).asleep addr hpc hstate)
  · exact returns_of_looks hp hlooks hkilled

theorem Sound.step (h : s.Sound) (htimely : s.Timely e) (hstep : s.step build e = some s') :
    s'.Sound := by
  refine ⟨?_, fun p => (h.fine p).step (feels_of_step h.control hstep p) htimely⟩
  obtain ⟨tasks, htasks, rfl⟩ := Option.map_eq_some_iff.mp hstep
  have hrecord : (s.record tasks e).tasks = tasks := by
    rw [record.eq_def]
    split
    · rw [recordGo.eq_def]
      split
      all_goals first | rfl | split <;> rfl
    · rfl
    · rfl
  rw [hrecord]
  exact h.control.step htasks

/-- **A process that sleeps too late sleeps killed.** -/
theorem Sound.timely (h : s.Sound) (hstep : s.step build e = some s')
    (hheard : ∀ p, s'.Heard build p) : s.Timely e := by
  cases e with
  | go p =>
    intro hsleep
    by_contra hlate
    obtain ⟨hhit, hwoken⟩ := not_or.mp hlate
    have hhit : s.hit p = true := by simpa using hhit
    have hwoken : s.woken p = false := by simpa using hwoken
    obtain ⟨addr, hpc⟩ : ∃ addr, s.tasks.pc p = .sleep addr := by
      rw [Kills.pc] at hsleep
      cases hpc : s.tasks.pc p <;> rw [hpc] at hsleep <;> first | exact ⟨_, rfl⟩ | cases hsleep
    have hchan : (s.proc p).chan = some (.proc p) := by
      rw [(h.fine p).chan (by rw [Kills.pc, hpc]; rfl), hwoken]
      rfl
    have hkilled : (s.proc p).killed = true := by
      rw [(h.fine p).killed (by rw [Kills.pc, hpc]; rfl), hhit]
    obtain ⟨tasks, htasks, rfl⟩ := Option.map_eq_some_iff.mp hstep
    obtain ⟨hp, hgo⟩ := Option.ite_none_right_eq_some.mp htasks
    rw [hpc, Tasks.go, if_neg (by rw [show (s.tasks.proc p).chan = _ from hchan]; nofun)] at hgo
    cases hgo
    rw [record, Kills.pc, hpc] at hheard
    have hproc : ((s.tasks.modify p (·.sleep build)).proc p) = (s.proc p).sleep build :=
      Tasks.proc_modify_self
    obtain ⟨hawake, -⟩ := hheard p (congrArg Proc.killed hproc |>.trans hkilled)
    exact hawake addr (Function.update_self _ _ _) (congrArg Proc.state hproc)
      ((congrArg Proc.chan hproc).trans hchan)
  | _ => trivial

/-- **When a killed waiter gets to see it**: exactly when no process sleeps in `kwait` that `kkill`
hit since its test, and no wakeup woke since its `sleep_prepare`. -/
theorem heard_iff {es : List Event} (h : run (step build) boot es = some s) :
    Always (step build) (fun s => ∀ p, s.Heard build p) boot es ↔
      Along (step build) Timely boot es := by
  refine always_iff (J := Sound) (fun s hs p => hs.heard p)
    (fun s e s' hs htimely => hs.step htimely)
    (fun s e s' hs hstep hheard => hs.timely hstep hheard) ?_ h
  exact ⟨Tasks.control_boot, fun p => fine_of_not_pauses rfl⟩

/-- `init` forks process 1, which forks and waits for its child, and finds none that is a zombie and
`killed(p)` false, up to where it tests it. -/
def waiting : List Event :=
  [.dispatch 0, .fork 0 1 .done, .go 0, .go 0, .dispatch 1, .fork 1 2 .done, .go 1, .go 1,
    .wait 1 0] ++ List.replicate 65 (Event.go 1)

/-- It says that it will sleep, and sleeps; `init` kills it. -/
def inTime : List Event :=
  waiting ++ [Event.go 1, Event.go 1, Event.go 1, Event.kill 0 2, Event.go 0, Event.go 0]

theorem heard_iff_inTime : ∃ s : Kills, run (step .rr) boot inTime = some s ∧
    Always (step .rr) (fun s => ∀ p, s.Heard .rr p) boot inTime := by
  have hs := Option.eq_some_of_isSome (show (run (step .rr) boot inTime).isSome by decide +kernel)
  exact ⟨_, hs, (heard_iff hs).mpr (by decide +kernel)⟩

/-- `init` kills it before it sleeps, and its child never exits. -/
def tooLate : List Event :=
  waiting ++ [Event.go 1, Event.go 1, Event.kill 0 2, Event.go 0, Event.go 0, Event.go 1]

theorem not_heard : ¬ ∀ es s, run (step .rr) boot es = some s →
    Always (step .rr) (fun s => ∀ p, s.Heard .rr p) boot es := by
  intro h
  have hs := Option.eq_some_of_isSome (show (run (step .rr) boot tooLate).isSome by decide +kernel)
  have hheard := h tooLate _ hs tooLate List.prefix_rfl _ hs 1 (by decide +kernel)
  exact hheard.1 0 (by decide +kernel) (by decide +kernel) (by decide +kernel)

end Kills

end MiniProject.Kernel
