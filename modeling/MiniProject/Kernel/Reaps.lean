import MiniProject.Kernel.Family

/-!
# Kernel/Reaps — who exited, and which call of `kwait` freed it

Processes are numbered as they are created, as a slot and a pid may be used again.  `kexit` enters a
process in one list and the `freeproc` of `kwait` in another; each process that exited is a zombie,
or was freed once, by a call that its mother made or, if she had exited, `init` (`accounted_run`).
-/

namespace MiniProject.Kernel

open Tasks (Event Does)

/-! ## The history -/

/-- A process that exited: its slot, number, pid and status, and who forked it. -/
structure Exit where
  slot : Slot
  num : ℕ
  pid : ℤ
  status : ℤ
  mother : ℕ
  deriving DecidableEq, Repr

/-- A call `wait(addr)` that frees a process: who makes it and for whom, the pid that it returns and
the status that it copies out; an `orphan` is a child whose mother has exited. -/
structure Reap where
  caller : ℕ
  child : ℕ
  addr : ℕ
  pid : ℤ
  status : Option ℤ
  orphan : Bool
  deriving DecidableEq, Repr

/-- **A call answers an exit**, of which it returns the pid and delivers the status, and is made by
the mother, or by `init` if she exited first. -/
structure Reap.Answers (r : Reap) (init : ℕ) (e : Exit) : Prop where
  child : r.child = e.num
  pid : r.pid = e.pid
  status : r.status = if r.addr = 0 then none else some e.status
  caller : r.caller = if r.orphan then init else e.mother

/-- The machine with its history: the number of the process in each slot and of who forked it, and
the next number. -/
structure Lineage where
  tasks : Tasks
  num : Slot → ℕ
  mother : Slot → ℕ
  next : ℕ
  exits : List Exit
  reaps : List Reap

namespace Lineage

/-- `userinit` is done. -/
def boot : Lineage := ⟨.boot, fun _ => 0, fun _ => 0, 1, [], []⟩

section Step

variable (build : Build) (s : Lineage)

/-- The process in a slot. -/
def proc (q : Slot) : Proc := s.tasks.proc q

/-- The exit of `p`. -/
def exit (p : Slot) (status : ℤ) : Exit := ⟨p, s.num p, (s.proc p).pid, status, s.mother p⟩

/-- Process `n` has exited. -/
def Exited (n : ℕ) : Prop := ∃ e ∈ s.exits, e.num = n

instance (n : ℕ) : Decidable (s.Exited n) := inferInstanceAs (Decidable (∃ e ∈ s.exits, _))

/-- The call of `p` that frees `q`. -/
def reap (p : Slot) (addr : ℕ) (q : Slot) : Reap where
  caller := s.num p
  child := s.num q
  addr
  pid := (s.proc q).pid
  status := if addr = 0 then none else some (s.proc q).xstate
  orphan := s.Exited (s.mother q)

/-- What the code at a program counter adds to the history. -/
def recordGo (tasks : Tasks) (p : Slot) : Pc → Lineage
  | .dying status => { s with tasks, exits := s.exits ++ [s.exit p status] }
  | .scan addr (q :: _) _ =>
    if (s.proc q).parent = some p ∧ (s.proc q).state = .zombie then
      { s with tasks, reaps := s.reaps ++ [s.reap p addr q] }
    else { s with tasks }
  | _ => { s with tasks }

/-- What a step adds to the history. -/
def record (tasks : Tasks) : Event → Lineage
  | .fork p np .done =>
    { s with
      tasks, next := s.next + 1
      num := Function.update s.num np s.next
      mother := Function.update s.mother np (s.num p) }
  | .go p => s.recordGo tasks p (s.tasks.pc p)
  | _ => { s with tasks }

/-- A step. -/
def step (e : Event) : Option Lineage := (s.tasks.step build e).map (s.record · e)

end Step

/-! ## The steps that count -/

/-- What neither makes a process nor ends or frees one. -/
structure Keeps (x y : Proc) : Prop where
  free : y.age = .free ↔ x.age = .free
  zombie : y.age = .zombie ↔ x.age = .zombie
  pid : x.age = .zombie → y.pid = x.pid
  xstate : x.age = .zombie → y.xstate = x.xstate

theorem Keeps.refl (x : Proc) : Keeps x x := ⟨.rfl, .rfl, fun _ => rfl, fun _ => rfl⟩

theorem keeps_of_calm {x y : Proc} (h : Calm x y) : Keeps x y :=
  ⟨by rw [h.age], by rw [h.age], fun _ => h.pid, fun _ => h.xstate⟩

/-- Neither is a zombie, and both are free or neither is. -/
theorem keeps_of_not_zombie {x y : Proc} (hx : x.age ≠ .zombie) (hy : y.age ≠ .zombie)
    (hfree : y.age = .free ↔ x.age = .free) : Keeps x y :=
  ⟨hfree, iff_of_false hy hx, fun h => absurd h hx, fun h => absurd h hx⟩

/-- **What a step does to the family**, which is nothing for most. -/
inductive Goes (s : Lineage) : Lineage → Prop
  | quiet {tasks} (hkeeps : ∀ q, Keeps (s.proc q) (tasks.proc q))
    (hparent : ∀ q, (tasks.proc q).parent = (s.proc q).parent)
    (hinit : tasks.initproc = s.tasks.initproc)
    (hforked : ∀ p np, tasks.pc p = .forked np → s.tasks.pc p = .forked np)
    (horphaning : ∀ p, (s.tasks.pc p).orphaning ≠ none → (tasks.pc p).orphaning ≠ none) :
    Goes s { s with tasks }
  | fork {p np} (hp : s.tasks.At p .user) (hnp : (s.proc np).state = .unused) :
    Goes s (s.record (s.tasks.kfork p np .done) (.fork p np .done))
  | adopt {p np} (hp : s.tasks.At p (.forked np)) (hlk : s.tasks.waitLock = none) :
    Goes s { s with
      tasks := { (s.tasks.modify np ({ · with parent := some p })).setPc p (.adopting np) with
        waitLock := some p } }
  | orphan {p status q rest} (hp : s.tasks.At p (.reparent status (q :: rest)))
    (hq : (s.proc q).parent = some p) :
    Goes s { s with
      tasks := (s.tasks.modify q ({ · with parent := some s.tasks.initproc })).setPc p
        (.wakeInit status rest (List.finRange nproc)) }
  | die {p status} (hp : s.tasks.At p (.dying status)) :
    Goes s { s with
      tasks := (s.tasks.modify p (·.exit status s.tasks.globals.ticks)).release p .dead
      exits := s.exits ++ [s.exit p status] }
  | reap {p addr q rest havekids} (hp : s.tasks.At p (.scan addr (q :: rest) havekids))
    (hq : (s.proc q).parent = some p) (hq' : (s.proc q).state = .zombie) :
    Goes s { s with
      tasks := (s.tasks.modify q fun x => { x with parent := none }.free).release p .user
      reaps := s.reaps ++ [s.reap p addr q] }

variable {build : Build} {s s' : Lineage} {tasks : Tasks} {e : Event} {p q r np : Slot} {pc : Pc}

/-- A step of one process. -/
theorem Goes.move (hpc : tasks.pc = Function.update s.tasks.pc p pc)
    (hkeeps : ∀ q, Keeps (s.proc q) (tasks.proc q))
    (hparent : ∀ q, (tasks.proc q).parent = (s.proc q).parent)
    (hinit : tasks.initproc = s.tasks.initproc) (hforked : ∀ np, pc ≠ .forked np)
    (horphaning : (s.tasks.pc p).orphaning = none ∨ pc.orphaning ≠ none) :
    s.Goes { s with tasks } := by
  refine .quiet hkeeps hparent hinit (fun r np hr => ?_) fun r hr => ?_
  all_goals by_cases hrp : r = p
  · rw [hpc, hrp, Function.update_self] at hr
    exact absurd hr (hforked np)
  · rw [hpc, Function.update_of_ne hrp] at hr
    exact hr
  · rw [hrp] at hr
    rw [hpc, hrp, Function.update_self]
    exact horphaning.resolve_left hr
  · rw [hpc, Function.update_of_ne hrp]
    exact hr

/-- …which leaves everybody's age and parent. -/
theorem Goes.moveCalm (hpc : tasks.pc = Function.update s.tasks.pc p pc)
    (hcalm : ∀ q, Calm (s.proc q) (tasks.proc q)) (hinit : tasks.initproc = s.tasks.initproc)
    (hforked : ∀ np, pc ≠ .forked np)
    (horphaning : (s.tasks.pc p).orphaning = none ∨ pc.orphaning ≠ none) :
    s.Goes { s with tasks } :=
  .move hpc (fun q => keeps_of_calm (hcalm q)) (fun q => (hcalm q).parent) hinit hforked horphaning

/-- `kfork` gives up, and the slot is as free as before. -/
theorem goes_forkFailed {how : Forking} (hnp : (s.proc np).state = .unused) (hhow : how ≠ .done) :
    s.Goes (s.record (s.tasks.kfork p np how) (.fork p np how)) := by
  have hfree : (s.proc np).age = .free := Tasks.age_of_unused hnp
  have hage : ((s.tasks.kfork p np how).proc np).age = .free := by
    rw [Tasks.age_kfork, if_neg hhow]
  have hpc : (s.tasks.kfork p np how).pc = s.tasks.pc := by
    cases how with
    | done => exact absurd rfl hhow
    | noProc | noCopy => rfl
  have hquiet : s.Goes { s with tasks := s.tasks.kfork p np how } := by
    refine .quiet (fun r => ?_) (fun r => ?_) Tasks.initproc_kfork (fun r np' => ?_) fun r => ?_
    · by_cases hr : r = np
      · rw [hr]
        exact keeps_of_not_zombie (fun hz => nomatch hfree.symm.trans hz)
          (fun hz => nomatch hage.symm.trans hz) (iff_of_true hage hfree)
      · rw [Tasks.proc_kfork_of_ne hr]
        exact .refl _
    · by_cases hr : r = np
      · rw [hr, Tasks.parent_kfork]
        rfl
      · rw [Tasks.proc_kfork_of_ne hr]
        rfl
    · rw [hpc]
      exact id
    · rw [hpc]
      exact id
  cases how with
  | done => exact absurd rfl hhow
  | noProc | noCopy => exact hquiet

/-- A child starts. -/
theorem goes_ready (hcontrol : s.tasks.Control) (hp : s.tasks.At p (.adopting np)) :
    s.Goes { s with
      tasks := (s.tasks.modify np ({ · with state := .runnable })).release p .user } := by
  have hembryo := hcontrol.embryo p np (by rw [hp.1]; rfl)
  have hage : ({ s.proc np with state := .runnable } : Proc).age = .alive := rfl
  have hkeeps (r : Slot) : Keeps (s.proc r)
      ((s.tasks.modify np ({ · with state := .runnable })).proc r) := by
    refine Tasks.proc_modify_rel .refl (keeps_of_not_zombie ?_ ?_ (iff_of_false ?_ ?_)) r
    · exact fun hz => nomatch hembryo.symm.trans hz
    · exact fun hz => nomatch hage.symm.trans hz
    · exact fun hf => nomatch hage.symm.trans hf
    · exact fun hf => nomatch hembryo.symm.trans hf
  exact .move rfl hkeeps (Tasks.parent_modify rfl) rfl nofun (.inl (by rw [hp.1]; rfl))

/-- A process says where it will sleep. -/
theorem goes_prepare {chan : Chan} (hpc : tasks.pc = Function.update s.tasks.pc p pc)
    (hglobals : tasks.globals = (s.tasks.modify p ({ · with chan := some chan })).globals)
    (hforked : ∀ np, pc ≠ .forked np) (horphaning : (s.tasks.pc p).orphaning = none) :
    s.Goes { s with tasks } := by
  have hproc (r : Slot) :
      tasks.proc r = (s.tasks.modify p ({ · with chan := some chan })).proc r := by
    rw [Tasks.proc, hglobals, Tasks.proc]
  have hinit : tasks.initproc = s.tasks.initproc := by
    rw [Tasks.initproc, hglobals]
    rfl
  refine .move hpc (fun r => ?_) (fun r => ?_) hinit hforked (.inl horphaning)
  · rw [hproc]
    exact Tasks.proc_modify_rel .refl ⟨.rfl, .rfl, fun _ => rfl, fun _ => rfl⟩ r
  · rw [hproc]
    exact Tasks.parent_modify rfl r

theorem goes_of_step (hcontrol : s.tasks.Control) (h : s.step build e = some s') : s.Goes s' := by
  obtain ⟨tasks, htasks, rfl⟩ := Option.map_eq_some_iff.mp h
  have hcalm {q : Slot} {f : Proc → Proc} (hf : Calm (s.tasks.proc q) (f (s.tasks.proc q)))
      (r : Slot) : Calm (s.tasks.proc r) ((s.tasks.modify q f).proc r) :=
    Tasks.proc_modify_rel .refl hf r
  have hgo {p : Slot} {pc : Pc} (hp : s.tasks.At p pc) (h : s.Goes (s.recordGo tasks p pc)) :
      s.Goes (s.record tasks (.go p)) := by
    rw [record, hp.1]
    exact h
  cases Tasks.does_of_step htasks with
  | @calm e q f he hf =>
    have hquiet : s.Goes { s with tasks := s.tasks.modify q f } :=
      .quiet (fun r => keeps_of_calm (hcalm hf r)) (fun r => (hcalm hf r).parent) rfl
        (fun _ _ hr => hr) fun _ hr => hr
    cases e with
    | setkilled | dispatch | yield | wake => exact hquiet
    | _ => cases he
  | clock => exact .quiet (fun _ => .refl _) (fun _ => rfl) rfl (fun _ _ hr => hr) fun _ hr => hr
  | forkFailed hp hnp hhow => exact goes_forkFailed hnp hhow
  | fork hp hnp => exact .fork hp hnp
  | adopt hp hlk => exact hgo hp (.adopt hp hlk)
  | ready hp => exact hgo hp (goes_ready hcontrol hp)
  | orphan hp hq => exact hgo hp (.orphan hp hq)
  | die hp => exact hgo hp (.die hp)
  | reap hp hq hq' =>
    refine hgo hp ?_
    rw [recordGo, if_pos ⟨hq, hq'⟩]
    exact .reap hp hq hq'
  | skip hp hq =>
    refine hgo hp ?_
    rw [recordGo, if_neg fun hcond => hq hcond.1]
    exact .moveCalm rfl (fun _ => .refl _) rfl nofun (.inl (by rw [hp.1]; rfl))
  | look hp hq hq' =>
    refine hgo hp ?_
    rw [recordGo, if_neg fun hcond => hq' hcond.2]
    exact .moveCalm rfl (fun _ => .refl _) rfl nofun (.inl (by rw [hp.1]; rfl))
  | exit hp | wait hp | fault hp | kill hp | awakeOther hp =>
    exact .moveCalm rfl (fun _ => .refl _) rfl nofun (.inl (by rw [hp.1]; rfl))
  | pass hp | reparented hp | fatherless hp | wokeInit hp | wokeParent hp =>
    exact hgo hp (.moveCalm rfl (fun _ => .refl _) rfl nofun (.inr nofun))
  | fail hp | again hp | unlock hp | awake hp | rescan hp | miss hp | killFailed hp =>
    exact hgo hp (.moveCalm rfl (fun _ => .refl _) rfl nofun (.inl (by rw [hp.1]; rfl)))
  | wakeInit hp | wakeParent hp =>
    exact hgo hp (.moveCalm rfl (hcalm (calm_wake _ _)) rfl nofun (.inr nofun))
  | prepare hp => exact hgo hp (goes_prepare rfl rfl nofun (by rw [hp.1]; rfl))
  | prepareOther hp => exact goes_prepare rfl rfl nofun (by rw [hp.1]; rfl)
  | sleep hp =>
    exact hgo hp (.moveCalm rfl (hcalm (f := (·.sleep build)) (calm_sleep hp.2 build)) rfl nofun
      (.inl (by rw [hp.1]; rfl)))
  | sleepOther hp =>
    exact .moveCalm rfl (hcalm (f := (·.sleep build)) (calm_sleep hp.2 build)) rfl nofun
      (.inl (by rw [hp.1]; rfl))
  | hit hp =>
    exact hgo hp (.moveCalm rfl (hcalm (calm_kill _)) rfl nofun (.inl (by rw [hp.1]; rfl)))

/-! ## The books -/

/-- **What holds of the two lists**: numbers are not used again, each zombie is in the list of those
who exited and not of those who were freed, and who exited and is no zombie was freed. -/
structure Ledger (s : Lineage) : Prop where
  init : s.num s.tasks.initproc = 0
  fresh : ∀ q, (s.proc q).age ≠ .free → s.num q < s.next
  injective : ∀ q r, (s.proc q).age ≠ .free → (s.proc r).age ≠ .free → s.num q = s.num r → q = r
  past : ∀ e ∈ s.exits, e.num < s.next
  living : ∀ q, (s.proc q).age ≠ .free → (s.proc q).age ≠ .zombie → ¬ s.Exited (s.num q)
  zombie : ∀ q, (s.proc q).age = .zombie → s.exit q (s.proc q).xstate ∈ s.exits
  waiting : ∀ q, (s.proc q).age = .zombie → ∀ r ∈ s.reaps, r.child ≠ s.num q
  distinct : (s.exits.map Exit.num).Nodup
  kept : ∀ e ∈ s.exits, ((s.proc e.slot).age = .zombie ∧ s.num e.slot = e.num) ∨
    ∃ r ∈ s.reaps, r.child = e.num
  answers : ∀ r ∈ s.reaps, ∃ e ∈ s.exits, r.Answers 0 e
  once : (s.reaps.map Reap.child).Nodup

/-- Whoever neither comes nor goes leaves the books alone. -/
theorem Ledger.keep (h : s.Ledger) (hkeeps : ∀ q, Keeps (s.proc q) (tasks.proc q))
    (hinit : tasks.initproc = s.tasks.initproc) : Ledger { s with tasks } := by
  have hfree {q : Slot} (hq : (tasks.proc q).age ≠ .free) : (s.proc q).age ≠ .free := fun hold =>
    hq ((hkeeps q).free.mpr hold)
  refine ⟨?_, fun q hq => h.fresh q (hfree hq),
    fun q r hq hr => h.injective q r (hfree hq) (hfree hr), h.past, fun q hq hq' => ?_,
    fun q hq => ?_, fun q hq => h.waiting q ((hkeeps q).zombie.mp hq), h.distinct, fun e he => ?_,
    h.answers, h.once⟩
  · exact (congrArg s.num hinit).trans h.init
  · exact h.living q (hfree hq) fun hz => hq' ((hkeeps q).zombie.mpr hz)
  · have hz := (hkeeps q).zombie.mp hq
    have hexit : exit { s with tasks } q (tasks.proc q).xstate = s.exit q (s.proc q).xstate := by
      rw [exit, exit, ← (hkeeps q).pid hz, (hkeeps q).xstate hz]
      rfl
    exact hexit.symm ▸ h.zombie q hz
  · exact (h.kept e he).imp_left fun ⟨hz, hnum⟩ => ⟨(hkeeps e.slot).zombie.mpr hz, hnum⟩

/-- **A new process gets a new number.** -/
theorem Ledger.fork (h : s.Ledger) (hcontrol : s.tasks.Control)
    (hnp : (s.proc np).state = .unused) :
    (s.record (s.tasks.kfork p np .done) (.fork p np .done)).Ledger := by
  let s' := s.record (s.tasks.kfork p np .done) (.fork p np .done)
  have hfree : (s.proc np).age = .free := Tasks.age_of_unused hnp
  have hage : (s'.proc np).age = .embryo := Tasks.age_kfork
  have hself : s'.num np = s.next := Function.update_self _ _ _
  have hother {q : Slot} (hq : q ≠ np) : s'.proc q = s.proc q ∧ s'.num q = s.num q ∧
      s'.mother q = s.mother q :=
    ⟨Tasks.proc_kfork_of_ne hq, Function.update_of_ne hq _ _, Function.update_of_ne hq _ _⟩
  have hzombie {q : Slot} (hz : (s'.proc q).age = .zombie) : q ≠ np := by
    rintro rfl
    cases hage.symm.trans hz
  have hlt {q : Slot} (hq : q ≠ np) (hq' : (s'.proc q).age ≠ .free) : s'.num q < s.next := by
    rw [(hother hq).1] at hq'
    rw [(hother hq).2.1]
    exact h.fresh q hq'
  have hnext : s.next < s'.next := Nat.lt_succ_self _
  have hinit : s.tasks.initproc ≠ np := by
    rintro rfl
    cases hfree.symm.trans hcontrol.init
  change s'.Ledger
  refine ⟨(hother hinit).2.1.trans h.init, fun q hq => ?_, fun q r hq hr heq => ?_,
    fun e he => (h.past e he).trans hnext, fun q hq hq' => ?_, fun q hz => ?_, fun q hz => ?_,
    h.distinct, fun e he => ?_, h.answers, h.once⟩
  · by_cases hqn : q = np
    · rw [hqn, hself]
      exact hnext
    · exact (hlt hqn hq).trans hnext
  · by_cases hqn : q = np
    all_goals by_cases hrn : r = np
    · rw [hqn, hrn]
    · rw [hqn] at heq
      exact absurd (heq.symm.trans hself) (hlt hrn hr).ne
    · rw [hrn] at heq
      exact absurd (heq.trans hself) (hlt hqn hq).ne
    · rw [(hother hqn).1] at hq
      rw [(hother hrn).1] at hr
      rw [(hother hqn).2.1, (hother hrn).2.1] at heq
      exact h.injective q r hq hr heq
  · rintro ⟨e, he, hnum⟩
    by_cases hqn : q = np
    · rw [hqn] at hnum
      exact absurd (hnum.trans hself) (h.past e he).ne
    · rw [(hother hqn).1] at hq hq'
      exact h.living q hq hq' ⟨e, he, hnum.trans (hother hqn).2.1⟩
  · obtain ⟨hproc, hnum, hmother⟩ := hother (hzombie hz)
    have hexit : s'.exit q (s'.proc q).xstate = s.exit q (s.proc q).xstate := by
      rw [exit, exit, hproc, hnum, hmother]
    rw [hproc] at hz
    exact hexit.symm ▸ h.zombie q hz
  · obtain ⟨hproc, hnum, -⟩ := hother (hzombie hz)
    rw [hproc] at hz
    exact fun r hr hc => h.waiting q hz r hr (hc.trans hnum)
  · refine (h.kept e he).imp_left fun ⟨hz, hnum⟩ => ?_
    have hne : e.slot ≠ np := by
      rintro heq
      rw [heq] at hz
      cases hfree.symm.trans hz
    exact ⟨(congrArg Proc.age (hother hne).1).trans hz, (hother hne).2.1.trans hnum⟩

/-- **A process that exits** is entered. -/
theorem Ledger.die (h : s.Ledger) {status : ℤ} {ticks : ℕ} (hp : s.tasks.At p (.dying status)) :
    Ledger { s with
      tasks := (s.tasks.modify p (·.exit status ticks)).release p .dead
      exits := s.exits ++ [s.exit p status] } := by
  let s' : Lineage := { s with
    tasks := (s.tasks.modify p (·.exit status ticks)).release p .dead
    exits := s.exits ++ [s.exit p status] }
  have hself : s'.proc p = (s.proc p).exit status ticks := Tasks.proc_modify_self
  have hother {q : Slot} (hq : q ≠ p) : s'.proc q = s.proc q := Tasks.proc_modify_of_ne hq
  have hp' : (s.proc p).age ≠ .free := by
    rw [show (s.proc p).age = .alive from hp.age]
    nofun
  have hpz : (s.proc p).age ≠ .zombie := by
    rw [show (s.proc p).age = .alive from hp.age]
    nofun
  have hfree {q : Slot} (hq : (s'.proc q).age ≠ .free) : (s.proc q).age ≠ .free := by
    by_cases hqp : q = p
    · rw [hqp]
      exact hp'
    · rw [← hother hqp]
      exact hq
  have hmem {e : Exit} (he : e ∈ s'.exits) : e ∈ s.exits ∨ e = s.exit p status :=
    (List.mem_append.mp he).imp_right List.mem_singleton.mp
  have hold {e : Exit} (he : e ∈ s.exits) : e ∈ s'.exits := List.mem_append_left _ he
  have hnew : s.exit p status ∈ s'.exits := List.mem_append_right _ (List.mem_singleton_self _)
  have hliving := h.living p hp' hpz
  change s'.Ledger
  refine ⟨h.init, fun q hq => h.fresh q (hfree hq),
    fun q r hq hr => h.injective q r (hfree hq) (hfree hr), fun e he => ?_, fun q hq hq' => ?_,
    fun q hz => ?_, fun q hz => ?_, ?_, fun e he => ?_, fun r hr => ?_, h.once⟩
  · rcases hmem he with he | rfl
    · exact h.past e he
    · exact h.fresh p hp'
  · have hqp : q ≠ p := by
      rintro rfl
      exact hq' (congrArg Proc.age hself)
    rintro ⟨e, he, hnum⟩
    rcases hmem he with he | rfl
    · rw [hother hqp] at hq hq'
      exact h.living q hq hq' ⟨e, he, hnum⟩
    · exact hqp (h.injective p q hp' (hfree hq) hnum).symm
  · by_cases hqp : q = p
    · rw [hqp, exit, hself]
      exact hnew
    · rw [hother hqp] at hz
      rw [exit, hother hqp]
      exact hold (h.zombie q hz)
  · by_cases hqp : q = p
    · intro r hr hc
      obtain ⟨e, he, hans⟩ := h.answers r hr
      rw [hqp] at hc
      exact hliving ⟨e, he, hans.child.symm.trans hc⟩
    · rw [hother hqp] at hz
      exact h.waiting q hz
  · rw [show s'.exits = s.exits ++ [s.exit p status] from rfl, List.map_append]
    refine h.distinct.append (List.nodup_singleton _) ?_
    rw [List.map_singleton, List.disjoint_singleton]
    rintro hin
    obtain ⟨e, he, hnum⟩ := List.mem_map.mp hin
    exact hliving ⟨e, he, hnum⟩
  · rcases hmem he with he | rfl
    · refine (h.kept e he).imp_left fun ⟨hz, hnum⟩ => ⟨?_, hnum⟩
      have hne : e.slot ≠ p := fun heq => hpz (heq ▸ hz)
      rw [hother hne]
      exact hz
    · exact .inl ⟨congrArg Proc.age hself, rfl⟩
  · obtain ⟨e, he, hans⟩ := h.answers r hr
    exact ⟨e, hold he, hans⟩

/-- **A zombie that is freed** is entered once. -/
theorem Ledger.reap (h : s.Ledger) {f : Proc → Proc} {addr : ℕ}
    (hq : (s.proc q).state = .zombie) (hf : (f (s.proc q)).age = .free)
    (hinit : tasks.initproc = s.tasks.initproc) (hself : tasks.proc q = f (s.proc q))
    (hother : ∀ r, r ≠ q → tasks.proc r = s.proc r)
    (hcaller : s.num p = if s.Exited (s.mother q) then 0 else s.mother q) :
    Ledger { s with tasks, reaps := s.reaps ++ [s.reap p addr q] } := by
  let s' : Lineage := { s with tasks, reaps := s.reaps ++ [s.reap p addr q] }
  have hz : (s.proc q).age = .zombie := Tasks.age_of_zombie hq
  have hqf : (s.proc q).age ≠ .free := by
    rw [hz]
    nofun
  have hage : (s'.proc q).age = .free := (congrArg Proc.age hself).trans hf
  have hother {r : Slot} (hr : r ≠ q) : s'.proc r = s.proc r := hother r hr
  have hne {r : Slot} (hr : (s'.proc r).age ≠ .free) : r ≠ q := by
    rintro rfl
    exact hr hage
  have hfree {r : Slot} (hr : (s'.proc r).age ≠ .free) : (s.proc r).age ≠ .free := by
    rw [← hother (hne hr)]
    exact hr
  have hzombie {r : Slot} (hr : (s'.proc r).age = .zombie) : r ≠ q := hne (by
    rw [hr]
    nofun)
  change s'.Ledger
  refine ⟨(congrArg s.num hinit).trans h.init, fun r hr => h.fresh r (hfree hr),
    fun r r' hr hr' => h.injective r r' (hfree hr) (hfree hr'), h.past, fun r hr hr' => ?_,
    fun r hr => ?_, fun r hr => ?_, h.distinct, fun e he => ?_, fun r hr => ?_, ?_⟩
  · rw [hother (hne hr)] at hr'
    exact h.living r (hfree hr) hr'
  · have heq := hother (hzombie hr)
    rw [heq] at hr
    rw [exit, heq]
    exact h.zombie r hr
  · intro call hcall
    have hold := hr
    rw [hother (hzombie hr)] at hold
    rcases List.mem_append.mp hcall with hcall | hcall
    · exact h.waiting r hold call hcall
    · rw [List.mem_singleton.mp hcall]
      refine fun hc => hzombie hr (h.injective q r hqf ?_ hc).symm
      rw [hold]
      nofun
  · rcases h.kept e he with ⟨hez, hnum⟩ | ⟨r, hr, hc⟩
    · by_cases hes : e.slot = q
      · refine .inr ⟨s.reap p addr q, List.mem_append_right _ (List.mem_singleton_self _), ?_⟩
        rw [hes] at hnum
        exact hnum
      · refine .inl ⟨?_, hnum⟩
        rw [hother hes]
        exact hez
    · exact .inr ⟨r, List.mem_append_left _ hr, hc⟩
  · rcases List.mem_append.mp hr with hr | hr
    · exact h.answers r hr
    · rw [List.mem_singleton.mp hr]
      refine ⟨s.exit q (s.proc q).xstate, h.zombie q hz, rfl, rfl, rfl, ?_⟩
      simpa [Lineage.reap, exit] using hcaller
  · rw [show s'.reaps = s.reaps ++ [s.reap p addr q] from rfl, List.map_append]
    refine h.once.append (List.nodup_singleton _) ?_
    rw [List.map_singleton, List.disjoint_singleton]
    rintro hin
    obtain ⟨r, hr, hc⟩ := List.mem_map.mp hin
    exact h.waiting q hz r hr hc

/-! ## Mothers -/

/-- Why `y` is the parent of `q`: she forked it, or is `init` and its mother has exited, or is
about to. -/
def Kin (s : Lineage) (q y : Slot) : Prop :=
  s.num y = s.mother q ∨ y = s.tasks.initproc ∧
    (s.Exited (s.mother q) ∨ ∃ m, (s.tasks.pc m).orphaning ≠ none ∧ s.num m = s.mother q)

/-- **A parent is the mother, or `init` in her place.** -/
structure Kinship (s : Lineage) : Prop where
  forked : ∀ p np, s.tasks.pc p = .forked np → s.mother np = s.num p
  kin : ∀ q y, (s.proc q).parent = some y → s.Kin q y

/-- A step of one process, with the parent of one slot written. -/
theorem Kinship.update (h : s.Kinship) (hpc : tasks.pc = Function.update s.tasks.pc p pc)
    (hinit : tasks.initproc = s.tasks.initproc)
    (hparent : ∀ r, r ≠ q → (tasks.proc r).parent = (s.proc r).parent)
    (hforked : ∀ np, pc ≠ .forked np)
    (horphaning : (s.tasks.pc p).orphaning = none ∨ pc.orphaning ≠ none)
    (hq : ∀ y, (tasks.proc q).parent = some y → Kin { s with tasks } q y) :
    Kinship { s with tasks } := by
  refine ⟨fun r np hr => ?_, fun r y hr => ?_⟩
  · by_cases hrp : r = p
    · rw [hpc, hrp, Function.update_self] at hr
      exact absurd hr (hforked np)
    · rw [hpc, Function.update_of_ne hrp] at hr
      exact h.forked r np hr
  · by_cases hrq : r = q
    · rw [hrq] at hr ⊢
      exact hq y hr
    · rw [show (proc { s with tasks } r).parent = (s.proc r).parent from hparent r hrq] at hr
      refine (h.kin r y hr).imp_right fun ⟨hy, hm⟩ => ⟨hy.trans hinit.symm, hm.imp_right ?_⟩
      rintro ⟨m, hm, hnum⟩
      refine ⟨m, ?_, hnum⟩
      by_cases hmp : m = p
      · rw [hmp] at hm ⊢
        rw [hpc, Function.update_self]
        exact horphaning.resolve_left hm
      · rw [hpc, Function.update_of_ne hmp]
        exact hm

/-- A mother has her slot as long as she is alive. -/
theorem Kinship.fork (h : s.Kinship) (hcontrol : s.tasks.Control) (hparents : s.tasks.Parents)
    (hp : s.tasks.At p .user) (hnp : (s.proc np).state = .unused) :
    (s.record (s.tasks.kfork p np .done) (.fork p np .done)).Kinship := by
  let s' := s.record (s.tasks.kfork p np .done) (.fork p np .done)
  have hfree : (s.proc np).age = .free := Tasks.age_of_unused hnp
  have hne {y : Slot} (hy : (s.proc y).age = .alive) : y ≠ np := by
    rintro rfl
    cases hfree.symm.trans hy
  have hnum {y : Slot} (hy : (s.proc y).age = .alive) : s'.num y = s.num y :=
    Function.update_of_ne (hne hy) _ _
  have hpc {r : Slot} (hrp : r ≠ p) (hrn : r ≠ np) : s'.tasks.pc r = s.tasks.pc r :=
    (Function.update_of_ne hrp _ _).trans (Function.update_of_ne hrn _ _)
  have hparent (q : Slot) : (s'.proc q).parent = (s.proc q).parent := by
    by_cases hq : q = np
    · rw [hq]
      exact Tasks.parent_kfork
    · exact congrArg Proc.parent (Tasks.proc_kfork_of_ne hq)
  change s'.Kinship
  refine ⟨fun r np' hr => ?_, fun q y hq => ?_⟩
  · by_cases hrp : r = p
    · rw [hrp, show s'.tasks.pc p = .forked np from Function.update_self _ _ _] at hr
      cases hr
      rw [hrp, hnum hp.age]
      exact Function.update_self _ _ _
    · by_cases hrn : r = np
      · have hpc : s'.tasks.pc np = .user :=
          (Function.update_of_ne (hne hp.age).symm _ _).trans (Function.update_self _ _ _)
        rw [hrn, hpc] at hr
        cases hr
      · rw [hpc hrp hrn] at hr
        have hembryo := hcontrol.embryo r np' (by rw [hr]; rfl)
        have hnn : np' ≠ np := by
          rintro rfl
          cases hfree.symm.trans hembryo
        have hmother : s'.mother np' = s.mother np' := Function.update_of_ne hnn _ _
        rw [hmother, hnum (hcontrol.alive r (by rw [hr]; rfl))]
        exact h.forked r np' hr
  · rw [hparent] at hq
    have hqn : q ≠ np := by
      rintro rfl
      cases hq.symm.trans (hparents.parent_of_free hcontrol hfree)
    have hmother : s'.mother q = s.mother q := Function.update_of_ne hqn _ _
    rw [Kin, hmother, hnum (hparents.alive q y hq)]
    refine (h.kin q y hq).imp_right fun ⟨hy, hm⟩ => ⟨hy, hm.imp_right ?_⟩
    rintro ⟨m, hm, hmnum⟩
    have halive : (s.proc m).age = .alive :=
      hcontrol.alive m (Pc.busy_of_holds (Pc.holds_of_orphaning hm))
    have hmp : m ≠ p := by
      rintro rfl
      rw [hp.1] at hm
      exact hm rfl
    refine ⟨m, ?_, (hnum halive).trans hmnum⟩
    rw [hpc hmp (hne halive)]
    exact hm

/-- A mother that exits has handed her children over. -/
theorem Kinship.die (h : s.Kinship) {status : ℤ} {ticks : ℕ} (hp : s.tasks.At p (.dying status)) :
    Kinship { s with
      tasks := (s.tasks.modify p (·.exit status ticks)).release p .dead
      exits := s.exits ++ [s.exit p status] } := by
  let s' : Lineage := { s with
    tasks := (s.tasks.modify p (·.exit status ticks)).release p .dead
    exits := s.exits ++ [s.exit p status] }
  have hself : s'.tasks.pc p = .dead := Function.update_self _ _ _
  have hother {r : Slot} (hr : r ≠ p) : s'.tasks.pc r = s.tasks.pc r := Function.update_of_ne hr _ _
  have hparent (q : Slot) : (s'.proc q).parent = (s.proc q).parent :=
    Tasks.parent_modify (f := (·.exit status ticks)) rfl q
  have hexited : s'.Exited (s.num p) :=
    ⟨s.exit p status, List.mem_append_right _ (List.mem_singleton_self _), rfl⟩
  change s'.Kinship
  refine ⟨fun r np hr => ?_, fun q y hq => ?_⟩
  · have hrp : r ≠ p := by
      rintro rfl
      cases hself.symm.trans hr
    exact h.forked r np ((hother hrp).symm.trans hr)
  · refine (h.kin q y ((hparent q).symm.trans hq)).imp_right fun ⟨hy, hm⟩ => ⟨hy, ?_⟩
    rcases hm with ⟨e, he, hnum⟩ | ⟨m, hm, hnum⟩
    · exact .inl ⟨e, List.mem_append_left _ he, hnum⟩
    · by_cases hmp : m = p
      · rw [hmp] at hnum
        exact .inl (hnum ▸ hexited)
      · refine .inr ⟨m, ?_, hnum⟩
        rw [hother hmp]
        exact hm

theorem Kinship.step (h : s.Kinship) (hcontrol : s.tasks.Control) (hparents : s.tasks.Parents)
    (hgoes : s.Goes s') : s'.Kinship := by
  cases hgoes with
  | @quiet tasks hkeeps hparent hinit hforked horphaning =>
    refine ⟨fun p np hp => h.forked p np (hforked p np hp), fun q y hq => ?_⟩
    have hkin := h.kin q y ((hparent q).symm.trans hq)
    refine hkin.imp_right fun ⟨hy, hm⟩ => ⟨hy.trans hinit.symm, ?_⟩
    exact hm.imp_right fun ⟨m, hm, hnum⟩ => ⟨m, horphaning m hm, hnum⟩
  | fork hp hnp => exact h.fork hcontrol hparents hp hnp
  | @adopt p np hp hlk =>
    refine h.update (q := np) rfl rfl
      (fun r hr => congrArg Proc.parent (Tasks.proc_modify_of_ne hr)) nofun
      (.inl (by rw [hp.1]; rfl)) fun y hy => .inl ?_
    cases (congrArg Proc.parent Tasks.proc_modify_self).symm.trans hy
    exact (h.forked p np hp.1).symm
  | @orphan p status q rest hp hq =>
    refine h.update (q := q) rfl rfl
      (fun r hr => congrArg Proc.parent (Tasks.proc_modify_of_ne hr)) nofun (.inr nofun)
      fun y hy => ?_
    cases (congrArg Proc.parent Tasks.proc_modify_self).symm.trans hy
    rcases h.kin q p hq with hnum | ⟨hpi, -⟩
    · have hpc : Function.update s.tasks.pc p (.wakeInit status rest (List.finRange nproc)) p = _ :=
        Function.update_self _ _ _
      refine .inr ⟨rfl, .inr ⟨p, fun hnone => ?_, hnum⟩⟩
      cases (congrArg Pc.orphaning hpc).symm.trans hnone
    · exact absurd hpi (hcontrol.exits p _ (by rw [hp.1]; rfl))
  | @die p status hp => exact h.die hp
  | @reap p addr q rest havekids hp hq hq' =>
    have hfreed : Kinship { s with
        tasks := (s.tasks.modify q fun x => { x with parent := none }.free).release p .user } := by
      refine h.update (q := q) rfl rfl
        (fun r hr => congrArg Proc.parent (Tasks.proc_modify_of_ne hr)) nofun
        (.inl (by rw [hp.1]; rfl)) fun y hy => ?_
      cases (congrArg Proc.parent Tasks.proc_modify_self).symm.trans hy
    exact ⟨hfreed.forked, hfreed.kin⟩

/-- Who holds `wait_lock` in `kwait` is the mother of its children, or `init`. -/
theorem Kinship.caller (h : s.Kinship) (hledger : s.Ledger) (hcontrol : s.tasks.Control) {addr : ℕ}
    {rest : List Slot} {havekids : Bool} (hp : s.tasks.At p (.scan addr rest havekids))
    (hq : (s.proc q).parent = some p) :
    s.num p = if s.Exited (s.mother q) then 0 else s.mother q := by
  have halive : (s.proc p).age = .alive := hp.age
  rcases h.kin q p hq with hnum | ⟨rfl, hexited | ⟨m, hm, -⟩⟩
  · rw [← hnum, if_neg]
    exact hledger.living p (by rw [halive]; nofun) (by rw [halive]; nofun)
  · rw [if_pos hexited, hledger.init]
  · -- Nobody hands its children over meanwhile.
    have hmp : m = s.tasks.initproc :=
      hcontrol.guarded.eq (a := m) (Pc.holds_of_orphaning hm) (by rw [hp.1]; rfl)
    rw [hmp, hp.1] at hm
    exact absurd rfl hm

theorem Ledger.step (h : s.Ledger) (hkinship : s.Kinship) (hcontrol : s.tasks.Control)
    (hgoes : s.Goes s') : s'.Ledger := by
  cases hgoes with
  | quiet hkeeps _ hinit => exact h.keep hkeeps hinit
  | fork hp hnp => exact h.fork hcontrol hnp
  | @adopt p np hp hlk =>
    refine h.keep (fun r => ?_) rfl
    exact Tasks.proc_modify_rel .refl ⟨.rfl, .rfl, fun _ => rfl, fun _ => rfl⟩ r
  | @orphan p status q rest hp hq =>
    refine h.keep (fun r => ?_) rfl
    exact Tasks.proc_modify_rel .refl ⟨.rfl, .rfl, fun _ => rfl, fun _ => rfl⟩ r
  | die hp => exact h.die hp
  | @reap p addr q rest havekids hp hq hq' =>
    let f (x : Proc) : Proc := { x with parent := none }.free
    have hself : (s.tasks.modify q f).proc q = f (s.proc q) := Tasks.proc_modify_self
    have hother (r : Slot) (hr : r ≠ q) : (s.tasks.modify q f).proc r = s.proc r :=
      Tasks.proc_modify_of_ne hr
    exact h.reap hq' rfl rfl hself hother (hkinship.caller h hcontrol hp hq)

/-! ## Runs -/

/-- **Every exit is accounted for**: its slot is a zombie, or was freed by one call of `kwait`,
which answers it; and while `wait_lock` is free, each zombie has a parent that is there, and does
not sleep in `kwait`. -/
structure Accounted (s : Lineage) : Prop where
  answers : ∀ r ∈ s.reaps, ∃ e ∈ s.exits, r.Answers (s.num s.tasks.initproc) e
  once : (s.reaps.map Reap.child).Nodup
  distinct : (s.exits.map Exit.num).Nodup
  kept : ∀ e ∈ s.exits, ((s.proc e.slot).state = .zombie ∧ s.num e.slot = e.num ∧
    (s.proc e.slot).pid = e.pid ∧ (s.proc e.slot).xstate = e.status) ∨
      ∃ r ∈ s.reaps, r.child = e.num
  parents : s.tasks.waitLock = none → ∀ q, (s.proc q).state = .zombie →
    ∃ y, (s.proc q).parent = some y ∧ (s.proc y).state ≠ .unused ∧ (s.proc y).state ≠ .zombie
  awake : s.tasks.waitLock = none → ∀ p addr, s.tasks.pc p = .slept addr →
    (s.proc p).state = .sleeping → (s.proc p).chan = some (.proc p) →
    ∀ q, (s.proc q).parent = some p → (s.proc q).state ≠ .zombie

/-- What holds all along. -/
structure Sound (s : Lineage) : Prop where
  control : s.tasks.Control
  parents : s.tasks.Parents
  told : s.tasks.Told
  ledger : s.Ledger
  kinship : s.Kinship

theorem Sound.step (h : s.Sound) (hstep : s.step build e = some s') : s'.Sound := by
  have hgoes := goes_of_step h.control hstep
  obtain ⟨tasks, htasks, rfl⟩ := Option.map_eq_some_iff.mp hstep
  have hrecord : (s.record tasks e).tasks = tasks := by
    rw [record.eq_def]
    split
    · rfl
    · rw [recordGo.eq_def]
      split
      · rfl
      · split <;> rfl
      · rfl
    · rfl
  refine ⟨?_, ?_, ?_, h.ledger.step h.kinship h.control hgoes,
    h.kinship.step h.control h.parents hgoes⟩
  all_goals rw [hrecord]
  · exact h.control.step htasks
  · exact h.parents.step h.control htasks
  · exact h.told.step h.control htasks

theorem sound_boot : boot.Sound := by
  have hage {q : Slot} (hq : (boot.proc q).age ≠ .free) : q = 0 := by
    by_contra hne
    rw [show boot.proc q = .zero from Globals.table_boot_of_ne hne] at hq
    exact hq rfl
  have hzombie (q : Slot) : (boot.proc q).age ≠ .zombie := by
    by_cases hq : q = 0
    · rw [hq]
      nofun
    · rw [show boot.proc q = .zero from Globals.table_boot_of_ne hq]
      nofun
  refine ⟨Tasks.control_boot, Tasks.parents_boot, Tasks.told_boot, ?_, nofun, fun q y hq => ?_⟩
  · exact ⟨rfl, fun _ _ => Nat.one_pos, fun q r hq hr _ => (hage hq).trans (hage hr).symm, nofun,
      fun _ _ _ ⟨e, he, _⟩ => (nomatch he), fun q hz => absurd hz (hzombie q),
      fun q hz => absurd hz (hzombie q), List.nodup_nil, nofun, nofun, List.nodup_nil⟩
  · exact .inl rfl

/-- **`kexit` and `kwait` lose no process and free none twice**, in any tree of processes and in any
order of steps. -/
theorem accounted_run {es : List Event} (h : run (step build) boot es = some s) : s.Accounted := by
  have hsound : s.Sound := invariant' (fun s e s' hs => hs.step) sound_boot h
  obtain ⟨hcontrol, hparents, htold, hledger, -⟩ := hsound
  refine ⟨fun r hr => ?_, hledger.once, hledger.distinct, fun e he => ?_, fun hlk q hq => ?_,
    fun hlk p addr hp _ hchan q hq hz => ?_⟩
  · rw [hledger.init]
    exact hledger.answers r hr
  · refine (hledger.kept e he).imp_left fun ⟨hz, hnum⟩ => ?_
    have heq : s.exit e.slot (s.proc e.slot).xstate = e :=
      List.inj_on_of_nodup_map hledger.distinct (hledger.zombie e.slot hz) he hnum
    refine ⟨Tasks.state_of_age_zombie hz, hnum, ?_, ?_⟩
    · exact congrArg Exit.pid heq
    · exact congrArg Exit.status heq
  · have hz : (s.proc q).age = .zombie := Tasks.age_of_zombie hq
    have hinit : q ≠ s.tasks.initproc := by
      rintro rfl
      cases hz.symm.trans hcontrol.init
    obtain ⟨y, hy⟩ := Option.ne_none_iff_exists'.mp (hparents.grown q (.inr hz) hinit)
    have halive : (s.proc y).age = .alive := hparents.alive q y hy
    refine ⟨y, hy, fun hu => ?_, fun hz => ?_⟩
    · cases halive.symm.trans (Tasks.age_of_unused hu)
    · cases halive.symm.trans (Tasks.age_of_zombie hz)
  · have hlistens : s.tasks.Listens p := ⟨by rw [hp]; rfl, hchan⟩
    exact htold.not_zombie_of_free hcontrol hlk hlistens hq (Tasks.age_of_zombie hz)

/-- `init` forks, its child forks, and both exit, the grandchild first; `init` frees its child and
then the orphan, whose status it has copied out. -/
def orphaned : List Event :=
  [.dispatch 0, .fork 0 1 .done, .go 0, .go 0, .dispatch 1, .fork 1 2 .done, .go 1, .go 1,
    .dispatch 2, .exit 2 7] ++ List.replicate 131 (Event.go 2) ++ [Event.exit 1 0] ++
  List.replicate 196 (Event.go 1) ++ [Event.wait 0 0, Event.go 0, Event.go 0, Event.wait 0 4096,
    Event.go 0, Event.go 0, Event.go 0]

theorem accounted_run_orphaned : ∃ s : Lineage, run (step .rr) boot orphaned = some s ∧
    s.reaps = [⟨0, 1, 0, 2, none, false⟩, ⟨0, 2, 4096, 3, some 7, true⟩] ∧ s.Accounted := by
  have hs := Option.eq_some_of_isSome
    (show (run (step .rr) boot orphaned).isSome by decide +kernel)
  exact ⟨_, hs, by decide +kernel, accounted_run hs⟩

end Lineage

end MiniProject.Kernel
