import MiniProject.Kernel.Tasks

/-!
# Kernel/Marks — whom `kkill` marks

`kkill` looks for a pid in all slots, also in those that are free, whose pid is 0, and marks the
first; `freeproc` takes the mark away, `allocproc` does not.  A kill of pid 0 hits a free slot, and
the next process there starts killed; nothing else marks a process that nobody named
(`marked_iff`).
-/

namespace MiniProject.Kernel

open Tasks (Event Does)

/-! ## The loop of `kkill` -/

namespace Table

/-- `kkill`, whose loop comes to the slots `rest`: what it returns, the process that it writes to,
and the table. -/
def kkill (t : Table) (pid : ℤ) : List Slot → ℤ × Option Slot × Table
  | [] => (-1, none, t)
  | p :: rest => if (t p).pid = pid then (0, some p, t.modify p Proc.kill) else t.kkill pid rest

/-- **What `kkill(pid)` is for**: it returns 0 if there is a process with that pid, and marks it and
no other; else it changes nothing. -/
structure KillsRight (t : Table) (pid : ℤ) : Prop where
  returns : (t.kkill pid (List.finRange nproc)).1 = 0 ↔
    ∃ q, (t q).state ≠ .unused ∧ (t q).pid = pid
  hits : (t.kkill pid (List.finRange nproc)).1 = 0 → ∃ q, (t q).state ≠ .unused ∧ (t q).pid = pid ∧
    (t.kkill pid (List.finRange nproc)).2 = (some q, t.modify q Proc.kill)
  misses : (t.kkill pid (List.finRange nproc)).1 ≠ 0 →
    (t.kkill pid (List.finRange nproc)) = (-1, none, t)

variable {t : Table} {pid : ℤ}

/-- **`kkill` marks the first slot with the pid.** -/
theorem kkill_eq (rest : List Slot) : t.kkill pid rest =
    match rest.find? fun q => (t q).pid = pid with
    | some q => (0, some q, t.modify q Proc.kill)
    | none => (-1, none, t) := by
  induction rest with
  | nil => rfl
  | cons q rest ih =>
    rw [kkill, List.find?_cons]
    by_cases hq : (t q).pid = pid
    · rw [if_pos hq, decide_eq_true hq]
    · rw [if_neg hq, decide_eq_false hq, ih]

/-- …which is right unless it is free. -/
theorem killsRight_iff : t.KillsRight pid ↔
    ∀ q, (List.finRange nproc).find? (fun q => (t q).pid = pid) = some q →
      (t q).state ≠ .unused := by
  constructor
  · intro h q hq
    have hkkill : t.kkill pid (List.finRange nproc) = _ := kkill_eq _
    rw [hq] at hkkill
    obtain ⟨q', hlive, -, hhit⟩ := h.hits (by rw [hkkill])
    rw [hkkill] at hhit
    cases hhit
    exact hlive
  · intro h
    have hkkill : t.kkill pid (List.finRange nproc) = _ := kkill_eq _
    cases hfind : (List.finRange nproc).find? fun q => (t q).pid = pid with
    | some q =>
      rw [hfind] at hkkill
      have hpid : (t q).pid = pid := by simpa using List.find?_some hfind
      have hlive := h q hfind
      refine ⟨iff_of_true (by rw [hkkill]) ⟨q, hlive, hpid⟩, fun _ => ⟨q, hlive, hpid, ?_⟩,
        fun hne => ?_⟩
      · rw [hkkill]
      · rw [hkkill] at hne
        exact absurd rfl hne
    | none =>
      rw [hfind] at hkkill
      have hnone (q : Slot) : (t q).pid ≠ pid := by
        simpa using List.find?_eq_none.mp hfind q (List.mem_finRange q)
      refine ⟨iff_of_false ?_ ?_, fun hzero => ?_, fun _ => hkkill⟩
      · rw [hkkill]
        nofun
      · rintro ⟨q, -, hq⟩
        exact hnone q hq
      · rw [hkkill] at hzero
        cases hzero

end Table

/-- **What a process does in `kkill`**, if nothing comes between, is the loop. -/
theorem Tasks.run_kkill {build : Build} {t : Tasks} {p : Slot} {pid : ℤ} {rest : List Slot}
    (hp : t.At p (.killing pid rest)) :
    ∃ n t', run (Tasks.step build) t (List.replicate n (.go p)) = some t' ∧ t'.pc p = .user ∧
      t'.globals.table = (t.globals.table.kkill pid rest).2.2 := by
  have hstep : t.step build (.go p) = t.go build p (.killing pid rest) := by
    rw [Tasks.step, if_pos hp.2, hp.1]
  induction rest generalizing t with
  | nil =>
    refine ⟨1, t.setPc p .user, ?_, Function.update_self _ _ _, rfl⟩
    rw [List.replicate_one, run, hstep]
    rfl
  | cons q rest ih =>
    rw [Tasks.go] at hstep
    rw [Table.kkill]
    split at hstep
    · rename_i hq
      refine ⟨1, (t.modify q Proc.kill).setPc p .user, ?_, Function.update_self _ _ _, ?_⟩
      · rw [List.replicate_one, run, hstep]
        rfl
      · rw [if_pos (show (t.globals.table q).pid = pid from hq)]
        rfl
    · rename_i hq
      have hat : (t.setPc p (.killing pid rest)).At p (.killing pid rest) :=
        ⟨Function.update_self _ _ _, hp.2⟩
      obtain ⟨n, t', hrun, hpc, htable⟩ := ih hat (by rw [Tasks.step, if_pos hat.2, hat.1])
      refine ⟨n + 1, t', run_cons_eq_some.mpr ⟨_, hstep, hrun⟩, hpc, ?_⟩
      rw [if_neg (show (t.globals.table q).pid ≠ pid from hq)]
      exact htable

/-! ## The history -/

/-- The machine with its history: whether `kkill` has named the process in a slot, or `setkilled`
was called on it, since it was allocated; whether `kkill` has hit the slot while it was free; and
`killed` of the process that `allocproc` last returned there. -/
structure Marks where
  tasks : Tasks
  named : Slot → Bool
  stale : Slot → Bool
  start : Slot → Bool

namespace Marks

/-- `userinit` is done. -/
def boot : Marks := ⟨.boot, fun _ => false, fun _ => false, fun _ => false⟩

section Step

variable (build : Build) (s : Marks)

/-- The process in a slot. -/
def proc (q : Slot) : Proc := s.tasks.proc q

/-- What `kfork` adds to the history. -/
def recordFork (tasks : Tasks) (np : Slot) : Forking → Marks
  | .noProc => { s with tasks, stale := Function.update s.stale np false }
  | .noCopy =>
    { s with
      tasks, stale := Function.update s.stale np false
      start := Function.update s.start np ((s.tasks.globals.allocproc np true).table np).killed }
  | .done =>
    { s with
      tasks, named := Function.update s.named np false
      start := Function.update s.start np ((s.tasks.globals.allocproc np true).table np).killed }

/-- What the code at a program counter adds to the history. -/
def recordGo (tasks : Tasks) (p : Slot) : Pc → Marks
  | .killing pid (q :: _) =>
    if (s.proc q).pid = pid then
      if (s.proc q).state = .unused then
        { s with tasks, stale := Function.update s.stale q true }
      else { s with tasks, named := Function.update s.named q true }
    else { s with tasks }
  | .scan _ (q :: _) _ =>
    if (s.proc q).parent = some p ∧ (s.proc q).state = .zombie then
      { s with tasks, stale := Function.update s.stale q false }
    else { s with tasks }
  | _ => { s with tasks }

/-- What a step adds to the history. -/
def record (tasks : Tasks) : Event → Marks
  | .fork _ np how => s.recordFork tasks np how
  | .go p => s.recordGo tasks p (s.tasks.pc p)
  | .setkilled p => { s with tasks, named := Function.update s.named p true }
  | _ => { s with tasks }

/-- A step. -/
def step (e : Event) : Option Marks := (s.tasks.step build e).map (s.record · e)

/-- No slot is allocated that `kkill` has hit while it was free. -/
def Fresh : Event → Prop
  | .fork _ np how => how = .noProc ∨ s.stale np = false
  | _ => True

instance : DecidablePred s.Fresh
  | .fork _ _ _ => inferInstanceAs (Decidable (_ ∨ _))
  | .exit _ _ | .wait _ _ | .kill _ _ | .go _ | .fault _ | .setkilled _ | .prepare _ _
  | .sleep _ | .dispatch _ | .yield _ | .wake _ _ | .clock => isTrue trivial

end Step

/-- Process `q` started unmarked, and is marked only by its name. -/
structure Rightly (s : Marks) (q : Slot) : Prop where
  start : s.start q = false
  named : (s.proc q).state ≠ .unused → (s.proc q).killed = true → s.named q = true

/-! ## What a step is for one slot -/

/-- What takes no slot, frees none, and marks none. -/
structure Same (x y : Proc) : Prop where
  state : y.state = .unused ↔ x.state = .unused
  killed : y.killed = x.killed
  pid : y.pid = x.pid

theorem Same.refl (x : Proc) : Same x x := ⟨.rfl, rfl, rfl⟩

theorem Same.of_eq {x y : Proc} (h : y = x) : Same x y := h ▸ .refl x

/-- **What a step is for slot `q`.** -/
inductive Feels (s : Marks) (e : Event) (s' : Marks) (q : Slot) : Prop
  | same (hproc : Same (s.proc q) (s'.proc q)) (hnamed : s'.named q = s.named q)
    (hstale : s'.stale q = s.stale q) (hstart : s'.start q = s.start q)
  | mark (hstate : (s.proc q).state ≠ .unused) (hstate' : (s'.proc q).state ≠ .unused)
    (hnamed : s'.named q = true) (hstart : s'.start q = s.start q)
  | hit (hstate : (s.proc q).state = .unused) (hproc : s'.proc q = { s.proc q with killed := true })
    (hstale : s'.stale q = true) (hstart : s'.start q = s.start q)
  | free {x} (hproc : s'.proc q = Proc.free x) (hstale : s'.stale q = false)
    (hstart : s'.start q = s.start q)
  | alloc {p} (he : e = .fork p q .done) (hold : (s.proc q).state = .unused)
    (hstate : (s'.proc q).state ≠ .unused) (hkilled : (s'.proc q).killed = (s.proc q).killed)
    (hnamed : s'.named q = false) (hstart : s'.start q = (s.proc q).killed)
  | undo {p x} (he : e = .fork p q .noCopy) (hold : (s.proc q).state = .unused)
    (hproc : s'.proc q = Proc.free x) (hstale : s'.stale q = false)
    (hstart : s'.start q = (s.proc q).killed)

variable {build : Build} {s s' : Marks} {tasks : Tasks} {e : Event} {p q r np : Slot} {pc : Pc}

/-- A step that writes to slot `q`. -/
theorem Feels.modify (hself : s.Feels e s' q) (hproc : ∀ r, r ≠ q → s'.proc r = s.proc r)
    (hnamed : ∀ r, r ≠ q → s'.named r = s.named r) (hstale : ∀ r, r ≠ q → s'.stale r = s.stale r)
    (hstart : ∀ r, r ≠ q → s'.start r = s.start r) : s.Feels e s' r := by
  by_cases hr : r = q
  · rw [hr]
    exact hself
  · exact .same (.of_eq (hproc r hr)) (hnamed r hr) (hstale r hr) (hstart r hr)

/-- …and adds nothing to the history. -/
theorem Feels.still (hproc : ∀ r, Same (s.proc r) (tasks.proc r)) :
    s.Feels e { s with tasks } r := .same (hproc r) rfl rfl rfl

theorem same_wake (x : Proc) (chan : Chan) : Same x (x.wake chan) := by
  rw [Proc.wake]
  split
  · refine ⟨?_, rfl, rfl⟩
    dsimp only
    split
    · rename_i hs
      rw [hs]
      exact iff_of_false (by simp) (by simp)
    · exact .rfl
  · exact .refl x

theorem state_kill (x : Proc) : x.kill.state = .unused ↔ x.state = .unused := by
  rw [Proc.kill]
  dsimp only
  split
  · rename_i hs
    rw [hs]
    exact iff_of_false (by simp) (by simp)
  · exact .rfl

theorem same_modify {f : Proc → Proc} (hf : Same (s.proc q) (f (s.proc q))) (r : Slot) :
    Same (s.proc r) ((s.tasks.modify q f).proc r) := Tasks.proc_modify_rel .refl hf r

/-- A process that runs keeps its slot. -/
theorem same_of_running {f : Proc → Proc} (hq : (s.proc q).state = .running)
    (hf : (f (s.proc q)).state ≠ .unused) (hkilled : (f (s.proc q)).killed = (s.proc q).killed)
    (hpid : (f (s.proc q)).pid = (s.proc q).pid) (r : Slot) :
    Same (s.proc r) ((s.tasks.modify q f).proc r) := by
  refine same_modify ⟨iff_of_false hf ?_, hkilled, hpid⟩ r
  rw [hq]
  nofun

/-- What others do, and the clock. -/
theorem feels_of_calm (he : e.calm) (h : s.tasks.step build e = some tasks) :
    s.Feels e (s.record tasks e) r := by
  cases e with
  | setkilled p =>
    obtain ⟨hp, h⟩ := Option.ite_none_right_eq_some.mp h
    cases h
    refine .modify (.mark (q := p) ?_ ?_ (Function.update_self _ _ _) rfl)
      (fun r => Tasks.proc_modify_of_ne) (fun r hr => Function.update_of_ne hr _ _) (fun _ _ => rfl)
      fun _ _ => rfl
    · rw [show (s.proc p).state = .running from hp.2]
      nofun
    · intro hu
      cases hp.2.symm.trans ((congrArg Proc.state Tasks.proc_modify_self).symm.trans hu)
  | dispatch p =>
    obtain ⟨hp, h⟩ := Option.ite_none_right_eq_some.mp h
    cases h
    refine .still (same_modify (q := p) ⟨iff_of_false (fun hs => ?_) (fun hs => ?_), rfl, rfl⟩)
    · cases hs
    · cases hp.symm.trans hs
  | yield p =>
    obtain ⟨⟨hp, -⟩, h⟩ := Option.ite_none_right_eq_some.mp h
    cases h
    exact .still (same_of_running (f := ({ · with state := .runnable })) hp nofun rfl rfl)
  | wake chan q =>
    cases h
    exact .still (same_modify (same_wake _ chan))
  | _ => cases he

theorem killed_allocproc (np : Slot) :
    ((s.tasks.globals.allocproc np true).table np).killed = (s.proc np).killed := by
  rw [Globals.table_allocproc_self]
  rfl

/-- A slot is taken, and its mark with it. -/
theorem feels_fork (hnp : (s.proc np).state = .unused) :
    s.Feels (.fork p np .done) (s.record (s.tasks.kfork p np .done) (.fork p np .done)) r := by
  have hself := @Tasks.proc_kfork_self s.tasks p np .done
  have hkilled : ((s.tasks.kfork p np .done).proc np).killed = (s.proc np).killed := by
    rw [hself]
    rfl
  refine .modify (.alloc (q := np) rfl hnp (fun hu => ?_) hkilled (Function.update_self _ _ _) ?_)
    (fun r => Tasks.proc_kfork_of_ne) (fun r hr => Function.update_of_ne hr _ _) (fun _ _ => rfl)
    fun r hr => Function.update_of_ne hr _ _
  · cases (congrArg Proc.state hself).symm.trans hu
  · exact (Function.update_self _ _ _).trans (killed_allocproc np)

/-- …or given back at once. -/
theorem feels_forkFailed {how : Forking} (hnp : (s.proc np).state = .unused) (hhow : how ≠ .done) :
    s.Feels (.fork p np how) (s.record (s.tasks.kfork p np how) (.fork p np how)) r := by
  have hself := @Tasks.proc_kfork_self s.tasks p np how
  cases how with
  | done => exact absurd rfl hhow
  | noProc =>
    exact .modify (.free (q := np) hself (Function.update_self _ _ _) rfl)
      (fun r => Tasks.proc_kfork_of_ne) (fun _ _ => rfl) (fun r hr => Function.update_of_ne hr _ _)
      fun _ _ => rfl
  | noCopy =>
    refine .modify (.undo (q := np) rfl hnp hself (Function.update_self _ _ _) ?_)
      (fun r => Tasks.proc_kfork_of_ne) (fun _ _ => rfl) (fun r hr => Function.update_of_ne hr _ _)
      fun r hr => Function.update_of_ne hr _ _
    exact (Function.update_self _ _ _).trans (killed_allocproc np)

/-- `kkill` finds the pid, of a process or of a slot that is free. -/
theorem feels_hit {pid : ℤ} {rest : List Slot} (hq : (s.proc q).pid = pid) :
    s.Feels e (s.recordGo ((s.tasks.modify q Proc.kill).setPc p .user) p
      (.killing pid (q :: rest))) r := by
  rw [recordGo, if_pos hq]
  split
  · rename_i hunused
    refine .modify (.hit (q := q) hunused ?_ (Function.update_self _ _ _) rfl)
      (fun r => Tasks.proc_modify_of_ne) (fun _ _ => rfl) (fun r hr => Function.update_of_ne hr _ _)
      fun _ _ => rfl
    have hawake : (s.tasks.proc q).state ≠ .sleeping := by
      rw [show (s.tasks.proc q).state = _ from hunused]
      simp
    refine Tasks.proc_modify_self.trans ?_
    rw [Proc.kill, if_neg hawake]
    rfl
  · rename_i hlive
    refine .modify (.mark (q := q) hlive ?_ (Function.update_self _ _ _) rfl)
      (fun r => Tasks.proc_modify_of_ne) (fun r hr => Function.update_of_ne hr _ _) (fun _ _ => rfl)
      fun _ _ => rfl
    refine fun hu => hlive ((state_kill (s.proc q)).mp ?_)
    exact (congrArg Proc.state Tasks.proc_modify_self).symm.trans hu

/-- **Every step is one of these, for each slot.** -/
theorem feels_of_step (hcontrol : s.tasks.Control) (h : s.step build e = some s') (r : Slot) :
    s.Feels e s' r := by
  obtain ⟨tasks, htasks, rfl⟩ := Option.map_eq_some_iff.mp h
  have hgo {p : Slot} {pc : Pc} (hp : s.tasks.At p pc)
      (h : s.Feels (.go p) (s.recordGo tasks p pc) r) :
      s.Feels (.go p) (s.record tasks (.go p)) r := by
    rw [record, hp.1]
    exact h
  have hrefl (r : Slot) : Same (s.proc r) (s.proc r) := .refl _
  cases Tasks.does_of_step htasks with
  | calm he => exact feels_of_calm he htasks
  | clock => exact .still hrefl
  | forkFailed hp hnp hhow => exact feels_forkFailed hnp hhow
  | fork hp hnp => exact feels_fork hnp
  | @adopt p np hp hlk => exact hgo hp (.still (same_modify (q := np) ⟨.rfl, rfl, rfl⟩))
  | @ready p np hp =>
    have hembryo := hcontrol.embryo p np (by rw [hp.1]; rfl)
    refine hgo hp (.still (same_modify (q := np) ⟨iff_of_false nofun fun hu => ?_, rfl, rfl⟩))
    cases (Tasks.age_of_unused hu).symm.trans hembryo
  | exit hp | wait hp | fault hp | kill hp => exact .still hrefl
  | @orphan p status q rest hp hq => exact hgo hp (.still (same_modify (q := q) ⟨.rfl, rfl, rfl⟩))
  | pass hp | reparented hp | fatherless hp | wokeInit hp | wokeParent hp | rescan hp
  | killFailed hp | fail hp | again hp | unlock hp | awake hp => exact hgo hp (.still hrefl)
  | wakeInit hp | wakeParent hp => exact hgo hp (.still (same_modify (same_wake _ _)))
  | die hp =>
    exact hgo hp (.still (same_of_running (f := (·.exit _ _)) hp.2 (fun hu => nomatch hu) rfl rfl))
  | skip hp hq =>
    refine hgo hp ?_
    rw [recordGo, if_neg fun hcond => hq hcond.1]
    exact .still hrefl
  | look hp hq hq' =>
    refine hgo hp ?_
    rw [recordGo, if_neg fun hcond => hq' hcond.2]
    exact .still hrefl
  | @reap p addr q rest havekids hp hq hq' =>
    refine hgo hp ?_
    rw [recordGo, if_pos ⟨hq, hq'⟩]
    exact .modify (.free (q := q) Tasks.proc_modify_self (Function.update_self _ _ _) rfl)
      (fun r => Tasks.proc_modify_of_ne) (fun _ _ => rfl) (fun r hr => Function.update_of_ne hr _ _)
      fun _ _ => rfl
  | @prepare p addr hp => exact hgo hp (.still (same_modify (q := p) ⟨.rfl, rfl, rfl⟩))
  | sleep hp hp' =>
    have hsame := same_of_running (f := (·.sleep build)) hp.2 (fun hu => nomatch hu) rfl rfl
    exact hgo hp (.still hsame)
  | hit hp hq => exact hgo hp (feels_hit hq)
  | @miss p pid q rest hp hq =>
    refine hgo hp ?_
    rw [recordGo, if_neg (show (s.proc q).pid ≠ pid from hq)]
    exact .still hrefl
  | @prepareOther p chan hp hchan => exact .still (same_modify (q := p) ⟨.rfl, rfl, rfl⟩)
  | awakeOther hp => exact .still hrefl
  | sleepOther hp =>
    exact .still (same_of_running (f := (·.sleep build)) hp.2 (fun hu => nomatch hu) rfl rfl)

/-! ## Runs -/

/-- The pid of a slot that is free is 0. -/
theorem pid_step (hfeels : s.Feels e s' q) (h : (s.proc q).state = .unused → (s.proc q).pid = 0)
    (hstate : (s'.proc q).state = .unused) : (s'.proc q).pid = 0 := by
  cases hfeels with
  | same hproc =>
    rw [hproc.pid]
    exact h (hproc.state.mp hstate)
  | mark _ hstate' | alloc _ _ hstate' => exact absurd hstate hstate'
  | hit hold hproc =>
    rw [hproc]
    exact h hold
  | free hproc | undo _ _ hproc =>
    rw [hproc]
    rfl

/-- **A free slot is marked if `kkill` hit it**, and a process only by its name. -/
structure Held (s : Marks) (q : Slot) : Prop where
  stale : (s.proc q).state = .unused → (s.proc q).killed = s.stale q
  rightly : s.Rightly q

theorem Held.step (h : s.Held q) (hfeels : s.Feels e s' q) (hfresh : s.Fresh e) : s'.Held q := by
  cases hfeels with
  | same hproc hnamed hstale hstart =>
    refine ⟨fun hu => ?_, hstart.trans h.rightly.start, fun hu hk => ?_⟩
    · rw [hproc.killed, hstale]
      exact h.stale (hproc.state.mp hu)
    · rw [hnamed]
      exact h.rightly.named (fun hold => hu (hproc.state.mpr hold)) (hproc.killed.symm.trans hk)
  | mark _ hstate' hnamed hstart =>
    exact ⟨fun hu => absurd hu hstate', hstart.trans h.rightly.start, fun _ _ => hnamed⟩
  | hit hstate hproc hstale hstart =>
    refine ⟨fun _ => ?_, hstart.trans h.rightly.start, fun hu => absurd ?_ hu⟩
    · rw [hproc, hstale]
    · rw [hproc]
      exact hstate
  | free hproc hstale hstart =>
    refine ⟨fun _ => ?_, hstart.trans h.rightly.start, fun hu => absurd ?_ hu⟩
    · rw [hproc, hstale]
      rfl
    · rw [hproc]
      rfl
  | alloc he hold hstate hkilled hnamed hstart =>
    subst he
    have hnot : (s.proc q).killed = false := (h.stale hold).trans (hfresh.resolve_left nofun)
    refine ⟨fun hu => absurd hu hstate, hstart.trans hnot, fun _ hk => ?_⟩
    cases hnot.symm.trans (hkilled.symm.trans hk)
  | undo he hold hproc hstale hstart =>
    subst he
    have hnot : (s.proc q).killed = false := (h.stale hold).trans (hfresh.resolve_left nofun)
    refine ⟨fun _ => ?_, hstart.trans hnot, fun hu => absurd ?_ hu⟩
    · rw [hproc, hstale]
      rfl
    · rw [hproc]
      rfl

/-- What holds as long as every slot is fresh. -/
structure Sound (s : Marks) : Prop where
  control : s.tasks.Control
  held : ∀ q, s.Held q

theorem tasks_record : (s.record tasks e).tasks = tasks := by
  rw [record.eq_def]
  split
  · rw [recordFork.eq_def]
    split <;> rfl
  · rw [recordGo.eq_def]
    split
    · split
      · split <;> rfl
      · rfl
    · split <;> rfl
    · rfl
  · rfl
  · rfl

theorem control_step (h : s.tasks.Control) (hstep : s.step build e = some s') :
    s'.tasks.Control := by
  obtain ⟨tasks, htasks, rfl⟩ := Option.map_eq_some_iff.mp hstep
  rw [tasks_record]
  exact h.step htasks

theorem Sound.step (h : s.Sound) (hfresh : s.Fresh e) (hstep : s.step build e = some s') :
    s'.Sound :=
  ⟨control_step h.control hstep,
    fun q => (h.held q).step (feels_of_step h.control hstep q) hfresh⟩

/-- **A slot that `kkill` has hit** makes a process that starts killed. -/
theorem Sound.fresh (h : s.Sound) (hstep : s.step build e = some s')
    (hrightly : ∀ q, s'.Rightly q) : s.Fresh e := by
  cases e with
  | fork p np how =>
    by_contra hnot
    obtain ⟨hhow, hstale⟩ := not_or.mp hnot
    obtain ⟨tasks, htasks, rfl⟩ := Option.map_eq_some_iff.mp hstep
    obtain ⟨⟨-, hnp⟩, -⟩ := Option.ite_none_right_eq_some.mp htasks
    have hkilled : ((s.tasks.globals.allocproc np true).table np).killed = true := by
      rw [killed_allocproc]
      exact ((h.held np).stale hnp).trans (by simpa using hstale)
    have hstart : (s.recordFork tasks np how).start np = true := by
      cases how with
      | noProc => exact absurd rfl hhow
      | noCopy | done => exact (Function.update_self _ _ _).trans hkilled
    cases (hrightly np).start.symm.trans hstart
  | _ => trivial

theorem sound_boot : boot.Sound := by
  refine ⟨Tasks.control_boot, fun q => ?_⟩
  by_cases hq : q = 0
  · rw [hq]
    exact ⟨fun _ => rfl, rfl, fun _ hk => (nomatch hk)⟩
  · have hproc : boot.proc q = .zero := Globals.table_boot_of_ne hq
    refine ⟨fun _ => ?_, rfl, fun hu => absurd ?_ hu⟩
    · rw [hproc]
      rfl
    · rw [hproc]
      rfl

/-- **When `kkill` marks the right process**: for every pid but 0, and for 0 unless the first slot
with that pid is free; a process is marked by its name alone exactly when no slot is allocated that
`kkill` has hit while it was free. -/
theorem marked_iff {es : List Event} (h : run (step build) boot es = some s) :
    (∀ pid, s.tasks.globals.table.KillsRight pid ↔ (pid = 0 → ∀ q,
      (List.finRange nproc).find? (fun q => (s.proc q).pid = 0) = some q →
        (s.proc q).state ≠ .unused)) ∧
    (Always (step build) (fun s => ∀ q, s.Rightly q) boot es ↔
      Along (step build) Fresh boot es) := by
  have hpid : s.tasks.Control ∧ ∀ q, (s.proc q).state = .unused → (s.proc q).pid = 0 := by
    refine invariant' (I := fun s => s.tasks.Control ∧
      ∀ q, (s.proc q).state = .unused → (s.proc q).pid = 0) (fun s e s' hs hstep =>
      ⟨control_step hs.1 hstep, fun q => pid_step (feels_of_step hs.1 hstep q) (hs.2 q)⟩) ?_ h
    refine ⟨Tasks.control_boot, fun q hu => ?_⟩
    by_cases hq : q = 0
    · rw [hq] at hu
      cases hu
    · rw [show boot.proc q = .zero from Globals.table_boot_of_ne hq]
      rfl
  refine ⟨fun pid => ?_, ?_⟩
  · rw [Table.killsRight_iff]
    constructor
    · rintro hall rfl
      exact hall
    · intro hall q hq hu
      have hqpid : (s.tasks.globals.table q).pid = pid := by simpa using List.find?_some hq
      have hzero : pid = 0 := hqpid.symm.trans (hpid.2 q hu)
      subst hzero
      exact hall rfl q hq hu
  · exact always_iff (J := Sound) (fun s hs q => (hs.held q).rightly)
      (fun s e s' hs hfresh hstep => hs.step hfresh hstep)
      (fun s e s' hs hstep hrightly => hs.fresh hstep hrightly) sound_boot h

/-- `init` forks, and kills its child. -/
def killChild : List Event :=
  [.dispatch 0, .fork 0 1 .done, .go 0, .go 0, .kill 0 2, .go 0, .go 0]

theorem marked_iff_killChild : ∃ s : Marks, run (step .rr) boot killChild = some s ∧
    s.tasks.globals.table.KillsRight 2 ∧
      Always (step .rr) (fun s => ∀ q, s.Rightly q) boot killChild := by
  have hs := Option.eq_some_of_isSome
    (show (run (step .rr) boot killChild).isSome by decide +kernel)
  have hmarked := marked_iff hs
  exact ⟨_, hs, (hmarked.1 2).mpr nofun, hmarked.2.mpr (by decide +kernel)⟩

/-- `init` kills pid 0, and forks. -/
def killZero : List Event := [.dispatch 0, .kill 0 0, .go 0, .go 0, .fork 0 1 .done]

theorem not_marked : ¬ ∀ es s, run (step .rr) boot es = some s →
    (∀ pid, s.tasks.globals.table.KillsRight pid) ∧
      Always (step .rr) (fun s => ∀ q, s.Rightly q) boot es := by
  intro h
  have hs := Option.eq_some_of_isSome
    (show (run (step .rr) boot killZero).isSome by decide +kernel)
  have hrightly := (h killZero _ hs).2 killZero List.prefix_rfl _ hs 1
  cases hrightly.start.symm.trans (show _ = true by decide +kernel)

end Marks

end MiniProject.Kernel
