import MiniProject.Machinery.Outcome
import MiniProject.Machinery.SwapRemove
import MiniProject.Shell.Segments

/-!
# Shell/Jobs — the job table

`register_job` takes the next slot of a fixed array, and no slot is ever given back: a job that ends
is only marked inactive.  `reap_finished` takes the pids of its children out of the table, and it
looks at active slots only.

A `JobTable` carries its bounds, so a registration past the end of `jobs` or of `pids` has no table
to return (`Overrun`).
-/

namespace MiniProject.Shell

/-- `maxjobs` of `shell.h`. -/
def maxjobs : ℕ := 256

/-- `maxjob_process` of `shell.h`. -/
def maxjobProcess : ℕ := 16

/-- `max_pending` of `jobs.c`. -/
def maxPending : ℕ := 64

/-- A `pid_t` of a process or a group. -/
abbrev Pid := ℕ

/-- An entry of `pids` and of `names`. -/
structure Proc where
  pid : Pid
  name : Text
  deriving DecidableEq, Repr

/-- `jobstate`. -/
inductive JobState
  | running | stopped
  deriving DecidableEq, Repr

/-- `jobb`; `procs` is `pids[0..nproc)` with its names. -/
structure Job where
  number : ℕ
  pgid : Pid
  procs : List Proc
  command : Text
  state : JobState
  background : Bool
  active : Bool
  fits : procs.length ≤ maxjobProcess

namespace Job

/-- `pids[0..nproc)`. -/
def pids (j : Job) : List Pid := j.procs.map Proc.pid

/-- `remove_pid_from_job`, from its loop on: the last process takes the place of `pid`, and the job
ends with its last process. -/
def dropPid (pid : Pid) (j : Job) : Job :=
  { j with
    procs := swapErase (fun x => x.pid = pid) j.procs
    active := if (swapErase (fun x => x.pid = pid) j.procs).length = 0 then false else j.active
    fits := Nat.le_trans (length_swapErase_le _ _) j.fits }

theorem number_dropPid (pid : Pid) (j : Job) : (j.dropPid pid).number = j.number := rfl

end Job

/-- The globals of `jobs.c`, and the lines written: `jobs` up to `job_count`, all numbered below
`next_job`. -/
structure JobTable where
  jobs : List Job
  nextJob : ℕ
  fgRunning : Bool
  pending : List Text
  out : List Text
  room : jobs.length ≤ maxjobs
  numbered : ∀ j ∈ jobs, j.number < nextJob

/-- There is no job when the shell starts. -/
theorem numbered_nil : ∀ j ∈ ([] : List Job), j.number < 1 := nofun

namespace JobTable

variable (t : JobTable)

/-- Writing to slot `k`, its number apart. -/
def modify (k : ℕ) (f : Job → Job) (hf : ∀ j, (f j).number = j.number) : JobTable where
  jobs := t.jobs.modify k f
  nextJob := t.nextJob
  fgRunning := t.fgRunning
  pending := t.pending
  out := t.out
  room := by
    rw [List.length_modify]
    exact t.room
  numbered j hj := by
    obtain ⟨i, hi⟩ := List.mem_iff_getElem?.mp hj
    rw [List.getElem?_modify] at hi
    obtain ⟨j', hj', rfl⟩ := Option.map_eq_some_iff.mp hi
    have hlt := t.numbered j' (List.mem_of_getElem? hj')
    split
    · rw [hf]
      exact hlt
    · exact hlt

/-- `printf` of a line. -/
def print (line : Text) : JobTable := { t with out := t.out ++ [line] }

/-! ## `register_job` -/

/-- `register_job` up to its last line but two: the slot is taken and filled, and not active yet. -/
def fillSlot (pgid : Pid) (pids : List Pid) (names : List Text) (command : Text)
    (background : Bool) : Except Overrun JobTable :=
  if hroom : t.jobs.length < maxjobs then
    if hfits : (List.zipWith Proc.mk pids (names.map (·.take 255))).length ≤ maxjobProcess then
      .ok { t with
        jobs := t.jobs ++ [⟨t.nextJob, pgid, List.zipWith Proc.mk pids (names.map (·.take 255)),
          command.take 511, .running, background, false, hfits⟩]
        nextJob := t.nextJob + 1
        room := by
          rw [List.length_append, List.length_singleton]
          exact hroom
        numbered := fun j hj => by
          rcases List.mem_append.mp hj with hj | hj
          · exact Nat.lt_succ_of_lt (t.numbered j hj)
          · rw [List.mem_singleton.mp hj]
            exact Nat.lt_succ_self _ }
    else .error .jobPids
  else .error .jobs

/-- `j->active = 1` or `0`. -/
def setActive (k : ℕ) (active : Bool) : JobTable := t.modify k ({ · with active }) fun _ => rfl

/-- `j->state = …`. -/
def setState (k : ℕ) (state : JobState) : JobTable := t.modify k ({ · with state }) fun _ => rfl

/-- `register_job`: the number of the job. -/
def registerJob (pgid : Pid) (pids : List Pid) (names : List Text) (command : Text)
    (background : Bool) : Except Overrun (ℕ × JobTable) := do
  let t' ← t.fillSlot pgid pids names command background
  .ok (t.nextJob, t'.setActive t.jobs.length true)

/-! ## Looking jobs up, and taking processes out -/

/-- `find_job_by_number`: the slot. -/
def findJobByNumber (num : ℕ) : Option ℕ := t.jobs.findIdx? fun j => j.active && j.number == num

/-- `find_job_containing_pid`: the slot. -/
def findJobContainingPid (pid : Pid) : Option ℕ :=
  t.jobs.findIdx? fun j => j.active && j.pids.contains pid

/-- `remove_pid_from_job`. -/
def removePidFromJob (pid : Pid) : JobTable :=
  match t.findJobContainingPid pid with
  | none => t
  | some k => t.modify k (Job.dropPid pid) (Job.number_dropPid pid)

/-- The line for a process of a background job that has ended. -/
def exitLine (name : Text) (pid : Pid) (normal : Bool) : Text :=
  (name ++ " with pid ".toList ++ (toString pid).toList ++ " exited ".toList ++
    (if normal then "normally".toList else "abnormally".toList) ++ ['\n']).take 299

/-- `queue_or_print`: while a foreground job runs the line waits, unless 64 wait already. -/
def queueOrPrint (name : Text) (pid : Pid) (normal : Bool) : JobTable :=
  if t.fgRunning then
    if t.pending.length < maxPending then
      { t with pending := t.pending ++ [exitLine name pid normal] }
    else t
  else t.print (exitLine name pid normal)

/-- `flush_pending_bg_msg`. -/
def flushPendingBgMsg : JobTable := { t with pending := [], out := t.out ++ t.pending }

/-- The body of `reap_finished` for a process that has terminated; a background job is named after
its first process left. -/
def reapFinished (pid : Pid) (normal : Bool) : JobTable :=
  match t.findJobContainingPid pid with
  | none => t
  | some k =>
    let t :=
      match t.jobs[k]? with
      | none => t
      | some j =>
        if j.background then t.queueOrPrint ((j.procs.head?.map Proc.name).getD []) pid normal
        else t
    t.removePidFromJob pid

/-! ## What the table answers -/

/-- `pids[0..nproc)` of slot `k`. -/
def pidsAt (k : ℕ) : List Pid := (t.jobs[k]?.map Job.pids).getD []

/-- `active` of slot `k`. -/
def activeAt (k : ℕ) : Bool := (t.jobs[k]?.map Job.active).getD false

/-- `job_number` of slot `k`. -/
def numberAt (k : ℕ) : Option ℕ := t.jobs[k]?.map Job.number

/-- `state` of slot `k`. -/
def stateAt (k : ℕ) : Option JobState := t.jobs[k]?.map Job.state

/-- Slot `k` is an active job with `pid` in its list. -/
def Answers (k : ℕ) (pid : Pid) : Prop := t.activeAt k = true ∧ pid ∈ t.pidsAt k

instance (k : ℕ) (pid : Pid) : Decidable (t.Answers k pid) :=
  inferInstanceAs (Decidable (_ ∧ _))

variable {t : JobTable} {k i : ℕ} {pid q : Pid}

/-- Past the end no slot is active. -/
theorem activeAt_of_length_le (h : t.jobs.length ≤ k) : t.activeAt k = false := by
  rw [activeAt, List.getElem?_eq_none h]
  rfl

theorem lt_of_activeAt (h : t.activeAt k = true) : k < t.jobs.length := by
  by_contra hk
  rw [activeAt_of_length_le (Nat.le_of_not_lt hk)] at h
  cases h

theorem getElem?_modify (f : Job → Job) (hf : ∀ j, (f j).number = j.number) :
    (t.modify k f hf).jobs[i]? = if k = i then t.jobs[i]?.map f else t.jobs[i]? := by
  rw [modify, List.getElem?_modify]
  split
  · rfl
  · exact congrFun Option.map_id _

/-- A field that `f` leaves alone is left alone. -/
theorem map_modify {β : Type} {f : Job → Job} {hf : ∀ j, (f j).number = j.number} {g : Job → β}
    (hg : ∀ j, g (f j) = g j) : (t.modify k f hf).jobs[i]?.map g = t.jobs[i]?.map g := by
  rw [getElem?_modify]
  split
  · rw [Option.map_map]
    exact congrFun (congrArg _ (funext hg)) _
  · rfl

theorem map_modify_of_ne {β : Type} {f : Job → Job} {hf : ∀ j, (f j).number = j.number}
    {g : Job → β} (hne : k ≠ i) : (t.modify k f hf).jobs[i]?.map g = t.jobs[i]?.map g := by
  rw [getElem?_modify, if_neg hne]

@[simp] theorem length_jobs_modify (f : Job → Job) (hf : ∀ j, (f j).number = j.number) :
    (t.modify k f hf).jobs.length = t.jobs.length := List.length_modify _ _ _

/-- No write touches a number. -/
theorem numberAt_modify {f : Job → Job} {hf : ∀ j, (f j).number = j.number} :
    (t.modify k f hf).numberAt i = t.numberAt i := map_modify hf

/-- A table is asked through the pids and the activity of its slots only. -/
theorem pidsAt_congr {t' : JobTable} (h : t'.jobs = t.jobs) : t'.pidsAt k = t.pidsAt k := by
  rw [pidsAt, pidsAt, h]

theorem activeAt_congr {t' : JobTable} (h : t'.jobs = t.jobs) : t'.activeAt k = t.activeAt k := by
  rw [activeAt, activeAt, h]

theorem answers_congr {t' : JobTable} (hpids : t'.pidsAt k = t.pidsAt k)
    (hactive : t'.activeAt k = t.activeAt k) : t'.Answers k q ↔ t.Answers k q := by
  rw [Answers, Answers, hpids, hactive]

section Fields

@[simp] theorem pidsAt_setState (s : JobState) : (t.setState k s).pidsAt i = t.pidsAt i :=
  congrArg (Option.getD · []) (map_modify fun _ => rfl)

@[simp] theorem activeAt_setState (s : JobState) : (t.setState k s).activeAt i = t.activeAt i :=
  congrArg (Option.getD · false) (map_modify fun _ => rfl)

@[simp] theorem numberAt_setState (s : JobState) :
    (t.setState k s).numberAt i = t.numberAt i := numberAt_modify

@[simp] theorem length_jobs_setState (s : JobState) :
    (t.setState k s).jobs.length = t.jobs.length := length_jobs_modify _ _

theorem stateAt_setState_of_ne (s : JobState) (hne : i ≠ k) :
    (t.setState k s).stateAt i = t.stateAt i := map_modify_of_ne hne.symm

theorem stateAt_setState (s : JobState) (hk : k < t.jobs.length) :
    (t.setState k s).stateAt k = some s := by
  rw [stateAt, setState, getElem?_modify, if_pos rfl, List.getElem?_eq_getElem hk]
  rfl

@[simp] theorem pidsAt_setActive (b : Bool) : (t.setActive k b).pidsAt i = t.pidsAt i :=
  congrArg (Option.getD · []) (map_modify fun _ => rfl)

@[simp] theorem numberAt_setActive (b : Bool) :
    (t.setActive k b).numberAt i = t.numberAt i := numberAt_modify

@[simp] theorem stateAt_setActive (b : Bool) : (t.setActive k b).stateAt i = t.stateAt i :=
  map_modify fun _ => rfl

@[simp] theorem length_jobs_setActive (b : Bool) :
    (t.setActive k b).jobs.length = t.jobs.length := length_jobs_modify _ _

theorem activeAt_setActive (b : Bool) (hk : k < t.jobs.length) :
    (t.setActive k b).activeAt k = b := by
  rw [activeAt, setActive, getElem?_modify, if_pos rfl, List.getElem?_eq_getElem hk]
  rfl

theorem activeAt_setActive_of_ne (b : Bool) (hne : i ≠ k) :
    (t.setActive k b).activeAt i = t.activeAt i :=
  congrArg (Option.getD · false) (map_modify_of_ne hne.symm)

@[simp] theorem jobs_print (line : Text) : (t.print line).jobs = t.jobs := rfl

@[simp] theorem jobs_flushPendingBgMsg : t.flushPendingBgMsg.jobs = t.jobs := rfl

@[simp] theorem jobs_queueOrPrint (name : Text) (normal : Bool) :
    (t.queueOrPrint name pid normal).jobs = t.jobs := by
  rw [queueOrPrint]
  split
  · split <;> rfl
  · rfl

end Fields

/-! ## `register_job` appends -/

section FillSlot

variable {t' : JobTable} {pgid : Pid} {pids : List Pid} {names : List Text} {command : Text}
  {background : Bool}

/-- What the slot is filled with. -/
theorem jobs_fillSlot (h : t.fillSlot pgid pids names command background = .ok t') :
    ∃ j, t'.jobs = t.jobs ++ [j] ∧ j.procs = List.zipWith Proc.mk pids (names.map (·.take 255)) ∧
      j.number = t.nextJob ∧ j.active = false ∧ t'.nextJob = t.nextJob + 1 := by
  rw [fillSlot] at h
  split at h
  · split at h
    · cases h
      exact ⟨_, rfl, rfl, rfl, rfl, rfl⟩
    · cases h
  · cases h

/-- **A registration is in bounds** exactly when a slot is left and the processes fit into it. -/
theorem fillSlot_isOk_iff (hlen : names.length = pids.length) :
    (∃ t', t.fillSlot pgid pids names command background = .ok t') ↔
      t.jobs.length < maxjobs ∧ pids.length ≤ maxjobProcess := by
  have hzip : (List.zipWith Proc.mk pids (names.map (·.take 255))).length = pids.length := by
    rw [List.length_zipWith, List.length_map, hlen, Nat.min_self]
  rw [fillSlot]
  split
  · rename_i hroom
    split
    · rename_i hfits
      exact iff_of_true ⟨_, rfl⟩ ⟨hroom, hzip ▸ hfits⟩
    · rename_i hfits
      exact iff_of_false (fun ⟨_, h⟩ => nomatch h) fun h => hfits (hzip ▸ h.2)
  · rename_i hroom
    exact iff_of_false (fun ⟨_, h⟩ => nomatch h) fun h => hroom h.1

theorem length_jobs_fillSlot (h : t.fillSlot pgid pids names command background = .ok t') :
    t'.jobs.length = t.jobs.length + 1 := by
  obtain ⟨j, hjobs, -⟩ := jobs_fillSlot h
  rw [hjobs, List.length_append, List.length_singleton]

theorem pidsAt_fillSlot_of_ne (h : t.fillSlot pgid pids names command background = .ok t')
    (hne : i ≠ t.jobs.length) : t'.pidsAt i = t.pidsAt i := by
  obtain ⟨j, hjobs, -⟩ := jobs_fillSlot h
  rw [pidsAt, pidsAt, hjobs, List.getElem?_append]
  split
  · rfl
  · rename_i hi
    rw [List.getElem?_eq_none (by rw [List.length_singleton]; omega),
      List.getElem?_eq_none (by omega)]

theorem pidsAt_fillSlot (h : t.fillSlot pgid pids names command background = .ok t')
    (hlen : names.length = pids.length) : t'.pidsAt t.jobs.length = pids := by
  obtain ⟨j, hjobs, hprocs, -⟩ := jobs_fillSlot h
  have hle : pids.length ≤ (names.map (·.take 255)).length :=
    Nat.le_of_eq (by rw [List.length_map, hlen])
  rw [pidsAt, hjobs, List.getElem?_concat_length, Option.map_some, Option.getD_some, Job.pids,
    hprocs, ← List.map_uncurry_zip_eq_zipWith, List.map_map]
  exact List.map_fst_zip hle

theorem numberAt_fillSlot (h : t.fillSlot pgid pids names command background = .ok t') :
    t'.numberAt i = some t.nextJob ↔ i = t.jobs.length := by
  obtain ⟨j, hjobs, -, hnumber, -⟩ := jobs_fillSlot h
  rw [numberAt, hjobs, List.getElem?_append]
  constructor
  · intro hi
    split at hi
    · obtain ⟨j', hj', hnum⟩ := Option.map_eq_some_iff.mp hi
      exact absurd hnum (Nat.ne_of_lt (t.numbered j' (List.mem_of_getElem? hj')))
    · rw [List.getElem?_singleton] at hi
      split at hi
      · omega
      · cases hi
  · rintro rfl
    rw [if_neg (Nat.lt_irrefl _), Nat.sub_self, List.getElem?_cons_zero, Option.map_some, hnumber]

theorem activeAt_fillSlot (h : t.fillSlot pgid pids names command background = .ok t') :
    t'.activeAt i = t.activeAt i := by
  obtain ⟨j, hjobs, -, -, hactive, -⟩ := jobs_fillSlot h
  rw [activeAt, activeAt, hjobs, List.getElem?_append]
  split
  · rfl
  · rename_i hi
    rw [List.getElem?_eq_none (Nat.le_of_not_lt hi), List.getElem?_singleton]
    split
    · exact hactive
    · rfl

theorem stateAt_fillSlot_of_ne (h : t.fillSlot pgid pids names command background = .ok t')
    (hne : i ≠ t.jobs.length) : t'.stateAt i = t.stateAt i := by
  obtain ⟨j, hjobs, -⟩ := jobs_fillSlot h
  rw [stateAt, stateAt, hjobs, List.getElem?_append]
  split
  · rfl
  · rename_i hi
    rw [List.getElem?_eq_none (by rw [List.length_singleton]; omega),
      List.getElem?_eq_none (by omega)]

/-- A job starts running. -/
theorem stateAt_fillSlot (h : t.fillSlot pgid pids names command background = .ok t') :
    t'.stateAt t.jobs.length = some .running := by
  rw [fillSlot] at h
  split at h
  · split at h
    · cases h
      rw [stateAt, List.getElem?_concat_length]
      rfl
    · cases h
  · cases h

end FillSlot

/-! ## Finding a job -/

theorem answers_iff : t.Answers k pid ↔
    ∃ h : k < t.jobs.length, (t.jobs[k].active && t.jobs[k].pids.contains pid) = true := by
  rw [Answers, activeAt, pidsAt]
  by_cases hk : k < t.jobs.length
  · rw [List.getElem?_eq_getElem hk, Option.map_some, Option.getD_some, Option.map_some,
      Option.getD_some, exists_prop_of_true hk, Bool.and_eq_true, List.contains_iff_mem]
  · rw [List.getElem?_eq_none (Nat.le_of_not_lt hk)]
    exact iff_of_false (fun h => nomatch h.1) fun ⟨h, _⟩ => hk h

/-- The first slot that answers is found. -/
theorem findJobContainingPid_eq_some :
    t.findJobContainingPid pid = some k ↔
      t.Answers k pid ∧ ∀ i < k, ¬ t.Answers i pid := by
  rw [findJobContainingPid, List.findIdx?_eq_some_iff_getElem]
  constructor
  · rintro ⟨hk, hfound, hfirst⟩
    refine ⟨answers_iff.mpr ⟨hk, hfound⟩, fun i hi hans => ?_⟩
    obtain ⟨_, hfound'⟩ := answers_iff.mp hans
    exact hfirst i hi hfound'
  · rintro ⟨hans, hfirst⟩
    obtain ⟨hk, hfound⟩ := answers_iff.mp hans
    exact ⟨hk, hfound, fun i hi hi' => hfirst i hi (answers_iff.mpr ⟨by omega, hi'⟩)⟩

theorem findJobContainingPid_eq_none :
    t.findJobContainingPid pid = none ↔ ∀ k, ¬ t.Answers k pid := by
  rw [findJobContainingPid, List.findIdx?_eq_none_iff]
  constructor
  · intro hnone k hans
    obtain ⟨hk, hfound⟩ := answers_iff.mp hans
    rw [hnone _ (List.getElem_mem hk)] at hfound
    exact nomatch hfound
  · intro hnone j hj
    obtain ⟨k, hk, rfl⟩ := List.getElem_of_mem hj
    exact Bool.eq_false_iff.mpr fun hfound => hnone k (answers_iff.mpr ⟨hk, hfound⟩)

/-- The slot with a number nobody else has is found. -/
theorem findJobByNumber_eq_some {num : ℕ} (hnum : t.numberAt k = some num)
    (hactive : t.activeAt k = true) (hfirst : ∀ i < k, t.numberAt i ≠ some num) :
    t.findJobByNumber num = some k := by
  obtain ⟨j, hj, rfl⟩ := Option.map_eq_some_iff.mp hnum
  obtain ⟨hk, rfl⟩ := List.getElem?_eq_some_iff.mp hj
  rw [activeAt, hj, Option.map_some, Option.getD_some] at hactive
  refine List.findIdx?_eq_some_iff_getElem.mpr ⟨hk, ?_, fun i hi hfound => hfirst i hi ?_⟩
  · rw [hactive, Bool.true_and, beq_self_eq_true]
  · rw [Bool.and_eq_true, beq_iff_eq] at hfound
    rw [numberAt, List.getElem?_eq_getElem (by omega), Option.map_some, hfound.2]

theorem numberAt_of_findJobByNumber {num : ℕ} (h : t.findJobByNumber num = some k) :
    t.numberAt k = some num := by
  obtain ⟨hk, hfound, -⟩ := List.findIdx?_eq_some_iff_getElem.mp h
  rw [Bool.and_eq_true, beq_iff_eq] at hfound
  rw [numberAt, List.getElem?_eq_getElem hk, Option.map_some, hfound.2]

/-! ## What the handler does to the table -/

theorem jobs_removePidFromJob_congr {t' : JobTable} (h : t'.jobs = t.jobs) :
    (t'.removePidFromJob pid).jobs = (t.removePidFromJob pid).jobs := by
  have hfind : t'.findJobContainingPid pid = t.findJobContainingPid pid := by
    rw [findJobContainingPid, findJobContainingPid, h]
  rw [removePidFromJob, removePidFromJob, hfind]
  cases t.findJobContainingPid pid with
  | none => exact h
  | some k => exact congrArg (List.modify · k (Job.dropPid pid)) h

/-- The message apart, `reap_finished` is `remove_pid_from_job`. -/
theorem jobs_reapFinished (normal : Bool) :
    (t.reapFinished pid normal).jobs = (t.removePidFromJob pid).jobs := by
  rw [reapFinished]
  cases h : t.findJobContainingPid pid with
  | none => rw [removePidFromJob, h]
  | some k =>
    refine jobs_removePidFromJob_congr ?_
    split
    · rfl
    · split
      · exact jobs_queueOrPrint _ _
      · rfl

section ReapFinished

variable {normal : Bool}

/-- What is asked of slot `i` is not changed by the removal from another one. -/
theorem map_reapFinished_of_ne {β : Type} {g : Job → β}
    (hne : t.findJobContainingPid pid ≠ some i) :
    (t.reapFinished pid normal).jobs[i]?.map g = t.jobs[i]?.map g := by
  rw [jobs_reapFinished, removePidFromJob]
  cases h : t.findJobContainingPid pid with
  | none => rfl
  | some k => exact map_modify_of_ne fun heq => hne (heq ▸ h)

theorem map_reapFinished {β : Type} {g : Job → β} (h : t.findJobContainingPid pid = some i) :
    (t.reapFinished pid normal).jobs[i]?.map g = t.jobs[i]?.map fun j => g (j.dropPid pid) := by
  rw [jobs_reapFinished, removePidFromJob, h]
  dsimp only
  rw [getElem?_modify, if_pos rfl, Option.map_map]
  rfl

@[simp] theorem numberAt_reapFinished :
    (t.reapFinished pid normal).numberAt i = t.numberAt i := by
  by_cases h : t.findJobContainingPid pid = some i
  · exact map_reapFinished h
  · exact map_reapFinished_of_ne h

@[simp] theorem stateAt_reapFinished : (t.reapFinished pid normal).stateAt i = t.stateAt i := by
  by_cases h : t.findJobContainingPid pid = some i
  · exact map_reapFinished h
  · exact map_reapFinished_of_ne h

@[simp] theorem length_jobs_reapFinished :
    (t.reapFinished pid normal).jobs.length = t.jobs.length := by
  rw [jobs_reapFinished, removePidFromJob]
  split
  · rfl
  · exact length_jobs_modify _ _

/-- Only the slot that answers for `pid` is changed. -/
theorem pidsAt_reapFinished_of_ne (hne : t.findJobContainingPid pid ≠ some i) :
    (t.reapFinished pid normal).pidsAt i = t.pidsAt i :=
  congrArg (Option.getD · []) (map_reapFinished_of_ne hne)

theorem activeAt_reapFinished_of_ne (hne : t.findJobContainingPid pid ≠ some i) :
    (t.reapFinished pid normal).activeAt i = t.activeAt i :=
  congrArg (Option.getD · false) (map_reapFinished_of_ne hne)

/-- **The slot that answers for `pid` loses it**, once… -/
theorem pidsAt_reapFinished (h : t.findJobContainingPid pid = some i) :
    ((t.reapFinished pid normal).pidsAt i).Perm ((t.pidsAt i).erase pid) := by
  rw [pidsAt, pidsAt, map_reapFinished h]
  cases t.jobs[i]? with
  | none => exact List.Perm.refl _
  | some j => exact map_swapErase_perm Proc.pid pid j.procs

/-- …and **stays active while it has pids left**. -/
theorem activeAt_reapFinished (h : t.findJobContainingPid pid = some i) :
    (t.reapFinished pid normal).activeAt i = true ↔
      (t.reapFinished pid normal).pidsAt i ≠ [] := by
  obtain ⟨hk, hfound⟩ := answers_iff.mp (findJobContainingPid_eq_some.mp h).1
  rw [Bool.and_eq_true] at hfound
  rw [activeAt, pidsAt, map_reapFinished h, map_reapFinished h, List.getElem?_eq_getElem hk,
    Option.map_some, Option.getD_some, Option.map_some, Option.getD_some, Job.dropPid, Job.pids,
    ne_eq, List.map_eq_nil_iff, ← List.length_eq_zero_iff]
  dsimp only
  split
  · rename_i h0
    exact iff_of_false (fun h => nomatch h) fun hne => hne h0
  · rename_i h0
    exact iff_of_true hfound.1 h0

/-- No slot answers for more than before. -/
theorem answers_of_reapFinished (h : (t.reapFinished pid normal).Answers i q) :
    t.Answers i q := by
  by_cases hfind : t.findJobContainingPid pid = some i
  · have hans := (findJobContainingPid_eq_some.mp hfind).1
    exact ⟨hans.1, List.mem_of_mem_erase ((pidsAt_reapFinished hfind).subset h.2)⟩
  · exact (answers_congr (pidsAt_reapFinished_of_ne hfind)
      (activeAt_reapFinished_of_ne hfind)).mp h

end ReapFinished

end JobTable

end MiniProject.Shell
