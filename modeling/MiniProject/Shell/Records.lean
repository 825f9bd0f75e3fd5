import MiniProject.Shell.Control

/-!
# Shell/Records — the job table and the children

While the pipeline is forked its pids are in an array of the shell that nobody else sees; from
`register_job` on they are in a slot of the job table, which the handler edits.  `listed` is the one
or the other.  Along every run it holds the children of the pipeline that have not been waited for
(`Inv`), and it holds nobody else exactly when no stage has been waited for behind its back
(`clean_iff`).
-/

namespace MiniProject.Shell

namespace Ctl

/-! ## How far the shell is -/

/-- What has been done: nothing is registered, the pids are complete, the slot is filled, it is
active, a job that has ended is marked so. -/
inductive Progress
  | forking | ready | filled | listed | left | failed
  deriving DecidableEq, Repr

end Ctl

/-- The progress at each place. -/
def Pc.progress : Pc → Ctl.Progress
  | .fork => .forking
  | .join => .forking
  | .fill => .ready
  | .activate => .filled
  | .clearFg stopped => if stopped then .listed else .left
  | .flush stopped => if stopped then .listed else .left
  | .returned stopped => if stopped then .listed else .left
  | .fault _ => .failed
  | _ => .listed

namespace Ctl

/-- The slot is the job's, and nobody else has its number. -/
def Placed (s : Ctl) : Prop :=
  s.slot < s.table.jobs.length ∧ ∀ i, s.table.numberAt i = some s.num ↔ i = s.slot

/-- What holds at each progress. -/
def AtProgress (s : Ctl) : Progress → Prop
  | .forking => s.table.jobs.length = s.slot ∧ s.forked.length ≤ s.request.names.length
  | .ready => s.table.jobs.length = s.slot ∧ s.forked.length = s.request.names.length
  | .filled => s.Placed ∧ s.forked.length = s.request.names.length ∧
      s.table.pidsAt s.slot = s.forked ∧ s.table.activeAt s.slot = false
  | .listed => s.Placed ∧ s.forked.length = s.request.names.length ∧
      (s.table.pidsAt s.slot ≠ [] → s.table.activeAt s.slot = true)
  | .left => s.Placed ∧ s.forked.length = s.request.names.length
  | .failed => True

/-- Where the pids of the pipeline are to be found. -/
def listed (s : Ctl) : List Pid :=
  if s.slot < s.table.jobs.length then s.table.pidsAt s.slot else s.forked

/-- Every stage has been waited for. -/
def AllReaped (s : Ctl) : Prop := ∀ p ∈ s.forked, p ∈ s.children.reaped

/-- **The invariant of job control**: `listed` is without repetition, has stages only, and has all
that have not been waited for; no other slot answers for a stage. -/
structure Inv (s : Ctl) : Prop where
  nodup : s.forked.Nodup
  forkedKnown : ∀ p ∈ s.forked, s.children.Knows p
  answersKnown : ∀ k p, s.table.Answers k p → s.children.Knows p
  others : ∀ k p, k ≠ s.slot → s.table.Answers k p → p ∉ s.forked
  listedNodup : s.listed.Nodup
  listedSub : s.listed ⊆ s.forked
  listedAll : ∀ p ∈ s.forked, p ∈ s.children.pids → p ∈ s.listed
  atProgress : s.AtProgress s.pc.progress
  mine : ∀ k, s.job = some k → k = s.slot

/-! ## Steps that leave the records alone -/

/-- The two agree on the children's pids and on the slots, states apart. -/
structure Agrees (s s' : Ctl) : Prop where
  pids : s'.children.pids = s.children.pids
  reaped : s'.children.reaped = s.children.reaped
  pidsAt : ∀ k, s'.table.pidsAt k = s.table.pidsAt k
  activeAt : ∀ k, s'.table.activeAt k = s.table.activeAt k
  numberAt : ∀ k, s'.table.numberAt k = s.table.numberAt k
  length : s'.table.jobs.length = s.table.jobs.length
  forked : s'.forked = s.forked
  slot : s'.slot = s.slot
  num : s'.num = s.num
  request : s'.request = s.request

variable {s s' : Ctl} {l : Label}

/-- Same jobs, same answers. -/
theorem Agrees.of_jobs (hchildren : s'.children.pids = s.children.pids)
    (hreaped : s'.children.reaped = s.children.reaped) (hjobs : s'.table.jobs = s.table.jobs)
    (hforked : s'.forked = s.forked) (hslot : s'.slot = s.slot) (hnum : s'.num = s.num)
    (hrequest : s'.request = s.request) : Agrees s s' where
  pids := hchildren
  reaped := hreaped
  pidsAt k := by rw [JobTable.pidsAt, JobTable.pidsAt, hjobs]
  activeAt k := by rw [JobTable.activeAt, JobTable.activeAt, hjobs]
  numberAt k := by rw [JobTable.numberAt, JobTable.numberAt, hjobs]
  length := by rw [hjobs]
  forked := hforked
  slot := hslot
  num := hnum
  request := hrequest

namespace Agrees

variable (h : Agrees s s')
include h

theorem listed : s'.listed = s.listed := by
  rw [Ctl.listed, Ctl.listed, h.slot, h.length, h.pidsAt, h.forked]

theorem knows {p : Pid} : s'.children.Knows p ↔ s.children.Knows p := by
  rw [Children.Knows, Children.Knows, h.pids, h.reaped]

theorem answers {k : ℕ} {p : Pid} : s'.table.Answers k p ↔ s.table.Answers k p :=
  JobTable.answers_congr (h.pidsAt k) (h.activeAt k)

theorem placed : s'.Placed ↔ s.Placed := by
  simp only [Placed, h.slot, h.length, h.num, h.numberAt]

theorem atProgress {g : Progress} : s'.AtProgress g ↔ s.AtProgress g := by
  cases g <;>
    simp only [AtProgress, h.placed, h.slot, h.length, h.forked, h.request, h.pidsAt, h.activeAt]

end Agrees

/-- **The invariant is about what the two agree on**, and the progress. -/
theorem Inv.transfer (hI : s.Inv) (h : Agrees s s')
    (hpc : s.AtProgress s.pc.progress → s.AtProgress s'.pc.progress)
    (hjob : ∀ k, s'.job = some k → k = s.slot) : s'.Inv where
  nodup := by rw [h.forked]; exact hI.nodup
  forkedKnown p hp := h.knows.mpr (hI.forkedKnown p (h.forked ▸ hp))
  answersKnown k p hans := h.knows.mpr (hI.answersKnown k p (h.answers.mp hans))
  others k p hk hans := by
    rw [h.forked]
    exact hI.others k p (h.slot ▸ hk) (h.answers.mp hans)
  listedNodup := by rw [h.listed]; exact hI.listedNodup
  listedSub := by rw [h.listed, h.forked]; exact hI.listedSub
  listedAll p hp hpids := by
    rw [h.listed]
    exact hI.listedAll p (h.forked ▸ hp) (h.pids ▸ hpids)
  atProgress := h.atProgress.mpr (hpc hI.atProgress)
  mine k hk := by rw [h.slot]; exact hjob k hk

/-! ## Where the pids are -/

section Listed

theorem listed_of_length_le (h : s.table.jobs.length ≤ s.slot) : s.listed = s.forked :=
  if_neg (Nat.not_lt.mpr h)

theorem listed_of_lt (h : s.slot < s.table.jobs.length) : s.listed = s.table.pidsAt s.slot :=
  if_pos h

/-- What the slot answers for is listed. -/
theorem mem_listed_of_answers {p : Pid} (h : s.table.Answers s.slot p) : p ∈ s.listed := by
  rw [listed]
  split
  · exact h.2
  · rename_i hlt
    rw [JobTable.Answers, JobTable.activeAt, List.getElem?_eq_none (Nat.le_of_not_lt hlt)] at h
    exact absurd h.1 Bool.false_ne_true

/-- **A stage that has not been waited for is found in its slot**, if that is active. -/
theorem Inv.find_stage (hI : s.Inv) {p : Pid} (hp : p ∈ s.forked) (hpids : p ∈ s.children.pids) :
    s.table.findJobContainingPid p = some s.slot ↔ s.table.activeAt s.slot = true := by
  rw [JobTable.findJobContainingPid_eq_some]
  constructor
  · rintro ⟨hans, -⟩
    exact hans.1
  · intro hactive
    have hlisted := hI.listedAll p hp hpids
    rw [listed_of_lt (JobTable.lt_of_activeAt hactive)] at hlisted
    exact ⟨⟨hactive, hlisted⟩, fun i hi hans => hI.others i p (Nat.ne_of_lt hi) hans hp⟩

/-- Nobody else is found there. -/
theorem Inv.find_other (hI : s.Inv) {p : Pid} (hp : p ∉ s.forked) :
    s.table.findJobContainingPid p ≠ some s.slot := fun hfind =>
  hp (hI.listedSub (mem_listed_of_answers (JobTable.findJobContainingPid_eq_some.mp hfind).1))

end Listed

/-! ## The steps that touch the records -/

section Steps

theorem Inv.at (hI : s.Inv) {pc : Pc} (hpc : s.pc = pc) : s.AtProgress pc.progress :=
  hpc ▸ hI.atProgress

/-- While nothing is registered, a new stage is listed. -/
theorem listed_fork (hI : s.Inv) {p : Pid} {children : Children Pid} {pc : Pc}
    (hpc : s.pc = .fork) :
    listed { s with children, forked := s.forked ++ [p], pc } = s.listed ++ [p] := by
  have hle : s.table.jobs.length ≤ s.slot := Nat.le_of_eq (hI.at hpc).1
  rw [listed_of_length_le hle]
  exact listed_of_length_le hle

theorem inv_fork (hI : s.Inv) {p : Pid} (hpc : s.pc = .fork)
    (hlt : s.forked.length < s.request.names.length) (hfresh : s.Fresh p) :
    Inv { s with
      children := s.children.fork p s.shellPgid hfresh.1, forked := s.forked ++ [p],
      pc := .join } := by
  have hat : s.AtProgress .forking := hI.at hpc
  have hmem : p ∉ s.forked := fun hp => (hI.forkedKnown p hp).ne_of_not_mem hfresh.1 rfl
  have hlisted : listed { s with
      children := s.children.fork p s.shellPgid hfresh.1, forked := s.forked ++ [p],
      pc := .join } = s.forked ++ [p] := by
    rw [listed_fork hI hpc, listed_of_length_le (Nat.le_of_eq hat.1)]
  have hnodup : (s.forked ++ [p]).Nodup :=
    List.nodup_append'.mpr ⟨hI.nodup, List.nodup_singleton p, fun q hq hmem' =>
      hmem (List.mem_singleton.mp hmem' ▸ hq)⟩
  refine ⟨hnodup, fun q hq => ?_, fun k q hans => ?_, fun k q hk hans hq => ?_, ?_, ?_, ?_, ?_,
    hI.mine⟩
  · rcases List.mem_append.mp hq with hq | hq
    · exact (hI.forkedKnown q hq).fork (h := hfresh.1)
    · exact .inl ((Children.mem_pids_fork (h := hfresh.1)).mpr (.inr (List.mem_singleton.mp hq)))
  · exact (hI.answersKnown k q hans).fork (h := hfresh.1)
  · rcases List.mem_append.mp hq with hq | hq
    · exact hI.others k q hk hans hq
    · exact (hI.answersKnown k q hans).ne_of_not_mem hfresh.1 (List.mem_singleton.mp hq)
  · rw [hlisted]
    exact hnodup
  · rw [hlisted]
    exact List.Subset.refl _
  · intro q hq _
    rw [hlisted]
    exact hq
  · refine ⟨hat.1, ?_⟩
    rw [List.length_append]
    exact hlt

/-- The slot is filled with what was listed. -/
theorem listed_fill (hI : s.Inv) {t : JobTable} (hpc : s.pc = .fill)
    (h : s.table.fillSlot (s.group.getD 0) s.forked s.request.names s.command
      s.request.background = .ok t) :
    listed { s with
      table := t, slot := s.table.jobs.length, num := s.table.nextJob, pc := .activate }
      = s.listed := by
  obtain ⟨hslot, hlen⟩ := hI.at hpc
  have hlt : s.table.jobs.length < t.jobs.length := by
    rw [JobTable.length_jobs_fillSlot h]
    exact Nat.lt_succ_self _
  rw [listed_of_length_le (Nat.le_of_eq hslot)]
  exact (listed_of_lt hlt).trans (JobTable.pidsAt_fillSlot h hlen.symm)

theorem inv_fill (hI : s.Inv) {t : JobTable} (hpc : s.pc = .fill)
    (h : s.table.fillSlot (s.group.getD 0) s.forked s.request.names s.command
      s.request.background = .ok t) :
    Inv { s with
      table := t, slot := s.table.jobs.length, num := s.table.nextJob, pc := .activate } := by
  obtain ⟨hslot, hlen⟩ := hI.at hpc
  have hpids : t.pidsAt s.table.jobs.length = s.forked := JobTable.pidsAt_fillSlot h hlen.symm
  have hlt : s.table.jobs.length < t.jobs.length := by
    rw [JobTable.length_jobs_fillSlot h]
    exact Nat.lt_succ_self _
  have hinactive : t.activeAt s.table.jobs.length = false := by
    rw [JobTable.activeAt_fillSlot h]
    exact JobTable.activeAt_of_length_le (Nat.le_refl _)
  have hans : ∀ k q, t.Answers k q → k ≠ s.table.jobs.length ∧ s.table.Answers k q := by
    rintro k q hk
    have hne : k ≠ s.table.jobs.length := by
      rintro rfl
      rw [JobTable.Answers, hinactive] at hk
      exact absurd hk.1 Bool.false_ne_true
    exact ⟨hne, (JobTable.answers_congr (JobTable.pidsAt_fillSlot_of_ne h hne)
      (JobTable.activeAt_fillSlot h)).mp hk⟩
  have hlisted : listed { s with
      table := t, slot := s.table.jobs.length, num := s.table.nextJob, pc := .activate }
      = s.forked := by
    rw [listed_fill hI hpc h, listed_of_length_le (Nat.le_of_eq hslot)]
  refine ⟨hI.nodup, hI.forkedKnown, fun k q hk => hI.answersKnown k q (hans k q hk).2,
    fun k q hne hk => hI.others k q (hslot ▸ hne) (hans k q hk).2, ?_, ?_, ?_,
    ⟨⟨hlt, fun i => JobTable.numberAt_fillSlot h⟩, hlen, hpids, hinactive⟩, ?_⟩
  · rw [hlisted]
    exact hI.nodup
  · rw [hlisted]
    exact List.Subset.refl _
  · intro q hq _
    rw [hlisted]
    exact hq
  · intro k hk
    exact (hI.mine k hk).trans hslot.symm

theorem listed_setActive {k : ℕ} {b : Bool} {pc : Pc} :
    listed { s with table := s.table.setActive k b, pc } = s.listed := by
  rw [listed, listed, JobTable.length_jobs_setActive, JobTable.pidsAt_setActive]

/-- `active` of the slot is written. -/
theorem inv_setActive (hI : s.Inv) {b : Bool} {pc : Pc} (hlt : s.slot < s.table.jobs.length)
    (hat : AtProgress { s with table := s.table.setActive s.slot b, pc } pc.progress) :
    Inv { s with table := s.table.setActive s.slot b, pc } := by
  have hlisted : listed { s with table := s.table.setActive s.slot b, pc } = s.listed :=
    listed_setActive
  have hans : ∀ k q, k ≠ s.slot →
      ((s.table.setActive s.slot b).Answers k q ↔ s.table.Answers k q) := fun k q hne =>
    JobTable.answers_congr (JobTable.pidsAt_setActive b) (JobTable.activeAt_setActive_of_ne b hne)
  refine ⟨hI.nodup, hI.forkedKnown, fun k q hk => ?_,
    fun k q hne hk => hI.others k q hne ((hans k q hne).mp hk), ?_, ?_, ?_, hat, hI.mine⟩
  · by_cases hne : k = s.slot
    · subst hne
      have hq : q ∈ s.listed := by
        rw [listed_of_lt hlt, ← JobTable.pidsAt_setActive b]
        exact hk.2
      exact hI.forkedKnown q (hI.listedSub hq)
    · exact hI.answersKnown k q ((hans k q hne).mp hk)
  · rw [hlisted]
    exact hI.listedNodup
  · rw [hlisted]
    exact hI.listedSub
  · rw [hlisted]
    exact hI.listedAll

theorem placed_setActive {b : Bool} {k : ℕ} {pc : Pc} (h : s.Placed) :
    Placed { s with table := s.table.setActive k b, pc } := by
  refine ⟨?_, fun i => ?_⟩
  · rw [JobTable.length_jobs_setActive]
    exact h.1
  · rw [← h.2 i]
    exact iff_of_eq (congrArg (· = some s.num) (JobTable.numberAt_setActive b))

theorem inv_activate (hI : s.Inv) (hpc : s.pc = .activate) :
    Inv { s with
      table := s.table.setActive s.slot true
      pc := if s.request.background then .announce else .lookup } := by
  obtain ⟨hplaced, hlen, -, -⟩ := hI.at hpc
  refine inv_setActive hI hplaced.1 ?_
  have hpc' : (if s.request.background then Pc.announce else .lookup).progress = .listed := by
    split <;> rfl
  rw [hpc']
  exact ⟨placed_setActive hplaced, hlen, fun _ => JobTable.activeAt_setActive _ hplaced.1⟩

theorem inv_deactivate (hI : s.Inv) {k : ℕ} (hpc : s.pc = .leave false) (hjob : s.job = some k) :
    Inv { s with table := s.table.setActive k false, pc := .clearFg false } := by
  obtain ⟨hplaced, hlen, -⟩ := hI.at hpc
  obtain rfl := hI.mine k hjob
  exact inv_setActive hI hplaced.1 ⟨placed_setActive hplaced, hlen⟩

/-- `find_job_by_number` finds the job, or nothing. -/
theorem inv_lookup (hI : s.Inv) (hpc : s.pc = .lookup) :
    Inv { s with job := s.table.findJobByNumber s.num, pc := .takeTerminal } := by
  have hat : s.AtProgress .listed := hI.at hpc
  refine hI.transfer (.of_jobs rfl rfl rfl rfl rfl rfl rfl) (fun _ => hat) fun k hk => ?_
  exact (hat.1.2 k).mp (JobTable.numberAt_of_findJobByNumber hk)

/-- A child is waited for. -/
theorem inv_reap (hI : s.Inv) {p : Pid} {pc : Pc} (hp : p ∈ s.children.pids)
    (hat : s.AtProgress s.pc.progress → s.AtProgress pc.progress) :
    Inv { s with children := s.children.reap p hp, pc } where
  nodup := hI.nodup
  forkedKnown q hq := (Children.knows_reap (h := hp)).mpr (hI.forkedKnown q hq)
  answersKnown k q hans := (Children.knows_reap (h := hp)).mpr (hI.answersKnown k q hans)
  others := hI.others
  listedNodup := hI.listedNodup
  listedSub := hI.listedSub
  listedAll q hq hpids := hI.listedAll q hq ((Children.mem_pids_reap (h := hp)).mp hpids).1
  atProgress := by
    have h := hat hI.atProgress
    revert h
    cases pc.progress <;> exact id
  mine := hI.mine

/-- What the handler leaves of `listed`. -/
theorem listed_reapFinished (p : Pid) (normal : Bool) (children : Children Pid) :
    (listed { s with children, table := s.table.reapFinished p normal }).Perm
      (if s.table.findJobContainingPid p = some s.slot then s.listed.erase p else s.listed) := by
  rw [listed, listed, JobTable.length_jobs_reapFinished]
  split
  · rename_i hlt
    split
    · rename_i hfind
      exact JobTable.pidsAt_reapFinished hfind
    · rename_i hfind
      exact List.Perm.of_eq (JobTable.pidsAt_reapFinished_of_ne hfind)
  · rename_i hlt
    split
    · rename_i hfind
      have hactive := (JobTable.findJobContainingPid_eq_some.mp hfind).1.1
      exact absurd (JobTable.lt_of_activeAt hactive) hlt
    · exact List.Perm.refl _

theorem placed_reapFinished {p : Pid} {normal : Bool} {children : Children Pid} (h : s.Placed) :
    Placed { s with children, table := s.table.reapFinished p normal } := by
  refine ⟨?_, fun i => ?_⟩
  · rw [JobTable.length_jobs_reapFinished]
    exact h.1
  · rw [← h.2 i]
    exact iff_of_eq (congrArg (· = some s.num) JobTable.numberAt_reapFinished)

/-- **The handler keeps the slot honest**: it is active while it has pids left. -/
theorem atProgress_reapFinished {p : Pid} {normal : Bool} {children : Children Pid} {g : Progress}
    (h : s.AtProgress g) :
    AtProgress { s with children, table := s.table.reapFinished p normal } g := by
  cases g with
  | forking | ready => exact ⟨JobTable.length_jobs_reapFinished.trans h.1, h.2⟩
  | filled =>
    obtain ⟨hplaced, hlen, hpids, hinactive⟩ := h
    have hfind : s.table.findJobContainingPid p ≠ some s.slot := fun hfind => by
      have hactive := (JobTable.findJobContainingPid_eq_some.mp hfind).1.1
      rw [hinactive] at hactive
      exact nomatch hactive
    exact ⟨placed_reapFinished hplaced, hlen,
      (JobTable.pidsAt_reapFinished_of_ne hfind).trans hpids,
      (JobTable.activeAt_reapFinished_of_ne hfind).trans hinactive⟩
  | listed =>
    obtain ⟨hplaced, hlen, hheld⟩ := h
    refine ⟨placed_reapFinished hplaced, hlen, fun hne => ?_⟩
    by_cases hfind : s.table.findJobContainingPid p = some s.slot
    · exact (JobTable.activeAt_reapFinished hfind).mpr hne
    · refine (JobTable.activeAt_reapFinished_of_ne hfind).trans (hheld ?_)
      rwa [← JobTable.pidsAt_reapFinished_of_ne hfind]
  | left => exact ⟨placed_reapFinished h.1, h.2⟩
  | failed => trivial

/-- The handler waits for a child. -/
theorem inv_reaps (hI : s.Inv) {p : Pid} {normal : Bool} (hp : p ∈ s.children.pids) :
    Inv { s with
      children := s.children.reap p hp, table := s.table.reapFinished p normal } := by
  have hlisted := listed_reapFinished (s := s) p normal (s.children.reap p hp)
  have hsub : listed { s with
      children := s.children.reap p hp, table := s.table.reapFinished p normal } ⊆ s.listed := by
    intro q hq
    have hq := hlisted.subset hq
    split at hq
    · exact List.mem_of_mem_erase hq
    · exact hq
  refine ⟨hI.nodup, fun q hq => (Children.knows_reap (h := hp)).mpr (hI.forkedKnown q hq),
    fun k q hans => (Children.knows_reap (h := hp)).mpr
      (hI.answersKnown k q (JobTable.answers_of_reapFinished hans)),
    fun k q hne hans => hI.others k q hne (JobTable.answers_of_reapFinished hans), ?_,
    fun q hq => hI.listedSub (hsub hq), fun q hq hpids => ?_,
    atProgress_reapFinished hI.atProgress, hI.mine⟩
  · rw [hlisted.nodup_iff]
    split
    · exact hI.listedNodup.erase p
    · exact hI.listedNodup
  · obtain ⟨hpids, hne⟩ := (Children.mem_pids_reap (h := hp)).mp hpids
    have hmem := hI.listedAll q hq hpids
    rw [hlisted.mem_iff]
    split
    · exact (List.mem_erase_of_ne hne).mpr hmem
    · exact hmem

theorem agrees_noticeStop {p : Pid} {pc : Pc} {line : Text} {phase : Phase} :
    Agrees s { s with
      children := s.children.setPhase p phase
      table := ((s.job.map fun k => s.table.setState k .stopped).getD s.table).print line
      pc } where
  pids := Children.pids_setPhase _
  reaped := rfl
  pidsAt k := by
    cases s.job with
    | none => rfl
    | some i => exact JobTable.pidsAt_setState .stopped
  activeAt k := by
    cases s.job with
    | none => rfl
    | some i => exact JobTable.activeAt_setState .stopped
  numberAt k := by
    cases s.job with
    | none => rfl
    | some i => exact JobTable.numberAt_setState .stopped
  length := by
    cases s.job with
    | none => rfl
    | some i => exact JobTable.length_jobs_setState .stopped
  forked := rfl
  slot := rfl
  num := rfl
  request := rfl

/-- A place is left for the next one with the same to say, or for the end of the job. -/
theorem Quiet.atProgress {pc pc' : Pc} (h : Quiet s pc pc') (hat : s.AtProgress pc.progress) :
    s.AtProgress pc'.progress := by
  have hleft : s.AtProgress .listed → s.AtProgress .left := fun hat => ⟨hat.1, hat.2.1⟩
  cases h with
  | keep =>
    rename_i stopped _
    cases stopped
    · exact hleft hat
    · exact hat
  | takeTerminal | done | noChild | giveBack | clearFg | flush | announce | openGate => exact hat

/-- **Every step keeps the invariant.** -/
theorem inv_step (hI : s.Inv) (h : s.step l = some s') : s'.Inv := by
  cases moves_of_step h with
  | fork hpc hlt hfresh => exact inv_fork hI hpc hlt hfresh
  | join hpc hp =>
    exact hI.transfer (.of_jobs Children.pids_setpgid Children.reaped_setpgid rfl rfl rfl rfl rfl)
      (fun hat => by rwa [hpc] at hat) hI.mine
  | ready hpc hlen =>
    exact hI.transfer (.of_jobs rfl rfl rfl rfl rfl rfl rfl)
      (fun hat => by rw [hpc] at hat; exact ⟨hat.1, Nat.le_antisymm hat.2 hlen⟩) hI.mine
  | overrun hpc _ =>
    exact hI.transfer (.of_jobs rfl rfl rfl rfl rfl rfl rfl) (fun _ => trivial) hI.mine
  | fill hpc hfill => exact inv_fill hI hpc hfill
  | activate hpc => exact inv_activate hI hpc
  | lookup hpc => exact inv_lookup hI hpc
  | deactivate hpc hjob => exact inv_deactivate hI hpc hjob
  | quiet _ hpc hchildren hjobs hforked _ hslot hrequest =>
    refine hI.transfer (.of_jobs ?_ ?_ hjobs hforked hslot.1 hslot.2.1 hrequest) hpc.atProgress ?_
    · rw [hchildren]
    · rw [hchildren]
    · rw [hslot.2.2]
      exact hI.mine
  | collect hpc _ hp => exact inv_reap hI hp.mem_pids fun hat => by rwa [hpc] at hat
  | noticeStop hpc _ _ =>
    exact hI.transfer agrees_noticeStop (fun hat => by rwa [hpc] at hat) hI.mine
  | joins hp =>
    exact hI.transfer (.of_jobs Children.pids_setpgid Children.reaped_setpgid rfl rfl rfl rfl rfl)
      id hI.mine
  | exits | stops | continues =>
    exact hI.transfer (.of_jobs (Children.pids_setPhase _) rfl rfl rfl rfl rfl rfl) id hI.mine
  | signal | handled => exact hI.transfer (.of_jobs rfl rfl rfl rfl rfl rfl rfl) id hI.mine
  | reaps hp => exact inv_reaps hI hp

/-- It holds at the start. -/
theorem inv_start (r : Request) (i : Idle) : (start r i).Inv := by
  have hjobs : (start r i).table.jobs = i.table.jobs := by
    rw [start]
    dsimp only
    split <;> rfl
  have hlisted : (start r i).listed = [] := listed_of_length_le (Nat.le_of_eq (by rw [hjobs]; rfl))
  refine ⟨List.nodup_nil, fun p hp => (by cases hp), fun k p hans => i.known k p ?_,
    fun _ _ _ _ hp => (by cases hp), ?_, ?_, fun p hp => (by cases hp), ⟨?_, Nat.zero_le _⟩,
    fun k hk => (by cases hk)⟩
  · rw [JobTable.Answers, JobTable.activeAt, JobTable.pidsAt, hjobs] at hans
    exact hans
  · rw [hlisted]
    exact List.nodup_nil
  · rw [hlisted]
    exact List.nil_subset _
  · rw [hjobs]
    rfl

end Steps

end Ctl

end MiniProject.Shell
