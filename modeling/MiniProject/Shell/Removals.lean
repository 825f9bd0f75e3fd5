import Mathlib.Data.List.Induction
import MiniProject.Shell.Names

/-!
# Shell/Removals — a job has the processes that have not been taken out of it

`remove_pid_from_job` looks for the pid in the active jobs, and what it finds there is overwritten
by the job's last process and its name.  As long as the pids of the active jobs are distinct
(`Distinct`), this is the one job with that pid and all its other processes stay (`keeps_step`).  So
after every sequence of removals each job has the processes it was registered with, less those
removed, and it is active exactly while there are any (`removeAll_spec`).
-/

namespace MiniProject.Shell

/-- The job has those of `procs` that are not `gone`, in some order, and it is active exactly if
there are any. -/
def Job.Keeps (j : Job) (procs : List Proc) (gone : List Pid) : Prop :=
  j.procs.Perm (procs.filter fun x => x.pid ∉ gone) ∧ (j.active = true ↔ j.procs ≠ [])

/-- The job with the pid loses it, and nothing else. -/
theorem Job.Keeps.dropPid {j : Job} {procs : List Proc} {gone : List Pid} {pid : Pid}
    (h : j.Keeps procs gone) (hnodup : j.pids.Nodup) (hactive : j.active = true) :
    (j.dropPid pid).Keeps procs (gone ++ [pid]) := by
  constructor
  · refine (swapErase_perm_filter Proc.pid pid hnodup).trans ?_
    refine (h.1.filter _).trans (List.Perm.of_eq ?_)
    rw [List.filter_filter]
    exact List.filter_congr fun x _ => by simp [and_comm]
  · rw [Job.dropPid]
    dsimp only
    rw [ne_eq, ← List.length_eq_zero_iff]
    split
    · rename_i h0
      exact iff_of_false (by simp) fun h => h h0
    · rename_i h0
      exact iff_of_true hactive h0

namespace JobTable

variable {t t' : JobTable} {i k : ℕ} {pid q : Pid} {j : Job}

/-- Every active job has a process, and the pids of the active jobs are distinct, within each and
across all. -/
structure Distinct (t : JobTable) : Prop where
  inhabited : ∀ j ∈ t.jobs, j.active = true → j.procs ≠ []
  within : ∀ j ∈ t.jobs, j.active = true → j.pids.Nodup
  across : ∀ i k pid, t.Answers i pid → t.Answers k pid → i = k

/-- `remove_pid_from_job` for these pids, in this order. -/
def removeAll (t : JobTable) (pids : List Pid) : JobTable := pids.foldl removePidFromJob t

theorem removeAll_concat (t : JobTable) (pids : List Pid) (pid : Pid) :
    t.removeAll (pids ++ [pid]) = (t.removeAll pids).removePidFromJob pid := by
  rw [removeAll, List.foldl_append]
  rfl

theorem answers_of_getElem? (hj : t.jobs[k]? = some j) :
    t.Answers k pid ↔ j.active = true ∧ pid ∈ j.pids := by
  rw [Answers, activeAt, pidsAt, hj]
  exact Iff.rfl

theorem Answers.exists_job (h : t.Answers k pid) :
    ∃ j, t.jobs[k]? = some j ∧ j.active = true ∧ pid ∈ j.pids := by
  obtain ⟨j, hj⟩ : ∃ j, t.jobs[k]? = some j := ⟨_, List.getElem?_eq_getElem (lt_of_activeAt h.1)⟩
  exact ⟨j, hj, (answers_of_getElem? hj).mp h⟩

/-! ## One removal -/

/-- **Only the job with the pid is touched.** -/
theorem getElem?_removePidFromJob_of_not (h : ¬t.Answers i pid) :
    (t.removePidFromJob pid).jobs[i]? = t.jobs[i]? := by
  rw [removePidFromJob]
  split
  · rfl
  · rename_i k hk
    have hne : k ≠ i := fun heq => h (heq ▸ (findJobContainingPid_eq_some.mp hk).1)
    rw [getElem?_modify, if_neg hne]

/-- …and it is found. -/
theorem Distinct.getElem?_removePidFromJob (h : t.Distinct) (hans : t.Answers k pid) :
    (t.removePidFromJob pid).jobs[k]? = t.jobs[k]?.map (Job.dropPid pid) := by
  have hfind : t.findJobContainingPid pid = some k :=
    findJobContainingPid_eq_some.mpr
      ⟨hans, fun i hi hans' => Nat.ne_of_lt hi (h.across i k pid hans' hans)⟩
  rw [removePidFromJob, hfind]
  dsimp only
  rw [getElem?_modify, if_pos rfl]

/-- A job without the pid stays as it is: an inactive job has none. -/
theorem keeps_of_not_answers {procs : List Proc} {gone : List Pid} (hj : t.jobs[k]? = some j)
    (hkeeps : j.Keeps procs gone) (hans : ¬t.Answers k pid) : j.Keeps procs (gone ++ [pid]) := by
  obtain ⟨hperm, hactive⟩ := hkeeps
  refine ⟨hperm.trans (List.Perm.of_eq (List.filter_congr fun x hx => ?_)), hactive⟩
  by_cases hgone : x.pid ∈ gone
  · simp [hgone]
  · have hmem : x ∈ j.procs := hperm.symm.subset (List.mem_filter.mpr ⟨hx, by simpa using hgone⟩)
    have hne : x.pid ≠ pid := fun heq => hans ((answers_of_getElem? hj).mpr
      ⟨hactive.mpr (List.ne_nil_of_mem hmem), heq ▸ List.mem_map_of_mem hmem⟩)
    simp [hne]

/-- **One more pid is removed.** -/
theorem Distinct.keeps_step (h : t.Distinct) {procs : List Proc} {gone : List Pid}
    (hj : t.jobs[k]? = some j) (hkeeps : j.Keeps procs gone) :
    ∃ j', (t.removePidFromJob pid).jobs[k]? = some j' ∧ j'.Keeps procs (gone ++ [pid]) := by
  by_cases hans : t.Answers k pid
  · have hactive := ((answers_of_getElem? hj).mp hans).1
    have hnodup := h.within j (List.mem_of_getElem? hj) hactive
    refine ⟨j.dropPid pid, ?_, hkeeps.dropPid hnodup hactive⟩
    rw [h.getElem?_removePidFromJob hans, hj, Option.map_some]
  · refine ⟨j, ?_, keeps_of_not_answers hj hkeeps hans⟩
    rw [getElem?_removePidFromJob_of_not hans, hj]

/-- No slot answers for more than before. -/
theorem answers_of_removePidFromJob (h : (t.removePidFromJob pid).Answers i q) :
    t.Answers i q := by
  have hjobs : (t.reapFinished pid true).jobs = (t.removePidFromJob pid).jobs :=
    jobs_reapFinished true
  exact answers_of_reapFinished
    ((answers_congr (pidsAt_congr hjobs) (activeAt_congr hjobs)).mpr h)

/-- **A removal leaves the pids distinct**, and no active job without one. -/
theorem Distinct.removePidFromJob (h : t.Distinct) : (t.removePidFromJob pid).Distinct := by
  have hjob : ∀ j' ∈ (t.removePidFromJob pid).jobs, j'.active = true →
      j'.procs ≠ [] ∧ j'.pids.Nodup := by
    intro j' hj' hactive'
    obtain ⟨k, hk⟩ := List.mem_iff_getElem?.mp hj'
    by_cases hans : t.Answers k pid
    · obtain ⟨j, hj, hactive, -⟩ := hans.exists_job
      rw [h.getElem?_removePidFromJob hans, hj] at hk
      cases hk
      have hmem := List.mem_of_getElem? hj
      have hkeeps : j.Keeps j.procs [] :=
        ⟨by simp, iff_of_true hactive (h.inhabited j hmem hactive)⟩
      refine ⟨(hkeeps.dropPid (h.within j hmem hactive) hactive).2.mp hactive', ?_⟩
      exact (map_swapErase_perm Proc.pid pid j.procs).nodup_iff.mpr
        ((h.within j hmem hactive).erase pid)
    · rw [getElem?_removePidFromJob_of_not hans] at hk
      have hmem := List.mem_of_getElem? hk
      exact ⟨h.inhabited j' hmem hactive', h.within j' hmem hactive'⟩
  exact ⟨fun j' hj' hactive => (hjob j' hj' hactive).1, fun j' hj' hactive =>
    (hjob j' hj' hactive).2, fun i k q hi hk =>
    h.across i k q (answers_of_removePidFromJob hi) (answers_of_removePidFromJob hk)⟩

/-! ## Any number of them -/

theorem Distinct.removeAll (h : t.Distinct) (pids : List Pid) : (t.removeAll pids).Distinct := by
  induction pids using List.reverseRecOn with
  | nil => exact h
  | append_singleton pids pid ih =>
    rw [removeAll_concat]
    exact ih.removePidFromJob

/-- **A job has the processes that have not been removed.** -/
theorem Distinct.keeps_removeAll (h : t.Distinct) (hj : t.jobs[k]? = some j)
    (hactive : j.active = true) (pids : List Pid) :
    ∃ j', (t.removeAll pids).jobs[k]? = some j' ∧ j'.Keeps j.procs pids := by
  induction pids using List.reverseRecOn with
  | nil =>
    have hne := h.inhabited j (List.mem_of_getElem? hj) hactive
    exact ⟨j, hj, by simp, iff_of_true hactive hne⟩
  | append_singleton pids pid ih =>
    obtain ⟨j', hj', hkeeps⟩ := ih
    rw [removeAll_concat]
    exact (h.removeAll pids).keeps_step hj' hkeeps

/-- **Removals take out what they name and nothing else**: each job that was active has its
processes less those removed, each once, and is active while there are any; and every removal leaves
all other jobs as they are. -/
theorem removeAll_spec (h : t.Distinct) (pids : List Pid) :
    (∀ (k : ℕ) (j : Job), t.jobs[k]? = some j → j.active = true →
        ∃ j', (t.removeAll pids).jobs[k]? = some j' ∧
          j'.procs.Perm (j.procs.filter fun x => x.pid ∉ pids) ∧ j'.pids.Nodup ∧
          (j'.active = true ↔ j'.procs ≠ [])) ∧
      ∀ (pid : Pid) (i : ℕ), ¬(t.removeAll pids).Answers i pid →
        ((t.removeAll pids).removePidFromJob pid).jobs[i]? = (t.removeAll pids).jobs[i]? := by
  refine ⟨fun k j hj hactive => ?_, fun pid i => getElem?_removePidFromJob_of_not⟩
  obtain ⟨j', hj', hperm, hactive'⟩ := h.keeps_removeAll hj hactive pids
  have hnodup : ((j.procs.filter fun x => x.pid ∉ pids).map Proc.pid).Nodup :=
    (h.within j (List.mem_of_getElem? hj) hactive).sublist (List.filter_sublist.map _)
  exact ⟨j', hj', hperm, (hperm.map Proc.pid).nodup_iff.mpr hnodup, hactive'⟩

/-! ## The tables `register_job` makes -/

theorem distinct_of_nil (h : t.jobs = []) : t.Distinct where
  inhabited j hj := absurd hj (by simp [h])
  within j hj := absurd hj (by simp [h])
  across i k pid hi := absurd (lt_of_activeAt hi.1) (by simp [h])

/-- **A new job keeps the pids distinct** if its own are, and no active job has them. -/
theorem Distinct.registerJob (h : t.Distinct) {pgid num : ℕ} {pids : List Pid} {names : List Text}
    {command : Text} {background : Bool}
    (hreg : t.registerJob pgid pids names command background = .ok (num, t'))
    (hlen : names.length = pids.length) (hne : pids ≠ []) (hnodup : pids.Nodup)
    (hnew : ∀ pid ∈ pids, t.findJobContainingPid pid = none) : t'.Distinct := by
  obtain ⟨j₀, hjobs, -, hprocs, -⟩ := jobs_registerJob hreg
  have hpids : j₀.pids = pids := by rw [Job.pids, hprocs, pids_registered hlen]
  have hold : ∀ {i q}, t'.Answers i q → t.Answers i q ∨ i = t.jobs.length ∧ q ∈ pids := by
    intro i q hans
    obtain ⟨j, hj, hactive, hq⟩ := hans.exists_job
    rw [hjobs, List.getElem?_append] at hj
    split at hj
    · exact .inl ((answers_of_getElem? hj).mpr ⟨hactive, hq⟩)
    · rename_i hi
      rw [List.getElem?_singleton] at hj
      split at hj
      · cases hj
        exact .inr ⟨by omega, hpids ▸ hq⟩
      · cases hj
  have hnot : ∀ {i q}, t.Answers i q → q ∉ pids := fun hans hq =>
    findJobContainingPid_eq_none.mp (hnew _ hq) _ hans
  refine ⟨fun j hj hactive => ?_, fun j hj hactive => ?_, fun i k q hi hk => ?_⟩
  · rw [hjobs, List.mem_append, List.mem_singleton] at hj
    rcases hj with hj | rfl
    · exact h.inhabited j hj hactive
    · intro hnil
      rw [Job.pids, hnil] at hpids
      exact hne hpids.symm
  · rw [hjobs, List.mem_append, List.mem_singleton] at hj
    rcases hj with hj | rfl
    · exact h.within j hj hactive
    · exact hpids.symm ▸ hnodup
  · rcases hold hi with hi | ⟨rfl, hq⟩
    · rcases hold hk with hk | ⟨-, hq⟩
      · exact h.across i k q hi hk
      · exact absurd hq (hnot hi)
    · rcases hold hk with hk | ⟨rfl, -⟩
      · exact absurd hq (hnot hk)
      · rfl

/-- `a | b &`, after `a` is removed, and a pid of no job. -/
theorem removeAll_spec_pipe :
    ∃ num t, Console.initial.table.registerJob 2 [2, 3] [['a'], ['b']] [] true = .ok (num, t) ∧
      ∃ j, (t.removeAll [2, 9]).jobs[0]? = some j ∧ j.procs.Perm [⟨3, ['b']⟩] ∧
        j.active = true := by
  obtain ⟨num, t, hreg⟩ : ∃ num t, Console.initial.table.registerJob 2 [2, 3] [['a'], ['b']] []
      true = .ok (num, t) := ⟨_, _, rfl⟩
  have hdistinct := (distinct_of_nil rfl).registerJob hreg rfl (List.cons_ne_nil 2 [3])
    (by decide) (by decide)
  obtain ⟨j₀, hjobs, -, hprocs, hactive₀, -⟩ := jobs_registerJob hreg
  obtain ⟨j, hj, hperm, -, hactive⟩ :=
    (removeAll_spec hdistinct [2, 9]).1 0 j₀ (by rw [hjobs]; rfl) hactive₀
  have hleft : j.procs.Perm [⟨3, ['b']⟩] := by rwa [hprocs] at hperm
  refine ⟨num, t, hreg, j, hj, hleft, hactive.mpr fun hnil => ?_⟩
  rw [hnil] at hleft
  exact List.cons_ne_nil _ _ hleft.nil_eq.symm

end JobTable

end MiniProject.Shell
