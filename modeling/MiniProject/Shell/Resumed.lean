import MiniProject.Shell.Slots

/-!
# Shell/Resumed — what `resume %n fg` leaves behind

The loop of `resuming` counts what it waits for, the handler takes what it waits for out of the
table, and neither looks at what the other has done.  A job whose processes are all gone is put away
only if one of the two has seen them all, and the loop's count is not looked at when there was a
timeout (`resumed_iff`).

Children stop and go on one by one here, as well as by the group.
-/

namespace MiniProject.Shell

namespace Console

variable {s s' : Console} {e : Event} {k : ℕ} {p : Pid}

/-! ## The lists of the table

Every pid was forked for one slot, so it is in one list at most, and once. -/

/-- The slot that `resuming` is at, until it has settled the job. -/
def resumed (s : Console) : Option ℕ :=
  match s.place with
  | .cont k _ | .run k | .say k _ | .grab k _ | .mark k _ | .await k _ _ | .settle k _ _ => some k
  | _ => none

/-- Pids are in one list at most, and once; an active job has some, and the job that `resuming` is
at is active as long as it has. -/
structure Kept (s : Console) : Prop where
  housed : s.Housed
  nodup : ∀ k, (s.table.pidsAt k).Nodup
  apart : ∀ i k p, p ∈ s.table.pidsAt i → p ∈ s.table.pidsAt k → i = k
  known : ∀ k p, p ∈ s.table.pidsAt k → s.children.Knows p
  forked : s.forking → s.names ≠ [] ∧ s.forked.Nodup ∧
    ∀ p ∈ s.forked, s.children.Knows p ∧ ∀ k, p ∉ s.table.pidsAt k
  registered : s.place = .activate →
    s.table.activeAt s.slot = false ∧ s.table.pidsAt s.slot ≠ []
  filled : ∀ k, s.table.activeAt k = true → s.table.pidsAt k ≠ []
  awake : ∀ k, s.resumed = some k →
    k < s.table.jobs.length ∧ (s.table.pidsAt k ≠ [] → s.table.activeAt k = true)

theorem kept_initial : initial.Kept :=
  ⟨housed_initial, fun _ => List.nodup_nil, nofun, nofun, nofun, nofun, nofun, nofun⟩

/-- A step that writes no list, and at most puts a job away. -/
theorem Kept.move (h : s.Kept) (hhoused : s'.Housed)
    (hpids : ∀ k, s'.table.pidsAt k = s.table.pidsAt k)
    (hactive : ∀ k, s'.table.activeAt k = true → s.table.activeAt k = true)
    (hknows : ∀ p, s.children.Knows p → s'.children.Knows p)
    (hforking : s'.forking → s.forking ∧ s'.names = s.names ∧ s'.forked = s.forked)
    (hplace : s'.place = .activate → s.place = .activate ∧ s'.slot = s.slot)
    (hresumed : ∀ k, s'.resumed = some k →
      k < s'.table.jobs.length ∧ (s'.table.pidsAt k ≠ [] → s'.table.activeAt k = true)) :
    s'.Kept where
  housed := hhoused
  nodup k := hpids k ▸ h.nodup k
  apart i k p hi hk := h.apart i k p (hpids i ▸ hi) (hpids k ▸ hk)
  known k p hp := hknows p (h.known k p (hpids k ▸ hp))
  forked hf := by
    obtain ⟨hf, hnames, hforked⟩ := hforking hf
    obtain ⟨hne, hnodup, hall⟩ := h.forked hf
    rw [hnames, hforked]
    exact ⟨hne, hnodup, fun p hp => ⟨hknows p (hall p hp).1, fun k => hpids k ▸ (hall p hp).2 k⟩⟩
  registered hp := by
    obtain ⟨hp, hslot⟩ := hplace hp
    obtain ⟨hoff, hne⟩ := h.registered hp
    rw [hslot, hpids]
    refine ⟨?_, hne⟩
    by_contra hon
    rw [hactive _ (by simpa using hon)] at hoff
    cases hoff
  filled k hk := hpids k ▸ h.filled k (hactive k hk)
  awake := hresumed

/-- …such as one that leaves the jobs and the children alone, -/
theorem Kept.goOn (h : s.Kept) (hhoused : s'.Housed) (hjobs : s'.table.jobs = s.table.jobs)
    (hchildren : s'.children = s.children)
    (hforking : s'.forking → s.forking ∧ s'.names = s.names ∧ s'.forked = s.forked)
    (hplace : s'.place = .activate → s.place = .activate ∧ s'.slot = s.slot)
    (hresumed : ∀ k, s'.resumed = some k →
      k < s.table.jobs.length ∧ (s.table.pidsAt k ≠ [] → s.table.activeAt k = true)) :
    s'.Kept := by
  refine h.move hhoused (fun _ => JobTable.pidsAt_congr hjobs)
    (fun _ hk => (JobTable.activeAt_congr hjobs).symm.trans hk) (fun _ hp => hchildren ▸ hp)
    hforking hplace fun k hk => ?_
  rw [hjobs, JobTable.pidsAt_congr hjobs, JobTable.activeAt_congr hjobs]
  exact hresumed k hk

/-- …or one to where no job is being started, -/
theorem Kept.away (h : s.Kept) (hhoused : s'.Housed) (hjobs : s'.table.jobs = s.table.jobs)
    (hchildren : s'.children = s.children) (hforking : s'.forking = false)
    (hplace : s'.place ≠ .activate)
    (hresumed : ∀ k, s'.resumed = some k →
      k < s.table.jobs.length ∧ (s.table.pidsAt k ≠ [] → s.table.activeAt k = true)) :
    s'.Kept :=
  h.goOn hhoused hjobs hchildren (fun hf => absurd hf (ne_true_of_eq_false hforking))
    (fun hp => absurd hp hplace) hresumed

/-- …or one that puts a job away, if anything, -/
theorem Kept.putsAway (h : s.Kept) (hhoused : s'.Housed) {t : JobTable} {k : ℕ}
    (hjobs : t.jobs = s.table.jobs) (htable : s'.table = t ∨ s'.table = t.setActive k false)
    (hchildren : s'.children = s.children) (hforking : s'.forking = false)
    (hplace : s'.place ≠ .activate) (hresumed : s'.resumed = none) : s'.Kept := by
  refine h.move hhoused (fun i => ?_) (fun i hi => ?_) (fun _ hp => hchildren ▸ hp)
    (fun hf => absurd hf (ne_true_of_eq_false hforking)) (fun hp => absurd hp hplace)
    fun i hi => by cases hresumed.symm.trans hi
  · rcases htable with heq | heq <;> rw [heq]
    · exact JobTable.pidsAt_congr hjobs
    · exact (JobTable.pidsAt_setActive false).trans (JobTable.pidsAt_congr hjobs)
  · rw [← JobTable.activeAt_congr hjobs]
    rcases htable with heq | heq <;> rw [heq] at hi
    · exact hi
    · exact (JobTable.activeAt_of_setActive_false hi).2

/-- …or one that writes the state of a job, -/
theorem Kept.setsState (h : s.Kept) (hhoused : s'.Housed) {k : ℕ} {state : JobState}
    (hjobs : s'.table.jobs = (s.table.setState k state).jobs)
    (hknows : ∀ p, s.children.Knows p → s'.children.Knows p) (hforking : s'.forking = false)
    (hplace : s'.place ≠ .activate)
    (hresumed : ∀ i, s'.resumed = some i →
      i < s.table.jobs.length ∧ (s.table.pidsAt i ≠ [] → s.table.activeAt i = true)) :
    s'.Kept := by
  refine h.move hhoused (fun i => ?_) (fun i hi => ?_) hknows
    (fun hf => absurd hf (ne_true_of_eq_false hforking)) (fun hp => absurd hp hplace) fun i hi => ?_
  · rw [JobTable.pidsAt_congr hjobs, JobTable.pidsAt_setState]
  · rwa [JobTable.activeAt_congr hjobs, JobTable.activeAt_setState] at hi
  · rw [JobTable.pidsAt_congr hjobs, JobTable.activeAt_congr hjobs, hjobs,
      JobTable.length_jobs_setState, JobTable.pidsAt_setState, JobTable.activeAt_setState]
    exact hresumed i hi

/-- …or leaves the shell where it is. -/
theorem Kept.stay (h : s.Kept) (hhoused : s'.Housed) (htable : s'.table = s.table)
    (hknows : ∀ p, s.children.Knows p → s'.children.Knows p) (hplace : s'.place = s.place)
    (hslot : s'.slot = s.slot) (hnames : s'.names = s.names) (hforked : s'.forked = s.forked) :
    s'.Kept := by
  refine h.move hhoused (fun k => by rw [htable]) (fun k hk => htable ▸ hk) hknows (fun hf => ?_)
    (fun hp => ⟨hplace ▸ hp, hslot⟩) fun k hk => ?_
  · rw [forking, hplace] at hf
    exact ⟨hf, hnames, hforked⟩
  · rw [resumed, hplace] at hk
    rw [htable]
    exact h.awake k hk

/-- `register_job` lists the stages, which are in no list. -/
theorem Kept.fill (h : s.Kept) (hplace : s.place = .fill) {table : JobTable}
    (hfill : s.table.fillSlot (s.forked.headD 0) s.forked s.names s.command s.background =
      .ok table) : Kept { s with table, place := .activate } := by
  have hplaced := h.housed.placed
  simp only [Placed, hplace] at hplaced
  obtain ⟨hslot, -, hfull⟩ := hplaced
  obtain ⟨hne, hnodup, hall⟩ := h.forked (by rw [forking, hplace])
  have hnew : table.pidsAt s.slot = s.forked := by
    rw [hslot]
    exact JobTable.pidsAt_fillSlot hfill hfull.symm
  have hold : ∀ k, k ≠ s.slot → table.pidsAt k = s.table.pidsAt k := fun k hk =>
    JobTable.pidsAt_fillSlot_of_ne hfill (hslot ▸ hk)
  have hactive : ∀ k, table.activeAt k = s.table.activeAt k := fun k =>
    JobTable.activeAt_fillSlot hfill
  have hoff : s.table.activeAt s.slot = false :=
    JobTable.activeAt_of_length_le (Nat.le_of_eq hslot.symm)
  refine ⟨h.housed.fill hplace hfill, fun k => ?_, fun i k p hi hk => ?_, fun k p hp => ?_,
    by simp [forking], fun _ => ⟨(hactive _).trans hoff, ?_⟩, fun k hk => ?_, by simp [resumed]⟩
  · change (table.pidsAt k).Nodup
    by_cases hk : k = s.slot
    · rw [hk, hnew]
      exact hnodup
    · rw [hold k hk]
      exact h.nodup k
  · change p ∈ table.pidsAt i at hi
    change p ∈ table.pidsAt k at hk
    by_cases his : i = s.slot <;> by_cases hks : k = s.slot
    · rw [his, hks]
    · rw [his, hnew] at hi
      exact absurd (hold k hks ▸ hk) ((hall p hi).2 k)
    · rw [hks, hnew] at hk
      exact absurd (hold i his ▸ hi) ((hall p hk).2 i)
    · exact h.apart i k p (hold i his ▸ hi) (hold k hks ▸ hk)
  · change p ∈ table.pidsAt k at hp
    by_cases hk : k = s.slot
    · rw [hk, hnew] at hp
      exact (hall p hp).1
    · exact h.known k p (hold k hk ▸ hp)
  · change table.pidsAt s.slot ≠ []
    rw [hnew, ne_eq, ← List.length_eq_zero_iff, hfull, List.length_eq_zero_iff]
    exact hne
  · change table.activeAt k = true at hk
    change table.pidsAt k ≠ []
    rw [hactive] at hk
    rw [hold k (by rintro rfl; rw [hoff] at hk; cases hk)]
    exact h.filled k hk

/-- …and the job is active from then on. -/
theorem Kept.activate (h : s.Kept) (hplace : s.place = .activate) {place : Place}
    (hback : place = .announce ∨ place = .lookup)
    (hhoused : Housed { s with table := s.table.setActive s.slot true, place }) :
    Kept { s with table := s.table.setActive s.slot true, place } := by
  obtain ⟨-, hne⟩ := h.registered hplace
  have hpids : ∀ k, (s.table.setActive s.slot true).pidsAt k = s.table.pidsAt k := fun k =>
    JobTable.pidsAt_setActive true
  refine ⟨hhoused, fun k => hpids k ▸ h.nodup k, fun i k p hi hk => ?_, fun k p hp => ?_,
    fun hf => ?_, fun hp => ?_, fun k hk => ?_, fun k hk => ?_⟩
  · exact h.apart i k p (hpids i ▸ hi) (hpids k ▸ hk)
  · exact h.known k p (hpids k ▸ hp)
  · rcases hback with rfl | rfl <;> cases hf
  · rcases hback with rfl | rfl <;> cases hp
  · change (s.table.setActive s.slot true).pidsAt k ≠ []
    rw [hpids]
    by_cases hks : k = s.slot
    · rw [hks]
      exact hne
    · refine h.filled k ?_
      rw [← JobTable.activeAt_setActive_of_ne true hks]
      exact hk
  · rcases hback with rfl | rfl <;> cases hk

theorem kept_main (h : s.Kept) (hstep : s.main = some s') : s'.Kept := by
  have hhoused := housed_main h.housed hstep
  have hawake := h.awake
  rw [main] at hstep
  split at hstep <;> rename_i hplace <;> simp only [resumed, hplace] at hawake
  case h_2 => -- `.fork`
    obtain ⟨-, hstep⟩ := Option.ite_none_left_eq_some.mp hstep
    cases hstep
    exact h.goOn hhoused rfl rfl (fun _ => ⟨by rw [forking, hplace], rfl, rfl⟩) (by simp)
      (by simp [resumed])
  case h_3 => -- `.fill`
    split at hstep <;> cases hstep
    · exact h.away hhoused rfl rfl rfl (by simp) (by simp [resumed])
    · rename_i hfill
      exact h.fill hplace hfill
  case h_4 => -- `.activate`
    cases hstep
    exact h.activate hplace (by split <;> simp) hhoused
  case h_10 => -- `.leave`
    split at hstep <;> cases hstep
    · exact h.away hhoused rfl rfl rfl (by simp) (by simp [resumed])
    · exact h.putsAway hhoused rfl (ite_eq_or_eq _ _ _) rfl rfl (by simp) rfl
  case h_13 k how => -- `.cont`
    cases hstep
    refine h.move hhoused (fun _ => rfl) (fun _ hk => hk)
      (fun _ hp => (Children.knows_signal).mpr hp) ?_ ?_ ?_ <;> cases how
    · simp [forking]
    · simp [forking]
    · simp
    · simp
    · exact hawake
    · exact hawake
  case h_14 k => -- `.run`
    cases hstep
    exact h.setsState hhoused rfl (fun _ hp => hp) rfl (by simp) (by simp [resumed])
  case h_15 | h_16 => -- `.say` and `.grab`
    cases hstep
    exact h.away hhoused rfl rfl rfl (by simp) hawake
  case h_17 k timeout => -- `.mark`
    cases hstep
    exact h.setsState hhoused rfl (fun _ hp => hp) rfl (by simp) hawake
  case h_18 => -- `.await`
    obtain ⟨-, hstep⟩ := Option.ite_none_right_eq_some.mp hstep
    cases hstep
    exact h.away hhoused rfl rfl rfl (by simp) hawake
  case h_19 => -- `.settle`
    cases hstep
    exact h.putsAway hhoused rfl (ite_eq_or_eq _ _ _).symm rfl rfl (by simp) rfl
  case h_20 => -- `.expired`
    cases hstep
    exact h.putsAway hhoused (JobTable.jobs_print timedOut) (.inr rfl) rfl rfl (by simp)
      rfl
  case h_1 => -- `.prompt`
    cases hstep
    exact h.goOn hhoused rfl rfl (fun hf => by simp [forking, hplace] at hf)
      (fun hp => by simp [hplace] at hp) (fun _ hk => by simp [resumed, hplace] at hk)
  case h_8 => -- `.wait`
    obtain ⟨-, hstep⟩ := Option.ite_none_right_eq_some.mp hstep
    cases hstep
    exact h.away hhoused rfl rfl rfl (by simp) (by simp [resumed])
  case h_22 => cases hstep
  all_goals
    cases hstep
    exact h.away hhoused rfl rfl rfl (by simp) (by simp [resumed])

/-- The handler takes a pid out of the list it is in, if the job is active. -/
theorem Kept.reaps (h : s.Kept) {normal : Bool} (hp : p ∈ s.children.pids)
    (hhoused : Housed { s with
      children := s.children.reap p hp, table := s.table.reapFinished p normal }) :
    Kept { s with children := s.children.reap p hp, table := s.table.reapFinished p normal } := by
  have hsub : ∀ k q, q ∈ (s.table.reapFinished p normal).pidsAt k → q ∈ s.table.pidsAt k := by
    intro k q hq
    by_cases hk : s.table.findJobContainingPid p = some k
    · exact List.mem_of_mem_erase ((JobTable.pidsAt_reapFinished hk).subset hq)
    · rwa [JobTable.pidsAt_reapFinished_of_ne hk] at hq
  have hknows : ∀ q, s.children.Knows q → (s.children.reap p hp).Knows q :=
    fun q hq => Children.knows_reap.mpr hq
  refine ⟨hhoused, fun k => ?_, fun i k q hi hk => h.apart i k q (hsub i q hi) (hsub k q hk),
    fun k q hq => hknows q (h.known k q (hsub k q hq)), fun hf => ?_, fun hplace => ?_,
    fun k hk => ?_, fun k hk => ⟨?_, fun hne => ?_⟩⟩
  · change ((s.table.reapFinished p normal).pidsAt k).Nodup
    by_cases hk : s.table.findJobContainingPid p = some k
    · exact (JobTable.pidsAt_reapFinished hk).nodup_iff.mpr ((h.nodup k).erase p)
    · rw [JobTable.pidsAt_reapFinished_of_ne hk]
      exact h.nodup k
  · obtain ⟨hne, hnodup, hall⟩ := h.forked hf
    exact ⟨hne, hnodup, fun q hq => ⟨hknows q (hall q hq).1, fun k hk =>
      (hall q hq).2 k (hsub k q hk)⟩⟩
  · obtain ⟨hoff, hne⟩ := h.registered hplace
    have hother : s.table.findJobContainingPid p ≠ some s.slot := fun hfind => by
      have hans := (JobTable.findJobContainingPid_eq_some.mp hfind).1
      rw [hans.1] at hoff
      cases hoff
    exact ⟨(JobTable.activeAt_reapFinished_of_ne hother).trans hoff,
      (JobTable.pidsAt_reapFinished_of_ne hother).symm ▸ hne⟩
  · change (s.table.reapFinished p normal).activeAt k = true at hk
    change (s.table.reapFinished p normal).pidsAt k ≠ []
    by_cases hfind : s.table.findJobContainingPid p = some k
    · exact (JobTable.activeAt_reapFinished hfind).mp hk
    · rw [JobTable.activeAt_reapFinished_of_ne hfind] at hk
      rw [JobTable.pidsAt_reapFinished_of_ne hfind]
      exact h.filled k hk
  · exact JobTable.length_jobs_reapFinished.symm ▸ (h.awake k hk).1
  · change (s.table.reapFinished p normal).pidsAt k ≠ [] at hne
    change (s.table.reapFinished p normal).activeAt k = true
    by_cases hfind : s.table.findJobContainingPid p = some k
    · exact (JobTable.activeAt_reapFinished hfind).mpr hne
    · rw [JobTable.pidsAt_reapFinished_of_ne hfind] at hne
      rw [JobTable.activeAt_reapFinished_of_ne hfind]
      exact (h.awake k hk).2 hne

/-- A new stage is in no list. -/
theorem Kept.fork (h : s.Kept) (hplace : s.place = .fork)
    (hfresh : p ∉ s.children.pids ++ s.children.reaped) (hhoused : Housed { s with
      children := s.children.fork p s.slot hfresh, forked := s.forked ++ [p] }) :
    Kept { s with children := s.children.fork p s.slot hfresh, forked := s.forked ++ [p] } := by
  have hforking : s.forking := by rw [forking, hplace]
  obtain ⟨hne, hnodup, hall⟩ := h.forked hforking
  have hnot : ¬ s.children.Knows p := fun hp => hp.ne_of_not_mem hfresh rfl
  refine ⟨hhoused, h.nodup, h.apart, fun k q hq => (h.known k q hq).fork (h := hfresh),
    fun _ => ⟨hne, ?_, ?_⟩, fun hp => by simp [hplace] at hp, h.filled,
    fun k hk => by simp [resumed, hplace] at hk⟩
  · refine List.nodup_append'.mpr ⟨hnodup, List.nodup_singleton p, fun q hq hmem => ?_⟩
    rw [List.mem_singleton.mp hmem] at hq
    exact hnot (hall p hq).1
  · intro q hq
    rcases List.mem_append.mp hq with hq | hq
    · exact ⟨(hall q hq).1.fork (h := hfresh), (hall q hq).2⟩
    · rw [List.mem_singleton.mp hq]
      exact ⟨.inl ((Children.mem_pids_fork (h := hfresh)).mpr (.inr rfl)),
        fun k hk => hnot (h.known k p hk)⟩

/-- **The lists stay apart.** -/
theorem kept_step (h : s.Kept) (hstep : s.step e = some s') : s'.Kept := by
  have hhoused := housed_step h.housed hstep
  have hawake := h.awake
  rw [resumed] at hawake
  cases moves_of_step hstep with
  | main hmain => exact kept_main h hmain
  | idle => exact h
  | @launch names command background hplace =>
    obtain ⟨-, hstep⟩ := Option.ite_none_left_eq_some.mp hstep
    obtain ⟨⟨-, hne⟩, -⟩ := Option.ite_none_right_eq_some.mp hstep
    have hjobs : (if background then s.table else
        { s.table with fgRunning := true } : JobTable).jobs = s.table.jobs := by split <;> rfl
    refine ⟨hhoused, fun k => ?_, fun i k p hi hk => ?_, fun k p hp => ?_,
      fun _ => ⟨hne, List.nodup_nil, by simp⟩, by simp, fun k hk => ?_, by simp [resumed]⟩
    all_goals simp only [JobTable.pidsAt, JobTable.activeAt, hjobs] at *
    · exact h.nodup k
    · exact h.apart i k p hi hk
    · exact h.known k p hp
    · exact h.filled k hk
  | @resume num how k hplace hfind =>
    refine h.away hhoused rfl rfl rfl (by simp) ?_
    rintro i ⟨⟩
    have hactive := JobTable.activeAt_of_findJobByNumber hfind
    exact ⟨JobTable.lt_of_activeAt hactive, fun _ => hactive⟩
  | ping | ctrlZ =>
    exact h.stay hhoused rfl (fun _ hp => Children.knows_signal.mpr hp) rfl rfl rfl rfl
  | fork hplace hlt hfresh => exact h.fork hplace hfresh hhoused
  | exits =>
    exact h.stay hhoused rfl (fun _ hp => (Children.knows_setPhase _).mpr hp) rfl rfl rfl rfl
  | signal | handled => exact h.stay hhoused rfl (fun _ hp => hp) rfl rfl rfl rfl
  | reaps hphase hp => exact h.reaps hp hhoused
  | collect hplace hp =>
    exact h.move hhoused (fun _ => rfl) (fun _ hk => hk)
      (fun _ hq => (Children.knows_reap (h := hp.mem_pids)).mpr hq) (by simp [forking])
      (by simp) (by simp [resumed])
  | collectResumed hplace hp =>
    simp only [hplace] at hawake
    exact h.move hhoused (fun _ => rfl) (fun _ hk => hk)
      (fun _ hq => (Children.knows_reap (h := hp.mem_pids)).mpr hq) (by simp [forking])
      (by simp) hawake
  | @noticeStop p remaining hplace =>
    have hknows : ∀ q, s.children.Knows q → (s.children.setPhase p (.stopped true)).Knows q :=
      fun _ hq => (Children.knows_setPhase _).mpr hq
    cases hjob : s.job with
    | none =>
      simp only [hjob] at hhoused ⊢
      exact h.move hhoused (fun _ => rfl) (fun _ hk => hk) hknows (by simp [forking]) (by simp)
        (by simp [resumed])
    | some k =>
      simp only [hjob] at hhoused ⊢
      exact h.setsState hhoused rfl hknows rfl (by simp) (by simp [resumed])
  | noticeStopResumed hplace =>
    simp only [hplace] at hawake
    exact h.setsState hhoused rfl (fun _ hq => (Children.knows_setPhase _).mpr hq) rfl (by simp)
      hawake
  | noChild hplace =>
    exact h.away hhoused rfl rfl rfl (by simp) (by simp [resumed])
  | noChildResumed hplace =>
    simp only [hplace] at hawake
    exact h.away hhoused rfl rfl rfl (by simp) hawake
  | timeout hplace =>
    exact h.away hhoused rfl rfl rfl (by simp) (by simp [resumed])

end Console

/-! ## The session, watched -/

/-- A step of the session, or a child that stops or goes on by itself. -/
inductive Happening
  | shell (e : Console.Event)
  | stops (p : Pid)
  | goesOn (p : Pid)
  deriving DecidableEq, Repr

/-- The session, and the jobs that `resuming` has sent `SIGTERM`. -/
structure Watched where
  shell : Console
  terms : List ℕ

namespace Watched

/-- The shell when it starts. -/
def initial : Watched := ⟨Console.initial, []⟩

/-- `kill(-j->pgid, SIGTERM)` comes with the step from `.expired`. -/
def termsAfter (w : Watched) : Console.Event → List ℕ
  | .main =>
    match w.shell.place with
    | .expired k => w.terms ++ [k]
    | _ => w.terms
  | _ => w.terms

/-- What happens next. -/
def step (w : Watched) : Happening → Option Watched
  | .shell e => (w.shell.step e).map fun s => ⟨s, w.termsAfter e⟩
  | .stops p =>
    match w.shell.children.phase? p with
    | some .running =>
      some { w with shell := { w.shell with
        children := w.shell.children.setPhase p (.stopped false), pending := true } }
    | _ => none
  | .goesOn p =>
    match w.shell.children.phase? p with
    | some (.stopped _) =>
      some { w with shell := { w.shell with
        children := w.shell.children.setPhase p .running, pending := true } }
    | _ => none

variable {w w' : Watched} {l : Happening} {k timeout : ℕ}

/-- A step of the session, or a child in another phase. -/
theorem step_cases (h : w.step l = some w') :
    (∃ e s, l = .shell e ∧ w.shell.step e = some s ∧ w' = ⟨s, w.termsAfter e⟩) ∨
    ∃ p phase, (l = .stops p ∨ l = .goesOn p) ∧
      w' = { w with shell := { w.shell with
        children := w.shell.children.setPhase p phase, pending := true } } := by
  cases l with
  | shell e =>
    obtain ⟨s, hs, rfl⟩ := Option.map_eq_some_iff.mp h
    exact .inl ⟨e, s, rfl, hs, rfl⟩
  | stops p =>
    rw [step] at h
    split at h
    · cases h
      exact .inr ⟨p, _, .inl rfl, rfl⟩
    · cases h
  | goesOn p =>
    rw [step] at h
    split at h
    · cases h
      exact .inr ⟨p, _, .inr rfl, rfl⟩
    · cases h

theorem kept_setPhase {s : Console} (h : s.Kept) (p : Pid) (phase : Phase) :
    Console.Kept { s with children := s.children.setPhase p phase, pending := true } := by
  have hhoused : Console.Housed
      { s with children := s.children.setPhase p phase, pending := true } :=
    h.housed.stay h.housed.serial rfl rfl rfl rfl rfl rfl rfl id
      (fun _ _ hp => (Children.inGroup_setPhase _).mp hp) fun _ _ _ hp => hp
  exact h.stay hhoused rfl (fun _ hp => (Children.knows_setPhase _).mpr hp) rfl rfl rfl rfl

theorem kept_step (h : w.shell.Kept) (hstep : w.step l = some w') : w'.shell.Kept := by
  obtain ⟨e, s, -, hs, rfl⟩ | ⟨p, phase, -, rfl⟩ := step_cases hstep
  · exact Console.kept_step h hs
  · exact kept_setPhase h p phase

end Watched

/-- What was seen of a job while it was waited for: whom the loop collected, whom the handler took
out, whether the loop saw a stop, and whether the time ran out. -/
structure Seen where
  collected : List Pid
  taken : List Pid
  stopped : Bool
  timedOut : Bool

namespace Seen

/-- One more thing that happened. -/
def add (seen : Seen) : Happening → Seen
  | .shell (.collect p) => { seen with collected := seen.collected ++ [p] }
  | .shell (.reaps p) => { seen with taken := seen.taken ++ [p] }
  | .shell (.noticeStop _) => { seen with stopped := true }
  | .shell .timeout => { seen with timedOut := true }
  | _ => seen

/-- Everything that happened. -/
def all (ls : List Happening) : Seen := ls.foldl add ⟨[], [], false, false⟩

theorem all_concat (ls : List Happening) (l : Happening) : all (ls ++ [l]) = (all ls).add l := by
  rw [all, List.foldl_append]
  rfl

/-- Those of a list whom the loop has not collected. -/
def missed (seen : Seen) (pids : List Pid) : List Pid :=
  pids.filter fun p => p ∉ seen.collected

theorem missed_eq_nil_iff {seen : Seen} {pids : List Pid} :
    seen.missed pids = [] ↔ ∀ p ∈ pids, p ∈ seen.collected := by
  simp [missed]

/-- One of them collected is one less. -/
theorem length_missed_collect {seen : Seen} {pids : List Pid} {p : Pid} (hnodup : pids.Nodup)
    (hp : p ∈ pids) (hnew : p ∉ seen.collected) :
    ((seen.add (.shell (.collect p))).missed pids).length + 1 = (seen.missed pids).length := by
  have herase : (seen.add (.shell (.collect p))).missed pids = (seen.missed pids).erase p := by
    rw [missed, missed, List.Nodup.erase_eq_filter (hnodup.filter _), List.filter_filter]
    refine List.filter_congr fun q _ => ?_
    rw [Bool.eq_iff_iff]
    simp [add, and_comm]
  have hmem : p ∈ seen.missed pids := List.mem_filter.mpr ⟨hp, by simpa using hnew⟩
  rw [herase, List.length_erase_of_mem hmem]
  have hpos := List.length_pos_of_mem hmem
  omega

end Seen

/-! ## The wait

`pids` is the list when the loop begins. -/

namespace JobTable

/-- The list holds what the handler has not taken out, and the job is active while there is
something in it. -/
structure Tracked (t : JobTable) (k : ℕ) (pids : List Pid) (seen : Seen) : Prop where
  listed : ∀ p, p ∈ t.pidsAt k ↔ p ∈ pids ∧ p ∉ seen.taken
  active : t.pidsAt k ≠ [] → t.activeAt k = true

/-- How the job is left where the time has not run out. -/
structure Left (t : JobTable) (k timeout : ℕ) (pids : List Pid) (seen : Seen) : Prop where
  state : seen.stopped = true → t.stateAt k = some .stopped
  done : timeout = 0 ∧ seen.missed pids = [] → t.activeAt k = false
  tracked : ¬ (timeout = 0 ∧ seen.missed pids = []) → t.Tracked k pids seen

variable {t : JobTable} {k timeout : ℕ} {p : Pid} {pids : List Pid} {seen : Seen} {normal : Bool}

/-- The handler takes out the pid it has waited for, and no other. -/
theorem Tracked.reapFinished (h : t.Tracked k pids seen) (hnodup : (t.pidsAt k).Nodup)
    (hapart : ∀ i, p ∈ t.pidsAt i → p ∈ t.pidsAt k → i = k) :
    (t.reapFinished p normal).Tracked k pids (seen.add (.shell (.reaps p))) := by
  by_cases hp : p ∈ t.pidsAt k
  · have hfind : t.findJobContainingPid p = some k := by
      refine findJobContainingPid_eq_some.mpr
        ⟨⟨h.active (List.ne_nil_of_mem hp), hp⟩, fun i hi hans => ?_⟩
      exact absurd (hapart i hans.2 hp) (Nat.ne_of_lt hi)
    refine ⟨fun q => ?_, (activeAt_reapFinished hfind).mpr⟩
    rw [(pidsAt_reapFinished hfind).mem_iff, hnodup.mem_erase_iff, h.listed]
    simp only [Seen.add, List.mem_append, List.mem_singleton, not_or]
    tauto
  · have hfind : t.findJobContainingPid p ≠ some k := fun hfind =>
      hp (findJobContainingPid_eq_some.mp hfind).1.2
    refine ⟨fun q => ?_, ?_⟩
    · rw [pidsAt_reapFinished_of_ne hfind, h.listed]
      simp only [Seen.add, List.mem_append, List.mem_singleton, not_or]
      refine and_congr_right fun hq => (and_iff_left_of_imp ?_).symm
      rintro hnot rfl
      exact hp ((h.listed q).mpr ⟨hq, hnot⟩)
    · rw [pidsAt_reapFinished_of_ne hfind, activeAt_reapFinished_of_ne hfind]
      exact h.active

end JobTable

namespace Watched

variable {w w' : Watched} {l : Happening} {k timeout : ℕ} {pids : List Pid} {seen : Seen}
  {terms : List ℕ}

/-- Where `resuming` is and what that means; `terms` is whom it had sent `SIGTERM` before, and
`terms'` whom it has sent it now. -/
def Stage (k timeout : ℕ) (pids : List Pid) (terms : List ℕ) (seen : Seen) (table : JobTable)
    (terms' : List ℕ) : Place → Prop
  | .await i t remaining =>
    (i = k ∧ t = timeout ∧ remaining = (seen.missed pids).length) ∧ seen.stopped = false ∧
      seen.timedOut = false ∧ terms' = terms ∧ table.Tracked k pids seen
  | .settle i t remaining =>
    (i = k ∧ t = timeout ∧ remaining = (seen.missed pids).length) ∧
      (seen.stopped = true → table.stateAt k = some .stopped) ∧
      seen.timedOut = false ∧ terms' = terms ∧ table.Tracked k pids seen
  | .expired i => i = k ∧ seen.timedOut = true ∧ terms' = terms
  | .release _ | .prompt =>
    (seen.timedOut = true → table.activeAt k = false ∧ terms' = terms ++ [k]) ∧
      (seen.timedOut = false → terms' = terms ∧ table.Left k timeout pids seen)
  | _ => False

/-- Nobody comes into the list, and whom the loop has collected is reaped. -/
structure Waits (w : Watched) (k timeout : ℕ) (pids : List Pid) (terms : List ℕ) (seen : Seen) :
    Prop where
  kept : w.shell.Kept
  room : k < w.shell.table.jobs.length
  nodup : pids.Nodup
  sub : ∀ p ∈ w.shell.table.pidsAt k, p ∈ pids
  gone : ∀ p ∈ seen.collected, p ∈ w.shell.children.reaped
  stage : Stage k timeout pids terms seen w.shell.table w.terms w.shell.place

/-- A step that the loop and the handler do not see. -/
theorem Waits.stay (h : w.Waits k timeout pids terms seen) (hkept : w'.shell.Kept)
    (htable : w'.shell.table = w.shell.table)
    (hreaped : w'.shell.children.reaped = w.shell.children.reaped)
    (hplace : w'.shell.place = w.shell.place) (hterms : w'.terms = w.terms) :
    w'.Waits k timeout pids terms seen := by
  refine ⟨hkept, htable ▸ h.room, h.nodup, htable ▸ h.sub, hreaped ▸ h.gone, ?_⟩
  rw [htable, hterms, hplace]
  exact h.stage

/-- The loop ends, the job is put away or not, and the shell takes the terminal back. -/
theorem Waits.main {s : Console} (h : w.Waits k timeout pids terms seen)
    (hplace : w.shell.place ≠ .prompt) (hmain : w.shell.main = some s) (hkept : s.Kept) :
    Waits ⟨s, w.termsAfter .main⟩ k timeout pids terms seen := by
  have hstage := h.stage
  rw [termsAfter]
  rw [Console.main] at hmain
  split at hmain <;> rename_i hw <;> rw [hw] at hstage <;> try exact hstage.elim
  case h_1 => exact absurd hw hplace
  case h_18 i t remaining => -- `.await`
    obtain ⟨hr, hmain⟩ := Option.ite_none_right_eq_some.mp hmain
    cases hmain
    obtain ⟨⟨rfl, rfl, hlen⟩, hstop, hrest⟩ := hstage
    refine ⟨hkept, h.room, h.nodup, h.sub, h.gone, ?_⟩
    rw [hw]
    exact ⟨⟨rfl, rfl, hr ▸ hlen⟩, fun hs => absurd (hstop.symm.trans hs) Bool.false_ne_true, hrest⟩
  case h_19 i t remaining => -- `.settle`
    cases hmain
    obtain ⟨⟨rfl, rfl, hlen⟩, hstate, htime, hterms, htracked⟩ := hstage
    have hdone : (t = 0 ∧ remaining = 0) ↔ (t = 0 ∧ seen.missed pids = []) := by
      rw [hlen, List.length_eq_zero_iff]
    rw [hw]
    by_cases hr : t = 0 ∧ remaining = 0
    · simp only [if_pos hr] at hkept ⊢
      refine ⟨hkept, ?_, h.nodup, fun p hp => h.sub p ?_, h.gone, fun hout => ?_,
        fun _ => ⟨hterms, fun hs => ?_, fun _ => ?_, fun hnot => absurd (hdone.mp hr) hnot⟩⟩
      · exact (JobTable.length_jobs_setActive false).symm ▸ h.room
      · exact (JobTable.pidsAt_setActive false).subst hp
      · cases htime.symm.trans hout
      · exact (JobTable.stateAt_setActive false).trans (hstate hs)
      · exact JobTable.activeAt_setActive false h.room
    · simp only [if_neg hr] at hkept ⊢
      refine ⟨hkept, h.room, h.nodup, h.sub, h.gone, fun hout => ?_,
        fun _ => ⟨hterms, hstate, fun hyes => absurd (hdone.mpr hyes) hr, fun _ => htracked⟩⟩
      cases htime.symm.trans hout
  case h_20 i => -- `.expired`
    cases hmain
    obtain ⟨rfl, htime, hterms⟩ := hstage
    rw [hw]
    refine ⟨hkept, ?_, h.nodup, fun p hp => h.sub p ?_, h.gone, fun _ => ⟨?_, ?_⟩, fun hout => ?_⟩
    · exact (JobTable.length_jobs_setActive false).symm ▸ h.room
    · exact (JobTable.pidsAt_setActive false).subst hp
    · exact JobTable.activeAt_setActive false h.room
    · exact congrArg (· ++ [i]) hterms
    · cases htime.symm.trans hout
  case h_21 => -- `.release`
    cases hmain
    rw [hw]
    exact ⟨hkept, h.room, h.nodup, h.sub, h.gone, hstage⟩

/-- The handler takes out a process. -/
theorem Waits.reaps (h : w.Waits k timeout pids terms seen) {p : Pid} {normal : Bool}
    (hp : p ∈ w.shell.children.pids) (hkept : Console.Kept { w.shell with
      children := w.shell.children.reap p hp, table := w.shell.table.reapFinished p normal }) :
    Waits ⟨{ w.shell with
      children := w.shell.children.reap p hp, table := w.shell.table.reapFinished p normal },
      w.terms⟩ k timeout pids terms (seen.add (.shell (.reaps p))) := by
  have hoff : w.shell.table.activeAt k = false →
      (w.shell.table.reapFinished p normal).activeAt k = false := fun hoff => by
    by_contra hon
    rw [JobTable.activeAt_of_reapFinished (by simpa using hon)] at hoff
    cases hoff
  have htracked : w.shell.table.Tracked k pids seen →
      (w.shell.table.reapFinished p normal).Tracked k pids (seen.add (.shell (.reaps p))) :=
    fun ht => ht.reapFinished (h.kept.nodup k) fun i hi hk => h.kept.apart i k p hi hk
  have hstage := h.stage
  refine ⟨hkept, ?_, h.nodup, fun q hq => h.sub q ?_, fun q hq => ?_, ?_⟩
  · exact JobTable.length_jobs_reapFinished.symm ▸ h.room
  · by_cases hfind : w.shell.table.findJobContainingPid p = some k
    · exact List.mem_of_mem_erase ((JobTable.pidsAt_reapFinished hfind).subset hq)
    · exact (JobTable.pidsAt_reapFinished_of_ne hfind).subst hq
  · exact List.mem_append_left _ (h.gone q hq)
  · dsimp only
    cases hw : w.shell.place <;> rw [hw] at hstage <;> try exact hstage.elim
    case await =>
      obtain ⟨hat, hstop, htime, hterms, ht⟩ := hstage
      exact ⟨hat, hstop, htime, hterms, htracked ht⟩
    case settle =>
      obtain ⟨hat, hstate, htime, hterms, ht⟩ := hstage
      exact ⟨hat, fun hs => JobTable.stateAt_reapFinished.trans (hstate hs), htime, hterms,
        htracked ht⟩
    case expired => exact hstage
    all_goals
      obtain ⟨hout, hin⟩ := hstage
      refine ⟨fun ht => (hout ht).imp_left hoff, fun ht => ?_⟩
      obtain ⟨hterms, hleft⟩ := hin ht
      exact ⟨hterms, fun hs => JobTable.stateAt_reapFinished.trans (hleft.state hs),
        fun hd => hoff (hleft.done hd), fun hd => htracked (hleft.tracked hd)⟩

/-- The loop collects a process, which is in the list, and not for the second time. -/
theorem Waits.collect (h : w.Waits k timeout pids terms seen) {p : Pid} {remaining : ℕ}
    (hw : w.shell.place = .await k timeout (remaining + 1)) (hp : w.shell.children.InGroup p k)
    (hkept : Console.Kept { w.shell with
      children := w.shell.children.reap p hp.mem_pids, place := .await k timeout remaining }) :
    Waits ⟨{ w.shell with
      children := w.shell.children.reap p hp.mem_pids, place := .await k timeout remaining },
      w.terms⟩ k timeout pids terms (seen.add (.shell (.collect p))) := by
  have hstage := h.stage
  rw [hw] at hstage
  obtain ⟨⟨-, -, hlen⟩, hstop, htime, hterms, ht⟩ := hstage
  have hin : p ∈ pids := h.sub p (h.kept.housed.listed k h.room p hp)
  have hnew : p ∉ seen.collected := fun hc =>
    Children.not_mem_reaped hp.mem_pids (h.gone p hc)
  have hless := Seen.length_missed_collect h.nodup hin hnew
  refine ⟨hkept, h.room, h.nodup, h.sub, fun q hq => ?_, ⟨rfl, rfl, by omega⟩, hstop, htime, hterms,
    ht.listed, ht.active⟩
  rcases List.mem_append.mp hq with hq | hq
  · exact List.mem_append_left _ (h.gone q hq)
  · exact List.mem_append_right _ hq

/-- **The wait, step by step.** -/
theorem waits_step (h : w.Waits k timeout pids terms seen) (hplace : w.shell.place ≠ .prompt)
    (hstep : w.step l = some w') : w'.Waits k timeout pids terms (seen.add l) := by
  have hkept := kept_step h.kept hstep
  obtain ⟨e, s, rfl, hs, rfl⟩ | ⟨p, phase, hl, rfl⟩ := step_cases hstep
  · have hstage := h.stage
    cases Console.moves_of_step hs with
    | main hmain => exact h.main hplace hmain hkept
    | idle he => cases e <;> first | exact h | cases he
    | launch hw | resume hw | ping hw => exact absurd hw hplace
    | fork hw | collect hw | noticeStop hw | noChild hw =>
      rw [hw] at hstage
      exact hstage.elim
    | ctrlZ | exits | signal | handled => exact h.stay hkept rfl rfl rfl rfl
    | reaps hphase hp => exact h.reaps hp hkept
    | collectResumed hw hp =>
      rw [hw] at hstage
      obtain ⟨⟨rfl, rfl, hlen⟩, hrest⟩ := hstage
      exact h.collect hw hp hkept
    | noticeStopResumed hw =>
      rw [hw] at hstage
      obtain ⟨⟨rfl, rfl, hlen⟩, -, htime, hterms, ht⟩ := hstage
      refine ⟨hkept, ?_, h.nodup, fun q hq => h.sub q ?_, h.gone, ⟨rfl, rfl, hlen⟩, fun _ => ?_,
        htime, hterms, fun q => ?_, fun hne => ?_⟩
      · exact (JobTable.length_jobs_setState .stopped).symm ▸ h.room
      · exact (JobTable.pidsAt_setState .stopped).subst hq
      · exact JobTable.stateAt_setState .stopped h.room
      · exact (JobTable.pidsAt_setState .stopped).symm ▸ ht.listed q
      · rw [JobTable.activeAt_setState]
        exact ht.active fun hnil => hne ((JobTable.pidsAt_setState .stopped).trans hnil)
    | noChildResumed hw =>
      rw [hw] at hstage
      obtain ⟨hat, hstop, hrest⟩ := hstage
      exact ⟨hkept, h.room, h.nodup, h.sub, h.gone, hat,
        fun hs => absurd (hstop.symm.trans hs) nofun, hrest⟩
    | timeout hw =>
      refine ⟨hkept, h.room, h.nodup, h.sub, h.gone, ?_⟩
      rcases hw with hw | hw <;> rw [hw] at hstage
      · exact ⟨hstage.1.1, rfl, hstage.2.2.2.1⟩
      · exact ⟨hstage.1.1, rfl, hstage.2.2.2.1⟩
  · rcases hl with rfl | rfl <;> exact h.stay hkept rfl rfl rfl rfl

/-! ## What is left when `resume` returns -/

/-- The processes of job `k` have terminated. -/
def Terminated (w : Watched) (k : ℕ) : Prop :=
  w.shell.children.AllIn k fun phase => ∃ normal, phase = .zombie normal

/-- The job is inactive if its processes have terminated, and else active, and stopped if the loop
saw a stop; if the time ran out it was sent `SIGTERM`, once, and is inactive.  `m` is the session
when the loop begins, `w` when `resume` returns. -/
structure PutAway (k : ℕ) (m w : Watched) (seen : Seen) : Prop where
  timedOut : seen.timedOut = true → w.shell.table.activeAt k = false ∧ w.terms = m.terms ++ [k]
  inTime : seen.timedOut = false → w.terms = m.terms
  finished : seen.timedOut = false → w.Terminated k → w.shell.table.activeAt k = false
  left : seen.timedOut = false → ¬ w.Terminated k → w.shell.table.activeAt k = true ∧
    (seen.stopped = true → w.shell.table.stateAt k = some .stopped)

/-- The loop or the handler has seen every process off that was in the list; with a timeout, the
handler has. -/
def SeenOff (k timeout : ℕ) (m : Watched) (seen : Seen) : Prop :=
  (∀ p ∈ m.shell.table.pidsAt k, p ∈ seen.taken) ∨
    timeout = 0 ∧ ∀ p ∈ m.shell.table.pidsAt k, p ∈ seen.collected

/-- A process that has not terminated keeps its job active. -/
theorem Waits.activeAt_of_not_terminated (h : w.Waits k timeout pids terms seen)
    (hleft : w.shell.table.Left k timeout pids seen) (hlive : ¬ w.Terminated k) :
    w.shell.table.activeAt k = true := by
  simp only [Terminated, Children.AllIn, not_forall] at hlive
  obtain ⟨x, hx, hg, -⟩ := hlive
  have hin : w.shell.children.InGroup x.pid k := ⟨x, hx, rfl, hg⟩
  have hlisted := h.kept.housed.listed k h.room x.pid hin
  have hnot : ¬ (timeout = 0 ∧ seen.missed pids = []) := fun hd => by
    have hc := Seen.missed_eq_nil_iff.mp hd.2 x.pid (h.sub x.pid hlisted)
    exact Children.not_mem_reaped hin.mem_pids (h.gone x.pid hc)
  exact (hleft.tracked hnot).active (List.ne_nil_of_mem hlisted)

/-- **The job is put away** exactly if one of the two has seen them all. -/
theorem Waits.activeAt_eq_false_iff (h : w.Waits k timeout pids terms seen)
    (hleft : w.shell.table.Left k timeout pids seen) :
    w.shell.table.activeAt k = false ↔
      (∀ p ∈ pids, p ∈ seen.taken) ∨ timeout = 0 ∧ ∀ p ∈ pids, p ∈ seen.collected := by
  rw [← Seen.missed_eq_nil_iff]
  by_cases hd : timeout = 0 ∧ seen.missed pids = []
  · exact iff_of_true (hleft.done hd) (.inr hd)
  · have ht := hleft.tracked hd
    rw [or_iff_left hd]
    constructor
    · intro hoff p hp
      by_contra hnot
      have hne := List.ne_nil_of_mem ((ht.listed p).mpr ⟨hp, hnot⟩)
      rw [ht.active hne] at hoff
      cases hoff
    · intro hall
      by_contra hon
      obtain ⟨p, hp⟩ := List.exists_mem_of_ne_nil _ (h.kept.filled k (by simpa using hon))
      obtain ⟨hp, hnot⟩ := (ht.listed p).mp hp
      exact hnot (hall p hp)

/-- What happened leads to `w`. -/
theorem waits_run {m : Watched} {late : List Happening} (hkept : m.shell.Kept)
    (hmark : m.shell.place = .mark k timeout)
    (hrun : run step m (.shell .main :: late) = some w)
    (hbusy : Along step (fun w _ => w.shell.place ≠ .prompt) m (.shell .main :: late)) :
    w.Waits k timeout (m.shell.table.pidsAt k) m.terms (Seen.all late) := by
  obtain ⟨m', hm', hrun⟩ := run_cons_eq_some.mp hrun
  have hkept' := kept_step hkept hm'
  obtain ⟨hroom, hactive⟩ := hkept.awake k (by rw [Console.resumed, hmark])
  have hstart : m'.Waits k timeout (m.shell.table.pidsAt k) m.terms (Seen.all []) := by
    obtain ⟨s, hs, rfl⟩ := Option.map_eq_some_iff.mp hm'
    have hmain := (Option.ite_none_left_eq_some.mp hs).2
    simp only [Console.main, hmark, Option.some.injEq] at hmain
    cases hmain
    refine ⟨hkept', ?_, hkept.nodup k, fun p hp => ?_, by simp [Seen.all], ⟨rfl, rfl, ?_⟩, rfl, rfl,
      ?_, fun p => ?_, fun hne => ?_⟩
    · exact (JobTable.length_jobs_setState .running).symm ▸ hroom
    · exact (JobTable.pidsAt_setState .running).subst hp
    · simp [Seen.missed, Seen.all]
    · simp only [termsAfter, hmark]
    · rw [JobTable.pidsAt_setState]
      exact (and_iff_left List.not_mem_nil).symm
    · rw [JobTable.activeAt_setState]
      exact hactive fun hnil => hne ((JobTable.pidsAt_setState .running).trans hnil)
  have hgo : ∀ hs w l w', w.Waits k timeout (m.shell.table.pidsAt k) m.terms (Seen.all hs) →
      w.shell.place ≠ .prompt → step w l = some w' →
      w'.Waits k timeout (m.shell.table.pidsAt k) m.terms (Seen.all (hs ++ [l])) :=
    fun hs w l w' h hplace hstep => by
      rw [Seen.all_concat]
      exact waits_step h hplace hstep
  exact invariant_history hgo hstart (hbusy.2 m' hm') hrun

/-- **What `resume %n fg` leaves behind is right** exactly if the job is not over, the time has run
out, or one of the two has seen every process off. -/
theorem resumed_iff {before late : List Happening} {m w : Watched} {k timeout : ℕ}
    (hbefore : run step initial before = some m) (hmark : m.shell.place = .mark k timeout)
    (hrun : run step m (.shell .main :: late) = some w)
    (hbusy : Along step (fun w _ => w.shell.place ≠ .prompt) m (.shell .main :: late))
    (hend : w.shell.place = .prompt) :
    PutAway k m w (Seen.all late) ↔
      ((Seen.all late).timedOut = false → w.Terminated k →
        SeenOff k timeout m (Seen.all late)) := by
  have hkept : m.shell.Kept := invariant' (I := fun w : Watched => w.shell.Kept)
    (fun _ _ _ => kept_step) Console.kept_initial hbefore
  have h := waits_run hkept hmark hrun hbusy
  have hstage := h.stage
  rw [hend] at hstage
  obtain ⟨hout, hin⟩ := hstage
  constructor
  · intro hput htime hover
    exact (h.activeAt_eq_false_iff (hin htime).2).mp (hput.finished htime hover)
  · intro hseen
    refine ⟨hout, fun htime => (hin htime).1, fun htime hover => ?_, fun htime hlive => ?_⟩
    · exact (h.activeAt_eq_false_iff (hin htime).2).mpr (hseen htime hover)
    · exact ⟨h.activeAt_of_not_terminated (hin htime).2 hlive, (hin htime).2.state⟩

/-- A foreground job that is stopped, up to the loop of `resume %1 fg` with a timeout. -/
private def stoppedOnce (timeout : ℕ) : List Happening :=
  ([Console.Event.launch [['a']] ['a'] false, .fork 10] ++ List.replicate 5 Console.Event.main ++
    [Console.Event.ctrlZ, .noticeStop 10] ++ List.replicate 4 Console.Event.main ++
    [Console.Event.resume 1 (.fg timeout)] ++ List.replicate 3 Console.Event.main).map .shell

/-- Its process ends, and the loop collects it. -/
private def endsOnce : List Happening :=
  [.shell (.exits 10 true), .shell (.collect 10), .shell .main, .shell .main, .shell .main]

theorem resumed_iff_once :
    ∃ m w, run step initial (stoppedOnce 0) = some m ∧
      run step m (.shell .main :: endsOnce) = some w ∧
      (PutAway 0 m w (Seen.all endsOnce) ↔
        ((Seen.all endsOnce).timedOut = false → w.Terminated 0 →
          SeenOff 0 0 m (Seen.all endsOnce))) := by
  obtain ⟨m, hm, hmark, w, hw, hbusy, hend⟩ : ∃ m ∈ run step initial (stoppedOnce 0),
      m.shell.place = .mark 0 0 ∧ ∃ w ∈ run step m (.shell .main :: endsOnce),
        Along step (fun w _ => w.shell.place ≠ .prompt) m (.shell .main :: endsOnce) ∧
          w.shell.place = .prompt := by decide +kernel
  exact ⟨m, w, hm, hw, resumed_iff hm hmark hw hbusy hend⟩

/-- **A job whose only process the loop has collected is active for ever** if there was a
timeout. -/
theorem not_putAway :
    ¬ ∀ (before late : List Happening) (m w : Watched) (k timeout : ℕ),
      run step initial before = some m → m.shell.place = .mark k timeout →
      run step m (.shell .main :: late) = some w →
      Along step (fun w _ => w.shell.place ≠ .prompt) m (.shell .main :: late) →
      w.shell.place = .prompt → PutAway k m w (Seen.all late) := by
  intro h
  obtain ⟨m, hm, hmark, w, hw, hbusy, hend, hactive, hnone⟩ :
      ∃ m ∈ run step initial (stoppedOnce 9),
        m.shell.place = .mark 0 9 ∧ ∃ w ∈ run step m (.shell .main :: endsOnce),
          Along step (fun w _ => w.shell.place ≠ .prompt) m (.shell .main :: endsOnce) ∧
            w.shell.place = .prompt ∧ w.shell.table.activeAt 0 = true ∧
              w.shell.children.unreaped.length = 0 := by decide +kernel
  have hover : w.Terminated 0 := fun x hx => by
    rw [List.length_eq_zero_iff.mp hnone] at hx
    cases hx
  have hoff := (h _ _ m w 0 9 hm hmark hw hbusy hend).finished rfl hover
  rw [hactive] at hoff
  cases hoff

end Watched

end MiniProject.Shell
