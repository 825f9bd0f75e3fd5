import MiniProject.Shell.Reaping

/-!
# Shell/Tracking — the job table tracks the children of the shell

Between two command lines every pid of an active job is a child that has not been waited for, in
that job only and there once, and a job without processes is not active (`Tracks`).  The handler
keeps it so; a launch does when every stage that is waited for is seen by the table
(`recorded_iff`).
-/

namespace MiniProject.Shell

namespace JobTable

/-- The active jobs share out children of the shell among them. -/
structure Tracks (t : JobTable) (c : Children Pid) : Prop where
  alive : ∀ k p, t.Answers k p → p ∈ c.pids
  apart : ∀ k k' p, t.Answers k p → t.Answers k' p → k = k'
  nodup : ∀ k, t.activeAt k = true → (t.pidsAt k).Nodup
  nonempty : ∀ k, t.activeAt k = true → t.pidsAt k ≠ []

variable {t t' : JobTable} {c c' : Children Pid}

/-- Jobs may end and children may come. -/
theorem Tracks.transfer (h : t.Tracks c)
    (hjobs : ∀ k, t'.activeAt k = true → t.activeAt k = true ∧ t'.pidsAt k = t.pidsAt k)
    (hpids : c.pids ⊆ c'.pids) : t'.Tracks c' := by
  have hans : ∀ k p, t'.Answers k p → t.Answers k p := by
    intro k p hk
    obtain ⟨hactive, hpids⟩ := hjobs k hk.1
    exact ⟨hactive, hpids ▸ hk.2⟩
  refine ⟨fun k p hk => hpids (h.alive k p (hans k p hk)),
    fun k k' p hk hk' => h.apart k k' p (hans k p hk) (hans k' p hk'), fun k hk => ?_,
    fun k hk => ?_⟩
  · obtain ⟨hactive, hpids⟩ := hjobs k hk
    exact hpids ▸ h.nodup k hactive
  · obtain ⟨hactive, hpids⟩ := hjobs k hk
    exact hpids ▸ h.nonempty k hactive

/-- **The handler keeps the table in step with the children.** -/
theorem Tracks.reapFinished (h : t.Tracks c) {p : Pid} {normal : Bool} (hp : p ∈ c.pids) :
    (t.reapFinished p normal).Tracks (c.reap p hp) := by
  have hstep : ∀ k, (t.reapFinished p normal).activeAt k = true →
      t.activeAt k = true ∧ ((t.reapFinished p normal).pidsAt k).Nodup ∧
        (t.reapFinished p normal).pidsAt k ≠ [] ∧ p ∉ (t.reapFinished p normal).pidsAt k := by
    intro k hk
    by_cases hfind : t.findJobContainingPid p = some k
    · have hactive := (findJobContainingPid_eq_some.mp hfind).1.1
      have hperm : ((t.reapFinished p normal).pidsAt k).Perm ((t.pidsAt k).erase p) :=
        pidsAt_reapFinished hfind
      refine ⟨hactive, hperm.nodup_iff.mpr ((h.nodup k hactive).erase p),
        (activeAt_reapFinished hfind).mp hk, fun hmem => ?_⟩
      exact (h.nodup k hactive).not_mem_erase (hperm.mem_iff.mp hmem)
    · rw [activeAt_reapFinished_of_ne hfind] at hk
      rw [pidsAt_reapFinished_of_ne hfind]
      refine ⟨hk, h.nodup k hk, h.nonempty k hk, fun hmem => hfind ?_⟩
      refine findJobContainingPid_eq_some.mpr ⟨⟨hk, hmem⟩, fun i hi hans => ?_⟩
      exact Nat.ne_of_lt hi (h.apart i k p hans ⟨hk, hmem⟩)
  refine ⟨fun k q hk => ?_, fun k k' q hk hk' =>
    h.apart k k' q (answers_of_reapFinished hk) (answers_of_reapFinished hk'),
    fun k hk => (hstep k hk).2.1, fun k hk => (hstep k hk).2.2.1⟩
  refine (Children.mem_pids_reap (h := hp)).mpr ⟨h.alive k q (answers_of_reapFinished hk), ?_⟩
  rintro rfl
  exact (hstep k hk.1).2.2.2 hk.2

end JobTable

namespace Ctl

variable {s s' : Ctl} {l : Label}

theorem tracks_of_agrees (hT : s.table.Tracks s.children) (h : Agrees s s') :
    s'.table.Tracks s'.children := by
  refine hT.transfer (fun k hk => ⟨h.activeAt k ▸ hk, h.pidsAt k⟩) ?_
  rw [h.pids]
  exact List.Subset.refl _

/-- **A pipeline none of whose stages has been waited for may be registered.** -/
theorem tracks_activate (hI : s.Inv) (hC : s.Clean) (hT : s.table.Tracks s.children)
    (hpc : s.pc = .activate) : (s.table.setActive s.slot true).Tracks s.children := by
  obtain ⟨hplaced, hlen, hpids, -⟩ := hI.at hpc
  have hslot : s.listed = s.forked := (listed_of_lt hplaced.1).trans hpids
  have hother : ∀ k, k ≠ s.slot → ((s.table.setActive s.slot true).activeAt k = true ↔
      s.table.activeAt k = true) := fun k hk => by
    rw [JobTable.activeAt_setActive_of_ne true hk]
  have hans : ∀ k q, k ≠ s.slot → (s.table.setActive s.slot true).Answers k q →
      s.table.Answers k q := fun k q hk h =>
    ⟨(hother k hk).mp h.1, (JobTable.pidsAt_setActive true) ▸ h.2⟩
  have hstage : ∀ q, (s.table.setActive s.slot true).Answers s.slot q → q ∈ s.forked := by
    intro q hq
    rw [← hpids, ← JobTable.pidsAt_setActive true]
    exact hq.2
  constructor
  · intro k q hq
    by_cases hk : k = s.slot
    · subst hk
      have hmem := hstage q hq
      exact (hI.forkedKnown q hmem).resolve_right (hC.2 q (hslot.symm ▸ hmem))
    · exact hT.alive k q (hans k q hk hq)
  · intro k k' q hq hq'
    by_cases hk : k = s.slot
    · subst hk
      by_contra hk'
      exact hI.others k' q (Ne.symm hk') (hans k' q (Ne.symm hk') hq') (hstage q hq)
    · by_cases hk' : k' = s.slot
      · subst hk'
        exact absurd (hstage q hq') (hI.others k q hk (hans k q hk hq))
      · exact hT.apart k k' q (hans k q hk hq) (hans k' q hk' hq')
  · intro k hactive
    rw [JobTable.pidsAt_setActive]
    by_cases hk : k = s.slot
    · subst hk
      rw [hpids]
      exact hI.nodup
    · exact hT.nodup k ((hother k hk).mp hactive)
  · intro k hactive
    rw [JobTable.pidsAt_setActive]
    by_cases hk : k = s.slot
    · subst hk
      rw [hpids]
      intro hnil
      rw [hnil, Request.names, List.length_map] at hlen
      exact s.request.nonempty (List.length_eq_zero_iff.mp hlen.symm)
    · exact hT.nonempty k ((hother k hk).mp hactive)

/-- **Every step the table sees keeps it in step with the children.** -/
theorem tracks_step (hI : s.Inv) (hG : s.Grouped) (hC : s.Clean) (hN : s.Noted l)
    (hT : s.table.Tracks s.children) (h : s.step l = some s') :
    s'.table.Tracks s'.children := by
  cases moves_of_step h with
  | fork _ _ hfresh =>
    exact hT.transfer (fun k hk => ⟨hk, rfl⟩) fun q hq =>
      (Children.mem_pids_fork (h := hfresh.1)).mpr (.inl hq)
  | join | joins =>
    exact tracks_of_agrees hT
      (.of_jobs Children.pids_setpgid Children.reaped_setpgid rfl rfl rfl rfl rfl)
  | ready | overrun | lookup | signal | handled => exact hT
  | fill hpc hfill =>
    refine hT.transfer (fun k hk => ?_) (List.Subset.refl _)
    rw [JobTable.activeAt_fillSlot hfill] at hk
    exact ⟨hk, JobTable.pidsAt_fillSlot_of_ne hfill (Nat.ne_of_lt (JobTable.lt_of_activeAt hk))⟩
  | activate hpc => exact tracks_activate hI hC hT hpc
  | @deactivate k hpc hjob =>
    refine hT.transfer (fun i hi => ?_) (List.Subset.refl _)
    have hik : i ≠ k := by
      rintro rfl
      rw [JobTable.activeAt_setActive false
        (by rw [hI.mine _ hjob]; exact (hI.at hpc).1.1)] at hi
      exact nomatch hi
    rw [JobTable.activeAt_setActive_of_ne false hik] at hi
    exact ⟨hi, JobTable.pidsAt_setActive false⟩
  | quiet _ _ hchildren hjobs hforked _ hslot hrequest =>
    exact tracks_of_agrees hT (.of_jobs (congrArg _ hchildren) (congrArg _ hchildren) hjobs
      hforked hslot.1 hslot.2.1 hrequest)
  | collect _ hg hp => exact absurd (hG.mem_forked hg hp) hN
  | noticeStop => exact tracks_of_agrees hT agrees_noticeStop
  | exits | stops | continues =>
    exact tracks_of_agrees hT (.of_jobs (Children.pids_setPhase _) rfl rfl rfl rfl rfl rfl)
  | reaps hp => exact hT.reapFinished hp

/-! ## The background job -/

/-- No active job has a pid that was waited for, and the job is not active once all its stages have
been waited for. -/
def Recorded (s : Ctl) : Prop :=
  (∀ k p, s.table.Answers k p → p ∉ s.children.reaped) ∧
    (s.forked.length = s.request.names.length → s.AllReaped →
      s.table.activeAt s.slot = false)

theorem recorded_of_tracks (hI : s.Inv) (hT : s.table.Tracks s.children) : s.Recorded := by
  refine ⟨fun k p hans => Children.not_mem_reaped (hT.alive k p hans), fun _ hall => ?_⟩
  by_contra hactive
  rw [Bool.not_eq_false] at hactive
  obtain ⟨p, hp⟩ := List.exists_mem_of_ne_nil _ (hT.nonempty s.slot hactive)
  have hstage : p ∈ s.forked := hI.listedSub (mem_listed_of_answers ⟨hactive, hp⟩)
  exact Children.not_mem_reaped (hT.alive s.slot p ⟨hactive, hp⟩) (hall p hstage)

/-- Once the slot is active, a stage waited for behind the table's back stays in it. -/
theorem clean_of_recorded (hI : s.Inv) (hpc : s.pc.progress = .listed) (h : s.Recorded) :
    s.Clean := by
  have hat := hI.atProgress
  rw [hpc] at hat
  refine ⟨by rw [hpc]; exact nofun, fun p hp => h.1 s.slot p ?_⟩
  rw [listed_of_lt hat.1.1] at hp
  exact ⟨hat.2.2 (List.ne_nil_of_mem hp), hp⟩

/-- **Every exit is recorded in the job table** in the runs all of whose steps the table sees, and
from the registration on in no others. -/
theorem recorded_iff {r : Request} {i : Idle} {ls : List Label}
    (hT : i.table.Tracks i.children) (h : run step (start r i) ls = some s) :
    (Along step Noted (start r i) ls → s.Recorded) ∧
      (s.pc.progress = .listed → s.Recorded → Along step Noted (start r i) ls) := by
  obtain ⟨⟨hI, -⟩, hiff⟩ := clean_iff h
  refine ⟨fun hP => ?_, fun hpc hrec => hiff.mp (clean_of_recorded hI hpc hrec)⟩
  have hstep : ∀ (s : Ctl) (l : Label) (s' : Ctl),
      (s.Inv ∧ s.Grouped ∧ s.Clean ∧ s.table.Tracks s.children) → s.Noted l →
        s.step l = some s' →
          s'.Inv ∧ s'.Grouped ∧ s'.Clean ∧ s'.table.Tracks s'.children :=
    fun s l s' ⟨hI, hG, hC, hT⟩ hN h =>
      ⟨inv_step hI h, grouped_step hG h, (clean_step hI hG h).mpr ⟨hC, hN⟩,
        tracks_step hI hG hC hN hT h⟩
  have hstart : (start r i).table.Tracks (start r i).children := by
    rw [start]
    dsimp only
    split
    · exact hT
    · exact hT.transfer (fun k hk => ⟨hk, rfl⟩) (List.Subset.refl _)
  obtain ⟨hI, -, -, hT⟩ := invariant hstep
    ⟨inv_start r i, grouped_start r i, clean_start r i, hstart⟩ hP h
  exact recorded_of_tracks hI hT

end Ctl

/-- `a | b &`, both registered before they terminate. -/
theorem recorded_iff_two :
    ∃ s ∈ run Ctl.step (.start (.twoStages true) (.initial 1))
      ([Label.fork 10, .main, .fork 11] ++ List.replicate 6 Label.main ++
        [Label.exits 11 true, .signal, .reaps 11, .exits 10 true, .reaps 10, .handled]),
      s.AllReaped ∧ s.Recorded := by
  obtain ⟨s, hs, hall⟩ : ∃ s ∈ run Ctl.step (.start (.twoStages true) (.initial 1))
      ([Label.fork 10, .main, .fork 11] ++ List.replicate 6 Label.main ++
        [Label.exits 11 true, .signal, .reaps 11, .exits 10 true, .reaps 10, .handled]),
      ∀ p ∈ s.forked, p ∈ s.children.reaped := by decide +kernel
  have htracks : (Idle.initial 1).table.Tracks (Idle.initial 1).children :=
    ⟨fun _ _ h => (nomatch h.1), fun _ _ _ h => (nomatch h.1), fun _ h => (nomatch h),
      fun _ h => (nomatch h)⟩
  exact ⟨s, hs, hall, (Ctl.recorded_iff htracks hs).1 (by decide +kernel)⟩

/-- `a | b &`: `b` terminates, and is waited for, before the job is registered. -/
theorem not_recorded :
    ∃ s ∈ run Ctl.step (.start (.twoStages true) (.initial 1))
      ([Label.fork 10, .main, .fork 11, .main, .exits 11 true, .signal, .reaps 11, .handled] ++
        List.replicate 5 Label.main ++ [Label.exits 10 true, .signal, .reaps 10, .handled]),
      s.pc = .detached ∧ s.AllReaped ∧ s.table.Answers s.slot 11 ∧ ¬ s.Recorded := by
  obtain ⟨s, hs, hpc, hall, hans, hreaped⟩ :
      ∃ s ∈ run Ctl.step (.start (.twoStages true) (.initial 1))
        ([Label.fork 10, .main, .fork 11, .main, .exits 11 true, .signal, .reaps 11, .handled] ++
          List.replicate 5 Label.main ++ [Label.exits 10 true, .signal, .reaps 10, .handled]),
        s.pc = .detached ∧ (∀ p ∈ s.forked, p ∈ s.children.reaped) ∧
          s.table.Answers s.slot 11 ∧ 11 ∈ s.children.reaped := by decide +kernel
  exact ⟨s, hs, hpc, hall, hans, fun h => h.1 s.slot 11 hans hreaped⟩

end MiniProject.Shell
