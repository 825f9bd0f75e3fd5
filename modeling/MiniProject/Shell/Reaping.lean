import MiniProject.Shell.Groups

/-!
# Shell/Reaping — who is taken out of the job table

Two callers wait for the stages, and only the handler takes what it waited for out of the table: the
wait loop of `run_foreground` does not, and the handler cannot before `register_job` has made the
slot active.  A stage waited for in either of these ways stays in the table, and that is all that
goes wrong: the slot is exact at the return of a stopped foreground job (`stopped_exact_iff`), and
the table tracks the children of the shell through a background launch (`recorded_iff`), exactly in
the runs in which it does not happen (`Noted`).
-/

namespace MiniProject.Shell

namespace Ctl

variable {s s' : Ctl} {l : Label}

/-! ## The flag -/

/-- The step is seen by the table: no stage is waited for by the wait loop, nor by the handler while
the slot is not active; and `register_job` writes inside its arrays. -/
def Noted (s : Ctl) : Label → Prop
  | .collect p => p ∉ s.forked
  | .reaps p => p ∈ s.forked → s.table.activeAt s.slot = true
  | .main => s.pc = .fill → s.table.jobs.length < maxjobs ∧ s.forked.length ≤ maxjobProcess
  | _ => True

instance (s : Ctl) : DecidablePred s.Noted
  | .collect _ => inferInstanceAs (Decidable (_ ∉ _))
  | .reaps _ | .main => inferInstanceAs (Decidable (_ → _))
  | .fork _ | .noticeStop _ | .noChild | .joins _ | .exits _ _ | .stops _ | .continues _ | .signal
  | .handled => isTrue trivial

/-- No listed stage has been waited for, and nothing was written past an array. -/
def Clean (s : Ctl) : Prop := s.pc.progress ≠ .failed ∧ ∀ p ∈ s.listed, p ∉ s.children.reaped

/-- Where nothing is waited for, nothing is spoilt. -/
theorem clean_of_same (hnoted : s.Noted l)
    (hpc : s'.pc.progress ≠ .failed ↔ s.pc.progress ≠ .failed) (hlisted : s'.listed = s.listed)
    (hreaped : s'.children.reaped = s.children.reaped) : s'.Clean ↔ s.Clean ∧ s.Noted l := by
  rw [and_iff_left hnoted, Clean, Clean, hpc, hlisted, hreaped]

/-- …in particular by the steps of the shell that are not the registration. -/
theorem clean_main {pc : Pc} (hpc : s.pc = pc) (hne : pc ≠ .fill ∧ pc.progress ≠ .failed)
    (hpc' : s'.pc.progress ≠ .failed) (hlisted : s'.listed = s.listed)
    (hreaped : s'.children.reaped = s.children.reaped) :
    s'.Clean ↔ s.Clean ∧ s.Noted .main := by
  subst hpc
  exact clean_of_same (fun h => absurd h hne.1) (iff_of_true hpc' hne.2) hlisted hreaped

theorem clean_fork (hI : s.Inv) {p : Pid} (hpc : s.pc = .fork) (hfresh : s.Fresh p) :
    Clean { s with
      children := s.children.fork p s.shellPgid hfresh.1, forked := s.forked ++ [p],
      pc := .join } ↔ s.Clean := by
  have hp : p ∉ s.children.reaped := fun hp => hfresh.1 (List.mem_append_right _ hp)
  rw [Clean, Clean, listed_fork hI hpc, hpc]
  refine and_congr_right fun _ => ?_
  rw [List.forall_mem_append, List.forall_mem_singleton]
  exact and_iff_left hp

/-- `register_job` in bounds, or not. -/
theorem fillSlot_iff (hI : s.Inv) (hpc : s.pc = .fill) :
    (∃ t, s.table.fillSlot (s.group.getD 0) s.forked s.request.names s.command
      s.request.background = .ok t) ↔ s.Noted .main := by
  rw [JobTable.fillSlot_isOk_iff (hI.at hpc).2.symm]
  exact ⟨fun h _ => h, fun h => h hpc⟩

/-- The wait loop takes nobody out. -/
theorem not_clean_collect (hI : s.Inv) {p : Pid} {pc : Pc} (hforked : p ∈ s.forked)
    (hp : p ∈ s.children.pids) : ¬ Clean { s with children := s.children.reap p hp, pc } := by
  intro hclean
  refine hclean.2 p (hI.listedAll p hforked hp) ?_
  exact List.mem_append_right _ (List.mem_singleton_self p)

/-- **The handler takes out a stage** exactly when the slot is active. -/
theorem clean_reaps (hI : s.Inv) {p : Pid} {normal : Bool} (hp : p ∈ s.children.pids) :
    Clean { s with children := s.children.reap p hp, table := s.table.reapFinished p normal } ↔
      s.Clean ∧ s.Noted (.reaps p) := by
  have hperm := listed_reapFinished (s := s) p normal (s.children.reap p hp)
  have hnot : p ∉ s.children.reaped := Children.not_mem_reaped hp
  rw [Clean, Clean, and_assoc]
  refine and_congr_right fun _ => ?_
  simp only [hperm.mem_iff, Children.reaped_reap, List.mem_append, List.mem_singleton, not_or]
  by_cases hstage : p ∈ s.forked
  · have hlisted := hI.listedAll p hstage hp
    by_cases hactive : s.table.activeAt s.slot = true
    · have hnoted : s.Noted (.reaps p) := fun _ => hactive
      rw [if_pos ((hI.find_stage hstage hp).mpr hactive), and_iff_left hnoted]
      constructor
      · intro hall q hq
        by_cases hqp : q = p
        · exact hqp ▸ hnot
        · exact (hall q ((List.mem_erase_of_ne hqp).mpr hq)).1
      · intro hall q hq
        obtain ⟨hqp, hq⟩ := hI.listedNodup.mem_erase_iff.mp hq
        exact ⟨hall q hq, hqp⟩
    · rw [if_neg fun hfind => hactive ((hI.find_stage hstage hp).mp hfind)]
      exact iff_of_false (fun hall => (hall p hlisted).2 rfl) fun h => hactive (h.2 hstage)
  · have hnoted : s.Noted (.reaps p) := fun h => absurd h hstage
    rw [if_neg (hI.find_other hstage), and_iff_left hnoted]
    refine forall₂_congr fun q hq => and_iff_left ?_
    rintro rfl
    exact hstage (hI.listedSub hq)

theorem Quiet.progress {pc pc' : Pc} (h : Quiet s pc pc') :
    (pc ≠ .fill ∧ pc.progress ≠ .failed) ∧ pc'.progress ≠ .failed := by
  cases h with
  | @keep stopped _ => cases stopped <;> decide
  | @clearFg stopped | @flush stopped => cases stopped <;> decide
  | takeTerminal | done | noChild | giveBack | announce | openGate =>
    exact ⟨⟨nofun, nofun⟩, nofun⟩

/-- **The flag rule of the job table**: what is listed stays exact as long as every step is seen. -/
theorem clean_step (hI : s.Inv) (hG : s.Grouped) (h : s.step l = some s') :
    s'.Clean ↔ s.Clean ∧ s.Noted l := by
  cases moves_of_step h with
  | fork hpc _ hfresh => exact (clean_fork hI hpc hfresh).trans (and_iff_left trivial).symm
  | join hpc => exact clean_main hpc ⟨nofun, nofun⟩ nofun rfl Children.reaped_setpgid
  | ready hpc | lookup hpc => exact clean_main hpc ⟨nofun, nofun⟩ nofun rfl rfl
  | overrun hpc hfill =>
    refine iff_of_false (fun h => h.1 rfl) fun h => ?_
    obtain ⟨t, ht⟩ := (fillSlot_iff hI hpc).mpr h.2
    rw [hfill] at ht
    exact nomatch ht
  | fill hpc hfill =>
    refine clean_of_same ((fillSlot_iff hI hpc).mp ⟨_, hfill⟩) ?_ (listed_fill hI hpc hfill) rfl
    rw [hpc]
    exact iff_of_true nofun nofun
  | activate hpc =>
    refine clean_main hpc ⟨nofun, nofun⟩ ?_ listed_setActive rfl
    dsimp only
    split <;> exact nofun
  | deactivate hpc => exact clean_main hpc ⟨nofun, nofun⟩ nofun listed_setActive rfl
  | quiet hl hpc hchildren hjobs hforked _ hslot hrequest =>
    have hagrees : Agrees s s' := .of_jobs (congrArg _ hchildren) (congrArg _ hchildren) hjobs
      hforked hslot.1 hslot.2.1 hrequest
    obtain ⟨hne, hpc'⟩ := hpc.progress
    refine clean_of_same ?_ (iff_of_true hpc' hne.2) hagrees.listed hagrees.reaped
    rcases hl with rfl | rfl
    · exact fun h => absurd h hne.1
    · trivial
  | collect hpc hg hp =>
    have hstage := hG.mem_forked hg hp
    exact iff_of_false (not_clean_collect hI hstage hp.mem_pids) fun h => h.2 hstage
  | noticeStop hpc =>
    refine clean_of_same trivial ?_ agrees_noticeStop.listed rfl
    rw [hpc]
    exact iff_of_true nofun nofun
  | joins => exact clean_of_same trivial Iff.rfl rfl Children.reaped_setpgid
  | exits | stops | continues | signal | handled => exact clean_of_same trivial Iff.rfl rfl rfl
  | reaps hp => exact clean_reaps hI hp

/-! ## The stopped foreground job -/

/-- The pids of the job are the stages not waited for yet, and no slot answers for another stage. -/
def Exact (s : Ctl) : Prop :=
  (s.table.pidsAt s.slot).Perm (s.forked.filter (· ∉ s.children.reaped)) ∧
    ∀ p ∈ s.forked, p ∈ s.children.reaped → s.table.findJobContainingPid p = none

instance (s : Ctl) : Decidable s.Exact := inferInstanceAs (Decidable (_ ∧ _))

theorem exact_iff_clean (hI : s.Inv) (hpc : s.pc.progress = .listed) : s.Exact ↔ s.Clean := by
  have hat := hI.atProgress
  rw [hpc] at hat
  have hlisted : s.listed = s.table.pidsAt s.slot := listed_of_lt hat.1.1
  constructor
  · intro h
    refine ⟨by rw [hpc]; exact nofun, fun p hp => ?_⟩
    rw [hlisted] at hp
    exact of_decide_eq_true (List.mem_filter.mp (h.1.subset hp)).2
  · intro h
    constructor
    · rw [← hlisted]
      refine (List.perm_ext_iff_of_nodup hI.listedNodup (hI.nodup.filter _)).mpr fun p => ?_
      rw [List.mem_filter, decide_eq_true_eq]
      refine ⟨fun hp => ⟨hI.listedSub hp, h.2 p hp⟩, fun hp => ?_⟩
      exact hI.listedAll p hp.1 ((hI.forkedKnown p hp.1).resolve_right hp.2)
    · intro p hp hreaped
      refine JobTable.findJobContainingPid_eq_none.mpr fun k hans => ?_
      by_cases hk : k = s.slot
      · exact h.2 p (mem_listed_of_answers (hk ▸ hans)) hreaped
      · exact hI.others k p hk hans hp

theorem clean_start (r : Request) (i : Idle) : (start r i).Clean := by
  refine ⟨nofun, fun p hp => ?_⟩
  exact nomatch (inv_start r i).listedSub hp

/-- A run is clean when each of its steps is seen by the table. -/
theorem clean_iff {r : Request} {i : Idle} {ls : List Label}
    (h : run step (start r i) ls = some s) :
    (s.Inv ∧ s.Grouped) ∧ (s.Clean ↔ Along step Noted (start r i) ls) := by
  have hinv : ∀ (s : Ctl) (l : Label) (s' : Ctl), (s.Inv ∧ s.Grouped) → s.step l = some s' →
      s'.Inv ∧ s'.Grouped := fun s l s' hJ h => ⟨inv_step hJ.1 h, grouped_step hJ.2 h⟩
  have hstart := And.intro (inv_start r i) (grouped_start r i)
  refine ⟨invariant' (I := fun s => s.Inv ∧ s.Grouped) hinv hstart h, ?_⟩
  rw [along_iff_of_invariant (J := fun s => s.Inv ∧ s.Grouped) hinv
    (fun s l s' hJ h => clean_step hJ.1 hJ.2 h) hstart h]
  exact and_iff_right (clean_start r i)

/-- **When `run_foreground` returns because a stage stopped, its job has exactly the stages that are
left**, if and only if every step of the run was seen by the table. -/
theorem stopped_exact_iff {r : Request} {i : Idle} {ls : List Label}
    (h : run step (start r i) ls = some s) (hret : s.pc = .returned true) :
    s.Exact ↔ Along step Noted (start r i) ls := by
  obtain ⟨⟨hI, -⟩, hiff⟩ := clean_iff h
  rw [exact_iff_clean hI (by rw [hret]; rfl), hiff]

end Ctl

/-- `a | b`: `a` terminates and the handler takes it out of the table, then `b` stops. -/
theorem stopped_exact_iff_two :
    ∃ s ∈ run Ctl.step (.start (.twoStages false) (.initial 1))
      ([Label.fork 10, .main, .fork 11] ++ List.replicate 6 Label.main ++
        [Label.exits 10 true, .signal, .reaps 10, .handled, .stops 11, .noticeStop 11] ++
        List.replicate 4 Label.main),
      s.pc = .returned true ∧ s.Exact := by
  obtain ⟨s, hs, hret⟩ : ∃ s ∈ run Ctl.step (.start (.twoStages false) (.initial 1))
      ([Label.fork 10, .main, .fork 11] ++ List.replicate 6 Label.main ++
        [Label.exits 10 true, .signal, .reaps 10, .handled, .stops 11, .noticeStop 11] ++
        List.replicate 4 Label.main), s.pc = .returned true := by decide +kernel
  exact ⟨s, hs, hret, (Ctl.stopped_exact_iff hs hret).mpr (by decide +kernel)⟩

/-- `a | b`: the wait loop waits for `a`, then `b` stops. -/
theorem not_exact :
    ∃ s ∈ run Ctl.step (.start (.twoStages false) (.initial 1))
      ([Label.fork 10, .main, .fork 11] ++ List.replicate 6 Label.main ++
        [Label.exits 10 true, .collect 10, .stops 11, .noticeStop 11] ++
        List.replicate 4 Label.main),
      s.pc = .returned true ∧ s.table.pidsAt s.slot = [10, 11] ∧ s.children.reaped = [10] ∧
        s.table.findJobContainingPid 10 = some s.slot ∧ ¬ s.Exact := by
  decide

end MiniProject.Shell
