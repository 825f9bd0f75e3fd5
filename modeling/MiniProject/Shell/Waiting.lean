import MiniProject.Shell.Groups

/-!
# Shell/Waiting — when `run_foreground` returns

The wait loop counts what it waited for and stops at the number of stages, at a stop, or when the
group has gone.  It does not see what the handler waited for.  While all stages are in the group,
each of the three means what it should (`returned_of_joinable`).
-/

namespace MiniProject.Shell

namespace Ctl

variable {s s' : Ctl} {l : Label}

/-- How many stages have been waited for, by the loop or by the handler. -/
def reapedStages (s : Ctl) : ℕ := s.forked.countP (· ∈ s.children.reaped)

/-- What holds at each place from `takeTerminal` on: `j` is null only when nobody is left, the
loop waits for enough, and it has ended for a reason. -/
def AtPlace (s : Ctl) : Pc → Prop
  | .takeTerminal => s.job = none → s.AllReaped
  | .wait remaining => (s.job = none → s.AllReaped) ∧
      s.request.names.length ≤ s.reapedStages + remaining
  | .giveBack stopped | .leave stopped | .clearFg stopped | .flush stopped | .returned stopped =>
      if stopped then s.table.stateAt s.slot = some .stopped else s.AllReaped
  | _ => True

theorem AllReaped.mono (h : s.AllReaped) (hforked : s'.forked = s.forked)
    (hreaped : s.children.reaped ⊆ s'.children.reaped) : s'.AllReaped := fun p hp =>
  hreaped (h p (hforked ▸ hp))

theorem reapedStages_mono (hforked : s'.forked = s.forked)
    (hreaped : s.children.reaped ⊆ s'.children.reaped) : s.reapedStages ≤ s'.reapedStages := by
  rw [reapedStages, reapedStages, hforked]
  refine List.countP_mono_left fun p _ hp => ?_
  exact decide_eq_true (hreaped (of_decide_eq_true hp))

/-- Waiting for a stage that nobody has waited for counts. -/
theorem reapedStages_reap {p : Pid} (pc : Pc) (hforked : p ∈ s.forked)
    (hp : p ∈ s.children.pids) :
    s.reapedStages + 1 ≤ reapedStages { s with children := s.children.reap p hp, pc } := by
  have hperm : s.forked.Perm (p :: s.forked.erase p) := List.perm_cons_erase hforked
  rw [reapedStages, reapedStages, hperm.countP_eq, hperm.countP_eq,
    List.countP_cons_of_neg (by simpa using Children.not_mem_reaped hp),
    List.countP_cons_of_pos (by simp)]
  refine Nat.succ_le_succ (List.countP_mono_left fun q _ hq => ?_)
  exact decide_eq_true (List.mem_append_left _ (of_decide_eq_true hq))

/-- The loop has counted all of them. -/
theorem allReaped_of_le (h : s.forked.length ≤ s.reapedStages) : s.AllReaped := by
  have hall := List.countP_eq_length.mp (Nat.le_antisymm List.countP_le_length h)
  exact fun p hp => of_decide_eq_true (hall p hp)

/-- A place says nothing that waiting for one more could spoil. -/
theorem AtPlace.mono {pc : Pc} (h : s.AtPlace pc) (hforked : s'.forked = s.forked)
    (hreaped : s.children.reaped ⊆ s'.children.reaped) (hjob : s'.job = s.job)
    (hrequest : s'.request = s.request)
    (hstate : s'.table.stateAt s'.slot = s.table.stateAt s.slot) : s'.AtPlace pc := by
  have hall : s.AllReaped → s'.AllReaped := fun h => h.mono hforked hreaped
  cases pc with
  | takeTerminal => exact fun hnone => hall (h (hjob ▸ hnone))
  | wait remaining =>
    refine ⟨fun hnone => hall (h.1 (hjob ▸ hnone)), ?_⟩
    rw [hrequest]
    exact Nat.le_trans h.2 (Nat.add_le_add_right (reapedStages_mono hforked hreaped) _)
  | giveBack stopped | leave stopped | clearFg stopped | flush stopped | returned stopped =>
    cases stopped with
    | false => exact hall h
    | true => exact hstate.trans h
  | _ => trivial

/-- `j` is null only when the handler has waited for every stage. -/
theorem allReaped_of_findJobByNumber (hI : s.Inv) (hat : s.AtProgress .listed)
    (hnone : s.table.findJobByNumber s.num = none) : s.AllReaped := by
  obtain ⟨hplaced, -, hheld⟩ := hat
  have hempty : s.table.pidsAt s.slot = [] := by
    by_contra hne
    have hfirst : ∀ i < s.slot, s.table.numberAt i ≠ some s.num := fun i hi hnum =>
      Nat.ne_of_lt hi ((hplaced.2 i).mp hnum)
    have hfound := JobTable.findJobByNumber_eq_some ((hplaced.2 s.slot).mpr rfl) (hheld hne) hfirst
    rw [hnone] at hfound
    cases hfound
  intro p hp
  refine (hI.forkedKnown p hp).resolve_left fun hpids => ?_
  have hlisted := hI.listedAll p hp hpids
  rw [listed_of_lt hplaced.1, hempty] at hlisted
  exact nomatch hlisted

/-- If the group has gone, so have the stages. -/
theorem allReaped_of_noChild (hI : s.Inv) (hT : s.Together) (hpc : s.pc ≠ .join) {g : Pid}
    (hg : s.group = some g) (hnone : ¬ s.children.HasGroup g) : s.AllReaped := by
  intro p hp
  refine (hI.forkedKnown p hp).resolve_left fun hpids => ?_
  obtain ⟨g', hg', hpg⟩ := hT p (by rwa [joined_of_ne hpc]) hpids
  rw [hg] at hg'
  cases hg'
  exact hnone (Children.hasGroup_iff.mpr ⟨p, hpg⟩)

theorem quiet_atPlace (hI : s.Inv) (hT : s.Together) {pc : Pc} (h : Quiet s s.pc pc)
    (hat : s.AtPlace s.pc) : s.AtPlace pc := by
  have hlisted : ∀ {pc : Pc}, s.pc = pc → s.AtProgress pc.progress := fun h => h ▸ hI.atProgress
  have hjoin := h.ne_join
  revert h hat hlisted hjoin
  generalize hpc : s.pc = pc₀
  intro h hat hlisted hjoin
  cases h with
  | takeTerminal => exact ⟨hat, Nat.le_add_left _ _⟩
  | done =>
    refine allReaped_of_le ?_
    rw [(hlisted rfl).2.1]
    exact hat.2
  | noChild hg hnone => exact allReaped_of_noChild hI hT (hpc ▸ hjoin) hg hnone
  | giveBack | keep | clearFg | flush => exact hat
  | announce | openGate => trivial

/-- **Every place keeps its word**, if the stages are together. -/
theorem atPlace_step (hI : s.Inv) (hG : s.Grouped) (hT : s.Together) (hat : s.AtPlace s.pc)
    (h : s.step l = some s') : s'.AtPlace s'.pc := by
  cases moves_of_step h with
  | fork | join | ready | overrun | fill => trivial
  | activate =>
    dsimp only
    split <;> trivial
  | lookup hpc =>
    exact allReaped_of_findJobByNumber hI (hI.at hpc)
  | deactivate hpc =>
    rw [hpc] at hat
    exact hat
  | quiet _ hpc hchildren hjobs hforked _ hslot hrequest =>
    refine (quiet_atPlace hI hT hpc hat).mono hforked ?_ hslot.2.2 hrequest ?_
    · rw [hchildren]
      exact List.Subset.refl _
    · rw [JobTable.stateAt, JobTable.stateAt, hjobs, hslot.1]
  | @collect p g remaining hpc hg hp =>
    rw [hpc] at hat
    refine ⟨fun hnone => (hat.1 hnone).mono rfl (List.subset_append_left _ _), ?_⟩
    have hcount := reapedStages_reap (.wait remaining) (hG.mem_forked hg hp) hp.mem_pids
    exact Nat.le_trans hat.2 (by omega)
  | noticeStop hpc hg hp =>
    rw [hpc] at hat
    have hstage := hG.mem_forked hg hp
    cases hjob : s.job with
    | none => exact absurd (hat.1 hjob _ hstage) (fun h => Children.not_mem_reaped hp.mem_pids h)
    | some k =>
      have hlt : k < s.table.jobs.length := by
        rw [hI.mine k hjob]
        exact (hI.at hpc).1.1
      rw [AtPlace, if_pos rfl]
      dsimp only
      rw [← hI.mine k hjob]
      exact JobTable.stateAt_setState .stopped hlt
  | joins =>
    refine hat.mono rfl ?_ rfl rfl rfl
    rw [Children.reaped_setpgid]
    exact List.Subset.refl _
  | exits | stops | continues | signal | handled =>
    exact hat.mono rfl (List.Subset.refl _) rfl rfl rfl
  | reaps hp =>
    exact hat.mono rfl (List.subset_append_left _ _) rfl rfl JobTable.stateAt_reapFinished

/-! ## The return -/

/-- All stages have been forked and each was waited for once, or the job is marked stopped. -/
def Finished (s : Ctl) : Prop :=
  (s.forked.length = s.request.names.length ∧ ∀ p ∈ s.forked, s.children.reaped.count p = 1) ∨
    s.table.stateAt s.slot = some .stopped

instance (s : Ctl) : Decidable s.Finished := inferInstanceAs (Decidable (_ ∨ _))

/-- **`run_foreground` returns when every stage has terminated and been waited for, or after the job
was marked stopped**, if no stage was put into a group that had gone. -/
theorem returned_of_joinable {r : Request} {i : Idle} {ls : List Label} {s : Ctl} {stopped : Bool}
    (hP : Along step Joinable (start r i) ls) (h : run step (start r i) ls = some s)
    (hret : s.pc = .returned stopped) : s.Finished := by
  have hstep : ∀ (s : Ctl) (l : Label) (s' : Ctl),
      (s.Inv ∧ s.Grouped ∧ s.Together ∧ s.AtPlace s.pc) → s.Joinable l → s.step l = some s' →
        s'.Inv ∧ s'.Grouped ∧ s'.Together ∧ s'.AtPlace s'.pc :=
    fun s l s' ⟨hI, hG, hT, hat⟩ hJ h =>
      ⟨inv_step hI h, grouped_step hG h, together_step hI hG hT hJ h,
        atPlace_step hI hG hT hat h⟩
  obtain ⟨hI, -, -, hat⟩ := invariant hstep
    ⟨inv_start r i, grouped_start r i, fun _ hp => (nomatch hp), trivial⟩ hP h
  rw [hret] at hat
  cases stopped with
  | false => exact .inl ⟨(hI.at hret).2, fun p hp => Children.count_reaped (hat p hp)⟩
  | true => exact .inr hat

end Ctl

theorem returned_of_joinable_two :
    ∃ s ∈ run Ctl.step (.start (.twoStages false) (.initial 1))
      ([Label.fork 10, .main, .fork 11, .exits 10 true] ++ List.replicate 6 Label.main ++
        [Label.exits 11 true, .collect 10, .collect 11] ++ List.replicate 5 Label.main),
      s.pc = .returned false ∧ s.Finished := by
  obtain ⟨s, hs, hret⟩ : ∃ s ∈ run Ctl.step (.start (.twoStages false) (.initial 1))
      ([Label.fork 10, .main, .fork 11, .exits 10 true] ++ List.replicate 6 Label.main ++
        [Label.exits 11 true, .collect 10, .collect 11] ++ List.replicate 5 Label.main),
      s.pc = .returned false := by decide +kernel
  exact ⟨s, hs, hret, Ctl.returned_of_joinable (by decide) hs hret⟩

/-- `a | b`, where `a` terminates and is waited for by the handler before `b` is forked. -/
theorem not_finished :
    ∃ s ∈ run Ctl.step (.start (.twoStages false) (.initial 1))
      ([Label.fork 10, .main, .joins 10, .exits 10 true, .signal, .reaps 10, .handled, .fork 11,
        .joins 11] ++ List.replicate 6 Label.main ++ [Label.noChild] ++
        List.replicate 4 Label.main),
      s.pc = .returned false ∧ s.children.phase? 11 = some .running ∧ ¬ s.Finished := by
  decide +kernel

end MiniProject.Shell
