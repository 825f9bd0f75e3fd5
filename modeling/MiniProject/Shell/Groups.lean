import MiniProject.Shell.Records

/-!
# Shell/Groups — what the wait loop waits for

`run_foreground` waits for the process group of its first stage, not for its stages.  Nobody but its
stages is in that group (`Grouped`), and a stage that has not been waited for is, as long as every
`setpgid` finds the group there (`Together`): a leader that has been waited for before the next
stage joins takes its group with it.
-/

namespace MiniProject.Shell

namespace Ctl

variable {s s' : Ctl} {l : Label}

/-! ## Only stages are in the group -/

/-- The group is the one of stage 0, and all its members are stages. -/
structure Grouped (s : Ctl) : Prop where
  head : ∀ g, s.group = some g → s.forked.head? = some g
  stages : ∀ g, s.forked.head? = some g → ∀ p, s.children.InGroup p g → p ∈ s.forked

/-- Nobody but a stage comes into a group. -/
theorem Grouped.transfer (hG : s.Grouped) (hgroup : s'.group = s.group)
    (hforked : s'.forked = s.forked)
    (hin : ∀ p g, s'.children.InGroup p g → s.children.InGroup p g ∨ p ∈ s.forked) :
    s'.Grouped where
  head g hg := by
    rw [hforked]
    exact hG.head g (hgroup ▸ hg)
  stages g hg p hp := by
    rw [hforked] at hg ⊢
    exact (hin p g hp).elim (hG.stages g hg p) id

theorem grouped_fork (hG : s.Grouped) {p : Pid} (hfresh : s.Fresh p) :
    Grouped { s with
      children := s.children.fork p s.shellPgid hfresh.1, forked := s.forked ++ [p],
      pc := .join } where
  head g hg := by
    rw [List.head?_append, hG.head g hg]
    rfl
  stages g hg q hq := by
    rcases (Children.inGroup_fork (h := hfresh.1)).mp hq with hq | ⟨rfl, -⟩
    · rw [List.head?_append] at hg
      cases hhead : s.forked.head? with
      | some g' =>
        rw [hhead] at hg
        cases hg
        exact List.mem_append_left _ (hG.stages _ hhead q hq)
      | none =>
        rw [hhead] at hg
        cases hg
        exact absurd (Children.hasGroup_iff.mpr ⟨q, hq⟩) hfresh.2.1
    · exact List.mem_append_right _ (List.mem_singleton_self q)

theorem grouped_join (hG : s.Grouped) {p : Pid} (hp : s.forked.getLast? = some p) :
    Grouped { s with
      children := s.children.setpgid p (s.group.getD p)
      group := if s.forked.length = 1 then some p else s.group
      pc := .fork } where
  head g hg := by
    dsimp only at hg
    split at hg
    · rename_i hlen
      obtain ⟨q, hq⟩ := List.length_eq_one_iff.mp hlen
      rw [hq] at hp ⊢
      cases hp
      exact hg
    · exact hG.head g hg
  stages g hg q hq := by
    rcases Children.inGroup_setpgid hq with hq | ⟨rfl, -⟩
    · exact hG.stages g hg q hq
    · exact List.mem_of_getLast? hp

/-- **Every step keeps strangers out of the group.** -/
theorem grouped_step (hG : s.Grouped) (h : s.step l = some s') : s'.Grouped := by
  cases moves_of_step h with
  | fork _ _ hfresh => exact grouped_fork hG hfresh
  | join _ hp => exact grouped_join hG hp
  | ready | overrun | fill | activate | lookup | deactivate | signal | handled =>
    exact hG.transfer rfl rfl fun _ _ => .inl
  | quiet _ _ hchildren _ hforked hgroup =>
    exact hG.transfer hgroup hforked fun _ _ hin => .inl (hchildren ▸ hin)
  | collect _ _ hp =>
    exact hG.transfer rfl rfl fun _ _ hin =>
      .inl ((Children.inGroup_reap (h := hp.mem_pids)).mp hin).1
  | reaps hp =>
    exact hG.transfer rfl rfl fun _ _ hin => .inl ((Children.inGroup_reap (h := hp)).mp hin).1
  | noticeStop | exits | stops | continues =>
    exact hG.transfer rfl rfl fun _ _ hin => .inl ((Children.inGroup_setPhase _).mp hin)
  | joins hp =>
    refine hG.transfer rfl rfl fun q g hin => ?_
    rcases Children.inGroup_setpgid hin with hin | ⟨rfl, -⟩
    · exact .inl hin
    · exact .inr hp

theorem grouped_start (r : Request) (i : Idle) : (start r i).Grouped :=
  ⟨fun _ hg => (nomatch hg), fun _ hg => (nomatch hg)⟩

/-- Stage 0 is to lead its own group. -/
theorem Grouped.leader (hG : s.Grouped) {p : Pid} (hforked : s.forked = [p]) :
    s.group.getD p = p := by
  cases hg : s.group with
  | none => rfl
  | some g =>
    have hhead := hG.head g hg
    rw [hforked] at hhead
    exact (Option.some.inj hhead).symm

/-- What the wait loop returns is a stage. -/
theorem Grouped.mem_forked (hG : s.Grouped) {p g : Pid} (hg : s.group = some g)
    (hp : s.children.InGroup p g) : p ∈ s.forked := hG.stages g (hG.head g hg) p hp

/-! ## All stages are in the group -/

/-- The stages whose `setpgid` is behind the shell. -/
def joined (s : Ctl) : List Pid := if s.pc = .join then s.forked.dropLast else s.forked

/-- Who has not been waited for is in the group. -/
def Together (s : Ctl) : Prop :=
  ∀ p ∈ s.joined, p ∈ s.children.pids → ∃ g, s.group = some g ∧ s.children.InGroup p g

/-- The step is not a `setpgid` into a group that has gone: if the shell is to put a stage into the
group of stage 0, that has a member. -/
def Joinable (s : Ctl) : Label → Prop
  | .main => s.pc = .join → ∀ p ∈ s.forked.getLast?, p ∈ s.children.pids → s.forked.length ≠ 1 →
      ∃ g ∈ s.group, s.children.HasGroup g
  | _ => True

instance (s : Ctl) : DecidablePred s.Joinable
  | .main => inferInstanceAs (Decidable (_ → _))
  | .fork _ | .collect _ | .noticeStop _ | .noChild | .joins _ | .exits _ _ | .stops _
  | .continues _ | .signal | .reaps _ | .handled => isTrue trivial

theorem joined_subset : s.joined ⊆ s.forked := by
  rw [joined]
  split
  · exact List.dropLast_subset _
  · exact List.Subset.refl _

/-- No stage is forgotten, no child comes, and the members stay. -/
theorem Together.transfer (hT : s.Together) (hjoined : s'.joined ⊆ s.joined)
    (hgroup : s'.group = s.group) (hpids : ∀ p, p ∈ s'.children.pids → p ∈ s.children.pids)
    (hin : ∀ p g, s.group = some g → p ∈ s'.children.pids → s.children.InGroup p g →
      s'.children.InGroup p g) : s'.Together := by
  intro p hp hpids'
  obtain ⟨g, hg, hpg⟩ := hT p (hjoined hp) (hpids p hpids')
  exact ⟨g, hgroup.trans hg, hin p g hg hpids' hpg⟩

theorem joined_of_ne (h : s.pc ≠ .join) : s.joined = s.forked := if_neg h

theorem forked_subset_joined {pc : Pc} (hpc : s.pc = pc) (hne : pc ≠ .join) :
    s.forked ⊆ s.joined := by
  rw [joined_of_ne (hpc ▸ hne)]
  exact List.Subset.refl _

theorem Quiet.ne_join {pc pc' : Pc} (h : Quiet s pc pc') : pc ≠ .join := by
  rintro rfl
  cases h

theorem together_fork (hI : s.Inv) (hT : s.Together) {p : Pid} (hpc : s.pc = .fork)
    (hfresh : s.Fresh p) :
    Together { s with
      children := s.children.fork p s.shellPgid hfresh.1, forked := s.forked ++ [p],
      pc := .join } := by
  intro q hq hpids
  have hq : q ∈ s.forked := by
    have hq : q ∈ (s.forked ++ [p]).dropLast := hq
    rwa [List.dropLast_concat] at hq
  have hne : q ≠ p := (hI.forkedKnown q hq).ne_of_not_mem hfresh.1
  have hpids := ((Children.mem_pids_fork (h := hfresh.1)).mp hpids).resolve_right hne
  have hjoined : q ∈ s.joined := by
    rwa [joined_of_ne (by rw [hpc]; exact fun h => nomatch h)]
  obtain ⟨g, hg, hqg⟩ := hT q hjoined hpids
  exact ⟨g, hg, (Children.inGroup_fork (h := hfresh.1)).mpr (.inl hqg)⟩

/-- **A stage joins the others** if it finds them. -/
theorem together_join (hT : s.Together) {p : Pid} (hpc : s.pc = .join)
    (hp : s.forked.getLast? = some p) (hG : s.Grouped) (hJ : s.Joinable .main) :
    Together { s with
      children := s.children.setpgid p (s.group.getD p)
      group := if s.forked.length = 1 then some p else s.group
      pc := .fork } := by
  intro q hmem hchild
  replace hmem : q ∈ s.forked := hmem
  replace hchild : q ∈ s.children.pids := by rwa [Children.pids_setpgid] at hchild
  by_cases hlen : s.forked.length = 1
  · obtain ⟨p', hforked⟩ := List.length_eq_one_iff.mp hlen
    obtain rfl : p' = p := by
      rw [hforked, List.getLast?_singleton] at hp
      exact Option.some.inj hp
    obtain rfl : q = p' := by
      rw [hforked] at hmem
      exact List.mem_singleton.mp hmem
    have hself : s.group.getD q = q := hG.leader hforked
    refine ⟨q, if_pos hlen, ?_⟩
    dsimp only
    rw [hself]
    exact Children.inGroup_setpgid_self hchild (.inl rfl)
  · dsimp only
    rw [if_neg hlen]
    by_cases hqp : q = p
    · subst hqp
      obtain ⟨g, hg, hmember⟩ := hJ hpc q hp hchild hlen
      refine ⟨g, hg, ?_⟩
      rw [hg]
      exact Children.inGroup_setpgid_self hchild (.inr hmember)
    · have hjoined : q ∈ s.joined := by
        obtain ⟨init, hinit⟩ := List.getLast?_eq_some_iff.mp hp
        rw [joined, if_pos hpc, hinit, List.dropLast_concat]
        rw [hinit] at hmem
        exact (List.mem_append.mp hmem).resolve_right fun h => hqp (List.mem_singleton.mp h)
      obtain ⟨g, hg, hqg⟩ := hT q hjoined hchild
      exact ⟨g, hg, (Children.inGroup_setpgid_of_ne hqp).mpr hqg⟩

/-- A stage that repeats the `setpgid` stays where it is. -/
theorem together_joins (hT : s.Together) {p : Pid} :
    Together { s with children := s.children.setpgid p (s.group.getD p) } := by
  refine hT.transfer (List.Subset.refl _) rfl (fun q hq => ?_) fun q g hg hq hqg => ?_
  · rwa [Children.pids_setpgid] at hq
  · by_cases hqp : q = p
    · subst hqp
      rw [hg]
      exact Children.inGroup_setpgid_self hqg.mem_pids
        (.inr (Children.hasGroup_iff.mpr ⟨q, hqg⟩))
    · exact (Children.inGroup_setpgid_of_ne hqp).mpr hqg

/-- **Every step that finds the group there keeps the stages together.** -/
theorem together_step (hI : s.Inv) (hG : s.Grouped) (hT : s.Together) (hJ : s.Joinable l)
    (h : s.step l = some s') : s'.Together := by
  cases moves_of_step h with
  | fork hpc _ hfresh => exact together_fork hI hT hpc hfresh
  | join hpc hp => exact together_join hT hpc hp hG hJ
  | joins => exact together_joins hT
  | ready hpc | overrun hpc | fill hpc | activate hpc | lookup hpc | deactivate hpc =>
    exact hT.transfer (List.Subset.trans joined_subset (forked_subset_joined hpc nofun)) rfl
      (fun _ => id) fun _ _ _ _ => id
  | signal | handled => exact hT.transfer (List.Subset.refl _) rfl (fun _ => id) fun _ _ _ _ => id
  | quiet _ hpc hchildren _ hforked hgroup =>
    refine hT.transfer ?_ hgroup (fun _ => by rw [hchildren]; exact id)
      fun _ _ _ _ => by rw [hchildren]; exact id
    rw [joined_of_ne hpc.ne_join, ← hforked]
    exact joined_subset
  | collect hpc _ hp =>
    refine hT.transfer (List.Subset.trans joined_subset (forked_subset_joined hpc nofun)) rfl
      (fun q hq => ((Children.mem_pids_reap (h := hp.mem_pids)).mp hq).1) fun q g _ hq hqg => ?_
    exact (Children.inGroup_reap (h := hp.mem_pids)).mpr
      ⟨hqg, ((Children.mem_pids_reap (h := hp.mem_pids)).mp hq).2⟩
  | reaps hp =>
    refine hT.transfer (List.Subset.refl _) rfl
      (fun q hq => ((Children.mem_pids_reap (h := hp)).mp hq).1) fun q g _ hq hqg => ?_
    exact (Children.inGroup_reap (h := hp)).mpr
      ⟨hqg, ((Children.mem_pids_reap (h := hp)).mp hq).2⟩
  | noticeStop hpc =>
    refine hT.transfer (List.Subset.trans joined_subset (forked_subset_joined hpc nofun)) rfl
      (fun q hq => ?_) fun q g _ _ hqg => (Children.inGroup_setPhase _).mpr hqg
    rwa [← Children.pids_setPhase]
  | exits | stops | continues =>
    refine hT.transfer (List.Subset.refl _) rfl (fun q hq => ?_)
      fun q g _ _ hqg => (Children.inGroup_setPhase _).mpr hqg
    rwa [← Children.pids_setPhase]

end Ctl

end MiniProject.Shell
