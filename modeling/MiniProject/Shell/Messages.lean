import MiniProject.Shell.Console

/-!
# Shell/Messages — what is written while a job holds the terminal

The handler writes the exit message of a background process, or queues it if `fg_running` is set.
That is so exactly from the launch of a foreground pipeline to its end; `resume %n fg` gives a job
the terminal without it.  So while a job holds the terminal nothing but the shell's own notices is
written, and every exit message waits in the queue, exactly as long as none comes during a `resume`,
and none finds the queue full (`deferred_iff`).
-/

namespace MiniProject.Shell

/-! ## The message of a process -/

namespace JobTable

variable {t : JobTable} {pid : Pid} {normal : Bool}

/-- The exit message that `reap_finished` has for a process, if it was a background one. -/
def exitMessage (t : JobTable) (pid : Pid) (normal : Bool) : Option Text :=
  match t.findJobContainingPid pid with
  | none => none
  | some k =>
    match t.jobs[k]? with
    | none => none
    | some j =>
      if j.background then some (exitLine ((j.procs.head?.map Proc.name).getD []) pid normal)
      else none

@[simp] theorem out_removePidFromJob : (t.removePidFromJob pid).out = t.out := by
  rw [removePidFromJob]
  split <;> rfl

@[simp] theorem pending_removePidFromJob : (t.removePidFromJob pid).pending = t.pending := by
  rw [removePidFromJob]
  split <;> rfl

@[simp] theorem fgRunning_removePidFromJob : (t.removePidFromJob pid).fgRunning = t.fgRunning := by
  rw [removePidFromJob]
  split <;> rfl

@[simp] theorem fgRunning_queueOrPrint (name : Text) :
    (t.queueOrPrint name pid normal).fgRunning = t.fgRunning := by
  rw [queueOrPrint]
  split
  · split <;> rfl
  · rfl

theorem fgRunning_reapFinished : (t.reapFinished pid normal).fgRunning = t.fgRunning := by
  rw [reapFinished]
  split
  · rfl
  · rw [fgRunning_removePidFromJob]
    split
    · rfl
    · split
      · exact fgRunning_queueOrPrint _
      · rfl

/-- A message is written or queued, and the process removed. -/
theorem reapFinished_of_some {m : Text} (h : t.exitMessage pid normal = some m) :
    ∃ name, m = exitLine name pid normal ∧
      t.reapFinished pid normal = (t.queueOrPrint name pid normal).removePidFromJob pid := by
  rw [exitMessage] at h
  split at h
  · cases h
  · rename_i k hk
    split at h
    · cases h
    · rename_i j hj
      obtain ⟨hbg, h⟩ := Option.ite_none_right_eq_some.mp h
      cases h
      refine ⟨_, rfl, ?_⟩
      simp only [reapFinished, hk, hj, if_pos hbg]

/-- Without a message nothing is written or queued. -/
theorem reapFinished_of_none (h : t.exitMessage pid normal = none) :
    (t.reapFinished pid normal).out = t.out ∧ (t.reapFinished pid normal).pending = t.pending := by
  rw [exitMessage] at h
  cases hk : t.findJobContainingPid pid with
  | none => simp only [reapFinished, hk, and_self]
  | some k =>
    simp only [hk] at h
    cases hj : t.jobs[k]? with
    | none =>
      simp only [reapFinished, hk, hj, out_removePidFromJob, pending_removePidFromJob, and_self]
    | some j =>
      simp only [hj] at h
      have hbg : ¬ j.background = true := fun hbg => by
        rw [if_pos hbg] at h
        cases h
      simp only [reapFinished, hk, hj, if_neg hbg, out_removePidFromJob, pending_removePidFromJob,
        and_self]

/-- **A message is queued** exactly while `fg_running` is set and the queue has room. -/
theorem queued_iff {m : Text} (h : t.exitMessage pid normal = some m) :
    ((t.reapFinished pid normal).out = t.out ∧
      (t.reapFinished pid normal).pending = t.pending ++ [m]) ↔
      t.fgRunning = true ∧ t.pending.length < maxPending := by
  obtain ⟨name, rfl, hreap⟩ := reapFinished_of_some h
  rw [hreap, out_removePidFromJob, pending_removePidFromJob, queueOrPrint]
  split
  · rename_i hfg
    split
    · rename_i hroom
      exact iff_of_true ⟨rfl, rfl⟩ ⟨hfg, hroom⟩
    · rename_i hroom
      refine iff_of_false (fun h => ?_) fun h => hroom h.2
      simpa using congrArg List.length h.2
  · rename_i hfg
    refine iff_of_false (fun h => ?_) fun h => hfg h.1
    simpa [print] using congrArg List.length h.1

end JobTable

/-! ## While a job holds the terminal -/

namespace Console

variable {s s' : Console} {e : Event}

/-- The exit message a step comes with. -/
def exitMessage (s : Console) : Event → Option Text
  | .reaps p =>
    match s.children.phase? p with
    | some (.zombie normal) => s.table.exitMessage p normal
    | _ => none
  | _ => none

/-- The notices of the shell itself: that the job in the foreground has stopped, or has timed
out. -/
def notices (s : Console) : Event → List Text
  | .noticeStop _ =>
    match s.place with
    | .wait _ => [s.stopLine]
    | _ => []
  | .main =>
    match s.place with
    | .expired _ => [timedOut]
    | _ => []
  | _ => []

/-- **If a job holds the terminal, only notices are written**, and an exit message goes to the
queue. -/
def Deferred (s : Console) (e : Event) : Prop :=
  s.terminal.isSome → ∀ s' ∈ s.step e,
    s'.table.out = s.table.out ++ s.notices e ∧
      s'.table.pending = s.table.pending ++ (s.exitMessage e).toList

/-- `run_foreground` waits, or is about to take the terminal back. -/
def attending (s : Console) : Bool :=
  match s.place with
  | .wait _ | .giveBack _ => true
  | _ => false

/-- An exit message that comes while a job holds the terminal comes while `run_foreground` waits for
it, and finds fewer than `maxPending` messages in the queue. -/
def InTurn (s : Console) (e : Event) : Prop :=
  s.terminal.isSome → (s.exitMessage e).isSome →
    s.attending = true ∧ s.table.pending.length < maxPending

instance (s : Console) (e : Event) : Decidable (s.InTurn e) :=
  inferInstanceAs (Decidable (_ → _ → _ ∧ _))

/-! ## The flag and the terminal -/

/-- Between `fg_running = 1` and `fg_running = 0`. -/
def launching (s : Console) : Bool :=
  match s.place with
  | .fork | .fill | .activate | .fault _ => !s.background
  | .lookup | .takeTerminal | .wait _ | .giveBack _ | .leave _ | .clearFg => true
  | _ => false

/-- Between the two calls of `tcsetpgrp`. -/
def holding (s : Console) : Bool :=
  match s.place with
  | .wait _ | .giveBack _ | .mark _ _ | .await _ _ _ | .settle _ _ _ | .expired _ | .release _ =>
    true
  | _ => false

/-- `fg_running` is set for a launch in the foreground, and the terminal is given away between the
two calls of `tcsetpgrp`. -/
structure Flagged (s : Console) : Prop where
  fgRunning : s.table.fgRunning = s.launching
  terminal : s.terminal.isSome = s.holding

theorem flagged_initial : initial.Flagged := ⟨rfl, rfl⟩

theorem Flagged.congr (h : s.Flagged) (hfg : s'.table.fgRunning = s.table.fgRunning)
    (hterm : s'.terminal = s.terminal) (hplace : s'.place = s.place)
    (hbg : s'.background = s.background) : s'.Flagged := by
  refine ⟨?_, ?_⟩
  · rw [hfg, h.fgRunning, launching, launching, hplace, hbg]
  · rw [hterm, h.terminal, holding, holding, hplace]

theorem fgRunning_fillSlot {t t' : JobTable} {pgid : Pid} {pids : List Pid} {names : List Text}
    {command : Text} {background : Bool}
    (h : t.fillSlot pgid pids names command background = .ok t') : t'.fgRunning = t.fgRunning := by
  rw [JobTable.fillSlot] at h
  split at h
  · split at h
    · cases h
      rfl
    · cases h
  · cases h

theorem flagged_main (h : s.Flagged) (hstep : s.main = some s') : s'.Flagged := by
  have ⟨hfg, hterm⟩ := h
  rw [main] at hstep
  rw [launching] at hfg
  rw [holding] at hterm
  split at hstep <;> rename_i hplace <;> simp only [hplace] at hfg hterm
  case h_1 => -- `.prompt`
    cases hstep
    exact h.congr rfl rfl rfl rfl
  case h_2 | h_8 | h_18 => -- `.fork`, `.wait` and `.await` go on under a condition
    split at hstep <;> cases hstep
    exact ⟨hfg, hterm⟩
  case h_3 => -- `.fill`
    split at hstep <;> cases hstep
    · exact ⟨hfg, hterm⟩
    · rename_i hfill
      exact ⟨(fgRunning_fillSlot hfill).trans hfg, hterm⟩
  case h_4 => -- `.activate`
    cases hstep
    refine ⟨?_, hterm.trans ?_⟩
    · change s.table.fgRunning = _
      rw [hfg, launching]
      cases s.background <;> rfl
    · rw [holding]
      cases s.background <;> rfl
  case h_10 => -- `.leave`
    split at hstep <;> cases hstep
    · exact ⟨hfg, hterm⟩
    · refine ⟨?_, hterm⟩
      dsimp only
      split
      · exact hfg
      · exact hfg
  case h_13 => -- `.cont`
    rename_i how
    cases hstep
    cases how <;> exact ⟨hfg, hterm⟩
  case h_19 => -- `.settle`
    cases hstep
    refine ⟨?_, hterm⟩
    dsimp only
    split <;> exact hfg
  case h_22 => cases hstep
  all_goals
    cases hstep
    first
      | exact ⟨hfg, hterm⟩
      | exact ⟨hfg, rfl⟩
      | exact ⟨rfl, hterm⟩

/-- **The flag and the terminal follow the place.** -/
theorem flagged_step (h : s.Flagged) (hstep : s.step e = some s') : s'.Flagged := by
  have ⟨hfg, hterm⟩ := h
  rw [launching] at hfg
  rw [holding] at hterm
  cases moves_of_step hstep with
  | main hmain => exact flagged_main h hmain
  | idle => exact h
  | @launch names command background hplace =>
    simp only [hplace] at hfg hterm
    refine ⟨?_, hterm⟩
    cases background
    · rfl
    · exact hfg
  | ping | ctrlZ | fork | exits | signal | handled => exact h.congr rfl rfl rfl rfl
  | reaps => exact h.congr JobTable.fgRunning_reapFinished rfl rfl rfl
  | noticeStop hplace =>
    simp only [hplace] at hfg hterm
    refine ⟨?_, hterm⟩
    cases s.job <;> exact hfg
  | timeout hplace =>
    rcases hplace with hplace | hplace
    all_goals
      simp only [hplace] at hfg hterm
      exact ⟨hfg, hterm⟩
  | resume hplace | collect hplace | collectResumed hplace | noticeStopResumed hplace
  | noChild hplace | noChildResumed hplace =>
    simp only [hplace] at hfg hterm
    exact ⟨hfg, hterm⟩

/-- While a job holds the terminal, `fg_running` is set exactly in `run_foreground`. -/
theorem Flagged.fgRunning_eq (h : s.Flagged) (hterm : s.terminal.isSome) :
    s.table.fgRunning = s.attending := by
  rw [h.terminal, holding] at hterm
  rw [h.fgRunning, launching, attending]
  split at hterm
  case h_8 => cases hterm
  all_goals
    rename_i hplace
    simp only [hplace]

/-! ## What a step writes -/

/-- Nothing is written and nothing queued but the notices. -/
def Quiet (s : Console) (e : Event) (s' : Console) : Prop :=
  s'.table.out = s.table.out ++ s.notices e ∧ s'.table.pending = s.table.pending

theorem quiet_refl (hnotices : s.notices e = []) (hout : s'.table.out = s.table.out)
    (hpending : s'.table.pending = s.table.pending) : s.Quiet e s' :=
  ⟨by rw [hout, hnotices, List.append_nil], hpending⟩

/-- The shell on its own writes nothing else while a job holds the terminal. -/
theorem quiet_main (h : s.Flagged) (hterm : s.terminal.isSome) (hstep : s.main = some s') :
    s.Quiet .main s' := by
  rw [h.terminal, holding] at hterm
  rw [main] at hstep
  split at hstep <;> rename_i hplace <;> simp only [hplace, Bool.false_eq_true] at hterm
  case h_8 => -- `.wait`
    split at hstep <;> cases hstep
    exact quiet_refl (by simp only [notices, hplace]) rfl rfl
  case h_18 => -- `.await`
    split at hstep <;> cases hstep
    exact quiet_refl (by simp only [notices, hplace]) rfl rfl
  case h_19 => -- `.settle`
    cases hstep
    refine quiet_refl (by simp only [notices, hplace]) ?_ ?_
    all_goals
      dsimp only
      split <;> rfl
  case h_20 => -- `.expired`
    cases hstep
    exact ⟨by simp only [notices, hplace]; rfl, rfl⟩
  all_goals
    cases hstep
    exact quiet_refl (by simp only [notices, hplace]) rfl rfl

/-- A step without an exit message is quiet. -/
theorem quiet_step (h : s.Flagged) (hterm : s.terminal.isSome) (hstep : s.step e = some s')
    (hmsg : s.exitMessage e = none) : s.Quiet e s' := by
  have hholding := hterm
  rw [h.terminal, holding] at hholding
  cases moves_of_step hstep with
  | main hmain => exact quiet_main h hterm hmain
  | @idle e he =>
    cases e with
    | resume | ping | ctrlZ => exact quiet_refl rfl rfl rfl
    | _ => exact absurd he id
  | launch hplace | resume hplace | ping hplace | fork hplace =>
    simp only [hplace, Bool.false_eq_true] at hholding
  | ctrlZ | exits | signal | handled | collect | collectResumed | noChild | noChildResumed
    | timeout => exact quiet_refl rfl rfl rfl
  | noticeStop hplace =>
    refine ⟨?_, ?_⟩
    · simp only [notices, hplace]
      cases s.job <;> rfl
    · cases s.job <;> rfl
  | noticeStopResumed hplace => exact quiet_refl (by simp only [notices, hplace]) rfl rfl
  | reaps hphase =>
    rw [exitMessage, hphase] at hmsg
    obtain ⟨hout, hpending⟩ := JobTable.reapFinished_of_none hmsg
    exact quiet_refl rfl hout hpending

/-- **A step keeps its message for later** exactly if the message comes in turn. -/
theorem deferred_step (h : s.Flagged) (hstep : s.step e = some s') :
    s.Deferred e ↔ s.InTurn e := by
  refine forall_congr' fun hterm => ?_
  cases hmsg : s.exitMessage e with
  | none =>
    refine iff_of_true (fun t ht => ?_) fun hsome => nomatch hsome
    obtain ⟨hout, hpending⟩ := quiet_step h hterm ht hmsg
    exact ⟨hout, hpending.trans (List.append_nil _).symm⟩
  | some m =>
    rw [← h.fgRunning_eq hterm]
    cases moves_of_step hstep with
    | @reaps p normal hphase hp =>
      rw [exitMessage, hphase] at hmsg
      rw [← JobTable.queued_iff hmsg, hstep]
      constructor
      · intro hdef _
        obtain ⟨hout, hpending⟩ := hdef _ rfl
        exact ⟨hout.trans (List.append_nil _), hpending⟩
      · rintro hqueued t ⟨⟩
        obtain ⟨hout, hpending⟩ := hqueued rfl
        exact ⟨hout.trans (List.append_nil _).symm, hpending⟩
    | @idle e he =>
      cases e with
      | resume | ping | ctrlZ => cases hmsg
      | _ => exact absurd he id
    | _ => cases hmsg

/-! ## Over a whole session -/

/-- **Every exit message that comes while a job holds the terminal waits until the shell has it
back**, exactly if each comes while `run_foreground` waits and finds room in the queue. -/
theorem deferred_iff {ls : List Event} (h : run step initial ls = some s) :
    Along step Deferred initial ls ↔ Along step InTurn initial ls :=
  along_congr (fun _ _ _ => flagged_step) (fun _ _ _ => deferred_step) flagged_initial h

/-- `a &`, then `b` in the foreground; `a` terminates while `b` runs. -/
theorem deferred_iff_two :
    ∃ s, run step initial
        ([Event.launch [['a']] ['a'] true, .fork 10] ++ List.replicate 4 Event.main ++
          [Event.launch [['b']] ['b'] false, .fork 11] ++ List.replicate 5 Event.main ++
          [Event.exits 10 true, .signal, .reaps 10, .handled]) = some s ∧
      s.terminal = some 1 ∧ s.table.pending.length = 1 ∧
      Along step Deferred initial
        ([Event.launch [['a']] ['a'] true, .fork 10] ++ List.replicate 4 Event.main ++
          [Event.launch [['b']] ['b'] false, .fork 11] ++ List.replicate 5 Event.main ++
          [Event.exits 10 true, .signal, .reaps 10, .handled]) := by
  obtain ⟨s, hs, hterm, hlen⟩ :
      ∃ s ∈ run step initial
          ([Event.launch [['a']] ['a'] true, .fork 10] ++ List.replicate 4 Event.main ++
            [Event.launch [['b']] ['b'] false, .fork 11] ++ List.replicate 5 Event.main ++
            [Event.exits 10 true, .signal, .reaps 10, .handled]),
        s.terminal = some 1 ∧ s.table.pending.length = 1 := by decide +kernel
  exact ⟨s, hs, hterm, hlen, (deferred_iff hs).mpr (by decide +kernel)⟩

/-- `a &` and `b &`, then `resume %1 fg`; `b` terminates while `a` holds the terminal. -/
def meantime : List Event :=
  [Event.launch [['a']] ['a'] true, .fork 10] ++ List.replicate 4 Event.main ++
    [Event.launch [['b']] ['b'] true, .fork 11] ++ List.replicate 4 Event.main ++
    [Event.resume 1 (.fg 0)] ++ List.replicate 4 Event.main ++ [Event.exits 11 true, .signal]

/-- **During a `resume`** the message is written at once. -/
theorem not_deferred :
    ∃ s, run step initial meantime = some s ∧ s.terminal = some 0 ∧ ¬ s.Deferred (.reaps 11) := by
  obtain ⟨s, hs, hterm, t, ht, hlen⟩ : ∃ s ∈ run step initial meantime, s.terminal = some 0 ∧
      ∃ t ∈ s.step (.reaps 11), t.table.out.length = s.table.out.length + 1 := by decide +kernel
  refine ⟨s, hs, hterm, fun hdef => ?_⟩
  have hout := (hdef (by rw [hterm]; rfl) t ht).1
  have hnone : s.notices (.reaps 11) = [] := rfl
  rw [hout, hnone, List.append_nil] at hlen
  omega

end Console

end MiniProject.Shell
