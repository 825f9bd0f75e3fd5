import MiniProject.Kernel.Recovery

/-!
# Kernel/Sync — when `sys_sync` returns, what had been done is on disk

`sys_sync` waits for one more commit, the one in progress included; if nothing is going on, there is
nothing to wait for.  Either way, from some moment of the wait on, when no call was in progress, the
disk amounts to what processes found then.  Commits are counted by an `int`: once in 2³² the count
wraps around at the next commit, and then `sys_sync` does not wait at all.
-/

namespace MiniProject.Kernel.Log

variable {A : Type} {start : BlockNo} {s s' s₁ : Log A} {a : A} {b : BlockNo} {e : Event A}
variable {es es' : List (Event A)}

/-- The machine goes down. -/
def Event.crashes : Event A → Bool
  | .crash => true
  | _ => false

/-- Once the header is written, or once nothing is logged, the disk amounts to what is found. -/
theorem Sound.recovered_eq_view (h : Sound start s) (hop : ∀ a, s.op a = none)
    (hstage : (∃ tail, s.stage = .install tail) ∨ s.lh = [] ∧ s.stage.booting = false) :
    Log.recovered start s.disk b = s.view b := by
  have hdirty : b ∉ s.dirty := h.dirty_eq_nil hop ▸ List.not_mem_nil
  have hpins := h.pins_eq b
  have hstaged := h.staged
  rcases hstage with ⟨tail, hstage⟩ | ⟨hlh, hboot⟩
  · rw [hstage] at hpins hstaged
    rw [Log.recovered, replay_eq_of_agree (g := s.view), map_fst_entries, hstaged.1]
    · split_ifs with hmem
      · rfl
      · refine (h.coherent b ?_ hdirty).symm
        rw [hpins, if_neg fun hin => hmem (mem_of_mem_unflushed hin)]
    · intro x hx
      obtain ⟨i, hi, hd⟩ := mem_entries.mp hx
      rw [hstaged.1] at hi
      rw [hd, hstaged.2 i x.1 hi]
  · have hview : s.view b = s.disk b := by
      refine h.coherent b ?_ hdirty
      rw [hpins, hlh, if_neg fun hin => List.not_mem_nil (mem_of_mem_unflushed hin)]
    rw [hview]
    cases hst : s.stage with
    | idle =>
      rw [hst] at hstaged
      rw [recovered_of_nil hstaged]
    | copy tail | head =>
      rw [hst] at hstaged
      rw [recovered_of_nil hstaged.1]
    | install tail =>
      rw [hst] at hstaged
      rw [recovered_of_nil (hstaged.1.trans hlh)]
    | clear =>
      rw [hst] at hstaged
      rw [recovered_of_installed hstaged.2]
    | finish =>
      rw [hst] at hstaged
      rw [recovered_of_nil hstaged.2]
    | boot | recover tail | reset =>
      rw [hst] at hboot
      cases hboot

/-- While processes run, the commit in progress, if any, has or has not come to its header. -/
theorem Sound.before_or_after (h : Sound start s) (hboot : s.stage.booting = false) :
    (s.stage = .idle ∨ (∃ tail, s.stage = .copy tail) ∨ s.stage = .head) ∨ s.stage ≠ .idle ∧
      ((∃ tail, s.stage = .install tail) ∨ s.lh = [] ∧ s.stage.booting = false) := by
  have hstaged := h.staged
  cases hstage : s.stage with
  | idle => exact .inl (.inl rfl)
  | copy tail => exact .inl (.inr (.inl ⟨tail, rfl⟩))
  | head => exact .inl (.inr (.inr rfl))
  | install tail => exact .inr ⟨by simp, .inl ⟨tail, rfl⟩⟩
  | clear | finish =>
    rw [hstage] at hstaged
    exact .inr ⟨by simp, .inr ⟨hstaged.1, rfl⟩⟩
  | boot | recover tail | reset =>
    rw [hstage] at hboot
    cases hboot

/-! ## The count of commits -/

theorem ncommit_advance [DecidableEq A] (h : s.advance start = some s') :
    s'.ncommit = s.ncommit ∨ ∃ z, s'.ncommit = int z := by
  rw [Log.advance] at h
  split at h
  all_goals try split at h
  all_goals try split_ifs at h
  all_goals try cases h
  all_goals first | exact .inl rfl | exact .inr ⟨_, rfl⟩

/-- A step leaves the count alone, or it is an `int`. -/
theorem ncommit_step [DecidableEq A] (h : s.step start e = some s') :
    s'.ncommit = s.ncommit ∨ ∃ z, s'.ncommit = int z := by
  cases e with
  | crash =>
    cases h
    exact .inr ⟨0, rfl⟩
  | commit =>
    rw [Log.step] at h
    split_ifs at h
    exact ncommit_advance h
  | beginOp a =>
    rw [Log.step] at h
    split_ifs at h
    rw [Log.beginOp] at h
    split_ifs at h
    cases h
    exact .inl rfl
  | bread | modify | brelse | evict =>
    rw [Log.step] at h
    split_ifs at h
    cases h
    exact .inl rfl
  | logWrite a b =>
    rw [Log.step] at h
    split_ifs at h
    cases h
    rw [Log.logWrite]
    split_ifs <;> exact .inl rfl
  | endOp a =>
    rw [Log.step] at h
    split_ifs at h
    cases h
    rw [Log.endOp]
    split_ifs <;> exact .inl rfl
  | sync a =>
    rw [Log.step] at h
    split_ifs at h
    cases h
    rw [sysSync]
    split_ifs <;> exact .inl rfl
  | synced a =>
    rw [Log.step] at h
    split at h
    · cases h
    · split_ifs at h
      cases h
      exact .inl rfl

/-- **The next commit counts one more**, unless the count is at its end. -/
theorem lt_int_ncommit [DecidableEq A] {disk : BlockNo → Block}
    (h : run (step start) (boot disk : Log A) es = some s) (hend : s.ncommit ≠ 2 ^ 31 - 1) :
    s.ncommit < int (s.ncommit + 1) := by
  have hfits : -2 ^ 31 ≤ s.ncommit ∧ s.ncommit < 2 ^ 31 := by
    refine invariant' (I := fun s : Log A => -2 ^ 31 ≤ s.ncommit ∧ s.ncommit < 2 ^ 31)
      (fun s e s' hI hstep => ?_)
      ⟨show (-2 ^ 31 : ℤ) ≤ 0 by decide, show (0 : ℤ) < 2 ^ 31 by decide⟩ h
    rcases ncommit_step hstep with heq | ⟨z, heq⟩
    · rwa [heq]
    · rw [heq]
      exact ⟨Int.le_bmod (by decide), Int.bmod_lt (by decide)⟩
  rw [int, Int.bmod_eq_of_le (by omega) (by omega)]
  exact Int.lt_succ _

/-! ## The wait -/

/-- `sys_sync` of `a` waits for a commit that has yet to come to its header. -/
structure Waits (s : Log A) (a : A) : Prop where
  behind : ∃ n, s.syncing a = some n ∧ s.ncommit < n
  before : s.stage = .idle ∨ (∃ tail, s.stage = .copy tail) ∨ s.stage = .head

/-- Neither the wait nor the commit it waits for is touched by a step of another. -/
theorem Waits.keep (h : Waits s a) (hstage : s'.stage = s.stage) (hncommit : s'.ncommit = s.ncommit)
    (hsyncing : s'.syncing a = s.syncing a) : Waits s' a := by
  refine ⟨?_, ?_⟩
  · rw [hsyncing, hncommit]
    exact h.behind
  · rw [hstage]
    exact h.before

variable [DecidableEq A]

/-- The disk amounts to what processes found at a moment since `s₁` with no call in progress. -/
def Reached (start : BlockNo) (s₁ : Log A) (es : List (Event A)) (s : Log A) : Prop :=
  ∃ es₀, es₀ <+: es ∧ ∃ u, run (step start) s₁ es₀ = some u ∧ (∀ a, u.op a = none) ∧
    ∀ b, Home start b → recovered start s.disk b = u.view b

theorem Reached.now (h : run (step start) s₁ es = some s) (hop : ∀ a, s.op a = none)
    (hview : ∀ b, Home start b → recovered start s.disk b = s.view b) : Reached start s₁ es s :=
  ⟨es, List.prefix_rfl, s, h, hop, hview⟩

theorem Reached.later (h : Reached start s₁ es s) (e : Event A)
    (hdisk : ∀ b, Home start b → recovered start s'.disk b = recovered start s.disk b) :
    Reached start s₁ (es ++ [e]) s' := by
  obtain ⟨es₀, hes₀, u, hu, hop, hview⟩ := h
  exact ⟨es₀, hes₀.trans (List.prefix_append _ _), u, hu, hop, fun b hb => by
    rw [hdisk b hb, hview b hb]⟩

/-- **`end_op`** begins the commit, or finds nothing to commit. -/
theorem Waits.endOp (h : Waits s a) (hsound : Sound start s) {a' : A} (hop : s.op a' ≠ none)
    (hsound' : Sound start (s.endOp a')) :
    Waits (s.endOp a') a ∨ (∀ a, (s.endOp a').op a = none) ∧
      ∀ b, Home start b → recovered start (s.endOp a').disk b = (s.endOp a').view b := by
  have hidle : s.stage = .idle := hsound.idle a' hop
  have hcommitting : s.committing = false := (hsound.committing_of hidle :)
  by_cases hlast : s.outstanding - 1 = 0
  · by_cases hlen : s.lh.length > 0
    · have hend : (s.endOp a').stage = .copy 0 ∧ (s.endOp a').ncommit = s.ncommit ∧
          (s.endOp a').syncing = s.syncing := by
        rw [Log.endOp, hcommitting, if_neg (by simp), if_pos hlast, if_pos hlen]
        exact ⟨rfl, rfl, rfl⟩
      refine .inl ⟨?_, .inr (.inl ⟨0, hend.1⟩)⟩
      rw [hend.2.1, hend.2.2]
      exact h.behind
    · have hend : (s.endOp a').stage = .finish := by
        rw [Log.endOp, hcommitting, if_neg (by simp), if_pos hlast, if_neg hlen]
      have hnone := hsound'.op_eq_none (by simp [hend])
      have hstaged := hsound'.staged
      rw [hend] at hstaged
      exact .inr ⟨hnone, fun b _ =>
        hsound'.recovered_eq_view hnone (.inr ⟨hstaged.1, by rw [hend]; rfl⟩)⟩
  · refine .inl (h.keep ?_ ?_ ?_)
    all_goals rw [Log.endOp, hcommitting, if_neg (by simp), if_neg hlast]

/-- A turn of `commit` before its header is written. -/
theorem Waits.advance (h : Waits s a) (hhead : s.stage ≠ .head) (hs : s.advance start = some s') :
    Waits s' a := by
  rcases h.before with hstage | ⟨tail, hstage⟩ | hstage
  · rw [Log.advance, hstage] at hs
    cases hs
  · rw [Log.advance, hstage] at hs
    dsimp only at hs
    split at hs
    · cases hs
      exact ⟨h.behind, .inr (.inr rfl)⟩
    · split_ifs at hs
      cases hs
      exact ⟨h.behind, .inr (.inl ⟨_, rfl⟩)⟩
  · exact absurd hstage hhead

/-- **A step while `sys_sync` waits**: it still does, or the moment has come. -/
theorem Waits.step (h : Waits s a) (hsound : Sound start s) (he : Disciplined start s e)
    (hcrash : e.crashes = false) (hrun : run (step start) s₁ es = some s)
    (hs : s.step start e = some s') : Waits s' a ∨ Reached start s₁ (es ++ [e]) s' := by
  have hsound' := hsound.step he hs
  have hrun' : run (Log.step start) s₁ (es ++ [e]) = some s' := by
    rw [run_concat, hrun]
    exact hs
  cases e with
  | beginOp a' =>
    rw [Log.step] at hs
    split_ifs at hs
    rw [Log.beginOp] at hs
    split_ifs at hs
    cases hs
    exact .inl (h.keep rfl rfl rfl)
  | bread _ _ | modify _ _ _ | brelse _ _ | evict _ =>
    rw [Log.step] at hs
    split_ifs at hs
    cases hs
    exact .inl (h.keep rfl rfl rfl)
  | logWrite a' b =>
    rw [Log.step] at hs
    split_ifs at hs
    cases hs
    refine .inl ?_
    rw [Log.logWrite]
    split_ifs <;> exact h.keep rfl rfl rfl
  | endOp a' =>
    rw [Log.step] at hs
    split_ifs at hs with hif
    cases hs
    exact (h.endOp hsound hif.2 hsound').imp_right fun hnow => .now hrun' hnow.1 hnow.2
  | sync a' =>
    rw [Log.step] at hs
    split_ifs at hs with hif
    cases hs
    refine .inl (h.keep ?_ ?_ ?_)
    · rw [sysSync]; split_ifs <;> rfl
    · rw [sysSync]; split_ifs <;> rfl
    · have hne : a ≠ a' := fun heq => by
        obtain ⟨n, hn, -⟩ := h.behind
        rw [heq, hif.2.2.2] at hn
        cases hn
      rw [sysSync]
      split_ifs
      · exact Function.update_of_ne hne _ _
      · rfl
  | synced a' =>
    rw [Log.step] at hs
    split at hs
    · cases hs
    · next n hn =>
      split_ifs at hs with hif
      cases hs
      have hne : a ≠ a' := fun heq => by
        obtain ⟨m, hm, hlt⟩ := h.behind
        rw [heq, hn] at hm
        cases hm
        exact hif.2 hlt
      exact .inl (h.keep rfl rfl (Function.update_of_ne hne _ _))
  | commit =>
    rw [Log.step] at hs
    split_ifs at hs
    by_cases hhead : s.stage = .head
    · have hadv := hsound.advanced hs
      refine .inr ⟨es, List.prefix_append _ _, s, hrun, hsound.op_eq_none (by simp [hhead]),
        fun b hb => ?_⟩
      rw [hadv.recovered_eq b hb, if_pos hhead]
    · exact .inl (h.advance hhead hs)
  | crash => cases hcrash

/-- **Once the moment has come, it has come**: a commit only moves it on. -/
theorem Reached.step (h : Reached start s₁ es s) (hsound : Sound start s)
    (he : Disciplined start s e) (hrun : run (step start) s₁ es = some s)
    (hs : s.step start e = some s') : Reached start s₁ (es ++ [e]) s' := by
  by_cases hcommit : .commit ∈ performs s e
  · obtain ⟨rfl, hhead⟩ : e = .commit ∧ s.stage = .head := by
      rw [performs.eq_def] at hcommit
      split at hcommit
      all_goals try split_ifs at hcommit
      all_goals simp_all
    rw [Log.step] at hs
    split_ifs at hs
    have hadv := hsound.advanced hs
    refine ⟨es, List.prefix_append _ _, s, hrun, hsound.op_eq_none (by simp [hhead]),
      fun b hb => ?_⟩
    rw [hadv.recovered_eq b hb, if_pos hhead]
  · exact h.later e fun b hb => hsound.recovered_step he hs hcommit hb

/-- **The call**: it waits for a commit to come, unless the moment is now. -/
theorem sysSync_cases (h : Sound start s) (hboot : s.stage.booting = false)
    (hcount : s.ncommit < int (s.ncommit + 1)) :
    Waits (s.sysSync a) a ∨ Reached start (s.sysSync a) [] (s.sysSync a) := by
  have hnow {u : Log A} (hu : Sound start u) (hop : ∀ a, u.op a = none)
      (hstage : (∃ tail, u.stage = .install tail) ∨ u.lh = [] ∧ u.stage.booting = false) :
      Reached start u [] u := .now rfl hop fun b _ => hu.recovered_eq_view hop hstage
  rw [sysSync]
  split_ifs with hbusy
  · have hu : Sound start { s with
        syncing := Function.update s.syncing a (some (int (s.ncommit + 1))) } := { h with }
    have hbehind : ∃ n, Function.update s.syncing a (some (int (s.ncommit + 1))) a = some n ∧
        s.ncommit < n := ⟨_, Function.update_self _ _ _, hcount⟩
    rcases h.before_or_after hboot with hbefore | ⟨hidle, hafter⟩
    · exact .inl ⟨hbehind, hbefore⟩
    · exact .inr (hnow hu (h.op_eq_none hidle) hafter)
  · obtain ⟨hcommitting, hout⟩ := not_or.mp hbusy
    have hidle : s.stage = .idle := by
      have heq := h.committing_eq
      cases hstage : s.stage <;> simp_all [LogStage.booting, LogStage.committing]
    obtain ⟨F, hF, hcard⟩ := h.active
    have hzero : s.outstanding = 0 := by omega
    have hnone : ∀ a, s.op a = none := by
      rw [hzero, eq_comm, Nat.cast_eq_zero, Finset.card_eq_zero] at hcard
      intro a
      by_contra ha
      exact absurd ((hF a).mpr ha) (by rw [hcard]; exact Finset.notMem_empty a)
    exact .inr (hnow h hnone (.inr ⟨h.quiet hidle hzero, hboot⟩))

/-- **What `sys_sync` promises**: when it returns, with no crash in between, the disk amounts to
what processes found at some moment after the call, when no call was in progress; so that every
call which had ended before is on disk, whole.  That is unless it comes when `ncommit` has gone as
far as an `int` goes. -/
theorem sync_durable {disk : BlockNo → Block} (hdisk : Valid start (readHead (disk start)))
    (hes : Along (step start) (Disciplined start) (boot disk : Log A) es)
    (h : run (step start) (boot disk : Log A) es = some s) (hend : s.ncommit ≠ 2 ^ 31 - 1)
    (hs : s.step start (.sync a) = some s₁)
    (hes' : Along (step start) (fun s e => Disciplined start s e ∧ e.crashes = false) s₁ es')
    (h' : run (step start) s₁ es' = some s') (hdone : s'.syncing a = none) :
    ∃ es₀, es₀ <+: es' ∧ ∃ u, run (step start) s₁ es₀ = some u ∧ (∀ a, u.op a = none) ∧
      ∀ b, Home start b → recovered start s'.disk b = u.view b := by
  have hsound : Sound start s :=
    invariant (fun _ _ _ hI he hs => hI.step he hs) (.boot hdisk) hes h
  have hsound₁ : Sound start s₁ := hsound.step (e := .sync a) trivial hs
  have hcall : Waits s₁ a ∨ Reached start s₁ [] s₁ := by
    rw [Log.step] at hs
    split_ifs at hs with hif
    cases hs
    exact sysSync_cases hsound (Bool.eq_false_iff.mpr hif.2.1) (lt_int_ncommit h hend)
  let I : List (Event A) → Log A → Prop := fun es s =>
    run (step start) s₁ es = some s ∧ Sound start s ∧ (Waits s a ∨ Reached start s₁ es s)
  have hstart : I [] s₁ := ⟨rfl, hsound₁, hcall⟩
  have hI : I ([] ++ es') s' := by
    refine invariant_history (fun es s e s' hI he hs => ?_) hstart hes' h'
    obtain ⟨hrun, hsound, hcall⟩ := hI
    refine ⟨by rw [run_concat, hrun]; exact hs, hsound.step he.1 hs, ?_⟩
    obtain hw | hr := hcall
    · exact hw.step hsound he.1 he.2 hrun hs
    · exact .inr (hr.step hsound he.1 hrun hs)
  refine hI.2.2.resolve_left fun hw => ?_
  obtain ⟨n, hn, -⟩ := hw.behind
  rw [hdone] at hn
  cases hn

/-- A call in progress, when another process asks for `sync`; the call ends, and is committed. -/
def sampleBefore : List (Event ℕ) :=
  [.commit, .commit, .commit, .beginOp 0, .bread 0 45, .modify 0 45 fun _ => 7, .logWrite 0 45,
    .brelse 0 45]

def sampleAfter : List (Event ℕ) :=
  .endOp 0 :: List.replicate 7 .commit ++ [.synced 1]

theorem sync_durable_sample :
    ∃ s s₁ s', run (step 2) (boot zeroes) sampleBefore = some s ∧ s.step 2 (.sync 1) = some s₁ ∧
      run (step 2) s₁ sampleAfter = some s' ∧
      ∃ es₀, es₀ <+: sampleAfter ∧ ∃ u, run (step 2) s₁ es₀ = some u ∧ (∀ a, u.op a = none) ∧
        ∀ b, Home 2 b → recovered 2 s'.disk b = u.view b := by
  have hes : Along (step 2) (Disciplined 2) (boot zeroes) sampleBefore := by decide +kernel
  have hall : ((run (step 2) (boot zeroes) sampleBefore).bind fun s => (s.step 2 (.sync 1)).bind
      fun s₁ => (run (step 2) s₁ sampleAfter).bind fun s' =>
        if s.ncommit ≠ 2 ^ 31 - 1 ∧ s'.syncing 1 = none ∧
            Along (step 2) (fun s e => Disciplined 2 s e ∧ e.crashes = false) s₁ sampleAfter then
          some ()
        else none) = some () := by decide +kernel
  simp only [Option.bind_eq_some_iff] at hall
  obtain ⟨s, hs, s₁, hs₁, s', hs', hif⟩ := hall
  split_ifs at hif with hdone
  exact ⟨s, s₁, s', hs, hs₁, hs',
    sync_durable (valid_zeroes 2) hes hs hdone.1 hs₁ hdone.2.2 hs' hdone.2.1⟩

end MiniProject.Kernel.Log
