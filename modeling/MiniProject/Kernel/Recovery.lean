import MiniProject.Kernel.LogInvariant
import MiniProject.Machinery.Refines

/-!
# Kernel/Recovery — a crash loses nothing that was committed, and keeps nothing else

The write of the header is the commit: before it the log is invisible, after it the log can be
carried out any number of times.  Every other block that is written, in whatever order the calls
and the crashes come, leaves what the disk amounts to as it was (`Advanced`).  To the calls the
file system is a store of which a crash keeps the last commit (`crash_safe`).
-/

namespace MiniProject.Kernel.Log

variable {A : Type} {start : BlockNo} {s s' : Log A} {a : A} {b : BlockNo} {d : Block}

/-! ## The commit point

One turn of `commit` or of recovery leaves what the disk amounts to as it is, and what processes
find; but for the write of the header, after which the two are the same. -/

/-- What a turn does to both. -/
structure Advanced (start : BlockNo) (s s' : Log A) : Prop where
  sound : Sound start s'
  op_eq : s'.op = s.op
  recovered_eq : ∀ b, Home start b →
    recovered start s'.disk b = if s.stage = .head then s.view b else recovered start s.disk b
  view_eq : ∀ b, Home start b →
    (if s'.stage.booting then recovered start s'.disk b else s'.view b) =
      if s.stage.booting then recovered start s.disk b else s.view b

namespace Advanced

/-- A turn that writes nothing. -/
theorem of_eq (h : Sound start s') (hop : s'.op = s.op) (hdisk : s'.disk = s.disk)
    (hview : s'.view = s.view) (hhead : s.stage ≠ .head)
    (hboot : s'.stage.booting = s.stage.booting) : Advanced start s s' := by
  refine ⟨h, hop, fun b _ => ?_, fun b _ => ?_⟩
  · rw [hdisk, if_neg hhead]
  · rw [hboot, hdisk, hview]

/-- A turn that leaves the home blocks alone and the header empty. -/
theorem of_home (h : Sound start s') (hop : s'.op = s.op)
    (hdisk : ∀ b, Home start b → s'.disk b = recovered start s.disk b)
    (hview : ∀ b, Home start b → s'.view b = s.view b) (hnil : readHead (s'.disk start) = [])
    (hhead : s.stage ≠ .head) (hboot : s.stage.booting = false)
    (hboot' : s'.stage.booting = false) : Advanced start s s' := by
  refine ⟨h, hop, fun b hb => ?_, fun b hb => ?_⟩
  · rw [recovered_of_nil hnil, hdisk b hb, if_neg hhead]
  · rw [hboot, hboot', if_neg Bool.false_ne_true, if_neg Bool.false_ne_true, hview b hb]

end Advanced

namespace Sound

variable [DecidableEq A]

theorem advanced_copy (h : Sound start s) {tail : ℕ} (hstage : s.stage = .copy tail)
    (hs : s.advance start = some s') : Advanced start s s' := by
  rw [Log.advance, hstage] at hs
  dsimp only at hs
  have hstaged := h.staged
  rw [hstage] at hstaged
  split at hs
  case h_1 hb =>
    cases hs
    have hpins := h.pins_eq
    rw [hstage] at hpins
    refine Advanced.of_eq { h with
      pins_eq := hpins, committing_eq := (h.committing_of hstage :), staged := ⟨hstaged.1, ?_⟩
      idle := fun a' ha' => absurd (h.op_eq_none (by simp [hstage]) a') ha'
      quiet := fun hidle => by cases hidle } rfl rfl rfl (by simp [hstage]) (by rw [hstage]; rfl)
    intro i b (hi : s.lh[i]? = some b)
    exact hstaged.2 i (Nat.lt_of_lt_of_le (List.getElem?_eq_some_iff.mp hi).1
      (List.getElem?_eq_none_iff.mp hb)) b hi
  case h_2 b hb =>
    split_ifs at hs
    cases hs
    have hlt : tail < logblocks := h.lh_valid.lt hb
    refine .of_home (h.writeLog hstage hb) rfl (fun b' hb' => ?_) (fun b' hb' => ?_) ?_
      (by simp [hstage]) (by rw [hstage]; rfl) rfl
    · rw [disk_enter, disk_writeLog, Function.update_of_ne (slot_ne_home hlt hb').symm,
        recovered_of_nil hstaged.1]
    · rw [view_enter, view_writeLog, Function.update_of_ne (slot_ne_home hlt hb').symm]
    · rw [disk_enter, disk_writeLog, Function.update_of_ne (slot_ne_start hlt).symm, hstaged.1]

theorem advanced_head (h : Sound start s) (hstage : s.stage = .head)
    (hs : s.advance start = some s') : Advanced start s s' := by
  rw [Log.advance, hstage] at hs
  dsimp only at hs
  split_ifs at hs
  cases hs
  have hpins := h.pins_eq
  have hstaged := h.staged
  rw [hstage] at hpins hstaged
  refine ⟨h.commit hstage, rfl, fun b hb => ?_, fun b hb => ?_⟩
  · rw [if_pos hstage]
    refine recovered_commit h.lh_valid hstaged.2 (fun b' hb' hmem => ?_) hb
    refine (h.coherent b' ?_ (h.dirty_eq_nil (h.op_eq_none (by simp [hstage])) ▸
      List.not_mem_nil)).symm
    rw [hpins b']
    exact if_neg hmem
  · rw [hstage, view_enter, view_writeHeader, Function.update_of_ne (start_ne_home hb).symm]
    exact (if_neg Bool.false_ne_true).trans (if_neg Bool.false_ne_true).symm

theorem advanced_install (h : Sound start s) {tail : ℕ} (hstage : s.stage = .install tail)
    (hs : s.advance start = some s') : Advanced start s s' := by
  rw [Log.advance, hstage] at hs
  dsimp only at hs
  have hstaged := h.staged
  rw [hstage] at hstaged
  split at hs
  case h_1 hb =>
    cases hs
    exact .of_eq (h.installed hstage hb) rfl rfl rfl (by simp [hstage]) (by rw [hstage]; rfl)
  case h_2 b hb =>
    split_ifs at hs
    cases hs
    refine ⟨h.install hstage hb, rfl, fun b' hb' => ?_, fun b' hb' => ?_⟩
    · rw [if_neg (by simp [hstage]), disk_enter, disk_installTrans,
        h.view_eq_of_not_home (not_home_slot (h.lh_valid.lt hb)),
        recovered_install h.head_valid (by rw [hstaged.1, hb])]
    · rw [hstage, view_enter, view_installTrans, h.view_slot hstage hb, Function.update_eq_self]
      exact (if_neg Bool.false_ne_true).trans (if_neg Bool.false_ne_true).symm

/-- The header is cleared once everything is at home. -/
theorem advanced_clear (h : Sound start s) (hstage : s.stage = .clear)
    (hs : s.advance start = some s') : Advanced start s s' := by
  rw [Log.advance, hstage] at hs
  dsimp only at hs
  split_ifs at hs
  cases hs
  have hpins := h.pins_eq
  have hstaged := h.staged
  rw [hstage] at hpins hstaged
  have hsound := h.reset hstaged.1 hpins (h.op_eq_none (by simp [hstage])) (.inr rfl)
    (h.committing_of hstage :)
  refine .of_home hsound rfl (fun b hb => ?_) (fun b hb => ?_) hsound.staged.2 (by simp [hstage])
    (by rw [hstage]; rfl) rfl
  · rw [recovered_of_installed hstaged.2]
    exact Function.update_of_ne (start_ne_home hb).symm _ _
  · rw [view_enter, view_writeHeader, Function.update_of_ne (start_ne_home hb).symm]

theorem advanced_recover (h : Sound start s) {tail : ℕ} (hstage : s.stage = .recover tail)
    (hs : s.advance start = some s') : Advanced start s s' := by
  rw [Log.advance, hstage] at hs
  dsimp only at hs
  have hstaged := h.staged
  rw [hstage] at hstaged
  split at hs
  case h_1 hb =>
    cases hs
    exact .of_eq (h.recovered hstage hb) rfl rfl rfl (by simp [hstage]) (by rw [hstage]; rfl)
  case h_2 b hb =>
    cases hs
    have heq : Log.recovered start ((s.installTrans start true tail b).enter
        (.recover (tail + 1))).disk = Log.recovered start s.disk := by
      rw [disk_enter, disk_installTrans, h.view_eq_of_not_home (not_home_slot (h.lh_valid.lt hb)),
        recovered_install h.head_valid (by rw [hstaged.1, hb])]
    refine ⟨h.recover hstage hb, rfl, fun b' hb' => ?_, fun b' hb' => ?_⟩
    · rw [if_neg (by simp [hstage]), heq]
    · rw [hstage, heq]
      exact (if_pos rfl).trans (if_pos rfl).symm

/-- The end of recovery: what processes find is what the disk amounted to. -/
theorem advanced_reset (h : Sound start s) (hstage : s.stage = .reset)
    (hs : s.advance start = some s') : Advanced start s s' := by
  rw [Log.advance, hstage] at hs
  cases hs
  have hpins := h.pins_eq
  have hstaged := h.staged
  rw [hstage] at hpins hstaged
  have hop := h.op_eq_none (by simp [hstage])
  have hsound := h.reset hstaged.1 hpins hop (.inl rfl) (h.committing_of hstage :)
  have hdisk : ∀ b, Home start b → (s.writeHeader start).disk b = Log.recovered start s.disk b := by
    intro b hb
    rw [recovered_of_installed hstaged.2]
    exact Function.update_of_ne (start_ne_home hb).symm _ _
  refine ⟨hsound, rfl, fun b hb => ?_, fun b hb => ?_⟩
  · rw [if_neg (by simp [hstage]), recovered_of_nil hsound.staged]
    exact hdisk b hb
  · rw [hstage]
    refine (if_neg Bool.false_ne_true).trans (Eq.trans ?_ (if_pos rfl).symm)
    rw [← hdisk b hb]
    exact hsound.coherent b (hpins b) (h.dirty_eq_nil hop ▸ List.not_mem_nil)

/-- **A turn of `commit` or of recovery.** -/
theorem advanced (h : Sound start s) (hs : s.advance start = some s') : Advanced start s s' := by
  cases hstage : s.stage with
  | idle =>
    rw [Log.advance, hstage] at hs
    cases hs
  | copy tail => exact h.advanced_copy hstage hs
  | head => exact h.advanced_head hstage hs
  | install tail => exact h.advanced_install hstage hs
  | clear => exact h.advanced_clear hstage hs
  | finish =>
    rw [Log.advance, hstage] at hs
    cases hs
    exact .of_eq (h.finish hstage) rfl rfl rfl (by simp [hstage]) (by rw [hstage]; rfl)
  | boot =>
    rw [Log.advance, hstage] at hs
    cases hs
    exact .of_eq (h.readHead hstage) rfl rfl view_bread (by simp [hstage]) (by rw [hstage]; rfl)
  | recover tail => exact h.advanced_recover hstage hs
  | reset => exact h.advanced_reset hstage hs

end Sound

/-! ## The store that the calls see -/

/-- What a step is to the store: the header written by `commit` is the commit. -/
def performs (s : Log A) : Event A → List (Durable.Event A BlockNo Block)
  | .beginOp a => [.start a]
  | .modify a b d => [.write a b d]
  | .endOp a => [.finish a]
  | .commit => if s.stage = .head then [.commit] else []
  | .crash => [.crash]
  | _ => []

/-- The calls in progress are those of the store; processes find what it holds now, and the disk
amounts to what it kept. -/
structure Stores (start : BlockNo) (s : Log A) (t : Durable A BlockNo Block) : Prop where
  sound : Sound start s
  active : ∀ a, a ∈ t.active ↔ s.op a ≠ none
  now : ∀ b, Home start b →
    (if s.stage.booting then recovered start s.disk b else s.view b) = t.now b
  kept : ∀ b, Home start b → recovered start s.disk b = t.kept b

namespace Stores

variable {t : Durable A BlockNo Block}

/-- A step that changes no block, neither on disk nor in the buffers, nor who is in a call. -/
theorem keep (h : Stores start s t) (hs : Sound start s')
    (hop : ∀ a, s'.op a ≠ none ↔ s.op a ≠ none) (hdisk : s'.disk = s.disk)
    (hview : s'.view = s.view)
    (hboot : s'.stage.booting = s.stage.booting) : Stores start s' t := by
  refine ⟨hs, fun a => (h.active a).trans (hop a).symm, fun b hb => ?_, fun b hb => ?_⟩
  · rw [hboot, hdisk, hview, h.now b hb]
  · rw [hdisk, h.kept b hb]

variable [DecidableEq A]

theorem beginOp (h : Stores start s t) (hboot : ¬ s.stage.booting) (hop : s.op a = none)
    (hs : s.beginOp a = some s') :
    ∃ t', t.step (.start a) = some t' ∧ Stores start s' t' := by
  have hsound := h.sound.beginOp hboot hop hs
  have hnot : a ∉ t.active := fun ha => (h.active a).mp ha hop
  rw [Log.beginOp] at hs
  split_ifs at hs
  cases hs
  refine ⟨_, if_neg hnot, hsound, fun a' => ?_, h.now, h.kept⟩
  by_cases ha' : a' = a
  · simp [ha']
  · simp [ha', h.active]

theorem endOp (h : Stores start s t) (hop : s.op a ≠ none)
    (hlogged : ∀ b ∈ s.dirty, s.held b ≠ some a) :
    ∃ t', t.step (.finish a) = some t' ∧ Stores start (s.endOp a) t' := by
  have hsound := h.sound.endOp hop hlogged
  have hidle : s.stage = .idle := h.sound.idle a hop
  have hshape : (s.endOp a).op = Function.update s.op a none ∧ (s.endOp a).disk = s.disk ∧
      (s.endOp a).view = s.view ∧ (s.endOp a).stage.booting = false := by
    rw [Log.endOp]
    split_ifs
    · exact ⟨rfl, rfl, rfl, by rw [hidle]; rfl⟩
    · exact ⟨rfl, rfl, rfl, rfl⟩
    · exact ⟨rfl, rfl, rfl, rfl⟩
    · exact ⟨rfl, rfl, rfl, by rw [hidle]; rfl⟩
  obtain ⟨hop', hdisk, hview, hboot⟩ := hshape
  refine ⟨_, if_pos ((h.active a).mpr hop), hsound, fun a' => ?_, fun b hb => ?_, fun b hb => ?_⟩
  · rw [hop']
    by_cases ha' : a' = a
    · simp [ha']
    · simp [ha', h.active]
  · rw [hboot, hdisk, hview, ← h.now b hb, hidle]
    rfl
  · rw [hdisk, h.kept b hb]

theorem modify (h : Stores start s t) (hop : s.op a ≠ none) (hheld : s.held b = some a) :
    ∃ t', t.step (.write a b d) = some t' ∧
      Stores start { s.fill b d with dirty := b :: s.dirty } t' := by
  have hidle : s.stage = .idle := h.sound.idle a hop
  refine ⟨_, if_pos ((h.active a).mpr hop), h.sound.modify hop hheld, h.active, fun b' hb' => ?_,
    h.kept⟩
  have hnow := h.now b' hb'
  rw [hidle] at hnow
  replace hnow : s.view b' = t.now b' := (if_neg Bool.false_ne_true).symm.trans hnow
  change (if s.stage.booting then _ else (s.fill b d).view b') = Function.update t.now b d b'
  rw [hidle, view_fill]
  refine (if_neg Bool.false_ne_true).trans ?_
  by_cases heq : b' = b
  · rw [heq, Function.update_self, Function.update_self]
  · rw [Function.update_of_ne heq, Function.update_of_ne heq, hnow]

/-- **The header written by `commit` is the commit**, and nothing else is. -/
theorem advance (h : Stores start s t) (hs : s.advance start = some s') :
    ∃ t', run Durable.step t (performs s .commit) = some t' ∧ Stores start s' t' := by
  have hadv := h.sound.advanced hs
  have hactive : ∀ a, a ∈ t.active ↔ s'.op a ≠ none := fun a => by rw [hadv.op_eq, h.active]
  rw [performs]
  split_ifs with hhead
  · have hnone : t.active = ∅ := by
      refine Finset.eq_empty_of_forall_notMem fun a ha => (h.active a).mp ha ?_
      exact h.sound.op_eq_none (by simp [hhead]) a
    have hnow : ∀ b, Home start b → s.view b = t.now b := by
      intro b hb
      rw [← h.now b hb, hhead]
      exact (if_neg Bool.false_ne_true).symm
    refine ⟨{ t with kept := t.now }, by simp [run, Durable.step, hnone], hadv.sound, hactive,
      fun b hb => ?_, fun b hb => ?_⟩
    · rw [hadv.view_eq b hb, h.now b hb]
    · rw [hadv.recovered_eq b hb, if_pos hhead, hnow b hb]
  · refine ⟨t, rfl, hadv.sound, hactive, fun b hb => ?_, fun b hb => ?_⟩
    · rw [hadv.view_eq b hb, h.now b hb]
    · rw [hadv.recovered_eq b hb, if_neg hhead, h.kept b hb]

theorem crash (h : Stores start s t) :
    ∃ t', t.step .crash = some t' ∧ Stores start (boot s.disk) t' := by
  refine ⟨_, rfl, .boot h.sound.head_valid, fun a => ?_, fun b hb => ?_, h.kept⟩
  · simp [boot]
  · exact (if_pos rfl).trans (h.kept b hb)

/-- **One step.** -/
theorem step (h : Stores start s t) {e : Event A} (he : Disciplined start s e)
    (hs : s.step start e = some s') :
    ∃ t', run Durable.step t (performs s e) = some t' ∧ Stores start s' t' := by
  have hone {ev : Durable.Event A BlockNo Block} {s' : Log A}
      (hex : ∃ t', t.step ev = some t' ∧ Stores start s' t') :
      ∃ t', run Durable.step t [ev] = some t' ∧ Stores start s' t' := by
    obtain ⟨t', ht', hst⟩ := hex
    exact ⟨t', by rw [run, ht']; rfl, hst⟩
  cases e with
  | beginOp a =>
    rw [Log.step] at hs
    split_ifs at hs with hif
    exact hone (h.beginOp hif.2.1 hif.2.2.1 hs)
  | bread a b =>
    rw [Log.step] at hs
    split_ifs at hs with hif
    cases hs
    exact ⟨t, rfl, h.keep (h.sound.bread he hif.2.2) (fun _ => Iff.rfl) rfl view_bread rfl⟩
  | modify a b d =>
    rw [Log.step] at hs
    split_ifs at hs with hif
    cases hs
    exact hone (h.modify he hif.2)
  | logWrite a b =>
    rw [Log.step] at hs
    split_ifs at hs with hif
    cases hs
    refine ⟨t, rfl, h.keep (h.sound.logWrite he hif.2) (fun a' => ?_) ?_ ?_ ?_⟩
    · by_cases ha' : a' = a
      · rw [Log.logWrite]
        split_ifs <;> simp [ha']
      · rw [Log.logWrite]
        split_ifs <;> simp [ha']
    all_goals
      rw [Log.logWrite]
      split_ifs <;> rfl
  | brelse a b =>
    rw [Log.step] at hs
    split_ifs at hs with hif
    cases hs
    exact ⟨t, rfl, h.keep (h.sound.brelse he) (fun _ => Iff.rfl) rfl rfl rfl⟩
  | endOp a =>
    rw [Log.step] at hs
    split_ifs at hs with hif
    cases hs
    exact hone (h.endOp hif.2 he)
  | sync a =>
    rw [Log.step] at hs
    split_ifs at hs with hif
    cases hs
    refine ⟨t, rfl, h.keep ?_ (fun _ => ?_) ?_ ?_ ?_⟩
    all_goals
      rw [Log.sysSync]
      split_ifs
    any_goals first | rfl | exact Iff.rfl
    · exact { h.sound with }
    · exact h.sound
  | synced a =>
    rw [Log.step] at hs
    split at hs
    · cases hs
    · split_ifs at hs
      cases hs
      exact ⟨t, rfl, h.keep { h.sound with } (fun _ => Iff.rfl) rfl rfl rfl⟩
  | evict b =>
    rw [Log.step] at hs
    split_ifs at hs with hif
    cases hs
    obtain ⟨-, hfree, hpins⟩ := hif
    exact ⟨t, rfl, h.keep (h.sound.evict hfree hpins) (fun _ => Iff.rfl) rfl
      (view_evict (h.sound.coherent b hpins (h.sound.not_dirty hfree))) rfl⟩
  | commit =>
    rw [Log.step] at hs
    split_ifs at hs
    exact h.advance hs
  | crash =>
    rw [Log.step] at hs
    cases hs
    exact hone h.crash

end Stores

namespace Sound

/-- Every state that is sound stands for a store. -/
theorem stores (h : Sound start s) :
    ∃ t, Stores start s t ∧ t.kept = Log.recovered start s.disk := by
  obtain ⟨F, hF, -⟩ := h.active
  exact ⟨⟨F, fun b => if s.stage.booting then Log.recovered start s.disk b else s.view b,
    Log.recovered start s.disk⟩, ⟨h, hF, fun _ _ => rfl, fun _ _ => rfl⟩, rfl⟩

variable [DecidableEq A] {e : Event A}

/-- What holds at every moment is kept by every step. -/
theorem step (h : Sound start s) (he : Disciplined start s e) (hs : s.step start e = some s') :
    Sound start s' := by
  obtain ⟨t, hst, -⟩ := h.stores
  obtain ⟨t', -, hst'⟩ := hst.step he hs
  exact hst'.sound

/-- **Only the header written by `commit` changes what the disk amounts to.** -/
theorem recovered_step (h : Sound start s) (he : Disciplined start s e)
    (hs : s.step start e = some s') (hcommit : .commit ∉ performs s e) (hb : Home start b) :
    Log.recovered start s'.disk b = Log.recovered start s.disk b := by
  obtain ⟨t, hst, -⟩ := h.stores
  obtain ⟨t', ht', hst'⟩ := hst.step he hs
  have hkept : t'.kept = t.kept := by
    cases hp : performs s e with
    | nil =>
      rw [hp] at ht'
      cases ht'
      rfl
    | cons ev evs =>
      have hnil : evs = [] := by
        rw [performs.eq_def] at hp
        split at hp
        all_goals try split_ifs at hp
        all_goals cases hp
        all_goals rfl
      rw [hp, hnil] at ht'
      obtain ⟨t₁, ht₁, hrun⟩ := run_cons_eq_some.mp ht'
      cases hrun
      exact Durable.kept_step ht₁ fun heq => hcommit (hp ▸ heq ▸ List.mem_cons_self)
  rw [hst'.kept b hb, hkept, hst.kept b hb]

end Sound

/-! ## Recovery comes to its end -/

/-- How much of recovery there is left. -/
def left (s : Log A) : ℕ :=
  match s.stage with
  | .boot => logblocks + 3
  | .recover tail => s.lh.length - tail + 2
  | .reset => 1
  | _ => 0

section Recover

variable [DecidableEq A]

/-- A turn of recovery. -/
theorem advance_recovering (h : Sound start s) (hboot : s.stage.booting) :
    ∃ s', s.advance start = some s' ∧ s'.panicked = s.panicked ∧
      (s'.stage.booting ∨ s'.stage = .idle) ∧ s'.left < s.left := by
  cases hstage : s.stage with
  | idle | copy | head | install | clear | finish =>
    rw [hstage] at hboot
    cases hboot
  | boot =>
    have hs : s.advance start = some
        { (s.bread start).enter (.recover 0) with lh := readHead (s.view start) } := by
      rw [advance, hstage]
    have hlen : (readHead (s.view start)).length ≤ logblocks := by
      rw [h.view_eq_of_not_home not_home_start]
      exact h.head_valid.length_le
    have hleft : s.left = logblocks + 3 := by rw [left, hstage]
    have hleft' : ({ (s.bread start).enter (.recover 0) with
        lh := readHead (s.view start) } : Log A).left
        = (readHead (s.view start)).length - 0 + 2 := rfl
    refine ⟨_, hs, rfl, .inl rfl, ?_⟩
    rw [hleft, hleft']
    omega
  | recover tail =>
    have hleft : s.left = s.lh.length - tail + 2 := by rw [left, hstage]
    cases hb : s.lh[tail]? with
    | none =>
      have hs : s.advance start = some { s.enter .reset with lh := [] } := by
        rw [advance, hstage]
        dsimp only
        rw [hb]
      refine ⟨_, hs, rfl, .inl rfl, ?_⟩
      rw [hleft]
      exact Nat.lt_of_lt_of_le (Nat.lt_succ_self 1) (Nat.le_add_left 2 _)
    | some b =>
      have hs : s.advance start
          = some ((s.installTrans start true tail b).enter (.recover (tail + 1))) := by
        rw [advance, hstage]
        dsimp only
        rw [hb]
      have hlt : tail < s.lh.length := (List.getElem?_eq_some_iff.mp hb).1
      have hleft' : ((s.installTrans start true tail b).enter (.recover (tail + 1))).left
          = s.lh.length - (tail + 1) + 2 := rfl
      refine ⟨_, hs, rfl, .inl rfl, ?_⟩
      rw [hleft, hleft']
      omega
  | reset =>
    have hs : s.advance start = some ((s.writeHeader start).enter .idle) := by rw [advance, hstage]
    have hleft : s.left = 1 := by rw [left, hstage]
    refine ⟨_, hs, rfl, .inr rfl, ?_⟩
    rw [hleft]
    exact Nat.zero_lt_one

/-- **After a crash, recovery ends with the disk that the one before it amounted to.** -/
theorem recovers (h : Sound start s) :
    ∃ k s', run (step start) s (.crash :: List.replicate k .commit) = some s' ∧ s'.stage = .idle ∧
      ∀ b, Home start b → s'.disk b = recovered start s.disk b := by
  let I (u : Log A) : Prop := Sound start u ∧ u.panicked = false ∧
    (u.stage.booting ∨ u.stage = .idle) ∧
    ∀ b, Home start b → recovered start u.disk b = recovered start s.disk b
  let Q (u : Log A) : Prop := u.stage = .idle ∧
    ∀ b, Home start b → u.disk b = recovered start s.disk b
  have hdone : ∀ u : Log A, I u → u.stage = .idle → Q u := by
    rintro u ⟨hu, -, -, hdisk⟩ hidle
    refine ⟨hidle, fun b hb => ?_⟩
    have hstaged := hu.staged
    rw [hidle] at hstaged
    rw [← hdisk b hb, recovered_of_nil hstaged]
  have hstep : ∀ u : Log A, I u → ¬ Q u →
      ∃ u', step start u .commit = some u' ∧ I u' ∧ u'.left < u.left := by
    intro u hI hQ
    obtain ⟨hu, hpanic, hboot, hdisk⟩ := id hI
    have hidle : u.stage ≠ .idle := fun hidle => hQ (hdone u hI hidle)
    obtain ⟨u', hu', hpanic', hboot', hleft⟩ := advance_recovering hu (hboot.resolve_right hidle)
    have hadv := hu.advanced hu'
    have hhead : u.stage ≠ .head := fun heq => by
      rw [heq] at hboot hidle
      exact hidle (hboot.resolve_left Bool.false_ne_true)
    refine ⟨u', ?_, ⟨hadv.sound, hpanic'.trans hpanic, hboot', fun b hb => ?_⟩, hleft⟩
    · rw [step, hpanic]
      exact hu'
    · rw [hadv.recovered_eq b hb, if_neg hhead, hdisk b hb]
  obtain ⟨k, s', hrun, hQ⟩ := exists_run_replicate (s := (boot s.disk : Log A)) hstep
    ⟨.boot h.head_valid, rfl, .inl rfl, fun _ _ => rfl⟩
  exact ⟨k, s', run_cons_eq_some.mpr ⟨_, rfl, hrun⟩, hQ⟩

/-! ## The whole run -/

/-- **A crash keeps the last commit, whole.**  Over any run of calls, commits, crashes and
recoveries, processes find what the store that the calls see holds now; and if the machine crashes
next, recovery comes to its end with what that store kept at its last commit. -/
theorem crash_safe {disk : BlockNo → Block} {es : List (Event A)}
    (hdisk : Valid start (readHead (disk start)))
    (hes : Along (step start) (Disciplined start) (boot disk : Log A) es)
    (h : run (step start) (boot disk : Log A) es = some s') :
    ∃ t, run Durable.step (Durable.clean (recovered start disk))
        (trace (step start) performs (boot disk : Log A) es) = some t ∧
      (s'.stage.booting = false → ∀ b, Home start b → s'.view b = t.now b) ∧
      ∃ k s'', run (step start) s' (.crash :: List.replicate k .commit) = some s'' ∧
        s''.stage = .idle ∧ ∀ b, Home start b → s''.disk b = t.kept b := by
  have hstart : Stores start (boot disk : Log A) (Durable.clean (recovered start disk)) :=
    ⟨.boot hdisk, fun a => by simp [boot, Durable.clean], fun b _ => if_pos rfl, fun _ _ => rfl⟩
  obtain ⟨t, ht, hst⟩ := simulate (fun s t e s' hst he hs => hst.step he hs) hstart hes h
  refine ⟨t, ht, fun hboot b hb => ?_, ?_⟩
  · rw [← hst.now b hb, hboot]
    exact (if_neg Bool.false_ne_true).symm
  · obtain ⟨k, s'', hrun, hidle, hdisk'⟩ := recovers hst.sound
    exact ⟨k, s'', hrun, hidle, fun b hb => (hdisk' b hb).trans (hst.kept b hb)⟩

/-- A disk as `mkfs` begins it. -/
def zeroes : BlockNo → Block := fun _ _ => 0

theorem valid_zeroes (start : BlockNo) : Valid start (readHead (zeroes start)) := by
  have hnil : readHead (zeroes start) = [] := by
    have hn : (zeroes start).load 4 0 = 0 := by
      refine BitVec.eq_of_getLsbD_eq fun i _ => ?_
      simp [Bytes.getLsbD_load, Bytes.at', zeroes]
    rw [readHead, hn]
    rfl
  rw [hnil]
  exact .nil

/-- A call that wrote block 45, and a crash on the way home. -/
def sampleCall : List (Event ℕ) :=
  [.commit, .commit, .commit, .beginOp 0, .bread 0 45, .modify 0 45 fun _ => 7, .logWrite 0 45,
    .brelse 0 45, .endOp 0, .commit, .commit, .commit, .crash, .commit, .commit]

theorem crash_safe_sample :
    ∃ s' t, run (step 2) (boot zeroes) sampleCall = some s' ∧
      run Durable.step (Durable.clean (recovered 2 zeroes))
        (trace (step 2) performs (boot zeroes) sampleCall) = some t ∧
      ∃ k s'', run (step 2) s' (.crash :: List.replicate k .commit) = some s'' ∧
        s''.stage = .idle ∧ ∀ b, Home 2 b → s''.disk b = t.kept b := by
  have hes : Along (step 2) (Disciplined 2) (boot zeroes) sampleCall := by decide +kernel
  obtain ⟨s', hs'⟩ : ∃ s', run (step 2) (boot zeroes) sampleCall = some s' :=
    Option.isSome_iff_exists.mp (by decide +kernel)
  obtain ⟨t, ht, -, hrec⟩ := crash_safe (valid_zeroes 2) hes hs'
  exact ⟨s', t, hs', ht, hrec⟩

end Recover

end MiniProject.Kernel.Log
