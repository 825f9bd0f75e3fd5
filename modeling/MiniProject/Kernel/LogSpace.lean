import MiniProject.Kernel.Recovery
import Mathlib.Algebra.BigOperators.Group.Finset.Basic
import Mathlib.Algebra.Order.BigOperators.Group.Finset

/-!
# Kernel/LogSpace — a call that keeps to `MAXOPBLOCKS` never meets a full log

`begin_op` lets a call in only if the log has room for `MAXOPBLOCKS` blocks of each call in
progress.  `log_write` asks for room before it looks whether the block is in the log already, so
that a call must not come back to a block after its `MAXOPBLOCKS`-th.
-/

namespace MiniProject.Kernel.Log

variable {A : Type} {start : BlockNo} {s s' : Log A} {a : A} {b : BlockNo} {e : Event A}

/-- The blocks that call `a` may still log. -/
def room (s : Log A) (a : A) : ℕ := maxopblocks - ((s.op a).getD []).length

/-- Whenever a call logs, it has logged fewer than `MAXOPBLOCKS` different blocks so far. -/
def Budgeted (s : Log A) : Event A → Prop
  | .logWrite a _ => 0 < s.room a
  | _ => True

instance (s : Log A) : DecidablePred (Budgeted s)
  | .logWrite a _ => inferInstanceAs (Decidable (0 < s.room a))
  | .beginOp _ | .bread _ _ | .modify _ _ _ | .brelse _ _ | .endOp _ | .sync _ | .synced _
  | .evict _ | .commit | .crash => isTrue trivial

/-- There is room in the log for all that the calls in progress may still log. -/
structure Roomy (s : Log A) : Prop where
  running : s.panicked = false
  subset : ∀ a bs, s.op a = some bs → bs ⊆ s.lh
  fits : ∃ F : Finset A, (∀ a, a ∈ F ↔ s.op a ≠ none) ∧ s.outstanding = F.card ∧
    s.lh.length + ∑ a ∈ F, s.room a ≤ logblocks

theorem room_le (a : A) : s.room a ≤ maxopblocks := Nat.sub_le _ _

namespace Roomy

/-- With no call in progress, the log need only fit in. -/
theorem of_op_eq_none (hrun : s.panicked = false) (hop : ∀ a, s.op a = none)
    (hout : s.outstanding = 0) (hlen : s.lh.length ≤ logblocks) : Roomy s :=
  ⟨hrun, fun a bs ha => absurd ha (by simp [hop a]), ∅, by simp [hop], by simpa using hout,
    by simpa using hlen⟩

/-- A step that leaves the calls and the log as they are. -/
theorem keep (h : Roomy s) (hrun : s'.panicked = false) (hop : s'.op = s.op) (hlh : s'.lh = s.lh)
    (hout : s'.outstanding = s.outstanding) : Roomy s' := by
  obtain ⟨F, hF, hcard, hfits⟩ := h.fits
  refine ⟨hrun, ?_, F, ?_, hout.trans hcard, ?_⟩
  · rw [hop, hlh]
    exact h.subset
  · rw [hop]
    exact hF
  · have hroom : s'.room = s.room := by funext a; rw [room, room, hop]
    rw [hlh, hroom]
    exact hfits

variable [DecidableEq A]

/-- **`begin_op`** reserves room for the call. -/
theorem beginOp (h : Roomy s) (hop : s.op a = none) (hs : s.beginOp a = some s') : Roomy s' := by
  rw [Log.beginOp] at hs
  split_ifs at hs with hc hn
  cases hs
  obtain ⟨F, hF, hcard, hfits⟩ := h.fits
  have hnot : a ∉ F := fun ha => (hF a).mp ha hop
  refine ⟨h.running, fun a' bs ha' => ?_, insert a F, fun a' => ?_, ?_, ?_⟩
  · by_cases heq : a' = a
    · simp only [heq, Function.update_self, Option.some.injEq] at ha'
      rw [← ha']
      exact List.nil_subset _
    · exact h.subset a' bs (by simpa [heq] using ha')
  · by_cases heq : a' = a
    · simp [heq]
    · simp [heq, hF]
  · rw [Finset.card_insert_of_notMem hnot, Nat.cast_add, ← hcard]
    rfl
  · rw [Finset.sum_insert hnot]
    have hsum : ∑ a' ∈ F, ({ s with
        outstanding := s.outstanding + 1, op := Function.update s.op a (some []) } : Log A).room a'
        ≤ F.card * maxopblocks := Finset.sum_le_card_nsmul F _ _ fun a' _ => room_le a'
    have hself := room_le (s := { s with
      outstanding := s.outstanding + 1, op := Function.update s.op a (some []) }) a
    rw [hcard] at hn
    change s.lh.length + _ ≤ logblocks
    have hten : maxopblocks = 10 := rfl
    have hall : logblocks = 30 := rfl
    rw [hten] at hsum hself hn
    rw [hall] at hn ⊢
    omega

/-- **`end_op`** gives back what is left of it. -/
theorem endOp (h : Roomy s) (hop : s.op a ≠ none) (hcommitting : s.committing = false) :
    Roomy (s.endOp a) := by
  obtain ⟨F, hF, hcard, hfits⟩ := h.fits
  have hmem : a ∈ F := (hF a).mpr hop
  have hpos : 0 < F.card := Finset.card_pos.mpr ⟨a, hmem⟩
  have hrest : Roomy { s with
      outstanding := s.outstanding - 1, op := Function.update s.op a none } := by
    refine ⟨h.running, fun a' bs ha' => ?_, F.erase a, fun a' => ?_, ?_, ?_⟩
    · by_cases heq : a' = a
      · simp [heq] at ha'
      · exact h.subset a' bs (by simpa [heq] using ha')
    · by_cases heq : a' = a
      · simp [heq]
      · simp [heq, hF]
    · change s.outstanding - 1 = _
      rw [Finset.card_erase_of_mem hmem, hcard]
      omega
    · have hsame : ∀ a' ∈ F.erase a, ({ s with
          outstanding := s.outstanding - 1, op := Function.update s.op a none } : Log A).room a'
          = s.room a' := by
        intro a' ha'
        rw [room, room]
        simp [Finset.ne_of_mem_erase ha']
      rw [Finset.sum_congr rfl hsame]
      exact Nat.le_trans (Nat.add_le_add_left
        (Finset.sum_le_sum_of_subset (Finset.erase_subset a F)) _) hfits
  rw [Log.endOp, hcommitting, if_neg (by simp)]
  split_ifs
  · exact hrest.keep h.running rfl rfl rfl
  · exact hrest.keep h.running rfl rfl rfl
  · exact hrest.keep h.running rfl rfl rfl

/-- **`log_write`** takes from the room of its call, and finds some. -/
theorem logWrite (h : Roomy s) (hop : s.op a ≠ none) (hroom : 0 < s.room a) :
    Roomy (s.logWrite a b) := by
  obtain ⟨F, hF, hcard, hfits⟩ := h.fits
  obtain ⟨bs, hbs⟩ := Option.ne_none_iff_exists'.mp hop
  have hmem : a ∈ F := (hF a).mpr hop
  have hpos : 0 < F.card := Finset.card_pos.mpr ⟨a, hmem⟩
  have hsplit : ∑ a' ∈ F, s.room a' = s.room a + ∑ a' ∈ F.erase a, s.room a' :=
    (Finset.add_sum_erase F _ hmem).symm
  rw [hsplit] at hfits
  have hroom_eq : s.room a = maxopblocks - bs.length := by rw [room, hbs, Option.getD_some]
  obtain ⟨bs', hbs'⟩ : ∃ bs', bs' = if b ∈ bs then bs else b :: bs := ⟨_, rfl⟩
  have hmap : (s.op a).map (fun bs => if b ∈ bs then bs else b :: bs) = some bs' := by
    rw [hbs, hbs', Option.map_some]
  have hsub : ∀ x ∈ bs', x = b ∨ x ∈ bs := by
    rw [hbs']
    split_ifs
    · exact fun x hx => .inr hx
    · exact fun x hx => List.mem_cons.mp hx
  have hself : maxopblocks - bs'.length + (if b ∈ bs then 0 else 1) ≤ s.room a := by
    rw [hroom_eq] at hroom ⊢
    rw [hbs']
    split_ifs
    · omega
    · rw [List.length_cons]
      omega
  have hops : ∀ a', Function.update s.op a (some bs') a' ≠ none ↔ s.op a' ≠ none := by
    intro a'
    by_cases heq : a' = a
    · simp [heq, hbs]
    · simp [heq]
  -- the room of the others is as it was
  have hothers {s' : Log A} (hop' : s'.op = Function.update s.op a (some bs')) :
      ∑ a' ∈ F, s'.room a' = maxopblocks - bs'.length + ∑ a' ∈ F.erase a, s.room a' := by
    rw [← Finset.add_sum_erase F _ hmem]
    refine congrArg₂ (· + ·) ?_ (Finset.sum_congr rfl fun a' ha' => ?_)
    · rw [room, hop', Function.update_self, Option.getD_some]
    · rw [room, hop', Function.update_of_ne (Finset.ne_of_mem_erase ha'), room]
  have hsubset {lh : List BlockNo} (hlh : s.lh ⊆ lh) (hb : b ∈ lh) (a' : A) (bs₀ : List BlockNo)
      (ha' : Function.update s.op a (some bs') a' = some bs₀) : bs₀ ⊆ lh := by
    by_cases heq : a' = a
    · rw [heq, Function.update_self, Option.some.injEq] at ha'
      intro x hx
      rcases hsub x (ha' ▸ hx) with rfl | hx
      · exact hb
      · exact hlh (h.subset a bs hbs hx)
    · rw [Function.update_of_ne heq] at ha'
      exact fun x hx => hlh (h.subset a' bs₀ ha' hx)
  rw [Log.logWrite, if_neg (by omega), if_neg (by omega), hmap]
  by_cases hin : b ∈ s.lh
  · rw [if_pos hin]
    refine ⟨h.running, hsubset (List.Subset.refl _) hin, F, fun a' => (hF a').trans (hops a').symm,
      hcard, ?_⟩
    rw [hothers rfl]
    change s.lh.length + _ ≤ _
    omega
  · rw [if_neg hin]
    have hnot : b ∉ bs := fun hb => hin (h.subset a bs hbs hb)
    rw [if_neg hnot] at hself
    refine ⟨h.running, hsubset (List.subset_append_left _ _)
      (List.mem_append_right _ List.mem_cons_self), F, fun a' => (hF a').trans (hops a').symm,
      hcard, ?_⟩
    rw [hothers rfl, List.length_append, List.length_singleton]
    omega

/-- `commit` and recovery run while no call is in progress. -/
theorem advance (h : Roomy s) (hsound : Sound start s) (hs : s.advance start = some s') :
    Roomy s' := by
  have hadv := hsound.advanced hs
  have hidle : s.stage ≠ .idle := fun hidle => by
    rw [Log.advance, hidle] at hs
    cases hs
  have hop : ∀ a, s'.op a = none := fun a => by rw [hadv.op_eq, hsound.op_eq_none hidle]
  have hrun : s'.panicked = s.panicked := by
    rw [Log.advance] at hs
    split at hs
    all_goals try split at hs
    all_goals try split_ifs at hs
    all_goals cases hs
    all_goals rfl
  exact .of_op_eq_none (hrun.trans h.running) hop (hadv.sound.outstanding_eq_zero hop)
    hadv.sound.lh_valid.length_le

/-- **One step.** -/
theorem step (h : Roomy s) (hsound : Sound start s) (hd : Disciplined start s e)
    (he : Budgeted s e) (hs : s.step start e = some s') : Roomy s' := by
  cases e with
  | beginOp a =>
    rw [Log.step] at hs
    split_ifs at hs with hif
    exact h.beginOp hif.2.2.1 hs
  | logWrite a b =>
    rw [Log.step] at hs
    split_ifs at hs with hif
    cases hs
    exact h.logWrite hd he
  | endOp a =>
    rw [Log.step] at hs
    split_ifs at hs with hif
    cases hs
    refine h.endOp hif.2 ?_
    rw [hsound.committing_eq, hsound.idle a hif.2]
    rfl
  | sync a =>
    rw [Log.step] at hs
    split_ifs at hs with hif
    cases hs
    rw [sysSync]
    split_ifs
    · exact h.keep h.running rfl rfl rfl
    · exact h
  | synced a =>
    rw [Log.step] at hs
    split at hs
    · cases hs
    · split_ifs at hs
      cases hs
      exact h.keep h.running rfl rfl rfl
  | bread _ _ | modify _ _ _ | brelse _ _ | evict _ =>
    rw [Log.step] at hs
    split_ifs at hs
    cases hs
    exact h.keep h.running rfl rfl rfl
  | commit =>
    rw [Log.step] at hs
    split_ifs at hs
    exact h.advance hsound hs
  | crash =>
    rw [Log.step] at hs
    cases hs
    exact .of_op_eq_none rfl (fun _ => rfl) rfl (Nat.zero_le _)

end Roomy

/-- **Neither `log_write` nor `end_op` panics** in a run whose calls log, each, fewer than
`MAXOPBLOCKS` different blocks before each `log_write`; and the log never outgrows its header. -/
theorem never_panics [DecidableEq A] {disk : BlockNo → Block} {es : List (Event A)}
    (hdisk : Valid start (readHead (disk start)))
    (hes : Along (step start) (fun s e => Disciplined start s e ∧ Budgeted s e)
      (boot disk : Log A) es)
    (h : run (step start) (boot disk : Log A) es = some s') :
    s'.panicked = false ∧ s'.lh.length ≤ logblocks := by
  have hI := invariant (I := fun s => Sound start s ∧ Roomy s)
    (fun s e s' hI he hs => ⟨hI.1.step he.1 hs, hI.2.step hI.1 he.1 he.2 hs⟩)
    ⟨.boot hdisk, .of_op_eq_none rfl (fun _ => rfl) rfl (Nat.zero_le _)⟩ hes h
  exact ⟨hI.2.running, hI.1.lh_valid.length_le⟩

theorem never_panics_sample :
    ∃ s', run (step 2) (boot zeroes) sampleCall = some s' ∧ s'.panicked = false ∧
      s'.lh.length ≤ logblocks := by
  obtain ⟨s', hs'⟩ : ∃ s', run (step 2) (boot zeroes) sampleCall = some s' :=
    Option.isSome_iff_exists.mp (by decide +kernel)
  exact ⟨s', hs', never_panics (valid_zeroes 2) (by decide +kernel) hs'⟩

end MiniProject.Kernel.Log
