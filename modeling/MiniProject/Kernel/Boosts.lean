import MiniProject.Kernel.OneCpu
import MiniProject.Kernel.Slices

/-!
# Kernel/Boosts — how often the MLFQ kernel boosts

Each CPU has its own scheduler loop, with its own `last_boost_tick`, but `mlfq_boost` goes over all
processes.  No loop boosts twice within `BOOST_TICKS`; nothing keeps two loops apart.  The boosts of
the whole system are spaced exactly when the loops happen to take turns (`spaced_iff`), so always if
only one of them comes round (`spaced_of_only`).
-/

namespace MiniProject.Kernel

/-- Where a CPU is in its turn of the loop: at the top or with a process, in `mlfq_boost`, or about
to choose. -/
inductive Stage
  | top
  | boost (rest : List Slot)
  | pick
  deriving DecidableEq, Repr

/-- The MLFQ kernel on `n` CPUs, with the local `last_boost_tick` of each, and the ticks of all the
boosts so far, the last one first. -/
structure Boosts (n : ℕ) where
  smp : Smp n
  lastBoostTick : Fin n → ℕ
  stage : Fin n → Stage
  boosts : List ℕ

namespace Boosts

variable {n : ℕ}

/-- What can happen next: a scheduler goes on, or anything else. -/
inductive Event (n : ℕ)
  | look (c : Fin n)
  | round (c : Fin n)
  | pick (c : Fin n)
  | other (e : Smp.Event n)
  deriving DecidableEq, Repr

/-- Whether the clock goes on. -/
def Event.isClock : Event n → Bool
  | .other .clock => true
  | _ => false

/-- The schedulers are about to start. -/
def boot (n : ℕ) : Boosts n := ⟨.boot n, fun _ => 0, fun _ => .top, []⟩

variable (s : Boosts n)

/-- `ticks`. -/
def ticks : ℕ := s.smp.globals.ticks

/-- CPU `c` gets to a stage. -/
def setStage (c : Fin n) (stage : Stage) : Boosts n :=
  { s with stage := Function.update s.stage c stage }

/-- `cur = ticks`, and what follows up to the loop over the table: it reads nothing else that is
shared. -/
def look (c : Fin n) : Boosts n :=
  if boostDue s.ticks (s.lastBoostTick c) then
    { s.setStage c (.boost (List.finRange nproc)) with
      lastBoostTick := Function.update s.lastBoostTick c s.ticks
      boosts := s.ticks :: s.boosts }
  else s.setStage c .pick

/-- A step; a scheduler's own steps are the only `boost` and `pass`. -/
def step : Event n → Option (Boosts n)
  | .look c => if s.smp.cur c = none ∧ s.stage c = .top then some (s.look c) else none
  | .round c =>
    match s.stage c with
    | .boost [] => some (s.setStage c .pick)
    | .boost (q :: rest) =>
      (s.smp.step (.boost q)).map fun smp => { s.setStage c (.boost rest) with smp }
    | _ => none
  | .pick c =>
    if s.stage c = .pick then
      some { s.setStage c .top with smp := (s.smp.step (.pass c)).getD s.smp }
    else none
  | .other (.boost _) | .other (.pass _) => none
  | .other e => (s.smp.step e).map fun smp => { s with smp }

/-- Any two boosts are at least `BOOST_TICKS` apart. -/
def Spaced : Prop := s.boosts.Pairwise fun later earlier => earlier + boostTicks ≤ later

/-- A CPU whose boost is due finds that no other has boosted fewer than `BOOST_TICKS` ago. -/
def Alone (s : Boosts n) : Event n → Prop
  | .look c => boostDue s.ticks (s.lastBoostTick c) → ∀ d, d ≠ c → s.lastBoostTick d ≠ 0 →
    s.lastBoostTick d + boostTicks ≤ s.ticks
  | _ => True

instance : Decidable s.Spaced := inferInstanceAs (Decidable (List.Pairwise _ _))

variable {s s' : Boosts n} {e : Event n} {c : Fin n}

/-! ## The clock -/

/-- Only the clock writes `ticks`. -/
theorem ticks_smp {smp smp' : Smp n} {e : Smp.Event n} (h : smp.step e = some smp') :
    smp'.globals.ticks =
      if e = .clock then uint (smp.globals.ticks + 1) else smp.globals.ticks := by
  cases e with
  | clock | boost | wake =>
    cases h
    rfl
  | pass c =>
    obtain ⟨-, h⟩ := Option.ite_none_right_eq_some.mp h
    obtain ⟨⟨p, k⟩, hchoose, rfl⟩ := Option.map_eq_some_iff.mp h
    obtain ⟨⟨q, p'⟩, -, hk⟩ := Option.map_eq_some_iff.mp hchoose
    cases hk
    rfl
  | tick c =>
    obtain ⟨p, -, rfl⟩ := Option.map_eq_some_iff.mp h
    split <;> rfl
  | yield c =>
    obtain ⟨p, -, rfl⟩ := Option.map_eq_some_iff.mp h
    rfl
  | call c x =>
    obtain ⟨p, -, h⟩ := Option.bind_eq_some_iff.mp h
    obtain ⟨k, hk, rfl⟩ := Option.map_eq_some_iff.mp h
    exact (Globals.called_of_call hk).ticks
  | sleep c =>
    obtain ⟨p, -, rfl⟩ := Option.map_eq_some_iff.mp h
    split <;> rfl
  | exit c status =>
    obtain ⟨p, -, h⟩ := Option.bind_eq_some_iff.mp h
    obtain ⟨k, hk, rfl⟩ := Option.map_eq_some_iff.mp h
    exact (Globals.nudged_kexit hk).2.2.2.1

/-- What a step does to the clock and to what is known of the boosts: a look may add one, and
nothing else touches them. -/
structure Kept (s s' : Boosts n) (e : Event n) : Prop where
  ticks : s'.ticks = if e.isClock then uint (s.ticks + 1) else s.ticks
  lastBoostTick : s'.lastBoostTick = s.lastBoostTick
  boosts : s'.boosts = s.boosts

theorem kept_of_step (he : ∀ c, e ≠ .look c) (h : step s e = some s') : Kept s s' e := by
  cases e with
  | look c => exact absurd rfl (he c)
  | round c =>
    dsimp only [step] at h
    split at h
    · cases h
      exact ⟨rfl, rfl, rfl⟩
    · cases h
      exact ⟨rfl, rfl, rfl⟩
    · cases h
  | pick c =>
    obtain ⟨-, h⟩ := Option.ite_none_right_eq_some.mp h
    cases h
    refine ⟨?_, rfl, rfl⟩
    rcases hpass : s.smp.step (.pass c) with _ | smp
    · rfl
    · exact ticks_smp hpass
  | other e =>
    have hother {e : Smp.Event n} (h : (s.smp.step e).map (fun smp => { s with smp }) = some s') :
        Kept s s' (.other e) := by
      obtain ⟨smp, hsmp, rfl⟩ := Option.map_eq_some_iff.mp h
      refine ⟨(ticks_smp hsmp).trans ?_, rfl, rfl⟩
      cases e <;> rfl
    cases e with
    | boost | pass => cases h
    | clock | tick | yield | call | sleep | exit | wake => exact hother h

/-! ## Whose boost was when -/

/-- **Of every CPU the last boost is known to it**, and none comes from the future. -/
structure Dated (s : Boosts n) : Prop where
  mem_boosts : ∀ c, s.lastBoostTick c ≠ 0 → s.lastBoostTick c ∈ s.boosts
  le_ticks : ∀ c, s.lastBoostTick c ≤ s.ticks
  le_last : ∀ b ∈ s.boosts, ∃ c, s.lastBoostTick c ≠ 0 ∧ b ≤ s.lastBoostTick c

theorem dated_boot : (boot n).Dated := ⟨nofun, fun _ => Nat.le_refl 0, nofun⟩

theorem Dated.mono (h : s.Dated) (hle : s.ticks ≤ s'.ticks)
    (hlast : s'.lastBoostTick = s.lastBoostTick) (hboosts : s'.boosts = s.boosts) : s'.Dated := by
  refine ⟨?_, ?_, ?_⟩
  · rw [hlast, hboosts]
    exact h.mem_boosts
  · rw [hlast]
    exact fun c => (h.le_ticks c).trans hle
  · rw [hlast, hboosts]
    exact h.le_last

/-- A boost that is due comes long after the last one of the same CPU. -/
theorem Dated.due (h : s.Dated) (hfew : s.ticks < 2 ^ 32)
    (hdue : boostDue s.ticks (s.lastBoostTick c)) : s.lastBoostTick c + boostTicks ≤ s.ticks := by
  have hle := h.le_ticks c
  obtain ⟨-, hdue⟩ := hdue
  rw [uint, show s.ticks + (2 ^ 32 - s.lastBoostTick c)
    = s.ticks - s.lastBoostTick c + 2 ^ 32 by omega, Nat.add_mod_right,
    Nat.mod_eq_of_lt (by omega)] at hdue
  omega

/-- A boost now is apart from all before exactly when it is from the last one of every CPU. -/
theorem Dated.apart_iff (h : s.Dated) :
    (∀ b ∈ s.boosts, b + boostTicks ≤ s.ticks) ↔
      ∀ d, s.lastBoostTick d ≠ 0 → s.lastBoostTick d + boostTicks ≤ s.ticks := by
  constructor
  · exact fun hall d hd => hall _ (h.mem_boosts d hd)
  · intro hall b hb
    obtain ⟨d, hd, hle⟩ := h.le_last b hb
    exact (Nat.add_le_add_right hle _).trans (hall d hd)

/-- A look that boosts notes the tick. -/
theorem Dated.look (h : s.Dated) (hdue : boostDue s.ticks (s.lastBoostTick c)) :
    (s.look c).Dated := by
  have hle := h.le_ticks c
  rw [Boosts.look, if_pos hdue]
  refine ⟨fun d hd => ?_, fun d => ?_, fun b hb => ?_⟩
  · by_cases hdc : d = c
    · subst hdc
      exact List.mem_cons.mpr (.inl (Function.update_self _ _ _))
    · dsimp only at hd ⊢
      rw [Function.update_of_ne hdc] at hd ⊢
      exact List.mem_cons_of_mem _ (h.mem_boosts d hd)
  · dsimp only
    by_cases hdc : d = c
    · subst hdc
      rw [Function.update_self]
      exact Nat.le_refl _
    · rw [Function.update_of_ne hdc]
      exact h.le_ticks d
  · refine ⟨c, ?_, ?_⟩
    · dsimp only
      rw [Function.update_self]
      exact hdue.1
    · dsimp only
      rw [Function.update_self]
      rcases List.mem_cons.mp hb with rfl | hb
      · exact Nat.le_refl _
      · obtain ⟨d, -, hb⟩ := h.le_last b hb
        exact hb.trans (h.le_ticks d)

/-- **A step keeps the boosts spaced** exactly when it does not boost soon after another CPU. -/
theorem spaced_step (h : s.Dated) (hfew : s.ticks + (if e.isClock then 1 else 0) < 2 ^ 32)
    (hstep : step s e = some s') :
    s'.Dated ∧ s'.ticks = s.ticks + (if e.isClock then 1 else 0) ∧
      (s'.Spaced ↔ s.Spaced ∧ s.Alone e) := by
  by_cases hlook : ∃ c, e = .look c
  · obtain ⟨c, rfl⟩ := hlook
    obtain ⟨-, hstep⟩ := Option.ite_none_right_eq_some.mp hstep
    cases hstep
    by_cases hdue : boostDue s.ticks (s.lastBoostTick c)
    · refine ⟨h.look hdue, ?_, ?_⟩
      · rw [look, if_pos hdue]
        rfl
      · have hown := h.due (by omega) hdue
        have happart := h.apart_iff
        rw [Spaced, look, if_pos hdue]
        dsimp only
        rw [List.pairwise_cons, happart, and_comm, Alone]
        refine and_congr_right fun _ => ⟨fun hall _ d _ => hall d, fun hall d hd => ?_⟩
        by_cases hdc : d = c
        · rw [hdc]
          exact hown
        · exact hall hdue d hdc hd
    · rw [look, if_neg hdue]
      exact ⟨h.mono (Nat.le_refl _) rfl rfl, rfl,
        (and_iff_left fun hdue' => absurd hdue' hdue).symm⟩
  · have hkept := kept_of_step (fun c hc => hlook ⟨c, hc⟩) hstep
    have hticks : s'.ticks = s.ticks + (if e.isClock then 1 else 0) := by
      have hkept := hkept.ticks
      split at hkept
      · rename_i hclock
        rw [if_pos hclock] at hfew ⊢
        rw [hkept, uint, Nat.mod_eq_of_lt hfew]
      · rename_i hclock
        rw [if_neg hclock]
        exact hkept
    refine ⟨h.mono (by omega) hkept.lastBoostTick hkept.boosts, hticks, ?_⟩
    have halone : s.Alone e := by
      cases e with
      | look c => exact absurd ⟨c, rfl⟩ hlook
      | round | pick | other => trivial
    rw [Spaced, hkept.boosts]
    exact (and_iff_left halone).symm

/-- **The boosts of the system are `BOOST_TICKS` apart exactly when no CPU finds its boost due while
another's is recent.** -/
theorem spaced_iff {es : List (Event n)} (h : run step (boot n) es = some s)
    (hfew : es.countP Event.isClock < 2 ^ 32) : s.Spaced ↔ Along step Alone (boot n) es := by
  have hzero : (boot n).ticks = 0 := rfl
  rw [along_iff_of_spent (fun _ _ _ hs hfew hstep => spaced_step hs hfew hstep) dated_boot
    (by omega) h]
  exact and_iff_right List.Pairwise.nil

/-- Two CPUs look at tick 48. -/
def twice : List (Event 2) :=
  List.replicate 48 (Event.other .clock) ++ (List.finRange 2).map Event.look

/-- Both boost. -/
theorem not_spaced : ¬ ∀ (es : List (Event 2)) s, run step (boot 2) es = some s →
    es.countP Event.isClock < 2 ^ 32 → s.Spaced := by
  intro h
  have hsome := Option.eq_some_of_isSome
    (show (run step (boot 2) twice).isSome by decide +kernel)
  have hspaced := h twice _ hsome (by decide)
  revert hspaced
  decide +kernel

/-- CPU 1 looks 48 ticks after CPU 0. -/
def turns : List (Event 2) :=
  (List.finRange 2).flatMap fun c => List.replicate 48 (Event.other .clock) ++ [Event.look c]

theorem spaced_iff_turns : ∃ s, run step (boot 2) turns = some s ∧
    (s.Spaced ↔ Along step Alone (boot 2) turns) := by
  have hsome := Option.eq_some_of_isSome
    (show (run step (boot 2) turns).isSome by decide +kernel)
  exact ⟨_, hsome, spaced_iff hsome (by decide)⟩

/-! ## One CPU at the top -/

/-- Nobody but CPU `c` comes to the top of its loop. -/
def Only (c : Fin n) (_ : Boosts n) (e : Event n) : Prop := ∀ d, e = .look d → d = c

/-- The others have never boosted. -/
def Idle (c : Fin n) (s : Boosts n) : Prop := ∀ d, d ≠ c → s.lastBoostTick d = 0

theorem Idle.step (h : s.Idle c) (honly : Only c s e) (hstep : step s e = some s') : s'.Idle c := by
  by_cases hlook : ∃ d, e = .look d
  · obtain ⟨d, rfl⟩ := hlook
    obtain rfl := honly d rfl
    obtain ⟨-, hstep⟩ := Option.ite_none_right_eq_some.mp hstep
    cases hstep
    intro d' hd'
    rw [look]
    split
    · exact (Function.update_of_ne hd' _ _).trans (h d' hd')
    · exact h d' hd'
  · intro d hd
    rw [(kept_of_step (fun d hd => hlook ⟨d, hd⟩) hstep).lastBoostTick]
    exact h d hd

theorem Idle.alone (h : s.Idle c) (honly : Only c s e) : s.Alone e := by
  cases e with
  | look d =>
    obtain rfl := honly d rfl
    exact fun _ d' hd' hne => absurd (h d' hd') hne
  | round | pick | other => trivial

/-- **One loop alone keeps its boosts apart**, whatever the other CPUs run. -/
theorem spaced_of_only {es : List (Event n)} (h : run step (boot n) es = some s)
    (hfew : es.countP Event.isClock < 2 ^ 32) (honly : Along step (Only c) (boot n) es) :
    s.Spaced := by
  have hN : (boot n).ticks + es.countP Event.isClock < 2 ^ 32 := by
    rw [show (boot n).ticks = 0 from rfl, Nat.zero_add]
    exact hfew
  have hstep : ∀ s (e : Event n) s', (s.Dated ∧ s.Idle c ∧ s.Spaced) → Only c s e →
      s.ticks + (if e.isClock then 1 else 0) < 2 ^ 32 → step s e = some s' →
      (s'.Dated ∧ s'.Idle c ∧ s'.Spaced) ∧
        s'.ticks = s.ticks + if e.isClock then 1 else 0 := by
    rintro s e s' ⟨hdated, hidle, hspaced⟩ honly hfew hstep
    obtain ⟨hdated', hticks, hiff⟩ := spaced_step hdated hfew hstep
    exact ⟨⟨hdated', hidle.step honly hstep, hiff.mpr ⟨hspaced, hidle.alone honly⟩⟩, hticks⟩
  exact (invariant_spent hstep ⟨dated_boot, fun _ _ => rfl, List.Pairwise.nil⟩ honly hN h).1.2.2

end Boosts

end MiniProject.Kernel
