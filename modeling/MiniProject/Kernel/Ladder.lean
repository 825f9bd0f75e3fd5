import MiniProject.Kernel.Slices

/-!
# Kernel/Ladder — the queues a process goes down

    ticks charged   0   1 … 4   5 … 12   13 … 28   29 … 44   …
    queue           0     1        2         3         3

A process that is created or boosted starts at the top, and every tick charged to it takes it one
rung down, round and round at the end.  Until it sleeps or is boosted nothing else moves it, on any
number of CPUs (`ladder_run`).
-/

namespace MiniProject.Kernel

/-- `queue` and `ticks_used` after `k` ticks. -/
def ladder (k : ℕ) : ℤ × ℤ :=
  if k = 0 then (0, 0)
  else if k < 5 then (1, k - 1)
  else if k < 13 then (2, k - 5)
  else (3, ((k - 13) % 16 : ℕ))

/-- `queue` and `ticks_used`. -/
def Proc.rung (x : Proc) : ℤ × ℤ := (x.queue, x.ticksUsed)

variable {x y : Proc} {k : ℕ}

theorem Nudged.rung (h : Nudged x y) : y.rung = x.rung := by
  rw [Proc.rung, Proc.rung, h.queue, h.ticksUsed]

theorem Globals.Touched.rung {g : Globals} {c : Option Call} {q : Slot} (h : g.Touched c q x y)
    (hc : ∀ ok, c ≠ some (.alloc q ok)) : y.rung = x.rung := by
  cases h with
  | nudged h => exact h.rung
  | alloc h => exact absurd h (hc true)
  | allocFailed | ready | freed => rfl

/-- **A rung and the next**: within its slice a process goes on, at its end to the next queue, if
there is one. -/
theorem ladder_succ (k : ℕ) : ∃ slice, mlfqSlice (ladder k).1 = some slice ∧
    0 ≤ (ladder k).2 ∧ (ladder k).2 < slice ∧ slice ≤ 16 ∧
      ladder (k + 1) =
        if slice ≤ (ladder k).2 + 1 then
          (if (ladder k).1 < nmlfq - 1 then (ladder k).1 + 1 else (ladder k).1, 0)
        else ((ladder k).1, (ladder k).2 + 1) := by
  by_cases h0 : k = 0
  · subst h0
    exact ⟨1, rfl, by decide, by decide, by decide, rfl⟩
  by_cases h5 : k < 5
  · have hk : ladder k = (1, (k : ℤ) - 1) := by rw [ladder, if_neg h0, if_pos h5]
    rw [hk]
    refine ⟨4, rfl, by dsimp only; omega, by dsimp only; omega, by decide, ?_⟩
    by_cases hlast : k = 4
    · subst hlast
      rfl
    · rw [ladder, if_neg (by omega), if_pos (by omega), if_neg (by dsimp only; omega)]
      exact congrArg (Prod.mk 1) (by omega)
  by_cases h13 : k < 13
  · have hk : ladder k = (2, (k : ℤ) - 5) := by rw [ladder, if_neg h0, if_neg h5, if_pos h13]
    rw [hk]
    refine ⟨8, rfl, by dsimp only; omega, by dsimp only; omega, by decide, ?_⟩
    by_cases hlast : k = 12
    · subst hlast
      rfl
    · rw [ladder, if_neg (by omega), if_neg (by omega), if_pos (by omega),
        if_neg (by dsimp only; omega)]
      exact congrArg (Prod.mk 2) (by omega)
  · have hk : ladder k = (3, (((k - 13) % 16 : ℕ) : ℤ)) := by
      rw [ladder, if_neg h0, if_neg h5, if_neg h13]
    have hnext : ladder (k + 1) = (3, (((k + 1 - 13) % 16 : ℕ) : ℤ)) := by
      rw [ladder, if_neg (by omega), if_neg (by omega), if_neg (by omega)]
    rw [hk, hnext]
    refine ⟨16, rfl, by dsimp only; omega, by dsimp only; omega, by decide, ?_⟩
    by_cases hlast : (k - 13) % 16 = 15
    · rw [hlast, show (k + 1 - 13) % 16 = 0 by omega]
      rfl
    · rw [if_neg (by dsimp only; omega), show (k + 1 - 13) % 16 = (k - 13) % 16 + 1 by omega]
      rfl

/-- **A tick takes a process one rung down.** -/
theorem rung_mlfqTimerTick (h : x.rung = ladder k) :
    ∃ y, x.mlfqTimerTick = some y ∧ y.rung = ladder (k + 1) := by
  obtain ⟨slice, hslice, hnonneg, hlt, hle, hnext⟩ := ladder_succ k
  rw [← h] at hslice hnonneg hlt hnext
  dsimp only [Proc.rung] at hslice hnonneg hlt
  refine ⟨_, mlfqTimerTick_eq hslice hnonneg (by omega), ?_⟩
  rw [hnext]
  by_cases hused : slice ≤ x.ticksUsed + 1
  · rw [if_pos hused, if_pos (show slice ≤ x.rung.2 + 1 from hused)]
    rfl
  · rw [if_neg hused, if_neg (show ¬ slice ≤ x.rung.2 + 1 from hused)]
    rfl

/-- Nobody goes up. -/
theorem ladder_fst_mono {j : ℕ} (h : j ≤ k) : (ladder j).1 ≤ (ladder k).1 := by
  rw [ladder, ladder]
  split_ifs <;> omega

namespace Smp

variable {n : ℕ} {s s' t : Smp n} {e : Event n} {p : Slot}

/-- A process comes to the top: it is created, or boosted. -/
def Tops (p : Slot) (s : Smp n) : Event n → Prop
  | .call _ (.alloc q ok) => q = p ∧ ok = true
  | .boost q => q = p ∧ (s.globals.table p).state ≠ .unused ∧ (s.globals.table p).state ≠ .zombie
  | _ => False

/-- **Where the count for a process begins**: behind `userinit`, for `init`, or behind a step that
brings it to the top. -/
inductive Starts (p : Slot) : Smp n → Prop
  | boot (hp : p = 0) : Starts p (boot n)
  | tops {s t : Smp n} {e : Event n} (htops : Tops p s e) (h : step s e = some t) : Starts p t

/-- The step does not put `p` to sleep, nor boost it, nor give its slot to another process. -/
def Undisturbed (p : Slot) (s : Smp n) : Event n → Prop
  | .sleep c => s.cur c = some p → (s.globals.table p).chan = none
  | .boost q => q ≠ p
  | .call _ (.alloc q _) => q ≠ p
  | _ => True

instance (p : Slot) (s : Smp n) (e : Event n) : Decidable (Undisturbed p s e) :=
  match e with
  | .sleep c =>
    inferInstanceAs (Decidable (s.cur c = some p → (s.globals.table p).chan = none))
  | .boost q => inferInstanceAs (Decidable (q ≠ p))
  | .call _ (.alloc q _) => inferInstanceAs (Decidable (q ≠ p))
  | .call _ (.ready _) | .call _ (.undo _) | .call _ (.prepare _) | .call _ (.wake _ _)
  | .call _ (.kill _ _) | .call _ (.setkilled _) | .call _ (.reap _) => isTrue trivial
  | .clock | .pass _ | .tick _ | .yield _ | .exit _ _ | .wake _ _ => isTrue trivial

/-- A tick charged to `p`. -/
def charge (p : Slot) (s : Smp n) : Event n → ℕ
  | .tick c => if s.cur c = some p then 1 else 0
  | _ => 0

theorem rung_modify {q : Slot} {f : Proc → Proc}
    (hf : q = p → (f (s.globals.table q)).rung = (s.globals.table q).rung) :
    ((s.globals.modify q f).table p).rung = (s.globals.table p).rung :=
  Table.modify_rel (R := fun q x y => q = p → y.rung = x.rung) (fun _ _ _ => rfl) hf p rfl

theorem rung_of_starts (h : Starts p t) : (t.globals.table p).rung = ladder 0 := by
  cases h with
  | boot hp =>
    rw [hp]
    rfl
  | tops htops h =>
    rename_i s e
    cases e with
    | boost q =>
      obtain ⟨rfl, hstate⟩ := htops
      cases h
      dsimp only
      rw [Globals.table_modify_self, Proc.boost, if_pos hstate]
      rfl
    | call c x =>
      cases x with
      | alloc q ok =>
        obtain ⟨rfl, rfl⟩ := htops
        obtain ⟨r, -, h⟩ := Option.bind_eq_some_iff.mp h
        obtain ⟨globals, hcall, rfl⟩ := Option.map_eq_some_iff.mp h
        obtain ⟨-, hglobals⟩ := Option.ite_none_right_eq_some.mp hcall
        cases hglobals
        dsimp only
        rw [Globals.table_allocproc_self, if_pos rfl]
        rfl
      | ready | undo | prepare | wake | kill | setkilled | reap => exact htops.elim
    | clock | pass | tick | yield | sleep | exit | wake => exact htops.elim

/-- **A step takes `p` down the rungs it is charged for**, and leaves it there otherwise. -/
theorem rung_step (h : (s.globals.table p).rung = ladder k) (hu : Undisturbed p s e)
    (hstep : step s e = some s') : (s'.globals.table p).rung = ladder (k + charge p s e) := by
  cases e with
  | clock =>
    cases hstep
    exact (Globals.nudged_clockintr _ p).rung.trans h
  | boost q =>
    cases hstep
    exact (rung_modify fun hq => absurd hq hu).trans h
  | pass c =>
    obtain ⟨-, hstep⟩ := Option.ite_none_right_eq_some.mp hstep
    obtain ⟨⟨q, globals⟩, hchoose, rfl⟩ := Option.map_eq_some_iff.mp hstep
    obtain ⟨⟨l, q'⟩, -, hglobals⟩ := Option.map_eq_some_iff.mp hchoose
    cases hglobals
    exact (rung_modify fun _ => rfl).trans h
  | tick c =>
    obtain ⟨r, hr, rfl⟩ := Option.map_eq_some_iff.mp hstep
    rw [charge, hr]
    by_cases hrp : r = p
    · subst hrp
      obtain ⟨y, hy, hrung⟩ := rung_mlfqTimerTick h
      rw [hy, if_pos rfl]
      dsimp only
      rw [Globals.table_modify_self]
      exact hrung
    · rw [if_neg fun heq => hrp (Option.some.inj heq)]
      split
      · exact (rung_modify fun heq => absurd heq hrp).trans h
      · exact h
  | yield c =>
    obtain ⟨r, -, rfl⟩ := Option.map_eq_some_iff.mp hstep
    exact (rung_modify fun _ => rfl).trans h
  | call c x =>
    obtain ⟨r, -, hstep⟩ := Option.bind_eq_some_iff.mp hstep
    obtain ⟨globals, hcall, rfl⟩ := Option.map_eq_some_iff.mp hstep
    refine (((Globals.called_of_call hcall).touched p).rung fun ok hx => ?_).trans h
    obtain rfl := Option.some.inj hx
    exact hu rfl
  | sleep c =>
    obtain ⟨r, hr, rfl⟩ := Option.map_eq_some_iff.mp hstep
    split
    · exact h
    · rename_i hchan
      refine (rung_modify fun hrp => ?_).trans h
      subst hrp
      exact absurd (hu hr) hchan
  | exit c status =>
    obtain ⟨r, -, hstep⟩ := Option.bind_eq_some_iff.mp hstep
    obtain ⟨globals, hexit, rfl⟩ := Option.map_eq_some_iff.mp hstep
    obtain ⟨hothers, ⟨x, hx, hr⟩, -⟩ := Globals.nudged_kexit hexit
    by_cases hp : p = r
    · subst hp
      dsimp only [leave]
      rw [hr]
      exact hx.rung.trans h
    · exact (hothers p hp).rung.trans h
  | wake chan q =>
    cases hstep
    exact (rung_modify fun _ => (nudged_wake _ chan).rung).trans h

/-- **The ladder**: since its creation or its last boost, a process that has not slept is on the
rung of the number of ticks charged to it, and it has never been in a lower queue before. -/
theorem ladder_run {es : List (Event n)} (ht : Starts p t) (hu : Along step (Undisturbed p) t es)
    (h : run step t es = some s) :
    ((s.globals.table p).queue, (s.globals.table p).ticksUsed)
        = ladder (total step (charge p) t es) ∧
      Always step (fun m => (m.globals.table p).queue ≤ (s.globals.table p).queue) t es := by
  have hrung {k : ℕ} {t : Smp n} {es : List (Event n)} (hk : (t.globals.table p).rung = ladder k)
      (hu : Along step (Undisturbed p) t es) (h : run step t es = some s) :
      (s.globals.table p).rung = ladder (k + total step (charge p) t es) :=
    invariant_total (I := fun k s => (s.globals.table p).rung = ladder k)
      (fun _ _ _ _ hk hu hstep => rung_step hk hu hstep) hk hu h
  have hqueue {k : ℕ} {m : Smp n} (hk : (m.globals.table p).rung = ladder k) :
      (m.globals.table p).queue = (ladder k).1 := congrArg Prod.fst hk
  have htop := rung_of_starts ht
  refine ⟨?_, ?_⟩
  · rw [← Nat.zero_add (total step (charge p) t es)]
    exact hrung htop hu h
  · -- At every point the rest of the run starts on some rung, and goes down from there.
    clear ht
    generalize 0 = k at htop
    induction es generalizing t k with
    | nil =>
      cases h
      exact always_nil.mpr (Int.le_refl _)
    | cons e es ih =>
      have hend := hrung htop hu h
      obtain ⟨t', ht', h⟩ := run_cons_eq_some.mp h
      refine always_cons.mpr ⟨?_, fun t'' ht'' => ?_⟩
      · rw [hqueue htop, hqueue hend]
        exact ladder_fst_mono (Nat.le_add_right _ _)
      · obtain rfl : t' = t'' := Option.some.inj (ht'.symm.trans ht'')
        exact ih (hu.2 t' ht') h _ (rung_step htop hu.1 ht')

/-- `init` is dispatched and ticked six times on one CPU, and its child once on the other. -/
theorem ladder_run_six : ∃ s : Smp 2,
    run step (boot 2) ([.pass 0, .call 0 (.alloc 1 true), .call 0 (.ready 1), .pass 1, .tick 1] ++
      List.replicate 6 (Event.tick 0)) = some s ∧
    ((s.globals.table 0).queue, (s.globals.table 0).ticksUsed) = (2, 1) := by
  obtain ⟨s, hs⟩ := Option.isSome_iff_exists.mp (show (run step (boot 2) ([.pass 0,
    .call 0 (.alloc 1 true), .call 0 (.ready 1), .pass 1, .tick 1] ++
      List.replicate 6 (Event.tick 0))).isSome from rfl)
  exact ⟨s, hs, (ladder_run (p := 0) (.boot rfl) (by decide +kernel) hs).1⟩

end Smp

end MiniProject.Kernel
