import Mathlib.Algebra.Order.Ring.Int
import Mathlib.Data.Nat.Notation
import Mathlib.Data.Option.Basic

/-!
# Machinery/Runs — runs of a labelled step function

A machine is a partial step function; a run follows a list of labels, which fixes every choice, so
that a property of all runs is a property of all lists of labels.  Two rules carry every proof about
runs: an invariant that the steps keep (`invariant`), and a flag that every step settles
(`along_iff`).
-/

namespace MiniProject

universe u v

variable {σ : Type u} {Λ : Type v}

/-- The state a list of labels leads to, if each of its steps is possible. -/
def run (step : σ → Λ → Option σ) : σ → List Λ → Option σ
  | s, [] => some s
  | s, l :: ls => (step s l).bind fun s' => run step s' ls

/-- Every step along the labels meets `P`. -/
def Along (step : σ → Λ → Option σ) (P : σ → Λ → Prop) : σ → List Λ → Prop
  | _, [] => True
  | s, l :: ls => P s l ∧ ∀ s', step s l = some s' → Along step P s' ls

variable {step : σ → Λ → Option σ} {s s' : σ} {ls : List Λ}

/-- Each step has one outcome, so that a property along a run can be computed. -/
def decidableAlong (P : σ → Λ → Prop) [∀ s l, Decidable (P s l)] :
    ∀ s ls, Decidable (Along step P s ls)
  | _, [] => isTrue trivial
  | s, l :: ls =>
    have hiff : Along step P s (l :: ls) ↔ P s l ∧ ∀ t ∈ step s l, Along step P t ls := Iff.rfl
    match hstep : step s l with
    | none => decidable_of_iff (P s l) (by rw [hiff, hstep]; simp)
    | some t =>
      have := decidableAlong P t ls
      decidable_of_iff (P s l ∧ Along step P t ls) (by rw [hiff, hstep]; simp)

instance (P : σ → Λ → Prop) [∀ s l, Decidable (P s l)] : Decidable (Along step P s ls) :=
  decidableAlong P s ls

theorem run_cons_eq_some {l : Λ} :
    run step s (l :: ls) = some s' ↔ ∃ t, step s l = some t ∧ run step t ls = some s' := by
  rw [run, Option.bind_eq_some_iff]

/-- One more step. -/
theorem run_concat (s : σ) (ls : List Λ) (l : Λ) :
    run step s (ls ++ [l]) = (run step s ls).bind (step · l) := by
  induction ls generalizing s with
  | nil => simp [run]
  | cons l' ls ih =>
    rw [List.cons_append, run, run, Option.bind_assoc]
    exact congrArg _ (funext ih)

/-- A step met after some others meets `P` like all. -/
theorem Along.of_run {P : σ → Λ → Prop} {l : Λ} {rest : List Λ}
    (hP : Along step P s (ls ++ l :: rest)) (h : run step s ls = some s') : P s' l := by
  induction ls generalizing s with
  | nil =>
    cases h
    exact hP.1
  | cons k ls ih =>
    obtain ⟨t, ht, h⟩ := run_cons_eq_some.mp h
    exact ih (hP.2 t ht) h

/-- **The invariant rule**: what every step that meets `P` preserves holds along every run whose
steps all do. -/
theorem invariant {P : σ → Λ → Prop} {I : σ → Prop}
    (hstep : ∀ s l s', I s → P s l → step s l = some s' → I s') (hI : I s)
    (hP : Along step P s ls) (h : run step s ls = some s') : I s' := by
  induction ls generalizing s with
  | nil =>
    cases h
    exact hI
  | cons l ls ih =>
    obtain ⟨t, ht, h⟩ := run_cons_eq_some.mp h
    exact ih (hstep s l t hI hP.1 ht) (hP.2 t ht) h

/-- …with no condition on the steps. -/
theorem invariant' {I : σ → Prop} (hstep : ∀ s l s', I s → step s l = some s' → I s')
    (hI : I s) (h : run step s ls = some s') : I s' := by
  refine invariant (P := fun _ _ => True) (fun s l s' hI _ => hstep s l s' hI) hI ?_ h
  clear h hI
  induction ls generalizing s with
  | nil => trivial
  | cons l ls ih => exact ⟨trivial, fun t _ => ih⟩

/-- **The history rule**: an invariant may speak of the labels so far. -/
theorem invariant_history {P : σ → Λ → Prop} {I : List Λ → σ → Prop} {hs : List Λ}
    (hstep : ∀ hs s l s', I hs s → P s l → step s l = some s' → I (hs ++ [l]) s') (hI : I hs s)
    (hP : Along step P s ls) (h : run step s ls = some s') : I (hs ++ ls) s' := by
  induction ls generalizing s hs with
  | nil =>
    cases h
    rwa [List.append_nil]
  | cons l ls ih =>
    obtain ⟨t, ht, h⟩ := run_cons_eq_some.mp h
    rw [List.append_cons]
    exact ih (hstep hs s l t hI hP.1 ht) (hP.2 t ht) h

/-- What every step keeps backwards held all the way. -/
theorem back_of_run {K : σ → Prop} (hback : ∀ s l s', step s l = some s' → K s' → K s)
    (h : run step s ls = some s') (hK : K s') : K s := by
  induction ls generalizing s with
  | nil =>
    cases h
    exact hK
  | cons l ls ih =>
    obtain ⟨t, ht, h⟩ := run_cons_eq_some.mp h
    exact hback s l t ht (ih h)

/-- **The flag rule**: a property that survives a step exactly when the step meets `P` holds at the
end exactly when it held at the start and every step met `P`; an invariant may help. -/
theorem along_iff_of_invariant {P : σ → Λ → Prop} {J ok : σ → Prop}
    (hinv : ∀ s l s', J s → step s l = some s' → J s')
    (hstep : ∀ s l s', J s → step s l = some s' → (ok s' ↔ ok s ∧ P s l))
    (hJ : J s) (h : run step s ls = some s') : ok s' ↔ ok s ∧ Along step P s ls := by
  induction ls generalizing s with
  | nil =>
    cases h
    exact (and_iff_left trivial).symm
  | cons l ls ih =>
    obtain ⟨t, ht, h⟩ := run_cons_eq_some.mp h
    rw [ih (hinv s l t hJ ht) h, hstep s l t hJ ht, and_assoc]
    refine and_congr_right fun _ => and_congr_right fun _ =>
      ⟨fun hA t' ht' => ?_, fun hA => hA t ht⟩
    rw [ht] at ht'
    cases ht'
    exact hA

/-- …with no invariant. -/
theorem along_iff {P : σ → Λ → Prop} {ok : σ → Prop}
    (hstep : ∀ s l s', step s l = some s' → (ok s' ↔ ok s ∧ P s l))
    (h : run step s ls = some s') : ok s' ↔ ok s ∧ Along step P s ls :=
  along_iff_of_invariant (J := fun _ => True) (fun _ _ _ _ _ => trivial)
    (fun s l s' _ => hstep s l s') trivial h

/-- Along a run, what is the same at every step is the same: under an invariant, which may rest on
something that holds all the way if it holds at the end. -/
theorem along_congr_of_end {P Q : σ → Λ → Prop} {J K : σ → Prop}
    (hback : ∀ s l s', step s l = some s' → K s' → K s)
    (hinv : ∀ s l s', J s → K s' → step s l = some s' → J s')
    (hPQ : ∀ s l s', J s → K s' → step s l = some s' → (P s l ↔ Q s l)) (hJ : J s)
    (h : run step s ls = some s') (hK : K s') : Along step P s ls ↔ Along step Q s ls := by
  induction ls generalizing s with
  | nil => rfl
  | cons l ls ih =>
    obtain ⟨t, ht, h⟩ := run_cons_eq_some.mp h
    have hKt : K t := back_of_run hback h hK
    refine and_congr (hPQ s l t hJ hKt ht) ⟨fun hA t' ht' => ?_, fun hA t' ht' => ?_⟩
    · obtain rfl : t = t' := Option.some.inj (ht.symm.trans ht')
      exact (ih (hinv s l t hJ hKt ht) h).mp (hA t ht)
    · obtain rfl : t = t' := Option.some.inj (ht.symm.trans ht')
      exact (ih (hinv s l t hJ hKt ht) h).mpr (hA t ht)

/-- …with an invariant alone. -/
theorem along_congr {P Q : σ → Λ → Prop} {J : σ → Prop}
    (hinv : ∀ s l s', J s → step s l = some s' → J s')
    (hPQ : ∀ s l s', J s → step s l = some s' → (P s l ↔ Q s l)) (hJ : J s)
    (h : run step s ls = some s') : Along step P s ls ↔ Along step Q s ls :=
  along_congr_of_end (K := fun _ => True) (fun _ _ _ _ _ => trivial)
    (fun s l s' hJ _ => hinv s l s' hJ) (fun s l s' hJ _ => hPQ s l s' hJ) hJ h trivial

/-- …which is all it takes if it settles the question before the step. -/
theorem along_congr' {P Q : σ → Λ → Prop} {J : σ → Prop}
    (hinv : ∀ s l s', J s → step s l = some s' → J s') (hPQ : ∀ s l, J s → (P s l ↔ Q s l))
    (hJ : J s) : Along step P s ls ↔ Along step Q s ls := by
  induction ls generalizing s with
  | nil => rfl
  | cons l ls ih =>
    refine and_congr (hPQ s l hJ) (forall_congr' fun t => forall_congr' fun ht => ?_)
    exact ih (hinv s l t hJ ht)

/-- Every step meets what the invariant says of all. -/
theorem along_of_invariant {P : σ → Λ → Prop} {J : σ → Prop}
    (hinv : ∀ s l s', J s → step s l = some s' → J s') (hP : ∀ s l, J s → P s l) (hJ : J s) :
    Along step P s ls := by
  induction ls generalizing s with
  | nil => trivial
  | cons l ls ih => exact ⟨hP s l hJ, fun t ht => ih (hinv s l t hJ ht)⟩

/-- `I` holds after every initial stretch of the labels. -/
def Always (step : σ → Λ → Option σ) (I : σ → Prop) (s : σ) (ls : List Λ) : Prop :=
  ∀ ls', ls' <+: ls → ∀ t, run step s ls' = some t → I t

theorem always_cons {I : σ → Prop} {l : Λ} :
    Always step I s (l :: ls) ↔ I s ∧ ∀ t, step s l = some t → Always step I t ls := by
  constructor
  · refine fun h => ⟨h [] List.nil_prefix s rfl, fun t ht ls' hls' t' ht' => ?_⟩
    exact h (l :: ls') ((List.prefix_cons_inj l).mpr hls') t'
      (run_cons_eq_some.mpr ⟨t, ht, ht'⟩)
  · rintro ⟨hI, h⟩ ls' hls' t ht
    rcases List.prefix_cons_iff.mp hls' with rfl | ⟨ls'', rfl, hls''⟩
    · cases ht
      exact hI
    · obtain ⟨t', ht', ht⟩ := run_cons_eq_some.mp ht
      exact h t' ht' ls'' hls'' t ht

theorem always_nil {I : σ → Prop} : Always step I s [] ↔ I s := by
  refine ⟨fun h => h [] List.nil_prefix s rfl, fun hI ls' hls' t ht => ?_⟩
  obtain rfl := List.prefix_nil.mp hls'
  cases ht
  exact hI

/-- …which can be computed, as each step has one outcome. -/
def decidableAlways (I : σ → Prop) [∀ s, Decidable (I s)] :
    ∀ s ls, Decidable (Always step I s ls)
  | s, [] => decidable_of_iff (I s) always_nil.symm
  | s, l :: ls =>
    match hstep : step s l with
    | none => decidable_of_iff (I s) (by rw [always_cons, hstep]; simp)
    | some t =>
      have := decidableAlways I t ls
      decidable_of_iff (I s ∧ Always step I t ls) (by rw [always_cons, hstep]; simp)

instance (I : σ → Prop) [∀ s, Decidable (I s)] : Decidable (Always step I s ls) :=
  decidableAlways I s ls

/-- **The prefix rule**: what holds as long as every step meets `P`, and fails after a step that
does not, holds all along a run exactly when every step meets `P`. -/
theorem always_iff {P : σ → Λ → Prop} {J I : σ → Prop} (hI : ∀ s, J s → I s)
    (hkeep : ∀ s l s', J s → P s l → step s l = some s' → J s')
    (hmeet : ∀ s l s', J s → step s l = some s' → I s' → P s l) (hJ : J s)
    (h : run step s ls = some s') : Always step I s ls ↔ Along step P s ls := by
  induction ls generalizing s with
  | nil => exact iff_of_true (always_nil.mpr (hI s hJ)) trivial
  | cons l ls ih =>
    obtain ⟨t, ht, h⟩ := run_cons_eq_some.mp h
    rw [always_cons]
    constructor
    · rintro ⟨-, hall⟩
      have hP : P s l := hmeet s l t hJ ht (hall t ht [] List.nil_prefix t rfl)
      refine ⟨hP, fun t' ht' => ?_⟩
      obtain rfl : t = t' := Option.some.inj (ht.symm.trans ht')
      exact (ih (hkeep s l t hJ hP ht) h).mp (hall t ht)
    · rintro ⟨hP, hall⟩
      refine ⟨hI s hJ, fun t' ht' => ?_⟩
      obtain rfl : t = t' := Option.some.inj (ht.symm.trans ht')
      exact (ih (hkeep s l t hJ hP ht) h).mpr (hall t ht)

/-- **The measure rule**: a label that can be followed and takes something off a measure until
`Q` holds gets there. -/
theorem exists_run_replicate {I Q : σ → Prop} {measure : σ → ℕ} {l : Λ}
    (hstep : ∀ s, I s → ¬ Q s → ∃ s', step s l = some s' ∧ I s' ∧ measure s' < measure s)
    (hI : I s) : ∃ k s', run step s (List.replicate k l) = some s' ∧ Q s' := by
  induction hm : measure s using Nat.strongRecOn generalizing s with
  | ind m ih =>
    by_cases hQ : Q s
    · exact ⟨0, s, rfl, hQ⟩
    · obtain ⟨t, ht, hIt, hlt⟩ := hstep s hI hQ
      obtain ⟨k, s', hrun, hQ'⟩ := ih _ (hm ▸ hlt) hIt rfl
      exact ⟨k + 1, s', run_cons_eq_some.mpr ⟨t, ht, hrun⟩, hQ'⟩

/-! ## Counting steps -/

/-- **The budget rule**: an invariant that the steps keep while `spent`, which goes up by one with
each step that counts, is below `N`. -/
theorem invariant_spent {P : σ → Λ → Prop} {I : σ → Prop} {counts : Λ → Bool} {spent : σ → ℕ}
    {N : ℕ}
    (hstep : ∀ s l s', I s → P s l → spent s + (if counts l then 1 else 0) < N →
      step s l = some s' → I s' ∧ spent s' = spent s + if counts l then 1 else 0)
    (hI : I s) (hP : Along step P s ls) (hN : spent s + ls.countP counts < N)
    (h : run step s ls = some s') : I s' ∧ spent s' = spent s + ls.countP counts := by
  induction ls generalizing s with
  | nil =>
    cases h
    exact ⟨hI, rfl⟩
  | cons l ls ih =>
    obtain ⟨t, ht, h⟩ := run_cons_eq_some.mp h
    rw [List.countP_cons] at hN ⊢
    obtain ⟨hI, hspent⟩ := hstep s l t hI hP.1 (by omega) ht
    obtain ⟨hI', hspent'⟩ := ih hI (hP.2 t ht) (by omega) h
    exact ⟨hI', by omega⟩

/-- …with no condition on the steps. -/
theorem invariant_spent' {I : σ → Prop} {counts : Λ → Bool} {spent : σ → ℕ} {N : ℕ}
    (hstep : ∀ s l s', I s → spent s + (if counts l then 1 else 0) < N → step s l = some s' →
      I s' ∧ spent s' = spent s + if counts l then 1 else 0)
    (hI : I s) (hN : spent s + ls.countP counts < N) (h : run step s ls = some s') :
    I s' ∧ spent s' = spent s + ls.countP counts :=
  invariant_spent (P := fun _ _ => True) (fun s l s' hI _ => hstep s l s' hI) hI
    (along_of_invariant (J := fun _ => True) (fun _ _ _ _ _ => trivial) (fun _ _ _ => trivial)
      trivial) hN h

/-- **The flag rule under a budget.** -/
theorem along_iff_of_spent {P : σ → Λ → Prop} {J ok : σ → Prop} {counts : Λ → Bool}
    {spent : σ → ℕ} {N : ℕ}
    (hstep : ∀ s l s', J s → spent s + (if counts l then 1 else 0) < N → step s l = some s' →
      J s' ∧ spent s' = spent s + (if counts l then 1 else 0) ∧ (ok s' ↔ ok s ∧ P s l))
    (hJ : J s) (hN : spent s + ls.countP counts < N) (h : run step s ls = some s') :
    ok s' ↔ ok s ∧ Along step P s ls := by
  induction ls generalizing s with
  | nil =>
    cases h
    exact (and_iff_left trivial).symm
  | cons l ls ih =>
    obtain ⟨t, ht, h⟩ := run_cons_eq_some.mp h
    rw [List.countP_cons] at hN
    obtain ⟨hJt, hspent, hok⟩ := hstep s l t hJ (by omega) ht
    rw [ih hJt (by omega) h, hok, and_assoc]
    refine and_congr_right fun _ => and_congr_right fun _ =>
      ⟨fun hA t' ht' => ?_, fun hA => hA t ht⟩
    obtain rfl : t = t' := Option.some.inj (ht.symm.trans ht')
    exact hA

/-! ## Adding up along a run -/

/-- What the steps along the labels cost, all together. -/
def total (step : σ → Λ → Option σ) (cost : σ → Λ → ℕ) : σ → List Λ → ℕ
  | _, [] => 0
  | s, l :: ls => cost s l + match step s l with
    | none => 0
    | some t => total step cost t ls

theorem total_cons {cost : σ → Λ → ℕ} {l : Λ} {t : σ} (ht : step s l = some t) :
    total step cost s (l :: ls) = cost s l + total step cost t ls := by
  rw [total, ht]

/-- **The tally rule**: what a step that meets `P` keeps, at a count that goes up by its cost, holds
at the end at the count of the whole run. -/
theorem invariant_total {cost : σ → Λ → ℕ} {P : σ → Λ → Prop} {I : ℕ → σ → Prop} {k : ℕ}
    (hstep : ∀ k s l s', I k s → P s l → step s l = some s' → I (k + cost s l) s')
    (hI : I k s) (hP : Along step P s ls) (h : run step s ls = some s') :
    I (k + total step cost s ls) s' := by
  induction ls generalizing s k with
  | nil =>
    cases h
    exact hI
  | cons l ls ih =>
    obtain ⟨t, ht, h⟩ := run_cons_eq_some.mp h
    rw [total_cons ht, ← Nat.add_assoc]
    exact ih (hstep k s l t hI hP.1 ht) (hP.2 t ht) h

/-- **The cost rule**: what every step pays for out of `rank` costs no more than `rank` says. -/
theorem total_le_rank {cost : σ → Λ → ℕ} {I A : σ → Prop} {rank : σ → ℕ}
    (hinv : ∀ s l s', I s → step s l = some s' → I s')
    (hrank : ∀ s l s', I s → A s → A s' → step s l = some s' → rank s' + cost s l ≤ rank s)
    (hI : I s) (hA : Always step A s ls) (h : run step s ls = some s') :
    total step cost s ls + rank s' ≤ rank s := by
  induction ls generalizing s with
  | nil =>
    cases h
    rw [total]
    omega
  | cons l ls ih =>
    obtain ⟨t, ht, h⟩ := run_cons_eq_some.mp h
    obtain ⟨hs, hall⟩ := always_cons.mp hA
    have hAt : A t := hall t ht [] List.nil_prefix t rfl
    have hle := hrank s l t hI hs hAt ht
    have hrest := ih (hinv s l t hI ht) (hall t ht) h
    rw [total_cons ht]
    omega

/-- **The ranking rule**: where every step that counts takes one off `rank` or costs one, and no
other adds to it, no more steps count than `rank` says and the run costs. -/
theorem count_le_rank {cost : σ → Λ → ℕ} {I A : σ → Prop} {counts : Λ → Bool} {spent rank : σ → ℕ}
    {N : ℕ}
    (hstep : ∀ s l s', I s → spent s + (if counts l then 1 else 0) < N → step s l = some s' →
      I s' ∧ spent s' = spent s + if counts l then 1 else 0)
    (hrank : ∀ s l s', I s → A s → A s' → spent s + (if counts l then 1 else 0) < N →
      step s l = some s' → rank s' + (if counts l then 1 else 0) ≤ rank s + cost s l)
    (hI : I s) (hA : Always step A s ls) (hN : spent s + ls.countP counts < N)
    (h : run step s ls = some s') : ls.countP counts ≤ rank s + total step cost s ls := by
  induction ls generalizing s with
  | nil => exact Nat.zero_le _
  | cons l ls ih =>
    obtain ⟨t, ht, h⟩ := run_cons_eq_some.mp h
    rw [List.countP_cons] at hN ⊢
    obtain ⟨hs, hall⟩ := always_cons.mp hA
    have hAt : A t := hall t ht [] List.nil_prefix t rfl
    have hle := hrank s l t hI hs hAt (by omega) ht
    obtain ⟨hIt, hspent⟩ := hstep s l t hI (by omega) ht
    have hcount := ih hIt (hall t ht) (by omega) h
    rw [total_cons ht]
    omega

/-- **The budget rule for costs**: where a step costs at most one, and nothing if it does not count,
the steps cost no more than count. -/
theorem total_le_count {cost : σ → Λ → ℕ} {I : σ → Prop} {counts : Λ → Bool} {spent : σ → ℕ} {N : ℕ}
    (hstep : ∀ s l s', I s → spent s + (if counts l then 1 else 0) < N → step s l = some s' →
      I s' ∧ spent s' = spent s + if counts l then 1 else 0)
    (hcost : ∀ s l s', I s → step s l = some s' → cost s l ≤ if counts l then 1 else 0)
    (hI : I s) (hN : spent s + ls.countP counts < N) (h : run step s ls = some s') :
    total step cost s ls ≤ ls.countP counts := by
  induction ls generalizing s with
  | nil => exact Nat.le_refl 0
  | cons l ls ih =>
    obtain ⟨t, ht, h⟩ := run_cons_eq_some.mp h
    rw [List.countP_cons] at hN ⊢
    obtain ⟨hIt, hspent⟩ := hstep s l t hI (by omega) ht
    have hle := hcost s l t hI ht
    have hrest := ih hIt (by omega) h
    rw [total_cons ht]
    omega

end MiniProject
