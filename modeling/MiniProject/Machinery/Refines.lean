import MiniProject.Machinery.Runs

/-!
# Machinery/Refines — one machine carries out another

Every step of a machine performs some steps of a more abstract one, perhaps none; which ones may
depend on the state.  Where a relation between the states goes along with every step, it goes along
with every run (`simulate`).
-/

namespace MiniProject

universe u v w x

variable {σ : Type u} {Λ : Type v} {τ : Type w} {Λ' : Type x}

/-- The abstract steps that a run performs. -/
def trace (step : σ → Λ → Option σ) (performs : σ → Λ → List Λ') : σ → List Λ → List Λ'
  | _, [] => []
  | s, l :: ls => performs s l ++ match step s l with
    | none => []
    | some t => trace step performs t ls

variable {step : σ → Λ → Option σ} {step' : τ → Λ' → Option τ}
variable {performs : σ → Λ → List Λ'} {s s' : σ} {t : τ} {ls : List Λ}

theorem trace_cons {l : Λ} {s₁ : σ} (h : step s l = some s₁) :
    trace step performs s (l :: ls) = performs s l ++ trace step performs s₁ ls := by
  rw [trace, h]

theorem run_one {l : Λ} (h : step s l = some s') : run step s [l] = some s' := by
  rw [run, h]
  rfl

theorem run_append (s : σ) (ls ls' : List Λ) :
    run step s (ls ++ ls') = (run step s ls).bind fun s₁ => run step s₁ ls' := by
  induction ls generalizing s with
  | nil => rfl
  | cons l ls ih =>
    rw [List.cons_append, run, run, Option.bind_assoc]
    exact congrArg _ (funext ih)

/-- **The simulation rule.** -/
theorem simulate {R : σ → τ → Prop} {P : σ → Λ → Prop}
    (hstep : ∀ s t l s', R s t → P s l → step s l = some s' →
      ∃ t', run step' t (performs s l) = some t' ∧ R s' t')
    (hR : R s t) (hP : Along step P s ls) (h : run step s ls = some s') :
    ∃ t', run step' t (trace step performs s ls) = some t' ∧ R s' t' := by
  induction ls generalizing s t with
  | nil =>
    cases h
    exact ⟨t, rfl, hR⟩
  | cons l ls ih =>
    obtain ⟨s₁, hs₁, h⟩ := run_cons_eq_some.mp h
    obtain ⟨t₁, ht₁, hR₁⟩ := hstep s t l s₁ hR hP.1 hs₁
    obtain ⟨t', ht', hR'⟩ := ih hR₁ (hP.2 s₁ hs₁) h
    refine ⟨t', ?_, hR'⟩
    rw [trace_cons hs₁, run_append, ht₁]
    exact ht'

end MiniProject
