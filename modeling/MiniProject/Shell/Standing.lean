import MiniProject.Shell.Slots

/-!
# Shell/Standing — what the table says of a job, and what its processes do

`run_foreground` and `resume` keep `state` up to date with what they see and what they send; `ping`
sends its signal and leaves `state` alone.  So at every prompt the state of every active job is that
of its processes, exactly as long as no `ping` stops a job recorded as running, or continues one
recorded as stopped (`shown_iff`).
-/

namespace MiniProject.Shell

/-! ## States and phases -/

namespace JobState

/-- A process is in the state. -/
def Is : JobState → Phase → Prop
  | .running, .running => True
  | .stopped, .stopped _ => True
  | _, _ => False

/-- …or has terminated. -/
def Fits : JobState → Phase → Prop
  | .running, .stopped _ => False
  | .stopped, .running => False
  | _, _ => True

variable {st st' : JobState} {phase : Phase}

theorem fits_zombie (normal : Bool) : st.Fits (.zombie normal) := by
  cases st <;> trivial

/-- A process that lives is in a state, and in one only. -/
theorem is_iff_of_fits (hfits : st.Fits phase) (hlive : ∀ normal, phase ≠ .zombie normal) :
    st'.Is phase ↔ st = st' := by
  cases phase with
  | running => cases st <;> cases st' <;> simp_all [Fits, Is]
  | stopped => cases st <;> cases st' <;> simp_all [Fits, Is]
  | zombie normal => exact absurd rfl (hlive normal)

theorem fits_of_is (h : st.Is phase) : st.Fits phase := by
  cases st <;> cases phase <;> trivial

end JobState

/-- The state a signal brings about. -/
def Sig.state : Sig → JobState
  | .stop | .tstp => .stopped
  | .cont => .running

theorem fits_stop (phase : Phase) : JobState.stopped.Fits phase.stop := by
  cases phase <;> trivial

theorem fits_cont (phase : Phase) : JobState.running.Fits phase.cont := by
  cases phase <;> trivial

theorem Sig.fits_act (sig : Sig) (phase : Phase) : sig.state.Fits (sig.act phase) := by
  cases sig with
  | stop => exact fits_stop phase
  | tstp => exact fits_stop phase
  | cont => exact fits_cont phase

/-- No signal ends a process, or brings one back. -/
theorem Sig.act_eq_zombie {sig : Sig} {phase : Phase} {normal : Bool} :
    sig.act phase = .zombie normal ↔ phase = .zombie normal := by
  cases sig <;> cases phase <;> simp [act, Phase.stop, Phase.cont]

namespace Console

variable {s s' : Console} {e : Event} {k : ℕ}

/-- **At the prompt**: `state` of each active job is that of its processes, as far as they live. -/
def Shown (s : Console) : Prop :=
  ∀ k, s.table.activeAt k = true → ∀ x ∈ s.children.unreaped, x.pgid = k →
    (∀ normal, x.phase ≠ .zombie normal) →
      ∀ st, s.table.stateAt k = some st ↔ st.Is x.phase

/-- A `ping` that stops or continues a job with living processes finds it recorded so already. -/
def Fitting (s : Console) : Event → Prop
  | .ping target sig =>
    ∀ k ∈ s.table.find target, ∀ x ∈ s.children.unreaped, x.pgid = k →
      (∀ normal, x.phase ≠ .zombie normal) → s.table.stateAt k = some sig.state
  | _ => True

instance (s : Console) (e : Event) : Decidable (s.Fitting e) :=
  match e with
  | .ping target sig =>
    inferInstanceAs (Decidable (∀ k ∈ s.table.find target, ∀ x ∈ s.children.unreaped, x.pgid = k →
      (∀ normal, x.phase ≠ .zombie normal) → s.table.stateAt k = some sig.state))
  | .main | .launch .. | .resume .. | .fork _ | .collect _ | .noticeStop _ | .noChild | .timeout
  | .ctrlZ | .exits .. | .signal | .reaps _ | .handled => isTrue trivial

/-! ## One job -/

/-- What is recorded of job `k` fits its processes. -/
def Agrees (s : Console) (k : ℕ) : Prop :=
  ∀ st, s.table.stateAt k = some st → s.children.AllIn k st.Fits

/-- The processes of job `k` all run, or have all stopped. -/
def Uniform (s : Console) (k : ℕ) : Prop := ∃ st : JobState, s.children.AllIn k st.Fits

/-- Job `k` has stopped, and that is recorded; or nothing is left of it. -/
def Parked (s : Console) (k : ℕ) : Prop :=
  (s.children.AllIn k JobState.stopped.Fits ∧ s.table.stateAt k = some .stopped) ∨
    ¬ s.children.HasGroup k

theorem stateAt_of_activeAt (h : s.table.activeAt k = true) :
    ∃ st, s.table.stateAt k = some st :=
  ⟨_, congrArg _ (List.getElem?_eq_getElem (JobTable.lt_of_activeAt h))⟩

theorem Agrees.uniform (h : s.Agrees k) (hactive : s.table.activeAt k = true) : s.Uniform k := by
  obtain ⟨st, hst⟩ := stateAt_of_activeAt hactive
  exact ⟨st, h st hst⟩

theorem Parked.agrees (h : s.Parked k) : s.Agrees k := by
  intro st hst
  rcases h with ⟨hall, hstopped⟩ | hnone
  · rw [hstopped, Option.some_inj] at hst
    exact hst ▸ hall
  · exact Children.allIn_of_not_hasGroup hnone

theorem shown_iff_agrees : s.Shown ↔ ∀ k, s.table.activeAt k = true → s.Agrees k := by
  constructor
  · intro h k hactive st hst x hx hg
    by_cases hlive : ∀ normal, x.phase ≠ .zombie normal
    · exact JobState.fits_of_is ((h k hactive x hx hg hlive st).mp hst)
    · obtain ⟨normal, hzombie⟩ := not_forall_not.mp hlive
      exact hzombie ▸ JobState.fits_zombie normal
  · intro h k hactive x hx hg hlive st
    obtain ⟨st', hst'⟩ := stateAt_of_activeAt hactive
    rw [JobState.is_iff_of_fits (h k hactive st' hst' x hx hg) hlive, hst', Option.some_inj]

/-! ## What is known between the prompts -/

/-- The job whose processes a command is dealing with. -/
def inHand (s : Console) : Option ℕ :=
  match s.place with
  | .wait _ | .giveBack _ | .leave _ => some s.slot
  | .run k | .say k _ | .grab k _ | .mark k _ | .await k _ _ | .settle k _ _ | .expired k
  | .release k => some k
  | _ => none

/-- The job that has the terminal. -/
def holder (s : Console) : Option ℕ :=
  match s.place with
  | .wait _ | .giveBack _ => some s.slot
  | .mark k _ | .await k _ _ | .settle k _ _ | .expired k | .release k => some k
  | _ => none

/-- What a command knows of the job it is dealing with. -/
def Grasped (s : Console) : Prop :=
  match s.place with
  | .fork | .fill => s.children.AllIn s.slot JobState.running.Fits
  | .activate =>
    s.children.AllIn s.slot JobState.running.Fits ∧ s.table.stateAt s.slot = some .running
  | .wait _ => s.table.activeAt s.slot = true → s.Uniform s.slot
  | .giveBack true | .leave true => s.table.activeAt s.slot = true → s.Parked s.slot
  | .run k | .say k _ | .grab k _ => s.children.AllIn k JobState.running.Fits
  | .mark k _ => s.Uniform k
  | .await k _ remaining =>
    s.Uniform k ∧ (s.table.activeAt k = true → (s.children.members k).length ≤ remaining)
  | .settle k timeout remaining =>
    s.table.activeAt k = true → ¬ (timeout = 0 ∧ remaining = 0) → s.Parked k
  | .release k => s.table.activeAt k = true → s.Parked k
  | _ => True

/-- Every active job no command is dealing with agrees with its processes, and the terminal is where
the command has put it. -/
structure Standing (s : Console) : Prop where
  housed : s.Housed
  agrees : ∀ k, s.table.activeAt k = true → s.inHand ≠ some k → s.Agrees k
  terminal : s.terminal = s.holder
  grasped : s.Grasped

theorem standing_initial : initial.Standing := ⟨housed_initial, nofun, rfl, trivial⟩

/-- At the prompt no command is dealing with anything. -/
theorem Standing.shown (h : s.Standing) (hplace : s.place = .prompt) : s.Shown :=
  shown_iff_agrees.mpr fun k hactive => h.agrees k hactive (by simp [inHand, hplace])

/-! ## Processes that end, and are waited for -/

/-- Processes end or disappear, and jobs with them; nothing else happens. -/
structure Wanes (s s' : Console) : Prop where
  allIn : ∀ k (st : JobState), s.children.AllIn k st.Fits → s'.children.AllIn k st.Fits
  group : ∀ k, s'.children.HasGroup k → s.children.HasGroup k
  members : ∀ k, (s'.children.members k).length ≤ (s.children.members k).length
  active : ∀ k, s'.table.activeAt k = true → s.table.activeAt k = true
  state : ∀ k, s'.table.stateAt k = s.table.stateAt k

theorem Wanes.of_eq (hchildren : s'.children = s.children) (hjobs : s'.table.jobs = s.table.jobs) :
    Wanes s s' := by
  have hactive : ∀ k, s'.table.activeAt k = s.table.activeAt k := fun k => by
    rw [JobTable.activeAt, JobTable.activeAt, hjobs]
  have hstate : ∀ k, s'.table.stateAt k = s.table.stateAt k := fun k => by
    rw [JobTable.stateAt, JobTable.stateAt, hjobs]
  exact ⟨fun _ _ h => hchildren ▸ h, fun _ h => hchildren ▸ h,
    fun _ => Nat.le_of_eq (by rw [hchildren]), fun k h => hactive k ▸ h, hstate⟩

theorem Wanes.agrees (h : Wanes s s') (ha : s.Agrees k) : s'.Agrees k :=
  fun st hst => h.allIn k st (ha st (h.state k ▸ hst))

theorem Wanes.uniform (h : Wanes s s') (hu : s.Uniform k) : s'.Uniform k :=
  hu.imp fun st hall => h.allIn k st hall

theorem Wanes.parked (h : Wanes s s') (hp : s.Parked k) : s'.Parked k := by
  rcases hp with ⟨hall, hstate⟩ | hnone
  · exact .inl ⟨h.allIn k _ hall, (h.state k).trans hstate⟩
  · exact .inr fun hg => hnone (h.group k hg)

/-- What is known stays known. -/
theorem Wanes.grasped (h : Wanes s s') (hplace : s'.place = s.place) (hslot : s'.slot = s.slot)
    (hgrasped : s.Grasped) : s'.Grasped := by
  rw [Grasped] at hgrasped ⊢
  rw [hplace, hslot]
  split at hgrasped
  · exact h.allIn _ _ hgrasped
  · exact h.allIn _ _ hgrasped
  · exact ⟨h.allIn _ _ hgrasped.1, (h.state _).trans hgrasped.2⟩
  · exact fun hactive => h.uniform (hgrasped (h.active _ hactive))
  · exact fun hactive => h.parked (hgrasped (h.active _ hactive))
  · exact fun hactive => h.parked (hgrasped (h.active _ hactive))
  · exact h.allIn _ _ hgrasped
  · exact h.allIn _ _ hgrasped
  · exact h.allIn _ _ hgrasped
  · exact h.uniform hgrasped
  · exact ⟨h.uniform hgrasped.1, fun hactive =>
      Nat.le_trans (h.members _) (hgrasped.2 (h.active _ hactive))⟩
  · exact fun hactive hne => h.parked (hgrasped (h.active _ hactive) hne)
  · exact fun hactive => h.parked (hgrasped (h.active _ hactive))
  · trivial

/-- A step in which processes end and the shell goes on. -/
theorem Standing.wane (h : s.Standing) (hhoused : s'.Housed) (hw : Wanes s s')
    (hhand : s'.inHand = s.inHand) (hterm : s'.terminal = s'.holder) (hgrasped : s'.Grasped) :
    s'.Standing :=
  ⟨hhoused, fun k hactive hne => hw.agrees (h.agrees k (hw.active k hactive) (hhand ▸ hne)), hterm,
    hgrasped⟩

/-- …in which the shell stays where it is. -/
theorem Standing.stay (h : s.Standing) (hhoused : s'.Housed) (hw : Wanes s s')
    (hplace : s'.place = s.place) (hslot : s'.slot = s.slot) (hterm : s'.terminal = s.terminal) :
    s'.Standing :=
  h.wane hhoused hw (by rw [inHand, inHand, hplace, hslot])
    (by rw [hterm, h.terminal, holder, holder, hplace, hslot]) (hw.grasped hplace hslot h.grasped)

/-- A command takes job `k` in hand or lets go of it, and no other job changes. -/
theorem Standing.turn (h : s.Standing) (hhoused : s'.Housed)
    (hothers : ∀ i, i ≠ k → s'.table.activeAt i = true → s'.inHand ≠ some i →
      s.table.activeAt i = true ∧ s.inHand ≠ some i ∧ s'.table.stateAt i = s.table.stateAt i ∧
        ∀ st : JobState, s.children.AllIn i st.Fits → s'.children.AllIn i st.Fits)
    (hk : s'.table.activeAt k = true → s'.inHand ≠ some k → s'.Agrees k)
    (hterm : s'.terminal = s'.holder) (hgrasped : s'.Grasped) : s'.Standing := by
  refine ⟨hhoused, fun i hactive hne => ?_, hterm, hgrasped⟩
  by_cases hik : i = k
  · rw [hik] at hactive hne ⊢
    exact hk hactive hne
  · obtain ⟨hactive, hne, hstate, hall⟩ := hothers i hik hactive hne
    exact fun st hst => hall st (h.agrees i hactive hne st (hstate ▸ hst))

/-- Another job's state is not written to. -/
theorem others_setState {table : JobTable} {st : JobState} (hhand : s.inHand = some k)
    (htable : table.jobs = (s.table.setState k st).jobs) (i : ℕ) (hne : i ≠ k)
    (hactive : table.activeAt i = true) :
    s.table.activeAt i = true ∧ s.inHand ≠ some i ∧ table.stateAt i = s.table.stateAt i := by
  refine ⟨?_, ?_, ?_⟩
  · rw [JobTable.activeAt, htable] at hactive
    exact (JobTable.activeAt_setState st).symm.trans hactive
  · rw [hhand, ne_eq, Option.some_inj]
    exact hne.symm
  · rw [JobTable.stateAt, htable]
    exact JobTable.stateAt_setState_of_ne st hne

/-! ## The shell on its own -/

section Main

variable (h : s.Standing)

include h

/-- The job registered agrees with its processes from the start. -/
theorem Standing.fill (hplace : s.place = .fill) {table : JobTable}
    (hfill : s.table.fillSlot (s.forked.headD 0) s.forked s.names s.command s.background =
      .ok table) : Standing { s with table, place := .activate } := by
  have hgrasped := h.grasped
  have hplaced := h.housed.placed
  simp only [Grasped, hplace] at hgrasped
  simp only [Placed, hplace] at hplaced
  have hterm := h.terminal
  simp only [holder, hplace] at hterm
  refine ⟨h.housed.fill hplace hfill, fun k hactive _ => ?_, hterm, hgrasped, ?_⟩
  · change table.activeAt k = true at hactive
    rw [JobTable.activeAt_fillSlot hfill] at hactive
    have hne := Nat.ne_of_lt (JobTable.lt_of_activeAt hactive)
    intro st hst
    refine h.agrees k hactive (by simp [inHand, hplace]) st ?_
    rw [← JobTable.stateAt_fillSlot_of_ne hfill hne]
    exact hst
  · change table.stateAt s.slot = _
    rw [hplaced.1]
    exact JobTable.stateAt_fillSlot hfill

theorem Standing.activate (hplace : s.place = .activate) (hhoused : Housed { s with
      table := s.table.setActive s.slot true
      place := if s.background then .announce else .lookup }) :
    Standing { s with
      table := s.table.setActive s.slot true
      place := if s.background then .announce else .lookup } := by
  have hgrasped := h.grasped
  simp only [Grasped, hplace] at hgrasped
  have hterm := h.terminal
  simp only [holder, hplace] at hterm
  refine h.turn (k := s.slot) hhoused (fun i hne hactive _ => ?_) (fun _ _ st hst => ?_) ?_ ?_
  · change (s.table.setActive s.slot true).activeAt i = true at hactive
    rw [JobTable.activeAt_setActive_of_ne true hne] at hactive
    exact ⟨hactive, by simp [inHand, hplace], JobTable.stateAt_setActive true, fun _ hall => hall⟩
  · change (s.table.setActive s.slot true).stateAt s.slot = some st at hst
    rw [JobTable.stateAt_setActive, hgrasped.2, Option.some_inj] at hst
    exact hst ▸ hgrasped.1
  · rw [holder]
    cases s.background <;> exact hterm
  · rw [Grasped]
    cases s.background <;> trivial

/-- The foreground job is inactive, or it has stopped. -/
theorem Standing.leave {stopped : Bool} (hplace : s.place = .leave stopped) {table : JobTable}
    (hhoused : Housed { s with table, place := .clearFg })
    (htable : table = match s.job with
      | none => s.table
      | some k => if stopped then s.table else s.table.setActive k false) :
    Standing { s with table, place := .clearFg } := by
  have hplaced := h.housed.placed
  simp only [Placed, hplace] at hplaced
  have hterm := h.terminal
  simp only [holder, hplace] at hterm
  have hstate : ∀ i, table.stateAt i = s.table.stateAt i := by
    intro i
    rw [htable]
    split
    · rfl
    · split
      · rfl
      · exact JobTable.stateAt_setActive false
  have hactive : ∀ i, table.activeAt i = true → s.table.activeAt i = true := by
    intro i hi
    rw [htable] at hi
    split at hi
    · exact hi
    · split at hi
      · exact hi
      · exact (JobTable.activeAt_of_setActive_false hi).2
  refine h.turn (k := s.slot) hhoused (fun i hne hi _ => ?_) (fun hslot _ => ?_) hterm trivial
  · refine ⟨hactive i hi, ?_, hstate i, fun _ hall => hall⟩
    simp only [inHand, hplace, ne_eq, Option.some_inj]
    exact hne.symm
  · change table.activeAt s.slot = true at hslot
    have hparked : s.Parked s.slot := by
      rcases hplaced.2 with hjob | ⟨-, hinactive⟩
      · rw [htable, hjob] at hslot
        cases stopped with
        | false => exact absurd rfl (JobTable.activeAt_of_setActive_false hslot).1
        | true =>
          have hgrasped := h.grasped
          simp only [Grasped, hplace] at hgrasped
          exact hgrasped (hactive _ (by rw [htable, hjob]; exact hslot))
      · rw [hactive _ hslot] at hinactive
        cases hinactive
    exact fun st hst => hparked.agrees st (hstate s.slot ▸ hst)

/-- `kill(-j->pgid, SIGCONT)`. -/
theorem Standing.cont {how : Resume} (hplace : s.place = .cont k how) {place : Place}
    (hhoused : Housed { s with children := s.children.signal k Phase.cont, pending := true, place })
    (hnext : (∃ timeout, place = .say k timeout) ∨ place = .run k) :
    Standing { s with children := s.children.signal k Phase.cont, pending := true, place } := by
  have hterm := h.terminal
  simp only [holder, hplace] at hterm
  have hall : (s.children.signal k Phase.cont).AllIn k JobState.running.Fits :=
    Children.allIn_signal.mpr fun x _ _ => fits_cont x.phase
  refine h.turn (k := k) hhoused (fun i hne hactive _ => ?_) (fun _ hne => ?_) ?_ ?_
  · exact ⟨hactive, by simp [inHand, hplace], rfl, fun _ hall => hall.signal hne.symm⟩
  · rcases hnext with ⟨timeout, rfl⟩ | rfl <;> exact absurd rfl hne
  · rcases hnext with ⟨timeout, rfl⟩ | rfl <;> exact hterm
  · rcases hnext with ⟨timeout, rfl⟩ | rfl <;> exact hall

/-- `resume %n bg` records that the job runs. -/
theorem Standing.run (hplace : s.place = .run k) {table : JobTable}
    (hhoused : Housed { s with table, place := .prompt })
    (htable : table.jobs = (s.table.setState k .running).jobs) :
    Standing { s with table, place := .prompt } := by
  have hgrasped := h.grasped
  simp only [Grasped, hplace] at hgrasped
  have hterm := h.terminal
  simp only [holder, hplace] at hterm
  refine h.turn (k := k) hhoused (fun i hne hactive _ => ?_) (fun hactive _ st hst => ?_) hterm
    trivial
  · obtain ⟨hactive, hhand, hstate⟩ :=
      others_setState (by simp [inHand, hplace]) htable i hne hactive
    exact ⟨hactive, hhand, hstate, fun _ hall => hall⟩
  · change table.activeAt k = true at hactive
    change table.stateAt k = some st at hst
    rw [JobTable.activeAt, htable] at hactive
    have hlt := JobTable.lt_of_activeAt hactive
    rw [JobTable.length_jobs_setState] at hlt
    rw [JobTable.stateAt, htable] at hst
    rw [← Option.some.inj ((JobTable.stateAt_setState .running hlt).symm.trans hst)]
    exact hgrasped

/-- `resume %n fg` starts to wait for as many processes as the job has left. -/
theorem Standing.mark {timeout : ℕ} (hplace : s.place = .mark k timeout)
    (hhoused : Housed { s with
      table := s.table.setState k .running
      place := .await k timeout (s.table.pidsAt k).length }) :
    Standing { s with
      table := s.table.setState k .running
      place := .await k timeout (s.table.pidsAt k).length } := by
  have hgrasped := h.grasped
  simp only [Grasped, hplace] at hgrasped
  have hterm := h.terminal
  simp only [holder, hplace] at hterm
  refine h.turn (k := k) hhoused (fun i hne hactive _ => ?_) (fun _ hne => absurd rfl hne) hterm
    ⟨hgrasped, fun hactive => ?_⟩
  · obtain ⟨hactive, hhand, hstate⟩ :=
      others_setState (by simp [inHand, hplace]) rfl i hne hactive
    exact ⟨hactive, hhand, hstate, fun _ hall => hall⟩
  · have hlt := JobTable.lt_of_activeAt hactive
    rw [JobTable.length_jobs_setState] at hlt
    exact Children.length_members_le (h.housed.listed k hlt)

/-- A job that is given up is in nobody's hand. -/
theorem Standing.giveUp (hhand : s.inHand = some k) {table : JobTable} {place : Place}
    (hhoused : Housed { s with table, place })
    (htable : table.jobs = (s.table.setActive k false).jobs) (hplace : place = .release k)
    (hterm : s.terminal = some k) : Standing { s with table, place } := by
  have hactive : ∀ i, table.activeAt i = true → i ≠ k ∧ s.table.activeAt i = true := by
    intro i hi
    rw [JobTable.activeAt, htable] at hi
    exact JobTable.activeAt_of_setActive_false hi
  subst hplace
  refine h.turn (k := k) hhoused (fun i hne hi _ => ?_) (fun hi => absurd rfl (hactive k hi).1)
    hterm fun hi => absurd rfl (hactive k hi).1
  refine ⟨(hactive i hi).2, ?_, ?_, fun _ hall => hall⟩
  · rw [hhand, ne_eq, Option.some_inj]
    exact hne.symm
  · change table.stateAt i = _
    rw [JobTable.stateAt, htable]
    exact JobTable.stateAt_setActive false

theorem Standing.settle {timeout remaining : ℕ} (hplace : s.place = .settle k timeout remaining)
    (hhoused : Housed { s with
      table := if timeout = 0 ∧ remaining = 0 then s.table.setActive k false else s.table
      place := .release k }) :
    Standing { s with
      table := if timeout = 0 ∧ remaining = 0 then s.table.setActive k false else s.table
      place := .release k } := by
  have hterm := h.terminal
  simp only [holder, hplace] at hterm
  have hhand : s.inHand = some k := by simp [inHand, hplace]
  by_cases hdone : timeout = 0 ∧ remaining = 0
  · exact h.giveUp hhand hhoused (by rw [if_pos hdone]) rfl hterm
  · have hgrasped := h.grasped
    simp only [Grasped, hplace] at hgrasped
    simp only [if_neg hdone] at hhoused ⊢
    exact h.wane hhoused (.of_eq rfl rfl) hhand.symm hterm fun hactive => hgrasped hactive hdone

/-- The shell takes the terminal back from a job that has stopped or is over. -/
theorem Standing.release (hplace : s.place = .release k)
    (hhoused : Housed { s with terminal := none, place := .prompt }) :
    Standing { s with terminal := none, place := .prompt } := by
  have hgrasped := h.grasped
  simp only [Grasped, hplace] at hgrasped
  refine h.turn (k := k) hhoused (fun i hne hactive _ => ?_) (fun hactive _ => ?_) rfl trivial
  · refine ⟨hactive, ?_, rfl, fun _ hall => hall⟩
    simp only [inHand, hplace, ne_eq, Option.some_inj]
    exact hne.symm
  · exact (hgrasped hactive).agrees

/-- The shell gives the terminal to the job it has just registered. -/
theorem Standing.takeTerminal (hplace : s.place = .takeTerminal)
    (hhoused : Housed { s with terminal := some s.slot, place := .wait s.names.length }) :
    Standing { s with terminal := some s.slot, place := .wait s.names.length } := by
  have hhand : s.inHand = none := by simp [inHand, hplace]
  refine h.turn (k := s.slot) hhoused (fun i _ hactive _ => ?_) (fun _ hne => absurd rfl hne) rfl
    fun hactive => ?_
  · exact ⟨hactive, by rw [hhand]; exact nofun, rfl, fun _ hall => hall⟩
  · exact (h.agrees s.slot hactive (by rw [hhand]; exact nofun)).uniform hactive

theorem standing_main (hstep : s.main = some s') : s'.Standing := by
  have hhoused := housed_main h.housed hstep
  have hgrasped := h.grasped
  have hterm := h.terminal
  rw [Grasped] at hgrasped
  rw [holder] at hterm
  rw [main] at hstep
  split at hstep <;> rename_i hplace <;> simp only [hplace] at hgrasped hterm
  case h_1 => -- `.prompt`
    cases hstep
    exact h.stay hhoused (.of_eq rfl rfl) rfl rfl rfl
  case h_2 | h_8 => -- `.fork` and `.wait`
    split at hstep <;> cases hstep
    exact h.wane hhoused (.of_eq rfl rfl) (by simp [inHand, hplace]) hterm (by trivial)
  case h_3 => -- `.fill`
    split at hstep <;> cases hstep
    · exact h.wane hhoused (.of_eq rfl rfl) (by simp [inHand, hplace]) hterm trivial
    · rename_i hfill
      exact h.fill hplace hfill
  case h_4 => -- `.activate`
    cases hstep
    exact h.activate hplace hhoused
  case h_7 => -- `.takeTerminal`
    cases hstep
    exact h.takeTerminal hplace hhoused
  case h_9 stopped => -- `.giveBack`
    cases hstep
    refine h.wane hhoused (.of_eq rfl rfl) (by simp [inHand, hplace]) rfl ?_
    cases stopped <;> exact hgrasped
  case h_10 => -- `.leave`
    split at hstep <;> rename_i hjob <;> cases hstep
    · exact h.leave hplace hhoused (by rw [hjob])
    · exact h.leave hplace hhoused (by rw [hjob])
  case h_13 => -- `.cont`
    rename_i k how
    cases hstep
    refine h.cont hplace hhoused ?_
    cases how with
    | bg => exact .inr rfl
    | fg timeout => exact .inl ⟨timeout, rfl⟩
  case h_14 => -- `.run`
    cases hstep
    exact h.run hplace hhoused rfl
  case h_16 => -- `.grab`
    cases hstep
    exact h.wane hhoused (.of_eq rfl rfl) (by simp [inHand, hplace]) rfl ⟨_, hgrasped⟩
  case h_17 => -- `.mark`
    cases hstep
    exact h.mark hplace hhoused
  case h_18 => -- `.await`
    obtain ⟨rfl, hstep⟩ := Option.ite_none_right_eq_some.mp hstep
    cases hstep
    refine h.wane hhoused (.of_eq rfl rfl) (by simp [inHand, hplace]) hterm fun hactive _ => .inr ?_
    intro hg
    obtain ⟨q, hq⟩ := Children.hasGroup_iff.mp hg
    have hpos := List.length_pos_of_mem (Children.mem_members.mpr hq)
    exact absurd (hgrasped.2 hactive) (Nat.not_le.mpr hpos)
  case h_19 => -- `.settle`
    cases hstep
    exact h.settle hplace hhoused
  case h_20 => -- `.expired`
    cases hstep
    exact h.giveUp (by simp [inHand, hplace]) hhoused rfl rfl hterm
  case h_21 => -- `.release`
    cases hstep
    exact h.release hplace hhoused
  case h_22 => cases hstep
  case h_15 => -- `.say`
    cases hstep
    exact h.wane hhoused (.of_eq rfl rfl) (by simp [inHand, hplace]) hterm hgrasped
  all_goals
    cases hstep
    exact h.wane hhoused (.of_eq rfl rfl) (by simp [inHand, hplace]) hterm trivial

end Main

/-! ## Signals, and what `waitpid` returns -/

/-- Ctrl-Z stops the whole job that has the terminal. -/
theorem Standing.ctrlZ (h : s.Standing) {g : ℕ} (hterm : s.terminal = some g) (hhoused : Housed
      { s with children := s.children.signal g Phase.stop, pending := true }) :
    Standing { s with children := s.children.signal g Phase.stop, pending := true } := by
  have hholder : s.holder = some g := h.terminal.symm.trans hterm
  have hgrasped := h.grasped
  have hall : (s.children.signal g Phase.stop).AllIn g JobState.stopped.Fits :=
    Children.allIn_signal.mpr fun x _ _ => fits_stop x.phase
  have hparked : s.Parked g →
      Parked { s with children := s.children.signal g Phase.stop, pending := true } g := by
    rintro (⟨-, hstate⟩ | hnone)
    · exact .inl ⟨hall, hstate⟩
    · exact .inr fun hg => hnone (Children.hasGroup_signal.mp hg)
  have hhand : s.inHand = some g := by
    rw [holder] at hholder
    split at hholder <;> rename_i hplace <;> simp_all [inHand]
  refine h.turn (k := g) hhoused (fun i hne hactive hi => ?_) (fun _ hne => absurd hhand hne)
    h.terminal ?_
  · exact ⟨hactive, hi, rfl, fun _ hall => hall.signal hne.symm⟩
  · rw [holder] at hholder
    rw [Grasped] at hgrasped ⊢
    dsimp only
    split at hholder <;> rename_i hplace <;> cases hholder <;> simp only [hplace] at hgrasped ⊢
    case h_1 => exact fun _ => ⟨_, hall⟩
    case h_2 stopped =>
      cases stopped with
      | false => trivial
      | true => exact fun hactive => hparked (hgrasped hactive)
    case h_3 => exact ⟨_, hall⟩
    case h_4 =>
      refine ⟨⟨_, hall⟩, fun hactive => Nat.le_trans ?_ (hgrasped.2 hactive)⟩
      exact Children.length_members_mono fun _ hq => Children.inGroup_signal.mp hq
    case h_5 => exact fun hactive hne => hparked (hgrasped hactive hne)
    case h_7 => exact fun hactive => hparked (hgrasped hactive)

/-- **A `ping` keeps the agreement** if the job is recorded as what the signal makes of it. -/
theorem Standing.ping (h : s.Standing) {target : Target} {sig : Sig} (hplace : s.place = .prompt)
    (hfind : s.table.find target = some k) (hfit : s.Fitting (.ping target sig))
    (hhoused : Housed { s with children := s.children.signal k sig.act, pending := true }) :
    Standing { s with children := s.children.signal k sig.act, pending := true } := by
  have hhand : s.inHand = none := by simp [inHand, hplace]
  refine h.turn (k := k) hhoused (fun i hne hactive hi => ?_) (fun _ _ st hst => ?_) h.terminal ?_
  · exact ⟨hactive, hi, rfl, fun _ hall => hall.signal hne.symm⟩
  · refine Children.allIn_signal.mpr fun x hx hg => ?_
    by_cases hlive : ∀ normal, x.phase ≠ .zombie normal
    · have hsig := hfit k hfind x hx hg hlive
      rw [Option.some.inj (hst.symm.trans hsig)]
      exact sig.fits_act x.phase
    · obtain ⟨normal, hzombie⟩ := not_forall_not.mp hlive
      rw [Sig.act_eq_zombie.mpr hzombie]
      exact JobState.fits_zombie normal
  · simp only [Grasped, hplace]

/-- **…and only then.** -/
theorem fitting_of_shown {target : Target} {sig : Sig} (hfind : s.table.find target = some k)
    (h : Shown { s with children := s.children.signal k sig.act, pending := true }) :
    s.Fitting (.ping target sig) := by
  intro i hi x hx hg hlive
  obtain rfl : k = i := Option.some.inj (hfind.symm.trans hi)
  have hlive' : ∀ normal, sig.act x.phase ≠ .zombie normal :=
    fun normal hzombie => hlive normal (Sig.act_eq_zombie.mp hzombie)
  have hmem := List.mem_map_of_mem (f := fun x : Child ℕ =>
    if x.pgid = k then { x with phase := sig.act x.phase } else x) hx
  rw [if_pos hg] at hmem
  refine (h k (JobTable.activeAt_of_find hfind) _ hmem hg hlive' sig.state).mpr ?_
  exact (JobState.is_iff_of_fits (sig.fits_act x.phase) hlive').mpr rfl

/-- A wait sees a stop: by then all the processes have stopped. -/
theorem allIn_of_noticed {p : Pid} (hu : s.Uniform k) (hp : s.children.InGroup p k)
    (hphase : s.children.phase? p = some (.stopped false)) :
    (s.children.setPhase p (.stopped true)).AllIn k JobState.stopped.Fits := by
  obtain ⟨st, hall⟩ := hu
  have hst : st = .stopped := by
    have hfits := hall.apply hp hphase
    cases st with
    | running => exact hfits.elim
    | stopped => rfl
  exact (hst ▸ hall).setPhase fun _ => trivial

theorem Standing.fork (h : s.Standing) {p : Pid} (hplace : s.place = .fork)
    (hfresh : p ∉ s.children.pids ++ s.children.reaped) (hhoused : Housed { s with
      children := s.children.fork p s.slot hfresh, forked := s.forked ++ [p] }) :
    Standing { s with
      children := s.children.fork p s.slot hfresh, forked := s.forked ++ [p] } := by
  have hgrasped := h.grasped
  simp only [Grasped, hplace] at hgrasped
  have hplaced := h.housed.placed
  simp only [Placed, hplace] at hplaced
  refine ⟨hhoused, fun k hactive hne st hst => ?_, h.terminal, ?_⟩
  · have hlt := JobTable.lt_of_activeAt hactive
    refine .fork (h := hfresh) (h.agrees k hactive hne st hst) fun hslot => absurd hlt ?_
    rw [← hslot, hplaced.1]
    exact Nat.lt_irrefl _
  · simp only [Grasped, hplace]
    exact .fork (h := hfresh) hgrasped fun _ => trivial

/-- A child that has terminated is waited for. -/
theorem wanes_reap {p : Pid} (hp : p ∈ s.children.pids)
    (hchildren : s'.children = s.children.reap p hp)
    (hactive : ∀ k, s'.table.activeAt k = true → s.table.activeAt k = true)
    (hstate : ∀ k, s'.table.stateAt k = s.table.stateAt k) : Wanes s s' := by
  refine ⟨fun k st hall => ?_, fun k hg => ?_, fun k => ?_, hactive, hstate⟩
  · exact hchildren ▸ hall.reap
  · rw [hchildren] at hg
    exact Children.hasGroup_reap hg
  · rw [hchildren]
    exact Children.length_members_mono fun _ hq => (Children.inGroup_reap.mp hq).1

/-- **`run_foreground` sees its job stop.** -/
theorem Standing.noticeStop (h : s.Standing) {p : Pid} {remaining : ℕ} {table : JobTable}
    (hplace : s.place = .wait (remaining + 1))
    (hphase : s.children.phase? p = some (.stopped false)) (hp : s.children.InGroup p s.slot)
    (hhoused : Housed { s with
      children := s.children.setPhase p (.stopped true), table, place := .giveBack true })
    (htable : table.jobs = ((s.job.map fun k => s.table.setState k .stopped).getD s.table).jobs) :
    Standing { s with
      children := s.children.setPhase p (.stopped true), table, place := .giveBack true } := by
  have hgrasped := h.grasped
  simp only [Grasped, hplace] at hgrasped
  have hplaced := h.housed.placed
  simp only [Placed, hplace] at hplaced
  have hterm := h.terminal
  simp only [holder, hplace] at hterm
  have hhand : s.inHand = some s.slot := by simp [inHand, hplace]
  rcases hplaced.2 with hjob | ⟨hjob, hinactive⟩ <;> rw [hjob] at htable
  · refine h.turn (k := s.slot) hhoused (fun i hne hactive _ => ?_) (fun _ hne => absurd rfl hne)
      hterm fun hactive => .inl ⟨?_, ?_⟩
    · obtain ⟨hactive, hhand, hstate⟩ := others_setState hhand htable i hne hactive
      refine ⟨hactive, hhand, hstate, fun _ hall => hall.setPhase fun hi => ?_⟩
      exact absurd (hi.unique hp) hne
    · refine allIn_of_noticed (hgrasped ?_) hp hphase
      change table.activeAt s.slot = true at hactive
      rw [JobTable.activeAt, htable] at hactive
      exact (JobTable.activeAt_setState .stopped).symm.trans hactive
    · change table.stateAt s.slot = _
      rw [JobTable.stateAt, htable]
      exact JobTable.stateAt_setState .stopped hplaced.1
  · have hactive : table.activeAt = s.table.activeAt := by
      funext i
      rw [JobTable.activeAt, htable]
      rfl
    refine h.turn (k := s.slot) hhoused (fun i hne hi _ => ?_) (fun _ hne => absurd rfl hne)
      hterm fun hi => ?_
    · change table.activeAt i = true at hi
      refine ⟨hactive ▸ hi, ?_, ?_, fun _ hall => hall.setPhase fun hi => ?_⟩
      · rw [hhand, ne_eq, Option.some_inj]
        exact hne.symm
      · change table.stateAt i = _
        rw [JobTable.stateAt, htable]
        rfl
      · exact absurd (hi.unique hp) hne
    · change table.activeAt s.slot = true at hi
      rw [hactive, hinactive] at hi
      cases hi

/-- **`resume` sees its job stop.** -/
theorem Standing.noticeStopResumed (h : s.Standing) {p : Pid} {timeout remaining : ℕ}
    (hplace : s.place = .await k timeout (remaining + 1))
    (hphase : s.children.phase? p = some (.stopped false)) (hp : s.children.InGroup p k)
    (hhoused : Housed { s with
      children := s.children.setPhase p (.stopped true)
      table := s.table.setState k .stopped
      place := .settle k timeout (remaining + 1) }) :
    Standing { s with
      children := s.children.setPhase p (.stopped true)
      table := s.table.setState k .stopped
      place := .settle k timeout (remaining + 1) } := by
  have hgrasped := h.grasped
  simp only [Grasped, hplace] at hgrasped
  have hterm := h.terminal
  simp only [holder, hplace] at hterm
  refine h.turn (k := k) hhoused (fun i hne hactive _ => ?_) (fun _ hne => absurd rfl hne) hterm
    fun hactive _ => .inl ⟨allIn_of_noticed hgrasped.1 hp hphase, ?_⟩
  · obtain ⟨hactive, hhand, hstate⟩ :=
      others_setState (by simp [inHand, hplace]) rfl i hne hactive
    exact ⟨hactive, hhand, hstate, fun _ hall => hall.setPhase fun hi => absurd (hi.unique hp) hne⟩
  · have hlt := JobTable.lt_of_activeAt hactive
    rw [JobTable.length_jobs_setState] at hlt
    exact JobTable.stateAt_setState .stopped hlt

/-- **Every step keeps the standing**, a `ping` if it fits. -/
theorem standing_step (h : s.Standing) (hfit : s.Fitting e) (hstep : s.step e = some s') :
    s'.Standing := by
  have hhoused := housed_step h.housed hstep
  have hgrasped := h.grasped
  have hterm := h.terminal
  rw [Grasped] at hgrasped
  rw [holder] at hterm
  cases moves_of_step hstep with
  | main hmain => exact standing_main h hmain
  | idle => exact h
  | @launch names command background hplace =>
    simp only [hplace] at hterm
    have hactive : ∀ k, (if background then s.table else
        { s.table with fgRunning := true } : JobTable).activeAt k = s.table.activeAt k := by
      cases background <;> exact fun _ => rfl
    have hstate : ∀ k, (if background then s.table else
        { s.table with fgRunning := true } : JobTable).stateAt k = s.table.stateAt k := by
      cases background <;> exact fun _ => rfl
    refine ⟨hhoused, fun k hk _ st hst => ?_, hterm, fun x hx hg => ?_⟩
    · refine h.agrees k (hactive k ▸ hk) (by simp [inHand, hplace]) st (hstate k ▸ hst)
    · have hlt := h.housed.groups x.pid x.pgid ⟨x, hx, rfl, rfl⟩
      simp only [bound, hplace] at hlt
      exact absurd hlt (Nat.not_lt.mpr (Nat.le_of_eq hg.symm))
  | resume hplace =>
    simp only [hplace] at hterm
    exact h.wane hhoused (.of_eq rfl rfl) (by simp [inHand, hplace]) hterm trivial
  | ping hplace hfind => exact h.ping hplace hfind hfit hhoused
  | ctrlZ hheld => exact h.ctrlZ hheld hhoused
  | fork hplace hlt hfresh => exact h.fork hplace hfresh hhoused
  | exits =>
    refine h.stay hhoused ⟨fun k st hall => ?_, fun k hg => ?_, fun k => ?_, fun _ => id,
      fun _ => rfl⟩ rfl rfl rfl
    · exact hall.setPhase fun _ => JobState.fits_zombie _
    · exact Children.hasGroup_setPhase.mp hg
    · exact Children.length_members_mono fun _ hq => (Children.inGroup_setPhase _).mp hq
  | signal | handled => exact h.stay hhoused (.of_eq rfl rfl) rfl rfl rfl
  | reaps _ hp =>
    exact h.stay hhoused (wanes_reap hp rfl (fun _ => JobTable.activeAt_of_reapFinished)
      fun _ => JobTable.stateAt_reapFinished) rfl rfl rfl
  | @collect p remaining hplace hp =>
    simp only [hplace] at hgrasped hterm
    have hw : Wanes s { s with
        children := s.children.reap p hp.mem_pids, place := .wait remaining } :=
      wanes_reap hp.mem_pids rfl (fun _ => id) fun _ => rfl
    exact h.wane hhoused hw (by simp [inHand, hplace]) hterm fun hactive =>
      hw.uniform (hgrasped hactive)
  | @collectResumed p k timeout remaining hplace hp =>
    simp only [hplace] at hgrasped hterm
    have hw : Wanes s { s with
        children := s.children.reap p hp.mem_pids, place := .await k timeout remaining } :=
      wanes_reap hp.mem_pids rfl (fun _ => id) fun _ => rfl
    refine h.wane hhoused hw (by simp [inHand, hplace]) hterm
      ⟨hw.uniform hgrasped.1, fun hactive => ?_⟩
    have hle := hgrasped.2 hactive
    have hlt := Children.length_members_reap (h := hp.mem_pids) hp
    exact Nat.le_of_succ_le_succ (Nat.le_trans hlt hle)
  | noticeStop hplace hphase hp => exact h.noticeStop hplace hphase hp hhoused rfl
  | noticeStopResumed hplace hphase hp => exact h.noticeStopResumed hplace hphase hp hhoused
  | noChild hplace =>
    simp only [hplace] at hterm
    exact h.wane hhoused (.of_eq rfl rfl) (by simp [inHand, hplace]) hterm trivial
  | noChildResumed hplace hnone =>
    simp only [hplace] at hterm
    exact h.wane hhoused (.of_eq rfl rfl) (by simp [inHand, hplace]) hterm fun _ _ => .inr hnone
  | timeout hplace =>
    rcases hplace with hplace | hplace <;> simp only [hplace] at hterm
    · exact h.wane hhoused (.of_eq rfl rfl) (by simp [inHand, hplace]) hterm trivial
    · exact h.wane hhoused (.of_eq rfl rfl) (by simp [inHand, hplace]) hterm trivial

/-! ## Over a whole session -/

/-- A prompt shows the state of every job. -/
def Prompts (s : Console) : Prop := s.place = .prompt → s.Shown

/-- **At every prompt of a session every active job is recorded as what its processes do** exactly
if every `ping` that stops or continues a job finds it recorded so. -/
theorem shown_iff {ls : List Event} (h : run step initial ls = some s) :
    Always step Prompts initial ls ↔ Along step Fitting initial ls := by
  refine always_iff (fun _ h => h.shown) (fun _ _ _ h hfit => standing_step h hfit) ?_
    standing_initial h
  intro s e s' h hstep hshown
  cases moves_of_step hstep with
  | ping hplace hfind => exact fitting_of_shown hfind (hshown hplace)
  | @idle e he =>
    cases e with
    | ping target sig => exact fun k hk => nomatch (he : _ = none).symm.trans hk
    | resume | ctrlZ => trivial
    | _ => exact he.elim
  | _ => trivial

/-- `a`, Ctrl-Z, `ping %1 19` and `resume %1 bg`. -/
theorem shown_iff_stopped :
    ∃ s, run step initial
        ([Event.launch [['a']] ['a'] false, .fork 10] ++ List.replicate 5 Event.main ++
          [Event.ctrlZ, .noticeStop 10] ++ List.replicate 4 Event.main ++
          [Event.ping (.job 1) .stop, .resume 1 .bg, .main, .main]) = some s ∧
      s.place = .prompt ∧ s.table.activeAt 0 = true ∧ s.children.phase? 10 = some .running ∧
      Always step Prompts initial
        ([Event.launch [['a']] ['a'] false, .fork 10] ++ List.replicate 5 Event.main ++
          [Event.ctrlZ, .noticeStop 10] ++ List.replicate 4 Event.main ++
          [Event.ping (.job 1) .stop, .resume 1 .bg, .main, .main]) := by
  obtain ⟨s, hs, hplace, hactive, hphase⟩ :
      ∃ s ∈ run step initial
          ([Event.launch [['a']] ['a'] false, .fork 10] ++ List.replicate 5 Event.main ++
            [Event.ctrlZ, .noticeStop 10] ++ List.replicate 4 Event.main ++
            [Event.ping (.job 1) .stop, .resume 1 .bg, .main, .main]),
        s.place = .prompt ∧ s.table.activeAt 0 = true ∧
          s.children.phase? 10 = some .running := by decide +kernel
  exact ⟨s, hs, hplace, hactive, hphase, (shown_iff hs).mpr (by decide +kernel)⟩

/-- **`a &`, then `ping %1 19`**: the job has stopped, and is recorded as running. -/
theorem not_shown :
    ∃ s, run step initial
        ([Event.launch [['a']] ['a'] true, .fork 10] ++ List.replicate 4 Event.main ++
          [Event.ping (.job 1) .stop]) = some s ∧ s.place = .prompt ∧ ¬ s.Shown := by
  obtain ⟨s, hs, hplace, hactive, hstate, hp, hphase⟩ :
      ∃ s ∈ run step initial
          ([Event.launch [['a']] ['a'] true, .fork 10] ++ List.replicate 4 Event.main ++
            [Event.ping (.job 1) .stop]),
        s.place = .prompt ∧ s.table.activeAt 0 = true ∧ s.table.stateAt 0 = some .running ∧
          s.children.InGroup 10 0 ∧ s.children.phase? 10 = some (.stopped false) := by
    decide +kernel
  refine ⟨s, hs, hplace, fun hshown => ?_⟩
  have hall := shown_iff_agrees.mp hshown 0 hactive .running hstate
  exact hall.apply hp hphase

end Console

end MiniProject.Shell
