import Mathlib.Logic.Function.Basic
import MiniProject.Shell.Names
import MiniProject.Shell.Reaping

/-!
# Shell/Announced — the line of a background job

    fork ⇄ join → fill → activate → announce → openGate → detached

`run_background` forks all stages and registers them before it prints `[job_number] pid`, and only
then it lets stage 0 through the gate.  The other stages do not know of the gate: what holds them
back is their input, which comes from stage 0 in the end.  So nothing is seen of a job before its
line exactly if each of them reads before it writes or terminates (`announced_iff`).

A stage moves by itself here: that somebody else kills it is left out.
-/

namespace MiniProject.Shell

/-! ## The shell up to the line -/

namespace Ctl

variable {s s' : Ctl} {l : Label}

/-- The places up to the line. -/
def early : List Pc := [.fork, .join, .fill, .activate, .announce]

/-- The places behind it. -/
def late : List Pc := [.openGate, .detached]

theorem Quiet.eq_announce {pc pc' : Pc} (h : Quiet s pc pc') (hpc : pc ∈ early) :
    pc = .announce ∧ pc' = .openGate := by
  cases h with
  | announce => exact ⟨rfl, rfl⟩
  | takeTerminal | done | noChild | giveBack | keep | clearFg | flush | openGate =>
    simp [early] at hpc

theorem wait_of_noChild (h : s.step .noChild = some s') : ∃ remaining, s.pc = .wait remaining := by
  have h := (Option.ite_none_left_eq_some.mp h).2
  rw [noChild] at h
  split at h
  · rename_i hpc _
    exact ⟨_, hpc⟩
  · cases h

/-- The slot is known from the start. -/
theorem slot_step (hI : s.Inv) (h : s.step l = some s') : s'.slot = s.slot := by
  cases moves_of_step h with
  | fill hpc => exact (hI.at hpc).1
  | quiet _ _ _ _ _ _ hslot => exact hslot.1
  | fork | join | ready | overrun | activate | lookup | deactivate | collect | noticeStop | joins |
    exits | stops | continues | signal | reaps | handled => rfl

theorem request_step (h : s.step l = some s') : s'.request = s.request := by
  cases moves_of_step h with
  | quiet _ _ _ _ _ _ _ hrequest => exact hrequest
  | fork | join | ready | overrun | fill | activate | lookup | deactivate | collect | noticeStop |
    joins | exits | stops | continues | signal | reaps | handled => rfl

/-- **Up to the line the shell goes from one place to the next**, if `register_job` writes inside
its arrays. -/
theorem place_step (hI : s.Inv) (hearly : s.pc ∈ early) (hbg : s.request.background = true)
    (hfits : s.Noted .main) (h : s.step l = some s') :
    (s'.pc ∈ early ∧ (l = .main → s.pc ≠ .announce)) ∨
      (l = .main ∧ s.pc = .announce ∧ s'.pc = .openGate) := by
  cases moves_of_step h with
  | fork => exact .inl ⟨by simp [early], nofun⟩
  | join hpc | ready hpc | fill hpc => exact .inl ⟨by simp [early], fun _ => by simp [hpc]⟩
  | overrun hpc hfill =>
    obtain ⟨t, ht⟩ := (fillSlot_iff hI hpc).mpr hfits
    rw [hfill] at ht
    exact nomatch ht
  | activate hpc =>
    refine .inl ⟨?_, fun _ => by simp [hpc]⟩
    dsimp only
    rw [if_pos hbg]
    simp [early]
  | lookup hpc | deactivate hpc | collect hpc | noticeStop hpc =>
    rw [hpc] at hearly
    simp [early] at hearly
  | quiet hl hpc =>
    obtain ⟨hpc, hpc'⟩ := hpc.eq_announce hearly
    rcases hl with rfl | rfl
    · exact .inr ⟨rfl, hpc, hpc'⟩
    · obtain ⟨remaining, hwait⟩ := wait_of_noChild h
      rw [hwait] at hpc
      exact nomatch hpc
  | joins | exits | stops | continues | signal | reaps | handled => exact .inl ⟨hearly, nofun⟩

/-- No more stages than there are commands. -/
theorem length_forked_le (hI : s.Inv) (hearly : s.pc ∈ early) :
    s.forked.length ≤ s.request.names.length := by
  have hat := hI.atProgress
  simp only [early, List.mem_cons, List.not_mem_nil, or_false] at hearly
  rcases hearly with hpc | hpc | hpc | hpc | hpc <;> rw [hpc] at hat
  · exact hat.2
  · exact hat.2
  · exact Nat.le_of_eq hat.2
  · exact Nat.le_of_eq hat.2.1
  · exact Nat.le_of_eq hat.2.1

/-- Before the job is registered nobody finds a stage. -/
theorem Inv.find_eq_none (hI : s.Inv) (hlen : s.table.jobs.length = s.slot) {p : Pid}
    (hp : p ∈ s.forked) : s.table.findJobContainingPid p = none := by
  refine JobTable.findJobContainingPid_eq_none.mpr fun k hans => ?_
  have hlt := JobTable.lt_of_activeAt hans.1
  exact hI.others k p (by omega) hans hp

/-- Behind it, it goes on to the end. -/
theorem place_step_of_late (hlate : s.pc ∈ late) (h : s.step l = some s') : s'.pc ∈ late := by
  cases moves_of_step h with
  | fork hpc | join hpc | ready hpc | overrun hpc | fill hpc | activate hpc =>
    simp [late, hpc] at hlate
  | lookup hpc | deactivate hpc | collect hpc | noticeStop hpc => simp [late, hpc] at hlate
  | quiet _ hpc =>
    simp only [late, List.mem_cons, List.not_mem_nil, or_false] at hlate
    generalize s'.pc = pc' at hpc ⊢
    rcases hlate with hlate | hlate <;> rw [hlate] at hpc <;> cases hpc
    simp [late]
  | joins | exits | stops | continues | signal | reaps | handled => exact hlate

/-- The gate stays shut. -/
theorem gateOpen_step (hearly : s.pc ∈ early) (h : s.step l = some s') :
    s'.gateOpen = s.gateOpen := by
  cases l with
  | main =>
    have h := (Option.ite_none_left_eq_some.mp h).2
    simp only [early, List.mem_cons, List.not_mem_nil, or_false] at hearly
    rcases hearly with hpc | hpc | hpc | hpc | hpc <;> simp only [main, hpc] at h
    · obtain ⟨-, ⟨⟩⟩ := Option.ite_none_left_eq_some.mp h
      rfl
    · obtain ⟨p, -, rfl⟩ := Option.map_eq_some_iff.mp h
      rfl
    · split at h <;> cases h <;> rfl
    · cases h
      rfl
    · cases h
      rfl
  | noChild =>
    obtain ⟨remaining, hwait⟩ := wait_of_noChild h
    rw [hwait] at hearly
    simp [early] at hearly
  | fork | collect | noticeStop | joins | exits | stops | continues | signal | reaps | handled =>
    cases moves_of_step h <;> first | rfl | (rename_i hl _ _ _ _ _ _ _ _; simp at hl)

/-- **A stage lives** as long as it does not terminate. -/
theorem living_step (hL : s.children.Living s.forked)
    (hexits : ∀ p normal, l = .exits p normal → p ∉ s.forked) (h : s.step l = some s') :
    s'.children.Living s'.forked := by
  cases moves_of_step h with
  | fork _ _ hfresh => exact hL.fork (h := hfresh.1)
  | join | joins => exact hL.setpgid
  | exits => exact hL.setPhase fun hp => absurd hp (hexits _ _ rfl)
  | stops | continues | noticeStop => exact hL.setPhase fun _ _ => nofun
  | collect _ _ hp => exact hL.reap (h := hp.mem_pids)
  | reaps hp => exact hL.reap (h := hp)
  | quiet _ _ hchildren _ hforked =>
    rw [hchildren, hforked]
    exact hL
  | ready | overrun | fill | activate | lookup | deactivate | signal | handled => exact hL

/-! ## Forking at a stretch -/

/-- There is a fresh pid. -/
theorem exists_fresh (s : Ctl) : ∃ p, s.Fresh p := by
  have hbound : ∀ ps : List Pid, ∃ p, ∀ q ∈ ps, q < p := by
    intro ps
    induction ps with
    | nil => exact ⟨0, fun _ hq => nomatch hq⟩
    | cons q ps ih =>
      obtain ⟨p, hp⟩ := ih
      refine ⟨max p (q + 1), List.forall_mem_cons.mpr ⟨?_, fun q' hq' => ?_⟩⟩
      · exact Nat.lt_of_lt_of_le (Nat.lt_succ_self q) (Nat.le_max_right _ _)
      · exact Nat.lt_of_lt_of_le (hp q' hq') (Nat.le_max_left _ _)
  obtain ⟨p, hp⟩ := hbound (s.children.pids ++ s.children.reaped ++
    s.children.unreaped.map Child.pgid ++ [s.shellPgid])
  refine ⟨p, fun hmem => ?_, fun ⟨x, hx, hpgid⟩ => ?_, fun heq => ?_⟩
  · exact Nat.lt_irrefl p (hp p (List.mem_append_left _ (List.mem_append_left _ hmem)))
  · refine Nat.lt_irrefl p (hp p (List.mem_append_left _ (List.mem_append_right _ ?_)))
    exact List.mem_map.mpr ⟨x, hx, hpgid⟩
  · refine Nat.lt_irrefl p (hp p (List.mem_append_right _ ?_))
    exact List.mem_singleton.mpr heq

/-- `m` stages have been forked, and all of them run. -/
structure Forked (s : Ctl) (m : ℕ) : Prop where
  place : s.pc = .fork
  free : s.handling = false
  length : s.forked.length = m
  running : ∀ p ∈ s.forked, s.children.phase? p = some .running
  quiet : s.table.fgRunning = false

theorem step_main (hfree : s.handling = false) : s.step .main = s.main := by
  rw [step, if_neg (by simp [hfree])]

theorem main_join (hpc : s.pc = .join) {p : Pid} (hp : s.forked.getLast? = some p) :
    s.main = some { s with
      children := s.children.setpgid p (s.group.getD p)
      group := if s.forked.length = 1 then some p else s.group
      pc := .fork } := by
  simp only [main, hpc, hp, Option.map_some]

theorem main_fork (hpc : s.pc = .fork) (hlen : s.request.names.length ≤ s.forked.length) :
    s.main = some { s with pc := .fill } := by
  simp only [main, hpc]
  exact if_neg (Nat.not_lt.mpr hlen)

theorem main_fill (hpc : s.pc = .fill) {t : JobTable}
    (h : s.table.fillSlot (s.group.getD 0) s.forked s.request.names s.command
      s.request.background = .ok t) :
    s.main = some { s with
      table := t, slot := s.table.jobs.length, num := s.table.nextJob, pc := .activate } := by
  simp only [main, hpc, h]

theorem main_activate (hpc : s.pc = .activate) (hbg : s.request.background = true) :
    s.main = some { s with table := s.table.setActive s.slot true, pc := .announce } := by
  simp only [main, hpc, hbg, if_true]

/-- One round of the loop. -/
theorem Forked.succ {m : ℕ} (h : s.Forked m) (hI : s.Inv) (hlt : m < s.request.names.length) :
    ∃ p c s', s.step (.fork p) = some c ∧ c.step .main = some s' ∧ s'.Forked (m + 1) := by
  obtain ⟨p, hp⟩ := s.exists_fresh
  have hfork : s.step (.fork p) = some { s with
      children := s.children.fork p s.shellPgid hp.1, forked := s.forked ++ [p], pc := .join } := by
    rw [step, if_neg (by simp [h.free]), fork, dif_pos ⟨h.place, h.length ▸ hlt, hp⟩]
  refine ⟨p, _, _, hfork, (step_main ?_).trans (main_join rfl List.getLast?_concat), ?_⟩
  · exact h.free
  refine ⟨rfl, h.free, by simp [h.length], fun q hq => ?_, h.quiet⟩
  rw [Children.phase?_setpgid]
  rcases List.mem_append.mp hq with hq | hq
  · have hne := (hI.forkedKnown q hq).ne_of_not_mem hp.1
    rw [Children.phase?_fork_of_ne (h := hp.1) hne]
    exact h.running q hq
  · obtain rfl := List.mem_singleton.mp hq
    exact Children.phase?_fork (h := hp.1)

end Ctl

/-! ## The stages -/

namespace Background

/-- What a stage does that others notice: it reads a byte of its input, writes one, or
terminates. -/
inductive Act
  | read | write | exit
  deriving DecidableEq, Repr

/-- What a program may do next, after what it has done. -/
abbrev Program := List Act → Act → Bool

/-- It may write or terminate without having read. -/
def Eager (prog : Program) : Prop := prog [] .write = true ∨ prog [] .exit = true

instance (prog : Program) : Decidable (Eager prog) := inferInstanceAs (Decidable (_ ∨ _))

/-- What is to be seen of a job: its line, a byte of stage `k`, the exit message of a process. -/
inductive Output
  | line
  | byte (k : ℕ)
  | message (p : Pid)
  deriving DecidableEq, Repr

/-- `run_background` at work, what each stage has done, and what has been seen. -/
structure State where
  ctl : Ctl
  acts : ℕ → List Act
  output : List Output

/-- A step of the shell, the handler or somebody else's child, or of stage `k`. -/
inductive Event
  | ctl (l : Label)
  | reads (k : ℕ)
  | writes (k : ℕ)
  | exits (k : ℕ) (normal : Bool)

/-- The pipeline has passed `prepare_output`. -/
def start (r : Request) (i : Idle) : State := ⟨.start r i, fun _ => [], []⟩

/-- What a step of the shell or of the handler writes: `printf`, and `write` in `queue_or_print`. -/
def seen (c : Ctl) : Label → List Output
  | .main => if c.pc = .announce then [.line] else []
  | .reaps p =>
    match c.children.phase? p with
    | some (.zombie normal) =>
      if p ∈ c.forked ∧ c.table.fgRunning = false ∧ (c.table.exitMessage p normal).isSome then
        [.message p]
      else []
    | _ => []
  | _ => []

section Step

variable (progs : ℕ → Program) (s : State)

/-- Stage `k` has been forked, and runs. -/
def Runs (k : ℕ) : Prop := s.ctl.forked[k]?.bind s.ctl.children.phase? = some .running

/-- The program of stage `k` may do this, and stage 0 has read the gate. -/
def Consents (k : ℕ) (a : Act) : Prop :=
  progs k (s.acts k) a = true ∧ (k = 0 → s.ctl.gateOpen = true)

/-- A `read` of stage `k` returns: there is a byte in its pipe, or the shell has closed its own ends
and nobody else may be left to write. -/
def Fed (k : ℕ) : Prop :=
  k = 0 ∨ (s.acts k).count .read < (s.acts (k - 1)).count .write ∨ s.ctl.pc = .detached

/-- A stage does what its program does; all else is free. -/
def Allows : Event → Prop
  | .reads k => Runs s k ∧ Consents progs s k .read ∧ Fed s k
  | .writes k => Runs s k ∧ Consents progs s k .write
  | .exits k _ => Runs s k ∧ Consents progs s k .exit
  | .ctl (.exits p _) => p ∉ s.ctl.forked
  | .ctl _ => True

instance (e : Event) : Decidable (Allows progs s e) := by
  unfold Allows Runs Consents Fed
  split <;> infer_instance

/-- Stage `k` has done this. -/
def act (k : ℕ) (a : Act) : State := { s with acts := Function.update s.acts k (s.acts k ++ [a]) }

/-- What a step does. -/
def perform : Event → Option State
  | .reads k => some (act s k .read)
  | .writes k => some { act s k .write with output := s.output ++ [.byte k] }
  | .exits k normal =>
    (s.ctl.forked[k]?.bind fun p => s.ctl.step (.exits p normal)).map fun ctl =>
      { act s k .exit with ctl }
  | .ctl l => (s.ctl.step l).map fun ctl => { s with ctl, output := s.output ++ seen s.ctl l }

/-- One step. -/
def step (e : Event) : Option State := if Allows progs s e then perform s e else none

end Step

/-- **The line comes first**: whatever has been seen, the line was seen before. -/
def Announced (s : State) : Prop := ∀ os o, os ++ [o] <+: s.output → o ≠ .line → .line ∈ os

/-- What a step can do. -/
inductive Moves (progs : ℕ → Program) (s : State) : Event → State → Prop
  | reads {k} (hruns : Runs s k) (hconsents : Consents progs s k .read) (hfed : Fed s k) :
    Moves progs s (.reads k) (act s k .read)
  | writes {k} (hruns : Runs s k) (hconsents : Consents progs s k .write) :
    Moves progs s (.writes k) { act s k .write with output := s.output ++ [.byte k] }
  | exits {k normal p c} (hruns : Runs s k) (hconsents : Consents progs s k .exit)
    (hp : s.ctl.forked[k]? = some p) (hstep : s.ctl.step (.exits p normal) = some c) :
    Moves progs s (.exits k normal) { act s k .exit with ctl := c }
  | ctl {l c} (hl : ∀ p normal, l = .exits p normal → p ∉ s.ctl.forked)
    (hstep : s.ctl.step l = some c) :
    Moves progs s (.ctl l) { s with ctl := c, output := s.output ++ seen s.ctl l }

variable {progs : ℕ → Program} {s s' : State} {e : Event} {r : Request} {i : Idle}

theorem moves_of_step (h : step progs s e = some s') : Moves progs s e s' := by
  obtain ⟨hallows, h⟩ := Option.ite_none_right_eq_some.mp h
  cases e with
  | reads k =>
    cases h
    exact .reads hallows.1 hallows.2.1 hallows.2.2
  | writes k =>
    cases h
    exact .writes hallows.1 hallows.2
  | exits k normal =>
    obtain ⟨c, hc, rfl⟩ := Option.map_eq_some_iff.mp h
    obtain ⟨p, hp, hstep⟩ := Option.bind_eq_some_iff.mp hc
    exact .exits hallows.1 hallows.2 hp hstep
  | ctl l =>
    obtain ⟨c, hstep, rfl⟩ := Option.map_eq_some_iff.mp h
    refine .ctl (fun p normal hl => ?_) hstep
    subst hl
    exact hallows

/-- The records hold, of this pipeline and its slot. -/
structure Sound (r : Request) (i : Idle) (s : State) : Prop where
  inv : s.ctl.Inv
  request : s.ctl.request = r
  slot : s.ctl.slot = i.table.jobs.length

theorem sound_start : Sound r i (start r i) := ⟨Ctl.inv_start r i, rfl, rfl⟩

/-- The shell and its children move as they do without programs. -/
theorem sound_step (hs : Sound r i s) (h : step progs s e = some s') : Sound r i s' := by
  cases moves_of_step h with
  | reads | writes => exact ⟨hs.inv, hs.request, hs.slot⟩
  | exits _ _ _ hstep | ctl _ hstep =>
    exact ⟨Ctl.inv_step hs.inv hstep, (Ctl.request_step hstep).trans hs.request,
      (Ctl.slot_step hs.inv hstep).trans hs.slot⟩

/-- `register_job` writes inside its arrays if it will. -/
theorem Sound.noted (hs : Sound r i s)
    (hfits : i.table.jobs.length < maxjobs ∧ r.names.length ≤ maxjobProcess) :
    s.ctl.Noted .main := by
  intro hpc
  obtain ⟨hjobs, hlen⟩ := hs.inv.at hpc
  rw [hjobs, hlen, hs.slot, hs.request]
  exact hfits

/-! ## The line comes first -/

theorem announced_of_nil (h : s.output = []) : Announced s := by
  intro os o hpre
  rw [h, List.prefix_nil] at hpre
  simp at hpre

/-- Behind the line there may be anything. -/
theorem Announced.append {os : List Output} (h : Announced s) (hline : .line ∈ s.output)
    (hout : s'.output = s.output ++ os) : Announced s' := by
  intro os' o hpre hne
  rw [hout] at hpre
  rcases List.prefix_or_prefix_of_prefix hpre (List.prefix_append _ os) with hpre | hpre
  · exact h os' o hpre hne
  · rcases List.prefix_concat_iff.mp hpre with heq | hpre
    · exact h os' o (heq ▸ List.prefix_refl _) hne
    · exact hpre.subset hline

/-- **Up to the line**: the gate is shut, no stage has done anything, none has terminated. -/
structure Silent (s : State) : Prop where
  place : s.ctl.pc ∈ Ctl.early
  gate : s.ctl.gateOpen = false
  living : s.ctl.children.Living s.ctl.forked
  acts : ∀ k, s.acts k = []
  output : s.output = []

/-- **…and behind it.** -/
structure Over (s : State) : Prop where
  place : s.ctl.pc ∈ Ctl.late
  line : .line ∈ s.output
  announced : Announced s

theorem Over.append {os : List Output} (h : Over s) (hplace : s'.ctl.pc ∈ Ctl.late)
    (hout : s'.output = s.output ++ os) : Over s' :=
  ⟨hplace, hout ▸ List.mem_append_left _ h.line, h.announced.append h.line hout⟩

theorem over_step (hO : Over s) (h : step progs s e = some s') : Over s' := by
  cases moves_of_step h with
  | reads => exact hO.append hO.place (List.append_nil _).symm
  | writes => exact hO.append hO.place rfl
  | exits _ _ _ hstep =>
    exact hO.append (Ctl.place_step_of_late hO.place hstep) (List.append_nil _).symm
  | ctl _ hstep => exact hO.append (Ctl.place_step_of_late hO.place hstep) rfl

/-- A stage behind the first that reads first does nothing else first, and stage 0 does nothing. -/
theorem Silent.not_consents (hS : Silent s) {k : ℕ} {a : Act} (ha : a ≠ .read)
    (hlazy : 0 < k → ¬ Eager (progs k)) : ¬ Consents progs s k a := by
  rintro ⟨hprog, hgate⟩
  rcases Nat.eq_zero_or_pos k with hk | hk
  · rw [hS.gate] at hgate
    exact nomatch hgate hk
  · rw [hS.acts k] at hprog
    cases a with
    | read => exact ha rfl
    | write => exact hlazy hk (.inl hprog)
    | exit => exact hlazy hk (.inr hprog)

/-- There is nothing to read. -/
theorem Silent.not_fed (hS : Silent s) {k : ℕ} (hconsents : Consents progs s k .read) :
    ¬ Fed s k := by
  rintro (hk | hlt | hpc)
  · have hgate := hconsents.2 hk
    rw [hS.gate] at hgate
    exact nomatch hgate
  · rw [hS.acts, hS.acts] at hlt
    exact Nat.lt_irrefl _ hlt
  · have hplace := hS.place
    simp [Ctl.early, hpc] at hplace

/-- The handler has nothing to say. -/
theorem Silent.seen_eq_nil (hS : Silent s) {l : Label} (hl : l = .main → s.ctl.pc ≠ .announce) :
    seen s.ctl l = [] := by
  cases l with
  | main => exact if_neg (hl rfl)
  | reaps p =>
    rw [seen]
    split
    · rename_i hphase
      exact if_neg fun h => hS.living.phase?_ne h.1 _ hphase
    · rfl
  | fork | collect | noticeStop | noChild | joins | exits | stops | continues | signal | handled =>
    rfl

/-- **Nothing is seen before the line.** -/
theorem silent_step (hI : s.ctl.Inv) (hbg : s.ctl.request.background = true)
    (hfits : s.ctl.Noted .main)
    (hlazy : ∀ k, 0 < k → k < s.ctl.request.names.length → ¬ Eager (progs k)) (hS : Silent s)
    (h : step progs s e = some s') : Silent s' ∨ Over s' := by
  have hlazy' : ∀ {k}, Runs s k → 0 < k → ¬ Eager (progs k) := by
    intro k hruns hk
    obtain ⟨p, hp, -⟩ := Option.bind_eq_some_iff.mp hruns
    have hlt := (List.getElem?_eq_some_iff.mp hp).1
    exact hlazy k hk (Nat.lt_of_lt_of_le hlt (Ctl.length_forked_le hI hS.place))
  cases moves_of_step h with
  | reads _ hconsents hfed => exact absurd hfed (hS.not_fed hconsents)
  | writes hruns hconsents | exits hruns hconsents =>
    exact absurd hconsents (hS.not_consents nofun (hlazy' hruns))
  | @ctl l c hl hstep =>
    rcases Ctl.place_step hI hS.place hbg hfits hstep with ⟨hplace, hpc⟩ | ⟨rfl, hpc, hpc'⟩
    · refine .inl ⟨hplace, (Ctl.gateOpen_step hS.place hstep).trans hS.gate,
        Ctl.living_step hS.living hl hstep, hS.acts, ?_⟩
      dsimp only
      rw [hS.output, List.nil_append, hS.seen_eq_nil hpc]
    · have hline : s.output ++ seen s.ctl .main = [.line] := by
        rw [hS.output, List.nil_append]
        exact if_pos hpc
      refine .inr ⟨?_, ?_, fun os o hpre hne => ?_⟩
      · simp [Ctl.late, hpc']
      · dsimp only
        rw [hline]
        exact List.mem_singleton_self _
      · dsimp only at hpre
        rw [hline] at hpre
        have hmem := hpre.subset (List.mem_append_right _ (List.mem_singleton_self o))
        exact absurd (List.mem_singleton.mp hmem) hne

/-! ## Runs -/

/-- A run leads there. -/
def Reaches (progs : ℕ → Program) (r : Request) (i : Idle) (s : State) : Prop :=
  ∃ es, run (step progs) (start r i) es = some s

theorem Reaches.step (h : Reaches progs r i s) (hstep : Background.step progs s e = some s') :
    Reaches progs r i s' := by
  obtain ⟨es, hrun⟩ := h
  refine ⟨es ++ [e], ?_⟩
  rw [run_concat, hrun, Option.bind_some, hstep]

theorem Reaches.sound (h : Reaches progs r i s) : Sound r i s := by
  obtain ⟨es, hrun⟩ := h
  exact invariant' (fun s e s' => sound_step) sound_start hrun

/-- **If no later stage is eager**, the line is there before all else, in every run. -/
theorem Reaches.silent_or_over (hbg : r.background = true)
    (hfits : i.table.jobs.length < maxjobs ∧ r.names.length ≤ maxjobProcess)
    (hlazy : ∀ k, 0 < k → k < r.names.length → ¬ Eager (progs k)) (h : Reaches progs r i s) :
    Silent s ∨ Over s := by
  have hstep : ∀ s e s', (Sound r i s ∧ (Silent s ∨ Over s)) →
      Background.step progs s e = some s' → Sound r i s' ∧ (Silent s' ∨ Over s') := by
    rintro s e s' ⟨hs, hS | hO⟩ hstep
    · refine ⟨sound_step hs hstep, ?_⟩
      exact silent_step hs.inv (hs.request ▸ hbg) (hs.noted hfits) (hs.request ▸ hlazy) hS hstep
    · exact ⟨sound_step hs hstep, .inr (over_step hO hstep)⟩
  obtain ⟨es, hrun⟩ := h
  refine (invariant' hstep ⟨sound_start, .inl ?_⟩ hrun).2
  have hplace : (start r i).ctl.pc ∈ Ctl.early := by simp [start, Ctl.start, Ctl.early]
  exact ⟨hplace, rfl, fun _ _ hp => (by cases hp), fun _ => rfl, rfl⟩

/-! ## An eager stage is seen -/

theorem not_announced {o : Output} (ho : o ≠ .line) (h : s.output = [o]) : ¬ Announced s := by
  intro hann
  exact nomatch hann [] o (h ▸ List.prefix_refl _) ho

theorem Reaches.ctl (h : Reaches progs r i s) {l : Label} {c : Ctl}
    (hl : ∀ p normal, l ≠ .exits p normal) (hstep : s.ctl.step l = some c) :
    Reaches progs r i { s with ctl := c, output := s.output ++ seen s.ctl l } := by
  have hallows : Allows progs s (.ctl l) := by
    cases l with
    | exits p normal => exact absurd rfl (hl p normal)
    | main | fork | collect | noticeStop | noChild | joins | stops | continues | signal | reaps |
      handled => trivial
  refine h.step (e := .ctl l) ?_
  rw [Background.step, if_pos hallows, perform, hstep, Option.map_some]

/-- …and if nothing is seen of the step. -/
theorem Reaches.main (h : Reaches progs r i s) {c : Ctl} (hfree : s.ctl.handling = false)
    (hpc : s.ctl.pc ≠ .announce) (hmain : s.ctl.main = some c) :
    Reaches progs r i { s with ctl := c } := by
  have hseen : seen s.ctl .main = [] := if_neg hpc
  have h' := h.ctl (l := .main) nofun ((Ctl.step_main hfree).trans hmain)
  rwa [hseen, List.append_nil] at h'

/-- The shell can fork all stages before any of them moves. -/
theorem exists_forked (hbg : r.background = true) (hfg : i.table.fgRunning = false) (m : ℕ)
    (hm : m ≤ r.names.length) :
    ∃ s, Reaches progs r i s ∧ s.ctl.Forked m ∧ (∀ k, s.acts k = []) ∧ s.output = [] := by
  induction m with
  | zero =>
    have hquiet : (start r i).ctl.table.fgRunning = false := by
      rw [start, Ctl.start]
      dsimp only
      rw [if_pos hbg]
      exact hfg
    exact ⟨start r i, ⟨[], rfl⟩, ⟨rfl, rfl, rfl, fun _ hp => (by cases hp), hquiet⟩, fun _ => rfl,
      rfl⟩
  | succ m ih =>
    obtain ⟨s, hs, hF, hacts, hout⟩ := ih (Nat.le_of_succ_le hm)
    have hsound := hs.sound
    obtain ⟨p, c, c', hfork, hmain, hF'⟩ := hF.succ hsound.inv (hsound.request ▸ hm)
    have hs' := (hs.ctl (l := .fork p) (by simp) hfork).ctl (l := .main) (by simp) hmain
    have hpc : c.pc = .join := by
      cases Ctl.moves_of_step hfork with
      | fork => rfl
      | quiet hl => simp at hl
    have hseen : seen c .main = [] := if_neg (by simp [hpc])
    refine ⟨_, hs', hF', hacts, ?_⟩
    dsimp only
    rw [hseen, hout]
    rfl

theorem Reaches.ready (h : Reaches progs r i s) (hF : s.ctl.Forked r.names.length) :
    Reaches progs r i { s with ctl := { s.ctl with pc := .fill } } := by
  have hlen : s.ctl.request.names.length = s.ctl.forked.length := by
    rw [h.sound.request, hF.length]
  exact h.main hF.free (by simp [hF.place]) (Ctl.main_fork hF.place (Nat.le_of_eq hlen))

/-- **…and register them**: the job is active then, so that the handler has a message for each of
its processes. -/
theorem Reaches.exists_registered (h : Reaches progs r i s) (hF : s.ctl.Forked r.names.length)
    (hbg : r.background = true)
    (hfits : i.table.jobs.length < maxjobs ∧ r.names.length ≤ maxjobProcess) :
    ∃ c, Reaches progs r i { s with ctl := c } ∧ c.forked = s.ctl.forked ∧
      c.children = s.ctl.children ∧ c.handling = false ∧ c.table.fgRunning = false ∧
      ∀ p ∈ c.forked, ∀ normal, (c.table.exitMessage p normal).isSome := by
  have hready := h.ready hF
  have hsound := hready.sound
  obtain ⟨t, hfill⟩ := (Ctl.fillSlot_iff hsound.inv rfl).mpr (hsound.noted hfits)
  have hfilled := hready.main hF.free nofun (Ctl.main_fill rfl hfill)
  have hbg' : s.ctl.request.background = true := h.sound.request ▸ hbg
  have hactive := hfilled.main hF.free nofun (Ctl.main_activate rfl hbg')
  refine ⟨_, hactive, rfl, rfl, hF.free, ?_, fun p hp normal => ?_⟩
  · exact (Console.fgRunning_fillSlot hfill).trans hF.quiet
  · have hjobs : s.ctl.table.jobs.length = s.ctl.slot := (h.sound.inv.at hF.place).1
    have hnew : ∀ p ∈ s.ctl.forked, s.ctl.table.findJobContainingPid p = none :=
      fun p hp => h.sound.inv.find_eq_none hjobs hp
    have hlen : s.ctl.request.names.length = s.ctl.forked.length := by
      rw [h.sound.request, hF.length]
    dsimp only at hfill
    rw [hbg'] at hfill
    have hholds := JobTable.holds_registerJob
      (JobTable.registerJob_eq_ok.mpr ⟨t, hfill, rfl, rfl⟩) hnew
    obtain ⟨x, hx, rfl⟩ := JobTable.exists_registered hlen hp
    obtain ⟨y, -, hmessage⟩ := hholds.exitMessage hx List.not_mem_nil
    dsimp only
    rw [hmessage x hx List.not_mem_nil normal]
    rfl

/-- **A byte before the line**, when a stage writes at once. -/
theorem Reaches.writes_first (h : Reaches progs r i s) {k : ℕ} (hk : 0 < k) (hruns : Runs s k)
    (hprog : progs k (s.acts k) .write = true) (hout : s.output = []) :
    ∃ s', Reaches progs r i s' ∧ ¬ Announced s' := by
  have hallows : Allows progs s (.writes k) := ⟨hruns, hprog, fun h0 => absurd h0 (Nat.ne_of_gt hk)⟩
  refine ⟨_, h.step (if_pos hallows), not_announced (o := .byte k) nofun ?_⟩
  rw [hout]
  rfl

/-- **An exit message before the line**, when a stage terminates at once. -/
theorem Reaches.exits_first (h : Reaches progs r i s) {k : ℕ} (hk : 0 < k) (hruns : Runs s k)
    (hprog : progs k (s.acts k) .exit = true) (hfree : s.ctl.handling = false)
    (hfg : s.ctl.table.fgRunning = false)
    (hmessage : ∀ p ∈ s.ctl.forked, ∀ normal, (s.ctl.table.exitMessage p normal).isSome)
    (hout : s.output = []) : ∃ s', Reaches progs r i s' ∧ ¬ Announced s' := by
  obtain ⟨p, hp, hrunning⟩ := Option.bind_eq_some_iff.mp hruns
  obtain ⟨x, hx, hpid, -⟩ := Children.exists_of_phase? hrunning
  have hpids : p ∈ s.ctl.children.pids := List.mem_map.mpr ⟨x, hx, hpid⟩
  have hexits : s.ctl.step (.exits p false) = some (s.ctl.shift p (.zombie false)) := by
    rw [Ctl.step, Ctl.exits, hrunning]
    rfl
  have hzombie : (s.ctl.children.setPhase p (.zombie false)).phase? p = some (.zombie false) :=
    Children.phase?_setPhase hpids
  have hpids' : p ∈ (s.ctl.children.setPhase p (.zombie false)).pids := by
    rw [Children.pids_setPhase]
    exact hpids
  have hallows : Allows progs s (.exits k false) :=
    ⟨hruns, hprog, fun h0 => absurd h0 (Nat.ne_of_gt hk)⟩
  have hexited := h.step (e := .exits k false) (by
    rw [Background.step, if_pos hallows, perform, hp, Option.bind_some, hexits]
    rfl)
  have hhandling := hexited.ctl (l := .signal) (by simp) (by
    rw [Ctl.step]
    exact if_pos ⟨rfl, by simp [Ctl.shift, hfree]⟩)
  have hreaped := hhandling.ctl (l := .reaps p) (by simp) (by
    rw [Ctl.step, if_pos rfl, Ctl.reaps]
    dsimp only [Ctl.shift]
    rw [hzombie]
    exact dif_pos hpids')
  refine ⟨_, hreaped, not_announced (o := .message p) (by simp) ?_⟩
  dsimp only [seen, Ctl.shift]
  rw [act, hout, hzombie]
  have hmem := List.mem_of_getElem? hp
  exact if_pos ⟨hmem, hfg, hmessage p hmem false⟩

/-- If nothing is written past an array, the job fits. -/
theorem Reaches.fits (h : Reaches progs r i s) (hF : s.ctl.Forked r.names.length)
    (hall : ∀ s, Reaches progs r i s → ∀ o, s.ctl.pc ≠ .fault o) :
    i.table.jobs.length < maxjobs ∧ r.names.length ≤ maxjobProcess := by
  have hready := h.ready hF
  have hsound := hready.sound
  cases hfill : s.ctl.table.fillSlot (s.ctl.group.getD 0) s.ctl.forked s.ctl.request.names
    s.ctl.command s.ctl.request.background with
  | error o =>
    refine absurd rfl (hall _ (hready.main hF.free nofun (c := { s.ctl with pc := .fault o }) ?_) o)
    dsimp only [Ctl.main, Ctl.command] at hfill ⊢
    rw [hfill]
  | ok t =>
    have hnoted := (Ctl.fillSlot_iff hsound.inv rfl).mp ⟨t, hfill⟩ rfl
    have hjobs : s.ctl.table.jobs.length = s.ctl.slot := (h.sound.inv.at hF.place).1
    dsimp only at hnoted
    rwa [hjobs, h.sound.slot, hF.length] at hnoted

/-- **The line comes before all else in every run** exactly if the job can be registered and no
stage behind the first may write or terminate without having read. -/
theorem announced_iff (hbg : r.background = true) (hfg : i.table.fgRunning = false) :
    (∀ s, Reaches progs r i s → Announced s ∧ ∀ o, s.ctl.pc ≠ .fault o) ↔
      (i.table.jobs.length < maxjobs ∧ r.names.length ≤ maxjobProcess) ∧
        ∀ k, 0 < k → k < r.names.length → ¬ Eager (progs k) := by
  constructor
  · intro hall
    obtain ⟨s, hs, hF, hacts, hout⟩ := exists_forked hbg hfg r.names.length (Nat.le_refl _)
    have hfits := hs.fits hF fun s hs => (hall s hs).2
    refine ⟨hfits, fun k hk hlt heager => ?_⟩
    have hlt' : k < s.ctl.forked.length := hF.length.symm ▸ hlt
    have hruns : Runs s k := by
      rw [Runs, List.getElem?_eq_getElem hlt']
      exact hF.running _ (List.getElem_mem hlt')
    rcases heager with hwrite | hexit
    · obtain ⟨s', hs', hnot⟩ := hs.writes_first hk hruns (by rw [hacts]; exact hwrite) hout
      exact hnot (hall s' hs').1
    · obtain ⟨c, hc, hforked, hchildren, hfree, hfg', hmessage⟩ :=
        hs.exists_registered hF hbg hfits
      have hruns' : Runs { s with ctl := c } k := by
        rw [Runs, hforked, hchildren]
        exact hruns
      obtain ⟨s', hs', hnot⟩ :=
        hc.exits_first hk hruns' (by rw [hacts]; exact hexit) hfree hfg' hmessage hout
      exact hnot (hall s' hs').1
  · rintro ⟨hfits, hlazy⟩ s hs
    rcases hs.silent_or_over hbg hfits hlazy with hS | hO
    · refine ⟨announced_of_nil hS.output, fun o hpc => ?_⟩
      have hplace := hS.place
      simp [Ctl.early, hpc] at hplace
    · refine ⟨hO.announced, fun o hpc => ?_⟩
      have hplace := hO.place
      simp [Ctl.late, hpc] at hplace

/-- `a | b &`, where `b` reads first, and `a` writes a byte behind the line. -/
theorem announced_iff_two :
    ∃ s, Reaches (fun _ h a => h.contains .read || a == .read) (.twoStages true) (.initial 1) s ∧
      s.output = [.line, .byte 0] ∧ Announced s := by
  have hreaches : ∃ s, Reaches (fun _ h a => h.contains .read || a == .read) (.twoStages true)
      (.initial 1) s ∧ s.output = [.line, .byte 0] :=
    ⟨_, ⟨[.ctl (.fork 10), .ctl .main, .ctl (.fork 11), .ctl .main, .ctl .main, .ctl .main,
      .ctl .main, .ctl .main, .ctl .main, .reads 0, .writes 0], rfl⟩, rfl⟩
  obtain ⟨s, hs, hout⟩ := hreaches
  exact ⟨s, hs, hout, ((announced_iff rfl rfl).mpr ⟨by decide, fun _ _ _ => by decide⟩ s hs).1⟩

/-- **`a | b &`, where `b` writes at once**, as in `sleep 5 | echo hi &`: it need not wait for the
second `fork` to return. -/
theorem not_announced_two :
    ∃ s, Reaches (fun k _ a => k == 1 && a == .write) (.twoStages true) (.initial 1) s ∧
      s.output = [.byte 1] ∧ ¬ Announced s := by
  refine ⟨_, ⟨[.ctl (.fork 10), .ctl .main, .ctl (.fork 11), .writes 1], rfl⟩, rfl, fun h => ?_⟩
  exact nomatch h [] (.byte 1) (List.prefix_refl _) nofun

end Background

end MiniProject.Shell
