import MiniProject.Shell.Delivery

/-!
# Shell/Flush — a foreground job that runs to completion

Its stages have written all they write when `run_foreground` is through its wait loop, so that
`flush_output` finds the whole output in the staging file: whatever its length, every target gets
all of it, and the copying comes to an end (`flush_delivers`).
-/

namespace MiniProject.Shell

/-- **The job runs to completion**: no stage writes any more when the shell begins to copy. -/
def Life.Completes (l : Life) : Event → Prop
  | .shell => True
  | .write _ _ => l.pc.BeforeFlush

instance (l : Life) (e : Event) : Decidable (l.Completes e) :=
  match e with
  | .shell => isTrue trivial
  | .write _ _ => inferInstanceAs (Decidable l.pc.BeforeFlush)

/-! ## The copying comes to an end -/

/-- What is left of the staging file behind its position, of the bytes written early. -/
def Life.unread (n : ℕ) (l : Life) : ℕ :=
  (l.early (n - 1)).length - ((l.sys.store.desc .outTmp).map Desc.pos).getD 0

/-- How many steps the shell has before it at most; a read that takes something is followed by a
write for each of the targets. -/
def Life.ahead (n : ℕ) (l : Life) : ℕ :=
  let round := l.job.fds.octx.realFds.length + 2
  match l.pc with
  | .forked => (l.early (n - 1)).length * round + 6
  | .waiting => (l.early (n - 1)).length * round + 5
  | .flushing .start => (l.early (n - 1)).length * round + 4
  | .flushing .read => l.unread n * round + 3
  | .flushing (.write _ rest) => l.unread n * round + rest.length + 4
  | .flushing .close => 2
  | .flushing .done => 1
  | .returned => 0

variable {os : List OutFile} {base : OutFile → List Byte} {n tfd : ℕ} {job : Started}
  {t : FdTable Handle} {l : Life}

/-- A read that takes something takes it off what is left. -/
theorem unread_read {early late data got : List Byte} {pos k : ℕ}
    (hstaged : Staged data pos early late got) (hne : (data.drop pos).take k ≠ []) :
    early.length - (pos + ((data.drop pos).take k).length) + 1 ≤ early.length - pos := by
  have hpos : 0 < ((data.drop pos).take k).length := List.length_pos_iff.mpr hne
  have hlt : pos < early.length := by
    by_contra hle
    rw [hstaged.drop_eq, List.drop_eq_nil_of_le (Nat.le_of_not_lt hle), List.take_nil] at hne
    exact hne rfl
  omega

/-- **Every step of `flush_output` brings its end nearer.** -/
theorem ahead_flushStep (h : Delivering os base n job t l) (hT : HasTargets os n tfd job)
    {p : FlushPc} (hpc : l.pc = .flushing p) (hp : p ≠ .done) :
    Life.ahead n { l with
      sys := (flushStep l.job.fds.octx p l.sys).2
      pc := .flushing (flushStep l.job.fds.octx p l.sys).1 } < l.ahead n := by
  obtain ⟨htfd, hfds⟩ := h.fds hT hpc hp
  obtain ⟨data, pos, written, sent, hdesc, hdata, htargets, hflow⟩ := h.flow
  rw [hpc] at hflow
  rw [h.job_eq, Life.ahead, Life.ahead, hpc, h.job_eq, flushStep, hT.tmpFd]
  cases p with
  | start =>
    dsimp only [Life.unread]
    rw [Sys.rewind_eq htfd]
    dsimp only
    rw [Store.desc_rewind_self hdesc]
    dsimp only [Option.map_some, Option.getD_some]
    rw [Nat.sub_zero]
    omega
  | read =>
    obtain ⟨got, hstaged, -⟩ := hflow
    have hbytes := Store.bytes_of_data hdata
    have hbuf := Store.read_fst hdesc bufSize
    have hself := Store.desc_read_self hdesc bufSize
    dsimp only at hbuf hself
    rw [hbytes] at hbuf
    dsimp only [Life.unread]
    rw [Sys.read_eq htfd]
    dsimp only
    by_cases hnil : (l.sys.store.read .outTmp bufSize).1 = []
    · rw [if_pos hnil]
      dsimp only
      omega
    · rw [if_neg hnil]
      have hless := unread_read hstaged (hbuf ▸ hnil)
      rw [← hbuf] at hless
      dsimp only
      rw [hself, hdesc]
      dsimp only [Option.map_some, Option.getD_some]
      have hround := Nat.mul_le_mul_right (job.fds.octx.realFds.length + 2) hless
      rw [Nat.add_mul, Nat.one_mul] at hround
      omega
  | write buf rest =>
    cases rest with
    | nil =>
      dsimp only [Life.unread, List.length_nil]
      omega
    | cons fd rest =>
      obtain ⟨got, m, -, hrest, -⟩ := hflow
      have hm : job.fds.octx.realFds[m]? = some fd := by
        rw [← List.head?_drop, ← hrest]
        rfl
      dsimp only [Life.unread]
      rw [Sys.write_eq (hfds m fd hm)]
      dsimp only
      rw [Store.desc_write_of_ne _ Handle.noConfusion, List.length_cons]
      omega
  | close =>
    dsimp only
    omega
  | done => exact absurd rfl hp

/-- A foreground life, with what it has of targets. -/
def Foreground (os : List OutFile) (base : OutFile → List Byte) (n : ℕ) (job : Started)
    (t : FdTable Handle) (l : Life) : Prop :=
  l.job = job ∧ job.background = false ∧ (job.fds.octx.tmpFd = none ∨
    ∃ tfd, HasTargets os n tfd job ∧ Delivering os base n job t l)

theorem Foreground.step {l' : Life} {e : Event} (h : Foreground os base n job t l)
    (hstep : l.step e = some l') : Foreground os base n job t l' := by
  obtain ⟨hjob, hbg, htmp⟩ := h
  refine ⟨(Life.moves_of_step hstep).job_eq.trans hjob, hbg, htmp.imp_right ?_⟩
  rintro ⟨tfd, hT, hdelivering⟩
  exact ⟨tfd, hT, delivering_step hT l e l' hdelivering hstep⟩

/-- The shell can always go on, and gets nearer to its return. -/
theorem Foreground.shell (h : Foreground os base n job t l) (hpc : l.pc ≠ .returned) :
    ∃ l', l.step .shell = some l' ∧ Foreground os base n job t l' ∧ l'.ahead n < l.ahead n := by
  have hnext {l' : Life} (hstep : l.step .shell = some l') (hlt : l'.ahead n < l.ahead n) :
      ∃ l', l.step .shell = some l' ∧ Foreground os base n job t l' ∧ l'.ahead n < l.ahead n :=
    ⟨l', hstep, h.step hstep, hlt⟩
  obtain ⟨hjob, hbg, htmp⟩ := h
  rw [← hjob] at hbg
  match heq : l.pc with
  | .forked =>
    refine hnext (by rw [Life.step, heq]) ?_
    rw [Life.ahead, Life.ahead, heq]
    dsimp only
    omega
  | .waiting =>
    refine hnext (by rw [Life.step, heq, hbg]; rfl) ?_
    rw [Life.ahead, Life.ahead, heq]
    dsimp only
    omega
  | .flushing p =>
    by_cases hp : p = .done
    · subst hp
      refine hnext (by rw [Life.step, heq]) ?_
      rw [Life.ahead, Life.ahead, heq]
      exact Nat.one_pos
    · have hstep : l.step .shell = some { l with
          sys := (flushStep l.job.fds.octx p l.sys).2
          pc := .flushing (flushStep l.job.fds.octx p l.sys).1 } := by
        rw [Life.step, heq]
        cases p with
        | done => exact absurd rfl hp
        | start | read | write | close => rfl
      refine hnext hstep ?_
      rcases htmp with hnone | ⟨tfd, hT, hdelivering⟩
      · rw [← hjob] at hnone
        rw [Life.ahead, Life.ahead, heq, flushStep, hnone]
        cases p with
        | done => exact absurd rfl hp
        | start | read | write | close =>
          dsimp only
          omega
      · exact ahead_flushStep hdelivering hT heq hp
  | .returned => exact absurd heq hpc

/-! ## What the targets get -/

section Launch

variable {env : Env} {pipeline : List Commands} {s s' : Sys} {events : List Event}

theorem foreground_run (hs : AtPrompt s) (h : launch env false pipeline s = (.started job, s'))
    (hrun : run Life.step (.init job s') events = some l) :
    Foreground (pipeline.getLastD {}).outFiles (baseBytes s.store) pipeline.length job s.fds l := by
  refine invariant' (fun _ _ _ => Foreground.step) ⟨rfl, ?_, ?_⟩ hrun
  · obtain ⟨_, _, _, _, _, -, -, hforked⟩ := launchTaking_started h
    exact hforked.background_eq
  · by_cases hne : (pipeline.getLastD {}).outFiles = []
    · obtain ⟨store, -, hout⟩ := launchTaking_staged hs h
      exact .inl (hout.none_iff.mpr hne)
    · obtain ⟨tfd, hT⟩ := launch_hasTargets hs hne h
      exact .inr ⟨tfd, hT, launch_delivering hs hne h⟩

/-- Nothing written before the copying misses the targets. -/
theorem noneMissed_of_completes (hbg : job.background = false) (hrun : run Life.step (.init job s')
    events = some l) (hall : Along Life.step Life.Completes (.init job s') events) :
    NoneMissed n l := by
  refine (invariant (I := fun l => l.job.background = false ∧ NoneMissed n l)
    (fun l e l' hl he hstep => ?_) ⟨hbg, fun _ => rfl, rfl⟩ hall hrun).2
  refine ⟨by rw [(Life.moves_of_step hstep).job_eq]; exact hl.1, ?_⟩
  refine (noneMissed_step n l e l' hstep).mpr ⟨hl.2, ?_⟩
  cases e with
  | shell => trivial
  | write i bs => exact fun _ => .inr ⟨hl.1, he⟩

/-- **A foreground job that runs to completion**: once the shell has returned, every `>` target
holds exactly what the last stage wrote, and every `>>` target its old content and exactly that; the
shell does return; and if a target cannot be opened, nothing is started. -/
theorem flush_delivers (hs : AtPrompt s)
    (hnodup : ((pipeline.getLastD {}).outFiles.map OutFile.file).Nodup) :
    (∀ job s' events l, launch env false pipeline s = (.started job, s') →
      run Life.step (.init job s') events = some l →
      Along Life.step Life.Completes (.init job s') events →
        (l.pc = .returned → ∀ o ∈ (pipeline.getLastD {}).outFiles,
          l.sys.store.data (.path o.file) = some
            ((if o.append then s.store.bytes (.path o.file) else []) ++
              l.written (pipeline.length - 1))) ∧
        ∃ k l', run Life.step l (List.replicate k .shell) = some l' ∧ l'.pc = .returned) ∧
    ((∃ o ∈ (pipeline.getLastD {}).outFiles, env.writable o.file = false) →
      (launch env false pipeline s).1 = .refused) := by
  refine ⟨fun job s' events l h hrun hall => ⟨fun hret o ho => ?_, ?_⟩, fun ⟨o, ho, hw⟩ => ?_⟩
  · have hne : (pipeline.getLastD {}).outFiles ≠ [] := List.ne_nil_of_mem ho
    obtain ⟨tfd, hT⟩ := launch_hasTargets hs hne h
    obtain ⟨-, hbg, -⟩ := foreground_run hs h hrun
    have hdelivering := delivering_run hs hne h hrun
    exact (hdelivering.delivered_iff hT hne hnodup hret).mpr
      (noneMissed_of_completes hbg hrun hall) o ho
  · exact exists_run_replicate (fun _ hl hpc => hl.shell hpc) (foreground_run hs h hrun)
  · have hnot : ¬ Ready env false pipeline s.store := fun hready => by
      cases hw.symm.trans (hready.output.1 o ho)
    rcases hlaunch : launch env false pipeline s with ⟨_ | argv | job, s'⟩
    · rfl
    · obtain ⟨-, hshell⟩ := launchTaking_builtin hlaunch
      have hmem : pipeline.getLastD {} ∈ pipeline := by
        rcases pipeline with _ | ⟨c, cs⟩
        · cases hshell
        · rw [List.getLastD_cons]
          exact List.getLastD_mem_cons
      rw [(files_of_runsInShell hshell hmem).2] at ho
      cases ho
    · exact absurd ((launch_started_iff hs).mp ⟨job, s', hlaunch⟩) hnot

/-- `a > f >> g`, which writes two bytes; `g` had one. -/
theorem flush_delivers_two :
    let s := Sys.prompt fun f => if f = ['g'] then some [7] else none
    let pipeline : List Commands := [⟨[['a']], [], [⟨['f'], false⟩, ⟨['g'], true⟩]⟩]
    ∃ l, Life.ofLaunch .obliging false pipeline s
        ([.shell, .write 0 [120, 121]] ++ List.replicate 9 .shell) = some l ∧
      l.sys.store.data (.path ['f']) = some [120, 121] ∧
      l.sys.store.data (.path ['g']) = some [7, 120, 121] := by
  intro s pipeline
  have hreturned : (Life.ofLaunch .obliging false pipeline s
      ([.shell, .write 0 [120, 121]] ++ List.replicate 9 .shell)).map
        (fun l => (l.pc, l.written 0)) = some (.returned, [120, 121]) := by
    decide
  obtain ⟨l, hl, hpc⟩ := Option.map_eq_some_iff.mp hreturned
  obtain ⟨hpc, hwritten⟩ := Prod.mk.inj hpc
  obtain ⟨job, s', hlaunch, hrun⟩ := Life.ofLaunch_eq_some hl
  have hshell : ∀ (k : ℕ) (l : Life),
      Along Life.step Life.Completes l (List.replicate k .shell) := by
    intro k
    induction k with
    | zero => exact fun _ => trivial
    | succ k ih => exact fun l => ⟨trivial, fun l' _ => ih l'⟩
  have hdelivers := @flush_delivers .obliging pipeline s (atPrompt_prompt _) (by decide)
  have htargets := (hdelivers.1 job s' _ l hlaunch hrun
      ⟨trivial, fun l₁ h₁ => ⟨by cases h₁; trivial, fun l₂ _ => hshell 9 l₂⟩⟩).1 hpc
  refine ⟨l, hl, ?_, ?_⟩
  · rw [htargets ⟨['f'], false⟩ (by decide)]
    exact congrArg some hwritten
  · rw [htargets ⟨['g'], true⟩ (by decide)]
    exact congrArg (fun bs => some ([7] ++ bs)) hwritten

end Launch

end MiniProject.Shell
