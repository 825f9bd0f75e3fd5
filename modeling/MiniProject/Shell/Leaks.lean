import MiniProject.Shell.Life

/-!
# Shell/Leaks — every descriptor a pipeline needs, and no other

All pipes exist before the first `fork`, so a child is born with every end of every pipe, the
staging files, the targets and the gate.  The launch grows the shell's table by a known list
(`Fds.new`); a child closes that whole list, having moved at most two of its members to 0 and 1
(`kid_get`), and the shell closes it in two halves, before it waits and before it returns.
-/

namespace MiniProject.Shell

/-! ## What the launch opens -/

/-- The staged input. -/
def InFd.new : InFd → List (ℕ × Handle)
  | .fd d => [(d, .inTmp)]
  | _ => []

/-- The targets and the staged output. -/
def OutCtx.new (octx : OutCtx) : List (ℕ × Handle) :=
  (octx.realFds.zipIdx.map fun x => (x.1, .target x.2)) ++
    octx.tmpFd.toList.map fun d => (d, .outTmp)

/-- The ends of the pipes from number `i` on. -/
def pipesNew : ℕ → List (ℕ × ℕ) → List (ℕ × Handle)
  | _, [] => []
  | i, p :: pipes => (p.1, .pipeR i) :: (p.2, .pipeW i) :: pipesNew (i + 1) pipes

/-- The gate. -/
def gateNew (gate : Option (ℕ × ℕ)) : List (ℕ × Handle) :=
  gate.toList.flatMap fun g => [(g.1, .gateR), (g.2, .gateW)]

/-- **Everything the launch opened.** -/
def Fds.new (f : Fds) : List (ℕ × Handle) :=
  f.inFd.new ++ (f.octx.new ++ (pipesNew 0 f.pipes ++ gateNew f.gate))

theorem map_fst_inFd (inFd : InFd) : inFd.new.map Prod.fst = inFd.toList := by
  cases inFd <;> rfl

theorem map_fst_octx (octx : OutCtx) :
    octx.new.map Prod.fst = octx.realFds ++ octx.tmpFd.toList := by
  simp [OutCtx.new, List.map_map, Function.comp_def]

theorem map_fst_pipes (i : ℕ) (pipes : List (ℕ × ℕ)) :
    (pipesNew i pipes).map Prod.fst = pipeDescs pipes := by
  induction pipes generalizing i with
  | nil => rfl
  | cons p pipes ih =>
    rw [pipesNew, List.map_cons, List.map_cons, ih]
    rfl

/-- Both ends of a pipe are among the new descriptors. -/
theorem mem_pipesNew {i j : ℕ} {pipes : List (ℕ × ℕ)} {p : ℕ × ℕ} (h : pipes[j]? = some p) :
    (p.1, .pipeR (i + j)) ∈ pipesNew i pipes ∧ (p.2, .pipeW (i + j)) ∈ pipesNew i pipes := by
  induction pipes generalizing i j with
  | nil => cases h
  | cons q pipes ih =>
    cases j with
    | zero =>
      cases h
      simp [pipesNew]
    | succ j =>
      have hmem := ih (i := i + 1) (j := j) h
      rw [Nat.add_right_comm, Nat.add_assoc] at hmem
      exact ⟨.tail _ (.tail _ hmem.1), .tail _ (.tail _ hmem.2)⟩

/-! ## Growth along the launch -/

section Growth

variable {t : FdTable Handle} {new : List (ℕ × Handle)} (env : Env) (taken : Taken)

/-- Every input file is closed before the next is opened. -/
theorem copyFiles_grows (tfd i : ℕ) (fs : List Text) {s : Sys} (h : t.Grows s.fds new) :
    t.Grows (copyFiles env taken tfd i fs s).fds new := by
  induction fs generalizing i s with
  | nil => exact h
  | cons f fs ih =>
    rw [copyFiles]
    split
    · refine ih (i + 1) ?_
      simp only [Sys.close, fds_copyLoop]
      exact h.close_alloc (.inFile i)
    · exact ih (i + 1) h

theorem buildInputTmp_grows (c : Commands) {s : Sys} (h : t.Grows s.fds new) :
    t.Grows (buildInputTmp env taken c s).2.fds
      (new ++ (buildInputTmp env taken c s).1.new) := by
  rw [buildInputTmp]
  split_ifs
  · simpa [InFd.new] using h
  · simpa [InFd.new] using h
  · simpa [InFd.new] using h
  · dsimp only
    rw [Sys.fds_rewind]
    exact copyFiles_grows env taken _ 0 c.inFiles (h.alloc .inTmp)

theorem map_fst_targets (fds : List ℕ) :
    (fds.zipIdx.map fun x => (x.1, Handle.target x.2)).map Prod.fst = fds := by
  simp [List.map_map, Function.comp_def]

/-- The loop over the targets leaves them all open, or none. -/
theorem openTargets_grows (os : List OutFile) (fds : List ℕ) {s : Sys}
    (h : t.Grows s.fds (new ++ fds.zipIdx.map fun x => (x.1, .target x.2))) :
    t.Grows (openTargets env fds.length os fds s).2.fds
      (new ++ (((openTargets env fds.length os fds s).1.getD []).zipIdx.map
        fun x => (x.1, .target x.2))) := by
  induction os generalizing fds s with
  | nil => exact h
  | cons o os ih =>
    rw [openTargets]
    split
    · have hgrow := h.alloc (.target fds.length)
      rw [List.append_assoc] at hgrow
      have hnext := ih (fds ++ [(s.fds.alloc (.target fds.length)).1])
        (s := (s.openWrite (.target fds.length) (.path o.file) o.append).2)
        (by simpa [List.zipIdx_append, Sys.openWrite] using hgrow)
      rw [List.length_append, List.length_singleton] at hnext
      exact hnext
    · have hclosed := h.closeAll_append fun d => by rw [map_fst_targets]
      simpa [Sys.closeAll] using hclosed

/-- What a result of `prepare_output` adds: nothing when it is -1. -/
def outNew (octx : Option OutCtx) : List (ℕ × Handle) := (octx.map OutCtx.new).getD []

theorem prepareOutput_grows (c : Commands) {s : Sys} (h : t.Grows s.fds new) :
    t.Grows (prepareOutput env c s).2.fds (new ++ outNew (prepareOutput env c s).1) := by
  have hloop := openTargets_grows env c.outFiles [] (s := s) (by simpa using h)
  rw [List.length_nil] at hloop
  rw [prepareOutput]
  generalize openTargets env 0 c.outFiles [] s = result at hloop ⊢
  obtain ⟨fds, s'⟩ := result
  by_cases hnone : c.outFiles.length = 0
  · rw [if_pos hnone]
    simpa [outNew, OutCtx.new] using h
  · rw [if_neg hnone]
    cases fds with
    | none => simpa [outNew] using hloop
    | some fds =>
      cases hmk : env.mkstempOut with
      | false =>
        have hclosed := hloop.closeAll_append fun d => by rw [map_fst_targets]
        simpa [outNew, Sys.closeAll] using hclosed
      | true =>
        have hgrow := hloop.alloc .outTmp
        rw [List.append_assoc] at hgrow
        exact hgrow

theorem openPipes_grows (k i : ℕ) {s : Sys} (h : t.Grows s.fds new) :
    t.Grows (openPipes k i s).2.fds (new ++ pipesNew i (openPipes k i s).1) := by
  induction k generalizing i s new with
  | zero => simpa [openPipes, pipesNew] using h
  | succ k ih =>
    have hboth := (h.alloc (.pipeR i)).alloc (.pipeW i)
    have hrest := ih (i + 1) (s := ((s.alloc (.pipeR i)).2.alloc (.pipeW i)).2) hboth
    simpa [openPipes, pipesNew, Sys.alloc] using hrest

theorem length_openPipes (k i : ℕ) (s : Sys) : (openPipes k i s).1.length = k := by
  induction k generalizing i s with
  | zero => rfl
  | succ k ih => exact congrArg (· + 1) (ih _ _)

theorem openGate_grows (background : Bool) {s : Sys} (h : t.Grows s.fds new) :
    t.Grows (openGate background s).2.fds (new ++ gateNew (openGate background s).1) := by
  cases background with
  | false => simpa [openGate, gateNew] using h
  | true => simpa [openGate, gateNew, Sys.alloc] using (h.alloc .gateR).alloc .gateW

end Growth

section Forked

variable {env : Env} {taken : Taken} {background : Bool} {pipeline : List Commands}
  {resolved : List (Option Text)} {s s₁ s₂ s₃ s' : Sys} {job : Started}

/-- **The launch grows the shell's table by what it opened.** -/
theorem Forked.grows (h : Forked env taken background pipeline resolved s s₁ s₂ s₃ s' job) :
    s.fds.Grows s'.fds job.fds.new := by
  have hin := buildInputTmp_grows env taken (pipeline.headD {}) (FdTable.Grows.refl s.fds)
  rw [h.input] at hin
  have hout := prepareOutput_grows env (pipeline.getLastD {}) hin
  rw [h.output] at hout
  have hpipes := openPipes_grows (pipeline.length - 1) 0 hout
  rw [h.pipes] at hpipes
  have hgate := openGate_grows background hpipes
  rw [h.gate] at hgate
  simpa [Fds.new, outNew] using hgate

theorem Forked.length_pipes (h : Forked env taken background pipeline resolved s s₁ s₂ s₃ s' job) :
    job.fds.pipes.length = pipeline.length - 1 := by
  have hlen := length_openPipes (pipeline.length - 1) 0 s₂
  rwa [h.pipes] at hlen

end Forked

/-! ## What a child keeps -/

namespace Fds

variable (f : Fds)

/-- What stage `i` is to find as its stdin: the pipe before it, the staged input, `/dev/null` in the
background, or what the shell has there. -/
def stdin (env : Env) (t : FdTable Handle) (i : ℕ) : Option Handle :=
  if 0 < i then some (.pipeR (i - 1))
  else
    match f.inFd with
    | .fd _ => some .inTmp
    | _ => if f.gate.isSome ∧ env.devNull then some .devNull else t.get 0

/-- What stage `i` of `n` is to find as its stdout: the pipe behind it, the staged output, or what
the shell has there. -/
def stdout (t : FdTable Handle) (n i : ℕ) : Option Handle :=
  if i < n - 1 then some (.pipeW i)
  else
    match f.octx.tmpFd with
    | some _ => some .outTmp
    | none => t.get 1

/-- What the launch opened but for the gate. -/
def plain : List (ℕ × Handle) := f.inFd.new ++ (f.octx.new ++ pipesNew 0 f.pipes)

/-- What every child closes. -/
def inherited : List ℕ :=
  pipeDescs f.pipes ++ f.inFd.toList ++ f.octx.tmpFd.toList ++ f.octx.realFds

variable {f} {env : Env} {t t' : FdTable Handle} {new : List (ℕ × Handle)} {n i : ℕ}

theorem new_eq : f.new = f.plain ++ gateNew f.gate := by
  simp [new, plain]

theorem closeInherited_eq : f.closeInherited t = t.closeAll f.inherited := by
  simp only [closeInherited, inherited, FdTable.closeAll_append]

theorem mem_plain {d : ℕ} : d ∈ f.plain.map Prod.fst ↔ d ∈ f.inherited := by
  simp only [plain, inherited, List.map_append, map_fst_inFd, map_fst_octx, map_fst_pipes,
    List.mem_append]
  tauto

/-- The stdin of a stage behind a pipe. -/
theorem connectPipe_grows (h : t.Grows t' new) (hsub : ∀ x ∈ f.plain, x ∈ new)
    (h0 : t.get 0 ≠ none) (hi : 0 < i) (hlen : i - 1 < f.pipes.length) :
    (t.set 0 (f.stdin env t i)).Grows (f.connectPipe i t') new := by
  have hp : f.pipes[i - 1]? = some f.pipes[i - 1] := List.getElem?_eq_getElem hlen
  have hmem := (mem_pipesNew (i := 0) hp).1
  rw [Nat.zero_add] at hmem
  have hnew := hsub _ (List.mem_append_right _ (List.mem_append_right _ hmem))
  rw [connectPipe, hp, stdin, if_pos hi]
  exact h.dup2 hnew h0

/-- The stdin of the first stage in the foreground. -/
theorem first_grows (h : t.Grows t' new) (hsub : ∀ x ∈ f.plain, x ∈ new) (h0 : t.get 0 ≠ none)
    (hgate : f.gate = none) :
    (t.set 0 (f.stdin env t 0)).Grows
      (match f.inFd with
        | .fd d => t'.dup2 d 0
        | _ => t') new := by
  rw [stdin, if_neg (Nat.lt_irrefl 0)]
  have hkeep : (t.set 0 (t.get 0)).Grows t' new := h.congr_left (t.get_set_get 0)
  cases hin : f.inFd with
  | fd d =>
    have hmem : (d, .inTmp) ∈ f.plain := List.mem_append_left _ (by simp [hin, InFd.new])
    exact h.dup2 (hsub _ hmem) h0
  | none => simpa [hgate] using hkeep
  | failed => simpa [hgate] using hkeep

/-- The stdin of the first stage in the background. -/
theorem gatedStdin_grows (h : t.Grows t' new) (hsub : ∀ x ∈ f.plain, x ∈ new)
    (h0 : t.get 0 ≠ none) (hgate : f.gate.isSome) :
    (t.set 0 (f.stdin env t 0)).Grows (f.gatedStdin env t') new := by
  rw [stdin, if_neg (Nat.lt_irrefl 0), gatedStdin]
  have hnull : (t.set 0 (if f.gate.isSome ∧ env.devNull then some .devNull else t.get 0)).Grows
      (if env.devNull then ((t'.alloc .devNull).2.dup2 (t'.alloc .devNull).1 0).close
        (t'.alloc .devNull).1 else t') new := by
    by_cases hdev : env.devNull
    · rw [if_pos ⟨hgate, hdev⟩, if_pos hdev]
      exact h.close_dup2_alloc .devNull h0
    · rw [if_neg fun hand => hdev hand.2, if_neg hdev]
      exact h.congr_left (t.get_set_get 0)
  cases hin : f.inFd with
  | fd d =>
    have hmem : (d, .inTmp) ∈ f.plain := List.mem_append_left _ (by simp [hin, InFd.new])
    exact h.dup2 (hsub _ hmem) h0
  | none => exact hnull
  | failed => exact hnull

/-- The stdout of a stage. -/
theorem connectOut_grows (h : t.Grows t' new) (hsub : ∀ x ∈ f.plain, x ∈ new)
    (h1 : t.get 1 ≠ none) (hlen : f.pipes.length = n - 1) :
    (t.set 1 (f.stdout t n i)).Grows (f.connectOut n i t') new := by
  rw [connectOut, stdout]
  by_cases hi : i < n - 1
  · have hp : f.pipes[i]? = some f.pipes[i] := List.getElem?_eq_getElem (hlen ▸ hi)
    have hmem := (mem_pipesNew (i := 0) hp).2
    rw [Nat.zero_add] at hmem
    have hnew := hsub _ (List.mem_append_right _ (List.mem_append_right _ hmem))
    rw [if_pos hi, if_pos hi, hp]
    exact h.dup2 hnew h1
  · rw [if_neg hi, if_neg hi]
    cases htmp : f.octx.tmpFd with
    | none => exact h.congr_left (t.get_set_get 1)
    | some d =>
      have hout : (d, .outTmp) ∈ f.octx.new :=
        List.mem_append_right _ (by simp [htmp])
      exact h.dup2 (hsub _ (List.mem_append_right _ (List.mem_append_left _ hout))) h1

/-- The table a child is to end with. -/
def kidTable (f : Fds) (env : Env) (t : FdTable Handle) (n i : ℕ) : FdTable Handle :=
  (t.set 0 (f.stdin env t i)).set 1 (f.stdout t n i)

/-- Both moves of a child: what it has below the growth is what it is to end with. -/
theorem connect_grows {u : FdTable Handle} (h : (t.set 0 (f.stdin env t i)).Grows u new)
    (hsub : ∀ x ∈ f.plain, x ∈ new) (h1 : t.get 1 ≠ none) (hlen : f.pipes.length = n - 1) :
    (f.kidTable env t n i).Grows (f.connectOut n i u) new := by
  have hkeep : (t.set 0 (f.stdin env t i)).get 1 = t.get 1 := t.get_set_of_ne Nat.one_ne_zero _
  have hstdout : f.stdout (t.set 0 (f.stdin env t i)) n i = f.stdout t n i := by
    simp only [stdout, hkeep]
  have hout := connectOut_grows (i := i) h hsub (hkeep.symm ▸ h1) hlen
  rwa [hstdout] at hout

/-- What was free in the shell is free in a child's last table. -/
theorem kidTable_free (h0 : t.get 0 ≠ none) (h1 : t.get 1 ≠ none) {d : ℕ} (hd : t.get d = none) :
    (f.kidTable env t n i).get d = none := by
  have hd0 : d ≠ 0 := fun h => h0 (h ▸ hd)
  have hd1 : d ≠ 1 := fun h => h1 (h ▸ hd)
  rw [kidTable, FdTable.get_set_of_ne _ hd1, FdTable.get_set_of_ne _ hd0, hd]

theorem mem_new {d : ℕ} : d ∈ f.new.map Prod.fst ↔
    d ∈ f.inherited ∨ d ∈ (gateNew f.gate).map Prod.fst := by
  rw [new_eq, List.map_append, List.mem_append, mem_plain]

/-- A child of `run_foreground`. -/
theorem kidForeground_get (hg : t.Grows t' f.new) (h0 : t.get 0 ≠ none) (h1 : t.get 1 ≠ none)
    (hgate : f.gate = none) (hlen : f.pipes.length = n - 1) (hi : i < n) (d : ℕ) :
    (f.kidForeground n i t').get d = (f.kidTable env t n i).get d := by
  have hplain : t.Grows t' f.plain := by
    simpa [new_eq, hgate, gateNew] using hg
  have hstdin : (t.set 0 (f.stdin env t i)).Grows
      (if 0 < i then f.connectPipe i t'
        else
          match f.inFd with
          | .fd d => t'.dup2 d 0
          | _ => t') f.plain := by
    by_cases hpos : 0 < i
    · rw [if_pos hpos]
      exact connectPipe_grows hplain (fun _ h => h) h0 hpos (by omega)
    · obtain rfl : i = 0 := by omega
      rw [if_neg hpos]
      exact first_grows hplain (fun _ h => h) h0 hgate
  have hboth := connect_grows hstdin (fun _ h => h) h1 hlen
  rw [kidForeground, closeInherited_eq]
  refine hboth.closeAll (fun e he => mem_plain.mp he) (fun e he => ?_) d
  exact kidTable_free h0 h1 (hplain.fresh e (mem_plain.mpr he))

/-- A child of `run_background`; closing the gate once more finds nothing. -/
theorem kidBackground_get {gate : ℕ × ℕ} (hg : t.Grows t' f.new) (h0 : t.get 0 ≠ none)
    (h1 : t.get 1 ≠ none) (hgate : f.gate = some gate) (hlen : f.pipes.length = n - 1)
    (hi : i < n) (d : ℕ) :
    (f.kidBackground env gate n i t').get d = (f.kidTable env t n i).get d := by
  have hfree : ∀ e ∈ [gate.1, gate.2] ++ f.inherited, (f.kidTable env t n i).get e = none := by
    intro e he
    refine kidTable_free h0 h1 (hg.fresh e (mem_new.mpr ?_))
    rcases List.mem_append.mp he with he | he
    · exact .inr (by simpa [hgate, gateNew] using he)
    · exact .inl he
  have hclose : ∀ u : FdTable Handle, f.closeInherited ((u.close gate.1).close gate.2)
      = u.closeAll ([gate.1, gate.2] ++ f.inherited) := fun u => by
    rw [closeInherited_eq, FdTable.closeAll_append]
    rfl
  rw [kidBackground, hclose]
  by_cases hpos : i = 0
  · subst hpos
    have hends : ∀ e, e ∈ [gate.2, gate.1] ↔ e ∈ (gateNew f.gate).map Prod.fst := by
      intro e
      simp [hgate, gateNew, or_comm]
    have hplain : t.Grows ((t'.close gate.2).close gate.1) f.plain :=
      (new_eq ▸ hg : t.Grows t' (f.plain ++ gateNew f.gate)).closeAll_append hends
    have hstdin : (t.set 0 (f.stdin env t 0)).Grows
        (f.gatedStdin env ((t'.close gate.2).close gate.1)) f.plain :=
      gatedStdin_grows hplain (fun _ h => h) h0 (by rw [hgate]; rfl)
    rw [if_pos rfl]
    exact (connect_grows hstdin (fun _ h => h) h1 hlen).closeAll
      (fun e he => List.mem_append_right _ (mem_plain.mp he)) hfree d
  · have hsub : ∀ x ∈ f.plain, x ∈ f.new := fun x hx => by
      rw [new_eq]
      exact List.mem_append_left _ hx
    have hstdin : (t.set 0 (f.stdin env t i)).Grows (f.connectPipe i t') f.new :=
      connectPipe_grows hg hsub h0 (Nat.pos_of_ne_zero hpos) (by omega)
    rw [if_neg hpos]
    refine (connect_grows hstdin hsub h1 hlen).closeAll (fun e he => ?_) hfree d
    rcases mem_new.mp he with he | he
    · exact List.mem_append_right _ he
    · exact List.mem_append_left _ (by simpa [hgate, gateNew] using he)

/-- **A child ends with the shell's old table, its stdin and its stdout.** -/
theorem kid_get (hg : t.Grows t' f.new) (h0 : t.get 0 ≠ none) (h1 : t.get 1 ≠ none)
    (hlen : f.pipes.length = n - 1) (hi : i < n) (d : ℕ) :
    (f.kid env n i t').get d = (f.kidTable env t n i).get d := by
  rw [kid]
  cases hgate : f.gate with
  | none => exact kidForeground_get hg h0 h1 hgate hlen hi d
  | some gate => exact kidBackground_get hg h0 h1 hgate hlen hi d

end Fds

/-! ## What the shell keeps -/

section Parent

variable {env : Env} {t : FdTable Handle}

/-- With no staging file there is no target either. -/
theorem prepareOutput_realFds {c : Commands} {s s' : Sys} {octx : OutCtx}
    (h : prepareOutput env c s = (some octx, s')) (htmp : octx.tmpFd = none) : octx.new = [] := by
  rw [prepareOutput] at h
  split at h
  · cases h
    rfl
  · split at h
    · cases h
    · dsimp only at h
      split at h
      · cases h
      · cases h
        cases htmp

/-- A step of `flush_output` leaves the table as it is, but for the closing loop. -/
theorem fds_flushStep {octx : OutCtx} {tfd : ℕ} (htmp : octx.tmpFd = some tfd) (pc : FlushPc)
    (s : Sys) :
    (flushStep octx pc s).2.fds =
      if pc = .close then s.fds.closeAll ([tfd] ++ octx.realFds) else s.fds := by
  rw [flushStep, htmp]
  cases pc with
  | start => simp
  | read =>
    dsimp only
    split <;> simp
  | write buf rest =>
    cases rest with
    | nil => simp
    | cons d rest => simp
  | close => rfl
  | done => simp

/-- Only the closing loop leads to the end. -/
theorem flushStep_ne_done {octx : OutCtx} {tfd : ℕ} (htmp : octx.tmpFd = some tfd) {pc : FlushPc}
    (hclose : pc ≠ .close) (hdone : pc ≠ .done) (s : Sys) : (flushStep octx pc s).1 ≠ .done := by
  rw [flushStep, htmp]
  cases pc with
  | start => exact FlushPc.noConfusion
  | read =>
    dsimp only
    split <;> exact FlushPc.noConfusion
  | write buf rest => cases rest <;> exact FlushPc.noConfusion
  | close => exact absurd rfl hclose
  | done => exact absurd rfl hdone

/-- What the shell still holds of what it opened. -/
def LifePc.held (f : Fds) : LifePc → List (ℕ × Handle)
  | .forked => f.new
  | .waiting => f.octx.new
  | .flushing pc => if pc = .done then [] else f.octx.new
  | .returned => []

/-- **The shell holds what its program counter says**, on top of its old table. -/
structure Held (t : FdTable Handle) (f : Fds) (l : Life) : Prop where
  fds : l.job.fds = f
  grows : t.Grows l.sys.fds (l.pc.held f)

theorem closeEnds_grows {job : Started} {s : Sys} (h : t.Grows s.fds job.fds.new) :
    t.Grows (job.closeEnds s).fds job.fds.octx.new := by
  have hfds : (job.closeEnds s).fds =
      s.fds.closeAll ((gateNew job.fds.gate).map Prod.fst ++ (pipeDescs job.fds.pipes ++
        job.fds.inFd.toList)) := by
    rw [Started.closeEnds, FdTable.closeAll_append, FdTable.closeAll_append]
    cases job.fds.gate <;> rfl
  have hperm : job.fds.new.Perm (job.fds.octx.new ++ (gateNew job.fds.gate ++
      (pipesNew 0 job.fds.pipes ++ job.fds.inFd.new))) := by
    rw [Fds.new]
    refine List.perm_append_comm.trans ?_
    rw [List.append_assoc, List.append_assoc]
    refine List.Perm.append_left _ ?_
    rw [← List.append_assoc, ← List.append_assoc]
    exact List.Perm.append_right _ List.perm_append_comm
  rw [hfds]
  refine (h.perm hperm).closeAll_append fun d => ?_
  rw [List.map_append, List.map_append, map_fst_pipes, map_fst_inFd]

theorem closeAll_octx {octx : OutCtx} {u : FdTable Handle} (h : t.Grows u octx.new) :
    t.Grows (u.closeAll (octx.tmpFd.toList ++ octx.realFds)) [] := by
  have happ : t.Grows u ([] ++ octx.new) := h
  refine happ.closeAll_append fun d => ?_
  rw [map_fst_octx, List.mem_append, List.mem_append, or_comm]

/-- **An event keeps what `Held` says.** -/
theorem held_step {f : Fds} (hnil : f.octx.tmpFd = none → f.octx.new = []) (l : Life) (e : Event)
    (l' : Life) (h : Held t f l) (hstep : l.step e = some l') : Held t f l' := by
  obtain ⟨rfl, hgrows⟩ := h
  have hmoves := Life.moves_of_step hstep
  refine ⟨congrArg Started.fds hmoves.job_eq, ?_⟩
  cases hmoves with
  | write kid bs hkid =>
    rw [Life.stageWrite]
    dsimp only
    split <;> cases kid.fds.get 1 <;> exact hgrows
  | closeEnds hpc =>
    rw [hpc] at hgrows
    exact closeEnds_grows hgrows
  | leave hpc hbg =>
    rw [hpc] at hgrows
    have hclosed := closeAll_octx hgrows
    rwa [FdTable.closeAll_append] at hclosed
  | flush hpc hbg =>
    rw [hpc] at hgrows
    exact hgrows
  | copy p hpc hp =>
    rw [hpc, LifePc.held, if_neg hp] at hgrows
    dsimp only [LifePc.held]
    cases htmp : l.job.fds.octx.tmpFd with
    | none =>
      rw [flushStep, htmp, if_pos rfl]
      rwa [hnil htmp] at hgrows
    | some tfd =>
      rw [fds_flushStep htmp]
      by_cases hclose : p = .close
      · have hclosed := closeAll_octx hgrows
        rw [htmp] at hclosed
        rw [if_pos hclose, hclose, flushStep, htmp]
        exact hclosed
      · rw [if_neg hclose, if_neg (flushStep_ne_done htmp hclose hp l.sys)]
        exact hgrows
  | leaveFlushed hpc =>
    rw [hpc] at hgrows
    exact hgrows

end Parent

/-! ## Early returns -/

section Return

variable {env : Env} {taken : Taken} {background : Bool} {pipeline : List Commands} {s s' : Sys}

/-- **A launch that is refused has closed what it had opened.** -/
theorem stageAndFork_refused {resolved : List (Option Text)}
    (h : stageAndFork env taken background pipeline resolved s = (.refused, s')) :
    s.fds.Grows s'.fds [] := by
  have hin := buildInputTmp_grows env taken (pipeline.headD {}) (FdTable.Grows.refl s.fds)
  rw [stageAndFork] at h
  split at h
  · rename_i s₁ hfail
    cases h
    rw [hfail] at hin
    exact hin
  · rename_i inFd s₁ hne hbuild
    rw [hbuild] at hin
    have hout := prepareOutput_grows env (pipeline.getLastD {}) hin
    split at h
    · rename_i s₂ hnone
      cases h
      rw [hnone] at hout
      have hrest : s.fds.Grows s₂.fds ([] ++ inFd.new) := by simpa [outNew] using hout
      exact hrest.closeAll_append fun d => by rw [map_fst_inFd]
    · cases h

theorem launchTaking_refused
    (h : launchTaking env taken background pipeline s = (.refused, s')) :
    s.fds.Grows s'.fds [] := by
  obtain ⟨out, hout⟩ := launchTaking_eq env taken background pipeline s
  rw [hout] at h
  split at h
  · cases h
    exact FdTable.Grows.refl s.fds
  · split at h
    · cases h
    · exact stageAndFork_refused (s := { s with out }) h

/-- **A builtin runs in the shell** only as a pipeline of its own, and on the shell's own table. -/
theorem launchTaking_builtin {argv : List Text}
    (h : launchTaking env taken background pipeline s = (.builtin argv, s')) :
    s'.fds = s.fds ∧ runsInShell pipeline = true := by
  obtain ⟨out, hout⟩ := launchTaking_eq env taken background pipeline s
  rw [hout] at h
  split at h
  · cases h
  · split at h
    · rename_i hshell
      cases h
      exact ⟨rfl, hshell.2⟩
    · rw [stageAndFork] at h
      split at h
      · cases h
      · split at h <;> cases h

end Return

/-! ## The children of a launch -/

section Kids

variable {kid : ℕ → FdTable Handle} {i : ℕ} {cs : List Commands} {resolved : List (Option Text)}

/-- A child belongs to a stage of the pipeline. -/
theorem mem_forkLoop {k : Kid} (h : k ∈ forkLoop kid i cs resolved) :
    i ≤ k.stage ∧ k.stage < i + cs.length ∧ k.fds = kid k.stage := by
  induction cs generalizing i resolved with
  | nil => cases h
  | cons c cs ih =>
    have htail : k ∈ forkLoop kid (i + 1) cs resolved.tail →
        i ≤ k.stage ∧ k.stage < i + (c :: cs).length ∧ k.fds = kid k.stage := by
      intro hk
      obtain ⟨hle, hlt, hfds⟩ := ih hk
      exact ⟨by omega, by rw [List.length_cons]; omega, hfds⟩
    rw [forkLoop] at h
    split at h
    · exact htail h
    · rcases List.mem_cons.mp h with rfl | h
      · exact ⟨Nat.le_refl i, by simp, rfl⟩
      · exact htail h

/-- …and every stage with a command has one. -/
theorem exists_mem_forkLoop {j : ℕ} {c : Commands} (hc : cs[j]? = some c) (hargv : c.argv ≠ []) :
    ∃ k ∈ forkLoop kid i cs resolved, k.stage = i + j := by
  induction cs generalizing i j resolved with
  | nil => cases hc
  | cons c' cs ih =>
    rw [forkLoop]
    cases j with
    | zero =>
      cases hc
      split
      · rename_i hnil
        exact absurd hnil hargv
      · exact ⟨_, List.mem_cons_self, rfl⟩
    | succ j =>
      obtain ⟨k, hk, hstage⟩ : ∃ k ∈ forkLoop kid (i + 1) cs resolved.tail, k.stage = i + 1 + j :=
        ih hc
      refine ⟨k, ?_, by omega⟩
      split
      · exact hk
      · exact List.mem_cons_of_mem _ hk

end Kids

/-- **Who holds the ends of the pipes** of a pipeline that the shell started from `s`: every stage
has a child, the write end of pipe `j` is held by stage `j` as its stdout and the read end by stage
`j + 1` as its stdin, and beyond stdin and stdout a child has what the shell had. -/
structure EndsHeld (pipeline : List Commands) (s : Sys) (kids : List Kid) (shell : FdTable Handle) :
    Prop where
  everyStage : ∀ i c, pipeline[i]? = some c → c.argv ≠ [] → ∃ kid ∈ kids, kid.stage = i
  writeEnd : ∀ kid ∈ kids, ∀ d j,
    kid.fds.get d = some (.pipeW j) ↔ d = 1 ∧ j = kid.stage ∧ kid.stage + 1 < pipeline.length
  readEnd : ∀ kid ∈ kids, ∀ d j, kid.fds.get d = some (.pipeR j) ↔ d = 0 ∧ kid.stage = j + 1
  others : ∀ kid ∈ kids, ∀ d, 2 ≤ d → kid.fds.get d = s.fds.get d
  notShell : ∀ d j, shell.get d ≠ some (.pipeW j) ∧ shell.get d ≠ some (.pipeR j)

section Ends

variable {env : Env} {taken : Taken} {background : Bool} {pipeline : List Commands}
  {resolved : List (Option Text)} {s s₁ s₂ s₃ s' : Sys} {job : Started}

/-- A pipe end among the new descriptors is one that the closing loop closes. -/
theorem not_mem_octx {octx : OutCtx} {d j : ℕ} {h : Handle} (hj : h = .pipeR j ∨ h = .pipeW j) :
    (d, h) ∉ octx.new := by
  rcases hj with rfl | rfl <;> simp [OutCtx.new]

theorem held_pipe {pc : LifePc} {d j : ℕ} {h : Handle} (hj : h = .pipeR j ∨ h = .pipeW j)
    (hpc : pc ≠ .forked) : (d, h) ∉ pc.held job.fds := by
  intro hmem
  cases pc with
  | forked => exact hpc rfl
  | waiting => exact not_mem_octx hj hmem
  | flushing p =>
    rw [LifePc.held] at hmem
    split at hmem
    · cases hmem
    · exact not_mem_octx hj hmem
  | returned => cases hmem

/-- Behind the closing loop the shell has no end of any pipe. -/
theorem shell_no_pipe (hs : AtPrompt s) {l : Life} (h : Held s.fds job.fds l)
    (hpc : l.pc ≠ .forked) (d j : ℕ) :
    l.sys.fds.get d ≠ some (.pipeW j) ∧ l.sys.fds.get d ≠ some (.pipeR j) := by
  have hnot : ∀ x : Handle, x = .pipeR j ∨ x = .pipeW j → l.sys.fds.get d ≠ some x := by
    intro x hx hget
    by_cases hd : d ∈ (l.pc.held job.fds).map Prod.fst
    · obtain ⟨y, hy, rfl⟩ := List.mem_map.mp hd
      rw [h.grows.get_new y hy] at hget
      cases hget
      exact held_pipe hx hpc hy
    · rw [h.grows.get_old d hd, hs.fds] at hget
      split at hget
      · cases hget
        rcases hx with hx | hx <;> cases hx
      · cases hget
  exact ⟨hnot _ (.inr rfl), hnot _ (.inl rfl)⟩

/-- A stage finds the read end of the pipe before it on stdin, and no other end. -/
theorem stdin_eq (env : Env) (hs : AtPrompt s) (f : Fds) (i j : ℕ) :
    (f.stdin env s.fds i = some (.pipeR j) ↔ i = j + 1) ∧
      f.stdin env s.fds i ≠ some (.pipeW j) := by
  have h0 : s.fds.get 0 = some (.std 0) := hs.fds 0
  rw [Fds.stdin]
  by_cases hi : 0 < i
  · rw [if_pos hi]
    simp only [Option.some.injEq, Handle.pipeR.injEq, ne_eq, reduceCtorEq, not_false_eq_true,
      and_true]
    omega
  · rw [if_neg hi, h0]
    have hij : i ≠ j + 1 := by omega
    split
    · simp [hij]
    · split <;> simp [hij]

/-- …and the write end of the pipe behind it on stdout. -/
theorem stdout_eq (hs : AtPrompt s) (f : Fds) (n i j : ℕ) :
    (f.stdout s.fds n i = some (.pipeW j) ↔ j = i ∧ i + 1 < n) ∧
      f.stdout s.fds n i ≠ some (.pipeR j) := by
  have h1 : s.fds.get 1 = some (.std 1) := hs.fds 1
  rw [Fds.stdout]
  by_cases hi : i < n - 1
  · rw [if_pos hi]
    simp only [Option.some.injEq, Handle.pipeW.injEq, ne_eq, reduceCtorEq, not_false_eq_true,
      and_true]
    omega
  · rw [if_neg hi, h1]
    have hin : ¬ i + 1 < n := by omega
    cases f.octx.tmpFd <;> simp [hin]

/-- **The table of a child**: its stage, its stdin, its stdout, and what the shell had. -/
theorem Forked.kid_fds {out : List Text} (hs : AtPrompt s)
    (h : Forked env taken background pipeline resolved { s with out } s₁ s₂ s₃ s' job) {kid : Kid}
    (hmem : kid ∈ job.kids) :
    kid.stage < pipeline.length ∧
      kid.fds.get 0 = job.fds.stdin env s.fds kid.stage ∧
      kid.fds.get 1 = job.fds.stdout s.fds pipeline.length kid.stage ∧
      ∀ d, 2 ≤ d → kid.fds.get d = s.fds.get d := by
  have h0 : s.fds.get 0 = some (.std 0) := hs.fds 0
  have h1 : s.fds.get 1 = some (.std 1) := hs.fds 1
  have hne0 : s.fds.get 0 ≠ none := by rw [h0]; exact Option.some_ne_none _
  have hne1 : s.fds.get 1 ≠ none := by rw [h1]; exact Option.some_ne_none _
  rw [h.kids] at hmem
  obtain ⟨-, hlt, hfds⟩ := mem_forkLoop hmem
  rw [Nat.zero_add] at hlt
  have hget : ∀ d, kid.fds.get d
      = (job.fds.kidTable env s.fds pipeline.length kid.stage).get d := fun d =>
    hfds ▸ Fds.kid_get h.grows hne0 hne1 h.length_pipes hlt d
  refine ⟨hlt, ?_, ?_, fun d hd => ?_⟩
  · rw [hget, Fds.kidTable, FdTable.get_set_of_ne _ Nat.zero_ne_one, FdTable.get_set_self]
  · rw [hget, Fds.kidTable, FdTable.get_set_self]
  · rw [hget, Fds.kidTable, FdTable.get_set_of_ne _ (by omega), FdTable.get_set_of_ne _ (by omega)]

/-- Every stage with a command has a child. -/
theorem Forked.exists_kid (h : Forked env taken background pipeline resolved s s₁ s₂ s₃ s' job)
    {i : ℕ} {c : Commands} (hc : pipeline[i]? = some c) (hargv : c.argv ≠ []) :
    ∃ kid ∈ job.kids, kid.stage = i := by
  obtain ⟨kid, hmem, hstage⟩ := exists_mem_forkLoop (i := 0) hc hargv
  exact ⟨kid, h.kids ▸ hmem, by rw [hstage, Nat.zero_add]⟩

/-- The children of a launch, and a shell behind the closing loop. -/
theorem Forked.endsHeld {out : List Text} (hs : AtPrompt s)
    (h : Forked env taken background pipeline resolved { s with out } s₁ s₂ s₃ s' job) {l : Life}
    (hl : Held s.fds job.fds l) (hpc : l.pc ≠ .forked) :
    EndsHeld pipeline s job.kids l.sys.fds := by
  have hget0 : ∀ kid ∈ job.kids, kid.fds.get 0 = job.fds.stdin env s.fds kid.stage :=
    fun kid hmem => (h.kid_fds hs hmem).2.1
  have hget1 : ∀ kid ∈ job.kids,
      kid.fds.get 1 = job.fds.stdout s.fds pipeline.length kid.stage :=
    fun kid hmem => (h.kid_fds hs hmem).2.2.1
  have hothers : ∀ kid ∈ job.kids, ∀ d, 2 ≤ d → kid.fds.get d = s.fds.get d :=
    fun kid hmem => (h.kid_fds hs hmem).2.2.2
  have hend : ∀ kid ∈ job.kids, ∀ d h j, h = .pipeR j ∨ h = .pipeW j →
      kid.fds.get d = some h → d = 0 ∨ d = 1 := by
    intro kid hmem d h j hh hget
    by_contra hd
    rw [hothers kid hmem d (by omega), hs.fds] at hget
    split at hget
    · cases hget
      rcases hh with hh | hh <;> cases hh
    · cases hget
  refine ⟨fun i c hc hargv => h.exists_kid hc hargv, ?_, ?_, hothers, shell_no_pipe hs hl hpc⟩
  · intro kid hmem d j
    have hout := stdout_eq hs job.fds pipeline.length kid.stage j
    constructor
    · intro hget
      rcases hend kid hmem d _ j (.inr rfl) hget with rfl | rfl
      · rw [hget0 kid hmem] at hget
        exact absurd hget (stdin_eq env hs job.fds kid.stage j).2
      · rw [hget1 kid hmem] at hget
        exact ⟨rfl, hout.1.mp hget⟩
    · rintro ⟨rfl, hj⟩
      rw [hget1 kid hmem]
      exact hout.1.mpr hj
  · intro kid hmem d j
    have hin := stdin_eq env hs job.fds kid.stage j
    constructor
    · intro hget
      rcases hend kid hmem d _ j (.inl rfl) hget with rfl | rfl
      · rw [hget0 kid hmem] at hget
        exact ⟨rfl, hin.1.mp hget⟩
      · rw [hget1 kid hmem] at hget
        exact absurd hget (stdout_eq hs job.fds pipeline.length kid.stage j).2
    · rintro ⟨rfl, hj⟩
      rw [hget0 kid hmem]
      exact hin.1.mpr hj

/-- **A run keeps what `Held` says.** -/
theorem Forked.held_run {out : List Text}
    (h : Forked env taken background pipeline resolved { s with out } s₁ s₂ s₃ s' job)
    {events : List Event} {l : Life} (hrun : run Life.step (.init job s') events = some l) :
    Held s.fds job.fds l :=
  invariant' (held_step (prepareOutput_realFds h.output)) ⟨rfl, h.grows⟩ hrun

theorem job_eq_of_run {l l' : Life} {events : List Event}
    (hrun : run Life.step l events = some l') : l'.job = l.job :=
  invariant' (I := fun x => x.job = l.job)
    (fun _ _ _ hI hstep => (Life.moves_of_step hstep).job_eq.trans hI) rfl hrun

end Ends

/-- **No descriptor is leaked.**  Once the shell is behind its closing loop every end of every pipe
is where it belongs and no child has anything else of the pipeline; when the shell returns, early or
not, it holds what it held at the prompt. -/
theorem launch_descriptors {env : Env} {background : Bool} {pipeline : List Commands} {s : Sys}
    (hs : AtPrompt s) :
    (∀ events l, Life.ofLaunch env background pipeline s events = some l →
      (l.pc ≠ .forked → EndsHeld pipeline s l.job.kids l.sys.fds) ∧
      (l.pc = .returned → ∀ d, l.sys.fds.get d = s.fds.get d)) ∧
    (∀ s', launch env background pipeline s = (.refused, s') →
      ∀ d, s'.fds.get d = s.fds.get d) ∧
    ∀ argv s', launch env background pipeline s = (.builtin argv, s') →
      ∀ d, s'.fds.get d = s.fds.get d := by
  refine ⟨?_, ?_, ?_⟩
  · intro events l hlife
    obtain ⟨job, s', hlaunch, hrun⟩ := Life.ofLaunch_eq_some hlife
    obtain ⟨resolved, out, s₁, s₂, s₃, -, -, hforked⟩ := launchTaking_started hlaunch
    have hheld := hforked.held_run hrun
    refine ⟨fun hpc => ?_, fun hpc => ?_⟩
    · rw [job_eq_of_run hrun]
      exact hforked.endsHeld hs hheld hpc
    · have hgrows := hheld.grows
      rw [hpc] at hgrows
      exact hgrows.get_eq
  · intro s' hlaunch
    exact (launchTaking_refused hlaunch).get_eq
  · intro argv s' hlaunch
    rw [(launchTaking_builtin hlaunch).1]
    exact fun _ => rfl

/-- `a < f | b > g`, where every command and file it names is there: in the background, and in the
foreground with a byte written by `b`. -/
theorem launch_descriptors_twice :
    let s := Sys.prompt fun _ => some []
    let pipeline : List Commands := [⟨[['a']], [['f']], []⟩, ⟨[['b']], [], [⟨['g'], false⟩]⟩]
    let ends := fun background events => ∃ l,
      Life.ofLaunch .obliging background pipeline s events = some l ∧ l.pc = .returned ∧
        EndsHeld pipeline s l.job.kids l.sys.fds ∧ ∀ d, l.sys.fds.get d = s.fds.get d
    ends true [.shell, .shell] ∧ ends false (.write 1 [120] :: List.replicate 9 .shell) := by
  intro s pipeline ends
  have hends (background : Bool) (events : List Event)
      (hreturned : (Life.ofLaunch .obliging background pipeline s events).map (·.pc)
        = some .returned) : ends background events := by
    obtain ⟨l, hl, hpc⟩ := Option.map_eq_some_iff.mp hreturned
    have h := (launch_descriptors (atPrompt_prompt fun _ => some [])).1 _ l hl
    exact ⟨l, hl, hpc, h.1 (hpc ▸ LifePc.noConfusion), h.2 hpc⟩
  exact ⟨hends true _ (by decide), hends false _ (by decide)⟩

end MiniProject.Shell
