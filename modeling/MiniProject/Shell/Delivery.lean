import MiniProject.Machinery.Staging
import MiniProject.Shell.Leaks

/-!
# Shell/Delivery — what the last stage writes and what the targets get

The last stage writes to the staging file through a description it shares with the shell.  The shell
copies that file once, in `flush_output`, and in the background never.  So the targets hold all of
it exactly when all of it was written before the copying began (`Life.Timely`,
`launch_delivered_iff`).

    stage:   write … write                write …        ← late: only into the staging file
    shell:   …  waiting  lseek  read  write  …  read  close
-/

namespace MiniProject.Shell

section Delivery

variable {os : List OutFile} {base : OutFile → List Byte}

/-- Everything read off the staging file was sent to every target, and nothing early is left. -/
def AllSent (fds : List ℕ) (early late data : List Byte) (pos : ℕ) (sent : ℕ → List Byte) : Prop :=
  ∃ got, Staged data pos early late got ∧ early.length ≤ pos ∧ ∀ k < fds.length, sent k = got

/-- **How far the bytes of the last stage have got**, by where the shell stands. -/
def Flow (background : Bool) (fds : List ℕ) (early late data : List Byte) (pos : ℕ)
    (sent : ℕ → List Byte) : LifePc → Prop
  | .forked | .waiting | .flushing .start =>
    late = [] ∧ data = early ∧ pos = early.length ∧ ∀ k < fds.length, sent k = []
  | .flushing .read => ∃ got, Staged data pos early late got ∧ ∀ k < fds.length, sent k = got
  | .flushing (.write buf rest) => ∃ got m, Staged data pos early late (got ++ buf) ∧
      rest = fds.drop m ∧ ∀ k < fds.length, sent k = if k < m then got ++ buf else got
  | .flushing .close | .flushing .done => AllSent fds early late data pos sent
  | .returned =>
    if background then ∀ k < fds.length, sent k = [] else AllSent fds early late data pos sent

/-- A write of the last stage before the copying: the staging file holds it. -/
theorem Flow.write_early {background : Bool} {fds : List ℕ} {early late data : List Byte} {pos : ℕ}
    {sent : ℕ → List Byte} {pc : LifePc} (h : Flow background fds early late data pos sent pc)
    (hpc : pc.BeforeFlush) (bs : List Byte) :
    Flow background fds (early ++ bs) late (splice data pos bs) (pos + bs.length) sent pc := by
  have hstep : (late = [] ∧ data = early ∧ pos = early.length ∧ ∀ k < fds.length, sent k = []) →
      late = [] ∧ splice data pos bs = early ++ bs ∧ pos + bs.length = (early ++ bs).length ∧
        ∀ k < fds.length, sent k = [] := by
    rintro ⟨hlate, rfl, rfl, hsent⟩
    exact ⟨hlate, splice_length _ _, List.length_append.symm, hsent⟩
  match pc, hpc with
  | .forked, _ => exact hstep h
  | .waiting, _ => exact hstep h
  | .flushing .start, _ => exact hstep h

theorem AllSent.write {fds : List ℕ} {early late data : List Byte} {pos : ℕ}
    {sent : ℕ → List Byte} (h : AllSent fds early late data pos sent) (bs : List Byte) :
    AllSent fds early (late ++ bs) (splice data pos bs) (pos + bs.length) sent := by
  obtain ⟨got, hstaged, hend, hsent⟩ := h
  exact ⟨got, hstaged.write bs, Nat.le_add_right_of_le hend, hsent⟩

/-- …and afterwards: the targets do not get it. -/
theorem Flow.write_late {background : Bool} {fds : List ℕ} {early late data : List Byte} {pos : ℕ}
    {sent : ℕ → List Byte} {pc : LifePc} (h : Flow background fds early late data pos sent pc)
    (hpc : ¬ pc.BeforeFlush) (bs : List Byte) :
    Flow background fds early (late ++ bs) (splice data pos bs) (pos + bs.length) sent pc := by
  match pc, hpc with
  | .forked, hpc => exact absurd trivial hpc
  | .waiting, hpc => exact absurd trivial hpc
  | .flushing .start, hpc => exact absurd trivial hpc
  | .flushing .read, _ =>
    obtain ⟨got, hstaged, hsent⟩ := h
    exact ⟨got, hstaged.write bs, hsent⟩
  | .flushing (.write buf rest), _ =>
    obtain ⟨got, m, hstaged, hrest, hsent⟩ := h
    exact ⟨got, m, hstaged.write bs, hrest, hsent⟩
  | .flushing .close, _ => exact AllSent.write h bs
  | .flushing .done, _ => exact AllSent.write h bs
  | .returned, _ =>
    cases background with
    | true => exact h
    | false => exact AllSent.write h bs

/-- The first `m` targets have `buf`, and the next gets it. -/
theorem sent_update {fds : List ℕ} {sent : ℕ → List Byte} {got buf : List Byte} {m : ℕ}
    (hm : m < fds.length) (hsent : ∀ k < fds.length, sent k = if k < m then got ++ buf else got)
    {k : ℕ} (hk : k < fds.length) :
    Function.update sent m (sent m ++ buf) k = if k < m + 1 then got ++ buf else got := by
  by_cases hkm : k = m
  · rw [hkm, Function.update_self, hsent m hm, if_neg (Nat.lt_irrefl m),
      if_pos (Nat.lt_succ_self m)]
  · rw [Function.update_of_ne hkm, hsent k hk]
    by_cases hlt : k < m
    · rw [if_pos hlt, if_pos (Nat.lt_succ_of_lt hlt)]
    · rw [if_neg hlt, if_neg (by omega)]

section Flowing

/-- The staging file and the targets of `os` in the store are as `Flow` says. -/
def Flowing (os : List OutFile) (base : OutFile → List Byte) (background : Bool) (fds : List ℕ)
    (early late : List Byte) (store : Store Handle File Byte) (pc : LifePc) : Prop :=
  ∃ data pos written sent, store.desc .outTmp = some ⟨.outTmp, false, pos, written⟩ ∧
    store.data .outTmp = some data ∧ Targets os base store sent ∧
    Flow background fds early late data pos sent pc

variable {background : Bool} {fds : List ℕ} {early late : List Byte}
  {store : Store Handle File Byte}

/-- `lseek` goes back to the start of the staging file. -/
theorem Flowing.rewind (h : Flowing os base background fds early late store (.flushing .start)) :
    Flowing os base background fds early late (store.rewind .outTmp) (.flushing .read) := by
  obtain ⟨data, pos, written, sent, hdesc, hdata, htargets, rfl, rfl, -, hsent⟩ := h
  refine ⟨_, 0, written, sent, Store.desc_rewind_self hdesc, hdata, ?_, [], Staged.start _, hsent⟩
  exact htargets.frame (fun k => Store.desc_rewind_of_ne _ Handle.noConfusion) fun _ => rfl

/-- `read` takes the next bytes off it, or finds that it has them all. -/
theorem Flowing.read (h : Flowing os base background fds early late store (.flushing .read)) :
    Flowing os base background fds early late (store.read .outTmp bufSize).2
      (.flushing (if (store.read .outTmp bufSize).1 = [] then .close
        else .write (store.read .outTmp bufSize).1 fds)) := by
  obtain ⟨data, pos, written, sent, hdesc, hdata, htargets, got, hstaged, hsent⟩ := h
  have hbytes := Store.bytes_of_data hdata
  have hbuf := Store.read_fst hdesc bufSize
  have hself := Store.desc_read_self hdesc bufSize
  dsimp only at hbuf hself
  rw [hbytes] at hbuf
  have hnext := hstaged.read bufSize
  rw [← hbuf] at hnext
  have hframe : Targets os base (store.read .outTmp bufSize).2 sent :=
    htargets.frame (fun k => Store.desc_read_of_ne _ Handle.noConfusion _)
      fun _ => by rw [Store.data_read]
  have hdata' : (store.read .outTmp bufSize).2.data .outTmp = some data := by
    rw [Store.data_read, hdata]
  by_cases hnil : (store.read .outTmp bufSize).1 = []
  · rw [if_pos hnil]
    refine ⟨data, pos, written, sent, ?_, hdata', hframe, got, hstaged, ?_, hsent⟩
    · rw [hself, hnil]
      rfl
    · exact hstaged.le_of_read_eq_nil (Nat.succ_pos _) (hbuf ▸ hnil)
  · rw [if_neg hnil]
    refine ⟨data, _, written, sent, hself, hdata', hframe, got, 0, hnext, rfl, fun k hk => ?_⟩
    rw [if_neg (Nat.not_lt_zero k)]
    exact hsent k hk

/-- All targets have what was read. -/
theorem Flowing.written {buf : List Byte}
    (h : Flowing os base background fds early late store (.flushing (.write buf []))) :
    Flowing os base background fds early late store (.flushing .read) := by
  obtain ⟨data, pos, written, sent, hdesc, hdata, htargets, got, m, hstaged, hrest, hsent⟩ := h
  refine ⟨data, pos, written, sent, hdesc, hdata, htargets, got ++ buf, hstaged, fun k hk => ?_⟩
  have hm : fds.length ≤ m := List.drop_eq_nil_iff.mp hrest.symm
  rw [hsent k hk, if_pos (by omega)]

/-- The next target gets it, which is `target m` if its descriptor is the `m`th. -/
theorem Flowing.write {buf : List Byte} {fd : ℕ} {rest : List ℕ} (hlen : fds.length = os.length)
    (h : Flowing os base background fds early late store (.flushing (.write buf (fd :: rest)))) :
    ∃ m, fds[m]? = some fd ∧ Flowing os base background fds early late
      (store.write (.target m) buf) (.flushing (.write buf rest)) := by
  obtain ⟨data, pos, written, sent, hdesc, hdata, htargets, got, m, hstaged, hrest, hsent⟩ := h
  have hm : fds[m]? = some fd := by
    rw [← List.head?_drop, ← hrest]
    rfl
  obtain ⟨hlt, -⟩ := List.getElem?_eq_some_iff.mp hm
  have hlt' : m < os.length := hlen ▸ hlt
  have hos : os[m]? = some os[m] := List.getElem?_eq_getElem hlt'
  obtain ⟨posm, hdm, -⟩ := htargets m _ hos
  refine ⟨m, hm, data, pos, written, _, ?_, ?_, htargets.write hos buf, got, m + 1, hstaged, ?_,
    fun k hk => sent_update hlt hsent hk⟩
  · rw [store.desc_write_of_ne Handle.noConfusion, hdesc]
  · rw [store.data_write_of_ne, hdata]
    intro d hd
    rw [hdm] at hd
    cases hd
    exact File.noConfusion
  · rw [← List.drop_drop, ← hrest]
    rfl

end Flowing

/-- What does not change about a pipeline with targets: its staging file, and which description each
of its stages writes to. -/
structure HasTargets (os : List OutFile) (n tfd : ℕ) (job : Started) : Prop where
  tmpFd : job.fds.octx.tmpFd = some tfd
  length_eq : job.fds.octx.realFds.length = os.length
  stdout : ∀ kid ∈ job.kids,
    kid.fds.get 1 = some (if kid.stage = n - 1 then .outTmp else .pipeW kid.stage)

/-- **The invariant of a life with targets**: the staging file and the targets are as `Flow`
says. -/
structure Delivering (os : List OutFile) (base : OutFile → List Byte) (n : ℕ) (job : Started)
    (t : FdTable Handle) (l : Life) : Prop where
  job_eq : l.job = job
  held : Held t job.fds l
  foreground : ∀ p, l.pc = .flushing p → job.background = false
  pipes : ∀ j, l.sys.store.desc (.pipeW j) = none
  flow : ∃ data pos written sent,
    l.sys.store.desc .outTmp = some ⟨.outTmp, false, pos, written⟩ ∧
    l.sys.store.data .outTmp = some data ∧ Targets os base l.sys.store sent ∧
    Flow job.background job.fds.octx.realFds (l.early (n - 1)) (l.late (n - 1)) data pos sent l.pc

variable {n tfd : ℕ} {job : Started} {t : FdTable Handle} {l : Life}

/-- The shell's descriptors while it copies. -/
theorem Delivering.fds (h : Delivering os base n job t l) (hT : HasTargets os n tfd job)
    {p : FlushPc} (hpc : l.pc = .flushing p) (hp : p ≠ .done) :
    l.sys.fds.get tfd = some .outTmp ∧
      ∀ m fd, job.fds.octx.realFds[m]? = some fd → l.sys.fds.get fd = some (.target m) := by
  have hgrows := h.held.grows
  rw [hpc, LifePc.held, if_neg hp] at hgrows
  refine ⟨hgrows.get_new (tfd, .outTmp) ?_, fun m fd hm => hgrows.get_new (fd, .target m) ?_⟩
  · exact List.mem_append_right _ (by simp [hT.tmpFd])
  · refine List.mem_append_left _ (List.mem_map.mpr ⟨(fd, m), ?_, rfl⟩)
    exact List.mem_zipIdx_iff_getElem?.mpr hm

/-- **A step of `flush_output`** moves the bytes on. -/
theorem Delivering.flushStep (h : Delivering os base n job t l) (hT : HasTargets os n tfd job)
    {p : FlushPc} (hpc : l.pc = .flushing p) (hp : p ≠ .done) :
    Flowing os base job.background job.fds.octx.realFds (l.early (n - 1)) (l.late (n - 1))
      (Shell.flushStep job.fds.octx p l.sys).2.store
      (.flushing (Shell.flushStep job.fds.octx p l.sys).1) := by
  obtain ⟨htfd, hfds⟩ := h.fds hT hpc hp
  have hflow : Flowing os base job.background job.fds.octx.realFds (l.early (n - 1))
      (l.late (n - 1)) l.sys.store l.pc := h.flow
  rw [hpc] at hflow
  rw [Shell.flushStep, hT.tmpFd]
  cases p with
  | start =>
    dsimp only
    rw [Sys.rewind_eq htfd]
    exact hflow.rewind
  | read =>
    have hread := hflow.read
    dsimp only
    rw [Sys.read_eq htfd]
    dsimp only
    by_cases hnil : (l.sys.store.read .outTmp bufSize).1 = []
    · rw [if_pos hnil] at hread ⊢
      exact hread
    · rw [if_neg hnil] at hread ⊢
      exact hread
  | write buf rest =>
    cases rest with
    | nil => exact hflow.written
    | cons fd rest =>
      obtain ⟨m, hm, hwrite⟩ := hflow.write hT.length_eq
      dsimp only
      rw [Sys.write_eq (hfds m fd hm)]
      exact hwrite
  | close => exact hflow
  | done => exact absurd rfl hp

/-- **A write of a stage**: of the last one to the staging file, of any other to its pipe. -/
theorem Delivering.stageWrite (h : Delivering os base n job t l) (hT : HasTargets os n tfd job)
    {kid : Kid} (hkid : kid ∈ l.job.kids) (bs : List Byte)
    (hheld : Held t job.fds (l.stageWrite kid bs)) :
    Delivering os base n job t (l.stageWrite kid bs) := by
  have hout := hT.stdout kid (h.job_eq ▸ hkid)
  obtain ⟨data, pos, written, sent, hdesc, hdata, htargets, hflow⟩ := h.flow
  by_cases hlast : kid.stage = n - 1
  · rw [if_pos hlast] at hout
    have hbytes := Store.bytes_of_data hdata
    have hself := Store.desc_write_self hdesc bs
    have hfile := Store.data_write_self hdesc bs
    have hframe : Targets os base (l.sys.store.write .outTmp bs) sent := by
      refine htargets.frame (fun k => Store.desc_write_of_ne _ Handle.noConfusion bs) fun p => ?_
      refine Store.data_write_of_ne _ (fun d hd => ?_) bs
      rw [hdesc] at hd
      cases hd
      exact File.noConfusion
    have hpipes : ∀ j, (l.sys.store.write .outTmp bs).desc (.pipeW j) = none := fun j => by
      rw [Store.desc_write_of_ne _ Handle.noConfusion, h.pipes]
    simp only [hbytes, Bool.false_eq_true, if_false] at hself hfile
    rw [Life.stageWrite, hout, hlast] at hheld ⊢
    dsimp only at hheld ⊢
    by_cases hpc : l.pc.BeforeFlush
    · rw [if_pos hpc] at hheld ⊢
      refine ⟨h.job_eq, hheld, h.foreground, hpipes, _, _, _, sent, hself, hfile, hframe, ?_⟩
      dsimp only
      rw [Function.update_self]
      exact hflow.write_early hpc bs
    · rw [if_neg hpc] at hheld ⊢
      refine ⟨h.job_eq, hheld, h.foreground, hpipes, _, _, _, sent, hself, hfile, hframe, ?_⟩
      dsimp only
      rw [Function.update_self]
      exact hflow.write_late hpc bs
  · rw [if_neg hlast] at hout
    have hne : n - 1 ≠ kid.stage := fun heq => hlast heq.symm
    rw [Life.stageWrite, hout] at hheld ⊢
    dsimp only at hheld ⊢
    rw [Store.write_of_none _ (h.pipes kid.stage)] at hheld ⊢
    by_cases hpc : l.pc.BeforeFlush
    · rw [if_pos hpc] at hheld ⊢
      refine ⟨h.job_eq, hheld, h.foreground, h.pipes, data, pos, written, sent, hdesc, hdata,
        htargets, ?_⟩
      dsimp only
      rw [Function.update_of_ne hne]
      exact hflow
    · rw [if_neg hpc] at hheld ⊢
      refine ⟨h.job_eq, hheld, h.foreground, h.pipes, data, pos, written, sent, hdesc, hdata,
        htargets, ?_⟩
      dsimp only
      rw [Function.update_of_ne hne]
      exact hflow

/-- **An event keeps the invariant.** -/
theorem delivering_step (hT : HasTargets os n tfd job) (l : Life) (e : Event) (l' : Life)
    (h : Delivering os base n job t l) (hstep : l.step e = some l') :
    Delivering os base n job t l' := by
  have hheld : Held t job.fds l' :=
    held_step (fun hnone => by rw [hT.tmpFd] at hnone; cases hnone) l e l' h.held hstep
  have hmoves := Life.moves_of_step hstep
  have hjob : l'.job = job := hmoves.job_eq.trans h.job_eq
  have hpipes : ∀ j, l'.sys.store.desc (.pipeW j) = none := fun j =>
    hmoves.desc_of_none (h.pipes j)
  cases hmoves with
  | write kid bs hkid => exact h.stageWrite hT hkid bs hheld
  | closeEnds hpc =>
    obtain ⟨data, pos, written, sent, hflow⟩ := h.flow
    rw [hpc] at hflow
    refine ⟨hjob, hheld, fun p hp => (nomatch hp), hpipes, data, pos, written, sent, ?_⟩
    rw [Life.store_closeEnds]
    exact hflow
  | leave hpc hbg =>
    obtain ⟨data, pos, written, sent, hdesc, hdata, htargets, hflow⟩ := h.flow
    rw [hpc] at hflow
    rw [h.job_eq] at hbg
    refine ⟨hjob, hheld, fun p hp => (nomatch hp), hpipes, data, pos, written, sent, hdesc, hdata,
      htargets, ?_⟩
    rw [Flow, if_pos hbg]
    exact hflow.2.2.2
  | flush hpc hbg =>
    obtain ⟨data, pos, written, sent, hflow⟩ := h.flow
    rw [hpc] at hflow
    exact ⟨hjob, hheld, fun p hp => h.job_eq ▸ hbg, hpipes, data, pos, written, sent, hflow⟩
  | copy p hpc hp =>
    have hstep := h.flushStep hT hpc hp
    rw [← h.job_eq] at hstep
    exact ⟨hjob, hheld, fun q hq => h.foreground p hpc, hpipes, h.job_eq ▸ hstep⟩
  | leaveFlushed hpc =>
    obtain ⟨data, pos, written, sent, hdesc, hdata, htargets, hflow⟩ := h.flow
    rw [hpc] at hflow
    refine ⟨hjob, hheld, fun p hp => (nomatch hp), hpipes, data, pos, written, sent, hdesc, hdata,
      htargets, ?_⟩
    rw [Flow, h.foreground _ hpc]
    exact hflow

end Delivery

/-! ## From the launch on -/

section Launch

variable {env : Env} {background : Bool} {pipeline : List Commands} {s s' : Sys} {job : Started}

/-- The files the targets had before the launch are those they had before they were opened. -/
theorem InputStaged.baseBytes_eq {taken : Taken} {c : Commands}
    {store store' : Store Handle File Byte} {inFd : InFd}
    (h : InputStaged env taken c store store' inFd) :
    baseBytes store' = baseBytes store := by
  funext o
  rw [baseBytes, baseBytes, Store.bytes, Store.bytes, h.frame.data _ File.noConfusion]

/-- A launch with targets has a staging file, and its last stage writes to it. -/
theorem launch_hasTargets (hs : AtPrompt s) (hne : (pipeline.getLastD {}).outFiles ≠ [])
    (h : launch env background pipeline s = (.started job, s')) :
    ∃ tfd, HasTargets (pipeline.getLastD {}).outFiles pipeline.length tfd job := by
  obtain ⟨store, -, hout⟩ := launchTaking_staged hs h
  obtain ⟨resolved, out, s₁, s₂, s₃, -, -, hforked⟩ := launchTaking_started h
  obtain ⟨tfd, htfd⟩ := Option.ne_none_iff_exists'.mp (mt hout.none_iff.mp hne)
  refine ⟨tfd, htfd, hout.length_eq, fun kid hkid => ?_⟩
  obtain ⟨hlt, -, hstdout, -⟩ := hforked.kid_fds hs hkid
  rw [hstdout, Fds.stdout, htfd]
  by_cases hlast : kid.stage < pipeline.length - 1
  · rw [if_pos hlast, if_neg (by omega)]
  · rw [if_neg hlast, if_pos (by omega)]

/-- **The invariant holds when the children have just been forked.** -/
theorem launch_delivering (hs : AtPrompt s) (hne : (pipeline.getLastD {}).outFiles ≠ [])
    (h : launch env background pipeline s = (.started job, s')) :
    Delivering (pipeline.getLastD {}).outFiles (baseBytes s.store) pipeline.length job s.fds
      (.init job s') := by
  obtain ⟨store, hin, hout⟩ := launchTaking_staged hs h
  obtain ⟨resolved, out, s₁, s₂, s₃, -, -, hforked⟩ := launchTaking_started h
  obtain ⟨hdata, hdesc⟩ := hout.staged hne
  refine ⟨rfl, ⟨rfl, hforked.grows⟩, fun p hp => (nomatch hp), fun j => ?_, [], 0, [], fun _ => [],
    hdesc, hdata, ?_, rfl, rfl, rfl, fun _ _ => rfl⟩
  · change s'.store.desc (.pipeW j) = none
    rw [hout.desc _ Handle.noConfusion fun _ _ => Handle.noConfusion,
      hin.frame.desc _ Handle.noConfusion fun _ _ => Handle.noConfusion, hs.desc]
  · rw [← hin.baseBytes_eq]
    exact hout.targets

/-- …and ever after. -/
theorem delivering_run (hs : AtPrompt s) (hne : (pipeline.getLastD {}).outFiles ≠ [])
    (h : launch env background pipeline s = (.started job, s')) {events : List Event} {l : Life}
    (hrun : run Life.step (.init job s') events = some l) :
    Delivering (pipeline.getLastD {}).outFiles (baseBytes s.store) pipeline.length job s.fds l := by
  obtain ⟨tfd, hT⟩ := launch_hasTargets hs hne h
  exact invariant' (delivering_step hT) (launch_delivering hs hne h) hrun

end Launch

/-! ## Delivered and timely -/

/-- The event is no write of the last of `n` stages that `flush_output` comes too early for: in the
background, where it is never called, any write is. -/
def Life.Timely (n : ℕ) (l : Life) : Event → Prop
  | .shell => True
  | .write i bs => i = n - 1 → bs = [] ∨ (l.job.background = false ∧ l.pc.BeforeFlush)

/-- **Every target holds what the last stage wrote in its whole life**, on top of its old content
for `>>`. -/
def Delivered (pipeline : List Commands) (s : Sys) (l : Life) : Prop :=
  ∀ o ∈ (pipeline.getLastD {}).outFiles, l.sys.store.data (.path o.file)
    = some (baseBytes s.store o ++ l.written (pipeline.length - 1))

/-- No byte of the last stage has missed the targets. -/
def NoneMissed (n : ℕ) (l : Life) : Prop :=
  (l.job.background = true → l.early (n - 1) = []) ∧ l.late (n - 1) = []

theorem noneMissed_step (n : ℕ) (l : Life) (e : Event) (l' : Life) (h : l.step e = some l') :
    NoneMissed n l' ↔ NoneMissed n l ∧ l.Timely n e := by
  have hmoves := Life.moves_of_step h
  cases hmoves with
  | write kid bs hkid =>
    rw [NoneMissed, NoneMissed, Life.Timely, Life.stageWrite]
    dsimp only
    by_cases hlast : kid.stage = n - 1
    · by_cases hpc : l.pc.BeforeFlush
      · rw [if_pos hpc]
        dsimp only
        rw [hlast, Function.update_self, List.append_eq_nil_iff]
        cases l.job.background <;> simp [hpc, and_right_comm, and_assoc]
      · rw [if_neg hpc]
        dsimp only
        rw [hlast, Function.update_self, List.append_eq_nil_iff]
        simp [hpc, and_assoc]
    · have hne : n - 1 ≠ kid.stage := fun heq => hlast heq.symm
      split <;> simp [hlast, Function.update_of_ne hne]
  | closeEnds hpc | leave hpc hbg | flush hpc hbg | copy p hpc hp | leaveFlushed hpc =>
    exact (and_iff_left trivial).symm

/-- **When the shell has returned, every target was sent the same**, and that is all the last stage
wrote exactly when nothing has missed the targets. -/
theorem Delivering.sent_eq {os : List OutFile} {base : OutFile → List Byte} {n tfd : ℕ}
    {job : Started} {t : FdTable Handle} {l : Life} (h : Delivering os base n job t l)
    (hT : HasTargets os n tfd job) (hret : l.pc = .returned) :
    ∃ got, Targets os base l.sys.store (fun _ => got) ∧
      (got = l.written (n - 1) ↔ NoneMissed n l) := by
  obtain ⟨data, pos, written, sent, -, -, htargets, hflow⟩ := h.flow
  rw [hret, Flow, hT.length_eq] at hflow
  rw [NoneMissed, h.job_eq, Life.written]
  cases hbg : job.background with
  | true =>
    rw [hbg, if_pos rfl] at hflow
    refine ⟨[], htargets.congr fun k hk => (hflow k hk).symm, ?_⟩
    rw [eq_comm, List.append_eq_nil_iff]
    simp
  | false =>
    rw [hbg, if_neg Bool.false_ne_true, AllSent, hT.length_eq] at hflow
    obtain ⟨got, hstaged, hend, hgot⟩ := hflow
    refine ⟨got, htargets.congr fun k hk => (hgot k hk).symm, ?_⟩
    rw [hstaged.got_eq_iff hend]
    simp

/-- So the targets hold everything exactly when nothing has missed them. -/
theorem Delivering.delivered_iff {os : List OutFile} {base : OutFile → List Byte} {n tfd : ℕ}
    {job : Started} {t : FdTable Handle} {l : Life} (h : Delivering os base n job t l)
    (hT : HasTargets os n tfd job) (hne : os ≠ []) (hnodup : (os.map OutFile.file).Nodup)
    (hret : l.pc = .returned) :
    (∀ o ∈ os, l.sys.store.data (.path o.file) = some (base o ++ l.written (n - 1))) ↔
      NoneMissed n l := by
  obtain ⟨got, htargets, hiff⟩ := h.sent_eq hT hret
  have hdata : ∀ o ∈ os, l.sys.store.data (.path o.file) = some (base o ++ got) := by
    intro o ho
    obtain ⟨k, hk⟩ := List.mem_iff_getElem?.mp ho
    obtain ⟨pos, -, hfile⟩ := htargets k o hk
    exact (hfile hnodup).1
  rw [← hiff]
  constructor
  · intro hall
    obtain ⟨o, ho⟩ := List.exists_mem_of_ne_nil os hne
    have hboth := (hdata o ho).symm.trans (hall o ho)
    exact List.append_cancel_left (Option.some.inj hboth)
  · rintro rfl o ho
    exact hdata o ho

/-- **The targets of a pipeline get everything its last stage wrote exactly when each of its writes
was timely.** -/
theorem launch_delivered_iff {env : Env} {background : Bool} {pipeline : List Commands} {s s' : Sys}
    {job : Started} {events : List Event} {l : Life} (hs : AtPrompt s)
    (hne : (pipeline.getLastD {}).outFiles ≠ [])
    (hnodup : ((pipeline.getLastD {}).outFiles.map OutFile.file).Nodup)
    (h : launch env background pipeline s = (.started job, s'))
    (hrun : run Life.step (.init job s') events = some l) (hret : l.pc = .returned) :
    Delivered pipeline s l ↔
      Along Life.step (Life.Timely pipeline.length) (.init job s') events := by
  obtain ⟨tfd, hT⟩ := launch_hasTargets hs hne h
  have hdelivering := delivering_run hs hne h hrun
  have hflag := along_iff (noneMissed_step pipeline.length) hrun
  have hinit : NoneMissed pipeline.length (.init job s') := ⟨fun _ => rfl, rfl⟩
  rw [Delivered, hdelivering.delivered_iff hT hne hnodup hret, hflag]
  exact and_iff_right hinit

/-- `a > f`, which writes one byte and terminates while the shell waits. -/
theorem launch_delivered_foreground :
    let s := Sys.prompt fun _ => none
    let pipeline : List Commands := [⟨[['a']], [], [⟨['f'], false⟩]⟩]
    ∃ l, Life.ofLaunch .obliging false pipeline s
        ([.shell, .write 0 [120]] ++ List.replicate 8 .shell) = some l ∧
      l.pc = .returned ∧ Delivered pipeline s l := by
  intro s pipeline
  have hreturned : (Life.ofLaunch .obliging false pipeline s
      ([.shell, .write 0 [120]] ++ List.replicate 8 .shell)).map (·.pc) = some .returned := by
    decide
  obtain ⟨l, hl, hpc⟩ := Option.map_eq_some_iff.mp hreturned
  obtain ⟨job, s', hlaunch, hrun⟩ := Life.ofLaunch_eq_some hl
  have hout : (pipeline.getLastD {}).outFiles ≠ [] := List.cons_ne_nil _ _
  have hnodup : ((pipeline.getLastD {}).outFiles.map OutFile.file).Nodup := List.nodup_singleton _
  refine ⟨l, hl, hpc,
    (launch_delivered_iff (atPrompt_prompt _) hout hnodup hlaunch hrun hpc).mpr ?_⟩
  have hshell : ∀ (k : ℕ) (l : Life),
      Along Life.step (Life.Timely 1) l (List.replicate k .shell) := by
    intro k
    induction k with
    | zero => exact fun _ => trivial
    | succ k ih => exact fun l => ⟨trivial, fun l' _ => ih l'⟩
  have hfg : job.background = false := by
    obtain ⟨_, _, _, _, _, -, -, hforked⟩ := launchTaking_started hlaunch
    exact hforked.background_eq
  refine ⟨trivial, fun l₁ h₁ => ⟨fun _ => .inr ?_, fun l₂ _ => hshell 8 l₂⟩⟩
  cases h₁
  exact ⟨hfg, trivial⟩

/-- **Bytes are lost**: those of `a > f &` always, and those `a > f` writes after it was stopped and
`flush_output` has run. -/
theorem not_delivered :
    let s := Sys.prompt fun _ => none
    let pipeline : List Commands := [⟨[['a']], [], [⟨['f'], false⟩]⟩]
    (∃ l, Life.ofLaunch .obliging true pipeline s [.shell, .write 0 [120], .shell] = some l ∧
      l.pc = .returned ∧ ¬ Delivered pipeline s l) ∧
    ∃ l, Life.ofLaunch .obliging false pipeline s
        (List.replicate 6 .shell ++ [.write 0 [120]]) = some l ∧
      l.pc = .returned ∧ ¬ Delivered pipeline s l := by
  intro s pipeline
  have hlost : ∀ bg events, (Life.ofLaunch .obliging bg pipeline s events).map
      (fun l => (l.pc, l.sys.store.data (.path ['f']), l.written 0))
        = some (.returned, some [], [120]) →
      ∃ l, Life.ofLaunch .obliging bg pipeline s events = some l ∧ l.pc = .returned ∧
        ¬ Delivered pipeline s l := by
    intro bg events hmap
    obtain ⟨l, hl, hstate⟩ := Option.map_eq_some_iff.mp hmap
    obtain ⟨hpc, hrest⟩ := Prod.mk.inj hstate
    obtain ⟨hdata, hwritten⟩ := Prod.mk.inj hrest
    refine ⟨l, hl, hpc, fun hall => ?_⟩
    have hf := hall ⟨['f'], false⟩ (List.mem_singleton_self _)
    rw [hdata, show pipeline.length - 1 = 0 from rfl, hwritten] at hf
    exact absurd hf (by decide)
  exact ⟨hlost true _ (by decide), hlost false _ (by decide)⟩

end MiniProject.Shell
