import Mathlib.Data.List.Perm.Subperm
import MiniProject.Shell.Delivery

/-!
# Shell/Redirections — which redirections of a pipeline take effect

`run_cmd` collects the redirections of every stage, and both launches then look at two lists only:
`in_files` of the first stage and `out_files` of the last.  What stands anywhere else is never
opened, nor asked whether it exists.  So a pipeline that gets going honours all its redirections
exactly when it has none elsewhere, every input file can be opened, and nothing misses its targets
(`takesEffect_iff`).
-/

namespace MiniProject.Shell

/-! ## What the redirections of a pipeline ask for -/

/-- An input file that is not there, on whatever stage, keeps the command from running. -/
def MissingStops (env : Env) (background : Bool) (pipeline : List Commands) (s : Sys) : Prop :=
  (∃ c ∈ pipeline, ∃ f ∈ c.inFiles, s.store.data (.path f) = none) →
    (launch env background pipeline s).1 = .refused

/-- **Every input file is read into the stdin of its own stage**: each is opened, and the child of
the stage finds at its stdin what they hold, one after the other. -/
def InputsTaken (pipeline : List Commands) (s s' : Sys) (job : Started) : Prop :=
  ∀ i c, pipeline[i]? = some c → c.inFiles ≠ [] →
    (∀ f ∈ c.inFiles, ∃ k d, s'.store.desc (.inFile k) = some d ∧ d.file = .path f) ∧
    ∃ kid ∈ job.kids, kid.stage = i ∧ ∃ h d, kid.fds.get 0 = some h ∧
      s'.store.desc h = some d ∧ d.pos = 0 ∧
      s'.store.data d.file = some (c.inFiles.flatMap fun f => s.store.bytes (.path f))

/-- **Every output file is opened for its own stage and gets what that stage wrote**: entry `k` of
stage `i` is target `opened i k`, with no target for two entries. -/
def OutputsTaken (pipeline : List Commands) (l : Life) : Prop :=
  ∃ opened : ℕ → ℕ → ℕ,
    (∀ i c k i' c' k', pipeline[i]? = some c → k < c.outFiles.length →
      pipeline[i']? = some c' → k' < c'.outFiles.length → opened i k = opened i' k' →
        i = i' ∧ k = k') ∧
    ∀ i c k o, pipeline[i]? = some c → c.outFiles[k]? = some o →
      ∃ d, l.sys.store.desc (.target (opened i k)) = some d ∧
        d.file = .path o.file ∧ d.append = o.append ∧ d.sent = l.written i

/-- **Every redirection of a pipeline takes effect** in the life that the events make up. -/
structure TakesEffect (env : Env) (background : Bool) (pipeline : List Commands) (s : Sys)
    (events : List Event) : Prop where
  missing : MissingStops env background pipeline s
  inputs : ∀ job s', launch env background pipeline s = (.started job, s') →
    InputsTaken pipeline s s' job
  outputs : ∀ job s' l, launch env background pipeline s = (.started job, s') →
    run Life.step (.init job s') events = some l → OutputsTaken pipeline l

/-- The events make up a whole life, if the launch starts something. -/
def Complete (env : Env) (background : Bool) (pipeline : List Commands) (s : Sys)
    (events : List Event) : Prop :=
  ∀ job s', launch env background pipeline s = (.started job, s') →
    ∃ l, run Life.step (.init job s') events = some l ∧ l.pc = .returned

/-- **The redirections the shell looks at are all there are**, and it can honour them: input files
on the first stage, all of which can be opened; output files on the last, written to in time. -/
structure AtTheEnds (env : Env) (background : Bool) (pipeline : List Commands) (s : Sys)
    (events : List Event) : Prop where
  input : ∀ i c, pipeline[i]? = some c → 0 < i → c.inFiles = []
  output : ∀ i c, pipeline[i]? = some c → i + 1 < pipeline.length → c.outFiles = []
  readable : ∀ f ∈ (pipeline.headD {}).inFiles, env.readable f = true
  timely : (pipeline.getLastD {}).outFiles ≠ [] → ∀ job s',
    launch env background pipeline s = (.started job, s') →
      Along Life.step (Life.Timely pipeline.length) (.init job s') events

section Effect

variable {env : Env} {background : Bool} {pipeline : List Commands} {s s' : Sys} {job : Started}
  {events : List Event} {l : Life}

/-! ## The files that are looked at -/

theorem getElem?_zero_eq {c : Commands} (h : pipeline[0]? = some c) : pipeline.headD {} = c := by
  cases pipeline with
  | nil => cases h
  | cons c' cs => exact Option.some.inj h

theorem getElem?_last_eq {i : ℕ} {c : Commands} (h : pipeline[i]? = some c)
    (hi : ¬ i + 1 < pipeline.length) : pipeline.getLastD {} = c := by
  obtain ⟨hlt, hget⟩ := List.getElem?_eq_some_iff.mp h
  have hne : pipeline ≠ [] := fun heq => by
    rw [heq] at hlt
    exact Nat.not_lt_zero _ hlt
  have hlast : i = pipeline.length - 1 := by omega
  subst hlast
  rw [List.getLastD_eq_getLast?, List.getLast?_eq_some_getLast hne, Option.getD_some,
    List.getLast_eq_getElem hne]
  exact hget

/-- What the launch opened, read and left alone. -/
theorem launch_inFile (hs : AtPrompt s) (h : launch env background pipeline s = (.started job, s'))
    (k : ℕ) : (s'.store.desc (.inFile k)).map Desc.file
      = ((pipeline.headD {}).inFiles[k]?.filter env.readable).map File.path := by
  obtain ⟨store, hin, hout⟩ := launchTaking_staged hs h
  rw [hout.desc _ Handle.noConfusion fun _ _ => Handle.noConfusion, hin.opened]

theorem launch_pipe_none (hs : AtPrompt s)
    (h : launch env background pipeline s = (.started job, s')) (j : ℕ) :
    s'.store.desc (.pipeR j) = none := by
  obtain ⟨store, hin, hout⟩ := launchTaking_staged hs h
  rw [hout.desc _ Handle.noConfusion fun _ _ => Handle.noConfusion,
    hin.frame.desc _ Handle.noConfusion fun _ _ => Handle.noConfusion, hs.desc]

theorem launch_target_none (hs : AtPrompt s)
    (h : launch env background pipeline s = (.started job, s')) {j : ℕ}
    (hj : (pipeline.getLastD {}).outFiles.length ≤ j) : s'.store.desc (.target j) = none := by
  obtain ⟨store, hin, hout⟩ := launchTaking_staged hs h
  have hne : ∀ k < (pipeline.getLastD {}).outFiles.length, Handle.target j ≠ .target k := by
    intro k hk heq
    have := Handle.target.inj heq
    omega
  rw [hout.desc _ Handle.noConfusion hne,
    hin.frame.desc _ Handle.noConfusion fun _ _ => Handle.noConfusion, hs.desc]

/-! ## Inputs -/

/-- **The first stage finds the staged input at its stdin**, from its start on. -/
theorem launchTaking_stdin {taken : Taken} (hs : AtPrompt s) {c : Commands}
    (hc : pipeline[0]? = some c) (hargv : c.argv ≠ []) (hne : c.inFiles ≠ [])
    (h : launchTaking env taken background pipeline s = (.started job, s')) :
    ∃ x d, s'.store.desc x = some d ∧ d.pos = 0 ∧
      s'.store.data d.file = some (stagedInput env taken s.store c) ∧
      (∃ kid ∈ job.kids, kid.stage = 0) ∧
      ∀ kid ∈ job.kids, kid.stage = 0 → kid.fds.get 0 = some x := by
  obtain ⟨store, hin, hout⟩ := launchTaking_staged hs h
  obtain ⟨resolved, out, s₁, s₂, s₃, -, -, hforked⟩ := launchTaking_started h
  rw [getElem?_zero_eq hc] at hin
  obtain ⟨hdata, sent, hdesc⟩ := hin.staged hne
  have htmp : ∃ d, job.fds.inFd = .fd d := by
    cases hfd : job.fds.inFd with
    | fd d => exact ⟨d, rfl⟩
    | none => exact absurd (hin.none_iff.mp hfd) hne
    | failed => exact absurd hfd hforked.inFd_ne
  obtain ⟨d, hd⟩ := htmp
  refine ⟨.inTmp, ⟨.inTmp, false, 0, sent⟩, ?_, rfl, ?_, hforked.exists_kid hc hargv,
    fun kid hmem hstage => ?_⟩
  · rw [hout.desc _ Handle.noConfusion fun _ _ => Handle.noConfusion, hdesc]
  · rw [hout.data _ File.noConfusion fun _ _ => File.noConfusion, hdata]
  · rw [(hforked.kid_fds hs hmem).2.1, hstage, Fds.stdin, if_neg (Nat.lt_irrefl 0), hd]

/-- Input files on the first stage only, which can be opened, reach its stdin. -/
theorem inputsTaken_of_atTheEnds (hs : AtPrompt s) (hargv : ∀ c ∈ pipeline, c.argv ≠ [])
    (h : launch env background pipeline s = (.started job, s'))
    (hinput : ∀ i c, pipeline[i]? = some c → 0 < i → c.inFiles = [])
    (hreadable : ∀ f ∈ (pipeline.headD {}).inFiles, env.readable f = true) :
    InputsTaken pipeline s s' job := by
  intro i c hc hne
  obtain rfl : i = 0 := by
    by_contra hi
    exact hne (hinput i c hc (Nat.pos_of_ne_zero hi))
  have hhead := getElem?_zero_eq hc
  rw [hhead] at hreadable
  constructor
  · intro f hf
    obtain ⟨k, hk⟩ := List.mem_iff_getElem?.mp hf
    have hfile := launch_inFile hs h k
    rw [hhead, hk, Option.filter_some, if_pos (hreadable f hf)] at hfile
    obtain ⟨d, hd, hdf⟩ := Option.map_eq_some_iff.mp hfile
    exact ⟨k, d, hd, hdf⟩
  · obtain ⟨x, d, hd, hpos, hdata, ⟨kid, hmem, hstage⟩, hstdin⟩ :=
      launchTaking_stdin hs hc (hargv c (List.mem_of_getElem? hc)) hne h
    refine ⟨kid, hmem, hstage, x, d, hstdin kid hmem hstage, hd, hpos, ?_⟩
    rw [hdata, stagedInput_eq_iff.mpr fun y hy =>
      .inl ⟨hreadable y.1 (List.fst_mem_of_mem_zipIdx hy), takesAll_whole _ _ _⟩]

/-- A stage behind a pipe reads from the pipe, whatever its input files. -/
theorem inFiles_eq_nil_of_inputsTaken (hs : AtPrompt s)
    (h : launch env background pipeline s = (.started job, s'))
    (htaken : InputsTaken pipeline s s' job) {i : ℕ} {c : Commands}
    (hc : pipeline[i]? = some c) (hi : 0 < i) : c.inFiles = [] := by
  by_contra hne
  obtain ⟨-, kid, hmem, rfl, x, d, hx, hd, -⟩ := htaken i c hc hne
  obtain ⟨resolved, out, s₁, s₂, s₃, -, -, hforked⟩ := launchTaking_started h
  rw [(hforked.kid_fds hs hmem).2.1, Fds.stdin, if_pos hi] at hx
  cases hx
  rw [launch_pipe_none hs h] at hd
  cases hd

/-- An input file that was opened can be opened. -/
theorem readable_of_inputsTaken (hs : AtPrompt s)
    (h : launch env background pipeline s = (.started job, s'))
    (htaken : InputsTaken pipeline s s' job) {f : Text} (hf : f ∈ (pipeline.headD {}).inFiles) :
    env.readable f = true := by
  have hne : (pipeline.headD {}).inFiles ≠ [] := List.ne_nil_of_mem hf
  have hhead : pipeline[0]? = some (pipeline.headD {}) := by
    cases pipeline with
    | nil => cases hf
    | cons c cs => rfl
  obtain ⟨k, d, hd, hdf⟩ := (htaken 0 _ hhead hne).1 f hf
  have hfile := launch_inFile hs h k
  rw [hd, Option.map_some, hdf, eq_comm, Option.map_eq_some_iff] at hfile
  obtain ⟨f', hf', heq⟩ := hfile
  cases heq
  exact (Option.filter_eq_some_iff.mp hf').2

/-! ## Outputs -/

/-- The life of a launch without targets never has any. -/
theorem target_none_of_run (hs : AtPrompt s)
    (h : launch env background pipeline s = (.started job, s'))
    (hrun : run Life.step (.init job s') events = some l) {j : ℕ}
    (hj : (pipeline.getLastD {}).outFiles.length ≤ j) : l.sys.store.desc (.target j) = none :=
  Life.desc_of_run hrun (launch_target_none hs h hj)

/-- Output files on the last stage only, written to in time, get what the stage wrote. -/
theorem outputsTaken_of_atTheEnds (hs : AtPrompt s)
    (h : launch env background pipeline s = (.started job, s'))
    (hrun : run Life.step (.init job s') events = some l) (hret : l.pc = .returned)
    (houtput : ∀ i c, pipeline[i]? = some c → i + 1 < pipeline.length → c.outFiles = [])
    (htimely : (pipeline.getLastD {}).outFiles ≠ [] →
      Along Life.step (Life.Timely pipeline.length) (.init job s') events) :
    OutputsTaken pipeline l := by
  have hlast : ∀ i c k, pipeline[i]? = some c → k < c.outFiles.length →
      pipeline.getLastD {} = c ∧ i = pipeline.length - 1 := by
    intro i c k hc hk
    have hi : ¬ i + 1 < pipeline.length := fun hi => by
      rw [houtput i c hc hi] at hk
      exact Nat.not_lt_zero _ hk
    have hlt := (List.getElem?_eq_some_iff.mp hc).1
    exact ⟨getElem?_last_eq hc hi, by omega⟩
  refine ⟨fun _ k => k, ?_, ?_⟩
  · intro i c k i' c' k' hc hk hc' hk' heq
    exact ⟨(hlast i c k hc hk).2.trans (hlast i' c' k' hc' hk').2.symm, heq⟩
  · intro i c k o hc ho
    obtain ⟨heq, rfl⟩ := hlast i c k hc (List.getElem?_eq_some_iff.mp ho).1
    have hne : (pipeline.getLastD {}).outFiles ≠ [] := by
      rw [heq]
      exact List.ne_nil_of_mem (List.mem_of_getElem? ho)
    obtain ⟨tfd, hT⟩ := launch_hasTargets hs hne h
    obtain ⟨got, htargets, hiff⟩ := (delivering_run hs hne h hrun).sent_eq hT hret
    have hmissed := (along_iff (noneMissed_step pipeline.length) hrun).mpr
      ⟨⟨fun _ => rfl, rfl⟩, htimely hne⟩
    rw [heq] at htargets
    obtain ⟨pos, hd, -⟩ := htargets k o ho
    exact ⟨_, hd, rfl, rfl, hiff.mpr hmissed⟩

/-- What an entry is opened as is one of the targets. -/
theorem opened_lt (hs : AtPrompt s) (h : launch env background pipeline s = (.started job, s'))
    (hrun : run Life.step (.init job s') events = some l) {j : ℕ} {d : Desc File Byte}
    (hd : l.sys.store.desc (.target j) = some d) : j < (pipeline.getLastD {}).outFiles.length := by
  by_contra hj
  rw [target_none_of_run hs h hrun (Nat.le_of_not_lt hj)] at hd
  cases hd

theorem getElem?_pred_length (hne : pipeline ≠ []) :
    pipeline[pipeline.length - 1]? = some (pipeline.getLastD {}) := by
  rw [← List.getLast?_eq_getElem?, List.getLastD_eq_getLast?, List.getLast?_eq_some_getLast hne]
  rfl

/-- Targets that got what the last stage wrote were written to in time. -/
theorem timely_of_outputsTaken (hs : AtPrompt s)
    (h : launch env background pipeline s = (.started job, s'))
    (hrun : run Life.step (.init job s') events = some l) (hret : l.pc = .returned)
    (htaken : OutputsTaken pipeline l) (hne : (pipeline.getLastD {}).outFiles ≠ []) :
    Along Life.step (Life.Timely pipeline.length) (.init job s') events := by
  have hpipe : pipeline ≠ [] := fun heq => hne (by rw [heq]; rfl)
  obtain ⟨opened, -, hopened⟩ := htaken
  obtain ⟨o, ho⟩ := List.exists_mem_of_ne_nil _ hne
  obtain ⟨k, hk⟩ := List.mem_iff_getElem?.mp ho
  obtain ⟨d, hd, -, -, hsent⟩ := hopened _ _ k o (getElem?_pred_length hpipe) hk
  have hlt := opened_lt hs h hrun hd
  obtain ⟨tfd, hT⟩ := launch_hasTargets hs hne h
  obtain ⟨got, htargets, hiff⟩ := (delivering_run hs hne h hrun).sent_eq hT hret
  obtain ⟨pos, hd', -⟩ := htargets _ _ (List.getElem?_eq_getElem hlt)
  rw [hd] at hd'
  cases hd'
  exact ((along_iff (noneMissed_step pipeline.length) hrun).mp (hiff.mp hsent)).2

/-- There is a target for every entry of the last stage and none for any other. -/
theorem outFiles_eq_nil_of_outputsTaken (hs : AtPrompt s)
    (h : launch env background pipeline s = (.started job, s'))
    (hrun : run Life.step (.init job s') events = some l) (htaken : OutputsTaken pipeline l) {i : ℕ}
    {c : Commands} (hc : pipeline[i]? = some c) (hi : i + 1 < pipeline.length) :
    c.outFiles = [] := by
  have hpipe : pipeline ≠ [] := fun heq => by
    rw [heq] at hc
    cases hc
  have hlast := getElem?_pred_length hpipe
  obtain ⟨opened, hinj, hopened⟩ := htaken
  have hlt : ∀ i c k, pipeline[i]? = some c → k < c.outFiles.length →
      opened i k < (pipeline.getLastD {}).outFiles.length := by
    intro i c k hc hk
    obtain ⟨d, hd, -⟩ := hopened i c k _ hc (List.getElem?_eq_getElem hk)
    exact opened_lt hs h hrun hd
  by_contra hne
  have hpos : 0 < c.outFiles.length := List.length_pos_iff.mpr hne
  -- The entries of the last stage and one more would all be targets.
  have hnodup : (opened i 0 :: (List.range (pipeline.getLastD {}).outFiles.length).map
      (opened (pipeline.length - 1))).Nodup := by
    refine List.nodup_cons.mpr ⟨?_, ?_⟩
    · intro hmem
      obtain ⟨k, hk, heq⟩ := List.mem_map.mp hmem
      have := (hinj _ _ _ _ _ _ hlast (List.mem_range.mp hk) hc hpos heq).1
      omega
    · refine (List.nodup_range).map_on ?_
      intro k hk k' hk' heq
      exact (hinj _ _ _ _ _ _ hlast (List.mem_range.mp hk) hlast (List.mem_range.mp hk') heq).2
  have hsub : (opened i 0 :: (List.range (pipeline.getLastD {}).outFiles.length).map
      (opened (pipeline.length - 1))) ⊆ List.range (pipeline.getLastD {}).outFiles.length := by
    intro j hj
    rw [List.mem_range]
    rcases List.mem_cons.mp hj with rfl | hj
    · exact hlt i c 0 hc hpos
    · obtain ⟨k, hk, rfl⟩ := List.mem_map.mp hj
      exact hlt _ _ k hlast (List.mem_range.mp hk)
  have hlen := (List.subperm_of_subset hnodup hsub).length_le
  rw [List.length_cons, List.length_map, List.length_range] at hlen
  omega

/-! ## Both -/

/-- A missing file stops a pipeline that would take inputs on its first stage only. -/
theorem missingStops_of_input (hs : AtPrompt s)
    (hinput : Ready env background pipeline s.store →
      ∀ i c, pipeline[i]? = some c → 0 < i → c.inFiles = []) :
    MissingStops env background pipeline s := by
  rintro ⟨c, hc, f, hf, hmissing⟩
  cases hlaunch : launch env background pipeline s with
  | mk launched s' =>
    cases launched with
    | refused => rfl
    | builtin argv =>
      rw [(files_of_runsInShell (launchTaking_builtin hlaunch).2 hc).1] at hf
      cases hf
    | started job =>
      have hready := (launch_started_iff hs).mp ⟨job, s', hlaunch⟩
      obtain ⟨i, hi⟩ := List.mem_iff_getElem?.mp hc
      by_cases hpos : 0 < i
      · rw [hinput hready i c hi hpos] at hf
        cases hf
      · obtain rfl : i = 0 := by omega
        rw [← getElem?_zero_eq hi] at hf
        exact absurd hmissing (hready.input.1 f hf)

end Effect

/-- Every stage of a group has an argument. -/
theorem Group.argv_ne_nil {S : TokenType → Prop} (g : Group S) {c : Commands}
    (hc : c ∈ g.pipeline) : c.argv ≠ [] := by
  rcases List.mem_cons.mp hc with rfl | hc
  · exact List.cons_ne_nil _ _
  · obtain ⟨pc, -, rfl⟩ := List.mem_map.mp hc
    exact List.cons_ne_nil _ _

/-- **The redirections of a pipeline all take effect exactly when, if the launch gets going at all,
they are where the shell looks**: input files on the first stage, all of which can be opened, and
output files on the last, written to in time. -/
theorem takesEffect_iff {env : Env} {background : Bool} {S : TokenType → Prop} {g : Group S}
    {s : Sys} {events : List Event} (hs : AtPrompt s)
    (hlife : Complete env background g.pipeline s events) :
    TakesEffect env background g.pipeline s events ↔
      (Ready env background g.pipeline s.store →
        AtTheEnds env background g.pipeline s events) := by
  constructor
  · intro h hready
    obtain ⟨job, s', hlaunch⟩ := (launch_started_iff hs).mpr hready
    obtain ⟨l, hrun, hret⟩ := hlife job s' hlaunch
    have hin := h.inputs job s' hlaunch
    have hout := h.outputs job s' l hlaunch hrun
    refine ⟨fun i c hc hi => inFiles_eq_nil_of_inputsTaken hs hlaunch hin hc hi,
      fun i c hc hi => outFiles_eq_nil_of_outputsTaken hs hlaunch hrun hout hc hi,
      fun f hf => readable_of_inputsTaken hs hlaunch hin hf, fun hne job' s'' hlaunch' => ?_⟩
    rw [hlaunch] at hlaunch'
    cases hlaunch'
    exact timely_of_outputsTaken hs hlaunch hrun hret hout hne
  · intro h
    have hready : ∀ job s', launch env background g.pipeline s = (.started job, s') →
        AtTheEnds env background g.pipeline s events := fun job s' hlaunch =>
      h ((launch_started_iff hs).mp ⟨job, s', hlaunch⟩)
    refine ⟨missingStops_of_input hs fun hr => (h hr).input, fun job s' hlaunch => ?_,
      fun job s' l hlaunch hrun => ?_⟩
    · have hends := hready job s' hlaunch
      exact inputsTaken_of_atTheEnds hs (fun c hc => g.argv_ne_nil hc) hlaunch hends.input
        hends.readable
    · have hends := hready job s' hlaunch
      obtain ⟨l', hrun', hret⟩ := hlife job s' hlaunch
      rw [hrun] at hrun'
      cases hrun'
      exact outputsTaken_of_atTheEnds hs hlaunch hrun hret hends.output
        fun hne => hends.timely hne job s' hlaunch

/-- A life that the events lead through to the end. -/
theorem complete_of_ofLaunch {env : Env} {background : Bool} {pipeline : List Commands} {s : Sys}
    {events : List Event} (h : (Life.ofLaunch env background pipeline s events).map (·.pc)
      = some .returned) : Complete env background pipeline s events := by
  intro job s' hlaunch
  obtain ⟨l, hl, hpc⟩ := Option.map_eq_some_iff.mp h
  rw [Life.ofLaunch, hlaunch] at hl
  exact ⟨l, hl, hpc⟩

/-- `a < f | b`, with `f` there. -/
theorem takesEffect_iff_input :
    TakesEffect .obliging false
      (pipeOf ⟨wordTok ['a'], [.redir ⟨⟨.lt, []⟩, .inl rfl⟩ (wordTok ['f'])]⟩
        ⟨wordTok ['b'], []⟩).pipeline (Sys.prompt fun _ => some [120])
      (List.replicate 4 .shell) := by
  refine (takesEffect_iff (atPrompt_prompt _) (complete_of_ofLaunch (by decide))).mpr fun _ => ?_
  refine ⟨?_, ?_, fun _ _ => rfl, fun hne => absurd rfl hne⟩
  · rintro (_ | _ | i) c hc hi
    · exact absurd hi (Nat.lt_irrefl 0)
    · cases hc
      rfl
    · cases hc
  · rintro (_ | i) c hc hi
    · cases hc
      rfl
    · exact absurd hi (by simp [pipeOf, Group.pipeline])

/-- **Redirections are lost**: `a | b < g` starts though `g` is not there, and in `a > f | b`
nothing ever opens `f`. -/
theorem not_takesEffect :
    let s := Sys.prompt fun _ => none
    let g := pipeOf ⟨wordTok ['a'], []⟩
      ⟨wordTok ['b'], [.redir ⟨⟨.lt, []⟩, .inl rfl⟩ (wordTok ['g'])]⟩
    let g' := pipeOf ⟨wordTok ['a'], [.redir ⟨⟨.gt, []⟩, .inr (.inl rfl)⟩ (wordTok ['f'])]⟩
      ⟨wordTok ['b'], []⟩
    parsing g.tokens = .ok () ∧ parsing g'.tokens = .ok () ∧
      (∀ events, ¬ TakesEffect .obliging false g.pipeline s events) ∧
      Complete .obliging false g'.pipeline s (List.replicate 4 .shell) ∧
      ¬ TakesEffect .obliging false g'.pipeline s (List.replicate 4 .shell) := by
  intro s g g'
  have hlife : (Life.ofLaunch .obliging false g'.pipeline s (List.replicate 4 .shell)).map
      (·.pc) = some .returned := by decide
  refine ⟨rfl, rfl, fun events heffect => ?_, complete_of_ofLaunch hlife, fun heffect => ?_⟩
  · have hready : Ready .obliging false g.pipeline s.store :=
      ⟨fun c hc => (nomatch hc), fun _ => rfl, ⟨fun f hf => (nomatch hf), fun _ => rfl⟩,
        ⟨fun o ho => (nomatch ho), fun _ => rfl⟩⟩
    obtain ⟨job, s', hlaunch⟩ := (launch_started_iff (atPrompt_prompt _)).mpr hready
    have hrefused := heffect.missing
      ⟨⟨[['b']], [['g']], []⟩, .tail _ (.head _), ['g'], .head _, rfl⟩
    rw [hlaunch] at hrefused
    cases hrefused
  · obtain ⟨l, hl, -⟩ := Option.map_eq_some_iff.mp hlife
    obtain ⟨job, s', hlaunch, hrun⟩ := Life.ofLaunch_eq_some hl
    obtain ⟨opened, -, hopened⟩ := heffect.outputs job s' l hlaunch hrun
    obtain ⟨d, hd, -⟩ := hopened 0 ⟨[['a']], [], [⟨['f'], false⟩]⟩ 0 ⟨['f'], false⟩ rfl rfl
    exact Nat.not_lt_zero _ (opened_lt (atPrompt_prompt _) hlaunch hrun hd)

end MiniProject.Shell
