import MiniProject.Shell.Redirections

/-!
# Shell/AllOrNothing — input files that are there and cannot be read, or copied

`build_input_tmp` asks with `access` whether every file is there, and refuses if one is not; then it
passes over every file that `open` refuses or that no `read` delivers, such as a directory, and does
not look at what `write` returns.  So a command with input files runs on all of them, or does not
run and the user is told why, exactly when nothing is passed over that holds something, no `write`
is short, and no `mkstemp` is all that fails (`allOrNothing_iff`).
-/

namespace MiniProject.Shell

/-! ## What is printed on the way -/

namespace Sys

/-- Lines have been printed from `s` to `s'`, exactly if `P`. -/
def Says (s s' : Sys) (P : Prop) : Prop := ∃ lines, s'.out = s.out ++ lines ∧ (lines ≠ [] ↔ P)

variable {s s' s'' : Sys} {P Q : Prop}

theorem Says.quiet (h : s'.out = s.out) (hP : ¬ P) : Says s s' P :=
  ⟨[], by rw [h, List.append_nil], iff_of_false (fun hne => hne rfl) hP⟩

theorem says_print (line : Text) (hP : P) : Says s (s.print line) P :=
  ⟨[line], rfl, iff_of_true (List.cons_ne_nil _ _) hP⟩

theorem Says.trans (h : Says s s' P) (h' : Says s' s'' Q) : Says s s'' (P ∨ Q) := by
  obtain ⟨lines, hout, hP⟩ := h
  obtain ⟨lines', hout', hQ⟩ := h'
  refine ⟨lines ++ lines', by rw [hout', hout, List.append_assoc], ?_⟩
  rw [← hP, ← hQ, ne_eq, List.append_eq_nil_iff, not_and_or]

theorem Says.congr (h : Says s s' P) (hPQ : P ↔ Q) : Says s s' Q := by
  obtain ⟨lines, hout, hP⟩ := h
  exact ⟨lines, hout, hP.trans hPQ⟩

@[simp] theorem out_read (s : Sys) (d k : ℕ) : (s.read d k).2.out = s.out := by
  rw [read]
  cases s.fds.get d <;> rfl

@[simp] theorem out_write (s : Sys) (d : ℕ) (bs : List Byte) : (s.write d bs).out = s.out := by
  rw [write]
  cases s.fds.get d <;> rfl

@[simp] theorem out_rewind (s : Sys) (d : ℕ) : (s.rewind d).out = s.out := by
  rw [rewind]
  cases s.fds.get d <;> rfl

end Sys

open Sys (Says)

theorem out_copyLoop (taken : ℕ → ℕ → ℕ) (src dst k fuel : ℕ) (s : Sys) :
    (copyLoop taken src dst k fuel s).out = s.out := by
  induction fuel generalizing k s with
  | zero => rfl
  | succ fuel ih =>
    rw [copyLoop]
    dsimp only
    split
    · exact s.out_read src bufSize
    · rw [ih, Sys.out_write, Sys.out_read]

theorem out_copyFiles (env : Env) (taken : Taken) (tfd i : ℕ) (fs : List Text) (s : Sys) :
    (copyFiles env taken tfd i fs s).out = s.out := by
  induction fs generalizing i s with
  | nil => rfl
  | cons f fs ih =>
    rw [copyFiles]
    split
    · dsimp only
      rw [ih]
      exact out_copyLoop _ _ _ _ _ _
    · exact ih _ _

section Reports

variable {env : Env} {taken : Taken} {c : Commands} {s : Sys}

/-- An input file that is not there is reported, and nothing else about the input. -/
theorem says_buildInputTmp (hne : c.inFiles ≠ []) :
    Says s (buildInputTmp env taken c s).2 (∃ f ∈ c.inFiles, s.store.data (.path f) = none) := by
  rw [buildInputTmp, if_neg fun h => hne (List.length_eq_zero_iff.mp h)]
  split
  · rename_i hany
    refine Sys.says_print _ ?_
    simpa only [List.any_eq_true, Option.isNone_iff_eq_none] using hany
  · rename_i hany
    refine Says.quiet ?_ ?_
    · split
      · rfl
      · rw [Sys.out_rewind, out_copyFiles]
        rfl
    · simpa only [List.any_eq_true, Option.isNone_iff_eq_none] using hany

theorem says_openTargets (i : ℕ) (os : List OutFile) (fds : List ℕ) (s : Sys) :
    Says s (openTargets env i os fds s).2 (∃ o ∈ os, env.writable o.file = false) := by
  induction os generalizing i fds s with
  | nil => exact Says.quiet rfl fun ⟨_, ho, _⟩ => nomatch ho
  | cons o os ih =>
    rw [openTargets]
    by_cases hw : env.writable o.file = true
    · rw [if_pos hw]
      refine (ih (i + 1) _ (s.openWrite (.target i) (.path o.file) o.append).2).congr ?_
      rw [List.exists_mem_cons_iff, hw, or_iff_right Bool.noConfusion]
    · rw [if_neg hw]
      exact Sys.says_print _ ⟨o, List.mem_cons_self, Bool.eq_false_iff.mpr hw⟩

/-- …and a target that cannot be opened. -/
theorem says_prepareOutput :
    Says s (prepareOutput env c s).2 (∃ o ∈ c.outFiles, env.writable o.file = false) := by
  rw [prepareOutput]
  split
  · rename_i hnil
    rw [List.length_eq_zero_iff.mp hnil]
    refine Says.quiet rfl ?_
    rintro ⟨_, ho, _⟩
    cases ho
  · have hopen := @says_openTargets env 0 c.outFiles [] s
    split
    · rename_i s₁ heq
      rw [heq] at hopen
      exact hopen
    · rename_i fds s₁ heq
      rw [heq] at hopen
      split <;> exact hopen

/-- The loop of `presolve` prints a line for a command that is nowhere. -/
theorem says_presolveLoop (n : ℕ) (cs : List Commands) (allOk : Bool)
    (resolved : List (Option Text)) (s : Sys) :
    Says s (presolveLoop env n cs allOk resolved s).2 (∃ c ∈ cs, IsMissing env c) := by
  induction cs generalizing allOk resolved s with
  | nil => exact Says.quiet rfl fun ⟨_, hc, _⟩ => nomatch hc
  | cons c cs ih =>
    have hfound (hc : ¬ IsMissing env c) (allOk : Bool) (resolved : List (Option Text)) :
        Says s (presolveLoop env n cs allOk resolved s).2 (∃ d ∈ c :: cs, IsMissing env d) :=
      (ih allOk resolved s).congr (by rw [List.exists_mem_cons_iff, or_iff_right hc])
    rw [presolveLoop]
    split
    · rename_i hargv
      exact hfound (by simp [IsMissing, hargv]) _ _
    · rename_i name args hargv
      split
      · rename_i hb
        exact hfound (by simp [IsMissing, hargv, hb]) _ _
      · rename_i hb
        split
        · rename_i hnone
          have hmissing : IsMissing env c := by simp [IsMissing, hargv, hnone, hb]
          have hline := Sys.says_print (s := s) (notFound name) hmissing
          dsimp only
          split
          · exact hline.congr (iff_of_true hmissing ⟨c, List.mem_cons_self, hmissing⟩)
          · exact (hline.trans (ih _ _ _)).congr (by rw [List.exists_mem_cons_iff])
        · rename_i path hsome
          exact hfound (by simp [IsMissing, hargv, hsome]) _ _

theorem says_presolve (pipeline : List Commands) :
    Says s (presolve env pipeline s).2 (∃ c ∈ pipeline, IsMissing env c) := by
  have hloop := @says_presolveLoop env pipeline.length pipeline true [] s
  rw [presolve]
  split <;> (rename_i heq; rw [heq] at hloop; exact hloop)

end Reports

/-! ## Refused, and why -/

/-- What a refusal can be reported for: a command that is nowhere, an input file that is not there,
or a target that cannot be opened. -/
def Reportable (env : Env) (pipeline : List Commands) (store : Store Handle File Byte) : Prop :=
  (∃ c ∈ pipeline, IsMissing env c) ∨
  (∃ f ∈ (pipeline.headD {}).inFiles, store.data (.path f) = none) ∨
  (env.mkstempIn = true ∧ ∃ o ∈ (pipeline.getLastD {}).outFiles, env.writable o.file = false)

section Refusals

variable {env : Env} {taken : Taken} {background : Bool} {pipeline : List Commands} {s s' : Sys}

theorem buildInputTmp_failed_iff (hne : (pipeline.headD {}).inFiles ≠ []) :
    (buildInputTmp env taken (pipeline.headD {}) s).1 = .failed ↔
      (∃ f ∈ (pipeline.headD {}).inFiles, s.store.data (.path f) = none) ∨
        env.mkstempIn = false := by
  rw [buildInputTmp, if_neg fun h => hne (List.length_eq_zero_iff.mp h)]
  split
  · rename_i hany
    simp only [List.any_eq_true, Option.isNone_iff_eq_none] at hany
    exact iff_of_true rfl (.inl hany)
  · rename_i hany
    simp only [List.any_eq_true, Option.isNone_iff_eq_none] at hany
    rw [or_iff_right hany]
    split
    · rename_i hmk
      exact iff_of_true rfl (by simpa using hmk)
    · rename_i hmk
      exact iff_of_false (by simp) (by simpa using hmk)

/-- A pipeline that is refused behind `presolve`. -/
theorem says_stageAndFork {resolved : List (Option Text)}
    (hne : (pipeline.headD {}).inFiles ≠ [])
    (h : stageAndFork env taken background pipeline resolved s = (.refused, s')) :
    Says s s' ((∃ f ∈ (pipeline.headD {}).inFiles, s.store.data (.path f) = none) ∨
      (env.mkstempIn = true ∧
        ∃ o ∈ (pipeline.getLastD {}).outFiles, env.writable o.file = false)) := by
  have hin := @says_buildInputTmp env taken _ s hne
  have hfailed := @buildInputTmp_failed_iff env taken pipeline s hne
  rw [stageAndFork] at h
  split at h
  · rename_i s₁ hbuild
    cases h
    rw [hbuild] at hin hfailed
    refine hin.congr (or_iff_left_of_imp fun h => ?_).symm
    exact (hfailed.mp rfl).resolve_right (by simp [h.1])
  · rename_i inFd s₁ hok hbuild
    rw [hbuild] at hin hfailed
    have hmk : env.mkstempIn = true := by
      by_contra hmk
      exact hok (hfailed.mpr (.inr (by simpa using hmk)))
    split at h
    · rename_i s₂ hnone
      cases h
      have hout := @says_prepareOutput env (pipeline.getLastD {}) s₁
      rw [hnone] at hout
      exact (hin.trans hout).congr (by rw [and_iff_right hmk])
    · cases h

/-- **What a refusal prints**: a line exactly when there is something it can be reported for. -/
theorem says_of_refused (hne : (pipeline.headD {}).inFiles ≠ [])
    (h : launchTaking env taken background pipeline s = (.refused, s')) :
    Says s s' (Reportable env pipeline s.store) := by
  have hpre := @says_presolve env s pipeline
  obtain ⟨out, hsnd⟩ := presolve_snd env pipeline s
  have hsome := presolve_isSome env pipeline s
  rw [launchTaking_eq_presolve] at h
  rcases heq : presolve env pipeline s with ⟨_ | resolved, s₀⟩
  · rw [heq] at h hpre hsome
    cases h
    refine hpre.congr (or_iff_left_of_imp fun _ => ?_).symm
    -- Only a single command is insisted on.
    by_contra hnone
    refine nomatch hsome.mpr fun c hc hmissing => hnone ⟨c, ?_, hmissing⟩
    rw [hc]
    exact List.mem_singleton_self c
  · rw [heq] at h hpre hsnd
    dsimp only at h hsnd
    split at h
    · cases h
    · have hstage := says_stageAndFork hne h
      rw [show s₀.store = s.store by rw [hsnd]] at hstage
      exact hpre.trans hstage

end Refusals

/-! ## All or nothing -/

/-- **All or nothing**: the first stage reads at its stdin what all its input files hold, one after
the other; or nothing is started, and a line printed.  (What a directory holds is its entries.) -/
structure AllOrNothing (env : Env) (taken : Taken) (background : Bool) (pipeline : List Commands)
    (s : Sys) : Prop where
  all : ∀ job s', launchTaking env taken background pipeline s = (.started job, s') →
    ∃ kid ∈ job.kids, kid.stage = 0 ∧ ∃ h d, kid.fds.get 0 = some h ∧ s'.store.desc h = some d ∧
      d.pos = 0 ∧ s'.store.data d.file =
        some ((pipeline.headD {}).inFiles.flatMap fun f => s.store.bytes (.path f))
  nothing : ∀ l s', launchTaking env taken background pipeline s = (l, s') →
    (∀ job, l ≠ .started job) → s.out.length < s'.out.length

/-- Every file that holds something can be opened, and every `write` of what is read from it takes
all it is given. -/
def Copied (env : Env) (taken : Taken) (fs : List Text) (store : Store Handle File Byte) : Prop :=
  ∀ x ∈ fs.zipIdx,
    (env.readable x.1 = true ∧ TakesAll (taken x.2) 0 (store.bytes (.path x.1)).length) ∨
      store.bytes (.path x.1) = []

section Whole

variable {env : Env} {taken : Taken} {background : Bool} {c : Commands} {cs : List Commands}
  {s : Sys}

/-- What cannot get going is refused, as nothing with input files is run by the shell itself. -/
theorem refused_of_not_ready (taken : Taken) (hs : AtPrompt s) (hne : c.inFiles ≠ [])
    (hnot : ¬ Ready env background (c :: cs) s.store) :
    ∃ s', launchTaking env taken background (c :: cs) s = (.refused, s') := by
  rcases hlaunch : launchTaking env taken background (c :: cs) s with ⟨_ | argv | job, s'⟩
  · exact ⟨s', rfl⟩
  · obtain ⟨-, hshell⟩ := launchTaking_builtin hlaunch
    exact absurd ((files_of_runsInShell hshell List.mem_cons_self).1) hne
  · exact absurd ((launchTaking_started_iff taken hs).mp ⟨job, s', hlaunch⟩) hnot

/-- A command that runs on the whole of its input has had all of it copied. -/
theorem AllOrNothing.copied (h : AllOrNothing env taken background (c :: cs) s) (hs : AtPrompt s)
    (hargv : c.argv ≠ []) (hne : c.inFiles ≠ []) (hgo : Ready env background (c :: cs) s.store) :
    Copied env taken c.inFiles s.store := by
  obtain ⟨job, s', hlaunch⟩ := (launchTaking_started_iff taken hs).mpr hgo
  obtain ⟨kid, hmem, hstage, x, d, hx, hd, -, hdata⟩ := h.all job s' hlaunch
  obtain ⟨x', d', hd', -, hdata', -, hstdin⟩ := launchTaking_stdin hs rfl hargv hne hlaunch
  obtain rfl : x = x' := Option.some.inj (hx.symm.trans (hstdin kid hmem hstage))
  obtain rfl : d = d' := Option.some.inj (hd.symm.trans hd')
  exact stagedInput_eq_iff.mp (Option.some.inj (hdata'.symm.trans hdata))

/-- **The exact condition**: a launch that gets going passes over nothing that holds something and
loses nothing on the way, and one that is refused is so for a reason that is reported. -/
theorem allOrNothing_iff (hs : AtPrompt s) (hargv : c.argv ≠ []) (hne : c.inFiles ≠ []) :
    AllOrNothing env taken background (c :: cs) s ↔
      (Ready env background (c :: cs) s.store → Copied env taken c.inFiles s.store) ∧
      (¬ Ready env background (c :: cs) s.store → Reportable env (c :: cs) s.store) := by
  have hready := @launchTaking_started_iff env background (c :: cs) s taken hs
  constructor
  · intro h
    refine ⟨fun hgo => h.copied hs hargv hne hgo, fun hnot => ?_⟩
    obtain ⟨s', hlaunch⟩ := refused_of_not_ready taken hs hne hnot
    obtain ⟨lines, hout, hlines⟩ := @says_of_refused env _ _ (c :: cs) _ _ hne hlaunch
    refine hlines.mp fun hnil => ?_
    have hlen := h.nothing _ s' hlaunch fun _ => nofun
    rw [hout, hnil, List.append_nil] at hlen
    exact Nat.lt_irrefl _ hlen
  · rintro ⟨hall, hreport⟩
    refine ⟨fun job s' hlaunch => ?_, fun l s' hlaunch hnot => ?_⟩
    · obtain ⟨x, d, hd, hpos, hdata, ⟨kid, hmem, hstage⟩, hstdin⟩ :=
        launchTaking_stdin hs rfl hargv hne hlaunch
      refine ⟨kid, hmem, hstage, x, d, hstdin kid hmem hstage, hd, hpos, ?_⟩
      rw [hdata, stagedInput_eq_iff.mpr (hall (hready.mp ⟨job, s', hlaunch⟩))]
      rfl
    · have hgo : ¬ Ready env background (c :: cs) s.store := fun hgo => by
        obtain ⟨job, s'', hstarted⟩ := hready.mpr hgo
        cases hlaunch.symm.trans hstarted
        exact hnot job rfl
      obtain ⟨s'', hrefuse⟩ := refused_of_not_ready taken hs hne hgo
      cases hlaunch.symm.trans hrefuse
      obtain ⟨lines, hout, hlines⟩ := @says_of_refused env _ _ (c :: cs) _ _ hne hrefuse
      have hpos := List.length_pos_iff.mpr (hlines.mpr (hreport hgo))
      rw [hout, List.length_append]
      omega

end Whole

/-- Where every command is there and every call succeeds, `a < f < g` gets going, whatever may be
read. -/
theorem ready_two (readable : Text → Bool) : Ready { Env.obliging with readable } false
    [⟨[['a']], [['f'], ['g']], []⟩] (Sys.prompt fun _ => some [120]).store where
  found c hc := by
    obtain rfl := List.singleton_inj.mp hc
    rintro ⟨name, hname, -, hnone⟩
    obtain rfl := Option.mem_some.mp hname
    exact Option.some_ne_none ['/', 'a'] hnone
  notShell _ := rfl
  input := ⟨fun _ _ => nofun, fun _ => rfl⟩
  output := ⟨nofun, fun _ => rfl⟩

/-- `a < f < g`, with both files there and readable and room for them. -/
theorem allOrNothing_iff_two : AllOrNothing .obliging .whole false
    [⟨[['a']], [['f'], ['g']], []⟩] (Sys.prompt fun _ => some [120]) :=
  (allOrNothing_iff (atPrompt_prompt _) (List.cons_ne_nil _ _) (List.cons_ne_nil _ _)).mpr
    ⟨fun _ _ _ => .inl ⟨rfl, takesAll_whole _ _ _⟩, absurd (ready_two _)⟩

/-- **A command runs on part of its input**: in `a < f < g` both files are there and hold a byte,
and `g` may not be read; or both may, and no room is left for what they hold. -/
theorem not_allOrNothing :
    ¬ AllOrNothing { Env.obliging with readable := fun f => f == ['f'] } .whole false
      [⟨[['a']], [['f'], ['g']], []⟩] (Sys.prompt fun _ => some [120]) ∧
    ¬ AllOrNothing .obliging (fun _ _ _ => 0) false
      [⟨[['a']], [['f'], ['g']], []⟩] (Sys.prompt fun _ => some [120]) := by
  refine ⟨fun h => ?_, fun h => ?_⟩
  · have hall := h.copied (atPrompt_prompt _) (List.cons_ne_nil _ _) (List.cons_ne_nil _ _)
      (ready_two _)
    rcases hall (['g'], 1) (by decide) with ⟨hread, -⟩ | hnil
    · exact absurd hread (by decide)
    · cases hnil
  · have hall := h.copied (atPrompt_prompt _) (List.cons_ne_nil _ _) (List.cons_ne_nil _ _)
      (ready_two _)
    rcases hall (['f'], 0) (by decide) with ⟨-, htakes⟩ | hnil
    · exact absurd (htakes 0) (by decide)
    · cases hnil

end MiniProject.Shell
