import MiniProject.Shell.Redirect

/-!
# Shell/Output — the targets of a command, and what they hold

A target is opened by the shell before anything runs and is written to only by `flush_output`.
`Targets` says what each of them got so far: which file it is, and, when no file is named twice,
that the file holds its old content and those bytes.  `prepare_output` leaves every target with
nothing written (`prepareOutput_ready`), and a write to one of them adds to that one
(`Targets.write`).
-/

namespace MiniProject.Shell

/-- What a target holds before anything is written to it, if the files were `store`: the old content
for `>>`, nothing for `>`. -/
def baseBytes (store : Store Handle File Byte) (o : OutFile) : List Byte :=
  if o.append then store.bytes (.path o.file) else []

/-- **Every target was opened as its operator asks and got `sent k`**; with no file named twice,
that is what its file holds on top of `base`. -/
def Targets (os : List OutFile) (base : OutFile → List Byte) (store : Store Handle File Byte)
    (sent : ℕ → List Byte) : Prop :=
  ∀ k o, os[k]? = some o → ∃ pos,
    store.desc (.target k) = some ⟨.path o.file, o.append, pos, sent k⟩ ∧
    ((os.map OutFile.file).Nodup →
      store.data (.path o.file) = some (base o ++ sent k) ∧
      (o.append = true ∨ pos = (base o ++ sent k).length))

namespace Targets

variable {os : List OutFile} {base : OutFile → List Byte} {store store' : Store Handle File Byte}
  {sent : ℕ → List Byte}

/-- Targets stand while their descriptions and their files do. -/
theorem frame (h : Targets os base store sent)
    (hdesc : ∀ k, store'.desc (.target k) = store.desc (.target k))
    (hdata : ∀ p, store'.data (.path p) = store.data (.path p)) :
    Targets os base store' sent := by
  intro k o ho
  obtain ⟨pos, hd, hfile⟩ := h k o ho
  exact ⟨pos, (hdesc k).trans hd, fun hnodup => by rw [hdata]; exact hfile hnodup⟩

/-- Two targets with one file are one target, if no file is named twice. -/
theorem index_eq (hnodup : (os.map OutFile.file).Nodup) {j k : ℕ} {o o' : OutFile}
    (hj : os[j]? = some o) (hk : os[k]? = some o') (hfile : o.file = o'.file) : j = k := by
  have hj' : (os.map OutFile.file)[j]? = some o.file := by rw [List.getElem?_map, hj]; rfl
  have hk' : (os.map OutFile.file)[k]? = some o.file := by rw [List.getElem?_map, hk, hfile]; rfl
  obtain ⟨hlt, hget⟩ := List.getElem?_eq_some_iff.mp hj'
  obtain ⟨hlt', hget'⟩ := List.getElem?_eq_some_iff.mp hk'
  exact (hnodup.getElem_inj_iff).mp (hget.trans hget'.symm)

/-- **A write to a target adds to what it got**, and to what no other got. -/
theorem write (h : Targets os base store sent) {m : ℕ} {o : OutFile} (hm : os[m]? = some o)
    (bs : List Byte) :
    Targets os base (store.write (.target m) bs) (Function.update sent m (sent m ++ bs)) := by
  intro k o' hk
  obtain ⟨posm, hdm, hfm⟩ := h m o hm
  by_cases hkm : k = m
  · subst hkm
    rw [hm] at hk
    cases hk
    rw [Function.update_self]
    refine ⟨_, Store.desc_write_self hdm bs, fun hnodup => ?_⟩
    obtain ⟨hdata, hend⟩ := hfm hnodup
    have hbytes := Store.bytes_of_data hdata
    have hat := Store.data_write_of_atEnd hdm (by rw [hbytes]; exact hend) bs
    rw [hbytes, List.append_assoc] at hat
    refine ⟨hat, ?_⟩
    rcases hend with happ | hpos
    · exact .inl happ
    · refine .inr ?_
      dsimp only
      rw [hbytes, ← hpos, ite_self, hpos]
      simp only [List.length_append, Nat.add_assoc]
  · obtain ⟨pos, hd, hfile⟩ := h k o' hk
    rw [Function.update_of_ne hkm]
    have hne : Handle.target k ≠ .target m := fun heq => hkm (Handle.target.inj heq)
    refine ⟨pos, (store.desc_write_of_ne hne bs).trans hd, fun hnodup => ?_⟩
    rw [store.data_write_of_ne (fun d hd' => ?_) bs]
    · exact hfile hnodup
    · rw [hdm] at hd'
      cases hd'
      exact fun heq => hkm (index_eq hnodup hk hm (File.path.inj heq))

/-- What was sent may be named by another function that agrees on the targets. -/
theorem congr {sent' : ℕ → List Byte} (h : Targets os base store sent)
    (heq : ∀ k < os.length, sent' k = sent k) : Targets os base store sent' := by
  intro k o hk
  rw [heq k (List.getElem?_eq_some_iff.mp hk).1]
  exact h k o hk

end Targets

/-! ## Opening the targets -/

/-- What opening targets leaves alone: the descriptions but for theirs, and the files but for
theirs. -/
structure OutputFrame (os : List OutFile) (store store' : Store Handle File Byte) : Prop where
  desc : ∀ h, (∀ k < os.length, h ≠ .target k) → store'.desc h = store.desc h
  data : ∀ f, (∀ o ∈ os, f ≠ .path o.file) → store'.data f = store.data f

/-- One more target. -/
theorem Targets.open {os : List OutFile} {store₀ store : Store Handle File Byte}
    (h : Targets os (baseBytes store₀) store fun _ => []) (hframe : OutputFrame os store₀ store)
    (o : OutFile) :
    Targets (os ++ [o]) (baseBytes store₀)
        (store.openWrite (.target os.length) (.path o.file) o.append) (fun _ => []) ∧
      OutputFrame (os ++ [o]) store₀
        (store.openWrite (.target os.length) (.path o.file) o.append) := by
  constructor
  · intro k o' hk
    by_cases hlast : k = os.length
    · subst hlast
      rw [List.getElem?_concat_length] at hk
      cases hk
      refine ⟨0, store.desc_openWrite_self _ _ _, fun hnodup => ⟨?_, ?_⟩⟩
      · have hold : store.data (.path o.file) = store₀.data (.path o.file) := by
          refine hframe.data _ fun o' ho' heq => ?_
          rw [List.map_append, List.nodup_append'] at hnodup
          refine hnodup.2.2 (List.mem_map_of_mem (f := OutFile.file) ho') ?_
          rw [← File.path.inj heq]
          exact List.mem_singleton_self _
        rw [store.data_openWrite_self, Store.bytes, hold, List.append_nil]
        rfl
      · rw [baseBytes]
        cases o.append with
        | true => exact .inl rfl
        | false => exact .inr rfl
    · have hlt : k < os.length := by
        have hbound := (List.getElem?_eq_some_iff.mp hk).1
        rw [List.length_append, List.length_singleton] at hbound
        omega
      rw [List.getElem?_append_left hlt] at hk
      obtain ⟨pos, hd, hfile⟩ := h k o' hk
      have hne : Handle.target k ≠ .target os.length := fun heq => hlast (Handle.target.inj heq)
      refine ⟨pos, (store.desc_openWrite_of_ne hne _ _).trans hd, fun hnodup => ?_⟩
      rw [List.map_append, List.nodup_append'] at hnodup
      have hdiff : File.path o'.file ≠ .path o.file := by
        intro heq
        refine hnodup.2.2 (List.mem_map_of_mem (f := OutFile.file) (List.mem_of_getElem? hk)) ?_
        rw [File.path.inj heq]
        exact List.mem_singleton_self _
      rw [store.data_openWrite_of_ne hdiff]
      exact hfile hnodup.1
  · refine ⟨fun x hx => ?_, fun f hf => ?_⟩
    · have hlen : (os ++ [o]).length = os.length + 1 := by simp
      rw [hlen] at hx
      rw [store.desc_openWrite_of_ne (hx _ (Nat.lt_succ_self _)),
        hframe.desc x fun k hk => hx k (Nat.lt_succ_of_lt hk)]
    · rw [store.data_openWrite_of_ne (hf o (by simp)),
        hframe.data f fun o' ho' => hf o' (by simp [ho'])]

/-- **The loop over the targets** opens them all when each can be opened. -/
theorem openTargets_spec {env : Env} (os pre : List OutFile) {fds : List ℕ} {s : Sys}
    {store₀ : Store Handle File Byte} (hopen : ∀ o ∈ os, env.writable o.file = true)
    (hlen : fds.length = pre.length) (hT : Targets pre (baseBytes store₀) s.store fun _ => [])
    (hframe : OutputFrame pre store₀ s.store) :
    ∃ fds' s', openTargets env pre.length os fds s = (some fds', s') ∧
      fds'.length = (pre ++ os).length ∧
      Targets (pre ++ os) (baseBytes store₀) s'.store (fun _ => []) ∧
      OutputFrame (pre ++ os) store₀ s'.store := by
  induction os generalizing pre fds s with
  | nil => exact ⟨fds, s, rfl, by simpa using hlen, by simpa using hT, by simpa using hframe⟩
  | cons o os ih =>
    rw [openTargets, if_pos (hopen o List.mem_cons_self)]
    obtain ⟨hT', hframe'⟩ := hT.open hframe o
    have hlen' : (fds ++ [(s.fds.alloc (.target pre.length)).1]).length = (pre ++ [o]).length := by
      simp [hlen]
    have hrest := ih (pre ++ [o])
      (s := (s.openWrite (.target pre.length) (.path o.file) o.append).2)
      (fun o' ho' => hopen o' (List.mem_cons_of_mem _ ho')) hlen' hT' hframe'
    rw [List.append_assoc, List.singleton_append, List.length_append, List.length_singleton]
      at hrest
    exact hrest

/-- …and refuses when one cannot. -/
theorem openTargets_none {env : Env} (i : ℕ) (os : List OutFile) (fds : List ℕ) (s : Sys)
    (h : ∃ o ∈ os, env.writable o.file = false) : (openTargets env i os fds s).1 = none := by
  induction os generalizing i fds s with
  | nil =>
    obtain ⟨o, ho, -⟩ := h
    cases ho
  | cons o os ih =>
    rw [openTargets]
    by_cases hw : env.writable o.file
    · rw [if_pos hw]
      refine ih _ _ _ ?_
      obtain ⟨o', ho', hw'⟩ := h
      refine ⟨o', (List.mem_cons.mp ho').resolve_left fun heq => ?_, hw'⟩
      rw [heq, hw] at hw'
      cases hw'
    · rw [if_neg hw]

/-! ## `prepare_output` -/

/-- What `prepare_output` asks for: every target can be opened, and a staging file made where one is
needed. -/
def OutputReady (env : Env) (c : Commands) : Prop :=
  (∀ o ∈ c.outFiles, env.writable o.file = true) ∧ (c.outFiles ≠ [] → env.mkstempOut = true)

/-- **The state behind `prepare_output`**: every target open with nothing written to it, and an
empty staging file. -/
structure OutputStaged (c : Commands) (store store' : Store Handle File Byte) (octx : OutCtx) :
    Prop where
  length_eq : octx.realFds.length = c.outFiles.length
  none_iff : octx.tmpFd = none ↔ c.outFiles = []
  targets : Targets c.outFiles (baseBytes store) store' fun _ => []
  staged : c.outFiles ≠ [] → store'.data .outTmp = some [] ∧
    store'.desc .outTmp = some ⟨.outTmp, false, 0, []⟩
  desc : ∀ h, h ≠ .outTmp → (∀ k < c.outFiles.length, h ≠ .target k) →
    store'.desc h = store.desc h
  data : ∀ f, f ≠ .outTmp → (∀ o ∈ c.outFiles, f ≠ .path o.file) → store'.data f = store.data f

/-- **`prepare_output` opens the targets** when they can be opened. -/
theorem prepareOutput_ready {env : Env} {c : Commands} {s : Sys} (h : OutputReady env c) :
    ∃ octx s', prepareOutput env c s = (some octx, s') ∧ OutputStaged c s.store s'.store octx := by
  obtain ⟨hopen, hmk⟩ := h
  rw [prepareOutput]
  by_cases hnil : c.outFiles = []
  · rw [if_pos (by rw [hnil]; rfl)]
    refine ⟨_, _, rfl, by simp [hnil], by simp [hnil], ?_, (absurd hnil ·), fun _ _ _ => rfl,
      fun _ _ _ => rfl⟩
    rw [hnil]
    exact fun k o ho => nomatch ho
  · rw [if_neg (by simpa using hnil)]
    have hempty : Targets [] (baseBytes s.store) s.store fun _ => [] := fun k o ho => nomatch ho
    obtain ⟨fds, s₁, hloop, hlen, hT, hframe⟩ := openTargets_spec c.outFiles [] hopen
      (show [].length = [].length from rfl) hempty ⟨fun _ _ => rfl, fun _ _ => rfl⟩
    rw [List.length_nil] at hloop
    rw [hloop, hmk hnil]
    refine ⟨_, _, rfl, by simpa using hlen, by simp [hnil], ?_, fun _ => ⟨?_, ?_⟩, ?_, ?_⟩
    · refine hT.frame (fun k => ?_) fun p => ?_
      · exact s₁.store.desc_openWrite_of_ne Handle.noConfusion _ _
      · exact s₁.store.data_openWrite_of_ne File.noConfusion _
    · exact s₁.store.data_openWrite_self _ _ _
    · exact s₁.store.desc_openWrite_self _ _ _
    · intro x hx hk
      exact (s₁.store.desc_openWrite_of_ne hx _ _).trans (hframe.desc x hk)
    · intro f hf ho
      exact (s₁.store.data_openWrite_of_ne hf _).trans (hframe.data f ho)

/-- **…and refuses otherwise.** -/
theorem prepareOutput_not_ready {env : Env} {c : Commands} {s : Sys} (h : ¬ OutputReady env c) :
    (prepareOutput env c s).1 = none := by
  rw [prepareOutput]
  split
  · rename_i hnil
    refine absurd ⟨?_, ?_⟩ h <;> simp [List.length_eq_zero_iff.mp hnil]
  · by_cases hopen : ∀ o ∈ c.outFiles, env.writable o.file = true
    · have hmk : env.mkstempOut = false := by
        by_contra hmk
        exact h ⟨hopen, fun _ => by simpa using hmk⟩
      split
      · rfl
      · rw [hmk]
        rfl
    · push Not at hopen
      obtain ⟨o, ho, hw⟩ := hopen
      have hnone := openTargets_none 0 c.outFiles [] s ⟨o, ho, by simpa using hw⟩
      split
      · rfl
      · rename_i fds s₁ hsome
        rw [hsome] at hnone
        cases hnone

end MiniProject.Shell
