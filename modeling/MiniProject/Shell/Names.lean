import MiniProject.Shell.Messages

/-!
# Shell/Names — the name in an exit message

`register_job` keeps each process with the name of its command, and `remove_pid_from_job` moves both
together.  But the message of `reap_finished` has `names[0]`: the name of whatever process stands
first in the job when another one ends.  So every message has the name of its own process, in every
order in which they may end, exactly if all processes of the job have the same name (`named_iff`).
-/

namespace MiniProject.Shell.JobTable

variable {t t' : JobTable} {k : ℕ} {p pid : Pid} {normal : Bool} {procs : List Proc}

/-- `reap_finished` for processes that have terminated, in this order. -/
def reapAll (t : JobTable) (es : List (Pid × Bool)) : JobTable :=
  es.foldl (fun t e => t.reapFinished e.1 e.2) t

/-- **The message of each process has the name the process is registered with**, whatever has
terminated before it. -/
def Named (t : JobTable) (procs : List Proc) : Prop :=
  ∀ before : List (Pid × Bool), ∀ x ∈ procs, x.pid ∉ before.map Prod.fst → ∀ normal,
    (t.reapAll before).exitMessage x.pid normal = some (exitLine x.name x.pid normal)

/-! ## What a message says -/

theorem length_digits_le (hpid : pid < 2 ^ 31) : (toString pid).toList.length ≤ 10 := by
  have hlt : pid < 10 ^ 10 := Nat.lt_trans hpid (by decide)
  rw [Nat.toString_eq_ofList_toDigits, String.toList_ofList]
  exact (Nat.length_toDigits_le_iff (by decide) (by decide)).mpr hlt

/-- **Two messages for a process are the same only with the same name**: the buffer holds all of
them. -/
theorem name_eq_of_exitLine_eq {name name' : Text} (hpid : pid < 2 ^ 31)
    (hname : name.length ≤ 255) (hname' : name'.length ≤ 255)
    (h : exitLine name pid normal = exitLine name' pid normal) : name = name' := by
  have hdigits := length_digits_le hpid
  have hend : (if normal then "normally".toList else "abnormally".toList).length ≤ 10 := by
    cases normal <;> decide
  have hwith : " with pid ".toList.length = 10 := by decide
  have hexited : " exited ".toList.length = 8 := by decide
  have hshort : ∀ n : Text, n.length ≤ 255 →
      (n ++ " with pid ".toList ++ (toString pid).toList ++ " exited ".toList ++
        (if normal then "normally".toList else "abnormally".toList) ++ ['\n']).length ≤ 299 := by
    intro n hn
    simp only [List.length_append, List.length_singleton, hwith, hexited]
    omega
  rw [exitLine, exitLine, List.take_of_length_le (hshort name hname),
    List.take_of_length_le (hshort name' hname')] at h
  simpa only [List.append_assoc, List.append_left_inj] using h

/-! ## The job while its processes end -/

/-- Slot `k` is a background job with some of `procs`, with all that are not `gone`; no other slot
answers for these. -/
structure Holds (t : JobTable) (k : ℕ) (procs : List Proc) (gone : List Pid) : Prop where
  job : ∃ j, t.jobs[k]? = some j ∧ j.background = true ∧ (∀ x ∈ j.procs, x ∈ procs) ∧
    (∀ x ∈ procs, x.pid ∉ gone → x ∈ j.procs) ∧ (j.procs ≠ [] → j.active = true)
  alone : ∀ x ∈ procs, x.pid ∉ gone → ∀ i, i ≠ k → ¬t.Answers i x.pid

theorem Holds.answers {gone : List Pid} (h : t.Holds k procs gone) {x : Proc} (hx : x ∈ procs)
    (hgone : x.pid ∉ gone) : t.findJobContainingPid x.pid = some k := by
  obtain ⟨j, hj, -, -, hleft, hactive⟩ := h.job
  have hmem := hleft x hx hgone
  refine findJobContainingPid_eq_some.mpr
    ⟨⟨?_, ?_⟩, fun i hi => h.alone x hx hgone i (Nat.ne_of_lt hi)⟩
  · rw [activeAt, hj]
    exact hactive (List.ne_nil_of_mem hmem)
  · rw [pidsAt, hj]
    exact List.mem_map_of_mem hmem

/-- **The messages of all processes that are left have one name**, of the process that stands
first. -/
theorem Holds.exitMessage {gone : List Pid} (h : t.Holds k procs gone) {x : Proc}
    (hx : x ∈ procs) (hgone : x.pid ∉ gone) :
    ∃ y ∈ procs, ∀ z ∈ procs, z.pid ∉ gone → ∀ normal,
      t.exitMessage z.pid normal = some (exitLine y.name z.pid normal) := by
  obtain ⟨j, hj, hbg, hsub, hleft, -⟩ := h.job
  obtain ⟨y, rest, hprocs⟩ := List.exists_cons_of_ne_nil (List.ne_nil_of_mem (hleft x hx hgone))
  refine ⟨y, hsub y (hprocs ▸ List.mem_cons_self), fun z hz hgone normal => ?_⟩
  rw [JobTable.exitMessage, h.answers hz hgone]
  simp only [hj, hbg, if_true, hprocs]
  rfl

/-- **A process that ends takes only itself out of the job.** -/
theorem Holds.reapFinished {gone : List Pid} (h : t.Holds k procs gone) (pid : Pid)
    (normal : Bool) : (t.reapFinished pid normal).Holds k procs (pid :: gone) := by
  refine ⟨?_, fun x hx hgone i hi hans => ?_⟩
  · obtain ⟨j, hj, hbg, hsub, hleft, hactive⟩ := h.job
    by_cases hfind : t.findJobContainingPid pid = some k
    · have hmap : (t.reapFinished pid normal).jobs[k]?.map id = _ := map_reapFinished hfind
      rw [Option.map_id, id, hj] at hmap
      have hperm := swapErase_perm (fun x : Proc => x.pid = pid) j.procs
      refine ⟨j.dropPid pid, hmap, hbg, fun x hx => ?_, fun x hx hgone => ?_, fun hne => ?_⟩
      · exact hsub x (List.mem_of_mem_eraseP (hperm.subset hx))
      · obtain ⟨hne, hgone⟩ := List.ne_and_not_mem_of_not_mem_cons hgone
        refine hperm.symm.subset ((List.mem_eraseP_of_neg ?_).mpr (hleft x hx hgone))
        simpa using hne
      · have hlen : (swapErase (fun x : Proc => x.pid = pid) j.procs).length ≠ 0 := fun h0 =>
          hne (List.length_eq_zero_iff.mp h0)
        rw [Job.dropPid]
        dsimp only
        rw [if_neg hlen]
        refine hactive fun hnil => hlen ?_
        rw [hperm.length_eq, hnil]
        rfl
    · have hmap : (t.reapFinished pid normal).jobs[k]?.map id = _ := map_reapFinished_of_ne hfind
      rw [Option.map_id, id, id, hj] at hmap
      exact ⟨j, hmap, hbg, hsub, fun x hx hgone =>
        hleft x hx (List.not_mem_of_not_mem_cons hgone), hactive⟩
  · exact h.alone x hx (List.not_mem_of_not_mem_cons hgone) i hi (answers_of_reapFinished hans)

/-- **…and so do several**, of whatever jobs. -/
theorem Holds.reapAll {gone : List Pid} (h : t.Holds k procs gone) (es : List (Pid × Bool)) :
    ∃ gone', (t.reapAll es).Holds k procs gone' ∧
      ∀ q, q ∉ gone → q ∉ es.map Prod.fst → q ∉ gone' := by
  induction es generalizing t gone with
  | nil => exact ⟨gone, h, fun q hq _ => hq⟩
  | cons e es ih =>
    obtain ⟨gone', hholds, hgone'⟩ := ih (h.reapFinished e.1 e.2)
    refine ⟨gone', hholds, fun q hq hes => ?_⟩
    rw [List.map_cons, List.mem_cons, not_or] at hes
    exact hgone' q (by simp [hq, hes.1]) hes.2

/-! ## The name -/

/-- **The messages have the right names exactly if there is one name.** -/
theorem Holds.named_iff_sameName (h : t.Holds k procs []) (hname : ∀ x ∈ procs, x.name.length ≤ 255)
    (hpid : ∀ x ∈ procs, x.pid < 2 ^ 31) :
    t.Named procs ↔ ∀ x ∈ procs, ∀ y ∈ procs, x.name = y.name := by
  constructor
  · intro hnamed x hx y hy
    obtain ⟨z, hz, hmessage⟩ := h.exitMessage hx List.not_mem_nil
    have hfirst : ∀ x ∈ procs, x.name = z.name := by
      intro x hx
      have hown := hnamed [] x hx List.not_mem_nil true
      exact name_eq_of_exitLine_eq (hpid x hx) (hname x hx) (hname z hz)
        (Option.some.inj (hown.symm.trans (hmessage x hx List.not_mem_nil true)))
    rw [hfirst x hx, hfirst y hy]
  · intro hsame before x hx hbefore normal
    obtain ⟨gone, hholds, hgone⟩ := h.reapAll before
    have hx' := hgone x.pid List.not_mem_nil hbefore
    obtain ⟨y, hy, hmessage⟩ := hholds.exitMessage hx hx'
    rw [hmessage x hx hx', hsame x hx y hy]

/-! ## A job that is registered -/

section Register

variable {pgid : Pid} {pids : List Pid} {names : List Text} {command : Text} {num : ℕ}

/-- The processes as `register_job` keeps them. -/
def registered (pids : List Pid) (names : List Text) : List Proc :=
  List.zipWith Proc.mk pids (names.map (·.take 255))

theorem mem_registered {x : Proc} (h : x ∈ registered pids names) :
    x.pid ∈ pids ∧ ∃ name ∈ names, x.name = name.take 255 := by
  rw [registered, ← List.map_uncurry_zip_eq_zipWith] at h
  obtain ⟨⟨p, n⟩, hmem, rfl⟩ := List.mem_map.mp h
  obtain ⟨hp, hn⟩ := List.of_mem_zip hmem
  obtain ⟨name, hname, rfl⟩ := List.mem_map.mp hn
  exact ⟨hp, name, hname, rfl⟩

theorem registerJob_eq_ok {background : Bool} :
    t.registerJob pgid pids names command background = .ok (num, t') ↔
      ∃ t₁, t.fillSlot pgid pids names command background = .ok t₁ ∧ num = t.nextJob ∧
        t' = t₁.setActive t.jobs.length true := by
  rw [registerJob]
  rcases t.fillSlot pgid pids names command background with o | t₁
  · exact iff_of_false nofun nofun
  · constructor
    · rintro ⟨⟩
      exact ⟨t₁, rfl, rfl, rfl⟩
    · rintro ⟨_, ⟨⟩, rfl, rfl⟩
      rfl

/-- What a table has with a new job: one slot more. -/
theorem jobs_registerJob {background : Bool}
    (h : t.registerJob pgid pids names command background = .ok (num, t')) :
    ∃ j, t'.jobs = t.jobs ++ [j] ∧ j.background = background ∧ j.procs = registered pids names ∧
      j.active = true ∧ j.command = command.take 511 := by
  obtain ⟨t₁, hfill, -, rfl⟩ := registerJob_eq_ok.mp h
  rw [fillSlot] at hfill
  split at hfill
  · split at hfill
    · rename_i hfits
      cases hfill
      refine ⟨⟨t.nextJob, pgid, registered pids names, command.take 511, .running, background,
        true, hfits⟩, ?_, rfl, rfl, rfl, rfl⟩
      exact (List.modify_eq_take_cons_drop (by simp)).trans (by simp [registered])
    · cases hfill
  · cases hfill

/-- What the slot of a new job has. -/
theorem getElem?_registerJob {background : Bool}
    (h : t.registerJob pgid pids names command background = .ok (num, t')) :
    ∃ j, t'.jobs[t.jobs.length]? = some j ∧ j.background = background ∧
      j.procs = registered pids names ∧ j.active = true := by
  obtain ⟨j, hjobs, hbg, hprocs, hactive, -⟩ := jobs_registerJob h
  exact ⟨j, by rw [hjobs, List.getElem?_concat_length], hbg, hprocs, hactive⟩

/-- **A new job holds its processes**, and no other has them. -/
theorem holds_registerJob (h : t.registerJob pgid pids names command true = .ok (num, t'))
    (hnew : ∀ p ∈ pids, t.findJobContainingPid p = none) :
    t'.Holds t.jobs.length (registered pids names) [] := by
  obtain ⟨j, hj, hbg, hprocs, hactive⟩ := getElem?_registerJob h
  refine ⟨⟨j, hj, hbg, fun x hx => hprocs ▸ hx, fun x hx _ => hprocs.symm ▸ hx, fun _ => hactive⟩,
    fun x hx _ i hi hans => ?_⟩
  obtain ⟨t₁, hfill, -, rfl⟩ := registerJob_eq_ok.mp h
  have hold : t.Answers i x.pid := by
    refine (answers_congr ?_ ?_).mp hans
    · rw [pidsAt_setActive, pidsAt_fillSlot_of_ne hfill hi]
    · rw [activeAt_setActive_of_ne true hi, activeAt_fillSlot hfill]
  exact findJobContainingPid_eq_none.mp (hnew x.pid (mem_registered hx).1) i hold

theorem names_registered (hlen : names.length = pids.length) :
    (registered pids names).map Proc.name = names.map (·.take 255) := by
  rw [registered, ← List.map_uncurry_zip_eq_zipWith, List.map_map]
  exact List.map_snd_zip (Nat.le_of_eq (by rw [List.length_map, hlen]))

/-- Every process is registered. -/
theorem pids_registered (hlen : names.length = pids.length) :
    (registered pids names).map Proc.pid = pids := by
  rw [registered, ← List.map_uncurry_zip_eq_zipWith, List.map_map]
  exact List.map_fst_zip (Nat.le_of_eq (by rw [List.length_map, hlen]))

theorem exists_registered (hlen : names.length = pids.length) (hpid : pid ∈ pids) :
    ∃ x ∈ registered pids names, x.pid = pid :=
  List.mem_map.mp ((pids_registered hlen).symm ▸ hpid)

/-- **The exit messages of a job have the right names, in every order**, exactly if it can be
registered and all its processes have the same name. -/
theorem named_iff (hlen : names.length = pids.length)
    (hnew : ∀ p ∈ pids, t.findJobContainingPid p = none) (hpid : ∀ p ∈ pids, p < 2 ^ 31) :
    (∃ num t', t.registerJob pgid pids names command true = .ok (num, t') ∧
        t'.Named (registered pids names)) ↔
      (t.jobs.length < maxjobs ∧ pids.length ≤ maxjobProcess) ∧
        ∀ name ∈ names, ∀ name' ∈ names, name.take 255 = name'.take 255 := by
  have hsame : (∀ x ∈ registered pids names, ∀ y ∈ registered pids names, x.name = y.name) ↔
      ∀ name ∈ names, ∀ name' ∈ names, name.take 255 = name'.take 255 := by
    have hmap : ∀ P : Text → Prop,
        (∀ x ∈ registered pids names, P x.name) ↔ ∀ name ∈ names, P (name.take 255) := by
      intro P
      rw [← List.forall_mem_map (f := Proc.name), names_registered hlen, List.forall_mem_map]
    exact (hmap fun n => ∀ y ∈ registered pids names, n = y.name).trans
      (forall₂_congr fun name _ => hmap fun n => name.take 255 = n)
  have hnamed : ∀ {num t'}, t.registerJob pgid pids names command true = .ok (num, t') →
      (t'.Named (registered pids names) ↔
        ∀ name ∈ names, ∀ name' ∈ names, name.take 255 = name'.take 255) := by
    intro num t' h
    refine ((holds_registerJob h hnew).named_iff_sameName (fun x hx => ?_) fun x hx =>
      hpid _ (mem_registered hx).1).trans hsame
    obtain ⟨-, name, -, hname⟩ := mem_registered hx
    rw [hname]
    exact List.length_take_le 255 name
  rw [← fillSlot_isOk_iff hlen]
  constructor
  · rintro ⟨num, t', hreg, h⟩
    obtain ⟨t₁, hfill, -, -⟩ := registerJob_eq_ok.mp hreg
    exact ⟨⟨t₁, hfill⟩, (hnamed hreg).mp h⟩
  · rintro ⟨⟨t₁, hfill⟩, h⟩
    have hreg := registerJob_eq_ok.mpr ⟨t₁, hfill, rfl, rfl⟩
    exact ⟨_, _, hreg, (hnamed hreg).mpr h⟩

/-- `a | a &`. -/
theorem named_iff_same :
    ∃ num t', Console.initial.table.registerJob 2 [2, 3] [['a'], ['a']] [] true = .ok (num, t') ∧
      t'.Named (registered [2, 3] [['a'], ['a']]) :=
  (named_iff rfl (by decide) (by decide)).mpr ⟨by decide, by decide⟩

/-- **`a | b &`, and `b` ends first**: the message says `a`. -/
theorem not_named :
    ∃ num t', Console.initial.table.registerJob 2 [2, 3] [['a'], ['b']] [] true = .ok (num, t') ∧
      t'.exitMessage 3 true = some (exitLine ['a'] 3 true) ∧
      ¬t'.Named (registered [2, 3] [['a'], ['b']]) := by
  refine ⟨_, _, rfl, rfl, fun h => ?_⟩
  have hmessage := h [] ⟨3, ['b']⟩ (by decide) (by decide) true
  exact absurd hmessage (by decide)

end Register

end MiniProject.Shell.JobTable
