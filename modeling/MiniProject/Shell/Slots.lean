import MiniProject.Shell.Console

/-!
# Shell/Slots — every pipeline has a slot, and every process its place in it

Slots are numbered in order (`Serial`), so the number of a launch leads back to its slot or, once
the job is over, nowhere (`Placed`).  The processes of an active job are in its list (`Housed`).
-/

namespace MiniProject.Shell

/-! ## The numbers of the slots -/

namespace JobTable

variable {t t' : JobTable} {k : ℕ} {pid : Pid} {normal : Bool}

/-- The slots are numbered from 1 on. -/
structure Serial (t : JobTable) : Prop where
  nextJob : t.nextJob = t.jobs.length + 1
  number : ∀ k < t.jobs.length, t.numberAt k = some (k + 1)

theorem Serial.congr (h : t.Serial) (hnext : t'.nextJob = t.nextJob)
    (hlen : t'.jobs.length = t.jobs.length) (hnumber : ∀ k, t'.numberAt k = t.numberAt k) :
    t'.Serial := by
  refine ⟨?_, fun k hk => ?_⟩
  · rw [hnext, hlen, h.nextJob]
  · rw [hnumber]
    exact h.number k (hlen ▸ hk)

@[simp] theorem nextJob_removePidFromJob : (t.removePidFromJob pid).nextJob = t.nextJob := by
  rw [removePidFromJob]
  split <;> rfl

theorem nextJob_queueOrPrint (name : Text) :
    (t.queueOrPrint name pid normal).nextJob = t.nextJob := by
  rw [queueOrPrint]
  split
  · split <;> rfl
  · rfl

theorem nextJob_reapFinished : (t.reapFinished pid normal).nextJob = t.nextJob := by
  rw [reapFinished]
  split
  · rfl
  · rw [nextJob_removePidFromJob]
    split
    · rfl
    · split
      · exact nextJob_queueOrPrint _
      · rfl

theorem Serial.reapFinished (h : t.Serial) : (t.reapFinished pid normal).Serial :=
  h.congr nextJob_reapFinished length_jobs_reapFinished fun _ => numberAt_reapFinished

theorem lt_of_numberAt {n : ℕ} (h : t.numberAt k = some n) : k < t.jobs.length := by
  obtain ⟨j, hj, -⟩ := Option.map_eq_some_iff.mp h
  exact (List.getElem?_eq_some_iff.mp hj).1

theorem activeAt_of_findJobByNumber {num : ℕ} (h : t.findJobByNumber num = some k) :
    t.activeAt k = true := by
  obtain ⟨hk, hfound, -⟩ := List.findIdx?_eq_some_iff_getElem.mp h
  rw [Bool.and_eq_true] at hfound
  rw [activeAt, List.getElem?_eq_getElem hk]
  exact hfound.1

/-- `ping` finds active jobs only. -/
theorem activeAt_of_find {target : Target} (h : t.find target = some k) : t.activeAt k = true := by
  cases target with
  | job num => exact activeAt_of_findJobByNumber h
  | process pid => exact (findJobContainingPid_eq_some.mp h).1.1

/-- **A number leads to its slot** while the job is active, and nowhere afterwards. -/
theorem Serial.findJobByNumber (h : t.Serial) (hk : k < t.jobs.length) :
    t.findJobByNumber (k + 1) = if t.activeAt k then some k else none := by
  split
  · rename_i hactive
    refine findJobByNumber_eq_some (h.number k hk) hactive fun i hi hnumber => ?_
    rw [h.number i (Nat.lt_trans hi hk), Option.some_inj] at hnumber
    omega
  · rename_i hactive
    cases hfind : t.findJobByNumber (k + 1) with
    | none => rfl
    | some i =>
      have hnumber := numberAt_of_findJobByNumber hfind
      rw [h.number i (lt_of_numberAt hnumber), Option.some_inj, Nat.add_right_cancel_iff] at hnumber
      exact absurd (hnumber ▸ activeAt_of_findJobByNumber hfind) hactive

/-- A slot that is active was active before. -/
theorem activeAt_of_reapFinished (h : (t.reapFinished pid normal).activeAt k = true) :
    t.activeAt k = true := by
  by_cases hfind : t.findJobContainingPid pid = some k
  · exact (findJobContainingPid_eq_some.mp hfind).1.1
  · rwa [activeAt_reapFinished_of_ne hfind] at h

/-- A slot loses no pid but the one waited for. -/
theorem mem_pidsAt_reapFinished {q : Pid} (h : q ∈ t.pidsAt k) (hne : q ≠ pid) :
    q ∈ (t.reapFinished pid normal).pidsAt k := by
  by_cases hfind : t.findJobContainingPid pid = some k
  · exact (pidsAt_reapFinished hfind).mem_iff.mpr ((List.mem_erase_of_ne hne).mpr h)
  · rwa [pidsAt_reapFinished_of_ne hfind]

/-- What is active after a slot is left was active, and is another one. -/
theorem activeAt_of_setActive_false {i : ℕ} (h : (t.setActive k false).activeAt i = true) :
    i ≠ k ∧ t.activeAt i = true := by
  have hne : i ≠ k := by
    rintro rfl
    have hlt := lt_of_activeAt h
    rw [length_jobs_setActive] at hlt
    rw [activeAt_setActive false hlt] at h
    cases h
  exact ⟨hne, by rwa [activeAt_setActive_of_ne false hne] at h⟩

end JobTable

/-! ## The slot of the launch, and the groups -/

namespace Console

variable {s s' : Console} {e : Event}

/-- Up to the registration the slot is the next one; from the lookup on `job` is the slot, or the
job was over by then. -/
def Placed (s : Console) : Prop :=
  match s.place with
  | .fork =>
    s.slot = s.table.jobs.length ∧ s.num = s.slot + 1 ∧ s.forked.length ≤ s.names.length
  | .fill =>
    s.slot = s.table.jobs.length ∧ s.num = s.slot + 1 ∧ s.forked.length = s.names.length
  | .activate | .announce | .lookup => s.slot < s.table.jobs.length ∧ s.num = s.slot + 1
  | .takeTerminal | .wait _ | .giveBack _ | .leave _ =>
    s.slot < s.table.jobs.length ∧
      (s.job = some s.slot ∨ s.job = none ∧ s.table.activeAt s.slot = false)
  | _ => True

/-- The first group that is not taken. -/
def bound (s : Console) : ℕ :=
  match s.place with
  | .fork | .fill | .fault _ => s.slot + 1
  | _ => s.table.jobs.length

/-- The stages are in `pids` of `run_foreground`, and not in the table. -/
def forking (s : Console) : Bool :=
  match s.place with
  | .fork | .fill => true
  | _ => false

/-- Every group is a slot's, and its processes are in the slot's list; the one being launched has
them in `pids`. -/
structure Housed (s : Console) : Prop where
  serial : s.table.Serial
  placed : s.Placed
  groups : ∀ p g, s.children.InGroup p g → g < s.bound
  forked : s.forking → ∀ p, s.children.InGroup p s.slot → p ∈ s.forked
  listed : ∀ k < s.table.jobs.length, ∀ p, s.children.InGroup p k → p ∈ s.table.pidsAt k

theorem housed_initial : initial.Housed :=
  ⟨⟨rfl, nofun⟩, trivial, fun _ _ ⟨_, hx, _⟩ => (nomatch hx), nofun, nofun⟩

theorem Housed.transfer (h : s.Housed) (hserial : s'.table.Serial) (hplaced : s'.Placed)
    (hbound : s'.bound = s.bound)
    (hforking : s'.forking → s.forking ∧ s'.slot = s.slot ∧ s'.forked = s.forked)
    (hlen : s'.table.jobs.length = s.table.jobs.length)
    (hin : ∀ p g, s'.children.InGroup p g → s.children.InGroup p g)
    (hlisted : ∀ k p, s'.children.InGroup p k → p ∈ s.table.pidsAt k → p ∈ s'.table.pidsAt k) :
    s'.Housed := by
  refine ⟨hserial, hplaced, fun p g hp => ?_, fun hf p hp => ?_, fun k hk p hp => ?_⟩
  · rw [hbound]
    exact h.groups p g (hin p g hp)
  · obtain ⟨hf, hslot, hforked⟩ := hforking hf
    rw [hslot] at hp
    rw [hforked]
    exact h.forked hf p (hin p s.slot hp)
  · exact hlisted k p hp (h.listed k (hlen ▸ hk) p (hin p k hp))

/-- A step that leaves the shell where it is. -/
theorem Housed.stay (h : s.Housed) (hserial : s'.table.Serial) (hplace : s'.place = s.place)
    (hslot : s'.slot = s.slot) (hnum : s'.num = s.num) (hjob : s'.job = s.job)
    (hnames : s'.names = s.names) (hforked : s'.forked = s.forked)
    (hlen : s'.table.jobs.length = s.table.jobs.length)
    (hactive : s'.table.activeAt s.slot = true → s.table.activeAt s.slot = true)
    (hin : ∀ p g, s'.children.InGroup p g → s.children.InGroup p g)
    (hlisted : ∀ k p, s'.children.InGroup p k → p ∈ s.table.pidsAt k → p ∈ s'.table.pidsAt k) :
    s'.Housed := by
  have hinactive : s.table.activeAt s.slot = false → s'.table.activeAt s.slot = false := by
    intro hs
    by_contra hs'
    rw [hactive (by simpa using hs')] at hs
    cases hs
  refine h.transfer hserial ?_ (by rw [bound, bound, hplace, hslot, hlen]) ?_ hlen hin hlisted
  · have hplaced := h.placed
    rw [Placed] at hplaced ⊢
    rw [hplace, hslot, hnum, hjob, hnames, hforked, hlen]
    split at hplaced
    case h_6 | h_7 | h_8 | h_9 => exact hplaced.imp_right (Or.imp_right (And.imp_right hinactive))
    all_goals exact hplaced
  · intro hf
    rw [forking, hplace] at hf
    exact ⟨hf, hslot, hforked⟩

/-- A step that changes no process and no slot but for its state or its activity. -/
theorem Housed.write (h : s.Housed) (hplaced : s'.Placed) (hbound : s'.bound = s.bound)
    (hforking : s'.forking → s.forking ∧ s'.slot = s.slot ∧ s'.forked = s.forked)
    (hchildren : s'.children = s.children) (hnext : s'.table.nextJob = s.table.nextJob)
    (hlen : s'.table.jobs.length = s.table.jobs.length)
    (hnumber : ∀ k, s'.table.numberAt k = s.table.numberAt k)
    (hpids : ∀ k, s'.table.pidsAt k = s.table.pidsAt k) : s'.Housed :=
  h.transfer (h.serial.congr hnext hlen hnumber) hplaced hbound hforking hlen
    (fun _ _ hp => hchildren ▸ hp) fun k _ _ hp => (hpids k).symm ▸ hp

/-- …and no slot either. -/
theorem Housed.move (h : s.Housed) (hplaced : s'.Placed) (hbound : s'.bound = s.bound)
    (hforking : s'.forking = false) (hchildren : s'.children = s.children)
    (hjobs : s'.table.jobs = s.table.jobs) (hnext : s'.table.nextJob = s.table.nextJob) :
    s'.Housed :=
  h.write hplaced hbound (fun hf => nomatch hforking.symm.trans hf) hchildren hnext
    (congrArg _ hjobs) (fun k => by rw [JobTable.numberAt, JobTable.numberAt, hjobs])
    fun k => by rw [JobTable.pidsAt, JobTable.pidsAt, hjobs]

/-- …but for one, whose processes it keeps. -/
theorem Housed.modify (h : s.Housed) (hplaced : s'.Placed) (hbound : s'.bound = s.bound)
    (hforking : s'.forking = false) (hchildren : s'.children = s.children)
    (hnext : s'.table.nextJob = s.table.nextJob)
    {k : ℕ} {f : Job → Job} (hjobs : s'.table.jobs = s.table.jobs.modify k f)
    (hnumber : ∀ j, (f j).number = j.number) (hpids : ∀ j, (f j).pids = j.pids) : s'.Housed := by
  have hjobs : s'.table.jobs = (s.table.modify k f hnumber).jobs := hjobs
  refine h.write hplaced hbound (fun hf => nomatch hforking.symm.trans hf) hchildren hnext ?_
    (fun i => ?_) fun i => ?_
  · rw [hjobs]
    exact JobTable.length_jobs_modify f hnumber
  · rw [JobTable.numberAt, hjobs]
    exact JobTable.numberAt_modify
  · rw [JobTable.pidsAt, hjobs]
    exact congrArg (Option.getD · []) (JobTable.map_modify hpids)

/-- `register_job` takes the slot, and lists the stages in it. -/
theorem Housed.fill (h : s.Housed) (hplace : s.place = .fill) {table : JobTable}
    (hfill : s.table.fillSlot (s.forked.headD 0) s.forked s.names s.command s.background =
      .ok table) : Housed { s with table, place := .activate } := by
  have hplaced := h.placed
  simp only [Placed, hplace] at hplaced
  obtain ⟨hslot, hnum, hfull⟩ := hplaced
  have hlen := JobTable.length_jobs_fillSlot hfill
  refine ⟨⟨?_, fun k hk => ?_⟩, ⟨?_, hnum⟩, fun p g hp => ?_, nofun, fun k hk p hp => ?_⟩
  · obtain ⟨j, -, -, -, -, hnext⟩ := JobTable.jobs_fillSlot hfill
    change table.nextJob = table.jobs.length + 1
    rw [hnext, hlen, h.serial.nextJob]
  · change table.numberAt k = _
    obtain ⟨j, hjobs, -, hnumber, -⟩ := JobTable.jobs_fillSlot hfill
    by_cases hks : k < s.table.jobs.length
    · rw [JobTable.numberAt, hjobs, List.getElem?_append_left hks]
      exact h.serial.number k hks
    · have hk : k = s.table.jobs.length := by
        change k < table.jobs.length at hk
        omega
      rw [hk, (JobTable.numberAt_fillSlot hfill).mpr rfl, h.serial.nextJob]
  · change s.slot < table.jobs.length
    omega
  · have hlt := h.groups p g hp
    simp only [bound, hplace] at hlt
    change g < table.jobs.length
    omega
  · change p ∈ table.pidsAt k
    by_cases hks : k = s.table.jobs.length
    · rw [hks, JobTable.pidsAt_fillSlot hfill hfull.symm]
      exact h.forked (by rw [forking, hplace]) p (by rw [hslot, ← hks]; exact hp)
    · rw [JobTable.pidsAt_fillSlot_of_ne hfill hks]
      change k < table.jobs.length at hk
      exact h.listed k (by omega) p hp

theorem housed_main (h : s.Housed) (hstep : s.main = some s') : s'.Housed := by
  have hplaced := h.placed
  rw [Placed] at hplaced
  rw [main] at hstep
  split at hstep <;> rename_i hplace <;> simp only [hplace] at hplaced
  case h_2 => -- `.fork`
    obtain ⟨hfull, hstep⟩ := Option.ite_none_left_eq_some.mp hstep
    cases hstep
    obtain ⟨hslot, hnum, hle⟩ := hplaced
    refine h.write ⟨hslot, hnum, Nat.le_antisymm hle (Nat.le_of_not_lt hfull)⟩
      (by simp only [bound, hplace])
      (fun _ => ⟨by rw [forking, hplace], rfl, rfl⟩) rfl rfl rfl (fun _ => rfl) fun _ => rfl
  case h_3 => -- `.fill`
    split at hstep <;> cases hstep
    · exact h.move trivial (by simp only [bound, hplace]) rfl rfl rfl rfl
    · rename_i hfill
      exact h.fill hplace hfill
  case h_4 => -- `.activate`
    obtain ⟨hslot, hnum⟩ := hplaced
    cases hstep
    have hlen := JobTable.length_jobs_setActive (t := s.table) (k := s.slot) true
    split
    · exact h.modify ⟨hlen ▸ hslot, hnum⟩ (by simp only [bound, hplace, hlen]) rfl rfl rfl rfl
        (fun _ => rfl) fun _ => rfl
    · exact h.modify ⟨hlen ▸ hslot, hnum⟩ (by simp only [bound, hplace, hlen]) rfl rfl rfl rfl
        (fun _ => rfl) fun _ => rfl
  case h_6 => -- `.lookup`
    obtain ⟨hslot, hnum⟩ := hplaced
    cases hstep
    refine h.move ⟨hslot, ?_⟩ (by simp only [bound, hplace]) rfl rfl rfl rfl
    change s.table.findJobByNumber s.num = _ ∨ s.table.findJobByNumber s.num = _ ∧ _
    rw [hnum, h.serial.findJobByNumber hslot]
    split
    · exact .inl rfl
    · rename_i hactive
      exact .inr ⟨rfl, by simpa using hactive⟩
  case h_8 => -- `.wait`
    obtain ⟨-, hstep⟩ := Option.ite_none_right_eq_some.mp hstep
    cases hstep
    exact h.move hplaced (by simp only [bound, hplace]) rfl rfl rfl rfl
  case h_10 => -- `.leave`
    split at hstep <;> cases hstep
    · exact h.move trivial (by simp only [bound, hplace]) rfl rfl rfl rfl
    · split
      · exact h.move trivial (by simp only [bound, hplace]) rfl rfl rfl rfl
      · exact h.modify trivial (by simp only [bound, hplace, JobTable.length_jobs_setActive])
          rfl rfl rfl rfl (fun _ => rfl) fun _ => rfl
  case h_13 k how => -- `.cont`
    cases hstep
    refine h.transfer h.serial ?_ ?_ ?_ rfl (fun _ _ hp => Children.inGroup_signal.mp hp)
      fun _ _ _ hp => hp
    all_goals cases how
    · trivial
    · trivial
    · simp only [bound, hplace]
    · simp only [bound, hplace]
    · exact nofun
    · exact nofun
  case h_14 | h_17 => -- `.run` and `.mark`
    cases hstep
    exact h.modify trivial (by simp [bound, hplace]) rfl rfl rfl rfl (fun _ => rfl) fun _ => rfl
  case h_18 => -- `.await`
    obtain ⟨-, hstep⟩ := Option.ite_none_right_eq_some.mp hstep
    cases hstep
    exact h.move trivial (by simp only [bound, hplace]) rfl rfl rfl rfl
  case h_19 => -- `.settle`
    cases hstep
    split
    · exact h.modify trivial (by simp only [bound, hplace, JobTable.length_jobs_setActive])
        rfl rfl rfl rfl (fun _ => rfl) fun _ => rfl
    · exact h.move trivial (by simp only [bound, hplace]) rfl rfl rfl rfl
  case h_20 => -- `.expired`
    cases hstep
    exact h.modify trivial (by simp [bound, hplace]) rfl rfl rfl rfl (fun _ => rfl) fun _ => rfl
  case h_1 => -- `.prompt`
    cases hstep
    exact h.stay (h.serial.congr rfl rfl fun _ => rfl) rfl rfl rfl rfl rfl rfl rfl id
      (fun _ _ hp => hp) fun _ _ _ hp => hp
  case h_5 | h_15 => -- `.announce` and `.say`
    cases hstep
    exact h.move trivial (by simp only [bound, hplace, JobTable.jobs_print]) rfl rfl rfl rfl
  case h_12 => -- `.flush`
    cases hstep
    exact h.move trivial (by simp only [bound, hplace, JobTable.jobs_flushPendingBgMsg]) rfl rfl
      rfl rfl
  case h_22 => cases hstep
  all_goals
    cases hstep
    first
      | exact h.move trivial (by simp only [bound, hplace]) rfl rfl rfl rfl
      | exact h.move hplaced (by simp only [bound, hplace]) rfl rfl rfl rfl

/-- A new stage goes to its group and to `pids`. -/
theorem Housed.fork (h : s.Housed) {p : Pid} (hplace : s.place = .fork)
    (hlt : s.forked.length < s.names.length) (hfresh : p ∉ s.children.pids ++ s.children.reaped) :
    Housed { s with children := s.children.fork p s.slot hfresh, forked := s.forked ++ [p] } := by
  have hplaced := h.placed
  simp only [Placed, hplace] at hplaced
  obtain ⟨hslot, hnum, -⟩ := hplaced
  have hforking : s.forking := by rw [forking, hplace]
  refine ⟨h.serial, ?_, fun q g hq => ?_, fun _ q hq => ?_, fun k hk q hq => ?_⟩
  · simp only [Placed, hplace, List.length_append, List.length_singleton]
    exact ⟨hslot, hnum, hlt⟩
  · have hbound : s.bound = s.slot + 1 := by simp only [bound, hplace]
    simp only [bound, hplace]
    rcases (Children.inGroup_fork (h := hfresh)).mp hq with hq | ⟨-, rfl⟩
    · rw [← hbound]
      exact h.groups q g hq
    · exact Nat.lt_succ_self _
  · rcases (Children.inGroup_fork (h := hfresh)).mp hq with hq | ⟨rfl, -⟩
    · exact List.mem_append_left _ (h.forked hforking q hq)
    · exact List.mem_append_right _ (.head _)
  · rcases (Children.inGroup_fork (h := hfresh)).mp hq with hq | ⟨-, rfl⟩
    · exact h.listed k hk q hq
    · exact absurd hk (Nat.not_lt.mpr (Nat.le_of_eq hslot.symm))

/-- **Every process has its place.** -/
theorem housed_step (h : s.Housed) (hstep : s.step e = some s') : s'.Housed := by
  have hplaced := h.placed
  rw [Placed] at hplaced
  cases moves_of_step hstep with
  | main hmain => exact housed_main h hmain
  | idle => exact h
  | @launch names command background hplace =>
    have hbound : s.bound = s.table.jobs.length := by simp only [bound, hplace]
    have hserial : (if background then s.table else
        { s.table with fgRunning := true } : JobTable).Serial := by
      split <;> exact h.serial.congr rfl rfl fun _ => rfl
    refine ⟨hserial, ⟨?_, ?_, Nat.zero_le _⟩, fun p g hp => ?_, fun _ p hp => ?_, ?_⟩
    · cases background <;> rfl
    · exact h.serial.nextJob
    · exact Nat.lt_succ_of_lt (hbound ▸ h.groups p g hp)
    · exact absurd (hbound ▸ h.groups p _ hp) (Nat.lt_irrefl _)
    · cases background <;> exact h.listed
  | resume hplace => exact h.move trivial (by simp only [bound, hplace]) rfl rfl rfl rfl
  | ping | ctrlZ =>
    exact h.stay h.serial rfl rfl rfl rfl rfl rfl rfl id
      (fun _ _ hp => Children.inGroup_signal.mp hp) fun _ _ _ hp => hp
  | fork hplace hlt hfresh => exact h.fork hplace hlt hfresh
  | exits =>
    exact h.stay h.serial rfl rfl rfl rfl rfl rfl rfl id
      (fun _ _ hp => (Children.inGroup_setPhase _).mp hp) fun _ _ _ hp => hp
  | signal | handled =>
    exact h.stay h.serial rfl rfl rfl rfl rfl rfl rfl id (fun _ _ hp => hp) fun _ _ _ hp => hp
  | reaps hphase hp =>
    exact h.stay h.serial.reapFinished rfl rfl rfl rfl rfl rfl JobTable.length_jobs_reapFinished
      JobTable.activeAt_of_reapFinished (fun _ _ hq => ((Children.inGroup_reap (h := hp)).mp hq).1)
      fun _ _ hq hmem =>
        JobTable.mem_pidsAt_reapFinished hmem ((Children.inGroup_reap (h := hp)).mp hq).2
  | collect hplace hp =>
    simp only [hplace] at hplaced
    exact h.transfer h.serial hplaced (by simp only [bound, hplace]) (by simp [forking]) rfl
      (fun _ _ hq => ((Children.inGroup_reap (h := hp.mem_pids)).mp hq).1) fun _ _ _ hq => hq
  | collectResumed hplace hp =>
    exact h.transfer h.serial trivial (by simp only [bound, hplace]) (by simp [forking]) rfl
      (fun _ _ hq => ((Children.inGroup_reap (h := hp.mem_pids)).mp hq).1) fun _ _ _ hq => hq
  | @noticeStop p remaining hplace =>
    simp only [hplace] at hplaced
    obtain ⟨hslot, hjob⟩ := hplaced
    have hin : ∀ q g, (s.children.setPhase p (.stopped true)).InGroup q g →
        s.children.InGroup q g := fun _ _ hq => (Children.inGroup_setPhase _).mp hq
    rcases hjob with hjob | ⟨hjob, hactive⟩
    · have hlen := JobTable.length_jobs_setState (t := s.table) (k := s.slot) .stopped
      refine h.transfer ?_ ⟨?_, .inl hjob⟩ ?_ (by simp [forking]) ?_ hin ?_ <;> rw [hjob]
      · exact h.serial.congr rfl hlen fun _ => JobTable.numberAt_setState .stopped
      · exact hlen ▸ hslot
      · simp only [bound, hplace, Option.map_some, Option.getD_some, JobTable.jobs_print, hlen]
      · exact hlen
      · exact fun _ _ _ hq => (JobTable.pidsAt_setState .stopped).symm ▸ hq
    · refine h.transfer ?_ ⟨?_, .inr ⟨hjob, ?_⟩⟩ ?_ (by simp [forking]) ?_ hin ?_ <;> rw [hjob]
      · exact h.serial.congr rfl rfl fun _ => rfl
      · exact hslot
      · exact hactive
      · simp only [bound, hplace, Option.map_none, Option.getD_none, JobTable.jobs_print]
      · rfl
      · exact fun _ _ _ hq => hq
  | noticeStopResumed hplace =>
    exact h.transfer (h.serial.congr rfl (JobTable.length_jobs_setState .stopped) fun _ =>
      JobTable.numberAt_setState .stopped) trivial (by simp [bound, hplace]) (by simp [forking])
      (JobTable.length_jobs_setState .stopped)
      (fun _ _ hq => (Children.inGroup_setPhase _).mp hq) fun _ _ _ hq =>
        (JobTable.pidsAt_setState .stopped).symm ▸ hq
  | noChild hplace =>
    simp only [hplace] at hplaced
    exact h.move hplaced (by simp only [bound, hplace]) rfl rfl rfl rfl
  | noChildResumed hplace => exact h.move trivial (by simp only [bound, hplace]) rfl rfl rfl rfl
  | timeout hplace =>
    refine h.move trivial ?_ rfl rfl rfl rfl
    rcases hplace with hplace | hplace <;> simp only [bound, hplace]

end Console

end MiniProject.Shell
