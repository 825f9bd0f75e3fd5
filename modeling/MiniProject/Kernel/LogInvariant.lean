import MiniProject.Kernel.Log
import Mathlib.Data.Finset.Card

/-!
# Kernel/LogInvariant — what the log amounts to, and what holds at every moment

`recovered` is the home blocks of a disk with its log carried out.  `Sound` says how far `commit`
or recovery is, on disk and in the buffers: a buffer differs from its block only while it is pinned,
or in the hands of a process that has yet to log it.
-/

namespace MiniProject.Kernel.Log

variable {A : Type}

/-! ## What the disk amounts to -/

/-- The writes that the log on disk stands for. -/
def entries (start : BlockNo) (disk : BlockNo → Block) : List (BlockNo × Block) :=
  (readHead (disk start)).mapIdx fun i b => (b, disk (slot start i))

/-- The disk with its log carried out. -/
def recovered (start : BlockNo) (disk : BlockNo → Block) : BlockNo → Block :=
  replay disk (entries start disk)

/-- A log names different blocks outside itself, and no more than it has room for. -/
structure Valid (start : BlockNo) (lh : List BlockNo) : Prop where
  nodup : lh.Nodup
  home : ∀ b ∈ lh, Home start b
  length_le : lh.length ≤ logblocks

section Disk

variable {start b : BlockNo} {disk disk' : BlockNo → Block} {d : Block} {x : BlockNo × Block}

theorem mem_entries :
    x ∈ entries start disk ↔
      ∃ i, (readHead (disk start))[i]? = some x.1 ∧ x.2 = disk (slot start i) := by
  rw [entries, List.mem_iff_getElem?]
  simp only [List.getElem?_mapIdx, Option.map_eq_some_iff]
  constructor
  · rintro ⟨i, b, hb, rfl⟩
    exact ⟨i, hb, rfl⟩
  · rintro ⟨i, hb, hd⟩
    exact ⟨i, x.1, hb, by rw [← hd]⟩

theorem map_fst_entries : (entries start disk).map Prod.fst = readHead (disk start) := by
  refine List.ext_getElem? fun i => ?_
  rw [entries, List.getElem?_map, List.getElem?_mapIdx, Option.map_map]
  exact Option.map_id'

/-- An empty log stands for nothing. -/
theorem recovered_of_nil (h : readHead (disk start) = []) : recovered start disk = disk := by
  rw [recovered, entries, h, List.mapIdx_nil, replay]

/-- Nor does a log that was carried out. -/
theorem recovered_of_installed
    (h : ∀ i b, (readHead (disk start))[i]? = some b → disk b = disk (slot start i)) :
    recovered start disk = disk := by
  refine replay_eq_self fun x hx => ?_
  obtain ⟨i, hb, hd⟩ := mem_entries.mp hx
  rw [h i x.1 hb, hd]

/-- **Carrying out an entry of the log changes nothing.** -/
theorem recovered_install (hvalid : Valid start (readHead (disk start))) {i : ℕ}
    (hb : (readHead (disk start))[i]? = some b) :
    recovered start (Function.update disk b (disk (slot start i))) = recovered start disk := by
  have hmem : b ∈ readHead (disk start) := List.mem_of_getElem? hb
  have hhome : Home start b := hvalid.home b hmem
  have hhead : Function.update disk b (disk (slot start i)) start = disk start :=
    Function.update_of_ne (start_ne_home hhome) _ _
  have hentries :
      entries start (Function.update disk b (disk (slot start i))) = entries start disk := by
    refine List.ext_getElem? fun j => ?_
    rw [entries, entries, List.getElem?_mapIdx, List.getElem?_mapIdx, hhead]
    cases hj : (readHead (disk start))[j]? with
    | none => rfl
    | some c =>
      have hlt : j < logblocks :=
        Nat.lt_of_lt_of_le (List.getElem?_eq_some_iff.mp hj).1 hvalid.length_le
      rw [Option.map_some, Option.map_some, Function.update_of_ne (slot_ne_home hlt hhome)]
  rw [recovered, hentries, recovered]
  exact replay_update (by rwa [map_fst_entries])

/-- **The commit**: with the header, the log stands for all that it copied. -/
theorem recovered_commit {lh : List BlockNo} {view : BlockNo → Block} (hvalid : Valid start lh)
    (hcopied : ∀ i b, lh[i]? = some b → disk (slot start i) = view b)
    (hrest : ∀ b, Home start b → b ∉ lh → disk b = view b) (hb : Home start b) :
    recovered start (Function.update disk start (writeHead lh d)) b = view b := by
  have hhead : Kernel.readHead (Function.update disk start (writeHead lh d) start) = lh := by
    rw [Function.update_self, readHead_writeHead hvalid.length_le]
  rw [recovered, replay_eq_of_agree (g := view), map_fst_entries, hhead,
    Function.update_of_ne (Ne.symm (start_ne_home hb))]
  · by_cases hmem : b ∈ lh
    · rw [if_pos hmem]
    · rw [if_neg hmem, hrest b hb hmem]
  · intro x hx
    obtain ⟨i, hi, hd⟩ := mem_entries.mp hx
    rw [hhead] at hi
    have hlt : i < logblocks :=
      Nat.lt_of_lt_of_le (List.getElem?_eq_some_iff.mp hi).1 hvalid.length_le
    rw [hd, Function.update_of_ne (slot_ne_start hlt), hcopied i x.1 hi]

end Disk

/-! ## What holds at every moment -/

/-- The blocks that are logged and not yet at home. -/
def unflushed (lh : List BlockNo) : LogStage → List BlockNo
  | .idle | .copy _ | .head => lh
  | .install tail => lh.drop tail
  | _ => []

/-- How far `commit` or recovery is, on disk. -/
def Staged (start : BlockNo) (lh : List BlockNo) (disk view : BlockNo → Block) : LogStage → Prop
  | .idle => readHead (disk start) = []
  | .copy tail => readHead (disk start) = [] ∧
    ∀ i < tail, ∀ b, lh[i]? = some b → disk (slot start i) = view b
  | .head => readHead (disk start) = [] ∧ ∀ i b, lh[i]? = some b → disk (slot start i) = view b
  | .install _ => readHead (disk start) = lh ∧
    ∀ i b, lh[i]? = some b → disk (slot start i) = view b
  | .clear | .reset => lh = [] ∧
    ∀ i b, (readHead (disk start))[i]? = some b → disk b = disk (slot start i)
  | .finish => lh = [] ∧ readHead (disk start) = []
  | .boot => lh = []
  | .recover tail => readHead (disk start) = lh ∧
    ∀ i < tail, ∀ b, lh[i]? = some b → disk b = disk (slot start i)

/-- The invariant: a buffer differs from its block only while it is pinned, or in the hands of a
process that has yet to log it. -/
structure Sound (start : BlockNo) (s : Log A) : Prop where
  coherent : ∀ b, s.pins b = 0 → b ∉ s.dirty → s.view b = s.disk b
  pins_eq : ∀ b, s.pins b = if b ∈ unflushed s.lh s.stage then 1 else 0
  dirty : ∀ b ∈ s.dirty, ∃ a, s.held b = some a ∧ s.op a ≠ none
  held_home : ∀ b a, s.held b = some a → Home start b
  lh_valid : Valid start s.lh
  head_valid : Valid start (readHead (s.disk start))
  staged : Staged start s.lh s.disk s.view s.stage
  committing_eq : s.committing = s.stage.committing
  idle : ∀ a, s.op a ≠ none → s.stage = .idle
  active : ∃ F : Finset A, (∀ a, a ∈ F ↔ s.op a ≠ none) ∧ s.outstanding = F.card
  quiet : s.stage = .idle → s.outstanding = 0 → s.lh = []

variable {start : BlockNo} {s s' : Log A} {a : A} {b : BlockNo} {d : Block} {e : Event A}

theorem Valid.nil : Valid start [] := ⟨List.nodup_nil, by simp, Nat.zero_le _⟩

theorem Valid.lt (h : Valid start s.lh) {i : ℕ} (hi : s.lh[i]? = some b) : i < logblocks :=
  Nat.lt_of_lt_of_le (List.getElem?_eq_some_iff.mp hi).1 h.length_le

theorem mem_of_mem_unflushed {lh : List BlockNo} {stage : LogStage} (hb : b ∈ unflushed lh stage) :
    b ∈ lh := by
  cases stage with
  | idle | copy | head => exact hb
  | install tail => exact List.mem_of_mem_drop hb
  | clear | finish | boot | recover | reset => cases hb

namespace Sound

theorem boot {disk : BlockNo → Block} (h : Valid start (readHead (disk start))) :
    Sound start (boot disk : Log A) where
  coherent _ _ _ := rfl
  pins_eq _ := rfl
  dirty _ hb := absurd hb List.not_mem_nil
  held_home _ _ hb := absurd hb (by simp [Log.boot])
  lh_valid := .nil
  head_valid := h
  staged := rfl
  committing_eq := rfl
  idle _ ha := absurd rfl ha
  active := ⟨∅, by simp [Log.boot], rfl⟩
  quiet _ _ := rfl

theorem committing_of (h : Sound start s) {stage : LogStage} (hstage : s.stage = stage) :
    s.committing = stage.committing := hstage ▸ h.committing_eq

/-- Nothing is dirty while no call is under way. -/
theorem dirty_eq_nil (h : Sound start s) (hop : ∀ a, s.op a = none) : s.dirty = [] := by
  refine List.eq_nil_iff_forall_not_mem.mpr fun b hb => ?_
  obtain ⟨a, -, ha⟩ := h.dirty b hb
  exact ha (hop a)

/-- …which is so at every stage but one. -/
theorem op_eq_none (h : Sound start s) (hstage : s.stage ≠ .idle) (a : A) : s.op a = none := by
  by_contra ha
  exact hstage (h.idle a ha)

theorem outstanding_eq_zero (h : Sound start s) (hop : ∀ a, s.op a = none) : s.outstanding = 0 := by
  obtain ⟨F, hF, hcard⟩ := h.active
  have hnil : F = ∅ := Finset.eq_empty_of_forall_notMem fun a ha => (hF a).mp ha (hop a)
  rw [hcard, hnil]
  rfl

theorem not_dirty (h : Sound start s) (hfree : s.Free b) : b ∉ s.dirty := fun hb => by
  obtain ⟨a, ha, -⟩ := h.dirty b hb
  rw [Free, ha] at hfree
  cases hfree

/-- The log's own blocks are the same in the buffers and on disk. -/
theorem view_eq_of_not_home (h : Sound start s) (hb : ¬ Home start b) : s.view b = s.disk b := by
  refine h.coherent b ?_ fun hdirty => ?_
  · rw [h.pins_eq, if_neg fun hmem => hb (h.lh_valid.home b (mem_of_mem_unflushed hmem))]
  · obtain ⟨a, ha, -⟩ := h.dirty b hdirty
    exact hb (h.held_home b a ha)

/-- **`bread`**, of a block outside the log. -/
theorem bread (h : Sound start s) (hb : Home start b) (hfree : s.Free b) :
    Sound start { s.bread b with held := Function.update s.held b (some a) } := by
  have hview :
      ({ s.bread b with held := Function.update s.held b (some a) } : Log A).view = s.view :=
    view_bread
  refine { h with coherent := ?_, dirty := ?_, held_home := ?_, staged := ?_ }
  · rw [hview]
    exact h.coherent
  · intro b' hb'
    obtain ⟨a', ha', hop'⟩ := h.dirty b' hb'
    have hne : b' ≠ b := fun heq => h.not_dirty hfree (heq ▸ hb')
    exact ⟨a', by simpa [hne] using ha', hop'⟩
  · intro b' a' ha'
    by_cases hb' : b' = b
    · exact hb' ▸ hb
    · exact h.held_home b' a' (by simpa [hb'] using ha')
  · rw [hview]
    exact h.staged

/-- A change to a buffer, inside a call. -/
theorem modify (h : Sound start s) (hop : s.op a ≠ none) (hheld : s.held b = some a) :
    Sound start { s.fill b d with dirty := b :: s.dirty } := by
  have hview : ({ s.fill b d with dirty := b :: s.dirty } : Log A).view
      = Function.update s.view b d := view_fill
  have hidle : s.stage = .idle := h.idle a hop
  refine { h with coherent := ?_, dirty := ?_, staged := ?_ }
  · intro b' hpins hb'
    rw [List.mem_cons, not_or] at hb'
    rw [hview, Function.update_of_ne hb'.1]
    exact h.coherent b' hpins hb'.2
  · intro b' hb'
    rcases List.mem_cons.mp hb' with rfl | hb'
    · exact ⟨a, hheld, hop⟩
    · exact h.dirty b' hb'
  · have hstaged := h.staged
    change Staged start s.lh s.disk _ s.stage
    rw [hidle] at hstaged ⊢
    exact hstaged

/-- `brelse`, of what was logged. -/
theorem brelse (h : Sound start s) (hlogged : b ∉ s.dirty) :
    Sound start { s with held := Function.update s.held b none } := by
  refine { h with dirty := ?_, held_home := ?_ }
  · intro b' hb'
    obtain ⟨a', ha', hop'⟩ := h.dirty b' hb'
    have hne : b' ≠ b := fun heq => hlogged (heq ▸ hb')
    exact ⟨a', by simpa [hne] using ha', hop'⟩
  · intro b' a' ha'
    by_cases hb' : b' = b
    · simp [hb'] at ha'
    · exact h.held_home b' a' (by simpa [hb'] using ha')

/-- A buffer that nobody has and the log does not need is recycled. -/
theorem evict (h : Sound start s) (hfree : s.Free b) (hpins : s.pins b = 0) :
    Sound start { s with cache := Function.update s.cache b none } := by
  have hview : ({ s with cache := Function.update s.cache b none } : Log A).view = s.view :=
    view_evict (h.coherent b hpins (h.not_dirty hfree))
  refine { h with coherent := ?_, staged := ?_ }
  · rw [hview]
    exact h.coherent
  · rw [hview]
    exact h.staged

/-! ### `commit` and recovery -/

/-- `bwrite` leaves a buffer and its block the same. -/
theorem coherent_update (h : Sound start s)
    (hs : ∀ b', b' ≠ b → s'.pins b' = 0 → b' ∉ s'.dirty → s.pins b' = 0 ∧ b' ∉ s.dirty)
    (hview : s'.view = Function.update s.view b d) (hdisk : s'.disk = Function.update s.disk b d)
    (b' : BlockNo) (hpins : s'.pins b' = 0) (hb' : b' ∉ s'.dirty) : s'.view b' = s'.disk b' := by
  rw [hview, hdisk]
  by_cases heq : b' = b
  · rw [heq, Function.update_self, Function.update_self]
  · obtain ⟨hpins, hdirty⟩ := hs b' heq hpins hb'
    rw [Function.update_of_ne heq, Function.update_of_ne heq, h.coherent b' hpins hdirty]

/-- `write_log` copies a block to the log. -/
theorem writeLog (h : Sound start s) {tail : ℕ} (hstage : s.stage = .copy tail)
    (hb : s.lh[tail]? = some b) :
    Sound start ((s.writeLog start tail b).enter (.copy (tail + 1))) := by
  have hlt : tail < logblocks := h.lh_valid.lt hb
  have hhead : Function.update s.disk (slot start tail) (s.view b) start = s.disk start :=
    Function.update_of_ne (slot_ne_start hlt).symm _ _
  have hpins := h.pins_eq
  have hstaged := h.staged
  rw [hstage] at hpins hstaged
  refine { h with
    coherent := h.coherent_update (fun _ _ hpins hb' => ⟨hpins, hb'⟩) view_writeLog disk_writeLog
    pins_eq := hpins, head_valid := ?_, staged := ?_
    committing_eq := (h.committing_of hstage :)
    idle := fun a' ha' => absurd (h.op_eq_none (by simp [hstage]) a') ha'
    quiet := fun hidle => by cases hidle }
  · rw [disk_enter, disk_writeLog, hhead]
    exact h.head_valid
  · rw [view_enter, view_writeLog, disk_enter, disk_writeLog]
    refine ⟨(congrArg Kernel.readHead hhead).trans hstaged.1,
      fun i hi b' (hb' : s.lh[i]? = some b') => ?_⟩
    have hhome : Home start b' := h.lh_valid.home b' (List.mem_of_getElem? hb')
    rw [Function.update_of_ne (slot_ne_home hlt hhome).symm]
    rcases Nat.lt_succ_iff_lt_or_eq.mp hi with hi | rfl
    · have hne : slot start i ≠ slot start tail := fun heq =>
        Nat.ne_of_lt hi (slot_inj (h.lh_valid.lt hb') hlt heq)
      rw [Function.update_of_ne hne, hstaged.2 i hi b' hb']
    · rw [hb] at hb'
      cases hb'
      rw [Function.update_self]

/-- `write_head` commits. -/
theorem commit (h : Sound start s) (hstage : s.stage = .head) :
    Sound start ((s.writeHeader start).enter (.install 0)) := by
  have hhead : Kernel.readHead (Function.update s.disk start (writeHead s.lh (s.view start)) start)
      = s.lh := by rw [Function.update_self, readHead_writeHead h.lh_valid.length_le]
  have hpins := h.pins_eq
  have hstaged := h.staged
  rw [hstage] at hpins hstaged
  refine { h with
    coherent := h.coherent_update (fun _ _ hpins hb' => ⟨hpins, hb'⟩) view_writeHeader
      disk_writeHeader
    pins_eq := hpins, head_valid := hhead ▸ h.lh_valid, staged := ⟨hhead, ?_⟩
    committing_eq := (h.committing_of hstage :)
    idle := fun a' ha' => absurd (h.op_eq_none (by simp [hstage]) a') ha'
    quiet := fun hidle => by cases hidle }
  intro i b' (hb' : s.lh[i]? = some b')
  have hhome : Home start b' := h.lh_valid.home b' (List.mem_of_getElem? hb')
  rw [view_enter, view_writeHeader, disk_enter, disk_writeHeader,
    Function.update_of_ne (start_ne_home hhome).symm,
    Function.update_of_ne (slot_ne_start (h.lh_valid.lt hb')), hstaged.2 i b' hb']

/-- What `install_trans` writes to a block is what the buffer holds. -/
theorem view_slot (h : Sound start s) {tail : ℕ} (hstage : s.stage = .install tail) {i : ℕ}
    (hb : s.lh[i]? = some b) : s.view (slot start i) = s.view b := by
  have hstaged := h.staged
  rw [hstage] at hstaged
  rw [h.view_eq_of_not_home (not_home_slot (h.lh_valid.lt hb)), hstaged.2 i b hb]

/-- `install_trans` writes a block home, and lets go of the buffer. -/
theorem install (h : Sound start s) {tail : ℕ} (hstage : s.stage = .install tail)
    (hb : s.lh[tail]? = some b) :
    Sound start ((s.installTrans start false tail b).enter (.install (tail + 1))) := by
  have hhome : Home start b := h.lh_valid.home b (List.mem_of_getElem? hb)
  have hpins := h.pins_eq
  have hstaged := h.staged
  rw [hstage] at hpins hstaged
  have hview : ((s.installTrans start false tail b).enter (.install (tail + 1))).view = s.view := by
    rw [view_enter, view_installTrans, h.view_slot hstage hb, Function.update_eq_self]
  have hlist : s.lh.drop tail = b :: s.lh.drop (tail + 1) := by
    obtain ⟨hlt, hget⟩ := List.getElem?_eq_some_iff.mp hb
    rw [List.drop_eq_getElem_cons hlt, hget]
  have hdisk : ∀ b', b' ≠ b →
      ((s.installTrans start false tail b).enter (.install (tail + 1))).disk b' = s.disk b' :=
    fun b' hb' => Function.update_of_ne hb' _ _
  refine { h with
    coherent := h.coherent_update (fun b' hne hpins hb' => ⟨?_, hb'⟩) (view_installTrans false)
      (disk_installTrans false)
    pins_eq := ?_, head_valid := ?_, staged := ?_
    committing_eq := (h.committing_of hstage :)
    idle := fun a' ha' => absurd (h.op_eq_none (by simp [hstage]) a') ha'
    quiet := fun hidle => by cases hidle }
  · exact (Function.update_of_ne hne _ _).symm.trans hpins
  · intro b'
    change Function.update s.pins b (s.pins b - 1) b' = if b' ∈ s.lh.drop (tail + 1) then 1 else 0
    have hnodup : (s.lh.drop tail).Nodup := h.lh_valid.nodup.sublist (List.drop_sublist tail s.lh)
    rw [hlist] at hnodup
    by_cases heq : b' = b
    · rw [heq, Function.update_self, if_neg (List.nodup_cons.mp hnodup).1, hpins b]
      simp [unflushed, hlist]
    · rw [Function.update_of_ne heq, hpins b']
      exact if_congr (by simp [unflushed, hlist, heq]) rfl rfl
  · rw [hdisk start (start_ne_home hhome)]
    exact h.head_valid
  · rw [hview]
    refine ⟨?_, fun i b' (hb' : s.lh[i]? = some b') => ?_⟩
    · rw [hdisk start (start_ne_home hhome)]
      exact hstaged.1
    · rw [hdisk _ (slot_ne_home (h.lh_valid.lt hb') hhome)]
      exact hstaged.2 i b' hb'

/-- After the last block, the log is empty in memory. -/
theorem installed (h : Sound start s) {tail : ℕ} (hstage : s.stage = .install tail)
    (hb : s.lh[tail]? = none) : Sound start { s.enter .clear with lh := [] } := by
  have hpins := h.pins_eq
  have hstaged := h.staged
  rw [hstage] at hpins hstaged
  have hnil : s.lh.drop tail = [] := List.drop_eq_nil_iff.mpr (List.getElem?_eq_none_iff.mp hb)
  have hzero : ∀ b, s.pins b = 0 := fun b => by rw [hpins b]; simp [unflushed, hnil]
  have hop := h.op_eq_none (by simp [hstage])
  refine { h with
    pins_eq := hzero, lh_valid := .nil, staged := ⟨rfl, fun i b hb' => ?_⟩
    committing_eq := (h.committing_of hstage :)
    idle := fun a ha => absurd (hop a) ha
    quiet := fun _ _ => rfl }
  rw [disk_enter, hstaged.1] at hb'
  rw [disk_enter, hstaged.2 i b hb', h.coherent b (hzero b) (h.dirty_eq_nil hop ▸ List.not_mem_nil)]

/-- A header that names nothing is written. -/
theorem reset (h : Sound start s) {stage : LogStage} (hlh : s.lh = [])
    (hpins : ∀ b, s.pins b = 0) (hop : ∀ a, s.op a = none)
    (hstage : stage = .idle ∨ stage = .finish) (hcommitting : s.committing = stage.committing) :
    Sound start ((s.writeHeader start).enter stage) := by
  have hhead :
      Kernel.readHead (Function.update s.disk start (writeHead s.lh (s.view start)) start) = [] := by
    rw [Function.update_self, hlh, readHead_writeHead (Nat.zero_le _)]
  refine { h with
    coherent := h.coherent_update (fun _ _ hpins hb' => ⟨hpins, hb'⟩) view_writeHeader
      disk_writeHeader
    pins_eq := ?_, head_valid := hhead ▸ .nil, staged := ?_
    committing_eq := hcommitting
    idle := fun a' ha' => absurd (hop a') ha'
    quiet := fun _ _ => hlh }
  · intro b
    refine (hpins b).trans ?_
    rcases hstage with rfl | rfl
    · simp [unflushed, enter, writeHeader, bwrite, fill, hlh]
    · simp [unflushed, enter]
  · rcases hstage with rfl | rfl
    · exact hhead
    · exact ⟨hlh, hhead⟩

/-- `end_op` is through. -/
theorem finish (h : Sound start s) (hstage : s.stage = .finish) :
    Sound start { s.enter .idle with committing := false, ncommit := int (s.ncommit + 1) } := by
  have hpins := h.pins_eq
  have hstaged := h.staged
  rw [hstage] at hpins hstaged
  refine { h with
    pins_eq := ?_, staged := hstaged.2, committing_eq := rfl, idle := fun _ _ => rfl
    quiet := fun _ _ => hstaged.1 }
  intro b
  refine (hpins b).trans ?_
  simp [unflushed, enter, hstaged.1]

/-- `read_head`. -/
theorem readHead (h : Sound start s) (hstage : s.stage = .boot) :
    Sound start { (s.bread start).enter (.recover 0) with lh := readHead (s.view start) } := by
  have hpins := h.pins_eq
  rw [hstage] at hpins
  have hview : s.view start = s.disk start := h.view_eq_of_not_home not_home_start
  have hop := h.op_eq_none (by simp [hstage])
  refine { h with
    coherent := ?_, pins_eq := hpins, lh_valid := ?_, staged := ⟨?_, ?_⟩
    committing_eq := (h.committing_of hstage :)
    idle := fun a ha => absurd (hop a) ha
    quiet := fun hidle => by cases hidle }
  · intro b hpin hb
    exact (congrFun view_bread b).trans (h.coherent b hpin hb)
  · rw [hview]
    exact h.head_valid
  · exact congrArg Kernel.readHead hview.symm
  · exact fun i hi => absurd hi (Nat.not_lt_zero i)

/-- Recovery writes a block home. -/
theorem recover (h : Sound start s) {tail : ℕ} (hstage : s.stage = .recover tail)
    (hb : s.lh[tail]? = some b) :
    Sound start ((s.installTrans start true tail b).enter (.recover (tail + 1))) := by
  have hhome : Home start b := h.lh_valid.home b (List.mem_of_getElem? hb)
  have hpins := h.pins_eq
  have hstaged := h.staged
  rw [hstage] at hpins hstaged
  have hslot : s.view (slot start tail) = s.disk (slot start tail) :=
    h.view_eq_of_not_home (not_home_slot (h.lh_valid.lt hb))
  have hdisk : ∀ b', b' ≠ b →
      ((s.installTrans start true tail b).enter (.recover (tail + 1))).disk b' = s.disk b' :=
    fun b' hb' => Function.update_of_ne hb' _ _
  refine { h with
    coherent := h.coherent_update (fun _ _ hpins hb' => ⟨hpins, hb'⟩) (view_installTrans true)
      (disk_installTrans true)
    pins_eq := hpins, head_valid := ?_, staged := ⟨?_, ?_⟩
    committing_eq := (h.committing_of hstage :)
    idle := fun a' ha' => absurd (h.op_eq_none (by simp [hstage]) a') ha'
    quiet := fun hidle => by cases hidle }
  · rw [hdisk start (start_ne_home hhome)]
    exact h.head_valid
  · rw [hdisk start (start_ne_home hhome)]
    exact hstaged.1
  · intro i hi b' (hb' : s.lh[i]? = some b')
    rw [hdisk _ (slot_ne_home (h.lh_valid.lt hb') hhome)]
    rcases Nat.lt_succ_iff_lt_or_eq.mp hi with hi | rfl
    · have hne : b' ≠ b := fun heq => by
        rw [heq, ← hb] at hb'
        exact Nat.ne_of_lt hi ((List.getElem?_inj (List.getElem?_eq_some_iff.mp (hb'.trans hb)).1
          h.lh_valid.nodup).mp hb')
      rw [hdisk b' hne, hstaged.2 i hi b' hb']
    · rw [hb] at hb'
      cases hb'
      rw [← hslot]
      exact Function.update_self _ _ _

/-- …until it is through. -/
theorem recovered (h : Sound start s) {tail : ℕ} (hstage : s.stage = .recover tail)
    (hb : s.lh[tail]? = none) : Sound start { s.enter .reset with lh := [] } := by
  have hpins := h.pins_eq
  have hstaged := h.staged
  rw [hstage] at hpins hstaged
  have hop := h.op_eq_none (by simp [hstage])
  refine { h with
    pins_eq := hpins, lh_valid := .nil, staged := ⟨rfl, fun i b hb' => ?_⟩
    committing_eq := (h.committing_of hstage :)
    idle := fun a ha => absurd (hop a) ha
    quiet := fun _ _ => rfl }
  rw [disk_enter, hstaged.1] at hb'
  have hlt : i < tail := Nat.lt_of_lt_of_le (List.getElem?_eq_some_iff.mp hb').1
    (List.getElem?_eq_none_iff.mp hb)
  exact hstaged.2 i hlt b hb'

variable [DecidableEq A]

/-- **`begin_op`.** -/
theorem beginOp (h : Sound start s) (hboot : ¬ s.stage.booting) (hop : s.op a = none)
    (hs : s.beginOp a = some s') : Sound start s' := by
  rw [Log.beginOp] at hs
  split_ifs at hs with hc hn
  cases hs
  have hidle : s.stage = .idle := by
    have hcommitting := h.committing_eq
    cases hstage : s.stage <;> simp_all [LogStage.booting, LogStage.committing]
  obtain ⟨F, hF, hcard⟩ := h.active
  refine { h with dirty := ?_, idle := ?_, active := ?_, quiet := ?_ }
  · intro b hb
    obtain ⟨a', ha', hop'⟩ := h.dirty b hb
    refine ⟨a', ha', ?_⟩
    have hne : a' ≠ a := fun heq => hop' (heq ▸ hop)
    simpa [hne] using hop'
  · exact fun _ _ => hidle
  · refine ⟨insert a F, fun a' => ?_, ?_⟩
    · by_cases ha' : a' = a
      · simp [ha']
      · simp [ha', hF]
    · rw [Finset.card_insert_of_notMem fun ha => (hF a).mp ha hop, Nat.cast_add, ← hcard]
      rfl
  · intro _ hzero
    have hzero' : s.outstanding + 1 = 0 := hzero
    omega

/-- **`log_write`**: the block is pinned, once. -/
theorem logWrite (h : Sound start s) (hop : s.op a ≠ none) (hheld : s.held b = some a) :
    Sound start (s.logWrite a b) := by
  have hidle : s.stage = .idle := h.idle a hop
  have hpins := h.pins_eq
  have hstaged := h.staged
  rw [hidle] at hpins hstaged
  rw [Log.logWrite]
  split_ifs with hfull hout hmem
  · exact { h with }
  · exact { h with }
  all_goals
    have hops : ∀ a', Function.update s.op a ((s.op a).map fun bs => if b ∈ bs then bs else b :: bs)
        a' ≠ none ↔ s.op a' ≠ none := by
      intro a'
      by_cases ha' : a' = a
      · simp [ha']
      · simp [ha']
    obtain ⟨F, hF, hcard⟩ := h.active
    have hdirty : ∀ b' ∈ s.dirty.filter (· ≠ b), b' ∈ s.dirty := fun b' hb' =>
      (List.mem_filter.mp hb').1
  · refine { h with coherent := ?_, dirty := ?_, idle := ?_, active := ?_ }
    · intro b' hpin hb'
      refine h.coherent b' hpin fun hin => hb' (List.mem_filter.mpr ⟨hin, ?_⟩)
      rw [hpins b'] at hpin
      have hne : b' ≠ b := fun heq => by simp [unflushed, heq, hmem] at hpin
      simpa using hne
    · intro b' hb'
      obtain ⟨a', ha', hop'⟩ := h.dirty b' (hdirty b' hb')
      exact ⟨a', ha', (hops a').mpr hop'⟩
    · exact fun a' ha' => h.idle a' ((hops a').mp ha')
    · exact ⟨F, fun a' => (hF a').trans (hops a').symm, hcard⟩
  · refine { h with
      coherent := ?_, pins_eq := ?_, dirty := ?_, lh_valid := ?_, staged := ?_, idle := ?_,
      active := ?_, quiet := ?_ }
    · intro b' hpin hb'
      have hne : b' ≠ b := fun heq => by simp [heq] at hpin
      have hpin' : s.pins b' = 0 := by simpa [hne] using hpin
      exact h.coherent b' hpin' fun hin => hb' (List.mem_filter.mpr ⟨hin, by simpa using hne⟩)
    · intro b'
      change Function.update s.pins b (s.pins b + 1) b'
        = if b' ∈ unflushed (s.lh ++ [b]) s.stage then 1 else 0
      rw [hidle]
      by_cases hb' : b' = b
      · have hzero : s.pins b = 0 := by simpa [unflushed, hmem] using hpins b
        simp [hb', unflushed, hzero]
      · rw [Function.update_of_ne hb', hpins b']
        exact if_congr (by simp [unflushed, hb']) rfl rfl
    · intro b' hb'
      obtain ⟨a', ha', hop'⟩ := h.dirty b' (hdirty b' hb')
      exact ⟨a', ha', (hops a').mpr hop'⟩
    · refine ⟨?_, ?_, ?_⟩
      · exact List.nodup_append.mpr ⟨h.lh_valid.nodup, List.nodup_singleton b, by
          intro x hx y hy
          rw [List.mem_singleton.mp hy]
          exact fun heq => hmem (heq ▸ hx)⟩
      · intro b' hb'
        rcases List.mem_append.mp hb' with hb' | hb'
        · exact h.lh_valid.home b' hb'
        · rw [List.mem_singleton.mp hb']
          exact h.held_home b a hheld
      · rw [List.length_append, List.length_singleton]
        omega
    · change Staged start _ s.disk s.view s.stage
      rw [hidle]
      exact hstaged
    · exact fun a' ha' => h.idle a' ((hops a').mp ha')
    · exact ⟨F, fun a' => (hF a').trans (hops a').symm, hcard⟩
    · intro _ hzero
      have hzero' : s.outstanding = 0 := hzero
      omega

/-- **`end_op`**: the last one begins to commit. -/
theorem endOp (h : Sound start s) (hop : s.op a ≠ none)
    (hlogged : ∀ b ∈ s.dirty, s.held b ≠ some a) :
    Sound start (s.endOp a) := by
  have hidle : s.stage = .idle := h.idle a hop
  have hcommitting : s.committing = false := by rw [h.committing_eq, hidle]; rfl
  have hops : ∀ a', Function.update s.op a none a' ≠ none ↔ a' ≠ a ∧ s.op a' ≠ none := by
    intro a'
    by_cases ha' : a' = a
    · simp [ha']
    · simp [ha']
  have hdirty : ∀ b ∈ s.dirty, ∃ a',
      s.held b = some a' ∧ Function.update s.op a none a' ≠ none := by
    intro b hb
    obtain ⟨a', ha', hop'⟩ := h.dirty b hb
    exact ⟨a', ha', (hops a').mpr ⟨fun heq => hlogged b hb (heq ▸ ha'), hop'⟩⟩
  obtain ⟨F, hF, hcard⟩ := h.active
  have hactive : ∃ F : Finset A, (∀ a', a' ∈ F ↔ Function.update s.op a none a' ≠ none) ∧
      s.outstanding - 1 = F.card := by
    refine ⟨F.erase a, fun a' => ?_, ?_⟩
    · rw [Finset.mem_erase, hF, hops]
    · have hpos : 0 < F.card := Finset.card_pos.mpr ⟨a, (hF a).mpr hop⟩
      rw [Finset.card_erase_of_mem ((hF a).mpr hop), hcard]
      omega
  have hpins := h.pins_eq
  have hstaged := h.staged
  rw [hidle] at hpins hstaged
  -- after the last call nothing is under way
  have hnone : s.outstanding - 1 = 0 → ∀ a', Function.update s.op a none a' = none := by
    intro hlast a'
    obtain ⟨F', hF', hcard'⟩ := hactive
    rw [hlast, eq_comm, Nat.cast_eq_zero, Finset.card_eq_zero] at hcard'
    by_contra hne
    exact absurd ((hF' a').mpr hne) (by rw [hcard']; exact Finset.notMem_empty a')
  rw [Log.endOp, hcommitting, if_neg (by simp)]
  split_ifs with hlast hlen
  · exact { h with
      pins_eq := hpins, dirty := hdirty, committing_eq := rfl, active := hactive
      staged := ⟨hstaged, fun i hi => absurd hi (Nat.not_lt_zero i)⟩
      idle := fun a' ha' => absurd (hnone hlast a') ha'
      quiet := fun hstage => by cases hstage }
  · have hnil : s.lh = [] := List.length_eq_zero_iff.mp (by omega)
    rw [hnil] at hpins
    exact { h with
      pins_eq := hpins, dirty := hdirty, committing_eq := rfl, active := hactive
      staged := ⟨hnil, hstaged⟩
      idle := fun a' ha' => absurd (hnone hlast a') ha'
      quiet := fun _ _ => hnil }
  · exact { h with
      dirty := hdirty, active := hactive
      committing_eq := hcommitting.symm.trans h.committing_eq
      idle := fun a' ha' => h.idle a' ((hops a').mp ha').2
      quiet := fun _ hzero => absurd hzero hlast }

end Sound

end MiniProject.Kernel.Log
