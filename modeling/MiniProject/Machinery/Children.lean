import Mathlib.Data.List.Nodup
import Mathlib.Data.List.Count

/-!
# Machinery/Children — the children of a process

A child that has terminated stays a child until its parent has waited for it, and a process group
exists while it has a child in it, terminated ones included.  `Children` carries what the system
guarantees: no two children have one pid, and a pid that was waited for is no child's any more — so
nothing is waited for twice (`count_reaped`).

Over any type `P` of pids; the parent's own group is one more `P`.
-/

namespace MiniProject

universe u

/-- What a child is doing.  A stop is `reported` once the parent has been told. -/
inductive Phase
  | running
  | stopped (reported : Bool)
  | zombie (normal : Bool)
  deriving DecidableEq, Repr

namespace Phase

/-- A stop signal comes. -/
def stop : Phase → Phase
  | .running => .stopped false
  | phase => phase

/-- `SIGCONT` comes. -/
def cont : Phase → Phase
  | .stopped _ => .running
  | phase => phase

end Phase

/-- A child that has not been waited for. -/
structure Child (P : Type u) where
  pid : P
  pgid : P
  phase : Phase

/-- The children of a process, and the pids it has waited for, in order. -/
structure Children (P : Type u) where
  unreaped : List (Child P)
  reaped : List P
  nodup : (unreaped.map Child.pid ++ reaped).Nodup

namespace Children

variable {P : Type u}

/-- The pids of the children. -/
def pids (c : Children P) : List P := c.unreaped.map Child.pid

/-- The child `p` is in group `g`. -/
def InGroup (c : Children P) (p g : P) : Prop := ∃ x ∈ c.unreaped, x.pid = p ∧ x.pgid = g

/-- The pid `p` is, or was, a child's. -/
def Knows (c : Children P) (p : P) : Prop := p ∈ c.pids ∨ p ∈ c.reaped

/-- Some child is in group `g`. -/
def HasGroup (c : Children P) (g : P) : Prop := ∃ x ∈ c.unreaped, x.pgid = g

instance [DecidableEq P] (c : Children P) (p g : P) : Decidable (c.InGroup p g) :=
  inferInstanceAs (Decidable (∃ x ∈ c.unreaped, _))

instance [DecidableEq P] (c : Children P) (g : P) : Decidable (c.HasGroup g) :=
  inferInstanceAs (Decidable (∃ x ∈ c.unreaped, _))

/-! ## Operations -/

/-- `fork`: a new child in group `g`. -/
def fork (c : Children P) (p g : P) (h : p ∉ c.pids ++ c.reaped) : Children P where
  unreaped := c.unreaped ++ [⟨p, g, .running⟩]
  reaped := c.reaped
  nodup := by
    rw [List.map_append, List.append_assoc]
    refine List.nodup_append'.mpr ⟨(List.nodup_append'.mp c.nodup).1, ?_, ?_⟩
    · refine List.nodup_cons.mpr ⟨fun hmem => h (List.mem_append_right _ hmem), ?_⟩
      exact (List.nodup_append'.mp c.nodup).2.1
    · intro q hq hmem
      rcases List.mem_cons.mp hmem with rfl | hmem
      · exact h (List.mem_append_left _ hq)
      · exact (List.nodup_append'.mp c.nodup).2.2 hq hmem

section Update

variable [DecidableEq P]

/-- Changing what child `p` does or where it belongs. -/
def update (c : Children P) (p : P) (f : Child P → Child P) (hf : ∀ x, (f x).pid = x.pid) :
    Children P where
  unreaped := c.unreaped.map fun x => if x.pid = p then f x else x
  reaped := c.reaped
  nodup := by
    have hmap : (c.unreaped.map fun x => if x.pid = p then f x else x).map Child.pid
        = c.unreaped.map Child.pid := by
      rw [List.map_map]
      refine List.map_congr_left fun x _ => ?_
      rw [Function.comp_apply]
      split
      · exact hf x
      · rfl
    rw [hmap]
    exact c.nodup

/-- `setpgid(p, g)`: it founds a group of its own, or joins one that exists; otherwise it fails. -/
def setpgid (c : Children P) (p g : P) : Children P :=
  if g = p ∨ c.HasGroup g then c.update p (fun x => { x with pgid := g }) fun _ => rfl else c

/-- Child `p` goes on to another phase. -/
def setPhase (c : Children P) (p : P) (phase : Phase) : Children P :=
  c.update p (fun x => { x with phase }) fun _ => rfl

/-- A signal to group `g`. -/
def signal (c : Children P) (g : P) (f : Phase → Phase) : Children P where
  unreaped := c.unreaped.map fun x => if x.pgid = g then { x with phase := f x.phase } else x
  reaped := c.reaped
  nodup := by
    have hmap : (c.unreaped.map fun x =>
        if x.pgid = g then { x with phase := f x.phase } else x).map Child.pid =
        c.unreaped.map Child.pid := by
      rw [List.map_map]
      refine List.map_congr_left fun x _ => ?_
      rw [Function.comp_apply]
      split <;> rfl
    rw [hmap]
    exact c.nodup

/-- The phase of child `p`. -/
def phase? (c : Children P) (p : P) : Option Phase :=
  (c.unreaped.find? fun x => x.pid = p).map Child.phase

/-- `waitpid` returns child `p`, which has terminated. -/
def reap (c : Children P) (p : P) (h : p ∈ c.pids) : Children P where
  unreaped := c.unreaped.filter fun x => x.pid ≠ p
  reaped := c.reaped ++ [p]
  nodup := by
    have hsub : ((c.unreaped.filter fun x => x.pid ≠ p).map Child.pid).Sublist c.pids :=
      List.filter_sublist.map Child.pid
    obtain ⟨hpids, hreaped, hdisj⟩ := List.nodup_append'.mp c.nodup
    refine List.nodup_append'.mpr ⟨hpids.sublist hsub, ?_, ?_⟩
    · refine List.nodup_append'.mpr ⟨hreaped, List.nodup_singleton p, ?_⟩
      intro q hq hmem
      obtain rfl := List.mem_singleton.mp hmem
      exact hdisj h hq
    · intro q hq hmem
      rcases List.mem_append.mp hmem with hmem | hmem
      · exact hdisj (hsub.subset hq) hmem
      · obtain rfl := List.mem_singleton.mp hmem
        obtain ⟨x, hx, hxq⟩ := List.mem_map.mp hq
        exact of_decide_eq_true (List.mem_filter.mp hx).2 hxq

end Update

/-! ## Who is a child afterwards -/

variable {c : Children P} {p q g g' : P}

theorem not_mem_reaped (hq : q ∈ c.pids) : q ∉ c.reaped :=
  fun hmem => (List.nodup_append'.mp c.nodup).2.2 hq hmem

/-- **What was waited for was waited for once.** -/
theorem count_reaped [DecidableEq P] (hq : q ∈ c.reaped) : c.reaped.count q = 1 :=
  List.count_eq_one_of_mem (List.nodup_append'.mp c.nodup).2.1 hq

@[simp] theorem mem_pids_fork {h : p ∉ c.pids ++ c.reaped} :
    q ∈ (c.fork p g h).pids ↔ q ∈ c.pids ∨ q = p := by
  simp [fork, pids]

@[simp] theorem reaped_fork {h : p ∉ c.pids ++ c.reaped} : (c.fork p g h).reaped = c.reaped := rfl

theorem Knows.fork {h : p ∉ c.pids ++ c.reaped} (hq : c.Knows q) : (c.fork p g h).Knows q :=
  hq.imp (fun hq => mem_pids_fork.mpr (.inl hq)) id

theorem Knows.ne_of_not_mem (hq : c.Knows q) (h : p ∉ c.pids ++ c.reaped) : q ≠ p := by
  rintro rfl
  exact h (List.mem_append.mpr hq)

theorem inGroup_fork {h : p ∉ c.pids ++ c.reaped} :
    (c.fork p g h).InGroup q g' ↔ c.InGroup q g' ∨ (q = p ∧ g' = g) := by
  simp only [InGroup, fork, List.mem_append, List.mem_singleton]
  constructor
  · rintro ⟨x, hx | rfl, hpid, hpgid⟩
    · exact .inl ⟨x, hx, hpid, hpgid⟩
    · exact .inr ⟨hpid.symm, hpgid.symm⟩
  · rintro (⟨x, hx, hpid, hpgid⟩ | ⟨rfl, rfl⟩)
    · exact ⟨x, .inl hx, hpid, hpgid⟩
    · exact ⟨_, .inr rfl, rfl, rfl⟩

theorem InGroup.mem_pids (h : c.InGroup q g) : q ∈ c.pids := by
  obtain ⟨x, hx, rfl, -⟩ := h
  exact List.mem_map_of_mem hx

/-- A child is in one group. -/
theorem InGroup.unique (h : c.InGroup q g) (h' : c.InGroup q g') : g = g' := by
  obtain ⟨x, hx, hpid, rfl⟩ := h
  obtain ⟨y, hy, hpid', rfl⟩ := h'
  have heq : x = y := by
    have hinj := List.inj_on_of_nodup_map (List.nodup_append'.mp c.nodup).1
    exact hinj hx hy (hpid.trans hpid'.symm)
  rw [heq]

theorem hasGroup_iff : c.HasGroup g ↔ ∃ q, c.InGroup q g :=
  ⟨fun ⟨x, hx, hg⟩ => ⟨x.pid, x, hx, rfl, hg⟩, fun ⟨_, x, hx, _, hg⟩ => ⟨x, hx, hg⟩⟩

section Update

variable [DecidableEq P]

@[simp] theorem pids_update (f : Child P → Child P) (hf : ∀ x, (f x).pid = x.pid) :
    (c.update p f hf).pids = c.pids := by
  rw [pids, pids, update, List.map_map]
  refine List.map_congr_left fun x _ => ?_
  rw [Function.comp_apply]
  split
  · exact hf x
  · rfl

@[simp] theorem reaped_update (f : Child P → Child P) (hf : ∀ x, (f x).pid = x.pid) :
    (c.update p f hf).reaped = c.reaped := rfl

@[simp] theorem pids_setPhase (phase : Phase) : (c.setPhase p phase).pids = c.pids :=
  pids_update _ _

@[simp] theorem reaped_setPhase (phase : Phase) : (c.setPhase p phase).reaped = c.reaped := rfl

@[simp] theorem pids_setpgid : (c.setpgid p g).pids = c.pids := by
  rw [setpgid]
  split
  · exact pids_update _ _
  · rfl

@[simp] theorem reaped_setpgid : (c.setpgid p g).reaped = c.reaped := by
  rw [setpgid]
  split <;> rfl

/-- A change of phase moves nobody. -/
@[simp] theorem inGroup_setPhase (phase : Phase) :
    (c.setPhase p phase).InGroup q g ↔ c.InGroup q g := by
  simp only [InGroup, setPhase, update, List.mem_map]
  constructor
  · rintro ⟨_, ⟨x, hx, rfl⟩, hpid, hpgid⟩
    refine ⟨x, hx, ?_, ?_⟩
    · split at hpid <;> exact hpid
    · split at hpgid <;> exact hpgid
  · rintro ⟨x, hx, hpid, hpgid⟩
    refine ⟨_, ⟨x, hx, rfl⟩, ?_, ?_⟩ <;> split <;> assumption

/-- `setpgid` moves nobody else. -/
theorem inGroup_setpgid_of_ne (hne : q ≠ p) :
    (c.setpgid p g).InGroup q g' ↔ c.InGroup q g' := by
  rw [setpgid]
  split
  · simp only [InGroup, update, List.mem_map]
    constructor
    · rintro ⟨_, ⟨x, hx, rfl⟩, hpid, hpgid⟩
      by_cases hx' : x.pid = p
      · rw [if_pos hx'] at hpid
        exact absurd (hpid.symm.trans hx') hne
      · rw [if_neg hx'] at hpid hpgid
        exact ⟨x, hx, hpid, hpgid⟩
    · rintro ⟨x, hx, rfl, hpgid⟩
      exact ⟨x, ⟨x, hx, if_neg hne⟩, rfl, hpgid⟩
  · rfl

/-- **A child joins a group** that is its own or has somebody in it. -/
theorem inGroup_setpgid_self (hp : p ∈ c.pids) (hg : g = p ∨ c.HasGroup g) :
    (c.setpgid p g).InGroup p g := by
  obtain ⟨x, hx, hpid⟩ := List.mem_map.mp hp
  rw [setpgid, if_pos hg]
  exact ⟨_, List.mem_map_of_mem hx, by rw [if_pos hpid]; exact hpid, by rw [if_pos hpid]⟩

/-- After `setpgid` a child is in the group it asked for, or where it was. -/
theorem inGroup_setpgid (h : (c.setpgid p g).InGroup q g') :
    c.InGroup q g' ∨ (q = p ∧ g' = g) := by
  by_cases hq : q = p
  · subst hq
    by_cases hg : g = q ∨ c.HasGroup g
    · have hself := inGroup_setpgid_self (by simpa using h.mem_pids) hg
      exact .inr ⟨rfl, h.unique hself⟩
    · rw [setpgid, if_neg hg] at h
      exact .inl h
  · exact .inl ((inGroup_setpgid_of_ne hq).mp h)

@[simp] theorem mem_pids_reap {h : p ∈ c.pids} : q ∈ (c.reap p h).pids ↔ q ∈ c.pids ∧ q ≠ p := by
  simp only [pids, reap, List.mem_map, List.mem_filter, decide_eq_true_eq]
  constructor
  · rintro ⟨x, ⟨hx, hne⟩, rfl⟩
    exact ⟨⟨x, hx, rfl⟩, hne⟩
  · rintro ⟨⟨x, hx, rfl⟩, hne⟩
    exact ⟨x, ⟨hx, hne⟩, rfl⟩

@[simp] theorem reaped_reap {h : p ∈ c.pids} : (c.reap p h).reaped = c.reaped ++ [p] := rfl

/-- Who has been waited for is still known. -/
theorem knows_reap {h : p ∈ c.pids} : (c.reap p h).Knows q ↔ c.Knows q := by
  rw [Knows, Knows, mem_pids_reap, reaped_reap, List.mem_append, List.mem_singleton]
  constructor
  · rintro (⟨hq, -⟩ | hq | rfl)
    · exact .inl hq
    · exact .inr hq
    · exact .inl h
  · rintro (hq | hq)
    · by_cases hp : q = p
      · exact .inr (.inr hp)
      · exact .inl ⟨hq, hp⟩
    · exact .inr (.inl hq)

theorem inGroup_reap {h : p ∈ c.pids} :
    (c.reap p h).InGroup q g ↔ c.InGroup q g ∧ q ≠ p := by
  simp only [InGroup, reap, List.mem_filter, decide_eq_true_eq]
  constructor
  · rintro ⟨x, ⟨hx, hne⟩, rfl, hpgid⟩
    exact ⟨⟨x, hx, rfl, hpgid⟩, hne⟩
  · rintro ⟨⟨x, hx, rfl, hpgid⟩, hne⟩
    exact ⟨x, ⟨hx, hne⟩, rfl, hpgid⟩

end Update

/-! ## A whole group -/

/-- Every child in group `g` is in a phase with `Q`. -/
def AllIn (c : Children P) (g : P) (Q : Phase → Prop) : Prop :=
  ∀ x ∈ c.unreaped, x.pgid = g → Q x.phase

variable {Q : Phase → Prop}

theorem allIn_of_not_hasGroup (h : ¬ c.HasGroup g) : c.AllIn g Q :=
  fun x hx hg => absurd ⟨x, hx, hg⟩ h

theorem AllIn.fork {h : p ∉ c.pids ++ c.reaped} (hQ : c.AllIn g' Q)
    (hrunning : g = g' → Q .running) : (c.fork p g h).AllIn g' Q := by
  intro x hx hg
  rcases List.mem_append.mp hx with hx | hx
  · exact hQ x hx hg
  · obtain rfl := List.mem_singleton.mp hx
    exact hrunning hg

section Update

variable [DecidableEq P]

theorem AllIn.reap {h : p ∈ c.pids} (hQ : c.AllIn g Q) : (c.reap p h).AllIn g Q :=
  fun x hx hg => hQ x (List.mem_of_mem_filter hx) hg

theorem AllIn.setPhase {phase : Phase} (hQ : c.AllIn g Q) (hphase : c.InGroup p g → Q phase) :
    (c.setPhase p phase).AllIn g Q := by
  intro y hy hg
  obtain ⟨x, hx, rfl⟩ := List.mem_map.mp hy
  split at hg
  · rename_i hpid
    rw [if_pos hpid]
    exact hphase ⟨x, hx, hpid, hg⟩
  · rename_i hpid
    rw [if_neg hpid]
    exact hQ x hx hg

/-- A signal for a group is for all in it… -/
theorem allIn_signal {f : Phase → Phase} :
    (c.signal g f).AllIn g Q ↔ c.AllIn g fun phase => Q (f phase) := by
  constructor
  · intro h x hx hg
    simpa only [if_pos hg] using
      h _ (List.mem_map_of_mem hx) (by rw [if_pos hg]; exact hg)
  · intro h y hy hg
    obtain ⟨x, hx, rfl⟩ := List.mem_map.mp hy
    split at hg
    · rename_i hx'
      rw [if_pos hx']
      exact h x hx hx'
    · rename_i hx'
      exact absurd hg hx'

/-- …and for nobody else. -/
theorem AllIn.signal {f : Phase → Phase} (hQ : c.AllIn g' Q) (hne : g ≠ g') :
    (c.signal g f).AllIn g' Q := by
  intro y hy hg
  obtain ⟨x, hx, rfl⟩ := List.mem_map.mp hy
  split at hg
  · rename_i hx'
    exact absurd (hx'.symm.trans hg) hne
  · rename_i hx'
    rw [if_neg hx']
    exact hQ x hx hg

@[simp] theorem inGroup_signal {f : Phase → Phase} :
    (c.signal g f).InGroup q g' ↔ c.InGroup q g' := by
  constructor
  · rintro ⟨_, hy, rfl, rfl⟩
    obtain ⟨x, hx, rfl⟩ := List.mem_map.mp hy
    refine ⟨x, hx, ?_, ?_⟩ <;> split <;> rfl
  · rintro ⟨x, hx, rfl, rfl⟩
    refine ⟨_, List.mem_map_of_mem hx, ?_, ?_⟩ <;> split <;> rfl

@[simp] theorem pids_signal {f : Phase → Phase} : (c.signal g f).pids = c.pids := by
  rw [pids, pids, signal, List.map_map]
  refine List.map_congr_left fun x _ => ?_
  dsimp only [Function.comp_apply]
  split <;> rfl

theorem knows_signal {f : Phase → Phase} : (c.signal g f).Knows q ↔ c.Knows q := by
  rw [Knows, Knows, pids_signal]
  rfl

theorem knows_setPhase (phase : Phase) : (c.setPhase p phase).Knows q ↔ c.Knows q := by
  rw [Knows, Knows, pids_setPhase, reaped_setPhase]

theorem hasGroup_reap {h : p ∈ c.pids} (hg : (c.reap p h).HasGroup g) : c.HasGroup g := by
  obtain ⟨x, hx, hpgid⟩ := hg
  exact ⟨x, List.mem_of_mem_filter hx, hpgid⟩

@[simp] theorem hasGroup_setPhase {phase : Phase} :
    (c.setPhase p phase).HasGroup g ↔ c.HasGroup g := by
  simp only [hasGroup_iff, inGroup_setPhase]

@[simp] theorem hasGroup_signal {f : Phase → Phase} :
    (c.signal g' f).HasGroup g ↔ c.HasGroup g := by
  simp only [hasGroup_iff, inGroup_signal]

/-- What holds of a whole group holds of each child in it. -/
theorem AllIn.apply {phase : Phase} (hQ : c.AllIn g Q) (hp : c.InGroup p g)
    (hphase : c.phase? p = some phase) : Q phase := by
  obtain ⟨x, hx, rfl, hg⟩ := hp
  obtain ⟨y, hy, rfl⟩ := Option.map_eq_some_iff.mp hphase
  have hpid : y.pid = x.pid := by simpa using List.find?_some hy
  have hinj := List.inj_on_of_nodup_map (List.nodup_append'.mp c.nodup).1
  obtain rfl := hinj (List.mem_of_find?_eq_some hy) hx hpid
  exact hQ y hx hg

/-- The children in group `g`. -/
def members (c : Children P) (g : P) : List P :=
  (c.unreaped.filter fun x => x.pgid = g).map Child.pid

theorem mem_members : q ∈ c.members g ↔ c.InGroup q g := by
  simp only [members, List.mem_map, List.mem_filter, decide_eq_true_eq, InGroup]
  exact ⟨fun ⟨x, ⟨hx, hg⟩, hq⟩ => ⟨x, hx, hq, hg⟩, fun ⟨x, hx, hq, hg⟩ => ⟨x, ⟨hx, hg⟩, hq⟩⟩

theorem nodup_members : (c.members g).Nodup := by
  have hsub : (c.members g).Sublist c.pids := List.filter_sublist.map Child.pid
  exact (List.nodup_append'.mp c.nodup).1.sublist hsub

/-- Who is in a group counts once, so that a list of them all is at least as long. -/
theorem length_members_le {l : List P} (h : ∀ q, c.InGroup q g → q ∈ l) :
    (c.members g).length ≤ l.length :=
  (List.subperm_of_subset nodup_members fun q hq => h q (mem_members.mp hq)).length_le

theorem length_members_mono {c' : Children P}
    (h : ∀ q, c'.InGroup q g → c.InGroup q g) : (c'.members g).length ≤ (c.members g).length :=
  length_members_le fun q hq => mem_members.mpr (h q hq)

/-- **A child waited for leaves its group.** -/
theorem length_members_reap {h : p ∈ c.pids} (hp : c.InGroup p g) :
    ((c.reap p h).members g).length + 1 ≤ (c.members g).length := by
  have hlen := List.length_erase_of_mem (mem_members.mpr hp)
  have hle : ((c.reap p h).members g).length ≤ ((c.members g).erase p).length := by
    refine length_members_le fun q hq => ?_
    obtain ⟨hq, hne⟩ := inGroup_reap.mp hq
    exact (List.mem_erase_of_ne hne).mpr (mem_members.mpr hq)
  have hpos := List.length_pos_of_mem (mem_members.mpr hp)
  omega

end Update

/-! ## Who has not terminated -/

/-- None of `ps` has terminated and waits to be waited for. -/
def Living (c : Children P) (ps : List P) : Prop :=
  ∀ x ∈ c.unreaped, x.pid ∈ ps → ∀ normal, x.phase ≠ .zombie normal

variable {ps : List P}

theorem Living.fork {h : p ∉ c.pids ++ c.reaped} (hL : c.Living ps) :
    (c.fork p g h).Living (ps ++ [p]) := by
  intro x hx hp
  rcases List.mem_append.mp hx with hx | hx
  · rcases List.mem_append.mp hp with hp | hp
    · exact hL x hx hp
    · refine absurd (List.mem_append_left _ ?_) h
      exact List.mem_singleton.mp hp ▸ List.mem_map_of_mem hx
  · obtain rfl := List.mem_singleton.mp hx
    exact fun _ => nofun

section Update

variable [DecidableEq P]

theorem exists_of_phase? {phase : Phase} (h : c.phase? p = some phase) :
    ∃ x ∈ c.unreaped, x.pid = p ∧ x.phase = phase := by
  obtain ⟨x, hx, rfl⟩ := Option.map_eq_some_iff.mp h
  exact ⟨x, List.mem_of_find?_eq_some hx, by simpa using List.find?_some hx, rfl⟩

theorem phase?_fork {h : p ∉ c.pids ++ c.reaped} : (c.fork p g h).phase? p = some .running := by
  have hnone : c.unreaped.find? (fun x => x.pid = p) = none := by
    refine List.find?_eq_none.mpr fun x hx hpid => h (List.mem_append_left _ ?_)
    exact of_decide_eq_true hpid ▸ List.mem_map_of_mem hx
  rw [phase?, fork, List.find?_append, hnone]
  simp

theorem phase?_fork_of_ne {h : p ∉ c.pids ++ c.reaped} (hne : q ≠ p) :
    (c.fork p g h).phase? q = c.phase? q := by
  rw [phase?, phase?, fork, List.find?_append]
  simp [hne.symm]

/-- What is no change of phase is none. -/
theorem phase?_update {f : Child P → Child P} {hf : ∀ x, (f x).pid = x.pid}
    (hphase : ∀ x, (f x).phase = x.phase) : (c.update p f hf).phase? q = c.phase? q := by
  have hpid : ((fun x : Child P => decide (x.pid = q)) ∘ fun x => if x.pid = p then f x else x) =
      fun x => decide (x.pid = q) := by
    funext x
    rw [Function.comp_apply]
    split
    · rw [hf]
    · rfl
  rw [phase?, phase?, update, List.find?_map, hpid, Option.map_map]
  refine congrArg (Option.map · _) (funext fun x => ?_)
  rw [Function.comp_apply]
  split
  · exact hphase x
  · rfl

@[simp] theorem phase?_setpgid : (c.setpgid p g).phase? q = c.phase? q := by
  rw [setpgid]
  split
  · exact phase?_update fun _ => rfl
  · rfl

theorem phase?_setPhase {phase : Phase} (hp : p ∈ c.pids) :
    (c.setPhase p phase).phase? p = some phase := by
  obtain ⟨x, hx, hpid⟩ := List.mem_map.mp hp
  have hmem : { x with phase } ∈ (c.setPhase p phase).unreaped :=
    List.mem_map.mpr ⟨x, hx, if_pos hpid⟩
  cases hfind : (c.setPhase p phase).unreaped.find? fun x => x.pid = p with
  | none =>
    have hne := List.find?_eq_none.mp hfind _ hmem
    exact absurd (decide_eq_true hpid) hne
  | some y =>
    have hy := List.find?_some hfind
    obtain ⟨z, -, rfl⟩ := List.mem_map.mp (List.mem_of_find?_eq_some hfind)
    rw [phase?, hfind]
    split
    · rfl
    · rename_i hne
      rw [if_neg hne] at hy
      exact absurd (of_decide_eq_true hy) hne

theorem Living.phase?_ne (hL : c.Living ps) (hp : p ∈ ps) (normal : Bool) :
    c.phase? p ≠ some (.zombie normal) := by
  intro h
  obtain ⟨x, hx, rfl, hphase⟩ := exists_of_phase? h
  exact hL x hx hp normal hphase

theorem Living.update {f : Child P → Child P} {hf : ∀ x, (f x).pid = x.pid} (hL : c.Living ps)
    (hphase : p ∈ ps → ∀ x, (∀ normal, x.phase ≠ .zombie normal) →
      ∀ normal, (f x).phase ≠ .zombie normal) : (c.update p f hf).Living ps := by
  intro y hy hp
  obtain ⟨x, hx, rfl⟩ := List.mem_map.mp hy
  split at hp
  · rename_i hpid
    rw [if_pos hpid]
    rw [hf, hpid] at hp
    exact hphase hp x (hL x hx (hpid ▸ hp))
  · rename_i hpid
    rw [if_neg hpid]
    exact hL x hx hp

theorem Living.setPhase {phase : Phase} (hL : c.Living ps)
    (hphase : p ∈ ps → ∀ normal, phase ≠ .zombie normal) : (c.setPhase p phase).Living ps :=
  hL.update fun hp _ _ => hphase hp

theorem Living.setpgid (hL : c.Living ps) : (c.setpgid p g).Living ps := by
  rw [Children.setpgid]
  split
  · exact hL.update fun _ _ h => h
  · exact hL

theorem Living.reap {h : p ∈ c.pids} (hL : c.Living ps) : (c.reap p h).Living ps :=
  fun x hx => hL x (List.mem_of_mem_filter hx)

end Update

end Children

end MiniProject
