import MiniProject.Kernel.Bio
import MiniProject.Machinery.Refines

/-!
# Kernel/Cells — the buffer cache is one cell for each block

To those who use it, the buffer cache is a memory with a cell for each block: whoever reads a block
has its cell alone until letting go of it, and a cell that nobody has and nobody pinned may be
forgotten, and is read from the disk again.  `Cells` is that memory, and `Bcache` carries it out
with `NBUF` buffers (`cells_of_run`): it never hands out a buffer of another block, nor a block
twice, nor what the block was before somebody changed it.
-/

namespace MiniProject.Kernel

/-- The disk, and a cell for each block of each device. -/
structure Cells (P : Type) where
  disk : BlockNo → Block
  cache : BlockId → Option Block
  held : BlockId → Option P
  pins : BlockId → ℕ

namespace Cells

variable {P : Type}

/-- Nothing is cached. -/
def start (disk : BlockNo → Block) : Cells P where
  disk := disk
  cache _ := none
  held _ := none
  pins _ := 0

variable (t : Cells P)

/-- What the block amounts to. -/
def view (k : BlockId) : Block := (t.cache k).getD (t.disk k.2)

/-- A use of a cell. -/
inductive Event (P : Type)
  | bread (p : P) (k : BlockId)
  | modify (p : P) (k : BlockId) (d : Block)
  | bwrite (p : P) (k : BlockId)
  | brelse (p : P) (k : BlockId)
  | bpin (p : P) (k : BlockId)
  | bunpin (p : P) (k : BlockId)
  | evict (k : BlockId)

/-- A step; a cell belongs to whoever read it. -/
def step [DecidableEq P] (t : Cells P) : Event P → Option (Cells P)
  | .bread p k =>
    if t.held k = none then
      some { t with
        cache := Function.update t.cache k (some (t.view k))
        held := Function.update t.held k (some p) }
    else none
  | .modify p k d =>
    if t.held k = some p then some { t with cache := Function.update t.cache k (some d) } else none
  | .bwrite p k =>
    if t.held k = some p then some { t with disk := Function.update t.disk k.2 (t.view k) }
    else none
  | .brelse p k =>
    if t.held k = some p then some { t with held := Function.update t.held k none } else none
  | .bpin p k =>
    if t.held k = some p then some { t with pins := Function.update t.pins k (t.pins k + 1) }
    else none
  | .bunpin p k =>
    if t.held k = some p then some { t with pins := Function.update t.pins k (t.pins k - 1) }
    else none
  | .evict k =>
    if t.held k = none ∧ t.pins k = 0 then some { t with cache := Function.update t.cache k none }
    else none

end Cells

namespace Bcache

variable {P : Type}

section Performs

variable [DecidableEq P]

/-- What a step is to the cells. -/
def performs (s : Bcache P) : Event P → List (Cells.Event P)
  | .bget _ dev blockno =>
    match s.cached dev blockno, s.unused with
    | none, some b => if s.valid b then [.evict (s.key b)] else []
    | _, _ => []
  | .bread p =>
    match s.call p with
    | some (.load _ dev blockno) => [.bread p (dev, blockno)]
    | _ => []
  | .modify p b d => [.modify p (s.key b) d]
  | .bwrite p b => if s.lock b = some p then [.bwrite p (s.key b)] else []
  | .brelse p b => if s.lock b = some p then [.brelse p (s.key b)] else []
  | .bpin p b => [.bpin p (s.key b)]
  | .bunpin p b => [.bunpin p (s.key b)]
  | .acquiresleep _ | .drop _ => []

end Performs

variable [Fintype P]

/-- The buffers that were read in are the cells. -/
structure Shows (s : Bcache P) (t : Cells P) : Prop where
  sound : Sound s
  disk : t.disk = s.disk
  cell : ∀ b, s.valid b = true → t.cache (s.key b) = some (s.data b) ∧ t.pins (s.key b) = s.pins b
  bare : ∀ k, (∀ b, s.valid b = true → s.key b ≠ k) → t.cache k = none ∧ t.pins k = 0
  held : ∀ b p, s.lock b = some p → loads b (s.call p) = false → t.held (s.key b) = some p
  holder : ∀ k p, t.held k = some p →
    ∃ b, s.key b = k ∧ s.lock b = some p ∧ loads b (s.call p) = false

variable {s s' : Bcache P} {t : Cells P} {b b' : Fin nbuf} {p q : P}

/-- **No block is read into two buffers.** -/
theorem Sound.eq_of_key_eq (h : Sound s) (hb : s.valid b = true) (hpos : 0 < s.refcnt b')
    (hkey : s.key b = s.key b') : b = b' := by
  by_contra hne
  obtain hf | hf := h.fresh_of_key_eq hne hkey
  · rw [hf.2.1] at hb
    cases hb
  · exact not_fresh_of_pos hpos hf

theorem Sound.eq_of_valid (h : Sound s) (hb : s.valid b = true) (hb' : s.valid b' = true)
    (hkey : s.key b = s.key b') : b = b' := by
  by_contra hne
  obtain hf | hf := h.fresh_of_key_eq hne hkey
  · rw [hf.2.1] at hb
    cases hb
  · rw [hf.2.1] at hb'
    cases hb'

omit [Fintype P] in
theorem loads_update [DecidableEq P] {f : P → Option BufCall} {c : Option BufCall}
    (hc : loads b c = loads b (f p)) : loads b (Function.update f p c q) = loads b (f q) := by
  by_cases hq : q = p
  · rw [hq, Function.update_self, hc]
  · rw [Function.update_of_ne hq]

namespace Shows

/-- A step that the cells do not see. -/
theorem keep (h : Shows s t) (hs : Sound s') (hdisk : s'.disk = s.disk) (hkey : s'.key = s.key)
    (hvalid : s'.valid = s.valid) (hdata : s'.data = s.data) (hpins : s'.pins = s.pins)
    (hlock : s'.lock = s.lock) (hloads : ∀ b q, loads b (s'.call q) = loads b (s.call q)) :
    Shows s' t where
  sound := hs
  disk := h.disk.trans hdisk.symm
  cell := by
    rw [hkey, hvalid, hdata, hpins]
    exact h.cell
  bare := by
    rw [hkey, hvalid]
    exact h.bare
  held b p := by
    rw [hkey, hlock, hloads]
    exact h.held b p
  holder k p hk := by
    obtain ⟨b, hb⟩ := h.holder k p hk
    refine ⟨b, ?_⟩
    rw [hkey, hlock, hloads]
    exact hb

/-- What a process has and has read in is its cell. -/
theorem held_of (h : Shows s t) (hcall : s.call p = none) (hlock : s.lock b = some p) :
    s.valid b = true ∧ t.held (s.key b) = some p ∧ t.view (s.key b) = s.data b := by
  have hload : loads b (s.call p) = false := by rw [hcall]; rfl
  have hvalid := h.sound.filled b p hlock hload
  exact ⟨hvalid, h.held b p hlock hload, by rw [Cells.view, (h.cell b hvalid).1]; rfl⟩

variable [DecidableEq P] {dev : BitVec 32} {blockno : BlockNo}

/-- A buffer is given up. -/
theorem recycle (h : Shows s t) (hcall : s.call p = none) (hb : s.refcnt b = 0) (hs' : Sound s')
    (heq : s' = { s.setCall p (some (.wait b dev blockno)) with
      dev := Function.update s.dev b dev
      blockno := Function.update s.blockno b blockno
      valid := Function.update s.valid b false
      refcnt := Function.update s.refcnt b 1 }) :
    ∃ t', run Cells.step t (if s.valid b then [.evict (s.key b)] else []) = some t' ∧
      Shows s' t' := by
  have hcount := h.sound.count b
  have hlock {q : P} : s.lock b ≠ some q := fun hq => by
    have hpos := h.sound.refcnt_pos_of_lock hq
    omega
  have hkey {x : Fin nbuf} (hx : x ≠ b) : s'.key x = s.key x := by
    simp [heq, key, setCall, Function.update_of_ne hx]
  have hvalid {x : Fin nbuf} : s'.valid x = true ↔ x ≠ b ∧ s.valid x = true := by
    by_cases hx : x = b
    · simp [heq, hx]
    · simp [heq, hx, setCall]
  have hloads {x : Fin nbuf} {q : P} : loads x (s'.call q) = loads x (s.call q) := by
    rw [heq]
    exact loads_update (by rw [hcall]; rfl)
  have hheld {t' : Cells P} (ht' : t'.held = t.held) :
      (∀ x q, s'.lock x = some q → loads x (s'.call q) = false → t'.held (s'.key x) = some q) ∧
        ∀ k q, t'.held k = some q →
          ∃ x, s'.key x = k ∧ s'.lock x = some q ∧ loads x (s'.call q) = false := by
    have hlocks : s'.lock = s.lock := by rw [heq]; rfl
    rw [ht', hlocks]
    refine ⟨fun x q hq hload => ?_, fun k q hk => ?_⟩
    · rw [hloads] at hload
      rw [hkey fun hx => hlock (hx ▸ hq)]
      exact h.held x q hq hload
    · obtain ⟨x, hx, hq, hload⟩ := h.holder k q hk
      exact ⟨x, (hkey fun hxb => hlock (hxb ▸ hq)).trans hx, hq, hloads.trans hload⟩
  have hdata : s'.data = s.data ∧ s'.pins = s.pins ∧ s'.disk = s.disk := by
    rw [heq]
    exact ⟨rfl, rfl, rfl⟩
  by_cases hv : s.valid b = true
  · have hpins : t.pins (s.key b) = 0 := by
      have hcell := (h.cell b hv).2
      omega
    have hfree : t.held (s.key b) = none := by
      rw [Option.eq_none_iff_forall_ne_some]
      intro q hq
      obtain ⟨x, hx, hq, hload⟩ := h.holder _ q hq
      exact hlock ((h.sound.eq_of_valid (h.sound.filled x q hq hload) hv hx) ▸ hq)
    rw [if_pos hv]
    refine ⟨_, run_one (if_pos ⟨hfree, hpins⟩), hs', h.disk.trans hdata.2.2.symm, fun x hx => ?_,
      fun k hk => ?_, (hheld rfl).1, (hheld rfl).2⟩
    · obtain ⟨hxb, hx⟩ := hvalid.mp hx
      have hne : s.key x ≠ s.key b := fun hk => hxb (h.sound.eq_of_valid hx hv hk)
      rw [hkey hxb, hdata.1, hdata.2.1]
      change Function.update t.cache (s.key b) none (s.key x) = _ ∧ _
      rw [Function.update_of_ne hne]
      exact h.cell x hx
    · change Function.update t.cache (s.key b) none k = none ∧ t.pins k = 0
      by_cases hkb : k = s.key b
      · rw [hkb, Function.update_self]
        exact ⟨rfl, hpins⟩
      · rw [Function.update_of_ne hkb]
        refine h.bare k fun x hx hxk => ?_
        have hxb : x ≠ b := fun hxb => hkb (by rw [← hxk, hxb])
        exact hk x (hvalid.mpr ⟨hxb, hx⟩) ((hkey hxb).trans hxk)
  · rw [if_neg hv]
    refine ⟨t, rfl, hs', h.disk.trans hdata.2.2.symm, fun x hx => ?_, fun k hk => ?_, (hheld rfl).1,
      (hheld rfl).2⟩
    · obtain ⟨hxb, hx⟩ := hvalid.mp hx
      rw [hkey hxb, hdata.1, hdata.2.1]
      exact h.cell x hx
    · refine h.bare k fun x hx hxk => ?_
      have hxb : x ≠ b := fun hxb => hv (hxb ▸ hx)
      exact hk x (hvalid.mpr ⟨hxb, hx⟩) ((hkey hxb).trans hxk)

/-- A block is read. -/
theorem bread (h : Shows s t) (hcall : s.call p = some (.load b dev blockno)) :
    ∃ t', run Cells.step t [.bread p (dev, blockno)] = some t' ∧ Shows (s.bread p b) t' := by
  obtain ⟨hkey, hlock⟩ : s.key b = (dev, blockno) ∧ s.lock b = some p := by
    have hp := h.sound.places p
    rwa [hcall] at hp
  have hpos := h.sound.refcnt_pos_of_lock hlock
  have hload : loads b (s.call p) = true := by rw [hcall, loads_load, decide_eq_true rfl]
  have hfree : t.held (s.key b) = none := by
    rw [Option.eq_none_iff_forall_ne_some]
    intro q hq
    obtain ⟨x, hx, hqx, hx'⟩ := h.holder _ q hq
    obtain rfl := h.sound.eq_of_key_eq (h.sound.filled x q hqx hx') hpos hx
    rw [hlock, Option.some.injEq] at hqx
    rw [← hqx, hload] at hx'
    cases hx'
  obtain ⟨s', hs'⟩ : ∃ s', s' = s.bread p b := ⟨_, rfl⟩
  have hview : s'.data b = t.view (s.key b) ∧ s'.valid b = true ∧
      t.pins (s.key b) = s.pins b := by
    rw [hs', Bcache.bread]
    by_cases hv : s.valid b = true
    · rw [if_pos hv]
      exact ⟨by rw [Cells.view, (h.cell b hv).1]; rfl, hv, (h.cell b hv).2⟩
    · obtain ⟨hcache, hpins⟩ := h.bare (s.key b) fun x hx hk =>
        hv (h.sound.eq_of_key_eq hx hpos hk ▸ hx)
      have hzero : s.pins b = 0 := Nat.eq_zero_of_not_pos fun hp => hv (h.sound.pinned b hp)
      rw [if_neg hv]
      refine ⟨?_, Function.update_self .., hpins.trans hzero.symm⟩
      rw [Cells.view, hcache, h.disk]
      exact Function.update_self ..
  have hrest : s'.key = s.key ∧ s'.lock = s.lock ∧ s'.pins = s.pins ∧ s'.disk = s.disk ∧
      s'.call = Function.update s.call p none ∧
      ∀ x ≠ b, s'.data x = s.data x ∧ s'.valid x = s.valid x := by
    rw [hs', Bcache.bread]
    split_ifs
    · exact ⟨rfl, rfl, rfl, rfl, rfl, fun _ _ => ⟨rfl, rfl⟩⟩
    · exact ⟨rfl, rfl, rfl, rfl, rfl, fun x hx =>
        ⟨Function.update_of_ne hx _ _, Function.update_of_ne hx _ _⟩⟩
  obtain ⟨hkeys, hlocks, hpins, hdisk, hcalls, hothers⟩ := hrest
  have hloads {x : Fin nbuf} (hx : x ≠ b) (q : P) : loads x (s'.call q) = loads x (s.call q) := by
    rw [hcalls]
    exact loads_update (by rw [hcall, loads_none, loads_load, decide_eq_false (Ne.symm hx)])
  rw [← hs', ← hkey]
  refine ⟨_, run_one (if_pos hfree), hs' ▸ h.sound.bread hcall, h.disk.trans hdisk.symm,
    fun x hx => ?_, fun k hk => ?_, fun x q hq hx => ?_, fun k q hk => ?_⟩
  · change Function.update t.cache (s.key b) (some (t.view (s.key b))) (s'.key x) =
      some (s'.data x) ∧ t.pins (s'.key x) = s'.pins x
    rw [hkeys, hpins]
    by_cases hxb : x = b
    · rw [hxb, Function.update_self, hview.1]
      exact ⟨rfl, hview.2.2⟩
    · rw [(hothers x hxb).2] at hx
      have hne : s.key x ≠ s.key b := fun hk => hxb (h.sound.eq_of_key_eq hx hpos hk)
      rw [Function.update_of_ne hne, (hothers x hxb).1]
      exact h.cell x hx
  · change Function.update t.cache (s.key b) (some (t.view (s.key b))) k = none ∧ t.pins k = 0
    rw [hkeys] at hk
    have hkb : k ≠ s.key b := (hk b hview.2.1).symm
    rw [Function.update_of_ne hkb]
    refine h.bare k fun x hx hxk => ?_
    have hxb : x ≠ b := fun hxb => hkb (by rw [← hxk, hxb])
    exact hk x ((hothers x hxb).2.trans hx) hxk
  · change Function.update t.held (s.key b) (some p) (s'.key x) = some q
    rw [hlocks] at hq
    rw [hkeys]
    by_cases hxb : x = b
    · rw [hxb, hlock] at hq
      rw [hxb, Function.update_self]
      exact hq
    · rw [hloads hxb] at hx
      have hne : s.key x ≠ s.key b := fun hk =>
        hxb (h.sound.eq_of_key_eq (h.sound.filled x q hq hx) hpos hk)
      rw [Function.update_of_ne hne]
      exact h.held x q hq hx
  · change Function.update t.held (s.key b) (some p) k = some q at hk
    rw [hkeys, hlocks]
    by_cases hkb : k = s.key b
    · rw [hkb, Function.update_self, Option.some.injEq] at hk
      refine ⟨b, hkb.symm, hk ▸ hlock, ?_⟩
      rw [hcalls, ← hk, Function.update_self]
      rfl
    · rw [Function.update_of_ne hkb] at hk
      obtain ⟨x, hx, hq, hx'⟩ := h.holder k q hk
      have hxb : x ≠ b := fun hxb => hkb (by rw [← hx, hxb])
      exact ⟨x, hx, hq, (hloads hxb q).trans hx'⟩

/-- A buffer is locked, and not read in yet. -/
theorem acquiresleep (h : Shows s t) (hcall : s.call p = some (.wait b dev blockno))
    (hlock : s.lock b = none) (hs' : Sound s')
    (heq : s' = { s.setCall p (some (.load b dev blockno)) with
      lock := Function.update s.lock b (some p) }) : Shows s' t := by
  have hloads {x : Fin nbuf} (hx : x ≠ b) (q : P) : loads x (s'.call q) = loads x (s.call q) := by
    rw [heq]
    exact loads_update (by rw [hcall, loads_load, decide_eq_false (Ne.symm hx)]; rfl)
  have hlocks {x : Fin nbuf} (hx : x ≠ b) : s'.lock x = s.lock x := by
    rw [heq]
    exact Function.update_of_ne hx _ _
  have hnew {q : P} (hq : s'.lock b = some q) : loads b (s'.call q) = true := by
    rw [heq] at hq ⊢
    change Function.update s.lock b (some p) b = some q at hq
    rw [Function.update_self, Option.some.injEq] at hq
    change loads b (Function.update s.call p (some (.load b dev blockno)) q) = true
    rw [← hq, Function.update_self, loads_load, decide_eq_true rfl]
  have hrest : s'.disk = s.disk ∧ s'.key = s.key ∧ s'.valid = s.valid ∧ s'.data = s.data ∧
      s'.pins = s.pins := by
    rw [heq]
    exact ⟨rfl, rfl, rfl, rfl, rfl⟩
  obtain ⟨hdisk, hkey, hvalid, hdata, hpins⟩ := hrest
  refine ⟨hs', h.disk.trans hdisk.symm, ?_, ?_, fun x q hq hx => ?_, fun k q hk => ?_⟩
  · rw [hkey, hvalid, hdata, hpins]
    exact h.cell
  · rw [hkey, hvalid]
    exact h.bare
  · have hxb : x ≠ b := by
      rintro rfl
      rw [hnew hq] at hx
      cases hx
    rw [hlocks hxb] at hq
    rw [hloads hxb] at hx
    rw [hkey]
    exact h.held x q hq hx
  · obtain ⟨x, hx, hq, hx'⟩ := h.holder k q hk
    have hxb : x ≠ b := by
      rintro rfl
      rw [hlock] at hq
      cases hq
    rw [hkey]
    exact ⟨x, hx, (hlocks hxb).trans hq, (hloads hxb q).trans hx'⟩

/-- A buffer is changed. -/
theorem modify (h : Shows s t) (hcall : s.call p = none) (hlock : s.lock b = some p) (d : Block) :
    ∃ t', run Cells.step t [.modify p (s.key b) d] = some t' ∧
      Shows { s with data := Function.update s.data b d } t' := by
  obtain ⟨hvalid, hheld, -⟩ := h.held_of hcall hlock
  refine ⟨_, run_one (if_pos hheld), { h.sound with }, h.disk, fun b' hb' => ?_,
    fun k hk => ?_, h.held, h.holder⟩
  · change Function.update t.cache (s.key b) (some d) (s.key b') =
      some (Function.update s.data b d b') ∧ t.pins (s.key b') = s.pins b'
    by_cases hbb : b' = b
    · rw [hbb, Function.update_self, Function.update_self]
      exact ⟨rfl, (h.cell b hvalid).2⟩
    · have hne : s.key b' ≠ s.key b := fun hkey => hbb (h.sound.eq_of_valid hb' hvalid hkey)
      rw [Function.update_of_ne hne, Function.update_of_ne hbb]
      exact h.cell b' hb'
  · change Function.update t.cache (s.key b) (some d) k = none ∧ t.pins k = 0
    have hkb : k ≠ s.key b := (hk b hvalid).symm
    rw [Function.update_of_ne hkb]
    exact h.bare k hk

/-- A buffer is written. -/
theorem bwrite (h : Shows s t) (hcall : s.call p = none) (hlock : s.lock b = some p) :
    ∃ t', run Cells.step t [.bwrite p (s.key b)] = some t' ∧
      Shows { s with disk := Function.update s.disk (s.blockno b) (s.data b) } t' := by
  obtain ⟨hvalid, hheld, hview⟩ := h.held_of hcall hlock
  refine ⟨_, run_one (if_pos hheld), { h.sound with }, ?_, h.cell, h.bare, h.held,
    h.holder⟩
  change Function.update t.disk (s.blockno b) (t.view (s.key b)) = _
  rw [hview, h.disk]

/-- A buffer is let go of. -/
theorem brelse (h : Shows s t) (hcall : s.call p = none) (hlock : s.lock b = some p)
    (hs' : Sound s')
    (heq : s' = { s.setCall p (some (.drop b)) with lock := Function.update s.lock b none }) :
    ∃ t', run Cells.step t [.brelse p (s.key b)] = some t' ∧ Shows s' t' := by
  obtain ⟨hvalid, hheld, hview⟩ := h.held_of hcall hlock
  have hloads {x : Fin nbuf} {q : P} :
      loads x (Function.update s.call p (some (.drop b)) q) = loads x (s.call q) :=
    loads_update (by rw [hcall]; rfl)
  subst heq
  refine ⟨_, run_one (if_pos hheld), hs', h.disk, h.cell, h.bare,
    fun b' q hq hload => ?_, fun k q hk => ?_⟩
  · change Function.update s.lock b none b' = some q at hq
    have hbb : b' ≠ b := fun heq => by
      rw [heq, Function.update_self] at hq
      cases hq
    rw [Function.update_of_ne hbb] at hq
    have hload' : loads b' (s.call q) = false := hloads.symm.trans hload
    have hne : s.key b' ≠ s.key b := fun hkey =>
      hbb (h.sound.eq_of_valid (h.sound.filled b' q hq hload') hvalid hkey)
    exact (Function.update_of_ne hne _ _).trans (h.held b' q hq hload')
  · change Function.update t.held (s.key b) none k = some q at hk
    have hkb : k ≠ s.key b := fun heq => by
      rw [heq, Function.update_self] at hk
      cases hk
    rw [Function.update_of_ne hkb] at hk
    obtain ⟨b', hkey, hq, hload⟩ := h.holder k q hk
    have hbb : b' ≠ b := fun heq => hkb (by rw [← hkey, heq])
    exact ⟨b', hkey, (Function.update_of_ne hbb _ _).trans hq, hloads.trans hload⟩

omit [DecidableEq P] in
/-- A buffer is pinned, or unpinned. -/
theorem pin (h : Shows s t) (hcall : s.call p = none) (hlock : s.lock b = some p) {n m : ℕ}
    (hs' : Sound { s with
      refcnt := Function.update s.refcnt b n
      pins := Function.update s.pins b m }) :
    t.pins (s.key b) = s.pins b ∧ Shows { s with
      refcnt := Function.update s.refcnt b n
      pins := Function.update s.pins b m }
      { t with pins := Function.update t.pins (s.key b) m } := by
  obtain ⟨hvalid, -, -⟩ := h.held_of hcall hlock
  refine ⟨(h.cell b hvalid).2, hs', h.disk, fun b' hb' => ?_, fun k hk => ?_, h.held, h.holder⟩
  · change t.cache (s.key b') = _ ∧ Function.update t.pins (s.key b) m (s.key b') =
      Function.update s.pins b m b'
    by_cases hbb : b' = b
    · rw [hbb, Function.update_self, Function.update_self]
      exact ⟨(h.cell b hvalid).1, rfl⟩
    · have hne : s.key b' ≠ s.key b := fun hkey => hbb (h.sound.eq_of_valid hb' hvalid hkey)
      rw [Function.update_of_ne hne, Function.update_of_ne hbb]
      exact h.cell b' hb'
  · change t.cache k = none ∧ Function.update t.pins (s.key b) m k = 0
    have hkb : k ≠ s.key b := (hk b hvalid).symm
    rw [Function.update_of_ne hkb]
    exact h.bare k hk

/-- **One step.** -/
theorem step {e : Event P} (h : Shows s t) (he : Paired s e) (hs : s.step e = some s') :
    ∃ t', run Cells.step t (s.performs e) = some t' ∧ Shows s' t' := by
  have hsound := h.sound.step he hs
  cases e with
  | bget p dev blockno =>
    rw [Bcache.step] at hs
    split_ifs at hs with hif
    cases hs
    rw [Bcache.bget] at hsound ⊢
    rw [performs]
    split at hsound <;> rename_i hb
    · rw [hb]
      exact ⟨t, rfl, h.keep hsound rfl rfl rfl rfl rfl rfl
        fun _ _ => loads_update (by rw [hif.2]; rfl)⟩
    · split at hsound <;> rename_i b hun
      · rw [hb, hun]
        have hzero := hun
        rw [h.sound.unused_eq] at hzero
        have hzero := List.find?_some hzero
        rw [decide_eq_true_eq] at hzero
        exact h.recycle hif.2 hzero hsound rfl
      · rw [hb, hun]
        exact ⟨t, rfl, h.keep hsound rfl rfl rfl rfl rfl rfl fun _ _ => rfl⟩
  | acquiresleep p =>
    rw [Bcache.step] at hs
    split at hs
    · next b dev blockno hcall =>
      split_ifs at hs with hif
      cases hs
      exact ⟨t, rfl, h.acquiresleep hcall hif.2 hsound rfl⟩
    · cases hs
  | bread p =>
    rw [Bcache.step] at hs
    split at hs
    · next b dev blockno hcall =>
      split_ifs at hs
      cases hs
      rw [performs, hcall]
      exact h.bread hcall
    · cases hs
  | modify p b d =>
    rw [Bcache.step] at hs
    split_ifs at hs with hif
    cases hs
    exact h.modify hif.2.1 hif.2.2 d
  | bwrite p b =>
    rw [Bcache.step] at hs
    split_ifs at hs with hif
    cases hs
    rw [Bcache.bwrite, performs]
    by_cases hlock : s.lock b = some p
    · rw [if_neg (not_not.mpr hlock), if_pos hlock]
      exact h.bwrite hif.2 hlock
    · rw [Bcache.bwrite, if_pos hlock] at hsound
      rw [if_pos hlock, if_neg hlock]
      exact ⟨t, rfl, h.keep hsound rfl rfl rfl rfl rfl rfl fun _ _ => rfl⟩
  | brelse p b =>
    rw [Bcache.step] at hs
    split_ifs at hs with hif
    cases hs
    rw [Bcache.brelse] at hsound ⊢
    rw [performs]
    by_cases hlock : s.lock b = some p
    · rw [if_neg (not_not.mpr hlock)] at hsound ⊢
      rw [if_pos hlock]
      exact h.brelse hif.2 hlock hsound rfl
    · rw [if_pos hlock] at hsound ⊢
      rw [if_neg hlock]
      exact ⟨t, rfl, h.keep hsound rfl rfl rfl rfl rfl rfl fun _ _ => rfl⟩
  | drop p =>
    rw [Bcache.step] at hs
    split at hs
    · next b hcall =>
      split_ifs at hs
      cases hs
      have hloads (x : Fin nbuf) (q : P) : loads x ((s.drop p b).call q) = loads x (s.call q) := by
        rw [Bcache.drop]
        split_ifs <;> exact loads_update (by rw [hcall]; rfl)
      refine ⟨t, rfl, h.keep hsound ?_ ?_ ?_ ?_ ?_ ?_ hloads⟩ <;>
      · rw [Bcache.drop]
        split_ifs <;> rfl
    · cases hs
  | bpin p b =>
    rw [Bcache.step] at hs
    split_ifs at hs with hif
    cases hs
    obtain ⟨hpins, hshows⟩ := h.pin hif.2.1 hif.2.2 hsound
    have hheld := (h.held_of hif.2.1 hif.2.2).2.1
    refine ⟨_, run_one (if_pos hheld), ?_⟩
    rw [hpins]
    exact hshows
  | bunpin p b =>
    rw [Bcache.step] at hs
    split_ifs at hs with hif
    cases hs
    obtain ⟨hpins, hshows⟩ := h.pin hif.2.1 hif.2.2 hsound
    have hheld := (h.held_of hif.2.1 hif.2.2).2.1
    refine ⟨_, run_one (if_pos hheld), ?_⟩
    rw [hpins]
    exact hshows

end Shows

theorem shows_binit (disk : BlockNo → Block) :
    Shows (binit disk : Bcache P) (Cells.start disk) where
  sound := sound_binit disk
  disk := rfl
  cell _ hb := by cases hb
  bare _ _ := ⟨rfl, rfl⟩
  held _ _ hq := by cases hq
  holder _ _ hk := by cases hk

/-- **The buffer cache carries out the cells**, whoever runs when: each buffer that a process works
on is the cell of its block, which the process asked for and has alone. -/
theorem cells_of_run [DecidableEq P] {disk : BlockNo → Block} {es : List (Event P)}
    (hes : Along Bcache.step Paired (binit disk) es)
    (h : run Bcache.step (binit disk) es = some s) :
    ∃ t, run Cells.step (Cells.start disk) (trace Bcache.step performs (binit disk) es) = some t ∧
      t.disk = s.disk ∧
      (∀ p b, s.call p = none → s.lock b = some p →
        t.held (s.key b) = some p ∧ t.view (s.key b) = s.data b) ∧
      ∀ b b' p p', s.lock b = some p → s.lock b' = some p' → s.call p = none → s.call p' = none →
        s.key b = s.key b' → b = b' := by
  obtain ⟨t, ht, hshows⟩ := simulate (R := Shows) (P := Paired)
    (fun _ _ _ _ hst he hs => hst.step he hs) (shows_binit disk) hes h
  refine ⟨t, ht, hshows.disk, fun p b hcall hlock => (hshows.held_of hcall hlock).2,
    fun b b' p p' hb hb' hp hp' hkey => ?_⟩
  exact hshows.sound.eq_of_valid (hshows.held_of hp hb).1 (hshows.held_of hp' hb').1 hkey

/-- Two processes read one block, one after the other, and the first changes it and pins it. -/
def sampleShared : List (Event Bool) :=
  [.bget true 1 45, .acquiresleep true, .bread true, .bget false 1 45, .modify true 0 fun _ => 7,
    .bpin true 0, .brelse true 0, .acquiresleep false, .bread false, .drop true]

theorem cells_of_run_sample :
    ∃ s t, run Bcache.step (binit fun _ _ => 0) sampleShared = some s ∧ s.lock 0 = some false ∧
      run Cells.step (Cells.start fun _ _ => 0)
        (trace Bcache.step performs (binit fun _ _ => 0) sampleShared) = some t ∧
      ∀ p b, s.call p = none → s.lock b = some p →
        t.held (s.key b) = some p ∧ t.view (s.key b) = s.data b := by
  have hrun : (run Bcache.step (binit fun _ _ => 0) sampleShared).map (·.lock 0) =
      some (some false) := by decide +kernel
  obtain ⟨s, hs, hlock⟩ := Option.map_eq_some_iff.mp hrun
  obtain ⟨t, ht, -, hcells, -⟩ := cells_of_run (by decide +kernel) hs
  exact ⟨s, t, hs, hlock, ht, hcells⟩

end Bcache

end MiniProject.Kernel
