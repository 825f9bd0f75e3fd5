import MiniProject.Kernel.Globals

/-!
# Kernel/Selection — the selection loops of the MLFQ scheduler

The two loops of `scheduler()` from `chosen = 0` on, as written: with an `int` index, a remainder,
and a `break` out of the inner one.  In range they never look outside `proc`, and choose what
`pickMlfq` chooses (`pass_eq`): the RUNNABLE process of the topmost queue that comes first behind
the pointer of the queue (`pass_spec`).
-/

namespace MiniProject.Kernel

/-- `chosen` and `mlfq_last`. -/
structure Selection where
  chosen : Option Slot
  last : Fin nmlfq → ℤ

/-- `&proc[idx]`; `none` is outside the array. -/
def slotAt (idx : ℤ) : Option Slot :=
  if h : 0 ≤ idx ∧ idx < nproc then some ⟨idx.toNat, by omega⟩ else none

namespace Table

variable (t : Table)

/-- `for(int i = 1; i <= NPROC; i++)`, over what is left of the values of `i`. -/
def lookAround (q : Fin nmlfq) (start : ℤ) : List ℕ → Selection → Option Selection
  | [], s => some s
  | i :: is, s =>
    let idx := (start + i).tmod nproc
    (slotAt idx).bind fun p =>
      if (t p).state = .runnable ∧ (t p).queue = (q.val : ℤ) then
        some ⟨some p, Function.update s.last q idx⟩
      else lookAround q start is s

/-- `for(int q = 0; q < NMLFQ && chosen == 0; q++)`, over what is left of the values of `q`. -/
def lookThrough : List (Fin nmlfq) → Selection → Option Selection
  | [], s => some s
  | q :: qs, s =>
    if s.chosen = none then
      (t.lookAround q (s.last q) (List.range' 1 nproc) s).bind (lookThrough qs)
    else some s

/-- One pass of the two loops. -/
def pass (last : Fin nmlfq → ℤ) : Option Selection :=
  t.lookThrough (List.finRange nmlfq) ⟨none, last⟩

variable {t : Table}

/-! ## A pass is a choice of the MLFQ scheduler -/

theorem slotAt_val (p : Slot) : slotAt p.val = some p := by
  rw [slotAt, dif_pos ⟨Int.natCast_nonneg _, Int.ofNat_lt.mpr p.isLt⟩]
  rfl

/-- Behind `start` the loop looks at the slots of the ring, one after the other. -/
theorem tmod_eq_after (start : Slot) (i : ℕ) :
    ((start.val : ℤ) + i).tmod nproc = (after start i).val := by
  rw [Int.tmod_eq_emod_of_nonneg (by omega)]
  rfl

theorem lookAround_eq (q : Fin nmlfq) (start : Slot) (is : List ℕ) (s : Selection) :
    t.lookAround q start.val is s = some
      (match (is.map (after start)).find? (t.waits q) with
      | none => s
      | some p => ⟨some p, Function.update s.last q p.val⟩) := by
  induction is with
  | nil => rfl
  | cons i is ih =>
    rw [lookAround, tmod_eq_after, slotAt_val, Option.bind_some, List.map_cons, List.find?_cons]
    by_cases hwaits : t.waits q (after start i) = true
    · rw [if_pos (of_decide_eq_true hwaits), hwaits]
    · rw [if_neg fun h => hwaits (decide_eq_true h), Bool.eq_false_iff.mpr hwaits]
      exact ih

/-- The inner loop ends at what a scan from behind the pointer finds. -/
theorem lookAround_range' (q : Fin nmlfq) (start : Slot) (s : Selection) :
    t.lookAround q start.val (List.range' 1 nproc) s = some
      (match scan start (t.waits q) with
      | none => s
      | some p => ⟨some p, Function.update s.last q p.val⟩) := by
  have hmap : (List.range' 1 nproc).map (after start) =
      (List.range nproc).map fun i => after start (i + 1) := by
    rw [List.range'_eq_map_range, List.map_map]
    refine List.map_congr_left fun i _ => ?_
    rw [Function.comp_apply, Nat.add_comm]
  rw [lookAround_eq, hmap]
  rfl

/-- Once something is chosen the outer loop ends. -/
theorem lookThrough_some (qs : List (Fin nmlfq)) (p : Slot) (last : Fin nmlfq → ℤ) :
    t.lookThrough qs ⟨some p, last⟩ = some ⟨some p, last⟩ := by
  cases qs <;> rfl

theorem lookThrough_eq (qs : List (Fin nmlfq)) (last : Fin nmlfq → Slot) :
    t.lookThrough qs ⟨none, fun q => (last q).val⟩ = some
      (match qs.findSome? fun q => (scan (last q) (t.waits q)).map (q, ·) with
      | none => ⟨none, fun q => (last q).val⟩
      | some (q, p) => ⟨some p, Function.update (fun q => ((last q).val : ℤ)) q p.val⟩) := by
  induction qs with
  | nil => rfl
  | cons q qs ih =>
    rw [lookThrough, if_pos rfl, lookAround_range', Option.bind_some, List.findSome?_cons]
    cases scan (last q) (t.waits q) with
    | none => exact ih
    | some p => exact lookThrough_some _ _ _

/-- **A pass chooses what the MLFQ scheduler chooses**, and notes where. -/
theorem pass_eq (last : Fin nmlfq → Slot) :
    t.pass (fun q => (last q).val) = some
      (match t.pickMlfq last with
      | none => ⟨none, fun q => (last q).val⟩
      | some (q, p) => ⟨some p, Function.update (fun q => ((last q).val : ℤ)) q p.val⟩) :=
  lookThrough_eq _ _

end Table

/-- **The machines' choice is the code's.** -/
theorem Globals.pass_eq_chooseMlfq (k : Globals) :
    k.table.pass (fun q => (k.last q).val) = some
      (match k.chooseMlfq with
      | none => ⟨none, fun q => (k.last q).val⟩
      | some (p, k') => ⟨some p, fun q => (k'.last q).val⟩) := by
  rw [Table.pass_eq, chooseMlfq]
  cases k.table.pickMlfq k.last with
  | none => rfl
  | some c =>
    obtain ⟨q, p⟩ := c
    refine congrArg (fun last => some (⟨some p, last⟩ : Selection)) (funext fun q' => ?_)
    dsimp only
    by_cases hq : q' = q
    · rw [hq, Function.update_self, Function.update_self]
    · rw [Function.update_of_ne hq, Function.update_of_ne hq]

/-! ## What a pass does -/

/-- How far slot `p` is behind `start`, going round: from 1, the next slot, to `NPROC`, the slot
itself. -/
def distance (start : ℤ) (p : Slot) : ℤ := (p.val - start - 1) % nproc + 1

theorem distance_eq_gap (start p : Slot) : distance start.val p = gap start p + 1 := by
  have hstart := start.isLt
  have hp := p.isLt
  have hn : (nproc : ℤ) = 64 := rfl
  have hn' : nproc = 64 := rfl
  rw [distance, gap, hn]
  split <;> omega

namespace Table

variable {t : Table} {last : Fin nmlfq → ℤ}

/-- Whoever is RUNNABLE waits in one of the queues. -/
theorem exists_waits {p : Slot} (hqueue : 0 ≤ (t p).queue ∧ (t p).queue ≤ 3)
    (hp : (t p).state = .runnable) :
    ∃ q : Fin nmlfq, (t p).queue = (q.val : ℤ) ∧ t.waits q p = true := by
  have hlt : (t p).queue.toNat < nmlfq := by
    rw [show nmlfq = 4 from rfl]
    omega
  have hq : (t p).queue = ((⟨(t p).queue.toNat, hlt⟩ : Fin nmlfq).val : ℤ) := by
    dsimp only
    omega
  exact ⟨_, hq, decide_eq_true ⟨hp, hq⟩⟩

/-- **One pass of the selection loops** chooses nobody exactly when nobody is RUNNABLE; otherwise
the RUNNABLE process of the least queue that comes first behind the pointer of the queue, which then
points to it.  No other pointer moves, and none leaves the array. -/
theorem pass_spec (hqueue : ∀ p, 0 ≤ (t p).queue ∧ (t p).queue ≤ 3)
    (hlast : ∀ q, 0 ≤ last q ∧ last q < nproc) :
    ∃ s, t.pass last = some s ∧
      (s.chosen = none ↔ ∀ p, (t p).state ≠ .runnable) ∧
      (s.chosen = none → s.last = last) ∧
      (∀ p, s.chosen = some p → (t p).state = .runnable ∧
        (∀ p', (t p').state = .runnable → (t p).queue ≤ (t p').queue) ∧
        ∃ q : Fin nmlfq, (t p).queue = (q.val : ℤ) ∧
          (∀ p', (t p').state = .runnable → (t p').queue = (t p).queue → p' ≠ p →
            distance (last q) p < distance (last q) p') ∧
          s.last = Function.update last q p.val) ∧
      ∀ q, 0 ≤ s.last q ∧ s.last q < nproc := by
  obtain ⟨slots, rfl⟩ : ∃ slots : Fin nmlfq → Slot, last = fun q => ((slots q).val : ℤ) := by
    refine ⟨fun q => ⟨(last q).toNat, by have hq := hlast q; omega⟩, funext fun q => ?_⟩
    have hq := hlast q
    dsimp only
    omega
  refine ⟨_, pass_eq slots, ?_⟩
  cases hpick : t.pickMlfq slots with
  | none =>
    have hnone := pickMlfq_eq_none.mp hpick
    refine ⟨iff_of_true rfl fun p hp => ?_, fun _ => rfl, nofun, hlast⟩
    obtain ⟨q, -, hwaits⟩ := exists_waits (hqueue p) hp
    cases (hnone q p).symm.trans hwaits
  | some c =>
    obtain ⟨q, p⟩ := c
    obtain ⟨hscan, habove⟩ := pickMlfq_eq_some.mp hpick
    obtain ⟨hrunnable, hq⟩ := of_decide_eq_true (scan_eq_some.mp hscan).1
    refine ⟨iff_of_false nofun fun h => h p hrunnable, nofun, fun p' hp' => ?_, fun q' => ?_⟩
    · obtain rfl : p = p' := Option.some.inj hp'
      refine ⟨hrunnable, fun p' hp' => ?_, q, hq, fun p' hp' hqueue' hne => ?_, rfl⟩
      · -- A process of a smaller queue would have been found there.
        obtain ⟨q', hq', hwaits⟩ := exists_waits (hqueue p') hp'
        have hle : ¬ q' < q := fun hlt => by cases (habove q' hlt p').symm.trans hwaits
        rw [hq, hq']
        exact Int.ofNat_le.mpr (Fin.not_lt.mp hle)
      · have hwaits : t.waits q p' = true := decide_eq_true ⟨hp', hqueue'.trans hq⟩
        have hgap := gap_lt_of_scan_of_ne hscan hwaits (Ne.symm hne)
        rw [distance_eq_gap, distance_eq_gap]
        omega
    · dsimp only
      by_cases hqq : q' = q
      · rw [hqq, Function.update_self]
        exact ⟨Int.natCast_nonneg _, Int.ofNat_lt.mpr p.isLt⟩
      · rw [Function.update_of_ne hqq]
        exact hlast q'

/-- Slots 3 and 5 wait in queue 1, behind a pointer at 4: slot 5 comes first. -/
theorem pass_spec_five :
    let t : Table := fun p =>
      if p = 3 ∨ p = 5 then { Proc.zero with state := .runnable, queue := 1 } else .zero
    ∃ s, t.pass (fun _ => 4) = some s ∧ s.chosen = some 5 ∧ s.last 1 = 5 ∧
      ∀ q, 0 ≤ s.last q ∧ s.last q < nproc := by
  intro t
  have hqueue : ∀ p, 0 ≤ (t p).queue ∧ (t p).queue ≤ 3 := by decide
  obtain ⟨s, hs, -, -, hchosen, hrange⟩ :=
    @pass_spec t (fun _ => 4) hqueue (fun _ => by decide)
  have hfive : (t.pass fun _ => 4).map (·.chosen) = some (some 5) := by decide +kernel
  rw [hs] at hfive
  have h5 : s.chosen = some 5 := Option.some.inj hfive
  obtain ⟨-, -, q, hq, -, hlast⟩ := hchosen 5 h5
  obtain rfl : q = 1 := by
    have hqueue5 : (t 5).queue = 1 := by decide
    rw [hqueue5] at hq
    exact Fin.ext (Int.ofNat_inj.mp hq).symm
  refine ⟨s, hs, h5, ?_, hrange⟩
  rw [hlast, Function.update_self]
  rfl

end Table

end MiniProject.Kernel
