import Mathlib.Logic.Function.Basic
import MiniProject.Machinery.Runs
import MiniProject.Shell.Messages

/-!
# Shell/Queue — the exit messages that wait for the end of a foreground job

The handler fills `pending_msg` while `fg_running` is set, and `flush_pending_bg_msg` empties it:
under the blocked signal it takes the count and sets it back, and then it writes the slots, with the
handler free to come in again.  By then `fg_running` is clear, so no slot is written over, and the
lines come out once and in order; but there are 64 slots, and what finds them full is dropped
(`flushed_iff`).
-/

namespace MiniProject.Shell.Queue

/-! ## The machine -/

/-- Where the shell stands: before the step it is named after; `idle` outside `run_foreground`, and
`write n i` in the loop of `flush_pending_bg_msg`. -/
inductive Place
  | idle
  | running
  | block
  | take
  | unblock (n : ℕ)
  | write (n i : ℕ)
  deriving DecidableEq, Repr

/-- The jobs, and `pending_msg` with `pending_count`; `pending` of the table is what is in the slots
up to the count.  `met` are the exit messages of the processes that have been reaped since
`fg_running` was set, while it was, and `written` the lines that the flush has written. -/
structure State where
  table : JobTable
  slots : ℕ → Text
  count : ℕ
  place : Place
  met : List Text
  written : List Text

/-- A step of the shell, what else it does to its jobs, or a process that the handler reaps. -/
inductive Event
  | main
  | edits (table : JobTable)
  | reaps (pid : Pid) (normal : Bool)

/-- The shell when it starts. -/
def initial : State where
  table := Console.initial.table
  slots := fun _ => []
  count := 0
  place := .idle
  met := []
  written := []

variable (s : State)

/-- `SIGCHLD` is blocked. -/
def blocked : Bool :=
  match s.place with
  | .take | .unblock _ => true
  | _ => false

/-- From `fg_running = 1` to the last `write`. -/
def main : State :=
  match s.place with
  | .idle =>
    { s with
      table := { s.table with fgRunning := true }, place := .running, met := [], written := [] }
  | .running => { s with table := { s.table with fgRunning := false }, place := .block }
  | .block => { s with place := .take }
  | .take =>
    { s with table := { s.table with pending := [] }, count := 0, place := .unblock s.count }
  | .unblock n => { s with place := .write n 0 }
  | .write n i =>
    if i < n then
      { s with
        table := s.table.print (s.slots i)
        written := s.written ++ [s.slots i]
        place := .write n (i + 1) }
    else { s with place := .idle }

/-- `queue_or_print` in the slots. -/
def queue (m : Text) : State :=
  if s.table.fgRunning ∧ s.count < maxPending then
    { s with slots := Function.update s.slots s.count m, count := s.count + 1 }
  else s

/-- `reap_finished` for one process. -/
def reaps (pid : Pid) (normal : Bool) : State :=
  let m := s.table.exitMessage pid normal
  let met := if s.table.fgRunning then s.met ++ m.toList else s.met
  { (m.elim s (queue s)) with table := s.table.reapFinished pid normal, met }

/-- One step.  What else the shell does leaves the queue and the flag alone. -/
def step (s : State) : Event → Option State
  | .main => some (main s)
  | .edits table =>
    if table.pending = s.table.pending ∧ table.fgRunning = s.table.fgRunning then
      some { s with table }
    else none
  | .reaps pid normal => if blocked s then none else some (reaps s pid normal)

/-! ## What the slots hold -/

/-- The messages that get a slot. -/
def kept : List Text := s.met.take maxPending

/-- The first slots are these lines. -/
def Slots (s : State) (ms : List Text) : Prop := ∀ i m, ms[i]? = some m → s.slots i = m

/-- How far the shell has come with them. -/
def Stage (s : State) : Prop :=
  match s.place with
  | .running | .block | .take => s.table.pending = kept s ∧ s.written = []
  | .unblock n => s.table.pending = [] ∧ n = (kept s).length ∧ Slots s (kept s) ∧ s.written = []
  | .write n i =>
    s.table.pending = [] ∧ n = (kept s).length ∧ Slots s (kept s) ∧ s.written = (kept s).take i
  | .idle => s.table.pending = [] ∧ s.written = kept s

/-- **The slots up to the count are the queue**, and the flag is set for a foreground job alone. -/
structure Inv (s : State) : Prop where
  count : s.count = s.table.pending.length
  slots : Slots s s.table.pending
  flag : s.table.fgRunning = decide (s.place = .running)
  stage : Stage s

variable {s} {s' : State} {e : Event} {es : List Event}

theorem inv_initial : Inv initial := ⟨rfl, nofun, rfl, rfl, rfl⟩

/-- One more line fits, or is dropped. -/
theorem take_concat (l : List Text) (m : Text) (n : ℕ) :
    (l ++ [m]).take n = if (l.take n).length < n then l.take n ++ [m] else l.take n := by
  rw [List.length_take]
  split
  · rename_i h
    rw [List.take_of_length_le (by rw [List.length_append, List.length_singleton]; omega),
      List.take_of_length_le (by omega)]
  · rename_i h
    rw [List.take_append_of_le_length (by omega)]

/-- What `reap_finished` does to the queue of the table. -/
theorem pending_reapFinished (t : JobTable) (pid : Pid) (normal : Bool) :
    (t.reapFinished pid normal).pending =
      (t.exitMessage pid normal).elim t.pending fun m =>
        if t.fgRunning ∧ t.pending.length < maxPending then t.pending ++ [m] else t.pending := by
  rcases hm : t.exitMessage pid normal with _ | m
  · exact (JobTable.reapFinished_of_none hm).2
  · obtain ⟨name, rfl, hreap⟩ := JobTable.reapFinished_of_some hm
    rw [hreap, JobTable.pending_removePidFromJob, JobTable.queueOrPrint, Option.elim_some]
    by_cases hfg : t.fgRunning = true
    · by_cases hroom : t.pending.length < maxPending
      · rw [if_pos hfg, if_pos hroom, if_pos ⟨hfg, hroom⟩]
      · rw [if_pos hfg, if_neg hroom, if_neg fun h => hroom h.2]
    · rw [if_neg hfg, if_neg fun h => hfg h.1]
      rfl

/-- The table matters through its queue and its flag. -/
theorem Inv.congr (h : Inv s) {table : JobTable} (hpending : table.pending = s.table.pending)
    (hfg : table.fgRunning = s.table.fgRunning) : Inv { s with table } := by
  refine ⟨h.count.trans (by rw [hpending]), ?_, hfg.trans h.flag, ?_⟩
  · have hslots := h.slots
    rwa [← hpending] at hslots
  · have hstage := h.stage
    simp only [Stage] at hstage ⊢
    rw [hpending]
    exact hstage

theorem Slots.concat {ms : List Text} (h : Slots s ms) {m : Text} :
    Slots { s with slots := Function.update s.slots ms.length m } (ms ++ [m]) := by
  intro i m' hi
  dsimp only
  by_cases heq : i = ms.length
  · subst heq
    rw [List.getElem?_concat_length] at hi
    rw [Function.update_self]
    exact Option.some.inj hi
  · rw [Function.update_of_ne heq]
    have hlt : i < ms.length := by
      have := (List.getElem?_eq_some_iff.mp hi).1
      rw [List.length_append, List.length_singleton] at this
      omega
    rw [List.getElem?_append_left hlt] at hi
    exact h i m' hi

/-- **While a foreground job runs** a message gets the next slot, or is dropped. -/
theorem Inv.reaps_running (h : Inv s) (hplace : s.place = .running) (pid : Pid) (normal : Bool) :
    Inv (reaps s pid normal) := by
  have hfg : s.table.fgRunning = true := by rw [h.flag, hplace]; rfl
  have hfg' : (s.table.reapFinished pid normal).fgRunning = decide (s.place = .running) :=
    JobTable.fgRunning_reapFinished.trans h.flag
  have hstage := h.stage
  simp only [Stage, hplace] at hstage
  obtain ⟨hpending, hwritten⟩ := hstage
  have hafter := pending_reapFinished s.table pid normal
  rw [reaps]
  rcases hm : s.table.exitMessage pid normal with _ | m
  · rw [hm, Option.elim_none] at hafter
    simp only [Option.elim_none, hfg, if_true, Option.toList_none, List.append_nil]
    exact h.congr hafter (hfg'.trans h.flag.symm)
  · rw [hm, Option.elim_some, hfg, ← h.count] at hafter
    simp only [Option.elim_some, hfg, if_true, Option.toList_some, queue, true_and] at hafter ⊢
    have hkept := take_concat s.met m maxPending
    have hkeptLength : (s.met.take maxPending).length = s.count := by
      rw [h.count, hpending, kept]
    have hstage' : (s.table.reapFinished pid normal).pending = (s.met ++ [m]).take maxPending ∧
        s.written = [] := by
      refine ⟨?_, hwritten⟩
      rw [hafter, hpending, kept, hkept, hkeptLength]
    by_cases hroom : s.count < maxPending
    · rw [if_pos hroom] at hafter ⊢
      refine ⟨?_, ?_, hfg', ?_⟩
      · dsimp only
        rw [hafter, h.count, List.length_append, List.length_singleton]
      · have hslots := h.slots.concat (m := m)
        rw [← h.count, ← hafter] at hslots
        exact hslots
      · simpa only [Stage, hplace, kept] using hstage'
    · rw [if_neg hroom] at hafter ⊢
      refine ⟨?_, ?_, hfg', ?_⟩
      · dsimp only
        rw [hafter, h.count]
      · have hslots := h.slots
        rw [← hafter] at hslots
        exact hslots
      · simpa only [Stage, hplace, kept] using hstage'

/-- **…and otherwise the queue is left alone.** -/
theorem Inv.reaps_of_ne (h : Inv s) (hplace : s.place ≠ .running) (pid : Pid) (normal : Bool) :
    Inv (reaps s pid normal) := by
  have hfg : s.table.fgRunning = false := by rw [h.flag]; exact decide_eq_false hplace
  have hafter := pending_reapFinished s.table pid normal
  have hqueue : ∀ m : Text, queue s m = s := fun m =>
    if_neg fun hroom => Bool.false_ne_true (hfg.symm.trans hroom.1)
  have hsame : (s.table.reapFinished pid normal).pending = s.table.pending := by
    rw [hafter]
    rcases s.table.exitMessage pid normal with _ | m
    · rfl
    · exact if_neg fun hroom => Bool.false_ne_true (hfg.symm.trans hroom.1)
  have hreaps : reaps s pid normal = { s with table := s.table.reapFinished pid normal } := by
    rw [reaps]
    rcases s.table.exitMessage pid normal with _ | m
    · simp [hfg]
    · simp [hfg, hqueue]
  rw [hreaps]
  exact h.congr hsame JobTable.fgRunning_reapFinished

/-- **The shell's own steps** write the slots in order. -/
theorem Inv.main (h : Inv s) : Inv (main s) := by
  have ⟨hcount, hslots, hflag, hstage⟩ := h
  rw [Queue.main]
  simp only [Stage] at hstage
  split at hstage <;> rename_i hplace <;> simp only [hplace] at hflag ⊢
  · obtain ⟨hpending, hwritten⟩ := hstage
    exact ⟨hcount, hslots, rfl, hpending, hwritten⟩
  · exact ⟨hcount, hslots, hflag, hstage⟩
  · -- `.take`: the slots stay as they are, and the count goes to the local `n`
    obtain ⟨hpending, hwritten⟩ := hstage
    rw [hpending] at hcount hslots
    exact ⟨rfl, by simp [Slots], hflag, rfl, hcount, hslots, hwritten⟩
  · obtain ⟨hpending, hn, hkept, hwritten⟩ := hstage
    exact ⟨hcount, hslots, hflag, hpending, hn, hkept, hwritten⟩
  · rename_i n i
    obtain ⟨hpending, hn, hkept, hwritten⟩ := hstage
    split
    · rename_i hi
      have hget : (kept s)[i]? = some (kept s)[i] := List.getElem?_eq_getElem (hn ▸ hi)
      refine ⟨hcount, hslots, hflag, hpending, hn, hkept, ?_⟩
      dsimp only
      rw [hwritten, hkept i _ hget, List.take_append_getElem]
      rfl
    · rename_i hi
      refine ⟨hcount, hslots, hflag, hpending, ?_⟩
      dsimp only
      rw [hwritten, List.take_of_length_le (by omega)]
      rfl
  · obtain ⟨hpending, -⟩ := hstage
    exact ⟨hcount, hslots, rfl, hpending, rfl⟩

theorem Inv.step (h : Inv s) (hstep : step s e = some s') : Inv s' := by
  cases e with
  | main =>
    cases hstep
    exact h.main
  | edits table =>
    obtain ⟨⟨hpending, hfg⟩, hstep⟩ := Option.ite_none_right_eq_some.mp hstep
    cases hstep
    exact h.congr hpending hfg
  | reaps pid normal =>
    obtain ⟨-, hstep⟩ := Option.ite_none_left_eq_some.mp hstep
    cases hstep
    by_cases hplace : s.place = .running
    · exact h.reaps_running hplace pid normal
    · exact h.reaps_of_ne hplace pid normal

/-- **After each flush the lines written are those that got a slot**, and the queue is empty. -/
theorem written_eq (h : run step initial es = some s) (hidle : s.place = .idle) :
    s.written = s.met.take maxPending ∧ s.count = 0 := by
  have hinv : Inv s := invariant' (fun _ _ _ h hstep => h.step hstep) inv_initial h
  have hstage := hinv.stage
  simp only [Stage, hidle] at hstage
  refine ⟨hstage.2, ?_⟩
  rw [hinv.count, hstage.1]
  rfl

/-- **A flush writes one line for each background process that has terminated while `fg_running` was
set**, in order, and leaves the queue empty, exactly if there are at most 64 of them. -/
theorem flushed_iff (h : run step initial es = some s) (hidle : s.place = .idle) :
    (s.written = s.met ∧ s.count = 0) ↔ s.met.length ≤ 64 := by
  obtain ⟨hwritten, hcount⟩ := written_eq h hidle
  rw [hwritten, and_iff_left hcount]
  constructor
  · intro hall
    rw [← hall, List.length_take]
    exact Nat.min_le_left maxPending s.met.length
  · exact List.take_of_length_le

/-- `n` times `a &`. -/
def manyJobs (n : ℕ) (h : n ≤ maxjobs) : JobTable where
  jobs := (List.range n).map fun i =>
    ⟨i + 1, i + 2, [⟨i + 2, ['a']⟩], ['a'], .running, true, true, Nat.le_of_ble_eq_true rfl⟩
  nextJob := n + 1
  fgRunning := false
  pending := []
  out := []
  room := by rwa [List.length_map, List.length_range]
  numbered j hj := by
    obtain ⟨i, hi, rfl⟩ := List.mem_map.mp hj
    exact Nat.succ_lt_succ (List.mem_range.mp hi)

/-- All of them end while a foreground job runs. -/
def manyEnds (n : ℕ) (h : n ≤ maxjobs) : List Event :=
  [.edits (manyJobs n h), .main] ++ (List.range n).map (fun i => .reaps (i + 2) true) ++
    List.replicate (min n maxPending + 5) .main

/-- Two. -/
theorem flushed_iff_two :
    ∃ s, run step initial (manyEnds 2 (by decide)) = some s ∧ s.place = .idle ∧
      s.met = [JobTable.exitLine ['a'] 2 true, JobTable.exitLine ['a'] 3 true] ∧
      s.written = s.met ∧ s.count = 0 := by
  obtain ⟨s, hs, hidle, hmet⟩ : ∃ s ∈ run step initial (manyEnds 2 (by decide)),
      s.place = .idle ∧
        s.met = [JobTable.exitLine ['a'] 2 true, JobTable.exitLine ['a'] 3 true] := by
    decide +kernel
  refine ⟨s, hs, hidle, hmet, (flushed_iff hs hidle).mpr ?_⟩
  rw [hmet]
  decide

/-- **Sixty-five**: the last message is dropped. -/
theorem not_flushed :
    ∃ s, run step initial (manyEnds 65 (by decide)) = some s ∧ s.place = .idle ∧
      s.met.length = 65 ∧ s.written.length = 64 ∧ s.written ≠ s.met := by
  decide +kernel

end MiniProject.Shell.Queue
