import MiniProject.Machinery.FirstSeen
import MiniProject.Shell.Snoop

/-!
# Shell/Syscalls — the table of `snoop` after its loop

A tracee stops at the entry and at the exit of each system call, and wherever a signal is delivered
to it.  The loop tells the first two apart by their parity, keeps the number it saw at the entry,
and looks the row up at the exit.  So after the loop the rows are the first 512 different numbers,
in the order in which they were first completed, and each counts its completed calls
(`table_watch`); signals may fall anywhere and are passed on at once.
-/

namespace MiniProject.Shell.Snoop

/-! ## The stops of a tracee -/

/-- A stop as the tracee means it; at a stop for a signal `orig_rax` is whatever it is. -/
inductive Seen
  | entry (num : ℤ)
  | exit (num : ℤ)
  | signal (sig : ℕ) (origRax : ℤ) (plain : sig ≠ syscallStop)
  deriving DecidableEq

/-- …and as `waitpid` and `PTRACE_GETREGS` tell it. -/
def Seen.stop : Seen → Stop
  | .entry num | .exit num => ⟨syscallStop, num⟩
  | .signal sig origRax _ => ⟨sig, origRax⟩

/-- The signal to be passed on. -/
def Seen.sig : Seen → ℕ
  | .entry _ | .exit _ => 0
  | .signal sig _ _ => sig

/-- Entries and exits alternate, signals between them as they like; `inside` a call at first or
not. -/
def Alternates : Bool → List Seen → Prop
  | _, [] => True
  | inside, .signal .. :: seen => Alternates inside seen
  | false, .entry _ :: seen => Alternates true seen
  | true, .exit _ :: seen => Alternates false seen
  | true, .entry _ :: _ | false, .exit _ :: _ => False

/-- The numbers of the calls that are completed, in the order of their exits; `pending` is the call
the tracee is in at first. -/
def completed : Option ℤ → List Seen → List ℤ
  | _, [] => []
  | pending, .signal .. :: seen => completed pending seen
  | _, .entry num :: seen => completed (some num) seen
  | pending, .exit _ :: seen => pending.toList ++ completed none seen

/-- The loop over the stops, each with the time it is seen at, until the tracee has ended: the tally
after it, and the signals that were passed to `PTRACE_SYSCALL`. -/
def Tally.watch (t : Tally) : List (ℤ × Stop) → Tally × List ℕ
  | [] => ({ t with sigToForward := 0 }, [t.sigToForward])
  | (now, stop) :: stops =>
    let (t', sigs) := (t.note now stop).watch stops
    (t', t.sigToForward :: sigs)

/-! ## The table -/

/-- The rows are the first 512 different numbers of `ns`, in this order, with their counts. -/
structure Tabled (ns : List ℤ) (t : Tally) : Prop where
  nums : t.stats.map Stat.num = ns.eraseDups.take 512
  order : t.order = t.stats.length
  row : ∀ i (r : Stat), t.stats[i]? = some r → r.count = ns.count r.num ∧ r.firstSeen = i

section Complete

variable {t : Tally} {ns : List ℤ} {dt : ℤ} {r : Stat}

theorem Tabled.initial : Tabled [] .initial := ⟨rfl, rfl, nofun⟩

theorem Tabled.nodup (h : Tabled ns t) : (t.stats.map Stat.num).Nodup := by
  rw [h.nums]
  exact (nodup_eraseDups ns).sublist (List.take_sublist _ _)

theorem complete_of_row (dt : ℤ) {i : ℕ}
    (hfind : (t.stats.findIdx? fun r => r.num = t.currentNum) = some i) :
    (t.complete dt).stats = t.stats.modify i (Stat.bump dt) ∧ (t.complete dt).order = t.order := by
  rw [Tally.complete]
  split <;> rename_i hfind' <;> rw [hfind] at hfind' <;> cases hfind'
  exact ⟨rfl, rfl⟩

theorem complete_of_room (dt : ℤ)
    (hfind : (t.stats.findIdx? fun r => r.num = t.currentNum) = none)
    (hroom : t.stats.length < 512) :
    (t.complete dt).stats = t.stats ++ [Stat.bump dt ⟨t.currentNum, 0, 0, t.order⟩] ∧
      (t.complete dt).order = t.order + 1 := by
  rw [Tally.complete]
  split
  · rename_i hfind'
    rw [hfind] at hfind'
    cases hfind'
  · rw [dif_pos hroom]
    exact ⟨rfl, rfl⟩

theorem complete_of_full (dt : ℤ)
    (hfind : (t.stats.findIdx? fun r => r.num = t.currentNum) = none)
    (hfull : ¬ t.stats.length < 512) :
    (t.complete dt).stats = t.stats ∧ (t.complete dt).order = t.order := by
  rw [Tally.complete]
  split
  · rename_i hfind'
    rw [hfind] at hfind'
    cases hfind'
  · rw [dif_neg hfull]
    exact ⟨rfl, rfl⟩

/-- A row of another number counts no more than before. -/
theorem count_concat_of_ne {num : ℤ} (h : r.num ≠ num) :
    (ns ++ [num]).count r.num = ns.count r.num := by
  rw [List.count_append, List.count_singleton, beq_false_of_ne h.symm]
  rfl

theorem count_concat_self (num : ℤ) : (ns ++ [num]).count num = ns.count num + 1 := by
  rw [List.count_append, List.count_singleton_self]

/-- **A number that has a row**: this row counts one more. -/
theorem Tabled.complete_of_row (h : Tabled ns t) {i : ℕ}
    (hfind : (t.stats.findIdx? fun r => r.num = t.currentNum) = some i) :
    Tabled (ns ++ [t.currentNum]) (t.complete dt) := by
  obtain ⟨hstats, horder⟩ := Snoop.complete_of_row dt hfind
  obtain ⟨hi, hnum, -⟩ := List.findIdx?_eq_some_iff_getElem.mp hfind
  have hcur : t.stats[i].num = t.currentNum := of_decide_eq_true hnum
  have hmem : t.currentNum ∈ ns := by
    have htake : t.stats[i].num ∈ ns.eraseDups.take 512 :=
      h.nums ▸ List.mem_map_of_mem (List.getElem_mem hi)
    exact List.mem_eraseDups.mp (List.mem_of_mem_take (hcur ▸ htake))
  refine ⟨?_, ?_, fun k r hk => ?_⟩
  · rw [hstats, eraseDups_concat_of_mem hmem, ← h.nums]
    refine List.ext_getElem (by simp) fun k hk hk' => ?_
    rw [List.getElem_map, List.getElem_map, List.getElem_modify]
    split <;> rfl
  · rw [hstats, horder, List.length_modify]
    exact h.order
  · rw [hstats, List.getElem?_modify] at hk
    obtain ⟨r', hr', rfl⟩ := Option.map_eq_some_iff.mp hk
    obtain ⟨hcount, hfirst⟩ := h.row k r' hr'
    by_cases hik : i = k
    · subst hik
      obtain rfl : t.stats[i] = r' := Option.some.inj ((List.getElem?_eq_getElem hi).symm.trans hr')
      rw [if_pos rfl, Stat.bump, hcur]
      refine ⟨?_, hfirst⟩
      rw [count_concat_self, ← hcur, hcount]
    · rw [if_neg hik]
      refine ⟨?_, hfirst⟩
      have hne : r'.num ≠ t.currentNum := by
        intro heq
        obtain ⟨hk', rfl⟩ := List.getElem?_eq_some_iff.mp hr'
        have hilen : i < (t.stats.map Stat.num).length := by simpa using hi
        have hklen : k < (t.stats.map Stat.num).length := by simpa using hk'
        have hmap : (t.stats.map Stat.num)[i] = (t.stats.map Stat.num)[k] := by
          rw [List.getElem_map, List.getElem_map, hcur, heq]
        exact hik (h.nodup.getElem_inj_iff.mp hmap)
      exact hcount.trans (count_concat_of_ne hne).symm

/-- **A number that has none**, in a table with room: the new row is the last. -/
theorem Tabled.complete_of_room (h : Tabled ns t)
    (hfind : (t.stats.findIdx? fun r => r.num = t.currentNum) = none)
    (hroom : t.stats.length < 512) : Tabled (ns ++ [t.currentNum]) (t.complete dt) := by
  obtain ⟨hstats, horder⟩ := Snoop.complete_of_room dt hfind hroom
  have hother : ∀ r ∈ t.stats, r.num ≠ t.currentNum := by
    simpa using List.findIdx?_eq_none_iff.mp hfind
  have hlen := congrArg List.length h.nums
  rw [List.length_map, List.length_take] at hlen
  have hall : ns.eraseDups.take 512 = ns.eraseDups := List.take_of_length_le (by omega)
  have hnew : t.currentNum ∉ ns := by
    intro hmem
    rw [← List.mem_eraseDups, ← hall, ← h.nums] at hmem
    obtain ⟨r, hr, hnum⟩ := List.mem_map.mp hmem
    exact hother r hr hnum
  refine ⟨?_, ?_, fun k r hk => ?_⟩
  · rw [hstats, List.map_append, h.nums, hall, eraseDups_concat_of_notMem hnew,
      List.take_of_length_le (by rw [List.length_append, List.length_singleton]; omega)]
    rfl
  · rw [hstats, horder, h.order, List.length_append, List.length_singleton]
  · rw [hstats, List.getElem?_append] at hk
    split at hk
    · obtain ⟨hcount, hfirst⟩ := h.row k r hk
      exact ⟨hcount.trans (count_concat_of_ne (hother r (List.mem_of_getElem? hk))).symm, hfirst⟩
    · obtain ⟨hk', rfl⟩ := List.getElem?_eq_some_iff.mp hk
      rw [List.length_singleton] at hk'
      have hnone : ns.count t.currentNum = 0 := List.count_eq_zero.mpr hnew
      rw [List.getElem_singleton, Stat.bump, count_concat_self, hnone, h.order]
      exact ⟨rfl, by dsimp only; omega⟩

/-- **…and in a full table**, where it gets none. -/
theorem Tabled.complete_of_full (h : Tabled ns t)
    (hfind : (t.stats.findIdx? fun r => r.num = t.currentNum) = none)
    (hfull : ¬ t.stats.length < 512) : Tabled (ns ++ [t.currentNum]) (t.complete dt) := by
  obtain ⟨hstats, horder⟩ := Snoop.complete_of_full dt hfind hfull
  have hother : ∀ r ∈ t.stats, r.num ≠ t.currentNum := by
    simpa using List.findIdx?_eq_none_iff.mp hfind
  have hlen := congrArg List.length h.nums
  rw [List.length_map, List.length_take] at hlen
  refine ⟨?_, ?_, fun k r hk => ?_⟩
  · rw [hstats, take_eraseDups_concat (by omega)]
    exact h.nums
  · rw [hstats, horder]
    exact h.order
  · rw [hstats] at hk
    obtain ⟨hcount, hfirst⟩ := h.row k r hk
    exact ⟨hcount.trans (count_concat_of_ne (hother r (List.mem_of_getElem? hk))).symm, hfirst⟩

/-- **The table keeps up with a completed call.** -/
theorem Tabled.complete (h : Tabled ns t) (dt : ℤ) :
    Tabled (ns ++ [t.currentNum]) (t.complete dt) := by
  rcases hfind : t.stats.findIdx? fun r => r.num = t.currentNum with _ | i
  · by_cases hroom : t.stats.length < 512
    · exact h.complete_of_room hfind hroom
    · exact h.complete_of_full hfind hroom
  · exact h.complete_of_row hfind

@[simp] theorem sigToForward_complete (t : Tally) (dt : ℤ) :
    (t.complete dt).sigToForward = t.sigToForward := by
  rw [Tally.complete]
  split
  · rfl
  · split <;> rfl

@[simp] theorem inSyscall_complete (t : Tally) (dt : ℤ) : (t.complete dt).inSyscall = false := by
  rw [Tally.complete]
  split
  · rfl
  · split <;> rfl

end Complete

/-! ## The loop -/

/-- The tally between two stops: the calls `ns` are completed, and the tracee is in `pending`. -/
structure Kept (ns : List ℤ) (pending : Option ℤ) (t : Tally) : Prop where
  table : Tabled ns t
  inside : t.inSyscall = pending.isSome
  current : ∀ num ∈ pending, t.currentNum = num

section Watch

variable {t : Tally} {ns : List ℤ} {num : ℤ} {pending : Option ℤ} {now : ℤ}

theorem Kept.initial : Kept [] none .initial := ⟨.initial, rfl, nofun⟩

theorem Kept.entry (h : Kept ns none t) (num now : ℤ) :
    Kept ns (some num) (t.note now (Seen.entry num).stop) := by
  have hout : t.inSyscall = false := h.inside
  simp only [Tally.note, Seen.stop, if_true, hout, Bool.false_eq_true, if_false]
  exact ⟨⟨h.table.nums, h.table.order, h.table.row⟩, rfl, by rintro _ ⟨⟩; rfl⟩

theorem Kept.exit (h : Kept ns (some num) t) (num' now : ℤ) :
    Kept (ns ++ [num]) none (t.note now (Seen.exit num').stop) := by
  have hin : t.inSyscall = true := h.inside
  simp only [Tally.note, Seen.stop, if_true, hin]
  have htable : Tabled ns { t with sigToForward := 0 } :=
    ⟨h.table.nums, h.table.order, h.table.row⟩
  rw [← h.current num rfl]
  exact ⟨htable.complete _, inSyscall_complete _ _, nofun⟩

/-- **A signal changes nothing but what is passed on.** -/
theorem Kept.signal (h : Kept ns pending t) (now : ℤ) {sig : ℕ} (origRax : ℤ)
    (plain : sig ≠ syscallStop) :
    Kept ns pending (t.note now (Seen.signal sig origRax plain).stop) := by
  rw [Tally.note, Seen.stop, if_neg plain]
  exact ⟨⟨h.table.nums, h.table.order, h.table.row⟩, h.inside, h.current⟩

theorem sigToForward_note (t : Tally) (now : ℤ) (seen : Seen) :
    (t.note now seen.stop).sigToForward = seen.sig := by
  cases seen with
  | signal sig origRax plain => rw [Tally.note, Seen.stop, if_neg plain, Seen.sig]
  | _ =>
    simp only [Tally.note, Seen.stop, if_true, Seen.sig]
    split
    · exact sigToForward_complete _ _
    · rfl

/-- **After the loop the table has every completed call.** -/
theorem Kept.watch {stops : List (ℤ × Seen)} (h : Kept ns pending t)
    (halt : Alternates pending.isSome (stops.map Prod.snd)) :
    Tabled (ns ++ completed pending (stops.map Prod.snd))
      (t.watch (stops.map fun p => (p.1, p.2.stop))).1 := by
  induction stops generalizing t ns pending with
  | nil =>
    rw [List.map_nil, completed, List.append_nil]
    exact ⟨h.table.nums, h.table.order, h.table.row⟩
  | cons p stops ih =>
    obtain ⟨now, seen⟩ := p
    cases seen with
    | signal sig origRax plain => exact ih (h.signal now origRax plain) halt
    | entry num =>
      cases pending with
      | none => exact ih (h.entry num now) halt
      | some => exact halt.elim
    | exit num' =>
      cases pending with
      | none => exact halt.elim
      | some num =>
        have key := ih (h.exit num' now) halt
        rwa [List.append_assoc] at key

/-- **Every signal is passed on once**, with the next `PTRACE_SYSCALL`. -/
theorem signals_watch (t : Tally) (stops : List (ℤ × Seen)) :
    (t.watch (stops.map fun p => (p.1, p.2.stop))).2 =
      t.sigToForward :: stops.map fun p => p.2.sig := by
  induction stops generalizing t with
  | nil => rfl
  | cons p stops ih =>
    rw [List.map_cons, Tally.watch, List.map_cons]
    dsimp only
    rw [ih, sigToForward_note]

end Watch

/-- **The rows are the first 512 different numbers in the order of their first completion**, each
once, with its completed calls and its rank; and the signal of each stop is passed to the next
`PTRACE_SYSCALL`, and to no other. -/
theorem table_watch {stops : List (ℤ × Seen)} (h : Alternates false (stops.map Prod.snd)) :
    let (t, signals) := Tally.initial.watch (stops.map fun p => (p.1, p.2.stop))
    let ns := completed none (stops.map Prod.snd)
    t.stats.map Stat.num = ns.eraseDups.take 512 ∧ (t.stats.map Stat.num).Nodup ∧
      (∀ i (r : Stat), t.stats[i]? = some r → r.count = ns.count r.num ∧ r.firstSeen = i) ∧
      signals = 0 :: stops.map fun p => p.2.sig := by
  have htable := Kept.initial.watch h
  rw [List.nil_append] at htable
  exact ⟨htable.nums, htable.nodup, htable.row, signals_watch _ _⟩

/-- Two calls of `read`, a signal in the second, and an `exit_group` that never returns. -/
theorem table_watch_reads :
    let stops : List (ℤ × Seen) :=
      [(1, .entry 0), (2, .exit 0), (3, .entry 0), (4, .signal 10 0 (by decide)), (5, .exit 0),
        (6, .entry 231)]
    Alternates false (stops.map Prod.snd) ∧ completed none (stops.map Prod.snd) = [0, 0] ∧
      (Tally.initial.watch (stops.map fun p => (p.1, p.2.stop))).1.stats = [⟨0, 2, 3, 0⟩] ∧
      (Tally.initial.watch (stops.map fun p => (p.1, p.2.stop))).2 = [0, 0, 0, 0, 10, 0, 0] := by
  intro stops
  exact ⟨trivial, rfl, by decide, (@table_watch stops trivial).2.2.2⟩

end MiniProject.Shell.Snoop
