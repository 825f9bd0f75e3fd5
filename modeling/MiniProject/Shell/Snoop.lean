import Mathlib.Algebra.Order.Ring.Int
import Mathlib.Data.Int.Notation
import Mathlib.Data.List.Basic
import MiniProject.Machinery.Runs

/-!
# Shell/Snoop — two waits for one tracee

`snoop` waits for its tracee with `waitpid(pid)`, and the `SIGCHLD` handler waits for any child with
`waitpid(-1, WNOHANG)`; a stop or an exit is reported once, to whoever asks first.  So every report
reaches the loop of `snoop`, and once, exactly as long as the handler never asks while one is due
(`attended_iff`).  A stop that the handler gets leaves the loop waiting until the tracee is killed
(`stranded`).
-/

namespace MiniProject.Shell.Snoop

/-! ## The table of system calls -/

/-- `WSTOPSIG` of a stop, and `orig_rax` in it. -/
structure Stop where
  sig : ℕ
  origRax : ℤ
  deriving DecidableEq, Repr

/-- `SIGTRAP | 0x80`. -/
def syscallStop : ℕ := 5 ||| 0x80

/-- `snoop_stat`; the times are in nanoseconds. -/
structure Stat where
  num : ℤ
  count : ℕ
  totalTime : ℤ
  firstSeen : ℕ
  deriving DecidableEq, Repr

/-- One more call, of `dt`. -/
def Stat.bump (dt : ℤ) (r : Stat) : Stat :=
  { r with count := r.count + 1, totalTime := r.totalTime + dt }

/-- The locals of the loop; `stats` up to `stat_count`. -/
structure Tally where
  stats : List Stat
  order : ℕ
  inSyscall : Bool
  currentNum : ℤ
  entryTime : ℤ
  sigToForward : ℕ
  room : stats.length ≤ 512

namespace Tally

/-- Before the loop. -/
def initial : Tally := ⟨[], 0, false, -1, 0, 0, Nat.zero_le _⟩

variable (t : Tally)

/-- A call that took `dt` is over: its row counts it, a new one if there is room. -/
def complete (dt : ℤ) : Tally :=
  match t.stats.findIdx? fun r => r.num = t.currentNum with
  | some i => { t with
      stats := t.stats.modify i (Stat.bump dt)
      inSyscall := false
      room := by
        rw [List.length_modify]
        exact t.room }
  | none =>
    if h : t.stats.length < 512 then { t with
      stats := t.stats ++ [Stat.bump dt ⟨t.currentNum, 0, 0, t.order⟩]
      order := t.order + 1
      inSyscall := false
      room := by
        rw [List.length_append, List.length_singleton]
        exact h }
    else { t with inSyscall := false }

/-- The body of the loop behind `waitpid`, for a stop seen at time `now`. -/
def note (now : ℤ) (stop : Stop) : Tally :=
  if stop.sig = syscallStop then
    if t.inSyscall then { t with sigToForward := 0 }.complete (now - t.entryTime)
    else { t with
      sigToForward := 0, currentNum := stop.origRax, entryTime := now, inSyscall := true }
  else { t with sigToForward := stop.sig }

end Tally

/-! ## The machine -/

/-- What a wait returns: a stop, or that the tracee has exited or was killed. -/
inductive Report
  | stop (stop : Stop)
  | ended
  deriving DecidableEq, Repr

/-- The tracee; its last report is `due` until it has been waited for. -/
inductive Tracee
  | running
  | stopped (stop : Stop) (due : Bool)
  | ended (due : Bool)
  deriving DecidableEq, Repr

/-- The report that the next wait gets. -/
def Tracee.due : Tracee → Option Report
  | .stopped stop true => some (.stop stop)
  | .ended true => some .ended
  | _ => none

/-- The tracee has been waited for. -/
def Tracee.reported : Tracee → Tracee
  | .stopped stop _ => .stopped stop false
  | .ended _ => .ended false
  | .running => .running

/-- `PTRACE_SYSCALL`; it fails if the tracee is not stopped. -/
def Tracee.resume : Tracee → Tracee
  | .stopped _ _ => .running
  | tracee => tracee

/-- Where `snoop` stands: before the step it is named after.  It is `adrift` once a `waitpid` of the
loop has failed, as `status` is not set then. -/
inductive Place
  | first | options | resume | wait
  | process (r : Report)
  | over | adrift
  deriving DecidableEq, Repr

/-- The tracee, `snoop` and the handler; `happened` are the reports there have been, `processed`
those `snoop` is through with. -/
structure Session where
  tracee : Tracee
  place : Place
  pending : Bool
  handling : Bool
  tally : Tally
  happened : List Report
  processed : List Report

namespace Session

/-- One step of the tracee, of `snoop` or of the handler. -/
inductive Event
  | stops (stop : Stop)
  | ends
  | bystander
  | main (now : ℤ)
  | collect
  | noChild
  | signal
  | scan
  deriving DecidableEq, Repr

/-- After the `fork` or the attach. -/
def initial : Session where
  tracee := .running
  place := .first
  pending := false
  handling := false
  tally := .initial
  happened := []
  processed := []

variable (s : Session)

/-- The report `snoop` is dealing with. -/
def inHand : Option Report :=
  match s.place with
  | .process r => some r
  | _ => none

/-- The steps of `snoop` between the waits. -/
def main (now : ℤ) : Option Session :=
  match s.place with
  | .options => some { s with place := .resume }
  | .resume => some { s with tracee := s.tracee.resume, place := .wait }
  | .process (.stop stop) =>
    some { s with
      tally := s.tally.note now stop
      processed := s.processed ++ [.stop stop]
      place := .resume }
  | .process .ended => some { s with processed := s.processed ++ [.ended], place := .over }
  | _ => none

/-- `waitpid(pid, &status, 0)` returns a report; nothing is done with the first one. -/
def collect : Option Session :=
  match s.tracee.due, s.place with
  | some r, .first =>
    some { s with
      tracee := s.tracee.reported, place := .options, processed := s.processed ++ [r] }
  | some r, .wait => some { s with tracee := s.tracee.reported, place := .process r }
  | _, _ => none

/-- …fails with `ECHILD`. -/
def noChild : Option Session :=
  match s.tracee, s.place with
  | .ended false, .first => some { s with place := .options }
  | .ended false, .wait => some { s with place := .adrift }
  | _, _ => none

/-- One `waitpid(-1, &status, WNOHANG)` of `reap_finished`, as far as the tracee goes. -/
def scan : Session :=
  match s.tracee.due with
  | some _ => { s with tracee := s.tracee.reported }
  | none => { s with handling := false }

/-- One step; every report raises `SIGCHLD`, as another child's does, and `snoop` stands still while
the handler runs. -/
def step (s : Session) : Event → Option Session
  | .stops stop =>
    if s.tracee = .running then
      some { s with
        tracee := .stopped stop true, pending := true, happened := s.happened ++ [.stop stop] }
    else none
  | .ends =>
    match s.tracee with
    | .ended _ => none
    | _ =>
      some { s with tracee := .ended true, pending := true, happened := s.happened ++ [.ended] }
  | .bystander => some { s with pending := true }
  | .main now => if s.handling then none else s.main now
  | .collect => if s.handling then none else s.collect
  | .noChild => if s.handling then none else s.noChild
  | .signal =>
    if s.pending ∧ ¬ s.handling then some { s with pending := false, handling := true } else none
  | .scan => if s.handling then some s.scan else none

/-! ## Every report reaches the loop -/

/-- **Every report, in order, is one that `snoop` is through with**, has in hand, or is yet to
get. -/
def Attended (s : Session) : Prop :=
  s.happened = s.processed ++ s.inHand.toList ++ s.tracee.due.toList

/-- The handler does not ask while a report is due, and no kill overtakes one. -/
def Clear (s : Session) : Event → Prop
  | .scan | .ends => s.tracee.due = none
  | _ => True

/-- Between a report and the next `PTRACE_SYSCALL` the tracee has stopped for good, or ended. -/
def Held (s : Session) : Prop :=
  match s.place with
  | .options | .resume | .process _ =>
    (∃ stop, s.tracee = .stopped stop false) ∨ ∃ due, s.tracee = .ended due
  | _ => True

instance (s : Session) : Decidable s.Attended := inferInstanceAs (Decidable (_ = _))

instance (s : Session) (e : Event) : Decidable (s.Clear e) :=
  match e with
  | .scan | .ends => inferInstanceAs (Decidable (s.tracee.due = none))
  | .stops _ | .bystander | .main _ | .collect | .noChild | .signal => isTrue trivial

variable {s s' : Session} {e : Event} {ls : List Event}

@[simp] theorem due_reported (tracee : Tracee) : tracee.reported.due = none := by
  cases tracee <;> rfl

/-- A tracee that is held has nothing due when it goes on. -/
theorem due_resume (h : (∃ stop, s.tracee = .stopped stop false) ∨ ∃ due, s.tracee = .ended due) :
    s.tracee.resume.due = s.tracee.due := by
  rcases h with ⟨stop, h⟩ | ⟨due, h⟩ <;> rw [h] <;> rfl

/-- A report taken leaves the tracee held. -/
theorem held_reported {tracee : Tracee} {r : Report} (h : tracee.due = some r) :
    (∃ stop, tracee.reported = .stopped stop false) ∨ ∃ due, tracee.reported = .ended due := by
  cases tracee with
  | running => cases h
  | stopped stop => exact .inl ⟨stop, rfl⟩
  | ended => exact .inr ⟨false, rfl⟩

/-- **What `snoop` has got it does not lose**: its own steps keep every report attended. -/
theorem attended_main {now : ℤ} (hA : s.Attended) (hH : s.Held) (h : s.main now = some s') :
    s'.Attended ∧ s'.Held := by
  rw [Attended, inHand] at hA
  rw [Held] at hH
  rw [main] at h
  split at h
  case h_5 => cases h
  all_goals
    rename_i hplace
    simp only [hplace] at hA hH
    cases h
  · exact ⟨hA, hH⟩
  · refine ⟨?_, trivial⟩
    rw [Attended]
    dsimp only [inHand]
    rw [due_resume hH]
    exact hA
  · refine ⟨?_, hH⟩
    rw [Attended]
    dsimp only [inHand]
    rw [hA, Option.toList_none, List.append_nil]
    rfl
  · refine ⟨?_, trivial⟩
    rw [Attended]
    dsimp only [inHand]
    rw [hA, Option.toList_none, List.append_nil]
    rfl

theorem attended_collect (hA : s.Attended) (h : s.collect = some s') : s'.Attended ∧ s'.Held := by
  rw [Attended, inHand] at hA
  rw [collect] at h
  split at h
  · rename_i r hdue hplace
    simp only [hplace, hdue] at hA
    cases h
    refine ⟨?_, held_reported hdue⟩
    rw [Attended]
    dsimp only [inHand]
    rw [hA, due_reported]
    simp
  · rename_i r hdue hplace
    simp only [hplace, hdue] at hA
    cases h
    refine ⟨?_, held_reported hdue⟩
    rw [Attended]
    dsimp only [inHand]
    rw [hA, due_reported]
    simp
  · cases h

theorem attended_noChild (hA : s.Attended) (h : s.noChild = some s') : s'.Attended ∧ s'.Held := by
  rw [Attended, inHand] at hA
  rw [noChild] at h
  split at h
  · rename_i htracee hplace
    simp only [hplace] at hA
    cases h
    exact ⟨hA, .inr ⟨false, htracee⟩⟩
  · rename_i htracee hplace
    simp only [hplace] at hA
    cases h
    exact ⟨hA, trivial⟩
  · cases h

/-- A report of the tracee is due until somebody asks. -/
theorem attended_due {tracee : Tracee} {r : Report} (hA : s.Attended) (hnone : s.tracee.due = none)
    (hdue : tracee.due = some r) :
    Attended { s with tracee, pending := true, happened := s.happened ++ [r] } := by
  rw [Attended, hnone] at hA
  rw [Attended]
  dsimp only
  rw [hdue, hA, Option.toList_none, List.append_nil]
  rfl

/-- A tracee that runs is not held. -/
theorem held_of_running (hH : s.Held) (hrun : s.tracee = .running) {tracee : Tracee}
    {happened : List Report} : Held { s with tracee, pending := true, happened } := by
  rw [Held] at hH ⊢
  dsimp only
  split at hH
  · rcases hH with ⟨_, h⟩ | ⟨_, h⟩ <;> rw [hrun] at h <;> cases h
  · rcases hH with ⟨_, h⟩ | ⟨_, h⟩ <;> rw [hrun] at h <;> cases h
  · rcases hH with ⟨_, h⟩ | ⟨_, h⟩ <;> rw [hrun] at h <;> cases h
  · trivial

theorem held_of_ended {due : Bool} {happened : List Report} :
    Held { s with tracee := .ended due, pending := true, happened } := by
  rw [Held]
  dsimp only
  split
  · exact .inr ⟨due, rfl⟩
  · exact .inr ⟨due, rfl⟩
  · exact .inr ⟨due, rfl⟩
  · trivial

/-- **A step that is clear keeps every report attended.** -/
theorem attended_step (hA : s.Attended) (hH : s.Held) (hclear : s.Clear e)
    (h : s.step e = some s') : s'.Attended ∧ s'.Held := by
  cases e with
  | stops stop =>
    obtain ⟨hrun, h⟩ := Option.ite_none_right_eq_some.mp h
    cases h
    exact ⟨attended_due hA (by rw [hrun]; rfl) rfl, held_of_running hH hrun⟩
  | ends =>
    rw [step] at h
    split at h
    · cases h
    · cases h
      exact ⟨attended_due hA hclear rfl, held_of_ended⟩
  | bystander =>
    cases h
    exact ⟨hA, hH⟩
  | main now => exact attended_main hA hH (Option.ite_none_left_eq_some.mp h).2
  | collect => exact attended_collect hA (Option.ite_none_left_eq_some.mp h).2
  | noChild => exact attended_noChild hA (Option.ite_none_left_eq_some.mp h).2
  | signal =>
    obtain ⟨-, h⟩ := Option.ite_none_right_eq_some.mp h
    cases h
    exact ⟨hA, hH⟩
  | scan =>
    obtain ⟨-, h⟩ := Option.ite_none_right_eq_some.mp h
    cases h
    have hnone : s.tracee.due = none := hclear
    rw [scan, hnone]
    exact ⟨hA, hH⟩

/-- **…and one that is not clear does not.** -/
theorem clear_of_attended (hA : s.Attended) (h : s.step e = some s') (hA' : s'.Attended) :
    s.Clear e := by
  by_contra hclear
  cases e with
  | ends =>
    obtain ⟨r, hdue⟩ := Option.ne_none_iff_exists'.mp hclear
    rw [step] at h
    split at h <;> cases h
    rw [Attended, hdue] at hA
    rw [Attended] at hA'
    dsimp only at hA'
    rw [hA] at hA'
    have hlen := congrArg List.length hA'
    simp [inHand, Tracee.due] at hlen
  | scan =>
    obtain ⟨r, hdue⟩ := Option.ne_none_iff_exists'.mp hclear
    obtain ⟨-, h⟩ := Option.ite_none_right_eq_some.mp h
    cases h
    rw [Attended, hdue] at hA
    rw [scan, hdue, Attended] at hA'
    dsimp only at hA'
    rw [due_reported] at hA'
    have hlen := congrArg List.length (hA.symm.trans hA')
    simp [inHand] at hlen
  | _ => exact hclear trivial

/-! ## Over a whole run -/

/-- **Every report reaches the loop, in order and once**, exactly if the handler never asks while
one is due, and no kill overtakes one. -/
theorem attended_iff (h : run step initial ls = some s) :
    Always step Attended initial ls ↔ Along step Clear initial ls :=
  always_iff (J := fun s => s.Attended ∧ s.Held) (fun _ h => h.1)
    (fun _ _ _ hJ hclear h => attended_step hJ.1 hJ.2 hclear h)
    (fun _ _ _ hJ h hA => clear_of_attended hJ.1 h hA) ⟨rfl, trivial⟩ h

/-- One system call, and the end; the handler comes in when nothing is due. -/
theorem attended_iff_call :
    ∃ s, run step initial
        [.stops ⟨5, 59⟩, .collect, .signal, .scan, .main 0, .main 0, .stops ⟨133, 1⟩, .collect,
          .signal, .scan, .main 10, .main 11, .stops ⟨133, 1⟩, .collect, .main 15, .main 16, .ends,
          .collect, .main 20] = some s ∧
      s.place = .over ∧ s.tally.stats = [⟨1, 1, 5, 0⟩] ∧
      Always step Attended initial
        [.stops ⟨5, 59⟩, .collect, .signal, .scan, .main 0, .main 0, .stops ⟨133, 1⟩, .collect,
          .signal, .scan, .main 10, .main 11, .stops ⟨133, 1⟩, .collect, .main 15, .main 16, .ends,
          .collect, .main 20] := by
  obtain ⟨s, hs, hplace, hstats⟩ :
      ∃ s ∈ run step initial
          [.stops ⟨5, 59⟩, .collect, .signal, .scan, .main 0, .main 0, .stops ⟨133, 1⟩, .collect,
            .signal, .scan, .main 10, .main 11, .stops ⟨133, 1⟩, .collect, .main 15, .main 16,
            .ends, .collect, .main 20],
        s.place = .over ∧ s.tally.stats = [⟨1, 1, 5, 0⟩] := by decide
  exact ⟨s, hs, hplace, hstats, (attended_iff hs).mpr (by decide)⟩

/-- **The tracee stops between `ptrace` and `waitpid`**, and the handler gets the stop. -/
theorem not_attended :
    ∃ s, run step initial
        [.stops ⟨5, 59⟩, .collect, .main 0, .main 0, .stops ⟨133, 1⟩, .signal, .scan, .scan] =
          some s ∧
      s.place = .wait ∧ s.tracee = .stopped ⟨133, 1⟩ false ∧ ¬ s.Attended := by
  decide

/-! ## A stop that is lost -/

/-- **The loop waits for ever** for a stop that was reported to the handler, unless the tracee is
killed. -/
theorem stranded {stop : Stop} (h : run step s ls = some s') (hlive : .ends ∉ ls)
    (hplace : s.place = .wait) (htracee : s.tracee = .stopped stop false) :
    s'.place = .wait ∧ s'.tracee = .stopped stop false := by
  induction ls generalizing s with
  | nil =>
    cases h
    exact ⟨hplace, htracee⟩
  | cons e ls ih =>
    obtain ⟨t, ht, h⟩ := run_cons_eq_some.mp h
    obtain ⟨hne, hlive⟩ := List.ne_and_not_mem_of_not_mem_cons hlive
    have hstay : t.place = .wait ∧ t.tracee = .stopped stop false := by
      cases e with
      | stops => simp [step, htracee] at ht
      | ends => exact absurd rfl hne
      | bystander =>
        cases ht
        exact ⟨hplace, htracee⟩
      | main => simp [step, main, hplace] at ht
      | collect => simp [step, collect, hplace, htracee, Tracee.due] at ht
      | noChild => simp [step, noChild, hplace, htracee] at ht
      | signal =>
        obtain ⟨-, ht⟩ := Option.ite_none_right_eq_some.mp ht
        cases ht
        exact ⟨hplace, htracee⟩
      | scan =>
        obtain ⟨-, ht⟩ := Option.ite_none_right_eq_some.mp ht
        cases ht
        simp only [scan, htracee, Tracee.due]
        exact ⟨hplace, trivial⟩
    exact ih h hlive hstay.1 hstay.2

end Session

end MiniProject.Shell.Snoop
