import MiniProject.Machinery.Bytes
import MiniProject.Machinery.Mutex
import MiniProject.Machinery.Ring
import MiniProject.Machinery.Runs

/-!
# Kernel/Pipe — a pipe carries its bytes in order

Any number of processes write to a pipe and read from it.  `pipewrite` and `piperead` hold
`pi->lock` but while they sleep; one step is one turn of a loop inside, so that a process can be
killed between any two.  `sent` and `got` are what went into the pipe and came out of it so far,
which no code reads.
-/

namespace MiniProject.Kernel

/-- `PIPESIZE`. -/
def pipesize : ℕ := 512

instance : NeZero pipesize := ⟨by decide⟩

/-- `&pi->nread`, where readers sleep, and `&pi->nwrite`, where writers do. -/
inductive PipeChan
  | nread
  | nwrite
  deriving DecidableEq, Repr

/-- A call in progress: a write of `bytes` after `i` of them, or a read of `n` bytes that has `got`
some, in its first or its second loop.  A count below zero is a count of zero. -/
inductive PipeCall
  | write (bytes : List (BitVec 8)) (i : ℕ)
  | read (n : ℕ) (got : List (BitVec 8)) (copying : Bool)
  deriving DecidableEq, Repr

/-- Where a call is: about to `acquire`, inside, between `release` and `sleep`, or asleep. -/
inductive PipePlace
  | wants
  | inside
  | prepared
  | asleep
  deriving DecidableEq, Repr

/-- From `sleep_prepare` to the return of `sleep`. -/
def PipePlace.waits : PipePlace → Bool
  | .prepared | .asleep => true
  | _ => false

/-- `struct pipe`, and the processes that use it. -/
structure Pipe (P : Type) where
  data : Fin pipesize → BitVec 8
  nread : BitVec 32
  nwrite : BitVec 32
  readopen : Bool
  writeopen : Bool
  lock : Option P
  call : P → Option (PipeCall × PipePlace)
  chan : P → Option PipeChan
  killed : P → Bool
  ret : P → ℤ
  sent : List (BitVec 8)
  got : List (BitVec 8)

namespace Pipe

variable {P : Type}

/-- As `pipealloc` leaves it, on a page of whatever bytes. -/
def fresh (data : Fin pipesize → BitVec 8) : Pipe P where
  data := data
  nread := 0
  nwrite := 0
  readopen := true
  writeopen := true
  lock := none
  call _ := none
  chan _ := none
  killed _ := false
  ret _ := 0
  sent := []
  got := []

/-- What can happen next; `fault` says whether the user's memory is not there. -/
inductive Event (P : Type)
  | write (p : P) (bytes : List (BitVec 8))
  | read (p : P) (n : ℕ)
  | acquire (p : P)
  | turn (p : P) (fault : Bool)
  | sleep (p : P)
  | close (writable : Bool)
  | kill (p : P)
  deriving DecidableEq, Repr

variable (s : Pipe P)

/-- The bytes that were written and not read. -/
def queue : List (BitVec 8) := Ring.contents s.data s.nread s.nwrite

/-- `wakeup`. -/
def wakeup (c : PipeChan) : Pipe P :=
  { s with
    chan := fun p => if s.chan p = some c then none else s.chan p
    call := fun p => (s.call p).map fun x =>
      (x.1, if x.2 = .asleep ∧ s.chan p = some c then .wants else x.2) }

section Step

variable [DecidableEq P]

/-- The call of `p` gets somewhere. -/
def setCall (p : P) (call : Option (PipeCall × PipePlace)) : Pipe P :=
  { s with call := Function.update s.call p call }

/-- What a call returns whose user memory is not there for one more byte. -/
def faulted (i : ℕ) : ℤ := if i = 0 then -1 else i

/-- `release`, and the call of `p` returns. -/
def leave (p : P) (ret : ℤ) : Pipe P :=
  { s.setCall p none with lock := none, ret := Function.update s.ret p ret }

/-- `sleep_prepare` and `release`. -/
def prepare (p : P) (call : PipeCall) (c : PipeChan) : Pipe P :=
  { s.setCall p (some (call, .prepared)) with
    lock := none, chan := Function.update s.chan p (some c) }

/-- A turn of the loop of `pipewrite`, or its end. -/
def writeTurn (p : P) (fault : Bool) (bytes : List (BitVec 8)) (i : ℕ) : Pipe P :=
  match bytes[i]? with
  | none => (s.wakeup .nread).leave p i
  | some ch =>
    if s.readopen = false ∨ s.killed p then s.leave p (-1)
    else if s.nwrite = s.nread + BitVec.ofNat 32 pipesize then
      (s.wakeup .nread).prepare p (.write bytes i) .nwrite
    else if fault then (s.wakeup .nread).leave p (faulted i)
    else
      { s.setCall p (some (.write bytes (i + 1), .inside)) with
        data := Function.update s.data (Ring.idx pipesize s.nwrite) ch
        nwrite := s.nwrite + 1
        sent := s.sent ++ [ch] }

/-- A turn of one of the loops of `piperead`, or its end. -/
def readTurn (p : P) (fault : Bool) (n : ℕ) (got : List (BitVec 8)) (copying : Bool) : Pipe P :=
  if copying then
    if got.length < n ∧ s.nread ≠ s.nwrite then
      let ch := s.data (Ring.idx pipesize s.nread)
      if fault then (s.wakeup .nwrite).leave p (faulted got.length)
      else
        { s.setCall p (some (.read n (got ++ [ch]) true, .inside)) with
          nread := s.nread + 1, got := s.got ++ [ch] }
    else (s.wakeup .nwrite).leave p got.length
  else if s.nread = s.nwrite ∧ s.writeopen then
    if s.killed p then s.leave p (-1) else s.prepare p (.read n got false) .nread
  else s.setCall p (some (.read n got true, .inside))

/-- A step. -/
def step (s : Pipe P) : Event P → Option (Pipe P)
  | .write p bytes =>
    if s.call p = none then some (s.setCall p (some (.write bytes 0, .wants))) else none
  | .read p n =>
    if s.call p = none then some (s.setCall p (some (.read n [] false, .wants))) else none
  | .acquire p =>
    match s.call p with
    | some (call, .wants) =>
      if s.lock = none then some { s.setCall p (some (call, .inside)) with lock := some p }
      else none
    | _ => none
  | .turn p fault =>
    match s.call p with
    | some (.write bytes i, .inside) => some (s.writeTurn p fault bytes i)
    | some (.read n got copying, .inside) => some (s.readTurn p fault n got copying)
    | _ => none
  | .sleep p =>
    match s.call p with
    | some (call, .prepared) =>
      some (s.setCall p (some (call, if s.chan p = none then .wants else .asleep)))
    | _ => none
  | .close writable =>
    if s.lock = none then
      some (if writable then { s.wakeup .nread with writeopen := false }
        else { s.wakeup .nwrite with readopen := false })
    else none
  | .kill p =>
    some { s with
      killed := Function.update s.killed p true
      call := fun q => (s.call q).map fun x =>
        (x.1, if x.2 = .asleep ∧ q = p then .wants else x.2) }

end Step

/-! ## The buffer -/

variable {s} {s' : Pipe P} {p : P} {c : PipeChan}

theorem pipesize_dvd : pipesize ∣ 2 ^ 32 := by decide

theorem pipesize_lt : pipesize < 2 ^ 32 := by decide

/-- Not full, as `pipewrite` tests it. -/
theorem size_lt_of_not_full (h : Ring.size s.nread s.nwrite ≤ pipesize)
    (hfull : s.nwrite ≠ s.nread + BitVec.ofNat 32 pipesize) :
    Ring.size s.nread s.nwrite < pipesize :=
  Nat.lt_of_le_of_ne h fun heq => hfull ((Ring.full_iff pipesize_lt).mpr heq)

/-- What was sent is what was received, and what is in the buffer. -/
structure Streams (s : Pipe P) : Prop where
  size_le : Ring.size s.nread s.nwrite ≤ pipesize
  sent_eq : s.sent = s.got ++ s.queue

namespace Streams

theorem keep (h : Streams s) (hdata : s'.data = s.data) (hnread : s'.nread = s.nread)
    (hnwrite : s'.nwrite = s.nwrite) (hsent : s'.sent = s.sent) (hgot : s'.got = s.got) :
    Streams s' := by
  refine ⟨?_, ?_⟩
  · rw [hnread, hnwrite]
    exact h.size_le
  · rw [hsent, hgot, queue, hdata, hnread, hnwrite]
    exact h.sent_eq

variable [DecidableEq P]

theorem writeTurn (h : Streams s) (fault : Bool) (bytes : List (BitVec 8)) (i : ℕ) :
    Streams (s.writeTurn p fault bytes i) := by
  rw [Pipe.writeTurn]
  split
  · exact h.keep rfl rfl rfl rfl rfl
  · next ch _ =>
    split_ifs with hleave hfull
    · exact h.keep rfl rfl rfl rfl rfl
    · exact h.keep rfl rfl rfl rfl rfl
    · exact h.keep rfl rfl rfl rfl rfl
    · have hlt := size_lt_of_not_full h.size_le hfull
      refine ⟨?_, ?_⟩
      · change Ring.size s.nread (s.nwrite + 1) ≤ pipesize
        rw [Ring.size_succ (Nat.lt_of_lt_of_le hlt (by decide))]
        exact hlt
      · change s.sent ++ [ch] = s.got ++ Ring.contents _ s.nread (s.nwrite + 1)
        rw [Ring.contents_write pipesize_dvd pipesize_lt hlt, h.sent_eq, List.append_assoc]
        rfl

theorem readTurn (h : Streams s) (fault : Bool) (n : ℕ) (got : List (BitVec 8)) (copying : Bool) :
    Streams (s.readTurn p fault n got copying) := by
  rw [Pipe.readTurn]
  split_ifs with hcopy hmore
  · exact h.keep rfl rfl rfl rfl rfl
  · have hsize := Ring.size_read hmore.2
    refine ⟨?_, ?_⟩
    · change Ring.size (s.nread + 1) s.nwrite ≤ pipesize
      have hle := h.size_le
      omega
    · change s.sent = (s.got ++ [_]) ++ Ring.contents s.data (s.nread + 1) s.nwrite
      rw [h.sent_eq, queue, Ring.contents_read hmore.2, List.append_assoc, List.singleton_append]
  all_goals exact h.keep rfl rfl rfl rfl rfl

theorem step (h : Streams s) {e : Event P} (hs : s.step e = some s') : Streams s' := by
  cases e with
  | write p bytes | read p n =>
    rw [Pipe.step] at hs
    split_ifs at hs
    cases hs
    exact h.keep rfl rfl rfl rfl rfl
  | acquire p =>
    rw [Pipe.step] at hs
    split at hs
    · split_ifs at hs
      cases hs
      exact h.keep rfl rfl rfl rfl rfl
    · cases hs
  | turn p fault =>
    rw [Pipe.step] at hs
    split at hs
    · cases hs
      exact h.writeTurn fault _ _
    · cases hs
      exact h.readTurn fault _ _ _
    · cases hs
  | sleep p =>
    rw [Pipe.step] at hs
    split at hs
    · cases hs
      exact h.keep rfl rfl rfl rfl rfl
    · cases hs
  | close writable =>
    rw [Pipe.step] at hs
    split_ifs at hs
    · cases hs
      exact h.keep rfl rfl rfl rfl rfl
    · cases hs
      exact h.keep rfl rfl rfl rfl rfl
  | kill p =>
    cases hs
    exact h.keep rfl rfl rfl rfl rfl

end Streams

/-! ## The lock -/

@[simp] theorem call_setCall [DecidableEq P] {call : Option (PipeCall × PipePlace)} :
    (s.setCall p call).call = Function.update s.call p call := rfl

/-- Where the call of `p` is. -/
def place (s : Pipe P) (p : P) : Option PipePlace := (s.call p).map Prod.snd

/-- Between `acquire` and `release`. -/
def Inside (s : Pipe P) (p : P) : Prop := s.place p = some .inside

theorem place_wakeup (p : P) : (s.wakeup c).place p = (s.place p).map fun x =>
    if x = .asleep ∧ s.chan p = some c then .wants else x := by
  rw [place, place, wakeup, Option.map_map, Option.map_map]
  rfl

theorem inside_wakeup : (s.wakeup c).Inside p ↔ s.Inside p := by
  rw [Inside, Inside, place_wakeup]
  cases s.place p with
  | none => simp
  | some x =>
    cases x with
    | wants | inside | prepared => simp
    | asleep => by_cases hc : s.chan p = some c <;> simp [hc]

/-- The call of a process inside is as it was. -/
theorem call_wakeup {call : PipeCall} :
    (s.wakeup c).call p = some (call, .inside) ↔ s.call p = some (call, .inside) := by
  rw [wakeup]
  cases hp : s.call p with
  | none => simp [hp]
  | some x =>
    obtain ⟨call', x⟩ := x
    cases x with
    | wants | inside | prepared => simp [hp]
    | asleep => by_cases hc : s.chan p = some c <;> simp [hp, hc]

theorem inside_of_call {call : PipeCall} (h : s.call p = some (call, .inside)) : s.Inside p := by
  rw [Inside, place, h]
  rfl

/-- A reader sleeps in its first loop only. -/
def FirstLoop (s : Pipe P) : Prop :=
  ∀ q n got x, s.call q = some (.read n got true, x) → x = .inside

namespace FirstLoop

/-- Every call is as it was, and inside if it was, or is at a place that is allowed. -/
theorem keep (h : FirstLoop s) (hcalls : ∀ q call x, s'.call q = some (call, x) →
    (∃ x₀, s.call q = some (call, x₀) ∧ (x₀ = .inside → x = .inside)) ∨
      ∀ n got, call = .read n got true → x = .inside) : FirstLoop s' := by
  intro q n got x hq
  rcases hcalls q _ x hq with ⟨x₀, hq₀, hx⟩ | hx
  · exact hx (h q n got x₀ hq₀)
  · exact hx n got rfl

theorem wakeup (h : FirstLoop s) (c : PipeChan) : FirstLoop (s.wakeup c) := by
  refine h.keep fun q call x hq => .inl ?_
  obtain ⟨⟨call', x₀⟩, hq₀, heq⟩ := Option.map_eq_some_iff.mp hq
  cases heq
  exact ⟨x₀, hq₀, fun hx => by simp [hx]⟩

variable [DecidableEq P]

theorem setCall (h : FirstLoop s) {call : Option (PipeCall × PipePlace)}
    (hcall : ∀ n got x, call = some (.read n got true, x) → x = .inside)
    (hs : s'.call = Function.update s.call p call) : FirstLoop s' := by
  refine h.keep fun q call' x hq => ?_
  rw [hs] at hq
  by_cases hqp : q = p
  · rw [hqp, Function.update_self] at hq
    exact .inr fun n got hread => hcall n got x (hread ▸ hq)
  · rw [Function.update_of_ne hqp] at hq
    exact .inl ⟨x, hq, id⟩

theorem step (h : FirstLoop s) {e : Event P} (hs : s.step e = some s') : FirstLoop s' := by
  cases e with
  | write p bytes | read p n =>
    rw [Pipe.step] at hs
    split_ifs at hs
    cases hs
    exact h.setCall (fun _ _ _ heq => by cases heq) rfl
  | acquire p =>
    rw [Pipe.step] at hs
    split at hs
    · split_ifs at hs
      cases hs
      exact h.setCall (fun _ _ _ heq => by cases heq; rfl) rfl
    · cases hs
  | turn p fault =>
    rw [Pipe.step] at hs
    split at hs
    · cases hs
      rw [writeTurn]
      split
      · exact (h.wakeup _).setCall (fun _ _ _ heq => by cases heq) rfl
      · split_ifs
        · exact h.setCall (fun _ _ _ heq => by cases heq) rfl
        · exact (h.wakeup _).setCall (fun _ _ _ heq => by cases heq) rfl
        · exact (h.wakeup _).setCall (fun _ _ _ heq => by cases heq) rfl
        · exact h.setCall (fun _ _ _ heq => by cases heq) rfl
    · cases hs
      rw [readTurn]
      split_ifs
      · exact (h.wakeup _).setCall (fun _ _ _ heq => by cases heq) rfl
      · exact h.setCall (fun _ _ _ heq => by cases heq; rfl) rfl
      · exact (h.wakeup _).setCall (fun _ _ _ heq => by cases heq) rfl
      · exact h.setCall (fun _ _ _ heq => by cases heq) rfl
      · exact h.setCall (fun _ _ _ heq => by cases heq) rfl
      · exact h.setCall (fun _ _ _ heq => by cases heq; rfl) rfl
    · cases hs
  | sleep p =>
    rw [Pipe.step] at hs
    split at hs
    · next call hcall =>
      cases hs
      refine h.setCall (fun n got x heq => ?_) rfl
      cases heq
      exact absurd (h p n got _ hcall) (by simp)
    · cases hs
  | close writable =>
    rw [Pipe.step] at hs
    split_ifs at hs
    · cases hs
      exact h.wakeup _
    · cases hs
      exact h.wakeup _
  | kill p =>
    cases hs
    refine h.keep fun q call x hq => .inl ?_
    obtain ⟨⟨call', x₀⟩, hq₀, heq⟩ := Option.map_eq_some_iff.mp hq
    cases heq
    exact ⟨x₀, hq₀, fun hx => by simp [hx]⟩

end FirstLoop

/-- Nobody is inside but who holds the lock, and a reader in its second loop that has nothing yet
finds something, or the end. -/
structure Locked (s : Pipe P) : Prop where
  excl : Guarded s.Inside s.lock
  copying : ∀ q n, s.call q = some (.read n [] true, .inside) → s.nread = s.nwrite →
    s.writeopen = false

namespace Locked

theorem wakeup (h : Locked s) (c : PipeChan) : Locked (s.wakeup c) :=
  ⟨h.excl.keep fun _ => inside_wakeup, fun q n hq => h.copying q n (call_wakeup.mp hq)⟩

/-- A step that has no part in the lock. -/
theorem keep (h : Locked s) (hin : ∀ q call, s'.call q = some (call, .inside) ↔
    s.call q = some (call, .inside)) (hlock : s'.lock = s.lock) (hnread : s'.nread = s.nread)
    (hnwrite : s'.nwrite = s.nwrite) (hopen : s'.writeopen = s.writeopen) : Locked s' := by
  have hinside (q : P) : s'.Inside q ↔ s.Inside q := by
    simp only [Inside, place, Option.map_eq_some_iff, Prod.exists, exists_eq_right, hin]
  refine ⟨by rw [hlock]; exact h.excl.keep hinside, fun q n hq => ?_⟩
  rw [hnread, hnwrite, hopen]
  exact h.copying q n ((hin q _).mp hq)

variable [DecidableEq P] {call : Option (PipeCall × PipePlace)}

theorem inside_setCall_of_ne {q : P} (hq : q ≠ p) : (s.setCall p call).Inside q ↔ s.Inside q := by
  simp [Inside, place, setCall, hq]

/-- The holder lets go of the lock. -/
theorem release (h : Locked s) (hin : s.Inside p) (hcall : call.map Prod.snd ≠ some .inside)
    (hs : s'.call = (s.setCall p call).call) (hlock : s'.lock = none) : Locked s' := by
  have hinside (q : P) : s'.Inside q ↔ (s.setCall p call).Inside q := by
    rw [Inside, Inside, place, place, hs]
  have hself : ¬ s'.Inside p := by
    rw [hinside, Inside, place, call_setCall, Function.update_self]
    exact hcall
  have hothers : ∀ q, q ≠ p → (s'.Inside q ↔ s.Inside q) := fun q hq =>
    (hinside q).trans (inside_setCall_of_ne hq)
  refine ⟨by rw [hlock]; exact h.excl.release hin hself hothers, fun q n hq => ?_⟩
  exfalso
  by_cases hqp : q = p
  · exact hself (hqp ▸ inside_of_call hq)
  · exact hqp (h.excl.eq ((hothers q hqp).mp (inside_of_call hq)) hin)

/-- The holder goes on, still inside. -/
theorem advance (h : Locked s) {call : PipeCall} (hin : s.Inside p)
    (hs : s'.call = (s.setCall p (some (call, .inside))).call) (hlock : s'.lock = s.lock)
    (hcall : ∀ n, call = .read n [] true → s'.nread = s'.nwrite → s'.writeopen = false) :
    Locked s' := by
  have hinside (q : P) : s'.Inside q ↔ s.Inside q := by
    by_cases hqp : q = p
    · refine iff_of_true ?_ (hqp ▸ hin)
      rw [hqp, Inside, place, hs, call_setCall, Function.update_self]
      rfl
    · rw [Inside, place, hs]
      exact inside_setCall_of_ne hqp
  refine ⟨by rw [hlock]; exact h.excl.keep hinside, fun q n hq => ?_⟩
  obtain rfl : q = p := h.excl.eq ((hinside q).mp (inside_of_call hq)) hin
  rw [hs, call_setCall, Function.update_self] at hq
  exact hcall n (by simpa using hq)

theorem prepared_ne_inside (call : PipeCall) :
    (some (call, PipePlace.prepared)).map Prod.snd ≠ some PipePlace.inside := by simp

theorem writeTurn (h : Locked s) {bytes : List (BitVec 8)} {i : ℕ}
    (hcall : s.call p = some (.write bytes i, .inside)) (fault : Bool) :
    Locked (s.writeTurn p fault bytes i) := by
  have hin := inside_of_call hcall
  have hin' : (s.wakeup .nread).Inside p := inside_wakeup.mpr hin
  rw [Pipe.writeTurn]
  split
  · exact (h.wakeup _).release hin' (by simp) rfl rfl
  · split_ifs
    · exact h.release hin (by simp) rfl rfl
    · exact (h.wakeup _).release hin' (prepared_ne_inside (.write bytes i)) rfl rfl
    · exact (h.wakeup _).release hin' (by simp) rfl rfl
    · exact h.advance hin rfl rfl fun n hn => by cases hn

theorem readTurn (h : Locked s) {n : ℕ} {got : List (BitVec 8)} {copying : Bool}
    (hcall : s.call p = some (.read n got copying, .inside)) (fault : Bool) :
    Locked (s.readTurn p fault n got copying) := by
  have hin := inside_of_call hcall
  have hin' : (s.wakeup .nwrite).Inside p := inside_wakeup.mpr hin
  rw [Pipe.readTurn]
  split_ifs with hcopy hmore hfault hempty
  · exact (h.wakeup _).release hin' (by simp) rfl rfl
  · exact h.advance hin rfl rfl fun n hn => by simp at hn
  · exact (h.wakeup _).release hin' (by simp) rfl rfl
  · exact h.release hin (by simp) rfl rfl
  · exact h.release hin (prepared_ne_inside (.read n got false)) rfl rfl
  · refine h.advance hin rfl rfl fun n _ hnil => ?_
    have hopen : ¬ (s.nread = s.nwrite ∧ s.writeopen = true) := hempty
    exact Bool.eq_false_iff.mpr fun ho => hopen ⟨hnil, ho⟩

/-- A call that is not inside moves. -/
theorem call_setCall_iff {call : PipeCall} {x : PipePlace} (hx : x ≠ .inside) (hp : ¬ s.Inside p)
    (q : P) (call' : PipeCall) : (s.setCall p (some (call, x))).call q = some (call', .inside) ↔
      s.call q = some (call', .inside) := by
  by_cases hq : q = p
  · refine iff_of_false (fun heq => ?_) fun heq => hp (hq ▸ inside_of_call heq)
    rw [hq, call_setCall, Function.update_self] at heq
    cases heq
    exact hx rfl
  · rw [call_setCall, Function.update_of_ne hq]

/-- `kkill` finds nobody inside asleep. -/
theorem call_kill (q : P) (call : PipeCall) :
    ((s.call q).map fun x => (x.1, if x.2 = .asleep ∧ q = p then .wants else x.2))
      = some (call, .inside) ↔ s.call q = some (call, .inside) := by
  cases hq : s.call q with
  | none => simp
  | some x =>
    obtain ⟨call', x⟩ := x
    cases x with
    | wants | inside | prepared => simp
    | asleep => by_cases hc : q = p <;> simp [hc]

theorem step (h : Locked s) (hfirst : FirstLoop s) {e : Event P} (hs : s.step e = some s') :
    Locked s' := by
  cases e with
  | write p bytes | read p n =>
    rw [Pipe.step] at hs
    split_ifs at hs with hnone
    cases hs
    have hout : ¬ s.Inside p := by simp [Inside, place, hnone]
    exact h.keep (call_setCall_iff (by simp) hout) rfl rfl rfl rfl
  | acquire p =>
    rw [Pipe.step] at hs
    split at hs
    · next call hcall =>
      split_ifs at hs with hlock
      cases hs
      have hnobody (q : P) : ¬ s.Inside q := by
        have hexcl := h.excl
        rw [hlock] at hexcl
        exact hexcl.not_inside
      refine ⟨?_, fun q n hq => ?_⟩
      · have hexcl := h.excl
        rw [hlock] at hexcl
        refine hexcl.acquire ?_ fun q hq => inside_setCall_of_ne hq
        simp [Inside, place]
      · by_cases hqp : q = p
        · rw [hqp] at hq
          change Function.update s.call p (some (call, .inside)) p = _ at hq
          rw [Function.update_self] at hq
          cases hq
          exact absurd (hfirst p n [] _ hcall) (by simp)
        · exact absurd ((inside_setCall_of_ne hqp).mp (inside_of_call hq)) (hnobody q)
    · cases hs
  | turn p fault =>
    rw [Pipe.step] at hs
    split at hs
    · next hcall =>
      cases hs
      exact h.writeTurn hcall fault
    · next hcall =>
      cases hs
      exact h.readTurn hcall fault
    · cases hs
  | sleep p =>
    rw [Pipe.step] at hs
    split at hs
    · next hcall =>
      cases hs
      have hout : ¬ s.Inside p := by simp [Inside, place, hcall]
      exact h.keep (call_setCall_iff (by split <;> simp) hout) rfl rfl rfl rfl
    · cases hs
  | close writable =>
    rw [Pipe.step] at hs
    split_ifs at hs with hlock hw
    · cases hs
      exact ⟨(h.wakeup _).excl, fun _ _ _ _ => rfl⟩
    · cases hs
      exact (h.wakeup .nwrite).keep (fun _ _ => Iff.rfl) rfl rfl rfl rfl
  | kill p =>
    cases hs
    exact h.keep call_kill rfl rfl rfl rfl

end Locked

variable [DecidableEq P]

/-- What holds of a pipe from the start. -/
theorem sound_of_run {data : Fin pipesize → BitVec 8} {es : List (Event P)}
    (h : run step (fresh data) es = some s) : Streams s ∧ Locked s ∧ FirstLoop s :=
  invariant' (I := fun s => Streams s ∧ Locked s ∧ FirstLoop s)
    (fun _ _ _ hI hs => ⟨hI.1.step hs, hI.2.1.step hI.2.2 hs, hI.2.2.step hs⟩)
    ⟨⟨by simp [fresh, Ring.size], by simp [queue, fresh]⟩,
      ⟨fun _ => iff_of_false (by simp [Inside, place, fresh]) (by simp [fresh]),
        fun _ _ hq => by simp [fresh] at hq⟩,
      fun _ _ _ _ hq => by simp [fresh] at hq⟩ h

/-- **A pipe loses no byte, doubles none and keeps their order**, whoever writes and reads, and
however often its counters wrap around; and a read of at least one byte returns zero only when the
write end is closed and everything has been read. -/
theorem stream {data : Fin pipesize → BitVec 8} {es : List (Event P)}
    (h : run step (fresh data) es = some s) :
    s.sent = s.got ++ s.queue ∧ s.queue.length ≤ pipesize ∧
      ∀ p fault s' n got copying, s.call p = some (.read n got copying, .inside) → 0 < n →
        s.step (.turn p fault) = some s' → s'.call p = none → s'.ret p = 0 →
        s.writeopen = false ∧ s.sent = s.got := by
  obtain ⟨hstream, hlocked, -⟩ := sound_of_run h
  refine ⟨hstream.sent_eq, by rw [queue, Ring.length_contents]; exact hstream.size_le, ?_⟩
  intro p fault s' n got copying hcall hn hs hnone hret
  rw [step, hcall] at hs
  cases hs
  rw [readTurn] at hnone hret
  split_ifs at hnone hret with hcopy hmore hfault hempty hkilled
  · exfalso
    have hzero : faulted got.length = 0 := by simpa [leave] using hret
    rw [faulted] at hzero
    split_ifs at hzero
    omega
  · simp [setCall] at hnone
  · have hlen : got.length = 0 := by simpa [leave] using hret
    have hgot : got = [] := List.length_eq_zero_iff.mp hlen
    have hnil : s.nread = s.nwrite := by
      by_contra hne
      exact hmore ⟨by omega, hne⟩
    rw [hgot, hcopy] at hcall
    refine ⟨hlocked.copying p n hcall hnil, ?_⟩
    rw [hstream.sent_eq, queue, hnil, Ring.contents_self, List.append_nil]
  · simp [leave] at hret
  · simp [prepare, setCall] at hnone
  · simp [setCall] at hnone

/-- A write and a read that meet. -/
def sampleRun : List (Event ℕ) :=
  [.write 0 [104, 105], .read 1 5, .acquire 1, .turn 1 false, .acquire 0, .turn 0 false,
    .turn 0 false, .turn 0 false, .sleep 1, .acquire 1, .turn 1 false, .turn 1 false]

theorem stream_sample :
    ∃ s, run step (fresh fun _ => 0) sampleRun = some s ∧ s.sent = [104, 105] ∧
      s.sent = s.got ++ s.queue := by
  have hrun : (run step (fresh fun _ => 0) sampleRun).map (·.sent) = some [104, 105] := by
    decide +kernel
  obtain ⟨s, hs, hsent⟩ := Option.map_eq_some_iff.mp hrun
  exact ⟨s, hs, hsent, (stream hs).1⟩

end Pipe

end MiniProject.Kernel
