import MiniProject.Kernel.Proc
import MiniProject.Machinery.Bytes
import MiniProject.Machinery.Journal
import MiniProject.Machinery.Runs

/-!
# Kernel/Log — the file system's redo log

File system calls change buffers between `begin_op` and `end_op`, and `log_write` pins each buffer
they change.  When the last of them ends, `commit` copies the pinned buffers to the log, writes the
header, carries the log out at the home locations and clears the header; `recover_from_log` does the
second half again after a crash.

One step is one critical section of `log.lock`, one use of a buffer, or one turn of a loop of
`commit` or of recovery, each of which writes one block.  A buffer stands for its block: what
`bread` returns is the cached copy, or else what is on disk.
-/

namespace MiniProject.Kernel

/-- `BSIZE`. -/
def bsize : ℕ := 1024

/-- `MAXOPBLOCKS`. -/
def maxopblocks : ℕ := 10

/-- `LOGBLOCKS`. -/
def logblocks : ℕ := maxopblocks * 3

/-- A `uint` that names a block. -/
abbrev BlockNo := BitVec 32

/-- The content of a block. -/
abbrev Block := Bytes bsize

/-! ## The header block -/

/-- The header as `read_head` reads it: `n`, and then the first `n` block numbers. -/
def readHead (d : Block) : List BlockNo := d.loadAll 4 4 (d.load 4 0).toInt.toNat

/-- The header as `write_head` writes it. -/
def writeHead (lh : List BlockNo) (d : Block) : Block :=
  (d.store 0 (BitVec.ofNat (8 * 4) lh.length)).storeAll 4 (k := 4) lh

/-- **The header reads as it was written**, as long as it fits in. -/
theorem readHead_writeHead {lh : List BlockNo} (h : lh.length ≤ logblocks) (d : Block) :
    readHead (writeHead lh d) = lh := by
  have hle : lh.length ≤ 30 := h
  have hn : ((writeHead lh d).load 4 0).toInt.toNat = lh.length := by
    rw [writeHead, Bytes.load_storeAll_of_le _ _ (Nat.le_refl 4),
      Bytes.load_store (n := bsize) _ _ (by decide), BitVec.toInt_ofNat']
    simp [Int.bmod]
    omega
  rw [readHead, hn, writeHead]
  exact Bytes.loadAll_storeAll (k := 4) (n := bsize) _ lh (show 4 + 4 * lh.length ≤ 1024 by omega)

/-! ## The state -/

/-- Where `commit`, or `recover_from_log`, is. -/
inductive LogStage
  | idle
  | copy (tail : ℕ)
  | head
  | install (tail : ℕ)
  | clear
  | finish
  | boot
  | recover (tail : ℕ)
  | reset
  deriving DecidableEq, Repr

/-- Before the file system is there for anyone. -/
def LogStage.booting : LogStage → Bool
  | .boot | .recover _ | .reset => true
  | _ => false

/-- While `commit` runs. -/
def LogStage.committing : LogStage → Bool
  | .copy _ | .head | .install _ | .clear | .finish => true
  | _ => false

/-- The disk, the buffers, and `struct log`.  No code reads `op`, the blocks that the call of a
process in progress has logged so far, nor `dirty`, the blocks changed and not logged since. -/
structure Log (A : Type) where
  disk : BlockNo → Block
  cache : BlockNo → Option Block
  held : BlockNo → Option A
  pins : BlockNo → ℕ
  lh : List BlockNo
  outstanding : ℤ
  committing : Bool
  ncommit : ℤ
  stage : LogStage
  syncing : A → Option ℤ
  panicked : Bool
  op : A → Option (List BlockNo)
  dirty : List BlockNo

namespace Log

variable {A : Type}

/-- After power-on. -/
def boot (disk : BlockNo → Block) : Log A where
  disk := disk
  cache _ := none
  held _ := none
  pins _ := 0
  lh := []
  outstanding := 0
  committing := false
  ncommit := 0
  stage := .boot
  syncing _ := none
  panicked := false
  op _ := none
  dirty := []

/-- The block of the log behind the header that takes entry `tail`. -/
def slot (start : BlockNo) (tail : ℕ) : BlockNo := start + BitVec.ofNat 32 (tail + 1)

/-- Not the header, nor a block of the log. -/
def Home (start b : BlockNo) : Prop := logblocks < (b - start).toNat

instance (start b : BlockNo) : Decidable (Home start b) := inferInstanceAs (Decidable (_ < _))

variable (s : Log A)

/-- What `bread` finds in block `b`. -/
def view (b : BlockNo) : Block := (s.cache b).getD (s.disk b)

/-- `bread`, for the buffer. -/
def bread (b : BlockNo) : Log A :=
  { s with cache := Function.update s.cache b (some (s.view b)) }

/-- The content of a buffer is set. -/
def fill (b : BlockNo) (d : Block) : Log A :=
  { s with cache := Function.update s.cache b (some d) }

/-- `bwrite`, of a buffer with content `d`. -/
def bwrite (b : BlockNo) (d : Block) : Log A :=
  { s.fill b d with disk := Function.update s.disk b d }

/-- `write_head`. -/
def writeHeader (start : BlockNo) : Log A := s.bwrite start (writeHead s.lh (s.view start))

/-- A turn of the loop of `write_log`, for the block `b` at `tail`. -/
def writeLog (start : BlockNo) (tail : ℕ) (b : BlockNo) : Log A :=
  (s.bread b).bwrite (slot start tail) (s.view b)

/-- A turn of the loop of `install_trans`, for the block `b` at `tail`. -/
def installTrans (start : BlockNo) (recovering : Bool) (tail : ℕ) (b : BlockNo) : Log A :=
  let s' := (s.bread (slot start tail)).bwrite b (s.view (slot start tail))
  if recovering then s' else { s' with pins := Function.update s.pins b (s.pins b - 1) }

/-- `commit` or recovery gets to a stage. -/
def enter (stage : LogStage) : Log A := { s with stage }

/-- Nobody has the buffer. -/
def Free (b : BlockNo) : Prop := s.held b = none

instance [DecidableEq A] (b : BlockNo) : Decidable (s.Free b) := inferInstanceAs (Decidable (_ = _))

section Step

variable [DecidableEq A]

/-- The next thing `commit` or `recover_from_log` does; it waits for the buffers it reads. -/
def advance (start : BlockNo) : Option (Log A) :=
  match s.stage with
  | .idle => none
  | .copy tail =>
    match s.lh[tail]? with
    | none => some (s.enter .head)
    | some b =>
      if s.Free (slot start tail) ∧ s.Free b then
        some ((s.writeLog start tail b).enter (.copy (tail + 1)))
      else none
  | .head => if s.Free start then some ((s.writeHeader start).enter (.install 0)) else none
  | .install tail =>
    match s.lh[tail]? with
    | none => some { s.enter .clear with lh := [] }
    | some b =>
      if s.Free (slot start tail) ∧ s.Free b then
        some ((s.installTrans start false tail b).enter (.install (tail + 1)))
      else none
  | .clear => if s.Free start then some ((s.writeHeader start).enter .finish) else none
  | .finish => some { s.enter .idle with committing := false, ncommit := int (s.ncommit + 1) }
  | .boot => some { (s.bread start).enter (.recover 0) with lh := readHead (s.view start) }
  | .recover tail =>
    match s.lh[tail]? with
    | none => some { s.enter .reset with lh := [] }
    | some b => some ((s.installTrans start true tail b).enter (.recover (tail + 1)))
  | .reset => some ((s.writeHeader start).enter .idle)

/-- `begin_op`, when neither of its tests makes it wait. -/
def beginOp (a : A) : Option (Log A) :=
  if s.committing then none
  else if s.lh.length + (s.outstanding + 1) * maxopblocks > logblocks then none
  else some { s with
    outstanding := s.outstanding + 1, op := Function.update s.op a (some []) }

/-- `end_op`, up to `commit`, which has nothing to do for an empty log. -/
def endOp (a : A) : Log A :=
  let s' : Log A :=
    { s with outstanding := s.outstanding - 1, op := Function.update s.op a none }
  if s.committing then { s' with panicked := true }
  else if s.outstanding - 1 = 0 then
    { s' with committing := true, stage := if s.lh.length > 0 then .copy 0 else .finish }
  else s'

/-- `log_write`, by process `a` of buffer `b`. -/
def logWrite (a : A) (b : BlockNo) : Log A :=
  if s.lh.length ≥ logblocks then { s with panicked := true }
  else if s.outstanding < 1 then { s with panicked := true }
  else
    let s' : Log A :=
      { s with
        op := Function.update s.op a ((s.op a).map fun bs => if b ∈ bs then bs else b :: bs)
        dirty := s.dirty.filter (· ≠ b) }
    if b ∈ s.lh then s'
    else { s' with lh := s.lh ++ [b], pins := Function.update s.pins b (s.pins b + 1) }

/-- `sys_sync`, up to its first `sleep`. -/
def sysSync (a : A) : Log A :=
  if s.committing ∨ s.outstanding > 0 then
    { s with syncing := Function.update s.syncing a (some (int (s.ncommit + 1))) }
  else s

/-- What can happen next; `modify` is the caller of `bread` at work on the buffer, and `evict` is
`bget` at work for another block. -/
inductive Event (A : Type)
  | beginOp (a : A)
  | bread (a : A) (b : BlockNo)
  | modify (a : A) (b : BlockNo) (d : Block)
  | logWrite (a : A) (b : BlockNo)
  | brelse (a : A) (b : BlockNo)
  | endOp (a : A)
  | sync (a : A)
  | synced (a : A)
  | evict (b : BlockNo)
  | commit
  | crash

/-- A step.  A process does one thing at a time: it begins no call inside another, nor any while it
waits in `sys_sync`, and uses the buffers it has. -/
def step (start : BlockNo) (s : Log A) : Event A → Option (Log A)
  | .crash => some (boot s.disk)
  | .commit => if s.panicked then none else s.advance start
  | .evict b =>
    if ¬ s.panicked ∧ s.Free b ∧ s.pins b = 0 then
      some { s with cache := Function.update s.cache b none }
    else none
  | .beginOp a =>
    if ¬ s.panicked ∧ ¬ s.stage.booting ∧ s.op a = none ∧ s.syncing a = none then s.beginOp a
    else none
  | .bread a b =>
    if ¬ s.panicked ∧ ¬ s.stage.booting ∧ s.Free b then
      some { s.bread b with held := Function.update s.held b (some a) }
    else none
  | .modify a b d =>
    if ¬ s.panicked ∧ s.held b = some a then some { s.fill b d with dirty := b :: s.dirty }
    else none
  | .logWrite a b => if ¬ s.panicked ∧ s.held b = some a then some (s.logWrite a b) else none
  | .brelse a b =>
    if ¬ s.panicked ∧ s.held b = some a then
      some { s with held := Function.update s.held b none }
    else none
  | .endOp a => if ¬ s.panicked ∧ s.op a ≠ none then some (s.endOp a) else none
  | .sync a =>
    if ¬ s.panicked ∧ ¬ s.stage.booting ∧ s.op a = none ∧ s.syncing a = none then
      some (s.sysSync a)
    else none
  | .synced a =>
    match s.syncing a with
    | none => none
    | some n =>
      if ¬ s.panicked ∧ ¬ s.ncommit < n then
        some { s with syncing := Function.update s.syncing a none }
      else none

/-- What callers keep to: they leave the log's own blocks alone, change a buffer only inside a call
that began, and log what they changed before they let go of it or end the call. -/
def Disciplined (start : BlockNo) (s : Log A) : Event A → Prop
  | .bread _ b => Home start b
  | .modify a _ _ => s.op a ≠ none
  | .logWrite a _ => s.op a ≠ none
  | .brelse _ b => b ∉ s.dirty
  | .endOp a => ∀ b ∈ s.dirty, s.held b ≠ some a
  | _ => True

instance (start : BlockNo) (s : Log A) : DecidablePred (Disciplined start s)
  | .bread _ b => inferInstanceAs (Decidable (Home start b))
  | .modify a _ _ | .logWrite a _ => inferInstanceAs (Decidable (s.op a ≠ none))
  | .brelse _ b => inferInstanceAs (Decidable (b ∉ s.dirty))
  | .endOp a => List.decidableBAll (fun b => s.held b ≠ some a) s.dirty
  | .beginOp _ | .sync _ | .synced _ | .evict _ | .commit | .crash => isTrue trivial

end Step

/-! ## What the steps do to the disk and to the buffers -/

section Lemmas

variable {s : Log A} {start b : BlockNo} {d : Block} {i j : ℕ}

@[simp] theorem view_bread : (s.bread b).view = s.view := by
  funext b'
  by_cases hb : b' = b
  · simp [bread, view, hb]
  · simp [bread, view, hb]

@[simp] theorem view_fill : (s.fill b d).view = Function.update s.view b d := by
  funext b'
  by_cases hb : b' = b
  · simp [fill, view, hb]
  · simp [fill, view, hb]

@[simp] theorem view_bwrite : (s.bwrite b d).view = Function.update s.view b d := by
  funext b'
  by_cases hb : b' = b
  · simp [bwrite, fill, view, hb]
  · simp [bwrite, fill, view, hb]

@[simp] theorem view_enter (stage : LogStage) : (s.enter stage).view = s.view := rfl

@[simp] theorem disk_enter (stage : LogStage) : (s.enter stage).disk = s.disk := rfl

@[simp] theorem view_writeHeader : (s.writeHeader start).view
    = Function.update s.view start (writeHead s.lh (s.view start)) := view_bwrite

@[simp] theorem disk_writeHeader : (s.writeHeader start).disk
    = Function.update s.disk start (writeHead s.lh (s.view start)) := rfl

@[simp] theorem view_writeLog : (s.writeLog start i b).view
    = Function.update s.view (slot start i) (s.view b) := by rw [writeLog, view_bwrite, view_bread]

@[simp] theorem disk_writeLog : (s.writeLog start i b).disk
    = Function.update s.disk (slot start i) (s.view b) := rfl

@[simp] theorem view_installTrans (recovering : Bool) : (s.installTrans start recovering i b).view
    = Function.update s.view b (s.view (slot start i)) := by
  have hview : ((s.bread (slot start i)).bwrite b (s.view (slot start i))).view
      = Function.update s.view b (s.view (slot start i)) := by rw [view_bwrite, view_bread]
  cases recovering with
  | true => exact hview
  | false => exact hview

@[simp] theorem disk_installTrans (recovering : Bool) : (s.installTrans start recovering i b).disk
    = Function.update s.disk b (s.view (slot start i)) := by
  cases recovering <;> rfl

@[simp] theorem lh_installTrans (recovering : Bool) :
    (s.installTrans start recovering i b).lh = s.lh := by
  cases recovering <;> rfl

/-- A buffer with what is on disk can go. -/
theorem view_evict (h : s.view b = s.disk b) :
    ({ s with cache := Function.update s.cache b none } : Log A).view = s.view := by
  funext b'
  by_cases hb : b' = b
  · rw [hb, h]
    simp [view]
  · simp [view, hb]

theorem not_home_start : ¬ Home start start := by simp [Home]

theorem not_home_slot (hi : i < logblocks) : ¬ Home start (slot start i) := by
  have hi' : i < 30 := hi
  have hlog : logblocks = 30 := rfl
  rw [Home, slot, hlog]
  bv_omega

theorem slot_ne_start (hi : i < logblocks) : slot start i ≠ start := by
  have hi' : i < 30 := hi
  rw [slot]
  bv_omega

theorem slot_inj (hi : i < logblocks) (hj : j < logblocks) (h : slot start i = slot start j) :
    i = j := by
  have hi' : i < 30 := hi
  have hj' : j < 30 := hj
  rw [slot, slot] at h
  bv_omega

theorem slot_ne_home (hi : i < logblocks) (hb : Home start b) : slot start i ≠ b := fun heq =>
  not_home_slot hi (heq ▸ hb)

theorem start_ne_home (hb : Home start b) : start ≠ b := fun heq => not_home_start (heq ▸ hb)

end Lemmas

end Log

end MiniProject.Kernel
