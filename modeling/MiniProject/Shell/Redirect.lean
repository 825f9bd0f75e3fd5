import MiniProject.Machinery.Descriptors
import MiniProject.Machinery.Files
import MiniProject.Shell.Segments

/-!
# Shell/Redirect — staging files for input and output

Input files are copied, one after the other, into an unlinked staging file that becomes the first
stage's stdin (`buildInputTmp`).  Output targets are opened by the shell, and the last stage writes
into an unlinked staging file (`prepareOutput`) that `flush_output` copies to every target.

`flush_output` is given as its single steps (`flushStep`): the stage that writes to the staging file
shares its position with the shell and may be writing while the shell copies.
-/

namespace MiniProject.Shell

/-- A byte of a file. -/
abbrev Byte := UInt8

/-- What a descriptor can name: the call that opened it, with its index where there are several. -/
inductive Handle
  | std (d : ℕ)
  | inFile (i : ℕ)
  | inTmp
  | target (i : ℕ)
  | outTmp
  | pipeR (i : ℕ)
  | pipeW (i : ℕ)
  | gateR
  | gateW
  | devNull
  deriving DecidableEq, Repr

/-- A file: one that a path names, or one of the two staging files. -/
inductive File
  | path (p : Text)
  | inTmp
  | outTmp
  deriving DecidableEq, Repr

/-- What the outside answers to the calls whose result the shell checks: `is_executable_file`,
`getcwd`, `getenv("PATH")`, `open` and `mkstemp`.  `readable` also says that `read` delivers, so it
is false of a directory. -/
structure Env where
  executable : Text → Bool
  cwd : Option Text
  path : Option Text
  readable : Text → Bool
  writable : Text → Bool
  mkstempIn : Bool
  mkstempOut : Bool
  devNull : Bool

/-- The shell's descriptors, the files, and the lines it printed. -/
structure Sys where
  fds : FdTable Handle
  store : Store Handle File Byte
  out : List Text

/-- `sizeof(buf)` of both copying loops. -/
def bufSize : ℕ := 8192

namespace Sys

/-! ## System calls -/

/-- `printf` of a line. -/
def print (s : Sys) (line : Text) : Sys := { s with out := s.out ++ [line] }

/-- A descriptor for something that is not a file. -/
def alloc (s : Sys) (h : Handle) : ℕ × Sys :=
  ((s.fds.alloc h).1, { s with fds := (s.fds.alloc h).2 })

/-- `open(f, O_RDONLY)`. -/
def openRead (s : Sys) (h : Handle) (f : File) : ℕ × Sys :=
  ((s.fds.alloc h).1, { s with fds := (s.fds.alloc h).2, store := s.store.openRead h f })

/-- `open(f, O_WRONLY | O_CREAT | …)`; with a staging file, `mkstemp` and `unlink`. -/
def openWrite (s : Sys) (h : Handle) (f : File) (append : Bool) : ℕ × Sys :=
  ((s.fds.alloc h).1, { s with fds := (s.fds.alloc h).2, store := s.store.openWrite h f append })

/-- `close(d)`. -/
def close (s : Sys) (d : ℕ) : Sys := { s with fds := s.fds.close d }

/-- A loop of `close`. -/
def closeAll (s : Sys) (ds : List ℕ) : Sys := { s with fds := s.fds.closeAll ds }

/-- `read(d, buf, k)`. -/
def read (s : Sys) (d k : ℕ) : List Byte × Sys :=
  match s.fds.get d with
  | none => ([], s)
  | some h => ((s.store.read h k).1, { s with store := (s.store.read h k).2 })

/-- `write(d, bs, …)`. -/
def write (s : Sys) (d : ℕ) (bs : List Byte) : Sys :=
  match s.fds.get d with
  | none => s
  | some h => { s with store := s.store.write h bs }

/-- `lseek(d, 0, SEEK_SET)`. -/
def rewind (s : Sys) (d : ℕ) : Sys :=
  match s.fds.get d with
  | none => s
  | some h => { s with store := s.store.rewind h }

@[simp] theorem fds_print (s : Sys) (line : Text) : (s.print line).fds = s.fds := rfl

@[simp] theorem store_print (s : Sys) (line : Text) : (s.print line).store = s.store := rfl

@[simp] theorem store_close (s : Sys) (d : ℕ) : (s.close d).store = s.store := rfl

@[simp] theorem store_closeAll (s : Sys) (ds : List ℕ) : (s.closeAll ds).store = s.store := rfl

@[simp] theorem fds_read (s : Sys) (d k : ℕ) : (s.read d k).2.fds = s.fds := by
  rw [read]
  cases s.fds.get d <;> rfl

@[simp] theorem fds_write (s : Sys) (d : ℕ) (bs : List Byte) : (s.write d bs).fds = s.fds := by
  rw [write]
  cases s.fds.get d <;> rfl

@[simp] theorem fds_rewind (s : Sys) (d : ℕ) : (s.rewind d).fds = s.fds := by
  rw [rewind]
  cases s.fds.get d <;> rfl

theorem read_eq {s : Sys} {d : ℕ} {h : Handle} (hd : s.fds.get d = some h) (k : ℕ) :
    s.read d k = ((s.store.read h k).1, { s with store := (s.store.read h k).2 }) := by
  rw [read, hd]

theorem write_eq {s : Sys} {d : ℕ} {h : Handle} (hd : s.fds.get d = some h) (bs : List Byte) :
    s.write d bs = { s with store := s.store.write h bs } := by
  rw [write, hd]

theorem rewind_eq {s : Sys} {d : ℕ} {h : Handle} (hd : s.fds.get d = some h) :
    s.rewind d = { s with store := s.store.rewind h } := by
  rw [rewind, hd]

end Sys

/-! ## `build_input_tmp` -/

/-- The result of `build_input_tmp`: -1, -2 or a descriptor. -/
inductive InFd
  | none
  | failed
  | fd (d : ℕ)
  deriving DecidableEq, Repr

/-- How many of `n` bytes the `write` of `build_input_tmp` takes, by the index of the file and the
round of the loop over it; nobody looks at its result, and a `write` that fails takes none. -/
abbrev Taken := ℕ → ℕ → ℕ → ℕ

/-- Every `write` takes all it is given. -/
def Taken.whole : Taken := fun _ _ n => n

/-- `while((n = read(src, buf, sizeof(buf))) > 0) write(dst, buf, n)` from round `k` on, for at most
`fuel` rounds. -/
def copyLoop (taken : ℕ → ℕ → ℕ) (src dst : ℕ) : ℕ → ℕ → Sys → Sys
  | _, 0, s => s
  | k, fuel + 1, s =>
    let (buf, s) := s.read src bufSize
    if buf = [] then s
    else copyLoop taken src dst (k + 1) fuel (s.write dst (buf.take (taken k buf.length)))

@[simp] theorem fds_copyLoop (taken : ℕ → ℕ → ℕ) (src dst k fuel : ℕ) (s : Sys) :
    (copyLoop taken src dst k fuel s).fds = s.fds := by
  induction fuel generalizing k s with
  | zero => rfl
  | succ fuel ih =>
    rw [copyLoop]
    dsimp only
    split
    · exact s.fds_read src bufSize
    · rw [ih, Sys.fds_write, Sys.fds_read]

/-- The second loop of `build_input_tmp`: a file that cannot be opened is passed over. -/
def copyFiles (env : Env) (taken : Taken) (tfd : ℕ) : ℕ → List Text → Sys → Sys
  | _, [], s => s
  | i, f :: fs, s =>
    if env.readable f then
      let (fd, s) := s.openRead (.inFile i) (.path f)
      let s := copyLoop (taken i) fd tfd 0 ((s.store.bytes (.path f)).length + 1) s
      copyFiles env taken tfd (i + 1) fs (s.close fd)
    else copyFiles env taken tfd (i + 1) fs s

/-- `build_input_tmp`. -/
def buildInputTmp (env : Env) (taken : Taken) (cmd : Commands) (s : Sys) : InFd × Sys :=
  if cmd.inFiles.length = 0 then (.none, s)
  else if cmd.inFiles.any fun f => (s.store.data (.path f)).isNone then
    (.failed, s.print "cshell: no such file or directory\n".toList)
  else if !env.mkstempIn then (.failed, s)
  else
    let (tfd, s) := s.openWrite .inTmp .inTmp false
    let s := copyFiles env taken tfd 0 cmd.inFiles s
    (.fd tfd, s.rewind tfd)

/-! ## `prepare_output` -/

/-- `out_ctx`: `tmp_fd`, absent when it is -1, and `real_fds[0..real_count)`. -/
structure OutCtx where
  tmpFd : Option ℕ
  realFds : List ℕ
  deriving DecidableEq, Repr

/-- The loop of `prepare_output`; at a target that cannot be opened it closes those before. -/
def openTargets (env : Env) : ℕ → List OutFile → List ℕ → Sys → Option (List ℕ) × Sys
  | _, [], fds, s => (some fds, s)
  | i, o :: os, fds, s =>
    if env.writable o.file then
      let (fd, s) := s.openWrite (.target i) (.path o.file) o.append
      openTargets env (i + 1) os (fds ++ [fd]) s
    else
      (none, (s.print "cshell: unable to create file for writing\n".toList).closeAll fds)

/-- `prepare_output`; `none` is its -1. -/
def prepareOutput (env : Env) (cmd : Commands) (s : Sys) : Option OutCtx × Sys :=
  if cmd.outFiles.length = 0 then (some ⟨none, []⟩, s)
  else
    match openTargets env 0 cmd.outFiles [] s with
    | (none, s) => (none, s)
    | (some fds, s) =>
      if !env.mkstempOut then (none, s.closeAll fds)
      else
        let (tfd, s) := s.openWrite .outTmp .outTmp false
        (some ⟨some tfd, fds⟩, s)

/-! ## `flush_output` -/

/-- Where `flush_output` stands: before `lseek`, before a `read`, in the loop of `write` with the
descriptors still to be written to, before the closing loop, or at its end. -/
inductive FlushPc
  | start
  | read
  | write (buf : List Byte) (rest : List ℕ)
  | close
  | done
  deriving DecidableEq, Repr

/-- One system call of `flush_output` (its closing loop taken as one). -/
def flushStep (ctx : OutCtx) (pc : FlushPc) (s : Sys) : FlushPc × Sys :=
  match ctx.tmpFd with
  | none => (.done, s)
  | some tfd =>
    match pc with
    | .start => (.read, s.rewind tfd)
    | .read =>
      let (buf, s) := s.read tfd bufSize
      if buf = [] then (.close, s) else (.write buf ctx.realFds, s)
    | .write _ [] => (.read, s)
    | .write buf (fd :: rest) => (.write buf rest, s.write fd buf)
    | .close => (.done, (s.close tfd).closeAll ctx.realFds)
    | .done => (.done, s)

end MiniProject.Shell
