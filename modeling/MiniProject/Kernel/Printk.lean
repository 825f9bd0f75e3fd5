import Mathlib.Data.Bool.AllAny
import MiniProject.Kernel.Proc

/-!
# Kernel/Printk — `printk`, and what `procdump` shows

`printk` knows `%d`, `%u`, `%x`, `%p`, `%c`, `%s` and the long forms of the first three.  It takes
an argument for each of these and for nothing else; of what it does not know it prints the percent
sign and one character, and goes on behind them.  `procdump` writes a width into nearly all its
conversions, and so shows none of the columns it has headings for (`procdump_shows_iff`).
-/

namespace MiniProject.Kernel

/-! ## Conversions -/

/-- What follows a percent sign; the number is a width in bits. -/
inductive Conv
  | signed (bits : ℕ)
  | unsigned (bits : ℕ)
  | hex (bits : ℕ)
  | ptr
  | char
  | str
  | percent
  | stop
  | unknown
  deriving DecidableEq, Repr

/-- The chain of comparisons of `c0`, `c1` and `c2`, and how many of them it uses up. -/
def conversion : List Char → Conv × ℕ
  | [] => (.stop, 0)
  | 'd' :: _ => (.signed 32, 1)
  | 'l' :: 'd' :: _ => (.signed 64, 2)
  | 'l' :: 'l' :: 'd' :: _ => (.signed 64, 3)
  | 'u' :: _ => (.unsigned 32, 1)
  | 'l' :: 'u' :: _ => (.unsigned 64, 2)
  | 'l' :: 'l' :: 'u' :: _ => (.unsigned 64, 3)
  | 'x' :: _ => (.hex 32, 1)
  | 'l' :: 'x' :: _ => (.hex 64, 2)
  | 'l' :: 'l' :: 'x' :: _ => (.hex 64, 3)
  | 'p' :: _ => (.ptr, 1)
  | 'c' :: _ => (.char, 1)
  | 's' :: _ => (.str, 1)
  | '%' :: _ => (.percent, 1)
  | _ :: _ => (.unknown, 1)

/-- An argument: the value of a register, or a `char *`. -/
inductive Arg
  | int (z : ℤ)
  | str (s : Option (List Char))

/-- `printint`. -/
def printint (xx : ℤ) (base : ℕ) : List Char :=
  if xx < 0 then '-' :: Nat.toDigits base xx.natAbs else Nat.toDigits base xx.natAbs

/-- `printptr`. -/
def printptr (x : ℕ) : List Char :=
  '0' :: 'x' :: (List.range 16).map fun i => Nat.digitChar (x / 16 ^ (15 - i) % 16)

/-- `consputc`. -/
def consputc (c : ℕ) : List Char :=
  if c = 0x100 then [Char.ofNat 8, ' ', Char.ofNat 8] else [Char.ofNat (c % 256)]

/-- What a conversion makes of its argument; `none` where the argument is of another type. -/
def Conv.render : Conv → Arg → Option (List Char)
  | .signed bits, .int z => some (printint (z.bmod (2 ^ bits)) 10)
  | .unsigned bits, .int z => some (printint (z % 2 ^ bits) 10)
  | .hex bits, .int z => some (printint (z % 2 ^ bits) 16)
  | .ptr, .int z => some (printptr (z % 2 ^ 64).toNat)
  | .char, .int z => some (consputc (z % 2 ^ 32).toNat)
  | .str, .str s => some (s.getD "(null)".toList)
  | _, _ => none

/-! ## `printk` -/

/-- What `printk` puts out: a character of the format, an argument, or a conversion it does not
know. -/
inductive Piece
  | plain (c : Char)
  | arg (cs : List Char)
  | unknown (c : Char)
  deriving DecidableEq, Repr

/-- The characters of a piece. -/
def Piece.chars : Piece → List Char
  | .plain c => [c]
  | .arg cs => cs
  | .unknown c => ['%', c]

/-- The loop of `printk`, which skips what a conversion has used up; `none` where it reads an
argument that is not there, or not of the type it takes it for. -/
def printkFrom (skip : ℕ) : List Char → List Arg → Option (List Piece)
  | [], _ => some []
  | c :: fmt, args =>
    match skip with
    | skip + 1 => printkFrom skip fmt args
    | 0 =>
      if c ≠ '%' then (printkFrom 0 fmt args).map (.plain c :: ·)
      else
        match conversion fmt with
        | (.stop, _) => some []
        | (.percent, used) => (printkFrom used fmt args).map (.plain '%' :: ·)
        | (.unknown, used) => (printkFrom used fmt args).map (.unknown (fmt.headD '%') :: ·)
        | (conv, used) =>
          match args with
          | [] => none
          | a :: args => do
            let cs ← conv.render a
            let pieces ← printkFrom used fmt args
            some (.arg cs :: pieces)

/-- `printk(fmt, …)`. -/
def printk (fmt : List Char) (args : List Arg) : Option (List Piece) := printkFrom 0 fmt args

/-- What comes out on the console. -/
def console (pieces : List Piece) : List Char := pieces.flatMap Piece.chars

theorem console_append (l r : List Piece) : console (l ++ r) = console l ++ console r :=
  List.flatMap_append

theorem console_map_plain (cs : List Char) : console (cs.map .plain) = cs := by
  induction cs with
  | nil => rfl
  | cons c cs ih => exact congrArg (c :: ·) ih

/-- The arguments that `printk` has shown, in order. -/
def shownArgs (pieces : List Piece) : List (List Char) :=
  pieces.filterMap fun
    | .arg cs => some cs
    | _ => none

example : (printk "%d%%%-4d".toList [.int (-3)]).map console = some "-3%%-4d".toList := by decide

/-! ## `procdump` -/

/-- `states[p->state]`. -/
def stateName : ProcState → List Char
  | .unused => "unused ".toList
  | .used => "used   ".toList
  | .sleeping => "sleep  ".toList
  | .runnable => "runble ".toList
  | .running => "run    ".toList
  | .zombie => "zombie ".toList

/-- The headings. -/
def headings : Build → List Char
  | .mlfq =>
    "PID  STATE    NAME            Q  TICK_USED  CPU_TICKS  CREATED  FIRST_RUN\n".toList ++
      "----+--------+---------------+-+----------+---------+---------+---------\n".toList
  | _ => "PID  STATE    NAME            CREATED  FIRST_RUN  END  CPU_TICKS\n".toList

/-- The format of a line. -/
def lineFormat : Build → List Char
  | .mlfq => "%-4d %-8s %-15s %d  %-10d %-9d %-9d %-9d\n".toList
  | _ => "%-4d %-8s %-15s %-9d %-10d %-5d %d\n".toList

/-- The arguments of a line. -/
def lineArgs (build : Build) (x : Proc) : List Arg :=
  [.int x.pid, .str (stateName x.state), .str x.name] ++
    match build with
    | .mlfq => [.int x.queue, .int x.ticksUsed, .int x.cpuTicks, .int x.creationTime,
        .int x.firstRunTime]
    | _ => [.int x.creationTime, .int x.firstRunTime, .int x.endTime, .int x.cpuTicks]

/-- The line of a process. -/
def procdumpLine (build : Build) (x : Proc) : Option (List Piece) :=
  printk (lineFormat build) (lineArgs build x)

/-- `procdump`. -/
def procdump (build : Build) (t : Table) : Option (List Char) := do
  let lines ← ((List.finRange nproc).filter fun p => (t p).state ≠ .unused).mapM fun p =>
    procdumpLine build (t p)
  some (['\n'] ++ headings build ++ lines.flatMap console ++ ['\n'])

/-! ## What a line shows -/

/-- The value of an argument, as it is read. -/
def Arg.value : Arg → List Char
  | .int z => printint z 10
  | .str s => s.getD []

/-- The columns, from the left: the pid, the state, the name, and what the MLFQ build has more. -/
def columns (build : Build) (x : Proc) : List (List Char) :=
  match build with
  | .mlfq => (lineArgs build x).map Arg.value
  | _ => ((lineArgs build x).take 3).map Arg.value

/-- The texts stand in the line one behind the other. -/
def ShowsInOrder : List (List Char) → List Char → Prop
  | [], _ => True
  | cs :: rest, line => ∃ before after, line = before ++ cs ++ after ∧ ShowsInOrder rest after

/-- The line shows its columns, and `printk` knows every conversion of it and has shown the argument
that goes with it. -/
structure Shown (build : Build) (x : Proc) (pieces : List Piece) : Prop where
  inOrder : ShowsInOrder (columns build x) (console pieces)
  known : ∀ c, .unknown c ∉ pieces
  args : shownArgs pieces = (lineArgs build x).map Arg.value

variable {build : Build} {x : Proc} {c : Char} {cs line : List Char} {texts : List (List Char)}

theorem ShowsInOrder.mem (h : ShowsInOrder texts line) (hcs : cs ∈ texts) (hc : c ∈ cs) :
    c ∈ line := by
  induction texts generalizing line with
  | nil => cases hcs
  | cons text texts ih =>
    obtain ⟨before, after, rfl, hrest⟩ := h
    rcases List.mem_cons.mp hcs with rfl | hcs
    · exact List.mem_append_left _ (List.mem_append_right _ hc)
    · exact List.mem_append_right _ (ih hrest hcs)

theorem mem_printint {z : ℤ} (hc : c ∈ printint z 10) : c = '-' ∨ c.isDigit := by
  rw [printint] at hc
  split at hc
  · exact (List.mem_cons.mp hc).imp_right
      (Nat.isDigit_of_mem_toDigits (by decide) (by decide))
  · exact .inr (Nat.isDigit_of_mem_toDigits (by decide) (by decide) hc)

/-- **All that a line shows is the pid**, where the only conversion without a width stands. -/
theorem procdumpLine_eq (build : Build) (x : Proc) :
    ∃ before after pieces, procdumpLine build x = some pieces ∧
      console pieces = before ++ printint (x.pid.bmod (2 ^ 32)) 10 ++ after ∧
      (∀ c ∈ before ++ after, c ∉ "ulrz".toList) := by
  cases build with
  | mlfq =>
    exact ⟨"%-4d %-8s %-15s ".toList, "  %-10d %-9d %-9d %-9d\n".toList, _, rfl, rfl,
      List.all_iff_forall_prop.mp (by decide)⟩
  | rr | fifo =>
    exact ⟨"%-4d %-8s %-15s %-9d %-10d %-5d ".toList, "\n".toList, _, rfl, rfl,
      List.all_iff_forall_prop.mp (by decide)⟩

/-- `procdump` reads no argument that is not there: it puts out its headings, and a line for each
process. -/
theorem procdump_eq (build : Build) (t : Table) :
    ∃ lines : Slot → List Piece, (∀ p, procdumpLine build (t p) = some (lines p)) ∧
      procdump build t = some (['\n'] ++ headings build ++
        (((List.finRange nproc).filter fun p => (t p).state ≠ .unused).map lines).flatMap console ++
          ['\n']) := by
  have hline (p : Slot) : ∃ pieces, procdumpLine build (t p) = some pieces := by
    obtain ⟨-, -, pieces, hpieces, -⟩ := procdumpLine_eq build (t p)
    exact ⟨pieces, hpieces⟩
  choose lines hlines using hline
  refine ⟨lines, hlines, ?_⟩
  have hpure : (fun p => procdumpLine build (t p)) = fun p => pure (lines p) := funext hlines
  rw [procdump, hpure, List.mapM_pure]
  rfl

/-- Every state has a letter that nothing else in a line has. -/
theorem exists_letter (st : ProcState) : ∃ c ∈ stateName st, c ∈ "ulrz".toList := by
  cases st with
  | unused | used => exact ⟨'u', by decide, by decide⟩
  | sleeping => exact ⟨'l', by decide, by decide⟩
  | runnable | running => exact ⟨'r', by decide, by decide⟩
  | zombie => exact ⟨'z', by decide, by decide⟩

theorem not_showsInOrder {pieces : List Piece} (h : procdumpLine build x = some pieces) :
    ¬ ShowsInOrder (columns build x) (console pieces) := by
  intro hshows
  obtain ⟨before, after, pieces', hline, hchars, hfixed⟩ := procdumpLine_eq build x
  obtain rfl : pieces = pieces' := Option.some.inj (h.symm.trans hline)
  obtain ⟨c, hc, hletter⟩ := exists_letter x.state
  have hcolumn : stateName x.state ∈ columns build x := by
    cases build <;> exact List.mem_cons_of_mem _ List.mem_cons_self
  have hin := hshows.mem hcolumn hc
  rw [hchars] at hin
  rcases List.mem_append.mp hin with hin | hin
  · rcases List.mem_append.mp hin with hin | hin
    · exact hfixed c (List.mem_append_left _ hin) hletter
    · -- A pid has digits, and a sign at most.
      rcases mem_printint hin with rfl | hdigit
      · exact absurd hletter (by decide)
      · have hnone : ∀ c ∈ "ulrz".toList, c.isDigit = false :=
          List.all_iff_forall_prop.mp (by decide)
        rw [hnone c hletter] at hdigit
        cases hdigit
  · exact hfixed c (List.mem_append_right _ hin) hletter

/-- **`procdump` shows what its headings say** only if there is nothing to show. -/
theorem procdump_shows_iff (build : Build) (t : Table) :
    (∀ p, (t p).state ≠ .unused →
        ∃ pieces, procdumpLine build (t p) = some pieces ∧ Shown build (t p) pieces) ↔
      ∀ p, (t p).state = .unused := by
  constructor
  · intro h p
    by_contra hp
    obtain ⟨pieces, hline, hshown⟩ := h p hp
    exact not_showsInOrder hline hshown.inOrder
  · intro h p hp
    exact absurd (h p) hp

/-- `init` sleeps in slot 0, and there is nobody else. -/
private def onlyInit : Table := fun p =>
  if p = 0 then { Proc.zero with state := .sleeping, pid := 1, name := "init".toList } else .zero

/-- **`init` is not shown**: its line reads `%-4d %-8s %-15s 1  %-10d …`. -/
theorem not_procdump_shows :
    ¬ ∀ (build : Build) (t : Table) (p : Slot), (t p).state ≠ .unused →
      ∃ pieces, procdumpLine build (t p) = some pieces ∧ Shown build (t p) pieces := by
  intro h
  obtain ⟨pieces, hline, hshown⟩ := h .mlfq onlyInit 0 (by decide)
  have hargs : (procdumpLine .mlfq (onlyInit 0)).map shownArgs = some ["1".toList] := by decide
  rw [hline, Option.map_some, hshown.args] at hargs
  exact absurd hargs (by decide)

end MiniProject.Kernel
