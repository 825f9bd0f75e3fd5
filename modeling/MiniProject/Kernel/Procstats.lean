import MiniProject.Kernel.Printk
import MiniProject.Machinery.Regex
import MiniProject.Machinery.TextFile

/-!
# Kernel/Procstats — the `PROCSTATS` line, written and read back

`kexit` prints a line of six fields with commas between them, and `compare_schedulers.py` reads it
with a regular expression that takes the name for the longest stretch without a comma.  The name is
what `kexec` has stored: the last component of a path, cut to 15 bytes, and otherwise any bytes.
The line is read back as it was meant if the name decodes, is not empty, and has neither a comma nor
an end of a line in it (`readsBack_iff`).
-/

namespace MiniProject.Kernel

/-! ## Written -/

/-- The loop of `kexec` over the path: `last` is behind the last `/`. -/
def lastFrom (last : List Char) : List Char → List Char
  | [] => last
  | c :: s => lastFrom (if c = '/' then s else last) s

/-- `safestrcpy`. -/
def safestrcpy (t : List Char) (n : ℕ) : List Char := t.take (n - 1)

/-- The name that `kexec(path, …)` stores; `p->name` has 16 bytes. -/
def kexecName (path : List Char) : List Char := safestrcpy (lastFrom path path) 16

/-- The line that `kexit` prints, once it has set `p->end_time`. -/
def procstats (x : Proc) : Option (List Piece) :=
  printk "PROCSTATS,%d,%s,%d,%d,%d,%d\n".toList
    [.int x.pid, .str x.name, .int x.creationTime, .int x.firstRunTime, .int x.endTime,
      .int x.cpuTicks]

example : kexecName "/bin/usertests".toList = "usertests".toList := by decide

example : kexecName "sh/".toList = [] := by decide

/-! ## Read back -/

/-- The decimal digits: what `\d` matches and `int` reads.  Below 128 there are ten. -/
structure Decimals where
  digit : Char → Option ℕ
  ascii : ∀ c : Char, c.toNat < 0x80 →
    digit c = if c.isDigit then some (c.toNat - '0'.toNat) else none

/-- `\d`. -/
def Decimals.isDecimal (u : Decimals) (c : Char) : Bool := (u.digit c).isSome

/-- `int(cs)`, of digits. -/
def Decimals.int (u : Decimals) (cs : List Char) : ℕ :=
  cs.foldl (fun n c => 10 * n + (u.digit c).getD 0) 0

/-- A row of `parse_procstats`. -/
structure ParsedRow where
  pid : ℕ
  name : List Char
  creation : ℕ
  firstRun : ℕ
  endTime : ℕ
  cpuTicks : ℕ
  deriving DecidableEq, Repr

/-- What a line begins with. -/
def tag : List Char := "PROCSTATS,".toList

/-- `r'PROCSTATS,(\d+),([^,]+),(\d+),(\d+),(\d+),(\d+)'`. -/
def pattern (u : Decimals) : List Item :=
  tag.map .lit ++
    [.group u.isDecimal, .lit ',', .group (· ≠ ','), .lit ',', .group u.isDecimal, .lit ',',
      .group u.isDecimal, .lit ',', .group u.isDecimal, .lit ',', .group u.isDecimal]

/-- The row of `m.groups()`. -/
def ParsedRow.ofGroups (u : Decimals) : List (List Char) → Option ParsedRow
  | [pid, name, creation, firstRun, endTime, cpuTicks] =>
    some
      { pid := u.int pid
        name
        creation := u.int creation
        firstRun := u.int firstRun
        endTime := u.int endTime
        cpuTicks := u.int cpuTicks }
  | _ => none

/-- The body of the loop: the row of a line, if it has one. -/
def parseLine (u : Decimals) (line : List Char) : Option ParsedRow :=
  (search (pattern u) line).bind (ParsedRow.ofGroups u)

/-- `parse_procstats`, on the bytes of the file; `none` is a `UnicodeDecodeError`. -/
def parseProcstats (u : Decimals) (bytes : List Char) : Option (List ParsedRow) :=
  (decode bytes).map fun text => (lines (newlines text)).filterMap (parseLine u)

/-! ## What is to come back -/

/-- The fields, as C has them; the times are below `2 ^ 31`. -/
structure Proc.Fields (x : Proc) : Prop where
  pid : -2 ^ 31 ≤ x.pid ∧ x.pid < 2 ^ 31
  creationTime : x.creationTime < 2 ^ 31
  firstRunTime : -2 ^ 31 ≤ x.firstRunTime ∧ x.firstRunTime < 2 ^ 31
  endTime : x.endTime < 2 ^ 31
  cpuTicks : -2 ^ 31 ≤ x.cpuTicks ∧ x.cpuTicks < 2 ^ 31

/-- A row has the values of a process. -/
structure ParsedRow.Of (row : ParsedRow) (x : Proc) : Prop where
  pid : (row.pid : ℤ) = x.pid
  name : decode x.name = some row.name
  creation : row.creation = x.creationTime
  firstRun : (row.firstRun : ℤ) = x.firstRunTime
  endTime : row.endTime = x.endTime
  cpuTicks : (row.cpuTicks : ℤ) = x.cpuTicks

/-- The line of a process is read as one row, with its values. -/
def ReadsBack (u : Decimals) (x : Proc) : Prop :=
  ∃ pieces row, procstats x = some pieces ∧ parseProcstats u (console pieces) = some [row] ∧
    row.Of x

/-- A name that stays what it is between two commas of a line. -/
def Readable (name : List Char) : Prop :=
  ∃ text, decode name = some text ∧ text ≠ [] ∧ ',' ∉ text ∧ '\n' ∉ text ∧ '\r' ∉ text

/-! ## Digits -/

variable {u : Decimals} {x : Proc} {c : Char} {items : List Item} {caps : List (List Char)}
  {text name : List Char}

theorem toNat_lt_of_isDigit (h : c.isDigit) : c.toNat < 0x80 :=
  Nat.lt_of_le_of_lt (Char.isDigit_iff_toNat.mp h).2 (by decide)

namespace Decimals

theorem digit_of_isDigit (h : c.isDigit) : u.digit c = some (c.toNat - '0'.toNat) := by
  rw [u.ascii c (toNat_lt_of_isDigit h), if_pos h]

/-- A comma or the end of the line is no digit. -/
theorem isDecimal_eq_false (hlt : c.toNat < 0x80) (h : ¬ c.isDigit) : u.isDecimal c = false := by
  rw [isDecimal, u.ascii c hlt, if_neg h]
  rfl

theorem isDecimal_of_mem_toDigits {n : ℕ} (h : c ∈ Nat.toDigits 10 n) : u.isDecimal c := by
  rw [isDecimal, digit_of_isDigit (Nat.isDigit_of_mem_toDigits (by decide) (by decide) h)]
  rfl

/-- **`int` reads what `%d` writes.** -/
theorem int_toDigits (n : ℕ) : u.int (Nat.toDigits 10 n) = n := by
  have hdigits : u.int (Nat.toDigits 10 n) = Nat.ofDigitChars 10 (Nat.toDigits 10 n) 0 := by
    rw [int, Nat.ofDigitChars_eq_foldl]
    refine List.foldl_ext _ _ 0 fun k c hc => ?_
    rw [digit_of_isDigit (Nat.isDigit_of_mem_toDigits (by decide) (by decide) hc)]
    rfl
  rw [hdigits, Nat.ofDigitChars_ten_toDigits]

/-- A number, with something behind it that is no digit. -/
theorem matchAt_number (n : ℕ) (hlt : c.toNat < 0x80) (hc : ¬ c.isDigit)
    (h : matchAt items (c :: text) = some caps) :
    matchAt (.group u.isDecimal :: items) (Nat.toDigits 10 n ++ c :: text) =
      some (Nat.toDigits 10 n :: caps) := by
  refine matchAt_group Nat.toDigits_ne_nil (fun _ => isDecimal_of_mem_toDigits) ?_ h
  rintro _ ⟨⟩
  exact isDecimal_eq_false hlt hc

end Decimals

/-! ## The line -/

/-- The line, with what stands in its fields. -/
def line (pid name creation firstRun endTime cpuTicks : List Char) : List Char :=
  tag ++ (pid ++ ',' :: (name ++ ',' :: (creation ++ ',' :: (firstRun ++ ',' ::
    (endTime ++ ',' :: (cpuTicks ++ ['\n']))))))

/-- The format has a conversion for each field, and nothing that `printk` does not know. -/
theorem procstats_eq (x : Proc) :
    procstats x = some (tag.map .plain ++
      [.arg (printint (int x.pid) 10), .plain ',', .arg x.name, .plain ',',
        .arg (printint (int x.creationTime) 10), .plain ',',
        .arg (printint (int x.firstRunTime) 10), .plain ',',
        .arg (printint (int x.endTime) 10), .plain ',', .arg (printint (int x.cpuTicks) 10),
        .plain '\n']) :=
  rfl

theorem console_fields (tag a b c d e f : List Char) :
    console (tag.map .plain ++
      [.arg a, .plain ',', .arg b, .plain ',', .arg c, .plain ',', .arg d, .plain ',', .arg e,
        .plain ',', .arg f, .plain '\n']) =
      tag ++ (a ++ ',' :: (b ++ ',' :: (c ++ ',' :: (d ++ ',' :: (e ++ ',' ::
        (f ++ ['\n'])))))) := by
  rw [console_append, console_map_plain]
  rfl

/-- **What `kexit` prints.** -/
theorem exists_procstats (x : Proc) :
    ∃ pieces, procstats x = some pieces ∧ console pieces =
      line (printint (int x.pid) 10) x.name (printint (int x.creationTime) 10)
        (printint (int x.firstRunTime) 10) (printint (int x.endTime) 10)
        (printint (int x.cpuTicks) 10) :=
  ⟨_, procstats_eq x, console_fields tag ..⟩

theorem printint_int {n : ℕ} (h : n < 2 ^ 31) : printint (int n) 10 = Nat.toDigits 10 n := by
  rw [int_of_lt (Int.natCast_nonneg n) (by exact_mod_cast h), printint,
    if_neg (Int.not_lt.mpr (Int.natCast_nonneg n)), Int.natAbs_natCast]

/-- The characters that the format and `%d` put there, but for the last. -/
def IsPlain (c : Char) : Prop := c.isDigit ∨ c ∈ tag

theorem IsPlain.spec (h : IsPlain c) : c.toNat < 0x80 ∧ c ≠ '\n' ∧ c ≠ '\r' := by
  rcases h with h | h
  · refine ⟨toNat_lt_of_isDigit h, ?_, ?_⟩ <;> rintro rfl <;> exact absurd h (by decide)
  · have hall : ∀ c ∈ tag, c.toNat < 0x80 ∧ c ≠ '\n' ∧ c ≠ '\r' :=
      List.all_iff_forall_prop.mp (by decide)
    exact hall c h

theorem isPlain_comma : IsPlain ',' := .inr (by decide)

theorem isPlain_of_mem_toDigits {n : ℕ} (h : c ∈ Nat.toDigits 10 n) : IsPlain c :=
  .inl (Nat.isDigit_of_mem_toDigits (by decide) (by decide) h)

/-- The line of numbers that are not negative. -/
def numberLine (pid : ℕ) (name : List Char) (creation firstRun endTime cpuTicks : ℕ) : List Char :=
  line (Nat.toDigits 10 pid) name (Nat.toDigits 10 creation) (Nat.toDigits 10 firstRun)
    (Nat.toDigits 10 endTime) (Nat.toDigits 10 cpuTicks)

variable (pid creation firstRun endTime cpuTicks : ℕ) {name text : List Char}

/-- **A line is plain** in front of its name and behind it. -/
theorem numberLine_split : ∃ before after, (∀ c ∈ before ++ after, IsPlain c) ∧
    ∀ name, numberLine pid name creation firstRun endTime cpuTicks =
      before ++ (name ++ (after ++ ['\n'])) := by
  refine ⟨tag ++ (Nat.toDigits 10 pid ++ [',']),
    ',' :: (Nat.toDigits 10 creation ++ ',' :: (Nat.toDigits 10 firstRun ++ ',' ::
      (Nat.toDigits 10 endTime ++ ',' :: Nat.toDigits 10 cpuTicks))), ?_, fun name => ?_⟩
  · intro c hc
    simp only [List.mem_append, List.mem_cons, List.not_mem_nil, or_false] at hc
    rcases hc with (hc | hc | rfl) | rfl | hc | rfl | hc | rfl | hc | rfl | hc
    · exact .inr hc
    all_goals first | exact isPlain_comma | exact isPlain_of_mem_toDigits hc
  · rw [numberLine, line]
    simp only [List.append_assoc, List.cons_append, List.nil_append]

/-- **A name without a comma is found** where it stands. -/
theorem parseLine_numberLine (hne : name ≠ []) (hcomma : ',' ∉ name) :
    parseLine u (numberLine pid name creation firstRun endTime cpuTicks) =
      some { pid, name, creation, firstRun, endTime, cpuTicks } := by
  have hmatch : matchAt (pattern u) (numberLine pid name creation firstRun endTime cpuTicks) =
      some [Nat.toDigits 10 pid, name, Nat.toDigits 10 creation, Nat.toDigits 10 firstRun,
        Nat.toDigits 10 endTime, Nat.toDigits 10 cpuTicks] := by
    have hcomma' : ¬ ','.isDigit := by decide
    rw [pattern, numberLine, line, matchAt_word]
    refine u.matchAt_number pid (by decide) hcomma' ((matchAt_lit ',').trans ?_)
    refine matchAt_group hne (fun c hc => ?_) ?_ ((matchAt_lit ',').trans ?_)
    · exact decide_eq_true fun h => hcomma (h ▸ hc)
    · rintro _ ⟨⟩
      rfl
    refine u.matchAt_number creation (by decide) hcomma' ((matchAt_lit ',').trans ?_)
    refine u.matchAt_number firstRun (by decide) hcomma' ((matchAt_lit ',').trans ?_)
    refine u.matchAt_number endTime (by decide) hcomma' ((matchAt_lit ',').trans ?_)
    exact u.matchAt_number cpuTicks (by decide) (by decide) rfl
  rw [parseLine, search_of_matchAt hmatch, Option.bind_some, ParsedRow.ofGroups]
  simp only [Decimals.int_toDigits]

/-- **A readable name comes back.** -/
theorem parseProcstats_numberLine (hdecode : decode name = some text) (hne : text ≠ [])
    (hcomma : ',' ∉ text) (hlf : '\n' ∉ text) (hcr : '\r' ∉ text) :
    parseProcstats u (numberLine pid name creation firstRun endTime cpuTicks) =
      some [{ pid, name := text, creation, firstRun, endTime, cpuTicks }] := by
  obtain ⟨before, after, hplain, hsplit⟩ :=
    numberLine_split pid creation firstRun endTime cpuTicks
  have hbefore : ∀ c ∈ before, c.toNat < 0x80 := fun c hc =>
    (hplain c (List.mem_append_left _ hc)).spec.1
  have hafter : ∀ c ∈ after ++ ['\n'], c.toNat < 0x80 := by
    intro c hc
    rcases List.mem_append.mp hc with hc | hc
    · exact (hplain c (List.mem_append_right _ hc)).spec.1
    · exact List.mem_singleton.mp hc ▸ by decide
  have hbytes : decode (numberLine pid name creation firstRun endTime cpuTicks) =
      some (numberLine pid text creation firstRun endTime cpuTicks) := by
    rw [hsplit, hsplit, decode_ascii_append hbefore, decode_append_ascii hafter, hdecode]
    rfl
  have hmem : ∀ c ∈ before ++ (text ++ after), c ≠ '\n' ∧ c ≠ '\r' := by
    intro c hc
    rcases List.mem_append.mp hc with hc | hc
    · exact (hplain c (List.mem_append_left _ hc)).spec.2
    · rcases List.mem_append.mp hc with hc | hc
      · exact ⟨fun h => hlf (h ▸ hc), fun h => hcr (h ▸ hc)⟩
      · exact (hplain c (List.mem_append_right _ hc)).spec.2
  have hone : numberLine pid text creation firstRun endTime cpuTicks =
      before ++ (text ++ after) ++ ['\n'] := by
    rw [hsplit, List.append_assoc, List.append_assoc]
  have hnewlines : newlines (before ++ (text ++ after) ++ ['\n']) =
      before ++ (text ++ after) ++ ['\n'] := by
    refine newlines_eq_self fun hmem' => ?_
    rcases List.mem_append.mp hmem' with hc | hc
    · exact (hmem _ hc).2 rfl
    · exact absurd (List.mem_singleton.mp hc) (by decide)
  rw [parseProcstats, hbytes, Option.map_some, hone, hnewlines,
    lines_singleton fun hc => (hmem _ hc).1 rfl, ← hone, List.filterMap_cons_some
      (parseLine_numberLine pid creation firstRun endTime cpuTicks hne hcomma), List.filterMap_nil]

/-- The line of a process with such numbers. -/
theorem exists_numberLine (hx : x.Fields) (hpid : x.pid = pid) (hfirst : x.firstRunTime = firstRun)
    (hcpu : x.cpuTicks = cpuTicks) :
    ∃ pieces, procstats x = some pieces ∧
      console pieces = numberLine pid x.name x.creationTime firstRun x.endTime cpuTicks := by
  obtain ⟨pieces, hpieces, hchars⟩ := exists_procstats x
  have hpid' := hx.pid.2
  have hfirst' := hx.firstRunTime.2
  have hcpu' := hx.cpuTicks.2
  rw [hpid] at hpid'
  rw [hfirst] at hfirst'
  rw [hcpu] at hcpu'
  refine ⟨pieces, hpieces, ?_⟩
  rw [hchars, hpid, hfirst, hcpu, printint_int (by exact_mod_cast hpid'),
    printint_int hx.creationTime, printint_int (by exact_mod_cast hfirst'),
    printint_int hx.endTime, printint_int (by exact_mod_cast hcpu'), numberLine]

/-! ## What can be read at all -/

variable {pid creation firstRun endTime cpuTicks} {rows : List ParsedRow} {row : ParsedRow}

theorem ParsedRow.name_ofGroups {caps : List (List Char)} {pid : List Char}
    (h : ParsedRow.ofGroups u (pid :: name :: caps) = some row) : row.name = name := by
  rw [ofGroups.eq_def] at h
  split at h
  · rename_i heq
    cases heq
    cases h
    rfl
  · cases h

/-- **The name of a row is a piece of a line** between two commas. -/
theorem name_of_mem_parseProcstats {bytes : List Char} (h : parseProcstats u bytes = some rows)
    (hrow : row ∈ rows) :
    row.name ≠ [] ∧ ',' ∉ row.name ∧ '\n' ∉ row.name ∧ '\r' ∉ row.name := by
  obtain ⟨text, htext, rfl⟩ := Option.map_eq_some_iff.mp h
  obtain ⟨line, hline, hparse⟩ := List.mem_filterMap.mp hrow
  obtain ⟨caps, hsearch, hgroups⟩ := Option.bind_eq_some_iff.mp hparse
  obtain ⟨before, front, rest, heq, hfront⟩ := fits_of_search hsearch
  obtain ⟨tail, rfl, htail⟩ := hfront.of_word
  -- The second group, and the comma behind it.
  obtain ⟨pid, caps, tail, rfl, rfl, -, -, hpid⟩ := htail.of_group
  obtain ⟨tail, rfl, hcomma⟩ := hpid.of_lit
  obtain ⟨name, caps, tail, rfl, rfl, hne, hclass, hname⟩ := hcomma.of_group
  obtain ⟨tail, rfl, -⟩ := hname.of_lit
  have hinit : ∀ c ∈ name, c ∈ line.dropLast := by
    intro c hc
    have hline : line = (before ++ tag ++ pid ++ [','] ++ name) ++ ',' :: (tail ++ rest) := by
      rw [heq]
      simp only [List.append_assoc, List.cons_append, List.nil_append]
    rw [hline, List.dropLast_append_cons]
    exact List.mem_append_left _ (List.mem_append_right _ hc)
  rw [ParsedRow.name_ofGroups hgroups]
  refine ⟨hne, fun hc => ?_, fun hc => ?_, fun hc => ?_⟩
  · exact absurd (hclass _ hc) (by decide)
  · exact not_mem_dropLast hline (hinit _ hc)
  · exact not_mem_newlines text (mem_of_mem_lines hline (List.dropLast_subset _ (hinit _ hc)))

/-- **A name comes back** if and only if it is readable; the numbers do unless they have a sign. -/
theorem readsBack_iff (u : Decimals) (x : Proc) (path : List Char) (hname : x.name = kexecName path)
    (hx : x.Fields) :
    ReadsBack u x ↔
      Readable (kexecName path) ∧ 0 ≤ x.pid ∧ 0 ≤ x.firstRunTime ∧ 0 ≤ x.cpuTicks := by
  rw [← hname]
  constructor
  · rintro ⟨pieces, row, -, hparse, hrow⟩
    refine ⟨⟨row.name, hrow.name, name_of_mem_parseProcstats hparse List.mem_cons_self⟩, ?_⟩
    exact ⟨hrow.pid ▸ Int.natCast_nonneg _, hrow.firstRun ▸ Int.natCast_nonneg _,
      hrow.cpuTicks ▸ Int.natCast_nonneg _⟩
  · rintro ⟨⟨text, hdecode, hne, hcomma, hlf, hcr⟩, h0, h1, h2⟩
    obtain ⟨pid, hpid⟩ := Int.eq_ofNat_of_zero_le h0
    obtain ⟨firstRun, hfirst⟩ := Int.eq_ofNat_of_zero_le h1
    obtain ⟨cpuTicks, hcpu⟩ := Int.eq_ofNat_of_zero_le h2
    obtain ⟨pieces, hpieces, hline⟩ := exists_numberLine pid firstRun cpuTicks hx hpid hfirst hcpu
    have hparse := parseProcstats_numberLine (u := u) pid x.creationTime firstRun x.endTime cpuTicks
      hdecode hne hcomma hlf hcr
    exact ⟨pieces, _, hpieces, hline ▸ hparse,
      ⟨hpid.symm, hdecode, rfl, hfirst.symm, rfl, hcpu.symm⟩⟩

/-- The ten digits and no others. -/
private def Decimals.tenDigits : Decimals where
  digit c := if c.isDigit then some (c.toNat - '0'.toNat) else none
  ascii _ _ := rfl

/-- A program that has run from 100 to 120. -/
private def ranFrom100 (name : List Char) : Proc :=
  { Proc.zero with
    state := .running, pid := 4, name, creationTime := 100, firstRunTime := 101, endTime := 120
    cpuTicks := 7 }

/-- `/bin/sh` is read back. -/
theorem readsBack_iff_sh : ReadsBack .tenDigits (ranFrom100 (kexecName "/bin/sh".toList)) := by
  refine (readsBack_iff _ _ "/bin/sh".toList rfl ?_).mpr ⟨⟨"sh".toList, ?_⟩, ?_⟩
  · constructor <;> decide
  · decide
  · decide

/-- **A comma splits a name**: of `a,b` there is no row. -/
theorem not_readsBack :
    ¬ ∀ (u : Decimals) (x : Proc) (path : List Char), x.name = kexecName path → x.Fields →
      0 ≤ x.pid → 0 ≤ x.firstRunTime → 0 ≤ x.cpuTicks → ReadsBack u x := by
  intro h
  obtain ⟨pieces, row, -, hparse, hrow⟩ := h .tenDigits (ranFrom100 (kexecName "/a,b".toList))
    "/a,b".toList rfl (by constructor <;> decide) (by decide) (by decide) (by decide)
  obtain ⟨-, hcomma, -⟩ := name_of_mem_parseProcstats hparse List.mem_cons_self
  have hname : decode (ranFrom100 (kexecName "/a,b".toList)).name = some "a,b".toList := by decide
  rw [← Option.some.inj (hname.symm.trans hrow.name)] at hcomma
  exact hcomma (by decide)

end MiniProject.Kernel
