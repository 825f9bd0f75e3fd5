import MiniProject.Machinery.FirstSeen
import MiniProject.Machinery.Qsort
import MiniProject.Machinery.Strtol
import MiniProject.Machinery.TextFile
import MiniProject.Shell.Token

/-!
# Shell/Spy — the mapped files of a process

`spy` takes for a mapped file whatever stands behind the last blank of a line of `/proc/<pid>/maps`
and begins with a slash, and it prints what is not in a table of 256 yet.  The kernel writes the
path of a file as it is, blanks included, and the name of an anonymous mapping in brackets.  So the
`mem` rows are the mapped files, each once, exactly if no path has a blank, no name in brackets
passes for a file that is not the next to come anyway, and nothing that finds the table full comes
up twice (`lists_iff`).
-/

namespace MiniProject.Shell.Spy

/-! ## `spying` -/

/-- What the macros of `st_mode` tell apart. -/
inductive FileType
  | reg | dir | chr | blk | fifo | lnk | sock | other
  deriving DecidableEq, Repr

/-- `type_from_mode`. -/
def typeFromMode : FileType → Text
  | .reg => "REG".toList
  | .dir => "DIR".toList
  | .chr => "CHR".toList
  | .blk => "BLK".toList
  | .fifo => "FIFO".toList
  | .lnk => "LNK".toList
  | .sock => "SOCK".toList
  | .other => "UNKNOWN".toList

/-- The type of what `stat` found; it may have failed. -/
def typeOf (stat : Option FileType) : Text := stat.elim "UNKNOWN".toList typeFromMode

/-- A directory of `/proc`: links and files that cannot be read are `none`. -/
structure ProcDir where
  permitted : Bool -- `kill(pid, 0)` does not fail with `EPERM`
  accessible : Bool -- nor `opendir` of `fd` with `EACCES`
  cwd : Option Text
  exe : Option Text
  maps : Option Text
  fds : Option (List Text)
  fdLink : Text → Option Text
  fdStat : Text → Option FileType

/-- What `spy` asks the system. -/
structure System where
  self : ℤ
  proc : ℤ → Option ProcDir
  stat : Text → Option FileType
  qsort : (Text → Text → ℤ) → List Text → List Text

/-- The column `FD`. -/
inductive Column
  | cwd | txt | mem
  | fd (name : Text)
  deriving DecidableEq, Repr

/-- A row of the table. -/
structure Row where
  column : Column
  type : Text
  path : Text
  deriving DecidableEq, Repr

/-- `readlink` into a buffer of 4096; an empty link is none. -/
def readlink (link : Option Text) : Option Text := (link.filter (· ≠ [])).map (·.take 4095)

/-- `strrchr(text, c)`, and one further. -/
def behindLast (c : Char) : Text → Option Text
  | [] => none
  | d :: text => (behindLast c text).or (if d = c then some text else none)

/-- The path that a line of `maps` is taken to have. -/
def pathOf (line : Text) : Option Text :=
  match behindLast ' ' line with
  | none => none
  | some behind =>
    if (behind.takeWhile (· ≠ '\n')).head? = some '/' then some (behind.takeWhile (· ≠ '\n'))
    else none

namespace System

variable (sys : System)

/-- A mapped file. -/
def memRow (path : Text) : Row := ⟨.mem, typeOf (sys.stat path), path⟩

/-- The loop over `maps` for one line; `seen[0..seen_count)` and the rows. -/
def memStep (s : List Text × List Row) (line : Text) : List Text × List Row :=
  match pathOf line with
  | none => s
  | some path =>
    if path ∈ s.1 then s
    else (if s.1.length < 256 then s.1 ++ [path.take 4095] else s.1, s.2 ++ [sys.memRow path])

/-- The rows of `maps`. -/
def memRows (maps : Text) : List Row := ((fgetsAll 4200 maps).foldl sys.memStep ([], [])).2

/-- `cmp_fd_names`. -/
def cmpFdNames (a b : Text) : ℤ := castInt (strtol a).1 - castInt (strtol b).1

/-- The rows of `fd`; sockets are left out. -/
def fdRows (dir : ProcDir) (entries : List Text) : List Row :=
  let names := (entries.filter fun e => e ≠ ".".toList ∧ e ≠ "..".toList).take 4096
  (sys.qsort cmpFdNames names).filterMap fun name =>
    match readlink (dir.fdLink name) with
    | none => none
    | some path =>
      if typeOf (dir.fdStat name) = "SOCK".toList then none
      else some ⟨.fd name, typeOf (dir.fdStat name), path⟩

/-- The table of a process. -/
def rows (dir : ProcDir) : List Row :=
  ((readlink dir.cwd).map fun path => (⟨.cwd, "DIR".toList, path⟩ : Row)).toList ++
    ((readlink dir.exe).map fun path => (⟨.txt, typeOf (sys.stat path), path⟩ : Row)).toList ++
    (dir.maps.map sys.memRows).getD [] ++ (dir.fds.map (sys.fdRows dir)).getD []

/-- The process that is asked for. -/
def target (args : List Text) : Option ℤ :=
  match args with
  | [] => some sys.self
  | arg :: _ =>
    if (strtol arg).2 ≠ [] ∨ (strtol arg).1 < 0 then none else some (castInt (strtol arg).1)

/-- `spying` with at most one argument: what it has to say instead, or the process and its table. -/
def spying (args : List Text) : Except Text (ℤ × List Row) :=
  if args.length > 1 then .error "spy: invalid syntax\n".toList
  else
    match sys.target args with
    | none => .error "spy: no such process\n".toList
    | some pid =>
      match sys.proc pid with
      | none => .error "spy: no such process\n".toList
      | some dir =>
        if dir.permitted = false ∨ dir.accessible = false then
          .error "spy: permission denied\n".toList
        else .ok (pid, sys.rows dir)

end System

/-- The text of the column. -/
def Column.text : Column → Text
  | .cwd => "cwd".toList
  | .txt => "txt".toList
  | .mem => "mem".toList
  | .fd name => name

/-- The line of a row. -/
def Row.line (pid : ℤ) (r : Row) : Text :=
  (toString pid).toList ++ '\t' :: r.column.text ++ '\t' :: r.type ++ '\t' :: r.path ++ ['\n']

/-- What is printed. -/
def printed : Except Text (ℤ × List Row) → List Text
  | .error message => [message]
  | .ok (pid, rows) => "PID\tFD\tTYPE\tPATH\n".toList :: rows.map (Row.line pid)

/-! ## `/proc/<pid>/maps` as the kernel writes it -/

/-- A line of `maps`: the fields up to the inode, with the blanks behind them, and the name, which
is empty for an anonymous mapping.  The fields are 87 bytes at most, and an end of a line in a path
is written `\012`. -/
structure Mapping where
  fields : Text
  name : Text
  blank : fields.getLast? = some ' '
  narrow : fields.length ≤ 103
  short : name.length < 4096
  unbroken : '\n' ∉ fields ++ name

namespace Mapping

variable (m : Mapping)

def line : Text := m.fields ++ m.name ++ ['\n']

/-- The mapping is of a file; other names are in brackets, or there is none. -/
def isFile : Bool := m.name.head? = some '/'

/-- What stands behind the last blank of the line. -/
def text : Text := (behindLast ' ' m.name).getD m.name

/-- The path that the line shows. -/
def shown : Option Text := if m.text.head? = some '/' then some m.text else none

end Mapping

/-- The paths of the mapped files, one for each mapping. -/
def mapped (ms : List Mapping) : List Text := (ms.filter Mapping.isFile).map Mapping.name

/-- **One `mem` row for each mapped file**, in order of first appearance, and no other. -/
def Lists (sys : System) (ms : List Mapping) (rows : List Row) : Prop :=
  rows.filter (·.column = .mem) = (mapped ms).eraseDups.map sys.memRow

/-- Whatever passes for a file without being one has the text of a file that is `seen` already or
is the next to be. -/
def Harmless : List Text → List Mapping → Prop
  | _, [] => True
  | seen, m :: ms =>
    (m.isFile = false → ∀ path ∈ m.shown,
      path ∈ seen ∨ (mapped ms).find? (· ∉ seen) = some path) ∧
    Harmless (seen ++ m.shown.toList) ms

instance decidableHarmless : ∀ (seen : List Text) (ms : List Mapping), Decidable (Harmless seen ms)
  | _, [] => isTrue trivial
  | seen, m :: ms =>
    have := decidableHarmless (seen ++ m.shown.toList) ms
    inferInstanceAs (Decidable (_ ∧ _))

/-- What `spy` needs of the names in `maps`. -/
structure Readable (ms : List Mapping) : Prop where
  noBlank : ∀ path ∈ mapped ms, ' ' ∉ path
  harmless : Harmless [] ms
  fits : ∀ path ∈ (ms.filterMap Mapping.shown).eraseDups.drop 256,
    (ms.filterMap Mapping.shown).count path = 1

/-! ## The path of a line -/

theorem behindLast_eq_none_iff {c : Char} {text : Text} : behindLast c text = none ↔ c ∉ text := by
  induction text with
  | nil => simp [behindLast]
  | cons d text ih =>
    rw [behindLast, Option.or_eq_none_iff, ih, List.mem_cons, not_or, eq_comm (a := c), and_comm]
    simp

/-- **Behind the last one there is no other.** -/
theorem behindLast_eq_some_iff {c : Char} {text behind : Text} :
    behindLast c text = some behind ↔ c ∉ behind ∧ ∃ front, text = front ++ c :: behind := by
  induction text with
  | nil => simp [behindLast]
  | cons d text ih =>
    rcases hrest : behindLast c text with _ | rest
    · have hnone := behindLast_eq_none_iff.mp hrest
      rw [behindLast, hrest, Option.none_or]
      constructor
      · intro h
        split at h
        · rename_i hd
          cases h
          exact ⟨hnone, [], by rw [hd]; rfl⟩
        · cases h
      · rintro ⟨-, front, heq⟩
        cases front with
        | nil =>
          obtain ⟨rfl, rfl⟩ := List.cons_eq_cons.mp heq
          rw [if_pos rfl]
        | cons e front =>
          obtain ⟨-, rfl⟩ := List.cons_eq_cons.mp heq
          exact absurd (List.mem_append_right front List.mem_cons_self) hnone
    · rw [behindLast, hrest, Option.some_or, ← hrest, ih]
      refine and_congr_right fun hbehind => ⟨fun ⟨front, heq⟩ => ⟨d :: front, by rw [heq]; rfl⟩, ?_⟩
      rintro ⟨front, heq⟩
      cases front with
      | nil =>
        obtain ⟨-, rfl⟩ := List.cons_eq_cons.mp heq
        rw [behindLast_eq_none_iff.mpr hbehind] at hrest
        cases hrest
      | cons e front => exact ⟨front, (List.cons_eq_cons.mp heq).2⟩

namespace Mapping

variable {m : Mapping}

/-- The text is the end of the name, and has no blank. -/
theorem text_spec (m : Mapping) : ' ' ∉ m.text ∧ ∃ front, m.name = front ++ m.text := by
  rw [text]
  rcases hname : behindLast ' ' m.name with _ | behind
  · exact ⟨behindLast_eq_none_iff.mp hname, [], rfl⟩
  · obtain ⟨hbehind, front, heq⟩ := behindLast_eq_some_iff.mp hname
    exact ⟨hbehind, front ++ [' '], by rw [heq]; simp⟩

theorem text_of_noBlank (h : ' ' ∉ m.name) : m.text = m.name := by
  rw [text, behindLast_eq_none_iff.mpr h, Option.getD_none]

/-- The blanks behind the fields count too. -/
theorem behindLast_line (m : Mapping) : behindLast ' ' m.line = some (m.text ++ ['\n']) := by
  obtain ⟨front, hfields⟩ := List.getLast?_eq_some_iff.mp m.blank
  rw [behindLast_eq_some_iff]
  refine ⟨by simpa using m.text_spec.1, ?_⟩
  rcases hname : behindLast ' ' m.name with _ | behind
  · exact ⟨front, by simp [line, hfields, text, hname]⟩
  · obtain ⟨-, front', heq⟩ := behindLast_eq_some_iff.mp hname
    refine ⟨m.fields ++ front', ?_⟩
    rw [text, hname, line, heq]
    simp

/-- **The path of a line.** -/
theorem pathOf_line (m : Mapping) : pathOf m.line = m.shown := by
  have hbreak : ∀ c ∈ m.text, c ≠ '\n' := by
    rintro c hc rfl
    obtain ⟨front, hname⟩ := m.text_spec.2
    exact m.unbroken (List.mem_append_right _ (hname ▸ List.mem_append_right _ hc))
  have htake : (m.text ++ ['\n']).takeWhile (· ≠ '\n') = m.text := by
    rw [List.takeWhile_append_of_pos (by simpa using hbreak)]
    simp
  rw [pathOf, m.behindLast_line]
  dsimp only
  rw [htake, shown]

end Mapping

/-! ## The rows of `maps` -/

namespace System

variable {sys : System}

/-- **The loop is the library's.** -/
theorem foldl_memStep {ls : List Text} (h : ∀ line ∈ ls, ∀ path ∈ pathOf line, path.length ≤ 4095)
    (seen : List Text) (rows : List Row) :
    (ls.foldl sys.memStep (seen, rows)).2
      = rows ++ (firstSeen 256 seen (ls.filterMap pathOf)).map sys.memRow := by
  induction ls generalizing seen rows with
  | nil => simp [firstSeen]
  | cons line ls ih =>
    obtain ⟨hline, h⟩ := List.forall_mem_cons.mp h
    rw [List.foldl_cons, memStep]
    rcases hpath : pathOf line with _ | path
    · rw [List.filterMap_cons_none hpath]
      exact ih h _ _
    · rw [List.filterMap_cons_some hpath, firstSeen]
      dsimp only
      by_cases hseen : path ∈ seen
      · rw [if_pos hseen, if_pos hseen]
        exact ih h _ _
      · rw [if_neg hseen, if_neg hseen, List.take_of_length_le (hline path hpath), ih h]
        simp

/-- **The rows of `maps`** are the paths that its lines show, by a table of 256. -/
theorem memRows_flatMap (ms : List Mapping) : sys.memRows (ms.flatMap Mapping.line)
    = (firstSeen 256 [] (ms.filterMap Mapping.shown)).map sys.memRow := by
  have hlines : fgetsAll 4200 (ms.flatMap Mapping.line) = ms.map Mapping.line := by
    have hbreak : ∀ line ∈ ms.map fun m => m.fields ++ m.name, '\n' ∉ line :=
      List.forall_mem_map.mpr fun m _ => m.unbroken
    have hfits : ∀ line ∈ ms.map fun m => m.fields ++ m.name, line.length + 1 < 4200 := by
      refine List.forall_mem_map.mpr fun m _ => ?_
      have hnarrow := m.narrow
      have hshort := m.short
      rw [List.length_append]
      omega
    have hall := fgetsAll_flatMap hbreak hfits
    rwa [List.flatMap_map, List.map_map] at hall
  rw [memRows, hlines, foldl_memStep, List.nil_append, List.filterMap_map]
  · exact congrArg (fun paths => (firstSeen 256 [] paths).map sys.memRow)
      (List.filterMap_congr fun m _ => m.pathOf_line)
  · intro line hline path hpath
    obtain ⟨m, -, rfl⟩ := List.mem_map.mp hline
    rw [m.pathOf_line, Mapping.shown] at hpath
    split at hpath
    · cases hpath
      obtain ⟨front, hname⟩ := m.text_spec.2
      have hlen := congrArg List.length hname
      have := m.short
      rw [List.length_append] at hlen
      omega
    · cases hpath

end System

/-! ## What is shown and what is mapped -/

variable {ms : List Mapping} {m : Mapping} {sys : System} {args : List Text} {pid : ℤ}
  {rows : List Row} {dir : ProcDir}

theorem mapped_cons_of_isFile (h : m.isFile = true) (ms : List Mapping) :
    mapped (m :: ms) = m.name :: mapped ms := by
  rw [mapped, List.filter_cons_of_pos h, List.map_cons, mapped]

theorem mapped_cons_of_not (h : m.isFile = false) (ms : List Mapping) :
    mapped (m :: ms) = mapped ms := by
  rw [mapped, List.filter_cons_of_neg (by simp [h]), mapped]

theorem Mapping.shown_of_isFile (h : m.isFile = true) (hblank : ' ' ∉ m.name) :
    m.shown = some m.name := by
  rw [shown, text_of_noBlank hblank, if_pos (by simpa [isFile] using h)]

/-- **The new ones of both are the same exactly if what only passes for a file is harmless.** -/
theorem newOnes_shown_iff (hblank : ∀ path ∈ mapped ms, ' ' ∉ path) (seen : List Text) :
    newOnes seen (ms.filterMap Mapping.shown) = newOnes seen (mapped ms) ↔ Harmless seen ms := by
  induction ms generalizing seen with
  | nil => exact iff_of_true rfl trivial
  | cons m ms ih =>
    rw [Harmless]
    rcases hfile : m.isFile with _ | _
    · rw [mapped_cons_of_not hfile] at hblank ⊢
      rcases hshown : m.shown with _ | path
      · rw [List.filterMap_cons_none hshown, Option.toList_none, List.append_nil, ih hblank]
        simp
      · rw [List.filterMap_cons_some hshown, Option.toList_some, ← ih hblank]
        by_cases hseen : path ∈ seen
        · rw [newOnes_cons_of_mem hseen, newOnes_append_of_mem (.inl hseen),
            newOnes_append_of_mem (.inl hseen)]
          simp [hseen]
        · rw [newOnes_cons_of_notMem hseen, cons_eq_newOnes_iff]
          simp [hseen]
    · rw [mapped_cons_of_isFile hfile] at hblank ⊢
      obtain ⟨hname, hblank⟩ := List.forall_mem_cons.mp hblank
      have hshown := Mapping.shown_of_isFile hfile hname
      rw [List.filterMap_cons_some hshown, hshown, Option.toList_some, ← ih hblank]
      by_cases hseen : m.name ∈ seen
      · rw [newOnes_cons_of_mem hseen, newOnes_cons_of_mem hseen,
          newOnes_append_of_mem (.inl hseen), newOnes_append_of_mem (.inl hseen)]
        simp
      · rw [newOnes_cons_of_notMem hseen, newOnes_cons_of_notMem hseen, List.cons_inj_right]
        simp

/-- What is shown has no blank. -/
theorem noBlank_of_shown {path : Text} (h : path ∈ ms.filterMap Mapping.shown) : ' ' ∉ path := by
  obtain ⟨m, -, hshown⟩ := List.mem_filterMap.mp h
  rw [Mapping.shown] at hshown
  split at hshown
  · cases hshown
    exact m.text_spec.1
  · cases hshown

/-- **The table of 256 gives the mapped files exactly if the names are readable.** -/
theorem firstSeen_shown_iff :
    firstSeen 256 [] (ms.filterMap Mapping.shown) = (mapped ms).eraseDups ↔ Readable ms := by
  constructor
  · intro h
    have hblank : ∀ path ∈ mapped ms, ' ' ∉ path := fun path hpath =>
      noBlank_of_shown (mem_firstSeen.mp (h ▸ List.mem_eraseDups.mpr hpath)).1
    have hnew := firstSeen_eq_of_nodup (h.symm ▸ nodup_eraseDups (mapped ms))
    refine ⟨hblank, (newOnes_shown_iff hblank []).mp ?_, ?_⟩
    · rw [← hnew, h, newOnes_nil_left]
    · rw [← newOnes_nil_left]
      exact firstSeen_eq_iff.mp hnew
  · rintro ⟨hblank, hharmless, hfits⟩
    rw [← newOnes_nil_left] at hfits
    rw [firstSeen_eq_iff.mpr hfits, (newOnes_shown_iff hblank []).mpr hharmless, newOnes_nil_left]

theorem harmless_of_plain (h : ∀ m ∈ ms, m.isFile = false → m.shown = none) (seen : List Text) :
    Harmless seen ms := by
  induction ms generalizing seen with
  | nil => trivial
  | cons m ms ih =>
    obtain ⟨hm, h⟩ := List.forall_mem_cons.mp h
    refine ⟨fun hfile path hpath => ?_, ih h _⟩
    rw [hm hfile] at hpath
    cases hpath

/-- **The names of an ordinary process are readable**: no path has a blank, nothing in brackets
passes for a file, and there are no more files than places in the table. -/
theorem readable_of_plain (hblank : ∀ path ∈ mapped ms, ' ' ∉ path)
    (hplain : ∀ m ∈ ms, m.isFile = false → m.shown = none)
    (hfew : (mapped ms).eraseDups.length ≤ 256) : Readable ms := by
  have hharmless := harmless_of_plain hplain []
  refine ⟨hblank, hharmless, fun path hpath => ?_⟩
  rw [← newOnes_nil_left, (newOnes_shown_iff hblank []).mpr hharmless, newOnes_nil_left,
    List.drop_eq_nil_of_le hfew] at hpath
  cases hpath

/-! ## The rows of `spy` -/

theorem System.spying_eq_ok (h : sys.spying args = .ok (pid, rows)) :
    ∃ dir, sys.proc pid = some dir ∧ rows = sys.rows dir := by
  rw [spying] at h
  split at h
  · cases h
  split at h
  · cases h
  split at h
  · cases h
  split at h
  · cases h
  · rename_i hdir _
    cases h
    exact ⟨_, hdir, rfl⟩

/-- The `mem` rows of the table are those of `maps`. -/
theorem System.filter_rows (hmaps : dir.maps = some (ms.flatMap Mapping.line)) :
    (sys.rows dir).filter (·.column = .mem) = sys.memRows (ms.flatMap Mapping.line) := by
  have hfds : ∀ entries, (sys.fdRows dir entries).filter (·.column = .mem) = [] := by
    intro entries
    refine List.filter_eq_nil_iff.mpr fun r hr => ?_
    obtain ⟨name, -, hname⟩ := List.mem_filterMap.mp hr
    split at hname
    · cases hname
    · split at hname
      · cases hname
      · cases hname
        simp
  have hmem : (sys.memRows (ms.flatMap Mapping.line)).filter (·.column = .mem)
      = sys.memRows (ms.flatMap Mapping.line) := by
    rw [memRows_flatMap]
    refine List.filter_eq_self.mpr (List.forall_mem_map.mpr fun path _ => ?_)
    simp [memRow]
  rw [rows, hmaps, List.filter_append, List.filter_append, List.filter_append, Option.map_some,
    Option.getD_some, hmem]
  cases readlink dir.cwd <;> cases readlink dir.exe <;> cases dir.fds <;> simp [hfds]

/-- **`spy` prints one `mem` row for each mapped file exactly if the names in `maps` are
readable.** -/
theorem lists_iff (hrun : sys.spying args = .ok (pid, rows)) (hdir : sys.proc pid = some dir)
    (hmaps : dir.maps = some (ms.flatMap Mapping.line)) : Lists sys ms rows ↔ Readable ms := by
  obtain ⟨dir', hdir', rfl⟩ := System.spying_eq_ok hrun
  obtain rfl : dir = dir' := Option.some.inj (hdir.symm.trans hdir')
  rw [Lists, System.filter_rows hmaps, System.memRows_flatMap,
    List.map_inj_right fun path path' h => congrArg Row.path h]
  exact firstSeen_shown_iff

/-- A mapping of this name. -/
def Mapping.of (name : Text) (short : name.length < 4096) (unbroken : '\n' ∉ name) : Mapping where
  fields := "7f0000000000-7f0000001000 r--p 00000000 08:01 42 ".toList
  name := name
  blank := by decide
  narrow := by decide
  short := short
  unbroken h := (List.mem_append.mp h).elim (by decide) unbroken

/-- The directory of a process with these mappings and nothing open. -/
def ProcDir.mapping (ms : List Mapping) : ProcDir :=
  ⟨true, true, none, none, some (ms.flatMap Mapping.line), none, fun _ => none, fun _ => none⟩

/-- A system where every process has it and every path is a regular file. -/
def System.showing (ms : List Mapping) : System :=
  ⟨7, fun _ => some (.mapping ms), fun _ => some .reg, mergeQsort⟩

/-- A library that is mapped twice, with the heap and an anonymous mapping between. -/
def libraryTwice : List Mapping :=
  [.of "/lib/c.so".toList (by decide) (by decide), .of "[heap]".toList (by decide) (by decide),
    .of [] (by decide) (by decide), .of "/lib/c.so".toList (by decide) (by decide)]

theorem lists_iff_library : Lists (.showing libraryTwice) libraryTwice
    ((System.showing libraryTwice).rows (.mapping libraryTwice)) := by
  have hrun : (System.showing libraryTwice).spying [] = .ok (7, _) := rfl
  exact (lists_iff hrun rfl rfl).mpr ⟨by decide, by decide, by decide⟩

/-- A file whose name has a blank. -/
def blankPath : List Mapping := [.of "/tmp/a b".toList (by decide) (by decide)]

/-- **It has no row.** -/
theorem not_lists_blank :
    (System.showing blankPath).spying []
        = .ok (7, (System.showing blankPath).rows (.mapping blankPath)) ∧
      ((System.showing blankPath).rows (.mapping blankPath)).filter (·.column = .mem) = [] ∧
      ¬Lists (.showing blankPath) blankPath
        ((System.showing blankPath).rows (.mapping blankPath)) := by
  have hnone : ((System.showing blankPath).rows (.mapping blankPath)).filter (·.column = .mem)
      = [] := by decide
  refine ⟨rfl, hnone, fun h => ?_⟩
  rw [Lists, hnone] at h
  exact absurd h (by decide)

end MiniProject.Shell.Spy
