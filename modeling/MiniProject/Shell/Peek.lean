import Mathlib.Data.List.TakeWhile
import MiniProject.Machinery.TextFile
import MiniProject.Shell.Frecency

/-!
# Shell/Peek — files printed line by line

`peek` reads a whole file into a buffer that doubles, cuts it into lines, and prints each with
`"%s"`, so a line ends for it where its first NUL byte is; it counts the lines with an `int`.  So
what it prints is what the files contain exactly if there is no NUL byte in them, and none has 2³¹
lines (`prints_iff`).
-/

namespace MiniProject.Shell.Peek

/-! ## The buffer -/

/-- What one `read` puts into `chunk`. -/
structure Chunk where
  bytes : Text
  nonempty : bytes ≠ []
  fits : bytes.length ≤ 1024

/-- `while (sz + (size_t)bytes >= cap) cap *= 2`. -/
def grow (need cap : ℕ) (h : 0 < cap) : ℕ :=
  if need < cap then cap else grow need (cap * 2) (by omega)
termination_by need + 1 - cap

theorem lt_grow (need cap : ℕ) (h : 0 < cap) : need < grow need cap h := by
  fun_induction grow with
  | case1 cap h hlt => exact hlt
  | case2 cap h hle ih => exact ih

/-- `buf` up to `sz`, and its capacity. -/
structure Buffer where
  cap : ℕ
  bytes : Text
  room : bytes.length < cap

/-- `malloc(cap)`. -/
def Buffer.initial : Buffer := ⟨5000, [], by decide⟩

/-- The body of the loop: the chunk goes behind what there is. -/
def Buffer.push (b : Buffer) (chunk : Chunk) : Buffer where
  cap := grow (b.bytes.length + chunk.bytes.length) b.cap (Nat.zero_lt_of_lt b.room)
  bytes := b.bytes ++ chunk.bytes
  room := by
    rw [List.length_append]
    exact lt_grow _ _ _

/-- The loop over what the `read`s get. -/
def fill (chunks : List Chunk) : Buffer := chunks.foldl Buffer.push .initial

/-- What is in a file. -/
def content (chunks : List Chunk) : Text := chunks.flatMap Chunk.bytes

/-- **The buffer has the file**, however it was read. -/
theorem bytes_fill (chunks : List Chunk) : (fill chunks).bytes = content chunks := by
  have key : ∀ b : Buffer, (chunks.foldl Buffer.push b).bytes = b.bytes ++ content chunks := by
    induction chunks with
    | nil => exact fun b => (List.append_nil _).symm
    | cons chunk chunks ih =>
      intro b
      rw [List.foldl_cons, ih, Buffer.push, List.append_assoc]
      rfl
  exact key _

/-! ## Lines and numbers -/

/-- `pline`. -/
structure PLine where
  text : Text
  number : ℤ
  deriving DecidableEq, Repr

/-- `(len == 0) ? 0 : (*next)++`, and `*next` after it. -/
def number (next : ℤ) (text : Text) : ℤ × ℤ :=
  if text = [] then (0, next) else (next, wrapInt (next + 1))

/-- The loop that cuts the buffer: `line` is `buf` from `start` to `i`, and `lcount` lines are
there.  `None` where `lcount` overflows. -/
def cut (line : Text) (next : ℤ) (lcount : ℕ) : Text → Option (List PLine × ℤ)
  | [] =>
    if line = [] then some ([], next)
    else if lcount + 1 < 2 ^ 31 then
      some ([⟨line, (number next line).1⟩], (number next line).2)
    else none
  | c :: bytes =>
    if c = '\n' then
      if lcount + 1 < 2 ^ 31 then
        (cut [] (number next line).2 (lcount + 1) bytes).map fun p =>
          (⟨line, (number next line).1⟩ :: p.1, p.2)
      else none
    else cut (line ++ [c]) next lcount bytes

/-- What a turn of the printing loops prints: the number if there is one, the text, and the end of
the line if it gets one. -/
structure Shown where
  number : Option ℤ
  text : Text
  newline : Bool
  deriving DecidableEq, Repr

/-- …in bytes. -/
def Shown.bytes (s : Shown) : Text :=
  (match s.number with
    | some n => printInt n ++ [' ']
    | none => []) ++ s.text ++ if s.newline then ['\n'] else []

/-- A text as `"%s"` takes it. -/
def cString (text : Text) : Text := text.takeWhile (· ≠ '\x00')

/-- The number and the text of a turn. -/
def shown (nflag newline : Bool) (l : PLine) : Shown :=
  ⟨if nflag ∧ l.number ≠ 0 then some l.number else none, cString l.text, newline⟩

/-- The printing loops: the last line they come to has an end only if the file has one. -/
def printLines (nflag trailing : Bool) : List PLine → List Shown
  | [] => []
  | [l] => [shown nflag trailing l]
  | l :: ls => shown nflag true l :: printLines nflag trailing ls

/-! ## Files -/

/-- What `open` and `fstat` find. -/
inductive Source
  | missing
  | directory
  | file (chunks : List Chunk)

/-- What `processing` prints. -/
inductive Output
  | error (message : Text)
  | lines (shown : List Shown)
  deriving DecidableEq, Repr

def Output.bytes : Output → Text
  | .error message => message
  | .lines shown => shown.flatMap Shown.bytes

/-- The lines of `peek` that are no content. -/
def noSuchFile : Text := "peek: no such file or directory\n".toList

@[inherit_doc noSuchFile]
def isDirectory : Text := "peek: is a directory\n".toList

@[inherit_doc noSuchFile]
def peekSyntax : Text := "peek: invalid syntax\n".toList

/-- `processing`: what it prints, and `*next` after it. -/
def processing (nflag rflag : Bool) (next : ℤ) : Source → Option (Output × ℤ)
  | .missing => some (.error noSuchFile, next)
  | .directory => some (.error isDirectory, next)
  | .file chunks =>
    let buf := (fill chunks).bytes
    if buf = [] then some (.lines [], next)
    else
      let trailing : Bool := buf.getLast? = some '\n'
      (cut [] next 0 buf).map fun p =>
        (.lines (printLines nflag trailing (if rflag then p.1.reverse else p.1)), p.2)

/-- The last loop of `peeking`. -/
def processAll (nflag rflag : Bool) : ℤ → List Source → Option (List Output)
  | _, [] => some []
  | next, source :: sources =>
    (processing nflag rflag next source).bind fun p =>
      (processAll nflag rflag p.2 sources).map (p.1 :: ·)

/-- An argument that is taken for flags. -/
def isFlags : Text → Bool
  | '-' :: _ :: _ => true
  | _ => false

/-- The first loop of `peeking`: `nflag`, `rflag` and the files; `None` where the syntax is
invalid. -/
def readFlags : Bool → Bool → List Text → Option (Bool × Bool × List Text)
  | nflag, rflag, [] => some (nflag, rflag, [])
  | nflag, rflag, arg :: args =>
    if isFlags arg then
      if arg.tail.all fun c => c = 'n' || c = 'r' then
        readFlags (nflag || arg.tail.contains 'n') (rflag || arg.tail.contains 'r') args
      else none
    else if args.any isFlags then none
    else some (nflag, rflag, arg :: args)

/-- What each `processing` opens: `-` is the standard input, which is read once. -/
def sources (opened : Text → Source) : List Chunk → List Text → List Source
  | _, [] => []
  | stdin, name :: names =>
    if name = ['-'] then .file stdin :: sources opened [] names
    else opened name :: sources opened stdin names

/-- No files are the standard input. -/
def files (names : List Text) : List Text := if names = [] then [['-']] else names

/-- `peeking`. -/
def peeking (opened : Text → Source) (stdin : List Chunk) (args : List Text) :
    Option (List Output) :=
  match readFlags false false args with
  | none => some [.error peekSyntax]
  | some (nflag, rflag, names) =>
    processAll nflag rflag 1 (sources opened stdin (files names))

/-! ## What is cut and printed -/

/-- The lines of a file, without their ends. -/
def texts (bytes : Text) : List Text := (lines bytes).map chomp

/-- The lines with their numbers, as the code counts them, if `k` numbers are taken. -/
def numbered : ℕ → List Text → List PLine
  | _, [] => []
  | k, text :: rest =>
    if text = [] then ⟨[], 0⟩ :: numbered k rest
    else ⟨text, wrapInt (k + 1)⟩ :: numbered (k + 1) rest

/-- The number of lines that get a number. -/
def numbers (texts : List Text) : ℕ := texts.countP (· ≠ [])

variable {nflag rflag trailing : Bool} {line bytes text : Text} {ts : List Text} {k lcount : ℕ}
  {ls : List PLine} {chunks : List Chunk}

theorem wrapInt_wrapInt_add (n m : ℤ) : wrapInt (wrapInt n + m) = wrapInt (n + m) :=
  Int.bmod_add_bmod

theorem number_of_ne (h : text ≠ []) :
    number (wrapInt (k + 1)) text = (wrapInt (k + 1), wrapInt ((k + 1 : ℕ) + 1)) := by
  rw [number, if_neg h, wrapInt_wrapInt_add]
  rfl

theorem numbered_cons :
    numbered k (text :: ts) =
      ⟨text, (number (wrapInt (k + 1)) text).1⟩ :: numbered (k + numbers [text]) ts := by
  rw [numbered]
  split
  · rename_i h
    simp [h, number, numbers]
  · rename_i h
    simp [h, number, numbers]

theorem number_snd :
    (number (wrapInt (k + 1)) text).2 = wrapInt ((k + numbers [text] : ℕ) + 1) := by
  by_cases h : text = []
  · simp [h, number, numbers]
  · rw [number_of_ne h]
    simp [h, numbers]

theorem numbers_cons : numbers (text :: ts) = numbers [text] + numbers ts := by
  rw [numbers, List.countP_cons, numbers, numbers, List.countP_singleton, Nat.add_comm]

/-- **The cut lines are the lines of the file, in order, with their numbers**, if there are not too
many for `lcount`. -/
theorem cut_eq (hline : '\n' ∉ line) (hcount : lcount < 2 ^ 31) :
    cut line (wrapInt (k + 1)) lcount bytes =
      if lcount + (texts (line ++ bytes)).length < 2 ^ 31 then
        some (numbered k (texts (line ++ bytes)),
          wrapInt ((k + numbers (texts (line ++ bytes)) : ℕ) + 1))
      else none := by
  induction bytes generalizing line k lcount with
  | nil =>
    rw [List.append_nil, cut]
    by_cases hnil : line = []
    · subst hnil
      rw [if_pos rfl]
      exact (if_pos hcount).symm
    · rw [if_neg hnil, texts, lines_of_notMem hnil hline, List.map_singleton,
        chomp_of_notMem hline, List.length_singleton, numbered_cons, numbered, number_snd]
  | cons c bytes ih =>
    rw [cut]
    by_cases hc : c = '\n'
    · subst hc
      have htexts : texts (line ++ '\n' :: bytes) = line :: texts bytes := by
        rw [texts, lines_append_line hline, List.map_cons, chomp_concat]
        rfl
      have hnumbers : numbers (line :: texts bytes) = numbers [line] + numbers (texts bytes) :=
        numbers_cons
      rw [if_pos rfl, htexts, List.length_cons, numbered_cons, hnumbers, number_snd]
      by_cases hroom : lcount + 1 < 2 ^ 31
      · have hlen : lcount + 1 + (texts bytes).length = lcount + ((texts bytes).length + 1) := by
          omega
        rw [if_pos hroom, ih List.not_mem_nil hroom, List.nil_append, hlen,
          apply_ite (Option.map _), Option.map_some, Option.map_none, ← Nat.add_assoc k]
      · rw [if_neg hroom, if_neg (by omega)]
    · rw [if_neg hc, ih (by simp [hline, Ne.symm hc]) hcount, List.append_assoc,
        List.singleton_append]

/-- What is printed for a file, if `k` numbers are taken. -/
def printed (nflag rflag : Bool) (k : ℕ) (bytes : Text) : List Shown :=
  let ls := numbered k (texts bytes)
  printLines nflag (bytes.getLast? = some '\n') (if rflag then ls.reverse else ls)

/-- …and for several. -/
def printedAll (nflag rflag : Bool) : ℕ → List Text → List (List Shown)
  | _, [] => []
  | k, bytes :: rest =>
    printed nflag rflag k bytes :: printedAll nflag rflag (k + numbers (texts bytes)) rest

theorem processing_file :
    processing nflag rflag (wrapInt (k + 1)) (.file chunks) =
      if (lines (content chunks)).length < 2 ^ 31 then
        some (.lines (printed nflag rflag k (content chunks)),
          wrapInt ((k + numbers (texts (content chunks)) : ℕ) + 1))
      else none := by
  have hlen : (lines (content chunks)).length = 0 + (texts (content chunks)).length := by
    rw [texts, List.length_map, Nat.zero_add]
  rw [processing, bytes_fill, hlen]
  dsimp only
  split
  · rename_i hnil
    rw [hnil]
    cases rflag <;> rfl
  · rw [cut_eq List.not_mem_nil (Nat.two_pow_pos 31), List.nil_append]
    by_cases hfew : 0 + (texts (content chunks)).length < 2 ^ 31
    · rw [if_pos hfew, if_pos hfew, Option.map_some, printed]
    · rw [if_neg hfew, if_neg hfew, Option.map_none]

/-- **All files are printed**, exactly if none has too many lines. -/
theorem processAll_files (cs : List (List Chunk)) :
    processAll nflag rflag (wrapInt (k + 1)) (cs.map .file) =
      if ∀ chunks ∈ cs, (lines (content chunks)).length < 2 ^ 31 then
        some ((printedAll nflag rflag k (cs.map content)).map .lines)
      else none := by
  induction cs generalizing k with
  | nil => exact (if_pos (by simp)).symm
  | cons chunks cs ih =>
    rw [List.map_cons, processAll, processing_file]
    by_cases hfile : (lines (content chunks)).length < 2 ^ 31
    · rw [if_pos hfile, Option.bind_some, ih]
      simp only [List.forall_mem_cons, hfile, true_and]
      split <;> rfl
    · rw [if_neg hfile, if_neg fun h => hfile (h chunks List.mem_cons_self)]
      rfl

/-! ## The bytes -/

theorem bytes_printLines (ls : List PLine) :
    (printLines false trailing ls).flatMap Shown.bytes =
      joined trailing (ls.map fun l => cString l.text) := by
  induction ls with
  | nil => rfl
  | cons l ls ih =>
    rcases ls with _ | ⟨l', ls⟩
    · rw [printLines, List.flatMap_singleton]
      rfl
    · rw [printLines, List.flatMap_cons, ih]
      · simp [Shown.bytes, shown, joined]
      · exact List.cons_ne_nil _ _

theorem text_numbered (k : ℕ) (ts : List Text) : (numbered k ts).map PLine.text = ts := by
  induction ts generalizing k with
  | nil => rfl
  | cons text ts ih => rw [numbered_cons, List.map_cons, ih]

theorem cString_of_notMem (h : '\x00' ∉ text) : cString text = text :=
  List.takeWhile_eq_self_iff.mpr fun _ hc => decide_eq_true fun heq => h (heq ▸ hc)

theorem notMem_cString (text : Text) : '\x00' ∉ cString text := fun h =>
  absurd (List.mem_takeWhile_imp h) (by simp)

theorem notMem_joined {c : Char} (hc : c ≠ '\n') (h : ∀ text ∈ ts, c ∉ text) :
    c ∉ joined trailing ts := by
  induction ts with
  | nil => exact List.not_mem_nil
  | cons text ts ih =>
    obtain ⟨htext, hts⟩ := List.forall_mem_cons.mp h
    rcases ts with _ | ⟨text', ts⟩
    · cases trailing <;> simp [joined, htext, hc]
    · rw [joined]
      · simp [htext, hc, ih hts]
      · exact List.cons_ne_nil _ _

/-- What is printed has no NUL byte, if no numbers are. -/
theorem notMem_bytes_printed : '\x00' ∉ (printed false false k bytes).flatMap Shown.bytes := by
  rw [printed, bytes_printLines, if_neg Bool.false_ne_true]
  refine notMem_joined (by decide) fun text htext => ?_
  obtain ⟨l, -, rfl⟩ := List.mem_map.mp htext
  exact notMem_cString l.text

/-- **A file is printed as it is exactly if there is no NUL byte in it.** -/
theorem bytes_printed :
    (printed false false k bytes).flatMap Shown.bytes = bytes ↔ '\x00' ∉ bytes := by
  have key : (printed false false k bytes).flatMap Shown.bytes =
      joined (bytes.getLast? = some '\n') ((texts bytes).map cString) := by
    rw [printed, bytes_printLines, if_neg Bool.false_ne_true]
    conv_rhs => rw [← text_numbered k (texts bytes), List.map_map]
    rfl
  rw [key]
  constructor
  · intro h
    rw [← h, ← key]
    exact notMem_bytes_printed
  · intro h
    have hmap : (texts bytes).map cString = texts bytes :=
      (List.map_congr_left fun text htext =>
        cString_of_notMem fun hmem => h (mem_of_mem_chomp htext hmem)).trans (List.map_id _)
    rw [hmap]
    exact joined_lines bytes

theorem bytes_printedAll {bs : List Text} :
    (printedAll false false k bs).flatten.flatMap Shown.bytes = bs.flatten ↔
      ∀ bytes ∈ bs, '\x00' ∉ bytes := by
  constructor
  · intro h bytes hbytes hmem
    have hout : '\x00' ∉ (printedAll false false k bs).flatten.flatMap Shown.bytes := by
      clear h hbytes hmem
      induction bs generalizing k with
      | nil => exact List.not_mem_nil
      | cons bytes bs ih =>
        rw [printedAll, List.flatten_cons, List.flatMap_append, List.mem_append, not_or]
        exact ⟨notMem_bytes_printed, ih⟩
    rw [h] at hout
    exact hout (List.mem_flatten_of_mem hbytes hmem)
  · intro h
    induction bs generalizing k with
    | nil => rfl
    | cons bytes bs ih =>
      obtain ⟨hbytes, hbs⟩ := List.forall_mem_cons.mp h
      rw [printedAll, List.flatten_cons, List.flatMap_append, bytes_printed.mpr hbytes, ih hbs,
        List.flatten_cons]

/-! ## Without flags -/

section

variable {opened : Text → Source} {stdin : List Chunk} {names : List Text} {cs : List (List Chunk)}

theorem readFlags_names (h : ∀ name ∈ names, isFlags name = false) :
    readFlags nflag rflag names = some (nflag, rflag, names) := by
  cases names with
  | nil => rfl
  | cons name names =>
    obtain ⟨hname, hnames⟩ := List.forall_mem_cons.mp h
    rw [readFlags, hname, if_neg Bool.false_ne_true, if_neg (by simpa using hnames)]

/-- **Files that are opened are printed**, if none has too many lines for `lcount`. -/
theorem processAll_sources (hfiles : sources opened stdin (files names) = cs.map .file) :
    processAll nflag rflag 1 (sources opened stdin (files names)) =
      if ∀ chunks ∈ cs, (lines (content chunks)).length < 2 ^ 31 then
        some ((printedAll nflag rflag 0 (cs.map content)).map .lines)
      else none := by
  rw [hfiles, ← processAll_files (k := 0)]
  rfl

/-- **`peek` prints what is in the files** exactly if there is no NUL byte in them and none has
2³¹ lines. -/
theorem prints_iff (hnames : ∀ name ∈ names, isFlags name = false)
    (hfiles : sources opened stdin (files names) = cs.map .file) :
    (∃ outs, peeking opened stdin names = some outs ∧
        outs.flatMap Output.bytes = cs.flatMap content) ↔
      ∀ chunks ∈ cs, '\x00' ∉ content chunks ∧ (lines (content chunks)).length < 2 ^ 31 := by
  have hbytes : ((printedAll false false 0 (cs.map content)).map
      Output.lines).flatMap Output.bytes =
      (printedAll false false 0 (cs.map content)).flatten.flatMap Shown.bytes := by
    rw [List.flatMap_map, List.flatMap_def, List.flatMap_def, List.map_flatten,
      List.flatten_flatten, List.map_map]
    rfl
  have hcontent : cs.flatMap content = (cs.map content).flatten := rfl
  rw [peeking, readFlags_names hnames]
  dsimp only
  rw [processAll_sources hfiles]
  split
  · rename_i hfew
    simp only [Option.some.injEq, exists_eq_left']
    rw [hbytes, hcontent, bytes_printedAll, List.forall_mem_map]
    exact forall₂_congr fun chunks hchunks => (and_iff_left (hfew chunks hchunks)).symm
  · rename_i hmany
    exact iff_of_false nofun fun h => hmany fun chunks hchunks => (h chunks hchunks).2

/-- Two files; the first has no end of a line at its end. -/
theorem prints_iff_two :
    let a : Chunk := ⟨['a', '\n', '\n', 'b'], by decide, by decide⟩
    let c : Chunk := ⟨['c', '\n'], by decide, by decide⟩
    let opened : Text → Source := fun name => .file (if name = ['a'] then [a] else [c])
    ∃ outs, peeking opened [] [['a'], ['c']] = some outs ∧
      outs.flatMap Output.bytes = ['a', '\n', '\n', 'b', 'c', '\n'] := by
  intro a c opened
  refine (@prints_iff opened [] [['a'], ['c']] [[a], [c]] (by decide) rfl).mpr ?_
  simp only [List.forall_mem_cons, List.not_mem_nil, false_implies, implies_true, and_true]
  decide

/-- **A NUL byte** ends its line. -/
theorem not_prints :
    let chunk : Chunk := ⟨['a', '\x00', 'b', '\n'], by decide, by decide⟩
    let opened : Text → Source := fun _ => .file [chunk]
    peeking opened [] [['f']] = some [.lines [⟨none, ['a'], true⟩]] ∧
      ¬∃ outs, peeking opened [] [['f']] = some outs ∧
        outs.flatMap Output.bytes = content [chunk] := by
  intro chunk opened
  have hrun : peeking opened [] [['f']] = some [.lines [⟨none, ['a'], true⟩]] := by decide
  refine ⟨hrun, ?_⟩
  rintro ⟨outs, houts, hbytes⟩
  rw [hrun] at houts
  cases houts
  exact absurd hbytes (by decide)

end

end MiniProject.Shell.Peek
