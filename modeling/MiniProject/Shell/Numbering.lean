import Mathlib.Algebra.BigOperators.Group.List.Basic
import MiniProject.Shell.Peek

/-!
# Shell/Numbering — the numbers of `peek -n`

The number of a line is taken from one counter for all files when the line is cut, so printing the
lines backwards prints the same numbers backwards.  The counter is an `int`: the lines that are not
empty are numbered 1, 2, 3, … exactly as long as there are fewer than 2³¹ of them in all
(`counts_iff`).
-/

namespace MiniProject.Shell.Peek

/-- The flags `-n` and `-nr`. -/
def flagN : Text := ['-', 'n']

@[inherit_doc flagN]
def flagNR : Text := ['-', 'n', 'r']

/-- The number and the text of a line that is printed. -/
def Shown.pair (s : Shown) : Option ℤ × Text := (s.number, s.text)

/-- …and of a line that is cut. -/
def PLine.pair (l : PLine) : Option ℤ × Text :=
  (if l.number ≠ 0 then some l.number else none, l.text)

/-- `outs` is what `peek -n` prints for the files, and `outs'` what `peek -nr` does: **the lines of
each file in order, those that are not empty numbered 1, 2, 3, … through all files, and the same
lines backwards**. -/
structure CountsThrough (cs : List (List Chunk)) (outs outs' : List (List Shown)) : Prop where
  texts : outs.map (·.map Shown.text) = cs.map fun chunks => texts (content chunks)
  empty : ∀ s ∈ outs.flatten, s.text = [] → s.number = none
  counted : ∃ n, (outs.flatten.filter fun s => s.text ≠ []).map Shown.number =
    (List.range n).map fun i : ℕ => some (i + 1 : ℤ)
  reversed : outs'.map (·.map Shown.pair) = outs.map fun out => (out.map Shown.pair).reverse

variable {bytes : Text} {bs ts : List Text} {k n : ℕ} {trailing : Bool}

/-! ## Numbers and texts -/

theorem map_printLines {α : Type*} {f : Shown → α} {ls : List PLine}
    (hf : ∀ l newline, f (shown true newline l) = f (shown true true l)) :
    (printLines true trailing ls).map f = ls.map fun l => f (shown true true l) := by
  induction ls with
  | nil => rfl
  | cons l ls ih =>
    rcases ls with _ | ⟨l', ls⟩
    · rw [printLines, List.map_singleton, List.map_singleton, hf]
    · rw [printLines, List.map_cons, ih, hf]
      · rfl
      · exact List.cons_ne_nil _ _

theorem pair_shown {l : PLine} (h : '\x00' ∉ l.text) (newline : Bool) :
    (shown true newline l).pair = l.pair := by
  rw [shown, Shown.pair, PLine.pair, cString_of_notMem h]
  simp

theorem notMem_text_numbered (h : '\x00' ∉ bytes) :
    ∀ l ∈ numbered k (texts bytes), '\x00' ∉ l.text := by
  intro l hl hmem
  have htext : l.text ∈ (numbered k (texts bytes)).map PLine.text := List.mem_map_of_mem hl
  rw [text_numbered] at htext
  exact h (mem_of_mem_chomp htext hmem)

/-- **The lines of a file with their numbers**, forwards… -/
theorem pairs_printed (h : '\x00' ∉ bytes) :
    (printed true false k bytes).map Shown.pair = (numbered k (texts bytes)).map PLine.pair := by
  rw [printed, if_neg Bool.false_ne_true, map_printLines fun _ _ => rfl]
  exact List.map_congr_left fun l hl => pair_shown (notMem_text_numbered h l hl) true

/-- …and backwards. -/
theorem pairs_printed_reverse (h : '\x00' ∉ bytes) :
    (printed true true k bytes).map Shown.pair =
      ((printed true false k bytes).map Shown.pair).reverse := by
  rw [pairs_printed h, printed, if_pos rfl, map_printLines fun _ _ => rfl, List.map_reverse]
  congr 1
  exact List.map_congr_left fun l hl => pair_shown (notMem_text_numbered h l hl) true

theorem texts_printed (h : '\x00' ∉ bytes) :
    (printed true false k bytes).map Shown.text = texts bytes := by
  have hsnd : (printed true false k bytes).map Shown.text =
      ((printed true false k bytes).map Shown.pair).map Prod.snd := by
    rw [List.map_map]
    rfl
  rw [hsnd, pairs_printed h, List.map_map]
  exact text_numbered k _

/-! ## All files -/

theorem numbered_append {ts' : List Text} :
    numbered k (ts ++ ts') = numbered k ts ++ numbered (k + numbers ts) ts' := by
  induction ts generalizing k with
  | nil => rfl
  | cons text ts ih =>
    have hnumbers : numbers (text :: ts) = numbers [text] + numbers ts := numbers_cons
    rw [List.cons_append, numbered_cons, ih, numbered_cons, hnumbers, Nat.add_assoc]
    rfl

theorem texts_printedAll (h : ∀ bytes ∈ bs, '\x00' ∉ bytes) :
    (printedAll true false k bs).map (·.map Shown.text) = bs.map texts := by
  induction bs generalizing k with
  | nil => rfl
  | cons bytes bs ih =>
    obtain ⟨hbytes, hbs⟩ := List.forall_mem_cons.mp h
    rw [printedAll, List.map_cons, texts_printed hbytes, ih hbs, List.map_cons]

theorem pairs_printedAll_reverse (h : ∀ bytes ∈ bs, '\x00' ∉ bytes) :
    (printedAll true true k bs).map (·.map Shown.pair) =
      (printedAll true false k bs).map fun out => (out.map Shown.pair).reverse := by
  induction bs generalizing k with
  | nil => rfl
  | cons bytes bs ih =>
    obtain ⟨hbytes, hbs⟩ := List.forall_mem_cons.mp h
    rw [printedAll, List.map_cons, pairs_printed_reverse hbytes, ih hbs, printedAll, List.map_cons]

/-- **One numbering goes through all files.** -/
theorem pairs_printedAll (h : ∀ bytes ∈ bs, '\x00' ∉ bytes) :
    (printedAll true false k bs).flatten.map Shown.pair =
      (numbered k (bs.flatMap texts)).map PLine.pair := by
  induction bs generalizing k with
  | nil => rfl
  | cons bytes bs ih =>
    obtain ⟨hbytes, hbs⟩ := List.forall_mem_cons.mp h
    rw [printedAll, List.flatten_cons, List.map_append, pairs_printed hbytes, ih hbs,
      List.flatMap_cons, numbered_append, List.map_append]

/-! ## The numbers -/

/-- What is printed for the number of the line that is not empty and has `i` such lines before
it. -/
def label (i : ℕ) : Option ℤ := if wrapInt (i + 1) ≠ 0 then some (wrapInt (i + 1)) else none

theorem empty_numbered {l : PLine} (hl : l ∈ numbered k ts) (hnil : l.text = []) :
    l.pair.1 = none := by
  induction ts generalizing k with
  | nil => cases hl
  | cons text ts ih =>
    rw [numbered_cons] at hl
    rcases List.mem_cons.mp hl with rfl | hl
    · obtain rfl : text = [] := hnil
      rfl
    · exact ih hl

theorem labels_numbered :
    (((numbered k ts).map PLine.pair).filter fun p => p.2 ≠ []).map Prod.fst =
      (List.range (numbers ts)).map fun i => label (k + i) := by
  induction ts generalizing k with
  | nil => rfl
  | cons text ts ih =>
    have hnumbers : numbers (text :: ts) = numbers [text] + numbers ts := numbers_cons
    by_cases h : text = []
    · subst h
      have hzero : numbers [[]] = 0 := rfl
      rw [hnumbers, hzero, Nat.zero_add, ← ih, numbered, if_pos rfl, List.map_cons,
        List.filter_cons_of_neg (by simp [PLine.pair])]
    · have hone : numbers [text] = 1 := by simp [numbers, h]
      have hhead : (PLine.pair ⟨text, wrapInt (k + 1)⟩).1 = label (k + 0) := by
        rw [Nat.add_zero, label, PLine.pair]
      rw [hnumbers, hone, Nat.add_comm 1, List.range_succ_eq_map, List.map_cons, List.map_map,
        numbered, if_neg h, List.map_cons, List.filter_cons_of_pos (by simp [PLine.pair, h]),
        List.map_cons, ih, hhead]
      refine congrArg _ (List.map_congr_left fun i _ => ?_)
      rw [Function.comp_apply, Nat.succ_eq_add_one, Nat.add_assoc, Nat.add_comm 1]

theorem label_of_fits {i : ℕ} (h : i + 1 < 2 ^ 31) : label i = some (i + 1 : ℤ) := by
  have hfits : wrapInt (i + 1) = i + 1 := wrapInt_of_fits (by omega)
  rw [label, hfits, if_pos (by omega)]

theorem label_last : label (2 ^ 31 - 1) = some (-2 ^ 31) := by decide

/-- **The labels count up exactly as far as an `int` does.** -/
theorem labels_iff :
    (∃ m, (List.range n).map label = (List.range m).map fun i : ℕ => some (i + 1 : ℤ)) ↔
      n < 2 ^ 31 := by
  constructor
  · rintro ⟨m, h⟩
    by_contra hle
    have hlen : n = m := by simpa using congrArg List.length h
    subst hlen
    have hat := congrArg (fun l => l[2 ^ 31 - 1]?) h
    have hlt : 2 ^ 31 - 1 < n := by omega
    simp only [List.getElem?_map, List.getElem?_range hlt, Option.map_some, label_last] at hat
    exact absurd hat (by decide)
  · intro h
    refine ⟨n, List.map_congr_left fun i hi => label_of_fits ?_⟩
    have := List.mem_range.mp hi
    omega

/-! ## The runs -/

variable {opened : Text → Source} {stdin : List Chunk} {names : List Text} {cs : List (List Chunk)}

/-- What the two runs print, if they print at all. -/
theorem peeking_n (hnames : ∀ name ∈ names, isFlags name = false)
    (hfiles : sources opened stdin (files names) = cs.map .file) :
    peeking opened stdin (flagN :: names) =
      if ∀ chunks ∈ cs, (lines (content chunks)).length < 2 ^ 31 then
        some ((printedAll true false 0 (cs.map content)).map .lines)
      else none := by
  rw [← processAll_sources hfiles, peeking]
  have hflags : readFlags false false (flagN :: names) = some (true, false, names) := by
    change readFlags true false names = _
    exact readFlags_names hnames
  rw [hflags]

@[inherit_doc peeking_n]
theorem peeking_nr (hnames : ∀ name ∈ names, isFlags name = false)
    (hfiles : sources opened stdin (files names) = cs.map .file) :
    peeking opened stdin (flagNR :: names) =
      if ∀ chunks ∈ cs, (lines (content chunks)).length < 2 ^ 31 then
        some ((printedAll true true 0 (cs.map content)).map .lines)
      else none := by
  rw [← processAll_sources hfiles, peeking]
  have hflags : readFlags false false (flagNR :: names) = some (true, true, names) := by
    change readFlags true true names = _
    exact readFlags_names hnames
  rw [hflags]

theorem map_lines_injective : Function.Injective (List.map Output.lines) :=
  List.map_injective_iff.mpr fun _ _ h => Output.lines.inj h

/-- The lines that are not empty, in all files. -/
def allNumbers (cs : List (List Chunk)) : ℕ :=
  (cs.map fun chunks => numbers (texts (content chunks))).sum

theorem numbers_flatMap : numbers ((cs.map content).flatMap texts) = allNumbers cs := by
  rw [numbers, List.countP_flatMap, List.map_map]
  rfl

/-- **What is printed counts through** exactly if there are fewer than 2³¹ lines to be numbered. -/
theorem countsThrough_iff (hnul : ∀ chunks ∈ cs, '\x00' ∉ content chunks) :
    CountsThrough cs (printedAll true false 0 (cs.map content))
        (printedAll true true 0 (cs.map content)) ↔
      allNumbers cs < 2 ^ 31 := by
  have hbs : ∀ bytes ∈ cs.map content, '\x00' ∉ bytes := List.forall_mem_map.mpr hnul
  have hpairs := pairs_printedAll (k := 0) hbs
  have hcounted : ((printedAll true false 0 (cs.map content)).flatten.filter
      fun s => s.text ≠ []).map Shown.number = (List.range (allNumbers cs)).map label := by
    have hfst : ∀ l : List Shown, (l.filter fun s => s.text ≠ []).map Shown.number =
        ((l.map Shown.pair).filter fun p => p.2 ≠ []).map Prod.fst := by
      intro l
      rw [List.filter_map, List.map_map]
      rfl
    rw [hfst, hpairs, labels_numbered, numbers_flatMap]
    exact List.map_congr_left fun i _ => by rw [Nat.zero_add]
  constructor
  · intro h
    obtain ⟨m, hm⟩ := h.counted
    exact labels_iff.mp ⟨m, hcounted.symm.trans hm⟩
  · intro h
    refine ⟨?_, fun s hs hnil => ?_, ?_, pairs_printedAll_reverse hbs⟩
    · rw [texts_printedAll hbs, List.map_map]
      rfl
    · have hmem := List.mem_map_of_mem (f := Shown.pair) hs
      rw [hpairs] at hmem
      obtain ⟨l, hl, hpair⟩ := List.mem_map.mp hmem
      have hempty := empty_numbered hl ((congrArg Prod.snd hpair).trans hnil)
      rwa [hpair] at hempty
    · obtain ⟨m, hm⟩ := labels_iff.mpr h
      exact ⟨m, hcounted.trans hm⟩

/-- **`peek -n` numbers the lines that are not empty 1, 2, 3, …, and `peek -nr` prints the same
lines backwards**, exactly if no file has 2³¹ lines and all together have fewer than 2³¹ that are
not empty. -/
theorem counts_iff (hnames : ∀ name ∈ names, isFlags name = false)
    (hfiles : sources opened stdin (files names) = cs.map .file)
    (hnul : ∀ chunks ∈ cs, '\x00' ∉ content chunks) :
    (∃ outs outs', peeking opened stdin (flagN :: names) = some (outs.map .lines) ∧
        peeking opened stdin (flagNR :: names) = some (outs'.map .lines) ∧
        CountsThrough cs outs outs') ↔
      (∀ chunks ∈ cs, (lines (content chunks)).length < 2 ^ 31) ∧ allNumbers cs < 2 ^ 31 := by
  rw [peeking_n hnames hfiles, peeking_nr hnames hfiles, ← countsThrough_iff hnul]
  split
  · rename_i hfew
    rw [and_iff_right hfew]
    constructor
    · rintro ⟨outs, outs', houts, houts', h⟩
      rw [map_lines_injective (Option.some.inj houts), map_lines_injective (Option.some.inj houts')]
      exact h
    · exact fun h => ⟨_, _, rfl, rfl, h⟩
  · rename_i hmany
    exact iff_of_false nofun fun h => hmany h.1

/-- Two files, with an empty line and no end at the end of the first. -/
theorem counts_iff_two :
    let a : Chunk := ⟨['a', '\n', '\n', 'b'], by decide, by decide⟩
    let c : Chunk := ⟨['c', '\n'], by decide, by decide⟩
    let opened : Text → Source := fun name => .file (if name = ['a'] then [a] else [c])
    ∃ outs outs', peeking opened [] [flagN, ['a'], ['c']] = some (outs.map .lines) ∧
      peeking opened [] [flagNR, ['a'], ['c']] = some (outs'.map .lines) ∧
      CountsThrough [[a], [c]] outs outs' := by
  intro a c opened
  refine (@counts_iff opened [] [['a'], ['c']] [[a], [c]] (by decide) rfl ?_).mpr ⟨?_, ?_⟩
  · simp only [List.forall_mem_cons, List.not_mem_nil, false_implies, implies_true, and_true]
    decide
  · simp only [List.forall_mem_cons, List.not_mem_nil, false_implies, implies_true, and_true]
    decide
  · decide

/-! ## A file that is named often -/

theorem length_replicate_flatten (n : ℕ) :
    (List.replicate n ['a', '\n']).flatten.length = n * 2 := by
  rw [List.length_flatten, List.map_replicate, List.sum_replicate_nat]
  rfl

/-- 512 lines. -/
def someLines : Chunk where
  bytes := (List.replicate 512 ['a', '\n']).flatten
  nonempty := List.ne_nil_of_length_pos (by rw [length_replicate_flatten]; decide)
  fits := by rw [length_replicate_flatten]

/-- 2²⁵ lines. -/
def manyLines : List Chunk := List.replicate (2 ^ 16) someLines

theorem lines_replicate (n : ℕ) :
    lines (List.replicate n ['a', '\n']).flatten = List.replicate n ['a', '\n'] := by
  induction n with
  | zero => rfl
  | succ n ih =>
    have hline : '\n' ∉ ['a'] := by decide
    have happend := lines_append_line hline (List.replicate n ['a', '\n']).flatten
    rw [ih] at happend
    exact happend

theorem lines_manyLines :
    lines (content manyLines) = List.replicate (2 ^ 25) ['a', '\n'] := by
  have hcontent : content manyLines = (List.replicate (2 ^ 16 * 512) ['a', '\n']).flatten := by
    rw [content, manyLines, List.flatMap_replicate, someLines, ← List.flatten_replicate_replicate,
      List.flatten_flatten, List.map_replicate]
  have hpow : 2 ^ 16 * 512 = 2 ^ 25 := by decide
  rw [hcontent, lines_replicate, hpow]

theorem numbers_manyLines : numbers (texts (content manyLines)) = 2 ^ 25 := by
  rw [texts, lines_manyLines, List.map_replicate, numbers, List.countP_replicate]
  exact if_pos rfl

/-- **A file of 2²⁵ lines, named 64 times**: the last of them has the number -2³¹. -/
theorem not_counts :
    ¬∃ outs outs',
      peeking (fun _ => .file manyLines) [] (flagN :: List.replicate 64 ['f']) =
          some (outs.map .lines) ∧
        peeking (fun _ => .file manyLines) [] (flagNR :: List.replicate 64 ['f']) =
          some (outs'.map .lines) ∧
        CountsThrough (List.replicate 64 manyLines) outs outs' := by
  have hnames : ∀ name ∈ List.replicate 64 ['f'], isFlags name = false := by decide
  have hfiles : sources (fun _ => .file manyLines) [] (files (List.replicate 64 ['f'])) =
      (List.replicate 64 manyLines).map .file := rfl
  have hfew : ∀ chunks ∈ List.replicate 64 manyLines, (lines (content chunks)).length < 2 ^ 31 := by
    intro chunks hchunks
    rw [List.eq_of_mem_replicate hchunks, lines_manyLines, List.length_replicate]
    decide
  have hnul : ∀ chunks ∈ List.replicate 64 manyLines, '\x00' ∉ content chunks := by
    intro chunks hchunks hmem
    rw [List.eq_of_mem_replicate hchunks, ← flatten_lines (content manyLines),
      lines_manyLines] at hmem
    obtain ⟨line, hline, hmem⟩ := List.mem_flatten.mp hmem
    rw [List.eq_of_mem_replicate hline] at hmem
    exact absurd hmem (by decide)
  have hmany : allNumbers (List.replicate 64 manyLines) = 2 ^ 31 := by
    rw [allNumbers, List.map_replicate, numbers_manyLines, List.sum_replicate_nat]
    decide
  rintro ⟨outs, outs', houts, houts', h⟩
  rw [peeking_n hnames hfiles, if_pos hfew] at houts
  rw [peeking_nr hnames hfiles, if_pos hfew] at houts'
  rw [← map_lines_injective (Option.some.inj houts), ← map_lines_injective (Option.some.inj houts'),
    countsThrough_iff hnul, hmany] at h
  exact lt_irrefl _ h

end MiniProject.Shell.Peek
