import MiniProject.Machinery.Runs
import Mathlib.Computability.Language

/-!
# User/Grep — a matcher without a machine, and lines through a buffer

`matchhere` and `matchstar` decide a pattern of letters, `.`, `*`, `^` and `$` by recursion over the
pattern.  A pattern denotes a language (`lang`), and `match` accepts what has a word of it in the
right place (`match_iff`).

`grep` reads into a buffer behind what was left of the last line.  What it prints does not depend on
how much each `read` returns (`grep_lines`); a line that does not fit in the buffer ends it.
-/

namespace MiniProject.User

/-! ## The matcher -/

/-- `matchstar`, with `matchhere` of the rest of the pattern. -/
def matchstar (c : Char) (here : List Char → Bool) : List Char → Bool
  | [] => here []
  | x :: xs => here (x :: xs) || ((x = c || c = '.') && matchstar c here xs)

/-- `matchhere`; a string ends where the list does. -/
def matchhere : List Char → List Char → Bool
  | [], _ => true
  | c :: '*' :: re, text => matchstar c (matchhere re) text
  | ['$'], text => text = []
  | c :: re, x :: text => (c = '.' || c = x) && matchhere re text
  | _ :: _, [] => false

/-- The loop of `match`. -/
def matchanywhere (re : List Char) : List Char → Bool
  | [] => matchhere re []
  | x :: text => matchhere re (x :: text) || matchanywhere re text

/-- `match`. -/
def match' : List Char → List Char → Bool
  | '^' :: re, text => matchhere re text
  | re, text => matchanywhere re text

/-! ## What a pattern means -/

/-- The one character that `c` stands for; `.` stands for any. -/
def letter (c : Char) : Language Char := {w | ∃ x, (c = '.' ∨ c = x) ∧ w = [x]}

/-- The texts that begin with a word of the pattern; `$` at its end leaves nothing behind it. -/
def lang : List Char → Language Char
  | [] => ⊤
  | c :: '*' :: re => KStar.kstar (letter c) * lang re
  | ['$'] => 1
  | c :: re => letter c * lang re

/-- The texts that a pattern is found in. -/
def found : List Char → Language Char
  | '^' :: re => lang re
  | re => ⊤ * lang re

variable {c x : Char} {re text : List Char} {L : Language Char}

theorem mem_top (text : List Char) : text ∈ (⊤ : Language Char) := Set.mem_univ text

theorem nil_notMem_letter_mul : [] ∉ letter c * L := by
  rintro ⟨w, ⟨x, -, rfl⟩, v, -, heq⟩
  exact absurd heq (List.cons_ne_nil _ _)

theorem cons_mem_letter_mul : x :: text ∈ letter c * L ↔ (c = '.' ∨ c = x) ∧ text ∈ L := by
  constructor
  · rintro ⟨w, ⟨y, hy, rfl⟩, v, hv, heq⟩
    obtain ⟨rfl, rfl⟩ := List.cons.inj heq
    exact ⟨hy, hv⟩
  · rintro ⟨hx, htext⟩
    exact ⟨[x], ⟨x, hx, rfl⟩, text, htext, rfl⟩

/-- None, or one more. -/
theorem mem_kstar_mul : text ∈ KStar.kstar (letter c) * L ↔
    text ∈ L ∨ text ∈ letter c * (KStar.kstar (letter c) * L) := by
  conv_lhs => rw [← Language.one_add_self_mul_kstar_eq_kstar, add_mul, one_mul, mul_assoc]
  exact Language.mem_add _ _ _

/-- **A star.** -/
theorem matchstar_iff {here : List Char → Bool} (h : ∀ text, here text = true ↔ text ∈ L) :
    matchstar c here text = true ↔ text ∈ KStar.kstar (letter c) * L := by
  induction text with
  | nil =>
    rw [matchstar, h, mem_kstar_mul, or_iff_left nil_notMem_letter_mul]
  | cons x text ih =>
    rw [matchstar, mem_kstar_mul, cons_mem_letter_mul, Bool.or_eq_true, Bool.and_eq_true,
      Bool.or_eq_true, decide_eq_true_eq, decide_eq_true_eq, h, ih, eq_comm (a := x),
      or_comm (a := c = x)]

/-- **The pattern from here on.** -/
theorem matchhere_iff : matchhere re text = true ↔ text ∈ lang re := by
  induction re using lang.induct generalizing text with
  | case1 => exact iff_of_true (by rw [matchhere]) (mem_top text)
  | case2 c re ih =>
    rw [matchhere, lang]
    exact matchstar_iff fun _ => ih
  | case3 => rw [matchhere, lang, decide_eq_true_eq, Language.mem_one]
  | case4 c re hstar hend ih =>
    rw [lang.eq_4 c re hstar hend]
    rcases text with _ | ⟨x, text⟩
    · rw [matchhere.eq_5 c re hstar hend]
      exact iff_of_false Bool.false_ne_true nil_notMem_letter_mul
    · rw [matchhere.eq_4 c re x text hstar hend, cons_mem_letter_mul, Bool.and_eq_true,
        Bool.or_eq_true, decide_eq_true_eq, decide_eq_true_eq, ih]

theorem matchanywhere_iff : matchanywhere re text = true ↔ text ∈ ⊤ * lang re := by
  induction text with
  | nil =>
    rw [matchanywhere, matchhere_iff]
    constructor
    · exact fun h => ⟨[], mem_top _, [], h, rfl⟩
    · rintro ⟨u, -, v, hv, heq⟩
      obtain ⟨rfl, rfl⟩ := List.append_eq_nil_iff.mp heq
      exact hv
  | cons x text ih =>
    rw [matchanywhere, Bool.or_eq_true, matchhere_iff, ih]
    constructor
    · rintro (h | ⟨u, -, v, hv, rfl⟩)
      · exact ⟨[], mem_top _, _, h, rfl⟩
      · exact ⟨x :: u, mem_top _, v, hv, rfl⟩
    · rintro ⟨u, -, v, hv, heq⟩
      rcases u with _ | ⟨y, u⟩
      · exact .inl ((heq : v = x :: text) ▸ hv)
      · exact .inr ⟨u, mem_top _, v, hv, (List.cons.inj heq).2⟩

/-- **`match` finds the words of its pattern**, and nothing else. -/
theorem match_iff (re text : List Char) : match' re text = true ↔ text ∈ found re := by
  rw [match'.eq_def]
  split
  · rw [found]
    exact matchhere_iff
  · next hcaret =>
    rw [found.eq_2 re hcaret]
    exact matchanywhere_iff

/-! ## Lines through the buffer -/

/-- `sizeof(buf)`. -/
def bufSize : ℕ := 1024

/-- What `grep` has not read, what of it is in `buf`, and what it printed. -/
structure Grep where
  rest : List Char
  buf : List Char
  out : List Char
  deriving DecidableEq, Repr

namespace Grep

/-- What stands before the first line end and what behind it, if `strchr` finds one. -/
def cut : List Char → Option (List Char × List Char)
  | [] => none
  | x :: p =>
    if x = Char.ofNat 0 then none
    else if x = '\n' then some ([], p)
    else (cut p).map fun lp => (x :: lp.1, lp.2)

/-- The inner loop, from `p` on: what it prints, and where it leaves `p`. -/
def scan (pattern : List Char) : ℕ → List Char → List Char × List Char
  | 0, p => ([], p)
  | k + 1, p =>
    match cut p with
    | none => ([], p)
    | some (line, p') =>
      let (out, left) := scan pattern k p'
      (if match' pattern line then line ++ '\n' :: out else out, left)

/-- Nothing read. -/
def start (data : List Char) : Grep := ⟨data, [], []⟩

/-- A turn of the loop, in which `read` returns `n` bytes. -/
def step (pattern : List Char) (s : Grep) (n : ℕ) : Option Grep :=
  if 0 < n ∧ n ≤ bufSize - s.buf.length - 1 ∧ n ≤ s.rest.length then
    let buf := s.buf ++ s.rest.take n
    let (out, left) := scan pattern buf.length buf
    some ⟨s.rest.drop n, left, s.out ++ out⟩
  else none

/-- `read` returns nothing: at the end of the file, or for want of room. -/
def Over (s : Grep) : Prop := s.rest = [] ∨ bufSize - s.buf.length - 1 = 0

instance (s : Grep) : Decidable s.Over := inferInstanceAs (Decidable (_ ∨ _))

/-- The lines that match, each with its end. -/
def printed (pattern : List Char) (ls : List (List Char)) : List Char :=
  (ls.filter (match' pattern)).flatMap (· ++ ['\n'])

/-- Some lines, each with its end. -/
def lined (ls : List (List Char)) : List Char := ls.flatMap (· ++ ['\n'])

/-- Fits in the buffer, with its end. -/
def short (l : List Char) : Bool := l.length + 1 < bufSize

/-- The lines so far are printed, and the rest is in the buffer and beyond. -/
structure Reads (pattern : List Char) (ls : List (List Char)) (tail : List Char) (s : Grep) :
    Prop where
  split : ∃ done left, ls = done ++ left ∧ s.out = printed pattern done ∧
    s.buf ++ s.rest = lined left ++ tail ∧ ∀ l ∈ done, short l = true
  noEnd : '\n' ∉ s.buf
  fits : s.buf.length < bufSize

theorem cut_line {l p : List Char} (hl : '\n' ∉ l) (hzero : Char.ofNat 0 ∉ l) :
    cut (l ++ '\n' :: p) = some (l, p) := by
  induction l with
  | nil => rfl
  | cons x l ih =>
    rw [List.mem_cons, not_or] at hl hzero
    rw [List.cons_append, cut, if_neg (Ne.symm hzero.1), if_neg (Ne.symm hl.1), ih hl.2 hzero.2]
    rfl

theorem cut_none {p : List Char} (hp : '\n' ∉ p) : cut p = none := by
  induction p with
  | nil => rfl
  | cons x p ih =>
    rw [List.mem_cons, not_or] at hp
    rw [cut, if_neg (Ne.symm hp.1), ih hp.2]
    split_ifs <;> rfl

variable {pattern tail p rest : List Char} {ls left : List (List Char)}

/-- From a buffer `p`, before `rest`, to what `scan` returns: some lines are printed, and the buffer
ends within a line. -/
def Scanned (pattern tail p rest : List Char) (ls : List (List Char))
    (r : List Char × List Char) : Prop :=
  ∃ done left, ls = done ++ left ∧ r.1 = printed pattern done ∧ r.2 ++ rest = lined left ++ tail ∧
    '\n' ∉ r.2 ∧ r.2.length ≤ p.length ∧ ∀ l ∈ done, l.length + 1 ≤ p.length

theorem scanned_of_noEnd {k : ℕ} (hend : '\n' ∉ p) (hp : p ++ rest = lined ls ++ tail) :
    Scanned pattern tail p rest ls (scan pattern k p) := by
  have hscan : scan pattern k p = ([], p) := by
    cases k with
    | zero => rfl
    | succ k => rw [scan, cut_none hend]
  rw [hscan]
  exact ⟨[], ls, rfl, rfl, hp, hend, Nat.le_refl _, fun _ hl => absurd hl List.not_mem_nil⟩

/-- **The inner loop** prints the whole lines in the buffer that match. -/
theorem scanned {k : ℕ} (hk : p.length ≤ k) (hzero : Char.ofNat 0 ∉ p) (hls : ∀ l ∈ ls, '\n' ∉ l)
    (htail : '\n' ∉ tail) (hp : p ++ rest = lined ls ++ tail) :
    Scanned pattern tail p rest ls (scan pattern k p) := by
  induction k generalizing p ls with
  | zero =>
    obtain rfl := List.length_eq_zero_iff.mp (Nat.le_zero.mp hk)
    exact scanned_of_noEnd List.not_mem_nil hp
  | succ k ih =>
    rcases ls with _ | ⟨l, ls⟩
    · have htext : p ++ rest = tail := hp
      exact scanned_of_noEnd (fun hmem => htail (htext ▸ List.mem_append_left _ hmem)) hp
    have hl := hls l List.mem_cons_self
    have hsplit : p ++ rest = l ++ '\n' :: (lined ls ++ tail) := by
      rw [hp, lined, List.flatMap_cons, List.append_assoc, List.append_assoc]
      rfl
    obtain ⟨a, hla, -⟩ | ⟨a, hpa, harest⟩ := List.append_eq_append_iff.mp hsplit
    · exact scanned_of_noEnd (fun hmem => hl (hla ▸ List.mem_append_left _ hmem)) hp
    rcases a with _ | ⟨x, p'⟩
    · rw [List.append_nil] at hpa
      exact scanned_of_noEnd (hpa ▸ hl) hp
    obtain ⟨rfl, hp'⟩ := List.cons.inj harest
    have hlen : p.length = l.length + (p'.length + 1) := by
      rw [hpa, List.length_append, List.length_cons]
    have hzero' : Char.ofNat 0 ∉ l ++ '\n' :: p' := hpa ▸ hzero
    rw [List.mem_append, List.mem_cons, not_or, not_or] at hzero'
    obtain ⟨done, left, hsplit', hout, hrest, hnone, hle, hdone⟩ :=
      ih (by omega) hzero'.2.2 (fun l' hl' => hls l' (List.mem_cons_of_mem _ hl')) hp'.symm
    have hscan : scan pattern (k + 1) p =
        (if match' pattern l then l ++ '\n' :: (scan pattern k p').1 else (scan pattern k p').1,
          (scan pattern k p').2) := by
      rw [scan, hpa, cut_line hl hzero'.1]
    rw [hscan]
    refine ⟨l :: done, left, by rw [hsplit', List.cons_append], ?_, hrest, hnone,
      Nat.le_trans hle (by omega), fun l' hl' => ?_⟩
    · rw [hout, printed, printed, List.filter_cons]
      split_ifs
      · rw [List.flatMap_cons, List.append_assoc]
        rfl
      · rfl
    · obtain rfl | hl' := List.mem_cons.mp hl'
      · omega
      · exact Nat.le_trans (hdone l' hl') (by omega)

/-- A turn of the loop. -/
theorem Reads.step {s s' : Grep} {n : ℕ} (h : Reads pattern ls tail s)
    (hzero : Char.ofNat 0 ∉ s.buf ++ s.rest) (hls : ∀ l ∈ ls, '\n' ∉ l) (htail : '\n' ∉ tail)
    (hs : s.step pattern n = some s') :
    Reads pattern ls tail s' ∧ Char.ofNat 0 ∉ s'.buf ++ s'.rest := by
  rw [Grep.step] at hs
  split_ifs at hs with hn
  cases hs
  obtain ⟨done, left, hsplit, hout, htext, hshort⟩ := h.split
  have hlen : (s.buf ++ s.rest.take n).length = s.buf.length + n := by
    rw [List.length_append, List.length_take, Nat.min_eq_left hn.2.2]
  have hbuf : s.buf ++ s.rest.take n ++ s.rest.drop n = s.buf ++ s.rest := by
    rw [List.append_assoc, List.take_append_drop]
  have hscanned : Scanned pattern tail (s.buf ++ s.rest.take n) (s.rest.drop n) left
      (scan pattern (s.buf ++ s.rest.take n).length (s.buf ++ s.rest.take n)) :=
    scanned (Nat.le_refl _) (fun hmem => hzero (hbuf ▸ List.mem_append_left _ hmem))
      (fun l hl => hls l (hsplit ▸ List.mem_append_right _ hl)) htail (hbuf.trans htext)
  obtain ⟨done', left', hsplit', hout', htext', hnone, hle, hdone⟩ := hscanned
  have hzero' : Char.ofNat 0 ∉ lined left' ++ tail := fun hmem => by
    rw [htext, hsplit', lined, List.flatMap_append, List.append_assoc] at hzero
    exact hzero (List.mem_append_right _ hmem)
  refine ⟨⟨⟨done ++ done', left', by rw [hsplit, hsplit', List.append_assoc], ?_, htext',
    fun l hl => ?_⟩, hnone, ?_⟩, fun hmem => hzero' (htext' ▸ hmem)⟩
  · change s.out ++ (scan pattern _ _).1 = _
    rw [hout, hout', printed, printed, printed, List.filter_append, List.flatMap_append]
  · obtain hl | hl := List.mem_append.mp hl
    · exact hshort l hl
    · have hle' := hdone l hl
      rw [short, decide_eq_true_eq]
      omega
  · have hle' :
        (scan pattern (s.buf ++ s.rest.take n).length (s.buf ++ s.rest.take n)).2.length ≤ _ := hle
    change
      (scan pattern (s.buf ++ s.rest.take n).length (s.buf ++ s.rest.take n)).2.length < bufSize
    omega

/-- **`grep` prints the lines that match**, in whatever pieces they are read, up to the first line
that does not fit in its buffer; and not what stands behind the last line end. -/
theorem grep_lines {data : List Char} {ns : List ℕ} {s : Grep} (hzero : Char.ofNat 0 ∉ data)
    (hdata : data = lined ls ++ tail) (hls : ∀ l ∈ ls, '\n' ∉ l) (htail : '\n' ∉ tail)
    (h : run (step pattern) (start data) ns = some s) (hover : s.Over) :
    s.out = printed pattern (ls.takeWhile short) := by
  have hstart : Reads pattern ls tail (start data) :=
    ⟨⟨[], ls, rfl, rfl, (List.nil_append data).trans hdata, fun _ hl => absurd hl List.not_mem_nil⟩,
      List.not_mem_nil, show 0 < bufSize from Nat.zero_lt_succ _⟩
  have hreads : Reads pattern ls tail s ∧ Char.ofNat 0 ∉ s.buf ++ s.rest :=
    invariant' (I := fun s => Reads pattern ls tail s ∧ Char.ofNat 0 ∉ s.buf ++ s.rest)
      (fun _ _ _ hI hs => hI.1.step hI.2 hls htail hs)
      ⟨hstart, hzero⟩ h
  obtain ⟨⟨done, left, hsplit, hout, htext, hshort⟩, hnone, hfits⟩ := hreads.1
  have hleft : left.takeWhile short = [] := by
    rcases left with _ | ⟨l, left⟩
    · rfl
    have hline : s.buf ++ s.rest = l ++ '\n' :: (lined left ++ tail) := by
      rw [htext, lined, List.flatMap_cons, List.append_assoc, List.append_assoc]
      rfl
    have hlong : s.buf.length ≤ l.length ∧ s.rest ≠ [] := by
      obtain ⟨a, hla, harest⟩ | ⟨a, hba, harest⟩ := List.append_eq_append_iff.mp hline
      · rw [hla, harest, List.length_append]
        exact ⟨Nat.le_add_right _ _, by simp⟩
      · rcases a with _ | ⟨x, a⟩
        · rw [hba, List.append_nil]
          have hrest : '\n' :: (lined left ++ tail) = s.rest := harest
          exact ⟨Nat.le_refl _, hrest ▸ List.cons_ne_nil _ _⟩
        · obtain ⟨rfl, -⟩ := List.cons.inj harest
          exact absurd (hba ▸ List.mem_append_right _ List.mem_cons_self) hnone
    have hfull := hover.resolve_left hlong.2
    have hnot : short l = false := by
      rw [short, decide_eq_false_iff_not]
      omega
    rw [List.takeWhile_cons, hnot]
    rfl
  rw [hout, hsplit, List.takeWhile_append_of_pos hshort, hleft, List.append_nil]

/-- Two lines, and a third that does not end, in three pieces. -/
theorem grep_lines_sample :
    ∃ s, run (step ['b', '*', '$']) (start ['a', 'b', '\n', 'c', '\n', 'b']) [1, 3, 2] = some s ∧
      s.out = printed ['b', '*', '$'] ([['a', 'b'], ['c']].takeWhile short) := by
  obtain ⟨s, hs, hover⟩ : ∃ s,
      run (step ['b', '*', '$']) (start ['a', 'b', '\n', 'c', '\n', 'b']) [1, 3, 2] = some s ∧
        s.Over := by
    refine ⟨_, rfl, ?_⟩
    exact .inl rfl
  have hdata : ['a', 'b', '\n', 'c', '\n', 'b'] = lined [['a', 'b'], ['c']] ++ ['b'] := rfl
  exact ⟨s, hs, grep_lines (by simp) hdata (by simp) (by simp) hs hover⟩

end Grep

end MiniProject.User
