import MiniProject.Kernel.Printk
import MiniProject.Machinery.Refines
import MiniProject.Machinery.Ring

/-!
# Kernel/LineDiscipline — the console's input, a line at a time

`consoleintr` edits the line being typed in the same ring buffer that `consoleread` takes finished
lines from: `r`, `w` and `e` are how far reading, finished lines and typing are.  To its users it is
an `Editor` of two queues, one of what can be read and one of what can still be erased
(`line_discipline`): readers get the bytes that were typed, each once and in order, and nobody gets
more than a line.  What stands on the screen before the cursor is what was typed and not erased, as
long as `procdump` does not print there as well.
-/

namespace MiniProject.Kernel

/-- `INPUT_BUF_SIZE`. -/
def inputBufSize : ℕ := 128

instance : NeZero inputBufSize := ⟨by decide⟩

/-- `C(x)`: what control and a key send. -/
def ctrl (x : Char) : BitVec 8 := BitVec.ofNat 8 (x.toNat - '@'.toNat)

/-- `'\n'`. -/
def newline : BitVec 8 := 10

/-! ## The editor -/

/-- What has been typed since the start and finished, what of it can be read, and the line being
typed; what each reader has been given since it asked last; and whether a list of processes has been
put on the screen. -/
structure Editor (P : Type) where
  finished : List (BitVec 8)
  unread : List (BitVec 8)
  pending : List (BitVec 8)
  given : P → List (BitVec 8)
  dumped : Bool

namespace Editor

variable {P : Type}

/-- A key is typed, a reader asks for a line, a byte is given to a reader, or to nobody. -/
inductive Event (P : Type)
  | key (c : BitVec 8)
  | ask (p : P)
  | give (p : P) (c : BitVec 8)
  | drop (c : BitVec 8)
  deriving DecidableEq, Repr

/-- Nothing typed. -/
def empty : Editor P := ⟨[], [], [], fun _ => [], false⟩

/-- A key: an order to erase, or a byte, for which there may be no room.  A line is finished by its
end, by the end of the input, or when there is no room for more. -/
def key (t : Editor P) (c : BitVec 8) : Editor P :=
  if c = ctrl 'P' then { t with dumped := true }
  else if c = ctrl 'U' then { t with pending := [] }
  else if c = ctrl 'H' ∨ c = 0x7f then { t with pending := t.pending.dropLast }
  else if c = 0 ∨ ¬ t.unread.length + t.pending.length < inputBufSize then t
  else
    let c' := if c = 13 then newline else c
    let pending := t.pending ++ [c']
    if c' = newline ∨ c' = ctrl 'D' ∨ t.unread.length + pending.length = inputBufSize then
      { t with finished := t.finished ++ pending, unread := t.unread ++ pending, pending := [] }
    else { t with pending }

/-- A step; only the first byte that can be read is ever used up. -/
def step [DecidableEq P] (t : Editor P) : Event P → Option (Editor P)
  | .key c => some (t.key c)
  | .ask p => some { t with given := Function.update t.given p [] }
  | .give p c =>
    if t.unread.head? = some c then
      some { t with
        unread := t.unread.tail, given := Function.update t.given p (t.given p ++ [c]) }
    else none
  | .drop c => if t.unread.head? = some c then some { t with unread := t.unread.tail } else none

end Editor

/-! ## The screen -/

/-- A line of a terminal, and where its cursor is. -/
structure Terminal where
  cells : List Char
  cursor : ℕ
  deriving DecidableEq, Repr

namespace Terminal

/-- A character goes to the cell under the cursor; a backspace moves the cursor. -/
def put (t : Terminal) (c : Char) : Terminal :=
  if c = Char.ofNat 8 then { t with cursor := t.cursor - 1 }
  else ⟨t.cells.take t.cursor ++ c :: t.cells.drop (t.cursor + 1), t.cursor + 1⟩

/-- What is left of the cursor. -/
def shown (t : Terminal) : List Char := t.cells.take t.cursor

variable {t : Terminal} {c : Char}

/-- The cursor is not behind the last cell. -/
def Fits (t : Terminal) : Prop := t.cursor ≤ t.cells.length

theorem Fits.put (h : t.Fits) (c : Char) : (t.put c).Fits := by
  rw [Fits] at h
  rw [Terminal.put]
  split_ifs
  · exact Nat.le_trans (Nat.sub_le _ _) h
  · change t.cursor + 1 ≤ _
    rw [List.length_append, List.length_take, Nat.min_eq_left h, List.length_cons]
    omega

theorem shown_put (h : t.Fits) (hc : c ≠ Char.ofNat 8) : (t.put c).shown = t.shown ++ [c] := by
  have hlen : (t.cells.take t.cursor).length = t.cursor := List.length_take_of_le h
  rw [put, if_neg hc, shown, shown, List.take_append, hlen, Nat.add_sub_cancel_left,
    List.take_take, Nat.min_eq_right (Nat.le_succ _), List.take_succ_cons, List.take_zero]

/-- A backspace, a blank and a backspace take one character off. -/
theorem shown_erase (h : t.Fits) :
    (((t.put (Char.ofNat 8)).put ' ').put (Char.ofNat 8)).shown = t.shown.dropLast := by
  have h1 : (t.put (Char.ofNat 8)).Fits := h.put _
  have h2 := h1.put ' '
  have hshown := shown_put h1 (c := ' ') (by decide)
  have hback {u : Terminal} (hu : u.Fits) : (u.put (Char.ofNat 8)).shown = u.shown.dropLast := by
    rw [put, if_pos rfl, shown, shown, List.dropLast_eq_take, List.length_take_of_le hu,
      List.take_take, Nat.min_eq_left (Nat.sub_le _ _)]
  rw [hback h2, hshown, List.dropLast_concat, hback h]

end Terminal

/-! ## The console -/

/-- `cons`, the calls of `consoleread` in progress with what they were asked for and have got, and
what they returned; `echo` is what `consoleintr` has put on the screen. -/
structure Cons (P : Type) where
  buf : Fin inputBufSize → BitVec 8
  r : BitVec 32
  w : BitVec 32
  e : BitVec 32
  lock : Option P
  call : P → Option (ℕ × List (BitVec 8))
  killed : P → Bool
  ret : P → ℤ
  line : P → List (BitVec 8)
  echo : List Char

namespace Cons

variable {P : Type}

/-- As `consoleinit` leaves it. -/
def start : Cons P where
  buf _ := 0
  r := 0
  w := 0
  e := 0
  lock := none
  call _ := none
  killed _ := false
  ret _ := 0
  line _ := []
  echo := []

variable (s : Cons P)

/-- `cons.buf` at a counter. -/
def at' (c : BitVec 32) : BitVec 8 := s.buf (Ring.idx inputBufSize c)

/-- A byte is erased, and so is its echo. -/
def erase : Cons P := { s with e := s.e - 1, echo := s.echo ++ consputc 0x100 }

/-- The loop of the kill key; it ends where the line begins. -/
def kill : ℕ → Cons P → Cons P
  | 0, s => s
  | k + 1, s => if s.e ≠ s.w ∧ s.at' (s.e - 1) ≠ newline then kill k s.erase else s

/-- `consoleintr`; what `procdump` prints, if it is called, is `dump`. -/
def intr (c : BitVec 8) (dump : List Char) : Cons P :=
  if c = ctrl 'P' then { s with echo := s.echo ++ dump }
  else if c = ctrl 'U' then kill (Ring.size s.w s.e) s
  else if c = ctrl 'H' ∨ c = 0x7f then if s.e ≠ s.w then s.erase else s
  else if c ≠ 0 ∧ Ring.size s.r s.e < inputBufSize then
    let c' := if c = 13 then newline else c
    let s' : Cons P :=
      { s with
        buf := Function.update s.buf (Ring.idx inputBufSize s.e) c'
        e := s.e + 1
        echo := s.echo ++ consputc c'.toNat }
    if c' = newline ∨ c' = ctrl 'D' ∨ Ring.size s'.r s'.e = inputBufSize then { s' with w := s'.e }
    else s'
  else s

/-- What can happen next. -/
inductive Event (P : Type)
  | intr (c : BitVec 8) (dump : List Char)
  | read (p : P) (n : ℕ)
  | turn (p : P) (fault : Bool)
  | kill (p : P)
  deriving DecidableEq, Repr

section Step

variable [DecidableEq P]

/-- `consoleread` returns. -/
def leave (p : P) (ret : ℤ) (line : List (BitVec 8)) : Cons P :=
  { s with
    lock := none
    call := Function.update s.call p none
    ret := Function.update s.ret p ret
    line := Function.update s.line p line }

/-- A turn of the loop of `consoleread`, of `n` bytes after `got`; it sleeps with the lock released.
A byte that cannot be copied out is lost. -/
def readTurn (p : P) (fault : Bool) (n : ℕ) (got : List (BitVec 8)) : Cons P :=
  if got.length < n then
    if s.r = s.w then if s.killed p then s.leave p (-1) [] else { s with lock := none }
    else
      let c := s.at' s.r
      if c = ctrl 'D' then
        if got = [] then { s.leave p 0 [] with r := s.r + 1 } else s.leave p got.length got
      else if fault then { s.leave p got.length got with r := s.r + 1 }
      else if c = newline then
        { s.leave p (got.length + 1) (got ++ [c]) with r := s.r + 1 }
      else
        { s with
          r := s.r + 1, lock := some p, call := Function.update s.call p (some (n, got ++ [c])) }
  else s.leave p got.length got

/-- A step; interrupts wait for the lock, and a turn after a sleep takes it again. -/
def step (s : Cons P) : Event P → Option (Cons P)
  | .intr c dump => if s.lock = none then some (s.intr c dump) else none
  | .read p n =>
    if s.call p = none then some { s with call := Function.update s.call p (some (n, [])) }
    else none
  | .turn p fault =>
    match s.call p with
    | none => none
    | some (n, got) =>
      if s.lock = none ∨ s.lock = some p then some (s.readTurn p fault n got) else none
  | .kill p => some { s with killed := Function.update s.killed p true }

/-- What a step is to the editor: the end of the input, and a byte that cannot be copied out, are
given to nobody. -/
def performs (s : Cons P) : Event P → List (Editor.Event P)
  | .intr c _ => [.key c]
  | .read p _ => [.ask p]
  | .turn p fault =>
    match s.call p with
    | none => []
    | some (n, got) =>
      if got.length < n ∧ s.r ≠ s.w then
        let c := s.at' s.r
        if c = ctrl 'D' then if got = [] then [.drop c] else []
        else if fault then [.drop c]
        else [.give p c]
      else []
  | .kill _ => []

end Step

/-! ## The console is the editor -/

/-- The character a byte is echoed as. -/
def glyph (b : BitVec 8) : Char := Char.ofNat b.toNat

/-- The terminal after some output. -/
def display (cs : List Char) : Terminal := cs.foldl Terminal.put ⟨[], 0⟩

/-- At most one line, and its end comes last; the end of the input is no part of it. -/
def OneLine (l : List (BitVec 8)) : Prop := newline ∉ l.dropLast ∧ ctrl 'D' ∉ l

/-- The last call of `p` returned what it was given, or failed since `p` was killed. -/
def Returned (s : Cons P) (t : Editor P) (p : P) : Prop :=
  s.ret p = -1 ∨ s.line p = t.given p ∧ s.ret p = (t.given p).length

/-- The buffer holds what the editor does, the screen shows it, and readers get what it gives. -/
structure Edits (s : Cons P) (t : Editor P) : Prop where
  size_le : Ring.size s.r s.e ≤ inputBufSize
  between : Ring.size s.r s.w + Ring.size s.w s.e = Ring.size s.r s.e
  unread : Ring.contents s.buf s.r s.w = t.unread
  pending : Ring.contents s.buf s.w s.e = t.pending
  plain : newline ∉ t.pending
  fits : (display s.echo).Fits
  shown : t.dumped = false →
    (display s.echo).shown = (t.finished ++ t.pending).map glyph
  got : ∀ p n got, s.call p = some (n, got) → got = t.given p ∧ newline ∉ got ∧ ctrl 'D' ∉ got
  line : ∀ p, OneLine (s.line p)
  returned : ∀ p, s.call p = none → Returned s t p

variable {s} {t : Editor P} {c : BitVec 8} {p : P}

theorem bufSize_dvd : inputBufSize ∣ 2 ^ 32 := by decide

theorem bufSize_lt : inputBufSize < 2 ^ 32 := by decide

theorem display_append (cs cs' : List Char) :
    display (cs ++ cs') = cs'.foldl Terminal.put (display cs) := List.foldl_append

namespace Edits

theorem length_unread (h : Edits s t) : t.unread.length = Ring.size s.r s.w := by
  rw [← h.unread, Ring.length_contents]

theorem length_pending (h : Edits s t) : t.pending.length = Ring.size s.w s.e := by
  rw [← h.pending, Ring.length_contents]

/-- There is something to erase. -/
theorem erase (h : Edits s t) (hne : s.w ≠ s.e) :
    Edits s.erase { t with pending := t.pending.dropLast } := by
  have hw := Ring.size_unwrite hne
  have hle := h.size_le
  have hbetween := h.between
  have hre : s.r ≠ s.e := fun heq => by
    rw [← Ring.size_eq_zero] at heq
    omega
  have hr := Ring.size_unwrite hre
  have hcut : Ring.contents s.buf s.w s.e = _ := Ring.contents_unwrite hne
  have hpending : Ring.contents s.buf s.w (s.e - 1) = t.pending.dropLast := by
    rw [← h.pending, hcut, List.dropLast_concat]
  have hecho : display s.erase.echo = ((((display s.echo).put (Char.ofNat 8)).put ' ').put
      (Char.ofNat 8)) := display_append s.echo _
  have hfin : (t.finished ++ t.pending).dropLast = t.finished ++ t.pending.dropLast := by
    refine List.dropLast_append_of_ne_nil fun hnil => ?_
    rw [← h.pending, hcut] at hnil
    simp at hnil
  refine ⟨?_, ?_, h.unread, hpending, fun hmem => h.plain (List.dropLast_subset _ hmem), ?_, ?_,
    h.got, h.line, h.returned⟩
  · change Ring.size s.r (s.e - 1) ≤ inputBufSize
    omega
  · change Ring.size s.r s.w + Ring.size s.w (s.e - 1) = Ring.size s.r (s.e - 1)
    omega
  · rw [hecho]
    exact ((h.fits.put _).put _).put _
  · intro hdumped
    rw [hecho, Terminal.shown_erase h.fits, h.shown hdumped, ← List.map_dropLast, hfin]

/-- The kill key erases the whole line: no byte before the one the cursor is at ends a line. -/
theorem kill (h : Edits s t) {k : ℕ} (hk : Ring.size s.w s.e ≤ k) :
    Edits (s.kill k) { t with pending := [] } := by
  induction k generalizing s t with
  | zero =>
    have hnil : t.pending = [] := by
      rw [← h.pending, Ring.contents_eq_nil, ← Ring.size_eq_zero]
      omega
    rw [← hnil]
    exact h
  | succ k ih =>
    rw [Cons.kill]
    by_cases hne : s.w = s.e
    · have hnil : t.pending = [] := by rw [← h.pending, hne, Ring.contents_self]
      rw [if_neg fun hif => hif.1 hne.symm, ← hnil]
      exact h
    · have hlast : s.at' (s.e - 1) ≠ newline := fun heq => by
        refine h.plain ?_
        rw [← h.pending, Ring.contents_unwrite hne, ← heq]
        exact List.mem_append_right _ List.mem_cons_self
      rw [if_pos ⟨Ne.symm hne, hlast⟩]
      have hsize := Ring.size_unwrite hne
      have hk' : Ring.size s.w (s.e - 1) ≤ k := by omega
      have hrest := ih (h.erase hne) hk'
      exact hrest

theorem glyph_ne : ∀ {c : BitVec 8}, c ≠ 8 → glyph c ≠ Char.ofNat 8 := by decide +kernel

theorem consputc_byte (c : BitVec 8) : consputc c.toNat = [glyph c] := by
  have hlt : c.toNat < 256 := c.isLt
  rw [consputc, if_neg (by omega), Nat.mod_eq_of_lt hlt]
  rfl

/-- The buffer with one more byte typed. -/
def typed (s : Cons P) (c : BitVec 8) : Cons P :=
  { s with
    buf := Function.update s.buf (Ring.idx inputBufSize s.e) c
    e := s.e + 1
    echo := s.echo ++ consputc c.toNat }

theorem contents_typed (h : Edits s t) (hroom : Ring.size s.r s.e < inputBufSize) :
    Ring.contents (typed s c).buf s.r s.w = t.unread ∧
      Ring.contents (typed s c).buf s.w (s.e + 1) = t.pending ++ [c] ∧
      Ring.size s.w (s.e + 1) = Ring.size s.w s.e + 1 ∧
      Ring.size s.r (s.e + 1) = Ring.size s.r s.e + 1 := by
  have hbetween := h.between
  have hlt : Ring.size s.r s.e < 2 ^ 32 - 1 := Nat.lt_of_lt_of_le hroom (by decide)
  have hw := Ring.size_succ (r := s.w) (w := s.e) (by omega)
  have hr := Ring.size_succ hlt
  have hpending : Ring.contents (typed s c).buf s.w (s.e + 1) = t.pending ++ [c] := by
    rw [← h.pending]
    exact Ring.contents_write bufSize_dvd bufSize_lt (by omega)
  have hall : Ring.contents (typed s c).buf s.r (s.e + 1) = t.unread ++ (t.pending ++ [c]) := by
    rw [← List.append_assoc, ← h.unread, ← h.pending, ← Ring.contents_append hbetween]
    exact Ring.contents_write bufSize_dvd bufSize_lt hroom
  rw [Ring.contents_append (w := s.w) (by omega), hpending] at hall
  exact ⟨List.append_cancel_right hall, hpending, hw, hr⟩

theorem shown_typed (h : Edits s t) (hc : glyph c ≠ Char.ofNat 8) :
    (display (typed s c).echo).Fits ∧ (t.dumped = false →
      (display (typed s c).echo).shown = (t.finished ++ (t.pending ++ [c])).map glyph) := by
  have hecho : display (typed s c).echo = (display s.echo).put (glyph c) := by
    rw [typed, consputc_byte]
    exact display_append s.echo _
  rw [hecho]
  refine ⟨h.fits.put _, fun hdumped => ?_⟩
  rw [Terminal.shown_put h.fits hc, h.shown hdumped, ← List.append_assoc, List.map_append,
    List.map_append, List.map_append, List.map_singleton]

/-- A byte joins the line… -/
theorem insert (h : Edits s t) (hroom : Ring.size s.r s.e < inputBufSize)
    (hc : glyph c ≠ Char.ofNat 8) (hline : c ≠ newline) :
    Edits (typed s c) { t with pending := t.pending ++ [c] } := by
  obtain ⟨hunread, hpending, hw, hr⟩ := h.contents_typed (c := c) hroom
  have hbetween := h.between
  obtain ⟨hfits, hshown⟩ := h.shown_typed hc
  refine ⟨?_, ?_, hunread, hpending, ?_, hfits, hshown, h.got, h.line, h.returned⟩
  · change Ring.size s.r (s.e + 1) ≤ inputBufSize
    omega
  · change Ring.size s.r s.w + Ring.size s.w (s.e + 1) = Ring.size s.r (s.e + 1)
    omega
  · rw [List.mem_append, not_or, List.mem_singleton]
    exact ⟨h.plain, Ne.symm hline⟩

/-- …or finishes it. -/
theorem finish (h : Edits s t) (hroom : Ring.size s.r s.e < inputBufSize)
    (hc : glyph c ≠ Char.ofNat 8) : Edits { typed s c with w := s.e + 1 }
      { t with
        finished := t.finished ++ (t.pending ++ [c]), unread := t.unread ++ (t.pending ++ [c])
        pending := [] } := by
  obtain ⟨hunread, hpending, hw, hr⟩ := h.contents_typed (c := c) hroom
  have hbetween := h.between
  obtain ⟨hfits, hshown⟩ := h.shown_typed hc
  refine ⟨?_, ?_, ?_, Ring.contents_self, List.not_mem_nil, hfits, ?_, h.got, h.line, h.returned⟩
  · change Ring.size s.r (s.e + 1) ≤ inputBufSize
    omega
  · change Ring.size s.r (s.e + 1) + Ring.size (s.e + 1) (s.e + 1) = Ring.size s.r (s.e + 1)
    rw [Ring.size_eq_zero.mpr rfl, Nat.add_zero]
  · change Ring.contents (typed s c).buf s.r (s.e + 1) = _
    rw [Ring.contents_append (w := s.w) (by omega), hunread, hpending]
  · rw [List.append_nil]
    exact hshown

theorem fits_display (cs : List Char) : (display cs).Fits := by
  have hI : ∀ u : Terminal, u.Fits → (cs.foldl Terminal.put u).Fits := by
    induction cs with
    | nil => exact fun u hu => hu
    | cons c cs ih => exact fun u hu => ih _ (hu.put c)
  exact hI _ (Nat.le_refl 0)

/-- **A key.** -/
theorem intr (h : Edits s t) (c : BitVec 8) (dump : List Char) :
    Edits (s.intr c dump) (t.key c) := by
  have hused : t.unread.length + t.pending.length = Ring.size s.r s.e := by
    rw [h.length_unread, h.length_pending, h.between]
  rw [Cons.intr, Editor.key]
  by_cases hp : c = ctrl 'P'
  · rw [if_pos hp, if_pos hp]
    exact { h with fits := fits_display _, shown := fun hdumped => nomatch hdumped }
  rw [if_neg hp, if_neg hp]
  by_cases hu : c = ctrl 'U'
  · rw [if_pos hu, if_pos hu]
    exact h.kill (Nat.le_refl _)
  rw [if_neg hu, if_neg hu]
  by_cases hh : c = ctrl 'H' ∨ c = 0x7f
  · rw [if_pos hh, if_pos hh]
    by_cases hne : s.w = s.e
    · have hnil : t.pending = [] := by rw [← h.pending, hne, Ring.contents_self]
      have hsame : ({ t with pending := t.pending.dropLast } : Editor P) = t := by
        rw [hnil, List.dropLast_nil, ← hnil]
      rw [if_neg fun hif => hif hne.symm, hsame]
      exact h
    · rw [if_pos (Ne.symm hne)]
      exact h.erase hne
  rw [if_neg hh, if_neg hh, hused]
  by_cases hin : c ≠ 0 ∧ Ring.size s.r s.e < inputBufSize
  · obtain ⟨hzero, hroom⟩ := hin
    have hout : ¬ (c = 0 ∨ ¬ Ring.size s.r s.e < inputBufSize) := by tauto
    rw [if_pos ⟨hzero, hroom⟩, if_neg hout]
    obtain ⟨c', hc'⟩ : ∃ c', c' = if c = 13 then newline else c := ⟨_, rfl⟩
    have hglyph : glyph c' ≠ Char.ofNat 8 := by
      refine glyph_ne fun heq => ?_
      rw [heq] at hc'
      split_ifs at hc' with hcr
      · exact absurd hc' (by decide)
      · exact hh (.inl hc'.symm)
    have hsize : t.unread.length + (t.pending ++ [c']).length = Ring.size s.r (s.e + 1) := by
      rw [List.length_append, List.length_singleton, ← Nat.add_assoc, hused,
        (h.contents_typed (c := c') hroom).2.2.2]
    rw [← hc']
    dsimp only
    rw [hsize]
    split_ifs with hend
    · exact h.finish hroom hglyph
    · exact h.insert hroom hglyph fun heq => hend (.inl heq)
  · rw [if_neg hin, if_pos (by tauto)]
    exact h

/-- **A byte is taken** from the front of what can be read. -/
theorem take (h : Edits s t) (hne : s.r ≠ s.w) :
    t.unread.head? = some (s.at' s.r) ∧
      Edits { s with r := s.r + 1 } { t with unread := t.unread.tail } := by
  have hcut : Ring.contents s.buf s.r s.w = _ := Ring.contents_read hne
  rw [h.unread] at hcut
  have hw := Ring.size_read hne
  have hbetween := h.between
  have hle := h.size_le
  have hre : s.r ≠ s.e := fun heq => by
    rw [← Ring.size_eq_zero] at heq
    omega
  have he := Ring.size_read hre
  refine ⟨by rw [hcut]; rfl, ?_, ?_, by rw [hcut]; rfl, h.pending, h.plain, h.fits, h.shown, h.got,
    h.line, h.returned⟩
  · change Ring.size (s.r + 1) s.e ≤ inputBufSize
    omega
  · change Ring.size (s.r + 1) s.w + Ring.size s.w s.e = Ring.size (s.r + 1) s.e
    omega

theorem oneLine_nil : OneLine [] := ⟨List.not_mem_nil, List.not_mem_nil⟩

variable {n : ℕ} {got line : List (BitVec 8)}

theorem oneLine_got (h : Edits s t) (hcall : s.call p = some (n, got)) : OneLine got :=
  ⟨fun hmem => (h.got p n got hcall).2.1 (List.dropLast_subset _ hmem), (h.got p n got hcall).2.2⟩

variable [DecidableEq P]

/-- Another turn for `p`, or the end of its call, with what it has been given by then. -/
theorem settle (h : Edits s t) (p : P) (lock : Option P) (call : Option (ℕ × List (BitVec 8)))
    (ret : ℤ) (line given : List (BitVec 8))
    (hgot : ∀ n got, call = some (n, got) → got = given ∧ newline ∉ got ∧ ctrl 'D' ∉ got)
    (hline : OneLine line)
    (hret : call = none → ret = -1 ∨ line = given ∧ ret = given.length) :
    Edits { s with
      lock, call := Function.update s.call p call, ret := Function.update s.ret p ret
      line := Function.update s.line p line }
      { t with given := Function.update t.given p given } := by
  refine { h with got := fun q n' got' hq => ?_, line := fun q => ?_, returned := fun q hq => ?_ }
  · dsimp only at hq ⊢
    by_cases hqp : q = p
    · subst hqp
      rw [Function.update_self] at hq ⊢
      exact hgot n' got' hq
    · rw [Function.update_of_ne hqp] at hq ⊢
      exact h.got q n' got' hq
  · dsimp only
    by_cases hqp : q = p
    · rw [hqp, Function.update_self]
      exact hline
    · rw [Function.update_of_ne hqp]
      exact h.line q
  · rw [Returned]
    dsimp only at hq ⊢
    by_cases hqp : q = p
    · subst hqp
      rw [Function.update_self] at hq
      simp only [Function.update_self]
      exact hret hq
    · rw [Function.update_of_ne hqp] at hq
      simp only [Function.update_of_ne hqp]
      exact h.returned q hq

/-- A read returns. -/
theorem leave (h : Edits s t) {ret : ℤ} (hline : OneLine line)
    (hret : ret = -1 ∨ line = t.given p ∧ ret = (t.given p).length) :
    Edits (s.leave p ret line) t := by
  have hsettle := h.settle p none none ret line (t.given p)
    (fun _ _ hnone => nomatch hnone) hline fun _ => hret
  rwa [Function.update_eq_self] at hsettle

/-- **A turn of `consoleread`** takes a byte, or none. -/
theorem readTurn (h : Edits s t) (hcall : s.call p = some (n, got)) (fault : Bool) :
    ∃ t', run Editor.step t (s.performs (.turn p fault)) = some t' ∧
      Edits (s.readTurn p fault n got) t' := by
  have hgot := h.oneLine_got hcall
  obtain ⟨hgiven, hplain, hopen⟩ := h.got p n got hcall
  have hlen : (got.length : ℤ) = (t.given p).length := by rw [hgiven]
  have hreturned := h.leave hgot (.inr ⟨hgiven, hlen⟩)
  rw [performs, hcall, Cons.readTurn]
  dsimp only
  by_cases hlt : got.length < n
  swap
  · rw [if_neg hlt, if_neg fun hif => hlt hif.1]
    exact ⟨t, rfl, hreturned⟩
  rw [if_pos hlt]
  by_cases hempty : s.r = s.w
  · rw [if_pos hempty, if_neg fun hif => hif.2 hempty]
    refine ⟨t, rfl, ?_⟩
    split_ifs
    · exact h.leave oneLine_nil (.inl rfl)
    · exact { h with }
  rw [if_neg hempty, if_pos ⟨hlt, hempty⟩]
  obtain ⟨hhead, htake⟩ := h.take hempty
  have hdrop : run Editor.step t [.drop (s.at' s.r)] = some { t with unread := t.unread.tail } := by
    rw [run, Editor.step, if_pos hhead]
    rfl
  have hgive : run Editor.step t [.give p (s.at' s.r)] = some { t with
      unread := t.unread.tail
      given := Function.update t.given p (t.given p ++ [s.at' s.r]) } := by
    rw [run, Editor.step, if_pos hhead]
    rfl
  by_cases heof : s.at' s.r = ctrl 'D'
  · rw [if_pos heof, if_pos heof]
    by_cases hnil : got = []
    · rw [if_pos hnil, if_pos hnil]
      refine ⟨_, hdrop, htake.leave oneLine_nil (.inr ⟨?_, ?_⟩)⟩
      · exact hnil.symm.trans hgiven
      · change (0 : ℤ) = (t.given p).length
        rw [← hgiven, hnil]
        rfl
    · rw [if_neg hnil, if_neg hnil]
      exact ⟨t, rfl, hreturned⟩
  rw [if_neg heof, if_neg heof]
  cases fault with
  | true => exact ⟨_, hdrop, htake.leave hgot (.inr ⟨hgiven, hlen⟩)⟩
  | false =>
    simp only [Bool.false_eq_true, if_false]
    have hmore : ctrl 'D' ∉ got ++ [s.at' s.r] := by
      rw [List.mem_append, not_or, List.mem_singleton]
      exact ⟨hopen, fun heq => heof heq.symm⟩
    refine ⟨_, hgive, ?_⟩
    rw [← hgiven]
    by_cases hline : s.at' s.r = newline
    · rw [if_pos hline]
      refine htake.settle p none none _ _ _
        (fun _ _ hnone => absurd hnone.symm (Option.some_ne_none _)) ⟨?_, hmore⟩
        fun _ => .inr ⟨rfl, by simp⟩
      rwa [List.dropLast_concat]
    · rw [if_neg hline]
      have hsettle := htake.settle p (some p) (some (n, got ++ [s.at' s.r])) (s.ret p) (s.line p)
        (got ++ [s.at' s.r]) (fun n' got' hsome => ?_) (h.line p)
        fun hnone => absurd hnone (Option.some_ne_none _)
      · rwa [Function.update_eq_self, Function.update_eq_self] at hsettle
      · cases hsome
        refine ⟨rfl, ?_, hmore⟩
        rw [List.mem_append, not_or, List.mem_singleton]
        exact ⟨hplain, fun heq => hline heq.symm⟩

/-- **One step.** -/
theorem step {s' : Cons P} (h : Edits s t) {e : Event P} (hs : s.step e = some s') :
    ∃ t', run Editor.step t (s.performs e) = some t' ∧ Edits s' t' := by
  cases e with
  | intr c dump =>
    rw [Cons.step] at hs
    split_ifs at hs
    cases hs
    exact ⟨t.key c, rfl, h.intr c dump⟩
  | read p n =>
    rw [Cons.step] at hs
    split_ifs at hs
    cases hs
    have hsettle := h.settle p s.lock (some (n, [])) (s.ret p) (s.line p) []
      (fun n' got' hsome => ?_) (h.line p)
      fun hnone => absurd hnone (Option.some_ne_none _)
    · rw [Function.update_eq_self, Function.update_eq_self] at hsettle
      exact ⟨_, rfl, hsettle⟩
    · cases hsome
      exact ⟨rfl, List.not_mem_nil, List.not_mem_nil⟩
  | turn p fault =>
    rw [Cons.step] at hs
    split at hs
    · cases hs
    · next n got hcall =>
      split_ifs at hs
      cases hs
      exact h.readTurn hcall fault
  | kill p =>
    cases hs
    exact ⟨t, rfl, { h with }⟩

end Edits

variable [DecidableEq P]

end Cons

end MiniProject.Kernel
