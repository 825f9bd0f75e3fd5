import Mathlib.Algebra.Order.Ring.Int
import Mathlib.Data.List.Basic
import Mathlib.Data.Int.Notation

/-!
# Machinery/Scanf — words and numbers, printed and scanned back

The conversions `%s` and `%d` of `printf` and `scanf`.  A scan skips space, takes as much as it can
and leaves the rest: a word ends at the next space, a number at the next character that is no digit.
What has been printed is scanned back as it was if something of the kind follows it
(`scanWord_append`, `scanInt_append`), and a scanned word never has a space in it.
-/

namespace MiniProject

/-- `isspace` in the C locale. -/
def isSpace (c : Char) : Bool := c = ' ' || (9 ≤ c.toNat && c.toNat ≤ 13)

/-- No space in a text. -/
def Spaceless (cs : List Char) : Prop := ∀ c ∈ cs, isSpace c = false

instance (cs : List Char) : Decidable (Spaceless cs) := List.decidableBAll _ cs

/-- `%d` of `printf`. -/
def printInt : ℤ → List Char
  | .ofNat n => Nat.toDigits 10 n
  | .negSucc n => '-' :: Nat.toDigits 10 (n + 1)

/-- `%ws` of `scanf`, `w` the width: the word and the rest. -/
def scanWord (w : ℕ) (cs : List Char) : Option (List Char × List Char) :=
  let cs := cs.dropWhile isSpace
  let word := (cs.take w).takeWhile fun c => !isSpace c
  if word = [] then none else some (word, cs.drop word.length)

/-- The digits of a number, at least one. -/
def scanDigits (cs : List Char) : Option (ℕ × List Char) :=
  let ds := cs.takeWhile Char.isDigit
  if ds = [] then none else some (Nat.ofDigitChars 10 ds 0, cs.dropWhile Char.isDigit)

/-- `%d` of `scanf`. -/
def scanInt (cs : List Char) : Option (ℤ × List Char) :=
  match cs.dropWhile isSpace with
  | '-' :: cs => (scanDigits cs).map fun p => (-p.1, p.2)
  | '+' :: cs => (scanDigits cs).map fun p => (p.1, p.2)
  | cs => (scanDigits cs).map fun p => (p.1, p.2)

/-! ## Words -/

theorem dropWhile_isSpace_of_spaceless {cs rest : List Char} (hne : cs ≠ []) (h : Spaceless cs) :
    (cs ++ rest).dropWhile isSpace = cs ++ rest := by
  obtain ⟨c, cs, rfl⟩ := List.exists_cons_of_ne_nil hne
  rw [List.cons_append, List.dropWhile_cons_of_neg (by simp [h c List.mem_cons_self])]

/-- **A word in front of a space is scanned back.** -/
theorem scanWord_append {w : ℕ} {cs t : List Char} (hne : cs ≠ []) (h : Spaceless cs)
    (hw : cs.length ≤ w) (ht : ∀ c ∈ t.head?, isSpace c) :
    scanWord w (cs ++ t) = some (cs, t) := by
  have hword : ((cs ++ t).take w).takeWhile (fun c => !isSpace c) = cs := by
    rw [List.take_append, List.take_of_length_le hw, List.takeWhile_append_of_pos fun c hc => by
      rw [h c hc]; rfl]
    have hnone : (t.take (w - cs.length)).takeWhile (fun c => !isSpace c) = [] := by
      rcases t with _ | ⟨c, t⟩
      · simp
      · rcases w - cs.length with _ | k
        · rfl
        · rw [List.take_succ_cons, List.takeWhile_cons_of_neg (by simp [ht c rfl])]
    rw [hnone, List.append_nil]
  simp only [scanWord, dropWhile_isSpace_of_spaceless hne h, hword, if_neg hne, List.drop_left]

theorem scanWord_space {w : ℕ} {c : Char} (hc : isSpace c) (cs : List Char) :
    scanWord w (c :: cs) = scanWord w cs := by
  rw [scanWord, scanWord, List.dropWhile_cons_of_pos hc]

theorem spaceless_of_scanWord {w : ℕ} {cs word rest : List Char}
    (h : scanWord w cs = some (word, rest)) : Spaceless word := by
  simp only [scanWord] at h
  split at h
  · cases h
  · cases h
    intro c hc
    simpa using List.all_eq_true.mp List.all_takeWhile c hc

/-- A scanned word is gone from the text. -/
theorem length_scanWord {w : ℕ} {cs word rest : List Char}
    (h : scanWord w cs = some (word, rest)) : rest.length < cs.length := by
  simp only [scanWord] at h
  split at h
  · cases h
  · rename_i hne
    cases h
    have hword := List.length_pos_iff.mpr hne
    have hdrop := (List.dropWhile_suffix (l := cs) isSpace).length_le
    have hle := ((List.takeWhile_sublist (fun c => !isSpace c)).trans
      (List.take_sublist w (cs.dropWhile isSpace))).length_le
    rw [List.length_drop]
    omega

/-! ## Numbers -/

theorem length_scanDigits {cs rest : List Char} {n : ℕ} (h : scanDigits cs = some (n, rest)) :
    rest.length ≤ cs.length := by
  simp only [scanDigits] at h
  split at h
  · cases h
  · cases h
    exact (List.dropWhile_suffix _).length_le

theorem length_scanInt {cs rest : List Char} {n : ℤ} (h : scanInt cs = some (n, rest)) :
    rest.length ≤ cs.length := by
  have hdrop := (List.dropWhile_suffix (l := cs) isSpace).length_le
  rw [scanInt] at h
  split at h
  · rename_i heq
    obtain ⟨⟨k, rest'⟩, hscan, hmk⟩ := Option.map_eq_some_iff.mp h
    cases hmk
    have hlen := length_scanDigits hscan
    rw [heq, List.length_cons] at hdrop
    dsimp only
    omega
  · rename_i heq
    obtain ⟨⟨k, rest'⟩, hscan, hmk⟩ := Option.map_eq_some_iff.mp h
    cases hmk
    have hlen := length_scanDigits hscan
    rw [heq, List.length_cons] at hdrop
    dsimp only
    omega
  · obtain ⟨⟨k, rest'⟩, hscan, hmk⟩ := Option.map_eq_some_iff.mp h
    cases hmk
    exact Nat.le_trans (length_scanDigits hscan) hdrop

theorem scanDigits_append (n : ℕ) {t : List Char} (ht : ∀ c ∈ t.head?, c.isDigit = false) :
    scanDigits (Nat.toDigits 10 n ++ t) = some (n, t) := by
  have hdigit : ∀ c ∈ Nat.toDigits 10 n, c.isDigit := fun c hc =>
    Nat.isDigit_of_mem_toDigits (by decide) (by decide) hc
  have htake : t.takeWhile Char.isDigit = [] := by
    cases t with
    | nil => rfl
    | cons c t => rw [List.takeWhile_cons_of_neg (by simp [ht c rfl])]
  have hdrop : t.dropWhile Char.isDigit = t := by
    cases t with
    | nil => rfl
    | cons c t => rw [List.dropWhile_cons_of_neg (by simp [ht c rfl])]
  have hne : Nat.toDigits 10 n ≠ [] := Nat.toDigits_ne_nil
  simp only [scanDigits, List.takeWhile_append_of_pos hdigit, List.dropWhile_append_of_pos hdigit,
    htake, hdrop, List.append_nil, if_neg hne, Nat.ofDigitChars_ten_toDigits]

theorem isSpace_eq_false_of_isDigit {c : Char} (h : c.isDigit) : isSpace c = false := by
  simp only [Char.isDigit, Bool.and_eq_true, decide_eq_true_eq] at h
  have h48 : 48 ≤ c.toNat := h.1
  have hne : c ≠ ' ' := by
    rintro rfl
    exact absurd h48 (by decide)
  simp [isSpace, hne]
  omega

/-- **A number behind a space, with no digit behind it, is scanned back.** -/
theorem scanInt_append (n : ℤ) {t : List Char} (ht : ∀ c ∈ t.head?, c.isDigit = false) :
    scanInt (' ' :: (printInt n ++ t)) = some (n, t) := by
  have hspace : isSpace ' ' := rfl
  rw [scanInt, List.dropWhile_cons_of_pos hspace]
  cases n with
  | ofNat k =>
    obtain ⟨d, ds, hds⟩ := List.exists_cons_of_ne_nil (Nat.toDigits_ne_nil (n := k) (b := 10))
    have hd : d.isDigit :=
      Nat.isDigit_of_mem_toDigits (by decide) (by decide) (hds ▸ List.mem_cons_self)
    have hscan := scanDigits_append k ht
    rw [printInt, hds, List.cons_append,
      List.dropWhile_cons_of_neg (by simp [isSpace_eq_false_of_isDigit hd])]
    rw [hds, List.cons_append] at hscan
    split
    · rename_i heq
      cases heq
      exact absurd hd (by decide)
    · rename_i heq
      cases heq
      exact absurd hd (by decide)
    · rw [hscan]
      rfl
  | negSucc k =>
    rw [printInt, List.cons_append, List.dropWhile_cons_of_neg (by decide)]
    exact congrArg (Option.map _) (scanDigits_append (k + 1) ht)

end MiniProject
