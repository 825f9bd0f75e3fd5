import Mathlib.Data.List.TakeWhile
import MiniProject.Machinery.Scanf

/-!
# Machinery/Strtol — a number out of a text, into a smaller type

`strtol` reads what `%d` reads, holds it at the ends of `long`, and says where it stopped; a text
with no number in it is a zero read up to its own beginning.  The cast to `int` keeps what fits
(`castInt_of_lt`) and never gives more than fits (`castInt_lt`), so a long enough text of digits
comes out as some other number.
-/

namespace MiniProject

/-- `LONG_MAX`. -/
def longMax : ℤ := 2 ^ 63 - 1

/-- `LONG_MIN`. -/
def longMin : ℤ := -2 ^ 63

/-- `strtol(cs, &end, 10)`: the value and what `end` points to. -/
def strtol (cs : List Char) : ℤ × List Char :=
  match scanInt cs with
  | none => (0, cs)
  | some (z, rest) => (max longMin (min z longMax), rest)

/-- `(int)z`. -/
def castInt (z : ℤ) : ℤ := z.bmod (2 ^ 32)

/-- A non-empty text of decimal digits. -/
def Decimal (cs : List Char) : Prop := cs ≠ [] ∧ ∀ c ∈ cs, c.isDigit

instance (cs : List Char) : Decidable (Decimal cs) :=
  decidable_of_iff (cs ≠ [] ∧ cs.all Char.isDigit) (and_congr_right' List.all_eq_true)

/-- The number that digits denote. -/
def decimal (cs : List Char) : ℕ := Nat.ofDigitChars 10 cs 0

/-! ## Digits -/

theorem scanDigits_of_decimal {cs : List Char} (h : Decimal cs) :
    scanDigits cs = some (decimal cs, []) := by
  have htake : cs.takeWhile Char.isDigit = cs := List.takeWhile_eq_self_iff.mpr h.2
  have hdrop : cs.dropWhile Char.isDigit = [] := List.dropWhile_eq_nil_iff.mpr h.2
  simp only [scanDigits, htake, hdrop, if_neg h.1, decimal]

theorem scanInt_of_decimal {cs : List Char} (h : Decimal cs) :
    scanInt cs = some ((decimal cs : ℤ), []) := by
  have hscan := scanDigits_of_decimal h
  obtain ⟨hne, hd⟩ := h
  obtain ⟨d, ds, rfl⟩ := List.exists_cons_of_ne_nil hne
  have hd := hd d List.mem_cons_self
  rw [scanInt, List.dropWhile_cons_of_neg (by simp [isSpace_eq_false_of_isDigit hd])]
  split
  · rename_i heq
    cases heq
    exact absurd hd (by decide)
  · rename_i heq
    cases heq
    exact absurd hd (by decide)
  · rw [hscan]
    rfl

/-- **Digits are read to their end**, and held at `LONG_MAX`. -/
theorem strtol_of_decimal {cs : List Char} (h : Decimal cs) :
    strtol cs = (min (decimal cs : ℤ) longMax, []) := by
  have hpos : longMin ≤ min (decimal cs : ℤ) longMax := by
    simp only [longMin, longMax]
    omega
  rw [strtol, scanInt_of_decimal h]
  exact Prod.ext (Int.max_eq_right hpos) rfl

/-! ## The cast -/

theorem castInt_of_lt {z : ℤ} (h0 : 0 ≤ z) (h : z < 2 ^ 31) : castInt z = z := by
  have hlo : -((2 ^ 32 : ℕ) : ℤ) ≤ z * 2 := by omega
  have hhi : z * 2 < (2 ^ 32 : ℕ) := by omega
  exact Int.bmod_eq_of_le_mul_two hlo hhi

theorem castInt_lt (z : ℤ) : castInt z < 2 ^ 31 := Int.bmod_lt (by decide)

/-- The sign that is left is bit 31. -/
theorem castInt_neg_iff (z : ℤ) : castInt z < 0 ↔ 2 ^ 31 ≤ z % 2 ^ 32 := by
  simp only [castInt, Int.bmod]
  split <;> omega

theorem castInt_pos_iff (z : ℤ) : 0 < castInt z ↔ 0 < z % 2 ^ 32 ∧ z % 2 ^ 32 < 2 ^ 31 := by
  simp only [castInt, Int.bmod]
  split <;> omega

/-- **A number that fits comes through.** -/
theorem castInt_strtol_of_lt {cs : List Char} (h : Decimal cs) (hlt : decimal cs < 2 ^ 31) :
    castInt (strtol cs).1 = decimal cs := by
  have hmin : min (decimal cs : ℤ) longMax = decimal cs := by
    simp only [longMax]
    omega
  rw [strtol_of_decimal h, hmin]
  exact castInt_of_lt (by omega) (by omega)

/-- **What comes through is the number only if it fits.** -/
theorem castInt_strtol_eq_iff {cs : List Char} (h : Decimal cs) :
    castInt (strtol cs).1 = decimal cs ↔ decimal cs < 2 ^ 31 := by
  refine ⟨fun heq => ?_, castInt_strtol_of_lt h⟩
  have hlt := castInt_lt (strtol cs).1
  omega

example : castInt (strtol "4294967297".toList).1 = 1 := by decide

example : castInt (strtol "99999999999999999999".toList).1 = -1 := by decide

end MiniProject
