import Mathlib.Algebra.Order.Ring.Int
import Mathlib.Data.Nat.Bitwise
import Mathlib.Data.Nat.Notation
import Mathlib.Logic.Function.Basic

/-!
# Machinery/Bytes — little-endian fields in a block of bytes

A block is `n` bytes.  A field of `k` bytes at an offset is read and written least significant byte
first; it reads as it was written, and a write leaves every field beside it alone.
-/

namespace MiniProject

/-- A block of `n` bytes. -/
abbrev Bytes (n : ℕ) := Fin n → BitVec 8

namespace Bytes

variable {n k l off off' : ℕ}

/-- The byte at a position; there is nothing behind the block. -/
def at' (d : Bytes n) (i : ℕ) : BitVec 8 := if h : i < n then d ⟨i, h⟩ else 0

/-- Byte `i` of a field. -/
def byte (v : BitVec (8 * k)) (i : ℕ) : BitVec 8 := v.extractLsb' (8 * i) 8

/-- The field of `k` bytes at `off`. -/
def load (k : ℕ) (d : Bytes n) (off : ℕ) : BitVec (8 * k) :=
  BitVec.ofNat _ (Nat.ofBits fun i : Fin (8 * k) => (d.at' (off + i / 8)).getLsbD (i % 8))

/-- The field at `off` gets the value `v`. -/
def store (d : Bytes n) (off : ℕ) (v : BitVec (8 * k)) : Bytes n :=
  fun i => if off ≤ i ∧ i < off + k then byte v (i - off) else d i

/-- The bytes from `off` on become `src`. -/
def copy (d : Bytes n) (off : ℕ) (src : List (BitVec 8)) : Bytes n :=
  fun i => if off ≤ i then (src[(i : ℕ) - off]?).getD (d i) else d i

/-- The `m` bytes from `off` on. -/
def slice (d : Bytes n) (off m : ℕ) : List (BitVec 8) := (List.range m).map fun i => d.at' (off + i)

theorem at'_store (d : Bytes n) (v : BitVec (8 * k)) {i : ℕ} (hi : i < n) :
    (d.store off v).at' i = if off ≤ i ∧ i < off + k then byte v (i - off) else d.at' i := by
  simp only [at', hi, dif_pos, store]

theorem getLsbD_load (d : Bytes n) (i : ℕ) :
    (d.load k off).getLsbD i =
      (decide (i < 8 * k) && (d.at' (off + i / 8)).getLsbD (i % 8)) := by
  rw [load, BitVec.getLsbD_ofNat]
  by_cases hi : i < 8 * k
  · rw [Nat.testBit_ofBits_lt _ _ hi]
  · simp [hi]

/-- **A field reads as it was written.** -/
@[simp] theorem load_store (d : Bytes n) (v : BitVec (8 * k)) (h : off + k ≤ n) :
    (d.store off v).load k off = v := by
  refine BitVec.eq_of_getLsbD_eq fun i hi => ?_
  have hdiv : i / 8 < k := by omega
  have hmod : i % 8 < 8 := Nat.mod_lt _ (by omega)
  rw [getLsbD_load, at'_store _ _ (by omega), if_pos (by omega), Nat.add_sub_cancel_left, byte,
    BitVec.getLsbD_extractLsb', Nat.div_add_mod]
  simp [hi, hmod]

/-- What is the same byte for byte reads the same. -/
theorem load_congr {d e : Bytes n} (h : ∀ i < k, d.at' (off + i) = e.at' (off + i)) :
    d.load k off = e.load k off := by
  refine BitVec.eq_of_getLsbD_eq fun i hi => ?_
  rw [getLsbD_load, getLsbD_load, h _ (by omega)]

/-- **A write leaves the fields beside it alone.** -/
theorem load_store_of_disjoint (d : Bytes n) (v : BitVec (8 * k))
    (h : off' + l ≤ off ∨ off + k ≤ off') : (d.store off v).load l off' = d.load l off' := by
  refine load_congr fun i hi => ?_
  by_cases hn : off' + i < n
  · rw [at'_store _ _ hn, if_neg (by omega)]
  · simp [at', hn]

/-! ## Arrays of fields -/

/-- The `m` fields from `off` on. -/
def loadAll (k : ℕ) (d : Bytes n) (off m : ℕ) : List (BitVec (8 * k)) :=
  (List.range m).map fun i => d.load k (off + k * i)

/-- The fields from `off` on get the values, one after the other. -/
def storeAll (d : Bytes n) (off : ℕ) : List (BitVec (8 * k)) → Bytes n
  | [] => d
  | v :: vs => storeAll (d.store off v) (off + k) vs

theorem load_storeAll_of_le (d : Bytes n) (vs : List (BitVec (8 * k))) (h : off' + l ≤ off) :
    (d.storeAll off vs).load l off' = d.load l off' := by
  induction vs generalizing d off with
  | nil => rfl
  | cons v vs ih => rw [storeAll, ih _ (by omega), load_store_of_disjoint _ _ (.inl h)]

/-- **An array reads as it was written.** -/
theorem loadAll_storeAll (d : Bytes n) (vs : List (BitVec (8 * k)))
    (h : off + k * vs.length ≤ n) : (d.storeAll off vs).loadAll k off vs.length = vs := by
  induction vs generalizing d off with
  | nil => rfl
  | cons v vs ih =>
    rw [List.length_cons, Nat.mul_succ] at h
    have htail : ((d.store off v).storeAll (off + k) vs).loadAll k (off + k) vs.length = vs :=
      ih _ (by omega)
    have hshift (i : ℕ) : off + k * (i + 1) = off + k + k * i := by rw [Nat.mul_succ]; omega
    rw [loadAll, List.length_cons, List.range_succ_eq_map, List.map_cons, List.map_map, storeAll,
      Nat.mul_zero, Nat.add_zero, load_storeAll_of_le _ _ (Nat.le_refl _),
      load_store _ _ (by omega)]
    refine congrArg (v :: ·) (Eq.trans (List.map_congr_left fun i _ => ?_) htail)
    simp only [Function.comp_apply, Nat.succ_eq_add_one, hshift]

end Bytes

end MiniProject
