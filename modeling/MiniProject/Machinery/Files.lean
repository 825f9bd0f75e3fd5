import Mathlib.Logic.Function.Basic
import Mathlib.Order.Basic
import Mathlib.Data.List.TakeDrop

/-!
# Machinery/Files — open file descriptions

A description is what `open` makes and `fork` and `dup2` share: a file, a position and the append
flag.  Every descriptor that names it, in whatever process, moves the one position.  Over any types
of description names `H`, files `F` and bytes `β`.

A description also remembers what was written through it, which no operation reads.
-/

namespace MiniProject

universe u v w

/-- An open file description. -/
structure Desc (F : Type v) (β : Type w) where
  file : F
  append : Bool
  pos : ℕ
  sent : List β

/-- The open descriptions and the files; a file without data does not exist. -/
structure Store (H : Type u) (F : Type v) (β : Type w) where
  desc : H → Option (Desc F β)
  data : F → Option (List β)

/-- The bytes `bs` over those of `l` from `at` on; a gap before them reads as zero bytes. -/
def splice {β : Type w} [Inhabited β] (l : List β) (off : ℕ) (bs : List β) : List β :=
  l.take off ++ List.replicate (off - l.length) default ++ bs ++ l.drop (off + bs.length)

section Splice

variable {β : Type w} [Inhabited β]

/-- Writing at the end appends. -/
@[simp] theorem splice_length (l bs : List β) : splice l l.length bs = l ++ bs := by
  simp [splice]

theorem splice_of_le {l : List β} {off : ℕ} (h : off ≤ l.length) (bs : List β) :
    splice l off bs = l.take off ++ bs ++ l.drop (off + bs.length) := by
  simp [splice, Nat.sub_eq_zero_of_le h]

theorem length_splice {l : List β} {off : ℕ} (h : off ≤ l.length) (bs : List β) :
    (splice l off bs).length = max l.length (off + bs.length) := by
  rw [splice_of_le h]
  simp
  omega

/-- What lies behind the bytes written is as it was. -/
theorem drop_splice {l : List β} {off : ℕ} (h : off ≤ l.length) (bs : List β) :
    (splice l off bs).drop (off + bs.length) = l.drop (off + bs.length) := by
  have hlen : (l.take off ++ bs).length = off + bs.length := by simp [Nat.min_eq_left h]
  rw [splice_of_le h, List.drop_append, ← hlen, List.drop_length, Nat.sub_self, List.drop_zero,
    List.nil_append]

end Splice

namespace Store

variable {H : Type u} {F : Type v} {β : Type w} (s : Store H F β)

/-- The bytes of a file; there are none in a file that does not exist. -/
def bytes (f : F) : List β := (s.data f).getD []

theorem bytes_of_data {s : Store H F β} {f : F} {bs : List β} (h : s.data f = some bs) :
    s.bytes f = bs := by
  rw [bytes, h, Option.getD_some]

section Read

variable [DecidableEq H]

/-! ## Opening to read, seeking, reading -/

/-- `open(f, O_RDONLY)` of a file that can be read. -/
def openRead (h : H) (f : F) : Store H F β :=
  { s with desc := Function.update s.desc h (some ⟨f, false, 0, []⟩) }

/-- `lseek(h, 0, SEEK_SET)`. -/
def rewind (h : H) : Store H F β :=
  { s with desc := Function.update s.desc h ((s.desc h).map fun d => { d with pos := 0 }) }

/-- `read(h, buf, k)`: the bytes it returns, and the position behind them. -/
def read (h : H) (k : ℕ) : List β × Store H F β :=
  match s.desc h with
  | none => ([], s)
  | some d =>
    let bs := ((s.bytes d.file).drop d.pos).take k
    (bs, { s with desc := Function.update s.desc h (some { d with pos := d.pos + bs.length }) })

@[simp] theorem bytes_openRead (h : H) (f g : F) : (s.openRead h f).bytes g = s.bytes g := rfl

@[simp] theorem bytes_rewind (h : H) (g : F) : (s.rewind h).bytes g = s.bytes g := rfl

@[simp] theorem data_read (h : H) (k : ℕ) : (s.read h k).2.data = s.data := by
  rw [read]
  cases s.desc h <;> rfl

@[simp] theorem bytes_read (h : H) (k : ℕ) (g : F) : (s.read h k).2.bytes g = s.bytes g :=
  congrArg (fun data : F → Option (List β) => (data g).getD []) (s.data_read h k)

@[simp] theorem desc_openRead_self (h : H) (f : F) :
    (s.openRead h f).desc h = some ⟨f, false, 0, []⟩ := by simp [openRead]

theorem desc_openRead_of_ne {h h' : H} (hne : h' ≠ h) (f : F) :
    (s.openRead h f).desc h' = s.desc h' := by simp [openRead, hne]

theorem desc_rewind_of_ne {h h' : H} (hne : h' ≠ h) : (s.rewind h).desc h' = s.desc h' := by
  simp [rewind, hne]

theorem desc_read_of_ne {h h' : H} (hne : h' ≠ h) (k : ℕ) :
    (s.read h k).2.desc h' = s.desc h' := by
  rw [read]
  cases s.desc h <;> simp [hne]

variable {s}

/-- Reading and seeking open nothing. -/
theorem desc_rewind_of_none {h : H} (hnone : s.desc h = none) (h' : H) :
    (s.rewind h').desc h = none := by
  by_cases heq : h = h'
  · simp [rewind, ← heq, hnone]
  · rw [s.desc_rewind_of_ne heq, hnone]

theorem desc_read_of_none {h : H} (hnone : s.desc h = none) (h' : H) (k : ℕ) :
    (s.read h' k).2.desc h = none := by
  by_cases heq : h = h'
  · simp [read, ← heq, hnone]
  · rw [s.desc_read_of_ne heq, hnone]

theorem desc_rewind_self {h : H} {d : Desc F β} (hd : s.desc h = some d) :
    (s.rewind h).desc h = some { d with pos := 0 } := by simp [rewind, hd]

theorem read_fst {h : H} {d : Desc F β} (hd : s.desc h = some d) (k : ℕ) :
    (s.read h k).1 = ((s.bytes d.file).drop d.pos).take k := by simp [read, hd]

theorem desc_read_self {h : H} {d : Desc F β} (hd : s.desc h = some d) (k : ℕ) :
    (s.read h k).2.desc h = some { d with pos := d.pos + (s.read h k).1.length } := by
  simp [read, hd]

end Read

section OpenWrite

variable [DecidableEq H] [DecidableEq F]

/-! ## Opening to write -/

/-- `open(f, O_WRONLY | O_CREAT | (append ? O_APPEND : O_TRUNC))`. -/
def openWrite (h : H) (f : F) (append : Bool) : Store H F β where
  desc := Function.update s.desc h (some ⟨f, append, 0, []⟩)
  data := Function.update s.data f (some (if append then s.bytes f else []))

@[simp] theorem desc_openWrite_self (h : H) (f : F) (append : Bool) :
    (s.openWrite h f append).desc h = some ⟨f, append, 0, []⟩ := by simp [openWrite]

theorem desc_openWrite_of_ne {h h' : H} (hne : h' ≠ h) (f : F) (append : Bool) :
    (s.openWrite h f append).desc h' = s.desc h' := by simp [openWrite, hne]

theorem data_openWrite_self (h : H) (f : F) (append : Bool) :
    (s.openWrite h f append).data f = some (if append then s.bytes f else []) := by
  simp [openWrite]

theorem data_openWrite_of_ne {h : H} {f g : F} (hne : g ≠ f) (append : Bool) :
    (s.openWrite h f append).data g = s.data g := by simp [openWrite, hne]

end OpenWrite

section Write

variable [DecidableEq H] [DecidableEq F] [Inhabited β]

/-! ## Writing -/

/-- `write(h, bs)`, all bytes of it. -/
def write (h : H) (bs : List β) : Store H F β :=
  match s.desc h with
  | none => s
  | some d =>
    let off := if d.append then (s.bytes d.file).length else d.pos
    { desc := Function.update s.desc h
        (some { d with pos := off + bs.length, sent := d.sent ++ bs })
      data := Function.update s.data d.file (some (splice (s.bytes d.file) off bs)) }

/-- A write to what is not open changes nothing. -/
theorem write_of_none {h : H} (hnone : s.desc h = none) (bs : List β) : s.write h bs = s := by
  simp [write, hnone]

theorem desc_write_of_ne {h h' : H} (hne : h' ≠ h) (bs : List β) :
    (s.write h bs).desc h' = s.desc h' := by
  rw [write]
  cases s.desc h <;> simp [hne]

/-- A write touches the file its description names and no other. -/
theorem data_write_of_ne {h : H} {g : F} (hne : ∀ d ∈ s.desc h, g ≠ d.file) (bs : List β) :
    (s.write h bs).data g = s.data g := by
  rw [write]
  cases hd : s.desc h with
  | none => rfl
  | some d => simp [hne d (by rw [hd]; rfl)]

variable {s}

/-- Writing opens nothing. -/
theorem desc_write_of_none {h : H} (hnone : s.desc h = none) (h' : H) (bs : List β) :
    (s.write h' bs).desc h = none := by
  by_cases heq : h = h'
  · rw [← heq, s.write_of_none hnone, hnone]
  · rw [s.desc_write_of_ne heq, hnone]

theorem desc_write_self {h : H} {d : Desc F β} (hd : s.desc h = some d) (bs : List β) :
    (s.write h bs).desc h = some { d with
      pos := (if d.append then (s.bytes d.file).length else d.pos) + bs.length
      sent := d.sent ++ bs } := by simp [write, hd]

theorem data_write_self {h : H} {d : Desc F β} (hd : s.desc h = some d) (bs : List β) :
    (s.write h bs).data d.file = some (splice (s.bytes d.file)
      (if d.append then (s.bytes d.file).length else d.pos) bs) := by simp [write, hd]

/-- A description that writes at the end of its file appends. -/
theorem data_write_of_atEnd {h : H} {d : Desc F β} (hd : s.desc h = some d)
    (hend : d.append ∨ d.pos = (s.bytes d.file).length) (bs : List β) :
    (s.write h bs).data d.file = some (s.bytes d.file ++ bs) := by
  have hoff : (if d.append then (s.bytes d.file).length else d.pos) = (s.bytes d.file).length := by
    rcases hend with h' | h'
    · rw [if_pos h']
    · rw [h', ite_self]
  rw [data_write_self hd, hoff, splice_length]

end Write

end Store

end MiniProject
