import Mathlib.Data.List.Nodup
import Mathlib.Order.Basic

/-!
# Machinery/Descriptors — descriptor tables

A process names what it has open by small numbers, and a new name is always the lowest free one.
Over any type `α` of open things: opening, `close`, `dup2`, and **growth** — a table that holds
some new descriptors on top of an old table.  Closing what a table grew by gives the old table back
(`Grows.closeAll`), which is how a leak is excluded.
-/

namespace MiniProject

/-- A descriptor table: what each number names, and a number from which on all are free. -/
structure FdTable (α : Type*) where
  get : ℕ → Option α
  bound : ℕ
  free : ∀ d, bound ≤ d → get d = none

namespace FdTable

variable {α : Type*} (t : FdTable α)

/-! ## Operations -/

/-- The table with `d` naming `v`. -/
def set (d : ℕ) (v : Option α) : FdTable α where
  get := Function.update t.get d v
  bound := max t.bound (d + 1)
  free e he := by
    rw [Function.update_of_ne (by omega)]
    exact t.free e (by omega)

/-- The lowest free number. -/
def lowest : ℕ := ((List.range t.bound).find? fun d => (t.get d).isNone).getD t.bound

/-- Opening `a`: its descriptor, and the table with it. -/
def alloc (a : α) : ℕ × FdTable α := (t.lowest, t.set t.lowest (some a))

/-- `close(d)`; closing what is not open changes nothing. -/
def close (d : ℕ) : FdTable α := t.set d none

/-- `dup2(d, e)`; it fails, and changes nothing, when `d` is not open. -/
def dup2 (d e : ℕ) : FdTable α :=
  match t.get d with
  | none => t
  | some a => t.set e (some a)

/-- Closing a list of descriptors. -/
def closeAll (t : FdTable α) (ds : List ℕ) : FdTable α := ds.foldl close t

/-! ## What they name afterwards -/

@[simp] theorem get_set_self (d : ℕ) (v : Option α) : (t.set d v).get d = v := by
  simp [set]

/-- Setting a number to what it names already. -/
theorem get_set_get (d e : ℕ) : (t.set d (t.get d)).get e = t.get e :=
  congrFun (Function.update_eq_self d t.get) e

theorem get_set_of_ne {d e : ℕ} (h : e ≠ d) (v : Option α) : (t.set d v).get e = t.get e := by
  simp [set, h]

@[simp] theorem get_close_self (d : ℕ) : (t.close d).get d = none := t.get_set_self d none

theorem get_close_of_ne {d e : ℕ} (h : e ≠ d) : (t.close d).get e = t.get e :=
  t.get_set_of_ne h none

theorem get_dup2_self {d : ℕ} {a : α} (h : t.get d = some a) (e : ℕ) :
    (t.dup2 d e).get e = some a := by
  rw [dup2, h]
  exact t.get_set_self e (some a)

theorem get_dup2_of_ne (d : ℕ) {e i : ℕ} (h : i ≠ e) : (t.dup2 d e).get i = t.get i := by
  rw [dup2]
  cases t.get d with
  | none => rfl
  | some a => exact t.get_set_of_ne h (some a)

/-- **Closing a list frees exactly its members.** -/
theorem get_closeAll (ds : List ℕ) (e : ℕ) :
    (t.closeAll ds).get e = if e ∈ ds then none else t.get e := by
  induction ds generalizing t with
  | nil => rfl
  | cons d ds ih =>
    change ((t.close d).closeAll ds).get e = _
    rw [ih]
    by_cases hmem : e ∈ ds
    · rw [if_pos hmem, if_pos (List.mem_cons_of_mem d hmem)]
    · by_cases he : e = d
      · rw [if_neg hmem, if_pos (he ▸ List.mem_cons_self), he, get_close_self]
      · rw [if_neg hmem, if_neg (fun h => hmem (List.mem_of_ne_of_mem he h)), t.get_close_of_ne he]

theorem closeAll_append (ds es : List ℕ) :
    t.closeAll (ds ++ es) = (t.closeAll ds).closeAll es := by
  rw [closeAll, List.foldl_append]
  rfl

/-- The lowest free number is free. -/
theorem get_lowest : t.get t.lowest = none := by
  rw [lowest]
  cases h : (List.range t.bound).find? fun d => (t.get d).isNone with
  | none => exact t.free t.bound (Nat.le_refl _)
  | some d => simpa using List.find?_some h

theorem get_alloc_self (a : α) : (t.alloc a).2.get (t.alloc a).1 = some a :=
  t.get_set_self t.lowest (some a)

theorem get_alloc_of_ne {a : α} {e : ℕ} (h : e ≠ (t.alloc a).1) :
    (t.alloc a).2.get e = t.get e := t.get_set_of_ne h (some a)

/-! ## Growth -/

/-- **`t'` is `t` with the descriptors `new` on top**, all of them free in `t`. -/
structure Grows (t t' : FdTable α) (new : List (ℕ × α)) : Prop where
  nodup : (new.map Prod.fst).Nodup
  fresh : ∀ d ∈ new.map Prod.fst, t.get d = none
  get_new : ∀ x ∈ new, t'.get x.1 = some x.2
  get_old : ∀ d, d ∉ new.map Prod.fst → t'.get d = t.get d

namespace Grows

variable {t} {t' t'' : FdTable α} {new : List (ℕ × α)}

theorem refl (t : FdTable α) : Grows t t [] :=
  ⟨List.nodup_nil, nofun, nofun, fun _ _ => rfl⟩

/-- Growth is about what the numbers name, not about the table. -/
theorem congr (h : Grows t t' new) (heq : ∀ d, t''.get d = t'.get d) : Grows t t'' new :=
  ⟨h.nodup, h.fresh, fun x hx => (heq x.1).trans (h.get_new x hx),
    fun d hd => (heq d).trans (h.get_old d hd)⟩

/-- …and about which descriptors are new, not in what order. -/
theorem perm {new' : List (ℕ × α)} (h : Grows t t' new) (hp : new.Perm new') :
    Grows t t' new' := by
  have hmap : (new.map Prod.fst).Perm (new'.map Prod.fst) := hp.map Prod.fst
  refine ⟨hmap.nodup_iff.mp h.nodup, ?_, ?_, ?_⟩
  · intro d hd
    exact h.fresh d (hmap.mem_iff.mpr hd)
  · intro x hx
    exact h.get_new x (hp.mem_iff.mpr hx)
  · intro d hd
    exact h.get_old d fun hmem => hd (hmap.mem_iff.mp hmem)

theorem congr_left {u : FdTable α} (h : Grows t t' new) (heq : ∀ d, u.get d = t.get d) :
    Grows u t' new :=
  ⟨h.nodup, fun d hd => (heq d).trans (h.fresh d hd), h.get_new,
    fun d hd => (h.get_old d hd).trans (heq d).symm⟩

/-- **Opening grows a table by one descriptor**, free before. -/
theorem alloc (h : Grows t t' new) (a : α) :
    Grows t (t'.alloc a).2 (new ++ [((t'.alloc a).1, a)]) := by
  have hfree : t'.get (t'.alloc a).1 = none := t'.get_lowest
  have hnew : (t'.alloc a).1 ∉ new.map Prod.fst := by
    intro hmem
    obtain ⟨x, hx, hfst⟩ := List.mem_map.mp hmem
    rw [← hfst, h.get_new x hx] at hfree
    cases hfree
  have hmap : (new ++ [((t'.alloc a).1, a)]).map Prod.fst
      = new.map Prod.fst ++ [(t'.alloc a).1] := by simp
  refine ⟨?_, ?_, ?_, ?_⟩
  · rw [hmap]
    exact List.Nodup.append h.nodup (List.nodup_singleton _) (by simpa using hnew)
  · intro d hd
    rw [hmap, List.mem_append, List.mem_singleton] at hd
    rcases hd with hd | rfl
    · exact h.fresh d hd
    · rw [← h.get_old _ hnew, hfree]
  · intro x hx
    rcases List.mem_append.mp hx with hx | hx
    · have hne : x.1 ≠ (t'.alloc a).1 := fun heq => hnew (heq ▸ List.mem_map_of_mem hx)
      rw [t'.get_alloc_of_ne hne, h.get_new x hx]
    · obtain rfl := List.mem_singleton.mp hx
      exact t'.get_alloc_self a
  · intro d hd
    rw [hmap, List.mem_append, not_or, List.mem_singleton] at hd
    rw [t'.get_alloc_of_ne hd.2, h.get_old d hd.1]

/-- What is opened and closed at once leaves nothing. -/
theorem close_alloc (h : Grows t t' new) (a : α) :
    Grows t ((t'.alloc a).2.close (t'.alloc a).1) new := by
  refine h.congr fun d => ?_
  by_cases hd : d = (t'.alloc a).1
  · rw [hd, get_close_self]
    exact t'.get_lowest.symm
  · rw [get_close_of_ne _ hd, t'.get_alloc_of_ne hd]

/-- **Closing what a table grew by gives the old table back**, whatever else that was free before
is closed with it. -/
theorem closeAll (h : Grows t t' new) {ds : List ℕ} (hall : ∀ d ∈ new.map Prod.fst, d ∈ ds)
    (hfree : ∀ d ∈ ds, t.get d = none) (d : ℕ) : (t'.closeAll ds).get d = t.get d := by
  rw [get_closeAll]
  by_cases hd : d ∈ ds
  · rw [if_pos hd, hfree d hd]
  · rw [if_neg hd, h.get_old d fun hmem => hd (hall d hmem)]

/-- Closing the last part of a growth leaves the first. -/
theorem closeAll_append {more : List (ℕ × α)} (h : Grows t t' (new ++ more)) {ds : List ℕ}
    (hds : ∀ d, d ∈ ds ↔ d ∈ more.map Prod.fst) : Grows t (t'.closeAll ds) new := by
  have hnodup := h.nodup
  rw [List.map_append, List.nodup_append'] at hnodup
  obtain ⟨hnew, -, hdisj⟩ := hnodup
  refine ⟨hnew, ?_, ?_, ?_⟩
  · intro d hd
    exact h.fresh d (by rw [List.map_append]; exact List.mem_append_left _ hd)
  · intro x hx
    have hout : x.1 ∉ more.map Prod.fst := hdisj (List.mem_map_of_mem hx)
    rw [get_closeAll, if_neg (mt (hds x.1).mp hout), h.get_new x (List.mem_append_left _ hx)]
  · intro d hd
    rw [get_closeAll]
    by_cases hmore : d ∈ more.map Prod.fst
    · rw [if_pos ((hds d).mpr hmore)]
      exact (h.fresh d (by rw [List.map_append]; exact List.mem_append_right _ hmore)).symm
    · rw [if_neg (mt (hds d).mp hmore)]
      refine h.get_old d ?_
      rw [List.map_append, List.mem_append]
      exact fun hmem => hmem.elim hd hmore

/-- What an old descriptor names may change below the growth. -/
theorem set (h : Grows t t' new) {e : ℕ} (he : t.get e ≠ none) (v : Option α) :
    Grows (t.set e v) (t'.set e v) new := by
  have hne : ∀ d ∈ new.map Prod.fst, d ≠ e := by
    rintro d hd rfl
    exact he (h.fresh d hd)
  refine ⟨h.nodup, ?_, ?_, ?_⟩
  · intro d hd
    rw [get_set_of_ne _ (hne d hd), h.fresh d hd]
  · intro y hy
    rw [get_set_of_ne _ (hne y.1 (List.mem_map_of_mem hy)), h.get_new y hy]
  · intro d hd
    by_cases hde : d = e
    · rw [hde, get_set_self, get_set_self]
    · rw [get_set_of_ne _ hde, get_set_of_ne _ hde, h.get_old d hd]

/-- Duplicating a new descriptor onto an old one. -/
theorem dup2 (h : Grows t t' new) {x : ℕ × α} (hx : x ∈ new) {e : ℕ} (he : t.get e ≠ none) :
    Grows (t.set e (some x.2)) (t'.dup2 x.1 e) new := by
  rw [FdTable.dup2, h.get_new x hx]
  exact h.set he (some x.2)

/-- Opening, duplicating onto an old descriptor and closing. -/
theorem close_dup2_alloc (h : Grows t t' new) (a : α) {e : ℕ} (he : t.get e ≠ none) :
    Grows (t.set e (some a)) (((t'.alloc a).2.dup2 (t'.alloc a).1 e).close (t'.alloc a).1) new := by
  have hfree : t'.get (t'.alloc a).1 = none := t'.get_lowest
  have hold : t'.get e ≠ none := by
    rwa [h.get_old e fun hmem => he (h.fresh e hmem)]
  have hne : (t'.alloc a).1 ≠ e := fun heq => hold (heq ▸ hfree)
  refine (h.set he (some a)).congr fun d => ?_
  by_cases hd : d = (t'.alloc a).1
  · rw [hd, get_close_self, get_set_of_ne _ hne, hfree]
  · rw [get_close_of_ne _ hd]
    by_cases hde : d = e
    · rw [hde, get_dup2_self _ (t'.get_alloc_self a), get_set_self]
    · rw [get_dup2_of_ne _ _ hde, get_set_of_ne _ hde, t'.get_alloc_of_ne hd]

/-- A table that grew by nothing names everything as before. -/
theorem get_eq (h : Grows t t' []) (d : ℕ) : t'.get d = t.get d := h.get_old d (List.not_mem_nil)

end Grows

end FdTable

end MiniProject
