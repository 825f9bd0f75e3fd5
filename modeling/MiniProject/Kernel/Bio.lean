import MiniProject.Kernel.Log
import MiniProject.Machinery.Links
import Mathlib.Algebra.Order.BigOperators.Group.Finset
import Mathlib.Data.Fintype.BigOperators

/-!
# Kernel/Bio — the buffer cache

`NBUF` buffers on a circular list stand for as many blocks as are in use.  `bget` looks a block up
from the head of the list on, or else gives it the first unused buffer from the end; `brelse` moves
a buffer that nobody uses any more behind the head.  So the list is in the order of last use
(`lru`), no two buffers stand for one block, but for those never used, and the count of a buffer is
of those that have it, wait for it, are about to let go of it, and pinned it.

One step is one critical section of `bcache.lock`, one of a buffer's sleeping lock, or one access
to a buffer that is locked.
-/

namespace MiniProject.Kernel

/-- `NBUF`. -/
def nbuf : ℕ := maxopblocks * 3

instance : NeZero nbuf := ⟨by decide⟩

/-- A block of a device. -/
abbrev BlockId := BitVec 32 × BlockNo

/-- What a process does: `acquiresleep` in `bget` for the buffer it found, the rest of `bread`, and
the rest of `brelse`. -/
inductive BufCall
  | wait (b : Fin nbuf) (dev : BitVec 32) (blockno : BlockNo)
  | load (b : Fin nbuf) (dev : BitVec 32) (blockno : BlockNo)
  | drop (b : Fin nbuf)
  deriving DecidableEq, Repr

/-- The disk, `bcache`, and what the processes do.  No code reads `pins`, how many of `refcnt` are
from `bpin`, nor `released`, the buffers that `brelse` moved so far. -/
structure Bcache (P : Type) where
  disk : BlockNo → Block
  dev : Fin nbuf → BitVec 32
  blockno : Fin nbuf → BlockNo
  valid : Fin nbuf → Bool
  refcnt : Fin nbuf → ℕ
  data : Fin nbuf → Block
  links : Links (Fin nbuf)
  lock : Fin nbuf → Option P
  call : P → Option BufCall
  panicked : Bool
  pins : Fin nbuf → ℕ
  released : List (Fin nbuf)

namespace Bcache

variable {P : Type}

/-- The list of `binit`. -/
def linksInit : Links (Fin nbuf) := (List.finRange nbuf).foldl Links.insert Links.empty

/-- As `binit` leaves it. -/
def binit (disk : BlockNo → Block) : Bcache P where
  disk := disk
  dev _ := 0
  blockno _ := 0
  valid _ := false
  refcnt _ := 0
  data _ := fun _ => 0
  links := linksInit
  lock _ := none
  call _ := none
  panicked := false
  pins _ := 0
  released := []

variable (s : Bcache P)

/-- The block that a buffer stands for. -/
def key (b : Fin nbuf) : BlockId := (s.dev b, s.blockno b)

/-- The first loop of `bget`. -/
def cached (dev : BitVec 32) (blockno : BlockNo) : Option (Fin nbuf) :=
  Links.find s.links.next (fun b => s.dev b = dev ∧ s.blockno b = blockno) nbuf (s.links.next none)

/-- The second loop of `bget`. -/
def unused : Option (Fin nbuf) :=
  Links.find s.links.prev (fun b => s.refcnt b = 0) nbuf (s.links.prev none)

/-- What happens next. -/
inductive Event (P : Type)
  | bget (p : P) (dev : BitVec 32) (blockno : BlockNo)
  | acquiresleep (p : P)
  | bread (p : P)
  | modify (p : P) (b : Fin nbuf) (d : Block)
  | bwrite (p : P) (b : Fin nbuf)
  | brelse (p : P) (b : Fin nbuf)
  | drop (p : P)
  | bpin (p : P) (b : Fin nbuf)
  | bunpin (p : P) (b : Fin nbuf)

section Step

variable [DecidableEq P]

/-- A process gets to another place. -/
def setCall (p : P) (call : Option BufCall) : Bcache P :=
  { s with call := Function.update s.call p call }

/-- `bget`, up to `acquiresleep`. -/
def bget (p : P) (dev : BitVec 32) (blockno : BlockNo) : Bcache P :=
  match s.cached dev blockno with
  | some b =>
    { s.setCall p (some (.wait b dev blockno)) with
      refcnt := Function.update s.refcnt b (s.refcnt b + 1) }
  | none =>
    match s.unused with
    | some b =>
      { s.setCall p (some (.wait b dev blockno)) with
        dev := Function.update s.dev b dev
        blockno := Function.update s.blockno b blockno
        valid := Function.update s.valid b false
        refcnt := Function.update s.refcnt b 1 }
    | none => { s with panicked := true }

/-- The rest of `bread`; the disk does not look at `dev`. -/
def bread (p : P) (b : Fin nbuf) : Bcache P :=
  if s.valid b then s.setCall p none
  else
    { s.setCall p none with
      data := Function.update s.data b (s.disk (s.blockno b))
      valid := Function.update s.valid b true }

/-- `bwrite`. -/
def bwrite (p : P) (b : Fin nbuf) : Bcache P :=
  if s.lock b ≠ some p then { s with panicked := true }
  else { s with disk := Function.update s.disk (s.blockno b) (s.data b) }

/-- `brelse`, up to `releasesleep`. -/
def brelse (p : P) (b : Fin nbuf) : Bcache P :=
  if s.lock b ≠ some p then { s with panicked := true }
  else { s.setCall p (some (.drop b)) with lock := Function.update s.lock b none }

/-- The rest of `brelse`. -/
def drop (p : P) (b : Fin nbuf) : Bcache P :=
  let s' : Bcache P :=
    { s.setCall p none with refcnt := Function.update s.refcnt b (s.refcnt b - 1) }
  if s.refcnt b - 1 = 0 then
    { s' with links := (s.links.remove b).insert b, released := s.released ++ [b] }
  else s'

/-- A step.  A process does one thing at a time, and works on buffers it has locked. -/
def step (s : Bcache P) : Event P → Option (Bcache P)
  | .bget p dev blockno =>
    if ¬ s.panicked ∧ s.call p = none then some (s.bget p dev blockno) else none
  | .acquiresleep p =>
    match s.call p with
    | some (.wait b dev blockno) =>
      if ¬ s.panicked ∧ s.lock b = none then
        some { s.setCall p (some (.load b dev blockno)) with
          lock := Function.update s.lock b (some p) }
      else none
    | _ => none
  | .bread p =>
    match s.call p with
    | some (.load b _ _) => if ¬ s.panicked then some (s.bread p b) else none
    | _ => none
  | .modify p b d =>
    if ¬ s.panicked ∧ s.call p = none ∧ s.lock b = some p then
      some { s with data := Function.update s.data b d }
    else none
  | .bwrite p b => if ¬ s.panicked ∧ s.call p = none then some (s.bwrite p b) else none
  | .brelse p b => if ¬ s.panicked ∧ s.call p = none then some (s.brelse p b) else none
  | .drop p =>
    match s.call p with
    | some (.drop b) => if ¬ s.panicked then some (s.drop p b) else none
    | _ => none
  | .bpin p b =>
    if ¬ s.panicked ∧ s.call p = none ∧ s.lock b = some p then
      some { s with
        refcnt := Function.update s.refcnt b (s.refcnt b + 1)
        pins := Function.update s.pins b (s.pins b + 1) }
    else none
  | .bunpin p b =>
    if ¬ s.panicked ∧ s.call p = none ∧ s.lock b = some p then
      some { s with
        refcnt := Function.update s.refcnt b (s.refcnt b - 1)
        pins := Function.update s.pins b (s.pins b - 1) }
    else none

/-- What callers keep to: they unpin what they pinned. -/
def Paired (s : Bcache P) : Event P → Prop
  | .bunpin _ b => 0 < s.pins b
  | _ => True

instance (s : Bcache P) : DecidablePred (Paired s)
  | .bunpin _ b => inferInstanceAs (Decidable (0 < s.pins b))
  | .bget .. | .acquiresleep _ | .bread _ | .modify .. | .bwrite .. | .brelse .. | .drop _
  | .bpin .. => isTrue trivial

end Step

/-! ## What the steps keep -/

/-- How many references a process at this place has to `b`, without the lock. -/
def uses (b : Fin nbuf) : Option BufCall → ℕ
  | some (.wait b' _ _) | some (.drop b') => if b' = b then 1 else 0
  | _ => 0

/-- One for the lock. -/
def locks (b : Fin nbuf) : ℕ := if s.lock b = none then 0 else 1

/-- Never used, and so not of any block yet. -/
def Fresh (b : Fin nbuf) : Prop := s.key b = (0, 0) ∧ s.valid b = false ∧ s.refcnt b = 0

/-- The order of last use, the most recent first; at the start, that of their addresses. -/
def order (released : List (Fin nbuf)) : List (Fin nbuf) := recent (List.finRange nbuf ++ released)

/-- Is about to read `b` in. -/
def loads (b : Fin nbuf) : Option BufCall → Bool
  | some (.load b' _ _) => b' = b
  | _ => false

/-- What a process at a place can rely on. -/
def At (p : P) : Option BufCall → Prop
  | some (.wait b dev blockno) => s.key b = (dev, blockno)
  | some (.load b dev blockno) => s.key b = (dev, blockno) ∧ s.lock b = some p
  | _ => True

/-- What holds at all times. -/
structure Sound [Fintype P] (s : Bcache P) : Prop where
  linked : s.links.Linked (order s.released)
  apart : (order s.released).Pairwise fun b b' => s.key b ≠ s.key b' ∨ s.Fresh b'
  count : ∀ b, s.refcnt b = s.locks b + ∑ p, uses b (s.call p) + s.pins b
  places : ∀ p, s.At p (s.call p)
  filled : ∀ b p, s.lock b = some p → loads b (s.call p) = false → s.valid b = true
  pinned : ∀ b, 0 < s.pins b → s.valid b = true

@[simp] theorem uses_none {b : Fin nbuf} : uses b none = 0 := rfl

@[simp] theorem uses_wait {b b' : Fin nbuf} {dev : BitVec 32} {blockno : BlockNo} :
    uses b (some (.wait b' dev blockno)) = if b' = b then 1 else 0 := rfl

@[simp] theorem uses_load {b b' : Fin nbuf} {dev : BitVec 32} {blockno : BlockNo} :
    uses b (some (.load b' dev blockno)) = 0 := rfl

@[simp] theorem uses_drop {b b' : Fin nbuf} :
    uses b (some (.drop b')) = if b' = b then 1 else 0 := rfl

@[simp] theorem loads_none {b : Fin nbuf} : loads b none = false := rfl

@[simp] theorem loads_load {b b' : Fin nbuf} {dev : BitVec 32} {blockno : BlockNo} :
    loads b (some (.load b' dev blockno)) = decide (b' = b) := rfl

theorem mem_order (released : List (Fin nbuf)) (b : Fin nbuf) : b ∈ order released := by
  rw [order, mem_recent]
  exact List.mem_append_left _ (List.mem_finRange b)

theorem length_order (released : List (Fin nbuf)) : (order released).length ≤ nbuf := by
  have h := (nodup_recent (List.finRange nbuf ++ released)).length_le_card
  rwa [Fintype.card_fin] at h

theorem order_concat (released : List (Fin nbuf)) (b : Fin nbuf) :
    order (released ++ [b]) = b :: (order released).erase b := by
  rw [order, ← List.append_assoc, recent_concat, order]

theorem linked_foldl {L : Links (Fin nbuf)} {l l' : List (Fin nbuf)} (h : L.Linked l')
    (hl : (l ++ l').Nodup) : (l.foldl Links.insert L).Linked (l.reverse ++ l') := by
  induction l generalizing L l' with
  | nil => exact h
  | cons b l ih =>
    have hperm : (b :: l ++ l').Perm (l ++ b :: l') := List.perm_middle.symm
    have hb : b ∉ l' := fun hmem =>
      (List.nodup_cons.mp hl).1 (List.mem_append_right _ hmem)
    have hrest := ih (h.insert hb) (hperm.nodup_iff.mp hl)
    rwa [List.reverse_cons, List.append_assoc, List.singleton_append]

section Sums

variable [Fintype P] {f : P → Option BufCall} {b : Fin nbuf} {p : P}

theorem sum_uses_update [DecidableEq P] (c : Option BufCall) :
    (∑ q, uses b (Function.update f p c q)) + uses b (f p) = (∑ q, uses b (f q)) + uses b c := by
  have hnew := Finset.add_sum_erase Finset.univ (fun q => uses b (Function.update f p c q))
    (Finset.mem_univ p)
  have hold := Finset.add_sum_erase Finset.univ (fun q => uses b (f q)) (Finset.mem_univ p)
  have hrest : ∑ q ∈ Finset.univ.erase p, uses b (Function.update f p c q) =
      ∑ q ∈ Finset.univ.erase p, uses b (f q) :=
    Finset.sum_congr rfl fun q hq => by rw [Function.update_of_ne (Finset.ne_of_mem_erase hq)]
  simp only [Function.update_self] at hnew
  omega

theorem uses_le_sum : uses b (f p) ≤ ∑ q, uses b (f q) :=
  Finset.single_le_sum (f := fun q => uses b (f q)) (fun _ _ => Nat.zero_le _) (Finset.mem_univ p)

end Sums

variable {s} [Fintype P] {b b' : Fin nbuf} {p q : P} {dev : BitVec 32} {blockno : BlockNo}

namespace Sound

/-- The first loop of `bget` finds the first buffer of the block. -/
theorem cached_eq (h : Sound s) : s.cached dev blockno = (order s.released).find?
    fun b => s.dev b = dev ∧ s.blockno b = blockno := h.linked.find_next _ (length_order _)

/-- The second finds the last that is unused. -/
theorem unused_eq (h : Sound s) : s.unused = (order s.released).reverse.find?
    fun b => s.refcnt b = 0 := h.linked.find_prev _ (length_order _)

theorem refcnt_pos_of_uses (h : Sound s) (hp : 0 < uses b (s.call p)) : 0 < s.refcnt b := by
  have hle := uses_le_sum (f := s.call) (b := b) (p := p)
  have hcount := h.count b
  omega

theorem refcnt_pos_of_lock (h : Sound s) (hp : s.lock b = some p) : 0 < s.refcnt b := by
  have hcount := h.count b
  have hlocks : s.locks b = 1 := by rw [locks, hp]; rfl
  omega

/-- Two buffers of one block: one of them was never used. -/
theorem fresh_of_key_eq (h : Sound s) (hne : b ≠ b') (hkey : s.key b = s.key b') :
    s.Fresh b ∨ s.Fresh b' := by
  have hsymm : Std.Symm fun b b' => s.key b = s.key b' → s.Fresh b ∨ s.Fresh b' :=
    ⟨fun _ _ hbb heq => (hbb heq.symm).symm⟩
  have happart : (order s.released).Pairwise fun b b' =>
      s.key b = s.key b' → s.Fresh b ∨ s.Fresh b' :=
    h.apart.imp fun hbb heq => .inr (hbb.resolve_left fun hn => hn heq)
  exact happart.forall (mem_order _ b) (mem_order _ b') hne hkey

/-- Nothing that was used becomes fresh. -/
theorem apart_of {s' : Bcache P} (h : Sound s) (hkey : ∀ b, s'.key b = s.key b)
    (hfresh : ∀ b, s.Fresh b → s'.Fresh b) :
    (order s.released).Pairwise fun b b' => s'.key b ≠ s'.key b' ∨ s'.Fresh b' := by
  refine h.apart.imp fun hbb => ?_
  rw [hkey, hkey]
  exact hbb.imp_right (hfresh _)

omit [Fintype P] in
theorem not_fresh_of_pos (h : 0 < s.refcnt b) : ¬ s.Fresh b := fun hf => by
  rw [hf.2.2] at h
  exact Nat.lt_irrefl 0 h

/-- A process keeps what it relies on while buffers in use keep their blocks. -/
theorem at_of {s' : Bcache P} (h : Sound s) (hkey : ∀ x, 0 < s.refcnt x → s'.key x = s.key x)
    (hlock : ∀ x, s.lock x = some q → s'.lock x = some q) : s'.At q (s.call q) := by
  have hq := h.places q
  cases hc : s.call q with
  | none => trivial
  | some c =>
    rw [hc] at hq
    cases c with
    | wait b dev blockno =>
      have hpos : 0 < s.refcnt b :=
        h.refcnt_pos_of_uses (p := q) (by rw [hc, uses_wait, if_pos rfl]; exact Nat.one_pos)
      exact (hkey b hpos).trans hq
    | load b dev blockno =>
      exact ⟨(hkey b (h.refcnt_pos_of_lock hq.2)).trans hq.1, hlock b hq.2⟩
    | drop b => trivial

variable [DecidableEq P]

/-- A process goes to another place. -/
theorem places_of {s' : Bcache P} (h : Sound s) (c : Option BufCall) (hp : s'.At p c)
    (hkey : ∀ x, 0 < s.refcnt x → s'.key x = s.key x)
    (hlock : ∀ q ≠ p, ∀ x, s.lock x = some q → s'.lock x = some q) (q : P) :
    s'.At q (Function.update s.call p c q) := by
  by_cases hqp : q = p
  · rw [hqp, Function.update_self]
    exact hp
  · rw [Function.update_of_ne hqp]
    exact h.at_of hkey (hlock q hqp)

/-- The count goes along with what a process does to it. -/
theorem count_of {s' : Bcache P} (h : Sound s) {c : Option BufCall}
    (hcall : s'.call = Function.update s.call p c)
    (hb : s'.refcnt b + uses b (s.call p) + s.locks b + s.pins b =
      s.refcnt b + uses b c + s'.locks b + s'.pins b) :
    s'.refcnt b = s'.locks b + ∑ q, uses b (s'.call q) + s'.pins b := by
  have hsum := sum_uses_update (f := s.call) (b := b) (p := p) c
  have hcount := h.count b
  rw [hcall]
  omega

/-- What it had before, it has read in. -/
theorem filled_of (h : Sound s) (hold : loads b' (s.call p) = false) {c : Option BufCall}
    (hq : s.lock b' = some q) (hload : loads b' (Function.update s.call p c q) = false) :
    s.valid b' = true := by
  by_cases hqp : q = p
  · exact h.filled b' p (hqp ▸ hq) hold
  · rw [Function.update_of_ne hqp] at hload
    exact h.filled b' q hq hload

/-- `bget` finds the block. -/
theorem hit (h : Sound s) (hcall : s.call p = none) (hb : s.cached dev blockno = some b) :
    Sound { s.setCall p (some (.wait b dev blockno)) with
      refcnt := Function.update s.refcnt b (s.refcnt b + 1) } := by
  rw [h.cached_eq, List.find?_eq_some_iff_append] at hb
  obtain ⟨hkey, l₁, l₂, hl, hfirst⟩ := hb
  rw [decide_eq_true_eq] at hkey
  have hnodup : (l₁ ++ b :: l₂).Nodup := by
    rw [← hl]
    exact nodup_recent _
  refine ⟨h.linked, ?_, fun b' => ?_,
    h.places_of _ (Prod.ext hkey.1 hkey.2) (fun _ _ => rfl) fun _ _ _ hq => hq,
    fun b' q hq => h.filled_of (by rw [hcall]; rfl) hq, h.pinned⟩
  · have hbefore := h.apart
    change (order s.released).Pairwise _
    rw [hl] at hbefore ⊢
    refine pairwise_at hnodup hbefore (fun x hx => .inl fun heq => ?_) fun x y hy hxy =>
      hxy.imp_right fun hf => ⟨hf.1, hf.2.1, (Function.update_of_ne hy _ _).trans hf.2.2⟩
    have hne := hfirst x hx
    rw [Bool.not_eq_true', decide_eq_false_iff_not] at hne
    obtain ⟨hdev, hblockno⟩ := Prod.ext_iff.mp (heq : s.key x = s.key b)
    exact hne ⟨hdev.trans hkey.1, hblockno.trans hkey.2⟩
  · refine h.count_of (p := p) rfl ?_
    rw [hcall, uses_none, uses_wait]
    change Function.update s.refcnt b (s.refcnt b + 1) b' + _ + s.locks b' + s.pins b' = _ + _ +
      s.locks b' + s.pins b'
    by_cases hbb : b' = b
    · rw [hbb, Function.update_self, if_pos rfl]
    · rw [Function.update_of_ne hbb, if_neg (Ne.symm hbb)]

/-- `bget` gives a buffer another block. -/
theorem recycle (h : Sound s) (hcall : s.call p = none) (hnone : s.cached dev blockno = none)
    (hb : s.refcnt b = 0) :
    Sound { s.setCall p (some (.wait b dev blockno)) with
      dev := Function.update s.dev b dev
      blockno := Function.update s.blockno b blockno
      valid := Function.update s.valid b false
      refcnt := Function.update s.refcnt b 1 } := by
  obtain ⟨s', hs'⟩ : ∃ s', s' = ({ s.setCall p (some (.wait b dev blockno)) with
      dev := Function.update s.dev b dev
      blockno := Function.update s.blockno b blockno
      valid := Function.update s.valid b false
      refcnt := Function.update s.refcnt b 1 } : Bcache P) := ⟨_, rfl⟩
  have hcall' : s'.call = Function.update s.call p (some (.wait b dev blockno)) := by
    rw [hs']
    rfl
  have hkey : s'.key b = (dev, blockno) := by simp [hs', key]
  have hkeys {x : Fin nbuf} (hx : x ≠ b) : s'.key x = s.key x := by
    simp [hs', key, setCall, Function.update_of_ne hx]
  have hother (x : Fin nbuf) : s.key x ≠ (dev, blockno) := fun heq => by
    rw [h.cached_eq, List.find?_eq_none] at hnone
    have hne := hnone x (mem_order _ x)
    obtain ⟨hdev, hblockno⟩ := Prod.ext_iff.mp heq
    exact hne (decide_eq_true ⟨hdev, hblockno⟩)
  have hcount := h.count b
  have huse {q : P} : uses b (s.call q) = 0 := by
    have hle := uses_le_sum (f := s.call) (b := b) (p := q)
    omega
  have hlock {q : P} (hq : s.lock b = some q) : False := by
    have hpos := h.refcnt_pos_of_lock hq
    omega
  rw [← hs']
  refine ⟨by rw [hs']; exact h.linked, ?_, fun b' => ?_, ?_, fun b' q hq hload => ?_,
    fun b' hpin => ?_⟩
  · have hpairs : (order s.released).Pairwise fun x y =>
        (s.key x ≠ s.key y ∨ s.Fresh y) ∧ x ≠ y := h.apart.and (nodup_recent _)
    have hreleased : s'.released = s.released := by rw [hs']; rfl
    rw [hreleased]
    refine hpairs.imp fun {x y} hxy => ?_
    by_cases hx : x = b
    · have hy : y ≠ b := fun hy => hxy.2 (hx.trans hy.symm)
      rw [hx, hkey, hkeys hy]
      exact .inl (hother y).symm
    by_cases hy : y = b
    · rw [hy, hkey, hkeys hx]
      exact .inl (hother x)
    rw [hkeys hx, hkeys hy]
    refine hxy.1.imp_right fun hf => ⟨(hkeys hy).trans hf.1, ?_, ?_⟩
    · simpa [hs', Function.update_of_ne hy] using hf.2.1
    · simpa [hs', Function.update_of_ne hy] using hf.2.2
  · refine h.count_of hcall' ?_
    rw [hcall, uses_none, uses_wait, hs']
    change Function.update s.refcnt b 1 b' + _ + s.locks b' + s.pins b' = _ + _ + s.locks b' +
      s.pins b'
    by_cases hbb : b' = b
    · rw [hbb, Function.update_self, if_pos rfl, hb]
    · rw [Function.update_of_ne hbb, if_neg (Ne.symm hbb)]
  · rw [hcall']
    refine h.places_of _ hkey (fun x hx => hkeys fun heq => ?_) fun _ _ x hx => ?_
    · rw [heq, hb] at hx
      exact Nat.lt_irrefl 0 hx
    · rw [hs']
      exact hx
  · rw [hs'] at hq hload ⊢
    have hbb : b' ≠ b := fun heq => hlock (heq ▸ hq)
    exact (Function.update_of_ne hbb _ _).trans (h.filled_of (by rw [hcall]; rfl) hq hload)
  · rw [hs'] at hpin ⊢
    have hbb : b' ≠ b := fun heq => by
      have hpos : 0 < s.pins b := heq ▸ hpin
      omega
    exact (Function.update_of_ne hbb _ _).trans (h.pinned b' hpin)

/-- `acquiresleep` gets the lock. -/
theorem acquiresleep (h : Sound s) (hcall : s.call p = some (.wait b dev blockno))
    (hlock : s.lock b = none) :
    Sound { s.setCall p (some (.load b dev blockno)) with
      lock := Function.update s.lock b (some p) } := by
  have hkey : s.key b = (dev, blockno) := by
    have hp := h.places p
    rwa [hcall] at hp
  refine ⟨h.linked, h.apart_of (fun _ => rfl) fun _ => id, fun b' => ?_,
    h.places_of _ ⟨hkey, Function.update_self ..⟩ (fun _ _ => rfl) fun q hqp x hx => ?_,
    fun b' q hq hload => ?_, h.pinned⟩
  · refine h.count_of (p := p) rfl ?_
    rw [hcall, uses_load, uses_wait, locks, locks]
    change s.refcnt b' + _ + _ + s.pins b' = s.refcnt b' + 0 +
      (if Function.update s.lock b (some p) b' = none then 0 else 1) + s.pins b'
    by_cases hbb : b' = b
    · rw [hbb, Function.update_self, if_pos rfl, if_pos hlock, if_neg (Option.some_ne_none p)]
    · rw [Function.update_of_ne hbb, if_neg (Ne.symm hbb)]
  · have hxb : x ≠ b := fun heq => by
      rw [heq, hlock] at hx
      cases hx
    exact (Function.update_of_ne hxb _ _).trans hx
  · change Function.update s.lock b (some p) b' = some q at hq
    change loads b' (Function.update s.call p _ q) = false at hload
    by_cases hbb : b' = b
    · rw [hbb, Function.update_self, Option.some.injEq] at hq
      rw [← hq, Function.update_self, hbb] at hload
      simp [loads] at hload
    · rw [Function.update_of_ne hbb] at hq
      change s.valid b' = true
      exact h.filled_of (by rw [hcall]; rfl) hq hload

/-- `bread` returns. -/
theorem bread (h : Sound s) (hcall : s.call p = some (.load b dev blockno)) :
    Sound (s.bread p b) := by
  have hp := h.places p
  rw [hcall] at hp
  have hpos := h.refcnt_pos_of_lock hp.2
  have hcount {b' : Fin nbuf} : s.refcnt b' + uses b' (s.call p) + s.locks b' + s.pins b' =
      s.refcnt b' + uses b' none + s.locks b' + s.pins b' := by
    rw [hcall, uses_load, uses_none]
  have hfilled {b' : Fin nbuf} (hbb : b' ≠ b) : loads b' (s.call p) = false := by
    rw [hcall, loads, decide_eq_false (Ne.symm hbb)]
  rw [Bcache.bread]
  by_cases hvalid : s.valid b = true
  · rw [if_pos hvalid]
    refine ⟨h.linked, h.apart_of (fun _ => rfl) fun _ => id,
      fun b' => h.count_of (p := p) rfl hcount,
      h.places_of _ trivial (fun _ _ => rfl) fun _ _ _ hq => hq, fun b' q hq hload => ?_, h.pinned⟩
    by_cases hbb : b' = b
    · rw [hbb]
      exact hvalid
    · exact h.filled_of (hfilled hbb) hq hload
  · rw [if_neg hvalid]
    refine ⟨h.linked, h.apart_of (fun _ => rfl) fun x hf => ⟨hf.1, ?_, hf.2.2⟩,
      fun b' => h.count_of (p := p) rfl hcount,
      h.places_of _ trivial (fun _ _ => rfl) fun _ _ _ hq => hq, fun b' q hq hload => ?_,
      fun b' hpin => ?_⟩
    · have hxb : x ≠ b := fun heq => not_fresh_of_pos hpos (heq ▸ hf)
      exact (Function.update_of_ne hxb _ _).trans hf.2.1
    · change Function.update s.valid b true b' = true
      by_cases hbb : b' = b
      · rw [hbb, Function.update_self]
      · rw [Function.update_of_ne hbb]
        exact h.filled_of (hfilled hbb) hq hload
    · change Function.update s.valid b true b' = true
      by_cases hbb : b' = b
      · rw [hbb, Function.update_self]
      · rw [Function.update_of_ne hbb]
        exact h.pinned b' hpin

/-- `brelse` lets go of the lock. -/
theorem brelse (h : Sound s) (hcall : s.call p = none) (hlock : s.lock b = some p) :
    Sound { s.setCall p (some (.drop b)) with lock := Function.update s.lock b none } := by
  refine ⟨h.linked, h.apart_of (fun _ => rfl) fun _ => id, fun b' => ?_,
    h.places_of _ trivial (fun _ _ => rfl) fun q hqp x hx => ?_, fun b' q hq hload => ?_, h.pinned⟩
  · refine h.count_of (p := p) rfl ?_
    rw [hcall, uses_none, uses_drop, locks, locks]
    change s.refcnt b' + _ + _ + s.pins b' = s.refcnt b' + _ +
      (if Function.update s.lock b none b' = none then 0 else 1) + s.pins b'
    by_cases hbb : b' = b
    · rw [hbb, Function.update_self, if_pos rfl, if_pos rfl, hlock, if_neg (Option.some_ne_none p)]
    · rw [Function.update_of_ne hbb, if_neg (Ne.symm hbb)]
  · have hxb : x ≠ b := fun heq => by
      rw [heq, hlock] at hx
      exact hqp (Option.some.inj hx).symm
    exact (Function.update_of_ne hxb _ _).trans hx
  · change Function.update s.lock b none b' = some q at hq
    have hbb : b' ≠ b := fun heq => by
      rw [heq, Function.update_self] at hq
      cases hq
    rw [Function.update_of_ne hbb] at hq
    change s.valid b' = true
    exact h.filled_of (by rw [hcall]; rfl) hq hload

/-- `brelse` returns; the buffer that nobody uses any more goes to the front. -/
theorem drop (h : Sound s) (hcall : s.call p = some (.drop b)) : Sound (s.drop p b) := by
  have hpos : 0 < s.refcnt b :=
    h.refcnt_pos_of_uses (p := p) (by rw [hcall, uses_drop, if_pos rfl]; exact Nat.one_pos)
  have hcount {b' : Fin nbuf} : Function.update s.refcnt b (s.refcnt b - 1) b' +
      uses b' (s.call p) + s.locks b' + s.pins b' =
      s.refcnt b' + uses b' none + s.locks b' + s.pins b' := by
    rw [hcall, uses_drop, uses_none]
    by_cases hbb : b' = b
    · rw [hbb, Function.update_self, if_pos rfl]
      omega
    · rw [Function.update_of_ne hbb, if_neg (Ne.symm hbb)]
  have hload {b' : Fin nbuf} : loads b' (s.call p) = false := by rw [hcall]; rfl
  have hfresh {x : Fin nbuf} (hf : s.Fresh x) :
      Function.update s.refcnt b (s.refcnt b - 1) x = 0 := by
    have hxb : x ≠ b := fun heq => not_fresh_of_pos hpos (heq ▸ hf)
    exact (Function.update_of_ne hxb _ _).trans hf.2.2
  have hplaces (q : P) : s.At q (Function.update s.call p none q) :=
    h.places_of none trivial (fun _ _ => rfl) (fun _ _ _ hq => hq) q
  rw [Bcache.drop]
  by_cases hzero : s.refcnt b - 1 = 0
  · rw [if_pos hzero]
    refine ⟨?_, ?_, fun b' => h.count_of (p := p) rfl hcount, hplaces,
      fun b' q hq => h.filled_of hload hq, h.pinned⟩
    · change ((s.links.remove b).insert b).Linked (order (s.released ++ [b]))
      rw [order_concat]
      exact h.linked.move (mem_order _ b)
    · change (order (s.released ++ [b])).Pairwise _
      rw [order_concat]
      obtain ⟨l₁, l₂, -, hl, herase⟩ := List.exists_erase_eq (mem_order s.released b)
      have hbefore := h.apart
      rw [hl] at hbefore
      obtain ⟨h₁, h₂, h₁₂⟩ := List.pairwise_append.mp hbefore
      obtain ⟨hb₂, h₂⟩ := List.pairwise_cons.mp h₂
      have hkeep {x y : Fin nbuf} (hxy : s.key x ≠ s.key y ∨ s.Fresh y) : s.key x ≠ s.key y ∨
          s.key y = (0, 0) ∧ s.valid y = false ∧
            Function.update s.refcnt b (s.refcnt b - 1) y = 0 :=
        hxy.imp_right fun hf => ⟨hf.1, hf.2.1, hfresh hf⟩
      rw [herase]
      refine List.pairwise_cons.mpr ⟨fun y hy => ?_, List.pairwise_append.mpr ⟨h₁.imp hkeep,
        h₂.imp hkeep, fun x hx y hy => hkeep (h₁₂ x hx y (List.mem_cons_of_mem _ hy))⟩⟩
      obtain hy | hy := List.mem_append.mp hy
      · exact .inl fun heq => ((h₁₂ y hy b List.mem_cons_self).resolve_right
          (not_fresh_of_pos hpos)) (heq : s.key b = s.key y).symm
      · exact hkeep (hb₂ y hy)
  · rw [if_neg hzero]
    exact ⟨h.linked, h.apart_of (fun _ => rfl) fun x hf => ⟨hf.1, hf.2.1, hfresh hf⟩,
      fun b' => h.count_of (p := p) rfl hcount, hplaces, fun b' q hq => h.filled_of hload hq,
      h.pinned⟩

omit [DecidableEq P] in
/-- `bpin` and `bunpin`. -/
theorem pin (h : Sound s) (hcall : s.call p = none) (hlock : s.lock b = some p) {n m : ℕ}
    (hn : n + s.pins b = s.refcnt b + m) :
    Sound { s with
      refcnt := Function.update s.refcnt b n
      pins := Function.update s.pins b m } := by
  have hpos := h.refcnt_pos_of_lock hlock
  refine ⟨h.linked, h.apart_of (fun _ => rfl) fun x hf => ⟨hf.1, hf.2.1, ?_⟩, fun b' => ?_,
    fun q => h.at_of (fun _ _ => rfl) fun _ hq => hq, h.filled, fun b' hpin => ?_⟩
  · have hxb : x ≠ b := fun heq => not_fresh_of_pos hpos (heq ▸ hf)
    exact (Function.update_of_ne hxb _ _).trans hf.2.2
  · have hcount := h.count b'
    change Function.update s.refcnt b n b' = s.locks b' + ∑ q, uses b' (s.call q) +
      Function.update s.pins b m b'
    by_cases hbb : b' = b
    · rw [hbb] at hcount
      rw [hbb, Function.update_self, Function.update_self]
      omega
    · rw [Function.update_of_ne hbb, Function.update_of_ne hbb]
      exact hcount
  · change 0 < Function.update s.pins b m b' at hpin
    by_cases hbb : b' = b
    · rw [hbb]
      exact h.filled b p hlock (by rw [hcall]; rfl)
    · rw [Function.update_of_ne hbb] at hpin
      exact h.pinned b' hpin

/-- **One step.** -/
theorem step {s' : Bcache P} {e : Event P} (h : Sound s) (he : Paired s e)
    (hs : s.step e = some s') : Sound s' := by
  have hpanic : Sound { s with panicked := true } := { h with }
  cases e with
  | bget p dev blockno =>
    rw [Bcache.step] at hs
    split_ifs at hs with hif
    cases hs
    rw [Bcache.bget]
    split
    · next b hb => exact h.hit hif.2 hb
    · next hnone =>
      split
      · next b hb =>
        rw [h.unused_eq] at hb
        have hzero := List.find?_some hb
        rw [decide_eq_true_eq] at hzero
        exact h.recycle hif.2 hnone hzero
      · exact hpanic
  | acquiresleep p =>
    rw [Bcache.step] at hs
    split at hs
    · next b dev blockno hcall =>
      split_ifs at hs with hif
      cases hs
      exact h.acquiresleep hcall hif.2
    · cases hs
  | bread p =>
    rw [Bcache.step] at hs
    split at hs
    · next b dev blockno hcall =>
      split_ifs at hs
      cases hs
      exact h.bread hcall
    · cases hs
  | modify p b d =>
    rw [Bcache.step] at hs
    split_ifs at hs
    cases hs
    exact { h with }
  | bwrite p b =>
    rw [Bcache.step] at hs
    split_ifs at hs
    cases hs
    rw [Bcache.bwrite]
    split_ifs
    · exact hpanic
    · exact { h with }
  | brelse p b =>
    rw [Bcache.step] at hs
    split_ifs at hs with hif
    cases hs
    rw [Bcache.brelse]
    split_ifs with hlock
    · exact hpanic
    · exact h.brelse hif.2 (not_not.mp hlock)
  | drop p =>
    rw [Bcache.step] at hs
    split at hs
    · next b hcall =>
      split_ifs at hs
      cases hs
      exact h.drop hcall
    · cases hs
  | bpin p b =>
    rw [Bcache.step] at hs
    split_ifs at hs with hif
    cases hs
    exact h.pin hif.2.1 hif.2.2 (by omega)
  | bunpin p b =>
    rw [Bcache.step] at hs
    split_ifs at hs with hif
    cases hs
    have hpos := h.refcnt_pos_of_lock hif.2.2
    have hpins : 0 < s.pins b := he
    exact h.pin hif.2.1 hif.2.2 (by omega)

end Sound

theorem sound_binit (disk : BlockNo → Block) : Sound (binit disk : Bcache P) := by
  have horder : order [] = (List.finRange nbuf).reverse := by
    rw [order, List.append_nil, recent, (List.nodup_finRange nbuf).dedup]
  refine ⟨?_, ?_, fun b => ?_, fun _ => trivial, fun _ _ hq => (by cases hq), fun _ hpin => ?_⟩
  · have hlinked : linksInit.Linked ((List.finRange nbuf).reverse ++ []) :=
      linked_foldl Links.linked_empty (by simp [List.nodup_finRange])
    change linksInit.Linked (order [])
    rw [horder]
    rwa [List.append_nil] at hlinked
  · exact (List.pairwise_of_forall fun _ _ => trivial).imp fun _ => .inr ⟨rfl, rfl, rfl⟩
  · simp [binit, locks]
  · simp [binit] at hpin

/-- What holds at all times holds in every run. -/
theorem sound_of_run [DecidableEq P] {disk : BlockNo → Block} {es : List (Event P)}
    (hes : Along step Paired (binit disk) es) (h : run step (binit disk) es = some s) : Sound s :=
  invariant (fun _ _ _ hI he hs => hI.step he hs) (sound_binit disk) hes h

/-- **`bget` recycles the least recently used buffer.**  The list is the order of last use.  A block
that some buffer stands for is found; for any other, the unused buffer that `brelse` left longest
ago is given up; and it panics only when all are in use. -/
theorem lru [DecidableEq P] {s' : Bcache P} {disk : BlockNo → Block} {es : List (Event P)}
    (hes : Along step Paired (binit disk) es) (h : run step (binit disk) es = some s)
    (hs : s.step (.bget p dev blockno) = some s') :
    s.links.Linked (order s.released) ∧
    ((∃ b, s.key b = (dev, blockno) ∧ s'.call p = some (.wait b dev blockno) ∧ s'.key = s.key) ∨
    (∀ b, s.key b ≠ (dev, blockno)) ∧
      ((∃ b, s'.call p = some (.wait b dev blockno) ∧ s.refcnt b = 0 ∧
          s'.key = Function.update s.key b (dev, blockno) ∧
          ∀ b', s.refcnt b' = 0 → b' ≠ b → [b', b].Sublist (order s.released)) ∨
        s'.panicked = true ∧ ∀ b, 0 < s.refcnt b)) := by
  have hsound := sound_of_run hes h
  refine ⟨hsound.linked, ?_⟩
  rw [step] at hs
  split_ifs at hs
  cases hs
  rw [bget]
  split
  · next b hb =>
    rw [hsound.cached_eq] at hb
    have hkey := List.find?_some hb
    rw [decide_eq_true_eq] at hkey
    exact .inl ⟨b, Prod.ext hkey.1 hkey.2, Function.update_self .., rfl⟩
  · next hnone =>
    refine .inr ⟨fun b heq => ?_, ?_⟩
    · rw [hsound.cached_eq, List.find?_eq_none] at hnone
      have hne := hnone b (mem_order _ b)
      obtain ⟨hdev, hblockno⟩ := Prod.ext_iff.mp heq
      exact hne (decide_eq_true ⟨hdev, hblockno⟩)
    split
    · next b hb =>
      rw [hsound.unused_eq, List.find?_eq_some_iff_append] at hb
      obtain ⟨hzero, later, earlier, hsplit, hused⟩ := hb
      rw [decide_eq_true_eq] at hzero
      refine .inl ⟨b, Function.update_self .., hzero, ?_, fun b' hzero' hne => ?_⟩
      · funext x
        change (Function.update s.dev b dev x, Function.update s.blockno b blockno x) = _
        by_cases hx : x = b
        · rw [hx, Function.update_self, Function.update_self, Function.update_self]
        · rw [Function.update_of_ne hx, Function.update_of_ne hx, Function.update_of_ne hx]
          rfl
      · have hmem : b' ∈ later ++ b :: earlier := by
          rw [← hsplit, List.mem_reverse]
          exact mem_order _ b'
        have hnot : b' ∉ later := fun hl => by
          have hfalse := hused b' hl
          rw [Bool.not_eq_true', decide_eq_false_iff_not] at hfalse
          exact hfalse hzero'
        have hearlier : b' ∈ earlier := by
          obtain hl | hl := List.mem_append.mp hmem
          · exact absurd hl hnot
          · exact (List.mem_cons.mp hl).resolve_left hne
        rw [← List.reverse_sublist, hsplit]
        exact (List.Sublist.cons_cons b (List.singleton_sublist.mpr hearlier)).trans
          (List.sublist_append_right _ _)
    · next hfull =>
      refine .inr ⟨rfl, fun b => Nat.pos_of_ne_zero fun hzero => ?_⟩
      rw [hsound.unused_eq, List.find?_eq_none] at hfull
      exact hfull b (List.mem_reverse.mpr (mem_order _ b)) (decide_eq_true hzero)

/-- A block read and let go of, and the next one asked for. -/
def sampleReads : List (Event Bool) :=
  [.bget true 1 45, .acquiresleep true, .bread true, .brelse true 0, .drop true]

theorem lru_sample :
    ∃ s s', run step (binit (P := Bool) fun _ _ => 0) sampleReads = some s ∧
      s.step (.bget true 1 46) = some s' ∧ s'.call true = some (.wait 1 1 46) ∧
      s.links.Linked (order s.released) ∧
      ((∃ b, s.key b = (1, 46) ∧ s'.call true = some (.wait b 1 46) ∧ s'.key = s.key) ∨
      (∀ b, s.key b ≠ (1, 46)) ∧
        ((∃ b, s'.call true = some (.wait b 1 46) ∧ s.refcnt b = 0 ∧
            s'.key = Function.update s.key b (1, 46) ∧
            ∀ b', s.refcnt b' = 0 → b' ≠ b → [b', b].Sublist (order s.released)) ∨
          s'.panicked = true ∧ ∀ b, 0 < s.refcnt b)) := by
  have hrun : ((run step (binit (P := Bool) fun _ _ => 0) sampleReads).bind fun s =>
      (s.step (.bget true 1 46)).map (·.call true)) = some (some (.wait 1 1 46)) := by
    decide +kernel
  obtain ⟨s, hs, hmap⟩ := Option.bind_eq_some_iff.mp hrun
  obtain ⟨s', hs', hcall⟩ := Option.map_eq_some_iff.mp hmap
  exact ⟨s, s', hs, hs', hcall, lru (by decide +kernel) hs hs'⟩

end Bcache

end MiniProject.Kernel
