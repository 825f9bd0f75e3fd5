import MiniProject.Machinery.Rings
import MiniProject.Machinery.Runs
import Mathlib.Algebra.Order.Ring.Int
import Mathlib.Data.List.Count
import Mathlib.Data.List.Nodup
import Mathlib.Logic.Function.Basic

/-!
# User/Malloc — a first-fit allocator on a ring of free blocks

The free blocks are on a circular list in the order of their addresses, which starts at `base` and
is entered at `freep`.  `malloc` goes round it for the first block that is large enough and cuts its
end off, or asks `sbrk` for more; `free` finds the place of a block by its address and joins it with
the free blocks on both sides.

An address counts units of `sizeof(Header)` bytes, so that a pointer to a `Header` and its
arithmetic are numbers.
-/

namespace MiniProject.User

/-- `Header`: one unit of memory, as the allocator reads it. -/
structure Header where
  ptr : ℕ
  size : ℕ
  deriving DecidableEq, Repr

/-- The memory and `freep`.  No code reads what `sbrk` granted, which blocks are with the program
and how many bytes it asked for, nor what the program wrote into them. -/
structure Heap where
  mem : ℕ → Header
  freep : Option ℕ
  chunks : List (ℕ × ℕ)
  live : List (ℕ × ℕ)
  written : ℕ → Option Header

namespace Heap

/-- The units for `nbytes` and a header. -/
def nunits (nbytes : ℕ) : ℕ := (nbytes + 16 - 1) / 16 + 1

/-- Before the first call. -/
def start (mem : ℕ → Header) : Heap := ⟨mem, none, [], [], fun _ => none⟩

variable (s : Heap)

/-- `p->s.ptr`. -/
def ptr (p : ℕ) : ℕ := (s.mem p).ptr

/-- `p->s.size`. -/
def size (p : ℕ) : ℕ := (s.mem p).size

/-- `p->s.ptr = q`. -/
def setPtr (p q : ℕ) : Heap := { s with mem := Function.update s.mem p ⟨q, s.size p⟩ }

/-- `p->s.size = n`. -/
def setSize (p n : ℕ) : Heap := { s with mem := Function.update s.mem p ⟨s.ptr p, n⟩ }

/-- More turns than any of the loops takes: all units there are. -/
def fuel : ℕ := (s.chunks.map Prod.snd).sum + 1

/-- Where the loop of `free` stops. -/
def between (bp p : ℕ) : Bool :=
  (bp > p && bp < s.ptr p) || (p ≥ s.ptr p && (bp > p || bp < s.ptr p))

/-- `free`, once it found the place: the block joins the one behind it… -/
def joinUpper (bp p : ℕ) : Heap :=
  if bp + s.size bp = s.ptr p then
    (s.setSize bp ((s.size bp + s.size (s.ptr p)) % 2 ^ 32)).setPtr bp (s.ptr (s.ptr p))
  else s.setPtr bp (s.ptr p)

/-- …and the one before. -/
def joinLower (bp p : ℕ) : Heap :=
  if p + s.size p = bp then
    (s.setSize p ((s.size p + s.size bp) % 2 ^ 32)).setPtr p (s.ptr bp)
  else s.setPtr p bp

/-- `free`, of the block whose header is at `bp`. -/
def free (bp : ℕ) : Option Heap :=
  match s.freep with
  | none => none
  | some freep =>
    match seek s.ptr (s.between bp) s.fuel freep with
    | none => none
    | some p => some { (s.joinUpper bp p).joinLower bp p with freep := some p }

/-- `morecore`, when `sbrk` returns `a`. -/
def morecore (nu a : ℕ) : Option Heap :=
  let nu := if nu < 4096 then 4096 else nu
  { s.setSize a nu with chunks := (a, nu) :: s.chunks }.free a

/-- `malloc` takes a block, or the end of it. -/
def take (nunits prevp p : ℕ) : Heap × ℕ :=
  if s.size p = nunits then ({ s.setPtr prevp (s.ptr p) with freep := some prevp }, p)
  else
    let s' := s.setSize p (s.size p - nunits)
    let q := p + s'.size p
    ({ s'.setSize q nunits with freep := some prevp }, q)

/-- The loop of `malloc`, and again with what each `sbrk` returns; the header of the block, or
nothing. -/
def mallocLoop (nunits : ℕ) : List (Option ℕ) → Heap → Option (Heap × Option ℕ)
  | grants, s =>
    match s.freep with
    | none => none
    | some freep =>
      match pursue s.ptr (fun p => s.size p ≥ nunits) freep s.fuel freep (s.ptr freep) with
      | none => none
      | some (some (prevp, p)) =>
        let (s', q) := s.take nunits prevp p
        some (s', some q)
      | some none =>
        match grants with
        | [] => none
        | none :: _ => some (s, none)
        | some a :: grants =>
          match s.morecore nunits a with
          | none => none
          | some s' => mallocLoop nunits grants s'

/-- `malloc`, in which `sbrk` may be called once. -/
def malloc (base nbytes : ℕ) (grant : Option ℕ) : Option (Heap × Option ℕ) :=
  let s' : Heap :=
    if s.freep = none then
      { s with mem := Function.update s.mem base ⟨base, 0⟩, freep := some base }
    else s
  mallocLoop (nunits nbytes) [grant] s'

/-- The program gives a block back, with what is in it. -/
def release (bp : ℕ) : Heap :=
  { s with
    live := s.live.eraseP fun c => c.1 = bp
    written := fun u => if bp ≤ u ∧ u < bp + s.size bp then none else s.written u }

/-- What the program does. -/
inductive Event
  | malloc (nbytes : ℕ) (grant : Option ℕ)
  | free (ap : ℕ)
  | store (u : ℕ) (v : Header)

/-- A step; pointers are to the unit behind the header. -/
def step (base : ℕ) (s : Heap) : Event → Option Heap
  | .malloc nbytes grant =>
    (s.malloc base nbytes grant).map fun r =>
      match r.2 with
      | none => r.1
      | some bp => { r.1 with live := (bp, nbytes) :: r.1.live }
  | .free ap => (s.release (ap - 1)).free (ap - 1)
  | .store u v =>
    some { s with
      mem := Function.update s.mem u v, written := Function.update s.written u (some v) }

/-- What `sbrk` and the program keep to: `sbrk` grants fresh memory above the program's own, takes
an `int`, and never grants 2³² units in all; what is freed is what `malloc` returned, and stores are
within what was asked for. -/
def Disciplined (base : ℕ) (s : Heap) : Event → Prop
  | .malloc nbytes grant => ∀ a ∈ grant, max (nunits nbytes) 4096 * 16 < 2 ^ 31 ∧ base < a ∧
      max (nunits nbytes) 4096 + (s.chunks.map Prod.snd).sum < 2 ^ 32 ∧
      ∀ c ∈ s.chunks, a + max (nunits nbytes) 4096 ≤ c.1 ∨ c.1 + c.2 ≤ a
  | .free ap => 0 < ap ∧ ∃ c ∈ s.live, c.1 = ap - 1
  | .store u _ => ∃ c ∈ s.live, c.1 < u ∧ u < c.1 + nunits c.2

instance (base : ℕ) (s : Heap) : ∀ e, Decidable (Disciplined base s e)
  | .malloc _ grant => inferInstanceAs (Decidable (∀ a ∈ grant, _ ∧ _))
  | .free ap => inferInstanceAs (Decidable (0 < ap ∧ ∃ c ∈ s.live, c.1 = ap - 1))
  | .store u _ => inferInstanceAs (Decidable (∃ c ∈ s.live, c.1 < u ∧ u < c.1 + nunits c.2))

/-! ## The arena -/

/-- The units of a block. -/
def cells (c : ℕ × ℕ) : List ℕ := List.range' c.1 c.2

/-- The units of the blocks at `bs`. -/
def units (bs : List ℕ) : List ℕ := bs.flatMap fun a => cells (a, s.size a)

/-- `bp` behind `p` on the ring. -/
def link (bp p : ℕ) : Heap := (s.setPtr bp (s.ptr p)).setPtr p bp

/-- The block at `a` and the one behind it on the ring become one. -/
def join (a : ℕ) : Heap :=
  (s.setSize a ((s.size a + s.size (s.ptr a)) % 2 ^ 32)).setPtr a (s.ptr (s.ptr a))

/-- …if they meet. -/
def joinNext (a : ℕ) : Heap := if a + s.size a = s.ptr a then s.join a else s

/-- **Free and live blocks are the memory that `sbrk` granted**, but for some at hand, and no unit
counts twice; the free ones are on the ring, in order. -/
structure Arena (base : ℕ) (s : Heap) (hand as : List ℕ) : Prop where
  ring : Ring s.ptr base as
  base_size : s.size base = 0
  gaps : (base :: as).Pairwise fun a b => a + s.size a ≤ b
  pos : ∀ a ∈ as, 0 < s.size a
  split : (s.units (as ++ (hand ++ s.live.map Prod.fst))).Perm (s.chunks.flatMap cells)
  fresh : (s.chunks.flatMap cells).Nodup
  above : ∀ c ∈ s.chunks, base < c.1
  small : (s.chunks.map Prod.snd).sum < 2 ^ 32
  sized : ∀ c ∈ s.live, s.size c.1 = nunits c.2
  kept : ∀ u v, s.written u = some v →
    s.mem u = v ∧ ∃ c ∈ s.live, c.1 < u ∧ u < c.1 + nunits c.2

/-- Of two free blocks one could be made. -/
def Meet (as : List ℕ) (a b : ℕ) : Prop := a ∈ as ∧ b ∈ as ∧ a + s.size a = b

/-- Before the first call there is nothing; and `freep` is on the ring from then on. -/
def Sound (base : ℕ) (s : Heap) : Prop :=
  match s.freep with
  | none => s.live = [] ∧ s.chunks = [] ∧ ∀ u, s.written u = none
  | some freep => ∃ as, Arena base s [] as ∧ freep ∈ base :: as ∧ ∀ a b, ¬ s.Meet as a b

section Fields

variable {s} {p q n u bp base : ℕ} {as as₁ as₂ bs : List ℕ} {c d : ℕ × ℕ}

@[simp] theorem ptr_setPtr_self : (s.setPtr p q).ptr p = q := by simp [setPtr, ptr]

theorem ptr_setPtr_of_ne (h : u ≠ p) : (s.setPtr p q).ptr u = s.ptr u := by
  simp [setPtr, ptr, Function.update_of_ne h]

@[simp] theorem size_setPtr : (s.setPtr p q).size = s.size := by
  ext u
  obtain rfl | hu := eq_or_ne u p
  · simp [setPtr, size]
  · simp [setPtr, size, Function.update_of_ne hu]

@[simp] theorem ptr_setSize : (s.setSize p n).ptr = s.ptr := by
  ext u
  obtain rfl | hu := eq_or_ne u p
  · simp [setSize, ptr]
  · simp [setSize, ptr, Function.update_of_ne hu]

@[simp] theorem size_setSize_self : (s.setSize p n).size p = n := by simp [setSize, size]

theorem size_setSize_of_ne (h : u ≠ p) : (s.setSize p n).size u = s.size u := by
  simp [setSize, size, Function.update_of_ne h]

theorem mem_setPtr_of_ne (h : u ≠ p) : (s.setPtr p q).mem u = s.mem u := Function.update_of_ne h _ _

theorem mem_setSize_of_ne (h : u ≠ p) : (s.setSize p n).mem u = s.mem u :=
  Function.update_of_ne h _ _

theorem mem_cells : u ∈ cells c ↔ c.1 ≤ u ∧ u < c.1 + c.2 := List.mem_range'_1

theorem mem_units : u ∈ s.units bs ↔ ∃ a ∈ bs, a ≤ u ∧ u < a + s.size a := by
  simp [units, mem_cells]

theorem units_append : s.units (as ++ bs) = s.units as ++ s.units bs := List.flatMap_append

theorem units_cons {a : ℕ} : s.units (a :: as) = cells (a, s.size a) ++ s.units as :=
  List.flatMap_cons

theorem units_congr {s' : Heap} (h : ∀ a ∈ bs, s'.size a = s.size a) : s'.units bs = s.units bs :=
  List.flatMap_congr fun a ha => by rw [h a ha]

theorem units_of_size_eq {s' : Heap} (h : s'.size = s.size) : s'.units bs = s.units bs :=
  units_congr fun _ _ => by rw [h]

theorem length_le_units (h : ∀ a ∈ bs, 0 < s.size a) : bs.length ≤ (s.units bs).length := by
  induction bs with
  | nil => exact Nat.zero_le _
  | cons a bs ih =>
    have hpos := h a List.mem_cons_self
    have hrest := ih fun b hb => h b (List.mem_cons_of_mem _ hb)
    rw [units_cons, List.length_append, cells, List.length_range', List.length_cons]
    omega

theorem link_ptr (hne : bp ≠ p) : (s.link bp p).ptr bp = s.ptr p := by
  rw [link, ptr_setPtr_of_ne hne, ptr_setPtr_self]

theorem link_ptr_self : (s.link bp p).ptr p = bp := ptr_setPtr_self

theorem link_ptr_of_ne (hbp : u ≠ bp) (hp : u ≠ p) : (s.link bp p).ptr u = s.ptr u := by
  rw [link, ptr_setPtr_of_ne hp, ptr_setPtr_of_ne hbp]

@[simp] theorem size_link : (s.link bp p).size = s.size := size_setPtr.trans size_setPtr

theorem join_ptr_self : (s.join p).ptr p = s.ptr (s.ptr p) := ptr_setPtr_self

theorem join_ptr_of_ne (h : u ≠ p) : (s.join p).ptr u = s.ptr u := by
  rw [join, ptr_setPtr_of_ne h, ptr_setSize]

theorem join_size_self : (s.join p).size p = (s.size p + s.size (s.ptr p)) % 2 ^ 32 := by
  rw [join, size_setPtr, size_setSize_self]

theorem join_size_of_ne (h : u ≠ p) : (s.join p).size u = s.size u := by
  rw [join, size_setPtr, size_setSize_of_ne h]

theorem setPtr_setPtr : (s.setPtr p n).setPtr p q = s.setPtr p q := by
  simp [setPtr, size, Function.update_idem]

theorem setPtr_comm (h : u ≠ p) : (s.setPtr p q).setPtr u n = (s.setPtr u n).setPtr p q := by
  simp [setPtr, size, Function.update_of_ne h, Function.update_of_ne h.symm,
    Function.update_comm h]

theorem setSize_setPtr : (s.setPtr p q).setSize p n = (s.setSize p n).setPtr p q := by
  simp [setPtr, setSize, size, ptr, Function.update_idem]

theorem setSize_setPtr_of_ne (h : u ≠ p) :
    (s.setPtr p q).setSize u n = (s.setSize u n).setPtr p q := by
  simp [setPtr, setSize, size, ptr, Function.update_of_ne h, Function.update_of_ne h.symm,
    Function.update_comm h]

theorem joinLower_eq (hbp : bp ≠ p) : s.joinLower bp p = (s.setPtr p bp).joinNext p := by
  rw [joinLower, joinNext, join, size_setPtr, ptr_setPtr_self, ptr_setPtr_of_ne hbp,
    setSize_setPtr, setPtr_setPtr]

theorem joinUpper_setPtr (hbp : bp ≠ p) (hp : s.ptr p ≠ bp)
    (hpp : bp + s.size bp = s.ptr p → s.ptr p ≠ p) :
    (s.joinUpper bp p).setPtr p bp = (s.link bp p).joinNext bp := by
  rw [joinUpper, joinNext, size_link, link_ptr hbp]
  split_ifs with hmeet
  · rw [join, size_link, link_ptr hbp, link_ptr_of_ne hp (hpp hmeet), link,
      setSize_setPtr_of_ne hbp, setSize_setPtr, setPtr_comm hbp, setPtr_setPtr]
  · rfl

/-- **`free` puts the block on the ring, joins it with the next, and the one before with it.** -/
theorem joinLower_joinUpper (hbp : bp ≠ p) (hp : s.ptr p ≠ bp)
    (hpp : bp + s.size bp = s.ptr p → s.ptr p ≠ p) :
    (s.joinUpper bp p).joinLower bp p = ((s.link bp p).joinNext bp).joinNext p := by
  rw [joinLower_eq hbp, joinUpper_setPtr hbp hp hpp]

/-- A block is cut in two. -/
theorem cells_add {m : ℕ} : cells (p, n + m) = cells (p, n) ++ cells (p + n, m) := by
  simp [cells, List.range'_append_1]

end Fields

namespace Arena

variable {s} {base p q n u : ℕ} {hand as : List ℕ}

theorem nodup (h : Arena base s hand as) :
    (s.units (as ++ (hand ++ s.live.map Prod.fst))).Nodup :=
  h.split.nodup_iff.mpr h.fresh

/-- Every unit of a block was granted by `sbrk`, and is above `base`. -/
theorem base_lt_unit (h : Arena base s hand as) (hp : p ∈ as ++ (hand ++ s.live.map Prod.fst))
    (hu : p ≤ u ∧ u < p + s.size p) : base < u := by
  obtain ⟨d, hd, hud⟩ := List.mem_flatMap.mp (h.split.mem_iff.mp (mem_units.mpr ⟨p, hp, hu⟩))
  have habove := h.above d hd
  rw [mem_cells] at hud
  omega

theorem base_lt (h : Arena base s hand as) (hp : p ∈ as) : base < p := by
  have hpos := h.pos p hp
  exact h.base_lt_unit (List.mem_append_left _ hp) ⟨Nat.le_refl p, by omega⟩

theorem nodup_ring (h : Arena base s hand as) : (base :: as).Nodup := by
  refine List.nodup_cons.mpr ⟨fun hmem => (h.base_lt hmem).false, ?_⟩
  refine (List.pairwise_cons.mp h.gaps).2.imp_of_mem fun ha _ hab heq => ?_
  have hpos := h.pos _ ha
  omega

/-- A live block is not free. -/
theorem not_live (h : Arena base s hand as) (hp : p ∈ as) {c : ℕ × ℕ} (hc : c ∈ s.live)
    (hu : p ≤ u ∧ u < p + s.size p) : ¬ (c.1 ≤ u ∧ u < c.1 + nunits c.2) := by
  intro huc
  have hnodup := h.nodup
  rw [units_append, List.nodup_append] at hnodup
  rw [← h.sized c hc] at huc
  exact hnodup.2.2 u (mem_units.mpr ⟨p, hp, hu⟩) u
    (mem_units.mpr ⟨c.1, List.mem_append_right _ (List.mem_map_of_mem hc), huc⟩) rfl

/-- There are no more blocks on the ring than units. -/
theorem length_lt_fuel (h : Arena base s hand as) : as.length < s.fuel := by
  have hlen := h.split.length_eq
  have hle := length_le_units h.pos
  have hchunks : (s.chunks.flatMap cells).length = (s.chunks.map Prod.snd).sum := by
    rw [List.length_flatMap]
    exact congrArg List.sum (List.map_congr_left fun c _ => by rw [cells, List.length_range'])
  rw [units_append, List.length_append, hchunks] at hlen
  rw [fuel]
  omega

/-- The one before a block on the ring is before it in the list. -/
theorem split_of_next (h : Arena base s hand as) {prevp : ℕ} (hp : p ∈ as)
    (hprev : prevp ∈ base :: as) (hnext : s.ptr prevp = p) :
    ∃ as₁ as₂, as = as₁ ++ p :: as₂ ∧ prevp = as₁.getLastD base := by
  obtain ⟨as₁, as₂, rfl⟩ := List.append_of_mem hp
  have hnodup := h.nodup_ring
  refine ⟨as₁, as₂, rfl, Linked.eq_getLastD h.ring ?_ ?_ hprev hnext⟩
  · intro hmem
    have hnd := (List.nodup_cons.mp hnodup).2
    exact (List.nodup_append.mp hnd).2.2 p hmem p List.mem_cons_self rfl
  · have hnd := (List.nodup_cons.mp hnodup).2
    have hbase : p ≠ base := fun heq =>
      (List.nodup_cons.mp hnodup).1 (heq ▸ List.mem_append_right _ List.mem_cons_self)
    rw [List.mem_append, List.mem_singleton, not_or]
    exact ⟨(List.nodup_cons.mp (List.nodup_append.mp hnd).2.1).1, hbase⟩

/-- What a step leaves alone of the blocks that it does not touch. -/
theorem kept_of {s' : Heap} (h : Arena base s hand as) (hwritten : s'.written = s.written)
    (hlive : ∀ c ∈ s.live, c ∈ s'.live)
    (hmem : ∀ u, (∃ c ∈ s.live, c.1 ≤ u ∧ u < c.1 + nunits c.2) → s'.mem u = s.mem u) (u : ℕ)
    (v : Header) (hv : s'.written u = some v) :
    s'.mem u = v ∧ ∃ c ∈ s'.live, c.1 < u ∧ u < c.1 + nunits c.2 := by
  rw [hwritten] at hv
  obtain ⟨hmem', c, hc, hlo, hhi⟩ := h.kept u v hv
  exact ⟨(hmem u ⟨c, hc, Nat.le_of_lt hlo, hhi⟩).trans hmem', c, hlive c hc, hlo, hhi⟩

/-- A free block, or `base`, is not at a live unit. -/
theorem ne_of_live (h : Arena base s hand as) {prevp : ℕ} (hprev : prevp ∈ base :: as)
    (hu : ∃ c ∈ s.live, c.1 ≤ u ∧ u < c.1 + nunits c.2) : u ≠ prevp := by
  obtain ⟨c, hc, huc⟩ := hu
  rintro rfl
  obtain rfl | hp := List.mem_cons.mp hprev
  · have hmem : c.1 ∈ as ++ (hand ++ s.live.map Prod.fst) :=
      List.mem_append_right _ (List.mem_append_right _ (List.mem_map_of_mem hc))
    rw [← h.sized c hc] at huc
    exact (h.base_lt_unit hmem huc).false
  · have hpos := h.pos u hp
    exact h.not_live hp hc ⟨Nat.le_refl u, by omega⟩ huc

/-- `malloc` takes a whole block. -/
theorem take_all (h : Arena base s [] as) {prevp : ℕ} (hp : p ∈ as) (hprev : prevp ∈ base :: as)
    (hnext : s.ptr prevp = p) {nbytes : ℕ} (hsize : s.size p = nunits nbytes) :
    ∃ as', Arena base { s.setPtr prevp (s.ptr p) with
        freep := some prevp, live := (p, nbytes) :: s.live } [] as' ∧ prevp ∈ base :: as' ∧
        as'.Sublist as := by
  obtain ⟨as₁, as₂, rfl, hlast⟩ := h.split_of_next hp hprev hnext
  have hnodup := h.nodup_ring
  have hmem : prevp ∈ base :: (as₁ ++ as₂) := by
    rw [hlast]
    exact List.mem_append_left as₂ (List.getLastD_mem_cons (l := as₁) (a := base))
  have hsizes : ({ s.setPtr prevp (s.ptr p) with
      freep := some prevp, live := (p, nbytes) :: s.live } : Heap).size = s.size := size_setPtr
  have hsub : (base :: (as₁ ++ as₂)).Sublist (base :: (as₁ ++ p :: as₂)) :=
    .cons_cons _ (List.Sublist.append_left (List.sublist_cons_self _ _) _)
  refine ⟨as₁ ++ as₂,
    ⟨?_, ?_, ?_, fun a ha => ?_, ?_, h.fresh, h.above, h.small, fun c hc => ?_, ?_⟩, hmem,
    List.Sublist.append_left (List.sublist_cons_self _ _) _⟩
  · refine Ring.splice (d := [p]) (m := []) h.ring hnodup (fun z _ hz => ?_) fun z l hz => ?_
    · exact ptr_setPtr_of_ne (hlast ▸ hz)
    · have hall : as₁ ++ p :: as₂ = (as₁ ++ [p]) ++ as₂ := by simp
      have hring := h.ring
      rw [hall] at hring
      have hpz : s.ptr p = z := by simpa using hring.next_getLastD hz
      refine List.isChain_pair.mpr ?_
      rw [← hlast]
      exact ptr_setPtr_self.trans hpz
  · rw [hsizes]
    exact h.base_size
  · rw [hsizes]
    exact h.gaps.sublist hsub
  · rw [hsizes]
    have hsub' : (as₁ ++ as₂).Sublist (as₁ ++ p :: as₂) :=
      List.Sublist.append_left (List.sublist_cons_self _ _) _
    exact h.pos a (hsub'.subset ha)
  · rw [units_of_size_eq hsizes]
    refine List.Perm.trans (List.Perm.flatMap_right _ ?_) h.split
    change (as₁ ++ as₂ ++ p :: s.live.map Prod.fst).Perm _
    have hright : as₁ ++ p :: as₂ ++ ([] ++ s.live.map Prod.fst) =
        as₁ ++ p :: (as₂ ++ s.live.map Prod.fst) := by simp
    rw [hright]
    refine List.perm_middle.trans (List.Perm.trans ?_ List.perm_middle.symm)
    rw [List.append_assoc]
  · rw [hsizes]
    obtain rfl | hc := List.mem_cons.mp hc
    · exact hsize
    · exact h.sized c hc
  · refine h.kept_of rfl (fun c hc => List.mem_cons_of_mem _ hc) fun u hu => ?_
    exact mem_setPtr_of_ne (h.ne_of_live hprev hu)

/-- Two free blocks have no unit in common. -/
theorem eq_of_mem (h : Arena base s hand as) {a b : ℕ} (ha : a ∈ as) (hb : b ∈ as)
    (hua : a ≤ u ∧ u < a + s.size a) (hub : b ≤ u ∧ u < b + s.size b) : a = b := by
  by_contra hne
  have hsymm : Std.Symm fun a b => a + s.size a ≤ b ∨ b + s.size b ≤ a := ⟨fun _ _ => Or.symm⟩
  have hpairs : as.Pairwise fun a b => a + s.size a ≤ b ∨ b + s.size b ≤ a :=
    (List.pairwise_cons.mp h.gaps).2.imp .inl
  have hab := hpairs.forall ha hb hne
  omega

/-- Where a block is cut no block begins. -/
theorem ne_cut (h : Arena base s hand as) (hp : p ∈ as) {m : ℕ} (hm : 0 < m) (hlt : m < s.size p) :
    ∀ a ∈ base :: as, a ≠ p + m := by
  rintro a ha rfl
  obtain heq | ha := List.mem_cons.mp ha
  · have hbase := h.base_lt hp
    omega
  · have hpos := h.pos _ ha
    have heq := h.eq_of_mem (u := p + m) ha hp ⟨Nat.le_refl _, by omega⟩ ⟨by omega, by omega⟩
    omega

/-- `malloc` takes the end of a block. -/
theorem take_end (h : Arena base s [] as) {prevp m : ℕ} (hp : p ∈ as) (hprev : prevp ∈ base :: as)
    {nbytes : ℕ} (hm : 0 < m) (hsize : s.size p = m + nunits nbytes) :
    Arena base { (s.setSize p m).setSize (p + m) (nunits nbytes) with
        freep := some prevp, live := (p + m, nbytes) :: s.live } [] as := by
  have hn : 0 < nunits nbytes := Nat.zero_lt_succ _
  obtain ⟨s', hs'⟩ : ∃ s', s' = ({ (s.setSize p m).setSize (p + m) (nunits nbytes) with
      freep := some prevp, live := (p + m, nbytes) :: s.live } : Heap) := ⟨_, rfl⟩
  have hptr : s'.ptr = s.ptr := by
    rw [hs']
    exact ptr_setSize.trans ptr_setSize
  have hq : s'.size (p + m) = nunits nbytes := by
    rw [hs']
    exact size_setSize_self
  have hsp : s'.size p = m := by
    rw [hs']
    exact (size_setSize_of_ne (by omega)).trans size_setSize_self
  have hother {a : ℕ} (hap : a ≠ p) (haq : a ≠ p + m) : s'.size a = s.size a := by
    rw [hs']
    exact (size_setSize_of_ne haq).trans (size_setSize_of_ne hap)
  have hmem {a : ℕ} (hap : a ≠ p) (haq : a ≠ p + m) : s'.mem a = s.mem a := by
    rw [hs']
    exact (mem_setSize_of_ne haq).trans (mem_setSize_of_ne hap)
  have hnew := h.ne_cut hp hm (hsize ▸ Nat.lt_add_of_pos_right hn)
  have hlive : ∀ c ∈ s.live, ∀ u, c.1 ≤ u → u < c.1 + nunits c.2 → u ≠ p ∧ u ≠ p + m := by
    intro c hc u hlo hhi
    have hnot (hu : p ≤ u ∧ u < p + s.size p) : False := h.not_live hp hc hu ⟨hlo, hhi⟩
    constructor
    · rintro rfl
      exact hnot ⟨Nat.le_refl _, by omega⟩
    · rintro rfl
      exact hnot ⟨by omega, by omega⟩
  obtain ⟨as₁, as₂, rfl⟩ := List.append_of_mem hp
  have hnd := (List.nodup_cons.mp h.nodup_ring).2
  have hrest (bs : List ℕ) (hsub : ∀ a ∈ bs, a ∈ as₁ ∨ a ∈ as₂) : s'.units bs = s.units bs := by
    refine units_congr fun a ha => ?_
    have ha' : a ∈ as₁ ++ p :: as₂ := by
      rcases hsub a ha with ha | ha
      · exact List.mem_append_left _ ha
      · exact List.mem_append_right _ (List.mem_cons_of_mem _ ha)
    refine hother ?_ (hnew a (List.mem_cons_of_mem _ ha'))
    rintro rfl
    rcases hsub a ha with ha | ha
    · exact (List.nodup_append.mp hnd).2.2 a ha a List.mem_cons_self rfl
    · exact (List.nodup_cons.mp (List.nodup_append.mp hnd).2.1).1 ha
  have hlsize {c : ℕ × ℕ} (hc : c ∈ s.live) : s'.size c.1 = s.size c.1 := by
    have hne := hlive c hc c.1 (Nat.le_refl _) (Nat.lt_add_of_pos_right (Nat.zero_lt_succ _))
    exact hother hne.1 hne.2
  have hle : ∀ a ∈ base :: (as₁ ++ p :: as₂), s'.size a ≤ s.size a := by
    intro a ha
    obtain rfl | hne := eq_or_ne a p
    · rw [hsp, hsize]
      exact Nat.le_add_right _ _
    · rw [hother hne (hnew a ha)]
  rw [← hs']
  refine ⟨hptr ▸ h.ring, ?_, ?_, fun a ha => ?_, ?_, ?_, ?_, ?_, fun c hc => ?_, ?_⟩
  · exact Nat.le_zero.mp (h.base_size ▸ hle base List.mem_cons_self)
  · exact h.gaps.imp_of_mem fun ha _ hab => (Nat.add_le_add_left (hle _ ha) _).trans hab
  · obtain rfl | hne := eq_or_ne a p
    · rwa [hsp]
    · rw [hother hne (hnew a (List.mem_cons_of_mem _ ha))]
      exact h.pos a ha
  · have hl : s'.units (s.live.map Prod.fst) = s.units (s.live.map Prod.fst) := by
      refine units_congr fun a ha => ?_
      obtain ⟨c, hc, rfl⟩ := List.mem_map.mp ha
      exact hlsize hc
    have hperm := h.split
    have hlive' : s'.live = (p + m, nbytes) :: s.live := by rw [hs']
    have hchunks : s'.chunks = s.chunks := by rw [hs']; rfl
    rw [hlive', hchunks, List.map_cons, List.nil_append, List.perm_iff_count]
    rw [List.nil_append, List.perm_iff_count] at hperm
    intro u
    have hcount := hperm u
    simp only [units_append, units_cons, hq, hsp, hl, hrest as₁ (fun a ha => .inl ha),
      hrest as₂ (fun a ha => .inr ha), hsize, cells_add, List.count_append] at hcount ⊢
    omega
  · rw [hs']
    exact h.fresh
  · rw [hs']
    exact h.above
  · rw [hs']
    exact h.small
  · rw [hs'] at hc
    obtain rfl | hc := List.mem_cons.mp hc
    · exact hq
    · exact (hlsize hc).trans (h.sized c hc)
  · refine h.kept_of (by rw [hs']; rfl) (fun c hc => ?_) fun u hu => ?_
    · rw [hs']
      exact List.mem_cons_of_mem _ hc
    · obtain ⟨c, hc, hlo, hhi⟩ := hu
      have hne := hlive c hc u hlo hhi
      exact hmem hne.1 hne.2

/-- A block goes on the ring. -/
theorem link {lo hi : List ℕ} (h : Arena base s [p] (lo ++ hi)) (hpos : 0 < s.size p)
    (hlo : ∀ a ∈ base :: lo, a + s.size a ≤ p) (hhi : ∀ a ∈ hi, p + s.size p ≤ a) :
    Arena base (s.link p (lo.getLastD base)) [] (lo ++ p :: hi) := by
  have hlast : lo.getLastD base ∈ base :: lo := List.getLastD_mem_cons
  have hmid : p ∈ lo ++ hi ++ ([p] ++ s.live.map Prod.fst) :=
    List.mem_append_right _ (List.mem_append_left _ List.mem_cons_self)
  have hbase : base < p := h.base_lt_unit hmid ⟨Nat.le_refl p, by omega⟩
  have hne : p ≠ lo.getLastD base := by
    intro heq
    obtain hlast | hlast := List.mem_cons.mp hlast
    · omega
    · have hle := hlo _ (List.mem_cons_of_mem _ hlast)
      have hpos' := h.pos _ (List.mem_append_left hi hlast)
      rw [← heq] at hle hpos'
      omega
  have hnot : ∀ a ∈ base :: (lo ++ hi), a ≠ p := by
    rintro a ha rfl
    obtain heq | ha := List.mem_cons.mp ha
    · omega
    · have hpos' := h.pos a ha
      rcases List.mem_append.mp ha with ha | ha
      · have hle := hlo a (List.mem_cons_of_mem _ ha)
        omega
      · have hle := hhi a ha
        omega
  refine ⟨?_, ?_, ?_, fun a ha => ?_, ?_, h.fresh, h.above, h.small, fun c hc => ?_, ?_⟩
  · refine Ring.splice (d := []) (m := [p]) h.ring h.nodup_ring (fun z hz hzl => ?_)
      fun z l hz => ?_
    · exact link_ptr_of_ne (hnot z hz) hzl
    · have hnext : s.ptr (lo.getLastD base) = z := h.ring.next_getLastD hz
      exact .cons_cons link_ptr_self (List.isChain_pair.mpr ((link_ptr hne).trans hnext))
  · rw [size_link]
    exact h.base_size
  · rw [size_link]
    have hgaps : (base :: lo ++ hi).Pairwise fun a b => a + s.size a ≤ b := h.gaps
    obtain ⟨hlow, hhigh, hcross⟩ := List.pairwise_append.mp hgaps
    have hgoal : base :: (lo ++ p :: hi) = base :: lo ++ p :: hi := rfl
    rw [hgoal]
    exact List.pairwise_append.mpr ⟨hlow, List.pairwise_cons.mpr ⟨hhi, hhigh⟩,
      fun a ha => List.forall_mem_cons.mpr ⟨hlo a ha, hcross a ha⟩⟩
  · rw [size_link]
    obtain rfl | hne := eq_or_ne a p
    · exact hpos
    · refine h.pos a ?_
      simp only [List.mem_append, List.mem_cons, hne, false_or] at ha ⊢
      exact ha
  · rw [units_of_size_eq size_link]
    refine List.Perm.trans (List.Perm.flatMap_right _ ?_) h.split
    have hleft : lo ++ p :: hi ++ ([] ++ s.live.map Prod.fst) =
        lo ++ p :: (hi ++ s.live.map Prod.fst) := by simp
    have hright : lo ++ hi ++ ([p] ++ s.live.map Prod.fst) =
        (lo ++ hi) ++ p :: s.live.map Prod.fst := by simp
    change (lo ++ p :: hi ++ ([] ++ s.live.map Prod.fst)).Perm _
    rw [hleft, hright]
    refine List.perm_middle.trans (List.Perm.trans ?_ List.perm_middle.symm)
    rw [List.append_assoc]
  · rw [size_link]
    exact h.sized c hc
  · refine h.kept_of rfl (fun c hc => hc) fun u hu => ?_
    have hup : u ≠ p := by
      rintro rfl
      obtain ⟨c, hc, huc⟩ := hu
      have hnodup := h.nodup
      rw [units_append, units_append] at hnodup
      have hhand := List.nodup_append.mp (List.nodup_append.mp hnodup).2.1
      rw [← h.sized c hc] at huc
      exact hhand.2.2 u (mem_cells.mpr ⟨Nat.le_refl u, Nat.lt_add_of_pos_right hpos⟩) u
        (mem_units.mpr ⟨c.1, List.mem_map_of_mem hc, huc⟩) rfl
    have hlast' : lo.getLastD base ∈ base :: (lo ++ hi) := List.mem_append_left hi hlast
    have hul := h.ne_of_live hlast' hu
    exact (mem_setPtr_of_ne hul).trans (mem_setPtr_of_ne hup)

section Join

variable {as₁ as₂ : List ℕ} {a b : ℕ}

theorem ptr_eq (h : Arena base s hand (as₁ ++ a :: b :: as₂)) : s.ptr a = b := by
  have hring := h.ring
  have heq : as₁ ++ a :: b :: as₂ = (as₁ ++ [a]) ++ (b :: as₂) := by simp
  rw [heq] at hring
  simpa using hring.next_getLastD (z := b) (l := as₂ ++ [base]) rfl

theorem size_add_lt (h : Arena base s hand (as₁ ++ a :: b :: as₂)) :
    s.size a + s.size b < 2 ^ 32 := by
  have hlen := h.split.length_eq
  have hchunks : (s.chunks.flatMap cells).length = (s.chunks.map Prod.snd).sum := by
    rw [List.length_flatMap]
    exact congrArg List.sum (List.map_congr_left fun c _ => by rw [cells, List.length_range'])
  have hsmall := h.small
  rw [hchunks] at hlen
  simp only [units_append, units_cons, List.length_append, cells, List.length_range'] at hlen
  omega

theorem join_size (h : Arena base s hand (as₁ ++ a :: b :: as₂)) :
    (s.join a).size a = s.size a + s.size b := by
  rw [join_size_self, h.ptr_eq, Nat.mod_eq_of_lt h.size_add_lt]

/-- Two free blocks become one. -/
theorem join (h : Arena base s [] (as₁ ++ a :: b :: as₂)) (hab : a + s.size a = b) :
    Arena base (s.join a) [] (as₁ ++ a :: as₂) := by
  have hnodup := h.nodup_ring
  have ha : a ∈ as₁ ++ a :: b :: as₂ := List.mem_append_right _ List.mem_cons_self
  have hbase := h.base_lt ha
  have hnd := (List.nodup_cons.mp hnodup).2
  have hnot : ∀ x, x ∈ as₁ ∨ x ∈ as₂ → x ≠ a := by
    rintro x hx rfl
    rcases hx with hx | hx
    · exact (List.nodup_append.mp hnd).2.2 x hx x List.mem_cons_self rfl
    · exact (List.nodup_cons.mp (List.nodup_append.mp hnd).2.1).1 (List.mem_cons_of_mem _ hx)
  have hrest {bs : List ℕ} (hsub : ∀ x ∈ bs, x ≠ a) : (s.join a).units bs = s.units bs :=
    units_congr fun x hx => join_size_of_ne (hsub x hx)
  have hlive {c : ℕ × ℕ} (hc : c ∈ s.live) : c.1 ≠ a :=
    h.ne_of_live (List.mem_cons_of_mem _ ha)
      ⟨c, hc, Nat.le_refl _, Nat.lt_add_of_pos_right (Nat.zero_lt_succ _)⟩
  have hsub : (as₁ ++ a :: as₂).Sublist (as₁ ++ a :: b :: as₂) :=
    List.Sublist.append_left (.cons_cons _ (List.sublist_cons_self _ _)) _
  have hgaps := h.gaps
  refine ⟨?_, ?_, ?_, fun x hx => ?_, ?_, h.fresh, h.above, h.small, fun c hc => ?_, ?_⟩
  · have heq : as₁ ++ a :: b :: as₂ = (as₁ ++ [a]) ++ ([b] ++ as₂) := by simp
    have hring := h.ring
    rw [heq] at hring hnodup
    have hspliced : Ring (s.join a).ptr base (as₁ ++ [a] ++ ([] ++ as₂)) :=
      Ring.splice hring hnodup
      (fun z _ hz => join_ptr_of_ne (by simpa using hz)) fun z l hz => by
        have heq' : (as₁ ++ [a]) ++ ([b] ++ as₂) = (as₁ ++ [a, b]) ++ as₂ := by simp
        rw [heq'] at hring
        have hbz : s.ptr b = z := by simpa using hring.next_getLastD hz
        refine List.isChain_pair.mpr ?_
        rw [List.getLastD_concat, join_ptr_self, h.ptr_eq]
        exact hbz
    simpa using hspliced
  · rw [join_size_of_ne hbase.ne]
    exact h.base_size
  · have hsplit : base :: (as₁ ++ a :: as₂) = base :: as₁ ++ a :: as₂ := rfl
    have hsplit' : base :: (as₁ ++ a :: b :: as₂) = base :: as₁ ++ a :: b :: as₂ := rfl
    rw [hsplit'] at hgaps
    obtain ⟨hlow, hhigh, hcross⟩ := List.pairwise_append.mp hgaps
    obtain ⟨hby, hlast⟩ := List.pairwise_cons.mp (List.pairwise_cons.mp hhigh).2
    rw [hsplit]
    refine List.pairwise_append.mpr ⟨hlow.imp_of_mem fun {x y} hx _ hxy => ?_,
      List.pairwise_cons.mpr ⟨fun y hy => ?_, hlast.imp_of_mem fun {x y} hx _ hxy => ?_⟩,
      fun x hx y hy => ?_⟩
    · obtain rfl | hx := List.mem_cons.mp hx
      · rwa [join_size_of_ne hbase.ne]
      · rwa [join_size_of_ne (hnot x (.inl hx))]
    · have hby := hby y hy
      rw [h.join_size]
      omega
    · rwa [join_size_of_ne (hnot x (.inr hx))]
    · have hxy : x + s.size x ≤ y := by
        refine hcross x hx y ?_
        obtain rfl | hy := List.mem_cons.mp hy
        · exact List.mem_cons_self
        · exact List.mem_cons_of_mem _ (List.mem_cons_of_mem _ hy)
      obtain rfl | hx := List.mem_cons.mp hx
      · rwa [join_size_of_ne hbase.ne]
      · rwa [join_size_of_ne (hnot x (.inl hx))]
  · have hpos := h.pos x (hsub.subset hx)
    obtain rfl | hne := eq_or_ne x a
    · rw [h.join_size]
      omega
    · rwa [join_size_of_ne hne]
  · have hperm := h.split
    change ((s.join a).units (as₁ ++ a :: as₂ ++ ([] ++ s.live.map Prod.fst))).Perm
      (s.chunks.flatMap cells)
    rw [units_append, units_append, units_cons, h.join_size, cells_add, hab,
      hrest fun x hx => hnot x (.inl hx), hrest fun x hx => hnot x (.inr hx), hrest]
    · rw [units_append, units_append, units_cons, units_cons] at hperm
      rwa [List.append_assoc (cells (a, s.size a))]
    · rw [List.nil_append]
      intro x hx
      obtain ⟨c, hc, rfl⟩ := List.mem_map.mp hx
      exact hlive hc
  · rw [join_size_of_ne (hlive hc)]
    exact h.sized c hc
  · refine h.kept_of rfl (fun c hc => hc) fun u hu => ?_
    have hua := h.ne_of_live (List.mem_cons_of_mem _ ha) hu
    exact (mem_setPtr_of_ne hua).trans (mem_setSize_of_ne hua)

/-- What meets after that met before. -/
theorem meet_join {x y : ℕ} (h : Arena base s [] (as₁ ++ a :: b :: as₂))
    (hab : a + s.size a = b) (hxy : (s.join a).Meet (as₁ ++ a :: as₂) x y) :
    (x ≠ a ∧ y ≠ b ∧ s.Meet (as₁ ++ a :: b :: as₂) x y) ∨
      x = a ∧ s.Meet (as₁ ++ a :: b :: as₂) b y := by
  obtain ⟨hx, hy, hend⟩ := hxy
  have hsub : (as₁ ++ a :: as₂).Sublist (as₁ ++ a :: b :: as₂) :=
    List.Sublist.append_left (.cons_cons _ (List.sublist_cons_self _ _)) _
  obtain rfl | hne := eq_or_ne x a
  · rw [h.join_size] at hend
    have hb : b ∈ as₁ ++ x :: b :: as₂ := by simp
    exact .inr ⟨rfl, hb, hsub.subset hy, by omega⟩
  · rw [join_size_of_ne hne] at hend
    refine .inl ⟨hne, ?_, hsub.subset hx, hsub.subset hy, hend⟩
    rintro rfl
    have hnd := (List.nodup_cons.mp h.nodup_ring).2
    have heq : as₁ ++ a :: y :: as₂ = (as₁ ++ [a]) ++ y :: as₂ := by simp
    have heq' : as₁ ++ a :: as₂ = (as₁ ++ [a]) ++ as₂ := by simp
    rw [heq'] at hy
    rw [heq] at hnd
    rcases List.mem_append.mp hy with hy | hy
    · exact (List.nodup_append.mp hnd).2.2 y hy y List.mem_cons_self rfl
    · exact (List.nodup_cons.mp (List.nodup_append.mp hnd).2.1).1 hy

end Join

theorem le_getLastD {lo hi : List ℕ} (h : Arena base s hand (lo ++ hi)) :
    ∀ a ∈ base :: lo, a ≤ lo.getLastD base := by
  intro a ha
  have hgaps : (base :: lo ++ hi).Pairwise fun a b => a + s.size a ≤ b := h.gaps
  have hlow := (List.pairwise_append.mp hgaps).1
  have hend := List.dropLast_append_getLast (List.cons_ne_nil base lo)
  rw [List.getLast_eq_getLastD] at hend
  rw [← hend] at ha hlow
  rcases List.mem_append.mp ha with ha | ha
  · exact Nat.le_of_add_right_le ((List.pairwise_append.mp hlow).2.2 a ha _ List.mem_cons_self)
  · exact (List.mem_singleton.mp ha).le

/-- **The loop of `free` stops at one place**, where the block belongs. -/
theorem between_iff {lo hi : List ℕ} {bp w : ℕ} (h : Arena base s hand (lo ++ hi))
    (hlo : ∀ a ∈ base :: lo, a < bp) (hhi : ∀ a ∈ hi, bp < a) (hw : w ∈ base :: (lo ++ hi)) :
    s.between bp w = true ↔ w = lo.getLastD base := by
  have hlast : lo.getLastD base ∈ base :: lo := List.getLastD_mem_cons
  have hlt := hlo _ hlast
  have hbase := hlo base List.mem_cons_self
  have hle := h.le_getLastD base List.mem_cons_self
  have hsorted : (base :: (lo ++ hi)).Pairwise (· < ·) := by
    refine List.pairwise_cons.mpr ⟨fun a ha => h.base_lt ha, ?_⟩
    refine (List.pairwise_cons.mp h.gaps).2.imp_of_mem fun ha _ hab => ?_
    have hpos := h.pos _ ha
    omega
  have hside {a : ℕ} (ha : a ∈ base :: (lo ++ hi)) : a ≤ lo.getLastD base ∨ bp < a := by
    have ha' : a ∈ base :: lo ++ hi := ha
    rcases List.mem_append.mp ha' with ha | ha
    · exact .inl (h.le_getLastD a ha)
    · exact .inr (hhi a ha)
  obtain ⟨l₁, l₂, heq, hnext⟩ := h.ring.next_eq_headD hw
  have hside' {a : ℕ} (ha : a ∈ l₁ ++ w :: l₂) : a ≤ lo.getLastD base ∨ bp < a := hside (heq ▸ ha)
  have hmem : lo.getLastD base ∈ l₁ ++ w :: l₂ := heq ▸ List.mem_append_left hi hlast
  rw [heq] at hsorted
  obtain ⟨-, hright, hcross⟩ := List.pairwise_append.mp hsorted
  have hleft : ∀ a ∈ l₁, a < w := fun a ha => hcross a ha w List.mem_cons_self
  have hsw := hside' (List.mem_append_right l₁ List.mem_cons_self)
  rw [between]
  rcases l₂ with _ | ⟨z, l₂⟩
  · have hlw : lo.getLastD base ≤ w := by
      rcases List.mem_append.mp hmem with hmem | hmem
      · exact (hleft _ hmem).le
      · exact (List.mem_singleton.mp hmem).le
    have hptr : s.ptr w = base := hnext
    simp only [hptr, Bool.or_eq_true, Bool.and_eq_true, decide_eq_true_eq]
    omega
  · have hz : w < z := (List.pairwise_cons.mp hright).1 z List.mem_cons_self
    have hsz := hside' (List.mem_append_right l₁ (List.mem_cons_of_mem _ List.mem_cons_self))
    have hlw : lo.getLastD base ≤ w ∨ z ≤ lo.getLastD base := by
      rcases List.mem_append.mp hmem with hmem | hmem
      · exact .inl (hleft _ hmem).le
      · obtain heq | hmem := List.mem_cons.mp hmem
        · exact .inl heq.le
        · obtain heq | hmem := List.mem_cons.mp hmem
          · exact .inr heq.ge
          · exact .inr ((List.pairwise_cons.mp (List.pairwise_cons.mp hright).2).1 _ hmem).le
    have hptr : s.ptr w = z := hnext
    simp only [hptr, Bool.or_eq_true, Bool.and_eq_true, decide_eq_true_eq]
    omega

theorem hand_not_mem (h : Arena base s [p] as) (hpos : 0 < s.size p) : p ∉ as := by
  intro hp
  have hnodup := h.nodup
  rw [units_append, units_append] at hnodup
  have hself : p ≤ p ∧ p < p + s.size p := ⟨Nat.le_refl p, Nat.lt_add_of_pos_right hpos⟩
  exact (List.nodup_append.mp hnodup).2.2 p (mem_units.mpr ⟨p, hp, hself⟩) p
    (List.mem_append_left _ (mem_units.mpr ⟨p, List.mem_cons_self, hself⟩)) rfl

/-- Where a block belongs. -/
theorem place (h : Arena base s [p] as) (hpos : 0 < s.size p) :
    ∃ lo hi, as = lo ++ hi ∧ (∀ a ∈ base :: lo, a + s.size a ≤ p) ∧
      ∀ a ∈ hi, p + s.size p ≤ a := by
  have hmid : p ∈ as ++ ([p] ++ s.live.map Prod.fst) :=
    List.mem_append_right _ (List.mem_append_left _ List.mem_cons_self)
  have hapart {a : ℕ} (ha : a ∈ as) : a + s.size a ≤ p ∨ p + s.size p ≤ a := by
    by_contra hcon
    have hpos' := h.pos a ha
    have hnodup := h.nodup
    rw [units_append, units_append] at hnodup
    refine (List.nodup_append.mp hnodup).2.2 (max a p) (mem_units.mpr ⟨a, ha, ?_, ?_⟩) (max a p)
      (List.mem_append_left _ (mem_units.mpr ⟨p, List.mem_cons_self, ?_, ?_⟩)) rfl
    all_goals omega
  have hsorted := (List.pairwise_cons.mp h.gaps).2
  obtain ⟨lo, hi, rfl, hlo, hhi⟩ := exists_append_of_pairwise (P := fun a => a < p) hsorted
    fun a b hab hb => by omega
  refine ⟨lo, hi, rfl, List.forall_mem_cons.mpr ⟨?_, fun a ha => ?_⟩, fun a ha => ?_⟩
  · rw [h.base_size]
    exact (h.base_lt_unit hmid ⟨Nat.le_refl p, by omega⟩).le
  · have hlt := hlo a ha
    exact (hapart (List.mem_append_left hi ha)).resolve_right fun hcon => by omega
  · have hge := hhi a ha
    have hpos' := h.pos a (List.mem_append_right lo ha)
    exact (hapart (List.mem_append_right lo ha)).resolve_left fun hcon => by omega

section Free

variable {lo hi : List ℕ} {bp : ℕ}

theorem before (h : Arena base s hand (lo ++ p :: hi)) : ∀ a ∈ lo, a + s.size a ≤ p := fun a ha =>
  (List.pairwise_append.mp (List.pairwise_cons.mp h.gaps).2).2.2 a ha p List.mem_cons_self

theorem behind (h : Arena base s hand (lo ++ p :: hi)) : ∀ a ∈ hi, p + s.size p ≤ a :=
  (List.pairwise_cons.mp (List.pairwise_append.mp (List.pairwise_cons.mp h.gaps).2).2.1).1

/-- On the other side of a block nothing ends where it begins. -/
theorem not_meet_behind (h : Arena base s hand (lo ++ p :: hi)) {a : ℕ} (ha : a ∈ p :: hi) :
    a + s.size a ≠ p := by
  have hpos := h.pos a (List.mem_append_right lo ha)
  have hpos' := h.pos p (List.mem_append_right lo List.mem_cons_self)
  obtain rfl | ha := List.mem_cons.mp ha
  · omega
  · have hle := h.behind a ha
    omega

theorem joinNext_upper (h : Arena base s [] (lo ++ bp :: hi))
    (hmeet : ∀ x y, s.Meet (lo ++ bp :: hi) x y → x = bp ∨ y = bp) :
    ∃ hi', Arena base (s.joinNext bp) [] (lo ++ bp :: hi') ∧
      (∀ x y, (s.joinNext bp).Meet (lo ++ bp :: hi') x y → y = bp) ∧
      s.size bp ≤ (s.joinNext bp).size bp := by
  have hbp : bp ∈ lo ++ bp :: hi := List.mem_append_right _ List.mem_cons_self
  have hbase := h.base_lt hbp
  have hpos := h.pos bp hbp
  have hlow {y : ℕ} (hy : y ∈ lo) : y < bp := by
    have hle := h.before y hy
    have hposy := h.pos y (List.mem_append_left _ hy)
    omega
  rcases hi with _ | ⟨z, hi⟩
  · have hptr : s.ptr bp = base := by
      have hring := h.ring
      rw [← List.append_nil (lo ++ [bp])] at hring
      simpa using hring.next_getLastD (z := base) (l := []) rfl
    have hsame : s.joinNext bp = s := by
      rw [joinNext, hptr]
      exact if_neg (by omega)
    rw [hsame]
    refine ⟨[], h, fun x y hxy => (hmeet x y hxy).resolve_left ?_, Nat.le_refl _⟩
    rintro rfl
    rcases List.mem_append.mp hxy.2.1 with hy | hy
    · have hlt := hlow hy
      have hend := hxy.2.2
      omega
    · have hend := hxy.2.2
      rw [List.mem_singleton.mp hy] at hend
      omega
  · rw [joinNext, h.ptr_eq]
    split_ifs with hz
    · refine ⟨hi, h.join hz, fun x y hxy => ?_, ?_⟩
      · obtain ⟨hx, hy, hold⟩ | ⟨rfl, hold⟩ := h.meet_join hz hxy
        · exact (hmeet x y hold).resolve_left hx
        · refine (hmeet z y hold).resolve_left ?_
          rintro rfl
          omega
      · rw [h.join_size]
        exact Nat.le_add_right _ _
    · refine ⟨z :: hi, h, fun x y hxy => (hmeet x y hxy).resolve_left ?_, Nat.le_refl _⟩
      rintro rfl
      obtain ⟨-, hy, hend⟩ := hxy
      rcases List.mem_append.mp hy with hy | hy
      · have hlt := hlow hy
        omega
      · obtain rfl | hy := List.mem_cons.mp hy
        · omega
        · obtain rfl | hy := List.mem_cons.mp hy
          · exact hz hend
          · have heq : lo ++ x :: z :: hi = (lo ++ [x]) ++ z :: hi := by simp
            rw [heq] at h
            have hxz := h.before x (List.mem_append_right _ List.mem_cons_self)
            have hzy := h.behind y hy
            have hposz := h.pos z (List.mem_append_right _ List.mem_cons_self)
            omega

theorem joinNext_lower (h : Arena base s [] (lo ++ bp :: hi))
    (hmeet : ∀ x y, s.Meet (lo ++ bp :: hi) x y → y = bp) :
    ∃ as', Arena base (s.joinNext (lo.getLastD base)) [] as' ∧ lo.getLastD base ∈ base :: as' ∧
      (∀ x y, ¬ (s.joinNext (lo.getLastD base)).Meet as' x y) ∧
      ∃ a ∈ as', s.size bp ≤ (s.joinNext (lo.getLastD base)).size a := by
  have hbp : bp ∈ lo ++ bp :: hi := List.mem_append_right _ List.mem_cons_self
  rcases List.eq_nil_or_concat lo with rfl | ⟨lo, p, rfl⟩
  · have hptr : s.ptr base = bp :=
      Ring.next_getLastD (l := hi ++ [base]) (h.ring : Ring s.ptr base ([] ++ bp :: hi)) rfl
    have hbase := h.base_lt hbp
    have hsame : s.joinNext base = s := by
      rw [joinNext, hptr, h.base_size]
      exact if_neg hbase.ne
    rw [List.getLastD_nil, hsame]
    refine ⟨_, h, List.mem_cons_self, fun x y hxy => ?_, bp, hbp, Nat.le_refl _⟩
    obtain rfl := hmeet x y hxy
    exact h.not_meet_behind hxy.1 hxy.2.2
  · rw [List.concat_eq_append] at h hmeet hbp ⊢
    rw [List.getLastD_concat]
    have heq : lo ++ [p] ++ bp :: hi = lo ++ p :: bp :: hi := by simp
    have hnot := fun {a : ℕ} => h.not_meet_behind (a := a)
    rw [heq] at h hbp hmeet
    have hp : p ∈ lo ++ p :: bp :: hi := List.mem_append_right _ List.mem_cons_self
    have hpos := h.pos bp hbp
    rw [joinNext, h.ptr_eq]
    split_ifs with hjoin
    · refine ⟨lo ++ p :: hi, h.join hjoin, ?_, fun x y hxy => ?_, p, ?_, ?_⟩
      · exact List.mem_cons_of_mem _ (List.mem_append_right _ List.mem_cons_self)
      · obtain ⟨hx, hy, hold⟩ | ⟨rfl, hold⟩ := h.meet_join hjoin hxy
        · exact hy (hmeet x y hold)
        · obtain rfl := hmeet bp y hold
          exact hnot List.mem_cons_self hold.2.2
      · exact List.mem_append_right _ List.mem_cons_self
      · rw [h.join_size]
        exact Nat.le_add_left _ _
    · refine ⟨_, h, List.mem_cons_of_mem _ hp, fun x y hxy => ?_, bp, hbp, Nat.le_refl _⟩
      obtain rfl := hmeet x y hxy
      rcases List.mem_append.mp hxy.1 with hx | hx
      · have hle := h.before x hx
        have hend := hxy.2.2
        have hposp := h.pos p hp
        have hpy := h.behind y List.mem_cons_self
        omega
      · obtain rfl | hx := List.mem_cons.mp hx
        · exact hjoin hxy.2.2
        · exact hnot hx hxy.2.2

/-- **`free` puts a block back**, joined with the free blocks that it meets. -/
theorem free (h : Arena base s [bp] as) (hpos : 0 < s.size bp) {freep : ℕ}
    (hfreep : s.freep = some freep) (hmem : freep ∈ base :: as) (hmeet : ∀ a b, ¬ s.Meet as a b) :
    ∃ s' p as', s.free bp = some s' ∧ s'.freep = some p ∧ Arena base s' [] as' ∧
      p ∈ base :: as' ∧ (∀ a b, ¬ s'.Meet as' a b) ∧ ∃ a ∈ as', s.size bp ≤ s'.size a := by
  obtain ⟨lo, hi, rfl, hlo, hhi⟩ := h.place hpos
  have hmid : bp ∈ lo ++ hi ++ ([bp] ++ s.live.map Prod.fst) :=
    List.mem_append_right _ (List.mem_append_left _ List.mem_cons_self)
  have hbase : base < bp := h.base_lt_unit hmid ⟨Nat.le_refl bp, by omega⟩
  have hlt : ∀ a ∈ base :: lo, a < bp := by
    intro a ha
    have hle := hlo a ha
    obtain rfl | ha := List.mem_cons.mp ha
    · exact hbase
    · have hposa := h.pos a (List.mem_append_left hi ha)
      omega
  have hgt : ∀ a ∈ hi, bp < a := fun a ha => by
    have hle := hhi a ha
    omega
  have hlast : lo.getLastD base ∈ base :: lo := List.getLastD_mem_cons
  have hseek := h.ring.seek hmem (List.mem_append_left hi hlast)
    (fun w hw => h.between_iff hlt hgt hw) h.length_lt_fuel
  have hnext : s.ptr (lo.getLastD base) ∈ lo ++ hi ++ [base] :=
    h.ring.next_mem (List.mem_append_left hi hlast)
  have hne : bp ≠ lo.getLastD base := (hlt _ hlast).ne'
  have hnbp : s.ptr (lo.getLastD base) ≠ bp := by
    intro heq
    rw [heq] at hnext
    rcases List.mem_append.mp hnext with hnext | hnext
    · rcases List.mem_append.mp hnext with hnext | hnext
      · exact (hlt bp (List.mem_cons_of_mem _ hnext)).false
      · exact (hgt bp hnext).false
    · exact hbase.ne' (List.mem_singleton.mp hnext)
  have hnp : bp + s.size bp = s.ptr (lo.getLastD base) →
      s.ptr (lo.getLastD base) ≠ lo.getLastD base := by
    intro heq
    have hlt' := hlt _ hlast
    omega
  have hsizes : (s.link bp (lo.getLastD base)).size = s.size := size_link
  obtain ⟨hi', hup, hmup, hsup⟩ := (h.link hpos hlo hhi).joinNext_upper fun x y hxy => by
    obtain ⟨hx, hy, hend⟩ := hxy
    by_contra hcon
    rw [not_or] at hcon
    simp only [List.mem_append, List.mem_cons, hcon.1, hcon.2, false_or] at hx hy
    rw [hsizes] at hend
    exact hmeet x y ⟨List.mem_append.mpr hx, List.mem_append.mpr hy, hend⟩
  obtain ⟨as', hlow, hp, hmlow, a, ha, hsize⟩ := hup.joinNext_lower hmup
  rw [← joinLower_joinUpper hne hnbp hnp] at hlow hmlow hsize
  rw [hsizes] at hsup
  refine ⟨{ (s.joinUpper bp (lo.getLastD base)).joinLower bp (lo.getLastD base) with
    freep := some (lo.getLastD base) }, _, as', ?_, rfl, ?_, hp, hmlow, a, ha, hsup.trans hsize⟩
  · rw [Heap.free, hfreep]
    dsimp only
    rw [hseek]
  · exact ⟨hlow.ring, hlow.base_size, hlow.gaps, hlow.pos, hlow.split, hlow.fresh, hlow.above,
      hlow.small, hlow.sized, hlow.kept⟩

end Free

/-- What `sbrk` grants is a block that no list has. -/
theorem grant {a nu : ℕ} (h : Arena base s [] as) (hnu : 0 < nu) (ha : base < a)
    (hsmall : nu + (s.chunks.map Prod.snd).sum < 2 ^ 32)
    (hfresh : ∀ c ∈ s.chunks, a + nu ≤ c.1 ∨ c.1 + c.2 ≤ a) :
    Arena base { s.setSize a nu with chunks := (a, nu) :: s.chunks } [a] as := by
  have hnot : ∀ u ∈ s.chunks.flatMap cells, u ∉ cells (a, nu) := by
    intro u hu hau
    obtain ⟨c, hc, hcu⟩ := List.mem_flatMap.mp hu
    have hdisj := hfresh c hc
    rw [mem_cells] at hcu hau
    omega
  have hself : a ∈ cells (a, nu) := mem_cells.mpr ⟨Nat.le_refl a, Nat.lt_add_of_pos_right hnu⟩
  have hblock : ∀ b ∈ as ++ s.live.map Prod.fst, ∀ u, b ≤ u ∧ u < b + s.size b → u ≠ a := by
    rintro b hb u hu rfl
    exact hnot u (h.split.mem_iff.mp (mem_units.mpr ⟨b, hb, hu⟩)) hself
  have hring {b : ℕ} (hb : b ∈ as) : b ≠ a :=
    hblock b (List.mem_append_left _ hb) b ⟨Nat.le_refl b, Nat.lt_add_of_pos_right (h.pos b hb)⟩
  have hlive {c : ℕ × ℕ} (hc : c ∈ s.live) : c.1 ≠ a := by
    refine hblock c.1 (List.mem_append_right _ (List.mem_map_of_mem hc)) c.1 ⟨Nat.le_refl _, ?_⟩
    rw [h.sized c hc]
    exact Nat.lt_add_of_pos_right (Nat.zero_lt_succ _)
  have hsize {u : ℕ} (hu : u ≠ a) : (s.setSize a nu).size u = s.size u := size_setSize_of_ne hu
  have hrest (bs : List ℕ) (hbs : ∀ b ∈ bs, b ≠ a) : (s.setSize a nu).units bs = s.units bs :=
    units_congr fun b hb => hsize (hbs b hb)
  refine ⟨?_, ?_, ?_, fun b hb => ?_, ?_, ?_, ?_, ?_, fun c hc => ?_, ?_⟩
  · have hptr : (s.setSize a nu).ptr = s.ptr := ptr_setSize
    exact hptr ▸ h.ring
  · exact (hsize ha.ne).trans h.base_size
  · refine h.gaps.imp_of_mem fun {x y} hx _ hxy => ?_
    have hxa : x ≠ a := by
      obtain rfl | hx := List.mem_cons.mp hx
      · exact ha.ne
      · exact hring hx
    exact (congrArg (x + ·) (hsize hxa)).trans_le hxy
  · exact (h.pos b hb).trans_eq (hsize (hring hb)).symm
  · change ((s.setSize a nu).units (as ++ ([a] ++ s.live.map Prod.fst))).Perm
      (((a, nu) :: s.chunks).flatMap cells)
    have hperm := h.split
    rw [List.nil_append, units_append, List.perm_iff_count] at hperm
    rw [units_append, units_append, hrest as fun b hb => hring hb, hrest (s.live.map Prod.fst),
      List.flatMap_cons, List.perm_iff_count]
    · intro u
      have hcount := hperm u
      have hone : (s.setSize a nu).units [a] = cells (a, nu) := by
        rw [units_cons, size_setSize_self]
        exact List.append_nil _
      rw [hone]
      simp only [List.count_append] at hcount ⊢
      omega
    · intro b hb
      obtain ⟨c, hc, rfl⟩ := List.mem_map.mp hb
      exact hlive hc
  · refine List.nodup_append.mpr ⟨List.nodup_range', h.fresh, fun u hu v hv heq => ?_⟩
    exact hnot v hv (heq ▸ hu)
  · exact List.forall_mem_cons.mpr ⟨ha, h.above⟩
  · exact hsmall
  · exact (hsize (hlive hc)).trans (h.sized c hc)
  · refine h.kept_of rfl (fun c hc => hc) fun u hu => mem_setSize_of_ne ?_
    obtain ⟨c, hc, huc⟩ := hu
    refine hblock c.1 (List.mem_append_right _ (List.mem_map_of_mem hc)) u ?_
    rwa [h.sized c hc]

/-- What the loop of `malloc` comes to. -/
theorem search (h : Arena base s [] as) {freep : ℕ} (hmem : freep ∈ base :: as) (n : ℕ) :
    (pursue s.ptr (fun p => s.size p ≥ nunits n) freep s.fuel freep (s.ptr freep) = some none ∧
      ∀ a ∈ as, s.size a < nunits n) ∨
    ∃ prevp p, pursue s.ptr (fun p => s.size p ≥ nunits n) freep s.fuel freep (s.ptr freep) =
        some (some (prevp, p)) ∧
      prevp ∈ base :: as ∧ p ∈ as ∧ s.ptr prevp = p ∧ nunits n ≤ s.size p := by
  obtain ⟨hnone, hall⟩ | ⟨prevp, p, hsome, hprev, hp, hnext, hstop⟩ :=
    h.ring.pursue (fun p => s.size p ≥ nunits n) h.nodup_ring hmem h.length_lt_fuel
  · refine .inl ⟨hnone, fun a ha => ?_⟩
    have hfit := hall a (List.mem_cons_of_mem _ ha)
    rw [decide_eq_false_iff_not] at hfit
    exact Nat.lt_of_not_le hfit
  · rw [decide_eq_true_eq] at hstop
    refine .inr ⟨prevp, p, hsome, hprev, ?_, hnext, hstop⟩
    obtain rfl | hp := List.mem_cons.mp hp
    · have hbase := h.base_size
      have hpos : 0 < nunits n := Nat.zero_lt_succ _
      omega
    · exact hp

/-- What `malloc` takes is with the program. -/
theorem take (h : Arena base s [] as) {prevp nbytes : ℕ} (hp : p ∈ as)
    (hprev : prevp ∈ base :: as) (hnext : s.ptr prevp = p) (hfit : nunits nbytes ≤ s.size p)
    (hmeet : ∀ a b, ¬ s.Meet as a b) :
    Sound base { (s.take (nunits nbytes) prevp p).1 with
      live := ((s.take (nunits nbytes) prevp p).2, nbytes) :: s.live } := by
  rw [Heap.take]
  split_ifs with hall
  · obtain ⟨as', harena, hprev', hsub⟩ := h.take_all hp hprev hnext hall
    refine ⟨as', harena, hprev', fun a b hab => hmeet a b
      ⟨hsub.subset hab.1, hsub.subset hab.2.1, ?_⟩⟩
    have hsizes : (s.setPtr prevp (s.ptr p)).size = s.size := size_setPtr
    exact hsizes ▸ hab.2.2
  · obtain ⟨m, hm⟩ := Nat.exists_eq_add_of_le' hfit
    have hpos : 0 < m := by omega
    have hcut : s.size p - nunits nbytes = m := by omega
    have harena := h.take_end hp hprev hpos hm
    rw [hcut]
    dsimp only
    rw [size_setSize_self]
    refine ⟨as, harena, hprev, fun a b hab => ?_⟩
    obtain ⟨ha, hb, hend⟩ := hab
    have hn : 0 < nunits nbytes := Nat.zero_lt_succ _
    have hnew := h.ne_cut hp hpos (by omega)
    obtain rfl | hne := eq_or_ne a p
    · have hsize : ((s.setSize a m).setSize (a + m) (nunits nbytes)).size a = m :=
        (size_setSize_of_ne (by omega)).trans size_setSize_self
      exact hnew b (List.mem_cons_of_mem _ hb) (hend.symm.trans (congrArg (a + ·) hsize))
    · have hsize : ((s.setSize p m).setSize (p + m) (nunits nbytes)).size a = s.size a :=
        (size_setSize_of_ne (hnew a (List.mem_cons_of_mem _ ha))).trans (size_setSize_of_ne hne)
      exact hmeet a b ⟨ha, hb, (congrArg (a + ·) hsize).symm.trans hend⟩

/-- Consecutive units with nothing alive in them are of one free block. -/
theorem one_block (h : Arena base s [] as) (hmeet : ∀ a b, ¬ s.Meet as a b) {k : ℕ}
    (hk : 0 < k) (hfree : ∀ v, u ≤ v → v < u + k → v ∈ s.units as) :
    ∃ a ∈ as, a ≤ u ∧ u + k ≤ a + s.size a := by
  induction k with
  | zero => exact absurd hk (Nat.lt_irrefl 0)
  | succ k ih =>
    rcases Nat.eq_zero_or_pos k with rfl | hk
    · obtain ⟨a, ha, hau⟩ := mem_units.mp (hfree u (Nat.le_refl u) (Nat.lt_succ_self u))
      exact ⟨a, ha, hau⟩
    · obtain ⟨a, ha, hlo, hhi⟩ := ih hk fun v hv hvk => hfree v hv (by omega)
      obtain ⟨b, hb, hlob, hhib⟩ := mem_units.mp (hfree (u + k) (by omega) (by omega))
      have hnot := hmeet a b
      obtain rfl | hne := eq_or_ne a b
      · exact ⟨a, ha, hlo, by omega⟩
      · have hend : a + s.size a ≠ b := fun hend => hnot ⟨ha, hb, hend⟩
        have hsymm : Std.Symm fun a b => a + s.size a ≤ b ∨ b + s.size b ≤ a :=
          ⟨fun _ _ => Or.symm⟩
        have hpairs : as.Pairwise fun a b => a + s.size a ≤ b ∨ b + s.size b ≤ a :=
          (List.pairwise_cons.mp h.gaps).2.imp .inl
        have hab := hpairs.forall ha hb hne
        omega

end Arena

/-- There is room, in what `sbrk` granted, beside the live blocks. -/
def Fits (nbytes : ℕ) : Prop :=
  ∃ a, ∀ u, a ≤ u → u < a + nunits nbytes →
    u ∈ s.chunks.flatMap cells ∧ ∀ c ∈ s.live, u ∉ cells (c.1, nunits c.2)

theorem Arena.fits_iff {s : Heap} {base nbytes : ℕ} {as : List ℕ} (h : Arena base s [] as)
    (hmeet : ∀ a b, ¬ s.Meet as a b) : s.Fits nbytes ↔ ∃ a ∈ as, nunits nbytes ≤ s.size a := by
  have hunits : ∀ u, u ∈ s.units as ↔
      u ∈ s.chunks.flatMap cells ∧ ∀ c ∈ s.live, u ∉ cells (c.1, nunits c.2) := by
    intro u
    have hmem := h.split.mem_iff (a := u)
    have hnodup := h.nodup
    rw [List.nil_append, units_append] at hmem hnodup
    have hdisj := (List.nodup_append.mp hnodup).2.2
    have hlive : u ∈ s.units (s.live.map Prod.fst) ↔ ∃ c ∈ s.live, u ∈ cells (c.1, nunits c.2) := by
      rw [mem_units]
      constructor
      · rintro ⟨a, ha, hu⟩
        obtain ⟨c, hc, rfl⟩ := List.mem_map.mp ha
        exact ⟨c, hc, mem_cells.mpr (h.sized c hc ▸ hu)⟩
      · rintro ⟨c, hc, hu⟩
        exact ⟨c.1, List.mem_map_of_mem hc, (h.sized c hc).symm ▸ mem_cells.mp hu⟩
    rw [← hmem, List.mem_append]
    constructor
    · intro hu
      refine ⟨.inl hu, fun c hc huc => ?_⟩
      exact hdisj u hu u (hlive.mpr ⟨c, hc, huc⟩) rfl
    · rintro ⟨hu, hnot⟩
      refine hu.resolve_right fun hu => ?_
      obtain ⟨c, hc, huc⟩ := hlive.mp hu
      exact hnot c hc huc
  constructor
  · rintro ⟨a, ha⟩
    obtain ⟨b, hb, hlo, hhi⟩ := h.one_block hmeet (u := a) (k := nunits nbytes)
      (Nat.zero_lt_succ _) fun v hlo hhi => (hunits v).mpr (ha v hlo hhi)
    exact ⟨b, hb, by omega⟩
  · rintro ⟨a, ha, hle⟩
    exact ⟨a, fun u hlo hhi => (hunits u).mp (mem_units.mpr ⟨a, ha, hlo, by omega⟩)⟩

/-! ## Runs -/

theorem mallocLoop_of_fits {s : Heap} {base freep nbytes : ℕ} {as : List ℕ}
    (h : Arena base s [] as) (hfreep : s.freep = some freep) (hmem : freep ∈ base :: as)
    (hmeet : ∀ a b, ¬ s.Meet as a b) (hfit : ∃ a ∈ as, nunits nbytes ≤ s.size a)
    (grants : List (Option ℕ)) :
    ∃ s' bp, mallocLoop (nunits nbytes) grants s = some (s', some bp) ∧
      Sound base { s' with live := (bp, nbytes) :: s'.live } := by
  obtain ⟨hnone, hall⟩ | ⟨prevp, p, hsome, hprev, hp, hnext, hle⟩ := h.search hmem nbytes
  · obtain ⟨a, ha, hle⟩ := hfit
    exact absurd (hall a ha) (Nat.not_lt_of_le hle)
  · refine ⟨(s.take (nunits nbytes) prevp p).1, (s.take (nunits nbytes) prevp p).2, ?_, ?_⟩
    · unfold mallocLoop
      rw [hfreep]
      dsimp only
      rw [hsome]
    · have hlive : (s.take (nunits nbytes) prevp p).1.live = s.live := by
        rw [take]
        split_ifs
        · rfl
        · rfl
      rw [hlive]
      exact h.take hp hprev hnext hle hmeet

/-- **The loop of `malloc` ends**: it finds a block, or does after `sbrk` granted one. -/
theorem mallocLoop_spec {s : Heap} {base freep nbytes : ℕ} {as : List ℕ} {grant : Option ℕ}
    (h : Arena base s [] as) (hfreep : s.freep = some freep) (hmem : freep ∈ base :: as)
    (hmeet : ∀ a b, ¬ s.Meet as a b) (hd : Disciplined base s (.malloc nbytes grant)) :
    (mallocLoop (nunits nbytes) [grant] s = some (s, none) ∧ grant = none ∧ ¬ s.Fits nbytes) ∨
      ∃ s' bp, mallocLoop (nunits nbytes) [grant] s = some (s', some bp) ∧
        (grant = none → s.Fits nbytes) ∧
        Sound base { s' with live := (bp, nbytes) :: s'.live } := by
  obtain ⟨hnone, hall⟩ | ⟨-, p, -, -, hp, -, hle⟩ := h.search hmem nbytes
  · have hnot : ¬ s.Fits nbytes := fun hfits => by
      obtain ⟨a, ha, hle⟩ := (h.fits_iff hmeet).mp hfits
      exact absurd (hall a ha) (Nat.not_lt_of_le hle)
    rcases grant with _ | a
    · refine .inl ⟨?_, rfl, hnot⟩
      unfold mallocLoop
      rw [hfreep]
      dsimp only
      rw [hnone]
    · obtain ⟨-, hbase, hsmall, hfresh⟩ := hd a rfl
      have hnu : (if nunits nbytes < 4096 then 4096 else nunits nbytes) =
          max (nunits nbytes) 4096 := by
        split_ifs with hlt
        · exact (max_eq_right hlt.le).symm
        · exact (max_eq_left (Nat.le_of_not_lt hlt)).symm
      have hgrant := h.grant (lt_max_of_lt_right (by decide)) hbase hsmall hfresh
      have hsize : (s.setSize a (max (nunits nbytes) 4096)).size a = max (nunits nbytes) 4096 :=
        size_setSize_self
      have hpos : 0 < (s.setSize a (max (nunits nbytes) 4096)).size a :=
        hsize.symm ▸ lt_max_of_lt_right (by decide)
      have hmeet' : ∀ x y, ¬ (s.setSize a (max (nunits nbytes) 4096)).Meet as x y := by
        rintro x y ⟨hx, hy, hend⟩
        have hxa : x ≠ a := fun heq => hgrant.hand_not_mem hpos (heq ▸ hx)
        rw [size_setSize_of_ne hxa] at hend
        exact hmeet x y ⟨hx, hy, hend⟩
      obtain ⟨s', q, as', hfree, hfreep', harena, hq, hmeet'', b, hb, hle⟩ :=
        hgrant.free hpos hfreep hmem hmeet'
      have hfit : ∃ b ∈ as', nunits nbytes ≤ s'.size b :=
        ⟨b, hb, (le_max_left _ _).trans (hsize.symm.trans_le hle)⟩
      obtain ⟨s'', bp, hloop, hsound⟩ :=
        mallocLoop_of_fits harena hfreep' hq hmeet'' hfit []
      refine .inr ⟨s'', bp, ?_, nofun, hsound⟩
      unfold mallocLoop
      rw [hfreep]
      dsimp only
      rw [hnone]
      dsimp only
      rw [morecore, hnu, hfree]
      exact hloop
  · have hfits := (h.fits_iff hmeet).mpr ⟨p, hp, hle⟩
    obtain ⟨s', bp, hloop, hsound⟩ := mallocLoop_of_fits h hfreep hmem hmeet ⟨p, hp, hle⟩ [grant]
    exact .inr ⟨s', bp, hloop, fun _ => hfits, hsound⟩

/-- The state in which the loop of `malloc` begins. -/
theorem Sound.begin {s : Heap} {base : ℕ} (h : Sound base s) :
    ∃ s' : Heap, s' = (if s.freep = none then
        { s with mem := Function.update s.mem base ⟨base, 0⟩, freep := some base } else s) ∧
      s'.chunks = s.chunks ∧ s'.live = s.live ∧
      ∃ freep as, Arena base s' [] as ∧ s'.freep = some freep ∧ freep ∈ base :: as ∧
        ∀ a b, ¬ s'.Meet as a b := by
  refine ⟨_, rfl, ?_⟩
  split_ifs with hfreep
  · refine ⟨rfl, rfl, base, [], ?_, rfl, List.mem_cons_self, fun a b hab => ?_⟩
    · rw [Sound, hfreep] at h
      obtain ⟨hlive, hchunks, hwritten⟩ := h
      refine ⟨?_, ?_, ?_, ?_, ?_, ?_, ?_, ?_, ?_, ?_⟩
      · refine List.isChain_pair.mpr ?_
        simp [ptr]
      · simp [size]
      · exact List.pairwise_singleton _ _
      · exact fun a ha => absurd ha List.not_mem_nil
      · rw [hlive, hchunks]
        exact .refl _
      · rw [hchunks]
        exact List.nodup_nil
      · rw [hchunks]
        exact fun c hc => absurd hc List.not_mem_nil
      · rw [hchunks]
        decide
      · rw [hlive]
        exact fun c hc => absurd hc List.not_mem_nil
      · intro u v hv
        rw [hwritten u] at hv
        exact absurd hv (Option.some_ne_none v).symm
    · exact absurd hab.1 List.not_mem_nil
  · obtain ⟨freep, hsome⟩ := Option.ne_none_iff_exists'.mp hfreep
    rw [Sound, hsome] at h
    obtain ⟨as, harena, hmem, hmeet⟩ := h
    exact ⟨rfl, rfl, freep, as, harena, hsome, hmem, hmeet⟩

theorem Sound.malloc {s : Heap} {base nbytes : ℕ} {grant : Option ℕ} (h : Sound base s)
    (hd : Disciplined base s (.malloc nbytes grant)) :
    (∃ s', s.malloc base nbytes grant = some (s', none) ∧ grant = none ∧ ¬ s.Fits nbytes ∧
      Sound base s') ∨
    ∃ s' bp, s.malloc base nbytes grant = some (s', some bp) ∧ (grant = none → s.Fits nbytes) ∧
      Sound base { s' with live := (bp, nbytes) :: s'.live } := by
  obtain ⟨s₀, hs₀, hchunks, hlive, freep, as, harena, hfreep, hmem, hmeet⟩ := h.begin
  have hfits : s₀.Fits nbytes ↔ s.Fits nbytes := by rw [Fits, Fits, hchunks, hlive]
  have hd' : Disciplined base s₀ (.malloc nbytes grant) := by
    rw [Disciplined, hchunks]
    exact hd
  rw [Heap.malloc, ← hs₀, ← hfits]
  obtain ⟨hloop, hgrant, hnot⟩ | ⟨s', bp, hloop, hgrant, hsound⟩ :=
    mallocLoop_spec harena hfreep hmem hmeet hd'
  · refine .inl ⟨s₀, hloop, hgrant, hnot, ?_⟩
    rw [Sound, hfreep]
    exact ⟨as, harena, hmem, hmeet⟩
  · exact .inr ⟨s', bp, hloop, hgrant, hsound⟩

/-- A block that comes back is at hand. -/
theorem Arena.release {s : Heap} {base bp : ℕ} {as : List ℕ} {c : ℕ × ℕ} (h : Arena base s [] as)
    (hc : c ∈ s.live) (hbp : c.1 = bp) : Arena base (s.release bp) [bp] as := by
  obtain ⟨d, l₁, l₂, hnot, hd, hlive, herase⟩ :=
    List.exists_of_eraseP hc (p := fun c => c.1 = bp) (decide_eq_true hbp)
  rw [decide_eq_true_eq] at hd
  have hmem : d ∈ s.live := hlive ▸ List.mem_append_right _ List.mem_cons_self
  have hkeep : ∀ e ∈ (s.release bp).live, e ∈ s.live := fun e he => List.mem_of_mem_eraseP he
  refine ⟨h.ring, h.base_size, h.gaps, h.pos, ?_, h.fresh, h.above, h.small,
    fun e he => h.sized e (hkeep e he), fun u v hv => ?_⟩
  · refine List.Perm.trans (List.Perm.flatMap_right _ (List.Perm.append_left as ?_)) h.split
    have herase' : (s.release bp).live = l₁ ++ l₂ := herase
    rw [herase', hlive, List.map_append, List.map_append, List.map_cons, hd, List.nil_append,
      List.singleton_append]
    exact List.perm_middle.symm
  · have hvu : (if bp ≤ u ∧ u < bp + s.size bp then none else s.written u) = some v := hv
    split_ifs at hvu with hout
    obtain ⟨hmemu, e, he, hlo, hhi⟩ := h.kept u v hvu
    refine ⟨hmemu, e, ?_, hlo, hhi⟩
    have hne : e ≠ d := by
      rintro rfl
      rw [← hd, h.sized e hmem] at hout
      exact hout ⟨hlo.le, hhi⟩
    have herase' : (s.release bp).live = l₁ ++ l₂ := herase
    rw [herase']
    rw [hlive] at he
    simpa [hne] using he

/-- A store into a live block changes no header. -/
theorem Arena.store {s : Heap} {base u : ℕ} {as : List ℕ} {v : Header} (h : Arena base s [] as)
    (hu : ∃ c ∈ s.live, c.1 < u ∧ u < c.1 + nunits c.2) :
    Arena base { s with
      mem := Function.update s.mem u v, written := Function.update s.written u (some v) }
      [] as := by
  obtain ⟨c, hc, hlo, hhi⟩ := hu
  have hring : ∀ a ∈ base :: as, u ≠ a := fun a ha => h.ne_of_live ha ⟨c, hc, hlo.le, hhi⟩
  have hlive : ∀ d ∈ s.live, u ≠ d.1 := by
    rintro d hd rfl
    have hnodup := h.nodup
    rw [List.nil_append, units_append] at hnodup
    have hpairs := (List.nodup_flatMap.mp (List.nodup_append.mp hnodup).2.1).2
    rw [List.pairwise_map] at hpairs
    have hne : c ≠ d := fun heq => (heq ▸ hlo).false
    have hapart : s.live.Pairwise fun c d => ∀ w ∈ cells (c.1, s.size c.1),
        w ∉ cells (d.1, s.size d.1) := hpairs.imp fun hdisj w hwc hwd => hdisj hwc hwd
    have hsymm : Std.Symm fun c d : ℕ × ℕ => ∀ w ∈ cells (c.1, s.size c.1),
        w ∉ cells (d.1, s.size d.1) := ⟨fun c d hcd w hwd hwc => hcd w hwc hwd⟩
    refine hapart.forall hc hd hne d.1 ?_ ?_
    · rw [h.sized c hc]
      exact mem_cells.mpr ⟨hlo.le, hhi⟩
    · rw [h.sized d hd]
      exact mem_cells.mpr ⟨Nat.le_refl _, Nat.lt_add_of_pos_right (Nat.zero_lt_succ _)⟩
  have hmem {a : ℕ} (ha : u ≠ a) : Function.update s.mem u v a = s.mem a :=
    Function.update_of_ne ha.symm _ _
  have hsize {a : ℕ} (ha : u ≠ a) : (Function.update s.mem u v a).size = s.size a :=
    congrArg Header.size (hmem ha)
  refine ⟨?_, ?_, ?_, fun a ha => ?_, ?_, h.fresh, h.above, h.small, fun d hd => ?_, ?_⟩
  · refine Linked.congr h.ring fun z hz => congrArg Header.ptr (hmem (hring z ?_))
    rwa [List.dropLast_concat] at hz
  · exact (hsize (hring base List.mem_cons_self)).trans h.base_size
  · exact h.gaps.imp_of_mem fun {x y} hx _ hxy =>
      (congrArg (x + ·) (hsize (hring x hx))).trans_le hxy
  · exact (h.pos a ha).trans_eq (hsize (hring a (List.mem_cons_of_mem _ ha))).symm
  · have hunits {s' : Heap} (hs' : ∀ a ∈ as ++ ([] ++ s.live.map Prod.fst), s'.size a = s.size a) :
        (s'.units (as ++ ([] ++ s.live.map Prod.fst))).Perm (s.chunks.flatMap cells) := by
      rw [units_congr hs']
      exact h.split
    refine hunits fun a ha => hsize ?_
    rcases List.mem_append.mp ha with ha | ha
    · exact hring a (List.mem_cons_of_mem _ ha)
    · obtain ⟨d, hd, rfl⟩ := List.mem_map.mp ha
      exact hlive d hd
  · exact (hsize (hlive d hd)).trans (h.sized d hd)
  · intro w x hx
    obtain rfl | hne := eq_or_ne w u
    · have hsome : some v = some x := (Function.update_self w (some v) s.written).symm.trans hx
      have hvx : v = x := Option.some_inj.mp hsome
      exact ⟨(Function.update_self w v s.mem).trans hvx, c, hc, hlo, hhi⟩
    · have hx' : s.written w = some x := (Function.update_of_ne hne _ _).symm.trans hx
      obtain ⟨hw, hin⟩ := h.kept w x hx'
      exact ⟨(Function.update_of_ne hne _ _).trans hw, hin⟩

/-- **What every step keeps**, and that it has an outcome. -/
theorem Sound.step {s : Heap} {base : ℕ} {e : Event} (h : Sound base s)
    (hd : Disciplined base s e) : ∃ s', step base s e = some s' ∧ Sound base s' := by
  rcases e with ⟨nbytes, grant⟩ | ap | ⟨u, v⟩
  · rw [Heap.step]
    obtain ⟨s', hs', -, -, hsound⟩ | ⟨s', bp, hs', -, hsound⟩ := h.malloc hd
    · exact ⟨s', by rw [hs']; rfl, hsound⟩
    · exact ⟨_, by rw [hs']; rfl, hsound⟩
  · obtain ⟨-, c, hc, hcap⟩ := hd
    rw [Heap.step]
    rcases hfreep : s.freep with _ | freep
    · rw [Sound, hfreep] at h
      rw [h.1] at hc
      exact absurd hc List.not_mem_nil
    · rw [Sound, hfreep] at h
      obtain ⟨as, harena, hmem, hmeet⟩ := h
      have hpos : 0 < (s.release (ap - 1)).size (ap - 1) := by
        have hsized := harena.sized c hc
        rw [hcap] at hsized
        exact (Nat.zero_lt_succ _).trans_eq hsized.symm
      obtain ⟨s', q, as', hfree, hfreep', harena', hq, hmeet', -⟩ :=
        (harena.release hc hcap).free hpos hfreep hmem hmeet
      refine ⟨s', hfree, ?_⟩
      rw [Sound, hfreep']
      exact ⟨as', harena', hq, hmeet'⟩
  · refine ⟨_, rfl, ?_⟩
    obtain ⟨c, hc, hin⟩ := hd
    obtain ⟨mem, freep, chunks, live, written⟩ := s
    rcases freep with _ | freep
    · obtain ⟨hlive, -⟩ := h
      exact absurd (hlive ▸ hc) List.not_mem_nil
    · obtain ⟨as, harena, hmem, hmeet⟩ := h
      refine ⟨as, harena.store ⟨c, hc, hin⟩, hmem, fun a b hab => hmeet a b ?_⟩
      have hua : u ≠ a := harena.ne_of_live (List.mem_cons_of_mem _ hab.1)
        ⟨c, hc, hin.1.le, hin.2⟩
      have hsize : (Function.update mem u v a).size = (mem a).size :=
        congrArg Header.size (Function.update_of_ne hua.symm _ _)
      exact ⟨hab.1, hab.2.1, (congrArg (a + ·) hsize).symm.trans hab.2.2⟩

theorem sound_of_run {s : Heap} {base : ℕ} {mem : ℕ → Header} {es : List Event}
    (hd : Along (step base) (Disciplined base) (start mem) es)
    (h : run (step base) (start mem) es = some s) : Sound base s := by
  have hstart : Sound base (start mem) := ⟨rfl, rfl, fun _ => rfl⟩
  refine invariant (I := Sound base) (fun s e s' hs hd hst => ?_) hstart hd h
  obtain ⟨t, ht, hsound⟩ := hs.step hd
  rw [hst] at ht
  exact Option.some_inj.mp ht ▸ hsound

/-- **The allocator is safe.**  Whatever the program allocates, stores and frees: the blocks it has
and the free ones share no unit and are all that `sbrk` granted; each has room for the bytes that it
was asked for; what is stored in one stays; and the free ones are on the ring in the order of their
addresses, with something between any two. -/
theorem blocks_apart {s : Heap} {base : ℕ} {mem : ℕ → Header} {es : List Event}
    (hd : Along (step base) (Disciplined base) (start mem) es)
    (h : run (step base) (start mem) es = some s) :
    (s.live.flatMap fun c => cells (c.1, nunits c.2)).Nodup ∧
    (∀ c ∈ s.live, c.2 ≤ 16 * (nunits c.2 - 1)) ∧
    (∀ u v, s.written u = some v → s.mem u = v) ∧
    ∃ as, (∀ freep ∈ s.freep, Ring s.ptr base as ∧ freep ∈ base :: as) ∧
      (base :: as).Pairwise (fun a b => a + s.size a < b) ∧
      ((as.flatMap fun a => cells (a, s.size a)) ++
        s.live.flatMap fun c => cells (c.1, nunits c.2)).Perm (s.chunks.flatMap cells) := by
  have hsound := sound_of_run hd h
  have hroom : ∀ c ∈ s.live, c.2 ≤ 16 * (nunits c.2 - 1) := fun c _ => by
    rw [nunits]
    omega
  rcases hfreep : s.freep with _ | freep
  · rw [Sound, hfreep] at hsound
    obtain ⟨hlive, hchunks, hwritten⟩ := hsound
    rw [hlive, hchunks]
    refine ⟨List.nodup_nil, fun c hc => absurd hc List.not_mem_nil, fun u v hv => ?_, [],
      fun f hf => absurd hf (Option.not_mem_none f), List.pairwise_singleton _ _, .refl _⟩
    rw [hwritten u] at hv
    exact absurd hv (Option.some_ne_none v).symm
  · rw [Sound, hfreep] at hsound
    obtain ⟨as, harena, hmem, hmeet⟩ := hsound
    have hlive : s.units (s.live.map Prod.fst) =
        s.live.flatMap fun c => cells (c.1, nunits c.2) := by
      rw [units, List.flatMap_map]
      exact List.flatMap_congr fun c hc => by rw [harena.sized c hc]
    have hsplit := harena.split
    have hnodup := harena.nodup
    rw [List.nil_append, units_append, hlive] at hsplit hnodup
    refine ⟨(List.nodup_append.mp hnodup).2.1, hroom, fun u v hv => (harena.kept u v hv).1, as,
      fun f hf => ?_, ?_, hsplit⟩
    · obtain rfl := Option.some_inj.mp hf
      exact ⟨harena.ring, hmem⟩
    · refine (harena.gaps.and harena.nodup_ring).imp_of_mem fun {x y} hx hy hxy =>
        hxy.1.lt_of_ne fun hend => ?_
      obtain rfl | hx := List.mem_cons.mp hx
      · rw [harena.base_size, Nat.add_zero] at hend
        exact hxy.2 hend
      · obtain heq | hy := List.mem_cons.mp hy
        · have hlt := harena.base_lt hx
          omega
        · exact hmeet x y ⟨hx, hy, hend⟩

/-- The program asks for two blocks, of which the second does not fit at first, writes into both and
frees the first. -/
def sampleEvents : List Event :=
  [.malloc 10 (some 100), .store 4195 ⟨7, 7⟩, .malloc 65520 none, .malloc 65536 (some 4196),
    .store 8292 ⟨9, 9⟩, .free 4195, .malloc 40 none, .store 8290 ⟨1, 2⟩]

theorem blocks_apart_sample :
    ∃ s, run (step 10) (start fun _ => ⟨0, 0⟩) sampleEvents = some s ∧ s.live.length = 2 ∧
      (s.live.flatMap fun c => cells (c.1, nunits c.2)).Nodup ∧
      (∀ c ∈ s.live, c.2 ≤ 16 * (nunits c.2 - 1)) ∧
      (∀ u v, s.written u = some v → s.mem u = v) ∧
      ∃ as, (∀ freep ∈ s.freep, Ring s.ptr 10 as ∧ freep ∈ 10 :: as) ∧
        (10 :: as).Pairwise (fun a b => a + s.size a < b) ∧
        ((as.flatMap fun a => cells (a, s.size a)) ++
          s.live.flatMap fun c => cells (c.1, nunits c.2)).Perm (s.chunks.flatMap cells) := by
  have hrun : (run (step 10) (start fun _ => ⟨0, 0⟩) sampleEvents).map
      (fun s => s.live.length) = some 2 := by decide +kernel
  obtain ⟨s, hs, hlen⟩ := Option.map_eq_some_iff.mp hrun
  exact ⟨s, hs, hlen, blocks_apart (by decide +kernel) hs⟩

/-- **`malloc`, `free` and stores come to their end**, with one call of `sbrk` at most; and `malloc`
returns null only when `sbrk` refuses and no stretch of what it granted so far is long enough and
free, in however many blocks it was given back. -/
theorem malloc_eq_none_iff {s : Heap} {base : ℕ} {mem : ℕ → Header} {es : List Event} {e : Event}
    (hd : Along (step base) (Disciplined base) (start mem) es)
    (h : run (step base) (start mem) es = some s) (he : Disciplined base s e) :
    (∃ s', step base s e = some s') ∧
    ∀ nbytes grant, e = .malloc nbytes grant →
      ∃ s' bp, s.malloc base nbytes grant = some (s', bp) ∧
        (bp = none ↔ grant = none ∧ ¬ s.Fits nbytes) := by
  have hsound := sound_of_run hd h
  obtain ⟨s', hs', -⟩ := hsound.step he
  refine ⟨⟨s', hs'⟩, ?_⟩
  rintro nbytes grant rfl
  obtain ⟨s', hs', hgrant, hnot, -⟩ | ⟨s', bp, hs', hfits, -⟩ := hsound.malloc he
  · exact ⟨s', none, hs', ⟨fun _ => ⟨hgrant, hnot⟩, fun _ => rfl⟩⟩
  · refine ⟨s', some bp, hs', ⟨fun heq => absurd heq (Option.some_ne_none bp), fun hcon => ?_⟩⟩
    exact absurd (hfits hcon.1) hcon.2

theorem malloc_eq_none_iff_sample :
    ∃ s, run (step 10) (start fun _ => ⟨0, 0⟩) sampleEvents = some s ∧
      (∃ s', step 10 s (.malloc 65456 none) = some s') ∧
      ∀ nbytes grant, Event.malloc 65456 none = .malloc nbytes grant →
        ∃ s' bp, s.malloc 10 nbytes grant = some (s', bp) ∧
          (bp = none ↔ grant = none ∧ ¬ s.Fits nbytes) := by
  have hrun : (run (step 10) (start fun _ => ⟨0, 0⟩) sampleEvents).isSome = true := by
    decide +kernel
  obtain ⟨s, hs⟩ := Option.isSome_iff_exists.mp hrun
  exact ⟨s, hs, malloc_eq_none_iff (by decide +kernel) hs
    fun a ha => absurd ha (Option.not_mem_none a)⟩

end Heap

end MiniProject.User
