import MiniProject.Machinery.Qsort
import MiniProject.Machinery.Strtol
import MiniProject.Shell.Syscalls
import MiniProject.Shell.Token

/-!
# Shell/Summary — the order of the rows that `snoop` prints

`cmp_stats` compares two counts by their difference, a `long`, and returns it as an `int`.  What is
left has the sign of the difference exactly as long as the difference, modulo `2 ^ 32`, is below
`2 ^ 31` and not zero (`Tells`).  So the table comes out by call count and first appearance exactly
if any two counts in it are equal or tell each other apart in this way (`ordered_iff`): always with
less than `2 ^ 31` calls (`ordered_watch`), while of `1` and `2 ^ 31 + 2` calls the row with one is
printed first.
-/

namespace MiniProject.Shell.Snoop

/-! ## The end of `snooping` -/

/-- `cmp_stats`.  The ranks are small and not negative, so their difference is an `int`. -/
def cmpStats (a b : Stat) : ℤ :=
  if b.count ≠ a.count then castInt (b.count - a.count) else a.firstSeen - b.firstSeen

/-- `%-16s`. -/
def padded (text : Text) : Text := text ++ List.replicate (16 - text.length) ' '

/-- The header line. -/
def header : Text := "syscall\t\tcalls\ttime\n".toList

section Lines

variable (syscallName : ℤ → Option Text) (seconds : ℤ → Text)

/-- The line of a row, with `syscall_name` and the `%.3f` of a time as they are. -/
def rowLine (r : Stat) : Text :=
  padded ((syscallName r.num).getD (("syscall_".toList ++ (toString r.num).toList).take 31)) ++
    (toString r.count).toList ++ ['\t'] ++ seconds r.totalTime ++ ['s', '\n']

/-- `snooping` from `qsort` on. -/
def summary (qsort : (Stat → Stat → ℤ) → List Stat → List Stat) (stats : List Stat) : List Text :=
  header :: (qsort cmpStats stats).map (rowLine syscallName seconds)

end Lines

/-! ## The order that is meant -/

/-- More calls, or as many and seen first. -/
def Before (a b : Stat) : Prop :=
  b.count < a.count ∨ a.count = b.count ∧ a.firstSeen < b.firstSeen

instance (a b : Stat) : Decidable (Before a b) := inferInstanceAs (Decidable (_ ∨ _))

/-- **The summary table is sorted**: `cmp_stats` is negative for what comes before, this is a strict
total order of the rows, and whatever `qsort` is the lines are in this order. -/
structure Ordered (stats : List Stat) : Prop where
  sign : ∀ a ∈ stats, ∀ b ∈ stats, (cmpStats a b < 0 ↔ Before a b)
  irrefl : ∀ a ∈ stats, ¬cmpStats a a < 0
  trans : ∀ a ∈ stats, ∀ b ∈ stats, ∀ c ∈ stats, cmpStats a b < 0 → cmpStats b c < 0 →
    cmpStats a c < 0
  total : ∀ a ∈ stats, ∀ b ∈ stats, a ≠ b → cmpStats a b < 0 ∨ cmpStats b a < 0
  printed : ∀ qsort, Sorts qsort → ∃ sorted : List Stat, sorted.Perm stats ∧
    sorted.Pairwise Before ∧ ∀ syscallName seconds,
      summary syscallName seconds qsort stats = header :: sorted.map (rowLine syscallName seconds)

/-- The counts are equal, or the `int` made of their difference tells which is larger. -/
def Tells (a b : Stat) : Prop :=
  a.count = b.count ∨
    0 < ((b.count : ℤ) - a.count).natAbs % 2 ^ 32 ∧
      ((b.count : ℤ) - a.count).natAbs % 2 ^ 32 < 2 ^ 31

instance (a b : Stat) : Decidable (Tells a b) := inferInstanceAs (Decidable (_ ∨ _))

variable {a b c : Stat} {stats : List Stat}

theorem cmpStats_of_count_eq (h : a.count = b.count) :
    cmpStats a b = a.firstSeen - b.firstSeen := if_neg (by simp [h])

theorem cmpStats_of_count_ne (h : a.count ≠ b.count) :
    cmpStats a b = castInt (b.count - a.count) := if_pos h.symm

/-! ## Two rows -/

theorem cmpStats_neg_iff (h : Tells a b) : cmpStats a b < 0 ↔ Before a b := by
  rw [Before]
  by_cases heq : a.count = b.count
  · rw [cmpStats_of_count_eq heq]
    omega
  · have htells := h.resolve_left heq
    rw [cmpStats_of_count_ne heq, castInt_neg_iff]
    omega

theorem cmpStats_pos_iff (h : Tells a b) : 0 < cmpStats a b ↔ Before b a := by
  rw [Before]
  by_cases heq : a.count = b.count
  · rw [cmpStats_of_count_eq heq]
    omega
  · have htells := h.resolve_left heq
    rw [cmpStats_of_count_ne heq, castInt_pos_iff]
    omega

/-- **The sign is right both ways only if the counts tell.** -/
theorem tells_of_sign (hab : cmpStats a b < 0 ↔ Before a b) (hba : cmpStats b a < 0 ↔ Before b a) :
    Tells a b := by
  rw [Tells]
  by_cases heq : a.count = b.count
  · exact .inl heq
  · rw [cmpStats_of_count_ne heq, castInt_neg_iff, Before] at hab
    rw [cmpStats_of_count_ne (Ne.symm heq), castInt_neg_iff, Before] at hba
    omega

theorem Before.trans (hab : Before a b) (hbc : Before b c) : Before a c := by
  simp only [Before] at *
  omega

/-- What is not before is behind or alike, and that is an order too. -/
theorem not_before_trans (hba : ¬Before b a) (hcb : ¬Before c b) : ¬Before c a := by
  simp only [Before] at *
  omega

theorem before_or_of_firstSeen_ne (h : a.firstSeen ≠ b.firstSeen) : Before a b ∨ Before b a := by
  simp only [Before]
  omega

/-! ## The table -/

/-- `cmp_stats` is a comparison for `qsort`. -/
theorem consistent_cmpStats (h : ∀ a ∈ stats, ∀ b ∈ stats, Tells a b) :
    Consistent cmpStats stats where
  swap a ha b hb := (cmpStats_neg_iff (h a ha b hb)).trans (cmpStats_pos_iff (h b hb a ha)).symm
  trans a ha b hb c hc hab hbc := by
    have hba := mt (cmpStats_pos_iff (h a ha b hb)).mpr (Int.not_lt.mpr hab)
    have hcb := mt (cmpStats_pos_iff (h b hb c hc)).mpr (Int.not_lt.mpr hbc)
    exact Int.not_lt.mp (mt (cmpStats_pos_iff (h a ha c hc)).mp (not_before_trans hba hcb))

/-- **Where all counts tell, the table is sorted.** -/
theorem ordered_of_tells (hranks : (stats.map Stat.firstSeen).Nodup)
    (h : ∀ a ∈ stats, ∀ b ∈ stats, Tells a b) : Ordered stats := by
  have hsign : ∀ a ∈ stats, ∀ b ∈ stats, (cmpStats a b < 0 ↔ Before a b) :=
    fun a ha b hb => cmpStats_neg_iff (h a ha b hb)
  have htotal : ∀ a ∈ stats, ∀ b ∈ stats, a ≠ b → cmpStats a b < 0 ∨ cmpStats b a < 0 := by
    intro a ha b hb hne
    rw [hsign a ha b hb, hsign b hb a ha]
    exact before_or_of_firstSeen_ne fun heq => hne (List.inj_on_of_nodup_map hranks ha hb heq)
  refine ⟨hsign, fun a ha => ?_, fun a ha b hb c hc => ?_, htotal, fun qsort hqsort => ?_⟩
  · rw [hsign a ha a ha, Before]
    omega
  · rw [hsign a ha b hb, hsign b hb c hc, hsign a ha c hc]
    exact Before.trans
  · have hconsistent := consistent_cmpStats h
    have hperm := (hqsort cmpStats stats hconsistent).1
    have hne : ∀ a ∈ stats, ∀ b ∈ stats, a ≠ b → cmpStats a b ≠ 0 := by
      intro a ha b hb hab
      have hswap := hconsistent.swap b hb a ha
      rcases htotal a ha b hb hab with hlt | hlt <;> omega
    have hsorted := hqsort.pairwise hconsistent hranks.of_map hne
    refine ⟨qsort cmpStats stats, hperm, hsorted.imp_of_mem fun {a b} ha hb hlt => ?_,
      fun _ _ => rfl⟩
    exact (hsign a (hperm.subset ha) b (hperm.subset hb)).mp hlt

/-- **The table is sorted exactly if any two counts in it tell each other apart** or are equal. -/
theorem ordered_iff (hranks : (stats.map Stat.firstSeen).Nodup) :
    Ordered stats ↔ ∀ a ∈ stats, ∀ b ∈ stats, Tells a b :=
  ⟨fun h a ha b hb => tells_of_sign (h.sign a ha b hb) (h.sign b hb a ha),
    ordered_of_tells hranks⟩

/-- Three calls of `read` and five of `write`: `write` is printed first. -/
theorem ordered_iff_read :
    Ordered [⟨0, 3, 10, 0⟩, ⟨1, 5, 20, 1⟩] ∧
      mergeQsort cmpStats [⟨0, 3, 10, 0⟩, ⟨1, 5, 20, 1⟩] = [⟨1, 5, 20, 1⟩, ⟨0, 3, 10, 0⟩] := by
  refine ⟨(ordered_iff (by decide)).mpr (by decide), ?_⟩
  exact sorts_mergeQsort.eq_of_pairwise ⟨by decide, by decide⟩ (by decide)
    (List.Perm.swap _ _ _) (by decide)

/-- **One call of `read` and `2 ^ 31 + 2` of `write`**: every `qsort` puts `read` first. -/
theorem not_ordered :
    ¬Ordered [⟨0, 1, 10, 0⟩, ⟨1, 2 ^ 31 + 2, 20, 1⟩] ∧
      ∀ qsort, Sorts qsort → qsort cmpStats [⟨0, 1, 10, 0⟩, ⟨1, 2 ^ 31 + 2, 20, 1⟩]
        = [⟨0, 1, 10, 0⟩, ⟨1, 2 ^ 31 + 2, 20, 1⟩] := by
  refine ⟨fun h => ?_, fun qsort hqsort => ?_⟩
  · have hsign := h.sign ⟨0, 1, 10, 0⟩ (by decide) ⟨1, 2 ^ 31 + 2, 20, 1⟩ (by decide)
    exact absurd (hsign.mp (by decide)) (by decide)
  · exact hqsort.eq_of_pairwise ⟨by decide, by decide⟩ (by decide) (List.Perm.refl _) (by decide)

/-! ## After every run -/

/-- **A summary is sorted if there were fewer than `2 ^ 31` calls.** -/
theorem ordered_watch {seen : List (ℤ × Seen)} (halt : Alternates false (seen.map Prod.snd))
    (hcalls : (completed none (seen.map Prod.snd)).length < 2 ^ 31) :
    Ordered (Tally.initial.watch (seen.map fun p => (p.1, p.2.stop))).1.stats := by
  have htable : Tabled _ _ := Kept.initial.watch halt
  rw [List.nil_append] at htable
  have hcount : ∀ r ∈ (Tally.initial.watch (seen.map fun p => (p.1, p.2.stop))).1.stats,
      r.count < 2 ^ 31 := by
    intro r hr
    obtain ⟨i, hi⟩ := List.mem_iff_getElem?.mp hr
    rw [(htable.row i r hi).1]
    exact Nat.lt_of_le_of_lt List.count_le_length hcalls
  refine ordered_of_tells ?_ fun a ha b hb => ?_
  · have hranks : (Tally.initial.watch (seen.map fun p => (p.1, p.2.stop))).1.stats.map
        Stat.firstSeen = List.range
          (Tally.initial.watch (seen.map fun p => (p.1, p.2.stop))).1.stats.length := by
      refine List.ext_getElem (by simp) fun i hi hi' => ?_
      rw [List.getElem_map, List.getElem_range]
      exact (htable.row i _ (List.getElem?_eq_getElem _)).2
    rw [hranks]
    exact List.nodup_range
  · have := hcount a ha
    have := hcount b hb
    rw [Tells]
    omega

end MiniProject.Shell.Snoop
