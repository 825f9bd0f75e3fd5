import MiniProject.Kernel.Pipe

/-!
# Kernel/PipeWakeups — who sleeps at a pipe, and who wakes them

Whoever takes a byte out wakes the writers before it lets go of the lock, and whoever puts one in
wakes the readers; but for a writer that is killed, or finds no reader left, halfway.  So a writer
sleeps on a full pipe only (`no_writer_forgotten`), and a reader on an empty one as long as no
writer leaves that way while somebody waits for what it put in (`no_reader_forgotten_iff`).
-/

namespace MiniProject.Kernel.Pipe

variable {P : Type} {s s' : Pipe P} {p q : P} {c c' : PipeChan} {e : Event P}

/-- Between `sleep_prepare(c)` and the return of `sleep`, with no wakeup since. -/
def Waits (s : Pipe P) (p : P) (c : PipeChan) : Prop :=
  (∃ x, s.place p = some x ∧ x.waits) ∧ s.chan p = some c

/-- What a reader waits to change. -/
def Empty (s : Pipe P) : Prop := s.nread = s.nwrite ∧ s.writeopen = true

/-- What a writer waits to change. -/
def Full (s : Pipe P) : Prop := s.nwrite = s.nread + BitVec.ofNat 32 pipesize ∧ s.readopen = true

/-- A writer holds the lock. -/
def WriterIn (s : Pipe P) : Prop := ∃ q bytes i, s.call q = some (.write bytes i, .inside)

/-- A reader in its second loop does. -/
def CopierIn (s : Pipe P) : Prop := ∃ q n got, s.call q = some (.read n got true, .inside)

/-- Nobody waits who was just woken. -/
theorem waits_of_wakeup (h : (s.wakeup c).Waits p c') : c' ≠ c ∧ s.Waits p c' := by
  obtain ⟨⟨x, hx, hw⟩, hchan⟩ := h
  have hchan' : ¬ s.chan p = some c ∧ s.chan p = some c' := by
    change (if s.chan p = some c then none else s.chan p) = some c' at hchan
    split_ifs at hchan with hc
    exact ⟨hc, hchan⟩
  refine ⟨fun heq => hchan'.1 (heq ▸ hchan'.2), ⟨x, ?_, hw⟩, hchan'.2⟩
  rw [place_wakeup] at hx
  simpa [hchan'.1] using hx

/-- A step that makes nobody wait. -/
theorem Waits.of_call (h : s'.Waits p c) (hcall : s'.place p = s.place p)
    (hchan : s'.chan p = s.chan p) : s.Waits p c := by
  rw [Waits, ← hcall, ← hchan]
  exact h

/-- Nobody else is inside with `p`. -/
theorem Locked.not_copier (h : Locked s) {bytes : List (BitVec 8)} {i : ℕ}
    (hcall : s.call p = some (.write bytes i, .inside)) : ¬ s.CopierIn := by
  rintro ⟨q, n, got, hq⟩
  obtain rfl : q = p := h.excl.eq (inside_of_call hq) (inside_of_call hcall)
  rw [hcall] at hq
  cases hq

theorem Locked.not_writer (h : Locked s) {n : ℕ} {got : List (BitVec 8)} {copying : Bool}
    (hcall : s.call p = some (.read n got copying, .inside)) : ¬ s.WriterIn := by
  rintro ⟨q, bytes, i, hq⟩
  obtain rfl : q = p := h.excl.eq (inside_of_call hq) (inside_of_call hcall)
  rw [hcall] at hq
  cases hq

theorem Locked.not_inside (h : Locked s) (hlock : s.lock = none) (p : P) : ¬ s.Inside p := by
  have hexcl := h.excl
  rw [hlock] at hexcl
  exact hexcl.not_inside

theorem Locked.not_copier_of_first (h : Locked s) {n : ℕ} {got : List (BitVec 8)}
    (hcall : s.call p = some (.read n got false, .inside)) : ¬ s.CopierIn := by
  rintro ⟨q, n', got', hq⟩
  obtain rfl : q = p := h.excl.eq (inside_of_call hq) (inside_of_call hcall)
  rw [hcall] at hq
  cases hq

section Step

variable [DecidableEq P]

/-- A call that does not wait moves. -/
theorem waits_of_setCall {call : Option (PipeCall × PipePlace)}
    (hcall : ∀ x ∈ call.map Prod.snd, x.waits = false)
    (h : (s.setCall p call).Waits q c) : q ≠ p ∧ s.Waits q c := by
  have hne : q ≠ p := by
    rintro rfl
    obtain ⟨⟨x, hx, hw⟩, -⟩ := h
    rw [place, call_setCall, Function.update_self] at hx
    rw [hcall x hx] at hw
    cases hw
  exact ⟨hne, h.of_call (by rw [place, place, call_setCall, Function.update_of_ne hne]) rfl⟩

theorem waits_of_inside {call : PipeCall}
    (h : (s.setCall p (some (call, .inside))).Waits q c) : q ≠ p ∧ s.Waits q c :=
  waits_of_setCall (fun x hx => by cases hx; rfl) h

theorem waits_of_leave {ret : ℤ} (h : (s.leave p ret).Waits q c) : s.Waits q c := by
  have h' : (s.setCall p none).Waits q c := h.of_call rfl rfl
  exact (waits_of_setCall (fun x hx => by cases hx) h').2

theorem waits_of_prepare {call : PipeCall} (h : (s.prepare p call c).Waits q c') :
    c' = c ∨ s.Waits q c' := by
  by_cases hq : q = p
  · have hchan : Function.update s.chan p (some c) q = some c' := h.2
    rw [hq, Function.update_self, Option.some.injEq] at hchan
    exact .inl hchan.symm
  · refine .inr (h.of_call ?_ ?_)
    · exact congrArg (Option.map Prod.snd) (Function.update_of_ne hq _ _)
    · exact Function.update_of_ne hq _ _

/-- What a step can do to who waits, but for a turn. -/
theorem waits_of_step (hs : s.step e = some s') (hturn : ∀ p fault, e ≠ .turn p fault)
    (h : s'.Waits q c) : s.Waits q c := by
  cases e with
  | write p bytes | read p n =>
    rw [step] at hs
    split_ifs at hs
    cases hs
    exact (waits_of_setCall (fun x hx => by cases hx; rfl) h).2
  | acquire p =>
    rw [step] at hs
    split at hs
    · split_ifs at hs
      cases hs
      exact (waits_of_setCall (p := p) (s := s) (fun x hx => by cases hx; rfl) h).2
    · cases hs
  | turn p fault => exact absurd rfl (hturn p fault)
  | sleep p =>
    rw [step] at hs
    split at hs
    · next call hcall =>
      cases hs
      by_cases hq : q = p
      · obtain ⟨-, hchan⟩ := h
        exact ⟨⟨.prepared, by rw [hq, place, hcall]; rfl, rfl⟩, hchan⟩
      · exact h.of_call (by rw [place, place, call_setCall, Function.update_of_ne hq]) rfl
    · cases hs
  | close writable =>
    rw [step] at hs
    split_ifs at hs
    · cases hs
      exact (waits_of_wakeup h).2
    · cases hs
      exact (waits_of_wakeup h).2
  | kill p =>
    cases hs
    obtain ⟨⟨x, hx, hw⟩, hchan⟩ := h
    obtain ⟨⟨call, y⟩, hy, rfl⟩ := Option.map_eq_some_iff.mp hx
    obtain ⟨⟨call', z⟩, hz, heq⟩ := Option.map_eq_some_iff.mp hy
    cases heq
    refine ⟨⟨z, by rw [place, hz]; rfl, ?_⟩, hchan⟩
    by_contra hz'
    revert hw
    cases z <;> simp_all [PipePlace.waits]

/-! ## Writers -/

/-- A writer sleeps on a full pipe, unless a reader is just taking bytes out. -/
def WritersServed (s : Pipe P) : Prop := ¬ s.CopierIn → ∀ p, s.Waits p .nwrite → s.Full

/-- A reader sleeps on an empty pipe, unless a writer is just putting bytes in; and none sleeps
while another takes bytes out. -/
structure ReadersServed (s : Pipe P) : Prop where
  empty : ¬ s.WriterIn → ∀ p, s.Waits p .nread → s.Empty
  copier : s.CopierIn → ∀ p, ¬ s.Waits p .nread

/-- Who is inside stays there until its turn. -/
theorem call_of_step (hs : s.step e = some s') (hturn : ∀ p fault, e ≠ .turn p fault)
    {call : PipeCall} (hq : s.call q = some (call, .inside)) :
    s'.call q = some (call, .inside) := by
  cases e with
  | write p bytes | read p n =>
    rw [step] at hs
    split_ifs at hs with hnone
    cases hs
    exact (Function.update_of_ne (fun heq => by rw [heq, hnone] at hq; cases hq) _ _).trans hq
  | acquire p =>
    rw [step] at hs
    split at hs
    · next hcall =>
      split_ifs at hs
      cases hs
      exact (Function.update_of_ne (fun heq => by rw [heq, hcall] at hq; cases hq) _ _).trans hq
    · cases hs
  | turn p fault => exact absurd rfl (hturn p fault)
  | sleep p =>
    rw [step] at hs
    split at hs
    · next hcall =>
      cases hs
      exact (Function.update_of_ne (fun heq => by rw [heq, hcall] at hq; cases hq) _ _).trans hq
    · cases hs
  | close writable =>
    rw [step] at hs
    split_ifs at hs
    · cases hs
      exact call_wakeup.mpr hq
    · cases hs
      exact call_wakeup.mpr hq
  | kill p =>
    cases hs
    exact (Locked.call_kill q call).mpr hq

/-- Nobody comes in to a second loop. -/
theorem copierIn_of_step (hs : s.step e = some s') (hturn : ∀ p fault, e ≠ .turn p fault)
    (hfirst : FirstLoop s) (h : s'.CopierIn) : s.CopierIn := by
  obtain ⟨q, n, got, hq⟩ := h
  cases e with
  | write p bytes | read p n' =>
    rw [step] at hs
    split_ifs at hs with hnone
    cases hs
    by_cases heq : q = p
    · rw [heq, call_setCall, Function.update_self] at hq
      cases hq
    · rw [call_setCall, Function.update_of_ne heq] at hq
      exact ⟨q, n, got, hq⟩
  | acquire p =>
    rw [step] at hs
    split at hs
    · next call hcall =>
      split_ifs at hs
      cases hs
      change Function.update s.call p (some (call, .inside)) q = _ at hq
      by_cases heq : q = p
      · rw [heq, Function.update_self] at hq
        cases hq
        exact absurd (hfirst p n got _ hcall) (by simp)
      · rw [Function.update_of_ne heq] at hq
        exact ⟨q, n, got, hq⟩
    · cases hs
  | turn p fault => exact absurd rfl (hturn p fault)
  | sleep p =>
    rw [step] at hs
    split at hs
    · cases hs
      by_cases heq : q = p
      · rw [heq, call_setCall, Function.update_self] at hq
        split_ifs at hq <;> cases hq
      · rw [call_setCall, Function.update_of_ne heq] at hq
        exact ⟨q, n, got, hq⟩
    · cases hs
  | close writable =>
    rw [step] at hs
    split_ifs at hs
    · cases hs
      exact ⟨q, n, got, call_wakeup.mp hq⟩
    · cases hs
      exact ⟨q, n, got, call_wakeup.mp hq⟩
  | kill p =>
    cases hs
    exact ⟨q, n, got, (Locked.call_kill q _).mp hq⟩

/-- What writers, and readers, wait for does not come and go between turns. -/
theorem full_of_step (hs : s.step e = some s') (hturn : ∀ p fault, e ≠ .turn p fault)
    (hfull : s.Full) (hq : s'.Waits q .nwrite) : s'.Full := by
  cases e with
  | write p bytes | read p n =>
    rw [step] at hs
    split_ifs at hs
    cases hs
    exact hfull
  | acquire p =>
    rw [step] at hs
    split at hs
    · split_ifs at hs
      cases hs
      exact hfull
    · cases hs
  | turn p fault => exact absurd rfl (hturn p fault)
  | sleep p =>
    rw [step] at hs
    split at hs
    · cases hs
      exact hfull
    · cases hs
  | close writable =>
    rw [step] at hs
    split_ifs at hs
    · cases hs
      exact hfull
    · cases hs
      exact absurd rfl (waits_of_wakeup hq).1
  | kill p =>
    cases hs
    exact hfull

theorem empty_of_step (hs : s.step e = some s') (hturn : ∀ p fault, e ≠ .turn p fault)
    (hempty : s.Empty) (hq : s'.Waits q .nread) : s'.Empty := by
  cases e with
  | write p bytes | read p n =>
    rw [step] at hs
    split_ifs at hs
    cases hs
    exact hempty
  | acquire p =>
    rw [step] at hs
    split at hs
    · split_ifs at hs
      cases hs
      exact hempty
    · cases hs
  | turn p fault => exact absurd rfl (hturn p fault)
  | sleep p =>
    rw [step] at hs
    split at hs
    · cases hs
      exact hempty
    · cases hs
  | close writable =>
    rw [step] at hs
    split_ifs at hs
    · cases hs
      exact absurd rfl (waits_of_wakeup hq).1
    · cases hs
      exact hempty
  | kill p =>
    cases hs
    exact hempty

/-- **No writer is forgotten**, between turns… -/
theorem WritersServed.of_step (h : WritersServed s) (hs : s.step e = some s')
    (hturn : ∀ p fault, e ≠ .turn p fault) : WritersServed s' := by
  intro hcopier q hq
  have hnot : ¬ s.CopierIn := fun ⟨q, n, got, hq⟩ => hcopier ⟨q, n, got, call_of_step hs hturn hq⟩
  exact full_of_step hs hturn (h hnot q (waits_of_step hs hturn hq)) hq

/-- …and in one. -/
theorem WritersServed.turn (h : WritersServed s) (hlocked : Locked s) {fault : Bool}
    (hs : s.step (.turn p fault) = some s') : WritersServed s' := by
  rw [step] at hs
  split at hs
  · next bytes i hcall =>
    cases hs
    have hfull := h (hlocked.not_copier hcall)
    rw [writeTurn]
    split
    · exact fun _ q hq => hfull q (waits_of_wakeup (waits_of_leave hq)).2
    · split_ifs with hleave hif
      · exact fun _ q hq => hfull q (waits_of_leave hq)
      · intro _ q hq
        have hopen : s.readopen = true := by
          by_contra ho
          exact hleave (.inl (Bool.eq_false_iff.mpr ho))
        exact ⟨hif, hopen⟩
      · exact fun _ q hq => hfull q (waits_of_wakeup (waits_of_leave hq)).2
      · intro _ q hq
        have hset : (s.setCall p (some (.write bytes (i + 1), .inside))).Waits q .nwrite :=
          hq.of_call rfl rfl
        exact absurd (hfull q (waits_of_inside hset).2).1 hif
  · next n got copying hcall =>
    cases hs
    rw [readTurn]
    split_ifs with hcopy hmore hfault hempty hkilled
    · exact fun _ q hq => absurd rfl (waits_of_wakeup (waits_of_leave hq)).1
    · exact fun hcopier => absurd ⟨p, n, _, Function.update_self _ _ _⟩ hcopier
    · exact fun _ q hq => absurd rfl (waits_of_wakeup (waits_of_leave hq)).1
    all_goals
      rw [Bool.eq_false_iff.mpr hcopy] at hcall
      have hfull := h (hlocked.not_copier_of_first hcall)
    · exact fun _ q hq => hfull q (waits_of_leave hq)
    · exact fun _ q hq => hfull q ((waits_of_prepare hq).resolve_left (by simp))
    · exact fun hcopier => absurd ⟨p, n, _, Function.update_self _ _ _⟩ hcopier
  · cases hs

/-! ## Readers -/

/-- A writer leaves early, when it is killed or finds no reader, only if nobody waits for the bytes
that are there. -/
def Careful (s : Pipe P) (e : Event P) : Prop :=
  ∀ p fault bytes i, e = .turn p fault → s.call p = some (.write bytes i, .inside) →
    i < bytes.length → s.readopen = false ∨ s.killed p → ∀ q, s.Waits q .nread → s.Empty

/-- **No reader is forgotten**, between turns… -/
theorem ReadersServed.of_step (h : ReadersServed s) (hfirst : FirstLoop s) (hs : s.step e = some s')
    (hturn : ∀ p fault, e ≠ .turn p fault) : ReadersServed s' := by
  refine ⟨fun hwriter q hq => ?_, fun hcopier q hq => ?_⟩
  · have hnot : ¬ s.WriterIn := fun ⟨q, bytes, i, hq⟩ =>
      hwriter ⟨q, bytes, i, call_of_step hs hturn hq⟩
    exact empty_of_step hs hturn (h.empty hnot q (waits_of_step hs hturn hq)) hq
  · exact h.copier (copierIn_of_step hs hturn hfirst hcopier) q (waits_of_step hs hturn hq)

/-- A writer has let go of the lock. -/
theorem Locked.not_copier_of_leave (h : Locked s) {bytes : List (BitVec 8)} {i : ℕ}
    (hcall : s.call p = some (.write bytes i, .inside)) {ret : ℤ} : ¬ (s.leave p ret).CopierIn := by
  rintro ⟨q, n, got, hq⟩
  have hcall' : (s.leave p ret).call = Function.update s.call p none := rfl
  by_cases heq : q = p
  · rw [heq, hcall', Function.update_self] at hq
    cases hq
  · rw [hcall', Function.update_of_ne heq] at hq
    exact h.not_copier hcall ⟨q, n, got, hq⟩

/-- …and in one, by a writer… -/
theorem readersServed_writeTurn (hlocked : Locked s) {bytes : List (BitVec 8)} {i : ℕ}
    (hcall : s.call p = some (.write bytes i, .inside)) {fault : Bool}
    (hcareful : Careful s (.turn p fault)) : ReadersServed (s.writeTurn p fault bytes i) := by
  have hnobody {s' : Pipe P} (hwoken : ∀ q, s'.Waits q .nread → (s.wakeup .nread).Waits q .nread) :
      ReadersServed s' :=
    ⟨fun _ q hq => absurd rfl (waits_of_wakeup (hwoken q hq)).1,
      fun _ q hq => absurd rfl (waits_of_wakeup (hwoken q hq)).1⟩
  rw [Pipe.writeTurn]
  split
  · exact hnobody fun q hq => waits_of_leave hq
  · next ch hch =>
    split_ifs with hleave hfull
    · have hempty := hcareful p fault bytes i rfl hcall (List.getElem?_eq_some_iff.mp hch).1 hleave
      exact ⟨fun _ q hq => hempty q (waits_of_leave hq),
        fun hcopier => absurd hcopier (hlocked.not_copier_of_leave hcall)⟩
    · exact hnobody fun q hq => (waits_of_prepare hq).resolve_left (by simp)
    · exact hnobody fun q hq => waits_of_leave hq
    · refine ⟨fun hwriter => absurd ⟨p, bytes, i + 1, Function.update_self _ _ _⟩ hwriter,
        fun hcopier => ?_⟩
      obtain ⟨q, n, got, hq⟩ := hcopier
      change Function.update s.call p (some (.write bytes (i + 1), .inside)) q = _ at hq
      by_cases heq : q = p
      · rw [heq, Function.update_self] at hq
        cases hq
      · rw [Function.update_of_ne heq] at hq
        exact absurd ⟨q, n, got, hq⟩ (hlocked.not_copier hcall)

/-- …or by a reader. -/
theorem ReadersServed.readTurn (h : ReadersServed s) (hlocked : Locked s) {n : ℕ}
    {got : List (BitVec 8)} {copying : Bool}
    (hcall : s.call p = some (.read n got copying, .inside)) (fault : Bool) :
    ReadersServed (s.readTurn p fault n got copying) := by
  have hempty := h.empty (hlocked.not_writer hcall)
  rw [Pipe.readTurn]
  split_ifs with hcopy hmore hfault hif hkilled
  · have hnone := h.copier ⟨p, n, got, by rw [hcall, hcopy]⟩
    exact ⟨fun _ q hq => absurd (waits_of_wakeup (waits_of_leave hq)).2 (hnone q),
      fun _ q hq => hnone q (waits_of_wakeup (waits_of_leave hq)).2⟩
  · have hnone := h.copier ⟨p, n, got, by rw [hcall, hcopy]⟩
    have hwaits {q : P} (hq : ({ s.setCall p (some (.read n (got ++ [s.data
        (Ring.idx pipesize s.nread)]) true, .inside)) with nread := s.nread + 1, got := s.got ++
        [s.data (Ring.idx pipesize s.nread)] } : Pipe P).Waits q .nread) : s.Waits q .nread := by
      have hset : (s.setCall p (some (.read n (got ++ [s.data (Ring.idx pipesize s.nread)]) true,
          .inside))).Waits q .nread := hq.of_call rfl rfl
      exact (waits_of_inside hset).2
    exact ⟨fun _ q hq => absurd (hwaits hq) (hnone q), fun _ q hq => hnone q (hwaits hq)⟩
  · have hnone := h.copier ⟨p, n, got, by rw [hcall, hcopy]⟩
    exact ⟨fun _ q hq => absurd (waits_of_wakeup (waits_of_leave hq)).2 (hnone q),
      fun _ q hq => hnone q (waits_of_wakeup (waits_of_leave hq)).2⟩
  all_goals
    rw [Bool.eq_false_iff.mpr hcopy] at hcall
    have hnot := hlocked.not_copier_of_first hcall
  · refine ⟨fun _ q hq => hempty q (waits_of_leave hq), fun hcopier => absurd ?_ hnot⟩
    obtain ⟨q, n', got', hq⟩ := hcopier
    change Function.update s.call p none q = _ at hq
    by_cases heq : q = p
    · rw [heq, Function.update_self] at hq
      cases hq
    · rw [Function.update_of_ne heq] at hq
      exact ⟨q, n', got', hq⟩
  · refine ⟨fun _ q hq => hif, fun hcopier => absurd ?_ hnot⟩
    obtain ⟨q, n', got', hq⟩ := hcopier
    change Function.update s.call p (some (.read n got false, .prepared)) q = _ at hq
    by_cases heq : q = p
    · rw [heq, Function.update_self] at hq
      cases hq
    · rw [Function.update_of_ne heq] at hq
      exact ⟨q, n', got', hq⟩
  · have hnone : ∀ q, ¬ s.Waits q .nread := fun q hq => hif (hempty q hq)
    exact ⟨fun _ q hq => absurd (waits_of_inside hq).2 (hnone q),
      fun _ q hq => hnone q (waits_of_inside hq).2⟩

/-! ## Whole runs -/

/-- What holds of a pipe at every moment, but for the readers. -/
def Kept (s : Pipe P) : Prop := Locked s ∧ FirstLoop s ∧ WritersServed s

theorem Kept.step (h : Kept s) (hs : s.step e = some s') : Kept s' := by
  obtain ⟨hlocked, hfirst, hwriters⟩ := h
  refine ⟨hlocked.step hfirst hs, hfirst.step hs, ?_⟩
  by_cases hturn : ∃ p fault, e = .turn p fault
  · obtain ⟨p, fault, rfl⟩ := hturn
    exact hwriters.turn hlocked hs
  · exact hwriters.of_step hs fun p fault heq => hturn ⟨p, fault, heq⟩

theorem ReadersServed.step (h : ReadersServed s) (hkept : Kept s) (he : Careful s e)
    (hs : s.step e = some s') : ReadersServed s' := by
  by_cases hturn : ∃ p fault, e = .turn p fault
  · obtain ⟨p, fault, rfl⟩ := hturn
    rw [Pipe.step] at hs
    split at hs
    · next hcall =>
      cases hs
      exact readersServed_writeTurn hkept.1 hcall he
    · next hcall =>
      cases hs
      exact h.readTurn hkept.1 hcall fault
    · cases hs
  · exact h.of_step hkept.2.1 hs fun p fault heq => hturn ⟨p, fault, heq⟩

/-- With the lock free, nobody sleeps on bytes that are there, or at the end of the pipe. -/
def NoReaderForgotten (s : Pipe P) : Prop := s.lock = none → ∀ p, s.Waits p .nread → s.Empty

/-- With the lock free, nobody sleeps on room that is there, or on a pipe that no one reads. -/
def NoWriterForgotten (s : Pipe P) : Prop := s.lock = none → ∀ p, s.Waits p .nwrite → s.Full

/-- A step that leaves a reader on bytes that are there is a writer leaving early. -/
theorem careful_of_step (hs : s.step e = some s') (h : NoReaderForgotten s') : Careful s e := by
  rintro p fault bytes i rfl hcall hi hleave q hq
  rw [Pipe.step, hcall] at hs
  cases hs
  have hget : bytes[i]? = some bytes[i] := List.getElem?_eq_getElem hi
  rw [writeTurn, hget] at h
  dsimp only at h
  rw [if_pos hleave] at h
  have hne : q ≠ p := by
    rintro rfl
    obtain ⟨⟨x, hx, hw⟩, -⟩ := hq
    rw [place, hcall] at hx
    cases hx
    cases hw
  refine h rfl q ⟨?_, hq.2⟩
  obtain ⟨x, hx, hw⟩ := hq.1
  exact ⟨x, (congrArg (Option.map Prod.snd) (Function.update_of_ne hne _ _)).trans hx, hw⟩

end Step

variable {data : Fin pipesize → BitVec 8} {es : List (Event P)}

theorem kept_fresh : Kept (fresh data : Pipe P) :=
  ⟨⟨fun _ => iff_of_false (by simp [Inside, place, fresh]) (by simp [fresh]),
    fun _ _ hq => by simp [fresh] at hq⟩, fun _ _ _ _ hq => by simp [fresh] at hq,
    fun _ _ hq => by simp [Waits, fresh] at hq⟩

theorem readersServed_fresh : ReadersServed (fresh data : Pipe P) :=
  ⟨fun _ _ hq => by simp [Waits, fresh] at hq, fun _ _ hq => by simp [Waits, fresh] at hq⟩

variable [DecidableEq P]

/-- **No writer sleeps at a pipe that has room**, or that nobody reads any more, once whoever made
the room has let go of the lock. -/
theorem no_writer_forgotten (h : run step (fresh data) es = some s) : NoWriterForgotten s := by
  have hkept := invariant' (fun _ _ _ (hI : Kept _) hs => hI.step hs) kept_fresh h
  intro hlock q hq
  refine hkept.2.2 (fun ⟨p, n, got, hp⟩ => ?_) q hq
  exact hkept.1.not_inside hlock p (inside_of_call hp)

/-- **No reader sleeps at a pipe with something in it**, in a run exactly as long as no writer
leaves it early, killed or for want of a reader, while a reader waits that nobody woke. -/
theorem no_reader_forgotten_iff (h : run step (fresh data) es = some s) :
    Always step NoReaderForgotten (fresh data) es ↔ Along step Careful (fresh data) es := by
  refine always_iff (J := fun s => Kept s ∧ ReadersServed s) (fun s hJ hlock q hq => ?_)
    (fun s e s' hJ he hs => ⟨hJ.1.step hs, hJ.2.step hJ.1 he hs⟩)
    (fun s e s' _ hs h' => careful_of_step hs h') ⟨kept_fresh, readersServed_fresh⟩ h
  exact hJ.2.empty (fun ⟨p, bytes, i, hp⟩ => hJ.1.1.not_inside hlock p (inside_of_call hp)) q hq

/-- A writer fills the buffer and goes to sleep over its last byte. -/
def sampleFilled : List (Event Bool) :=
  .write true (List.replicate 513 7) :: .acquire true ::
    (List.replicate 513 (.turn true false) ++ [.sleep true])

theorem no_writer_forgotten_sample :
    ∃ s, run step (fresh fun _ => 0) sampleFilled = some s ∧ s.lock = none ∧
      s.Waits true .nwrite ∧ s.Full := by
  have hrun : (run step (fresh fun _ => 0) sampleFilled).map
      (fun s => (s.lock, s.place true, s.chan true)) = some (none, some .asleep, some .nwrite) := by
    decide +kernel
  obtain ⟨s, hs, hmk⟩ := Option.map_eq_some_iff.mp hrun
  simp only [Prod.mk.injEq] at hmk
  obtain ⟨hlock, hplace, hchan⟩ := hmk
  have hwaits : s.Waits true .nwrite := ⟨⟨.asleep, hplace, rfl⟩, hchan⟩
  exact ⟨s, hs, hlock, hwaits, no_writer_forgotten hs hlock true hwaits⟩

/-- A reader sleeps when a writer is killed between its first byte and its second. -/
def sampleKilled : List (Event ℕ) :=
  [.read 1 5, .acquire 1, .turn 1 false, .sleep 1, .write 0 [104, 105], .acquire 0, .turn 0 false,
    .kill 0, .turn 0 false]

theorem no_reader_forgotten_iff_sample :
    ∃ s, run step (fresh fun _ => 0) sampleKilled = some s ∧
      (Always step NoReaderForgotten (fresh fun _ => 0) sampleKilled ↔
        Along step Careful (fresh fun _ => 0) sampleKilled) := by
  obtain ⟨s, hs⟩ : ∃ s, run step (fresh fun _ => 0) sampleKilled = some s :=
    Option.isSome_iff_exists.mp (by decide +kernel)
  exact ⟨s, hs, no_reader_forgotten_iff hs⟩

end MiniProject.Kernel.Pipe
