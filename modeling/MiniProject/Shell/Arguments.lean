import MiniProject.Machinery.Strtol
import MiniProject.Shell.Console

/-!
# Shell/Arguments — what `resume` and `ping` make of their arguments

`resuming` and `pinging` up to the point where they act: a slot and what to do about it, or the line
they print.  The checks of `resuming` look at `argv[2]` and `argv[3]` only where `acount` lets them,
so `--timeout` with nothing behind it, and whatever follows a timeout, pass (`resuming_iff`).  Both
take their numbers through `strtol` and a cast to `int`, so a number that does not fit is taken for
one that does (`readsNumber_iff`).
-/

namespace MiniProject.Shell

/-- The words that `resuming` knows. -/
def fgWord : Text := "fg".toList

@[inherit_doc fgWord]
def bgWord : Text := "bg".toList

@[inherit_doc fgWord]
def timeoutFlag : Text := "--timeout".toList

/-- The lines of `resuming` and `pinging` that turn the arguments down. -/
def resumeSyntax : Text := "resume: invalid syntax\n".toList

@[inherit_doc resumeSyntax]
def noSuchJob : Text := "resume: no such job\n".toList

@[inherit_doc resumeSyntax]
def pingSyntax : Text := "ping: invalid syntax\n".toList

@[inherit_doc resumeSyntax]
def noSuchProcess : Text := "ping: no such process found\n".toList

/-- `(int)strtol(s, &e2, 10)`, and `None` where `resuming` does not take it for a timeout. -/
def timeoutOf (s : Text) : Option ℕ :=
  let (z, e) := strtol s
  if e ≠ [] ∨ castInt z ≤ 0 then none else some (castInt z).toNat

/-- `real_sig` of `pinging`. -/
def realSig (s : Text) : Option ℕ :=
  let (z, e) := strtol s
  if e ≠ [] ∨ z < 0 then none else some (z % 64).toNat

/-- The checks of `resuming` from `is_fg` on: `second` is `args[1]` and `rest` what follows. -/
def resumeHow (second : Text) (rest : List Text) : Except Text Resume :=
  let isFg := second = fgWord
  let isBg := second = bgWord
  if ¬isFg ∧ ¬isBg then .error resumeSyntax
  else if isFg ∧ 2 ≤ rest.length ∧ rest[0]? = some timeoutFlag then
    match timeoutOf (rest.getD 1 []) with
    | none => .error resumeSyntax
    | some timeout => .ok (.fg timeout)
  else if isBg ∧ 0 < rest.length then .error resumeSyntax
  else if isFg ∧ 0 < rest.length ∧ rest[0]? ≠ some timeoutFlag then .error resumeSyntax
  else if isBg then .ok .bg
  else .ok (.fg 0)

namespace JobTable

variable (t : JobTable)

/-- `find_job_by_number`, asked with an `int`. -/
def findInt (num : ℤ) : Option ℕ := t.jobs.findIdx? fun j => j.active && (j.number : ℤ) == num

/-- `find_job_containing_pid`, asked with a `pid_t`. -/
def findPidT (pid : ℤ) : Option ℕ :=
  t.jobs.findIdx? fun j => j.active && j.pids.any fun q => (q : ℤ) == pid

/-- The job that the first argument of `resuming` names. -/
def named : Text → Except Text ℕ
  | '%' :: num =>
    let (z, e) := strtol num
    if e ≠ [] then .error resumeSyntax
    else
      match t.findInt (castInt z) with
      | none => .error noSuchJob
      | some k => .ok k
  | _ => .error resumeSyntax

/-- `resuming` before its `SIGCONT`. -/
def resuming : List Text → Except Text (ℕ × Resume)
  | first :: second :: rest => do
    let k ← t.named first
    let how ← resumeHow second rest
    .ok (k, how)
  | _ => .error resumeSyntax

/-- What `pinging` sends its signal to. -/
inductive Aim
  | group (k : ℕ)
  | process (pid : ℤ)
  deriving DecidableEq, Repr

/-- `pinging` before its `kill`: where the signal goes, and which. -/
def pinging : List Text → Except Text (Aim × ℕ)
  | [target, s] =>
    match realSig s with
    | none => .error pingSyntax
    | some sig =>
      match target with
      | '%' :: num =>
        let (z, e) := strtol num
        if e ≠ [] then .error noSuchProcess
        else
          match t.findInt (castInt z) with
          | none => .error noSuchProcess
          | some k => .ok (.group k, sig)
      | _ =>
        let (z, e) := strtol target
        if e ≠ [] ∨ t.findPidT (castInt z) = none then .error noSuchProcess
        else .ok (.process (castInt z), sig)
  | _ => .error pingSyntax

end JobTable

namespace Console

variable (s : Console)

/-- `resuming` at the prompt: the job goes on, or a line is printed and nothing else changes. -/
def resuming (args : List Text) : Option Console :=
  if s.place = .prompt then
    match s.table.resuming args with
    | .error line => some { s with table := s.table.print line }
    | .ok (k, how) => some { s with place := .cont k how }
  else none

end Console

/-! ## What `resume` takes

`resumeHow` by the number of arguments, next to what they were meant to be. -/

section Resume

variable {second flag S : Text} {rest more : List Text}

/-- What the arguments behind `%N` ask for: `bg`, `fg`, or `fg --timeout S`. -/
def meant : List Text → Option Resume
  | [how] =>
    if how = bgWord then some .bg else if how = fgWord then some (.fg 0) else none
  | [how, flag, S] =>
    if how = fgWord ∧ flag = timeoutFlag ∧ Decimal S ∧ 0 < decimal S ∧ decimal S < 2 ^ 31 then
      some (.fg (decimal S))
    else none
  | _ => none

/-- The arguments that pass the checks without being meant: `--timeout` with no number, a number
with more behind it, and a number that is no number of seconds or does not fit. -/
def Slips (args : List Text) : Prop :=
  args = [fgWord, timeoutFlag] ∨
    ∃ S more, args = fgWord :: timeoutFlag :: S :: more ∧ (timeoutOf S).isSome ∧
      (more ≠ [] ∨ ¬ (Decimal S ∧ decimal S < 2 ^ 31))

theorem fgWord_ne_bgWord : fgWord ≠ bgWord := by decide

theorem resumeHow_nil (second : Text) :
    resumeHow second [] =
      if second = bgWord then .ok .bg
      else if second = fgWord then .ok (.fg 0) else .error resumeSyntax := by
  by_cases hbg : second = bgWord
  · subst hbg
    rfl
  · by_cases hfg : second = fgWord
    · subst hfg
      rfl
    · simp [resumeHow, hbg, hfg]

theorem resumeHow_singleton (second flag : Text) :
    resumeHow second [flag] =
      if second = fgWord ∧ flag = timeoutFlag then .ok (.fg 0) else .error resumeSyntax := by
  by_cases hfg : second = fgWord
  · subst hfg
    by_cases hflag : flag = timeoutFlag <;> simp [resumeHow, hflag, fgWord_ne_bgWord]
  · by_cases hbg : second = bgWord <;> simp [resumeHow, hfg, hbg, fgWord_ne_bgWord.symm]

theorem resumeHow_cons_cons (second flag S : Text) (more : List Text) :
    resumeHow second (flag :: S :: more) =
      if second = fgWord ∧ flag = timeoutFlag then
        match timeoutOf S with
        | none => .error resumeSyntax
        | some timeout => .ok (.fg timeout)
      else .error resumeSyntax := by
  by_cases hfg : second = fgWord
  · subst hfg
    by_cases hflag : flag = timeoutFlag <;> simp [resumeHow, hflag, fgWord_ne_bgWord]
  · by_cases hbg : second = bgWord <;> simp [resumeHow, hfg, hbg, fgWord_ne_bgWord.symm]

/-- A number of seconds that fits is the timeout; zero is none. -/
theorem timeoutOf_of_fits (hS : Decimal S) (hlt : decimal S < 2 ^ 31) :
    timeoutOf S = if 0 < decimal S then some (decimal S) else none := by
  have hcast := castInt_strtol_of_lt hS hlt
  simp only [timeoutOf, hcast]
  rw [strtol_of_decimal hS]
  by_cases hpos : 0 < decimal S
  · rw [if_pos hpos, if_neg (by simp; omega)]
    rfl
  · rw [if_neg hpos, if_pos (by right; omega)]

/-- **What does not slip through is taken as meant, or turned down.** -/
theorem resumeHow_of_not_slips (h : ¬ Slips (second :: rest)) :
    resumeHow second rest =
      (meant (second :: rest)).elim (.error resumeSyntax) .ok := by
  match rest with
  | [] =>
    rw [resumeHow_nil, meant]
    split_ifs <;> rfl
  | [flag] =>
    have hflag : ¬ (second = fgWord ∧ flag = timeoutFlag) := by
      rintro ⟨rfl, rfl⟩
      exact h (.inl rfl)
    rw [resumeHow_singleton, if_neg hflag]
    rfl
  | flag :: S :: more =>
    rw [resumeHow_cons_cons]
    by_cases hflag : second = fgWord ∧ flag = timeoutFlag
    · obtain ⟨rfl, rfl⟩ := hflag
      rw [if_pos ⟨rfl, rfl⟩]
      cases hS : timeoutOf S with
      | none =>
        have hmeant : meant (fgWord :: timeoutFlag :: S :: more) = none := by
          rcases more with _ | ⟨x, more⟩
          · refine if_neg fun ⟨_, _, hdec, hpos, hlt⟩ => ?_
            rw [timeoutOf_of_fits hdec hlt, if_pos hpos] at hS
            cases hS
          · rfl
        rw [hmeant]
        rfl
      | some timeout =>
        have hfits : more = [] ∧ Decimal S ∧ decimal S < 2 ^ 31 := by
          by_contra hcon
          refine h (.inr ⟨S, more, rfl, by rw [hS]; rfl, ?_⟩)
          by_cases hmore : more = []
          · exact .inr fun hdec => hcon ⟨hmore, hdec⟩
          · exact .inl hmore
        obtain ⟨rfl, hdec, hlt⟩ := hfits
        rw [timeoutOf_of_fits hdec hlt] at hS
        obtain ⟨hpos, heq⟩ := Option.ite_none_right_eq_some.mp hS
        rw [meant, if_pos ⟨rfl, rfl, hdec, hpos, hlt⟩, ← Option.some.inj heq]
        rfl
    · rw [if_neg hflag]
      rcases more with _ | ⟨x, more⟩
      · rw [meant, if_neg fun h => hflag ⟨h.1, h.2.1⟩]
        rfl
      · rfl

/-- **What slips through is taken, and was not meant.** -/
theorem exists_of_slips (h : Slips (second :: rest)) :
    (∃ how, resumeHow second rest = .ok how) ∧ meant (second :: rest) = none := by
  rcases h with h | ⟨S, more, h, hS, hslip⟩
  · cases h
    exact ⟨⟨_, rfl⟩, rfl⟩
  · cases h
    obtain ⟨timeout, hS⟩ := Option.isSome_iff_exists.mp hS
    refine ⟨⟨.fg timeout, by rw [resumeHow_cons_cons, if_pos ⟨rfl, rfl⟩, hS]⟩, ?_⟩
    rcases more with _ | ⟨x, more⟩
    · have hslip := hslip.resolve_left fun hne => hne rfl
      exact if_neg fun ⟨_, _, hdec, _, hlt⟩ => hslip ⟨hdec, hlt⟩
    · rfl

/-- `resume` takes its arguments as they were meant: the job of slot `k` goes on as they say, or the
syntax error is printed and nothing else changes. -/
def TakenAsMeant (s : Console) (first : Text) (k : ℕ) (args : List Text) : Prop :=
  s.resuming (first :: args) =
    some (match meant args with
      | some how => { s with place := .cont k how }
      | none => { s with table := s.table.print resumeSyntax })

/-- **`resume` takes its arguments as meant unless they slip through.**  The first argument names
the job of slot `k`; the others are any. -/
theorem resuming_iff {s : Console} (hplace : s.place = .prompt) {first : Text} {k : ℕ}
    (hk : s.table.named first = .ok k) (args : List Text) :
    TakenAsMeant s first k args ↔ ¬ Slips args := by
  rcases args with _ | ⟨second, rest⟩
  · have hslips : ¬ Slips [] := by
      rintro (h | ⟨S, more, h, -⟩) <;> cases h
    exact iff_of_true (if_pos hplace) hslips
  have hstep : s.table.resuming (first :: second :: rest) =
      (resumeHow second rest).map fun how => (k, how) := by
    rw [JobTable.resuming, hk]
    rfl
  rw [TakenAsMeant, Console.resuming, if_pos hplace, hstep]
  refine ⟨fun h hslips => ?_, fun h => ?_⟩
  · obtain ⟨⟨how, hok⟩, hmeant⟩ := exists_of_slips hslips
    rw [hok, hmeant] at h
    have hcont := congrArg Console.place (Option.some.inj h)
    rw [show s.place = .prompt from hplace] at hcont
    cases hcont
  · rw [resumeHow_of_not_slips h]
    cases meant (second :: rest) <;> rfl

/-- The shell at the prompt, with one stopped job. -/
private def oneStopped : Console :=
  { Console.initial with
    table := ⟨[⟨1, 40, [⟨40, "sleep".toList⟩], "sleep 9".toList, .stopped, false, true,
      by decide⟩], 2, false, [], [], by decide, by decide⟩ }

theorem resuming_iff_five :
    TakenAsMeant oneStopped "%1".toList 0 [fgWord, timeoutFlag, "5".toList] ↔
      ¬ Slips [fgWord, timeoutFlag, "5".toList] :=
  resuming_iff rfl rfl _

/-- **`resume %1 fg --timeout` goes on without a timeout.** -/
theorem not_takenAsMeant :
    ¬ ∀ (s : Console) (first : Text) (k : ℕ) (args : List Text), s.place = .prompt →
      s.table.named first = .ok k → TakenAsMeant s first k args := by
  intro h
  have hmeant := h oneStopped "%1".toList 0 [fgWord, timeoutFlag] rfl rfl
  have hplace := congrArg (Option.map Console.place) hmeant
  have hcont : (oneStopped.resuming ["%1".toList, fgWord, timeoutFlag]).map Console.place =
      some (.cont 0 (.fg 0)) := rfl
  rw [hcont] at hplace
  cases hplace

end Resume

/-! ## What a number names

`find_job_by_number` finds a job of the number it is asked for, which after the cast need not be the
number that was typed. -/

section Numbers

namespace JobTable

variable (t : JobTable)

/-- Slot `k` is an active job with this `job_number`. -/
def Numbered (k : ℕ) (num : ℤ) : Prop :=
  ∃ j, t.jobs[k]? = some j ∧ j.active = true ∧ (j.number : ℤ) = num

/-- An active job has this pid in its list. -/
def Lists (pid : ℤ) : Prop := ∃ k q, t.Answers k q ∧ (q : ℤ) = pid

variable {t : JobTable} {k : ℕ} {num pid : ℤ}

theorem numbered_of_findInt (h : t.findInt num = some k) : t.Numbered k num := by
  obtain ⟨hlt, hj, -⟩ := List.findIdx?_eq_some_iff_getElem.mp h
  obtain ⟨hactive, hnum⟩ := (Bool.and_eq_true _ _).mp hj
  exact ⟨t.jobs[k], List.getElem?_eq_getElem hlt, hactive, beq_iff_eq.mp hnum⟩

theorem exists_findInt (h : t.Numbered k num) : ∃ i, t.findInt num = some i := by
  obtain ⟨j, hj, hactive, hnum⟩ := h
  refine Option.isSome_iff_exists.mp ?_
  rw [findInt, List.findIdx?_isSome, List.any_eq_true]
  exact ⟨j, List.mem_of_getElem? hj, by rw [hactive, hnum]; simp⟩

/-- **Looking for `num` finds the jobs numbered `v`** iff there is one of them at most, and `num` is
`v` or neither is the number of a job. -/
theorem findInt_eq_some_iff_numbered {v : ℤ} :
    (∀ k, t.findInt num = some k ↔ t.Numbered k v) ↔
      (∀ i k, t.Numbered i v → t.Numbered k v → i = k) ∧
        (num = v ∨ ∀ k, ¬ t.Numbered k v ∧ ¬ t.Numbered k num) := by
  refine ⟨fun h => ⟨fun i k hi hk => ?_, ?_⟩, fun ⟨hone, h⟩ k => ?_⟩
  · exact Option.some.inj (((h i).mpr hi).symm.trans ((h k).mpr hk))
  · have hsame : ∀ k, t.Numbered k v → t.Numbered k num → num = v := by
      rintro k ⟨j, hj, -, hv⟩ ⟨j', hj', -, hnum⟩
      cases hj.symm.trans hj'
      exact hnum.symm.trans hv
    by_contra hcon
    rw [not_or, not_forall] at hcon
    obtain ⟨hne, k, hk⟩ := hcon
    by_cases hv : t.Numbered k v
    · exact hne (hsame k hv (numbered_of_findInt ((h k).mpr hv)))
    · obtain ⟨i, hi⟩ := exists_findInt (not_not.mp fun hnum => hk ⟨hv, hnum⟩)
      exact hne (hsame i ((h i).mp hi) (numbered_of_findInt hi))
  · rcases h with rfl | h
    · refine ⟨numbered_of_findInt, fun hk => ?_⟩
      obtain ⟨i, hi⟩ := exists_findInt hk
      rw [hi, hone i k (numbered_of_findInt hi) hk]
    · exact iff_of_false (fun hk => (h k).2 (numbered_of_findInt hk)) (h k).1

theorem findPidT_ne_none_iff : t.findPidT pid ≠ none ↔ t.Lists pid := by
  rw [findPidT, ← Option.isSome_iff_ne_none, List.findIdx?_isSome, List.any_eq_true]
  constructor
  · rintro ⟨j, hj, h⟩
    obtain ⟨hactive, hq⟩ := (Bool.and_eq_true _ _).mp h
    obtain ⟨q, hq, heq⟩ := List.any_eq_true.mp hq
    obtain ⟨k, hk⟩ := List.mem_iff_getElem?.mp hj
    refine ⟨k, q, ⟨?_, ?_⟩, beq_iff_eq.mp heq⟩
    · rw [activeAt, hk]
      exact hactive
    · rw [pidsAt, hk]
      exact hq
  · rintro ⟨k, q, ⟨hactive, hq⟩, heq⟩
    have hj := List.getElem?_eq_getElem (lt_of_activeAt hactive)
    rw [activeAt, hj] at hactive
    rw [pidsAt, hj] at hq
    exact ⟨_, List.mem_of_getElem? hj,
      (Bool.and_eq_true _ _).mpr ⟨hactive, List.any_eq_true.mpr ⟨q, hq, beq_iff_eq.mpr heq⟩⟩⟩

/-- `resume` and `ping` on `%D` act on the job numbered `D`, and `ping D` signals process `D` of an
active job or nothing. -/
structure ReadsNumber (t : JobTable) (D : Text) : Prop where
  resume : ∀ {second rest how} k, resumeHow second rest = .ok how →
    (t.resuming (('%' :: D) :: second :: rest) = .ok (k, how) ↔ t.Numbered k (decimal D))
  group : ∀ {S sig} k, realSig S = some sig →
    (t.pinging ['%' :: D, S] = .ok (.group k, sig) ↔ t.Numbered k (decimal D))
  process : ∀ {S sig pid}, realSig S = some sig →
    t.pinging [D, S] = .ok (.process pid, sig) → pid = decimal D ∧ t.Lists (decimal D)

variable {D S second : Text} {rest : List Text} {how : Resume} {sig : ℕ}

theorem resuming_numbered (hD : Decimal D) (hhow : resumeHow second rest = .ok how) :
    t.resuming (('%' :: D) :: second :: rest) = .ok (k, how) ↔
      t.findInt (castInt (strtol D).1) = some k := by
  have hend : ¬ (strtol D).2 ≠ [] := by
    rw [strtol_of_decimal hD]
    simp
  rw [resuming, named]
  simp only [if_neg hend]
  cases hfind : t.findInt (castInt (strtol D).1) with
  | none => exact iff_of_false nofun nofun
  | some i =>
    simp only [hhow, bind, Except.bind]
    constructor
    · rintro ⟨⟩
      rfl
    · rintro ⟨⟩
      rfl

theorem pinging_numbered (hD : Decimal D) (hsig : realSig S = some sig) :
    t.pinging ['%' :: D, S] = .ok (.group k, sig) ↔
      t.findInt (castInt (strtol D).1) = some k := by
  have hend : ¬ (strtol D).2 ≠ [] := by
    rw [strtol_of_decimal hD]
    simp
  simp only [pinging, hsig, if_neg hend]
  cases hfind : t.findInt (castInt (strtol D).1) with
  | none => exact iff_of_false nofun nofun
  | some i =>
    constructor
    · rintro ⟨⟩
      rfl
    · rintro ⟨⟩
      rfl

theorem pinging_process (hD : Decimal D) (hsig : realSig S = some sig) :
    t.pinging [D, S] = .ok (.process pid, sig) ↔
      pid = castInt (strtol D).1 ∧ t.Lists (castInt (strtol D).1) := by
  have hend : (strtol D).2 = [] := by rw [strtol_of_decimal hD]
  have hhead : ∀ num, D ≠ '%' :: num := by
    rintro num rfl
    exact absurd (hD.2 '%' List.mem_cons_self) (by decide)
  rw [← findPidT_ne_none_iff]
  simp only [pinging, hsig, hend, ne_eq, not_true_eq_false, false_or]
  by_cases hfind : t.findPidT (castInt (strtol D).1) = none
  · rw [if_pos hfind]
    exact iff_of_false nofun fun h => h.2 hfind
  · rw [if_neg hfind]
    constructor
    · rintro ⟨⟩
      exact ⟨rfl, hfind⟩
    · rintro ⟨rfl, -⟩
      rfl

/-- **A number typed is the number looked for** iff there is no more than one job of that number,
and it fits an `int`, or neither it nor what the cast makes of it is the number of an active job, or
the pid of a process of one. -/
theorem readsNumber_iff (t : JobTable) {D : Text} (hD : Decimal D) :
    t.ReadsNumber D ↔
      (∀ i k, t.Numbered i (decimal D) → t.Numbered k (decimal D) → i = k) ∧
        (decimal D < 2 ^ 31 ∨
          (∀ k, ¬ t.Numbered k (decimal D) ∧ ¬ t.Numbered k (castInt (strtol D).1)) ∧
            ¬ t.Lists (castInt (strtol D).1)) := by
  have hsame := castInt_strtol_eq_iff hD
  constructor
  · intro h
    have hfind : ∀ k, t.findInt (castInt (strtol D).1) = some k ↔ t.Numbered k (decimal D) :=
      fun k => (resuming_numbered hD rfl).symm.trans
        (@h.resume bgWord [] _ k rfl)
    obtain ⟨hone, hnum⟩ := findInt_eq_some_iff_numbered.mp hfind
    refine ⟨hone, or_iff_not_imp_left.mpr fun hbig => ?_⟩
    refine ⟨hnum.resolve_left (mt hsame.mp hbig), fun hlists => hbig (hsame.mp ?_)⟩
    have hsig : realSig "9".toList = some 9 := by decide
    exact (h.process hsig ((pinging_process hD hsig).mpr ⟨rfl, hlists⟩)).1
  · rintro ⟨hone, h⟩
    have hnum := h.imp hsame.mpr And.left
    have hfind := findInt_eq_some_iff_numbered.mpr ⟨hone, hnum⟩
    refine ⟨fun k hhow => (resuming_numbered hD hhow).trans (hfind k),
      fun k hsig => (pinging_numbered hD hsig).trans (hfind k), fun hsig hping => ?_⟩
    obtain ⟨rfl, hlists⟩ := (pinging_process hD hsig).mp hping
    rcases h with hlt | ⟨-, hnot⟩
    · rw [hsame.mpr hlt] at hlists ⊢
      exact ⟨rfl, hlists⟩
    · exact absurd hlists hnot

/-- `1`, where job 1 is stopped. -/
theorem readsNumber_iff_one : oneStopped.table.ReadsNumber "1".toList ∧
    oneStopped.table.Numbered 0 (decimal "1".toList) := by
  have hone : ∀ {i}, oneStopped.table.Numbered i (decimal "1".toList) → i = 0 := by
    rintro (_ | i) ⟨j, hj, -⟩
    · rfl
    · cases hj
  exact ⟨(readsNumber_iff oneStopped.table (by decide)).mpr
    ⟨fun i k hi hk => (hone hi).trans (hone hk).symm, .inl (by decide)⟩, _, rfl, rfl, by decide⟩

/-- **`resume %4294967297` goes on with job 1.** -/
theorem not_readsNumber : ¬ ∀ (t : JobTable) (D : Text), Decimal D → t.ReadsNumber D := by
  intro h
  have hread := h oneStopped.table "4294967297".toList (by decide)
  have hact : oneStopped.table.resuming ["%4294967297".toList, bgWord] = .ok (0, .bg) := rfl
  obtain ⟨j, hj, -, hnum⟩ := (@hread.resume bgWord [] _ 0 rfl).mp hact
  cases hj
  exact absurd hnum (by decide)

end JobTable

end Numbers

end MiniProject.Shell
