import Mathlib.Data.List.Induction
import MiniProject.Shell.Hop

/-!
# Shell/Visits — the file `.frecency` over a session of hops

A hop enters the directory first and asks for its real path then, by the same name.  From inside
the directory a relative name leads to another one, or to none; and a path with a space in it is not
read back as it was written.  So the file keeps the record of a session exactly while every name
still leads from inside a directory to itself, no path has a space in it, and the counts fit an
`int` (`keeps_iff`).
-/

namespace MiniProject.Shell.Hopping

/-! ## A session -/

/-- An argument that leads to a directory: what is found outside at that time, and the visit. -/
structure Hop extends Visit where
  outside : Outside
  arg : Text

/-- What a hop makes of the shell. -/
def hop (s : State) (h : Hop) : Option State := (hopOne h.outside s h.arg).map Reply.state

/-- `target`, if the argument comes to `chdir`. -/
def named (s : State) (h : Hop) : Option Text :=
  match target h.outside s h.arg with
  | .path name => some name
  | _ => none

/-- `chdir` leads to the directory of the hop, at its time. -/
def Succeeds (s : State) (h : Hop) : Prop :=
  (named s h).map (h.outside.chdir s.cwd) = some (.ok h.path) ∧ h.outside.time s.updates = h.time

instance (s : State) (h : Hop) : Decidable (Succeeds s h) := inferInstanceAs (Decidable (_ ∧ _))

/-- `resolved`: what `realpath` finds, asked from inside the directory. -/
def resolved (s : State) (h : Hop) : Option Text := (named s h).bind (h.outside.realpath h.path)

/-- The visits of a session. -/
def visits (hops : List Hop) : List Visit := hops.map Hop.toVisit

/-- The rows that are read back after some hops. -/
def ReadsBack (s : State) (hops : List Hop) (es : List Entry) : Prop :=
  ∃ t, run hop s hops = some t ∧ readEntries maxDirs t.file = some es

/-- The hop `h` after `before` keeps the record: the file reads back with it, and with the same rows
as before for all other directories. -/
def Keeps (s : State) (before : List Hop) (h : Hop) : Prop :=
  ∃ es es', ReadsBack s before es ∧ ReadsBack s (before ++ [h]) es' ∧
    Recorded (visits (before ++ [h])) es' ∧ ∀ e, e.path ≠ h.path → (e ∈ es' ↔ e ∈ es)

/-! ## When a hop is recorded -/

/-- On a first visit, the row written for `path`, which is on no row, happens to be scanned as that
of the directory: what stands behind a space in `path` is taken for the count and the time. -/
structure Mistaken (before : List Hop) (h : Hop) (path : Text) : Prop where
  unwritten : path ∉ (visits before).map Visit.path
  first : h.path ∉ (visits before).map Visit.path
  scanned : readEntries (maxDirs - ((visits before).map Visit.path).dedup.length)
    (Entry.line ⟨path, 1, h.time⟩) = some [⟨h.path, 1, h.time⟩]

/-- `realpath` finds the directory itself, and there is no space in its path; or what it finds is
mistaken for it. -/
def Finds (before : List Hop) (s : State) (h : Hop) : Prop :=
  ∃ path, resolved s h = some path ∧ (path = h.path ∧ Spaceless h.path ∨ Mistaken before h path)

/-- …and the count fits. -/
def Records (before : List Hop) (s : State) (h : Hop) : Prop :=
  Finds before s h ∧ visitsTo (visits (before ++ [h])) h.path < 2 ^ 31

variable {s s₀ t : State} {h : Hop} {hops before : List Hop} {es : List Entry}

theorem visits_concat (before : List Hop) (h : Hop) :
    visits (before ++ [h]) = visits before ++ [h.toVisit] := List.map_append

/-- **What a hop does to the file.** -/
theorem file_hop (hsucc : Succeeds s h) : (hop s h).map State.file =
    match resolved s h with
    | none => some s.file
    | some path => freqUpdate s.file path h.time := by
  obtain ⟨name, hname, hdir⟩ := Option.map_eq_some_iff.mp hsucc.1
  have htarget : target h.outside s h.arg = .path name := by
    rw [named] at hname
    split at hname
    · rename_i heq
      cases hname
      exact heq
    · cases hname
  rw [hop, hopOne, htarget, resolved, hname, Option.bind_some]
  simp only [hdir, enter]
  rw [← hsucc.2]
  rcases h.outside.realpath h.path name with _ | path
  · rfl
  · simp only [Option.map_map]
    exact congrFun Option.map_id _

/-! ## One hop

A file that is read back as a record has sound rows only, so the hop writes them as they were. -/

/-- The file is read back as the record of some hops. -/
structure Filed (hops : List Hop) (s : State) (es : List Entry) : Prop where
  reads : readEntries maxDirs s.file = some es
  recorded : Recorded (visits hops) es

theorem Filed.sound (hf : Filed hops s es) : ∀ e ∈ es, e.Sound :=
  hf.recorded.sound fun _ he => of_mem_readEntries hf.reads he

theorem Filed.length_le (hf : Filed hops s es)
    (hroom : ((visits hops).map Visit.path).dedup.length ≤ maxDirs) : es.length ≤ maxDirs :=
  hf.recorded.length_eq.trans_le hroom

theorem freqUpdate_of_filed (hf : Filed hops s es) (path : Text) (now : ℤ) :
    freqUpdate s.file path now = some (render (record path now es)) := by
  rw [freqUpdate, hf.reads, Option.map_some]

theorem dedup_le_concat (before : List Hop) (h : Hop) :
    ((visits before).map Visit.path).dedup.length ≤
      ((visits before ++ [h.toVisit]).map Visit.path).dedup.length :=
  length_le_of_visited (List.nodup_dedup _) fun _ hp =>
    List.map_subset _ (List.subset_append_left _ _) (List.mem_dedup.mp hp)

/-- A row added to sound ones is read back after them. -/
theorem readEntries_concat (hf : Filed hops s es) (hlen : es.length ≤ maxDirs) (e : Entry) :
    readEntries maxDirs (render (es ++ [e])) =
      (readEntries (maxDirs - es.length) e.line).map (es ++ ·) := by
  have hrender : render (es ++ [e]) = render es ++ e.line := by simp [render]
  rw [hrender, readEntries_append hlen hf.sound]

/-- **What a hop leaves is a record of it only if it was recorded as it should be.** -/
theorem records_of_filed {es' : List Entry} (hf : Filed before s es) (hsucc : Succeeds s h)
    (hroom : ((visits (before ++ [h])).map Visit.path).dedup.length ≤ maxDirs)
    (hstep : hop s h = some t) (hf' : Filed (before ++ [h]) t es') : Records before s h := by
  obtain ⟨hreads, hrec⟩ := hf'
  rw [visits_concat] at hrec hroom
  have hmem : h.path ∈ es'.map Entry.path :=
    (hrec.visited _).mpr (List.mem_map_of_mem
      (List.mem_append_right _ (List.mem_singleton_self h.toVisit)))
  obtain ⟨e, he, hp⟩ := List.mem_map.mp hmem
  obtain ⟨hspace, hlt⟩ := of_mem_readEntries hreads he
  have hcount : visitsTo (visits (before ++ [h])) h.path < 2 ^ 31 := by
    rw [hrec.freq e he, hp, ← visits_concat] at hlt
    omega
  have hstale : e ∉ es := fun hold => hf.recorded.stale hrec hold hp he
  have hfile := file_hop hsucc
  rw [hstep, Option.map_some] at hfile
  refine ⟨?_, hcount⟩
  cases hr : resolved s h with
  | none =>
    simp only [hr, Option.some.injEq] at hfile
    rw [hfile, hf.reads] at hreads
    cases hreads
    exact absurd he hstale
  | some path =>
    simp only [hr, freqUpdate_of_filed hf, Option.some.injEq] at hfile
    rw [hfile] at hreads
    refine ⟨path, hr, ?_⟩
    have hlen := hf.length_le (Nat.le_trans (dedup_le_concat before h) hroom)
    by_cases hold : path ∈ es.map Entry.path
    · -- a row is touched, and it can only be that of the directory
      have hrecord : record path h.time es = es.map (Entry.touch path h.time) :=
        if_pos (any_path_iff.mpr hold)
      have hback : readEntries maxDirs (render (record path h.time es)) =
          some (record path h.time es) := by
        rw [hrecord]
        refine readEntries_render (by rwa [List.length_map]) fun row hrow => ?_
        obtain ⟨old, hmem, rfl⟩ := List.mem_map.mp hrow
        exact sound_touch (hf.sound old hmem) h.long
      rw [hback] at hreads
      cases hreads
      have heq : path = h.path := by
        by_contra hne
        exact hstale ((mem_record_of_ne fun heq => hne (heq.symm.trans hp)).mp he)
      exact .inl ⟨heq, hp ▸ hspace⟩
    · by_cases hlt : es.length < maxDirs
      · -- a row is added, and it is scanned as that of a first visit
        rw [record_of_new hold hlt, readEntries_concat hf hlen] at hreads
        obtain ⟨rows, hrows, rfl⟩ := Option.map_eq_some_iff.mp hreads
        obtain ⟨hfirst, rfl⟩ := hf.recorded.eq_of_append hrec
        rw [hf.recorded.length_eq] at hrows
        exact .inr ⟨mt (hf.recorded.visited _).mpr hold, hfirst, hrows⟩
      · -- there is no room, and the rows stay as they are
        have hsame : record path h.time es = es := by
          rw [record, if_neg (mt any_path_iff.mp hold), if_neg hlt]
        rw [hsame, readEntries_render hlen hf.sound] at hreads
        cases hreads
        exact absurd he hstale

/-- **A hop that is recorded as it should be** leaves the record. -/
theorem filed_of_records (hf : Filed before s es) (hsucc : Succeeds s h)
    (hroom : ((visits (before ++ [h])).map Visit.path).dedup.length ≤ maxDirs)
    (hr : Records before s h) :
    ∃ t, hop s h = some t ∧ Filed (before ++ [h]) t (record h.path h.time es) := by
  obtain ⟨⟨path, hresolved, hfinds⟩, hcount⟩ := hr
  rw [visits_concat] at hroom hcount
  have hlen := hf.length_le (Nat.le_trans (dedup_le_concat before h) hroom)
  have hrec : Recorded (visits before ++ [h.toVisit]) (record h.path h.time es) :=
    hf.recorded.record hroom hcount
  have hback : readEntries maxDirs (render (record path h.time es)) =
      some (record h.path h.time es) := by
    rcases hfinds with ⟨rfl, hspace⟩ | hmistaken
    · refine readEntries_render (hrec.length_eq.trans_le hroom) (hrec.sound fun e he => ?_)
      by_cases hp : e.path = h.path
      · rw [hrec.freq e he, hp]
        exact ⟨hspace, by omega⟩
      · exact of_mem_readEntries hf.reads ((mem_record_of_ne hp).mp he)
    · have hnew := mt (hf.recorded.visited _).mp hmistaken.unwritten
      have hfirst := mt (hf.recorded.visited _).mp hmistaken.first
      have hlt := hf.recorded.length_lt hroom hfirst
      rw [record_of_new hnew hlt, record_of_new hfirst hlt, readEntries_concat hf hlen,
        hf.recorded.length_eq, hmistaken.scanned]
      rfl
  have hfile := file_hop hsucc
  simp only [hresolved, freqUpdate_of_filed hf] at hfile
  obtain ⟨t, ht, hfile⟩ := Option.map_eq_some_iff.mp hfile
  refine ⟨t, ht, ?_, ?_⟩
  · rw [hfile, hback]
  · rwa [visits_concat]

/-! ## The session -/

theorem succeeds_of_along (hsucc : Along hop Succeeds s₀ hops) (hle : before ++ [h] <+: hops)
    (hrun : run hop s₀ before = some s) : Succeeds s h := by
  obtain ⟨rest, rfl⟩ := hle
  rw [List.append_assoc] at hsucc
  exact hsucc.of_run hrun

/-- No file reads like the record of no hops. -/
theorem filed_nil (hfile : s₀.file = []) : Filed [] s₀ [] :=
  ⟨by rw [hfile]; rfl, List.nodup_nil, fun _ => Iff.rfl, nofun, nofun⟩

/-- Where every hop keeps the record, the file is the record all along. -/
theorem filed_of_keeps (hfile : s₀.file = [])
    (hkeeps : ∀ before h, before ++ [h] <+: hops → Keeps s₀ before h) (hle : before <+: hops) :
    ∃ s es, run hop s₀ before = some s ∧ Filed before s es := by
  rcases List.eq_nil_or_concat' before with rfl | ⟨before, h, rfl⟩
  · exact ⟨s₀, [], rfl, filed_nil hfile⟩
  · obtain ⟨-, es, -, ⟨s, hrun, hreads⟩, hrec, -⟩ := hkeeps before h hle
    exact ⟨s, es, hrun, hreads, hrec⟩

theorem dedup_le_of_isPrefix (hle : before <+: hops)
    (hroom : ((visits hops).map Visit.path).dedup.length ≤ maxDirs) :
    ((visits before).map Visit.path).dedup.length ≤ maxDirs :=
  Nat.le_trans (length_le_of_visited (List.nodup_dedup _) fun _ hp =>
    ((hle.map Hop.toVisit).map Visit.path).subset (List.mem_dedup.mp hp)) hroom

/-- …and where every hop is recorded as it should be. -/
theorem filed_of_all_records (hfile : s₀.file = []) (hsucc : Along hop Succeeds s₀ hops)
    (hroom : ((visits hops).map Visit.path).dedup.length ≤ maxDirs)
    (hall : ∀ before h s, before ++ [h] <+: hops → run hop s₀ before = some s → Records before s h)
    (hle : before <+: hops) : ∃ s es, run hop s₀ before = some s ∧ Filed before s es := by
  induction before using List.reverseRecOn with
  | nil => exact ⟨s₀, [], rfl, filed_nil hfile⟩
  | append_singleton before h ih =>
    obtain ⟨s, es, hrun, hf⟩ := ih ((List.prefix_append _ _).trans hle)
    obtain ⟨t, ht, hf'⟩ := filed_of_records hf (succeeds_of_along hsucc hle hrun)
      (dedup_le_of_isPrefix hle hroom) (hall before h s hle hrun)
    exact ⟨t, _, by rw [run_concat, hrun]; exact ht, hf'⟩

/-- **Every hop of a session keeps the record** exactly if each time `realpath` finds the directory
that `chdir` has led to, with no space in its path, or one that is mistaken for it, and no count is
past an `int`. -/
theorem keeps_iff (hfile : s₀.file = []) (hsucc : Along hop Succeeds s₀ hops)
    (hroom : ((visits hops).map Visit.path).dedup.length ≤ maxDirs) :
    (∀ before h, before ++ [h] <+: hops → Keeps s₀ before h) ↔
      ∀ before h s, before ++ [h] <+: hops → run hop s₀ before = some s → Records before s h := by
  constructor
  · intro hkeeps before h s hle hrun
    obtain ⟨s', es, hrun', hf⟩ := filed_of_keeps hfile hkeeps ((List.prefix_append _ _).trans hle)
    obtain rfl : s' = s := Option.some.inj (hrun'.symm.trans hrun)
    obtain ⟨t, es', ht, hf'⟩ := filed_of_keeps hfile hkeeps hle
    rw [run_concat, hrun, Option.bind_some] at ht
    exact records_of_filed hf (succeeds_of_along hsucc hle hrun) (dedup_le_of_isPrefix hle hroom)
      ht hf'
  · intro hall before h hle
    obtain ⟨s, es, hrun, hf⟩ :=
      filed_of_all_records hfile hsucc hroom hall ((List.prefix_append _ _).trans hle)
    obtain ⟨t, ht, hf'⟩ := filed_of_records hf (succeeds_of_along hsucc hle hrun)
      (dedup_le_of_isPrefix hle hroom) (hall before h s hle hrun)
    refine ⟨es, _, ⟨s, hrun, hf.reads⟩, ⟨t, ?_, hf'.reads⟩, hf'.recorded,
      fun e hne => mem_record_of_ne hne⟩
    rw [run_concat, hrun]
    exact ht

/-- A world in which every name but `a` is what it says, and `a` is a directory of `/h` only. -/
def onlyInH : Outside where
  shome := "/h".toList
  isDir cwd name := decide (name = ['a'] → cwd = "/h".toList)
  chdir _ name := .ok (if name = ['a'] then "/h/a".toList else name)
  realpath cwd name :=
    if name = ['a'] then if cwd = "/h".toList then some "/h/a".toList else none else some name
  time n := 5 + n

/-- `hop /a ~ /a`. -/
theorem keeps_iff_three :
    let s₀ : State := ⟨['/'], [], [], 0⟩
    let first : Hop := ⟨⟨"/a".toList, 5, rfl, by decide, by decide⟩, onlyInH, "/a".toList⟩
    let home : Hop := ⟨⟨"/h".toList, 6, rfl, by decide, by decide⟩, onlyInH, ['~']⟩
    let again : Hop := ⟨⟨"/a".toList, 7, rfl, by decide, by decide⟩, onlyInH, "/a".toList⟩
    (∀ before h, before ++ [h] <+: [first, home, again] → Keeps s₀ before h) ↔
      ∀ before h s, before ++ [h] <+: [first, home, again] → run hop s₀ before = some s →
        Records before s h :=
  keeps_iff rfl (by decide +kernel) (by decide)

/-- A first hop that leaves nothing to read keeps no record. -/
theorem not_keeps_of_unread {file : Text} (hfile : (hop s h).map State.file = some file)
    (hread : readEntries maxDirs file = some []) : ¬ Keeps s [] h := by
  rintro ⟨es, es', -, ⟨t, hrun, hreads⟩, hrec, -⟩
  obtain ⟨u, hstep, rfl⟩ := Option.map_eq_some_iff.mp hfile
  obtain ⟨v, hv, hrun⟩ := run_cons_eq_some.mp hrun
  rw [hstep] at hv
  cases hv
  cases hrun
  rw [hread] at hreads
  cases hreads
  exact absurd ((hrec.visited h.path).mpr (List.mem_singleton_self _)) List.not_mem_nil

/-- **`hop a` from `/h`**: there is no `a` in `/h/a`, and nothing is recorded; and a directory with
a space in its path is not there when the file is read back. -/
theorem not_keeps :
    let s₀ : State := ⟨"/h".toList, [], [], 0⟩
    let inside : Hop := ⟨⟨"/h/a".toList, 5, rfl, by decide, by decide⟩, onlyInH, ['a']⟩
    let spaced : Hop := ⟨⟨"/a b".toList, 5, rfl, by decide, by decide⟩, onlyInH, "/a b".toList⟩
    (Succeeds s₀ inside ∧ ¬ Keeps s₀ [] inside) ∧ Succeeds s₀ spaced ∧ ¬ Keeps s₀ [] spaced := by
  intro s₀ inside spaced
  refine ⟨⟨by decide +kernel, ?_⟩, by decide +kernel, ?_⟩
  · have hfile : (hop s₀ inside).map State.file = some [] := by decide +kernel
    exact not_keeps_of_unread hfile rfl
  · have hfile : (hop s₀ spaced).map State.file = some "/a b 1 5\n".toList := by decide +kernel
    exact not_keeps_of_unread hfile (by decide +kernel)

end MiniProject.Shell.Hopping
