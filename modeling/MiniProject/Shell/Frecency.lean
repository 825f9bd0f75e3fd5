import Mathlib.Data.List.Dedup
import Mathlib.Data.List.Perm.Subperm
import MiniProject.Machinery.Scanf
import MiniProject.Shell.Token

/-!
# Shell/Frecency — the file `.frecency` and the record of visits

`freq_update` reads the whole file with `fscanf`, changes or adds one row, and writes it back.  A
row is scanned back as it was printed if its path has no space in it, and no row scanned back ever
has one (`readEntries_append`).  A record of visits, one row for each directory, becomes that of one
visit more when its row is touched or added (`Recorded.record`).
-/

namespace MiniProject.Shell

/-! ## The file -/

/-- The length of `lines`, `freqs` and `times`. -/
def maxDirs : ℕ := 1024

/-- `lines[i]`, `freqs[i]` and `times[i]`. -/
structure Entry where
  path : Text
  freq : ℤ
  time : ℤ
  deriving DecidableEq, Repr

/-- What an `int` holds of a number. -/
def wrapInt (n : ℤ) : ℤ := n.bmod (2 ^ 32)

/-- What `strtol` makes of the digits of a number. -/
def clampLong (n : ℤ) : ℤ := max (-2 ^ 63) (min n (2 ^ 63 - 1))

/-- `fprintf(f, "%s %d %ld\n", …)`. -/
def Entry.line (e : Entry) : Text :=
  e.path ++ ' ' :: (printInt e.freq ++ ' ' :: (printInt e.time ++ ['\n']))

/-- `fscanf(f, "%4999s %d %ld", …) == 3`. -/
def scanEntry (file : Text) : Option (Entry × Text) := do
  let (path, file) ← scanWord 4999 file
  let (freq, file) ← scanInt file
  let (time, file) ← scanInt file
  some (⟨path, wrapInt (clampLong freq), clampLong time⟩, file)

/-- The loop of `freq_update` over the file with `n` rows free; `none` where it scans a word past
the last one. -/
def readEntries : ℕ → Text → Option (List Entry)
  | 0, file => if file.all isSpace then some [] else none
  | n + 1, file =>
    match scanEntry file with
    | none => some []
    | some (e, file) => (readEntries n file).map (e :: ·)

/-- `freqs[count]++; times[count] = (long)time(NULL)` for the row of the path. -/
def Entry.touch (path : Text) (now : ℤ) (e : Entry) : Entry :=
  if e.path = path then ⟨e.path, wrapInt (e.freq + 1), now⟩ else e

/-- The rows after a hop. -/
def record (path : Text) (now : ℤ) (es : List Entry) : List Entry :=
  if es.any (·.path = path) then es.map (Entry.touch path now)
  else if es.length < maxDirs then es ++ [⟨path, 1, now⟩]
  else es

/-- The second loop of `freq_update`. -/
def render (es : List Entry) : Text := es.flatMap Entry.line

/-- `freq_update`; a missing file reads like an empty one. -/
def freqUpdate (file path : Text) (now : ℤ) : Option Text :=
  (readEntries maxDirs file).map fun es => render (record path now es)

/-! ## Visits -/

/-- A directory, by its real path, and `time(NULL)`. -/
structure Visit where
  path : Text
  time : ℤ
  absolute : path.head? = some '/'
  short : path.length < 5000
  long : -2 ^ 63 ≤ time ∧ time < 2 ^ 63

/-- The number of visits to a directory. -/
def visitsTo (visits : List Visit) (path : Text) : ℕ := visits.countP (·.path = path)

/-- The time of the latest of them. -/
def latest (visits : List Visit) (path : Text) : Option ℤ :=
  (visits.filter (·.path = path)).getLast?.map Visit.time

/-- **One row for each directory visited**, with the number of visits and the latest of them. -/
structure Recorded (visits : List Visit) (es : List Entry) : Prop where
  nodup : (es.map Entry.path).Nodup
  visited : ∀ p, p ∈ es.map Entry.path ↔ p ∈ visits.map Visit.path
  freq : ∀ e ∈ es, e.freq = visitsTo visits e.path
  time : ∀ e ∈ es, latest visits e.path = some e.time

/-! ## Rows are read back as they were written -/

/-- A row that survives. -/
structure Entry.Sound (e : Entry) : Prop where
  ne_nil : e.path ≠ []
  spaceless : Spaceless e.path
  short : e.path.length ≤ 4999
  freq : -2 ^ 31 ≤ e.freq ∧ e.freq < 2 ^ 31
  time : -2 ^ 63 ≤ e.time ∧ e.time < 2 ^ 63

theorem wrapInt_of_fits {n : ℤ} (h : -2 ^ 31 ≤ n ∧ n < 2 ^ 31) : wrapInt n = n :=
  Int.bmod_eq_of_le (by omega) (by omega)

theorem clampLong_of_fits {n : ℤ} (h : -2 ^ 63 ≤ n ∧ n < 2 ^ 63) : clampLong n = n := by
  rw [clampLong]
  omega

theorem scanEntry_line {e : Entry} (h : e.Sound) (rest : Text) :
    scanEntry (e.line ++ rest) = some (e, '\n' :: rest) := by
  have hword := scanWord_append (t := ' ' :: (printInt e.freq ++ ' ' ::
    (printInt e.time ++ '\n' :: rest))) h.ne_nil h.spaceless h.short (by rintro c ⟨⟩; rfl)
  have hfreq := scanInt_append e.freq (t := ' ' :: (printInt e.time ++ '\n' :: rest))
    (by rintro c ⟨⟩; rfl)
  have htime := scanInt_append e.time (t := '\n' :: rest) (by rintro c ⟨⟩; rfl)
  have hlong : -2 ^ 63 ≤ e.freq ∧ e.freq < 2 ^ 63 := by
    have := h.freq
    omega
  have hline : e.line ++ rest = e.path ++ ' ' :: (printInt e.freq ++ ' ' ::
      (printInt e.time ++ '\n' :: rest)) := by simp [Entry.line]
  simp only [scanEntry, hline, hword, hfreq, htime, Option.bind_eq_bind, Option.bind_some,
    clampLong_of_fits hlong, wrapInt_of_fits h.freq, clampLong_of_fits h.time]

theorem scanEntry_space {c : Char} (hc : isSpace c) (file : Text) :
    scanEntry (c :: file) = scanEntry file := by
  rw [scanEntry, scanWord_space hc]
  rfl

theorem readEntries_space {c : Char} (hc : isSpace c) (n : ℕ) (file : Text) :
    readEntries n (c :: file) = readEntries n file := by
  cases n with
  | zero => simp [readEntries, hc]
  | succ n => rw [readEntries, readEntries, scanEntry_space hc]

/-- **Sound rows are read back as they were written**, and then whatever follows them. -/
theorem readEntries_append {n : ℕ} {es : List Entry} (hlen : es.length ≤ n)
    (h : ∀ e ∈ es, e.Sound) (rest : Text) :
    readEntries n (render es ++ rest) = (readEntries (n - es.length) rest).map (es ++ ·) := by
  induction es generalizing n with
  | nil => simp [render]
  | cons e es ih =>
    obtain ⟨n, rfl⟩ : ∃ k, n = k + 1 := ⟨n - 1, by simp at hlen; omega⟩
    rw [render, List.flatMap_cons, List.append_assoc, readEntries,
      scanEntry_line (h e List.mem_cons_self)]
    dsimp only
    rw [readEntries_space rfl]
    change (readEntries n (render es ++ rest)).map _ = _
    rw [ih (by simpa using hlen) fun e he => h e (List.mem_cons_of_mem _ he), Option.map_map,
      List.length_cons, Nat.add_sub_add_right]
    rfl

/-- **Round trip** of a whole file. -/
theorem readEntries_render {n : ℕ} {es : List Entry} (hlen : es.length ≤ n)
    (h : ∀ e ∈ es, e.Sound) : readEntries n (render es) = some es := by
  have hnil : ∀ k, readEntries k [] = some [] := by
    rintro (_ | k)
    · rfl
    · rfl
  rw [← List.append_nil (render es), readEntries_append hlen h, hnil, Option.map_some,
    List.append_nil]

/-- What is read back has no space in its path, and a count that fits. -/
theorem of_mem_readEntries {n : ℕ} {file : Text} {es : List Entry}
    (h : readEntries n file = some es) {e : Entry} (he : e ∈ es) :
    Spaceless e.path ∧ e.freq < 2 ^ 31 := by
  induction n generalizing file es with
  | zero =>
    rw [readEntries] at h
    split at h <;> cases h
    cases he
  | succ n ih =>
    rw [readEntries] at h
    split at h
    · cases h
      cases he
    · rename_i e' file' hscan
      obtain ⟨es', hes', rfl⟩ := Option.map_eq_some_iff.mp h
      rcases List.mem_cons.mp he with rfl | he
      · simp only [scanEntry, Option.bind_eq_bind, Option.bind_eq_some_iff] at hscan
        obtain ⟨⟨path, f₁⟩, hpath, ⟨freq, f₂⟩, -, ⟨time, f₃⟩, -, hmk⟩ := hscan
        cases hmk
        refine ⟨spaceless_of_scanWord hpath, ?_⟩
        have := @Int.bmod_lt (clampLong freq) (2 ^ 32) (by decide)
        exact Int.lt_of_lt_of_le this (by decide)
      · exact ih hes' he

/-! ## A visit is recorded -/

section Record

variable {visits : List Visit} {v : Visit} {es : List Entry} {p : Text}

theorem path_touch (now : ℤ) (e : Entry) : (e.touch p now).path = e.path := by
  rw [Entry.touch]
  split <;> rfl

theorem visitsTo_concat :
    visitsTo (visits ++ [v]) p = visitsTo visits p + if v.path = p then 1 else 0 := by
  rw [visitsTo, List.countP_append, List.countP_singleton, visitsTo]
  simp

theorem visitsTo_eq_zero (h : p ∉ visits.map Visit.path) : visitsTo visits p = 0 :=
  List.countP_eq_zero.mpr fun _ hv heq =>
    h (List.mem_map.mpr ⟨_, hv, of_decide_eq_true heq⟩)

theorem latest_concat :
    latest (visits ++ [v]) p = if v.path = p then some v.time else latest visits p := by
  rw [latest, List.filter_append]
  split
  · rename_i heq
    simp [heq]
  · rename_i hne
    simp [hne, latest]

/-- A row of the directory or of another one. -/
theorem any_path_iff : es.any (·.path = p) = true ↔ p ∈ es.map Entry.path := by
  simp

/-- The paths after a visit. -/
theorem paths_record (hlen : p ∉ es.map Entry.path → es.length < maxDirs) (now : ℤ) :
    (record p now es).map Entry.path =
      if p ∈ es.map Entry.path then es.map Entry.path else es.map Entry.path ++ [p] := by
  rw [record]
  by_cases hmem : p ∈ es.map Entry.path
  · rw [if_pos (any_path_iff.mpr hmem), if_pos hmem, List.map_map]
    exact List.map_congr_left fun e _ => path_touch now e
  · rw [if_neg (mt any_path_iff.mp hmem), if_pos (hlen hmem), if_neg hmem, List.map_append,
      List.map_singleton]

/-- A new row is the last one. -/
theorem record_of_new (hnew : p ∉ es.map Entry.path) (hlen : es.length < maxDirs) (now : ℤ) :
    record p now es = es ++ [⟨p, 1, now⟩] := by
  rw [record, if_neg (mt any_path_iff.mp hnew), if_pos hlen]

/-- **The rows of other directories stay as they are.** -/
theorem mem_record_of_ne {now : ℤ} {e : Entry} (hne : e.path ≠ p) :
    e ∈ record p now es ↔ e ∈ es := by
  rw [record]
  split
  · rw [List.mem_map]
    constructor
    · rintro ⟨e', he', rfl⟩
      rw [path_touch] at hne
      rwa [Entry.touch, if_neg hne]
    · exact fun he => ⟨e, he, by rw [Entry.touch, if_neg hne]⟩
  · split
    · rw [List.mem_append, List.mem_singleton]
      exact or_iff_left fun heq => hne (by rw [heq])
    · rfl

/-- The row of the directory is a touched or a new one. -/
theorem eq_of_mem_record {now : ℤ} {e : Entry} (hlen : p ∉ es.map Entry.path → es.length < maxDirs)
    (he : e ∈ record p now es) (hp : e.path = p) :
    (∃ e' ∈ es, e'.path = p ∧ e = ⟨p, wrapInt (e'.freq + 1), now⟩) ∨
      p ∉ es.map Entry.path ∧ e = ⟨p, 1, now⟩ := by
  rw [record] at he
  split at he
  · obtain ⟨e', he', rfl⟩ := List.mem_map.mp he
    rw [path_touch] at hp
    rw [Entry.touch, if_pos hp]
    exact .inl ⟨e', he', hp, by rw [hp]⟩
  · rename_i hany
    have hnew := mt any_path_iff.mpr hany
    rw [if_pos (hlen hnew)] at he
    rcases List.mem_append.mp he with he | he
    · exact absurd (List.mem_map.mpr ⟨e, he, hp⟩) hnew
    · exact .inr ⟨hnew, List.mem_singleton.mp he⟩

/-- A touched row is sound, whatever its count is by then. -/
theorem sound_touch {e : Entry} (hs : e.Sound) {now : ℤ} (hnow : -2 ^ 63 ≤ now ∧ now < 2 ^ 63) :
    (e.touch p now).Sound := by
  rw [Entry.touch]
  split
  · exact ⟨hs.ne_nil, hs.spaceless, hs.short,
      ⟨Int.le_bmod (by decide), Int.bmod_lt (by decide)⟩, hnow⟩
  · exact hs

/-- Different paths among those visited are at most as many as there are directories. -/
theorem length_le_of_visited {ps : List Text} (hnodup : ps.Nodup)
    (hsub : ps ⊆ visits.map Visit.path) : ps.length ≤ (visits.map Visit.path).dedup.length :=
  (List.subperm_of_subset hnodup fun _ hp => List.mem_dedup.mpr (hsub hp)).length_le

/-- A record has as many rows as there are directories. -/
theorem Recorded.length_eq (hrec : Recorded visits es) :
    es.length = (visits.map Visit.path).dedup.length := by
  have hperm : (es.map Entry.path).Perm (visits.map Visit.path).dedup :=
    (List.perm_ext_iff_of_nodup hrec.nodup (List.nodup_dedup _)).mpr fun p => by
      rw [hrec.visited, List.mem_dedup]
  rw [← hperm.length_eq, List.length_map]

theorem nodup_concat_of_notMem {ps : List Text} (hnodup : ps.Nodup) (hnew : p ∉ ps) :
    (ps ++ [p]).Nodup := by
  refine List.nodup_append.mpr ⟨hnodup, List.nodup_singleton _, fun q hq q' hq' heq => hnew ?_⟩
  rwa [← List.mem_singleton.mp hq', ← heq]

/-- There is room for the row of a new directory. -/
theorem Recorded.length_lt (hrec : Recorded visits es)
    (hroom : ((visits ++ [v]).map Visit.path).dedup.length ≤ maxDirs)
    (hnew : v.path ∉ es.map Entry.path) : es.length < maxDirs := by
  have hsub : es.map Entry.path ++ [v.path] ⊆ (visits ++ [v]).map Visit.path := by
    rw [List.map_append]
    exact List.append_subset.mpr ⟨fun p hp => List.mem_append_left _ ((hrec.visited p).mp hp),
      List.subset_append_right _ _⟩
  have hle := length_le_of_visited (nodup_concat_of_notMem hrec.nodup hnew) hsub
  rw [List.length_append, List.length_map, List.length_singleton] at hle
  omega

/-- The row of the directory is out of date after one visit more. -/
theorem Recorded.stale {es' : List Entry} (hrec : Recorded visits es)
    (hrec' : Recorded (visits ++ [v]) es') {e : Entry} (he : e ∈ es) (hp : e.path = v.path) :
    e ∉ es' := by
  intro he'
  have hold := hrec.freq e he
  have hnew := hrec'.freq e he'
  rw [visitsTo_concat, if_pos hp.symm] at hnew
  omega

/-- …so that the record is another one. -/
theorem Recorded.not_concat (hrec : Recorded visits es) : ¬ Recorded (visits ++ [v]) es := by
  intro hrec'
  have hmem : v.path ∈ (visits ++ [v]).map Visit.path :=
    List.mem_map_of_mem (List.mem_append_right _ (List.mem_singleton_self v))
  obtain ⟨e, he, hp⟩ := List.mem_map.mp ((hrec'.visited _).mpr hmem)
  exact hrec.stale hrec' he hp he

/-- **Rows added to a record** make it that of one visit more only if they are the row of a first
visit. -/
theorem Recorded.eq_of_append {rows : List Entry} (hrec : Recorded visits es)
    (hrec' : Recorded (visits ++ [v]) (es ++ rows)) :
    v.path ∉ visits.map Visit.path ∧ rows = [⟨v.path, 1, v.time⟩] := by
  have hnodup := hrec'.nodup
  rw [List.map_append, List.nodup_append] at hnodup
  obtain ⟨-, hrows, hdisj⟩ := hnodup
  have hfirst : v.path ∉ visits.map Visit.path := by
    intro hmem
    obtain ⟨e, he, hp⟩ := List.mem_map.mp ((hrec.visited _).mpr hmem)
    exact hrec.stale hrec' he hp (List.mem_append_left _ he)
  have hall : ∀ e ∈ rows, e = ⟨v.path, 1, v.time⟩ := by
    intro e he
    have he' : e ∈ es ++ rows := List.mem_append_right _ he
    have hp : e.path = v.path := by
      have hmem := (hrec'.visited _).mp (List.mem_map_of_mem he')
      rw [List.map_append, List.mem_append, ← hrec.visited, List.map_singleton,
        List.mem_singleton] at hmem
      exact hmem.resolve_left fun hold => hdisj _ hold _ (List.mem_map_of_mem he) rfl
    have hfreq := hrec'.freq e he'
    have htime := hrec'.time e he'
    rw [visitsTo_concat, hp, visitsTo_eq_zero hfirst, if_pos rfl] at hfreq
    rw [latest_concat, if_pos hp.symm, Option.some.injEq] at htime
    obtain ⟨path, freq, time⟩ := e
    cases hp
    cases hfreq
    cases htime
    rfl
  refine ⟨hfirst, ?_⟩
  rcases rows with _ | ⟨e, rows⟩
  · rw [List.append_nil] at hrec'
    exact absurd hrec' hrec.not_concat
  · obtain rfl := hall e List.mem_cons_self
    refine congrArg _ (List.eq_nil_iff_forall_not_mem.mpr fun e' he' => ?_)
    rw [hall e' (List.mem_cons_of_mem _ he')] at he'
    exact (List.nodup_cons.mp hrows).1 (List.mem_map_of_mem he')

/-- Rows of a record that have been read back are sound. -/
theorem Recorded.sound (hrec : Recorded visits es)
    (hplain : ∀ e ∈ es, Spaceless e.path ∧ e.freq < 2 ^ 31) : ∀ e ∈ es, e.Sound := by
  intro e he
  obtain ⟨v, hv, hpath⟩ := List.mem_map.mp ((hrec.visited e.path).mp (List.mem_map_of_mem he))
  have hfreq := hrec.freq e he
  have hshort := v.short
  rw [hpath] at hshort
  refine ⟨?_, (hplain e he).1, by omega, ⟨by omega, (hplain e he).2⟩, ?_⟩
  · intro hnil
    have habs := v.absolute
    rw [hpath, hnil] at habs
    cases habs
  · obtain ⟨v', -, htime⟩ := Option.map_eq_some_iff.mp (hrec.time e he)
    rw [← htime]
    exact v'.long

/-- **A visit keeps the record**, if there is room and its count fits. -/
theorem Recorded.record (hrec : Recorded visits es)
    (hroom : ((visits ++ [v]).map Visit.path).dedup.length ≤ maxDirs)
    (hcount : visitsTo (visits ++ [v]) v.path < 2 ^ 31) :
    Recorded (visits ++ [v]) (record v.path v.time es) := by
  have hlen := hrec.length_lt hroom
  have hpaths := paths_record hlen v.time
  rw [visitsTo_concat, if_pos rfl] at hcount
  refine ⟨?_, fun p => ?_, fun e he => ?_, fun e he => ?_⟩
  · rw [hpaths]
    split
    · exact hrec.nodup
    · rename_i hnew
      exact nodup_concat_of_notMem hrec.nodup hnew
  · rw [hpaths, List.map_append, List.mem_append, ← hrec.visited]
    split
    · rename_i hold
      simp only [List.map_singleton, List.mem_singleton]
      exact (or_iff_left_of_imp fun h => h ▸ hold).symm
    · rw [List.mem_append, List.map_singleton]
  · by_cases hp : e.path = v.path
    · rw [hp, visitsTo_concat, if_pos rfl]
      rcases eq_of_mem_record hlen he hp with ⟨e', he', hp', rfl⟩ | ⟨hnew, rfl⟩
      · have hfreq := hrec.freq e' he'
        rw [hp'] at hfreq
        rw [wrapInt_of_fits (by omega), hfreq]
        rfl
      · rw [visitsTo_eq_zero fun hold => hnew ((hrec.visited _).mpr hold)]
        rfl
    · rw [visitsTo_concat, if_neg (Ne.symm hp), Nat.add_zero]
      exact hrec.freq e ((mem_record_of_ne hp).mp he)
  · by_cases hp : e.path = v.path
    · rw [hp, latest_concat, if_pos rfl]
      rcases eq_of_mem_record hlen he hp with ⟨e', -, -, rfl⟩ | ⟨-, rfl⟩ <;> rfl
    · rw [latest_concat, if_neg (Ne.symm hp)]
      exact hrec.time e ((mem_record_of_ne hp).mp he)

end Record

end MiniProject.Shell
