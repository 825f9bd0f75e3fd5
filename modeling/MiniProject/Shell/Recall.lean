import Mathlib.Data.List.Infix
import Mathlib.Data.Prod.Lex
import MiniProject.Machinery.Greatest
import MiniProject.Shell.Frecency

/-!
# Shell/Recall — the directory that a name calls to mind

`get_frecency` scans `.frecency` row by row and keeps the best that contains the target and is a
directory: more visits win, and among equals the later one.  It starts from -1 for both, which no
row has, so it finds nothing exactly if no row will do, and the first of the best otherwise
(`getFrecency_render`).
-/

namespace MiniProject.Shell

/-! ## The search -/

/-- The row contains `target`, and is a directory. -/
structure Entry.Matches (isDir : Text → Bool) (target : Text) (e : Entry) : Prop where
  contains : target <:+: e.path
  directory : isDir e.path = true

/-- What rows are compared by: the count, then the time. -/
def Entry.key (e : Entry) : ℤ ×ₗ ℤ := toLex (e.freq, e.time)

/-- `best_path`, `best_freq` and `best_time` at first. -/
def noEntry : Entry := ⟨[], -1, -1⟩

section

variable (isDir : Text → Bool) (target : Text)

/-- The body of the loop of `get_frecency`; `isDir` is `stat` and `S_ISDIR`. -/
def better (best e : Entry) : Entry :=
  if target <:+: e.path then
    if isDir e.path then
      if e.freq > best.freq ∨ (e.freq = best.freq ∧ e.time > best.time) then e else best
    else best
  else best

theorem length_scanEntry {e : Entry} {file rest : Text} (h : scanEntry file = some (e, rest)) :
    rest.length < file.length := by
  simp only [scanEntry, Option.bind_eq_bind, Option.bind_eq_some_iff] at h
  obtain ⟨⟨path, f₁⟩, hpath, ⟨freq, f₂⟩, hfreq, ⟨time, f₃⟩, htime, hmk⟩ := h
  cases hmk
  have h₁ : f₁.length < file.length := length_scanWord hpath
  have h₂ : f₂.length ≤ f₁.length := length_scanInt hfreq
  have h₃ : f₃.length ≤ f₂.length := length_scanInt htime
  exact Nat.lt_of_le_of_lt (Nat.le_trans h₃ h₂) h₁

/-- The loop of `get_frecency`. -/
def search (best : Entry) (file : Text) : Entry :=
  match h : scanEntry file with
  | none => best
  | some (e, rest) =>
    have := length_scanEntry h
    search (better isDir target best e) rest
termination_by file.length

/-- `get_frecency`; a missing file reads like an empty one. -/
def getFrecency (file : Text) : Option Text :=
  let best := search isDir target noEntry file
  if best.freq ≠ -1 then some best.path else none

end

/-! ## What it goes through -/

variable {isDir : Text → Bool} {target : Text} {best e : Entry} {es : List Entry} {file : Text}

theorem search_of_none (h : scanEntry file = none) : search isDir target best file = best := by
  rw [search]
  split
  · rfl
  · rename_i heq
    rw [h] at heq
    cases heq

theorem search_of_some {rest : Text} (h : scanEntry file = some (e, rest)) :
    search isDir target best file = search isDir target (better isDir target best e) rest := by
  rw [search]
  split
  · rename_i heq
    rw [h] at heq
    cases heq
  · rename_i heq
    rw [h] at heq
    cases heq
    rfl

theorem search_space {c : Char} (hc : isSpace c) (file : Text) :
    search isDir target best (c :: file) = search isDir target best file := by
  rcases h : scanEntry file with _ | ⟨e, rest⟩
  · rw [search_of_none h, search_of_none (by rw [scanEntry_space hc, h])]
  · rw [search_of_some h, search_of_some (by rw [scanEntry_space hc, h])]

/-- **The loop goes through the rows of the file**, however many there are. -/
theorem search_render (h : ∀ e ∈ es, e.Sound) :
    search isDir target best (render es) = es.foldl (better isDir target) best := by
  induction es generalizing best with
  | nil => exact search_of_none rfl
  | cons e es ih =>
    obtain ⟨he, hes⟩ := List.forall_mem_cons.mp h
    have hscan : scanEntry (render (e :: es)) = some (e, '\n' :: render es) := scanEntry_line he _
    rw [search_of_some hscan, search_space rfl, ih hes, List.foldl_cons]

/-! ## The best of the rows -/

theorem better_of_not_matches (h : ¬e.Matches isDir target) :
    better isDir target best e = best := by
  rw [better]
  split
  · rename_i hcontains
    exact if_neg fun hdir => h ⟨hcontains, hdir⟩
  · rfl

theorem key_lt_key {e e' : Entry} :
    e.key < e'.key ↔ e'.freq > e.freq ∨ (e'.freq = e.freq ∧ e'.time > e.time) := by
  rw [Entry.key, Entry.key, Prod.Lex.toLex_lt_toLex]
  exact or_congr Iff.rfl (and_congr_left' eq_comm)

theorem better_of_matches (h : e.Matches isDir target) :
    better isDir target best e = if best.key < e.key then e else best := by
  rw [better, if_pos h.contains, if_pos h.directory]
  exact if_congr key_lt_key.symm rfl rfl

/-- What the search has found among the rows so far. -/
def Found (isDir : Text → Bool) (target : Text) (es : List Entry) (best : Entry) : Prop :=
  (best = noEntry ∧ ∀ e ∈ es, ¬e.Matches isDir target) ∨
    FirstGreatest (Entry.Matches isDir target) Entry.key es best

/-- **One more row.** -/
theorem Found.concat (h : Found isDir target es best) (hfreq : 0 ≤ e.freq) :
    Found isDir target (es ++ [e]) (better isDir target best e) := by
  by_cases hm : e.Matches isDir target
  · rw [better_of_matches hm]
    rcases h with ⟨rfl, hnone⟩ | hgreatest
    · have hlt : noEntry.key < e.key := key_lt_key.mpr (.inl (by simp only [noEntry]; omega))
      rw [if_pos hlt]
      exact .inr (.concat_of_none hnone hm)
    · split
      · rename_i hlt
        exact .inr (hgreatest.concat_of_lt hm hlt)
      · rename_i hle
        exact .inr (hgreatest.concat_of_le fun _ => not_lt.mp hle)
  · rw [better_of_not_matches hm]
    rcases h with ⟨hbest, hnone⟩ | hgreatest
    · refine .inl ⟨hbest, fun e' he' => ?_⟩
      rcases List.mem_append.mp he' with he' | he'
      · exact hnone e' he'
      · rwa [List.mem_singleton.mp he']
    · exact .inr (hgreatest.concat_of_le fun h => absurd h hm)

theorem found_foldl (isDir : Text → Bool) (target : Text) (h : ∀ e ∈ es, 0 ≤ e.freq) :
    Found isDir target es (es.foldl (better isDir target) noEntry) := by
  induction es using List.reverseRecOn with
  | nil => exact .inl ⟨rfl, nofun⟩
  | append_singleton es e ih =>
    rw [List.foldl_append]
    exact (ih fun e' he' => h e' (List.mem_append_left _ he')).concat
      (h e (List.mem_append_right _ (List.mem_singleton_self e)))

/-- **Nothing is found exactly if no row contains the target and is a directory**; what is found is
the first of those with the greatest count and, among these, the latest time. -/
theorem getFrecency_render (hsound : ∀ e ∈ es, e.Sound) (hfreq : ∀ e ∈ es, 0 ≤ e.freq) :
    (getFrecency isDir target (render es) = none ↔ ∀ e ∈ es, ¬e.Matches isDir target) ∧
      ∀ path, getFrecency isDir target (render es) = some path →
        ∃ before e after, es = before ++ e :: after ∧ e.path = path ∧ e.Matches isDir target ∧
          (∀ e' ∈ before, e'.Matches isDir target → e'.key < e.key) ∧
          ∀ e' ∈ after, e'.Matches isDir target → e'.key ≤ e.key := by
  have hfound := found_foldl isDir target hfreq
  simp only [getFrecency, search_render hsound]
  rcases hfound with ⟨hbest, hnone⟩ | hgreatest
  · rw [hbest]
    exact ⟨iff_of_true rfl hnone, nofun⟩
  · have hpos := hfreq _ hgreatest.mem
    rw [if_pos (by omega)]
    refine ⟨iff_of_false nofun fun hnone => hnone _ hgreatest.mem hgreatest.isOk, ?_⟩
    rintro path ⟨⟩
    obtain ⟨before, after, hes, hok, hbefore, hafter⟩ := hgreatest
    exact ⟨before, _, after, hes, rfl, hok, hbefore, hafter⟩

/-- `/a` and `/ab` have been visited twice, and `/ab` later. -/
theorem getFrecency_render_three :
    getFrecency (fun _ => true) ['a']
        (render [⟨['/', 'a'], 2, 5⟩, ⟨['/', 'b'], 3, 6⟩, ⟨['/', 'a', 'b'], 2, 7⟩]) =
      some ['/', 'a', 'b'] := by
  obtain ⟨hnone, hsome⟩ := @getFrecency_render (fun _ => true) ['a']
    [⟨['/', 'a'], 2, 5⟩, ⟨['/', 'b'], 3, 6⟩, ⟨['/', 'a', 'b'], 2, 7⟩]
    (by
      simp only [List.forall_mem_cons, List.not_mem_nil, false_implies, implies_true, and_true]
      refine ⟨⟨?_, ?_, ?_, ?_, ?_⟩, ⟨?_, ?_, ?_, ?_, ?_⟩, ⟨?_, ?_, ?_, ?_, ?_⟩⟩ <;> decide)
    (by decide)
  rcases hfound : getFrecency (fun _ => true) ['a']
    (render [⟨['/', 'a'], 2, 5⟩, ⟨['/', 'b'], 3, 6⟩, ⟨['/', 'a', 'b'], 2, 7⟩]) with _ | path
  · exact absurd ⟨by decide, rfl⟩ (hnone.mp hfound ⟨['/', 'a'], 2, 5⟩ List.mem_cons_self)
  · obtain ⟨before, e, after, hes, rfl, hm, hbefore, hafter⟩ := hsome path hfound
    have hgreatest : FirstGreatest (Entry.Matches (fun _ => true) ['a']) Entry.key _ e :=
      ⟨before, after, hes, hm, hbefore, hafter⟩
    have hle : Entry.key ⟨['/', 'a', 'b'], 2, 7⟩ ≤ e.key :=
      hgreatest.le (by decide) ⟨by decide, rfl⟩
    have hmem := hgreatest.mem
    simp only [List.mem_cons, List.not_mem_nil, or_false] at hmem
    rcases hmem with rfl | rfl | rfl
    · exact absurd hle (not_le.mpr (key_lt_key.mpr (by decide)))
    · exact absurd hm.contains (by decide)
    · rfl

end MiniProject.Shell
