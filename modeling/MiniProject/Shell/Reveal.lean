import Mathlib.Data.Char
import MiniProject.Machinery.Paths
import MiniProject.Shell.Token

/-!
# Shell/Reveal — a directory and all that is in it

`reveal_dir` reads a directory, sorts the names it is to list, and prints a line for each; with `-t`
it does the same for each real directory right behind its line, with its path and a longer prefix.
So it goes through the tree in preorder (`lists_revealDir`): every entry that can be reached has one
line, its path from the start, and without `-a` those are left out that have a name with a dot in
front anywhere on the way.  That is if `lstat` and `opendir` do not fail on the way: a directory
that `lstat` cannot answer for is listed like a file, and one that cannot be opened has a message
behind its line.
-/

namespace MiniProject.Shell.Reveal

/-- What `opendir` and `readdir` find in a directory, in any order; which paths are those of real
directories; and for which `lstat` has an answer (not for one of 4096 bytes, or inside a directory
that may not be searched). -/
structure Files where
  readDir : Text → Option (List Text)
  isDir : Text → Bool
  lstat : Text → Bool

/-- The lines of `reveal` that name nothing. -/
def noSuchDirectory : Text := "reveal: no such directory\n".toList

@[inherit_doc noSuchDirectory]
def revealSyntax : Text := "reveal: invalid syntax\n".toList

/-- A name that is not passed over. -/
def Listed (hidden : Bool) (name : Text) : Prop :=
  name ≠ ['.'] ∧ name ≠ ['.', '.'] ∧ (hidden = true ∨ name.head? ≠ some '.')

instance (hidden : Bool) (name : Text) : Decidable (Listed hidden name) :=
  inferInstanceAs (Decidable (_ ∧ _ ∧ (_ ∨ _)))

/-- The first loop of `reveal_dir`: `entries` up to `count`. -/
def entries (hidden : Bool) (names : List Text) : List Text :=
  (names.filter fun name => Listed hidden name).take 5000

/-- A name with a space in it, in quotes. -/
def quoted (name : Text) : Text := if ' ' ∈ name then '\'' :: (name ++ ['\'']) else name

section

variable (fs : Files) (hidden recurse : Bool)

/-- The second loop of `reveal_dir`; `reveal` is the call in it. -/
def revealEntries (reveal : Text → Text → Option (List Text)) (path front : Text) :
    List Text → Option (List Text)
  | [] => some []
  | entry :: rest =>
    let fullPath := (path ++ '/' :: entry).take 5099
    let displayName := (front ++ entry).take 5099
    let quotedName := (quoted displayName).take 5109
    let goesIn := fs.lstat fullPath && fs.isDir fullPath && recurse
    let inner := if goesIn then reveal fullPath ((displayName ++ ['/']).take 5109) else some []
    inner.bind fun inner =>
      (revealEntries reveal path front rest).map fun others =>
        (quotedName ++ if goesIn then ['/', '\n'] else ['\n']) :: (inner ++ others)

/-- `reveal_dir`: the lines it prints; `none` is out of fuel.  `front` is `prefix`. -/
def revealDir : ℕ → Text → Text → Option (List Text)
  | 0, _, _ => none
  | fuel + 1, path, front =>
    match fs.readDir path with
    | none => some [noSuchDirectory]
    | some names =>
      revealEntries fs recurse (revealDir fuel) path front
        ((entries hidden names).insertionSort (· ≤ ·))

end

/-- The loop of `revealing` over its arguments: `show_hidden`, `recursive` and `target`, which is
`.` if there is none. -/
def readArgs (shome previous : Text) :
    Bool → Bool → Option Text → List Text → Except Text (Bool × Bool × Text)
  | hidden, recurse, target, [] => .ok (hidden, recurse, target.getD ['.'])
  | hidden, recurse, none, ('-' :: c :: flags) :: args =>
    if (c :: flags).all fun c => c = 'a' || c = 't' then
      readArgs shome previous (hidden || (c :: flags).contains 'a')
        (recurse || (c :: flags).contains 't') none args
    else .error revealSyntax
  | _, _, some _, _ :: _ => .error revealSyntax
  | hidden, recurse, none, arg :: args =>
    if arg = ['~'] then readArgs shome previous hidden recurse (some shome) args
    else if arg = ['-'] then
      if previous = [] then .error noSuchDirectory
      else readArgs shome previous hidden recurse (some previous) args
    else readArgs shome previous hidden recurse (some arg) args

/-- `revealing`. -/
def revealing (fs : Files) (fuel : ℕ) (shome previous : Text) (args : List Text) :
    Option (List Text) :=
  match readArgs shome previous false false none args with
  | .error line => some [line]
  | .ok (hidden, recurse, target) => revealDir fs hidden recurse fuel target []

/-! ## The tree below a directory -/

/-- The path that `reveal_dir` makes of the names on the way. -/
def fullPath (start : Text) (cs : List Text) : Text := start ++ cs.flatMap fun c => '/' :: c

/-- The path from the start. -/
def relative (cs : List Text) : Text := ['/'].intercalate cs

section

variable (fs : Files) (start : Text)

/-- What can be reached from the start through real directories. -/
inductive Reachable : List Text → Prop
  | start : Reachable []
  | entry {cs : List Text} {names : List Text} {name : Text} (reach : Reachable cs)
      (real : cs ≠ [] → fs.isDir (fullPath start cs) = true)
      (read : fs.readDir (fullPath start cs) = some names) (mem : name ∈ names)
      (dot : name ≠ ['.']) (dots : name ≠ ['.', '.']) : Reachable (cs ++ [name])

/-- Nothing on the way begins with a dot, or it is shown all the same. -/
def Visible (hidden : Bool) (cs : List Text) : Prop :=
  hidden = true ∨ ∀ c ∈ cs, c.head? ≠ some '.'

/-- **A finite tree that fits**: the names in a directory are different, at most 5000 of them are
listed, and the paths fit their buffers. -/
structure Fits (hidden : Bool) : Prop where
  named : start ≠ []
  distinct : ∀ cs names, Reachable fs start cs → fs.readDir (fullPath start cs) = some names →
    names.Nodup
  room : ∀ cs names, Reachable fs start cs → fs.readDir (fullPath start cs) = some names →
    (names.filter fun name => Listed hidden name).length ≤ 5000
  short : ∀ cs, Reachable fs start cs → (fullPath start cs).length < 5100
  finite : ∃ depth, ∀ cs, Reachable fs start cs → cs.length ≤ depth

/-- **Nothing fails on the way**: `lstat` answers for every directory that is shown, and it can be
opened. -/
structure Open (hidden : Bool) : Prop where
  top : fs.readDir start ≠ none
  lstat : ∀ cs, Reachable fs start cs → Visible hidden cs → cs ≠ [] →
    fs.isDir (fullPath start cs) = true → fs.lstat (fullPath start cs) = true
  read : ∀ cs, Reachable fs start cs → Visible hidden cs →
    fs.isDir (fullPath start cs) = true → fs.readDir (fullPath start cs) ≠ none

/-- The line of an entry. -/
def line (cs : List Text) : Text :=
  quoted (relative cs) ++ if fs.isDir (fullPath start cs) then ['/', '\n'] else ['\n']

end

variable {fs : Files} {start : Text} {hidden : Bool} {cs y : List Text} {name : Text}
  {names : List Text}

/-! ## Paths and buffers -/

/-- `prefix` in the directory with the path `cs`. -/
def front (cs : List Text) : Text := cs.flatMap fun c => c ++ ['/']

theorem front_concat (cs : List Text) (name : Text) :
    front (cs ++ [name]) = front cs ++ name ++ ['/'] := by
  rw [front, List.flatMap_append, List.flatMap_singleton, List.append_assoc]
  rfl

theorem relative_concat (cs : List Text) (name : Text) :
    relative (cs ++ [name]) = front cs ++ name := by
  induction cs with
  | nil => exact List.intercalate_singleton
  | cons c cs ih =>
    rw [relative] at ih ⊢
    rw [List.cons_append, List.intercalate_cons_of_ne_nil (by simp), ih]
    simp [front]

theorem slash_relative (cs : List Text) (name : Text) :
    '/' :: relative (cs ++ [name]) = (cs ++ [name]).flatMap fun c => '/' :: c := by
  rw [relative_concat]
  induction cs with
  | nil => simp [front]
  | cons c cs ih =>
    rw [List.cons_append, List.flatMap_cons, ← ih, front, List.flatMap_cons]
    simp [front]

theorem fullPath_concat (start : Text) (cs : List Text) (name : Text) :
    fullPath start (cs ++ [name]) = fullPath start cs ++ '/' :: name := by
  simp [fullPath]

/-- The names on the way fit if the path does. -/
theorem length_relative (hnamed : start ≠ []) (h : (fullPath start (cs ++ [name])).length < 5100) :
    (relative (cs ++ [name])).length + 2 < 5100 := by
  have hstart := List.length_pos_iff.mpr hnamed
  rw [fullPath, ← slash_relative, List.length_append, List.length_cons] at h
  omega

theorem length_quoted_le (name : Text) : (quoted name).length ≤ name.length + 2 := by
  rw [quoted]
  split
  · simp
  · omega

/-! ## What is below a directory -/

/-- `y` is below `cs`, and shown. -/
structure Below (fs : Files) (start : Text) (hidden : Bool) (cs y : List Text) : Prop where
  reach : Reachable fs start y
  visible : Visible hidden y
  below : cs <+: y
  ne : y ≠ cs

/-- **The way to what is below a directory** begins with one of its entries. -/
theorem Reachable.through (h : Reachable fs start y) (hpre : cs <+: y) (hne : y ≠ cs) :
    ∃ names name, (cs ≠ [] → fs.isDir (fullPath start cs) = true) ∧
      fs.readDir (fullPath start cs) = some names ∧ name ∈ names ∧ name ≠ ['.'] ∧
      name ≠ ['.', '.'] ∧ cs ++ [name] <+: y := by
  induction h with
  | start => exact absurd (List.prefix_nil.mp hpre).symm hne
  | @entry ds names name reach real read mem dot dots ih =>
    rcases List.prefix_concat_iff.mp hpre with heq | hpre
    · exact absurd heq.symm hne
    · by_cases heq : ds = cs
      · subst heq
        exact ⟨names, name, real, read, mem, dot, dots, List.prefix_rfl⟩
      · obtain ⟨names', name', real', read', mem', dot', dots', hpre'⟩ := ih hpre heq
        exact ⟨names', name', real', read', mem', dot', dots',
          hpre'.trans (List.prefix_append _ _)⟩

theorem Visible.concat (h : Visible hidden cs) (hname : Listed hidden name) :
    Visible hidden (cs ++ [name]) := by
  refine h.elim .inl fun h => ?_
  refine hname.2.2.imp id fun hname c hc => ?_
  rcases List.mem_append.mp hc with hc | hc
  · exact h c hc
  · rwa [List.mem_singleton.mp hc]

theorem Visible.of_isPrefix (h : Visible hidden y) (hpre : cs <+: y) : Visible hidden cs :=
  h.imp id fun h c hc => h c (hpre.subset hc)

/-- The names that are listed, in order. -/
def sorted (hidden : Bool) (names : List Text) : List Text :=
  (entries hidden names).insertionSort (· ≤ ·)

theorem mem_sorted (hroom : (names.filter fun name => Listed hidden name).length ≤ 5000) :
    name ∈ sorted hidden names ↔ name ∈ names ∧ Listed hidden name := by
  rw [sorted, List.mem_insertionSort, entries, List.take_of_length_le hroom, List.mem_filter,
    decide_eq_true_eq]

/-- **The names of a directory, in order**, are different. -/
theorem pairwise_sorted (hdistinct : names.Nodup) : (sorted hidden names).Pairwise (· < ·) := by
  have hnodup : (sorted hidden names).Nodup := by
    refine (List.perm_insertionSort _ _).nodup_iff.mpr ?_
    exact (hdistinct.filter _).sublist (List.take_sublist _ _)
  have hsorted := List.pairwise_insertionSort (· ≤ ·) (entries hidden names)
  exact (hsorted.and hnodup).imp fun h => lt_of_le_of_ne h.1 h.2

/-! ## One directory -/

/-- The paths below `cs` that are shown, sorted. -/
structure Block (fs : Files) (start : Text) (hidden : Bool) (cs : List Text)
    (es : List (List Text)) : Prop where
  sorted : es.Pairwise (· < ·)
  mem : ∀ y, y ∈ es ↔ Below fs start hidden cs y

/-- The call for an entry that is a directory prints what is below it; there is nothing below
another. -/
def Tells (fs : Files) (start : Text) (hidden : Bool) (reveal : Text → Text → Option (List Text))
    (cs : List Text) (es : List (List Text)) : Prop :=
  Block fs start hidden cs es ∧
    if fs.isDir (fullPath start cs) then
      reveal (fullPath start cs) (front cs) = some (es.map (line fs start))
    else es = []

theorem Block.isPrefix {es : List (List Text)} (h : Block fs start hidden cs es) :
    ∀ y ∈ cs :: es, cs <+: y := by
  refine List.forall_mem_cons.mpr ⟨List.prefix_rfl, fun y hy => ?_⟩
  exact ((h.mem y).mp hy).below

/-- A path stands before what is below it. -/
theorem Block.pairwise_cons {es : List (List Text)} (h : Block fs start hidden cs es) :
    (cs :: es).Pairwise (· < ·) := by
  refine List.pairwise_cons.mpr ⟨fun y hy => ?_, h.sorted⟩
  have hbelow := (h.mem y).mp hy
  obtain ⟨t, rfl⟩ := hbelow.below
  refine lt_append_of_ne_nil _ ?_
  rintro rfl
  exact hbelow.ne (List.append_nil _)

variable {reveal : Text → Text → Option (List Text)}

/-- One turn of the second loop, in buffers that hold what is copied to them. -/
theorem revealEntries_cons (rest : List Text)
    (hshort : (relative (cs ++ [name])).length + 2 < 5100)
    (hfull : (fullPath start (cs ++ [name])).length < 5100)
    (hlstat : fs.isDir (fullPath start (cs ++ [name])) = true →
      fs.lstat (fullPath start (cs ++ [name])) = true) :
    revealEntries fs true reveal (fullPath start cs) (front cs) (name :: rest) =
      (if fs.isDir (fullPath start (cs ++ [name])) then
          reveal (fullPath start (cs ++ [name])) (front (cs ++ [name]))
        else some []).bind fun inner =>
        (revealEntries fs true reveal (fullPath start cs) (front cs) rest).map fun others =>
          line fs start (cs ++ [name]) :: (inner ++ others) := by
  have hpath : (fullPath start cs ++ '/' :: name).take 5099 = fullPath start (cs ++ [name]) := by
    rw [← fullPath_concat]
    exact List.take_of_length_le (by omega)
  have hdisplay : (front cs ++ name).take 5099 = relative (cs ++ [name]) := by
    rw [← relative_concat]
    exact List.take_of_length_le (by omega)
  have hquoted : (quoted (relative (cs ++ [name]))).take 5109 =
      quoted (relative (cs ++ [name])) := by
    have := length_quoted_le (relative (cs ++ [name]))
    exact List.take_of_length_le (by omega)
  have hfront : (relative (cs ++ [name]) ++ ['/']).take 5109 = front (cs ++ [name]) := by
    rw [front_concat, ← relative_concat]
    refine List.take_of_length_le ?_
    rw [List.length_append, List.length_singleton]
    omega
  have hgoes : (fs.lstat (fullPath start (cs ++ [name])) &&
      fs.isDir (fullPath start (cs ++ [name]))) = fs.isDir (fullPath start (cs ++ [name])) :=
    Bool.and_eq_right_iff_imp.mpr hlstat
  rw [revealEntries]
  simp only [hpath, hdisplay, hquoted, hfront, hgoes, Bool.and_true, line]

/-- **The second loop prints each entry, and what is below it right behind it.** -/
theorem revealEntries_eq {ns : List Text} (hns : ns.Pairwise (· < ·))
    (hshort : ∀ name ∈ ns, (relative (cs ++ [name])).length + 2 < 5100)
    (hfull : ∀ name ∈ ns, (fullPath start (cs ++ [name])).length < 5100)
    (hlstat : ∀ name ∈ ns, fs.isDir (fullPath start (cs ++ [name])) = true →
      fs.lstat (fullPath start (cs ++ [name])) = true)
    (htells : ∀ name ∈ ns, ∃ es, Tells fs start hidden reveal (cs ++ [name]) es) :
    ∃ es : List (List Text), revealEntries fs true reveal (fullPath start cs) (front cs) ns =
        some (es.map (line fs start)) ∧
      es.Pairwise (· < ·) ∧
      ∀ y, y ∈ es ↔ ∃ name ∈ ns, y = cs ++ [name] ∨ Below fs start hidden (cs ++ [name]) y := by
  induction ns with
  | nil => exact ⟨[], rfl, List.Pairwise.nil, by simp⟩
  | cons name ns ih =>
    obtain ⟨hname, hns⟩ := List.pairwise_cons.mp hns
    obtain ⟨hs, hshort⟩ := List.forall_mem_cons.mp hshort
    obtain ⟨hf, hfull⟩ := List.forall_mem_cons.mp hfull
    obtain ⟨hl, hlstat⟩ := List.forall_mem_cons.mp hlstat
    obtain ⟨⟨es, hblock, hreveal⟩, htells⟩ := List.forall_mem_cons.mp htells
    obtain ⟨others, hothers, hsorted, hmem⟩ := ih hns hshort hfull hlstat htells
    refine ⟨(cs ++ [name]) :: es ++ others, ?_, ?_, ?_⟩
    · rw [revealEntries_cons ns hs hf hl, hothers]
      split at hreveal
      · rename_i hdir
        rw [if_pos hdir, hreveal]
        simp
      · rename_i hdir
        rw [if_neg hdir, hreveal]
        simp
    · refine List.pairwise_append.mpr ⟨hblock.pairwise_cons, hsorted, fun y hy z hz => ?_⟩
      obtain ⟨t, rfl⟩ := hblock.isPrefix y hy
      obtain ⟨name', hname', hz⟩ := (hmem z).mp hz
      have hz : cs ++ [name'] <+: z := by
        rcases hz with rfl | hz
        · exact List.prefix_rfl
        · exact hz.below
      obtain ⟨u, rfl⟩ := hz
      simpa using append_cons_lt_append_cons cs (hname name' hname') t u
    · intro y
      rw [List.mem_append, List.mem_cons, hblock.mem, hmem, List.exists_mem_cons_iff]

/-- There is one such list. -/
theorem Block.unique {es es' : List (List Text)} (h : Block fs start hidden cs es)
    (h' : Block fs start hidden cs es') : es = es' := by
  refine List.Perm.eq_of_pairwise (fun _ _ _ _ hlt hlt' => absurd hlt' (lt_asymm hlt)) h.sorted
    h'.sorted ?_
  refine (List.perm_ext_iff_of_nodup (h.sorted.imp fun hlt => ne_of_lt hlt)
    (h'.sorted.imp fun hlt => ne_of_lt hlt)).mpr fun y => ?_
  rw [h.mem, h'.mem]

/-- There is nothing below what is no directory. -/
theorem Block.of_not_isDir (hne : cs ≠ []) (hdir : ¬fs.isDir (fullPath start cs) = true) :
    Block fs start hidden cs [] := by
  refine ⟨List.Pairwise.nil, fun y => iff_of_false List.not_mem_nil fun h => hdir ?_⟩
  obtain ⟨names, name, hreal, -⟩ := h.reach.through h.below h.ne
  exact hreal hne

/-! ## The whole tree -/

/-- An entry that is listed can be reached. -/
theorem reachable_of_mem_sorted (hfits : Fits fs start hidden) (hcs : Reachable fs start cs)
    (hreal : cs ≠ [] → fs.isDir (fullPath start cs) = true)
    (hread : fs.readDir (fullPath start cs) = some names) (hname : name ∈ sorted hidden names) :
    Reachable fs start (cs ++ [name]) ∧ Listed hidden name := by
  obtain ⟨hmem, hlisted⟩ := (mem_sorted (hfits.room cs names hcs hread)).mp hname
  exact ⟨.entry hcs hreal hread hmem hlisted.1 hlisted.2.1, hlisted⟩

/-- What is below a directory is one of its entries that are listed, or below one. -/
theorem below_iff (hfits : Fits fs start hidden) (hcs : Reachable fs start cs)
    (hvisible : Visible hidden cs) (hreal : cs ≠ [] → fs.isDir (fullPath start cs) = true)
    (hread : fs.readDir (fullPath start cs) = some names) :
    (∃ name ∈ sorted hidden names, y = cs ++ [name] ∨ Below fs start hidden (cs ++ [name]) y) ↔
      Below fs start hidden cs y := by
  have hne : ∀ t : List Text, t ≠ [] → cs ++ t ≠ cs := fun t ht heq =>
    ht (List.append_right_eq_self.mp heq)
  constructor
  · rintro ⟨name, hname, hy⟩
    obtain ⟨hreach, hlisted⟩ := reachable_of_mem_sorted hfits hcs hreal hread hname
    rcases hy with rfl | hy
    · exact ⟨hreach, hvisible.concat hlisted, List.prefix_append _ _,
        hne _ (List.cons_ne_nil _ _)⟩
    · refine ⟨hy.reach, hy.visible, (List.prefix_append _ _).trans hy.below, ?_⟩
      obtain ⟨t, rfl⟩ := hy.below
      rw [List.append_assoc]
      exact hne _ (List.cons_ne_nil _ _)
  · intro hy
    obtain ⟨names', name, -, hread', hmem, hdot, hdots, hpre⟩ := hy.reach.through hy.below hy.ne
    obtain rfl : names = names' := Option.some.inj (hread.symm.trans hread')
    have hvis : Visible hidden (cs ++ [name]) := hy.visible.of_isPrefix hpre
    have hlisted : Listed hidden name := ⟨hdot, hdots, hvis.imp id fun h =>
      h name (List.mem_append_right _ (List.mem_singleton_self _))⟩
    refine ⟨name, (mem_sorted (hfits.room cs names hcs hread)).mpr ⟨hmem, hlisted⟩, ?_⟩
    by_cases heq : y = cs ++ [name]
    · exact .inl heq
    · exact .inr ⟨hy.reach, hy.visible, hpre, heq⟩

/-- The directories that are come to can be opened. -/
theorem Open.readDir_ne_none (hopen : Open fs start hidden) (hcs : Reachable fs start cs)
    (hvisible : Visible hidden cs) (hreal : cs ≠ [] → fs.isDir (fullPath start cs) = true) :
    fs.readDir (fullPath start cs) ≠ none := by
  by_cases hne : cs = []
  · rw [hne, fullPath, List.flatMap_nil, List.append_nil]
    exact hopen.top
  · exact hopen.read cs hcs hvisible (hreal hne)

/-- **What is printed for a directory is what is below it**, if the fuel lasts for its depth. -/
theorem revealDir_eq (hfits : Fits fs start hidden) (hopen : Open fs start hidden) {depth fuel : ℕ}
    (hcs : Reachable fs start cs) (hvisible : Visible hidden cs)
    (hreal : cs ≠ [] → fs.isDir (fullPath start cs) = true)
    (hdepth : ∀ y, Reachable fs start y → cs <+: y → y.length ≤ cs.length + depth)
    (hfuel : depth < fuel) :
    ∃ es, Block fs start hidden cs es ∧
      revealDir fs hidden true fuel (fullPath start cs) (front cs) =
        some (es.map (line fs start)) := by
  induction fuel generalizing cs depth with
  | zero => exact absurd hfuel (Nat.not_lt_zero _)
  | succ fuel ih =>
    obtain ⟨names, hread⟩ :=
      Option.ne_none_iff_exists'.mp (hopen.readDir_ne_none hcs hvisible hreal)
    have hreach : ∀ name ∈ sorted hidden names,
        Reachable fs start (cs ++ [name]) ∧ Listed hidden name := fun name =>
      reachable_of_mem_sorted hfits hcs hreal hread
    have hfull : ∀ name ∈ sorted hidden names,
        (fullPath start (cs ++ [name])).length < 5100 := fun name hname =>
      hfits.short _ (hreach name hname).1
    have hlstat : ∀ name ∈ sorted hidden names, fs.isDir (fullPath start (cs ++ [name])) = true →
        fs.lstat (fullPath start (cs ++ [name])) = true := fun name hname =>
      hopen.lstat _ (hreach name hname).1 (hvisible.concat (hreach name hname).2) (by simp)
    have htells : ∀ name ∈ sorted hidden names,
        ∃ es, Tells fs start hidden (revealDir fs hidden true fuel) (cs ++ [name]) es := by
      intro name hname
      obtain ⟨hchild, hlisted⟩ := hreach name hname
      by_cases hdir : fs.isDir (fullPath start (cs ++ [name])) = true
      · have hlen := hdepth _ hchild (List.prefix_append _ _)
        rw [List.length_append, List.length_singleton] at hlen
        have hdepth' : ∀ y, Reachable fs start y → cs ++ [name] <+: y →
            y.length ≤ (cs ++ [name]).length + (depth - 1) := by
          intro y hy hpre
          have := hdepth y hy ((List.prefix_append _ _).trans hpre)
          rw [List.length_append, List.length_singleton]
          omega
        obtain ⟨es, hblock, heq⟩ :=
          ih hchild (hvisible.concat hlisted) (fun _ => hdir) hdepth' (by omega)
        exact ⟨es, hblock, by rw [if_pos hdir, heq]⟩
      · exact ⟨[], .of_not_isDir (by simp) hdir, by rw [if_neg hdir]⟩
    obtain ⟨es, heq, hsorted, hmem⟩ := revealEntries_eq
      (pairwise_sorted (hfits.distinct cs names hcs hread))
      (fun name hname => length_relative hfits.named (hfull name hname)) hfull hlstat htells
    refine ⟨es, ⟨hsorted, fun y => (hmem y).trans (below_iff hfits hcs hvisible hreal hread)⟩, ?_⟩
    rw [revealDir, hread]
    exact heq

/-- **`reveal -t` lists the tree**: every entry that can be reached, and is shown, once, the entries
of a directory in order, and behind each at once what is below it. -/
structure Lists (fs : Files) (start : Text) (hidden : Bool) (es : List (List Text)) : Prop where
  all : ∀ cs, cs ∈ es ↔ cs ≠ [] ∧ Reachable fs start cs ∧ Visible hidden cs
  once : es.Nodup
  inOrder : ∀ cs a b, [cs ++ [a], cs ++ [b]].Sublist es → a < b
  inBlocks : ∀ cs ∈ es, ∃ before block after, es = before ++ cs :: (block ++ after) ∧
    (∀ y ∈ block, cs <+: y) ∧ ∀ y ∈ before ++ after, ¬cs <+: y

theorem lists_of_block {es : List (List Text)} (h : Block fs start hidden [] es) :
    Lists fs start hidden es := by
  refine ⟨fun cs => ?_, ?_, fun cs a b hsub => ?_, fun cs hcs => block_of_sorted h.sorted hcs⟩
  · rw [h.mem]
    exact ⟨fun hb => ⟨hb.ne, hb.reach, hb.visible⟩,
      fun hb => ⟨hb.2.1, hb.2.2, List.nil_prefix, hb.1⟩⟩
  · exact h.sorted.imp fun hlt => ne_of_lt hlt
  · have hlt : cs ++ [a] < cs ++ [b] := by simpa using h.sorted.sublist hsub
    rcases lt_trichotomy a b with hab | rfl | hba
    · exact hab
    · exact absurd hlt (lt_irrefl _)
    · exact absurd hlt (lt_asymm (append_cons_lt_append_cons cs hba [] []))

/-- **With `-t` the whole tree is printed**, in preorder, with the line of each entry, if nothing
fails on the way. -/
theorem lists_revealDir (hfits : Fits fs start hidden) (hopen : Open fs start hidden) :
    ∃ es depth, Lists fs start hidden es ∧
      ∀ fuel, depth < fuel →
        revealDir fs hidden true fuel start [] = some (es.map (line fs start)) := by
  obtain ⟨depth, hdepth⟩ := hfits.finite
  have hstart : fullPath start [] = start := List.append_nil start
  have hrun : ∀ fuel, depth < fuel → ∃ es, Block fs start hidden [] es ∧
      revealDir fs hidden true fuel start [] = some (es.map (line fs start)) := by
    intro fuel hfuel
    have key := revealDir_eq hfits hopen .start (.inr nofun) (absurd rfl)
      (fun y hy _ => by simpa using hdepth y hy) hfuel
    rwa [hstart] at key
  obtain ⟨es, hblock, -⟩ := hrun (depth + 1) (Nat.lt_succ_self depth)
  refine ⟨es, depth, lists_of_block hblock, fun fuel hfuel => ?_⟩
  obtain ⟨es', hblock', heq⟩ := hrun fuel hfuel
  rwa [hblock.unique hblock']

/-- A directory with a file and a directory in it, which has a file with a space in its name. -/
private def someFiles : Files where
  readDir path :=
    if path = ['.'] then some [['.'], ['b'], ['.', '.'], ['a']]
    else if path = ['.', '/', 'a'] then some [['x', ' ', 'y'], ['.', '.'], ['.']]
    else none
  isDir path := path = ['.', '/', 'a']
  lstat _ := true

private theorem names_someFiles {path : Text} {names : List Text}
    (h : someFiles.readDir path = some names) :
    names = [['.'], ['b'], ['.', '.'], ['a']] ∨ names = [['x', ' ', 'y'], ['.', '.'], ['.']] := by
  simp only [someFiles] at h
  split at h
  · exact .inl (Option.some.inj h).symm
  · split at h
    · exact .inr (Option.some.inj h).symm
    · cases h

private theorem reachable_someFiles {cs : List Text} (h : Reachable someFiles ['.'] cs) :
    cs ∈ [[], [['b']], [['a']], [['a'], ['x', ' ', 'y']]] := by
  induction h with
  | start => exact List.mem_cons_self
  | @entry cs names name _ real read mem dot dots ih =>
    simp only [List.mem_cons, List.not_mem_nil, or_false] at ih
    rcases ih with rfl | rfl | rfl | rfl
    · obtain rfl : [['.'], ['b'], ['.', '.'], ['a']] = names := Option.some.inj read
      simp_all
    · exact absurd (real (by simp)) (by decide)
    · obtain rfl : [['x', ' ', 'y'], ['.', '.'], ['.']] = names := Option.some.inj read
      simp_all
    · exact absurd (real (by simp)) (by decide)

private theorem fits_someFiles : Fits someFiles ['.'] false := by
  refine ⟨by decide, fun cs names _ hread => ?_, fun cs names _ hread => ?_, fun cs hcs => ?_, 2,
    fun cs hcs => ?_⟩
  · rcases names_someFiles hread with rfl | rfl <;> decide
  · rcases names_someFiles hread with rfl | rfl <;> decide
  · have hcs := reachable_someFiles hcs
    simp only [List.mem_cons, List.not_mem_nil, or_false] at hcs
    rcases hcs with rfl | rfl | rfl | rfl <;> decide
  · have hcs := reachable_someFiles hcs
    simp only [List.mem_cons, List.not_mem_nil, or_false] at hcs
    rcases hcs with rfl | rfl | rfl | rfl <;> decide

private theorem open_someFiles : Open someFiles ['.'] false := by
  refine ⟨by decide, fun _ _ _ _ _ => rfl, fun cs _ _ hdir => ?_⟩
  have hpath : fullPath ['.'] cs = ['.', '/', 'a'] := of_decide_eq_true hdir
  rw [hpath]
  decide

/-- `reveal -t`. -/
theorem lists_revealDir_two :
    revealDir someFiles false true 2 ['.'] [] =
        some [['a', '/', '\n'], "'a/x y'\n".toList, ['b', '\n']] ∧
      ∃ es depth, Lists someFiles ['.'] false es ∧
        ∀ fuel, depth < fuel → revealDir someFiles false true fuel ['.'] [] =
          some (es.map (line someFiles ['.'])) :=
  ⟨by decide, lists_revealDir fits_someFiles open_someFiles⟩

/-- A directory `a` and nothing in it, which may not be opened or not be asked about. -/
private def oneDirectory (opens answers : Bool) : Files where
  readDir path :=
    if path = ['.'] then some [['a']]
    else if opens ∧ path = ['.', '/', 'a'] then some []
    else none
  isDir path := path = ['.', '/', 'a']
  lstat _ := answers

private theorem reachable_oneDirectory {opens answers : Bool} {cs : List Text} :
    Reachable (oneDirectory opens answers) ['.'] cs ↔ cs ∈ [[], [['a']]] := by
  simp only [List.mem_cons, List.not_mem_nil, or_false]
  constructor
  · intro h
    induction h with
    | start => exact .inl rfl
    | @entry cs names name _ real read mem dot dots ih =>
      rcases ih with rfl | rfl
      · obtain rfl : [['a']] = names := Option.some.inj read
        exact .inr (by rw [List.mem_singleton.mp mem]; rfl)
      · cases opens
        · cases read
        · obtain rfl : [] = names := Option.some.inj read
          cases mem
  · rintro (rfl | rfl)
    · exact .start
    · have hstart : Reachable (oneDirectory opens answers) ['.'] [] := .start
      exact hstart.entry (absurd rfl) rfl (List.mem_singleton_self _) (by decide) (by decide)

private theorem fits_oneDirectory (opens answers : Bool) :
    Fits (oneDirectory opens answers) ['.'] false := by
  have hnames : ∀ path names, (oneDirectory opens answers).readDir path = some names →
      names = [['a']] ∨ names = [] := by
    intro path names h
    simp only [oneDirectory] at h
    split at h
    · exact .inl (Option.some.inj h).symm
    · exact .inr (Option.some.inj (Option.ite_none_right_eq_some.mp h).2).symm
  refine ⟨by decide, fun cs names _ hread => ?_, fun cs names _ hread => ?_, fun cs hcs => ?_, 1,
    fun cs hcs => ?_⟩
  · rcases hnames _ _ hread with rfl | rfl <;> decide
  · rcases hnames _ _ hread with rfl | rfl <;> decide
  · have hcs := reachable_oneDirectory.mp hcs
    simp only [List.mem_cons, List.not_mem_nil, or_false] at hcs
    rcases hcs with rfl | rfl <;> decide
  · have hcs := reachable_oneDirectory.mp hcs
    simp only [List.mem_cons, List.not_mem_nil, or_false] at hcs
    rcases hcs with rfl | rfl <;> decide

/-- Its list is `a/`, so anything else that is printed is wrong. -/
private theorem not_printed {opens answers : Bool} {out : List Text}
    (hrun : ∀ n, revealDir (oneDirectory opens answers) false true (n + 2) ['.'] [] = some out)
    (hne : out ≠ [['a', '/', '\n']]) :
    ¬ ∃ es depth, Lists (oneDirectory opens answers) ['.'] false es ∧
      ∀ fuel, depth < fuel → revealDir (oneDirectory opens answers) false true fuel ['.'] [] =
        some (es.map (line (oneDirectory opens answers) ['.'])) := by
  rintro ⟨es, depth, hlists, hprint⟩
  have hmem : ∀ cs, cs ∈ es ↔ cs = [['a']] := by
    intro cs
    rw [hlists.all, reachable_oneDirectory]
    simp only [List.mem_cons, List.not_mem_nil, or_false]
    constructor
    · exact fun ⟨hcs, hor, _⟩ => hor.resolve_left hcs
    · rintro rfl
      exact ⟨by simp, .inr rfl, .inr (by decide)⟩
  have hes : es = [[['a']]] :=
    List.perm_singleton.mp ((List.perm_ext_iff_of_nodup hlists.once (List.nodup_singleton _)).mpr
      fun cs => by rw [hmem, List.mem_singleton])
  have heq := (hrun depth).symm.trans (hprint (depth + 2) (by omega))
  rw [hes] at heq
  exact hne (Option.some.inj heq)

/-- **A directory that may not be opened, or that `lstat` has no answer for**: there is a line more
that is no path, or the line ends without `/`. -/
theorem not_lists_revealDir :
    (Fits (oneDirectory false true) ['.'] false ∧
      revealDir (oneDirectory false true) false true 2 ['.'] [] =
        some [['a', '/', '\n'], noSuchDirectory] ∧
      ¬ ∃ es depth, Lists (oneDirectory false true) ['.'] false es ∧
        ∀ fuel, depth < fuel → revealDir (oneDirectory false true) false true fuel ['.'] [] =
          some (es.map (line (oneDirectory false true) ['.']))) ∧
    Fits (oneDirectory true false) ['.'] false ∧
      revealDir (oneDirectory true false) false true 2 ['.'] [] = some [['a', '\n']] ∧
      ¬ ∃ es depth, Lists (oneDirectory true false) ['.'] false es ∧
        ∀ fuel, depth < fuel → revealDir (oneDirectory true false) false true fuel ['.'] [] =
          some (es.map (line (oneDirectory true false) ['.'])) :=
  ⟨⟨fits_oneDirectory false true, rfl, not_printed (fun _ => rfl) (by decide)⟩,
    fits_oneDirectory true false, rfl, not_printed (fun _ => rfl) (by decide)⟩

end MiniProject.Shell.Reveal
