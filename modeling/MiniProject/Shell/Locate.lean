import MiniProject.Shell.Launch

/-!
# Shell/Locate — what `locate` says and what will run

`locate` prints every place where a command is, and `resolving` takes the first one: the directory
the shell is in, then those of `PATH`.  Each has its own search and its own test, and they find the
same.  Only if there is no such directory any more does `locate` give up without a word, where
`resolving` goes on to `PATH`: so `locate` predicts what will run exactly if `getcwd` succeeds
(`predicts_iff`).
-/

namespace MiniProject.Shell

/-- `stat`, which tells whether a file is a regular one, and `access(path, X_OK)`. -/
structure Probe where
  stat : Text → Option Bool
  access : Text → Bool

/-- `is_executable_file`. -/
def isExecutableFile (p : Probe) (path : Text) : Bool :=
  match p.stat path with
  | none => false
  | some regular => if !regular then false else p.access path

/-- The environment with the files told by `p`. -/
def Probe.env (p : Probe) (env : Env) : Env := { env with executable := isExecutableFile p }

/-! ## `locating` -/

/-- `check_dir`: the path it prints, if any. -/
def checkDir (p : Probe) (dir target : Text) : List Text :=
  let fullPath := (dir ++ '/' :: target).take 4999
  if p.stat fullPath = some true ∧ p.access fullPath then [fullPath] else []

/-- The directories that `strtok` finds in `path_copy`. -/
def searchDirs (env : Env) : List Text := pathDirs (env.path.getD [])

/-- A line of `locate`. -/
inductive Located
  | invalidSyntax
  | path (fullPath : Text)
  | notFound (target : Text)
  deriving DecidableEq, Repr

/-- …as it is printed. -/
def Located.text : Located → Text
  | .invalidSyntax => "locate: invalid syntax\n".toList
  | .path fullPath => fullPath ++ ['\n']
  | .notFound target => "locate: command not found (".toList ++ target ++ ")\n".toList

/-- One turn of the loop of `locating`, over the given directories. -/
def locateIn (p : Probe) (dirs : List Text) (target : Text) : List Located :=
  let found := dirs.flatMap fun dir => checkDir p dir target
  if found = [] then [.notFound target] else found.map .path

/-- `locating`. -/
def locating (p : Probe) (env : Env) (args : List Text) : List Located :=
  if args = [] then [.invalidSyntax]
  else
    match env.cwd with
    | none => []
    | some cwd => args.flatMap (locateIn p (cwd :: searchDirs env))

/-- The first path among the lines. -/
def firstPath : List Located → Option Text
  | .path fullPath :: _ => some fullPath
  | _ :: lines => firstPath lines
  | [] => none

/-! ## Two searches -/

variable {p : Probe} {env : Env} {name : Text} {dirs : List Text}

theorem isExecutableFile_iff (path : Text) :
    isExecutableFile p path = true ↔ p.stat path = some true ∧ p.access path = true := by
  rw [isExecutableFile]
  rcases p.stat path with _ | _ | _ <;> simp

/-- A path that fits both buffers. -/
theorem joinPath_of_short {dir : Text} (h : (dir ++ '/' :: name).length < 5000) :
    joinPath dir name = (dir ++ '/' :: name).take 4999 := by
  rw [joinPath, List.take_of_length_le (by omega), List.take_of_length_le (by omega)]

/-- **The search that stops finds the first of what the search that goes on finds.** -/
theorem find?_eq_head? (h : ∀ dir ∈ dirs, (dir ++ '/' :: name).length < 5000) :
    (dirs.map fun dir => joinPath dir name).find? (isExecutableFile p) =
      (dirs.flatMap fun dir => checkDir p dir name).head? := by
  induction dirs with
  | nil => rfl
  | cons dir dirs ih =>
    obtain ⟨hdir, hdirs⟩ := List.forall_mem_cons.mp h
    rw [List.map_cons, List.flatMap_cons, List.find?_cons, joinPath_of_short hdir, checkDir]
    split
    · rename_i hexec
      rw [if_pos ((isExecutableFile_iff _).mp hexec)]
      rfl
    · rename_i hexec
      have htest := mt (isExecutableFile_iff (p := p) _).mpr (Bool.eq_false_iff.mp hexec)
      rw [if_neg htest, ih hdirs]
      rfl

theorem firstPath_map (paths : List Text) : firstPath (paths.map .path) = paths.head? := by
  cases paths <;> rfl

theorem firstPath_locateIn :
    firstPath (locateIn p dirs name) = (dirs.flatMap fun dir => checkDir p dir name).head? := by
  rw [locateIn]
  split
  · rename_i hnil
    rw [hnil]
    rfl
  · exact firstPath_map _

theorem notFound_mem_locateIn :
    .notFound name ∈ locateIn p dirs name ↔ firstPath (locateIn p dirs name) = none := by
  rw [firstPath_locateIn, List.head?_eq_none_iff, locateIn]
  split
  · rename_i hnil
    exact iff_of_true (List.mem_singleton_self _) hnil
  · rename_i hne
    exact iff_of_false (by simp) hne

/-- `resolving` of a plain name. -/
theorem resolving_plain (hslash : '/' ∉ name) (hpercent : name.head? ≠ some '%') :
    resolving (p.env env) name =
      ((env.cwd.toList ++ searchDirs env).map fun dir => joinPath dir name).find?
        (isExecutableFile p) := by
  have hname : stripped name = name := by
    refine stripped.eq_2 name fun rest hrest => hpercent ?_
    rw [hrest]
    rfl
  have hdirs : (env.path.map pathDirs).getD [] = searchDirs env := by
    rw [searchDirs]
    cases env.path <;> rfl
  rw [resolving, hname, if_neg hslash]
  simp only [if_neg hpercent, ← hdirs]
  rfl

/-- …and of one with a `%`. -/
theorem resolving_percent (hslash : '/' ∉ name) :
    resolving (p.env env) ('%' :: name) =
      ((searchDirs env).map fun dir => joinPath dir name).find? (isExecutableFile p) := by
  have hdirs : (env.path.map pathDirs).getD [] = searchDirs env := by
    rw [searchDirs]
    cases env.path <;> rfl
  rw [resolving, stripped, if_neg hslash, ← hdirs]
  rfl

/-- `locate` predicts what `name` and `%name` run: **the first path it prints, and nothing if it
says so**; with `%`, without the directory the shell is in. -/
structure Predicts (p : Probe) (env : Env) (name : Text) : Prop where
  first : resolving (p.env env) name = firstPath (locating p env [name])
  missing : resolving (p.env env) name = none ↔ .notFound name ∈ locating p env [name]
  percent : resolving (p.env env) ('%' :: name) = firstPath (locateIn p (searchDirs env) name)

/-- **`locate` predicts what will run exactly if `getcwd` succeeds.** -/
theorem predicts_iff (hslash : '/' ∉ name) (hpercent : name.head? ≠ some '%')
    (hshort : ∀ dir ∈ env.cwd.toList ++ searchDirs env, (dir ++ '/' :: name).length < 5000) :
    Predicts p env name ↔ env.cwd ≠ none := by
  have hplain : resolving (p.env env) name = firstPath
      (locateIn p (env.cwd.toList ++ searchDirs env) name) := by
    rw [resolving_plain hslash hpercent, find?_eq_head? hshort, firstPath_locateIn]
  rcases hcwd : env.cwd with _ | cwd
  · refine iff_of_false (fun h => ?_) (absurd rfl)
    have hlines : locating p env [name] = [] := by
      rw [locating, hcwd]
      rfl
    have hnone : resolving (p.env env) name = none := by
      rw [h.first, hlines]
      rfl
    rw [h.missing, hlines] at hnone
    cases hnone
  · refine iff_of_true ?_ (Option.some_ne_none cwd)
    have hlines : locating p env [name] = locateIn p (cwd :: searchDirs env) name := by
      rw [locating, hcwd, if_neg (List.cons_ne_nil _ _)]
      exact List.flatMap_singleton _ _
    rw [hcwd] at hplain
    refine ⟨hplain.trans (by rw [hlines]; rfl), ?_, ?_⟩
    · rw [hlines, notFound_mem_locateIn, hplain]
      rfl
    · rw [resolving_percent hslash, firstPath_locateIn]
      exact find?_eq_head? fun dir hdir => hshort dir (List.mem_append_right _ hdir)

/-- `ls`, from the root; it is in `/bin` only. -/
theorem predicts_iff_ls :
    let ls : Text := ['/', 'b', 'i', 'n', '/', 'l', 's']
    let p : Probe := ⟨fun path => if path = ls then some true else none, fun _ => true⟩
    let env : Env := ⟨fun _ => false, some ['/'], some ['/', 'b', 'i', 'n'], fun _ => true,
      fun _ => true, true, true, true⟩
    locating p env [['l', 's']] = [.path ls] ∧ Predicts p env ['l', 's'] := by
  intro ls p env
  exact ⟨by decide, (predicts_iff (by decide) (by decide) (by decide)).mpr (Option.some_ne_none _)⟩

/-- **From a directory that is gone** `ls` runs, and `locate` says nothing about it. -/
theorem not_predicts :
    let ls : Text := ['/', 'b', 'i', 'n', '/', 'l', 's']
    let p : Probe := ⟨fun path => if path = ls then some true else none, fun _ => true⟩
    let env : Env := ⟨fun _ => false, none, some ['/', 'b', 'i', 'n'], fun _ => true,
      fun _ => true, true, true, true⟩
    resolving (p.env env) ['l', 's'] = some ls ∧ locating p env [['l', 's']] = [] ∧
      ¬Predicts p env ['l', 's'] := by
  intro ls p env
  have hruns : resolving (p.env env) ['l', 's'] = some ls := by decide
  have hlines : locating p env [['l', 's']] = [] := by decide
  refine ⟨hruns, hlines, fun h => ?_⟩
  have hfirst := h.first
  rw [hruns, hlines] at hfirst
  cases hfirst

end MiniProject.Shell
