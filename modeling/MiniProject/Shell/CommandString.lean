import MiniProject.Machinery.Joins
import MiniProject.Shell.Control
import MiniProject.Shell.Names

/-!
# Shell/CommandString — the command of a job is its pipeline, cut to the buffer

`build_command_string` appends with `strncat(out, s, outsize - strlen(out) - 1)`, and the size is a
`size_t`: once `out` had more than `outsize - 1` bytes it would wrap, and nothing would be cut any
more.  `buildCommandStringChecked` stops there.  It never does: at every append `out` has the first
`outsize - 1` bytes of what would be there with no bound (`strncatChecked_take`), and so it has at
the end (`buildCommandString_spec`).
-/

namespace MiniProject.Shell

/-- `strncat(out, s, outsize - strlen(out) - 1)`, which is refused if the size wraps or the NUL has
no place in `out`. -/
def strncatChecked (outsize : ℕ) (out s : Text) : Option Text :=
  if out.length + 1 ≤ outsize then
    if (strncat outsize out s).length < outsize then some (strncat outsize out s) else none
  else none

/-- The inner loop of `build_command_string` with these checks. -/
def catArgsChecked (outsize : ℕ) (out : Text) (argv : List Text) : Option Text :=
  argv.zipIdx.foldlM (fun out a =>
    (if a.2 > 0 then strncatChecked outsize out [' '] else some out).bind
      (strncatChecked outsize · a.1)) out

/-- `build_command_string` with these checks; `out[0] = '\0'` needs a byte too. -/
def buildCommandStringChecked (pipeline : List Commands) (outsize : ℕ) : Option Text :=
  if 0 < outsize then
    pipeline.zipIdx.foldlM (fun out c =>
      (if c.2 > 0 then strncatChecked outsize out " | ".toList else some out).bind
        (catArgsChecked outsize · c.1.argv)) []
  else none

/-- **The pipeline as a line**: the arguments of a stage with single blanks between them, the stages
with ` | `. -/
def commandLine (pipeline : List Commands) : Text :=
  " | ".toList.intercalate (pipeline.map fun c => [' '].intercalate c.argv)

variable {outsize : ℕ} {out s out' : Text}

/-! ## What the checks let through -/

theorem strncat_of_checked (h : strncatChecked outsize out s = some out') :
    strncat outsize out s = out' := by
  rw [strncatChecked] at h
  split at h
  · split at h
    · exact Option.some.inj h
    · cases h
  · cases h

/-- A separator in front of all pieces but the first, likewise. -/
theorem separated_of_checked {k : ℕ} (h : (if k > 0 then strncatChecked outsize out s else some out)
    = some out') : (if k > 0 then strncat outsize out s else out) = out' := by
  by_cases hk : k > 0
  · rw [if_pos hk] at h ⊢
    exact strncat_of_checked h
  · rw [if_neg hk] at h ⊢
    exact Option.some.inj h

theorem catArgs_of_checked {argv : List Text} (h : catArgsChecked outsize out argv = some out') :
    catArgs outsize out argv = out' := by
  refine foldl_eq_of_foldlM (fun out a out' h => ?_) h
  obtain ⟨out₁, hsep, harg⟩ := Option.bind_eq_some_iff.mp h
  rw [separated_of_checked hsep]
  exact strncat_of_checked harg

/-- Where no check fails the checks make no difference. -/
theorem buildCommandString_of_checked {pipeline : List Commands}
    (h : buildCommandStringChecked pipeline outsize = some out) :
    buildCommandString pipeline outsize = out := by
  rw [buildCommandStringChecked] at h
  split at h
  · refine foldl_eq_of_foldlM (fun out c out' h => ?_) h
    obtain ⟨out₁, hsep, hargs⟩ := Option.bind_eq_some_iff.mp h
    rw [separated_of_checked hsep]
    exact catArgs_of_checked hargs
  · cases h

/-! ## No check fails -/

/-- **One append**: `out` has the first `n` bytes of `x`, and then of `x` and `s`. -/
theorem strncatChecked_take (n : ℕ) (x s : Text) :
    strncatChecked (n + 1) (x.take n) s = some ((x ++ s).take n) := by
  have hlen : (x.take n).length = min n x.length := List.length_take
  have hcat : strncat (n + 1) (x.take n) s = (x ++ s).take n := by
    have hroom : n + 1 - (x.take n).length - 1 = n - x.length := by omega
    rw [strncat, hroom, List.take_append]
  have hfits : ((x ++ s).take n).length ≤ n := List.length_take_le n _
  rw [strncatChecked, if_pos (by omega), hcat, if_pos (by omega)]

/-- A stage: its arguments joined. -/
theorem catArgsChecked_take (n : ℕ) (x : Text) (argv : List Text) :
    catArgsChecked (n + 1) (x.take n) argv = some ((x ++ [' '].intercalate argv).take n) := by
  have hloop := foldlM_zipIdx_intercalate (List.take n) (strncatChecked (n + 1) · [' '])
    (strncatChecked (n + 1)) (fun x => strncatChecked_take n x [' '])
    (fun x a => strncatChecked_take n x (id a)) argv x
  rwa [List.map_id] at hloop

/-- **The whole string.** -/
theorem buildCommandStringChecked_eq (pipeline : List Commands) (h : 0 < outsize) :
    buildCommandStringChecked pipeline outsize
      = some ((commandLine pipeline).take (outsize - 1)) := by
  obtain ⟨n, rfl⟩ : ∃ n, outsize = n + 1 := ⟨outsize - 1, by omega⟩
  have hloop := foldlM_zipIdx_intercalate (List.take n) (strncatChecked (n + 1) · " | ".toList)
    (fun out (c : Commands) => catArgsChecked (n + 1) out c.argv)
    (fun x => strncatChecked_take n x " | ".toList)
    (fun x c => catArgsChecked_take n x c.argv) pipeline []
  rw [List.take_nil, List.nil_append] at hloop
  rw [buildCommandStringChecked, if_pos h]
  exact hloop

/-- **`build_command_string` cuts the pipeline to the buffer**: no size wraps and no NUL is out of
place, what is left in `out` is the line's first `outsize - 1` bytes, and the command of a job that
is registered with it is the line's first 511. -/
theorem buildCommandString_spec (pipeline : List Commands) (outsize : ℕ) (h : 1 ≤ outsize) :
    buildCommandStringChecked pipeline outsize = some (buildCommandString pipeline outsize) ∧
      buildCommandString pipeline outsize = (commandLine pipeline).take (outsize - 1) ∧
      ∀ (t : JobTable) (pgid : Pid) (pids : List Pid) (names : List Text) (background : Bool)
        (num : ℕ) (t' : JobTable), t.registerJob pgid pids names
          (buildCommandString pipeline 512) background = .ok (num, t') →
        ∃ j, t'.jobs[t.jobs.length]? = some j ∧ j.command = (commandLine pipeline).take 511 := by
  have hchecked := buildCommandStringChecked_eq pipeline h
  refine ⟨?_, buildCommandString_of_checked hchecked, ?_⟩
  · rw [buildCommandString_of_checked hchecked, hchecked]
  · intro t pgid pids names background num t' hreg
    obtain ⟨j, hjobs, -, -, -, hcommand⟩ := JobTable.jobs_registerJob hreg
    refine ⟨j, by rw [hjobs, List.getElem?_concat_length], ?_⟩
    have hfull := buildCommandStringChecked_eq pipeline (show 0 < 512 by decide)
    rw [hcommand, buildCommandString_of_checked hfull]
    exact List.take_of_length_le (List.length_take_le _ _)

/-- `ls -l | wc` in eight bytes. -/
theorem buildCommandString_spec_ls :
    buildCommandString [{ argv := ["ls".toList, "-l".toList] }, { argv := ["wc".toList] }] 8
      = "ls -l |".toList :=
  (buildCommandString_spec [{ argv := ["ls".toList, "-l".toList] }, { argv := ["wc".toList] }] 8
    (by decide)).2.1

end MiniProject.Shell
