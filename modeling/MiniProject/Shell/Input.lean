import MiniProject.Shell.Redirect

/-!
# Shell/Input — the staged input is the concatenation of what `write` takes

`build_input_tmp` reads every file through a description of its own and writes through that of the
staging file.  A round of `copyLoop` moves at most one buffer from behind the one position to behind
the other, as much of it as `write` takes (`copyLoop_spec`), a file is one such loop
(`copyFiles_spec`), and rewinding leaves what was taken at position 0 (`buildInputTmp_ready`).  That
is the concatenation of the input files exactly if none that holds something is passed over, or cut
short by a `write` (`stagedInput_eq_iff`).
-/

namespace MiniProject.Shell

/-! ## What `write` takes -/

/-- **What the staging file receives** of a file that holds `bs`, from round `k` on: of every
bufferful what `write` takes. -/
def received (taken : ℕ → ℕ → ℕ) (k : ℕ) (bs : List Byte) : List Byte :=
  if bs = [] then []
  else
    (bs.take bufSize).take (taken k (bs.take bufSize).length) ++
      received taken (k + 1) (bs.drop bufSize)
termination_by bs.length
decreasing_by
  rename_i hne
  rw [List.length_drop]
  exact Nat.sub_lt (List.length_pos_iff.mpr hne) (Nat.succ_pos _)

/-- Every `write` of the loop takes all it is given, from round `k` on and with that many bytes to
come. -/
def TakesAll (taken : ℕ → ℕ → ℕ) (k size : ℕ) : Prop :=
  ∀ j, min bufSize (size - j * bufSize) ≤ taken (k + j) (min bufSize (size - j * bufSize))

/-- One round, and the others. -/
theorem takesAll_iff (taken : ℕ → ℕ → ℕ) (k size : ℕ) : TakesAll taken k size ↔
    min bufSize size ≤ taken k (min bufSize size) ∧ TakesAll taken (k + 1) (size - bufSize) := by
  have hmore (j : ℕ) : size - bufSize - j * bufSize = size - (j + 1) * bufSize := by
    rw [Nat.sub_sub, Nat.succ_mul, Nat.add_comm]
  constructor
  · intro h
    refine ⟨by simpa using h 0, fun j => ?_⟩
    rw [hmore, Nat.add_right_comm]
    exact h (j + 1)
  · rintro ⟨hfirst, h⟩ (_ | j)
    · simpa using hfirst
    · have hj := h j
      rwa [hmore, Nat.add_right_comm] at hj

theorem received_nil (taken : ℕ → ℕ → ℕ) (k : ℕ) : received taken k [] = [] := by
  rw [received, if_pos rfl]

theorem length_received_le (taken : ℕ → ℕ → ℕ) (k : ℕ) (bs : List Byte) :
    (received taken k bs).length ≤ bs.length := by
  induction k, bs using received.induct with
  | case1 k => rw [received_nil]
  | case2 k bs hne ih =>
    have hsplit := congrArg List.length (List.take_append_drop bufSize bs)
    have htake := List.length_take_le' (taken k (bs.take bufSize).length) (bs.take bufSize)
    rw [received, if_neg hne, List.length_append]
    rw [List.length_append] at hsplit
    omega

/-- Two pieces that are no longer than two others make up the same list only if they are these. -/
theorem append_eq_append_iff_of_length_le {α : Type} {a a' b b' : List α}
    (ha : a'.length ≤ a.length) (hb : b'.length ≤ b.length) :
    a' ++ b' = a ++ b ↔ a' = a ∧ b' = b := by
  constructor
  · intro h
    have hlen := congrArg List.length h
    rw [List.length_append, List.length_append] at hlen
    exact List.append_inj h (by omega)
  · rintro ⟨rfl, rfl⟩
    rfl

/-- **A file arrives whole exactly if every `write` takes all it is given.** -/
theorem received_eq_self_iff (taken : ℕ → ℕ → ℕ) (k : ℕ) (bs : List Byte) :
    received taken k bs = bs ↔ TakesAll taken k bs.length := by
  induction k, bs using received.induct with
  | case1 k =>
    refine iff_of_true (received_nil taken k) fun j => ?_
    rw [List.length_nil, Nat.zero_sub, Nat.min_zero]
    exact Nat.zero_le _
  | case2 k bs hne ih =>
    have hle := List.length_take_le' (taken k (bs.take bufSize).length) (bs.take bufSize)
    have hrest := length_received_le taken (k + 1) (bs.drop bufSize)
    rw [received, if_neg hne]
    nth_rewrite 4 [← List.take_append_drop bufSize bs]
    rw [append_eq_append_iff_of_length_le hle hrest, ih, List.take_eq_self_iff,
      takesAll_iff taken k, List.length_take, List.length_drop]

theorem takesAll_whole (i k size : ℕ) : TakesAll (Taken.whole i) k size := fun _ => Nat.le_refl _

/-- What a file adds to the staged input: nothing when it cannot be opened. -/
def inputBytes (env : Env) (taken : ℕ → ℕ → ℕ) (store : Store Handle File Byte) (f : Text) :
    List Byte :=
  if env.readable f then received taken 0 (store.bytes (.path f)) else []

/-- What the files add, the first one of them with index `i`. -/
def inputsFrom (env : Env) (taken : Taken) (store : Store Handle File Byte) (i : ℕ)
    (fs : List Text) : List Byte :=
  (fs.zipIdx i).flatMap fun x => inputBytes env (taken x.2) store x.1

/-- **The staged input** of a command. -/
def stagedInput (env : Env) (taken : Taken) (store : Store Handle File Byte) (c : Commands) :
    List Byte :=
  inputsFrom env taken store 0 c.inFiles

/-- What a file adds is no longer than what it holds… -/
theorem length_inputBytes_le (env : Env) (taken : ℕ → ℕ → ℕ) (store : Store Handle File Byte)
    (f : Text) : (inputBytes env taken store f).length ≤ (store.bytes (.path f)).length := by
  rw [inputBytes]
  split
  · exact length_received_le taken 0 _
  · exact Nat.zero_le _

/-- …and is all of that unless the file is passed over, or a `write` is short, and there was
something to lose. -/
theorem inputBytes_eq_iff {env : Env} {taken : ℕ → ℕ → ℕ} {store : Store Handle File Byte}
    {f : Text} : inputBytes env taken store f = store.bytes (.path f) ↔
      (env.readable f = true ∧ TakesAll taken 0 (store.bytes (.path f)).length) ∨
        store.bytes (.path f) = [] := by
  rw [inputBytes]
  by_cases hread : env.readable f = true
  · rw [if_pos hread, received_eq_self_iff]
    refine ⟨fun h => .inl ⟨hread, h⟩, ?_⟩
    rintro (⟨-, h⟩ | hnil)
    · exact h
    · rw [← received_eq_self_iff, hnil, received_nil]
  · rw [if_neg hread, or_iff_right fun h => hread h.1]
    exact eq_comm

theorem length_flatMap_le {α β : Type} {f g : α → List β}
    (hfg : ∀ x, (f x).length ≤ (g x).length) (l : List α) :
    (l.flatMap f).length ≤ (l.flatMap g).length := by
  induction l with
  | nil => exact Nat.le_refl _
  | cons x l ih =>
    rw [List.flatMap_cons, List.flatMap_cons, List.length_append, List.length_append]
    exact Nat.add_le_add (hfg x) ih

/-- Pieces that are no longer than others make up the same list only if they are these. -/
theorem flatMap_eq_flatMap_iff {α β : Type} {f g : α → List β} {l : List α}
    (hfg : ∀ x, (f x).length ≤ (g x).length) :
    l.flatMap f = l.flatMap g ↔ ∀ x ∈ l, f x = g x := by
  induction l with
  | nil => exact iff_of_true rfl fun x hx => nomatch hx
  | cons x l ih =>
    rw [List.flatMap_cons, List.flatMap_cons,
      append_eq_append_iff_of_length_le (hfg x) (length_flatMap_le hfg l), ih, List.forall_mem_cons]

/-- **The staged input is the concatenation of all files** exactly if none that holds something is
passed over, or cut short by a `write`. -/
theorem stagedInput_eq_iff {env : Env} {taken : Taken} {store : Store Handle File Byte}
    {c : Commands} :
    stagedInput env taken store c = c.inFiles.flatMap (fun f => store.bytes (.path f)) ↔
      ∀ x ∈ c.inFiles.zipIdx,
        (env.readable x.1 = true ∧ TakesAll (taken x.2) 0 (store.bytes (.path x.1)).length) ∨
          store.bytes (.path x.1) = [] := by
  have hfiles : c.inFiles.flatMap (fun f => store.bytes (.path f))
      = c.inFiles.zipIdx.flatMap fun x => store.bytes (.path x.1) := by
    conv_lhs => rw [← List.zipIdx_map_fst 0 c.inFiles, List.flatMap_map]
  rw [stagedInput, inputsFrom, hfiles, flatMap_eq_flatMap_iff fun x => length_inputBytes_le ..]
  exact forall₂_congr fun x _ => inputBytes_eq_iff

/-! ## The copy -/

/-- The staging file holds `data`, and its description stands behind it. -/
structure Filled (store : Store Handle File Byte) (data : List Byte) : Prop where
  desc : ∃ sent, store.desc .inTmp = some ⟨.inTmp, false, data.length, sent⟩
  data_eq : store.data .inTmp = some data

namespace Filled

variable {store : Store Handle File Byte} {data : List Byte}

theorem bytes_eq (h : Filled store data) : store.bytes .inTmp = data :=
  Store.bytes_of_data h.data_eq

/-- A write through the description of the staging file appends. -/
theorem write (h : Filled store data) (bs : List Byte) :
    Filled (store.write .inTmp bs) (data ++ bs) := by
  obtain ⟨sent, hdesc⟩ := h.desc
  refine ⟨⟨sent ++ bs, ?_⟩, ?_⟩
  · rw [Store.desc_write_self hdesc, List.length_append]
    rfl
  · have hend := Store.data_write_of_atEnd hdesc (.inr (by rw [h.bytes_eq])) bs
    rwa [h.bytes_eq] at hend

/-- …and touches no other file. -/
theorem data_write (h : Filled store data) (bs : List Byte) {g : File} (hg : g ≠ .inTmp) :
    (store.write .inTmp bs).data g = store.data g := by
  obtain ⟨sent, hdesc⟩ := h.desc
  refine store.data_write_of_ne (fun d hd => ?_) bs
  rw [hdesc] at hd
  cases hd
  exact hg

end Filled

/-- What copying the input files with an index in `P` leaves alone: the files but for the staging
file, and the descriptions but for those of these files and of the staging file. -/
structure InputFrame (P : ℕ → Prop) (store store' : Store Handle File Byte) : Prop where
  data : ∀ g, g ≠ .inTmp → store'.data g = store.data g
  desc : ∀ h, h ≠ .inTmp → (∀ k, P k → h ≠ .inFile k) → store'.desc h = store.desc h

namespace InputFrame

variable {P Q : ℕ → Prop} {store store' store'' : Store Handle File Byte}

theorem refl (P : ℕ → Prop) (store : Store Handle File Byte) : InputFrame P store store :=
  ⟨fun _ _ => rfl, fun _ _ _ => rfl⟩

theorem trans (h : InputFrame P store store') (h' : InputFrame P store' store'') :
    InputFrame P store store'' :=
  ⟨fun g hg => (h'.data g hg).trans (h.data g hg),
    fun x hx hk => (h'.desc x hx hk).trans (h.desc x hx hk)⟩

theorem mono (h : InputFrame P store store') (hPQ : ∀ k, P k → Q k) : InputFrame Q store store' :=
  ⟨h.data, fun x hx hk => h.desc x hx fun k hP => hk k (hPQ k hP)⟩

end InputFrame

/-- A read leaves what it does not take. -/
theorem drop_length_take (l : List Byte) (k : ℕ) : l.drop (l.take k).length = l.drop k := by
  rw [List.length_take]
  rcases Nat.le_total k l.length with hk | hk
  · rw [Nat.min_eq_left hk]
  · rw [Nat.min_eq_right hk, List.drop_length, List.drop_of_length_le hk]

/-- Rounds that cover what is behind the position of the source copy what is taken of it. -/
theorem copyLoop_spec (taken : ℕ → ℕ → ℕ) {src dst i : ℕ} {f : Text} (k fuel : ℕ) {s : Sys}
    {data : List Byte} {pos : ℕ}
    (hsrc : s.fds.get src = some (.inFile i)) (hdst : s.fds.get dst = some .inTmp)
    (hdesc : s.store.desc (.inFile i) = some ⟨.path f, false, pos, []⟩)
    (hfill : Filled s.store data) (hfuel : ((s.store.bytes (.path f)).drop pos).length < fuel) :
    Filled (copyLoop taken src dst k fuel s).store
        (data ++ received taken k ((s.store.bytes (.path f)).drop pos)) ∧
      InputFrame (· = i) s.store (copyLoop taken src dst k fuel s).store ∧
      ∃ pos', (copyLoop taken src dst k fuel s).store.desc (.inFile i)
        = some ⟨.path f, false, pos', []⟩ := by
  induction fuel generalizing k s data pos with
  | zero => exact absurd hfuel (Nat.not_lt_zero _)
  | succ fuel ih =>
    have hself := Store.desc_read_self hdesc bufSize
    have hframe : InputFrame (· = i) s.store (s.store.read (.inFile i) bufSize).2 :=
      ⟨fun g _ => by rw [Store.data_read],
        fun x _ hk => s.store.desc_read_of_ne (hk i rfl) bufSize⟩
    have hfill' : Filled (s.store.read (.inFile i) bufSize).2 data := by
      obtain ⟨sent, hsent⟩ := hfill.desc
      refine ⟨⟨sent, ?_⟩, ?_⟩
      · rw [s.store.desc_read_of_ne Handle.noConfusion, hsent]
      · rw [Store.data_read, hfill.data_eq]
    have hbuf := Store.read_fst hdesc bufSize
    have hbytes := s.store.bytes_read (.inFile i) bufSize (.path f)
    rw [copyLoop, s.read_eq hsrc bufSize]
    generalize s.store.read (.inFile i) bufSize = result at hself hframe hfill' hbuf hbytes ⊢
    obtain ⟨buf, store⟩ := result
    dsimp only at hself hframe hfill' hbuf hbytes ⊢
    split
    · rename_i hnil
      have hrest : (s.store.bytes (.path f)).drop pos = [] := by
        rw [hbuf, List.take_eq_nil_iff] at hnil
        exact hnil.resolve_left (Nat.succ_ne_zero _)
      rw [hrest, received_nil, List.append_nil]
      exact ⟨hfill', hframe, _, hself⟩
    · rename_i hne
      have hpos : 0 < buf.length := List.length_pos_iff.mpr hne
      have hrest : (s.store.bytes (.path f)).drop pos ≠ [] := fun hnil => hne (by
        rw [hbuf, hnil, List.take_nil])
      have hdrop := drop_length_take ((s.store.bytes (.path f)).drop pos) bufSize
      rw [← hbuf, List.drop_drop] at hdrop
      have hle : buf.length ≤ ((s.store.bytes (.path f)).drop pos).length := by
        rw [hbuf]
        exact List.length_take_le' _ _
      rw [received, if_neg hrest, ← hbuf, ← List.append_assoc]
      generalize buf.take (taken k buf.length) = part
      have hwrite := Sys.write_eq (s := { s with store }) hdst part
      rw [hwrite]
      dsimp only
      have hkeep : (store.write .inTmp part).bytes (.path f) = s.store.bytes (.path f) := by
        rw [← hbytes, Store.bytes, Store.bytes, hfill'.data_write part File.noConfusion]
      have hframe' : InputFrame (· = i) s.store (store.write .inTmp part) :=
        hframe.trans ⟨fun g hg => hfill'.data_write part hg,
          fun x hx _ => store.desc_write_of_ne hx part⟩
      have hdesc' : (store.write .inTmp part).desc (.inFile i)
          = some ⟨.path f, false, pos + buf.length, []⟩ := by
        rw [← hself, store.desc_write_of_ne Handle.noConfusion]
      have hnext := ih (k + 1) (s := { s with store := store.write .inTmp part }) hsrc hdst hdesc'
        (hfill'.write part) (by
          rw [hkeep, ← List.drop_drop, List.length_drop]
          omega)
      rw [hkeep, hdrop] at hnext
      exact ⟨hnext.1, hframe'.trans hnext.2.1, hnext.2.2⟩

/-- The frame keeps what every file adds. -/
theorem InputFrame.inputsFrom_eq {env : Env} {taken : Taken} {P : ℕ → Prop}
    {store store' : Store Handle File Byte} (h : InputFrame P store store') (i : ℕ)
    (fs : List Text) : inputsFrom env taken store' i fs = inputsFrom env taken store i fs := by
  refine List.flatMap_congr fun x _ => ?_
  rw [inputBytes, inputBytes, Store.bytes, Store.bytes, h.data _ File.noConfusion]

/-- One file that can be opened: what it adds, and its description. -/
theorem copyFile_spec {taken : ℕ → ℕ → ℕ} {tfd i : ℕ} (f : Text) {s : Sys} {data : List Byte}
    (hfd : s.fds.get tfd = some .inTmp) (hfill : Filled s.store data) {fd : ℕ} {s₁ s₂ : Sys}
    (hopen : s.openRead (.inFile i) (.path f) = (fd, s₁))
    (hloop : copyLoop taken fd tfd 0 ((s₁.store.bytes (.path f)).length + 1) s₁ = s₂) :
    Filled s₂.store (data ++ received taken 0 (s.store.bytes (.path f))) ∧
      InputFrame (· = i) s.store s₂.store ∧
      (s₂.close fd).fds.get tfd = some .inTmp ∧
      (s₂.store.desc (.inFile i)).map Desc.file = some (.path f) := by
  cases hopen
  subst hloop
  have hne : tfd ≠ (s.fds.alloc (.inFile i)).1 := by
    intro h
    have hfree : s.fds.get (s.fds.alloc (.inFile i)).1 = none := s.fds.get_lowest
    rw [← h, hfd] at hfree
    cases hfree
  have hfd' : (s.fds.alloc (.inFile i)).2.get tfd = some .inTmp :=
    (s.fds.get_alloc_of_ne hne).trans hfd
  have hfill' : Filled (s.store.openRead (.inFile i) (.path f)) data := by
    obtain ⟨sent, hsent⟩ := hfill.desc
    refine ⟨⟨sent, ?_⟩, hfill.data_eq⟩
    rw [s.store.desc_openRead_of_ne Handle.noConfusion, hsent]
  have hframe : InputFrame (· = i) s.store (s.store.openRead (.inFile i) (.path f)) :=
    ⟨fun _ _ => rfl, fun x _ hk => s.store.desc_openRead_of_ne (hk i rfl) _⟩
  obtain ⟨hall, hrest, pos, hdesc⟩ := copyLoop_spec taken 0
    (s := { s with
      fds := (s.fds.alloc (.inFile i)).2
      store := s.store.openRead (.inFile i) (.path f) })
    (((s.store.openRead (.inFile i) (.path f)).bytes (.path f)).length + 1)
    (s.fds.get_alloc_self (.inFile i)) hfd' (s.store.desc_openRead_self _ _) hfill'
    (by rw [List.drop_zero]; exact Nat.lt_succ_self _)
  rw [List.drop_zero] at hall
  refine ⟨hall, hframe.trans hrest, ?_, ?_⟩
  · rw [Sys.close]
    dsimp only
    rw [FdTable.get_close_of_ne _ hne, fds_copyLoop]
    exact hfd'
  · exact hdesc ▸ rfl

/-- **The loop over the files** appends what each of them adds, and opens those that can be
opened. -/
theorem copyFiles_spec (env : Env) {taken : Taken} {tfd i : ℕ} (fs : List Text) {s : Sys}
    {data : List Byte}
    (hfd : s.fds.get tfd = some .inTmp) (hfill : Filled s.store data)
    (hnone : ∀ k, i ≤ k → s.store.desc (.inFile k) = none) :
    Filled (copyFiles env taken tfd i fs s).store (data ++ inputsFrom env taken s.store i fs) ∧
      InputFrame (i ≤ ·) s.store (copyFiles env taken tfd i fs s).store ∧
      (copyFiles env taken tfd i fs s).fds.get tfd = some .inTmp ∧
      ∀ k, ((copyFiles env taken tfd i fs s).store.desc (.inFile (i + k))).map Desc.file
        = (fs[k]?.filter env.readable).map File.path := by
  induction fs generalizing i s data with
  | nil =>
    rw [copyFiles, inputsFrom, List.zipIdx_nil, List.flatMap_nil, List.append_nil]
    exact ⟨hfill, InputFrame.refl _ _, hfd, fun k => by rw [hnone _ (Nat.le_add_right i k)]; rfl⟩
  | cons f fs ih =>
    rw [copyFiles, inputsFrom, List.zipIdx_cons, List.flatMap_cons, ← List.append_assoc]
    by_cases hread : env.readable f
    · rw [if_pos hread]
      generalize hopen : s.openRead (.inFile i) (.path f) = opened
      obtain ⟨fd, s₁⟩ := opened
      dsimp only
      generalize hloop : copyLoop (taken i) fd tfd 0 ((s₁.store.bytes (.path f)).length + 1) s₁
        = s₂
      obtain ⟨hfill', hframe, hfd', hdesc⟩ := copyFile_spec f hfd hfill hopen hloop
      obtain ⟨hall, hrest, hkeep, hfiles⟩ := ih (i := i + 1) (s := s₂.close fd) hfd' hfill'
        fun k hk => by
          have hsame := hframe.desc (.inFile k) Handle.noConfusion
            fun j hj => by rw [hj, ne_eq, Handle.inFile.injEq]; omega
          rw [Sys.store_close, hsame, hnone k (by omega)]
      rw [Sys.store_close, hframe.inputsFrom_eq] at hall
      have hf : inputBytes env (taken i) s.store f
          = received (taken i) 0 (s.store.bytes (.path f)) := if_pos hread
      rw [hf]
      refine ⟨hall, (hframe.mono fun k hk => hk ▸ Nat.le_refl _).trans
        (hrest.mono fun k hk => by omega), hkeep, ?_⟩
      intro k
      cases k with
      | zero =>
        have hfirst := hrest.desc (.inFile i) Handle.noConfusion
          fun j hj => by rw [ne_eq, Handle.inFile.injEq]; omega
        rw [Nat.add_zero i, hfirst, Sys.store_close, hdesc]
        simp [Option.filter, hread]
      | succ k =>
        rw [← Nat.add_assoc, Nat.add_right_comm, hfiles k]
        rfl
    · rw [if_neg hread]
      have hf : inputBytes env (taken i) s.store f = [] := if_neg hread
      obtain ⟨hall, hrest, hkeep, hfiles⟩ := ih (i := i + 1) hfd hfill
        fun k hk => hnone k (by omega)
      rw [hf, List.append_nil]
      refine ⟨hall, hrest.mono fun k hk => by omega, hkeep, ?_⟩
      intro k
      cases k with
      | zero =>
        have hfirst := hrest.desc (.inFile i) Handle.noConfusion
          fun j hj => by rw [ne_eq, Handle.inFile.injEq]; omega
        rw [Nat.add_zero i, hfirst, hnone i (Nat.le_refl i)]
        simp [Option.filter, hread]
      | succ k =>
        rw [← Nat.add_assoc, Nat.add_right_comm, hfiles k]
        rfl

/-- What `build_input_tmp` asks for: every file is there, and a staging file where one is needed. -/
def InputReady (env : Env) (store : Store Handle File Byte) (c : Commands) : Prop :=
  (∀ f ∈ c.inFiles, store.data (.path f) ≠ none) ∧ (c.inFiles ≠ [] → env.mkstempIn = true)

/-- **The state behind `build_input_tmp`**: what was taken of the input staged and rewound, every
file that can be opened opened, and all else as it was. -/
structure InputStaged (env : Env) (taken : Taken) (c : Commands)
    (store store' : Store Handle File Byte) (inFd : InFd) : Prop where
  frame : InputFrame (fun _ => True) store store'
  none_iff : inFd = .none ↔ c.inFiles = []
  staged : c.inFiles ≠ [] → store'.data .inTmp = some (stagedInput env taken store c) ∧
    ∃ sent, store'.desc .inTmp = some ⟨.inTmp, false, 0, sent⟩
  opened : ∀ k, (store'.desc (.inFile k)).map Desc.file
    = (c.inFiles[k]?.filter env.readable).map File.path

/-- Opening the staging file, copying and rewinding. -/
theorem stageInput {env : Env} {taken : Taken} {c : Commands} {s s₀ : Sys} {tfd : ℕ}
    (hnone : ∀ h, s.store.desc h = none) (hnil : c.inFiles ≠ [])
    (hopen : s.openWrite .inTmp .inTmp false = (tfd, s₀)) :
    InputStaged env taken c s.store ((copyFiles env taken tfd 0 c.inFiles s₀).rewind tfd).store
      (.fd tfd) := by
  cases hopen
  have hfill : Filled (s.store.openWrite .inTmp .inTmp false) [] :=
    ⟨⟨[], s.store.desc_openWrite_self _ _ _⟩, s.store.data_openWrite_self _ _ _⟩
  have hframe : InputFrame (fun _ => True) s.store (s.store.openWrite .inTmp .inTmp false) :=
    ⟨fun g hg => s.store.data_openWrite_of_ne hg _,
      fun x hx _ => s.store.desc_openWrite_of_ne hx _ _⟩
  obtain ⟨hall, hcopy, hfd, hopened⟩ := copyFiles_spec env c.inFiles (i := 0)
    (s := { s with fds := (s.fds.alloc .inTmp).2, store := s.store.openWrite .inTmp .inTmp false })
    (s.fds.get_alloc_self .inTmp) hfill
    fun k _ => (s.store.desc_openWrite_of_ne Handle.noConfusion _ _).trans (hnone _)
  rw [hframe.inputsFrom_eq, List.nil_append] at hall
  have hrewind := Sys.rewind_eq hfd
  obtain ⟨sent, hdesc⟩ := hall.desc
  refine ⟨?_, by simp [hnil], fun _ => ?_, fun k => ?_⟩
  · refine (hframe.trans (hcopy.mono fun _ _ => trivial)).trans ?_
    rw [hrewind]
    exact ⟨fun _ _ => rfl, fun x hx _ => Store.desc_rewind_of_ne _ hx⟩
  · rw [hrewind]
    exact ⟨hall.data_eq, sent, Store.desc_rewind_self hdesc⟩
  · have hk := hopened k
    rw [Nat.zero_add] at hk
    rw [hrewind, ← hk]
    exact congrArg _ (Store.desc_rewind_of_ne _ Handle.noConfusion)

/-- **`build_input_tmp` stages the input** when it is asked for what is there. -/
theorem buildInputTmp_ready {env : Env} {c : Commands} {s : Sys} (taken : Taken)
    (hnone : ∀ h, s.store.desc h = none) (h : InputReady env s.store c) :
    ∃ inFd s', buildInputTmp env taken c s = (inFd, s') ∧ inFd ≠ .failed ∧
      InputStaged env taken c s.store s'.store inFd := by
  obtain ⟨hfiles, hmk⟩ := h
  rw [buildInputTmp]
  by_cases hnil : c.inFiles = []
  · rw [if_pos (by rw [hnil]; rfl)]
    refine ⟨_, _, rfl, InFd.noConfusion, InputFrame.refl _ _, by simp [hnil], (absurd hnil ·), ?_⟩
    exact fun k => by rw [hnone, hnil]; rfl
  · rw [if_neg (by simpa using hnil), if_neg (by simpa [Option.isNone_iff_eq_none] using hfiles),
      if_neg (by simp [hmk hnil])]
    exact ⟨_, _, rfl, InFd.noConfusion, stageInput hnone hnil rfl⟩

/-- **…and refuses otherwise**, having started nothing. -/
theorem buildInputTmp_not_ready {env : Env} {c : Commands} {s : Sys} (taken : Taken)
    (h : ¬ InputReady env s.store c) : (buildInputTmp env taken c s).1 = .failed := by
  rw [buildInputTmp]
  split
  · rename_i hnil
    refine absurd ⟨?_, ?_⟩ h <;> simp [List.length_eq_zero_iff.mp hnil]
  · split
    · rfl
    · rename_i hnil hmissing
      split
      · rfl
      · rename_i hmk
        refine absurd ⟨?_, ?_⟩ h
        · simpa [Option.isNone_iff_eq_none] using hmissing
        · exact fun _ => by simpa using hmk

end MiniProject.Shell
