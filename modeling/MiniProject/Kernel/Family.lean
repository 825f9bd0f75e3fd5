import MiniProject.Kernel.Tasks

/-!
# Kernel/Family — parents, zombies and who sleeps for them

`kfork` writes `np->parent`, `kexit` hands the children over to `init` and tells the parent,
`kwait` frees a zombie; all three hold `wait_lock`.  Whenever it is free, every zombie has a parent
that is there to wait for it (`Parents`), and that does not sleep in `kwait` (`Told`).
-/

namespace MiniProject.Kernel

namespace Tasks

variable {build : Build} {s s' : Tasks} {e : Event} {p q r np : Slot} {pc pc₀ : Pc}

/-! ## Parents -/

/-- **Every parent is alive**: a process gets one when it is about to start, and keeps one until it
is freed; one that exits has handed its children over when it comes to its end. -/
structure Parents (s : Tasks) : Prop where
  alive : ∀ q y, (s.proc q).parent = some y → (s.proc y).age = .alive
  young : ∀ q, (s.proc q).age = .free ∨ (s.proc q).age = .embryo →
    (s.proc q).parent = none ∨ ∃ p, s.pc p = .adopting q
  grown : ∀ q, (s.proc q).age = .alive ∨ (s.proc q).age = .zombie → q ≠ s.initproc →
    (s.proc q).parent ≠ none
  adopting : ∀ p np, s.pc p = .adopting np → (s.proc np).parent = some p
  orphaning : ∀ p rest, (s.pc p).orphaning = some rest → ∀ q, (s.proc q).parent = some p → q ∈ rest

/-- **A step of one process**, with one slot of the table written. -/
theorem Parents.update (h : s.Parents) (hpc : s'.pc = Function.update s.pc p pc)
    (hinit : s'.initproc = s.initproc) (hproc : ∀ r, r ≠ q → s'.proc r = s.proc r)
    (halive : ∀ y, (s'.proc q).parent = some y → (s'.proc y).age = .alive)
    (hdead : (s'.proc q).age ≠ .alive → (s.proc q).age = .alive → ∀ r, (s.proc r).parent ≠ some q)
    (hyoung : (s'.proc q).age = .free ∨ (s'.proc q).age = .embryo →
      (s'.proc q).parent = none ∨ ∃ r, s'.pc r = .adopting q)
    (hgrown : (s'.proc q).age = .alive ∨ (s'.proc q).age = .zombie → q ≠ s.initproc →
      (s'.proc q).parent ≠ none)
    (hold : ∀ np, np ≠ q → s.pc p ≠ .adopting np)
    (hnew : ∀ np, pc = .adopting np → (s'.proc np).parent = some p)
    (hadopting : ∀ r, r ≠ p → s.pc r = .adopting q → (s'.proc q).parent = some r)
    (horphaning : ∀ rest, pc.orphaning = some rest → ∀ r, (s'.proc r).parent = some p → r ∈ rest)
    (hothers : ∀ r, r ≠ p → (s'.proc q).parent = some r → (s.proc q).parent ≠ some r →
      (s.pc r).orphaning = none) : s'.Parents := by
  have hself : s'.pc p = pc := by rw [hpc, Function.update_self]
  have hother {r : Slot} (hr : r ≠ p) : s'.pc r = s.pc r := by
    rw [hpc, Function.update_of_ne hr]
  refine ⟨fun r y hr => ?_, fun r hr => ?_, fun r hr hri => ?_, fun r np hr => ?_,
    fun r rest hr r' hr' => ?_⟩
  · by_cases hrq : r = q
    · subst hrq
      exact halive y hr
    · rw [hproc r hrq] at hr
      have hy := h.alive r y hr
      by_cases hyq : y = q
      · subst hyq
        by_contra hne
        exact hdead hne hy r hr
      · rw [hproc y hyq, hy]
  · by_cases hrq : r = q
    · subst hrq
      exact hyoung hr
    · rw [hproc r hrq] at hr ⊢
      refine (h.young r hr).imp_right fun ⟨r', hr'⟩ => ⟨r', ?_⟩
      have hrp : r' ≠ p := by
        rintro rfl
        exact hold r hrq hr'
      rw [hother hrp, hr']
  · rw [hinit] at hri
    by_cases hrq : r = q
    · subst hrq
      exact hgrown hr hri
    · rw [hproc r hrq] at hr ⊢
      exact h.grown r hr hri
  · by_cases hrp : r = p
    · subst hrp
      exact hnew np (hself.symm.trans hr)
    · rw [hother hrp] at hr
      by_cases hnq : np = q
      · subst hnq
        exact hadopting r hrp hr
      · rw [hproc np hnq]
        exact h.adopting r np hr
  · by_cases hrp : r = p
    · subst hrp
      rw [hself] at hr
      exact horphaning rest hr r' hr'
    · rw [hother hrp] at hr
      by_cases hrq : r' = q
      · subst hrq
        by_cases hsame : (s.proc r').parent = some r
        · exact h.orphaning r rest hr r' hsame
        · cases (hothers r hrp hr' hsame).symm.trans hr
      · rw [hproc r' hrq] at hr'
        exact h.orphaning r rest hr r' hr'

/-- Nobody's parent, and no age, changes. -/
theorem Parents.move (h : s.Parents) (hpc : s'.pc = Function.update s.pc p pc)
    (hinit : s'.initproc = s.initproc)
    (hage : ∀ q, (s'.proc q).age = (s.proc q).age)
    (hparent : ∀ q, (s'.proc q).parent = (s.proc q).parent)
    (hold : ∀ np, s.pc p ≠ .adopting np) (hnew : ∀ np, pc ≠ .adopting np)
    (horphaning : ∀ rest, pc.orphaning = some rest → ∀ q, (s.proc q).parent = some p → q ∈ rest) :
    s'.Parents := by
  have hself : s'.pc p = pc := by rw [hpc, Function.update_self]
  have hother {r : Slot} (hr : r ≠ p) : s'.pc r = s.pc r := by
    rw [hpc, Function.update_of_ne hr]
  refine ⟨fun q y => ?_, fun q hq => ?_, fun q hq => ?_, fun r np hr => ?_, fun r rest hr q => ?_⟩
  · rw [hparent, hage]
    exact h.alive q y
  · rw [hage] at hq
    rw [hparent]
    refine (h.young q hq).imp_right fun ⟨r, hr⟩ => ⟨r, ?_⟩
    have hrp : r ≠ p := by
      rintro rfl
      exact hold q hr
    rw [hother hrp, hr]
  · rw [hage] at hq
    rw [hinit, hparent]
    exact h.grown q hq
  · rw [hparent]
    by_cases hrp : r = p
    · subst hrp
      exact absurd (hself.symm.trans hr) (hnew np)
    · exact h.adopting r np ((hother hrp).symm.trans hr)
  · rw [hparent]
    by_cases hrp : r = p
    · subst hrp
      rw [hself] at hr
      exact horphaning rest hr q
    · rw [hother hrp] at hr
      exact h.orphaning r rest hr q

/-- …nor does any program counter. -/
theorem Parents.calm (h : s.Parents) (hpc : s'.pc = s.pc) (hinit : s'.initproc = s.initproc)
    (hage : ∀ q, (s'.proc q).age = (s.proc q).age)
    (hparent : ∀ q, (s'.proc q).parent = (s.proc q).parent) : s'.Parents := by
  refine ⟨fun q y => ?_, fun q => ?_, fun q => ?_, fun r np => ?_, fun r rest hr q => ?_⟩
  · rw [hparent, hage]
    exact h.alive q y
  · rw [hage, hparent, hpc]
    exact h.young q
  · rw [hage, hparent, hinit]
    exact h.grown q
  · rw [hpc, hparent]
    exact h.adopting r np
  · rw [hpc] at hr
    rw [hparent]
    exact h.orphaning r rest hr q

theorem parent_modify {f : Proc → Proc} (hf : (f (s.proc q)).parent = (s.proc q).parent)
    (r : Slot) : ((s.modify q f).proc r).parent = (s.proc r).parent :=
  proc_modify_rel (R := fun x y => y.parent = x.parent) (fun _ => rfl) hf r

/-- A slot that is free has no parent. -/
theorem Parents.parent_of_free (h : s.Parents) (hcontrol : s.Control)
    (hq : (s.proc q).age = .free) : (s.proc q).parent = none := by
  refine (h.young q (.inl hq)).resolve_right fun ⟨r, hr⟩ => ?_
  cases hq.symm.trans (hcontrol.embryo r q (by rw [hr]; rfl))

/-- While one process holds `wait_lock` no other does. -/
theorem Control.not_holds (h : s.Control) (hp : (s.pc p).holds) (hr : r ≠ p) :
    (s.pc r).holds = false :=
  Bool.eq_false_iff.mpr fun hin => hr (h.guarded.eq (a := r) (b := p) hin hp)

theorem Control.not_holds_of_free (h : s.Control) (hlk : s.waitLock = none) (r : Slot) :
    (s.pc r).holds = false := by
  have hguarded := h.guarded
  rw [hlk] at hguarded
  exact Bool.eq_false_iff.mpr hguarded.not_inside

/-- A new child has no parent yet. -/
theorem Parents.fork (h : s.Parents) (hcontrol : s.Control) (hp : s.At p .user)
    (hnp : (s.proc np).state = .unused) : (s.kfork p np .done).Parents := by
  have hfree := age_of_unused hnp
  have hne : np ≠ p := hp.ne (by rw [hfree]; nofun)
  have hnone := h.parent_of_free hcontrol hfree
  have hreset : (s.setPc np .user).Parents := by
    refine h.move rfl rfl (fun _ => rfl) (fun _ => rfl) (fun np' hr => ?_) nofun nofun
    have hbusy := hcontrol.not_busy (p := np) (by rw [hfree]; nofun)
    rw [hr] at hbusy
    cases hbusy
  have hnone' : ((s.kfork p np .done).proc np).parent = none := by
    rw [proc_kfork_self]
    exact hnone
  have hpc : (s.setPc np .user).pc p = .user := (Function.update_of_ne hne.symm _ _).trans hp.1
  refine hreset.update (p := p) (q := np) rfl rfl (fun r => proc_kfork_of_ne)
    (fun y hy => nomatch hnone'.symm.trans hy) (fun _ ha => nomatch hfree.symm.trans ha)
    (fun _ => .inl hnone') (fun ha => ?_) (fun _ _ hr => nomatch hpc.symm.trans hr) nofun
    (fun r hr hr' => ?_) nofun (fun r _ hr => nomatch hnone'.symm.trans hr)
  · rw [age_kfork] at ha
    rcases ha with ha | ha <;> cases ha
  · have hr' : s.pc r = .adopting np := by
      by_cases hrn : r = np
      · rw [hrn] at hr'
        cases (Function.update_self _ _ _).symm.trans hr'
      · exact (Function.update_of_ne hrn _ _).symm.trans hr'
    cases hfree.symm.trans (hcontrol.embryo r np (by rw [hr']; rfl))

/-- **A process gets its parent.** -/
theorem Parents.adopt (h : s.Parents) (hcontrol : s.Control) (hp : s.At p (.forked np))
    (hlk : s.waitLock = none) :
    Parents { (s.modify np ({ · with parent := some p })).setPc p (.adopting np) with
      waitLock := some p } := by
  have hembryo := hcontrol.embryo p np (by rw [hp.1]; rfl)
  have hne : np ≠ p := hp.ne (by rw [hembryo]; nofun)
  have hout := hcontrol.not_holds_of_free hlk
  have hnp : ((s.modify np ({ · with parent := some p })).proc np).parent = some p := by
    rw [proc_modify_self]
  have hage : ((s.modify np ({ · with parent := some p })).proc np).age = .embryo := by
    rw [proc_modify_self]
    exact hembryo
  have halive : ((s.modify np ({ · with parent := some p })).proc p).age = .alive := by
    rw [proc_modify_of_ne hne.symm]
    exact hp.age
  refine h.update (q := np) rfl rfl (fun r => proc_modify_of_ne) (fun y hy => ?_)
    (fun _ ha => nomatch hembryo.symm.trans ha) (fun _ => .inr ⟨p, Function.update_self _ _ _⟩)
    (fun _ _ hnone => nomatch hnp.symm.trans hnone) (fun _ _ hr => nomatch hp.1.symm.trans hr)
    (fun np' hnp' => ?_) (fun r _ hr => ?_) nofun fun r _ _ _ => ?_
  · cases hnp.symm.trans hy
    exact halive
  · cases hnp'
    exact hnp
  · exact absurd hr (Pc.ne_adopting_of_not_holds (hout r))
  · exact Pc.orphaning_of_not_holds (hout r)

/-- The child starts. -/
theorem Parents.ready (h : s.Parents) (hcontrol : s.Control) (hp : s.At p (.adopting np)) :
    ((s.modify np ({ · with state := .runnable })).release p .user).Parents := by
  have hembryo := hcontrol.embryo p np (by rw [hp.1]; rfl)
  have hne : np ≠ p := hp.ne (by rw [hembryo]; nofun)
  have hparent := h.adopting p np hp.1
  have hnp : ((s.modify np ({ · with state := .runnable })).proc np).parent = some p := by
    rw [proc_modify_self]
    exact hparent
  have hage : ((s.modify np ({ · with state := .runnable })).proc np).age = .alive := by
    rw [proc_modify_self]
    rfl
  have halive : ((s.modify np ({ · with state := .runnable })).proc p).age = .alive := by
    rw [proc_modify_of_ne hne.symm]
    exact hp.age
  refine h.update (q := np) rfl rfl (fun r => proc_modify_of_ne) (fun y hy => ?_)
    (fun hna => absurd hage hna) (fun ha => ?_) (fun _ _ hnone => nomatch hnp.symm.trans hnone)
    (fun np' hne' hr => ?_) nofun (fun r hr hr' => ?_) nofun (fun r _ hr hr' => absurd ?_ hr')
  · cases hnp.symm.trans hy
    exact halive
  · rcases ha with ha | ha <;> cases hage.symm.trans ha
  · cases hp.1.symm.trans hr
    exact hne' rfl
  · exact absurd (hcontrol.unique r p np (by rw [hr']; rfl) (by rw [hp.1]; rfl)) hr
  · rw [hparent, ← hnp]
    exact hr

/-- A process that has a parent, and is not about to start, has started. -/
theorem Parents.not_young (h : s.Parents) (hq : (s.proc q).parent = some p)
    (hp : s.pc p ≠ .adopting q) : (s.proc q).age ≠ .free ∧ (s.proc q).age ≠ .embryo := by
  have hnot (hyoung : (s.proc q).age = .free ∨ (s.proc q).age = .embryo) : False := by
    rcases h.young q hyoung with hnone | ⟨r, hr⟩
    · cases hq.symm.trans hnone
    · cases hq.symm.trans (h.adopting r q hr)
      exact hp hr
  exact ⟨fun ha => hnot (.inl ha), fun ha => hnot (.inr ha)⟩

/-- **A child is handed over to `init`.** -/
theorem Parents.orphan (h : s.Parents) (hcontrol : s.Control) {status : ℤ} {rest : List Slot}
    (hp : s.At p (.reparent status (q :: rest))) (hq : (s.proc q).parent = some p) :
    ((s.modify q ({ · with parent := some s.initproc })).setPc p
      (.wakeInit status rest (List.finRange nproc))).Parents := by
  have hinit : p ≠ s.initproc := hcontrol.exits p _ (by rw [hp.1]; rfl)
  have hnew : ((s.modify q ({ · with parent := some s.initproc })).proc q).parent
      = some s.initproc := by rw [proc_modify_self]
  have hage (r : Slot) : ((s.modify q ({ · with parent := some s.initproc })).proc r).age
      = (s.proc r).age := age_modify rfl r
  obtain ⟨hfree, hembryo⟩ := h.not_young hq (by rw [hp.1]; nofun)
  have hout (r : Slot) (hr : r ≠ p) := hcontrol.not_holds (p := p) (by rw [hp.1]; rfl) hr
  refine h.update (q := q) rfl rfl (fun r => proc_modify_of_ne) (fun y hy => ?_)
    (fun hna ha => absurd ((hage q).trans ha) hna) (fun hy => ?_)
    (fun _ _ hnone => nomatch hnew.symm.trans hnone) (fun _ _ hr => nomatch hp.1.symm.trans hr)
    nofun (fun r hr hr' => absurd hr' (Pc.ne_adopting_of_not_holds (hout r hr)))
    (fun rest' hrest r hr => ?_) fun r hr _ _ => Pc.orphaning_of_not_holds (hout r hr)
  · cases hnew.symm.trans hy
    exact (hage s.initproc).trans hcontrol.init
  · rcases hy with hy | hy
    · exact absurd ((hage q).symm.trans hy) hfree
    · exact absurd ((hage q).symm.trans hy) hembryo
  · cases hrest
    have hrq : r ≠ q := by
      rintro rfl
      cases hnew.symm.trans hr
      exact hinit rfl
    have hr : (s.proc r).parent = some p := by
      rw [← proc_modify_of_ne (s := s) (f := ({ · with parent := some s.initproc })) hrq]
      exact hr
    have hmem := h.orphaning p (q :: rest) (by rw [hp.1]; rfl) r hr
    exact (List.mem_cons.mp hmem).resolve_left hrq

/-- Nobody has a parent that comes to the end of `kexit`. -/
theorem Parents.die (h : s.Parents) (hcontrol : s.Control) {status : ℤ} {ticks : ℕ}
    (hp : s.At p (.dying status)) :
    ((s.modify p (·.exit status ticks)).release p .dead).Parents := by
  have hinit : p ≠ s.initproc := hcontrol.exits p _ (by rw [hp.1]; rfl)
  have hnone (r : Slot) : (s.proc r).parent ≠ some p := fun hr =>
    List.not_mem_nil (h.orphaning p [] (by rw [hp.1]; rfl) r hr)
  have hparent : ((s.modify p (·.exit status ticks)).proc p).parent = (s.proc p).parent := by
    rw [proc_modify_self]
    rfl
  have hgrown := h.grown p (.inl hp.age) hinit
  have hage : ((s.modify p (·.exit status ticks)).proc p).age = .zombie := by
    rw [proc_modify_self]
    rfl
  refine h.update (q := p) rfl rfl (fun r => proc_modify_of_ne) (fun y hy => ?_) (fun _ _ => hnone)
    (fun hy => ?_) (fun _ _ hnil => hgrown (hparent.symm.trans hnil))
    (fun _ _ hr => nomatch hp.1.symm.trans hr) nofun (fun r hr hr' => ?_) nofun
    fun r _ hr hr' => absurd (hparent.symm.trans hr) hr'
  · have hy : (s.proc p).parent = some y := hparent.symm.trans hy
    have hyp : y ≠ p := by
      rintro rfl
      exact hnone y hy
    refine (congrArg Proc.age (proc_modify_of_ne hyp)).trans (h.alive p y hy)
  · rcases hy with hy | hy <;> cases hage.symm.trans hy
  · have hholds := hcontrol.not_holds (p := p) (by rw [hp.1]; rfl) hr
    exact absurd hr' (Pc.ne_adopting_of_not_holds hholds)

/-- A zombie is freed, and has no parent then. -/
theorem Parents.reap (h : s.Parents) (hcontrol : s.Control) {f : Proc → Proc} {addr : ℕ}
    {rest : List Slot} {havekids : Bool} (hp : s.At p (.scan addr rest havekids))
    (hq : (s.proc q).state = .zombie) (hf : (f (s.proc q)).parent = none)
    (hage : (f (s.proc q)).age = .free) : ((s.modify q f).release p .user).Parents := by
  have hzombie := age_of_zombie hq
  have hnone : ((s.modify q f).proc q).parent = none := by
    rw [proc_modify_self]
    exact hf
  have hfree : ((s.modify q f).proc q).age = .free := by
    rw [proc_modify_self]
    exact hage
  have hout (r : Slot) (hr : r ≠ p) := hcontrol.not_holds (p := p) (by rw [hp.1]; rfl) hr
  refine h.update (q := q) rfl rfl (fun r => proc_modify_of_ne)
    (fun y hy => nomatch hnone.symm.trans hy) (fun _ ha => nomatch hzombie.symm.trans ha)
    (fun _ => .inl hnone) (fun ha => ?_) (fun _ _ hr => nomatch hp.1.symm.trans hr) nofun
    (fun r hr hr' => absurd hr' (Pc.ne_adopting_of_not_holds (hout r hr))) nofun
    fun r _ hr => nomatch hnone.symm.trans hr
  rcases ha with ha | ha <;> cases hfree.symm.trans ha

theorem parent_kfork {how : Forking} :
    ((s.kfork p np how).proc np).parent = (s.proc np).parent := by
  rw [proc_kfork_self]
  cases how <;> rfl

theorem Parents.step (h : s.Parents) (hcontrol : s.Control) (hstep : step build s e = some s') :
    s'.Parents := by
  have hmodify {q : Slot} {f : Proc → Proc} (hage : (f (s.proc q)).age = (s.proc q).age)
      (hparent : (f (s.proc q)).parent = (s.proc q).parent) : (s.modify q f).Parents :=
    h.calm rfl rfl (age_modify hage) (parent_modify hparent)
  have hpass {p : Slot} {pc pc₀ : Pc} {s₁ s' : Tasks} (hs : s₁.Parents) (hp : s₁.pc p = pc₀)
      (hpc : s'.pc = Function.update s₁.pc p pc) (hglobals : s'.globals = s₁.globals)
      (hold : ∀ np, pc₀ ≠ .adopting np) (hnew : ∀ np, pc ≠ .adopting np)
      (horphaning : pc.orphaning = none ∨ pc.orphaning = pc₀.orphaning) : s'.Parents := by
    refine hs.move hpc (congrArg Globals.initproc hglobals) (fun _ => by rw [proc, hglobals, proc])
      (fun _ => by rw [proc, hglobals, proc]) (fun np => hp ▸ hold np) hnew fun rest hrest => ?_
    rcases horphaning with hnone | heq
    · cases hnone.symm.trans hrest
    · exact hs.orphaning p rest (by rw [hp, ← heq, hrest])
  cases does_of_step hstep with
  | calm he hf => exact hmodify hf.age hf.parent
  | clock => exact h.calm rfl rfl (fun _ => rfl) fun _ => rfl
  | @forkFailed p np how hp hnp hhow =>
    refine h.calm ?_ initproc_kfork (fun r => ?_) fun r => ?_
    · cases how with
      | done => exact absurd rfl hhow
      | noProc | noCopy => rfl
    · by_cases hr : r = np
      · rw [hr, age_kfork, if_neg hhow, age_of_unused hnp]
      · rw [proc_kfork_of_ne hr]
    · by_cases hr : r = np
      · rw [hr, parent_kfork]
      · rw [proc_kfork_of_ne hr]
  | fork hp hnp => exact h.fork hcontrol hp hnp
  | adopt hp hlk => exact h.adopt hcontrol hp hlk
  | ready hp => exact h.ready hcontrol hp
  | @exit p status hp hinit hlk =>
    refine h.move rfl rfl (fun _ => rfl) (fun _ => rfl) (fun _ hr => nomatch hp.1.symm.trans hr)
      nofun fun rest hrest r _ => ?_
    cases hrest
    exact List.mem_finRange r
  | orphan hp hq => exact h.orphan hcontrol hp hq
  | @pass p status q rest hp hq =>
    refine h.move rfl rfl (fun _ => rfl) (fun _ => rfl) (fun _ hr => nomatch hp.1.symm.trans hr)
      nofun fun rest hrest r hr => ?_
    cases hrest
    have hmem := h.orphaning p _ (by rw [hp.1]; rfl) r hr
    refine (List.mem_cons.mp hmem).resolve_left ?_
    rintro rfl
    exact hq hr
  | reparented hp | fatherless hp | wokeInit hp | wokeParent hp =>
    exact hpass h hp.1 rfl rfl nofun nofun (.inr rfl)
  | @wakeInit p status rest q wakes hp =>
    have hcalm := calm_wake (s.proc q) (.proc s.initproc)
    exact hpass (hmodify hcalm.age hcalm.parent) hp.1 rfl rfl nofun nofun (.inr rfl)
  | @wakeParent p status parent q wakes hp =>
    have hcalm := calm_wake (s.proc q) (.proc parent)
    exact hpass (hmodify hcalm.age hcalm.parent) hp.1 rfl rfl nofun nofun (.inr rfl)
  | die hp => exact h.die hcontrol hp
  | wait hp | rescan hp | fault hp | fail hp | unlock hp | skip hp | look hp | again hp | awake hp
  | kill hp | miss hp | killFailed hp | awakeOther hp =>
    exact hpass h hp.1 rfl rfl nofun nofun (.inl rfl)
  | reap hp hq hq' => exact h.reap hcontrol hp hq' rfl rfl
  | @prepare p addr hp =>
    have hs : (s.modify p ({ · with chan := some (.proc p) })).Parents := hmodify rfl rfl
    exact hpass hs hp.1 rfl rfl nofun nofun (.inl rfl)
  | @prepareOther p chan hp hchan =>
    have hs : (s.modify p ({ · with chan := some chan })).Parents := hmodify rfl rfl
    exact hpass hs hp.1 rfl rfl nofun nofun (.inl rfl)
  | sleep hp | sleepOther hp =>
    have hcalm := calm_sleep hp.2 build
    exact hpass (hmodify hcalm.age hcalm.parent) hp.1 rfl rfl nofun nofun (.inl rfl)
  | @hit p pid q rest hp hq =>
    have hcalm := calm_kill (s.proc q)
    exact hpass (hmodify hcalm.age hcalm.parent) hp.1 rfl rfl nofun nofun (.inl rfl)

theorem parents_boot : boot.Parents := by
  have hparent (q : Slot) : (boot.proc q).parent = none := by
    by_cases hq : q = 0
    · rw [hq]
      rfl
    · rw [show boot.proc q = .zero from Globals.table_boot_of_ne hq]
      rfl
  have hage (q : Slot) (hq : q ≠ boot.initproc) : (boot.proc q).age = .free := by
    rw [show boot.proc q = .zero from Globals.table_boot_of_ne hq]
    rfl
  refine ⟨fun q y hy => ?_, fun q _ => .inl (hparent q), fun q ha hq => ?_, nofun, nofun⟩
  · cases (hparent q).symm.trans hy
  rcases ha with ha | ha <;> cases (hage q hq).symm.trans ha

/-! ## Who is told -/

/-- A process is about to sleep for a child, or does. -/
def Listens (s : Tasks) (y : Slot) : Prop :=
  (s.pc y).waits ∧ (s.proc y).chan = some (.proc y)

/-- A wakeup is on its way to `init`. -/
def Calling (s : Tasks) : Prop :=
  ∃ p status rest wakes, s.pc p = .wakeInit status rest wakes ∧ s.initproc ∈ wakes

/-- What process `p` knows at `pc`: of its parent in `kexit`, that the wakeup is on its way or has
come; of its children in `kwait`, which may be zombies. -/
def Knows (s : Tasks) (p : Slot) : Pc → Prop
  | .wakeParent _ parent wakes =>
    (s.proc p).parent = some parent ∧ (s.Listens parent → parent ∈ wakes)
  | .dying _ => ∀ parent, (s.proc p).parent = some parent → ¬ s.Listens parent
  | .scan _ rest _ => ∀ q, (s.proc q).parent = some p → (s.proc q).age = .zombie → q ∈ rest
  | .prepare _ => ∀ q, (s.proc q).parent = some p → (s.proc q).age ≠ .zombie
  | _ => True

/-- **Nobody sleeps for a zombie**, unless a wakeup is on its way. -/
structure Told (s : Tasks) : Prop where
  knows : ∀ p, s.Knows p (s.pc p)
  listens : ∀ y, s.Listens y → ∀ q, (s.proc q).parent = some y → (s.proc q).age = .zombie →
    y = s.initproc ∧ s.Calling

/-- Only who holds `wait_lock` knows anything. -/
theorem knows_of_not_holds (h : pc.holds = false) : s.Knows p pc := by
  cases pc <;> trivial

theorem Knows.mono (h : s.Knows p pc) (hlistens : ∀ y, s'.Listens y → s.Listens y)
    (hparent : ∀ q, (s'.proc q).parent = (s.proc q).parent)
    (hzombie : ∀ q, (s'.proc q).age = .zombie → (s.proc q).age = .zombie) : s'.Knows p pc := by
  cases pc with
  | wakeParent =>
    refine ⟨(hparent p).trans h.1, fun hl => h.2 (hlistens _ hl)⟩
  | dying => exact fun y hy hl => h y ((hparent p).symm.trans hy) (hlistens y hl)
  | scan => exact fun q hq hz => h q ((hparent q).symm.trans hq) (hzombie q hz)
  | prepare => exact fun q hq hz => h q ((hparent q).symm.trans hq) (hzombie q hz)
  | _ => trivial

/-- Whoever holds `wait_lock`, elsewhere than on its way to `init`, finds nobody asleep for a
zombie. -/
theorem Told.not_zombie (h : s.Told) (hcontrol : s.Control) (hp : (s.pc p).holds)
    (hcalling : ∀ status rest wakes, s.pc p = .wakeInit status rest wakes → s.initproc ∉ wakes)
    {y : Slot} (hy : s.Listens y) (hq : (s.proc q).parent = some y) :
    (s.proc q).age ≠ .zombie := by
  intro hz
  obtain ⟨-, r, status, rest, wakes, hr, hmem⟩ := h.listens y hy q hq hz
  have hrp : r = p := hcontrol.guarded.eq (a := r) (b := p) (by rw [hr]; rfl) hp
  subst hrp
  exact hcalling status rest wakes hr hmem

theorem listens_of_calm {y : Slot} (hy : s'.Listens y) (hpc : s'.pc = Function.update s.pc p pc)
    (hcalm : ∀ r, Calm (s.proc r) (s'.proc r)) (hwaits : pc.waits → (s.pc p).waits) :
    s.Listens y := by
  obtain ⟨hy, hchan⟩ := hy
  refine ⟨?_, ?_⟩
  · by_cases hyp : y = p
    · subst hyp
      rw [hpc, Function.update_self] at hy
      exact hwaits hy
    · rw [hpc, Function.update_of_ne hyp] at hy
      exact hy
  · rcases (hcalm y).chan with heq | heq
    · exact heq.symm.trans hchan
    · cases heq.symm.trans hchan

/-- **A step that tells nobody anything new.** -/
theorem Told.move (h : s.Told) (hpc : s'.pc = Function.update s.pc p pc)
    (hinit : s'.initproc = s.initproc) (hcalm : ∀ r, Calm (s.proc r) (s'.proc r))
    (hwaits : pc.waits → (s.pc p).waits)
    (hcalling : ∀ status rest wakes, s.pc p ≠ .wakeInit status rest wakes)
    (hknows : s'.Knows p pc) : s'.Told := by
  have hlistens (y : Slot) (hy : s'.Listens y) := listens_of_calm hy hpc hcalm hwaits
  refine ⟨fun r => ?_, fun y hy q hq hz => ?_⟩
  · by_cases hrp : r = p
    · rw [hrp, hpc, Function.update_self]
      exact hknows
    · rw [hpc, Function.update_of_ne hrp]
      exact (h.knows r).mono hlistens (fun q => (hcalm q).parent)
        fun q hz => (hcalm q).age.symm.trans hz
  · rw [hinit]
    obtain ⟨hyi, r, status, rest, wakes, hr, hmem⟩ := h.listens y (hlistens y hy) q
      ((hcalm q).parent.symm.trans hq) ((hcalm q).age.symm.trans hz)
    have hrp : r ≠ p := by
      rintro rfl
      exact hcalling status rest wakes hr
    refine ⟨hyi, r, status, rest, wakes, ?_, ?_⟩
    · rw [hpc, Function.update_of_ne hrp, hr]
    · rw [hinit]
      exact hmem

/-- …nor moves anybody. -/
theorem Told.calm (h : s.Told) (hpc : s'.pc = s.pc) (hinit : s'.initproc = s.initproc)
    (hchan : ∀ r, (s'.proc r).chan = (s.proc r).chan ∨ (s'.proc r).chan = none)
    (hparent : ∀ q, (s'.proc q).parent = (s.proc q).parent)
    (hzombie : ∀ q, (s'.proc q).age = .zombie → (s.proc q).age = .zombie) : s'.Told := by
  have hlistens (y : Slot) (hy : s'.Listens y) : s.Listens y := by
    refine ⟨hpc ▸ hy.1, ?_⟩
    rcases hchan y with heq | heq
    · exact heq.symm.trans hy.2
    · cases heq.symm.trans hy.2
  refine ⟨fun r => ?_, fun y hy q hq hz => ?_⟩
  · rw [hpc]
    exact (h.knows r).mono hlistens hparent hzombie
  · rw [Calling, hpc, hinit]
    exact h.listens y (hlistens y hy) q ((hparent q).symm.trans hq) (hzombie q hz)

/-- **A step inside `wait_lock`**, after which nobody else knows anything. -/
theorem Told.inside (hcontrol : s.Control) (hp : (s.pc p).holds ∨ s.waitLock = none)
    (hpc : s'.pc = Function.update s.pc p pc) (hknows : s'.Knows p pc)
    (hlistens : ∀ y, s'.Listens y → ∀ q, (s'.proc q).parent = some y → (s'.proc q).age = .zombie →
      y = s'.initproc ∧ s'.Calling) : s'.Told := by
  refine ⟨fun r => ?_, hlistens⟩
  by_cases hrp : r = p
  · rw [hrp, hpc, Function.update_self]
    exact hknows
  · rw [hpc, Function.update_of_ne hrp]
    refine knows_of_not_holds ?_
    rcases hp with hp | hlk
    · exact hcontrol.not_holds hp hrp
    · exact hcontrol.not_holds_of_free hlk r

/-- With `wait_lock` free nobody sleeps for a zombie. -/
theorem Told.not_zombie_of_free (h : s.Told) (hcontrol : s.Control) (hlk : s.waitLock = none)
    {y : Slot} (hy : s.Listens y) (hq : (s.proc q).parent = some y) :
    (s.proc q).age ≠ .zombie := by
  intro hz
  obtain ⟨-, r, status, rest, wakes, hr, -⟩ := h.listens y hy q hq hz
  have hholds := hcontrol.not_holds_of_free hlk r
  rw [hr] at hholds
  cases hholds

/-- Writing to another slot, whose process is no zombie then, or has no parent. -/
theorem listens_modify {y : Slot} {f : Proc → Proc} (hy : s'.Listens y)
    (hpc : s'.pc = Function.update s.pc p pc) (hglobals : s'.globals = (s.modify q f).globals)
    (hwaits : pc.waits → (s.pc p).waits)
    (hf : (f (s.proc q)).chan = (s.proc q).chan ∨ (f (s.proc q)).chan = none) :
    s.Listens y := by
  obtain ⟨hy, hchan⟩ := hy
  have hproc (r : Slot) : s'.proc r = (s.modify q f).proc r := by rw [proc, hglobals, proc]
  refine ⟨?_, ?_⟩
  · by_cases hyp : y = p
    · subst hyp
      rw [hpc, Function.update_self] at hy
      exact hwaits hy
    · rw [hpc, Function.update_of_ne hyp] at hy
      exact hy
  · rw [hproc] at hchan
    by_cases hyq : y = q
    · subst hyq
      rw [proc_modify_self] at hchan
      rcases hf with heq | heq
      · exact heq.symm.trans hchan
      · cases heq.symm.trans hchan
    · rw [proc_modify_of_ne hyq] at hchan
      exact hchan

/-- **A write inside `wait_lock` that makes no zombie of a child.** -/
theorem Told.modify {f : Proc → Proc} (h : s.Told) (hcontrol : s.Control)
    (hp : (s.pc p).holds ∨ s.waitLock = none)
    (hcalling : ∀ status rest wakes, s.pc p ≠ .wakeInit status rest wakes)
    (hpc : s'.pc = Function.update s.pc p pc) (hglobals : s'.globals = (s.modify q f).globals)
    (hwaits : pc.waits → (s.pc p).waits)
    (hf : (f (s.proc q)).chan = (s.proc q).chan ∨ (f (s.proc q)).chan = none)
    (hknows : s'.Knows p pc)
    (hq : ∀ y, (f (s.proc q)).parent = some y → (f (s.proc q)).age = .zombie → s'.Listens y →
      y = s.initproc ∧ s'.Calling) : s'.Told := by
  refine .inside hcontrol hp hpc hknows fun y hy r hr hz => ?_
  have hinit : s'.initproc = s.initproc := by
    rw [initproc, hglobals]
    rfl
  have hproc (r : Slot) : s'.proc r = (s.modify q f).proc r := by rw [proc, hglobals, proc]
  rw [hproc] at hr hz
  by_cases hrq : r = q
  · subst hrq
    rw [proc_modify_self] at hr hz
    rw [hinit]
    exact hq y hr hz hy
  · rw [proc_modify_of_ne hrq] at hr hz
    have hold := listens_modify hy hpc hglobals hwaits hf
    rcases hp with hp | hlk
    · refine absurd hz (h.not_zombie hcontrol hp (fun status rest wakes hc => ?_) hold hr)
      exact absurd hc (hcalling status rest wakes)
    · exact absurd hz (h.not_zombie_of_free hcontrol hlk hold hr)

/-- The wakeup of `init` comes past a slot. -/
theorem Told.wakeInit (h : s.Told) (hcontrol : s.Control) {status : ℤ} {rest wakes : List Slot}
    (hp : s.At p (.wakeInit status rest (q :: wakes))) :
    ((s.modify q (·.wake (.proc s.initproc))).setPc p (.wakeInit status rest wakes)).Told := by
  have hcalm := calm_wake (s.proc q) (.proc s.initproc)
  have hholds : (s.pc p).holds := by rw [hp.1]; rfl
  refine .inside hcontrol (.inl hholds) rfl trivial fun y hy r hr hz => ?_
  have hold : s.Listens y := listens_of_calm hy rfl (proc_modify_rel .refl hcalm) nofun
  have hr : (s.proc r).parent = some y := (parent_modify hcalm.parent r).symm.trans hr
  have hz : (s.proc r).age = .zombie := (age_modify hcalm.age r).symm.trans hz
  obtain ⟨rfl, p', status', rest', wakes', hp', hmem⟩ := h.listens y hold r hr hz
  have hpp : p' = p := hcontrol.guarded.eq (a := p') (b := p) (by rw [hp']; rfl) hholds
  subst hpp
  cases hp.1.symm.trans hp'
  refine ⟨rfl, p', status, rest, wakes, Function.update_self _ _ _, ?_⟩
  -- `init` has been told if it is its slot.
  refine (List.mem_cons.mp hmem).resolve_left fun hq => ?_
  subst hq
  exact chan_wake _ _ ((congrArg Proc.chan proc_modify_self).symm.trans hy.2)

theorem chan_kfork {how : Forking} : ((s.kfork p np how).proc np).chan = (s.proc np).chan ∨
    ((s.kfork p np how).proc np).chan = none := by
  rw [proc_kfork_self]
  cases how with
  | done => exact .inl rfl
  | noProc | noCopy => exact .inr rfl

theorem state_of_age_zombie (h : (s.proc q).age = .zombie) : (s.proc q).state = .zombie := by
  rw [Proc.age, ProcState.age.eq_def] at h
  split at h <;> first | assumption | cases h

/-- A new child sleeps for nobody, and is no zombie. -/
theorem Told.fork (h : s.Told) (hcontrol : s.Control) (hp : s.At p .user)
    (hnp : (s.proc np).state = .unused) : (s.kfork p np .done).Told := by
  have hfree := age_of_unused hnp
  have hage : ((s.kfork p np .done).proc np).age = .embryo := age_kfork
  have hbusy := hcontrol.not_busy (p := np) (by rw [hfree]; nofun)
  have hpc (r : Slot) : (s.kfork p np .done).pc r = s.pc r ∨
      (s.kfork p np .done).pc r = .user ∨ (s.kfork p np .done).pc r = .forked np := by
    by_cases hrp : r = p
    · rw [hrp]
      exact .inr (.inr (Function.update_self _ _ _))
    · have hpc : (s.kfork p np .done).pc r = Function.update s.pc np .user r :=
        Function.update_of_ne hrp _ _
      rw [hpc]
      by_cases hrn : r = np
      · rw [hrn]
        exact .inr (.inl (Function.update_self _ _ _))
      · exact .inl (Function.update_of_ne hrn _ _)
  have hlistens (y : Slot) (hy : (s.kfork p np .done).Listens y) : s.Listens y := by
    obtain ⟨hwaits, hchan⟩ := hy
    have hold : (s.pc y).waits := by
      rcases hpc y with heq | heq | heq <;> rw [heq] at hwaits
      · exact hwaits
      · cases hwaits
      · cases hwaits
    have hyn : y ≠ np := by
      rintro rfl
      cases hyw : s.pc y <;> rw [hyw] at hold hbusy <;> cases hbusy <;> cases hold
    rw [proc_kfork_of_ne hyn] at hchan
    exact ⟨hold, hchan⟩
  have hparent (q : Slot) : ((s.kfork p np .done).proc q).parent = (s.proc q).parent := by
    by_cases hq : q = np
    · rw [hq, parent_kfork]
    · rw [proc_kfork_of_ne hq]
  have hzombie (q : Slot) (hz : ((s.kfork p np .done).proc q).age = .zombie) :
      (s.proc q).age = .zombie := by
    by_cases hq : q = np
    · rw [hq] at hz
      cases hage.symm.trans hz
    · rw [proc_kfork_of_ne hq] at hz
      exact hz
  refine ⟨fun r => ?_, fun y hy q hq hz => ?_⟩
  · rcases hpc r with heq | heq | heq <;> rw [heq]
    · exact (h.knows r).mono hlistens hparent hzombie
    · trivial
    · trivial
  · obtain ⟨hyi, r, status, rest, wakes, hr, hmem⟩ := h.listens y (hlistens y hy) q
      ((hparent q).symm.trans hq) (hzombie q hz)
    have hrp : r ≠ p := by
      rintro rfl
      cases hp.1.symm.trans hr
    have hrn : r ≠ np := by
      rintro rfl
      rw [hr] at hbusy
      cases hbusy
    refine ⟨hyi, r, status, rest, wakes, ?_, hmem⟩
    exact (Function.update_of_ne hrp _ _).trans ((Function.update_of_ne hrn _ _).trans hr)

/-- **A process that has no zombie for a child** says that it will sleep. -/
theorem Told.prepare (h : s.Told) (hcontrol : s.Control) {addr : ℕ} (hp : s.At p (.prepare addr)) :
    ((s.modify p ({ · with chan := some (.proc p) })).setPc p (.unlock addr)).Told := by
  have hknows : s.Knows p (.prepare addr) := hp.1 ▸ h.knows p
  have hholds : (s.pc p).holds := by rw [hp.1]; rfl
  refine .inside hcontrol (.inl hholds) rfl trivial fun y hy r hr hz => False.elim ?_
  have hr : (s.proc r).parent = some y := (parent_modify rfl r).symm.trans hr
  have hz : (s.proc r).age = .zombie := (age_modify rfl r).symm.trans hz
  by_cases hyp : y = p
  · rw [hyp] at hr
    exact hknows r hr hz
  · have hold : s.Listens y := by
      refine ⟨?_, ?_⟩
      · rw [← show Function.update s.pc p (Pc.unlock addr) y = s.pc y
          from Function.update_of_ne hyp _ _]
        exact hy.1
      · rw [← proc_modify_of_ne (s := s) (f := ({ · with chan := some (.proc p) })) hyp]
        exact hy.2
    refine h.not_zombie hcontrol hholds (fun _ _ _ hc => ?_) hold hr hz
    cases hp.1.symm.trans hc

/-- Whoever is about to sleep elsewhere sleeps for no child. -/
theorem Told.away (h : s.Told) {chan : Chan} (hp : s.At p .user) :
    ((s.modify p ({ · with chan := some chan })).setPc p .away).Told := by
  let s' := (s.modify p ({ · with chan := some chan })).setPc p .away
  have hparent (q : Slot) : (s'.proc q).parent = (s.proc q).parent := parent_modify rfl q
  have hage (q : Slot) : (s'.proc q).age = (s.proc q).age := age_modify rfl q
  have hself : s'.pc p = .away := Function.update_self _ _ _
  have hother {r : Slot} (hr : r ≠ p) : s'.pc r = s.pc r := Function.update_of_ne hr _ _
  have hlistens (y : Slot) (hy : s'.Listens y) : s.Listens y := by
    obtain ⟨hwaits, hchan⟩ := hy
    have hyp : y ≠ p := by
      rintro rfl
      rw [hself] at hwaits
      cases hwaits
    rw [hother hyp] at hwaits
    exact ⟨hwaits, (congrArg Proc.chan (proc_modify_of_ne hyp)).symm.trans hchan⟩
  refine ⟨fun r => ?_, fun y hy q hq hz => ?_⟩
  · by_cases hrp : r = p
    · rw [hrp, hself]
      trivial
    · rw [hother hrp]
      exact (h.knows r).mono hlistens hparent fun q hz => (hage q).symm.trans hz
  · obtain ⟨hyi, r, status, rest, wakes, hr, hmem⟩ := h.listens y (hlistens y hy) q
      ((hparent q).symm.trans hq) ((hage q).symm.trans hz)
    have hrp : r ≠ p := by
      rintro rfl
      cases hp.1.symm.trans hr
    exact ⟨hyi, r, status, rest, wakes, (hother hrp).trans hr, hmem⟩

/-- Nothing but the program counter of a process changes. -/
theorem Told.goOn (h : s.Told) (hp : s.At p pc₀) (hpc : s'.pc = Function.update s.pc p pc)
    (hglobals : s'.globals = s.globals) (hwaits : pc.waits → pc₀.waits)
    (hcalling : ∀ status rest wakes, pc₀ ≠ .wakeInit status rest wakes)
    (hknows : s'.Knows p pc) : s'.Told := by
  refine h.move hpc (congrArg Globals.initproc hglobals) (fun r => ?_) (hp.1 ▸ hwaits)
    (hp.1 ▸ hcalling) hknows
  rw [proc, proc, hglobals]
  exact .refl _

/-- …with a calm write to the table. -/
theorem Told.goOnCalm {f : Proc → Proc} (h : s.Told) (hp : s.At p pc₀)
    (hpc : s'.pc = Function.update s.pc p pc) (hglobals : s'.globals = (s.modify q f).globals)
    (hf : Calm (s.proc q) (f (s.proc q))) (hwaits : pc.waits → pc₀.waits)
    (hcalling : ∀ status rest wakes, pc₀ ≠ .wakeInit status rest wakes)
    (hknows : s'.Knows p pc) : s'.Told := by
  have hinit : s'.initproc = s.initproc := by
    rw [initproc, hglobals]
    rfl
  refine h.move hpc hinit (fun r => ?_) (hp.1 ▸ hwaits) (hp.1 ▸ hcalling) hknows
  rw [show s'.proc r = (s.modify q f).proc r by rw [proc, hglobals, proc]]
  exact proc_modify_rel .refl hf r

theorem Told.forkFailed {how : Forking} (h : s.Told) (hhow : how ≠ .done) :
    (s.kfork p np how).Told := by
  refine h.calm ?_ initproc_kfork (fun r => ?_) (fun r => ?_) fun r hz => ?_
  · cases how with
    | done => exact absurd rfl hhow
    | noProc | noCopy => rfl
  all_goals by_cases hr : r = np
  · rw [hr]
    exact chan_kfork
  · rw [proc_kfork_of_ne hr]
    exact .inl rfl
  · rw [hr, parent_kfork]
  · rw [proc_kfork_of_ne hr]
  · rw [hr, age_kfork, if_neg hhow] at hz
    cases hz
  · rw [proc_kfork_of_ne hr] at hz
    exact hz

/-- The wakeup of a parent comes past a slot. -/
theorem Told.wakeParent (h : s.Told) {status : ℤ} {parent : Slot} {wakes : List Slot}
    (hp : s.At p (.wakeParent status parent (q :: wakes))) :
    ((s.modify q (·.wake (.proc parent))).setPc p (.wakeParent status parent wakes)).Told := by
  have hknows : s.Knows p (.wakeParent status parent (q :: wakes)) := hp.1 ▸ h.knows p
  have hwake := calm_wake (s.proc q) (.proc parent)
  refine h.goOnCalm (f := (·.wake (.proc parent))) hp rfl rfl hwake nofun nofun
    ⟨(parent_modify hwake.parent p).trans hknows.1, fun hl => ?_⟩
  have hold : s.Listens parent := listens_of_calm hl rfl (proc_modify_rel .refl hwake) nofun
  -- The parent has been told if it is its slot.
  refine (List.mem_cons.mp (hknows.2 hold)).resolve_left ?_
  rintro rfl
  exact chan_wake _ _ ((congrArg Proc.chan proc_modify_self).symm.trans hl.2)

/-- The wakeup of `init` has come past all slots. -/
theorem Told.wokeInit (h : s.Told) (hcontrol : s.Control) {status : ℤ} {rest : List Slot}
    (hp : s.At p (.wakeInit status rest [])) : (s.setPc p (.reparent status rest)).Told := by
  refine .inside hcontrol (.inl (by rw [hp.1]; rfl)) rfl trivial fun y hy r hr hz => ?_
  have hold : s.Listens y := listens_of_calm hy rfl (fun _ => .refl _) nofun
  refine absurd hz (h.not_zombie (p := p) hcontrol (by rw [hp.1]; rfl)
    (fun _ _ wakes hc hmem => ?_) hold hr)
  cases hp.1.symm.trans hc
  cases hmem

/-- A process becomes a zombie once its parent has been told. -/
theorem Told.die (h : s.Told) (hcontrol : s.Control) {status : ℤ} {ticks : ℕ}
    (hp : s.At p (.dying status)) : ((s.modify p (·.exit status ticks)).release p .dead).Told := by
  have hknows : s.Knows p (.dying status) := hp.1 ▸ h.knows p
  refine h.modify (q := p) hcontrol (.inl (by rw [hp.1]; rfl))
    (fun _ _ _ hr => nomatch hp.1.symm.trans hr) rfl rfl nofun (.inl rfl) trivial
    fun y hy _ hl => False.elim ?_
  have hold : s.Listens y := listens_modify hl rfl rfl nofun (.inl rfl)
  exact hknows y hy hold

theorem Told.step (h : s.Told) (hcontrol : s.Control) (hstep : step build s e = some s') :
    s'.Told := by
  have hcalm {q : Slot} {f : Proc → Proc} (hf : Calm (s.proc q) (f (s.proc q))) (r : Slot) :
      Calm (s.proc r) ((s.modify q f).proc r) := proc_modify_rel .refl hf r
  cases does_of_step hstep with
  | calm he hf =>
    exact h.calm rfl rfl (fun r => (hcalm hf r).chan) (fun r => (hcalm hf r).parent)
      fun r hz => (hcalm hf r).age.symm.trans hz
  | clock => exact h.calm rfl rfl (fun _ => .inl rfl) (fun _ => rfl) fun _ => id
  | forkFailed hp hnp hhow => exact h.forkFailed hhow
  | fork hp hnp => exact h.fork hcontrol hp hnp
  | @adopt p np hp hlk =>
    have hembryo := hcontrol.embryo p np (by rw [hp.1]; rfl)
    exact h.modify (q := np) hcontrol (.inr hlk)
      (fun _ _ _ hr => nomatch hp.1.symm.trans hr) rfl rfl nofun (.inl rfl) trivial
      fun _ _ hz => nomatch hembryo.symm.trans hz
  | @ready p np hp =>
    exact h.modify (q := np) hcontrol (.inl (by rw [hp.1]; rfl))
      (fun _ _ _ hr => nomatch hp.1.symm.trans hr) rfl rfl nofun (.inl rfl) trivial
      fun _ _ hz => (nomatch hz)
  | exit hp hinit hlk => exact h.goOn hp rfl rfl nofun nofun trivial
  | @orphan p status q rest hp hq =>
    refine h.modify (q := q) hcontrol (.inl (by rw [hp.1]; rfl))
      (fun _ _ _ hr => nomatch hp.1.symm.trans hr) rfl rfl nofun (.inl rfl) trivial
      fun y hy _ _ =>
        ⟨(Option.some.inj hy).symm, p, status, rest, _, Function.update_self _ _ _, ?_⟩
    exact List.mem_finRange _
  | pass hp hq => exact h.goOn hp rfl rfl nofun nofun trivial
  | reparented hp hparent =>
    exact h.goOn hp rfl rfl nofun nofun ⟨hparent, fun _ => List.mem_finRange _⟩
  | fatherless hp hparent =>
    exact h.goOn hp rfl rfl nofun nofun fun y hy => nomatch hparent.symm.trans hy
  | wakeInit hp => exact h.wakeInit hcontrol hp
  | wokeInit hp => exact h.wokeInit hcontrol hp
  | wakeParent hp => exact h.wakeParent hp
  | @wokeParent p status parent hp =>
    have hknows : s.Knows p (.wakeParent status parent []) := hp.1 ▸ h.knows p
    refine h.goOn hp rfl rfl nofun nofun fun y hy hl => ?_
    have hold : s.Listens y := listens_of_calm hl rfl (fun _ => .refl _) nofun
    cases hknows.1.symm.trans hy
    exact List.not_mem_nil (hknows.2 hold)
  | die hp => exact h.die hcontrol hp
  | wait hp hlk | rescan hp hlk =>
    exact h.goOn hp rfl rfl nofun nofun fun q _ _ => List.mem_finRange q
  | fault hp | fail hp | killFailed hp | awakeOther hp | kill hp | miss hp =>
    exact h.goOn hp rfl rfl nofun nofun trivial
  | unlock hp | awake hp => exact h.goOn hp rfl rfl (fun _ => rfl) nofun trivial
  | @skip p addr q rest havekids hp hq =>
    have hknows : s.Knows p (.scan addr (q :: rest) havekids) := hp.1 ▸ h.knows p
    refine h.goOn hp rfl rfl nofun nofun
      fun r hr hz => (List.mem_cons.mp (hknows r hr hz)).resolve_left ?_
    rintro rfl
    exact hq hr
  | @look p addr q rest havekids hp hq hq' =>
    have hknows : s.Knows p (.scan addr (q :: rest) havekids) := hp.1 ▸ h.knows p
    refine h.goOn hp rfl rfl nofun nofun
      fun r hr hz => (List.mem_cons.mp (hknows r hr hz)).resolve_left ?_
    rintro rfl
    exact hq' (state_of_age_zombie hz)
  | @again p addr hp =>
    have hknows : s.Knows p (.scan addr [] true) := hp.1 ▸ h.knows p
    exact h.goOn hp rfl rfl nofun nofun fun r hr hz => List.not_mem_nil (hknows r hr hz)
  | @reap p addr q rest havekids hp hq hq' =>
    exact h.modify (q := q) hcontrol (.inl (by rw [hp.1]; rfl))
      (fun _ _ _ hr => nomatch hp.1.symm.trans hr) rfl rfl nofun (.inr rfl) trivial nofun
  | prepare hp => exact h.prepare hcontrol hp
  | prepareOther hp hchan => exact h.away hp
  | sleep hp =>
    exact h.goOnCalm (f := (·.sleep build)) hp rfl rfl (calm_sleep hp.2 build) (fun _ => rfl) nofun
      trivial
  | sleepOther hp =>
    exact h.goOnCalm (f := (·.sleep build)) hp rfl rfl (calm_sleep hp.2 build) nofun nofun trivial
  | hit hp hq => exact h.goOnCalm hp rfl rfl (calm_kill _) nofun nofun trivial

theorem told_boot : boot.Told := by
  refine ⟨fun p => trivial, nofun⟩

end Tasks

end MiniProject.Kernel
