import Fflib.FirstRun

/-!
# Posting a non-persistent operation again

Operations that a program has created and linked, with or without a schedule, and a user
who posts them at any time, any number of times.  `ffop_post` refuses a non-persistent
operation whose `version` is not zero, and `version` is incremented by `ffop_complete`.

* `RepostInv` ties `version` and the operations under way to the log.
* `repost_iff`: the handler of a non-persistent operation is called at most once, and
  every other post is refused, iff such a post begins after the operation has completed.
-/

namespace Fflib

open Library

universe u

/-- The handler of a non-persistent operation has been called at most once. -/
def OnceLaw (l₀ l : Lib) (p : Proc) : Prop :=
  ∀ v ∈ graphVerts l₀ l, isOptSet (l.ops v).options ffopNonPersistent = true →
    p.log.count (.posting v) ≤ 1

/-- A post of a non-persistent operation whose handler has been called before. -/
def Repost {σ : Type u} (x : System σ) (t : Thread) (v : Nat) : Prop :=
  (∃ fs, x.proc.stack t = .post v :: fs) ∧
    isOptSet (x.proc.ops v).options ffopNonPersistent = true ∧ .posting v ∈ x.proc.log

/-- It is refused: the code is `FFINVALID_ARG`, the handler is not called, and the
operation is as before. -/
def RefusedLaw {σ : Type u} (impl : Impl σ) (vs : Finset Nat) (x : System σ)
    (act : UserAct σ) : Prop :=
  ∀ t v, act = .frame t → Repost x t v →
    ffopPostCode impl v x.env x.proc = ffInvalidArg ∧
      ∀ x', userStep impl vs x act = some x' →
        x'.proc.log = x.proc.log ∧ x'.proc.ops v = x.proc.ops v ∧ x'.env = x.env

/-- It begins after the operation has completed. -/
def AfterCompletion {σ : Type u} (x : System σ) (act : UserAct σ) : Prop :=
  ∀ t v, act = .frame t → Repost x t v → .completing v ∈ x.proc.log

/-- `version` counts completions, and an operation completes as often as its handler was
called, or less. -/
structure RepostInv (l₀ l : Lib) (p : Proc) : Prop where
  user : UserInv (graphVerts l₀ l) l.ops p
  busy_le : ∀ v, p.busy v + p.log.count (.completing v) ≤ p.log.count (.posting v)
  version_eq : ∀ v ∈ graphVerts l₀ l, (p.ops v).version = p.log.count (.completing v) % 2 ^ 32

section Moves

variable {σ : Type u} {impl : Impl σ} {t : Thread} {e e' : σ} {p p' : Proc} {fs : List Frame}
  {l₀ l : Lib} {v : Nat}

/-- `ffop_post` refuses. -/
theorem FrameMove.of_refused (hs : p.stack t = .post v :: fs) (hv : 0 < (p.ops v).version)
    (ho : isOptSet (p.ops v).options ffopNonPersistent = true)
    (h : frameStep impl t e p = some (e', p')) : e' = e ∧ p' = p.setStack fs t := by
  simp only [frameStep, hs, runFrame, ffopPost, if_pos (And.intro hv ho), List.nil_append,
    Option.some.injEq, Prod.mk.injEq] at h
  exact ⟨h.1.symm, h.2.symm⟩

theorem life_refused (hs : p.stack t = .post v :: fs) (w : Nat) :
    (p.setStack fs t).busy w = p.busy w := by
  have hcount := Proc.count_frames_setStack (r := []) hs (q := p) rfl rfl (.complete w)
  simp only [List.nil_append, List.count_nil, Nat.add_zero, reduceCtorEq, if_false] at hcount
  simp only [Proc.busy, Proc.setStack_pending, hcount]

theorem RepostInv.version_pos_iff (h : RepostInv l₀ l p) (hv : v ∈ graphVerts l₀ l)
    (honce : p.log.count (.posting v) ≤ 1) :
    0 < (p.ops v).version ↔ .completing v ∈ p.log := by
  have hle := h.busy_le v
  rw [h.version_eq v hv, ← List.count_pos_iff, Nat.mod_eq_of_lt (by omega)]

/-- The converse holds also of an operation that was posted again. -/
theorem RepostInv.mem_of_version (h : RepostInv l₀ l p) (hv : v ∈ graphVerts l₀ l)
    (hpos : 0 < (p.ops v).version) : .completing v ∈ p.log := by
  rw [h.version_eq v hv] at hpos
  have hle := Nat.mod_le (p.log.count (.completing v)) (2 ^ 32)
  exact List.count_pos_iff.mp (by omega)

/-- Step lemma: `ffop_post` calls the handler. -/
theorem RepostInv.postFrame (h : RepostInv l₀ l p) (hs : p.stack t = .post v :: fs)
    (hok : (p.ops v).version = 0 ∨ isOptSet (p.ops v).options ffopNonPersistent = false)
    (hu : UserInv (graphVerts l₀ l) l.ops p') (hm : FrameMove impl t e p fs (.post v) e' p') :
    RepostInv l₀ l p' ∧ ∀ w, p'.log.count (.posting w) =
      p.log.count (.posting w) + if w = v then 1 else 0 := by
  obtain ⟨hlog, _, hbusy, hver⟩ := hm.life_post hs hok
  have hposting : ∀ w, p'.log.count (.posting w) =
      p.log.count (.posting w) + if w = v then 1 else 0 := by
    intro w
    rw [hlog, count_event_snoc]
    simp
  have hcompleting : ∀ w, p'.log.count (.completing w) = p.log.count (.completing w) := by
    intro w
    rw [hlog, count_event_snoc]
    simp
  refine ⟨⟨hu, fun w => ?_, fun w hw => ?_⟩, hposting⟩
  · have := h.busy_le w
    have := hbusy w
    have := hposting w
    have := hcompleting w
    omega
  · rw [hver, hcompleting]
    exact h.version_eq w hw

/-- Step lemma: `ffop_complete` begins. -/
theorem RepostInv.completeFrame (h : RepostInv l₀ l p) (hs : p.stack t = .complete v :: fs)
    (hu : UserInv (graphVerts l₀ l) l.ops p')
    (hm : FrameMove impl t e p fs (.complete v) e' p') :
    RepostInv l₀ l p' ∧ ∀ w, p'.log.count (.posting w) = p.log.count (.posting w) := by
  obtain ⟨hlog, _, hbusy, hver⟩ := hm.life_complete hs
  have hposting : ∀ w, p'.log.count (.posting w) = p.log.count (.posting w) := by
    intro w
    rw [hlog, count_event_snoc]
    simp
  have hcompleting : ∀ w, p'.log.count (.completing w) =
      p.log.count (.completing w) + if w = v then 1 else 0 := by
    intro w
    rw [hlog, count_event_snoc]
    simp
  refine ⟨⟨hu, fun w => ?_, fun w hw => ?_⟩, hposting⟩
  · have := h.busy_le w
    have := hbusy w
    have := hposting w
    have := hcompleting w
    omega
  · have hold := h.version_eq w hw
    rw [hver, hcompleting]
    split
    · rw [hold, Nat.mod_add_mod]
    · exact hold

/-- A step that adds nothing to the log. -/
theorem RepostInv.congr (h : RepostInv l₀ l p) (hu : UserInv (graphVerts l₀ l) l.ops p')
    (hlog : p'.log = p.log) (hbusy : ∀ w, p'.busy w = p.busy w)
    (hver : ∀ w, (p'.ops w).version = (p.ops w).version) : RepostInv l₀ l p' where
  user := hu
  busy_le w := by
    rw [hbusy, hlog]
    exact h.busy_le w
  version_eq w hw := by
    rw [hver, hlog]
    exact h.version_eq w hw

/-- The handler of `v` is called in this step. -/
def CallsHandler (p : Proc) (t : Thread) (v : Nat) : Prop :=
  (∃ fs, p.stack t = .post v :: fs) ∧
    ((p.ops v).version = 0 ∨ isOptSet (p.ops v).options ffopNonPersistent = false)

/-- Step lemma: a handler is called by the frame of `ffop_post` on top of a stack. -/
theorem RepostInv.step {vs : Finset Nat} {x x' : System σ} {act : UserAct σ}
    (h : RepostInv l₀ l x.proc) (hu : UserInv (graphVerts l₀ l) l.ops x'.proc)
    (hs : userStep impl vs x act = some x') :
    RepostInv l₀ l x'.proc ∧ ((∀ w, x'.proc.log.count (.posting w) =
        x.proc.log.count (.posting w)) ∨
      ∃ t v, act = .frame t ∧ CallsHandler x.proc t v ∧
        ∀ w, x'.proc.log.count (.posting w) =
          x.proc.log.count (.posting w) + if w = v then 1 else 0) := by
  cases userStep_cases hs with
  | post hu' hop =>
      exact ⟨h.congr hu rfl (life_call hu' _).2 (fun _ => rfl), Or.inl fun _ => rfl⟩
  | @frame t f fs e' p' hstack hm =>
      cases f with
      | post v =>
          by_cases hc : 0 < (x.proc.ops v).version ∧
              isOptSet (x.proc.ops v).options ffopNonPersistent = true
          · obtain ⟨⟨_, _⟩, hf, heq⟩ := Option.map_eq_some_iff.mp hs
            obtain ⟨rfl, rfl⟩ := System.mk.inj heq
            obtain ⟨_, rfl⟩ := FrameMove.of_refused hstack hc.1 hc.2 hf
            exact ⟨h.congr hu (by simp) (life_refused hstack) (fun _ => by simp),
              Or.inl fun _ => by simp⟩
          · have hok : (x.proc.ops v).version = 0 ∨
                isOptSet (x.proc.ops v).options ffopNonPersistent = false := by
              rcases Nat.eq_zero_or_pos (x.proc.ops v).version with hz | hpos
              · exact Or.inl hz
              · exact Or.inr (Bool.eq_false_iff.mpr fun ho => hc ⟨hpos, ho⟩)
            obtain ⟨h', hcount⟩ := h.postFrame hstack hok hu hm
            exact ⟨h', Or.inr ⟨t, v, rfl, ⟨⟨fs, hstack⟩, hok⟩, hcount⟩⟩
      | complete v => exact (h.completeFrame hstack hu hm).imp id Or.inl
      | loop v i =>
          obtain ⟨hlog, _, hbusy, hver⟩ := hm.life_loop hstack
          exact ⟨h.congr hu hlog hbusy hver, Or.inl fun w => by rw [hlog]⟩
  | progress hp hop ht =>
      exact ⟨h.congr hu rfl (life_progress hp hop).2 (fun _ => rfl), Or.inl fun _ => rfl⟩
  | env e => exact ⟨h.congr hu rfl (fun _ => rfl) (fun _ => rfl), Or.inl fun _ => rfl⟩

end Moves

section Reposts

variable {σ : Type u} {impl : Impl σ} {cap : Nat} {l₀ : Lib} {cs : List BuildCall} {b : Builder}
  {x x' : System σ} {act : UserAct σ}

/-- The operations are as the constructors have left them. -/
theorem repostInv_init (hb : run (buildStep cap l₀.opid) ⟨none, l₀⟩ cs = some b) :
    RepostInv l₀ b.lib (Proc.init b.lib.ops) where
  user := UserInv.init _ _
  busy_le v := by simp [Proc.busy, Proc.init, Proc.frames]
  version_eq v hv := by
    obtain ⟨hlo, hlt⟩ := Finset.mem_Ico.mp hv
    exact (buildInv_of_run cs b hb).lib.version_eq v hlo hlt

theorem repostInv_step (hb : run (buildStep cap l₀.opid) ⟨none, l₀⟩ cs = some b)
    (h : RepostInv l₀ b.lib x.proc)
    (hs : userStep impl (graphVerts l₀ b.lib) x act = some x') :
    RepostInv l₀ b.lib x'.proc ∧ ((∀ w, x'.proc.log.count (.posting w) =
        x.proc.log.count (.posting w)) ∨
      ∃ t v, act = .frame t ∧ CallsHandler x.proc t v ∧
        ∀ w, x'.proc.log.count (.posting w) =
          x.proc.log.count (.posting w) + if w = v then 1 else 0) := by
  refine h.step (h.user.step (fun v hv i hi => ?_) hs) hs
  obtain ⟨hlo, hlt⟩ := Finset.mem_Ico.mp hv
  exact Finset.mem_Ico.mpr ((buildInv_of_run cs b hb).lib.target v _ hlo hlt ⟨i, hi, rfl⟩)

/-- An operation that is posted again has completed iff `ffop_post` refuses it. -/
theorem RepostInv.refusedLaw (h : RepostInv l₀ b.lib x.proc) (honce : OnceLaw l₀ b.lib x.proc)
    (hafter : AfterCompletion x act) : RefusedLaw impl (graphVerts l₀ b.lib) x act := by
  rintro t v rfl hre
  obtain ⟨⟨fs, hstack⟩, ho, _⟩ := id hre
  have hv : v ∈ graphVerts l₀ b.lib := h.user.frames_mem _ (Proc.top_mem_frames hstack)
  have hopt := ho
  rw [(h.user.same v).options_eq] at hopt
  have hver := (h.version_pos_iff hv (honce v hv hopt)).mpr (hafter t v rfl hre)
  refine ⟨by rw [ffopPostCode, if_pos ⟨hver, ho⟩], fun x' hx' => ?_⟩
  obtain ⟨⟨_, _⟩, hf, rfl⟩ := Option.map_eq_some_iff.mp hx'
  obtain ⟨rfl, rfl⟩ := FrameMove.of_refused hstack hver ho hf
  exact ⟨by simp, by simp, rfl⟩

theorem RepostInv.afterCompletion (h : RepostInv l₀ b.lib x.proc)
    (hlaw : RefusedLaw impl (graphVerts l₀ b.lib) x act) : AfterCompletion x act := by
  rintro t v rfl hre
  obtain ⟨⟨fs, hstack⟩, ho, _⟩ := id hre
  have hv : v ∈ graphVerts l₀ b.lib := h.user.frames_mem _ (Proc.top_mem_frames hstack)
  refine h.mem_of_version hv ?_
  by_contra hzero
  -- with `version` still zero the handler is called, and that is logged
  obtain ⟨x', hx'⟩ := exists_frameStep impl (graphVerts l₀ b.lib) hstack
  obtain ⟨⟨e', p'⟩, hf, rfl⟩ := Option.map_eq_some_iff.mp hx'
  obtain ⟨f, fs', hstack', hm⟩ := frameStep_cases hf
  rw [hstack] at hstack'
  obtain ⟨rfl, rfl⟩ := List.cons.inj hstack'
  have hlog := (hm.life_post hstack (Or.inl (Nat.eq_zero_of_not_pos hzero))).1
  have hsame := ((hlaw t v rfl hre).2 _ hx').1
  rw [hsame] at hlog
  have hlen := congrArg List.length hlog
  simp at hlen

/-- Step lemma: under the condition the handler of no operation is called twice. -/
theorem OnceLaw.step (hb : run (buildStep cap l₀.opid) ⟨none, l₀⟩ cs = some b)
    (h : RepostInv l₀ b.lib x.proc) (honce : OnceLaw l₀ b.lib x.proc)
    (hafter : AfterCompletion x act)
    (hs : userStep impl (graphVerts l₀ b.lib) x act = some x') : OnceLaw l₀ b.lib x'.proc := by
  intro w hw hopt
  obtain ⟨_, hsame | ⟨t, v, rfl, ⟨⟨fs, hstack⟩, hok⟩, hcount⟩⟩ := repostInv_step hb h hs
  · rw [hsame]
    exact honce w hw hopt
  · rw [hcount]
    have hwle := honce w hw hopt
    split
    · next hwv =>
        subst hwv
        have ho : isOptSet (x.proc.ops w).options ffopNonPersistent = true := by
          rwa [(h.user.same w).options_eq]
        have hver : (x.proc.ops w).version = 0 := by
          rcases hok with hz | hf
          · exact hz
          · rw [ho] at hf
            cases hf
        have hnot : .posting w ∉ x.proc.log := by
          intro hmem
          have := (h.version_pos_iff hw hwle).mpr (hafter t w rfl ⟨⟨fs, hstack⟩, ho, hmem⟩)
          omega
        rw [List.count_eq_zero.mpr hnot]
    · exact hwle

/-- **Non-persistent operations over arbitrary posts**: the handler is called at most once
and all further posts are refused, iff every further post begins after the operation has
completed. -/
theorem repost_iff (hb : run (buildStep cap l₀.opid) ⟨none, l₀⟩ cs = some b) (impl : Impl σ)
    (e : σ) (as : List (UserAct σ)) :
    RunAlways (userStep impl (graphVerts l₀ b.lib)) (fun x => OnceLaw l₀ b.lib x.proc)
          ⟨e, Proc.init b.lib.ops⟩ as ∧
        RunMeets (userStep impl (graphVerts l₀ b.lib)) (RefusedLaw impl (graphVerts l₀ b.lib))
          ⟨e, Proc.init b.lib.ops⟩ as ↔
      RunMeets (userStep impl (graphVerts l₀ b.lib)) AfterCompletion
        ⟨e, Proc.init b.lib.ops⟩ as := by
  have hinit := repostInv_init hb
  have honce₀ : OnceLaw l₀ b.lib (Proc.init b.lib.ops) := fun v _ _ => by simp [Proc.init]
  have hstep : ∀ s a s', RepostInv l₀ b.lib s.proc ∧ OnceLaw l₀ b.lib s.proc →
      AfterCompletion s a → userStep impl (graphVerts l₀ b.lib) s a = some s' →
      RepostInv l₀ b.lib s'.proc ∧ OnceLaw l₀ b.lib s'.proc :=
    fun s a s' hI hC ha => ⟨(repostInv_step hb hI.1 ha).1, hI.2.step hb hI.1 hC ha⟩
  constructor
  · rintro ⟨_, hmeets⟩
    exact RunMeets.of_invariant (I := fun s => RepostInv l₀ b.lib s.proc)
      (fun s a s' hI _ ha => (repostInv_step hb hI ha).1)
      (fun s a hI hlaw => hI.afterCompletion hlaw) as _ hinit hmeets
  · intro hmeets
    exact ⟨runAlways_of_meets (fun s hI => hI.2) hstep as _ ⟨hinit, honce₀⟩ hmeets,
      RunMeets.of_invariant hstep (fun s a hI hC => hI.1.refusedLaw hI.2 hC) as _
        ⟨hinit, honce₀⟩ hmeets⟩

end Reposts

/-! ### A receive that is posted twice -/

def onceCalls : List BuildCall := [.create (.recv 1 0 1) (ffopDepAnd ^^^ ffopNonPersistent)]

def postTwice : List (UserAct Unit) := [.post 0, .frame .user, .post 0, .frame .user]

theorem onceCalls_built : ∃ b,
    run (buildStep maxDeps Lib.init.opid) ⟨none, Lib.init⟩ onceCalls = some b ∧
      ∃ x, run (userStep asyncImpl (graphVerts Lib.init b.lib)) ⟨(), Proc.init b.lib.ops⟩
          postTwice = some x ∧ ¬ OnceLaw Lib.init b.lib x.proc := by
  refine ⟨_, rfl, _, rfl, fun honce => ?_⟩
  exact absurd (honce 0 (by decide) (by decide)) (by decide)

theorem repost_iff_receive : ∃ b,
    run (buildStep maxDeps Lib.init.opid) ⟨none, Lib.init⟩ onceCalls = some b ∧
    (RunAlways (userStep asyncImpl (graphVerts Lib.init b.lib))
          (fun x => OnceLaw Lib.init b.lib x.proc) ⟨(), Proc.init b.lib.ops⟩ postTwice ∧
        RunMeets (userStep asyncImpl (graphVerts Lib.init b.lib))
          (RefusedLaw asyncImpl (graphVerts Lib.init b.lib)) ⟨(), Proc.init b.lib.ops⟩
          postTwice ↔
      RunMeets (userStep asyncImpl (graphVerts Lib.init b.lib)) AfterCompletion
        ⟨(), Proc.init b.lib.ops⟩ postTwice) := by
  obtain ⟨b, hb, _⟩ := onceCalls_built
  exact ⟨b, hb, repost_iff hb asyncImpl () postTwice⟩

/-- The second post comes while the first is in flight: the receive is started twice. -/
theorem repost_fails :
    ¬ ∀ (cs : List BuildCall) (b : Builder),
      run (buildStep maxDeps Lib.init.opid) ⟨none, Lib.init⟩ cs = some b →
        ∀ as : List (UserAct Unit), RunAlways (userStep asyncImpl (graphVerts Lib.init b.lib))
          (fun x => OnceLaw Lib.init b.lib x.proc) ⟨(), Proc.init b.lib.ops⟩ as := by
  intro hall
  obtain ⟨b, hb, x, hrun, hbad⟩ := onceCalls_built
  exact hbad ((hall onceCalls b hb postTwice).last hrun)

end Fflib
