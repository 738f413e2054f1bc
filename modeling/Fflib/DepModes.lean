import Fflib.FirstRun

/-!
# Operations that wait for one predecessor

Operations of a graph that have been created with `FFOP_DEP_OR` are to be posted after the
first of their predecessors, the others after all of them.  `ffop_complete` looks for the bit
in the options of the operation that completes, not of the dependent.

* `ModesInv` is the invariant of the first run of such a graph.
* `depModes_of_meets`: each operation is posted as its own options say, in every run in which
  the two operations agree wherever the bit decides.
-/

namespace Fflib

open Library

universe u

/-- Once a predecessor has completed, an operation with `FFOP_DEP_OR` has been posted, or is
still to be reached by the loop of `ffop_complete`. -/
def OrLaw (l₀ l : Lib) (p : Proc) : Prop :=
  ∀ d ∈ graphVerts l₀ l, isOptSet (l.ops d).options ffopDepOr = true →
    ∀ u ∈ graphVerts l₀ l, l.HasEdge u d → .completing u ∈ p.log →
      (.posting d ∈ p.log ∨ .post d ∈ p.frames) ∨ 0 < p.announcements l.ops d

/-- An iteration of the loop of `ffop_complete` posts a dependent without `FFOP_DEP_OR` only
after all its predecessors, and leaves none with `FFOP_DEP_OR` unposted. -/
def DepModeLaw {σ : Type u} (l₀ l : Lib) (x : System σ) (act : UserAct σ) : Prop :=
  ∀ t op i fs, act = .frame t → x.proc.stack t = .loop op i :: fs →
    i < (l.ops op).outDepCount →
    (isOptSet (l.ops ((l.ops op).dependent i)).options ffopDepOr = false →
      x.proc.Triggers op i → ∀ u ∈ graphVerts l₀ l, l.HasEdge u ((l.ops op).dependent i) →
        .completing u ∈ x.proc.log) ∧
    (isOptSet (l.ops ((l.ops op).dependent i)).options ffopDepOr = true →
      x.proc.Triggers op i ∨ .posting ((l.ops op).dependent i) ∈ x.proc.log ∨
        .post ((l.ops op).dependent i) ∈ x.proc.frames)

/-- Where `dep_left` does not become zero, the operation that completes and its dependent
agree on `FFOP_DEP_OR`, or the dependent has the bit and has been posted before; and no
operation completes again before its dependents without `FFOP_DEP_OR` have. -/
structure ModesAgree {σ : Type u} (l : Lib) (x : System σ) (act : UserAct σ) : Prop where
  loop : ∀ t op i fs, act = .frame t → x.proc.stack t = .loop op i :: fs →
    i < (l.ops op).outDepCount → (x.proc.ops ((l.ops op).dependent i)).depLeft ≠ 1 →
    isOptSet (l.ops op).options ffopDepOr =
        isOptSet (l.ops ((l.ops op).dependent i)).options ffopDepOr ∨
      isOptSet (l.ops ((l.ops op).dependent i)).options ffopDepOr = true ∧
        (.posting ((l.ops op).dependent i) ∈ x.proc.log ∨
          .post ((l.ops op).dependent i) ∈ x.proc.frames)
  complete : ∀ t op fs, act = .frame t → x.proc.stack t = .complete op :: fs →
    ∀ d, l.HasEdge op d → isOptSet (l.ops d).options ffopDepOr = false →
      ¬ Since x.proc.log (.completing op) (.completing d)

/-- The condition looks at the top of one stack. -/
theorem modesAgree_frame_iff {σ : Type u} {l : Lib} {x : System σ} {t : Thread} :
    ModesAgree l x (.frame t) ↔
      (∀ op i, (x.proc.stack t).head? = some (.loop op i) → i < (l.ops op).outDepCount →
        (x.proc.ops ((l.ops op).dependent i)).depLeft ≠ 1 →
        isOptSet (l.ops op).options ffopDepOr =
            isOptSet (l.ops ((l.ops op).dependent i)).options ffopDepOr ∨
          isOptSet (l.ops ((l.ops op).dependent i)).options ffopDepOr = true ∧
            (.posting ((l.ops op).dependent i) ∈ x.proc.log ∨
              .post ((l.ops op).dependent i) ∈ x.proc.frames)) ∧
      ∀ op, (x.proc.stack t).head? = some (.complete op) → ∀ j, j < (l.ops op).outDepCount →
        isOptSet (l.ops ((l.ops op).dependent j)).options ffopDepOr = false →
          ¬ Since x.proc.log (.completing op) (.completing ((l.ops op).dependent j)) := by
  constructor
  · rintro ⟨hloop, hcomplete⟩
    refine ⟨fun op i hs => ?_, fun op hs j hj => ?_⟩
    · obtain ⟨fs, hfs⟩ := List.head?_eq_some_iff.mp hs
      exact hloop t op i fs rfl hfs
    · obtain ⟨fs, hfs⟩ := List.head?_eq_some_iff.mp hs
      exact hcomplete t op fs rfl hfs _ ⟨j, hj, rfl⟩
  · rintro ⟨hloop, hcomplete⟩
    constructor
    · rintro t' op i fs heq hfs
      obtain rfl := UserAct.frame.inj heq
      exact hloop op i (by rw [hfs]; rfl)
    · rintro t' op fs heq hfs d ⟨j, hj, rfl⟩
      obtain rfl := UserAct.frame.inj heq
      exact hcomplete op (by rw [hfs]; rfl) j hj

instance {σ : Type u} (l : Lib) (x : System σ) : ∀ act, Decidable (ModesAgree l x act)
  | .frame t =>
      match h : (x.proc.stack t).head? with
      | some (.loop op i) =>
          decidable_of_iff (i < (l.ops op).outDepCount →
            (x.proc.ops ((l.ops op).dependent i)).depLeft ≠ 1 →
            isOptSet (l.ops op).options ffopDepOr =
                isOptSet (l.ops ((l.ops op).dependent i)).options ffopDepOr ∨
              isOptSet (l.ops ((l.ops op).dependent i)).options ffopDepOr = true ∧
                (.posting ((l.ops op).dependent i) ∈ x.proc.log ∨
                  .post ((l.ops op).dependent i) ∈ x.proc.frames))
            (by simp [modesAgree_frame_iff, h])
      | some (.complete op) =>
          decidable_of_iff (∀ j, j < (l.ops op).outDepCount →
            isOptSet (l.ops ((l.ops op).dependent j)).options ffopDepOr = false →
              ¬ Since x.proc.log (.completing op) (.completing ((l.ops op).dependent j)))
            (by simp [modesAgree_frame_iff, h])
      | some (.post op) => isTrue (by simp [modesAgree_frame_iff, h])
      | none => isTrue (by simp [modesAgree_frame_iff, h])
  | .post op => isTrue ⟨nofun, nofun⟩
  | .progress op => isTrue ⟨nofun, nofun⟩
  | .env e => isTrue ⟨nofun, nofun⟩

/-- The operations that wait for all predecessors. -/
def andVerts (l₀ l : Lib) : Finset Nat :=
  (graphVerts l₀ l).filter fun v => isOptSet (l.ops v).options ffopDepOr = false

/-- An operation that waits for all predecessors is under way at most once, and only when
`dep_left` is zero. -/
structure ModesInv (l₀ l : Lib) (p : Proc) : Prop where
  user : UserInv (graphVerts l₀ l) l.ops p
  law : BalancedOn (graphVerts l₀ l) (edgeMult l.ops) (andVerts l₀ l) (p.tally l.ops)
  busy_le : ∀ v ∈ andVerts l₀ l, (l.ops v).inDepCount ≠ 0 → p.due v + p.busy v ≤ 1
  left_eq : ∀ v ∈ andVerts l₀ l, 0 < p.due v + p.busy v → (p.ops v).depLeft = 0
  orLaw : OrLaw l₀ l p

section DepModes

variable {σ : Type u} {impl : Impl σ} {cap : Nat} {l₀ l : Lib} {cs : List BuildCall}
  {x x' : System σ} {t : Thread} {e e' : σ} {p p' : Proc} {fs : List Frame} {op i d : Nat}

theorem mem_andVerts : d ∈ andVerts l₀ l ↔
    d ∈ graphVerts l₀ l ∧ isOptSet (l.ops d).options ffopDepOr = false :=
  Finset.mem_filter

theorem modesInv_init (h : GraphBuilt cap l₀ cs l) : ModesInv l₀ l (Proc.init l.ops) where
  user := UserInv.init _ _
  law d hd := depLeftLaw_iff.mp (depLeftLaw_init h) d (mem_andVerts.mp hd).1
  busy_le v _ _ := by simp [Proc.init, Proc.due, Proc.busy, Proc.frames]
  left_eq v _ hpos := by simp [Proc.init, Proc.due, Proc.busy, Proc.frames] at hpos
  orLaw d _ _ u _ _ hmem := by simp [Proc.init] at hmem

/-- Where nothing new has completed, what has been posted or announced stays so. -/
theorem OrLaw.congr (h : OrLaw l₀ l p)
    (hlog : ∀ u, .completing u ∈ p'.log → .completing u ∈ p.log)
    (hposted : ∀ v, p.log.count (.posting v) + p.due v ≠ 0 →
      p'.log.count (.posting v) + p'.due v ≠ 0)
    (hann : ∀ v, p.announcements l.ops v ≤ p'.announcements l.ops v) : OrLaw l₀ l p' := by
  intro d hd hor u hu he hmem
  rcases h d hd hor u hu he (hlog u hmem) with hp | hp
  · exact Or.inl ((posted_iff p' d).mpr (hposted d ((posted_iff p d).mp hp)))
  · exact Or.inr (hp.trans_le (hann d))

/-- The counter of a dependent without `FFOP_DEP_OR` that is posted becomes zero. -/
theorem ModesInv.left_of_triggers (hI : ModesInv l₀ l p)
    (hagree : (p.ops ((l.ops op).dependent i)).depLeft ≠ 1 →
      isOptSet (l.ops op).options ffopDepOr =
        isOptSet (l.ops ((l.ops op).dependent i)).options ffopDepOr)
    (hand : isOptSet (l.ops ((l.ops op).dependent i)).options ffopDepOr = false)
    (ht : p.Triggers op i) : (p.ops ((l.ops op).dependent i)).depLeft = 1 := by
  have hsame := hI.user.same op
  by_contra hne
  have hor : isOptSet (p.ops op).options ffopDepOr = false := by
    rw [hsame.options_eq, hagree hne, hand]
  rcases ht.1 with hz | ho
  · rw [hsame.dependent_eq] at hz
    unfold decrDepLeft at hz
    split at hz
    · cases hz
    · omega
  · rw [hor] at ho
    cases ho

/-- The predecessors of a dependent without `FFOP_DEP_OR` that is posted have completed. -/
theorem ModesInv.seen_of_left (h : GraphBuilt cap l₀ cs l) (hI : ModesInv l₀ l p)
    (hs : p.stack t = .loop op i :: fs) (hi : i < (l.ops op).outDepCount)
    (hand : isOptSet (l.ops ((l.ops op).dependent i)).options ffopDepOr = false)
    (hone : (p.ops ((l.ops op).dependent i)).depLeft = 1) {u : Nat}
    (hu : u ∈ graphVerts l₀ l) (he : l.HasEdge u ((l.ops op).dependent i)) :
    .completing u ∈ p.log := by
  have hop : op ∈ graphVerts l₀ l := hI.user.frames_mem _ (Proc.top_mem_frames hs)
  have hd := mem_andVerts.mpr ⟨h.dependent_mem hop hi, hand⟩
  have hnext := hI.law.notify (m := 0) (announcements_pos hs hi) (fun _ => hone.symm)
  have := hnext.all_since hd (by simp [Tally.notify]) hu (edgeMult_ne_zero_iff.mpr he)
  exact (of_decide_eq_true this).mem

/-- A dependent with `FFOP_DEP_OR` is posted, now or before. -/
theorem ModesInv.triggers_or_posted (hI : ModesInv l₀ l p)
    (hnp : isOptSet (l.ops op).options ffopNonPersistent = false)
    (hor : isOptSet (l.ops ((l.ops op).dependent i)).options ffopDepOr = true)
    (hagree : (p.ops ((l.ops op).dependent i)).depLeft ≠ 1 →
      isOptSet (l.ops op).options ffopDepOr =
          isOptSet (l.ops ((l.ops op).dependent i)).options ffopDepOr ∨
        isOptSet (l.ops ((l.ops op).dependent i)).options ffopDepOr = true ∧
          (.posting ((l.ops op).dependent i) ∈ p.log ∨
            .post ((l.ops op).dependent i) ∈ p.frames)) :
    p.Triggers op i ∨ .posting ((l.ops op).dependent i) ∈ p.log ∨
      .post ((l.ops op).dependent i) ∈ p.frames := by
  have hsame := hI.user.same op
  rw [Proc.Triggers, hsame.dependent_eq, hsame.options_eq]
  by_cases hone : (p.ops ((l.ops op).dependent i)).depLeft = 1
  · exact Or.inl ⟨Or.inl (by rw [hone]; rfl), Or.inr hnp⟩
  · rcases hagree hone with heq | ⟨_, hp⟩
    · exact Or.inl ⟨Or.inr (heq.trans hor), Or.inr hnp⟩
    · exact Or.inr hp

/-- What the condition says of an iteration of the loop. -/
theorem depModeLaw_of_agree (h : GraphBuilt cap l₀ cs l)
    (hnp : ∀ v ∈ graphVerts l₀ l, isOptSet (l.ops v).options ffopNonPersistent = false)
    (hI : ModesInv l₀ l x.proc) {act : UserAct σ} (hC : ModesAgree l x act) :
    DepModeLaw l₀ l x act := by
  intro t op i fs ht hstack hi
  have hop : op ∈ graphVerts l₀ l := hI.user.frames_mem _ (Proc.top_mem_frames hstack)
  have hagree := hC.loop t op i fs ht hstack hi
  refine ⟨fun hand htrigger u hu he => ?_, fun hor => ?_⟩
  · have hone := hI.left_of_triggers (fun hne => ?_) hand htrigger
    · exact hI.seen_of_left h hstack hi hand hone hu he
    · rcases hagree hne with heq | ⟨hor, _⟩
      · exact heq
      · rw [hand] at hor
        cases hor
  · exact hI.triggers_or_posted (hnp op hop) hor hagree

/-- Step lemma: `ffop_post`. -/
theorem ModesInv.postFrame (hI : ModesInv l₀ l p)
    (hnp : isOptSet (l.ops op).options ffopNonPersistent = false)
    (hs : p.stack t = .post op :: fs) (hu : UserInv (graphVerts l₀ l) l.ops p')
    (hm : FrameMove impl t e p fs (.post op) e' p') : ModesInv l₀ l p' := by
  obtain ⟨hlog, hdue', hbusy', _⟩ :=
    hm.life_post hs (Or.inr ((hI.user.same op).options_eq ▸ hnp))
  have htally : p'.tally l.ops = p.tally l.ops := hm.tally_post hs
  constructor
  · exact hu
  · rw [htally]
    exact hI.law
  · intro v hv hin
    have := hI.busy_le v hv hin
    have := hdue' v
    have := hbusy' v
    omega
  · intro v hv hpos
    have hleft : (p'.ops v).depLeft = (p.ops v).depLeft := congrArg (fun T => T.left v) htally
    have := hdue' v
    have := hbusy' v
    rw [hleft]
    exact hI.left_eq v hv (by omega)
  · refine hI.orLaw.congr (fun u hmem => ?_) (fun v hp => ?_) (fun v => ?_)
    · rw [hlog, List.mem_append] at hmem
      simpa using hmem
    · have := hdue' v
      rw [hlog, count_event_snoc]
      simp only [Event.posting.injEq]
      omega
    · exact (congrArg (fun T => T.pending v) htally).ge

/-- Step lemma: `ffop_complete`. -/
theorem ModesInv.completeFrame (h : GraphBuilt cap l₀ cs l) (hI : ModesInv l₀ l p)
    (hs : p.stack t = .complete op :: fs)
    (hC : ∀ d, l.HasEdge op d → isOptSet (l.ops d).options ffopDepOr = false →
      ¬ Since p.log (.completing op) (.completing d))
    (hu : UserInv (graphVerts l₀ l) l.ops p')
    (hm : FrameMove impl t e p fs (.complete op) e' p') : ModesInv l₀ l p' := by
  have hop : op ∈ graphVerts l₀ l := hI.user.frames_mem _ (Proc.top_mem_frames hs)
  have hbusy := busy_pos hs
  obtain ⟨hlog, hdue', hbusy', _⟩ := hm.life_complete hs
  have htally : p'.tally l.ops = (p.tally l.ops).complete (graphVerts l₀ l) (edgeMult l.ops) op :=
    hm.tally_complete hs ((hI.user.same op).in_eq.trans (h.inDepCount_eq hop))
  have hann : ∀ v, p'.announcements l.ops v =
      p.announcements l.ops v + edgeMult l.ops op v := fun v =>
    congrArg (fun T => T.pending v) htally
  constructor
  · exact hu
  · rw [htally, balancedOn_complete_iff hI.law hop (h.edgeMult_self hop)]
    refine ⟨fun d hd hm => ?_, fun hand => ?_⟩
    · exact decide_eq_false (hC d (edgeMult_ne_zero_iff.mp hm) (mem_andVerts.mp hd).2)
    · exact hI.law.pending_eq_zero hand (hI.left_eq op hand (by omega))
  · intro v hv hin
    have := hI.busy_le v hv hin
    have := hdue' v
    have := hbusy' v
    omega
  · intro v hv hpos
    have hleft : (p'.ops v).depLeft = Function.update (p.tally l.ops).left op
        (inDegree (graphVerts l₀ l) (edgeMult l.ops) op) v := congrArg (fun T => T.left v) htally
    have hd := hdue' v
    have hb := hbusy' v
    by_cases hvop : v = op
    · subst hvop
      rw [hleft, Function.update_self, ← h.inDepCount_eq hop]
      by_contra hin
      have := hI.busy_le v hv hin
      rw [if_pos rfl] at hb
      omega
    · rw [hleft, Function.update_of_ne hvop]
      rw [if_neg hvop] at hb
      exact hI.left_eq v hv (by omega)
  · intro d hd hor u hu he hmem
    rw [hlog, List.mem_append, List.mem_singleton] at hmem
    rcases hmem with hmem | hmem
    · rcases hI.orLaw d hd hor u hu he hmem with hp | hp
      · refine Or.inl ((posted_iff p' d).mpr ?_)
        have := (posted_iff p d).mp hp
        rw [hlog, count_event_snoc, hdue']
        omega
      · exact Or.inr (hp.trans_le ((hann d).ge.trans' (Nat.le_add_right _ _)))
    · obtain rfl := Event.completing.inj hmem
      have := edgeMult_ne_zero_iff.mpr he
      have := hann d
      exact Or.inr (by omega)

/-- Step lemma: an iteration of the loop of `ffop_complete`. -/
theorem ModesInv.loopFrame (hI : ModesInv l₀ l p) (hs : p.stack t = .loop op i :: fs)
    (hand : i < (l.ops op).outDepCount →
      isOptSet (l.ops ((l.ops op).dependent i)).options ffopDepOr = false →
      p.Triggers op i → (p.ops ((l.ops op).dependent i)).depLeft = 1)
    (hor : i < (l.ops op).outDepCount →
      isOptSet (l.ops ((l.ops op).dependent i)).options ffopDepOr = true →
      p.Triggers op i ∨ .posting ((l.ops op).dependent i) ∈ p.log ∨
        .post ((l.ops op).dependent i) ∈ p.frames)
    (hu : UserInv (graphVerts l₀ l) l.ops p')
    (hm : FrameMove impl t e p fs (.loop op i) e' p') : ModesInv l₀ l p' := by
  have hop : op ∈ graphVerts l₀ l := hI.user.frames_mem _ (Proc.top_mem_frames hs)
  have hsame := hI.user.same op
  obtain ⟨hlog, hdue', hbusy', _⟩ := hm.life_loop hs
  by_cases hi : i < (l.ops op).outDepCount
  · obtain ⟨hpending, htally⟩ := hm.tally_loop hs hsame hi
    simp only [hsame.out_eq, hi, true_and, hsame.dependent_eq] at hdue'
    have hpos : (l.ops op).dependent i ∈ andVerts l₀ l →
        0 < (p.ops ((l.ops op).dependent i)).depLeft := fun hd => hI.law.left_pos hd hpending
    have hleft : ∀ v, (p'.ops v).depLeft = Function.update (p.tally l.ops).left
        ((l.ops op).dependent i) (decrDepLeft (p.ops ((l.ops op).dependent i)).depLeft) v :=
      fun v => congrArg (fun T => T.left v) htally
    have hann : ∀ v, p'.announcements l.ops v = Function.update (p.tally l.ops).pending
        ((l.ops op).dependent i) ((p.tally l.ops).pending ((l.ops op).dependent i) - 1) v :=
      fun v => congrArg (fun T => T.pending v) htally
    -- a dependent that waits for all predecessors is not under way
    have hidle : (l.ops op).dependent i ∈ andVerts l₀ l →
        p.due ((l.ops op).dependent i) + p.busy ((l.ops op).dependent i) = 0 := by
      intro hd
      by_contra hne
      have := hI.left_eq _ hd (by omega)
      have := hpos hd
      omega
    constructor
    · exact hu
    · rw [htally]
      refine hI.law.notify hpending (fun hd => ?_)
      rw [decrDepLeft_of_pos (hpos hd)]
      exact Nat.sub_add_cancel (hpos hd)
    · intro v hv hin
      have hle := hI.busy_le v hv hin
      rw [hdue', hbusy']
      split
      · next hc =>
          rw [hc.2] at hv ⊢
          have := hidle hv
          omega
      · exact hle
    · intro v hv hbusy
      rw [hdue', hbusy'] at hbusy
      rw [hleft]
      by_cases hvd : v = (l.ops op).dependent i
      · subst hvd
        have ht : p.Triggers op i := by
          by_contra hno
          rw [if_neg (fun hc => hno hc.1)] at hbusy
          have := hidle hv
          omega
        rw [Function.update_self, hand hi (mem_andVerts.mp hv).2 ht]
        rfl
      · rw [if_neg (fun hc => hvd hc.2)] at hbusy
        rw [Function.update_of_ne hvd]
        exact hI.left_eq v hv hbusy
    · intro v hv hvor u hu he hmem
      rw [hlog] at hmem
      by_cases hvd : v = (l.ops op).dependent i
      · subst hvd
        refine Or.inl ((posted_iff p' _).mpr ?_)
        rw [hlog, hdue']
        rcases hor hi hvor with ht | hp
        · rw [if_pos ⟨ht, rfl⟩]
          omega
        · have := (posted_iff p _).mp hp
          omega
      · rcases hI.orLaw v hv hvor u hu he hmem with hp | hp
        · refine Or.inl ((posted_iff p' v).mpr ?_)
          have := (posted_iff p v).mp hp
          rw [hlog, hdue']
          omega
        · rw [hann, Function.update_of_ne hvd]
          exact Or.inr hp
  · have htally := hm.tally_done hs hsame (Nat.le_of_not_lt hi)
    simp only [hsame.out_eq, hi, false_and, if_false, Nat.add_zero] at hdue'
    constructor
    · exact hu
    · rw [htally]
      exact hI.law
    · intro v hv hin
      rw [hdue', hbusy']
      exact hI.busy_le v hv hin
    · intro v hv hbusy
      rw [hdue', hbusy'] at hbusy
      exact (congrArg (fun T => T.left v) htally).trans (hI.left_eq v hv hbusy)
    · refine hI.orLaw.congr (fun u hmem => hlog ▸ hmem) (fun v hp => ?_) (fun v => ?_)
      · rw [hlog, hdue']
        exact hp
      · exact (congrArg (fun T => T.pending v) htally).ge

/-- Step lemma. -/
theorem ModesInv.step (h : GraphBuilt cap l₀ cs l)
    (hnp : ∀ v ∈ graphVerts l₀ l, isOptSet (l.ops v).options ffopNonPersistent = false)
    (hI : ModesInv l₀ l x.proc) {act : UserAct σ} (hC : ModesAgree l x act)
    (hs : firstRunStep impl l₀ l x act = some x') : ModesInv l₀ l x'.proc := by
  obtain ⟨hstep, hsource⟩ := firstRunStep_cases hs
  have hu := hI.user.step (fun v hv i hi => h.dependent_mem hv hi) hstep
  cases userStep_cases hstep with
  | @post op huser hop =>
      obtain ⟨hin, _⟩ := hsource op rfl
      have htally := tally_call l.ops x.proc huser op
      obtain ⟨hdue, hbusy⟩ := life_call huser op
      constructor
      · exact hu
      · rw [htally]
        exact hI.law
      · intro v hv hinv
        have hne : v ≠ op := fun heq => hinv (heq ▸ hin)
        rw [hdue, hbusy, if_neg hne]
        exact hI.busy_le v hv hinv
      · intro v hv hpos
        by_cases hvop : v = op
        · subst hvop
          have hann : (x.proc.tally l.ops).pending v = 0 :=
            h.announcements_source hI.user hop hin
          refine hI.law.left_eq_zero hv hann (fun u huv hm => ?_)
          exact absurd (edgeMult_ne_zero_iff.mp hm) (h.no_edge_source hop hin huv)
        · rw [hdue, hbusy, if_neg hvop] at hpos
          exact hI.left_eq v hv hpos
      · refine hI.orLaw.congr (fun u hmem => hmem) (fun v hp => ?_) (fun v => ?_)
        · rw [hdue]
          dsimp only
          omega
        · exact (congrArg (fun T => T.pending v) htally).ge
  | @frame t f fs e' p' hstack hm =>
      have hf : f.op ∈ graphVerts l₀ l := hI.user.frames_mem _ (Proc.top_mem_frames hstack)
      cases f with
      | post op => exact hI.postFrame (hnp op hf) hstack hu hm
      | complete op => exact hI.completeFrame h hstack (hC.complete t op fs rfl hstack) hu hm
      | loop op i =>
          have hagree := hC.loop t op i fs rfl hstack
          refine hI.loopFrame hstack
            (fun hi hand => hI.left_of_triggers (fun hne => ?_) hand)
            (fun hi hor => hI.triggers_or_posted (hnp op hf) hor (hagree hi)) hu hm
          rcases hagree hi hne with heq | ⟨hor, _⟩
          · exact heq
          · rw [hand] at hor
            cases hor
  | @progress op e' hp hop ht =>
      have htally := tally_progress l.ops x.proc hp op
      obtain ⟨hdue, hbusy⟩ := life_progress hp hop
      constructor
      · exact hu
      · rw [htally]
        exact hI.law
      · intro v hv hin
        rw [hdue, hbusy]
        exact hI.busy_le v hv hin
      · intro v hv hpos
        rw [hdue, hbusy] at hpos
        exact hI.left_eq v hv hpos
      · refine hI.orLaw.congr (fun u hmem => hmem) (fun v hp => ?_) (fun v => ?_)
        · rw [hdue]
          exact hp
        · exact (congrArg (fun T => T.pending v) htally).ge
  | env e => exact ⟨hu, hI.law, hI.busy_le, hI.left_eq, hI.orLaw⟩

/-- **Triggering honours the dependent's own mode**, in every run in which the operation that
completes and its dependent agree where the mode decides. -/
theorem depModes_of_meets (h : GraphBuilt cap l₀ cs l)
    (hnp : ∀ v ∈ graphVerts l₀ l, isOptSet (l.ops v).options ffopNonPersistent = false)
    (impl : Impl σ) (e : σ) (as : List (UserAct σ))
    (hmeets : RunMeets (firstRunStep impl l₀ l) (ModesAgree l) ⟨e, Proc.init l.ops⟩ as) :
    RunMeets (firstRunStep impl l₀ l) (DepModeLaw l₀ l) ⟨e, Proc.init l.ops⟩ as ∧
      RunAlways (firstRunStep impl l₀ l) (fun x => OrLaw l₀ l x.proc) ⟨e, Proc.init l.ops⟩ as := by
  have hinit := modesInv_init h
  have hstep : ∀ s a s', ModesInv l₀ l s.proc → ModesAgree l s a →
      firstRunStep impl l₀ l s a = some s' → ModesInv l₀ l s'.proc :=
    fun s a s' hI hC ha => hI.step h hnp hC ha
  constructor
  · exact RunMeets.of_invariant (I := fun s : System σ => ModesInv l₀ l s.proc) hstep
      (fun s a hI hC => depModeLaw_of_agree h hnp hI hC) as _ hinit hmeets
  · exact runAlways_of_meets (I := fun s : System σ => ModesInv l₀ l s.proc)
      (fun s hI => hI.orLaw) hstep as _ hinit hmeets

/-- When all operations wait for all predecessors, every run meets the condition. -/
theorem runMeets_modesAgree (h : GraphBuilt cap l₀ cs l)
    (hor : ∀ v ∈ graphVerts l₀ l, isOptSet (l.ops v).options ffopDepOr = false)
    (impl : Impl σ) (e : σ) (as : List (UserAct σ)) :
    RunMeets (firstRunStep impl l₀ l) (ModesAgree l) ⟨e, Proc.init l.ops⟩ as := by
  refine runMeets_of_invariant (I := fun s : System σ => FirstRunInv l₀ l s.proc)
    (fun s a s' hI ha => hI.step h hor ha) (fun s a hI => ?_) as _ (firstRunInv_init h)
  constructor
  · intro t op i fs _ hstack hi _
    have hop : op ∈ graphVerts l₀ l := hI.user.frames_mem _ (Proc.top_mem_frames hstack)
    exact Or.inl ((hor op hop).trans (hor _ (h.dependent_mem hop hi)).symm)
  · intro t op fs _ hstack d _ _ hsince
    exact hI.not_completed_of_busy (busy_pos hstack) hsince.mem

end DepModes

/-! ### A send that waits for two receives, one of which has `FFOP_DEP_OR` -/

def mixedCalls : List BuildCall :=
  [.create (.recv 1 0 1) ffopDepOr, .create (.recv 2 0 2) ffopDepAnd,
    .create (.send 3 0 3) ffopDepAnd, .hb 0 2, .hb 1 2]

theorem graphBuilt_mixed : ∃ l, GraphBuilt maxDeps Lib.init mixedCalls l ∧
    (∀ v ∈ graphVerts Lib.init l, isOptSet (l.ops v).options ffopNonPersistent = false) ∧
    (l.ops 0).dependent 0 = 2 ∧ l.HasEdge 1 2 ∧
    isOptSet (l.ops 2).options ffopDepOr = false ∧ 0 < (l.ops 0).outDepCount ∧
    1 ∈ graphVerts Lib.init l ∧
    ∃ x, run (firstRunStep asyncImpl Lib.init l) ⟨(), Proc.init l.ops⟩
        ([.post 0, .frame .user, .progress 0, .frame .progress]) = some x ∧
      x.proc.prog = [.loop 0 0] ∧ x.proc.Triggers 0 0 ∧ .completing 1 ∉ x.proc.log := by
  refine ⟨_, ⟨rfl, ?_⟩, by decide, rfl, by decide, by decide, by decide, by decide, _, rfl, rfl,
    by decide, by decide⟩
  refine acyclic_of_lt id (fun a b hab => ?_)
  simp only [mixedCalls, List.mem_cons, BuildCall.hb.injEq, reduceCtorEq, List.not_mem_nil,
    or_false, false_or] at hab
  rcases hab with ⟨rfl, rfl⟩ | ⟨rfl, rfl⟩
  · decide
  · decide

/-! ### A send with `FFOP_DEP_OR`, and receives with and without it -/

def orCalls : List BuildCall :=
  [.create (.recv 1 0 1) ffopDepOr, .create (.recv 2 0 2) ffopDepAnd,
    .create (.send 3 0 3) ffopDepOr, .hb 0 2, .hb 1 2]

/-- The receive with the bit completes, and the send is posted and completes; then the other
receive completes, and leaves it. -/
def orRun : List (UserAct Unit) :=
  [.post 0, .frame .user, .post 1, .frame .user, .progress 0] ++
    List.replicate 4 (.frame .progress) ++ [.progress 2] ++ List.replicate 2 (.frame .progress) ++
    [.progress 1] ++ List.replicate 3 (.frame .progress)

theorem graphBuilt_or : ∃ l, GraphBuilt maxDeps Lib.init orCalls l ∧
    (∀ v ∈ graphVerts Lib.init l, isOptSet (l.ops v).options ffopNonPersistent = false) ∧
    RunMeets (firstRunStep asyncImpl Lib.init l) (ModesAgree l) ⟨(), Proc.init l.ops⟩ orRun ∧
    (run (firstRunStep asyncImpl Lib.init l) ⟨(), Proc.init l.ops⟩ orRun).map
      (fun x => x.proc.log) = some [.posting 0, .posting 1, .completing 0, .posting 2,
        .completing 2, .completing 1] := by
  refine ⟨_, ⟨rfl, ?_⟩, by decide, ?_, ?_⟩
  · refine acyclic_of_lt id (fun a b hab => ?_)
    simp only [orCalls, List.mem_cons, BuildCall.hb.injEq, reduceCtorEq, List.not_mem_nil,
      or_false, false_or] at hab
    rcases hab with ⟨rfl, rfl⟩ | ⟨rfl, rfl⟩
    · decide
    · decide
  · decide
  · rfl

/-- The send is posted when the first receive has completed, and not again. -/
theorem depModes_of_meets_or : ∃ l, GraphBuilt maxDeps Lib.init orCalls l ∧
    RunMeets (firstRunStep asyncImpl Lib.init l) (DepModeLaw Lib.init l) ⟨(), Proc.init l.ops⟩
        orRun ∧
      RunAlways (firstRunStep asyncImpl Lib.init l) (fun x => OrLaw Lib.init l x.proc)
        ⟨(), Proc.init l.ops⟩ orRun ∧
      (run (firstRunStep asyncImpl Lib.init l) ⟨(), Proc.init l.ops⟩ orRun).map
        (fun x => x.proc.log) = some [.posting 0, .posting 1, .completing 0, .posting 2,
          .completing 2, .completing 1] := by
  obtain ⟨l, h, hnp, hmeets, hlog⟩ := graphBuilt_or
  have hlaw := depModes_of_meets h hnp asyncImpl () orRun hmeets
  exact ⟨l, h, hlaw.1, hlaw.2, hlog⟩

/-- The receive with `FFOP_DEP_OR` completes first, and posts the send. -/
theorem depModes_fails :
    ¬ ∀ (cs : List BuildCall) (l : Lib), GraphBuilt maxDeps Lib.init cs l →
      (∀ v ∈ graphVerts Lib.init l, isOptSet (l.ops v).options ffopNonPersistent = false) →
      ∀ as : List (UserAct Unit), RunMeets (firstRunStep asyncImpl Lib.init l)
        (DepModeLaw Lib.init l) ⟨(), Proc.init l.ops⟩ as := by
  intro hall
  obtain ⟨l, h, hnp, hdep, hedge, hand, hi, hmem, x, hrun, hstack, htrigger, hnot⟩ :=
    graphBuilt_mixed
  have hlaw := ((hall mixedCalls l h hnp _).last hrun .progress 0 0 [] rfl hstack hi).1
  rw [hdep] at hlaw
  exact hnot (hlaw hand htrigger 1 hmem hedge)

end Fflib
