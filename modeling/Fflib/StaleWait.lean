import Fflib.Posts

/-!
# Waiting on a schedule

`ffschedule_post`, `ffschedule_test` and `ffschedule_wait` on one schedule, in any order,
except that a run is posted only when the previous one has entirely completed, whether or
not the user has waited for it (`waitStep`).  `ffschedule_test` and `ffschedule_wait` read
and clear the `completed` flag of `end_op`; it is set when `end_op` completes, and cleared
otherwise when `end_op` is posted, at the end of a run.

* `EndMove`: what a frame does to `end_op`.
* `WaitInv` says which run the flag is of.
* `staleWait_iff`: completion is reported only of the current run iff, in a run that was
  posted before the completion of the previous one was reported, no test and no wait comes
  before `end_op` is posted.
-/

namespace Fflib

open Library

universe u

/-- `ffop_test`: the flag, and the operation with the flag cleared. -/
def ffopTest (op : Nat) (p : Proc) : Nat × Proc :=
  let flag := (p.ops op).completed
  (flag, if flag ≠ 0 then p.setOp op (fun o => { o with completed := 0 }) else p)

/-- `ffschedule_test`. -/
def ffscheduleTest (s : FfSchedule) (p : Proc) : Nat × Proc := ffopTest s.endOp p

/-- The process, and what its user has seen: `reported` says that a test or a wait has
reported completion since `end_op` last completed, or since the run was posted; `stale`
that the completion of the previous run was not reported when the current run was posted.
The log is that of the current run. -/
structure WaitState (σ : Type u) where
  env : σ
  proc : Proc
  reported : Bool
  stale : Bool

inductive WaitAct (σ : Type u) where
  | post
  | test
  | wait
  | engine (act : UserAct σ)

/-- The run has entirely completed. -/
def RunOver (l₀ l : Lib) (p : Proc) : Prop :=
  p.frames = [] ∧ p.pending = [] ∧ ∀ v ∈ graphVerts l₀ l, .completing v ∈ p.log

instance (l₀ l : Lib) (p : Proc) : Decidable (RunOver l₀ l p) :=
  inferInstanceAs (Decidable (_ ∧ _ ∧ _))

section Steps

variable {σ : Type u}

def WaitState.init (e : σ) (l : Lib) : WaitState σ where
  env := e
  proc := Proc.init l.ops
  reported := false
  stale := false

/-- A test or a wait of the user now reports completion. -/
def WaitState.Reports (s : FfSchedule) (x : WaitState σ) : Prop :=
  x.proc.user = [] ∧ (ffscheduleTest s x.proc).1 ≠ 0

instance (s : FfSchedule) (x : WaitState σ) : Decidable (x.Reports s) :=
  inferInstanceAs (Decidable (_ ∧ _))

/-- After a test, or a wait that returns. -/
def WaitState.seen (s : FfSchedule) (x : WaitState σ) : WaitState σ where
  env := x.env
  proc := (ffscheduleTest s x.proc).2
  reported := x.reported || decide (x.Reports s)
  stale := x.stale

/-- The frame that `act` runs is the one in which `end_op` completes. -/
def WaitState.CompletesEnd (s : FfSchedule) (x : WaitState σ) : UserAct σ → Prop
  | .frame t => (x.proc.stack t).head? = some (.complete s.endOp)
  | _ => False

instance (s : FfSchedule) (x : WaitState σ) (act : UserAct σ) :
    Decidable (x.CompletesEnd s act) := by
  cases act
  all_goals
    unfold WaitState.CompletesEnd
    infer_instance

/-- One step.  A wait returns when it finds the flag set; posts of single operations are
not among the steps. -/
def waitStep (impl : Impl σ) (l₀ l : Lib) (s : FfSchedule) (x : WaitState σ) :
    WaitAct σ → Option (WaitState σ)
  | .post =>
      if x.proc.running = true → RunOver l₀ l x.proc then
        (ffschedulePost impl s x.env { x.proc with running := false }).map fun r =>
          { env := r.1
            proc := r.2
            reported := false
            stale := decide (.completing s.endOp ∈ x.proc.log) && !x.reported }
      else none
  | .test => if x.proc.user = [] then some (x.seen s) else none
  | .wait => if x.Reports s then some (x.seen s) else none
  | .engine act =>
      (userStep impl ∅ ⟨x.env, x.proc⟩ act).map fun y =>
        { env := y.env
          proc := y.proc
          reported := x.reported && !decide (x.CompletesEnd s act)
          stale := x.stale }

/-- A test or a wait. -/
def WaitAct.Asks : WaitAct σ → Prop
  | .test => True
  | .wait => True
  | _ => False

/-- Completion is reported when `end_op` has completed in the current run. -/
def ReportsCurrent (s : FfSchedule) (x : WaitState σ) (act : WaitAct σ) : Prop :=
  act.Asks → x.Reports s → .completing s.endOp ∈ x.proc.log

/-- In a run that was posted before the completion of the previous one was reported, a test
or a wait comes after `end_op` has been posted. -/
def AsksInTime (s : FfSchedule) (x : WaitState σ) (act : WaitAct σ) : Prop :=
  act.Asks → x.proc.user = [] → x.stale = true → .posting s.endOp ∈ x.proc.log

end Steps

/-! ### What a frame does to `end_op` -/

/-- A call of `ffop_complete` is always the topmost of its stack. -/
def CompleteOnTop (p : Proc) : Prop := ∀ t v, .complete v ∉ (p.stack t).tail

theorem CompleteOnTop.count_le {p : Proc} (h : CompleteOnTop p) (v : Nat) :
    p.frames.count (.complete v) ≤ 2 := by
  have hone : ∀ t, (p.stack t).count (.complete v) ≤ 1 := by
    intro t
    have ht := h t v
    cases hs : p.stack t with
    | nil => simp
    | cons f fs =>
        rw [hs, List.tail_cons] at ht
        rw [List.count_cons, List.count_eq_zero.mpr ht]
        split <;> omega
  have := hone .user
  have := hone .progress
  simp only [Proc.stack] at *
  rw [Proc.frames, List.count_append]
  omega

/-- What a step does to the flag of `e`, to its events, and to its completions under way. -/
inductive EndMove (e : Nat) (p p' : Proc) (completes : Prop) : Prop
  | same (hno : ¬ completes) (hflag : (p'.ops e).completed = (p.ops e).completed)
      (hpost : .posting e ∈ p'.log ↔ .posting e ∈ p.log)
      (hcomp : .completing e ∈ p'.log ↔ .completing e ∈ p.log)
      (hcount : p'.frames.count (.complete e) = p.frames.count (.complete e))
  | posting (hno : ¬ completes) (hflag : (p'.ops e).completed = 0)
      (hpost : .posting e ∈ p'.log) (hcomp : .completing e ∈ p'.log ↔ .completing e ∈ p.log)
      (hmem : .complete e ∈ p'.frames)
  | completing (hyes : completes)
      (hflag : (p'.ops e).completed = ((p.ops e).completed + 1) % 2 ^ 8)
      (hpost : .posting e ∈ p'.log ↔ .posting e ∈ p.log) (hcomp : .completing e ∈ p'.log)
      (hcount : p'.frames.count (.complete e) + 1 = p.frames.count (.complete e))

section Moves

variable {σ : Type u} {impl : Impl σ} {t : Thread} {env env' : σ} {p p' : Proc} {f : Frame}
  {fs : List Frame} {e : Nat}

theorem FrameMove.completeOnTop (hs : p.stack t = f :: fs)
    (hm : FrameMove impl t env p fs f env' p') (h : CompleteOnTop p) : CompleteOnTop p' := by
  have htail : ∀ v, .complete v ∉ fs := by
    intro v
    have := h t v
    rwa [hs, List.tail_cons] at this
  have hset : ∀ (q : Proc) (r : List Frame), (∀ u, q.stack u = p.stack u) →
      (∀ v, .complete v ∉ (r ++ fs).tail) → CompleteOnTop (q.setStack (r ++ fs) t) := by
    intro q r hq hr u v
    rw [Proc.stack_setStack]
    split
    · exact hr v
    · rw [hq]
      exact h u v
  have hpop : ∀ v, .complete v ∉ ([] ++ fs).tail := fun v hv =>
    htail v (List.mem_of_mem_tail hv)
  have hstack : ∀ (q : Proc), q.user = p.user → q.prog = p.prog → ∀ u, q.stack u = p.stack u := by
    intro q hu hp u
    cases u with
    | user => exact hu
    | progress => exact hp
  cases hm with
  | refused hv ho => exact hset p [] (fun _ => rfl) hpop
  | @pending x _ hr =>
      exact hset ((p.logPosting x).addPending x) [] (hstack _ rfl rfl) hpop
  | @posted x _ hr =>
      exact hset (p.logPosting x) [.complete x] (hstack _ rfl rfl) htail
  | @failed x _ _ hr hne => exact hset (p.logPosting x) [] (hstack _ rfl rfl) hpop
  | @complete x =>
      exact hset (p.logCompleting x) [.loop x 0] (hstack _ rfl rfl) htail
  | @trigger x i hi ht =>
      refine hset (p.decrDep x i) [.post _, .loop x (i + 1)] (hstack _ rfl rfl) (fun v hv => ?_)
      rcases List.mem_cons.mp hv with hv | hv
      · cases hv
      · exact htail v hv
  | @announce x i hi ht =>
      exact hset (p.decrDep x i) [.loop x (i + 1)] (hstack _ rfl rfl) htail
  | done hi => exact hset p [] (fun _ => rfl) hpop

theorem completed_decrDep (p : Proc) (x i v : Nat) :
    ((p.decrDep x i).ops v).completed = (p.ops v).completed :=
  Proc.setOp_ops_of Ffop.completed (fun _ => by rfl) p _ v

theorem completed_logPosting (p : Proc) {x v : Nat} (h : v ≠ x) :
    ((p.logPosting x).ops v).completed = (p.ops v).completed := by
  simp [Proc.logPosting, h]

theorem FrameMove.endMove (hnop : (p.ops e).body = .nop) (hs : p.stack t = f :: fs)
    (hm : FrameMove impl t env p fs f env' p') : EndMove e p p' (f = .complete e) := by
  have hcount : ∀ (q : Proc) (r : List Frame), q.user = p.user → q.prog = p.prog →
      (q.setStack (r ++ fs) t).frames.count (.complete e) +
          (if f = .complete e then 1 else 0) =
        p.frames.count (.complete e) + r.count (.complete e) :=
    fun q r hu hp => Proc.count_frames_setStack (r := r) hs hu hp _
  have hne : ∀ {x : Nat} {r : Int}, implPost impl x ((p.logPosting x).ops x) env = (env', r) →
      r ≠ ffCompleted → e ≠ x := by
    rintro x r hr hr' rfl
    rw [implPost_nop_of_posting hnop] at hr
    exact hr' (congrArg Prod.snd hr).symm
  cases hm with
  | refused hv ho =>
      refine .same (by simp) (by simp) (by simp) (by simp) ?_
      simpa using hcount p [] rfl rfl
  | @pending x _ hr =>
      have hx : e ≠ x := hne hr (by decide)
      refine .same (by simp) ?_ ?_ ?_ ?_
      · rw [Proc.setStack_ops]
        exact completed_logPosting p hx
      · simp [Proc.addPending, Proc.logPosting, hx]
      · simp [Proc.addPending, Proc.logPosting]
      · simpa using hcount ((p.logPosting x).addPending x) [] rfl rfl
  | @posted x _ hr =>
      by_cases hx : e = x
      · subst hx
        refine .posting (by simp) ?_ ?_ ?_ ?_
        · simp [Proc.logPosting]
        · simp [Proc.logPosting]
        · simp [Proc.logPosting]
        · rw [← List.count_pos_iff]
          have := hcount (p.logPosting e) [.complete e] rfl rfl
          simp only [List.singleton_append, List.count_singleton_self, reduceCtorEq,
            if_false] at this
          omega
      · refine .same (by simp) ?_ ?_ ?_ ?_
        · rw [Proc.setStack_ops]
          exact completed_logPosting p hx
        · simp [Proc.logPosting, hx]
        · simp [Proc.logPosting]
        · simpa [Ne.symm hx] using hcount (p.logPosting x) [.complete x] rfl rfl
  | @failed x _ _ hr hr' =>
      have hx : e ≠ x := hne hr hr'.2
      refine .same (by simp) ?_ ?_ ?_ ?_
      · rw [Proc.setStack_ops]
        exact completed_logPosting p hx
      · simp [Proc.logPosting, hx]
      · simp [Proc.logPosting]
      · simpa using hcount (p.logPosting x) [] rfl rfl
  | @complete x =>
      by_cases hx : e = x
      · subst hx
        refine .completing rfl ?_ ?_ ?_ ?_
        · simp [Proc.logCompleting]
        · simp [Proc.logCompleting]
        · simp [Proc.logCompleting]
        · simpa using hcount (p.logCompleting e) [.loop e 0] rfl rfl
      · refine .same (by simp [Ne.symm hx]) ?_ ?_ ?_ ?_
        · simp [Proc.logCompleting, hx]
        · simp [Proc.logCompleting]
        · simp [Proc.logCompleting, hx]
        · simpa [Ne.symm hx] using hcount (p.logCompleting x) [.loop x 0] rfl rfl
  | @trigger x i hi ht =>
      refine .same (by simp) ?_ (by simp [Proc.decrDep]) (by simp [Proc.decrDep]) ?_
      · rw [Proc.setStack_ops]
        exact completed_decrDep p x i e
      · simpa using hcount (p.decrDep x i) [.post _, .loop x (i + 1)] rfl rfl
  | @announce x i hi ht =>
      refine .same (by simp) ?_ (by simp [Proc.decrDep]) (by simp [Proc.decrDep]) ?_
      · rw [Proc.setStack_ops]
        exact completed_decrDep p x i e
      · simpa using hcount (p.decrDep x i) [.loop x (i + 1)] rfl rfl
  | done hi =>
      refine .same (by simp) (by simp) (by simp) (by simp) ?_
      simpa using hcount p [] rfl rfl

theorem FrameMove.running_eq (hm : FrameMove impl t env p fs f env' p') :
    p'.running = p.running := by
  cases hm with
  | refused hv ho => simp
  | pending hr => simp [Proc.addPending, Proc.logPosting]
  | posted hr => simp [Proc.logPosting]
  | failed hr hne => simp [Proc.logPosting]
  | complete => simp [Proc.logCompleting]
  | trigger hi ht => simp [Proc.decrDep]
  | announce hi ht => simp [Proc.decrDep]
  | done hi => simp

/-- A nop does not wait for the progress thread. -/
theorem FrameMove.not_pending (hnop : (p.ops e).body = .nop)
    (hm : FrameMove impl t env p fs f env' p') (h : e ∉ p.pending) : e ∉ p'.pending := by
  cases hm with
  | refused hv ho => simpa using h
  | @pending x _ hr =>
      rw [Proc.setStack_pending, Proc.addPending_pending, List.mem_cons, not_or]
      refine ⟨?_, h⟩
      rintro rfl
      rw [implPost_nop_of_posting hnop] at hr
      have hcode : ffCompleted = ffSuccess := congrArg Prod.snd hr
      exact absurd hcode (by decide)
  | posted hr => simpa using h
  | failed hr hne => simpa using h
  | complete => simpa using h
  | trigger hi ht => simpa [Proc.decrDep] using h
  | announce hi ht => simpa [Proc.decrDep] using h
  | done hi => simpa using h

end Moves

/-! ### Whose completion the flag is of -/

/-- The invariant, when no completion of an earlier run was reported. -/
structure WaitInv {σ : Type u} (e : Nat) (x : WaitState σ) : Prop where
  nop : (x.proc.ops e).body = .nop
  not_pending : e ∉ x.proc.pending
  onTop : CompleteOnTop x.proc
  flag_le : (x.proc.ops e).completed + x.proc.frames.count (.complete e) ≤ 2
  posted : .completing e ∈ x.proc.log ∨ .complete e ∈ x.proc.frames → .posting e ∈ x.proc.log
  source : (x.proc.ops e).completed ≠ 0 → (.completing e ∈ x.proc.log ∧ x.reported = false) ∨
    (x.stale = true ∧ .posting e ∉ x.proc.log)
  unreported : .completing e ∈ x.proc.log → x.reported = false →
    (x.proc.ops e).completed ≠ 0 ∨ .complete e ∈ x.proc.frames
  kept : x.stale = true → .posting e ∉ x.proc.log → (x.proc.ops e).completed ≠ 0
  idle : x.proc.running = false →
    x.proc.frames = [] ∧ x.proc.pending = [] ∧ x.stale = false

section Inv

variable {σ : Type u} {impl : Impl σ} {e : Nat} {x : WaitState σ} {s : FfSchedule} {l₀ l : Lib}

/-- Step lemma: the engine moves. -/
theorem WaitInv.move (h : WaitInv e x) {env : σ} {p : Proc} {completes : Prop}
    [Decidable completes] (hm : EndMove e x.proc p completes)
    (hbody : (p.ops e).body = (x.proc.ops e).body) (hpending : e ∉ p.pending)
    (htop : CompleteOnTop p) (hrun : p.running = true) :
    WaitInv e ⟨env, p, x.reported && !decide completes, x.stale⟩ := by
  have hle := h.flag_le
  have hidle : p.running = false → p.frames = [] ∧ p.pending = [] ∧ x.stale = false := by
    intro hno
    rw [hrun] at hno
    cases hno
  cases hm with
  | same hno hflag hpost hcomp hcount =>
      have hmem : .complete e ∈ p.frames ↔ .complete e ∈ x.proc.frames := by
        rw [← List.count_pos_iff, ← List.count_pos_iff, hcount]
      have hrep : (x.reported && !decide completes) = x.reported := by simp [hno]
      rw [hrep]
      constructor
      · exact hbody.trans h.nop
      · exact hpending
      · exact htop
      · simp only [hflag, hcount]
        exact hle
      · simp only [hpost, hcomp, hmem]
        exact h.posted
      · simp only [hflag, hpost, hcomp]
        exact h.source
      · simp only [hflag, hcomp, hmem]
        exact h.unreported
      · simp only [hflag, hpost]
        exact h.kept
      · exact hidle
  | posting hno hflag hpost hcomp hmem =>
      constructor
      · exact hbody.trans h.nop
      · exact hpending
      · exact htop
      · simp only [hflag, Nat.zero_add]
        exact htop.count_le e
      · exact fun _ => hpost
      · exact fun hne => absurd hflag hne
      · exact fun _ _ => Or.inr hmem
      · exact fun _ hno => absurd hpost hno
      · exact hidle
  | completing hyes hflag hpost hcomp hcount =>
      -- the flag is at most two, so that it does not wrap
      have hflag' : (p.ops e).completed = (x.proc.ops e).completed + 1 := by
        rw [hflag, Nat.mod_eq_of_lt (by omega)]
      have hposted : .posting e ∈ p.log := by
        refine hpost.mpr (h.posted (Or.inr ?_))
        exact List.count_pos_iff.mp (by omega)
      have hrep : (x.reported && !decide completes) = false := by simp [hyes]
      rw [hrep]
      constructor
      · exact hbody.trans h.nop
      · exact hpending
      · exact htop
      · simp only [hflag']
        omega
      · exact fun _ => hposted
      · exact fun _ => Or.inl ⟨hcomp, rfl⟩
      · exact fun _ _ => Or.inl (by simp only [hflag']; omega)
      · exact fun _ hno => absurd hposted hno
      · exact hidle

/-- Under the invariant, what is asked of a test or a wait is the condition. -/
theorem WaitInv.reportsCurrent_iff (h : WaitInv s.endOp x) (act : WaitAct σ) :
    ReportsCurrent s x act ↔ AsksInTime s x act := by
  constructor
  · intro hlaw hasks huser hstale
    by_contra hno
    have hflag := h.kept hstale hno
    exact hno (h.posted (Or.inl (hlaw hasks ⟨huser, hflag⟩)))
  · rintro htime hasks ⟨huser, hflag⟩
    rcases h.source hflag with hcomp | ⟨hstale, hno⟩
    · exact hcomp.1
    · exact absurd (htime hasks huser hstale) hno

/-- Step lemma: a test, or a wait that returns. -/
theorem WaitInv.seen (h : WaitInv s.endOp x) {act : WaitAct σ} (hasks : act.Asks)
    (huser : x.proc.user = []) (htime : AsksInTime s x act) : WaitInv s.endOp (x.seen s) := by
  by_cases hflag : (x.proc.ops s.endOp).completed = 0
  · have hseen : x.seen s = x := by
      have hno : ¬ x.Reports s := fun hr => hr.2 hflag
      simp [WaitState.seen, hno, ffscheduleTest, ffopTest, hflag]
    rw [hseen]
    exact h
  · have hrep : x.Reports s := ⟨huser, hflag⟩
    have hproc : (x.seen s).proc =
        x.proc.setOp s.endOp (fun o => { o with completed := 0 }) := by
      simp [WaitState.seen, ffscheduleTest, ffopTest, hflag]
    have hclear : ((x.seen s).proc.ops s.endOp).completed = 0 := by
      rw [hproc]
      simp [Proc.setOp]
    have hframes : (x.seen s).proc.frames = x.proc.frames := by
      rw [hproc]
      rfl
    have hreported : (x.seen s).reported = true := by simp [WaitState.seen, hrep]
    have hle := h.flag_le
    constructor
    · rw [hproc]
      simpa [Proc.setOp] using h.nop
    · rw [hproc]
      exact h.not_pending
    · intro t v
      have := h.onTop t v
      rw [hproc]
      cases t with
      | user => exact this
      | progress => exact this
    · rw [hclear, hframes]
      omega
    · rw [hframes, hproc]
      exact h.posted
    · exact fun hne => absurd hclear hne
    · intro _ hno
      rw [hreported] at hno
      cases hno
    · intro hstale hno
      rw [hproc] at hno
      exact absurd (htime hasks huser hstale) hno
    · intro hrun
      rw [hproc] at hrun
      rw [hframes, hproc]
      exact h.idle hrun

/-- Step lemma: a run is posted when the previous one is over. -/
theorem WaitInv.post (h : WaitInv s.endOp x) (hend : s.endOp ∈ graphVerts l₀ l)
    (hover : x.proc.running = true → RunOver l₀ l x.proc) {r : σ × Proc}
    (hr : ffschedulePost impl s x.env { x.proc with running := false } = some r) :
    WaitInv s.endOp ⟨r.1, r.2, false,
      decide (.completing s.endOp ∈ x.proc.log) && !x.reported⟩ := by
  obtain ⟨e', p'⟩ := r
  obtain ⟨huser, _, _, rfl⟩ := ffschedulePost_eq_some hr
  have hframes : x.proc.frames = [] := by
    cases hrun : x.proc.running with
    | false => exact (h.idle hrun).1
    | true => exact (hover hrun).1
  have hprog : x.proc.prog = [] := (List.append_eq_nil_iff.mp hframes).2
  have hle := h.flag_le
  constructor
  · exact h.nop
  · exact h.not_pending
  · intro t v
    cases t with
    | user => simp [Proc.stack]
    | progress => simp [Proc.stack, hprog]
  · simp only [Proc.frames, hprog, List.append_nil]
    simp only [hframes, List.count_nil, Nat.add_zero] at hle
    simpa using hle
  · simp [Proc.frames, hprog]
  · intro hne
    have hcomp : .completing s.endOp ∈ x.proc.log ∧ x.reported = false := by
      rcases h.source hne with hcomp | ⟨hstale, hno⟩
      · exact hcomp
      · -- the previous run, if there was one, has posted `end_op`
        cases hrun : x.proc.running with
        | false =>
            rw [(h.idle hrun).2.2] at hstale
            cases hstale
        | true => exact absurd (h.posted (Or.inl ((hover hrun).2.2 _ hend))) hno
    exact Or.inr ⟨by simp [hcomp], by simp⟩
  · intro hmem
    cases hmem
  · intro hstale _
    simp only [Bool.and_eq_true, decide_eq_true_eq, Bool.not_eq_true'] at hstale
    rcases h.unreported hstale.1 hstale.2 with hflag | hmem
    · exact hflag
    · rw [hframes] at hmem
      cases hmem
  · intro hrun
    cases hrun

/-- Step lemma: the threads go on. -/
theorem WaitInv.engine (h : WaitInv s.endOp x) {act : UserAct σ} {y : System σ}
    (hs : userStep impl ∅ ⟨x.env, x.proc⟩ act = some y) :
    WaitInv s.endOp ⟨y.env, y.proc, x.reported && !decide (x.CompletesEnd s act), x.stale⟩ := by
  have hbusy : x.proc.frames ≠ [] ∨ x.proc.pending ≠ [] → x.proc.running = true := by
    intro hne
    by_contra hno
    have hidle := h.idle (Bool.eq_false_iff.mpr hno)
    rcases hne with hne | hne
    · exact hne hidle.1
    · exact hne hidle.2.1
  cases userStep_cases hs with
  | post hu hop => cases hop
  | @frame t f fs e' p' hstack hm =>
      have hcompletes : x.CompletesEnd s (.frame t) ↔ f = .complete s.endOp := by
        simp [WaitState.CompletesEnd, hstack]
      have hrun : p'.running = true := by
        rw [hm.running_eq]
        exact hbusy (Or.inl (List.ne_nil_of_mem (Proc.top_mem_frames hstack)))
      have hmove := hm.endMove h.nop hstack
      rw [← hcompletes] at hmove
      exact h.move hmove (hm.sameOp _).body_eq (hm.not_pending h.nop h.not_pending)
        (hm.completeOnTop hstack h.onTop) hrun
  | @progress op e' hp hop ht =>
      have hne : op ≠ s.endOp := by
        rintro rfl
        exact h.not_pending hop
      have hprog : x.proc.prog = [] := hp
      refine h.move (.same (fun hc => hc) rfl Iff.rfl Iff.rfl ?_) rfl
        (fun hmem => h.not_pending (List.mem_of_mem_erase hmem)) ?_
        (hbusy (Or.inr (List.ne_nil_of_mem hop)))
      · simp [Proc.frames, hprog, hne]
      · intro t v
        cases t with
        | user => exact h.onTop .user v
        | progress => simp [Proc.stack]
  | env e' =>
      have hno : ¬ x.CompletesEnd s (.env e') := fun hc => hc
      have hrep : (x.reported && !decide (x.CompletesEnd s (.env e'))) = x.reported := by
        simp [hno]
      rw [hrep]
      exact ⟨h.nop, h.not_pending, h.onTop, h.flag_le, h.posted, h.source, h.unreported, h.kept,
        h.idle⟩

/-- Step lemma. -/
theorem WaitInv.step (h : WaitInv s.endOp x) (hend : s.endOp ∈ graphVerts l₀ l)
    {act : WaitAct σ} (htime : AsksInTime s x act) {x' : WaitState σ}
    (hs : waitStep impl l₀ l s x act = some x') : WaitInv s.endOp x' := by
  cases act with
  | post =>
      simp only [waitStep] at hs
      split at hs
      · next hover =>
          obtain ⟨r, hr, rfl⟩ := Option.map_eq_some_iff.mp hs
          exact h.post hend hover hr
      · cases hs
  | test =>
      simp only [waitStep] at hs
      split at hs
      · next huser =>
          obtain rfl := Option.some.inj hs
          have hasks : (WaitAct.test : WaitAct σ).Asks := trivial
          exact h.seen hasks huser htime
      · cases hs
  | wait =>
      simp only [waitStep] at hs
      split at hs
      · next hrep =>
          obtain rfl := Option.some.inj hs
          have hasks : (WaitAct.wait : WaitAct σ).Asks := trivial
          exact h.seen hasks hrep.1 htime
      · cases hs
  | engine act =>
      obtain ⟨y, hy, rfl⟩ := Option.map_eq_some_iff.mp hs
      exact h.engine hy

end Inv

section Waits

variable {σ : Type u} {impl : Impl σ} {cap : Nat} {l₀ l : Lib} {cs : List BuildCall}
  {s : FfSchedule}

theorem waitInv_init (hb : run (buildStep cap l₀.opid) ⟨none, l₀⟩ cs = some ⟨some s, l⟩) (e : σ) :
    WaitInv s.endOp (WaitState.init e l) := by
  have hinv := buildInv_of_run cs _ hb
  have hops := hinv.sched s rfl
  have hflag : (l.ops s.endOp).completed = 0 :=
    hinv.lib.completed_eq _ hops.end_mem.1 hops.end_mem.2
  constructor
  · exact hops.end_nop
  · simp [WaitState.init, Proc.init]
  · intro t v
    cases t <;> simp [WaitState.init, Proc.init, Proc.stack]
  · simp [WaitState.init, Proc.init, Proc.frames, hflag]
  · simp [WaitState.init, Proc.init, Proc.frames]
  · intro hne
    exact absurd hflag hne
  · intro hmem
    cases hmem
  · intro hstale
    cases hstale
  · intro _
    exact ⟨rfl, rfl, rfl⟩

/-- **Waiting on a schedule**: a test or a wait reports completion only of the current run
iff, in a run that was posted before the completion of the previous one was reported, none
comes before `end_op` has been posted. -/
theorem staleWait_iff (hb : run (buildStep cap l₀.opid) ⟨none, l₀⟩ cs = some ⟨some s, l⟩)
    (impl : Impl σ) (e : σ) (as : List (WaitAct σ)) :
    RunMeets (waitStep impl l₀ l s) (ReportsCurrent s) (WaitState.init e l) as ↔
      RunMeets (waitStep impl l₀ l s) (AsksInTime s) (WaitState.init e l) as := by
  have hend : s.endOp ∈ graphVerts l₀ l :=
    Finset.mem_Ico.mpr ((buildInv_of_run cs _ hb).sched s rfl).end_mem
  have hiff : ∀ (x : WaitState σ) (act : WaitAct σ), WaitInv s.endOp x →
      (ReportsCurrent s x act ↔ AsksInTime s x act) := fun x act h => h.reportsCurrent_iff act
  have hstep : ∀ (x : WaitState σ) (act : WaitAct σ) (x' : WaitState σ), WaitInv s.endOp x →
      AsksInTime s x act → waitStep impl l₀ l s x act = some x' → WaitInv s.endOp x' :=
    fun x act x' h htime hs => h.step hend htime hs
  constructor
  · exact RunMeets.of_invariant
      (fun x act x' h hlaw hs => hstep x act x' h ((hiff x act h).mp hlaw) hs)
      (fun x act h => (hiff x act h).mp) as _ (waitInv_init hb e)
  · exact RunMeets.of_invariant hstep (fun x act h => (hiff x act h).mpr) as _
      (waitInv_init hb e)

end Waits

/-! ### A run that nobody has waited for -/

/-- The first run of the schedule of `sendRecvCalls` completes, the user posts the second
one, in which the send is under way, and tests. -/
def unseenRun : List (WaitAct Unit) :=
  (.post :: List.replicate 5 (.engine (.frame .user))) ++
    (.engine (.progress 0) :: List.replicate 4 (.engine (.frame .progress))) ++
    (.engine (.progress 1) :: List.replicate 6 (.engine (.frame .progress))) ++
    (.post :: List.replicate 5 (.engine (.frame .user)))

theorem unseenRun_built : ∃ s l, run (buildStep maxDeps Lib.init.opid) ⟨none, Lib.init⟩
      sendRecvCalls = some ⟨some s, l⟩ ∧
    ∃ x, run (waitStep asyncImpl Lib.init l s) (WaitState.init () l) unseenRun = some x ∧
      ¬ ReportsCurrent s x .test := by
  refine ⟨_, _, rfl, _, rfl, fun hlaw => ?_⟩
  exact absurd (hlaw trivial (by decide)) (by decide)

theorem staleWait_iff_unseen : ∃ s l, run (buildStep maxDeps Lib.init.opid) ⟨none, Lib.init⟩
      sendRecvCalls = some ⟨some s, l⟩ ∧
    (RunMeets (waitStep asyncImpl Lib.init l s) (ReportsCurrent s) (WaitState.init () l)
        unseenRun ↔
      RunMeets (waitStep asyncImpl Lib.init l s) (AsksInTime s) (WaitState.init () l)
        unseenRun) := by
  obtain ⟨s, l, hb, _⟩ := unseenRun_built
  exact ⟨s, l, hb, staleWait_iff hb asyncImpl () unseenRun⟩

/-- The test reports the completion of the first run. -/
theorem staleWait_fails :
    ¬ ∀ (cs : List BuildCall) (s : FfSchedule) (l : Lib),
      run (buildStep maxDeps Lib.init.opid) ⟨none, Lib.init⟩ cs = some ⟨some s, l⟩ →
        ∀ as : List (WaitAct Unit), RunMeets (waitStep asyncImpl Lib.init l s)
          (ReportsCurrent s) (WaitState.init () l) as := by
  intro hall
  obtain ⟨s, l, hb, x, hrun, hbad⟩ := unseenRun_built
  exact hbad ((hall _ s l hb (unseenRun ++ [.test])).last hrun)

end Fflib
