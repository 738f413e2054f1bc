import Fflib.Cascade

/-!
# Operations that are lost

An operation whose post handler answers with an error is started and never completes: nothing
calls `ffop_complete` for it.  The rest of its round goes on without it, as if the operation
were pending for ever; so what `Running` says of a round still holds, of the process to whose
pending operations the lost ones are added (`Proc.hold`).

* `Running.frameStep_lost`, `Running.progressStep_lost` and `Running.waitStep_lost` are the
  step lemmas of a round; a process that has lost an operation does not return from
  `ffschedule_wait`.
* `Held` is the invariant of a process that may lose operations, between two rounds or in one.
-/

namespace Fflib

open Library

universe u

section Lost

variable {σ : Type u}

/-- The handlers, but what fails is pending. -/
def Impl.holding (impl : Impl σ) : Impl σ where
  post x o e :=
    if IsError (impl.post x o e).2 then ((impl.post x o e).1, ffSuccess) else impl.post x o e
  test := impl.test
  postCallback := impl.postCallback

theorem Impl.holding_succeeds (impl : Impl σ) : impl.holding.Succeeds := by
  intro x o e
  simp only [holding]
  split
  · exact Or.inl rfl
  · next h =>
      simp only [IsError, not_and_or, not_not] at h
      exact h

/-- The operations `lost` are pending too. -/
def Proc.hold (lost : List Nat) (p : Proc) : Proc := { p with pending := p.pending ++ lost }

@[simp] theorem Proc.hold_ops (lost : List Nat) (p : Proc) : (p.hold lost).ops = p.ops := rfl
@[simp] theorem Proc.hold_stack (lost : List Nat) (p : Proc) (t : Thread) :
    (p.hold lost).stack t = p.stack t := by cases t <;> rfl
@[simp] theorem Proc.hold_frames (lost : List Nat) (p : Proc) :
    (p.hold lost).frames = p.frames := rfl
@[simp] theorem Proc.hold_nil (p : Proc) : p.hold [] = p := by
  simp [Proc.hold]

/-- The operation that the next step of a thread loses. -/
def lostBy (impl : Impl σ) (t : Thread) (e : σ) (p : Proc) : List Nat :=
  match p.stack t with
  | .post x :: _ =>
      if IsError (implPost impl x ((p.logPosting x).ops x) e).2 then [x] else []
  | _ => []

variable {impl : Impl σ} {G : DepGraph Nat} {ops₀ : Nat → Ffop} {e₀ : Nat} {p p' : Proc}
  {lost : List Nat} {a : Progress Nat} {env env' : σ} {t : Thread} {x : Nat}

theorem implPost_holding (impl : Impl σ) (x : Nat) (o : Ffop) (e : σ) :
    implPost impl.holding x o e =
      if IsError (implPost impl x o e).2 then ((implPost impl x o e).1, ffSuccess)
      else implPost impl x o e := by
  unfold implPost
  split
  · rw [if_neg (fun h => h.2 rfl)]
  · rfl

/-- The order of the pending operations does not matter. -/
theorem Running.of_perm (h : Running G ops₀ e₀ p a) {l : List Nat} (hl : l.Perm p.pending) :
    Running G ops₀ e₀ { p with pending := l } a where
  same := h.same
  sound := h.sound
  left := h.left
  flag := h.flag
  tracks v := (h.tracks v).congr rfl rfl (fun _ _ => rfl) (hl.count_eq v)
  loop_mem := h.loop_mem
  log := h.log
  running := h.running

theorem Proc.hold_setStack (lost : List Nat) (p : Proc) (fs : List Frame) (t : Thread) :
    (p.setStack fs t).hold lost = (p.hold lost).setStack fs t := by cases t <;> rfl

theorem ffopCompleteLoop_hold (x i : Nat) (p : Proc) (lost : List Nat) :
    ffopCompleteLoop x i (p.hold lost) =
      ((ffopCompleteLoop x i p).1.hold lost, (ffopCompleteLoop x i p).2) := by
  by_cases hi : i < (p.ops x).outDepCount
  · have hi' : i < ((p.hold lost).ops x).outDepCount := hi
    simp only [ffopCompleteLoop, if_pos hi, if_pos hi']
    rfl
  · have hi' : ¬ i < ((p.hold lost).ops x).outDepCount := hi
    simp only [ffopCompleteLoop, if_neg hi, if_neg hi']

/-- `ffop_post` does the same with the lost operations among the pending ones; if the handler
fails, the operation joins them. -/
theorem ffopPost_holding (hopt : isOptSet (p.ops x).options ffopNonPersistent = false) :
    ffopPost impl.holding x env (p.hold lost) =
      ((ffopPost impl x env p).1,
        if IsError (implPost impl x ((p.logPosting x).ops x) env).2 then
          ((ffopPost impl x env p).2.1.hold lost).addPending x
        else (ffopPost impl x env p).2.1.hold lost,
        (ffopPost impl x env p).2.2) := by
  have hlog : ((p.hold lost).logPosting x).ops x = (p.logPosting x).ops x := rfl
  have hne : ffSuccess ≠ ffCompleted := by decide
  simp only [ffopPost, Proc.hold_ops, hopt, Bool.false_eq_true, and_false, if_false, hlog,
    implPost_holding]
  by_cases hfail : IsError (implPost impl x ((p.logPosting x).ops x) env).2
  · simp only [if_pos hfail, if_neg hfail.1, if_neg hfail.2, if_neg hne]
    rfl
  · simp only [if_neg hfail]
    by_cases hc : (implPost impl x ((p.logPosting x).ops x) env).2 = ffCompleted
    · simp only [if_pos hc]
      rfl
    · by_cases hsuc : (implPost impl x ((p.logPosting x).ops x) env).2 = ffSuccess
      · simp only [if_neg hc, if_pos hsuc]
        rfl
      · exact absurd ⟨hsuc, hc⟩ hfail

/-- So does a frame of a cascade. -/
theorem frameStep_holding (lost : List Nat)
    (hopt : ∀ x fs, p.stack t = .post x :: fs →
      isOptSet (p.ops x).options ffopNonPersistent = false)
    (hs : frameStep impl t env p = some (env', p')) :
    ∃ q, frameStep impl.holding t env (p.hold lost) = some (env', q) ∧
      q = { p'.hold (lostBy impl t env p ++ lost) with pending := q.pending } ∧
      (p'.hold (lostBy impl t env p ++ lost)).pending.Perm q.pending := by
  cases hstack : p.stack t with
  | nil => simp [frameStep, hstack] at hs
  | cons f fs =>
      simp only [frameStep, hstack, Option.some.injEq, Prod.mk.injEq] at hs
      obtain ⟨rfl, rfl⟩ := hs
      simp only [frameStep, Proc.hold_stack, hstack, lostBy]
      cases f with
      | complete x =>
          refine ⟨_, rfl, ?_, ?_⟩
          · cases t <;> rfl
          · cases t <;> exact .refl _
      | loop x i =>
          simp only [runFrame, ffopCompleteLoop_hold, ← Proc.hold_setStack]
          exact ⟨_, rfl, rfl, .refl _⟩
      | post x =>
          simp only [runFrame, ffopPost_holding (hopt x fs hstack)]
          by_cases hfail : IsError (implPost impl x ((p.logPosting x).ops x) env).2
          · simp only [if_pos hfail]
            refine ⟨_, rfl, ?_, ?_⟩
            · cases t <;> rfl
            · simp only [Proc.hold, Proc.setStack_pending, Proc.addPending_pending]
              exact List.perm_middle
          · simp only [if_neg hfail, ← Proc.hold_setStack]
            exact ⟨_, rfl, rfl, .refl _⟩

/-! ### The steps of a round -/

section Round

variable (h : Running G ops₀ e₀ (p.hold lost) a)
include h

/-- Step lemma: a frame of a cascade runs. -/
theorem Running.frameStep_lost (W : Wired G ops₀ e₀)
    (hs : Fflib.frameStep impl t env p = some (env', p')) :
    ∃ a', Running G ops₀ e₀ (p'.hold (lostBy impl t env p ++ lost)) a' ∧
      load G p' a' < load G p a := by
  have hopt : ∀ x fs, p.stack t = .post x :: fs →
      isOptSet (p.ops x).options ffopNonPersistent = false := by
    intro x fs hstack
    have hx := h.phase_of_post (Proc.top_mem_frames (Proc.hold_stack lost p t ▸ hstack))
    have hmem : x ∈ G.verts := h.sound.mem_verts (by simp [hx])
    have hsame := (h.same x).options_eq
    rw [Proc.hold_ops] at hsame
    rw [hsame]
    exact (W.default x hmem).2
  obtain ⟨q, hq, heq, hperm⟩ := frameStep_holding lost hopt hs
  obtain ⟨a', _, hr, hload⟩ := h.frameStep W impl.holding_succeeds hq
  have hframes : q.frames = p'.frames := by rw [heq]; rfl
  refine ⟨a', ?_, ?_⟩
  · have hr' := hr.of_perm hperm
    rw [heq] at hr'
    exact hr'
  · simpa only [load, hframes, Proc.hold_frames] using hload

/-- Step lemma: the progress thread completes an operation. -/
theorem Running.progressStep_lost (hs : Fflib.progressStep impl x env p = some (env', p')) :
    Running G ops₀ e₀ (p'.hold lost) (a.setPhase x .completing) ∧
      load G p' (a.setPhase x .completing) < load G p a := by
  have hhold : Fflib.progressStep impl x env (p.hold lost) = some (env', p'.hold lost) := by
    simp only [Fflib.progressStep] at hs ⊢
    split at hs
    · next hc =>
        obtain ⟨env'', htest, heq⟩ := Option.map_eq_some_iff.mp hs
        obtain ⟨rfl, rfl⟩ := Prod.mk.inj heq
        have hmem : x ∈ (p.hold lost).pending := List.mem_append_left _ hc.2
        have herase : (p.hold lost).pending.erase x = p.pending.erase x ++ lost :=
          List.erase_append_left _ hc.2
        rw [if_pos ⟨hc.1, hmem⟩, herase, Proc.hold_ops, htest]
        rfl
    · cases hs
  obtain ⟨_, _, hr, hload⟩ := h.progressStep hhold
  exact ⟨hr, hload⟩

/-- Step lemma: `ffschedule_wait` returns, which it does not when an operation is lost. -/
theorem Running.waitStep_lost (W : Wired G ops₀ e₀) {s : FfSchedule} (hse : s.endOp = e₀)
    (hs : ffscheduleWait s p = some p') : lost = [] ∧ Quiet G ops₀ e₀ p' := by
  have hhold : ffscheduleWait s (p.hold lost) = some (p'.hold lost) := by
    simp only [ffscheduleWait] at hs ⊢
    split at hs
    · next hc =>
        obtain rfl := Option.some.inj hs
        have hc' : (p.hold lost).user = [] ∧ (p.hold lost).running = true ∧
          ((p.hold lost).ops s.endOp).completed ≠ 0 := hc
        rw [if_pos hc']
        rfl
    · cases hs
  obtain ⟨_, hq, _⟩ := h.waitStep W hse hhold
  obtain ⟨_, hlost⟩ := List.append_eq_nil_iff.mp hq.pending
  subst hlost
  rw [Proc.hold_nil] at hq
  exact ⟨rfl, hq⟩

/-- A lost operation keeps `end_op` from completing. -/
theorem Running.end_not_done (W : Wired G ops₀ e₀) (hx : x ∈ lost) :
    (a.phase e₀).isDone = false := by
  by_contra hne
  have hpend : (p.hold lost).pending = [] := (h.quiet_of_done W (by simpa using hne)).2.1
  have hmem : x ∈ (p.hold lost).pending := List.mem_append_right _ hx
  rw [hpend] at hmem
  cases hmem

end Round

/-! ### A process that may lose operations -/

/-- A process between two rounds, or in a round in which the operations `lost` do not
complete. -/
def Held (G : DepGraph Nat) (ops₀ : Nat → Ffop) (e₀ : Nat) (p : Proc) (lost : List Nat) :
    Option (Progress Nat) → Prop
  | none => Quiet G ops₀ e₀ p ∧ lost = []
  | some a => Running G ops₀ e₀ (p.hold lost) a

/-- What the process still has to do by itself. -/
def heldLoad (G : DepGraph Nat) (p : Proc) : Option (Progress Nat) → Nat
  | none => p.frames.length
  | some a => load G p a

/-- The operation of a handler that answers with an error is lost. -/
theorem lostBy_of_isError {fs : List Frame} (hstack : p.stack t = .post x :: fs)
    (h : IsError (implPost impl x ((p.logPosting x).ops x) env).2) :
    lostBy impl t env p = [x] := by
  rw [lostBy, hstack]
  exact if_pos h

namespace Held

variable {r : Option (Progress Nat)} (h : Held G ops₀ e₀ p lost r)
include h

/-- Step lemma: a frame of a cascade runs. -/
theorem frameStep (W : Wired G ops₀ e₀)
    (hs : Fflib.frameStep impl t env p = some (env', p')) :
    ∃ r', r'.isSome = r.isSome ∧ Held G ops₀ e₀ p' (lostBy impl t env p ++ lost) r' ∧
      heldLoad G p' r' < heldLoad G p r := by
  cases r with
  | none =>
      obtain ⟨hq, rfl⟩ := h
      obtain ⟨_, hq', _, hlt⟩ := hq.frameStep W hs
      have hlost : lostBy impl t env p = [] := by
        unfold lostBy
        split
        · next x fs hstack =>
            obtain ⟨v, i, hloop, _⟩ := hq.exhausted _ (Proc.top_mem_frames hstack)
            cases hloop
        · rfl
      rw [hlost]
      exact ⟨none, rfl, ⟨hq', rfl⟩, hlt⟩
  | some a =>
      obtain ⟨a', hr, hlt⟩ := Running.frameStep_lost h W hs
      exact ⟨some a', rfl, hr, hlt⟩

/-- Step lemma: the progress thread completes an operation. -/
theorem progressStep (hs : Fflib.progressStep impl x env p = some (env', p')) :
    ∃ r', r'.isSome = r.isSome ∧ Held G ops₀ e₀ p' lost r' ∧
      heldLoad G p' r' < heldLoad G p r := by
  cases r with
  | none =>
      rw [h.1.not_progressStep] at hs
      cases hs
  | some a =>
      obtain ⟨hr, hlt⟩ := Running.progressStep_lost h hs
      exact ⟨some (a.setPhase x .completing), rfl, hr, hlt⟩

/-- Step lemma: `ffschedule_wait` returns. -/
theorem waitStep (W : Wired G ops₀ e₀) {s : FfSchedule} (hse : s.endOp = e₀)
    (hs : ffscheduleWait s p = some p') :
    r.isSome = true ∧ lost = [] ∧ Held G ops₀ e₀ p' lost none := by
  cases r with
  | none =>
      rw [h.1.not_waitStep] at hs
      cases hs
  | some a =>
      obtain ⟨hlost, hq⟩ := Running.waitStep_lost h W hse hs
      exact ⟨rfl, hlost, hq, hlost⟩

/-- Step lemma: `ffschedule_post` starts a round. -/
theorem postStep (W : Wired G ops₀ e₀) {s : FfSchedule} (hsb : s.beginOp = G.root)
    (hs : ffschedulePost impl s env p = some (env', p')) :
    r = none ∧ Held G ops₀ e₀ p' lost (some G.start) ∧
      p'.frames.length = p.frames.length + 1 := by
  obtain ⟨huser, hrun, _, hp⟩ := ffschedulePost_eq_some hs
  cases r with
  | none =>
      obtain ⟨hq, rfl⟩ := h
      have hr := (hq.postStep W hsb hs).2
      refine ⟨rfl, ?_, ?_⟩
      · rw [← Proc.hold_nil p'] at hr
        exact hr
      · rw [hp]
        simp [Proc.frames, huser]
  | some a =>
      have hrun' : p.running = true := h.running
      rw [hrun'] at hrun
      cases hrun

theorem same (v : Nat) : SameOp (p.ops v) (ops₀ v) := by
  cases r with
  | none => exact h.1.same v
  | some a => exact Running.same h v

/-- An operation on a stack is one of the schedule. -/
theorem mem_of_post {fs : List Frame} (hstack : p.stack t = .post x :: fs) : x ∈ G.verts := by
  have hmem := Proc.top_mem_frames hstack
  cases r with
  | none =>
      obtain ⟨v, i, hloop, _⟩ := h.1.exhausted _ hmem
      cases hloop
  | some a =>
      have hx := Running.phase_of_post h hmem
      exact h.sound.mem_verts (by simp [hx])

theorem running_eq : p.running = r.isSome := by
  cases r with
  | none => exact h.1.running
  | some a => exact h.running

/-- A process that has lost an operation waits for ever. -/
theorem end_of_mem (W : Wired G ops₀ e₀) (hx : x ∈ lost) :
    p.running = true ∧ (p.ops e₀).completed = 0 := by
  cases r with
  | none =>
      rw [h.2] at hx
      cases hx
  | some a =>
      refine ⟨h.running, ?_⟩
      have hflag := h.flag
      rw [Running.end_not_done h W hx] at hflag
      exact hflag

end Held

end Lost

end Fflib
