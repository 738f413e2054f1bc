import Fflib.NetProgress
import Fflib.NetTrace
import Fflib.ReadyWalk

/-!
# Processes with their request tables

The processes of `Net` keep a list of the operations that are pending, and their progress
thread completes any of them that is found completed.  Here they have instead what the code
has: the table of requests of `ffop_mpi_progresser.c`, the ready list that goes through the
`next` fields of the operations, and the loop of `progress_thread` over it (`trackedStep`).
A call of a function of the progresser is one step, and so is a frame of a cascade.

The handle of a request is the number of its operation.

* `TrackedState.abs` is the state of `Net` that a state stands for: what is on the ready
  list is about to be completed.
* `runFrame_tracked`: a frame does to the process what it does without the table.
-/

namespace Fflib

open Library

universe u

/-- A process, the variables of its progresser, and the loop of its progress thread; the
list `pending` of the process is a ghost, which no step reads. -/
structure TrackedProc where
  proc : Proc
  tracker : Tracker
  walk : Walk

/-- `TrackedProc`s take the steps of a process, and those of the progress thread. -/
inductive TrackedProcAct where
  | main (act : ProcAct)
  | report (indices : List Nat)
  | call
  | advance
deriving DecidableEq

section Steps

variable {σ : Type u}

/-- The post handlers, which end with `ffop_mpi_progresser_track`. -/
def trackedImpl (impl : Impl σ) : Impl (σ × Tracker) where
  post x o e :=
    let r := impl.post x o e.1
    if r.2 = ffSuccess then
      let t := e.2.track x x
      ((r.1, t.2), t.1)
    else ((r.1, e.2), r.2)
  test _ _ _ := none
  postCallback e := (impl.postCallback e.1, e.2)

/-- `MPI_Testsome` finds the requests of all these operations completed. -/
def testAll (impl : Impl σ) (ops : Nat → Ffop) : List Nat → σ → Option σ
  | [], e => some e
  | x :: xs, e => (impl.test x (ops x) e).bind (testAll impl ops xs)

/-- One step; `.report indices` is a progress call in which `MPI_Testsome` reports the slots
`indices`. -/
def trackedProcStep (impl : Impl σ) (s : FfSchedule) (e : σ) (c : TrackedProc) :
    TrackedProcAct → Option (σ × TrackedProc)
  | .main act =>
      (procStep (trackedImpl impl) s (e, c.tracker) c.proc act).map fun r =>
        (r.1.1, { c with proc := r.2, tracker := r.1.2 })
  | .report indices =>
      if c.walk = .test none ∧ c.proc.prog = [] ∧ c.tracker.Reportable indices then
        (testAll impl c.proc.ops (indices.filterMap c.tracker.requests) e).bind fun e' =>
          (c.tracker.progress (some indices) c.proc.ops none).map fun r =>
            (e',
              { proc := { c.proc with
                  ops := r.2.2.1
                  pending := c.proc.pending.diff (c.tracker.opsOf indices) }
                tracker := r.2.1
                walk := .test r.2.2.2 })
      else none
  | .call =>
      match c.walk with
      | .test (some op) =>
          if c.proc.prog = [] then
            some (e,
              { proc := { c.proc with prog := [.complete op] }
                tracker := c.tracker
                walk := .advance op })
          else none
      | _ => none
  | .advance =>
      match c.walk with
      | .advance op =>
          if c.proc.prog = [] then some (e, { c with walk := .test (c.proc.ops op).next })
          else none
      | _ => none

end Steps

/-- The state of all processes. -/
structure TrackedState (α : Type u) (n : Nat) where
  env : Env α
  procs : Fin n → TrackedProc
  ready : Fin n → Bool

inductive TrackedAct (n : Nat) where
  | user (i : Fin n)
  | proc (i : Fin n) (act : TrackedProcAct)
  | read (i j tag k : Nat)
  | deliver (i j tag k : Nat)
deriving DecidableEq

/-- The step is one of a process, and not a progress call that finds nothing. -/
def TrackedAct.isLocal {n : Nat} : TrackedAct n → Bool
  | .user _ => true
  | .proc _ (.report indices) => !indices.isEmpty
  | .proc _ _ => true
  | _ => false

namespace Net

variable {α : Type u} {n : Nat} (N : Net α n)

/-- All processes after they have built their schedules, with empty tables in the entries
`mem`. -/
def trackedInitial (mem : Nat → ArmanEntry) : TrackedState α n where
  env := N.initial.env
  procs i := { proc := N.initial.procs i, tracker := Tracker.init mem, walk := .test none }
  ready := N.initial.ready

/-- One step: the ranks run at most `K` rounds. -/
def trackedStep (sync : Bool) (K : Nat) (w : TrackedState α n) :
    TrackedAct n → Option (TrackedState α n)
  | .user i =>
      if (w.procs i).proc.running = false ∧ (w.procs i).proc.user = [] ∧ w.ready i = false ∧
          (w.env i).round < K then
        some { w with
          env := w.env.modify i (N.runUser i)
          ready := Function.update w.ready i true }
      else none
  | .proc i (.main .post) =>
      if w.ready i = true then
        (trackedProcStep (N.impl sync i) (N.sched i) (w.env.modify i RankEnv.nextRound)
          (w.procs i) (.main .post)).map fun r =>
            { env := r.1
              procs := Function.update w.procs i r.2
              ready := Function.update w.ready i false }
      else none
  | .proc i act =>
      (trackedProcStep (N.impl sync i) (N.sched i) w.env (w.procs i) act).map fun r =>
        { w with env := r.1, procs := Function.update w.procs i r.2 }
  | .read i j tag k => some { w with env := readSend i j tag k w.env }
  | .deliver i j tag k => some { w with env := deliver i j tag k w.env }

end Net

/-! ### What a state stands for -/

/-- The operations `r` are completed as soon as the progress thread gets to them. -/
def Proc.append (p : Proc) (r : List Nat) : Proc :=
  { p with prog := p.prog ++ r.map Frame.complete }

@[simp] theorem Proc.append_ops (p : Proc) (r : List Nat) : (p.append r).ops = p.ops := rfl
@[simp] theorem Proc.append_pending (p : Proc) (r : List Nat) :
    (p.append r).pending = p.pending := rfl
@[simp] theorem Proc.append_user (p : Proc) (r : List Nat) : (p.append r).user = p.user := rfl
@[simp] theorem Proc.append_prog (p : Proc) (r : List Nat) :
    (p.append r).prog = p.prog ++ r.map Frame.complete := rfl
@[simp] theorem Proc.append_running (p : Proc) (r : List Nat) :
    (p.append r).running = p.running := rfl

theorem Proc.append_nil (p : Proc) : p.append [] = p := by
  simp [Proc.append]

/-- The operation that the loop looks at next. -/
def TrackedProc.cursor (c : TrackedProc) : Option Nat :=
  match c.walk with
  | .test h => h
  | .advance op => (c.proc.ops op).next

/-- The state of `Net`, when `r` are the operations on the ready lists. -/
def TrackedState.abs {α : Type u} {n : Nat} (w : TrackedState α n) (r : Fin n → List Nat) :
    NetState α n where
  env := w.env
  procs i := (w.procs i).proc.append (r i)
  ready := w.ready

section Frames

variable {σ : Type u} {impl : Impl σ}

/-- A frame does not look at the stacks. -/
theorem runFrame_append (e : σ) (p : Proc) (r : List Nat) (f : Frame) :
    runFrame impl e (p.append r) f =
      ((runFrame impl e p f).1, (runFrame impl e p f).2.1.append r, (runFrame impl e p f).2.2) := by
  cases f with
  | post x =>
      have hlog : (p.append r).logPosting x = (p.logPosting x).append r := rfl
      simp only [runFrame, ffopPost, Proc.append_ops, hlog]
      by_cases h1 : (p.ops x).version > 0 ∧ isOptSet (p.ops x).options ffopNonPersistent = true
      · simp only [if_pos h1]
      · simp only [if_neg h1]
        by_cases h2 : (implPost impl x ((p.logPosting x).ops x) e).2 = ffCompleted
        · simp only [if_pos h2]
        · simp only [if_neg h2]
          by_cases h3 : (implPost impl x ((p.logPosting x).ops x) e).2 = ffSuccess
          · simp only [if_pos h3]
            rfl
          · simp only [if_neg h3]
  | complete x => rfl
  | loop x i =>
      simp only [runFrame, ffopCompleteLoop]
      by_cases h : i < (p.ops x).outDepCount
      · have h' : i < ((p.append r).ops x).outDepCount := h
        rw [if_pos h, if_pos h']
        rfl
      · have h' : ¬ i < ((p.append r).ops x).outDepCount := h
        rw [if_neg h, if_neg h']

/-- A frame of the user thread leaves the stack of the progress thread alone. -/
theorem frameStep_prog_nil {t : Thread} {e e' : σ} {p p' : Proc}
    (h : frameStep impl t e p = some (e', p')) (hp : p.prog = []) : p'.prog = [] := by
  have hprog : ∀ f, (runFrame impl e p f).2.1.prog = p.prog := by
    intro f
    cases f with
    | post x =>
        simp only [runFrame, ffopPost]
        split
        · rfl
        · split
          · rfl
          · split <;> rfl
    | complete x => rfl
    | loop x i =>
        simp only [runFrame, ffopCompleteLoop]
        split <;> rfl
  cases t with
  | user =>
      cases hstack : p.stack .user with
      | nil => simp [frameStep, hstack] at h
      | cons f fs =>
          simp only [frameStep, hstack, Option.some.injEq, Prod.mk.injEq] at h
          rw [← h.2]
          exact (hprog f).trans hp
  | progress =>
      have hstack : p.stack .progress = [] := hp
      simp [frameStep, hstack] at h

/-- An operation has been posted, and is tracked. -/
def Tracks (tr tr' : Tracker) (pending pending' : List Nat) : Prop :=
  (tr' = tr ∧ pending' = pending) ∨
    ∃ x, pending' = x :: pending ∧ tr' = (tr.track x x).2

/-- What a post handler answers does not depend on the table. -/
theorem implPost_tracked (x : Nat) (o : Ffop) (e : σ) (tr : Tracker) :
    implPost (trackedImpl impl) x o (e, tr) =
      (((implPost impl x o e).1,
        if (implPost impl x o e).2 = ffSuccess then (tr.track x x).2 else tr),
      (implPost impl x o e).2) := by
  have hnop : ffCompleted ≠ ffSuccess := by decide
  have hpost : ∀ r : σ × Int, (if r.2 = ffSuccess then ((r.1, (tr.track x x).2), (tr.track x x).1)
      else ((r.1, tr), r.2)) = ((r.1, if r.2 = ffSuccess then (tr.track x x).2 else tr), r.2) := by
    intro r
    by_cases h : r.2 = ffSuccess
    · rw [if_pos h, if_pos h, h, track_eq]
    · rw [if_neg h, if_neg h]
  unfold implPost
  cases o.body with
  | nop => simp only [if_neg hnop]
  | send peer tag b => exact hpost _
  | recv peer tag b => exact hpost _
  | comp b1 b2 b3 operator => exact hpost _

variable (impl) in
/-- With the table a frame does what it does without, and tracks what it makes pending. -/
theorem runFrame_tracked (e : σ) (tr : Tracker) (p : Proc) (f : Frame) :
    ∃ tr', runFrame (trackedImpl impl) (e, tr) p f =
        (((runFrame impl e p f).1, tr'), (runFrame impl e p f).2) ∧
      Tracks tr tr' p.pending (runFrame impl e p f).2.1.pending := by
  have hne : ffCompleted ≠ ffSuccess := by decide
  cases f with
  | complete x => exact ⟨tr, rfl, Or.inl ⟨rfl, rfl⟩⟩
  | loop x i =>
      refine ⟨tr, rfl, Or.inl ⟨rfl, ?_⟩⟩
      simp only [runFrame, ffopCompleteLoop]
      split <;> rfl
  | post x =>
      simp only [runFrame, ffopPost, implPost_tracked]
      by_cases h1 : (p.ops x).version > 0 ∧ isOptSet (p.ops x).options ffopNonPersistent = true
      · simp only [if_pos h1]
        exact ⟨tr, rfl, Or.inl ⟨rfl, rfl⟩⟩
      · simp only [if_neg h1]
        by_cases h2 : (implPost impl x ((p.logPosting x).ops x) e).2 = ffCompleted
        · simp only [h2, if_neg hne]
          exact ⟨tr, rfl, Or.inl ⟨rfl, rfl⟩⟩
        · simp only [if_neg h2]
          by_cases h3 : (implPost impl x ((p.logPosting x).ops x) e).2 = ffSuccess
          · simp only [if_pos h3]
            exact ⟨_, rfl, Or.inr ⟨x, rfl, rfl⟩⟩
          · simp only [if_neg h3]
            exact ⟨tr, rfl, Or.inl ⟨rfl, rfl⟩⟩

/-- A step inside a cascade. -/
theorem frameStep_tracked {t : Thread} {e : σ} {tr : Tracker} {p : Proc} {q : (σ × Tracker) × Proc}
    (h : frameStep (trackedImpl impl) t (e, tr) p = some q) (r : List Nat) :
    frameStep impl t e (p.append r) = some (q.1.1, q.2.append r) ∧
      Tracks tr q.1.2 p.pending q.2.pending := by
  cases hstack : p.stack t with
  | nil => simp [frameStep, hstack] at h
  | cons f fs =>
      simp only [frameStep, hstack, Option.some.injEq] at h
      obtain ⟨tr', hrun, htracks⟩ := runFrame_tracked impl e tr p f
      rw [hrun] at h
      subst h
      cases t with
      | user =>
          have hstack' : (p.append r).stack .user = f :: fs := hstack
          simp only [frameStep, hstack', runFrame_append]
          exact ⟨rfl, htracks⟩
      | progress =>
          have hstack' : (p.append r).stack .progress = f :: (fs ++ r.map Frame.complete) :=
            congrArg (· ++ r.map Frame.complete) hstack
          simp only [frameStep, hstack', runFrame_append]
          refine ⟨?_, htracks⟩
          simp only [Proc.append, Proc.setStack, List.append_assoc]

end Frames

end Fflib
