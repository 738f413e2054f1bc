import Fflib.Schedule

/-!
# Posting and completing operations

`ffop_post` and `ffop_complete` of `ffop.c`, `ffschedule_post` and
`ffschedule_wait` of `ffschedule.c`, and the loop of the progress thread of
`ffprogress.c`, as the steps of one process.

**Two stacks.**  `ffop_complete` is a loop that calls `ffop_post`, which calls
`ffop_complete` again.  The user thread and the progress thread each run such a
cascade, so a process has two stacks of `Frame`s, and a step runs the top frame
of one of them.

**Handlers.**  The functions behind `ff.impl.ops` and the callback of the
schedule act on a state `σ` outside the library (`Impl`).  An operation whose
handler answers `FFSUCCESS` is pending until the progress thread finds it
completed.

**Log.**  The two `FFLOG` lines `Posting op` and `completing op` are recorded in
`log`, which is emptied when a schedule is posted.
-/

namespace Fflib

open Library

universe u

/-- A call in progress: `loop x i` is the loop of `ffop_complete(x)` at index `i`. -/
inductive Frame where
  | post (op : Nat)
  | complete (op : Nat)
  | loop (op i : Nat)
deriving DecidableEq, Repr

/-- The log lines of `ffop_post` and `ffop_complete`. -/
inductive Event where
  | posting (op : Nat)
  | completing (op : Nat)
deriving DecidableEq, Repr

inductive Thread where
  | user
  | progress
deriving DecidableEq, Repr

/-- One process between two steps. -/
structure Proc where
  ops : Nat → Ffop
  pending : List Nat
  user : List Frame
  prog : List Frame
  log : List Event
  running : Bool

/-- The handlers and the callback, as functions on an outer state: `post` is the
`post` entry of `ff.impl.ops` for sends, receives and computations, `test` says
whether the progress call finds an operation completed. -/
structure Impl (σ : Type u) where
  post : Nat → Ffop → σ → σ × Int
  test : Nat → Ffop → σ → Option σ
  postCallback : σ → σ

/-- The post handlers succeed. -/
def Impl.Succeeds {σ : Type u} (impl : Impl σ) : Prop :=
  ∀ x o e, (impl.post x o e).2 = ffSuccess ∨ (impl.post x o e).2 = ffCompleted

namespace Proc

/-- The operations as the constructors left them, nothing posted. -/
def init (ops : Nat → Ffop) : Proc where
  ops := ops
  pending := []
  user := []
  prog := []
  log := []
  running := false

def setOp (p : Proc) (op : Nat) (f : Ffop → Ffop) : Proc :=
  { p with ops := Function.update p.ops op (f (p.ops op)) }

def stack (p : Proc) : Thread → List Frame
  | .user => p.user
  | .progress => p.prog

def setStack (p : Proc) (fs : List Frame) : Thread → Proc
  | .user => { p with user := fs }
  | .progress => { p with prog := fs }

/-- `ffop_post` clears the flag and logs. -/
def logPosting (p : Proc) (x : Nat) : Proc where
  ops := Function.update p.ops x { p.ops x with completed := 0 }
  pending := p.pending
  user := p.user
  prog := p.prog
  log := p.log ++ [.posting x]
  running := p.running

/-- `ffop_complete` logs, restores `dep_left` and sets the flag. -/
def logCompleting (p : Proc) (x : Nat) : Proc where
  ops := Function.update p.ops x
    { p.ops x with
      version := ((p.ops x).version + 1) % 2 ^ 32
      depLeft := (p.ops x).inDepCount
      completed := ((p.ops x).completed + 1) % 2 ^ 8 }
  pending := p.pending
  user := p.user
  prog := p.prog
  log := p.log ++ [.completing x]
  running := p.running

/-- A posted operation waits for the progress thread. -/
def addPending (p : Proc) (x : Nat) : Proc := { p with pending := x :: p.pending }

/-- All frames of the process. -/
def frames (p : Proc) : List Frame := p.user ++ p.prog

end Proc

/-- `__sync_add_and_fetch(&dep_left, -1)` on a `uint32_t`. -/
def decrDepLeft (n : Nat) : Nat := if n = 0 then 2 ^ 32 - 1 else n - 1

/-- `ff.impl.ops[op->type].post`; `ffnop_post` answers `FFCOMPLETED`. -/
def implPost {σ : Type u} (impl : Impl σ) (x : Nat) (o : Ffop) (e : σ) : σ × Int :=
  match o.body with
  | .nop => (e, ffCompleted)
  | _ => impl.post x o e

section Frames

variable {σ : Type u} (impl : Impl σ)

/-- `ffop_post` up to its call of `ffop_complete`. -/
def ffopPost (x : Nat) (e : σ) (p : Proc) : σ × Proc × List Frame :=
  if (p.ops x).version > 0 ∧ isOptSet (p.ops x).options ffopNonPersistent = true then
    (e, p, [])
  else
    let p₁ := p.logPosting x
    let r := implPost impl x (p₁.ops x) e
    if r.2 = ffCompleted then (r.1, p₁, [.complete x])
    else if r.2 = ffSuccess then (r.1, p₁.addPending x, [])
    else (r.1, p₁, [])

/-- The code that `ffop_post` returns: that of `ffop_complete` is dropped. -/
def ffopPostCode (x : Nat) (e : σ) (p : Proc) : Int :=
  if (p.ops x).version > 0 ∧ isOptSet (p.ops x).options ffopNonPersistent = true then
    ffInvalidArg
  else (implPost impl x ((p.logPosting x).ops x) e).2

/-- `ffop_complete` up to its loop. -/
def ffopComplete (x : Nat) (p : Proc) : Proc × List Frame :=
  (p.logCompleting x, [.loop x 0])

/-- One iteration of the loop of `ffop_complete`. -/
def ffopCompleteLoop (x i : Nat) (p : Proc) : Proc × List Frame :=
  if i < (p.ops x).outDepCount then
    let depOp := (p.ops x).dependent i
    let p₁ := p.setOp depOp (fun o => { o with depLeft := decrDepLeft o.depLeft })
    let o := p₁.ops x
    let trigger := ((p₁.ops depOp).depLeft == 0 || isOptSet o.options ffopDepOr) &&
      (o.version == 0 || !isOptSet o.options ffopNonPersistent)
    (p₁, if trigger then [.post depOp, .loop x (i + 1)] else [.loop x (i + 1)])
  else (p, [])

/-- Run a frame: the new states and the frames that replace it. -/
def runFrame (e : σ) (p : Proc) : Frame → σ × Proc × List Frame
  | .post x => ffopPost impl x e p
  | .complete x => (e, ffopComplete x p)
  | .loop x i => (e, ffopCompleteLoop x i p)

/-- One step of a thread inside a cascade. -/
def frameStep (t : Thread) (e : σ) (p : Proc) : Option (σ × Proc) :=
  match p.stack t with
  | [] => none
  | f :: fs =>
      let r := runFrame impl e p f
      some (r.1, r.2.1.setStack (r.2.2 ++ fs) t)

/-- The progress thread completes an operation that its progress call has found
completed. -/
def progressStep (x : Nat) (e : σ) (p : Proc) : Option (σ × Proc) :=
  if p.prog = [] ∧ x ∈ p.pending then
    (impl.test x (p.ops x) e).map fun e' =>
      (e', { p with pending := p.pending.erase x, prog := [.complete x] })
  else none

/-- `ffschedule_post`, called when the previous round is over. -/
def ffschedulePost (s : FfSchedule) (e : σ) (p : Proc) : Option (σ × Proc) :=
  if p.user = [] ∧ p.running = false then
    some (if s.postCallback.isSome then impl.postCallback e else e,
      { p with user := [.post s.beginOp], log := [], running := true })
  else none

/-- The code that `ffschedule_post` returns: that of the callback is dropped. -/
def ffschedulePostCode (s : FfSchedule) (e : σ) (p : Proc) : Int :=
  ffopPostCode impl s.beginOp (if s.postCallback.isSome then impl.postCallback e else e) p

/-- `ffschedule_wait` returns: the `completed` flag of `end_op` is set. -/
def ffscheduleWait (s : FfSchedule) (p : Proc) : Option Proc :=
  if p.user = [] ∧ p.running = true ∧ (p.ops s.endOp).completed ≠ 0 then
    some { p.setOp s.endOp (fun o => { o with completed := 0 }) with running := false }
  else none

end Frames

/-- The steps of one process. -/
inductive ProcAct where
  | post
  | wait
  | frame (t : Thread)
  | progress (op : Nat)
deriving DecidableEq, Repr

/-- One step of a process that posts the schedule `s` and waits for it. -/
def procStep {σ : Type u} (impl : Impl σ) (s : FfSchedule) (e : σ) (p : Proc) :
    ProcAct → Option (σ × Proc)
  | .post => ffschedulePost impl s e p
  | .wait => (ffscheduleWait s p).map (fun p' => (e, p'))
  | .frame t => frameStep impl t e p
  | .progress x => progressStep impl x e p

/-! ### Small facts -/

namespace Proc

@[simp] theorem setOp_pending (p : Proc) (x : Nat) (f : Ffop → Ffop) :
    (p.setOp x f).pending = p.pending := rfl
@[simp] theorem setOp_user (p : Proc) (x : Nat) (f : Ffop → Ffop) :
    (p.setOp x f).user = p.user := rfl
@[simp] theorem setOp_prog (p : Proc) (x : Nat) (f : Ffop → Ffop) :
    (p.setOp x f).prog = p.prog := rfl
@[simp] theorem setOp_log (p : Proc) (x : Nat) (f : Ffop → Ffop) :
    (p.setOp x f).log = p.log := rfl
@[simp] theorem setOp_running (p : Proc) (x : Nat) (f : Ffop → Ffop) :
    (p.setOp x f).running = p.running := rfl

@[simp] theorem logPosting_pending (p : Proc) (x : Nat) :
    (p.logPosting x).pending = p.pending := rfl
@[simp] theorem logCompleting_pending (p : Proc) (x : Nat) :
    (p.logCompleting x).pending = p.pending := rfl
@[simp] theorem addPending_pending (p : Proc) (x : Nat) :
    (p.addPending x).pending = x :: p.pending := rfl

theorem setOp_ops (p : Proc) (x : Nat) (f : Ffop → Ffop) (y : Nat) :
    (p.setOp x f).ops y = if y = x then f (p.ops y) else p.ops y := by
  by_cases h : y = x
  · subst h; simp [setOp]
  · simp [setOp, h]

/-- What is read from an operation stays, when a rewrite leaves it. -/
theorem setOp_ops_of {α : Type} (g : Ffop → α) {f : Ffop → Ffop} (hf : ∀ o, g (f o) = g o)
    (p : Proc) (x v : Nat) : g ((p.setOp x f).ops v) = g (p.ops v) := by
  rw [setOp_ops]
  split
  · exact hf _
  · rfl

theorem logPosting_ops_of {α : Type} (g : Ffop → α)
    (hg : ∀ o : Ffop, g { o with completed := 0 } = g o) (p : Proc) (x v : Nat) :
    g ((p.logPosting x).ops v) = g (p.ops v) := setOp_ops_of g hg p x v

@[simp] theorem setStack_ops (p : Proc) (fs : List Frame) (t : Thread) :
    (p.setStack fs t).ops = p.ops := by cases t <;> rfl
theorem stack_setStack (p : Proc) (fs : List Frame) (t u : Thread) :
    (p.setStack fs t).stack u = if u = t then fs else p.stack u := by
  cases t <;> cases u <;> rfl

@[simp] theorem setStack_pending (p : Proc) (fs : List Frame) (t : Thread) :
    (p.setStack fs t).pending = p.pending := by cases t <;> rfl
@[simp] theorem setStack_log (p : Proc) (fs : List Frame) (t : Thread) :
    (p.setStack fs t).log = p.log := by cases t <;> rfl
@[simp] theorem setStack_running (p : Proc) (fs : List Frame) (t : Thread) :
    (p.setStack fs t).running = p.running := by cases t <;> rfl

/-- Replacing the top frame of a stack, as far as counting frames goes. -/
theorem count_frames_setStack {p q : Proc} {t : Thread} {f : Frame} {fs r : List Frame}
    (hs : p.stack t = f :: fs) (hu : q.user = p.user) (hp : q.prog = p.prog) (g : Frame) :
    (q.setStack (r ++ fs) t).frames.count g + (if f = g then 1 else 0) =
      p.frames.count g + r.count g := by
  cases t with
  | user =>
      simp only [stack] at hs
      simp only [frames, setStack, hp, hs, List.count_append, List.count_cons, beq_iff_eq]
      omega
  | progress =>
      simp only [stack] at hs
      simp only [frames, setStack, hu, hs, List.count_append, List.count_cons, beq_iff_eq]
      omega

theorem mem_frames_setStack {p q : Proc} {t : Thread} {f : Frame} {fs r : List Frame}
    (hs : p.stack t = f :: fs) (hu : q.user = p.user) (hp : q.prog = p.prog) {g : Frame}
    (hg : g ∈ (q.setStack (r ++ fs) t).frames) : g ∈ r ∨ g ∈ p.frames := by
  cases t with
  | user =>
      simp only [stack] at hs
      simp only [frames, setStack, hp, List.mem_append] at hg
      rcases hg with (hg | hg) | hg
      · exact Or.inl hg
      · exact Or.inr (by simp [frames, hs, hg])
      · exact Or.inr (by simp [frames, hg])
  | progress =>
      simp only [stack] at hs
      simp only [frames, setStack, hu, List.mem_append] at hg
      rcases hg with hg | hg | hg
      · exact Or.inr (by simp [frames, hg])
      · exact Or.inl hg
      · exact Or.inr (by simp [frames, hs, hg])

theorem top_mem_frames {p : Proc} {t : Thread} {f : Frame} {fs : List Frame}
    (hs : p.stack t = f :: fs) : f ∈ p.frames := by
  cases t with
  | user =>
      simp only [stack] at hs
      simp [frames, hs]
  | progress =>
      simp only [stack] at hs
      simp [frames, hs]

theorem exists_stack {p : Proc} (h : p.frames ≠ []) : ∃ t, p.stack t ≠ [] := by
  by_contra hno
  simp only [not_exists, not_not] at hno
  exact h (List.append_eq_nil_iff.mpr ⟨hno .user, hno .progress⟩)

theorem length_frames_setStack {p q : Proc} {t : Thread} {f : Frame} {fs r : List Frame}
    (hs : p.stack t = f :: fs) (hu : q.user = p.user) (hp : q.prog = p.prog) :
    (q.setStack (r ++ fs) t).frames.length + 1 = p.frames.length + r.length := by
  cases t with
  | user =>
      simp only [stack] at hs
      simp only [frames, setStack, hp, hs, List.length_append, List.length_cons]
      omega
  | progress =>
      simp only [stack] at hs
      simp only [frames, setStack, hu, hs, List.length_append, List.length_cons]
      omega

end Proc

section Post

variable {σ : Type u} {impl : Impl σ} {x : Nat} {e : σ} {p : Proc}

theorem ffopPost_of_success (hopt : isOptSet (p.ops x).options ffopNonPersistent = false)
    (hr : (implPost impl x ((p.logPosting x).ops x) e).2 = ffSuccess) :
    ffopPost impl x e p = ((implPost impl x ((p.logPosting x).ops x) e).1,
      (p.logPosting x).addPending x, []) := by
  simp [ffopPost, hopt, hr, ffSuccess, ffCompleted]

theorem ffopPost_of_completed (impl : Impl σ)
    (hopt : isOptSet (p.ops x).options ffopNonPersistent = false)
    (hr : (implPost impl x ((p.logPosting x).ops x) e).2 = ffCompleted) :
    ffopPost impl x e p = ((implPost impl x ((p.logPosting x).ops x) e).1,
      p.logPosting x, [.complete x]) := by
  simp [ffopPost, hopt, hr]

/-- A nop is completed when it is posted. -/
theorem implPost_nop {o : Ffop} (h : o.body = .nop) : implPost impl x o e = (e, ffCompleted) := by
  simp only [implPost, h]

theorem implPost_nop_of_posting (h : (p.ops x).body = .nop) :
    implPost impl x ((p.logPosting x).ops x) e = (e, ffCompleted) :=
  implPost_nop ((Proc.logPosting_ops_of Ffop.body (fun _ => rfl) p x x).trans h)

theorem ffopPost_log (impl : Impl σ) (x : Nat) (e : σ) (p : Proc) :
    (ffopPost impl x e p).2.1.log = p.log ∨
      (ffopPost impl x e p).2.1.log = p.log ++ [.posting x] := by
  unfold ffopPost
  split
  · exact Or.inl rfl
  · refine Or.inr ?_
    simp only
    split
    · rfl
    · split <;> rfl

/-- A frame depends on the handler of the operation that it posts only. -/
theorem frameStep_congr {impl' : Impl σ} {t : Thread}
    (h : ∀ x fs, p.stack t = .post x :: fs → implPost impl' x ((p.logPosting x).ops x) e =
      implPost impl x ((p.logPosting x).ops x) e) :
    frameStep impl' t e p = frameStep impl t e p := by
  cases hstack : p.stack t with
  | nil => simp only [frameStep, hstack]
  | cons f fs =>
      cases f with
      | post x => simp only [frameStep, hstack, runFrame, ffopPost, h x fs hstack]
      | complete x => simp only [frameStep, hstack, runFrame]
      | loop x j => simp only [frameStep, hstack, runFrame]

/-- A frame of a cascade posts the operation on its top, if any. -/
theorem frameStep_posting {t : Thread} {e' : σ} {p' : Proc} {y : Nat}
    (hs : frameStep impl t e p = some (e', p')) (hy : .posting y ∈ p'.log) :
    .posting y ∈ p.log ∨ ∃ fs, p.stack t = .post y :: fs := by
  cases hstack : p.stack t with
  | nil => simp [frameStep, hstack] at hs
  | cons f fs =>
      simp only [frameStep, hstack, Option.some.injEq, Prod.mk.injEq] at hs
      obtain ⟨_, rfl⟩ := hs
      rw [Proc.setStack_log] at hy
      cases f with
      | post x =>
          rcases ffopPost_log impl x e p with hlog | hlog
          · rw [runFrame, hlog] at hy
            exact Or.inl hy
          · rw [runFrame, hlog, List.mem_append, List.mem_singleton] at hy
            refine hy.imp_right fun hxy => ⟨fs, ?_⟩
            cases hxy
            rfl
      | complete x =>
          refine Or.inl ?_
          simpa [runFrame, ffopComplete, Proc.logCompleting] using hy
      | loop x j =>
          refine Or.inl ?_
          simp only [runFrame, ffopCompleteLoop] at hy
          split at hy
          · exact hy
          · exact hy

/-- `ffschedule_post` is called between two rounds, and calls the post callback. -/
theorem ffschedulePost_eq_some {s : FfSchedule} {e' : σ} {p' : Proc}
    (h : ffschedulePost impl s e p = some (e', p')) :
    p.user = [] ∧ p.running = false ∧
      e' = (if s.postCallback.isSome then impl.postCallback e else e) ∧
      p' = { p with user := [.post s.beginOp], log := [], running := true } := by
  unfold ffschedulePost at h
  split at h
  · next hc =>
      obtain ⟨rfl, rfl⟩ := Prod.mk.inj (Option.some.inj h)
      exact ⟨hc.1, hc.2, rfl, rfl⟩
  · cases h

/-- `ffop_post` changes the outer state through the handler, if at all. -/
theorem ffopPost_env (impl : Impl σ) (x : Nat) (e : σ) (p : Proc) :
    (ffopPost impl x e p).1 = e ∨
      (ffopPost impl x e p).1 = (implPost impl x ((p.logPosting x).ops x) e).1 := by
  unfold ffopPost
  split
  · exact Or.inl rfl
  · refine Or.inr ?_
    simp only
    split
    · rfl
    · split <;> rfl

/-- So does a frame of a cascade. -/
theorem frameStep_env {t : Thread} {e' : σ} {p' : Proc}
    (hs : frameStep impl t e p = some (e', p')) : e' = e ∨ ∃ x o, e' = (implPost impl x o e).1 := by
  cases hstack : p.stack t with
  | nil => simp [frameStep, hstack] at hs
  | cons f fs =>
      simp only [frameStep, hstack, Option.some.injEq, Prod.mk.injEq] at hs
      obtain ⟨rfl, _⟩ := hs
      cases f with
      | post x =>
          rcases ffopPost_env impl x e p with henv | henv
          · exact Or.inl henv
          · exact Or.inr ⟨x, _, henv⟩
      | complete x => exact Or.inl rfl
      | loop x j => exact Or.inl rfl

/-- The progress thread has tested what it completes. -/
theorem progressStep_test {x : Nat} {e' : σ} {p' : Proc}
    (hs : progressStep impl x e p = some (e', p')) : impl.test x (p.ops x) e = some e' := by
  simp only [progressStep] at hs
  split at hs
  · obtain ⟨e'', htest, heq⟩ := Option.map_eq_some_iff.mp hs
    obtain ⟨rfl, -⟩ := Prod.mk.inj heq
    exact htest
  · cases hs

/-- Only a frame notes that an operation is posted. -/
theorem procStep_posting {s : FfSchedule} {act : ProcAct} {e' : σ} {p' : Proc} {y : Nat}
    (hs : procStep impl s e p act = some (e', p')) (hy : .posting y ∈ p'.log) :
    .posting y ∈ p.log ∨ ∃ t fs, act = .frame t ∧ p.stack t = .post y :: fs := by
  cases act with
  | post =>
      obtain ⟨_, _, _, rfl⟩ := ffschedulePost_eq_some hs
      cases hy
  | wait =>
      obtain ⟨p'', hw, heq⟩ := Option.map_eq_some_iff.mp hs
      obtain ⟨rfl, rfl⟩ := Prod.mk.inj heq
      simp only [ffscheduleWait] at hw
      split at hw
      · obtain rfl := Option.some.inj hw
        exact Or.inl hy
      · cases hw
  | progress x =>
      simp only [procStep, progressStep] at hs
      split at hs
      · obtain ⟨e'', _, heq⟩ := Option.map_eq_some_iff.mp hs
        obtain ⟨rfl, rfl⟩ := Prod.mk.inj heq
        exact Or.inl hy
      · cases hs
  | frame t =>
      refine (frameStep_posting hs hy).imp_right fun hstack => ?_
      obtain ⟨fs, hstack⟩ := hstack
      exact ⟨t, fs, rfl, hstack⟩

theorem ffopCompleteLoop_of_lt {i : Nat} (hi : i < (p.ops x).outDepCount)
    (hopt : DefaultOptions (p.ops x).options) :
    ffopCompleteLoop x i p =
      (p.setOp ((p.ops x).dependent i) (fun o => { o with depLeft := decrDepLeft o.depLeft }),
        if decrDepLeft (p.ops ((p.ops x).dependent i)).depLeft = 0 then
          [.post ((p.ops x).dependent i), .loop x (i + 1)]
        else [.loop x (i + 1)]) := by
  have hself : ((p.setOp ((p.ops x).dependent i)
      (fun o => { o with depLeft := decrDepLeft o.depLeft })).ops x).options =
        (p.ops x).options := Proc.setOp_ops_of Ffop.options (fun _ => by rfl) p _ x
  have hdep : ((p.setOp ((p.ops x).dependent i)
      (fun o => { o with depLeft := decrDepLeft o.depLeft })).ops
        ((p.ops x).dependent i)).depLeft =
      decrDepLeft (p.ops ((p.ops x).dependent i)).depLeft := by
    simp [Proc.setOp]
  simp [ffopCompleteLoop, hi, hself, hdep, hopt.1, hopt.2]

theorem ffopCompleteLoop_of_le {i : Nat} (hi : (p.ops x).outDepCount ≤ i) :
    ffopCompleteLoop x i p = (p, []) := by
  simp [ffopCompleteLoop, Nat.not_lt.mpr hi]

theorem decrDepLeft_of_pos {n : Nat} (h : 0 < n) : decrDepLeft n = n - 1 := by
  simp [decrDepLeft, Nat.pos_iff_ne_zero.mp h]

end Post

end Fflib
