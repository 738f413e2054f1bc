import Fflib.Posts

/-!
# Errors in a cascade

Calls of `ffop_post` and `ffschedule_post` by the user thread, with the code that each of
them returns and the operations whose handlers answered with an error before it returned
(`callStep`).  `ffop_post` returns the code of its own handler: the codes of the calls of
`ffop_post` in `ffop_complete`, and that of `ffop_complete`, are dropped.

* `CallInv` is the shape of the stack of the user thread, and the code that is fixed as
  soon as the handler of the posted operation has returned.
* `cascadeErrors_iff`: every error is reported iff no handler but that of the posted
  operation fails.
-/

namespace Fflib

open Library

universe u

/-- The process and the call that the user thread has made: the code it returns, once that
is known, and the operations whose handlers have failed. -/
structure CallState (σ : Type u) where
  env : σ
  proc : Proc
  result : Option Int
  failed : List Nat

inductive CallAct (σ : Type u) where
  | post (op : Nat)
  | schedulePost (s : FfSchedule)
  | engine (act : UserAct σ)

section Steps

variable {σ : Type u}

/-- Nothing has been posted. -/
def CallState.init (e : σ) (ops : Nat → Ffop) : CallState σ where
  env := e
  proc := Proc.init ops
  result := none
  failed := []

/-- A call of `ffop_post(v)` calls the handler, and the handler answers with an error. -/
def HandlerFails (impl : Impl σ) (v : Nat) (e : σ) (p : Proc) : Prop :=
  ¬ ((p.ops v).version > 0 ∧ isOptSet (p.ops v).options ffopNonPersistent = true) ∧
    IsError (ffopPostCode impl v e p)

instance (impl : Impl σ) (v : Nat) (e : σ) (p : Proc) : Decidable (HandlerFails impl v e p) :=
  inferInstanceAs (Decidable (_ ∧ _))

/-- A frame of the user thread begins a call of `ffop_post`: the first one of a cascade is
the one whose code is returned to the user. -/
def CallState.note (impl : Impl σ) (x : CallState σ) : UserAct σ → Option Int × List Nat
  | .frame .user =>
      match x.proc.user with
      | .post v :: _ =>
          (x.result.or (some (ffopPostCode impl v x.env x.proc)),
            if HandlerFails impl v x.env x.proc then v :: x.failed else x.failed)
      | _ => (x.result, x.failed)
  | _ => (x.result, x.failed)

/-- One step: the user calls `ffop_post` or `ffschedule_post`, or a thread goes on. -/
def callStep (impl : Impl σ) (vs : Finset Nat) (x : CallState σ) :
    CallAct σ → Option (CallState σ)
  | .post op =>
      if x.proc.user = [] ∧ op ∈ vs then
        some ⟨x.env, { x.proc with user := [.post op] }, none, []⟩
      else none
  | .schedulePost s =>
      if x.proc.user = [] ∧ s.beginOp ∈ vs then
        some ⟨if s.postCallback.isSome then impl.postCallback x.env else x.env,
          { x.proc with user := [.post s.beginOp] }, none, []⟩
      else none
  | .engine act =>
      (userStep impl ∅ ⟨x.env, x.proc⟩ act).map fun y =>
        ⟨y.env, y.proc, (x.note impl act).1, (x.note impl act).2⟩

/-- A call that has returned has returned an error if a handler failed in its cascade. -/
def ErrorsReported (x : CallState σ) : Prop :=
  x.proc.user = [] → x.failed ≠ [] → ∃ code, x.result = some code ∧ IsError code

/-- The handler of an operation that is posted by `ffop_complete` does not fail. -/
def DeeperSucceed (impl : Impl σ) (x : CallState σ) (act : CallAct σ) : Prop :=
  ∀ v fs, act = .engine (.frame .user) → x.proc.user = .post v :: fs → fs ≠ [] →
    ¬ HandlerFails impl v x.env x.proc

end Steps

/-! ### The stack of the user thread -/

/-- The frames below the topmost are loops of `ffop_complete`. -/
def LoopsBelow (fs : List Frame) : Prop := ∀ f ∈ fs.tail, ∃ x i, f = .loop x i

theorem LoopsBelow.tail {f : Frame} {fs : List Frame} (h : LoopsBelow (f :: fs)) :
    LoopsBelow fs := fun g hg => h g (List.mem_of_mem_tail hg)

theorem LoopsBelow.cons {f g : Frame} {fs : List Frame} (h : LoopsBelow (f :: fs)) :
    LoopsBelow (g :: fs) := h

theorem LoopsBelow.push {x i : Nat} {f g : Frame} {fs : List Frame} (h : LoopsBelow (f :: fs)) :
    LoopsBelow (g :: .loop x i :: fs) := by
  intro k hk
  rcases List.mem_cons.mp hk with rfl | hk
  · exact ⟨x, i, rfl⟩
  · exact h k hk

/-- A stack inside a cascade: a call of `ffop_post` on top was made by a loop. -/
structure InCascade (fs : List Frame) : Prop where
  loops : LoopsBelow fs
  deeper : ∀ v gs, fs = .post v :: gs → gs ≠ []

theorem InCascade.pop {f : Frame} {fs : List Frame} (h : InCascade (f :: fs)) : InCascade fs where
  loops := h.loops.tail
  deeper v gs hgs := by
    obtain ⟨x, i, hloop⟩ := h.loops (.post v) (by simp [hgs])
    cases hloop

section Moves

variable {σ : Type u} {impl : Impl σ} {e e' : σ} {p p' : Proc} {v : Nat} {fs : List Frame}

/-- What a call of `ffop_post` leaves on the stack. -/
theorem postFrame_user (hs : p.user = .post v :: fs)
    (h : frameStep impl .user e p = some (e', p')) :
    p'.user = if ffopPostCode impl v e p = ffCompleted then .complete v :: fs else fs := by
  simp only [frameStep, Proc.stack, hs, runFrame, Option.some.injEq, Prod.mk.injEq] at h
  rw [← h.2]
  unfold ffopPost ffopPostCode
  split
  · rw [if_neg (by decide)]
    rfl
  · dsimp only
    split
    · rfl
    · split
      · rfl
      · rfl

/-- The other frames stay inside the cascade, and call no handler. -/
theorem InCascade.frame {f : Frame} (hs : p.user = f :: fs) (h : InCascade (f :: fs))
    (hf : ∀ v, f ≠ .post v) (hm : FrameMove impl .user e p fs f e' p') : InCascade p'.user := by
  have hstack : ∀ (q : Proc) (gs : List Frame), (q.setStack gs .user).user = gs :=
    fun _ _ => rfl
  cases hm with
  | refused hv ho => exact absurd rfl (hf _)
  | pending hr => exact absurd rfl (hf _)
  | posted hr => exact absurd rfl (hf _)
  | failed hr hne => exact absurd rfl (hf _)
  | complete =>
      rw [hstack]
      exact ⟨h.loops, fun v gs hgs => by cases hgs⟩
  | trigger hi ht =>
      rw [hstack]
      refine ⟨h.loops.push, fun v gs hgs => ?_⟩
      rw [← (List.cons.inj hgs).2]
      simp
  | announce hi ht =>
      rw [hstack]
      exact ⟨h.loops, fun v gs hgs => by cases hgs⟩
  | done hi =>
      rw [hstack]
      exact h.pop

theorem frame_progress_user {f : Frame} (hm : FrameMove impl .progress e p fs f e' p') :
    p'.user = p.user := by
  cases hm <;> rfl

end Moves

/-! ### The call of the user -/

/-- The call has just been made, or its handler has completed at once and the call goes on,
or it has returned. -/
inductive CallInv {σ : Type u} (x : CallState σ) : Prop
  | called (v : Nat) (huser : x.proc.user = [.post v]) (hresult : x.result = none)
      (hfailed : x.failed = [])
  | cascade (hne : x.proc.user ≠ []) (hstack : InCascade x.proc.user)
      (hresult : x.result = some ffCompleted)
  | returned (huser : x.proc.user = [])

section Calls

variable {σ : Type u} {impl : Impl σ} {vs : Finset Nat} {x x' : CallState σ} {act : CallAct σ}

/-- What a step does, as far as the call of the user is concerned. -/
inductive CallMove (impl : Impl σ) (x x' : CallState σ) : CallAct σ → Prop
  | call (act : CallAct σ) (hret : x.proc.user = [])
      (hnot : ∀ uact, act ≠ .engine uact) (v : Nat)
      (huser : x'.proc.user = [.post v]) (hresult : x'.result = none)
      (hfailed : x'.failed = []) : CallMove impl x x' act
  | other (act : CallAct σ) (hnot : act ≠ .engine (.frame .user) )
      (huser : x'.proc.user = x.proc.user) (hresult : x'.result = x.result)
      (hfailed : x'.failed = x.failed) : CallMove impl x x' act
  | post (v : Nat) (fs : List Frame) (hs : x.proc.user = .post v :: fs)
      (huser : x'.proc.user =
        if ffopPostCode impl v x.env x.proc = ffCompleted then .complete v :: fs else fs)
      (hresult : x'.result = x.result.or (some (ffopPostCode impl v x.env x.proc)))
      (hfailed : x'.failed =
        if HandlerFails impl v x.env x.proc then v :: x.failed else x.failed) :
      CallMove impl x x' (.engine (.frame .user))
  | frame (f : Frame) (fs : List Frame) (hs : x.proc.user = f :: fs) (hf : ∀ v, f ≠ .post v)
      (huser : InCascade (f :: fs) → InCascade x'.proc.user) (hresult : x'.result = x.result)
      (hfailed : x'.failed = x.failed) : CallMove impl x x' (.engine (.frame .user))

theorem callStep_cases (hs : callStep impl vs x act = some x') : CallMove impl x x' act := by
  cases act with
  | post op =>
      simp only [callStep] at hs
      split at hs
      · next hc =>
          obtain rfl := Option.some.inj hs
          exact .call _ hc.1 (fun _ heq => by cases heq) op rfl rfl rfl
      · cases hs
  | schedulePost s =>
      simp only [callStep] at hs
      split at hs
      · next hc =>
          obtain rfl := Option.some.inj hs
          exact .call _ hc.1 (fun _ heq => by cases heq) s.beginOp rfl rfl rfl
      · cases hs
  | engine uact =>
      obtain ⟨y, hy, rfl⟩ := Option.map_eq_some_iff.mp hs
      cases userStep_cases hy with
      | post hu hop => cases hop
      | @frame t f fs e' p' hstack hm =>
          cases t with
          | progress =>
              exact .other _ (fun heq => by cases heq) (frame_progress_user hm) rfl rfl
          | user =>
              have huser : x.proc.user = f :: fs := hstack
              obtain ⟨r, hr, heq⟩ := Option.map_eq_some_iff.mp hy
              obtain ⟨rfl, rfl⟩ := System.mk.inj heq
              cases f with
              | post v =>
                  refine .post v fs huser (postFrame_user huser hr) ?_ ?_
                  · simp only [CallState.note, huser]
                  · simp only [CallState.note, huser]
              | complete v =>
                  refine .frame _ fs huser (fun _ h => by cases h)
                    (fun h => h.frame huser (fun _ h => by cases h) hm) ?_ ?_
                  · simp only [CallState.note, huser]
                  · simp only [CallState.note, huser]
              | loop v i =>
                  refine .frame _ fs huser (fun _ h => by cases h)
                    (fun h => h.frame huser (fun _ h => by cases h) hm) ?_ ?_
                  · simp only [CallState.note, huser]
                  · simp only [CallState.note, huser]
      | progress hp hop ht => exact .other _ (fun heq => by cases heq) rfl rfl rfl
      | env e' => exact .other _ (fun heq => by cases heq) rfl rfl rfl

/-- A call of `ffop_post` in a cascade. -/
theorem InCascade.post {v : Nat} {fs : List Frame} (h : InCascade (.post v :: fs)) {code : Int} :
    InCascade (if code = ffCompleted then .complete v :: fs else fs) := by
  split
  · exact ⟨h.loops, fun _ _ hgs => by cases hgs⟩
  · exact h.pop

/-- Step lemma. -/
theorem CallInv.step (h : CallInv x) (hs : callStep impl vs x act = some x') : CallInv x' := by
  cases callStep_cases hs with
  | call _ hret hnot v huser hresult hfailed => exact .called v huser hresult hfailed
  | other _ hnot huser hresult hfailed =>
      cases h with
      | called v hu hr hf =>
          exact .called v (huser.trans hu) (hresult.trans hr) (hfailed.trans hf)
      | cascade hne hstack hr =>
          exact .cascade (huser ▸ hne) (huser ▸ hstack) (hresult.trans hr)
      | returned hu => exact .returned (huser.trans hu)
  | post v fs hstack huser hresult hfailed =>
      cases h with
      | called w hu hr hf =>
          rw [hstack] at hu
          obtain ⟨rfl, rfl⟩ : v = w ∧ fs = [] := by simpa using hu
          rw [hr, Option.none_or] at hresult
          split at huser
          · next hcode =>
              refine .cascade (by simp [huser]) ?_ (by rw [hresult, hcode])
              rw [huser]
              exact ⟨fun f hf => by simp at hf, fun _ _ hgs => by cases hgs⟩
          · exact .returned huser
      | cascade hne hcas hr =>
          rw [hstack] at hcas
          rw [hr, Option.some_or] at hresult
          by_cases hnil : x'.proc.user = []
          · exact .returned hnil
          · refine .cascade hnil ?_ hresult
            rw [huser]
            exact hcas.post
      | returned hu =>
          rw [hstack] at hu
          cases hu
  | frame f fs hstack hf huser hresult hfailed =>
      cases h with
      | called w hu hr hf' =>
          rw [hstack] at hu
          exact absurd (List.cons.inj hu).1 (hf w)
      | cascade hne hcas hr =>
          rw [hstack] at hcas
          by_cases hnil : x'.proc.user = []
          · exact .returned hnil
          · exact .cascade hnil (huser hcas) (hresult.trans hr)
      | returned hu =>
          rw [hstack] at hu
          cases hu

/-- An error below the call of the user, which will return `FFCOMPLETED`. -/
def Swallowed (x : CallState σ) : Prop :=
  x.proc.user ≠ [] ∧ x.failed ≠ [] ∧ x.result = some ffCompleted

/-- Step lemma: an error of another handler than that of the posted operation. -/
theorem swallowed_of_not_succeed (h : CallInv x) (hbad : ¬ DeeperSucceed impl x act)
    (hs : callStep impl vs x act = some x') : Swallowed x' ∨ ¬ ErrorsReported x' := by
  simp only [DeeperSucceed, not_forall, not_not] at hbad
  obtain ⟨v, fs, rfl, hstack, hne, hfails⟩ := hbad
  have hresult : x.result = some ffCompleted := by
    cases h with
    | called w hu _ _ =>
        rw [hstack] at hu
        exact absurd (List.cons.inj hu).2 hne
    | cascade _ _ hr => exact hr
    | returned hu =>
        rw [hstack] at hu
        cases hu
  cases callStep_cases hs with
  | call _ hret hnot => exact absurd rfl (hnot _)
  | other _ hnot => exact absurd rfl hnot
  | post w gs hstack' huser hresult' hfailed =>
      rw [hstack] at hstack'
      obtain ⟨heq, rfl⟩ := List.cons.inj hstack'
      obtain rfl := Frame.post.inj heq
      rw [if_neg hfails.2.2] at huser
      rw [if_pos hfails] at hfailed
      rw [hresult, Option.some_or] at hresult'
      exact Or.inl ⟨huser ▸ hne, by simp [hfailed], hresult'⟩
  | frame f gs hstack' hf =>
      rw [hstack] at hstack'
      exact absurd (List.cons.inj hstack').1.symm (hf v)

/-- Step lemma: the error is not reported when the call returns. -/
theorem Swallowed.step (h : Swallowed x) (hs : callStep impl vs x act = some x') :
    Swallowed x' ∨ ¬ ErrorsReported x' := by
  obtain ⟨hne, hfailed, hresult⟩ := h
  have hlost : x'.failed ≠ [] → x'.result = some ffCompleted →
      Swallowed x' ∨ ¬ ErrorsReported x' := by
    intro hf hr
    by_cases hu : x'.proc.user = []
    · refine Or.inr (fun hrep => ?_)
      obtain ⟨code, hcode, _, herr⟩ := hrep hu hf
      exact herr (Option.some.inj (hcode.symm.trans hr))
    · exact Or.inl ⟨hu, hf, hr⟩
  cases callStep_cases hs with
  | call _ hret => exact absurd hret hne
  | other _ _ huser hr hf => exact hlost (hf ▸ hfailed) (hr.trans hresult)
  | post v fs hstack huser hr hf =>
      refine hlost ?_ (by rw [hr, hresult, Option.some_or])
      rw [hf]
      split
      · simp
      · exact hfailed
  | frame f fs hstack hf' huser hr hf => exact hlost (hf ▸ hfailed) (hr.trans hresult)

/-- The invariant under the condition: within a cascade no handler has failed. -/
def NoneSwallowed (x : CallState σ) : Prop :=
  ErrorsReported x ∧ (x.proc.user ≠ [] → x.failed = [])

theorem NoneSwallowed.step (h : CallInv x) (hx : NoneSwallowed x) (hok : DeeperSucceed impl x act)
    (hs : callStep impl vs x act = some x') : NoneSwallowed x' := by
  have hclean : x'.failed = [] → NoneSwallowed x' :=
    fun hf => ⟨fun _ hne => absurd hf hne, fun _ => hf⟩
  cases callStep_cases hs with
  | call _ hret hnot v huser hresult hfailed => exact hclean hfailed
  | other _ hnot huser hresult hfailed =>
      constructor
      · rw [ErrorsReported, huser, hresult, hfailed]
        exact hx.1
      · rw [huser, hfailed]
        exact hx.2
  | post v fs hstack huser hresult hfailed =>
      have hnone : x.failed = [] := hx.2 (by simp [hstack])
      by_cases hfails : HandlerFails impl v x.env x.proc
      · -- the handler that fails is that of the posted operation
        have hfs : fs = [] := by
          by_contra hne
          exact hok v fs rfl hstack hne hfails
        rw [hfs, if_neg hfails.2.2] at huser
        cases h with
        | called w hu hr hf =>
            rw [hr, Option.none_or] at hresult
            exact ⟨fun _ _ => ⟨_, hresult, hfails.2⟩, fun hne => absurd huser hne⟩
        | cascade hne hcas hr =>
            rw [hstack] at hcas
            exact absurd hfs (hcas.deeper v fs rfl)
        | returned hu =>
            rw [hstack] at hu
            cases hu
      · rw [if_neg hfails] at hfailed
        exact hclean (hfailed.trans hnone)
  | frame f fs hstack hf huser hresult hfailed =>
      exact hclean (hfailed.trans (hx.2 (by simp [hstack])))

/-- **Errors in the synchronous cascade**: in a run in which all calls have returned, each
of them has reported the errors of its cascade, iff no handler failed but those of the
operations that the user posted. -/
theorem cascadeErrors_iff (impl : Impl σ) (vs : Finset Nat) (ops : Nat → Ffop) (e : σ)
    (as : List (CallAct σ)) (t : CallState σ)
    (hr : run (callStep impl vs) (CallState.init e ops) as = some t) (hret : t.proc.user = []) :
    RunAlways (callStep impl vs) ErrorsReported (CallState.init e ops) as ↔
      RunMeets (callStep impl vs) (DeeperSucceed impl) (CallState.init e ops) as := by
  have hinit : CallInv (CallState.init e ops) := .returned rfl
  constructor
  · intro halways
    exact halways.meets (I := CallInv) (D := Swallowed) (fun x act x' h hs => h.step hs)
      (fun x act x' h hbad hs => swallowed_of_not_succeed h hbad hs)
      (fun x act x' _ hD hs => hD.step hs) as _ t hinit hr (fun hD => hD.1 hret)
  · refine runAlways_of_meets (I := fun x => CallInv x ∧ NoneSwallowed x) (fun x h => h.2.1)
      (fun x act x' h hok hs => ⟨h.1.step hs, h.2.step h.1 hok hs⟩) as _ ⟨hinit, ?_, ?_⟩
    · exact fun _ hne => absurd rfl hne
    · exact fun hne => absurd rfl hne

end Calls

/-! ### A computation that rejects its operands behind a nop -/

/-- Computations fail, everything else is left to the progress thread. -/
def rejectImpl : Impl Unit where
  post _ o e := (e, match o.body with | .comp _ _ _ _ => ffInvalidArg | _ => ffSuccess)
  test _ _ e := some e
  postCallback e := e

/-- A computation that depends on a nop. -/
def nopThenComp : Nat → Ffop :=
  (hbLib 0 1 (ffcompB 1 2 1 ffopDepAnd 2 (ffnop ffopDepAnd Lib.init).2).2).ops

def postNop : List (CallAct Unit) := .post 0 :: List.replicate 5 (.engine (.frame .user))

theorem cascadeErrors_iff_nop :
    ∃ t, run (callStep rejectImpl {0, 1}) (CallState.init () nopThenComp) postNop = some t ∧
      (RunAlways (callStep rejectImpl {0, 1}) ErrorsReported (CallState.init () nopThenComp)
          postNop ↔
        RunMeets (callStep rejectImpl {0, 1}) (DeeperSucceed rejectImpl)
          (CallState.init () nopThenComp) postNop) :=
  ⟨_, rfl, cascadeErrors_iff rejectImpl {0, 1} nopThenComp () postNop _ rfl rfl⟩

/-- The computation is posted by the completion of the nop and fails, and `ffop_post`
returns `FFCOMPLETED`. -/
theorem cascadeErrors_fails :
    ¬ ∀ (ops : Nat → Ffop) (as : List (CallAct Unit)),
      RunAlways (callStep rejectImpl {0, 1}) ErrorsReported (CallState.init () ops) as := by
  intro hall
  obtain ⟨t, hrun, huser, hfailed, hresult⟩ : ∃ t, run (callStep rejectImpl {0, 1})
      (CallState.init () nopThenComp) postNop = some t ∧ t.proc.user = [] ∧ t.failed = [1] ∧
      t.result = some ffCompleted := ⟨_, rfl, rfl, rfl, rfl⟩
  obtain ⟨code, hcode, _, herr⟩ := (hall nopThenComp postNop).last hrun huser (by simp [hfailed])
  exact herr (Option.some.inj (hcode.symm.trans hresult))

end Fflib
