import Fflib.NetLaw
import Fflib.OpAnswers

/-!
# Programs whose operators may fail

The processes of `Net`, whose computations answer what their operators do (`answeringStep`).

* `HeldNet` is the invariant: some operations are lost, and they stay lost.
* `HeldNet.step`: every step of a process gets the processes closer to their end.
* `finished_iff_acyclic_and_succeed`: the processes finish, whatever happens, exactly when
  their operations do not wait for each other in a circle and no operator fails.
-/

namespace Fflib

open Library

universe u

variable {α : Type u} {n : Nat}

namespace Net

section System

variable (F : Nat → OpAnswers α) (N : Net α n) (sync : Bool) (K : Nat)

/-- The handlers of rank `i`, whose operators answer `F i`. -/
def answeringImpl (i : Nat) : Impl (Env α) := (N.impl sync i).answering (F i) (N.ptr i) i

/-- One step of the processes.  The handlers that answer are called by the frames of the
cascades. -/
def answeringStep (w : NetState α n) : NetAct n → Option (NetState α n)
  | .proc i (.frame t) =>
      (frameStep (N.answeringImpl F sync i) t w.env (w.procs i)).map fun r =>
        { w with env := r.1, procs := Function.update w.procs i r.2 }
  | act => netStep N sync K w act

/-- The step posts no computation whose operator answers with an error. -/
def OperatorsSucceed (w : NetState α n) : NetAct n → Prop
  | .proc i act => OpSucceeds (F i) (N.ptr i) i w.env (w.procs i) act
  | _ => True

/-- No process can take a step. -/
def AnsweringStuck (w : NetState α n) : Prop :=
  ∀ act : NetAct n, act.isLocal = true → N.answeringStep F sync K w act = none

end System

variable {F : Nat → OpAnswers α} {N : Net α n} {sync : Bool} {K : Nat} {w w' : NetState α n}
  {i : Fin n}

/-! ### Operators that do not fail -/

section Succeed

theorem answeringStep_of_succeeds {act : NetAct n} (h : N.OperatorsSucceed F w act) :
    N.answeringStep F sync K w act = netStep N sync K w act := by
  cases act with
  | user i => rfl
  | read i j tag k => rfl
  | deliver i j tag k => rfl
  | proc i act =>
      cases act with
      | post => rfl
      | wait => rfl
      | progress x => rfl
      | frame t =>
          have hstep : frameStep (N.answeringImpl F sync i) t w.env (w.procs i) =
              frameStep (N.impl sync i) t w.env (w.procs i) :=
            frameStep_answering (N.impl sync i) h
          simp only [answeringStep, netStep, procStep, hstep]

/-- What the operators answer does not decide which steps are enabled. -/
theorem answeringStep_eq_none_iff {act : NetAct n} :
    N.answeringStep F sync K w act = none ↔ netStep N sync K w act = none := by
  cases act with
  | user i => exact Iff.rfl
  | read i j tag k => exact Iff.rfl
  | deliver i j tag k => exact Iff.rfl
  | proc i act =>
      cases act with
      | post => exact Iff.rfl
      | wait => exact Iff.rfl
      | progress x => exact Iff.rfl
      | frame t =>
          cases hstack : (w.procs i).stack t with
          | nil => simp [answeringStep, netStep, procStep, frameStep, hstack]
          | cons f fs => simp [answeringStep, netStep, procStep, frameStep, hstack]

theorem answeringStuck_iff : N.AnsweringStuck F sync K w ↔ N.Stuck sync K w :=
  forall_congr' fun _ => imp_congr_right fun _ => answeringStep_eq_none_iff

end Succeed

/-! ### Processes that have lost operations -/

/-- The invariant: `lost i` are the operations of rank `i` that do not complete. -/
structure HeldNet (N : Net α n) (K : Nat) (w : NetState α n) (lost : Fin n → List Nat)
    (s : Fin n → Option (Progress Nat)) : Prop where
  held : ∀ i, Held (N.graph i) (N.lib i).ops (N.sched i).endOp (w.procs i) (lost i) (s i)
  ready_lt : ∀ i : Fin n, w.ready i = true → (w.env i).round < K

theorem heldNet_initial (N : Net α n) (K : Nat) :
    N.HeldNet K N.initial (fun _ => []) (fun _ => none) where
  held i := ⟨(N.wired i).quiet_init, rfl⟩
  ready_lt _ h := by cases h

/-- A step, as far as the stacks go: what is lost stays lost, and what is left to do. -/
structure HeldStep (N : Net α n) (K : Nat) (w : NetState α n) (lost : Fin n → List Nat)
    (s : Fin n → Option (Progress Nat)) (act : NetAct n) (w' : NetState α n)
    (lost' : Fin n → List Nat) (s' : Fin n → Option (Progress Nat)) : Prop where
  inv : N.HeldNet K w' lost' s'
  lost_sub : ∀ i, lost i ⊆ lost' i
  load : N.toDo K w' s' + (if act.isLocal then 1 else 0) ≤ N.toDo K w s

namespace HeldNet

variable {lost : Fin n → List Nat} {s : Fin n → Option (Progress Nat)} (h : N.HeldNet K w lost s)
include h

/-- Only rank `i` moves, and the rounds stay. -/
theorem move {act : NetAct n} {env : Env α} {p : Proc} {l : List Nat}
    {r : Option (Progress Nat)} (hround : ∀ j, (env j).round = (w.env j).round)
    (hheld : Held (N.graph i) (N.lib i).ops (N.sched i).endOp p l r) (hsub : lost i ⊆ l)
    (hlt : N.rankToDo K i (w.env i).round (w.ready i) p r <
      N.rankToDo K i (w.env i).round (w.ready i) (w.procs i) (s i)) :
    N.HeldStep K w lost s act { w with env := env, procs := Function.update w.procs i p }
      (Function.update lost i l) (Function.update s i r) := by
  refine ⟨⟨fun j => ?_, fun j hj => ?_⟩, fun j => ?_, ?_⟩
  · by_cases hji : j = i
    · subst hji
      simpa using hheld
    · simpa [hji] using h.held j
  · rw [hround]
    exact h.ready_lt j hj
  · by_cases hji : j = i
    · subst hji
      rwa [Function.update_self]
    · rw [Function.update_of_ne hji]
      exact List.Subset.refl _
  · have hdown : N.toDo K { w with env := env, procs := Function.update w.procs i p }
        (Function.update s i r) < N.toDo K w s := by
      refine toDo_lt (i := i) (fun j _ => hround j) (fun _ _ => rfl)
        (fun j hj => Function.update_of_ne hj _ _) (fun j hj => Function.update_of_ne hj _ _) ?_
      simpa only [Function.update_self, hround] using hlt
    split <;> omega

/-- The network moves. -/
theorem network {act : NetAct n} (hact : act.isLocal = false) {env : Env α}
    (hround : ∀ j, (env j).round = (w.env j).round) :
    N.HeldStep K w lost s act { w with env := env } lost s where
  inv := ⟨h.held, fun i hi => by rw [hround]; exact h.ready_lt i hi⟩
  lost_sub _ := List.Subset.refl _
  load := by
    rw [NetInv.toDo_network hround, hact]
    exact le_rfl

omit h in
/-- A rank with less to do by itself has less to do. -/
theorem rankToDo_lt {round : Nat} {ready : Bool} {p p' : Proc} {r r' : Option (Progress Nat)}
    (hsome : r'.isSome = r.isSome)
    (hlt : heldLoad (N.graph i) p' r' < heldLoad (N.graph i) p r) :
    N.rankToDo K i round ready p' r' < N.rankToDo K i round ready p r := by
  cases r with
  | none =>
      obtain rfl : r' = none := by simpa using hsome
      simp only [rankToDo, heldLoad] at hlt ⊢
      omega
  | some a =>
      obtain ⟨a', rfl⟩ := Option.isSome_iff_exists.mp hsome
      simp only [rankToDo, heldLoad] at hlt ⊢
      omega

/-- Step lemma: the code before a round. -/
theorem userStep (hs : N.answeringStep F sync K w (.user i) = some w') :
    N.HeldStep K w lost s (.user i) w' lost s := by
  simp only [answeringStep, netStep] at hs
  split at hs
  · next hc =>
      obtain ⟨hrun, _, hready, hK⟩ := hc
      obtain rfl := Option.some.inj hs
      have hnone : s i = none := by
        have heq := (h.held i).running_eq
        rw [hrun] at heq
        simpa using heq.symm
      have hround : ∀ j : Nat, ((w.env.modify i (N.runUser i)) j).round = (w.env j).round :=
        Env.modify_congr RankEnv.round rfl
      refine ⟨⟨h.held, fun j hj => ?_⟩, fun _ => List.Subset.refl _, ?_⟩
      · rw [hround]
        by_cases hji : j = i
        · rwa [hji]
        · exact h.ready_lt j ((Function.update_of_ne hji _ _).symm.trans hj)
      · refine toDo_lt (i := i) (fun j _ => hround j) (fun j hj => ?_) (fun _ _ => rfl)
          (fun _ _ => rfl) ?_
        · exact Function.update_of_ne hj _ _
        · simp [rankToDo, hnone, hready, runUser]
  · cases hs

/-- Step lemma: `ffschedule_post`. -/
theorem postStep (hs : N.answeringStep F sync K w (.proc i .post) = some w') :
    N.HeldStep K w lost s (.proc i .post) w' lost
      (Function.update s i (some (N.graph i).start)) := by
  simp only [answeringStep, netStep] at hs
  split at hs
  · next hready =>
      obtain ⟨⟨env', p'⟩, hp, rfl⟩ := Option.map_eq_some_iff.mp hs
      obtain ⟨hnone, hheld, hframes⟩ := (h.held i).postStep (N.wired i) rfl hp
      obtain ⟨_, _, henv, _⟩ := ffschedulePost_eq_some hp
      rw [N.callback i] at henv
      simp only [Option.isSome_none, Bool.false_eq_true, if_false] at henv
      subst henv
      have hK := h.ready_lt i hready
      have hother : ∀ j : Fin n, j ≠ i →
          w.env.modify i RankEnv.nextRound j = w.env j :=
        fun j hj => Env.modify_of_ne (fun heq => hj (Fin.ext heq)) _ _
      refine ⟨⟨fun j => ?_, fun j hj => ?_⟩, fun _ => List.Subset.refl _, ?_⟩
      · by_cases hji : j = i
        · subst hji
          simpa using hheld
        · simpa [hji] using h.held j
      · by_cases hji : j = i
        · subst hji
          cases (Function.update_self j false w.ready).symm.trans hj
        · simp only [hother j hji]
          exact h.ready_lt j ((Function.update_of_ne hji _ _).symm.trans hj)
      · refine toDo_lt (i := i) (fun j hj => ?_) (fun j hj => ?_) (fun j hj => ?_)
          (fun j hj => ?_) ?_
        · exact congrArg RankEnv.round (hother j hj)
        · exact Function.update_of_ne hj _ _
        · exact Function.update_of_ne hj _ _
        · exact Function.update_of_ne hj _ _
        · have hmul : K - (w.env i).round = K - ((w.env i).round + 1) + 1 := by omega
          simp only [rankToDo, Env.modify_self, Function.update_self, RankEnv.nextRound, hready,
            hnone, Fflib.load, hframes, hmul, Nat.add_mul, if_true]
          omega
  · cases hs

/-- Step lemma: `ffschedule_wait` returns. -/
theorem waitStep (hs : N.answeringStep F sync K w (.proc i .wait) = some w') :
    N.HeldStep K w lost s (.proc i .wait) w' (Function.update lost i (lost i))
      (Function.update s i none) := by
  simp only [answeringStep, netStep, procStep] at hs
  obtain ⟨⟨env', p'⟩, hp, rfl⟩ := Option.map_eq_some_iff.mp hs
  obtain ⟨p'', hw, heq⟩ := Option.map_eq_some_iff.mp hp
  obtain ⟨rfl, rfl⟩ := Prod.mk.inj heq
  obtain ⟨hsome, _, hheld⟩ := (h.held i).waitStep (N.wired i) rfl hw
  obtain ⟨a, ha⟩ := Option.isSome_iff_exists.mp hsome
  have hframes : p''.frames = (w.procs i).frames := by
    simp only [ffscheduleWait] at hw
    split at hw
    · obtain rfl := Option.some.inj hw
      rfl
    · cases hw
  refine h.move (fun _ => rfl) hheld (List.Subset.refl _) ?_
  simp only [rankToDo, ha, hframes, Fflib.load]
  split <;> omega

/-- Step lemma: a frame of a cascade. -/
theorem frameStep {t : Thread}
    (hs : N.answeringStep F sync K w (.proc i (.frame t)) = some w') :
    ∃ r, N.HeldStep K w lost s (.proc i (.frame t)) w'
      (Function.update lost i
        (lostBy (N.answeringImpl F sync i) t w.env (w.procs i) ++ lost i))
      (Function.update s i r) := by
  obtain ⟨⟨env', p'⟩, hp, rfl⟩ := Option.map_eq_some_iff.mp hs
  obtain ⟨r, hsome, hheld, hlt⟩ := (h.held i).frameStep (N.wired i) hp
  have hround := frameStep_answering_round (implPost_netImpl_round N.ops (N.ptr i) sync i) hp
  exact ⟨r, h.move hround hheld (List.subset_append_right _ _) (rankToDo_lt hsome hlt)⟩

/-- Step lemma: the progress thread finds a request completed. -/
theorem progressStep {x : Nat}
    (hs : N.answeringStep F sync K w (.proc i (.progress x)) = some w') :
    ∃ r, N.HeldStep K w lost s (.proc i (.progress x)) w'
      (Function.update lost i (lost i)) (Function.update s i r) := by
  simp only [answeringStep, netStep, procStep] at hs
  obtain ⟨⟨env', p'⟩, hp, rfl⟩ := Option.map_eq_some_iff.mp hs
  obtain ⟨r, hsome, hheld, hlt⟩ := (h.held i).progressStep hp
  have hround := test_round N.ops sync none i x w.env (progressStep_test hp)
  exact ⟨r, h.move hround hheld (List.Subset.refl _) (rankToDo_lt hsome hlt)⟩

/-- **Step lemma**: what is lost stays lost, and a step of a process gets the processes closer
to their end. -/
theorem step {act : NetAct n} (hs : N.answeringStep F sync K w act = some w') :
    ∃ lost' s', N.HeldStep K w lost s act w' lost' s' := by
  cases act with
  | user i => exact ⟨_, _, h.userStep hs⟩
  | read i j tag k =>
      obtain rfl := Option.some.inj hs
      exact ⟨_, _, h.network rfl fun l => (readSend_rank i j tag k w.env l).2.2⟩
  | deliver i j tag k =>
      obtain rfl := Option.some.inj hs
      exact ⟨_, _, h.network rfl fun l => (deliver_rank i j tag k w.env l).2⟩
  | proc i act =>
      cases act with
      | post => exact ⟨_, _, h.postStep hs⟩
      | wait => exact ⟨_, _, h.waitStep hs⟩
      | frame t =>
          obtain ⟨r, hr⟩ := h.frameStep hs
          exact ⟨_, _, hr⟩
      | progress x =>
          obtain ⟨r, hr⟩ := h.progressStep hs
          exact ⟨_, _, hr⟩

/-- The steps of the processes come to an end, and what is lost by then stays lost. -/
theorem exists_stuck (F : Nat → OpAnswers α) (sync : Bool) :
    ∃ as w' lost' s', run (N.answeringStep F sync K) w as = some w' ∧
      N.HeldNet K w' lost' s' ∧ (∀ i, lost i ⊆ lost' i) ∧ N.AnsweringStuck F sync K w' := by
  have hdown : ∀ k w₁, (∃ lost₁ s₁, N.HeldNet K w₁ lost₁ s₁ ∧ (∀ i, lost i ⊆ lost₁ i) ∧
        N.toDo K w₁ s₁ = k) → N.AnsweringStuck F sync K w₁ ∨
      ∃ act w₂ k', N.answeringStep F sync K w₁ act = some w₂ ∧ k' < k ∧
        ∃ lost₂ s₂, N.HeldNet K w₂ lost₂ s₂ ∧ (∀ i, lost i ⊆ lost₂ i) ∧
          N.toDo K w₂ s₂ = k' := by
    rintro k w₁ ⟨lost₁, s₁, h₁, hsub, hk⟩
    by_cases hst : N.AnsweringStuck F sync K w₁
    · exact Or.inl hst
    · simp only [AnsweringStuck, not_forall] at hst
      obtain ⟨act, hlocal, hstep⟩ := hst
      obtain ⟨w₂, hw₂⟩ := Option.ne_none_iff_exists'.mp hstep
      obtain ⟨lost₂, s₂, hr⟩ := h₁.step hw₂
      have hload := hr.load
      rw [if_pos hlocal, hk] at hload
      exact Or.inr ⟨act, w₂, _, hw₂, hload, lost₂, s₂, hr.inv,
        fun i => List.Subset.trans (hsub i) (hr.lost_sub i), rfl⟩
  obtain ⟨as, w', _, hrun, ⟨lost', s', h', hsub, _⟩, hst⟩ :=
    exists_run_of_measure hdown _ w ⟨lost, s, h, fun _ => List.Subset.refl _, rfl⟩
  exact ⟨as, w', lost', s', hrun, h', hsub, hst⟩

end HeldNet

/-- Run lemma. -/
theorem heldNet_of_reachable (hw : Reachable (N.answeringStep F sync K) N.initial w) :
    ∃ lost s, N.HeldNet K w lost s :=
  hw.induction (fun w => ∃ lost s, N.HeldNet K w lost s) ⟨_, _, N.heldNet_initial K⟩
    (fun _ _ _ hinv hs => by
      obtain ⟨lost, s, h⟩ := hinv
      obtain ⟨lost', s', hr⟩ := h.step hs
      exact ⟨lost', s', hr.inv⟩)

/-- A step in which an operator fails leads to a state that is stuck, and in which not all
processes have finished. -/
theorem exists_stuck_of_not_succeeds (hw : Reachable (N.answeringStep F sync K) N.initial w)
    {act : NetAct n} (hC : ¬ N.OperatorsSucceed F w act) :
    ∃ w', Reachable (N.answeringStep F sync K) N.initial w' ∧ N.AnsweringStuck F sync K w' ∧
      ¬ Finished K w' := by
  obtain ⟨lost, s, h⟩ := heldNet_of_reachable hw
  cases act with
  | user i => exact absurd trivial hC
  | read i j tag k => exact absurd trivial hC
  | deliver i j tag k => exact absurd trivial hC
  | proc i act =>
      obtain ⟨t, x, rfl, hstack, hlost⟩ := lostBy_of_not_opSucceeds (N.impl sync i) hC
      obtain ⟨f, fs, hf⟩ := List.exists_cons_of_ne_nil hstack
      obtain ⟨w₁, hs⟩ : ∃ w₁, N.answeringStep F sync K w (.proc i (.frame t)) = some w₁ := by
        simp [answeringStep, Fflib.frameStep, hf]
      obtain ⟨r, hr⟩ := h.frameStep hs
      have hx : x ∈ Function.update lost i
          (lostBy (N.answeringImpl F sync i) t w.env (w.procs i) ++ lost i) i := by
        rw [Function.update_self, answeringImpl, hlost]
        exact List.mem_cons_self
      obtain ⟨as, w', lost', s', hrun, h', hsub, hst⟩ := hr.inv.exists_stuck F sync
      obtain ⟨bs, hbs⟩ := hw.tail hs
      refine ⟨w', ⟨bs ++ as, run_append_eq_some.mpr ⟨w₁, hbs, hrun⟩⟩, hst, fun hf => ?_⟩
      have hrunning := ((h'.held i).end_of_mem (N.wired i) (hsub i hx)).1
      rw [(hf i).2] at hrunning
      cases hrunning

/-- The operators succeed in every run if they do whenever they are called. -/
theorem runMeets_of_succeeds
    (h : ∀ (i : Fin n) v b1 b2 b3 c, v ∈ (N.graph i).verts →
      N.body i v = .comp b1 b2 b3 c.operator → (F i).Succeeds c) (as : List (NetAct n)) :
    RunMeets (N.answeringStep F sync K) (N.OperatorsSucceed F) N.initial as := by
  refine runMeets_of_invariant (I := fun w => ∃ lost s, N.HeldNet K w lost s)
    (fun w act w' hinv hs => ?_) (fun w act hinv => ?_) as _ ⟨_, _, N.heldNet_initial K⟩
  · obtain ⟨lost, s, hinv⟩ := hinv
    obtain ⟨lost', s', hr⟩ := hinv.step hs
    exact ⟨lost', s', hr.inv⟩
  · obtain ⟨lost, s, hinv⟩ := hinv
    cases act with
    | user i => trivial
    | read i j tag k => trivial
    | deliver i j tag k => trivial
    | proc i act =>
        intro t x fs b1 b2 b3 operator _ hstack hbody
        rw [((hinv.held i).same x).body_eq] at hbody
        exact h i x b1 b2 b3 _ ((hinv.held i).mem_of_post hstack) hbody

/-- **Deadlock freedom**: whatever a program has done, its processes can take steps of their
own until all have finished, if and only if its operations do not wait for each other in a
circle and no run posts a computation whose operator answers with an error. -/
theorem finished_iff_acyclic_and_succeed (N : Net α n) (hP : N.Paired) (F : Nat → OpAnswers α)
    {sync : Bool} {K : Nat} (hK : 0 < K) :
    (∀ w, Reachable (N.answeringStep F sync K) N.initial w → N.AnsweringStuck F sync K w →
        Finished K w) ↔
      N.Acyclic sync ∧
        ∀ as, RunMeets (N.answeringStep F sync K) (N.OperatorsSucceed F) N.initial as := by
  constructor
  · intro h
    have hall : ∀ as,
        RunMeets (N.answeringStep F sync K) (N.OperatorsSucceed F) N.initial as := by
      intro as
      by_contra hC
      obtain ⟨w, act, hw, hfail⟩ := exists_reachable_of_not_runMeets hC
      obtain ⟨w', hw', hst, hnot⟩ := exists_stuck_of_not_succeeds hw hfail
      exact hnot (h w' hw' hst)
    refine ⟨(stuck_finished_iff_acyclic N hP hK).mp fun w hw hst => ?_, hall⟩
    exact h w (hw.of_all_meet (fun _ _ => answeringStep_of_succeeds) hall)
      (answeringStuck_iff.mpr hst)
  · rintro ⟨hacyc, hall⟩ w ⟨as, hrun⟩ hst
    have hw := reachable_of_meets (fun _ _ => answeringStep_of_succeeds) (hall as) hrun
    exact finished_of_stuck hP hacyc hw (answeringStuck_iff.mp hst)

end Net

/-! ### A process with one computation -/

/-- The calls of the process: the handle of its computation is 2. -/
def reduceCalls : List BuildCall :=
  [.scheduleCreate, .buffer 1 0, .buffer 1 0, .create (.comp 1 2 2 ffCustom) 0, .addOp 2]

/-- What they have built. -/
def reduceBuilt : Builder :=
  (run (buildStep maxDeps Lib.init.opid) ⟨none, Lib.init⟩ reduceCalls).getD ⟨none, Lib.init⟩

def reduceSched : FfSchedule := reduceBuilt.sched.getD (ffscheduleCreate Lib.init).1

theorem reduceSched_spec : reduceSched.postCallback = none ∧
    ScheduleBuilt maxDeps Lib.init reduceCalls reduceSched reduceBuilt.lib := by
  have hcases : ∀ x, 0 ≤ x ∧ x < 3 ∧ x ≠ 0 ∧ x ≠ 1 → x = 2 := by omega
  refine ⟨rfl, rfl, ⟨2, member_some.mpr (by decide)⟩, fun x hx => ?_, ?_, fun body o hc => ?_⟩
  · obtain rfl := hcases x (member_some.mp hx)
    rfl
  · exact acyclic_of_lt id fun a b hab => by simp [reduceCalls] at hab
  · simp only [reduceCalls, List.mem_cons, BuildCall.create.injEq, reduceCtorEq,
      List.not_mem_nil, or_false, false_or] at hc
    rw [hc.2]
    decide

/-- The process, with its operator. -/
def reduceNet (f : Nat → Nat → Nat) : Net Nat 1 where
  cap := maxDeps
  ops _ := f
  lib₀ _ := Lib.init
  calls _ := reduceCalls
  sched _ := reduceSched
  lib _ := reduceBuilt.lib
  ptr _ := id
  mem₀ _ _ _ := 1
  user _ _ mem := mem
  built _ := reduceSched_spec.2
  callback _ := reduceSched_spec.1

theorem reduceNet_body (f : Nat → Nat → Nat) {v : Nat}
    (hv : v ∈ ((reduceNet f).graph 0).verts) : (reduceNet f).body 0 v = .nop ∨
      (reduceNet f).body 0 v = .comp 1 2 2 ffCustom := by
  obtain ⟨_, hlt⟩ : 0 ≤ v ∧ v < 3 := ScheduleBuilt.mem_verts _ |>.mp hv
  obtain rfl | rfl | rfl : v = 0 ∨ v = 1 ∨ v = 2 := by omega
  · exact Or.inl rfl
  · exact Or.inl rfl
  · exact Or.inr rfl

theorem reduceNet_no_sends (f : Nat → Nat → Nat) {i : Fin 1} {x peer tag b : Nat} :
    ¬ (reduceNet f).Sends i x peer tag b := by
  rintro ⟨hx, hb⟩
  obtain rfl : i = 0 := Subsingleton.elim _ _
  rcases reduceNet_body f hx with h | h
  · cases h.symm.trans hb
  · cases h.symm.trans hb

theorem reduceNet_no_receives (f : Nat → Nat → Nat) {i : Fin 1} {x peer tag b : Nat} :
    ¬ (reduceNet f).Receives i x peer tag b := by
  rintro ⟨hx, hb⟩
  obtain rfl : i = 0 := Subsingleton.elim _ _
  rcases reduceNet_body f hx with h | h
  · cases h.symm.trans hb
  · cases h.symm.trans hb

theorem reduceNet_paired (f : Nat → Nat → Nat) : (reduceNet f).Paired where
  send_unique hx _ := absurd hx (reduceNet_no_sends f)
  recv_unique hy _ := absurd hy (reduceNet_no_receives f)
  send_matched hx := absurd hx (reduceNet_no_sends f)
  recv_matched hy := absurd hy (reduceNet_no_receives f)

theorem reduceNet_acyclic (f : Nat → Nat → Nat) (sync : Bool) : (reduceNet f).Acyclic sync := by
  have hpred : ∀ p q, Relation.TransGen ((reduceNet f).Waits sync) p q →
      ∃ i u v, p = (i, u) ∧ q = (i, v) ∧
        Relation.TransGen ((reduceNet f).graph i).Pred u v := by
    intro p q h
    induction h with
    | single h =>
        cases h with
        | @pred i u v hp => exact ⟨i, u, v, rfl, rfl, .single hp⟩
        | recv _ hm =>
            obtain ⟨_, _, _, hs, _⟩ := hm
            exact absurd hs (reduceNet_no_sends f)
        | send _ hm _ =>
            obtain ⟨_, _, _, hs, _⟩ := hm
            exact absurd hs (reduceNet_no_sends f)
    | tail _ h ih =>
        obtain ⟨i, u, v, rfl, rfl, hpath⟩ := ih
        cases h with
        | pred hp => exact ⟨i, u, _, rfl, rfl, hpath.tail hp⟩
        | recv _ hm =>
            obtain ⟨_, _, _, hs, _⟩ := hm
            exact absurd hs (reduceNet_no_sends f)
        | send _ hm _ =>
            obtain ⟨_, _, _, hs, _⟩ := hm
            exact absurd hs (reduceNet_no_sends f)
  intro p hp
  obtain ⟨i, u, v, rfl, heq, hpath⟩ := hpred p p hp
  obtain rfl : u = v := congrArg Prod.snd heq
  exact ((reduceNet f).wired i).wf.transGen.asymmetric _ _ hpath hpath

/-- The process up to the post of its computation. -/
def reduceActs : List (NetAct 1) :=
  [.user 0, .proc 0 .post, .proc 0 (.frame .user), .proc 0 (.frame .user),
    .proc 0 (.frame .user)]

/-- The operator of the computation fails. -/
theorem reduceNet_not_runMeets : ¬ RunMeets
    ((reduceNet max).answeringStep (fun _ => .always ffInvalidArg) false 1)
    ((reduceNet max).OperatorsSucceed fun _ => .always ffInvalidArg) (reduceNet max).initial
    (reduceActs ++ [.proc 0 (.frame .user)]) := by
  intro h
  obtain ⟨w, hw, hstack⟩ : ∃ w, run
      ((reduceNet max).answeringStep (fun _ => .always ffInvalidArg) false 1)
        (reduceNet max).initial reduceActs = some w ∧
      (w.procs 0).stack .user = [.post 2, .loop 0 1] ∧
        ((w.procs 0).ops 2).body = .comp 1 2 2 ffCustom := ⟨_, rfl, rfl, rfl⟩
  have hlast := h.last hw .user 2 [.loop 0 1] 1 2 2 ffCustom rfl hstack.1 hstack.2
  rw [OpAnswers.always_succeeds_iff rfl] at hlast
  exact absurd hlast (by decide)

namespace Net

/-- With an operator that succeeds the process finishes, with one that fails it does not. -/
theorem finished_iff_acyclic_and_succeed_reduce :
    (∀ w, Reachable ((reduceNet max).answeringStep (fun _ => .always ffSuccess) false 1)
        (reduceNet max).initial w →
      (reduceNet max).AnsweringStuck (fun _ => .always ffSuccess) false 1 w → Finished 1 w) ∧
    ¬ ∀ w, Reachable ((reduceNet max).answeringStep (fun _ => .always ffInvalidArg) false 1)
        (reduceNet max).initial w →
      (reduceNet max).AnsweringStuck (fun _ => .always ffInvalidArg) false 1 w →
        Finished 1 w := by
  constructor
  · refine (finished_iff_acyclic_and_succeed (reduceNet max) (reduceNet_paired max)
      (fun _ => .always ffSuccess) (by decide)).mpr
        ⟨reduceNet_acyclic max false, runMeets_of_succeeds fun i v b1 b2 b3 c hv hb => ?_⟩
    obtain rfl : i = 0 := Subsingleton.elim _ _
    rcases reduceNet_body max hv with h | h
    · cases h.symm.trans hb
    · have hop : ffCustom = c.operator := (FfopBody.comp.inj (h.symm.trans hb)).2.2.2
      exact (OpAnswers.always_succeeds_iff hop.symm).mpr (Or.inl rfl)
  · intro h
    exact reduceNet_not_runMeets (((finished_iff_acyclic_and_succeed (reduceNet max)
      (reduceNet_paired max) (fun _ => .always ffInvalidArg) (by decide)).mp h).2 _)

end Net

end Fflib
