import Fflib.Completion
import Fflib.OpAnswers
import Fflib.RankOrder
import Fflib.RoundLoop

/-!
# The allreduce with operators that fail

An allreduce gets stuck when a computation of it answers with an error, which nothing reports:
the operation is never completed, so `end_op` is not, and in the end neither a cascade nor a
request of any rank can go on.

* `answeringStep` are the steps of the ranks whose operators answer; `CanMove` is what can
  happen in a state.
* `HeldInv` is the invariant of the ranks, some of which have lost operations.
* `exists_stuck_of_lost`: a rank that has lost an operation leads to a state that is stuck.
* `allreduce_moves_iff` is the result, with the bound on the ranks for which the round loop
  ends.
-/

namespace Fflib

open Library

universe u

variable {α : Type u}

namespace Ranks

section System

variable (F : Nat → OpAnswers α) (J : Ranks α) (cap : Nat) (sync : Bool)

/-- The handlers of rank `i`, whose operators answer `F i`. -/
def answeringImpl (i : Nat) : Impl (Env α) := (J.impl cap sync i).answering (F i) id i

/-- One step of the system, in which the ranks post their schedules once.  The handlers that
answer are called by the frames of the cascades. -/
def answeringStep (w : World α) : WorldAct α → Option (World α)
  | .proc i (.frame t) =>
      if i < J.csize then
        (frameStep (J.answeringImpl F cap sync i) t w.env (w.procs i)).map fun r =>
          { w with env := r.1, procs := Function.update w.procs i r.2 }
      else none
  | act => worldStep J cap sync 1 w act

/-- The step posts no computation whose operator answers with an error. -/
def OperatorsSucceed (w : World α) : WorldAct α → Prop
  | .proc i act => i < J.csize → OpSucceeds (F i) id i w.env (w.procs i) act
  | _ => True

/-- All ranks have posted their schedule, and some `end_op` has not completed. -/
structure Waiting (w : World α) : Prop where
  posted : ∀ i, i < J.csize → (w.env i).round = 1
  pending : ∃ i, i < J.csize ∧ J.EndPending cap w i

/-- A cascade can go on, or a posted send or receive can complete. -/
def CanMove (w : World α) : Prop :=
  (∃ i t, i < J.csize ∧ (answeringStep F J cap sync w (.proc i (.frame t))).isSome = true) ∨
    ∃ i x, i < J.csize ∧ x ∈ (w.procs i).pending ∧
      ((w.procs i).ops x).body.isRequest = true ∧
      (answeringStep F J cap sync w (.proc i (.progress x))).isSome = true

/-- With `mask` in an `int`, every rank builds its schedule. -/
def BuildsOnInts : Prop :=
  ∀ i, i < J.csize → ∃ fuel,
    ffallreduceInt cap (J.args i) (J.lib₀ i) fuel = some (J.build cap i)

/-- The ranks build their schedules, and then no state that they reach is stuck. -/
structure DeadlockFree : Prop where
  built : J.BuildsOnInts cap
  moves : ∀ w, Reachable (answeringStep F J cap sync) (J.initial cap) w → J.Waiting cap w →
    CanMove F J cap sync w

end System

variable {F : Nat → OpAnswers α} {J : Ranks α} {cap : Nat} {sync : Bool} {w w' : World α}
  {i : Nat}

/-! ### Operators that do not fail -/

section Succeed

theorem answeringStep_of_succeeds {act : WorldAct α} (h : J.OperatorsSucceed F w act) :
    answeringStep F J cap sync w act = worldStep J cap sync 1 w act := by
  cases act with
  | set i scratch => rfl
  | read i j k => rfl
  | deliver i j k => rfl
  | proc i act =>
      cases act with
      | post => rfl
      | wait => rfl
      | progress x => rfl
      | frame t =>
          by_cases hi : i < J.csize
          · have hstep : frameStep (J.answeringImpl F cap sync i) t w.env (w.procs i) =
                frameStep (J.impl cap sync i) t w.env (w.procs i) :=
              frameStep_answering (J.impl cap sync i) (h hi)
            simp only [answeringStep, worldStep, procStep, if_pos hi, hstep]
          · simp only [answeringStep, worldStep, if_neg hi]

theorem canMove_of_run (hB : J.Builds cap) (as : List (WorldAct α))
    (h : RunMeets (answeringStep F J cap sync) (J.OperatorsSucceed F) (J.initial cap) as)
    (hr : run (answeringStep F J cap sync) (J.initial cap) as = some w)
    (hw : J.Waiting cap w) : CanMove F J cap sync w := by
  have hreach := reachable_of_meets (fun _ _ => answeringStep_of_succeeds) h hr
  rcases allreduce_deadlock_free hB sync hreach hw.posted hw.pending with
    ⟨i, t, hi, ht, _⟩ | ⟨i, hi, x, hx, hbody, hstep⟩
  · refine Or.inl ⟨i, t, hi, ?_⟩
    obtain ⟨f, fs, hs⟩ := List.exists_cons_of_ne_nil ht
    simp [answeringStep, frameStep, hi, hs]
  · exact Or.inr ⟨i, x, hi, hx, hbody, hstep⟩

/-- Up to `2 ^ 30` ranks the round loop ends. -/
theorem buildsOnInts_iff (hB : J.Builds cap) (hint : J.csize < 2 ^ 31) :
    J.BuildsOnInts cap ↔ J.csize ≤ 2 ^ 30 := by
  constructor
  · intro h
    by_contra hlow
    obtain ⟨fuel, hfuel⟩ := h 0 J.csize_pos
    have hcsize := J.csize_eq 0
    rw [ffallreduceInt_eq_none (by omega) (by omega)] at hfuel
    cases hfuel
  · intro hle i hi
    have hcsize := J.csize_eq i
    have hrank := J.rank_eq i
    obtain ⟨r, hr⟩ := Option.isSome_iff_exists.mp (hB.isSome i hi)
    refine ⟨31, ?_⟩
    rw [build, hr, Option.getD_some]
    exact ffallreduceInt_eq (by omega) (by omega) hr (by omega)

end Succeed

/-! ### Ranks that have lost operations -/

section Lost

/-- One rank: it posts its schedule once, and the operations `lost` do not complete. -/
structure HeldRank (hB : J.Builds cap) {i : Nat} (hi : i < J.csize) (p : Proc) (round : Nat)
    (lost : List Nat) (r : Option (Progress Nat)) : Prop where
  held : Held (hB.graph hi) (J.build cap i).2.ops ((J.lib₀ i).opid + 1) p lost r
  round_le : round ≤ 1
  round_pos : r.isSome = true → 0 < round

/-- All ranks. -/
def HeldInv (hB : J.Builds cap) (w : World α) (lost : Nat → List Nat)
    (s : Nat → Option (Progress Nat)) : Prop :=
  ∀ i, ∀ hi : i < J.csize, HeldRank hB hi (w.procs i) (w.env i).round (lost i) (s i)

/-- Rank `i` has moved, to the execution `r` with the lost operations `l`. -/
structure HeldMoved (hB : J.Builds cap) (lost : Nat → List Nat)
    (s : Nat → Option (Progress Nat)) (i : Nat) (l : List Nat) (r : Option (Progress Nat))
    (w w' : World α) : Prop where
  inv : HeldInv hB w' (Function.update lost i l) (Function.update s i r)
  procs : ∀ j, j ≠ i → w'.procs j = w.procs j
  loaded : ∀ j, j ≠ i → w'.loaded j = w.loaded j
  round : ∀ j, j ≠ i → (w'.env j).round = (w.env j).round

/-- The handlers leave the rounds. -/
theorem implPost_round (x : Nat) (o : Ffop) (env : Env α) (j : Nat) :
    ((implPost (J.impl cap sync i) x o env).1 j).round = (env j).round := by
  obtain ⟨hother, hround⟩ :
      (∀ j, j ≠ i → (implPost (J.impl cap sync i) x o env).1 j = env j) ∧
        ((implPost (J.impl cap sync i) x o env).1 i).round = (env i).round :=
    implPost_frame J.ops sync (J.build cap i).1.state i x env
  by_cases hj : j = i
  · rw [hj]
    exact hround
  · exact congrArg RankEnv.round (hother j hj)

/-- So does the callback. -/
theorem postCallback_round (env : Env α) (j : Nat) :
    ((J.impl cap sync i).postCallback env j).round = (env j).round := by
  simp only [impl, mpiImpl]
  cases (J.build cap i).1.state with
  | none => rfl
  | some st => exact Env.modify_congr RankEnv.round (postCheck_mem st (env i)).2.2.2 j

/-- Nothing has been posted, and nothing is lost. -/
theorem heldInv_initial (hB : J.Builds cap) :
    HeldInv hB (J.initial cap) (fun _ => []) (fun _ => none) :=
  fun _ hi => ⟨⟨(hB.wired hi).quiet_init, rfl⟩, Nat.zero_le 1, fun h => by cases h⟩

namespace HeldInv

variable {hB : J.Builds cap} {lost : Nat → List Nat} {s : Nat → Option (Progress Nat)}
  (h : HeldInv hB w lost s)
include h

/-- Only rank `i` changes. -/
theorem moved (hi : i < J.csize) {l : List Nat} {r : Option (Progress Nat)}
    (hne : ∀ j, j ≠ i → w'.procs j = w.procs j ∧ w'.loaded j = w.loaded j ∧
      (w'.env j).round = (w.env j).round)
    (hr : HeldRank hB hi (w'.procs i) (w'.env i).round l r) : HeldMoved hB lost s i l r w w' := by
  refine ⟨fun j hj => ?_, fun j hj => (hne j hj).1, fun j hj => (hne j hj).2.1,
    fun j hj => (hne j hj).2.2⟩
  by_cases hji : j = i
  · subst hji
    rw [Function.update_self, Function.update_self]
    exact hr
  · obtain ⟨h1, _, h3⟩ := hne j hji
    rw [Function.update_of_ne hji, Function.update_of_ne hji, h1, h3]
    exact h j hj

/-- Nothing but the memory and the requests changes. -/
theorem congr (hprocs : w'.procs = w.procs) (hround : ∀ j, (w'.env j).round = (w.env j).round) :
    HeldInv hB w' lost s := by
  intro j hj
  rw [hprocs, hround]
  exact h j hj

/-- Step lemma: the user sets the inputs. -/
theorem setStep {scratch : Nat → α}
    (hs : answeringStep F J cap sync w (.set i scratch) = some w') :
    HeldInv hB w' lost s ∧ w'.procs = w.procs ∧
      (∀ j, (w'.env j).round = (w.env j).round) ∧
      w'.loaded = Function.update w.loaded i true := by
  simp only [answeringStep, worldStep] at hs
  split at hs
  · obtain rfl := Option.some.inj hs
    have hround : ∀ j, ((w.env.modify i (J.setInputs i scratch)) j).round = (w.env j).round :=
      Env.modify_congr RankEnv.round rfl
    exact ⟨h.congr rfl hround, rfl, hround, rfl⟩
  · cases hs

/-- Step lemma: `ffschedule_post`. -/
theorem postStep (hs : answeringStep F J cap sync w (.proc i .post) = some w') :
    ∃ hi : i < J.csize, s i = none ∧ w.loaded i = true ∧ (w.env i).round = 0 ∧
      HeldMoved hB lost s i (lost i) (some (hB.graph hi).start) w w' ∧
      (w'.env i).round = 1 ∧
      (w'.procs i).frames.length = (w.procs i).frames.length + 1 := by
  simp only [answeringStep, worldStep] at hs
  split at hs
  · next hc =>
      obtain ⟨hi, hloaded, hround⟩ := hc
      obtain ⟨⟨env', p'⟩, hp, rfl⟩ := Option.map_eq_some_iff.mp hs
      obtain ⟨hnone, hheld, hframes⟩ := (h i hi).held.postStep (hB.wired hi) rfl hp
      obtain ⟨_, _, henv, _⟩ := ffschedulePost_eq_some hp
      have hcheck : ∀ j, (env' j).round = ((w.env.modify i RankEnv.enterRound) j).round := by
        intro j
        rw [henv]
        split
        · exact postCallback_round _ j
        · rfl
      have hzero : (w.env i).round = 0 := by omega
      have hone : (env' i).round = 1 := by
        rw [hcheck i, Env.modify_self]
        simp only [RankEnv.enterRound, hzero]
      refine ⟨hi, hnone, hloaded, hzero, h.moved hi (fun j hj => ⟨?_, ?_, ?_⟩) ?_, hone, ?_⟩
      · simp [hj]
      · simp [hj]
      · rw [hcheck j, Env.modify_of_ne hj]
      · refine ⟨?_, hone.le, fun _ => ?_⟩
        · simpa using hheld
        · simp only [hone, Nat.lt_one_iff]
      · simpa using hframes
  · cases hs

/-- Step lemma: a frame of a cascade. -/
theorem frameStep {t : Thread}
    (hs : answeringStep F J cap sync w (.proc i (.frame t)) = some w') :
    ∃ hi : i < J.csize, ∃ r, r.isSome = (s i).isSome ∧
      HeldMoved hB lost s i
        (lostBy (J.answeringImpl F cap sync i) t w.env (w.procs i) ++ lost i) r w w' ∧
      (w'.env i).round = (w.env i).round ∧ w'.loaded = w.loaded ∧
      heldLoad (hB.graph hi) (w'.procs i) r < heldLoad (hB.graph hi) (w.procs i) (s i) := by
  simp only [answeringStep] at hs
  split at hs
  · next hi =>
      obtain ⟨⟨env', p'⟩, hp, rfl⟩ := Option.map_eq_some_iff.mp hs
      have hround := frameStep_answering_round implPost_round hp
      obtain ⟨r, hsome, hheld, hlt⟩ := (h i hi).held.frameStep (hB.wired hi) hp
      refine ⟨hi, r, hsome, h.moved hi (fun j hj => ⟨?_, rfl, hround j⟩) ?_, hround i, rfl, ?_⟩
      · simp [hj]
      · refine ⟨?_, ?_, fun hr => ?_⟩
        · simpa using hheld
        · rw [hround i]
          exact (h i hi).round_le
        · rw [hround i]
          exact (h i hi).round_pos (hsome ▸ hr)
      · simpa only [Function.update_self] using hlt
  · cases hs

/-- Step lemma: the progress thread finds a request completed. -/
theorem progressStep {x : Nat}
    (hs : answeringStep F J cap sync w (.proc i (.progress x)) = some w') :
    ∃ hi : i < J.csize, ∃ r, r.isSome = (s i).isSome ∧
      HeldMoved hB lost s i (lost i) r w w' ∧
      (w'.env i).round = (w.env i).round ∧ w'.loaded = w.loaded ∧
      heldLoad (hB.graph hi) (w'.procs i) r < heldLoad (hB.graph hi) (w.procs i) (s i) := by
  simp only [answeringStep, worldStep, procStep] at hs
  split at hs
  · next hi =>
      obtain ⟨⟨env', p'⟩, hp, rfl⟩ := Option.map_eq_some_iff.mp hs
      obtain ⟨r, hsome, hheld, hlt⟩ := (h i hi).held.progressStep hp
      have hround := test_round J.ops sync (J.build cap i).1.state i x w.env
        (progressStep_test hp)
      refine ⟨hi, r, hsome, h.moved hi (fun j hj => ⟨?_, rfl, hround j⟩) ?_, hround i, rfl, ?_⟩
      · simp [hj]
      · refine ⟨?_, ?_, fun hr => ?_⟩
        · simpa using hheld
        · rw [hround i]
          exact (h i hi).round_le
        · rw [hround i]
          exact (h i hi).round_pos (hsome ▸ hr)
      · simpa only [Function.update_self] using hlt
  · cases hs

/-- Step lemma: `ffschedule_wait` returns. -/
theorem waitStep (hs : answeringStep F J cap sync w (.proc i .wait) = some w') :
    HeldMoved hB lost s i (lost i) none w w' := by
  simp only [answeringStep, worldStep, procStep] at hs
  split at hs
  · next hi =>
      obtain ⟨⟨env', p'⟩, hp, rfl⟩ := Option.map_eq_some_iff.mp hs
      obtain ⟨p'', hw, heq⟩ := Option.map_eq_some_iff.mp hp
      obtain ⟨rfl, rfl⟩ := Prod.mk.inj heq
      obtain ⟨_, _, hheld⟩ := (h i hi).held.waitStep (hB.wired hi) (hB.built hi).end_eq hw
      refine h.moved hi (fun j hj => ⟨?_, rfl, rfl⟩) ⟨?_, (h i hi).round_le, fun hr => ?_⟩
      · simp [hj]
      · simpa using hheld
      · cases hr
  · cases hs

/-- Step lemma: every step keeps the invariant. -/
theorem step {act : WorldAct α} (hs : answeringStep F J cap sync w act = some w') :
    ∃ lost' s', HeldInv hB w' lost' s' := by
  cases act with
  | set i scratch => exact ⟨_, _, (h.setStep hs).1⟩
  | read i j k =>
      obtain rfl := Option.some.inj hs
      exact ⟨lost, s, h.congr rfl fun l => (readSend_rank i j J.tag k w.env l).2.2⟩
  | deliver i j k =>
      obtain rfl := Option.some.inj hs
      exact ⟨lost, s, h.congr rfl fun l => (deliver_rank i j J.tag k w.env l).2⟩
  | proc i act =>
      cases act with
      | post =>
          obtain ⟨_, _, _, _, hm, _⟩ := h.postStep hs
          exact ⟨_, _, hm.inv⟩
      | wait => exact ⟨_, _, (h.waitStep hs).inv⟩
      | frame t =>
          obtain ⟨_, _, _, hm, _⟩ := h.frameStep hs
          exact ⟨_, _, hm.inv⟩
      | progress x =>
          obtain ⟨_, _, _, hm, _⟩ := h.progressStep hs
          exact ⟨_, _, hm.inv⟩

end HeldInv

/-- Run lemma. -/
theorem heldInv_of_reachable (hB : J.Builds cap)
    (hw : Reachable (answeringStep F J cap sync) (J.initial cap) w) :
    ∃ lost s, HeldInv hB w lost s :=
  hw.induction (fun w => ∃ lost s, HeldInv hB w lost s) ⟨_, _, heldInv_initial hB⟩
    (fun _ _ _ hinv hs => by
      obtain ⟨lost, s, h⟩ := hinv
      exact h.step hs)

end Lost

/-! ### The steps come to an end -/

section Settle

/-- What rank `i` still has to do by itself. -/
def heldToDo (hB : J.Builds cap) {i : Nat} (hi : i < J.csize) (p : Proc) (round : Nat)
    (loaded : Bool) (r : Option (Progress Nat)) : Nat :=
  heldLoad (hB.graph hi) p r +
    if round = 0 then 2 * (hB.graph hi).work (hB.graph hi).start + (if loaded then 2 else 3)
    else 0

theorem rank_lt (J : Ranks α) (i : Fin J.csize) : (i : Nat) < J.csize := i.isLt

/-- What all ranks together still have to do. -/
def heldTotal (hB : J.Builds cap) (w : World α) (s : Nat → Option (Progress Nat)) : Nat :=
  ∑ i : Fin J.csize,
    heldToDo hB (J.rank_lt i) (w.procs i) (w.env i).round (w.loaded i) (s i)

variable {hB : J.Builds cap} {lost : Nat → List Nat} {s : Nat → Option (Progress Nat)}

theorem heldTotal_lt (hi : i < J.csize) {s' : Nat → Option (Progress Nat)}
    (hne : ∀ j, j ≠ i → w'.procs j = w.procs j ∧ w'.loaded j = w.loaded j ∧
      (w'.env j).round = (w.env j).round ∧ s' j = s j)
    (hlt : heldToDo hB hi (w'.procs i) (w'.env i).round (w'.loaded i) (s' i) <
      heldToDo hB hi (w.procs i) (w.env i).round (w.loaded i) (s i)) :
    heldTotal hB w' s' < heldTotal hB w s := by
  refine Finset.sum_lt_sum (fun j _ => ?_) ⟨⟨i, hi⟩, Finset.mem_univ _, hlt⟩
  obtain ⟨j, hj⟩ := j
  by_cases hji : j = i
  · subst hji
    exact hlt.le
  · obtain ⟨h1, h2, h3, h4⟩ := hne j hji
    exact le_of_eq (by simp only [h1, h2, h3, h4])

theorem HeldMoved.total_lt {l : List Nat} {r : Option (Progress Nat)}
    (hm : HeldMoved hB lost s i l r w w') (hi : i < J.csize)
    (hlt : heldToDo hB hi (w'.procs i) (w'.env i).round (w'.loaded i) r <
      heldToDo hB hi (w.procs i) (w.env i).round (w.loaded i) (s i)) :
    heldTotal hB w' (Function.update s i r) < heldTotal hB w s :=
  heldTotal_lt hi (fun j hj => ⟨hm.procs j hj, hm.loaded j hj, hm.round j hj,
    Function.update_of_ne hj _ _⟩) (by rwa [Function.update_self])

/-- What has been lost stays lost, and ranks that have not returned do not. -/
structure Later (lost lost' : Nat → List Nat) (w w' : World α)
    (s s' : Nat → Option (Progress Nat)) : Prop where
  lost_sub : ∀ j, lost j ⊆ lost' j
  started : ∀ j, (w.env j).round = 0 ∨ (s j).isSome = true →
    (w'.env j).round = 0 ∨ (s' j).isSome = true

theorem Later.refl (lost : Nat → List Nat) (w : World α)
    (s : Nat → Option (Progress Nat)) : Later lost lost w w s s :=
  ⟨fun _ => List.Subset.refl _, fun _ h => h⟩

theorem Later.trans {lost₁ lost₂ lost₃ : Nat → List Nat} {w₁ w₂ w₃ : World α}
    {s₁ s₂ s₃ : Nat → Option (Progress Nat)} (h : Later lost₁ lost₂ w₁ w₂ s₁ s₂)
    (h' : Later lost₂ lost₃ w₂ w₃ s₂ s₃) : Later lost₁ lost₃ w₁ w₃ s₁ s₃ :=
  ⟨fun j => List.Subset.trans (h.lost_sub j) (h'.lost_sub j),
    fun j hj => h'.started j (h.started j hj)⟩

theorem HeldMoved.later {l : List Nat} {r : Option (Progress Nat)}
    (hm : HeldMoved hB lost s i l r w w') (hsub : lost i ⊆ l)
    (hstart : (w.env i).round = 0 ∨ (s i).isSome = true →
      (w'.env i).round = 0 ∨ r.isSome = true) :
    Later lost (Function.update lost i l) w w' s (Function.update s i r) := by
  refine ⟨fun j => ?_, fun j hj => ?_⟩
  · by_cases hji : j = i
    · subst hji
      rwa [Function.update_self]
    · rw [Function.update_of_ne hji]
      exact List.Subset.refl _
  · by_cases hji : j = i
    · subst hji
      rw [Function.update_self]
      exact hstart hj
    · rwa [Function.update_of_ne hji, hm.round j hji]

theorem answeringStep_frame_isSome (F : Nat → OpAnswers α) (cap : Nat) (sync : Bool)
    {t : Thread} (hi : i < J.csize)
    (ht : (w.procs i).stack t ≠ []) :
    (answeringStep F J cap sync w (.proc i (.frame t))).isSome = true := by
  obtain ⟨f, fs, hs⟩ := List.exists_cons_of_ne_nil ht
  simp [answeringStep, Fflib.frameStep, hi, hs]

/-- A rank that has not posted can set its inputs, or post. -/
theorem HeldInv.exists_enter (F : Nat → OpAnswers α) (sync : Bool) (h : HeldInv hB w lost s)
    (hi : i < J.csize)
    (hround : (w.env i).round = 0) (hf : (w.procs i).frames = []) :
    ∃ act w' s', answeringStep F J cap sync w act = some w' ∧ HeldInv hB w' lost s' ∧
      Later lost lost w w' s s' ∧ heldTotal hB w' s' < heldTotal hB w s := by
  have hnone : s i = none := by
    cases hs : s i with
    | none => rfl
    | some a =>
        have hpos := (h i hi).round_pos (by rw [hs]; rfl)
        omega
  have hrun : (w.procs i).running = false := by
    rw [(h i hi).held.running_eq, hnone]
    rfl
  have huser : (w.procs i).user = [] := (List.append_eq_nil_iff.mp hf).1
  cases hloaded : w.loaded i with
  | false =>
      obtain ⟨w', hw'⟩ : ∃ w', answeringStep F J cap sync w (.set i (J.mem₀ 0 0)) = some w' := by
        simp [answeringStep, worldStep, hi, hrun, huser]
      obtain ⟨hinv, hprocs, hrounds, hloads⟩ := h.setStep hw'
      refine ⟨_, w', s, hw', hinv, ⟨fun _ => List.Subset.refl _, fun j hj => ?_⟩,
        heldTotal_lt hi (fun j hj => ⟨?_, ?_, hrounds j, rfl⟩) ?_⟩
      · rwa [hrounds]
      · rw [hprocs]
      · rw [hloads, Function.update_of_ne hj]
      · simp only [heldToDo, hprocs, hrounds, hloads, Function.update_self, hround, hloaded]
        simp
  | true =>
      obtain ⟨w', hw'⟩ : ∃ w', answeringStep F J cap sync w (.proc i .post) = some w' := by
        simp [answeringStep, worldStep, hi, hloaded, hround, ffschedulePost, hrun, huser]
      obtain ⟨_, _, _, _, hm, hone, hframes⟩ := h.postStep hw'
      have hl : Function.update lost i (lost i) = lost := Function.update_eq_self i lost
      refine ⟨_, w', _, hw', hl ▸ hm.inv, ?_, hm.total_lt hi ?_⟩
      · have hlater := hm.later (List.Subset.refl _) fun _ => Or.inr rfl
        rwa [hl] at hlater
      · simp only [heldToDo, hone, hround, hloaded, hnone, heldLoad, load, hframes]
        simp only [one_ne_zero, if_false, if_true]
        omega

/-- A step of a cascade or of a request. -/
theorem HeldInv.exists_move (h : HeldInv hB w lost s) (hm : CanMove F J cap sync w) :
    ∃ act w' lost' s', answeringStep F J cap sync w act = some w' ∧ HeldInv hB w' lost' s' ∧
      Later lost lost' w w' s s' ∧ heldTotal hB w' s' < heldTotal hB w s := by
  obtain ⟨i, t, hi, hstep⟩ | ⟨i, x, hi, _, _, hstep⟩ := hm
  · obtain ⟨w', hw'⟩ := Option.isSome_iff_exists.mp hstep
    obtain ⟨_, r, hsome, hm, hround, hloaded, hlt⟩ := h.frameStep hw'
    refine ⟨_, w', _, _, hw', hm.inv,
      hm.later (List.subset_append_right _ _) (fun hj => ?_), hm.total_lt hi ?_⟩
    · rwa [hround, hsome]
    · simp only [heldToDo, hround, hloaded]
      omega
  · obtain ⟨w', hw'⟩ := Option.isSome_iff_exists.mp hstep
    obtain ⟨_, r, hsome, hm, hround, hloaded, hlt⟩ := h.progressStep hw'
    refine ⟨_, w', _, _, hw', hm.inv, hm.later (List.Subset.refl _) (fun hj => ?_),
      hm.total_lt hi ?_⟩
    · rwa [hround, hsome]
    · simp only [heldToDo, hround, hloaded]
      omega

/-- From every state the ranks can come to one in which all have posted and nothing moves. -/
theorem HeldInv.exists_settled (F : Nat → OpAnswers α) (sync : Bool)
    (h : HeldInv hB w lost s) :
    ∃ as w' lost' s', run (answeringStep F J cap sync) w as = some w' ∧
      HeldInv hB w' lost' s' ∧ Later lost lost' w w' s s' ∧
      (∀ i, i < J.csize → (w'.env i).round = 1) ∧ ¬ CanMove F J cap sync w' := by
  have hdown : ∀ n w₁, (∃ lost₁ s₁, HeldInv hB w₁ lost₁ s₁ ∧ Later lost lost₁ w w₁ s s₁ ∧
        heldTotal hB w₁ s₁ = n) →
      ((∀ i, i < J.csize → (w₁.env i).round = 1) ∧ ¬ CanMove F J cap sync w₁) ∨
      ∃ act w₂ n', answeringStep F J cap sync w₁ act = some w₂ ∧ n' < n ∧
        ∃ lost₂ s₂, HeldInv hB w₂ lost₂ s₂ ∧ Later lost lost₂ w w₂ s s₂ ∧
          heldTotal hB w₂ s₂ = n' := by
    rintro n w₁ ⟨lost₁, s₁, h₁, hlater, rfl⟩
    by_cases hmove : CanMove F J cap sync w₁
    · obtain ⟨act, w₂, lost₂, s₂, hs, h₂, hl, hlt⟩ := h₁.exists_move hmove
      exact Or.inr ⟨act, w₂, _, hs, hlt, lost₂, s₂, h₂, hlater.trans hl, rfl⟩
    · by_cases hall : ∀ i, i < J.csize → (w₁.env i).round = 1
      · exact Or.inl ⟨hall, hmove⟩
      · right
        simp only [not_forall] at hall
        obtain ⟨i, hi, hne⟩ := hall
        have hle := (h₁ i hi).round_le
        have hf : (w₁.procs i).frames = [] := by
          by_contra hframes
          obtain ⟨t, ht⟩ := Proc.exists_stack hframes
          exact hmove (Or.inl ⟨i, t, hi, answeringStep_frame_isSome F cap sync hi ht⟩)
        obtain ⟨act, w₂, s₂, hs, h₂, hl, hlt⟩ :=
          h₁.exists_enter F sync hi (by omega) hf
        exact ⟨act, w₂, _, hs, hlt, lost₁, s₂, h₂, hlater.trans hl, rfl⟩
  obtain ⟨as, w', _, hrun, ⟨lost', s', h', hlater, _⟩, hall, hmove⟩ :=
    exists_run_of_measure hdown _ w ⟨lost, s, h, Later.refl lost w s, rfl⟩
  exact ⟨as, w', lost', s', hrun, h', hlater, hall, hmove⟩

/-- A rank that has lost an operation is stuck in the end. -/
theorem exists_stuck_of_lost (F : Nat → OpAnswers α) (sync : Bool) (h : HeldInv hB w lost s)
    (hi : i < J.csize) {x : Nat} (hx : x ∈ lost i) :
    ∃ as w', run (answeringStep F J cap sync) w as = some w' ∧ J.Waiting cap w' ∧
      ¬ CanMove F J cap sync w' := by
  obtain ⟨as, w', lost', s', hrun, h', hlater, hall, hmove⟩ :=
    h.exists_settled F sync
  obtain ⟨hrunning, hcompleted⟩ :=
    (h' i hi).held.end_of_mem (hB.wired hi) (hlater.lost_sub i hx)
  refine ⟨as, w', hrun, ⟨hall, i, hi, hrunning, ?_⟩, hmove⟩
  rw [(hB.built hi).end_eq]
  exact hcompleted

end Settle

/-! ### The result -/

section Law

/-- The computations of a schedule are the move and the accumulations. -/
theorem Builds.comp_operator (hB : J.Builds cap) (hi : i < J.csize) {v b1 b2 b3 : Nat}
    {operator : Int} (hv : v ∈ (hB.graph hi).verts)
    (hb : ((J.build cap i).2.ops v).body = .comp b1 b2 b3 operator) :
    operator = J.operator ∨ operator = ffIdentity := by
  cases hB.role hi hv with
  | begin hvb =>
      rw [hvb, hB.body_begin hi] at hb
      cases hb
  | «end» hve =>
      rw [hve, hB.body_end hi] at hb
      cases hb
  | send k b hk hvk =>
      rw [hvk, hB.body_send hi hk] at hb
      cases hb
  | recv k b hk hvk =>
      rw [hvk, hB.body_recv hi hk] at hb
      cases hb
  | acc t ht hvt =>
      cases t with
      | zero =>
          rw [hvt, hB.body_move hi] at hb
          split at hb
          · cases hb
          · cases hb
            exact Or.inr rfl
      | succ k =>
          rw [hvt, hB.body_comp hi (List.getElem?_eq_getElem ht)] at hb
          cases hb
          exact Or.inl rfl

/-- The operators succeed in every run if they do whenever they are called. -/
theorem runMeets_of_succeeds (hB : J.Builds cap)
    (h : ∀ i c, c.operator = J.operator → (F i).Succeeds c) (as : List (WorldAct α)) :
    RunMeets (answeringStep F J cap sync) (J.OperatorsSucceed F) (J.initial cap) as := by
  refine runMeets_of_invariant (I := fun w => ∃ lost s, HeldInv hB w lost s)
    (fun w act w' hinv hs => ?_) (fun w act hinv => ?_) as _ ⟨_, _, heldInv_initial hB⟩
  · obtain ⟨lost, s, hinv⟩ := hinv
    exact hinv.step hs
  · obtain ⟨lost, s, hinv⟩ := hinv
    cases act with
    | set i scratch => trivial
    | read i j k => trivial
    | deliver i j k => trivial
    | proc i act =>
        intro hi t x fs b1 b2 b3 operator _ hstack hbody
        have hheld := (hinv i hi).held
        rw [(hheld.same x).body_eq] at hbody
        rcases hB.comp_operator hi (hheld.mem_of_post hstack) hbody with rfl | rfl
        · exact h i _ rfl
        · exact (F i).succeeds_identity rfl

/-- An accumulation of rank `i` has not been posted in this round. -/
def NotPosted (i k : Nat) (w : World α) : Prop :=
  .posting (J.accOp i (k + 1)) ∉ (w.procs i).log

/-- A step of a rank is one of its process. -/
theorem answeringStep_proc {pact : ProcAct}
    (hs : answeringStep F J cap sync w (.proc i pact) = some w') :
    i < J.csize ∧ ∃ (impl : Impl (Env α)) (env env' : Env α) (p' : Proc),
      procStep impl (J.build cap i).1 env (w.procs i) pact = some (env', p') ∧
        w'.procs = Function.update w.procs i p' := by
  cases pact with
  | post =>
      simp only [answeringStep, worldStep] at hs
      split at hs
      · next hc =>
          obtain ⟨⟨env', p'⟩, hp, rfl⟩ := Option.map_eq_some_iff.mp hs
          exact ⟨hc.1, J.impl cap sync i, _, env', p', hp, rfl⟩
      · cases hs
  | frame t =>
      simp only [answeringStep] at hs
      split at hs
      · next hi =>
          obtain ⟨⟨env', p'⟩, hp, rfl⟩ := Option.map_eq_some_iff.mp hs
          exact ⟨hi, J.answeringImpl F cap sync i, _, env', p', hp, rfl⟩
      · cases hs
  | wait =>
      simp only [answeringStep, worldStep] at hs
      split at hs
      · next hi =>
          obtain ⟨⟨env', p'⟩, hp, rfl⟩ := Option.map_eq_some_iff.mp hs
          exact ⟨hi, J.impl cap sync i, _, env', p', hp, rfl⟩
      · cases hs
  | progress x =>
      simp only [answeringStep, worldStep] at hs
      split at hs
      · next hi =>
          obtain ⟨⟨env', p'⟩, hp, rfl⟩ := Option.map_eq_some_iff.mp hs
          exact ⟨hi, J.impl cap sync i, _, env', p', hp, rfl⟩
      · cases hs

/-- A rank changes by steps of its own. -/
theorem answeringStep_procs {act : WorldAct α}
    (hs : answeringStep F J cap sync w act = some w') (i : Nat) :
    w'.procs i = w.procs i ∨ ∃ (pact : ProcAct) (impl : Impl (Env α)) (env env' : Env α),
      i < J.csize ∧ act = .proc i pact ∧
        procStep impl (J.build cap i).1 env (w.procs i) pact = some (env', w'.procs i) := by
  cases act with
  | set j scratch =>
      simp only [answeringStep, worldStep] at hs
      split at hs
      · obtain rfl := Option.some.inj hs
        exact Or.inl rfl
      · cases hs
  | read j l m =>
      obtain rfl := Option.some.inj hs
      exact Or.inl rfl
  | deliver j l m =>
      obtain rfl := Option.some.inj hs
      exact Or.inl rfl
  | proc j pact =>
      obtain ⟨hj, impl, env, env', p', hp, hprocs⟩ := answeringStep_proc hs
      rw [hprocs]
      by_cases hij : i = j
      · subst hij
        rw [Function.update_self]
        exact Or.inr ⟨pact, impl, env, env', hj, rfl, hp⟩
      · exact Or.inl (Function.update_of_ne hij _ _)

/-- While no operator fails, no computation with an operator that always fails is posted. -/
theorem notPosted_step (hB : J.Builds cap) {k b : Nat} (hk : (J.bits i)[k]? = some b)
    (hfail : ∀ c, c.operator = J.operator → ¬ (F i).Succeeds c) {lost : Nat → List Nat}
    {s : Nat → Option (Progress Nat)} {act : WorldAct α} (h : HeldInv hB w lost s)
    (hnot : J.NotPosted i k w) (hC : J.OperatorsSucceed F w act)
    (hs : answeringStep F J cap sync w act = some w') : J.NotPosted i k w' := by
  rcases answeringStep_procs hs i with hprocs | ⟨pact, impl, env, env', hi, rfl, hp⟩
  · rwa [NotPosted, hprocs]
  · intro hmem
    rcases procStep_posting hp hmem with hold | ⟨t, fs, rfl, hstack⟩
    · exact hnot hold
    · have hbody := ((h i hi).held.same (J.accOp i (k + 1))).body_eq
      rw [hB.body_comp hi hk] at hbody
      exact hfail _ rfl (hC hi t _ fs _ _ _ _ rfl hstack hbody)

/-- With two ranks or more, an operator that always fails does so in some run. -/
theorem exists_not_runMeets (F : Nat → OpAnswers α) (sync : Bool) (hB : J.Builds cap)
    (hcsize : 1 < J.csize) (hfail : ∀ c, c.operator = J.operator → ¬ (F 0).Succeeds c) :
    ∃ as, ¬ RunMeets (answeringStep F J cap sync) (J.OperatorsSucceed F) (J.initial cap) as := by
  by_contra hall
  simp only [not_exists, not_not] at hall
  -- the ranks post, and go on until nothing moves: then they have completed
  obtain ⟨as, w, lost, s, hrun, hinv, hlater, hround, hmove⟩ :=
    (heldInv_initial hB).exists_settled F sync
  have hstarted : (s 0).isSome = true := by
    refine (hlater.started 0 (Or.inl rfl)).resolve_left ?_
    rw [hround 0 J.csize_pos]
    exact one_ne_zero
  obtain ⟨a, hs⟩ := Option.isSome_iff_exists.mp hstarted
  have hrunning := (hinv 0 J.csize_pos).held
  rw [hs] at hrunning
  have hdone : (a.phase ((J.lib₀ 0).opid + 1)).isDone = true := by
    by_contra hne
    refine hmove (canMove_of_run hB as (hall as) hrun ⟨hround, 0, J.csize_pos, ?_, ?_⟩)
    · exact hrunning.running
    · have hflag := hrunning.flag
      rw [if_neg hne] at hflag
      rw [(hB.built J.csize_pos).end_eq]
      exact hflag
  -- so rank `0` has posted the computation of its first iteration
  have hmem : 0 ∈ J.bits 0 := by
    have hmaxr : 0 < J.maxr := Nat.clog_pos (by omega) hcsize
    exact J.mem_bits.mpr ⟨hmaxr, by simpa using hcsize⟩
  obtain ⟨k, hk⟩ := List.mem_iff_getElem?.mp hmem
  have hkr := lt_rounds hk
  have hvert : J.accOp 0 (k + 1) ∈ (hB.graph J.csize_pos).verts := by
    rw [hB.mem_verts, accOp]
    omega
  have hover : a.phase (J.accOp 0 (k + 1)) = .cascading _ :=
    Running.all_done hrunning (hB.wired J.csize_pos) hdone hvert
  have hposted : .posting (J.accOp 0 (k + 1)) ∈ (w.procs 0).log :=
    hrunning.log.mem_posting (by rw [hover]; rfl)
  have hnot := run_induction_of_meets
    (P := fun w => (∃ lost s, HeldInv hB w lost s) ∧ J.NotPosted 0 k w)
    (fun w act w' hw hC hs => by
      obtain ⟨⟨lost, s, h⟩, hn⟩ := hw
      exact ⟨h.step hs, notPosted_step hB hk hfail h hn hC hs⟩) as _ w
    ⟨⟨_, _, heldInv_initial hB⟩, by simp [NotPosted, initial, Proc.init]⟩ (hall as) hrun
  exact hnot.2 hposted

/-- A step in which an operator fails leads to a state that is stuck. -/
theorem exists_stuck_of_not_succeeds (hB : J.Builds cap)
    (hw : Reachable (answeringStep F J cap sync) (J.initial cap) w) {act : WorldAct α}
    (hC : ¬ J.OperatorsSucceed F w act) :
    ∃ w', Reachable (answeringStep F J cap sync) (J.initial cap) w' ∧ J.Waiting cap w' ∧
      ¬ CanMove F J cap sync w' := by
  obtain ⟨lost, s, h⟩ := heldInv_of_reachable hB hw
  cases act with
  | set i scratch => exact absurd trivial hC
  | read i j k => exact absurd trivial hC
  | deliver i j k => exact absurd trivial hC
  | proc i act =>
      simp only [OperatorsSucceed, Classical.not_imp] at hC
      obtain ⟨hi, hfail⟩ := hC
      obtain ⟨t, x, rfl, hstack, hlost⟩ :=
        lostBy_of_not_opSucceeds (J.impl cap sync i) hfail
      obtain ⟨w₁, hs⟩ := Option.isSome_iff_exists.mp
        (answeringStep_frame_isSome F cap sync hi hstack)
      obtain ⟨_, r, _, hm, _⟩ := h.frameStep hs
      have hx : x ∈ Function.update lost i
          (lostBy (J.answeringImpl F cap sync i) t w.env (w.procs i) ++ lost i) i := by
        rw [Function.update_self, answeringImpl, hlost]
        exact List.mem_cons_self
      obtain ⟨as, w', hrun, hwait, hmove⟩ :=
        exists_stuck_of_lost F sync hm.inv hi hx
      obtain ⟨bs, hbs⟩ := hw.tail hs
      exact ⟨w', ⟨bs ++ as, run_append_eq_some.mpr ⟨w₁, hbs, hrun⟩⟩, hwait, hmove⟩

/-- **Absence of deadlock.**  Up to `2 ^ 30` ranks build their schedules, and no run in which no
operator answers with an error gets stuck: while some `end_op` has not completed, a cascade
can go on, or else a posted send or receive can complete; also when a send may complete only
after its matching receive has been posted (`sync`).  And no run at all gets stuck exactly if
there are so few ranks and no run calls an operator that fails. -/
theorem allreduce_moves_iff (hB : J.Builds cap) (hint : J.csize < 2 ^ 31)
    (F : Nat → OpAnswers α) (sync : Bool) :
    (J.csize ≤ 2 ^ 30 → J.BuildsOnInts cap ∧ ∀ as w,
      RunMeets (answeringStep F J cap sync) (J.OperatorsSucceed F) (J.initial cap) as →
      run (answeringStep F J cap sync) (J.initial cap) as = some w →
      J.Waiting cap w → CanMove F J cap sync w) ∧
    (DeadlockFree F J cap sync ↔ J.csize ≤ 2 ^ 30 ∧ ∀ as,
      RunMeets (answeringStep F J cap sync) (J.OperatorsSucceed F) (J.initial cap) as) := by
  refine ⟨fun hle => ⟨(buildsOnInts_iff hB hint).mpr hle, fun as w => canMove_of_run hB as⟩,
    fun hfree => ⟨(buildsOnInts_iff hB hint).mp hfree.built, fun as => ?_⟩, fun hc => ?_⟩
  · by_contra hC
    obtain ⟨w, act, hw, hfail⟩ := exists_reachable_of_not_runMeets hC
    obtain ⟨w', hw', hwait, hmove⟩ := exists_stuck_of_not_succeeds hB hw hfail
    exact hmove (hfree.moves w' hw' hwait)
  · obtain ⟨hle, hall⟩ := hc
    refine ⟨(buildsOnInts_iff hB hint).mpr hle, fun w hw hwait => ?_⟩
    obtain ⟨as, hrun⟩ := hw
    exact canMove_of_run hB as (hall as) hrun hwait

/-- Two ranks with an operator of their own that succeeds. -/
theorem allreduce_moves_iff_two :
    DeadlockFree (fun _ => .always ffSuccess)
      (ofOperator 2 1 (by decide) (fun a b => max a b) (fun i _ _ => i)) 2 true := by
  have hB : (ofOperator 2 1 (by decide) (fun a b => max a b) (fun i _ _ => i)).Builds 2 :=
    (builds_iff _).mpr (by decide)
  refine (allreduce_moves_iff hB (by decide) (fun _ => .always ffSuccess) true).2.mpr
    ⟨by decide, runMeets_of_succeeds hB fun i c hc => ?_⟩
  exact (OpAnswers.always_succeeds_iff hc).mpr (Or.inl rfl)

/-- The same ranks, when the operator answers with an error. -/
theorem allreduce_moves_fails :
    ∃ w, Reachable (answeringStep (fun _ => .always ffInvalidArg)
          (ofOperator 2 1 (by decide) (fun a b => max a b) (fun i _ _ => i)) 2 true)
        ((ofOperator 2 1 (by decide) (fun a b => max a b) (fun i _ _ => i)).initial 2) w ∧
      (ofOperator 2 1 (by decide) (fun a b => max a b) (fun i _ _ => i)).Waiting 2 w ∧
      ¬ CanMove (fun _ => .always ffInvalidArg)
        (ofOperator 2 1 (by decide) (fun a b => max a b) (fun i _ _ => i)) 2 true w := by
  have hB : (ofOperator 2 1 (by decide) (fun a b => max a b) (fun i _ _ => i)).Builds 2 :=
    (builds_iff _).mpr (by decide)
  have hfail : ∀ c : OpCall Nat, c.operator = ffCustom →
      ¬ (OpAnswers.always ffInvalidArg).Succeeds c := by
    intro c hc
    rw [OpAnswers.always_succeeds_iff hc]
    decide
  obtain ⟨as, has⟩ := exists_not_runMeets (fun _ => .always ffInvalidArg) true hB (by decide) hfail
  obtain ⟨w, act, hw, hfail⟩ := exists_reachable_of_not_runMeets has
  exact exists_stuck_of_not_succeeds hB hw hfail

end Law

end Ranks

end Fflib
