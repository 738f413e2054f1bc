import Fflib.NetAnswers
import Fflib.TrackedLaw

/-!
# Tables, and operators that may fail

The processes of `Tracked`, with their table of requests and their ready list, whose
computations answer what their operators do (`trackedAnsweringStep`).

* `trackedAnsweringStep_of_succeeds`: where no operator fails, they take the steps that they
  take without the answers.
* `tracked_finished_iff_acyclic`: a run in which no operator fails goes on until all have
  finished, exactly when the operations do not wait for each other in a circle.
-/

namespace Fflib

open Library

universe u

variable {α : Type u} {n : Nat}

namespace Net

section System

variable (F : Nat → OpAnswers α) (N : Net α n) (sync : Bool) (K : Nat)

/-- One step of the processes with their tables.  The handlers that answer are called by the
frames of the cascades. -/
def trackedAnsweringStep (v : TrackedState α n) : TrackedAct n → Option (TrackedState α n)
  | .proc i (.main (.frame t)) =>
      (trackedProcStep (N.answeringImpl F sync i) (N.sched i) v.env (v.procs i)
        (.main (.frame t))).map fun r =>
          { v with env := r.1, procs := Function.update v.procs i r.2 }
  | act => N.trackedStep sync K v act

/-- The step posts no computation whose operator answers with an error. -/
def TrackedOperatorsSucceed (v : TrackedState α n) : TrackedAct n → Prop
  | .proc i (.main act) => OpSucceeds (F i) (N.ptr i) i v.env (v.procs i).proc act
  | _ => True

/-- No process can take a step, but for progress calls that find nothing. -/
def TrackedAnsweringStuck (v : TrackedState α n) : Prop :=
  ∀ act : TrackedAct n, act.isLocal = true → N.trackedAnsweringStep F sync K v act = none

end System

variable {F : Nat → OpAnswers α} {N : Net α n} {sync : Bool} {K : Nat}
  {v v' : TrackedState α n} {mem : Nat → ArmanEntry}

/-! ### Runs in which no operator fails -/

variable (sync) in
/-- The table does not change what the handlers answer. -/
theorem trackedFrame_of_succeeds {i : Fin n} {t : Thread}
    (h : OpSucceeds (F i) (N.ptr i) i v.env (v.procs i).proc (.frame t)) :
    frameStep (trackedImpl (N.answeringImpl F sync i)) t (v.env, (v.procs i).tracker)
        (v.procs i).proc =
      frameStep (trackedImpl (N.impl sync i)) t (v.env, (v.procs i).tracker)
        (v.procs i).proc := by
  refine frameStep_congr fun x fs hstack => ?_
  have himpl := implPost_answering_of_succeeds (N.impl sync i) h hstack
  rw [implPost_tracked, implPost_tracked, answeringImpl, himpl]

theorem trackedAnsweringStep_of_succeeds {act : TrackedAct n}
    (h : N.TrackedOperatorsSucceed F v act) :
    N.trackedAnsweringStep F sync K v act = N.trackedStep sync K v act := by
  cases act with
  | user i => rfl
  | read i j tag k => rfl
  | deliver i j tag k => rfl
  | proc i act =>
      cases act with
      | report indices => rfl
      | call => rfl
      | advance => rfl
      | main act =>
          cases act with
          | post => rfl
          | wait => rfl
          | progress x => rfl
          | frame t =>
              have hframe := trackedFrame_of_succeeds sync h
              simp only [trackedAnsweringStep, trackedStep, trackedProcStep, procStep, hframe]

/-- What the operators answer does not decide which steps are enabled. -/
theorem trackedAnsweringStep_eq_none_iff {act : TrackedAct n} :
    N.trackedAnsweringStep F sync K v act = none ↔ N.trackedStep sync K v act = none := by
  cases act with
  | user i => exact Iff.rfl
  | read i j tag k => exact Iff.rfl
  | deliver i j tag k => exact Iff.rfl
  | proc i act =>
      cases act with
      | report indices => exact Iff.rfl
      | call => exact Iff.rfl
      | advance => exact Iff.rfl
      | main act =>
          cases act with
          | post => exact Iff.rfl
          | wait => exact Iff.rfl
          | progress x => exact Iff.rfl
          | frame t =>
              cases hstack : (v.procs i).proc.stack t with
              | nil =>
                  simp [trackedAnsweringStep, trackedStep, trackedProcStep, procStep, frameStep,
                    hstack]
              | cons f fs =>
                  simp [trackedAnsweringStep, trackedStep, trackedProcStep, procStep, frameStep,
                    hstack]

theorem trackedAnsweringStuck_iff :
    N.TrackedAnsweringStuck F sync K v ↔ N.TrackedStuck sync K v :=
  forall_congr' fun _ => imp_congr_right fun _ => trackedAnsweringStep_eq_none_iff

/-- A process with its table has lost no operation. -/
theorem TrackedInv.held {s : Fin n → Option (Progress Nat)} {free r : Fin n → List Nat}
    (h : N.TrackedInv K v s free r) (i : Fin n) :
    Held (N.graph i) (N.lib i).ops (N.sched i).endOp ((v.procs i).proc.append (r i)) [] (s i) := by
  cases hs : s i with
  | none => exact ⟨h.net.quiet_of_none hs, rfl⟩
  | some a =>
      rw [Held, Proc.hold_nil]
      exact h.net.running_of_some hs

/-- The operators succeed in every run if they do whenever they are called. -/
theorem tracked_runMeets_of_succeeds (hN : N.Channels) (hfit : N.FitsTable)
    (h : ∀ (i : Fin n) x b1 b2 b3 c, x ∈ (N.graph i).verts →
      N.body i x = .comp b1 b2 b3 c.operator → (F i).Succeeds c) (as : List (TrackedAct n)) :
    RunMeets (N.trackedAnsweringStep F sync K) (N.TrackedOperatorsSucceed F)
      (N.trackedInitial mem) as := by
  have hsucceed : ∀ v act, (∃ s free r, N.TrackedInv K v s free r) →
      N.TrackedOperatorsSucceed F v act := by
    rintro v act ⟨s, free, r, hinv⟩
    cases act with
    | user i => trivial
    | read i j tag k => trivial
    | deliver i j tag k => trivial
    | proc i act =>
        cases act with
        | report indices => trivial
        | call => trivial
        | advance => trivial
        | main act =>
            intro t x fs b1 b2 b3 operator _ hstack hbody
            obtain ⟨fs', hstack'⟩ : ∃ fs', ((v.procs i).proc.append (r i)).stack t =
                .post x :: fs' := by
              cases t with
              | user => exact ⟨fs, hstack⟩
              | progress =>
                  exact ⟨fs ++ (r i).map Frame.complete,
                    congrArg (· ++ (r i).map Frame.complete) hstack⟩
            rw [← Proc.append_ops _ (r i), ((hinv.held i).same x).body_eq] at hbody
            exact h i x b1 b2 b3 _ ((hinv.held i).mem_of_post hstack') hbody
  refine runMeets_of_invariant (I := fun v => ∃ s free r, N.TrackedInv K v s free r)
    (fun v act v' hinv hs => ?_) hsucceed as _ ⟨_, _, _, N.trackedInv_initial K mem⟩
  rw [trackedAnsweringStep_of_succeeds (hsucceed v act hinv)] at hs
  obtain ⟨s, free, r, hinv⟩ := hinv
  obtain ⟨s', free', r', hinv', _⟩ := hinv.step hN hfit hs
  exact ⟨s', free', r', hinv'⟩

/-- **Deadlock freedom**: with its requests in the tables and its completed operations on the
ready lists, a program whose operations do not wait for each other in a circle finishes in
every run in which no operator fails.  If no run has an operator that fails, it finishes,
whatever happens, only then. -/
theorem tracked_finished_iff_acyclic (N : Net α n) (hP : N.Paired) (hfit : N.FitsTable)
    (F : Nat → OpAnswers α) {sync : Bool} {K : Nat} (hK : 0 < K) (mem : Nat → ArmanEntry) :
    (N.Acyclic sync → ∀ as v,
      RunMeets (N.trackedAnsweringStep F sync K) (N.TrackedOperatorsSucceed F)
        (N.trackedInitial mem) as →
      run (N.trackedAnsweringStep F sync K) (N.trackedInitial mem) as = some v →
      N.TrackedAnsweringStuck F sync K v → v.Finished K) ∧
    ((∀ as, RunMeets (N.trackedAnsweringStep F sync K) (N.TrackedOperatorsSucceed F)
        (N.trackedInitial mem) as) →
      ((∀ v, Reachable (N.trackedAnsweringStep F sync K) (N.trackedInitial mem) v →
        N.TrackedAnsweringStuck F sync K v → v.Finished K) ↔ N.Acyclic sync)) := by
  have hfinish : N.Acyclic sync → ∀ as v,
      RunMeets (N.trackedAnsweringStep F sync K) (N.TrackedOperatorsSucceed F)
        (N.trackedInitial mem) as →
      run (N.trackedAnsweringStep F sync K) (N.trackedInitial mem) as = some v →
      N.TrackedAnsweringStuck F sync K v → v.Finished K :=
    fun hacyc as v hC hr hst => finished_of_tracked_stuck hP hfit hacyc
      (reachable_of_meets (fun _ _ => trackedAnsweringStep_of_succeeds) hC hr)
      (trackedAnsweringStuck_iff.mp hst)
  refine ⟨hfinish, fun hall => ⟨fun h => ?_, fun hacyc v hv hst => ?_⟩⟩
  · refine (tracked_stuck_finished_iff_acyclic N hP hfit hK mem).mp fun v hv hst => ?_
    exact h v (hv.of_all_meet (fun _ _ => trackedAnsweringStep_of_succeeds) hall)
      (trackedAnsweringStuck_iff.mpr hst)
  · obtain ⟨as, hr⟩ := hv
    exact hfinish hacyc as v (hall as) hr hst

theorem reduceNet_fitsTable (f : Nat → Nat → Nat) : (reduceNet f).FitsTable := by
  intro i
  have hnone : (reduceNet f).requests i = ∅ := by
    refine Finset.filter_eq_empty_iff.mpr fun x hx => ?_
    obtain rfl : i = 0 := Subsingleton.elim _ _
    show ¬ ((reduceNet f).body 0 x).isRequest = true
    rcases reduceNet_body f hx with h | h
    · rw [h]
      decide
    · rw [h]
      decide
  rw [hnone]
  exact Nat.zero_le _

/-- The process with one computation, whose operator succeeds. -/
theorem tracked_finished_iff_acyclic_reduce :
    (reduceNet max).Acyclic false ∧
    ∀ v, Reachable ((reduceNet max).trackedAnsweringStep (fun _ => .always ffSuccess) false 1)
        ((reduceNet max).trackedInitial blankEntries) v →
      (reduceNet max).TrackedAnsweringStuck (fun _ => .always ffSuccess) false 1 v →
        v.Finished 1 := by
  have hP := reduceNet_paired max
  have hfit := reduceNet_fitsTable max
  have hacyc := reduceNet_acyclic max false
  refine ⟨hacyc, ((tracked_finished_iff_acyclic (reduceNet max) hP hfit
    (fun _ => .always ffSuccess) (by decide) blankEntries).2 fun as => ?_).mpr hacyc⟩
  refine tracked_runMeets_of_succeeds hP.toChannels hfit (fun i x b1 b2 b3 c hx hb => ?_) as
  obtain rfl : i = 0 := Subsingleton.elim _ _
  rcases reduceNet_body max hx with h | h
  · cases h.symm.trans hb
  · have hop : ffCustom = c.operator := (FfopBody.comp.inj (h.symm.trans hb)).2.2.2
    exact (OpAnswers.always_succeeds_iff hop.symm).mpr (Or.inl rfl)

end Net

end Fflib
