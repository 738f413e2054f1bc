import Fflib.NetLaw
import Fflib.TrackedRefine

/-!
# What holds of processes with their tables

The laws of `NetLaw`, for processes whose progress thread goes through the table of requests
and the ready list, when the requests of a schedule fit into the table and operators succeed:

* `tracked_stuck_finished_iff_acyclic`: they finish, whatever happens, exactly when their
  operations do not wait for each other in a circle.
* `tracked_local_steps_le` bounds the number of their steps.
* `tracked_memory_eq`: without races, what a rank finds in its memory between two rounds is
  what it finds there when its progress thread may complete any pending operation.
-/

namespace Fflib

open Library

universe u

variable {α : Type u} {n : Nat}

/-- All ranks have returned from their last round. -/
def TrackedState.Finished (K : Nat) (v : TrackedState α n) : Prop :=
  ∀ i : Fin n, (v.env i).round = K ∧ (v.procs i).proc.running = false

namespace Net

variable {N : Net α n} {K : Nat} {sync : Bool} {v : TrackedState α n}
  {s : Fin n → Option (Progress Nat)} {free r : Fin n → List Nat}

/-- No process can take a step, but for progress calls that find nothing. -/
def TrackedStuck (N : Net α n) (sync : Bool) (K : Nat) (v : TrackedState α n) : Prop :=
  ∀ act : TrackedAct n, act.isLocal = true → N.trackedStep sync K v act = none

/-! ### No step left -/

namespace TrackedInv

variable (h : N.TrackedInv K v s free r) (hst : N.TrackedStuck sync K v)

include hst in
theorem stack_of_stuck (i : Fin n) (t : Thread) : (v.procs i).proc.stack t = [] := by
  cases hstack : (v.procs i).proc.stack t with
  | nil => rfl
  | cons f fs =>
      have hnone := hst (.proc i (.main (.frame t))) rfl
      simp [trackedStep, trackedProcStep, procStep, Fflib.frameStep, hstack] at hnone

include hst in
/-- The loop over the ready list is over. -/
theorem walk_of_stuck (i : Fin n) : (v.procs i).walk = .test none := by
  have hprog : (v.procs i).proc.prog = [] := stack_of_stuck hst i .progress
  cases hw : (v.procs i).walk with
  | advance op =>
      have hnone := hst (.proc i .advance) rfl
      simp [trackedStep, trackedProcStep, hw, hprog] at hnone
  | test b =>
      cases b with
      | none => rfl
      | some op =>
          have hnone := hst (.proc i .call) rfl
          simp [trackedStep, trackedProcStep, hw, hprog] at hnone

include h hst

theorem list_of_stuck (i : Fin n) : r i = [] := by
  have hl := (h.table i).linked
  rw [TrackedProc.cursor, walk_of_stuck hst i] at hl
  cases hr : r i with
  | nil => rfl
  | cons x l =>
      rw [hr] at hl
      cases hl.1

/-- A pending operation is in a slot of the table, whose request can be reported. -/
theorem test_of_tracked_stuck {i : Fin n} {x : Nat} (hx : x ∈ (v.procs i).proc.pending) :
    (N.impl sync i).test x ((v.procs i).proc.ops x) v.env = none := by
  have hprog : (v.procs i).proc.prog = [] := stack_of_stuck hst i .progress
  have hok := h.table i
  rw [h.list_of_stuck hst i] at hok
  obtain ⟨j, hj⟩ := (hok.tracked x).mp hx
  have hlt := hok.table.lt_max j (by simp [hj])
  obtain ⟨_, hreq⟩ := hok.table.entry j x x hj
  have hreport : (v.procs i).tracker.Reportable [j] := by
    refine ⟨List.nodup_singleton j, fun k hk => ?_⟩
    obtain rfl := List.mem_singleton.mp hk
    exact ⟨hlt, by simp [hreq]⟩
  obtain ⟨tracker, free', hprogress, _⟩ := hok.report hreport (h.net.pending_ok i).1 hprog
  have hnone := hst (.proc i (.report [j])) rfl
  have hops : (v.procs i).tracker.opsOf [j] = [x] := by simp [Tracker.opsOf, hj]
  simp only [trackedStep, trackedProcStep, if_pos (And.intro (walk_of_stuck hst i)
    (And.intro hprog hreport)), hok.requests_eq hreport, hprogress, hops] at hnone
  cases htest : (N.impl sync i).test x ((v.procs i).proc.ops x) v.env with
  | none => rfl
  | some e => simp [testAll, htest] at hnone

/-- The processes without their tables cannot take a step either. -/
theorem net_stuck : N.Stuck sync K (v.abs r) := by
  intro act hlocal
  have happend : ∀ i, (v.abs r).procs i = (v.procs i).proc := by
    intro i
    simp only [TrackedState.abs, h.list_of_stuck hst i, Proc.append_nil]
  cases act with
  | read i j tag k => cases hlocal
  | deliver i j tag k => cases hlocal
  | user i =>
      have hnone := hst (.user i) rfl
      simp only [trackedStep] at hnone
      split at hnone
      · cases hnone
      · next hc =>
          simp only [netStep, happend]
          exact if_neg hc
  | proc i act =>
      cases act with
      | frame t =>
          have hstack := stack_of_stuck hst i t
          simp [netStep, procStep, Fflib.frameStep, happend, hstack]
      | wait =>
          have hnone := hst (.proc i (.main .wait)) rfl
          simpa [trackedStep, trackedProcStep, procStep, netStep, happend] using hnone
      | post =>
          have hnone := hst (.proc i (.main .post)) rfl
          have hready : (v.abs r).ready i = v.ready i := rfl
          simp only [netStep, hready, happend]
          split
          · next hr =>
              simp only [trackedStep, if_pos hr, trackedProcStep, procStep, ffschedulePost,
                Option.map_eq_none_iff] at hnone ⊢
              split
              · next hc =>
                  rw [if_pos hc] at hnone
                  cases hnone
              · rfl
          · rfl
      | progress x =>
          simp only [netStep, procStep, Fflib.progressStep, happend]
          split
          · next hc =>
              rw [show (v.abs r).env = v.env from rfl, h.test_of_tracked_stuck hst hc.2]
              rfl
          · rfl

end TrackedInv

/-- The steps of the processes come to an end. -/
theorem exists_tracked_stuck (hN : N.Channels) (hfit : N.FitsTable) (mem : Nat → ArmanEntry) :
    ∃ as v, run (N.trackedStep sync K) (N.trackedInitial mem) as = some v ∧
      N.TrackedStuck sync K v := by
  have hdown : ∀ k v, (∃ s free r, N.TrackedInv K v s free r ∧ N.trackedToDo K v s r = k) →
      N.TrackedStuck sync K v ∨ ∃ act v' k', N.trackedStep sync K v act = some v' ∧ k' < k ∧
        ∃ s' free' r', N.TrackedInv K v' s' free' r' ∧ N.trackedToDo K v' s' r' = k' := by
    rintro k v ⟨s, free, r, hinv, hk⟩
    by_cases hst : N.TrackedStuck sync K v
    · exact Or.inl hst
    · simp only [TrackedStuck, not_forall] at hst
      obtain ⟨act, hlocal, hstep⟩ := hst
      obtain ⟨v', hv'⟩ := Option.ne_none_iff_exists'.mp hstep
      obtain ⟨s', free', r', hinv', hm⟩ := hinv.step hN hfit hv'
      have hload := hm.load
      rw [if_pos hlocal, hk] at hload
      exact Or.inr ⟨act, v', _, hv', hload, s', free', r', hinv', rfl⟩
  obtain ⟨as, v, _, hrun, _, hst⟩ := exists_run_of_measure hdown _ (N.trackedInitial mem)
    ⟨_, _, _, N.trackedInv_initial K mem, rfl⟩
  exact ⟨as, v, hrun, hst⟩

/-- **Progress**: without a circle, some process can take a step until all have finished. -/
theorem finished_of_tracked_stuck (hP : N.Paired) (hfit : N.FitsTable) (hacyc : N.Acyclic sync)
    {mem : Nat → ArmanEntry} (hv : Reachable (N.trackedStep sync K) (N.trackedInitial mem) v)
    (hst : N.TrackedStuck sync K v) : v.Finished K := by
  obtain ⟨s, free, r, hinv, _⟩ := exists_tracked hP.toChannels hfit hv
  have hstuck := hinv.net_stuck hst
  intro i
  have hnone := hinv.net.none_of_stuck hstuck hP hacyc i
  exact ⟨hinv.net.finished_of_none hstuck hnone, (hinv.net.quiet_of_none hnone).running⟩

end Net

section PingPong

variable (count : Nat) (ping pong : Nat → α) (mem₀ : Nat → Nat → Nat → α)

theorem pingPong_fitsTable : (pingPong count ping pong mem₀).FitsTable := by
  intro i
  refine (Finset.card_le_card (t := Finset.range 4) (fun v hv => ?_)).trans (by simp [ffmpiMaxReq])
  exact Finset.mem_range.mpr ((pingPong_mem_verts count ping pong mem₀).mp
    (Finset.mem_filter.mp hv).1)

/-- The test comes to its end. -/
theorem pingPong_tracked_finishes (sync : Bool) (mem : Nat → ArmanEntry) : ∃ as v,
    run ((pingPong count ping pong mem₀).trackedStep sync 1)
      ((pingPong count ping pong mem₀).trackedInitial mem) as = some v ∧ v.Finished 1 := by
  have hP := pingPong_paired count ping pong mem₀
  have hfit := pingPong_fitsTable count ping pong mem₀
  obtain ⟨as, v, hrun, hst⟩ := Net.exists_tracked_stuck hP.toChannels hfit mem
  exact ⟨as, v, hrun, Net.finished_of_tracked_stuck hP hfit
    (pingPong_acyclic count ping pong mem₀ sync) ⟨as, hrun⟩ hst⟩

end PingPong

namespace Net

/-! ### The laws -/

/-- Where every computation completes, the processes can take steps of their own until all have
finished, with their requests in the tables and the completed operations on the ready lists, if
and only if the operations do not wait for each other in a circle. -/
theorem tracked_stuck_finished_iff_acyclic (N : Net α n) (hP : N.Paired) (hfit : N.FitsTable)
    {sync : Bool} {K : Nat} (hK : 0 < K) (mem : Nat → ArmanEntry) :
    (∀ v, Reachable (N.trackedStep sync K) (N.trackedInitial mem) v →
      N.TrackedStuck sync K v → v.Finished K) ↔ N.Acyclic sync := by
  refine ⟨fun h => ?_, fun hacyc v hv hst i => ?_⟩
  · rintro ⟨i, x⟩ hc
    obtain ⟨as, v, hrun, hst⟩ := exists_tracked_stuck (K := K) hP.toChannels hfit mem
    obtain ⟨s, free, r, hinv, hmoves⟩ := exists_tracked hP.toChannels hfit ⟨as, hrun⟩
    obtain ⟨hround, hrunning⟩ := h v ⟨as, hrun⟩ hst i
    exact exec_ne_none_of_cycle hP.toChannels hK hc hmoves hround
      (hinv.net.none_of_not_running hrunning)
  · exact finished_of_tracked_stuck hP hfit hacyc hv hst i

/-- **Termination**: in any run of `K` rounds the processes take at most so many steps, when
the progress calls that find nothing are not counted. -/
theorem tracked_local_steps_le (N : Net α n) (hN : N.Channels) (hfit : N.FitsTable)
    {sync : Bool} {K : Nat} {mem : Nat → ArmanEntry} {as : List (TrackedAct n)}
    {v : TrackedState α n} (hrun : run (N.trackedStep sync K) (N.trackedInitial mem) as = some v) :
    as.countP TrackedAct.isLocal ≤ 4 * ∑ i, (K * (8 * (N.graph i).verts.card +
      2 * ∑ v ∈ (N.graph i).verts, (N.graph i).out v + 5) + 1) := by
  have hstep : ∀ k v act v', (∃ s free r, N.TrackedInv K v s free r ∧
      N.trackedToDo K v s r ≤ k) → True → N.trackedStep sync K v act = some v' →
      ∃ k', k' + (if act.isLocal then 1 else 0) ≤ k ∧
        ∃ s' free' r', N.TrackedInv K v' s' free' r' ∧ N.trackedToDo K v' s' r' ≤ k' := by
    rintro k v act v' ⟨s, free, r, hinv, hk⟩ - hs
    obtain ⟨s', free', r', hinv', hm⟩ := hinv.step hN hfit hs
    exact ⟨_, hm.load.trans hk, s', free', r', hinv', le_rfl⟩
  have hle := countP_le_of_measure hstep as _ _ v
    ⟨_, _, _, N.trackedInv_initial K mem, le_rfl⟩ (fun _ _ => trivial) hrun
  have habs : (N.trackedInitial mem).abs (fun _ => []) = N.initial := N.trackedInitial_abs mem
  have hzero : ∀ i, listToDo ((N.trackedInitial mem).procs i) [] = 0 := fun _ => rfl
  simp only [trackedToDo, habs, hzero, Finset.sum_const_zero, Nat.add_zero] at hle
  exact hle.trans (Nat.mul_le_mul_left 4 (N.toDo_initial_le K))

theorem tracked_local_steps_le_pingPong : ∃ as v,
    run ((pingPong 2 id (fun _ => 0) fun _ _ _ => 7).trackedStep true 1)
        ((pingPong 2 id (fun _ => 0) fun _ _ _ => 7).trackedInitial blankEntries) as =
      some v ∧ v.Finished 1 ∧ as.countP TrackedAct.isLocal ≤
        4 * ∑ i, (1 * (8 * ((pingPong 2 id (fun _ => 0) fun _ _ _ => 7).graph i).verts.card +
          2 * ∑ v ∈ ((pingPong 2 id (fun _ => 0) fun _ _ _ => 7).graph i).verts,
            ((pingPong 2 id (fun _ => 0) fun _ _ _ => 7).graph i).out v + 5) + 1) := by
  obtain ⟨as, v, hrun, hf⟩ :=
    pingPong_tracked_finishes 2 id (fun _ => 0) (fun _ _ _ => 7) true blankEntries
  exact ⟨as, v, hrun, hf, tracked_local_steps_le _
    (pingPong_paired 2 id (fun _ => 0) fun _ _ _ => 7).toChannels
    (pingPong_fitsTable 2 id (fun _ => 0) fun _ _ _ => 7) hrun⟩

/-- **Agreement**: without races, what a rank finds in its memory between two rounds is the
same, in the order in which its progress thread goes through the table and the ready list, as
in any other order of the completions. -/
theorem tracked_memory_eq (N : Net α n) (hN : N.Channels) (hfit : N.FitsTable)
    (hR : N.RaceFree) {sync sync' : Bool} {K K' : Nat} {mem : Nat → ArmanEntry}
    {v : TrackedState α n} {w : NetState α n}
    (hv : Reachable (N.trackedStep sync K) (N.trackedInitial mem) v)
    (hw : Reachable (netStep N sync' K') N.initial w) {i : Fin n}
    (hr : (v.procs i).proc.running = false) (hr' : (w.procs i).running = false)
    (hround : (v.env i).round = (w.env i).round) (hready : v.ready i = w.ready i) :
    (v.env i).mem = (w.env i).mem := by
  obtain ⟨s, _, _, hinv, hm⟩ := exists_tracked hN hfit hv
  obtain ⟨s', hm'⟩ := exists_refines hN hw
  exact mem_eq_of_moves hN hR hm hm'.moves (hinv.net.none_of_not_running hr)
    (hm'.inv.none_of_not_running hr') hround hready

/-- A run with the tables, and one without. -/
theorem tracked_memory_eq_pingPong : ∃ (v : TrackedState Nat 2) (w : NetState Nat 2),
    Reachable ((pingPong 2 id (fun _ => 0) fun _ _ _ => 7).trackedStep true 1)
      ((pingPong 2 id (fun _ => 0) fun _ _ _ => 7).trackedInitial blankEntries) v ∧
    Reachable (netStep (pingPong 2 id (fun _ => 0) fun _ _ _ => 7) false 1)
      (pingPong 2 id (fun _ => 0) fun _ _ _ => 7).initial w ∧
    v.Finished 1 ∧ Finished 1 w ∧ ∀ i : Fin 2, (v.env i).mem = (w.env i).mem := by
  have hN := (pingPong_paired 2 id (fun _ => 0) fun _ _ _ => 7).toChannels
  have hfit := pingPong_fitsTable 2 id (fun _ => 0) fun _ _ _ => 7
  obtain ⟨as, v, hrun, hf⟩ :=
    pingPong_tracked_finishes 2 id (fun _ => 0) (fun _ _ _ => 7) true blankEntries
  obtain ⟨as', w, hrun', hf'⟩ := pingPong_finishes 2 id (fun _ => 0) (fun _ _ _ => 7) false
  obtain ⟨s, _, r, hinv, _⟩ := exists_tracked hN hfit ⟨as, hrun⟩
  obtain ⟨s', hm'⟩ := exists_refines hN ⟨as', hrun'⟩
  have habs : Finished 1 (v.abs r) := hf
  refine ⟨v, w, ⟨as, hrun⟩, ⟨as', hrun'⟩, hf, hf', fun i => ?_⟩
  exact tracked_memory_eq _ hN hfit (pingPong_raceFree 2 id (fun _ => 0) fun _ _ _ => 7)
    ⟨as, hrun⟩ ⟨as', hrun'⟩ (hf i).2 (hf' i).2 ((hf i).1.trans (hf' i).1.symm)
    ((hinv.net.ready_of_finished habs i).trans (hm'.inv.ready_of_finished hf' i).symm)

end Net

end Fflib
