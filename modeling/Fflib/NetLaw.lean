import Fflib.PingPong

/-!
# What holds of every program

For processes that build schedules of any shape, post them and wait for them, when their
operators succeed (`NetAnswers` is about those that may fail):

* `stuck_finished_iff_acyclic`: they finish, whatever happens, exactly when their operations
  do not wait for each other in a circle.
* `local_steps_le` bounds the number of their steps.
* `memory_determined`: without races, what a rank finds in its memory between two rounds is
  the same in every run.
* `store_of_finished`: after the last round memory and messages are those of a sequential
  execution, in any order that respects the schedules.
-/

namespace Fflib

open Library

universe u

variable {α : Type u} {n : Nat}

namespace Net

/-- Where every computation completes, the processes can take steps of their own until all have
finished, whatever a program has done, if and only if its operations do not wait for each other
in a circle. -/
theorem stuck_finished_iff_acyclic (N : Net α n) (hP : N.Paired) {sync : Bool} {K : Nat}
    (hK : 0 < K) :
    (∀ w, Reachable (netStep N sync K) N.initial w → N.Stuck sync K w → Finished K w) ↔
      N.Acyclic sync := by
  refine ⟨fun h => ?_, fun hacyc w hw hst => finished_of_stuck hP hacyc hw hst⟩
  rintro ⟨i, v⟩ hc
  have hstart : Reachable (netStep N sync K) N.initial N.initial := .refl _
  obtain ⟨as, w, hrun, hst⟩ := exists_stuck hP.toChannels hstart
  exact not_finished_of_cycle hP.toChannels hK hc ⟨as, hrun⟩ (h w ⟨as, hrun⟩ hst)

/-- What is to do at the beginning of a round. -/
theorem work_start_le (G : DepGraph Nat) :
    G.work G.start ≤ 4 * G.verts.card + ∑ v ∈ G.verts, G.out v := by
  have hle : G.work G.start ≤ ∑ v ∈ G.verts, (4 + G.out v) := by
    refine Finset.sum_le_sum (fun v _ => ?_)
    simp only [DepGraph.start, Function.update_apply]
    split <;> simp only [DepGraph.weight] <;> omega
  rwa [Finset.sum_add_distrib, Finset.sum_const_nat (fun _ _ => rfl), Nat.mul_comm] at hle

/-- What is to do before the first round. -/
theorem toDo_initial_le (N : Net α n) (K : Nat) :
    N.toDo K N.initial (fun _ => none) ≤ ∑ i, (K * (8 * (N.graph i).verts.card +
      2 * ∑ v ∈ (N.graph i).verts, (N.graph i).out v + 5) + 1) := by
  refine Finset.sum_le_sum (fun i _ => ?_)
  have hwork := work_start_le (N.graph i)
  simp only [rankToDo, initial, Proc.init, Proc.frames, List.append_nil, List.length_nil,
    Nat.sub_zero, Bool.false_eq_true, if_false, Nat.zero_add]
  refine Nat.add_le_add_right (Nat.mul_le_mul_left K ?_) 1
  omega

/-- **Termination**: in any run of `K` rounds, however the steps are interleaved, the
processes take at most so many of them. -/
theorem local_steps_le (N : Net α n) (hN : N.Channels) {sync : Bool} {K : Nat}
    {as : List (NetAct n)} {w : NetState α n}
    (hrun : run (netStep N sync K) N.initial as = some w) :
    as.countP NetAct.isLocal ≤ ∑ i, (K * (8 * (N.graph i).verts.card +
      2 * ∑ v ∈ (N.graph i).verts, (N.graph i).out v + 5) + 1) := by
  have hstep : ∀ k w act w', (∃ s, N.NetInv K w s ∧ N.toDo K w s ≤ k) → True →
      netStep N sync K w act = some w' →
      ∃ k', k' + (if act.isLocal then 1 else 0) ≤ k ∧
        ∃ s', N.NetInv K w' s' ∧ N.toDo K w' s' ≤ k' := by
    rintro k w act w' ⟨s, hinv, hk⟩ - hs
    obtain ⟨s', hr, hle⟩ := hinv.step hN hs
    exact ⟨_, hle.trans hk, s', hr.inv, le_rfl⟩
  have hle := countP_le_of_measure hstep as (N.toDo K N.initial fun _ => none) N.initial w
    ⟨_, N.netInv_initial K, le_rfl⟩ (fun _ _ => trivial) hrun
  exact hle.trans (N.toDo_initial_le K)

theorem local_steps_le_pingPong : ∃ as w,
    run (netStep (pingPong 2 id (fun _ => 0) fun _ _ _ => 7) true 1)
        (pingPong 2 id (fun _ => 0) fun _ _ _ => 7).initial as = some w ∧ Finished 1 w ∧
      as.countP NetAct.isLocal ≤
        ∑ i, (1 * (8 * ((pingPong 2 id (fun _ => 0) fun _ _ _ => 7).graph i).verts.card +
          2 * ∑ v ∈ ((pingPong 2 id (fun _ => 0) fun _ _ _ => 7).graph i).verts,
            ((pingPong 2 id (fun _ => 0) fun _ _ _ => 7).graph i).out v + 5) + 1) := by
  obtain ⟨as, w, hrun, hf⟩ := pingPong_finishes 2 id (fun _ => 0) (fun _ _ _ => 7) true
  exact ⟨as, w, hrun, hf, local_steps_le _
    (pingPong_paired 2 id (fun _ => 0) fun _ _ _ => 7).toChannels hrun⟩

/-- **Determinacy**: without races, what a rank finds in its memory between two rounds does
not depend on the order in which anything has happened: not on the threads, the other ranks,
the network, or whether sends wait for their receives. -/
theorem memory_determined (N : Net α n) (hN : N.Channels) (hR : N.RaceFree) {sync sync' : Bool}
    {K K' : Nat} {w w' : NetState α n} (hw : Reachable (netStep N sync K) N.initial w)
    (hw' : Reachable (netStep N sync' K') N.initial w') {i : Fin n}
    (hr : (w.procs i).running = false) (hr' : (w'.procs i).running = false)
    (hround : (w.env i).round = (w'.env i).round) (hready : w.ready i = w'.ready i) :
    (w.env i).mem = (w'.env i).mem := by
  obtain ⟨s, hm⟩ := exists_refines hN hw
  obtain ⟨s', hm'⟩ := exists_refines hN hw'
  exact mem_eq_of_moves hN hR hm.moves hm'.moves (hm.inv.none_of_not_running hr)
    (hm'.inv.none_of_not_running hr') hround hready

/-- Two runs, in one of which sends wait for their receives. -/
theorem memory_determined_pingPong : ∃ w w' : NetState Nat 2,
    Reachable (netStep (pingPong 2 id (fun _ => 0) fun _ _ _ => 7) false 1)
      (pingPong 2 id (fun _ => 0) fun _ _ _ => 7).initial w ∧
    Reachable (netStep (pingPong 2 id (fun _ => 0) fun _ _ _ => 7) true 1)
      (pingPong 2 id (fun _ => 0) fun _ _ _ => 7).initial w' ∧
    Finished 1 w ∧ Finished 1 w' ∧ ∀ i : Fin 2, (w.env i).mem = (w'.env i).mem := by
  have hN := (pingPong_paired 2 id (fun _ => 0) fun _ _ _ => 7).toChannels
  obtain ⟨as, w, hrun, hf⟩ := pingPong_finishes 2 id (fun _ => 0) (fun _ _ _ => 7) false
  obtain ⟨as', w', hrun', hf'⟩ := pingPong_finishes 2 id (fun _ => 0) (fun _ _ _ => 7) true
  obtain ⟨s, hinv, _⟩ := exists_trace hN ⟨as, hrun⟩
  obtain ⟨s', hinv', _⟩ := exists_trace hN ⟨as', hrun'⟩
  refine ⟨w, w', ⟨as, hrun⟩, ⟨as', hrun'⟩, hf, hf', fun i => ?_⟩
  exact memory_determined _ hN (pingPong_raceFree 2 id (fun _ => 0) fun _ _ _ => 7) ⟨as, hrun⟩
    ⟨as', hrun'⟩ (hf i).2 (hf' i).2 ((hf i).1.trans (hf' i).1.symm)
    ((hinv.ready_of_finished hf i).trans (hinv'.ready_of_finished hf' i).symm)

/-- **Sequential meaning**: after the last round memory and messages are as if the tasks of
the program had been carried out one after another, in any order that respects the
schedules. -/
theorem store_of_finished (N : Net α n) (hN : N.Channels) (hR : N.RaceFree) {sync : Bool}
    {K : Nat} {w : NetState α n} (hw : Reachable (netStep N sync K) N.initial w)
    (hf : Finished K w) {ts : List (Task n)} (hnd : ts.Nodup) (hrs : Respects N.Before ts)
    (hall : ∀ t, t ∈ ts ↔ N.Known t ∧ t.round < K) :
    w.env.store = N.tasks.execAll ts N.initial.env.store := by
  obtain ⟨s, hinv, es, ht⟩ := exists_trace hN hw
  have hmem : ∀ t, t ∈ es ↔ t ∈ ts := by
    intro t
    have he : s t.rank = none := hinv.none_of_not_running (hf t.rank).2
    have hready := hinv.ready_of_finished hf t.rank
    have hround : (w.env t.rank).round = K := (hf t.rank).1
    rw [ht.mem, done_iff_upTo hinv.view he rfl, hall]
    simp only [hround, hready]
    exact upTo_iff rfl
  have hperm : es.Perm ts := (List.perm_ext_iff_of_nodup ht.nodup hnd).mpr hmem
  refine ht.store.trans (Tasks.execAll_eq_of_perm hperm ht.nodup ht.respects hrs
    (fun t h t' h' hne hc => ?_) _)
  exact N.before_of_conflict hN hR (known_of_done ((ht.mem t).mp h))
    (known_of_done ((ht.mem t').mp h')) hne hc

theorem store_of_finished_pingPong : ∃ w : NetState Nat 2, Finished 1 w ∧
    w.env.store = (pingPong 2 id (fun _ => 0) fun _ _ _ => 7).tasks.execAll pingPongTasks
      (pingPong 2 id (fun _ => 0) fun _ _ _ => 7).initial.env.store := by
  obtain ⟨as, w, hrun, hf⟩ := pingPong_finishes 2 id (fun _ => 0) (fun _ _ _ => 7) true
  refine ⟨w, hf, store_of_finished _ (pingPong_paired 2 id (fun _ => 0) fun _ _ _ => 7).toChannels
    (pingPong_raceFree 2 id (fun _ => 0) fun _ _ _ => 7) ⟨as, hrun⟩ hf (by decide)
    (pingPongTasks_respects 2 id (fun _ => 0) fun _ _ _ => 7) (fun t => ?_)⟩
  rw [mem_pingPongTasks 2 id (fun _ => 0) fun _ _ _ => 7, Nat.lt_one_iff]

end Net

end Fflib
