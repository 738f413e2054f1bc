import Fflib.Deadlock

/-!
# Completed rounds

* `WorldInv.result` says what a completed round has left in the receive buffer:
  the value of recursive doubling, whatever the interleaving was.
* `exists_completed`: all ranks together can complete a round.
-/

namespace Fflib

open Library

universe u

variable {α : Type u}

namespace Ranks

variable {J : Ranks α} {cap : Nat}

/-- Rank `i` has completed its `m`-th round: `end_op` has completed, or
`ffschedule_wait` has returned and the inputs of the next round have not been set. -/
def Completed (J : Ranks α) (cap : Nat) (w : World α) (i m : Nat) : Prop :=
  (w.env i).round = m ∧ 0 < m ∧
    (((w.procs i).running = true ∧
        ((w.procs i).ops (J.build cap i).1.endOp).completed ≠ 0) ∨
      ((w.procs i).running = false ∧ w.loaded i = false))

/-- The contents of the receive buffer of rank `i`. -/
def rcvbuff (J : Ranks α) (w : World α) (i : Nat) : Nat → α := (w.env i).mem (J.rb i)

section Result

variable {hB : J.Builds cap} {w : World α} {s : Nat → Option (Progress Nat)} {i m : Nat}

/-- The result of a completed round is the value after all exchanges. -/
theorem WorldInv.result (h : WorldInv hB w s) (hi : i < J.csize)
    (hc : J.Completed cap w i m) :
    ∀ x, x < J.n → J.rcvbuff w i x = J.value (m - 1) J.maxr i x := by
  obtain ⟨hround, hm, hend⟩ := hc
  have hr := h i hi
  cases hs : s i with
  | none =>
      rw [hs] at hr
      rcases hend with ⟨hrun, _⟩ | ⟨_, hl⟩
      · rw [hr.1.running] at hrun
        cases hrun
      · have := hr.2.result hl (by omega)
        rwa [hround] at this
  | some a =>
      rw [hs] at hr
      rcases hend with ⟨_, hflag⟩ | ⟨hrun, _⟩
      · rw [(hB.built hi).end_eq, hr.1.flag] at hflag
        have he : (a.phase ((J.lib₀ i).opid + 1)).isDone = true := by
          by_contra hne
          rw [if_neg hne] at hflag
          exact hflag rfl
        have hmem : J.accOp i (J.rounds i) ∈ (hB.graph hi).verts := by
          rw [hB.mem_verts hi, accOp]
          omega
        have hd := hr.1.all_done (hB.wired hi) he hmem
        have := hr.2.1.result (by rw [hd]; rfl)
        rwa [hround] at this
      · rw [hr.1.running] at hrun
        cases hrun

end Result

section Run

variable (hB : J.Builds cap) (sync : Bool)

/-- What all ranks together still have to do. -/
def totalLoad (w : World α) (s : Nat → Option (Progress Nat)) : Nat :=
  ∑ i : Fin J.csize, rankLoad hB i.isLt (w.procs i) (w.loaded i) (s i)

variable {hB} {w w' : World α} {s : Nat → Option (Progress Nat)} {i : Nat}

theorem Moved.totalLoad_lt {r : Option (Progress Nat)} (hm : Moved hB s i r w w')
    (hi : i < J.csize)
    (hlt : rankLoad hB hi (w'.procs i) (w'.loaded i) r <
      rankLoad hB hi (w.procs i) (w.loaded i) (s i)) :
    totalLoad hB w' (Function.update s i r) < totalLoad hB w s := by
  refine Finset.sum_lt_sum (fun j _ => ?_) ⟨⟨i, hi⟩, Finset.mem_univ _, ?_⟩
  · by_cases hji : (j : Nat) = i
    · obtain ⟨j, hj⟩ := j
      obtain rfl : j = i := hji
      rw [Function.update_self]
      exact hlt.le
    · rw [hm.procs j hji, hm.loaded j hji, Function.update_of_ne hji]
  · simpa using hlt

/-- All ranks are in their first round, with `n` steps left at most. -/
def AllPosted (hB : J.Builds cap) (n : Nat) (w : World α) : Prop :=
  ∃ s, WorldInv hB w s ∧ totalLoad hB w s = n ∧
    ∀ i, i < J.csize → (w.env i).round = 1 ∧ (s i).isSome = true

theorem Moved.allPosted {r : Option (Progress Nat)} (hm : Moved hB s i r w w')
    (hr : r.isSome = true) (hround : (w'.env i).round = (w.env i).round)
    (hall : ∀ i, i < J.csize → (w.env i).round = 1 ∧ (s i).isSome = true) :
    AllPosted hB (totalLoad hB w' (Function.update s i r)) w' := by
  refine ⟨_, hm.inv, rfl, fun j hj => ?_⟩
  by_cases hji : j = i
  · subst hji
    rw [hround, Function.update_self]
    exact ⟨(hall j hj).1, hr⟩
  · rw [hm.round j hji, Function.update_of_ne hji]
    exact hall j hj

/-- All ranks can complete their first round together. -/
theorem exists_completed (hB : J.Builds cap) (sync : Bool) :
    ∃ w, Reachable (worldStep J cap sync 1) (J.initial cap) w ∧
      ∀ i, i < J.csize → J.Completed cap w i 1 := by
  obtain ⟨w₀, s₀, hw₀, h₀, hposted⟩ := exists_posted hB sync
  have hstep : ∀ n w, AllPosted hB n w → (∀ i, i < J.csize → J.Completed cap w i 1) ∨
      ∃ act w' n', worldStep J cap sync 1 w act = some w' ∧ n' < n ∧ AllPosted hB n' w' := by
    rintro n w ⟨s, h, rfl, hall⟩
    by_cases hf : ∀ i, i < J.csize → (w.procs i).frames = []
    · by_cases hdone : ∀ i, i < J.csize → J.Completed cap w i 1
      · exact Or.inl hdone
      · right
        simp only [not_forall] at hdone
        obtain ⟨i, hi, hnot⟩ := hdone
        obtain ⟨a, hs⟩ := Option.isSome_iff_exists.mp (hall i hi).2
        have hr := h i hi
        rw [hs] at hr
        have he : (a.phase ((J.lib₀ i).opid + 1)).isDone = false := by
          by_contra hne
          refine hnot ⟨(hall i hi).1, Nat.one_pos, Or.inl ⟨hr.1.running, ?_⟩⟩
          rw [(hB.built hi).end_eq, hr.1.flag, if_pos (by simpa using hne)]
          exact one_ne_zero
        obtain ⟨x, hx⟩ := hr.1.exists_inflight (hB.wired hi) (hf i hi) he
        obtain ⟨k, b, hk, hkx⟩ := hr.2.1.flight x hx
        have hstep : ∃ j, j < J.csize ∧ (J.CanComplete cap sync 1 w j ∨
            (w.env j).round < (w.env i).round ∧ J.AtEnd s j) :=
          h.exists_step hf _ i a x k b hi hs hx hk hkx rfl
        obtain ⟨j, hj, ⟨y, _, _, hy⟩ | ⟨hlt, _⟩⟩ := hstep
        · obtain ⟨w', hw'⟩ := Option.isSome_iff_exists.mp hy
          obtain ⟨_, a', _, hm, hround, hload⟩ := h.progressStep hw'
          exact ⟨_, w', _, hw', hm.totalLoad_lt hj hload, hm.allPosted rfl hround hall⟩
        · rw [(hall i hi).1, (hall j hj).1] at hlt
          exact absurd hlt (lt_irrefl 1)
    · right
      simp only [not_forall] at hf
      obtain ⟨i, hi, hne⟩ := hf
      obtain ⟨t, ht⟩ := Proc.exists_stack hne
      have hsome : (worldStep J cap sync 1 w (.proc i (.frame t))).isSome = true :=
        frameStep_isSome hi ht
      obtain ⟨w', hw'⟩ := Option.isSome_iff_exists.mp hsome
      obtain ⟨_, r, hm, hr, hround, hload⟩ := h.frameStep hw'
      exact ⟨_, w', _, hw', hm.totalLoad_lt hi hload,
        hm.allPosted (hr.trans (hall i hi).2) hround hall⟩
  have hall : AllPosted hB (totalLoad hB w₀ s₀) w₀ :=
    ⟨s₀, h₀, rfl, fun i hi => ⟨(hposted i hi).1, by rw [(hposted i hi).2]; rfl⟩⟩
  obtain ⟨as, w, _, hrun, _, hdone⟩ := exists_run_of_measure hstep _ w₀ hall
  obtain ⟨bs, hbs⟩ := hw₀
  exact ⟨w, ⟨bs ++ as, run_append_eq_some.mpr ⟨w₀, hbs, hrun⟩⟩, hdone⟩

end Run

end Ranks

end Fflib
