import Mathlib.Algebra.BigOperators.Group.Finset.Basic
import Mathlib.Algebra.BigOperators.Ring.Finset
import Mathlib.Algebra.Order.BigOperators.Group.Finset

/-!
# Counters of outstanding predecessors

The vertices of a finite multigraph complete, again and again; a vertex that completes
resets its own counter to its in-degree and announces the completion to the counters of
its successors, one edge after another.

* `Tally` holds the counters, who has completed since when, and the announcements that are
  still to come.
* `BalancedOn` is the law of the counters: predecessors that have not completed since the
  vertex itself did, and announcements that are still to come.
* `balancedOn_complete_iff`: a completion keeps the law iff the vertex has not completed
  since its successors did, and no announcement to it is still to come.
* `BalancedOn.notify`: an announcement keeps the law.
* `BalancedOn.all_since`: a counter that is zero has seen all its predecessors.
-/

namespace Fflib
namespace Library

universe u

/-- The counters of a graph; `since v d` says that `v` has completed since `d` did. -/
@[ext] structure Tally (V : Type u) where
  left : V → ℕ
  since : V → V → Bool
  pending : V → ℕ

section Tally

variable {V : Type u} [DecidableEq V] (verts : Finset V) (mult : V → V → ℕ)

/-- Number of edges into `d`. -/
def inDegree (d : V) : ℕ := ∑ v ∈ verts, mult v d

/-- Number of edges into `d` whose source has not completed since `d` did. -/
def Tally.missing (t : Tally V) (d : V) : ℕ := ∑ v ∈ verts with t.since v d = false, mult v d

/-- The law of the counters of `s`. -/
def BalancedOn (s : Finset V) (t : Tally V) : Prop :=
  ∀ d ∈ s, t.left d = t.missing verts mult d + t.pending d

/-- `x` completes: its counter is reset, and its announcements are to come. -/
def Tally.complete (x : V) (t : Tally V) : Tally V where
  left := Function.update t.left x (inDegree verts mult x)
  since v d := decide (d ≠ x) && (decide (v = x) || t.since v d)
  pending d := t.pending d + mult x d

/-- A completion is announced to `d`, whose counter becomes `m`. -/
def Tally.notify (d : V) (m : ℕ) (t : Tally V) : Tally V where
  left := Function.update t.left d m
  since := t.since
  pending := Function.update t.pending d (t.pending d - 1)

variable {verts mult} {s : Finset V} {t : Tally V} {x d : V}

/-- What a completion of `x` does to the other counters. -/
theorem Tally.missing_complete_of_ne (mult : V → V → ℕ) (hx : x ∈ verts) (hd : d ≠ x) :
    (t.complete verts mult x).missing verts mult d +
        (if t.since x d = true then 0 else mult x d) = t.missing verts mult d := by
  have hsplit : ∀ u : Tally V, u.missing verts mult d =
      ∑ v ∈ verts, if u.since v d = false then mult v d else 0 := by
    intro u
    rw [missing, Finset.sum_filter]
  rw [hsplit, hsplit, ← Finset.add_sum_erase _ _ hx, ← Finset.add_sum_erase verts _ hx]
  have hrest : ∑ v ∈ verts.erase x,
        (if (t.complete verts mult x).since v d = false then mult v d else 0) =
      ∑ v ∈ verts.erase x, if t.since v d = false then mult v d else 0 := by
    refine Finset.sum_congr rfl (fun v hv => ?_)
    have hvx : v ≠ x := Finset.ne_of_mem_erase hv
    simp [complete, hd, hvx]
  rw [hrest]
  cases hs : t.since x d
  · simp [complete, hd]
    omega
  · simp [complete, hd]

theorem Tally.missing_complete_self :
    (t.complete verts mult x).missing verts mult x = inDegree verts mult x := by
  simp [missing, complete, inDegree]

/-- **A completion keeps the law** iff `x` has not completed since its successors did, and
nothing is still to be announced to `x`. -/
theorem balancedOn_complete_iff (h : BalancedOn verts mult s t) (hx : x ∈ verts)
    (hself : mult x x = 0) :
    BalancedOn verts mult s (t.complete verts mult x) ↔
      (∀ d ∈ s, mult x d ≠ 0 → t.since x d = false) ∧ (x ∈ s → t.pending x = 0) := by
  have hat : ∀ d ∈ s, d ≠ x →
      ((t.complete verts mult x).left d = (t.complete verts mult x).missing verts mult d +
          (t.complete verts mult x).pending d ↔
        (mult x d ≠ 0 → t.since x d = false)) := by
    intro d hd hne
    have hlaw := h d hd
    have hmissing := Tally.missing_complete_of_ne (t := t) mult hx hne
    have hleft : (t.complete verts mult x).left d = t.left d := by
      simp [Tally.complete, hne]
    rw [hleft, hlaw, ← hmissing, Tally.complete]
    cases hs : t.since x d
    · simp only [Bool.false_eq_true, if_false]
      exact iff_of_true (by omega) (fun _ => trivial)
    · simp
  have hatx : (t.complete verts mult x).left x =
      (t.complete verts mult x).missing verts mult x + (t.complete verts mult x).pending x ↔
        t.pending x = 0 := by
    rw [Tally.missing_complete_self]
    simp [Tally.complete, hself]
  constructor
  · intro h'
    refine ⟨fun d hd hm => ?_, fun hxs => hatx.mp (h' x hxs)⟩
    have hne : d ≠ x := by
      rintro rfl
      exact hm hself
    exact (hat d hd hne).mp (h' d hd) hm
  · rintro ⟨hsince, hpending⟩ d hd
    by_cases hne : d = x
    · subst hne
      exact hatx.mpr (hpending hd)
    · exact (hat d hd hne).mpr (hsince d hd)

namespace BalancedOn

variable (h : BalancedOn verts mult s t)
include h

omit [DecidableEq V] in
/-- A counter to which something is still to be announced is not zero. -/
theorem left_pos (hd : d ∈ s) (hp : 0 < t.pending d) : 0 < t.left d := by
  rw [h d hd]
  omega

/-- An announcement keeps the law, when it takes one off the counter. -/
theorem notify {m : ℕ} (hp : 0 < t.pending d) (hm : d ∈ s → m + 1 = t.left d) :
    BalancedOn verts mult s (t.notify d m) := by
  intro e he
  have hmissing : (t.notify d m).missing verts mult e = t.missing verts mult e := rfl
  rw [hmissing]
  by_cases hed : e = d
  · subst hed
    have hlaw := h e he
    have := hm he
    simp only [Tally.notify, Function.update_self]
    omega
  · simp [Tally.notify, hed, h e he]

omit [DecidableEq V] in
/-- A counter that is zero has seen all its predecessors. -/
theorem all_since (hd : d ∈ s) (hz : t.left d = 0) {v : V} (hv : v ∈ verts)
    (hm : mult v d ≠ 0) : t.since v d = true := by
  by_contra hs
  have hlaw := h d hd
  have hle : mult v d ≤ t.missing verts mult d := by
    refine Finset.single_le_sum (f := fun v => mult v d) (fun _ _ => Nat.zero_le _) ?_
    exact Finset.mem_filter.mpr ⟨hv, Bool.eq_false_of_not_eq_true hs⟩
  omega

omit [DecidableEq V] in
theorem pending_eq_zero (hd : d ∈ s) (hz : t.left d = 0) : t.pending d = 0 := by
  have := h d hd
  omega

omit [DecidableEq V] in
/-- A counter without outstanding predecessors and announcements is zero. -/
theorem left_eq_zero (hd : d ∈ s) (hp : t.pending d = 0)
    (hall : ∀ v ∈ verts, mult v d ≠ 0 → t.since v d = true) : t.left d = 0 := by
  rw [h d hd, hp, Nat.add_zero, Tally.missing]
  refine Finset.sum_eq_zero (fun v hv => ?_)
  obtain ⟨hv, hs⟩ := Finset.mem_filter.mp hv
  by_contra hm
  rw [hall v hv hm] at hs
  cases hs

end BalancedOn

end Tally

end Library
end Fflib
