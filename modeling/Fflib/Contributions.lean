import Fflib.Reduction
import Fflib.Library.Sources

/-!
# Whose inputs a rank reduces

For a communicator of any size: after a completed round of the allreduce the receive buffer
of rank `i` is the reduction of the inputs of its `contributors`, each taken once.  The input
of rank `j` gets there iff every rank `waypoint i j t` on its way exists.  These are all
inputs iff every binary digit of `i` is one of `csize - 1`.
-/

namespace Fflib

open Library

universe u

namespace Ranks

/-- The ranks whose inputs reach rank `i`. -/
def contributors (csize i : Nat) : Finset Nat :=
  (Finset.range csize).filter fun j => ∀ t, t < Nat.clog 2 csize → waypoint i j t < csize

example : contributors 6 2 = {0, 1, 2, 3} := by decide

theorem sources_eq_contributors {csize i : Nat} (hi : i < csize) :
    sources csize (Nat.clog 2 csize) i = contributors csize i := by
  have hle : csize ≤ 2 ^ Nat.clog 2 csize := Nat.le_pow_clog (by omega) csize
  ext j
  rw [contributors, Finset.mem_filter, Finset.mem_range, mem_sources hi]
  constructor
  · intro h
    exact ⟨lt_of_mem_sources hi ((mem_sources hi).mpr h), h.2⟩
  · rintro ⟨hj, h⟩
    exact ⟨by rw [Nat.div_eq_of_lt (hj.trans_le hle), Nat.div_eq_of_lt (hi.trans_le hle)], h⟩

theorem contributors_eq_range_iff {csize i : Nat} (hi : i < csize) :
    contributors csize i = Finset.range csize ↔ i &&& (csize - 1) = i := by
  rw [← sources_eq_contributors hi]
  exact sources_eq_range_iff hi (Nat.le_pow_clog (by omega) csize)

section Result

variable {α : Type u}

theorem value_eq_contributions (J : Ranks α) [Std.Commutative J.op] [Std.Associative J.op]
    (m x : Nat) {i : Nat} (hi : i < J.csize) :
    J.value m J.maxr i x = foldOf J.op (fun j => J.input j m x) (contributors J.csize i) i := by
  rw [value, exchange_eq_fold_sources J.op _ _ hi, maxr, sources_eq_contributors hi]

/-- With sets as inputs a reduction says which inputs it has combined. -/
theorem foldOf_singleton (s : Finset Nat) {i : Nat} (hi : i ∈ s) :
    foldOf (fun a b : Finset Nat => a ∪ b) (fun j => {j}) s i = s := by
  have hfold : ∀ r : Finset Nat,
      r.fold (fun a b : Finset Nat => a ∪ b) {i} (fun j => {j}) = r ∪ {i} := by
    intro r
    induction r using Finset.induction_on with
    | empty => rfl
    | insert j r hj ih => rw [Finset.fold_insert hj, ih, Finset.insert_union, Finset.insert_eq]
  rw [foldOf, hfold, Finset.union_comm, ← Finset.insert_eq, Finset.insert_erase hi]

/-- Every rank has its own number as its input, and the operator is the union. -/
def ofNumbers (csize : Nat) (hpos : 0 < csize) : Ranks (Finset Nat) :=
  ofInputs csize 1 hpos (fun a b => a ∪ b) fun j _ _ => {j}

section Numbers

variable {csize : Nat} (hpos : 0 < csize)

@[simp] theorem ofNumbers_op : (ofNumbers csize hpos).op = fun a b => a ∪ b := ofInputs_op _ _ _ _ _

instance : Std.Commutative (ofNumbers csize hpos).op :=
  ⟨fun a b => by rw [ofNumbers_op]; exact Finset.union_comm a b⟩

instance : Std.Associative (ofNumbers csize hpos).op :=
  ⟨fun a b c => by rw [ofNumbers_op]; exact Finset.union_assoc a b c⟩

theorem self_mem_contributors {i : Nat} (hi : i < csize) : i ∈ contributors csize i := by
  rw [← sources_eq_contributors hi]
  exact self_mem_sources hi

theorem foldOf_ofNumbers {i : Nat} {s : Finset Nat} (hi : i ∈ s) :
    foldOf (ofNumbers csize hpos).op (fun j => (ofNumbers csize hpos).input j 0 0) s i = s :=
  foldOf_singleton s hi

theorem ofNumbers_builds : (ofNumbers csize hpos).Builds (csize + 1) :=
  (builds_iff _).mpr ⟨Nat.succ_pos csize, Nat.lt_two_pow_self.le⟩

end Numbers

/-- **Partial reductions**, for communicators of any size, any number of rounds and any
interleaving. -/
theorem rcvbuff_eq_contributions (J : Ranks α) [Std.Commutative J.op] [Std.Associative J.op]
    {cap K m : Nat} {sync : Bool} {w : World α} (hB : J.Builds cap)
    (hw : Reachable (worldStep J cap sync K) (J.initial cap) w) {i : Nat} (hi : i < J.csize)
    (hc : J.Completed cap w i m) {x : Nat} (hx : x < J.n) :
    J.rcvbuff w i x =
      foldOf J.op (fun j => J.input j (m - 1) x) (contributors J.csize i) i := by
  obtain ⟨s, h⟩ := worldInv_of_reachable hB hw
  exact (h.result hi hc x hx).trans (J.value_eq_contributions (m - 1) x hi)

/-- Of three ranks, rank `1` misses the input of rank `2`. -/
theorem rcvbuff_eq_contributions_three : ∃ w,
    Reachable (worldStep (ofNumbers 3 (by decide)) 4 false 1)
      ((ofNumbers 3 (by decide)).initial 4) w ∧
    (ofNumbers 3 (by decide)).rcvbuff w 1 0 = {0, 1} := by
  have hB : (ofNumbers 3 (by decide)).Builds 4 := ofNumbers_builds _
  obtain ⟨w, hw, hc⟩ := exists_completed hB false
  have hset : contributors 3 1 = {0, 1} := by decide
  refine ⟨w, hw, (rcvbuff_eq_contributions (ofNumbers 3 (by decide)) hB hw (by decide : 1 < 3)
    (hc 1 (by decide)) (by decide : 0 < 1)).trans ?_⟩
  exact (foldOf_ofNumbers _ (self_mem_contributors (by decide))).trans hset

end Result

/-! ### Ranks that end with the whole reduction -/

/-- Rank `i` ends with the reduction of all inputs, for every commutative and associative
operator. -/
def CompleteAt (csize i : Nat) : Prop :=
  ∀ (α : Type) (J : Ranks α) (cap : Nat) (sync : Bool) (w : World α), J.csize = csize →
    (∀ a b, J.op a b = J.op b a) → (∀ a b c, J.op (J.op a b) c = J.op a (J.op b c)) →
    J.Builds cap → Reachable (worldStep J cap sync 1) (J.initial cap) w →
    J.Completed cap w i 1 → ∀ x, x < J.n →
      J.rcvbuff w i x = blockFold J.op (fun j => J.input j 0 x) 0 (csize - 1)

/-- **Complete ranks**: a rank ends with the reduction of all inputs iff every binary digit of
its number is one of `csize - 1`. -/
theorem completeAt_iff {csize i : Nat} (hi : i < csize) :
    CompleteAt csize i ↔ i &&& (csize - 1) = i := by
  have hpos : 0 < csize := by omega
  have hlast : csize - 1 + 1 = csize := by omega
  rw [← contributors_eq_range_iff hi]
  constructor
  · intro hall
    have hB := ofNumbers_builds hpos
    obtain ⟨w, hw, hc⟩ := exists_completed hB false
    obtain ⟨s, h⟩ := worldInv_of_reachable hB hw
    have hval := h.result hi (hc i hi) 0 Nat.one_pos
    have hfull := hall (Finset Nat) (ofNumbers csize hpos) (csize + 1) false w rfl
      Std.Commutative.comm Std.Associative.assoc hB hw (hc i hi) 0 Nat.one_pos
    have hleft : (ofNumbers csize hpos).value 0 (ofNumbers csize hpos).maxr i 0 =
        contributors csize i :=
      (value_eq_contributions _ 0 0 hi).trans (foldOf_ofNumbers hpos (self_mem_contributors hi))
    have hright : blockFold (ofNumbers csize hpos).op
        (fun j => (ofNumbers csize hpos).input j 0 0) 0 (csize - 1) = Finset.range csize := by
      rw [← foldOf_range _ _ _ (Nat.zero_le _), hlast]
      exact foldOf_ofNumbers hpos (Finset.mem_range.mpr hpos)
    exact hleft.symm.trans (hval.symm.trans (hfull.trans hright))
  · rintro hrange α J cap sync w rfl hcomm hassoc hB hw hc x hx
    have : Std.Commutative J.op := ⟨hcomm⟩
    have : Std.Associative J.op := ⟨hassoc⟩
    obtain ⟨s, h⟩ := worldInv_of_reachable hB hw
    rw [h.result hi hc x hx, value_eq_contributions J _ _ hi, hrange,
      ← foldOf_range J.op _ _ (by omega : i ≤ J.csize - 1), hlast]

theorem completeAt_iff_three : CompleteAt 3 2 ↔ 2 &&& (3 - 1) = 2 := completeAt_iff (by decide)

end Ranks

end Fflib
