import Fflib.Completion

/-!
# For which communicators the allreduce reduces

`AllreduceCorrect csize` is what `test/allreduce.c` checks: after a completed round
every rank holds the reduction of the inputs of all ranks.  It holds iff `csize` is a
power of two (`allreduceCorrect_iff`).  For any other size there is a rank that skips
the last round of the exchange, in which it would have received the contribution of
the upper ranks.
-/

namespace Fflib

open Library

universe u

namespace Ranks

/-- Every rank ends with the reduction of all inputs, for every commutative and
associative operator; the `dependent` arrays are large enough. -/
def AllreduceCorrect (csize : Nat) : Prop :=
  ∀ (α : Type) (J : Ranks α) (cap : Nat) (sync : Bool) (w : World α), J.csize = csize →
    (∀ a b, J.op a b = J.op b a) → (∀ a b c, J.op (J.op a b) c = J.op a (J.op b c)) →
    J.Builds cap → Reachable (worldStep J cap sync 1) (J.initial cap) w →
    (∀ i, i < csize → J.Completed cap w i 1) →
    ∀ i x, i < csize → x < J.n →
      J.rcvbuff w i x = blockFold J.op (fun j => J.input j 0 x) 0 (csize - 1)

section Value

variable {α : Type u} {J : Ranks α}

theorem maxr_of_two_pow {d : Nat} (h : J.csize = 2 ^ d) : J.maxr = d := by
  rw [maxr, h, Nat.clog_pow 2 d (by omega)]

/-- For a power of two, the value after all exchanges is the reduction. -/
theorem value_eq_fold {d : Nat} (h : J.csize = 2 ^ d) (hcomm : ∀ a b, J.op a b = J.op b a)
    (hassoc : ∀ a b c, J.op (J.op a b) c = J.op a (J.op b c)) (m x : Nat) {i : Nat}
    (hi : i < J.csize) :
    J.value m J.maxr i x = blockFold J.op (fun j => J.input j m x) 0 (J.csize - 1) := by
  rw [h] at hi
  rw [value, maxr_of_two_pow h, h]
  exact exchange_eq_fold hcomm hassoc _ hi

@[simp] theorem ofInputs_op (csize n : Nat) (hpos : 0 < csize) (f : α → α → α)
    (input : Nat → Nat → Nat → α) : (ofInputs csize n hpos f input).op = f := by
  funext a b
  simp [op, opFun, ofInputs, ffIdentity]

end Value

/-- The last input enters a sum of natural numbers. -/
theorem le_blockFold_add (v : Nat → Nat) (lo : Nat) :
    ∀ k, v (lo + k) ≤ blockFold (fun a b => a + b) v lo k
  | 0 => le_rfl
  | _ + 1 => Nat.le_add_left _ _

/-- The sum at a rank that skips the last round lacks the inputs of the upper ranks. -/
theorem not_allreduceCorrect {csize d : Nat} (hlt : 2 ^ d < csize) (hle : csize < 2 ^ (d + 1)) :
    ¬ AllreduceCorrect csize := by
  intro hall
  have hpos : 0 < csize := by omega
  set J := ofInputs csize 1 hpos (fun a b => a + b)
    (fun j _ _ => if j < 2 ^ d then 0 else 1) with hJ
  have hop : J.op = fun a b => a + b := ofInputs_op _ _ _ _ _
  have hB : J.Builds (d + 2) := J.builds_iff.mpr ⟨by omega, hle.le⟩
  have hmaxr : J.maxr = d + 1 := by
    refine le_antisymm ((Nat.clog_le_iff_le_pow (by omega)).mpr hle.le) ?_
    exact (Nat.lt_clog_iff_pow_lt (by omega)).mpr hlt
  obtain ⟨w, hw, hcomp⟩ := exists_completed hB false
  have hi : csize - 2 ^ d < csize := by
    have := Nat.two_pow_pos d
    omega
  have hsum := hall Nat J (d + 2) false w rfl (fun a b => by rw [hop]; exact Nat.add_comm a b)
    (fun a b c => by rw [hop]; exact Nat.add_assoc a b c) hB hw hcomp (csize - 2 ^ d) 0 hi
    Nat.one_pos
  obtain ⟨s, h⟩ := worldInv_of_reachable hB hw
  have hval := h.result hi (hcomp _ hi) 0 Nat.one_pos
  have hzero : J.value 0 (d + 1) (csize - 2 ^ d) 0 = 0 := by
    rw [value, hop]
    exact exchange_misses (p := fun y => y = 0) hle hlt.le (by rintro _ _ rfl rfl; rfl)
      (fun j hj => if_pos hj)
  have hlast := le_blockFold_add (fun j => J.input j 0 0) 0 (csize - 1)
  have hone : J.input (0 + (csize - 1)) 0 0 = 1 := if_neg (by omega)
  rw [hmaxr, hzero] at hval
  rw [hval, hop] at hsum
  rw [hone] at hlast
  omega

/-- **Reduction.**  Every rank ends with the reduction of all inputs iff the number of
ranks is a power of two. -/
theorem allreduceCorrect_iff {csize : Nat} (hpos : 0 < csize) :
    AllreduceCorrect csize ↔ ∃ d, csize = 2 ^ d := by
  constructor
  · intro hall
    by_contra hno
    have hne : csize ≠ 2 ^ Nat.log 2 csize := fun heq => hno ⟨_, heq⟩
    have hle := Nat.pow_log_le_self 2 hpos.ne'
    exact not_allreduceCorrect (lt_of_le_of_ne hle hne.symm)
      (Nat.lt_pow_succ_log_self (by omega) csize) hall
  · rintro ⟨d, rfl⟩ α J cap sync w hJ hcomm hassoc hB hw hcomp i x hi hx
    obtain ⟨s, h⟩ := worldInv_of_reachable hB hw
    have hi' : i < J.csize := hJ ▸ hi
    rw [h.result hi' (hcomp i hi) x hx, value_eq_fold hJ hcomm hassoc _ _ hi', hJ]

theorem allreduceCorrect_iff_four : AllreduceCorrect 4 ↔ ∃ d, 4 = 2 ^ d :=
  allreduceCorrect_iff (by decide)

/-- Of three ranks, rank `1` does not receive the input of rank `2`. -/
theorem allreduceCorrect_fails : ¬ ∀ csize, 1 ≤ csize → AllreduceCorrect csize :=
  fun hall => absurd (hall 3 (by decide)) (not_allreduceCorrect (d := 1) (by decide) (by decide))

end Ranks

end Fflib
