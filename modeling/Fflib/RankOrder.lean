import Fflib.Collective
import Fflib.Operator

/-!
# Operators that do not commute

`ffcomp_operator_create` takes a flag `commutative` and stores it in the descriptor of
the operator, and nothing reads it: `ffallreduce` always passes what it has received as
the first argument and its own accumulator as the second.

* `xorFold`: rank `i` ends with the inputs in the order of the ranks `k ^^^ m`, where `m`
  is the complement of `i` (`result_eq_xorFold`).
* `allreduceInRankOrder_iff`: all ranks end with the inputs in rank order iff all these
  orders give the same value.
-/

namespace Fflib

open Library

universe u

/-- The functions behind the handles of a table. -/
def OperatorTable.apply {α : Type u} (T : OperatorTable (α → α → α)) (h : Int) : α → α → α :=
  match ffopGcompOperatorGet h T with
  | some (.ok d) => d.opFun.getD (fun a _ => a)
  | _ => fun a _ => a

theorem apply_of_create {α : Type u} {T T' : OperatorTable (α → α → α)} {f : α → α → α}
    {commutative h : Int} (hc : ffopGcompOperatorCustomCreate f commutative T = some (h, T')) :
    ffCustom ≤ h ∧ T'.apply h = f := by
  obtain ⟨hle, d, hget, hfun⟩ := ffopGcompOperatorGet_of_create hc
  refine ⟨hle, ?_⟩
  rw [OperatorTable.apply, hget]
  simp only [hfun, Option.getD_some]

namespace Ranks

/-- The operator of the collective is a custom one, registered with `commutative = 0`. -/
def Registered {α : Type u} (J : Ranks α) (f : α → α → α) : Prop :=
  ∃ T T', ffopGcompOperatorCustomCreate f 0 T = some (J.operator, T') ∧ J.ops = T'.apply

/-- After a completed round every rank holds the inputs combined in rank order. -/
def InRankOrder {α : Type u} (J : Ranks α) (cap : Nat) : Prop :=
  J.Builds cap ∧
  ∀ (sync : Bool) (w : World α), Reachable (worldStep J cap sync 1) (J.initial cap) w →
    (∀ i, i < J.csize → J.Completed cap w i 1) →
    ∀ i x, i < J.csize → x < J.n →
      J.rcvbuff w i x = blockFold J.op (fun k => J.input k 0 x) 0 (J.csize - 1)

/-- The inputs combined in the order of the ranks `k ^^^ m`. -/
def xorFold {α : Type u} (J : Ranks α) (m x : Nat) : α :=
  blockFold J.op (fun k => J.input (k ^^^ m) 0 x) 0 (J.csize - 1)

section Order

variable {α : Type u} {J : Ranks α} {f : α → α → α} {d : Nat}

theorem Registered.op_eq (h : J.Registered f) : J.op = f := by
  obtain ⟨T, T', hc, hops⟩ := h
  obtain ⟨hle, happly⟩ := apply_of_create hc
  funext a b
  rw [ffCustom] at hle
  rw [op, opFun, if_neg (by rw [ffIdentity]; omega), hops, happly]

/-- What a completed round leaves on rank `i`. -/
theorem result_eq_xorFold {cap : Nat} (hB : J.Builds cap) (hJ : J.csize = 2 ^ d)
    (hassoc : ∀ a b c, J.op (J.op a b) c = J.op a (J.op b c)) {sync : Bool} {w : World α}
    (hw : Reachable (worldStep J cap sync 1) (J.initial cap) w) {i x : Nat}
    (hi : i < J.csize) (hc : J.Completed cap w i 1) (hx : x < J.n) :
    J.rcvbuff w i x = J.xorFold (i ^^^ (2 ^ d - 1)) x := by
  obtain ⟨s, h⟩ := worldInv_of_reachable hB hw
  rw [h.result hi hc x hx, value, maxr_of_two_pow hJ, xorFold]
  rw [hJ] at hi ⊢
  exact exchange_eq_blockFold_xor hassoc _ d le_rfl i hi

/-- Every order is that of some rank. -/
theorem inRankOrder_iff (hJ : J.csize = 2 ^ d)
    (hassoc : ∀ a b c, J.op (J.op a b) c = J.op a (J.op b c)) (cap : Nat) :
    J.InRankOrder (cap + 1) ↔
      2 ^ d ≤ 2 ^ cap ∧ ∀ m x, m < 2 ^ d → x < J.n → J.xorFold m x = J.xorFold 0 x := by
  have hzero : ∀ x, J.xorFold 0 x = blockFold J.op (fun k => J.input k 0 x) 0 (J.csize - 1) := by
    intro x
    simp only [xorFold, Nat.xor_zero]
  have hpos := Nat.two_pow_pos d
  constructor
  · rintro ⟨hB, hall⟩
    refine ⟨hJ ▸ J.builds_succ_iff.mp hB, fun m x hm hx => ?_⟩
    obtain ⟨w, hw, hc⟩ := exists_completed hB false
    have hi : m ^^^ (2 ^ d - 1) < J.csize := by
      rw [hJ]
      exact Nat.xor_lt_two_pow hm (by omega)
    have hres := result_eq_xorFold hB hJ hassoc hw hi (hc _ hi) hx
    rw [Nat.xor_assoc, Nat.xor_self, Nat.xor_zero] at hres
    rw [← hres, hall false w hw hc _ x hi hx, hzero]
  · rintro ⟨hle, hall⟩
    have hB : J.Builds (cap + 1) := J.builds_succ_iff.mpr (hJ.trans_le hle)
    refine ⟨hB, fun sync w hw hc i x hi hx => ?_⟩
    rw [result_eq_xorFold hB hJ hassoc hw hi (hc i hi) hx, ← hzero]
    exact hall _ x (Nat.xor_lt_two_pow (hJ ▸ hi) (by omega)) hx

/-- **Operators that do not commute.**  With `csize = 2 ^ d` every rank ends with the inputs
in rank order iff the schedules fit into their arrays and the inputs have the same value in
the order of the ranks `k ^^^ m`, for every `m`. -/
theorem allreduceInRankOrder_iff (hreg : J.Registered f) (hJ : J.csize = 2 ^ d)
    (hassoc : ∀ a b c, f (f a b) c = f a (f b c)) :
    (J.InRankOrder maxDeps ↔
      2 ^ d ≤ 512 ∧ ∀ m x, m < 2 ^ d → x < J.n → J.xorFold m x = J.xorFold 0 x) ∧
    ∀ cap, J.InRankOrder (cap + 1) ↔
      2 ^ d ≤ 2 ^ cap ∧ ∀ m x, m < 2 ^ d → x < J.n → J.xorFold m x = J.xorFold 0 x := by
  have hop : ∀ a b c, J.op (J.op a b) c = J.op a (J.op b c) := by
    rw [hreg.op_eq]
    exact hassoc
  exact ⟨inRankOrder_iff hJ hop 9, inRankOrder_iff hJ hop⟩

end Order

/-- The tables after the first call of `ffcomp_operator_create`. -/
def firstOperator (f : Nat → Nat → Nat) : OperatorTable (Nat → Nat → Nat) :=
  let T := ffopGcompOperatorInit (fun a b => a + b) (fun a _ => a) (fun _ => ⟨0, none⟩)
  { operators := T.operators
    customOperators := Function.update T.customOperators 0 ⟨ffCustom.toNat, 0, 0, some f⟩
    customIdx := (ffarmanGet T.customIdx).2 }

theorem init_nextBuffer_pos (_ : Nat) : 0 < Lib.init.nextBuffer := by decide

/-- The ranks of `ofInputs`, with the operator that has been registered first. -/
def ofOperator (csize n : Nat) (hpos : 0 < csize) (f : Nat → Nat → Nat)
    (input : Nat → Nat → Nat → Nat) : Ranks Nat where
  csize := csize
  n := n
  tag := 0
  operator := ffCustom
  ops := (firstOperator f).apply
  input := input
  mem₀ i _ := input i 0
  args i := { testArgs csize i n with operator := ffCustom }
  lib₀ _ := Lib.init
  csize_pos := hpos
  csize_eq _ := rfl
  rank_eq _ := rfl
  tag_eq _ := rfl
  operator_eq _ := rfl
  nextBuffer_pos := init_nextBuffer_pos
  count_eq _ _ := rfl
  rcv_ok i h := absurd h (testArgs_not_provided csize i n)
  snd_ok i h := absurd h (testArgs_not_provided csize i n)

theorem registered_ofOperator (csize n : Nat) (hpos : 0 < csize) (f : Nat → Nat → Nat)
    (input : Nat → Nat → Nat → Nat) : (ofOperator csize n hpos f input).Registered f := by
  refine ⟨ffopGcompOperatorInit (fun a b => a + b) (fun a _ => a) (fun _ => ⟨0, none⟩),
    firstOperator f, ?_, rfl⟩
  rfl

/-- Two ranks and the operator that keeps its first argument. -/
theorem allreduceInRankOrder_iff_two :
    ((ofOperator 2 1 (by decide) (fun a _ => a) (fun i _ _ => i)).InRankOrder maxDeps ↔
      2 ^ 1 ≤ 512 ∧ ∀ m x, m < 2 ^ 1 → x < 1 →
        (ofOperator 2 1 (by decide) (fun a _ => a) (fun i _ _ => i)).xorFold m x =
          (ofOperator 2 1 (by decide) (fun a _ => a) (fun i _ _ => i)).xorFold 0 x) :=
  (allreduceInRankOrder_iff (registered_ofOperator 2 1 (by decide) (fun a _ => a)
    (fun i _ _ => i)) (d := 1) rfl (fun _ _ _ => rfl)).1

/-- With this operator rank `0` ends with the input of rank `1`. -/
theorem allreduceInRankOrder_fails :
    ¬ ∀ (J : Ranks Nat) (f : Nat → Nat → Nat) (d : Nat), J.Registered f → J.csize = 2 ^ d →
      (∀ a b c, f (f a b) c = f a (f b c)) → J.InRankOrder maxDeps := by
  intro hall
  have hreg := registered_ofOperator 2 1 (by decide) (fun a _ => a) (fun i _ _ => i)
  have hord := hall _ _ 1 hreg rfl (fun _ _ _ => rfl)
  have hop := hreg.op_eq
  have hfold := ((inRankOrder_iff (d := 1) rfl (by rw [hop]; exact fun _ _ _ => rfl) 9).mp
    hord).2 1 0 (by decide) (by decide)
  simp only [xorFold, hop] at hfold
  exact absurd hfold (by decide)

end Ranks

end Fflib
