import Mathlib.Data.Nat.Bitwise
import Mathlib.Data.Nat.Log
import Mathlib.Tactic.Ring

/-!
# Recursive doubling

`n` parties, numbered from `0`, hold one value each.  In round `b` party `i`
combines its value with that of party `i ^^^ 2 ^ b`, and skips the round when
there is no such party.

* `exchange` is the value of a party after `b` rounds.
* For `n = 2 ^ d` and a commutative operation, parties of one aligned block of
  `2 ^ b` hold the same value (`exchange_congr_block`), and for a commutative
  and associative one it is the fold of the block (`exchange_eq_blockFold`).
* For an associative operation alone, party `i` holds the fold of all values in the
  order of the parties `k ^^^ m`, with `m` the complement of `i`
  (`exchange_eq_blockFold_xor`).
* For other `n`, some party never receives the value of party `2 ^ d`
  (`exchange_misses`).
-/

namespace Fflib
namespace Library

universe u

section Xor

variable {i j b d : ℕ}

theorem xor_two_pow_div : (i ^^^ 2 ^ b) / 2 ^ b = i / 2 ^ b ^^^ 1 := by
  rw [Nat.xor_div_two_pow, Nat.div_self (Nat.two_pow_pos b)]

theorem xor_two_pow_mod : (i ^^^ 2 ^ b) % 2 ^ b = i % 2 ^ b := by
  rw [Nat.xor_mod_two_pow, Nat.mod_self, Nat.xor_zero]

theorem xor_two_pow_ne : i ^^^ 2 ^ b ≠ i := by
  intro h
  have h0 : i ^^^ (i ^^^ 2 ^ b) = i ^^^ i := by rw [h]
  rw [← Nat.xor_assoc, Nat.xor_self, Nat.zero_xor] at h0
  exact (Nat.two_pow_pos b).ne' h0

@[simp] theorem xor_two_pow_cancel : (i ^^^ 2 ^ b) ^^^ 2 ^ b = i := by
  rw [Nat.xor_assoc, Nat.xor_self, Nat.xor_zero]

theorem xor_two_pow_lt (hi : i < 2 ^ d) (hb : b < d) : i ^^^ 2 ^ b < 2 ^ d :=
  Nat.xor_lt_two_pow hi (Nat.pow_lt_pow_right (by omega) hb)

/-- Only one bit leads from one party to another. -/
theorem xor_two_pow_inj {c : ℕ} (h : i ^^^ 2 ^ b = i ^^^ 2 ^ c) : b = c := by
  have hpow : i ^^^ (i ^^^ 2 ^ b) = i ^^^ (i ^^^ 2 ^ c) := by rw [h]
  rw [← Nat.xor_assoc, ← Nat.xor_assoc, Nat.xor_self, Nat.zero_xor, Nat.zero_xor] at hpow
  exact Nat.pow_right_injective le_rfl hpow

theorem div_two_pow_succ : i / 2 ^ (b + 1) = i / 2 ^ b / 2 := by
  rw [pow_succ, Nat.div_div_eq_div_mul]

/-- The parties of the upper half of a block, from those of the lower half. -/
theorem two_pow_xor_eq_add {k : ℕ} (hk : k < 2 ^ b) : 2 ^ b ^^^ k = 2 ^ b + k := by
  have hdiv : (2 ^ b ^^^ k) / 2 ^ b = 1 := by
    rw [Nat.xor_div_two_pow, Nat.div_self (Nat.two_pow_pos b), Nat.div_eq_of_lt hk, Nat.xor_zero]
  have hmod : (2 ^ b ^^^ k) % 2 ^ b = k := by
    rw [Nat.xor_mod_two_pow, Nat.mod_self, Nat.zero_xor, Nat.mod_eq_of_lt hk]
  have := Nat.div_add_mod (2 ^ b ^^^ k) (2 ^ b)
  rw [hdiv, hmod] at this
  omega

theorem two_pow_succ_sub_one : 2 ^ (b + 1) - 1 = 2 ^ b ^^^ (2 ^ b - 1) := by
  have hpos := Nat.two_pow_pos b
  rw [two_pow_xor_eq_add (by omega), pow_succ]
  omega

/-- The partner is the other half of the block. -/
theorem xor_one_cases (k : ℕ) :
    (k % 2 = 0 ∧ k ^^^ 1 = k + 1) ∨ (k % 2 = 1 ∧ k = (k ^^^ 1) + 1) := by
  rcases Nat.mod_two_eq_zero_or_one k with h | h
  · exact Or.inl ⟨h, Nat.xor_one_of_even (Nat.even_iff.mpr h)⟩
  · refine Or.inr ⟨h, ?_⟩
    rw [Nat.xor_one_of_odd (Nat.odd_iff.mpr h)]
    omega

end Xor

section Exchange

variable {α : Type u}

/-- The value of party `i` after `b` rounds. -/
def exchange (n : ℕ) (f : α → α → α) (v : ℕ → α) : ℕ → ℕ → α
  | 0, i => v i
  | b + 1, i =>
      if i ^^^ 2 ^ b < n then f (exchange n f v b (i ^^^ 2 ^ b)) (exchange n f v b i)
      else exchange n f v b i

/-- The fold of the `k + 1` values from `lo` on. -/
def blockFold (f : α → α → α) (v : ℕ → α) (lo : ℕ) : ℕ → α
  | 0 => v lo
  | k + 1 => f (blockFold f v lo k) (v (lo + k + 1))

theorem blockFold_append {f : α → α → α} (hassoc : ∀ x y z, f (f x y) z = f x (f y z))
    (v : ℕ → α) (lo k : ℕ) :
    ∀ m, f (blockFold f v lo k) (blockFold f v (lo + k + 1) m) =
      blockFold f v lo (k + 1 + m)
  | 0 => rfl
  | m + 1 => by
      have ih := blockFold_append hassoc v lo k m
      rw [blockFold, ← hassoc, ih, ← Nat.add_assoc, blockFold]
      congr 2
      omega

/-- A round in which nobody has a partner changes nothing. -/
theorem exchange_eq_of_skipped (n : ℕ) (f : α → α → α) (v : ℕ → α) (i b : ℕ) :
    ∀ c, b ≤ c → (∀ e, b ≤ e → e < c → ¬ i ^^^ 2 ^ e < n) →
      exchange n f v c i = exchange n f v b i := by
  intro c hbc
  induction c, hbc using Nat.le_induction with
  | base => intro _; rfl
  | succ c hbc ih =>
      intro hskip
      rw [exchange, if_neg (hskip c hbc (Nat.lt_succ_self c))]
      exact ih (fun e hbe hec => hskip e hbe (Nat.lt_succ_of_lt hec))

/-- What holds of the values of the parties below `2 ^ d` and is kept by the operation
holds of their values as long as they exchange with each other only. -/
theorem exchange_mem {n d : ℕ} {f : α → α → α} {v : ℕ → α} {p : α → Prop}
    (hp : ∀ x y, p x → p y → p (f x y)) (hv : ∀ i, i < 2 ^ d → p (v i)) :
    ∀ b, b ≤ d → ∀ i, i < 2 ^ d → p (exchange n f v b i) := by
  intro b
  induction b with
  | zero => exact fun _ i hi => hv i hi
  | succ b ih =>
      intro hb i hi
      replace ih := ih (by omega)
      rw [exchange]
      split
      · exact hp _ _ (ih _ (xor_two_pow_lt hi (by omega))) (ih i hi)
      · exact ih i hi

/-- When `n` is not a power of two, party `n - 2 ^ d` only ever combines the values of
the parties below `2 ^ d`. -/
theorem exchange_misses {n d : ℕ} {f : α → α → α} {v : ℕ → α} {p : α → Prop}
    (hlt : n < 2 ^ (d + 1)) (hle : 2 ^ d ≤ n) (hp : ∀ x y, p x → p y → p (f x y))
    (hv : ∀ i, i < 2 ^ d → p (v i)) : p (exchange n f v (d + 1) (n - 2 ^ d)) := by
  have hi : n - 2 ^ d < 2 ^ d := by
    rw [pow_succ] at hlt
    omega
  have hskip : ¬ (n - 2 ^ d) ^^^ 2 ^ d < n := by
    have hdiv := xor_two_pow_div (i := n - 2 ^ d) (b := d)
    have hmod := xor_two_pow_mod (i := n - 2 ^ d) (b := d)
    rw [Nat.div_eq_of_lt hi, Nat.zero_xor] at hdiv
    rw [Nat.mod_eq_of_lt hi] at hmod
    have := Nat.div_add_mod ((n - 2 ^ d) ^^^ 2 ^ d) (2 ^ d)
    rw [hdiv, hmod] at this
    omega
  rw [exchange, if_neg hskip]
  exact exchange_mem hp hv d le_rfl _ hi

/-- Parties of one aligned block agree, by commutativity alone. -/
theorem exchange_congr_block {d : ℕ} {f : α → α → α} (hcomm : ∀ x y, f x y = f y x)
    (v : ℕ → α) :
    ∀ b, b ≤ d → ∀ i j, i < 2 ^ d → j < 2 ^ d → i / 2 ^ b = j / 2 ^ b →
      exchange (2 ^ d) f v b i = exchange (2 ^ d) f v b j := by
  intro b
  induction b with
  | zero =>
      intro _ i j _ _ hij
      simp only [pow_zero, Nat.div_one] at hij
      rw [hij]
  | succ b ih =>
      intro hb i j hi hj hij
      replace ih := ih (by omega)
      have hi' := xor_two_pow_lt hi (show b < d by omega)
      have hj' := xor_two_pow_lt hj (show b < d by omega)
      have hdi := xor_two_pow_div (i := i) (b := b)
      have hdj := xor_two_pow_div (i := j) (b := b)
      rw [div_two_pow_succ, div_two_pow_succ] at hij
      rw [exchange, exchange, if_pos hi', if_pos hj']
      by_cases hsame : i / 2 ^ b = j / 2 ^ b
      · rw [ih i j hi hj hsame, ih _ _ hi' hj' (by rw [hdi, hdj, hsame])]
      · have hother : i / 2 ^ b = (j ^^^ 2 ^ b) / 2 ^ b ∧
            (i ^^^ 2 ^ b) / 2 ^ b = j / 2 ^ b := by
          rw [hdi, hdj]
          have h1 := xor_one_cases (i / 2 ^ b)
          have h2 := xor_one_cases (j / 2 ^ b)
          omega
        rw [ih i _ hi hj' hother.1, ih _ j hi' hj hother.2, hcomm]

/-- The value of a party is the fold of its aligned block. -/
theorem exchange_eq_blockFold {d : ℕ} {f : α → α → α} (hcomm : ∀ x y, f x y = f y x)
    (hassoc : ∀ x y z, f (f x y) z = f x (f y z)) (v : ℕ → α) :
    ∀ b, b ≤ d → ∀ i, i < 2 ^ d →
      exchange (2 ^ d) f v b i = blockFold f v (i / 2 ^ b * 2 ^ b) (2 ^ b - 1) := by
  intro b
  induction b with
  | zero => exact fun _ i _ => by simp [exchange, blockFold]
  | succ b ih =>
      intro hb i hi
      replace ih := ih (by omega)
      have hi' := xor_two_pow_lt hi (show b < d by omega)
      have hpos := Nat.two_pow_pos b
      have hjoin : ∀ k, f (blockFold f v (2 * k * 2 ^ b) (2 ^ b - 1))
            (blockFold f v ((2 * k + 1) * 2 ^ b) (2 ^ b - 1)) =
          blockFold f v (k * 2 ^ (b + 1)) (2 ^ (b + 1) - 1) := by
        intro k
        have hlo : 2 * k * 2 ^ b = k * 2 ^ (b + 1) := by rw [pow_succ]; ring
        have hmid : (2 * k + 1) * 2 ^ b = k * 2 ^ (b + 1) + (2 ^ b - 1) + 1 := by
          rw [Nat.add_mul, hlo]
          omega
        rw [hmid, hlo, blockFold_append hassoc]
        congr 1
        rw [pow_succ]
        omega
      rw [exchange, if_pos hi', ih _ hi', ih i hi, xor_two_pow_div, div_two_pow_succ]
      generalize i / 2 ^ b = q
      rcases xor_one_cases q with ⟨hmod, hx⟩ | ⟨hmod, hx⟩
      · obtain ⟨k, rfl⟩ : ∃ k, q = 2 * k := ⟨q / 2, by omega⟩
        rw [hx, hcomm, hjoin, Nat.mul_div_cancel_left k (by omega)]
      · obtain ⟨k, rfl⟩ : ∃ k, q = 2 * k + 1 := ⟨q / 2, by omega⟩
        have hk : (2 * k + 1) ^^^ 1 = 2 * k := by omega
        have hhalf : (2 * k + 1) / 2 = k := by omega
        rw [hk, hjoin, hhalf]

/-- After `d` rounds every one of `2 ^ d` parties holds the fold of all values. -/
theorem exchange_eq_fold {d : ℕ} {f : α → α → α} (hcomm : ∀ x y, f x y = f y x)
    (hassoc : ∀ x y z, f (f x y) z = f x (f y z)) (v : ℕ → α) {i : ℕ} (hi : i < 2 ^ d) :
    exchange (2 ^ d) f v d i = blockFold f v 0 (2 ^ d - 1) := by
  rw [exchange_eq_blockFold hcomm hassoc v d le_rfl i hi, Nat.div_eq_of_lt hi, Nat.zero_mul]

/-- Only the values that are folded matter. -/
theorem blockFold_congr {f : α → α → α} {v w : ℕ → α} {lo lo' : ℕ} :
    ∀ k, (∀ j, j ≤ k → v (lo + j) = w (lo' + j)) →
      blockFold f v lo k = blockFold f w lo' k := by
  intro k
  induction k with
  | zero => exact fun h => h 0 le_rfl
  | succ k ih =>
      intro h
      rw [blockFold, blockFold, ih (fun j hj => h j (by omega))]
      exact congrArg _ (h (k + 1) le_rfl)

/-- The fold of a block of `2 ^ (b + 1)` values, in the order of the parties `k ^^^ m`. -/
theorem blockFold_xor_succ {f : α → α → α} (hassoc : ∀ x y z, f (f x y) z = f x (f y z))
    (v : ℕ → α) (b m : ℕ) :
    f (blockFold f (fun k => v (k ^^^ m)) 0 (2 ^ b - 1))
        (blockFold f (fun k => v (k ^^^ (m ^^^ 2 ^ b))) 0 (2 ^ b - 1)) =
      blockFold f (fun k => v (k ^^^ m)) 0 (2 ^ (b + 1) - 1) := by
  have hpos := Nat.two_pow_pos b
  have hupper : blockFold f (fun k => v (k ^^^ (m ^^^ 2 ^ b))) 0 (2 ^ b - 1) =
      blockFold f (fun k => v (k ^^^ m)) (0 + (2 ^ b - 1) + 1) (2 ^ b - 1) := by
    refine blockFold_congr _ (fun j hj => ?_)
    have hadd := two_pow_xor_eq_add (b := b) (k := j) (by omega)
    have hlo : 0 + (2 ^ b - 1) + 1 + j = 2 ^ b ^^^ j := by omega
    rw [hlo, Nat.zero_add, Nat.xor_comm m, ← Nat.xor_assoc, Nat.xor_comm j]
  rw [hupper, blockFold_append hassoc]
  congr 1
  rw [pow_succ]
  omega

/-- The order in which a party combines the values of its block, by associativity alone. -/
theorem exchange_eq_blockFold_xor {d : ℕ} {f : α → α → α}
    (hassoc : ∀ x y z, f (f x y) z = f x (f y z)) (v : ℕ → α) :
    ∀ b, b ≤ d → ∀ i, i < 2 ^ d →
      exchange (2 ^ d) f v b i =
        blockFold f (fun k => v (k ^^^ (i ^^^ (2 ^ b - 1)))) 0 (2 ^ b - 1) := by
  intro b
  induction b with
  | zero => exact fun _ i _ => by simp [exchange, blockFold]
  | succ b ih =>
      intro hb i hi
      replace ih := ih (by omega)
      have hi' := xor_two_pow_lt hi (show b < d by omega)
      have hpartner : (i ^^^ 2 ^ b) ^^^ (2 ^ b - 1) = i ^^^ (2 ^ (b + 1) - 1) := by
        rw [two_pow_succ_sub_one, Nat.xor_assoc]
      have hown : i ^^^ (2 ^ b - 1) = (i ^^^ (2 ^ (b + 1) - 1)) ^^^ 2 ^ b := by
        rw [← hpartner, Nat.xor_assoc, Nat.xor_comm (2 ^ b - 1), ← Nat.xor_assoc,
          xor_two_pow_cancel]
      rw [exchange, if_pos hi', ih _ hi', ih i hi, hpartner, hown]
      exact blockFold_xor_succ hassoc v b _

end Exchange

end Library
end Fflib
