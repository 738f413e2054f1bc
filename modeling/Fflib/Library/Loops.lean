import Mathlib.Data.Nat.Notation
import Mathlib.Logic.Basic

/-!
# Loops

* `whileLoop` runs a body that may fail as long as a test holds.  The rule
  `whileLoop_of_counted` is for a loop that makes a known number of iterations: its invariant
  is indexed by the iterations made, and the conclusion is that the loop ends.
* `forLoop` counts an index up.  A loop can be cut in two (`forLoop_add`), and the index can be
  counted from elsewhere (`forLoop_shift`); `forLoop_induction` is the invariant rule.
-/

namespace Fflib
namespace Library

universe u

variable {σ : Type u}

/-- `while (cond s) s = body s`; `none` when the body fails, or when the fuel is used up. -/
def whileLoop (cond : σ → Bool) (body : σ → Option σ) : ℕ → σ → Option σ
  | 0, _ => none
  | fuel + 1, s => if cond s then (body s).bind (whileLoop cond body fuel) else some s

/-- A loop that makes `n` iterations, of which `k` are left. -/
theorem whileLoop_of_counted {cond : σ → Bool} {body : σ → Option σ} {I : ℕ → σ → Prop} {n : ℕ}
    (hgo : ∀ b s, b < n → I b s → cond s = true ∧ ∃ s', body s = some s' ∧ I (b + 1) s')
    (hstop : ∀ s, I n s → cond s = false) :
    ∀ (k b : ℕ) (s : σ), b + k = n → I b s →
      ∃ t, I n t ∧ ∀ fuel, k < fuel → whileLoop cond body fuel s = some t := by
  intro k
  induction k with
  | zero =>
      rintro b s rfl h
      refine ⟨s, h, fun fuel hfuel => ?_⟩
      obtain ⟨fuel, rfl⟩ := Nat.exists_eq_add_of_lt hfuel
      rw [whileLoop, hstop s h]
      rfl
  | succ k ih =>
      intro b s hb h
      obtain ⟨hcond, s', hs, h'⟩ := hgo b s (by omega) h
      obtain ⟨t, ht, hall⟩ := ih (b + 1) s' (by omega) h'
      refine ⟨t, ht, fun fuel hfuel => ?_⟩
      obtain ⟨fuel, rfl⟩ : ∃ f, fuel = f + 1 := ⟨fuel - 1, by omega⟩
      rw [whileLoop, if_pos hcond, hs, Option.bind_some]
      exact hall fuel (by omega)

/-- `for (; k iterations; i++) s = body i s`, from the index `i` on. -/
def forLoop (body : ℕ → σ → σ) : ℕ → ℕ → σ → σ
  | 0, _, s => s
  | k + 1, i, s => forLoop body k (i + 1) (body i s)

variable (body : ℕ → σ → σ)

theorem forLoop_add (k l i : ℕ) (s : σ) :
    forLoop body (k + l) i s = forLoop body l (i + k) (forLoop body k i s) := by
  induction k generalizing i s with
  | zero => rw [Nat.zero_add, Nat.add_zero, forLoop]
  | succ k ih =>
      rw [Nat.succ_add, forLoop, ih, forLoop]
      congr 1
      omega

theorem forLoop_shift (c k i : ℕ) (s : σ) :
    forLoop (fun j => body (c + j)) k i s = forLoop body k (c + i) s := by
  induction k generalizing i s with
  | zero => rfl
  | succ k ih => rw [forLoop, forLoop, ih, Nat.add_assoc]

/-- **Invariant rule** of a counting loop. -/
theorem forLoop_induction {I : ℕ → σ → Prop} {k i : ℕ} {s : σ} (h : I i s)
    (hstep : ∀ j t, i ≤ j → j < i + k → I j t → I (j + 1) (body j t)) :
    I (i + k) (forLoop body k i s) := by
  induction k generalizing i s with
  | zero => exact h
  | succ k ih =>
      have hnext := ih (hstep i s (Nat.le_refl _) (by omega) h)
        fun j t hj hk => hstep j t (by omega) (by omega)
      rwa [Nat.add_assoc, Nat.add_comm 1 k] at hnext

end Library
end Fflib
