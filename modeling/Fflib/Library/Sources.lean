import Fflib.Library.Exchange
import Mathlib.Data.Finset.Fold
import Mathlib.Data.Nat.Bitwise

/-!
# Which values recursive doubling combines

`n` parties exchange as in `Exchange`, and `n` need not be a power of two.  A value that
goes from party `j` to party `i` takes on the digits of `i` one after another, from the
lowest on; it arrives iff all parties on this way exist.

* `sources` are the parties whose values a party has combined (`mem_sources`), each of them
  once (`exchange_eq_fold_sources`).
* `sources_eq_range_iff`: these are all parties iff the binary digits of `i` are among those
  of `n - 1`.
-/

namespace Fflib
namespace Library

universe u

/-- The party at which a value on its way from `j` to `i` is after `t` rounds. -/
def waypoint (i j t : ℕ) : ℕ := j / 2 ^ t * 2 ^ t + i % 2 ^ t

/-- The parties whose values party `i` has combined after `b` rounds. -/
def sources (n : ℕ) : ℕ → ℕ → Finset ℕ
  | 0, i => {i}
  | b + 1, i =>
      if i ^^^ 2 ^ b < n then sources n b (i ^^^ 2 ^ b) ∪ sources n b i else sources n b i

section Ways

variable {i j b t n : ℕ}

@[simp] theorem waypoint_zero : waypoint i j 0 = j := by
  simp [waypoint, Nat.mod_one]

/-- In a common block the way ends. -/
theorem waypoint_of_div_eq (h : j / 2 ^ t = i / 2 ^ t) : waypoint i j t = i := by
  rw [waypoint, h, Nat.mul_comm]
  exact Nat.div_add_mod i (2 ^ t)

/-- The way to the partner is the same until the last round. -/
theorem waypoint_xor (h : t ≤ b) : waypoint (i ^^^ 2 ^ b) j t = waypoint i j t := by
  have hzero : 2 ^ b % 2 ^ t = 0 := Nat.mod_eq_zero_of_dvd (Nat.pow_dvd_pow 2 h)
  rw [waypoint, waypoint, Nat.xor_mod_two_pow, hzero, Nat.xor_zero]

/-- A block is halved into those of a party and of its partner. -/
theorem div_two_pow_succ_eq_iff : j / 2 ^ (b + 1) = i / 2 ^ (b + 1) ↔
    j / 2 ^ b = i / 2 ^ b ∨ j / 2 ^ b = (i ^^^ 2 ^ b) / 2 ^ b := by
  rw [xor_two_pow_div, div_two_pow_succ, div_two_pow_succ]
  rcases xor_one_cases (i / 2 ^ b) with h | h <;> omega

/-- A value arrives iff all parties on its way exist. -/
theorem mem_sources (hi : i < n) :
    j ∈ sources n b i ↔ j / 2 ^ b = i / 2 ^ b ∧ ∀ t, t < b → waypoint i j t < n := by
  induction b generalizing i with
  | zero => simp [sources]
  | succ b ih =>
      have hown := ih hi
      have hlast : (∀ t, t < b + 1 → waypoint i j t < n) ↔
          (∀ t, t < b → waypoint i j t < n) ∧ waypoint i j b < n := by
        simp only [Nat.lt_succ_iff_lt_or_eq, or_imp, forall_and, forall_eq]
      rw [div_two_pow_succ_eq_iff, hlast, sources]
      by_cases hp : i ^^^ 2 ^ b < n
      · have hpartner := ih hp
        have hway : (∀ t, t < b → waypoint (i ^^^ 2 ^ b) j t < n) ↔
            ∀ t, t < b → waypoint i j t < n :=
          forall₂_congr (fun t ht => by rw [waypoint_xor ht.le])
        have hhere : j / 2 ^ b = i / 2 ^ b ∨ j / 2 ^ b = (i ^^^ 2 ^ b) / 2 ^ b →
            waypoint i j b < n := by
          rintro (h | h)
          · rwa [waypoint_of_div_eq h]
          · rwa [← waypoint_xor le_rfl, waypoint_of_div_eq h]
        rw [if_pos hp, Finset.mem_union, hpartner, hown, hway]
        tauto
      · have hhere : waypoint i j b < n ∧ (j / 2 ^ b = i / 2 ^ b ∨
            j / 2 ^ b = (i ^^^ 2 ^ b) / 2 ^ b) ↔ j / 2 ^ b = i / 2 ^ b := by
          refine ⟨fun ⟨hw, h⟩ => h.resolve_right (fun h' => hp ?_), fun h => ⟨?_, Or.inl h⟩⟩
          · rwa [← waypoint_xor le_rfl, waypoint_of_div_eq h'] at hw
          · rwa [waypoint_of_div_eq h]
        rw [if_neg hp, hown]
        tauto

theorem self_mem_sources (hi : i < n) : i ∈ sources n b i :=
  (mem_sources hi).mpr ⟨rfl, fun t _ => by rwa [waypoint_of_div_eq rfl]⟩

/-- Only parties that exist are sources. -/
theorem lt_of_mem_sources (hi : i < n) (h : j ∈ sources n b i) : j < n := by
  obtain ⟨hdiv, hway⟩ := (mem_sources hi).mp h
  cases b with
  | zero =>
      simp only [pow_zero, Nat.div_one] at hdiv
      exact hdiv ▸ hi
  | succ b => simpa using hway 0 (Nat.succ_pos b)

/-- A party and its partner have no source in common. -/
theorem disjoint_sources (hi : i < n) (hp : i ^^^ 2 ^ b < n) :
    Disjoint (sources n b (i ^^^ 2 ^ b)) (sources n b i) := by
  refine Finset.disjoint_left.mpr (fun j hj hj' => ?_)
  have hdiv := ((mem_sources hp).mp hj).1.symm.trans ((mem_sources hi).mp hj').1
  rw [xor_two_pow_div] at hdiv
  rcases xor_one_cases (i / 2 ^ b) with h | h <;> omega

/-- Every binary digit of `i` is one of `m`. -/
theorem and_eq_self_iff {m : ℕ} : i &&& m = i ↔ ∀ t, i % 2 ^ t ≤ m % 2 ^ t := by
  constructor
  · intro h t
    rw [← h, Nat.and_mod_two_pow]
    exact Nat.and_le_right
  · intro h
    refine Nat.eq_of_testBit_eq (fun t => ?_)
    rw [Nat.testBit_and]
    by_cases hi : i.testBit t
    · by_cases hm : m.testBit t
      · rw [hi, hm, Bool.and_self]
      · -- the digits of `i` up to this one are worth more than those of `m`
        have hle := h (t + 1)
        rw [Nat.testBit_eq_decide_div_mod_eq, decide_eq_true_eq] at hi hm
        rw [Nat.mod_pow_succ, Nat.mod_pow_succ, hi, Nat.mod_two_ne_one.mp hm] at hle
        have := Nat.mod_lt m (Nat.two_pow_pos t)
        omega
    · rw [Bool.not_eq_true] at hi
      rw [hi, Bool.false_and]

/-- The value of the last party, on its way. -/
theorem waypoint_last_lt_iff (hn : 0 < n) :
    waypoint i (n - 1) t < n ↔ i % 2 ^ t ≤ (n - 1) % 2 ^ t := by
  have hdm := Nat.div_add_mod' (n - 1) (2 ^ t)
  rw [waypoint]
  omega

/-- The value of another party comes by parties of lower numbers. -/
theorem waypoint_lt_of_last (hj : j < n) (h : i % 2 ^ t ≤ (n - 1) % 2 ^ t) :
    waypoint i j t < n := by
  refine lt_of_le_of_lt ?_ ((waypoint_last_lt_iff (by omega)).mpr h)
  exact Nat.add_le_add_right (Nat.mul_le_mul_right _ (Nat.div_le_div_right (by omega))) _

/-- When all rounds are over, a party has the values of all parties iff its binary digits are
among those of the last party. -/
theorem sources_eq_range_iff (hi : i < n) (hn : n ≤ 2 ^ b) :
    sources n b i = Finset.range n ↔ i &&& (n - 1) = i := by
  rw [and_eq_self_iff]
  constructor
  · intro hall t
    by_cases ht : t < b
    · have hlast : n - 1 ∈ sources n b i := by
        rw [hall, Finset.mem_range]
        omega
      exact (waypoint_last_lt_iff (by omega)).mp (((mem_sources hi).mp hlast).2 t ht)
    · have hpow : 2 ^ b ≤ 2 ^ t := Nat.pow_le_pow_right (by omega) (by omega)
      rw [Nat.mod_eq_of_lt (by omega : i < 2 ^ t), Nat.mod_eq_of_lt (by omega : n - 1 < 2 ^ t)]
      omega
  · intro hmask
    ext j
    rw [Finset.mem_range]
    refine ⟨lt_of_mem_sources hi, fun hj => (mem_sources hi).mpr ⟨?_, fun t _ => ?_⟩⟩
    · rw [Nat.div_eq_of_lt (by omega : j < 2 ^ b), Nat.div_eq_of_lt (by omega : i < 2 ^ b)]
    · exact waypoint_lt_of_last hj (hmask t)

end Ways

section Fold

variable {α : Type u} (f : α → α → α) [Std.Commutative f] [Std.Associative f]

/-- The values of the parties in `s`, of which `i` is one, combined. -/
def foldOf (v : ℕ → α) (s : Finset ℕ) (i : ℕ) : α := (s.erase i).fold f (v i) v

/-- The initial value of a fold may as well be combined last. -/
theorem fold_op_left (v : ℕ → α) (a b : α) (s : Finset ℕ) :
    s.fold f (f a b) v = f a (s.fold f b v) := by
  have h := Multiset.fold_add f a b 0 (s.1.map v)
  rwa [Multiset.fold_zero, Multiset.zero_add] at h

/-- Two disjoint sets of values, combined. -/
theorem foldOf_union (v : ℕ → α) {s s' : Finset ℕ} {i i' : ℕ} (hi : i ∈ s) (hi' : i' ∈ s')
    (hd : Disjoint s' s) : f (foldOf f v s' i') (foldOf f v s i) = foldOf f v (s' ∪ s) i := by
  have hnot : i' ∉ s := Finset.disjoint_left.mp hd hi'
  have hni : i ∉ s' := Finset.disjoint_right.mp hd hi
  have hdis : Disjoint (s'.erase i') (s.erase i) :=
    hd.mono (Finset.erase_subset _ _) (Finset.erase_subset _ _)
  have herase : (s' ∪ s).erase i = insert i' (s'.erase i' ∪ s.erase i) := by
    rw [Finset.erase_union_distrib, Finset.erase_eq_of_notMem hni, ← Finset.insert_union,
      Finset.insert_erase hi']
  have hfresh : i' ∉ s'.erase i' ∪ s.erase i := by
    rw [Finset.mem_union, not_or]
    exact ⟨Finset.notMem_erase i' s', fun h => hnot (Finset.mem_of_mem_erase h)⟩
  have hjoin : ((s'.erase i').disjUnion (s.erase i) hdis).fold f (f (v i') (v i)) v =
      f ((s'.erase i').fold f (v i') v) ((s.erase i).fold f (v i) v) :=
    Finset.fold_disjUnion hdis
  rw [Finset.disjUnion_eq_union, fold_op_left] at hjoin
  rw [foldOf, foldOf, foldOf, herase, Finset.fold_insert hfresh]
  exact hjoin.symm

/-- A party ends with the values of its sources, each of them once. -/
theorem exchange_eq_fold_sources {n : ℕ} (v : ℕ → α) (b : ℕ) {i : ℕ} (hi : i < n) :
    exchange n f v b i = foldOf f v (sources n b i) i := by
  induction b generalizing i with
  | zero => simp [exchange, sources, foldOf]
  | succ b ih =>
      rw [exchange, sources]
      by_cases hp : i ^^^ 2 ^ b < n
      · rw [if_pos hp, if_pos hp, ih hp, ih hi]
        exact foldOf_union f v (self_mem_sources hi) (self_mem_sources hp)
          (disjoint_sources hi hp)
      · rw [if_neg hp, if_neg hp, ih hi]

/-- It does not matter which value is taken first. -/
theorem foldOf_congr (v : ℕ → α) {s : Finset ℕ} {i j : ℕ} (hi : i ∈ s) (hj : j ∈ s) :
    foldOf f v s i = foldOf f v s j := by
  by_cases hij : i = j
  · rw [hij]
  · have hji : j ∈ s.erase i := Finset.mem_erase.mpr ⟨Ne.symm hij, hj⟩
    have hij' : i ∈ s.erase j := Finset.mem_erase.mpr ⟨hij, hi⟩
    have hswap : f (v j) (v i) = f (v i) (v j) := Std.Commutative.comm _ _
    rw [foldOf, foldOf, ← Finset.insert_erase hji, ← Finset.insert_erase hij',
      Finset.fold_insert (Finset.notMem_erase _ _), Finset.fold_insert (Finset.notMem_erase _ _),
      ← fold_op_left f, ← fold_op_left f, Finset.erase_right_comm, hswap]

/-- All values combined, in the order of the parties. -/
theorem foldOf_range (v : ℕ → α) (k : ℕ) {i : ℕ} (hi : i ≤ k) :
    foldOf f v (Finset.range (k + 1)) i = blockFold f v 0 k := by
  induction k generalizing i with
  | zero =>
      obtain rfl : i = 0 := by omega
      simp [foldOf, blockFold]
  | succ k ih =>
      have hlast : k + 1 ∈ Finset.range (k + 1 + 1) := by simp
      have hunion : Finset.range (k + 1) ∪ {k + 1} = Finset.range (k + 1 + 1) := by
        ext j
        simp only [Finset.mem_union, Finset.mem_range, Finset.mem_singleton]
        omega
      have hjoin := foldOf_union f v (Finset.mem_singleton_self (k + 1))
        (Finset.self_mem_range_succ k) (by simp)
      rw [hunion, ih le_rfl] at hjoin
      rw [foldOf_congr f v (Finset.mem_range.mpr (by omega)) hlast, ← hjoin, blockFold,
        Nat.zero_add]
      simp [foldOf]

end Fold

end Library
end Fflib
