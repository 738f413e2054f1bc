import Mathlib.Data.List.Range
import Mathlib.Logic.Function.Basic

/-!
# Singly linked lists

Cells are linked by `next : β → Option β`; `Linked next h l` says that `l` are the
cells that are reached from the head `h`, in this order.

* `Linked.congr`: only the links of the listed cells matter.
* `Linked.unique`: a head reaches one list only.
* `Linked.push` and `Linked.head_eq`: a cell is linked in front, and taken off.
* `linked_push_iff`: a cell that is linked in front is in no finite list that it was in.
* `Linked.cut`: a list ends at a cell whose link is cleared.
* `linked_range`: consecutive cells, each linked to the next.
-/

namespace Fflib
namespace Library

universe u

section Linked

variable {β : Type u}

/-- The cells reached from `h`. -/
def Linked (next : β → Option β) : Option β → List β → Prop
  | h, [] => h = none
  | h, b :: l => h = some b ∧ Linked next (next b) l

variable {next next' : β → Option β}

@[simp] theorem linked_nil {h : Option β} : Linked next h [] ↔ h = none := Iff.rfl

@[simp] theorem linked_cons {h : Option β} {b : β} {l : List β} :
    Linked next h (b :: l) ↔ h = some b ∧ Linked next (next b) l := Iff.rfl

theorem Linked.congr {l : List β} {h : Option β} (hl : Linked next h l)
    (heq : ∀ b, b ∈ l → next' b = next b) : Linked next' h l := by
  induction l generalizing h with
  | nil => exact hl
  | cons b l ih =>
      refine ⟨hl.1, ?_⟩
      rw [heq b (List.mem_cons_self ..)]
      exact ih hl.2 (fun c hc => heq c (List.mem_cons_of_mem _ hc))

theorem Linked.unique : ∀ {l l' : List β} {h : Option β}, Linked next h l →
    Linked next h l' → l = l'
  | [], [], _, _, _ => rfl
  | [], _ :: _, _, hl, hl' => by
      rw [linked_nil.mp hl] at hl'
      cases hl'.1
  | _ :: _, [], _, hl, hl' => by
      rw [linked_nil.mp hl'] at hl
      cases hl.1
  | b :: l, b' :: l', _, hl, hl' => by
      obtain rfl : b = b' := Option.some.inj (hl.1.symm.trans hl'.1)
      rw [hl.2.unique hl'.2]

/-- The head is the first cell. -/
theorem Linked.head_eq {l : List β} {h : Option β} (hl : Linked next h l) : h = l.head? := by
  cases l with
  | nil => exact hl
  | cons b l => exact hl.1

/-- A cell that is not in the list is linked in front of it. -/
theorem Linked.push [DecidableEq β] {l : List β} {h : Option β} {b : β}
    (hl : Linked next h l) (hb : b ∉ l) :
    Linked (Function.update next b h) (some b) (b :: l) := by
  refine ⟨rfl, ?_⟩
  rw [Function.update_self]
  refine hl.congr (fun c hc => ?_)
  have hcb : c ≠ b := by
    rintro rfl
    exact hb hc
  exact Function.update_of_ne hcb _ _

/-- What follows a cell of a list. -/
theorem Linked.after {l : List β} {h : Option β} (hl : Linked next h l) {b : β}
    (hb : b ∈ l) : ∃ post, Linked next (next b) post ∧ post.length < l.length := by
  induction l generalizing h with
  | nil => cases hb
  | cons c l ih =>
      rcases List.mem_cons.mp hb with rfl | hb
      · exact ⟨l, hl.2, Nat.lt_succ_self _⟩
      · obtain ⟨post, hpost, hlt⟩ := ih hl.2 hb
        exact ⟨post, hpost, Nat.lt_succ_of_lt hlt⟩

/-- No cell of a list leads back to its head. -/
theorem Linked.next_ne {l : List β} {h : Option β} (hl : Linked next h l) {b : β}
    (hb : b ∈ l) : next b ≠ h := by
  intro hback
  obtain ⟨post, hpost, hlt⟩ := hl.after hb
  rw [hback] at hpost
  rw [hpost.unique hl] at hlt
  exact absurd hlt (lt_irrefl _)

/-- Linking a cell in front makes a list only of a list that did not have the cell. -/
theorem linked_push_iff [DecidableEq β] {l : List β} {h : Option β} {b : β} :
    Linked (Function.update next b h) (some b) l ↔
      ∃ l', l = b :: l' ∧ b ∉ l' ∧ Linked next h l' := by
  constructor
  · intro hl
    cases l with
    | nil => cases hl
    | cons c l' =>
        obtain ⟨hc, hl'⟩ := hl
        obtain rfl := Option.some.inj hc
        rw [Function.update_self] at hl'
        have hb : b ∉ l' := by
          intro hmem
          exact hl'.next_ne hmem (Function.update_self ..)
        refine ⟨l', rfl, hb, hl'.congr (fun d hd => ?_)⟩
        have hdb : d ≠ b := by
          rintro rfl
          exact hb hd
        exact (Function.update_of_ne hdb _ _).symm
  · rintro ⟨l', rfl, hb, hl'⟩
    exact hl'.push hb

/-- Clearing the link of a cell shortens the list. -/
theorem Linked.cut [DecidableEq β] (b : β) {l : List β} {h : Option β}
    (hl : Linked next h l) :
    ∃ l', Linked (Function.update next b none) h l' ∧ l' <+: l := by
  induction l generalizing h with
  | nil => exact ⟨[], hl, List.prefix_refl []⟩
  | cons c l ih =>
      by_cases hc : c = b
      · subst hc
        refine ⟨[c], ⟨hl.1, ?_⟩, ⟨l, rfl⟩⟩
        rw [Function.update_self]
        rfl
      · obtain ⟨l', hl', hpre⟩ := ih hl.2
        refine ⟨c :: l', ⟨hl.1, ?_⟩, (List.prefix_cons_inj c).mpr hpre⟩
        rwa [Function.update_of_ne hc]

/-- Consecutive cells, the last one without a successor. -/
theorem linked_range' {cell : ℕ → β} {n : ℕ}
    (hnext : ∀ i, i < n → next (cell i) = if i + 1 < n then some (cell (i + 1)) else none) :
    ∀ k i, i + (k + 1) = n →
      Linked next (some (cell i)) ((List.range' i (k + 1)).map cell) := by
  intro k
  induction k with
  | zero =>
      intro i hi
      refine ⟨rfl, ?_⟩
      rw [hnext i (by omega), if_neg (by omega)]
      rfl
  | succ k ih =>
      intro i hi
      refine ⟨rfl, ?_⟩
      rw [hnext i (by omega), if_pos (by omega)]
      exact ih (i + 1) (by omega)

/-- The cells `0`, …, `n - 1`, each linked to the next. -/
theorem linked_range {cell : ℕ → β} {n : ℕ} (hpos : 0 < n)
    (hnext : ∀ i, i < n → next (cell i) = if i + 1 < n then some (cell (i + 1)) else none) :
    Linked next (some (cell 0)) ((List.range n).map cell) := by
  obtain ⟨k, rfl⟩ : ∃ k, n = k + 1 := ⟨n - 1, by omega⟩
  rw [List.range_eq_range']
  exact linked_range' hnext k 0 (by omega)

end Linked

end Library
end Fflib
