import Mathlib.Data.List.Basic
import Mathlib.Logic.Function.Basic

/-!
# A heap of blocks that watches how it is used

Blocks are numbered in the order in which they are allocated; what is in them is left
out.  A block that is given back a second time is recorded, and nothing else happens
to it.

* `BlockHeap.Later` orders the heaps of one execution; `Later.malloc`, `Later.free` and
  `Later.realloc` say that every operation moves on in this order.
* A block that has been given back stays so (`Later.freed`), and a second use of it stays
  recorded (`Later.misused_ne_nil`).
* `misused_realloc` and `misused_free`: a use of a block that has been given back is
  recorded.
-/

namespace Fflib
namespace Library

/-- The next block, the blocks that are allocated, and those that were given back when they
were not. -/
structure BlockHeap where
  next : Nat
  live : Nat → Bool
  misused : List Nat

namespace BlockHeap

/-- The heap of a program that starts. -/
def empty : BlockHeap := ⟨0, fun _ => false, []⟩

/-- Allocate a new block. -/
def malloc (h : BlockHeap) : Nat × BlockHeap :=
  (h.next, ⟨h.next + 1, Function.update h.live h.next true, h.misused⟩)

/-- Give a block back; a null pointer is left alone. -/
def free (p : Option Nat) (h : BlockHeap) : BlockHeap :=
  match p with
  | none => h
  | some a =>
      if h.live a then ⟨h.next, Function.update h.live a false, h.misused⟩
      else ⟨h.next, h.live, a :: h.misused⟩

/-- Give a block back, and allocate a new one in its place. -/
def realloc (p : Option Nat) (h : BlockHeap) : Nat × BlockHeap := (h.free p).malloc

/-- The block has been allocated and given back. -/
def Freed (h : BlockHeap) (a : Nat) : Prop := a < h.next ∧ h.live a = false

/-- `h'` is a later heap than `h`. -/
structure Later (h h' : BlockHeap) : Prop where
  next_le : h.next ≤ h'.next
  misused_suffix : h.misused <:+ h'.misused
  stays_freed : ∀ a, h.Freed a → h'.live a = false

variable {h h' h'' : BlockHeap} {p : Option Nat} {a : Nat}

theorem Later.refl (h : BlockHeap) : Later h h :=
  ⟨Nat.le_refl _, List.suffix_refl _, fun _ ha => ha.2⟩

theorem Later.freed (hl : Later h h') (ha : h.Freed a) : h'.Freed a :=
  ⟨Nat.lt_of_lt_of_le ha.1 hl.next_le, hl.stays_freed a ha⟩

theorem Later.trans (h₁ : Later h h') (h₂ : Later h' h'') : Later h h'' where
  next_le := Nat.le_trans h₁.next_le h₂.next_le
  misused_suffix := h₁.misused_suffix.trans h₂.misused_suffix
  stays_freed a ha := h₂.stays_freed a (h₁.freed ha)

theorem Later.misused_ne_nil (hl : Later h h') (hm : h.misused ≠ []) : h'.misused ≠ [] :=
  fun hnil => hm (List.suffix_nil.mp (hnil ▸ hl.misused_suffix))

theorem Later.malloc (h : BlockHeap) : Later h h.malloc.2 where
  next_le := Nat.le_succ _
  misused_suffix := List.suffix_refl _
  stays_freed a ha := by
    have hne : a ≠ h.next := Nat.ne_of_lt ha.1
    simpa [BlockHeap.malloc, hne] using ha.2

theorem Later.free (p : Option Nat) (h : BlockHeap) : Later h (h.free p) := by
  cases p with
  | none => exact Later.refl h
  | some a =>
      simp only [BlockHeap.free]
      split
      · refine ⟨Nat.le_refl _, List.suffix_refl _, fun b hb => ?_⟩
        by_cases hba : b = a
        · simp [hba]
        · simpa [hba] using hb.2
      · exact ⟨Nat.le_refl _, List.suffix_cons _ _, fun _ hb => hb.2⟩

theorem Later.realloc (p : Option Nat) (h : BlockHeap) : Later h (h.realloc p).2 :=
  (Later.free p h).trans (Later.malloc _)

@[simp] theorem next_free : (h.free p).next = h.next := by
  cases p with
  | none => rfl
  | some a =>
      simp only [free]
      split <;> rfl

/-- A new block is among those that were allocated. -/
theorem malloc_lt (h : BlockHeap) : h.malloc.1 < h.malloc.2.next := Nat.lt_succ_self _

theorem live_malloc_self (h : BlockHeap) : h.malloc.2.live h.malloc.1 = true := by
  simp [malloc]

theorem live_malloc (ha : h.live a = true) : h.malloc.2.live a = true := by
  by_cases hne : a = h.next
  · simp [malloc, hne]
  · simpa [malloc, hne] using ha

theorem realloc_lt (p : Option Nat) (h : BlockHeap) :
    (h.realloc p).1 < (h.realloc p).2.next := malloc_lt _

/-- A block that was allocated has been given back after a `free`. -/
theorem freed_free (ha : a < h.next) : (h.free (some a)).Freed a := by
  refine ⟨by rwa [next_free], ?_⟩
  simp only [free]
  split
  · simp
  · next hno => simpa using hno

/-- A second `free` is recorded. -/
theorem misused_free (ha : h.Freed a) : (h.free (some a)).misused ≠ [] := by
  simp [free, ha.2]

/-- A `realloc` of a block that has been given back is recorded. -/
theorem misused_realloc (ha : h.Freed a) : (h.realloc (some a)).2.misused ≠ [] :=
  (Later.malloc _).misused_ne_nil (misused_free ha)

end BlockHeap

end Library
end Fflib
