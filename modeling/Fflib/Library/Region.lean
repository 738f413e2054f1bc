import Mathlib.Algebra.Order.Ring.Nat

/-!
# Arrays at addresses

An array of `size` cells of `stride` bytes each, from the address `base` on.

* `Region.index?_eq_some_iff`: an address is that of a cell, or of none.
* `Region.addr_congr`: a cell stays where it is in an array that is resized in place.
* `Region.base_eq_of_index?`: in an array at another address no cell is where it was.
-/

namespace Fflib
namespace Library

structure Region where
  base : Nat
  stride : Nat
  size : Nat

namespace Region

/-- The address of a cell. -/
def addr (r : Region) (i : Nat) : Nat := r.base + r.stride * i

/-- The cell at an address. -/
def index? (r : Region) (a : Nat) : Option Nat :=
  if r.base ≤ a ∧ (a - r.base) % r.stride = 0 ∧ (a - r.base) / r.stride < r.size then
    some ((a - r.base) / r.stride)
  else none

variable {r r' : Region} {a i j : Nat}

theorem index?_eq_some_iff (hpos : 0 < r.stride) :
    r.index? a = some i ↔ i < r.size ∧ a = r.addr i := by
  unfold index? addr
  constructor
  · intro h
    split at h
    · next hc =>
        obtain rfl := Option.some.inj h
        have hdiv := Nat.div_add_mod (a - r.base) r.stride
        rw [hc.2.1] at hdiv
        exact ⟨hc.2.2, by omega⟩
    · cases h
  · rintro ⟨hi, rfl⟩
    rw [Nat.add_sub_cancel_left, Nat.mul_mod_right, Nat.mul_div_cancel_left _ hpos]
    rw [if_pos ⟨Nat.le_add_right _ _, rfl, hi⟩]

theorem index?_addr (hpos : 0 < r.stride) (hi : i < r.size) : r.index? (r.addr i) = some i :=
  (index?_eq_some_iff hpos).mpr ⟨hi, rfl⟩

theorem addr_inj (hpos : 0 < r.stride) (h : r.addr i = r.addr j) : i = j :=
  Nat.eq_of_mul_eq_mul_left hpos (Nat.add_left_cancel h)

theorem addr_congr (hbase : r'.base = r.base) (hstride : r'.stride = r.stride) :
    r'.addr i = r.addr i := by
  rw [addr, addr, hbase, hstride]

/-- Two arrays with a cell of one number at one address start at one address. -/
theorem base_eq_of_index? (hpos : 0 < r.stride) (hstride : r'.stride = r.stride)
    (h : r.index? a = some i) (h' : r'.index? a = some i) : r'.base = r.base := by
  have ha := ((index?_eq_some_iff hpos).mp h).2
  have ha' := ((index?_eq_some_iff (hstride ▸ hpos)).mp h').2
  rw [addr] at ha ha'
  rw [hstride] at ha'
  omega

end Region

end Library
end Fflib
