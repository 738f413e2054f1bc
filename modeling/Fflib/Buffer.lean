import Mathlib.Algebra.Group.Nat.Defs
import Fflib.Ffop

/-!
# Buffers and the memory behind them

`struct ffbuffer`, `ffdatatype_size`, and the functions of `ffbuffer.c` on one buffer, after
its block has been taken from the pool.

**Memory.**  The functions of the C library are an `Allocator`, for pointers and memories of
any type.  A call that `ffdatatype_size` rejects leaves the variable for the size unwritten,
and the value that is read from it then comes from the allocator too.

**Integers.**  Counts are `uint32_t`; a number of bytes is a `size_t` of 64 bits.

* `ffbufferResize_null`: the assertion of `ffbuffer_resize`, as it is written, never fails.
* `sizeAllocator`: pointers that know only how many bytes are behind them.
-/

namespace Fflib

universe u

/-- `FFCHAR`, the datatype that `ffdatatype_size` does not know. -/
def ffChar : Int := 4

/-- `FFDATATYPE_NONE`. -/
def ffDatatypeNone : Int := 5

/-- `FFBUFFER_IDX`. -/
def ffbufferIdx : Nat := 1 <<< 6

/-- `ffdatatype_size`; `none` is `FFINVALID_ARG`, and then `*size` is not written. -/
def ffdatatypeSize (datatype : Int) : Option Nat :=
  if datatype = 0 then some 4 -- `FFINT32`
  else if datatype = 1 then some 8 -- `FFINT64`
  else if datatype = 2 then some 8 -- `FFDOUBLE`
  else if datatype = 3 then some 4 -- `FFFLOAT`
  else if datatype = ffDatatypeNone then some 0
  else none

/-- Multiplication on `size_t`. -/
def mulSize (a b : Nat) : Nat := a * b % 2 ^ 64

/-- `a && b`, as a number. -/
def logicalAnd (a b : Nat) : Nat := if a ≠ 0 ∧ b ≠ 0 then 1 else 0

/-- `realloc` (`none` is a null pointer), `free`, the read of a `uint32_t`, the write of the
member `idx` over a pointer, and the value of a variable that was never written. -/
structure Allocator (μ π : Type u) where
  null : π
  realloc : π → Nat → μ → Option (π × μ)
  free : π → μ → μ
  read32 : π → μ → Nat
  writeIdx : Nat → π → π
  junk : μ → Nat × μ

inductive BufferType where
  | ptr
  | idx
deriving DecidableEq

/-- `struct ffbuffer`; `ptr` holds the bits of the union. -/
structure BufferBlock (π : Type u) where
  type : BufferType
  selfalloc : Bool
  ptr : π
  count : Nat
  datatype : Int
  options : Nat

/-- The count and the datatype, on which the other modules work. -/
def BufferBlock.record {π : Type u} (b : BufferBlock π) : Ffbuffer := ⟨b.count, b.datatype⟩

section Functions

variable {μ π : Type u} [DecidableEq π] (A : Allocator μ π)

/-- The size of a datatype, as the caller of `ffdatatype_size` reads it. -/
def Allocator.unitsize (datatype : Int) (m : μ) : Nat × μ :=
  match ffdatatypeSize datatype with
  | some size => (size, m)
  | none => A.junk m

/-- `ffbuffer_resize`; `none` is its assertion. -/
def ffbufferResize (addr : π) (newCount : Nat) (newDatatype : Int) (b : BufferBlock π) (m : μ) :
    Option (Int × BufferBlock π × μ) :=
  if logicalAnd b.options ffbufferIdx = ffbufferIdx then none
  else
    let new := A.unitsize newDatatype m
    let old := A.unitsize b.datatype new.2
    if addr = A.null then
      if b.ptr = A.null ∨ mulSize newCount new.1 > mulSize b.count old.1 then
        match A.realloc b.ptr (mulSize new.1 newCount) old.2 with
        | none => some (ffEnomem, { b with ptr := A.null }, old.2)
        | some (ptr, m') =>
            some (ffSuccess,
              { b with ptr := ptr, count := newCount, datatype := newDatatype }, m')
      else some (ffSuccess, { b with count := newCount, datatype := newDatatype }, old.2)
    else
      some (ffSuccess, { b with ptr := addr, count := newCount, datatype := newDatatype },
        if b.selfalloc then A.free b.ptr old.2 else old.2)

/-- `ffbuffer_create` on the block it has taken; `none` is its assertion. -/
def ffbufferSetup (addr : π) (count : Nat) (datatype : Int) (options : Nat) (m : μ) :
    Option (Int × BufferBlock π × μ) :=
  let selfalloc := decide (addr = A.null)
  if options &&& ffbufferIdx = ffbufferIdx then
    if selfalloc then none
    else
      some (ffSuccess,
        { type := .idx
          selfalloc := selfalloc
          ptr := A.writeIdx (A.read32 addr m) addr
          count := count
          datatype := datatype
          options := options }, m)
  else
    ffbufferResize A addr count datatype
      { type := .ptr
        selfalloc := selfalloc
        ptr := addr
        count := count
        datatype := ffDatatypeNone
        options := options } m

end Functions

/-! ### Small facts -/

theorem logicalAnd_ne (a : Nat) : logicalAnd a ffbufferIdx ≠ ffbufferIdx := by
  unfold logicalAnd
  split <;> decide

theorem ffdatatypeSize_le {datatype : Int} {size : Nat} (h : ffdatatypeSize datatype = some size) :
    size ≤ 8 := by
  unfold ffdatatypeSize at h
  grind

theorem mulSize_eq {count size : Nat} (hcount : count < 2 ^ 32) (hsize : size ≤ 8) :
    mulSize count size = count * size := by
  have h : count * size ≤ 2 ^ 32 * 8 := Nat.mul_le_mul (Nat.le_of_lt hcount) hsize
  exact Nat.mod_eq_of_lt (by omega)

theorem mulSize_comm (a b : Nat) : mulSize a b = mulSize b a := by
  rw [mulSize, mulSize, Nat.mul_comm]

theorem unitsize_of_some {μ π : Type u} {A : Allocator μ π} {datatype : Int} {size : Nat}
    (h : ffdatatypeSize datatype = some size) (m : μ) : A.unitsize datatype m = (size, m) := by
  simp only [Allocator.unitsize, h]

section Resize

variable {μ π : Type u} [DecidableEq π] {A : Allocator μ π}

/-- A buffer that is not an index is created as an empty one that is then resized. -/
theorem ffbufferSetup_eq {addr : π} {count : Nat} {datatype : Int} {options : Nat} {m : μ}
    (h : ¬ options &&& ffbufferIdx = ffbufferIdx) :
    ffbufferSetup A addr count datatype options m = ffbufferResize A addr count datatype
      { type := .ptr
        selfalloc := decide (addr = A.null)
        ptr := addr
        count := count
        datatype := ffDatatypeNone
        options := options } m :=
  if_neg h

/-- A resize by the library, with `new` and `old` for the two calls of `ffdatatype_size`. -/
theorem ffbufferResize_null {count : Nat} {datatype : Int} {b : BufferBlock π} {m : μ}
    {new old : Nat × μ} (hnew : A.unitsize datatype m = new)
    (hold : A.unitsize b.datatype new.2 = old) :
    ffbufferResize A A.null count datatype b m =
      if b.ptr = A.null ∨ mulSize count new.1 > mulSize b.count old.1 then
        match A.realloc b.ptr (mulSize new.1 count) old.2 with
        | none => some (ffEnomem, { b with ptr := A.null }, old.2)
        | some (ptr, m') =>
            some (ffSuccess, { b with ptr := ptr, count := count, datatype := datatype }, m')
      else some (ffSuccess, { b with count := count, datatype := datatype }, old.2) := by
  subst hnew hold
  rw [ffbufferResize, if_neg (logicalAnd_ne _)]
  simp only [if_true]

/-- The memory after the two calls of `ffdatatype_size` in `ffbuffer_resize`. -/
def Allocator.afterSizes (A : Allocator μ π) (datatype : Int) (b : BufferBlock π) (m : μ) : μ :=
  (A.unitsize b.datatype (A.unitsize datatype m).2).2

/-- The number of bytes that `ffbuffer_resize` asks for. -/
def Allocator.request (A : Allocator μ π) (count : Nat) (datatype : Int) (m : μ) : Nat :=
  mulSize (A.unitsize datatype m).1 count

/-- `ffbuffer_resize` with a null address calls `realloc`. -/
def Allocator.NeedsMemory (A : Allocator μ π) (count : Nat) (datatype : Int) (b : BufferBlock π)
    (m : μ) : Prop :=
  b.ptr = A.null ∨ mulSize count (A.unitsize datatype m).1 >
    mulSize b.count (A.unitsize b.datatype (A.unitsize datatype m).2).1

variable {addr : π} {count : Nat} {datatype : Int} {b : BufferBlock π} {m m' : μ} {ptr : π}

/-- A resize to an address of the user. -/
theorem ffbufferResize_user (haddr : addr ≠ A.null) :
    ffbufferResize A addr count datatype b m =
      some (ffSuccess, { b with ptr := addr, count := count, datatype := datatype },
        if b.selfalloc then A.free b.ptr (A.afterSizes datatype b m)
        else A.afterSizes datatype b m) := by
  rw [ffbufferResize, if_neg (logicalAnd_ne _)]
  simp only [if_neg haddr]
  rfl

/-- A resize by the library that needs no memory. -/
theorem ffbufferResize_fits (h : ¬ A.NeedsMemory count datatype b m) :
    ffbufferResize A A.null count datatype b m =
      some (ffSuccess, { b with count := count, datatype := datatype },
        A.afterSizes datatype b m) := by
  rw [ffbufferResize_null rfl rfl]
  exact if_neg h

theorem ffbufferResize_granted (h : A.NeedsMemory count datatype b m)
    (hr : A.realloc b.ptr (A.request count datatype m) (A.afterSizes datatype b m) =
      some (ptr, m')) :
    ffbufferResize A A.null count datatype b m =
      some (ffSuccess, { b with ptr := ptr, count := count, datatype := datatype }, m') := by
  rw [Allocator.request, Allocator.afterSizes] at hr
  rw [Allocator.NeedsMemory] at h
  rw [ffbufferResize_null rfl rfl, if_pos h, hr]

/-- `realloc` answers with a null pointer, which is stored. -/
theorem ffbufferResize_refused (h : A.NeedsMemory count datatype b m)
    (hr : A.realloc b.ptr (A.request count datatype m) (A.afterSizes datatype b m) = none) :
    ffbufferResize A A.null count datatype b m =
      some (ffEnomem, { b with ptr := A.null }, A.afterSizes datatype b m) := by
  rw [Allocator.request, Allocator.afterSizes] at hr
  rw [Allocator.NeedsMemory] at h
  rw [ffbufferResize_null rfl rfl, if_pos h, hr]
  rfl

end Resize

/-! ### Memory by its size -/

/-- A pointer is the number of bytes behind it, and every request is granted; the memory is
the sequence of the values that variables happen to have. -/
def sizeAllocator : Allocator (Nat → Nat) (Option Nat) where
  null := none
  realloc _ size junk := some (some size, junk)
  free _ junk := junk
  read32 _ _ := 0
  writeIdx _ p := p
  junk junk := (junk 0, fun k => junk (k + 1))

/-- The number of bytes behind a buffer. -/
def BufferBlock.room (b : BufferBlock (Option Nat)) : Nat := b.ptr.getD 0

section Size

variable {count : Nat} {datatype : Int} {b : BufferBlock (Option Nat)}

/-- A resize succeeds, and leaves what it was asked for in the record. -/
theorem ffbufferResize_size (addr : Option Nat) (count : Nat) (datatype : Int)
    (b : BufferBlock (Option Nat)) (junk : Nat → Nat) :
    ∃ b' junk', ffbufferResize sizeAllocator addr count datatype b junk =
      some (ffSuccess, b', junk') ∧ b'.count = count ∧ b'.datatype = datatype := by
  rw [ffbufferResize, if_neg (logicalAnd_ne _)]
  simp only
  split
  · split
    · exact ⟨_, _, rfl, rfl, rfl⟩
    · exact ⟨_, _, rfl, rfl, rfl⟩
  · exact ⟨_, _, rfl, rfl, rfl⟩

/-- A buffer grows, and its memory with it, when the size of the datatype is known. -/
theorem ffbufferResize_grows (junk : Nat → Nat) {size : Nat}
    (hsize : ffdatatypeSize datatype = some size)
    (hb : b.datatype = datatype) (hlt : b.count < count) (hcount : count < 2 ^ 32) :
    ∃ b', ffbufferResize sizeAllocator none count datatype b junk = some (ffSuccess, b', junk) ∧
      b'.count = count ∧ b'.datatype = datatype ∧ (0 < size → b'.room = count * size) := by
  have hle := ffdatatypeSize_le hsize
  have hnew : sizeAllocator.unitsize datatype junk = (size, junk) := unitsize_of_some hsize junk
  have hold : sizeAllocator.unitsize b.datatype junk = (size, junk) := by rw [hb, hnew]
  rw [show (none : Option Nat) = sizeAllocator.null from rfl, ffbufferResize_null hnew hold]
  split
  · refine ⟨_, rfl, rfl, rfl, fun _ => ?_⟩
    simp [BufferBlock.room, mulSize_comm size, mulSize_eq hcount hle]
  · next hno =>
      refine ⟨_, rfl, rfl, rfl, fun hpos => ?_⟩
      rw [mulSize_eq hcount hle, mulSize_eq (by omega) hle] at hno
      exact absurd (Or.inr (Nat.mul_lt_mul_of_pos_right hlt hpos)) hno

end Size

end Fflib
