import Fflib.Buffer
import Fflib.Library.Loops
import Fflib.Operator
import Fflib.Storage

/-!
# The built-in kernels

The macros `SUM` and `VSUM`, `ffop_gcomp_operator_sum` and `ffop_gcomp_operator_copy`, on one
memory of bytes in which the three arrays lie anywhere.

**Accesses.**  A kernel keeps a log of what it reads and writes: the parameter it reaches the
bytes through, their address and their number.

**Elements.**  A `TYPE` is its size and its addition on the numbers that the bytes stand for.
The additions of the integers wrap around; those of the floating point types are parameters.

* `sum_add`: the plain loop can be cut at every element.
* `sum_log` and `sum_frame` say what the plain loop touches.
* `vsum_eq`: the blocked loop is the plain one.
-/

namespace Fflib

open Library

/-! ### Memory -/

/-- The number that `n` bytes stand for, the first one being the lowest. -/
def loadBytes (mem : Nat → UInt8) (addr : Nat) : Nat → Nat
  | 0 => 0
  | n + 1 => (mem addr).toNat + 2 ^ 8 * loadBytes mem (addr + 1) n

/-- The memory with `n` bytes of `value` at `addr`. -/
def storeBytes (mem : Nat → UInt8) (addr n value : Nat) : Nat → UInt8 :=
  fun x => if addr ≤ x ∧ x < addr + n then UInt8.ofNat (value / 2 ^ (8 * (x - addr))) else mem x

/-- The parameters of a kernel. -/
inductive KernelArg where
  | a
  | b
  | c
deriving DecidableEq

/-- `n` bytes at `addr`, reached through a parameter. -/
structure Access where
  arg : KernelArg
  write : Bool
  addr : Nat
  bytes : Nat
deriving DecidableEq

/-- The memory, and what has been read and written, in order. -/
structure KernelState where
  mem : Nat → UInt8
  log : List Access

/-- A read of `n` bytes. -/
def KernelState.read (s : KernelState) (arg : KernelArg) (addr n : Nat) : Nat × KernelState :=
  (loadBytes s.mem addr n, { s with log := s.log ++ [⟨arg, false, addr, n⟩] })

/-- A write of `n` bytes. -/
def KernelState.write (s : KernelState) (arg : KernelArg) (addr n value : Nat) : KernelState where
  mem := storeBytes s.mem addr n value
  log := s.log ++ [⟨arg, true, addr, n⟩]

/-! ### The macros -/

/-- A `TYPE` of the macros. -/
structure ElemType where
  size : Nat
  add : Nat → Nat → Nat

/-- `&(((TYPE *)p)[i])`. -/
def ElemType.elem (T : ElemType) (p i : Nat) : Nat := p + i * T.size

/-- `((TYPE *)C)[i] = ((TYPE *)A)[i] + ((TYPE *)B)[i]`. -/
def sumElement (T : ElemType) (a b c i : Nat) (s : KernelState) : KernelState :=
  let x := s.read .a (T.elem a i) T.size
  let y := x.2.read .b (T.elem b i) T.size
  y.2.write .c (T.elem c i) T.size (T.add x.1 y.1)

/-- `SUM`; `i` stays below `SIZE`, so that `i++` does not wrap around. -/
def sum (T : ElemType) (a b c size : Nat) (s : KernelState) : KernelState :=
  forLoop (sumElement T a b c) size 0 s

/-- `BLOCK`. -/
def block : Nat := 1024

/-- The loop of `VSUM`: `to_reduce` at its end, and the state. -/
def vsumLoop (T : ElemType) (a b c size : Nat) (toReduce : Nat) (s : KernelState) :
    Nat × KernelState :=
  if block ≤ toReduce then
    let offset := subU32 size toReduce
    vsumLoop T a b c size (toReduce - block)
      (sum T (T.elem a offset) (T.elem b offset) (T.elem c offset) block s)
  else (toReduce, s)
termination_by toReduce
decreasing_by
  have : 0 < block := by decide
  omega

/-- `VSUM`. -/
def vsum (T : ElemType) (a b c size : Nat) (s : KernelState) : KernelState :=
  let r := vsumLoop T a b c size size s
  let offset := subU32 size r.1
  sum T (T.elem a offset) (T.elem b offset) (T.elem c offset) r.1 r.2

/-! ### The functions of the operators -/

/-- `int32_t` and `int64_t`, whose additions wrap around. -/
def int32Type : ElemType := ⟨4, fun x y => (x + y) % 2 ^ 32⟩
def int64Type : ElemType := ⟨8, fun x y => (x + y) % 2 ^ 64⟩

/-- The additions of `float` and `double`, on the numbers that their bytes stand for. -/
structure FloatAdd where
  float : Nat → Nat → Nat
  double : Nat → Nat → Nat

/-- The `TYPE` that `ffop_gcomp_operator_sum` takes for a datatype. -/
def sumType (fp : FloatAdd) (type : Int) : Option ElemType :=
  if type = 0 then some int32Type -- `FFINT32`
  else if type = 1 then some int64Type -- `FFINT64`
  else if type = 2 then some ⟨8, fp.double⟩ -- `FFDOUBLE`
  else if type = 3 then some ⟨4, fp.float⟩ -- `FFFLOAT`
  else none

/-- The type of `op_fun`. -/
def OpFun : Type :=
  (a b c size : Nat) → (type : Int) → KernelState → Int × KernelState

/-- `ffop_gcomp_operator_sum`. -/
def ffopGcompOperatorSum (fp : FloatAdd) : OpFun := fun a b c size type s =>
  match sumType fp type with
  | some T => (ffSuccess, vsum T a b c size s)
  | none => (ffInvalidArg, s)

/-- `memcpy(c, a, n)`. -/
def memcpyBytes (c a n : Nat) (s : KernelState) : KernelState where
  mem := fun x => if c ≤ x ∧ x < c + n then s.mem (a + (x - c)) else s.mem x
  log := s.log ++ [⟨.a, false, a, n⟩, ⟨.c, true, c, n⟩]

/-- `ffop_gcomp_operator_copy`; `junk` is what `unitsize` holds when it is not written. -/
def ffopGcompOperatorCopy (junk : Nat) : OpFun := fun a _ c size type s =>
  (ffSuccess, memcpyBytes c a (mulSize size ((ffdatatypeSize type).getD junk)) s)

/-! ### The plain loop -/

section Sum

variable (T : ElemType) (a b c : Nat)

@[simp] theorem sum_zero (s : KernelState) : sum T a b c 0 s = s := rfl

theorem ElemType.elem_add (p i j : Nat) : T.elem (T.elem p i) j = T.elem p (i + j) := by
  simp only [ElemType.elem, Nat.add_mul, Nat.add_assoc]

/-- An element of the arrays behind their first `k`. -/
theorem sumElement_elem (k : Nat) :
    sumElement T (T.elem a k) (T.elem b k) (T.elem c k) = fun i => sumElement T a b c (k + i) := by
  funext i s
  simp only [sumElement, T.elem_add]

/-- The loop over `k + l` elements is the one over the first `k`, and then the one over the
arrays behind these. -/
theorem sum_add (k l : Nat) (s : KernelState) :
    sum T a b c (k + l) s =
      sum T (T.elem a k) (T.elem b k) (T.elem c k) l (sum T a b c k s) := by
  rw [sum, sum, sum, forLoop_add, sumElement_elem, forLoop_shift]
  simp only [Nat.zero_add, Nat.add_zero]

/-- What one element touches. -/
def elementAccesses (i : Nat) : List Access :=
  [⟨.a, false, T.elem a i, T.size⟩, ⟨.b, false, T.elem b i, T.size⟩, ⟨.c, true, T.elem c i, T.size⟩]

theorem sumElement_log (i : Nat) (s : KernelState) :
    (sumElement T a b c i s).log = s.log ++ elementAccesses T a b c i := by
  simp [sumElement, KernelState.read, KernelState.write, elementAccesses]

theorem sumElement_frame (i : Nat) (s : KernelState) {x : Nat}
    (h : x < T.elem c i ∨ T.elem c i + T.size ≤ x) : (sumElement T a b c i s).mem x = s.mem x :=
  if_neg (by omega)

/-- The elements are processed once each, in order. -/
theorem sum_log (size : Nat) (s : KernelState) :
    (sum T a b c size s).log = s.log ++ (List.range size).flatMap (elementAccesses T a b c) := by
  have hinv := forLoop_induction (sumElement T a b c)
    (I := fun j t => t.log = s.log ++ (List.range j).flatMap (elementAccesses T a b c))
    (k := size) (i := 0) (s := s) (by simp) ?_
  · rwa [Nat.zero_add] at hinv
  · intro j t _ _ ht
    rw [sumElement_log, ht, List.range_succ, List.flatMap_append, List.append_assoc]
    simp

theorem ElemType.elem_le {i n : Nat} (h : i < n) (p : Nat) :
    p ≤ T.elem p i ∧ T.elem p i + T.size ≤ p + n * T.size := by
  have hmul : (i + 1) * T.size ≤ n * T.size := Nat.mul_le_mul_right _ h
  rw [Nat.add_mul, Nat.one_mul] at hmul
  rw [ElemType.elem]
  omega

/-- What is not an element of the destination keeps its bytes. -/
theorem sum_frame (size : Nat) (s : KernelState) {x : Nat}
    (h : x < c ∨ c + size * T.size ≤ x) : (sum T a b c size s).mem x = s.mem x := by
  refine forLoop_induction _ (I := fun _ (t : KernelState) => t.mem x = s.mem x) (i := 0) rfl ?_
  intro j t _ hj ht
  have helem := T.elem_le (show j < size by omega) c
  rw [sumElement_frame T a b c j t (by omega), ht]

end Sum

/-! ### The blocked loop -/

theorem subU32_eq {size k : Nat} (hsize : size < 2 ^ 32) (hk : k ≤ size) :
    subU32 size k = size - k := by
  rw [subU32]
  omega

/-- The invariant of the loop: the plain loop has been run on all but the last `to_reduce`
elements. -/
theorem vsumLoop_spec (T : ElemType) (a b c : Nat) {size : Nat} (hsize : size < 2 ^ 32)
    (s₀ : KernelState) (toReduce : Nat) (s : KernelState) (hle : toReduce ≤ size)
    (hs : s = sum T a b c (size - toReduce) s₀) :
    (vsumLoop T a b c size toReduce s).1 ≤ size ∧
      (vsumLoop T a b c size toReduce s).2 =
        sum T a b c (size - (vsumLoop T a b c size toReduce s).1) s₀ := by
  induction toReduce using Nat.strongRecOn generalizing s with
  | _ toReduce ih =>
      rw [vsumLoop]
      by_cases hblock : block ≤ toReduce
      · have hpos : 0 < block := by decide
        have hcut : size - (toReduce - block) = size - toReduce + block := by omega
        rw [if_pos hblock]
        refine ih (toReduce - block) (by omega) _ (by omega) ?_
        rw [hcut, sum_add, subU32_eq hsize hle, hs]
      · rw [if_neg hblock]
        exact ⟨hle, hs⟩

/-- The blocked loop does what the plain one does. -/
theorem vsum_eq (T : ElemType) (a b c : Nat) {size : Nat} (hsize : size < 2 ^ 32)
    (s : KernelState) : vsum T a b c size s = sum T a b c size s := by
  obtain ⟨hle, hmem⟩ := vsumLoop_spec T a b c hsize s size s (Nat.le_refl _)
    (by rw [Nat.sub_self, sum_zero])
  have hcut := Nat.sub_add_cancel hle
  rw [vsum, hmem, subU32_eq hsize hle, ← sum_add, hcut]

/-- `VSUM` leaves the memory that `SUM` leaves; it processes each index once and in order, and
writes nothing behind the last one. -/
theorem vsum_refines_sum (T : ElemType) (a b c : Nat) {size : Nat} (hsize : size < 2 ^ 32)
    (s : KernelState) :
    (vsum T a b c size s).mem = (sum T a b c size s).mem ∧
      (vsum T a b c size s).log =
        s.log ++ (List.range size).flatMap (elementAccesses T a b c) ∧
      ∀ x, x < c ∨ c + size * T.size ≤ x → (vsum T a b c size s).mem x = s.mem x := by
  rw [vsum_eq T a b c hsize]
  exact ⟨rfl, sum_log T a b c size s, fun x => sum_frame T a b c size s⟩

/-- Three thousand `int32_t`, with the destination one element behind the first array. -/
theorem vsum_refines_sum_overlapping :
    (vsum int32Type 0 16000 4 3000 ⟨fun _ => 7, []⟩).mem =
        (sum int32Type 0 16000 4 3000 ⟨fun _ => 7, []⟩).mem ∧
      (vsum int32Type 0 16000 4 3000 ⟨fun _ => 7, []⟩).log =
        [] ++ (List.range 3000).flatMap (elementAccesses int32Type 0 16000 4) ∧
      ∀ x, x < 4 ∨ 4 + 3000 * 4 ≤ x → (vsum int32Type 0 16000 4 3000 ⟨fun _ => 7, []⟩).mem x = 7 :=
  vsum_refines_sum int32Type 0 16000 4 (by decide) ⟨fun _ => 7, []⟩

end Fflib
