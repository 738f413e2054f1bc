import Fflib.Cascade
import Fflib.Kernels

/-!
# Where a computation reads and writes

`ffop_gcomp_post` on three buffers that hold addresses, with the built-in kernels.

**Buffers.**  `BufferReached` are the buffers that `ffbuffer_create` and `ffbuffer_resize` make,
with any allocator, user addresses, counts of 32 bits and datatypes that have a size; a resize
may also be refused.  The lock of the destination is left out: it touches none of the bytes.

* `ffopGcompPost_eq`: the kernel runs on the least of the three counts, with the datatype of the
  first buffer.
* `sum_inside_iff` and `copy_inside_iff`: when a kernel stays inside its buffers.
* `elements_fit_iff` turns the bounds into a condition on counts and element sizes.
-/

namespace Fflib

open Library

universe u

/-! ### `ffop_gcomp_post` -/

/-- `MIN`. -/
def min3 (a b c : Nat) : Nat :=
  if (if a < b then a else b) < c then (if a < b then a else b) else c

/-- `GETBUFFER`; an index is looked up in `mem`, which `ffop_post` passes as a null pointer. -/
def getBuffer (b : BufferBlock Nat) : Option Nat :=
  match b.type with
  | .ptr => some b.ptr
  | .idx => none

/-- `ffcomp_t`; `buffer2` is `none` for `FFBUFF_NONE`. -/
structure FfcompBlock where
  buffer1 : BufferBlock Nat
  buffer2 : Option (BufferBlock Nat)
  buffer3 : BufferBlock Nat
  opFun : OpFun

/-- The second operand: its address, and its count or that of the first. -/
def FfcompBlock.second (comp : FfcompBlock) : Option (Nat × Nat) :=
  match comp.buffer2 with
  | some b => (getBuffer b).map fun p => (p, b.count)
  | none => some (0, comp.buffer1.count)

/-- `ffop_gcomp_post`. -/
def ffopGcompPost (comp : FfcompBlock) (s : KernelState) : Option (Int × KernelState) :=
  (getBuffer comp.buffer1).bind fun buffer1 =>
    comp.second.bind fun second =>
      (getBuffer comp.buffer3).map fun buffer3 =>
        let size := min3 comp.buffer1.count second.2 comp.buffer3.count
        let res := comp.opFun buffer1 second.1 buffer3 size comp.buffer1.datatype s
        (if res.1 = ffSuccess then ffCompleted else res.1, res.2)

theorem min3_eq (a b c : Nat) : min3 a b c = min (min a b) c := by
  rw [min3]
  by_cases hab : a < b
  · rw [if_pos hab, Nat.min_eq_left (Nat.le_of_lt hab)]
    grind
  · rw [if_neg hab, Nat.min_eq_right (Nat.le_of_not_lt hab)]
    grind

theorem min3_le (a b c : Nat) : min3 a b c ≤ a ∧ min3 a b c ≤ b ∧ min3 a b c ≤ c := by
  rw [min3_eq]
  omega

/-! ### The buffers -/

/-- What `ffbuffer_create` and `ffbuffer_resize` make of a buffer that holds an address. -/
inductive BufferReached {μ π : Type u} [DecidableEq π] (A : Allocator μ π) :
    BufferBlock π → Prop
  | create {addr : π} {count : Nat} {datatype : Int} {options size : Nat} {m m' : μ}
      {b : BufferBlock π} (hoptions : ¬ options &&& ffbufferIdx = ffbufferIdx)
      (hsize : ffdatatypeSize datatype = some size) (hpos : 0 < size) (hcount : count < 2 ^ 32)
      (h : ffbufferSetup A addr count datatype options m = some (ffSuccess, b, m')) :
      BufferReached A b
  | resize {addr : π} {count : Nat} {datatype : Int} {size : Nat} {m m' : μ}
      {b b' : BufferBlock π} {code : Int} (hb : BufferReached A b)
      (hsize : ffdatatypeSize datatype = some size) (hpos : 0 < size) (hcount : count < 2 ^ 32)
      (h : ffbufferResize A addr count datatype b m = some (code, b', m')) :
      BufferReached A b'

/-- A buffer that holds an address, with a count of 32 bits and elements of 4 or 8 bytes. -/
structure BufferSized {π : Type u} (b : BufferBlock π) (unit : Nat) : Prop where
  type_eq : b.type = .ptr
  count_lt : b.count < 2 ^ 32
  size_eq : ffdatatypeSize b.datatype = some unit
  unit_cases : unit = 4 ∨ unit = 8

theorem ffdatatypeSize_cases {datatype : Int} {size : Nat}
    (h : ffdatatypeSize datatype = some size) (hpos : 0 < size) : size = 4 ∨ size = 8 := by
  unfold ffdatatypeSize at h
  grind

section Reached

variable {μ π : Type u} [DecidableEq π] {A : Allocator μ π}

/-- A resize stores the count and the datatype, or is refused and keeps both. -/
theorem ffbufferResize_record {addr : π} {count : Nat} {datatype : Int} {b b' : BufferBlock π}
    {m m' : μ} {code : Int}
    (h : ffbufferResize A addr count datatype b m = some (code, b', m')) :
    b'.type = b.type ∧ ((b'.count = count ∧ b'.datatype = datatype) ∨
      (code = ffEnomem ∧ b'.count = b.count ∧ b'.datatype = b.datatype)) := by
  by_cases haddr : addr = A.null
  · subst haddr
    by_cases hneeds : A.NeedsMemory count datatype b m
    · cases hr : A.realloc b.ptr (A.request count datatype m) (A.afterSizes datatype b m) with
      | none =>
          rw [ffbufferResize_refused hneeds hr] at h
          cases h
          exact ⟨rfl, Or.inr ⟨rfl, rfl, rfl⟩⟩
      | some r =>
          rw [ffbufferResize_granted hneeds hr] at h
          cases h
          exact ⟨rfl, Or.inl ⟨rfl, rfl⟩⟩
    · rw [ffbufferResize_fits hneeds] at h
      cases h
      exact ⟨rfl, Or.inl ⟨rfl, rfl⟩⟩
  · rw [ffbufferResize_user haddr] at h
    cases h
    exact ⟨rfl, Or.inl ⟨rfl, rfl⟩⟩

theorem BufferReached.sized {b : BufferBlock π} (h : BufferReached A b) :
    ∃ unit, BufferSized b unit := by
  induction h with
  | create hoptions hsize hpos hcount h =>
      rw [ffbufferSetup_eq hoptions] at h
      obtain ⟨htype, ⟨hc, hd⟩ | ⟨hcode, _⟩⟩ := ffbufferResize_record h
      · exact ⟨_, htype, hc ▸ hcount, hd ▸ hsize, ffdatatypeSize_cases hsize hpos⟩
      · exact absurd hcode (by decide)
  | resize hb hsize hpos hcount h ih =>
      obtain ⟨unit, ih⟩ := ih
      obtain ⟨htype, ⟨hc, hd⟩ | ⟨_, hc, hd⟩⟩ := ffbufferResize_record h
      · exact ⟨_, htype.trans ih.type_eq, hc ▸ hcount, hd ▸ hsize, ffdatatypeSize_cases hsize hpos⟩
      · exact ⟨unit, htype.trans ih.type_eq, hc ▸ ih.count_lt, hd ▸ ih.size_eq, ih.unit_cases⟩

end Reached

/-! ### Bounds -/

/-- `unitsize(datatype)`, and `count * unitsize(datatype)`. -/
def BufferBlock.unitsize {π : Type u} (b : BufferBlock π) : Nat :=
  (ffdatatypeSize b.datatype).getD 0

def BufferBlock.bytes {π : Type u} (b : BufferBlock π) : Nat := b.count * b.unitsize

/-- The bytes of an access belong to the buffer. -/
def Access.Within (x : Access) (b : BufferBlock Nat) : Prop :=
  b.ptr ≤ x.addr ∧ x.addr + x.bytes ≤ b.ptr + b.bytes

/-- The buffer whose address a parameter holds. -/
def argBuffer (b1 b2 b3 : BufferBlock Nat) : KernelArg → BufferBlock Nat
  | .a => b1
  | .b => b2
  | .c => b3

/-- The post reads inside its buffers, and writes inside the destination. -/
def PostInside (b1 b2 b3 : BufferBlock Nat) (opFun : OpFun) : Prop :=
  ∀ s, ∃ code s' new, ffopGcompPost ⟨b1, some b2, b3, opFun⟩ s = some (code, s') ∧
    s'.log = s.log ++ new ∧
    (∀ x ∈ new, x.Within (argBuffer b1 b2 b3 x.arg) ∧ (x.write = true → x.arg = .c)) ∧
    ∀ addr, addr < b3.ptr ∨ b3.ptr + b3.bytes ≤ addr → s'.mem addr = s.mem addr

/-- Elements of the first buffer, as many as the least count, fit into a buffer of `count`
elements of `unit` bytes. -/
theorem elements_fit_iff {n count unit1 unit : Nat} (h1 : unit1 = 4 ∨ unit1 = 8)
    (h : unit = 4 ∨ unit = 8) (hn : n ≤ count) :
    n * unit1 ≤ count * unit ↔ unit1 ≤ unit ∨ 2 * n ≤ count := by
  rcases h1 with rfl | rfl
  · rcases h with rfl | rfl
    · omega
    · omega
  · rcases h with rfl | rfl
    · omega
    · omega

section Bounds

variable {b1 b2 b3 : BufferBlock Nat} {unit1 unit2 unit3 : Nat}

theorem BufferSized.unitsize_eq {b : BufferBlock Nat} {unit : Nat} (h : BufferSized b unit) :
    b.unitsize = unit := by
  rw [BufferBlock.unitsize, h.size_eq]
  rfl

theorem BufferSized.bytes_eq {b : BufferBlock Nat} {unit : Nat} (h : BufferSized b unit) :
    b.bytes = b.count * unit := by
  rw [BufferBlock.bytes, h.unitsize_eq]

/-- The kernel runs on the least count, with the datatype of the first buffer. -/
theorem ffopGcompPost_eq (h1 : b1.type = .ptr) (h2 : b2.type = .ptr) (h3 : b3.type = .ptr)
    (opFun : OpFun) (s : KernelState) :
    ffopGcompPost ⟨b1, some b2, b3, opFun⟩ s =
      some (if (opFun b1.ptr b2.ptr b3.ptr (min3 b1.count b2.count b3.count) b1.datatype s).1 =
            ffSuccess then ffCompleted
          else (opFun b1.ptr b2.ptr b3.ptr (min3 b1.count b2.count b3.count) b1.datatype s).1,
        (opFun b1.ptr b2.ptr b3.ptr (min3 b1.count b2.count b3.count) b1.datatype s).2) := by
  simp [ffopGcompPost, FfcompBlock.second, getBuffer, h1, h2, h3]

/-- A kernel with a known log and a known reach. -/
theorem postInside_iff {opFun : OpFun} (h1 : b1.type = .ptr) (h2 : b2.type = .ptr)
    (h3 : b3.type = .ptr) (new : List Access) (n : Nat)
    (hlog : ∀ s, (opFun b1.ptr b2.ptr b3.ptr (min3 b1.count b2.count b3.count)
      b1.datatype s).2.log = s.log ++ new)
    (hmem : ∀ s addr, addr < b3.ptr ∨ b3.ptr + n ≤ addr →
      (opFun b1.ptr b2.ptr b3.ptr (min3 b1.count b2.count b3.count)
        b1.datatype s).2.mem addr = s.mem addr)
    (hwrite : ∀ x ∈ new, x.write = true → x.arg = .c) (hn : (∀ x ∈ new,
      x.Within (argBuffer b1 b2 b3 x.arg)) → n ≤ b3.bytes) :
    PostInside b1 b2 b3 opFun ↔ ∀ x ∈ new, x.Within (argBuffer b1 b2 b3 x.arg) := by
  constructor
  · intro h x hx
    obtain ⟨code, s', new', hpost, hs, hall, _⟩ := h ⟨fun _ => 0, []⟩
    rw [ffopGcompPost_eq h1 h2 h3] at hpost
    cases hpost
    rw [hlog] at hs
    rw [List.append_cancel_left hs] at hx
    exact (hall x hx).1
  · intro h s
    refine ⟨_, _, new, ffopGcompPost_eq h1 h2 h3 opFun s, hlog s,
      fun x hx => ⟨h x hx, hwrite x hx⟩, fun addr haddr => hmem s addr ?_⟩
    have := hn h
    omega

/-! ### The sum -/

/-- One element of each array. -/
theorem elementAccesses_within_iff (T : ElemType) (i : Nat) :
    (∀ x ∈ elementAccesses T b1.ptr b2.ptr b3.ptr i, x.Within (argBuffer b1 b2 b3 x.arg)) ↔
      (i + 1) * T.size ≤ b1.bytes ∧ (i + 1) * T.size ≤ b2.bytes ∧
        (i + 1) * T.size ≤ b3.bytes := by
  simp only [elementAccesses, List.forall_mem_cons, List.not_mem_nil, false_imp_iff,
    implies_true, Access.Within, argBuffer, ElemType.elem, Nat.add_mul, Nat.one_mul,
    Nat.le_add_right, Nat.add_assoc, Nat.add_le_add_iff_left, true_and, and_true]

theorem sum_within_iff (T : ElemType) (n : Nat) :
    (∀ x ∈ (List.range n).flatMap (elementAccesses T b1.ptr b2.ptr b3.ptr),
        x.Within (argBuffer b1 b2 b3 x.arg)) ↔
      n * T.size ≤ b1.bytes ∧ n * T.size ≤ b2.bytes ∧ n * T.size ≤ b3.bytes := by
  have hall : (∀ x ∈ (List.range n).flatMap (elementAccesses T b1.ptr b2.ptr b3.ptr),
      x.Within (argBuffer b1 b2 b3 x.arg)) ↔ ∀ i, i < n →
        (i + 1) * T.size ≤ b1.bytes ∧ (i + 1) * T.size ≤ b2.bytes ∧
          (i + 1) * T.size ≤ b3.bytes := by
    simp only [List.forall_mem_flatMap, List.mem_range, elementAccesses_within_iff]
  rw [hall]
  constructor
  · intro h
    cases n with
    | zero => simp
    | succ n => exact h n (Nat.lt_succ_self n)
  · intro ⟨h1, h2, h3⟩ i hi
    have hle : (i + 1) * T.size ≤ n * T.size := Nat.mul_le_mul_right _ hi
    exact ⟨hle.trans h1, hle.trans h2, hle.trans h3⟩

/-- The sum of a datatype with a size is over elements of this size. -/
theorem sumType_of_size (fp : FloatAdd) {datatype : Int} {size : Nat}
    (h : ffdatatypeSize datatype = some size) (hpos : 0 < size) :
    ∃ T, sumType fp datatype = some T ∧ T.size = size := by
  rw [ffdatatypeSize] at h
  rw [sumType]
  split at h
  · next h0 => exact ⟨_, if_pos h0, by simpa [int32Type] using h⟩
  · next h0 =>
      rw [if_neg h0]
      split at h
      · next h1 => exact ⟨_, if_pos h1, by simpa [int64Type] using h⟩
      · next h1 =>
          rw [if_neg h1]
          split at h
          · next h2 => exact ⟨_, if_pos h2, by simpa using h⟩
          · next h2 =>
              rw [if_neg h2]
              split at h
              · next h3 => exact ⟨_, if_pos h3, by simpa using h⟩
              · split at h
                · cases h
                  cases hpos
                · cases h

/-- `FFSUM` stays inside its buffers iff the elements of the first one fit into the others. -/
theorem sum_inside_iff (fp : FloatAdd) (h1 : BufferSized b1 unit1) (h2 : BufferSized b2 unit2)
    (h3 : BufferSized b3 unit3) :
    PostInside b1 b2 b3 (ffopGcompOperatorSum fp) ↔
      min3 b1.count b2.count b3.count * unit1 ≤ b2.bytes ∧
        min3 b1.count b2.count b3.count * unit1 ≤ b3.bytes := by
  have hpos : 0 < unit1 := by
    have := h1.unit_cases
    omega
  obtain ⟨T, hT, hsize⟩ := sumType_of_size fp h1.size_eq hpos
  have hle := (min3_le b1.count b2.count b3.count).1
  have hrun : ∀ s, (ffopGcompOperatorSum fp b1.ptr b2.ptr b3.ptr
      (min3 b1.count b2.count b3.count) b1.datatype s).2 =
        sum T b1.ptr b2.ptr b3.ptr (min3 b1.count b2.count b3.count) s := by
    intro s
    rw [ffopGcompOperatorSum, hT]
    exact vsum_eq T _ _ _ (Nat.lt_of_le_of_lt hle h1.count_lt) s
  have hfirst : min3 b1.count b2.count b3.count * unit1 ≤ b1.bytes := by
    rw [h1.bytes_eq]
    exact Nat.mul_le_mul_right _ hle
  rw [postInside_iff h1.type_eq h2.type_eq h3.type_eq
    ((List.range (min3 b1.count b2.count b3.count)).flatMap
      (elementAccesses T b1.ptr b2.ptr b3.ptr))
    (min3 b1.count b2.count b3.count * T.size), sum_within_iff, hsize]
  · exact ⟨fun h => h.2, fun h => ⟨hfirst, h⟩⟩
  · intro s
    rw [hrun, sum_log]
  · intro s addr haddr
    rw [hrun]
    exact sum_frame T b1.ptr b2.ptr b3.ptr _ s haddr
  · intro x hx hw
    obtain ⟨i, _, hx⟩ := List.mem_flatMap.mp hx
    simp only [elementAccesses, List.mem_cons, List.not_mem_nil, or_false] at hx
    rcases hx with rfl | rfl | rfl
    · cases hw
    · cases hw
    · rfl
  · intro h
    exact ((sum_within_iff T _).mp h).2.2

/-! ### The copy -/

/-- `FFIDENTITY` stays inside its buffers iff the elements of the first one fit into the
destination. -/
theorem copy_inside_iff (junk : Nat) (h1 : BufferSized b1 unit1) (h2 : BufferSized b2 unit2)
    (h3 : BufferSized b3 unit3) :
    PostInside b1 b2 b3 (ffopGcompOperatorCopy junk) ↔
      min3 b1.count b2.count b3.count * unit1 ≤ b3.bytes := by
  have hle := (min3_le b1.count b2.count b3.count).1
  have hunit : unit1 ≤ 8 := ffdatatypeSize_le h1.size_eq
  have hbytes : mulSize (min3 b1.count b2.count b3.count)
      ((ffdatatypeSize b1.datatype).getD junk) =
        min3 b1.count b2.count b3.count * unit1 := by
    rw [h1.size_eq]
    exact mulSize_eq (Nat.lt_of_le_of_lt hle h1.count_lt) hunit
  have hfirst : min3 b1.count b2.count b3.count * unit1 ≤ b1.bytes := by
    rw [h1.bytes_eq]
    exact Nat.mul_le_mul_right _ hle
  have hwithin : (∀ x ∈ [Access.mk .a false b1.ptr (min3 b1.count b2.count b3.count * unit1),
      Access.mk .c true b3.ptr (min3 b1.count b2.count b3.count * unit1)],
        x.Within (argBuffer b1 b2 b3 x.arg)) ↔
      min3 b1.count b2.count b3.count * unit1 ≤ b3.bytes := by
    simp only [List.forall_mem_cons, List.not_mem_nil, false_imp_iff, implies_true,
      Access.Within, argBuffer, Nat.le_refl, Nat.add_le_add_iff_left, true_and, and_true,
      hfirst]
  rw [postInside_iff h1.type_eq h2.type_eq h3.type_eq _
    (min3 b1.count b2.count b3.count * unit1) ?_ ?_ ?_ ?_, hwithin]
  · intro s
    rw [ffopGcompOperatorCopy, memcpyBytes, hbytes]
  · intro s addr haddr
    rw [ffopGcompOperatorCopy, memcpyBytes, hbytes]
    exact if_neg (by omega)
  · intro x hx hw
    simp only [List.mem_cons, List.not_mem_nil, or_false] at hx
    rcases hx with rfl | rfl
    · cases hw
    · rfl
  · exact hwithin.mp

/-! ### Both kernels -/

/-- The function that `ffcomp_b` finds under the handle of a built-in operator. -/
def builtinOpFun (fp : FloatAdd) (junk : Nat) (mem : Nat → ArmanEntry) (operator : Int) :
    Option OpFun :=
  match ffopGcompOperatorGet operator
      (ffopGcompOperatorInit (ffopGcompOperatorSum fp) (ffopGcompOperatorCopy junk) mem) with
  | some (.ok op) => op.opFun
  | _ => none

/-- The elements of the first buffer are no larger than those of `b`, or `b` has twice as many
as are processed. -/
def ElementsFit (b1 b2 b3 b : BufferBlock Nat) : Prop :=
  b1.unitsize ≤ b.unitsize ∨ 2 * min3 b1.count b2.count b3.count ≤ b.count

theorem elementsFit_iff {b : BufferBlock Nat} {unit : Nat} (h1 : BufferSized b1 unit1)
    (h : BufferSized b unit) (hle : min3 b1.count b2.count b3.count ≤ b.count) :
    min3 b1.count b2.count b3.count * unit1 ≤ b.bytes ↔ ElementsFit b1 b2 b3 b := by
  rw [h.bytes_eq, elements_fit_iff h1.unit_cases h.unit_cases hle, ElementsFit, h1.unitsize_eq,
    h.unitsize_eq]

/-- When a built-in kernel stays inside the buffers it is given. -/
theorem gcompPost_inside_iff {μ : Type} (A : Allocator μ Nat) (fp : FloatAdd) (junk : Nat)
    (mem : Nat → ArmanEntry) (h1 : BufferReached A b1) (h2 : BufferReached A b2)
    (h3 : BufferReached A b3) {operator : Int} {opFun : OpFun}
    (hop : operator = ffSum ∨ operator = ffIdentity)
    (hfun : builtinOpFun fp junk mem operator = some opFun) :
    PostInside b1 b2 b3 opFun ↔
      (operator = ffSum → ElementsFit b1 b2 b3 b2) ∧ ElementsFit b1 b2 b3 b3 := by
  obtain ⟨unit1, h1⟩ := h1.sized
  obtain ⟨unit2, h2⟩ := h2.sized
  obtain ⟨unit3, h3⟩ := h3.sized
  obtain ⟨_, hle2, hle3⟩ := min3_le b1.count b2.count b3.count
  rw [← elementsFit_iff h1 h2 hle2, ← elementsFit_iff h1 h3 hle3]
  rcases hop with rfl | rfl
  · obtain rfl : ffopGcompOperatorSum fp = opFun := Option.some.inj hfun
    rw [sum_inside_iff fp h1 h2 h3]
    exact ⟨fun h => ⟨fun _ => h.1, h.2⟩, fun h => ⟨h.1 rfl, h.2⟩⟩
  · obtain rfl : ffopGcompOperatorCopy junk = opFun := Option.some.inj hfun
    rw [copy_inside_iff junk h1 h2 h3]
    exact ⟨fun h => ⟨fun hop => absurd hop (by decide), h⟩, fun h => h.2⟩

end Bounds

/-! ### Three buffers of a user -/

/-- Pointers without any memory to give. -/
def userAllocator : Allocator Unit Nat where
  null := 0
  realloc _ _ _ := none
  free _ m := m
  read32 _ _ := 0
  writeIdx idx _ := idx
  junk m := (0, m)

/-- `ffbuffer_create` of four elements at `addr`. -/
def fourElements (addr : Nat) (datatype : Int) : BufferBlock Nat where
  type := .ptr
  selfalloc := false
  ptr := addr
  count := 4
  datatype := datatype
  options := 0

theorem fourElements_reached {addr : Nat} {datatype : Int} {size : Nat} (haddr : addr ≠ 0)
    (hsize : ffdatatypeSize datatype = some size) (hpos : 0 < size) :
    BufferReached userAllocator (fourElements addr datatype) := by
  have hset : ffbufferSetup userAllocator addr 4 datatype 0 () =
      some (ffSuccess, fourElements addr datatype, ()) := by
    rw [ffbufferSetup_eq (by decide), ffbufferResize_user haddr]
    simp [fourElements, haddr, userAllocator]
  exact .create (by decide) hsize hpos (by decide) hset

/-- Three buffers of four `FFINT64`. -/
theorem gcompPost_inside_iff_int64 :
    PostInside (fourElements 64 1) (fourElements 128 1) (fourElements 192 1)
        (ffopGcompOperatorSum ⟨fun x _ => x, fun x _ => x⟩) ↔
      (ffSum = ffSum → ElementsFit (fourElements 64 1) (fourElements 128 1) (fourElements 192 1)
          (fourElements 128 1)) ∧
        ElementsFit (fourElements 64 1) (fourElements 128 1) (fourElements 192 1)
          (fourElements 192 1) :=
  gcompPost_inside_iff userAllocator ⟨fun x _ => x, fun x _ => x⟩ 0 (fun _ => ⟨0, none⟩)
    (fourElements_reached (by decide) rfl (by decide))
    (fourElements_reached (by decide) rfl (by decide))
    (fourElements_reached (by decide) rfl (by decide)) (Or.inl rfl) rfl

/-- Four `FFINT64`, added to four `FFINT32` in a third buffer of four `FFINT32`. -/
theorem gcompPost_inside_fails :
    ¬ ∀ (fp : FloatAdd) (junk : Nat) (mem : Nat → ArmanEntry) (b1 b2 b3 : BufferBlock Nat)
        (operator : Int) (opFun : OpFun), BufferReached userAllocator b1 →
      BufferReached userAllocator b2 → BufferReached userAllocator b3 →
      (operator = ffSum ∨ operator = ffIdentity) →
      builtinOpFun fp junk mem operator = some opFun → PostInside b1 b2 b3 opFun := by
  intro hall
  have h1 : BufferReached userAllocator (fourElements 64 1) :=
    fourElements_reached (by decide) rfl (by decide)
  have h2 : BufferReached userAllocator (fourElements 128 0) :=
    fourElements_reached (by decide) rfl (by decide)
  have h3 : BufferReached userAllocator (fourElements 192 0) :=
    fourElements_reached (by decide) rfl (by decide)
  have hinside := hall ⟨fun x _ => x, fun x _ => x⟩ 0 (fun _ => ⟨0, none⟩) _ _ _ ffSum _ h1 h2 h3
    (Or.inl rfl) rfl
  obtain ⟨unit1, hs1⟩ := h1.sized
  obtain ⟨unit2, hs2⟩ := h2.sized
  obtain ⟨unit3, hs3⟩ := h3.sized
  have hfit := ((sum_inside_iff _ hs1 hs2 hs3).mp hinside).2
  rw [elementsFit_iff hs1 hs3 (by decide)] at hfit
  revert hfit
  rw [ElementsFit]
  decide

end Fflib
