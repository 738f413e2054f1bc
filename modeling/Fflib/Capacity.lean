import Fflib.BufferErrors
import Fflib.KernelBounds
import Fflib.Library.Machine

/-!
# The capacity of a buffer

A buffer that is created and resized, over a heap whose blocks have a size and bytes.

**Memory.**  A pointer is null or the start of a block.  The blocks of the user are there from
the beginning, with any sizes and contents.  `realloc` succeeds: it copies what fits into a new
block, the rest of which holds whatever was there, and gives the old block back.

* `CapacityInv` is the invariant: the block of the buffer is live, and has room for
  `count * unitsize` bytes.
* `CapacityInv.law_iff`: one call keeps the capacity iff the address it is given is that of a
  live block that it does not give back itself.
* `capacity_iff` says the same for every sequence of calls.
-/

namespace Fflib

open Library

/-! ### Memory -/

/-- Blocks with their sizes and bytes; from `next` on they have not been allocated, and hold
`junk`. -/
structure ByteHeap where
  size : Nat → Nat
  data : Nat → Nat → UInt8
  live : Nat → Bool
  next : Nat
  junk : Nat → Nat → UInt8

namespace ByteHeap

def free (p : Option Nat) (h : ByteHeap) : ByteHeap :=
  match p with
  | none => h
  | some n => { h with live := Function.update h.live n false }

/-- The bytes of a new block, the first of which come from the block of `p`. -/
def moved (p : Option Nat) (size : Nat) (h : ByteHeap) (i : Nat) : UInt8 :=
  match p with
  | none => h.junk h.next i
  | some n => if i < min (h.size n) size then h.data n i else h.junk h.next i

def realloc (p : Option Nat) (size : Nat) (h : ByteHeap) : Option Nat × ByteHeap :=
  (some h.next,
    { size := Function.update h.size h.next size
      data := Function.update h.data h.next (h.moved p size)
      live := Function.update (h.free p).live h.next true
      next := h.next + 1
      junk := h.junk })

end ByteHeap

def byteAllocator : Allocator ByteHeap (Option Nat) where
  null := none
  realloc p size h := some (h.realloc p size)
  free := ByteHeap.free
  read32 _ _ := 0
  writeIdx _ p := p
  junk h := (0, h)

/-! ### Runs -/

/-- The buffer, once it has been created, and the heap. -/
structure CapacityState where
  buff : Option (BufferBlock (Option Nat))
  heap : ByteHeap

/-- A call of `ffbuffer_create` or `ffbuffer_resize`; the address is null or a block of the
user. -/
structure CapacityCall where
  create : Bool
  addr : Option Nat
  count : Nat
  datatype : Int
  options : Nat

/-- `count * unitsize(datatype)`. -/
def CapacityCall.bytes (c : CapacityCall) : Nat := c.count * (ffdatatypeSize c.datatype).getD 0

/-- One call; there is one buffer. -/
def capacityStep (s : CapacityState) (c : CapacityCall) : Option CapacityState :=
  if c.create then
    if s.buff.isNone then
      (ffbufferSetup byteAllocator c.addr c.count c.datatype c.options s.heap).map fun r =>
        ⟨some r.2.1, r.2.2⟩
    else none
  else
    s.buff.bind fun b =>
      (ffbufferResize byteAllocator c.addr c.count c.datatype b s.heap).map fun r =>
        ⟨some r.2.1, r.2.2⟩

/-- What the caller promises: a buffer for an address, a datatype with a size, a count of 32
bits that is not zero, and a block that is large enough. -/
structure CapacityCall.Ok (users : Nat) (userSize : Nat → Nat) (c : CapacityCall) : Prop where
  options_ne : ¬ c.options &&& ffbufferIdx = ffbufferIdx
  sized : ∃ unit, ffdatatypeSize c.datatype = some unit ∧ 0 < unit
  count_pos : 1 ≤ c.count
  count_lt : c.count < 2 ^ 32
  addr_ok : ∀ k, c.addr = some k → k < users ∧ c.bytes ≤ userSize k

/-- At least `bytes` bytes are available at `ptr`. -/
def Available (h : ByteHeap) (ptr : Option Nat) (bytes : Nat) : Prop :=
  ∃ n, ptr = some n ∧ h.live n = true ∧ bytes ≤ h.size n

/-- The first `bytes` bytes are those that were there. -/
def Unchanged (h h' : ByteHeap) (ptr ptr' : Option Nat) (bytes : Nat) : Prop :=
  ∀ n n' i, ptr = some n → ptr' = some n' → i < bytes → h'.data n' i = h.data n i

/-- After the call what was asked for is available, and a resize without an address has kept
what fits into both sizes. -/
def CapacityLaw (s : CapacityState) (c : CapacityCall) : Prop :=
  ∀ s', capacityStep s c = some s' → ∃ b', s'.buff = some b' ∧
    Available s'.heap b'.ptr c.bytes ∧
    (c.create = false → c.addr = none → ∀ b, s.buff = some b →
      Unchanged s.heap s'.heap b.ptr b'.ptr (min b.bytes c.bytes))

/-- The address is that of a block that the library has not given back, and that this call does
not give back; said of a creation without a buffer, and of a resize with one. -/
def KeepsTarget (s : CapacityState) (c : CapacityCall) : Prop :=
  c.create = s.buff.isNone → ∀ k, c.addr = some k →
    s.heap.live k = true ∧ ∀ b, s.buff = some b → b.selfalloc = true → b.ptr ≠ some k

/-! ### The invariant -/

/-- The blocks of the user keep their sizes; that of the buffer is live and large enough. -/
structure CapacityInv (users : Nat) (userSize : Nat → Nat) (s : CapacityState) : Prop where
  users_le : users ≤ s.heap.next
  size_eq : ∀ k, k < users → s.heap.size k = userSize k
  sized : ∀ b, s.buff = some b → ∃ unit, BufferSized b unit
  block : ∀ b, s.buff = some b → ∃ n, b.ptr = some n ∧ n < s.heap.next ∧
    s.heap.live n = true ∧ b.bytes ≤ s.heap.size n

/-- The heap at the start: the blocks of the user. -/
def userHeap (users : Nat) (userSize : Nat → Nat) (data junk : Nat → Nat → UInt8) : ByteHeap where
  size := userSize
  data := data
  live n := decide (n < users)
  next := users
  junk := junk

/-! ### One call -/

/-- What a resize does to the buffer `b`. -/
inductive ResizeEffect (c : CapacityCall) (b : BufferBlock (Option Nat)) (h : ByteHeap) :
    CapacityState → Prop
  | user {k : Nat} (haddr : c.addr = some k) :
      ResizeEffect c b h
        ⟨some { b with ptr := some k, count := c.count, datatype := c.datatype },
          if b.selfalloc then h.free b.ptr else h⟩
  | grow (haddr : c.addr = none) :
      ResizeEffect c b h
        ⟨some { b with ptr := some h.next, count := c.count, datatype := c.datatype },
          (h.realloc b.ptr c.bytes).2⟩
  | fits (haddr : c.addr = none) (hle : c.bytes ≤ b.bytes) (hptr : b.ptr ≠ none) :
      ResizeEffect c b h ⟨some { b with count := c.count, datatype := c.datatype }, h⟩

section Law

variable {users : Nat} {userSize : Nat → Nat} {s s' : CapacityState} {c : CapacityCall}
  {b : BufferBlock (Option Nat)}

theorem byteAllocator_unitsize {datatype : Int} {unit : Nat}
    (hunit : ffdatatypeSize datatype = some unit) (h : ByteHeap) :
    byteAllocator.unitsize datatype h = ((ffdatatypeSize datatype).getD 0, h) := by
  rw [unitsize_of_some hunit, hunit]
  rfl

/-- A buffer whose datatype is known. -/
theorem resizeEffect (hok : c.Ok users userSize) {unit : Nat}
    (hunit : ffdatatypeSize b.datatype = some unit) (hcount : b.count < 2 ^ 32) (h : ByteHeap) :
    ∃ b' h', ffbufferResize byteAllocator c.addr c.count c.datatype b h =
        some (ffSuccess, b', h') ∧ ResizeEffect c b h ⟨some b', h'⟩ := by
  obtain ⟨unit', hunit', _⟩ := hok.sized
  have hnew := byteAllocator_unitsize hunit' h
  have hold := byteAllocator_unitsize hunit h
  have hafter : byteAllocator.afterSizes c.datatype b h = h := by
    rw [Allocator.afterSizes, hnew, hold]
  have hbytes : mulSize c.count ((ffdatatypeSize c.datatype).getD 0) = c.bytes := by
    rw [CapacityCall.bytes, hunit']
    exact mulSize_eq hok.count_lt (ffdatatypeSize_le hunit')
  have hbytes' : mulSize b.count ((ffdatatypeSize b.datatype).getD 0) = b.bytes := by
    rw [BufferBlock.bytes, BufferBlock.unitsize, hunit]
    exact mulSize_eq hcount (ffdatatypeSize_le hunit)
  have hneeds : byteAllocator.NeedsMemory c.count c.datatype b h ↔
      b.ptr = none ∨ b.bytes < c.bytes := by
    rw [Allocator.NeedsMemory, hnew, hold, hbytes, hbytes']
    rfl
  cases haddr : c.addr with
  | some k =>
      refine ⟨_, _, ffbufferResize_user (by simp [byteAllocator]), ?_⟩
      rw [hafter]
      exact .user haddr
  | none =>
      by_cases hmem : b.ptr = none ∨ b.bytes < c.bytes
      · have hrequest : byteAllocator.request c.count c.datatype h = c.bytes := by
          rw [Allocator.request, hnew, mulSize_comm, hbytes]
        refine ⟨_, _, ffbufferResize_granted (hneeds.mpr hmem) (by rw [hrequest, hafter]; rfl), ?_⟩
        exact .grow haddr
      · refine ⟨_, _, ffbufferResize_fits (fun hn => hmem (hneeds.mp hn)), ?_⟩
        rw [hafter]
        rw [not_or] at hmem
        exact .fits haddr (Nat.le_of_not_lt hmem.2) hmem.1

/-- The buffer that a call resizes: the one there is, or a new one. -/
def CapacityState.target (s : CapacityState) (c : CapacityCall) : BufferBlock (Option Nat) :=
  s.buff.getD (newBuffer byteAllocator c.addr c.count c.options)

theorem target_of_none (h : s.buff = none) :
    s.target c = newBuffer byteAllocator c.addr c.count c.options := by
  rw [CapacityState.target, h]
  rfl

theorem target_of_some (h : s.buff = some b) : s.target c = b := by
  rw [CapacityState.target, h]
  rfl

/-- The calls that can be made, and what they do. -/
theorem capacityStep_eq (hinv : CapacityInv users userSize s) (hok : c.Ok users userSize) :
    if c.create = s.buff.isNone then
      ∃ s', capacityStep s c = some s' ∧ ResizeEffect c (s.target c) s.heap s'
    else capacityStep s c = none := by
  cases hbuff : s.buff with
  | none =>
      have hunit : ffdatatypeSize (newBuffer byteAllocator c.addr c.count c.options).datatype =
        some 0 := rfl
      obtain ⟨b', h', hr, heffect⟩ := resizeEffect hok hunit hok.count_lt s.heap
      by_cases hcreate : c.create = true
      · rw [if_pos (by simp [hcreate]), target_of_none hbuff]
        refine ⟨_, ?_, heffect⟩
        rw [capacityStep, if_pos hcreate, hbuff, if_pos (by simp),
          ffbufferSetup_eq hok.options_ne]
        exact congrArg (Option.map _) hr
      · rw [if_neg (by simpa using hcreate), capacityStep, if_neg hcreate, hbuff,
          Option.bind_none]
  | some b =>
      obtain ⟨unit, hsized⟩ := hinv.sized b hbuff
      obtain ⟨b', h', hr, heffect⟩ := resizeEffect hok hsized.size_eq hsized.count_lt s.heap
      by_cases hcreate : c.create = true
      · rw [if_neg (by simp [hcreate]), capacityStep, if_pos hcreate, hbuff, if_neg (by simp)]
      · rw [if_pos (by simpa using hcreate), target_of_some hbuff]
        refine ⟨_, ?_, heffect⟩
        rw [capacityStep, if_neg hcreate, hbuff, Option.bind_some, hr]
        rfl

/-- A block of the user is live after it has been set as the address. -/
theorem user_live_iff {k : Nat} (haddr : c.addr = some k) :
    (if (s.target c).selfalloc then s.heap.free (s.target c).ptr else s.heap).live k = true ↔
      s.heap.live k = true ∧
        ∀ b, s.buff = some b → b.selfalloc = true → b.ptr ≠ some k := by
  cases hbuff : s.buff with
  | none =>
      have hself : (s.target c).selfalloc = false := by
        rw [target_of_none hbuff, newBuffer, haddr]
        rfl
      rw [hself, if_neg (by simp)]
      simp
  | some b =>
      rw [target_of_some hbuff]
      by_cases hself : b.selfalloc = true
      · rw [if_pos hself]
        cases hptr : b.ptr with
        | none => simp [ByteHeap.free, hptr]
        | some n =>
            by_cases hn : n = k
            · subst hn
              simp [ByteHeap.free, hself, hptr]
            · simp [ByteHeap.free, hptr, hn, Ne.symm hn]
      · rw [if_neg hself]
        simp [hself]

theorem free_same (h : ByteHeap) (p : Option Nat) :
    (h.free p).size = h.size ∧ (h.free p).next = h.next := by
  cases p with
  | none => exact ⟨rfl, rfl⟩
  | some n => exact ⟨rfl, rfl⟩

/-- Only `live` changes when the address is set. -/
theorem user_same (b : BufferBlock (Option Nat)) (h : ByteHeap) :
    (if b.selfalloc then h.free b.ptr else h).size = h.size ∧
      (if b.selfalloc then h.free b.ptr else h).next = h.next := by
  split
  · exact free_same h b.ptr
  · exact ⟨rfl, rfl⟩

theorem realloc_available (h : ByteHeap) (p : Option Nat) (bytes : Nat) :
    Available (h.realloc p bytes).2 (some h.next) bytes :=
  ⟨h.next, rfl, by simp [ByteHeap.realloc], by simp [ByteHeap.realloc]⟩

/-- A resize without an address moves what fits. -/
theorem realloc_unchanged {h : ByteHeap} {n : Nat} {bytes kept : Nat}
    (hsize : kept ≤ h.size n) (hbytes : kept ≤ bytes) :
    Unchanged h (h.realloc (some n) bytes).2 (some n) (some h.next) kept := by
  intro m m' i hm hm' hi
  obtain rfl := Option.some.inj hm
  obtain rfl := Option.some.inj hm'
  simp only [ByteHeap.realloc, ByteHeap.moved, Function.update_self]
  exact if_pos (by omega)

/-- One call does what is asked of it iff its address stays that of a live block. -/
theorem CapacityInv.law_iff (hinv : CapacityInv users userSize s) (hok : c.Ok users userSize) :
    CapacityLaw s c ↔ KeepsTarget s c := by
  have heq := capacityStep_eq hinv hok
  by_cases hcall : c.create = s.buff.isNone
  · rw [if_pos hcall] at heq
    obtain ⟨s', hs, heffect⟩ := heq
    have hlaw : CapacityLaw s c ↔ ∃ b', s'.buff = some b' ∧
        Available s'.heap b'.ptr c.bytes ∧
        (c.create = false → c.addr = none → ∀ b, s.buff = some b →
          Unchanged s.heap s'.heap b.ptr b'.ptr (min b.bytes c.bytes)) := by
      constructor
      · exact fun h => h s' hs
      · intro h s₁ hs₁
        obtain rfl := Option.some.inj (hs.symm.trans hs₁)
        exact h
    rw [hlaw]
    cases heffect with
    | user haddr =>
        next k =>
        have hlive := user_live_iff (s := s) haddr
        constructor
        · rintro ⟨b', hb', ⟨n, hn, hnlive, _⟩, _⟩ _ k' hk'
          obtain rfl := Option.some.inj (haddr.symm.trans hk')
          obtain rfl := Option.some.inj hb'
          obtain rfl := Option.some.inj hn
          exact hlive.mp hnlive
        · intro hkeeps
          obtain ⟨hk, hle⟩ := hok.addr_ok k haddr
          refine ⟨_, rfl, ⟨k, rfl, hlive.mpr (hkeeps hcall k haddr), ?_⟩, fun _ hnone => ?_⟩
          · rw [(user_same _ _).1, hinv.size_eq k hk]
            exact hle
          · rw [haddr] at hnone
            cases hnone
    | grow haddr =>
        refine ⟨fun _ _ k hk => ?_, fun _ => ?_⟩
        · rw [haddr] at hk
          cases hk
        · refine ⟨_, rfl, realloc_available _ _ _, fun _ _ b hb => ?_⟩
          obtain ⟨n, hptr, _, _, hle⟩ := hinv.block b hb
          rw [target_of_some hb, hptr]
          exact realloc_unchanged (by omega) (by omega)
    | fits haddr hle hptr =>
        refine ⟨fun _ _ k hk => ?_, fun _ => ?_⟩
        · rw [haddr] at hk
          cases hk
        · cases hbuff : s.buff with
          | none =>
              rw [target_of_none hbuff] at hptr
              exact absurd haddr hptr
          | some b =>
              obtain ⟨n, hn, _, hlive, hsize⟩ := hinv.block b hbuff
              rw [target_of_some hbuff] at hle ⊢
              refine ⟨_, rfl, ⟨n, hn, hlive, hle.trans hsize⟩, fun _ _ b₁ hb₁ => ?_⟩
              obtain rfl := Option.some.inj hb₁
              intro m m' i hm hm' _
              obtain rfl := Option.some.inj (hm.symm.trans hm')
              rfl
  · rw [if_neg hcall] at heq
    refine ⟨fun _ hc => absurd hc hcall, fun _ s' hs => ?_⟩
    rw [heq] at hs
    cases hs

/-- The record that a call leaves. -/
theorem sized_of_call (hok : c.Ok users userSize) (htype : b.type = .ptr) (ptr : Option Nat) :
    ∃ unit, BufferSized
      { b with ptr := ptr, count := c.count, datatype := c.datatype } unit := by
  obtain ⟨unit, hunit, hpos⟩ := hok.sized
  exact ⟨unit, htype, hok.count_lt, hunit, ffdatatypeSize_cases hunit hpos⟩

/-- A call that keeps its target keeps the invariant. -/
theorem CapacityInv.step (hinv : CapacityInv users userSize s) (hok : c.Ok users userSize)
    (hkeeps : KeepsTarget s c) (hs : capacityStep s c = some s') :
    CapacityInv users userSize s' := by
  have heq := capacityStep_eq hinv hok
  by_cases hcall : c.create = s.buff.isNone
  · rw [if_pos hcall] at heq
    obtain ⟨s₁, hs₁, heffect⟩ := heq
    obtain rfl := Option.some.inj (hs.symm.trans hs₁)
    have htype : (s.target c).type = .ptr := by
      cases hbuff : s.buff with
      | none =>
          rw [target_of_none hbuff]
          rfl
      | some b =>
          obtain ⟨unit, hsized⟩ := hinv.sized b hbuff
          rw [target_of_some hbuff]
          exact hsized.type_eq
    cases heffect with
    | user haddr =>
        next k =>
        obtain ⟨hk, hle⟩ := hok.addr_ok k haddr
        have hsame := user_same (s.target c) s.heap
        constructor
        · rw [hsame.2]
          exact hinv.users_le
        · intro j hj
          rw [hsame.1]
          exact hinv.size_eq j hj
        · intro b' hb'
          obtain rfl := Option.some.inj hb'
          exact sized_of_call hok htype _
        · intro b' hb'
          obtain rfl := Option.some.inj hb'
          refine ⟨k, rfl, ?_, (user_live_iff haddr).mpr (hkeeps hcall k haddr), ?_⟩
          · rw [hsame.2]
            exact Nat.lt_of_lt_of_le hk hinv.users_le
          · rw [hsame.1, hinv.size_eq k hk]
            exact hle
    | grow haddr =>
        constructor
        · exact Nat.le_succ_of_le hinv.users_le
        · intro j hj
          have hne : j ≠ s.heap.next := Nat.ne_of_lt (Nat.lt_of_lt_of_le hj hinv.users_le)
          simp only [ByteHeap.realloc, Function.update_of_ne hne]
          exact hinv.size_eq j hj
        · intro b' hb'
          obtain rfl := Option.some.inj hb'
          exact sized_of_call hok htype _
        · intro b' hb'
          obtain rfl := Option.some.inj hb'
          obtain ⟨n, hn, hlive, hsize⟩ := realloc_available s.heap (s.target c).ptr c.bytes
          obtain rfl := Option.some.inj hn
          exact ⟨_, rfl, Nat.lt_succ_self _, hlive, hsize⟩
    | fits haddr hle hptr =>
        constructor
        · exact hinv.users_le
        · exact hinv.size_eq
        · intro b' hb'
          obtain rfl := Option.some.inj hb'
          exact sized_of_call hok htype _
        · intro b' hb'
          obtain rfl := Option.some.inj hb'
          cases hbuff : s.buff with
          | none =>
              rw [target_of_none hbuff] at hptr
              exact absurd haddr hptr
          | some b =>
              obtain ⟨n, hn, hlt, hlive, hsize⟩ := hinv.block b hbuff
              rw [target_of_some hbuff] at hle ⊢
              exact ⟨n, hn, hlt, hlive, hle.trans hsize⟩
  · rw [if_neg hcall] at heq
    rw [heq] at hs
    cases hs

theorem capacityInv_start (users : Nat) (userSize : Nat → Nat) (data junk : Nat → Nat → UInt8) :
    CapacityInv users userSize ⟨none, userHeap users userSize data junk⟩ := by
  refine ⟨Nat.le_refl _, fun _ _ => rfl, fun b hb => ?_, fun b hb => ?_⟩
  · cases hb
  · cases hb

/-- The capacity is kept by every call iff every address is that of a block of the user that
neither an earlier call nor this one has given back. -/
theorem capacity_iff {users : Nat} {userSize : Nat → Nat} {calls : List CapacityCall}
    (hok : ∀ c ∈ calls, c.Ok users userSize) (data junk : Nat → Nat → UInt8) :
    RunMeets capacityStep CapacityLaw ⟨none, userHeap users userSize data junk⟩ calls ↔
      RunMeets capacityStep KeepsTarget ⟨none, userHeap users userSize data junk⟩ calls := by
  have hinit := capacityInv_start users userSize data junk
  revert hinit
  generalize (⟨none, userHeap users userSize data junk⟩ : CapacityState) = s
  induction calls generalizing s with
  | nil => exact fun _ => Iff.rfl
  | cons c cs ih =>
      intro hinv
      have hc := hok c List.mem_cons_self
      have hiff := hinv.law_iff hc
      have hrest := ih fun c' hc' => hok c' (List.mem_cons_of_mem _ hc')
      constructor
      · rintro ⟨hlaw, hnext⟩
        have hkeeps := hiff.mp hlaw
        exact ⟨hkeeps, fun s' hs => (hrest s' (hinv.step hc hkeeps hs)).mp (hnext s' hs)⟩
      · rintro ⟨hkeeps, hnext⟩
        exact ⟨hiff.mpr hkeeps, fun s' hs => (hrest s' (hinv.step hc hkeeps hs)).mpr (hnext s' hs)⟩

end Law

/-! ### A block that is set twice -/

/-- One `FFINT32`, created without an address and then set to a block of the user twice. -/
def setTwice : List CapacityCall :=
  [⟨true, none, 1, 0, 0⟩, ⟨false, some 0, 1, 0, 0⟩, ⟨false, some 0, 1, 0, 0⟩]

theorem setTwice_ok : ∀ c ∈ setTwice, c.Ok 1 (fun _ => 4) := by
  have hnew : CapacityCall.Ok 1 (fun _ => 4) ⟨true, none, 1, 0, 0⟩ :=
    ⟨by decide, ⟨4, rfl, by decide⟩, by decide, by decide, fun k hk => by cases hk⟩
  have hset : CapacityCall.Ok 1 (fun _ => 4) ⟨false, some 0, 1, 0, 0⟩ := by
    refine ⟨by decide, ⟨4, rfl, by decide⟩, by decide, by decide, fun k hk => ?_⟩
    obtain rfl := Option.some.inj hk
    exact ⟨by decide, by decide⟩
  intro c hc
  simp only [setTwice, List.mem_cons, List.not_mem_nil, or_false] at hc
  rcases hc with rfl | rfl | rfl
  · exact hnew
  · exact hset
  · exact hset

theorem capacity_iff_setTwice :
    RunMeets capacityStep CapacityLaw
        ⟨none, userHeap 1 (fun _ => 4) (fun _ _ => 0) fun _ _ => 0⟩ setTwice ↔
      RunMeets capacityStep KeepsTarget
        ⟨none, userHeap 1 (fun _ => 4) (fun _ _ => 0) fun _ _ => 0⟩ setTwice :=
  capacity_iff setTwice_ok _ _

/-- The second resize frees the block that it sets. -/
theorem capacity_fails :
    ¬ ∀ (users : Nat) (userSize : Nat → Nat) (data junk : Nat → Nat → UInt8)
        (calls : List CapacityCall), (∀ c ∈ calls, c.Ok users userSize) →
      RunMeets capacityStep CapacityLaw ⟨none, userHeap users userSize data junk⟩ calls := by
  intro hall
  have hrun := hall 1 (fun _ => 4) (fun _ _ => 0) (fun _ _ => 0) setTwice setTwice_ok
  have hlaw := ((hrun.2 _ rfl).2 _ rfl).1
  obtain ⟨b, hb, ⟨n, hn, hlive, _⟩, _⟩ := hlaw _ rfl
  obtain rfl := Option.some.inj hb
  obtain rfl := Option.some.inj hn
  revert hlive
  decide

end Fflib
