import Fflib.Buffer
import Fflib.Unmoved

/-!
# Buffers that cannot be created or resized

`ffbuffer_resize` and `ffbuffer_create` when `realloc` refuses or the datatype has no size.
`ffbuffer_create` takes its block from a pool of `Fflib.Storage`; the variable for the handle
is in memory of the caller, named like a block of a pool that is not the library's.

The code of `ffdatatype_size` is dropped, the answer of `realloc` overwrites `ptr`, and the
pool is given the address of the variable instead of the block.  `atomicity_iff`: a resize
that should fail does so and changes nothing only for a buffer without memory, and a creation
that should fail never does.
-/

namespace Fflib

open Library

universe u v

section Functions

variable {μ π : Type u} [DecidableEq π] (A : Allocator μ π)

/-- `ffbuffer_create` with the block, and `handle` for the address of the variable of the
caller. -/
def ffbufferCreateIn (pool : Nat) (handle : BlockPtr) (addr : π) (count : Nat) (datatype : Int)
    (options : Nat) (pools : Nat → Pool) (m : μ) :
    Option (Int × Option (BlockPtr × BufferBlock π) × (Nat → Pool) × μ) :=
  (ffstoragePoolGet pool pools).bind fun r =>
    (ffbufferSetup A addr count datatype options m).map fun s =>
      if s.1 = ffSuccess then (ffSuccess, some (r.1, s.2.1), r.2, s.2.2)
      else (ffEnomem, none, ffstoragePoolPut handle r.2, s.2.2)

/-- The block of `ffbuffer_create` before it is resized. -/
def newBuffer (addr : π) (count options : Nat) : BufferBlock π where
  type := .ptr
  selfalloc := decide (addr = A.null)
  ptr := addr
  count := count
  datatype := ffDatatypeNone
  options := options

/-- A resize that needs memory does not get it. -/
def Refused (addr : π) (count : Nat) (datatype : Int) (b : BufferBlock π) (m : μ) : Prop :=
  addr = A.null ∧ A.NeedsMemory count datatype b m ∧
    A.realloc b.ptr (A.request count datatype m) (A.afterSizes datatype b m) = none

/-- A resize that cannot obtain memory, or whose datatype has no size. -/
def ResizeFails (addr : π) (count : Nat) (datatype : Int) (b : BufferBlock π) (m : μ) : Prop :=
  ffdatatypeSize datatype = none ∨ Refused A addr count datatype b m

/-- A creation whose resize fails; a buffer of type `FFBUFFER_IDX` is not resized. -/
def CreateFails (addr : π) (count : Nat) (datatype : Int) (options : Nat) (m : μ) : Prop :=
  ¬ options &&& ffbufferIdx = ffbufferIdx ∧
    ResizeFails A addr count datatype (newBuffer A addr count options) m

/-- A resize that fails returns an error, and leaves the buffer and the memory. -/
def ResizeAtomic {ω : Type v} (owned : μ → ω) (addr : π) (count : Nat) (datatype : Int)
    (b : BufferBlock π) (m : μ) : Prop :=
  ResizeFails A addr count datatype b m →
    ∃ code m', ffbufferResize A addr count datatype b m = some (code, b, m') ∧
      IsError code ∧ owned m' = owned m

end Functions

/-- The free list of a pool and its counter are the same. -/
structure SamePool (p : Nat) (pools pools' : Nat → Pool) : Prop where
  head_eq : (pools' p).head = (pools p).head
  next_eq : ∀ i, links pools' (p, i) = links pools (p, i)
  curr_eq : (pools' p).currSize = (pools p).currSize

/-- The free list starts in the memory of the pool, and the pool has more than one block. -/
structure PoolReady (p : Nat) (pools : Nat → Pool) : Prop where
  head_mem : ∀ b, (pools p).head = some b → b.1 = p
  curr_lt : (pools p).currSize < 2 ^ 32
  one_lt : 1 < (pools p).poolSize
  size_lt : (pools p).poolSize < 2 ^ 32

section Laws

variable {μ π : Type u} [DecidableEq π] (A : Allocator μ π)

/-- A creation that fails returns an error, and leaves the pool. -/
def CreateAtomic (pool : Nat) (handle : BlockPtr) (addr : π) (count : Nat) (datatype : Int)
    (options : Nat) (pools : Nat → Pool) (m : μ) : Prop :=
  CreateFails A addr count datatype options m →
    ∃ code r pools' m', ffbufferCreateIn A pool handle addr count datatype options pools m =
        some (code, r, pools', m') ∧
      IsError code ∧ SamePool pool pools pools'

/-- A resize that fails is one of a buffer without memory, to which `realloc` gives none. -/
def FailsWithout (addr : π) (count : Nat) (datatype : Int) (b : BufferBlock π) (m : μ) : Prop :=
  ResizeFails A addr count datatype b m → b.ptr = A.null ∧ Refused A addr count datatype b m

end Laws

/-! ### Resize -/

section Resize

variable {μ π : Type u} [DecidableEq π] {A : Allocator μ π} {addr : π} {count : Nat}
  {datatype : Int} {b : BufferBlock π} {m : μ}

theorem resize_of_refused (h : Refused A addr count datatype b m) :
    ffbufferResize A addr count datatype b m =
      some (ffEnomem, { b with ptr := A.null }, A.afterSizes datatype b m) := by
  obtain ⟨rfl, hneeds, hnone⟩ := h
  exact ffbufferResize_refused hneeds hnone

/-- Every other resize succeeds. -/
theorem resize_of_not_refused (h : ¬ Refused A addr count datatype b m) :
    ∃ b' m', ffbufferResize A addr count datatype b m = some (ffSuccess, b', m') := by
  by_cases haddr : addr = A.null
  · subst haddr
    by_cases hneeds : A.NeedsMemory count datatype b m
    · cases hr : A.realloc b.ptr (A.request count datatype m) (A.afterSizes datatype b m) with
      | none => exact absurd ⟨rfl, hneeds, hr⟩ h
      | some r => exact ⟨_, _, ffbufferResize_granted hneeds hr⟩
    · exact ⟨_, _, ffbufferResize_fits hneeds⟩
  · exact ⟨_, _, ffbufferResize_user haddr⟩

/-- The only error of a resize is that of `realloc`. -/
theorem refused_of_error {code : Int} {b' : BufferBlock π} {m' : μ}
    (h : ffbufferResize A addr count datatype b m = some (code, b', m'))
    (herr : code ≠ ffSuccess) : Refused A addr count datatype b m := by
  by_contra hno
  obtain ⟨b'', m'', hok⟩ := resize_of_not_refused hno
  exact herr (congrArg Prod.fst (Option.some.inj (h.symm.trans hok)))

/-- A resize fails as it should iff the buffer had no memory to lose. -/
theorem resizeAtomic_iff {ω : Type v} {owned : μ → ω}
    (hjunk : ∀ m, owned (A.junk m).2 = owned m) :
    ResizeAtomic A owned addr count datatype b m ↔ FailsWithout A addr count datatype b m := by
  constructor
  · intro hatomic hfails
    obtain ⟨code, m', hr, herr, _⟩ := hatomic hfails
    have href := refused_of_error hr herr.1
    -- `ptr` is a null pointer afterwards
    have hb := (Option.some.inj (hr.symm.trans (resize_of_refused href)))
    have hptr := congrArg (fun r : Int × BufferBlock π × μ => r.2.1.ptr) hb
    exact ⟨hptr, href⟩
  · intro hwithout hfails
    obtain ⟨hptr, href⟩ := hwithout hfails
    have howned : ∀ datatype m, owned (A.unitsize datatype m).2 = owned m := by
      intro datatype m
      unfold Allocator.unitsize
      split
      · rfl
      · exact hjunk m
    refine ⟨ffEnomem, A.afterSizes datatype b m, ?_, by decide, ?_⟩
    · rw [resize_of_refused href, ← hptr]
    · rw [Allocator.afterSizes, howned, howned]

end Resize

/-! ### Creation -/

section Create

variable {p : Nat} {pools pools' : Nat → Pool} {handle blk : BlockPtr}

/-- A get changes the counter of the pool. -/
theorem get_currSize (h : PoolReady p pools)
    (hget : ffstoragePoolGet p pools = some (blk, pools')) :
    (pools' p).currSize ≠ (pools p).currSize := by
  have hcurr := h.curr_lt
  cases hhead : (pools p).head with
  | some b =>
      rw [ffstoragePoolGet_of_head hhead] at hget
      obtain ⟨_, rfl⟩ := Prod.mk.inj (Option.some.inj hget)
      rw [Function.update_self]
      simp only [subU32]
      omega
  | none =>
      have hone := h.one_lt
      have hsize := h.size_lt
      simp only [ffstoragePoolGet, hhead, if_true, allocPoolInternal, Function.update_self,
        Option.map_some, Option.some.injEq, Prod.mk.injEq] at hget
      obtain ⟨_, rfl⟩ := hget
      simp only [Function.update_self, subU32, addU32]
      omega

/-- A put of a block outside the pool, named after it or after another one. -/
theorem put_outside (pools : Nat → Pool) (hhandle : handle.1 ≠ p) :
    (ffstoragePoolPut handle pools p).head = some handle ∨
      ffstoragePoolPut handle pools p = pools p := by
  by_cases hq : (header pools handle).poolid = p
  · left
    simp only [ffstoragePoolPut, hq, Function.update_self]
  · right
    rw [ffstoragePoolPut, Function.update_of_ne (fun heq => hq heq.symm), setNext,
      Function.update_of_ne (fun heq => hhandle heq.symm)]

/-- The pool does not get its block back. -/
theorem put_not_samePool (h : PoolReady p pools)
    (hget : ffstoragePoolGet p pools = some (blk, pools')) (hhandle : handle.1 ≠ p) :
    ¬ SamePool p pools (ffstoragePoolPut handle pools') := by
  intro hsame
  rcases put_outside pools' hhandle with hhead | hpool
  · exact hhandle (h.head_mem handle (hsame.head_eq.symm.trans hhead))
  · have hcurr := hsame.curr_eq
    rw [hpool] at hcurr
    exact get_currSize h hget hcurr

variable {μ π : Type u} [DecidableEq π] {A : Allocator μ π} {addr : π} {count : Nat}
  {datatype : Int} {options : Nat} {m : μ}

/-- A creation meets what is asked of it only where it does not fail. -/
theorem createAtomic_iff (h : PoolReady p pools) (hhandle : handle.1 ≠ p) :
    CreateAtomic A p handle addr count datatype options pools m ↔
      ¬ CreateFails A addr count datatype options m := by
  constructor
  · intro hatomic hfails
    obtain ⟨code, r, pools', m', hcreate, herr, hsame⟩ := hatomic hfails
    obtain ⟨⟨blk, pools₁⟩, hget, hrest⟩ := Option.bind_eq_some_iff.mp hcreate
    obtain ⟨s, _, hs⟩ := Option.map_eq_some_iff.mp hrest
    split at hs
    · obtain ⟨hcode, _⟩ := Prod.mk.inj hs
      exact herr.1 hcode.symm
    · obtain ⟨_, _, hpools, _⟩ := hs
      exact put_not_samePool h hget hhandle hsame
  · intro hno hfails
    exact absurd hfails hno

end Create

/-! ### Pools in use -/

section Ready

variable {p : Nat} {t t' : PoolState}

/-- The counters of a pool of more than one block. -/
structure SizesOk (pool : Pool) : Prop where
  curr_lt : pool.currSize < 2 ^ 32
  one_lt : 1 < pool.poolSize
  size_lt : pool.poolSize < 2 ^ 32

theorem subU32_lt (a b : Nat) : subU32 a b < 2 ^ 32 := Nat.mod_lt _ (by decide)

theorem addU32_lt (a b : Nat) : addU32 a b < 2 ^ 32 := Nat.mod_lt _ (by decide)

theorem SizesOk.get (h : SizesOk (t.pools p)) (hdoubles : Raw.Doubles p t .get)
    {r : BlockPtr × (Nat → Pool)} (hget : ffstoragePoolGet p t.pools = some r) :
    SizesOk (r.2 p) := by
  cases hhead : (t.pools p).head with
  | some b =>
      rw [ffstoragePoolGet_of_head hhead] at hget
      obtain rfl := Option.some.inj hget
      simp only [Function.update_self]
      exact ⟨subU32_lt _ _, h.one_lt, h.size_lt⟩
  | none =>
      have hlt := hdoubles rfl hhead
      have hone := h.one_lt
      simp only [ffstoragePoolGet, hhead, if_true, allocPoolInternal, Function.update_self,
        Option.map_some, Option.some.injEq] at hget
      subst hget
      simp only [Function.update_self, Nat.mod_eq_of_lt hlt]
      refine ⟨subU32_lt _ _, ?_, hlt⟩
      exact Nat.lt_of_lt_of_le hone (Nat.le_mul_of_pos_right _ Nat.two_pos)

theorem SizesOk.put (h : SizesOk (t.pools p)) (b : BlockPtr) :
    SizesOk (ffstoragePoolPut b t.pools p) := by
  have hsetNext : ∀ next, SizesOk (setNext b next t.pools p) := by
    intro next
    rw [setNext]
    by_cases hb : p = b.1
    · subst hb
      rw [Function.update_self]
      exact ⟨h.curr_lt, h.one_lt, h.size_lt⟩
    · rw [Function.update_of_ne hb]
      exact h
  rw [ffstoragePoolPut]
  by_cases hq : p = (header t.pools b).poolid
  · rw [← hq, Function.update_self]
    exact ⟨addU32_lt _ _, (hsetNext _).one_lt, (hsetNext _).size_lt⟩
  · rw [Function.update_of_ne hq]
    exact hsetNext _

/-- Step lemma. -/
theorem SizesOk.step {c : PoolCall} (h : SizesOk (t.pools p)) (hdoubles : Raw.Doubles p t c)
    (hs : poolStep p t c = some t') : SizesOk (t'.pools p) := by
  cases c with
  | get =>
      obtain ⟨r, hget, rfl⟩ := Option.map_eq_some_iff.mp hs
      exact h.get hdoubles hget
  | put b =>
      simp only [poolStep] at hs
      split at hs
      · obtain rfl := Option.some.inj hs
        exact h.put b
      · cases hs

/-- A pool is ready whatever calls it has served, as long as its growth doubles it. -/
theorem poolReady_of_run {n : Nat} (hone : 1 < n) (hn : n < 2 ^ 32) {pools : Nat → Pool}
    (cs : List PoolCall)
    (hdoubles : RunMeets (poolStep p) (Raw.Doubles p) ⟨ffstoragePoolCreate p n pools, []⟩ cs)
    (hr : run (poolStep p) ⟨ffstoragePoolCreate p n pools, []⟩ cs = some t) :
    PoolReady p t.pools := by
  have hinit : SizesOk (ffstoragePoolCreate p n pools p) := by
    rw [ffstoragePoolCreate_self (by omega) hn]
    exact ⟨hn, hone, hn⟩
  have hsizes := run_induction_of_meets (fun _ _ _ h hc hs => SizesOk.step h hc hs) cs
    ⟨ffstoragePoolCreate p n pools, []⟩ t hinit hdoubles hr
  obtain ⟨raw, hcreate⟩ : ∃ raw, Raw.ffstoragePoolCreate p 0 n 0 Raw.noMemory = some raw :=
    ⟨_, if_neg (by omega)⟩
  obtain ⟨_, s, _, _, _, m, _, hsame⟩ := Raw.exists_same_run hn hcreate hdoubles hr
  constructor
  · intro b hb
    have hsome : (s.pools p).head ≠ none := by
      intro hnone
      have hnull := hsame.pool.head_same.eq_none_iff.mp hnone
      rw [hb] at hnull
      cases hnull
    obtain ⟨j, _, _, hhead⟩ := hsame.pool.head_same.exists_block hsome
    obtain rfl := Option.some.inj (hb.symm.trans hhead)
    rfl
  · exact hsizes.curr_lt
  · exact hsizes.one_lt
  · exact hsizes.size_lt

end Ready

section Main

variable {μ π : Type u} [DecidableEq π] {A : Allocator μ π}

/-- **Failing calls**: a resize fails as it should iff the buffer had no memory and gets
none, and a creation that should fail never does so properly. -/
theorem atomicity_iff {ω : Type v} {owned : μ → ω} (hjunk : ∀ m, owned (A.junk m).2 = owned m)
    {p : Nat} {pools : Nat → Pool} (hready : PoolReady p pools) {handle : BlockPtr}
    (hhandle : handle.1 ≠ p) (addr : π) (count : Nat) (datatype : Int) (options : Nat)
    (b : BufferBlock π) (m : μ) :
    (ResizeAtomic A owned addr count datatype b m ↔ FailsWithout A addr count datatype b m) ∧
      (CreateAtomic A p handle addr count datatype options pools m ↔
        ¬ CreateFails A addr count datatype options m) :=
  ⟨resizeAtomic_iff hjunk, createAtomic_iff hready hhandle⟩

end Main

/-! ### A heap that is full -/

/-- Every request is refused; a pointer is a number of bytes. -/
def fullAllocator : Allocator Unit (Option Nat) where
  null := none
  realloc _ _ _ := none
  free _ m := m
  read32 _ _ := 0
  writeIdx _ p := p
  junk m := (0, m)

/-- A buffer with room for one `FFINT32`. -/
def oneInt : BufferBlock (Option Nat) where
  type := .ptr
  selfalloc := true
  ptr := some 4
  count := 1
  datatype := 0
  options := 0

theorem poolReady_two : PoolReady 0 (ffstoragePoolCreate 0 2 noPools) :=
  poolReady_of_run (by decide) (by decide) [] trivial rfl

theorem atomicity_iff_oneInt :
    (ResizeAtomic fullAllocator id none 2 0 oneInt () ↔
        FailsWithout fullAllocator none 2 0 oneInt ()) ∧
      (CreateAtomic fullAllocator 0 (200, 0) none 2 0 0 (ffstoragePoolCreate 0 2 noPools) () ↔
        ¬ CreateFails fullAllocator none 2 0 0 ()) :=
  atomicity_iff (fun _ => rfl) poolReady_two (by decide) none 2 0 0 oneInt ()

/-- The buffer is to hold two numbers: its memory is lost. -/
theorem atomicity_fails :
    ¬ ∀ (addr : Option Nat) (count : Nat) (datatype : Int) (options : Nat)
        (b : BufferBlock (Option Nat)) (p : Nat) (pools : Nat → Pool) (handle : BlockPtr),
      PoolReady p pools → handle.1 ≠ p →
      ResizeAtomic fullAllocator id addr count datatype b () ∧
        CreateAtomic fullAllocator p handle addr count datatype options pools () := by
  intro hall
  have hatomic := (hall none 2 0 0 oneInt 0 (ffstoragePoolCreate 0 2 noPools) (200, 0)
    poolReady_two (by decide)).1
  have hfails : ResizeFails fullAllocator none 2 0 oneInt () :=
    Or.inr ⟨rfl, Or.inr (by decide), rfl⟩
  have hptr := ((resizeAtomic_iff (fun _ => rfl)).mp hatomic hfails).1
  cases hptr

end Fflib
