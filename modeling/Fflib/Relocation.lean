import Fflib.Storage
import Fflib.Library.Region

/-!
# Pools in moving memory

The pools of `ffstorage.c` with the addresses of their blocks.  Growth calls `realloc`,
which copies the blocks and answers with an address of its choice; pointers are numbers,
and stay what they are.

**Memory.**  The blocks of a pool are an array at the address `base`.  A read or a write
through a pointer that is not the address of a block of it is left out (`none`).  Blocks
that `realloc` has not copied have any contents.

`growth_iff`: handles survive the calls of a run iff every growth leaves the memory where it
is, with room for the blocks that are held.
-/

namespace Fflib

open Library

universe u

namespace Raw

/-- `sizeof(ffmem_block_t)`. -/
def headerSize : Nat := 24

/-- A block: its header, and what its holder has left in it. -/
structure MemBlock (δ : Type u) where
  poolid : Nat
  id : Nat
  next : Option Nat
  data : δ

/-- `ffpool_t`; `base` is `mem`. -/
structure Pool (δ : Type u) where
  base : Nat
  mem : Nat → MemBlock δ
  head : Option Nat
  poolSize : Nat
  currSize : Nat
  elemSize : Nat

section Functions

variable {δ : Type u}

/-- The memory of a pool. -/
def Pool.region (p : Pool δ) : Region where
  base := p.base
  stride := headerSize + p.elemSize
  size := p.poolSize

/-- The block behind a handle. -/
def Pool.blockOf (p : Pool δ) (ptr : Nat) : Option Nat := p.region.index? (ptr - headerSize)

/-- What a holder finds in its block. -/
def Pool.contents (p : Pool δ) (ptr : Nat) : Option δ :=
  (p.blockOf ptr).map (fun i => (p.mem i).data)

/-- The loop of `alloc_pool_internal`: `k` iterations from `i` on; `GET` is the address of a
block. -/
def linkBlocks (poolid : Nat) (GET : Nat → Nat) :
    Nat → Nat → (Nat → MemBlock δ) → Nat → MemBlock δ
  | 0, _, mem => mem
  | k + 1, i, mem =>
      linkBlocks poolid GET k (i + 1) (Function.update mem i
        { poolid := poolid, id := i, next := some (GET (i + 1)), data := (mem i).data })

/-- `alloc_pool_internal`, when `realloc` answers `addr`; `none` is the store behind an
empty array, for `0` blocks. -/
def allocPoolInternal (poolid elemSize count addr : Nat) (pools : Nat → Pool δ) :
    Option (Nat → Pool δ) :=
  if count = 0 then none
  else
    let p := pools poolid
    let region : Region := ⟨addr, headerSize + elemSize, count⟩
    let last := subU32 count 1
    let mem := linkBlocks poolid region.addr (last - p.currSize) p.currSize p.mem
    some (Function.update pools poolid
      { base := addr
        mem := Function.update mem last
          { poolid := poolid, id := last, next := none, data := (mem last).data }
        head := some addr
        poolSize := count
        currSize := addU32 p.currSize (subU32 count p.poolSize)
        elemSize := p.elemSize })

/-- `ffstorage_pool_create`, after `ffarman_get` has answered `poolid`. -/
def ffstoragePoolCreate (poolid elemSize initialCount addr : Nat) (pools : Nat → Pool δ) :
    Option (Nat → Pool δ) :=
  allocPoolInternal poolid elemSize initialCount addr
    (Function.update pools poolid
      { base := (pools poolid).base
        mem := (pools poolid).mem
        head := none
        poolSize := 0
        currSize := 0
        elemSize := elemSize })

/-- `ffstorage_pool_get`; `addr` is the answer of `realloc`, if it is called. -/
def ffstoragePoolGet (poolid addr : Nat) (pools : Nat → Pool δ) :
    Option (Nat × (Nat → Pool δ)) :=
  (if (pools poolid).head = none then
    allocPoolInternal poolid (pools poolid).elemSize ((pools poolid).poolSize * 2 % 2 ^ 32)
      addr pools
  else some pools).bind fun pools₁ =>
    let p := pools₁ poolid
    p.head.bind fun head =>
      (p.region.index? head).map fun i =>
        (head + headerSize, Function.update pools₁ poolid
          { p with head := (p.mem i).next, currSize := subU32 p.currSize 1 })

/-- `ffstorage_pool_put` of a pointer into the memory of the pool `poolid`. -/
def ffstoragePoolPut (poolid ptr : Nat) (pools : Nat → Pool δ) : Option (Nat → Pool δ) :=
  let p := pools poolid
  (p.blockOf ptr).map fun i =>
    let q := (p.mem i).poolid
    let pools₁ := Function.update pools poolid
      { p with mem := Function.update p.mem i { p.mem i with next := (pools q).head } }
    Function.update pools₁ q
      { pools₁ q with
        head := some (ptr - headerSize)
        currSize := addU32 (pools₁ q).currSize 1 }

/-- A holder writes to its block. -/
def write (poolid ptr : Nat) (d : δ) (pools : Nat → Pool δ) : Option (Nat → Pool δ) :=
  let p := pools poolid
  (p.blockOf ptr).map fun i =>
    Function.update pools poolid
      { p with mem := Function.update p.mem i { p.mem i with data := d } }

end Functions

/-! ### Runs -/

/-- A handle that a get has returned, and the number of the block that it was. -/
structure Holding where
  handle : Nat
  block : Option Nat
deriving DecidableEq

/-- The pools, and the handles that have not been put back. -/
structure PoolState (δ : Type u) where
  pools : Nat → Pool δ
  held : List Holding

inductive PoolCall (δ : Type u) where
  | get (addr : Nat)
  | put (e : Holding)
  | write (e : Holding) (d : δ)

section Runs

variable {δ : Type u}

/-- One call for the pool `p`; only handles that are held are put or written through. -/
def poolStep (p : Nat) (s : PoolState δ) : PoolCall δ → Option (PoolState δ)
  | .get addr => (ffstoragePoolGet p addr s.pools).map fun r =>
      ⟨r.2, ⟨r.1, (r.2 p).blockOf r.1⟩ :: s.held⟩
  | .put e =>
      if e ∈ s.held then
        (ffstoragePoolPut p e.handle s.pools).map fun pools => ⟨pools, s.held.erase e⟩
      else none
  | .write e d =>
      if e ∈ s.held then (write p e.handle d s.pools).map fun pools => ⟨pools, s.held⟩
      else none

/-- A handle leads to its own block in the memory of the pool, and a put of it links this
block. -/
structure HandleOk (p : Nat) (s : PoolState δ) (e : Holding) : Prop where
  block_isSome : e.block.isSome = true
  position : (s.pools p).blockOf e.handle = e.block
  put_links : ∃ pools', ffstoragePoolPut p e.handle s.pools = some pools' ∧
    (pools' p).head.bind (pools' p).region.index? = e.block

/-- So do all handles that are held. -/
def HandlesOk (p : Nat) (s : PoolState δ) : Prop := ∀ e ∈ s.held, HandleOk p s e

/-- A call of a pool function leaves what is in the blocks that are held. -/
def KeepsContents (p : Nat) (s : PoolState δ) : PoolCall δ → Prop
  | .write _ _ => True
  | c => ∀ s', poolStep p s c = some s' → ∀ e ∈ s.held, e ∈ s'.held →
      (s'.pools p).contents e.handle = (s.pools p).contents e.handle

/-- Growth leaves the memory where it is, with room for the blocks that are held. -/
def GrowsInPlace (p : Nat) (s : PoolState δ) : PoolCall δ → Prop
  | .get addr => (s.pools p).head = none → (s.pools p).poolSize * 2 % 2 ^ 32 ≠ 0 →
      addr = (s.pools p).base ∧ ∀ e ∈ s.held, ∀ i, e.block = some i →
        i < (s.pools p).poolSize * 2 % 2 ^ 32
  | _ => True

end Runs

/-! ### Links that stay inside the memory -/

section Sound

variable {δ : Type u}

theorem stride_pos (p : Pool δ) : 0 < p.region.stride :=
  Nat.add_pos_left (by decide) p.elemSize

/-- A null pointer, or the address of one of the first `m` blocks. -/
def LeadsInto (r : Region) (m : Nat) (ptr : Option Nat) : Prop :=
  ∀ a, ptr = some a → ∃ j, j < m ∧ a = r.addr j

/-- The first `m` blocks have been linked among each other, and all handles are theirs. -/
structure Sound (p : Nat) (pool : Pool δ) (held : List Holding) (m : Nat) : Prop where
  poolid_eq : ∀ i, i < m → (pool.mem i).poolid = p
  next_mem : ∀ i, i < m → LeadsInto pool.region m (pool.mem i).next
  head_mem : LeadsInto pool.region m pool.head
  held_mem : ∀ e ∈ held, ∃ i, i < m ∧ i < pool.poolSize ∧ e.block = some i ∧
    e.handle = pool.region.addr i + headerSize

theorem linkBlocks_mem (poolid : Nat) (GET : Nat → Nat) (k i : Nat) (mem : Nat → MemBlock δ)
    (j : Nat) :
    linkBlocks poolid GET k i mem j =
      if i ≤ j ∧ j < i + k then
        { poolid := poolid, id := j, next := some (GET (j + 1)), data := (mem j).data }
      else mem j := by
  induction k generalizing i mem with
  | zero =>
      rw [if_neg (by omega)]
      rfl
  | succ k ih =>
      rw [linkBlocks, ih (i + 1)]
      by_cases hj : j = i
      · subst hj
        rw [if_neg (by omega), if_pos (by omega), Function.update_self]
      · rw [Function.update_of_ne hj]
        by_cases hjl : i + 1 ≤ j ∧ j < i + 1 + k
        · rw [if_pos hjl, if_pos (by omega)]
        · rw [if_neg hjl, if_neg (by omega)]

/-- What growth does to the pool. -/
structure Grown (p : Nat) (pool pool' : Pool δ) (count addr : Nat) : Prop where
  base_eq : pool'.base = addr
  elem_eq : pool'.elemSize = pool.elemSize
  size_eq : pool'.poolSize = count
  head_eq : pool'.head = some addr
  curr_eq : pool'.currSize = addU32 pool.currSize (subU32 count pool.poolSize)
  data_eq : ∀ j, (pool'.mem j).data = (pool.mem j).data
  last : pool'.mem (count - 1) = ⟨p, count - 1, none, (pool.mem (count - 1)).data⟩
  linked : ∀ j, pool.currSize ≤ j → j < count - 1 →
    pool'.mem j = ⟨p, j, some (pool'.region.addr (j + 1)), (pool.mem j).data⟩
  old : ∀ j, j ≠ count - 1 → (j < pool.currSize ∨ count - 1 ≤ j) → pool'.mem j = pool.mem j

theorem allocPoolInternal_spec {p elemSize count : Nat} (addr : Nat) {pools : Nat → Pool δ}
    {pool : Pool δ} (hpool : pools p = pool) (helem : elemSize = pool.elemSize)
    (hpos : 0 < count) (hlt : count < 2 ^ 32) :
    ∃ pools', allocPoolInternal p elemSize count addr pools = some pools' ∧
      Grown p pool (pools' p) count addr := by
  subst hpool helem
  have hlast : subU32 count 1 = count - 1 := subU32_of_le hpos hlt
  refine ⟨_, if_neg (Nat.ne_of_gt hpos), ?_⟩
  rw [Function.update_self, hlast]
  constructor
  · rfl
  · rfl
  · rfl
  · rfl
  · rfl
  · intro j
    by_cases hj : j = count - 1
    · simp only [hj, Function.update_self, linkBlocks_mem]
      split
      · rfl
      · rfl
    · simp only [Function.update_of_ne hj, linkBlocks_mem]
      split
      · rfl
      · rfl
  · simp only [Function.update_self, linkBlocks_mem]
    split
    · rfl
    · rfl
  · intro j hc hj
    have hne : j ≠ count - 1 := by omega
    simp only [Function.update_of_ne hne, linkBlocks_mem]
    rw [if_pos (by omega)]
    rfl
  · intro j hne hj
    simp only [Function.update_of_ne hne, linkBlocks_mem]
    rw [if_neg (by omega)]

/-- A pool is created by growth from no block. -/
theorem ffstoragePoolCreate_grown {p elemSize n base : Nat} {pools pools₀ : Nat → Pool δ}
    (hn : n < 2 ^ 32) (h : ffstoragePoolCreate p elemSize n base pools = some pools₀) :
    0 < n ∧ Grown p { pools p with
      head := none, poolSize := 0, currSize := 0, elemSize := elemSize } (pools₀ p) n base := by
  have hpos : 0 < n := by
    refine Nat.pos_of_ne_zero (fun hzero => ?_)
    rw [ffstoragePoolCreate, allocPoolInternal, if_pos hzero] at h
    cases h
  obtain ⟨pools', halloc, hg⟩ := allocPoolInternal_spec base
    (Function.update_self p { pools p with
      head := none, poolSize := 0, currSize := 0, elemSize := elemSize } pools) rfl hpos hn
  obtain rfl := Option.some.inj (halloc.symm.trans h)
  exact ⟨hpos, hg⟩

/-- Growth in place moves no block. -/
theorem Grown.addr_eq {p m count addr : Nat} {pool pool' : Pool δ}
    (hg : Grown p pool pool' count addr) (hbase : 0 < m → addr = pool.base) :
    ∀ i, i < m → pool'.region.addr i = pool.region.addr i := by
  intro i hi
  refine Region.addr_congr (hg.base_eq.trans (hbase (by omega))) ?_
  simp only [Pool.region, hg.elem_eq]

theorem Grown.first_eq {p count addr : Nat} {pool pool' : Pool δ}
    (hg : Grown p pool pool' count addr) : addr = pool'.region.addr 0 := by
  simp only [Region.addr, Pool.region, hg.base_eq, Nat.mul_zero, Nat.add_zero]

theorem LeadsInto.mono {r r' : Region} {m m' : Nat} {ptr : Option Nat} (h : LeadsInto r m ptr)
    (hle : m ≤ m') (haddr : ∀ i, i < m → r'.addr i = r.addr i) : LeadsInto r' m' ptr := by
  intro a ha
  obtain ⟨j, hj, rfl⟩ := h a ha
  exact ⟨j, by omega, (haddr j hj).symm⟩

theorem leadsInto_none (r : Region) (m : Nat) : LeadsInto r m none := fun _ ha => nomatch ha

theorem leadsInto_addr {r : Region} {m j : Nat} (hj : j < m) : LeadsInto r m (some (r.addr j)) :=
  fun _ ha => ⟨j, hj, (Option.some.inj ha).symm⟩

/-- Writing to a block changes no header. -/
theorem write_header (mem : Nat → MemBlock δ) (i : Nat) (d : δ) :
    (∀ j, (Function.update mem i { mem i with data := d } j).poolid = (mem j).poolid) ∧
      (∀ j, (Function.update mem i { mem i with data := d } j).id = (mem j).id) ∧
      ∀ j, (Function.update mem i { mem i with data := d } j).next = (mem j).next := by
  have hheader : ∀ {α : Type} (f : MemBlock δ → α),
      (∀ b : MemBlock δ, f { b with data := d } = f b) →
      ∀ j, f (Function.update mem i { mem i with data := d } j) = f (mem j) := by
    intro α f hf j
    by_cases hji : j = i
    · subst hji
      rw [Function.update_self]
      exact hf (mem j)
    · rw [Function.update_of_ne hji]
  exact ⟨hheader MemBlock.poolid (fun _ => rfl), hheader MemBlock.id (fun _ => rfl),
    hheader MemBlock.next (fun _ => rfl)⟩

namespace Sound

variable {p m : Nat} {pool : Pool δ} {held : List Holding}

/-- The blocks that growth links follow those that were linked before, or leave them as they
are. -/
theorem linked_after {m c count : Nat} (hpos : 0 < count) (hm : 0 < m ∨ c = 0) :
    ∃ m', m ≤ m' ∧ 0 < m' ∧ m' ≤ max m count ∧ ∀ i, i < m' → i = count - 1 ∨
      (c ≤ i ∧ i < count - 1 ∧ i + 1 < m') ∨
      (i < m ∧ i ≠ count - 1 ∧ (i < c ∨ count - 1 ≤ i)) := by
  by_cases hc : c ≤ m
  · refine ⟨max m count, by omega, by omega, by omega, fun i hi => ?_⟩
    omega
  · refine ⟨m, by omega, by omega, by omega, fun i hi => ?_⟩
    omega

/-- Growth in place; a pool that is created has no block yet. -/
theorem grow (h : Sound p pool held m) {pool' : Pool δ} {count addr : Nat}
    (hg : Grown p pool pool' count addr) (hpos : 0 < count) (hm : 0 < m ∨ pool.currSize = 0)
    (hbase : 0 < m → addr = pool.base)
    (hroom : ∀ e ∈ held, ∀ i, e.block = some i → i < count) :
    ∃ m', 0 < m' ∧ Sound p pool' held m' := by
  obtain ⟨m', hle, hpos', _, hcases⟩ := linked_after hpos hm
  have haddr := hg.addr_eq hbase
  refine ⟨m', hpos', ?_⟩
  constructor
  · intro i hi
    rcases hcases i hi with rfl | ⟨hc, hlt, _⟩ | ⟨him, hne, hold⟩
    · rw [hg.last]
    · rw [hg.linked i hc hlt]
    · rw [hg.old i hne hold]
      exact h.poolid_eq i him
  · intro i hi
    rcases hcases i hi with rfl | ⟨hc, hlt, hnext⟩ | ⟨him, hne, hold⟩
    · rw [hg.last]
      exact leadsInto_none _ _
    · rw [hg.linked i hc hlt]
      exact leadsInto_addr hnext
    · rw [hg.old i hne hold]
      exact (h.next_mem i him).mono hle haddr
  · rw [hg.head_eq, hg.first_eq]
    exact leadsInto_addr hpos'
  · intro e he
    obtain ⟨i, him, _, hblock, hhandle⟩ := h.held_mem e he
    refine ⟨i, by omega, ?_, hblock, ?_⟩
    · rw [hg.size_eq]
      exact hroom e he i hblock
    · rw [haddr i him, hhandle]

/-- The first block of the free list is taken. -/
theorem take (h : Sound p pool held m) {b i : Nat} (hhead : pool.head = some b)
    (hi : pool.region.index? b = some i) (currSize : Nat) :
    Sound p { pool with head := (pool.mem i).next, currSize := currSize }
      (⟨b + headerSize, some i⟩ :: held) m := by
  obtain ⟨hlt, hb⟩ := (Region.index?_eq_some_iff (stride_pos pool)).mp hi
  obtain ⟨j, hj, hbj⟩ := h.head_mem b hhead
  have hij : i < m := Region.addr_inj (stride_pos pool) (hb.symm.trans hbj) ▸ hj
  constructor
  · exact h.poolid_eq
  · exact h.next_mem
  · exact h.next_mem i hij
  · intro e he
    rcases List.mem_cons.mp he with rfl | he
    · exact ⟨i, hij, hlt, rfl, congrArg (· + headerSize) hb⟩
    · exact h.held_mem e he

/-- A block is linked in front of the free list. -/
theorem link (h : Sound p pool held m) {i : Nat} (hi : i < m) (currSize : Nat)
    {held' : List Holding} (hsub : ∀ e ∈ held', e ∈ held) :
    Sound p
      { pool with
        mem := Function.update pool.mem i { pool.mem i with next := pool.head }
        head := some (pool.region.addr i)
        currSize := currSize } held' m := by
  constructor
  · intro j hj
    by_cases hji : j = i
    · subst hji
      simpa only [Function.update_self] using h.poolid_eq j hj
    · simpa only [Function.update_of_ne hji] using h.poolid_eq j hj
  · intro j hj
    by_cases hji : j = i
    · subst hji
      simp only [Function.update_self]
      exact h.head_mem
    · simp only [Function.update_of_ne hji]
      exact h.next_mem j hj
  · exact leadsInto_addr hi
  · intro e he
    exact h.held_mem e (hsub e he)

theorem write (h : Sound p pool held m) (i : Nat) (d : δ) :
    Sound p { pool with mem := Function.update pool.mem i { pool.mem i with data := d } }
      held m := by
  obtain ⟨hpoolid, _, hnext⟩ := write_header pool.mem i d
  constructor
  · intro j hj
    rw [hpoolid j]
    exact h.poolid_eq j hj
  · intro j hj
    rw [hnext j]
    exact h.next_mem j hj
  · exact h.head_mem
  · exact h.held_mem

end Sound

end Sound

/-! ### The calls -/

section Calls

variable {δ : Type u} {p : Nat} {s s' : PoolState δ}

/-- What holds as long as the memory has not moved. -/
def GrowthInv (p : Nat) (s : PoolState δ) : Prop :=
  ∃ m, 0 < m ∧ Sound p (s.pools p) s.held m ∧ ((s.pools p).head = none → s.held ≠ [])

theorem Sound.blockOf {pool : Pool δ} {held : List Holding} {m : Nat}
    (h : Sound p pool held m) {e : Holding} (he : e ∈ held) :
    ∃ i, i < m ∧ i < pool.poolSize ∧ e.block = some i ∧ e.handle - headerSize = pool.region.addr i ∧
      pool.blockOf e.handle = some i := by
  obtain ⟨i, him, hi, hblock, hhandle⟩ := h.held_mem e he
  have haddr : e.handle - headerSize = pool.region.addr i := by
    rw [hhandle, Nat.add_sub_cancel]
  refine ⟨i, him, hi, hblock, haddr, ?_⟩
  rw [Pool.blockOf, haddr]
  exact Region.index?_addr (stride_pos pool) hi

/-- A put of a block whose header names its own pool. -/
theorem ffstoragePoolPut_of {pools : Nat → Pool δ} {ptr i : Nat}
    (hi : (pools p).blockOf ptr = some i) (hp : ((pools p).mem i).poolid = p) :
    ffstoragePoolPut p ptr pools = some (Function.update pools p
      { pools p with
        mem := Function.update (pools p).mem i
          { (pools p).mem i with next := (pools p).head }
        head := some (ptr - headerSize)
        currSize := addU32 (pools p).currSize 1 }) := by
  simp only [ffstoragePoolPut, hi, Option.map_some, hp, Function.update_self,
    Function.update_idem]

/-- The pool without the block at the head of its free list. -/
def Pool.takeHead (pool : Pool δ) (i : Nat) : Pool δ :=
  { pool with head := (pool.mem i).next, currSize := subU32 pool.currSize 1 }

/-- The pools from which a get takes a block. -/
def readyPools (p addr : Nat) (pools : Nat → Pool δ) : Option (Nat → Pool δ) :=
  if (pools p).head = none then
    allocPoolInternal p (pools p).elemSize ((pools p).poolSize * 2 % 2 ^ 32) addr pools
  else some pools

/-- What a get does. -/
theorem poolStep_get_iff {addr : Nat} : poolStep p s (.get addr) = some s' ↔
    ∃ pools₁ b i, readyPools p addr s.pools = some pools₁ ∧ (pools₁ p).head = some b ∧
      (pools₁ p).region.index? b = some i ∧ s'.held = ⟨b + headerSize, some i⟩ :: s.held ∧
      s'.pools = Function.update pools₁ p ((pools₁ p).takeHead i) := by
  have hblock : ∀ (pool : Pool δ) (b i : Nat), pool.region.index? b = some i →
      (pool.takeHead i).blockOf (b + headerSize) = some i := by
    intro pool b i hi
    rw [Pool.blockOf, Nat.add_sub_cancel]
    exact hi
  constructor
  · intro hs
    obtain ⟨⟨ptr, pools'⟩, hget, rfl⟩ := Option.map_eq_some_iff.mp hs
    obtain ⟨pools₁, h₁, h₂⟩ := Option.bind_eq_some_iff.mp hget
    obtain ⟨b, hb, h₃⟩ := Option.bind_eq_some_iff.mp h₂
    obtain ⟨i, hi, heq⟩ := Option.map_eq_some_iff.mp h₃
    obtain ⟨rfl, rfl⟩ := Prod.mk.inj heq
    refine ⟨pools₁, b, i, h₁, hb, hi, ?_, rfl⟩
    simp only [Function.update_self]
    exact congrArg (fun block => Holding.mk (b + headerSize) block :: s.held) (hblock _ b i hi)
  · rintro ⟨pools₁, b, i, h₁, hb, hi, hheld, hpools⟩
    obtain ⟨pools', held'⟩ := s'
    simp only at hheld hpools
    subst hheld hpools
    have hget : ffstoragePoolGet p addr s.pools = some (b + headerSize,
        Function.update pools₁ p ((pools₁ p).takeHead i)) := by
      refine Option.bind_eq_some_iff.mpr ⟨pools₁, h₁, ?_⟩
      simp only [hb, Option.bind_some, hi, Option.map_some]
      rfl
    simp only [poolStep, hget, Option.map_some, Function.update_self, hblock _ b i hi]

/-- What a put does. -/
theorem poolStep_put {e : Holding} (hs : poolStep p s (.put e) = some s') :
    e ∈ s.held ∧ ∃ pools', ffstoragePoolPut p e.handle s.pools = some pools' ∧
      s' = ⟨pools', s.held.erase e⟩ := by
  simp only [poolStep] at hs
  split at hs
  · next he =>
      obtain ⟨pools', hput, rfl⟩ := Option.map_eq_some_iff.mp hs
      exact ⟨he, pools', hput, rfl⟩
  · cases hs

/-- What writing to a block does. -/
theorem poolStep_write {e : Holding} {d : δ} (hs : poolStep p s (.write e d) = some s') :
    e ∈ s.held ∧ ∃ i, (s.pools p).blockOf e.handle = some i ∧
      s' = ⟨Function.update s.pools p { s.pools p with
        mem := Function.update (s.pools p).mem i { (s.pools p).mem i with data := d } },
        s.held⟩ := by
  simp only [poolStep] at hs
  split at hs
  · next he =>
      obtain ⟨pools', hw, rfl⟩ := Option.map_eq_some_iff.mp hs
      obtain ⟨i, hi, rfl⟩ := Option.map_eq_some_iff.mp hw
      exact ⟨he, i, hi, rfl⟩
  · cases hs

/-- Before a get takes a block, the pool has it, with the contents of all others. -/
theorem GrowthInv.ready (h : GrowthInv p s) {addr : Nat} {pools₁ : Nat → Pool δ}
    (hplace : GrowsInPlace p s (.get addr))
    (h₁ : readyPools p addr s.pools = some pools₁) :
    (∃ m, 0 < m ∧ Sound p (pools₁ p) s.held m) ∧
      ∀ j, ((pools₁ p).mem j).data = ((s.pools p).mem j).data := by
  obtain ⟨m, hm, hsound, _⟩ := h
  unfold readyPools at h₁
  split at h₁
  · next hhead =>
      by_cases hcount : (s.pools p).poolSize * 2 % 2 ^ 32 = 0
      · rw [allocPoolInternal, if_pos hcount] at h₁
        cases h₁
      · obtain ⟨pools', heq, hg⟩ := allocPoolInternal_spec addr
          (rfl : s.pools p = s.pools p) rfl (Nat.pos_of_ne_zero hcount) (Nat.mod_lt _ (by decide))
        obtain rfl := Option.some.inj (heq.symm.trans h₁)
        obtain ⟨hbase, hroom⟩ := hplace hhead hcount
        exact ⟨hsound.grow hg (Nat.pos_of_ne_zero hcount) (Or.inl hm) (fun _ => hbase) hroom,
          hg.data_eq⟩
  · obtain rfl := Option.some.inj h₁
    exact ⟨⟨m, hm, hsound⟩, fun j => rfl⟩

/-- Step lemma. -/
theorem GrowthInv.step (h : GrowthInv p s) {c : PoolCall δ} (hplace : GrowsInPlace p s c)
    (hs : poolStep p s c = some s') : GrowthInv p s' := by
  cases c with
  | get addr =>
      obtain ⟨pools₁, b, i, h₁, hb, hi, hheld, hpools⟩ := poolStep_get_iff.mp hs
      obtain ⟨⟨m, hm, hsound⟩, _⟩ := h.ready hplace h₁
      refine ⟨m, hm, ?_, fun _ => hheld ▸ List.cons_ne_nil _ _⟩
      rw [hheld, hpools, Function.update_self]
      exact hsound.take hb hi _
  | put e =>
      obtain ⟨he, pools', hput, rfl⟩ := poolStep_put hs
      obtain ⟨m, hm, hsound, _⟩ := h
      obtain ⟨i, him, _, _, haddr, hblock⟩ := hsound.blockOf he
      rw [ffstoragePoolPut_of hblock (hsound.poolid_eq i him)] at hput
      obtain rfl := Option.some.inj hput
      refine ⟨m, hm, ?_, fun hnone => ?_⟩
      · simp only [Function.update_self, haddr]
        exact hsound.link him _ (fun e' he' => List.mem_of_mem_erase he')
      · simp only [Function.update_self, reduceCtorEq] at hnone
  | write e d =>
      obtain ⟨_, i, _, rfl⟩ := poolStep_write hs
      obtain ⟨m, hm, hsound, hheld⟩ := h
      refine ⟨m, hm, ?_, ?_⟩
      · simp only [Function.update_self]
        exact hsound.write i d
      · simp only [Function.update_self]
        exact hheld

/-- Handles survive as long as the memory has not moved. -/
theorem GrowthInv.handlesOk (h : GrowthInv p s) : HandlesOk p s := by
  intro e he
  obtain ⟨m, _, hsound, _⟩ := h
  obtain ⟨i, him, hi, hblock, haddr, hpos⟩ := hsound.blockOf he
  constructor
  · rw [hblock]
    rfl
  · rw [hblock]
    exact hpos
  · refine ⟨_, ffstoragePoolPut_of hpos (hsound.poolid_eq i him), ?_⟩
    rw [Function.update_self, hblock, haddr]
    exact Region.index?_addr (stride_pos (s.pools p)) hi

/-- What holders have left in their blocks stays. -/
theorem GrowthInv.keepsContents (h : GrowthInv p s) {c : PoolCall δ}
    (hplace : GrowsInPlace p s c) : KeepsContents p s c := by
  have hcontents : ∀ s', poolStep p s c = some s' →
      (∀ j, ((s'.pools p).mem j).data = ((s.pools p).mem j).data) →
      ∀ e ∈ s.held, e ∈ s'.held →
        (s'.pools p).contents e.handle = (s.pools p).contents e.handle := by
    intro s' hs hdata e he he'
    have hpos := (h.handlesOk e he).position
    have hpos' := ((h.step hplace hs).handlesOk e he').position
    simp only [Pool.contents, hpos, hpos', hdata]
  cases c with
  | get addr =>
      intro s' hs
      refine hcontents s' hs ?_
      obtain ⟨pools₁, b, i, h₁, _, _, _, hpools⟩ := poolStep_get_iff.mp hs
      intro j
      rw [hpools, Function.update_self]
      exact (h.ready hplace h₁).2 j
  | put e =>
      intro s' hs
      refine hcontents s' hs ?_
      obtain ⟨he, pools', hput, rfl⟩ := poolStep_put hs
      obtain ⟨m, _, hsound, _⟩ := h
      obtain ⟨i, him, _, _, _, hblock⟩ := hsound.blockOf he
      rw [ffstoragePoolPut_of hblock (hsound.poolid_eq i him)] at hput
      obtain rfl := Option.some.inj hput
      intro j
      simp only [Function.update_self]
      by_cases hji : j = i
      · rw [hji, Function.update_self]
      · rw [Function.update_of_ne hji]
  | write e d => trivial

/-- A growth after which the handles lead to their blocks was one in place. -/
theorem GrowthInv.growsInPlace (h : GrowthInv p s) {c : PoolCall δ} (hok : HandlesOk p s)
    (hnext : ∀ s', poolStep p s c = some s' → HandlesOk p s') : GrowsInPlace p s c := by
  cases c with
  | get addr =>
      intro hhead hcount
      obtain ⟨pools₁, halloc, hg⟩ := allocPoolInternal_spec addr (rfl : s.pools p = s.pools p)
        rfl (Nat.pos_of_ne_zero hcount) (Nat.mod_lt _ (by decide))
      have hready : readyPools p addr s.pools = some pools₁ := (if_pos hhead).trans halloc
      have hfirst : (pools₁ p).region.index? addr = some 0 := by
        have hsize : 0 < (pools₁ p).region.size := by
          rw [Pool.region, hg.size_eq]
          exact Nat.pos_of_ne_zero hcount
        rw [← Region.index?_addr (stride_pos (pools₁ p)) hsize, ← hg.first_eq]
      -- the get succeeds, and the handles are looked for in the new memory
      obtain ⟨s', hs, hheld, hpool⟩ : ∃ s', poolStep p s (.get addr) = some s' ∧
          (∀ e ∈ s.held, e ∈ s'.held) ∧ (s'.pools p).region = (pools₁ p).region := by
        refine ⟨⟨Function.update pools₁ p ((pools₁ p).takeHead 0),
          ⟨addr + headerSize, some 0⟩ :: s.held⟩, poolStep_get_iff.mpr
          ⟨pools₁, addr, 0, hready, hg.head_eq, hfirst, rfl, rfl⟩, ?_, ?_⟩
        · exact fun e he => List.mem_cons_of_mem _ he
        · simp only [Function.update_self]
          rfl
      have hok' := hnext s' hs
      have hmoved : ∀ e ∈ s.held, ∀ i, e.block = some i →
          (s.pools p).region.index? (e.handle - headerSize) = some i ∧
          (pools₁ p).region.index? (e.handle - headerSize) = some i := by
        intro e he i hblock
        have hpos := (hok e he).position
        have hpos' := (hok' e (hheld e he)).position
        rw [Pool.blockOf, hpool] at hpos'
        exact ⟨hpos.trans hblock, hpos'.trans hblock⟩
      constructor
      · obtain ⟨e, he⟩ := List.exists_mem_of_ne_nil _ (h.choose_spec.2.2 hhead)
        obtain ⟨i, hblock⟩ := Option.isSome_iff_exists.mp (hok e he).block_isSome
        obtain ⟨hold, hnew⟩ := hmoved e he i hblock
        have hstride : (pools₁ p).region.stride = (s.pools p).region.stride := by
          simp only [Pool.region, hg.elem_eq]
        have hbase := Region.base_eq_of_index? (stride_pos _) hstride hold hnew
        exact hg.base_eq.symm.trans hbase
      · intro e he i hblock
        have hlt := ((Region.index?_eq_some_iff (stride_pos _)).mp (hmoved e he i hblock).2).1
        exact hg.size_eq ▸ hlt
  | put e => trivial
  | write e d => trivial

end Calls

section Growth

variable {δ : Type u}

theorem growthInv_create {p elemSize n base : Nat} {pools pools₀ : Nat → Pool δ}
    (hn : n < 2 ^ 32) (h : ffstoragePoolCreate p elemSize n base pools = some pools₀) :
    GrowthInv p ⟨pools₀, []⟩ := by
  obtain ⟨hpos, hg⟩ := ffstoragePoolCreate_grown hn h
  have hempty : Sound p { pools p with
      head := none, poolSize := 0, currSize := 0, elemSize := elemSize } [] 0 := by
    constructor
    · exact fun i hi => absurd hi (Nat.not_lt_zero i)
    · exact fun i hi => absurd hi (Nat.not_lt_zero i)
    · exact leadsInto_none _ _
    · exact fun e he => absurd he List.not_mem_nil
  obtain ⟨m, hm, hsound⟩ := hempty.grow hg hpos (Or.inr rfl)
    (fun hlt => absurd hlt (Nat.lt_irrefl 0)) (fun e he => absurd he List.not_mem_nil)
  refine ⟨m, hm, hsound, fun hnone => ?_⟩
  rw [hg.head_eq] at hnone
  cases hnone

/-- **Growth**: every handle stays valid, and what is in its block stays, iff growth leaves
the memory of the pool where it is. -/
theorem growth_iff {p elemSize n base : Nat} {pools pools₀ : Nat → Pool δ} (hn : n < 2 ^ 32)
    (h : ffstoragePoolCreate p elemSize n base pools = some pools₀) (cs : List (PoolCall δ)) :
    RunAlways (poolStep p) (HandlesOk p) ⟨pools₀, []⟩ cs ∧
        RunMeets (poolStep p) (KeepsContents p) ⟨pools₀, []⟩ cs ↔
      RunMeets (poolStep p) (GrowsInPlace p) ⟨pools₀, []⟩ cs := by
  have hinit : GrowthInv p (⟨pools₀, []⟩ : PoolState δ) := growthInv_create hn h
  constructor
  · rintro ⟨halways, _⟩
    exact halways.meets_of_step (fun s c s' hI hplace hs => hI.step hplace hs)
      (fun s c hI hok hnext => hI.growsInPlace hok hnext) cs _ hinit
  · intro hplace
    exact ⟨runAlways_of_meets (fun s hI => hI.handlesOk)
        (fun s c s' hI hok hs => hI.step hok hs) cs _ hinit hplace,
      RunMeets.of_invariant (fun s c s' hI hok hs => hI.step hok hs)
        (fun s c hI hok => hI.keepsContents hok) cs _ hinit hplace⟩

end Growth

/-! ### A pool of two blocks that moves when it grows -/

/-- Pools of which nothing is in use. -/
def noMemory : Nat → Pool Unit := fun _ =>
  { base := 0
    mem := fun _ => ⟨0, 0, none, ()⟩
    head := none
    poolSize := 0
    currSize := 0
    elemSize := 0 }

theorem growth_iff_two : ∃ pools₀, ffstoragePoolCreate 0 40 2 4096 noMemory = some pools₀ ∧
    (RunAlways (poolStep 0) (HandlesOk 0) ⟨pools₀, []⟩ [.get 0, .get 0, .get 4096] ∧
        RunMeets (poolStep 0) (KeepsContents 0) ⟨pools₀, []⟩ [.get 0, .get 0, .get 4096] ↔
      RunMeets (poolStep 0) (GrowsInPlace 0) ⟨pools₀, []⟩ [.get 0, .get 0, .get 4096]) := by
  obtain ⟨pools₀, h⟩ : ∃ pools₀, ffstoragePoolCreate 0 40 2 4096 noMemory = some pools₀ :=
    ⟨_, rfl⟩
  exact ⟨pools₀, h, growth_iff (by decide) h _⟩

/-- The third get moves the pool, and the first two handles lead out of its memory. -/
theorem growth_fails :
    ¬ ∀ (p elemSize n base : Nat) (pools pools₀ : Nat → Pool Unit), n < 2 ^ 32 →
      ffstoragePoolCreate p elemSize n base pools = some pools₀ →
      ∀ cs : List (PoolCall Unit), RunAlways (poolStep p) (HandlesOk p) ⟨pools₀, []⟩ cs := by
  intro hall
  obtain ⟨pools₀, h, t, hrun, e, he, hlost, hblock⟩ : ∃ pools₀,
      ffstoragePoolCreate 0 40 2 4096 noMemory = some pools₀ ∧
      ∃ t, run (poolStep 0) ⟨pools₀, []⟩ [.get 0, .get 0, .get 65536] = some t ∧
      ∃ e ∈ t.held, (t.pools 0).blockOf e.handle = none ∧ e.block = some 0 :=
    ⟨_, rfl, _, rfl, ⟨4120, some 0⟩, by decide, by decide, rfl⟩
  have hpos := ((hall 0 40 2 4096 noMemory pools₀ (by decide) h _).last hrun e he).position
  rw [hlost, hblock] at hpos
  cases hpos

end Raw

end Fflib
