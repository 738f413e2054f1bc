import Mathlib.Algebra.Group.Nat.Defs
import Fflib.Library.Chain
import Fflib.Library.Machine

/-!
# Memory pools

`ffstorage.c`: pools of blocks of equal size, each with a list of its free blocks.

**Blocks.**  A pointer to a block is the pair of a pool and an index into the memory
of the pool; `realloc` succeeds, keeps the contents and moves nothing.  The `size`
field of a header and `elem_size`, which only scales addresses, are left out.

**Integers.**  `pool_size`, `curr_size` and `count` are `uint32_t`.

* `PoolOk` is what the free list should be in every state.
* `PoolInv` is the invariant of a pool that has not grown.
* `ffstoragePoolGet_of_empty`: growth links the blocks that are held into the free
  list, and the block that is returned is one of them.
* `pool_ok_iff`: a run keeps its pool in order iff it never takes a block from an
  empty free list.
-/

namespace Fflib

open Library

/-- `ffmem_block_t *`. -/
abbrev BlockPtr := Nat × Nat

/-- The header of a block. -/
structure MemBlock where
  poolid : Nat
  id : Nat
  next : Option BlockPtr

/-- `ffpool_t`. -/
structure Pool where
  mem : Nat → MemBlock
  head : Option BlockPtr
  poolSize : Nat
  currSize : Nat

/-- The header that a pointer leads to. -/
def header (pools : Nat → Pool) (b : BlockPtr) : MemBlock := (pools b.1).mem b.2

/-- Addition and subtraction on `uint32_t`. -/
def addU32 (a b : Nat) : Nat := (a + b) % 2 ^ 32
def subU32 (a b : Nat) : Nat := (a + (2 ^ 32 - b)) % 2 ^ 32

/-- The loop of `alloc_pool_internal`: `k` iterations from `i` on. -/
def linkBlocks (poolid : Nat) : Nat → Nat → (Nat → MemBlock) → Nat → MemBlock
  | 0, _, mem => mem
  | k + 1, i, mem =>
      linkBlocks poolid k (i + 1) (Function.update mem i ⟨poolid, i, some (poolid, i + 1)⟩)

/-- `alloc_pool_internal`. -/
def allocPoolInternal (poolid count : Nat) (pools : Nat → Pool) : Nat → Pool :=
  let p := pools poolid
  let last := subU32 count 1
  Function.update pools poolid
    { mem := Function.update (linkBlocks poolid (last - p.currSize) p.currSize p.mem) last
        ⟨poolid, last, none⟩
      head := some (poolid, 0)
      poolSize := count
      currSize := addU32 p.currSize (subU32 count p.poolSize) }

/-- `ffstorage_pool_create`, after `ffarman_get` has answered `poolid`. -/
def ffstoragePoolCreate (poolid initialCount : Nat) (pools : Nat → Pool) : Nat → Pool :=
  allocPoolInternal poolid initialCount
    (Function.update pools poolid
      { mem := (pools poolid).mem, head := none, poolSize := 0, currSize := 0 })

/-- `ffstorage_pool_get`; `none` is a null pointer dereference. -/
def ffstoragePoolGet (poolid : Nat) (pools : Nat → Pool) :
    Option (BlockPtr × (Nat → Pool)) :=
  let pools₁ :=
    if (pools poolid).head = none then
      allocPoolInternal poolid ((pools poolid).poolSize * 2 % 2 ^ 32) pools
    else pools
  (pools₁ poolid).head.map fun b =>
    (b, Function.update pools₁ poolid
      { mem := (pools₁ poolid).mem
        head := (header pools₁ b).next
        poolSize := (pools₁ poolid).poolSize
        currSize := subU32 (pools₁ poolid).currSize 1 })

/-- The `next` field of a header is written. -/
def setNext (b : BlockPtr) (next : Option BlockPtr) (pools : Nat → Pool) : Nat → Pool :=
  let p := pools b.1
  Function.update pools b.1
    { mem := Function.update p.mem b.2 ⟨(p.mem b.2).poolid, (p.mem b.2).id, next⟩
      head := p.head
      poolSize := p.poolSize
      currSize := p.currSize }

/-- `ffstorage_pool_put`. -/
def ffstoragePoolPut (tofree : BlockPtr) (pools : Nat → Pool) : Nat → Pool :=
  let q := (header pools tofree).poolid
  let pools₁ := setNext tofree (pools q).head pools
  Function.update pools₁ q
    { mem := (pools₁ q).mem
      head := some tofree
      poolSize := (pools₁ q).poolSize
      currSize := addU32 (pools₁ q).currSize 1 }

/-! ### Runs -/

/-- The pools, and the blocks that callers hold. -/
structure PoolState where
  pools : Nat → Pool
  held : List BlockPtr

inductive PoolCall where
  | get
  | put (b : BlockPtr)
deriving DecidableEq

/-- One call for the pool `p`; only blocks that are held are put. -/
def poolStep (p : Nat) (s : PoolState) : PoolCall → Option PoolState
  | .get => (ffstoragePoolGet p s.pools).map fun r => ⟨r.2, r.1 :: s.held⟩
  | .put b =>
      if b ∈ s.held then some ⟨ffstoragePoolPut b s.pools, s.held.erase b⟩ else none

/-- The links between the blocks. -/
def links (pools : Nat → Pool) (b : BlockPtr) : Option BlockPtr := (header pools b).next

/-- The free list from `head` is finite and without duplicates, has exactly the blocks
that are not held, and `curr_size` is its length. -/
def PoolOk (p : Nat) (s : PoolState) : Prop :=
  ∃ l : List Nat, Linked (links s.pools) (s.pools p).head (l.map (Prod.mk p)) ∧ l.Nodup ∧
    (∀ i, i ∈ l ↔ i < (s.pools p).poolSize ∧ (p, i) ∉ s.held) ∧
    (s.pools p).currSize = l.length

/-- What is asked of a call: the pool is in order before it, and a block that it returns is
not held. -/
def CallOk (p : Nat) (s : PoolState) (c : PoolCall) : Prop :=
  PoolOk p s ∧ (c = .get → ∀ r, ffstoragePoolGet p s.pools = some r → r.1 ∉ s.held)

/-- The invariant of a pool of `n` blocks that has not grown; `l` is its free list. -/
structure PoolInv (p n : Nat) (s : PoolState) (l : List Nat) : Prop where
  linked : Linked (links s.pools) (s.pools p).head (l.map (Prod.mk p))
  nodup : l.Nodup
  mem_iff : ∀ i, i ∈ l ↔ i < n ∧ (p, i) ∉ s.held
  size_eq : (s.pools p).poolSize = n
  curr_eq : (s.pools p).currSize = l.length
  poolid_eq : ∀ i, i < n → ((s.pools p).mem i).poolid = p
  held_nodup : s.held.Nodup
  held_mem : ∀ b, b ∈ s.held → b.1 = p ∧ b.2 < n
  count_eq : l.length + s.held.length = n

theorem linkBlocks_apply (poolid k i : Nat) (mem : Nat → MemBlock) (j : Nat) :
    linkBlocks poolid k i mem j =
      if i ≤ j ∧ j < i + k then ⟨poolid, j, some (poolid, j + 1)⟩ else mem j := by
  induction k generalizing i mem with
  | zero =>
      rw [if_neg (by omega)]
      rfl
  | succ k ih =>
      rw [linkBlocks, ih (i + 1)]
      by_cases hj : j = i
      · subst hj
        rw [if_neg (by omega), if_pos (by omega), Function.update_self]
      · rw [Function.update_of_ne hj]
        by_cases hjl : i + 1 ≤ j ∧ j < i + 1 + k
        · rw [if_pos hjl, if_pos (by omega)]
        · rw [if_neg hjl, if_neg (by omega)]

theorem subU32_of_le {a b : Nat} (hb : b ≤ a) (ha : a < 2 ^ 32) : subU32 a b = a - b := by
  rw [subU32]
  omega

theorem addU32_of_lt {a b : Nat} (h : a + b < 2 ^ 32) : addU32 a b = a + b := by
  rw [addU32]
  omega

/-- A get from a free list that is not empty. -/
theorem ffstoragePoolGet_of_head {p : Nat} {pools : Nat → Pool} {b : BlockPtr}
    (h : (pools p).head = some b) :
    ffstoragePoolGet p pools = some (b, Function.update pools p
      { mem := (pools p).mem
        head := links pools b
        poolSize := (pools p).poolSize
        currSize := subU32 (pools p).currSize 1 }) := by
  simp only [ffstoragePoolGet, h, reduceCtorEq, if_false, Option.map_some]
  rfl

/-- A get from an empty free list lets the pool grow, and returns its first block. -/
theorem ffstoragePoolGet_of_empty {p : Nat} {pools : Nat → Pool}
    (h : (pools p).head = none) :
    ∃ pools', ffstoragePoolGet p pools = some ((p, 0), pools') := by
  simp [ffstoragePoolGet, h, allocPoolInternal]

/-- A put of a block whose header names its own pool. -/
theorem ffstoragePoolPut_eq {q i : Nat} {pools : Nat → Pool}
    (h : (header pools (q, i)).poolid = q) :
    ffstoragePoolPut (q, i) pools = Function.update pools q
      { mem := Function.update (pools q).mem i
          ⟨((pools q).mem i).poolid, ((pools q).mem i).id, (pools q).head⟩
        head := some (q, i)
        poolSize := (pools q).poolSize
        currSize := addU32 (pools q).currSize 1 } := by
  simp only [ffstoragePoolPut, h, setNext, Function.update_self, Function.update_idem]

/-- The pools after `alloc_pool_internal`, with `last` for `count - 1`. -/
theorem allocPoolInternal_eq {poolid count last : Nat} (pools : Nat → Pool)
    (hlast : subU32 count 1 = last) :
    allocPoolInternal poolid count pools = Function.update pools poolid
      { mem := Function.update
          (linkBlocks poolid (last - (pools poolid).currSize) (pools poolid).currSize
            (pools poolid).mem) last ⟨poolid, last, none⟩
        head := some (poolid, 0)
        poolSize := count
        currSize := addU32 (pools poolid).currSize (subU32 count (pools poolid).poolSize) } := by
  subst hlast
  rfl

/-- The pool after `ffstorage_pool_create`. -/
theorem ffstoragePoolCreate_self {p n : Nat} (hpos : 1 ≤ n) (hn : n < 2 ^ 32)
    (pools : Nat → Pool) :
    ffstoragePoolCreate p n pools p =
      { mem := Function.update (linkBlocks p (n - 1) 0 (pools p).mem) (n - 1) ⟨p, n - 1, none⟩
        head := some (p, 0)
        poolSize := n
        currSize := n } := by
  have hlast : subU32 n 1 = n - 1 := subU32_of_le hpos hn
  have hsize : addU32 0 (subU32 n 0) = n := by
    rw [subU32_of_le (Nat.zero_le _) hn, addU32_of_lt (by omega)]
    omega
  rw [ffstoragePoolCreate, allocPoolInternal_eq _ hlast, Function.update_self]
  simp only [Function.update_self, hsize, Nat.sub_zero]

/-- A new pool is in order. -/
theorem poolInv_create (p : Nat) {n : Nat} (hpos : 1 ≤ n) (hn : n < 2 ^ 32)
    (pools : Nat → Pool) :
    PoolInv p n ⟨ffstoragePoolCreate p n pools, []⟩ (List.range n) := by
  have hmem : ∀ i, i < n → (ffstoragePoolCreate p n pools p).mem i =
      ⟨p, i, if i + 1 < n then some (p, i + 1) else none⟩ := by
    intro i hi
    rw [ffstoragePoolCreate_self hpos hn]
    by_cases hil : i = n - 1
    · simp only [hil, Function.update_self]
      rw [if_neg (by omega)]
    · simp only [Function.update_of_ne hil, linkBlocks_apply]
      rw [if_pos (by omega), if_pos (by omega)]
  refine ⟨?_, List.nodup_range, fun i => ?_, ?_, ?_, fun i hi => ?_, List.nodup_nil,
    fun b hb => ?_, ?_⟩
  · simp only [ffstoragePoolCreate_self hpos hn]
    refine linked_range hpos (fun i hi => ?_)
    simp only [links, header, hmem i hi]
  · simp
  · simp only [ffstoragePoolCreate_self hpos hn]
  · simp only [ffstoragePoolCreate_self hpos hn, List.length_range]
  · rw [hmem i hi]
  · simp at hb
  · simp

namespace PoolInv

variable {p n : Nat} {s : PoolState} {l : List Nat} (h : PoolInv p n s l)
include h

/-- Only the pool itself counts. -/
theorem congr {pools' : Nat → Pool} (heq : pools' p = s.pools p) :
    PoolInv p n ⟨pools', s.held⟩ l where
  linked := by
    simp only [heq]
    refine h.linked.congr (fun b hb => ?_)
    obtain ⟨i, _, rfl⟩ := List.mem_map.mp hb
    simp only [links, header, heq]
  nodup := h.nodup
  mem_iff := h.mem_iff
  size_eq := by simpa only [heq] using h.size_eq
  curr_eq := by simpa only [heq] using h.curr_eq
  poolid_eq := by simpa only [heq] using h.poolid_eq
  held_nodup := h.held_nodup
  held_mem := h.held_mem
  count_eq := h.count_eq

theorem ok : PoolOk p s :=
  ⟨l, h.linked, h.nodup, fun i => by rw [h.size_eq]; exact h.mem_iff i, h.curr_eq⟩

/-- Step lemma: a block is taken from a free list that is not empty. -/
theorem get (hn : n < 2 ^ 32) (hlt : s.held.length < n) :
    ∃ i l', l = i :: l' ∧ ∃ pools', ffstoragePoolGet p s.pools = some ((p, i), pools') ∧
      PoolInv p n ⟨pools', (p, i) :: s.held⟩ l' := by
  have hcount := h.count_eq
  cases hl : l with
  | nil =>
      simp only [hl, List.length_nil] at hcount
      omega
  | cons i l' =>
      subst hl
      have hhead : (s.pools p).head = some (p, i) := h.linked.1
      have hlen : (s.pools p).currSize = l'.length + 1 := h.curr_eq
      have hi := (h.mem_iff i).mp (List.mem_cons_self ..)
      simp only [List.length_cons] at hcount
      refine ⟨i, l', rfl, _, ffstoragePoolGet_of_head hhead, ?_⟩
      · refine ⟨?_, (List.nodup_cons.mp h.nodup).2, fun j => ?_, ?_, ?_, fun j hj => ?_,
          List.nodup_cons.mpr ⟨hi.2, h.held_nodup⟩, fun b hb => ?_, ?_⟩
        · simp only [Function.update_self]
          refine h.linked.2.congr (fun b hb => ?_)
          obtain ⟨j, _, rfl⟩ := List.mem_map.mp hb
          simp [links, header]
        · have hij : j ∈ l' → j ≠ i := by
            rintro hj rfl
            exact (List.nodup_cons.mp h.nodup).1 hj
          have := h.mem_iff j
          simp only [List.mem_cons, Prod.mk.injEq, true_and, not_or] at this ⊢
          constructor
          · intro hj
            obtain ⟨h1, h2⟩ := this.mp (Or.inr hj)
            exact ⟨h1, hij hj, h2⟩
          · rintro ⟨h1, hne, h2⟩
            exact (this.mpr ⟨h1, h2⟩).resolve_left hne
        · simpa using h.size_eq
        · simp only [Function.update_self, hlen]
          rw [subU32_of_le (by omega) (by omega)]
          omega
        · simpa using h.poolid_eq j hj
        · rcases List.mem_cons.mp hb with rfl | hb
          · exact ⟨rfl, hi.1⟩
          · exact h.held_mem b hb
        · simp only [List.length_cons]
          omega

/-- Step lemma: a block that is held is put back. -/
theorem put (hn : n < 2 ^ 32) {b : BlockPtr} (hb : b ∈ s.held) :
    ∃ l', PoolInv p n ⟨ffstoragePoolPut b s.pools, s.held.erase b⟩ l' := by
  obtain ⟨q, i⟩ := b
  obtain ⟨hq, hi⟩ := h.held_mem _ hb
  simp only at hq hi
  subst hq
  have hpool : (header s.pools (q, i)).poolid = q := h.poolid_eq i hi
  have hil : i ∉ l := fun hil => ((h.mem_iff i).mp hil).2 hb
  have hcount := h.count_eq
  have hheld := List.length_erase_of_mem hb
  have hpos := List.length_pos_of_mem hb
  have hlinks : links (ffstoragePoolPut (q, i) s.pools) =
      Function.update (links s.pools) (q, i) (s.pools q).head := by
    funext ⟨a, j⟩
    rw [ffstoragePoolPut_eq hpool]
    by_cases ha : a = q
    · subst ha
      by_cases hj : j = i
      · subst hj
        simp [links, header]
      · have hne : (a, j) ≠ (a, i) := fun heq => hj (Prod.mk.inj heq).2
        rw [Function.update_of_ne hne]
        simp [links, header, hj]
    · have hne : (a, j) ≠ (q, i) := fun heq => ha (Prod.mk.inj heq).1
      rw [Function.update_of_ne hne]
      simp [links, header, ha]
  refine ⟨i :: l, ?_, List.nodup_cons.mpr ⟨hil, h.nodup⟩, fun j => ?_, ?_, ?_, fun j hj => ?_,
    h.held_nodup.erase _, fun b hb' => h.held_mem b (List.mem_of_mem_erase hb'), ?_⟩
  · simp only [hlinks]
    rw [ffstoragePoolPut_eq hpool, Function.update_self]
    refine h.linked.push (fun hm => ?_)
    obtain ⟨j, hj, heq⟩ := List.mem_map.mp hm
    rw [(Prod.mk.inj heq).2] at hj
    exact hil hj
  · rw [h.held_nodup.mem_erase_iff, List.mem_cons, h.mem_iff]
    by_cases hji : j = i
    · subst hji
      simp [hi]
    · simp [hji]
  · simp only [ffstoragePoolPut_eq hpool, Function.update_self]
    exact h.size_eq
  · simp only [ffstoragePoolPut_eq hpool, Function.update_self, h.curr_eq, List.length_cons]
    exact addU32_of_lt (by omega)
  · simp only [ffstoragePoolPut_eq hpool, Function.update_self]
    by_cases hji : j = i
    · subst hji
      simpa [header] using hpool
    · simpa [hji] using h.poolid_eq j hj
  · simp only [List.length_cons]
    omega

/-- Growth returns a block that is held. -/
theorem get_of_empty (hpos : 1 ≤ n) (hge : n ≤ s.held.length) :
    (s.pools p).head = none ∧ (p, 0) ∈ s.held := by
  have hcount := h.count_eq
  obtain rfl : l = [] := List.eq_nil_of_length_eq_zero (by omega)
  refine ⟨h.linked, ?_⟩
  by_contra hno
  have := (h.mem_iff 0).mpr ⟨by omega, hno⟩
  simp at this

end PoolInv

/-- The condition under which a call is served in order: a block is taken only while fewer
than `n` are held. -/
def Within (n : Nat) (s : PoolState) (c : PoolCall) : Prop := c = .get → s.held.length < n

section Runs

variable {p n : Nat} {s s' : PoolState} {l : List Nat} {c : PoolCall}

/-- Step lemma. -/
theorem PoolInv.step (h : PoolInv p n s l) (hn : n < 2 ^ 32) (hc : Within n s c)
    (hs : poolStep p s c = some s') : ∃ l', PoolInv p n s' l' := by
  cases c with
  | get =>
      obtain ⟨i, l', rfl, pools', hget, hinv⟩ := h.get hn (hc rfl)
      simp only [poolStep, hget, Option.map_some, Option.some.injEq] at hs
      subst hs
      exact ⟨l', hinv⟩
  | put b =>
      simp only [poolStep] at hs
      split at hs
      · next hb =>
          obtain rfl := Option.some.inj hs
          exact h.put hn hb
      · cases hs

/-- A call is served in order iff it is within the initial count. -/
theorem PoolInv.callOk_iff (h : PoolInv p n s l) (hpos : 1 ≤ n) (hn : n < 2 ^ 32) :
    CallOk p s c ↔ Within n s c := by
  constructor
  · rintro ⟨_, hget⟩ rfl
    by_contra hge
    obtain ⟨hhead, hheld⟩ := h.get_of_empty hpos (by omega)
    obtain ⟨pools', heq⟩ := ffstoragePoolGet_of_empty hhead
    exact hget rfl _ heq hheld
  · intro hc
    refine ⟨h.ok, fun hget r hr => ?_⟩
    obtain ⟨i, l', rfl, pools', heq, _⟩ := h.get hn (hc hget)
    rw [heq] at hr
    obtain rfl := Option.some.inj hr
    exact ((h.mem_iff i).mp (List.mem_cons_self ..)).2

/-- Run lemma. -/
theorem PoolInv.run_iff (hpos : 1 ≤ n) (hn : n < 2 ^ 32) :
    ∀ (cs : List PoolCall) (s t : PoolState) (l : List Nat), PoolInv p n s l →
      run (poolStep p) s cs = some t →
      (RunMeets (poolStep p) (CallOk p) s cs ∧ PoolOk p t ↔
        RunMeets (poolStep p) (Within n) s cs) := by
  intro cs
  induction cs with
  | nil =>
      intro s t l h hr
      obtain rfl : s = t := by simpa using hr
      exact iff_of_true ⟨trivial, h.ok⟩ trivial
  | cons c cs ih =>
      intro s t l h hr
      obtain ⟨s', hs, hr'⟩ := run_cons_eq_some.mp hr
      simp only [RunMeets, hs, Option.some.injEq, forall_eq', h.callOk_iff hpos hn]
      by_cases hc : Within n s c
      · obtain ⟨l', h'⟩ := h.step hn hc hs
        rw [and_iff_right hc, and_iff_right hc]
        exact ih s' t l' h' hr'
      · exact iff_of_false (fun h => hc h.1.1) (fun h => hc h.1)

end Runs

/-- **Pool representation invariant.**  A run of calls for a new pool of `n` blocks keeps
the pool in order, and never hands out a block that is held, iff it never takes a block
while `n` are held. -/
theorem pool_ok_iff (p n : Nat) (pools : Nat → Pool) (hpos : 1 ≤ n) (hn : n < 2 ^ 32)
    (cs : List PoolCall) (t : PoolState)
    (hr : run (poolStep p) ⟨ffstoragePoolCreate p n pools, []⟩ cs = some t) :
    RunMeets (poolStep p) (CallOk p) ⟨ffstoragePoolCreate p n pools, []⟩ cs ∧ PoolOk p t ↔
      RunMeets (poolStep p) (Within n) ⟨ffstoragePoolCreate p n pools, []⟩ cs :=
  PoolInv.run_iff hpos hn cs _ t _ (poolInv_create p hpos hn pools) hr

/-- Pools before the first is created. -/
def noPools : Nat → Pool := fun _ => ⟨fun _ => ⟨0, 0, none⟩, none, 0, 0⟩

theorem pool_ok_iff_two :
    ∃ t, run (poolStep 0) ⟨ffstoragePoolCreate 0 2 noPools, []⟩ [.get, .get, .put (0, 1)] =
        some t ∧
      (RunMeets (poolStep 0) (CallOk 0) ⟨ffstoragePoolCreate 0 2 noPools, []⟩
          [.get, .get, .put (0, 1)] ∧ PoolOk 0 t ↔
        RunMeets (poolStep 0) (Within 2) ⟨ffstoragePoolCreate 0 2 noPools, []⟩
          [.get, .get, .put (0, 1)]) := by
  refine ⟨_, rfl, ?_⟩
  exact pool_ok_iff 0 2 noPools (by decide) (by decide) [.get, .get, .put (0, 1)] _ rfl

/-- The second block taken from a pool of one block is the first one again. -/
theorem pool_ok_fails :
    ¬ ∀ (p n : Nat) (pools : Nat → Pool), 1 ≤ n → n < 2 ^ 32 →
      ∀ (cs : List PoolCall) (t : PoolState),
        run (poolStep p) ⟨ffstoragePoolCreate p n pools, []⟩ cs = some t →
        RunMeets (poolStep p) (CallOk p) ⟨ffstoragePoolCreate p n pools, []⟩ cs ∧
          PoolOk p t := by
  intro hall
  obtain ⟨t, ht⟩ : ∃ t, run (poolStep 0) ⟨ffstoragePoolCreate 0 1 noPools, []⟩ [.get, .get] =
      some t := ⟨_, rfl⟩
  have hok := hall 0 1 noPools (by decide) (by decide) [.get, .get] t ht
  have hinv := poolInv_create 0 (le_refl 1) (by decide) noPools
  have hwithin := (PoolInv.run_iff (by decide) (by decide) _ _ t _ hinv ht).mp hok
  have hlt := (hwithin.2 _ rfl).1 rfl
  exact absurd hlt (by decide)

end Fflib
