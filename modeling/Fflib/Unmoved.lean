import Fflib.Relocation

/-!
# Pools that stay where they are

The pools of `Fflib.Storage`, whose pointers are pairs of a pool and an index, and those of
`Fflib.Relocation`, whose pointers are addresses.  As long as growth doubles the memory where
it is, a pointer is the address of the block it names (`Simulates`), and the calls agree
(`Tracks.get`, `Tracks.put`, `Tracks.write`).

`tracks_of_run`: a run at addresses is one of `Fflib.Storage`.
`exists_tracks_of_run`: every run of `Fflib.Storage` is one at addresses.
-/

namespace Fflib

open Library

universe u

namespace Raw

/-! ### One pool -/

/-- Null pointers, or the address of a block and its index. -/
inductive SamePtr (p m : Nat) (r : Region) : Option Nat → Option BlockPtr → Prop
  | null : SamePtr p m r none none
  | block {j : Nat} (hj : j < m) : SamePtr p m r (some (r.addr j)) (some (p, j))

theorem SamePtr.mono {p m m' : Nat} {r r' : Region} {a : Option Nat} {b : Option BlockPtr}
    (h : SamePtr p m r a b) (hle : m ≤ m') (haddr : ∀ i, i < m → r'.addr i = r.addr i) :
    SamePtr p m' r' a b := by
  cases h with
  | null => exact .null
  | @block j hj =>
      rw [← haddr j hj]
      exact .block (Nat.lt_of_lt_of_le hj hle)

theorem SamePtr.eq_none_iff {p m : Nat} {r : Region} {a : Option Nat} {b : Option BlockPtr}
    (h : SamePtr p m r a b) : a = none ↔ b = none := by
  cases h with
  | null => exact iff_of_true rfl rfl
  | block hj => exact iff_of_false (Option.some_ne_none _) (Option.some_ne_none _)

theorem SamePtr.exists_block {p m : Nat} {r : Region} {a : Option Nat} {b : Option BlockPtr}
    (h : SamePtr p m r a b) (ha : a ≠ none) :
    ∃ j, j < m ∧ a = some (r.addr j) ∧ b = some (p, j) := by
  cases h with
  | null => exact absurd rfl ha
  | @block j hj => exact ⟨j, hj, rfl, rfl⟩

section Pool

variable {δ : Type u}

/-- A pool at an address and one without; `m` blocks have been linked. -/
structure Simulates (p m : Nat) (raw : Pool δ) (pool : Fflib.Pool) : Prop where
  poolid_eq : ∀ i, i < m → (raw.mem i).poolid = p ∧ (pool.mem i).poolid = p
  id_eq : ∀ i, i < m → (pool.mem i).id = (raw.mem i).id
  next_same : ∀ i, i < m → SamePtr p m raw.region (raw.mem i).next (pool.mem i).next
  head_same : SamePtr p m raw.region raw.head pool.head
  size_eq : pool.poolSize = raw.poolSize
  curr_eq : pool.currSize = raw.currSize
  le_size : m ≤ raw.poolSize

variable {p m : Nat} {raw raw' : Pool δ} {pool : Fflib.Pool}

theorem allocPoolInternal_mem {count : Nat} (hpos : 0 < count) (hlt : count < 2 ^ 32)
    (pools : Nat → Fflib.Pool) (j : Nat) :
    (Fflib.allocPoolInternal p count pools p).mem j =
      if j = count - 1 then ⟨p, j, none⟩
      else if (pools p).currSize ≤ j ∧ j < count - 1 then ⟨p, j, some (p, j + 1)⟩
      else (pools p).mem j := by
  rw [allocPoolInternal_eq pools (subU32_of_le hpos hlt), Function.update_self]
  split
  · next hj => simp only [hj, Function.update_self]
  · next hj =>
      simp only [Function.update_of_ne hj, linkBlocks_apply]
      split
      · rw [if_pos (by omega)]
      · rw [if_neg (by omega)]

/-- Growth where the memory is; a pool that is created has no block yet. -/
theorem Simulates.grow {pools : Nat → Fflib.Pool} (h : Simulates p m raw (pools p))
    {count addr : Nat} (hg : Grown p raw raw' count addr) (hpos : 0 < count)
    (hlt : count < 2 ^ 32) (hm : 0 < m ∨ raw.currSize = 0) (hbase : 0 < m → addr = raw.base)
    (hle : m ≤ count) :
    ∃ m', 0 < m' ∧ m ≤ m' ∧
      Simulates p m' raw' (Fflib.allocPoolInternal p count pools p) := by
  obtain ⟨m', hmm, hpos', hmax, hcases⟩ := Sound.linked_after hpos hm
  have haddr := hg.addr_eq hbase
  have hcells : ∀ i, i < m' → (raw'.mem i).poolid = p ∧
      ((Fflib.allocPoolInternal p count pools p).mem i).poolid = p ∧
      ((Fflib.allocPoolInternal p count pools p).mem i).id = (raw'.mem i).id ∧
      SamePtr p m' raw'.region (raw'.mem i).next
        ((Fflib.allocPoolInternal p count pools p).mem i).next := by
    intro i hi
    rw [allocPoolInternal_mem hpos hlt, h.curr_eq]
    rcases hcases i hi with rfl | ⟨hc, hlast, hnext⟩ | ⟨him, hne, hold⟩
    · rw [hg.last, if_pos rfl]
      exact ⟨rfl, rfl, rfl, .null⟩
    · rw [hg.linked i hc hlast, if_neg (by omega), if_pos ⟨hc, hlast⟩]
      exact ⟨rfl, rfl, rfl, .block hnext⟩
    · rw [hg.old i hne hold, if_neg hne, if_neg (by omega)]
      exact ⟨(h.poolid_eq i him).1, (h.poolid_eq i him).2, h.id_eq i him,
        (h.next_same i him).mono hmm haddr⟩
  refine ⟨m', hpos', hmm, ?_⟩
  constructor
  · exact fun i hi => ⟨(hcells i hi).1, (hcells i hi).2.1⟩
  · exact fun i hi => (hcells i hi).2.2.1
  · exact fun i hi => (hcells i hi).2.2.2
  · rw [hg.head_eq, hg.first_eq, allocPoolInternal_eq pools (subU32_of_le hpos hlt),
      Function.update_self]
    exact .block hpos'
  · rw [allocPoolInternal_eq pools (subU32_of_le hpos hlt), Function.update_self, hg.size_eq]
  · rw [allocPoolInternal_eq pools (subU32_of_le hpos hlt), Function.update_self, hg.curr_eq,
      h.curr_eq, h.size_eq]
  · rw [hg.size_eq]
    omega

/-- The first block is taken. -/
theorem Simulates.take (h : Simulates p m raw pool) {j : Nat} (hj : j < m) :
    Simulates p m (raw.takeHead j)
      { mem := pool.mem
        head := (pool.mem j).next
        poolSize := pool.poolSize
        currSize := subU32 pool.currSize 1 } where
  poolid_eq := h.poolid_eq
  id_eq := h.id_eq
  next_same := h.next_same
  head_same := h.next_same j hj
  size_eq := h.size_eq
  curr_eq := congrArg (subU32 · 1) h.curr_eq
  le_size := h.le_size

/-- A block is linked in front. -/
theorem Simulates.link (h : Simulates p m raw pool) {j : Nat} (hj : j < m) :
    Simulates p m
      { raw with
        mem := Function.update raw.mem j { raw.mem j with next := raw.head }
        head := some (raw.region.addr j)
        currSize := addU32 raw.currSize 1 }
      { mem := Function.update pool.mem j ⟨(pool.mem j).poolid, (pool.mem j).id, pool.head⟩
        head := some (p, j)
        poolSize := pool.poolSize
        currSize := addU32 pool.currSize 1 } := by
  have hcells : ∀ i, i < m →
      ((Function.update raw.mem j { raw.mem j with next := raw.head } i).poolid = p ∧
        (Function.update pool.mem j
          ⟨(pool.mem j).poolid, (pool.mem j).id, pool.head⟩ i).poolid = p) ∧
      (Function.update pool.mem j ⟨(pool.mem j).poolid, (pool.mem j).id, pool.head⟩ i).id =
        (Function.update raw.mem j { raw.mem j with next := raw.head } i).id ∧
      SamePtr p m raw.region
        (Function.update raw.mem j { raw.mem j with next := raw.head } i).next
        (Function.update pool.mem j
          ⟨(pool.mem j).poolid, (pool.mem j).id, pool.head⟩ i).next := by
    intro i hi
    by_cases hij : i = j
    · subst hij
      simp only [Function.update_self]
      exact ⟨h.poolid_eq i hi, h.id_eq i hi, h.head_same⟩
    · simp only [Function.update_of_ne hij]
      exact ⟨h.poolid_eq i hi, h.id_eq i hi, h.next_same i hi⟩
  constructor
  · exact fun i hi => (hcells i hi).1
  · exact fun i hi => (hcells i hi).2.1
  · exact fun i hi => (hcells i hi).2.2
  · exact .block hj
  · exact h.size_eq
  · exact congrArg (addU32 · 1) h.curr_eq
  · exact h.le_size

/-- Writing to a block changes no header. -/
theorem Simulates.write (h : Simulates p m raw pool) (i : Nat) (d : δ) :
    Simulates p m { raw with mem := Function.update raw.mem i { raw.mem i with data := d } }
      pool := by
  obtain ⟨hpoolid, hid, hnext⟩ := write_header raw.mem i d
  constructor
  · intro j hj
    rw [hpoolid j]
    exact h.poolid_eq j hj
  · intro j hj
    rw [hid j]
    exact h.id_eq j hj
  · intro j hj
    rw [hnext j]
    exact h.next_same j hj
  · exact h.head_same
  · exact h.size_eq
  · exact h.curr_eq
  · exact h.le_size

end Pool

/-! ### The calls -/

section Calls

variable {δ : Type u}

/-- What the holder of the block `i` has. -/
def Pool.holding (pool : Pool δ) (i : Nat) : Holding :=
  ⟨pool.region.addr i + headerSize, some i⟩

/-- A pool at an address and one without, and the blocks `is` that are held of both. -/
structure Tracks (p m : Nat) (is : List Nat) (s : PoolState δ) (t : Fflib.PoolState) :
    Prop where
  pos : 0 < m
  pool : Simulates p m (s.pools p) (t.pools p)
  held_raw : s.held = is.map (s.pools p).holding
  held : t.held = is.map (Prod.mk p)
  held_lt : ∀ i ∈ is, i < m

/-- The same states, as far as they have been reached in calls for the pool `p`. -/
def Same (p : Nat) (s : PoolState δ) (t : Fflib.PoolState) : Prop := ∃ m is, Tracks p m is s t

/-- Growth doubles the memory, and leaves it where it is. -/
def Stays (p : Nat) (s : PoolState δ) : PoolCall δ → Prop
  | .get addr => (s.pools p).head = none →
      addr = (s.pools p).base ∧ (s.pools p).poolSize * 2 < 2 ^ 32
  | _ => True

/-- Growth doubles the memory. -/
def Doubles (p : Nat) (t : Fflib.PoolState) (c : Fflib.PoolCall) : Prop :=
  c = .get → (t.pools p).head = none → (t.pools p).poolSize * 2 < 2 ^ 32

/-- A call without its addresses; writing to a block is none. -/
def forget (p : Nat) : PoolCall δ → Option Fflib.PoolCall
  | .get _ => some .get
  | .put e => e.block.map (fun i => .put (p, i))
  | .write _ _ => none

theorem holding_inj (pool : Pool δ) : Function.Injective pool.holding := fun _ _ h =>
  Option.some.inj (congrArg Holding.block h)

theorem holding_congr {pool pool' : Pool δ} {m : Nat} {is : List Nat}
    (haddr : ∀ i, i < m → pool'.region.addr i = pool.region.addr i) (his : ∀ i ∈ is, i < m) :
    is.map pool'.holding = is.map pool.holding := by
  refine List.map_congr_left (fun i hi => ?_)
  rw [Pool.holding, Pool.holding, haddr i (his i hi)]

variable {p m : Nat} {is : List Nat} {s : PoolState δ} {t : Fflib.PoolState}

/-- The pools of `Fflib.Storage` from which a get takes a block. -/
def grownPools (p : Nat) (pools : Nat → Fflib.Pool) : Nat → Fflib.Pool :=
  if (pools p).head = none then
    Fflib.allocPoolInternal p ((pools p).poolSize * 2 % 2 ^ 32) pools
  else pools

/-- Before a get takes a block, both pools have one. -/
theorem Tracks.ready (h : Tracks p m is s t) {addr : Nat} (hstays : Stays p s (.get addr)) :
    ∃ pools₁ m' j, readyPools p addr s.pools = some pools₁ ∧ m ≤ m' ∧ j < m' ∧
      Simulates p m' (pools₁ p) (grownPools p t.pools p) ∧
      (pools₁ p).head = some ((pools₁ p).region.addr j) ∧
      (grownPools p t.pools p).head = some (p, j) ∧
      ∀ i, i < m → (pools₁ p).region.addr i = (s.pools p).region.addr i := by
  obtain ⟨pools₁, m', hready, hle, hsim, hsome, haddr⟩ : ∃ pools₁ m',
      readyPools p addr s.pools = some pools₁ ∧ m ≤ m' ∧
      Simulates p m' (pools₁ p) (grownPools p t.pools p) ∧ (pools₁ p).head ≠ none ∧
      ∀ i, i < m → (pools₁ p).region.addr i = (s.pools p).region.addr i := by
    by_cases hhead : (s.pools p).head = none
    · obtain ⟨hbase, hlt⟩ := hstays hhead
      have hmod : (s.pools p).poolSize * 2 % 2 ^ 32 = (s.pools p).poolSize * 2 :=
        Nat.mod_eq_of_lt hlt
      have hsize := h.pool.le_size
      have hm := h.pos
      have hpos : 0 < (s.pools p).poolSize * 2 := by omega
      obtain ⟨pools₁, halloc, hg⟩ := allocPoolInternal_spec addr
        (rfl : s.pools p = s.pools p) rfl hpos hlt
      obtain ⟨m', _, hle, hsim⟩ := h.pool.grow hg hpos hlt (Or.inl hm) (fun _ => hbase)
        (by omega)
      refine ⟨pools₁, m', ?_, hle, ?_, ?_, hg.addr_eq (fun _ => hbase)⟩
      · rw [readyPools, if_pos hhead, hmod, halloc]
      · rw [grownPools, if_pos (h.pool.head_same.eq_none_iff.mp hhead), h.pool.size_eq, hmod]
        exact hsim
      · rw [hg.head_eq]
        exact Option.some_ne_none _
    · refine ⟨s.pools, m, if_neg hhead, le_refl m, ?_, hhead, fun _ _ => rfl⟩
      rw [grownPools, if_neg (fun hnone => hhead (h.pool.head_same.eq_none_iff.mpr hnone))]
      exact h.pool
  obtain ⟨j, hj, hraw, hpool⟩ := hsim.head_same.exists_block hsome
  exact ⟨pools₁, m', j, hready, hle, hj, hsim, hraw, hpool, haddr⟩

/-- A get takes the same block from both. -/
theorem Tracks.get (h : Tracks p m is s t) {addr : Nat} (hstays : Stays p s (.get addr)) :
    ∃ m' i s' t', poolStep p s (.get addr) = some s' ∧
      Fflib.poolStep p t .get = some t' ∧ Tracks p m' (i :: is) s' t' := by
  obtain ⟨pools₁, m', j, hready, hle, hj, hsim, hraw, hpool, haddr⟩ := h.ready hstays
  have hindex : (pools₁ p).region.index? ((pools₁ p).region.addr j) = some j :=
    Region.index?_addr (stride_pos _) (Nat.lt_of_lt_of_le hj hsim.le_size)
  refine ⟨m', j, ⟨Function.update pools₁ p ((pools₁ p).takeHead j),
      ⟨(pools₁ p).region.addr j + headerSize, some j⟩ :: s.held⟩,
    ⟨Function.update (grownPools p t.pools) p
      { mem := (grownPools p t.pools p).mem
        head := ((grownPools p t.pools p).mem j).next
        poolSize := (grownPools p t.pools p).poolSize
        currSize := subU32 (grownPools p t.pools p).currSize 1 }, (p, j) :: t.held⟩, ?_, ?_, ?_⟩
  · exact poolStep_get_iff.mpr ⟨pools₁, _, j, hready, hraw, hindex, rfl, rfl⟩
  · have hget : Fflib.ffstoragePoolGet p t.pools = (grownPools p t.pools p).head.map fun b =>
        (b, Function.update (grownPools p t.pools) p
          { mem := (grownPools p t.pools p).mem
            head := (header (grownPools p t.pools) b).next
            poolSize := (grownPools p t.pools p).poolSize
            currSize := subU32 (grownPools p t.pools p).currSize 1 }) := rfl
    rw [Fflib.poolStep, hget, hpool]
    rfl
  · have hlt : ∀ i ∈ j :: is, i < m' := by
      intro i hi
      rcases List.mem_cons.mp hi with rfl | hi
      · exact hj
      · exact Nat.lt_of_lt_of_le (h.held_lt i hi) hle
    constructor
    · exact Nat.lt_of_lt_of_le h.pos hle
    · simp only [Function.update_self]
      exact hsim.take hj
    · simp only [Function.update_self, List.map_cons]
      rw [h.held_raw, ← holding_congr haddr h.held_lt]
      rfl
    · simp only [h.held, List.map_cons]
    · exact hlt

/-- A block that is held of one pool is held of the other. -/
theorem Tracks.block (h : Tracks p m is s t) {e : Holding} (he : e ∈ s.held) :
    ∃ i, i ∈ is ∧ i < m ∧ e = (s.pools p).holding i ∧ (p, i) ∈ t.held ∧
      (s.pools p).blockOf e.handle = some i := by
  rw [h.held_raw] at he
  obtain ⟨i, hi, rfl⟩ := List.mem_map.mp he
  refine ⟨i, hi, h.held_lt i hi, rfl, ?_, ?_⟩
  · rw [h.held]
    exact List.mem_map_of_mem hi
  · rw [Pool.blockOf, Pool.holding, Nat.add_sub_cancel]
    exact Region.index?_addr (stride_pos _)
      (Nat.lt_of_lt_of_le (h.held_lt i hi) h.pool.le_size)

/-- A put gives the same block back to both. -/
theorem Tracks.put (h : Tracks p m is s t) {i : Nat} (hi : i ∈ is) :
    ∃ s' t', poolStep p s (.put ((s.pools p).holding i)) = some s' ∧
      Fflib.poolStep p t (.put (p, i)) = some t' ∧ Tracks p m (is.erase i) s' t' := by
  have he : (s.pools p).holding i ∈ s.held := h.held_raw ▸ List.mem_map_of_mem hi
  have hb : (p, i) ∈ t.held := h.held ▸ List.mem_map_of_mem hi
  have him := h.held_lt i hi
  obtain ⟨hraw, hpool⟩ := h.pool.poolid_eq i him
  obtain ⟨k, _, _, hk, _, hblock⟩ := h.block he
  obtain rfl := holding_inj _ hk
  have haddr : ((s.pools p).holding i).handle - headerSize = (s.pools p).region.addr i :=
    Nat.add_sub_cancel ..
  have hput := ffstoragePoolPut_of hblock hraw
  rw [haddr] at hput
  have hs := congrArg (Option.map fun pools =>
    (⟨pools, s.held.erase ((s.pools p).holding i)⟩ : PoolState δ)) hput
  refine ⟨_, _, (if_pos he).trans hs, if_pos hb, ?_⟩
  rw [ffstoragePoolPut_eq hpool]
  constructor
  · exact h.pos
  · simp only [Function.update_self]
    exact h.pool.link him
  · simp only [Function.update_self]
    rw [h.held_raw, ← List.map_erase (holding_inj _)]
    rfl
  · simp only [h.held]
    exact (List.map_erase (Prod.mk_right_injective p) is).symm
  · exact fun j hj => h.held_lt j (List.mem_of_mem_erase hj)

/-- Writing to a block is nothing to the other pool. -/
theorem Tracks.write (h : Tracks p m is s t) {e : Holding} (he : e ∈ s.held) (d : δ) :
    ∃ s', poolStep p s (.write e d) = some s' ∧ Tracks p m is s' t := by
  obtain ⟨i, _, _, _, _, hblock⟩ := h.block he
  refine ⟨⟨Function.update s.pools p { s.pools p with
    mem := Function.update (s.pools p).mem i { (s.pools p).mem i with data := d } }, s.held⟩,
    ?_, ?_⟩
  · simp only [poolStep, if_pos he, Raw.write, hblock, Option.map_some]
  · constructor
    · exact h.pos
    · simp only [Function.update_self]
      exact h.pool.write i d
    · simp only [Function.update_self]
      exact h.held_raw
    · exact h.held
    · exact h.held_lt

end Calls

/-! ### Runs -/

section Runs

variable {δ : Type u} {p : Nat} {s s' : PoolState δ} {t t' : Fflib.PoolState}

/-- Step lemma, from addresses to indices. -/
theorem Same.step (h : Same p s t) {c : PoolCall δ} (hstays : Stays p s c)
    (hs : poolStep p s c = some s') :
    ∃ t', run (Fflib.poolStep p) t (forget p c).toList = some t' ∧ Same p s' t' := by
  obtain ⟨m, is, h⟩ := h
  cases c with
  | get addr =>
      obtain ⟨m', i, s₁, t', hs₁, ht, h'⟩ := h.get hstays
      obtain rfl := Option.some.inj (hs₁.symm.trans hs)
      exact ⟨t', run_cons_eq_some.mpr ⟨t', ht, rfl⟩, m', i :: is, h'⟩
  | put e =>
      obtain ⟨i, hi, _, rfl, _, _⟩ := h.block (poolStep_put hs).1
      obtain ⟨s₁, t', hs₁, ht, h'⟩ := h.put hi
      obtain rfl := Option.some.inj (hs₁.symm.trans hs)
      exact ⟨t', run_cons_eq_some.mpr ⟨t', ht, rfl⟩, m, is.erase i, h'⟩
  | write e d =>
      obtain ⟨s₁, hs₁, h'⟩ := h.write (poolStep_write hs).1 d
      obtain rfl := Option.some.inj (hs₁.symm.trans hs)
      exact ⟨t, rfl, m, is, h'⟩

/-- Step lemma, from indices to addresses. -/
theorem Same.lift (h : Same p s t) {c : Fflib.PoolCall} (hdoubles : Doubles p t c)
    (ht : Fflib.poolStep p t c = some t') :
    ∃ a s', forget p a = some c ∧ Stays p s a ∧ poolStep p s a = some s' ∧ Same p s' t' := by
  obtain ⟨m, is, h⟩ := h
  cases c with
  | get =>
      have hstays : Stays p s (.get (s.pools p).base) := by
        intro hhead
        have hlt := hdoubles rfl (h.pool.head_same.eq_none_iff.mp hhead)
        exact ⟨rfl, h.pool.size_eq ▸ hlt⟩
      obtain ⟨m', i, s', t₁, hs, ht₁, h'⟩ := h.get hstays
      obtain rfl := Option.some.inj (ht₁.symm.trans ht)
      exact ⟨.get (s.pools p).base, s', rfl, hstays, hs, m', i :: is, h'⟩
  | put b =>
      have hb : b ∈ t.held := by
        by_contra hno
        rw [Fflib.poolStep, if_neg hno] at ht
        cases ht
      rw [h.held] at hb
      obtain ⟨i, hi, rfl⟩ := List.mem_map.mp hb
      obtain ⟨s', t₁, hs, ht₁, h'⟩ := h.put hi
      obtain rfl := Option.some.inj (ht₁.symm.trans ht)
      exact ⟨.put ((s.pools p).holding i), s', rfl, trivial, hs, m, is.erase i, h'⟩

/-- The memory that has not moved has room for the blocks that are held. -/
theorem Same.growsInPlace (h : Same p s t) {c : PoolCall δ} (hstays : Stays p s c) :
    GrowsInPlace p s c := by
  obtain ⟨m, is, h⟩ := h
  cases c with
  | get addr =>
      intro hhead _
      obtain ⟨hbase, hlt⟩ := hstays hhead
      refine ⟨hbase, fun e he i hblock => ?_⟩
      obtain ⟨j, _, hj, rfl, _, _⟩ := h.block he
      obtain rfl : j = i := Option.some.inj hblock
      have hsize := h.pool.le_size
      rw [Nat.mod_eq_of_lt hlt]
      omega
  | put e => trivial
  | write e d => trivial

/-- New pools. -/
theorem same_create {elemSize n base : Nat} {pools pools₀ : Nat → Pool δ} (hn : n < 2 ^ 32)
    (h : ffstoragePoolCreate p elemSize n base pools = some pools₀)
    (pools' : Nat → Fflib.Pool) :
    Same p ⟨pools₀, []⟩ ⟨Fflib.ffstoragePoolCreate p n pools', []⟩ := by
  obtain ⟨hpos, hg⟩ := ffstoragePoolCreate_grown hn h
  have hempty : Simulates p 0 { pools p with
      head := none, poolSize := 0, currSize := 0, elemSize := elemSize }
      (Function.update pools' p
        { mem := (pools' p).mem, head := none, poolSize := 0, currSize := 0 } p) := by
    rw [Function.update_self]
    constructor
    · exact fun i hi => absurd hi (Nat.not_lt_zero i)
    · exact fun i hi => absurd hi (Nat.not_lt_zero i)
    · exact fun i hi => absurd hi (Nat.not_lt_zero i)
    · exact .null
    · rfl
    · rfl
    · exact Nat.le_refl 0
  obtain ⟨m, hm, _, hsim⟩ := hempty.grow hg hpos hn (Or.inr rfl)
    (fun hlt => absurd hlt (Nat.lt_irrefl 0)) (Nat.zero_le n)
  refine ⟨m, [], ?_⟩
  constructor
  · exact hm
  · exact hsim
  · rfl
  · rfl
  · exact fun i hi => absurd hi List.not_mem_nil

/-- **Addresses to indices**: a run whose memory never moves is one of `Fflib.Storage`. -/
theorem same_of_run {elemSize n base : Nat} {pools pools₀ : Nat → Pool δ} (hn : n < 2 ^ 32)
    (h : ffstoragePoolCreate p elemSize n base pools = some pools₀)
    (pools' : Nat → Fflib.Pool) {cs : List (PoolCall δ)}
    (hstays : RunMeets (poolStep p) (Stays p) ⟨pools₀, []⟩ cs)
    (hr : run (poolStep p) ⟨pools₀, []⟩ cs = some s) :
    ∃ t, run (Fflib.poolStep p) ⟨Fflib.ffstoragePoolCreate p n pools', []⟩
      (cs.filterMap (forget p)) = some t ∧ Same p s t :=
  run_simulates (fun _ _ _ _ hsame hc hs => hsame.step hc hs) cs _ s _
    (same_create hn h pools') hstays hr

/-- **Indices to addresses**: a run of `Fflib.Storage` whose growth always doubles is one
whose memory never moves. -/
theorem exists_same_run {elemSize n base : Nat} {pools pools₀ : Nat → Pool δ} (hn : n < 2 ^ 32)
    (h : ffstoragePoolCreate p elemSize n base pools = some pools₀)
    {pools' : Nat → Fflib.Pool} {cs : List Fflib.PoolCall}
    (hdoubles : RunMeets (Fflib.poolStep p) (Doubles p)
      ⟨Fflib.ffstoragePoolCreate p n pools', []⟩ cs)
    (hr : run (Fflib.poolStep p) ⟨Fflib.ffstoragePoolCreate p n pools', []⟩ cs = some t) :
    ∃ as s, as.filterMap (forget p) = cs ∧
      RunMeets (poolStep p) (GrowsInPlace p) ⟨pools₀, []⟩ as ∧
      run (poolStep p) ⟨pools₀, []⟩ as = some s ∧ Same p s t :=
  exists_run_simulated (fun s t c t' hsame hc ht => by
    obtain ⟨a, s', hforget, hstays, hs, hsame'⟩ := hsame.lift hc ht
    exact ⟨a, s', hforget, hsame.growsInPlace hstays, hs, hsame'⟩) cs _ _ t
    (same_create hn h pools') hdoubles hr

end Runs

end Raw

end Fflib
