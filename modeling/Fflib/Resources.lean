import Fflib.Storage
import Fflib.AllreduceBuild
import Fflib.Library.Ledger
import Mathlib.Algebra.BigOperators.Group.Multiset.Basic

/-!
# The blocks that constructors take and destructors put back

The constructors of operations, buffers and schedules once more, as programs on the three
pools: `ffop_create` and `ffop_free`, `ffbuffer_create` and `ffbuffer_delete`,
`ffschedule_create` and `ffschedule_delete`, and what is built from them.  Of the contents
of a block only the fields that a destructor reads are kept.

**Blocks that are held.**  A block counts as often as it has been handed out and not put
back: a pool that has grown hands out blocks that are held.

* `Pair`: a constructor and the destructor that belongs to it.
* `pair_leaks`: a pair ends, and what it leaves behind; the pool of schedules and, for
  `ffallreduce`, that of buffers come out even, the pool of operations does not.
-/

namespace Fflib
namespace Resources

open Library

/-- `op_pool`, `buff_pool` and `schedule_pool`. -/
inductive PoolKind where
  | op
  | buff
  | sched
deriving DecidableEq

/-- `allreduce_state_t`; `tmpbuffs` has `tmpbuffs_count` entries. -/
structure AllreduceBlocks where
  tmpbuffs : List BlockPtr
  sndbuff : Option BlockPtr
  rcvbuff : BlockPtr
  freeSrBuff : Bool

/-- The block of a schedule. -/
structure SchedBlock where
  beginOp : BlockPtr
  endOp : BlockPtr
  state : Option AllreduceBlocks
  deleteCallback : Option SchedCallback

structure Blocks where
  pools : Nat → Pool
  handle : PoolKind → Nat
  held : PoolKind → Multiset BlockPtr
  scheds : BlockPtr → SchedBlock

abbrev BlockM := StateT Blocks Option

/-- `ffstorage_pool_get` for one of the three pools. -/
def poolGet (k : PoolKind) : BlockM BlockPtr := fun s =>
  (ffstoragePoolGet (s.handle k) s.pools).map fun r =>
    (r.1, { s with
      pools := r.2
      held := Function.update s.held k (r.1 ::ₘ s.held k) })

/-- `ffstorage_pool_put`; `none` when the block is not held. -/
def poolPut (k : PoolKind) (b : BlockPtr) : BlockM PUnit := fun s =>
  if b ∈ s.held k then
    some (⟨⟩, { s with
      pools := ffstoragePoolPut b s.pools
      held := Function.update s.held k ((s.held k).erase b) })
  else none

/-- `ffop_create`. -/
def ffopCreate : BlockM BlockPtr := poolGet .op

/-- `ffop_free`. -/
def ffopFree (op : BlockPtr) : BlockM PUnit := poolPut .op op

/-- `ffbuffer_create`, when `realloc` succeeds. -/
def ffbufferCreate : BlockM BlockPtr := poolGet .buff

/-- `ffbuffer_delete`. -/
def ffbufferDelete (buff : BlockPtr) : BlockM PUnit := poolPut .buff buff

def ffnop : BlockM BlockPtr := ffopCreate

/-- `ffsend_b`. -/
def ffsendB : BlockM BlockPtr := ffopCreate

/-- `ffrecv_b`. -/
def ffrecvB : BlockM BlockPtr := ffopCreate

/-- `ffcomp_b`. -/
def ffcompB : BlockM BlockPtr := ffopCreate

def ffsend : BlockM BlockPtr := do
  let _ ← ffbufferCreate
  ffsendB

def ffrecv : BlockM BlockPtr := do
  let _ ← ffbufferCreate
  ffrecvB

def ffcomp : BlockM BlockPtr := do
  let _ ← ffbufferCreate
  let _ ← ffbufferCreate
  let _ ← ffbufferCreate
  ffcompB

/-- The fields of a schedule are written. -/
def setSched (sched : BlockPtr) (f : SchedBlock → SchedBlock) : BlockM PUnit := fun s =>
  some (⟨⟩, { s with scheds := Function.update s.scheds sched (f (s.scheds sched)) })

/-- `ffschedule_create`. -/
def ffscheduleCreate : BlockM BlockPtr := do
  let sched ← poolGet .sched
  let beginOp ← ffnop
  let endOp ← ffnop
  setSched sched fun _ =>
    { beginOp := beginOp, endOp := endOp, state := none, deleteCallback := none }
  return sched

/-- The loop of `ffallreduce` that creates `tmpbuffs`. -/
def tmpbuffsCreate : Nat → BlockM (List BlockPtr)
  | 0 => return []
  | n + 1 => do
      let b ← ffbufferCreate
      let bs ← tmpbuffsCreate n
      return b :: bs

/-- The buffers of the state, created here unless they are provided. -/
def allreduceStateCreate (a : AllreduceArgs) (sndbuff rcvbuff : BlockPtr)
    (tmpbuffs : List BlockPtr) : BlockM AllreduceBlocks :=
  if a.buffersProvided then
    return { tmpbuffs := tmpbuffs
             sndbuff := if a.inPlace then none else some sndbuff
             rcvbuff := rcvbuff
             freeSrBuff := false }
  else if a.inPlace then do
    let rb ← ffbufferCreate
    return { tmpbuffs := tmpbuffs, sndbuff := none, rcvbuff := rb, freeSrBuff := true }
  else do
    let sb ← ffbufferCreate
    let rb ← ffbufferCreate
    return { tmpbuffs := tmpbuffs, sndbuff := some sb, rcvbuff := rb, freeSrBuff := true }

/-- The operation `move`. -/
def moveCreate (a : AllreduceArgs) : BlockM BlockPtr :=
  if a.inPlace then ffnop else ffcompB

/-- The body of the round loop in the iteration with `mask = 2 ^ b`. -/
def ffallreduceRound (a : AllreduceArgs) (st : AllreduceBlocks) (b r : Nat) : BlockM Nat :=
  if a.dst b < a.csize then do
    if st.tmpbuffs.length ≤ r then failure -- `assert(r<maxr)`
    let _ ← ffsendB
    let _ ← ffrecvB
    let _ ← ffcompB
    return r + 1
  else
    return r

/-- `while (mask < csize)`, from the iteration with `mask = 2 ^ b` on. -/
def ffallreduceLoop (a : AllreduceArgs) (st : AllreduceBlocks) (b r : Nat) : BlockM PUnit :=
  if 2 ^ b < a.csize then do
    let r' ← ffallreduceRound a st b r
    ffallreduceLoop a st (b + 1) r'
  else
    return ⟨⟩
termination_by a.csize - 2 ^ b
decreasing_by
  have := Nat.pow_lt_pow_right (a := 2) (by omega) (Nat.lt_succ_self b)
  simp only [Nat.succ_eq_add_one] at this
  omega

/-- `ffallreduce`; with `FFCOLL_BUFFERS` the two buffers are those of the user. -/
def ffallreduce (a : AllreduceArgs) (sndbuff rcvbuff : BlockPtr) : BlockM BlockPtr := do
  let sched ← ffscheduleCreate
  let tmpbuffs ← tmpbuffsCreate a.maxr
  let st ← allreduceStateCreate a sndbuff rcvbuff tmpbuffs
  let _ ← moveCreate a
  setSched sched fun s => { s with state := some st, deleteCallback := some .ffallreduceFree }
  ffallreduceLoop a st 0 0
  return sched

/-- `ffallreduce_free`; `none` is the assertion that the schedule has a state. -/
def ffallreduceFree (sched : BlockPtr) : BlockM PUnit := fun s =>
  match (s.scheds sched).state with
  | none => none
  | some st =>
      (do
        st.tmpbuffs.forM ffbufferDelete
        if st.freeSrBuff then
          st.sndbuff.toList.forM ffbufferDelete
          ffbufferDelete st.rcvbuff) s

/-- `ffschedule_delete`; `ffallreduce_free` is the only callback it can find. -/
def ffscheduleDelete (sched : BlockPtr) : BlockM PUnit := do
  let s ← get
  if (s.scheds sched).deleteCallback = some .ffallreduceFree then
    ffallreduceFree sched
  poolPut .sched sched

/-! ### Constructors and their destructors -/

/-- A constructor with its arguments, as far as they matter here. -/
inductive Pair where
  | allreduce (a : AllreduceArgs) (sndbuff rcvbuff : BlockPtr)
  | schedule
  | send
  | recv
  | comp

/-- The constructor, followed by the destructor of what it returns. -/
def Pair.call : Pair → BlockM PUnit
  | .allreduce a sndbuff rcvbuff => ffallreduce a sndbuff rcvbuff >>= ffscheduleDelete
  | .schedule => ffscheduleCreate >>= ffscheduleDelete
  | .send => ffsend >>= ffopFree
  | .recv => ffrecv >>= ffopFree
  | .comp => ffcomp >>= ffopFree

/-- The number of blocks that a pair leaves held. -/
def Pair.leaks : Pair → PoolKind → Nat
  | .allreduce a _ _, .op => 3 + 3 * a.activeBits.length
  | .schedule, .op => 2
  | .send, .buff => 1
  | .recv, .buff => 1
  | .comp, .buff => 3
  | _, _ => 0

/-! ### What the programs take -/

/-- Blocks of the three pools. -/
def blocks (ops buffs scheds : Multiset BlockPtr) : PoolKind → Multiset BlockPtr
  | .op => ops
  | .buff => buffs
  | .sched => scheds

@[simp] theorem blocks_zero : blocks 0 0 0 = 0 := by
  funext k
  cases k <;> rfl

@[simp] theorem blocks_add (o b c o' b' c' : Multiset BlockPtr) :
    blocks o b c + blocks o' b' c' = blocks (o + o') (b + b') (c + c') := by
  funext k
  cases k <;> rfl

/-- The program ends, takes what `Q` says, and writes to no schedule. -/
def Allocates {α : Type} (m : BlockM α) (Q : α → (PoolKind → Multiset BlockPtr) → Prop) : Prop :=
  ∀ s, Takes Blocks.held m s fun a s' g => s'.scheds = s.scheds ∧ Q a g

section Rules

variable {α β : Type} {m : BlockM α} {f : α → BlockM β}
  {Q : α → (PoolKind → Multiset BlockPtr) → Prop} {R : β → (PoolKind → Multiset BlockPtr) → Prop}

theorem Allocates.pure {a : α} (h : Q a 0) : Allocates (Pure.pure a : BlockM α) Q :=
  fun _ => Takes.pure ⟨rfl, h⟩

theorem Allocates.mono {Q' : α → (PoolKind → Multiset BlockPtr) → Prop} (h : Allocates m Q)
    (hQ : ∀ a g, Q a g → Q' a g) : Allocates m Q' :=
  fun s => (h s).mono fun a _ g hg => ⟨hg.1, hQ a g hg.2⟩

theorem Allocates.bind (h : Allocates m Q)
    (hf : ∀ a g, Q a g → Allocates (f a) fun b g' => R b (g + g')) : Allocates (m >>= f) R := by
  intro s
  refine (h s).bind fun a s' g hg => ?_
  exact (hf a g hg.2 s').mono fun b s'' g' hg' => ⟨hg'.1.trans hg.1, hg'.2⟩

end Rules

/-- A get always ends: a pool with an empty free list grows. -/
theorem ffstoragePoolGet_isSome (p : Nat) (pools : Nat → Pool) :
    ∃ r, ffstoragePoolGet p pools = some r := by
  cases h : (pools p).head with
  | none =>
      obtain ⟨pools', hget⟩ := ffstoragePoolGet_of_empty h
      exact ⟨_, hget⟩
  | some b => exact ⟨_, ffstoragePoolGet_of_head h⟩

theorem poolGet_takes (k : PoolKind) :
    Allocates (poolGet k) fun b g => g = Pi.single k {b} := by
  intro s
  obtain ⟨r, hr⟩ := ffstoragePoolGet_isSome (s.handle k) s.pools
  have hget : poolGet k s = some (r.1, { s with
      pools := r.2
      held := Function.update s.held k (r.1 ::ₘ s.held k) }) := by
    rw [poolGet, hr, Option.map_some]
  refine ⟨_, _, Pi.single k {r.1}, hget, ?_, rfl, rfl⟩
  funext k'
  by_cases hk : k' = k
  · subst hk
    simp [Multiset.singleton_add, add_comm]
  · simp [hk]

theorem poolPut_putsBack (k : PoolKind) (b : BlockPtr) (s : Blocks) :
    PutsBack Blocks.held (poolPut k b) s (Pi.single k {b}) := by
  intro rest hs
  have hk : s.held k = b ::ₘ rest k := by
    rw [hs, Pi.add_apply, Pi.single_eq_same, ← Multiset.singleton_add, add_comm]
  have hmem : b ∈ s.held k := by
    rw [hk]
    exact Multiset.mem_cons_self b _
  refine ⟨_, if_pos hmem, ?_⟩
  funext k'
  by_cases hkk : k' = k
  · subst hkk
    simp [hk]
  · simp [hkk, hs]

theorem single_op (b : BlockPtr) : Pi.single PoolKind.op {b} = blocks {b} 0 0 := by
  funext k
  cases k <;> rfl

theorem single_buff (b : BlockPtr) : Pi.single PoolKind.buff {b} = blocks 0 {b} 0 := by
  funext k
  cases k <;> rfl

theorem single_sched (b : BlockPtr) : Pi.single PoolKind.sched {b} = blocks 0 0 {b} := by
  funext k
  cases k <;> rfl

theorem ffopCreate_allocates : Allocates ffopCreate fun b g => g = blocks {b} 0 0 :=
  (poolGet_takes .op).mono fun b _ hg => hg.trans (single_op b)

theorem ffbufferCreate_allocates : Allocates ffbufferCreate fun b g => g = blocks 0 {b} 0 :=
  (poolGet_takes .buff).mono fun b _ hg => hg.trans (single_buff b)

theorem ffopFree_putsBack (op : BlockPtr) (s : Blocks) :
    PutsBack Blocks.held (ffopFree op) s (blocks {op} 0 0) :=
  single_op op ▸ poolPut_putsBack .op op s

theorem ffbufferDelete_putsBack (buff : BlockPtr) (s : Blocks) :
    PutsBack Blocks.held (ffbufferDelete buff) s (blocks 0 {buff} 0) :=
  single_buff buff ▸ poolPut_putsBack .buff buff s

/-- Buffers first, then an operation. -/
theorem ffsend_allocates :
    Allocates ffsend fun op g => ∃ b, g = blocks {op} {b} 0 := by
  refine ffbufferCreate_allocates.bind fun b _ hb => ?_
  refine ffopCreate_allocates.mono fun op _ hop => ⟨b, ?_⟩
  simp [hb, hop]

theorem ffrecv_allocates :
    Allocates ffrecv fun op g => ∃ b, g = blocks {op} {b} 0 :=
  ffsend_allocates

theorem ffcomp_allocates :
    Allocates ffcomp fun op g => ∃ b₁ b₂ b₃, g = blocks {op} {b₁, b₂, b₃} 0 := by
  refine ffbufferCreate_allocates.bind fun b₁ _ h₁ => ?_
  refine ffbufferCreate_allocates.bind fun b₂ _ h₂ => ?_
  refine ffbufferCreate_allocates.bind fun b₃ _ h₃ => ?_
  refine ffopCreate_allocates.mono fun op _ hop => ⟨b₁, b₂, b₃, ?_⟩
  simp [h₁, h₂, h₃, hop, ← Multiset.singleton_add]

theorem tmpbuffsCreate_allocates (n : Nat) :
    Allocates (tmpbuffsCreate n) fun bs g => bs.length = n ∧ g = blocks 0 bs 0 := by
  induction n with
  | zero => exact Allocates.pure ⟨rfl, blocks_zero.symm⟩
  | succ n ih =>
      refine ffbufferCreate_allocates.bind fun b _ hb => ?_
      refine ih.bind fun bs _ hbs => ?_
      refine Allocates.pure ⟨by simp [hbs.1], ?_⟩
      simp [hb, hbs.2]

/-- The buffers that `ffallreduce_free` deletes besides the temporary ones. -/
def ownBuffers (st : AllreduceBlocks) : List BlockPtr :=
  if st.freeSrBuff then st.sndbuff.toList ++ [st.rcvbuff] else []

theorem allreduceStateCreate_allocates (a : AllreduceArgs) (sndbuff rcvbuff : BlockPtr)
    (tmpbuffs : List BlockPtr) :
    Allocates (allreduceStateCreate a sndbuff rcvbuff tmpbuffs) fun st g =>
      st.tmpbuffs = tmpbuffs ∧ g = blocks 0 (ownBuffers st) 0 := by
  unfold allreduceStateCreate
  by_cases hprov : a.buffersProvided = true
  · rw [if_pos hprov]
    exact Allocates.pure ⟨rfl, by simp [ownBuffers]⟩
  · rw [if_neg hprov]
    by_cases hin : a.inPlace = true
    · rw [if_pos hin]
      refine ffbufferCreate_allocates.bind fun rb _ hrb => ?_
      exact Allocates.pure ⟨rfl, by simp [hrb, ownBuffers]⟩
    · rw [if_neg hin]
      refine ffbufferCreate_allocates.bind fun sb _ hsb => ?_
      refine ffbufferCreate_allocates.bind fun rb _ hrb => ?_
      refine Allocates.pure ⟨rfl, ?_⟩
      simp only [hsb, hrb, ownBuffers, add_zero, blocks_add]
      rfl

theorem moveCreate_allocates (a : AllreduceArgs) :
    Allocates (moveCreate a) fun b g => g = blocks {b} 0 0 := by
  unfold moveCreate
  by_cases hin : a.inPlace = true
  · rw [if_pos hin]
    exact ffopCreate_allocates
  · rw [if_neg hin]
    exact ffopCreate_allocates

/-- The program takes `n` operations and nothing else. -/
def TakesOps (n : Nat) (g : PoolKind → Multiset BlockPtr) : Prop :=
  ∃ ops : Multiset BlockPtr, ops.card = n ∧ g = blocks ops 0 0

theorem TakesOps.card {n : Nat} {g : PoolKind → Multiset BlockPtr} (h : TakesOps n g)
    (k : PoolKind) : (g k).card = if k = .op then n else 0 := by
  obtain ⟨ops, hn, rfl⟩ := h
  cases k <;> simp [blocks, hn]

theorem TakesOps.add {n n' : Nat} {g g' : PoolKind → Multiset BlockPtr} (h : TakesOps n g)
    (h' : TakesOps n' g') : TakesOps (n + n') (g + g') := by
  obtain ⟨ops, hn, rfl⟩ := h
  obtain ⟨ops', hn', rfl⟩ := h'
  exact ⟨ops + ops', by simp [hn, hn'], by simp⟩

/-- A round with a partner takes a send, a receive and a computation. -/
theorem ffallreduceRound_allocates (a : AllreduceArgs) {st : AllreduceBlocks} {b r : Nat}
    (hr : r < st.tmpbuffs.length) :
    Allocates (ffallreduceRound a st b r) fun r' g =>
      if a.dst b < a.csize then r' = r + 1 ∧ TakesOps 3 g else r' = r ∧ TakesOps 0 g := by
  unfold ffallreduceRound
  by_cases hdst : a.dst b < a.csize
  · simp only [if_pos hdst, if_neg (Nat.not_le.mpr hr)]
    refine ffopCreate_allocates.bind fun send _ hs => ?_
    refine ffopCreate_allocates.bind fun recv _ hv => ?_
    refine ffopCreate_allocates.bind fun comp _ hc => ?_
    refine Allocates.pure ⟨rfl, {send, recv, comp}, rfl, ?_⟩
    simp [hs, hv, hc, ← Multiset.singleton_add]
  · simp only [if_neg hdst]
    exact Allocates.pure ⟨rfl, 0, rfl, blocks_zero.symm⟩

/-- The rounds from the iteration `b` on. -/
theorem ffallreduceLoop_allocates (a : AllreduceArgs) {st : AllreduceBlocks}
    (htmp : st.tmpbuffs.length = a.maxr) :
    ∀ (k b : Nat), b + k = a.maxr →
      Allocates (ffallreduceLoop a st b (a.activeBelow b).length) fun _ g =>
        TakesOps (3 * (a.activeBits.length - (a.activeBelow b).length)) g := by
  intro k
  induction k with
  | zero =>
      intro b hk
      have hb : b = a.maxr := by omega
      have hstop : ¬ 2 ^ b < a.csize := by
        rw [two_pow_lt_csize_iff]
        omega
      rw [ffallreduceLoop, if_neg hstop, hb, activeBelow_maxr, Nat.sub_self]
      exact Allocates.pure ⟨0, rfl, blocks_zero.symm⟩
  | succ k ih =>
      intro b hk
      have hgo : 2 ^ b < a.csize := two_pow_lt_csize_iff.mpr (by omega)
      have hr : (a.activeBelow b).length < st.tmpbuffs.length := by
        have := length_activeBelow_le_self (a := a) b
        omega
      have hmore := length_activeBelow_le (a := a) (show b + 1 ≤ a.maxr by omega)
      rw [activeBelow_maxr] at hmore
      replace ih := ih (b + 1) (by omega)
      rw [ffallreduceLoop, if_pos hgo]
      refine (ffallreduceRound_allocates a hr).bind fun r' g hg => ?_
      have hsucc := activeBelow_succ (a := a) b
      by_cases hdst : a.dst b < a.csize
      · rw [if_pos hdst] at hg hsucc
        have hlen : (a.activeBelow (b + 1)).length = (a.activeBelow b).length + 1 := by
          rw [hsucc, List.length_append, List.length_singleton]
        rw [hg.1, ← hlen]
        refine ih.mono fun _ g' hg' => ?_
        have hcount : 3 * (a.activeBits.length - (a.activeBelow b).length) =
            3 + 3 * (a.activeBits.length - (a.activeBelow (b + 1)).length) := by omega
        rw [hcount]
        exact hg.2.add hg'
      · rw [if_neg hdst] at hg hsucc
        rw [hg.1, ← hsucc]
        refine ih.mono fun _ g' hg' => ?_
        rw [← Nat.zero_add (3 * _)]
        exact hg.2.add hg'

theorem ffscheduleCreate_takes (s : Blocks) :
    Takes Blocks.held ffscheduleCreate s fun sched s' g =>
      (s'.scheds sched).deleteCallback = none ∧
        ∃ ops : Multiset BlockPtr, ops.card = 2 ∧ g = blocks ops 0 {sched} := by
  refine ((poolGet_takes .sched) s).bind fun sched s₁ _ hsched => ?_
  refine (ffopCreate_allocates s₁).bind fun beginOp s₂ _ hb => ?_
  refine (ffopCreate_allocates s₂).bind fun endOp s₃ _ he => ?_
  refine ⟨sched, _, 0, rfl, (add_zero _).symm, by simp, {beginOp, endOp}, rfl, ?_⟩
  rw [hsched.2, hb.2, he.2, single_sched]
  simp [← Multiset.singleton_add]

/-- What `ffallreduce` takes, and the fields that its destructor will read. -/
theorem ffallreduce_takes (a : AllreduceArgs) (sndbuff rcvbuff : BlockPtr) (s : Blocks) :
    Takes Blocks.held (ffallreduce a sndbuff rcvbuff) s fun sched s' g =>
      (s'.scheds sched).deleteCallback = some .ffallreduceFree ∧
        ∃ st, (s'.scheds sched).state = some st ∧
          ∃ ops : Multiset BlockPtr, ops.card = 3 + 3 * a.activeBits.length ∧
            g = blocks ops (st.tmpbuffs ++ ownBuffers st : List BlockPtr) {sched} := by
  refine (ffscheduleCreate_takes s).bind fun sched s₁ _ ⟨_, ops₁, hops₁, h₁⟩ => ?_
  refine (tmpbuffsCreate_allocates a.maxr s₁).bind fun tmp s₂ _ h₂ => ?_
  refine (allreduceStateCreate_allocates a sndbuff rcvbuff tmp s₂).bind fun st s₃ _ h₃ => ?_
  refine (moveCreate_allocates a s₃).bind fun move s₄ _ h₄ => ?_
  have hlen : st.tmpbuffs.length = a.maxr := by rw [h₃.2.1, h₂.2.1]
  have hset : Takes Blocks.held (setSched sched fun f =>
      { f with state := some st, deleteCallback := some .ffallreduceFree }) s₄ fun _ s' g =>
        (s'.scheds sched).deleteCallback = some .ffallreduceFree ∧
          (s'.scheds sched).state = some st ∧ g = 0 :=
    ⟨⟨⟩, _, 0, rfl, (add_zero _).symm, by simp, by simp, rfl⟩
  refine hset.bind fun _ s₅ _ h₅ => ?_
  refine (ffallreduceLoop_allocates a hlen a.maxr 0 (by omega) s₅).bind fun _ s₆ _ h₆ => ?_
  obtain ⟨ops, hops, hg⟩ := h₆.2
  refine Takes.pure ⟨by rw [h₆.1]; exact h₅.1, st, by rw [h₆.1]; exact h₅.2.1,
    ops₁ + {move} + ops, ?_, ?_⟩
  · simp [hops₁, hops, AllreduceArgs.activeBelow]
  · rw [h₁, h₂.2.2, h₃.2.2, h₄.2, h₅.2.2, hg, h₃.2.1]
    simp [add_assoc]

/-! ### What the destructors put back -/

/-- One buffer after another is deleted. -/
theorem deleteAll_putsBack (bs : List BlockPtr) (s : Blocks) :
    PutsBack Blocks.held (bs.forM ffbufferDelete) s (blocks 0 bs 0) := by
  have hsum : (bs.map fun b => blocks 0 {b} 0).sum = blocks 0 bs 0 := by
    induction bs with
    | nil => exact blocks_zero.symm
    | cons b bs ih =>
        rw [List.map_cons, List.sum_cons, ih, blocks_add, Multiset.singleton_add]
        rfl
  rw [← hsum]
  exact PutsBack.forM ffbufferDelete_putsBack bs s

theorem ffallreduceFree_putsBack {sched : BlockPtr} {s : Blocks} {st : AllreduceBlocks}
    (hst : (s.scheds sched).state = some st) :
    PutsBack Blocks.held (ffallreduceFree sched) s
      (blocks 0 (st.tmpbuffs ++ ownBuffers st : List BlockPtr) 0) := by
  have hsplit : blocks 0 (st.tmpbuffs ++ ownBuffers st : List BlockPtr) 0 =
      blocks 0 st.tmpbuffs 0 + blocks 0 (ownBuffers st) 0 := by
    rw [blocks_add, Multiset.coe_add]
    rfl
  have hown : ∀ s', PutsBack Blocks.held (if st.freeSrBuff then do
        st.sndbuff.toList.forM ffbufferDelete
        ffbufferDelete st.rcvbuff
      else Pure.pure ⟨⟩ : BlockM PUnit) s' (blocks 0 (ownBuffers st) 0) := by
    intro s'
    by_cases hfree : st.freeSrBuff = true
    · have hboth : blocks 0 (ownBuffers st) 0 =
          blocks 0 st.sndbuff.toList 0 + blocks 0 {st.rcvbuff} 0 := by
        rw [ownBuffers, if_pos hfree, blocks_add, ← Multiset.coe_add]
        rfl
      rw [if_pos hfree, hboth]
      exact (deleteAll_putsBack _ s').seq (ffbufferDelete_putsBack _)
    · rw [if_neg hfree, ownBuffers, if_neg hfree, Multiset.coe_nil, blocks_zero]
      exact PutsBack.pure
  have hboth := (deleteAll_putsBack st.tmpbuffs s).seq hown
  rw [← hsplit] at hboth
  intro rest hs
  obtain ⟨s', hrun, hheld⟩ := hboth rest hs
  refine ⟨s', ?_, hheld⟩
  simp only [ffallreduceFree, hst]
  exact hrun

theorem ffscheduleDelete_putsBack {sched : BlockPtr} {s : Blocks} {g : PoolKind → Multiset BlockPtr}
    (hfree : (s.scheds sched).deleteCallback = some .ffallreduceFree →
      PutsBack Blocks.held (ffallreduceFree sched) s g)
    (hnone : (s.scheds sched).deleteCallback ≠ some .ffallreduceFree → g = 0) :
    PutsBack Blocks.held (ffscheduleDelete sched) s (g + blocks 0 0 {sched}) := by
  have hput : ∀ s', PutsBack Blocks.held (poolPut .sched sched) s' (blocks 0 0 {sched}) :=
    fun s' => single_sched sched ▸ poolPut_putsBack .sched sched s'
  by_cases hcb : (s.scheds sched).deleteCallback = some .ffallreduceFree
  · intro rest hs
    obtain ⟨s', hrun, hheld⟩ := (hfree hcb).seq hput rest hs
    refine ⟨s', ?_, hheld⟩
    rw [← hrun]
    change (if _ then _ else _ : BlockM PUnit) s = _
    rw [if_pos hcb]
  · intro rest hs
    obtain ⟨s', hrun, hheld⟩ := hput s rest (by rw [hs, hnone hcb, zero_add])
    refine ⟨s', ?_, hheld⟩
    rw [← hrun]
    change (if _ then _ else _ : BlockM PUnit) s = _
    rw [if_neg hcb]

/-! ### The balance of a pair -/

/-- An operation is freed and its buffers are not. -/
theorem freeOp_leaks {m : BlockM BlockPtr} {n : Nat} (s : Blocks)
    (h : Allocates m fun op g => ∃ bs : Multiset BlockPtr, bs.card = n ∧ g = blocks {op} bs 0) :
    ∃ s' lost, (m >>= ffopFree) s = some (⟨⟩, s') ∧ s'.held = s.held + lost ∧
      ∀ k, (lost k).card = if k = .buff then n else 0 := by
  refine (h s).thenPutsBack fun op s' g ⟨_, bs, hn, hg⟩ => ?_
  refine ⟨blocks 0 bs 0, blocks {op} 0 0, ?_, ffopFree_putsBack op s', fun k => ?_⟩
  · rw [hg]
    simp
  · cases k <;> simp [blocks, hn]

/-- The operations of a schedule are not freed. -/
theorem ffallreduce_leaks (a : AllreduceArgs) (sndbuff rcvbuff : BlockPtr) (s : Blocks) :
    ∃ s' lost, (ffallreduce a sndbuff rcvbuff >>= ffscheduleDelete) s = some (⟨⟩, s') ∧
      s'.held = s.held + lost ∧
      ∀ k, (lost k).card = if k = .op then 3 + 3 * a.activeBits.length else 0 := by
  refine (ffallreduce_takes a sndbuff rcvbuff s).thenPutsBack
    fun sched s' g ⟨hcb, st, hst, ops, hops, hg⟩ => ?_
  have hdelete := ffscheduleDelete_putsBack (fun _ => ffallreduceFree_putsBack hst)
    (fun hne => absurd hcb hne)
  refine ⟨blocks ops 0 0, _, ?_, hdelete, TakesOps.card ⟨ops, hops, rfl⟩⟩
  rw [hg]
  simp

theorem ffschedule_leaks (s : Blocks) :
    ∃ s' lost, (ffscheduleCreate >>= ffscheduleDelete) s = some (⟨⟩, s') ∧
      s'.held = s.held + lost ∧ ∀ k, (lost k).card = if k = .op then 2 else 0 := by
  refine (ffscheduleCreate_takes s).thenPutsBack fun sched s' g ⟨hcb, ops, hops, hg⟩ => ?_
  have hdelete := ffscheduleDelete_putsBack (g := 0)
    (fun heq => absurd (hcb.symm.trans heq) (by decide)) (fun _ => rfl)
  refine ⟨blocks ops 0 0, _, ?_, hdelete, TakesOps.card ⟨ops, hops, rfl⟩⟩
  rw [hg]
  simp

/-- A pair ends, and leaves behind as many blocks as `Pair.leaks` says. -/
theorem pair_leaks (p : Pair) (s : Blocks) :
    ∃ s' lost, p.call s = some (⟨⟩, s') ∧ s'.held = s.held + lost ∧
      ∀ k, (lost k).card = p.leaks k := by
  cases p with
  | allreduce a sndbuff rcvbuff =>
      obtain ⟨s', lost, hrun, hheld, hlost⟩ := ffallreduce_leaks a sndbuff rcvbuff s
      exact ⟨s', lost, hrun, hheld, fun k => (hlost k).trans (by cases k <;> rfl)⟩
  | schedule =>
      obtain ⟨s', lost, hrun, hheld, hlost⟩ := ffschedule_leaks s
      exact ⟨s', lost, hrun, hheld, fun k => (hlost k).trans (by cases k <;> rfl)⟩
  | send =>
      obtain ⟨s', lost, hrun, hheld, hlost⟩ := freeOp_leaks (n := 1) s
        (ffsend_allocates.mono fun op g ⟨b, hg⟩ => ⟨{b}, rfl, hg⟩)
      exact ⟨s', lost, hrun, hheld, fun k => (hlost k).trans (by cases k <;> rfl)⟩
  | recv =>
      obtain ⟨s', lost, hrun, hheld, hlost⟩ := freeOp_leaks (n := 1) s
        (ffrecv_allocates.mono fun op g ⟨b, hg⟩ => ⟨{b}, rfl, hg⟩)
      exact ⟨s', lost, hrun, hheld, fun k => (hlost k).trans (by cases k <;> rfl)⟩
  | comp =>
      obtain ⟨s', lost, hrun, hheld, hlost⟩ := freeOp_leaks (n := 3) s
        (ffcomp_allocates.mono fun op g ⟨b₁, b₂, b₃, hg⟩ => ⟨{b₁, b₂, b₃}, rfl, hg⟩)
      exact ⟨s', lost, hrun, hheld, fun k => (hlost k).trans (by cases k <;> rfl)⟩

theorem Pair.leaks_pos (p : Pair) : ∃ k, 0 < p.leaks k := by
  cases p with
  | allreduce a sndbuff rcvbuff => exact ⟨.op, by simp [Pair.leaks]⟩
  | schedule => exact ⟨.op, by decide⟩
  | send => exact ⟨.buff, by decide⟩
  | recv => exact ⟨.buff, by decide⟩
  | comp => exact ⟨.buff, by decide⟩

/-- **Balance of constructors and destructors.**  No pair leaves the blocks that are held
as they were, in any state of the pools: an allreduce or a schedule leaves all its operations
behind, and a send, a receive or a computation its buffers. -/
theorem pair_balance_never (p : Pair) (s : Blocks) :
    ∃ s' lost, p.call s = some (⟨⟩, s') ∧ s'.held = s.held + lost ∧
      (∀ k, (lost k).card = p.leaks k) ∧ s'.held ≠ s.held := by
  obtain ⟨s', lost, hrun, hheld, hlost⟩ := pair_leaks p s
  refine ⟨s', lost, hrun, hheld, hlost, fun heq => ?_⟩
  obtain ⟨k, hk⟩ := p.leaks_pos
  have hzero : lost = 0 := by
    rw [heq] at hheld
    exact left_eq_add.mp hheld
  have hcard := hlost k
  rw [hzero, Pi.zero_apply, Multiset.card_zero] at hcard
  omega

/-- The pools after `ffinit`. -/
def initBlocks : Blocks where
  pools := ffstoragePoolCreate 2 1024
    (ffstoragePoolCreate 1 1024 (ffstoragePoolCreate 0 1024 noPools))
  handle
    | .buff => 0
    | .op => 1
    | .sched => 2
  held _ := 0
  scheds _ := { beginOp := (1, 0), endOp := (1, 0), state := none, deleteCallback := none }

/-- After `ffinit`, a schedule that is created and deleted leaves two operations held. -/
theorem pair_balance_fails :
    ¬ ∀ (p : Pair) (s s' : Blocks), p.call s = some (⟨⟩, s') → s'.held = s.held := by
  intro hall
  obtain ⟨s', lost, hrun, hheld, hlost⟩ := pair_leaks .schedule initBlocks
  have hcard : (s'.held .op).card = 2 := by
    rw [hheld, Pi.add_apply, Multiset.card_add, hlost]
    rfl
  rw [hall .schedule initBlocks s' hrun] at hcard
  exact absurd hcard (by decide)

end Resources
end Fflib
