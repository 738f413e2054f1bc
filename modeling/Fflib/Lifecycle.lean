import Fflib.Arman
import Fflib.Library.BlockHeap
import Fflib.Library.Machine
import Fflib.Resources

/-!
# The life of the library

`ffinit` and `fffinalize` of `ff.c` with the static variables that they touch: those of
`ffstorage.c`, `ffbuffer.c`, `ffop.c`, `ffschedule.c` and `ffprogress.c`, and the index
managers of `ffop_mpi_progresser.c` and `ffop_gcomp_operator.c`.  The application
initialises and finalises MPI itself.

**Memory.**  What `malloc`, `realloc` and `free` do to the blocks of the process is a
`BlockHeap`; no call fails.  An index manager is its block and, for the pools, its
contents; what the other two hold is left to their own modules.

**Threads.**  The user thread waits in `ffinit` for the flag and in `fffinalize` for the
progress thread.  A loop of the progress thread over its progressers is one step, and so
is the write of the flag.  While the library is up, the user takes blocks from its pools
and puts blocks back.

* `Established` is what `ffinit` leaves behind when it is called first.
* `FlagOk` says that the flag is not up before the progressers are initialised.
* `Inv` is the invariant of every run, with what the second `ffinit` finds: a progresser
  that is registered, a flag that is up and a pool whose memory has been freed.
* `reinit_never`: of all calls of `ffinit` only the first one does what it should.
-/

namespace Fflib
namespace Lifecycle

open Library

/-- `ffprogresser_t`; the source registers one triple of functions. -/
inductive Ffprogresser where
  | mpi
deriving DecidableEq

/-- `MAX_PROGRESSERS`. -/
def maxProgressers : Nat := 16

/-- `MAX_POOLS`. -/
def maxPools : Nat := 128

/-- `INITIAL_FFOP_POOL_COUNT`, and the same for buffers and schedules. -/
def initialCount : Nat := 1024

/-- The static variables; `mem` are the pointers `pools[i].mem`, `mpiTofree` and
`customTofree` the blocks of the two other index managers. -/
structure Statics where
  heap : BlockHeap
  mem : Nat → Option Nat
  pools : Nat → Pool
  indexManager : Ffarman
  tofree : Option Nat
  buffPool : Nat
  opPool : Nat
  schedulePool : Nat
  progressers : List Ffprogresser
  ready : Bool
  mpiTofree : Option Nat
  customTofree : Option Nat
  terminate : Bool

/-- Static variables start out as zero. -/
def Statics.start : Statics where
  heap := BlockHeap.empty
  mem _ := none
  pools := noPools
  indexManager := ⟨fun _ => ⟨0, none⟩, none, none⟩
  tofree := none
  buffPool := 0
  opPool := 0
  schedulePool := 0
  progressers := []
  ready := false
  mpiTofree := none
  customTofree := none
  terminate := false

namespace Statics

/-- `ffprogresser_register`; the code that it returns is not looked at. -/
def ffprogresserRegister (progresser : Ffprogresser) (s : Statics) : Statics :=
  if maxProgressers ≤ s.progressers.length then s
  else { s with progressers := s.progressers ++ [progresser] }

/-- `ffbind`. -/
def ffbind (s : Statics) : Statics := s.ffprogresserRegister .mpi

/-- `ffstorage_init`; `entries` are the contents of the block that `malloc` returns. -/
def ffstorageInit (entries : Nat → ArmanEntry) (s : Statics) : Statics :=
  { s with
    heap := s.heap.malloc.2
    indexManager := ffarmanCreate maxPools entries
    tofree := some s.heap.malloc.1 }

/-- `ffstorage_pool_create`, which passes to `realloc` what the pointer of the pool is.  The
variable `next_free_pool` stays zero, so that the check of it never fails. -/
def ffstoragePoolCreate (count : Nat) (s : Statics) : Nat × Statics :=
  let poolid := (ffarmanGet s.indexManager).1
  let block := s.heap.realloc (s.mem poolid)
  (poolid,
    { s with
      heap := block.2
      mem := Function.update s.mem poolid (some block.1)
      pools := Fflib.ffstoragePoolCreate poolid count s.pools
      indexManager := (ffarmanGet s.indexManager).2 })

/-- `ffbuffer_init`. -/
def ffbufferInit (s : Statics) : Statics :=
  let r := s.ffstoragePoolCreate initialCount
  { r.2 with buffPool := r.1 }

/-- `ffop_init`. -/
def ffopInit (s : Statics) : Statics :=
  let r := s.ffstoragePoolCreate initialCount
  { r.2 with opPool := r.1 }

/-- `ffschedule_init`. -/
def ffscheduleInit (s : Statics) : Statics :=
  let r := s.ffstoragePoolCreate initialCount
  { r.2 with schedulePool := r.1 }

/-- `ffmpi_init` when MPI is initialised: only the index manager of the operators is made. -/
def ffmpiInit (s : Statics) : Statics :=
  { s with
    heap := s.heap.malloc.2
    customTofree := some s.heap.malloc.1 }

/-- `ffinit`, up to the creation of the progress thread. -/
def ffinit (entries : Nat → ArmanEntry) (s : Statics) : Statics :=
  let s := (s.ffbind.ffstorageInit entries).ffbufferInit.ffopInit.ffscheduleInit.ffmpiInit
  { s with terminate := false }

/-- `ffstorage_pool_destroy`; `none` is the assertion of `ffarman_put`. -/
def ffstoragePoolDestroy (poolid : Nat) (s : Statics) : Option Statics :=
  (ffarmanPut s.indexManager poolid).map fun indexManager =>
    { s with
      heap := s.heap.free (s.mem poolid)
      indexManager := indexManager }

/-- `ffop_finalize`. -/
def ffopFinalize (s : Statics) : Option Statics := s.ffstoragePoolDestroy s.opPool

/-- `ffbuffer_finalize`. -/
def ffbufferFinalize (s : Statics) : Option Statics := s.ffstoragePoolDestroy s.buffPool

/-- `ffstorage_finalize`. -/
def ffstorageFinalize (s : Statics) : Statics := { s with heap := s.heap.free s.tofree }

/-- `fffinalize` after the progress thread has been joined; `ffmpi_finalize` does nothing. -/
def fffinalize (s : Statics) : Option Statics :=
  s.ffopFinalize.bind fun s => s.ffbufferFinalize.map ffstorageFinalize

/-- `ffop_mpi_progresser_init`. -/
def ffopMpiProgresserInit (s : Statics) : Statics :=
  { s with
    heap := s.heap.malloc.2
    mpiTofree := some s.heap.malloc.1 }

/-- `ffop_mpi_progresser_finalize`. -/
def ffopMpiProgresserFinalize (s : Statics) : Statics :=
  { s with heap := s.heap.free s.mpiTofree }

/-- The functions `init` and `finalize` of a progresser are called. -/
def callInit (s : Statics) : Ffprogresser → Statics
  | .mpi => s.ffopMpiProgresserInit

def callFinalize (s : Statics) : Ffprogresser → Statics
  | .mpi => s.ffopMpiProgresserFinalize

/-- The first loop of `progress_thread`. -/
def initProgressers (s : Statics) : Statics := s.progressers.foldl callInit s

/-- The last loop of `progress_thread`. -/
def finalizeProgressers (s : Statics) : Statics := s.progressers.foldl callFinalize s

/-- `ffstorage_pool_get`; an empty free list lets the pool grow. -/
def ffstoragePoolGet (poolid : Nat) (s : Statics) : Option Statics :=
  (Fflib.ffstoragePoolGet poolid s.pools).map fun r =>
    if (s.pools poolid).head = none then
      { s with
        heap := (s.heap.realloc (s.mem poolid)).2
        mem := Function.update s.mem poolid (some (s.heap.realloc (s.mem poolid)).1)
        pools := r.2 }
    else { s with pools := r.2 }

/-- The pools of the library. -/
def handles (s : Statics) : List Nat := [s.buffPool, s.opPool, s.schedulePool]

/-- A pool with all its blocks free, on memory that is allocated. -/
def Fresh (s : Statics) (p : Nat) : Prop :=
  PoolInv p initialCount ⟨s.pools, []⟩ (List.range initialCount) ∧
    ∃ a, s.mem p = some a ∧ s.heap.live a = true

/-- The state of the library after the first `ffinit`: one progresser, three fresh pools,
and no block that was given to `realloc` or `free` after it had been freed. -/
structure Established (s : Statics) : Prop where
  one_progresser : s.progressers = [.mpi]
  distinct : s.handles.Nodup
  fresh : ∀ p ∈ s.handles, s.Fresh p
  not_misused : s.heap.misused = []

/-! ### What the functions do -/

/-- The memory of every pool has been allocated at some time. -/
def Allocated (s : Statics) : Prop := ∀ p a, s.mem p = some a → a < s.heap.next

/-- The three pools have the first three indices. -/
structure Managed (s : Statics) : Prop where
  holds : s.indexManager.Holds maxPools (List.range' 3 125)
  buffPool_eq : s.buffPool = 0
  opPool_eq : s.opPool = 1
  schedulePool_eq : s.schedulePool = 2
  backed : ∃ a, s.mem 0 = some a

/-- What a function of the library does that registers no progresser and leaves the flag
alone. -/
structure Works (s s' : Statics) : Prop where
  later : BlockHeap.Later s.heap s'.heap
  allocated : s.Allocated → s'.Allocated
  progressers_eq : s'.progressers = s.progressers
  ready_eq : s'.ready = s.ready

/-- What happens between `ffinit` and `fffinalize`. -/
structure Uses (s s' : Statics) : Prop extends Works s s' where
  managed : s.Managed → s'.Managed
  terminate_eq : s'.terminate = s.terminate

section Functions

variable {s s' s'' : Statics} {entries : Nat → ArmanEntry} {n i q : Nat} {free : List Nat}

theorem Works.refl (s : Statics) : Works s s := ⟨BlockHeap.Later.refl _, id, rfl, rfl⟩

theorem Works.trans (h : Works s s') (h' : Works s' s'') : Works s s'' where
  later := h.later.trans h'.later
  allocated := h'.allocated ∘ h.allocated
  progressers_eq := h'.progressers_eq.trans h.progressers_eq
  ready_eq := h'.ready_eq.trans h.ready_eq

theorem Uses.refl (s : Statics) : Uses s s := ⟨Works.refl s, id, rfl⟩

theorem Uses.trans (h : Uses s s') (h' : Uses s' s'') : Uses s s'' :=
  ⟨h.toWorks.trans h'.toWorks, h'.managed ∘ h.managed, h'.terminate_eq.trans h.terminate_eq⟩

theorem Uses.foldl {f : Statics → Ffprogresser → Statics} (hf : ∀ s p, Uses s (f s p))
    (l : List Ffprogresser) : ∀ s, Uses s (l.foldl f s) := by
  induction l with
  | nil => exact Uses.refl
  | cons p l ih => exact fun s => (hf s p).trans (ih _)

/-- Allocated memory stays allocated when the heap moves on. -/
theorem Allocated.later (h : s.Allocated) {heap : BlockHeap}
    (hl : BlockHeap.Later s.heap heap) : ∀ p a, s.mem p = some a → a < heap.next :=
  fun p a ha => Nat.lt_of_lt_of_le (h p a ha) hl.next_le

/-- A pool gets new memory. -/
theorem Allocated.realloc (h : s.Allocated) (q : Nat) :
    ∀ p a, Function.update s.mem q (some (s.heap.realloc (s.mem q)).1) p = some a →
      a < (s.heap.realloc (s.mem q)).2.next := by
  intro p a ha
  by_cases hp : p = q
  · subst hp
    rw [Function.update_self] at ha
    obtain rfl := Option.some.inj ha
    exact BlockHeap.realloc_lt _ _
  · rw [Function.update_of_ne hp] at ha
    exact h.later (BlockHeap.Later.realloc _ _) p a ha

theorem ffbind_eq (s : Statics) :
    ∃ progressers, s.ffbind = { s with progressers := progressers } := by
  rw [ffbind, ffprogresserRegister]
  split
  · exact ⟨s.progressers, rfl⟩
  · exact ⟨_, rfl⟩

/-- `ffbind` registers the progresser again, as long as there is a slot. -/
theorem ffbind_progressers (h : s.progressers = List.replicate (min n maxProgressers) .mpi) :
    s.ffbind.progressers = List.replicate (min (n + 1) maxProgressers) .mpi := by
  have hlen : s.progressers.length = min n maxProgressers := by rw [h, List.length_replicate]
  rw [ffbind, ffprogresserRegister]
  split
  · next hfull =>
      rw [h]
      congr 1
      omega
  · next hroom =>
      have hn : min (n + 1) maxProgressers = min n maxProgressers + 1 := by omega
      rw [hn, List.replicate_succ']
      simp only [h]

theorem ffstorageInit_works (s : Statics) : Works s (s.ffstorageInit entries) where
  later := BlockHeap.Later.malloc _
  allocated h := h.later (BlockHeap.Later.malloc _)
  progressers_eq := rfl
  ready_eq := rfl

theorem ffstoragePoolCreate_works (count : Nat) (s : Statics) :
    Works s (s.ffstoragePoolCreate count).2 where
  later := BlockHeap.Later.realloc _ _
  allocated h := h.realloc _
  progressers_eq := rfl
  ready_eq := rfl

theorem ffbufferInit_works (s : Statics) : Works s s.ffbufferInit :=
  { ffstoragePoolCreate_works initialCount s with }

theorem ffopInit_works (s : Statics) : Works s s.ffopInit :=
  { ffstoragePoolCreate_works initialCount s with }

theorem ffscheduleInit_works (s : Statics) : Works s s.ffscheduleInit :=
  { ffstoragePoolCreate_works initialCount s with }

theorem ffmpiInit_works (s : Statics) : Works s s.ffmpiInit where
  later := BlockHeap.Later.malloc _
  allocated h := h.later (BlockHeap.Later.malloc _)
  progressers_eq := rfl
  ready_eq := rfl

/-- The state in which the pools are created. -/
def prepared (entries : Nat → ArmanEntry) (s : Statics) : Statics :=
  s.ffbind.ffstorageInit entries

/-- The pools get the first three indices, one after another. -/
theorem ffinit_indices (entries : Nat → ArmanEntry) (s : Statics) :
    (ffarmanGet (s.prepared entries).indexManager).1 = 0 ∧
      (ffarmanGet (s.prepared entries).ffbufferInit.indexManager).1 = 1 ∧
      (ffarmanGet (s.prepared entries).ffbufferInit.ffopInit.indexManager).1 = 2 ∧
      (s.prepared entries).ffbufferInit.ffopInit.ffscheduleInit.indexManager.Holds maxPools
        (List.range' 3 125) := by
  have hfree : (s.prepared entries).indexManager.Holds maxPools
      (0 :: 1 :: 2 :: List.range' 3 125) := ffarmanCreate_holds (by decide) entries
  have hbuff := ffarmanGet_of_cons hfree
  have hop := ffarmanGet_of_cons hbuff.2
  have hsched := ffarmanGet_of_cons hop.2
  exact ⟨hbuff.1, hop.1, hsched.1, hsched.2⟩

/-- The functions that follow the creation of the first pool. -/
theorem ffinit_works_tail (s : Statics) :
    Works (s.prepared entries).ffbufferInit (s.ffinit entries) := by
  have h := ((ffopInit_works (s.prepared entries).ffbufferInit).trans
    (ffscheduleInit_works _)).trans (ffmpiInit_works _)
  exact { h with }

theorem ffinit_works (entries : Nat → ArmanEntry) (s : Statics) :
    Works s.ffbind (s.ffinit entries) :=
  ((ffstorageInit_works s.ffbind).trans (ffbufferInit_works _)).trans (ffinit_works_tail s)

theorem ffinit_managed (s : Statics) : (s.ffinit entries).Managed := by
  obtain ⟨hbuff, hop, hsched, hholds⟩ := ffinit_indices entries s
  exact ⟨hholds, hbuff, hop, hsched, _, rfl⟩

/-- The memory of the pool of buffers has been freed before: `realloc` gets it again. -/
theorem ffinit_misused {a : Nat} (ha : s.mem 0 = some a) (hf : s.heap.Freed a) :
    (s.ffinit entries).heap.misused ≠ [] := by
  obtain ⟨progressers, hbind⟩ := ffbind_eq s
  have hmem : (s.prepared entries).mem 0 = some a := by simpa [prepared, ffstorageInit, hbind]
  have hfreed : (s.prepared entries).heap.Freed a := by
    simpa [prepared, ffstorageInit, hbind] using (BlockHeap.Later.malloc s.heap).freed hf
  obtain ⟨hid, _⟩ := ffinit_indices entries s
  have hmisused : (s.prepared entries).ffbufferInit.heap.misused ≠ [] := by
    simp only [ffbufferInit, ffstoragePoolCreate, hid, hmem]
    exact BlockHeap.misused_realloc hfreed
  exact (ffinit_works_tail s).later.misused_ne_nil hmisused

/-- A new pool is fresh. -/
theorem fresh_create (s : Statics) :
    (s.ffstoragePoolCreate initialCount).2.Fresh (s.ffstoragePoolCreate initialCount).1 := by
  refine ⟨poolInv_create _ (by decide) (by decide) s.pools,
    (s.heap.realloc (s.mem (ffarmanGet s.indexManager).1)).1, ?_, ?_⟩
  · simp only [ffstoragePoolCreate, Function.update_self]
  · exact BlockHeap.live_malloc_self _

/-- A pool stays fresh when another one is created for the first time. -/
theorem Fresh.create (h : s.Fresh q) (hid : (ffarmanGet s.indexManager).1 = i) (hne : q ≠ i)
    (hmem : s.mem i = none) : (s.ffstoragePoolCreate initialCount).2.Fresh q := by
  obtain ⟨hinv, a, ha, hlive⟩ := h
  refine ⟨hinv.congr ?_, a, ?_, ?_⟩
  · simp only [ffstoragePoolCreate, Fflib.ffstoragePoolCreate, allocPoolInternal, hid,
      Function.update_of_ne hne]
  · simpa only [ffstoragePoolCreate, hid, Function.update_of_ne hne] using ha
  · simp only [ffstoragePoolCreate, hid, hmem]
    exact BlockHeap.live_malloc hlive

/-- A pool stays fresh when a block is allocated. -/
theorem Fresh.malloc (h : s.Fresh q) (hpools : s'.pools = s.pools) (hmem : s'.mem = s.mem)
    (hheap : s'.heap = s.heap.malloc.2) : s'.Fresh q := by
  obtain ⟨hinv, a, ha, hlive⟩ := h
  refine ⟨by rwa [hpools], a, by rwa [hmem], ?_⟩
  rw [hheap]
  exact BlockHeap.live_malloc hlive

/-- What the first `ffinit` leaves behind. -/
theorem ffinit_established : (Statics.start.ffinit entries).Established := by
  obtain ⟨hbuff, hop, hsched, _⟩ := ffinit_indices entries start
  have hfresh₀ : (start.prepared entries).ffbufferInit.Fresh 0 :=
    hbuff ▸ fresh_create (start.prepared entries)
  have hfresh₁ : (start.prepared entries).ffbufferInit.ffopInit.Fresh 1 :=
    hop ▸ fresh_create (start.prepared entries).ffbufferInit
  have hfresh₂ : (start.prepared entries).ffbufferInit.ffopInit.ffscheduleInit.Fresh 2 :=
    hsched ▸ fresh_create (start.prepared entries).ffbufferInit.ffopInit
  have hfresh₀' : (start.prepared entries).ffbufferInit.ffopInit.Fresh 0 :=
    hfresh₀.create hop (by decide) rfl
  have hfresh₀₂ : (start.prepared entries).ffbufferInit.ffopInit.ffscheduleInit.Fresh 0 :=
    hfresh₀'.create hsched (by decide) rfl
  have hfresh₁₂ : (start.prepared entries).ffbufferInit.ffopInit.ffscheduleInit.Fresh 1 :=
    hfresh₁.create hsched (by decide) rfl
  have hhandles : (start.ffinit entries).handles = [0, 1, 2] := rfl
  refine ⟨rfl, by rw [hhandles]; decide, fun p hp => ?_, rfl⟩
  rw [hhandles] at hp
  simp only [List.mem_cons, List.not_mem_nil, or_false] at hp
  rcases hp with rfl | rfl | rfl
  · exact hfresh₀₂.malloc rfl rfl rfl
  · exact hfresh₁₂.malloc rfl rfl rfl
  · exact hfresh₂.malloc rfl rfl rfl

/-- A destroyed pool gives its index back, and the memory is freed. -/
theorem ffstoragePoolDestroy_spec (h : s.indexManager.Holds maxPools free)
    (hlt : free.length < maxPools) (poolid : Nat) :
    ∃ manager, manager.Holds maxPools (poolid :: free) ∧ s.ffstoragePoolDestroy poolid =
      some { s with heap := s.heap.free (s.mem poolid), indexManager := manager } := by
  obtain ⟨manager, hput, hholds⟩ := ffarmanPut_spec h hlt poolid
  refine ⟨manager, hholds, ?_⟩
  rw [ffstoragePoolDestroy, hput, Option.map_some]

/-- `fffinalize` succeeds, and frees the memory of the first pool. -/
theorem fffinalize_spec (h : s.Managed) (ha : s.Allocated) :
    ∃ lib, s.fffinalize = some lib ∧ Works s lib ∧
      ∃ a, lib.mem 0 = some a ∧ lib.heap.Freed a := by
  have hroom : (List.range' 3 125).length < maxPools := by
    rw [List.length_range']
    decide
  obtain ⟨a, hmem⟩ := h.backed
  obtain ⟨manager, hholds, hop⟩ := ffstoragePoolDestroy_spec h.holds hroom s.opPool
  obtain ⟨manager', _, hbuff⟩ := ffstoragePoolDestroy_spec
    (s := { s with heap := s.heap.free (s.mem s.opPool), indexManager := manager }) hholds
    (by simp [maxPools]) s.buffPool
  have hfree := BlockHeap.Later.free (s.mem s.opPool) s.heap
  have hfree' := BlockHeap.Later.free (s.mem s.buffPool) (s.heap.free (s.mem s.opPool))
  have hfree'' := BlockHeap.Later.free s.tofree
    ((s.heap.free (s.mem s.opPool)).free (s.mem s.buffPool))
  have hlater := (hfree.trans hfree').trans hfree''
  refine ⟨{ s with
      heap := ((s.heap.free (s.mem s.opPool)).free (s.mem s.buffPool)).free s.tofree
      indexManager := manager' },
    ?_, ⟨hlater, fun ha => ha.later hlater, rfl, rfl⟩, a, hmem, ?_⟩
  · simp only [fffinalize, ffopFinalize, hop, Option.bind_some, ffbufferFinalize]
    rw [hbuff, Option.map_some]
    rfl
  · refine hfree''.freed ?_
    rw [h.buffPool_eq, hmem]
    exact BlockHeap.freed_free (Nat.lt_of_lt_of_le (ha 0 a hmem) hfree.next_le)

theorem initProgressers_uses (s : Statics) : Uses s s.initProgressers := by
  refine Uses.foldl (fun s p => ?_) s.progressers s
  cases p with
  | mpi =>
      exact ⟨⟨BlockHeap.Later.malloc _, fun h => h.later (BlockHeap.Later.malloc _), rfl, rfl⟩,
        fun h => { h with }, rfl⟩

theorem finalizeProgressers_uses (s : Statics) : Uses s s.finalizeProgressers := by
  refine Uses.foldl (fun s p => ?_) s.progressers s
  cases p with
  | mpi =>
      exact ⟨⟨BlockHeap.Later.free _ _, fun h => h.later (BlockHeap.Later.free _ _), rfl, rfl⟩,
        fun h => { h with }, rfl⟩

/-- A block is taken, and the pool has grown or not. -/
theorem ffstoragePoolGet_uses (hs : s.ffstoragePoolGet q = some s') : Uses s s' := by
  obtain ⟨r, _, rfl⟩ := Option.map_eq_some_iff.mp hs
  split
  · refine ⟨⟨BlockHeap.Later.realloc _ _, fun h => h.realloc q, rfl, rfl⟩, fun h => ?_, rfl⟩
    have hbacked : ∃ a, Function.update s.mem q (some (s.heap.realloc (s.mem q)).1) 0 =
        some a := by
      by_cases hq : q = 0
      · exact ⟨_, by rw [hq, Function.update_self]⟩
      · rw [Function.update_of_ne (Ne.symm hq)]
        exact h.backed
    exact { h with backed := hbacked }
  · exact ⟨{ Works.refl s with }, fun h => { h with }, rfl⟩

/-- A block is put back. -/
theorem ffstoragePoolPut_uses (block : BlockPtr) (s : Statics) :
    Uses s { s with pools := ffstoragePoolPut block s.pools } :=
  ⟨{ Works.refl s with }, fun h => { h with }, rfl⟩

theorem Established.initProgressers (h : s.Established) : s.initProgressers.Established := by
  have hinit : s.initProgressers = s.ffopMpiProgresserInit := by
    rw [Statics.initProgressers, h.one_progresser]
    rfl
  rw [hinit]
  exact ⟨h.one_progresser, h.distinct, fun p hp => (h.fresh p hp).malloc rfl rfl rfl,
    h.not_misused⟩

end Functions

end Statics

/-! ### Runs -/

/-- Where the user thread is: outside, waiting in `ffinit`, between the two calls, or
waiting in `fffinalize`. -/
inductive UserPc where
  | down
  | spinning
  | up
  | joining
deriving DecidableEq

/-- Where the progress thread is: before its first loop, before the write of the flag, in
the loop of `progress_thread`, and after its last loop. -/
inductive ThreadPc where
  | none
  | created
  | initialised
  | running
  | finalised
deriving DecidableEq

/-- The thread has been created and not written the flag. -/
def ThreadPc.early : ThreadPc → Bool
  | .created => true
  | .initialised => true
  | _ => false

/-- The process; `inits` counts the calls of `ffinit`. -/
structure Life where
  lib : Statics
  user : UserPc
  thread : ThreadPc
  inits : Nat

def Life.start : Life := ⟨Statics.start, .down, .none, 0⟩

inductive LifeAct where
  | init
  | spin
  | get (poolid : Nat)
  | put (block : BlockPtr)
  | finalize
  | join
  | threadInit
  | threadReady
  | threadFinalize
deriving DecidableEq

section Step

variable (entries : Nat → ArmanEntry)

/-- `ffinit` is called and returns (`spin`), blocks are taken and put back, `fffinalize` is
called and goes on after the join, or the progress thread takes its next step. -/
def step (s : Life) : LifeAct → Option Life
  | .init =>
      if s.user = .down then some ⟨s.lib.ffinit entries, .spinning, .created, s.inits + 1⟩
      else none
  | .spin =>
      if s.user = .spinning ∧ s.lib.ready = true then some { s with user := .up } else none
  | .get poolid =>
      if s.user = .up ∧ poolid ∈ s.lib.handles then
        (s.lib.ffstoragePoolGet poolid).map fun lib => { s with lib := lib }
      else none
  | .put block =>
      if s.user = .up then
        some { s with lib := { s.lib with pools := ffstoragePoolPut block s.lib.pools } }
      else none
  | .finalize =>
      if s.user = .up then
        some { s with lib := { s.lib with terminate := true }, user := .joining }
      else none
  | .join =>
      if s.user = .joining ∧ s.thread = .finalised then
        s.lib.fffinalize.map fun lib => ⟨lib, .down, .none, s.inits⟩
      else none
  | .threadInit =>
      if s.thread = .created then
        some { s with lib := s.lib.initProgressers, thread := .initialised }
      else none
  | .threadReady =>
      if s.thread = .initialised then
        some { s with lib := { s.lib with ready := true }, thread := .running }
      else none
  | .threadFinalize =>
      if s.thread = .running ∧ s.lib.terminate = true then
        some { s with lib := s.lib.finalizeProgressers, thread := .finalised }
      else none

/-- What a step can do. -/
inductive Move (s : Life) : Life → Prop
  | init (hu : s.user = .down) :
      Move s ⟨s.lib.ffinit entries, .spinning, .created, s.inits + 1⟩
  | spin (hu : s.user = .spinning) (hr : s.lib.ready = true) : Move s { s with user := .up }
  | get {poolid : Nat} {lib : Statics} (hu : s.user = .up)
      (hg : s.lib.ffstoragePoolGet poolid = some lib) : Move s { s with lib := lib }
  | put {block : BlockPtr} (hu : s.user = .up) :
      Move s { s with lib := { s.lib with pools := ffstoragePoolPut block s.lib.pools } }
  | finalize (hu : s.user = .up) :
      Move s { s with lib := { s.lib with terminate := true }, user := .joining }
  | join {lib : Statics} (hu : s.user = .joining) (ht : s.thread = .finalised)
      (hf : s.lib.fffinalize = some lib) : Move s ⟨lib, .down, .none, s.inits⟩
  | threadInit (ht : s.thread = .created) :
      Move s { s with lib := s.lib.initProgressers, thread := .initialised }
  | threadReady (ht : s.thread = .initialised) :
      Move s { s with lib := { s.lib with ready := true }, thread := .running }
  | threadFinalize (ht : s.thread = .running) (hterm : s.lib.terminate = true) :
      Move s { s with lib := s.lib.finalizeProgressers, thread := .finalised }

variable {entries} {s s' : Life} {a : LifeAct}

theorem step_cases (hs : step entries s a = some s') : Move entries s s' := by
  cases a with
  | init =>
      obtain ⟨hu, hs⟩ := Option.ite_none_right_eq_some.mp hs
      obtain rfl := Option.some.inj hs
      exact .init hu
  | spin =>
      obtain ⟨hu, hs⟩ := Option.ite_none_right_eq_some.mp hs
      obtain rfl := Option.some.inj hs
      exact .spin hu.1 hu.2
  | get poolid =>
      obtain ⟨hu, hs⟩ := Option.ite_none_right_eq_some.mp hs
      obtain ⟨lib, hg, rfl⟩ := Option.map_eq_some_iff.mp hs
      exact .get hu.1 hg
  | put block =>
      obtain ⟨hu, hs⟩ := Option.ite_none_right_eq_some.mp hs
      obtain rfl := Option.some.inj hs
      exact .put hu
  | finalize =>
      obtain ⟨hu, hs⟩ := Option.ite_none_right_eq_some.mp hs
      obtain rfl := Option.some.inj hs
      exact .finalize hu
  | join =>
      obtain ⟨hu, hs⟩ := Option.ite_none_right_eq_some.mp hs
      obtain ⟨lib, hf, rfl⟩ := Option.map_eq_some_iff.mp hs
      exact .join hu.1 hu.2 hf
  | threadInit =>
      obtain ⟨ht, hs⟩ := Option.ite_none_right_eq_some.mp hs
      obtain rfl := Option.some.inj hs
      exact .threadInit ht
  | threadReady =>
      obtain ⟨ht, hs⟩ := Option.ite_none_right_eq_some.mp hs
      obtain rfl := Option.some.inj hs
      exact .threadReady ht
  | threadFinalize =>
      obtain ⟨ht, hs⟩ := Option.ite_none_right_eq_some.mp hs
      obtain rfl := Option.some.inj hs
      exact .threadFinalize ht.1 ht.2

/-- Only `ffinit` counts, and it creates a thread. -/
theorem step_inits (hs : step entries s a = some s') :
    s'.inits = s.inits ∨ s'.inits = s.inits + 1 ∧ s'.thread = .created := by
  cases step_cases hs with
  | init hu => exact Or.inr ⟨rfl, rfl⟩
  | spin hu hr => exact Or.inl rfl
  | get hu hg => exact Or.inl rfl
  | put hu => exact Or.inl rfl
  | finalize hu => exact Or.inl rfl
  | join hu ht hf => exact Or.inl rfl
  | threadInit ht => exact Or.inl rfl
  | threadReady ht => exact Or.inl rfl
  | threadFinalize ht hterm => exact Or.inl rfl

theorem inits_le_run {as : List LifeAct} (hr : run (step entries) s as = some s') :
    s.inits ≤ s'.inits := by
  refine run_induction (P := fun x => s.inits ≤ x.inits) (fun x a x' h hs => ?_) as s s'
    (Nat.le_refl _) hr
  rcases step_inits hs with hn | ⟨hn, _⟩ <;> omega

end Step

/-- The flag is not up while the progressers of the thread that was last created are not
initialised. -/
def FlagOk (s : Life) : Prop := s.thread = .created → s.lib.ready = false

/-- The invariant of every run. -/
structure Inv (s : Life) : Prop where
  none_iff : s.thread = .none ↔ s.user = .down
  first : s.inits = 0 → s = Life.start
  registered : s.lib.progressers = List.replicate (min s.inits maxProgressers) .mpi
  -- the flag is never taken down again
  ready_iff : s.lib.ready = true ↔ 2 ≤ s.inits ∨ s.inits = 1 ∧ s.thread.early = false
  terminate_of : s.user = .spinning → s.lib.terminate = false
  allocated : s.lib.Allocated
  managed : s.user ≠ .down → s.lib.Managed
  destroyed : s.user = .down → 1 ≤ s.inits → ∃ a, s.lib.mem 0 = some a ∧ s.lib.heap.Freed a
  misused : 2 ≤ s.inits → s.lib.heap.misused ≠ []
  established : s.inits = 1 → s.user = .spinning → s.lib.Established

theorem inv_start : Inv Life.start where
  none_iff := by decide
  first _ := rfl
  registered := rfl
  ready_iff := by decide
  terminate_of _ := rfl
  allocated p a ha := by cases ha
  managed h := absurd rfl h
  destroyed _ h := absurd h (by decide)
  misused h := absurd h (by decide)
  established h := absurd h (by decide)

namespace Inv

variable {entries : Nat → ArmanEntry} {s s' : Life} {a : LifeAct} {lib : Statics}

theorem pos (h : Inv s) (hu : s.user ≠ .down) : 1 ≤ s.inits := by
  refine Nat.pos_of_ne_zero (fun hn => hu ?_)
  rw [h.first hn]
  rfl

/-- `ffinit` is called. -/
theorem init (h : Inv s) (hu : s.user = .down) :
    Inv ⟨s.lib.ffinit entries, .spinning, .created, s.inits + 1⟩ := by
  have hworks := Statics.ffinit_works entries s.lib
  obtain ⟨progressers, hbind⟩ := Statics.ffbind_eq s.lib
  have hthread : s.thread = .none := h.none_iff.mpr hu
  refine ⟨by simp, by simp, ?_, ?_, fun _ => rfl, ?_, fun _ => Statics.ffinit_managed s.lib,
    by simp, fun hn => ?_, fun hn _ => ?_⟩
  · exact hworks.progressers_eq.trans (Statics.ffbind_progressers h.registered)
  · simp only [hworks.ready_eq, hbind, h.ready_iff, hthread, ThreadPc.early]
    simp only [and_true, reduceCtorEq, and_false, or_false]
    omega
  · refine hworks.allocated ?_
    rw [hbind]
    exact h.allocated
  · obtain ⟨a, ha, hf⟩ := h.destroyed hu (by simpa using hn)
    exact Statics.ffinit_misused ha hf
  · have hstart := h.first (by simpa using hn)
    rw [hstart]
    exact Statics.ffinit_established

/-- Nothing but memory changes while the library is not down. -/
theorem use (h : Inv s) (hlib : Statics.Uses s.lib lib) {t : ThreadPc} (hs : s.thread ≠ .none)
    (ht : t ≠ .none) (hearly : t.early = s.thread.early)
    (hest : s.user = .spinning → s.lib.Established → lib.Established) :
    Inv { s with lib := lib, thread := t } where
  none_iff := iff_of_false ht (fun hu => hs (h.none_iff.mpr hu))
  first hn := absurd (congrArg Life.thread (h.first hn)) hs
  registered := hlib.progressers_eq.trans h.registered
  ready_iff := by
    simp only [hlib.ready_eq, hearly]
    exact h.ready_iff
  terminate_of hu := hlib.terminate_eq.trans (h.terminate_of hu)
  allocated := hlib.allocated h.allocated
  managed hu := hlib.managed (h.managed hu)
  destroyed hu := absurd (h.none_iff.mpr hu) hs
  misused hn := hlib.later.misused_ne_nil (h.misused hn)
  established hn hu := hest hu (h.established hn hu)

/-- The flag is written. -/
theorem threadReady (h : Inv s) (ht : s.thread = .initialised) :
    Inv { s with lib := { s.lib with ready := true }, thread := .running } := by
  have hs : s.thread ≠ .none := by simp [ht]
  have hpos : 1 ≤ s.inits := h.pos (fun hu => hs (h.none_iff.mpr hu))
  have hready : 2 ≤ s.inits ∨ s.inits = 1 := by omega
  exact
    { none_iff := iff_of_false (by simp) (fun hu => hs (h.none_iff.mpr hu))
      first := fun hn => absurd (congrArg Life.thread (h.first hn)) hs
      registered := h.registered
      ready_iff := by simpa [ThreadPc.early] using hready
      terminate_of := h.terminate_of
      allocated := h.allocated
      managed := fun hu => { h.managed hu with }
      destroyed := h.destroyed
      misused := h.misused
      established := fun hn hu => { h.established hn hu with } }

/-- The user thread goes on without a change of the library. -/
theorem go (h : Inv s) {u : UserPc} {b : Bool} (hs : s.user ≠ .down) (hu : u ≠ .down)
    (hspin : u ≠ .spinning) :
    Inv { s with lib := { s.lib with terminate := b }, user := u } where
  none_iff := iff_of_false (fun ht => hs (h.none_iff.mp ht)) hu
  first hn := absurd (congrArg Life.user (h.first hn)) hs
  registered := h.registered
  ready_iff := h.ready_iff
  terminate_of hu := absurd hu hspin
  allocated := h.allocated
  managed _ := { h.managed hs with }
  destroyed hd := absurd hd hu
  misused := h.misused
  established _ hu := absurd hu hspin

/-- `fffinalize` returns. -/
theorem join (h : Inv s) (hu : s.user = .joining) (ht : s.thread = .finalised)
    (hf : s.lib.fffinalize = some lib) : Inv ⟨lib, .down, .none, s.inits⟩ := by
  have hs : s.user ≠ .down := by simp [hu]
  obtain ⟨lib', hf', hworks, hfreed⟩ := Statics.fffinalize_spec (h.managed hs) h.allocated
  obtain rfl : lib' = lib := Option.some.inj (hf'.symm.trans hf)
  exact
    { none_iff := by simp
      first := fun hn => absurd (congrArg Life.user (h.first hn)) hs
      registered := hworks.progressers_eq.trans h.registered
      ready_iff := by simpa only [hworks.ready_eq, ht, ThreadPc.early] using h.ready_iff
      terminate_of := by simp
      allocated := hworks.allocated h.allocated
      managed := by simp
      destroyed := fun _ _ => hfreed
      misused := fun hn => hworks.later.misused_ne_nil (h.misused hn)
      established := by simp }

/-- Step lemma. -/
theorem step (h : Inv s) (hs : step entries s a = some s') : Inv s' := by
  cases step_cases hs with
  | init hu => exact h.init hu
  | spin hu => exact h.go (by simp [hu]) (by simp) (by simp)
  | get hu hg =>
      have hthread : s.thread ≠ .none := fun ht => by simp [h.none_iff.mp ht] at hu
      exact h.use (Statics.ffstoragePoolGet_uses hg) hthread hthread rfl
        (fun hspin => by simp [hspin] at hu)
  | put hu =>
      have hthread : s.thread ≠ .none := fun ht => by simp [h.none_iff.mp ht] at hu
      exact h.use (Statics.ffstoragePoolPut_uses _ _) hthread hthread rfl
        (fun hspin => by simp [hspin] at hu)
  | finalize hu => exact h.go (by simp [hu]) (by simp) (by simp)
  | join hu ht hf => exact h.join hu ht hf
  | threadInit ht =>
      exact h.use (Statics.initProgressers_uses _) (by simp [ht]) (by simp)
        (by simp [ht, ThreadPc.early]) (fun _ hest => hest.initProgressers)
  | threadReady ht => exact h.threadReady ht
  | threadFinalize ht hterm =>
      refine h.use (Statics.finalizeProgressers_uses _) (by simp [ht]) (by simp)
        (by simp [ht, ThreadPc.early]) (fun hspin => ?_)
      simp [h.terminate_of hspin] at hterm

/-- The flag is in order until `ffinit` is called for the second time. -/
theorem flagOk (h : Inv s) (hn : s.inits ≤ 1) : FlagOk s := by
  intro ht
  rw [Bool.eq_false_iff]
  intro hready
  rcases h.ready_iff.mp hready with hn' | ⟨_, hearly⟩
  · omega
  · simp [ht, ThreadPc.early] at hearly

/-- The second `ffinit` finds the flag up. -/
theorem flag_fails (h : Inv s) (hs : Lifecycle.step entries s a = some s') (hn : s.inits ≤ 1) :
    s'.inits ≤ 1 ∨ ¬ FlagOk s' := by
  rcases step_inits hs with hn' | ⟨hn', ht⟩
  · exact Or.inl (by omega)
  · by_cases hfirst : s.inits = 0
    · exact Or.inl (by omega)
    · refine Or.inr (fun hok => ?_)
      have hready := (h.step hs).ready_iff.mpr (Or.inl (by omega))
      exact Bool.false_ne_true ((hok ht).symm.trans hready)

end Inv

section Runs

variable {entries : Nat → ArmanEntry} {s t : Life} {as : List LifeAct}

/-- Run lemma. -/
theorem inv_run (h : Inv s) (hr : run (step entries) s as = some t) : Inv t :=
  run_induction (fun _ _ _ h hs => h.step hs) as s t h hr

/-- Run lemma for the flag: it is in order all the time iff `ffinit` is called once. -/
theorem flagOk_run_iff (h : Inv s) (hn : s.inits ≤ 1) (hr : run (step entries) s as = some t) :
    RunAlways (step entries) FlagOk s as ↔ t.inits ≤ 1 := by
  constructor
  · intro hok
    exact RunAlways.persists (fun _ _ _ h hs => h.step hs)
      (fun _ _ _ h hn hs => h.flag_fails hs hn) as s t h hn hok hr
  · intro ht
    induction as generalizing s with
    | nil => exact h.flagOk hn
    | cons a as ih =>
        obtain ⟨s', hs, hr'⟩ := run_cons_eq_some.mp hr
        refine ⟨h.flagOk hn, fun s'' hs'' => ?_⟩
        obtain rfl := Option.some.inj (hs.symm.trans hs'')
        exact ih (h.step hs) (Nat.le_trans (inits_le_run hr') ht) hr'

/-- `ffinit`, and what the progress thread does before it returns. -/
def initActs : List LifeAct := [.init, .threadInit, .threadReady]

theorem exists_init_run (entries : Nat → ArmanEntry) (hu : s.user = .down) :
    ∃ t, run (step entries) s (initActs ++ [.spin]) = some t ∧ t.user = .up ∧
      t.thread = .running ∧ t.inits = s.inits + 1 := by
  simp [initActs, run, step, hu]

/-- A cycle of `ffinit` and `fffinalize`. -/
def cycleActs : List LifeAct :=
  (initActs ++ [.spin]) ++ ([.finalize, .threadFinalize] ++ [.join])

theorem exists_cycle_run (entries : Nat → ArmanEntry) (h : Inv s) (hu : s.user = .down) :
    ∃ t, run (step entries) s cycleActs = some t ∧ t.user = .down ∧
      t.inits = s.inits + 1 := by
  obtain ⟨x, hx, hxu, hxt, hxn⟩ := exists_init_run entries hu
  obtain ⟨y, hy, hyu, hyt, hyn⟩ : ∃ y, run (step entries) x [.finalize, .threadFinalize] =
      some y ∧ y.user = .joining ∧ y.thread = .finalised ∧ y.inits = x.inits := by
    simp [run, step, hxu, hxt]
  have hinv := inv_run (inv_run h hx) hy
  obtain ⟨lib, hlib, _⟩ :=
    Statics.fffinalize_spec (hinv.managed (by simp [hyu])) hinv.allocated
  have hjoin : step entries y .join = some ⟨lib, .down, .none, y.inits⟩ := by
    simp [step, hyu, hyt, hlib]
  have hrun := run_append_eq_some.mpr ⟨x, hx, run_snoc_eq_some.mpr ⟨y, hy, hjoin⟩⟩
  exact ⟨_, hrun, rfl, hyn.trans hxn⟩

/-- Any number of cycles is possible. -/
theorem exists_cycles_run (entries : Nat → ArmanEntry) (n : Nat) :
    ∃ as t, run (step entries) Life.start as = some t ∧ t.user = .down ∧ t.inits = n := by
  induction n with
  | zero => exact ⟨[], Life.start, rfl, rfl, rfl⟩
  | succ n ih =>
      obtain ⟨as, x, hx, hu, hn⟩ := ih
      obtain ⟨t, ht, htu, htn⟩ := exists_cycle_run entries (inv_run inv_start hx) hu
      exact ⟨as ++ cycleActs, t, run_append_eq_some.mpr ⟨x, hx, ht⟩, htu, by rw [htn, hn]⟩

end Runs

/-- The `ffinit` that returns at the end of the run leaves the library as the first one
should, and the flag has been in order all the time. -/
def InitOk (entries : Nat → ArmanEntry) (as : List LifeAct) (t : Life) : Prop :=
  t.lib.Established ∧ RunAlways (step entries) FlagOk Life.start as

section Main

variable {entries : Nat → ArmanEntry} {t : Life} {as : List LifeAct} {n : Nat}

theorem initOk_iff (hr : run (step entries) Life.start (as ++ [.spin]) = some t)
    (hn : t.inits = n + 1) : InitOk entries (as ++ [.spin]) t ↔ n = 0 := by
  have hflag := flagOk_run_iff inv_start (Nat.zero_le _) hr
  constructor
  · rintro ⟨_, hok⟩
    have := hflag.mp hok
    omega
  · rintro rfl
    refine ⟨?_, hflag.mpr (Nat.le_of_eq hn)⟩
    obtain ⟨x, hx, hspin⟩ := run_snoc_eq_some.mp hr
    obtain ⟨⟨hu, _⟩, hs⟩ := Option.ite_none_right_eq_some.mp hspin
    obtain rfl := Option.some.inj hs
    exact (inv_run inv_start hx).established hn hu

/-- What is wrong after another call of `ffinit`. -/
theorem reinit_wrong (hr : run (step entries) Life.start as = some t) (hn : 2 ≤ t.inits) :
    t.lib.progressers ≠ [.mpi] ∧ t.lib.heap.misused ≠ [] ∧
      ¬ RunAlways (step entries) FlagOk Life.start as := by
  have hinv := inv_run inv_start hr
  refine ⟨fun hone => ?_, hinv.misused hn, fun hok => ?_⟩
  · have hlen := congrArg List.length (hinv.registered.symm.trans hone)
    rw [List.length_replicate, List.length_singleton, maxProgressers] at hlen
    omega
  · have := (flagOk_run_iff inv_start (Nat.zero_le _) hr).mp hok
    omega

end Main

/-- **Re-initialisation.**  For every number `n` of complete cycles there is a run in which
the next `ffinit` returns, and in every such run it leaves the library as the first one
should iff there was no cycle before.  After a cycle there is more than one progresser, a
block has been used after it was freed, and the flag was up too early. -/
theorem reinit_never (entries : Nat → ArmanEntry) (n : Nat) :
    (∃ as t, run (step entries) Life.start (as ++ [.spin]) = some t ∧ t.inits = n + 1) ∧
      ∀ as t, run (step entries) Life.start (as ++ [.spin]) = some t → t.inits = n + 1 →
        (InitOk entries (as ++ [.spin]) t ↔ n = 0) ∧
          (1 ≤ n → t.lib.progressers ≠ [.mpi] ∧ t.lib.heap.misused ≠ [] ∧
            ¬ RunAlways (step entries) FlagOk Life.start (as ++ [.spin])) := by
  refine ⟨?_, fun as t hr hn => ⟨initOk_iff hr hn, fun hpos => reinit_wrong hr (by omega)⟩⟩
  obtain ⟨as, x, hx, hu, hn⟩ := exists_cycles_run entries n
  obtain ⟨t, ht, _, _, htn⟩ := exists_init_run entries hu
  refine ⟨as ++ initActs, t, ?_, by rw [htn, hn]⟩
  rw [List.append_assoc]
  exact run_append_eq_some.mpr ⟨x, hx, ht⟩

theorem reinit_never_second : ∃ as t,
    run (step fun _ => ⟨0, none⟩) Life.start (as ++ [.spin]) = some t ∧ t.inits = 2 ∧
      ¬ InitOk (fun _ => ⟨0, none⟩) (as ++ [.spin]) t := by
  obtain ⟨⟨as, t, hr, hn⟩, hall⟩ := reinit_never (fun _ => ⟨0, none⟩) 1
  exact ⟨as, t, hr, hn, fun hok => absurd ((hall as t hr hn).1.mp hok) (by decide)⟩

/-- One cycle is enough. -/
theorem reinit_fails :
    ¬ ∀ (entries : Nat → ArmanEntry) (n : Nat), 1 ≤ n → ∀ as t,
      run (step entries) Life.start (as ++ [.spin]) = some t → t.inits = n + 1 →
      InitOk entries (as ++ [.spin]) t := by
  intro hall
  obtain ⟨x, hx, hu, hn⟩ := exists_cycle_run (fun _ => ⟨0, none⟩) inv_start rfl
  obtain ⟨t, ht, _, _, htn⟩ := exists_init_run (fun _ => ⟨0, none⟩) hu
  have hr := run_append_eq_some.mpr ⟨x, hx, ht⟩
  rw [← List.append_assoc] at hr
  have hinits : t.inits = 1 + 1 := by rw [htn, hn]; rfl
  have hok := hall _ 1 (Nat.le_refl 1) _ t hr hinits
  exact absurd ((initOk_iff hr hinits).mp hok) (by decide)

end Lifecycle
end Fflib
