import Fflib.Buffer
import Fflib.Library.BlockHeap
import Fflib.Library.Machine

/-!
# Who owns the memory of a buffer

A buffer of type `FFBUFFER_PTR` that is created, resized and deleted in any order
(`ownStep`), over a heap that watches which pointers reach `free` and `realloc`.

**Memory.**  A pointer leads to a block that the library has allocated, or to memory of the
user.  `realloc` frees the old block and allocates a new one, also where the C library
leaves the block in its place; whether it grants the request is part of the call.

`ownership_iff`: the flag `selfalloc` tells who owns the memory, and only memory of the library
is given back, iff the memory of a buffer never changes hands and no request is refused.
-/

namespace Fflib

open Library

/-- `void *`: null, a block of the library, or memory of the user. -/
inductive Ptr where
  | null
  | lib (n : Nat)
  | user (k : Nat)
deriving DecidableEq

/-- The address argument of a call; `none` is `NULL`. -/
def Ptr.ofUser : Option Nat → Ptr
  | none => .null
  | some k => .user k

/-- The blocks of the library, the memory of the user that was passed to `free` or
`realloc`, the answer of `realloc` to the next request, and the values of variables that were
never written. -/
structure OwnHeap where
  blocks : BlockHeap
  foreign : List Nat
  granted : Bool
  junk : Nat → Nat

namespace OwnHeap

def empty (junk : Nat → Nat) : OwnHeap := ⟨BlockHeap.empty, [], true, junk⟩

def free (p : Ptr) (h : OwnHeap) : OwnHeap :=
  match p with
  | .null => h
  | .lib n => { h with blocks := h.blocks.free (some n) }
  | .user k => { h with foreign := k :: h.foreign }

def malloc (h : OwnHeap) : Ptr × OwnHeap :=
  (.lib h.blocks.malloc.1, { h with blocks := h.blocks.malloc.2 })

def realloc (p : Ptr) (h : OwnHeap) : Option (Ptr × OwnHeap) :=
  if h.granted then some (h.free p).malloc else none

/-- `realloc` will grant or refuse the next request. -/
def answer (h : OwnHeap) (granted : Bool) : OwnHeap := { h with granted := granted }

end OwnHeap

def ownAllocator : Allocator OwnHeap Ptr where
  null := .null
  realloc p _ h := h.realloc p
  free := OwnHeap.free
  read32 _ _ := 0
  writeIdx _ p := p
  junk h := (h.junk 0, { h with junk := fun k => h.junk (k + 1) })

/-- `ffbuffer_delete`, without the put of the block. -/
def ffbufferDelete {μ π : Type} (A : Allocator μ π) (b : BufferBlock π) (m : μ) : μ :=
  if b.selfalloc then A.free b.ptr m else m

/-! ### Runs -/

/-- The buffer, if there is one, and the heap. -/
structure OwnState where
  buff : Option (BufferBlock Ptr)
  heap : OwnHeap

inductive BufferCall where
  | create (addr : Option Nat) (count : Nat) (datatype : Int) (options : Nat) (granted : Bool)
  | resize (addr : Option Nat) (count : Nat) (datatype : Int) (granted : Bool)
  | delete

/-- The same call, with an answer of `realloc`. -/
def BufferCall.answer (granted : Bool) : BufferCall → BufferCall
  | .create addr count datatype options _ => .create addr count datatype options granted
  | .resize addr count datatype _ => .resize addr count datatype granted
  | .delete => .delete

/-- One call; a buffer whose creation fails does not exist. -/
def ownStep (s : OwnState) : BufferCall → Option OwnState
  | .create addr count datatype options granted =>
      if s.buff.isNone ∧ ¬ options &&& ffbufferIdx = ffbufferIdx then
        (ffbufferSetup ownAllocator (Ptr.ofUser addr) count datatype options
          (s.heap.answer granted)).map fun r =>
            ⟨if r.1 = ffSuccess then some r.2.1 else none, r.2.2⟩
      else none
  | .resize addr count datatype granted =>
      s.buff.bind fun b =>
        (ffbufferResize ownAllocator (Ptr.ofUser addr) count datatype b
          (s.heap.answer granted)).map fun r => ⟨some r.2.1, r.2.2⟩
  | .delete => s.buff.map fun b => ⟨none, ffbufferDelete ownAllocator b s.heap⟩

/-- The flag tells who owns the memory, and without a buffer no block is left. -/
structure OwnState.Owned (s : OwnState) : Prop where
  selfalloc_iff : ∀ b, s.buff = some b →
    (b.selfalloc = true ↔ ∃ n, b.ptr = .lib n ∧ s.heap.blocks.live n = true)
  released : s.buff = none → ∀ n, s.heap.blocks.live n = false

/-- Whatever `realloc` answers, the call passes only live blocks of the library to `free` and
`realloc`. -/
def PassesOwn (s : OwnState) (c : BufferCall) : Prop :=
  ∀ granted s', ownStep s (c.answer granted) = some s' →
    s'.heap.foreign = [] ∧ s'.heap.blocks.misused = []

/-- Ownership is respected by a call, and recorded in the state it leaves. -/
def OwnershipLaw (s : OwnState) (c : BufferCall) : Prop :=
  PassesOwn s c ∧ ∀ s', ownStep s c = some s' → s'.Owned

/-- The memory of a buffer does not change hands: a buffer with memory of the library gets no
address and no refusal, one with memory of the user does not grow without an address. -/
def KeepsHands (s : OwnState) : BufferCall → Prop
  | .resize addr count datatype granted => ∀ b, s.buff = some b →
      (addr.isSome = true → b.selfalloc = false) ∧
      (addr = none → ownAllocator.NeedsMemory count datatype b s.heap →
        b.selfalloc = true ∧ granted = true)
  | _ => True

/-! ### The heap -/

/-- The block `o` is the one that is live, and nothing has been misused. -/
structure HeapOk (h : OwnHeap) (o : Option Nat) : Prop where
  live_iff : ∀ n, h.blocks.live n = true ↔ o = some n
  lt_next : ∀ n, o = some n → n < h.blocks.next
  misused : h.blocks.misused = []
  foreign : h.foreign = []

namespace HeapOk

variable {h : OwnHeap} {o : Option Nat} {n : Nat}

theorem congr {h' : OwnHeap} (hok : HeapOk h o) (hb : h'.blocks = h.blocks)
    (hf : h'.foreign = h.foreign) : HeapOk h' o where
  live_iff := hb ▸ hok.live_iff
  lt_next := hb ▸ hok.lt_next
  misused := hb ▸ hok.misused
  foreign := hf ▸ hok.foreign

theorem answer (hok : HeapOk h o) (granted : Bool) : HeapOk (h.answer granted) o :=
  hok.congr rfl rfl

theorem unitsize (hok : HeapOk h o) (datatype : Int) :
    HeapOk (ownAllocator.unitsize datatype h).2 o := by
  unfold Allocator.unitsize
  split
  · exact hok
  · exact hok.congr rfl rfl

theorem afterSizes (hok : HeapOk h o) (datatype : Int) (b : BufferBlock Ptr) :
    HeapOk (ownAllocator.afterSizes datatype b h) o :=
  (hok.unitsize datatype).unitsize b.datatype

/-- The block is given back. -/
theorem free (hok : HeapOk h (some n)) : HeapOk (h.free (.lib n)) none := by
  have hlive : h.blocks.live n = true := (hok.live_iff n).mpr rfl
  have hblocks : (h.free (.lib n)).blocks =
      ⟨h.blocks.next, Function.update h.blocks.live n false, h.blocks.misused⟩ :=
    if_pos hlive
  constructor
  · intro k
    rw [hblocks]
    by_cases hk : k = n
    · simp [hk]
    · have hno : h.blocks.live k ≠ true :=
        fun hk' => hk (Option.some.inj ((hok.live_iff k).mp hk')).symm
      simp [hk, hno]
  · exact fun k hk => nomatch hk
  · rw [hblocks]
    exact hok.misused
  · exact hok.foreign

/-- A block is allocated where there was none. -/
theorem malloc (hok : HeapOk h none) :
    h.malloc.1 = .lib h.blocks.next ∧ HeapOk h.malloc.2 (some h.blocks.next) := by
  refine ⟨rfl, ?_⟩
  constructor
  · intro k
    have hno : h.blocks.live k ≠ true := fun hk => nomatch (hok.live_iff k).mp hk
    by_cases hk : k = h.blocks.next
    · simp [OwnHeap.malloc, BlockHeap.malloc, hk]
    · have hk' : h.blocks.next ≠ k := fun heq => hk heq.symm
      simp [OwnHeap.malloc, BlockHeap.malloc, hk, hno, hk']
  · intro k hk
    obtain rfl := Option.some.inj hk
    exact BlockHeap.malloc_lt _
  · exact hok.misused
  · exact hok.foreign

end HeapOk

/-! ### One resize -/

section Resize

variable {h : OwnHeap} {b : BufferBlock Ptr} {count : Nat} {datatype : Int} {granted : Bool}

theorem unitsize_answer (datatype : Int) (h : OwnHeap) (granted : Bool) :
    ownAllocator.unitsize datatype (h.answer granted) =
      ((ownAllocator.unitsize datatype h).1,
        (ownAllocator.unitsize datatype h).2.answer granted) := by
  unfold Allocator.unitsize
  split
  · rfl
  · rfl

theorem afterSizes_answer :
    ownAllocator.afterSizes datatype b (h.answer granted) =
      (ownAllocator.afterSizes datatype b h).answer granted := by
  simp only [Allocator.afterSizes, unitsize_answer]

theorem needsMemory_answer :
    ownAllocator.NeedsMemory count datatype b (h.answer granted) ↔
      ownAllocator.NeedsMemory count datatype b h := by
  simp only [Allocator.NeedsMemory, unitsize_answer]

/-- The heap in which a resize calls `free` or `realloc`. -/
def heapOf (datatype : Int) (b : BufferBlock Ptr) (granted : Bool) (h : OwnHeap) : OwnHeap :=
  (ownAllocator.afterSizes datatype b h).answer granted

theorem HeapOk.heapOf {o : Option Nat} (hok : HeapOk h o) (datatype : Int) (b : BufferBlock Ptr)
    (granted : Bool) : HeapOk (heapOf datatype b granted h) o :=
  (hok.afterSizes datatype b).answer granted

theorem resize_user (k : Nat) :
    ffbufferResize ownAllocator (.user k) count datatype b (h.answer granted) =
      some (ffSuccess, { b with ptr := .user k, count := count, datatype := datatype },
        if b.selfalloc then (heapOf datatype b granted h).free b.ptr
        else heapOf datatype b granted h) := by
  have hne : Ptr.user k ≠ ownAllocator.null := fun heq => nomatch heq
  rw [ffbufferResize_user hne, afterSizes_answer]
  rfl

theorem resize_fits (hfits : ¬ ownAllocator.NeedsMemory count datatype b h) :
    ffbufferResize ownAllocator .null count datatype b (h.answer granted) =
      some (ffSuccess, { b with count := count, datatype := datatype },
        heapOf datatype b granted h) := by
  have hno : ¬ ownAllocator.NeedsMemory count datatype b (h.answer granted) :=
    fun hneeds => hfits (needsMemory_answer.mp hneeds)
  rw [show Ptr.null = ownAllocator.null from rfl, ffbufferResize_fits hno, afterSizes_answer]
  rfl

theorem resize_granted (hneeds : ownAllocator.NeedsMemory count datatype b h) :
    ffbufferResize ownAllocator .null count datatype b (h.answer true) =
      some (ffSuccess,
        { b with
          ptr := ((heapOf datatype b true h).free b.ptr).malloc.1
          count := count
          datatype := datatype },
        ((heapOf datatype b true h).free b.ptr).malloc.2) := by
  rw [show Ptr.null = ownAllocator.null from rfl,
    ffbufferResize_granted (needsMemory_answer.mpr hneeds)]
  rw [afterSizes_answer]
  rfl

theorem resize_refused (hneeds : ownAllocator.NeedsMemory count datatype b h) :
    ffbufferResize ownAllocator .null count datatype b (h.answer false) =
      some (ffEnomem, { b with ptr := .null }, heapOf datatype b false h) := by
  rw [show Ptr.null = ownAllocator.null from rfl,
    ffbufferResize_refused (needsMemory_answer.mpr hneeds)]
  · rw [afterSizes_answer]
    rfl
  · rw [afterSizes_answer]
    rfl

end Resize

/-! ### Ownership in every state -/

/-- Ownership as the flag says: no buffer and no block, a buffer and its block, or a buffer
with memory of the user. -/
inductive OwnInv : OwnState → Prop
  | absent {h : OwnHeap} (hok : HeapOk h none) : OwnInv ⟨none, h⟩
  | own {b : BufferBlock Ptr} {h : OwnHeap} {n : Nat} (hself : b.selfalloc = true)
      (hptr : b.ptr = .lib n) (hok : HeapOk h (some n)) : OwnInv ⟨some b, h⟩
  | user {b : BufferBlock Ptr} {h : OwnHeap} {k : Nat} (hself : b.selfalloc = false)
      (hptr : b.ptr = .user k) (hok : HeapOk h none) : OwnInv ⟨some b, h⟩

theorem ownInv_empty (junk : Nat → Nat) : OwnInv ⟨none, OwnHeap.empty junk⟩ := by
  refine .absent ?_
  constructor
  · exact fun n => iff_of_false (fun h => nomatch h) (fun h => nomatch h)
  · exact fun n h => nomatch h
  · rfl
  · rfl

namespace OwnInv

variable {s s' : OwnState}

theorem owned (h : OwnInv s) : s.Owned := by
  cases h with
  | absent hok =>
      refine ⟨fun b hb => (nomatch hb), fun _ n => ?_⟩
      exact Bool.eq_false_iff.mpr (fun hn => nomatch (hok.live_iff n).mp hn)
  | own hself hptr hok =>
      refine ⟨fun b hb => ?_, fun hb => nomatch hb⟩
      obtain rfl := Option.some.inj hb
      exact iff_of_true hself ⟨_, hptr, (hok.live_iff _).mpr rfl⟩
  | user hself hptr hok =>
      refine ⟨fun b hb => ?_, fun hb => nomatch hb⟩
      obtain rfl := Option.some.inj hb
      refine iff_of_false (Bool.eq_false_iff.mp hself) ?_
      rintro ⟨n, hn, _⟩
      rw [hptr] at hn
      cases hn

theorem clean (h : OwnInv s) : s.heap.foreign = [] ∧ s.heap.blocks.misused = [] := by
  cases h with
  | absent hok => exact ⟨hok.foreign, hok.misused⟩
  | own hself hptr hok => exact ⟨hok.foreign, hok.misused⟩
  | user hself hptr hok => exact ⟨hok.foreign, hok.misused⟩

variable {b : BufferBlock Ptr} {heap : OwnHeap} {count : Nat} {datatype : Int}

/-- A buffer is created with memory of the one who pays for it, or not at all. -/
theorem create (h : OwnInv s) {addr : Option Nat} {options : Nat} {granted : Bool}
    (hs : ownStep s (.create addr count datatype options granted) = some s') : OwnInv s' := by
  simp only [ownStep] at hs
  split at hs
  · next hc =>
      obtain ⟨r, hr, rfl⟩ := Option.map_eq_some_iff.mp hs
      rw [ffbufferSetup_eq hc.2] at hr
      cases h with
      | absent hok =>
          cases addr with
          | some k =>
              rw [Ptr.ofUser, resize_user] at hr
              obtain rfl := Option.some.inj hr
              exact .user rfl rfl (hok.heapOf _ _ _)
          | none =>
              cases granted with
              | true =>
                  rw [Ptr.ofUser, resize_granted (Or.inl rfl)] at hr
                  obtain rfl := Option.some.inj hr
                  exact .own rfl rfl (hok.heapOf datatype _ true).malloc.2
              | false =>
                  rw [Ptr.ofUser, resize_refused (Or.inl rfl)] at hr
                  obtain rfl := Option.some.inj hr
                  exact .absent (hok.heapOf _ _ _)
      | own hself hptr hok => cases hc.1
      | user hself hptr hok => cases hc.1
  · cases hs

theorem delete (h : OwnInv s) (hs : ownStep s .delete = some s') : OwnInv s' := by
  cases h with
  | absent hok => cases hs
  | own hself hptr hok =>
      obtain rfl := Option.some.inj hs
      refine .absent ?_
      rw [ffbufferDelete, if_pos hself, hptr]
      exact hok.free
  | user hself hptr hok =>
      obtain rfl := Option.some.inj hs
      refine .absent ?_
      rw [ffbufferDelete, if_neg (Bool.eq_false_iff.mp hself)]
      exact hok

/-- A resize of a buffer with memory of the library: its memory stays, or is replaced. -/
theorem resize_own {n : Nat} (hself : b.selfalloc = true) (hptr : b.ptr = .lib n)
    (hok : HeapOk heap (some n)) (addr : Option Nat) (count : Nat) (datatype : Int)
    (granted : Bool) :
    ∃ s', ownStep ⟨some b, heap⟩ (.resize addr count datatype granted) = some s' ∧
      (s'.heap.foreign = [] ∧ s'.heap.blocks.misused = []) ∧
      (s'.Owned → addr = none ∧
        (ownAllocator.NeedsMemory count datatype b heap → granted = true)) ∧
      (addr = none → (ownAllocator.NeedsMemory count datatype b heap → granted = true) →
        OwnInv s') := by
  have hheap := hok.heapOf datatype b granted
  cases addr with
  | some k =>
      have hfree := hheap.free
      refine ⟨_, congrArg (Option.map _) (resize_user k), ?_, fun howned => ?_,
        fun hnone => nomatch hnone⟩
      · simp only [if_pos hself, hptr]
        exact ⟨hfree.foreign, hfree.misused⟩
      · -- the flag stays set
        obtain ⟨_, hn, _⟩ := (howned.selfalloc_iff _ rfl).mp hself
        cases hn
  | none =>
      by_cases hneeds : ownAllocator.NeedsMemory count datatype b heap
      · cases granted with
        | true =>
            have hmalloc := hheap.free.malloc
            rw [← hptr] at hmalloc
            refine ⟨_, congrArg (Option.map _) (resize_granted hneeds),
              ⟨hmalloc.2.foreign, hmalloc.2.misused⟩, fun _ => ⟨rfl, fun _ => rfl⟩,
              fun _ _ => ?_⟩
            exact .own hself hmalloc.1 hmalloc.2
        | false =>
            refine ⟨_, congrArg (Option.map _) (resize_refused hneeds),
              ⟨hheap.foreign, hheap.misused⟩, fun howned => ?_, fun _ hgranted => ?_⟩
            · -- the block is lost, and the flag stays set
              obtain ⟨_, hn, _⟩ := (howned.selfalloc_iff _ rfl).mp hself
              cases hn
            · cases hgranted hneeds
      · refine ⟨_, congrArg (Option.map _) (resize_fits hneeds),
          ⟨hheap.foreign, hheap.misused⟩, fun _ => ⟨rfl, fun h => absurd h hneeds⟩,
          fun _ _ => ?_⟩
        exact .own hself hptr hheap

/-- A resize of a buffer with memory of the user: the memory stays, or is passed to
`realloc`. -/
theorem resize_foreign {k : Nat} (hself : b.selfalloc = false) (hptr : b.ptr = .user k)
    (hok : HeapOk heap none) (addr : Option Nat) (count : Nat) (datatype : Int)
    (granted : Bool) :
    ∃ s', ownStep ⟨some b, heap⟩ (.resize addr count datatype granted) = some s' ∧
      (addr = none → ownAllocator.NeedsMemory count datatype b heap → granted = true →
        s'.heap.foreign ≠ []) ∧
      (¬ (addr = none ∧ ownAllocator.NeedsMemory count datatype b heap) → OwnInv s') := by
  have hheap := hok.heapOf datatype b granted
  cases addr with
  | some k' =>
      refine ⟨_, congrArg (Option.map _) (resize_user k'), fun hnone => (nomatch hnone),
        fun _ => ?_⟩
      simp only [if_neg (Bool.eq_false_iff.mp hself)]
      exact .user hself rfl hheap
  | none =>
      by_cases hneeds : ownAllocator.NeedsMemory count datatype b heap
      · cases granted with
        | true =>
            refine ⟨_, congrArg (Option.map _) (resize_granted hneeds), fun _ _ _ => ?_,
              fun hno => absurd ⟨rfl, hneeds⟩ hno⟩
            simp only [hptr, OwnHeap.free, OwnHeap.malloc]
            exact List.cons_ne_nil _ _
        | false =>
            exact ⟨_, congrArg (Option.map _) (resize_refused hneeds),
              fun _ _ hgranted => (nomatch hgranted), fun hno => absurd ⟨rfl, hneeds⟩ hno⟩
      · refine ⟨_, congrArg (Option.map _) (resize_fits hneeds),
          fun _ hno => absurd hno hneeds, fun _ => ?_⟩
        exact .user hself hptr hheap

theorem keepsHands_own (hself : b.selfalloc = true) {addr : Option Nat} {granted : Bool} :
    KeepsHands ⟨some b, heap⟩ (.resize addr count datatype granted) ↔
      addr = none ∧ (ownAllocator.NeedsMemory count datatype b heap → granted = true) := by
  constructor
  · intro hk
    obtain ⟨huser, hgranted⟩ := hk b rfl
    have haddr : addr = none := by
      cases addr with
      | none => rfl
      | some k => exact absurd (huser rfl) (by simp [hself])
    exact ⟨haddr, fun hneeds => (hgranted haddr hneeds).2⟩
  · rintro ⟨rfl, hgranted⟩ b' hb
    obtain rfl := Option.some.inj hb
    exact ⟨fun hsome => (nomatch hsome), fun _ hneeds => ⟨hself, hgranted hneeds⟩⟩

theorem keepsHands_foreign (hself : b.selfalloc = false) {addr : Option Nat} {granted : Bool} :
    KeepsHands ⟨some b, heap⟩ (.resize addr count datatype granted) ↔
      ¬ (addr = none ∧ ownAllocator.NeedsMemory count datatype b heap) := by
  constructor
  · rintro hk ⟨hnone, hneeds⟩
    have hown := ((hk b rfl).2 hnone hneeds).1
    rw [hself] at hown
    cases hown
  · intro hno b' hb
    obtain rfl := Option.some.inj hb
    exact ⟨fun _ => hself, fun hnone hneeds => absurd ⟨hnone, hneeds⟩ hno⟩

/-- A resize respects ownership iff the memory does not change hands. -/
theorem resize_iff (h : OwnInv ⟨some b, heap⟩) (addr : Option Nat) (granted : Bool) :
    (OwnershipLaw ⟨some b, heap⟩ (.resize addr count datatype granted) ↔
      KeepsHands ⟨some b, heap⟩ (.resize addr count datatype granted)) ∧
    (KeepsHands ⟨some b, heap⟩ (.resize addr count datatype granted) →
      ∀ s', ownStep ⟨some b, heap⟩ (.resize addr count datatype granted) = some s' →
        OwnInv s') := by
  cases h with
  | own hself hptr hok =>
      have hcall := resize_own hself hptr hok addr count datatype
      have hkeep : KeepsHands ⟨some b, heap⟩ (.resize addr count datatype granted) ↔
          addr = none ∧ (ownAllocator.NeedsMemory count datatype b heap → granted = true) :=
        keepsHands_own hself
      have hinv : KeepsHands ⟨some b, heap⟩ (.resize addr count datatype granted) →
          ∀ s', ownStep ⟨some b, heap⟩ (.resize addr count datatype granted) = some s' →
            OwnInv s' := by
        intro hk s' hs'
        obtain ⟨s'', hs, _, _, hown⟩ := hcall granted
        obtain rfl := Option.some.inj (hs.symm.trans hs')
        exact hown (hkeep.mp hk).1 (hkeep.mp hk).2
      refine ⟨⟨fun hlaw => ?_, fun hk => ⟨fun granted' s' hs' => ?_, fun s' hs' => ?_⟩⟩, hinv⟩
      · obtain ⟨s', hs, _, hcond, _⟩ := hcall granted
        exact hkeep.mpr (hcond (hlaw.2 s' hs))
      · obtain ⟨s'', hs, hclean, _⟩ := hcall granted'
        obtain rfl := Option.some.inj (hs.symm.trans hs')
        exact hclean
      · exact (hinv hk s' hs').owned
  | user hself hptr hok =>
      have hcall := resize_foreign hself hptr hok addr count datatype
      have hkeep : KeepsHands ⟨some b, heap⟩ (.resize addr count datatype granted) ↔
          ¬ (addr = none ∧ ownAllocator.NeedsMemory count datatype b heap) :=
        keepsHands_foreign hself
      have hinv : KeepsHands ⟨some b, heap⟩ (.resize addr count datatype granted) →
          ∀ granted' s', ownStep ⟨some b, heap⟩ (.resize addr count datatype granted') = some s' →
            OwnInv s' := by
        intro hk granted' s' hs'
        obtain ⟨s'', hs, _, hown⟩ := hcall granted'
        obtain rfl := Option.some.inj (hs.symm.trans hs')
        exact hown (hkeep.mp hk)
      refine ⟨⟨fun hlaw => hkeep.mpr ?_, fun hk => ⟨fun granted' s' hs' => ?_, fun s' hs' => ?_⟩⟩,
        fun hk => hinv hk granted⟩
      · rintro ⟨hnone, hneeds⟩
        obtain ⟨s', hs, hforeign, _⟩ := hcall true
        exact hforeign hnone hneeds rfl (hlaw.1 true s' hs).1
      · exact (hinv hk granted' s' hs').clean
      · exact (hinv hk granted s' hs').owned

/-- One call respects ownership iff the memory does not change hands. -/
theorem law_iff (h : OwnInv s) (c : BufferCall) : OwnershipLaw s c ↔ KeepsHands s c := by
  cases c with
  | create addr count datatype options granted =>
      exact iff_of_true ⟨fun _ s' hs => (h.create hs).clean, fun s' hs => (h.create hs).owned⟩
        trivial
  | resize addr count datatype granted =>
      obtain ⟨buff, heap⟩ := s
      cases buff with
      | none =>
          refine iff_of_true ⟨fun _ s' hs => (nomatch hs), fun s' hs => (nomatch hs)⟩ ?_
          exact fun b hb => (nomatch hb)
      | some b => exact (h.resize_iff addr granted).1
  | delete =>
      exact iff_of_true ⟨fun _ s' hs => (h.delete hs).clean, fun s' hs => (h.delete hs).owned⟩
        trivial

/-- Step lemma. -/
theorem step (h : OwnInv s) {c : BufferCall} (hk : KeepsHands s c)
    (hs : ownStep s c = some s') : OwnInv s' := by
  cases c with
  | create addr count datatype options granted => exact h.create hs
  | resize addr count datatype granted =>
      obtain ⟨buff, heap⟩ := s
      cases buff with
      | none => cases hs
      | some b => exact (h.resize_iff addr granted).2 hk s' hs
  | delete => exact h.delete hs

end OwnInv

/-- **Ownership**: in all calls of a run it is respected and recorded, iff the memory of a
buffer never changes hands. -/
theorem ownership_iff (junk : Nat → Nat) (cs : List BufferCall) :
    RunMeets ownStep OwnershipLaw ⟨none, OwnHeap.empty junk⟩ cs ↔
      RunMeets ownStep KeepsHands ⟨none, OwnHeap.empty junk⟩ cs := by
  constructor
  · exact RunMeets.of_invariant (fun s c s' h hlaw hs => h.step ((h.law_iff c).mp hlaw) hs)
      (fun s c h => (h.law_iff c).mp) cs _ (ownInv_empty junk)
  · exact RunMeets.of_invariant (fun s c s' h hk hs => h.step hk hs)
      (fun s c h => (h.law_iff c).mpr) cs _ (ownInv_empty junk)

/-- A buffer with memory of the library gets an address of the user, which is passed to
`free` when the buffer is deleted. -/
theorem ownership_fails :
    ¬ ∀ (junk : Nat → Nat) (cs : List BufferCall),
      RunMeets ownStep OwnershipLaw ⟨none, OwnHeap.empty junk⟩ cs := by
  intro hall
  obtain ⟨t, hrun, t', hdelete, hforeign⟩ : ∃ t,
      run ownStep ⟨none, OwnHeap.empty fun _ => 0⟩
        [.create none 1 0 0 true, .resize (some 7) 1 0 true] = some t ∧
      ∃ t', ownStep t .delete = some t' ∧ t'.heap.foreign = [7] := ⟨_, rfl, _, rfl, rfl⟩
  have hclean := ((hall (fun _ => 0) [.create none 1 0 0 true, .resize (some 7) 1 0 true,
    .delete]).last hrun).1 true t' hdelete
  rw [hforeign] at hclean
  cases hclean.1

end Fflib
