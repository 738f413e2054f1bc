import Fflib.BufferErrors
import Fflib.Ownership

/-!
# Buffers that hold an index

A buffer that was created with `FFBUFFER_IDX`, and the calls of `ffbuffer_get_data`,
`ffbuffer_resize` and `ffbuffer_delete` on it.

**Watching.**  `Allocator.watched` writes down every pointer that reaches `realloc` or `free`.

**Guards.**  An assertion that fails ends the program, and is answered by `none`.  The guard of
both functions compares `options && FFBUFFER_IDX`, which is 0 or 1, with `FFBUFFER_IDX`.

* `ffbufferGetData_eq`: what is left of the guards is the test for a null pointer.
* `indexBuffer_iff`: the bits of the index are left alone iff the buffer is not resized, and its
  data is asked for only where all bits of the union are zero.
-/

namespace Fflib

open Library

variable {μ π : Type} [DecidableEq π]

/-- The allocator, with the pointers that `realloc` and `free` have been given. -/
def Allocator.watched (A : Allocator μ π) : Allocator (μ × List π) π where
  null := A.null
  realloc p n m := (A.realloc p n m.1).map fun r => (r.1, r.2, p :: m.2)
  free p m := (A.free p m.1, p :: m.2)
  read32 p m := A.read32 p m.1
  writeIdx := A.writeIdx
  junk m := ((A.junk m.1).1, (A.junk m.1).2, m.2)

/-- `ffbuffer_get_data`; `none` is an assertion. -/
def ffbufferGetData (A : Allocator μ π) (b : BufferBlock π) : Option (Int × π) :=
  if logicalAnd b.options ffbufferIdx = ffbufferIdx then none
  else if b.ptr = A.null then none
  else some (ffSuccess, b.ptr)

/-- The first assertion never fails. -/
theorem ffbufferGetData_eq (A : Allocator μ π) (b : BufferBlock π) :
    ffbufferGetData A b = if b.ptr = A.null then none else some (ffSuccess, b.ptr) :=
  if_neg (logicalAnd_ne _)

/-! ### Runs -/

/-- The buffer, the memory, and what `ffbuffer_get_data` has returned. -/
structure IndexState (μ π : Type) where
  buff : Option (BufferBlock π)
  mem : μ × List π
  returned : List π

inductive IndexCall (π : Type) where
  | getData
  | resize (addr : π) (count : Nat) (datatype : Int)
  | delete

/-- One call on the buffer. -/
def indexStep (A : Allocator μ π) (s : IndexState μ π) (c : IndexCall π) :
    Option (IndexState μ π) :=
  s.buff.bind fun b =>
    match c with
    | .getData => (ffbufferGetData A b).map fun r => { s with returned := r.2 :: s.returned }
    | .resize addr count datatype =>
        (ffbufferResize A.watched addr count datatype b s.mem).map fun r =>
          { s with buff := some r.2.1, mem := r.2.2 }
    | .delete => some { s with buff := none, mem := ffbufferDelete A.watched b s.mem }

/-- The call does not get past its guard. -/
def Guarded : IndexCall π → Prop
  | .delete => False
  | _ => True

/-- `ffbuffer_get_data` and `ffbuffer_resize` are rejected; what is not rejected leaves the
type and the bits of the index, and passes no pointer on. -/
def IndexLaw (A : Allocator μ π) (s : IndexState μ π) (c : IndexCall π) : Prop :=
  (Guarded c → indexStep A s c = none) ∧
    ∀ s', indexStep A s c = some s' →
      s'.mem.2 = s.mem.2 ∧ s'.returned = s.returned ∧
        ∀ b b', s.buff = some b → s'.buff = some b' → b'.type = b.type ∧ b'.ptr = b.ptr

/-- No resize, and a request for the data only where the union is null. -/
def LeavesIndex (A : Allocator μ π) (s : IndexState μ π) (c : IndexCall π) : Prop :=
  ∀ b, s.buff = some b →
    match c with
    | .getData => b.ptr = A.null
    | .resize _ _ _ => False
    | .delete => True

/-- The buffer holds an index, and does not own memory. -/
def HoldsIndex (s : IndexState μ π) : Prop :=
  ∀ b, s.buff = some b → b.type = .idx ∧ b.selfalloc = false

section Law

variable {A : Allocator μ π} {s : IndexState μ π} {b : BufferBlock π}

/-- Nothing in `ffbuffer_resize` rejects a call. -/
theorem ffbufferResize_isSome (A : Allocator μ π) (addr : π) (count : Nat) (datatype : Int)
    (b : BufferBlock π) (m : μ) : ∃ r, ffbufferResize A addr count datatype b m = some r := by
  by_cases hrefused : Refused A addr count datatype b m
  · exact ⟨_, resize_of_refused hrefused⟩
  · obtain ⟨b', m', hr⟩ := resize_of_not_refused hrefused
    exact ⟨_, hr⟩

/-- One call. -/
theorem HoldsIndex.law_iff (h : HoldsIndex s) (c : IndexCall π) :
    IndexLaw A s c ↔ LeavesIndex A s c := by
  cases hb : s.buff with
  | none =>
      have hstep : indexStep A s c = none := by rw [indexStep, hb, Option.bind_none]
      constructor
      · intro _ b hsome
        rw [hb] at hsome
        cases hsome
      · intro _
        refine ⟨fun _ => hstep, fun s' hs => ?_⟩
        rw [hstep] at hs
        cases hs
  | some b =>
      have hleaves : LeavesIndex A s c ↔ match c with
          | .getData => b.ptr = A.null
          | .resize _ _ _ => False
          | .delete => True := by
        constructor
        · exact fun hl => hl b hb
        · intro hl b' hb'
          obtain rfl := Option.some.inj (hb.symm.trans hb')
          exact hl
      rw [hleaves]
      cases c with
      | getData =>
          have hstep : indexStep A s .getData = if b.ptr = A.null then none
              else some { s with returned := b.ptr :: s.returned } := by
            rw [indexStep, hb, Option.bind_some]
            simp only [ffbufferGetData_eq]
            split
            · rfl
            · rfl
          constructor
          · intro hlaw
            by_contra hne
            have hnone := hlaw.1 trivial
            rw [hstep, if_neg hne] at hnone
            cases hnone
          · intro hnull
            simp only at hnull
            rw [if_pos hnull] at hstep
            refine ⟨fun _ => hstep, fun s' hs => ?_⟩
            rw [hstep] at hs
            cases hs
      | resize addr count datatype =>
          obtain ⟨r, hr⟩ := ffbufferResize_isSome A.watched addr count datatype b s.mem
          constructor
          · intro hlaw
            have hnone := hlaw.1 trivial
            rw [indexStep, hb, Option.bind_some] at hnone
            simp only [hr, Option.map_some] at hnone
            cases hnone
          · exact False.elim
      | delete =>
          have hfree : ffbufferDelete A.watched b s.mem = s.mem := by
            rw [ffbufferDelete, (h b hb).2]
            rfl
          have hstep : indexStep A s .delete = some { s with buff := none } := by
            rw [indexStep, hb, Option.bind_some]
            simp only [hfree]
          refine ⟨fun _ => trivial, fun _ => ⟨False.elim, fun s' hs => ?_⟩⟩
          rw [hstep] at hs
          obtain rfl := Option.some.inj hs
          refine ⟨rfl, rfl, fun b₁ b₂ _ h₂ => ?_⟩
          cases h₂

/-- After a call that leaves the index, if any. -/
theorem holdsIndex_step {c : IndexCall π} {s' : IndexState μ π}
    (hlaw : IndexLaw A s c) (hs : indexStep A s c = some s') : HoldsIndex s' := by
  cases c with
  | delete =>
      obtain ⟨b, _, hs⟩ := Option.bind_eq_some_iff.mp hs
      obtain rfl := Option.some.inj hs
      intro b' hb'
      cases hb'
  | getData =>
      rw [hlaw.1 trivial] at hs
      cases hs
  | resize addr count datatype =>
      rw [hlaw.1 trivial] at hs
      cases hs

/-- After `ffbuffer_create` with `FFBUFFER_IDX`. -/
theorem holdsIndex_create {addr : π} {count : Nat} {datatype : Int} {options : Nat} {m m' : μ}
    {code : Int} (hoptions : options &&& ffbufferIdx = ffbufferIdx)
    (hcreate : ffbufferSetup A addr count datatype options m = some (code, b, m')) :
    b.type = .idx ∧ b.selfalloc = false := by
  rw [ffbufferSetup, if_pos hoptions] at hcreate
  simp only [decide_eq_true_eq] at hcreate
  split at hcreate
  · cases hcreate
  · next hne =>
      cases hcreate
      exact ⟨rfl, decide_eq_false hne⟩

/-- The state after the creation of a buffer. -/
def indexStart (b : BufferBlock π) (m : μ) : IndexState μ π := ⟨some b, (m, []), []⟩

/-- The index of a buffer is never taken for an address iff no call resizes the buffer, and
none asks for the data of one whose union is not null. -/
theorem indexBuffer_iff {addr : π} {count : Nat} {datatype : Int} {options : Nat} {m m' : μ}
    {code : Int} (hoptions : options &&& ffbufferIdx = ffbufferIdx)
    (hcreate : ffbufferSetup A addr count datatype options m = some (code, b, m'))
    (calls : List (IndexCall π)) :
    RunMeets (indexStep A) (IndexLaw A) (indexStart b m') calls ↔
      RunMeets (indexStep A) (LeavesIndex A) (indexStart b m') calls := by
  have hinit : HoldsIndex (indexStart b m') := by
    intro b' hb'
    obtain rfl := Option.some.inj hb'
    exact holdsIndex_create hoptions hcreate
  constructor
  · exact RunMeets.of_invariant (fun s c s' _ hlaw hs => holdsIndex_step hlaw hs)
      (fun s c h => (h.law_iff c).mp) calls _ hinit
  · exact RunMeets.of_invariant (fun s c s' h hl hs => holdsIndex_step ((h.law_iff c).mpr hl) hs)
      (fun s c h => (h.law_iff c).mpr) calls _ hinit

end Law

/-! ### An index of the user -/

/-- Addresses of 64 bits, of which the index takes the lower half; the memory holds words. -/
def wordAllocator : Allocator (Nat → Nat) Nat where
  null := 0
  realloc _ _ _ := none
  free _ m := m
  read32 p m := m p % 2 ^ 32
  writeIdx idx p := p / 2 ^ 32 * 2 ^ 32 + idx
  junk m := (m 0, m)

/-- `ffbuffer_create` at the address 64, where the index 2 is stored. -/
def indexTwo : BufferBlock Nat where
  type := .idx
  selfalloc := false
  ptr := 2
  count := 1
  datatype := 0
  options := ffbufferIdx

theorem indexTwo_created :
    ffbufferSetup wordAllocator 64 1 0 ffbufferIdx (fun _ => 2) =
      some (ffSuccess, indexTwo, fun _ => 2) := rfl

theorem indexBuffer_iff_two :
    RunMeets (indexStep wordAllocator) (IndexLaw wordAllocator)
        (indexStart indexTwo fun _ => 2) [.getData, .resize 128 4 0, .delete] ↔
      RunMeets (indexStep wordAllocator) (LeavesIndex wordAllocator)
        (indexStart indexTwo fun _ => 2) [.getData, .resize 128 4 0, .delete] :=
  indexBuffer_iff (A := wordAllocator) (by decide) indexTwo_created _

/-- The index 2 is returned as an address. -/
theorem indexBuffer_fails :
    ¬ ∀ (addr count options : Nat) (code : Int) (m m' : Nat → Nat) (b : BufferBlock Nat)
        (calls : List (IndexCall Nat)), options &&& ffbufferIdx = ffbufferIdx →
      ffbufferSetup wordAllocator addr count 0 options m = some (code, b, m') →
      RunMeets (indexStep wordAllocator) (IndexLaw wordAllocator) (indexStart b m') calls := by
  intro hall
  have hlaw :=
    (hall 64 1 ffbufferIdx ffSuccess _ _ indexTwo [.getData] (by decide) indexTwo_created).1
  have hnone := hlaw.1 trivial
  cases hnone

end Fflib
