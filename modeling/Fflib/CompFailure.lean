import Fflib.BufferErrors
import Fflib.KernelBounds
import Fflib.Operator
import Fflib.Resources

/-!
# What `ffcomp` leaves behind when it fails

`ffcomp` with the three buffers that it creates and the operation, on the pools of
`Fflib.Resources`.

**Codes.**  `FFCALL` stores the result of a comparison: `r=(X)!=FFSUCCESS` is 1 for every error,
which is `FFCOMPLETED`.

**Blocks that are held.**  A creation that fails gives the pool the address of the variable for
the handle.  The block that it has taken stays held.

* `ffbufferCreate_pools`: this is the `ffbuffer_create` of `Fflib.BufferErrors`.
* `ffcomp_of_failed_create` and `ffcomp_of_failed_lookup`: the code, and the blocks that are held
  afterwards.
-/

namespace Fflib
namespace CompFailure

open Library Resources

variable {μ π F : Type} [DecidableEq π]

/-- The pools, and the memory behind the buffers. -/
structure CompState (μ : Type) where
  blocks : Blocks
  mem : μ

/-- `FFCALL`: the code that is returned, if any. -/
def ffcall (code : Int) : Option Int :=
  let r : Int := if code ≠ ffSuccess then 1 else 0
  if r ≠ 0 then some r else none

/-- `ffstorage_pool_put` of something that may be no block. -/
def putAddress (k : PoolKind) (handle : BlockPtr) (s : Blocks) : Blocks :=
  { s with
    pools := ffstoragePoolPut handle s.pools
    held := Function.update s.held k ((s.held k).erase handle) }

/-- `ffbuffer_create`; `handle` is the address of the variable for the handle. -/
def ffbufferCreate (A : Allocator μ π) (handle : BlockPtr) (addr : π) (count : Nat)
    (datatype : Int) (options : Nat) (s : CompState μ) : Option (Int × BlockPtr × CompState μ) :=
  (poolGet .buff s.blocks).bind fun r =>
    (ffbufferSetup A addr count datatype options s.mem).map fun t =>
      if t.1 = ffSuccess then (ffSuccess, r.1, ⟨r.2, t.2.2⟩)
      else (ffEnomem, r.1, ⟨putAddress .buff handle r.2, t.2.2⟩)

/-- `ffcomp_b`: its code, and the operation. -/
def ffcompB (ffoperator : Int) (T : OperatorTable F) (s : CompState μ) :
    Option (Int × CompState μ) :=
  (poolGet .op s.blocks).bind fun r =>
    (ffcompBCode ffoperator T).map fun code => (code, ⟨r.2, s.mem⟩)

/-- The arguments of `ffcomp`, and the addresses of its variables `b1`, `b2` and `b3`. -/
structure FfcompArgs (π : Type) where
  addr1 : π
  addr2 : π
  addr3 : π
  count : Int
  datatype : Int
  ffoperator : Int
  options : Nat
  b1 : BlockPtr
  b2 : BlockPtr
  b3 : BlockPtr

/-- `count`, as `ffbuffer_create` gets it. -/
def FfcompArgs.count32 (a : FfcompArgs π) : Nat := (a.count % 2 ^ 32).toNat

/-- `ffbuffer_create` of one of the three buffers. -/
def createArg (A : Allocator μ π) (a : FfcompArgs π) (handle : BlockPtr) (addr : π)
    (s : CompState μ) : Option (Int × BlockPtr × CompState μ) :=
  ffbufferCreate A handle addr a.count32 a.datatype a.options s

/-- `ffcomp`. -/
def ffcomp (A : Allocator μ π) (T : OperatorTable F) (a : FfcompArgs π) (s : CompState μ) :
    Option (Int × CompState μ) :=
  (createArg A a a.b1 a.addr1 s).bind fun r₁ =>
    match ffcall r₁.1 with
    | some r => some (r, r₁.2.2)
    | none =>
        (createArg A a a.b2 a.addr2 r₁.2.2).bind fun r₂ =>
          match ffcall r₂.1 with
          | some r => some (r, r₂.2.2)
          | none =>
              (createArg A a a.b3 a.addr3 r₂.2.2).bind fun r₃ =>
                match ffcall r₃.1 with
                | some r => some (r, r₃.2.2)
                | none => ffcompB a.ffoperator T r₃.2.2

/-- The variable and the address of the buffer that is created after `n` others. -/
def FfcompArgs.buffer (a : FfcompArgs π) : Nat → BlockPtr × π
  | 0 => (a.b1, a.addr1)
  | 1 => (a.b2, a.addr2)
  | _ => (a.b3, a.addr3)

/-- The first `n` creations of `ffcomp` succeed, and lead to a state. -/
inductive Created (A : Allocator μ π) (a : FfcompArgs π) (s : CompState μ) :
    Nat → CompState μ → Prop
  | zero : Created A a s 0 s
  | succ {n : Nat} {s₁ s₂ : CompState μ} {b : BlockPtr} (hn : n < 3) (hs : Created A a s n s₁)
      (h : createArg A a (a.buffer n).1 (a.buffer n).2 s₁ = some (ffSuccess, b, s₂)) :
      Created A a s (n + 1) s₂

/-- A step of `ffcomp` fails with a code of its own, and every earlier one succeeds. -/
inductive FailsWith (A : Allocator μ π) (T : OperatorTable F) (a : FfcompArgs π)
    (s : CompState μ) : Int → Prop
  | create {n : Nat} {s₁ s₂ : CompState μ} {b : BlockPtr} {code : Int} (hn : n < 3)
      (hs : Created A a s n s₁)
      (h : createArg A a (a.buffer n).1 (a.buffer n).2 s₁ = some (code, b, s₂))
      (hcode : code ≠ ffSuccess) : FailsWith A T a s code
  | lookup {s₁ : CompState μ} {code : Int} (hs : Created A a s 3 s₁)
      (h : ffopGcompOperatorGet a.ffoperator T = some (.error code)) : FailsWith A T a s code

/-- The code of the step that fails is returned, and the pools hold what they held. -/
def FailsCleanly (A : Allocator μ π) (T : OperatorTable F) (a : FfcompArgs π) (s : CompState μ)
    (code : Int) : Prop :=
  code < 0 ∧ ∃ s', ffcomp A T a s = some (code, s') ∧
    s'.blocks.held .op = s.blocks.held .op ∧ s'.blocks.held .buff = s.blocks.held .buff

/-! ### One creation -/

section Create

variable {A : Allocator μ π} {handle b : BlockPtr} {addr : π} {count : Nat} {datatype : Int}
  {options : Nat} {s s' : CompState μ} {code : Int}

/-- The pools and the memory are those of `ffbufferCreateIn`. -/
theorem ffbufferCreate_pools :
    (ffbufferCreate A handle addr count datatype options s).map
        (fun r => (r.1, r.2.2.blocks.pools, r.2.2.mem)) =
      (ffbufferCreateIn A (s.blocks.handle .buff) handle addr count datatype options
        s.blocks.pools s.mem).map (fun r => (r.1, r.2.2)) := by
  rw [ffbufferCreate, ffbufferCreateIn, poolGet]
  cases ffstoragePoolGet (s.blocks.handle .buff) s.blocks.pools with
  | none => rfl
  | some r =>
      simp only [Option.map_some, Option.bind_some]
      cases ffbufferSetup A addr count datatype options s.mem with
      | none => rfl
      | some t =>
          simp only [Option.map_some]
          split
          · rfl
          · rfl

/-- The block is taken; a creation that fails has the code `FFENOMEM`. -/
theorem ffbufferCreate_held
    (h : ffbufferCreate A handle addr count datatype options s = some (code, b, s')) :
    (code = ffSuccess ∧ s'.blocks.held .op = s.blocks.held .op ∧
        s'.blocks.held .buff = b ::ₘ s.blocks.held .buff) ∨
      (code = ffEnomem ∧ s'.blocks.held .op = s.blocks.held .op ∧
        s'.blocks.held .buff = (b ::ₘ s.blocks.held .buff).erase handle) := by
  obtain ⟨⟨b', blocks⟩, hget, h⟩ := Option.bind_eq_some_iff.mp h
  obtain ⟨t, _, h⟩ := Option.map_eq_some_iff.mp h
  obtain ⟨r, _, hr⟩ := Option.map_eq_some_iff.mp hget
  cases hr
  split at h
  · cases h
    exact Or.inl ⟨rfl, by simp, by simp⟩
  · cases h
    exact Or.inr ⟨rfl, by simp [putAddress], by simp [putAddress]⟩

end Create

/-! ### `ffcomp` -/

/-- What is left of `ffcomp` when `n` buffers are still to be created. -/
def ffcompRest (A : Allocator μ π) (T : OperatorTable F) (a : FfcompArgs π) :
    Nat → CompState μ → Option (Int × CompState μ)
  | 0, s => ffcompB a.ffoperator T s
  | n + 1, s =>
      (createArg A a (a.buffer (2 - n)).1 (a.buffer (2 - n)).2 s).bind fun r =>
        match ffcall r.1 with
        | some code => some (code, r.2.2)
        | none => ffcompRest A T a n r.2.2

section Ffcomp

variable {A : Allocator μ π} {T : OperatorTable F} {a : FfcompArgs π} {s s₁ : CompState μ}
  {n : Nat} {code : Int}

theorem ffcomp_eq_rest : ffcomp A T a s = ffcompRest A T a 3 s := rfl

/-- After the creations that succeed, the rest of `ffcomp` is run. -/
theorem Created.ffcomp_eq (h : Created A a s n s₁) :
    ffcomp A T a s = ffcompRest A T a (3 - n) s₁ := by
  induction h with
  | zero => exact ffcomp_eq_rest
  | @succ n s₁ s₂ b hn _ h ih =>
      have hrest : 3 - n = 3 - (n + 1) + 1 := by omega
      have hbuffer : 2 - (3 - (n + 1)) = n := by omega
      rw [ih, hrest, ffcompRest, hbuffer, h]
      rfl

/-- Each of them holds one more buffer. -/
theorem Created.held (h : Created A a s n s₁) :
    s₁.blocks.held .op = s.blocks.held .op ∧
      (s₁.blocks.held .buff).card = (s.blocks.held .buff).card + n := by
  induction h with
  | zero => exact ⟨rfl, rfl⟩
  | succ _ _ h ih =>
      rcases ffbufferCreate_held h with ⟨_, hop, hbuff⟩ | ⟨hcode, _⟩
      · rw [hop, hbuff, Multiset.card_cons, ih.2]
        exact ⟨ih.1, rfl⟩
      · exact absurd hcode (by decide)

/-- A buffer cannot be created: `ffcomp` returns `FFCOMPLETED`. -/
theorem ffcomp_of_failed_create {s₂ : CompState μ} {b : BlockPtr} (hn : n < 3)
    (hs : Created A a s n s₁)
    (h : createArg A a (a.buffer n).1 (a.buffer n).2 s₁ = some (code, b, s₂))
    (hcode : code ≠ ffSuccess) : ffcomp A T a s = some (ffCompleted, s₂) := by
  have hrest : 3 - n = 2 - n + 1 := by omega
  have hbuffer : 2 - (2 - n) = n := by omega
  have hcall : ffcall code = some 1 := by
    rw [ffcall, if_pos hcode]
    rfl
  rw [hs.ffcomp_eq, hrest, ffcompRest, hbuffer, h, Option.bind_some]
  simp only [hcall]
  rfl

/-- The operator is not found: the code is that of the lookup, and the operation and the three
buffers stay held. -/
theorem ffcomp_of_failed_lookup (hs : Created A a s 3 s₁)
    (h : ffopGcompOperatorGet a.ffoperator T = some (.error code)) :
    ∃ s', ffcomp A T a s = some (code, s') ∧
      (s'.blocks.held .op).card = (s.blocks.held .op).card + 1 ∧
      (s'.blocks.held .buff).card = (s.blocks.held .buff).card + 3 := by
  obtain ⟨r, hr⟩ := ffstoragePoolGet_isSome (s₁.blocks.handle .op) s₁.blocks.pools
  have hrun : ffcomp A T a s = ffcompB a.ffoperator T s₁ := hs.ffcomp_eq
  obtain ⟨hop, hbuff⟩ := hs.held
  rw [hrun, ffcompB, poolGet, hr, ffcompBCode, h]
  refine ⟨_, rfl, ?_, ?_⟩
  · simp [hop]
  · simp [hbuff]

/-- **Failures of `ffcomp`** are never clean. -/
theorem ffcomp_not_clean (h : FailsWith A T a s code) : ¬ FailsCleanly A T a s code := by
  rintro ⟨hneg, s', hrun, _, hbuff⟩
  cases h with
  | create hn hs hcreate hcode =>
      rw [ffcomp_of_failed_create hn hs hcreate hcode] at hrun
      obtain ⟨hcode', _⟩ := Prod.mk.inj (Option.some.inj hrun)
      rw [← hcode'] at hneg
      exact absurd hneg (by decide)
  | lookup hs hget =>
      obtain ⟨s₂, hrun', _, hcard⟩ := ffcomp_of_failed_lookup hs hget
      obtain ⟨_, rfl⟩ := Prod.mk.inj (Option.some.inj (hrun.symm.trans hrun'))
      rw [hbuff] at hcard
      omega

end Ffcomp

/-! ### No memory -/

/-- A sum of three buffers of one `FFINT32` each, to be allocated by the library. -/
def sumArgs : FfcompArgs Nat where
  addr1 := 0
  addr2 := 0
  addr3 := 0
  count := 1
  datatype := 0
  ffoperator := ffSum
  options := 0
  b1 := (7, 0)
  b2 := (7, 1)
  b3 := (7, 2)

/-- `realloc` refuses the first buffer. -/
theorem sumArgs_fails :
    FailsWith userAllocator (ffopGcompOperatorInit 0 1 fun _ => ⟨0, none⟩) sumArgs
      ⟨initBlocks, ()⟩ ffEnomem := by
  have hcreate : ∃ b s₂, createArg userAllocator sumArgs (7, 0) 0 ⟨initBlocks, ()⟩ =
      some (ffEnomem, b, s₂) := by
    obtain ⟨r, hr⟩ := ffstoragePoolGet_isSome (initBlocks.handle .buff) initBlocks.pools
    rw [createArg, ffbufferCreate, poolGet, hr]
    exact ⟨_, _, rfl⟩
  obtain ⟨b, s₂, hcreate⟩ := hcreate
  exact .create (by decide) .zero hcreate (by decide)

theorem ffcomp_not_clean_sum :
    ¬ FailsCleanly userAllocator (ffopGcompOperatorInit 0 1 fun _ => ⟨0, none⟩) sumArgs
      ⟨initBlocks, ()⟩ ffEnomem :=
  ffcomp_not_clean sumArgs_fails

/-- The first buffer cannot be created, and `ffcomp` returns `FFCOMPLETED`. -/
theorem ffcomp_clean_fails :
    ¬ ∀ (T : OperatorTable Nat) (a : FfcompArgs Nat) (s : CompState Unit) (code : Int),
      FailsWith userAllocator T a s code → FailsCleanly userAllocator T a s code := by
  intro hall
  obtain ⟨_, s', hrun, _⟩ := hall _ _ _ _ sumArgs_fails
  cases sumArgs_fails with
  | create hn hs hcreate hcode =>
      rw [ffcomp_of_failed_create hn hs hcreate hcode] at hrun
      obtain ⟨hcode', _⟩ := Prod.mk.inj (Option.some.inj hrun)
      exact absurd hcode' (by decide)
  | lookup _ hget => cases hget

end CompFailure
end Fflib
