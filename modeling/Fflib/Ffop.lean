import Mathlib.Logic.Function.Basic

/-!
# Operations and their dependencies

The records of `ff.h`, `ffop.h` and `ffbuffer.h`, and the functions that create
buffers and operations and link them: `ffbuffer_create`, `ffop_create`, `ffnop`,
`ffsend_b`, `ffrecv_b`, `ffcomp_b` and `ffop_hb`.

**Handles.**  Handles are numbers.  An operation (`ffop_h`) is named by its `id`,
which `ffop_create` takes from the counter `opid`; a buffer (`ffbuffer_h`) by a
positive number, `FFBUFF_NONE` being `0`.  The recycling of the blocks behind
the handles is the subject of `Fflib.Storage` and `Fflib.ReadyList`.

**Array bound.**  `dependent[MAX_DEPS]` is an array inside `struct ffop`, and
`ffop_hb` stores into it without looking at the bound (`ARGS_CHECK` is not
defined in the build).  The bound is a parameter `cap` here, `maxDeps` in the
build; a store at an index outside the array is undefined behaviour, answered
by `none`.

**Counters.**  In- and out-degrees are natural numbers; the one place where a
counter can leave its range is the decrement of `dep_left`, which wraps.
-/

namespace Fflib

/-- `MAX_DEPS` of `ffop.h`. -/
def maxDeps : Nat := 10

/-! ### Return codes and options of `ff.h` -/

def ffCompleted : Int := 1
def ffSuccess : Int := 0
def ffError : Int := -1
def ffInvalidArg : Int := -2
def ffEnomem : Int := -4

/-- Neither `FFSUCCESS` nor `FFCOMPLETED`. -/
def IsError (code : Int) : Prop := code ≠ ffSuccess ∧ code ≠ ffCompleted

instance (code : Int) : Decidable (IsError code) := inferInstanceAs (Decidable (_ ∧ _))

def ffopDepAnd : Nat := 1 <<< 1
def ffopDepOr : Nat := 1 <<< 2
def ffopNonPersistent : Nat := 1 <<< 3
def ffcompDestAtomic : Nat := 1 <<< 4
def ffcollBuffers : Nat := 1 <<< 7

/-- `IS_OPT_SET` of `ffinternal.h`, on the options word. -/
def isOptSet (options opt : Nat) : Bool := (options &&& opt) == opt

/-- `FFBUFF_NONE`, the null buffer handle. -/
def ffbuffNone : Nat := 0

/-- `FFIDENTITY`, the handle of the copy operator. -/
def ffIdentity : Int := 4

/-- The `type` of an operation together with the union member it selects. -/
inductive FfopBody where
  | send (peer tag : Nat) (buffer : Nat)
  | recv (peer tag : Nat) (buffer : Nat)
  | comp (buffer1 buffer2 buffer3 : Nat) (operatorType : Int)
  | nop
deriving DecidableEq, Repr

/-- The operation is completed by the progress thread. -/
def FfopBody.isRequest : FfopBody → Bool
  | .send _ _ _ => true
  | .recv _ _ _ => true
  | _ => false

/-- `struct ffop`; the fields of `struct instance` are the last three. -/
structure Ffop where
  body : FfopBody
  id : Nat
  dependent : Nat → Nat
  outDepCount : Nat
  inDepCount : Nat
  options : Nat
  schedNext : Option Nat
  version : Nat
  depLeft : Nat
  next : Option Nat
  completed : Nat

/-- The count and datatype of `struct ffbuffer`. -/
structure Ffbuffer where
  count : Nat
  datatype : Int
deriving DecidableEq, Repr

/-- The library state of one process that constructors work on. -/
structure Lib where
  ops : Nat → Ffop
  opid : Nat
  buffs : Nat → Ffbuffer
  nextBuffer : Nat
  schedid : Nat

/-- The state after `ff_init`: blank blocks, and every counter at its start. -/
def Lib.init : Lib where
  ops _ :=
    { body := .nop
      id := 0
      dependent := fun _ => 0
      outDepCount := 0
      inDepCount := 0
      options := 0
      schedNext := none
      version := 0
      depLeft := 0
      next := none
      completed := 0 }
  opid := 0
  buffs _ := ⟨0, 0⟩
  nextBuffer := 1
  schedid := 0

namespace Lib

/-- Rewrite one operation. -/
def setOp (l : Lib) (op : Nat) (f : Ffop → Ffop) : Lib :=
  { l with ops := Function.update l.ops op (f (l.ops op)) }

@[simp] theorem setOp_opid (l : Lib) (op : Nat) (f : Ffop → Ffop) :
    (l.setOp op f).opid = l.opid := rfl

@[simp] theorem setOp_buffs (l : Lib) (op : Nat) (f : Ffop → Ffop) :
    (l.setOp op f).buffs = l.buffs := rfl

@[simp] theorem setOp_nextBuffer (l : Lib) (op : Nat) (f : Ffop → Ffop) :
    (l.setOp op f).nextBuffer = l.nextBuffer := rfl

@[simp] theorem setOp_ops_self (l : Lib) (op : Nat) (f : Ffop → Ffop) :
    (l.setOp op f).ops op = f (l.ops op) := by
  simp [setOp]

theorem setOp_ops_of_ne (l : Lib) {op x : Nat} (f : Ffop → Ffop) (h : x ≠ op) :
    (l.setOp op f).ops x = l.ops x := by
  simp [setOp, h]

theorem setOp_ops (l : Lib) (op x : Nat) (f : Ffop → Ffop) :
    (l.setOp op f).ops x = if x = op then f (l.ops x) else l.ops x := by
  by_cases h : x = op
  · subst h; simp
  · rw [setOp_ops_of_ne l f h, if_neg h]

end Lib

/-- `ffbuffer_create`. -/
def ffbufferCreate (count : Nat) (datatype : Int) (l : Lib) : Nat × Lib :=
  (l.nextBuffer,
    { l with
      buffs := Function.update l.buffs l.nextBuffer ⟨count, datatype⟩
      nextBuffer := l.nextBuffer + 1 })

/-- `ffop_create`: the `dependent` array of the block is left as it is. -/
def ffopCreate (l : Lib) : Nat × Lib :=
  (l.opid,
    { l with
      ops := Function.update l.ops l.opid
        { body := .nop
          id := l.opid
          dependent := (l.ops l.opid).dependent
          outDepCount := 0
          inDepCount := 0
          options := ffopDepAnd
          schedNext := none
          version := 0
          depLeft := 0
          next := none
          completed := 0 }
      opid := l.opid + 1 })

/-- What the constructors share: create an operation, then set body and options. -/
def newOp (body : FfopBody) (options : Nat → Nat) (l : Lib) : Nat × Lib :=
  ((ffopCreate l).1,
    (ffopCreate l).2.setOp (ffopCreate l).1
      (fun o => { o with body := body, options := options o.options }))

/-- `ffnop`: the options word is overwritten. -/
def ffnop (options : Nat) (l : Lib) : Nat × Lib :=
  newOp .nop (fun _ => options) l

/-- `ffsend_b`. -/
def ffsendB (buffer : Nat) (dest tag options : Nat) (l : Lib) : Nat × Lib :=
  newOp (.send dest tag buffer) (fun o => o ^^^ options) l

/-- `ffrecv_b`. -/
def ffrecvB (buffer : Nat) (source tag options : Nat) (l : Lib) : Nat × Lib :=
  newOp (.recv source tag buffer) (fun o => o ^^^ options) l

/-- `ffcomp_b`. -/
def ffcompB (buffer1 buffer2 : Nat) (ffoperator : Int) (options : Nat)
    (buffer3 : Nat) (l : Lib) : Nat × Lib :=
  newOp (.comp buffer1 buffer2 buffer3 ffoperator) (fun o => o ^^^ options) l

/-- `ffop_hb`: the new edge goes to the next entry of `first->dependent`. -/
def ffopHb (cap : Nat) (first second : Nat) (l : Lib) : Option Lib :=
  let idx := (l.ops first).outDepCount
  let l₁ := l.setOp first (fun o => { o with outDepCount := o.outDepCount + 1 })
  if idx < cap then
    let l₂ := l₁.setOp first
      (fun o => { o with dependent := Function.update o.dependent idx second })
    let l₃ := l₂.setOp second (fun o => { o with inDepCount := o.inDepCount + 1 })
    some (l₃.setOp second (fun o => { o with depLeft := o.inDepCount }))
  else none

/-! ### What the constructors leave behind -/

@[simp] theorem newOp_fst (body : FfopBody) (options : Nat → Nat) (l : Lib) :
    (newOp body options l).1 = l.opid := rfl

@[simp] theorem newOp_opid (body : FfopBody) (options : Nat → Nat) (l : Lib) :
    (newOp body options l).2.opid = l.opid + 1 := rfl

@[simp] theorem newOp_buffs (body : FfopBody) (options : Nat → Nat) (l : Lib) :
    (newOp body options l).2.buffs = l.buffs := rfl

@[simp] theorem newOp_nextBuffer (body : FfopBody) (options : Nat → Nat) (l : Lib) :
    (newOp body options l).2.nextBuffer = l.nextBuffer := rfl

theorem newOp_ops_of_ne (body : FfopBody) (options : Nat → Nat) (l : Lib) {x : Nat}
    (h : x ≠ l.opid) : (newOp body options l).2.ops x = l.ops x := by
  simp [newOp, ffopCreate, Lib.setOp, h]

@[simp] theorem newOp_out (body : FfopBody) (options : Nat → Nat) (l : Lib) (x : Nat) :
    ((newOp body options l).2.ops x).outDepCount =
      if x = l.opid then 0 else (l.ops x).outDepCount := by
  by_cases h : x = l.opid
  · simp [newOp, ffopCreate, Lib.setOp, h]
  · rw [newOp_ops_of_ne body options l h, if_neg h]

@[simp] theorem newOp_in (body : FfopBody) (options : Nat → Nat) (l : Lib) (x : Nat) :
    ((newOp body options l).2.ops x).inDepCount =
      if x = l.opid then 0 else (l.ops x).inDepCount := by
  by_cases h : x = l.opid
  · simp [newOp, ffopCreate, Lib.setOp, h]
  · rw [newOp_ops_of_ne body options l h, if_neg h]

@[simp] theorem newOp_body (body : FfopBody) (options : Nat → Nat) (l : Lib) (x : Nat) :
    ((newOp body options l).2.ops x).body = if x = l.opid then body else (l.ops x).body := by
  by_cases h : x = l.opid
  · simp [newOp, ffopCreate, Lib.setOp, h]
  · rw [newOp_ops_of_ne body options l h, if_neg h]

/-- Options enter through their value on the options of a blank operation. -/
theorem newOp_congr (body : FfopBody) (options : Nat → Nat) (l : Lib) :
    newOp body options l = newOp body (fun _ => options ffopDepAnd) l := by
  simp [newOp, ffopCreate, Lib.setOp]

/-- The state of an operation that has just been created. -/
structure Ffop.Fresh (o : Ffop) (body : FfopBody) (options : Nat) : Prop where
  body_eq : o.body = body
  options_eq : o.options = options
  out_eq : o.outDepCount = 0
  in_eq : o.inDepCount = 0
  left_eq : o.depLeft = 0
  version_eq : o.version = 0
  completed_eq : o.completed = 0

theorem newOp_fresh (body : FfopBody) (options : Nat → Nat) (l : Lib) :
    ((newOp body options l).2.ops l.opid).Fresh body (options ffopDepAnd) := by
  constructor <;> simp [newOp, ffopCreate, Lib.setOp]

/-- What one call of `ffop_hb` does to every operation. -/
structure HbSpec (first second : Nat) (l l' : Lib) : Prop where
  opid_eq : l'.opid = l.opid
  buffs_eq : l'.buffs = l.buffs
  nextBuffer_eq : l'.nextBuffer = l.nextBuffer
  out_eq : ∀ x, (l'.ops x).outDepCount =
    (l.ops x).outDepCount + if x = first then 1 else 0
  in_eq : ∀ x, (l'.ops x).inDepCount = (l.ops x).inDepCount + if x = second then 1 else 0
  left_eq : ∀ x, (l'.ops x).depLeft =
    if x = second then (l.ops x).inDepCount + 1 else (l.ops x).depLeft
  dependent_eq : ∀ x, (l'.ops x).dependent =
    if x = first then Function.update (l.ops x).dependent (l.ops x).outDepCount second
    else (l.ops x).dependent
  body_eq : ∀ x, (l'.ops x).body = (l.ops x).body
  options_eq : ∀ x, (l'.ops x).options = (l.ops x).options
  version_eq : ∀ x, (l'.ops x).version = (l.ops x).version
  completed_eq : ∀ x, (l'.ops x).completed = (l.ops x).completed

/-- The state after a call of `ffop_hb` that stays inside the array. -/
def hbLib (first second : Nat) (l : Lib) : Lib :=
  let l₁ := l.setOp first (fun o => { o with outDepCount := o.outDepCount + 1 })
  let l₂ := l₁.setOp first (fun o =>
    { o with dependent := Function.update o.dependent (l.ops first).outDepCount second })
  let l₃ := l₂.setOp second (fun o => { o with inDepCount := o.inDepCount + 1 })
  l₃.setOp second (fun o => { o with depLeft := o.inDepCount })

/-- `ffop_hb` stays inside the array iff the source has room for one more edge. -/
theorem ffopHb_eq (cap first second : Nat) (l : Lib) :
    ffopHb cap first second l =
      if (l.ops first).outDepCount < cap then some (hbLib first second l) else none := rfl

theorem hbLib_spec (first second : Nat) (l : Lib) :
    HbSpec first second l (hbLib first second l) := by
  constructor
  · rfl
  · rfl
  · rfl
  all_goals
    intro x
    simp only [hbLib, Lib.setOp_ops]
    by_cases h1 : x = first
    · subst h1
      by_cases h2 : x = second
      · subst h2; simp
      · simp [h2]
    · by_cases h2 : x = second
      · subst h2; simp [h1]
      · simp [h1, h2]

@[simp] theorem hbLib_opid (first second : Nat) (l : Lib) :
    (hbLib first second l).opid = l.opid := rfl

@[simp] theorem hbLib_buffs (first second : Nat) (l : Lib) :
    (hbLib first second l).buffs = l.buffs := rfl

@[simp] theorem hbLib_nextBuffer (first second : Nat) (l : Lib) :
    (hbLib first second l).nextBuffer = l.nextBuffer := rfl

@[simp] theorem hbLib_out (first second : Nat) (l : Lib) (x : Nat) :
    ((hbLib first second l).ops x).outDepCount =
      (l.ops x).outDepCount + if x = first then 1 else 0 :=
  (hbLib_spec first second l).out_eq x

@[simp] theorem hbLib_in (first second : Nat) (l : Lib) (x : Nat) :
    ((hbLib first second l).ops x).inDepCount =
      (l.ops x).inDepCount + if x = second then 1 else 0 :=
  (hbLib_spec first second l).in_eq x

@[simp] theorem hbLib_body (first second : Nat) (l : Lib) (x : Nat) :
    ((hbLib first second l).ops x).body = (l.ops x).body :=
  (hbLib_spec first second l).body_eq x

theorem ffopHb_spec {cap : Nat} {first second : Nat} {l l' : Lib}
    (h : ffopHb cap first second l = some l') :
    (l.ops first).outDepCount < cap ∧ HbSpec first second l l' := by
  rw [ffopHb_eq] at h
  split at h
  · next hlt =>
      obtain rfl := Option.some.inj h
      exact ⟨hlt, hbLib_spec first second l⟩
  · cases h

end Fflib
