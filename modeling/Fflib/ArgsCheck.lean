import Fflib.Client

/-!
# The dependency limit under `ARGS_CHECK`

`ffop_hb` and `ffschedule_add_op` as they are compiled with `ARGS_CHECK`, with the codes
they return and the indices of `dependent` arrays they store to (`ffopHbChecked`,
`ffscheduleAddOpChecked`), called by a client between any two steps of its threads
(`checkedStep`).  An array is read by the loop of `ffop_complete` (`Client.reads`).

The counter `out_dep_count` is incremented before the bound is tested, and the test is
`idx > MAX_DEPS`.  `limitLaw_iff` finds the limit enforced iff no call goes beyond it.
-/

namespace Fflib

open Library

universe u

/-- `FFTOO_MANY_DEPS` of `ff.h`. -/
def ffTooManyDeps : Int := -3

/-- The code of a call, the indices of `dependent` arrays it stores to, and the state it
leaves.  A store outside an array goes to the index it names. -/
structure Checked where
  code : Int
  stored : List Nat
  lib : Lib

/-- `ffop_hb` with `ARGS_CHECK`; `none` is the handle `NULL`. -/
def ffopHbChecked (first second : Option Nat) (l : Lib) : Checked :=
  match first, second with
  | some first, some second =>
      let idx := (l.ops first).outDepCount
      let l₁ := l.setOp first (fun o => { o with outDepCount := o.outDepCount + 1 })
      if idx > maxDeps then ⟨ffTooManyDeps, [], l₁⟩
      else
        let l₂ := l₁.setOp first
          (fun o => { o with dependent := Function.update o.dependent idx second })
        let l₃ := l₂.setOp second (fun o => { o with inDepCount := o.inDepCount + 1 })
        ⟨ffSuccess, [idx], l₃.setOp second (fun o => { o with depLeft := o.inDepCount })⟩
  | _, _ => ⟨ffInvalidArg, [], l⟩

/-- A call of `ffop_hb` that is made under a condition; its code is dropped. -/
def ffopHbIf (c : Prop) [Decidable c] (first second : Nat) (l : Lib) : Checked :=
  if c then ffopHbChecked (some first) (some second) l else ⟨ffSuccess, [], l⟩

/-- `ffschedule_add_op` with `ARGS_CHECK`. -/
def ffscheduleAddOpChecked (sched : FfSchedule) (op : Nat) (l : Lib) : FfSchedule × Checked :=
  let l₀ := l.setSchedNext op sched.oplist
  let r₁ := ffopHbIf ((l₀.ops op).inDepCount = 0) sched.beginOp op l₀
  let r₂ := ffopHbIf ((r₁.lib.ops op).outDepCount = 0) op sched.endOp r₁.lib
  ({ sched with oplist := some op }, ⟨ffSuccess, r₁.stored ++ r₂.stored, r₂.lib⟩)

/-- The calls of `ffop_hb` that `ffschedule_add_op` makes, with the state before each. -/
def addOpCalls (sched : FfSchedule) (op : Nat) (l : Lib) : List (Nat × Nat × Lib) :=
  let l₀ := l.setSchedNext op sched.oplist
  let l₁ := (ffopHbIf ((l₀.ops op).inDepCount = 0) sched.beginOp op l₀).lib
  (if (l₀.ops op).inDepCount = 0 then [(sched.beginOp, op, l₀)] else []) ++
    (if (l₁.ops op).outDepCount = 0 then [(op, sched.endOp, l₁)] else [])

inductive CheckedCall (σ : Type u) where
  | create (body : FfopBody) (options : Nat)
  | scheduleCreate
  | hb (first second : Option Nat)
  | addOp (sched op : Nat)
  | engine (act : UserAct σ)

section Steps

variable {σ : Type u}

/-- One step of a client in the `ARGS_CHECK` build; `none` is a call on a handle that no
constructor has returned. -/
def checkedStep (impl : Impl σ) (c : Client σ) : CheckedCall σ → Option (Client σ)
  | .create body options => some { c with lib := (newOp body (fun _ => options) c.lib).2 }
  | .scheduleCreate =>
      some { c with
        scheds := c.scheds ++ [(ffscheduleCreate c.lib).1]
        lib := (ffscheduleCreate c.lib).2 }
  | .hb first second =>
      if (∀ x ∈ first, x ∈ c.handles) ∧ ∀ x ∈ second, x ∈ c.handles then
        some { c with lib := (ffopHbChecked first second c.lib).lib }
      else none
  | .addOp k op =>
      if op ∈ c.handles then
        (c.scheds[k]?).map fun s =>
          { c with
            scheds := c.scheds.set k (ffscheduleAddOpChecked s op c.lib).1
            lib := (ffscheduleAddOpChecked s op c.lib).2.lib }
      else none
  | .engine act => c.engineStep impl act

/-- The indices of `dependent` arrays that a step of a thread reads. -/
def Client.reads (c : Client σ) : UserAct σ → List Nat
  | .frame t =>
      match c.proc.stack t with
      | .loop x i :: _ => if i < (c.lib.ops x).outDepCount then [i] else []
      | _ => []
  | _ => []

end Steps

/-! ### What the limit asks of a call -/

/-- The fields by which operations are linked. -/
structure SameDeps (o o' : Ffop) : Prop where
  out_eq : o.outDepCount = o'.outDepCount
  dependent_eq : o.dependent = o'.dependent
  in_eq : o.inDepCount = o'.inDepCount
  left_eq : o.depLeft = o'.depLeft

/-- A call of `ffop_hb` stores inside the array, and one that would exceed the limit is
refused and changes no link. -/
structure HbLimited (first second : Nat) (l : Lib) (r : Checked) : Prop where
  stored : ∀ i ∈ r.stored, i < maxDeps
  refused : maxDeps ≤ (l.ops first).outDepCount → r.code = ffTooManyDeps ∧
    SameDeps (r.lib.ops first) (l.ops first) ∧ SameDeps (r.lib.ops second) (l.ops second)

/-- So do the calls of `ffop_hb` in `ffschedule_add_op`, which returns their errors. -/
structure AddOpLimited (s : FfSchedule) (op : Nat) (l : Lib) (r : Checked) : Prop where
  calls : ∀ c ∈ addOpCalls s op l,
    HbLimited c.1 c.2.1 c.2.2 (ffopHbChecked (some c.1) (some c.2.1) c.2.2)
  reported : ∀ c ∈ addOpCalls s op l,
    maxDeps ≤ (c.2.2.ops c.1).outDepCount → r.code = ffTooManyDeps

section Laws

variable {σ : Type u}

/-- The limit is enforced on one step of a client. -/
def LimitLaw (c : Client σ) : CheckedCall σ → Prop
  | .hb (some first) (some second) =>
      HbLimited first second c.lib (ffopHbChecked (some first) (some second) c.lib)
  | .addOp k op => ∀ s, c.scheds[k]? = some s →
      AddOpLimited s op c.lib (ffscheduleAddOpChecked s op c.lib).2
  | .engine act => ∀ i ∈ c.reads act, i < maxDeps
  | _ => True

/-- A call is made when the source of its edge has fewer than `MAX_DEPS` dependents. -/
def HasRoom (c : Client σ) : CheckedCall σ → Prop
  | .hb (some first) (some _) => (c.lib.ops first).outDepCount < maxDeps
  | .addOp k op => ∀ s, c.scheds[k]? = some s → (c.lib.ops op).inDepCount = 0 →
      (c.lib.ops s.beginOp).outDepCount < maxDeps
  | _ => True

end Laws

/-! ### One call -/

section Calls

variable {first second : Nat} {l : Lib}

theorem ffopHbChecked_of_le (h : (l.ops first).outDepCount ≤ maxDeps) :
    ffopHbChecked (some first) (some second) l =
      ⟨ffSuccess, [(l.ops first).outDepCount], hbLib first second l⟩ := by
  simp only [ffopHbChecked]
  rw [if_neg (Nat.not_lt.mpr h)]
  rfl

theorem ffopHbChecked_of_gt (h : maxDeps < (l.ops first).outDepCount) :
    ffopHbChecked (some first) (some second) l =
      ⟨ffTooManyDeps, [],
        l.setOp first (fun o => { o with outDepCount := o.outDepCount + 1 })⟩ := by
  simp only [ffopHbChecked]
  rw [if_pos h]

/-- `ffop_hb` enforces the limit on the calls that do not exceed it, and on no other. -/
theorem hbLimited_iff :
    HbLimited first second l (ffopHbChecked (some first) (some second) l) ↔
      (l.ops first).outDepCount < maxDeps := by
  constructor
  · intro h
    rcases Nat.lt_trichotomy (l.ops first).outDepCount maxDeps with hlt | heq | hgt
    · exact hlt
    · -- the index `MAX_DEPS` passes the test `idx > MAX_DEPS`
      rw [ffopHbChecked_of_le (Nat.le_of_eq heq)] at h
      exact h.stored _ (List.mem_singleton.mpr rfl)
    · -- a call that is refused has already incremented the counter
      have hsame := (h.refused (Nat.le_of_lt hgt)).2.1.out_eq
      rw [ffopHbChecked_of_gt hgt, Lib.setOp_ops_self] at hsame
      simp only at hsame
      omega
  · intro hlt
    rw [ffopHbChecked_of_le (Nat.le_of_lt hlt)]
    constructor
    · intro i hi
      rw [List.mem_singleton.mp hi]
      exact hlt
    · intro hle
      omega

/-- No counter exceeds the limit. -/
def WithinLimit (l : Lib) : Prop := ∀ x, (l.ops x).outDepCount ≤ maxDeps

theorem WithinLimit.newOp (h : WithinLimit l) (body : FfopBody) (options : Nat → Nat) :
    WithinLimit (newOp body options l).2 := by
  intro x
  rw [newOp_out]
  split
  · exact Nat.zero_le _
  · exact h x

theorem WithinLimit.ffopHbChecked (h : WithinLimit l)
    (hroom : (l.ops first).outDepCount < maxDeps) :
    WithinLimit (ffopHbChecked (some first) (some second) l).lib := by
  intro x
  have hx := h x
  rw [ffopHbChecked_of_le (Nat.le_of_lt hroom)]
  simp only [hbLib_out]
  split
  · next heq =>
      subst heq
      omega
  · omega

theorem WithinLimit.ffopHbIf {c : Prop} [Decidable c] (h : WithinLimit l)
    (hroom : c → (l.ops first).outDepCount < maxDeps) :
    WithinLimit (ffopHbIf c first second l).lib := by
  unfold Fflib.ffopHbIf
  split
  · next hc => exact h.ffopHbChecked (hroom hc)
  · exact h

variable {s : FfSchedule} {op : Nat}

theorem mem_addOpCalls_begin (hin : (l.ops op).inDepCount = 0) :
    (s.beginOp, op, l.setSchedNext op s.oplist) ∈ addOpCalls s op l := by
  simp [addOpCalls, hin]

/-- The calls in `ffschedule_add_op` have room when `begin_op` has room. -/
theorem addOpCalls_room
    (hroom : (l.ops op).inDepCount = 0 → (l.ops s.beginOp).outDepCount < maxDeps) :
    ∀ c ∈ addOpCalls s op l, (c.2.2.ops c.1).outDepCount < maxDeps := by
  intro c hc
  simp only [addOpCalls, List.mem_append, List.mem_ite_nil_right, List.mem_singleton] at hc
  rcases hc with ⟨hin, rfl⟩ | ⟨hout, rfl⟩
  · rw [setSchedNext_in] at hin
    simp only [setSchedNext_out]
    exact hroom hin
  · simp only [hout]
    decide

theorem addOpLimited_iff :
    AddOpLimited s op l (ffscheduleAddOpChecked s op l).2 ↔
      ((l.ops op).inDepCount = 0 → (l.ops s.beginOp).outDepCount < maxDeps) := by
  constructor
  · intro h hin
    have hcall := hbLimited_iff.mp (h.calls _ (mem_addOpCalls_begin hin))
    simpa only [setSchedNext_out] using hcall
  · intro hroom
    have hlt := addOpCalls_room hroom
    constructor
    · intro c hc
      exact hbLimited_iff.mpr (hlt c hc)
    · intro c hc hle
      have := hlt c hc
      omega

theorem WithinLimit.ffscheduleAddOpChecked (h : WithinLimit l)
    (hroom : (l.ops op).inDepCount = 0 → (l.ops s.beginOp).outDepCount < maxDeps) :
    WithinLimit (ffscheduleAddOpChecked s op l).2.lib := by
  have h₀ : WithinLimit (l.setSchedNext op s.oplist) := by
    intro x
    rw [setSchedNext_out]
    exact h x
  refine (h₀.ffopHbIf ?_).ffopHbIf ?_
  · rw [setSchedNext_in, setSchedNext_out]
    exact hroom
  · intro hout
    rw [hout]
    decide

end Calls

/-! ### Runs -/

section Runs

variable {σ : Type u} {impl : Impl σ} {c c' : Client σ} {call : CheckedCall σ}

theorem withinLimit_init (e : σ) : WithinLimit (Client.init e).lib := fun _ => Nat.zero_le _

/-- A thread reads below `out_dep_count`. -/
theorem WithinLimit.reads (h : WithinLimit c.lib) (act : UserAct σ) :
    ∀ i ∈ c.reads act, i < maxDeps := by
  intro i hi
  unfold Client.reads at hi
  split at hi
  · split at hi
    · next x j _ _ =>
        obtain ⟨hlt, hij⟩ := List.mem_ite_nil_right.mp hi
        have hx := h x
        rw [List.mem_singleton.mp hij]
        omega
    · cases hi
  · cases hi

theorem WithinLimit.limitLaw_iff_hasRoom (h : WithinLimit c.lib) (call : CheckedCall σ) :
    LimitLaw c call ↔ HasRoom c call := by
  cases call with
  | create body options => exact Iff.rfl
  | scheduleCreate => exact Iff.rfl
  | hb first second =>
      cases first with
      | none => exact Iff.rfl
      | some first =>
          cases second with
          | none => exact Iff.rfl
          | some second => exact hbLimited_iff
  | addOp k op => exact forall_congr' fun s => imp_congr_right fun _ => addOpLimited_iff
  | engine act => exact iff_of_true (h.reads act) trivial

/-- Step lemma. -/
theorem WithinLimit.step (h : WithinLimit c.lib) (hroom : HasRoom c call)
    (hs : checkedStep impl c call = some c') : WithinLimit c'.lib := by
  cases call with
  | create body options =>
      obtain rfl := Option.some.inj hs
      exact h.newOp body (fun _ => options)
  | scheduleCreate =>
      obtain rfl := Option.some.inj hs
      have h₀ : WithinLimit { c.lib with schedid := c.lib.schedid + 1 } := h
      exact (h₀.newOp .nop (fun _ => 0)).newOp .nop (fun _ => 0)
  | hb first second =>
      simp only [checkedStep] at hs
      split at hs
      · obtain rfl := Option.some.inj hs
        intro x
        cases first with
        | none => exact h x
        | some first =>
            cases second with
            | none => exact h x
            | some second => exact h.ffopHbChecked hroom x
      · cases hs
  | addOp k op =>
      simp only [checkedStep] at hs
      split at hs
      · obtain ⟨s, hk, rfl⟩ := Option.map_eq_some_iff.mp hs
        exact h.ffscheduleAddOpChecked (hroom s hk)
      · cases hs
  | engine act =>
      obtain ⟨_, _, hsame⟩ := Client.engineStep_spec hs
      intro x
      rw [(hsame x).out_eq]
      exact h x

/-- **Dependency limit**: it is enforced in all steps of a run iff every edge is added
when its source has fewer than `MAX_DEPS` dependents. -/
theorem limitLaw_iff (impl : Impl σ) (e : σ) (calls : List (CheckedCall σ)) :
    RunMeets (checkedStep impl) LimitLaw (Client.init e) calls ↔
      RunMeets (checkedStep impl) HasRoom (Client.init e) calls := by
  have hiff : ∀ (c : Client σ) (call : CheckedCall σ), WithinLimit c.lib →
      (LimitLaw c call ↔ HasRoom c call) := fun c call h => h.limitLaw_iff_hasRoom call
  have hstep : ∀ (c : Client σ) (call : CheckedCall σ) (c' : Client σ), WithinLimit c.lib →
      HasRoom c call → checkedStep impl c call = some c' → WithinLimit c'.lib :=
    fun c call c' h hroom hs => h.step hroom hs
  constructor
  · exact RunMeets.of_invariant
      (fun c call c' h hlaw hs => hstep c call c' h ((hiff c call h).mp hlaw) hs)
      (fun c call h => (hiff c call h).mp) calls _ (withinLimit_init e)
  · exact RunMeets.of_invariant hstep (fun c call h => (hiff c call h).mpr) calls _
      (withinLimit_init e)

end Runs

/-! ### Eleven sinks of one operation -/

def fanCalls : List (CheckedCall Unit) :=
  List.replicate 12 (.create .nop ffopDepAnd) ++
    (List.range 10).map (fun i => .hb (some 0) (some (i + 1)))

/-- The eleventh dependent of an operation is stored behind its array. -/
theorem limitLaw_fails :
    ¬ ∀ (e : Unit) (calls : List (CheckedCall Unit)),
      RunMeets (checkedStep asyncImpl) LimitLaw (Client.init e) calls := by
  intro hall
  have hlaw := (hall () (fanCalls ++ [.hb (some 0) (some 11)])).last rfl
  exact absurd (hbLimited_iff.mp hlaw) (by decide)

end Fflib
