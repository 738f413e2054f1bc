import Fflib.Arman
import Fflib.Ffop
import Fflib.Library.Machine

/-!
# Reduction operators

`ffop_gcomp_operator.c`: the table of the built-in operators, the table of the
custom ones with its index manager, and the lookup by handle.

**Handles.**  An operator handle is an `int`: a built-in operator is named by its
index in `operators`, a custom one by its index in `custom_operators` plus `FFCUSTOM`.
The two ranges do not meet, and the lookup compares with three different constants.

**Tables.**  The tables are arrays in static memory, blank before
`ffop_gcomp_operator_init`; a read or a store outside of them is undefined behaviour
and answered by `none`, as is an assertion that fails in the index manager.

* `OperatorState` carries, beside the tables, what a history of calls has registered
  under every handle.
* `OperatorInv` is its invariant; `operator_lookup_iff` says for which histories and
  handles the lookup finds what has been registered.
-/

namespace Fflib

open Library

universe u

variable {F : Type u}

/-- The handles and limits of `ff.h` and `ffop_gcomp_operator.h`. -/
def ffSum : Int := 0
def ffProd : Int := 1
def ffMax : Int := 2
def ffMin : Int := 3
def ffoperatorSentinel : Int := 5
def ffCustom : Int := 6
def ffmaxCustomOperators : Int := 32

/-- `FFNONE`, stored in a `uint32_t`. -/
def ffNoneU32 : Nat := 2 ^ 32 - 1

/-- `ffop_gcomp_operator_t`; `F` are the functions, and a null pointer is `none`. -/
structure GcompOperator (F : Type u) where
  type : Nat
  commutative : Int
  idx : Int
  opFun : Option F

/-- An entry of a table that nothing has been written to. -/
def GcompOperator.blank : GcompOperator F := ⟨0, 0, 0, none⟩

/-- The static variables of `ffop_gcomp_operator.c`. -/
structure OperatorTable (F : Type u) where
  operators : Nat → GcompOperator F
  customOperators : Nat → GcompOperator F
  customIdx : Ffarman

/-- `ffop_gcomp_operator_init`; `sum` and `copy` are `ffop_gcomp_operator_sum` and
`ffop_gcomp_operator_copy`, `mem` is what `malloc` returns. -/
def ffopGcompOperatorInit (sum copy : F) (mem : Nat → ArmanEntry) : OperatorTable F where
  operators :=
    Function.update
      (Function.update (fun _ => .blank) ffSum.toNat ⟨ffSum.toNat, 1, ffSum, some sum⟩)
      ffIdentity.toNat ⟨ffIdentity.toNat, 1, ffIdentity, some copy⟩
  customOperators _ := .blank
  customIdx := ffarmanCreate ffmaxCustomOperators.toNat mem

/-- `ffop_gcomp_operator_get`. -/
def ffopGcompOperatorGet (opidx : Int) (T : OperatorTable F) :
    Option (Except Int (GcompOperator F)) :=
  if opidx < 0 then some (.error ffInvalidArg)
  else if opidx < ffoperatorSentinel then some (.ok (T.operators opidx.toNat))
  else
    let opidx := opidx - ffCustom
    if opidx < ffmaxCustomOperators then
      if 0 ≤ opidx then some (.ok (T.customOperators opidx.toNat)) else none
    else some (.error ffInvalidArg)

/-- The code that `ffcomp_b` returns, which is that of `ffop_gcomp_init`. -/
def ffcompBCode (ffoperator : Int) (T : OperatorTable F) : Option Int :=
  (ffopGcompOperatorGet ffoperator T).map fun
    | .ok _ => ffSuccess
    | .error e => e

/-- `ffop_gcomp_operator_custom_create`: the handle, and the table.  The test `idx<0` of a
`uint32_t` never succeeds. -/
def ffopGcompOperatorCustomCreate (fn : F) (commutative : Int) (T : OperatorTable F) :
    Option (Int × OperatorTable F) :=
  let r := ffarmanGet T.customIdx
  if (r.1 : Int) < ffmaxCustomOperators then
    some (r.1 + ffCustom,
      { operators := T.operators
        customOperators := Function.update T.customOperators r.1
          ⟨ffCustom.toNat, commutative, r.1, some fn⟩
        customIdx := r.2 })
  else none

/-- `ffop_gcomp_operator_custom_delete`: the code, and the table. -/
def ffopGcompOperatorCustomDelete (opidx : Int) (T : OperatorTable F) :
    Option (Int × OperatorTable F) :=
  let opidx := opidx - ffCustom
  if ffmaxCustomOperators ≤ opidx then some (ffError, T)
  else if opidx < 0 then none
  else if (T.customOperators opidx.toNat).type = ffNoneU32 then some (ffError, T)
  else
    (ffarmanPut T.customIdx opidx.toNat).map fun customIdx =>
      (ffSuccess,
        { operators := T.operators
          customOperators := Function.update T.customOperators opidx.toNat
            { T.customOperators opidx.toNat with type := ffNoneU32 }
          customIdx := customIdx })

/-! ### Histories -/

/-- A call of `ffcomp_operator_create` or `ffcomp_operator_delete`. -/
inductive OperatorCall (F : Type u) where
  | create (fn : F) (commutative : Int)
  | delete (handle : Int)

/-- The tables, and the function that each live custom handle has been given last. -/
structure OperatorState (F : Type u) where
  table : OperatorTable F
  live : Int → Option F

/-- One call of a history. -/
def operatorStep (s : OperatorState F) : OperatorCall F → Option (OperatorState F)
  | .create fn commutative =>
      (ffopGcompOperatorCustomCreate fn commutative s.table).map fun r =>
        { table := r.2, live := Function.update s.live r.1 (some fn) }
  | .delete handle =>
      (ffopGcompOperatorCustomDelete handle s.table).map fun r =>
        { table := r.2, live := Function.update s.live handle none }

/-- After `ffop_gcomp_operator_init` no custom handle is live. -/
def operatorStart (sum copy : F) (mem : Nat → ArmanEntry) : OperatorState F where
  table := ffopGcompOperatorInit sum copy mem
  live _ := none

/-- The function that a handle stands for: a built-in operator that has an implementation,
or a live custom one. -/
def OperatorState.meaning (sum copy : F) (s : OperatorState F) (h : Int) : Option F :=
  if h = ffSum then some sum else if h = ffIdentity then some copy else s.live h

/-- The lookup of a handle finds the function that it stands for, or fails. -/
def LookupOk (sum copy : F) (s : OperatorState F) (h : Int) : Prop :=
  match s.meaning sum copy h with
  | some fn =>
      ∃ d, ffopGcompOperatorGet h s.table = some (.ok d) ∧ d.opFun = some fn ∧
        ffcompBCode h s.table = some ffSuccess
  | none =>
      ffopGcompOperatorGet h s.table = some (.error ffInvalidArg) ∧
        ffcompBCode h s.table = some ffInvalidArg

/-- The lookup law for one history and one handle. -/
def LookupLaw (sum copy : F) (mem : Nat → ArmanEntry) (as : List (OperatorCall F)) (h : Int) :
    Prop :=
  ∃ t, run operatorStep (operatorStart sum copy mem) as = some t ∧ LookupOk sum copy t h

/-- The call finds what it needs: a create a free index, and a delete an entry of the
table, with an index to take back unless the entry has been deleted already. -/
def OperatorCall.Served (s : OperatorState F) : OperatorCall F → Prop
  | .create _ _ => s.table.customIdx.freeEntries ≠ none
  | .delete h => ffCustom ≤ h ∧
      (h < ffCustom + ffmaxCustomOperators →
        (s.table.customOperators (h - ffCustom).toNat).type = ffNoneU32 ∨
          s.table.customIdx.freeFreeEntries ≠ none)

/-- The invariant of the tables; `free` are the indices that the manager has to give. -/
structure OperatorInv (sum copy : F) (s : OperatorState F) (free : List Nat) : Prop where
  operators_eq : s.table.operators = (ffopGcompOperatorInit sum copy
    (fun _ => ⟨0, none⟩)).operators
  holds : s.table.customIdx.Holds ffmaxCustomOperators.toNat free
  free_lt : ∀ i ∈ free, i < ffmaxCustomOperators.toNat
  live_lt : ∀ h fn, s.live h = some fn → ffCustom ≤ h ∧ h < ffCustom + ffmaxCustomOperators
  live_eq : ∀ h fn, s.live h = some fn →
    (s.table.customOperators (h - ffCustom).toNat).opFun = some fn

/-- A handle in the range of the custom ones answers with its entry. -/
theorem ffopGcompOperatorGet_custom (T : OperatorTable F) {h : Int} (hle : ffCustom ≤ h)
    (hlt : h < ffCustom + ffmaxCustomOperators) : ffopGcompOperatorGet h T =
      some (.ok (T.customOperators (h - ffCustom).toNat)) := by
  have h5 : ffoperatorSentinel ≤ h := by
    rw [ffCustom] at hle
    rw [ffoperatorSentinel]
    omega
  have h0 : ¬ h < 0 := by
    rw [ffCustom] at hle
    omega
  rw [ffopGcompOperatorGet, if_neg h0, if_neg (by omega)]
  simp only
  rw [if_pos (by omega), if_pos (by omega)]

/-- A handle that `ffcomp_operator_create` has returned leads to its function. -/
theorem ffopGcompOperatorGet_of_create {T T' : OperatorTable F} {fn : F} {commutative h : Int}
    (hc : ffopGcompOperatorCustomCreate fn commutative T = some (h, T')) :
    ffCustom ≤ h ∧ ∃ d, ffopGcompOperatorGet h T' = some (.ok d) ∧ d.opFun = some fn := by
  simp only [ffopGcompOperatorCustomCreate] at hc
  split at hc
  · next hlt =>
      obtain ⟨rfl, rfl⟩ := Prod.mk.inj (Option.some.inj hc)
      refine ⟨by omega, _, ffopGcompOperatorGet_custom _ (by omega) (by omega), ?_⟩
      simp
  · cases hc

section Histories

variable {sum copy : F} {s s' : OperatorState F} {free : List Nat}

theorem operatorInv_start (sum copy : F) (mem : Nat → ArmanEntry) :
    OperatorInv sum copy (operatorStart sum copy mem)
      (List.range ffmaxCustomOperators.toNat) where
  operators_eq := rfl
  holds := ffarmanCreate_holds (by decide) mem
  free_lt i hi := List.mem_range.mp hi
  live_lt h fn hl := by cases hl
  live_eq h fn hl := by cases hl

namespace OperatorInv

variable (hinv : OperatorInv sum copy s free)
include hinv

/-- Step lemma: `ffcomp_operator_create`. -/
theorem create {fn : F} {commutative : Int}
    (hs : operatorStep s (.create fn commutative) = some s') :
    ∃ free', OperatorInv sum copy s' free' := by
  cases hfree : free with
  | nil =>
      subst hfree
      have hget := ffarmanGet_of_nil hinv.holds
      simp only [operatorStep, ffopGcompOperatorCustomCreate, hget] at hs
      cases hs
  | cons i free' =>
      subst hfree
      obtain ⟨hidx, hholds⟩ := ffarmanGet_of_cons hinv.holds
      have hlt := hinv.free_lt i (List.mem_cons_self ..)
      have hlt' : (i : Int) < ffmaxCustomOperators := by
        rw [ffmaxCustomOperators] at hlt ⊢
        omega
      simp only [operatorStep, ffopGcompOperatorCustomCreate, hidx, if_pos hlt',
        Option.map_some, Option.some.injEq] at hs
      subst hs
      refine ⟨free', hinv.operators_eq, hholds, fun j hj => hinv.free_lt j
        (List.mem_cons_of_mem _ hj), fun h g hl => ?_, fun h g hl => ?_⟩
      · have hl : Function.update s.live (i + ffCustom) (some fn) h = some g := hl
        by_cases hh : h = i + ffCustom
        · rw [hh]
          omega
        · rw [Function.update_of_ne hh] at hl
          exact hinv.live_lt h g hl
      · have hl : Function.update s.live (i + ffCustom) (some fn) h = some g := hl
        by_cases hh : h = i + ffCustom
        · have hi : (h - ffCustom).toNat = i := by omega
          rw [hh, Function.update_self] at hl
          rw [hi]
          simpa using hl
        · rw [Function.update_of_ne hh] at hl
          have hi : (h - ffCustom).toNat ≠ i := by
            have := (hinv.live_lt h g hl).1
            omega
          simpa [hi] using hinv.live_eq h g hl

/-- Step lemma: `ffcomp_operator_delete`. -/
theorem delete {h : Int} (hs : operatorStep s (.delete h) = some s') :
    ∃ free', OperatorInv sum copy s' free' := by
  have hlive : ∀ g fn, Function.update s.live h none g = some fn → s.live g = some fn ∧ g ≠ h := by
    intro g fn hl
    by_cases hg : g = h
    · rw [hg, Function.update_self] at hl
      cases hl
    · rw [Function.update_of_ne hg] at hl
      exact ⟨hl, hg⟩
  simp only [operatorStep, ffopGcompOperatorCustomDelete] at hs
  split at hs
  · obtain rfl := Option.some.inj hs
    exact ⟨free, hinv.operators_eq, hinv.holds, hinv.free_lt,
      fun g fn hl => hinv.live_lt g fn (hlive g fn hl).1,
      fun g fn hl => hinv.live_eq g fn (hlive g fn hl).1⟩
  · split at hs
    · cases hs
    · split at hs
      · obtain rfl := Option.some.inj hs
        exact ⟨free, hinv.operators_eq, hinv.holds, hinv.free_lt,
          fun g fn hl => hinv.live_lt g fn (hlive g fn hl).1,
          fun g fn hl => hinv.live_eq g fn (hlive g fn hl).1⟩
      · next hmax hmin htype =>
          obtain ⟨r, hr, rfl⟩ := Option.map_eq_some_iff.mp hs
          obtain ⟨customIdx, hput, rfl⟩ := Option.map_eq_some_iff.mp hr
          have hspare : free.length < ffmaxCustomOperators.toNat := by
            refine lt_of_le_of_ne hinv.holds.length_le (fun hall => ?_)
            have hnone := hinv.holds.freeFreeEntries_eq_none.mpr hall
            simp only [ffarmanPut, hnone, Option.map_none] at hput
            cases hput
          obtain ⟨array, harray, hholds⟩ :=
            ffarmanPut_spec hinv.holds hspare (h - ffCustom).toNat
          obtain rfl := Option.some.inj (harray.symm.trans hput)
          refine ⟨_, hinv.operators_eq, hholds, fun i hi => ?_,
            fun g fn hl => hinv.live_lt g fn (hlive g fn hl).1, fun g fn hl => ?_⟩
          · rcases List.mem_cons.mp hi with rfl | hi
            · omega
            · exact hinv.free_lt i hi
          · obtain ⟨hl, hg⟩ := hlive g fn hl
            have hne : (g - ffCustom).toNat ≠ (h - ffCustom).toNat := by
              have := (hinv.live_lt g fn hl).1
              omega
            simpa [hne] using hinv.live_eq g fn hl

/-- Step lemma. -/
theorem step {a : OperatorCall F} (hs : operatorStep s a = some s') :
    ∃ free', OperatorInv sum copy s' free' := by
  cases a with
  | create fn commutative => exact hinv.create hs
  | delete h => exact hinv.delete hs

/-- A call that does not find what it needs leaves its table, or the index manager stops
it. -/
theorem isSome_iff (a : OperatorCall F) :
    (operatorStep s a).isSome = true ↔ a.Served s := by
  cases a with
  | create fn commutative =>
      rw [OperatorCall.Served, Ne, hinv.holds.freeEntries_eq_none]
      cases hfree : free with
      | nil =>
          subst hfree
          have hget := ffarmanGet_of_nil hinv.holds
          simp [operatorStep, ffopGcompOperatorCustomCreate, hget, ffmaxCustomOperators]
      | cons i free' =>
          subst hfree
          have hidx := (ffarmanGet_of_cons hinv.holds).1
          have hlt := hinv.free_lt i (List.mem_cons_self ..)
          have hlt' : (i : Int) < ffmaxCustomOperators := by
            rw [ffmaxCustomOperators] at hlt ⊢
            omega
          simp [operatorStep, ffopGcompOperatorCustomCreate, hidx, hlt']
  | delete h =>
      rw [OperatorCall.Served]
      simp only [operatorStep, ffopGcompOperatorCustomDelete]
      split
      · next hmax =>
          refine iff_of_true rfl ⟨?_, fun hlt => ?_⟩ <;>
            simp only [ffmaxCustomOperators, ffCustom] at * <;> omega
      · next hmax =>
          split
          · next hmin =>
              refine iff_of_false (by simp) (fun hserved => ?_)
              omega
          · next hmin =>
              have hle : ffCustom ≤ h := by omega
              have hlt : h < ffCustom + ffmaxCustomOperators := by omega
              split
              · next htype => exact iff_of_true rfl ⟨hle, fun _ => Or.inl htype⟩
              · next htype =>
                  simp [ffarmanPut, hle, hlt, htype, Option.isSome_iff_ne_none]

theorem live_eq_none {h : Int}
    (hout : h < ffCustom ∨ ffCustom + ffmaxCustomOperators ≤ h) : s.live h = none := by
  cases hl : s.live h with
  | none => rfl
  | some fn =>
      have := hinv.live_lt h fn hl
      omega

/-- The lookup of a built-in handle. -/
theorem lookupOk_builtin {h : Int} (h0 : 0 ≤ h) (hlt : h < ffoperatorSentinel) :
    LookupOk sum copy s h ↔ h = ffSum ∨ h = ffIdentity := by
  have hget : ffopGcompOperatorGet h s.table = some (.ok (s.table.operators h.toNat)) := by
    rw [ffopGcompOperatorGet, if_neg (by omega), if_pos hlt]
  have hlive : s.live h = none := hinv.live_eq_none (Or.inl (by
    rw [ffoperatorSentinel] at hlt
    rw [ffCustom]
    omega))
  rw [LookupOk, OperatorState.meaning, hlive, ffcompBCode, hget, hinv.operators_eq]
  by_cases hsum : h = ffSum
  · subst hsum
    exact iff_of_true ⟨_, rfl, rfl, rfl⟩ (Or.inl rfl)
  · by_cases hid : h = ffIdentity
    · subst hid
      exact iff_of_true ⟨_, rfl, rfl, rfl⟩ (Or.inr rfl)
    · rw [if_neg hsum, if_neg hid]
      exact iff_of_false (by simp) (by simp [hsum, hid])

/-- The lookup of a custom handle answers with its entry, live or not. -/
theorem lookupOk_custom {h : Int} (hle : ffCustom ≤ h)
    (hlt : h < ffCustom + ffmaxCustomOperators) :
    LookupOk sum copy s h ↔ ∃ fn, s.live h = some fn := by
  have hmeaning : s.meaning sum copy h = s.live h := by
    rw [ffCustom] at hle
    rw [OperatorState.meaning, if_neg (by rw [ffSum]; omega), if_neg (by rw [ffIdentity]; omega)]
  rw [LookupOk, hmeaning, ffcompBCode, ffopGcompOperatorGet_custom _ hle hlt]
  cases hl : s.live h with
  | none => exact iff_of_false (by simp) (by simp)
  | some fn => exact iff_of_true ⟨_, rfl, hinv.live_eq h fn hl, rfl⟩ ⟨fn, rfl⟩

/-- A handle that is out of all ranges is rejected. -/
theorem lookupOk_rejected {h : Int} (hout : h < 0 ∨ ffCustom + ffmaxCustomOperators ≤ h) :
    LookupOk sum copy s h := by
  have hget : ffopGcompOperatorGet h s.table = some (.error ffInvalidArg) := by
    rw [ffopGcompOperatorGet]
    rcases hout with hneg | hge
    · rw [if_pos hneg]
    · simp only [ffCustom, ffmaxCustomOperators] at hge
      rw [if_neg (by omega), if_neg (by rw [ffoperatorSentinel]; omega)]
      simp only
      rw [if_neg (by rw [ffCustom, ffmaxCustomOperators]; omega)]
  have hmeaning : s.meaning sum copy h = none := by
    simp only [ffCustom, ffmaxCustomOperators] at hout
    rw [OperatorState.meaning, if_neg (by rw [ffSum]; omega), if_neg (by rw [ffIdentity]; omega)]
    refine hinv.live_eq_none ?_
    rw [ffCustom, ffmaxCustomOperators]
    omega
  rw [LookupOk, hmeaning, ffcompBCode, hget]
  exact ⟨rfl, rfl⟩

/-- The handle between the two ranges reads the entry before the table. -/
theorem not_lookupOk_sentinel : ¬ LookupOk sum copy s ffoperatorSentinel := by
  have hget : ffopGcompOperatorGet ffoperatorSentinel s.table = none := rfl
  have hmeaning : s.meaning sum copy ffoperatorSentinel = none :=
    hinv.live_eq_none (Or.inl (by decide))
  rw [LookupOk, hmeaning, hget]
  simp

/-- **Lookup** in a state of a history. -/
theorem lookupOk_iff (h : Int) : LookupOk sum copy s h ↔
    h ∉ [ffProd, ffMax, ffMin, ffoperatorSentinel] ∧
      (ffCustom ≤ h → h < ffCustom + ffmaxCustomOperators → ∃ fn, s.live h = some fn) := by
  simp only [List.mem_cons, List.not_mem_nil, or_false, not_or]
  by_cases hout : h < 0 ∨ ffCustom + ffmaxCustomOperators ≤ h
  · refine iff_of_true (hinv.lookupOk_rejected hout) ?_
    simp only [ffCustom, ffmaxCustomOperators, ffProd, ffMax, ffMin, ffoperatorSentinel] at hout ⊢
    omega
  · obtain ⟨h0, hmax⟩ := not_or.mp hout
    by_cases hcustom : ffCustom ≤ h
    · have hlt : h < ffCustom + ffmaxCustomOperators := by omega
      rw [hinv.lookupOk_custom hcustom hlt]
      refine ⟨fun hl => ⟨?_, fun _ _ => hl⟩, fun hl => hl.2 hcustom hlt⟩
      simp only [ffCustom, ffProd, ffMax, ffMin, ffoperatorSentinel] at hcustom ⊢
      omega
    · by_cases hsent : h = ffoperatorSentinel
      · subst hsent
        exact iff_of_false hinv.not_lookupOk_sentinel (fun hno => hno.1.2.2.2 rfl)
      · have hlt : h < ffoperatorSentinel := by
          simp only [ffCustom, ffoperatorSentinel] at hcustom hsent ⊢
          omega
        rw [hinv.lookupOk_builtin (by omega) hlt]
        simp only [ffCustom, ffoperatorSentinel, ffSum, ffIdentity, ffProd, ffMax, ffMin]
          at hcustom hlt hsent ⊢
        omega

end OperatorInv

/-- **Operator lookup.**  After a history the lookup of a handle finds what the handle stands
for iff every call of the history was served, the handle is none of `FFPROD`, `FFMAX`, `FFMIN`
and `FFOPERATOR_SENTINEL`, and it is live if it is in the custom range. -/
theorem operator_lookup_iff (sum copy : F) (mem : Nat → ArmanEntry)
    (as : List (OperatorCall F)) (h : Int) :
    LookupLaw sum copy mem as h ↔
      RunMeets operatorStep (fun s a => a.Served s) (operatorStart sum copy mem) as ∧
        h ∉ [ffProd, ffMax, ffMin, ffoperatorSentinel] ∧
        (ffCustom ≤ h → h < ffCustom + ffmaxCustomOperators →
          ∃ t fn, run operatorStep (operatorStart sum copy mem) as = some t ∧
            t.live h = some fn) := by
  have hstart := operatorInv_start sum copy mem
  have hkeep : ∀ (s : OperatorState F) a s', (∃ free, OperatorInv sum copy s free) →
      operatorStep s a = some s' → ∃ free, OperatorInv sum copy s' free :=
    fun s a s' hinv hs => hinv.elim (fun _ h => h.step hs)
  have hruns := exists_run_iff_meets (C := fun s a => a.Served s) hkeep
    (fun s a hinv => hinv.elim (fun _ h => h.isSome_iff a)) as _ ⟨_, hstart⟩
  rw [← hruns]
  constructor
  · rintro ⟨t, ht, hok⟩
    obtain ⟨free, hinv⟩ := run_induction hkeep as _ t ⟨_, hstart⟩ ht
    obtain ⟨hno, hlive⟩ := (hinv.lookupOk_iff h).mp hok
    exact ⟨⟨t, ht⟩, hno, fun hle hlt => (hlive hle hlt).imp' _ (fun fn hl => ⟨fn, ht, hl⟩)⟩
  · rintro ⟨⟨t, ht⟩, hno, hlive⟩
    obtain ⟨free, hinv⟩ := run_induction hkeep as _ t ⟨_, hstart⟩ ht
    refine ⟨t, ht, (hinv.lookupOk_iff h).mpr ⟨hno, fun hle hlt => ?_⟩⟩
    obtain ⟨t', fn, ht', hl⟩ := hlive hle hlt
    obtain rfl := Option.some.inj (ht.symm.trans ht')
    exact ⟨fn, hl⟩

/-- `FFPROD` is looked up and has no function. -/
theorem operator_lookup_fails : ¬ ∀ (sum copy : Nat) (mem : Nat → ArmanEntry)
    (as : List (OperatorCall Nat)) (h : Int), LookupLaw sum copy mem as h := by
  intro hall
  obtain ⟨t, ht, hok⟩ := hall 0 1 (fun _ => ⟨0, none⟩) [] ffProd
  obtain rfl := Option.some.inj ht
  have hinv := operatorInv_start 0 1 (fun _ => ⟨0, none⟩)
  exact ((hinv.lookupOk_iff ffProd).mp hok).1 (List.mem_cons_self ..)

end Histories

end Fflib
