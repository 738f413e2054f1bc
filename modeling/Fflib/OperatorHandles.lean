import Fflib.Operator
import Mathlib.Data.Finset.Card
import Mathlib.Data.Finset.Option

/-!
# Handles of custom operators

Histories of `ffcomp_operator_create` and `ffcomp_operator_delete` with any handles, and
which of the handles are live (`handleStep`).

An entry of the table tells by its type whether its handle is live; the type of an entry that
was never used is `0`, which is not `FFNONE`.  The answer of an index manager that has run out
of indices is taken for an index.

* `HandleInv` relates the types of the entries, the index manager and the handles.
* `operatorHandles_iff`: the calls of a history are answered as they should iff each create
  finds fewer than `FFMAX_CUSTOM_OPERATORS` live operators and each handle that is deleted was
  returned before, or is behind the table.
-/

namespace Fflib

open Library

universe u

variable {F : Type u}

/-- `ffcomp_operator_create`: the code, the handle that is written, and the table. -/
def ffcompOperatorCreate (fn : F) (commutative : Int) (T : OperatorTable F) :
    Option (Int × Option Int × OperatorTable F) :=
  (ffopGcompOperatorCustomCreate fn commutative T).map fun r => (ffSuccess, some r.1, r.2)

/-- `ffcomp_operator_delete`: the code, and the table. -/
def ffcompOperatorDelete (handle : Int) (T : OperatorTable F) :
    Option (Int × OperatorTable F) :=
  ffopGcompOperatorCustomDelete handle T

/-- The tables, the handles that are live, and all that have been returned. -/
structure HandleState (F : Type u) where
  table : OperatorTable F
  live : Finset Int
  issued : Finset Int

/-- One call of a history. -/
def handleStep (s : HandleState F) : OperatorCall F → Option (HandleState F)
  | .create fn commutative =>
      (ffcompOperatorCreate fn commutative s.table).map fun r =>
        { table := r.2.2
          live := s.live ∪ r.2.1.toFinset
          issued := s.issued ∪ r.2.1.toFinset }
  | .delete h =>
      (ffcompOperatorDelete h s.table).map fun r =>
        { table := r.2
          live := if r.1 = ffSuccess then s.live.erase h else s.live
          issued := s.issued }

/-- After `ffop_gcomp_operator_init`. -/
def handleStart (sum copy : F) (mem : Nat → ArmanEntry) : HandleState F where
  table := ffopGcompOperatorInit sum copy mem
  live := ∅
  issued := ∅

/-! ### What is asked of a call -/

/-- The entry of `h` is given back, and nothing else. -/
structure FreesEntry (h : Int) (T T' : OperatorTable F) : Prop where
  operators_eq : T'.operators = T.operators
  others_eq : ∀ i, i ≠ (h - ffCustom).toNat → T'.customOperators i = T.customOperators i
  type_eq : (T'.customOperators (h - ffCustom).toNat).type = ffNoneU32
  holds : ∀ free, T.customIdx.Holds ffmaxCustomOperators.toNat free →
    T'.customIdx.Holds ffmaxCustomOperators.toNat ((h - ffCustom).toNat :: free)

/-- A create returns a handle that is not live, or fails when there is none left. -/
structure CreateOk (s : HandleState F) (fn : F) (commutative : Int) : Prop where
  fresh : s.live.card < ffmaxCustomOperators.toNat → ∃ h T,
    ffcompOperatorCreate fn commutative s.table = some (ffSuccess, some h, T) ∧ h ∉ s.live
  full : ffmaxCustomOperators.toNat ≤ s.live.card →
    ffcompOperatorCreate fn commutative s.table = some (ffEnomem, none, s.table)

/-- A delete gives a live handle back, and refuses any other. -/
structure DeleteOk (s : HandleState F) (h : Int) : Prop where
  live : h ∈ s.live → ∃ T, ffcompOperatorDelete h s.table = some (ffSuccess, T) ∧
    FreesEntry h s.table T
  refused : h ∉ s.live → ffcompOperatorDelete h s.table = some (ffError, s.table)

def HandleLaw (s : HandleState F) : OperatorCall F → Prop
  | .create fn commutative => CreateOk s fn commutative
  | .delete h => DeleteOk s h

/-- A create while there is room, or a delete of a handle that has been returned before or is
behind the table. -/
def InRange (s : HandleState F) : OperatorCall F → Prop
  | .create _ _ => s.live.card < ffmaxCustomOperators.toNat
  | .delete h => h ∈ s.issued ∨ ffCustom + ffmaxCustomOperators ≤ h

/-! ### The invariant -/

/-- The handle of an entry. -/
def handleOf (i : Nat) : Int := i + ffCustom

/-- What the types of the entries and the index manager say about the handles; `free` are
the indices that the manager has to give. -/
structure HandleInv (s : HandleState F) (free : List Nat) : Prop where
  holds : s.table.customIdx.Holds ffmaxCustomOperators.toNat free
  free_nodup : free.Nodup
  free_iff : ∀ i, i ∈ free ↔ i < ffmaxCustomOperators.toNat ∧ handleOf i ∉ s.live
  count_eq : s.live.card + free.length = ffmaxCustomOperators.toNat
  live_sub : s.live ⊆ s.issued
  issued_range : ∀ h ∈ s.issued, ∃ i, i < ffmaxCustomOperators.toNat ∧ h = handleOf i
  type_live : ∀ i, handleOf i ∈ s.live → (s.table.customOperators i).type = ffCustom.toNat
  type_deleted : ∀ i, handleOf i ∈ s.issued → handleOf i ∉ s.live →
    (s.table.customOperators i).type = ffNoneU32
  type_unused : ∀ i, handleOf i ∉ s.issued → (s.table.customOperators i).type = 0

theorem handleOf_inj {i j : Nat} (h : handleOf i = handleOf j) : i = j := by
  simp only [handleOf] at h
  omega

@[simp] theorem handleOf_toNat (i : Nat) : (handleOf i - ffCustom).toNat = i := by
  simp only [handleOf]
  omega

theorem handleInv_start (sum copy : F) (mem : Nat → ArmanEntry) :
    HandleInv (handleStart sum copy mem) (List.range ffmaxCustomOperators.toNat) where
  holds := ffarmanCreate_holds (by decide) mem
  free_nodup := List.nodup_range
  free_iff i := by simp [handleStart]
  count_eq := by simp [handleStart]
  live_sub := Finset.Subset.refl _
  issued_range h hh := absurd hh (Finset.notMem_empty h)
  type_live i hi := absurd hi (Finset.notMem_empty _)
  type_deleted i hi := absurd hi (Finset.notMem_empty _)
  type_unused _ _ := rfl

/-! ### The calls -/

section Calls

variable {free : List Nat} {h : Int} {i : Nat}

/-- A create takes the first index. -/
theorem ffcompOperatorCreate_of_cons (fn : F) (commutative : Int) {T : OperatorTable F}
    (hholds : T.customIdx.Holds ffmaxCustomOperators.toNat (i :: free))
    (hi : i < ffmaxCustomOperators.toNat) :
    ∃ customIdx, ffcompOperatorCreate fn commutative T = some (ffSuccess, some (handleOf i),
        { operators := T.operators
          customOperators := Function.update T.customOperators i
            ⟨ffCustom.toNat, commutative, i, some fn⟩
          customIdx := customIdx }) ∧
      customIdx.Holds ffmaxCustomOperators.toNat free := by
  obtain ⟨hidx, hholds'⟩ := ffarmanGet_of_cons hholds
  have hlt : (i : Int) < ffmaxCustomOperators := by
    rw [ffmaxCustomOperators] at hi ⊢
    omega
  refine ⟨_, ?_, hholds'⟩
  simp only [ffcompOperatorCreate, ffopGcompOperatorCustomCreate, hidx, if_pos hlt,
    Option.map_some]
  rfl

/-- With no index left a create stores far behind the table. -/
theorem ffcompOperatorCreate_of_nil (fn : F) (commutative : Int) {T : OperatorTable F}
    (hholds : T.customIdx.Holds ffmaxCustomOperators.toNat []) :
    ffcompOperatorCreate fn commutative T = none := by
  have hget := ffarmanGet_of_nil hholds
  simp [ffcompOperatorCreate, ffopGcompOperatorCustomCreate, hget, ffmaxCustomOperators]

/-- A delete of a handle of the table, by the type of its entry. -/
theorem ffcompOperatorDelete_handleOf (hi : i < ffmaxCustomOperators.toNat)
    (T : OperatorTable F) :
    ffcompOperatorDelete (handleOf i) T =
      if (T.customOperators i).type = ffNoneU32 then some (ffError, T)
      else (ffarmanPut T.customIdx i).map fun customIdx =>
        (ffSuccess,
          { operators := T.operators
            customOperators := Function.update T.customOperators i
              { T.customOperators i with type := ffNoneU32 }
            customIdx := customIdx }) := by
  have hmax : ¬ ffmaxCustomOperators ≤ handleOf i - ffCustom := by
    simp only [handleOf, ffmaxCustomOperators] at hi ⊢
    omega
  have hmin : ¬ handleOf i - ffCustom < 0 := by
    simp only [handleOf]
    omega
  rw [ffcompOperatorDelete, ffopGcompOperatorCustomDelete]
  simp only [if_neg hmax, if_neg hmin, handleOf_toNat]

theorem ffcompOperatorDelete_behind (hh : ffCustom + ffmaxCustomOperators ≤ h)
    (T : OperatorTable F) : ffcompOperatorDelete h T = some (ffError, T) := by
  have hmax : ffmaxCustomOperators ≤ h - ffCustom := by omega
  rw [ffcompOperatorDelete, ffopGcompOperatorCustomDelete]
  exact if_pos hmax

/-- The entry before the table is read. -/
theorem ffcompOperatorDelete_before (hh : h < ffCustom) (T : OperatorTable F) :
    ffcompOperatorDelete h T = none := by
  have hmax : ¬ ffmaxCustomOperators ≤ h - ffCustom := by
    rw [ffmaxCustomOperators]
    omega
  have hmin : h - ffCustom < 0 := by omega
  rw [ffcompOperatorDelete, ffopGcompOperatorCustomDelete]
  simp only [if_neg hmax, if_pos hmin]

end Calls

/-! ### Steps -/

namespace HandleInv

variable {s s' : HandleState F} {free : List Nat} {fn : F} {commutative h : Int}

theorem live_range (hinv : HandleInv s free) (hh : h ∈ s.live) :
    ∃ i, i < ffmaxCustomOperators.toNat ∧ h = handleOf i :=
  hinv.issued_range h (hinv.live_sub hh)

/-- An index is left iff fewer than the maximum are live. -/
theorem free_eq_nil_iff (hinv : HandleInv s free) :
    free = [] ↔ ffmaxCustomOperators.toNat ≤ s.live.card := by
  have hcount := hinv.count_eq
  rw [← List.length_eq_zero_iff]
  omega

/-- Step lemma: a create takes the index `i`. -/
theorem create {i : Nat} (hinv : HandleInv s (i :: free)) {customIdx : Ffarman}
    (hholds : customIdx.Holds ffmaxCustomOperators.toNat free) :
    HandleInv
      { table :=
          { operators := s.table.operators
            customOperators := Function.update s.table.customOperators i
              ⟨ffCustom.toNat, commutative, i, some fn⟩
            customIdx := customIdx }
        live := insert (handleOf i) s.live
        issued := insert (handleOf i) s.issued } free := by
  obtain ⟨hi, hfresh⟩ := (hinv.free_iff i).mp (List.mem_cons_self ..)
  obtain ⟨hnotin, hnd⟩ := List.nodup_cons.mp hinv.free_nodup
  have hother : ∀ {j : Nat}, j ≠ i → handleOf j ≠ handleOf i :=
    fun hj heq => hj (handleOf_inj heq)
  constructor
  · exact hholds
  · exact hnd
  · intro j
    have hj := hinv.free_iff j
    rw [List.mem_cons] at hj
    rw [Finset.mem_insert, not_or]
    constructor
    · intro hjf
      obtain ⟨hlt, hlive⟩ := hj.mp (Or.inr hjf)
      have hji : j ≠ i := by
        rintro rfl
        exact hnotin hjf
      exact ⟨hlt, hother hji, hlive⟩
    · rintro ⟨hlt, hji, hlive⟩
      refine (hj.mpr ⟨hlt, hlive⟩).resolve_left ?_
      rintro rfl
      exact hji rfl
  · have hcount := hinv.count_eq
    rw [Finset.card_insert_of_notMem hfresh]
    rw [List.length_cons] at hcount
    omega
  · exact Finset.insert_subset_insert _ hinv.live_sub
  · intro h hh
    rcases Finset.mem_insert.mp hh with rfl | hh
    · exact ⟨i, hi, rfl⟩
    · exact hinv.issued_range h hh
  · intro j hj
    by_cases hji : j = i
    · simp [hji]
    · simp only [Function.update_of_ne hji]
      exact hinv.type_live j ((Finset.mem_insert.mp hj).resolve_left (hother hji))
  · intro j hj hlive
    rw [Finset.mem_insert, not_or] at hlive
    have hji : j ≠ i := by
      rintro rfl
      exact hlive.1 rfl
    simp only [Function.update_of_ne hji]
    exact hinv.type_deleted j ((Finset.mem_insert.mp hj).resolve_left hlive.1) hlive.2
  · intro j hj
    rw [Finset.mem_insert, not_or] at hj
    have hji : j ≠ i := by
      rintro rfl
      exact hj.1 rfl
    simp only [Function.update_of_ne hji]
    exact hinv.type_unused j hj.2

/-- A live handle has an index to give back. -/
theorem length_lt (hinv : HandleInv s free) (hh : h ∈ s.live) :
    free.length < ffmaxCustomOperators.toNat := by
  have hcount := hinv.count_eq
  have hpos := Finset.card_pos.mpr ⟨h, hh⟩
  omega

/-- Step lemma: a delete of the live handle of the entry `i`. -/
theorem delete {i : Nat} (hinv : HandleInv s free) (hlive : handleOf i ∈ s.live)
    {customIdx : Ffarman} (hholds : customIdx.Holds ffmaxCustomOperators.toNat (i :: free)) :
    HandleInv
      { table :=
          { operators := s.table.operators
            customOperators := Function.update s.table.customOperators i
              { s.table.customOperators i with type := ffNoneU32 }
            customIdx := customIdx }
        live := s.live.erase (handleOf i)
        issued := s.issued } (i :: free) := by
  obtain ⟨k, hk, heq⟩ := hinv.live_range hlive
  obtain rfl := handleOf_inj heq
  have hnotin : i ∉ free := fun hif => ((hinv.free_iff i).mp hif).2 hlive
  constructor
  · exact hholds
  · exact List.nodup_cons.mpr ⟨hnotin, hinv.free_nodup⟩
  · intro j
    rw [List.mem_cons, hinv.free_iff j, Finset.mem_erase, not_and_or, not_not]
    constructor
    · rintro (rfl | ⟨hlt, hj⟩)
      · exact ⟨hk, Or.inl rfl⟩
      · exact ⟨hlt, Or.inr hj⟩
    · rintro ⟨hlt, hj | hj⟩
      · exact Or.inl (handleOf_inj hj)
      · exact Or.inr ⟨hlt, hj⟩
  · have hcount := hinv.count_eq
    have hpos := Finset.card_pos.mpr ⟨_, hlive⟩
    rw [Finset.card_erase_of_mem hlive, List.length_cons]
    omega
  · exact (Finset.erase_subset _ _).trans hinv.live_sub
  · exact hinv.issued_range
  · intro j hj
    obtain ⟨hne, hj⟩ := Finset.mem_erase.mp hj
    have hji : j ≠ i := by
      rintro rfl
      exact hne rfl
    simp only [Function.update_of_ne hji]
    exact hinv.type_live j hj
  · intro j hj hdead
    by_cases hji : j = i
    · simp [hji]
    · simp only [Function.update_of_ne hji]
      refine hinv.type_deleted j hj (fun hjl => hdead (Finset.mem_erase.mpr ⟨?_, hjl⟩))
      exact fun heq => hji (handleOf_inj heq)
  · intro j hj
    have hji : j ≠ i := by
      rintro rfl
      exact hj (hinv.live_sub hlive)
    simp only [Function.update_of_ne hji]
    exact hinv.type_unused j hj

/-- The table answers a delete of a live handle, and gives its entry back. -/
theorem delete_live {i : Nat} (hinv : HandleInv s free) (hlive : handleOf i ∈ s.live) :
    ∃ customIdx, ffcompOperatorDelete (handleOf i) s.table = some (ffSuccess,
        { operators := s.table.operators
          customOperators := Function.update s.table.customOperators i
            { s.table.customOperators i with type := ffNoneU32 }
          customIdx := customIdx }) ∧
      customIdx.Holds ffmaxCustomOperators.toNat (i :: free) := by
  obtain ⟨k, hk, heq⟩ := hinv.live_range hlive
  obtain rfl := handleOf_inj heq
  have htype : (s.table.customOperators i).type ≠ ffNoneU32 := by
    rw [hinv.type_live i hlive]
    decide
  obtain ⟨customIdx, hput, hholds⟩ := ffarmanPut_spec hinv.holds (hinv.length_lt hlive) i
  refine ⟨customIdx, ?_, hholds⟩
  rw [ffcompOperatorDelete_handleOf hk, if_neg htype, hput]
  rfl

/-- A handle that was returned and is not live is refused. -/
theorem delete_deleted (hinv : HandleInv s free) (hissued : h ∈ s.issued) (hlive : h ∉ s.live) :
    ffcompOperatorDelete h s.table = some (ffError, s.table) := by
  obtain ⟨i, hi, rfl⟩ := hinv.issued_range h hissued
  rw [ffcompOperatorDelete_handleOf hi, if_pos (hinv.type_deleted i hissued hlive)]

/-- A handle of the table that was never returned is not refused. -/
theorem delete_unused {i : Nat} (hinv : HandleInv s free) (hi : i < ffmaxCustomOperators.toNat)
    (hunused : handleOf i ∉ s.issued) (T : OperatorTable F) :
    ffcompOperatorDelete (handleOf i) s.table ≠ some (ffError, T) := by
  have htype : (s.table.customOperators i).type ≠ ffNoneU32 := by
    rw [hinv.type_unused i hunused]
    decide
  rw [ffcompOperatorDelete_handleOf hi, if_neg htype]
  intro heq
  obtain ⟨customIdx, _, hcode⟩ := Option.map_eq_some_iff.mp heq
  exact absurd (congrArg Prod.fst hcode) (by simp [ffSuccess, ffError])

/-! ### The law -/

theorem createOk_iff (hinv : HandleInv s free) :
    CreateOk s fn commutative ↔ s.live.card < ffmaxCustomOperators.toNat := by
  constructor
  · intro hok
    by_contra hfull
    have hnil := hinv.free_eq_nil_iff.mpr (Nat.not_lt.mp hfull)
    have hnone := ffcompOperatorCreate_of_nil fn commutative (hnil ▸ hinv.holds)
    have hcode := hok.full (Nat.not_lt.mp hfull)
    rw [hnone] at hcode
    cases hcode
  · intro hroom
    constructor
    · intro _
      cases free with
      | nil => exact absurd (hinv.free_eq_nil_iff.mp rfl) (Nat.not_le.mpr hroom)
      | cons i free =>
          obtain ⟨hi, hfresh⟩ := (hinv.free_iff i).mp (List.mem_cons_self ..)
          obtain ⟨customIdx, hcreate, _⟩ :=
            ffcompOperatorCreate_of_cons fn commutative hinv.holds hi
          exact ⟨handleOf i, _, hcreate, hfresh⟩
    · exact fun hfull => absurd hroom (Nat.not_lt.mpr hfull)

theorem deleteOk_iff (hinv : HandleInv s free) :
    DeleteOk s h ↔ h ∈ s.issued ∨ ffCustom + ffmaxCustomOperators ≤ h := by
  constructor
  · intro hok
    by_contra hno
    obtain ⟨hissued, hbehind⟩ := not_or.mp hno
    have hrefused := hok.refused (fun hlive => hissued (hinv.live_sub hlive))
    by_cases hbefore : h < ffCustom
    · rw [ffcompOperatorDelete_before hbefore] at hrefused
      cases hrefused
    · obtain ⟨i, rfl⟩ : ∃ i, h = handleOf i := ⟨(h - ffCustom).toNat, by
        rw [handleOf]
        omega⟩
      have hi : i < ffmaxCustomOperators.toNat := by
        simp only [handleOf, ffmaxCustomOperators] at hbehind ⊢
        omega
      exact hinv.delete_unused hi hissued _ hrefused
  · intro hrange
    constructor
    · intro hlive
      obtain ⟨i, hi, rfl⟩ := hinv.live_range hlive
      obtain ⟨customIdx, hdelete, hholds⟩ := hinv.delete_live hlive
      refine ⟨_, hdelete, ?_⟩
      constructor
      · rfl
      · intro j hj
        rw [handleOf_toNat] at hj
        exact Function.update_of_ne hj _ _
      · simp
      · intro free' hfree'
        rw [handleOf_toNat]
        exact hfree'.unique hinv.holds ▸ hholds
    · intro hlive
      rcases hrange with hissued | hbehind
      · exact hinv.delete_deleted hissued hlive
      · exact ffcompOperatorDelete_behind hbehind s.table

theorem handleLaw_iff (hinv : HandleInv s free) (call : OperatorCall F) :
    HandleLaw s call ↔ InRange s call := by
  cases call with
  | create fn commutative => exact hinv.createOk_iff
  | delete h => exact hinv.deleteOk_iff

/-- Step lemma. -/
theorem step (hinv : HandleInv s free) {call : OperatorCall F} (hrange : InRange s call)
    (hs : handleStep s call = some s') : ∃ free', HandleInv s' free' := by
  cases call with
  | create fn commutative =>
      cases free with
      | nil => exact absurd (hinv.free_eq_nil_iff.mp rfl) (Nat.not_le.mpr hrange)
      | cons i free =>
          obtain ⟨hi, _⟩ := (hinv.free_iff i).mp (List.mem_cons_self ..)
          obtain ⟨customIdx, hcreate, hholds⟩ :=
            ffcompOperatorCreate_of_cons fn commutative hinv.holds hi
          simp only [handleStep, hcreate, Option.map_some, Option.some.injEq,
            Option.toFinset_some, Finset.union_singleton] at hs
          subst hs
          exact ⟨free, hinv.create hholds⟩
  | delete h =>
      by_cases hlive : h ∈ s.live
      · obtain ⟨i, hi, rfl⟩ := hinv.live_range hlive
        obtain ⟨customIdx, hdelete, hholds⟩ := hinv.delete_live hlive
        simp only [handleStep, hdelete, Option.map_some, Option.some.injEq, if_true] at hs
        subst hs
        exact ⟨i :: free, hinv.delete hlive hholds⟩
      · have hrefused := (hinv.deleteOk_iff.mpr hrange).refused hlive
        have hcode : ffError ≠ ffSuccess := by decide
        simp only [handleStep, hrefused, Option.map_some, Option.some.injEq, if_neg hcode] at hs
        subst hs
        exact ⟨free, hinv⟩

end HandleInv

/-- **Custom operators**: all calls of a history are answered as they should iff no create
finds the table full, and no handle in front of or in the table is deleted that was not
returned before. -/
theorem operatorHandles_iff (sum copy : F) (mem : Nat → ArmanEntry)
    (calls : List (OperatorCall F)) :
    RunMeets handleStep HandleLaw (handleStart sum copy mem) calls ↔
      RunMeets handleStep InRange (handleStart sum copy mem) calls := by
  have hinit : ∃ free, HandleInv (handleStart sum copy mem) free :=
    ⟨_, handleInv_start sum copy mem⟩
  have hiff : ∀ (s : HandleState F) (call : OperatorCall F), (∃ free, HandleInv s free) →
      (HandleLaw s call ↔ InRange s call) :=
    fun s call ⟨free, hinv⟩ => hinv.handleLaw_iff call
  have hstep : ∀ (s : HandleState F) (call : OperatorCall F) (s' : HandleState F),
      (∃ free, HandleInv s free) → InRange s call → handleStep s call = some s' →
      ∃ free, HandleInv s' free :=
    fun s call s' ⟨free, hinv⟩ hrange hs => hinv.step hrange hs
  constructor
  · exact RunMeets.of_invariant
      (fun s call s' h hlaw hs => hstep s call s' h ((hiff s call h).mp hlaw) hs)
      (fun s call h => (hiff s call h).mp) calls _ hinit
  · exact RunMeets.of_invariant hstep (fun s call h => (hiff s call h).mpr) calls _ hinit

/-- The first handle is deleted before it is returned: the index manager has no entry to
spare. -/
theorem operatorHandles_fails :
    ¬ ∀ (sum copy : Nat) (mem : Nat → ArmanEntry) (calls : List (OperatorCall Nat)),
      RunMeets handleStep HandleLaw (handleStart sum copy mem) calls := by
  intro hall
  have hlaw := (hall 0 1 (fun _ => ⟨0, none⟩) [.delete ffCustom]).1
  have hrange := (handleInv_start 0 1 (fun _ => ⟨0, none⟩)).deleteOk_iff.mp hlaw
  exact absurd hrange (by decide)

end Fflib
