import Fflib.Progresser
import Fflib.ReadyList

/-!
# Tracking requests

`ffop_mpi_progresser_track`, `ffop_mpi_progresser_release` and
`ffop_mpi_progresser_progress` of `ffop_mpi_progresser.c`, one call after another, with
the codes they return.

**Arrays.**  `posted_ops` and `requests` have `FFMPI_MAX_REQ` entries; a store at
another index goes to the entry that the index names.

**MPI.**  `MPI_Testsome` fails and changes nothing, or it reports distinct slots whose
requests are active, and sets their entries of `requests` to `MPI_REQUEST_NULL`.

**Ghost state.**  `active` has the operation and the request of every slot that was
given to a call of `track` and that no progress call has reported since.

* `TrackInv` is the invariant of the two arrays and of the index manager.
* `trackerLaw_iff`: the calls do what is asked of them iff no call of `track` finds all
  slots taken.
-/

namespace Fflib

open Library

/-- The variables of the progresser between two calls, and the ghost state. -/
structure Tracker where
  indexManager : Ffarman
  postedOps : Nat → Option Nat
  requests : Nat → Option Nat
  active : Nat → Option (Nat × Nat)

namespace Tracker

/-- `ffop_mpi_progresser_init`. -/
def init (mem : Nat → ArmanEntry) : Tracker where
  indexManager := ffarmanCreate ffmpiMaxReq mem
  postedOps _ := none
  requests _ := none
  active _ := none

/-- `ffop_mpi_progresser_track`.  The test `idx < 0` is made on a `uint32_t`. -/
def track (op req : Nat) (s : Tracker) : Int × Tracker :=
  let r := ffarmanGet s.indexManager
  if r.1 < 0 then (ffEnomem, { s with indexManager := r.2 })
  else
    (ffSuccess,
      { indexManager := r.2
        postedOps := Function.update s.postedOps r.1 (some op)
        requests := Function.update s.requests r.1 (some req)
        active := Function.update s.active r.1 (some (op, req)) })

/-- `ffop_mpi_progresser_release`; `none` is an assertion that fails. -/
def release (idx : Nat) (s : Tracker) : Option Tracker :=
  (ffarmanPut s.indexManager idx).map fun array =>
    { indexManager := array
      postedOps := Function.update s.postedOps idx none
      requests := Function.update s.requests idx none
      active := Function.update s.active idx none }

/-- The slots that a successful `MPI_Testsome` may report. -/
def Reportable (s : Tracker) (indices : List Nat) : Prop :=
  indices.Nodup ∧ ∀ i ∈ indices, i < ffmpiMaxReq ∧ s.requests i ≠ none

instance (s : Tracker) (indices : List Nat) : Decidable (s.Reportable indices) :=
  inferInstanceAs (Decidable (_ ∧ _))

/-- `MPI_Testsome` takes the requests that it reports. -/
def testsome (indices : List Nat) (s : Tracker) : Tracker :=
  { s with requests := fun i => if i ∈ indices then none else s.requests i }

/-- The loop of `ffop_mpi_progresser_progress` over the reported slots; `none` is an entry
that is `NULL`. -/
def progressLoop : List Nat → Tracker → (Nat → Ffop) → Option Nat →
    Option (Tracker × (Nat → Ffop) × Option Nat)
  | [], s, ops, readyList => some (s, ops, readyList)
  | idx :: indices, s, ops, readyList =>
      (s.postedOps idx).bind fun readyop =>
        let r := ffopEnqueue readyop ops readyList
        (s.release idx).bind fun s' => progressLoop indices s' r.1 r.2

/-- `ffop_mpi_progresser_progress`, when `MPI_Testsome` answers `indices`. -/
def progress (indices : Option (List Nat)) (s : Tracker) (ops : Nat → Ffop)
    (readyList : Option Nat) : Option (Int × Tracker × (Nat → Ffop) × Option Nat) :=
  match indices with
  | none => some (ffError, s, ops, readyList)
  | some indices =>
      (progressLoop indices (s.testsome indices) ops readyList).map fun r => (ffSuccess, r)

end Tracker

inductive TrackerAct where
  | track (op req : Nat)
  | progress (indices : Option (List Nat))
deriving DecidableEq

/-- One call, on a client whose operations are `ops`: only their links change. -/
def trackerStep (ops : Nat → Ffop) (s : Tracker) : TrackerAct → Option Tracker
  | .track op req => some (s.track op req).2
  | .progress indices =>
      if ∀ l ∈ indices, s.Reportable l then
        (s.progress indices ops none).map fun r => r.2.1
      else none

/-! ### What is asked of the calls -/

/-- `track` stores into a slot that holds no active request, or, when there is none, it
answers `FFENOMEM` and changes nothing. -/
def TrackLaw (s : Tracker) (op req : Nat) : Prop :=
  (∃ i, i < ffmpiMaxReq ∧ s.active i = none ∧ (s.track op req).1 = ffSuccess ∧
    (s.track op req).2.postedOps = Function.update s.postedOps i (some op) ∧
    (s.track op req).2.requests = Function.update s.requests i (some req)) ∨
  ((∀ i, i < ffmpiMaxReq → s.active i ≠ none) ∧ s.track op req = (ffEnomem, s))

/-- The operations of the requests in the slots `indices`. -/
def Tracker.opsOf (s : Tracker) (indices : List Nat) : List Nat :=
  indices.filterMap fun i => (s.active i).map Prod.fst

/-- A progress call puts the operations of the reported requests on the ready list, each
from the entry it was tracked in. -/
def ReportLaw (s : Tracker) (indices : List Nat) : Prop :=
  (∀ i ∈ indices, ∃ op req, s.active i = some (op, req) ∧ s.postedOps i = some op ∧
    s.requests i = some req) ∧
  ∀ ops readyList, ∃ s', s.progress (some indices) ops readyList =
    some (ffSuccess, s', enqueueAll (s.opsOf indices) ops readyList)

def TrackerLaw (s : Tracker) : TrackerAct → Prop
  | .track op req => TrackLaw s op req
  | .progress none => True
  | .progress (some indices) => s.Reportable indices → ReportLaw s indices

/-- Fewer than `FFMPI_MAX_REQ` requests are outstanding when a request is tracked. -/
def HasSlot (s : Tracker) : TrackerAct → Prop
  | .track _ _ => ∃ i, i < ffmpiMaxReq ∧ s.active i = none
  | .progress _ => True

/-! ### The invariant -/

/-- `free` is what the manager has to give. -/
structure TrackInv (s : Tracker) (free : List Nat) : Prop where
  manager : s.indexManager.Holds ffmpiMaxReq free
  nodup : free.Nodup
  free_iff : ∀ i, i ∈ free ↔ i < ffmpiMaxReq ∧ s.active i = none
  lt_max : ∀ i, s.active i ≠ none → i < ffmpiMaxReq
  entry : ∀ i op req, s.active i = some (op, req) →
    s.postedOps i = some op ∧ s.requests i = some req
  blank : ∀ i, i < ffmpiMaxReq → s.active i = none → s.requests i = none

section Tracker

variable {s s' : Tracker} {free : List Nat} {op req i : Nat}

theorem trackInv_init (mem : Nat → ArmanEntry) :
    TrackInv (Tracker.init mem) (List.range ffmpiMaxReq) where
  manager := ffarmanCreate_holds (by decide) mem
  nodup := List.nodup_range
  free_iff i := by simp [Tracker.init]
  lt_max i hi := absurd rfl hi
  entry i op req hi := by cases hi
  blank i _ _ := rfl

/-- The manager has an index to give iff a slot holds no active request. -/
theorem TrackInv.free_ne_nil_iff (h : TrackInv s free) :
    free ≠ [] ↔ ∃ i, i < ffmpiMaxReq ∧ s.active i = none := by
  constructor
  · intro hne
    obtain ⟨i, hi⟩ := List.exists_mem_of_ne_nil free hne
    exact ⟨i, (h.free_iff i).mp hi⟩
  · rintro ⟨i, hi⟩ rfl
    exact absurd ((h.free_iff i).mpr hi) (by simp)

/-- The index of a get passes the test of `track`, whatever it is. -/
theorem track_eq (op req : Nat) (s : Tracker) :
    s.track op req = (ffSuccess,
      { indexManager := (ffarmanGet s.indexManager).2
        postedOps := Function.update s.postedOps (ffarmanGet s.indexManager).1 (some op)
        requests := Function.update s.requests (ffarmanGet s.indexManager).1 (some req)
        active := Function.update s.active (ffarmanGet s.indexManager).1 (some (op, req)) }) := by
  simp only [Tracker.track]
  rw [if_neg (Nat.not_lt_zero _)]

/-- Step lemma for `track`. -/
theorem TrackInv.track (h : TrackInv s (i :: free)) (op req : Nat) :
    TrackInv (s.track op req).2 free := by
  obtain ⟨hget, hmanager⟩ := ffarmanGet_of_cons h.manager
  obtain ⟨hi, hnd⟩ := List.nodup_cons.mp h.nodup
  have hslot := (h.free_iff i).mp (List.mem_cons_self ..)
  rw [track_eq, hget]
  constructor
  · exact hmanager
  · exact hnd
  · intro j
    by_cases hji : j = i
    · subst hji
      simp [hi]
    · have hfree := h.free_iff j
      rw [List.mem_cons, or_iff_right hji] at hfree
      simpa [hji] using hfree
  · intro j hj
    by_cases hji : j = i
    · exact hji ▸ hslot.1
    · exact h.lt_max j (by simpa [hji] using hj)
  · intro j op' req' hj
    by_cases hji : j = i
    · subst hji
      simp only [Function.update_self, Option.some.injEq, Prod.mk.injEq] at hj
      simp [hj.1, hj.2]
    · simp only [Function.update_of_ne hji] at hj ⊢
      exact h.entry j op' req' hj
  · intro j hlt hj
    by_cases hji : j = i
    · subst hji
      simp at hj
    · simp only [Function.update_of_ne hji] at hj ⊢
      exact h.blank j hlt hj

/-- `track` does what is asked of it iff a slot is free. -/
theorem TrackInv.trackLaw_iff (h : TrackInv s free) :
    TrackLaw s op req ↔ ∃ i, i < ffmpiMaxReq ∧ s.active i = none := by
  constructor
  · rintro (⟨i, hi, hactive, _⟩ | ⟨hall, htrack⟩)
    · exact ⟨i, hi, hactive⟩
    · -- the answer is `FFSUCCESS` also when all slots are taken
      rw [track_eq] at htrack
      have hcode : ffSuccess = ffEnomem := congrArg Prod.fst htrack
      exact absurd hcode (by decide)
  · intro hslot
    cases free with
    | nil => exact absurd rfl (h.free_ne_nil_iff.mpr hslot)
    | cons i free =>
        obtain ⟨hlt, hactive⟩ := (h.free_iff i).mp (List.mem_cons_self ..)
        refine Or.inl ⟨i, hlt, hactive, ?_⟩
        rw [track_eq, (ffarmanGet_of_cons h.manager).1]
        exact ⟨rfl, rfl, rfl⟩

/-! ### A progress call -/

/-- The invariant within the loop: the requests of the slots still to be released have
been taken. -/
structure ReleaseInv (s : Tracker) (free indices : List Nat) : Prop where
  manager : s.indexManager.Holds ffmpiMaxReq free
  nodup : free.Nodup
  free_iff : ∀ i, i ∈ free ↔ i < ffmpiMaxReq ∧ s.active i = none
  lt_max : ∀ i, s.active i ≠ none → i < ffmpiMaxReq
  posted : ∀ i op req, s.active i = some (op, req) → s.postedOps i = some op
  request : ∀ i op req, i ∉ indices → s.active i = some (op, req) → s.requests i = some req
  blank : ∀ i, i < ffmpiMaxReq → s.active i = none → s.requests i = none
  reported : ∀ i ∈ indices, s.active i ≠ none
  distinct : indices.Nodup

/-- The active slots are those whose request `MPI_Testsome` may report. -/
theorem TrackInv.active_iff (h : TrackInv s free) (hi : i < ffmpiMaxReq) :
    s.requests i ≠ none ↔ s.active i ≠ none := by
  constructor
  · intro hreq hactive
    exact hreq (h.blank i hi hactive)
  · intro hactive
    obtain ⟨⟨op, req⟩, heq⟩ := Option.ne_none_iff_exists'.mp hactive
    rw [(h.entry i op req heq).2]
    exact fun hno => by cases hno

theorem TrackInv.testsome (h : TrackInv s free) {indices : List Nat}
    (hr : s.Reportable indices) : ReleaseInv (s.testsome indices) free indices where
  manager := h.manager
  nodup := h.nodup
  free_iff := h.free_iff
  lt_max := h.lt_max
  posted i op req hi := (h.entry i op req hi).1
  request i op req hno hi := by
    simp only [Tracker.testsome, if_neg hno]
    exact (h.entry i op req hi).2
  blank i hlt hi := by
    simp only [Tracker.testsome]
    split
    · rfl
    · exact h.blank i hlt hi
  reported i hi := (h.active_iff (hr.2 i hi).1).mp (hr.2 i hi).2
  distinct := hr.1

/-- Step lemma for an iteration of the loop. -/
theorem ReleaseInv.release {idx : Nat} {indices : List Nat}
    (h : ReleaseInv s free (idx :: indices)) :
    ∃ s', s.release idx = some s' ∧ ReleaseInv s' (idx :: free) indices ∧
      s'.active = Function.update s.active idx none := by
  have hactive := h.reported idx (List.mem_cons_self ..)
  have hmax := h.lt_max idx hactive
  have hfree : idx ∉ free := fun hmem => hactive ((h.free_iff idx).mp hmem).2
  have hroom := length_lt_of_missing h.nodup (fun j hj => ((h.free_iff j).mp hj).1) hmax hfree
  obtain ⟨array, hput, hholds⟩ := ffarmanPut_spec h.manager hroom idx
  obtain ⟨hnotin, hdistinct⟩ := List.nodup_cons.mp h.distinct
  refine ⟨_, by rw [Tracker.release, hput, Option.map_some], ?_, rfl⟩
  constructor
  · exact hholds
  · exact List.nodup_cons.mpr ⟨hfree, h.nodup⟩
  · intro j
    by_cases hj : j = idx
    · subst hj
      simp [hmax]
    · simpa [hj] using h.free_iff j
  · intro j hj
    by_cases hji : j = idx
    · exact hji ▸ hmax
    · exact h.lt_max j (by simpa [hji] using hj)
  · intro j op req hj
    by_cases hji : j = idx
    · subst hji
      simp at hj
    · simp only [Function.update_of_ne hji] at hj ⊢
      exact h.posted j op req hj
  · intro j op req hno hj
    by_cases hji : j = idx
    · subst hji
      simp at hj
    · simp only [Function.update_of_ne hji] at hj ⊢
      refine h.request j op req ?_ hj
      simp [hji, hno]
  · intro j hlt hj
    by_cases hji : j = idx
    · subst hji
      simp
    · simp only [Function.update_of_ne hji] at hj ⊢
      exact h.blank j hlt hj
  · intro j hj
    have hji : j ≠ idx := by
      rintro rfl
      exact hnotin hj
    simp only [Function.update_of_ne hji]
    exact h.reported j (List.mem_cons_of_mem _ hj)
  · exact hdistinct

theorem opsOf_congr {indices : List Nat} (h : ∀ i ∈ indices, s'.active i = s.active i) :
    s'.opsOf indices = s.opsOf indices :=
  List.filterMap_congr (fun i hi => by rw [h i hi])

/-- The loop enqueues the operations of its slots, one after another. -/
theorem ReleaseInv.progressLoop {indices : List Nat} : ∀ {s : Tracker} {free : List Nat},
    ReleaseInv s free indices → ∀ (ops : Nat → Ffop) (readyList : Option Nat),
      ∃ s' free', Tracker.progressLoop indices s ops readyList =
        some (s', enqueueAll (s.opsOf indices) ops readyList) ∧ ReleaseInv s' free' [] := by
  induction indices with
  | nil => exact fun h ops readyList => ⟨_, _, rfl, h⟩
  | cons idx indices ih =>
      intro s free h ops readyList
      obtain ⟨s₁, hrelease, h₁, hactive⟩ := h.release
      obtain ⟨⟨op, req⟩, hop⟩ := Option.ne_none_iff_exists'.mp
        (h.reported idx (List.mem_cons_self ..))
      obtain ⟨s', free', hloop, h'⟩ := ih h₁ (ffopEnqueue op ops readyList).1
        (ffopEnqueue op ops readyList).2
      refine ⟨s', free', ?_, h'⟩
      have hsame : s₁.opsOf indices = s.opsOf indices := by
        refine opsOf_congr (fun i hi => ?_)
        rw [hactive, Function.update_of_ne]
        rintro rfl
        exact (List.nodup_cons.mp h.distinct).1 hi
      have hcons : s.opsOf (idx :: indices) = op :: s.opsOf indices := by
        simp [Tracker.opsOf, hop]
      rw [Tracker.progressLoop, h.posted idx op req hop, Option.bind_some, hrelease,
        Option.bind_some, hloop, hsame, hcons, enqueueAll]

theorem ReleaseInv.trackInv (h : ReleaseInv s free []) : TrackInv s free where
  manager := h.manager
  nodup := h.nodup
  free_iff := h.free_iff
  lt_max := h.lt_max
  entry i op req hi := ⟨h.posted i op req hi, h.request i op req (by simp) hi⟩
  blank := h.blank

/-- A progress call that finds the slots `indices` complete. -/
theorem TrackInv.progress (h : TrackInv s free) {indices : List Nat}
    (hr : s.Reportable indices) (ops : Nat → Ffop) (readyList : Option Nat) :
    ∃ s' free', s.progress (some indices) ops readyList =
      some (ffSuccess, s', enqueueAll (s.opsOf indices) ops readyList) ∧ TrackInv s' free' := by
  obtain ⟨s', free', hloop, h'⟩ := (h.testsome hr).progressLoop ops readyList
  refine ⟨s', free', ?_, h'.trackInv⟩
  simp only [Tracker.progress, hloop, Option.map_some]
  rfl

theorem TrackInv.reportLaw (h : TrackInv s free) {indices : List Nat}
    (hr : s.Reportable indices) : ReportLaw s indices := by
  constructor
  · intro i hi
    have hactive := (h.active_iff (hr.2 i hi).1).mp (hr.2 i hi).2
    obtain ⟨⟨op, req⟩, hop⟩ := Option.ne_none_iff_exists'.mp hactive
    exact ⟨op, req, hop, (h.entry i op req hop).1, (h.entry i op req hop).2⟩
  · intro ops readyList
    obtain ⟨s', _, hprogress, _⟩ := h.progress hr ops readyList
    exact ⟨s', hprogress⟩

theorem TrackInv.trackerLaw_iff_hasSlot (h : TrackInv s free) (a : TrackerAct) :
    TrackerLaw s a ↔ HasSlot s a := by
  cases a with
  | track op req => exact h.trackLaw_iff
  | progress indices =>
      cases indices with
      | none => exact Iff.rfl
      | some indices => exact iff_of_true (fun hr => h.reportLaw hr) trivial

/-- Step lemma. -/
theorem TrackInv.step {ops : Nat → Ffop} {a : TrackerAct} (h : TrackInv s free)
    (hslot : HasSlot s a) (hs : trackerStep ops s a = some s') : ∃ free', TrackInv s' free' := by
  cases a with
  | track op req =>
      obtain rfl := Option.some.inj hs
      cases free with
      | nil => exact absurd rfl (h.free_ne_nil_iff.mpr hslot)
      | cons i free => exact ⟨free, h.track op req⟩
  | progress indices =>
      simp only [trackerStep] at hs
      split at hs
      · next hr =>
          cases indices with
          | none =>
              obtain rfl := Option.some.inj hs
              exact ⟨free, h⟩
          | some indices =>
              obtain ⟨s₁, free', hprogress, h'⟩ := h.progress (hr indices rfl) ops none
              rw [hprogress, Option.map_some] at hs
              obtain rfl := Option.some.inj hs
              exact ⟨free', h'⟩
      · cases hs

end Tracker

/-- **Request tracker**: the calls of a run do what is asked of them iff no request is
tracked while `FFMPI_MAX_REQ` requests are outstanding. -/
theorem trackerLaw_iff (mem : Nat → ArmanEntry) (ops : Nat → Ffop) (as : List TrackerAct) :
    RunMeets (trackerStep ops) TrackerLaw (Tracker.init mem) as ↔
      RunMeets (trackerStep ops) HasSlot (Tracker.init mem) as := by
  have hiff : ∀ s a, (∃ free, TrackInv s free) → (TrackerLaw s a ↔ HasSlot s a) := by
    rintro s a ⟨free, h⟩
    exact h.trackerLaw_iff_hasSlot a
  have hstep : ∀ s a s', (∃ free, TrackInv s free) → HasSlot s a →
      trackerStep ops s a = some s' → ∃ free', TrackInv s' free' := by
    rintro s a s' ⟨free, h⟩ hslot hs
    exact h.step hslot hs
  constructor
  · exact RunMeets.of_invariant
      (fun s a s' h hlaw hs => hstep s a s' h ((hiff s a h).mp hlaw) hs)
      (fun s a h => (hiff s a h).mp) as _ ⟨_, trackInv_init mem⟩
  · exact RunMeets.of_invariant hstep (fun s a h => (hiff s a h).mpr) as _
      ⟨_, trackInv_init mem⟩

/-- Tracking as many requests as slots are free leaves none. -/
theorem TrackInv.fill {ops : Nat → Ffop} (op req : Nat) {free : List Nat} :
    ∀ {s : Tracker}, TrackInv s free →
      ∃ t, run (trackerStep ops) s (List.replicate free.length (.track op req)) = some t ∧
        TrackInv t [] := by
  induction free with
  | nil => exact fun h => ⟨_, rfl, h⟩
  | cons i free ih =>
      intro s h
      obtain ⟨t, hrun, ht⟩ := ih (h.track op req)
      exact ⟨t, run_cons_eq_some.mpr ⟨_, rfl, hrun⟩, ht⟩

/-- The 257th request is stored behind the arrays, and the answer is `FFSUCCESS`. -/
theorem trackerLaw_fails :
    ¬ ∀ (mem : Nat → ArmanEntry) (ops : Nat → Ffop) (as : List TrackerAct),
      RunMeets (trackerStep ops) TrackerLaw (Tracker.init mem) as := by
  intro hall
  obtain ⟨n, t, hrun, ht⟩ : ∃ n t, run (trackerStep Lib.init.ops) (Tracker.init blankEntries)
      (List.replicate n (.track 0 0)) = some t ∧ TrackInv t [] :=
    ⟨_, (trackInv_init blankEntries).fill 0 0⟩
  have hlaw := (hall blankEntries Lib.init.ops
    (List.replicate n (.track 0 0) ++ [.track 0 0])).last hrun
  exact ht.free_ne_nil_iff.mpr (ht.trackLaw_iff.mp hlaw) rfl

end Fflib
