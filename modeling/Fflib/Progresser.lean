import Fflib.Arman
import Fflib.Library.Machine

/-!
# The slots of the MPI progresser

`ffop_mpi_progresser_track`, `ffop_mpi_progresser_release` and
`ffop_mpi_progresser_progress` of `ffop_mpi_progresser.c`, called by any number of
threads.  One call of the index manager, which holds its lock, and one store into an
array are atomic.

**MPI.**  `MPI_Testsome` reports slots whose request is complete and sets the entries
of `requests` that it reports to `MPI_REQUEST_NULL`.  Any request may be found
complete at any time.

**Ghost state.**  `tracked` has the arguments of the last call of `track` that has
returned for a slot, until the slot is released; `reported` are the slots that
`MPI_Testsome` has reported and that are not released yet.

* `SlotInv` is the invariant of every run: a slot is free, or held by one call, or
  tracked.
* `Kept` is what is asked of every state, `Stored` what a call of `track` relies on
  between its two stores.
* `tracked_kept_iff`: no tracked request is lost iff no release clears an entry
  after a later call of `track` has stored into it.
-/

namespace Fflib

open Library

/-- `FFMPI_MAX_REQ`. -/
def ffmpiMaxReq : Nat := 256

/-- A call in progress, named by its next atomic step. -/
inductive Call where
  | idle
  | trackGet (op req : Nat)
  | trackOp (op req idx : Nat)
  | trackReq (op req idx : Nat)
  | releasePut (idx : Nat)
  | releaseReq (idx : Nat)
  | releaseOp (idx : Nat)
deriving DecidableEq

/-- The variables of the progresser, the calls of the threads and the ghost state. -/
structure Progresser where
  indexManager : Ffarman
  postedOps : Nat → Option Nat
  requests : Nat → Option Nat
  readyList : List Nat
  call : Nat → Call
  tracked : Nat → Option (Nat × Nat)
  reported : Nat → Bool

/-- `ffop_mpi_progresser_init`. -/
def ffopMpiProgresserInit (mem : Nat → ArmanEntry) : Progresser where
  indexManager := ffarmanCreate ffmpiMaxReq mem
  postedOps _ := none
  requests _ := none
  readyList := []
  call _ := .idle
  tracked _ := none
  reported _ := false

/-- A call begins, `MPI_Testsome` reports a slot, or a call takes its next step. -/
inductive ProgresserAct where
  | track (t op req : Nat)
  | report (idx : Nat)
  | release (t idx : Nat)
  | step (t : Nat)
deriving DecidableEq

namespace Progresser

def setCall (s : Progresser) (t : Nat) (c : Call) : Progresser :=
  { s with call := Function.update s.call t c }

/-- The next atomic step of the call of a thread; a store outside of an array and a failing
assertion are `none`.  The test `idx < 0` of `track` is made on a `uint32_t`. -/
def stepCall (s : Progresser) (t : Nat) : Option Progresser :=
  match s.call t with
  | .idle => none
  | .trackGet op req =>
      let r := ffarmanGet s.indexManager
      if r.1 < 0 then some ({ s with indexManager := r.2 }.setCall t .idle)
      else some ({ s with indexManager := r.2 }.setCall t (.trackOp op req r.1))
  | .trackOp op req idx =>
      if idx < ffmpiMaxReq then
        some ({ s with postedOps := Function.update s.postedOps idx (some op) }.setCall t
          (.trackReq op req idx))
      else none
  | .trackReq op req idx =>
      if idx < ffmpiMaxReq then
        some ({ s with
          requests := Function.update s.requests idx (some req)
          tracked := Function.update s.tracked idx (some (op, req)) }.setCall t .idle)
      else none
  | .releasePut idx =>
      (ffarmanPut s.indexManager idx).map fun array =>
        { s with indexManager := array }.setCall t (.releaseReq idx)
  | .releaseReq idx =>
      some ({ s with requests := Function.update s.requests idx none }.setCall t
        (.releaseOp idx))
  | .releaseOp idx =>
      some ({ s with postedOps := Function.update s.postedOps idx none }.setCall t .idle)

end Progresser

/-- The steps of the progresser.  A slot is released when it was reported, after its
operation has been put on the ready list. -/
def progresserStep (s : Progresser) : ProgresserAct → Option Progresser
  | .track t op req =>
      if s.call t = .idle then some (s.setCall t (.trackGet op req)) else none
  | .report idx =>
      if (s.requests idx).isSome then
        some { s with
          requests := Function.update s.requests idx none
          reported := Function.update s.reported idx true }
      else none
  | .release t idx =>
      if s.call t = .idle ∧ s.reported idx = true then
        (s.postedOps idx).map fun readyop =>
          { s with
            readyList := readyop :: s.readyList
            tracked := Function.update s.tracked idx none
            reported := Function.update s.reported idx false }.setCall t (.releasePut idx)
      else none
  | .step t => s.stepCall t

/-- The atomic steps, one by one. -/
inductive Atomic (s : Progresser) : ProgresserAct → Progresser → Prop where
  | track (t op req : Nat) (hcall : s.call t = .idle) :
      Atomic s (.track t op req) (s.setCall t (.trackGet op req))
  | report (idx : Nat) (hreq : s.requests idx ≠ none) :
      Atomic s (.report idx) { s with
        requests := Function.update s.requests idx none
        reported := Function.update s.reported idx true }
  | release (t idx readyop : Nat) (hcall : s.call t = .idle) (hrep : s.reported idx = true)
      (hop : s.postedOps idx = some readyop) :
      Atomic s (.release t idx) ({ s with
        readyList := readyop :: s.readyList
        tracked := Function.update s.tracked idx none
        reported := Function.update s.reported idx false }.setCall t (.releasePut idx))
  | get (t op req : Nat) (hcall : s.call t = .trackGet op req) :
      Atomic s (.step t) ({ s with indexManager := (ffarmanGet s.indexManager).2 }.setCall t
        (.trackOp op req (ffarmanGet s.indexManager).1))
  | storeOp (t op req idx : Nat) (hcall : s.call t = .trackOp op req idx)
      (hidx : idx < ffmpiMaxReq) :
      Atomic s (.step t) ({ s with
        postedOps := Function.update s.postedOps idx (some op) }.setCall t
          (.trackReq op req idx))
  | storeReq (t op req idx : Nat) (hcall : s.call t = .trackReq op req idx) :
      Atomic s (.step t) ({ s with
        requests := Function.update s.requests idx (some req)
        tracked := Function.update s.tracked idx (some (op, req)) }.setCall t .idle)
  | put (t idx : Nat) (array : Ffarman) (hcall : s.call t = .releasePut idx)
      (hput : ffarmanPut s.indexManager idx = some array) :
      Atomic s (.step t) ({ s with indexManager := array }.setCall t (.releaseReq idx))
  | clearReq (t idx : Nat) (hcall : s.call t = .releaseReq idx) :
      Atomic s (.step t) ({ s with
        requests := Function.update s.requests idx none }.setCall t (.releaseOp idx))
  | clearOp (t idx : Nat) (hcall : s.call t = .releaseOp idx) :
      Atomic s (.step t) ({ s with
        postedOps := Function.update s.postedOps idx none }.setCall t .idle)

section Steps

variable {s s' : Progresser} {a : ProgresserAct}

theorem atomic_of_stepCall {t : Nat} (h : s.stepCall t = some s') : Atomic s (.step t) s' := by
  cases hcall : s.call t with
  | idle => simp [Progresser.stepCall, hcall] at h
  | trackGet op req =>
      simp only [Progresser.stepCall, hcall, Nat.not_lt_zero, if_false, Option.some.injEq] at h
      exact h ▸ .get t op req hcall
  | trackOp op req idx =>
      simp only [Progresser.stepCall, hcall] at h
      split at h
      · next hidx => exact Option.some.inj h ▸ .storeOp t op req idx hcall hidx
      · cases h
  | trackReq op req idx =>
      simp only [Progresser.stepCall, hcall] at h
      split at h
      · exact Option.some.inj h ▸ .storeReq t op req idx hcall
      · cases h
  | releasePut idx =>
      simp only [Progresser.stepCall, hcall] at h
      obtain ⟨array, hput, rfl⟩ := Option.map_eq_some_iff.mp h
      exact .put t idx array hcall hput
  | releaseReq idx =>
      simp only [Progresser.stepCall, hcall, Option.some.injEq] at h
      exact h ▸ .clearReq t idx hcall
  | releaseOp idx =>
      simp only [Progresser.stepCall, hcall, Option.some.injEq] at h
      exact h ▸ .clearOp t idx hcall

theorem atomic_of_step (h : progresserStep s a = some s') : Atomic s a s' := by
  cases a with
  | track t op req =>
      simp only [progresserStep] at h
      split at h
      · next hcall => exact Option.some.inj h ▸ .track t op req hcall
      · cases h
  | report idx =>
      simp only [progresserStep] at h
      split at h
      · next hreq => exact Option.some.inj h ▸ .report idx (Option.isSome_iff_ne_none.mp hreq)
      · cases h
  | release t idx =>
      simp only [progresserStep] at h
      split at h
      · next hrep =>
          obtain ⟨readyop, hop, rfl⟩ := Option.map_eq_some_iff.mp h
          exact .release t idx readyop hrep.1 hrep.2 hop
      · cases h
  | step t => exact atomic_of_stepCall h

end Steps

/-! ### Slots -/

/-- The slot that a call holds: it was given by the manager, or is to be put back. -/
def Call.slot : Call → Option Nat
  | .trackOp _ _ idx => if idx < ffmpiMaxReq then some idx else none
  | .trackReq _ _ idx => some idx
  | .releasePut idx => some idx
  | _ => none

/-- Who has a slot. -/
inductive Place where
  | free
  | held (t : Nat)
  | tracked
deriving DecidableEq

/-- The invariant of every run; `free` is what the manager has to give. -/
structure SlotInv (s : Progresser) (free : List Nat) (place : Nat → Place) : Prop where
  manager : s.indexManager.Holds ffmpiMaxReq free
  nodup : free.Nodup
  free_iff : ∀ i, i ∈ free ↔ i < ffmpiMaxReq ∧ place i = .free
  held_iff : ∀ t i, (s.call t).slot = some i ↔ place i = .held t
  tracked_iff : ∀ i, s.tracked i ≠ none ↔ place i = .tracked
  lt_max : ∀ i, place i ≠ .free → i < ffmpiMaxReq
  reported_tracked : ∀ i, s.reported i = true → s.tracked i ≠ none
  requests_tracked : ∀ i, s.requests i ≠ none → s.tracked i ≠ none ∧ s.reported i = false

section Slots

variable {call : Nat → Call} {place : Nat → Place} {t : Nat} {c : Call}

/-- A call goes on with the slot that it has, if any. -/
theorem held_keep (h : ∀ u i, (call u).slot = some i ↔ place i = .held u)
    (hc : c.slot = (call t).slot) (u i : Nat) :
    (Function.update call t c u).slot = some i ↔ place i = .held u := by
  by_cases hu : u = t
  · subst hu
    rw [Function.update_self, hc, h]
  · rw [Function.update_of_ne hu, h]

/-- A call without a slot gets the slot `j`. -/
theorem held_acquire (h : ∀ u i, (call u).slot = some i ↔ place i = .held u) {j : Nat}
    (ht : (call t).slot = none) (hc : c.slot = some j) (hj : ∀ u, place j ≠ .held u)
    (u i : Nat) : (Function.update call t c u).slot = some i ↔
      Function.update place j (.held t) i = .held u := by
  have hold : place i ≠ .held t := by
    rw [ne_eq, ← h, ht]
    simp
  by_cases hu : u = t
  · subst hu
    rw [Function.update_self, hc, Option.some.injEq]
    by_cases hi : i = j
    · subst hi
      simp
    · rw [Function.update_of_ne hi]
      exact iff_of_false (fun hji => hi hji.symm) hold
  · rw [Function.update_of_ne hu, h]
    by_cases hi : i = j
    · subst hi
      rw [Function.update_self]
      exact iff_of_false (hj u) (fun heq => hu (Place.held.inj heq).symm)
    · rw [Function.update_of_ne hi]

/-- A call lets its slot `j` go. -/
theorem held_drop (h : ∀ u i, (call u).slot = some i ↔ place i = .held u) {j : Nat} {q : Place}
    (ht : (call t).slot = some j) (hc : c.slot = none) (hq : ∀ u, q ≠ .held u) (u i : Nat) :
    (Function.update call t c u).slot = some i ↔ Function.update place j q i = .held u := by
  by_cases hi : i = j
  · subst hi
    rw [Function.update_self]
    refine iff_of_false (fun hslot => ?_) (hq u)
    by_cases hu : u = t
    · subst hu
      rw [Function.update_self, hc] at hslot
      cases hslot
    · rw [Function.update_of_ne hu, h, (h t i).mp ht] at hslot
      exact hu (Place.held.inj hslot).symm
  · rw [Function.update_of_ne hi]
    by_cases hu : u = t
    · subst hu
      rw [Function.update_self, hc, ← h, ht]
      exact iff_of_false (by simp) (fun heq => hi (Option.some.inj heq).symm)
    · rw [Function.update_of_ne hu, h]

end Slots

namespace SlotInv

variable {s : Progresser} {free : List Nat} {place : Nat → Place} (h : SlotInv s free place)
include h

theorem place_of_slot {t i : Nat} (hslot : (s.call t).slot = some i) : place i = .held t :=
  (h.held_iff t i).mp hslot

/-- Two calls do not hold the same slot. -/
theorem slot_inj {t u i : Nat} (ht : (s.call t).slot = some i) (hu : (s.call u).slot = some i) :
    t = u :=
  Place.held.inj ((h.place_of_slot ht).symm.trans (h.place_of_slot hu))

/-- A slot that a call holds is not tracked. -/
theorem tracked_of_slot {t i : Nat} (hslot : (s.call t).slot = some i) : s.tracked i = none := by
  by_contra hne
  have := (h.tracked_iff i).mp hne
  rw [h.place_of_slot hslot] at this
  cases this

theorem reported_of_slot {t i : Nat} (hslot : (s.call t).slot = some i) :
    s.reported i = false := by
  by_contra hne
  have := h.reported_tracked i (by simpa using hne)
  exact this (h.tracked_of_slot hslot)

/-- The manager has room for a slot that a call holds. -/
theorem length_lt {t i : Nat} (hslot : (s.call t).slot = some i) :
    free.length < ffmpiMaxReq := by
  have hplace := h.place_of_slot hslot
  have hi : i ∉ free := by
    intro hmem
    have := ((h.free_iff i).mp hmem).2
    rw [hplace] at this
    cases this
  have hmax : i < ffmpiMaxReq := h.lt_max i (by rw [hplace]; exact fun heq => by cases heq)
  exact length_lt_of_missing h.nodup (fun j hj => ((h.free_iff j).mp hj).1) hmax hi

/-- What a move of one slot leaves to show. -/
theorem lt_max_update {i : Nat} (hi : i < ffmpiMaxReq) (q : Place) :
    ∀ j, Function.update place i q j ≠ .free → j < ffmpiMaxReq := by
  intro j hj
  by_cases hji : j = i
  · exact hji ▸ hi
  · rw [Function.update_of_ne hji] at hj
    exact h.lt_max j hj

/-- A move between places that are not free. -/
theorem free_iff_update {i : Nat} {q : Place} (hplace : place i ≠ .free) (hq : q ≠ .free) :
    ∀ j, j ∈ free ↔ j < ffmpiMaxReq ∧ Function.update place i q j = .free := by
  intro j
  rw [h.free_iff]
  by_cases hji : j = i
  · subst hji
    rw [Function.update_self]
    exact iff_of_false (fun hc => hplace hc.2) (fun hc => hq hc.2)
  · rw [Function.update_of_ne hji]

end SlotInv

theorem slotInv_init (mem : Nat → ArmanEntry) :
    SlotInv (ffopMpiProgresserInit mem) (List.range ffmpiMaxReq) (fun _ => .free) where
  manager := ffarmanCreate_holds (by decide) mem
  nodup := List.nodup_range
  free_iff i := by simp
  held_iff t i := by simp [ffopMpiProgresserInit, Call.slot]
  tracked_iff i := by simp [ffopMpiProgresserInit]
  lt_max i hi := absurd rfl hi
  reported_tracked i hi := by simp [ffopMpiProgresserInit] at hi
  requests_tracked i hi := by simp [ffopMpiProgresserInit] at hi

namespace SlotInv

variable {s s' : Progresser} {a : ProgresserAct} {free : List Nat} {place : Nat → Place}

/-- Step lemma for `ffarman_get`. -/
theorem get (h : SlotInv s free place) {t op req : Nat} (hcall : s.call t = .trackGet op req) :
    ∃ free' place', SlotInv ({ s with indexManager := (ffarmanGet s.indexManager).2 }.setCall t
      (.trackOp op req (ffarmanGet s.indexManager).1)) free' place' := by
  have hslot : (s.call t).slot = none := by rw [hcall]; rfl
  cases hfree : free with
  | nil =>
      rw [ffarmanGet_of_nil (hfree ▸ h.manager)]
      refine ⟨[], place, hfree ▸ h.manager, List.nodup_nil, hfree ▸ h.free_iff, ?_,
        h.tracked_iff, h.lt_max, h.reported_tracked, h.requests_tracked⟩
      exact held_keep h.held_iff (by rw [hslot, Call.slot, if_neg (by simp [ffmpiMaxReq])])
  | cons i free' =>
      obtain ⟨hget, hmanager⟩ := ffarmanGet_of_cons (hfree ▸ h.manager)
      have hi : i < ffmpiMaxReq ∧ place i = .free :=
        (h.free_iff i).mp (hfree ▸ List.mem_cons_self ..)
      have hnd := List.nodup_cons.mp (hfree ▸ h.nodup)
      refine ⟨free', Function.update place i (.held t), hmanager, hnd.2, fun j => ?_, ?_,
        fun j => ?_, h.lt_max_update hi.1 _, h.reported_tracked, h.requests_tracked⟩
      · by_cases hji : j = i
        · subst hji
          simp [hnd.1]
        · have := h.free_iff j
          rw [hfree, List.mem_cons, or_iff_right hji] at this
          rw [Function.update_of_ne hji, this]
      · refine held_acquire h.held_iff hslot ?_ (fun u => ?_)
        · rw [hget, Call.slot, if_pos hi.1]
        · rw [hi.2]
          exact fun heq => by cases heq
      · by_cases hji : j = i
        · subst hji
          have := h.tracked_iff j
          rw [hi.2] at this
          simpa [Progresser.setCall] using this
        · rw [Function.update_of_ne hji]
          exact h.tracked_iff j

/-- Step lemma for `ffarman_put`. -/
theorem put (h : SlotInv s free place) {t i : Nat} {array : Ffarman}
    (hcall : s.call t = .releasePut i) (hput : ffarmanPut s.indexManager i = some array) :
    ∃ free' place',
      SlotInv ({ s with indexManager := array }.setCall t (.releaseReq i)) free' place' := by
  have hslot : (s.call t).slot = some i := by rw [hcall]; rfl
  have hplace := h.place_of_slot hslot
  have hmax : i < ffmpiMaxReq := h.lt_max i (by rw [hplace]; exact fun heq => by cases heq)
  obtain ⟨array', hput', hmanager⟩ := ffarmanPut_spec h.manager (h.length_lt hslot) i
  obtain rfl := Option.some.inj (hput.symm.trans hput')
  have hnot : i ∉ free := by
    rw [h.free_iff, hplace]
    exact fun hi => by cases hi.2
  refine ⟨i :: free, Function.update place i .free, hmanager,
    List.nodup_cons.mpr ⟨hnot, h.nodup⟩, fun j => ?_, ?_, fun j => ?_, h.lt_max_update hmax _,
    h.reported_tracked, h.requests_tracked⟩
  · by_cases hji : j = i
    · subst hji
      simp [hmax]
    · rw [List.mem_cons, or_iff_right hji, Function.update_of_ne hji, h.free_iff]
  · exact held_drop h.held_iff hslot rfl (fun u heq => by cases heq)
  · by_cases hji : j = i
    · subst hji
      rw [Function.update_self]
      refine iff_of_false (not_not.mpr ?_) (fun heq => by cases heq)
      exact h.tracked_of_slot hslot
    · rw [Function.update_of_ne hji]
      exact h.tracked_iff j

/-- Step lemma for the store that ends a call of `track`. -/
theorem storeReq (h : SlotInv s free place) {t op req i : Nat}
    (hcall : s.call t = .trackReq op req i) :
    ∃ place', SlotInv ({ s with
      requests := Function.update s.requests i (some req)
      tracked := Function.update s.tracked i (some (op, req)) }.setCall t .idle) free place' := by
  have hslot : (s.call t).slot = some i := by rw [hcall]; rfl
  have hplace : place i ≠ .free := by
    rw [h.place_of_slot hslot]
    exact fun heq => by cases heq
  refine ⟨Function.update place i .tracked, h.manager, h.nodup,
    h.free_iff_update hplace (by decide), ?_, fun j => ?_,
    h.lt_max_update (h.lt_max i hplace) _, fun j hj => ?_, fun j hj => ?_⟩
  · exact held_drop h.held_iff hslot rfl (fun u heq => by cases heq)
  · by_cases hji : j = i
    · subst hji
      simp [Progresser.setCall]
    · simpa [Progresser.setCall, hji] using h.tracked_iff j
  · by_cases hji : j = i
    · subst hji
      simp [Progresser.setCall]
    · simpa [Progresser.setCall, hji] using h.reported_tracked j hj
  · by_cases hji : j = i
    · subst hji
      simp [Progresser.setCall, h.reported_of_slot hslot]
    · have := h.requests_tracked j (by simpa [Progresser.setCall, hji] using hj)
      simpa [Progresser.setCall, hji] using this

/-- Step lemma for a report of `MPI_Testsome`. -/
theorem report (h : SlotInv s free place) {i : Nat} (hreq : s.requests i ≠ none) :
    SlotInv { s with
      requests := Function.update s.requests i none
      reported := Function.update s.reported i true } free place where
  manager := h.manager
  nodup := h.nodup
  free_iff := h.free_iff
  held_iff := h.held_iff
  tracked_iff := h.tracked_iff
  lt_max := h.lt_max
  reported_tracked j hj := by
    by_cases hji : j = i
    · exact hji ▸ (h.requests_tracked i hreq).1
    · exact h.reported_tracked j (by simpa [hji] using hj)
  requests_tracked j hj := by
    by_cases hji : j = i
    · subst hji
      simp at hj
    · have := h.requests_tracked j (by simpa [hji] using hj)
      simpa [hji] using this

/-- Step lemma for the start of a call of `release`. -/
theorem release (h : SlotInv s free place) {t i readyop : Nat} (hcall : s.call t = .idle)
    (hrep : s.reported i = true) :
    ∃ place', SlotInv ({ s with
      readyList := readyop :: s.readyList
      tracked := Function.update s.tracked i none
      reported := Function.update s.reported i false }.setCall t (.releasePut i))
      free place' := by
  have hplace : place i = .tracked := (h.tracked_iff i).mp (h.reported_tracked i hrep)
  have hreq : s.requests i = none := by
    by_contra hne
    have := (h.requests_tracked i hne).2
    rw [hrep] at this
    cases this
  have hfree : place i ≠ .free := by
    rw [hplace]
    exact fun heq => by cases heq
  refine ⟨Function.update place i (.held t), h.manager, h.nodup,
    h.free_iff_update hfree (fun heq => by cases heq), ?_, fun j => ?_,
    h.lt_max_update (h.lt_max i hfree) _, fun j hj => ?_, fun j hj => ?_⟩
  · refine held_acquire h.held_iff (by rw [hcall]; rfl) rfl (fun u => ?_)
    rw [hplace]
    exact fun heq => by cases heq
  · by_cases hji : j = i
    · subst hji
      simp [Progresser.setCall]
    · simpa [Progresser.setCall, hji] using h.tracked_iff j
  · by_cases hji : j = i
    · subst hji
      simp [Progresser.setCall] at hj
    · simpa [Progresser.setCall, hji] using
        h.reported_tracked j (by simpa [Progresser.setCall, hji] using hj)
  · by_cases hji : j = i
    · subst hji
      exact absurd hreq hj
    · have := h.requests_tracked j hj
      simpa [Progresser.setCall, hji] using this

/-- A call goes on, and writes nothing that the invariant speaks of but a `requests` entry
that it clears. -/
theorem keep (h : SlotInv s free place) {t : Nat} {c : Call} (hc : c.slot = (s.call t).slot)
    (hmanager : s'.indexManager = s.indexManager)
    (hcall' : s'.call = Function.update s.call t c) (htracked : s'.tracked = s.tracked)
    (hreported : s'.reported = s.reported)
    (hrequests : ∀ i, s'.requests i ≠ none → s.requests i ≠ none) :
    SlotInv s' free place where
  manager := hmanager ▸ h.manager
  nodup := h.nodup
  free_iff := h.free_iff
  held_iff := by
    rw [hcall']
    exact held_keep h.held_iff hc
  tracked_iff := htracked ▸ h.tracked_iff
  lt_max := h.lt_max
  reported_tracked := by
    rw [htracked, hreported]
    exact h.reported_tracked
  requests_tracked i hi := by
    rw [htracked, hreported]
    exact h.requests_tracked i (hrequests i hi)

/-- Step lemma. -/
theorem step (h : SlotInv s free place) (hs : progresserStep s a = some s') :
    ∃ free' place', SlotInv s' free' place' := by
  cases atomic_of_step hs with
  | track t op req hcall =>
      exact ⟨free, place, h.keep (by rw [hcall]; rfl) rfl rfl rfl rfl (fun _ hi => hi)⟩
  | report idx hreq => exact ⟨free, place, h.report hreq⟩
  | release t idx readyop hcall hrep hop =>
      obtain ⟨place', h'⟩ := h.release hcall hrep
      exact ⟨free, place', h'⟩
  | get t op req hcall => exact h.get hcall
  | storeOp t op req idx hcall hidx =>
      refine ⟨free, place, h.keep ?_ rfl rfl rfl rfl (fun _ hi => hi)⟩
      rw [hcall, Call.slot, Call.slot, if_pos hidx]
  | storeReq t op req idx hcall =>
      obtain ⟨place', h'⟩ := h.storeReq hcall
      exact ⟨free, place', h'⟩
  | put t idx array hcall hput => exact h.put hcall hput
  | clearReq t idx hcall =>
      refine ⟨free, place, h.keep (by rw [hcall]; rfl) rfl rfl rfl rfl (fun i hi => ?_)⟩
      by_cases hidx : i = idx
      · subst hidx
        simp [Progresser.setCall] at hi
      · simpa [Progresser.setCall, hidx] using hi
  | clearOp t idx hcall =>
      exact ⟨free, place, h.keep (by rw [hcall]; rfl) rfl rfl rfl rfl (fun _ hi => hi)⟩

end SlotInv

/-! ### What is kept -/

/-- The entries of a tracked slot are those of its call of `track`: its operation until the
slot is released, its request until it is reported. -/
structure Kept (s : Progresser) : Prop where
  op_eq : ∀ i op req, s.tracked i = some (op, req) → s.postedOps i = some op
  req_eq : ∀ i op req, s.tracked i = some (op, req) → s.reported i = false →
    s.requests i = some req

/-- A call of `track` between its two stores will find its operation where it put it. -/
def Stored (s : Progresser) : Prop :=
  ∀ t op req i, s.call t = .trackReq op req i → s.postedOps i = some op

/-- The condition: a release does not clear an entry after a later call of `track` for the
slot has stored into it (a request that was reported is not there any more). -/
def ClearsOwn (s : Progresser) (a : ProgresserAct) : Prop :=
  ∀ t i, a = .step t →
    (s.call t = .releaseReq i → s.tracked i = none ∨ s.reported i = true) ∧
    (s.call t = .releaseOp i → s.tracked i = none ∧ ∀ u op req, s.call u ≠ .trackReq op req i)

section Keeping

variable {s s' : Progresser} {a : ProgresserAct} {free : List Nat} {place : Nat → Place}

/-- A call that moves to a step other than its second store. -/
theorem call_of_setCall {t u op req i : Nat} {c : Call}
    (hc : ∀ op req i, c ≠ .trackReq op req i)
    (hu : Function.update s.call t c u = .trackReq op req i) : s.call u = .trackReq op req i := by
  by_cases hut : u = t
  · subst hut
    rw [Function.update_self] at hu
    exact absurd hu (hc op req i)
  · rwa [Function.update_of_ne hut] at hu

/-- Step lemma: the first store of a call stays until its second. -/
theorem Stored.step (hinv : SlotInv s free place) (hstored : Stored s) (hclear : ClearsOwn s a)
    (hs : progresserStep s a = some s') : Stored s' := by
  intro u op' req' i hu
  cases atomic_of_step hs with
  | track t op req hcall => exact hstored u op' req' i (call_of_setCall (by simp) hu)
  | report idx hreq => exact hstored u op' req' i hu
  | release t idx readyop hcall hrep hop =>
      exact hstored u op' req' i (call_of_setCall (by simp) hu)
  | get t op req hcall => exact hstored u op' req' i (call_of_setCall (by simp) hu)
  | storeOp t op req idx hcall hidx =>
      by_cases hut : u = t
      · subst hut
        simp only [Progresser.setCall, Function.update_self, Call.trackReq.injEq] at hu
        obtain ⟨rfl, _, rfl⟩ := hu
        simp [Progresser.setCall]
      · have hcall' : s.call u = .trackReq op' req' i := by
          simpa [Progresser.setCall, hut] using hu
        have hi : i ≠ idx := by
          rintro rfl
          exact hut (hinv.slot_inj (by rw [hcall']; rfl) (by rw [hcall, Call.slot, if_pos hidx]))
        simpa [Progresser.setCall, hi] using hstored u op' req' i hcall'
  | storeReq t op req idx hcall => exact hstored u op' req' i (call_of_setCall (by simp) hu)
  | put t idx array hcall hput => exact hstored u op' req' i (call_of_setCall (by simp) hu)
  | clearReq t idx hcall => exact hstored u op' req' i (call_of_setCall (by simp) hu)
  | clearOp t idx hcall =>
      have hcall' := call_of_setCall (by simp) hu
      have hi : i ≠ idx := by
        rintro rfl
        exact ((hclear t i rfl).2 hcall).2 u op' req' hcall'
      simpa [Progresser.setCall, hi] using hstored u op' req' i hcall'

/-- A step that writes the entries of one slot only. -/
theorem Kept.of_ne (idx : Nat) (hkept : Kept s)
    (htracked : ∀ i, i ≠ idx → s'.tracked i = s.tracked i)
    (hreported : ∀ i, i ≠ idx → s'.reported i = s.reported i)
    (hops : ∀ i, i ≠ idx → s'.postedOps i = s.postedOps i)
    (hrequests : ∀ i, i ≠ idx → s'.requests i = s.requests i)
    (hop : ∀ op req, s'.tracked idx = some (op, req) → s'.postedOps idx = some op)
    (hreq : ∀ op req, s'.tracked idx = some (op, req) → s'.reported idx = false →
      s'.requests idx = some req) : Kept s' := by
  constructor
  · intro i op req htr
    by_cases hi : i = idx
    · subst hi
      exact hop op req htr
    · rw [hops i hi]
      exact hkept.op_eq i op req ((htracked i hi).symm.trans htr)
  · intro i op req htr hrep
    by_cases hi : i = idx
    · subst hi
      exact hreq op req htr hrep
    · rw [hrequests i hi]
      exact hkept.req_eq i op req ((htracked i hi).symm.trans htr)
        ((hreported i hi).symm.trans hrep)

/-- Step lemma: a step under the condition keeps the entries. -/
theorem Kept.step (hinv : SlotInv s free place) (hkept : Kept s) (hstored : Stored s)
    (hclear : ClearsOwn s a) (hs : progresserStep s a = some s') : Kept s' := by
  cases atomic_of_step hs with
  | track t op req hcall => exact ⟨hkept.op_eq, hkept.req_eq⟩
  | report idx hreq =>
      refine hkept.of_ne idx ?_ ?_ ?_ ?_ (hkept.op_eq idx) ?_
      all_goals simp +contextual
  | release t idx readyop hcall hrep hop =>
      refine hkept.of_ne idx ?_ ?_ ?_ ?_ ?_ ?_
      all_goals simp +contextual [Progresser.setCall]
  | get t op req hcall => exact ⟨hkept.op_eq, hkept.req_eq⟩
  | storeOp t op req idx hcall hidx =>
      -- the slot is still the call's own, so it is not tracked
      have hnone : s.tracked idx = none :=
        hinv.tracked_of_slot (t := t) (by rw [hcall, Call.slot, if_pos hidx])
      refine hkept.of_ne idx ?_ ?_ ?_ ?_ ?_ ?_
      all_goals simp +contextual [Progresser.setCall, hnone]
  | storeReq t op req idx hcall =>
      have hop := hstored t op req idx hcall
      refine hkept.of_ne idx ?_ ?_ ?_ ?_ ?_ ?_
      all_goals simp +contextual [Progresser.setCall, hop]
  | put t idx array hcall hput => exact ⟨hkept.op_eq, hkept.req_eq⟩
  | clearReq t idx hcall =>
      refine hkept.of_ne idx ?_ ?_ ?_ ?_ (hkept.op_eq idx) (fun op req htr hrep => ?_)
      · simp [Progresser.setCall]
      · simp [Progresser.setCall]
      · simp [Progresser.setCall]
      · simp +contextual [Progresser.setCall]
      · rcases (hclear t idx rfl).1 hcall with hnone | hyes
        · cases hnone.symm.trans htr
        · cases hyes.symm.trans hrep
  | clearOp t idx hcall =>
      have hnone := ((hclear t idx rfl).2 hcall).1
      refine hkept.of_ne idx ?_ ?_ ?_ ?_ ?_ (hkept.req_eq idx)
      all_goals simp +contextual [Progresser.setCall, hnone]

/-- Step lemma: a step against the condition clears an entry that is needed. -/
theorem lost_of_not_clearsOwn (hclear : ¬ ClearsOwn s a) (hs : progresserStep s a = some s') :
    ¬ Stored s' ∨ ¬ Kept s' := by
  simp only [ClearsOwn, not_forall] at hclear
  obtain ⟨t, i, rfl, hbad⟩ := hclear
  rcases not_and_or.mp hbad with hreq | hop
  · obtain ⟨hcall, hbad⟩ := Classical.not_imp.mp hreq
    obtain ⟨htr, hrep⟩ := not_or.mp hbad
    obtain ⟨⟨op, req⟩, htr⟩ := Option.ne_none_iff_exists'.mp htr
    simp only [progresserStep, Progresser.stepCall, hcall, Option.some.injEq] at hs
    subst hs
    refine Or.inr (fun hkept => ?_)
    have := hkept.req_eq i op req htr (by simpa [Progresser.setCall] using hrep)
    simp [Progresser.setCall] at this
  · obtain ⟨hcall, hbad⟩ := Classical.not_imp.mp hop
    simp only [progresserStep, Progresser.stepCall, hcall, Option.some.injEq] at hs
    subst hs
    rcases not_and_or.mp hbad with htr | hu
    · obtain ⟨⟨op, req⟩, htr⟩ := Option.ne_none_iff_exists'.mp htr
      refine Or.inr (fun hkept => ?_)
      have := hkept.op_eq i op req htr
      simp [Progresser.setCall] at this
    · simp only [not_forall, not_not] at hu
      obtain ⟨u, op, req, hu⟩ := hu
      refine Or.inl (fun hstored => ?_)
      have hut : u ≠ t := by
        rintro rfl
        cases hcall.symm.trans hu
      have := hstored u op req i (by simpa [Progresser.setCall, hut] using hu)
      simp [Progresser.setCall] at this

/-- Step lemma: a call of `track` whose operation was cleared returns without it. -/
theorem lost_persists (hinv : SlotInv s free place) (hlost : ¬ Stored s)
    (hs : progresserStep s a = some s') : ¬ Stored s' ∨ ¬ Kept s' := by
  simp only [Stored, not_forall] at hlost
  obtain ⟨u, op, req, i, hu, hne⟩ := hlost
  have hslot : (s.call u).slot = some i := by rw [hu]; rfl
  by_cases ha : a = .step u
  · subst ha
    have hlt : i < ffmpiMaxReq := by
      refine hinv.lt_max i ?_
      rw [hinv.place_of_slot hslot]
      exact fun heq => by cases heq
    simp only [progresserStep, Progresser.stepCall, hu, if_pos hlt, Option.some.injEq] at hs
    subst hs
    refine Or.inr (fun hkept => hne ?_)
    exact hkept.op_eq i op req (by simp [Progresser.setCall])
  · have hkeep : s'.call u = s.call u ∧ s'.postedOps i ≠ some op := by
      cases atomic_of_step hs with
      | track t op' req' hcall =>
          have hut : u ≠ t := by
            rintro rfl
            cases hcall.symm.trans hu
          exact ⟨by simp [Progresser.setCall, hut], hne⟩
      | report idx hreq => exact ⟨rfl, hne⟩
      | release t idx readyop hcall hrep hop =>
          have hut : u ≠ t := by
            rintro rfl
            cases hcall.symm.trans hu
          exact ⟨by simp [Progresser.setCall, hut], hne⟩
      | get t op' req' hcall =>
          exact ⟨by simp [Progresser.setCall, show u ≠ t from fun h => ha (h ▸ rfl)], hne⟩
      | storeOp t op' req' idx hcall hidx =>
          have hut : u ≠ t := fun h => ha (h ▸ rfl)
          have hi : i ≠ idx := by
            rintro rfl
            exact hut (hinv.slot_inj hslot (by rw [hcall, Call.slot, if_pos hidx]))
          exact ⟨by simp [Progresser.setCall, hut], by simpa [Progresser.setCall, hi] using hne⟩
      | storeReq t op' req' idx hcall =>
          exact ⟨by simp [Progresser.setCall, show u ≠ t from fun h => ha (h ▸ rfl)], hne⟩
      | put t idx array hcall hput =>
          exact ⟨by simp [Progresser.setCall, show u ≠ t from fun h => ha (h ▸ rfl)], hne⟩
      | clearReq t idx hcall =>
          exact ⟨by simp [Progresser.setCall, show u ≠ t from fun h => ha (h ▸ rfl)], hne⟩
      | clearOp t idx hcall =>
          refine ⟨by simp [Progresser.setCall, show u ≠ t from fun h => ha (h ▸ rfl)], ?_⟩
          by_cases hi : i = idx
          · simp [Progresser.setCall, hi]
          · simpa [Progresser.setCall, hi] using hne
    exact Or.inl (fun hstored => hkeep.2 (hstored u op req i (hkeep.1.trans hu)))

end Keeping

/-- **Slots between release and track.**  In a run in which no release clears an entry after
a later call of `track` has stored into it, the entries of every tracked slot are kept; and
only in such runs, when no call of `track` is left between its two stores. -/
theorem tracked_kept_iff (mem : Nat → ArmanEntry) (as : List ProgresserAct) (t : Progresser)
    (hr : run progresserStep (ffopMpiProgresserInit mem) as = some t) :
    (RunMeets progresserStep ClearsOwn (ffopMpiProgresserInit mem) as →
      RunAlways progresserStep Kept (ffopMpiProgresserInit mem) as) ∧
    ((∀ u op req i, t.call u ≠ .trackReq op req i) →
      RunAlways progresserStep Kept (ffopMpiProgresserInit mem) as →
      RunMeets progresserStep ClearsOwn (ffopMpiProgresserInit mem) as) := by
  have hinit := slotInv_init mem
  constructor
  · refine runAlways_of_meets (I := fun s => (∃ free place, SlotInv s free place) ∧ Kept s ∧
      Stored s) (fun s hs => hs.2.1) ?_ as _ ⟨⟨_, _, hinit⟩, ⟨?_, ?_⟩, ?_⟩
    · rintro s a s' ⟨⟨free, place, hinv⟩, hkept, hstored⟩ hclear hs
      exact ⟨hinv.step hs, hkept.step hinv hstored hclear hs, hstored.step hinv hclear hs⟩
    · intro i op req htr
      cases htr
    · intro i op req htr
      cases htr
    · intro u op req i hu
      cases hu
  · intro hsettled halways
    refine halways.meets (I := fun s => ∃ free place, SlotInv s free place)
      (D := fun s => ¬ Stored s) ?_ ?_ ?_ as _ t ⟨_, _, hinit⟩ hr ?_
    · rintro s a s' ⟨free, place, hinv⟩ hs
      exact hinv.step hs
    · exact fun s a s' _ hclear hs => lost_of_not_clearsOwn hclear hs
    · rintro s a s' ⟨free, place, hinv⟩ hlost hs
      exact lost_persists hinv hlost hs
    · exact not_not.mpr (fun u op req i hu => absurd hu (hsettled u op req i))

/-- Entries before `malloc` has been written to. -/
def blankEntries : Nat → ArmanEntry := fun _ => ⟨0, none⟩

/-- One operation is tracked, reported and released, then another is tracked. -/
def releaseThenTrack : List ProgresserAct :=
  [.track 0 1 1, .step 0, .step 0, .step 0, .report 0, .release 1 0, .step 1, .step 1, .step 1,
    .track 0 2 2, .step 0, .step 0, .step 0]

/-- The second call of `track` comes between the put of the release and its stores. -/
def trackInRelease : List ProgresserAct :=
  [.track 0 1 1, .step 0, .step 0, .step 0, .report 0, .release 1 0, .step 1,
    .track 0 2 2, .step 0, .step 0, .step 0, .step 1, .step 1]

theorem tracked_kept_iff_sequential :
    ∃ t, run progresserStep (ffopMpiProgresserInit blankEntries) releaseThenTrack = some t ∧
      (RunMeets progresserStep ClearsOwn (ffopMpiProgresserInit blankEntries)
          releaseThenTrack →
        RunAlways progresserStep Kept (ffopMpiProgresserInit blankEntries)
          releaseThenTrack) := by
  refine ⟨_, rfl, ?_⟩
  exact (tracked_kept_iff blankEntries releaseThenTrack _ rfl).1

/-- The request of the second call is lost. -/
theorem tracked_kept_fails :
    ¬ ∀ (mem : Nat → ArmanEntry) (as : List ProgresserAct) (t : Progresser),
      run progresserStep (ffopMpiProgresserInit mem) as = some t → Kept t := by
  intro hall
  obtain ⟨t, ht, htr, hrep, hreq⟩ : ∃ t, run progresserStep
      (ffopMpiProgresserInit blankEntries) trackInRelease = some t ∧
      t.tracked 0 = some (2, 2) ∧ t.reported 0 = false ∧ t.requests 0 = none :=
    ⟨_, rfl, rfl, rfl, rfl⟩
  have := (hall blankEntries trackInRelease t ht).req_eq 0 2 2 htr hrep
  rw [hreq] at this
  cases this

end Fflib
