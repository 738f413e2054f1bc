import Fflib.Tracked

/-!
# The tables hold what is pending

`TrackedOk` is the invariant of one process: the active slots of its table are its pending
operations, each in one slot, and its ready list is finite.

* `TrackedOk.post`: a slot is free when a request is posted, if a schedule has at most
  `FFMPI_MAX_REQ` of them.
* `TrackedOk.report`: what a progress call does to the table and to the ready list.
-/

namespace Fflib

open Library

universe u

/-- `free` are the indices that are free, `r` the operations on the ready list. -/
structure TrackedOk (c : TrackedProc) (free r : List Nat) : Prop where
  table : TrackInv c.tracker free
  handle : ∀ j x req, c.tracker.active j = some (x, req) → req = x
  tracked : ∀ x, x ∈ c.proc.pending ↔ ∃ j, c.tracker.active j = some (x, x)
  once : ∀ j k x, c.tracker.active j = some (x, x) → c.tracker.active k = some (x, x) → j = k
  linked : Linked (nexts c.proc.ops) c.cursor r
  between : ∀ h, c.walk = .test h → c.proc.prog = []

theorem trackedOk_init (mem : Nat → ArmanEntry) (ops : Nat → Ffop) :
    TrackedOk { proc := Proc.init ops, tracker := Tracker.init mem, walk := .test none }
      (List.range ffmpiMaxReq) [] where
  table := trackInv_init mem
  handle j x req h := by cases h
  tracked x := by simp [Proc.init, Tracker.init]
  once j k x h := by cases h
  linked := rfl
  between _ _ := rfl

section Process

variable {c : TrackedProc} {free r : List Nat}

/-- The process moves, and neither its table nor its links change. -/
theorem TrackedOk.keep (h : TrackedOk c free r) {p : Proc} (hpend : p.pending = c.proc.pending)
    (hnext : nexts p.ops = nexts c.proc.ops) (hprog : c.proc.prog = [] → p.prog = []) :
    TrackedOk { c with proc := p } free r where
  table := h.table
  handle := h.handle
  tracked x := by
    rw [hpend]
    exact h.tracked x
  once := h.once
  linked := by
    have hcursor : TrackedProc.cursor { c with proc := p } = c.cursor := by
      cases hw : c.walk with
      | test b => simp only [TrackedProc.cursor, hw]
      | advance op =>
          simp only [TrackedProc.cursor, hw]
          exact congrFun hnext op
    rw [hcursor, show nexts p.ops = _ from hnext]
    exact h.linked
  between b hb := hprog (h.between b hb)

/-- A table that is full has as many pending operations as slots. -/
theorem TrackedOk.full (h : TrackedOk c [] r) {s : Finset Nat}
    (hs : ∀ x, x ∈ c.proc.pending → x ∈ s) : ffmpiMaxReq ≤ s.card := by
  have hactive : ∀ j, j < ffmpiMaxReq → ∃ x, c.tracker.active j = some (x, x) := by
    intro j hj
    have hne : c.tracker.active j ≠ none := fun hno =>
      absurd ((h.table.free_iff j).mpr ⟨hj, hno⟩) (List.not_mem_nil)
    obtain ⟨⟨x, req⟩, hx⟩ := Option.ne_none_iff_exists'.mp hne
    obtain rfl := h.handle j x req hx
    exact ⟨_, hx⟩
  choose! op hop using hactive
  rw [← Finset.card_range ffmpiMaxReq]
  refine Finset.card_le_card_of_injOn op (fun j hj => ?_) (fun j hj k hk heq => ?_)
  · have hj : j < ffmpiMaxReq := by simpa using hj
    exact hs _ ((h.tracked _).mpr ⟨j, hop j hj⟩)
  · have hj : j < ffmpiMaxReq := by simpa using hj
    have hk : k < ffmpiMaxReq := by simpa using hk
    have heq : op j = op k := heq
    exact h.once j k (op j) (hop j hj) (heq ▸ hop k hk)

/-- An operation that becomes pending finds a slot. -/
theorem TrackedOk.post (h : TrackedOk c free r) {p : Proc} {x : Nat}
    (hpend : p.pending = x :: c.proc.pending) (hx : x ∉ c.proc.pending)
    (hnext : nexts p.ops = nexts c.proc.ops) (hprog : c.proc.prog = [] → p.prog = [])
    (hfree : free ≠ []) :
    ∃ free', TrackedOk { c with proc := p, tracker := (c.tracker.track x x).2 } free' r := by
  cases free with
  | nil => exact absurd rfl hfree
  | cons i free =>
      have hget := (ffarmanGet_of_cons h.table.manager).1
      have hactive : (c.tracker.track x x).2.active =
          Function.update c.tracker.active i (some (x, x)) := by
        rw [track_eq, hget]
      have hslot := ((h.table.free_iff i).mp List.mem_cons_self).2
      have hcases : ∀ j y, (c.tracker.track x x).2.active j = some (y, y) ↔
          (j = i ∧ y = x) ∨ c.tracker.active j = some (y, y) := by
        intro j y
        rw [hactive]
        by_cases hj : j = i
        · subst hj
          simp [hslot, eq_comm]
        · simp [hj]
      have hkeep : TrackedOk { c with proc := { p with pending := c.proc.pending } }
          (i :: free) r := h.keep rfl hnext hprog
      refine ⟨free, h.table.track x x, fun j y req hj => ?_, fun y => ?_, fun j k y hj hk => ?_,
        hkeep.linked, hkeep.between⟩
      · simp only [hactive] at hj
        by_cases hji : j = i
        · subst hji
          rw [Function.update_self, Option.some.injEq, Prod.mk.injEq] at hj
          exact hj.2.symm.trans hj.1
        · rw [Function.update_of_ne hji] at hj
          exact h.handle j y req hj
      · simp only [hpend, List.mem_cons, hcases, h.tracked]
        constructor
        · rintro (rfl | ⟨j, hj⟩)
          · exact ⟨i, Or.inl ⟨rfl, rfl⟩⟩
          · exact ⟨j, Or.inr hj⟩
        · rintro ⟨j, ⟨_, rfl⟩ | hj⟩
          · exact Or.inl rfl
          · exact Or.inr ⟨j, hj⟩
      · have hnew : ∀ l, c.tracker.active l ≠ some (x, x) := fun l hl =>
          hx ((h.tracked x).mpr ⟨l, hl⟩)
        rcases (hcases j y).mp hj with ⟨rfl, rfl⟩ | hj <;>
          rcases (hcases k y).mp hk with ⟨rfl, hy⟩ | hk
        · rfl
        · exact absurd hk (hnew k)
        · exact absurd (hy ▸ hj) (hnew j)
        · exact h.once j k y hj hk

end Process

/-! ### Progress calls -/

/-- The slots that the loop has released are not active any more. -/
theorem progressLoop_active {indices : List Nat} {s s' : Tracker} {ops ops' : Nat → Ffop}
    {readyList readyList' : Option Nat}
    (h : Tracker.progressLoop indices s ops readyList = some (s', ops', readyList')) (j : Nat) :
    s'.active j = if j ∈ indices then none else s.active j := by
  induction indices generalizing s ops readyList with
  | nil =>
      obtain ⟨rfl, _⟩ := Prod.mk.inj (Option.some.inj h)
      simp
  | cons idx indices ih =>
      obtain ⟨readyop, _, h⟩ := Option.bind_eq_some_iff.mp h
      obtain ⟨s₁, hrelease, h⟩ := Option.bind_eq_some_iff.mp h
      obtain ⟨array, _, rfl⟩ := Option.map_eq_some_iff.mp hrelease
      rw [ih h]
      by_cases hj : j = idx
      · simp [hj]
      · simp [hj]

section Report

variable {c : TrackedProc} {free : List Nat} {indices : List Nat}

/-- The requests in the reported slots are those of the operations that were tracked there. -/
theorem TrackedOk.requests_eq (h : TrackedOk c free []) (hr : c.tracker.Reportable indices) :
    indices.filterMap c.tracker.requests = c.tracker.opsOf indices := by
  refine List.filterMap_congr (fun i hi => ?_)
  obtain ⟨hlt, hreq⟩ := hr.2 i hi
  obtain ⟨⟨x, req⟩, hx⟩ := Option.ne_none_iff_exists'.mp ((h.table.active_iff hlt).mp hreq)
  rw [(h.table.entry i x req hx).2, hx, h.handle i x req hx]
  rfl

theorem TrackedOk.mem_opsOf (h : TrackedOk c free []) {x : Nat} :
    x ∈ c.tracker.opsOf indices ↔ ∃ j, j ∈ indices ∧ c.tracker.active j = some (x, x) := by
  simp only [Tracker.opsOf, List.mem_filterMap, Option.map_eq_some_iff]
  constructor
  · rintro ⟨j, hj, ⟨y, req⟩, hy, rfl⟩
    obtain rfl := h.handle j y req hy
    exact ⟨j, hj, hy⟩
  · rintro ⟨j, hj, hx⟩
    exact ⟨j, hj, (x, x), hx, rfl⟩

/-- The operations of the reported slots are distinct. -/
theorem TrackedOk.opsOf_nodup (h : TrackedOk c free []) (hr : c.tracker.Reportable indices) :
    (c.tracker.opsOf indices).Nodup := by
  refine hr.1.filterMap (fun i j x hi hj => ?_)
  obtain ⟨⟨y, req⟩, hy, rfl⟩ := Option.map_eq_some_iff.mp hi
  obtain ⟨⟨z, req'⟩, hz, hzy⟩ := Option.map_eq_some_iff.mp hj
  obtain rfl : z = y := hzy
  obtain rfl := h.handle i z req hy
  obtain rfl := h.handle j _ req' hz
  exact h.once i j _ hy hz

/-- Every reported slot has an operation. -/
theorem TrackedOk.opsOf_length (h : TrackedOk c free []) (hr : c.tracker.Reportable indices) :
    (c.tracker.opsOf indices).length = indices.length := by
  refine List.filterMap_length_eq_length.mpr (fun i hi => ?_)
  obtain ⟨hlt, hreq⟩ := hr.2 i hi
  rw [Option.isSome_map, Option.isSome_iff_ne_none]
  exact (h.table.active_iff hlt).mp hreq

/-- A progress call: its slots are released, and their operations are on the ready list. -/
theorem TrackedOk.report (h : TrackedOk c free []) (hr : c.tracker.Reportable indices)
    (hnd : c.proc.pending.Nodup) (hprog : c.proc.prog = []) :
    ∃ tracker free', c.tracker.progress (some indices) c.proc.ops none =
        some (ffSuccess, tracker, enqueueAll (c.tracker.opsOf indices) c.proc.ops none) ∧
      TrackedOk
        { proc := { c.proc with
            ops := (enqueueAll (c.tracker.opsOf indices) c.proc.ops none).1
            pending := c.proc.pending.diff (c.tracker.opsOf indices) }
          tracker := tracker
          walk := .test (enqueueAll (c.tracker.opsOf indices) c.proc.ops none).2 } free'
        (c.tracker.opsOf indices).reverse := by
  obtain ⟨tracker, free', hloop, hinv⟩ := (h.table.testsome hr).progressLoop c.proc.ops none
  have hactive : ∀ j, tracker.active j = if j ∈ indices then none else c.tracker.active j :=
    fun j => progressLoop_active hloop j
  have hold : ∀ j y, tracker.active j = some y → j ∉ indices ∧ c.tracker.active j = some y := by
    intro j y hj
    rw [hactive] at hj
    split at hj
    · cases hj
    · next hno => exact ⟨hno, hj⟩
  refine ⟨tracker, free', ?_, hinv.trackInv, fun j y req hj => ?_, fun y => ?_,
    fun j k y hj hk => ?_, ?_, fun _ _ => hprog⟩
  · simp only [Tracker.progress, hloop, Option.map_some]
    rfl
  · exact h.handle j y req (hold j _ hj).2
  · simp only [hnd.mem_sdiff_iff, h.tracked, h.mem_opsOf]
    constructor
    · rintro ⟨⟨j, hj⟩, hno⟩
      refine ⟨j, ?_⟩
      rw [hactive, if_neg (fun hmem => hno ⟨j, hmem, hj⟩)]
      exact hj
    · rintro ⟨j, hj⟩
      obtain ⟨hno, hj⟩ := hold j _ hj
      refine ⟨⟨j, hj⟩, ?_⟩
      rintro ⟨k, hk, hky⟩
      exact hno (h.once k j y hky hj ▸ hk)
  · exact h.once j k y (hold j _ hj).2 (hold k _ hk).2
  · have hlist := enqueueAll_linked (c.tracker.opsOf indices) c.proc.ops none [] rfl
      (by rw [List.append_nil, List.nodup_reverse]; exact h.opsOf_nodup hr)
    rwa [List.append_nil] at hlist

end Report

end Fflib
