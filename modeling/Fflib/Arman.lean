import Mathlib.Algebra.Group.Nat.Defs
import Fflib.Library.Chain

/-!
# The index manager

`ffarman.c`: indices `0`, …, `count - 1` are handed out and taken back.  The entries
of the array are linked into two lists, the free entries and those that are spare; a
pointer to an entry is its position in the array.

* `Ffarman.Lists` are the two lists, `Ffarman.Lists.get` and `Ffarman.Lists.put` what the
  calls do to them.
* `Ffarman.Holds` says which indices a manager has to give, in order.
* `ffarmanCreate_holds`, `ffarmanGet_of_cons` and `ffarmanPut_spec` are the
  specifications of the three functions, `ffarmanGet_of_nil` that of a get that
  fails.
-/

namespace Fflib

open Library

/-- `entry_t`. -/
structure ArmanEntry where
  idx : Nat
  next : Option Nat

/-- `ffarman_t`. -/
structure Ffarman where
  entries : Nat → ArmanEntry
  freeEntries : Option Nat
  freeFreeEntries : Option Nat

/-- `ffarman_create` on the memory that `malloc` has returned. -/
def ffarmanCreate (count : Nat) (mem : Nat → ArmanEntry) : Ffarman where
  entries i := if i < count then ⟨i, if i = count - 1 then none else some (i + 1)⟩ else mem i
  freeEntries := some 0
  freeFreeEntries := none

/-- `ffarman_get`; the answer to a get that fails is `(uint32_t) -1`. -/
def ffarmanGet (array : Ffarman) : Nat × Ffarman :=
  match array.freeEntries with
  | none => (2 ^ 32 - 1, array)
  | some e =>
      ((array.entries e).idx,
        { entries := Function.update array.entries e
            ⟨(array.entries e).idx, array.freeFreeEntries⟩
          freeEntries := (array.entries e).next
          freeFreeEntries := some e })

/-- `ffarman_put`; `none` is the assertion that fails. -/
def ffarmanPut (array : Ffarman) (idx : Nat) : Option Ffarman :=
  array.freeFreeEntries.map fun e =>
    { entries := Function.update array.entries e ⟨idx, array.freeEntries⟩
      freeEntries := some e
      freeFreeEntries := (array.entries e).next }

/-- The two lists of a manager. -/
structure Ffarman.Lists (array : Ffarman) (cells spare : List Nat) : Prop where
  free_linked : Linked (fun e => (array.entries e).next) array.freeEntries cells
  spare_linked : Linked (fun e => (array.entries e).next) array.freeFreeEntries spare
  nodup : (cells ++ spare).Nodup

/-- The manager of `n` entries has the indices `free` to give, in this order. -/
def Ffarman.Holds (array : Ffarman) (n : Nat) (free : List Nat) : Prop :=
  ∃ cells spare, Linked (fun e => (array.entries e).next) array.freeEntries cells ∧
    Linked (fun e => (array.entries e).next) array.freeFreeEntries spare ∧
    (cells ++ spare).Nodup ∧ cells.map (fun e => (array.entries e).idx) = free ∧
    cells.length + spare.length = n

section Arman

variable {array : Ffarman} {n i : Nat} {free : List Nat}

/-- A new manager has all its entries in one list. -/
theorem ffarmanCreate_lists (hpos : 0 < n) (mem : Nat → ArmanEntry) :
    (ffarmanCreate n mem).Lists (List.range n) [] := by
  constructor
  · have hlinked : Linked (fun e => ((ffarmanCreate n mem).entries e).next) (some (id 0))
        ((List.range n).map id) := by
      refine linked_range hpos (fun j hj => ?_)
      simp only [ffarmanCreate, id, if_pos hj]
      by_cases hlast : j = n - 1
      · rw [if_pos hlast, if_neg (by omega)]
      · rw [if_neg hlast, if_pos (by omega)]
    rwa [List.map_id] at hlinked
  · rfl
  · simpa using List.nodup_range

theorem ffarmanCreate_idx (n : Nat) (mem : Nat → ArmanEntry) :
    (List.range n).map (fun e => ((ffarmanCreate n mem).entries e).idx) = List.range n := by
  conv_rhs => rw [← List.map_id (List.range n)]
  refine List.map_congr_left (fun j hj => ?_)
  simp [ffarmanCreate, List.mem_range.mp hj]

theorem ffarmanCreate_holds (hpos : 0 < n) (mem : Nat → ArmanEntry) :
    (ffarmanCreate n mem).Holds n (List.range n) := by
  have h := ffarmanCreate_lists hpos mem
  refine ⟨List.range n, [], h.free_linked, h.spare_linked, h.nodup, ffarmanCreate_idx n mem, ?_⟩
  simp

/-- A get moves the first entry to the spare ones. -/
theorem Ffarman.Lists.get {e : Nat} {cells spare : List Nat}
    (h : array.Lists (e :: cells) spare) :
    (ffarmanGet array).1 = (array.entries e).idx ∧
      (ffarmanGet array).2.Lists cells (e :: spare) ∧
      ∀ c, ((ffarmanGet array).2.entries c).idx = (array.entries c).idx := by
  have hget : ffarmanGet array = ((array.entries e).idx,
      { entries := Function.update array.entries e
          ⟨(array.entries e).idx, array.freeFreeEntries⟩
        freeEntries := (array.entries e).next
        freeFreeEntries := some e }) := by
    simp only [ffarmanGet, h.free_linked.1]
  obtain ⟨hnotin, _⟩ := List.nodup_cons.mp h.nodup
  have hne : ∀ c ∈ cells ++ spare, c ≠ e := by
    rintro c hc rfl
    exact hnotin hc
  rw [hget]
  refine ⟨rfl, ?_, fun c => ?_⟩
  · constructor
    · refine h.free_linked.2.congr (fun c hc => ?_)
      simp [hne c (List.mem_append_left _ hc)]
    · refine ⟨rfl, ?_⟩
      simp only [Function.update_self]
      refine h.spare_linked.congr (fun c hc => ?_)
      simp [hne c (List.mem_append_right _ hc)]
    · exact (List.perm_middle.nodup_iff).mpr h.nodup
  · by_cases hc : c = e
    · simp [hc]
    · simp [hc]

/-- A put takes a spare entry for its index. -/
theorem Ffarman.Lists.put {e : Nat} {cells spare : List Nat}
    (h : array.Lists cells (e :: spare)) (idx : Nat) :
    ∃ array', ffarmanPut array idx = some array' ∧ array'.Lists (e :: cells) spare ∧
      (array'.entries e).idx = idx ∧
      ∀ c ∈ cells, (array'.entries c).idx = (array.entries c).idx := by
  have hput : ffarmanPut array idx = some
      { entries := Function.update array.entries e ⟨idx, array.freeEntries⟩
        freeEntries := some e
        freeFreeEntries := (array.entries e).next } := by
    simp only [ffarmanPut, h.spare_linked.1, Option.map_some]
  have hnd : (e :: (cells ++ spare)).Nodup := (List.perm_middle.nodup_iff).mp h.nodup
  have hne : ∀ c ∈ cells ++ spare, c ≠ e := by
    rintro c hc rfl
    exact (List.nodup_cons.mp hnd).1 hc
  refine ⟨_, hput, ?_, ?_, fun c hc => ?_⟩
  · constructor
    · refine ⟨rfl, ?_⟩
      simp only [Function.update_self]
      refine h.free_linked.congr (fun c hc => ?_)
      simp [hne c (List.mem_append_left _ hc)]
    · refine h.spare_linked.2.congr (fun c hc => ?_)
      simp [hne c (List.mem_append_right _ hc)]
    · exact hnd
  · simp
  · simp [hne c (List.mem_append_left _ hc)]

/-- A get takes the first index. -/
theorem ffarmanGet_of_cons (h : array.Holds n (i :: free)) :
    (ffarmanGet array).1 = i ∧ (ffarmanGet array).2.Holds n free := by
  obtain ⟨cells, spare, hcells, hspare, hnd, hidx, hlen⟩ := h
  cases cells with
  | nil => cases hidx
  | cons e cells =>
      obtain ⟨hidx, hrest⟩ := List.cons.inj hidx
      have hlists : array.Lists (e :: cells) spare := ⟨hcells, hspare, hnd⟩
      obtain ⟨hfirst, hlists', hsame⟩ := hlists.get
      refine ⟨hfirst.trans hidx, cells, e :: spare, hlists'.free_linked, hlists'.spare_linked,
        hlists'.nodup, ?_, ?_⟩
      · rw [← hrest]
        exact List.map_congr_left (fun c _ => hsame c)
      · simp only [List.length_cons] at hlen ⊢
        omega

/-- A get fails when every index is taken. -/
theorem ffarmanGet_of_nil (h : array.Holds n []) : ffarmanGet array = (2 ^ 32 - 1, array) := by
  obtain ⟨cells, spare, hcells, _, _, hidx, _⟩ := h
  obtain rfl := List.map_eq_nil_iff.mp hidx
  simp only [ffarmanGet, linked_nil.mp hcells]

/-- A put makes its index the first. -/
theorem ffarmanPut_spec (h : array.Holds n free) (hlt : free.length < n) (idx : Nat) :
    ∃ array', ffarmanPut array idx = some array' ∧ array'.Holds n (idx :: free) := by
  obtain ⟨cells, spare, hcells, hspare, hnd, hidx, hlen⟩ := h
  have hcount : cells.length = free.length := by
    rw [← hidx, List.length_map]
  cases spare with
  | nil =>
      simp only [List.length_nil] at hlen
      omega
  | cons e spare =>
      have hlists : array.Lists cells (e :: spare) := ⟨hcells, hspare, hnd⟩
      obtain ⟨array', hput, hlists', hfirst, hsame⟩ := hlists.put idx
      refine ⟨array', hput, e :: cells, spare, hlists'.free_linked, hlists'.spare_linked,
        hlists'.nodup, ?_, ?_⟩
      · rw [List.map_cons, hfirst, ← hidx]
        exact congrArg (idx :: ·) (List.map_congr_left hsame)
      · simp only [List.length_cons] at hlen ⊢
        omega

/-- A manager has one list to give. -/
theorem Ffarman.Holds.unique {free' : List Nat} (h : array.Holds n free)
    (h' : array.Holds n free') : free = free' := by
  obtain ⟨cells, spare, hcells, _, _, rfl, _⟩ := h
  obtain ⟨cells', spare', hcells', _, _, rfl, _⟩ := h'
  rw [hcells.unique hcells']

theorem Ffarman.Holds.length_le (h : array.Holds n free) : free.length ≤ n := by
  obtain ⟨cells, spare, _, _, _, hidx, hlen⟩ := h
  rw [← hidx, List.length_map]
  omega

/-- The manager has run out of indices iff it has none to give. -/
theorem Ffarman.Holds.freeEntries_eq_none (h : array.Holds n free) :
    array.freeEntries = none ↔ free = [] := by
  obtain ⟨cells, spare, hcells, _, _, hidx, _⟩ := h
  cases cells with
  | nil => exact iff_of_true hcells hidx.symm
  | cons e cells =>
      refine iff_of_false ?_ ?_
      · rw [hcells.1]
        exact fun heq => by cases heq
      · rw [← hidx]
        exact fun heq => by cases heq

/-- The manager has no spare entry iff it has all its indices. -/
theorem Ffarman.Holds.freeFreeEntries_eq_none (h : array.Holds n free) :
    array.freeFreeEntries = none ↔ free.length = n := by
  obtain ⟨cells, spare, _, hspare, _, hidx, hlen⟩ := h
  have hcount : cells.length = free.length := by rw [← hidx, List.length_map]
  cases spare with
  | nil =>
      rw [List.length_nil] at hlen
      exact iff_of_true hspare (by omega)
  | cons e spare =>
      rw [List.length_cons] at hlen
      refine iff_of_false ?_ (by omega)
      rw [hspare.1]
      exact fun heq => by cases heq

end Arman

/-- A list of indices below `n` that misses one has room for it. -/
theorem length_lt_of_missing {n i : Nat} {free : List Nat} (hnd : free.Nodup)
    (hlt : ∀ j ∈ free, j < n) (hi : i < n) (hfree : i ∉ free) : free.length < n := by
  have hsub : i :: free ⊆ List.range n := by
    intro j hj
    rw [List.mem_range]
    rcases List.mem_cons.mp hj with rfl | hj
    · exact hi
    · exact hlt j hj
  have hle := (List.nodup_cons.mpr ⟨hfree, hnd⟩).length_le_of_subset hsub
  rw [List.length_range, List.length_cons] at hle
  omega

end Fflib
