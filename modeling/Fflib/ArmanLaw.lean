import Fflib.Arman
import Fflib.Storage

/-!
# Runs of the index manager

Callers get indices from a manager and put back, in any order, those that they hold
(`armanStep`).  The memory of the manager is what `ffarman_create` asks `malloc` for:
`count + 1` entries, in the arithmetic of `uint32_t` (`ffarmanCreateIn`); a store behind it is
left out (`none`).

An entry is not tied to an index: a put takes any spare entry, and writes its index to it.
`ArmanLists` relates the two lists, what is written in their entries, and what is held.
`armanLaw_iff`: the manager does what it is for iff its memory has room for all entries.
-/

namespace Fflib

open Library

/-- The entries for which `ffarman_create` allocates memory. -/
def armanRoom (count : Nat) : Nat := addU32 count 1

/-- An entry is written. -/
def storeEntry (room i : Nat) (e : ArmanEntry) (entries : Nat → ArmanEntry) :
    Option (Nat → ArmanEntry) :=
  if i < room then some (Function.update entries i e) else none

/-- The loop of `ffarman_create`: `k` iterations from `i` on. -/
def linkEntries (room : Nat) :
    Nat → Nat → (Nat → ArmanEntry) → Option (Nat → ArmanEntry)
  | 0, _, entries => some entries
  | k + 1, i, entries =>
      (storeEntry room i ⟨i, some (i + 1)⟩ entries).bind (linkEntries room k (i + 1))

/-- `ffarman_create` when `malloc` succeeds, with what `malloc` has returned. -/
def ffarmanCreateIn (count : Nat) (mem : Nat → ArmanEntry) : Option Ffarman :=
  let last := subU32 count 1
  (linkEntries (armanRoom count) count 0 mem).bind fun entries =>
    (storeEntry (armanRoom count) last ⟨(entries last).idx, none⟩ entries).map fun entries =>
      { entries := entries, freeEntries := some 0, freeFreeEntries := none }

/-! ### Runs -/

/-- The answer of `ffarman_get` when there is no index. -/
def noIndex : Nat := 2 ^ 32 - 1

/-- A manager, and the indices that callers hold. -/
structure ArmanState where
  array : Ffarman
  held : List Nat

inductive ArmanCall where
  | get
  | put (idx : Nat)
deriving DecidableEq

/-- One call; only indices that are held are put back. -/
def armanStep (s : ArmanState) : ArmanCall → Option ArmanState
  | .get =>
      let r := ffarmanGet s.array
      some ⟨r.2, if r.1 = noIndex then s.held else r.1 :: s.held⟩
  | .put idx =>
      if idx ∈ s.held then
        (ffarmanPut s.array idx).map fun array => ⟨array, s.held.erase idx⟩
      else none

/-- The free entries are `cells`, the others `spare`; together they are the `count` entries of
the array, and their indices with those that are held are all indices. -/
structure ArmanLists (count : Nat) (s : ArmanState) (cells spare : List Nat) : Prop where
  lists : s.array.Lists cells spare
  entries_perm : (cells ++ spare).Perm (List.range count)
  indices_perm : (cells.map (fun e => (s.array.entries e).idx) ++ s.held).Perm
    (List.range count)
  spare_length : spare.length = s.held.length

/-- The state of a manager of `count` indices is in order. -/
def ArmanOk (count : Nat) (s : ArmanState) : Prop := ∃ cells spare, ArmanLists count s cells spare

/-- A get finds an index that nobody holds, unless all are held, and a put of an index that
is held finds an entry. -/
def ArmanServes (count : Nat) (s : ArmanState) : ArmanCall → Prop
  | .get => ((ffarmanGet s.array).1 = noIndex ↔ ∀ i, i < count → i ∈ s.held) ∧
      ((ffarmanGet s.array).1 ≠ noIndex →
        (ffarmanGet s.array).1 < count ∧ (ffarmanGet s.array).1 ∉ s.held)
  | .put idx => idx ∈ s.held → (ffarmanPut s.array idx).isSome = true

/-- The law of the index manager, for a run on a manager from `ffarman_create(count)`. -/
def ArmanLaw (count : Nat) (mem : Nat → ArmanEntry) (calls : List ArmanCall) : Prop :=
  ∃ array, ffarmanCreateIn count mem = some array ∧
    RunAlways armanStep (ArmanOk count) ⟨array, []⟩ calls ∧
    RunMeets armanStep (ArmanServes count) ⟨array, []⟩ calls

/-! ### Creation -/

section Create

variable {room count : Nat}

/-- The loop stays inside the memory iff its last store does. -/
theorem linkEntries_eq (k i : Nat) (entries : Nat → ArmanEntry) :
    linkEntries room k i entries =
      if k = 0 ∨ i + k ≤ room then
        some fun j => if i ≤ j ∧ j < i + k then ⟨j, some (j + 1)⟩ else entries j
      else none := by
  induction k generalizing i entries with
  | zero =>
      rw [if_pos (Or.inl rfl), linkEntries]
      congr 1
      funext j
      rw [if_neg (by omega)]
  | succ k ih =>
      rw [linkEntries, storeEntry]
      by_cases hi : i < room
      · rw [if_pos hi, Option.bind_some, ih (i + 1)]
        by_cases hk : i + 1 + k ≤ room
        · rw [if_pos (Or.inr hk), if_pos (Or.inr (by omega))]
          congr 1
          funext j
          by_cases hj : j = i
          · subst hj
            rw [if_neg (by omega), if_pos (by omega), Function.update_self]
          · rw [Function.update_of_ne hj]
            by_cases hjk : i + 1 ≤ j ∧ j < i + 1 + k
            · rw [if_pos hjk, if_pos (by omega)]
            · rw [if_neg hjk, if_neg (by omega)]
        · rw [if_neg (by omega), if_neg (by omega)]
      · rw [if_neg hi, if_neg (by omega), Option.bind_none]

/-- The stores stay inside the memory iff `count + 1` does not wrap around. -/
theorem ffarmanCreateIn_eq (hpos : 1 ≤ count) (hlt : count < 2 ^ 32) (mem : Nat → ArmanEntry) :
    ffarmanCreateIn count mem =
      if count ≠ 2 ^ 32 - 1 then some (ffarmanCreate count mem) else none := by
  by_cases hne : count ≠ 2 ^ 32 - 1
  · have hroom : armanRoom count = count + 1 := addU32_of_lt (by omega)
    have hlast : subU32 count 1 = count - 1 := subU32_of_le hpos hlt
    have hentries : ∀ i, Function.update
        (fun j => if 0 ≤ j ∧ j < 0 + count then ⟨j, some (j + 1)⟩ else mem j) (count - 1)
        ⟨count - 1, none⟩ i = (ffarmanCreate count mem).entries i := by
      intro i
      simp only [ffarmanCreate]
      by_cases hi : i = count - 1
      · rw [hi, Function.update_self, if_pos (by omega), if_pos rfl]
      · rw [Function.update_of_ne hi, if_neg hi]
        by_cases hic : i < count
        · rw [if_pos hic, if_pos (by omega)]
        · rw [if_neg hic, if_neg (by omega)]
    have hin : 0 ≤ count - 1 ∧ count - 1 < 0 + count := by omega
    have hlt' : count - 1 < count + 1 := by omega
    rw [if_pos hne, ffarmanCreateIn]
    simp only [hroom, hlast]
    rw [linkEntries_eq, if_pos (Or.inr (by omega)), Option.bind_some]
    simp only [storeEntry, if_pos hin, if_pos hlt', Option.map_some]
    rw [funext hentries]
    rfl
  · have hroom : armanRoom count = 0 := by
      rw [armanRoom, addU32]
      omega
    rw [if_neg hne, ffarmanCreateIn]
    simp only [hroom]
    rw [linkEntries_eq, if_neg (by omega), Option.bind_none]

theorem armanLists_create (hpos : 1 ≤ count) (mem : Nat → ArmanEntry) :
    ArmanLists count ⟨ffarmanCreate count mem, []⟩ (List.range count) [] where
  lists := ffarmanCreate_lists hpos mem
  entries_perm := by rw [List.append_nil]
  indices_perm := by rw [List.append_nil, ffarmanCreate_idx]
  spare_length := rfl

end Create

/-! ### The calls -/

namespace ArmanLists

variable {count e idx : Nat} {s : ArmanState} {cells spare : List Nat}

/-- What is held are indices, each of them once. -/
theorem held_lt (h : ArmanLists count s cells spare) {i : Nat} (hi : i ∈ s.held) : i < count :=
  List.mem_range.mp (h.indices_perm.subset (List.mem_append_right _ hi))

theorem idx_lt (h : ArmanLists count s cells spare) (he : e ∈ cells) :
    (s.array.entries e).idx < count :=
  List.mem_range.mp
    (h.indices_perm.subset (List.mem_append_left _ (List.mem_map_of_mem he)))

theorem idx_not_held (h : ArmanLists count s cells spare) (he : e ∈ cells) :
    (s.array.entries e).idx ∉ s.held := by
  have hnd := h.indices_perm.nodup_iff.mpr List.nodup_range
  exact fun hheld => (List.nodup_append.mp hnd).2.2 _ (List.mem_map_of_mem he) _ hheld rfl

/-- Nothing is left iff all indices are held. -/
theorem cells_eq_nil_iff (h : ArmanLists count s cells spare) :
    cells = [] ↔ ∀ i, i < count → i ∈ s.held := by
  constructor
  · rintro rfl i hi
    exact h.indices_perm.mem_iff.mpr (List.mem_range.mpr hi)
  · intro hall
    refine List.eq_nil_iff_forall_not_mem.mpr (fun e he => ?_)
    exact h.idx_not_held he (hall _ (h.idx_lt he))

/-- A get when every index is held. -/
theorem get_nil (h : ArmanLists count s [] spare) : ffarmanGet s.array = (noIndex, s.array) := by
  have hnone : s.array.freeEntries = none := h.lists.free_linked
  simp only [ffarmanGet, hnone, noIndex]

/-- Step lemma: a get takes the index of the first entry. -/
theorem get (h : ArmanLists count s (e :: cells) spare) :
    ArmanLists count ⟨(ffarmanGet s.array).2, (s.array.entries e).idx :: s.held⟩ cells
      (e :: spare) := by
  obtain ⟨_, hlists, hsame⟩ := h.lists.get
  constructor
  · exact hlists
  · exact List.perm_middle.trans h.entries_perm
  · simp only [hsame]
    exact List.perm_middle.trans h.indices_perm
  · simp only [List.length_cons, h.spare_length]

/-- Step lemma: a put of an index that is held. -/
theorem put (h : ArmanLists count s cells spare) (hidx : idx ∈ s.held) :
    ∃ array e spare', ffarmanPut s.array idx = some array ∧
      ArmanLists count ⟨array, s.held.erase idx⟩ (e :: cells) spare' := by
  have hlen := h.spare_length
  cases spare with
  | nil =>
      have hpos := List.length_pos_of_mem hidx
      rw [List.length_nil] at hlen
      omega
  | cons e spare =>
      obtain ⟨array, hput, hlists, hfirst, hsame⟩ := h.lists.put idx
      refine ⟨array, e, spare, hput, ?_⟩
      constructor
      · exact hlists
      · exact List.perm_middle.symm.trans h.entries_perm
      · have hcells : cells.map (fun c => (array.entries c).idx) =
            cells.map (fun c => (s.array.entries c).idx) := List.map_congr_left hsame
        simp only [List.map_cons, hfirst, hcells]
        refine List.Perm.trans ?_ h.indices_perm
        rw [List.cons_append]
        refine List.perm_middle.symm.trans ?_
        exact List.Perm.append_left _ (List.perm_cons_erase hidx).symm
      · have herase := List.length_erase_of_mem hidx
        simp only [List.length_cons] at hlen
        simp only [herase]
        omega

end ArmanLists

section Runs

variable {count : Nat} {s s' : ArmanState} {c : ArmanCall}

/-- Every answer but the last number is an index. -/
theorem ArmanLists.get_fst_ne {cells spare : List Nat} {e : Nat} (hlt : count < 2 ^ 32)
    (h : ArmanLists count s (e :: cells) spare) :
    (ffarmanGet s.array).1 = (s.array.entries e).idx ∧ (ffarmanGet s.array).1 ≠ noIndex := by
  have hfirst := h.lists.get.1
  have hidx := h.idx_lt (List.mem_cons_self ..)
  refine ⟨hfirst, ?_⟩
  rw [hfirst, noIndex]
  omega

/-- Step lemma. -/
theorem ArmanOk.step (h : ArmanOk count s) (hlt : count < 2 ^ 32)
    (hs : armanStep s c = some s') : ArmanOk count s' := by
  obtain ⟨cells, spare, h⟩ := h
  cases c with
  | get =>
      obtain rfl := Option.some.inj hs
      cases cells with
      | nil =>
          refine ⟨[], spare, ?_⟩
          rw [h.get_nil]
          exact h
      | cons e cells =>
          obtain ⟨hfirst, hne⟩ := h.get_fst_ne hlt
          refine ⟨cells, e :: spare, ?_⟩
          rw [if_neg hne, hfirst]
          exact h.get
  | put idx =>
      simp only [armanStep] at hs
      split at hs
      · next hidx =>
          obtain ⟨array, e, spare', hput, h'⟩ := h.put hidx
          rw [hput, Option.map_some] at hs
          obtain rfl := Option.some.inj hs
          exact ⟨e :: cells, spare', h'⟩
      · cases hs

/-- Every call is served. -/
theorem ArmanOk.serves (h : ArmanOk count s) (hlt : count < 2 ^ 32) (c : ArmanCall) :
    ArmanServes count s c := by
  obtain ⟨cells, spare, h⟩ := h
  cases c with
  | get =>
      cases cells with
      | nil =>
          have hfst : (ffarmanGet s.array).1 = noIndex := by rw [h.get_nil]
          exact ⟨iff_of_true hfst (h.cells_eq_nil_iff.mp rfl), fun hne => absurd hfst hne⟩
      | cons e cells =>
          obtain ⟨hfirst, hne⟩ := h.get_fst_ne hlt
          have hmem : e ∈ e :: cells := List.mem_cons_self ..
          refine ⟨iff_of_false hne (fun hall => ?_), fun _ => ?_⟩
          · cases h.cells_eq_nil_iff.mpr hall
          · rw [hfirst]
            exact ⟨h.idx_lt hmem, h.idx_not_held hmem⟩
  | put idx =>
      intro hidx
      obtain ⟨array, _, _, hput, _⟩ := h.put hidx
      rw [hput]
      rfl

/-- **Index manager**: the law holds of every run iff the memory of the manager has room for
its entries, which it has for every count but the largest. -/
theorem armanLaw_iff (hpos : 1 ≤ count) (hlt : count < 2 ^ 32) (mem : Nat → ArmanEntry)
    (calls : List ArmanCall) : ArmanLaw count mem calls ↔ count ≠ 2 ^ 32 - 1 := by
  have hcreate := ffarmanCreateIn_eq hpos hlt mem
  constructor
  · rintro ⟨array, harray, _⟩ hmax
    rw [hcreate, if_neg (not_not_intro hmax)] at harray
    cases harray
  · intro hne
    have hinit : ArmanOk count ⟨ffarmanCreate count mem, []⟩ :=
      ⟨_, _, armanLists_create hpos mem⟩
    have hserves : RunMeets armanStep (ArmanServes count) ⟨ffarmanCreate count mem, []⟩ calls :=
      runMeets_of_invariant (fun s c s' h hs => h.step hlt hs) (fun s c h => h.serves hlt c)
        calls _ hinit
    have hok := runAlways_of_meets (fun s h => h) (fun s c s' h _ hs => h.step hlt hs) calls _
      hinit hserves
    exact ⟨ffarmanCreate count mem, hcreate.trans (if_pos hne), hok, hserves⟩

end Runs

theorem armanLaw_iff_two :
    ArmanLaw 2 (fun _ => ⟨0, none⟩) [.get, .get, .put 0, .get] ↔ 2 ≠ 2 ^ 32 - 1 :=
  armanLaw_iff (by decide) (by decide) _ _

/-- `count + 1` wraps around, and the first entry is behind the memory. -/
theorem armanLaw_fails :
    ¬ ∀ (count : Nat) (mem : Nat → ArmanEntry) (calls : List ArmanCall),
      1 ≤ count → count < 2 ^ 32 → ArmanLaw count mem calls := by
  intro hall
  obtain ⟨array, harray, _⟩ := hall (2 ^ 32 - 1) (fun _ => ⟨0, none⟩) [] (by decide) (by decide)
  rw [ffarmanCreateIn_eq (by decide) (by decide), if_neg (by decide)] at harray
  cases harray

end Fflib
