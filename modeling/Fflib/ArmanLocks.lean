import Fflib.ArmanLaw
import Fflib.Library.Locks

/-!
# The index manager and its lock

`ffarman_get` and `ffarman_put` of any number of threads, statement by statement between
`FFLOCK_LOCK` and `FFLOCK_UNLOCK`.  The posting threads get the indices of a manager, and the
progress thread puts them back.

`arman_atomic`: in any interleaving the calls act like `ffarmanGet` and `ffarmanPut` one after
another, no assertion fails, and no index is with two holders.
-/

namespace Fflib

open Library

/-- The locals of `ffarman_get` and `ffarman_put`. -/
structure ArmanLocals where
  res : Nat
  e : Option Nat

/-- A statement of one of the two functions. -/
abbrev ArmanStatement := Ffarman → ArmanLocals → Option (Ffarman × ArmanLocals)

/-- A statement that dereferences `e`, and is not reached if `e` is `NULL`. -/
def withEntry (f : Nat → Ffarman → ArmanLocals → Ffarman × ArmanLocals) : ArmanStatement :=
  fun array x =>
    match x.e with
    | none => some (array, x)
    | some e => some (f e array x)

def ffarmanGetSteps : List ArmanStatement :=
  [fun array x => some (array, { x with e := array.freeEntries }),
    withEntry fun e array x => ({ array with freeEntries := (array.entries e).next }, x),
    withEntry fun e array x =>
      ({ array with
        entries := Function.update array.entries e
          { array.entries e with next := array.freeFreeEntries } }, x),
    withEntry fun e array x => ({ array with freeFreeEntries := some e }, x),
    withEntry fun e array x => (array, { x with res := (array.entries e).idx })]

def ffarmanPutSteps (idx : Nat) : List ArmanStatement :=
  [fun array x => some (array, { x with e := array.freeFreeEntries }),
    -- `assert(e!=NULL)`
    fun array x => if x.e.isSome = true then some (array, x) else none,
    withEntry fun e array x => ({ array with freeFreeEntries := (array.entries e).next }, x),
    withEntry fun e array x =>
      ({ array with
        entries := Function.update array.entries e { array.entries e with idx := idx } }, x),
    withEntry fun e array x =>
      ({ array with
        entries := Function.update array.entries e
          { array.entries e with next := array.freeEntries } }, x),
    withEntry fun e array x => ({ array with freeEntries := some e }, x)]

/-- Both take the one lock of the manager. -/
def armanSections : Sections ArmanCall Unit Unit Ffarman ArmanLocals where
  memOf _ := ()
  lockOf _ := some ()
  locals _ := ⟨noIndex, none⟩
  steps
    | .get => ffarmanGetSteps
    | .put idx => ffarmanPutSteps idx

/-- The statements of `ffarman_get`, without interruption. -/
theorem armanSections_get (array : Ffarman) :
    armanSections.call .get array =
      some ((ffarmanGet array).2, ⟨(ffarmanGet array).1, array.freeEntries⟩) := by
  cases h : array.freeEntries with
  | none =>
      simp [Sections.call, armanSections, ffarmanGetSteps, runSteps, withEntry, ffarmanGet, h,
        noIndex]
  | some e =>
      simp [Sections.call, armanSections, ffarmanGetSteps, runSteps, withEntry, ffarmanGet, h]

/-- The statements of `ffarman_put`, without interruption. -/
theorem armanSections_put (idx : Nat) (array : Ffarman) :
    armanSections.call (.put idx) array =
      (ffarmanPut array idx).map fun array' => (array', ⟨noIndex, array.freeFreeEntries⟩) := by
  cases h : array.freeFreeEntries with
  | none => simp [Sections.call, armanSections, ffarmanPutSteps, runSteps, ffarmanPut, h]
  | some e =>
      simp [Sections.call, armanSections, ffarmanPutSteps, runSteps, withEntry, ffarmanPut, h]

section Threads

variable {τ : Type}

/-- The indices that the threads hold, after the answers that they have got. -/
def heldOf (log : List (Ended τ ArmanCall ArmanLocals)) : List Nat :=
  log.foldl (fun held e =>
    match e.call with
    | .get => if e.locals.res = noIndex then held else e.locals.res :: held
    | .put idx => held.erase idx) []

@[simp] theorem heldOf_get (log : List (Ended τ ArmanCall ArmanLocals)) (t : τ)
    (x : ArmanLocals) : heldOf (log ++ [⟨t, .get, x⟩]) =
      if x.res = noIndex then heldOf log else x.res :: heldOf log := by
  simp [heldOf, List.foldl_append]

@[simp] theorem heldOf_put (log : List (Ended τ ArmanCall ArmanLocals)) (t : τ) (idx : Nat)
    (x : ArmanLocals) : heldOf (log ++ [⟨t, .put idx, x⟩]) = (heldOf log).erase idx := by
  simp [heldOf, List.foldl_append]

variable [DecidableEq τ]

/-- An index is put back by a thread when it is held. -/
def PutsHeld (w : LockState τ ArmanCall Unit Unit Ffarman ArmanLocals) : LockAct τ → Prop
  | .enter t => ∀ idx cs, w.todo t = .put idx :: cs → idx ∈ heldOf w.log
  | _ => True

instance (w : LockState τ ArmanCall Unit Unit Ffarman ArmanLocals) : ∀ a, Decidable (PutsHeld w a)
  | .step _ => isTrue trivial
  | .leave _ => isTrue trivial
  | .enter t =>
      match h : w.todo t with
      | .put idx :: _ => decidable_of_iff (idx ∈ heldOf w.log) (by simp [PutsHeld, h])
      | .get :: _ => isTrue (by simp [PutsHeld, h])
      | [] => isTrue (by simp [PutsHeld, h])

/-- The calls that have ended are those of a sequential run, with the same answers, and only
an index that is held is being put back. -/
structure LegalLog (array₀ : Ffarman) (w : LockState τ ArmanCall Unit Unit Ffarman ArmanLocals) :
    Prop where
  ended : ∀ array, Replay armanSections array₀ w.log array →
    run armanStep ⟨array₀, []⟩ (w.log.map Ended.call) = some ⟨array, heldOf w.log⟩
  inside : ∀ t f, w.inside t = some f → ∀ idx, f.call = .put idx → idx ∈ heldOf w.log

variable {array₀ : Ffarman} {w w' : LockState τ ArmanCall Unit Unit Ffarman ArmanLocals}
  {a : LockAct τ}

/-- Step lemma. -/
theorem LegalLog.move (h : LegalLog array₀ w) (hex : Exclusive armanSections () w)
    (hputs : PutsHeld w a) (hm : LockMove armanSections w a w') : LegalLog array₀ w' := by
  cases hm with
  | @enter t c cs hin htodo hfree =>
      refine ⟨h.ended, fun u f hu idx hidx => ?_⟩
      rcases update_eq_some hu with ⟨rfl, hf⟩ | ⟨_, hu⟩
      · obtain rfl := Option.some.inj hf
        obtain rfl : c = .put idx := hidx
        exact hputs idx cs htodo
      · exact h.inside u f hu idx hidx
  | @step t c m ms x r hin hstep =>
      refine ⟨h.ended, fun u f hu idx hidx => ?_⟩
      rcases update_eq_some hu with ⟨rfl, hf⟩ | ⟨_, hu⟩
      · obtain rfl := Option.some.inj hf
        exact h.inside u _ hin idx hidx
      · exact h.inside u f hu idx hidx
  | @leave t c x hin =>
      refine ⟨fun array hr => ?_, fun u f hu idx hidx => ?_⟩
      · obtain ⟨s, hr, hcall⟩ := hr.of_snoc
        rw [List.map_append, List.map_singleton]
        refine run_snoc_eq_some.mpr ⟨_, h.ended s hr, ?_⟩
        cases c with
        | get =>
            rw [armanSections_get] at hcall
            obtain ⟨rfl, rfl⟩ := Prod.mk.inj (Option.some.inj hcall)
            simp [armanStep]
        | put idx =>
            have hidx : idx ∈ heldOf w.log := h.inside t _ hin idx rfl
            rw [armanSections_put] at hcall
            obtain ⟨array', hput, heq⟩ := Option.map_eq_some_iff.mp hcall
            obtain ⟨rfl, _⟩ := Prod.mk.inj heq
            simp [armanStep, hidx, hput]
      · rcases update_eq_some hu with ⟨_, hf⟩ | ⟨hut, hu⟩
        · cases hf
        · exact absurd (hex u t f _ hu hin rfl rfl) hut

omit [DecidableEq τ] in
theorem logAt_armanSections (log : List (Ended τ ArmanCall ArmanLocals)) :
    armanSections.logAt () log = log := by
  simp [Sections.logAt, armanSections]

/-- Run lemma. -/
theorem legalLog_of_run {prog : τ → List ArmanCall} {as : List (LockAct τ)}
    (hrun : run (lockStep armanSections) (LockState.init (fun _ => array₀) prog) as = some w)
    (hputs : RunMeets (lockStep armanSections) PutsHeld
      (LockState.init (fun _ => array₀) prog) as) :
    Exclusive armanSections () w ∧ LegalLog array₀ w ∧
      ∃ array, AtomicAt armanSections array₀ () w array := by
  have hg : Guarded armanSections prog () := fun _ _ _ _ _ _ _ _ _ => ⟨(), rfl, rfl⟩
  have hinit : LegalLog array₀ (LockState.init (fun _ => array₀) prog) := by
    refine ⟨fun array hr => ?_, fun t f hf => by cases hf⟩
    rw [show array = array₀ from hr.of_nil]
    rfl
  have hall := run_induction_of_meets
    (P := fun w => Reachable (lockStep armanSections) (LockState.init (fun _ => array₀) prog) w ∧
      LegalLog array₀ w)
    (fun w a w' h hp hs => ⟨h.1.tail hs, h.2.move (exclusive_of_guarded hg h.1) hp
      (lockMove_of_step hs)⟩) as _ w ⟨.refl _, hinit⟩ hputs hrun
  exact ⟨exclusive_of_guarded hg hall.1, hall.2, atomicAt_of_guarded hg hall.1⟩

/-- **Atomicity of the index manager**: in any interleaving of the statements of any number of
threads, the indices that they hold by the answers that they have got are those that the calls
hand out one after another, in the order in which they have ended; they are distinct indices of
the manager; and no thread in a call is stopped by an assertion. -/
theorem arman_atomic {count : Nat} (hpos : 1 ≤ count) (hlt : count < 2 ^ 32)
    {mem : Nat → ArmanEntry} (hcreate : ffarmanCreateIn count mem = some array₀)
    {prog : τ → List ArmanCall} {as : List (LockAct τ)}
    (hrun : run (lockStep armanSections) (LockState.init (fun _ => array₀) prog) as = some w)
    (hputs : RunMeets (lockStep armanSections) PutsHeld
      (LockState.init (fun _ => array₀) prog) as) :
    (∃ array, run armanStep ⟨array₀, []⟩ (w.log.map Ended.call) = some ⟨array, heldOf w.log⟩ ∧
      ((∀ t, w.inside t = none) → w.shared () = array)) ∧
    (heldOf w.log).Nodup ∧ (∀ i, i ∈ heldOf w.log → i < count) ∧
    ∀ t, (w.inside t).isSome = true → (lockStep armanSections w (.step t)).isSome = true ∨
      (lockStep armanSections w (.leave t)).isSome = true := by
  obtain ⟨hex, hlegal, array, hatomic⟩ := legalLog_of_run hrun hputs
  have hreplay := hatomic.replay
  rw [logAt_armanSections] at hreplay
  have hended := hlegal.ended array hreplay
  have hcount := ffarmanCreateIn_eq hpos hlt mem
  rw [hcreate] at hcount
  split at hcount
  · next hne =>
      obtain rfl := Option.some.inj hcount
      have hok : ArmanOk count ⟨array, heldOf w.log⟩ :=
        run_induction (fun s c s' h hs => h.step hlt hs) _ _ _
          ⟨_, _, armanLists_create hpos mem⟩ hended
      have hserves := hok.serves hlt
      obtain ⟨cells, spare, hlists⟩ := hok
      refine ⟨⟨array, hended, fun hno => hatomic.free (fun t f hf => ?_)⟩, ?_, fun i hi =>
        hlists.held_lt hi, fun t ht => ?_⟩
      · rw [hno t] at hf
        cases hf
      · have hnd := hlists.indices_perm.nodup_iff.mpr List.nodup_range
        exact (List.nodup_append.mp hnd).2.1
      · obtain ⟨⟨c, rest, x⟩, hin⟩ := Option.isSome_iff_exists.mp ht
        cases rest with
        | nil => exact Or.inr (by simp [lockStep, hin])
        | cons m ms =>
            have hrest := hatomic.rest t _ hin rfl
            have hsome : (armanSections.call c array).isSome = true := by
              cases c with
              | get => rw [armanSections_get]; rfl
              | put idx =>
                  rw [armanSections_put, Option.isSome_map]
                  exact hserves (.put idx) (hlegal.inside t _ hin idx rfl)
            rw [← hrest, runSteps] at hsome
            refine Or.inl ?_
            cases hm : m (w.shared ()) x with
            | none => simp [hm] at hsome
            | some r => simp [lockStep, hin, hm, armanSections]
  · cases hcount

end Threads

/-- Two threads get an index, and one of them puts it back. -/
def armanTwo : Bool → List ArmanCall
  | true => [.get, .put 0]
  | false => [.get]

def armanTwoRun : List (LockAct Bool) :=
  .enter true :: List.replicate 5 (.step true) ++ .leave true ::
    .enter false :: List.replicate 5 (.step false) ++ .leave false ::
    .enter true :: List.replicate 6 (.step true) ++ [.leave true]

theorem arman_atomic_two : ∃ w, run (lockStep armanSections)
      (LockState.init (fun _ => ffarmanCreate 2 fun _ => ⟨0, none⟩) armanTwo) armanTwoRun =
        some w ∧ heldOf w.log = [1] ∧
      ∃ array, run armanStep ⟨ffarmanCreate 2 fun _ => ⟨0, none⟩, []⟩ (w.log.map Ended.call) =
        some ⟨array, heldOf w.log⟩ := by
  have hcreate : ffarmanCreateIn 2 (fun _ => ⟨0, none⟩) =
      some (ffarmanCreate 2 fun _ => ⟨0, none⟩) :=
    (ffarmanCreateIn_eq (by decide) (by decide) _).trans (if_pos (by decide))
  have hputs : RunMeets (lockStep armanSections) PutsHeld
      (LockState.init (fun _ => ffarmanCreate 2 fun _ => ⟨0, none⟩) armanTwo) armanTwoRun := by
    decide +kernel
  have hheld : (run (lockStep armanSections)
      (LockState.init (fun _ => ffarmanCreate 2 fun _ => ⟨0, none⟩) armanTwo)
        armanTwoRun).map (fun w => heldOf w.log) = some [1] := by
    decide +kernel
  obtain ⟨w, hrun, hw⟩ := Option.map_eq_some_iff.mp hheld
  obtain ⟨⟨array, hseq, _⟩, _⟩ := arman_atomic (by decide) (by decide) hcreate hrun hputs
  exact ⟨w, hrun, hw, array, hseq⟩

end Fflib
