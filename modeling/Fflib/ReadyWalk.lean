import Fflib.Tracker
import Fflib.Posts

/-!
# The ready list of one progress call

What `ffop_mpi_progresser_progress` leaves in the `next` fields of the operations it
reports, and the loop of `progress_thread` over them, while the user thread goes on
posting (`walkStep`).  An operation has one `next` field, but it may have several requests
under way: nothing in `ffop_post` or in `track` prevents a second post.

* `enqueueAll_linked_iff`: the list is finite iff no operation is enqueued twice.
* `readyWalk_iff`: the walk ends and completes every request once iff the requests that
  were reported belong to distinct operations.
* `walk_never_ends`: otherwise the loop is never left.
-/

namespace Fflib

open Library

universe u

/-- The process, the walk of its progress thread, and the operations that `progress_thread`
passed to `ffop_complete`. -/
structure WalkState (σ : Type u) where
  env : σ
  proc : Proc
  walk : Walk
  calls : List Nat

/-- The steps of `progress_thread` and of the user thread. -/
inductive WalkAct (σ : Type u) where
  | complete (n : Nat)
  | advance
  | post (op : Nat)
  | frame
  | env (e : σ)

def WalkAct.isWalk {σ : Type u} : WalkAct σ → Bool
  | .complete _ => true
  | .advance => true
  | _ => false

section Steps

variable {σ : Type u}

/-- The user thread has moved. -/
def WalkState.load (s : WalkState σ) (x : System σ) : WalkState σ :=
  { s with env := x.env, proc := x.proc }

/-- One step of a thread; `.complete n` is a call of `ffop_complete` of `n` frames. -/
def walkStep (impl : Impl σ) (vs : Finset Nat) (s : WalkState σ) :
    WalkAct σ → Option (WalkState σ)
  | .complete n =>
      match s.walk with
      | .test (some op) =>
          (completeCall impl n op s.env s.proc).map fun r =>
            { env := r.1, proc := r.2, walk := .advance op, calls := s.calls ++ [op] }
      | _ => none
  | .advance =>
      match s.walk with
      | .advance op => some { s with walk := .test (s.proc.ops op).next }
      | _ => none
  | .post op => (userStep impl vs ⟨s.env, s.proc⟩ (.post op)).map s.load
  | .frame => (userStep impl vs ⟨s.env, s.proc⟩ (.frame .user)).map s.load
  | .env e => some { s with env := e }

/-- The progress call has left the operations `ops` and the ready list `completed`. -/
def beginWalk (e : σ) (p : Proc) (ops : Nat → Ffop) (completed : Option Nat) : WalkState σ where
  env := e
  proc := { p with ops := ops }
  walk := .test completed
  calls := []

/-- The next operation that the loop will look at. -/
def WalkState.cursor (s : WalkState σ) : Option Nat :=
  match s.walk with
  | .test h => h
  | .advance op => (s.proc.ops op).next

/-- Steps of the loop until its next test. -/
def WalkState.behind (s : WalkState σ) : Nat :=
  match s.walk with
  | .test _ => 0
  | .advance _ => 1

/-- The list that the walk `s` begins with is finite, the loop ends, goes on until then as long
as `ffop_complete` returns, and has then called it for each of the operations `ready`, as often
as they occur. -/
structure WalkLaw (impl : Impl σ) (vs : Finset Nat) (s : WalkState σ) (ready : List Nat) :
    Prop where
  finite : ∃ l, Linked (nexts s.proc.ops) s.cursor l
  ends : ∃ n, ∀ as t, run (walkStep impl vs) s as = some t → as.countP WalkAct.isWalk ≤ n
  goes_on : ∀ as t, run (walkStep impl vs) s as = some t → t.walk ≠ .test none →
    (∀ op, t.walk = .test (some op) → ∃ n, (completeCall impl n op t.env t.proc).isSome = true) →
    ∃ a, a.isWalk = true ∧ (walkStep impl vs t a).isSome = true
  exact_calls : ∀ as t, run (walkStep impl vs) s as = some t → t.walk = .test none →
    t.calls.Perm ready

end Steps

/-! ### The list -/

/-- The operations of a finite ready list are those that were enqueued, and distinct. -/
theorem enqueueAll_linked_iff {ready : List Nat} : ∀ {ops : Nat → Ffop} {h : Option Nat}
    {l : List Nat}, Linked (nexts (enqueueAll ready ops h).1) (enqueueAll ready ops h).2 l ↔
      ∃ l', l = ready.reverse ++ l' ∧ ready.Nodup ∧ (∀ b ∈ ready, b ∉ l') ∧
        Linked (nexts ops) h l' := by
  induction ready with
  | nil =>
      intro ops h l
      simp [enqueueAll]
  | cons op ready ih =>
      intro ops h l
      have hhead : (ffopEnqueue op ops h).2 = some op := rfl
      rw [enqueueAll, ih, nexts_ffopEnqueue, hhead]
      simp only [linked_push_iff]
      constructor
      · rintro ⟨_, rfl, hnd, hnot, l', rfl, hop, hl'⟩
        refine ⟨l', by simp, List.nodup_cons.mpr ⟨fun hmem => ?_, hnd⟩, ?_, hl'⟩
        · exact hnot op hmem (List.mem_cons_self ..)
        · intro b hb
          rcases List.mem_cons.mp hb with rfl | hb
          · exact hop
          · exact fun hbl => hnot b hb (List.mem_cons_of_mem _ hbl)
      · rintro ⟨l', rfl, hnd, hnot, hl'⟩
        obtain ⟨hop, hnd'⟩ := List.nodup_cons.mp hnd
        refine ⟨op :: l', by simp, hnd', ?_, l', rfl, hnot op (List.mem_cons_self ..), hl'⟩
        intro b hb hbl
        rcases List.mem_cons.mp hbl with rfl | hbl
        · exact hop hb
        · exact hnot b (List.mem_cons_of_mem _ hb) hbl

/-- A ready list that starts empty. -/
theorem enqueueAll_finite_iff {ready : List Nat} {ops : Nat → Ffop} :
    (∃ l, Linked (nexts (enqueueAll ready ops none).1) (enqueueAll ready ops none).2 l) ↔
      ready.Nodup := by
  constructor
  · rintro ⟨l, hl⟩
    obtain ⟨_, _, hnd, _⟩ := enqueueAll_linked_iff.mp hl
    exact hnd
  · intro hnd
    exact ⟨ready.reverse ++ [], enqueueAll_linked_iff.mpr ⟨[], rfl, hnd, by simp, rfl⟩⟩

/-! ### The walk -/

section Walk

variable {σ : Type u} {impl : Impl σ} {vs : Finset Nat} {s s' : WalkState σ} {a : WalkAct σ}

theorem walkCursor_of_advance {op : Nat} (hw : s.walk = .advance op) :
    s.cursor = nexts s.proc.ops op := by
  rw [WalkState.cursor, hw]
  rfl

theorem walkCursor_congr (hw : s'.walk = s.walk) (hn : nexts s'.proc.ops = nexts s.proc.ops) :
    s'.cursor = s.cursor := by
  cases h : s.walk with
  | test c => rw [WalkState.cursor, WalkState.cursor, hw, h]
  | advance op => rw [walkCursor_of_advance h, walkCursor_of_advance (hw.trans h), hn]

theorem userStep_sameLinks {x x' : System σ} {t : Thread}
    (h : userStep impl vs x (.frame t) = some x') : SameLinks x.proc.ops x'.proc.ops := by
  obtain ⟨⟨e', p'⟩, hf, rfl⟩ := Option.map_eq_some_iff.mp h
  exact frameStep_sameLinks hf

/-- What a step does to the links and to the walk. -/
theorem walkStep_cases (h : walkStep impl vs s a = some s') :
    SameLinks s.proc.ops s'.proc.ops ∧
      ((∃ n op, a = .complete n ∧ s.walk = .test (some op) ∧ s'.walk = .advance op ∧
          s'.calls = s.calls ++ [op]) ∨
        (s'.cursor = s.cursor ∧ s'.behind + (if a.isWalk then 1 else 0) = s.behind ∧
          s'.calls = s.calls)) := by
  have hkeep : ∀ x : System σ, SameLinks s.proc.ops x.proc.ops → a.isWalk = false →
      SameLinks s.proc.ops (s.load x).proc.ops ∧ (s.load x).cursor = s.cursor ∧
        (s.load x).behind + (if a.isWalk then 1 else 0) = s.behind ∧
        (s.load x).calls = s.calls := by
    intro x hsame ha
    refine ⟨hsame, walkCursor_congr rfl hsame.next_eq, ?_, rfl⟩
    rw [ha]
    rfl
  cases a with
  | complete n =>
      simp only [walkStep] at h
      split at h
      · next op hwalk =>
          obtain ⟨r, hr, rfl⟩ := Option.map_eq_some_iff.mp h
          exact ⟨completeCall_sameLinks hr, Or.inl ⟨n, op, rfl, hwalk, rfl, rfl⟩⟩
      · cases h
  | advance =>
      simp only [walkStep] at h
      split at h
      · next op hwalk =>
          obtain rfl := Option.some.inj h
          refine ⟨SameLinks.refl _, Or.inr ⟨?_, ?_, rfl⟩⟩
          · rw [walkCursor_of_advance hwalk]
            rfl
          · rw [WalkState.behind, WalkState.behind, hwalk]
            rfl
      · cases h
  | post op =>
      obtain ⟨x, hx, rfl⟩ := Option.map_eq_some_iff.mp h
      simp only [userStep] at hx
      split at hx
      · obtain rfl := Option.some.inj hx
        exact (hkeep _ (SameLinks.refl _) rfl).imp id Or.inr
      · cases hx
  | frame =>
      obtain ⟨x, hx, rfl⟩ := Option.map_eq_some_iff.mp h
      exact (hkeep x (userStep_sameLinks hx) rfl).imp id Or.inr
  | env e =>
      obtain rfl := Option.some.inj h
      exact ⟨SameLinks.refl _, Or.inr ⟨walkCursor_congr rfl rfl, rfl, rfl⟩⟩

/-- The operation that the loop completes is the first of what remains. -/
theorem linked_call {rest : List Nat} {op : Nat} (hl : Linked (nexts s.proc.ops) s.cursor rest)
    (hw : s.walk = .test (some op)) (hw' : s'.walk = .advance op)
    (hsame : SameLinks s.proc.ops s'.proc.ops) :
    ∃ rest', rest = op :: rest' ∧ Linked (nexts s'.proc.ops) s'.cursor rest' := by
  rw [WalkState.cursor, hw] at hl
  cases rest with
  | nil => cases hl
  | cons b rest' =>
      obtain ⟨hb, hl'⟩ := hl
      obtain rfl := Option.some.inj hb
      refine ⟨rest', rfl, ?_⟩
      rw [walkCursor_of_advance hw', hsame.next_eq]
      exact hl'

/-- Step lemma: what was called and what remains. -/
theorem walk_calls {ready rest : List Nat} (hl : Linked (nexts s.proc.ops) s.cursor rest)
    (hcalls : s.calls ++ rest = ready) (h : walkStep impl vs s a = some s') :
    ∃ rest', Linked (nexts s'.proc.ops) s'.cursor rest' ∧ s'.calls ++ rest' = ready ∧
      2 * rest'.length + s'.behind + (if a.isWalk then 1 else 0) ≤
        2 * rest.length + s.behind := by
  obtain ⟨hsame, ⟨n, op, rfl, hw, hw', hc⟩ | ⟨hcursor, hbehind, hc⟩⟩ := walkStep_cases h
  · obtain ⟨rest', rfl, hl'⟩ := linked_call hl hw hw' hsame
    refine ⟨rest', hl', ?_, ?_⟩
    · rw [hc, ← hcalls, List.append_assoc, List.singleton_append]
    · have hb' : s'.behind = 1 := by rw [WalkState.behind, hw']
      simp only [hb', WalkAct.isWalk, if_true, List.length_cons]
      omega
  · refine ⟨rest, ?_, ?_, by omega⟩
    · rw [hcursor, hsame.next_eq]
      exact hl
    · rw [hc, hcalls]

/-- Step lemma: a walk that will not come to an end. -/
theorem walk_endless (hl : ¬ ∃ l, Linked (nexts s.proc.ops) s.cursor l)
    (h : walkStep impl vs s a = some s') : ¬ ∃ l, Linked (nexts s'.proc.ops) s'.cursor l := by
  rintro ⟨l, hl'⟩
  obtain ⟨hsame, ⟨n, op, rfl, hw, hw', _⟩ | ⟨hcursor, _, _⟩⟩ := walkStep_cases h
  · refine hl ⟨op :: l, ?_⟩
    rw [walkCursor_of_advance hw', hsame.next_eq] at hl'
    rw [WalkState.cursor, hw]
    exact ⟨rfl, hl'⟩
  · rw [hcursor, hsame.next_eq] at hl'
    exact hl ⟨l, hl'⟩

/-- Run lemma: the loop is left only when the list is finite. -/
theorem walk_never_ends (hl : ¬ ∃ l, Linked (nexts s.proc.ops) s.cursor l)
    (as : List (WalkAct σ)) (t : WalkState σ) (hr : run (walkStep impl vs) s as = some t) :
    t.walk ≠ .test none := by
  have ht := run_induction (P := fun s : WalkState σ => ¬ ∃ l, Linked (nexts s.proc.ops) s.cursor l)
    (fun s a s' hP hs => walk_endless hP hs) as s t hl hr
  intro hend
  refine ht ⟨[], ?_⟩
  rw [WalkState.cursor, hend]
  rfl

/-- The loop waits for nothing but `ffop_complete`. -/
theorem exists_walkStep (hw : s.walk ≠ .test none)
    (hreturns : ∀ op, s.walk = .test (some op) →
      ∃ n, (completeCall impl n op s.env s.proc).isSome = true) :
    ∃ a, a.isWalk = true ∧ (walkStep impl vs s a).isSome = true := by
  cases h : s.walk with
  | advance op => exact ⟨.advance, rfl, by simp [walkStep, h]⟩
  | test c =>
      cases c with
      | none => exact absurd h hw
      | some op =>
          obtain ⟨n, hn⟩ := hreturns op h
          exact ⟨.complete n, rfl, by simp [walkStep, h, hn]⟩

/-- A walk over a finite list ends, and has then completed what was on the list. -/
theorem walkLaw_of_linked {ready : List Nat} (hl : Linked (nexts s.proc.ops) s.cursor ready)
    (hcalls : s.calls = []) : WalkLaw impl vs s ready := by
  constructor
  · exact ⟨ready, hl⟩
  · refine ⟨2 * ready.length + s.behind, fun as t hr => ?_⟩
    refine countP_le_of_measure (A := fun _ => True)
      (P := fun n s => ∃ rest, Linked (nexts s.proc.ops) s.cursor rest ∧
        2 * rest.length + s.behind ≤ n)
      (fun n s a s' hP _ hs => ?_) as _ s t ⟨ready, hl, le_refl _⟩ (fun _ _ => trivial) hr
    obtain ⟨rest, hrest, hn⟩ := hP
    obtain ⟨rest', hrest', _, hlt⟩ := walk_calls hrest rfl hs
    exact ⟨2 * rest'.length + s'.behind, by omega, rest', hrest', le_refl _⟩
  · exact fun as t _ => exists_walkStep
  · intro as t hr hend
    have hstep : ∀ (s : WalkState σ) (a : WalkAct σ) (s' : WalkState σ),
        (∃ rest, Linked (nexts s.proc.ops) s.cursor rest ∧ s.calls ++ rest = ready) →
        walkStep impl vs s a = some s' →
        ∃ rest, Linked (nexts s'.proc.ops) s'.cursor rest ∧ s'.calls ++ rest = ready := by
      rintro s a s' ⟨rest, hrest, hready⟩ hs
      obtain ⟨rest', hrest', hready', _⟩ := walk_calls hrest hready hs
      exact ⟨rest', hrest', hready'⟩
    obtain ⟨rest, hrest, hready⟩ := run_induction hstep as s t
      ⟨ready, hl, by rw [hcalls, List.nil_append]⟩ hr
    rw [WalkState.cursor, hend] at hrest
    cases rest with
    | nil =>
        rw [List.append_nil] at hready
        rw [hready]
    | cons b rest => cases hrest.1

theorem WalkLaw.perm {ready ready' : List Nat} (h : WalkLaw impl vs s ready)
    (hp : ready.Perm ready') : WalkLaw impl vs s ready' where
  finite := h.finite
  ends := h.ends
  goes_on := h.goes_on
  exact_calls as t hr hend := (h.exact_calls as t hr hend).trans hp

end Walk

/-- **Walk over the ready list**: for every set of tracked requests, and every set of them
that a progress call reports, the list is finite, the loop ends and `ffop_complete` is
called once for each request, iff the requests belong to distinct operations. -/
theorem readyWalk_iff {σ : Type u} (impl : Impl σ) (vs : Finset Nat) (s : Tracker)
    (free : List Nat) (h : TrackInv s free) (indices : List Nat) (hr : s.Reportable indices)
    (e : σ) (p : Proc) :
    ∃ s' ops readyList,
      s.progress (some indices) p.ops none = some (ffSuccess, s', ops, readyList) ∧
      (WalkLaw impl vs (beginWalk e p ops readyList) (s.opsOf indices) ↔
        (s.opsOf indices).Nodup) := by
  obtain ⟨s', _, hprogress, _⟩ := h.progress hr p.ops none
  refine ⟨s', _, _, hprogress, ?_⟩
  constructor
  · intro hlaw
    exact enqueueAll_finite_iff.mp hlaw.finite
  · intro hnd
    have hl : Linked (nexts (enqueueAll (s.opsOf indices) p.ops none).1)
        (enqueueAll (s.opsOf indices) p.ops none).2 (s.opsOf indices).reverse :=
      enqueueAll_linked_iff.mpr ⟨[], (List.append_nil _).symm, hnd, by simp, rfl⟩
    have hlaw : WalkLaw impl vs (beginWalk e p (enqueueAll (s.opsOf indices) p.ops none).1
        (enqueueAll (s.opsOf indices) p.ops none).2) (s.opsOf indices).reverse :=
      walkLaw_of_linked hl rfl
    exact hlaw.perm (List.reverse_perm _)

/-- Two requests are tracked for the operations `a` and `b`. -/
def trackTwo (a b : Nat) : Tracker := (((Tracker.init blankEntries).track a 0).2.track b 1).2

theorem trackTwo_inv (a b : Nat) : TrackInv (trackTwo a b) (List.range' 2 254) := by
  have hrange : List.range ffmpiMaxReq = 0 :: 1 :: List.range' 2 254 := by
    rw [List.range_eq_range', show ffmpiMaxReq = 254 + 1 + 1 from rfl, List.range'_succ,
      List.range'_succ]
  have h := trackInv_init blankEntries
  rw [hrange] at h
  exact (h.track a 0).track b 1

theorem readyWalk_iff_two : ∃ s' ops readyList,
    (trackTwo 0 1).progress (some [0, 1]) Lib.init.ops none =
      some (ffSuccess, s', ops, readyList) ∧
    (WalkLaw asyncImpl ∅ (beginWalk () (Proc.init Lib.init.ops) ops readyList)
      ((trackTwo 0 1).opsOf [0, 1]) ↔ ((trackTwo 0 1).opsOf [0, 1]).Nodup) :=
  readyWalk_iff asyncImpl ∅ (trackTwo 0 1) _ (trackTwo_inv 0 1) [0, 1] (by decide) ()
    (Proc.init Lib.init.ops)

/-- Two requests of one operation are reported: it becomes its own successor. -/
theorem readyWalk_fails :
    ¬ ∀ (s : Tracker) (free : List Nat), TrackInv s free → ∀ indices : List Nat,
      s.Reportable indices → ∀ (p : Proc) s' ops readyList,
      s.progress (some indices) p.ops none = some (ffSuccess, s', ops, readyList) →
      WalkLaw asyncImpl ∅ (beginWalk () p ops readyList) (s.opsOf indices) := by
  intro hall
  have hrep : (trackTwo 0 0).Reportable [0, 1] := by decide
  obtain ⟨s', _, hprogress, _⟩ := (trackTwo_inv 0 0).progress hrep
    (Proc.init Lib.init.ops).ops none
  have hlaw := hall _ _ (trackTwo_inv 0 0) [0, 1] hrep _ _ _ _ hprogress
  have hnd : ((trackTwo 0 0).opsOf [0, 1]).Nodup := enqueueAll_finite_iff.mp hlaw.finite
  exact absurd hnd (by decide)

end Fflib
