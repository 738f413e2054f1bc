import Fflib.Engine
import Fflib.Storage

/-!
# The ready list

The loop of `progress_thread` of `ffprogress.c` over the operations that a progress
call has put on the ready list, and a user thread that waits for operations, frees
them and creates others at the same time.

**Blocks.**  An operation is named by the index of its block in the memory of
`op_pool`.  A block may hold several operations, one after another, and their `id`,
taken from `opid`, tells them apart.

**Steps.**  A call of `ffop_complete` by `progress_thread` is one step, with
everything that it posts: `.complete n` runs its `n` frames.  Reading the link of
the operation that was completed is the next step.

* `WalkInv` is the invariant of a walk that has lost nothing, `Lost` that of a walk
  that will miss an operation.
* `readyStep_cases`: what a step does to the links, the `id`s and the walk.
* `completes_once_iff`: a walk completes what is on the ready list, once, iff no
  `ffop_create` is given a block whose link is still to be read.
-/

namespace Fflib

open Library

universe u

/-- `FFOP_ENQUEUE`. -/
def ffopEnqueue (op : Nat) (ops : Nat → Ffop) (oplist : Option Nat) :
    (Nat → Ffop) × Option Nat :=
  (Function.update ops op { ops op with next := oplist }, some op)

/-- A progress call puts the operations `ready` on the list. -/
def enqueueAll : List Nat → (Nat → Ffop) → Option Nat → (Nat → Ffop) × Option Nat
  | [], ops, oplist => (ops, oplist)
  | op :: ready, ops, oplist =>
      enqueueAll ready (ffopEnqueue op ops oplist).1 (ffopEnqueue op ops oplist).2

/-- `ffop_create` in the block `b`, and the fields that `ffsend`, `ffrecv` and `ffcomp`
set in the new operation. -/
def createIn (b opid : Nat) (body : FfopBody) (options : Nat) (ops : Nat → Ffop) :
    Nat → Ffop :=
  Function.update ops b
    { body := body
      id := opid
      dependent := (ops b).dependent
      outDepCount := 0
      inDepCount := 0
      options := options
      schedNext := none
      version := 0
      depLeft := 0
      next := none
      completed := 0 }

/-- `createIn` is what the constructors do, in a block of the pool. -/
theorem newOp_ops_eq (body : FfopBody) (options : Nat → Nat) (l : Lib) :
    (newOp body options l).2.ops = createIn l.opid l.opid body (options ffopDepAnd) l.ops := by
  simp [newOp, ffopCreate, Lib.setOp, createIn]

/-- The loop of `progress_thread` over `completed`: before its test, or before the link of
the operation that was completed is read. -/
inductive Walk where
  | test (completed : Option Nat)
  | advance (completed : Nat)
deriving DecidableEq

/-- The library, the walk of the progress thread, and what the user thread may free;
`calls` are the `id`s of the operations that `progress_thread` passed to `ffop_complete`. -/
structure ReadyState (σ : Type u) where
  env : σ
  proc : Proc
  pools : Nat → Pool
  opid : Nat
  walk : Walk
  returned : Nat → Bool
  calls : List Nat

/-- The steps of the two threads. -/
inductive ReadyAct where
  | complete (n : Nat)
  | advance
  | wait (op : Nat)
  | free (op : Nat)
  | create (body : FfopBody) (options : Nat)
deriving DecidableEq

/-- The steps of `progress_thread`. -/
def ReadyAct.isWalk : ReadyAct → Bool
  | .complete _ => true
  | .advance => true
  | _ => false

section Steps

variable {σ : Type u} (impl : Impl σ)

/-- One frame of the progress thread. -/
def progFrame (s : σ × Proc) (_ : Unit) : Option (σ × Proc) :=
  frameStep impl .progress s.1 s.2

/-- A call of `ffop_complete` that returns after `n` frames. -/
def completeCall (n op : Nat) (e : σ) (p : Proc) : Option (σ × Proc) :=
  (run (progFrame impl) (e, p.setStack [.complete op] .progress) (List.replicate n ())).bind
    fun r => if r.2.prog = [] then some r else none

/-- One step of a thread. -/
def readyStep (opPool : Nat) (s : ReadyState σ) : ReadyAct → Option (ReadyState σ)
  | .complete n =>
      match s.walk with
      | .test (some op) =>
          (completeCall impl n op s.env s.proc).map fun r =>
            { env := r.1
              proc := r.2
              pools := s.pools
              opid := s.opid
              walk := .advance op
              returned := s.returned
              calls := s.calls ++ [(s.proc.ops op).id] }
      | _ => none
  | .advance =>
      match s.walk with
      | .advance op => some { s with walk := .test (s.proc.ops op).next }
      | _ => none
  | .wait op =>
      if (s.proc.ops op).completed ≠ 0 then
        some { s with
          proc := s.proc.setOp op (fun o => { o with completed := 0 })
          returned := Function.update s.returned op true }
      else none
  | .free op =>
      if s.returned op = true then
        some { s with
          pools := ffstoragePoolPut (opPool, op) s.pools
          returned := Function.update s.returned op false }
      else none
  | .create body options =>
      (ffstoragePoolGet opPool s.pools).bind fun r =>
        if r.1.1 = opPool then
          some { s with
            proc := { s.proc with ops := createIn r.1.2 s.opid body options s.proc.ops }
            pools := r.2
            opid := s.opid + 1 }
        else none

end Steps

/-- The progress call has returned, and the walk begins. -/
def startWalk {σ : Type u} (ready : List Nat) (s : ReadyState σ) : ReadyState σ where
  env := s.env
  proc := { s.proc with ops := (enqueueAll ready s.proc.ops none).1 }
  pools := s.pools
  opid := s.opid
  walk := .test (enqueueAll ready s.proc.ops none).2
  returned := s.returned
  calls := []

/-! ### Links -/

/-- The links between the operations. -/
def nexts (ops : Nat → Ffop) (b : Nat) : Option Nat := (ops b).next

/-- The next operation that the walk will look at. -/
def ReadyState.cursor {σ : Type u} (s : ReadyState σ) : Option Nat :=
  match s.walk with
  | .test h => h
  | .advance op => (s.proc.ops op).next

/-- The operation in block `b` is still to be completed by the walk. -/
def ReadyState.Remaining {σ : Type u} (s : ReadyState σ) (b : Nat) : Prop :=
  ∃ l, Linked (nexts s.proc.ops) s.cursor l ∧ b ∈ l

/-- The condition: no `ffop_create` is given a block that is still to be completed, or
one that was completed and whose link, not `NULL`, is still to be read. -/
def LinkSafe {σ : Type u} (opPool : Nat) (s : ReadyState σ) (a : ReadyAct) : Prop :=
  ∀ body options, a = .create body options → ∀ r, ffstoragePoolGet opPool s.pools = some r →
    ¬ s.Remaining r.1.2 ∧ (s.walk = .advance r.1.2 → (s.proc.ops r.1.2).next = none)

/-- The links and the `id`s are the same. -/
structure SameLinks (ops ops' : Nat → Ffop) : Prop where
  next_eq : nexts ops' = nexts ops
  id_eq : ∀ b, (ops' b).id = (ops b).id

theorem SameLinks.refl (ops : Nat → Ffop) : SameLinks ops ops := ⟨rfl, fun _ => rfl⟩

theorem SameLinks.trans {ops ops' ops'' : Nat → Ffop} (h : SameLinks ops ops')
    (h' : SameLinks ops' ops'') : SameLinks ops ops'' :=
  ⟨h'.next_eq.trans h.next_eq, fun b => (h'.id_eq b).trans (h.id_eq b)⟩

/-- An operation is rewritten, but not its link and `id`. -/
theorem SameLinks.update (ops : Nat → Ffop) {x : Nat} {o : Ffop} (hnext : o.next = (ops x).next)
    (hid : o.id = (ops x).id) : SameLinks ops (Function.update ops x o) := by
  constructor
  · funext b
    by_cases hb : b = x
    · subst hb
      simpa [nexts] using hnext
    · simp [nexts, hb]
  · intro b
    by_cases hb : b = x
    · subst hb
      simpa using hid
    · simp [hb]

section Frames

variable {σ : Type u} {impl : Impl σ}

theorem ffopPost_sameLinks (x : Nat) (e : σ) (p : Proc) :
    SameLinks p.ops (ffopPost impl x e p).2.1.ops := by
  have hlog : SameLinks p.ops (p.logPosting x).ops := SameLinks.update p.ops rfl rfl
  simp only [ffopPost]
  split
  · exact SameLinks.refl _
  · split
    · exact hlog
    · split <;> exact hlog

theorem ffopCompleteLoop_sameLinks (x i : Nat) (p : Proc) :
    SameLinks p.ops (ffopCompleteLoop x i p).1.ops := by
  simp only [ffopCompleteLoop]
  split
  · exact SameLinks.update p.ops rfl rfl
  · exact SameLinks.refl _

theorem runFrame_sameLinks (e : σ) (p : Proc) (f : Frame) :
    SameLinks p.ops (runFrame impl e p f).2.1.ops := by
  cases f with
  | post x => exact ffopPost_sameLinks x e p
  | complete x => exact SameLinks.update p.ops rfl rfl
  | loop x i => exact ffopCompleteLoop_sameLinks x i p

theorem frameStep_sameLinks {t : Thread} {e e' : σ} {p p' : Proc}
    (h : frameStep impl t e p = some (e', p')) : SameLinks p.ops p'.ops := by
  cases hstack : p.stack t with
  | nil => simp [frameStep, hstack] at h
  | cons f fs =>
      simp only [frameStep, hstack, Option.some.injEq, Prod.mk.injEq] at h
      rw [← h.2, Proc.setStack_ops]
      exact runFrame_sameLinks e p f

/-- A call of `ffop_complete`, with everything that it posts, leaves the links alone. -/
theorem completeCall_sameLinks {n op : Nat} {e : σ} {p : Proc} {r : σ × Proc}
    (h : completeCall impl n op e p = some r) : SameLinks p.ops r.2.ops := by
  obtain ⟨q, hrun, hq⟩ := Option.bind_eq_some_iff.mp h
  obtain rfl : q = r := by
    split at hq
    · exact Option.some.inj hq
    · cases hq
  refine run_induction (P := fun s : σ × Proc => SameLinks p.ops s.2.ops)
    (fun s _ s' hs hstep => ?_) _ _ _ ?_ hrun
  · exact hs.trans (frameStep_sameLinks hstep)
  · rw [Proc.setStack_ops]
    exact SameLinks.refl _

end Frames

section Walks

variable {σ : Type u} {impl : Impl σ} {opPool : Nat} {s s' : ReadyState σ} {a : ReadyAct}

theorem cursor_of_test {h : Option Nat} (hw : s.walk = .test h) : s.cursor = h := by
  rw [ReadyState.cursor, hw]

theorem cursor_of_advance {op : Nat} (hw : s.walk = .advance op) :
    s.cursor = nexts s.proc.ops op := by
  rw [ReadyState.cursor, hw]
  rfl

/-- The cursor depends on the walk and the links. -/
theorem cursor_congr (hw : s'.walk = s.walk)
    (hn : nexts s'.proc.ops = nexts s.proc.ops) : s'.cursor = s.cursor := by
  cases h : s.walk with
  | test c => rw [cursor_of_test h, cursor_of_test (hw.trans h)]
  | advance op => rw [cursor_of_advance h, cursor_of_advance (hw.trans h), hn]

/-- Steps of the walk until the next test of the loop. -/
def ReadyState.behind (s : ReadyState σ) : Nat :=
  match s.walk with
  | .test _ => 0
  | .advance _ => 1

theorem behind_congr (hw : s'.walk = s.walk) : s'.behind = s.behind := by
  rw [ReadyState.behind, hw]
  rfl

/-- What a step does to the links and to the walk. -/
theorem readyStep_cases (h : readyStep impl opPool s a = some s') :
    (∃ n op, a = .complete n ∧ s.walk = .test (some op) ∧ s'.walk = .advance op ∧
      s'.calls = s.calls ++ [(s.proc.ops op).id] ∧ SameLinks s.proc.ops s'.proc.ops ∧
      s'.opid = s.opid) ∨
    ((∀ body options, a ≠ .create body options) ∧ s'.cursor = s.cursor ∧
      s'.behind + (if a.isWalk then 1 else 0) = s.behind ∧ s'.calls = s.calls ∧
      SameLinks s.proc.ops s'.proc.ops ∧ s'.opid = s.opid) ∨
    (∃ body options b pools', a = .create body options ∧
      ffstoragePoolGet opPool s.pools = some ((opPool, b), pools') ∧ s'.walk = s.walk ∧
      s'.calls = s.calls ∧ s'.proc.ops = createIn b s.opid body options s.proc.ops ∧
      s'.opid = s.opid + 1) := by
  cases a with
  | complete n =>
      simp only [readyStep] at h
      split at h
      · next op hwalk =>
          obtain ⟨r, hr, rfl⟩ := Option.map_eq_some_iff.mp h
          exact Or.inl ⟨n, op, rfl, hwalk, rfl, rfl, completeCall_sameLinks hr, rfl⟩
      · cases h
  | advance =>
      simp only [readyStep] at h
      split at h
      · next op hwalk =>
          obtain rfl := Option.some.inj h
          refine Or.inr (Or.inl ⟨by simp, ?_, ?_, rfl, SameLinks.refl _, rfl⟩)
          · rw [cursor_of_advance hwalk]
            rfl
          · rw [ReadyState.behind, ReadyState.behind, hwalk]
            rfl
      · cases h
  | wait op =>
      simp only [readyStep] at h
      split at h
      · obtain rfl := Option.some.inj h
        have hsame : SameLinks s.proc.ops
            (s.proc.setOp op (fun o => { o with completed := 0 })).ops :=
          SameLinks.update s.proc.ops rfl rfl
        exact Or.inr (Or.inl ⟨by simp, cursor_congr rfl hsame.next_eq, rfl, rfl, hsame, rfl⟩)
      · cases h
  | free op =>
      simp only [readyStep] at h
      split at h
      · obtain rfl := Option.some.inj h
        exact Or.inr (Or.inl ⟨by simp, rfl, rfl, rfl, SameLinks.refl _, rfl⟩)
      · cases h
  | create body options =>
      simp only [readyStep] at h
      obtain ⟨⟨⟨q, b⟩, pools'⟩, hget, hr⟩ := Option.bind_eq_some_iff.mp h
      split at hr
      · next hq =>
          simp only at hq
          subst hq
          obtain rfl := Option.some.inj hr
          exact Or.inr (Or.inr ⟨body, options, b, pools', rfl, hget, rfl, rfl, rfl, rfl⟩)
      · cases hr

theorem nexts_createIn (b opid : Nat) (body : FfopBody) (options : Nat) (ops : Nat → Ffop) :
    nexts (createIn b opid body options ops) = Function.update (nexts ops) b none := by
  funext x
  by_cases hx : x = b
  · subst hx
    simp [nexts, createIn]
  · simp [nexts, createIn, hx]

theorem createIn_id (b opid : Nat) (body : FfopBody) (options : Nat) (ops : Nat → Ffop)
    (x : Nat) : (createIn b opid body options ops x).id = if x = b then opid else (ops x).id := by
  by_cases hx : x = b
  · subst hx
    simp [createIn]
  · simp [createIn, hx]

/-- `ffop_create` in a block can only shorten what the walk will see. -/
theorem linked_afterCreate {rest : List Nat} {b : Nat} {body : FfopBody} {options : Nat}
    (hl : Linked (nexts s.proc.ops) s.cursor rest) (hw : s'.walk = s.walk)
    (hops : s'.proc.ops = createIn b s.opid body options s.proc.ops) :
    ∃ rest', Linked (nexts s'.proc.ops) s'.cursor rest' ∧ rest' <+: rest := by
  rw [hops, nexts_createIn]
  obtain ⟨cut, hcut, hpre⟩ := hl.cut b
  cases h : s.walk with
  | test c =>
      rw [cursor_of_test (hw.trans h), ← cursor_of_test h]
      exact ⟨cut, hcut, hpre⟩
  | advance op =>
      rw [cursor_of_advance (hw.trans h), hops, nexts_createIn]
      by_cases hop : op = b
      · subst hop
        rw [Function.update_self]
        exact ⟨[], rfl, List.nil_prefix⟩
      · rw [Function.update_of_ne hop, ← cursor_of_advance h]
        exact ⟨cut, hcut, hpre⟩

/-- The `id` of the operation in a block. -/
def ReadyState.idOf (s : ReadyState σ) (b : Nat) : Nat := (s.proc.ops b).id

/-- The invariant of a walk that has lost nothing: the operations `names` are those that
were completed, and the operations in `rest`, which the walk will come to. -/
structure WalkInv (names : List Nat) (s : ReadyState σ) (rest : List Nat) : Prop where
  linked : Linked (nexts s.proc.ops) s.cursor rest
  calls_eq : s.calls ++ rest.map s.idOf = names
  lt_opid : ∀ i ∈ names, i < s.opid

/-- The invariant of a walk that will not come to the operation `i`. -/
structure Lost (i : Nat) (s : ReadyState σ) (rest : List Nat) : Prop where
  linked : Linked (nexts s.proc.ops) s.cursor rest
  not_called : i ∉ s.calls
  not_rest : ∀ b ∈ rest, s.idOf b ≠ i
  lt_opid : i < s.opid

theorem WalkInv.remaining_iff {names rest : List Nat} (h : WalkInv names s rest) {b : Nat} :
    s.Remaining b ↔ b ∈ rest := by
  constructor
  · rintro ⟨l, hl, hb⟩
    rwa [hl.unique h.linked] at hb
  · exact fun hb => ⟨rest, h.linked, hb⟩

theorem idOf_congr (h : SameLinks s.proc.ops s'.proc.ops) : s'.idOf = s.idOf :=
  funext h.id_eq

theorem idOf_create {b : Nat} {body : FfopBody} {options : Nat}
    (hops : s'.proc.ops = createIn b s.opid body options s.proc.ops) (x : Nat) :
    s'.idOf x = if x = b then s.opid else s.idOf x := by
  rw [ReadyState.idOf, hops, createIn_id]
  rfl

/-- The walk stands at an operation that it completes. -/
theorem linked_complete {rest : List Nat} {op : Nat}
    (hl : Linked (nexts s.proc.ops) s.cursor rest) (hw : s.walk = .test (some op))
    (hw' : s'.walk = .advance op) (hsame : SameLinks s.proc.ops s'.proc.ops) :
    ∃ rest', rest = op :: rest' ∧ Linked (nexts s'.proc.ops) s'.cursor rest' := by
  rw [cursor_of_test hw] at hl
  cases rest with
  | nil => cases hl
  | cons c rest' =>
      obtain rfl : op = c := Option.some.inj hl.1
      refine ⟨rest', rfl, ?_⟩
      rw [cursor_of_advance hw', hsame.next_eq]
      exact hl.2

/-- Step lemma: a step under the condition loses nothing. -/
theorem WalkInv.step {names rest : List Nat} (h : WalkInv names s rest)
    (hsafe : LinkSafe opPool s a) (hs : readyStep impl opPool s a = some s') :
    ∃ rest', WalkInv names s' rest' := by
  rcases readyStep_cases hs with ⟨n, op, rfl, hw, hw', hcalls, hsame, hopid⟩ |
    ⟨_, hcursor, _, hcalls, hsame, hopid⟩ |
    ⟨body, options, b, pools', rfl, hget, hw, hcalls, hops, hopid⟩
  · obtain ⟨rest', rfl, hl⟩ := linked_complete h.linked hw hw' hsame
    refine ⟨rest', hl, ?_, hopid ▸ h.lt_opid⟩
    rw [hcalls, idOf_congr hsame, ← h.calls_eq]
    simp [ReadyState.idOf]
  · refine ⟨rest, ?_, ?_, hopid ▸ h.lt_opid⟩
    · rw [hcursor, hsame.next_eq]
      exact h.linked
    · rw [hcalls, idOf_congr hsame]
      exact h.calls_eq
  · obtain ⟨hrem, hadv⟩ := hsafe body options rfl _ hget
    have hb : b ∉ rest := fun hb => hrem (h.remaining_iff.mpr hb)
    refine ⟨rest, ?_, ?_, fun i hi => ?_⟩
    · have hcursor : s'.cursor = s.cursor := by
        cases hwalk : s.walk with
        | test c => rw [cursor_of_test hwalk, cursor_of_test (hw.trans hwalk)]
        | advance op =>
            rw [cursor_of_advance hwalk, cursor_of_advance (hw.trans hwalk), hops, nexts_createIn]
            by_cases hop : op = b
            · subst hop
              rw [Function.update_self]
              exact (hadv hwalk).symm
            · rw [Function.update_of_ne hop]
      rw [hcursor, hops, nexts_createIn]
      refine h.linked.congr (fun c hc => ?_)
      have hcb : c ≠ b := by
        rintro rfl
        exact hb hc
      exact Function.update_of_ne hcb _ _
    · rw [hcalls, ← h.calls_eq]
      congr 1
      refine List.map_congr_left (fun c hc => ?_)
      rw [idOf_create hops, if_neg]
      rintro rfl
      exact hb hc
    · have := h.lt_opid i hi
      omega

/-- Step lemma: a step against the condition loses an operation. -/
theorem WalkInv.lost {names rest : List Nat} (h : WalkInv names s rest) (hnames : names.Nodup)
    (hagainst : ¬ LinkSafe opPool s a) (hs : readyStep impl opPool s a = some s') :
    ∃ i, i ∈ names ∧ ∃ rest', Lost i s' rest' := by
  rcases readyStep_cases hs with ⟨n, op, rfl, _⟩ | ⟨hno, _⟩ |
    ⟨body, options, b, pools', rfl, hget, hw, hcalls, hops, hopid⟩
  · exact absurd (fun body options ha => by cases ha) hagainst
  · exact absurd (fun body options ha => absurd ha (hno body options)) hagainst
  · have hnd : (s.calls ++ rest.map s.idOf).Nodup := by
      rw [h.calls_eq]
      exact hnames
    obtain ⟨_, hndrest, hdisj⟩ := List.nodup_append.mp hnd
    have hmem : ∀ c ∈ rest, s.idOf c ∈ names ∧ s.idOf c ∉ s'.calls := by
      intro c hc
      have hid := List.mem_map_of_mem (f := s.idOf) hc
      refine ⟨?_, fun hcall => hdisj _ (hcalls ▸ hcall) _ hid rfl⟩
      rw [← h.calls_eq]
      exact List.mem_append_right _ hid
    have hlt : ∀ c ∈ rest, s.idOf c < s'.opid := by
      intro c hc
      have := h.lt_opid _ (hmem c hc).1
      omega
    by_cases hb : b ∈ rest
    · obtain ⟨rest', hl, hpre⟩ := linked_afterCreate h.linked hw hops
      refine ⟨s.idOf b, (hmem b hb).1, rest', hl, (hmem b hb).2, fun c hc => ?_, hlt b hb⟩
      have hbound := h.lt_opid _ (hmem b hb).1
      rw [idOf_create hops]
      by_cases hcb : c = b
      · rw [if_pos hcb]
        omega
      · rw [if_neg hcb]
        exact fun heq => hcb (List.inj_on_of_nodup_map hndrest (hpre.subset hc) hb heq)
    · have hadv : s.walk = .advance b ∧ (s.proc.ops b).next ≠ none := by
        by_contra hno
        refine hagainst (fun body' options' _ r hr => ?_)
        rw [hget] at hr
        obtain rfl := Option.some.inj hr
        refine ⟨fun hrem => hb (h.remaining_iff.mp hrem), fun hwalk => ?_⟩
        by_contra hne
        exact hno ⟨hwalk, hne⟩
      obtain ⟨c, hc⟩ := Option.ne_none_iff_exists'.mp hadv.2
      have hcursor : s.cursor = some c := by
        rw [cursor_of_advance hadv.1]
        exact hc
      cases hrest : rest with
      | nil =>
          have := h.linked
          rw [hcursor, hrest] at this
          cases this
      | cons d rest' =>
          have hd : d ∈ rest := by simp [hrest]
          refine ⟨s.idOf d, (hmem d hd).1, [], ?_, (hmem d hd).2, by simp, hlt d hd⟩
          rw [linked_nil, cursor_of_advance (hw.trans hadv.1), hops, nexts_createIn,
            Function.update_self]

/-- Step lemma: an operation that is lost stays lost. -/
theorem Lost.step {i : Nat} {rest : List Nat} (h : Lost i s rest)
    (hs : readyStep impl opPool s a = some s') : ∃ rest', Lost i s' rest' := by
  rcases readyStep_cases hs with ⟨n, op, rfl, hw, hw', hcalls, hsame, hopid⟩ |
    ⟨_, hcursor, _, hcalls, hsame, hopid⟩ |
    ⟨body, options, b, pools', rfl, hget, hw, hcalls, hops, hopid⟩
  · obtain ⟨rest', rfl, hl⟩ := linked_complete h.linked hw hw' hsame
    refine ⟨rest', hl, ?_, fun b hb => ?_, hopid ▸ h.lt_opid⟩
    · have hop := h.not_rest op (List.mem_cons_self ..)
      rw [hcalls]
      simpa [h.not_called] using fun heq => hop heq.symm
    · rw [idOf_congr hsame]
      exact h.not_rest b (List.mem_cons_of_mem _ hb)
  · refine ⟨rest, ?_, hcalls ▸ h.not_called, ?_, hopid ▸ h.lt_opid⟩
    · rw [hcursor, hsame.next_eq]
      exact h.linked
    · rw [idOf_congr hsame]
      exact h.not_rest
  · obtain ⟨rest', hl, hpre⟩ := linked_afterCreate h.linked hw hops
    have hlt := h.lt_opid
    refine ⟨rest', hl, hcalls ▸ h.not_called, fun c hc => ?_, by omega⟩
    rw [idOf_create hops]
    by_cases hcb : c = b
    · rw [if_pos hcb]
      omega
    · rw [if_neg hcb]
      exact h.not_rest c (hpre.subset hc)

/-- Run lemma for walks that end. -/
theorem WalkInv.run_iff {names : List Nat} (hnames : names.Nodup) :
    ∀ (as : List ReadyAct) (s t : ReadyState σ) (rest : List Nat), WalkInv names s rest →
      run (readyStep impl opPool) s as = some t → t.walk = .test none →
      (t.calls.Perm names ↔ RunMeets (readyStep impl opPool) (LinkSafe opPool) s as) := by
  intro as
  induction as with
  | nil =>
      intro s t rest h hr hend
      obtain rfl : s = t := by simpa using hr
      have hl := h.linked
      rw [cursor_of_test hend] at hl
      cases rest with
      | nil =>
          have hcalls : s.calls = names := by simpa using h.calls_eq
          exact iff_of_true (hcalls ▸ List.Perm.refl _) trivial
      | cons b rest => cases hl.1
  | cons a as ih =>
      intro s t rest h hr hend
      obtain ⟨s', hs, hr'⟩ := run_cons_eq_some.mp hr
      simp only [RunMeets, hs, Option.some.injEq, forall_eq']
      by_cases hsafe : LinkSafe opPool s a
      · obtain ⟨rest', h'⟩ := h.step hsafe hs
        rw [and_iff_right hsafe]
        exact ih s' t rest' h' hr' hend
      · obtain ⟨i, hi, rest', hlost⟩ := h.lost hnames hsafe hs
        obtain ⟨_, hlost'⟩ := run_induction (P := fun s => ∃ rest, Lost i s rest)
          (fun _ _ _ hP hstep => hP.elim fun _ hl => hl.step hstep) as s' t ⟨rest', hlost⟩ hr'
        refine iff_of_false (fun hperm => ?_) (fun hmeets => hsafe hmeets.1)
        exact hlost'.not_called (hperm.symm.subset hi)

/-- Every step of the walk brings its end nearer, whatever the user thread does. -/
theorem walk_measure {n : Nat} {rest : List Nat}
    (hl : Linked (nexts s.proc.ops) s.cursor rest) (hn : 2 * rest.length + s.behind ≤ n)
    (hs : readyStep impl opPool s a = some s') :
    ∃ n', n' + (if a.isWalk = true then 1 else 0) ≤ n ∧
      ∃ rest', Linked (nexts s'.proc.ops) s'.cursor rest' ∧ 2 * rest'.length + s'.behind ≤ n' := by
  rcases readyStep_cases hs with ⟨k, op, rfl, hw, hw', _, hsame, _⟩ |
    ⟨_, hcursor, hbehind, _, hsame, _⟩ | ⟨body, options, b, pools', rfl, _, hw, _, hops, _⟩
  · obtain ⟨rest', rfl, hl'⟩ := linked_complete hl hw hw' hsame
    have hb : s'.behind = 1 := by rw [ReadyState.behind, hw']
    simp only [List.length_cons] at hn
    refine ⟨2 * rest'.length + 1, ?_, rest', hl', by omega⟩
    simp only [ReadyAct.isWalk, if_true]
    omega
  · refine ⟨2 * rest.length + s'.behind, by omega, rest, ?_, le_refl _⟩
    rw [hcursor, hsame.next_eq]
    exact hl
  · obtain ⟨rest', hl', hpre⟩ := linked_afterCreate hl hw hops
    have hlen := hpre.length_le
    have hb := behind_congr hw
    refine ⟨2 * rest'.length + s'.behind, ?_, rest', hl', le_refl _⟩
    simp only [ReadyAct.isWalk, Bool.false_eq_true, if_false]
    omega

end Walks

/-! ### The walk over a ready list -/

theorem enqueueAll_sameId (ready : List Nat) : ∀ (ops : Nat → Ffop) (h : Option Nat) (b : Nat),
    ((enqueueAll ready ops h).1 b).id = (ops b).id := by
  induction ready with
  | nil => exact fun _ _ _ => rfl
  | cons op ready ih =>
      intro ops h b
      rw [enqueueAll, ih]
      by_cases hb : b = op
      · subst hb
        simp [ffopEnqueue]
      · simp [ffopEnqueue, hb]

theorem nexts_ffopEnqueue (op : Nat) (ops : Nat → Ffop) (h : Option Nat) :
    nexts (ffopEnqueue op ops h).1 = Function.update (nexts ops) op h := by
  funext b
  by_cases hb : b = op
  · subst hb
    simp [nexts, ffopEnqueue]
  · simp [nexts, ffopEnqueue, hb]

/-- The ready list holds what was put on it, the last operation first. -/
theorem enqueueAll_linked : ∀ (ready : List Nat) (ops : Nat → Ffop) (h : Option Nat)
    (l : List Nat), Linked (nexts ops) h l → (ready.reverse ++ l).Nodup →
    Linked (nexts (enqueueAll ready ops h).1) (enqueueAll ready ops h).2
      (ready.reverse ++ l) := by
  intro ready
  induction ready with
  | nil => exact fun _ _ _ hl _ => hl
  | cons op ready ih =>
      intro ops h l hl hnd
      rw [List.reverse_cons, List.append_assoc] at hnd ⊢
      refine ih _ _ (op :: l) ?_ hnd
      rw [nexts_ffopEnqueue]
      have hop := (List.nodup_append.mp hnd).2.1
      exact hl.push (List.nodup_cons.mp hop).1

section Ready

variable {σ : Type u} {ready : List Nat} {s : ReadyState σ}

theorem walkInv_start (hnames : (ready.map s.idOf).Nodup)
    (hopid : ∀ b ∈ ready, s.idOf b < s.opid) :
    WalkInv (ready.map s.idOf).reverse (startWalk ready s) ready.reverse := by
  have hnd : (ready.reverse ++ []).Nodup := by
    rw [List.append_nil, List.nodup_reverse]
    exact hnames.of_map _
  refine ⟨?_, ?_, fun i hi => ?_⟩
  · have := enqueueAll_linked ready s.proc.ops none [] rfl hnd
    rwa [List.append_nil] at this
  · rw [← List.map_reverse]
    exact List.map_congr_left (fun b _ => enqueueAll_sameId ready s.proc.ops none b)
  · obtain ⟨b, hb, rfl⟩ := List.mem_map.mp (List.mem_reverse.mp hi)
    exact hopid b hb

/-- **Walk over the ready list.**  In every interleaving the walk takes at most two steps
for an operation of the list; when it is over, it has completed the operations of the
list, each once, and no other, iff no `ffop_create` was given a block that was still to
be completed, or whose link, not `NULL`, was still to be read. -/
theorem completes_once_iff (impl : Impl σ) (opPool : Nat) (s : ReadyState σ)
    (ready : List Nat) (hnames : (ready.map s.idOf).Nodup)
    (hopid : ∀ b ∈ ready, s.idOf b < s.opid) (as : List ReadyAct) (t : ReadyState σ)
    (hr : run (readyStep impl opPool) (startWalk ready s) as = some t) :
    as.countP ReadyAct.isWalk ≤ 2 * ready.length ∧
      (t.walk = .test none → (t.calls.Perm (ready.map s.idOf) ↔
        RunMeets (readyStep impl opPool) (LinkSafe opPool) (startWalk ready s) as)) := by
  have hstart := walkInv_start hnames hopid
  constructor
  · refine countP_le_of_measure (A := fun _ => True)
      (P := fun n s => ∃ rest, Linked (nexts s.proc.ops) s.cursor rest ∧
        2 * rest.length + s.behind ≤ n)
      (fun n s a s' hP _ hs => hP.elim fun rest hl => walk_measure hl.1 hl.2 hs)
      as _ _ t ⟨ready.reverse, hstart.linked, ?_⟩ (fun _ _ => trivial) hr
    simp [ReadyState.behind, startWalk]
  · intro hend
    rw [← hstart.run_iff (List.nodup_reverse.mpr hnames) as _ t _ hr hend]
    exact ⟨fun h => h.trans (List.reverse_perm _).symm, fun h => h.trans (List.reverse_perm _)⟩

end Ready

/-- Handlers that only start operations. -/
def startOnly : Impl Unit := ⟨fun _ _ e => (e, ffSuccess), fun _ _ _ => none, fun e => e⟩

/-- Two sends have been posted and found completed; they fill `op_pool`. -/
def twoSends : ReadyState Unit where
  env := ()
  proc := Proc.init (createIn 0 0 (.send 1 0 1) ffopDepAnd
    (createIn 1 1 (.send 1 0 2) ffopDepAnd Lib.init.ops))
  pools := fun q => ⟨fun i => ⟨q, i, none⟩, none, 2, 0⟩
  opid := 2
  walk := .test none
  returned := fun _ => false
  calls := []

/-- The user thread frees the first operation and creates another after its link is read. -/
theorem completes_once_iff_two :
    ∃ t, run (readyStep startOnly 0) (startWalk [1, 0] twoSends) [.complete 2, .advance,
        .wait 0, .free 0, .create .nop ffopDepAnd, .complete 2, .advance] = some t ∧
      t.walk = .test none ∧ (t.calls.Perm [1, 0] ↔
        RunMeets (readyStep startOnly 0) (LinkSafe 0) (startWalk [1, 0] twoSends) [.complete 2,
          .advance, .wait 0, .free 0, .create .nop ffopDepAnd, .complete 2, .advance]) := by
  refine ⟨_, rfl, rfl, ?_⟩
  exact (completes_once_iff startOnly 0 twoSends [1, 0] (by decide) (by decide) _ _ rfl).2 rfl

/-- The user thread frees the first operation and creates another before its link is read:
the second operation is never completed. -/
theorem completes_once_fails :
    ¬ ∀ (as : List ReadyAct) (t : ReadyState Unit),
      run (readyStep startOnly 0) (startWalk [1, 0] twoSends) as = some t →
      t.walk = .test none → t.calls.Perm ([1, 0].map twoSends.idOf) := by
  intro hall
  obtain ⟨t, ht, hend, hcalls⟩ : ∃ t, run (readyStep startOnly 0) (startWalk [1, 0] twoSends)
      [.complete 2, .wait 0, .free 0, .create .nop ffopDepAnd, .advance] = some t ∧
      t.walk = .test none ∧ t.calls = [0] := ⟨_, rfl, rfl, rfl⟩
  have hlen := (hall _ t ht hend).length_eq
  rw [hcalls] at hlen
  exact absurd hlen (by decide)

end Fflib
