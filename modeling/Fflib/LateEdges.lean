import Fflib.Client
import Mathlib.Data.Multiset.AddSub

/-!
# Edges added to a running graph

A client that calls `ffop_hb` at any point of its cascades, on its own or through
`ffschedule_add_op` (`lateStep`).  Beside it goes the account `Waits` of what an operation
waits for: each edge adds one completion, each completion of a predecessor takes one off,
and an operation that completes waits for all its predecessors again.

`ffop_hb` assigns `in_dep_count` to `dep_left`.

* `lateEdges_iff`: `dep_left` follows the account iff no edge is added to an operation some
  predecessor of which has completed since the operation last did.
* `ffscheduleAddOp_run`: the calls of `ffschedule_add_op` are steps of the client.
-/

namespace Fflib

open Library

universe u

/-! ### What operations wait for -/

/-- `owed d` completions are still to come before `d` is posted; of its predecessors
`preds d`, those in `outstanding d` have not completed since `d` last did. -/
structure Waits where
  owed : Nat → Nat
  preds : Nat → Multiset Nat
  outstanding : Nat → Multiset Nat

namespace Waits

def init : Waits where
  owed _ := 0
  preds _ := 0
  outstanding _ := 0

/-- A new operation waits for nothing. -/
def create (w : Waits) (x : Nat) : Waits where
  owed := Function.update w.owed x 0
  preds := Function.update w.preds x 0
  outstanding := Function.update w.outstanding x 0

/-- One more predecessor, which has still to complete. -/
def edge (w : Waits) (first second : Nat) : Waits where
  owed := Function.update w.owed second (w.owed second + 1)
  preds := Function.update w.preds second (first ::ₘ w.preds second)
  outstanding := Function.update w.outstanding second (first ::ₘ w.outstanding second)

/-- An operation that completes waits for all its predecessors again. -/
def restart (w : Waits) (x : Nat) : Waits where
  owed := Function.update w.owed x (w.preds x).card
  preds := w.preds
  outstanding := Function.update w.outstanding x (w.preds x)

/-- The completion of `x` is announced to its dependent `d`. -/
def arrive (w : Waits) (x d : Nat) : Waits where
  owed := Function.update w.owed d (decrDepLeft (w.owed d))
  preds := w.preds
  outstanding := Function.update w.outstanding d ((w.outstanding d).erase x)

/-- What the frame that runs next announces. -/
def frame (w : Waits) (ops : Nat → Ffop) : Frame → Waits
  | .post _ => w
  | .complete x => w.restart x
  | .loop x i =>
      if i < (ops x).outDepCount then w.arrive x ((ops x).dependent i) else w

variable (w : Waits) (x y d : Nat)

theorem create_owed : (w.create x).owed d = if d = x then 0 else w.owed d :=
  Function.update_apply _ _ _ _

theorem create_preds : (w.create x).preds d = if d = x then 0 else w.preds d :=
  Function.update_apply _ _ _ _

theorem create_outstanding :
    (w.create x).outstanding d = if d = x then 0 else w.outstanding d :=
  Function.update_apply _ _ _ _

theorem edge_owed : (w.edge x y).owed d = if d = y then w.owed y + 1 else w.owed d :=
  Function.update_apply _ _ _ _

theorem edge_preds : (w.edge x y).preds d = if d = y then x ::ₘ w.preds y else w.preds d :=
  Function.update_apply _ _ _ _

theorem edge_outstanding :
    (w.edge x y).outstanding d = if d = y then x ::ₘ w.outstanding y else w.outstanding d :=
  Function.update_apply _ _ _ _

theorem restart_owed : (w.restart x).owed d = if d = x then (w.preds x).card else w.owed d :=
  Function.update_apply _ _ _ _

theorem restart_outstanding :
    (w.restart x).outstanding d = if d = x then w.preds x else w.outstanding d :=
  Function.update_apply _ _ _ _

theorem arrive_owed :
    (w.arrive x y).owed d = if d = y then decrDepLeft (w.owed y) else w.owed d :=
  Function.update_apply _ _ _ _

theorem arrive_outstanding :
    (w.arrive x y).outstanding d =
      if d = y then (w.outstanding y).erase x else w.outstanding d :=
  Function.update_apply _ _ _ _

end Waits

/-! ### The client -/

/-- A client and the account of its operations. -/
structure LateState (σ : Type u) where
  client : Client σ
  waits : Waits

inductive LateAct (σ : Type u) where
  | create (body : FfopBody) (options : Nat)
  | scheduleCreate
  | link (sched op : Nat)
  | hb (first second : Nat)
  | engine (act : UserAct σ)

section Steps

variable {σ : Type u}

def LateState.init (e : σ) : LateState σ := ⟨Client.init e, Waits.init⟩

/-- The frame that a step of a thread runs. -/
def Client.topFrame (c : Client σ) : UserAct σ → Option Frame
  | .frame t => (c.proc.stack t).head?
  | _ => none

/-- What a step of a thread announces. -/
def Waits.engine (w : Waits) (c : Client σ) (act : UserAct σ) : Waits :=
  match c.topFrame act with
  | some f => w.frame c.lib.ops f
  | none => w

/-- One step; `none` is a call on a handle that no constructor has returned, or a store
outside a `dependent` array.  `link` is `ffschedule_add_op` up to its calls of `ffop_hb`. -/
def lateStep (cap : Nat) (impl : Impl σ) (x : LateState σ) : LateAct σ → Option (LateState σ)
  | .create body options =>
      some
        { client := { x.client with lib := (newOp body (fun _ => options) x.client.lib).2 }
          waits := x.waits.create x.client.lib.opid }
  | .scheduleCreate =>
      some
        { client := { x.client with
            scheds := x.client.scheds ++ [(ffscheduleCreate x.client.lib).1]
            lib := (ffscheduleCreate x.client.lib).2 }
          waits := (x.waits.create x.client.lib.opid).create (x.client.lib.opid + 1) }
  | .link k op =>
      if op ∈ x.client.handles then
        (x.client.scheds[k]?).map fun s =>
          { x with client := { x.client with
              scheds := x.client.scheds.set k { s with oplist := some op }
              lib := x.client.lib.setSchedNext op s.oplist } }
      else none
  | .hb first second =>
      if first ∈ x.client.handles ∧ second ∈ x.client.handles then
        (ffopHb cap first second x.client.lib).map fun l =>
          { client := { x.client with lib := l }
            waits := x.waits.edge first second }
      else none
  | .engine act =>
      (x.client.engineStep impl act).map fun c =>
        { client := c
          waits := x.waits.engine x.client act }

/-- The call of `ffop_hb` is one that the client can make. -/
def LateState.CanLink (cap : Nat) (x : LateState σ) (first second : Nat) : Prop :=
  (first ∈ x.client.handles ∧ second ∈ x.client.handles) ∧
    (x.client.lib.ops first).outDepCount < cap

/-- `dep_left` is the number of completions that an operation still waits for. -/
def LateState.OwedLaw (x : LateState σ) : Prop :=
  ∀ d, (x.client.lib.ops d).depLeft = x.waits.owed d

/-- A call of `ffop_hb` adds one to `dep_left` of its second argument. -/
def AddsOne (cap : Nat) (impl : Impl σ) (x : LateState σ) : LateAct σ → Prop
  | .hb first second => ∀ x', lateStep cap impl x (.hb first second) = some x' → ∀ d,
      (x'.client.lib.ops d).depLeft =
        (x.client.lib.ops d).depLeft + if d = second then 1 else 0
  | _ => True

/-- An announcement posts the dependent if it is the last one that the dependent waits for
(or any one, under `FFOP_DEP_OR`), unless the options of the announcing operation stop it. -/
def PostsOnLast (x : LateState σ) : LateAct σ → Prop
  | .engine act => ∀ v i, x.client.topFrame act = some (.loop v i) →
      i < (x.client.lib.ops v).outDepCount →
      (x.client.proc.Triggers v i ↔
        (x.waits.owed ((x.client.lib.ops v).dependent i) = 1 ∨
            isOptSet (x.client.lib.ops v).options ffopDepOr = true) ∧
          ((x.client.lib.ops v).version = 0 ∨
            isOptSet (x.client.lib.ops v).options ffopNonPersistent = false))
  | _ => True

/-- An edge is added while its target waits for all its predecessors. -/
def TargetIdle (cap : Nat) (x : LateState σ) : LateAct σ → Prop
  | .hb first second =>
      x.CanLink cap first second → x.waits.owed second = (x.waits.preds second).card
  | _ => True

/-- A completion is announced only to an operation that waits for it. -/
def AnnouncesInTurn (x : LateState σ) : LateAct σ → Prop
  | .engine act => ∀ v i, x.client.topFrame act = some (.loop v i) →
      i < (x.client.lib.ops v).outDepCount →
      v ∈ x.waits.outstanding ((x.client.lib.ops v).dependent i)
  | _ => True

/-- The completions to come are those of the outstanding predecessors. -/
def LateState.CountsOutstanding (x : LateState σ) : Prop :=
  ∀ d, x.waits.owed d = (x.waits.outstanding d).card

end Steps

/-! ### Counters and account -/

section Agree

variable {ops ops' : Nat → Ffop} {w : Waits}

/-- The account agrees with the links of the operations. -/
def CountsPreds (ops : Nat → Ffop) (w : Waits) : Prop :=
  ∀ d, (ops d).inDepCount = (w.preds d).card

/-- It agrees with what the operations wait for. -/
def CountsOwed (ops : Nat → Ffop) (w : Waits) : Prop :=
  ∀ d, (ops d).depLeft = w.owed d

theorem newOp_left (body : FfopBody) (options : Nat → Nat) (l : Lib) (x : Nat) :
    ((newOp body options l).2.ops x).depLeft = if x = l.opid then 0 else (l.ops x).depLeft := by
  split
  · next h =>
      rw [h]
      exact (newOp_fresh body options l).left_eq
  · next h => rw [newOp_ops_of_ne body options l h]

theorem CountsPreds.newOp {l : Lib} (h : CountsPreds l.ops w) (body : FfopBody)
    (options : Nat → Nat) :
    CountsPreds (newOp body options l).2.ops (w.create l.opid) := by
  intro d
  rw [newOp_in, Waits.create_preds]
  split
  · exact Multiset.card_zero.symm
  · exact h d

theorem CountsOwed.newOp {l : Lib} (h : CountsOwed l.ops w) (body : FfopBody)
    (options : Nat → Nat) :
    CountsOwed (newOp body options l).2.ops (w.create l.opid) := by
  intro d
  rw [newOp_left, Waits.create_owed]
  split
  · rfl
  · exact h d

theorem CountsPreds.hb {first second : Nat} {l l' : Lib} (h : CountsPreds l.ops w)
    (hb : HbSpec first second l l') : CountsPreds l'.ops (w.edge first second) := by
  intro d
  rw [hb.in_eq, Waits.edge_preds]
  split
  · next hd => rw [Multiset.card_cons, hd, h second]
  · exact h d

/-- `ffop_hb` keeps the agreement iff its second argument waits for all its predecessors. -/
theorem CountsOwed.hb_iff {first second : Nat} {l l' : Lib} (h : CountsOwed l.ops w)
    (hin : CountsPreds l.ops w) (hb : HbSpec first second l l') :
    CountsOwed l'.ops (w.edge first second) ↔ w.owed second = (w.preds second).card := by
  have hleft : ∀ d, (l'.ops d).depLeft = if d = second then (w.preds second).card + 1
      else w.owed d := by
    intro d
    rw [hb.left_eq]
    split
    · next hd => rw [hd, hin second]
    · exact h d
  constructor
  · intro h'
    have hd := h' second
    rw [hleft, Waits.edge_owed, if_pos rfl, if_pos rfl] at hd
    exact (Nat.succ.inj hd).symm
  · intro hidle d
    rw [hleft, Waits.edge_owed, hidle]

/-- Step lemma of a frame: what it does to `dep_left` is what it announces. -/
theorem CountsOwed.frame {σ : Type u} {impl : Impl σ} {t : Thread} {e e' : σ} {p p' : Proc}
    {f : Frame} {fs : List Frame} (h : CountsOwed p.ops w) (hin : CountsPreds p.ops w)
    (hm : FrameMove impl t e p fs f e' p') : CountsOwed p'.ops (w.frame p.ops f) := by
  have hdecr : ∀ x i, i < (p.ops x).outDepCount →
      CountsOwed (p.decrDep x i).ops (w.frame p.ops (.loop x i)) := by
    intro x i hi d
    rw [Waits.frame, if_pos hi, Proc.decrDep, Proc.setOp_ops, Waits.arrive_owed]
    split
    · next hd =>
        rw [hd]
        exact congrArg decrDepLeft (h _)
    · exact h d
  have hpost : ∀ x, CountsOwed (p.logPosting x).ops w :=
    fun x d => (depLeft_logPosting p x d).trans (h d)
  cases hm with
  | refused hv ho =>
      intro d
      rw [Proc.setStack_ops]
      exact h d
  | @pending x _ hr =>
      intro d
      rw [Proc.setStack_ops]
      exact hpost x d
  | @posted x _ hr =>
      intro d
      rw [Proc.setStack_ops]
      exact hpost x d
  | @failed x _ _ hr hne =>
      intro d
      rw [Proc.setStack_ops]
      exact hpost x d
  | @complete x =>
      intro d
      rw [Proc.setStack_ops, Waits.frame, Waits.restart_owed]
      simp only [Proc.logCompleting, Function.update_apply]
      split
      · exact hin x
      · exact h d
  | @trigger x i hi ht =>
      intro d
      rw [Proc.setStack_ops]
      exact hdecr x i hi d
  | @announce x i hi ht =>
      intro d
      rw [Proc.setStack_ops]
      exact hdecr x i hi d
  | @done x i hi =>
      intro d
      rw [Proc.setStack_ops, Waits.frame, if_neg (Nat.not_lt.mpr hi)]
      exact h d

theorem frame_preds (w : Waits) (ops : Nat → Ffop) (f : Frame) :
    (w.frame ops f).preds = w.preds := by
  cases f with
  | post x => rfl
  | complete x => rfl
  | loop x i =>
      rw [Waits.frame]
      split
      · rfl
      · rfl

/-- A completion that its dependent waits for is one of those to come. -/
theorem frame_outstanding {f : Frame} (h : ∀ d, w.owed d = (w.outstanding d).card)
    (hturn : ∀ v i, f = .loop v i → i < (ops v).outDepCount →
      v ∈ w.outstanding ((ops v).dependent i)) :
    ∀ d, (w.frame ops f).owed d = ((w.frame ops f).outstanding d).card := by
  intro d
  cases f with
  | post x => exact h d
  | complete x =>
      rw [Waits.frame, Waits.restart_owed, Waits.restart_outstanding]
      split
      · rfl
      · exact h d
  | loop x i =>
      rw [Waits.frame]
      split
      · next hi =>
          have hmem := hturn x i rfl hi
          rw [Waits.arrive_owed, Waits.arrive_outstanding]
          split
          · rw [Multiset.card_erase_of_mem hmem, h,
              decrDepLeft_of_pos (Multiset.card_pos_iff_exists_mem.mpr ⟨x, hmem⟩)]
            rfl
          · exact h d
      · exact h d

end Agree

/-! ### Steps of the client -/

section Moves

variable {σ : Type u} {cap : Nat} {impl : Impl σ} {x x' : LateState σ} {act : LateAct σ}

theorem engine_preds (w : Waits) (c : Client σ) (act : UserAct σ) :
    (w.engine c act).preds = w.preds := by
  rw [Waits.engine]
  split
  · exact frame_preds w _ _
  · rfl

theorem CountsOwed.engine {w : Waits} {c c' : Client σ} {act : UserAct σ}
    (h : CountsOwed c.lib.ops w) (hin : CountsPreds c.lib.ops w)
    (hs : c.engineStep impl act = some c') : CountsOwed c'.lib.ops (w.engine c act) := by
  obtain ⟨y, hy, rfl⟩ := Client.engineStep_cases hs
  cases hy with
  | post hu hop => exact h
  | @frame t f fs e' p' hstack hm =>
      have htop : c.topFrame (.frame t : UserAct σ) = some f := by
        simp only [Client.topFrame, hstack, List.head?_cons]
      rw [Waits.engine, htop]
      exact h.frame hin hm
  | progress hp hop ht => exact h
  | env e => exact h

/-- What a step of the client can be. -/
inductive LateMove (cap : Nat) (impl : Impl σ) (x : LateState σ) :
    LateAct σ → LateState σ → Prop
  | create {body : FfopBody} {options : Nat} :
      LateMove cap impl x (.create body options)
        { client := { x.client with lib := (newOp body (fun _ => options) x.client.lib).2 }
          waits := x.waits.create x.client.lib.opid }
  | scheduleCreate :
      LateMove cap impl x .scheduleCreate
        { client := { x.client with
            scheds := x.client.scheds ++ [(ffscheduleCreate x.client.lib).1]
            lib := (ffscheduleCreate x.client.lib).2 }
          waits := (x.waits.create x.client.lib.opid).create (x.client.lib.opid + 1) }
  | link {k op : Nat} {s : FfSchedule} (hop : op ∈ x.client.handles)
      (hk : x.client.scheds[k]? = some s) :
      LateMove cap impl x (.link k op)
        { x with client := { x.client with
            scheds := x.client.scheds.set k { s with oplist := some op }
            lib := x.client.lib.setSchedNext op s.oplist } }
  | hb {first second : Nat} (hlink : x.CanLink cap first second) :
      LateMove cap impl x (.hb first second)
        { client := { x.client with lib := hbLib first second x.client.lib }
          waits := x.waits.edge first second }
  | engine {act : UserAct σ} {c : Client σ} (hs : x.client.engineStep impl act = some c) :
      LateMove cap impl x (.engine act) { client := c, waits := x.waits.engine x.client act }

theorem lateStep_cases (hs : lateStep cap impl x act = some x') : LateMove cap impl x act x' := by
  cases act with
  | create body options =>
      obtain rfl := Option.some.inj hs
      exact .create
  | scheduleCreate =>
      obtain rfl := Option.some.inj hs
      exact .scheduleCreate
  | link k op =>
      simp only [lateStep] at hs
      split at hs
      · next hop =>
          obtain ⟨s, hk, rfl⟩ := Option.map_eq_some_iff.mp hs
          exact .link hop hk
      · cases hs
  | hb first second =>
      simp only [lateStep, ffopHb_eq] at hs
      split at hs
      · next hmem =>
          obtain ⟨l, hl, rfl⟩ := Option.map_eq_some_iff.mp hs
          split at hl
          · next hlt =>
              obtain rfl := Option.some.inj hl
              exact .hb ⟨hmem, hlt⟩
          · cases hl
      · cases hs
  | engine act =>
      obtain ⟨c, hc, rfl⟩ := Option.map_eq_some_iff.mp hs
      exact .engine hc

/-- A call that can be made is made. -/
theorem lateStep_hb (impl : Impl σ) {first second : Nat} (hlink : x.CanLink cap first second) :
    lateStep cap impl x (.hb first second) =
      some { client := { x.client with lib := hbLib first second x.client.lib }
             waits := x.waits.edge first second } := by
  simp only [lateStep, if_pos hlink.1, ffopHb_eq, if_pos hlink.2, Option.map_some]

/-- Step lemma of the links. -/
theorem CountsPreds.step (h : CountsPreds x.client.lib.ops x.waits)
    (hs : lateStep cap impl x act = some x') : CountsPreds x'.client.lib.ops x'.waits := by
  cases lateStep_cases hs with
  | @create body options => exact h.newOp body (fun _ => options)
  | scheduleCreate =>
      have h₀ : CountsPreds { x.client.lib with schedid := x.client.lib.schedid + 1 }.ops
          x.waits := h
      exact (h₀.newOp .nop (fun _ => 0)).newOp .nop (fun _ => 0)
  | link hop hk =>
      intro d
      rw [setSchedNext_in]
      exact h d
  | hb hlink => exact h.hb (hbLib_spec _ _ _)
  | engine hc =>
      intro d
      rw [((Client.engineStep_spec hc).2.2 d).in_eq, engine_preds]
      exact h d

/-- Step lemma of the counters. -/
theorem CountsOwed.step (h : CountsOwed x.client.lib.ops x.waits)
    (hin : CountsPreds x.client.lib.ops x.waits) (hidle : TargetIdle cap x act)
    (hs : lateStep cap impl x act = some x') : CountsOwed x'.client.lib.ops x'.waits := by
  cases lateStep_cases hs with
  | @create body options => exact h.newOp body (fun _ => options)
  | scheduleCreate =>
      have h₀ : CountsOwed { x.client.lib with schedid := x.client.lib.schedid + 1 }.ops
          x.waits := h
      exact (h₀.newOp .nop (fun _ => 0)).newOp .nop (fun _ => 0)
  | link hop hk =>
      intro d
      rw [setSchedNext_ops]
      exact h d
  | hb hlink => exact (h.hb_iff hin (hbLib_spec _ _ _)).mpr (hidle hlink)
  | engine hc => exact h.engine hin hc

/-- The counters cannot be right on both sides of an edge to an operation some
predecessor of which has completed. -/
theorem targetIdle_of_step (h : CountsOwed x.client.lib.ops x.waits)
    (hin : CountsPreds x.client.lib.ops x.waits)
    (hnext : ∀ x', lateStep cap impl x act = some x' → CountsOwed x'.client.lib.ops x'.waits) :
    TargetIdle cap x act := by
  cases act with
  | create body options => trivial
  | scheduleCreate => trivial
  | link k op => trivial
  | hb first second =>
      intro hlink
      exact (h.hb_iff hin (hbLib_spec _ _ _)).mp (hnext _ (lateStep_hb impl hlink))
  | engine act => trivial

/-- An edge to an operation that waits for all its predecessors adds one completion. -/
theorem CountsOwed.addsOne (h : CountsOwed x.client.lib.ops x.waits)
    (hin : CountsPreds x.client.lib.ops x.waits) (hidle : TargetIdle cap x act) :
    AddsOne cap impl x act := by
  cases act with
  | create body options => trivial
  | scheduleCreate => trivial
  | link k op => trivial
  | hb first second =>
      intro x' hs d
      cases lateStep_cases hs with
      | hb hlink =>
          rw [(hbLib_spec first second x.client.lib).left_eq]
          split
          · next hd => rw [hd, hin second, h second, hidle hlink]
          · rfl
  | engine act => trivial

theorem decrDepLeft_eq_zero_iff {n : Nat} : decrDepLeft n = 0 ↔ n = 1 := by
  unfold decrDepLeft
  split
  · omega
  · omega

/-- Counters that are right post a dependent when they should. -/
theorem CountsOwed.postsOnLast (h : CountsOwed x.client.lib.ops x.waits) (act : LateAct σ) :
    PostsOnLast x act := by
  cases act with
  | create body options => trivial
  | scheduleCreate => trivial
  | link k op => trivial
  | hb first second => trivial
  | engine act =>
      intro v i _ _
      have hleft : (x.client.proc.ops ((x.client.proc.ops v).dependent i)).depLeft =
          x.waits.owed ((x.client.lib.ops v).dependent i) := h _
      rw [Proc.Triggers, hleft, decrDepLeft_eq_zero_iff]
      exact Iff.rfl

/-- Step lemma of the account. -/
theorem LateState.CountsOutstanding.step (h : x.CountsOutstanding)
    (hturn : AnnouncesInTurn x act) (hs : lateStep cap impl x act = some x') :
    x'.CountsOutstanding := by
  cases lateStep_cases hs with
  | create =>
      intro d
      rw [Waits.create_owed, Waits.create_outstanding]
      split
      · exact Multiset.card_zero.symm
      · exact h d
  | scheduleCreate =>
      intro d
      rw [Waits.create_owed, Waits.create_outstanding, Waits.create_owed,
        Waits.create_outstanding]
      split
      · exact Multiset.card_zero.symm
      · split
        · exact Multiset.card_zero.symm
        · exact h d
  | link hop hk => exact h
  | @hb first second hlink =>
      intro d
      rw [Waits.edge_owed, Waits.edge_outstanding]
      split
      · rw [Multiset.card_cons, h second]
      · exact h d
  | @engine act c hc =>
      intro d
      cases htop : x.client.topFrame act with
      | none =>
          simp only [Waits.engine, htop]
          exact h d
      | some f =>
          simp only [Waits.engine, htop]
          exact frame_outstanding h
            (fun v i hf hi => hturn v i (htop.trans (congrArg some hf)) hi) d

/-- A call of `ffop_hb` that `ffschedule_add_op` makes under a condition is at most one
step. -/
theorem run_condHb (impl : Impl σ) {first second : Nat} {l : Lib} {c : Prop} [Decidable c]
    (hf : first ∈ x.client.handles) (hs : second ∈ x.client.handles)
    (h : (if c then ffopHb cap first second x.client.lib else some x.client.lib) = some l) :
    ∃ as x', run (lateStep cap impl) x as = some x' ∧ (∀ a ∈ as, a = .hb first second) ∧
      x'.client.lib = l ∧ x'.client.scheds = x.client.scheds ∧
      x'.client.handles = x.client.handles := by
  rcases condHb_cases h with ⟨_, hhb⟩ | ⟨_, rfl⟩
  · rw [ffopHb_eq] at hhb
    split at hhb
    · next hlt =>
        obtain rfl := Option.some.inj hhb
        have hstep := lateStep_hb impl ⟨⟨hf, hs⟩, hlt⟩
        exact ⟨[.hb first second], _, run_cons_eq_some.mpr ⟨_, hstep, rfl⟩,
          fun a ha => List.mem_singleton.mp ha, rfl, rfl, rfl⟩
    · cases hhb
  · exact ⟨[], x, rfl, fun a ha => absurd ha List.not_mem_nil, rfl, rfl, rfl⟩

/-- `ffschedule_add_op` is a run of the client. -/
theorem ffscheduleAddOp_run (impl : Impl σ) {k op : Nat} {s s' : FfSchedule} {l : Lib}
    (hk : x.client.scheds[k]? = some s) (hop : op ∈ x.client.handles)
    (hbegin : s.beginOp ∈ x.client.handles) (hend : s.endOp ∈ x.client.handles)
    (h : ffscheduleAddOp cap s op x.client.lib = some (s', l)) :
    ∃ as x', run (lateStep cap impl) x (.link k op :: as) = some x' ∧
      (∀ a ∈ as, a = .hb s.beginOp op ∨ a = .hb op s.endOp) ∧
      x'.client.lib = l ∧ x'.client.scheds = x.client.scheds.set k s' := by
  obtain ⟨l₁, h₁, hrest⟩ := Option.bind_eq_some_iff.mp h
  obtain ⟨l₂, h₂, heq⟩ := Option.map_eq_some_iff.mp hrest
  obtain ⟨rfl, rfl⟩ := Prod.mk.inj heq
  obtain ⟨x₀, hlink, hlib₀, hscheds₀, hhandles₀⟩ : ∃ x₀,
      lateStep cap impl x (.link k op) = some x₀ ∧
      x₀.client.lib = x.client.lib.setSchedNext op s.oplist ∧
      x₀.client.scheds = x.client.scheds.set k { s with oplist := some op } ∧
      x₀.client.handles = x.client.handles := by
    simp only [lateStep, if_pos hop, hk, Option.map_some]
    exact ⟨_, rfl, rfl, rfl, rfl⟩
  rw [← hhandles₀] at hop hbegin hend
  -- the edge from `begin_op`, then the edge to `end_op`
  rw [← hlib₀] at h₁
  obtain ⟨as₁, x₁, hrun₁, has₁, rfl, hscheds₁, hhandles₁⟩ :=
    run_condHb impl hbegin hop h₁
  rw [← hhandles₁] at hop hend
  obtain ⟨as₂, x₂, hrun₂, has₂, hlib₂, hscheds₂, _⟩ := run_condHb impl hop hend h₂
  refine ⟨as₁ ++ as₂, x₂, run_cons_eq_some.mpr ⟨_, hlink, run_append_eq_some.mpr
    ⟨x₁, hrun₁, hrun₂⟩⟩, fun a ha => ?_, hlib₂,
    hscheds₂.trans (hscheds₁.trans hscheds₀)⟩
  rcases List.mem_append.mp ha with ha | ha
  · exact Or.inl (has₁ a ha)
  · exact Or.inr (has₂ a ha)

end Moves

section Runs

variable {σ : Type u}

/-- **Late edges**: the counters are right throughout a run, each edge adds one and the
last outstanding completion posts, iff no edge is added to an operation that has stopped
waiting for one of its predecessors. -/
theorem lateEdges_iff (cap : Nat) (impl : Impl σ) (e : σ) (as : List (LateAct σ)) :
    (RunAlways (lateStep cap impl) LateState.OwedLaw (LateState.init e) as ∧
        RunMeets (lateStep cap impl) (AddsOne cap impl) (LateState.init e) as ∧
        RunMeets (lateStep cap impl) PostsOnLast (LateState.init e) as ↔
      RunMeets (lateStep cap impl) (TargetIdle cap) (LateState.init e) as) ∧
    (RunMeets (lateStep cap impl) AnnouncesInTurn (LateState.init e) as →
      RunAlways (lateStep cap impl) LateState.CountsOutstanding (LateState.init e) as) := by
  have hpreds : CountsPreds (LateState.init e).client.lib.ops (LateState.init e).waits :=
    fun d => Multiset.card_zero.symm
  have howed : (LateState.init e).OwedLaw := fun d => rfl
  constructor
  · constructor
    · rintro ⟨halways, _, _⟩
      exact RunAlways.meets_of_step (P := LateState.OwedLaw)
        (I := fun x => CountsPreds x.client.lib.ops x.waits)
        (fun x act x' h _ hs => h.step hs)
        (fun x act hin h hnext => targetIdle_of_step h hin hnext) as _ hpreds halways
    · intro hidle
      have hstep : ∀ (x : LateState σ) (act : LateAct σ) (x' : LateState σ),
          (CountsPreds x.client.lib.ops x.waits ∧ x.OwedLaw) → TargetIdle cap x act →
          lateStep cap impl x act = some x' →
          CountsPreds x'.client.lib.ops x'.waits ∧ x'.OwedLaw :=
        fun x act x' h hok hs => ⟨h.1.step hs, CountsOwed.step h.2 h.1 hok hs⟩
      exact ⟨runAlways_of_meets (fun x h => h.2) hstep as _ ⟨hpreds, howed⟩ hidle,
        RunMeets.of_invariant hstep (fun x act h hok => CountsOwed.addsOne h.2 h.1 hok) as _
          ⟨hpreds, howed⟩ hidle,
        RunMeets.of_invariant hstep (fun x act h _ => CountsOwed.postsOnLast h.2 act) as _
          ⟨hpreds, howed⟩ hidle⟩
  · exact runAlways_of_meets (fun x h => h)
      (fun x act x' h hturn hs => LateState.CountsOutstanding.step h hturn hs) as _
      (fun d => Multiset.card_zero.symm)

end Runs

/-! ### Two predecessors, and a third after the first of them -/

def joinThenEdge : List (LateAct Unit) :=
  List.replicate 4 (.create .nop ffopDepAnd) ++ [.hb 0 3, .hb 1 3, .engine (.post 0)] ++
    List.replicate 4 (.engine (.frame .user))

/-- Operation 3 waits for one of its two predecessors; a third one makes it wait for
three completions. -/
theorem lateEdges_fails :
    ¬ ∀ as : List (LateAct Unit),
      (∀ v, ¬ Relation.TransGen (fun a c => LateAct.hb a c ∈ as) v v) →
      RunMeets (lateStep maxDeps asyncImpl) (AddsOne maxDeps asyncImpl) (LateState.init ()) as := by
  intro hall
  obtain ⟨t, hrun, hbefore, t', hstep, hafter⟩ : ∃ t,
      run (lateStep maxDeps asyncImpl) (LateState.init ()) joinThenEdge = some t ∧
      (t.client.lib.ops 3).depLeft = 1 ∧
      ∃ t', lateStep maxDeps asyncImpl t (.hb 2 3) = some t' ∧
        (t'.client.lib.ops 3).depLeft = 3 := ⟨_, rfl, rfl, _, rfl, rfl⟩
  have hacyc : ∀ v, ¬ Relation.TransGen
      (fun a c => LateAct.hb a c ∈ joinThenEdge ++ [.hb 2 3]) v v := by
    refine acyclic_of_lt id (fun a c hac => ?_)
    simp only [joinThenEdge, List.mem_append, List.mem_cons, List.mem_replicate,
      LateAct.hb.injEq, reduceCtorEq, List.not_mem_nil, and_false, or_false, false_or] at hac
    rcases hac with (⟨rfl, rfl⟩ | ⟨rfl, rfl⟩) | ⟨rfl, rfl⟩
    · decide
    · decide
    · decide
  have hadds := (hall _ hacyc).last hrun t' hstep 3
  rw [hbefore, hafter] at hadds
  exact absurd hadds (by decide)

end Fflib
