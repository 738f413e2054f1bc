import Fflib.Ffop
import Fflib.Library.Machine
import Mathlib.Algebra.BigOperators.Intervals

/-!
# Building a schedule

`ffschedule_create`, `ffschedule_add_op` and the setters of `ffschedule.c`, and the
programs that build a schedule: creations of buffers and operations, one
`ffschedule_create`, calls of `ffop_hb` among the member operations and calls of
`ffschedule_add_op`, in any interleaving (`BuildCall`, `buildStep`).

`BuildInv` is the invariant of such programs.  It says where every edge of the
graph comes from (`EdgeOrigin`), that in-degrees count the edges, that
`dep_left` has been initialised to the in-degree, and that an operation that has
been added has both a predecessor and a successor.
-/

namespace Fflib

open Library

/-- `allreduce_state_t` of `ffallreduce.c`. -/
structure AllreduceState where
  tmpbuffs : List Nat
  sndbuff : Nat
  rcvbuff : Nat
  count : Nat
  datatype : Int
  tmpbuffsCount : Nat
  freeSrBuff : Bool
deriving DecidableEq

/-- The functions the repository stores in the callback fields of a schedule. -/
inductive SchedCallback where
  | ffallreducePostCheck
  | ffallreduceFree
deriving DecidableEq

/-- `ffschedule_t`. -/
structure FfSchedule where
  oplist : Option Nat
  beginOp : Nat
  endOp : Nat
  id : Nat
  state : Option AllreduceState
  postCallback : Option SchedCallback
  deleteCallback : Option SchedCallback

/-- `ffschedule_create`: `begin_op` and `end_op` are nops with no options. -/
def ffscheduleCreate (l : Lib) : FfSchedule × Lib :=
  let b := ffnop 0 { l with schedid := l.schedid + 1 }
  let e := ffnop 0 b.2
  ({ oplist := none
     beginOp := b.1
     endOp := e.1
     id := l.schedid
     state := none
     postCallback := none
     deleteCallback := none }, e.2)

@[simp] theorem ffscheduleCreate_beginOp (l : Lib) :
    (ffscheduleCreate l).1.beginOp = l.opid := rfl

@[simp] theorem ffscheduleCreate_endOp (l : Lib) :
    (ffscheduleCreate l).1.endOp = l.opid + 1 := rfl

@[simp] theorem ffscheduleCreate_opid (l : Lib) :
    (ffscheduleCreate l).2.opid = l.opid + 2 := rfl

theorem ffscheduleCreate_ops_of_lt (l : Lib) {x : Nat} (h : x < l.opid) :
    (ffscheduleCreate l).2.ops x = l.ops x := by
  have h₁ : x ≠ l.opid + 1 := by omega
  have h₂ : x ≠ l.opid := by omega
  simp [ffscheduleCreate, ffnop, newOp, ffopCreate, Lib.setOp, h₁, h₂]

theorem ffscheduleCreate_begin_fresh (l : Lib) :
    ((ffscheduleCreate l).2.ops l.opid).Fresh .nop 0 := by
  constructor <;> simp [ffscheduleCreate, ffnop, newOp, ffopCreate, Lib.setOp]

theorem ffscheduleCreate_end_fresh (l : Lib) :
    ((ffscheduleCreate l).2.ops (l.opid + 1)).Fresh .nop 0 := by
  constructor <;> simp [ffscheduleCreate, ffnop, newOp, ffopCreate, Lib.setOp]

/-- Link an operation into the list of its schedule. -/
def Lib.setSchedNext (l : Lib) (op : Nat) (nxt : Option Nat) : Lib :=
  l.setOp op (fun o => { o with schedNext := nxt })

/-- `ffschedule_add_op`. -/
def ffscheduleAddOp (cap : Nat) (sched : FfSchedule) (op : Nat) (l : Lib) :
    Option (FfSchedule × Lib) :=
  let l₀ := l.setSchedNext op sched.oplist
  (if (l₀.ops op).inDepCount = 0 then ffopHb cap sched.beginOp op l₀ else some l₀).bind
    fun l₁ =>
      (if (l₁.ops op).outDepCount = 0 then ffopHb cap op sched.endOp l₁ else some l₁).map
        fun l₂ => ({ sched with oplist := some op }, l₂)

/-- `ffschedule_set_state`. -/
def ffscheduleSetState (sched : FfSchedule) (state : AllreduceState) : FfSchedule :=
  { sched with state := some state }

/-- `ffschedule_set_post_callback`. -/
def ffscheduleSetPostCallback (sched : FfSchedule) (cb : SchedCallback) : FfSchedule :=
  { sched with postCallback := some cb }

/-- `ffschedule_set_delete_callback`. -/
def ffscheduleSetDeleteCallback (sched : FfSchedule) (cb : SchedCallback) : FfSchedule :=
  { sched with deleteCallback := some cb }

/-- A call of a program that builds a schedule. -/
inductive BuildCall where
  | buffer (count : Nat) (datatype : Int)
  | create (body : FfopBody) (options : Nat)
  | scheduleCreate
  | setState (state : AllreduceState)
  | setPostCallback (cb : SchedCallback)
  | setDeleteCallback (cb : SchedCallback)
  | hb (first second : Nat)
  | addOp (op : Nat)
deriving DecidableEq

/-- The schedule under construction and the library state. -/
structure Builder where
  sched : Option FfSchedule
  lib : Lib

/-- `x` is one of the program's operations: its handles start at `lo`. -/
def Builder.Member (lo : Nat) (b : Builder) (x : Nat) : Prop :=
  lo ≤ x ∧ x < b.lib.opid ∧ ∀ s, b.sched = some s → x ≠ s.beginOp ∧ x ≠ s.endOp

@[simp] theorem member_some {lo : Nat} {s : FfSchedule} {l : Lib} {x : Nat} :
    Builder.Member lo ⟨some s, l⟩ x ↔
      lo ≤ x ∧ x < l.opid ∧ x ≠ s.beginOp ∧ x ≠ s.endOp := by
  simp [Builder.Member]

instance (lo : Nat) (b : Builder) (x : Nat) : Decidable (b.Member lo x) :=
  match h : b.sched with
  | none => decidable_of_iff (lo ≤ x ∧ x < b.lib.opid) (by simp [Builder.Member, h])
  | some s => decidable_of_iff (lo ≤ x ∧ x < b.lib.opid ∧ x ≠ s.beginOp ∧ x ≠ s.endOp)
      (by simp [Builder.Member, h])

/-- One call; `none` is a call on a handle the program does not own, a second
`ffschedule_create`, or a store outside a `dependent` array. -/
def buildStep (cap : Nat) (lo : Nat) (b : Builder) : BuildCall → Option Builder
  | .buffer count datatype => some { b with lib := (ffbufferCreate count datatype b.lib).2 }
  | .create body options => some { b with lib := (newOp body (fun _ => options) b.lib).2 }
  | .scheduleCreate =>
      match b.sched with
      | some _ => none
      | none => some ⟨some (ffscheduleCreate b.lib).1, (ffscheduleCreate b.lib).2⟩
  | .setState state =>
      b.sched.map (fun s => { b with sched := some (ffscheduleSetState s state) })
  | .setPostCallback cb =>
      b.sched.map (fun s => { b with sched := some (ffscheduleSetPostCallback s cb) })
  | .setDeleteCallback cb =>
      b.sched.map (fun s => { b with sched := some (ffscheduleSetDeleteCallback s cb) })
  | .hb first second =>
      if b.Member lo first ∧ b.Member lo second then
        (ffopHb cap first second b.lib).map (fun l => { b with lib := l })
      else none
  | .addOp op =>
      match b.sched with
      | none => none
      | some s =>
          if b.Member lo op then
            (ffscheduleAddOp cap s op b.lib).map (fun r => ⟨some r.1, r.2⟩)
          else none

/-! ### Edges of the library state -/

/-- `c` is stored in the `dependent` array of `a`. -/
def Lib.HasEdge (l : Lib) (a c : Nat) : Prop :=
  ∃ i, i < (l.ops a).outDepCount ∧ (l.ops a).dependent i = c

/-- Number of entries equal to `d` in the `dependent` arrays of `vs`. -/
def edgeCount (ops : Nat → Ffop) (vs : Finset Nat) (d : Nat) : Nat :=
  ∑ p ∈ vs, ((Finset.range (ops p).outDepCount).filter
    (fun i => (ops p).dependent i = d)).card

/-- `ffop_hb` adds one entry, and only to the array of its first argument. -/
theorem edgeCount_hb {first second : Nat} {l l' : Lib} (h : HbSpec first second l l')
    {vs : Finset Nat} (hf : first ∈ vs) (d : Nat) :
    edgeCount l'.ops vs d = edgeCount l.ops vs d + if d = second then 1 else 0 := by
  have hone : ∀ p, ((Finset.range (l'.ops p).outDepCount).filter
        (fun i => (l'.ops p).dependent i = d)).card =
      ((Finset.range (l.ops p).outDepCount).filter
        (fun i => (l.ops p).dependent i = d)).card +
        if p = first then (if d = second then 1 else 0) else 0 := by
    intro p
    rw [h.out_eq, h.dependent_eq]
    by_cases hp : p = first
    · subst hp
      simp only [if_true, Finset.range_add_one, Finset.filter_insert, Function.update_self]
      have hold : (Finset.range (l.ops p).outDepCount).filter (fun i =>
            Function.update (l.ops p).dependent (l.ops p).outDepCount second i = d) =
          (Finset.range (l.ops p).outDepCount).filter
            (fun i => (l.ops p).dependent i = d) := by
        refine Finset.filter_congr (fun i hi => ?_)
        have hne : i ≠ (l.ops p).outDepCount := by
          have := Finset.mem_range.mp hi
          omega
        simp [hne]
      rw [hold]
      by_cases hd : d = second
      · subst hd; simp
      · simp [hd, Ne.symm hd]
    · simp [hp]
  simp only [edgeCount, hone, Finset.sum_add_distrib]
  simp [hf]

theorem hasEdge_hb {first second : Nat} {l l' : Lib} (h : HbSpec first second l l')
    {a c : Nat} : l'.HasEdge a c ↔ l.HasEdge a c ∨ (a = first ∧ c = second) := by
  unfold Lib.HasEdge
  rw [h.out_eq, h.dependent_eq]
  by_cases ha : a = first
  · subst ha
    simp only [if_true, true_and]
    constructor
    · rintro ⟨i, hi, hc⟩
      by_cases hio : i = (l.ops a).outDepCount
      · right
        rw [hio, Function.update_self] at hc
        exact hc.symm
      · left
        refine ⟨i, by omega, ?_⟩
        rwa [Function.update_of_ne hio] at hc
    · rintro (⟨i, hi, hc⟩ | rfl)
      · refine ⟨i, by omega, ?_⟩
        rwa [Function.update_of_ne (by omega)]
      · exact ⟨(l.ops a).outDepCount, by omega, Function.update_self ..⟩
  · simp [ha]

/-- What `l'` keeps of `l` when only edges and list links are added. -/
structure Lib.Grows (l l' : Lib) : Prop where
  opid_eq : l'.opid = l.opid
  buffs_eq : l'.buffs = l.buffs
  body_eq : ∀ x, (l'.ops x).body = (l.ops x).body
  options_eq : ∀ x, (l'.ops x).options = (l.ops x).options
  in_le : ∀ x, (l.ops x).inDepCount ≤ (l'.ops x).inDepCount
  out_le : ∀ x, (l.ops x).outDepCount ≤ (l'.ops x).outDepCount
  edge : ∀ a c, l.HasEdge a c → l'.HasEdge a c

theorem Lib.Grows.refl (l : Lib) : l.Grows l :=
  ⟨rfl, rfl, fun _ => rfl, fun _ => rfl, fun _ => le_rfl, fun _ => le_rfl, fun _ _ h => h⟩

theorem Lib.Grows.trans {l l' l'' : Lib} (h : l.Grows l') (h' : l'.Grows l'') :
    l.Grows l'' where
  opid_eq := h'.opid_eq.trans h.opid_eq
  buffs_eq := h'.buffs_eq.trans h.buffs_eq
  body_eq x := (h'.body_eq x).trans (h.body_eq x)
  options_eq x := (h'.options_eq x).trans (h.options_eq x)
  in_le x := (h.in_le x).trans (h'.in_le x)
  out_le x := (h.out_le x).trans (h'.out_le x)
  edge a c he := h'.edge a c (h.edge a c he)

theorem HbSpec.grows {first second : Nat} {l l' : Lib} (h : HbSpec first second l l') :
    l.Grows l' where
  opid_eq := h.opid_eq
  buffs_eq := h.buffs_eq
  body_eq := h.body_eq
  options_eq := h.options_eq
  in_le x := by rw [h.in_eq]; omega
  out_le x := by rw [h.out_eq]; omega
  edge a c he := (hasEdge_hb h).mpr (Or.inl he)

theorem setSchedNext_ops (l : Lib) (op : Nat) (nxt : Option Nat) (x : Nat) :
    (l.setSchedNext op nxt).ops x =
      { l.ops x with schedNext := if x = op then nxt else (l.ops x).schedNext } := by
  rw [Lib.setSchedNext, Lib.setOp_ops]
  split <;> rfl

@[simp] theorem setSchedNext_opid (l : Lib) (op : Nat) (nxt : Option Nat) :
    (l.setSchedNext op nxt).opid = l.opid := rfl

@[simp] theorem setSchedNext_buffs (l : Lib) (op : Nat) (nxt : Option Nat) :
    (l.setSchedNext op nxt).buffs = l.buffs := rfl

@[simp] theorem setSchedNext_nextBuffer (l : Lib) (op : Nat) (nxt : Option Nat) :
    (l.setSchedNext op nxt).nextBuffer = l.nextBuffer := rfl

@[simp] theorem setSchedNext_out (l : Lib) (op : Nat) (nxt : Option Nat) (x : Nat) :
    ((l.setSchedNext op nxt).ops x).outDepCount = (l.ops x).outDepCount := by
  rw [setSchedNext_ops]

@[simp] theorem setSchedNext_in (l : Lib) (op : Nat) (nxt : Option Nat) (x : Nat) :
    ((l.setSchedNext op nxt).ops x).inDepCount = (l.ops x).inDepCount := by
  rw [setSchedNext_ops]

@[simp] theorem setSchedNext_body (l : Lib) (op : Nat) (nxt : Option Nat) (x : Nat) :
    ((l.setSchedNext op nxt).ops x).body = (l.ops x).body := by
  rw [setSchedNext_ops]

theorem setSchedNext_grows (l : Lib) (op : Nat) (nxt : Option Nat) :
    l.Grows (l.setSchedNext op nxt) := by
  constructor
  · rfl
  · rfl
  · intro x; rw [setSchedNext_ops]
  · intro x; rw [setSchedNext_ops]
  · intro x; rw [setSchedNext_ops]
  · intro x; rw [setSchedNext_ops]
  · intro a c he
    simpa only [Lib.HasEdge, setSchedNext_ops] using he

/-- An edge that `ffschedule_add_op` adds only under a condition. -/
theorem condHb_cases {cap first second : Nat} {l l' : Lib} {c : Prop} [Decidable c]
    (h : (if c then ffopHb cap first second l else some l) = some l') :
    (c ∧ ffopHb cap first second l = some l') ∨ (¬ c ∧ l' = l) := by
  split at h
  · next hc => exact Or.inl ⟨hc, h⟩
  · next hc => exact Or.inr ⟨hc, (Option.some.inj h).symm⟩

/-- The two conditional edges of `ffschedule_add_op`. -/
theorem ffscheduleAddOp_spec {cap op : Nat} {s s' : FfSchedule} {l l' : Lib}
    (h : ffscheduleAddOp cap s op l = some (s', l')) :
    s' = { s with oplist := some op } ∧ ∃ l₁,
      (if (l.ops op).inDepCount = 0 then
          ffopHb cap s.beginOp op (l.setSchedNext op s.oplist)
        else some (l.setSchedNext op s.oplist)) = some l₁ ∧
      (if (l₁.ops op).outDepCount = 0 then ffopHb cap op s.endOp l₁ else some l₁) =
        some l' := by
  simp only [ffscheduleAddOp, Option.bind_eq_some_iff, Option.map_eq_some_iff] at h
  obtain ⟨l₁, h₁, l₂, h₂, hs⟩ := h
  obtain ⟨rfl, rfl⟩ := Prod.mk.inj hs
  rw [setSchedNext_ops] at h₁
  exact ⟨rfl, l₁, h₁, h₂⟩

/-- The state after a call of `ffschedule_add_op` that stays inside the arrays. -/
def addOpLib (s : FfSchedule) (op : Nat) (l : Lib) : Lib :=
  let l₀ := l.setSchedNext op s.oplist
  let l₁ := if (l.ops op).inDepCount = 0 then hbLib s.beginOp op l₀ else l₀
  if (l.ops op).outDepCount = 0 then hbLib op s.endOp l₁ else l₁

theorem ffscheduleAddOp_eq {cap op : Nat} {s : FfSchedule} {l : Lib} (hne : op ≠ s.beginOp) :
    ffscheduleAddOp cap s op l =
      if ((l.ops op).inDepCount = 0 → (l.ops s.beginOp).outDepCount < cap) ∧
          ((l.ops op).outDepCount = 0 → 0 < cap) then
        some ({ s with oplist := some op }, addOpLib s op l)
      else none := by
  by_cases hin : (l.ops op).inDepCount = 0
  · by_cases hbegin : (l.ops s.beginOp).outDepCount < cap
    · by_cases hout : (l.ops op).outDepCount = 0
      · by_cases hcap : 0 < cap
        · simp [ffscheduleAddOp, addOpLib, ffopHb_eq, hin, hbegin, hout, hne, hcap]
        · omega
      · simp [ffscheduleAddOp, addOpLib, ffopHb_eq, hin, hbegin, hout, hne]
    · simp [ffscheduleAddOp, ffopHb_eq, hin, hbegin]
  · by_cases hout : (l.ops op).outDepCount = 0
    · by_cases hcap : 0 < cap
      · simp [ffscheduleAddOp, addOpLib, ffopHb_eq, hin, hout, hcap]
      · simp [ffscheduleAddOp, ffopHb_eq, hin, hout, hcap]
    · simp [ffscheduleAddOp, addOpLib, hin, hout]

section AddOpLib

variable (s : FfSchedule) (op : Nat) (l : Lib)

@[simp] theorem addOpLib_opid : (addOpLib s op l).opid = l.opid := by
  unfold addOpLib
  split <;> split <;> rfl

@[simp] theorem addOpLib_buffs : (addOpLib s op l).buffs = l.buffs := by
  unfold addOpLib
  split <;> split <;> rfl

@[simp] theorem addOpLib_nextBuffer : (addOpLib s op l).nextBuffer = l.nextBuffer := by
  unfold addOpLib
  split <;> split <;> rfl

@[simp] theorem addOpLib_body (x : Nat) :
    ((addOpLib s op l).ops x).body = (l.ops x).body := by
  unfold addOpLib
  split <;> split <;> simp

@[simp] theorem addOpLib_out (x : Nat) :
    ((addOpLib s op l).ops x).outDepCount = (l.ops x).outDepCount +
      (if (l.ops op).inDepCount = 0 ∧ x = s.beginOp then 1 else 0) +
      (if (l.ops op).outDepCount = 0 ∧ x = op then 1 else 0) := by
  unfold addOpLib
  by_cases hin : (l.ops op).inDepCount = 0
  · by_cases hout : (l.ops op).outDepCount = 0
    · simp [hin, hout]
    · simp [hin, hout]
  · by_cases hout : (l.ops op).outDepCount = 0
    · simp [hin, hout]
    · simp [hin, hout]

@[simp] theorem addOpLib_in (x : Nat) :
    ((addOpLib s op l).ops x).inDepCount = (l.ops x).inDepCount +
      (if (l.ops op).inDepCount = 0 ∧ x = op then 1 else 0) +
      (if (l.ops op).outDepCount = 0 ∧ x = s.endOp then 1 else 0) := by
  unfold addOpLib
  by_cases hin : (l.ops op).inDepCount = 0
  · by_cases hout : (l.ops op).outDepCount = 0
    · simp [hin, hout]
    · simp [hin, hout]
  · by_cases hout : (l.ops op).outDepCount = 0
    · simp [hin, hout]
    · simp [hin, hout]

end AddOpLib

/-! ### What holds of the library state while a program builds -/

/-- Options under which an operation is persistent and waits for all predecessors. -/
def DefaultOptions (options : Nat) : Prop :=
  isOptSet options ffopDepOr = false ∧ isOptSet options ffopNonPersistent = false

instance (options : Nat) : Decidable (DefaultOptions options) :=
  inferInstanceAs (Decidable (_ ∧ _))

/-- The operations from `lo` on: `E` holds of every edge, counters agree. -/
structure LibInv (cap : Nat) (lo : Nat) (E : Nat → Nat → Prop) (l : Lib) : Prop where
  lo_le : lo ≤ l.opid
  edge : ∀ p c, lo ≤ p → p < l.opid → l.HasEdge p c → E p c
  target : ∀ p c, lo ≤ p → p < l.opid → l.HasEdge p c → lo ≤ c ∧ c < l.opid
  in_eq : ∀ x, lo ≤ x → x < l.opid →
    (l.ops x).inDepCount = edgeCount l.ops (Finset.Ico lo l.opid) x
  left_eq : ∀ x, lo ≤ x → x < l.opid → (l.ops x).depLeft = (l.ops x).inDepCount
  out_le : ∀ x, lo ≤ x → x < l.opid → (l.ops x).outDepCount ≤ cap
  version_eq : ∀ x, lo ≤ x → x < l.opid → (l.ops x).version = 0
  completed_eq : ∀ x, lo ≤ x → x < l.opid → (l.ops x).completed = 0

/-- Before anything has been created there is nothing to check. -/
theorem libInv_empty (cap : Nat) (E : Nat → Nat → Prop) (l : Lib) :
    LibInv cap l.opid E l := by
  constructor
  · exact le_rfl
  all_goals
    intro x
    intros
    omega

section LibInvSteps

variable {cap : Nat} {lo : Nat} {E : Nat → Nat → Prop} {l l' : Lib}

theorem LibInv.mono (h : LibInv cap lo E l) {E' : Nat → Nat → Prop}
    (hE : ∀ p c, E p c → E' p c) : LibInv cap lo E' l :=
  { h with edge := fun p c hlo hp he => hE p c (h.edge p c hlo hp he) }

theorem LibInv.hb (h : LibInv cap lo E l) {first second : Nat}
    (hhb : ffopHb cap first second l = some l')
    (hf : lo ≤ first ∧ first < l.opid) (hs : lo ≤ second ∧ second < l.opid)
    (hE : E first second) : LibInv cap lo E l' := by
  obtain ⟨hlt, sp⟩ := ffopHb_spec hhb
  have hmem : first ∈ Finset.Ico lo l.opid := Finset.mem_Ico.mpr hf
  constructor
  · rw [sp.opid_eq]; exact h.lo_le
  · intro p c hlo hp he
    rw [sp.opid_eq] at hp
    rcases (hasEdge_hb sp).mp he with he | ⟨rfl, rfl⟩
    · exact h.edge p c hlo hp he
    · exact hE
  · intro p c hlo hp he
    rw [sp.opid_eq] at hp ⊢
    rcases (hasEdge_hb sp).mp he with he | ⟨rfl, rfl⟩
    · exact h.target p c hlo hp he
    · exact hs
  · intro x hlo hx
    rw [sp.opid_eq] at hx ⊢
    rw [sp.in_eq, edgeCount_hb sp hmem, h.in_eq x hlo hx]
  · intro x hlo hx
    rw [sp.opid_eq] at hx
    rw [sp.left_eq, sp.in_eq]
    by_cases hxs : x = second
    · simp [hxs]
    · simp [hxs, h.left_eq x hlo hx]
  · intro x hlo hx
    rw [sp.opid_eq] at hx
    rw [sp.out_eq]
    by_cases hxf : x = first
    · subst hxf; simp; omega
    · simpa [hxf] using h.out_le x hlo hx
  · intro x hlo hx
    rw [sp.opid_eq] at hx
    rw [sp.version_eq]; exact h.version_eq x hlo hx
  · intro x hlo hx
    rw [sp.opid_eq] at hx
    rw [sp.completed_eq]; exact h.completed_eq x hlo hx

theorem edgeCount_congr {ops ops' : Nat → Ffop} {vs : Finset Nat}
    (hout : ∀ p ∈ vs, (ops' p).outDepCount = (ops p).outDepCount)
    (hdep : ∀ p ∈ vs, (ops' p).dependent = (ops p).dependent) (d : Nat) :
    edgeCount ops' vs d = edgeCount ops vs d := by
  refine Finset.sum_congr rfl (fun p hp => ?_)
  rw [hout p hp, hdep p hp]

theorem edgeCount_eq_zero {ops : Nat → Ffop} {vs : Finset Nat} {d : Nat}
    (h : ∀ p ∈ vs, ∀ i, i < (ops p).outDepCount → (ops p).dependent i ≠ d) :
    edgeCount ops vs d = 0 := by
  refine Finset.sum_eq_zero (fun p hp => ?_)
  rw [Finset.card_eq_zero, Finset.filter_eq_empty_iff]
  exact fun i hi => h p hp i (Finset.mem_range.mp hi)

/-- The invariant does not speak of the list of a schedule. -/
theorem LibInv.congr (h : LibInv cap lo E l)
    (hops : ∀ x, ∃ nxt, l'.ops x = { l.ops x with schedNext := nxt })
    (hopid : l'.opid = l.opid) : LibInv cap lo E l' := by
  have hout : ∀ x, (l'.ops x).outDepCount = (l.ops x).outDepCount ∧
      (l'.ops x).dependent = (l.ops x).dependent := by
    intro x
    obtain ⟨nxt, hx⟩ := hops x
    rw [hx]
    exact ⟨rfl, rfl⟩
  have hedge : ∀ p c, l'.HasEdge p c → l.HasEdge p c := by
    intro p c he
    rwa [Lib.HasEdge, (hout p).1, (hout p).2] at he
  constructor
  · rw [hopid]; exact h.lo_le
  all_goals rw [hopid]
  · exact fun p c hlo hp he => h.edge p c hlo hp (hedge p c he)
  · exact fun p c hlo hp he => h.target p c hlo hp (hedge p c he)
  · intro x hlo hx
    rw [edgeCount_congr (fun p _ => (hout p).1) (fun p _ => (hout p).2) x]
    obtain ⟨nxt, heq⟩ := hops x
    rw [heq]
    exact h.in_eq x hlo hx
  all_goals
    intro x hlo hx
    obtain ⟨nxt, heq⟩ := hops x
    rw [heq]
  · exact h.left_eq x hlo hx
  · exact h.out_le x hlo hx
  · exact h.version_eq x hlo hx
  · exact h.completed_eq x hlo hx

/-- A created operation has no edges out. -/
theorem edgeCount_newOp (body : FfopBody) (options : Nat → Nat) (hlo : lo ≤ l.opid) (x : Nat) :
    edgeCount (newOp body options l).2.ops (Finset.Ico lo (newOp body options l).2.opid) x =
      edgeCount l.ops (Finset.Ico lo l.opid) x := by
  have hold : ∀ p, p ∈ Finset.Ico lo l.opid → (newOp body options l).2.ops p = l.ops p := by
    intro p hp
    have := (Finset.mem_Ico.mp hp).2
    exact newOp_ops_of_ne body options l (by omega)
  have hz : ((Finset.range ((newOp body options l).2.ops l.opid).outDepCount).filter
      (fun i => ((newOp body options l).2.ops l.opid).dependent i = x)).card = 0 := by
    simp
  rw [newOp_opid, edgeCount, Finset.sum_Ico_succ_top hlo, hz, Nat.add_zero]
  refine edgeCount_congr (fun p hp => ?_) (fun p hp => ?_) x
  · rw [hold p hp]
  · rw [hold p hp]

theorem LibInv.create (h : LibInv cap lo E l) (body : FfopBody)
    (options : Nat → Nat) : LibInv cap lo E (newOp body options l).2 := by
  have hfresh := newOp_fresh body options l
  have hold : ∀ x, x < l.opid → (newOp body options l).2.ops x = l.ops x :=
    fun x hx => newOp_ops_of_ne body options l (by omega)
  have hedge : ∀ p c, p < l.opid →
      ((newOp body options l).2.HasEdge p c ↔ l.HasEdge p c) := by
    intro p c hp
    simp only [Lib.HasEdge, hold p hp]
  have hnew : ∀ c, ¬ (newOp body options l).2.HasEdge l.opid c := by
    rintro c ⟨i, hi, _⟩
    rw [hfresh.out_eq] at hi
    omega
  have hsplit : ∀ {x : Nat}, x < (newOp body options l).2.opid → x < l.opid ∨ x = l.opid := by
    intro x hx
    rw [newOp_opid] at hx
    omega
  constructor
  · rw [newOp_opid]; exact h.lo_le.trans (Nat.le_succ _)
  · intro p c hlo hp he
    rcases hsplit hp with hp | rfl
    · exact h.edge p c hlo hp ((hedge p c hp).mp he)
    · exact absurd he (hnew c)
  · intro p c hlo hp he
    rcases hsplit hp with hp | rfl
    · have := h.target p c hlo hp ((hedge p c hp).mp he)
      rw [newOp_opid]; omega
    · exact absurd he (hnew c)
  · intro x hlo hx
    have hcount := edgeCount_newOp body options h.lo_le x
    rw [hcount]
    rcases hsplit hx with hx | rfl
    · rw [hold x hx]; exact h.in_eq x hlo hx
    · rw [hfresh.in_eq, edgeCount_eq_zero]
      intro p hp i hi hd
      obtain ⟨hplo, hpN⟩ := Finset.mem_Ico.mp hp
      have := h.target p _ hplo hpN ⟨i, hi, hd⟩
      omega
  · intro x hlo hx
    rcases hsplit hx with hx | rfl
    · rw [hold x hx]; exact h.left_eq x hlo hx
    · rw [hfresh.left_eq, hfresh.in_eq]
  · intro x hlo hx
    rcases hsplit hx with hx | rfl
    · rw [hold x hx]; exact h.out_le x hlo hx
    · rw [hfresh.out_eq]; exact Nat.zero_le _
  · intro x hlo hx
    rcases hsplit hx with hx | rfl
    · rw [hold x hx]; exact h.version_eq x hlo hx
    · exact hfresh.version_eq
  · intro x hlo hx
    rcases hsplit hx with hx | rfl
    · rw [hold x hx]; exact h.completed_eq x hlo hx
    · exact hfresh.completed_eq

theorem LibInv.scheduleCreate (h : LibInv cap lo E l) :
    LibInv cap lo E (ffscheduleCreate l).2 := by
  have h₀ : LibInv cap lo E { l with schedid := l.schedid + 1 } :=
    ⟨h.lo_le, h.edge, h.target, h.in_eq, h.left_eq, h.out_le, h.version_eq, h.completed_eq⟩
  exact (h₀.create .nop (fun _ => 0)).create .nop (fun _ => 0)

/-- A rewrite of fields that the invariant does not mention. -/
theorem LibInv.setSchedNext (h : LibInv cap lo E l) (op : Nat) (nxt : Option Nat) :
    LibInv cap lo E (l.setSchedNext op nxt) :=
  h.congr (fun x => ⟨_, setSchedNext_ops l op nxt x⟩) rfl

end LibInvSteps

end Fflib
