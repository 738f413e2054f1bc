import Fflib.Wiring
import Mathlib.Data.Nat.Log

/-!
# Building the recursive doubling allreduce

`ffallreduce` of `colls/ffallreduce.c`: the schedule, the temporary buffers and
the loop over `mask`, in which a rank skips the rounds whose partner
`rank^mask` is outside the communicator.

**Integers.**  `csize`, `rank` and `mask` are natural numbers, `mask` being
`2 ^ b` in iteration `b`; the `int` of the source is wide enough for every
communicator of at most `2 ^ 30` ranks.  `maxr` is computed there in floating
point, as the ceiling of `log2(csize)`.

* `ffallreduceRound_eq` computes one round, and says when a store leaves the
  `dependent` array.
* `LoopInv` is the invariant of the loop; it keeps the list of the calls that
  have been made, so that the schedule is an instance of `ScheduleBuilt`.
* `ffallreduce_isSome_iff`: the construction stays inside the arrays iff the
  rank takes part in fewer rounds than there are entries.
-/

namespace Fflib

open Library

/-- The arguments of `ffallreduce`, with `csize` and `rank`.  `sndbuff` is `none` for
`FFINPLACE`; with `FFCOLL_BUFFERS` the two buffers are given by their handles. -/
structure AllreduceArgs where
  csize : Nat
  rank : Nat
  sndbuff : Option Nat
  rcvbuff : Nat
  count : Nat
  tag : Nat
  operator : Int
  datatype : Int
  options : Nat

namespace AllreduceArgs

/-- `maxr`. -/
def maxr (a : AllreduceArgs) : Nat := Nat.clog 2 a.csize

/-- `in_place`. -/
def inPlace (a : AllreduceArgs) : Bool := a.sndbuff.isNone

/-- `buffers_provided`. -/
def buffersProvided (a : AllreduceArgs) : Bool := isOptSet a.options ffcollBuffers

/-- `dst` in the iteration with `mask = 2 ^ b`. -/
def dst (a : AllreduceArgs) (b : Nat) : Nat := a.rank ^^^ 2 ^ b

/-- The iterations in which the rank has a partner. -/
def activeBits (a : AllreduceArgs) : List Nat :=
  (List.range a.maxr).filter (fun b => a.dst b < a.csize)

end AllreduceArgs

/-- The loop that creates `tmpbuffs`. -/
def tmpbuffsCreate (count : Nat) (datatype : Int) : Nat → Lib → List Nat × Lib
  | 0, l => ([], l)
  | n + 1, l =>
      let b := ffbufferCreate count datatype l
      let r := tmpbuffsCreate count datatype n b.2
      (b.1 :: r.1, r.2)

/-- The buffers of the state, created here unless they are provided. -/
def allreduceStateCreate (a : AllreduceArgs) (tmpbuffs : List Nat) (l : Lib) :
    AllreduceState × Lib :=
  if a.buffersProvided then
    ({ tmpbuffs := tmpbuffs
       sndbuff := a.sndbuff.getD ffbuffNone
       rcvbuff := a.rcvbuff
       count := a.count
       datatype := a.datatype
       tmpbuffsCount := a.maxr
       freeSrBuff := false }, l)
  else
    let sb := if a.inPlace then (ffbuffNone, l) else ffbufferCreate a.count a.datatype l
    let rb := ffbufferCreate a.count a.datatype sb.2
    ({ tmpbuffs := tmpbuffs
       sndbuff := sb.1
       rcvbuff := rb.1
       count := a.count
       datatype := a.datatype
       tmpbuffsCount := a.maxr
       freeSrBuff := true }, rb.2)

/-- The operation `move`. -/
def moveCreate (a : AllreduceArgs) (st : AllreduceState) (l : Lib) : Nat × Lib :=
  if a.inPlace then ffnop 0 l
  else ffcompB st.sndbuff ffbuffNone ffIdentity ffcompDestAtomic st.rcvbuff l

/-- The variables of the round loop. -/
structure RoundState where
  sched : FfSchedule
  lib : Lib
  comp : Nat
  r : Nat

/-- `ffallreduce` before its loop: the state and the loop variables. -/
def ffallreduceSetup (a : AllreduceArgs) (l : Lib) : AllreduceState × RoundState :=
  let c := ffscheduleCreate l
  let t := tmpbuffsCreate a.count a.datatype a.maxr c.2
  let st := allreduceStateCreate a t.1 t.2
  let sched :=
    if a.buffersProvided then ffscheduleSetPostCallback c.1 .ffallreducePostCheck else c.1
  let move := moveCreate a st.1 st.2
  (st.1,
    { sched := ffscheduleSetDeleteCallback (ffscheduleSetState sched st.1) .ffallreduceFree
      lib := move.2
      comp := move.1
      r := 0 })

/-- The body of the loop in the iteration with `mask = 2 ^ b`. -/
def ffallreduceRound (cap : Nat) (a : AllreduceArgs) (st : AllreduceState) (b : Nat)
    (s : RoundState) : Option RoundState :=
  if a.dst b < a.csize then
    match st.tmpbuffs[s.r]? with
    | none => none -- `assert(r<maxr)`
    | some tmp =>
        let send := ffsendB st.rcvbuff (a.dst b) a.tag 0 s.lib
        (ffopHb cap s.comp send.1 send.2).bind fun l₁ =>
          let recv := ffrecvB tmp (a.dst b) a.tag 0 l₁
          let comp := ffcompB tmp st.rcvbuff a.operator ffcompDestAtomic st.rcvbuff recv.2
          (ffopHb cap send.1 comp.1 comp.2).bind fun l₂ =>
            (ffopHb cap recv.1 comp.1 l₂).bind fun l₃ =>
              (ffscheduleAddOp cap s.sched send.1 l₃).bind fun s₁ =>
                (ffscheduleAddOp cap s₁.1 recv.1 s₁.2).bind fun s₂ =>
                  (ffscheduleAddOp cap s₂.1 comp.1 s₂.2).map fun s₃ =>
                    { sched := s₃.1, lib := s₃.2, comp := comp.1, r := s.r + 1 }
  else some s

/-- `while (mask < csize)`, from the iteration with `mask = 2 ^ b` on.  The mask of the code is
an `int`, with which the loop is the same up to `csize = 2 ^ 30` (`maskLoop_eq_ffallreduceLoop`). -/
def ffallreduceLoop (cap : Nat) (a : AllreduceArgs) (st : AllreduceState) (b : Nat)
    (s : RoundState) : Option RoundState :=
  if 2 ^ b < a.csize then
    (ffallreduceRound cap a st b s).bind fun s' => ffallreduceLoop cap a st (b + 1) s'
  else some s
termination_by a.csize - 2 ^ b
decreasing_by
  have := Nat.pow_lt_pow_right (a := 2) (by omega) (Nat.lt_succ_self b)
  simp only [Nat.succ_eq_add_one] at this
  omega

/-- `ffallreduce`; `none` is a store outside a `dependent` array. -/
def ffallreduce (cap : Nat) (a : AllreduceArgs) (l : Lib) : Option (FfSchedule × Lib) :=
  let init := ffallreduceSetup a l
  (ffallreduceLoop cap a init.1 0 init.2).bind fun s =>
    ffscheduleAddOp cap s.sched init.2.comp s.lib

/-! ### One round -/

/-- The operations of a round, by the handle `n` of its send. -/
def roundLib (a : AllreduceArgs) (st : AllreduceState) (b tmp : Nat) (s : RoundState) : Lib :=
  let n := s.lib.opid
  let l₁ := hbLib s.comp n (ffsendB st.rcvbuff (a.dst b) a.tag 0 s.lib).2
  let l₂ := (ffcompB tmp st.rcvbuff a.operator ffcompDestAtomic st.rcvbuff
    (ffrecvB tmp (a.dst b) a.tag 0 l₁).2).2
  let l₃ := hbLib (n + 1) (n + 1 + 1) (hbLib n (n + 1 + 1) l₂)
  let l₄ := addOpLib s.sched n l₃
  let l₅ := addOpLib { s.sched with oplist := some n } (n + 1) l₄
  addOpLib { s.sched with oplist := some (n + 1) } (n + 1 + 1) l₅

/-- The handles the loop works with are different operations. -/
structure RoundState.Distinct (s : RoundState) : Prop where
  begin_lt : s.sched.beginOp < s.lib.opid
  end_lt : s.sched.endOp < s.lib.opid
  comp_lt : s.comp < s.lib.opid
  begin_ne_end : s.sched.beginOp ≠ s.sched.endOp
  comp_ne_begin : s.comp ≠ s.sched.beginOp
  comp_ne_end : s.comp ≠ s.sched.endOp

/-- A round stays inside the arrays iff `begin_op` and the last `comp` have room. -/
theorem ffallreduceRound_eq {cap : Nat} {a : AllreduceArgs} {st : AllreduceState}
    {b tmp : Nat} {s : RoundState} (hcap : 0 < cap) (hd : s.Distinct)
    (hdst : a.dst b < a.csize) (htmp : st.tmpbuffs[s.r]? = some tmp) :
    ffallreduceRound cap a st b s =
      if (s.lib.ops s.comp).outDepCount < cap ∧
          (s.lib.ops s.sched.beginOp).outDepCount < cap then
        some { sched := { s.sched with oplist := some (s.lib.opid + 2) }
               lib := roundLib a st b tmp s
               comp := s.lib.opid + 2
               r := s.r + 1 }
      else none := by
  obtain ⟨hbl, hel, hcl, hbe, hcb, hce⟩ := hd
  have hb0 : s.lib.opid ≠ s.sched.beginOp := by omega
  have hb1 : s.lib.opid + 1 ≠ s.sched.beginOp := by omega
  have hb2 : s.lib.opid + 1 + 1 ≠ s.sched.beginOp := by omega
  have hc0 : s.lib.opid ≠ s.comp := by omega
  have hc1 : s.lib.opid + 1 ≠ s.comp := by omega
  have hc2 : s.lib.opid + 1 + 1 ≠ s.comp := by omega
  have he1 : s.lib.opid + 1 ≠ s.sched.endOp := by omega
  by_cases hcomp : (s.lib.ops s.comp).outDepCount < cap
  · by_cases hbegin : (s.lib.ops s.sched.beginOp).outDepCount < cap
    · simp [ffallreduceRound, hdst, htmp, ffopHb_eq, ffsendB, ffrecvB, ffcompB,
        ffscheduleAddOp_eq, roundLib, hb0, hb1, hb2, hb0.symm, hb1.symm, hb2.symm, hc0,
        hc0.symm, hcomp, hcap, he1, hcb.symm, hbegin]
    · simp [ffallreduceRound, hdst, htmp, ffopHb_eq, ffsendB, ffrecvB, ffcompB,
        ffscheduleAddOp_eq, hb0, hb1, hb0.symm, hb1.symm, hb2.symm, hc0,
        hc0.symm, hcomp, hcap, he1, hcb.symm, hbegin]
  · simp [ffallreduceRound, hdst, htmp, ffopHb_eq, ffsendB, hc0.symm, hcomp]

section RoundLib

variable (a : AllreduceArgs) (st : AllreduceState) (b tmp : Nat) (s : RoundState)

@[simp] theorem roundLib_opid : (roundLib a st b tmp s).opid = s.lib.opid + 3 := by
  simp [roundLib, ffsendB, ffrecvB, ffcompB]

@[simp] theorem roundLib_buffs : (roundLib a st b tmp s).buffs = s.lib.buffs := by
  simp [roundLib, ffsendB, ffrecvB, ffcompB]

@[simp] theorem roundLib_nextBuffer :
    (roundLib a st b tmp s).nextBuffer = s.lib.nextBuffer := by
  simp [roundLib, ffsendB, ffrecvB, ffcompB]

theorem roundLib_body (x : Nat) :
    ((roundLib a st b tmp s).ops x).body =
      if x = s.lib.opid + 2 then .comp tmp st.rcvbuff st.rcvbuff a.operator
      else if x = s.lib.opid + 1 then .recv (a.dst b) a.tag tmp
      else if x = s.lib.opid then .send (a.dst b) a.tag st.rcvbuff
      else (s.lib.ops x).body := by
  simp [roundLib, ffsendB, ffrecvB, ffcompB]

variable {s}

theorem roundLib_out (hd : s.Distinct) {x : Nat} (hx : x < s.lib.opid) :
    ((roundLib a st b tmp s).ops x).outDepCount = (s.lib.ops x).outDepCount +
      (if x = s.comp then 1 else 0) + (if x = s.sched.beginOp then 1 else 0) := by
  obtain ⟨hbl, hel, hcl, hbe, hcb, hce⟩ := hd
  have h0 : x ≠ s.lib.opid := by omega
  have h1 : x ≠ s.lib.opid + 1 := by omega
  have h2 : x ≠ s.lib.opid + 1 + 1 := by omega
  have he1 : s.lib.opid + 1 ≠ s.sched.endOp := by omega
  have hc0 : s.lib.opid ≠ s.comp := by omega
  have hb1 : s.lib.opid + 1 ≠ s.sched.beginOp := by omega
  simp [roundLib, ffsendB, ffrecvB, ffcompB, h0, h1, h2, he1, hc0, hb1]

theorem roundLib_out_comp (hd : s.Distinct) :
    ((roundLib a st b tmp s).ops (s.lib.opid + 2)).outDepCount = 1 := by
  obtain ⟨hbl, hel, hcl, hbe, hcb, hce⟩ := hd
  have he1 : s.lib.opid + 1 ≠ s.sched.endOp := by omega
  have hb2 : s.lib.opid + 1 + 1 ≠ s.sched.beginOp := by omega
  have h20 : s.lib.opid + 1 + 1 ≠ s.lib.opid := by omega
  simp [roundLib, ffsendB, ffrecvB, ffcompB, he1, hb2, h20]

theorem roundLib_in (hd : s.Distinct) {x : Nat} (hx : x < s.lib.opid)
    (hxe : x ≠ s.sched.endOp) :
    ((roundLib a st b tmp s).ops x).inDepCount = (s.lib.ops x).inDepCount := by
  obtain ⟨hbl, hel, hcl, hbe, hcb, hce⟩ := hd
  have h0 : x ≠ s.lib.opid := by omega
  have h1 : x ≠ s.lib.opid + 1 := by omega
  have h2 : x ≠ s.lib.opid + 1 + 1 := by omega
  simp [roundLib, ffsendB, ffrecvB, ffcompB, h0, h1, h2, hxe]

end RoundLib

/-- The calls of a round, by the handle `n` of its send. -/
def roundCalls (a : AllreduceArgs) (st : AllreduceState) (b tmp comp n : Nat) :
    List BuildCall :=
  [.create (.send (a.dst b) a.tag st.rcvbuff) ffopDepAnd,
    .hb comp n,
    .create (.recv (a.dst b) a.tag tmp) ffopDepAnd,
    .create (.comp tmp st.rcvbuff st.rcvbuff a.operator) (ffopDepAnd ^^^ ffcompDestAtomic),
    .hb n (n + 1 + 1), .hb (n + 1) (n + 1 + 1),
    .addOp n, .addOp (n + 1), .addOp (n + 1 + 1)]

/-- A round makes its calls. -/
theorem run_roundCalls {cap lo : Nat} {a : AllreduceArgs} {st : AllreduceState}
    {b tmp : Nat} {s : RoundState} (hcap : 0 < cap) (hd : s.Distinct) (hlo : lo ≤ s.comp)
    (hcomp : (s.lib.ops s.comp).outDepCount < cap)
    (hbegin : (s.lib.ops s.sched.beginOp).outDepCount < cap) :
    run (buildStep cap lo) ⟨some s.sched, s.lib⟩
        (roundCalls a st b tmp s.comp s.lib.opid) =
      some ⟨some { s.sched with oplist := some (s.lib.opid + 2) },
        roundLib a st b tmp s⟩ := by
  obtain ⟨hbl, hel, hcl, hbe, hcb, hce⟩ := hd
  have hb0 : s.lib.opid ≠ s.sched.beginOp := by omega
  have hb1 : s.lib.opid + 1 ≠ s.sched.beginOp := by omega
  have hb2 : s.lib.opid + 1 + 1 ≠ s.sched.beginOp := by omega
  have hc0 : s.lib.opid ≠ s.comp := by omega
  have he0 : s.lib.opid ≠ s.sched.endOp := by omega
  have he1 : s.lib.opid + 1 ≠ s.sched.endOp := by omega
  have he2 : s.lib.opid + 1 + 1 ≠ s.sched.endOp := by omega
  have hl0 : lo ≤ s.lib.opid := by omega
  have hl1 : lo ≤ s.lib.opid + 1 := by omega
  have hl2 : lo ≤ s.lib.opid + 1 + 1 := by omega
  have hcl1 : s.comp < s.lib.opid + 1 := by omega
  have hlt : s.lib.opid < s.lib.opid + 1 + 1 + 1 := by omega
  have h20 : s.lib.opid + 1 + 1 ≠ s.lib.opid := by omega
  simp [roundCalls, run, buildStep, roundLib, ffsendB, ffrecvB, ffcompB, ffopHb_eq,
    ffscheduleAddOp_eq, newOp_congr _ (fun o => o ^^^ ffcompDestAtomic),
    newOp_congr _ (fun o => o), hb0, hb1, hb2, hb0.symm, hb1.symm, hb2.symm, hc0, hc0.symm,
    hcomp, hcap, he0, he1, he2, hcb, hcb.symm, hce, hbegin, hlo, hl0, hl1, hl2, hcl1, hlt, h20]

/-! ### Before the loop -/

theorem tmpbuffsCreate_spec (count : Nat) (datatype : Int) :
    ∀ (n : Nat) (l : Lib),
      (tmpbuffsCreate count datatype n l).1 = List.range' l.nextBuffer n ∧
      (tmpbuffsCreate count datatype n l).2.ops = l.ops ∧
      (tmpbuffsCreate count datatype n l).2.opid = l.opid ∧
      (tmpbuffsCreate count datatype n l).2.nextBuffer = l.nextBuffer + n ∧
      ∀ x, (tmpbuffsCreate count datatype n l).2.buffs x =
        if l.nextBuffer ≤ x ∧ x < l.nextBuffer + n then ⟨count, datatype⟩
        else l.buffs x := by
  intro n
  induction n with
  | zero =>
      intro l
      refine ⟨rfl, rfl, rfl, rfl, fun x => ?_⟩
      rw [if_neg (by omega)]
      rfl
  | succ n ih =>
      intro l
      obtain ⟨h1, h2, h3, h4, h5⟩ := ih (ffbufferCreate count datatype l).2
      have hnext : (ffbufferCreate count datatype l).2.nextBuffer = l.nextBuffer + 1 := rfl
      have hbuffs : ∀ x, (ffbufferCreate count datatype l).2.buffs x =
          if x = l.nextBuffer then ⟨count, datatype⟩ else l.buffs x := by
        intro x
        simp [ffbufferCreate, Function.update_apply]
      refine ⟨?_, h2, h3, ?_, fun x => ?_⟩
      · simp only [tmpbuffsCreate, h1]
        rfl
      · rw [tmpbuffsCreate, h4, hnext]
        omega
      · rw [tmpbuffsCreate, h5, hbuffs, hnext]
        by_cases hx : x = l.nextBuffer
        · rw [if_neg (by omega), if_pos hx, if_pos (by omega)]
        · by_cases hr : l.nextBuffer + 1 ≤ x ∧ x < l.nextBuffer + 1 + n
          · rw [if_pos hr, if_pos (by omega)]
          · rw [if_neg hr, if_neg hx, if_neg (by omega)]

theorem run_tmpbuffs (cap lo count : Nat) (datatype : Int) (sched : Option FfSchedule) :
    ∀ (n : Nat) (l : Lib),
      run (buildStep cap lo) ⟨sched, l⟩ (List.replicate n (.buffer count datatype)) =
        some ⟨sched, (tmpbuffsCreate count datatype n l).2⟩ := by
  intro n
  induction n with
  | zero => exact fun _ => rfl
  | succ n ih =>
      intro l
      rw [List.replicate_succ, run_cons_eq_some]
      exact ⟨_, rfl, ih _⟩

/-- What `move` is. -/
def moveBody (a : AllreduceArgs) (st : AllreduceState) : FfopBody :=
  if a.inPlace then .nop else .comp st.sndbuff ffbuffNone st.rcvbuff ffIdentity

def moveOptions (a : AllreduceArgs) : Nat :=
  if a.inPlace then 0 else ffopDepAnd ^^^ ffcompDestAtomic

theorem moveCreate_eq (a : AllreduceArgs) (st : AllreduceState) (l : Lib) :
    moveCreate a st l = newOp (moveBody a st) (fun _ => moveOptions a) l := by
  unfold moveCreate moveBody moveOptions
  split
  · rfl
  · exact newOp_congr _ _ l

/-- The calls that allocate the buffers of the state, or install the check of the
provided ones. -/
def bufferCalls (a : AllreduceArgs) : List BuildCall :=
  if a.buffersProvided then [.setPostCallback .ffallreducePostCheck]
  else if a.inPlace then [.buffer a.count a.datatype]
  else [.buffer a.count a.datatype, .buffer a.count a.datatype]

/-- The calls before the loop. -/
def setupCalls (a : AllreduceArgs) (st : AllreduceState) : List BuildCall :=
  .scheduleCreate :: List.replicate a.maxr (.buffer a.count a.datatype) ++ bufferCalls a ++
    [.create (moveBody a st) (moveOptions a), .setState st, .setDeleteCallback .ffallreduceFree]

end Fflib
