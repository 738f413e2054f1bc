import Fflib.Allreduce

/-!
# The schedule that the allreduce builds

`SetupSpec` is the state before the round loop and `LoopInv` the invariant of
the loop: handles are consecutive, `begin_op` has one dependent per round, and
the calls made so far are recorded.  They give

* `ffallreduce_isSome_iff`: the construction stays inside the `dependent` arrays
  iff the rank takes part in fewer rounds than the arrays have entries;
* `AllreduceBuilt`: the operations and edges of the finished schedule, which is
  one that `ScheduleBuilt` describes.
-/

namespace Fflib

open Library

/-- The state before the loop. -/
structure SetupSpec (cap : Nat) (a : AllreduceArgs) (l₀ : Lib) (st : AllreduceState)
    (s : RoundState) : Prop where
  begin_eq : s.sched.beginOp = l₀.opid
  end_eq : s.sched.endOp = l₀.opid + 1
  comp_eq : s.comp = l₀.opid + 2
  r_eq : s.r = 0
  opid_eq : s.lib.opid = l₀.opid + 3
  out_eq : ∀ x, l₀.opid ≤ x → x < l₀.opid + 3 → (s.lib.ops x).outDepCount = 0
  in_eq : (s.lib.ops (l₀.opid + 2)).inDepCount = 0
  body_eq : (s.lib.ops (l₀.opid + 2)).body = moveBody a st
  tmpbuffs_eq : st.tmpbuffs = List.range' l₀.nextBuffer a.maxr
  state_eq : s.sched.state = some st
  calls : run (buildStep cap l₀.opid) ⟨none, l₀⟩ (setupCalls a st) =
    some ⟨some s.sched, s.lib⟩

/-- Creating the buffers of the state. -/
theorem allreduceStateCreate_spec (a : AllreduceArgs) (tmp : List Nat) (l : Lib) :
    (allreduceStateCreate a tmp l).1.tmpbuffs = tmp ∧
      (allreduceStateCreate a tmp l).2.ops = l.ops ∧
      (allreduceStateCreate a tmp l).2.opid = l.opid := by
  unfold allreduceStateCreate
  split
  · exact ⟨rfl, rfl, rfl⟩
  · by_cases hin : a.inPlace = true
    · simp [hin, ffbufferCreate]
    · simp [hin, ffbufferCreate]

theorem run_bufferCalls (cap lo : Nat) (a : AllreduceArgs) (tmp : List Nat) (s : FfSchedule)
    (l : Lib) :
    run (buildStep cap lo) ⟨some s, l⟩ (bufferCalls a) =
      some ⟨some (if a.buffersProvided then
          ffscheduleSetPostCallback s .ffallreducePostCheck else s),
        (allreduceStateCreate a tmp l).2⟩ := by
  unfold bufferCalls allreduceStateCreate
  by_cases hprov : a.buffersProvided = true
  · simp [hprov, run, buildStep]
  · by_cases hin : a.inPlace = true
    · simp [hprov, hin, run, buildStep]
    · simp [hprov, hin, run, buildStep]

theorem setupSpec (cap : Nat) (a : AllreduceArgs) (l₀ : Lib) :
    SetupSpec cap a l₀ (ffallreduceSetup a l₀).1 (ffallreduceSetup a l₀).2 := by
  set c := ffscheduleCreate l₀ with hc
  set t := tmpbuffsCreate a.count a.datatype a.maxr c.2 with ht
  set st := allreduceStateCreate a t.1 t.2 with hst
  obtain ⟨ht1, ht2, ht3, _, _⟩ := tmpbuffsCreate_spec a.count a.datatype a.maxr c.2
  rw [← ht] at ht1 ht2 ht3
  obtain ⟨hs1, hs2, hs3⟩ := allreduceStateCreate_spec a t.1 t.2
  rw [← hst] at hs1 hs2 hs3
  have hsetup : ffallreduceSetup a l₀ = (st.1,
      { sched := ffscheduleSetDeleteCallback (ffscheduleSetState (if a.buffersProvided then
          ffscheduleSetPostCallback c.1 .ffallreducePostCheck else c.1) st.1) .ffallreduceFree
        lib := (moveCreate a st.1 st.2).2
        comp := (moveCreate a st.1 st.2).1
        r := 0 }) := rfl
  have hopid : st.2.opid = l₀.opid + 2 := by
    rw [hs3, ht3, hc, ffscheduleCreate_opid]
  have hops : st.2.ops = c.2.ops := by rw [hs2, ht2]
  have hold : ∀ x, x < l₀.opid + 2 →
      ((moveCreate a st.1 st.2).2.ops x) = c.2.ops x := by
    intro x hx
    rw [moveCreate_eq, newOp_ops_of_ne _ _ _ (by omega), hops]
  have hmove := newOp_fresh (moveBody a st.1) (fun _ => moveOptions a) st.2
  rw [← moveCreate_eq, hopid] at hmove
  rw [hsetup]
  refine ⟨?_, ?_, ?_, rfl, ?_, fun x hlo hx => ?_, hmove.in_eq, hmove.body_eq, ?_, rfl, ?_⟩
  · by_cases hprov : a.buffersProvided = true
    · simp [hprov, ffscheduleSetDeleteCallback, ffscheduleSetState, ffscheduleSetPostCallback, hc]
    · simp [hprov, ffscheduleSetDeleteCallback, ffscheduleSetState, hc]
  · by_cases hprov : a.buffersProvided = true
    · simp [hprov, ffscheduleSetDeleteCallback, ffscheduleSetState, ffscheduleSetPostCallback, hc]
    · simp [hprov, ffscheduleSetDeleteCallback, ffscheduleSetState, hc]
  · rw [moveCreate_eq, newOp_fst, hopid]
  · rw [moveCreate_eq, newOp_opid, hopid]
  · by_cases hxm : x = l₀.opid + 2
    · rw [hxm]; exact hmove.out_eq
    · rw [hold x (by omega)]
      obtain rfl | rfl : x = l₀.opid ∨ x = l₀.opid + 1 := by omega
      · exact (ffscheduleCreate_begin_fresh l₀).out_eq
      · exact (ffscheduleCreate_end_fresh l₀).out_eq
  · rw [hs1, ht1]; rfl
  · rw [setupCalls, List.cons_append, List.cons_append, run_cons_eq_some]
    refine ⟨⟨some c.1, c.2⟩, rfl, ?_⟩
    rw [List.append_assoc, run_append_eq_some]
    refine ⟨_, run_tmpbuffs cap l₀.opid a.count a.datatype (some c.1) a.maxr c.2, ?_⟩
    rw [run_append_eq_some]
    refine ⟨_, run_bufferCalls cap l₀.opid a t.1 c.1 _, ?_⟩
    simp only [run, buildStep, Option.bind_some, Option.map_some]
    rw [← ht, ← hst, moveCreate_eq]

/-! ### The loop -/

/-- The calls of the rounds in the iterations `bits`. -/
def loopCalls (a : AllreduceArgs) (st : AllreduceState) (l₀ : Lib) (bits : List Nat) :
    List BuildCall :=
  bits.zipIdx.flatMap fun x =>
    roundCalls a st x.1 (l₀.nextBuffer + x.2) (l₀.opid + 2 + 3 * x.2) (l₀.opid + 3 + 3 * x.2)

theorem loopCalls_snoc (a : AllreduceArgs) (st : AllreduceState) (l₀ : Lib) (bits : List Nat)
    (b : Nat) :
    loopCalls a st l₀ (bits ++ [b]) = loopCalls a st l₀ bits ++
      roundCalls a st b (l₀.nextBuffer + bits.length) (l₀.opid + 2 + 3 * bits.length)
        (l₀.opid + 3 + 3 * bits.length) := by
  simp [loopCalls, List.zipIdx_append]

/-- The bodies of the operations made in round `k`, in the iteration with mask `2 ^ b`. -/
structure RoundBodies (a : AllreduceArgs) (st : AllreduceState) (l₀ l : Lib) (k b : Nat) :
    Prop where
  send : (l.ops (l₀.opid + 3 + 3 * k)).body = .send (a.dst b) a.tag st.rcvbuff
  recv : (l.ops (l₀.opid + 4 + 3 * k)).body = .recv (a.dst b) a.tag (l₀.nextBuffer + k)
  comp : (l.ops (l₀.opid + 5 + 3 * k)).body =
    .comp (l₀.nextBuffer + k) st.rcvbuff st.rcvbuff a.operator

/-- The loop invariant: `bits` are the iterations that had a partner. -/
structure LoopInv (cap : Nat) (a : AllreduceArgs) (l₀ : Lib) (st : AllreduceState)
    (bits : List Nat) (s : RoundState) : Prop where
  begin_eq : s.sched.beginOp = l₀.opid
  end_eq : s.sched.endOp = l₀.opid + 1
  len_le : bits.length ≤ cap
  r_eq : s.r = bits.length
  comp_eq : s.comp = l₀.opid + 2 + 3 * bits.length
  opid_eq : s.lib.opid = l₀.opid + 3 + 3 * bits.length
  out_begin : (s.lib.ops l₀.opid).outDepCount = bits.length
  out_comp : (s.lib.ops s.comp).outDepCount = if bits = [] then 0 else 1
  out_move : (s.lib.ops (l₀.opid + 2)).outDepCount = if bits = [] then 0 else 1
  in_move : (s.lib.ops (l₀.opid + 2)).inDepCount = 0
  move_body : (s.lib.ops (l₀.opid + 2)).body = moveBody a st
  bodies : ∀ k b, bits[k]? = some b → RoundBodies a st l₀ s.lib k b
  state_eq : s.sched.state = some st
  callbacks : s.sched.postCallback = (ffallreduceSetup a l₀).2.sched.postCallback
  buffs_eq : s.lib.buffs = (ffallreduceSetup a l₀).2.lib.buffs
  calls : run (buildStep cap l₀.opid) ⟨none, l₀⟩ (setupCalls a st ++ loopCalls a st l₀ bits) =
    some ⟨some s.sched, s.lib⟩

section Loop

variable {cap : Nat} {a : AllreduceArgs} {l₀ : Lib} {st : AllreduceState} {bits : List Nat}
  {s : RoundState}

theorem LoopInv.init :
    LoopInv cap a l₀ (ffallreduceSetup a l₀).1 [] (ffallreduceSetup a l₀).2 := by
  obtain ⟨h1, h2, h3, h4, h5, h6, h7, h8, h9, h10, h11⟩ := setupSpec cap a l₀
  refine ⟨h1, h2, Nat.zero_le _, h4, h3, h5, ?_, ?_, ?_, h7, h8, ?_, h10, rfl, rfl, ?_⟩
  · exact h6 _ le_rfl (by omega)
  · rw [h3]; exact h6 _ (by omega) (by omega)
  · exact h6 _ (by omega) (by omega)
  · intro k b hk
    simp at hk
  · simpa [loopCalls] using h11

theorem LoopInv.distinct (h : LoopInv cap a l₀ st bits s) : s.Distinct := by
  have h1 := h.begin_eq
  have h2 := h.end_eq
  have h3 := h.comp_eq
  have h4 := h.opid_eq
  constructor <;> omega

/-- Step lemma: a round with a partner. -/
theorem LoopInv.round (h : LoopInv cap a l₀ st bits s) (hcap : bits.length < cap) {b : Nat} :
    LoopInv cap a l₀ st (bits ++ [b])
      { sched := { s.sched with oplist := some (s.lib.opid + 2) }
        lib := roundLib a st b (l₀.nextBuffer + bits.length) s
        comp := s.lib.opid + 2
        r := s.r + 1 } := by
  have hd := h.distinct
  have hopid := h.opid_eq
  have hcomp := h.comp_eq
  have hbegin := h.begin_eq
  have hend := h.end_eq
  have hout := h.out_comp
  have hsplit : ∀ {x : Nat}, x < s.lib.opid →
      ((roundLib a st b (l₀.nextBuffer + bits.length) s).ops x).body = (s.lib.ops x).body := by
    intro x hx
    rw [roundLib_body, if_neg (by omega), if_neg (by omega), if_neg (by omega)]
  refine ⟨hbegin, hend, ?_, ?_, ?_, ?_, ?_, ?_, ?_, ?_, ?_, ?_, h.state_eq, h.callbacks, ?_, ?_⟩
  · simpa using hcap
  · simp [h.r_eq]
  · simp only [List.length_append, List.length_singleton]; omega
  · simp only [roundLib_opid, List.length_append, List.length_singleton]; omega
  · rw [roundLib_out a st b _ hd (by omega), h.out_begin, if_neg (by omega),
      if_pos hbegin.symm]
    simp
  · simp [roundLib_out_comp a st b _ hd]
  · have hmb : l₀.opid + 2 ≠ s.sched.beginOp := by omega
    rw [roundLib_out a st b _ hd (by omega), h.out_move, if_neg hmb]
    by_cases hnil : bits = []
    · have hmc : l₀.opid + 2 = s.comp := by simp [hcomp, hnil]
      simp [hnil, hmc]
    · have hlen := List.length_pos_iff.mpr hnil
      have hmc : l₀.opid + 2 ≠ s.comp := by omega
      simp [hnil, hmc]
  · rw [roundLib_in a st b _ hd (by omega) (by omega), h.in_move]
  · rw [hsplit (by omega), h.move_body]
  · intro k c hk
    by_cases hkl : k < bits.length
    · obtain ⟨h1, h2, h3⟩ := h.bodies k c (by rwa [List.getElem?_append_left hkl] at hk)
      refine ⟨?_, ?_, ?_⟩
      · rw [hsplit (by omega)]; exact h1
      · rw [hsplit (by omega)]; exact h2
      · rw [hsplit (by omega)]; exact h3
    · obtain rfl : k = bits.length := by
        have := (List.getElem?_eq_some_iff.mp hk).1
        simp at this
        omega
      obtain rfl : b = c := by simpa using hk
      refine ⟨?_, ?_, ?_⟩
      · rw [roundLib_body, if_neg (by omega), if_neg (by omega), if_pos (by omega)]
      · rw [roundLib_body, if_neg (by omega), if_pos (by omega)]
      · rw [roundLib_body, if_pos (by omega)]
  · rw [roundLib_buffs, h.buffs_eq]
  · rw [loopCalls_snoc, ← List.append_assoc, run_append_eq_some]
    refine ⟨_, h.calls, ?_⟩
    rw [← hcomp, ← hopid]
    refine run_roundCalls (by omega) hd (by omega) ?_ ?_
    · rw [hout]
      split
      · omega
      · next hne =>
          have := List.length_pos_iff.mpr hne
          omega
    · rw [hbegin, h.out_begin]; exact hcap

theorem two_pow_lt_csize_iff {b : Nat} : 2 ^ b < a.csize ↔ b < a.maxr :=
  (Nat.lt_clog_iff_pow_lt (by omega)).symm

/-- The iterations with a partner among the first `b`. -/
def AllreduceArgs.activeBelow (a : AllreduceArgs) (b : Nat) : List Nat :=
  (List.range b).filter (fun b => a.dst b < a.csize)

theorem activeBelow_maxr : a.activeBelow a.maxr = a.activeBits := rfl

theorem activeBelow_succ (b : Nat) :
    a.activeBelow (b + 1) =
      if a.dst b < a.csize then a.activeBelow b ++ [b] else a.activeBelow b := by
  simp only [AllreduceArgs.activeBelow, List.range_succ, List.filter_append]
  by_cases hd : a.dst b < a.csize
  · simp [hd]
  · simp [hd]

theorem length_activeBelow_le {b c : Nat} (h : b ≤ c) :
    (a.activeBelow b).length ≤ (a.activeBelow c).length :=
  ((List.range_sublist.mpr h).filter _).length_le

theorem length_activeBelow_le_self (b : Nat) : (a.activeBelow b).length ≤ b :=
  (List.length_filter_le _ _).trans_eq List.length_range

/-- The loop runs to its end iff `begin_op` has an entry for every round. -/
theorem ffallreduceLoop_spec (hcap : 0 < cap) :
    ∀ (k b : Nat) (s : RoundState), b + k = a.maxr →
      LoopInv cap a l₀ (ffallreduceSetup a l₀).1 (a.activeBelow b) s →
      if a.activeBits.length ≤ cap then
        ∃ s', ffallreduceLoop cap a (ffallreduceSetup a l₀).1 b s = some s' ∧
          LoopInv cap a l₀ (ffallreduceSetup a l₀).1 a.activeBits s'
      else ffallreduceLoop cap a (ffallreduceSetup a l₀).1 b s = none := by
  intro k
  induction k with
  | zero =>
      intro b s hk h
      have hb : b = a.maxr := by omega
      have hstop : ¬ 2 ^ b < a.csize := by
        rw [two_pow_lt_csize_iff]
        omega
      rw [hb, activeBelow_maxr] at h
      rw [if_pos h.len_le, ffallreduceLoop, if_neg hstop]
      exact ⟨s, rfl, h⟩
  | succ k ih =>
      intro b s hk h
      have hgo : 2 ^ b < a.csize := two_pow_lt_csize_iff.mpr (by omega)
      rw [ffallreduceLoop, if_pos hgo]
      have hsucc := activeBelow_succ (a := a) b
      by_cases hdst : a.dst b < a.csize
      · rw [if_pos hdst] at hsucc
        have htmp : (ffallreduceSetup a l₀).1.tmpbuffs[s.r]? =
            some (l₀.nextBuffer + (a.activeBelow b).length) := by
          have hle := length_activeBelow_le_self (a := a) b
          rw [(setupSpec cap a l₀).tmpbuffs_eq, h.r_eq, List.getElem?_range' (by omega),
            Nat.one_mul]
        have hround := ffallreduceRound_eq hcap h.distinct hdst htmp
        rw [h.out_comp, h.begin_eq, h.out_begin] at hround
        by_cases hroom : (a.activeBelow b).length < cap
        · have hcomp : (if a.activeBelow b = [] then 0 else 1) < cap := by
            split
            · exact hcap
            · next hne =>
                have := List.length_pos_iff.mpr hne
                omega
          rw [if_pos ⟨hcomp, hroom⟩] at hround
          rw [hround, Option.bind_some]
          have hnext := h.round hroom (b := b)
          rw [← hsucc] at hnext
          exact ih (b + 1) _ (by omega) hnext
        · have hmore := length_activeBelow_le (a := a) (show b + 1 ≤ a.maxr by omega)
          rw [hsucc, activeBelow_maxr, List.length_append, List.length_singleton] at hmore
          rw [if_neg (fun hc => hroom hc.2)] at hround
          rw [hround, if_neg (by omega), Option.bind_none]
      · rw [if_neg hdst] at hsucc
        rw [← hsucc] at h
        have hround : ffallreduceRound cap a (ffallreduceSetup a l₀).1 b s = some s := by
          simp [ffallreduceRound, hdst]
        rw [hround, Option.bind_some]
        exact ih (b + 1) s (by omega) h

/-- The whole of `ffallreduce`: the loop, then `move` is added. -/
theorem ffallreduce_spec (a : AllreduceArgs) (l₀ : Lib) (hcap : 0 < cap) :
    if a.activeBits.length < cap then
      ∃ s, LoopInv cap a l₀ (ffallreduceSetup a l₀).1 a.activeBits s ∧
        ffallreduce cap a l₀ = some ({ s.sched with oplist := some (l₀.opid + 2) },
          addOpLib s.sched (l₀.opid + 2) s.lib)
    else ffallreduce cap a l₀ = none := by
  have hloop := ffallreduceLoop_spec hcap a.maxr 0 (ffallreduceSetup a l₀).2
    (by omega) LoopInv.init
  have hadd : ∀ s, LoopInv cap a l₀ (ffallreduceSetup a l₀).1 a.activeBits s →
      ffscheduleAddOp cap s.sched (ffallreduceSetup a l₀).2.comp s.lib =
        if a.activeBits.length < cap then
          some ({ s.sched with oplist := some (l₀.opid + 2) },
            addOpLib s.sched (l₀.opid + 2) s.lib)
        else none := by
    intro s h
    have hne : l₀.opid + 2 ≠ s.sched.beginOp := by
      rw [h.begin_eq]
      omega
    have hout : (s.lib.ops s.sched.beginOp).outDepCount = a.activeBits.length := by
      rw [h.begin_eq, h.out_begin]
    rw [(setupSpec cap a l₀).comp_eq, ffscheduleAddOp_eq hne, hout]
    by_cases hR : a.activeBits.length < cap
    · rw [if_pos hR, if_pos ⟨fun _ => hR, fun _ => hcap⟩]
    · rw [if_neg hR, if_neg (fun hc => hR (hc.1 h.in_move))]
  by_cases hR : a.activeBits.length < cap
  · rw [if_pos hR.le] at hloop
    obtain ⟨s, hs, h⟩ := hloop
    rw [if_pos hR]
    refine ⟨s, h, ?_⟩
    rw [ffallreduce, hs, Option.bind_some, hadd s h, if_pos hR]
  · rw [if_neg hR]
    by_cases hle : a.activeBits.length ≤ cap
    · rw [if_pos hle] at hloop
      obtain ⟨s, hs, h⟩ := hloop
      rw [ffallreduce, hs, Option.bind_some, hadd s h, if_neg hR]
    · rw [if_neg hle] at hloop
      rw [ffallreduce, hloop, Option.bind_none]

/-- The construction stays inside the arrays iff the rank takes part in fewer rounds
than a `dependent` array has entries. -/
theorem ffallreduce_isSome_iff (a : AllreduceArgs) (l₀ : Lib) (hcap : 0 < cap) :
    (ffallreduce cap a l₀).isSome = true ↔ a.activeBits.length < cap := by
  have h := ffallreduce_spec a l₀ hcap
  by_cases hR : a.activeBits.length < cap
  · rw [if_pos hR] at h
    obtain ⟨s, _, hs⟩ := h
    simp [hs, hR]
  · rw [if_neg hR] at h
    simp [h, hR]

end Loop

/-! ### The finished schedule -/

/-- All calls of `ffallreduce`. -/
def allreduceCalls (a : AllreduceArgs) (l₀ : Lib) : List BuildCall :=
  setupCalls a (ffallreduceSetup a l₀).1 ++
    loopCalls a (ffallreduceSetup a l₀).1 l₀ a.activeBits ++ [.addOp (l₀.opid + 2)]

section Calls

variable {a : AllreduceArgs} {st : AllreduceState} {l₀ : Lib}

theorem mem_loopCalls {bits : List Nat} {c : BuildCall} :
    c ∈ loopCalls a st l₀ bits ↔ ∃ k b, bits[k]? = some b ∧
      c ∈ roundCalls a st b (l₀.nextBuffer + k) (l₀.opid + 2 + 3 * k) (l₀.opid + 3 + 3 * k) := by
  simp only [loopCalls, List.mem_flatMap, Prod.exists, List.mem_zipIdx_iff_getElem?]
  constructor
  · rintro ⟨b, k, hk, hc⟩
    exact ⟨k, b, hk, hc⟩
  · rintro ⟨k, b, hk, hc⟩
    exact ⟨b, k, hk, hc⟩

theorem mem_setupCalls {c : BuildCall} (hc : c ∈ setupCalls a st) :
    (∀ x y, c ≠ .hb x y) ∧ (∀ x, c ≠ .addOp x) ∧
      ∀ body o, c = .create body o → o = moveOptions a := by
  simp only [setupCalls, bufferCalls, List.cons_append, List.append_assoc, List.mem_cons,
    List.mem_append, List.mem_replicate, List.not_mem_nil, or_false] at hc
  rcases hc with rfl | ⟨_, rfl⟩ | hc | rfl | rfl | rfl
  · simp
  · simp
  · by_cases hprov : a.buffersProvided = true
    · simp only [hprov, if_true, List.mem_singleton] at hc
      subst hc
      simp
    · by_cases hin : a.inPlace = true
      · simp only [hprov, hin, if_true, Bool.false_eq_true, if_false, List.mem_singleton] at hc
        subst hc
        simp
      · simp only [hprov, hin, Bool.false_eq_true, if_false, List.mem_cons, List.not_mem_nil,
          or_false, or_self] at hc
        subst hc
        simp
  · simp
  · simp
  · simp

/-- The calls of `ffop_hb`: from the last accumulation to the send, and from the send
and the receive to the computation. -/
theorem hb_mem_allreduceCalls {x y : Nat} :
    .hb x y ∈ allreduceCalls a l₀ ↔ ∃ k, k < a.activeBits.length ∧
      ((x = l₀.opid + 2 + 3 * k ∧ y = l₀.opid + 3 + 3 * k) ∨
        (x = l₀.opid + 3 + 3 * k ∧ y = l₀.opid + 5 + 3 * k) ∨
        (x = l₀.opid + 4 + 3 * k ∧ y = l₀.opid + 5 + 3 * k)) := by
  simp only [allreduceCalls, List.mem_append, mem_loopCalls, List.mem_singleton, reduceCtorEq,
    or_false]
  constructor
  · rintro (hc | ⟨k, b, hk, hc⟩)
    · exact absurd rfl ((mem_setupCalls hc).1 x y)
    · refine ⟨k, (List.getElem?_eq_some_iff.mp hk).1, ?_⟩
      simp only [roundCalls, List.mem_cons, reduceCtorEq, BuildCall.hb.injEq, false_or,
        List.not_mem_nil, or_false] at hc
      omega
  · rintro ⟨k, hk, hc⟩
    refine Or.inr ⟨k, _, List.getElem?_eq_getElem hk, ?_⟩
    simp only [roundCalls, List.mem_cons, reduceCtorEq, BuildCall.hb.injEq, false_or,
      List.not_mem_nil, or_false]
    omega

theorem count_addOp_roundCalls (b tmp comp n x : Nat) :
    (roundCalls a st b tmp comp n).count (.addOp x) = if n ≤ x ∧ x < n + 3 then 1 else 0 := by
  simp only [roundCalls, List.count_cons, List.count_nil, beq_iff_eq, reduceCtorEq, if_false,
    BuildCall.addOp.injEq]
  by_cases h : n ≤ x ∧ x < n + 3
  · rw [if_pos h]
    split_ifs <;> omega
  · rw [if_neg h]
    split_ifs <;> omega

theorem count_addOp_loopCalls (bits : List Nat) (x : Nat) :
    (loopCalls a st l₀ bits).count (.addOp x) =
      if l₀.opid + 3 ≤ x ∧ x < l₀.opid + 3 + 3 * bits.length then 1 else 0 := by
  induction bits using List.reverseRecOn with
  | nil =>
      rw [if_neg (by simp only [List.length_nil]; omega)]
      rfl
  | append_singleton bits b ih =>
      rw [loopCalls_snoc, List.count_append, ih, count_addOp_roundCalls, List.length_append,
        List.length_singleton]
      split_ifs <;> omega

theorem count_addOp_allreduceCalls (x : Nat) :
    (allreduceCalls a l₀).count (.addOp x) =
      if l₀.opid + 2 ≤ x ∧ x < l₀.opid + 3 + 3 * a.activeBits.length then 1 else 0 := by
  have hsetup : (setupCalls a (ffallreduceSetup a l₀).1).count (.addOp x) = 0 :=
    List.count_eq_zero.mpr (fun hc => (mem_setupCalls hc).2.1 x rfl)
  rw [allreduceCalls, List.count_append, List.count_append, hsetup, count_addOp_loopCalls,
    List.count_singleton]
  simp only [beq_iff_eq, BuildCall.addOp.injEq]
  split_ifs <;> omega

theorem create_mem_allreduceCalls {body : FfopBody} {o : Nat}
    (hc : .create body o ∈ allreduceCalls a l₀) : DefaultOptions o := by
  simp only [allreduceCalls, List.mem_append, mem_loopCalls, List.mem_singleton, reduceCtorEq,
    or_false] at hc
  rcases hc with hc | ⟨k, b, _, hc⟩
  · rw [(mem_setupCalls hc).2.2 body o rfl, moveOptions]
    split <;> decide
  · simp only [roundCalls, List.mem_cons, reduceCtorEq, BuildCall.create.injEq, false_or,
      List.not_mem_nil, or_false] at hc
    rcases hc with ⟨_, rfl⟩ | ⟨_, rfl⟩ | ⟨_, rfl⟩ <;> decide

end Calls

/-- What `ffallreduce` has built. -/
structure AllreduceBuilt (cap : Nat) (a : AllreduceArgs) (l₀ : Lib) (s : FfSchedule)
    (l : Lib) : Prop where
  built : ScheduleBuilt cap l₀ (allreduceCalls a l₀) s l
  begin_eq : s.beginOp = l₀.opid
  end_eq : s.endOp = l₀.opid + 1
  opid_eq : l.opid = l₀.opid + 3 + 3 * a.activeBits.length
  move_body : (l.ops (l₀.opid + 2)).body = moveBody a (ffallreduceSetup a l₀).1
  bodies : ∀ k b, a.activeBits[k]? = some b → RoundBodies a (ffallreduceSetup a l₀).1 l₀ l k b
  state_eq : s.state = some (ffallreduceSetup a l₀).1
  callback_eq : s.postCallback = (ffallreduceSetup a l₀).2.sched.postCallback
  buffs_eq : l.buffs = (ffallreduceSetup a l₀).2.lib.buffs

theorem allreduceBuilt {cap : Nat} {a : AllreduceArgs} {l₀ l : Lib} {s : FfSchedule}
    (hcap : 0 < cap) (h : ffallreduce cap a l₀ = some (s, l)) : AllreduceBuilt cap a l₀ s l := by
  have hR : a.activeBits.length < cap := by
    rw [← ffallreduce_isSome_iff _ l₀ hcap, h]
    rfl
  have hspec := ffallreduce_spec a l₀ hcap
  rw [if_pos hR, h] at hspec
  obtain ⟨r, hinv, heq⟩ := hspec
  obtain ⟨rfl, rfl⟩ := Prod.mk.inj (Option.some.inj heq)
  have hbegin := hinv.begin_eq
  have hend := hinv.end_eq
  have hopid := hinv.opid_eq
  have hrun : run (buildStep cap l₀.opid) ⟨none, l₀⟩ (allreduceCalls a l₀) =
      some ⟨some { r.sched with oplist := some (l₀.opid + 2) },
        addOpLib r.sched (l₀.opid + 2) r.lib⟩ := by
    rw [allreduceCalls, run_snoc_eq_some]
    refine ⟨_, hinv.calls, ?_⟩
    have hm : Builder.Member l₀.opid ⟨some r.sched, r.lib⟩ (l₀.opid + 2) := by
      rw [member_some]
      omega
    have hcond : ((r.lib.ops (l₀.opid + 2)).inDepCount = 0 →
          (r.lib.ops r.sched.beginOp).outDepCount < cap) ∧
        ((r.lib.ops (l₀.opid + 2)).outDepCount = 0 → 0 < cap) :=
      ⟨fun _ => by rw [hbegin, hinv.out_begin]; exact hR, fun _ => hcap⟩
    simp only [buildStep]
    rw [if_pos hm, ffscheduleAddOp_eq (by omega), if_pos hcond]
    rfl
  have hmember : ∀ x, Builder.Member l₀.opid ⟨some { r.sched with oplist := some (l₀.opid + 2) },
      addOpLib r.sched (l₀.opid + 2) r.lib⟩ x ↔
      l₀.opid + 2 ≤ x ∧ x < l₀.opid + 3 + 3 * a.activeBits.length := by
    intro x
    rw [member_some, addOpLib_opid, hopid]
    simp only [hbegin, hend]
    omega
  refine ⟨⟨hrun, ⟨l₀.opid + 2, (hmember _).mpr (by omega)⟩, fun x hx => ?_, ?_,
    fun body o hc => create_mem_allreduceCalls hc⟩, hbegin, hend, ?_, ?_, fun k b hk => ?_,
    hinv.state_eq, hinv.callbacks, ?_⟩
  · rw [count_addOp_allreduceCalls, if_pos ((hmember x).mp hx)]
  · refine acyclic_of_lt id (fun x y hxy => ?_)
    obtain ⟨k, _, hc⟩ := hb_mem_allreduceCalls.mp hxy
    simp only [id]
    omega
  · rw [addOpLib_opid, hopid]
  · rw [addOpLib_body, hinv.move_body]
  · obtain ⟨h1, h2, h3⟩ := hinv.bodies k b hk
    refine ⟨?_, ?_, ?_⟩
    · rw [addOpLib_body, h1]
    · rw [addOpLib_body, h2]
    · rw [addOpLib_body, h3]
  · rw [addOpLib_buffs, hinv.buffs_eq]

/-- The operations of the schedule: `begin_op`, `end_op`, `move`, and three for each round. -/
theorem AllreduceBuilt.body_cases {cap : Nat} {a : AllreduceArgs} {l₀ l : Lib} {s : FfSchedule}
    (h : AllreduceBuilt cap a l₀ s l) {x : Nat} (hlo : l₀.opid ≤ x) (hx : x < l.opid) :
    (l.ops x).body = .nop ∨ (l.ops x).body = moveBody a (ffallreduceSetup a l₀).1 ∨
      ∃ k b, a.activeBits[k]? = some b ∧
        ((l.ops x).body = .send (a.dst b) a.tag (ffallreduceSetup a l₀).1.rcvbuff ∨
          (l.ops x).body = .recv (a.dst b) a.tag (l₀.nextBuffer + k) ∨
          (l.ops x).body = .comp (l₀.nextBuffer + k) (ffallreduceSetup a l₀).1.rcvbuff
            (ffallreduceSetup a l₀).1.rcvbuff a.operator) := by
  have hopid := h.opid_eq
  have hbegin := h.built.schedOps.begin_nop
  have hend := h.built.schedOps.end_nop
  rw [h.begin_eq] at hbegin
  rw [h.end_eq] at hend
  obtain rfl | rfl | rfl | hround : x = l₀.opid ∨ x = l₀.opid + 1 ∨ x = l₀.opid + 2 ∨
      l₀.opid + 3 ≤ x := by omega
  · exact Or.inl hbegin
  · exact Or.inl hend
  · exact Or.inr (Or.inl h.move_body)
  · obtain ⟨k, hk⟩ : ∃ k, k = (x - (l₀.opid + 3)) / 3 := ⟨_, rfl⟩
    have hlt : k < a.activeBits.length := by omega
    have hbodies := h.bodies k _ (List.getElem?_eq_getElem hlt)
    refine Or.inr (Or.inr ⟨k, _, List.getElem?_eq_getElem hlt, ?_⟩)
    obtain hm | hm | hm : x = l₀.opid + 3 + 3 * k ∨ x = l₀.opid + 4 + 3 * k ∨
        x = l₀.opid + 5 + 3 * k := by omega
    · rw [hm]
      exact Or.inl hbodies.send
    · rw [hm]
      exact Or.inr (Or.inl hbodies.recv)
    · rw [hm]
      exact Or.inr (Or.inr hbodies.comp)

namespace AllreduceBuilt

variable {cap : Nat} {a : AllreduceArgs} {l₀ l : Lib} {s : FfSchedule}
  {x peer tag b₁ b₂ b₃ : Nat} {operator : Int}

/-- A send of the schedule sends the receive buffer. -/
theorem of_send (h : AllreduceBuilt cap a l₀ s l) (hlo : l₀.opid ≤ x) (hx : x < l.opid)
    (hbody : (l.ops x).body = .send peer tag b₁) :
    b₁ = (ffallreduceSetup a l₀).1.rcvbuff := by
  obtain hn | hm | ⟨k, b, _, hs | hr | hc⟩ := h.body_cases hlo hx
  · rw [hn] at hbody
    cases hbody
  · rw [hm, moveBody] at hbody
    split at hbody <;> cases hbody
  · rw [hs] at hbody
    cases hbody
    rfl
  · rw [hr] at hbody
    cases hbody
  · rw [hc] at hbody
    cases hbody

/-- A receive of the schedule writes to a temporary buffer. -/
theorem of_recv (h : AllreduceBuilt cap a l₀ s l) (hlo : l₀.opid ≤ x) (hx : x < l.opid)
    (hbody : (l.ops x).body = .recv peer tag b₁) :
    ∃ k, k < a.activeBits.length ∧ b₁ = l₀.nextBuffer + k := by
  obtain hn | hm | ⟨k, b, hk, hs | hr | hc⟩ := h.body_cases hlo hx
  · rw [hn] at hbody
    cases hbody
  · rw [hm, moveBody] at hbody
    split at hbody <;> cases hbody
  · rw [hs] at hbody
    cases hbody
  · rw [hr] at hbody
    cases hbody
    exact ⟨k, (List.getElem?_eq_some_iff.mp hk).1, rfl⟩
  · rw [hc] at hbody
    cases hbody

/-- A computation of the schedule is `move`, or combines a temporary buffer with the receive
buffer. -/
theorem of_comp (h : AllreduceBuilt cap a l₀ s l) (hlo : l₀.opid ≤ x) (hx : x < l.opid)
    (hbody : (l.ops x).body = .comp b₁ b₂ b₃ operator) :
    (a.inPlace = false ∧ b₁ = (ffallreduceSetup a l₀).1.sndbuff ∧ b₂ = ffbuffNone ∧
        b₃ = (ffallreduceSetup a l₀).1.rcvbuff) ∨
      ∃ k, k < a.activeBits.length ∧ b₁ = l₀.nextBuffer + k ∧
        b₂ = (ffallreduceSetup a l₀).1.rcvbuff ∧ b₃ = (ffallreduceSetup a l₀).1.rcvbuff := by
  obtain hn | hm | ⟨k, b, hk, hs | hr | hc⟩ := h.body_cases hlo hx
  · rw [hn] at hbody
    cases hbody
  · rw [hm, moveBody] at hbody
    split at hbody
    · cases hbody
    · next hin =>
        cases hbody
        exact Or.inl ⟨Bool.eq_false_iff.mpr hin, rfl, rfl, rfl⟩
  · rw [hs] at hbody
    cases hbody
  · rw [hr] at hbody
    cases hbody
  · rw [hc] at hbody
    cases hbody
    exact Or.inr ⟨k, (List.getElem?_eq_some_iff.mp hk).1, rfl, rfl, rfl⟩

end AllreduceBuilt

/-! ### Capacity -/

section Capacity

/-- The number of rounds of rank `0`, and the largest of any rank. -/
theorem length_activeBits_le (a : AllreduceArgs) : a.activeBits.length ≤ a.maxr :=
  length_activeBelow_le_self a.maxr

theorem activeBits_of_rank_zero {a : AllreduceArgs} (h : a.rank = 0) :
    a.activeBits = List.range a.maxr := by
  refine List.filter_eq_self.mpr (fun b hb => ?_)
  have := two_pow_lt_csize_iff (a := a).mpr (List.mem_range.mp hb)
  simpa [AllreduceArgs.dst, h] using this

/-- **Dependency capacity.**  `ffallreduce` stores inside the `dependent` arrays iff the
rank takes part in at most nine rounds; then no degree exceeds `MAX_DEPS`.  The loop on natural
numbers is the one of the code up to `csize = 2 ^ 30`. -/
theorem ffallreduce_capacity (a : AllreduceArgs) (l₀ : Lib) :
    (∃ s l, ffallreduce maxDeps a l₀ = some (s, l) ∧
        ∀ x, l₀.opid ≤ x → x < l.opid → (l.ops x).outDepCount ≤ maxDeps) ↔
      a.activeBits.length ≤ 9 := by
  have hiff : a.activeBits.length ≤ 9 ↔ a.activeBits.length < maxDeps := Nat.lt_succ_iff.symm
  rw [hiff, ← ffallreduce_isSome_iff _ l₀ (by decide : 0 < maxDeps)]
  constructor
  · rintro ⟨s, l, h, _⟩
    rw [h]
    rfl
  · intro h
    obtain ⟨⟨s, l⟩, hsl⟩ := Option.isSome_iff_exists.mp h
    exact ⟨s, l, hsl, (allreduceBuilt (by decide) hsl).built.inv.lib.out_le⟩

/-- The arguments of a rank of `csize` processes, as `test/allreduce.c` passes them. -/
def testArgs (csize rank count : Nat) : AllreduceArgs where
  csize := csize
  rank := rank
  sndbuff := some 1
  rcvbuff := 2
  count := count
  tag := 0
  operator := 0
  datatype := 0
  options := 0

theorem testArgs_not_provided (csize rank count : Nat) :
    ¬ (testArgs csize rank count).buffersProvided = true := by
  change ¬ isOptSet 0 ffcollBuffers = true
  decide

/-- Rank `0` of `1024` processes overruns the array of `begin_op`. -/
theorem ffallreduce_capacity_fails :
    ¬ ∀ (a : AllreduceArgs) (l₀ : Lib), 1 ≤ a.csize → a.rank < a.csize →
      ∃ s l, ffallreduce maxDeps a l₀ = some (s, l) ∧
        ∀ x, l₀.opid ≤ x → x < l.opid → (l.ops x).outDepCount ≤ maxDeps := by
  intro hall
  obtain ⟨s, l, hsl, _⟩ := hall (testArgs 1024 0 1) Lib.init (by decide) (by decide)
  have hsome : (ffallreduce maxDeps (testArgs 1024 0 1) Lib.init).isSome = true := by
    rw [hsl]
    rfl
  rw [ffallreduce_isSome_iff _ _ (by decide), activeBits_of_rank_zero rfl,
    List.length_range] at hsome
  have hmaxr : (testArgs 1024 0 1).maxr = 10 := Nat.clog_pow 2 10 (by decide)
  rw [hmaxr] at hsome
  exact absurd hsome (by decide)

end Capacity

end Fflib
