import Fflib.Wiring

/-!
# Wiring in any order

Programs that create operations, order them with `ffop_hb` and add each of them once to a
schedule, the calls in any order.

**Begin and end edges.**  `ffschedule_add_op` decides about them when the operation is added.
`dependentsOf` and `beginDependents` count, from the calls alone, the entries that an operation
and `begin_op` need in their arrays.

* `Degrees` says that the counters of the operations are these numbers; `Degrees.step` keeps it.
* `run_of_room`: a program runs with any arrays that have room for what it stores.
* `WiringLaw` is what is asked of the graph.  A schedule without operations does not have it:
  nothing leads from `begin_op` to `end_op`.
-/

namespace Fflib

open Library

/-! ### Counting calls -/

/-- `ffop_hb(x, _)` and `ffop_hb(_, x)`. -/
def BuildCall.fromOp (x : Nat) : BuildCall → Bool
  | .hb first _ => first == x
  | _ => false

def BuildCall.intoOp (x : Nat) : BuildCall → Bool
  | .hb _ second => second == x
  | _ => false

/-- The calls before `x` is added. -/
def callsBefore (cs : List BuildCall) (x : Nat) : List BuildCall :=
  cs.takeWhile (fun c => c ≠ .addOp x)

/-- The calls that `p` selects, and one edge more when `x` is added before all of them. -/
def degree (p : BuildCall → Bool) (cs : List BuildCall) (x : Nat) : Nat :=
  cs.countP p + if .addOp x ∈ cs ∧ (callsBefore cs x).countP p = 0 then 1 else 0

/-- The dependents of a member. -/
def dependentsOf (cs : List BuildCall) (x : Nat) : Nat := degree (BuildCall.fromOp x) cs x

/-- The operations that are added, in order. -/
def addedOps (cs : List BuildCall) : List Nat :=
  cs.filterMap fun
    | .addOp x => some x
    | _ => none

/-- The members that are added before an `ffop_hb` call leads to them. -/
def beginDependents (cs : List BuildCall) : Nat :=
  (addedOps cs).countP fun x => (callsBefore cs x).countP (BuildCall.intoOp x) = 0

theorem mem_addedOps {cs : List BuildCall} {x : Nat} : x ∈ addedOps cs ↔ .addOp x ∈ cs := by
  rw [addedOps, List.mem_filterMap]
  constructor
  · rintro ⟨c, hc, hx⟩
    cases c with
    | addOp y =>
        obtain rfl := Option.some.inj hx
        exact hc
    | _ => cases hx
  · exact fun h => ⟨_, h, rfl⟩

theorem callsBefore_cons (c : BuildCall) (cs : List BuildCall) (x : Nat) :
    callsBefore (c :: cs) x = if c = .addOp x then [] else c :: callsBefore cs x := by
  by_cases hc : c = .addOp x
  · simp [callsBefore, hc]
  · simp [callsBefore, hc]

theorem callsBefore_append {cs ds : List BuildCall} {x : Nat} (h : .addOp x ∈ cs) :
    callsBefore (cs ++ ds) x = callsBefore cs x := by
  induction cs with
  | nil => cases h
  | cons c cs ih =>
      rw [List.cons_append, callsBefore_cons, callsBefore_cons]
      by_cases hc : c = .addOp x
      · rw [if_pos hc, if_pos hc]
      · rcases List.mem_cons.mp h with h | h
        · exact absurd h.symm hc
        · rw [if_neg hc, if_neg hc, ih h]

theorem callsBefore_concat_addOp {cs : List BuildCall} {x : Nat} (h : .addOp x ∉ cs) :
    callsBefore (cs ++ [.addOp x]) x = cs := by
  induction cs with
  | nil => rw [List.nil_append, callsBefore_cons, if_pos rfl]
  | cons c cs ih =>
      have hc : c ≠ .addOp x := fun hc => h (hc ▸ List.mem_cons_self)
      have hcs := ih fun hmem => h (List.mem_cons_of_mem _ hmem)
      rw [List.cons_append, callsBefore_cons, if_neg hc, hcs]

section Concat

variable {cs : List BuildCall} {c : BuildCall}

/-- What a call adds to a degree. -/
theorem degree_concat {p : BuildCall → Bool} {x : Nat} (hp : p (.addOp x) = false)
    (hnew : c = .addOp x → .addOp x ∉ cs) :
    degree p (cs ++ [c]) x = degree p cs x + (if p c then 1 else 0) +
      if c = .addOp x ∧ cs.countP p = 0 then 1 else 0 := by
  have hcount : (cs ++ [c]).countP p = cs.countP p + if p c then 1 else 0 := by
    rw [List.countP_append, List.countP_singleton]
  by_cases hc : c = .addOp x
  · subst hc
    have hmem : BuildCall.addOp x ∉ cs := hnew rfl
    rw [degree, degree, hcount, callsBefore_concat_addOp hmem]
    simp [hmem, hp]
  · rw [degree, degree, hcount]
    by_cases hmem : BuildCall.addOp x ∈ cs
    · rw [callsBefore_append hmem]
      simp [hmem, hc]
      omega
    · have hne : ¬ BuildCall.addOp x = c := fun h => hc h.symm
      simp [hmem, hc, hne]

theorem degree_of_not_added {p : BuildCall → Bool} {x : Nat} (h : .addOp x ∉ cs) :
    degree p cs x = cs.countP p := by
  simp [degree, h]

/-- What a call adds to the dependents of `begin_op`. -/
theorem beginDependents_concat (hnew : ∀ x, c = .addOp x → .addOp x ∉ cs) :
    beginDependents (cs ++ [c]) = beginDependents cs +
      match c with
      | .addOp x => if cs.countP (BuildCall.intoOp x) = 0 then 1 else 0
      | _ => 0 := by
  have hold : (addedOps cs).countP
        (fun x => (callsBefore (cs ++ [c]) x).countP (BuildCall.intoOp x) = 0) =
      beginDependents cs := by
    refine List.countP_congr fun x hx => ?_
    rw [callsBefore_append (mem_addedOps.mp hx)]
  have happend : addedOps (cs ++ [c]) = addedOps cs ++ addedOps [c] := List.filterMap_append
  rw [beginDependents, happend, List.countP_append, hold]
  cases c with
  | addOp x =>
      have hmem := hnew x rfl
      simp [addedOps, List.countP_cons, callsBefore_concat_addOp hmem]
  | _ => simp [addedOps]

end Concat

/-! ### The counters -/

/-- The counters of the operations agree with the calls. -/
structure Degrees (lo : Nat) (cs : List BuildCall) (b : Builder) : Prop where
  none : b.sched = none → ∀ x, .addOp x ∉ cs
  out : ∀ x, b.Member lo x → (b.lib.ops x).outDepCount = dependentsOf cs x
  into : ∀ x, b.Member lo x →
    (b.lib.ops x).inDepCount = degree (BuildCall.intoOp x) cs x
  begin : ∀ s, b.sched = some s → (b.lib.ops s.beginOp).outDepCount = beginDependents cs
  last : ∀ s, b.sched = some s → (b.lib.ops s.endOp).outDepCount = 0

section Steps

variable {cap lo : Nat} {cs : List BuildCall} {b b' : Builder}

theorem not_fromOp_intoOp {c : BuildCall} (hc : ∀ a d, c ≠ .hb a d) (x : Nat) :
    BuildCall.fromOp x c = false ∧ BuildCall.intoOp x c = false := by
  cases c with
  | hb a d => exact absurd rfl (hc a d)
  | _ => exact ⟨rfl, rfl⟩

/-- The degrees that a call leaves alone. -/
theorem degree_concat_other {c : BuildCall} {p : BuildCall → Bool} {x : Nat}
    (hc : p c = false) (hp : p (.addOp x) = false) (hne : c ≠ .addOp x) :
    degree p (cs ++ [c]) x = degree p cs x := by
  rw [degree_concat hp fun h => absurd h hne]
  simp [hc, hne]

/-- An operation that has not been created has no degree. -/
theorem degree_fresh (hinv : BuildInv cap lo cs b) {x : Nat} (hx : b.lib.opid ≤ x) :
    dependentsOf cs x = 0 ∧ degree (BuildCall.intoOp x) cs x = 0 := by
  have hadd : BuildCall.addOp x ∉ cs := by
    intro hmem
    have := (hinv.added x hmem).1.2.1
    omega
  have hfrom : cs.countP (BuildCall.fromOp x) = 0 := by
    rw [List.countP_eq_zero]
    intro c hc
    cases c with
    | hb first second =>
        have := (hinv.hb first second hc).1.2.1
        simp only [BuildCall.fromOp, beq_iff_eq]
        omega
    | _ => simp [BuildCall.fromOp]
  have hinto : cs.countP (BuildCall.intoOp x) = 0 := by
    rw [List.countP_eq_zero]
    intro c hc
    cases c with
    | hb first second =>
        have := (hinv.hb first second hc).2.1.2.1
        simp only [BuildCall.intoOp, beq_iff_eq]
        omega
    | _ => simp [BuildCall.intoOp]
  rw [dependentsOf, degree_of_not_added hadd, degree_of_not_added hadd]
  exact ⟨hfrom, hinto⟩

/-- A call that makes no edge, and keeps the operations there are. -/
theorem Degrees.keep (h : Degrees lo cs b) (hinv : BuildInv cap lo cs b) {c : BuildCall}
    (hold : ∀ x, x < b.lib.opid → b'.lib.ops x = b.lib.ops x)
    (hnew : ∀ x, b'.Member lo x → ¬ x < b.lib.opid →
      (b'.lib.ops x).outDepCount = 0 ∧ (b'.lib.ops x).inDepCount = 0)
    (hmem : ∀ x, b'.Member lo x → x < b.lib.opid → b.Member lo x)
    (hsched : ∀ s', b'.sched = some s' →
      ∃ s, b.sched = some s ∧ s'.beginOp = s.beginOp ∧ s'.endOp = s.endOp)
    (hnone : b'.sched = Option.none → b.sched = Option.none)
    (hc : (∀ a d, c ≠ .hb a d) ∧ ∀ x, c ≠ .addOp x) : Degrees lo (cs ++ [c]) b' := by
  have hedge := not_fromOp_intoOp hc.1
  have hout : ∀ x, dependentsOf (cs ++ [c]) x = dependentsOf cs x :=
    fun x => degree_concat_other (hedge x).1 rfl (hc.2 x)
  have hin : ∀ x, degree (BuildCall.intoOp x) (cs ++ [c]) x = degree (BuildCall.intoOp x) cs x :=
    fun x => degree_concat_other (hedge x).2 rfl (hc.2 x)
  have hbegin : beginDependents (cs ++ [c]) = beginDependents cs := by
    rw [beginDependents_concat fun x hx => absurd hx (hc.2 x)]
    cases c with
    | addOp x => exact absurd rfl (hc.2 x)
    | _ => rfl
  constructor
  · intro hs x hx
    rcases List.mem_append.mp hx with hx | hx
    · exact h.none (hnone hs) x hx
    · exact hc.2 x (List.mem_singleton.mp hx).symm
  · intro x hx
    rw [hout]
    by_cases hlt : x < b.lib.opid
    · rw [hold x hlt, h.out x (hmem x hx hlt)]
    · rw [(hnew x hx hlt).1, (degree_fresh hinv (Nat.le_of_not_lt hlt)).1]
  · intro x hx
    rw [hin]
    by_cases hlt : x < b.lib.opid
    · rw [hold x hlt, h.into x (hmem x hx hlt)]
    · rw [(hnew x hx hlt).2, (degree_fresh hinv (Nat.le_of_not_lt hlt)).2]
  · intro s' hs'
    obtain ⟨s, hs, hb, _⟩ := hsched s' hs'
    rw [hb, hbegin, hold _ (hinv.sched s hs).begin_mem.2]
    exact h.begin s hs
  · intro s' hs'
    obtain ⟨s, hs, _, he⟩ := hsched s' hs'
    rw [he, hold _ (hinv.sched s hs).end_mem.2]
    exact h.last s hs

theorem Degrees.setter (h : Degrees lo cs b) (hinv : BuildInv cap lo cs b) {c : BuildCall}
    (f : FfSchedule → FfSchedule) (hf : ∀ s, (f s).beginOp = s.beginOp ∧ (f s).endOp = s.endOp)
    (hs : b.sched.map (fun s => { b with sched := some (f s) }) = some b')
    (hc : (∀ a d, c ≠ .hb a d) ∧ ∀ x, c ≠ .addOp x) : Degrees lo (cs ++ [c]) b' := by
  obtain ⟨s, hsome, rfl⟩ := Option.map_eq_some_iff.mp hs
  refine h.keep hinv (fun _ _ => rfl) (fun x hx hlt => absurd hx.2.1 hlt)
    (fun x hx _ => ⟨hx.1, hx.2.1, fun t ht => ?_⟩) (fun s' hs' => ?_) (fun hn => ?_) hc
  · obtain rfl := Option.some.inj (hsome.symm.trans ht)
    have hne := hx.2.2 _ rfl
    rwa [(hf s).1, (hf s).2] at hne
  · obtain rfl := Option.some.inj hs'
    exact ⟨s, hsome, hf s⟩
  · cases hn

theorem Degrees.create (h : Degrees lo cs b) (hinv : BuildInv cap lo cs b) (body : FfopBody)
    (options : Nat) :
    Degrees lo (cs ++ [.create body options])
      { b with lib := (newOp body (fun _ => options) b.lib).2 } := by
  have hold : ∀ x, x < b.lib.opid →
      (newOp body (fun _ => options) b.lib).2.ops x = b.lib.ops x :=
    fun x hx => newOp_ops_of_ne _ _ _ (by omega)
  refine h.keep hinv hold (fun x hx hlt => ?_) (fun x hx hlt => ⟨hx.1, hlt, hx.2.2⟩)
    (fun s' hs' => ⟨s', hs', rfl, rfl⟩) (fun hn => hn) (by simp)
  have hxe : x = b.lib.opid := by
    have := hx.2.1
    rw [newOp_opid] at this
    omega
  simp [hxe]

theorem Degrees.scheduleCreate (h : Degrees lo cs b)
    (hnone : b.sched = Option.none) :
    Degrees lo (cs ++ [.scheduleCreate])
      ⟨some (ffscheduleCreate b.lib).1, (ffscheduleCreate b.lib).2⟩ := by
  have hadd := h.none hnone
  have hbegin : beginDependents (cs ++ [.scheduleCreate]) = 0 := by
    have hnil : addedOps cs = [] := by
      rw [List.eq_nil_iff_forall_not_mem]
      exact fun x hx => hadd x (mem_addedOps.mp hx)
    rw [beginDependents_concat (by simp), beginDependents, hnil]
    rfl
  have hmem : ∀ x, Builder.Member lo
      ⟨some (ffscheduleCreate b.lib).1, (ffscheduleCreate b.lib).2⟩ x → x < b.lib.opid := by
    intro x hx
    have hne := hx.ne_ends
    have hlt := hx.2.1
    simp only [ffscheduleCreate_opid, ffscheduleCreate_beginOp, ffscheduleCreate_endOp] at hne hlt
    omega
  have hold : ∀ x, x < b.lib.opid → (ffscheduleCreate b.lib).2.ops x = b.lib.ops x :=
    fun x hx => ffscheduleCreate_ops_of_lt b.lib hx
  have hmem' : ∀ x, lo ≤ x → x < b.lib.opid → b.Member lo x := by
    intro x hlo hx
    refine ⟨hlo, hx, fun s hs => ?_⟩
    rw [hnone] at hs
    cases hs
  constructor
  · intro hs
    cases hs
  · intro x hx
    rw [hold x (hmem x hx), h.out x (hmem' x hx.1 (hmem x hx))]
    exact (degree_concat_other rfl rfl (by simp)).symm
  · intro x hx
    rw [hold x (hmem x hx), h.into x (hmem' x hx.1 (hmem x hx))]
    exact (degree_concat_other rfl rfl (by simp)).symm
  · intro s hs
    obtain rfl := Option.some.inj hs
    rw [hbegin]
    exact (ffscheduleCreate_begin_fresh b.lib).out_eq
  · intro s hs
    obtain rfl := Option.some.inj hs
    exact (ffscheduleCreate_end_fresh b.lib).out_eq

theorem Degrees.hbCall (h : Degrees lo cs b) {first second : Nat} {l' : Lib}
    (hf : b.Member lo first) (hhb : ffopHb cap first second b.lib = some l') :
    Degrees lo (cs ++ [.hb first second]) { b with lib := l' } := by
  obtain ⟨_, sp⟩ := ffopHb_spec hhb
  have hmem : ∀ x, Builder.Member lo { b with lib := l' } x → b.Member lo x := by
    intro x hx
    refine ⟨hx.1, ?_, hx.2.2⟩
    rw [← sp.opid_eq]
    exact hx.2.1
  constructor
  · intro hs x hx
    rcases List.mem_append.mp hx with hx | hx
    · exact h.none hs x hx
    · simp at hx
  · intro x hx
    rw [dependentsOf, degree_concat rfl (by simp)]
    simp only [sp.out_eq, h.out x (hmem x hx), dependentsOf, BuildCall.fromOp, beq_iff_eq,
      reduceCtorEq, false_and, if_false, Nat.add_zero, @eq_comm Nat first x]
  · intro x hx
    rw [degree_concat rfl (by simp)]
    simp only [sp.in_eq, h.into x (hmem x hx), BuildCall.intoOp, beq_iff_eq, reduceCtorEq,
      false_and, if_false, Nat.add_zero, @eq_comm Nat second x]
  · intro s hs
    have hne : s.beginOp ≠ first := ((hf.2.2 s hs).1).symm
    rw [beginDependents_concat (by simp)]
    simp only [sp.out_eq, h.begin s hs, if_neg hne]
  · intro s hs
    have hne : s.endOp ≠ first := ((hf.2.2 s hs).2).symm
    simp only [sp.out_eq, h.last s hs, if_neg hne]

theorem Degrees.addOpCall (h : Degrees lo cs b) (hinv : BuildInv cap lo cs b) {op : Nat}
    {s s' : FfSchedule} {l' : Lib} (hsome : b.sched = some s) (hm : b.Member lo op)
    (hnew : BuildCall.addOp op ∉ cs)
    (hadd : ffscheduleAddOp cap s op b.lib = some (s', l')) :
    Degrees lo (cs ++ [.addOp op]) ⟨some s', l'⟩ := by
  have hne := hm.2.2 s hsome
  rw [ffscheduleAddOp_eq hne.1] at hadd
  split at hadd
  · obtain ⟨rfl, rfl⟩ := Prod.mk.inj (Option.some.inj hadd)
    have hmem : ∀ x, Builder.Member lo
        ⟨some { s with oplist := some op }, addOpLib s op b.lib⟩ x →
          b.Member lo x ∧ x ≠ s.beginOp ∧ x ≠ s.endOp := by
      intro x hx
      refine ⟨⟨hx.1, by simpa using hx.2.1, fun t ht => ?_⟩, hx.ne_ends⟩
      obtain rfl := Option.some.inj (hsome.symm.trans ht)
      exact hx.ne_ends
    have hout : (b.lib.ops op).outDepCount = cs.countP (BuildCall.fromOp op) := by
      rw [h.out op hm, dependentsOf, degree_of_not_added hnew]
    have hin : (b.lib.ops op).inDepCount = cs.countP (BuildCall.intoOp op) := by
      rw [h.into op hm, degree_of_not_added hnew]
    have hbe := (hinv.sched s hsome).begin_ne_end
    constructor
    · intro hs
      cases hs
    · intro x hx
      obtain ⟨hxm, hxb, _⟩ := hmem x hx
      rw [dependentsOf, degree_concat rfl (by rintro heq; cases heq; exact hnew)]
      simp only [addOpLib_out, h.out x hxm, dependentsOf, BuildCall.fromOp]
      by_cases hxo : x = op
      · subst hxo
        simp [hxb, hout]
      · simp [hxb, hxo, Ne.symm hxo]
    · intro x hx
      obtain ⟨hxm, _, hxe⟩ := hmem x hx
      rw [degree_concat rfl (by rintro heq; cases heq; exact hnew)]
      simp only [addOpLib_in, h.into x hxm, BuildCall.intoOp]
      by_cases hxo : x = op
      · subst hxo
        simp [hxe, hin]
      · simp [hxe, hxo, Ne.symm hxo]
    · intro t ht
      obtain rfl := Option.some.inj ht
      rw [beginDependents_concat (by rintro x heq; cases heq; exact hnew)]
      simp [h.begin s hsome, hin, hne.1.symm]
    · intro t ht
      obtain rfl := Option.some.inj ht
      simp [h.last s hsome, hbe.symm, hne.2.symm]
  · cases hadd

/-- Every call keeps the counters in agreement, when no operation is added twice. -/
theorem Degrees.step (h : Degrees lo cs b) (hinv : BuildInv cap lo cs b) {c : BuildCall}
    (hnew : ∀ x, c = .addOp x → .addOp x ∉ cs) (hs : buildStep cap lo b c = some b') :
    Degrees lo (cs ++ [c]) b' := by
  cases c with
  | buffer count datatype =>
      obtain rfl := Option.some.inj hs
      exact h.keep hinv (fun _ _ => rfl) (fun x hx hlt => absurd hx.2.1 hlt)
        (fun x hx hlt => ⟨hx.1, hlt, hx.2.2⟩) (fun s' hs' => ⟨s', hs', rfl, rfl⟩) (fun hn => hn)
        (by simp)
  | setState state =>
      exact h.setter hinv (fun s => ffscheduleSetState s state) (fun _ => ⟨rfl, rfl⟩) hs (by simp)
  | setPostCallback cb =>
      exact h.setter hinv (fun s => ffscheduleSetPostCallback s cb) (fun _ => ⟨rfl, rfl⟩) hs
        (by simp)
  | setDeleteCallback cb =>
      exact h.setter hinv (fun s => ffscheduleSetDeleteCallback s cb) (fun _ => ⟨rfl, rfl⟩) hs
        (by simp)
  | create body options =>
      obtain rfl := Option.some.inj hs
      exact h.create hinv body options
  | scheduleCreate =>
      cases hsched : b.sched with
      | some s => simp [buildStep, hsched] at hs
      | none =>
          simp only [buildStep, hsched, Option.some.injEq] at hs
          subst hs
          exact h.scheduleCreate hsched
  | hb first second =>
      simp only [buildStep] at hs
      split at hs
      · next hm =>
          obtain ⟨l', hl', rfl⟩ := Option.map_eq_some_iff.mp hs
          exact h.hbCall hm.1 hl'
      · cases hs
  | addOp op =>
      cases hsched : b.sched with
      | none => simp [buildStep, hsched] at hs
      | some s =>
          simp only [buildStep, hsched] at hs
          split at hs
          · next hm =>
              obtain ⟨⟨s', l'⟩, hl', rfl⟩ := Option.map_eq_some_iff.mp hs
              exact h.addOpCall hinv hsched hm (hnew op rfl) hl'
          · cases hs

end Steps

/-- The counters agree after any program that adds no operation twice. -/
theorem degrees_of_run {cap : Nat} {l₀ : Lib} :
    ∀ (cs : List BuildCall) (b : Builder), (∀ x, cs.count (.addOp x) ≤ 1) →
      run (buildStep cap l₀.opid) ⟨none, l₀⟩ cs = some b → Degrees l₀.opid cs b := by
  intro cs
  induction cs using List.reverseRecOn with
  | nil =>
      intro b _ hb
      obtain rfl := Option.some.inj hb
      have hno : ∀ x, ¬ Builder.Member l₀.opid ⟨none, l₀⟩ x := fun x hx =>
        absurd hx.2.1 (Nat.not_lt_of_le hx.1)
      constructor
      · intro _ x hx
        cases hx
      · exact fun x hx => absurd hx (hno x)
      · exact fun x hx => absurd hx (hno x)
      · intro s hs
        cases hs
      · intro s hs
        cases hs
  | append_singleton cs c ih =>
      intro b honce hb
      obtain ⟨m, hm, hc⟩ := run_snoc_eq_some.mp hb
      have hprefix : ∀ x, cs.count (.addOp x) ≤ 1 := by
        intro x
        have := honce x
        rw [List.count_append] at this
        omega
      refine (ih m hprefix hm).step (buildInv_of_run cs m hm) (fun x hx hmem => ?_) hc
      have hone := honce x
      have hpos := List.one_le_count_iff.mpr hmem
      rw [List.count_append, hx, List.count_singleton_self] at hone
      omega

/-! ### Room in the arrays -/

section Room

variable {room cap lo : Nat} {b b' : Builder} {c : BuildCall}

/-- No call takes an entry back. -/
theorem buildStep_out_le (hs : buildStep room lo b c = some b') :
    b.lib.opid ≤ b'.lib.opid ∧ ∀ x, x < b.lib.opid →
      (b.lib.ops x).outDepCount ≤ (b'.lib.ops x).outDepCount := by
  cases c with
  | buffer count datatype =>
      obtain rfl := Option.some.inj hs
      exact ⟨Nat.le_refl _, fun x _ => Nat.le_refl _⟩
  | setState state =>
      obtain ⟨s, _, rfl⟩ := Option.map_eq_some_iff.mp hs
      exact ⟨Nat.le_refl _, fun x _ => Nat.le_refl _⟩
  | setPostCallback cb =>
      obtain ⟨s, _, rfl⟩ := Option.map_eq_some_iff.mp hs
      exact ⟨Nat.le_refl _, fun x _ => Nat.le_refl _⟩
  | setDeleteCallback cb =>
      obtain ⟨s, _, rfl⟩ := Option.map_eq_some_iff.mp hs
      exact ⟨Nat.le_refl _, fun x _ => Nat.le_refl _⟩
  | create body options =>
      obtain rfl := Option.some.inj hs
      refine ⟨Nat.le_succ _, fun x hx => ?_⟩
      rw [newOp_out, if_neg (Nat.ne_of_lt hx)]
  | scheduleCreate =>
      cases hsched : b.sched with
      | some s => simp [buildStep, hsched] at hs
      | none =>
          simp only [buildStep, hsched, Option.some.injEq] at hs
          subst hs
          refine ⟨by simp, fun x hx => ?_⟩
          rw [ffscheduleCreate_ops_of_lt b.lib hx]
  | hb first second =>
      simp only [buildStep] at hs
      split at hs
      · obtain ⟨l', hl', rfl⟩ := Option.map_eq_some_iff.mp hs
        have hg := (ffopHb_spec hl').2.grows
        exact ⟨Nat.le_of_eq hg.opid_eq.symm, fun x _ => hg.out_le x⟩
      · cases hs
  | addOp op =>
      cases hsched : b.sched with
      | none => simp [buildStep, hsched] at hs
      | some s =>
          simp only [buildStep, hsched] at hs
          split at hs
          · next hm =>
              obtain ⟨⟨s', l'⟩, hl', rfl⟩ := Option.map_eq_some_iff.mp hs
              rw [ffscheduleAddOp_eq (hm.2.2 s hsched).1] at hl'
              split at hl'
              · cases hl'
                refine ⟨by simp, fun x _ => ?_⟩
                rw [addOpLib_out]
                omega
              · cases hl'
          · cases hs

/-- A call needs no more room than it leaves filled. -/
theorem buildStep_of_room (hsched : ∀ s, b.sched = some s → SchedOps lo b.lib s)
    (hs : buildStep room lo b c = some b')
    (hroom : ∀ x, lo ≤ x → x < b'.lib.opid → (b'.lib.ops x).outDepCount ≤ cap) :
    buildStep cap lo b c = some b' := by
  cases c with
  | hb first second =>
      simp only [buildStep] at hs ⊢
      split at hs
      · next hm =>
          obtain ⟨l', hl', rfl⟩ := Option.map_eq_some_iff.mp hs
          obtain ⟨hout, sp⟩ := ffopHb_spec hl'
          have hlt := hroom first hm.1.1 (by rw [sp.opid_eq]; exact hm.1.2.1)
          simp only [sp.out_eq, if_true] at hlt
          rw [ffopHb_eq, if_pos hout] at hl'
          rw [if_pos hm, ffopHb_eq, if_pos (by omega), hl']
          rfl
      · cases hs
  | addOp op =>
      cases hsome : b.sched with
      | none => simp [buildStep, hsome] at hs
      | some s =>
          simp only [buildStep, hsome] at hs ⊢
          split at hs
          · next hm =>
              have hne := (hm.2.2 s hsome).1
              obtain ⟨⟨s', l'⟩, hl', rfl⟩ := Option.map_eq_some_iff.mp hs
              rw [ffscheduleAddOp_eq hne] at hl'
              split at hl'
              · cases hl'
                obtain ⟨hblo, hbx⟩ := (hsched s hsome).begin_mem
                have hbegin := hroom s.beginOp hblo (by rw [addOpLib_opid]; exact hbx)
                have hop := hroom op hm.1 (by rw [addOpLib_opid]; exact hm.2.1)
                simp only [addOpLib_out, hne, hne.symm, and_true, and_false, if_false,
                  Nat.add_zero] at hbegin hop
                have hfits : ((b.lib.ops op).inDepCount = 0 →
                      (b.lib.ops s.beginOp).outDepCount < cap) ∧
                    ((b.lib.ops op).outDepCount = 0 → 0 < cap) := by
                  constructor
                  · intro h0
                    rw [if_pos h0] at hbegin
                    omega
                  · intro h0
                    rw [if_pos h0] at hop
                    omega
                rw [if_pos hm, ffscheduleAddOp_eq hne, if_pos hfits]
                rfl
              · cases hl'
          · cases hs
  | _ => exact hs

/-- A program runs with any arrays that have room for what it stores. -/
theorem run_of_room {l₀ : Lib} :
    ∀ (cs : List BuildCall) (b : Builder),
      run (buildStep room l₀.opid) ⟨none, l₀⟩ cs = some b →
      (∀ x, l₀.opid ≤ x → x < b.lib.opid → (b.lib.ops x).outDepCount ≤ cap) →
      run (buildStep cap l₀.opid) ⟨none, l₀⟩ cs = some b := by
  intro cs
  induction cs using List.reverseRecOn with
  | nil => exact fun b hb _ => hb
  | append_singleton cs c ih =>
      intro b hb hroom
      obtain ⟨m, hm, hc⟩ := run_snoc_eq_some.mp hb
      obtain ⟨hopid, hle⟩ := buildStep_out_le hc
      have hm' := ih m hm fun x hlo hx => (hle x hx).trans (hroom x hlo (hx.trans_le hopid))
      exact run_snoc_eq_some.mpr
        ⟨m, hm', buildStep_of_room (buildInv_of_run cs m hm).sched hc hroom⟩

end Room

/-! ### The law -/

/-- A program that wires a schedule: its calls are on its own operations, with arrays of some
size it runs to its end, every member is added once, and the `ffop_hb` calls have no cycle. -/
structure WiringProgram (l₀ : Lib) (cs : List BuildCall) : Prop where
  runs : ∃ room s l, run (buildStep room l₀.opid) ⟨none, l₀⟩ cs = some ⟨some s, l⟩ ∧
    ∀ x, Builder.Member l₀.opid ⟨some s, l⟩ x → cs.count (.addOp x) = 1
  acyclic : ∀ x, ¬ Relation.TransGen (fun a c => BuildCall.hb a c ∈ cs) x x

/-- The calls stay inside the arrays, and in the graph `end_op` is reachable from `begin_op`,
every member is between them, and the order of the members is that of the `ffop_hb` calls. -/
def WiringLaw (cap : Nat) (l₀ : Lib) (cs : List BuildCall) : Prop :=
  ∃ s l, run (buildStep cap l₀.opid) ⟨none, l₀⟩ cs = some ⟨some s, l⟩ ∧
    Relation.TransGen (WireEdge l₀.opid l) s.beginOp s.endOp ∧
    (∀ x, Builder.Member l₀.opid ⟨some s, l⟩ x →
      Relation.TransGen (WireEdge l₀.opid l) s.beginOp x ∧
        Relation.TransGen (WireEdge l₀.opid l) x s.endOp) ∧
    ∀ x y, Builder.Member l₀.opid ⟨some s, l⟩ x → Builder.Member l₀.opid ⟨some s, l⟩ y →
      (Relation.TransGen (WireEdge l₀.opid l) x y ↔
        Relation.TransGen (fun a c => BuildCall.hb a c ∈ cs) x y)

section Law

variable {cap : Nat} {l₀ : Lib} {cs : List BuildCall}

theorem WiringProgram.count_le (h : WiringProgram l₀ cs) (x : Nat) :
    cs.count (.addOp x) ≤ 1 := by
  obtain ⟨room, s, l, hrun, honce⟩ := h.runs
  by_cases hmem : BuildCall.addOp x ∈ cs
  · rw [honce x ((buildInv_of_run cs _ hrun).added x hmem).1]
  · rw [List.count_eq_zero_of_not_mem hmem]
    omega

/-- The entries that the calls need are there. -/
def FitsArrays (cap : Nat) (cs : List BuildCall) : Prop :=
  beginDependents cs ≤ cap ∧ ∀ x, .addOp x ∈ cs → dependentsOf cs x ≤ cap

/-- A program stays inside the arrays when they have room. -/
theorem WiringProgram.wiring (h : WiringProgram l₀ cs) (hroom : FitsArrays cap cs) :
    ∃ s l, WiringBuilt cap l₀ cs s l := by
  obtain ⟨room, s, l, hrun, honce⟩ := h.runs
  have hdeg := degrees_of_run cs _ h.count_le hrun
  refine ⟨s, l, run_of_room cs _ hrun (fun x hlo hx => ?_), honce, h.acyclic⟩
  by_cases hb : x = s.beginOp
  · rw [hb, hdeg.begin s rfl]
    exact hroom.1
  · by_cases he : x = s.endOp
    · rw [he, hdeg.last s rfl]
      exact Nat.zero_le _
    · have hm : Builder.Member l₀.opid ⟨some s, l⟩ x := member_some.mpr ⟨hlo, hx, hb, he⟩
      have hmem : BuildCall.addOp x ∈ cs := by
        rw [← List.one_le_count_iff, honce x hm]
      rw [hdeg.out x hm]
      exact hroom.2 x hmem

/-- A program that has run has stayed inside the arrays. -/
theorem WiringProgram.fitsArrays (h : WiringProgram l₀ cs) {s : FfSchedule} {l : Lib}
    (hrun : run (buildStep cap l₀.opid) ⟨none, l₀⟩ cs = some ⟨some s, l⟩) : FitsArrays cap cs := by
  have hinv := buildInv_of_run cs _ hrun
  have hdeg := degrees_of_run cs _ h.count_le hrun
  obtain ⟨hlo, hx⟩ := (hinv.sched s rfl).begin_mem
  constructor
  · rw [← hdeg.begin s rfl]
    exact hinv.lib.out_le _ hlo hx
  · intro x hmem
    have hm := (hinv.added x hmem).1
    rw [← hdeg.out x hm]
    exact hinv.lib.out_le x hm.1 hm.2.1

/-- An edge leads from `begin_op` only to a member that is added. -/
theorem exists_addOp_of_begin {s : FfSchedule} {l : Lib}
    (hinv : BuildInv cap l₀.opid cs ⟨some s, l⟩) {d : Nat}
    (h : WireEdge l₀.opid l s.beginOp d) : ∃ x, .addOp x ∈ cs := by
  cases hinv.lib.edge _ _ h.1.1 h.1.2 h.2 with
  | hb _ hp => exact absurd rfl hp.ne_ends.1
  | fromBegin _ _ _ hadd => exact ⟨_, hadd⟩
  | toEnd _ hp => exact absurd rfl hp.ne_ends.1

/-- The graph of a wired schedule is as it should be iff an operation is added, and no
operation gets more dependents than an array holds. -/
theorem wiringLaw_iff (h : WiringProgram l₀ cs) :
    WiringLaw cap l₀ cs ↔ (∃ x, .addOp x ∈ cs) ∧ FitsArrays cap cs := by
  constructor
  · rintro ⟨s, l, hrun, hends, _⟩
    obtain ⟨d, hd, _⟩ := Relation.TransGen.head'_iff.mp hends
    exact ⟨exists_addOp_of_begin (buildInv_of_run cs _ hrun) hd, h.fitsArrays hrun⟩
  · rintro ⟨⟨x, hx⟩, hroom⟩
    obtain ⟨s, l, hw⟩ := h.wiring hroom
    have hm := (hw.inv.added x hx).1
    exact ⟨s, l, hw.built, (hw.begin_reaches_member hm).trans (hw.member_reaches_end hm),
      fun y hy => ⟨hw.begin_reaches_member hy, hw.member_reaches_end hy⟩,
      fun y z hy hz => hw.order_iff hy hz⟩

end Law

/-! ### Two programs -/

/-- Two operations, the first one added before it gets its dependent. -/
def twoOpCalls : List BuildCall :=
  [.create .nop 0, .create .nop 0, .scheduleCreate, .addOp 0, .hb 0 1, .addOp 1]

theorem wiringProgram_twoOpCalls : WiringProgram Lib.init twoOpCalls := by
  refine ⟨⟨maxDeps, _, _, rfl, fun x hx => ?_⟩, acyclic_of_lt id fun a b hab => ?_⟩
  · have hlt : x < 4 := hx.2.1
    have hbegin : x ≠ 2 := hx.ne_ends.1
    have hend : x ≠ 3 := hx.ne_ends.2
    obtain rfl | rfl : x = 0 ∨ x = 1 := by omega
    · rfl
    · rfl
  · simp [twoOpCalls] at hab
    simp [hab.1, hab.2]

theorem wiringLaw_iff_twoOps :
    WiringLaw maxDeps Lib.init twoOpCalls ↔
      (∃ x, .addOp x ∈ twoOpCalls) ∧ FitsArrays maxDeps twoOpCalls :=
  wiringLaw_iff wiringProgram_twoOpCalls

/-- A schedule that is created and gets no operation. -/
theorem wiringLaw_fails :
    ¬ ∀ (l₀ : Lib) (cs : List BuildCall), WiringProgram l₀ cs → WiringLaw maxDeps l₀ cs := by
  intro hall
  have hprog : WiringProgram Lib.init [.scheduleCreate] := by
    refine ⟨⟨maxDeps, _, _, rfl, fun x hx => ?_⟩, acyclic_of_lt id fun a b hab => ?_⟩
    · have hlt : x < 2 := hx.2.1
      have hbegin : x ≠ 0 := hx.ne_ends.1
      have hend : x ≠ 1 := hx.ne_ends.2
      omega
    · simp at hab
  obtain ⟨s, l, hrun, hends, _⟩ := hall _ _ hprog
  obtain ⟨d, hd, _⟩ := Relation.TransGen.head'_iff.mp hends
  obtain ⟨x, hx⟩ := exists_addOp_of_begin (buildInv_of_run _ _ hrun) hd
  simp at hx

end Fflib
