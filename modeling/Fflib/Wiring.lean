import Fflib.Schedule
import Fflib.Library.Countdown

/-!
# The graph of a built schedule

`BuildInv` is kept by every call of a program that builds a schedule
(`BuildInv.step`), and so holds of what the program has built.  For a finished
schedule (`ScheduleBuilt`: one `ffschedule_add_op` per member, acyclic
`ffop_hb` calls, at least one member) the module derives the facts about its
graph that an execution needs:

* `ScheduleBuilt.wellFounded`: the graph is acyclic;
* `ScheduleBuilt.entered`: every operation but `begin_op` has a predecessor;
* `ScheduleBuilt.reaches_end`: `end_op` is reachable from every operation.
-/

namespace Fflib

open Library

/-- Where an edge of the graph comes from: a call of `ffop_hb`, or the
`ffschedule_add_op` of one of its ends. -/
inductive EdgeOrigin (lo : Nat) (cs : List BuildCall) (b : Builder) (p d : Nat) : Prop where
  | hb (hcall : .hb p d ∈ cs) (hp : b.Member lo p) (hd : b.Member lo d)
  | fromBegin {s : FfSchedule} (hs : b.sched = some s) (hp : p = s.beginOp)
      (hd : b.Member lo d) (hadd : .addOp d ∈ cs)
  | toEnd {s : FfSchedule} (hs : b.sched = some s) (hp : b.Member lo p)
      (hd : d = s.endOp) (hadd : .addOp p ∈ cs)

/-- The two operations that `ffschedule_create` makes. -/
structure SchedOps (lo : Nat) (l : Lib) (s : FfSchedule) : Prop where
  begin_mem : lo ≤ s.beginOp ∧ s.beginOp < l.opid
  end_mem : lo ≤ s.endOp ∧ s.endOp < l.opid
  begin_ne_end : s.beginOp ≠ s.endOp
  begin_nop : (l.ops s.beginOp).body = .nop
  end_nop : (l.ops s.endOp).body = .nop

/-- What holds after the calls `cs`. -/
structure BuildInv (cap lo : Nat) (cs : List BuildCall) (b : Builder) : Prop where
  lib : LibInv cap lo (EdgeOrigin lo cs b) b.lib
  sched : ∀ s, b.sched = some s → SchedOps lo b.lib s
  hb : ∀ a c, .hb a c ∈ cs → b.Member lo a ∧ b.Member lo c ∧ b.lib.HasEdge a c
  added : ∀ x, .addOp x ∈ cs →
    b.Member lo x ∧ 0 < (b.lib.ops x).inDepCount ∧ 0 < (b.lib.ops x).outDepCount
  options : (∀ body o, .create body o ∈ cs → DefaultOptions o) →
    ∀ x, lo ≤ x → x < b.lib.opid → DefaultOptions (b.lib.ops x).options

/-- The handles of `b` keep their meaning in `b'`. -/
structure Builder.Extends (lo : Nat) (b b' : Builder) : Prop where
  member : ∀ x, b.Member lo x → b'.Member lo x
  sched : ∀ s, b.sched = some s →
    ∃ s', b'.sched = some s' ∧ s'.beginOp = s.beginOp ∧ s'.endOp = s.endOp

section Steps

variable {cap lo : Nat} {cs : List BuildCall} {b b' : Builder}

theorem EdgeOrigin.mono (hx : b.Extends lo b') {cs' : List BuildCall}
    (hcs : ∀ c, c ∈ cs → c ∈ cs') {p d : Nat} (h : EdgeOrigin lo cs b p d) :
    EdgeOrigin lo cs' b' p d := by
  cases h with
  | hb hcall hp hd =>
      exact .hb (hcs _ hcall) (hx.member _ hp) (hx.member _ hd)
  | fromBegin hs hp hd hadd =>
      obtain ⟨s', hs', hb, _⟩ := hx.sched _ hs
      exact .fromBegin hs' (hp.trans hb.symm) (hx.member _ hd) (hcs _ hadd)
  | toEnd hs hp hd hadd =>
      obtain ⟨s', hs', _, he⟩ := hx.sched _ hs
      exact .toEnd hs' (hx.member _ hp) (hd.trans he.symm) (hcs _ hadd)

/-- What was wired stays wired when operations are created. -/
theorem BuildInv.carry (h : BuildInv cap lo cs b) (hext : b.Extends lo b')
    (hold : ∀ x, x < b.lib.opid → b'.lib.ops x = b.lib.ops x) :
    (∀ a c, .hb a c ∈ cs → b'.Member lo a ∧ b'.Member lo c ∧ b'.lib.HasEdge a c) ∧
      ∀ x, .addOp x ∈ cs →
        b'.Member lo x ∧ 0 < (b'.lib.ops x).inDepCount ∧ 0 < (b'.lib.ops x).outDepCount := by
  constructor
  · intro a c hc
    obtain ⟨ha, hcm, he⟩ := h.hb a c hc
    refine ⟨hext.member a ha, hext.member c hcm, ?_⟩
    simpa only [Lib.HasEdge, hold a ha.2.1] using he
  · intro x hx
    obtain ⟨hm, hi, ho⟩ := h.added x hx
    refine ⟨hext.member x hm, ?_⟩
    rw [hold x hm.2.1]
    exact ⟨hi, ho⟩

/-! ### The four kinds of calls -/

theorem BuildInv.create (h : BuildInv cap lo cs b) (body : FfopBody) (options : Nat) :
    BuildInv cap lo (cs ++ [.create body options])
      { b with lib := (newOp body (fun _ => options) b.lib).2 } := by
  have hold : ∀ x, x < b.lib.opid →
      (newOp body (fun _ => options) b.lib).2.ops x = b.lib.ops x :=
    fun x hx => newOp_ops_of_ne _ _ _ (by omega)
  have hext : b.Extends lo { b with lib := (newOp body (fun _ => options) b.lib).2 } :=
    ⟨fun x ⟨h1, h2, h3⟩ => ⟨h1, Nat.lt_succ_of_lt h2, h3⟩, fun s hs => ⟨s, hs, rfl, rfl⟩⟩
  have hsub : ∀ c, c ∈ cs → c ∈ cs ++ [.create body options] :=
    fun c hc => List.mem_append_left _ hc
  constructor
  · exact (h.lib.create body (fun _ => options)).mono (fun p c he => he.mono hext hsub)
  · intro s hs
    obtain ⟨h1, h2, h3, h4, h5⟩ := h.sched s hs
    refine ⟨⟨h1.1, Nat.lt_succ_of_lt h1.2⟩, ⟨h2.1, Nat.lt_succ_of_lt h2.2⟩, h3, ?_, ?_⟩
    · rw [hold _ h1.2]; exact h4
    · rw [hold _ h2.2]; exact h5
  · intro a c hc
    exact (h.carry hext hold).1 a c (by simpa using hc)
  · intro x hx
    exact (h.carry hext hold).2 x (by simpa using hx)
  · intro hdef x hlo hx
    by_cases hxo : x < b.lib.opid
    · rw [hold x hxo]
      exact h.options (fun body' o' ho' => hdef body' o' (hsub _ ho')) x hlo hxo
    · have hxe : x = b.lib.opid := by
        rw [newOp_opid] at hx
        omega
      rw [hxe, (newOp_fresh body (fun _ => options) b.lib).options_eq]
      exact hdef body options (by simp)

theorem BuildInv.scheduleCreate (h : BuildInv cap lo cs b) (hnone : b.sched = none) :
    BuildInv cap lo (cs ++ [.scheduleCreate])
      ⟨some (ffscheduleCreate b.lib).1, (ffscheduleCreate b.lib).2⟩ := by
  have hold : ∀ x, x < b.lib.opid → (ffscheduleCreate b.lib).2.ops x = b.lib.ops x :=
    fun x hx => ffscheduleCreate_ops_of_lt b.lib hx
  have hext : b.Extends lo ⟨some (ffscheduleCreate b.lib).1, (ffscheduleCreate b.lib).2⟩ := by
    refine ⟨fun x hx => ⟨hx.1, ?_, fun s hs => ?_⟩, fun s hs => ?_⟩
    · have := hx.2.1
      simp only [ffscheduleCreate_opid]
      omega
    · obtain rfl := Option.some.inj hs
      have := hx.2.1
      simp only [ffscheduleCreate_beginOp, ffscheduleCreate_endOp]
      omega
    · rw [hnone] at hs; cases hs
  have hsub : ∀ c, c ∈ cs → c ∈ cs ++ [.scheduleCreate] :=
    fun c hc => List.mem_append_left _ hc
  have hlo := h.lib.lo_le
  constructor
  · exact h.lib.scheduleCreate.mono (fun p c he => he.mono hext hsub)
  · intro s hs
    obtain rfl := Option.some.inj hs
    refine ⟨⟨hlo, ?_⟩, ⟨?_, ?_⟩, ?_, ?_, ?_⟩
    · simp
    · simp only [ffscheduleCreate_endOp]; omega
    · simp
    · simp
    · exact (ffscheduleCreate_begin_fresh b.lib).body_eq
    · exact (ffscheduleCreate_end_fresh b.lib).body_eq
  · intro a c hc
    exact (h.carry hext hold).1 a c (by simpa using hc)
  · intro x hx
    exact (h.carry hext hold).2 x (by simpa using hx)
  · intro hdef x hlo hx
    by_cases hxo : x < b.lib.opid
    · simp only [hold x hxo]
      exact h.options (fun body' o' ho' => hdef body' o' (hsub _ ho')) x hlo hxo
    · simp only [ffscheduleCreate_opid] at hx
      have hxe : x = b.lib.opid ∨ x = b.lib.opid + 1 := by omega
      rcases hxe with rfl | rfl
      · simp only [(ffscheduleCreate_begin_fresh b.lib).options_eq]; decide
      · simp only [(ffscheduleCreate_end_fresh b.lib).options_eq]; decide

/-- What is left to show for a call that creates nothing. -/
theorem BuildInv.snoc (h : BuildInv cap lo cs b) {c : BuildCall}
    (hg : b.lib.Grows b'.lib) (hext : b.Extends lo b')
    (hlib : LibInv cap lo (EdgeOrigin lo (cs ++ [c]) b') b'.lib)
    (hsched : ∀ s', b'.sched = some s' →
      ∃ s, b.sched = some s ∧ s'.beginOp = s.beginOp ∧ s'.endOp = s.endOp)
    (hhb : ∀ a d, c = .hb a d → b'.Member lo a ∧ b'.Member lo d ∧ b'.lib.HasEdge a d)
    (hadd : ∀ x, c = .addOp x →
      b'.Member lo x ∧ 0 < (b'.lib.ops x).inDepCount ∧ 0 < (b'.lib.ops x).outDepCount) :
    BuildInv cap lo (cs ++ [c]) b' := by
  constructor
  · exact hlib
  · intro s' hs'
    obtain ⟨s, hs, hb, he⟩ := hsched s' hs'
    obtain ⟨h1, h2, h3, h4, h5⟩ := h.sched s hs
    refine ⟨?_, ?_, ?_, ?_, ?_⟩
    · rw [hb, hg.opid_eq]; exact h1
    · rw [he, hg.opid_eq]; exact h2
    · rw [hb, he]; exact h3
    · rw [hb, hg.body_eq]; exact h4
    · rw [he, hg.body_eq]; exact h5
  · intro a d hc
    rcases List.mem_append.mp hc with hc | hc
    · obtain ⟨ha, hd, he⟩ := h.hb a d hc
      exact ⟨hext.member a ha, hext.member d hd, hg.edge a d he⟩
    · exact hhb a d (List.mem_singleton.mp hc).symm
  · intro x hx
    rcases List.mem_append.mp hx with hx | hx
    · obtain ⟨hm, hi, ho⟩ := h.added x hx
      exact ⟨hext.member x hm, hi.trans_le (hg.in_le x), ho.trans_le (hg.out_le x)⟩
    · exact hadd x (List.mem_singleton.mp hx).symm
  · intro hdef x hlo hx
    rw [hg.options_eq]
    rw [hg.opid_eq] at hx
    exact h.options (fun body o ho => hdef body o (List.mem_append_left _ ho)) x hlo hx

theorem BuildInv.hbCall (h : BuildInv cap lo cs b) {first second : Nat} {l' : Lib}
    (hf : b.Member lo first) (hs : b.Member lo second)
    (hhb : ffopHb cap first second b.lib = some l') :
    BuildInv cap lo (cs ++ [.hb first second]) { b with lib := l' } := by
  obtain ⟨_, sp⟩ := ffopHb_spec hhb
  have hext : b.Extends lo { b with lib := l' } := by
    refine ⟨fun x hx => ⟨hx.1, ?_, hx.2.2⟩, fun s hs => ⟨s, hs, rfl, rfl⟩⟩
    simp only [sp.opid_eq]; exact hx.2.1
  have hlib : LibInv cap lo (EdgeOrigin lo (cs ++ [.hb first second])
      { b with lib := l' }) b.lib :=
    h.lib.mono (fun p c he => he.mono hext (fun c hc => List.mem_append_left _ hc))
  refine h.snoc sp.grows hext (hlib.hb hhb ⟨hf.1, hf.2.1⟩ ⟨hs.1, hs.2.1⟩ ?_)
    (fun s' hs' => ⟨s', hs', rfl, rfl⟩) ?_ (fun x hx => by cases hx)
  · exact .hb (by simp) (hext.member _ hf) (hext.member _ hs)
  · intro a d hc
    obtain ⟨rfl, rfl⟩ : first = a ∧ second = d := by simpa using hc
    exact ⟨hext.member _ hf, hext.member _ hs, (hasEdge_hb sp).mpr (Or.inr ⟨rfl, rfl⟩)⟩

theorem BuildInv.addOpCall (h : BuildInv cap lo cs b) {op : Nat} {s s' : FfSchedule}
    {l' : Lib} (hsome : b.sched = some s) (hm : b.Member lo op)
    (hadd : ffscheduleAddOp cap s op b.lib = some (s', l')) :
    BuildInv cap lo (cs ++ [.addOp op]) ⟨some s', l'⟩ := by
  obtain ⟨rfl, l₁, h₁, h₂⟩ := ffscheduleAddOp_spec hadd
  obtain ⟨hbm, hem, hbe, _, _⟩ := h.sched s hsome
  set l₀ : Lib := b.lib.setSchedNext op s.oplist with hl₀
  have hg₀ : b.lib.Grows l₀ := setSchedNext_grows b.lib op s.oplist
  have hin₀ : (l₀.ops op).inDepCount = (b.lib.ops op).inDepCount := by
    rw [hl₀, setSchedNext_ops]
  have hg₁ : l₀.Grows l₁ := by
    rcases condHb_cases h₁ with ⟨_, hhb⟩ | ⟨_, rfl⟩
    · exact (ffopHb_spec hhb).2.grows
    · exact Lib.Grows.refl _
  have hg₂ : l₁.Grows l' := by
    rcases condHb_cases h₂ with ⟨_, hhb⟩ | ⟨_, rfl⟩
    · exact (ffopHb_spec hhb).2.grows
    · exact Lib.Grows.refl _
  have hg := (hg₀.trans hg₁).trans hg₂
  have hext : b.Extends lo ⟨some { s with oplist := some op }, l'⟩ := by
    refine ⟨fun x hx => ⟨hx.1, ?_, fun t ht => ?_⟩, fun t ht => ?_⟩
    · simp only [hg.opid_eq]; exact hx.2.1
    · obtain rfl := Option.some.inj ht
      exact hx.2.2 s hsome
    · obtain rfl := Option.some.inj (hsome.symm.trans ht)
      exact ⟨_, rfl, rfl, rfl⟩
  have hlib₀ : LibInv cap lo (EdgeOrigin lo (cs ++ [.addOp op])
      ⟨some { s with oplist := some op }, l'⟩) l₀ :=
    (h.lib.mono (fun p c he => he.mono hext
      (fun c hc => List.mem_append_left _ hc))).setSchedNext op s.oplist
  have hlib₁ : LibInv cap lo (EdgeOrigin lo (cs ++ [.addOp op])
      ⟨some { s with oplist := some op }, l'⟩) l₁ := by
    rcases condHb_cases h₁ with ⟨_, hhb⟩ | ⟨_, rfl⟩
    · refine hlib₀.hb hhb ?_ ?_ (.fromBegin rfl rfl (hext.member _ hm) (by simp))
      · rw [hg₀.opid_eq]; exact hbm
      · rw [hg₀.opid_eq]; exact ⟨hm.1, hm.2.1⟩
    · exact hlib₀
  have hlib₂ : LibInv cap lo (EdgeOrigin lo (cs ++ [.addOp op])
      ⟨some { s with oplist := some op }, l'⟩) l' := by
    rcases condHb_cases h₂ with ⟨_, hhb⟩ | ⟨_, rfl⟩
    · refine hlib₁.hb hhb ?_ ?_ (.toEnd rfl (hext.member _ hm) rfl (by simp))
      · rw [hg₁.opid_eq, hg₀.opid_eq]; exact ⟨hm.1, hm.2.1⟩
      · rw [hg₁.opid_eq, hg₀.opid_eq]; exact hem
    · exact hlib₁
  refine h.snoc hg hext hlib₂ (fun t ht => ?_) (fun a d hc => by cases hc) (fun x hx => ?_)
  · obtain rfl := Option.some.inj ht
    exact ⟨s, hsome, rfl, rfl⟩
  · obtain rfl : op = x := by simpa using hx
    refine ⟨hext.member _ hm, ?_, ?_⟩
    · have hpos : 0 < (l₁.ops op).inDepCount := by
        rcases condHb_cases h₁ with ⟨_, hhb⟩ | ⟨hne, rfl⟩
        · rw [(ffopHb_spec hhb).2.in_eq]; simp
        · rw [hin₀]; exact Nat.pos_of_ne_zero hne
      exact hpos.trans_le (hg₂.in_le op)
    · rcases condHb_cases h₂ with ⟨_, hhb⟩ | ⟨hne, rfl⟩
      · rw [(ffopHb_spec hhb).2.out_eq]; simp
      · exact Nat.pos_of_ne_zero hne

/-- A call that leaves the operations alone and keeps the schedule's two. -/
theorem BuildInv.keepOps (h : BuildInv cap lo cs b) {c : BuildCall}
    (hops : b'.lib.ops = b.lib.ops) (hopid : b'.lib.opid = b.lib.opid)
    (hsched : ∀ s', b'.sched = some s' →
      ∃ s, b.sched = some s ∧ s'.beginOp = s.beginOp ∧ s'.endOp = s.endOp)
    (hkeep : ∀ s, b.sched = some s →
      ∃ s', b'.sched = some s' ∧ s'.beginOp = s.beginOp ∧ s'.endOp = s.endOp)
    (hc : (∀ body o, c ≠ .create body o) ∧ (∀ a d, c ≠ .hb a d) ∧ ∀ x, c ≠ .addOp x) :
    BuildInv cap lo (cs ++ [c]) b' := by
  have hmem : ∀ {c' : BuildCall}, c' ∈ cs ++ [c] → c' ≠ c → c' ∈ cs := by
    intro c' hc' hne
    rcases List.mem_append.mp hc' with h' | h'
    · exact h'
    · exact absurd (List.mem_singleton.mp h') hne
  have hext : b.Extends lo b' := by
    refine ⟨fun x hx => ⟨hx.1, ?_, fun t ht => ?_⟩, hkeep⟩
    · rw [hopid]; exact hx.2.1
    · obtain ⟨s, hs, hb, he⟩ := hsched t ht
      rw [hb, he]
      exact hx.2.2 s hs
  have hedge : ∀ a d, b'.lib.HasEdge a d ↔ b.lib.HasEdge a d := by
    intro a d
    simp only [Lib.HasEdge, hops]
  constructor
  · exact (h.lib.mono (fun p d he =>
      he.mono hext (fun c' hc' => List.mem_append_left [c] hc'))).congr
      (fun x => ⟨_, congrFun hops x⟩) hopid
  · intro s' hs'
    obtain ⟨s, hs, hb, he⟩ := hsched s' hs'
    obtain ⟨h1, h2, h3, h4, h5⟩ := h.sched s hs
    refine ⟨?_, ?_, ?_, ?_, ?_⟩
    · rw [hb, hopid]; exact h1
    · rw [he, hopid]; exact h2
    · rw [hb, he]; exact h3
    · rw [hb, hops]; exact h4
    · rw [he, hops]; exact h5
  · intro a d hd
    obtain ⟨ha, hd', he⟩ := h.hb a d (hmem hd (Ne.symm (hc.2.1 a d)))
    exact ⟨hext.member a ha, hext.member d hd', (hedge a d).mpr he⟩
  · intro x hx
    obtain ⟨hm, hi, ho⟩ := h.added x (hmem hx (Ne.symm (hc.2.2 x)))
    refine ⟨hext.member x hm, ?_⟩
    rw [hops]
    exact ⟨hi, ho⟩
  · intro hdef x hlo hx
    rw [hops]
    rw [hopid] at hx
    exact h.options (fun body o ho => hdef body o (List.mem_append_left _ ho)) x hlo hx

/-- A setter of the schedule keeps the invariant. -/
theorem BuildInv.setter (h : BuildInv cap lo cs b) {c : BuildCall} (f : FfSchedule → FfSchedule)
    (hf : ∀ s, (f s).beginOp = s.beginOp ∧ (f s).endOp = s.endOp)
    (hs : b.sched.map (fun s => { b with sched := some (f s) }) = some b')
    (hc : (∀ body o, c ≠ .create body o) ∧ (∀ a d, c ≠ .hb a d) ∧ ∀ x, c ≠ .addOp x) :
    BuildInv cap lo (cs ++ [c]) b' := by
  obtain ⟨s, hsome, rfl⟩ := Option.map_eq_some_iff.mp hs
  refine h.keepOps rfl rfl (fun s' hs' => ?_) (fun t ht => ?_) hc
  · obtain rfl := Option.some.inj hs'
    exact ⟨s, hsome, hf s⟩
  · obtain rfl := Option.some.inj (hsome.symm.trans ht)
    exact ⟨_, rfl, hf s⟩

/-- Every call keeps the invariant. -/
theorem BuildInv.step (h : BuildInv cap lo cs b) {c : BuildCall}
    (hs : buildStep cap lo b c = some b') : BuildInv cap lo (cs ++ [c]) b' := by
  cases c with
  | buffer count datatype =>
      obtain rfl := Option.some.inj hs
      exact h.keepOps rfl rfl (fun s hs => ⟨s, hs, rfl, rfl⟩) (fun s hs => ⟨s, hs, rfl, rfl⟩)
        (by simp)
  | setState state =>
      exact h.setter (fun s => ffscheduleSetState s state) (fun _ => ⟨rfl, rfl⟩) hs (by simp)
  | setPostCallback cb =>
      exact h.setter (fun s => ffscheduleSetPostCallback s cb) (fun _ => ⟨rfl, rfl⟩) hs (by simp)
  | setDeleteCallback cb =>
      exact h.setter (fun s => ffscheduleSetDeleteCallback s cb) (fun _ => ⟨rfl, rfl⟩) hs (by simp)
  | create body options =>
      obtain rfl := Option.some.inj hs
      exact h.create body options
  | scheduleCreate =>
      cases hsched : b.sched with
      | some s => simp [buildStep, hsched] at hs
      | none =>
          simp only [buildStep, hsched, Option.some.injEq] at hs
          subst hs
          exact h.scheduleCreate hsched
  | hb first second =>
      simp only [buildStep] at hs
      split at hs
      · next hm =>
          obtain ⟨l', hl', rfl⟩ := Option.map_eq_some_iff.mp hs
          exact h.hbCall hm.1 hm.2 hl'
      · cases hs
  | addOp op =>
      cases hsched : b.sched with
      | none => simp [buildStep, hsched] at hs
      | some s =>
          simp only [buildStep, hsched] at hs
          split at hs
          · next hm =>
              obtain ⟨⟨s', l'⟩, hl', rfl⟩ := Option.map_eq_some_iff.mp hs
              exact h.addOpCall hsched hm hl'
          · cases hs

end Steps

theorem buildInv_nil (cap : Nat) (l₀ : Lib) : BuildInv cap l₀.opid [] ⟨none, l₀⟩ := by
  constructor
  · exact libInv_empty cap _ l₀
  · intro s hs; cases hs
  · intro a c hc; simp at hc
  · intro x hx; simp at hx
  · intro _ x hlo hx
    exact absurd hx (by simp only; omega)

/-- The invariant holds of what any sequence of calls has built. -/
theorem buildInv_of_run {cap : Nat} {l₀ : Lib} :
    ∀ (cs : List BuildCall) (b : Builder),
      run (buildStep cap l₀.opid) ⟨none, l₀⟩ cs = some b → BuildInv cap l₀.opid cs b := by
  intro cs
  induction cs using List.reverseRecOn with
  | nil =>
      intro b hb
      obtain rfl := Option.some.inj hb
      exact buildInv_nil cap l₀
  | append_singleton cs c ih =>
      intro b hb
      obtain ⟨m, hm, hc⟩ := run_snoc_eq_some.mp hb
      exact (ih m hm).step hc

/-! ### Paths -/

/-- `d` is stored in the `dependent` array of `p`, which is one of the program's operations. -/
def WireEdge (lo : Nat) (l : Lib) (p d : Nat) : Prop :=
  (lo ≤ p ∧ p < l.opid) ∧ l.HasEdge p d

/-- The program `cs` has wired the schedule `s`: every member is added once, and the calls of
`ffop_hb` have no cycle. -/
structure WiringBuilt (cap : Nat) (l₀ : Lib) (cs : List BuildCall) (s : FfSchedule) (l : Lib) :
    Prop where
  built : run (buildStep cap l₀.opid) ⟨none, l₀⟩ cs = some ⟨some s, l⟩
  added_once : ∀ x, Builder.Member l₀.opid ⟨some s, l⟩ x → cs.count (.addOp x) = 1
  acyclic : ∀ x, ¬ Relation.TransGen (fun a c => BuildCall.hb a c ∈ cs) x x

theorem Builder.Member.ne_ends {lo : Nat} {s : FfSchedule} {l : Lib} {x : Nat}
    (hm : Builder.Member lo ⟨some s, l⟩ x) : x ≠ s.beginOp ∧ x ≠ s.endOp :=
  hm.2.2 s rfl

namespace WiringBuilt

variable {cap : Nat} {l₀ l : Lib} {cs : List BuildCall} {s : FfSchedule}
  (h : WiringBuilt cap l₀ cs s l)
include h

theorem inv : BuildInv cap l₀.opid cs ⟨some s, l⟩ := buildInv_of_run cs _ h.built

theorem schedOps : SchedOps l₀.opid l s := h.inv.sched s rfl

theorem added_mem {x : Nat} (hm : Builder.Member l₀.opid ⟨some s, l⟩ x) :
    BuildCall.addOp x ∈ cs := by
  rw [← List.one_le_count_iff, h.added_once x hm]

theorem origin {p d : Nat} (hp : WireEdge l₀.opid l p d) :
    EdgeOrigin l₀.opid cs ⟨some s, l⟩ p d :=
  h.inv.lib.edge p d hp.1.1 hp.1.2 hp.2

theorem edge_of_hb {a c : Nat} (hc : .hb a c ∈ cs) : WireEdge l₀.opid l a c := by
  obtain ⟨ha, _, he⟩ := h.inv.hb a c hc
  exact ⟨⟨ha.1, ha.2.1⟩, he⟩

theorem no_edge_begin {p : Nat} : ¬ WireEdge l₀.opid l p s.beginOp := by
  intro hp
  cases h.origin hp with
  | hb _ _ hd => exact hd.ne_ends.1 rfl
  | fromBegin _ _ hd => exact hd.ne_ends.1 rfl
  | toEnd ht _ hd =>
      obtain rfl := Option.some.inj ht
      exact h.schedOps.begin_ne_end hd

theorem no_edge_of_end {d : Nat} : ¬ WireEdge l₀.opid l s.endOp d := by
  intro hp
  cases h.origin hp with
  | hb _ he => exact he.ne_ends.2 rfl
  | fromBegin ht he =>
      obtain rfl := Option.some.inj ht
      exact h.schedOps.begin_ne_end he.symm
  | toEnd _ he => exact he.ne_ends.2 rfl

/-- A path leads from `begin_op`, to `end_op`, or along `ffop_hb` edges only. -/
theorem path_cases {x y : Nat} (hp : Relation.TransGen (WireEdge l₀.opid l) x y) :
    x = s.beginOp ∨ y = s.endOp ∨
      Relation.TransGen (fun a c => BuildCall.hb a c ∈ cs) x y := by
  have hedge : ∀ {a c}, WireEdge l₀.opid l a c →
      a = s.beginOp ∨ c = s.endOp ∨ BuildCall.hb a c ∈ cs := by
    intro a c hac
    cases h.origin hac with
    | hb hc => exact Or.inr (Or.inr hc)
    | fromBegin ht ha =>
        obtain rfl := Option.some.inj ht
        exact Or.inl ha
    | toEnd ht _ hc =>
        obtain rfl := Option.some.inj ht
        exact Or.inr (Or.inl hc)
  induction hp with
  | single hxy =>
      rcases hedge hxy with hx | hy | hc
      · exact Or.inl hx
      · exact Or.inr (Or.inl hy)
      · exact Or.inr (Or.inr (Relation.TransGen.single hc))
  | @tail y z hxy hyz ih =>
      rcases ih with hx | hy | hc
      · exact Or.inl hx
      · exact absurd (hy ▸ hyz) h.no_edge_of_end
      · rcases hedge hyz with hy | hz | hyz'
        · obtain ⟨w, _, hwy⟩ := Relation.TransGen.tail'_iff.mp hxy
          exact absurd (hy ▸ hwy) h.no_edge_begin
        · exact Or.inr (Or.inl hz)
        · exact Or.inr (Or.inr (hc.tail hyz'))

theorem edge_acyclic (x : Nat) : ¬ Relation.TransGen (WireEdge l₀.opid l) x x := by
  intro hp
  rcases h.path_cases hp with hx | hx | hc
  · obtain ⟨w, _, hw⟩ := Relation.TransGen.tail'_iff.mp hp
    exact h.no_edge_begin (hx ▸ hw)
  · obtain ⟨w, hw, _⟩ := Relation.TransGen.head'_iff.mp hp
    exact h.no_edge_of_end (hx ▸ hw)
  · exact h.acyclic x hc

theorem edge_mem {p d : Nat} (hp : WireEdge l₀.opid l p d) :
    p ∈ Set.Ico l₀.opid l.opid ∧ d ∈ Set.Ico l₀.opid l.opid :=
  ⟨hp.1, h.inv.lib.target p d hp.1.1 hp.1.2 hp.2⟩

theorem wellFounded : WellFounded (WireEdge l₀.opid l) :=
  wellFounded_of_acyclic (Set.finite_Ico l₀.opid l.opid) (fun _ _ hp => h.edge_mem hp)
    h.edge_acyclic

theorem wellFounded_swap : WellFounded (Function.swap (WireEdge l₀.opid l)) :=
  wellFounded_of_acyclic (Set.finite_Ico l₀.opid l.opid) (fun _ _ hp => (h.edge_mem hp).symm)
    (acyclic_swap h.edge_acyclic)

/-- An operation that counts a dependency is stored in some `dependent` array. -/
theorem exists_edge {x : Nat} (hlo : l₀.opid ≤ x) (hx : x < l.opid)
    (hpos : 0 < (l.ops x).inDepCount) : ∃ p, WireEdge l₀.opid l p x := by
  rw [h.inv.lib.in_eq x hlo hx] at hpos
  obtain ⟨p, hp, hne⟩ := Finset.exists_ne_zero_of_sum_ne_zero (Nat.ne_of_gt hpos)
  obtain ⟨i, hi⟩ := Finset.card_ne_zero.mp hne
  obtain ⟨hlt, hdep⟩ := Finset.mem_filter.mp hi
  exact ⟨p, Finset.mem_Ico.mp hp, i, Finset.mem_range.mp hlt, hdep⟩

theorem begin_reaches_member {m : Nat} (hm : Builder.Member l₀.opid ⟨some s, l⟩ m) :
    Relation.TransGen (WireEdge l₀.opid l) s.beginOp m := by
  induction m using h.wellFounded.induction with
  | _ m ih =>
      obtain ⟨p, hp⟩ := h.exists_edge hm.1 hm.2.1 (h.inv.added m (h.added_mem hm)).2.1
      cases h.origin hp with
      | hb _ hpm => exact (ih p hp hpm).tail hp
      | fromBegin ht hpb =>
          obtain rfl := Option.some.inj ht
          exact Relation.TransGen.single (hpb ▸ hp)
      | toEnd ht _ hme =>
          obtain rfl := Option.some.inj ht
          exact absurd hme hm.ne_ends.2

theorem member_reaches_end {m : Nat} (hm : Builder.Member l₀.opid ⟨some s, l⟩ m) :
    Relation.TransGen (WireEdge l₀.opid l) m s.endOp := by
  induction m using h.wellFounded_swap.induction with
  | _ m ih =>
      have hout := (h.inv.added m (h.added_mem hm)).2.2
      have hp : WireEdge l₀.opid l m ((l.ops m).dependent 0) := ⟨⟨hm.1, hm.2.1⟩, 0, hout, rfl⟩
      cases h.origin hp with
      | hb _ _ hdm => exact Relation.TransGen.head hp (ih _ hp hdm)
      | fromBegin ht hmb =>
          obtain rfl := Option.some.inj ht
          exact absurd hmb hm.ne_ends.1
      | toEnd ht _ hde =>
          obtain rfl := Option.some.inj ht
          exact Relation.TransGen.single (hde ▸ hp)

/-- Between members, paths and chains of `ffop_hb` calls are the same. -/
theorem order_iff {x y : Nat} (hx : Builder.Member l₀.opid ⟨some s, l⟩ x)
    (hy : Builder.Member l₀.opid ⟨some s, l⟩ y) :
    Relation.TransGen (WireEdge l₀.opid l) x y ↔
      Relation.TransGen (fun a c => BuildCall.hb a c ∈ cs) x y := by
  constructor
  · intro hp
    rcases h.path_cases hp with hb | he | hc
    · exact absurd hb hx.ne_ends.1
    · exact absurd he hy.ne_ends.2
    · exact hc
  · exact Relation.TransGen.mono (fun a c hc => h.edge_of_hb hc) x y

end WiringBuilt

/-- The program `cs` has built the schedule `s` from the library state `l₀`. -/
structure ScheduleBuilt (cap : Nat) (l₀ : Lib) (cs : List BuildCall) (s : FfSchedule)
    (l : Lib) : Prop where
  built : run (buildStep cap l₀.opid) ⟨none, l₀⟩ cs = some ⟨some s, l⟩
  nonempty : ∃ x, Builder.Member l₀.opid ⟨some s, l⟩ x
  added_once : ∀ x, Builder.Member l₀.opid ⟨some s, l⟩ x → cs.count (.addOp x) = 1
  acyclic : ∀ x, ¬ Relation.TransGen (fun a c => BuildCall.hb a c ∈ cs) x x
  default_options : ∀ body o, .create body o ∈ cs → DefaultOptions o

namespace ScheduleBuilt

variable {cap : Nat} {l₀ l : Lib} {cs : List BuildCall} {s : FfSchedule}

/-- Member operation of the schedule. -/
abbrev Member (_ : ScheduleBuilt cap l₀ cs s l) (x : Nat) : Prop :=
  Builder.Member l₀.opid ⟨some s, l⟩ x

variable (h : ScheduleBuilt cap l₀ cs s l)
include h

theorem wiring : WiringBuilt cap l₀ cs s l := ⟨h.built, h.added_once, h.acyclic⟩

theorem inv : BuildInv cap l₀.opid cs ⟨some s, l⟩ := h.wiring.inv

theorem schedOps : SchedOps l₀.opid l s := h.inv.sched s rfl

/-- An operation is a member, `begin_op` or `end_op`. -/
theorem member_or {x : Nat} (hlo : l₀.opid ≤ x) (hx : x < l.opid) :
    h.Member x ∨ x = s.beginOp ∨ x = s.endOp := by
  by_cases hb : x = s.beginOp
  · exact Or.inr (Or.inl hb)
  · by_cases he : x = s.endOp
    · exact Or.inr (Or.inr he)
    · refine Or.inl ⟨hlo, hx, fun t ht => ?_⟩
      obtain rfl := Option.some.inj ht
      exact ⟨hb, he⟩

theorem added {x : Nat} (hm : h.Member x) :
    0 < (l.ops x).inDepCount ∧ 0 < (l.ops x).outDepCount :=
  (h.inv.added x (h.wiring.added_mem hm)).2

/-- The graph of the schedule. -/
def graph : DepGraph Nat where
  verts := Finset.Ico l₀.opid l.opid
  root := s.beginOp
  out v := if v ∈ Finset.Ico l₀.opid l.opid then (l.ops v).outDepCount else 0
  dep v i := (l.ops v).dependent i
  root_mem := Finset.mem_Ico.mpr h.schedOps.begin_mem
  out_eq_zero v hv := if_neg hv
  dep_mem v i hi := by
    by_cases hv : v ∈ Finset.Ico l₀.opid l.opid
    · rw [if_pos hv] at hi
      obtain ⟨hlo, hx⟩ := Finset.mem_Ico.mp hv
      exact Finset.mem_Ico.mpr (h.inv.lib.target v _ hlo hx ⟨i, hi, rfl⟩)
    · rw [if_neg hv] at hi
      omega

@[simp] theorem mem_verts {v : Nat} : v ∈ h.graph.verts ↔ l₀.opid ≤ v ∧ v < l.opid :=
  Finset.mem_Ico

@[simp] theorem graph_root : h.graph.root = s.beginOp := rfl

theorem graph_out {v : Nat} (hv : v ∈ h.graph.verts) :
    h.graph.out v = (l.ops v).outDepCount := if_pos hv

@[simp] theorem graph_dep (v i : Nat) : h.graph.dep v i = (l.ops v).dependent i := rfl

theorem pred_iff {p d : Nat} :
    h.graph.Pred p d ↔ (l₀.opid ≤ p ∧ p < l.opid) ∧ l.HasEdge p d := by
  constructor
  · rintro ⟨i, hi, hd⟩
    have hp := h.graph.mem_verts_of_lt hi
    rw [h.graph_out hp] at hi
    exact ⟨h.mem_verts.mp hp, i, hi, hd⟩
  · rintro ⟨hp, i, hi, hd⟩
    exact ⟨i, by rwa [h.graph_out (h.mem_verts.mpr hp)], hd⟩

/-- In-degrees are what the code counts in `in_dep_count`. -/
theorem indeg_eq {v : Nat} (hv : v ∈ h.graph.verts) :
    h.graph.indeg v = (l.ops v).inDepCount := by
  rw [h.inv.lib.in_eq v (h.mem_verts.mp hv).1 (h.mem_verts.mp hv).2, DepGraph.indeg,
    DepGraph.inEdges, DepGraph.edges, edgeCount, Finset.filter_sigma, Finset.card_sigma]
  refine Finset.sum_congr rfl (fun p hp => ?_)
  simp [h.graph_out hp]

theorem origin {p d : Nat} (hp : h.graph.Pred p d) :
    EdgeOrigin l₀.opid cs ⟨some s, l⟩ p d :=
  h.wiring.origin (h.pred_iff.mp hp)

theorem pred_of_hb {a c : Nat} (hc : .hb a c ∈ cs) : h.graph.Pred a c :=
  h.pred_iff.mpr (h.wiring.edge_of_hb hc)

theorem pred_eq : h.graph.Pred = WireEdge l₀.opid l := by
  funext p d
  exact propext h.pred_iff

theorem no_pred_begin {p : Nat} : ¬ h.graph.Pred p s.beginOp := by
  rw [h.pred_eq]
  exact h.wiring.no_edge_begin

theorem no_pred_of_end {d : Nat} : ¬ h.graph.Pred s.endOp d := by
  rw [h.pred_eq]
  exact h.wiring.no_edge_of_end

theorem wellFounded : WellFounded h.graph.Pred := by
  rw [h.pred_eq]
  exact h.wiring.wellFounded

theorem begin_reaches_member {m : Nat} (hm : h.Member m) :
    Relation.TransGen h.graph.Pred s.beginOp m := by
  rw [h.pred_eq]
  exact h.wiring.begin_reaches_member hm

theorem member_reaches_end {m : Nat} (hm : h.Member m) :
    Relation.TransGen h.graph.Pred m s.endOp := by
  rw [h.pred_eq]
  exact h.wiring.member_reaches_end hm

/-- `end_op` is reachable from every other operation. -/
theorem reaches_end {v : Nat} (hv : v ∈ h.graph.verts) (hne : v ≠ s.endOp) :
    Relation.TransGen h.graph.Pred v s.endOp := by
  obtain ⟨hlo, hx⟩ := h.mem_verts.mp hv
  rcases h.member_or hlo hx with hm | hb | he
  · exact h.member_reaches_end hm
  · obtain ⟨m, hm⟩ := h.nonempty
    rw [hb]
    exact (h.begin_reaches_member hm).trans (h.member_reaches_end hm)
  · exact absurd he hne

/-- Every operation but `begin_op` has a predecessor. -/
theorem entered : h.graph.Entered := by
  intro v hv
  rw [h.graph.indeg_pos_iff]
  constructor
  · intro hne
    obtain ⟨hlo, hx⟩ := h.mem_verts.mp hv
    rcases h.member_or hlo hx with hm | hb | he
    · obtain ⟨w, _, hw⟩ := Relation.TransGen.tail'_iff.mp (h.begin_reaches_member hm)
      exact ⟨w, hw⟩
    · exact absurd hb hne
    · obtain ⟨m, hm⟩ := h.nonempty
      obtain ⟨w, _, hw⟩ := Relation.TransGen.tail'_iff.mp (h.member_reaches_end hm)
      exact ⟨w, he ▸ hw⟩
  · rintro ⟨p, hp⟩ rfl
    exact h.no_pred_begin hp

end ScheduleBuilt

end Fflib
