import Fflib.NetRefine

/-!
# When a program comes to its end

A process can take a step of its own until it has returned from its last round, unless the
operations of the program wait for each other in a circle.

* `finished_of_stuck`: without a circle, a state in which no process can take a step is one
  in which all of them have finished.
* `not_finished_of_cycle`: with one, no process on it returns from its first round.
* `exists_stuck`: the steps of the processes come to an end.
-/

namespace Fflib

open Library

universe u

variable {α : Type u} {n : Nat}

namespace Net

variable {N : Net α n} {K : Nat} {sync : Bool} {w : NetState α n}
  {s : Fin n → Option (Progress Nat)} {i : Fin n} {a : Progress Nat} {v : Nat}

/-! ### The order in which operations wait -/

theorem Waits.mem_verts {p q : Fin n × Nat} (h : N.Waits sync p q) :
    p.2 ∈ (N.graph p.1).verts ∧ q.2 ∈ (N.graph q.1).verts := by
  have hpred : ∀ {i : Fin n} {u v : Nat}, (N.graph i).Pred u v →
      u ∈ (N.graph i).verts ∧ v ∈ (N.graph i).verts := by
    rintro i u v ⟨j, hj, rfl⟩
    exact ⟨(N.graph i).mem_verts_of_lt hj, (N.graph i).dep_mem u j hj⟩
  cases h with
  | pred hp => exact hpred hp
  | recv hp hm =>
      obtain ⟨_, _, _, _, hr⟩ := hm
      exact ⟨(hpred hp).1, hr.1⟩
  | send hp hm _ =>
      obtain ⟨_, _, _, hs, _⟩ := hm
      exact ⟨(hpred hp).1, hs.1⟩

theorem finite_ops (N : Net α n) :
    {p : Fin n × Nat | p.2 ∈ (N.graph p.1).verts}.Finite := by
  refine (Finset.finite_toSet (Finset.univ.biUnion
    fun i => (N.graph i).verts.image fun v => (i, v))).subset (fun p hp => ?_)
  simp only [Finset.coe_biUnion, Set.mem_iUnion, Finset.coe_image, Set.mem_image]
  exact ⟨p.1, Finset.mem_coe.mpr (Finset.mem_univ _), p.2, hp, rfl⟩

/-- Along a chain of predecessors an operation waits for the first one. -/
theorem transGen_waits_of_pred {i : Fin n} {u v : Nat}
    (h : Relation.TransGen (N.graph i).Pred u v) :
    Relation.TransGen (N.Waits sync) (i, u) (i, v) := by
  induction h with
  | single hp => exact .single (.pred hp)
  | tail _ hp ih => exact ih.tail (.pred hp)

/-- Who waits for the operation at the other end waits for all that come before it. -/
theorem transGen_waits_of_cross {i j : Fin n} {u x y : Nat}
    (h : Relation.TransGen (N.graph i).Pred u x)
    (hc : ∀ p, (N.graph i).Pred p x → N.Waits sync (i, p) (j, y)) :
    Relation.TransGen (N.Waits sync) (i, u) (j, y) := by
  obtain ⟨p, hr, hp⟩ := Relation.TransGen.tail'_iff.mp h
  rcases Relation.reflTransGen_iff_eq_or_transGen.mp hr with rfl | ht
  · exact .single (hc p hp)
  · exact (transGen_waits_of_pred ht).tail (hc p hp)

/-! ### No step left -/

/-- No process can take a step. -/
def Stuck (N : Net α n) (sync : Bool) (K : Nat) (w : NetState α n) : Prop :=
  ∀ act : NetAct n, act.isLocal = true → netStep N sync K w act = none

namespace NetInv

variable (h : N.NetInv K w s) (hst : N.Stuck sync K w)

include hst in
/-- Nothing is left on the stacks. -/
theorem frames_of_stuck (i : Fin n) : (w.procs i).frames = [] := by
  by_contra hne
  obtain ⟨t, ht⟩ := Proc.exists_stack hne
  have hnone := hst (.proc i (.frame t)) rfl
  cases hstack : (w.procs i).stack t with
  | nil => exact ht hstack
  | cons f fs => simp [netStep, procStep, Fflib.frameStep, hstack] at hnone

include h hst

/-- A rank between two rounds has finished. -/
theorem finished_of_none (hs : s i = none) : (w.env i).round = K := by
  have hframes := frames_of_stuck hst i
  have huser : (w.procs i).user = [] := (List.append_eq_nil_iff.mp hframes).1
  have hrun := (h.quiet_of_none hs).running
  have hready : w.ready i = false := by
    by_contra hne
    have hnone := hst (.proc i .post) rfl
    simp [netStep, ffschedulePost, huser, hrun, show w.ready i = true by simpa using hne] at hnone
  have hle : (w.env i).round ≤ K := (h.view.rank i).round_le
  have hnone := hst (.user i) rfl
  simp only [netStep, hrun, huser, hready, true_and] at hnone
  by_contra hne
  rw [if_pos (by omega)] at hnone
  cases hnone

/-- A rank in a round waits for a request. -/
theorem not_done_of_stuck (hs : s i = some a) : (a.phase (N.sched i).endOp).isDone = false := by
  have hframes := frames_of_stuck hst i
  have huser : (w.procs i).user = [] := (List.append_eq_nil_iff.mp hframes).1
  have hr := h.running_of_some hs
  by_contra hne
  have hflag := hr.flag
  rw [if_pos (by simpa using hne)] at hflag
  have hnone := hst (.proc i .wait) rfl
  simp [netStep, procStep, ffscheduleWait, huser, hr.running, hflag] at hnone

/-- The handler of a request in flight does not answer. -/
theorem test_of_stuck (hs : s i = some a) (hv : a.phase v = .inflight) :
    (N.impl sync i).test v ((w.procs i).ops v) w.env = none := by
  have hframes := frames_of_stuck hst i
  have hprog : (w.procs i).prog = [] := (List.append_eq_nil_iff.mp hframes).2
  have hpend := (h.running_of_some hs).mem_pending hv
  have hnone := hst (.proc i (.progress v)) rfl
  simpa [netStep, procStep, Fflib.progressStep, hprog, hpend] using hnone

/-- What has not been started waits for a request of its rank. -/
theorem exists_inflight_of_stuck (hv : v ∈ (N.graph i).verts)
    (hns : (phaseOf (s i) v).isStarted = false) :
    ∃ a, s i = some a ∧ ∃ u, Relation.TransGen (N.graph i).Pred u v ∧ a.phase u = .inflight := by
  cases hs : s i with
  | none =>
      rw [hs] at hns
      cases hns
  | some a =>
      rw [hs] at hns
      have hr := h.running_of_some hs
      have hsettled := hr.settled (frames_of_stuck hst i)
      have hidle : a.phase v = .idle := by
        rcases hsettled v with hp | hp | ⟨j, hp, _⟩
        · exact hp
        · simp [phaseOf, hp, Phase.isStarted] at hns
        · simp [phaseOf, hp, Phase.isStarted] at hns
      exact ⟨a, rfl, hr.sound.exists_inflight (N.wired i).wf hsettled hv hidle⟩

/-- A request in flight waits, over its partner, for another one of the same round, when no
rank is in an earlier round. -/
theorem exists_waits (hP : N.Paired) (hs : s i = some a) (hv : a.phase v = .inflight)
    (hmin : ∀ j a', s j = some a' → (w.env i).round ≤ (w.env j).round) :
    ∃ j a' u, s j = some a' ∧ a'.phase u = .inflight ∧ (w.env j).round = (w.env i).round ∧
      Relation.TransGen (N.Waits sync) (j, u) (i, v) := by
  have hall : ∀ j : Fin n, (w.env i).round ≤ (w.env j).round := by
    intro j
    cases hj : s j with
    | none =>
        rw [h.finished_of_none hst hj]
        exact (h.view.rank i).round_le
    | some a' => exact hmin j a' hj
  have hrank : N.RankOk K i (w.env i) (w.ready i) (some a) := h.view.rank_of hs
  have hmem := h.view.mem_verts (i := i) hs (v := v) (by simp [hv])
  have hbody : ((w.procs i).ops v).body = N.body i v := ((h.running_of_some hs).same v).body_eq
  have htest := h.test_of_stuck hst hs hv
  have hreq := hrank.chan.flight v hv
  cases hb : N.body i v with
  | nop =>
      rw [hb] at hreq
      cases hreq
  | comp b1 b2 b3 operator =>
      rw [hb] at hreq
      cases hreq
  | recv peer tag c =>
      have hy : N.Receives i v peer tag c := ⟨hmem, hb⟩
      obtain ⟨j, x, b, rfl, hx⟩ := hP.recv_matched hy
      rw [hb] at hbody
      have hge : ¬ (w.env i).req v < ((w.env j).out i tag).length := by
        intro hlt
        simp [Net.impl, netImpl, mpiImpl, hbody, hlt] at htest
      have hpos := (hrank.chan.recv hy).pos hv
      have hlen := ((h.view.rank j).chan.send hx).len
      have hle := hall j
      have hns : (phaseOf (s j) x).isStarted = false := by
        by_contra hne
        rw [if_pos (by simpa using hne)] at hlen
        simp only at hlen
        omega
      rw [hns] at hlen
      obtain ⟨a', hj, u, hu, hin⟩ := h.exists_inflight_of_stuck hst hx.1 hns
      refine ⟨j, a', u, hj, hin, ?_, transGen_waits_of_cross hu
        (fun p hp => .recv hp ⟨tag, b, c, hx, hy⟩)⟩
      simp only [Bool.false_eq_true, if_false] at hlen
      omega
  | send peer tag b =>
      have hx : N.Sends i v peer tag b := ⟨hmem, hb⟩
      obtain ⟨j, y, c, rfl, hy⟩ := hP.send_matched hx
      rw [hb] at hbody
      have hge : sync = true ∧ ¬ (w.env i).req v < ((w.env j).inc i tag).length := by
        by_contra hno
        have hc : sync = false ∨ (w.env i).req v < ((w.env j).inc i tag).length := by
          cases sync with
          | false => exact Or.inl rfl
          | true =>
              refine Or.inr ?_
              by_contra hlt
              exact hno ⟨rfl, hlt⟩
        simp [Net.impl, netImpl, mpiImpl, hbody, hc] at htest
      obtain ⟨hsync, hge⟩ := hge
      have hpos := (hrank.chan.send hx).pos hv
      have hlen := ((h.view.rank j).chan.recv hy).len
      have hle := hall j
      have hns : (phaseOf (s j) y).isStarted = false := by
        by_contra hne
        rw [if_pos (by simpa using hne)] at hlen
        simp only at hlen
        omega
      rw [hns] at hlen
      obtain ⟨a', hj, u, hu, hin⟩ := h.exists_inflight_of_stuck hst hy.1 hns
      refine ⟨j, a', u, hj, hin, ?_, transGen_waits_of_cross hu
        (fun p hp => .send hp ⟨tag, b, c, hx, hy⟩ hsync)⟩
      simp only [Bool.false_eq_true, if_false] at hlen
      omega

/-- Without a circle, nobody is in a round when no process can take a step. -/
theorem none_of_stuck (hP : N.Paired) (hacyc : N.Acyclic sync) (i : Fin n) : s i = none := by
  by_contra hne
  -- a rank that is in the earliest round
  obtain ⟨i, hi, hmin⟩ := WellFounded.has_min
    (InvImage.wf (fun i : Fin n => (w.env i).round) wellFounded_lt) {i | s i ≠ none} ⟨i, hne⟩
  have hwf := (wellFounded_of_acyclic (finite_ops N) (fun _ _ hw => Waits.mem_verts hw)
    hacyc).transGen
  obtain ⟨a, ha⟩ := Option.ne_none_iff_exists'.mp hi
  obtain ⟨v, hv⟩ := (h.running_of_some ha).exists_inflight (N.wired i)
    (frames_of_stuck hst i) (h.not_done_of_stuck hst ha)
  -- the first request of this round in the order of waiting
  obtain ⟨⟨j, u⟩, ⟨a', hj, hu, hround⟩, hfirst⟩ := hwf.has_min
    {p | ∃ a', s p.1 = some a' ∧ a'.phase p.2 = .inflight ∧
      (w.env p.1).round = (w.env i).round} ⟨(i, v), a, ha, hv, rfl⟩
  obtain ⟨k, a'', x, hk, hx, hkround, hwait⟩ := h.exists_waits hst hP hj hu (fun k b hk => by
    have hle : ¬ (w.env k).round < (w.env i).round := hmin k (by simp [hk])
    have hround : (w.env j).round = (w.env i).round := hround
    show (w.env j).round ≤ _
    omega)
  exact hfirst (k, x) ⟨a'', hk, hx, hkround.trans hround⟩ hwait

end NetInv

/-- **Progress**: without a circle, some process can take a step until all have finished. -/
theorem finished_of_stuck (hP : N.Paired) (hacyc : N.Acyclic sync)
    (hw : Reachable (netStep N sync K) N.initial w) (hst : N.Stuck sync K w) :
    Finished K w := by
  obtain ⟨s, hr⟩ := exists_refines hP.toChannels hw
  intro i
  have hnone := hr.inv.none_of_stuck hst hP hacyc i
  exact ⟨hr.inv.finished_of_none hst hnone, (hr.inv.quiet_of_none hnone).running⟩

/-! ### Circles -/

/-- The operation is on a circle. -/
def OnCycle (N : Net α n) (sync : Bool) (i : Fin n) (v : Nat) : Prop :=
  Relation.TransGen (N.Waits sync) (i, v) (i, v)

/-- The operation has been posted and is over, but for its log entry and its edges. -/
def isOver : Phase → Bool
  | .completing | .cascading _ => true
  | _ => false

theorem isOver_of_isDone {q : Phase} (h : q.isDone = true) : isOver q = true := by
  cases q <;> first | rfl | cases h

/-- No operation on a circle is over. -/
def Hung (N : Net α n) (sync : Bool) (V : View α n) : Prop :=
  ∀ i v, N.OnCycle sync i v → (V.env i).round = 0 ∨
    (V.env i).round = 1 ∧ ∃ a, V.exec i = some a ∧ isOver (a.phase v) = false

/-- An operation on a circle waits for another one. -/
theorem OnCycle.exists_waits (h : N.OnCycle sync i v) :
    ∃ j u, N.OnCycle sync j u ∧ N.Waits sync (j, u) (i, v) := by
  obtain ⟨⟨j, u⟩, hr, hw⟩ := Relation.TransGen.tail'_iff.mp h
  exact ⟨j, u, Relation.TransGen.head' hw hr, hw⟩

section Circle

variable {V V' : View α n} (hV : N.ViewOk K V) (hh : N.Hung sync V)
include hh

/-- A rank that is in a round, with an operation on a circle, is in its first. -/
theorem Hung.of_exec (hv : N.OnCycle sync i v) (hpos : 0 < (V.env i).round) :
    (V.env i).round = 1 ∧ ∃ a, V.exec i = some a ∧ isOver (a.phase v) = false := by
  rcases hh i v hv with h | h
  · omega
  · exact h

/-- What comes before a started operation is over, and so not on a circle. -/
theorem Hung.not_pred (hV : N.ViewOk K V) {u : Nat} (hu : N.OnCycle sync i u)
    (hp : (N.graph i).Pred u v) (hpos : 0 < (V.env i).round)
    (hs : ∀ a, V.exec i = some a → a.phase v ≠ .idle) : False := by
  obtain ⟨_, a, he, hover⟩ := hh.of_exec hu hpos
  have hd := (hV.sound he).pred_isDone (hs a he) hp
  rw [isOver_of_isDone hd] at hover
  cases hover

/-- Only rank `i` goes on, and no operation of a circle gets over. -/
theorem Hung.go {env : Env α} {a' : Progress Nat} (he : V.exec i = some a)
    (hround : ∀ j, (env j).round = (V.env j).round)
    (hover : ∀ w, N.OnCycle sync i w → isOver (a.phase w) = false →
      isOver (a'.phase w) = false) : N.Hung sync (V.go i env a') := by
  intro j w hw
  simp only [View.go, hround]
  refine (hh j w hw).imp_right ?_
  rintro ⟨h1, b, hb, hb'⟩
  refine ⟨h1, ?_⟩
  by_cases hj : j = i
  · subst hj
    obtain rfl := Option.some.inj (he.symm.trans hb)
    exact ⟨a', Function.update_self _ _ _, hover w hw hb'⟩
  · exact ⟨b, (Function.update_of_ne hj _ _).trans hb, hb'⟩

/-- The same when one operation changes its phase. -/
theorem Hung.setPhase {env : Env α} {q : Phase} (he : V.exec i = some a)
    (hround : ∀ j, (env j).round = (V.env j).round)
    (hv : N.OnCycle sync i v → isOver q = false) :
    N.Hung sync (V.go i env (a.setPhase v q)) := by
  refine hh.go he hround (fun w hw hb => ?_)
  rw [setPhase_phase]
  split
  · next hwv => exact hv (hwv ▸ hw)
  · exact hb

/-- An operation that is not a request waits for its predecessors only: started, it is not
on a circle. -/
theorem Hung.not_onCycle (hV : N.ViewOk K V) (he : V.exec i = some a)
    (hb : (N.body i v).isRequest = false) (hs : a.phase v ≠ .idle) : ¬ N.OnCycle sync i v := by
  intro hc
  obtain ⟨j, u, hu, hwait⟩ := OnCycle.exists_waits hc
  cases hwait with
  | pred hp =>
      refine hh.not_pred hV hu hp ((hV.rank i).round_pos a he) (fun b hb' => ?_)
      obtain rfl := Option.some.inj (he.symm.trans hb')
      exact hs
  | recv _ hm =>
      obtain ⟨_, _, _, _, hr⟩ := hm
      rw [hr.2] at hb
      cases hb
  | send _ hm _ =>
      obtain ⟨_, _, _, hs, _⟩ := hm
      rw [hs.2] at hb
      cases hb

/-- Nothing but the environment changes. -/
theorem Hung.congr {env : Env α} {ready : Fin n → Bool}
    (hround : ∀ j, (env j).round = (V.env j).round) :
    N.Hung sync { V with env := env, ready := ready } := by
  intro j w hw
  simp only [hround]
  exact hh j w hw

end Circle

/-- **Step lemma**: no move gets over an operation on a circle. -/
theorem Hung.move {V V' : View α n} (hV : N.ViewOk K V) (hh : N.Hung sync V)
    (hm : N.ViewMove sync K V V') : N.Hung sync V' := by
  have hmodify : ∀ {i : Nat} {f : RankEnv α → RankEnv α}, (∀ E, (f E).round = E.round) → ∀ j,
      ((V.env.modify i f) j).round = (V.env j).round :=
    fun hf j => Env.modify_congr RankEnv.round (hf _) j
  have hstarted : ∀ {i : Fin n} {a : Progress Nat} {v : Nat} {q : Phase}, V.exec i = some a →
      a.phase v = q → q ≠ .idle → ∀ b, V.exec i = some b → b.phase v ≠ .idle := by
    intro i a v q he hv hq b hb
    obtain rfl := Option.some.inj (he.symm.trans hb)
    rw [hv]
    exact hq
  cases hm with
  | user _ _ _ => exact hh.congr (hmodify (fun _ => rfl))
  | @enter i hr =>
      intro j w hw
      by_cases hj : j = i
      · subst hj
        have hnone := ((hV.rank j).ready_ok hr).1
        have hzero : (V.env j).round = 0 := by
          rcases hh j w hw with h | ⟨_, a, ha, _⟩
          · exact h
          · rw [hnone] at ha
            cases ha
        refine Or.inr ⟨?_, _, Function.update_self _ _ _, ?_⟩
        · simp only [Env.modify_self, RankEnv.nextRound, hzero]
        · simp only [DepGraph.start, Function.update_apply]
          split <;> rfl
      · simp only [Env.modify_of_ne (fun heq => hj (Fin.ext heq)), Function.update_of_ne hj]
        exact hh j w hw
  | @leave i a he hd =>
      intro j w hw
      refine (hh j w hw).imp_right ?_
      rintro ⟨h1, b, hb, hover⟩
      refine ⟨h1, ?_⟩
      by_cases hj : j = i
      · subst hj
        obtain rfl := Option.some.inj (he.symm.trans hb)
        obtain ⟨_, _, _, hwait⟩ := OnCycle.exists_waits hw
        rw [isOver_of_isDone (hd w (Waits.mem_verts hwait).2)] at hover
        cases hover
      · exact ⟨b, (Function.update_of_ne hj _ _).trans hb, hover⟩
  | isend he _ _ => exact hh.setPhase he (hmodify (fun _ => rfl)) (fun _ => rfl)
  | irecv he _ _ => exact hh.setPhase he (hmodify (fun _ => rfl)) (fun _ => rfl)
  | comp he hv hb =>
      exact hh.setPhase he (hmodify (fun _ => rfl)) (fun hc =>
        absurd hc (hh.not_onCycle hV he (by rw [hb]; rfl) (by rw [hv]; exact Phase.noConfusion)))
  | nop he hv hb =>
      exact hh.setPhase he (fun _ => rfl) (fun hc =>
        absurd hc (hh.not_onCycle hV he (by rw [hb]; rfl) (by rw [hv]; exact Phase.noConfusion)))
  | @complete i a v he hv =>
      refine hh.go he (fun _ => rfl) (fun w _ hover => ?_)
      rw [finish_phase]
      split
      · next hwv =>
          rw [hwv, hv] at hover
          cases hover
      · exact hover
  | @fire i a v j he hv hj =>
      have hidle := ((hV.sound he).target_idle hv hj).1
      refine hh.go he (fun _ => rfl) (fun w _ hover => ?_)
      rw [fire_phase hv hidle]
      split
      · next hwv =>
          rw [hwv, hv] at hover
          cases hover
      · split
        · rfl
        · exact hover
  | read i j tag k => exact hh.congr (fun l => (readSend_rank i j tag k V.env l).2.2)
  | deliver i j tag k => exact hh.congr (fun l => (deliver_rank i j tag k V.env l).2)
  | @sent i a v peer tag b c he hv hb hc hs =>
      refine hh.setPhase he (fun _ => rfl) (fun hcycle => ?_)
      obtain ⟨j, u, hu, hwait⟩ := OnCycle.exists_waits hcycle
      have hpos := (hV.rank i).round_pos a he
      cases hwait with
      | pred hp => exact (hh.not_pred hV hu hp hpos (hstarted he hv (by simp))).elim
      | recv _ hm =>
          obtain ⟨_, _, _, _, hr⟩ := hm
          cases hb.symm.trans hr.2
      | @send _ _ _ _ y hp hm hsync =>
          -- the receive has been posted, so what comes before it is over
          obtain ⟨tag', b', c', hs', hr⟩ := hm
          obtain ⟨rfl, rfl, rfl⟩ : peer = j ∧ tag = tag' ∧ b = b' := by
            simpa using hb.symm.trans hs'.2
          have hlt : (V.env i).req v < ((V.env j).inc i tag).length :=
            hs.resolve_left (by simp [hsync])
          have hlen := ((hV.rank j).chan.recv hr).len
          obtain ⟨h1, a', he', hover⟩ := hh.of_exec hu (by omega)
          refine (hh.not_pred hV hu hp (by omega) (fun b hb' => ?_)).elim
          obtain rfl := Option.some.inj (he'.symm.trans hb')
          intro hidle
          rw [he'] at hlen
          simp only [phaseOf, hidle, Phase.isStarted, Bool.false_eq_true, if_false] at hlen
          omega
  | @received i a v peer tag b he hv hb hc =>
      refine hh.setPhase he (fun _ => rfl) (fun hcycle => ?_)
      obtain ⟨j, u, hu, hwait⟩ := OnCycle.exists_waits hcycle
      have hpos := (hV.rank i).round_pos a he
      cases hwait with
      | pred hp => exact (hh.not_pred hV hu hp hpos (hstarted he hv (by simp))).elim
      | send _ hm _ =>
          obtain ⟨_, _, _, hs', _⟩ := hm
          cases hb.symm.trans hs'.2
      | @recv _ _ _ x _ hp hm =>
          -- the send has been posted, so what comes before it is over
          obtain ⟨tag', b', c', hs', hr⟩ := hm
          obtain ⟨rfl, rfl, rfl⟩ : peer = j ∧ tag = tag' ∧ b = c' := by
            simpa using hb.symm.trans hr.2
          obtain ⟨c, hsent⟩ := hV.backed _ _ _ _ hc
          have hstart := ((hV.rank j).chan.send hs').started hsent
          obtain ⟨h1, a', he', hover⟩ := hh.of_exec hu (by omega)
          refine (hh.not_pred hV hu hp (by omega) (fun b hb' => ?_)).elim
          obtain rfl := Option.some.inj (he'.symm.trans hb')
          intro hidle
          rw [he'] at hstart
          simp only [phaseOf, hidle, Phase.isStarted, Bool.false_eq_true, and_false,
            or_false] at hstart
          omega

/-- **Circles**: a rank with an operation on a circle does not return from its first round. -/
theorem exec_ne_none_of_cycle (hN : N.Channels) (hK : 0 < K) (hc : N.OnCycle sync i v)
    {V : View α n} (hm : Relation.ReflTransGen (N.ViewMove sync K) N.start V)
    (hround : (V.env i).round = K) : V.exec i ≠ none := by
  have hboth : N.ViewOk K V ∧ N.Hung sync V := by
    clear hround
    induction hm with
    | refl => exact ⟨N.viewOk_start K, fun _ _ _ => Or.inl rfl⟩
    | tail _ hstep ih => exact ⟨ih.1.move hN hstep, ih.2.move ih.1 hstep⟩
  intro hnone
  rcases hboth.2 i v hc with h | ⟨_, a, ha, _⟩
  · omega
  · rw [hnone] at ha
    cases ha

theorem not_finished_of_cycle (hN : N.Channels) (hK : 0 < K) (hc : N.OnCycle sync i v)
    (hw : Reachable (netStep N sync K) N.initial w) : ¬ Finished K w := by
  obtain ⟨s, hr⟩ := exists_refines hN hw
  intro hf
  exact exec_ne_none_of_cycle hN hK hc hr.moves (hf i).1 (hr.inv.none_of_not_running (hf i).2)

/-! ### Termination -/

/-- The steps of the processes come to an end. -/
theorem exists_stuck (hN : N.Channels) (hw : Reachable (netStep N sync K) N.initial w) :
    ∃ as w', run (netStep N sync K) w as = some w' ∧ N.Stuck sync K w' := by
  obtain ⟨s, hr⟩ := exists_refines hN hw
  have hdown : ∀ k w, (∃ s, N.NetInv K w s ∧ N.toDo K w s = k) → N.Stuck sync K w ∨
      ∃ act w' k', netStep N sync K w act = some w' ∧ k' < k ∧
        ∃ s', N.NetInv K w' s' ∧ N.toDo K w' s' = k' := by
    rintro k w ⟨s, hinv, hk⟩
    by_cases hst : N.Stuck sync K w
    · exact Or.inl hst
    · simp only [Stuck, not_forall] at hst
      obtain ⟨act, hlocal, hstep⟩ := hst
      obtain ⟨w', hw'⟩ := Option.ne_none_iff_exists'.mp hstep
      obtain ⟨s', hr, hle⟩ := hinv.step hN hw'
      rw [if_pos hlocal, hk] at hle
      exact Or.inr ⟨act, w', _, hw', hle, s', hr.inv, rfl⟩
  obtain ⟨as, w', _, hrun, _, hst⟩ := exists_run_of_measure hdown (N.toDo K w s) w ⟨s, hr.inv, rfl⟩
  exact ⟨as, w', hrun, hst⟩

end Net

end Fflib
