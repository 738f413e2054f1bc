import Fflib.NetView

/-!
# The processes refine their views

`NetInv` joins the invariant of the stacks of every rank (`Running`, `Quiet`) with that of
the view (`ViewOk`).

* `NetInv.step`: every step of the processes or of the network is a sequence of moves of the
  view, and keeps the invariant; a step of a process also decreases `toDo`.
* `exists_refines`: every reachable state is one of a run of the view.
-/

namespace Fflib

open Library

universe u

variable {α : Type u} {n : Nat}

namespace Net

variable (N : Net α n)

/-- The stacks of a rank between two rounds, and in one. -/
def StackOk (i : Fin n) (p : Proc) : Option (Progress Nat) → Prop
  | none => Quiet (N.graph i) (N.lib i).ops (N.sched i).endOp p
  | some a => Running (N.graph i) (N.lib i).ops (N.sched i).endOp p a

/-- The invariant of a program; `s` are the executions of the rounds in progress. -/
structure NetInv (K : Nat) (w : NetState α n) (s : Fin n → Option (Progress Nat)) : Prop where
  stack : ∀ i, N.StackOk i (w.procs i) (s i)
  view : N.ViewOk K ⟨w.env, w.ready, s⟩

/-- What a rank still has to do. -/
def rankToDo (K : Nat) (i : Fin n) (round : Nat) (ready : Bool) (p : Proc)
    (r : Option (Progress Nat)) : Nat :=
  (K - round) * (2 * (N.graph i).work (N.graph i).start + 5) +
    match r with
    | none => p.frames.length + if ready then 0 else 1
    | some a => load (N.graph i) p a + 2

/-- What all ranks still have to do. -/
def toDo (K : Nat) (w : NetState α n) (s : Fin n → Option (Progress Nat)) : Nat :=
  ∑ i, N.rankToDo K i (w.env i).round (w.ready i) (w.procs i) (s i)

theorem wired (i : Fin n) : Wired (N.graph i) (N.lib i).ops (N.sched i).endOp :=
  (N.built i).wired

theorem netInv_initial (K : Nat) : N.NetInv K N.initial (fun _ => none) where
  stack i := (N.wired i).quiet_init
  view := N.viewOk_start K

variable {N} {K : Nat} {sync : Bool} {w w' : NetState α n} {s s' : Fin n → Option (Progress Nat)}
  {i : Fin n} {a : Progress Nat}

/-- Only rank `i` moves, and has less to do then. -/
theorem toDo_lt (hround : ∀ j : Fin n, j ≠ i → (w'.env j).round = (w.env j).round)
    (hready : ∀ j, j ≠ i → w'.ready j = w.ready j)
    (hprocs : ∀ j, j ≠ i → w'.procs j = w.procs j) (hs : ∀ j, j ≠ i → s' j = s j)
    (hlt : N.rankToDo K i (w'.env i).round (w'.ready i) (w'.procs i) (s' i) <
      N.rankToDo K i (w.env i).round (w.ready i) (w.procs i) (s i)) :
    N.toDo K w' s' < N.toDo K w s := by
  refine Finset.sum_lt_sum (fun j _ => ?_) ⟨i, Finset.mem_univ i, hlt⟩
  by_cases hj : j = i
  · rw [hj]
    exact hlt.le
  · rw [hround j hj, hready j hj, hprocs j hj, hs j hj]

/-- A step, seen by the view: the moves that it makes, and what is left to do. -/
structure Refines (N : Net α n) (sync : Bool) (K : Nat) (w : NetState α n)
    (s : Fin n → Option (Progress Nat)) (w' : NetState α n)
    (s' : Fin n → Option (Progress Nat)) : Prop where
  inv : N.NetInv K w' s'
  moves : Relation.ReflTransGen (N.ViewMove sync K) ⟨w.env, w.ready, s⟩ ⟨w'.env, w'.ready, s'⟩

namespace NetInv

variable (h : N.NetInv K w s)
include h

theorem quiet_of_none (hs : s i = none) :
    Quiet (N.graph i) (N.lib i).ops (N.sched i).endOp (w.procs i) := by
  have := h.stack i
  rwa [hs] at this

theorem running_of_some (hs : s i = some a) :
    Running (N.graph i) (N.lib i).ops (N.sched i).endOp (w.procs i) a := by
  have := h.stack i
  rwa [hs] at this

theorem none_of_not_running (hr : (w.procs i).running = false) : s i = none := by
  cases hs : s i with
  | none => rfl
  | some a =>
      have := (h.running_of_some hs).running
      rw [hr] at this
      cases this

/-- A rank that has finished runs no more code before a round. -/
theorem ready_of_finished (hf : Finished K w) (i : Fin n) : w.ready i = false := by
  by_contra hne
  have hlt : (w.env i).round < K := ((h.view.rank i).ready_ok (by simpa using hne)).2
  have := (hf i).1
  omega

/-- Moves keep the invariant of the view. -/
theorem moves (hN : N.Channels) {V : View α n}
    (hm : Relation.ReflTransGen (N.ViewMove sync K) ⟨w.env, w.ready, s⟩ V) : N.ViewOk K V := by
  induction hm with
  | refl => exact h.view
  | tail _ hstep ih => exact ih.move hN hstep

/-- Only the stacks of rank `i` change. -/
theorem stack_update {r : Option (Progress Nat)} {p : Proc} (hp : N.StackOk i p r) (j : Fin n) :
    N.StackOk j (Function.update w.procs i p j) (Function.update s i r j) := by
  by_cases hj : j = i
  · subst hj
    simpa using hp
  · simpa [hj] using h.stack j

/-- Step lemma: the code before a round. -/
theorem userStep (hs : netStep N sync K w (.user i) = some w') :
    N.Refines sync K w s w' s ∧ N.toDo K w' s < N.toDo K w s := by
  simp only [netStep] at hs
  split at hs
  · next hc =>
      obtain ⟨hrun, _, hready, hK⟩ := hc
      obtain rfl := Option.some.inj hs
      have hnone := h.none_of_not_running hrun
      refine ⟨⟨⟨h.stack, h.view.user hnone hK⟩, .single (.user hnone hready hK)⟩, ?_⟩
      refine toDo_lt (i := i) (fun j hj => ?_) (fun j hj => ?_) (fun _ _ => rfl) (fun _ _ => rfl) ?_
      · simp only [Env.modify_of_ne (fun heq => hj (Fin.ext heq))]
      · exact Function.update_of_ne hj _ _
      · simp [rankToDo, hnone, hready, runUser]
  · cases hs

/-- Step lemma: `ffschedule_post`. -/
theorem postStep (hs : netStep N sync K w (.proc i .post) = some w') :
    N.Refines sync K w s w' (Function.update s i (some (N.graph i).start)) ∧
      N.toDo K w' (Function.update s i (some (N.graph i).start)) < N.toDo K w s := by
  simp only [netStep] at hs
  split at hs
  · next hready =>
      obtain ⟨⟨env', p'⟩, hp, rfl⟩ := Option.map_eq_some_iff.mp hs
      obtain ⟨hnone, hK⟩ : s i = none ∧ (w.env i).round < K := (h.view.rank i).ready_ok hready
      obtain ⟨henv, hrun⟩ := (h.quiet_of_none hnone).postStep (N.wired i) rfl hp
      rw [N.callback i] at henv
      have hframes : p'.frames.length = (w.procs i).frames.length + 1 := by
        obtain ⟨huser, _, _, rfl⟩ := ffschedulePost_eq_some hp
        simp [Proc.frames, huser, Nat.add_comm]
      simp only [Option.isSome_none, Bool.false_eq_true, if_false] at henv
      subst henv
      have hview := h.view.enter hready
      refine ⟨⟨⟨h.stack_update hrun, hview⟩, .single (.enter hready)⟩, ?_⟩
      refine toDo_lt (i := i) (fun j hj => ?_) (fun j hj => ?_) (fun j hj => ?_)
        (fun j hj => ?_) ?_
      · simp only [Env.modify_of_ne (fun heq => hj (Fin.ext heq))]
      · exact Function.update_of_ne hj _ _
      · exact Function.update_of_ne hj _ _
      · exact Function.update_of_ne hj _ _
      · have hmul : K - (w.env i).round = K - ((w.env i).round + 1) + 1 := by omega
        simp only [rankToDo, Env.modify_self, Function.update_self, RankEnv.nextRound, hready,
          hnone, load, hframes, hmul, Nat.add_mul, if_true]
        omega
  · cases hs

/-- Rank `i` goes on with its round, and no rank changes its round. -/
theorem refines_go (hN : N.Channels) {env : Env α} {p' : Proc} {a' : Progress Nat}
    (hs : s i = some a) (hround : ∀ j, (env j).round = (w.env j).round)
    (hrun : Running (N.graph i) (N.lib i).ops (N.sched i).endOp p' a')
    (hlt : load (N.graph i) p' a' < load (N.graph i) (w.procs i) a)
    (hm : Relation.ReflTransGen (N.ViewMove sync K) ⟨w.env, w.ready, s⟩
      ⟨env, w.ready, Function.update s i (some a')⟩) :
    N.Refines sync K w s { w with env := env, procs := Function.update w.procs i p' }
        (Function.update s i (some a')) ∧
      N.toDo K { w with env := env, procs := Function.update w.procs i p' }
        (Function.update s i (some a')) < N.toDo K w s := by
  refine ⟨⟨⟨h.stack_update hrun, h.moves hN hm⟩, hm⟩, ?_⟩
  refine toDo_lt (i := i) (fun j _ => hround j) (fun _ _ => rfl) (fun j hj => ?_)
    (fun j hj => ?_) ?_
  · exact Function.update_of_ne hj _ _
  · exact Function.update_of_ne hj _ _
  · simp only [rankToDo, Function.update_self, hround, hs]
    omega

omit h in
/-- The moves of one frame. -/
theorem frameMoves (hs : s i = some a) {env : Env α} {a' : Progress Nat}
    (he : FrameEffect (N.impl sync i) (N.graph i) (N.lib i).ops w.env a env a') :
    (∀ j, (env j).round = (w.env j).round) ∧
      Relation.ReflTransGen (N.ViewMove sync K) ⟨w.env, w.ready, s⟩
        ⟨env, w.ready, Function.update s i (some a')⟩ := by
  have hmodify : ∀ (f : RankEnv α → RankEnv α), (∀ E, (f E).round = E.round) → ∀ j,
      ((w.env.modify i f) j).round = (w.env j).round :=
    fun f hf j => Env.modify_congr RankEnv.round (hf _) j
  cases he with
  | @pending v o _ hv ho hr =>
      cases hb : (N.lib i).ops v |>.body with
      | nop =>
          rw [implPost_nop (ho.trans hb)] at hr
          cases (Prod.mk.inj hr).2
      | comp b1 b2 b3 operator =>
          rw [hb] at ho
          simp only [implPost, Net.impl, netImpl, ho] at hr
          cases (Prod.mk.inj hr).2
      | send peer tag b =>
          rw [hb] at ho
          simp only [implPost, Net.impl, netImpl, ho] at hr
          obtain rfl := (Prod.mk.inj hr).1
          exact ⟨hmodify _ (fun _ => rfl), .single (.isend hs hv hb)⟩
      | recv peer tag b =>
          rw [hb] at ho
          simp only [implPost, Net.impl, netImpl, ho] at hr
          obtain rfl := (Prod.mk.inj hr).1
          exact ⟨hmodify _ (fun _ => rfl), .single (.irecv hs hv hb)⟩
  | @posted v o _ hv ho hr =>
      cases hb : (N.lib i).ops v |>.body with
      | nop =>
          rw [implPost_nop (ho.trans hb)] at hr
          obtain rfl := (Prod.mk.inj hr).1
          exact ⟨fun _ => rfl, .single (.nop hs hv hb)⟩
      | comp b1 b2 b3 operator =>
          rw [hb] at ho
          simp only [implPost, Net.impl, netImpl, ho] at hr
          obtain rfl := (Prod.mk.inj hr).1
          exact ⟨hmodify _ (fun _ => rfl), .single (.comp hs hv hb)⟩
      | send peer tag b =>
          rw [hb] at ho
          simp only [implPost, Net.impl, netImpl, ho] at hr
          cases (Prod.mk.inj hr).2
      | recv peer tag b =>
          rw [hb] at ho
          simp only [implPost, Net.impl, netImpl, ho] at hr
          cases (Prod.mk.inj hr).2
  | complete hv => exact ⟨fun _ => rfl, .single (.complete hs hv)⟩
  | fire hv hj => exact ⟨fun _ => rfl, .single (.fire hs hv hj)⟩
  | pop =>
      rw [← hs, Function.update_eq_self]
      exact ⟨fun _ => rfl, .refl⟩

/-- Step lemma: a frame of a cascade. -/
theorem frameStep (hN : N.Channels) {t : Thread}
    (hs : netStep N sync K w (.proc i (.frame t)) = some w') :
    ∃ s', N.Refines sync K w s w' s' ∧ N.toDo K w' s' < N.toDo K w s := by
  simp only [netStep, procStep] at hs
  obtain ⟨⟨env', p'⟩, hp, rfl⟩ := Option.map_eq_some_iff.mp hs
  cases hsi : s i with
  | none =>
      obtain ⟨rfl, hq, _, hlt⟩ := (h.quiet_of_none hsi).frameStep (N.wired i) hp
      refine ⟨s, ⟨⟨fun j => ?_, h.view⟩, .refl⟩, ?_⟩
      · have := h.stack_update (i := i) (p := p') (r := none) hq j
        rwa [← hsi, Function.update_eq_self] at this
      · refine toDo_lt (i := i) (fun _ _ => rfl) (fun _ _ => rfl) (fun j hj => ?_)
          (fun _ _ => rfl) ?_
        · exact Function.update_of_ne hj _ _
        · simp only [rankToDo, Function.update_self, hsi]
          omega
  | some a =>
      obtain ⟨a', he, hrun, hlt⟩ := (h.running_of_some hsi).frameStep (N.wired i)
        (netImpl_succeeds N.ops (N.ptr i) sync i) hp
      obtain ⟨hround, hm⟩ := frameMoves (K := K) hsi he
      exact ⟨_, h.refines_go hN hsi hround hrun hlt hm⟩

/-- What a progress call that finds an operation completed has seen. -/
theorem testMoves (hs : s i = some a) {x : Nat} (hx : a.phase x = .inflight)
    {env : Env α} (htest : (N.impl sync i).test x ((w.procs i).ops x) w.env = some env) :
    (∀ j, (env j).round = (w.env j).round) ∧
      Relation.ReflTransGen (N.ViewMove sync K) ⟨w.env, w.ready, s⟩
        ⟨env, w.ready, Function.update s i (some (a.setPhase x .completing))⟩ := by
  have hrank : N.RankOk K i (w.env i) (w.ready i) (some a) := h.view.rank_of hs
  have hmem := h.view.mem_verts (i := i) hs (v := x) (by simp [hx])
  have hbody : ((w.procs i).ops x).body = N.body i x :=
    ((h.running_of_some hs).same x).body_eq
  have hreq := hrank.chan.flight x hx
  cases hb : N.body i x with
  | nop =>
      rw [hb] at hreq
      cases hreq
  | comp b1 b2 b3 operator =>
      rw [hb] at hreq
      cases hreq
  | send peer tag b =>
      rw [hb] at hbody
      simp only [Net.impl, netImpl, mpiImpl, hbody] at htest
      split at htest
      · next hsync =>
          obtain rfl := Option.some.inj htest
          have hok := hrank.chan.send ⟨hmem, hb⟩
          refine ⟨fun j => (readSend_rank _ _ _ _ _ j).2.2, ?_⟩
          · refine .tail (.single (.read i peer tag ((w.env i).req x))) ?_
            have hlen := hok.len
            have hpos := hok.pos hx
            rw [show (phaseOf (some a)) x = .inflight from hx] at hlen
            obtain ⟨e, he, hp⟩ := RankEnv.readSend_read (w.env i) peer tag ((w.env i).req x) (by
              simp only [Phase.isStarted, if_true] at hlen
              omega)
            obtain ⟨c, hc⟩ := Option.ne_none_iff_exists'.mp hp
            obtain ⟨hinc, hq, _⟩ := readSend_rank i peer tag ((w.env i).req x) w.env i
            refine .sent hs hx hb (c := (e.count, c)) ?_ ?_
            · simp only [hq]
              refine RankEnv.sentAt_eq_some_iff.mpr ⟨e, c, ?_, hc, rfl⟩
              simpa only [readSend, Env.modify_self] using he
            · simp only [hq, (readSend_rank i peer tag ((w.env i).req x) w.env peer).1]
              exact hsync
      · cases htest
  | recv peer tag b =>
      rw [hb] at hbody
      simp only [Net.impl, netImpl, mpiImpl, hbody] at htest
      split at htest
      · next hlt =>
          obtain rfl := Option.some.inj htest
          have hok := hrank.chan.recv ⟨hmem, hb⟩
          have hlen := hok.len
          have hpos := hok.pos hx
          rw [show (phaseOf (some a)) x = .inflight from hx] at hlen
          simp only [Phase.isStarted, if_true, Nat.add_zero] at hlen
          refine ⟨fun j => ?_, ?_⟩
          · rw [(deliver_rank _ _ _ _ _ j).2, (readSend_rank _ _ _ _ _ j).2.2]
          · refine .tail (.tail (.single (.read peer i tag ((w.env i).req x)))
              (.deliver i peer tag ((w.env i).req x))) ?_
            refine .received hs hx hb ?_
            obtain ⟨hinc, hq, _⟩ := readSend_rank peer i tag ((w.env i).req x) w.env i
            simp only [(deliver_rank _ _ _ _ _ i).1, hq]
            obtain ⟨e, he, hp⟩ := RankEnv.readSend_read (w.env peer) i tag ((w.env i).req x) hlt
            obtain ⟨r, hr, hd⟩ := RankEnv.deliver_delivered
              (readSend peer i tag ((w.env i).req x) w.env i) peer tag ((w.env i).req x)
              ((readSend peer i tag ((w.env i).req x) w.env peer).out i tag)[(w.env i).req x]?
              (by rw [hinc]; omega) (by simpa only [readSend, Env.modify_self] using he) hp
            refine ⟨r, ?_, hd⟩
            simpa only [deliver, readSend, Env.modify_self] using hr
      · cases htest

/-- Step lemma: the progress thread finds a request completed. -/
theorem progressStep (hN : N.Channels) {x : Nat}
    (hs : netStep N sync K w (.proc i (.progress x)) = some w') :
    ∃ s', N.Refines sync K w s w' s' ∧ N.toDo K w' s' < N.toDo K w s := by
  simp only [netStep, procStep] at hs
  obtain ⟨⟨env', p'⟩, hp, rfl⟩ := Option.map_eq_some_iff.mp hs
  cases hsi : s i with
  | none =>
      rw [(h.quiet_of_none hsi).not_progressStep] at hp
      cases hp
  | some a =>
      obtain ⟨hx, htest, hrun, hlt⟩ := (h.running_of_some hsi).progressStep hp
      obtain ⟨hround, hm⟩ := h.testMoves hsi hx htest
      exact ⟨_, h.refines_go hN hsi hround hrun hlt hm⟩

/-- Step lemma: `ffschedule_wait` returns. -/
theorem waitStep (hs : netStep N sync K w (.proc i .wait) = some w') :
    N.Refines sync K w s w' (Function.update s i none) ∧
      N.toDo K w' (Function.update s i none) < N.toDo K w s := by
  simp only [netStep, procStep] at hs
  obtain ⟨⟨env', p'⟩, hp, rfl⟩ := Option.map_eq_some_iff.mp hs
  obtain ⟨p'', hw, heq⟩ := Option.map_eq_some_iff.mp hp
  obtain ⟨rfl, rfl⟩ := Prod.mk.inj heq
  cases hsi : s i with
  | none =>
      rw [(h.quiet_of_none hsi).not_waitStep] at hw
      cases hw
  | some a =>
      obtain ⟨he, hq, _⟩ := (h.running_of_some hsi).waitStep (N.wired i) rfl hw
      have hd : ∀ v, v ∈ (N.graph i).verts → (a.phase v).isDone = true := by
        intro v hv
        rw [(h.running_of_some hsi).all_done (N.wired i) he hv]
        rfl
      have hframes : p''.frames = (w.procs i).frames := by
        simp only [ffscheduleWait] at hw
        split at hw
        · obtain rfl := Option.some.inj hw
          rfl
        · cases hw
      refine ⟨⟨⟨h.stack_update hq, h.view.leave hsi hd⟩, .single (.leave hsi hd)⟩, ?_⟩
      refine toDo_lt (i := i) (fun _ _ => rfl) (fun _ _ => rfl) (fun j hj => ?_)
        (fun j hj => ?_) ?_
      · exact Function.update_of_ne hj _ _
      · exact Function.update_of_ne hj _ _
      · simp only [rankToDo, Function.update_self, hsi, hframes, load]
        split <;> omega

omit h in
/-- The network leaves what the processes still have to do as it is. -/
theorem toDo_network {env : Env α} (hround : ∀ j, (env j).round = (w.env j).round) :
    N.toDo K { w with env := env } s = N.toDo K w s := by
  refine Finset.sum_congr rfl (fun j _ => ?_)
  simp only [hround]

/-- **Step lemma**: every step of the processes and of the network is a sequence of moves of
the view, and a step of a process gets them closer to their end. -/
theorem step (hN : N.Channels) {act : NetAct n} (hs : netStep N sync K w act = some w') :
    ∃ s', N.Refines sync K w s w' s' ∧
      N.toDo K w' s' + (if act.isLocal then 1 else 0) ≤ N.toDo K w s := by
  cases act with
  | user i =>
      obtain ⟨hr, hlt⟩ := h.userStep hs
      exact ⟨s, hr, hlt⟩
  | read i j tag k =>
      obtain rfl := Option.some.inj hs
      refine ⟨s, ⟨⟨h.stack, h.view.read i j tag k⟩, .single (.read i j tag k)⟩, ?_⟩
      exact (toDo_network (fun l => (readSend_rank i j tag k w.env l).2.2)).le
  | deliver i j tag k =>
      obtain rfl := Option.some.inj hs
      refine ⟨s, ⟨⟨h.stack, h.view.deliver i j tag k⟩, .single (.deliver i j tag k)⟩, ?_⟩
      exact (toDo_network (fun l => (deliver_rank i j tag k w.env l).2)).le
  | proc i act =>
      cases act with
      | post =>
          obtain ⟨hr, hlt⟩ := h.postStep hs
          exact ⟨_, hr, hlt⟩
      | wait =>
          obtain ⟨hr, hlt⟩ := h.waitStep hs
          exact ⟨_, hr, hlt⟩
      | frame t =>
          obtain ⟨s', hr, hlt⟩ := h.frameStep hN hs
          exact ⟨s', hr, hlt⟩
      | progress x =>
          obtain ⟨s', hr, hlt⟩ := h.progressStep hN hs
          exact ⟨s', hr, hlt⟩

end NetInv

/-! ### Reachable states -/

/-- Run lemma: every run of a program is a run of its view. -/
theorem exists_refines (hN : N.Channels) (hw : Reachable (netStep N sync K) N.initial w) :
    ∃ s, N.Refines sync K N.initial (fun _ => none) w s := by
  refine hw.induction (fun w => ∃ s, N.Refines sync K N.initial (fun _ => none) w s)
    ⟨_, N.netInv_initial K, .refl⟩ (fun w act w' hw hs => ?_)
  obtain ⟨s, hinv, hmoves⟩ := hw
  obtain ⟨s', hr, _⟩ := hinv.step hN hs
  exact ⟨s', hr.inv, hmoves.trans hr.moves⟩

end Net

end Fflib
