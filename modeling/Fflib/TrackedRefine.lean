import Fflib.TrackedInv

/-!
# Processes with tables refine those without

`TrackedInv` joins the invariant of the tables (`TrackedOk`) with that of the processes
(`NetInv`).  A step of a process with its table is a step of the process, or of none: the
progress thread that walks over its ready list does what has been decided by its progress
call (`TrackedInv.step`).

* `TrackedInv.step`: every step makes moves of the view, keeps the invariant, and decreases
  `trackedToDo`, if it is one of a process.
* `exists_tracked`: so does every run.
-/

namespace Fflib

open Library

universe u

/-! ### Order on the stacks -/

/-- The invariant of a round does not depend on the order of the frames, nor on the links of
the operations. -/
theorem Running.congr {G : DepGraph Nat} {ops₀ : Nat → Ffop} {e : Nat} {p q : Proc}
    {a : Progress Nat} (h : Running G ops₀ e p a)
    (hsame : ∀ v, SameOp (q.ops v) (ops₀ v))
    (hleft : ∀ v, (q.ops v).depLeft = (p.ops v).depLeft)
    (hflag : (q.ops e).completed = (p.ops e).completed) (hframes : q.frames.Perm p.frames)
    (hpend : q.pending = p.pending) (hlog : q.log = p.log) (hrun : q.running = p.running) :
    Running G ops₀ e q a where
  same := hsame
  sound := h.sound
  left v hv := (hleft v).trans (h.left v hv)
  flag := hflag.trans h.flag
  tracks v := by
    refine (h.tracks v).congr (hframes.count_eq _) (hframes.count_eq _)
      (fun i _ => hframes.count_eq _) ?_
    rw [hpend]
  loop_mem v i hf := h.loop_mem v i (hframes.mem_iff.mp hf)
  log := by
    rw [hlog]
    exact h.log
  running := hrun.trans h.running

/-- Neither does that between two rounds. -/
theorem Quiet.congr {G : DepGraph Nat} {ops₀ : Nat → Ffop} {e : Nat} {p q : Proc}
    (h : Quiet G ops₀ e p) (hsame : ∀ v, SameOp (q.ops v) (ops₀ v))
    (hleft : ∀ v, (q.ops v).depLeft = (p.ops v).depLeft)
    (hflag : (q.ops e).completed = (p.ops e).completed) (hframes : q.frames.Perm p.frames)
    (hpend : q.pending = p.pending) (hrun : q.running = p.running) : Quiet G ops₀ e q where
  same := hsame
  left v hv := (hleft v).trans (h.left v hv)
  flag := hflag.trans h.flag
  pending := hpend.trans h.pending
  exhausted f hf := h.exhausted f (hframes.mem_iff.mp hf)
  running := hrun.trans h.running

/-- The operations `l` are on the ready list, and not pending any more. -/
def Proc.reported (p : Proc) (l : List Nat) : Proc :=
  { p.append l with pending := p.pending.diff l }

/-- The same of rank `i`. -/
def NetState.reported {α : Type u} {n : Nat} (w : NetState α n) (i : Fin n) (env : Env α)
    (l : List Nat) : NetState α n where
  env := env
  procs := Function.update w.procs i ((w.procs i).reported l)
  ready := w.ready

namespace Net

variable {α : Type u} {n : Nat} {N : Net α n} {K : Nat} {sync : Bool} {w w' : NetState α n}
  {s s' : Fin n → Option (Progress Nat)} {i : Fin n}

/-- The sends and receives of a rank. -/
def requests (N : Net α n) (i : Fin n) : Finset Nat :=
  (N.graph i).verts.filter fun v => (N.body i v).isRequest = true

/-- The table has a slot for every request of a schedule. -/
def FitsTable (N : Net α n) : Prop := ∀ i, (N.requests i).card ≤ ffmpiMaxReq

namespace NetInv

variable (h : N.NetInv K w s)
include h

/-- Pending operations are distinct, and requests. -/
theorem pending_ok (i : Fin n) :
    (w.procs i).pending.Nodup ∧ ∀ x, x ∈ (w.procs i).pending → x ∈ N.requests i := by
  cases hs : s i with
  | none =>
      rw [(h.quiet_of_none hs).pending]
      exact ⟨List.nodup_nil, fun _ hx => by cases hx⟩
  | some a =>
      have hr := h.running_of_some hs
      refine ⟨List.nodup_iff_count_le_one.mpr (fun x => ?_), fun x hx => ?_⟩
      · rw [(hr.tracks x).pending]
        split <;> omega
      · have hphase := hr.phase_of_pending hx
        refine Finset.mem_filter.mpr ⟨hr.sound.mem_verts (by simp [hphase]), ?_⟩
        exact (h.view.rank_of hs).chan.flight x hphase

/-- The order of the frames and the links of the operations may change. -/
theorem congr {p : Proc} (hsame : ∀ v, SameOp (p.ops v) ((w.procs i).ops v))
    (hleft : ∀ v, (p.ops v).depLeft = ((w.procs i).ops v).depLeft)
    (hflag : ∀ v, (p.ops v).completed = ((w.procs i).ops v).completed)
    (hframes : p.frames.Perm (w.procs i).frames) (hpend : p.pending = (w.procs i).pending)
    (hlog : p.log = (w.procs i).log) (hrun : p.running = (w.procs i).running) :
    N.NetInv K { w with procs := Function.update w.procs i p } s ∧
      N.toDo K { w with procs := Function.update w.procs i p } s = N.toDo K w s := by
  have htrans : ∀ {o : Ffop} {v : Nat}, SameOp ((w.procs i).ops v) o → SameOp (p.ops v) o := by
    intro o v ho
    have hv := hsame v
    exact ⟨hv.body_eq.trans ho.body_eq, hv.dependent_eq.trans ho.dependent_eq,
      hv.out_eq.trans ho.out_eq, hv.in_eq.trans ho.in_eq, hv.options_eq.trans ho.options_eq⟩
  refine ⟨⟨fun j => ?_, h.view⟩, Finset.sum_congr rfl (fun j _ => ?_)⟩
  · have hj := h.stack_update (i := i) (p := p) (r := s i) ?_ j
    · rwa [Function.update_eq_self] at hj
    · cases hs : s i with
      | none =>
          have hq := h.quiet_of_none hs
          exact hq.congr (fun v => htrans (hq.same v)) hleft (hflag _) hframes hpend hrun
      | some a =>
          have hq := h.running_of_some hs
          exact hq.congr (fun v => htrans (hq.same v)) hleft (hflag _) hframes hpend hlog hrun
  · by_cases hj : j = i
    · subst hj
      simp only [Function.update_self, rankToDo, load, hframes.length_eq]
    · simp only [Function.update_of_ne hj]

/-- The progress call finds an operation completed, which waits for the loop to get to it. -/
theorem reportStep (hN : N.Channels) {x : Nat} {env : Env α} (hx : x ∈ (w.procs i).pending)
    (htest : (N.impl sync i).test x ((w.procs i).ops x) w.env = some env) :
    ∃ s', N.Refines sync K w s (w.reported i env [x]) s' ∧
      N.toDo K (w.reported i env [x]) s' < N.toDo K w s := by
  cases hs : s i with
  | none =>
      rw [(h.quiet_of_none hs).pending] at hx
      cases hx
  | some a =>
      have hr := h.running_of_some hs
      -- the step lemma asks for an empty stack: the frames move to the other one
      have hmoved : Running (N.graph i) (N.lib i).ops (N.sched i).endOp
          { w.procs i with user := (w.procs i).frames, prog := [] } a :=
        hr.congr hr.same (fun _ => rfl) rfl (by simp [Proc.frames]) rfl rfl rfl
      have hstep : Fflib.progressStep (N.impl sync i) x w.env
          { w.procs i with user := (w.procs i).frames, prog := [] } = some (env,
            { w.procs i with
              user := (w.procs i).frames
              pending := (w.procs i).pending.erase x
              prog := [.complete x] }) := by
        simp [Fflib.progressStep, hx, htest]
      obtain ⟨hphase, _, hrun, hlt⟩ := hmoved.progressStep hstep
      have hpend : ((w.procs i).reported [x]).pending = (w.procs i).pending.erase x := by
        simp [Proc.reported]
      obtain ⟨hround, hm⟩ := h.testMoves hs hphase htest
      refine ⟨_, h.refines_go hN hs hround
        (hrun.congr hrun.same (fun _ => rfl) rfl ?_ hpend rfl rfl) ?_ hm⟩
      · simp [Proc.frames, Proc.reported]
      · simp only [load, Proc.frames, Proc.reported, Proc.append, List.length_append,
          List.length_map, List.length_singleton, List.append_nil] at hlt ⊢
        omega

/-- A progress call that finds several operations completed. -/
theorem reportAll (hN : N.Channels) {l : List Nat} {env : Env α}
    (hl : ∀ x, x ∈ l → x ∈ (w.procs i).pending) (hnd : l.Nodup)
    (htest : testAll (N.impl sync i) (w.procs i).ops l w.env = some env) :
    ∃ s', N.Refines sync K w s (w.reported i env l) s' ∧
      N.toDo K (w.reported i env l) s' + l.length ≤ N.toDo K w s := by
  induction l generalizing w s with
  | nil =>
      obtain rfl := Option.some.inj htest
      have hsame : w.reported i w.env [] = w := by
        simp [NetState.reported, Proc.reported, Proc.append_nil, Function.update_eq_self]
      rw [hsame]
      exact ⟨s, ⟨h, .refl⟩, le_rfl⟩
  | cons x l ih =>
      obtain ⟨env₁, hx, htest⟩ := Option.bind_eq_some_iff.mp htest
      obtain ⟨hnot, hnd⟩ := List.nodup_cons.mp hnd
      obtain ⟨s₁, hr₁, hlt⟩ := h.reportStep hN (hl x List.mem_cons_self) hx
      have hmem : ∀ y, y ∈ l → y ∈ ((w.reported i env₁ [x]).procs i).pending := by
        intro y hy
        have hyx : y ≠ x := by
          rintro rfl
          exact hnot hy
        simp only [NetState.reported, Function.update_self, Proc.reported, List.diff_cons,
          List.diff_nil]
        exact (List.mem_erase_of_ne hyx).mpr (hl y (List.mem_cons_of_mem x hy))
      have hops : ((w.reported i env₁ [x]).procs i).ops = (w.procs i).ops := by
        simp [NetState.reported, Proc.reported]
      obtain ⟨s', hr, hle⟩ := ih hr₁.inv hmem hnd (by rw [hops]; exact htest)
      have hjoin : (w.reported i env₁ [x]).reported i env l = w.reported i env (x :: l) := by
        simp [NetState.reported, Proc.reported, Proc.append]
      rw [hjoin] at hr hle
      refine ⟨s', ⟨hr.inv, hr₁.moves.trans hr.moves⟩, ?_⟩
      rw [List.length_cons]
      omega

end NetInv

/-! ### The invariant of all processes -/

variable (N) in
/-- `free i` are the free slots of rank `i`, and `r i` the operations on its ready list. -/
structure TrackedInv (K : Nat) (v : TrackedState α n) (s : Fin n → Option (Progress Nat))
    (free r : Fin n → List Nat) : Prop where
  net : N.NetInv K (v.abs r) s
  table : ∀ i, TrackedOk (v.procs i) (free i) (r i)

/-- What a rank still has to do with its ready list. -/
def listToDo (c : TrackedProc) (r : List Nat) : Nat :=
  2 * r.length + match c.walk with
    | .test _ => 0
    | .advance _ => 1

variable (N) in
/-- What all ranks still have to do. -/
def trackedToDo (K : Nat) (v : TrackedState α n) (s : Fin n → Option (Progress Nat))
    (r : Fin n → List Nat) : Nat :=
  4 * N.toDo K (v.abs r) s + ∑ i, listToDo (v.procs i) (r i)

variable (N) in
/-- A step of the tables, seen by the view; it gets `d` steps closer to the end. -/
structure TrackedMove (sync : Bool) (K : Nat) (v v' : TrackedState α n)
    (s s' : Fin n → Option (Progress Nat)) (r r' : Fin n → List Nat) (d : Nat) : Prop where
  moves : Relation.ReflTransGen (N.ViewMove sync K) ⟨v.env, v.ready, s⟩ ⟨v'.env, v'.ready, s'⟩
  load : N.trackedToDo K v' s' r' + d ≤ N.trackedToDo K v s r

section Tables

variable {v v' : TrackedState α n} {free r : Fin n → List Nat}

/-- Only the links change when operations are enqueued. -/
theorem enqueueAll_of {β : Type} (g : Ffop → β) (hg : ∀ o h, g { o with next := h } = g o)
    (ready : List Nat) (ops : Nat → Ffop) (h : Option Nat) (b : Nat) :
    g ((enqueueAll ready ops h).1 b) = g (ops b) := by
  induction ready generalizing ops h with
  | nil => rfl
  | cons op ready ih =>
      rw [enqueueAll, ih]
      by_cases hb : b = op
      · subst hb
        simp [ffopEnqueue, hg]
      · simp [ffopEnqueue, hb]

variable (N) in
theorem trackedInitial_abs (mem : Nat → ArmanEntry) :
    (N.trackedInitial mem).abs (fun _ => []) = N.initial := by
  simp [TrackedState.abs, trackedInitial, Proc.append_nil]

variable (N) in
theorem trackedInv_initial (K : Nat) (mem : Nat → ArmanEntry) :
    N.TrackedInv K (N.trackedInitial mem) (fun _ => none) (fun _ => List.range ffmpiMaxReq)
      (fun _ => []) where
  net := by
    rw [N.trackedInitial_abs mem]
    exact N.netInv_initial K
  table i := trackedOk_init mem _

/-- What a state with another process in place of `i` stands for. -/
theorem abs_update (v : TrackedState α n) (r : Fin n → List Nat) (i : Fin n) (c : TrackedProc)
    (l : List Nat) (env : Env α) (ready : Fin n → Bool) :
    TrackedState.abs { env := env, procs := Function.update v.procs i c, ready := ready }
        (Function.update r i l) =
      { env := env
        procs := Function.update (v.abs r).procs i (c.proc.append l)
        ready := ready } := by
  simp only [TrackedState.abs, NetState.mk.injEq, true_and, and_true]
  funext j
  by_cases hj : j = i
  · subst hj
    simp only [Function.update_self]
  · simp only [Function.update_of_ne hj]

/-- The list of a process that goes on. -/
theorem listToDo_update {c : TrackedProc} (hwalk : c.walk = (v.procs i).walk) (j : Fin n) :
    listToDo (Function.update v.procs i c j) (r j) = listToDo (v.procs j) (r j) := by
  by_cases hj : j = i
  · subst hj
    simp only [Function.update_self, listToDo, hwalk]
  · simp only [Function.update_of_ne hj]

theorem sum_listToDo_update (v : TrackedState α n) (r : Fin n → List Nat) (i : Fin n)
    (c : TrackedProc) (l : List Nat) :
    (∑ j, listToDo (Function.update v.procs i c j) (Function.update r i l j)) +
      listToDo (v.procs i) (r i) = (∑ j, listToDo (v.procs j) (r j)) + listToDo c l := by
  rw [← Finset.add_sum_erase _ _ (Finset.mem_univ i),
    ← Finset.add_sum_erase _ (fun j => listToDo (v.procs j) (r j)) (Finset.mem_univ i),
    Finset.sum_congr rfl (g := fun j => listToDo (v.procs j) (r j)) (fun j hj => ?_)]
  · simp only [Function.update_self]
    omega
  · simp only [Function.update_of_ne (Finset.ne_of_mem_erase hj)]

/-- A step of the loop of rank `i`, and `d` of its process. -/
theorem trackedToDo_update {c : TrackedProc} {l : List Nat} {env : Env α} {ready : Fin n → Bool}
    {d k : Nat}
    (habs : N.toDo K (TrackedState.abs
        { env := env, procs := Function.update v.procs i c, ready := ready }
        (Function.update r i l)) s' + d ≤ N.toDo K (v.abs r) s)
    (hlist : listToDo c l + k ≤ listToDo (v.procs i) (r i) + 4 * d) :
    N.trackedToDo K { env := env, procs := Function.update v.procs i c, ready := ready } s'
      (Function.update r i l) + k ≤ N.trackedToDo K v s r := by
  have hsum := sum_listToDo_update v r i c l
  simp only [trackedToDo]
  omega

/-- The loop gets to the operations in the reverse order, by the links of their fields. -/
theorem NetInv.relink {env : Env α} {l : List Nat}
    (h : N.NetInv K ((v.abs r).reported i env l) s) (hr : r i = []) :
    N.NetInv K
        { env := env
          procs := Function.update (v.abs r).procs i
            (Proc.append { (v.procs i).proc with
              ops := (enqueueAll l (v.procs i).proc.ops none).1
              pending := (v.procs i).proc.pending.diff l } l.reverse)
          ready := v.ready } s ∧
      N.toDo K
        { env := env
          procs := Function.update (v.abs r).procs i
            (Proc.append { (v.procs i).proc with
              ops := (enqueueAll l (v.procs i).proc.ops none).1
              pending := (v.procs i).proc.pending.diff l } l.reverse)
          ready := v.ready } s = N.toDo K ((v.abs r).reported i env l) s := by
  have hproc : ((v.abs r).reported i env l).procs i = ((v.procs i).proc.append (r i)).reported l :=
    Function.update_self _ _ _
  have hcongr := h.congr (i := i) (p := Proc.append { (v.procs i).proc with
      ops := (enqueueAll l (v.procs i).proc.ops none).1
      pending := (v.procs i).proc.pending.diff l } l.reverse)
  rw [hproc] at hcongr
  have hdone := hcongr
    (fun x => ⟨enqueueAll_of Ffop.body (fun _ _ => rfl) l _ none x,
      enqueueAll_of Ffop.dependent (fun _ _ => rfl) l _ none x,
      enqueueAll_of Ffop.outDepCount (fun _ _ => rfl) l _ none x,
      enqueueAll_of Ffop.inDepCount (fun _ _ => rfl) l _ none x,
      enqueueAll_of Ffop.options (fun _ _ => rfl) l _ none x⟩)
    (fun x => enqueueAll_of Ffop.depLeft (fun _ _ => rfl) l _ none x)
    (fun x => enqueueAll_of Ffop.completed (fun _ _ => rfl) l _ none x)
    (by
      simp only [Proc.frames, Proc.reported, Proc.append, hr, List.map_nil, List.append_nil]
      exact ((List.reverse_perm l).map _).append_left _ |>.append_left _)
    rfl rfl rfl
  have hset : ∀ p, { (v.abs r).reported i env l with
      procs := Function.update ((v.abs r).reported i env l).procs i p } =
      ({ env := env, procs := Function.update (v.abs r).procs i p, ready := v.ready } :
        NetState α n) := by
    intro p
    simp only [NetState.reported, Function.update_idem]
    rfl
  rwa [hset] at hdone

variable (h : N.TrackedInv K v s free r)
include h

/-- Only the table of rank `i` changes. -/
theorem TrackedInv.table_update {c : TrackedProc} {f l : List Nat} (hc : TrackedOk c f l)
    (j : Fin n) : TrackedOk (Function.update v.procs i c j) (Function.update free i f j)
      (Function.update r i l j) := by
  by_cases hj : j = i
  · subst hj
    simpa only [Function.update_self] using hc
  · simpa only [Function.update_of_ne hj] using h.table j

/-- The same, when the ready lists stay as they are. -/
theorem TrackedInv.table_same {c : TrackedProc} {f : List Nat} (hc : TrackedOk c f (r i)) :
    ∃ free' : Fin n → List Nat,
      ∀ j, TrackedOk (Function.update v.procs i c j) (free' j) (r j) := by
  refine ⟨Function.update free i f, fun j => ?_⟩
  have hj := h.table_update (i := i) hc j
  rwa [Function.update_eq_self] at hj

/-- A step of the processes without their tables. -/
theorem TrackedInv.ofStep (hN : N.Channels) {act : NetAct n}
    (hs : netStep N sync K (v.abs r) act = some (v'.abs r)) (hlocal : act.isLocal = true)
    (hlist : ∀ j, listToDo (v'.procs j) (r j) = listToDo (v.procs j) (r j))
    (htable : ∀ s', N.NetInv K (v'.abs r) s' →
      ∃ free' : Fin n → List Nat, ∀ j, TrackedOk (v'.procs j) (free' j) (r j)) :
    ∃ s' free', N.TrackedInv K v' s' free' r ∧ N.TrackedMove sync K v v' s s' r r 1 := by
  obtain ⟨s', hr, hle⟩ := h.net.step hN hs
  obtain ⟨free', hfree⟩ := htable s' hr.inv
  rw [if_pos hlocal] at hle
  refine ⟨s', free', ⟨hr.inv, hfree⟩, hr.moves, ?_⟩
  simp only [trackedToDo, hlist]
  omega

/-- Step lemma: the code before a round. -/
theorem TrackedInv.userStep (hN : N.Channels)
    (hs : N.trackedStep sync K v (.user i) = some v') :
    ∃ s' free', N.TrackedInv K v' s' free' r ∧ N.TrackedMove sync K v v' s s' r r 1 := by
  simp only [trackedStep] at hs
  split at hs
  · next hc =>
      obtain rfl := Option.some.inj hs
      have hstep : netStep N sync K (v.abs r) (.user i) = some (TrackedState.abs { v with
          env := v.env.modify i (N.runUser i)
          ready := Function.update v.ready i true } r) := if_pos hc
      exact h.ofStep hN hstep rfl (fun _ => rfl) (fun _ _ => ⟨free, h.table⟩)
  · cases hs

/-- Step lemma: a frame of a cascade. -/
theorem TrackedInv.frameStep (hN : N.Channels) (hfit : N.FitsTable) {t : Thread}
    (hs : N.trackedStep sync K v (.proc i (.main (.frame t))) = some v') :
    ∃ s' free', N.TrackedInv K v' s' free' r ∧ N.TrackedMove sync K v v' s s' r r 1 := by
  obtain ⟨⟨env', c'⟩, hp, rfl⟩ := Option.map_eq_some_iff.mp hs
  obtain ⟨⟨⟨e', tr'⟩, p'⟩, hf, hc⟩ := Option.map_eq_some_iff.mp hp
  obtain ⟨rfl, rfl⟩ := Prod.mk.inj hc
  obtain ⟨habs, htracks⟩ := frameStep_tracked hf (r i)
  have hnext := (frameStep_sameLinks hf).next_eq
  have hprog := frameStep_prog_nil hf
  have hupdate := abs_update v r i { v.procs i with proc := p', tracker := tr' } (r i) e' v.ready
  rw [Function.update_eq_self] at hupdate
  have hstep : netStep N sync K (v.abs r) (.proc i (.frame t)) = some (TrackedState.abs { v with
      env := e'
      procs := Function.update v.procs i { v.procs i with proc := p', tracker := tr' } } r) := by
    have habs' : Fflib.frameStep (N.impl sync i) t (v.abs r).env ((v.abs r).procs i) =
        some (e', p'.append (r i)) := habs
    simp only [netStep, procStep, habs', Option.map_some]
    exact congrArg some hupdate.symm
  refine h.ofStep hN hstep rfl (listToDo_update rfl) (fun s' hinv => ?_)
  -- what has become pending is on the other side of a step that keeps the invariant
  have hpend := hinv.pending_ok i
  rw [hupdate] at hpend
  simp only [Function.update_self, Proc.append_pending] at hpend
  rcases htracks with ⟨rfl, heq⟩ | ⟨x, heq, rfl⟩
  · exact h.table_same ((h.table i).keep heq hnext hprog)
  · have heq : p'.pending = x :: (v.procs i).proc.pending := heq
    rw [heq] at hpend
    obtain ⟨hnd, hreq⟩ := hpend
    obtain ⟨hnot, _⟩ := List.nodup_cons.mp hnd
    have hfree : free i ≠ [] := by
      intro hnil
      have hok := h.table i
      rw [hnil] at hok
      have hcard := hok.full (s := (N.requests i).erase x) (fun y hy => Finset.mem_erase.mpr
        ⟨fun heq => hnot (heq ▸ hy), hreq y (List.mem_cons_of_mem x hy)⟩)
      rw [Finset.card_erase_of_mem (hreq x List.mem_cons_self)] at hcard
      have hpos := Finset.card_pos.mpr ⟨x, hreq x List.mem_cons_self⟩
      have := hfit i
      omega
    obtain ⟨f, hok⟩ := (h.table i).post heq hnot hnext hprog hfree
    exact h.table_same hok

/-- Rank `i` moves without its table, and neither its links nor its pending list change. -/
theorem TrackedInv.keepStep (hN : N.Channels) (act : ProcAct) {p : Proc} {env : Env α}
    {ready : Fin n → Bool}
    (hs : netStep N sync K (v.abs r) (.proc i act) = some
      { env := env
        procs := Function.update (v.abs r).procs i (p.append (r i))
        ready := ready })
    (hpend : p.pending = (v.procs i).proc.pending)
    (hnext : nexts p.ops = nexts (v.procs i).proc.ops) (hprog : p.prog = (v.procs i).proc.prog) :
    ∃ s' free', N.TrackedInv K
        { env := env
          procs := Function.update v.procs i { v.procs i with proc := p }
          ready := ready } s' free' r ∧
      N.TrackedMove sync K v
        { env := env
          procs := Function.update v.procs i { v.procs i with proc := p }
          ready := ready } s s' r r 1 := by
  have hupdate := abs_update v r i { v.procs i with proc := p } (r i) env ready
  rw [Function.update_eq_self] at hupdate
  refine h.ofStep hN (hs.trans (congrArg some hupdate.symm)) rfl (listToDo_update rfl)
    (fun _ _ => ?_)
  exact h.table_same ((h.table i).keep hpend hnext (fun hnil => hprog.trans hnil))

/-- Step lemma: `ffschedule_post`. -/
theorem TrackedInv.postStep (hN : N.Channels)
    (hs : N.trackedStep sync K v (.proc i (.main .post)) = some v') :
    ∃ s' free', N.TrackedInv K v' s' free' r ∧ N.TrackedMove sync K v v' s s' r r 1 := by
  simp only [trackedStep] at hs
  split at hs
  · next hready =>
      obtain ⟨⟨env', c'⟩, hp, rfl⟩ := Option.map_eq_some_iff.mp hs
      obtain ⟨⟨⟨e', tr'⟩, p'⟩, hpost, hc⟩ := Option.map_eq_some_iff.mp hp
      obtain ⟨rfl, rfl⟩ := Prod.mk.inj hc
      obtain ⟨huser, hrun, henv, rfl⟩ := ffschedulePost_eq_some hpost
      rw [N.callback i] at henv
      simp only [Option.isSome_none, Bool.false_eq_true, if_false, Prod.mk.injEq] at henv
      obtain ⟨rfl, rfl⟩ := henv
      refine h.keepStep hN .post ?_ rfl rfl rfl
      have hready' : (v.abs r).ready i = true := hready
      have hcond : ((v.abs r).procs i).user = [] ∧ ((v.abs r).procs i).running = false :=
        ⟨huser, hrun⟩
      simp only [netStep, if_pos hready', ffschedulePost, if_pos hcond, N.callback i,
        Option.isSome_none, Bool.false_eq_true, if_false, Option.map_some]
      rfl
  · cases hs

/-- Step lemma: `ffschedule_wait` returns. -/
theorem TrackedInv.waitStep (hN : N.Channels)
    (hs : N.trackedStep sync K v (.proc i (.main .wait)) = some v') :
    ∃ s' free', N.TrackedInv K v' s' free' r ∧ N.TrackedMove sync K v v' s s' r r 1 := by
  obtain ⟨⟨env', c'⟩, hp, rfl⟩ := Option.map_eq_some_iff.mp hs
  obtain ⟨⟨⟨e', tr'⟩, p'⟩, hw, hc⟩ := Option.map_eq_some_iff.mp hp
  obtain ⟨p'', hwait, heq⟩ := Option.map_eq_some_iff.mp hw
  obtain ⟨rfl, rfl⟩ := Prod.mk.inj hc
  obtain ⟨hpair, rfl⟩ := Prod.mk.inj heq
  obtain ⟨rfl, rfl⟩ := Prod.mk.inj hpair
  simp only [ffscheduleWait] at hwait
  split at hwait
  · next hcond =>
      obtain rfl := Option.some.inj hwait
      refine h.keepStep hN .wait ?_ rfl ?_ rfl
      · have hcond' : ((v.abs r).procs i).user = [] ∧ ((v.abs r).procs i).running = true ∧
          (((v.abs r).procs i).ops (N.sched i).endOp).completed ≠ 0 := hcond
        simp only [netStep, procStep, ffscheduleWait, if_pos hcond', Option.map_some]
        rfl
      · funext x
        by_cases hx : x = (N.sched i).endOp
        · simp [nexts, Proc.setOp, hx]
        · simp [nexts, Proc.setOp, hx]
  · cases hwait

/-- Step lemma: a progress call that reports anything comes closer to the end. -/
theorem TrackedInv.reportStep (hN : N.Channels) {indices : List Nat}
    (hs : N.trackedStep sync K v (.proc i (.report indices)) = some v') :
    ∃ s' free' r', N.TrackedInv K v' s' free' r' ∧
      N.TrackedMove sync K v v' s s' r r' (2 * indices.length) := by
  obtain ⟨⟨env', c'⟩, hp, rfl⟩ := Option.map_eq_some_iff.mp hs
  simp only [trackedProcStep] at hp
  split at hp
  · next hc =>
      obtain ⟨hwalk, hprog, hreport⟩ := hc
      obtain ⟨e', htest, hp⟩ := Option.bind_eq_some_iff.mp hp
      obtain ⟨q, hq, heq⟩ := Option.map_eq_some_iff.mp hp
      obtain ⟨rfl, rfl⟩ := Prod.mk.inj heq
      have hnil : r i = [] := by
        have hl := (h.table i).linked
        rw [TrackedProc.cursor, hwalk] at hl
        cases hr : r i with
        | nil => rfl
        | cons x l =>
            rw [hr] at hl
            cases hl.1
      have hok := h.table i
      rw [hnil] at hok
      have hpend := h.net.pending_ok i
      have hnd : (v.procs i).proc.pending.Nodup := hpend.1
      obtain ⟨tracker, free', hprogress, hok'⟩ := hok.report hreport hnd hprog
      rw [hprogress] at hq
      obtain rfl := Option.some.inj hq
      rw [hok.requests_eq hreport] at htest
      have hl : ∀ x, x ∈ (v.procs i).tracker.opsOf indices →
          x ∈ ((v.abs r).procs i).pending := by
        intro x hx
        obtain ⟨j, _, hj⟩ := hok.mem_opsOf.mp hx
        exact (hok.tracked x).mpr ⟨j, hj⟩
      obtain ⟨s', hr, hle⟩ := h.net.reportAll hN hl (hok.opsOf_nodup hreport) htest
      obtain ⟨hinv, htodo⟩ := hr.inv.relink hnil
      have hupdate := abs_update v r i
        { proc := { (v.procs i).proc with
            ops := (enqueueAll ((v.procs i).tracker.opsOf indices) (v.procs i).proc.ops none).1
            pending := (v.procs i).proc.pending.diff ((v.procs i).tracker.opsOf indices) }
          tracker := tracker
          walk := .test (enqueueAll ((v.procs i).tracker.opsOf indices)
            (v.procs i).proc.ops none).2 }
        ((v.procs i).tracker.opsOf indices).reverse e' v.ready
      have htable := h.table_update (i := i) hok'
      refine ⟨s', Function.update free i free',
        Function.update r i ((v.procs i).tracker.opsOf indices).reverse,
        ⟨?_, htable⟩, ?_, ?_⟩
      · exact hupdate ▸ hinv
      · exact hr.moves
      · refine trackedToDo_update (d := ((v.procs i).tracker.opsOf indices).length) ?_ ?_
        · rw [hupdate, htodo]
          exact hle
        · have hlen := hok.opsOf_length hreport
          simp only [listToDo, hwalk, hnil, List.length_reverse, List.length_nil]
          omega
  · cases hp

/-- Only the loop of rank `i` moves: what has been decided does not change. -/
theorem TrackedInv.loopStep {c : TrackedProc} {l : List Nat} (hc : TrackedOk c (free i) l)
    (happend : c.proc.append l = (v.procs i).proc.append (r i))
    (hlist : listToDo c l < listToDo (v.procs i) (r i)) :
    ∃ s' free' r', N.TrackedInv K { v with procs := Function.update v.procs i c } s' free' r' ∧
      N.TrackedMove sync K v { v with procs := Function.update v.procs i c } s s' r r' 1 := by
  have habs : TrackedState.abs { v with procs := Function.update v.procs i c }
      (Function.update r i l) = v.abs r := by
    rw [abs_update, happend]
    exact congrArg (NetState.mk v.env · v.ready) (Function.update_eq_self i _)
  refine ⟨s, Function.update free i (free i), Function.update r i l, ⟨?_, h.table_update hc⟩,
    .refl, trackedToDo_update (d := 0) ?_ ?_⟩
  · rw [habs]
    exact h.net
  · rw [habs, Nat.add_zero]
  · omega

/-- Step lemma: the loop calls the completion of the next operation. -/
theorem TrackedInv.callStep (hs : N.trackedStep sync K v (.proc i .call) = some v') :
    ∃ s' free' r', N.TrackedInv K v' s' free' r' ∧ N.TrackedMove sync K v v' s s' r r' 1 := by
  obtain ⟨⟨env', c'⟩, hp, rfl⟩ := Option.map_eq_some_iff.mp hs
  simp only [trackedProcStep] at hp
  split at hp
  · next op hwalk =>
      split at hp
      · next hprog =>
          obtain ⟨rfl, rfl⟩ := Prod.mk.inj (Option.some.inj hp)
          have hok := h.table i
          have hlinked := hok.linked
          rw [TrackedProc.cursor, hwalk] at hlinked
          cases hr : r i with
          | nil =>
              rw [hr] at hlinked
              cases hlinked
          | cons x l =>
              rw [hr] at hlinked
              obtain ⟨hx, hl⟩ := hlinked
              obtain rfl := Option.some.inj hx
              refine h.loopStep (l := l) ⟨hok.table, hok.handle, hok.tracked, hok.once, hl,
                fun _ hw => by cases hw⟩ ?_ ?_
              · simp [Proc.append, hr, hprog]
              · simp only [listToDo, hwalk, hr, List.length_cons]
                omega
      · cases hp
  · cases hp

/-- Step lemma: the loop goes on to the next operation. -/
theorem TrackedInv.advanceStep (hs : N.trackedStep sync K v (.proc i .advance) = some v') :
    ∃ s' free' r', N.TrackedInv K v' s' free' r' ∧ N.TrackedMove sync K v v' s s' r r' 1 := by
  obtain ⟨⟨env', c'⟩, hp, rfl⟩ := Option.map_eq_some_iff.mp hs
  simp only [trackedProcStep] at hp
  split at hp
  · next op hwalk =>
      split at hp
      · next hprog =>
          obtain ⟨rfl, rfl⟩ := Prod.mk.inj (Option.some.inj hp)
          have hok := h.table i
          have hlinked := hok.linked
          rw [TrackedProc.cursor, hwalk] at hlinked
          refine h.loopStep (l := r i) ⟨hok.table, hok.handle, hok.tracked, hok.once, hlinked,
            fun _ _ => hprog⟩ rfl ?_
          simp only [listToDo, hwalk]
          omega
      · cases hp
  · cases hp

/-- **Step lemma**: every step of the processes with their tables, and of the network, is a
sequence of moves of the view, and a step of a process gets them closer to their end. -/
theorem TrackedInv.step (hN : N.Channels) (hfit : N.FitsTable) {act : TrackedAct n}
    (hs : N.trackedStep sync K v act = some v') :
    ∃ s' free' r', N.TrackedInv K v' s' free' r' ∧
      N.TrackedMove sync K v v' s s' r r' (if act.isLocal then 1 else 0) := by
  cases act with
  | user i =>
      obtain ⟨s', free', hinv, hm⟩ := h.userStep hN hs
      exact ⟨s', free', r, hinv, hm⟩
  | read i j tag k =>
      obtain rfl := Option.some.inj hs
      refine ⟨s, free, r, ⟨⟨h.net.stack, h.net.view.read i j tag k⟩, h.table⟩,
        .single (.read i j tag k), ?_⟩
      have htodo := NetInv.toDo_network (N := N) (K := K) (w := v.abs r) (s := s)
        (fun l => (readSend_rank i j tag k v.env l).2.2)
      exact (congrArg (4 * · + ∑ j, listToDo (v.procs j) (r j)) htodo).le
  | deliver i j tag k =>
      obtain rfl := Option.some.inj hs
      refine ⟨s, free, r, ⟨⟨h.net.stack, h.net.view.deliver i j tag k⟩, h.table⟩,
        .single (.deliver i j tag k), ?_⟩
      have htodo := NetInv.toDo_network (N := N) (K := K) (w := v.abs r) (s := s)
        (fun l => (deliver_rank i j tag k v.env l).2)
      exact (congrArg (4 * · + ∑ j, listToDo (v.procs j) (r j)) htodo).le
  | proc i act =>
      cases act with
      | call => exact h.callStep hs
      | advance => exact h.advanceStep hs
      | report indices =>
          obtain ⟨s', free', r', hinv, hm⟩ := h.reportStep hN hs
          refine ⟨s', free', r', hinv, hm.moves, ?_⟩
          have hload := hm.load
          cases indices with
          | nil => simpa [TrackedAct.isLocal] using hload
          | cons j indices =>
              simp only [TrackedAct.isLocal, List.isEmpty_cons, Bool.not_false, if_true]
              rw [List.length_cons] at hload
              omega
      | main act =>
          cases act with
          | post =>
              obtain ⟨s', free', hinv, hm⟩ := h.postStep hN hs
              exact ⟨s', free', r, hinv, hm⟩
          | wait =>
              obtain ⟨s', free', hinv, hm⟩ := h.waitStep hN hs
              exact ⟨s', free', r, hinv, hm⟩
          | frame t =>
              obtain ⟨s', free', hinv, hm⟩ := h.frameStep hN hfit hs
              exact ⟨s', free', r, hinv, hm⟩
          | progress x =>
              -- requests are tested through the table only
              simp [trackedStep, trackedProcStep, procStep, Fflib.progressStep, trackedImpl] at hs

end Tables

/-- Run lemma: every run of the processes with their tables is one of the view. -/
theorem exists_tracked (hN : N.Channels) (hfit : N.FitsTable) {mem : Nat → ArmanEntry}
    {v : TrackedState α n} (hv : Reachable (N.trackedStep sync K) (N.trackedInitial mem) v) :
    ∃ s free r, N.TrackedInv K v s free r ∧
      Relation.ReflTransGen (N.ViewMove sync K) N.start ⟨v.env, v.ready, s⟩ := by
  refine hv.induction (fun v => ∃ s free r, N.TrackedInv K v s free r ∧
      Relation.ReflTransGen (N.ViewMove sync K) N.start ⟨v.env, v.ready, s⟩)
    ⟨_, _, _, N.trackedInv_initial K mem, .refl⟩ (fun v act v' hv hs => ?_)
  obtain ⟨s, free, r, hinv, hmoves⟩ := hv
  obtain ⟨s', free', r', hinv', hm⟩ := hinv.step hN hfit hs
  exact ⟨s', free', r', hinv', hmoves.trans hm.moves⟩

end Net

end Fflib
