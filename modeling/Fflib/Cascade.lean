import Fflib.Engine
import Fflib.Wiring

/-!
# The cascade executes the graph of the schedule

During a round the stacks, the pending list, the `dep_left` counters and the log
of a process follow an execution of the schedule's graph by counting
(`Fflib.Library.Countdown`).

* `Wired` says what a finished schedule guarantees of its graph;
  `ScheduleBuilt.wired` provides it.
* `Running` is the invariant of a round, `Quiet` that of a process between two
  rounds.
* `Running.frameStep`, `Running.progressStep`, `Running.waitStep` and
  `Quiet.postStep` are the step lemmas; `FrameEffect` lists what one frame can do.
* `load` is a measure that every step inside a round decreases.
-/

namespace Fflib

open Library

universe u

/-- What is written once, when the schedule is built. -/
structure SameOp (o o₀ : Ffop) : Prop where
  body_eq : o.body = o₀.body
  dependent_eq : o.dependent = o₀.dependent
  out_eq : o.outDepCount = o₀.outDepCount
  in_eq : o.inDepCount = o₀.inDepCount
  options_eq : o.options = o₀.options

theorem SameOp.refl (o : Ffop) : SameOp o o := ⟨rfl, rfl, rfl, rfl, rfl⟩

/-- `ops₀` are the operations of a schedule with graph `G` and last operation `e`. -/
structure Wired (G : DepGraph Nat) (ops₀ : Nat → Ffop) (e : Nat) : Prop where
  entered : G.Entered
  end_mem : e ∈ G.verts
  end_ne_root : e ≠ G.root
  end_out : G.out e = 0
  wf : WellFounded G.Pred
  reaches : ∀ v, v ∈ G.verts → v ≠ e → Relation.TransGen G.Pred v e
  out_eq : ∀ v, v ∈ G.verts → G.out v = (ops₀ v).outDepCount
  dep_eq : ∀ v i, G.dep v i = (ops₀ v).dependent i
  indeg_eq : ∀ v, v ∈ G.verts → G.indeg v = (ops₀ v).inDepCount
  left_eq : ∀ v, v ∈ G.verts → (ops₀ v).depLeft = G.indeg v
  default : ∀ v, v ∈ G.verts → DefaultOptions (ops₀ v).options
  end_completed : (ops₀ e).completed = 0

theorem ScheduleBuilt.wired {cap : Nat} {l₀ l : Lib} {cs : List BuildCall} {s : FfSchedule}
    (h : ScheduleBuilt cap l₀ cs s l) : Wired h.graph l.ops s.endOp where
  entered := h.entered
  end_mem := h.mem_verts.mpr h.schedOps.end_mem
  end_ne_root := h.schedOps.begin_ne_end.symm
  end_out := by
    by_contra hne
    exact h.no_pred_of_end ⟨0, Nat.pos_of_ne_zero hne, rfl⟩
  wf := h.wellFounded
  reaches _ hv hne := h.reaches_end hv hne
  out_eq _ hv := h.graph_out hv
  dep_eq _ _ := rfl
  indeg_eq _ hv := h.indeg_eq hv
  left_eq v hv := by
    rw [h.indeg_eq hv]
    exact h.inv.lib.left_eq v (h.mem_verts.mp hv).1 (h.mem_verts.mp hv).2
  default v hv :=
    h.inv.options h.default_options v (h.mem_verts.mp hv).1 (h.mem_verts.mp hv).2
  end_completed := h.inv.lib.completed_eq _ h.schedOps.end_mem.1 h.schedOps.end_mem.2

/-- The frames and the pending entries of one operation match its phase. -/
structure TracksAt (out : Nat) (frames : List Frame) (pending : List Nat) (v : Nat)
    (q : Phase) : Prop where
  post : frames.count (.post v) = if q = .triggered then 1 else 0
  complete : frames.count (.complete v) = if q = .completing then 1 else 0
  loop : ∀ i, i < out → frames.count (.loop v i) = if q = .cascading i then 1 else 0
  pending : pending.count v = if q = .inflight then 1 else 0

/-- The log of a round. -/
structure LogOk (G : DepGraph Nat) (log : List Event) (a : Progress Nat) : Prop where
  posting : ∀ v, log.count (.posting v) = if (a.phase v).isStarted then 1 else 0
  completing : ∀ v, log.count (.completing v) = if (a.phase v).isDone then 1 else 0
  pred_first : ∀ u v, G.Pred u v → Precedes log (.completing u) (.posting v)
  posting_first : ∀ v, Precedes log (.posting v) (.completing v)

/-- The invariant of a round. -/
structure Running (G : DepGraph Nat) (ops₀ : Nat → Ffop) (e : Nat) (p : Proc)
    (a : Progress Nat) : Prop where
  same : ∀ v, SameOp (p.ops v) (ops₀ v)
  sound : G.Sound a
  left : ∀ v, v ∈ G.verts → (p.ops v).depLeft = a.left v
  flag : (p.ops e).completed = if (a.phase e).isDone then 1 else 0
  tracks : ∀ v, TracksAt (G.out v) p.frames p.pending v (a.phase v)
  loop_mem : ∀ v i, .loop v i ∈ p.frames → v ∈ G.verts
  log : LogOk G p.log a
  running : p.running = true

/-- Nothing but loops that are about to return is left on the stacks. -/
def Exhausted (G : DepGraph Nat) (frames : List Frame) : Prop :=
  ∀ f, f ∈ frames → ∃ v i, f = .loop v i ∧ v ∈ G.verts ∧ G.out v ≤ i

/-- The invariant of a process between two rounds. -/
structure Quiet (G : DepGraph Nat) (ops₀ : Nat → Ffop) (e : Nat) (p : Proc) : Prop where
  same : ∀ v, SameOp (p.ops v) (ops₀ v)
  left : ∀ v, v ∈ G.verts → (p.ops v).depLeft = G.indeg v
  flag : (p.ops e).completed = 0
  pending : p.pending = []
  exhausted : Exhausted G p.frames
  running : p.running = false

theorem Wired.quiet_init {G : DepGraph Nat} {ops₀ : Nat → Ffop} {e : Nat}
    (W : Wired G ops₀ e) : Quiet G ops₀ e (Proc.init ops₀) where
  same v := SameOp.refl _
  left := W.left_eq
  flag := W.end_completed
  pending := rfl
  exhausted f hf := by simp [Proc.frames, Proc.init] at hf
  running := rfl

/-! ### Bookkeeping lemmas -/

theorem TracksAt.congr {out : Nat} {frames frames' : List Frame} {pending pending' : List Nat}
    {v : Nat} {q : Phase} (h : TracksAt out frames pending v q)
    (hpost : frames'.count (.post v) = frames.count (.post v))
    (hcomp : frames'.count (.complete v) = frames.count (.complete v))
    (hloop : ∀ i, i < out → frames'.count (.loop v i) = frames.count (.loop v i))
    (hpend : pending'.count v = pending.count v) : TracksAt out frames' pending' v q where
  post := hpost.trans h.post
  complete := hcomp.trans h.complete
  loop i hi := (hloop i hi).trans (h.loop i hi)
  pending := hpend.trans h.pending

namespace LogOk

variable {G : DepGraph Nat} {log : List Event} {a b : Progress Nat}

/-- The log does not depend on moves that start and complete nothing. -/
theorem congr (h : LogOk G log a)
    (hs : ∀ v, (b.phase v).isStarted = (a.phase v).isStarted)
    (hd : ∀ v, (b.phase v).isDone = (a.phase v).isDone) : LogOk G log b where
  posting v := by rw [h.posting, hs]
  completing v := by rw [h.completing, hd]
  pred_first := h.pred_first
  posting_first := h.posting_first

theorem mem_posting (h : LogOk G log a) {v : Nat} (hv : (a.phase v).isStarted = true) :
    .posting v ∈ log := by
  have := h.posting v
  rw [if_pos hv] at this
  exact List.count_pos_iff.mp (by omega)

theorem mem_completing (h : LogOk G log a) {v : Nat} (hv : (a.phase v).isDone = true) :
    .completing v ∈ log := by
  have := h.completing v
  rw [if_pos hv] at this
  exact List.count_pos_iff.mp (by omega)

/-- A triggered operation is posted. -/
theorem snoc_posting (h : LogOk G log a) (hsound : G.Sound a) {x : Nat}
    (hx : a.phase x = .triggered)
    (hs : ∀ v, (b.phase v).isStarted = if v = x then true else (a.phase v).isStarted)
    (hd : ∀ v, (b.phase v).isDone = (a.phase v).isDone) :
    LogOk G (log ++ [.posting x]) b where
  posting v := by
    rw [List.count_append, h.posting, hs]
    by_cases hv : v = x
    · subst hv; simp [hx, Phase.isStarted]
    · simp [hv, Ne.symm hv]
  completing v := by rw [List.count_append, h.completing, hd]; simp
  pred_first u v hp := by
    refine (h.pred_first u v hp).snoc (fun hev => ?_)
    obtain rfl : x = v := by simpa using hev
    exact h.mem_completing (hsound.pred_isDone (by simp [hx]) hp)
  posting_first v := (h.posting_first v).snoc (fun hev => by cases hev)

/-- A completing operation is completed. -/
theorem snoc_completing (h : LogOk G log a) {x : Nat} (hx : a.phase x = .completing)
    (hs : ∀ v, (b.phase v).isStarted = (a.phase v).isStarted)
    (hd : ∀ v, (b.phase v).isDone = if v = x then true else (a.phase v).isDone) :
    LogOk G (log ++ [.completing x]) b where
  posting v := by rw [List.count_append, h.posting, hs]; simp
  completing v := by
    rw [List.count_append, h.completing, hd]
    by_cases hv : v = x
    · subst hv; simp [hx, Phase.isDone]
    · simp [hv, Ne.symm hv]
  pred_first u v hp := (h.pred_first u v hp).snoc (fun hev => by cases hev)
  posting_first v := by
    refine (h.posting_first v).snoc (fun hev => ?_)
    obtain rfl : x = v := by simpa using hev
    exact h.mem_posting (by simp [hx, Phase.isStarted])

end LogOk

/-- What running one frame does to the outer state and to the execution. -/
inductive FrameEffect {σ : Type u} (impl : Impl σ) (G : DepGraph Nat) (ops₀ : Nat → Ffop)
    (e : σ) (a : Progress Nat) : σ → Progress Nat → Prop
  | pending {v : Nat} {o : Ffop} {e' : σ} (hv : a.phase v = .triggered)
      (ho : o.body = (ops₀ v).body) (hr : implPost impl v o e = (e', ffSuccess)) :
      FrameEffect impl G ops₀ e a e' (a.setPhase v .inflight)
  | posted {v : Nat} {o : Ffop} {e' : σ} (hv : a.phase v = .triggered)
      (ho : o.body = (ops₀ v).body) (hr : implPost impl v o e = (e', ffCompleted)) :
      FrameEffect impl G ops₀ e a e' (a.setPhase v .completing)
  | complete {v : Nat} (hv : a.phase v = .completing) :
      FrameEffect impl G ops₀ e a e (G.finish a v)
  | fire {v j : Nat} (hv : a.phase v = .cascading j) (hj : j < G.out v) :
      FrameEffect impl G ops₀ e a e (G.fire a v j)
  | pop : FrameEffect impl G ops₀ e a e a

/-- What the steps of a round still have to do. -/
def load (G : DepGraph Nat) (p : Proc) (a : Progress Nat) : Nat :=
  2 * G.work a + p.frames.length

/-! ### The frames of a cascade -/

section Frames

variable {G : DepGraph Nat} {ops₀ : Nat → Ffop} {e : Nat} {p : Proc} {a : Progress Nat}

/-- An operation that is rewritten outside the fields of `SameOp` stays the same. -/
theorem sameOp_setOp (hsame : ∀ v, SameOp (p.ops v) (ops₀ v)) (x : Nat) {f : Ffop → Ffop}
    (hf : ∀ o, SameOp (f o) o) (v : Nat) : SameOp ((p.setOp x f).ops v) (ops₀ v) := by
  rw [Proc.setOp_ops]
  split
  · obtain ⟨h1, h2, h3, h4, h5⟩ := hsame v
    obtain ⟨g1, g2, g3, g4, g5⟩ := hf (p.ops v)
    exact ⟨g1.trans h1, g2.trans h2, g3.trans h3, g4.trans h4, g5.trans h5⟩
  · exact hsame v

theorem setPhase_phase (x v : Nat) (q : Phase) :
    (a.setPhase x q).phase v = if v = x then q else a.phase v := by
  simp [Progress.setPhase, Function.update_apply]

theorem finish_phase (x v : Nat) :
    (G.finish a x).phase v = if v = x then .cascading 0 else a.phase v := by
  simp [DepGraph.finish, Function.update_apply]

/-- Firing an edge: the phases afterwards. -/
theorem fire_phase {x j : Nat} (hx : a.phase x = .cascading j)
    (hd : a.phase (G.dep x j) = .idle) (v : Nat) :
    (G.fire a x j).phase v =
      if v = x then .cascading (j + 1)
      else if v = G.dep x j ∧ a.left (G.dep x j) - 1 = 0 then .triggered
      else a.phase v := by
  have hne : x ≠ G.dep x j := by
    intro h
    rw [← h, hx] at hd
    cases hd
  by_cases hvx : v = x
  · subst hvx
    simp only [DepGraph.fire]
    split <;> simp [hne]
  · by_cases hvd : v = G.dep x j
    · simp only [DepGraph.fire]
      by_cases hz : a.left (G.dep x j) - 1 = 0
      · simp [hvd, hz, hne.symm]
      · simp [hvd, hz, hne.symm]
    · simp only [DepGraph.fire]
      split <;> simp [hvx, hvd]

/-- Replacing a frame by at most two is paid for by any progress. -/
theorem load_lt {q : Proc} {t : Thread} {f : Frame} {fs gs : List Frame} {a' : Progress Nat}
    (hs : p.stack t = f :: fs) (hu : q.user = p.user) (hp : q.prog = p.prog)
    (hgs : gs.length ≤ 2) (hw : G.work a' < G.work a) :
    load G (q.setStack (gs ++ fs) t) a' < load G p a := by
  have hlen := Proc.length_frames_setStack (r := gs) hs hu hp
  simp only [load] at hlen ⊢
  omega

/-- The frames of a completed operation `x` after its edge to `d` has been fired; `n` is what
is left at `d`. -/
def fireFrames (x i d n : Nat) : List Frame :=
  if n = 0 then [.post d, .loop x (i + 1)] else [.loop x (i + 1)]

theorem count_post_fireFrames (x i d n v : Nat) :
    (fireFrames x i d n).count (.post v) = if v = d ∧ n = 0 then 1 else 0 := by
  by_cases hn : n = 0
  · by_cases hv : v = d
    · simp [fireFrames, hn, hv]
    · simp [fireFrames, hn, hv, Ne.symm hv]
  · simp [fireFrames, hn]

theorem count_complete_fireFrames (x i d n v : Nat) :
    (fireFrames x i d n).count (.complete v) = 0 := by
  unfold fireFrames
  split <;> simp

theorem count_loop_fireFrames (x i d n v j : Nat) :
    (fireFrames x i d n).count (.loop v j) = if x = v ∧ i + 1 = j then 1 else 0 := by
  unfold fireFrames
  split <;> simp [List.count_cons]

theorem length_fireFrames_le (x i d n : Nat) : (fireFrames x i d n).length ≤ 2 := by
  unfold fireFrames
  split <;> simp

namespace Running

variable (h : Running G ops₀ e p a)
include h

theorem phase_of_post {x : Nat} (hf : .post x ∈ p.frames) : a.phase x = .triggered := by
  have hpos := List.count_pos_iff.mpr hf
  rw [(h.tracks x).post] at hpos
  by_contra hne
  rw [if_neg hne] at hpos
  omega

theorem phase_of_complete {x : Nat} (hf : .complete x ∈ p.frames) :
    a.phase x = .completing := by
  have hpos := List.count_pos_iff.mpr hf
  rw [(h.tracks x).complete] at hpos
  by_contra hne
  rw [if_neg hne] at hpos
  omega

theorem phase_of_loop {x i : Nat} (hf : .loop x i ∈ p.frames) (hi : i < G.out x) :
    a.phase x = .cascading i := by
  have hpos := List.count_pos_iff.mpr hf
  rw [(h.tracks x).loop i hi] at hpos
  by_contra hne
  rw [if_neg hne] at hpos
  omega

theorem phase_of_pending {x : Nat} (hf : x ∈ p.pending) : a.phase x = .inflight := by
  have hpos := List.count_pos_iff.mpr hf
  rw [(h.tracks x).pending] at hpos
  by_contra hne
  rw [if_neg hne] at hpos
  omega

theorem mem_pending {x : Nat} (hx : a.phase x = .inflight) : x ∈ p.pending := by
  have := (h.tracks x).pending
  rw [if_pos hx] at this
  exact List.count_pos_iff.mp (by omega)

/-- A triggered operation is posted: everything but the frames. -/
theorem start {p' : Proc} {x : Nat} {q : Phase} (hx : a.phase x = .triggered)
    (hq : q.isStarted = true) (hqd : q.isDone = false)
    (hops : p'.ops = (p.setOp x (fun o => { o with completed := 0 })).ops)
    (hlog : p'.log = p.log ++ [.posting x]) (hrun : p'.running = p.running)
    (htracks : ∀ v, TracksAt (G.out v) p'.frames p'.pending v ((a.setPhase x q).phase v))
    (hloop : ∀ v i, .loop v i ∈ p'.frames → .loop v i ∈ p.frames) :
    Running G ops₀ e p' (a.setPhase x q) := by
  have hqi : q ≠ .idle := by
    rintro rfl
    cases hq
  have hd : ∀ v, ((a.setPhase x q).phase v).isDone = (a.phase v).isDone := by
    intro v
    rw [setPhase_phase]
    split
    · next hv => rw [hv, hx, hqd]; rfl
    · rfl
  constructor
  · intro v
    rw [hops]
    refine sameOp_setOp h.same x (fun o => ?_) v
    exact ⟨rfl, rfl, rfl, rfl, rfl⟩
  · exact h.sound.setPhase (by simp [hx]) (by simp [hx, Phase.isDone]) hqi hqd
  · intro v hv
    have hl : (p'.ops v).depLeft = (p.ops v).depLeft := by
      rw [hops]
      exact Proc.setOp_ops_of Ffop.depLeft (fun _ => by rfl) p x v
    rw [hl]
    exact h.left v hv
  · rw [hd, hops, Proc.setOp_ops]
    split
    · next hex => simp [hex, hx, Phase.isDone]
    · exact h.flag
  · exact htracks
  · exact fun v i hf => h.loop_mem v i (hloop v i hf)
  · rw [hlog]
    refine h.log.snoc_posting h.sound hx (fun v => ?_) hd
    rw [setPhase_phase]
    split
    · exact hq
    · rfl
  · rw [hrun]; exact h.running

/-- Counting frames after the top frame `f` of a stack has been replaced by `gs`. -/
theorem tracksAt_frame {q : Proc} {t : Thread} {f : Frame} {fs gs : List Frame}
    (hs : p.stack t = f :: fs) (hu : q.user = p.user) (hp : q.prog = p.prog) {v : Nat}
    {ph : Phase}
    (hpost : (if ph = .triggered then 1 else 0) + (if f = .post v then 1 else 0) =
      (if a.phase v = .triggered then 1 else 0) + gs.count (.post v))
    (hcomp : (if ph = .completing then 1 else 0) + (if f = .complete v then 1 else 0) =
      (if a.phase v = .completing then 1 else 0) + gs.count (.complete v))
    (hloop : ∀ i, i < G.out v →
      (if ph = .cascading i then 1 else 0) + (if f = .loop v i then 1 else 0) =
        (if a.phase v = .cascading i then 1 else 0) + gs.count (.loop v i))
    (hpend : q.pending.count v = if ph = .inflight then 1 else 0) :
    TracksAt (G.out v) (q.setStack (gs ++ fs) t).frames
      (q.setStack (gs ++ fs) t).pending v ph := by
  have hc := Proc.count_frames_setStack (r := gs) hs hu hp
  refine ⟨?_, ?_, fun i hi => ?_, ?_⟩
  · have := hc (.post v)
    have := (h.tracks v).post
    omega
  · have := hc (.complete v)
    have := (h.tracks v).complete
    omega
  · have := hc (.loop v i)
    have := (h.tracks v).loop i hi
    have := hloop i hi
    omega
  · rw [Proc.setStack_pending]
    exact hpend

/-- A triggered operation is posted: `gs` are the frames that replace the call. -/
theorem startFrame {q : Proc} {t : Thread} {x : Nat} {fs gs : List Frame} {ph : Phase}
    (hs : p.stack t = .post x :: fs) (hst : ph.isStarted = true) (hnd : ph.isDone = false)
    (hops : q.ops = (p.setOp x (fun o => { o with completed := 0 })).ops)
    (hlog : q.log = p.log ++ [.posting x]) (hrun : q.running = p.running)
    (hu : q.user = p.user) (hp : q.prog = p.prog)
    (hpend : ∀ v, q.pending.count v =
      p.pending.count v + if v = x ∧ ph = .inflight then 1 else 0)
    (hgpost : ∀ v, gs.count (.post v) = 0) (hgloop : ∀ v i, gs.count (.loop v i) = 0)
    (hgcomp : ∀ v, gs.count (.complete v) = if v = x ∧ ph = .completing then 1 else 0) :
    Running G ops₀ e (q.setStack (gs ++ fs) t) (a.setPhase x ph) := by
  have hx := h.phase_of_post (Proc.top_mem_frames hs)
  have hnt : ph ≠ .triggered := by
    rintro rfl
    cases hst
  have hnc : ∀ i, ph ≠ .cascading i := by
    rintro i rfl
    cases hnd
  refine h.start hx hst hnd ?_ ?_ ?_ (fun v => ?_) (fun v i hf => ?_)
  · rw [Proc.setStack_ops, hops]
  · rw [Proc.setStack_log, hlog]
  · rw [Proc.setStack_running, hrun]
  · rw [setPhase_phase]
    have hold := (h.tracks v).pending
    by_cases hv : v = x
    · subst hv
      refine h.tracksAt_frame hs hu hp ?_ ?_ (fun i _ => ?_) ?_
      · simp [hx, hnt, hgpost]
      · simp [hx, hgcomp]
      · simp [hx, hnc, hgloop]
      · rw [hpend, hold]
        simp [hx]
    · refine h.tracksAt_frame hs hu hp ?_ ?_ (fun i _ => ?_) ?_
      · simp [hv, Ne.symm hv, hgpost]
      · simp [hv, hgcomp]
      · simp [hv, hgloop]
      · rw [hpend, hold]
        simp [hv]
  · rcases Proc.mem_frames_setStack hs hu hp hf with hg | hg
    · exact absurd (hgloop v i) (List.count_pos_iff.mpr hg).ne'
    · exact hg

/-- Step lemma for a call of `ffop_post`. -/
theorem postFrame {σ : Type u} (W : Wired G ops₀ e) (impl : Impl σ) (env : σ) {t : Thread}
    {x : Nat} {fs : List Frame} (hs : p.stack t = .post x :: fs)
    (hpost : impl.Succeeds) :
    ∃ a', FrameEffect impl G ops₀ env a (ffopPost impl x env p).1 a' ∧
      Running G ops₀ e
        ((ffopPost impl x env p).2.1.setStack ((ffopPost impl x env p).2.2 ++ fs) t) a' ∧
      load G ((ffopPost impl x env p).2.1.setStack ((ffopPost impl x env p).2.2 ++ fs) t) a' <
        load G p a := by
  have hx := h.phase_of_post (Proc.top_mem_frames hs)
  have hmem : x ∈ G.verts := h.sound.mem_verts (by simp [hx])
  have hopt : isOptSet (p.ops x).options ffopNonPersistent = false := by
    rw [(h.same x).options_eq]
    exact (W.default x hmem).2
  have hbody : ((p.logPosting x).ops x).body = (ops₀ x).body :=
    (Proc.logPosting_ops_of Ffop.body (fun _ => rfl) p x x).trans (h.same x).body_eq
  have hans : (implPost impl x ((p.logPosting x).ops x) env).2 = ffSuccess ∨
      (implPost impl x ((p.logPosting x).ops x) env).2 = ffCompleted := by
    unfold implPost
    split
    · exact Or.inr rfl
    · exact hpost x _ env
  rcases hans with hr | hr
  · simp only [ffopPost_of_success hopt hr]
    refine ⟨a.setPhase x .inflight, .pending hx hbody (Prod.ext rfl hr), ?_, ?_⟩
    · refine h.startFrame hs rfl rfl rfl rfl rfl rfl rfl (fun v => ?_) ?_ ?_ ?_
      · by_cases hv : v = x
        · simp [hv, Proc.addPending, Proc.logPosting]
        · simp [hv, Ne.symm hv, Proc.addPending, Proc.logPosting]
      · simp
      · simp
      · simp
    · refine load_lt hs rfl rfl (Nat.zero_le _) (G.work_setPhase_lt hmem ?_)
      simp [hx, DepGraph.weight]
  · simp only [ffopPost_of_completed impl hopt hr]
    refine ⟨a.setPhase x .completing, .posted hx hbody (Prod.ext rfl hr), ?_, ?_⟩
    · refine h.startFrame hs rfl rfl rfl rfl rfl rfl rfl (fun v => ?_) ?_ ?_ (fun v => ?_)
      · simp
      · simp
      · simp
      · by_cases hv : v = x
        · simp [hv]
        · simp [hv, Ne.symm hv]
    · refine load_lt hs rfl rfl (by simp) (G.work_setPhase_lt hmem ?_)
      simp [hx, DepGraph.weight]

/-- Step lemma for a call of `ffop_complete`. -/
theorem completeFrame {σ : Type u} (W : Wired G ops₀ e) (impl : Impl σ) (env : σ)
    {t : Thread} {x : Nat} {fs : List Frame} (hs : p.stack t = .complete x :: fs) :
    FrameEffect impl G ops₀ env a env (G.finish a x) ∧
      Running G ops₀ e ((p.logCompleting x).setStack ([.loop x 0] ++ fs) t)
        (G.finish a x) ∧
      load G ((p.logCompleting x).setStack ([.loop x 0] ++ fs) t) (G.finish a x) <
        load G p a := by
  have hx := h.phase_of_complete (Proc.top_mem_frames hs)
  have hmem : x ∈ G.verts := h.sound.mem_verts (by simp [hx])
  set q := p.logCompleting x with hq
  have hops : ∀ v, q.ops v = if v = x then
      { p.ops v with
        version := ((p.ops v).version + 1) % 2 ^ 32
        depLeft := (p.ops v).inDepCount
        completed := ((p.ops v).completed + 1) % 2 ^ 8 } else p.ops v := by
    intro v
    by_cases hv : v = x
    · subst hv; simp [hq, Proc.logCompleting]
    · simp [hq, Proc.logCompleting, hv]
  refine ⟨.complete hx, ⟨fun v => ?_, h.sound.finish hx, fun v hv => ?_, ?_,
    fun v => ?_, fun v i hf => ?_, ?_, ?_⟩, ?_⟩
  · rw [Proc.setStack_ops, hops]
    obtain ⟨h1, h2, h3, h4, h5⟩ := h.same v
    split
    · exact ⟨h1, h2, h3, h4, h5⟩
    · exact ⟨h1, h2, h3, h4, h5⟩
  · rw [Proc.setStack_ops, hops]
    by_cases hvx : v = x
    · simp [hvx, DepGraph.finish, (h.same x).in_eq, W.indeg_eq x hmem]
    · simpa [hvx, DepGraph.finish] using h.left v hv
  · rw [Proc.setStack_ops, hops, finish_phase]
    have hflag := h.flag
    by_cases hex : e = x
    · subst hex
      simp only [hx, Phase.isDone, Bool.false_eq_true, if_false] at hflag
      simp [hflag, Phase.isDone]
    · simpa [hex] using hflag
  · rw [finish_phase]
    have hpend := (h.tracks v).pending
    by_cases hv : v = x
    · subst hv
      refine h.tracksAt_frame (q := q) hs rfl rfl ?_ ?_ (fun i _ => ?_) ?_
      · simp [hx]
      · simp [hx]
      · simp [hx, List.count_cons]
      · simpa [hq, hx] using hpend
    · refine h.tracksAt_frame (q := q) hs rfl rfl ?_ ?_ (fun i _ => ?_) ?_
      · simp [hv]
      · simp [hv, Ne.symm hv]
      · simp [hv, Ne.symm hv]
      · simpa [hq, hv] using hpend
  · rcases Proc.mem_frames_setStack (q := q) hs rfl rfl hf with hg | hg
    · simp only [List.mem_singleton, Frame.loop.injEq] at hg
      rw [hg.1]
      exact hmem
    · exact h.loop_mem v i hg
  · rw [Proc.setStack_log]
    refine h.log.snoc_completing hx (fun v => ?_) (fun v => ?_)
    · rw [finish_phase]
      split
      · next hv => rw [hv, hx]; rfl
      · rfl
    · rw [finish_phase]
      split <;> rfl
  · rw [Proc.setStack_running]; exact h.running
  · exact load_lt hs rfl rfl (by simp) (G.work_finish_lt hmem hx)

/-- Step lemma for an edge that is fired. -/
theorem fireFrame (W : Wired G ops₀ e) {t : Thread} {x i : Nat} {fs : List Frame}
    (hs : p.stack t = .loop x i :: fs) (hi : i < G.out x) (hx : a.phase x = .cascading i) :
    Running G ops₀ e ((p.setOp (G.dep x i) (fun o =>
      { o with depLeft := decrDepLeft o.depLeft })).setStack
        (fireFrames x i (G.dep x i) (a.left (G.dep x i) - 1) ++ fs) t) (G.fire a x i) := by
  obtain ⟨hidle, _, hpos⟩ := h.sound.target_idle hx hi
  set d := G.dep x i with hd
  set q := p.setOp d (fun o => { o with depLeft := decrDepLeft o.depLeft }) with hq
  have hxd : x ≠ d := by
    rintro hxd
    rw [← hxd, hx] at hidle
    cases hidle
  have hleft : (p.ops d).depLeft = a.left d := h.left _ (G.dep_mem x i hi)
  refine ⟨fun v => ?_, h.sound.fire hx hi, fun v hv => ?_, ?_, fun v => ?_, fun v j hf => ?_,
    ?_, ?_⟩
  · rw [Proc.setStack_ops]
    refine sameOp_setOp h.same d (fun o => ?_) v
    exact ⟨rfl, rfl, rfl, rfl, rfl⟩
  · rw [Proc.setStack_ops, hq, Proc.setOp_ops]
    by_cases hvd : v = d
    · simp [hvd, DepGraph.fire, ← hd, hleft, decrDepLeft_of_pos hpos]
    · simpa [hvd, DepGraph.fire, ← hd] using h.left v hv
  · have hflag : (q.ops e).completed = (p.ops e).completed := by
      rw [hq]
      exact Proc.setOp_ops_of Ffop.completed (fun _ => by rfl) p _ e
    have hxe : e ≠ x := by
      rintro rfl
      rw [W.end_out] at hi
      omega
    rw [Proc.setStack_ops, hflag, h.flag, fire_phase hx hidle, if_neg hxe, ← hd]
    by_cases hed : e = d ∧ a.left d - 1 = 0
    · rw [if_pos hed, hed.1, hidle]
      rfl
    · rw [if_neg hed]
  · rw [fire_phase hx hidle, ← hd]
    have hpend := (h.tracks v).pending
    by_cases hvx : v = x
    · subst hvx
      rw [if_pos rfl]
      refine h.tracksAt_frame (q := q) hs rfl rfl ?_ ?_ (fun j _ => ?_) ?_
      · simp [count_post_fireFrames, hx, hxd]
      · simp [count_complete_fireFrames, hx]
      · simp [count_loop_fireFrames, hx, Nat.add_comm]
      · simpa [hq, hx] using hpend
    · rw [if_neg hvx]
      refine h.tracksAt_frame (q := q) hs rfl rfl ?_ ?_ (fun j _ => ?_) ?_
      · rw [count_post_fireFrames]
        split
        · next hv => simp [hv.1, hidle]
        · simp
      · rw [count_complete_fireFrames]
        split
        · next hv => simp [hv.1, hidle]
        · simp
      · rw [count_loop_fireFrames]
        split
        · next hv => simp [hv.1, hidle, hxd]
        · simp [Ne.symm hvx]
      · split
        · next hv => simpa [hq, hv.1, hidle] using hpend
        · exact hpend
  · rcases Proc.mem_frames_setStack (q := q) hs rfl rfl hf with hg | hg
    · have hcount := List.count_pos_iff.mpr hg
      rw [count_loop_fireFrames] at hcount
      have hvx : x = v := by
        by_contra hne
        simp [hne] at hcount
      exact hvx ▸ h.loop_mem x i (Proc.top_mem_frames hs)
    · exact h.loop_mem v j hg
  · rw [Proc.setStack_log]
    refine h.log.congr (fun v => ?_) (fun v => ?_)
    · rw [fire_phase hx hidle, ← hd]
      split
      · next hv => rw [hv, hx]; rfl
      · split
        · next hv => rw [hv.1, hidle]; rfl
        · rfl
    · rw [fire_phase hx hidle, ← hd]
      split
      · next hv => rw [hv, hx]; rfl
      · split
        · next hv => rw [hv.1, hidle]; rfl
        · rfl
  · rw [Proc.setStack_running]; exact h.running

/-- Step lemma for the end of the loop of `ffop_complete`. -/
theorem popFrame {t : Thread} {x i : Nat} {fs : List Frame} (hs : p.stack t = .loop x i :: fs)
    (hi : G.out x ≤ i) : Running G ops₀ e (p.setStack ([] ++ fs) t) a := by
  refine ⟨fun v => ?_, h.sound, fun v hv => ?_, ?_, fun v => ?_, fun v j hf => ?_, ?_, ?_⟩
  · rw [Proc.setStack_ops]; exact h.same v
  · rw [Proc.setStack_ops]; exact h.left v hv
  · rw [Proc.setStack_ops]; exact h.flag
  · refine h.tracksAt_frame (q := p) hs rfl rfl ?_ ?_ (fun j hj => ?_) ?_
    · simp
    · simp
    · by_cases hvx : x = v
      · subst hvx
        have hij : i ≠ j := by omega
        simp [hij]
      · simp [hvx]
    · exact (h.tracks v).pending
  · rcases Proc.mem_frames_setStack (q := p) hs rfl rfl hf with hg | hg
    · simp at hg
    · exact h.loop_mem v j hg
  · rw [Proc.setStack_log]; exact h.log
  · rw [Proc.setStack_running]; exact h.running

/-- Step lemma for one iteration of the loop of `ffop_complete`. -/
theorem loopFrame {σ : Type u} (W : Wired G ops₀ e) (impl : Impl σ) (env : σ) {t : Thread}
    {x i : Nat} {fs : List Frame} (hs : p.stack t = .loop x i :: fs) :
    ∃ a', FrameEffect impl G ops₀ env a env a' ∧
      Running G ops₀ e
        ((ffopCompleteLoop x i p).1.setStack ((ffopCompleteLoop x i p).2 ++ fs) t) a' ∧
      load G ((ffopCompleteLoop x i p).1.setStack ((ffopCompleteLoop x i p).2 ++ fs) t) a' <
        load G p a := by
  have hmem : x ∈ G.verts := h.loop_mem x i (Proc.top_mem_frames hs)
  have hout : (p.ops x).outDepCount = G.out x := by
    rw [(h.same x).out_eq, W.out_eq x hmem]
  by_cases hi : i < G.out x
  · have hx := h.phase_of_loop (Proc.top_mem_frames hs) hi
    obtain ⟨_, _, hpos⟩ := h.sound.target_idle hx hi
    have hopt : DefaultOptions (p.ops x).options := by
      rw [(h.same x).options_eq]
      exact W.default x hmem
    have hdep : (p.ops x).dependent i = G.dep x i := by
      rw [(h.same x).dependent_eq, W.dep_eq]
    have hleft : (p.ops (G.dep x i)).depLeft = a.left (G.dep x i) :=
      h.left _ (G.dep_mem x i hi)
    rw [ffopCompleteLoop_of_lt (by rw [hout]; exact hi) hopt, hdep, hleft,
      decrDepLeft_of_pos hpos]
    exact ⟨G.fire a x i, .fire hx hi, h.fireFrame W hs hi hx,
      load_lt hs rfl rfl (length_fireFrames_le x i _ _) (G.work_fire_lt h.sound hx hi)⟩
  · rw [ffopCompleteLoop_of_le (by omega)]
    refine ⟨a, .pop, h.popFrame hs (by omega), ?_⟩
    have hlen := Proc.length_frames_setStack (q := p) (r := []) hs rfl rfl
    simp only [load, List.length_nil] at hlen ⊢
    omega

/-- Step lemma: a frame of a cascade runs. -/
theorem frameStep {σ : Type u} (W : Wired G ops₀ e) {impl : Impl σ} (hpost : impl.Succeeds)
    {env env' : σ} {t : Thread} {p' : Proc}
    (hs : Fflib.frameStep impl t env p = some (env', p')) :
    ∃ a', FrameEffect impl G ops₀ env a env' a' ∧ Running G ops₀ e p' a' ∧
      load G p' a' < load G p a := by
  cases hstack : p.stack t with
  | nil => simp [Fflib.frameStep, hstack] at hs
  | cons f fs =>
      simp only [Fflib.frameStep, hstack, Option.some.injEq, Prod.mk.injEq] at hs
      obtain ⟨rfl, rfl⟩ := hs
      cases f with
      | post x => exact h.postFrame W impl env hstack hpost
      | complete x => exact ⟨_, h.completeFrame W impl env hstack⟩
      | loop x i => exact h.loopFrame W impl env hstack

/-- Step lemma: the progress thread completes an operation. -/
theorem progressStep {σ : Type u} {impl : Impl σ} {env env' : σ} {x : Nat} {p' : Proc}
    (hs : Fflib.progressStep impl x env p = some (env', p')) :
    a.phase x = .inflight ∧ impl.test x (p.ops x) env = some env' ∧
      Running G ops₀ e p' (a.setPhase x .completing) ∧
      load G p' (a.setPhase x .completing) < load G p a := by
  simp only [Fflib.progressStep] at hs
  split at hs
  · next hc =>
      obtain ⟨env'', htest, heq⟩ := Option.map_eq_some_iff.mp hs
      obtain ⟨rfl, rfl⟩ := Prod.mk.inj heq
      have hx := h.phase_of_pending hc.2
      have hmem : x ∈ G.verts := h.sound.mem_verts (by simp [hx])
      have hframes : p.frames = p.user := by simp [Proc.frames, hc.1]
      have hd : ∀ v, ((a.setPhase x .completing).phase v).isDone = (a.phase v).isDone := by
        intro v
        rw [setPhase_phase]
        split
        · next hv => rw [hv, hx]; rfl
        · rfl
      refine ⟨hx, htest, ⟨h.same, ?_, h.left, ?_, fun v => ?_, fun v i hf => ?_, ?_,
        h.running⟩, ?_⟩
      · exact h.sound.setPhase (by simp [hx]) (by simp [hx, Phase.isDone]) (by simp) rfl
      · rw [hd]; exact h.flag
      · obtain ⟨h1, h2, h3, h4⟩ := h.tracks v
        rw [hframes] at h1 h2 h3
        rw [setPhase_phase]
        by_cases hv : v = x
        · subst hv
          rw [if_pos rfl]
          simp only [hx, reduceCtorEq, if_false] at h1 h2 h3
          refine ⟨?_, ?_, fun i hi => ?_, ?_⟩
          · simp [Proc.frames, h1]
          · simp [Proc.frames, h2]
          · simp [Proc.frames, h3 i hi]
          · simp [h4, hx]
        · rw [if_neg hv]
          refine ⟨?_, ?_, fun i hi => ?_, ?_⟩
          · simp [Proc.frames, h1]
          · simp [Proc.frames, h2, Ne.symm hv]
          · simp [Proc.frames, h3 i hi]
          · rw [List.count_erase_of_ne hv]
            exact h4
      · refine h.loop_mem v i ?_
        simpa [Proc.frames, hc.1] using hf
      · refine h.log.congr (fun v => ?_) hd
        rw [setPhase_phase]
        split
        · next hv => rw [hv, hx]; rfl
        · rfl
      · have hw := G.work_setPhase_lt (a := a) (q := .completing) hmem
          (by simp [hx, DepGraph.weight])
        simp only [load, Proc.frames, hc.1, List.append_nil, List.length_append,
          List.length_singleton]
        omega
  · cases hs

/-- When `end_op` has completed, every operation has completed and fired its edges. -/
theorem all_done (W : Wired G ops₀ e) (he : (a.phase e).isDone = true) {v : Nat}
    (hv : v ∈ G.verts) : a.phase v = .cascading (G.out v) := by
  by_cases hve : v = e
  · have hle := h.sound.fired_le e
    rw [W.end_out] at hle
    rw [hve, Phase.isDone_iff.mp he, W.end_out]
    exact congrArg Phase.cascading (Nat.le_zero.mp hle)
  · exact h.sound.all_done_of_sink W.reaches (Phase.ne_idle_of_isDone he) hv hve

/-- When the stacks are empty, nothing is between two steps of a cascade. -/
theorem settled (hf : p.frames = []) (v : Nat) : a.phase v = .idle ∨ a.phase v = .inflight ∨
    ∃ j, a.phase v = .cascading j ∧ G.out v ≤ j := by
  obtain ⟨h1, h2, h3, _⟩ := h.tracks v
  simp only [hf, List.count_nil] at h1 h2 h3
  cases hv : a.phase v with
  | idle => exact Or.inl rfl
  | triggered => simp [hv] at h1
  | inflight => exact Or.inr (Or.inl rfl)
  | completing => simp [hv] at h2
  | cascading j =>
      refine Or.inr (Or.inr ⟨j, rfl, ?_⟩)
      by_contra hlt
      have := h3 j (by omega)
      simp [hv] at this

/-- When the stacks are empty, an operation is in flight or `end_op` has completed. -/
theorem exists_inflight (W : Wired G ops₀ e) (hf : p.frames = [])
    (he : (a.phase e).isDone = false) : ∃ v, a.phase v = .inflight := by
  rcases h.settled hf e with hp | hp | ⟨j, hp, _⟩
  · obtain ⟨u, _, hu⟩ := h.sound.exists_inflight W.wf (h.settled hf) W.end_mem hp
    exact ⟨u, hu⟩
  · exact ⟨e, hp⟩
  · rw [hp] at he
    cases he

theorem end_done_of_stuck (W : Wired G ops₀ e) (hf : p.frames = []) (hp : p.pending = []) :
    (a.phase e).isDone = true := by
  by_contra he
  obtain ⟨v, hv⟩ := h.exists_inflight W hf (by simpa using he)
  have := h.mem_pending hv
  simp [hp] at this

/-- What the end of a round finds. -/
theorem quiet_of_done (W : Wired G ops₀ e) (he : (a.phase e).isDone = true) :
    (∀ v, v ∈ G.verts → (p.ops v).depLeft = G.indeg v) ∧ p.pending = [] ∧
      Exhausted G p.frames := by
  have hall := fun v hv => h.all_done W he (v := v) hv
  have hin : ∀ {v}, a.phase v ≠ .idle → a.phase v = .cascading (G.out v) :=
    fun hv => hall _ (h.sound.mem_verts hv)
  refine ⟨fun v hv => ?_, ?_, fun f hf => ?_⟩
  · rw [h.left v hv, h.sound.left_eq v hv, hall v hv]
    rfl
  · refine List.eq_nil_iff_forall_not_mem.mpr (fun x hx => ?_)
    have hp := h.phase_of_pending hx
    have := hin (v := x) (by simp [hp])
    simp [hp] at this
  · cases f with
    | post x =>
        have hp := h.phase_of_post hf
        have := hin (v := x) (by simp [hp])
        simp [hp] at this
    | complete x =>
        have hp := h.phase_of_complete hf
        have := hin (v := x) (by simp [hp])
        simp [hp] at this
    | loop x i =>
        have hmem := h.loop_mem x i hf
        refine ⟨x, i, rfl, hmem, ?_⟩
        by_contra hlt
        have hp := h.phase_of_loop hf (by omega)
        rw [hall x hmem, Phase.cascading.injEq] at hp
        omega

/-- Step lemma: `ffschedule_wait` returns. -/
theorem waitStep (W : Wired G ops₀ e) {s : FfSchedule} (hse : s.endOp = e) {p' : Proc}
    (hs : ffscheduleWait s p = some p') :
    (a.phase e).isDone = true ∧ Quiet G ops₀ e p' ∧ p'.log = p.log := by
  simp only [ffscheduleWait, hse] at hs
  split at hs
  · next hc =>
      obtain rfl := Option.some.inj hs
      have he : (a.phase e).isDone = true := by
        by_contra hne
        rw [h.flag, if_neg hne] at hc
        exact hc.2.2 rfl
      obtain ⟨hleft, hpend, hex⟩ := h.quiet_of_done W he
      refine ⟨he, ⟨?_, fun v hv => ?_, ?_, hpend, hex, rfl⟩, rfl⟩
      · have hsame : ∀ o : Ffop, SameOp { o with completed := 0 } o :=
          fun o => ⟨rfl, rfl, rfl, rfl, rfl⟩
        exact sameOp_setOp h.same e hsame
      · have : (p.setOp e (fun o => { o with completed := 0 })).ops v =
            if v = e then { p.ops v with completed := 0 } else p.ops v :=
          Proc.setOp_ops p e _ v
        rw [this]
        split <;> exact hleft v hv
      · simp [Proc.setOp]
  · cases hs

end Running

namespace Quiet

variable (h : Quiet G ops₀ e p)
include h

/-- Step lemma between rounds: only loops that return are left. -/
theorem frameStep {σ : Type u} (W : Wired G ops₀ e) {impl : Impl σ} {env env' : σ}
    {t : Thread} {p' : Proc} (hs : Fflib.frameStep impl t env p = some (env', p')) :
    env' = env ∧ Quiet G ops₀ e p' ∧ p'.log = p.log ∧
      p'.frames.length < p.frames.length := by
  cases hstack : p.stack t with
  | nil => simp [Fflib.frameStep, hstack] at hs
  | cons f fs =>
      simp only [Fflib.frameStep, hstack, Option.some.injEq, Prod.mk.injEq] at hs
      obtain ⟨rfl, rfl⟩ := hs
      obtain ⟨v, i, rfl, hmem, hi⟩ := h.exhausted f (Proc.top_mem_frames hstack)
      have hle : (p.ops v).outDepCount ≤ i := by
        rw [(h.same v).out_eq, ← W.out_eq v hmem]
        exact hi
      simp only [runFrame, ffopCompleteLoop_of_le hle]
      refine ⟨trivial, ⟨fun w => ?_, fun w hw => ?_, ?_, ?_, fun g hg => ?_, ?_⟩, ?_, ?_⟩
      · rw [Proc.setStack_ops]; exact h.same w
      · rw [Proc.setStack_ops]; exact h.left w hw
      · rw [Proc.setStack_ops]; exact h.flag
      · rw [Proc.setStack_pending]; exact h.pending
      · rcases Proc.mem_frames_setStack (q := p) hstack rfl rfl hg with hg | hg
        · simp at hg
        · exact h.exhausted g hg
      · rw [Proc.setStack_running]; exact h.running
      · rw [Proc.setStack_log]
      · have := Proc.length_frames_setStack (q := p) (r := []) hstack rfl rfl
        simp only [List.length_nil] at this
        omega

theorem not_progressStep {σ : Type u} {impl : Impl σ} {env : σ} {x : Nat} :
    Fflib.progressStep impl x env p = none := by
  simp [Fflib.progressStep, h.pending]

theorem not_waitStep {s : FfSchedule} : ffscheduleWait s p = none := by
  simp [ffscheduleWait, h.running]

/-- Step lemma: `ffschedule_post` starts a round. -/
theorem postStep {σ : Type u} (W : Wired G ops₀ e) {impl : Impl σ} {s : FfSchedule}
    (hsb : s.beginOp = G.root) {env env' : σ} {p' : Proc}
    (hs : ffschedulePost impl s env p = some (env', p')) :
    env' = (if s.postCallback.isSome then impl.postCallback env else env) ∧
      Running G ops₀ e p' G.start := by
  obtain ⟨_, _, rfl, rfl⟩ := ffschedulePost_eq_some hs
  rw [hsb]
  have hex : Exhausted G p.prog := fun f hf => h.exhausted f (by simp [Proc.frames, hf])
  have hphase : ∀ v, G.start.phase v = if v = G.root then .triggered else .idle := by
    intro v
    simp [DepGraph.start, Function.update_apply]
  have hzero : ∀ f, (∀ v i, f = .loop v i → i < G.out v) → p.prog.count f = 0 := by
    intro f hf
    refine List.count_eq_zero.mpr (fun hmem => ?_)
    obtain ⟨v, i, rfl, _, hle⟩ := hex f hmem
    have := hf v i rfl
    omega
  refine ⟨rfl, ⟨h.same, G.sound_start W.entered, h.left, ?_, fun v => ?_,
    fun v i hf => ?_, ?_, rfl⟩⟩
  · simp [hphase, W.end_ne_root, h.flag, Phase.isDone]
  · have h1 := hzero (.post v) (fun _ _ heq => by cases heq)
    have h2 := hzero (.complete v) (fun _ _ heq => by cases heq)
    rw [hphase]
    by_cases hv : v = G.root
    · subst hv
      refine ⟨?_, ?_, fun i hi => ?_, ?_⟩
      · simp [Proc.frames, h1]
      · simp [Proc.frames, h2]
      · have h3 := hzero (.loop G.root i) (fun _ _ heq => by cases heq; exact hi)
        simp [Proc.frames, h3]
      · simp [h.pending]
    · refine ⟨?_, ?_, fun i hi => ?_, ?_⟩
      · simp [Proc.frames, h1, hv, Ne.symm hv]
      · simp [Proc.frames, h2, hv]
      · have h3 := hzero (.loop v i) (fun _ _ heq => by cases heq; exact hi)
        simp [Proc.frames, h3, hv]
      · simp [h.pending, hv]
  · obtain ⟨w, j, heq, hw, _⟩ := hex (.loop v i) (by simpa [Proc.frames] using hf)
    cases heq
    exact hw
  · refine ⟨fun v => ?_, fun v => ?_, fun _ _ _ => precedes_nil, fun _ => precedes_nil⟩
    · rw [hphase]
      split <;> simp [Phase.isStarted]
    · rw [hphase]
      split <;> simp [Phase.isDone]

end Quiet

end Frames

end Fflib
