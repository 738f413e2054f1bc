import Fflib.Rounds
import Fflib.Library.Tally

/-!
# Posting the operations of a graph

A graph of operations that a program has linked with `ffop_hb`, without a schedule
(`GraphBuilt`), and a user who posts any of them at any time, while the progress thread
completes what is pending (`userStep`).

* `frameStep_cases` says what the top frame of a stack can do.
* `Proc.tally` reads the counters of a process as a `Library.Tally`; an edge of an
  operation that has completed is announced when the loop of `ffop_complete` passes it.
* `andDeps_iff`: `dep_left` counts the predecessors that have not completed since the
  operation itself did, iff no operation completes again before its dependents have.
-/

namespace Fflib

open Library

universe u

/-! ### Graphs of operations -/

/-- The program `cs` has created operations and linked them without a cycle. -/
structure GraphBuilt (cap : Nat) (l₀ : Lib) (cs : List BuildCall) (l : Lib) : Prop where
  built : run (buildStep cap l₀.opid) ⟨none, l₀⟩ cs = some ⟨none, l⟩
  acyclic : ∀ x, ¬ Relation.TransGen (fun a c => BuildCall.hb a c ∈ cs) x x

/-- The operations of the program. -/
def graphVerts (l₀ l : Lib) : Finset Nat := Finset.Ico l₀.opid l.opid

/-- Number of entries equal to `d` in the `dependent` array of `v`. -/
def edgeMult (ops : Nat → Ffop) (v d : Nat) : Nat :=
  ((Finset.range (ops v).outDepCount).filter (fun i => (ops v).dependent i = d)).card

theorem edgeMult_ne_zero_iff {l : Lib} {v d : Nat} : edgeMult l.ops v d ≠ 0 ↔ l.HasEdge v d := by
  rw [edgeMult, Finset.card_ne_zero]
  constructor
  · rintro ⟨i, hi⟩
    obtain ⟨hlt, hd⟩ := Finset.mem_filter.mp hi
    exact ⟨i, Finset.mem_range.mp hlt, hd⟩
  · rintro ⟨i, hlt, hd⟩
    exact ⟨i, Finset.mem_filter.mpr ⟨Finset.mem_range.mpr hlt, hd⟩⟩

instance (l : Lib) (v d : Nat) : Decidable (l.HasEdge v d) :=
  decidable_of_iff _ edgeMult_ne_zero_iff

namespace GraphBuilt

variable {cap : Nat} {l₀ l : Lib} {cs : List BuildCall} (h : GraphBuilt cap l₀ cs l)
  {v d i : Nat}
include h

theorem inv : BuildInv cap l₀.opid cs ⟨none, l⟩ := buildInv_of_run cs _ h.built

/-- Edges come from calls of `ffop_hb`. -/
theorem hb_of_edge (hv : v ∈ graphVerts l₀ l) (he : l.HasEdge v d) : .hb v d ∈ cs := by
  obtain ⟨hlo, hlt⟩ := Finset.mem_Ico.mp hv
  cases h.inv.lib.edge v d hlo hlt he with
  | hb hcall => exact hcall
  | fromBegin hs => cases hs
  | toEnd hs => cases hs

theorem dependent_mem (hv : v ∈ graphVerts l₀ l) (hi : i < (l.ops v).outDepCount) :
    (l.ops v).dependent i ∈ graphVerts l₀ l := by
  obtain ⟨hlo, hlt⟩ := Finset.mem_Ico.mp hv
  exact Finset.mem_Ico.mpr (h.inv.lib.target v _ hlo hlt ⟨i, hi, rfl⟩)

theorem edgeMult_self (hv : v ∈ graphVerts l₀ l) : edgeMult l.ops v v = 0 := by
  by_contra hne
  exact h.acyclic v (.single (h.hb_of_edge hv (edgeMult_ne_zero_iff.mp hne)))

theorem inDepCount_eq (hv : v ∈ graphVerts l₀ l) :
    (l.ops v).inDepCount = inDegree (graphVerts l₀ l) (edgeMult l.ops) v := by
  obtain ⟨hlo, hlt⟩ := Finset.mem_Ico.mp hv
  exact h.inv.lib.in_eq v hlo hlt

theorem depLeft_eq (hv : v ∈ graphVerts l₀ l) : (l.ops v).depLeft = (l.ops v).inDepCount := by
  obtain ⟨hlo, hlt⟩ := Finset.mem_Ico.mp hv
  exact h.inv.lib.left_eq v hlo hlt

theorem version_eq (hv : v ∈ graphVerts l₀ l) : (l.ops v).version = 0 := by
  obtain ⟨hlo, hlt⟩ := Finset.mem_Ico.mp hv
  exact h.inv.lib.version_eq v hlo hlt

theorem wellFounded : WellFounded fun a c => a ∈ graphVerts l₀ l ∧ l.HasEdge a c := by
  refine wellFounded_of_acyclic (graphVerts l₀ l).finite_toSet (fun a c hac => ?_) (fun x hx => ?_)
  · obtain ⟨ha, i, hi, rfl⟩ := hac
    exact ⟨ha, h.dependent_mem ha hi⟩
  · exact h.acyclic x (Relation.TransGen.mono (fun a c hac => h.hb_of_edge hac.1 hac.2) x x hx)

end GraphBuilt

/-! ### The steps -/

inductive UserAct (σ : Type u) where
  | post (op : Nat)
  | frame (t : Thread)
  | progress (op : Nat)
  | env (e : σ)

/-- One step of a process whose user calls `ffop_post` on the operations `vs`. -/
def userStep {σ : Type u} (impl : Impl σ) (vs : Finset Nat) (x : System σ) :
    UserAct σ → Option (System σ)
  | .post op =>
      if x.proc.user = [] ∧ op ∈ vs then
        some { x with proc := { x.proc with user := [.post op] } }
      else none
  | .frame t => (frameStep impl t x.env x.proc).map (fun r => ⟨r.1, r.2⟩)
  | .progress op => (progressStep impl op x.env x.proc).map (fun r => ⟨r.1, r.2⟩)
  | .env e => some { x with env := e }

/-- The branch of the loop of `ffop_complete(x)` that posts the dependent of index `i`. -/
def Proc.Triggers (p : Proc) (x i : Nat) : Prop :=
  (decrDepLeft (p.ops ((p.ops x).dependent i)).depLeft = 0 ∨
      isOptSet (p.ops x).options ffopDepOr = true) ∧
    ((p.ops x).version = 0 ∨ isOptSet (p.ops x).options ffopNonPersistent = false)

instance (p : Proc) (x i : Nat) : Decidable (p.Triggers x i) :=
  inferInstanceAs (Decidable (_ ∧ _))

/-- The dependent of index `i` loses one of `dep_left`. -/
def Proc.decrDep (p : Proc) (x i : Nat) : Proc :=
  p.setOp ((p.ops x).dependent i) (fun o => { o with depLeft := decrDepLeft o.depLeft })

/-- What the frame `f` on top of the frames `fs` does. -/
inductive FrameMove {σ : Type u} (impl : Impl σ) (t : Thread) (e : σ) (p : Proc)
    (fs : List Frame) : Frame → σ → Proc → Prop
  | refused {x : Nat} (hv : 0 < (p.ops x).version)
      (ho : isOptSet (p.ops x).options ffopNonPersistent = true) :
      FrameMove impl t e p fs (.post x) e (p.setStack fs t)
  | pending {x : Nat} {e' : σ}
      (hr : implPost impl x ((p.logPosting x).ops x) e = (e', ffSuccess)) :
      FrameMove impl t e p fs (.post x) e' (((p.logPosting x).addPending x).setStack fs t)
  | posted {x : Nat} {e' : σ}
      (hr : implPost impl x ((p.logPosting x).ops x) e = (e', ffCompleted)) :
      FrameMove impl t e p fs (.post x) e' ((p.logPosting x).setStack (.complete x :: fs) t)
  | failed {x : Nat} {e' : σ} {r : Int}
      (hr : implPost impl x ((p.logPosting x).ops x) e = (e', r))
      (hne : r ≠ ffSuccess ∧ r ≠ ffCompleted) :
      FrameMove impl t e p fs (.post x) e' ((p.logPosting x).setStack fs t)
  | complete {x : Nat} :
      FrameMove impl t e p fs (.complete x) e ((p.logCompleting x).setStack (.loop x 0 :: fs) t)
  | trigger {x i : Nat} (hi : i < (p.ops x).outDepCount) (ht : p.Triggers x i) :
      FrameMove impl t e p fs (.loop x i) e
        ((p.decrDep x i).setStack (.post ((p.ops x).dependent i) :: .loop x (i + 1) :: fs) t)
  | announce {x i : Nat} (hi : i < (p.ops x).outDepCount) (ht : ¬ p.Triggers x i) :
      FrameMove impl t e p fs (.loop x i) e
        ((p.decrDep x i).setStack (.loop x (i + 1) :: fs) t)
  | done {x i : Nat} (hi : (p.ops x).outDepCount ≤ i) :
      FrameMove impl t e p fs (.loop x i) e (p.setStack fs t)

section Cases

variable {σ : Type u} {impl : Impl σ} {t : Thread} {e e' : σ} {p p' : Proc}

theorem ffopCompleteLoop_eq {x i : Nat} (hi : i < (p.ops x).outDepCount) :
    ffopCompleteLoop x i p = (p.decrDep x i,
      if p.Triggers x i then [.post ((p.ops x).dependent i), .loop x (i + 1)]
      else [.loop x (i + 1)]) := by
  have hself : ((p.decrDep x i).ops x).options = (p.ops x).options ∧
      ((p.decrDep x i).ops x).version = (p.ops x).version :=
    ⟨Proc.setOp_ops_of Ffop.options (fun _ => by rfl) p _ x,
      Proc.setOp_ops_of Ffop.version (fun _ => by rfl) p _ x⟩
  have hdep : ((p.decrDep x i).ops ((p.ops x).dependent i)).depLeft =
      decrDepLeft (p.ops ((p.ops x).dependent i)).depLeft := by
    rw [Proc.decrDep, Proc.setOp_ops, if_pos rfl]
  have htrigger : (((((p.decrDep x i).ops ((p.ops x).dependent i)).depLeft == 0 ||
        isOptSet ((p.decrDep x i).ops x).options ffopDepOr) &&
      (((p.decrDep x i).ops x).version == 0 ||
        !isOptSet ((p.decrDep x i).ops x).options ffopNonPersistent)) = true) ↔
      p.Triggers x i := by
    rw [hself.1, hself.2, hdep]
    simp [Proc.Triggers]
  have hdecr : p.setOp ((p.ops x).dependent i)
      (fun o => { o with depLeft := decrDepLeft o.depLeft }) = p.decrDep x i := rfl
  rw [ffopCompleteLoop, if_pos hi]
  simp only [hdecr, htrigger]

/-- What a step of a cascade can do. -/
theorem frameStep_cases (hs : frameStep impl t e p = some (e', p')) :
    ∃ f fs, p.stack t = f :: fs ∧ FrameMove impl t e p fs f e' p' := by
  cases hstack : p.stack t with
  | nil => simp [frameStep, hstack] at hs
  | cons f fs =>
      refine ⟨f, fs, rfl, ?_⟩
      simp only [frameStep, hstack, Option.some.injEq, Prod.mk.injEq] at hs
      obtain ⟨rfl, rfl⟩ := hs
      cases f with
      | post x =>
          simp only [runFrame, ffopPost]
          split
          · next hc => exact .refused hc.1 hc.2
          · split
            · next hr => exact .posted (Prod.ext rfl hr)
            · next hr =>
                split
                · next hr' => exact .pending (Prod.ext rfl hr')
                · next hr' => exact .failed rfl ⟨hr', hr⟩
      | complete x => exact .complete
      | loop x i =>
          by_cases hi : i < (p.ops x).outDepCount
          · simp only [runFrame, ffopCompleteLoop_eq hi]
            by_cases ht : p.Triggers x i
            · rw [if_pos ht]
              exact .trigger hi ht
            · rw [if_neg ht]
              exact .announce hi ht
          · simp only [runFrame, ffopCompleteLoop_of_le (Nat.le_of_not_lt hi)]
            exact .done (Nat.le_of_not_lt hi)

end Cases

/-! ### The tally of a process -/

/-- How many entries equal to `d` the loop of a frame has still to pass. -/
def Frame.announces (ops : Nat → Ffop) (d : Nat) : Frame → Nat
  | .loop v i =>
      ((Finset.Ico i (ops v).outDepCount).filter (fun j => (ops v).dependent j = d)).card
  | _ => 0

/-- The announcements to `d` that the loops of both threads have still to make. -/
def Proc.announcements (ops : Nat → Ffop) (p : Proc) (d : Nat) : Nat :=
  (p.frames.map (Frame.announces ops d)).sum

/-- The counters of a process, and which operations have completed since when. -/
def Proc.tally (ops : Nat → Ffop) (p : Proc) : Tally Nat where
  left d := (p.ops d).depLeft
  since v d := decide (Since p.log (.completing v) (.completing d))
  pending d := p.announcements ops d

/-- The operation of a frame. -/
@[simp] def Frame.op : Frame → Nat
  | .post x => x
  | .complete x => x
  | .loop x _ => x

/-- Frames and pending entries are those of operations of the graph. -/
structure UserInv (vs : Finset Nat) (ops₀ : Nat → Ffop) (p : Proc) : Prop where
  same : ∀ v, SameOp (p.ops v) (ops₀ v)
  frames_mem : ∀ f ∈ p.frames, f.op ∈ vs
  pending_mem : ∀ x ∈ p.pending, x ∈ vs

section Announcements

variable {ops : Nat → Ffop} {p q : Proc} {t : Thread} {f : Frame} {fs r : List Frame}

/-- Replacing the top frame of a stack, as far as announcements go. -/
theorem announcements_setStack (ops : Nat → Ffop) (hs : p.stack t = f :: fs) (hu : q.user = p.user)
    (hp : q.prog = p.prog) (d : Nat) :
    (q.setStack (r ++ fs) t).announcements ops d + f.announces ops d =
      p.announcements ops d + (r.map (Frame.announces ops d)).sum := by
  cases t with
  | user =>
      simp only [Proc.stack] at hs
      simp only [Proc.announcements, Proc.frames, Proc.setStack, hp, hs, List.map_append,
        List.sum_append, List.map_cons, List.sum_cons]
      omega
  | progress =>
      simp only [Proc.stack] at hs
      simp only [Proc.announcements, Proc.frames, Proc.setStack, hu, hs, List.map_append,
        List.sum_append, List.map_cons, List.sum_cons]
      omega

@[simp] theorem announces_post (x d : Nat) : (Frame.post x).announces ops d = 0 := rfl
@[simp] theorem announces_complete (x d : Nat) : (Frame.complete x).announces ops d = 0 := rfl

theorem announces_loop_zero (x d : Nat) :
    (Frame.loop x 0).announces ops d = edgeMult ops x d := by
  rw [Frame.announces, edgeMult, Finset.range_eq_Ico]

theorem announces_loop_of_le {x i : Nat} (hi : (ops x).outDepCount ≤ i) (d : Nat) :
    (Frame.loop x i).announces ops d = 0 := by
  rw [Frame.announces, Finset.Ico_eq_empty (by omega)]
  rfl

theorem announces_loop_succ {x i : Nat} (hi : i < (ops x).outDepCount) (d : Nat) :
    (Frame.loop x i).announces ops d =
      (Frame.loop x (i + 1)).announces ops d + if (ops x).dependent i = d then 1 else 0 := by
  rw [Frame.announces, Frame.announces, ← Finset.insert_Ico_add_one_left_eq_Ico hi,
    Finset.filter_insert]
  split
  · rw [Finset.card_insert_of_notMem (by simp)]
  · rfl

/-- A loop that has not passed its last entry has an announcement to make. -/
theorem announcements_pos {x i : Nat} (hs : p.stack t = .loop x i :: fs)
    (hi : i < (ops x).outDepCount) : 0 < p.announcements ops ((ops x).dependent i) := by
  have := announcements_setStack ops (q := p) (r := [.loop x (i + 1)]) hs rfl rfl
    ((ops x).dependent i)
  rw [announces_loop_succ hi, if_pos rfl, List.map_singleton, List.sum_singleton] at this
  omega

end Announcements

section Moves

variable {σ : Type u} {impl : Impl σ} {t : Thread} {e e' : σ} {p p' q : Proc} {vs : Finset Nat}
  {ops₀ : Nat → Ffop} {f : Frame} {fs : List Frame}

theorem tally_congr (hleft : ∀ d, (q.ops d).depLeft = (p.ops d).depLeft)
    (hsince : ∀ v d, Since q.log (.completing v) (.completing d) ↔
      Since p.log (.completing v) (.completing d))
    (hann : ∀ d, q.announcements ops₀ d = p.announcements ops₀ d) :
    q.tally ops₀ = p.tally ops₀ := by
  ext v d
  · exact hleft v
  · simp only [Proc.tally, hsince]
  · exact hann v

theorem since_logPosting (p : Proc) (x v d : Nat) :
    Since (p.logPosting x).log (.completing v) (.completing d) ↔
      Since p.log (.completing v) (.completing d) := by
  rw [Proc.logPosting, since_snoc]
  simp

theorem depLeft_logPosting (p : Proc) (x d : Nat) :
    ((p.logPosting x).ops d).depLeft = (p.ops d).depLeft :=
  Proc.logPosting_ops_of Ffop.depLeft (fun _ => rfl) p x d

/-- Posting an operation changes no counter. -/
theorem FrameMove.tally_post {x : Nat} (hs : p.stack t = .post x :: fs)
    (h : FrameMove impl t e p fs (.post x) e' p') : p'.tally ops₀ = p.tally ops₀ := by
  have hann : ∀ (q : Proc) (r : List Frame), q.user = p.user → q.prog = p.prog →
      (∀ d, (r.map (Frame.announces ops₀ d)).sum = 0) →
      ∀ d, (q.setStack (r ++ fs) t).announcements ops₀ d = p.announcements ops₀ d := by
    intro q r hu hp hr d
    have := announcements_setStack ops₀ (r := r) hs hu hp d
    rwa [hr d, announces_post, Nat.add_zero, Nat.add_zero] at this
  cases h with
  | refused hv ho =>
      exact tally_congr (fun d => by simp) (fun v d => by simp)
        (hann p [] rfl rfl (fun _ => rfl))
  | pending hr =>
      refine tally_congr (fun d => ?_) (fun v d => ?_)
        (hann ((p.logPosting x).addPending x) [] rfl rfl (fun _ => rfl))
      · rw [Proc.setStack_ops]
        exact depLeft_logPosting p x d
      · rw [Proc.setStack_log]
        exact since_logPosting p x v d
  | posted hr =>
      refine tally_congr (fun d => ?_) (fun v d => ?_)
        (hann (p.logPosting x) [.complete x] rfl rfl (fun _ => rfl))
      · rw [Proc.setStack_ops]
        exact depLeft_logPosting p x d
      · rw [Proc.setStack_log]
        exact since_logPosting p x v d
  | failed hr hne =>
      refine tally_congr (fun d => ?_) (fun v d => ?_)
        (hann (p.logPosting x) [] rfl rfl (fun _ => rfl))
      · rw [Proc.setStack_ops]
        exact depLeft_logPosting p x d
      · rw [Proc.setStack_log]
        exact since_logPosting p x v d

/-- A completion resets its counter, and its announcements are to come. -/
theorem FrameMove.tally_complete {x : Nat} (hs : p.stack t = .complete x :: fs)
    (hin : (p.ops x).inDepCount = inDegree vs (edgeMult ops₀) x)
    (h : FrameMove impl t e p fs (.complete x) e' p') :
    p'.tally ops₀ = (p.tally ops₀).complete vs (edgeMult ops₀) x := by
  cases h
  ext v d
  · by_cases hv : v = x
    · subst hv
      simp [Proc.tally, Tally.complete, Proc.logCompleting, hin]
    · simp [Proc.tally, Tally.complete, Proc.logCompleting, hv]
  · have hiff : Since (p.log ++ [.completing x]) (.completing v) (.completing d) ↔
        d ≠ x ∧ (v = x ∨ Since p.log (.completing v) (.completing d)) := by
      rw [since_snoc]
      simp only [ne_eq, Event.completing.injEq, eq_comm]
    simp only [Proc.tally, Tally.complete, Proc.setStack_log, Proc.logCompleting, hiff,
      Bool.decide_and, Bool.decide_or]
  · have := announcements_setStack ops₀ (q := p.logCompleting x) (r := [.loop x 0])
      hs rfl rfl v
    rw [announces_complete, Nat.add_zero, List.map_singleton, List.sum_singleton,
      announces_loop_zero] at this
    exact this

/-- The loop of `ffop_complete` announces the completion to its next dependent. -/
theorem FrameMove.tally_loop {x i : Nat} (hs : p.stack t = .loop x i :: fs)
    (hsame : SameOp (p.ops x) (ops₀ x)) (hi : i < (ops₀ x).outDepCount)
    (h : FrameMove impl t e p fs (.loop x i) e' p') :
    0 < (p.tally ops₀).pending ((ops₀ x).dependent i) ∧
      p'.tally ops₀ = (p.tally ops₀).notify ((ops₀ x).dependent i)
        (decrDepLeft (p.ops ((ops₀ x).dependent i)).depLeft) := by
  have hdep : (p.ops x).dependent i = (ops₀ x).dependent i := by rw [hsame.dependent_eq]
  have hann : ∀ r : List Frame, (∀ d, (r.map (Frame.announces ops₀ d)).sum =
        (Frame.loop x (i + 1)).announces ops₀ d) →
      ∀ d, ((p.decrDep x i).setStack (r ++ fs) t).announcements ops₀ d +
        (if (ops₀ x).dependent i = d then 1 else 0) = p.announcements ops₀ d := by
    intro r hr d
    have := announcements_setStack ops₀ (q := p.decrDep x i) (r := r) hs rfl rfl d
    rw [hr d, announces_loop_succ hi] at this
    omega
  have hmain : ∀ r : List Frame, (∀ d, (r.map (Frame.announces ops₀ d)).sum =
        (Frame.loop x (i + 1)).announces ops₀ d) →
      0 < (p.tally ops₀).pending ((ops₀ x).dependent i) ∧
        ((p.decrDep x i).setStack (r ++ fs) t).tally ops₀ =
          (p.tally ops₀).notify ((ops₀ x).dependent i)
            (decrDepLeft (p.ops ((ops₀ x).dependent i)).depLeft) := by
    intro r hr
    have hd := hann r hr ((ops₀ x).dependent i)
    rw [if_pos rfl] at hd
    refine ⟨by simp only [Proc.tally]; omega, ?_⟩
    ext v d
    · simp only [Proc.tally, Tally.notify, Proc.setStack_ops, Proc.decrDep, Proc.setOp_ops,
        hdep, Function.update_apply]
      split
      · next hv => rw [hv]
      · rfl
    · simp only [Proc.tally, Tally.notify, Proc.setStack_log]
      rfl
    · have hv := hann r hr v
      simp only [Proc.tally, Tally.notify, Function.update_apply]
      split
      · next heq =>
          subst heq
          omega
      · next hne =>
          rw [if_neg (Ne.symm hne)] at hv
          exact hv
  cases h with
  | trigger hi' ht =>
      exact hmain [.post ((p.ops x).dependent i), .loop x (i + 1)] (fun d => by simp)
  | announce hi' ht => exact hmain [.loop x (i + 1)] (fun d => by simp)
  | done hle =>
      rw [hsame.out_eq] at hle
      omega

theorem FrameMove.tally_done {x i : Nat} (hs : p.stack t = .loop x i :: fs)
    (hsame : SameOp (p.ops x) (ops₀ x)) (hi : (ops₀ x).outDepCount ≤ i)
    (h : FrameMove impl t e p fs (.loop x i) e' p') : p'.tally ops₀ = p.tally ops₀ := by
  have hout := hsame.out_eq
  cases h with
  | trigger hi' ht => omega
  | announce hi' ht => omega
  | done hle =>
      refine tally_congr (fun d => by simp) (fun v d => by simp) (fun d => ?_)
      have := announcements_setStack ops₀ (q := p) (r := []) hs rfl rfl d
      rwa [announces_loop_of_le hi, List.map_nil, List.sum_nil, Nat.add_zero,
        Nat.add_zero] at this

end Moves

section Same

variable {σ : Type u} {impl : Impl σ}

/-- A frame changes neither the body, the options nor the links of an operation. -/
theorem FrameMove.sameOp {t : Thread} {e e' : σ} {p p' : Proc} {f : Frame} {fs : List Frame}
    (h : FrameMove impl t e p fs f e' p') (v : Nat) : SameOp (p'.ops v) (p.ops v) := by
  have hset : ∀ (x : Nat) (g : Ffop → Ffop), (∀ o, SameOp (g o) o) →
      SameOp ((p.setOp x g).ops v) (p.ops v) :=
    fun x g hg => sameOp_setOp (fun v => SameOp.refl _) x hg v
  have hpost : ∀ x, SameOp ((p.logPosting x).ops v) (p.ops v) :=
    fun x => hset x (fun o => { o with completed := 0 }) (fun o => ⟨rfl, rfl, rfl, rfl, rfl⟩)
  have hdecr : ∀ x i, SameOp ((p.decrDep x i).ops v) (p.ops v) :=
    fun x i => hset _ _ (fun o => ⟨rfl, rfl, rfl, rfl, rfl⟩)
  cases h with
  | refused hv ho =>
      rw [Proc.setStack_ops]
      exact SameOp.refl _
  | @pending x _ hr =>
      rw [Proc.setStack_ops]
      exact hpost x
  | @posted x _ hr =>
      rw [Proc.setStack_ops]
      exact hpost x
  | @failed x _ _ hr hne =>
      rw [Proc.setStack_ops]
      exact hpost x
  | @complete x =>
      rw [Proc.setStack_ops]
      exact hset x (fun o => { o with
        version := (o.version + 1) % 2 ^ 32
        depLeft := o.inDepCount
        completed := (o.completed + 1) % 2 ^ 8 }) (fun o => ⟨rfl, rfl, rfl, rfl, rfl⟩)
  | @trigger x i hi ht =>
      rw [Proc.setStack_ops]
      exact hdecr x i
  | @announce x i hi ht =>
      rw [Proc.setStack_ops]
      exact hdecr x i
  | done hi =>
      rw [Proc.setStack_ops]
      exact SameOp.refl _

end Same

theorem SameOp.trans {o o₁ o₂ : Ffop} (h : SameOp o o₁) (h' : SameOp o₁ o₂) : SameOp o o₂ :=
  ⟨h.body_eq.trans h'.body_eq, h.dependent_eq.trans h'.dependent_eq, h.out_eq.trans h'.out_eq,
    h.in_eq.trans h'.in_eq, h.options_eq.trans h'.options_eq⟩

namespace UserInv

variable {σ : Type u} {impl : Impl σ} {vs : Finset Nat} {ops₀ : Nat → Ffop} {p p' q : Proc}
  {t : Thread} {f : Frame} {fs r : List Frame} {e e' : σ}

theorem init (vs : Finset Nat) (ops₀ : Nat → Ffop) : UserInv vs ops₀ (Proc.init ops₀) where
  same _ := SameOp.refl _
  frames_mem f hf := by simp [Proc.frames, Proc.init] at hf
  pending_mem x hx := by simp [Proc.init] at hx

variable (h : UserInv vs ops₀ p)
include h

/-- The top frame is replaced by frames of operations of the graph. -/
theorem setStack (hs : p.stack t = f :: fs) (hu : q.user = p.user) (hp : q.prog = p.prog)
    (hsame : ∀ v, SameOp ((q.setStack (r ++ fs) t).ops v) (p.ops v)) (hr : ∀ g ∈ r, g.op ∈ vs)
    (hpending : ∀ y ∈ q.pending, y ∈ vs) : UserInv vs ops₀ (q.setStack (r ++ fs) t) where
  same v := (hsame v).trans (h.same v)
  frames_mem g hg := by
    rcases Proc.mem_frames_setStack hs hu hp hg with hg | hg
    · exact hr g hg
    · exact h.frames_mem g hg
  pending_mem y hy := by
    rw [Proc.setStack_pending] at hy
    exact hpending y hy

/-- Step lemma: a frame of a cascade. -/
theorem frame (hdep : ∀ v ∈ vs, ∀ i, i < (ops₀ v).outDepCount → (ops₀ v).dependent i ∈ vs)
    (hs : p.stack t = f :: fs) (hm : FrameMove impl t e p fs f e' p') : UserInv vs ops₀ p' := by
  have hf : f.op ∈ vs := h.frames_mem f (Proc.top_mem_frames hs)
  have hsame := hm.sameOp
  cases hm with
  | refused hv ho => exact h.setStack (r := []) hs rfl rfl hsame (by simp) h.pending_mem
  | @pending x _ hr =>
      refine h.setStack (q := (p.logPosting x).addPending x) (r := []) hs rfl rfl hsame (by simp)
        (fun y hy => ?_)
      rcases List.mem_cons.mp hy with rfl | hy
      · exact hf
      · exact h.pending_mem y hy
  | @posted x _ hr =>
      refine h.setStack (q := p.logPosting x) (r := [.complete x]) hs rfl rfl hsame ?_
        h.pending_mem
      simpa using hf
  | @failed x _ _ hr hne =>
      exact h.setStack (q := p.logPosting x) (r := []) hs rfl rfl hsame (by simp) h.pending_mem
  | @complete x =>
      refine h.setStack (q := p.logCompleting x) (r := [.loop x 0]) hs rfl rfl hsame ?_
        h.pending_mem
      simpa using hf
  | @trigger x i hi ht =>
      refine h.setStack (q := p.decrDep x i) (r := [.post _, .loop x (i + 1)]) hs rfl rfl hsame ?_
        h.pending_mem
      rw [(h.same x).out_eq] at hi
      have hd := hdep x hf i hi
      rw [← (h.same x).dependent_eq] at hd
      intro g hg
      rcases List.mem_cons.mp hg with rfl | hg
      · exact hd
      · rw [List.mem_singleton.mp hg]
        exact hf
  | @announce x i hi ht =>
      refine h.setStack (q := p.decrDep x i) (r := [.loop x (i + 1)]) hs rfl rfl hsame ?_
        h.pending_mem
      simpa using hf
  | done hi => exact h.setStack (r := []) hs rfl rfl hsame (by simp) h.pending_mem

/-- The user calls `ffop_post`. -/
theorem call {op : Nat} (hop : op ∈ vs) :
    UserInv vs ops₀ { p with user := [.post op] } where
  same := h.same
  frames_mem g hg := by
    simp only [Proc.frames, List.singleton_append, List.mem_cons] at hg
    rcases hg with rfl | hg
    · exact hop
    · exact h.frames_mem g (by simp [Proc.frames, hg])
  pending_mem := h.pending_mem

/-- The progress thread completes a pending operation. -/
theorem progress {op : Nat} (hop : op ∈ p.pending) :
    UserInv vs ops₀ { p with pending := p.pending.erase op, prog := [.complete op] } where
  same := h.same
  frames_mem g hg := by
    simp only [Proc.frames, List.mem_append, List.mem_singleton] at hg
    rcases hg with hg | rfl
    · exact h.frames_mem g (by simp [Proc.frames, hg])
    · exact h.pending_mem op hop
  pending_mem y hy := h.pending_mem y (List.mem_of_mem_erase hy)

end UserInv

section Step

variable {σ : Type u} {impl : Impl σ} {vs : Finset Nat} {ops₀ : Nat → Ffop}
  {x x' : System σ}

/-- What a step of the user, of a thread or of the outer world can be. -/
inductive UserMove (impl : Impl σ) (vs : Finset Nat) (x : System σ) :
    UserAct σ → System σ → Prop
  | post {op : Nat} (hu : x.proc.user = []) (hop : op ∈ vs) :
      UserMove impl vs x (.post op) { x with proc := { x.proc with user := [.post op] } }
  | frame {t : Thread} {f : Frame} {fs : List Frame} {e' : σ} {p' : Proc}
      (hs : x.proc.stack t = f :: fs) (hm : FrameMove impl t x.env x.proc fs f e' p') :
      UserMove impl vs x (.frame t) ⟨e', p'⟩
  | progress {op : Nat} {e' : σ} (hp : x.proc.prog = []) (hop : op ∈ x.proc.pending)
      (ht : impl.test op (x.proc.ops op) x.env = some e') :
      UserMove impl vs x (.progress op)
        ⟨e', { x.proc with pending := x.proc.pending.erase op, prog := [.complete op] }⟩
  | env (e : σ) : UserMove impl vs x (.env e) { x with env := e }

theorem UserMove.sameOp {act : UserAct σ} (h : UserMove impl vs x act x') (v : Nat) :
    SameOp (x'.proc.ops v) (x.proc.ops v) := by
  cases h with
  | post hu hop => exact SameOp.refl _
  | frame hs hm => exact hm.sameOp v
  | progress hp hop ht => exact SameOp.refl _
  | env e => exact SameOp.refl _

theorem userStep_cases {act : UserAct σ} (hs : userStep impl vs x act = some x') :
    UserMove impl vs x act x' := by
  cases act with
  | post op =>
      simp only [userStep] at hs
      split at hs
      · next hc =>
          obtain rfl := Option.some.inj hs
          exact .post hc.1 hc.2
      · cases hs
  | frame t =>
      obtain ⟨⟨e', p'⟩, hf, rfl⟩ := Option.map_eq_some_iff.mp hs
      obtain ⟨f, fs, hstack, hm⟩ := frameStep_cases hf
      exact .frame hstack hm
  | progress op =>
      obtain ⟨⟨e', p'⟩, hp, rfl⟩ := Option.map_eq_some_iff.mp hs
      simp only [progressStep] at hp
      split at hp
      · next hc =>
          obtain ⟨e'', ht, heq⟩ := Option.map_eq_some_iff.mp hp
          obtain ⟨rfl, rfl⟩ := Prod.mk.inj heq
          exact .progress hc.1 hc.2 ht
      · cases hp
  | env e =>
      obtain rfl := Option.some.inj hs
      exact .env e

/-- Step lemma. -/
theorem UserInv.step (h : UserInv vs ops₀ x.proc)
    (hdep : ∀ v ∈ vs, ∀ i, i < (ops₀ v).outDepCount → (ops₀ v).dependent i ∈ vs)
    {act : UserAct σ} (hs : userStep impl vs x act = some x') : UserInv vs ops₀ x'.proc := by
  cases userStep_cases hs with
  | post hu hop => exact h.call hop
  | frame hstack hm => exact h.frame hdep hstack hm
  | progress hp hop ht => exact h.progress hop
  | env e => exact h

/-- A frame on top of a stack can always run. -/
theorem exists_frameStep (impl : Impl σ) (vs : Finset Nat) {t : Thread} {f : Frame}
    {fs : List Frame} (hs : x.proc.stack t = f :: fs) :
    ∃ x', userStep impl vs x (.frame t) = some x' := by
  simp [userStep, frameStep, hs]

/-- Calling `ffop_post`, and finding a request completed, changes no counter. -/
theorem tally_call (ops₀ : Nat → Ffop) (p : Proc) (hu : p.user = []) (op : Nat) :
    Proc.tally ops₀ { p with user := [.post op] } = p.tally ops₀ := by
  refine tally_congr (fun _ => rfl) (fun _ _ => Iff.rfl) (fun d => ?_)
  simp [Proc.announcements, Proc.frames, hu]

theorem tally_progress (ops₀ : Nat → Ffop) (p : Proc) (hp : p.prog = []) (op : Nat) :
    Proc.tally ops₀ { p with pending := p.pending.erase op, prog := [.complete op] } =
      p.tally ops₀ := by
  refine tally_congr (fun _ => rfl) (fun _ _ => Iff.rfl) (fun d => ?_)
  simp [Proc.announcements, Proc.frames, hp]

/-- What a step does to the counters. -/
inductive TallyMove (vs : Finset Nat) (ops₀ : Nat → Ffop) (p p' : Proc) :
    UserAct σ → Prop
  | same {act : UserAct σ} (hno : ∀ t op fs, act = .frame t → p.stack t ≠ .complete op :: fs)
      (h : p'.tally ops₀ = p.tally ops₀) : TallyMove vs ops₀ p p' act
  | complete {t : Thread} {op : Nat} {fs : List Frame} (hs : p.stack t = .complete op :: fs)
      (hop : op ∈ vs)
      (h : p'.tally ops₀ = (p.tally ops₀).complete vs (edgeMult ops₀) op) :
      TallyMove vs ops₀ p p' (.frame t)
  | announce {t : Thread} {op i : Nat} {fs : List Frame} (hs : p.stack t = .loop op i :: fs)
      (hop : op ∈ vs) (hi : i < (ops₀ op).outDepCount)
      (hpending : 0 < (p.tally ops₀).pending ((ops₀ op).dependent i))
      (h : p'.tally ops₀ = (p.tally ops₀).notify ((ops₀ op).dependent i)
        (decrDepLeft (p.ops ((ops₀ op).dependent i)).depLeft)) :
      TallyMove vs ops₀ p p' (.frame t)

theorem UserInv.tallyMove (h : UserInv vs ops₀ x.proc)
    (hin : ∀ v ∈ vs, (ops₀ v).inDepCount = inDegree vs (edgeMult ops₀) v) {act : UserAct σ}
    (hs : userStep impl vs x act = some x') : TallyMove vs ops₀ x.proc x'.proc act := by
  have htop : ∀ {t f fs}, x.proc.stack t = f :: fs → (∀ op, f ≠ .complete op) →
      ∀ t' op fs', (UserAct.frame t : UserAct σ) = .frame t' →
        x.proc.stack t' ≠ .complete op :: fs' := by
    intro t f fs hstack hf t' op fs' ht hs'
    obtain rfl := UserAct.frame.inj ht
    rw [hstack] at hs'
    exact hf op (List.cons.inj hs').1
  cases userStep_cases hs with
  | post hu hop => exact .same (fun _ _ _ ht => by cases ht) (tally_call _ _ hu _)
  | @frame t f fs e' p' hstack hm =>
      have hf : f.op ∈ vs := h.frames_mem f (Proc.top_mem_frames hstack)
      cases f with
      | post op => exact .same (htop hstack (fun _ => by simp)) (hm.tally_post hstack)
      | complete op =>
          exact .complete hstack hf
            (hm.tally_complete hstack ((h.same op).in_eq.trans (hin op hf)))
      | loop op i =>
          by_cases hi : i < (ops₀ op).outDepCount
          · obtain ⟨hpending, htally⟩ := hm.tally_loop hstack (h.same op) hi
            exact .announce hstack hf hi hpending htally
          · exact .same (htop hstack (fun _ => by simp))
              (hm.tally_done hstack (h.same op) (Nat.le_of_not_lt hi))
  | progress hp hop ht => exact .same (fun _ _ _ ht => by cases ht) (tally_progress _ _ hp _)
  | env e => exact .same (fun _ _ _ ht => by cases ht) rfl

end Step

/-! ### The law of `dep_left` -/

/-- `dep_left` is the number of in-edges whose source has not completed since the operation
itself last completed, and of the announcements to it that the loops of `ffop_complete` have
still to make. -/
def DepLeftLaw (l₀ l : Lib) (p : Proc) : Prop :=
  ∀ d ∈ graphVerts l₀ l, (p.ops d).depLeft =
    (∑ v ∈ graphVerts l₀ l with ¬ Since p.log (.completing v) (.completing d),
      edgeMult l.ops v d) + p.announcements l.ops d

/-- An iteration of the loop of `ffop_complete` finds `dep_left` above zero, and posts the
dependent only when all predecessors of it have completed since it last completed. -/
def AnnounceLaw {σ : Type u} (l₀ l : Lib) (x : System σ) (act : UserAct σ) : Prop :=
  ∀ t op i fs, act = .frame t → x.proc.stack t = .loop op i :: fs →
    i < (l.ops op).outDepCount →
    0 < (x.proc.ops ((l.ops op).dependent i)).depLeft ∧
      (x.proc.Triggers op i → ∀ v ∈ graphVerts l₀ l, l.HasEdge v ((l.ops op).dependent i) →
        Since x.proc.log (.completing v) (.completing ((l.ops op).dependent i)))

/-- An operation completes when its dependents have completed since it last completed, and
no completion of a predecessor is still to be announced to it. -/
def CompletesInTurn {σ : Type u} (l : Lib) (x : System σ) (act : UserAct σ) : Prop :=
  ∀ t op fs, act = .frame t → x.proc.stack t = .complete op :: fs →
    (∀ d, l.HasEdge op d → ¬ Since x.proc.log (.completing op) (.completing d)) ∧
      x.proc.announcements l.ops op = 0

instance (l₀ l : Lib) (p : Proc) : Decidable (DepLeftLaw l₀ l p) :=
  inferInstanceAs (Decidable (∀ d ∈ graphVerts l₀ l, _))

theorem depLeftLaw_iff {l₀ l : Lib} {p : Proc} : DepLeftLaw l₀ l p ↔
    BalancedOn (graphVerts l₀ l) (edgeMult l.ops) (graphVerts l₀ l) (p.tally l.ops) := by
  unfold DepLeftLaw BalancedOn Tally.missing
  simp only [Proc.tally, decide_eq_false_iff_not]

section AndDeps

variable {σ : Type u} {impl : Impl σ} {cap : Nat} {l₀ l : Lib} {cs : List BuildCall}
  {x x' : System σ} {act : UserAct σ}

theorem depLeftLaw_init (h : GraphBuilt cap l₀ cs l) : DepLeftLaw l₀ l (Proc.init l.ops) := by
  intro d hd
  have hann : (Proc.init l.ops).announcements l.ops d = 0 := rfl
  have hall : ∀ v, ¬ Since (Proc.init l.ops).log (.completing v) (.completing d) := by
    intro v hs
    simpa [Proc.init] using hs.mem
  simp only [hall, not_false_eq_true, Finset.filter_true, hann, Nat.add_zero]
  exact (h.depLeft_eq hd).trans (h.inDepCount_eq hd)

/-- Step lemma: a step keeps the law iff it completes in turn. -/
theorem depLeftLaw_step_iff (h : GraphBuilt cap l₀ cs l)
    (hx : UserInv (graphVerts l₀ l) l.ops x.proc) (hlaw : DepLeftLaw l₀ l x.proc)
    (hs : userStep impl (graphVerts l₀ l) x act = some x') :
    DepLeftLaw l₀ l x'.proc ↔ CompletesInTurn l x act := by
  rw [depLeftLaw_iff] at hlaw ⊢
  cases hx.tallyMove (fun v hv => h.inDepCount_eq hv) hs with
  | same hno htally =>
      rw [htally]
      exact iff_of_true hlaw (fun t op fs ht hstack => absurd hstack (hno t op fs ht))
  | @complete t op fs hstack hop htally =>
      rw [htally, balancedOn_complete_iff hlaw hop (h.edgeMult_self hop)]
      constructor
      · rintro ⟨hsince, hpending⟩ t' op' fs' ht hstack'
        obtain rfl := UserAct.frame.inj ht
        rw [hstack] at hstack'
        obtain rfl := Frame.complete.inj (List.cons.inj hstack').1
        refine ⟨fun d he => ?_, hpending hop⟩
        obtain ⟨i, hi, rfl⟩ := he
        have := hsince _ (h.dependent_mem hop hi) (edgeMult_ne_zero_iff.mpr ⟨i, hi, rfl⟩)
        exact of_decide_eq_false this
      · intro hturn
        obtain ⟨hsince, hpending⟩ := hturn t op fs rfl hstack
        exact ⟨fun d _ hm => decide_eq_false (hsince d (edgeMult_ne_zero_iff.mp hm)),
          fun _ => hpending⟩
  | @announce t op i fs hstack hop hi hpending htally =>
      have hpos : 0 < (x.proc.ops ((l.ops op).dependent i)).depLeft :=
        hlaw.left_pos (h.dependent_mem hop hi) hpending
      rw [htally]
      refine iff_of_true (hlaw.notify hpending (fun _ => ?_)) (fun t' op' fs' ht hstack' => ?_)
      · rw [decrDepLeft_of_pos hpos]
        exact Nat.sub_add_cancel hpos
      · obtain rfl := UserAct.frame.inj ht
        rw [hstack] at hstack'
        cases (List.cons.inj hstack').1

/-- The law says of an announcement what it should. -/
theorem announceLaw_of_depLeftLaw (h : GraphBuilt cap l₀ cs l)
    (hdef : ∀ v ∈ graphVerts l₀ l, DefaultOptions (l.ops v).options)
    (hx : UserInv (graphVerts l₀ l) l.ops x.proc) (hlaw : DepLeftLaw l₀ l x.proc) :
    AnnounceLaw l₀ l x act := by
  rw [depLeftLaw_iff] at hlaw
  intro t op i fs ht hstack hi
  have hop : op ∈ graphVerts l₀ l := hx.frames_mem _ (Proc.top_mem_frames hstack)
  have hd := h.dependent_mem hop hi
  have hpending : 0 < (x.proc.tally l.ops).pending ((l.ops op).dependent i) :=
    announcements_pos hstack hi
  have hpos : 0 < (x.proc.ops ((l.ops op).dependent i)).depLeft := hlaw.left_pos hd hpending
  refine ⟨hpos, fun htrigger v hv he => ?_⟩
  have hzero : decrDepLeft (x.proc.ops ((l.ops op).dependent i)).depLeft = 0 := by
    rcases htrigger.1 with hz | hor
    · rwa [(hx.same op).dependent_eq] at hz
    · rw [(hx.same op).options_eq, (hdef op hop).1] at hor
      cases hor
  rw [decrDepLeft_of_pos hpos] at hzero
  -- the counter that is about to become zero has seen all predecessors
  have hnext := hlaw.notify (m := 0) hpending (fun _ => by
    have hleft : (x.proc.tally l.ops).left ((l.ops op).dependent i) =
        (x.proc.ops ((l.ops op).dependent i)).depLeft := rfl
    omega)
  have hsince := hnext.all_since hd (by simp [Tally.notify]) hv (edgeMult_ne_zero_iff.mpr he)
  exact of_decide_eq_true hsince

/-- **AND dependencies over arbitrary posts**: `dep_left` counts the outstanding predecessors
in every state, and an operation is posted when there are none, iff operations complete in
turn. -/
theorem andDeps_iff (h : GraphBuilt cap l₀ cs l)
    (hdef : ∀ body o, .create body o ∈ cs → DefaultOptions o) (impl : Impl σ) (e : σ)
    (as : List (UserAct σ)) :
    RunAlways (userStep impl (graphVerts l₀ l)) (fun x => DepLeftLaw l₀ l x.proc)
          ⟨e, Proc.init l.ops⟩ as ∧
        RunMeets (userStep impl (graphVerts l₀ l)) (AnnounceLaw l₀ l) ⟨e, Proc.init l.ops⟩ as ↔
      RunMeets (userStep impl (graphVerts l₀ l)) (CompletesInTurn l) ⟨e, Proc.init l.ops⟩ as := by
  have hopt : ∀ v ∈ graphVerts l₀ l, DefaultOptions (l.ops v).options := by
    intro v hv
    obtain ⟨hlo, hlt⟩ := Finset.mem_Ico.mp hv
    exact h.inv.options hdef v hlo hlt
  have hinit : UserInv (graphVerts l₀ l) l.ops (Proc.init l.ops) := UserInv.init _ _
  have hdep : ∀ v ∈ graphVerts l₀ l, ∀ i, i < (l.ops v).outDepCount →
      (l.ops v).dependent i ∈ graphVerts l₀ l := fun v hv i hi => h.dependent_mem hv hi
  have hstep : ∀ s a s', UserInv (graphVerts l₀ l) l.ops s.proc ∧ DepLeftLaw l₀ l s.proc →
      CompletesInTurn l s a → userStep impl (graphVerts l₀ l) s a = some s' →
      UserInv (graphVerts l₀ l) l.ops s'.proc ∧ DepLeftLaw l₀ l s'.proc :=
    fun s a s' hI hC ha =>
      ⟨hI.1.step hdep ha, (depLeftLaw_step_iff h hI.1 hI.2 ha).mpr hC⟩
  constructor
  · rintro ⟨halways, _⟩
    refine halways.meets_of_step (I := fun s => UserInv (graphVerts l₀ l) l.ops s.proc)
      (fun s a s' hI _ ha => hI.step hdep ha) (fun s a hI hlaw hnext => ?_) as _ hinit
    intro t op fs ht hstack
    subst ht
    obtain ⟨s', ha⟩ := exists_frameStep impl (graphVerts l₀ l) hstack
    exact (depLeftLaw_step_iff h hI hlaw ha).mp (hnext s' ha) t op fs rfl hstack
  · intro hmeets
    exact ⟨runAlways_of_meets (fun s hI => hI.2) hstep as _ ⟨hinit, depLeftLaw_init h⟩ hmeets,
      RunMeets.of_invariant hstep
        (fun s a hI _ => announceLaw_of_depLeftLaw h hopt hI.1 hI.2) as _
        ⟨hinit, depLeftLaw_init h⟩ hmeets⟩

end AndDeps

/-! ### Two receives that a send waits for -/

def joinCalls : List BuildCall :=
  [.create (.recv 1 0 1) ffopDepAnd, .create (.recv 2 0 2) ffopDepAnd,
    .create (.send 3 0 3) ffopDepAnd, .hb 0 2, .hb 1 2]

/-- Operation `op` is posted, and its completion is announced to one dependent that is
not posted. -/
def postAndComplete (op : Nat) : List (UserAct Unit) :=
  [.post op, .frame .user, .progress op] ++ List.replicate 3 (.frame .progress)

theorem graphBuilt_join : ∃ l, GraphBuilt maxDeps Lib.init joinCalls l ∧
    (∀ body o, .create body o ∈ joinCalls → DefaultOptions o) ∧
    (∃ x, run (userStep asyncImpl (graphVerts Lib.init l)) ⟨(), Proc.init l.ops⟩
        (postAndComplete 0 ++ postAndComplete 0) = some x ∧ ¬ DepLeftLaw Lib.init l x.proc) := by
  refine ⟨_, ⟨rfl, ?_⟩, ?_, _, rfl, ?_⟩
  · refine acyclic_of_lt id (fun a b hab => ?_)
    simp only [joinCalls, List.mem_cons, BuildCall.hb.injEq, reduceCtorEq, List.not_mem_nil,
      or_false, false_or] at hab
    rcases hab with ⟨rfl, rfl⟩ | ⟨rfl, rfl⟩
    · decide
    · decide
  · intro body o hc
    simp only [joinCalls, List.mem_cons, BuildCall.create.injEq, reduceCtorEq,
      List.not_mem_nil, or_false] at hc
    rcases hc with ⟨_, rfl⟩ | ⟨_, rfl⟩ | ⟨_, rfl⟩
    · decide
    · decide
    · decide
  · decide

theorem andDeps_iff_join : ∃ l, GraphBuilt maxDeps Lib.init joinCalls l ∧
    (RunAlways (userStep asyncImpl (graphVerts Lib.init l))
          (fun x => DepLeftLaw Lib.init l x.proc) ⟨(), Proc.init l.ops⟩
          (postAndComplete 0 ++ postAndComplete 1) ∧
        RunMeets (userStep asyncImpl (graphVerts Lib.init l)) (AnnounceLaw Lib.init l)
          ⟨(), Proc.init l.ops⟩ (postAndComplete 0 ++ postAndComplete 1) ↔
      RunMeets (userStep asyncImpl (graphVerts Lib.init l)) (CompletesInTurn l)
        ⟨(), Proc.init l.ops⟩ (postAndComplete 0 ++ postAndComplete 1)) := by
  obtain ⟨l, h, hdef, _⟩ := graphBuilt_join
  exact ⟨l, h, andDeps_iff h hdef asyncImpl () _⟩

/-- The first receive is posted again before the second one has completed: the send is
posted. -/
theorem andDeps_fails :
    ¬ ∀ (cs : List BuildCall) (l : Lib), GraphBuilt maxDeps Lib.init cs l →
      (∀ body o, .create body o ∈ cs → DefaultOptions o) →
      ∀ as : List (UserAct Unit), RunAlways (userStep asyncImpl (graphVerts Lib.init l))
        (fun x => DepLeftLaw Lib.init l x.proc) ⟨(), Proc.init l.ops⟩ as := by
  intro hall
  obtain ⟨l, h, hdef, x, hrun, hbad⟩ := graphBuilt_join
  exact hbad ((hall joinCalls l h hdef _).last hrun)

end Fflib
