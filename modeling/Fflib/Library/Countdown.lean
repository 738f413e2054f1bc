import Mathlib.Algebra.BigOperators.Group.Finset.Basic
import Mathlib.Algebra.Order.BigOperators.Group.Finset
import Mathlib.Data.Finset.Sigma
import Mathlib.Logic.Relation
import Mathlib.Order.WellFoundedSet

/-!
# Executing a dependency graph by counting

A finite multigraph with ordered out-edges and one source is executed as
follows.  Every vertex carries a counter, initially its in-degree.  A vertex
that completes fires its out-edges one after another; firing an edge decreases
the counter of its target, and the target is triggered when its counter
reaches zero.  Several vertices may be firing at the same time, in any
interleaving.

* `Sound` is the invariant: a counter is the number of edges still to be
  fired, and a vertex has been triggered iff no edge into it remains.
* `Sound.setPhase`, `Sound.finish` and `Sound.fire` are its step lemmas.
* `Sound.all_done_of_sink` and `Sound.not_idle_of_fired` are its consequences
  for whole executions, and `work` is a measure that every step decreases.
-/

namespace Fflib
namespace Library

universe u

/-- An acyclic relation between the elements of a finite set is well founded. -/
theorem wellFounded_of_acyclic {V : Type u} {r : V → V → Prop} {s : Set V} (hs : s.Finite)
    (hr : ∀ a b, r a b → a ∈ s ∧ b ∈ s) (hacyc : ∀ v, ¬ Relation.TransGen r v v) :
    WellFounded r := by
  have hord : IsStrictOrder V (Relation.TransGen r) :=
    { irrefl := hacyc
      trans := fun _ _ _ => Relation.TransGen.trans }
  have hwf := Set.wellFoundedOn_iff.mp (hs.wellFoundedOn (r := Relation.TransGen r))
  exact Subrelation.wf (fun {a b} hab => ⟨Relation.TransGen.single hab, hr a b hab⟩) hwf

/-- A relation along which some measure grows is acyclic. -/
theorem acyclic_of_lt {V : Type u} {r : V → V → Prop} (f : V → ℕ)
    (hf : ∀ a b, r a b → f a < f b) : ∀ v, ¬ Relation.TransGen r v v := by
  have hlt : ∀ a b, Relation.TransGen r a b → f a < f b := by
    intro a b hab
    induction hab with
    | single h => exact hf _ _ h
    | tail _ h ih => exact ih.trans (hf _ _ h)
  exact fun v hv => lt_irrefl _ (hlt v v hv)

/-- The converse of an acyclic relation is acyclic. -/
theorem acyclic_swap {V : Type u} {r : V → V → Prop}
    (hacyc : ∀ v, ¬ Relation.TransGen r v v) :
    ∀ v, ¬ Relation.TransGen (Function.swap r) v v := by
  intro v hv
  exact hacyc v (Relation.transGen_swap.mp hv)

/-- A finite multigraph with ordered out-edges and a single source. -/
structure DepGraph (V : Type u) where
  verts : Finset V
  root : V
  out : V → ℕ
  dep : V → ℕ → V
  root_mem : root ∈ verts
  out_eq_zero : ∀ v, v ∉ verts → out v = 0
  dep_mem : ∀ v i, i < out v → dep v i ∈ verts

/-- What a vertex is doing; `cascading j` has fired its first `j` out-edges. -/
inductive Phase where
  | idle
  | triggered
  | inflight
  | completing
  | cascading (j : ℕ)
deriving DecidableEq

namespace Phase

/-- Number of out-edges already fired. -/
def fired : Phase → ℕ
  | cascading j => j
  | _ => 0

/-- The vertex has completed. -/
def isDone : Phase → Bool
  | cascading _ => true
  | _ => false

/-- The vertex has been started: it is in flight, completing or completed. -/
def isStarted : Phase → Bool
  | idle | triggered => false
  | _ => true

@[simp] theorem fired_cascading (j : ℕ) : (cascading j).fired = j := rfl

theorem fired_eq_zero {q : Phase} (h : q.isDone = false) : q.fired = 0 := by
  cases q <;> first | rfl | simp [isDone] at h

theorem isDone_iff {q : Phase} : q.isDone = true ↔ q = cascading q.fired := by
  cases q <;> simp [isDone, fired]

theorem ne_idle_of_isDone {q : Phase} (h : q.isDone = true) : q ≠ idle := by
  rintro rfl
  cases h

theorem isDone_of_fired_pos {q : Phase} (h : 0 < q.fired) : q.isDone = true := by
  cases q <;> first | rfl | simp [fired] at h

theorem isStarted_of_isDone {q : Phase} (h : q.isDone = true) : q.isStarted = true := by
  cases q <;> simp_all [isDone, isStarted]

theorem ne_idle_of_isStarted {q : Phase} (h : q.isStarted = true) : q ≠ idle := by
  rintro rfl
  cases h

end Phase

/-- The counters and phases of an execution. -/
structure Progress (V : Type u) where
  phase : V → Phase
  left : V → ℕ

/-- Move one vertex to another phase. -/
def Progress.setPhase {V : Type u} [DecidableEq V] (a : Progress V) (v : V) (q : Phase) :
    Progress V :=
  { a with phase := Function.update a.phase v q }

namespace DepGraph

variable {V : Type u} [DecidableEq V] (G : DepGraph V)

/-- There is an edge from `p` to `d`. -/
def Pred (p d : V) : Prop := ∃ i, i < G.out p ∧ G.dep p i = d

/-- All edges, as pairs of a source and an out-edge index. -/
def edges : Finset (Σ _ : V, ℕ) := G.verts.sigma fun v => Finset.range (G.out v)

/-- The edges into `d`. -/
def inEdges (d : V) : Finset (Σ _ : V, ℕ) := G.edges.filter fun e => G.dep e.1 e.2 = d

/-- Number of edges into `d`. -/
def indeg (d : V) : ℕ := (G.inEdges d).card

theorem mem_verts_of_lt {v : V} {i : ℕ} (h : i < G.out v) : v ∈ G.verts := by
  by_contra hv
  have := G.out_eq_zero v hv
  omega

@[simp] theorem mem_inEdges {d p : V} {i : ℕ} :
    (⟨p, i⟩ : Σ _ : V, ℕ) ∈ G.inEdges d ↔ i < G.out p ∧ G.dep p i = d := by
  simp only [inEdges, edges, Finset.mem_filter, Finset.mem_sigma, Finset.mem_range]
  constructor
  · rintro ⟨⟨_, hi⟩, hd⟩
    exact ⟨hi, hd⟩
  · rintro ⟨hi, hd⟩
    exact ⟨⟨G.mem_verts_of_lt hi, hi⟩, hd⟩

theorem indeg_pos_iff {d : V} : 0 < G.indeg d ↔ ∃ p, G.Pred p d := by
  rw [indeg, Finset.card_pos]
  constructor
  · rintro ⟨⟨p, i⟩, h⟩
    exact ⟨p, i, G.mem_inEdges.mp h⟩
  · rintro ⟨p, i, h⟩
    exact ⟨⟨p, i⟩, G.mem_inEdges.mpr h⟩

theorem pred_mem {p d : V} (h : G.Pred p d) : p ∈ G.verts ∧ d ∈ G.verts := by
  obtain ⟨i, hi, rfl⟩ := h
  exact ⟨G.mem_verts_of_lt hi, G.dep_mem p i hi⟩

/-- The edges into `d` that have not been fired. -/
def unfired (a : Progress V) (d : V) : Finset (Σ _ : V, ℕ) :=
  (G.inEdges d).filter fun e => (a.phase e.1).fired ≤ e.2

/-- Number of edges into `d` that have not been fired. -/
def remaining (a : Progress V) (d : V) : ℕ := (G.unfired a d).card

@[simp] theorem mem_unfired {a : Progress V} {d p : V} {i : ℕ} :
    (⟨p, i⟩ : Σ _ : V, ℕ) ∈ G.unfired a d ↔
      (i < G.out p ∧ G.dep p i = d) ∧ (a.phase p).fired ≤ i := by
  simp [unfired]

theorem remaining_eq_zero_iff {a : Progress V} {d : V} :
    G.remaining a d = 0 ↔
      ∀ p i, i < G.out p → G.dep p i = d → i < (a.phase p).fired := by
  rw [remaining, Finset.card_eq_zero]
  constructor
  · intro h p i hi hd
    by_contra hlt
    have hmem : (⟨p, i⟩ : Σ _ : V, ℕ) ∈ G.unfired a d :=
      G.mem_unfired.mpr ⟨⟨hi, hd⟩, by omega⟩
    simp [h] at hmem
  · intro h
    refine Finset.eq_empty_of_forall_notMem ?_
    rintro ⟨p, i⟩ hmem
    obtain ⟨⟨hi, hd⟩, hle⟩ := G.mem_unfired.mp hmem
    have := h p i hi hd
    omega

theorem remaining_congr {a b : Progress V}
    (h : ∀ v, (b.phase v).fired = (a.phase v).fired) (d : V) :
    G.remaining b d = G.remaining a d := by
  simp only [remaining, unfired, h]

/-- Nothing has been fired when nothing has completed. -/
theorem remaining_eq_indeg {a : Progress V} (h : ∀ v, (a.phase v).isDone = false) (d : V) :
    G.remaining a d = G.indeg d := by
  simp [remaining, unfired, indeg, Phase.fired_eq_zero (h _)]

/-- The state at the start of an execution. -/
def start : Progress V where
  phase := Function.update (fun _ => .idle) G.root .triggered
  left := G.indeg

/-- Vertex `v` completes: its counter is restored and its cascade begins. -/
def finish (a : Progress V) (v : V) : Progress V where
  phase := Function.update a.phase v (.cascading 0)
  left := Function.update a.left v (G.indeg v)

/-- Vertex `v` fires its out-edge `j`. -/
def fire (a : Progress V) (v : V) (j : ℕ) : Progress V where
  phase :=
    if a.left (G.dep v j) - 1 = 0 then
      Function.update (Function.update a.phase v (.cascading (j + 1))) (G.dep v j) .triggered
    else Function.update a.phase v (.cascading (j + 1))
  left := Function.update a.left (G.dep v j) (a.left (G.dep v j) - 1)

/-- The invariant of an execution. -/
structure Sound (a : Progress V) : Prop where
  fired_le : ∀ v, (a.phase v).fired ≤ G.out v
  idle_iff : ∀ v, v ∈ G.verts → (a.phase v = .idle ↔ G.remaining a v ≠ 0)
  outside : ∀ v, v ∉ G.verts → a.phase v = .idle
  left_eq : ∀ v, v ∈ G.verts →
    a.left v = if (a.phase v).isDone then G.indeg v else G.remaining a v

/-- Every vertex but the source is entered by an edge, and the source by none. -/
def Entered : Prop := ∀ v, v ∈ G.verts → (v ≠ G.root ↔ 0 < G.indeg v)

theorem start_phase_isDone (v : V) : (G.start.phase v).isDone = false := by
  by_cases h : v = G.root
  · subst h; simp [start, Phase.isDone]
  · simp [start, h, Phase.isDone]

theorem sound_start (hG : G.Entered) : G.Sound G.start where
  fired_le v := by simp [Phase.fired_eq_zero (G.start_phase_isDone v)]
  idle_iff v hv := by
    rw [G.remaining_eq_indeg G.start_phase_isDone, ← Nat.pos_iff_ne_zero, ← hG v hv]
    by_cases h : v = G.root
    · subst h; simp [start]
    · simp [start, h]
  outside v hv := by
    have h : v ≠ G.root := fun h => hv (h ▸ G.root_mem)
    simp [start, h]
  left_eq v _ := by
    rw [G.remaining_eq_indeg G.start_phase_isDone, ite_self]
    rfl

namespace Sound

variable {G} {a : Progress V} (h : G.Sound a)
include h

theorem mem_verts {v : V} (hv : a.phase v ≠ .idle) : v ∈ G.verts := by
  by_contra hmem
  exact hv (h.outside v hmem)

/-- A vertex that has been triggered has had all the edges into it fired. -/
theorem fired_of_not_idle {v p : V} {i : ℕ} (hv : a.phase v ≠ .idle)
    (hi : i < G.out p) (hd : G.dep p i = v) : i < (a.phase p).fired := by
  have hz : G.remaining a v = 0 := by
    by_contra hne
    exact hv ((h.idle_iff v (h.mem_verts hv)).mpr hne)
  exact G.remaining_eq_zero_iff.mp hz p i hi hd

/-- The predecessors of a triggered vertex have completed. -/
theorem pred_isDone {v p : V} (hv : a.phase v ≠ .idle) (hp : G.Pred p v) :
    (a.phase p).isDone = true := by
  obtain ⟨i, hi, hd⟩ := hp
  have := h.fired_of_not_idle hv hi hd
  exact Phase.isDone_of_fired_pos (by omega)

/-- A vertex into which every edge has been fired has been triggered. -/
theorem not_idle_of_fired {v : V} (hv : v ∈ G.verts)
    (hfired : ∀ p i, i < G.out p → G.dep p i = v → i < (a.phase p).fired) :
    a.phase v ≠ .idle := by
  intro hidle
  exact (h.idle_iff v hv).mp hidle (G.remaining_eq_zero_iff.mpr hfired)

theorem not_idle_of_pred {v p : V} (hp : G.Pred p v) (hv : a.phase v ≠ .idle) :
    a.phase p ≠ .idle := by
  have := h.pred_isDone hv hp
  intro hidle
  simp [hidle, Phase.isDone] at this

theorem not_idle_of_reaches {v e : V} (hr : Relation.TransGen G.Pred v e)
    (he : a.phase e ≠ .idle) : a.phase v ≠ .idle := by
  induction hr using Relation.TransGen.head_induction_on with
  | single hp => exact h.not_idle_of_pred hp he
  | head hp _ ih => exact h.not_idle_of_pred hp ih

/-- Everything from which a triggered vertex is reached has completed. -/
theorem isDone_of_reaches {v e : V} (hr : Relation.TransGen G.Pred v e)
    (he : a.phase e ≠ .idle) : (a.phase v).isDone = true := by
  obtain ⟨w, hp, hrest⟩ := Relation.TransGen.head'_iff.mp hr
  refine h.pred_isDone ?_ hp
  rcases Relation.reflTransGen_iff_eq_or_transGen.mp hrest with rfl | ht
  · exact he
  · exact h.not_idle_of_reaches ht he

/-- When a vertex that everything reaches has been triggered, every other
vertex has completed and fired all its edges. -/
theorem all_done_of_sink {e : V}
    (hr : ∀ v, v ∈ G.verts → v ≠ e → Relation.TransGen G.Pred v e)
    (he : a.phase e ≠ .idle) {v : V} (hv : v ∈ G.verts) (hne : v ≠ e) :
    a.phase v = .cascading (G.out v) := by
  have hall : ∀ w, w ∈ G.verts → a.phase w ≠ .idle := by
    intro w hw
    by_cases hwe : w = e
    · rw [hwe]; exact he
    · exact h.not_idle_of_reaches (hr w hw hwe) he
  have hdone : (a.phase v).isDone = true := by
    obtain ⟨w, hp, _⟩ := Relation.TransGen.head'_iff.mp (hr v hv hne)
    obtain ⟨i, hi, hd⟩ := hp
    exact h.pred_isDone (hall w (hd ▸ G.dep_mem v i hi)) ⟨i, hi, hd⟩
  have hle : G.out v ≤ (a.phase v).fired := by
    by_contra hlt
    have hi : (a.phase v).fired < G.out v := by omega
    have := h.fired_of_not_idle (hall _ (G.dep_mem v _ hi)) hi rfl
    omega
  rw [Phase.isDone_iff.mp hdone]
  exact congrArg Phase.cascading (le_antisymm (h.fired_le v) hle)

/-- When nothing but vertices in flight can move, an idle vertex waits for one. -/
theorem exists_inflight (hwf : WellFounded G.Pred)
    (hsettled : ∀ v, a.phase v = .idle ∨ a.phase v = .inflight ∨
      ∃ j, a.phase v = .cascading j ∧ G.out v ≤ j) {v : V} (hv : v ∈ G.verts)
    (hidle : a.phase v = .idle) :
    ∃ u, Relation.TransGen G.Pred u v ∧ a.phase u = .inflight := by
  induction v using hwf.induction with
  | _ v ih =>
      obtain ⟨p, i, hi, hd, hle⟩ : ∃ p i, i < G.out p ∧ G.dep p i = v ∧
          (a.phase p).fired ≤ i := by
        by_contra hno
        refine h.not_idle_of_fired hv (fun p i hi hd => ?_) hidle
        by_contra hle
        exact hno ⟨p, i, hi, hd, by omega⟩
      have hp : G.Pred p v := ⟨i, hi, hd⟩
      rcases hsettled p with hph | hph | ⟨j, hph, hj⟩
      · obtain ⟨u, hu, hin⟩ := ih p hp (G.mem_verts_of_lt hi) hph
        exact ⟨u, hu.tail hp, hin⟩
      · exact ⟨p, .single hp, hph⟩
      · rw [hph, Phase.fired_cascading] at hle
        omega

/-- An unfired edge leads to an idle vertex whose counter is positive. -/
theorem target_idle {v : V} {j : ℕ} (hv : a.phase v = .cascading j) (hj : j < G.out v) :
    a.phase (G.dep v j) = .idle ∧ a.left (G.dep v j) = G.remaining a (G.dep v j) ∧
      0 < a.left (G.dep v j) := by
  have hmem := G.dep_mem v j hj
  have hne : G.remaining a (G.dep v j) ≠ 0 := by
    intro hz
    have := G.remaining_eq_zero_iff.mp hz v j hj rfl
    simp [hv] at this
  have hidle := (h.idle_iff _ hmem).mpr hne
  have hleft : a.left (G.dep v j) = G.remaining a (G.dep v j) := by
    simpa [hidle, Phase.isDone] using h.left_eq _ hmem
  exact ⟨hidle, hleft, by omega⟩

/-- A vertex that has been triggered changes phase and fires nothing: what is left to show
is that the counters are right. -/
theorem rephase {b : Progress V} {v : V} {q : Phase} (hv : a.phase v ≠ .idle) (hq : q ≠ .idle)
    (hphase : ∀ w, b.phase w = if w = v then q else a.phase w)
    (hfires : q.fired = (a.phase v).fired)
    (hleft : ∀ w, w ∈ G.verts →
      b.left w = if (b.phase w).isDone then G.indeg w else G.remaining a w) : G.Sound b := by
  have hfired : ∀ w, (b.phase w).fired = (a.phase w).fired := by
    intro w
    rw [hphase]
    split
    · next hw => rw [hw, hfires]
    · rfl
  have hrem := G.remaining_congr hfired
  refine ⟨fun w => ?_, fun w hw => ?_, fun w hw => ?_, fun w hw => ?_⟩
  · rw [hfired]
    exact h.fired_le w
  · rw [hrem, ← h.idle_iff w hw, hphase]
    split
    · next hwv => rw [hwv]; exact iff_of_false hq hv
    · rfl
  · have hwv : w ≠ v := fun hwv => hw (hwv ▸ h.mem_verts hv)
    rw [hphase, if_neg hwv]
    exact h.outside w hw
  · rw [hrem]
    exact hleft w hw

/-- Step lemma: a triggered vertex that has not completed changes phase. -/
theorem setPhase {v : V} {q : Phase} (hv : a.phase v ≠ .idle)
    (hnd : (a.phase v).isDone = false) (hq : q ≠ .idle) (hqd : q.isDone = false) :
    G.Sound (a.setPhase v q) := by
  have hphase : ∀ w, (a.setPhase v q).phase w = if w = v then q else a.phase w := by
    intro w
    simp [Progress.setPhase, Function.update_apply]
  refine h.rephase hv hq hphase ?_ (fun w hw => ?_)
  · rw [Phase.fired_eq_zero hqd, Phase.fired_eq_zero hnd]
  · have hl := h.left_eq w hw
    rw [hphase]
    split
    · next hwv => subst hwv; simpa [Progress.setPhase, hqd, hnd] using hl
    · exact hl

/-- Step lemma: a completing vertex restores its counter and starts to fire. -/
theorem finish {v : V} (hv : a.phase v = .completing) : G.Sound (G.finish a v) := by
  have hphase : ∀ w, (G.finish a v).phase w = if w = v then .cascading 0 else a.phase w := by
    intro w
    simp [DepGraph.finish, Function.update_apply]
  refine h.rephase (by simp [hv]) (by simp) hphase ?_ (fun w hw => ?_)
  · rw [hv]
    rfl
  · rw [hphase]
    split
    · next hwv => subst hwv; simp [DepGraph.finish, Phase.isDone]
    · next hwv => simpa [DepGraph.finish, hwv] using h.left_eq w hw

/-- Firing an edge removes it from the edges that remain. -/
theorem unfired_fire {v : V} {j : ℕ} (hv : a.phase v = .cascading j) (hj : j < G.out v)
    (d : V) : G.unfired (G.fire a v j) d = (G.unfired a d).erase ⟨v, j⟩ := by
  obtain ⟨hidle, _, _⟩ := h.target_idle hv hj
  have hfired : ∀ w, ((G.fire a v j).phase w).fired =
      if w = v then j + 1 else (a.phase w).fired := by
    intro w
    have hdv : G.dep v j ≠ v := by
      intro hd
      rw [hd, hv] at hidle
      cases hidle
    by_cases hwd : w = G.dep v j
    · subst hwd
      simp only [DepGraph.fire]
      split <;> simp [hdv, hidle, Phase.fired]
    · simp only [DepGraph.fire]
      split <;> by_cases hwv : w = v <;> simp [hwd, hwv, hdv.symm, Phase.fired]
  ext ⟨p, i⟩
  simp only [mem_unfired, Finset.mem_erase, hfired, ne_eq, Sigma.mk.injEq, heq_eq_eq]
  by_cases hp : p = v
  · subst hp
    simp only [hv, Phase.fired_cascading, if_true, true_and]
    constructor
    · rintro ⟨hd, hle⟩
      exact ⟨by omega, hd, by omega⟩
    · rintro ⟨hne, hd, hle⟩
      exact ⟨hd, by omega⟩
  · simp [hp]

/-- Step lemma: a vertex fires one edge. -/
theorem fire {v : V} {j : ℕ} (hv : a.phase v = .cascading j) (hj : j < G.out v) :
    G.Sound (G.fire a v j) := by
  obtain ⟨hidle, hleft, hpos⟩ := h.target_idle hv hj
  have hdv : G.dep v j ≠ v := by
    intro hd
    rw [hd, hv] at hidle
    cases hidle
  have hremd : G.remaining (G.fire a v j) (G.dep v j) = a.left (G.dep v j) - 1 := by
    rw [remaining, h.unfired_fire hv hj, Finset.card_erase_of_mem, hleft, remaining]
    exact G.mem_unfired.mpr ⟨⟨hj, rfl⟩, by simp [hv]⟩
  have hrem : ∀ w, w ≠ G.dep v j → G.remaining (G.fire a v j) w = G.remaining a w := by
    intro w hw
    rw [remaining, h.unfired_fire hv hj, Finset.erase_eq_of_notMem, remaining]
    intro hmem
    exact hw (G.mem_unfired.mp hmem).1.2.symm
  have hother : ∀ w, w ≠ G.dep v j → w ≠ v → (G.fire a v j).phase w = a.phase w := by
    intro w hwd hwv
    simp only [DepGraph.fire]
    split <;> simp [hwd, hwv]
  have hself : (G.fire a v j).phase v = .cascading (j + 1) := by
    simp only [DepGraph.fire]
    split <;> simp [hdv.symm]
  have htarget : (G.fire a v j).phase (G.dep v j) =
      if a.left (G.dep v j) - 1 = 0 then .triggered else .idle := by
    simp only [DepGraph.fire]
    split <;> simp [hdv, hidle]
  refine ⟨fun w => ?_, fun w hw => ?_, fun w hw => ?_, fun w hw => ?_⟩
  · by_cases hwd : w = G.dep v j
    · rw [hwd, htarget]
      split <;> simp [Phase.fired]
    · by_cases hwv : w = v
      · rw [hwv, hself, Phase.fired_cascading]; omega
      · rw [hother w hwd hwv]; exact h.fired_le w
  · by_cases hwd : w = G.dep v j
    · subst hwd
      rw [htarget, hremd]
      split <;> simp_all
    · rw [hrem w hwd, ← h.idle_iff w hw]
      by_cases hwv : w = v
      · rw [hwv, hself, hv]; simp
      · rw [hother w hwd hwv]
  · have hwd : w ≠ G.dep v j := fun hwd => hw (hwd ▸ G.dep_mem v j hj)
    have hwv : w ≠ v := fun hwv => hw (hwv ▸ h.mem_verts (by simp [hv]))
    rw [hother w hwd hwv]
    exact h.outside w hw
  · by_cases hwd : w = G.dep v j
    · subst hwd
      rw [htarget, hremd]
      split <;> simp [DepGraph.fire, Phase.isDone]
    · have hl : (G.fire a v j).left w = a.left w := by
        simp [DepGraph.fire, hwd]
      rw [hl, h.left_eq w hw, hrem w hwd]
      by_cases hwv : w = v
      · rw [hwv, hself, hv]; rfl
      · rw [hother w hwd hwv]

end Sound

/-- What a vertex still has to do. -/
def weight (v : V) : Phase → ℕ
  | .idle => G.out v + 4
  | .triggered => G.out v + 3
  | .inflight => G.out v + 2
  | .completing => G.out v + 1
  | .cascading j => G.out v - j

/-- What the whole execution still has to do. -/
def work (a : Progress V) : ℕ := ∑ v ∈ G.verts, G.weight v (a.phase v)

theorem work_lt {a b : Progress V} {v : V} (hv : v ∈ G.verts)
    (hlt : G.weight v (b.phase v) < G.weight v (a.phase v))
    (hle : ∀ w, w ≠ v → G.weight w (b.phase w) ≤ G.weight w (a.phase w)) :
    G.work b < G.work a := by
  refine Finset.sum_lt_sum (fun w _ => ?_) ⟨v, hv, hlt⟩
  by_cases hw : w = v
  · rw [hw]; exact hlt.le
  · exact hle w hw

theorem work_setPhase_lt {a : Progress V} {v : V} {q : Phase} (hv : v ∈ G.verts)
    (hlt : G.weight v q < G.weight v (a.phase v)) :
    G.work (a.setPhase v q) < G.work a := by
  refine G.work_lt hv (by simpa [Progress.setPhase] using hlt) (fun w hw => ?_)
  simp [Progress.setPhase, hw]

theorem work_finish_lt {a : Progress V} {v : V} (hv : v ∈ G.verts)
    (hc : a.phase v = .completing) : G.work (G.finish a v) < G.work a := by
  refine G.work_lt hv (by simp [finish, hc, weight]) (fun w hw => ?_)
  simp [finish, hw]

theorem work_fire_lt {a : Progress V} (h : G.Sound a) {v : V} {j : ℕ}
    (hv : a.phase v = .cascading j) (hj : j < G.out v) :
    G.work (G.fire a v j) < G.work a := by
  obtain ⟨hidle, _, _⟩ := h.target_idle hv hj
  have hdv : v ≠ G.dep v j := by
    intro hd
    rw [← hd, hv] at hidle
    cases hidle
  refine G.work_lt (h.mem_verts (v := v) (by simp [hv])) ?_ (fun w hw => ?_)
  · simp only [fire]
    split <;> simp [hdv, hv, weight] <;> omega
  · by_cases hwd : w = G.dep v j
    · subst hwd
      simp only [fire]
      split <;> simp [hw, hidle, weight]
    · simp only [fire]
      split <;> simp [hwd, hw]

end DepGraph

end Library
end Fflib
