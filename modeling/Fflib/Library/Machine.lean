import Mathlib.Data.List.Basic
import Mathlib.Data.List.DropRight

/-!
# Runs of a partial step function

A machine is a step function `step : σ → ι → Option σ`: the answer `none` means
that the action is not enabled.  A run is a list of actions.

* `run` executes a list of actions; `Reachable` is the existence of a run.
* `exists_run_iff_meets`: which runs succeed.
* `run_induction` is the invariant rule, and `run_induction_of_meets` the same
  rule for an invariant that a step preserves only under a condition on the
  state before the step and the action (`RunMeets`).
* `RunAlways` says that every state of a run has a property; `RunAlways.meets` and
  `RunAlways.meets_of_step` find in it what the run must have met.
* `exists_run_of_measure` builds a run to a goal from a decreasing measure, and
  `countP_le_of_measure` bounds the number of steps that decrease one.
* `run_simulates` and `exists_run_simulated` carry the runs of one machine over to another.
* `Precedes` orders the entries of a log to which a run appends; `Since` asks for an entry
  after the last occurrence of another.
-/

namespace Fflib
namespace Library

universe u v

section Machine

variable {σ : Type u} {ι : Type v}

/-- Execute a list of actions, failing at the first one that is not enabled. -/
def run (step : σ → ι → Option σ) : σ → List ι → Option σ
  | s, [] => some s
  | s, a :: as => (step s a).bind (fun s' => run step s' as)

/-- Some run leads from `s₀` to `s`. -/
def Reachable (step : σ → ι → Option σ) (s₀ s : σ) : Prop :=
  ∃ as : List ι, run step s₀ as = some s

/-- Every step of the run satisfies `C` in the state in which it is taken. -/
def RunMeets (step : σ → ι → Option σ) (C : σ → ι → Prop) : σ → List ι → Prop
  | _, [] => True
  | s, a :: as => C s a ∧ ∀ s', step s a = some s' → RunMeets step C s' as

variable {step : σ → ι → Option σ}

instance decidableRunMeets {C : σ → ι → Prop} [∀ s a, Decidable (C s a)] :
    ∀ s as, Decidable (RunMeets step C s as)
  | _, [] => isTrue trivial
  | s, a :: as =>
      match h : step s a with
      | none => decidable_of_iff (C s a) (by simp [RunMeets, h])
      | some s' =>
          have := @decidableRunMeets C _ s' as
          decidable_of_iff (C s a ∧ RunMeets step C s' as) (by simp [RunMeets, h])

@[simp] theorem run_nil (s : σ) : run step s [] = some s := rfl

theorem run_cons_eq_some {s t : σ} {a : ι} {as : List ι} :
    run step s (a :: as) = some t ↔
      ∃ s', step s a = some s' ∧ run step s' as = some t := by
  simp [run, Option.bind_eq_some_iff]

theorem run_append_eq_some {s t : σ} {as bs : List ι} :
    run step s (as ++ bs) = some t ↔
      ∃ m, run step s as = some m ∧ run step m bs = some t := by
  induction as generalizing s with
  | nil => simp
  | cons a as ih =>
      constructor
      · intro h
        obtain ⟨s', hs, hr⟩ := run_cons_eq_some.mp h
        obtain ⟨m, hm, ht⟩ := ih.mp hr
        exact ⟨m, run_cons_eq_some.mpr ⟨s', hs, hm⟩, ht⟩
      · rintro ⟨m, hm, ht⟩
        obtain ⟨s', hs, hr⟩ := run_cons_eq_some.mp hm
        exact run_cons_eq_some.mpr ⟨s', hs, ih.mpr ⟨m, hr, ht⟩⟩

theorem run_snoc_eq_some {s t : σ} {as : List ι} {a : ι} :
    run step s (as ++ [a]) = some t ↔
      ∃ m, run step s as = some m ∧ step m a = some t := by
  rw [run_append_eq_some]
  simp [run]

theorem Reachable.refl (s : σ) : Reachable step s s := ⟨[], rfl⟩

theorem Reachable.tail {s₀ s s' : σ} {a : ι} (h : Reachable step s₀ s)
    (hs : step s a = some s') : Reachable step s₀ s' := by
  obtain ⟨as, has⟩ := h
  exact ⟨as ++ [a], run_snoc_eq_some.mpr ⟨s, has, hs⟩⟩

/-- **Invariant rule**: what every step preserves holds at the end of every run. -/
theorem run_induction {P : σ → Prop}
    (hstep : ∀ s a s', P s → step s a = some s' → P s') :
    ∀ (as : List ι) (s t : σ), P s → run step s as = some t → P t := by
  intro as
  induction as with
  | nil =>
      intro s t hs h
      obtain rfl : s = t := by simpa using h
      exact hs
  | cons a as ih =>
      intro s t hs h
      obtain ⟨s', ha, hr⟩ := run_cons_eq_some.mp h
      exact ih s' t (hstep s a s' hs ha) hr

theorem Reachable.induction {s₀ s : σ} (h : Reachable step s₀ s) (P : σ → Prop)
    (h₀ : P s₀) (hstep : ∀ s a s', P s → step s a = some s' → P s') : P s := by
  obtain ⟨as, has⟩ := h
  exact run_induction hstep as s₀ s h₀ has

/-- Invariant rule for runs whose steps all meet a condition. -/
theorem run_induction_of_meets {P : σ → Prop} {C : σ → ι → Prop}
    (hstep : ∀ s a s', P s → C s a → step s a = some s' → P s') :
    ∀ (as : List ι) (s t : σ), P s → RunMeets step C s as →
      run step s as = some t → P t := by
  intro as
  induction as with
  | nil =>
      intro s t hs _ h
      obtain rfl : s = t := by simpa using h
      exact hs
  | cons a as ih =>
      intro s t hs hC h
      obtain ⟨s', ha, hr⟩ := run_cons_eq_some.mp h
      exact ih s' t (hstep s a s' hs hC.1 ha) (hC.2 s' ha) hr

/-- A run succeeds iff its steps meet a condition, when the condition is what enables a
step. -/
theorem exists_run_iff_meets {I : σ → Prop} {C : σ → ι → Prop}
    (hI : ∀ s a s', I s → step s a = some s' → I s')
    (hC : ∀ s a, I s → ((step s a).isSome = true ↔ C s a)) :
    ∀ (as : List ι) (s : σ), I s →
      ((∃ t, run step s as = some t) ↔ RunMeets step C s as) := by
  intro as
  induction as with
  | nil => exact fun s _ => iff_of_true ⟨s, rfl⟩ trivial
  | cons a as ih =>
      intro s hs
      constructor
      · rintro ⟨t, ht⟩
        obtain ⟨s', ha, hr⟩ := run_cons_eq_some.mp ht
        refine ⟨(hC s a hs).mp (by rw [ha]; rfl), fun s'' ha' => ?_⟩
        obtain rfl := Option.some.inj (ha.symm.trans ha')
        exact (ih s' (hI s a s' hs ha)).mp ⟨t, hr⟩
      · rintro ⟨hCs, hrest⟩
        obtain ⟨s', ha⟩ := Option.isSome_iff_exists.mp ((hC s a hs).mpr hCs)
        obtain ⟨t, ht⟩ := (ih s' (hI s a s' hs ha)).mpr (hrest s' ha)
        exact ⟨t, run_cons_eq_some.mpr ⟨s', ha, ht⟩⟩

/-- Every state of the run satisfies `P`. -/
def RunAlways (step : σ → ι → Option σ) (P : σ → Prop) : σ → List ι → Prop
  | s, [] => P s
  | s, a :: as => P s ∧ ∀ s', step s a = some s' → RunAlways step P s' as

theorem RunAlways.head {P : σ → Prop} {s : σ} : ∀ {as : List ι}, RunAlways step P s as → P s
  | [], h => h
  | _ :: _, h => h.1

theorem RunAlways.last {P : σ → Prop} {as : List ι} {s t : σ} (h : RunAlways step P s as)
    (ht : run step s as = some t) : P t := by
  induction as generalizing s with
  | nil =>
      obtain rfl : s = t := by simpa using ht
      exact h
  | cons a as ih =>
      obtain ⟨s', ha, hr⟩ := run_cons_eq_some.mp ht
      exact ih (h.2 s' ha) hr

/-- An invariant of the steps that meet a condition holds in every state of a run that
meets it. -/
theorem runAlways_of_meets {P I : σ → Prop} {C : σ → ι → Prop} (hP : ∀ s, I s → P s)
    (hstep : ∀ s a s', I s → C s a → step s a = some s' → I s') :
    ∀ (as : List ι) (s : σ), I s → RunMeets step C s as → RunAlways step P s as := by
  intro as
  induction as with
  | nil => exact fun s hs _ => hP s hs
  | cons a as ih =>
      intro s hs hC
      exact ⟨hP s hs, fun s' ha => ih s' (hstep s a s' hs hC.1 ha) (hC.2 s' ha)⟩

/-- What persists until `P` fails holds at the end of a run in which `P` never fails. -/
theorem RunAlways.persists {P I D : σ → Prop}
    (hI : ∀ s a s', I s → step s a = some s' → I s')
    (hD : ∀ s a s', I s → D s → step s a = some s' → D s' ∨ ¬ P s') :
    ∀ (as : List ι) (s t : σ), I s → D s → RunAlways step P s as →
      run step s as = some t → D t := by
  intro as
  induction as with
  | nil =>
      intro s t _ hs _ h
      obtain rfl : s = t := by simpa using h
      exact hs
  | cons a as ih =>
      intro s t hIs hs hP h
      obtain ⟨s', ha, hr⟩ := run_cons_eq_some.mp h
      have hP' := hP.2 s' ha
      have hD' := (hD s a s' hIs hs ha).resolve_right (not_not.mpr hP'.head)
      exact ih s' t (hI s a s' hIs ha) hD' hP' hr

/-- A run meets a condition when a step against it leaves a mark that persists until `P`
fails, `P` never fails and the end is unmarked. -/
theorem RunAlways.meets {P I D : σ → Prop} {C : σ → ι → Prop}
    (hI : ∀ s a s', I s → step s a = some s' → I s')
    (hC : ∀ s a s', I s → ¬ C s a → step s a = some s' → D s' ∨ ¬ P s')
    (hD : ∀ s a s', I s → D s → step s a = some s' → D s' ∨ ¬ P s') :
    ∀ (as : List ι) (s t : σ), I s → RunAlways step P s as → run step s as = some t →
      ¬ D t → RunMeets step C s as := by
  intro as
  induction as with
  | nil => exact fun _ _ _ _ _ _ => trivial
  | cons a as ih =>
      intro s t hIs hP h ht
      obtain ⟨s', ha, hr⟩ := run_cons_eq_some.mp h
      have hP' := hP.2 s' ha
      have hI' := hI s a s' hIs ha
      have hCs : C s a := by
        by_contra hno
        have hD' := (hC s a s' hIs hno ha).resolve_right (not_not.mpr hP'.head)
        exact ht (RunAlways.persists hI hD as s' t hI' hD' hP' hr)
      refine ⟨hCs, fun s'' ha' => ?_⟩
      obtain rfl := Option.some.inj (ha.symm.trans ha')
      exact ih s' t hI' hP' hr ht

/-- A run meets a condition when `P` cannot hold on both sides of a step against it. -/
theorem RunAlways.meets_of_step {P I : σ → Prop} {C : σ → ι → Prop}
    (hI : ∀ s a s', I s → C s a → step s a = some s' → I s')
    (hC : ∀ s a, I s → P s → (∀ s', step s a = some s' → P s') → C s a) :
    ∀ (as : List ι) (s : σ), I s → RunAlways step P s as → RunMeets step C s as := by
  intro as
  induction as with
  | nil => exact fun _ _ _ => trivial
  | cons a as ih =>
      intro s hs hP
      have hCs := hC s a hs hP.1 (fun s' ha => (hP.2 s' ha).head)
      exact ⟨hCs, fun s' ha => ih s' (hI s a s' hs hCs ha) (hP.2 s' ha)⟩

/-- What follows from an invariant of all steps. -/
theorem runMeets_of_invariant {I : σ → Prop} {D : σ → ι → Prop}
    (hI : ∀ s a s', I s → step s a = some s' → I s') (hD : ∀ s a, I s → D s a) :
    ∀ (as : List ι) (s : σ), I s → RunMeets step D s as := by
  intro as
  induction as with
  | nil => exact fun _ _ => trivial
  | cons a as ih => exact fun s hs => ⟨hD s a hs, fun s' ha => ih s' (hI s a s' hs ha)⟩

/-- A condition that some run does not meet fails in a state that can be reached. -/
theorem exists_reachable_of_not_runMeets {C : σ → ι → Prop} {s₀ : σ} {as : List ι}
    (h : ¬ RunMeets step C s₀ as) : ∃ s a, Reachable step s₀ s ∧ ¬ C s a := by
  by_contra hno
  simp only [not_exists, not_and, not_not] at hno
  exact h (runMeets_of_invariant (I := Reachable step s₀) (fun _ _ _ hs ha => hs.tail ha)
    hno as s₀ (.refl s₀))

/-- The last step of a run meets the condition. -/
theorem RunMeets.last {C : σ → ι → Prop} {as : List ι} {s t : σ} {a : ι}
    (h : RunMeets step C s (as ++ [a])) (ht : run step s as = some t) : C t a := by
  induction as generalizing s with
  | nil =>
      obtain rfl : s = t := by simpa using ht
      exact h.1
  | cons b as ih =>
      obtain ⟨s', ha, hr⟩ := run_cons_eq_some.mp ht
      exact ih (h.2 s' ha) hr

section Agree

variable {step' : σ → ι → Option σ} {C : σ → ι → Prop} {s₀ t : σ}
  (hagree : ∀ s a, C s a → step' s a = step s a)
include hagree

/-- Where two machines agree on the steps that meet a condition, a run of one whose steps all
meet it is one of the other. -/
theorem reachable_of_meets {as : List ι} (h : RunMeets step' C s₀ as)
    (hr : run step' s₀ as = some t) : Reachable step s₀ t :=
  run_induction_of_meets (P := Reachable step s₀)
    (fun s a _ hs hC ha => hs.tail ((hagree s a hC).symm.trans ha)) as s₀ t (.refl s₀) h hr

/-- If all runs meet it, the machines reach the same states. -/
theorem Reachable.of_all_meet (hall : ∀ as, RunMeets step' C s₀ as)
    (h : Reachable step s₀ t) : Reachable step' s₀ t := by
  refine h.induction (Reachable step' s₀) (.refl s₀) fun s a s' hs ha => ?_
  obtain ⟨as, has⟩ := hs
  have hC : C s a := (hall (as ++ [a])).last has
  exact Reachable.tail ⟨as, has⟩ ((hagree s a hC).trans ha)

end Agree

/-- What follows from a condition and from the invariant that the condition keeps. -/
theorem RunMeets.of_invariant {I : σ → Prop} {C D : σ → ι → Prop}
    (hI : ∀ s a s', I s → C s a → step s a = some s' → I s')
    (hD : ∀ s a, I s → C s a → D s a) :
    ∀ (as : List ι) (s : σ), I s → RunMeets step C s as → RunMeets step D s as := by
  intro as
  induction as with
  | nil => exact fun _ _ _ => trivial
  | cons a as ih =>
      intro s hs hC
      exact ⟨hD s a hs hC.1, fun s' ha => ih s' (hI s a s' hs hC.1 ha) (hC.2 s' ha)⟩

/-- A measure that some enabled step decreases outside the goal leads to the goal. -/
theorem exists_run_of_measure {P : Nat → σ → Prop} {Q : σ → Prop}
    (hstep : ∀ n s, P n s → Q s ∨ ∃ a s' n', step s a = some s' ∧ n' < n ∧ P n' s') :
    ∀ n s, P n s → ∃ as t n', run step s as = some t ∧ P n' t ∧ Q t := by
  intro n
  induction n using Nat.strongRecOn with
  | ind n ih =>
      intro s hs
      rcases hstep n s hs with hQ | ⟨a, s', n', ha, hlt, hP⟩
      · exact ⟨[], s, n, rfl, hs, hQ⟩
      · obtain ⟨as, t, k, hr, hk, hQ⟩ := ih n' hlt s' hP
        exact ⟨a :: as, t, k, run_cons_eq_some.mpr ⟨s', ha, hr⟩, hk, hQ⟩

/-- In a run whose actions all satisfy `A`, the number of actions in `D` is at most
a measure that no action increases and every action in `D` decreases. -/
theorem countP_le_of_measure {P : Nat → σ → Prop} {A : ι → Prop} {D : ι → Bool}
    (hstep : ∀ n s a s', P n s → A a → step s a = some s' →
      ∃ n', n' + (if D a then 1 else 0) ≤ n ∧ P n' s') :
    ∀ (as : List ι) (n : Nat) (s t : σ), P n s → (∀ a ∈ as, A a) →
      run step s as = some t → as.countP D ≤ n := by
  intro as
  induction as with
  | nil => exact fun n _ _ _ _ _ => Nat.zero_le n
  | cons a as ih =>
      intro n s t hs hA h
      obtain ⟨s', ha, hr⟩ := run_cons_eq_some.mp h
      obtain ⟨n', hle, hP⟩ := hstep n s a s' hs (hA a (by simp)) ha
      have := ih n' s' t hP (fun b hb => hA b (List.mem_cons_of_mem _ hb)) hr
      rw [List.countP_cons]
      omega

end Machine

section Simulation

universe u' v'

variable {σ : Type u} {ι : Type v} {τ : Type u'} {κ : Type v'} {step : σ → ι → Option σ}
  {step' : τ → κ → Option τ} {R : σ → τ → Prop} {f : ι → Option κ} {C : σ → ι → Prop}

/-- A run is one of the other machine, without the actions that `f` has no name for. -/
theorem run_simulates
    (hstep : ∀ s t a s', R s t → C s a → step s a = some s' →
      ∃ t', run step' t (f a).toList = some t' ∧ R s' t') :
    ∀ (as : List ι) (s s' : σ) (t : τ), R s t → RunMeets step C s as →
      run step s as = some s' →
      ∃ t', run step' t (as.filterMap f) = some t' ∧ R s' t' := by
  intro as
  induction as with
  | nil =>
      intro s s' t hR _ hr
      obtain rfl : s = s' := by simpa using hr
      exact ⟨t, rfl, hR⟩
  | cons a as ih =>
      intro s s' t hR hC hr
      obtain ⟨s₁, ha, hr₁⟩ := run_cons_eq_some.mp hr
      obtain ⟨t₁, hb, hR₁⟩ := hstep s t a s₁ hR hC.1 ha
      obtain ⟨t', hrest, hR'⟩ := ih s₁ s' t₁ hR₁ (hC.2 s₁ ha) hr₁
      refine ⟨t', ?_, hR'⟩
      have happend : (a :: as).filterMap f = (f a).toList ++ as.filterMap f := by
        cases hfa : f a with
        | none => rw [List.filterMap_cons_none hfa]; rfl
        | some b => rw [List.filterMap_cons_some hfa]; rfl
      rw [happend]
      exact run_append_eq_some.mpr ⟨t₁, hb, hrest⟩

/-- Every run of the other machine is one that `f` names. -/
theorem exists_run_simulated {D : τ → κ → Prop}
    (hstep : ∀ s t b t', R s t → D t b → step' t b = some t' →
      ∃ a s', f a = some b ∧ C s a ∧ step s a = some s' ∧ R s' t') :
    ∀ (bs : List κ) (s : σ) (t t' : τ), R s t → RunMeets step' D t bs →
      run step' t bs = some t' →
      ∃ as s', as.filterMap f = bs ∧ RunMeets step C s as ∧ run step s as = some s' ∧
        R s' t' := by
  intro bs
  induction bs with
  | nil =>
      intro s t t' hR _ hr
      obtain rfl : t = t' := by simpa using hr
      exact ⟨[], s, rfl, trivial, rfl, hR⟩
  | cons b bs ih =>
      intro s t t' hR hD hr
      obtain ⟨t₁, hb, hr₁⟩ := run_cons_eq_some.mp hr
      obtain ⟨a, s₁, hfa, hCa, ha, hR₁⟩ := hstep s t b t₁ hR hD.1 hb
      obtain ⟨as, s', hnames, hC, hrun, hR'⟩ := ih s₁ t₁ t' hR₁ (hD.2 t₁ hb) hr₁
      refine ⟨a :: as, s', ?_, ⟨hCa, fun s₂ ha₂ => ?_⟩, run_cons_eq_some.mpr ⟨s₁, ha, hrun⟩,
        hR'⟩
      · rw [List.filterMap_cons_some hfa, hnames]
      · obtain rfl := Option.some.inj (ha.symm.trans ha₂)
        exact hC

end Simulation

section Log

variable {ε : Type u} {log : List ε} {a b c : ε}

/-- Every occurrence of `b` in the log comes after an occurrence of `a`. -/
def Precedes (log : List ε) (a b : ε) : Prop :=
  ∀ pre post, log = pre ++ b :: post → a ∈ pre

theorem precedes_nil : Precedes [] a b := by
  intro pre post h
  simp at h

theorem Precedes.snoc (h : Precedes log a b) (hc : c = b → a ∈ log) :
    Precedes (log ++ [c]) a b := by
  intro pre post heq
  rcases List.eq_nil_or_concat post with rfl | ⟨post', d, rfl⟩
  · obtain ⟨rfl, hcb⟩ := List.append_inj' heq rfl
    exact hc (by simpa using hcb)
  · rw [List.concat_eq_append, ← List.cons_append, ← List.append_assoc] at heq
    obtain ⟨hlog, _⟩ := List.append_inj' heq rfl
    exact h pre post' hlog

theorem Precedes.mem (h : Precedes log a b) (hb : b ∈ log) : a ∈ log := by
  obtain ⟨pre, post, rfl⟩ := List.append_of_mem hb
  exact List.mem_append_left _ (h pre post rfl)

theorem Precedes.trans (hab : Precedes log a b) (hbc : Precedes log b c) :
    Precedes log a c := by
  intro pre post heq
  obtain ⟨pre', post', rfl⟩ := List.append_of_mem (hbc pre post heq)
  refine List.mem_append_left _ (hab pre' (post' ++ c :: post) ?_)
  rw [heq, List.append_assoc, List.cons_append]

/-- `a` occurs in the log after the last occurrence of `b`, or anywhere if `b` does not
occur. -/
def Since [DecidableEq ε] (log : List ε) (a b : ε) : Prop :=
  a ∈ log.rtakeWhile (fun c => decide (c ≠ b))

instance [DecidableEq ε] (log : List ε) (a b : ε) : Decidable (Since log a b) :=
  inferInstanceAs (Decidable (_ ∈ _))

theorem since_snoc [DecidableEq ε] :
    Since (log ++ [c]) a b ↔ c ≠ b ∧ (c = a ∨ Since log a b) := by
  unfold Since
  by_cases hcb : c = b
  · rw [List.rtakeWhile_concat_neg _ _ _ (by simp [hcb])]
    simp [hcb]
  · rw [List.rtakeWhile_concat_pos _ _ _ (by simp [hcb]), List.mem_append,
      List.mem_singleton]
    constructor
    · rintro (h | rfl)
      · exact ⟨hcb, Or.inr h⟩
      · exact ⟨hcb, Or.inl rfl⟩
    · rintro ⟨_, rfl | h⟩
      · exact Or.inr rfl
      · exact Or.inl h

theorem Since.mem [DecidableEq ε] (h : Since log a b) : a ∈ log :=
  (List.rtakeWhile_suffix _ _).subset h

/-- As long as `b` has not occurred, every entry counts. -/
theorem since_iff_mem [DecidableEq ε] (hb : b ∉ log) : Since log a b ↔ a ∈ log := by
  have hall : log.rtakeWhile (fun c => decide (c ≠ b)) = log := by
    refine List.rtakeWhile_eq_self_iff.mpr (fun c hc => ?_)
    refine decide_eq_true (fun hcb => hb ?_)
    exact hcb ▸ hc
  rw [Since, hall]

end Log

end Library
end Fflib
