import Mathlib.Data.List.Nodup
import Mathlib.Data.Set.Basic

/-!
# Tasks on shared locations

A task reads some locations of a store and writes others.  Tasks that run one after
another in different orders may leave different stores, but only when two of them
conflict: one writes what the other reads or writes.

* `Tasks` are tasks with their footprints: a task leaves alone what it does not write,
  and what it writes depends only on what it reads.
* `Tasks.exec_comm`: tasks that do not conflict commute.
* `Tasks.execAll_eq_of_perm`: two executions of the same tasks that order conflicting
  tasks alike end in the same store.
* `Tasks.execAll_eq_of_closed`: they agree on a location if they share all tasks that come
  before the ones that write it.
-/

namespace Fflib
namespace Library

universe u v w

/-- Tasks that act on the stores `(l : L) → V l`. -/
structure Tasks (T : Type u) {L : Type v} (V : L → Type w) where
  exec : T → ((l : L) → V l) → (l : L) → V l
  reads : T → Set L
  writes : T → Set L
  frame : ∀ t σ l, l ∉ writes t → exec t σ l = σ l
  depends : ∀ t σ σ', (∀ l, l ∈ reads t → σ l = σ' l) →
    ∀ l, l ∈ writes t → exec t σ l = exec t σ' l

/-- No task of the list has to come before an earlier one. -/
def Respects {T : Type u} (before : T → T → Prop) (ts : List T) : Prop :=
  ts.Pairwise fun t t' => ¬ before t' t

theorem respects_snoc {T : Type u} {before : T → T → Prop} {ts : List T} {t : T} :
    Respects before (ts ++ [t]) ↔ Respects before ts ∧ ∀ t', t' ∈ ts → ¬ before t t' := by
  rw [Respects, List.pairwise_append]
  simp [Respects]

namespace Tasks

variable {T : Type u} {L : Type v} {V : L → Type w} (S : Tasks T V)

/-- One of the tasks writes what the other reads or writes. -/
def Conflict (t t' : T) : Prop :=
  ∃ l, (l ∈ S.writes t ∧ (l ∈ S.reads t' ∨ l ∈ S.writes t')) ∨
    (l ∈ S.writes t' ∧ (l ∈ S.reads t ∨ l ∈ S.writes t))

/-- Run the tasks one after another. -/
def execAll (ts : List T) (σ : (l : L) → V l) : (l : L) → V l :=
  ts.foldl (fun σ t => S.exec t σ) σ

@[simp] theorem execAll_nil (σ : (l : L) → V l) : S.execAll [] σ = σ := rfl

@[simp] theorem execAll_cons (t : T) (ts : List T) (σ : (l : L) → V l) :
    S.execAll (t :: ts) σ = S.execAll ts (S.exec t σ) := rfl

theorem execAll_append (ts us : List T) (σ : (l : L) → V l) :
    S.execAll (ts ++ us) σ = S.execAll us (S.execAll ts σ) := List.foldl_append

theorem execAll_snoc (ts : List T) (t : T) (σ : (l : L) → V l) :
    S.execAll (ts ++ [t]) σ = S.exec t (S.execAll ts σ) := S.execAll_append ts [t] σ

variable {S} {t t' : T}

theorem Conflict.symm (h : S.Conflict t t') : S.Conflict t' t := by
  obtain ⟨l, hl⟩ := h
  exact ⟨l, hl.symm⟩

/-- A task does not notice that one with which it does not conflict has run. -/
theorem exec_of_not_conflict (h : ¬ S.Conflict t t') (σ : (l : L) → V l) {l : L}
    (hl : l ∈ S.writes t) :
    S.exec t (S.exec t' σ) l = S.exec t σ l ∧ S.exec t' (S.exec t σ) l = S.exec t σ l := by
  constructor
  · refine S.depends t _ _ (fun k hk => S.frame t' σ k (fun hw => h ?_)) l hl
    exact ⟨k, Or.inr ⟨hw, Or.inl hk⟩⟩
  · exact S.frame t' _ l (fun hw => h ⟨l, Or.inl ⟨hl, Or.inr hw⟩⟩)

/-- Tasks that do not conflict commute. -/
theorem exec_comm (h : ¬ S.Conflict t t') (σ : (l : L) → V l) :
    S.exec t (S.exec t' σ) = S.exec t' (S.exec t σ) := by
  have h' : ¬ S.Conflict t' t := fun hc => h hc.symm
  funext l
  by_cases hl : l ∈ S.writes t
  · obtain ⟨h₁, h₂⟩ := exec_of_not_conflict h σ hl
    rw [h₁, h₂]
  · by_cases hl' : l ∈ S.writes t'
    · obtain ⟨h₁, h₂⟩ := exec_of_not_conflict h' σ hl'
      rw [h₁, h₂]
    · rw [S.frame t _ l hl, S.frame t' _ l hl', S.frame t' _ l hl', S.frame t _ l hl]

/-- A task may run before others with which it does not conflict. -/
theorem execAll_move {ts us : List T} (h : ∀ t', t' ∈ ts → ¬ S.Conflict t' t)
    (σ : (l : L) → V l) : S.execAll (ts ++ t :: us) σ = S.execAll (t :: (ts ++ us)) σ := by
  induction ts generalizing σ with
  | nil => rfl
  | cons t' ts ih =>
      rw [List.cons_append, execAll_cons, ih (fun u hu => h u (List.mem_cons_of_mem _ hu)),
        execAll_cons, execAll_cons, List.cons_append, execAll_cons,
        exec_comm (h t' List.mem_cons_self)]

/-- **Determinacy**: two executions of the same tasks that order conflicting tasks alike
end in the same store. -/
theorem execAll_eq_of_perm {before : T → T → Prop} {ts us : List T} (hperm : ts.Perm us)
    (hnd : ts.Nodup) (ht : Respects before ts) (hu : Respects before us)
    (hconf : ∀ t, t ∈ ts → ∀ t', t' ∈ ts → t ≠ t' → S.Conflict t t' →
      before t t' ∨ before t' t) (σ : (l : L) → V l) :
    S.execAll ts σ = S.execAll us σ := by
  induction ts generalizing us σ with
  | nil =>
      obtain rfl := hperm.nil_eq
      rfl
  | cons t ts ih =>
      obtain ⟨hfresh, hnd⟩ := List.nodup_cons.mp hnd
      obtain ⟨hfirst, ht⟩ := List.pairwise_cons.mp ht
      obtain ⟨pre, post, rfl⟩ := List.append_of_mem (hperm.subset List.mem_cons_self)
      have hrest : ts.Perm (pre ++ post) :=
        (List.perm_cons t).mp (hperm.trans List.perm_middle)
      have hpost : Respects before (pre ++ post) :=
        hu.sublist ((List.Sublist.refl pre).append (List.sublist_cons_self t post))
      -- what runs before `t` in the second execution runs after it in the first
      have hfree : ∀ t', t' ∈ pre → ¬ S.Conflict t' t := by
        intro t' ht' hc
        have hmem : t' ∈ ts := hrest.symm.subset (List.mem_append_left post ht')
        have hne : t' ≠ t := fun heq => hfresh (heq ▸ hmem)
        rcases hconf t' (List.mem_cons_of_mem t hmem) t List.mem_cons_self hne hc with hb | hb
        · exact hfirst t' hmem hb
        · exact (List.pairwise_append.mp hu).2.2 t' ht' t List.mem_cons_self hb
      rw [execAll_move hfree]
      exact ih hrest hnd ht hpost (fun u hm u' hm' => hconf u (List.mem_cons_of_mem t hm) u'
        (List.mem_cons_of_mem t hm')) (S.exec t σ)

/-- Tasks that never come before one of `D` do not matter for what only `D` writes. -/
theorem execAll_filter {before : T → T → Prop} {D : T → Prop} [DecidablePred D]
    (hD : ∀ t t', before t t' → D t' → D t) {ts : List T} (hnd : ts.Nodup)
    (hts : Respects before ts)
    (hconf : ∀ t, t ∈ ts → ∀ t', t' ∈ ts → t ≠ t' → S.Conflict t t' →
      before t t' ∨ before t' t)
    {l : L} (hl : ∀ t, t ∈ ts → l ∈ S.writes t → D t) (σ : (l : L) → V l) :
    S.execAll ts σ l = S.execAll (ts.filter D) σ l := by
  induction ts generalizing σ with
  | nil => rfl
  | cons t ts ih =>
      obtain ⟨hfresh, hnd⟩ := List.nodup_cons.mp hnd
      obtain ⟨hfirst, hts⟩ := List.pairwise_cons.mp hts
      have hrest := ih hnd hts (fun u hu u' hu' => hconf u (List.mem_cons_of_mem t hu) u'
        (List.mem_cons_of_mem t hu')) (fun u hu => hl u (List.mem_cons_of_mem t hu))
        (S.exec t σ)
      rw [execAll_cons, hrest]
      by_cases ht : D t
      · rw [List.filter_cons_of_pos (by simpa using ht), execAll_cons]
      · rw [List.filter_cons_of_neg (by simpa using ht)]
        -- `t` may as well run after all tasks of `D`, and does not write `l`
        have hfree : ∀ u, u ∈ ts.filter D → ¬ S.Conflict u t := by
          intro u hu hc
          obtain ⟨hmem, hDu⟩ := List.mem_filter.mp hu
          have hne : u ≠ t := fun heq => hfresh (heq ▸ hmem)
          rcases hconf u (List.mem_cons_of_mem t hmem) t List.mem_cons_self hne hc with hb | hb
          · exact hfirst u hmem hb
          · exact ht (hD t u hb (by simpa using hDu))
        have hmove : S.execAll (ts.filter D ++ [t]) σ = S.execAll (t :: (ts.filter D ++ [])) σ :=
          execAll_move hfree σ
        rw [List.append_nil, execAll_cons, execAll_snoc] at hmove
        rw [← hmove]
        exact S.frame t _ l (fun hw => ht (hl t List.mem_cons_self hw))

/-- **Determinacy**, of one location: two executions agree on it if they have in common a
set of tasks that is closed under `before` and contains all that write it. -/
theorem execAll_eq_of_closed {before : T → T → Prop} {D : T → Prop}
    (hD : ∀ t t', before t t' → D t' → D t) {ts us : List T} (hts : Respects before ts)
    (hus : Respects before us) (hnt : ts.Nodup) (hnu : us.Nodup)
    (hsame : ∀ t, D t → (t ∈ ts ↔ t ∈ us))
    (hconf : ∀ t t', (t ∈ ts ∨ t ∈ us) → (t' ∈ ts ∨ t' ∈ us) → t ≠ t' → S.Conflict t t' →
      before t t' ∨ before t' t)
    {l : L} (hl : ∀ t, (t ∈ ts ∨ t ∈ us) → l ∈ S.writes t → D t) (σ : (l : L) → V l) :
    S.execAll ts σ l = S.execAll us σ l := by
  classical
  have hperm : (ts.filter D).Perm (us.filter D) := by
    refine (List.perm_ext_iff_of_nodup (hnt.filter _) (hnu.filter _)).mpr (fun t => ?_)
    simp only [List.mem_filter, decide_eq_true_eq]
    exact ⟨fun ⟨h1, h2⟩ => ⟨(hsame t h2).mp h1, h2⟩, fun ⟨h1, h2⟩ => ⟨(hsame t h2).mpr h1, h2⟩⟩
  rw [execAll_filter hD hnt hts (fun t ht t' ht' => hconf t t' (Or.inl ht) (Or.inl ht'))
      (fun t ht => hl t (Or.inl ht)),
    execAll_filter hD hnu hus (fun t ht t' ht' => hconf t t' (Or.inr ht) (Or.inr ht'))
      (fun t ht => hl t (Or.inr ht))]
  have hsub : ∀ {t}, t ∈ ts.filter D → t ∈ ts ∨ t ∈ us :=
    fun ht => Or.inl (List.mem_filter.mp ht).1
  exact congrFun (execAll_eq_of_perm hperm (hnt.filter _) (hts.sublist List.filter_sublist)
    (hus.sublist List.filter_sublist)
    (fun t ht t' ht' => hconf t t' (hsub ht) (hsub ht')) σ) l

end Tasks

end Library
end Fflib
