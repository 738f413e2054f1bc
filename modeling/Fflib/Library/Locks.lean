import Fflib.Library.Machine

/-!
# Critical sections

Threads make calls, and every call goes through its steps one at a time, in any interleaving
with those of the others (`lockStep`).  A call works on one of several memories, and takes a
lock or none.

* `Exclusive` says that no two calls are at work on one memory.  This is so if those of
  different threads take the same lock (`exclusive_of_guarded`).
* `atomicAt_of_guarded`: then calls are atomic.  The memory is what the calls that have ended
  leave in it, one after another in the order in which they have ended, and with the answers
  that they have given.
* `exists_run_call` lets a thread make a whole call, `exists_run_between` one between the steps
  of another, and `exists_run_done` all threads those that are left; then the log has every call
  of the programs (`log_perm`).
-/

namespace Fflib
namespace Library

universe u v

/-- The calls `κ`: the memory on which one works, the lock that it takes, if any, its locals
at the beginning, and its steps, where `none` is an assertion that fails. -/
structure Sections (κ μ ℓ : Type u) (σ ρ : Type v) where
  memOf : κ → μ
  lockOf : κ → Option ℓ
  locals : κ → ρ
  steps : κ → List (σ → ρ → Option (σ × ρ))

/-- A call at work: the steps that are left, and its locals. -/
structure InSection (κ : Type u) (σ ρ : Type v) where
  call : κ
  rest : List (σ → ρ → Option (σ × ρ))
  locals : ρ

/-- A call that has ended, with its last locals. -/
structure Ended (τ : Type) (κ : Type u) (ρ : Type v) where
  thread : τ
  call : κ
  locals : ρ

/-- The threads, the calls that they have yet to make, and the calls that have ended. -/
structure LockState (τ : Type) (κ μ ℓ : Type u) (σ ρ : Type v) where
  shared : μ → σ
  owner : ℓ → Option τ
  todo : τ → List κ
  inside : τ → Option (InSection κ σ ρ)
  log : List (Ended τ κ ρ)

inductive LockAct (τ : Type) where
  | enter (t : τ)
  | step (t : τ)
  | leave (t : τ)

section Locks

variable {τ : Type} {κ μ ℓ : Type u} {σ ρ : Type v}

/-- The rest of a call at once. -/
def runSteps : List (σ → ρ → Option (σ × ρ)) → σ → ρ → Option (σ × ρ)
  | [], s, x => some (s, x)
  | m :: ms, s, x => (m s x).bind fun r => runSteps ms r.1 r.2

/-- A whole call at once. -/
def Sections.call (S : Sections κ μ ℓ σ ρ) (c : κ) (s : σ) : Option (σ × ρ) :=
  runSteps (S.steps c) s (S.locals c)

/-- Nobody is at work, and the threads have to make the calls `prog`. -/
def LockState.init (s₀ : μ → σ) (prog : τ → List κ) : LockState τ κ μ ℓ σ ρ where
  shared := s₀
  owner _ := none
  todo := prog
  inside _ := none
  log := []

variable [DecidableEq τ] [DecidableEq μ] [DecidableEq ℓ]

/-- The owner of a lock changes, if there is one to take. -/
def setOwner (owner : ℓ → Option τ) : Option ℓ → Option τ → ℓ → Option τ
  | none, _ => owner
  | some l, t => Function.update owner l t

/-- One step of one thread. -/
def lockStep (S : Sections κ μ ℓ σ ρ) (w : LockState τ κ μ ℓ σ ρ) :
    LockAct τ → Option (LockState τ κ μ ℓ σ ρ)
  | .enter t =>
      match w.inside t, w.todo t with
      | none, c :: cs =>
          if ((S.lockOf c).bind w.owner).isSome = true then none
          else some { w with
            owner := setOwner w.owner (S.lockOf c) (some t)
            todo := Function.update w.todo t cs
            inside := Function.update w.inside t (some ⟨c, S.steps c, S.locals c⟩) }
      | _, _ => none
  | .step t =>
      match w.inside t with
      | some ⟨c, m :: ms, x⟩ =>
          (m (w.shared (S.memOf c)) x).map fun r =>
            { w with
              shared := Function.update w.shared (S.memOf c) r.1
              inside := Function.update w.inside t (some ⟨c, ms, r.2⟩) }
      | _ => none
  | .leave t =>
      match w.inside t with
      | some ⟨c, [], x⟩ =>
          some { w with
            owner := setOwner w.owner (S.lockOf c) none
            inside := Function.update w.inside t none
            log := w.log ++ [⟨t, c, x⟩] }
      | _ => none

/-- What a step does. -/
inductive LockMove (S : Sections κ μ ℓ σ ρ) (w : LockState τ κ μ ℓ σ ρ) :
    LockAct τ → LockState τ κ μ ℓ σ ρ → Prop
  | enter {t : τ} {c : κ} {cs : List κ} (hin : w.inside t = none) (htodo : w.todo t = c :: cs)
      (hfree : ∀ l, S.lockOf c = some l → w.owner l = none) :
      LockMove S w (.enter t) { w with
        owner := setOwner w.owner (S.lockOf c) (some t)
        todo := Function.update w.todo t cs
        inside := Function.update w.inside t (some ⟨c, S.steps c, S.locals c⟩) }
  | step {t : τ} {c : κ} {m : σ → ρ → Option (σ × ρ)} {ms : List (σ → ρ → Option (σ × ρ))}
      {x : ρ} {r : σ × ρ} (hin : w.inside t = some ⟨c, m :: ms, x⟩)
      (hstep : m (w.shared (S.memOf c)) x = some r) :
      LockMove S w (.step t) { w with
        shared := Function.update w.shared (S.memOf c) r.1
        inside := Function.update w.inside t (some ⟨c, ms, r.2⟩) }
  | leave {t : τ} {c : κ} {x : ρ} (hin : w.inside t = some ⟨c, [], x⟩) :
      LockMove S w (.leave t) { w with
        owner := setOwner w.owner (S.lockOf c) none
        inside := Function.update w.inside t none
        log := w.log ++ [⟨t, c, x⟩] }

variable {S : Sections κ μ ℓ σ ρ} {w w' : LockState τ κ μ ℓ σ ρ} {a : LockAct τ}

theorem lockMove_of_step (h : lockStep S w a = some w') : LockMove S w a w' := by
  cases a with
  | enter t =>
      cases hin : w.inside t with
      | some f => simp [lockStep, hin] at h
      | none =>
          cases htodo : w.todo t with
          | nil => simp [lockStep, hin, htodo] at h
          | cons c cs =>
              simp only [lockStep, hin, htodo] at h
              split at h
              · cases h
              · next hc =>
                  obtain rfl := Option.some.inj h
                  refine .enter hin htodo (fun l hl => ?_)
                  simpa [hl] using hc
  | step t =>
      cases hin : w.inside t with
      | none => simp [lockStep, hin] at h
      | some f =>
          obtain ⟨c, rest, x⟩ := f
          cases rest with
          | nil => simp [lockStep, hin] at h
          | cons m ms =>
              simp only [lockStep, hin] at h
              obtain ⟨r, hr, rfl⟩ := Option.map_eq_some_iff.mp h
              exact .step hin hr
  | leave t =>
      cases hin : w.inside t with
      | none => simp [lockStep, hin] at h
      | some f =>
          obtain ⟨c, rest, x⟩ := f
          cases rest with
          | cons m ms => simp [lockStep, hin] at h
          | nil =>
              simp only [lockStep, hin] at h
              obtain rfl := Option.some.inj h
              exact .leave hin

/-! ### Exclusion -/

/-- At most one call is at work on the memory `m`. -/
def Exclusive (S : Sections κ μ ℓ σ ρ) (m : μ) (w : LockState τ κ μ ℓ σ ρ) : Prop :=
  ∀ t t' f f', w.inside t = some f → w.inside t' = some f' → S.memOf f.call = m →
    S.memOf f'.call = m → t = t'

/-- A thread makes the calls of its program, in this order. -/
def Ordered (prog : τ → List κ) (w : LockState τ κ μ ℓ σ ρ) : Prop :=
  ∀ t, (w.log.filter fun e => decide (e.thread = t)).map Ended.call ++
    ((w.inside t).toList.map InSection.call ++ w.todo t) = prog t

omit [DecidableEq μ] [DecidableEq ℓ] in
theorem ordered_init (s₀ : μ → σ) (prog : τ → List κ) :
    Ordered prog (LockState.init s₀ prog : LockState τ κ μ ℓ σ ρ) := fun _ => rfl

/-- Step lemma. -/
theorem Ordered.move {prog : τ → List κ} (h : Ordered prog w) (hm : LockMove S w a w') :
    Ordered prog w' := by
  intro u
  rw [← h u]
  cases hm with
  | @enter t c cs hin htodo hfree =>
      by_cases hu : u = t
      · subst hu
        simp [hin, htodo]
      · simp [hu]
  | @step t c m ms x r hin hstep =>
      by_cases hu : u = t
      · subst hu
        simp [hin]
      · simp [hu]
  | @leave t c x hin =>
      by_cases hu : u = t
      · subst hu
        simp [hin, List.filter_append]
      · simp [hu, List.filter_append, Ne.symm hu]

omit [DecidableEq μ] [DecidableEq ℓ] in
theorem Ordered.mem_prog {prog : τ → List κ} (h : Ordered prog w) {t : τ}
    {f : InSection κ σ ρ} (hin : w.inside t = some f) : f.call ∈ prog t := by
  rw [← h t, hin]
  simp

omit [DecidableEq μ] [DecidableEq ℓ] in
theorem Ordered.mem_log {prog : τ → List κ} (h : Ordered prog w) {e : Ended τ κ ρ}
    (he : e ∈ w.log) : e.call ∈ prog e.thread := by
  rw [← h e.thread]
  exact List.mem_append_left _ (List.mem_map_of_mem (List.mem_filter.mpr ⟨he, by simp⟩))

/-- Calls of different threads on the memory `m` take the same lock. -/
def Guarded (S : Sections κ μ ℓ σ ρ) (prog : τ → List κ) (m : μ) : Prop :=
  ∀ t t', t ≠ t' → ∀ c c', c ∈ prog t → c' ∈ prog t' → S.memOf c = m → S.memOf c' = m →
    ∃ l, S.lockOf c = some l ∧ S.lockOf c' = some l

/-- Who is at work has taken the lock. -/
def Owned (S : Sections κ μ ℓ σ ρ) (w : LockState τ κ μ ℓ σ ρ) : Prop :=
  ∀ t f l, w.inside t = some f → S.lockOf f.call = some l → w.owner l = some t

theorem update_eq_some {β : Type v} {g : τ → Option β} {t u : τ} {b : Option β} {y : β}
    (h : Function.update g t b u = some y) : u = t ∧ b = some y ∨ u ≠ t ∧ g u = some y := by
  by_cases hut : u = t
  · subst hut
    rw [Function.update_self] at h
    exact Or.inl ⟨rfl, h⟩
  · rw [Function.update_of_ne hut] at h
    exact Or.inr ⟨hut, h⟩

omit [DecidableEq τ] in
theorem setOwner_of_ne {owner : ℓ → Option τ} {o : Option ℓ} {l : ℓ} (b : Option τ)
    (h : o ≠ some l) : setOwner owner o b l = owner l := by
  cases o with
  | none => rfl
  | some l' => exact Function.update_of_ne (fun heq => h (congrArg some heq.symm)) _ _

/-- Step lemma. -/
theorem Owned.move (h : Owned S w) (hm : LockMove S w a w') : Owned S w' := by
  intro u f l hu hl
  cases hm with
  | @enter t c cs hin htodo hfree =>
      rcases update_eq_some hu with ⟨rfl, hf⟩ | ⟨_, hu⟩
      · obtain rfl := Option.some.inj hf
        have hl : S.lockOf c = some l := hl
        simp only [hl, setOwner, Function.update_self]
      · have hold := h u f l hu hl
        refine (setOwner_of_ne _ (fun heq => ?_)).trans hold
        rw [hfree l heq] at hold
        cases hold
  | @step t c m ms x r hin hstep =>
      rcases update_eq_some hu with ⟨rfl, hf⟩ | ⟨_, hu⟩
      · obtain rfl := Option.some.inj hf
        exact h u _ l hin hl
      · exact h u f l hu hl
  | @leave t c x hin =>
      rcases update_eq_some hu with ⟨_, hf⟩ | ⟨hut, hu⟩
      · cases hf
      · have hold := h u f l hu hl
        refine (setOwner_of_ne _ (fun heq => hut ?_)).trans hold
        exact Option.some.inj (hold.symm.trans (h t _ l hin heq))

variable {s₀ : μ → σ} {prog : τ → List κ} {m : μ}

theorem ordered_of_reachable (hw : Reachable (lockStep S) (LockState.init s₀ prog) w) :
    Ordered prog w :=
  hw.induction _ (ordered_init s₀ prog) (fun _ _ _ h hs => h.move (lockMove_of_step hs))

theorem owned_of_reachable (hw : Reachable (lockStep S) (LockState.init s₀ prog) w) :
    Owned S w :=
  hw.induction (Owned S) (fun _ _ _ h => by cases h)
    (fun _ _ _ h hs => h.move (lockMove_of_step hs))

/-- **Mutual exclusion.** -/
theorem exclusive_of_guarded (hg : Guarded S prog m)
    (hw : Reachable (lockStep S) (LockState.init s₀ prog) w) : Exclusive S m w := by
  intro t t' f f' hin hin' hf hf'
  by_contra hne
  have ho := ordered_of_reachable hw
  obtain ⟨l, hl, hl'⟩ := hg t t' hne _ _ (ho.mem_prog hin) (ho.mem_prog hin') hf hf'
  have howned := owned_of_reachable hw
  exact hne (Option.some.inj ((howned t f l hin hl).symm.trans (howned t' f' l hin' hl')))

/-! ### Atomicity -/

/-- The calls `es`, one after another, with their answers. -/
inductive Replay (S : Sections κ μ ℓ σ ρ) (s₀ : σ) : List (Ended τ κ ρ) → σ → Prop
  | nil : Replay S s₀ [] s₀
  | snoc {es : List (Ended τ κ ρ)} {s s' : σ} {e : Ended τ κ ρ} (h : Replay S s₀ es s)
      (hcall : S.call e.call s = some (s', e.locals)) : Replay S s₀ (es ++ [e]) s'

omit [DecidableEq τ] [DecidableEq μ] [DecidableEq ℓ] in
theorem Replay.of_nil {s₀ s : σ} (h : Replay S s₀ ([] : List (Ended τ κ ρ)) s) : s = s₀ := by
  generalize hl : ([] : List (Ended τ κ ρ)) = l at h
  cases h with
  | nil => rfl
  | snoc _ _ => simp at hl

omit [DecidableEq τ] [DecidableEq μ] [DecidableEq ℓ] in
theorem Replay.of_snoc {s₀ s' : σ} {es : List (Ended τ κ ρ)} {e : Ended τ κ ρ}
    (h : Replay S s₀ (es ++ [e]) s') :
    ∃ s, Replay S s₀ es s ∧ S.call e.call s = some (s', e.locals) := by
  generalize hl : es ++ [e] = l at h
  cases h with
  | nil => simp at hl
  | snoc h hcall =>
      obtain ⟨rfl, heq⟩ := List.append_inj' hl rfl
      obtain rfl := List.singleton_inj.mp heq
      exact ⟨_, h, hcall⟩

/-- The calls on the memory `l`. -/
def Sections.logAt (S : Sections κ μ ℓ σ ρ) (l : μ) (log : List (Ended τ κ ρ)) :
    List (Ended τ κ ρ) :=
  log.filter fun e => decide (S.memOf e.call = l)

/-- What is left of a call at work does what the whole call does to the memory `s` that the
ended ones have left; and this is the memory if no call is at work. -/
structure AtomicAt (S : Sections κ μ ℓ σ ρ) (s₀ : σ) (l : μ) (w : LockState τ κ μ ℓ σ ρ) (s : σ) :
    Prop where
  replay : Replay S s₀ (S.logAt l w.log) s
  rest : ∀ t f, w.inside t = some f → S.memOf f.call = l →
    runSteps f.rest (w.shared l) f.locals = S.call f.call s
  free : (∀ t f, w.inside t = some f → S.memOf f.call ≠ l) → w.shared l = s

omit [DecidableEq μ] [DecidableEq ℓ] in
/-- The other calls stay at work. -/
theorem free_of_update {t : τ} {g : Option (InSection κ σ ρ)}
    (hold : ∀ f, w.inside t = some f → S.memOf f.call ≠ l)
    (hno : ∀ u f, Function.update w.inside t g u = some f → S.memOf f.call ≠ l) :
    ∀ u f, w.inside u = some f → S.memOf f.call ≠ l := by
  intro u f hu
  by_cases hut : u = t
  · subst hut
    exact hold f hu
  · exact hno u f (by rw [Function.update_of_ne hut, hu])

/-- Step lemma. -/
theorem AtomicAt.move {s₀ s : σ} (h : AtomicAt S s₀ l w s) (hex : Exclusive S l w)
    (hex' : Exclusive S l w') (hm : LockMove S w a w') : ∃ s', AtomicAt S s₀ l w' s' := by
  cases hm with
  | @enter t c cs hin htodo hfree =>
      have hnone : ∀ f, w.inside t = some f → S.memOf f.call ≠ l := by
        intro f hf
        rw [hin] at hf
        cases hf
      refine ⟨s, h.replay, fun u f hu hl => ?_, fun hno => h.free (free_of_update hnone hno)⟩
      rcases update_eq_some hu with ⟨rfl, hf⟩ | ⟨_, hu⟩
      · obtain rfl := Option.some.inj hf
        -- nobody else is at work, so the memory is what the ended calls have left
        have hs : w.shared l = s := by
          refine h.free (fun u' f' hu' hl' => hnone f' ?_ hl')
          by_cases hne : u' = u
          · rw [← hne, hu']
          · exact absurd (hex' u' u f' _ ((Function.update_of_ne hne _ _).trans hu')
              (Function.update_self ..) hl' hl) hne
        simp only [hs]
        rfl
      · exact h.rest u f hu hl
  | @step t c m ms x r hin hstep =>
      by_cases hc : S.memOf c = l
      · subst hc
        refine ⟨s, h.replay, fun u f hu hl => ?_, fun hno =>
          absurd rfl (hno t _ (Function.update_self ..))⟩
        obtain rfl : u = t := hex' u t f _ hu (Function.update_self ..) hl rfl
        rcases update_eq_some hu with ⟨_, hf⟩ | ⟨hne, _⟩
        · obtain rfl := Option.some.inj hf
          have hold := h.rest u _ hin rfl
          simp only [runSteps, hstep, Option.bind_some] at hold
          simpa only [Function.update_self] using hold
        · exact absurd rfl hne
      · have hsame : Function.update w.shared (S.memOf c) r.1 l = w.shared l :=
          Function.update_of_ne (Ne.symm hc) _ _
        refine ⟨s, h.replay, fun u f hu hl => ?_, fun hno => ?_⟩
        · rcases update_eq_some hu with ⟨_, hf⟩ | ⟨_, hu⟩
          · obtain rfl := Option.some.inj hf
            exact absurd hl hc
          · simp only [hsame]
            exact h.rest u f hu hl
        · refine hsame.trans (h.free (free_of_update (fun f hf => ?_) hno))
          obtain rfl := Option.some.inj (hin.symm.trans hf)
          exact hc
  | @leave t c x hin =>
      by_cases hc : S.memOf c = l
      · subst hc
        have hold := h.rest t _ hin rfl
        have hlog : S.logAt (S.memOf c) (w.log ++ [⟨t, c, x⟩]) =
            S.logAt (S.memOf c) w.log ++ [⟨t, c, x⟩] := by
          simp [Sections.logAt, List.filter_append]
        refine ⟨w.shared (S.memOf c), ?_, fun u f hu hl => ?_, fun _ => rfl⟩
        · rw [hlog]
          exact .snoc h.replay hold.symm
        · rcases update_eq_some hu with ⟨_, hf⟩ | ⟨hut, hu⟩
          · cases hf
          · exact absurd (hex u t f _ hu hin hl rfl) hut
      · have hlog : S.logAt l (w.log ++ [⟨t, c, x⟩]) = S.logAt l w.log := by
          simp [Sections.logAt, List.filter_append, hc]
        refine ⟨s, by rw [hlog]; exact h.replay, fun u f hu hl => ?_, fun hno => ?_⟩
        · rcases update_eq_some hu with ⟨_, hf⟩ | ⟨_, hu⟩
          · cases hf
          · exact h.rest u f hu hl
        · refine h.free (free_of_update (fun f hf => ?_) hno)
          obtain rfl := Option.some.inj (hin.symm.trans hf)
          exact hc

/-- **Atomicity**: run lemma. -/
theorem atomicAt_of_guarded (hg : Guarded S prog l)
    (hw : Reachable (lockStep S) (LockState.init s₀ prog) w) : ∃ s, AtomicAt S (s₀ l) l w s := by
  have hinit : AtomicAt S (s₀ l) l (LockState.init s₀ prog) (s₀ l) := by
    refine ⟨.nil, fun t f hf => ?_, fun _ => rfl⟩
    cases hf
  have hall : Reachable (lockStep S) (LockState.init s₀ prog) w ∧ ∃ s, AtomicAt S (s₀ l) l w s := by
    refine hw.induction (fun w => Reachable (lockStep S) (LockState.init s₀ prog) w ∧
      ∃ s, AtomicAt S (s₀ l) l w s) ⟨.refl _, _, hinit⟩ (fun w a w' h hs => ?_)
    obtain ⟨hr, s, h⟩ := h
    have hr' := hr.tail hs
    exact ⟨hr', h.move (exclusive_of_guarded hg hr) (exclusive_of_guarded hg hr')
      (lockMove_of_step hs)⟩
  exact hall.2

/-! ### Runs -/

/-- A thread begins a call if its lock is free. -/
theorem lockStep_enter {t : τ} {c : κ} {cs : List κ} (hin : w.inside t = none)
    (htodo : w.todo t = c :: cs) (hfree : ∀ l, S.lockOf c = some l → w.owner l = none) :
    lockStep S w (.enter t) = some { w with
      owner := setOwner w.owner (S.lockOf c) (some t)
      todo := Function.update w.todo t cs
      inside := Function.update w.inside t (some ⟨c, S.steps c, S.locals c⟩) } := by
  have hno : ¬ ((S.lockOf c).bind w.owner).isSome = true := by
    cases hl : S.lockOf c with
    | none => simp
    | some l => simp [hfree l hl]
  simp only [lockStep, hin, htodo, if_neg hno]

omit [DecidableEq τ] in
theorem setOwner_release {owner : ℓ → Option τ} {o : Option ℓ} {b : Option τ}
    (hfree : ∀ l, o = some l → owner l = none) : setOwner (setOwner owner o b) o none = owner := by
  cases o with
  | none => rfl
  | some l =>
      simp only [setOwner, Function.update_idem]
      exact Function.update_eq_self_iff.mpr (hfree l rfl).symm

/-- A thread goes through the rest of its call. -/
theorem exists_run_steps {t : τ} {c : κ} (ms : List (σ → ρ → Option (σ × ρ))) {x : ρ}
    {r : σ × ρ} (hin : w.inside t = some ⟨c, ms, x⟩)
    (hms : runSteps ms (w.shared (S.memOf c)) x = some r) :
    ∃ as, run (lockStep S) w as = some { w with
      shared := Function.update w.shared (S.memOf c) r.1
      inside := Function.update w.inside t (some ⟨c, [], r.2⟩) } := by
  induction ms generalizing w x with
  | nil =>
      obtain rfl := Option.some.inj hms
      refine ⟨[], ?_⟩
      rw [run_nil, Function.update_eq_self, ← hin, Function.update_eq_self]
  | cons m ms ih =>
      obtain ⟨q, hq, hms⟩ := Option.bind_eq_some_iff.mp hms
      have hstep : lockStep S w (.step t) = some { w with
          shared := Function.update w.shared (S.memOf c) q.1
          inside := Function.update w.inside t (some ⟨c, ms, q.2⟩) } := by
        simp only [lockStep, hin, hq, Option.map_some]
      obtain ⟨as, hrun⟩ := ih (w := { w with
          shared := Function.update w.shared (S.memOf c) q.1
          inside := Function.update w.inside t (some ⟨c, ms, q.2⟩) })
        (Function.update_self ..) (by simpa only [Function.update_self] using hms)
      simp only [Function.update_idem] at hrun
      exact ⟨.step t :: as, run_cons_eq_some.mpr ⟨_, hstep, hrun⟩⟩

/-- A thread makes its next call, while the others wait. -/
theorem exists_run_call {t : τ} {c : κ} {cs : List κ} {r : σ × ρ} (hin : w.inside t = none)
    (htodo : w.todo t = c :: cs) (hfree : ∀ l, S.lockOf c = some l → w.owner l = none)
    (hcall : S.call c (w.shared (S.memOf c)) = some r) :
    ∃ as, run (lockStep S) w as = some { w with
      shared := Function.update w.shared (S.memOf c) r.1
      todo := Function.update w.todo t cs
      log := w.log ++ [⟨t, c, r.2⟩] } := by
  obtain ⟨as, hrun⟩ := exists_run_steps (S := S) (w := { w with
      owner := setOwner w.owner (S.lockOf c) (some t)
      todo := Function.update w.todo t cs
      inside := Function.update w.inside t (some ⟨c, S.steps c, S.locals c⟩) })
    (S.steps c) (Function.update_self ..) hcall
  refine ⟨.enter t :: (as ++ [.leave t]), run_cons_eq_some.mpr ⟨_, lockStep_enter hin htodo hfree,
    run_snoc_eq_some.mpr ⟨_, hrun, ?_⟩⟩⟩
  have hinside : Function.update w.inside t none = w.inside := by
    rw [← hin, Function.update_eq_self]
  simp only [lockStep, Function.update_self, Function.update_idem, hinside,
    setOwner_release hfree]

/-- No call is at work. -/
def LockState.Idle (w : LockState τ κ μ ℓ σ ρ) : Prop :=
  (∀ t, w.inside t = none) ∧ ∀ l, w.owner l = none

/-- All calls have been made. -/
def LockState.Done (w : LockState τ κ μ ℓ σ ρ) : Prop := ∀ t, w.inside t = none ∧ w.todo t = []

/-- A thread makes a whole call after another has gone through the first step of its own, which
changes nothing; the other goes on with what it has seen. -/
theorem exists_run_between {t t' : τ} (hne : t ≠ t') {c c' : κ} {cs cs' : List κ}
    {m : σ → ρ → Option (σ × ρ)} {ms : List (σ → ρ → Option (σ × ρ))} {x : ρ} {r r' : σ × ρ}
    (hidle : w.Idle) (htodo : w.todo t = c :: cs) (htodo' : w.todo t' = c' :: cs')
    (hc : S.memOf c = l) (hc' : S.memOf c' = l)
    (hlock : ∀ k, S.lockOf c = some k → S.lockOf c' ≠ some k) (hsteps : S.steps c = m :: ms)
    (hread : m (w.shared l) (S.locals c) = some (w.shared l, x))
    (hcall : S.call c' (w.shared l) = some r') (hrest : runSteps ms r'.1 x = some r) :
    ∃ as w', run (lockStep S) w as = some w' ∧ w'.Idle ∧
      w'.shared = Function.update w.shared l r.1 ∧
      w'.todo = Function.update (Function.update w.todo t cs) t' cs' ∧
      w'.log = w.log ++ [⟨t', c', r'.2⟩, ⟨t, c, r.2⟩] := by
  subst hc
  -- `t` takes its lock and reads
  have henter := lockStep_enter (S := S) (hidle.1 t) htodo fun k _ => hidle.2 k
  rw [hsteps] at henter
  have hstep : lockStep S { w with
      owner := setOwner w.owner (S.lockOf c) (some t)
      todo := Function.update w.todo t cs
      inside := Function.update w.inside t (some ⟨c, m :: ms, S.locals c⟩) } (.step t) =
      some { w with
        owner := setOwner w.owner (S.lockOf c) (some t)
        todo := Function.update w.todo t cs
        inside := Function.update w.inside t (some ⟨c, ms, x⟩) } := by
    simp only [lockStep, Function.update_self, hread, Option.map_some, Function.update_eq_self,
      Function.update_idem]
  -- `t'` makes its call
  obtain ⟨as, hrun⟩ := exists_run_call (S := S) (t := t') (c := c') (r := r')
    (w := { w with
      owner := setOwner w.owner (S.lockOf c) (some t)
      todo := Function.update w.todo t cs
      inside := Function.update w.inside t (some ⟨c, ms, x⟩) })
    ((Function.update_of_ne hne.symm _ _).trans (hidle.1 t'))
    ((Function.update_of_ne hne.symm _ _).trans htodo')
    (fun k hk => (setOwner_of_ne _ fun heq => hlock k heq hk).trans (hidle.2 k))
    (by rw [hc']; exact hcall)
  -- `t` goes on
  obtain ⟨as', hrun'⟩ := exists_run_steps (S := S) (r := r) ms (w := { w with
      shared := Function.update w.shared (S.memOf c) r'.1
      owner := setOwner w.owner (S.lockOf c) (some t)
      todo := Function.update (Function.update w.todo t cs) t' cs'
      inside := Function.update w.inside t (some ⟨c, ms, x⟩)
      log := w.log ++ [⟨t', c', r'.2⟩] })
    (Function.update_self ..) (by simpa only [Function.update_self] using hrest)
  rw [hc'] at hrun
  simp only [Function.update_idem] at hrun'
  have hleave : lockStep S { w with
      shared := Function.update w.shared (S.memOf c) r.1
      owner := setOwner w.owner (S.lockOf c) (some t)
      todo := Function.update (Function.update w.todo t cs) t' cs'
      inside := Function.update w.inside t (some ⟨c, [], r.2⟩)
      log := w.log ++ [⟨t', c', r'.2⟩] } (.leave t) = some { w with
        shared := Function.update w.shared (S.memOf c) r.1
        owner := setOwner (setOwner w.owner (S.lockOf c) (some t)) (S.lockOf c) none
        todo := Function.update (Function.update w.todo t cs) t' cs'
        inside := Function.update w.inside t none
        log := w.log ++ [⟨t', c', r'.2⟩] ++ [⟨t, c, r.2⟩] } := by
    simp only [lockStep, Function.update_self, Function.update_idem]
  refine ⟨.enter t :: .step t :: (as ++ (as' ++ [.leave t])), _, run_cons_eq_some.mpr ⟨_, henter,
    run_cons_eq_some.mpr ⟨_, hstep, run_append_eq_some.mpr ⟨_, hrun,
      run_snoc_eq_some.mpr ⟨_, hrun', hleave⟩⟩⟩⟩,
    ⟨fun u => ?_, fun k => ?_⟩, rfl, rfl, List.append_assoc ..⟩
  · by_cases hut : u = t
    · rw [hut]
      exact Function.update_self ..
    · exact (Function.update_of_ne hut _ _).trans (hidle.1 u)
  · exact (congrFun (setOwner_release fun k _ => hidle.2 k) k).trans (hidle.2 k)

/-- A thread makes its next calls, and each of them keeps `P`. -/
theorem exists_run_calls {P : LockState τ κ μ ℓ σ ρ → Prop}
    (hP : ∀ w t c cs, P w → w.todo t = c :: cs → ∃ r, S.call c (w.shared (S.memOf c)) = some r ∧
      P { w with
        shared := Function.update w.shared (S.memOf c) r.1
        todo := Function.update w.todo t cs
        log := w.log ++ [⟨t, c, r.2⟩] })
    {t : τ} {cs : List κ} (bs : List κ) (hw : P w) (hidle : w.Idle) (htodo : w.todo t = bs ++ cs) :
    ∃ as w', run (lockStep S) w as = some w' ∧ P w' ∧ w'.Idle ∧
      w'.todo = Function.update w.todo t cs := by
  induction bs generalizing w with
  | nil =>
      refine ⟨[], w, rfl, hw, hidle, ?_⟩
      rw [← List.nil_append cs, ← htodo, Function.update_eq_self]
  | cons b bs ih =>
      obtain ⟨r, hcall, hw'⟩ := hP w t b (bs ++ cs) hw htodo
      obtain ⟨as, hrun⟩ := exists_run_call (hidle.1 t) htodo (fun l _ => hidle.2 l) hcall
      obtain ⟨as', w', hrun', hres, hidle', htodo'⟩ := ih hw' hidle (Function.update_self ..)
      refine ⟨as ++ as', w', run_append_eq_some.mpr ⟨_, hrun, hrun'⟩, hres, hidle', ?_⟩
      rw [htodo', Function.update_idem]

/-- All threads make the calls that are left. -/
theorem exists_run_done {n : Nat} {w : LockState (Fin n) κ μ ℓ σ ρ}
    {P : LockState (Fin n) κ μ ℓ σ ρ → Prop}
    (hP : ∀ w t c cs, P w → w.todo t = c :: cs → ∃ r, S.call c (w.shared (S.memOf c)) = some r ∧
      P { w with
        shared := Function.update w.shared (S.memOf c) r.1
        todo := Function.update w.todo t cs
        log := w.log ++ [⟨t, c, r.2⟩] }) (hw : P w) (hidle : w.Idle) :
    ∃ as w', run (lockStep S) w as = some w' ∧ P w' ∧ w'.Done := by
  have hsome : ∀ ts : List (Fin n), ∃ as w', run (lockStep S) w as = some w' ∧ P w' ∧
      w'.Idle ∧ ∀ t, t ∈ ts → w'.todo t = [] := by
    intro ts
    induction ts with
    | nil => exact ⟨[], w, rfl, hw, hidle, fun _ ht => by cases ht⟩
    | cons t ts ih =>
        obtain ⟨as, w', hrun, hw', hidle', hts⟩ := ih
        obtain ⟨as', w'', hrun', hw'', hidle'', htodo⟩ := exists_run_calls hP
          (w'.todo t) hw' hidle' (List.append_nil _).symm
        refine ⟨as ++ as', w'', run_append_eq_some.mpr ⟨_, hrun, hrun'⟩, hw'', hidle'',
          fun u hu => ?_⟩
        rw [htodo]
        by_cases hut : u = t
        · rw [hut, Function.update_self]
        · rw [Function.update_of_ne hut]
          exact hts u ((List.mem_cons.mp hu).resolve_left hut)
  obtain ⟨as, w', hrun, hw', hidle', hts⟩ := hsome (List.finRange n)
  exact ⟨as, w', hrun, hw', fun t => ⟨hidle'.1 t, hts t (List.mem_finRange t)⟩⟩

theorem flatMap_update_perm {α : Type} {β : Type u} [DecidableEq α] {ts : List α}
    (hnd : ts.Nodup) {t : α} (ht : t ∈ ts) (g : α → List β) (b : β) :
    (ts.flatMap fun u => if t = u then b :: g u else g u).Perm (b :: ts.flatMap g) := by
  induction ts with
  | nil => cases ht
  | cons u ts ih =>
      obtain ⟨hnot, hnd⟩ := List.nodup_cons.mp hnd
      simp only [List.flatMap_cons]
      by_cases htu : t = u
      · subst htu
        have hsame : (ts.flatMap fun u => if t = u then b :: g u else g u) = ts.flatMap g :=
          List.flatMap_congr fun u hu => if_neg fun heq : t = u => hnot (heq ▸ hu)
        rw [if_pos rfl, hsame]
        exact .refl _
      · rw [if_neg htu]
        exact ((ih hnd ((List.mem_cons.mp ht).resolve_left htu)).append_left _).trans
          List.perm_middle

omit [DecidableEq μ] [DecidableEq ℓ] in
/-- At the end the log has every call of the programs. -/
theorem log_perm {n : Nat} {prog : Fin n → List κ} {w : LockState (Fin n) κ μ ℓ σ ρ}
    (h : Ordered prog w) (hd : w.Done) :
    (w.log.map Ended.call).Perm ((List.finRange n).flatMap prog) := by
  have hsplit : ∀ log : List (Ended (Fin n) κ ρ), (log.map Ended.call).Perm
      ((List.finRange n).flatMap fun t =>
        (log.filter fun e => decide (e.thread = t)).map Ended.call) := by
    intro log
    induction log with
    | nil => simp
    | cons e log ih =>
        have hcons : ∀ t, ((e :: log).filter fun e => decide (e.thread = t)).map Ended.call =
            if e.thread = t then
              e.call :: (log.filter fun e => decide (e.thread = t)).map Ended.call
            else (log.filter fun e => decide (e.thread = t)).map Ended.call := by
          intro t
          by_cases ht : e.thread = t
          · simp [ht]
          · simp [ht]
        simp only [hcons]
        exact (ih.cons e.call).trans
          (flatMap_update_perm (List.nodup_finRange n) (List.mem_finRange _) _ _).symm
  have hprog : ∀ t, (w.log.filter fun e => decide (e.thread = t)).map Ended.call = prog t := by
    intro t
    have ht := h t
    rwa [(hd t).1, (hd t).2, Option.toList_none, List.map_nil, List.nil_append,
      List.append_nil] at ht
  simpa only [hprog] using hsplit w.log

end Locks

end Library
end Fflib
