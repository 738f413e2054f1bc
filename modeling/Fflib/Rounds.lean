import Fflib.Cascade

/-!
# Rounds of a schedule

A process posts one schedule, waits for it, and starts again, any number of
times, while the progress thread completes pending operations in any order and
the state behind the handlers changes arbitrarily (`sysStep`).

* `SysInv` is the invariant over all rounds.
* `schedule_execution_law` is the main result: in every reachable state the
  log of the current round is in order (`RoundLaw`), when `ffschedule_wait`
  returns the round is complete and the counters are restored
  (`RoundComplete`), and the cascades of a round terminate.
-/

namespace Fflib

open Library

universe u

/-- The process together with the state behind its handlers. -/
structure System (σ : Type u) where
  env : σ
  proc : Proc

inductive SysAct (σ : Type u) where
  | proc (a : ProcAct)
  | env (e : σ)

/-- The step is one of a cascade, or one of the progress thread. -/
def SysAct.isCascade {σ : Type u} : SysAct σ → Bool
  | .proc (.frame _) => true
  | .proc (.progress _) => true
  | _ => false

/-- The step is a call of `ffschedule_post`. -/
def SysAct.isPost {σ : Type u} : SysAct σ → Bool
  | .proc .post => true
  | _ => false

def sysStep {σ : Type u} (impl : Impl σ) (s : FfSchedule) (x : System σ) :
    SysAct σ → Option (System σ)
  | .proc a => (procStep impl s x.env x.proc a).map (fun r => ⟨r.1, r.2⟩)
  | .env e => some { x with env := e }

/-- What holds at any time of the operations `lo ≤ x < l.opid` of a schedule. -/
structure RoundLaw (lo : Nat) (l : Lib) (s : FfSchedule) (p : Proc) : Prop where
  posted_le : ∀ x, p.log.count (.posting x) ≤ 1
  completed_le : ∀ x, p.log.count (.completing x) ≤ 1
  preds_first : ∀ x y, lo ≤ x → x < l.opid → l.HasEdge x y →
    Precedes p.log (.completing x) (.posting y)
  posted_first : ∀ x, Precedes p.log (.posting x) (.completing x)
  end_last : ∀ x, lo ≤ x → x < l.opid → x ≠ s.endOp →
    Precedes p.log (.completing x) (.completing s.endOp)
  no_wrap : ∀ t x i fs, p.stack t = .loop x i :: fs → i < (p.ops x).outDepCount →
    0 < (p.ops ((p.ops x).dependent i)).depLeft
  settles : p.running = true → p.frames = [] → p.pending = [] →
    (p.ops s.endOp).completed ≠ 0

/-- What the return of `ffschedule_wait` finds. -/
structure RoundComplete (lo : Nat) (l : Lib) (p : Proc) : Prop where
  posted_once : ∀ x, lo ≤ x → x < l.opid → p.log.count (.posting x) = 1
  completed_once : ∀ x, lo ≤ x → x < l.opid → p.log.count (.completing x) = 1
  left_eq : ∀ x, lo ≤ x → x < l.opid → (p.ops x).depLeft = (p.ops x).inDepCount
  settled : p.pending = []

/-- The log of a finished round. -/
def LogDone (G : DepGraph Nat) (log : List Event) : Prop :=
  log = [] ∨ ∃ a, G.Sound a ∧ LogOk G log a ∧ ∀ v, v ∈ G.verts → (a.phase v).isDone = true

/-- The invariant over all rounds; `n` bounds the steps left in the round. -/
def SysInv {σ : Type u} (G : DepGraph Nat) (ops₀ : Nat → Ffop) (e : Nat) (n : Nat)
    (x : System σ) : Prop :=
  (Quiet G ops₀ e x.proc ∧ LogDone G x.proc.log ∧ n = x.proc.frames.length) ∨
    ∃ a, Running G ops₀ e x.proc a ∧ n = load G x.proc a

section Steps

variable {G : DepGraph Nat} {ops₀ : Nat → Ffop} {e : Nat} {σ : Type u} {impl : Impl σ}
  {s : FfSchedule}

theorem Running.logDone {p : Proc} {a : Progress Nat} (h : Running G ops₀ e p a)
    (W : Wired G ops₀ e) (he : (a.phase e).isDone = true) : LogDone G p.log := by
  refine Or.inr ⟨a, h.sound, h.log, fun v hv => ?_⟩
  rw [h.all_done W he hv]
  rfl

/-- Step lemma: every step keeps the invariant, and no step but `ffschedule_post`
increases the bound. -/
theorem SysInv.step (W : Wired G ops₀ e) (hpost : impl.Succeeds) (hsb : s.beginOp = G.root)
    (hse : s.endOp = e) {n : Nat} {x x' : System σ} {act : SysAct σ}
    (h : SysInv G ops₀ e n x) (hs : sysStep impl s x act = some x') :
    ∃ n', SysInv G ops₀ e n' x' ∧
      (act.isPost = false → n' + (if act.isCascade then 1 else 0) ≤ n) := by
  cases act with
  | env env' =>
      obtain rfl := Option.some.inj hs
      exact ⟨n, h, fun _ => by simp [SysAct.isCascade]⟩
  | proc act =>
      obtain ⟨⟨env', p'⟩, hp, rfl⟩ := Option.map_eq_some_iff.mp hs
      rcases h with ⟨hq, hlog, rfl⟩ | ⟨a, hr, rfl⟩
      · cases act with
        | post =>
            obtain ⟨_, hr'⟩ := hq.postStep W hsb hp
            exact ⟨_, Or.inr ⟨_, hr', rfl⟩, fun hc => by cases hc⟩
        | wait =>
            simp [procStep, hq.not_waitStep] at hp
        | frame t =>
            obtain ⟨_, hq', hl, hlt⟩ := hq.frameStep W hp
            refine ⟨_, Or.inl ⟨hq', ?_, rfl⟩, fun _ => ?_⟩
            · rw [hl]; exact hlog
            · simp only [SysAct.isCascade, if_true]
              omega
        | progress y =>
            simp [procStep, hq.not_progressStep] at hp
      · cases act with
        | post =>
            simp [procStep, ffschedulePost, hr.running] at hp
        | wait =>
            obtain ⟨p'', hw, heq⟩ := Option.map_eq_some_iff.mp hp
            obtain ⟨rfl, rfl⟩ := Prod.mk.inj heq
            obtain ⟨he, hq', hl⟩ := hr.waitStep W hse hw
            refine ⟨_, Or.inl ⟨hq', ?_, rfl⟩, fun _ => ?_⟩
            · rw [hl]; exact hr.logDone W he
            · have hf : p''.frames = x.proc.frames := by
                simp only [ffscheduleWait] at hw
                split at hw
                · obtain rfl := Option.some.inj hw
                  rfl
                · cases hw
              simp only [SysAct.isCascade, Bool.false_eq_true, if_false, hf, load]
              omega
        | frame t =>
            obtain ⟨a', _, hr', hlt⟩ := hr.frameStep W hpost hp
            refine ⟨_, Or.inr ⟨a', hr', rfl⟩, fun _ => ?_⟩
            simp only [SysAct.isCascade, if_true]
            omega
        | progress y =>
            obtain ⟨_, _, hr', hlt⟩ := hr.progressStep hp
            refine ⟨_, Or.inr ⟨_, hr', rfl⟩, fun _ => ?_⟩
            simp only [SysAct.isCascade, if_true]
            omega

/-- Run lemma. -/
theorem sysInv_of_reachable (W : Wired G ops₀ e) (hpost : impl.Succeeds)
    (hsb : s.beginOp = G.root) (hse : s.endOp = e) {env₀ : σ} {x : System σ}
    (hx : Reachable (sysStep impl s) ⟨env₀, Proc.init ops₀⟩ x) :
    ∃ n, SysInv G ops₀ e n x := by
  refine hx.induction (fun y => ∃ n, SysInv G ops₀ e n y)
    ⟨_, Or.inl ⟨W.quiet_init, Or.inl rfl, rfl⟩⟩ (fun y act y' hy hs => ?_)
  obtain ⟨n, hn⟩ := hy
  obtain ⟨n', hn', _⟩ := hn.step W hpost hsb hse hs
  exact ⟨n', hn'⟩

/-- The cascades of a round terminate. -/
theorem SysInv.cascades_terminate (W : Wired G ops₀ e) (hpost : impl.Succeeds)
    (hsb : s.beginOp = G.root) (hse : s.endOp = e) {n : Nat} {x x' : System σ}
    (h : SysInv G ops₀ e n x) {as : List (SysAct σ)} (has : ∀ act ∈ as, act.isPost = false)
    (hr : run (sysStep impl s) x as = some x') : as.countP SysAct.isCascade ≤ n := by
  have hstep : ∀ n y act y', SysInv G ops₀ e n y → SysAct.isPost act = false →
      sysStep impl s y act = some y' →
      ∃ n', n' + (if act.isCascade then 1 else 0) ≤ n ∧ SysInv G ops₀ e n' y' := by
    intro n y act y' hy ha hs
    obtain ⟨n', hn', hle⟩ := hy.step W hpost hsb hse hs
    exact ⟨n', hle ha, hn'⟩
  exact countP_le_of_measure hstep as n x x' h has hr

/-- `completing e` comes last: everything else completes before it. -/
theorem LogOk.end_last (W : Wired G ops₀ e) {log : List Event} {a : Progress Nat}
    (h : LogOk G log a) {v : Nat} (hv : v ∈ G.verts) (hne : v ≠ e) :
    Precedes log (.completing v) (.completing e) := by
  have hreach := W.reaches v hv hne
  induction hreach using Relation.TransGen.head_induction_on with
  | single hp => exact (h.pred_first _ _ hp).trans (h.posting_first _)
  | @head u w hp hw ih =>
      have hwe : w ≠ e := by
        rintro rfl
        obtain ⟨z, hz, _⟩ := Relation.TransGen.head'_iff.mp hw
        obtain ⟨i, hi, _⟩ := hz
        rw [W.end_out] at hi
        omega
      have hvw := (h.pred_first _ _ hp).trans (h.posting_first _)
      exact hvw.trans (ih (G.pred_mem hp).2 hwe)

end Steps

section Law

variable {σ : Type u} {impl : Impl σ} {l₀ l : Lib} {cs : List BuildCall} {s : FfSchedule}
  {cap : Nat}

/-- The order of the log, whatever the phases are. -/
theorem RoundLaw.of_logOk (h : ScheduleBuilt cap l₀ cs s l) {p : Proc} {a : Progress Nat}
    (hlog : LogOk h.graph p.log a)
    (hwrap : ∀ t x i fs, p.stack t = .loop x i :: fs → i < (p.ops x).outDepCount →
      0 < (p.ops ((p.ops x).dependent i)).depLeft)
    (hsettles : p.running = true → p.frames = [] → p.pending = [] →
      (p.ops s.endOp).completed ≠ 0) : RoundLaw l₀.opid l s p where
  posted_le x := by rw [hlog.posting]; split <;> omega
  completed_le x := by rw [hlog.completing]; split <;> omega
  preds_first x y hlo hx he := hlog.pred_first x y (h.pred_iff.mpr ⟨⟨hlo, hx⟩, he⟩)
  posted_first := hlog.posting_first
  end_last x hlo hx hne := hlog.end_last h.wired (h.mem_verts.mpr ⟨hlo, hx⟩) hne
  no_wrap := hwrap
  settles := hsettles

theorem logOk_nil {G : DepGraph Nat} : LogOk G [] ⟨fun _ => .idle, fun _ => 0⟩ :=
  ⟨fun _ => rfl, fun _ => rfl, fun _ _ _ => precedes_nil, fun _ => precedes_nil⟩

theorem Quiet.roundLaw (h : ScheduleBuilt cap l₀ cs s l) {p : Proc}
    (hq : Quiet h.graph l.ops s.endOp p) (hlog : LogDone h.graph p.log) :
    RoundLaw l₀.opid l s p := by
  have hok : ∃ a, LogOk h.graph p.log a := by
    rcases hlog with hl | ⟨a, _, hl, _⟩
    · rw [hl]; exact ⟨_, logOk_nil⟩
    · exact ⟨a, hl⟩
  obtain ⟨a, hok⟩ := hok
  refine RoundLaw.of_logOk h hok (fun t x i fs hst hi => ?_) (fun hrun => ?_)
  · obtain ⟨v, j, heq, hv, hj⟩ := hq.exhausted _ (Proc.top_mem_frames hst)
    obtain ⟨rfl, rfl⟩ := Frame.loop.inj heq
    rw [(hq.same x).out_eq, ← h.wired.out_eq x hv] at hi
    omega
  · rw [hq.running] at hrun
    cases hrun

theorem Running.roundLaw (h : ScheduleBuilt cap l₀ cs s l) {p : Proc} {a : Progress Nat}
    (hr : Running h.graph l.ops s.endOp p a) : RoundLaw l₀.opid l s p := by
  refine RoundLaw.of_logOk h hr.log (fun t x i fs hst hi => ?_) (fun _ hf hp => ?_)
  · have hmem := hr.loop_mem x i (Proc.top_mem_frames hst)
    rw [(hr.same x).out_eq, ← h.wired.out_eq x hmem] at hi
    have hx := hr.phase_of_loop (Proc.top_mem_frames hst) hi
    rw [(hr.same x).dependent_eq, ← h.wired.dep_eq, hr.left _ (h.graph.dep_mem x i hi)]
    exact (hr.sound.target_idle hx hi).2.2
  · rw [hr.flag, if_pos (hr.end_done_of_stuck h.wired hf hp)]
    exact one_ne_zero

theorem Running.roundComplete (h : ScheduleBuilt cap l₀ cs s l) {p p' : Proc}
    {a : Progress Nat} (hr : Running h.graph l.ops s.endOp p a)
    (hw : ffscheduleWait s p = some p') : RoundComplete l₀.opid l p' := by
  obtain ⟨he, hq, hl⟩ := hr.waitStep h.wired rfl hw
  have hall : ∀ x, l₀.opid ≤ x → x < l.opid →
      a.phase x = .cascading (h.graph.out x) :=
    fun x hlo hx => hr.all_done h.wired he (h.mem_verts.mpr ⟨hlo, hx⟩)
  refine ⟨fun x hlo hx => ?_, fun x hlo hx => ?_, fun x hlo hx => ?_, hq.pending⟩
  · rw [hl, hr.log.posting, hall x hlo hx]; rfl
  · rw [hl, hr.log.completing, hall x hlo hx]; rfl
  · have hmem := h.mem_verts.mpr ⟨hlo, hx⟩
    rw [hq.left x hmem, h.wired.indeg_eq x hmem, (hq.same x).in_eq]

/-- **Schedule execution law.**  Whatever the handlers and the progress calls
answer, in every state that any number of rounds can reach. -/
theorem schedule_execution_law (impl : Impl σ) (hpost : impl.Succeeds)
    (h : ScheduleBuilt maxDeps l₀ cs s l) {env₀ : σ} {x : System σ}
    (hx : Reachable (sysStep impl s) ⟨env₀, Proc.init l.ops⟩ x) :
    RoundLaw l₀.opid l s x.proc ∧
      (∀ x', sysStep impl s x (.proc .wait) = some x' → RoundComplete l₀.opid l x'.proc) ∧
      ∃ B, ∀ as x', (∀ act ∈ as, act.isPost = false) →
        run (sysStep impl s) x as = some x' → as.countP SysAct.isCascade ≤ B := by
  obtain ⟨n, hn⟩ := sysInv_of_reachable h.wired hpost rfl rfl hx
  refine ⟨?_, fun x' hw => ?_, n, fun as x' has hr =>
    hn.cascades_terminate h.wired hpost rfl rfl has hr⟩
  · rcases hn with ⟨hq, hlog, _⟩ | ⟨a, hr, _⟩
    · exact hq.roundLaw h hlog
    · exact hr.roundLaw h
  · obtain ⟨⟨env', p'⟩, hp, rfl⟩ := Option.map_eq_some_iff.mp hw
    obtain ⟨p'', hw', heq⟩ := Option.map_eq_some_iff.mp hp
    obtain ⟨rfl, rfl⟩ := Prod.mk.inj heq
    rcases hn with ⟨hq, _, _⟩ | ⟨a, hr, _⟩
    · rw [hq.not_waitStep] at hw'
      cases hw'
    · exact hr.roundComplete h hw'

end Law

/-! ### A schedule of a send and a receive that waits for it -/

/-- Handlers that leave every operation to the progress thread. -/
def asyncImpl : Impl Unit where
  post _ _ e := (e, ffSuccess)
  test _ _ e := some e
  postCallback e := e

def sendRecvCalls : List BuildCall :=
  [.create (.send 1 0 1) ffopDepAnd, .create (.recv 1 0 2) ffopDepAnd, .scheduleCreate,
    .hb 0 1, .addOp 0, .addOp 1]

/-- The steps of one round up to the return of `ffschedule_wait`. -/
def sendRecvRound : List (SysAct Unit) :=
  (.proc .post :: List.replicate 5 (.proc (.frame .user))) ++
    (.proc (.progress 0) :: List.replicate 4 (.proc (.frame .progress))) ++
    (.proc (.progress 1) :: List.replicate 6 (.proc (.frame .progress)))

theorem schedule_execution_law_sendRecv :
    ∃ s l x, ScheduleBuilt maxDeps Lib.init sendRecvCalls s l ∧
      run (sysStep asyncImpl s) ⟨(), Proc.init l.ops⟩ sendRecvRound = some x ∧
      RoundLaw 0 l s x.proc ∧
      ∃ x', sysStep asyncImpl s x (.proc .wait) = some x' ∧ RoundComplete 0 l x'.proc := by
  have hbuilt : ∃ s l, ScheduleBuilt maxDeps Lib.init sendRecvCalls s l ∧
      ∃ x, run (sysStep asyncImpl s) ⟨(), Proc.init l.ops⟩ sendRecvRound = some x ∧
        ∃ x', sysStep asyncImpl s x (.proc .wait) = some x' := by
    refine ⟨_, _, ⟨rfl, ⟨0, by decide⟩, fun x hx => ?_, ?_, ?_⟩, _, rfl, _, rfl⟩
    · have hlt : x < 4 := hx.2.1
      have hbegin : x ≠ 2 := (hx.2.2 _ rfl).1
      have hend : x ≠ 3 := (hx.2.2 _ rfl).2
      obtain rfl | rfl : x = 0 ∨ x = 1 := by omega
      · rfl
      · rfl
    · refine acyclic_of_lt id (fun a b hab => ?_)
      simp [sendRecvCalls] at hab
      simp [hab.1, hab.2]
    · intro body o hc
      simp only [sendRecvCalls, List.mem_cons, BuildCall.create.injEq, reduceCtorEq,
        List.not_mem_nil, or_false] at hc
      rcases hc with ⟨_, rfl⟩ | ⟨_, rfl⟩ <;> decide
  obtain ⟨s, l, hb, x, hx, x', hx'⟩ := hbuilt
  obtain ⟨hlaw, hend, _⟩ := schedule_execution_law asyncImpl (fun _ _ _ => Or.inl rfl) hb ⟨_, hx⟩
  exact ⟨s, l, x, hb, hx, hlaw, x', hx', hend x' hx'⟩

end Fflib
