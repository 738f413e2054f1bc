import Fflib.AllreduceBuild
import Fflib.Mpi
import Fflib.Posts

/-!
# Posts that the check of the allreduce rejects

`ffschedule_post` of a schedule that `ffallreduce` has built with `FFCOLL_BUFFERS`, after
the user has resized the buffers; the return codes of `ffallreduce_post_check`, `ffop_post`
and `ffschedule_post`.

* `RankEnv.postCheck_of_invalid`: the check itself changes nothing when it rejects.
* `SysInv.user_returns`: the cascade of the user thread comes to its end, so that a call of
  `ffschedule_post` returns.
* `rejectedPost_never`: a post that is rejected returns the code of `begin_op`, and has
  posted the schedule.
-/

namespace Fflib

open Library

universe u

variable {α : Type u}

/-- `ffbuffer_resize`, as far as the record goes. -/
def RankEnv.resize (buffer count : Nat) (datatype : Int) (E : RankEnv α) : RankEnv α :=
  { E with buffs := Function.update E.buffs buffer ⟨count, datatype⟩ }

/-- The code that `ffallreduce_post_check` returns. -/
def RankEnv.postCheckCode (st : AllreduceState) (E : RankEnv α) : Int :=
  let sb := E.buffs st.sndbuff
  let rb := E.buffs st.rcvbuff
  let inPlace := st.sndbuff = ffbuffNone
  if (¬ inPlace ∧ sb.datatype ≠ rb.datatype) ∨ rb.datatype ≠ st.datatype then ffInvalidArg
  else if ¬ inPlace ∧ sb.count ≠ rb.count then ffInvalidArg
  else ffSuccess

/-- A call of `ffschedule_post` by the user, from the state `x` to the state `x'` in which
it returns, while the progress thread rests. -/
def PostReturns {σ : Type u} (impl : Impl σ) (s : FfSchedule) (x x' : System σ) : Prop :=
  ∃ n, run (sysStep impl s) x (.proc .post :: List.replicate n (.proc (.frame .user))) =
      some x' ∧ x'.proc.user = []

/-- What is asked of a call that is rejected: it returns the error, posts nothing, and
leaves operations, requests and buffers alone. -/
structure NoEffect {σ : Type u} (x x' : System σ) (code : Int) : Prop where
  code_eq : code = ffInvalidArg
  posts_none : ∀ v, .posting v ∉ x'.proc.log
  ops_eq : x'.proc.ops = x.proc.ops
  pending_eq : x'.proc.pending = x.proc.pending
  env_eq : x'.env = x.env

theorem RankEnv.postCheck_of_invalid {st : AllreduceState} {E : RankEnv α}
    (h : E.postCheckCode st = ffInvalidArg) : E.postCheck st = E := by
  unfold RankEnv.postCheckCode at h
  unfold RankEnv.postCheck
  simp only at h ⊢
  split at h
  · next hc => rw [if_pos hc]
  · next hc =>
      rw [if_neg hc]
      split at h
      · next hcount => rw [if_pos hcount]
      · exact absurd h (by decide)

section Return

variable {σ : Type u} {impl : Impl σ} {s : FfSchedule} {G : DepGraph Nat} {ops₀ : Nat → Ffop}
  {e : Nat}

/-- A frame adds to the log. -/
theorem frameStep_log {t : Thread} {env env' : σ} {p p' : Proc}
    (hs : frameStep impl t env p = some (env', p')) : ∃ l, p'.log = p.log ++ l := by
  obtain ⟨f, fs, _, hmove⟩ := frameStep_cases hs
  cases hmove with
  | refused => exact ⟨[], by simp⟩
  | pending => exact ⟨_, by rw [Proc.setStack_log]; rfl⟩
  | posted => exact ⟨_, by rw [Proc.setStack_log]; rfl⟩
  | failed => exact ⟨_, by rw [Proc.setStack_log]; rfl⟩
  | complete => exact ⟨_, by rw [Proc.setStack_log]; rfl⟩
  | trigger => exact ⟨[], by rw [Proc.setStack_log, List.append_nil]; rfl⟩
  | announce => exact ⟨[], by rw [Proc.setStack_log, List.append_nil]; rfl⟩
  | done => exact ⟨[], by simp⟩

theorem mem_log_of_frames {c : Event} {x x' : System σ} {n : Nat} (hc : c ∈ x.proc.log)
    (hr : run (sysStep impl s) x (List.replicate n (.proc (.frame .user))) = some x') :
    c ∈ x'.proc.log := by
  induction n generalizing x with
  | zero =>
      obtain rfl : x = x' := by simpa using hr
      exact hc
  | succ n ih =>
      obtain ⟨y, hs, hr'⟩ := run_cons_eq_some.mp hr
      obtain ⟨⟨env, p⟩, hstep, rfl⟩ := Option.map_eq_some_iff.mp hs
      obtain ⟨l, hl⟩ := frameStep_log hstep
      refine ih ?_ hr'
      simp only [hl]
      exact List.mem_append_left l hc

/-- The frames of the user thread run out. -/
theorem SysInv.user_returns (W : Wired G ops₀ e) (hpost : impl.Succeeds)
    (hsb : s.beginOp = G.root) (hse : s.endOp = e) {n : Nat} :
    ∀ {x : System σ}, SysInv G ops₀ e n x →
      ∃ k x', run (sysStep impl s) x (List.replicate k (.proc (.frame .user))) = some x' ∧
        x'.proc.user = [] := by
  induction n using Nat.strong_induction_on with
  | _ n ih =>
      intro x h
      cases huser : x.proc.user with
      | nil => exact ⟨0, x, rfl, huser⟩
      | cons f fs =>
          obtain ⟨r, hr⟩ : ∃ r, frameStep impl .user x.env x.proc = some r := by
            simp only [frameStep, Proc.stack, huser]
            exact ⟨_, rfl⟩
          have hs : sysStep impl s x (.proc (.frame .user)) = some ⟨r.1, r.2⟩ := by
            simp only [sysStep, procStep, hr, Option.map_some]
          obtain ⟨m, hm, hle⟩ := h.step W hpost hsb hse hs
          have hlt : m + 1 ≤ n := hle rfl
          obtain ⟨k, x', hrun, hret⟩ := ih m (by omega) hm
          refine ⟨k + 1, x', ?_, hret⟩
          rw [List.replicate_succ, run_cons_eq_some]
          exact ⟨_, hs, hrun⟩

/-- `begin_op` is posted whatever the callback has said, and its code is returned. -/
structure BeginPosted (s : FfSchedule) (x' : System σ) (code : Int) : Prop where
  code_eq : code = ffCompleted
  posting : .posting s.beginOp ∈ x'.proc.log

/-- `begin_op` between two rounds. -/
theorem Quiet.begin_facts {p : Proc} (h : Quiet G ops₀ e p) (W : Wired G ops₀ e)
    (hsb : s.beginOp = G.root) (hnop : (ops₀ s.beginOp).body = .nop) :
    isOptSet (p.ops s.beginOp).options ffopNonPersistent = false ∧
      (p.ops s.beginOp).body = .nop := by
  have hroot : s.beginOp ∈ G.verts := hsb ▸ G.root_mem
  rw [(h.same _).options_eq, (h.same _).body_eq, hnop]
  exact ⟨(W.default _ hroot).2, rfl⟩

/-- A call of `ffschedule_post` in a state between two rounds. -/
theorem post_posts_begin (W : Wired G ops₀ e) (hpost : impl.Succeeds)
    (hsb : s.beginOp = G.root) (hse : s.endOp = e) (hnop : (ops₀ s.beginOp).body = .nop)
    {n : Nat} {x : System σ} (h : SysInv G ops₀ e n x) (huser : x.proc.user = [])
    (hrun : x.proc.running = false) :
    (∃ x', PostReturns impl s x x') ∧
      ∀ x', PostReturns impl s x x' →
        BeginPosted s x' (ffschedulePostCode impl s x.env x.proc) := by
  have hquiet : Quiet G ops₀ e x.proc := by
    rcases h with ⟨hq, _⟩ | ⟨a, hr, _⟩
    · exact hq
    · exact absurd hr.running (by simp [hrun])
  obtain ⟨hopt, hbody⟩ := hquiet.begin_facts W hsb hnop
  set env' := if s.postCallback.isSome then impl.postCallback x.env else x.env with henv
  set q : Proc := { x.proc with user := [.post s.beginOp], log := [], running := true } with hq
  have hy : sysStep impl s x (.proc .post) = some ⟨env', q⟩ := by
    simp only [sysStep, procStep, ffschedulePost, huser, hrun, and_self, if_true,
      Option.map_some, henv, hq]
  constructor
  · obtain ⟨m, hm, _⟩ := h.step W hpost hsb hse hy
    obtain ⟨k, x', hx', hret⟩ := hm.user_returns W hpost hsb hse
    refine ⟨x', k, ?_, hret⟩
    rw [run_cons_eq_some]
    exact ⟨_, hy, hx'⟩
  · rintro x' ⟨k, hr, hret⟩
    constructor
    · simp only [ffschedulePostCode, ffopPostCode, hopt, Bool.false_eq_true, and_false, if_false,
        implPost_nop_of_posting hbody]
    · obtain ⟨y, hy', hrest⟩ := run_cons_eq_some.mp hr
      obtain rfl := Option.some.inj (hy.symm.trans hy')
      cases k with
      | zero =>
          -- the call has not returned before `ffop_post(begin_op)` has run
          obtain rfl : _ = x' := by simpa using hrest
          simp [hq] at hret
      | succ k =>
          obtain ⟨z, hz, hrest'⟩ := run_cons_eq_some.mp hrest
          have hframe : frameStep impl .user env' q =
              some (env', (q.logPosting s.beginOp).setStack [.complete s.beginOp] .user) := by
            have hpostq := ffopPost_of_completed (e := env') (p := q) impl hopt
              (congrArg Prod.snd (implPost_nop_of_posting hbody))
            rw [implPost_nop_of_posting (p := q) hbody] at hpostq
            simp only [frameStep, Proc.stack, hq] at hpostq ⊢
            simp only [runFrame, hpostq, List.append_nil]
          simp only [sysStep, procStep, hframe, Option.map_some, Option.some.injEq] at hz
          refine mem_log_of_frames ?_ hrest'
          rw [← hz]
          simp [Proc.logPosting, hq]

end Return

theorem ffallreduce_postCallback {a : AllreduceArgs} {l₀ l : Lib} {s : FfSchedule}
    (hbuild : ffallreduce maxDeps a l₀ = some (s, l)) (hprov : a.buffersProvided = true) :
    s.postCallback = some .ffallreducePostCheck := by
  rw [(allreduceBuilt (by decide) hbuild).callback_eq]
  simp [ffallreduceSetup, hprov, ffscheduleSetDeleteCallback, ffscheduleSetState,
    ffscheduleSetPostCallback]

/-- A call of `ffschedule_post` for the schedule of an allreduce, in any state between two
rounds. -/
theorem ffallreduce_posts_begin (ops : Int → α → α → α) (sync : Bool) (i : Nat)
    {a : AllreduceArgs} {l₀ l : Lib} {s : FfSchedule}
    (hbuild : ffallreduce maxDeps a l₀ = some (s, l)) {env₀ : Env α} {x : System (Env α)}
    (hx : Reachable (sysStep (mpiImpl ops sync s.state i) s) ⟨env₀, Proc.init l.ops⟩ x)
    (huser : x.proc.user = []) (hrun : x.proc.running = false) :
    (∃ x', PostReturns (mpiImpl ops sync s.state i) s x x') ∧
      ∀ x', PostReturns (mpiImpl ops sync s.state i) s x x' →
        BeginPosted s x' (ffschedulePostCode (mpiImpl ops sync s.state i) s x.env x.proc) := by
  have hbuilt := (allreduceBuilt (by decide) hbuild).built
  have hpost := mpiImpl_succeeds ops sync s.state i
  obtain ⟨n, hn⟩ := sysInv_of_reachable hbuilt.wired hpost rfl rfl hx
  exact post_posts_begin hbuilt.wired hpost rfl rfl hbuilt.schedOps.begin_nop hn huser hrun

/-- **Rejected posts.**  The schedule has been built by `ffallreduce` with `FFCOLL_BUFFERS`,
any number of rounds, resizes and messages have followed, and at a call of
`ffschedule_post` the check returns `FFINVALID_ARG`.  The check itself changes nothing; the
call returns, but never with the error, and never without having posted `begin_op`. -/
theorem rejectedPost_never (ops : Int → α → α → α) (sync : Bool) (i : Nat)
    {a : AllreduceArgs} {l₀ l : Lib} {s : FfSchedule} {st : AllreduceState}
    (hbuild : ffallreduce maxDeps a l₀ = some (s, l)) (hprov : a.buffersProvided = true)
    (hst : s.state = some st) {env₀ : Env α} {x : System (Env α)}
    (hx : Reachable (sysStep (mpiImpl ops sync s.state i) s) ⟨env₀, Proc.init l.ops⟩ x)
    (huser : x.proc.user = []) (hrun : x.proc.running = false)
    (hcheck : (x.env i).postCheckCode st = ffInvalidArg) :
    s.postCallback = some .ffallreducePostCheck ∧
      (mpiImpl ops sync s.state i).postCallback x.env = x.env ∧
      (∃ x', PostReturns (mpiImpl ops sync s.state i) s x x') ∧
      ∀ x', PostReturns (mpiImpl ops sync s.state i) s x x' →
        BeginPosted s x' (ffschedulePostCode (mpiImpl ops sync s.state i) s x.env x.proc) ∧
          ¬ NoEffect x x' (ffschedulePostCode (mpiImpl ops sync s.state i) s x.env x.proc) := by
  obtain ⟨hret, hall⟩ := ffallreduce_posts_begin ops sync i hbuild hx huser hrun
  refine ⟨ffallreduce_postCallback hbuild hprov, ?_, hret, fun x' hx' =>
    ⟨hall x' hx', fun hno => hno.posts_none _ (hall x' hx').posting⟩⟩
  simp only [mpiImpl, hst, Env.modify, RankEnv.postCheck_of_invalid hcheck,
    Function.update_eq_self]

/-! ### One process that has resized its receive buffer -/

/-- An allreduce of one process with the buffers of the user. -/
def buffersArgs : AllreduceArgs where
  csize := 1
  rank := 0
  sndbuff := some 1
  rcvbuff := 2
  count := 1
  tag := 0
  operator := 0
  datatype := 0
  options := ffcollBuffers

/-- The two buffers, before `ffallreduce`. -/
def buffersLib : Lib := (ffbufferCreate 1 0 (ffbufferCreate 1 0 Lib.init).2).2

/-- The receive buffer has been resized to two elements. -/
def resizedEnv : Env Nat := fun _ =>
  RankEnv.resize 2 2 0
    { mem := fun _ _ => 0
      buffs := buffersLib.buffs
      stateCount := 1
      out := fun _ _ => []
      inc := fun _ _ => []
      req := fun _ => 0
      round := 0 }

theorem buffersArgs_built :
    ∃ s l, ffallreduce maxDeps buffersArgs buffersLib = some (s, l) ∧
      s.state = some (ffallreduceSetup buffersArgs buffersLib).1 ∧
      (resizedEnv 0).postCheckCode (ffallreduceSetup buffersArgs buffersLib).1 =
        ffInvalidArg := by
  have h : (ffallreduce maxDeps buffersArgs buffersLib).isSome = true := by
    rw [ffallreduce_isSome_iff _ _ (by decide), activeBits_of_rank_zero rfl, List.length_range]
    decide
  obtain ⟨⟨s, l⟩, hbuild⟩ := Option.isSome_iff_exists.mp h
  exact ⟨s, l, hbuild, (allreduceBuilt (by decide) hbuild).state_eq, by decide⟩

theorem rejectedPost_never_resized :
    ∃ s l st, ffallreduce maxDeps buffersArgs buffersLib = some (s, l) ∧ s.state = some st ∧
      (resizedEnv 0).postCheckCode st = ffInvalidArg ∧
      ∃ x', PostReturns (mpiImpl (fun _ => (· + ·)) false s.state 0) s
          ⟨resizedEnv, Proc.init l.ops⟩ x' ∧
        ¬ NoEffect ⟨resizedEnv, Proc.init l.ops⟩ x' (ffschedulePostCode
          (mpiImpl (fun _ => (· + ·)) false s.state 0) s resizedEnv (Proc.init l.ops)) := by
  obtain ⟨s, l, hbuild, hst, hcheck⟩ := buffersArgs_built
  have hinit : Reachable (sysStep (mpiImpl (fun _ => (· + ·)) false s.state 0) s)
      ⟨resizedEnv, Proc.init l.ops⟩ ⟨resizedEnv, Proc.init l.ops⟩ := Reachable.refl _
  obtain ⟨_, _, ⟨x', hx'⟩, hall⟩ := rejectedPost_never (fun _ => (· + ·)) false 0 hbuild
    (by decide) hst hinit rfl rfl hcheck
  exact ⟨s, l, _, hbuild, hst, hcheck, x', hx', (hall x' hx').2⟩

/-- The allreduce of one process is posted although its buffers differ in count. -/
theorem rejectedPost_fails :
    ¬ ∀ (ops : Int → Nat → Nat → Nat) (sync : Bool) (i : Nat) (a : AllreduceArgs)
      (l₀ l : Lib) (s : FfSchedule) (st : AllreduceState) (env₀ : Env Nat)
      (x x' : System (Env Nat)),
      ffallreduce maxDeps a l₀ = some (s, l) → a.buffersProvided = true → s.state = some st →
      Reachable (sysStep (mpiImpl ops sync s.state i) s) ⟨env₀, Proc.init l.ops⟩ x →
      (x.env i).postCheckCode st = ffInvalidArg →
      PostReturns (mpiImpl ops sync s.state i) s x x' →
      NoEffect x x' (ffschedulePostCode (mpiImpl ops sync s.state i) s x.env x.proc) := by
  intro hall
  obtain ⟨s, l, hbuild, hst, hcheck⟩ := buffersArgs_built
  have hinit : Reachable (sysStep (mpiImpl (fun _ => (· + ·)) false s.state 0) s)
      ⟨resizedEnv, Proc.init l.ops⟩ ⟨resizedEnv, Proc.init l.ops⟩ := Reachable.refl _
  obtain ⟨⟨x', hx'⟩, hbegin⟩ := ffallreduce_posts_begin (fun _ => (· + ·)) false 0 hbuild hinit
    rfl rfl
  have hno := hall (fun _ => (· + ·)) false 0 _ _ _ _ _ _ _ _ hbuild (by decide) hst hinit
    hcheck hx'
  exact hno.posts_none _ (hbegin x' hx').posting

end Fflib
