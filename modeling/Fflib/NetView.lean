import Fflib.NetRequests

/-!
# Processes without their stacks

A view of a program shows what its processes have done to memory and messages and, of
every rank that is in a round, the execution of its graph; the stacks of its two threads
and its pending list are left out.

* `ViewMove` are the moves of a view: one for everything that the code before a round, a
  handler, the engine or the network can do.
* `ViewOk` is the invariant of a view; `ViewOk.move` is its step lemma.
-/

namespace Fflib

open Library

universe u

variable {α : Type u} {n : Nat}

/-- Memory and messages, the ranks whose code before the next round has run, and the
executions of the rounds in progress. -/
structure View (α : Type u) (n : Nat) where
  env : Env α
  ready : Fin n → Bool
  exec : Fin n → Option (Progress Nat)

/-- Rank `i` goes on with its round as `a`. -/
def View.go (V : View α n) (i : Fin n) (env : Env α) (a : Progress Nat) : View α n where
  env := env
  ready := V.ready
  exec := Function.update V.exec i (some a)

namespace Net

variable (N : Net α n)

/-- The moves of a view. -/
inductive ViewMove (sync : Bool) (K : Nat) (V : View α n) : View α n → Prop
  | user {i : Fin n} (he : V.exec i = none) (hr : V.ready i = false) (hK : (V.env i).round < K) :
      ViewMove sync K V
        { V with
          env := V.env.modify i (N.runUser i)
          ready := Function.update V.ready i true }
  | enter {i : Fin n} (hr : V.ready i = true) :
      ViewMove sync K V
        { env := V.env.modify i RankEnv.nextRound
          ready := Function.update V.ready i false
          exec := Function.update V.exec i (some (N.graph i).start) }
  | leave {i : Fin n} {a : Progress Nat} (he : V.exec i = some a)
      (hd : ∀ v, v ∈ (N.graph i).verts → (a.phase v).isDone = true) :
      ViewMove sync K V { V with exec := Function.update V.exec i none }
  | isend {i : Fin n} {a : Progress Nat} {v peer tag b : Nat}
      (he : V.exec i = some a) (hv : a.phase v = .triggered)
      (hb : N.body i v = .send peer tag b) :
      ViewMove sync K V (V.go i
        (V.env.modify i (RankEnv.isendAt (N.ptr i) v peer tag b)) (a.setPhase v .inflight))
  | irecv {i : Fin n} {a : Progress Nat} {v peer tag b : Nat}
      (he : V.exec i = some a) (hv : a.phase v = .triggered)
      (hb : N.body i v = .recv peer tag b) :
      ViewMove sync K V (V.go i
        (V.env.modify i (RankEnv.irecvAt (N.ptr i) v peer tag b)) (a.setPhase v .inflight))
  | comp {i : Fin n} {a : Progress Nat} {v b1 b2 b3 : Nat} {operator : Int}
      (he : V.exec i = some a) (hv : a.phase v = .triggered)
      (hb : N.body i v = .comp b1 b2 b3 operator) :
      ViewMove sync K V (V.go i
        (V.env.modify i (RankEnv.gcompAt N.ops (N.ptr i) b1 b2 b3 operator))
          (a.setPhase v .completing))
  | nop {i : Fin n} {a : Progress Nat} {v : Nat}
      (he : V.exec i = some a) (hv : a.phase v = .triggered)
      (hb : N.body i v = .nop) : ViewMove sync K V (V.go i V.env (a.setPhase v .completing))
  | complete {i : Fin n} {a : Progress Nat} {v : Nat}
      (he : V.exec i = some a) (hv : a.phase v = .completing) :
      ViewMove sync K V (V.go i V.env ((N.graph i).finish a v))
  | fire {i : Fin n} {a : Progress Nat} {v j : Nat}
      (he : V.exec i = some a) (hv : a.phase v = .cascading j)
      (hj : j < (N.graph i).out v) :
      ViewMove sync K V (V.go i V.env ((N.graph i).fire a v j))
  | read (i j tag k : Nat) :
      ViewMove sync K V { V with env := readSend i j tag k V.env }
  | deliver (i j tag k : Nat) :
      ViewMove sync K V { V with env := deliver i j tag k V.env }
  | sent {i : Fin n} {a : Progress Nat} {v peer tag b : Nat}
      {c : Nat × (Nat → α)}
      (he : V.exec i = some a) (hv : a.phase v = .inflight)
      (hb : N.body i v = .send peer tag b)
      (hc : (V.env i).sentAt peer tag ((V.env i).req v) = some c)
      (hs : sync = false ∨ (V.env i).req v < ((V.env peer).inc i tag).length) :
      ViewMove sync K V (V.go i V.env (a.setPhase v .completing))
  | received {i : Fin n} {a : Progress Nat} {v peer tag b : Nat}
      (he : V.exec i = some a) (hv : a.phase v = .inflight)
      (hb : N.body i v = .recv peer tag b)
      (hc : (V.env i).ReceivedAt peer tag ((V.env i).req v)) :
      ViewMove sync K V (V.go i V.env (a.setPhase v .completing))

/-- The view of one rank. -/
structure RankOk (K : Nat) (i : Fin n) (E : RankEnv α) (ready : Bool)
    (r : Option (Progress Nat)) : Prop where
  sound : ∀ a, r = some a → (N.graph i).Sound a
  chan : N.ChanOk i (phaseOf r) E
  ready_ok : ready = true → r = none ∧ E.round < K
  round_pos : ∀ a, r = some a → 0 < E.round
  round_le : E.round ≤ K

/-- The invariant of a view. -/
structure ViewOk (K : Nat) (V : View α n) : Prop where
  rank : ∀ i, N.RankOk K i (V.env i) (V.ready i) (V.exec i)
  outside : ∀ i, n ≤ i → ∀ peer tag,
    (V.env i).out peer tag = [] ∧ (V.env i).inc peer tag = []
  backed : ∀ i j tag k, (V.env j).ReceivedAt i tag k → ∃ c, (V.env i).sentAt j tag k = some c

/-- All processes after they have built their schedules. -/
def start : View α n := ⟨N.initial.env, fun _ => false, fun _ => none⟩

theorem viewOk_start (K : Nat) : N.ViewOk K N.start where
  rank i :=
    { sound := fun _ ha => by cases ha
      chan :=
        { buffs_eq := rfl
          send := fun _ => by
            refine ⟨rfl, ?_, ?_, fun hin => by cases hin⟩ <;> intro m e he <;> cases he
          recv := fun _ => by
            refine ⟨rfl, ?_, ?_, fun hin => by cases hin⟩ <;> intro m e he <;> cases he
          no_send := fun _ => rfl
          no_recv := fun _ => rfl
          flight := fun _ hv => by cases hv }
      ready_ok := fun hr => by cases hr
      round_pos := fun _ ha => by cases ha
      round_le := Nat.zero_le K }
  outside _ _ _ _ := ⟨rfl, rfl⟩
  backed _ _ _ _ hr := by
    obtain ⟨_, he, _⟩ := hr
    cases he

variable {N} {K : Nat} {V V' : View α n} {i : Fin n} {E E' : RankEnv α} {ready : Bool}
  {a a' : Progress Nat} {v : Nat}

/-- A rank goes on with its round. -/
theorem RankOk.go (h : N.RankOk K i E ready (some a)) (hs : (N.graph i).Sound a')
    (hc : N.ChanOk i a'.phase E') (hr : E'.round = E.round) :
    N.RankOk K i E' ready (some a') where
  sound b hb := Option.some.inj hb ▸ hs
  chan := hc
  ready_ok hready := by
    obtain ⟨hnone, _⟩ := h.ready_ok hready
    cases hnone
  round_pos b _ := by
    rw [hr]
    exact h.round_pos a rfl
  round_le := by
    rw [hr]
    exact h.round_le

/-- Requests do not notice what neither starts nor completes an operation. -/
theorem RankOk.pass (h : N.RankOk K i E ready (some a)) (hs : (N.graph i).Sound a')
    (hstart : ∀ w, (a'.phase w).isStarted = (a.phase w).isStarted)
    (hflight : ∀ w, a'.phase w = .inflight ↔ a.phase w = .inflight) :
    N.RankOk K i E ready (some a') :=
  h.go hs (h.chan.congr rfl rfl rfl rfl rfl hstart hflight) rfl

namespace ViewOk

theorem rank_of (h : N.ViewOk K V) (he : V.exec i = some a) :
    N.RankOk K i (V.env i) (V.ready i) (some a) := he ▸ h.rank i

theorem sound (h : N.ViewOk K V) (he : V.exec i = some a) : (N.graph i).Sound a :=
  (h.rank i).sound a he

theorem mem_verts (h : N.ViewOk K V) (he : V.exec i = some a) (hv : a.phase v ≠ .idle) :
    v ∈ (N.graph i).verts := (h.sound he).mem_verts hv

/-- Only rank `i` moves, and the network does nothing for it. -/
theorem update (h : N.ViewOk K V) (henv : ∀ j : Nat, j ≠ i → V'.env j = V.env j)
    (hready : ∀ j, j ≠ i → V'.ready j = V.ready j) (hexec : ∀ j, j ≠ i → V'.exec j = V.exec j)
    (hr : N.RankOk K i (V'.env i) (V'.ready i) (V'.exec i))
    (hsent : (V'.env i).sentAt = (V.env i).sentAt)
    (hrec : (V'.env i).ReceivedAt = (V.env i).ReceivedAt) : N.ViewOk K V' where
  rank j := by
    by_cases hj : j = i
    · rw [hj]
      exact hr
    · rw [henv j (fun heq => hj (Fin.ext heq)), hready j hj, hexec j hj]
      exact h.rank j
  outside j hj := by
    rw [henv j (fun heq => by omega)]
    exact h.outside j hj
  backed j k tag m hm := by
    have hs : ∀ j : Nat, (V'.env j).sentAt = (V.env j).sentAt := by
      intro j
      by_cases hj : j = i
      · rw [hj, hsent]
      · rw [henv j hj]
    have hd : ∀ j : Nat, (V'.env j).ReceivedAt = (V.env j).ReceivedAt := by
      intro j
      by_cases hj : j = i
      · rw [hj, hrec]
      · rw [henv j hj]
    rw [hs]
    rw [hd] at hm
    exact h.backed j k tag m hm

/-- The same for a rank that is in a round. -/
theorem go {env : Env α} (h : N.ViewOk K V) (henv : ∀ j : Nat, j ≠ i → env j = V.env j)
    (hr : N.RankOk K i (env i) (V.ready i) (some a'))
    (hsent : (env i).sentAt = (V.env i).sentAt)
    (hrec : (env i).ReceivedAt = (V.env i).ReceivedAt) : N.ViewOk K (V.go i env a') := by
  refine h.update henv (fun _ _ => rfl) (fun j hj => ?_) ?_ hsent hrec
  · exact Function.update_of_ne hj _ _
  · simpa [View.go] using hr

/-- The code before a round runs. -/
theorem user (h : N.ViewOk K V) (he : V.exec i = none) (hK : (V.env i).round < K) :
    N.ViewOk K { V with
      env := V.env.modify i (N.runUser i)
      ready := Function.update V.ready i true } := by
  refine h.update (fun j hj => Env.modify_of_ne hj _ _) (fun j hj => ?_) (fun _ _ => rfl) ?_ ?_ ?_
  · exact Function.update_of_ne hj _ _
  · obtain ⟨h1, h2, _, h4, h5⟩ := h.rank i
    simp only [Env.modify_self, Function.update_self]
    exact ⟨h1, h2.congr rfl rfl rfl rfl rfl (fun _ => rfl) (fun _ => Iff.rfl),
      fun _ => ⟨he, hK⟩, h4, h5⟩
  · simp only [Env.modify_self]
    rfl
  · simp only [Env.modify_self]
    rfl

theorem start_not_started (G : DepGraph Nat) (v : Nat) : (G.start.phase v).isStarted = false := by
  simp only [DepGraph.start, Function.update_apply]
  split <;> rfl

/-- A round begins. -/
theorem enter (h : N.ViewOk K V) (hr : V.ready i = true) :
    N.ViewOk K
      { env := V.env.modify i RankEnv.nextRound
        ready := Function.update V.ready i false
        exec := Function.update V.exec i (some (N.graph i).start) } := by
  obtain ⟨hnone, hlt⟩ := (h.rank i).ready_ok hr
  have hchan := (h.rank i).chan
  rw [hnone] at hchan
  refine h.update (fun j hj => Env.modify_of_ne hj _ _) (fun j hj => ?_) (fun j hj => ?_) ?_ ?_ ?_
  · exact Function.update_of_ne hj _ _
  · exact Function.update_of_ne hj _ _
  · simp only [Env.modify_self, Function.update_self]
    refine ⟨fun b hb => ?_, hchan.nextRound (start_not_started _), fun hf => (by cases hf),
      fun _ _ => Nat.succ_pos _, hlt⟩
    obtain rfl := Option.some.inj hb
    exact (N.graph i).sound_start (N.built i).entered
  · simp only [Env.modify_self]
    rfl
  · simp only [Env.modify_self]
    rfl

/-- A round ends. -/
theorem leave (h : N.ViewOk K V) (he : V.exec i = some a)
    (hd : ∀ v, v ∈ (N.graph i).verts → (a.phase v).isDone = true) :
    N.ViewOk K { V with exec := Function.update V.exec i none } := by
  refine h.update (i := i) (fun _ _ => rfl) (fun _ _ => rfl) (fun j hj => ?_) ?_ rfl rfl
  · exact Function.update_of_ne hj _ _
  · obtain ⟨_, h2, h3, _, h5⟩ := h.rank_of he
    simp only [Function.update_self]
    refine ⟨fun _ hb => (by cases hb), ?_, fun hready => ?_, fun _ hb => (by cases hb), h5⟩
    · exact h2.done hd
    · obtain ⟨hnone, _⟩ := h3 hready
      cases hnone

/-- A send is posted. -/
theorem isend (hN : N.Channels) (h : N.ViewOk K V) (he : V.exec i = some a)
    (hv : a.phase v = .triggered) {peer tag b : Nat} (hb : N.body i v = .send peer tag b) :
    N.ViewOk K (V.go i (V.env.modify i (RankEnv.isendAt (N.ptr i) v peer tag b))
      (a.setPhase v .inflight)) := by
  have hmem := h.mem_verts he (v := v) (by simp [hv])
  refine h.go (fun j hj => Env.modify_of_ne hj _ _) ?_ ?_ ?_
  · rw [Env.modify_self]
    refine (h.rank_of he).go ?_ ?_ rfl
    · exact (h.sound he).setPhase (by simp [hv]) (by simp [hv, Phase.isDone]) (by simp) rfl
    · exact (h.rank_of he).chan.isend hN ⟨hmem, hb⟩ (by simp [phaseOf, hv, Phase.isStarted])
        (fun w => setPhase_phase v w _)
  · rw [Env.modify_self]
    exact RankEnv.isendAt_sentAt _ _ _ _ _ _
  · rw [Env.modify_self]
    rfl

/-- A receive is posted. -/
theorem irecv (hN : N.Channels) (h : N.ViewOk K V) (he : V.exec i = some a)
    (hv : a.phase v = .triggered) {peer tag b : Nat} (hb : N.body i v = .recv peer tag b) :
    N.ViewOk K (V.go i (V.env.modify i (RankEnv.irecvAt (N.ptr i) v peer tag b))
      (a.setPhase v .inflight)) := by
  have hmem := h.mem_verts he (v := v) (by simp [hv])
  refine h.go (fun j hj => Env.modify_of_ne hj _ _) ?_ ?_ ?_
  · rw [Env.modify_self]
    refine (h.rank_of he).go ?_ ?_ rfl
    · exact (h.sound he).setPhase (by simp [hv]) (by simp [hv, Phase.isDone]) (by simp) rfl
    · exact (h.rank_of he).chan.irecv hN ⟨hmem, hb⟩ (by simp [phaseOf, hv, Phase.isStarted])
        (fun w => setPhase_phase v w _)
  · rw [Env.modify_self]
    rfl
  · rw [Env.modify_self]
    exact RankEnv.irecvAt_receivedAt _ _ _ _ _ _

/-- An operation that is not a request is posted, and is completed at once. -/
theorem posted (h : N.ViewOk K V) (he : V.exec i = some a) (hv : a.phase v = .triggered)
    (hb : (N.body i v).isRequest = false) :
    N.RankOk K i (V.env i) (V.ready i) (some (a.setPhase v .completing)) := by
  refine (h.rank_of he).go ?_ ?_ rfl
  · exact (h.sound he).setPhase (by simp [hv]) (by simp [hv, Phase.isDone]) (by simp) rfl
  · exact (h.rank_of he).chan.posted hb (fun w => setPhase_phase v w _)

/-- An operation that has been posted is completed. -/
theorem complete (h : N.ViewOk K V) (he : V.exec i = some a) (hv : a.phase v = .completing) :
    N.ViewOk K (V.go i V.env ((N.graph i).finish a v)) := by
  refine h.go (fun _ _ => rfl) ((h.rank_of he).pass ((h.sound he).finish hv) ?_ ?_) rfl rfl
  · intro w
    rw [finish_phase]
    split
    · next hwv => rw [hwv, hv]; rfl
    · rfl
  · intro w
    rw [finish_phase]
    split
    · next hwv => rw [hwv, hv]; simp
    · exact Iff.rfl

/-- A completed operation fires an edge. -/
theorem fire (h : N.ViewOk K V) (he : V.exec i = some a) {j : Nat}
    (hv : a.phase v = .cascading j) (hj : j < (N.graph i).out v) :
    N.ViewOk K (V.go i V.env ((N.graph i).fire a v j)) := by
  have hidle := ((h.sound he).target_idle hv hj).1
  refine h.go (fun _ _ => rfl) ((h.rank_of he).pass ((h.sound he).fire hv hj) ?_ ?_) rfl rfl
  · intro w
    rw [fire_phase hv hidle]
    split
    · next hwv => rw [hwv, hv]; rfl
    · split
      · next hwd => rw [hwd.1, hidle]; rfl
      · rfl
  · intro w
    rw [fire_phase hv hidle]
    split
    · next hwv => rw [hwv, hv]; simp
    · split
      · next hwd => rw [hwd.1, hidle]; simp
      · exact Iff.rfl

/-- A request completes. -/
theorem finish (h : N.ViewOk K V) (he : V.exec i = some a) (hv : a.phase v = .inflight)
    (hread : ∀ (peer tag b : Nat) (e : SendReq α), N.Sends i v peer tag b →
      ((V.env i).out peer tag)[(V.env i).req v]? = some e → e.payload ≠ none)
    (hdel : ∀ (peer tag b : Nat) (e : RecvReq), N.Receives i v peer tag b →
      ((V.env i).inc peer tag)[(V.env i).req v]? = some e → e.delivered = true) :
    N.ViewOk K (V.go i V.env (a.setPhase v .completing)) := by
  refine h.go (fun _ _ => rfl) ((h.rank_of he).go ?_ ?_ rfl) rfl rfl
  · exact (h.sound he).setPhase (by simp [hv]) (by simp [hv, Phase.isDone]) (by simp) rfl
  · exact (h.rank_of he).chan.finish hv hread hdel (fun w => setPhase_phase v w _)

/-- The network reads a buffer. -/
theorem read (h : N.ViewOk K V) (i j tag k : Nat) :
    N.ViewOk K { V with env := readSend i j tag k V.env } := by
  have hne : ∀ l, l ≠ i → readSend i j tag k V.env l = V.env l :=
    fun l hl => Env.modify_of_ne hl _ _
  have hself : readSend i j tag k V.env i = (V.env i).readSend j tag k := Env.modify_self _ _ _
  refine ⟨fun l => ?_, fun l hl => ?_, fun s d t m hm => ?_⟩
  · obtain ⟨h1, h2, h3, h4, h5⟩ := h.rank l
    by_cases hl : (l : Nat) = i
    · simp only
      rw [hl, hself]
      rw [hl] at h2 h3 h4 h5
      exact ⟨h1, h2.readSend j tag k, by simpa using h3, by simpa using h4, by simpa using h5⟩
    · simp only [hne l hl]
      exact ⟨h1, h2, h3, h4, h5⟩
  · by_cases hli : l = i
    · subst hli
      simp only [hself]
      rcases (V.env l).readSend_cases j tag k with heq | ⟨e, he, _⟩
      · rw [heq]
        exact h.outside l hl
      · rw [(h.outside l hl j tag).1] at he
        cases he
    · simp only [hne l hli]
      exact h.outside l hl
  · have hrec : (V.env d).ReceivedAt s t m := by
      by_cases hd : d = i
      · subst hd
        simpa only [hself, RankEnv.ReceivedAt, RankEnv.readSend_inc] using hm
      · simpa only [hne d hd] using hm
    obtain ⟨c, hc⟩ := h.backed s d t m hrec
    by_cases hs : s = i
    · subst hs
      simp only [hself]
      exact (V.env s).sentAt_readSend_of_some j tag k hc
    · simp only [hne s hs]
      exact ⟨c, hc⟩

/-- The network delivers a message. -/
theorem deliver (h : N.ViewOk K V) (i j tag k : Nat) :
    N.ViewOk K { V with env := Fflib.deliver i j tag k V.env } := by
  have hne : ∀ l, l ≠ i → Fflib.deliver i j tag k V.env l = V.env l :=
    fun l hl => Env.modify_of_ne hl _ _
  have hself : Fflib.deliver i j tag k V.env i =
      (V.env i).deliver j tag k ((V.env j).out i tag)[k]? := Env.modify_self _ _ _
  refine ⟨fun l => ?_, fun l hl => ?_, fun s d t m hm => ?_⟩
  · obtain ⟨h1, h2, h3, h4, h5⟩ := h.rank l
    by_cases hl : (l : Nat) = i
    · simp only
      rw [hl, hself]
      rw [hl] at h2 h3 h4 h5
      exact ⟨h1, h2.deliver j tag k _, by simpa using h3, by simpa using h4, by simpa using h5⟩
    · simp only [hne l hl]
      exact ⟨h1, h2, h3, h4, h5⟩
  · by_cases hli : l = i
    · subst hli
      simp only [hself]
      rcases (V.env l).deliver_cases j tag k ((V.env j).out l tag)[k]? with
        heq | ⟨r, e, payload, hr, _⟩
      · rw [heq]
        exact h.outside l hl
      · rw [(h.outside l hl j tag).2] at hr
        cases hr
    · simp only [hne l hli]
      exact h.outside l hl
  · have hsent : (Fflib.deliver i j tag k V.env s).sentAt = (V.env s).sentAt := by
      by_cases hs : s = i
      · subst hs
        simp only [hself, RankEnv.sentAt_deliver]
      · simp only [hne s hs]
    rw [hsent]
    by_cases hd : d = i
    · subst hd
      simp only [hself] at hm
      rcases (V.env d).deliver_cases j tag k ((V.env j).out d tag)[k]? with
        heq | ⟨r, e, payload, hr, _, he, hp, heq⟩
      · rw [heq] at hm
        exact h.backed s d t m hm
      · rw [heq, RankEnv.receivedAt_deliver hr] at hm
        rcases hm with ⟨rfl, rfl, rfl⟩ | hm
        · exact ⟨_, RankEnv.sentAt_eq_some_iff.mpr ⟨e, payload, he, hp, rfl⟩⟩
        · exact h.backed s d t m hm
    · simp only [hne d hd] at hm
      exact h.backed s d t m hm

/-- **Step lemma**: every move keeps the invariant. -/
theorem move (hN : N.Channels) (h : N.ViewOk K V) {sync : Bool}
    (hm : N.ViewMove sync K V V') : N.ViewOk K V' := by
  cases hm with
  | user he _ hK => exact h.user he hK
  | enter hr => exact h.enter hr
  | leave he hd => exact h.leave he hd
  | isend he hv hb => exact h.isend hN he hv hb
  | irecv he hv hb => exact h.irecv hN he hv hb
  | @comp i a v b1 b2 b3 operator he hv hb =>
      refine h.go (fun j hj => Env.modify_of_ne hj _ _) ?_ ?_ ?_
      · rw [Env.modify_self]
        obtain ⟨h1, h2, h3, h4, h5⟩ := h.posted he hv (by rw [hb]; rfl)
        exact ⟨h1, h2.congr rfl rfl rfl rfl rfl (fun _ => rfl) (fun _ => Iff.rfl), h3, h4, h5⟩
      · rw [Env.modify_self]
        rfl
      · rw [Env.modify_self]
        rfl
  | nop he hv hb => exact h.go (fun _ _ => rfl) (h.posted he hv (by rw [hb]; rfl)) rfl rfl
  | complete he hv => exact h.complete he hv
  | fire he hv hj => exact h.fire he hv hj
  | read i j tag k => exact h.read i j tag k
  | deliver i j tag k => exact h.deliver i j tag k
  | @sent i a v peer tag b c he hv hb hc _ =>
      refine h.finish he hv (fun peer' tag' b' e hx hget => ?_) (fun peer' tag' b' e hy _ => ?_)
      · obtain ⟨rfl, rfl, rfl⟩ : peer = peer' ∧ tag = tag' ∧ b = b' := by
          simpa using hb.symm.trans hx.2
        obtain ⟨e', v', he', hp, _⟩ := RankEnv.sentAt_eq_some_iff.mp hc
        rw [hget] at he'
        rw [Option.some.inj he', hp]
        simp
      · have := hb.symm.trans hy.2
        cases this
  | @received i a v peer tag b he hv hb hc =>
      refine h.finish he hv (fun peer' tag' b' e hx _ => ?_) (fun peer' tag' b' e hy hget => ?_)
      · have := hb.symm.trans hx.2
        cases this
      · obtain ⟨rfl, rfl, rfl⟩ : peer = peer' ∧ tag = tag' ∧ b = b' := by
          simpa using hb.symm.trans hy.2
        obtain ⟨e', he', hd⟩ := hc
        rw [hget] at he'
        rw [Option.some.inj he', hd]

end ViewOk

end Net

end Fflib
