import Fflib.RankStep

/-!
# The invariant of all ranks

`WorldInv` joins the invariant of the stacks of every rank (`Running`, `Quiet`)
with that of its memory and requests (`RoundInv`, `QuietInv`).  It is kept by every
step of the system, in any interleaving of the ranks, their threads and the network
(`WorldInv.step`); `rankLoad` is a measure of what a rank still has to do.
-/

namespace Fflib

open Library

universe u

variable {α : Type u}

namespace Ranks

variable {J : Ranks α} {cap : Nat} (hB : J.Builds cap)

/-- One rank: `none` between two rounds, else the execution of the round. -/
def RankInv {i : Nat} (hi : i < J.csize) (p : Proc) (loaded : Bool) (E : RankEnv α) :
    Option (Progress Nat) → Prop
  | none =>
      Quiet (hB.graph hi) (J.build cap i).2.ops ((J.lib₀ i).opid + 1) p ∧
        J.QuietInv i loaded E
  | some a =>
      Running (hB.graph hi) (J.build cap i).2.ops ((J.lib₀ i).opid + 1) p a ∧
        J.RoundInv i a.phase E ∧ loaded = false

/-- All ranks. -/
def WorldInv (w : World α) (s : Nat → Option (Progress Nat)) : Prop :=
  ∀ i, ∀ hi : i < J.csize, RankInv hB hi (w.procs i) (w.loaded i) (w.env i) (s i)

/-- What a rank still has to do in the round it is in, or is about to start. -/
def rankLoad {i : Nat} (hi : i < J.csize) (p : Proc) (loaded : Bool) :
    Option (Progress Nat) → Nat
  | none =>
      2 * (hB.graph hi).work (hB.graph hi).start + p.frames.length +
        (if loaded then 2 else 3)
  | some a => load (hB.graph hi) p a

section Chan

variable {hB} {i j : Nat} {hi : i < J.csize} {p : Proc} {loaded : Bool} {E : RankEnv α}
  {r : Option (Progress Nat)}

theorem RankInv.chan (h : RankInv hB hi p loaded E r) : ∃ q, J.ChanInv i q E := by
  cases r with
  | none => exact ⟨_, h.2.chan⟩
  | some a => exact ⟨_, h.2.1.chan⟩

theorem RankInv.readSend (h : RankInv hB hi p loaded E r) (j m : Nat) :
    RankInv hB hi p loaded (E.readSend j J.tag m) r := by
  cases r with
  | none => exact ⟨h.1, h.2.readSend j m⟩
  | some a => exact ⟨h.1, h.2.1.readSend (hB.order hi h.1.sound) j m, h.2.2⟩

theorem RankInv.deliver (h : RankInv hB hi p loaded E r) (j m : Nat)
    (sent : Option (SendReq α))
    (hsent : ∀ (k b : Nat) e v, (J.bits i)[k]? = some b → j = i ^^^ 2 ^ b → sent = some e →
      e.payload = some v → e.count = J.n ∧ ∀ x, x < J.n → v x = J.value m b j x) :
    RankInv hB hi p loaded (E.deliver j J.tag m sent) r := by
  cases r with
  | none => exact ⟨h.1, h.2.deliver j m hsent⟩
  | some a => exact ⟨h.1, h.2.1.deliver j m hsent, h.2.2⟩

/-- The partner of an iteration has the same iteration. -/
theorem partner_bit {k b : Nat} (hi : i < J.csize) (hk : (J.bits i)[k]? = some b) :
    ∃ k' : Nat, (J.bits (i ^^^ 2 ^ b))[k']? = some b := by
  have hmem : b ∈ J.bits (i ^^^ 2 ^ b) :=
    J.mem_bits.mpr ⟨(bit_mem hk).1, by rwa [xor_two_pow_cancel]⟩
  exact List.mem_iff_getElem?.mp hmem

end Chan

section Frame

variable {hB} {i : Nat} {hi : i < J.csize} {p : Proc} {a a' : Progress Nat}
  {sync : Bool} {env env' : Env α}

/-- The phases after a frame that posts nothing. -/
theorem setPhase_congr {v : Nat} {q : Phase} (hv : v < (J.lib₀ i).opid + 2)
    (hne : a.phase v ≠ .inflight) (hq : q ≠ .inflight) {E : RankEnv α}
    (h : J.RoundInv i a.phase E) : J.RoundInv i (a.setPhase v q).phase E := by
  refine h.congr (fun w hw => ?_) (fun w => ?_)
  · rw [setPhase_phase, if_neg (by omega)]
  · rw [setPhase_phase]
    split
    · next hwv => rw [hwv]; exact iff_of_false hq hne
    · exact Iff.rfl

/-- The handler of an operation that is then in flight is that of a send or a receive. -/
theorem RoundInv.pendingFrame
    (hr : Running (hB.graph hi) (J.build cap i).2.ops ((J.lib₀ i).opid + 1) p a)
    (h : J.RoundInv i a.phase (env i)) {v : Nat} {o : Ffop} (hv : a.phase v = .triggered)
    (hbody : o.body = ((J.build cap i).2.ops v).body)
    (hp : implPost (J.impl cap sync i) v o env = (env', ffSuccess)) :
    J.RoundInv i (a.setPhase v .inflight).phase (env' i) := by
  have hmem := hr.sound.mem_verts (v := v) (by simp [hv])
  cases hB.role hi hmem with
  | begin hvb =>
      rw [hvb, hB.body_begin hi] at hbody
      rw [impl, implPost_nop hbody] at hp
      cases (Prod.mk.inj hp).2
  | «end» hve =>
      rw [hve, hB.body_end hi] at hbody
      rw [impl, implPost_nop hbody] at hp
      cases (Prod.mk.inj hp).2
  | acc t ht hvt =>
      cases t with
      | zero =>
          rw [hvt, hB.body_move hi] at hbody
          split at hbody
          · rw [impl, implPost_nop hbody] at hp
            cases (Prod.mk.inj hp).2
          · rw [impl, implPost_comp _ _ _ _ _ _ hbody] at hp
            cases (Prod.mk.inj hp).2
      | succ k =>
          rw [hvt, hB.body_comp hi (List.getElem?_eq_getElem ht)] at hbody
          rw [impl, implPost_comp _ _ _ _ _ _ hbody] at hp
          cases (Prod.mk.inj hp).2
  | send k b hk hvk =>
      subst hvk
      rw [hB.body_send hi hk] at hbody
      rw [impl, implPost_send _ _ _ _ _ _ hbody] at hp
      obtain rfl := (Prod.mk.inj hp).1
      rw [Env.modify_self]
      exact h.isend hk hv
  | recv k b hk hvk =>
      subst hvk
      rw [hB.body_recv hi hk] at hbody
      rw [impl, implPost_recv _ _ _ _ _ _ hbody] at hp
      obtain rfl := (Prod.mk.inj hp).1
      rw [Env.modify_self]
      exact h.irecv hk hv

/-- The handler of an operation that is completed at once is that of a computation, or none. -/
theorem RoundInv.postedFrame
    (hr : Running (hB.graph hi) (J.build cap i).2.ops ((J.lib₀ i).opid + 1) p a)
    (h : J.RoundInv i a.phase (env i)) {v : Nat} {o : Ffop} (hv : a.phase v = .triggered)
    (hbody : o.body = ((J.build cap i).2.ops v).body)
    (hp : implPost (J.impl cap sync i) v o env = (env', ffCompleted)) :
    J.RoundInv i (a.setPhase v .completing).phase (env' i) := by
  have ho := hB.order hi hr.sound
  have hmem := hr.sound.mem_verts (v := v) (by simp [hv])
  cases hB.role hi hmem with
  | begin hvb =>
      rw [hvb, hB.body_begin hi] at hbody
      rw [impl, implPost_nop hbody] at hp
      obtain rfl := (Prod.mk.inj hp).1
      exact setPhase_congr (by omega) (by simp [hv]) (by simp) h
  | «end» hve =>
      rw [hve, hB.body_end hi] at hbody
      rw [impl, implPost_nop hbody] at hp
      obtain rfl := (Prod.mk.inj hp).1
      exact setPhase_congr (by omega) (by simp [hv]) (by simp) h
  | acc t ht hvt =>
      subst hvt
      cases t with
      | zero =>
          rw [hB.body_move hi] at hbody
          split at hbody
          · next hin =>
              rw [impl, implPost_nop hbody] at hp
              obtain rfl := (Prod.mk.inj hp).1
              exact h.moveInPlace ho hin hv
          · rw [impl, implPost_comp _ _ _ _ _ _ hbody] at hp
            obtain rfl := (Prod.mk.inj hp).1
            rw [Env.modify_self]
            exact h.move ho hv
      | succ k =>
          have hk := List.getElem?_eq_getElem ht
          rw [hB.body_comp hi hk] at hbody
          rw [impl, implPost_comp _ _ _ _ _ _ hbody] at hp
          obtain rfl := (Prod.mk.inj hp).1
          rw [Env.modify_self]
          exact h.comp ho hk hv
  | send k b hk hvk =>
      rw [hvk, hB.body_send hi hk] at hbody
      rw [impl, implPost_send _ _ _ _ _ _ hbody] at hp
      cases (Prod.mk.inj hp).2
  | recv k b hk hvk =>
      rw [hvk, hB.body_recv hi hk] at hbody
      rw [impl, implPost_recv _ _ _ _ _ _ hbody] at hp
      cases (Prod.mk.inj hp).2

/-- One frame of a cascade, as far as the memory and the requests go. -/
theorem RoundInv.frame
    (hr : Running (hB.graph hi) (J.build cap i).2.ops ((J.lib₀ i).opid + 1) p a)
    (h : J.RoundInv i a.phase (env i))
    (he : FrameEffect (J.impl cap sync i) (hB.graph hi) (J.build cap i).2.ops env a env' a') :
    J.RoundInv i a'.phase (env' i) := by
  cases he with
  | pending hv hbody hp => exact h.pendingFrame hr hv hbody hp
  | posted hv hbody hp => exact h.postedFrame hr hv hbody hp
  | @complete v hv =>
      refine h.congr (fun w _ => ?_) (fun w => ?_)
      · rw [finish_phase]
        split
        · next hwv => rw [hwv, hv]; rfl
        · rfl
      · rw [finish_phase]
        split
        · next hwv => rw [hwv, hv]; simp
        · exact Iff.rfl
  | @fire v k hv hk =>
      have hidle := (hr.sound.target_idle hv hk).1
      refine h.congr (fun w _ => ?_) (fun w => ?_)
      · rw [fire_phase hv hidle]
        split
        · next hwv => rw [hwv, hv]; rfl
        · split
          · next hwd => rw [hwd.1, hidle]; rfl
          · rfl
      · rw [fire_phase hv hidle]
        split
        · next hwv => rw [hwv, hv]; simp
        · split
          · next hwd => rw [hwd.1, hidle]; simp
          · exact Iff.rfl
  | pop => exact h

/-- A rank enters a round: the callback, where there is one, checks the sizes of the buffers
of the state. -/
theorem QuietInv.enter (h : J.QuietInv i true (env i))
    (henv : env' = if (J.build cap i).1.postCallback.isSome then
      (J.impl cap sync i).postCallback (env.modify i RankEnv.enterRound)
      else env.modify i RankEnv.enterRound) :
    (∀ j, j ≠ i → env' j = env j) ∧ (env' i).round = (env i).round + 1 ∧
      J.RoundInv i (hB.graph hi).start.phase (env' i) := by
  have hstart : ∀ v, ((hB.graph hi).start.phase v).isStarted = false := by
    intro v
    simp only [DepGraph.start, Function.update_apply]
    split <;> rfl
  rw [(hB.built hi).callback_eq, (J.setup_buffers i).1.callback_eq] at henv
  by_cases hprov : (J.args i).buffersProvided = true
  · have hstate : (J.build cap i).1.state = some (J.state i) := (hB.built hi).state_eq
    rw [if_pos hprov] at henv
    simp only [impl, mpiImpl, hstate] at henv
    obtain ⟨hmem, hout, hinc, hround⟩ := postCheck_mem (J.state i) (env i).enterRound
    have hbuff := h.buff.postCheck (E := (env i).enterRound)
    have henvi : env' i = (env i).enterRound.postCheck (J.state i) := by
      rw [henv, Env.modify_self, Env.modify_self]
    refine ⟨fun j hj => ?_, ?_, ?_⟩
    · rw [henv, Env.modify_of_ne hj, Env.modify_of_ne hj]
    · rw [henvi, hround]; rfl
    · rw [henvi]
      exact h.post rfl hstart hmem hout hinc hround hbuff.1 hbuff.2
  · rw [if_neg hprov] at henv
    refine ⟨fun j hj => ?_, ?_, ?_⟩
    · rw [henv, Env.modify_of_ne hj]
    · rw [henv, Env.modify_self]; rfl
    · rw [henv, Env.modify_self]
      exact h.post rfl hstart rfl rfl rfl rfl h.buff (h.buff.own_le (by simpa using hprov))

/-- A frame of rank `i` leaves the other ranks alone, and the round of rank `i`. -/
theorem frame_env {t : Thread} {p' : Proc}
    (hs : frameStep (J.impl cap sync i) t env p = some (env', p')) :
    (∀ j, j ≠ i → env' j = env j) ∧ (env' i).round = (env i).round := by
  rcases frameStep_env hs with rfl | ⟨x, o, rfl⟩
  · exact ⟨fun _ _ => rfl, rfl⟩
  · exact implPost_frame J.ops sync (J.build cap i).1.state i x env

end Frame

section World

variable {hB} {w w' : World α} {s : Nat → Option (Progress Nat)} {i : Nat}

namespace WorldInv

variable (h : WorldInv hB w s)
include h

/-- What a send carries, wherever it is in its queue. -/
theorem payload (hi : i < J.csize) {k b m : Nat} {e : SendReq α} {v : Nat → α}
    (hk : (J.bits i)[k]? = some b)
    (he : ((w.env (i ^^^ 2 ^ b)).out i J.tag)[m]? = some e) (hv : e.payload = some v) :
    e.count = J.n ∧ ∀ x, x < J.n → v x = J.value m b (i ^^^ 2 ^ b) x := by
  obtain ⟨k', hk'⟩ := partner_bit hi hk
  obtain ⟨q, hchan⟩ := (h (i ^^^ 2 ^ b) (bit_mem hk).2).chan
  have hsend := hchan.send k' b hk'
  have he' : ((w.env (i ^^^ 2 ^ b)).out ((i ^^^ 2 ^ b) ^^^ 2 ^ b) J.tag)[m]? = some e := by
    rw [xor_two_pow_cancel]
    exact he
  exact ⟨(hsend.posted m e he').2.2, hsend.payload m e v he' hv⟩

/-- Only rank `i` changes. -/
theorem update (hi : i < J.csize) {r : Option (Progress Nat)}
    (hne : ∀ j, j ≠ i →
      w'.procs j = w.procs j ∧ w'.loaded j = w.loaded j ∧ w'.env j = w.env j)
    (hr : RankInv hB hi (w'.procs i) (w'.loaded i) (w'.env i) r) :
    WorldInv hB w' (Function.update s i r) := by
  intro j hj
  by_cases hji : j = i
  · subst hji
    rw [Function.update_self]
    exact hr
  · obtain ⟨h1, h2, h3⟩ := hne j hji
    rw [Function.update_of_ne hji, h1, h2, h3]
    exact h j hj

/-- The network reads the buffer of a send. -/
theorem readSend (i j m : Nat) :
    WorldInv hB { w with env := Fflib.readSend i j J.tag m w.env } s := by
  intro l hl
  by_cases hli : l = i
  · subst hli
    simpa [Fflib.readSend] using (h l hl).readSend j m
  · simpa [Fflib.readSend, Env.modify_of_ne hli] using h l hl

/-- The network delivers a message. -/
theorem deliver (i j m : Nat) :
    WorldInv hB { w with env := Fflib.deliver i j J.tag m w.env } s := by
  intro l hl
  by_cases hli : l = i
  · subst hli
    have := (h l hl).deliver j m ((w.env j).out l J.tag)[m]?
      (fun k b e v hk hj he hv => by
        subst hj
        exact h.payload hl hk he hv)
    simpa [Fflib.deliver] using this
  · simpa [Fflib.deliver, Env.modify_of_ne hli] using h l hl

end WorldInv

/-- Nothing has been posted. -/
theorem worldInv_initial : WorldInv hB (J.initial cap) (fun _ => none) := by
  intro i hi
  have hbuff := (J.setup_buffers i).2
  rw [← (hB.built hi).buffs_eq] at hbuff
  refine ⟨(hB.wired hi).quiet_init, ⟨⟨fun k b _ => ?_, fun k b _ => ?_, fun _ _ => ⟨rfl, rfl⟩⟩,
    hbuff, fun hl => ?_, fun _ hr => ?_⟩⟩
  · refine ⟨rfl, ?_, ?_, ?_, fun hq => by cases hq⟩ <;> intro m e <;> simp [initial]
  · refine ⟨rfl, ?_, ?_, ?_, fun hq => by cases hq⟩ <;> intro m e <;> simp [initial]
  · cases hl
  · exact absurd hr (lt_irrefl 0)

/-- Rank `i` has moved, to the execution `r`. -/
structure Moved (hB : J.Builds cap) (s : Nat → Option (Progress Nat)) (i : Nat)
    (r : Option (Progress Nat)) (w w' : World α) : Prop where
  inv : WorldInv hB w' (Function.update s i r)
  procs : ∀ j, j ≠ i → w'.procs j = w.procs j
  loaded : ∀ j, j ≠ i → w'.loaded j = w.loaded j
  round : ∀ j, j ≠ i → (w'.env j).round = (w.env j).round

namespace WorldInv

variable (h : WorldInv hB w s) {sync : Bool} {K : Nat}
include h

/-- Step lemma: the user sets the inputs. -/
theorem setStep {scratch : Nat → α}
    (hs : worldStep J cap sync K w (.set i scratch) = some w') :
    s i = none ∧ Moved hB s i none w w' ∧ (w'.env i).round = (w.env i).round ∧
      w'.procs i = w.procs i ∧ w'.loaded i = true := by
  simp only [worldStep] at hs
  split at hs
  · next hc =>
      obtain ⟨hi, hrun, _⟩ := hc
      obtain rfl := Option.some.inj hs
      have hnone : s i = none := by
        cases hsi : s i with
        | none => rfl
        | some a =>
            have hr := h i hi
            rw [hsi] at hr
            rw [hr.1.running] at hrun
            cases hrun
      have hq := h i hi
      rw [hnone] at hq
      have hother : ∀ j, j ≠ i → (w.env.modify i (J.setInputs i scratch)) j = w.env j :=
        fun j hj => Env.modify_of_ne hj _ _
      refine ⟨hnone, ⟨h.update hi (fun j hj => ⟨rfl, ?_, hother j hj⟩) ?_, fun _ _ => rfl,
        fun j hj => ?_, fun j hj => ?_⟩, ?_, rfl, ?_⟩
      · simp [hj]
      · simpa [RankInv] using ⟨hq.1, hq.2.set scratch⟩
      · simp [hj]
      · exact congrArg RankEnv.round (hother j hj)
      · simp [setInputs]
      · simp
  · cases hs

/-- Step lemma: `ffschedule_post`. -/
theorem postStep (hs : worldStep J cap sync K w (.proc i .post) = some w') :
    ∃ hi : i < J.csize, s i = none ∧ w.loaded i = true ∧
      Moved hB s i (some (hB.graph hi).start) w w' ∧
      (w'.env i).round = (w.env i).round + 1 ∧
      (w'.procs i).frames.length = (w.procs i).frames.length + 1 := by
  simp only [worldStep] at hs
  split at hs
  · next hc =>
      obtain ⟨hi, hloaded, _⟩ := hc
      obtain ⟨⟨env', p'⟩, hp, rfl⟩ := Option.map_eq_some_iff.mp hs
      have hnone : s i = none := by
        cases hsi : s i with
        | none => rfl
        | some a =>
            have hr := h i hi
            rw [hsi] at hr
            simp [ffschedulePost, hr.1.running] at hp
      have hq := h i hi
      rw [hnone, hloaded] at hq
      obtain ⟨henv, hrun⟩ := hq.1.postStep (hB.wired hi) rfl hp
      obtain ⟨hother, hround, hinv⟩ := hq.2.enter henv
      have hframes : p'.frames.length = (w.procs i).frames.length + 1 := by
        obtain ⟨huser, _, _, rfl⟩ := ffschedulePost_eq_some hp
        simp [Proc.frames, huser, Nat.add_comm]
      refine ⟨hi, hnone, hloaded, ⟨h.update hi (fun j hj => ⟨?_, ?_, hother j hj⟩) ?_,
        fun j hj => ?_, fun j hj => ?_, fun j hj => ?_⟩, hround, ?_⟩
      · simp [hj]
      · simp [hj]
      · simpa [RankInv] using ⟨hrun, hinv⟩
      · simp [hj]
      · simp [hj]
      · exact congrArg RankEnv.round (hother j hj)
      · simpa using hframes
  · cases hs

/-- Step lemma: a frame of a cascade. -/
theorem frameStep {t : Thread}
    (hs : worldStep J cap sync K w (.proc i (.frame t)) = some w') :
    ∃ hi : i < J.csize, ∃ r, Moved hB s i r w w' ∧ r.isSome = (s i).isSome ∧
      (w'.env i).round = (w.env i).round ∧
      rankLoad hB hi (w'.procs i) (w'.loaded i) r <
        rankLoad hB hi (w.procs i) (w.loaded i) (s i) := by
  simp only [worldStep, procStep] at hs
  split at hs
  · next hi =>
      obtain ⟨⟨env', p'⟩, hp, rfl⟩ := Option.map_eq_some_iff.mp hs
      obtain ⟨hother, hround⟩ := frame_env hp
      have hr := h i hi
      have hmoved : ∀ r, RankInv hB hi p' (w.loaded i) (env' i) r → Moved hB s i r w
          { w with env := env', procs := Function.update w.procs i p' } := by
        intro r hr
        refine ⟨h.update hi (fun j hj => ⟨?_, rfl, hother j hj⟩) ?_, fun j hj => ?_,
          fun _ _ => rfl, fun j hj => ?_⟩
        · simp [hj]
        · simpa using hr
        · simp [hj]
        · simp only [hother j hj]
      cases hsi : s i with
      | none =>
          rw [hsi] at hr
          obtain ⟨rfl, hq, _, hlt⟩ := hr.1.frameStep (hB.wired hi) hp
          refine ⟨hi, none, hmoved none ⟨hq, hr.2⟩, rfl, rfl, ?_⟩
          simp only [rankLoad, Function.update_self]
          omega
      | some a =>
          rw [hsi] at hr
          obtain ⟨a', he, hrun, hlt⟩ := hr.1.frameStep (hB.wired hi)
            (mpiImpl_succeeds J.ops sync (J.build cap i).1.state i) hp
          refine ⟨hi, some a', hmoved (some a') ⟨hrun, RoundInv.frame hr.1 hr.2.1 he, hr.2.2⟩,
            rfl, hround, ?_⟩
          simpa only [rankLoad, Function.update_self] using hlt
  · cases hs

/-- The progress call finds a send completed. -/
theorem sendTest (hi : i < J.csize) {a : Progress Nat} (hsi : s i = some a) {k b : Nat}
    (hk : (J.bits i)[k]? = some b) (hx : a.phase (J.sendOp i k) = .inflight) {env' : Env α}
    (htest : (J.impl cap sync i).test (J.sendOp i k) ((w.procs i).ops (J.sendOp i k)) w.env =
      some env') :
    WorldInv hB { w with env := env' } s ∧ (∀ j, (env' j).round = (w.env j).round) ∧
      J.RoundInv i (a.setPhase (J.sendOp i k) .completing).phase (env' i) := by
  have hr := h i hi
  rw [hsi] at hr
  have hbody : ((w.procs i).ops (J.sendOp i k)).body = .send (i ^^^ 2 ^ b) J.tag (J.rb i) := by
    rw [(hr.1.same _).body_eq, hB.body_send hi hk]
  simp only [impl, mpiImpl, hbody] at htest
  split at htest
  · obtain rfl := Option.some.inj htest
    have hworld := h.readSend i (i ^^^ 2 ^ b) ((w.env i).req (J.sendOp i k))
    refine ⟨hworld, fun j => ?_, ?_⟩
    · by_cases hj : j = i
      · simp [hj, Fflib.readSend]
      · simp [Fflib.readSend, Env.modify_of_ne hj]
    · have hri := hworld i hi
      rw [hsi] at hri
      have hsend := hr.2.1.chan.send k b hk
      have hlen := hsend.len
      rw [hx] at hlen
      have hpos := hsend.pos hx
      obtain ⟨e, he, hread⟩ := RankEnv.readSend_read (w.env i) (i ^^^ 2 ^ b) J.tag
        ((w.env i).req (J.sendOp i k)) (by
          simp only [Phase.isStarted, if_true] at hlen
          omega)
      refine hri.2.1.sent hk hx (e := e) ?_ hread
      simpa [Fflib.readSend] using he
  · cases htest

/-- The progress call finds a receive completed. -/
theorem recvTest (hi : i < J.csize) {a : Progress Nat} (hsi : s i = some a) {k b : Nat}
    (hk : (J.bits i)[k]? = some b) (hx : a.phase (J.recvOp i k) = .inflight) {env' : Env α}
    (htest : (J.impl cap sync i).test (J.recvOp i k) ((w.procs i).ops (J.recvOp i k)) w.env =
      some env') :
    WorldInv hB { w with env := env' } s ∧ (∀ j, (env' j).round = (w.env j).round) ∧
      J.RoundInv i (a.setPhase (J.recvOp i k) .completing).phase (env' i) := by
  have hr := h i hi
  rw [hsi] at hr
  have hbody : ((w.procs i).ops (J.recvOp i k)).body =
      .recv (i ^^^ 2 ^ b) J.tag (J.tmp i k) := by
    rw [(hr.1.same _).body_eq, hB.body_recv hi hk]
  simp only [impl, mpiImpl, hbody] at htest
  split at htest
  · next hlt =>
      obtain rfl := Option.some.inj htest
      set m := (w.env i).req (J.recvOp i k) with hm
      have hworld := (h.readSend (i ^^^ 2 ^ b) i m).deliver i (i ^^^ 2 ^ b) m
      have hne : i ≠ i ^^^ 2 ^ b := xor_two_pow_ne.symm
      refine ⟨hworld, fun j => ?_, ?_⟩
      · by_cases hj : j = i
        · subst hj
          simp [Fflib.deliver, Fflib.readSend, Env.modify_of_ne hne]
        · by_cases hj' : j = i ^^^ 2 ^ b
          · subst hj'
            simp [Fflib.deliver, Fflib.readSend, Env.modify_of_ne hj]
          · simp [Fflib.deliver, Fflib.readSend, Env.modify_of_ne hj, Env.modify_of_ne hj']
      · have hri := hworld i hi
        rw [hsi] at hri
        have hrecv := hr.2.1.chan.recv k b hk
        have hlen := hrecv.len
        rw [hx] at hlen
        have hpos := hrecv.pos hx
        obtain ⟨e, he, hread⟩ := RankEnv.readSend_read (w.env (i ^^^ 2 ^ b)) i J.tag m hlt
        obtain ⟨r, hr', hdel⟩ := RankEnv.deliver_delivered (w.env i) (i ^^^ 2 ^ b)
          J.tag m _ (by
            simp only [Phase.isStarted, if_true] at hlen
            omega) he hread
        refine hri.2.1.received hk hx (e := r) ?_ hdel
        simpa [Fflib.deliver, Fflib.readSend, Env.modify_of_ne hne] using hr'
  · cases htest

/-- Step lemma: the progress thread finds a request completed. -/
theorem progressStep {x : Nat}
    (hs : worldStep J cap sync K w (.proc i (.progress x)) = some w') :
    ∃ hi : i < J.csize, ∃ a, (s i).isSome = true ∧ Moved hB s i (some a) w w' ∧
      (w'.env i).round = (w.env i).round ∧
      rankLoad hB hi (w'.procs i) (w'.loaded i) (some a) <
        rankLoad hB hi (w.procs i) (w.loaded i) (s i) := by
  simp only [worldStep, procStep] at hs
  split at hs
  · next hi =>
      obtain ⟨⟨env', p'⟩, hp, rfl⟩ := Option.map_eq_some_iff.mp hs
      have hr := h i hi
      cases hsi : s i with
      | none =>
          rw [hsi] at hr
          rw [hr.1.not_progressStep] at hp
          cases hp
      | some a =>
          rw [hsi] at hr
          obtain ⟨hx, htest, hrun, hlt⟩ := hr.1.progressStep hp
          obtain ⟨hinv, hrounds, hfin⟩ : WorldInv hB { w with env := env' } s ∧
              (∀ j, (env' j).round = (w.env j).round) ∧
              J.RoundInv i (a.setPhase x .completing).phase (env' i) := by
            obtain ⟨k, b, hk, rfl | rfl⟩ := hr.2.1.flight x hx
            · exact h.sendTest hi hsi hk hx htest
            · exact h.recvTest hi hsi hk hx htest
          refine ⟨hi, a.setPhase x .completing, rfl, ⟨?_, fun j hj => ?_, fun _ _ => rfl,
            fun j _ => hrounds j⟩, hrounds i, ?_⟩
          · refine hinv.update hi (fun j hj => ⟨?_, rfl, rfl⟩) ?_
            · simp [hj]
            · simpa using ⟨hrun, hfin, hr.2.2⟩
          · simp [hj]
          · simpa only [rankLoad, Function.update_self] using hlt
  · cases hs

/-- Step lemma: `ffschedule_wait` returns. -/
theorem waitStep (hs : worldStep J cap sync K w (.proc i .wait) = some w') :
    i < J.csize ∧ (s i).isSome = true ∧ Moved hB s i none w w' ∧ w'.loaded i = false ∧
      (w'.env i).round = (w.env i).round := by
  simp only [worldStep, procStep] at hs
  split at hs
  · next hi =>
      obtain ⟨⟨env', p'⟩, hp, rfl⟩ := Option.map_eq_some_iff.mp hs
      obtain ⟨p'', hw, heq⟩ := Option.map_eq_some_iff.mp hp
      obtain ⟨rfl, rfl⟩ := Prod.mk.inj heq
      have hr := h i hi
      cases hsi : s i with
      | none =>
          rw [hsi] at hr
          rw [hr.1.not_waitStep] at hw
          cases hw
      | some a =>
          rw [hsi] at hr
          obtain ⟨he, hq, _⟩ := hr.1.waitStep (hB.wired hi) (hB.built hi).end_eq hw
          have hquiet : J.QuietInv i false (w.env i) := by
            refine hr.2.1.quiet (fun v hlo hv => ?_)
            rw [hr.1.all_done (hB.wired hi) he ((hB.mem_verts hi).mpr ⟨by omega, hv⟩)]
            rfl
          refine ⟨hi, rfl, ⟨h.update hi (fun j hj => ⟨?_, rfl, rfl⟩) ?_, fun j hj => ?_,
            fun _ _ => rfl, fun _ _ => rfl⟩, hr.2.2, rfl⟩
          · simp [hj]
          · have hfalse := hr.2.2
            simpa [RankInv, hfalse] using ⟨hq, hquiet⟩
          · simp [hj]
  · cases hs

/-- Step lemma: every step keeps the invariant. -/
theorem step {act : WorldAct α} (hs : worldStep J cap sync K w act = some w') :
    ∃ s', WorldInv hB w' s' := by
  cases act with
  | set i scratch =>
      obtain ⟨_, hm, _⟩ := h.setStep hs
      exact ⟨_, hm.inv⟩
  | read i j k =>
      obtain rfl := Option.some.inj hs
      exact ⟨s, h.readSend i j k⟩
  | deliver i j k =>
      obtain rfl := Option.some.inj hs
      exact ⟨s, h.deliver i j k⟩
  | proc i act =>
      cases act with
      | post =>
          obtain ⟨_, _, _, hm, _⟩ := h.postStep hs
          exact ⟨_, hm.inv⟩
      | wait =>
          obtain ⟨_, _, hm, _⟩ := h.waitStep hs
          exact ⟨_, hm.inv⟩
      | frame t =>
          obtain ⟨_, _, hm, _⟩ := h.frameStep hs
          exact ⟨_, hm.inv⟩
      | progress x =>
          obtain ⟨_, _, _, hm, _⟩ := h.progressStep hs
          exact ⟨_, hm.inv⟩

end WorldInv

/-- Run lemma. -/
theorem worldInv_of_reachable (hB : J.Builds cap) {sync : Bool} {K : Nat} {w : World α}
    (hw : Reachable (worldStep J cap sync K) (J.initial cap) w) : ∃ s, WorldInv hB w s := by
  refine hw.induction (fun v => ∃ s, WorldInv hB v s) ⟨_, worldInv_initial⟩
    (fun v act v' hv hs => ?_)
  obtain ⟨s, h⟩ := hv
  exact h.step hs

end World

end Ranks

end Fflib
