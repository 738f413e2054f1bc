import Fflib.Completion

/-!
# Which message a receive gets

By the non-overtaking rule the `m`-th receive from a partner gets the message of the
`m`-th send of that partner.  `Matched` says that this is the message of the same
round, although a rank may be several rounds ahead of its partner, and that its
contents are in the receive's buffer.

* `Fed` is the part of the invariant that spans two ranks: a message that has arrived
  was read from the buffer of its send before.
-/

namespace Fflib

open Library

universe u

variable {α : Type u}

/-- Messages that have been read stay, and no message arrives. -/
structure RankEnv.Grows (E E' : RankEnv α) : Prop where
  out : ∀ j tag (m : Nat) (e : SendReq α), (E.out j tag)[m]? = some e → e.payload ≠ none →
    (E'.out j tag)[m]? = some e
  inc : ∀ j tag (m : Nat) (r : RecvReq), (E'.inc j tag)[m]? = some r → r.delivered = true →
    (E.inc j tag)[m]? = some r

namespace RankEnv.Grows

variable {E E' : RankEnv α}

theorem of_eq (hout : E'.out = E.out) (hinc : E'.inc = E.inc) : E.Grows E' where
  out _ _ _ _ he _ := by rwa [hout]
  inc _ _ _ _ hr _ := by rwa [hinc] at hr

theorem isend (x peer t buffer : Nat) : E.Grows (E.isend x peer t buffer) where
  out j tag m e he _ := by
    by_cases h : j = peer ∧ tag = t
    · obtain ⟨rfl, rfl⟩ := h
      simp only [RankEnv.isend, RankEnv.setReq_out, RankEnv.setOut_out, if_true]
      rw [List.getElem?_append_left (List.getElem?_eq_some_iff.mp he).1]
      exact he
    · rw [RankEnv.isend, RankEnv.setReq_out, RankEnv.setOut_out_of_ne _ _ _ _ h]
      exact he
  inc _ _ _ _ hr _ := hr

theorem irecv (x peer t buffer : Nat) : E.Grows (E.irecv x peer t buffer) where
  out _ _ _ _ he _ := he
  inc j tag m r hr hdel := by
    by_cases h : j = peer ∧ tag = t
    · obtain ⟨rfl, rfl⟩ := h
      simp only [RankEnv.irecv, RankEnv.setReq_inc, RankEnv.setInc_inc, if_true] at hr
      rcases getElem?_concat_cases hr with hr | ⟨_, rfl⟩
      · exact hr
      · cases hdel
    · rw [RankEnv.irecv, RankEnv.setReq_inc, RankEnv.setInc_inc_of_ne _ _ _ _ h] at hr
      exact hr

theorem readSend (peer t k : Nat) : E.Grows (E.readSend peer t k) where
  out j tag m e he hread := by
    unfold RankEnv.readSend
    split
    · next hk =>
        by_cases h : j = peer ∧ tag = t
        · obtain ⟨rfl, rfl⟩ := h
          have hkm : k ≠ m := by
            rintro rfl
            rw [he] at hk
            rw [Option.some.inj hk] at hread
            exact hread rfl
          simp only [RankEnv.setOut_out, if_true, List.getElem?_set_ne hkm]
          exact he
        · rw [RankEnv.setOut_out_of_ne _ _ _ _ h]
          exact he
    · exact he
  inc _ _ _ _ hr _ := by rwa [RankEnv.readSend_inc] at hr

end RankEnv.Grows

/-- A message that has arrived was read before. -/
def Fed (env : Env α) : Prop :=
  ∀ i j tag (m : Nat) (r : RecvReq), ((env i).inc j tag)[m]? = some r → r.delivered = true →
    ∃ e : SendReq α, ((env j).out i tag)[m]? = some e ∧ e.payload ≠ none

section Fed

variable {env : Env α}

theorem Fed.modify (h : Fed env) {i : Nat} {f : RankEnv α → RankEnv α}
    (hf : (env i).Grows (f (env i))) : Fed (env.modify i f) := by
  have hg : ∀ j, (env j).Grows (env.modify i f j) := by
    intro j
    by_cases hj : j = i
    · subst hj
      rw [Env.modify_self]
      exact hf
    · rw [Env.modify_of_ne hj]
      exact .of_eq rfl rfl
  intro a b tag m r hr hdel
  obtain ⟨e, he, hread⟩ := h a b tag m r ((hg a).inc b tag m r hr hdel) hdel
  exact ⟨e, (hg b).out a tag m e he hread, hread⟩

theorem Fed.deliver (h : Fed env) (i j t k : Nat) : Fed (deliver i j t k env) := by
  have hout : ∀ a, (Fflib.deliver i j t k env a).out = (env a).out := by
    intro a
    by_cases ha : a = i
    · subst ha
      simp [Fflib.deliver]
    · rw [Fflib.deliver, Env.modify_of_ne ha]
  intro a b tag m r hr hdel
  rw [hout]
  by_cases ha : a = i
  · subst ha
    rw [Fflib.deliver, Env.modify_self] at hr
    unfold RankEnv.deliver at hr
    split at hr
    · next hk hsent =>
        by_cases hbt : b = j ∧ tag = t
        · obtain ⟨rfl, rfl⟩ := hbt
          by_cases hmk : k = m
          · subst hmk
            exact ⟨_, hsent, Option.some_ne_none _⟩
          · simp only [RankEnv.setInc_inc, if_true, List.getElem?_set_ne hmk] at hr
            exact h a b tag m r hr hdel
        · rw [RankEnv.setInc_inc_of_ne _ _ _ _ hbt] at hr
          exact h a b tag m r hr hdel
    · exact h a b tag m r hr hdel
  · rw [Fflib.deliver, Env.modify_of_ne ha] at hr
    exact h a b tag m r hr hdel

theorem Fed.readSend (h : Fed env) (i j t k : Nat) : Fed (readSend i j t k env) :=
  h.modify (.readSend j t k)

variable (ops : Int → α → α → α) (sync : Bool) (st : Option AllreduceState) (i x : Nat)
  {o : Ffop}

theorem Fed.implPost (h : Fed env) :
    Fed (implPost (mpiImpl ops sync st i) x o env).1 := by
  cases hb : o.body with
  | nop => rw [implPost_nop hb]; exact h
  | send peer t buffer =>
      rw [implPost_send _ _ _ _ _ _ hb]
      exact h.modify (.isend x peer t buffer)
  | recv peer t buffer =>
      rw [implPost_recv _ _ _ _ _ _ hb]
      exact h.modify (.irecv x peer t buffer)
  | comp buffer1 buffer2 buffer3 operator =>
      rw [implPost_comp _ _ _ _ _ _ hb]
      exact h.modify (.of_eq rfl rfl)

theorem Fed.test (h : Fed env) {env' : Env α}
    (ht : (mpiImpl ops sync st i).test x o env = some env') : Fed env' := by
  simp only [mpiImpl] at ht
  split at ht
  · split at ht
    · obtain rfl := Option.some.inj ht
      exact h.readSend _ _ _ _
    · cases ht
  · split at ht
    · obtain rfl := Option.some.inj ht
      exact (h.readSend _ _ _ _).deliver _ _ _ _
    · cases ht
  · obtain rfl := Option.some.inj ht
    exact h

theorem Fed.postCallback (h : Fed env) : Fed ((mpiImpl ops sync st i).postCallback env) := by
  cases st with
  | none => exact h
  | some st =>
      obtain ⟨_, hout, hinc, _⟩ := Ranks.postCheck_mem st (env i)
      exact h.modify (.of_eq hout hinc)

/-- Step lemma. -/
theorem Fed.procStep (h : Fed env) {s : FfSchedule} {p : Proc} {act : ProcAct}
    {r : Env α × Proc} (hs : procStep (mpiImpl ops sync st i) s env p act = some r) :
    Fed r.1 := by
  cases act with
  | post =>
      obtain ⟨env', p'⟩ := r
      obtain ⟨_, _, rfl, _⟩ := ffschedulePost_eq_some hs
      dsimp only
      split
      · exact h.postCallback ops sync st i
      · exact h
  | wait =>
      obtain ⟨p', _, rfl⟩ := Option.map_eq_some_iff.mp hs
      exact h
  | frame t =>
      simp only [Fflib.procStep, frameStep] at hs
      split at hs
      · cases hs
      · next f fs _ =>
          obtain rfl := Option.some.inj hs
          cases f with
          | post x =>
              rcases ffopPost_env (mpiImpl ops sync st i) x env p with henv | henv
              · simp only [runFrame, henv]
                exact h
              · simp only [runFrame, henv]
                exact h.implPost ops sync st i x
          | complete x => exact h
          | loop x k => exact h
  | progress x =>
      simp only [Fflib.procStep, progressStep] at hs
      split at hs
      · obtain ⟨env', ht, rfl⟩ := Option.map_eq_some_iff.mp hs
        exact h.test ops sync st i x ht
      · cases hs

end Fed

namespace Ranks

variable {J : Ranks α} {cap : Nat} {sync : Bool} {K : Nat} {w : World α}

/-- Run lemma. -/
theorem fed_of_reachable (hw : Reachable (worldStep J cap sync K) (J.initial cap) w) :
    Fed w.env := by
  refine hw.induction (fun v => Fed v.env) ?_ (fun v act v' h hs => ?_)
  · intro i j tag m r hr
    simp [initial] at hr
  · cases act with
    | set i scratch =>
        simp only [worldStep] at hs
        split at hs
        · obtain rfl := Option.some.inj hs
          exact h.modify (.of_eq rfl rfl)
        · cases hs
    | read i j k =>
        obtain rfl := Option.some.inj hs
        exact h.readSend i j J.tag k
    | deliver i j k =>
        obtain rfl := Option.some.inj hs
        exact h.deliver i j J.tag k
    | proc i act =>
        by_cases hpost : act = .post
        · subst hpost
          simp only [worldStep] at hs
          split at hs
          · obtain ⟨r, hr, rfl⟩ := Option.map_eq_some_iff.mp hs
            have henter : Fed (v.env.modify i RankEnv.enterRound) :=
              h.modify (.of_eq rfl rfl)
            have hr' : Fflib.procStep (J.impl cap sync i) (J.build cap i).1
                (v.env.modify i RankEnv.enterRound) (v.procs i) .post = some r := hr
            exact henter.procStep J.ops sync (J.build cap i).1.state i hr'
          · cases hs
        · have hs' : (if i < J.csize then
              (Fflib.procStep (J.impl cap sync i) (J.build cap i).1 v.env (v.procs i) act).map
                fun r => { v with env := r.1, procs := Function.update v.procs i r.2 }
              else none) = some v' := by
            cases act with
            | post => exact absurd rfl hpost
            | wait => exact hs
            | frame t => exact hs
            | progress x => exact hs
          split at hs'
          · obtain ⟨r, hr, rfl⟩ := Option.map_eq_some_iff.mp hs'
            exact h.procStep J.ops sync (J.build cap i).1.state i hr
          · cases hs'

/-- The `m`-th receive from a partner belongs to round `m + 1`, as the `m`-th send of the
partner does; once its message has arrived, that is the message of this send, and during
the round it is in the receive's buffer. -/
def Matched (J : Ranks α) (w : World α) : Prop :=
  ∀ i j (m : Nat) (r : RecvReq), i < J.csize → ((w.env i).inc j J.tag)[m]? = some r →
    r.round = m + 1 ∧ (∃ b, j = i ^^^ 2 ^ b ∧ j < J.csize) ∧
      (∀ e : SendReq α, ((w.env j).out i J.tag)[m]? = some e → e.round = r.round) ∧
      (r.delivered = true → ∃ (e : SendReq α) (v : Nat → α),
        ((w.env j).out i J.tag)[m]? = some e ∧ e.payload = some v ∧
          (r.round = (w.env i).round → ∀ x, x < J.n → (w.env i).mem r.buffer x = v x))

theorem matched_of_reachable (hB : J.Builds cap)
    (hw : Reachable (worldStep J cap sync K) (J.initial cap) w) : J.Matched w := by
  obtain ⟨s, h⟩ := worldInv_of_reachable hB hw
  have hfed := fed_of_reachable hw
  intro i j m r hi hr
  obtain ⟨q, hchan⟩ := (h i hi).chan
  rcases partner_or (J := J) i j with ⟨k, b, hk, rfl⟩ | hno
  · have hrecv := hchan.recv k b hk
    obtain ⟨hround, hbuffer, _⟩ := hrecv.posted m r hr
    obtain ⟨k', hk'⟩ := partner_bit hi hk
    obtain ⟨q', hchan'⟩ := (h (i ^^^ 2 ^ b) (bit_mem hk).2).chan
    have hsend := hchan'.send k' b hk'
    have hposted := hsend.posted m
    have hpayload := hsend.payload m
    rw [xor_two_pow_cancel] at hposted hpayload
    refine ⟨hround, ⟨b, rfl, (bit_mem hk).2⟩, fun e he => ?_, fun hdel => ?_⟩
    · rw [hround]
      exact (hposted e he).1
    · obtain ⟨e, he, hread⟩ := hfed i _ J.tag m r hr hdel
      obtain ⟨v, hv⟩ := Option.ne_none_iff_exists'.mp hread
      refine ⟨e, v, he, hv, fun hcur x hx => ?_⟩
      rw [hbuffer, hrecv.data m r hr hdel (by omega) x hx, hpayload e v he hv x hx]
  · rw [(hchan.other j hno).2] at hr
    simp at hr

end Ranks

end Fflib
