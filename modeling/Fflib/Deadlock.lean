import Fflib.WorldInv

/-!
# The allreduce does not get stuck

When all cascades are over, a request that cannot complete waits for its partner,
and the partner is behind: in an earlier round, or in an earlier iteration of the
same round.  The order by round and iteration is well founded, so that a rank which
is last can move (`WorldInv.exists_step`).  `allreduce_deadlock_free` is the result
for one round in which every computation completes.
-/

namespace Fflib

open Library

universe u

variable {α : Type u}

namespace Ranks

variable {J : Ranks α} {cap : Nat}

section Path

variable (hB : J.Builds cap) {i : Nat} (hi : i < J.csize)
include hB hi

theorem Builds.pred_lt {p v : Nat} (h : (hB.graph hi).Pred p v)
    (hv : v ≠ (J.lib₀ i).opid + 1) : p < v := by
  have hlo := ((hB.mem_verts hi).mp ((hB.graph hi).pred_mem h).2).1
  rcases hB.pred_cases hi h with rfl | hend | ⟨k, _, hk⟩
  · have hne : v ≠ (J.lib₀ i).opid := by
      rintro rfl
      have hno := (hB.built hi).built.no_pred_begin (p := (J.lib₀ i).opid)
      rw [(hB.built hi).begin_eq] at hno
      exact hno h
    omega
  · exact absurd hend hv
  · simp only [accOp, sendOp, recvOp] at hk
    omega

/-- Handles grow along a path that does not lead to `end_op`. -/
theorem Builds.path_lt {u v : Nat} (h : Relation.TransGen (hB.graph hi).Pred u v)
    (hv : v ≠ (J.lib₀ i).opid + 1) : u < v := by
  induction h with
  | single hp => exact hB.pred_lt hi hp hv
  | @tail p v _ hp ih =>
      have hpe : p ≠ (J.lib₀ i).opid + 1 := by
        rintro rfl
        have hno := (hB.built hi).built.no_pred_of_end (d := v)
        rw [(hB.built hi).end_eq] at hno
        exact hno hp
      exact (ih hpe).trans (hB.pred_lt hi hp hv)

/-- Only `begin_op` comes before a receive. -/
theorem Builds.path_recv {u k : Nat}
    (h : Relation.TransGen (hB.graph hi).Pred u (J.recvOp i k)) : u = (J.lib₀ i).opid := by
  obtain ⟨p, hup, hp⟩ := Relation.TransGen.tail'_iff.mp h
  have hpe : p = (J.lib₀ i).opid := by
    rcases hB.pred_cases hi hp with hb | hend | ⟨l, _, hl⟩
    · exact hb
    · simp only [recvOp] at hend
      omega
    · simp only [accOp, sendOp, recvOp] at hl
      omega
  rcases Relation.ReflTransGen.cases_tail hup with heq | ⟨c, _, hc⟩
  · rw [← heq, hpe]
  · have hno := (hB.built hi).built.no_pred_begin (p := c)
    rw [(hB.built hi).begin_eq, ← hpe] at hno
    exact absurd hc hno

end Path

/-- Rank `i` has posted its schedule and its `end_op` has not completed. -/
def EndPending (J : Ranks α) (cap : Nat) (w : World α) (i : Nat) : Prop :=
  (w.procs i).running = true ∧ ((w.procs i).ops (J.build cap i).1.endOp).completed = 0

/-- A posted send or receive of rank `i` can complete. -/
def CanComplete (J : Ranks α) (cap : Nat) (sync : Bool) (K : Nat) (w : World α) (i : Nat) :
    Prop :=
  ∃ x, x ∈ (w.procs i).pending ∧ ((w.procs i).ops x).body.isRequest = true ∧
    (worldStep J cap sync K w (.proc i (.progress x))).isSome = true

/-- Rank `i` is between two rounds, or its `end_op` has completed. -/
def AtEnd (J : Ranks α) (s : Nat → Option (Progress Nat)) (i : Nat) : Prop :=
  s i = none ∨ ∃ a, s i = some a ∧ (a.phase ((J.lib₀ i).opid + 1)).isDone = true

section Stuck

variable {hB : J.Builds cap} {w : World α} {s : Nat → Option (Progress Nat)}
  {sync : Bool} {K : Nat}

theorem canComplete {i x : Nat} (hi : i < J.csize) (hf : (w.procs i).frames = [])
    (hx : x ∈ (w.procs i).pending) (hb : ((w.procs i).ops x).body.isRequest = true)
    (ht : ((J.impl cap sync i).test x ((w.procs i).ops x) w.env).isSome = true) :
    J.CanComplete cap sync K w i := by
  have hprog : (w.procs i).prog = [] := (List.append_eq_nil_iff.mp hf).2
  refine ⟨x, hx, hb, ?_⟩
  simp [worldStep, procStep, progressStep, hi, hprog, hx, ht]

theorem frameStep_isSome {i : Nat} {t : Thread} (hi : i < J.csize)
    (ht : (w.procs i).stack t ≠ []) :
    (worldStep J cap sync K w (.proc i (.frame t))).isSome = true := by
  obtain ⟨f, fs, hs⟩ := List.exists_cons_of_ne_nil ht
  simp [worldStep, procStep, frameStep, hi, hs]

/-- A rank that has issued fewer than `n` requests for the operations `op` of one iteration
is in an earlier round, or has not started the operation of this round. -/
theorem behind_of_length {j b n len : Nat} {op : Nat → Nat}
    (hk : ∃ k : Nat, (J.bits j)[k]? = some b)
    (hnone : s j = none → len = (w.env j).round)
    (hsome : ∀ (a : Progress Nat) (k : Nat), s j = some a → (J.bits j)[k]? = some b →
      len + (if (a.phase (op k)).isStarted = true then 0 else 1) = (w.env j).round)
    (hlt : len < n) :
    (w.env j).round < n ∨ (w.env j).round = n ∧ ∃ a k, s j = some a ∧
      (J.bits j)[k]? = some b ∧ (a.phase (op k)).isStarted = false := by
  obtain ⟨k, hk⟩ := hk
  cases hs : s j with
  | none =>
      have := hnone hs
      exact Or.inl (by omega)
  | some a =>
      have hlen := hsome a k hs hk
      by_cases hst : (a.phase (op k)).isStarted = true
      · rw [if_pos hst] at hlen
        exact Or.inl (by omega)
      · rw [if_neg hst] at hlen
        by_cases hr : (w.env j).round = n
        · exact Or.inr ⟨hr, a, k, rfl, hk, by simpa using hst⟩
        · exact Or.inl (by omega)

namespace WorldInv

variable (h : WorldInv hB w s)
include h

/-- A partner whose queue of sends is short is behind. -/
theorem behind_of_out {i k b : Nat} (hi : i < J.csize) (hk : (J.bits i)[k]? = some b)
    (hlt : ((w.env (i ^^^ 2 ^ b)).out i J.tag).length < (w.env i).round) :
    (w.env (i ^^^ 2 ^ b)).round < (w.env i).round ∨
      (w.env (i ^^^ 2 ^ b)).round = (w.env i).round ∧
        ∃ a k', s (i ^^^ 2 ^ b) = some a ∧ (J.bits (i ^^^ 2 ^ b))[k']? = some b ∧
          (a.phase (J.sendOp (i ^^^ 2 ^ b) k')).isStarted = false := by
  have hj := h (i ^^^ 2 ^ b) (bit_mem hk).2
  have hpartner := partner_bit hi hk
  refine behind_of_length hpartner (fun hs => ?_) (fun a k' hs hk' => ?_) hlt
  · obtain ⟨k', hk'⟩ := hpartner
    rw [hs] at hj
    have hlen := (hj.2.chan.send k' b hk').len
    rwa [xor_two_pow_cancel] at hlen
  · rw [hs] at hj
    have hlen := (hj.2.1.chan.send k' b hk').len
    rwa [xor_two_pow_cancel] at hlen

/-- A partner whose queue of receives is short is behind. -/
theorem behind_of_inc {i k b : Nat} (hi : i < J.csize) (hk : (J.bits i)[k]? = some b)
    (hlt : ((w.env (i ^^^ 2 ^ b)).inc i J.tag).length < (w.env i).round) :
    (w.env (i ^^^ 2 ^ b)).round < (w.env i).round ∨
      (w.env (i ^^^ 2 ^ b)).round = (w.env i).round ∧
        ∃ a k', s (i ^^^ 2 ^ b) = some a ∧ (J.bits (i ^^^ 2 ^ b))[k']? = some b ∧
          (a.phase (J.recvOp (i ^^^ 2 ^ b) k')).isStarted = false := by
  have hj := h (i ^^^ 2 ^ b) (bit_mem hk).2
  have hpartner := partner_bit hi hk
  refine behind_of_length hpartner (fun hs => ?_) (fun a k' hs hk' => ?_) hlt
  · obtain ⟨k', hk'⟩ := hpartner
    rw [hs] at hj
    have hlen := (hj.2.chan.recv k' b hk').len
    rwa [xor_two_pow_cancel] at hlen
  · rw [hs] at hj
    have hlen := (hj.2.1.chan.recv k' b hk').len
    rwa [xor_two_pow_cancel] at hlen

/-- When its cascades are over, an operation that has not been started waits for a request
of an earlier iteration, and a receive for nothing. -/
theorem waits_for {i : Nat} (hi : i < J.csize) {a : Progress Nat} (hs : s i = some a)
    (hf : (w.procs i).frames = []) {v : Nat} (hv : v ∈ (hB.graph hi).verts)
    (hst : (a.phase v).isStarted = false) :
    ∃ u k b, Relation.TransGen (hB.graph hi).Pred u v ∧ a.phase u = .inflight ∧
      (J.bits i)[k]? = some b ∧ (u = J.sendOp i k ∨ u = J.recvOp i k) := by
  have hr := h i hi
  rw [hs] at hr
  have hidle : a.phase v = .idle := by
    rcases hr.1.settled hf v with hp | hp | ⟨j, hp, _⟩
    · exact hp
    · rw [hp] at hst
      cases hst
    · rw [hp] at hst
      cases hst
  obtain ⟨u, hu, hin⟩ :=
    hr.1.sound.exists_inflight (hB.wired hi).wf (hr.1.settled hf) hv hidle
  obtain ⟨k, b, hk, hkb⟩ := hr.2.1.flight u hin
  exact ⟨u, k, b, hu, hin, hk, hkb⟩

/-- A rank in an earlier round than rank `i`: it is between two rounds, or has a request of
its round. -/
theorem exists_step_earlier {j : Nat} (hj : j < J.csize) (hf : (w.procs j).frames = [])
    (hlt : (w.env j).round < (w.env i).round)
    (ih : ∀ a x k b, s j = some a → a.phase x = .inflight → (J.bits j)[k]? = some b →
      (x = J.sendOp j k ∨ x = J.recvOp j k) →
      ∃ j', j' < J.csize ∧ (J.CanComplete cap sync K w j' ∨
        (w.env j').round < (w.env j).round ∧ J.AtEnd s j')) :
    ∃ j', j' < J.csize ∧ (J.CanComplete cap sync K w j' ∨
      (w.env j').round < (w.env i).round ∧ J.AtEnd s j') := by
  cases hsj : s j with
  | none => exact ⟨j, hj, Or.inr ⟨hlt, Or.inl hsj⟩⟩
  | some a =>
      by_cases he : (a.phase ((J.lib₀ j).opid + 1)).isDone = true
      · exact ⟨j, hj, Or.inr ⟨hlt, Or.inr ⟨a, hsj, he⟩⟩⟩
      · have hrj := h j hj
        rw [hsj] at hrj
        obtain ⟨x, hx⟩ := hrj.1.exists_inflight (hB.wired hj) hf (by simpa using he)
        obtain ⟨k, b, hk, hkx⟩ := hrj.2.1.flight x hx
        obtain ⟨j', hj', hres⟩ := ih a x k b hsj hx hk hkx
        exact ⟨j', hj', hres.imp_right (fun hres => ⟨hres.1.trans hlt, hres.2⟩)⟩

/-- Well-founded descent: while all stacks are empty, a request that waits leads to one
that can complete, or to a rank in an earlier round that is not waiting. -/
theorem exists_step (hf : ∀ i, i < J.csize → (w.procs i).frames = []) :
    ∀ N i a x k b, i < J.csize → s i = some a → a.phase x = .inflight →
      (J.bits i)[k]? = some b → (x = J.sendOp i k ∨ x = J.recvOp i k) →
      (w.env i).round * (J.maxr + 1) + b = N →
      ∃ j, j < J.csize ∧ (J.CanComplete cap sync K w j ∨
        (w.env j).round < (w.env i).round ∧ J.AtEnd s j) := by
  intro N
  induction N using Nat.strongRecOn with
  | ind N ih =>
      intro i a x k b hi hs hx hk hkx hN
      have hr := h i hi
      rw [hs] at hr
      have hpend := hr.1.mem_pending hx
      have hj := (bit_mem hk).2
      have hearlier : (w.env (i ^^^ 2 ^ b)).round < (w.env i).round →
          ∃ j, j < J.csize ∧ (J.CanComplete cap sync K w j ∨
            (w.env j).round < (w.env i).round ∧ J.AtEnd s j) := by
        intro hlt
        refine h.exists_step_earlier hj (hf _ hj) hlt (fun a' u l c hsj hu hl hlu => ?_)
        have hc := (bit_mem hl).1
        have hmul := Nat.mul_le_mul_right (J.maxr + 1) (show
          (w.env (i ^^^ 2 ^ b)).round + 1 ≤ (w.env i).round from hlt)
        rw [Nat.add_mul, Nat.one_mul] at hmul
        exact ih ((w.env (i ^^^ 2 ^ b)).round * (J.maxr + 1) + c)
          (by omega) _ a' u l c hj hsj hu hl hlu rfl
      rcases hkx with rfl | rfl
      · have hbody : ((w.procs i).ops (J.sendOp i k)).body =
            .send (i ^^^ 2 ^ b) J.tag (J.rb i) := by
          rw [(hr.1.same _).body_eq, hB.body_send hi hk]
        have hpos := (hr.2.1.chan.send k b hk).pos hx
        by_cases hready : sync = false ∨
            (w.env i).req (J.sendOp i k) < ((w.env (i ^^^ 2 ^ b)).inc i J.tag).length
        · exact ⟨i, hi, Or.inl (canComplete hi (hf i hi) hpend (by rw [hbody]; rfl)
            (by simp [impl, mpiImpl, hbody, hready]))⟩
        · rcases h.behind_of_inc hi hk (by omega) with hlt | ⟨_, a', k', hsj, hk', hst⟩
          · exact hearlier hlt
          · have hmem : J.recvOp (i ^^^ 2 ^ b) k' ∈ (hB.graph hj).verts := by
              have := lt_rounds hk'
              rw [hB.mem_verts hj, recvOp]
              omega
            obtain ⟨u, l, c, hu, _, _, hlu⟩ := h.waits_for hj hsj (hf _ hj) hmem hst
            have := hB.path_recv hj hu
            simp only [sendOp, recvOp] at hlu
            omega
      · have hbody : ((w.procs i).ops (J.recvOp i k)).body =
            .recv (i ^^^ 2 ^ b) J.tag (J.tmp i k) := by
          rw [(hr.1.same _).body_eq, hB.body_recv hi hk]
        have hpos := (hr.2.1.chan.recv k b hk).pos hx
        by_cases hready :
            (w.env i).req (J.recvOp i k) < ((w.env (i ^^^ 2 ^ b)).out i J.tag).length
        · exact ⟨i, hi, Or.inl (canComplete hi (hf i hi) hpend (by rw [hbody]; rfl)
            (by simp [impl, mpiImpl, hbody, hready]))⟩
        · rcases h.behind_of_out hi hk (by omega) with hlt | ⟨hround, a', k', hsj, hk', hst⟩
          · exact hearlier hlt
          · have hmem : J.sendOp (i ^^^ 2 ^ b) k' ∈ (hB.graph hj).verts := by
              have := lt_rounds hk'
              rw [hB.mem_verts hj, sendOp]
              omega
            obtain ⟨u, l, c, hu, hin, hl, hlu⟩ := h.waits_for hj hsj (hf _ hj) hmem hst
            have hlt := hB.path_lt hj hu (by rw [sendOp]; omega)
            have hcb : c < b := by
              refine bit_lt_of_lt hl hk' ?_
              simp only [sendOp, recvOp] at hlu hlt
              omega
            obtain ⟨j', hj', hres⟩ := ih ((w.env (i ^^^ 2 ^ b)).round * (J.maxr + 1) + c)
              (by rw [hround]; omega) _ a' u l c hj hsj hin hl hlu rfl
            rw [hround] at hres
            exact ⟨j', hj', hres⟩

end WorldInv

/-- A rank whose `end_op` has not completed is in its round. -/
theorem EndPending.running {i : Nat} (hi : i < J.csize) (h : WorldInv hB w s)
    (hp : J.EndPending cap w i) :
    ∃ a, s i = some a ∧ (a.phase ((J.lib₀ i).opid + 1)).isDone = false := by
  obtain ⟨hrun, hflag⟩ := hp
  have hr := h i hi
  cases hs : s i with
  | none =>
      rw [hs] at hr
      rw [hr.1.running] at hrun
      cases hrun
  | some a =>
      rw [hs] at hr
      rw [(hB.built hi).end_eq, hr.1.flag] at hflag
      refine ⟨a, rfl, ?_⟩
      by_contra hne
      rw [if_pos (by simpa using hne)] at hflag
      cases hflag

/-- All ranks can post their schedules, one after another. -/
theorem exists_posted_below (hB : J.Builds cap) (sync : Bool) {m : Nat} (hm : m ≤ J.csize) :
    ∃ w s, Reachable (worldStep J cap sync 1) (J.initial cap) w ∧ WorldInv hB w s ∧
      (∀ i, ∀ hi : i < J.csize, i < m →
        (w.env i).round = 1 ∧ s i = some (hB.graph hi).start) ∧
      ∀ i, m ≤ i → (w.env i).round = 0 ∧ (w.procs i).running = false ∧
        (w.procs i).user = [] := by
  induction m with
  | zero =>
      exact ⟨_, _, .refl _, worldInv_initial, fun i _ hlt => absurd hlt (Nat.not_lt_zero i),
        fun i _ => ⟨rfl, rfl, rfl⟩⟩
  | succ m ih =>
      obtain ⟨w, s, hw, h, hbelow, habove⟩ := ih (by omega)
      obtain ⟨hround, hrun, huser⟩ := habove m le_rfl
      have hm' : m < J.csize := by omega
      obtain ⟨w₁, hs₁⟩ : ∃ w₁, worldStep J cap sync 1 w (.set m (J.mem₀ 0 0)) = some w₁ := by
        simp [worldStep, hm', hrun, huser]
      obtain ⟨hnone, hm₁, hr₁, hp₁, hl₁⟩ := h.setStep hs₁
      obtain ⟨w₂, hs₂⟩ : ∃ w₂, worldStep J cap sync 1 w₁ (.proc m .post) = some w₂ := by
        simp [worldStep, hm', hl₁, hr₁, hround, ffschedulePost, hp₁, hrun, huser]
      obtain ⟨_, _, _, hm₂, hr₂, _⟩ := hm₁.inv.postStep hs₂
      refine ⟨w₂, _, (hw.tail hs₁).tail hs₂, hm₂.inv, fun i hi hlt => ?_, fun i hle => ?_⟩
      · by_cases him : i = m
        · subst him
          exact ⟨by omega, Function.update_self _ _ _⟩
        · obtain ⟨hr, hs⟩ := hbelow i hi (by omega)
          rw [hm₂.round i him, hm₁.round i him, Function.update_of_ne him,
            Function.update_of_ne him]
          exact ⟨hr, hs⟩
      · have him : i ≠ m := by omega
        rw [hm₂.round i him, hm₁.round i him, hm₂.procs i him, hm₁.procs i him]
        exact habove i (by omega)

theorem exists_posted (hB : J.Builds cap) (sync : Bool) :
    ∃ w s, Reachable (worldStep J cap sync 1) (J.initial cap) w ∧ WorldInv hB w s ∧
      ∀ i, ∀ hi : i < J.csize, (w.env i).round = 1 ∧ s i = some (hB.graph hi).start := by
  obtain ⟨w, s, hw, h, hbelow, _⟩ := exists_posted_below hB sync (Nat.le_refl J.csize)
  exact ⟨w, s, hw, h, fun i hi => hbelow i hi hi⟩

/-- Where every computation completes, no state is stuck: when all ranks have posted their
schedule and some `end_op` has not completed, a cascade can go on, or else a posted send or
receive can complete; also when a send may complete only after its matching receive has been
posted (`sync`). -/
theorem allreduce_deadlock_free (hB : J.Builds cap) (sync : Bool)
    (hw : Reachable (worldStep J cap sync 1) (J.initial cap) w)
    (hposted : ∀ i, i < J.csize → (w.env i).round = 1)
    (hend : ∃ i, i < J.csize ∧ J.EndPending cap w i) :
    (∃ i t, i < J.csize ∧ (w.procs i).stack t ≠ [] ∧
        (worldStep J cap sync 1 w (.proc i (.frame t))).isSome = true) ∨
      ∃ i, i < J.csize ∧ J.CanComplete cap sync 1 w i := by
  obtain ⟨s, h⟩ := worldInv_of_reachable hB hw
  by_cases hf : ∀ i, i < J.csize → (w.procs i).frames = []
  · obtain ⟨i, hi, hp⟩ := hend
    obtain ⟨a, hs, he⟩ := hp.running hi h
    have hr := h i hi
    rw [hs] at hr
    obtain ⟨x, hx⟩ := hr.1.exists_inflight (hB.wired hi) (hf i hi) he
    obtain ⟨k, b, hk, hkx⟩ := hr.2.1.flight x hx
    have hstep : ∃ j, j < J.csize ∧ (J.CanComplete cap sync 1 w j ∨
        (w.env j).round < (w.env i).round ∧ J.AtEnd s j) :=
      h.exists_step hf _ i a x k b hi hs hx hk hkx rfl
    obtain ⟨j, hj, hcan | ⟨hlt, _⟩⟩ := hstep
    · exact Or.inr ⟨j, hj, hcan⟩
    · rw [hposted i hi, hposted j hj] at hlt
      exact absurd hlt (lt_irrefl 1)
  · left
    simp only [not_forall] at hf
    obtain ⟨i, hi, hne⟩ := hf
    obtain ⟨t, ht⟩ := Proc.exists_stack hne
    exact ⟨i, t, hi, ht, frameStep_isSome hi ht⟩

end Stuck

end Ranks

end Fflib
