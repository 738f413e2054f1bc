import Fflib.Matching
import Fflib.Reduction

/-!
# The allreduce as a collective operation

Three properties of the collective, with `dependent` arrays of `cap` entries:
successive rounds do not mix (`AllreduceRounds`), the result does not depend on the
interleaving (`AllreduceDeterministic`), and the ranks agree without associativity
(`AllreduceAgrees`).  Each holds iff the schedules can be built inside these arrays:
for at most `2 ^ (cap - 1)` ranks, that is `512` with the `MAX_DEPS` entries that the
code has.
-/

namespace Fflib

open Library

universe u

namespace Ranks

/-- `K` rounds without a barrier: receives get the messages of their own round, and every
round ends with the reduction of its inputs. -/
def AllreduceRounds (cap csize : Nat) : Prop :=
  ∀ (α : Type) (J : Ranks α), J.csize = csize → (∀ a b, J.op a b = J.op b a) →
    (∀ a b c, J.op (J.op a b) c = J.op a (J.op b c)) →
    J.Builds cap ∧
    ∀ (K : Nat) (sync : Bool) (w : World α),
      Reachable (worldStep J cap sync K) (J.initial cap) w →
      J.Matched w ∧
      ∀ i m x, i < csize → x < J.n → J.Completed cap w i m →
        J.rcvbuff w i x = blockFold J.op (fun j => J.input j (m - 1) x) 0 (csize - 1)

/-- When a computation is about to run, every posted send of its destination has completed,
and so has every receive into its first argument. -/
def NoHazard {α : Type u} (J : Ranks α) (cap : Nat) (w : World α) (i : Nat) : Prop :=
  ∀ t x fs b1 b2 b3 operator, (w.procs i).stack t = .post x :: fs →
    ((w.procs i).ops x).body = .comp b1 b2 b3 operator →
    ∀ y, (J.lib₀ i).opid ≤ y → y < (J.build cap i).2.opid →
      (∀ peer tag, ((w.procs i).ops y).body = .send peer tag b3 →
        .posting y ∈ (w.procs i).log → .completing y ∈ (w.procs i).log) ∧
      (∀ peer tag, ((w.procs i).ops y).body = .recv peer tag b1 →
        .completing y ∈ (w.procs i).log)

/-- Any two executions of one round end with the same receive buffers, for any operator. -/
def AllreduceDeterministic (cap csize : Nat) : Prop :=
  ∀ (α : Type) (J : Ranks α), J.csize = csize →
    J.Builds cap ∧
    (∀ (sync sync' : Bool) (w w' : World α),
      Reachable (worldStep J cap sync 1) (J.initial cap) w →
      Reachable (worldStep J cap sync' 1) (J.initial cap) w' →
      (∀ i, i < csize → J.Completed cap w i 1) →
      (∀ i, i < csize → J.Completed cap w' i 1) →
      ∀ i x, i < csize → x < J.n → J.rcvbuff w i x = J.rcvbuff w' i x) ∧
    ∀ (sync : Bool) (w : World α),
      Reachable (worldStep J cap sync 1) (J.initial cap) w →
      ∀ i, i < csize → J.NoHazard cap w i

/-- All ranks end with the same contents, for any commutative operator. -/
def AllreduceAgrees (cap csize : Nat) : Prop :=
  ∀ (α : Type) (J : Ranks α), J.csize = csize → (∀ a b, J.op a b = J.op b a) →
    J.Builds cap ∧
    ∀ (sync : Bool) (w : World α),
      Reachable (worldStep J cap sync 1) (J.initial cap) w →
      (∀ i, i < csize → J.Completed cap w i 1) →
      ∀ i j x, i < csize → j < csize → x < J.n → J.rcvbuff w i x = J.rcvbuff w j x

section Hazard

variable {α : Type u} {J : Ranks α} {cap : Nat} {hB : J.Builds cap} {i : Nat}
  {hi : i < J.csize} {p : Proc} {a : Progress Nat}

/-- Sends that have been started before an accumulation runs have completed. -/
theorem Order.send_isDone {q : Nat → Phase} (ho : J.Order i q) {k t : Nat}
    (hk : k < J.rounds i) (ht : t ≤ J.rounds i) (hq : q (J.accOp i t) = .triggered)
    (hs : (q (J.sendOp i k)).isStarted = true) : (q (J.sendOp i k)).isDone = true := by
  have hacc := ho.send k hk (Phase.ne_idle_of_isStarted hs)
  have hkt : k < t := by
    by_contra hle
    by_cases hkt : k = t
    · rw [hkt, hq] at hacc
      cases hacc
    · have := ho.acc_isDone (show t < k by omega) hk.le (Phase.ne_idle_of_isDone hacc)
      rw [hq] at this
      cases this
  by_cases hsucc : k + 1 = t
  · exact ho.accSend k hk (by rw [hsucc, hq]; simp)
  · have := ho.acc_isDone (show k + 1 < t by omega) ht (by rw [hq]; simp)
    exact ho.accSend k hk (Phase.ne_idle_of_isDone this)

/-- Operations whose body is a computation, a send or a receive. -/
theorem Builds.role_of_body (hB : J.Builds cap) (hi : i < J.csize) {v : Nat}
    (hv : v ∈ (hB.graph hi).verts) :
    (∀ b1 b2 b3 o, ((J.build cap i).2.ops v).body = .comp b1 b2 b3 o →
      ∃ t, t ≤ J.rounds i ∧ v = J.accOp i t ∧ b3 = J.rb i ∧
        (t = 0 ∧ b1 = J.src i ∨ ∃ k, t = k + 1 ∧ b1 = J.tmp i k)) ∧
    (∀ peer tag b, ((J.build cap i).2.ops v).body = .send peer tag b →
      ∃ k, k < J.rounds i ∧ v = J.sendOp i k) ∧
    (∀ peer tag b, ((J.build cap i).2.ops v).body = .recv peer tag b →
      ∃ k, k < J.rounds i ∧ v = J.recvOp i k ∧ b = J.tmp i k) := by
  cases hB.role hi hv with
  | begin hvb =>
      rw [hvb, hB.body_begin hi]
      simp
  | «end» hve =>
      rw [hve, hB.body_end hi]
      simp
  | acc t ht hvt =>
      subst hvt
      cases t with
      | zero =>
          rw [hB.body_move hi]
          split
          · simp
          · refine ⟨fun b1 b2 b3 o heq => ?_, by simp, by simp⟩
            obtain ⟨rfl, _, rfl, _⟩ := FfopBody.comp.inj heq
            exact ⟨0, ht, rfl, rfl, Or.inl ⟨rfl, rfl⟩⟩
      | succ k =>
          rw [hB.body_comp hi (List.getElem?_eq_getElem ht)]
          refine ⟨fun b1 b2 b3 o heq => ?_, by simp, by simp⟩
          obtain ⟨rfl, _, rfl, _⟩ := FfopBody.comp.inj heq
          exact ⟨k + 1, ht, rfl, rfl, Or.inr ⟨k, rfl, rfl⟩⟩
  | send k b hk hvk =>
      rw [hvk, hB.body_send hi hk]
      exact ⟨by simp, fun _ _ _ _ => ⟨k, lt_rounds hk, rfl⟩, by simp⟩
  | recv k b hk hvk =>
      rw [hvk, hB.body_recv hi hk]
      refine ⟨by simp, by simp, fun _ _ _ heq => ⟨k, lt_rounds hk, rfl, ?_⟩⟩
      obtain ⟨_, _, rfl⟩ := FfopBody.recv.inj heq
      rfl

theorem noHazard {w : World α} {s : Nat → Option (Progress Nat)} (h : WorldInv hB w s)
    (hi : i < J.csize) : J.NoHazard cap w i := by
  intro t x fs b1 b2 b3 operator hstack hbody y hlo hy
  have hr := h i hi
  cases hs : s i with
  | none =>
      rw [hs] at hr
      obtain ⟨v, k, heq, _⟩ := hr.1.exhausted _ (Proc.top_mem_frames hstack)
      cases heq
  | some a =>
      rw [hs] at hr
      have hx := hr.1.phase_of_post (Proc.top_mem_frames hstack)
      have ho := hB.order hi hr.1.sound
      rw [(hr.1.same x).body_eq] at hbody
      obtain ⟨t, ht, rfl, _, hb1⟩ :=
        (hB.role_of_body hi (hr.1.sound.mem_verts (by simp [hx]))).1 _ _ _ _ hbody
      have hverts : y ∈ (hB.graph hi).verts := (hB.built hi).built.mem_verts.mpr ⟨hlo, hy⟩
      obtain ⟨_, hsend, hrecv⟩ := hB.role_of_body hi hverts
      rw [(hr.1.same y).body_eq]
      refine ⟨fun peer tag hyb hpost => ?_, fun peer tag hyb => ?_⟩
      · obtain ⟨k, hk, rfl⟩ := hsend _ _ _ hyb
        have hst : (a.phase (J.sendOp i k)).isStarted = true := by
          have hcount := hr.1.log.posting (J.sendOp i k)
          have hpos := List.count_pos_iff.mpr hpost
          by_contra hne
          rw [if_neg hne] at hcount
          omega
        exact hr.1.log.mem_completing (ho.send_isDone hk ht hx hst)
      · obtain ⟨k, hk, rfl, hb⟩ := hrecv _ _ _ hyb
        rcases hb1 with ⟨_, hsrc⟩ | ⟨l, rfl, hl⟩
        · have hne := (J.setup_buffers i).1.src_ne k (hk.trans_le rounds_le)
          exact absurd (hsrc.symm.trans hb) hne
        · obtain rfl : k = l := by
            rw [hl] at hb
            simp only [tmp] at hb
            omega
          exact hr.1.log.mem_completing (ho.accRecv k hk (by rw [hx]; simp))

end Hazard

/-- A collective of ranks that each hold one number. -/
theorem le_of_builds {cap csize : Nat} (hpos : 0 < csize)
    (h : (ofInputs csize 1 hpos (fun a b => a + b) fun i _ _ => i).Builds (cap + 1)) :
    csize ≤ 2 ^ cap := (builds_succ_iff _).mp h

theorem allreduceRounds_of_cap (cap d : Nat) :
    AllreduceRounds (cap + 1) (2 ^ d) ↔ 2 ^ d ≤ 2 ^ cap := by
  constructor
  · intro hall
    exact le_of_builds (Nat.two_pow_pos d) (hall Nat _ rfl
      (fun a b => by rw [ofInputs_op]; exact Nat.add_comm a b)
      (fun a b c => by rw [ofInputs_op]; exact Nat.add_assoc a b c)).1
  · intro hle α J hJ hcomm hassoc
    have hB : J.Builds (cap + 1) := J.builds_succ_iff.mpr (hJ.trans_le hle)
    refine ⟨hB, fun K sync w hw => ⟨matched_of_reachable hB hw, fun i m x hi hx hc => ?_⟩⟩
    obtain ⟨s, h⟩ := worldInv_of_reachable hB hw
    have hi' : i < J.csize := hJ ▸ hi
    rw [h.result hi' hc x hx, value_eq_fold hJ hcomm hassoc _ _ hi', hJ]

/-- **Successive allreduces do not mix**, for `csize = 2 ^ d` iff `csize` is at most `512`;
with other arrays, iff the schedules fit into them. -/
theorem allreduceRounds_iff (d : Nat) :
    (AllreduceRounds maxDeps (2 ^ d) ↔ 2 ^ d ≤ 512) ∧
      ∀ cap, AllreduceRounds (cap + 1) (2 ^ d) ↔ 2 ^ d ≤ 2 ^ cap :=
  ⟨allreduceRounds_of_cap 9 d, fun cap => allreduceRounds_of_cap cap d⟩

/-- With `1024` ranks the array of `begin_op` overflows before the first round. -/
theorem allreduceRounds_fails : ¬ ∀ d, AllreduceRounds maxDeps (2 ^ d) := by
  intro hall
  exact absurd ((allreduceRounds_of_cap 9 10).mp (hall 10)) (by decide)

theorem allreduceDeterministic_of_cap (cap csize : Nat) :
    AllreduceDeterministic (cap + 1) csize ↔ csize ≤ 2 ^ cap := by
  constructor
  · intro hall
    rcases Nat.eq_zero_or_pos csize with rfl | hpos
    · exact Nat.zero_le _
    · exact le_of_builds hpos (hall Nat _ rfl).1
  · intro hle α J hJ
    have hB : J.Builds (cap + 1) := J.builds_succ_iff.mpr (hJ.trans_le hle)
    refine ⟨hB, fun sync sync' w w' hw hw' hc hc' i x hi hx => ?_, fun sync w hw i hi => ?_⟩
    · obtain ⟨s, h⟩ := worldInv_of_reachable hB hw
      obtain ⟨s', h'⟩ := worldInv_of_reachable hB hw'
      have hi' : i < J.csize := hJ ▸ hi
      rw [h.result hi' (hc i hi) x hx, h'.result hi' (hc' i hi) x hx]
    · obtain ⟨s, h⟩ := worldInv_of_reachable hB hw
      exact noHazard h (hJ ▸ hi)

/-- **Order-independence** for any operator, for at most `512` ranks; with other arrays, iff
the schedules fit into them. -/
theorem allreduceDeterministic_iff (csize : Nat) :
    (AllreduceDeterministic maxDeps csize ↔ csize ≤ 512) ∧
      ∀ cap, AllreduceDeterministic (cap + 1) csize ↔ csize ≤ 2 ^ cap :=
  ⟨allreduceDeterministic_of_cap 9 csize, fun cap => allreduceDeterministic_of_cap cap csize⟩

theorem allreduceDeterministic_fails :
    ¬ ∀ csize, 1 ≤ csize → AllreduceDeterministic maxDeps csize := by
  intro hall
  exact absurd ((allreduceDeterministic_of_cap 9 1024).mp (hall 1024 (by decide))) (by decide)

theorem allreduceAgrees_of_cap (cap d : Nat) :
    AllreduceAgrees (cap + 1) (2 ^ d) ↔ 2 ^ d ≤ 2 ^ cap := by
  constructor
  · intro hall
    exact le_of_builds (Nat.two_pow_pos d) (hall Nat _ rfl
      (fun a b => by rw [ofInputs_op]; exact Nat.add_comm a b)).1
  · intro hle α J hJ hcomm
    have hB : J.Builds (cap + 1) := J.builds_succ_iff.mpr (hJ.trans_le hle)
    refine ⟨hB, fun sync w hw hc i j x hi hj hx => ?_⟩
    obtain ⟨s, h⟩ := worldInv_of_reachable hB hw
    have hvalue := exchange_congr_block hcomm (fun j => J.input j 0 x) d le_rfl i j hi hj
      (by rw [Nat.div_eq_of_lt hi, Nat.div_eq_of_lt hj])
    rw [h.result (hJ ▸ hi) (hc i hi) x hx, h.result (hJ ▸ hj) (hc j hj) x hx, value, value,
      maxr_of_two_pow hJ, hJ]
    exact hvalue

/-- **Agreement without associativity**, for `csize = 2 ^ d` iff `csize` is at most `512`;
with other arrays, iff the schedules fit into them. -/
theorem allreduceAgrees_iff (d : Nat) :
    (AllreduceAgrees maxDeps (2 ^ d) ↔ 2 ^ d ≤ 512) ∧
      ∀ cap, AllreduceAgrees (cap + 1) (2 ^ d) ↔ 2 ^ d ≤ 2 ^ cap :=
  ⟨allreduceAgrees_of_cap 9 d, fun cap => allreduceAgrees_of_cap cap d⟩

theorem allreduceAgrees_fails : ¬ ∀ d, AllreduceAgrees maxDeps (2 ^ d) := by
  intro hall
  exact absurd ((allreduceAgrees_of_cap 9 10).mp (hall 10)) (by decide)

end Ranks

end Fflib
