import Fflib.NetProgress
import Fflib.NetTrace
import Mathlib.Tactic.FinCases

/-!
# A ping-pong between two ranks

`test/ping_pong_schedule.c`: rank 0 sends `buffer_ping` and receives into `buffer_pong`;
rank 1 receives into its `buffer_ping` and sends it back.  Rank 1 gives one address to the
buffer of its receive and to that of its send, so that only `ffop_hb(pingop, pongop)` keeps
them apart.
-/

namespace Fflib

open Library

universe u

variable {α : Type u}

/-- The calls of rank `i`: the handles of `pingop` and `pongop` are 2 and 3, those of their
buffers 1 and 2. -/
def pingPongCalls (count : Nat) : Nat → List BuildCall
  | 0 =>
      [.scheduleCreate, .buffer count 0, .create (.send 1 0 1) 0, .buffer count 0,
        .create (.recv 1 0 2) 0, .addOp 2, .addOp 3]
  | _ =>
      [.scheduleCreate, .buffer count 0, .create (.recv 0 0 1) 0, .buffer count 0,
        .create (.send 0 0 2) 0, .hb 2 3, .addOp 2, .addOp 3]

/-- What the calls of rank `i` have built. -/
def pingPongBuilt (count i : Nat) : Builder :=
  (run (buildStep maxDeps Lib.init.opid) ⟨none, Lib.init⟩ (pingPongCalls count i)).getD
    ⟨none, Lib.init⟩

/-- The addresses behind the buffers: `buffer_ping` is 0, `buffer_pong` is 1. -/
def pingPongPtr : Nat → Nat → Nat
  | 0, 2 => 1
  | _, _ => 0

/-- Rank 0 fills `buffer_ping` and clears `buffer_pong`. -/
def pingPongUser (count : Nat) (ping pong : Nat → α) (i : Nat) (mem : Nat → Nat → α)
    (p x : Nat) : α :=
  if i = 0 ∧ x < count then if p = 0 then ping x else if p = 1 then pong x else mem p x
  else mem p x

theorem pingPongBuilt_spec (count : Nat) (i : Fin 2) : ∃ s,
    (pingPongBuilt count i).sched = some s ∧ s.beginOp = 0 ∧ s.endOp = 1 ∧
      s.postCallback = none ∧
      ScheduleBuilt maxDeps Lib.init (pingPongCalls count i) s (pingPongBuilt count i).lib := by
  have hcases : ∀ x, 0 ≤ x ∧ x < 4 ∧ x ≠ 0 ∧ x ≠ 1 → x = 2 ∨ x = 3 := by omega
  have hping : 0 ≤ 2 ∧ 2 < 4 ∧ 2 ≠ 0 ∧ 2 ≠ 1 := by decide
  obtain ⟨i, hi⟩ := i
  obtain rfl | rfl : i = 0 ∨ i = 1 := by omega
  · refine ⟨_, rfl, rfl, rfl, rfl, rfl, ⟨2, member_some.mpr hping⟩, fun x hx => ?_,
      ?_, fun body o hc => ?_⟩
    · rcases hcases x (member_some.mp hx) with rfl | rfl <;> rfl
    · exact acyclic_of_lt id (fun a b hab => by simp [pingPongCalls] at hab)
    · simp only [pingPongCalls, List.mem_cons, BuildCall.create.injEq, reduceCtorEq,
        List.not_mem_nil, or_false, false_or] at hc
      rcases hc with ⟨_, rfl⟩ | ⟨_, rfl⟩ <;> decide
  · refine ⟨_, rfl, rfl, rfl, rfl, rfl, ⟨2, member_some.mpr hping⟩, fun x hx => ?_,
      ?_, fun body o hc => ?_⟩
    · rcases hcases x (member_some.mp hx) with rfl | rfl <;> rfl
    · refine acyclic_of_lt id (fun a b hab => ?_)
      simp only [pingPongCalls, List.mem_cons, BuildCall.hb.injEq, reduceCtorEq,
        List.not_mem_nil, or_false, false_or] at hab
      simp [hab.1, hab.2]
    · simp only [pingPongCalls, List.mem_cons, BuildCall.create.injEq, reduceCtorEq,
        List.not_mem_nil, or_false, false_or] at hc
      rcases hc with ⟨_, rfl⟩ | ⟨_, rfl⟩ <;> decide

/-- The schedule of rank `i`. -/
def pingPongSched (count i : Nat) : FfSchedule :=
  (pingPongBuilt count i).sched.getD (ffscheduleCreate Lib.init).1

theorem pingPongSched_spec (count : Nat) (i : Fin 2) :
    (pingPongSched count i).beginOp = 0 ∧ (pingPongSched count i).endOp = 1 ∧
      (pingPongSched count i).postCallback = none ∧
      ScheduleBuilt maxDeps Lib.init (pingPongCalls count i) (pingPongSched count i)
        (pingPongBuilt count i).lib := by
  obtain ⟨s, hs, h⟩ := pingPongBuilt_spec count i
  rw [pingPongSched, hs]
  exact h

/-- The program, with `ping` and `pong` as what rank 0 writes into its buffers. -/
def pingPong (count : Nat) (ping pong : Nat → α) (mem₀ : Nat → Nat → Nat → α) : Net α 2 where
  cap := maxDeps
  ops _ a _ := a
  lib₀ _ := Lib.init
  calls := pingPongCalls count
  sched := pingPongSched count
  lib i := (pingPongBuilt count i).lib
  ptr := pingPongPtr
  mem₀ := mem₀
  user i _ := pingPongUser count ping pong i
  built i := (pingPongSched_spec count i).2.2.2
  callback i := (pingPongSched_spec count i).2.2.1

section Program

variable (count : Nat) (ping pong : Nat → α) (mem₀ : Nat → Nat → Nat → α)

theorem pingPong_mem_verts {i : Fin 2} {v : Nat} :
    v ∈ ((pingPong count ping pong mem₀).graph i).verts ↔ v < 4 := by
  have hopid : (pingPongBuilt count i).lib.opid = 4 := by
    obtain ⟨i, hi⟩ := i
    obtain rfl | rfl : i = 0 ∨ i = 1 := by omega
    · rfl
    · rfl
  rw [Net.graph, ScheduleBuilt.mem_verts]
  show 0 ≤ v ∧ v < (pingPongBuilt count i).lib.opid ↔ v < 4
  rw [hopid]
  simp

/-- What the operations do. -/
theorem pingPong_body :
    (∀ i : Fin 2, (pingPong count ping pong mem₀).body i 0 = .nop ∧
      (pingPong count ping pong mem₀).body i 1 = .nop) ∧
    (pingPong count ping pong mem₀).body 0 2 = .send 1 0 1 ∧
    (pingPong count ping pong mem₀).body 0 3 = .recv 1 0 2 ∧
    (pingPong count ping pong mem₀).body 1 2 = .recv 0 0 1 ∧
    (pingPong count ping pong mem₀).body 1 3 = .send 0 0 2 := by
  refine ⟨fun i => ?_, rfl, rfl, rfl, rfl⟩
  obtain ⟨i, hi⟩ := i
  obtain rfl | rfl : i = 0 ∨ i = 1 := by omega
  · exact ⟨rfl, rfl⟩
  · exact ⟨rfl, rfl⟩

theorem pingPong_sends_iff {i : Fin 2} {x peer tag b : Nat} :
    (pingPong count ping pong mem₀).Sends i x peer tag b ↔
      tag = 0 ∧ (i = 0 ∧ x = 2 ∧ peer = 1 ∧ b = 1 ∨ i = 1 ∧ x = 3 ∧ peer = 0 ∧ b = 2) := by
  obtain ⟨hnop, h02, h03, h12, h13⟩ := pingPong_body count ping pong mem₀
  rw [Net.Sends, pingPong_mem_verts]
  constructor
  · rintro ⟨hx, hb⟩
    obtain rfl | rfl | rfl | rfl : x = 0 ∨ x = 1 ∨ x = 2 ∨ x = 3 := by omega
    · cases (hnop i).1.symm.trans hb
    · cases (hnop i).2.symm.trans hb
    · fin_cases i
      · cases h02.symm.trans hb
        simp
      · cases h12.symm.trans hb
    · fin_cases i
      · cases h03.symm.trans hb
      · cases h13.symm.trans hb
        simp
  · rintro ⟨rfl, ⟨rfl, rfl, rfl, rfl⟩ | ⟨rfl, rfl, rfl, rfl⟩⟩
    · exact ⟨by decide, h02⟩
    · exact ⟨by decide, h13⟩

theorem pingPong_receives_iff {i : Fin 2} {x peer tag b : Nat} :
    (pingPong count ping pong mem₀).Receives i x peer tag b ↔
      tag = 0 ∧ (i = 0 ∧ x = 3 ∧ peer = 1 ∧ b = 2 ∨ i = 1 ∧ x = 2 ∧ peer = 0 ∧ b = 1) := by
  obtain ⟨hnop, h02, h03, h12, h13⟩ := pingPong_body count ping pong mem₀
  rw [Net.Receives, pingPong_mem_verts]
  constructor
  · rintro ⟨hx, hb⟩
    obtain rfl | rfl | rfl | rfl : x = 0 ∨ x = 1 ∨ x = 2 ∨ x = 3 := by omega
    · cases (hnop i).1.symm.trans hb
    · cases (hnop i).2.symm.trans hb
    · fin_cases i
      · cases h02.symm.trans hb
      · cases h12.symm.trans hb
        simp
    · fin_cases i
      · cases h03.symm.trans hb
        simp
      · cases h13.symm.trans hb
  · rintro ⟨rfl, ⟨rfl, rfl, rfl, rfl⟩ | ⟨rfl, rfl, rfl, rfl⟩⟩
    · exact ⟨by decide, h03⟩
    · exact ⟨by decide, h12⟩

theorem pingPong_paired : (pingPong count ping pong mem₀).Paired where
  send_unique hx hx' := by
    rw [pingPong_sends_iff] at hx hx'
    omega
  recv_unique hy hy' := by
    rw [pingPong_receives_iff] at hy hy'
    omega
  send_matched {i x peer tag b} hx := by
    rw [pingPong_sends_iff] at hx
    obtain ⟨rfl, ⟨rfl, rfl, rfl, rfl⟩ | ⟨rfl, rfl, rfl, rfl⟩⟩ := hx
    · exact ⟨1, 2, 1, rfl, (pingPong_receives_iff count ping pong mem₀).mpr (by simp)⟩
    · exact ⟨0, 3, 2, rfl, (pingPong_receives_iff count ping pong mem₀).mpr (by simp)⟩
  recv_matched {i x peer tag b} hx := by
    rw [pingPong_receives_iff] at hx
    obtain ⟨rfl, ⟨rfl, rfl, rfl, rfl⟩ | ⟨rfl, rfl, rfl, rfl⟩⟩ := hx
    · exact ⟨1, 3, 2, rfl, (pingPong_sends_iff count ping pong mem₀).mpr (by simp)⟩
    · exact ⟨0, 2, 1, rfl, (pingPong_sends_iff count ping pong mem₀).mpr (by simp)⟩

/-- The edges of the schedules. -/
theorem pingPong_pred {i : Fin 2} {u v : Nat}
    (h : ((pingPong count ping pong mem₀).graph i).Pred u v) :
    u < 4 ∧ v < 4 ∧ v ≠ 0 ∧ u ≠ 1 ∧ (u = 0 ∨ v = 1 ∨ i = 1 ∧ u = 2 ∧ v = 3) := by
  obtain ⟨hbegin, hend, _, hb⟩ := pingPongSched_spec count i
  have hwaits : (pingPong count ping pong mem₀).Waits false (i, u) (i, v) := .pred h
  have hmem := hwaits.mem_verts
  simp only [pingPong_mem_verts] at hmem
  refine ⟨hmem.1, hmem.2, ?_, ?_, ?_⟩
  · rintro rfl
    refine hb.no_pred_begin (p := u) ?_
    rw [hbegin]
    exact h
  · rintro rfl
    refine hb.no_pred_of_end (d := v) ?_
    rw [hend]
    exact h
  · cases hb.origin h with
    | fromBegin hs hp =>
        obtain rfl := Option.some.inj hs
        exact Or.inl (hp.trans hbegin)
    | toEnd hs _ hd =>
        obtain rfl := Option.some.inj hs
        exact Or.inr (Or.inl (hd.trans hend))
    | hb hcall =>
        fin_cases i
        · simp [pingPongCalls] at hcall
        · simp only [pingPongCalls, List.mem_cons, BuildCall.hb.injEq, reduceCtorEq,
            List.not_mem_nil, or_false, false_or] at hcall
          exact Or.inr (Or.inr ⟨rfl, hcall⟩)

theorem pingPong_hb : ((pingPong count ping pong mem₀).graph 1).Pred 2 3 := by
  refine (pingPongSched_spec count 1).2.2.2.pred_of_hb ?_
  show BuildCall.hb 2 3 ∈ pingPongCalls count 1
  simp [pingPongCalls]

/-- When an operation can run, whatever sends do. -/
def pingPongOrder (i : Fin 2) : Nat → Nat
  | 0 => 0
  | 1 => 5
  | 2 => if i = 0 then 1 else 2
  | _ => if i = 0 then 4 else 3

theorem pingPong_order_pred {i : Fin 2} {u v : Nat}
    (h : ((pingPong count ping pong mem₀).graph i).Pred u v) :
    pingPongOrder i u < pingPongOrder i v := by
  obtain ⟨hu, hv, hv0, hu1, hcase⟩ := pingPong_pred count ping pong mem₀ h
  have hsmall : ∀ (i : Fin 2) (u v : Fin 4), v.1 ≠ 0 → u.1 ≠ 1 →
      (u.1 = 0 ∨ v.1 = 1 ∨ i = 1 ∧ u.1 = 2 ∧ v.1 = 3) →
        pingPongOrder i u < pingPongOrder i v := by
    decide
  exact hsmall i ⟨u, hu⟩ ⟨v, hv⟩ hv0 hu1 hcase

theorem pingPong_order_matches {i j : Fin 2} {x y : Nat}
    (h : (pingPong count ping pong mem₀).Matches i x j y) :
    pingPongOrder i x < pingPongOrder j y := by
  obtain ⟨tag, b, c, hx, hy⟩ := h
  rw [pingPong_sends_iff] at hx
  rw [pingPong_receives_iff] at hy
  obtain ⟨_, ⟨rfl, rfl, hj, _⟩ | ⟨rfl, rfl, hj, _⟩⟩ := hx
  · obtain ⟨_, ⟨rfl, _⟩ | ⟨rfl, rfl, _⟩⟩ := hy
    · cases hj
    · decide
  · obtain ⟨_, ⟨rfl, rfl, _⟩ | ⟨rfl, _⟩⟩ := hy
    · decide
    · cases hj

theorem pingPong_acyclic (sync : Bool) : (pingPong count ping pong mem₀).Acyclic sync := by
  refine acyclic_of_lt (fun p => pingPongOrder p.1 p.2) (fun p q h => ?_)
  cases h with
  | pred hp => exact pingPong_order_pred count ping pong mem₀ hp
  | recv hp hm =>
      exact (pingPong_order_pred count ping pong mem₀ hp).trans
        (pingPong_order_matches count ping pong mem₀ hm)
  | @send i j u x y hp hm _ =>
      -- only the begin operation comes before a receive
      obtain ⟨tag, b, c, hx, hy⟩ := hm
      rw [pingPong_sends_iff] at hx
      rw [pingPong_receives_iff] at hy
      have hu : u = 0 := by
        obtain ⟨_, _, _, _, hcase⟩ := pingPong_pred count ping pong mem₀ hp
        rcases hcase with h | h | ⟨_, _, h⟩
        · exact h
        · omega
        · omega
      subst hu
      obtain ⟨_, ⟨rfl, rfl, _⟩ | ⟨rfl, rfl, _⟩⟩ := hx
      · exact Nat.zero_lt_succ 0
      · exact Nat.zero_lt_succ 2

/-- The test comes to its end. -/
theorem pingPong_finishes (sync : Bool) : ∃ as w,
    run (netStep (pingPong count ping pong mem₀) sync 1) (pingPong count ping pong mem₀).initial
      as = some w ∧ Net.Finished 1 w := by
  have hP := pingPong_paired count ping pong mem₀
  have hstart : Reachable (netStep (pingPong count ping pong mem₀) sync 1)
    (pingPong count ping pong mem₀).initial (pingPong count ping pong mem₀).initial := .refl _
  obtain ⟨as, w, hrun, hst⟩ := Net.exists_stuck hP.toChannels hstart
  exact ⟨as, w, hrun, Net.finished_of_stuck hP (pingPong_acyclic count ping pong mem₀ sync)
    ⟨as, hrun⟩ hst⟩

theorem pingPong_raceFree : (pingPong count ping pong mem₀).RaceFree := by
  obtain ⟨hnop, h02, h03, h12, h13⟩ := pingPong_body count ping pong mem₀
  intro i u v p hu hv hne hw huse
  rw [pingPong_mem_verts] at hu hv
  have hcases : ∀ x, x < 4 → x = 0 ∨ x = 1 ∨ x = 2 ∨ x = 3 := by omega
  fin_cases i
  · -- rank 0 writes only `buffer_pong`, with its receive
    obtain rfl | rfl | rfl | rfl := hcases u hu
    · rw [(hnop _).1] at hw
      cases hw
    · rw [(hnop _).2] at hw
      cases hw
    · cases h02 ▸ hw
    · have hp : p ∈ (pingPong count ping pong mem₀).bodyWrites 0 (.recv 1 0 2) := by
        rw [← h03]
        exact hw
      obtain rfl : p = 1 := hp
      obtain rfl | rfl | rfl | rfl := hcases v hv
      · rw [(hnop _).1] at huse
        rcases huse with h | h <;> cases h
      · rw [(hnop _).2] at huse
        rcases huse with h | h <;> cases h
      · rcases h02 ▸ huse with h | h <;> cases h
      · exact absurd rfl hne
  · -- rank 1 writes `buffer_ping` with its receive, and its send comes later
    obtain rfl | rfl | rfl | rfl := hcases u hu
    · rw [(hnop _).1] at hw
      cases hw
    · rw [(hnop _).2] at hw
      cases hw
    · obtain rfl | rfl | rfl | rfl := hcases v hv
      · rw [(hnop _).1] at huse
        rcases huse with h | h <;> cases h
      · rw [(hnop _).2] at huse
        rcases huse with h | h <;> cases h
      · exact absurd rfl hne
      · exact Or.inl (.single (pingPong_hb count ping pong mem₀))
    · cases h13 ▸ hw

/-- One round, one task after another. -/
def pingPongTasks : List (Task 2) :=
  [.user 0 0, .user 1 0, .op 0 0 0, .op 1 0 0, .op 0 0 2, .op 1 0 2, .op 1 0 3, .op 0 0 3,
    .op 0 0 1, .op 1 0 1]

def pingPongTaskOrder : Task 2 → Nat
  | .user _ m => 7 * m
  | .op i m v => 7 * m + 1 + pingPongOrder i v

theorem pingPongTaskOrder_lt {t t' : Task 2}
    (h : (pingPong count ping pong mem₀).Before t t') :
    pingPongTaskOrder t < pingPongTaskOrder t' := by
  have hle : ∀ (i : Fin 2) v, v < 4 → pingPongOrder i v ≤ 5 := by
    have hsmall : ∀ (i : Fin 2) (v : Fin 4), pingPongOrder i v ≤ 5 := by decide
    exact fun i v hv => hsmall i ⟨v, hv⟩
  cases h with
  | user h =>
      simp only [pingPongTaskOrder]
      omega
  | enter h =>
      simp only [pingPongTaskOrder]
      omega
  | @leave i m m' v hv h =>
      have := hle i v ((pingPong_mem_verts count ping pong mem₀).mp hv)
      simp only [pingPongTaskOrder]
      omega
  | @round i m m' u v hu h =>
      have := hle i u ((pingPong_mem_verts count ping pong mem₀).mp hu)
      simp only [pingPongTaskOrder]
      omega
  | @pred i m u v h =>
      have hlt : pingPongOrder i u < pingPongOrder i v := by
        induction h with
        | single hp => exact pingPong_order_pred count ping pong mem₀ hp
        | tail _ hp ih => exact ih.trans (pingPong_order_pred count ping pong mem₀ hp)
      simp only [pingPongTaskOrder]
      omega
  | message m h =>
      have := pingPong_order_matches count ping pong mem₀ h
      simp only [pingPongTaskOrder]
      omega

theorem pingPongTasks_respects :
    Respects (pingPong count ping pong mem₀).Before pingPongTasks := by
  have hsorted : pingPongTasks.Pairwise
      fun t t' => pingPongTaskOrder t ≤ pingPongTaskOrder t' := by decide
  exact hsorted.imp (fun hle hb =>
    absurd (pingPongTaskOrder_lt count ping pong mem₀ hb) (Nat.not_lt.mpr hle))

theorem mem_pingPongTasks {t : Task 2} :
    t ∈ pingPongTasks ↔ (pingPong count ping pong mem₀).Known t ∧ t.round = 0 := by
  have hcases : ∀ x, x < 4 → x = 0 ∨ x = 1 ∨ x = 2 ∨ x = 3 := by omega
  cases t with
  | user i m =>
      simp only [Net.Known, Task.round, true_and]
      constructor
      · intro h
        simp only [pingPongTasks, List.mem_cons, Task.user.injEq, reduceCtorEq, List.not_mem_nil,
          or_false] at h
        omega
      · rintro rfl
        fin_cases i <;> decide
  | op i m v =>
      simp only [Net.Known, Task.round, pingPong_mem_verts]
      constructor
      · intro h
        simp only [pingPongTasks, List.mem_cons, Task.op.injEq, reduceCtorEq, List.not_mem_nil,
          or_false, false_or] at h
        omega
      · rintro ⟨hv, rfl⟩
        obtain rfl | rfl | rfl | rfl := hcases v hv <;> fin_cases i <;> decide

/-- What the four requests do. -/
theorem pingPong_exec (σ : Store α) :
    (pingPong count ping pong mem₀).execTask (.op 0 0 2) σ =
        Function.update σ (.message 0 1 0 0) (some (count, σ (.memory 0 0))) ∧
      (pingPong count ping pong mem₀).execTask (.op 1 0 2) σ =
        Function.update σ (.memory 1 0)
          (receiveInto count (σ (.message 0 1 0 0)) (σ (.memory 1 0))) ∧
      (pingPong count ping pong mem₀).execTask (.op 1 0 3) σ =
        Function.update σ (.message 1 0 0 0) (some (count, σ (.memory 1 0))) ∧
      (pingPong count ping pong mem₀).execTask (.op 0 0 3) σ =
        Function.update σ (.memory 0 1)
          (receiveInto count (σ (.message 1 0 0 0)) (σ (.memory 0 1))) :=
  ⟨rfl, rfl, rfl, rfl⟩

/-- What the two ranks check at the end of the test. -/
theorem pingPong_result (x : Nat) (hx : x < count) (σ : Store α) :
    (pingPong count ping pong mem₀).tasks.execAll pingPongTasks σ (.memory 0 1) x = ping x ∧
      (pingPong count ping pong mem₀).tasks.execAll pingPongTasks σ (.memory 1 0) x =
        ping x := by
  have hnop : ∀ (i : Fin 2) (σ : Store α),
      (pingPong count ping pong mem₀).execTask (.op i 0 0) σ = σ ∧
        (pingPong count ping pong mem₀).execTask (.op i 0 1) σ = σ := by
    intro i σ
    simp only [Net.execTask, (pingPong_body count ping pong mem₀).1 i, and_self]
  have huser : ∀ σ : Store α, (pingPong count ping pong mem₀).execTask (.user 1 0)
      ((pingPong count ping pong mem₀).execTask (.user 0 0) σ) (.memory 0 0) x = ping x := by
    intro σ
    simp [Net.execTask, pingPong, pingPongUser, hx]
  have hexec := pingPong_exec count ping pong mem₀
  simp only [pingPongTasks, Tasks.execAll_cons, Tasks.execAll_nil, Net.tasks, hnop, hexec]
  have hx' : x < count ∧ x < count := ⟨hx, hx⟩
  constructor
  · simp [receiveInto, hx', huser]
  · simp [receiveInto, hx', huser]

end Program

/-- **The test passes**: in any run of the two ranks some process can take a step until both
have returned from `ffschedule_wait`, and then `buffer_pong` of rank 0 and `buffer_ping` of
rank 1 hold what rank 0 has sent. -/
theorem ping_pong_schedule_passes (count : Nat) (ping pong : Nat → α)
    (mem₀ : Nat → Nat → Nat → α) (sync : Bool) (w : NetState α 2)
    (hw : Reachable (netStep (pingPong count ping pong mem₀) sync 1)
      (pingPong count ping pong mem₀).initial w) :
    ((pingPong count ping pong mem₀).Stuck sync 1 w → Net.Finished 1 w) ∧
      (Net.Finished 1 w → ∀ x, x < count →
        (w.env 0).mem 1 x = ping x ∧ (w.env 1).mem 0 x = ping x) := by
  have hP := pingPong_paired count ping pong mem₀
  refine ⟨fun hst => Net.finished_of_stuck hP (pingPong_acyclic count ping pong mem₀ sync) hw hst,
    fun hf x hx => ?_⟩
  obtain ⟨s, hinv, es, ht⟩ := Net.exists_trace hP.toChannels hw
  have hmem : ∀ (i : Fin 2) p, (w.env i).mem p =
      (pingPong count ping pong mem₀).tasks.execAll pingPongTasks
        (pingPong count ping pong mem₀).start.env.store (.memory i p) := by
    intro i p
    have hnone : s i = none := hinv.none_of_not_running (hf i).2
    have hready := hinv.ready_of_finished hf i
    refine ht.memory_eq hP.toChannels (pingPong_raceFree count ping pong mem₀) hinv.view hnone
      (by decide) (pingPongTasks_respects count ping pong mem₀) (fun t t' hb ht' => ?_)
      (fun t ht => ((mem_pingPongTasks count ping pong mem₀).mp ht).1) (fun t hi => ?_) p
    · obtain ⟨hknown, hle⟩ := Net.Before.known _ hb
      have hzero := ((mem_pingPongTasks count ping pong mem₀).mp ht').2
      exact (mem_pingPongTasks count ping pong mem₀).mpr ⟨hknown, by omega⟩
    · have hround : (w.env i).round = 1 := (hf i).1
      simp only [hround, hready]
      rw [mem_pingPongTasks count ping pong mem₀, Net.upTo_iff hi, Nat.lt_one_iff]
  obtain ⟨h0, h1⟩ := pingPong_result count ping pong mem₀ x hx
    (pingPong count ping pong mem₀).start.env.store
  exact ⟨(congrFun (hmem 0 1) x).trans h0, (congrFun (hmem 1 0) x).trans h1⟩

theorem ping_pong_schedule_passes_two : ∃ w : NetState Nat 2, Net.Finished 1 w ∧
    ∀ x, x < 2 → (w.env 0).mem 1 x = x ∧ (w.env 1).mem 0 x = x := by
  obtain ⟨as, w, hrun, hf⟩ :=
    pingPong_finishes 2 id (fun _ => 0) (fun _ _ _ => 7) true
  exact ⟨w, hf, (ping_pong_schedule_passes 2 id (fun _ => 0) (fun _ _ _ => 7) true w
    ⟨as, hrun⟩).2 hf⟩

end Fflib
