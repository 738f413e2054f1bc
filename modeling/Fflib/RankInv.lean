import Fflib.World

/-!
# One rank of the allreduce

The operations of a rank and the order in which they run, and what they say of its
requests and buffers.

* `Order` is what the edges of the schedule give: a send waits for the
  accumulation before it, an accumulation for the send and the receive before it.
* `SendInv` and `RecvInv` describe the requests of one iteration over all rounds:
  the `m`-th request belongs to round `m + 1` and carries the value of that round.
* `DataInv` says what the receive buffer holds between two accumulations.
-/

namespace Fflib

open Library

universe u

variable {α : Type u}

namespace Ranks

variable (J : Ranks α)

/-! ### Operations -/

/-- `move` for `t = 0`, and the `comp` of the `t`-th iteration with a partner. -/
def accOp (i t : Nat) : Nat := (J.lib₀ i).opid + 2 + 3 * t
def sendOp (i k : Nat) : Nat := (J.lib₀ i).opid + 3 + 3 * k
def recvOp (i k : Nat) : Nat := (J.lib₀ i).opid + 4 + 3 * k

/-- Number of iterations with a partner. -/
def rounds (i : Nat) : Nat := (J.bits i).length

/-- The exchanges that are over when the `t`-th accumulation is. -/
def level (i t : Nat) : Nat := (J.bits i).getD t J.maxr

/-- The operation that a handle stands for. -/
inductive Role (i v : Nat) : Prop
  | begin (hv : v = (J.lib₀ i).opid)
  | «end» (hv : v = (J.lib₀ i).opid + 1)
  | acc (t : Nat) (ht : t ≤ J.rounds i) (hv : v = J.accOp i t)
  | send (k b : Nat) (hk : (J.bits i)[k]? = some b) (hv : v = J.sendOp i k)
  | recv (k b : Nat) (hk : (J.bits i)[k]? = some b) (hv : v = J.recvOp i k)

theorem role {i v : Nat} (hlo : (J.lib₀ i).opid ≤ v)
    (hv : v < (J.lib₀ i).opid + 3 + 3 * J.rounds i) : J.Role i v := by
  by_cases h0 : v = (J.lib₀ i).opid
  · exact .begin h0
  · by_cases h1 : v = (J.lib₀ i).opid + 1
    · exact .end h1
    · obtain ⟨d, rfl⟩ : ∃ d, v = (J.lib₀ i).opid + 2 + d := ⟨v - ((J.lib₀ i).opid + 2), by omega⟩
      have hdiv := Nat.div_add_mod d 3
      have hlt := Nat.mod_lt d (show 0 < 3 by omega)
      obtain hm | hm | hm : d % 3 = 0 ∨ d % 3 = 1 ∨ d % 3 = 2 := by omega
      · exact .acc (d / 3) (by omega) (by rw [accOp]; omega)
      · have hk : d / 3 < (J.bits i).length := by
          rw [rounds] at hv
          omega
        exact .send (d / 3) _ (List.getElem?_eq_getElem hk) (by rw [sendOp]; omega)
      · have hk : d / 3 < (J.bits i).length := by
          rw [rounds] at hv
          omega
        exact .recv (d / 3) _ (List.getElem?_eq_getElem hk) (by rw [recvOp]; omega)

section Bits

variable {J} {i k l b c t : Nat}

theorem lt_rounds (hk : (J.bits i)[k]? = some b) : k < J.rounds i :=
  (List.getElem?_eq_some_iff.mp hk).1

theorem bits_sorted : (J.bits i).Pairwise (· < ·) := by
  rw [J.bits_eq]
  exact List.pairwise_lt_range.filter _

theorem bit_lt_of_lt (hk : (J.bits i)[k]? = some b) (hl : (J.bits i)[l]? = some c) (h : k < l) :
    b < c := by
  obtain ⟨hk', rfl⟩ := List.getElem?_eq_some_iff.mp hk
  obtain ⟨hl', rfl⟩ := List.getElem?_eq_some_iff.mp hl
  exact List.pairwise_iff_getElem.mp bits_sorted k l hk' hl' h

theorem bit_mem (hk : (J.bits i)[k]? = some b) : b < J.maxr ∧ i ^^^ 2 ^ b < J.csize :=
  J.mem_bits.mp (List.mem_of_getElem? hk)

theorem rounds_le : J.rounds i ≤ J.maxr := by
  have h := List.length_filter_le (fun b => decide (i ^^^ 2 ^ b < J.csize)) (List.range J.maxr)
  rwa [← J.bits_eq, List.length_range] at h

/-- Different iterations have different partners. -/
theorem bit_inj (hk : (J.bits i)[k]? = some b) (hl : (J.bits i)[l]? = some c)
    (h : i ^^^ 2 ^ b = i ^^^ 2 ^ c) : k = l := by
  have hbc := xor_two_pow_inj h
  rcases Nat.lt_trichotomy k l with hlt | heq | hlt
  · exact absurd (bit_lt_of_lt hk hl hlt) (by omega)
  · exact heq
  · exact absurd (bit_lt_of_lt hl hk hlt) (by omega)

theorem level_of_bit (hk : (J.bits i)[k]? = some b) : J.level i k = b := by
  simp [level, hk]

theorem level_rounds : J.level i (J.rounds i) = J.maxr := by
  simp [level, rounds]

theorem level_le : J.level i t ≤ J.maxr := by
  cases ht : (J.bits i)[t]? with
  | none => simp [level, ht]
  | some b =>
      rw [level_of_bit ht]
      exact (bit_mem ht).1.le

/-- Between two accumulations there is no exchange. -/
theorem value_level (m x lo : Nat) (hlo : lo ≤ J.level i t)
    (hskip : ∀ k b, (J.bits i)[k]? = some b → k < t → b < lo) :
    J.value m (J.level i t) i x = J.value m lo i x := by
  refine exchange_eq_of_skipped _ _ _ _ _ _ hlo (fun e hle hlt hpartner => ?_)
  have hmem : e ∈ J.bits i := J.mem_bits.mpr ⟨hlt.trans_le level_le, hpartner⟩
  obtain ⟨k, hk⟩ := List.mem_iff_getElem?.mp hmem
  by_cases hkt : k < t
  · exact absurd (hskip k e hk hkt) (by omega)
  · cases ht : (J.bits i)[t]? with
    | none =>
        have := lt_rounds hk
        have := List.getElem?_eq_none_iff.mp ht
        rw [rounds] at *
        omega
    | some c =>
        rw [level_of_bit ht] at hlt
        by_cases hkt' : t = k
        · rw [hkt', hk] at ht
          have := Option.some.inj ht
          omega
        · exact absurd (bit_lt_of_lt ht hk (by omega)) (by omega)

theorem value_level_zero (m x : Nat) : J.value m (J.level i 0) i x = J.input i m x :=
  J.value_level m x 0 (Nat.zero_le _) (fun _ _ _ hk => absurd hk (Nat.not_lt_zero _))

/-- An accumulation makes the exchange of its iteration. -/
theorem value_level_succ (hk : (J.bits i)[k]? = some b) (m x : Nat) :
    J.value m (J.level i (k + 1)) i x =
      J.op (J.value m b (i ^^^ 2 ^ b) x) (J.value m b i x) := by
  have hle : b + 1 ≤ J.level i (k + 1) := by
    cases hk' : (J.bits i)[k + 1]? with
    | none =>
        simp only [level, List.getD_eq_getElem?_getD, hk', Option.getD_none]
        exact (bit_mem hk).1
    | some c =>
        rw [level_of_bit hk']
        exact bit_lt_of_lt hk hk' (Nat.lt_succ_self k)
  rw [J.value_level m x (b + 1) hle, value_succ, if_pos (bit_mem hk).2]
  intro l c hl hlk
  by_cases hlk' : l = k
  · rw [hlk', hk] at hl
    have := Option.some.inj hl
    omega
  · have := bit_lt_of_lt hl hk (by omega)
    omega

end Bits

/-! ### Edges -/

section Edges

variable {J} {cap i : Nat}

theorem Builds.built (hB : J.Builds cap) (hi : i < J.csize) :
    AllreduceBuilt cap (J.args i) (J.lib₀ i) (J.build cap i).1 (J.build cap i).2 := by
  obtain ⟨⟨s, l⟩, hsl⟩ := Option.isSome_iff_exists.mp (hB.isSome i hi)
  have hbuild : J.build cap i = (s, l) := by rw [build, hsl, Option.getD_some]
  rw [hbuild]
  exact allreduceBuilt hB.cap_pos hsl

/-- The graph of the schedule of rank `i`. -/
def Builds.graph (hB : J.Builds cap) (hi : i < J.csize) : DepGraph Nat :=
  (hB.built hi).built.graph

variable (hB : J.Builds cap) (hi : i < J.csize)
include hB hi

theorem Builds.wired :
    Wired (hB.graph hi) (J.build cap i).2.ops ((J.lib₀ i).opid + 1) := by
  have h := (hB.built hi).built.wired
  rwa [(hB.built hi).end_eq] at h

theorem Builds.mem_verts {v : Nat} : v ∈ (hB.graph hi).verts ↔
    (J.lib₀ i).opid ≤ v ∧ v < (J.lib₀ i).opid + 3 + 3 * J.rounds i := by
  rw [Builds.graph, ScheduleBuilt.mem_verts, (hB.built hi).opid_eq]
  rfl

theorem Builds.role {v : Nat} (hv : v ∈ (hB.graph hi).verts) : J.Role i v :=
  J.role ((hB.mem_verts hi).mp hv).1 ((hB.mem_verts hi).mp hv).2

/-- Where the edges of the schedule come from. -/
theorem Builds.pred_cases {p v : Nat} (h : (hB.graph hi).Pred p v) :
    p = (J.lib₀ i).opid ∨ v = (J.lib₀ i).opid + 1 ∨ ∃ k, k < J.rounds i ∧
      ((p = J.accOp i k ∧ v = J.sendOp i k) ∨ (p = J.sendOp i k ∧ v = J.accOp i (k + 1)) ∨
        (p = J.recvOp i k ∧ v = J.accOp i (k + 1))) := by
  cases (hB.built hi).built.origin h with
  | hb hc =>
      obtain ⟨k, hk, hc⟩ := hb_mem_allreduceCalls.mp hc
      refine Or.inr (Or.inr ⟨k, hk, ?_⟩)
      simp only [accOp, sendOp, recvOp]
      omega
  | fromBegin hs hp =>
      obtain rfl := Option.some.inj hs
      exact Or.inl (hp.trans (hB.built hi).begin_eq)
  | toEnd hs _ hv =>
      obtain rfl := Option.some.inj hs
      exact Or.inr (Or.inl (hv.trans (hB.built hi).end_eq))

theorem Builds.pred_send {k : Nat} (hk : k < J.rounds i) :
    (hB.graph hi).Pred (J.accOp i k) (J.sendOp i k) :=
  (hB.built hi).built.pred_of_hb (hb_mem_allreduceCalls.mpr ⟨k, hk, Or.inl ⟨rfl, rfl⟩⟩)

theorem Builds.pred_acc_send {k : Nat} (hk : k < J.rounds i) :
    (hB.graph hi).Pred (J.sendOp i k) (J.accOp i (k + 1)) :=
  (hB.built hi).built.pred_of_hb (hb_mem_allreduceCalls.mpr
    ⟨k, hk, Or.inr (Or.inl ⟨rfl, by rw [accOp]; omega⟩)⟩)

theorem Builds.pred_acc_recv {k : Nat} (hk : k < J.rounds i) :
    (hB.graph hi).Pred (J.recvOp i k) (J.accOp i (k + 1)) :=
  (hB.built hi).built.pred_of_hb (hb_mem_allreduceCalls.mpr
    ⟨k, hk, Or.inr (Or.inr ⟨rfl, by rw [accOp]; omega⟩)⟩)

/-! Bodies of the operations. -/

theorem Builds.body_begin : ((J.build cap i).2.ops (J.lib₀ i).opid).body = .nop := by
  have h := (hB.built hi).built.schedOps.begin_nop
  rwa [(hB.built hi).begin_eq] at h

theorem Builds.body_end : ((J.build cap i).2.ops ((J.lib₀ i).opid + 1)).body = .nop := by
  have h := (hB.built hi).built.schedOps.end_nop
  rwa [(hB.built hi).end_eq] at h

theorem Builds.body_move : ((J.build cap i).2.ops (J.accOp i 0)).body =
    if (J.args i).inPlace then .nop
    else .comp (J.src i) ffbuffNone (J.rb i) ffIdentity := by
  have h := (hB.built hi).move_body
  rw [accOp, Nat.mul_zero, Nat.add_zero, h, moveBody]
  by_cases hp : (J.args i).inPlace = true
  · rw [if_pos hp, if_pos hp]
  · rw [if_neg hp, if_neg hp, src, if_neg hp]
    rfl

variable {k b : Nat} (hk : (J.bits i)[k]? = some b)
include hk

theorem Builds.body_send :
    ((J.build cap i).2.ops (J.sendOp i k)).body = .send (i ^^^ 2 ^ b) J.tag (J.rb i) := by
  rw [sendOp, ((hB.built hi).bodies k b hk).send, J.dst_eq, J.tag_eq]
  rfl

theorem Builds.body_recv :
    ((J.build cap i).2.ops (J.recvOp i k)).body = .recv (i ^^^ 2 ^ b) J.tag (J.tmp i k) := by
  rw [recvOp, ((hB.built hi).bodies k b hk).recv, J.dst_eq, J.tag_eq]
  rfl

theorem Builds.body_comp :
    ((J.build cap i).2.ops (J.accOp i (k + 1))).body =
      .comp (J.tmp i k) (J.rb i) (J.rb i) J.operator := by
  have h := ((hB.built hi).bodies k b hk).comp
  rw [show (J.lib₀ i).opid + 5 + 3 * k = J.accOp i (k + 1) by rw [accOp]; omega,
    J.operator_eq] at h
  exact h

end Edges

/-! ### The order of the operations -/

/-- What the edges give at any time. -/
structure Order (i : Nat) (q : Nat → Phase) : Prop where
  send : ∀ k, k < J.rounds i → q (J.sendOp i k) ≠ .idle → (q (J.accOp i k)).isDone = true
  accSend : ∀ k, k < J.rounds i → q (J.accOp i (k + 1)) ≠ .idle →
    (q (J.sendOp i k)).isDone = true
  accRecv : ∀ k, k < J.rounds i → q (J.accOp i (k + 1)) ≠ .idle →
    (q (J.recvOp i k)).isDone = true

theorem Builds.order {J : Ranks α} {cap i : Nat} (hB : J.Builds cap) (hi : i < J.csize)
    {a : Progress Nat} (h : (hB.graph hi).Sound a) : J.Order i a.phase where
  send _ hk hne := h.pred_isDone hne (hB.pred_send hi hk)
  accSend _ hk hne := h.pred_isDone hne (hB.pred_acc_send hi hk)
  accRecv _ hk hne := h.pred_isDone hne (hB.pred_acc_recv hi hk)

namespace Order

variable {J} {i : Nat} {q : Nat → Phase} (h : J.Order i q)
include h

/-- Accumulations run one after another. -/
theorem acc_isDone {s t : Nat} (hst : s < t) (ht : t ≤ J.rounds i)
    (hq : q (J.accOp i t) ≠ .idle) : (q (J.accOp i s)).isDone = true := by
  induction t with
  | zero => omega
  | succ t ih =>
      have hsend := h.accSend t (by omega) hq
      have hacc := h.send t (by omega) (Phase.ne_idle_of_isDone hsend)
      by_cases hs : s = t
      · rw [hs]; exact hacc
      · exact ih (by omega) (by omega) (Phase.ne_idle_of_isDone hacc)

end Order

/-! ### Requests -/

/-- The sends of the iteration `b` of rank `i`, its `k`-th with a partner. -/
structure SendInv (i k b : Nat) (q : Nat → Phase) (E : RankEnv α) : Prop where
  len : (E.out (i ^^^ 2 ^ b) J.tag).length +
    (if (q (J.sendOp i k)).isStarted then 0 else 1) = E.round
  posted : ∀ m e, (E.out (i ^^^ 2 ^ b) J.tag)[m]? = some e →
    e.round = m + 1 ∧ e.buffer = J.rb i ∧ e.count = J.n
  payload : ∀ m e v, (E.out (i ^^^ 2 ^ b) J.tag)[m]? = some e → e.payload = some v →
    ∀ x, x < J.n → v x = J.value m b i x
  unread : ∀ m e, (E.out (i ^^^ 2 ^ b) J.tag)[m]? = some e → e.payload = none →
    m + 1 = E.round ∧ q (J.sendOp i k) = .inflight
  pos : q (J.sendOp i k) = .inflight → E.req (J.sendOp i k) + 1 = E.round

/-- The receives of the iteration `b` of rank `i`, its `k`-th with a partner. -/
structure RecvInv (i k b : Nat) (q : Nat → Phase) (E : RankEnv α) : Prop where
  len : (E.inc (i ^^^ 2 ^ b) J.tag).length +
    (if (q (J.recvOp i k)).isStarted then 0 else 1) = E.round
  posted : ∀ m e, (E.inc (i ^^^ 2 ^ b) J.tag)[m]? = some e →
    e.round = m + 1 ∧ e.buffer = J.tmp i k ∧ J.n ≤ e.count
  pending : ∀ m e, (E.inc (i ^^^ 2 ^ b) J.tag)[m]? = some e → e.delivered = false →
    m + 1 = E.round ∧ q (J.recvOp i k) = .inflight
  data : ∀ m e, (E.inc (i ^^^ 2 ^ b) J.tag)[m]? = some e → e.delivered = true →
    m + 1 = E.round → ∀ x, x < J.n → E.mem (J.tmp i k) x = J.value m b (i ^^^ 2 ^ b) x
  pos : q (J.recvOp i k) = .inflight → E.req (J.recvOp i k) + 1 = E.round

section Requests

variable {J} {i k b : Nat} {q q' : Nat → Phase} {E E' : RankEnv α}

namespace SendInv

variable (h : J.SendInv i k b q E)
include h

theorem congr (hout : E'.out (i ^^^ 2 ^ b) J.tag = E.out (i ^^^ 2 ^ b) J.tag)
    (hround : E'.round = E.round) (hreq : E'.req (J.sendOp i k) = E.req (J.sendOp i k))
    (hs : (q' (J.sendOp i k)).isStarted = (q (J.sendOp i k)).isStarted)
    (hf : q' (J.sendOp i k) = .inflight ↔ q (J.sendOp i k) = .inflight) :
    J.SendInv i k b q' E' := by
  obtain ⟨h1, h2, h3, h4, h5⟩ := h
  refine ⟨?_, ?_, ?_, ?_, ?_⟩
  · rw [hout, hs, hround]; exact h1
  · rw [hout]; exact h2
  · rw [hout]; exact h3
  · rw [hout, hround, hf]; exact h4
  · rw [hf, hreq, hround]; exact h5

/-- A new round begins. -/
theorem nextRound (hd : (q (J.sendOp i k)).isDone = true)
    (hidle : (q' (J.sendOp i k)).isStarted = false)
    (hout : E'.out (i ^^^ 2 ^ b) J.tag = E.out (i ^^^ 2 ^ b) J.tag)
    (hround : E'.round = E.round + 1) : J.SendInv i k b q' E' := by
  have hnot : q (J.sendOp i k) ≠ .inflight := by
    intro heq
    rw [heq] at hd
    cases hd
  have hlen := h.len
  rw [if_pos (Phase.isStarted_of_isDone hd)] at hlen
  refine ⟨?_, ?_, ?_, fun m e he hn => ?_, fun hq => ?_⟩
  · rw [hout, hidle, hround]
    simpa using hlen
  · rw [hout]; exact h.posted
  · rw [hout]; exact h.payload
  · rw [hout] at he
    exact absurd (h.unread m e he hn).2 hnot
  · rw [hq] at hidle
    cases hidle

/-- The send is posted. -/
theorem isend (hs : (q (J.sendOp i k)).isStarted = false)
    (hq : q' (J.sendOp i k) = .inflight) (hrb : (E.buffs (J.rb i)).count = J.n) :
    J.SendInv i k b q' (E.isend (J.sendOp i k) (i ^^^ 2 ^ b) J.tag (J.rb i)) := by
  have hlen := h.len
  rw [hs] at hlen
  simp only [Bool.false_eq_true, if_false] at hlen
  have hget : ∀ m e, ((E.isend (J.sendOp i k) (i ^^^ 2 ^ b) J.tag (J.rb i)).out
      (i ^^^ 2 ^ b) J.tag)[m]? = some e →
      (E.out (i ^^^ 2 ^ b) J.tag)[m]? = some e ∨
        m + 1 = E.round ∧ e = ⟨E.round, J.rb i, J.n, none⟩ := by
    intro m e he
    simp only [RankEnv.isend, RankEnv.setReq_out, RankEnv.setOut_out, if_true] at he
    rcases getElem?_concat_cases he with he | ⟨hm, he⟩
    · exact Or.inl he
    · exact Or.inr ⟨by omega, by rw [he, hrb]⟩
  refine ⟨?_, fun m e he => ?_, fun m e v he hv => ?_, fun m e he hn => ?_, fun _ => ?_⟩
  · simp [RankEnv.isend, hq, Phase.isStarted, ← hlen]
  · rcases hget m e he with he | ⟨hm, rfl⟩
    · exact h.posted m e he
    · exact ⟨hm.symm, rfl, rfl⟩
  · rcases hget m e he with he | ⟨_, rfl⟩
    · exact h.payload m e v he hv
    · cases hv
  · rcases hget m e he with he | ⟨hm, _⟩
    · have := (h.unread m e he hn).2
      rw [this] at hs
      cases hs
    · exact ⟨hm, hq⟩
  · simpa [RankEnv.isend] using hlen

/-- The network reads the buffer. -/
theorem readSend (m : Nat) (hq : q (J.sendOp i k) = .inflight →
      ∀ x, x < J.n → E.mem (J.rb i) x = J.value (E.round - 1) b i x) :
    J.SendInv i k b q (E.readSend (i ^^^ 2 ^ b) J.tag m) := by
  unfold RankEnv.readSend
  split
  · next round buffer count hm =>
      obtain ⟨hr1, hr2, hr3⟩ := h.posted m _ hm
      obtain ⟨hlast, hin⟩ := h.unread m _ hm rfl
      simp only at hr1 hr2 hr3
      refine ⟨?_, fun m' e he => ?_, fun m' e v he hv => ?_, fun m' e he hn => ?_, ?_⟩
      · simpa using h.len
      · simp only [RankEnv.setOut_out, if_true] at he
        rcases getElem?_set_cases he with ⟨he, _⟩ | ⟨rfl, rfl⟩
        · exact h.posted m' e he
        · exact ⟨hr1, hr2, hr3⟩
      · simp only [RankEnv.setOut_out, if_true] at he
        rcases getElem?_set_cases he with ⟨he, _⟩ | ⟨rfl, rfl⟩
        · exact h.payload m' e v he hv
        · intro x hx
          have hval := hq hin x hx
          obtain rfl : E.mem buffer = v := Option.some.inj hv
          rw [hr2, hval, ← hlast, Nat.add_sub_cancel]
      · simp only [RankEnv.setOut_out, if_true] at he
        rcases getElem?_set_cases he with ⟨he, _⟩ | ⟨_, rfl⟩
        · exact h.unread m' e he hn
        · cases hn
      · simpa using h.pos
  · exact h

/-- A send whose buffer has been read completes. -/
theorem complete (hin : q (J.sendOp i k) = .inflight) {e : SendReq α}
    (he : (E.out (i ^^^ 2 ^ b) J.tag)[E.req (J.sendOp i k)]? = some e)
    (hread : e.payload ≠ none) (hs : (q' (J.sendOp i k)).isStarted = true)
    (hq : q' (J.sendOp i k) ≠ .inflight) : J.SendInv i k b q' E := by
  have hpos := h.pos hin
  refine ⟨?_, h.posted, h.payload, fun m e' he' hn => ?_, fun hq' => absurd hq' hq⟩
  · have hlen := h.len
    rw [hin] at hlen
    rw [if_pos hs]
    exact hlen
  · obtain ⟨hm, _⟩ := h.unread m e' he' hn
    obtain rfl : m = E.req (J.sendOp i k) := by omega
    rw [he'] at he
    obtain rfl := Option.some.inj he
    exact absurd hn hread

end SendInv

namespace RecvInv

variable (h : J.RecvInv i k b q E)
include h

theorem congr (hinc : E'.inc (i ^^^ 2 ^ b) J.tag = E.inc (i ^^^ 2 ^ b) J.tag)
    (hround : E'.round = E.round) (hreq : E'.req (J.recvOp i k) = E.req (J.recvOp i k))
    (hmem : E'.mem (J.tmp i k) = E.mem (J.tmp i k))
    (hs : (q' (J.recvOp i k)).isStarted = (q (J.recvOp i k)).isStarted)
    (hf : q' (J.recvOp i k) = .inflight ↔ q (J.recvOp i k) = .inflight) :
    J.RecvInv i k b q' E' := by
  obtain ⟨h1, h2, h3, h4, h5⟩ := h
  refine ⟨?_, ?_, ?_, ?_, ?_⟩
  · rw [hinc, hs, hround]; exact h1
  · rw [hinc]; exact h2
  · rw [hinc, hround, hf]; exact h3
  · rw [hinc, hround, hmem]; exact h4
  · rw [hf, hreq, hround]; exact h5

/-- A new round begins. -/
theorem nextRound (hd : (q (J.recvOp i k)).isDone = true)
    (hidle : (q' (J.recvOp i k)).isStarted = false)
    (hinc : E'.inc (i ^^^ 2 ^ b) J.tag = E.inc (i ^^^ 2 ^ b) J.tag)
    (hround : E'.round = E.round + 1) : J.RecvInv i k b q' E' := by
  have hnot : q (J.recvOp i k) ≠ .inflight := by
    intro heq
    rw [heq] at hd
    cases hd
  have hlen := h.len
  rw [if_pos (Phase.isStarted_of_isDone hd)] at hlen
  refine ⟨?_, ?_, fun m e he hn => ?_, fun m e he _ hm => ?_, fun hq => ?_⟩
  · rw [hinc, hidle, hround]
    simpa using hlen
  · rw [hinc]; exact h.posted
  · rw [hinc] at he
    exact absurd (h.pending m e he hn).2 hnot
  · rw [hinc] at he
    have := (List.getElem?_eq_some_iff.mp he).1
    omega
  · rw [hq] at hidle
    cases hidle

/-- The receive is posted. -/
theorem irecv (hs : (q (J.recvOp i k)).isStarted = false)
    (hq : q' (J.recvOp i k) = .inflight) (htmp : J.n ≤ (E.buffs (J.tmp i k)).count) :
    J.RecvInv i k b q' (E.irecv (J.recvOp i k) (i ^^^ 2 ^ b) J.tag (J.tmp i k)) := by
  have hlen := h.len
  rw [hs] at hlen
  simp only [Bool.false_eq_true, if_false] at hlen
  have hget : ∀ m e, ((E.irecv (J.recvOp i k) (i ^^^ 2 ^ b) J.tag (J.tmp i k)).inc
      (i ^^^ 2 ^ b) J.tag)[m]? = some e →
      (E.inc (i ^^^ 2 ^ b) J.tag)[m]? = some e ∨
        m + 1 = E.round ∧
          e = ⟨E.round, J.tmp i k, (E.buffs (J.tmp i k)).count, false⟩ := by
    intro m e he
    simp only [RankEnv.irecv, RankEnv.setReq_inc, RankEnv.setInc_inc, if_true] at he
    rcases getElem?_concat_cases he with he | ⟨hm, he⟩
    · exact Or.inl he
    · exact Or.inr ⟨by omega, he⟩
  refine ⟨?_, fun m e he => ?_, fun m e he hn => ?_, fun m e he hdel hm => ?_, fun _ => ?_⟩
  · simp [RankEnv.irecv, hq, Phase.isStarted, ← hlen]
  · rcases hget m e he with he | ⟨hm, rfl⟩
    · exact h.posted m e he
    · exact ⟨hm.symm, rfl, htmp⟩
  · rcases hget m e he with he | ⟨hm, _⟩
    · have := (h.pending m e he hn).2
      rw [this] at hs
      cases hs
    · exact ⟨hm, hq⟩
  · rcases hget m e he with he | ⟨_, rfl⟩
    · exact h.data m e he hdel hm
    · cases hdel
  · simpa [RankEnv.irecv] using hlen

/-- A message arrives. -/
theorem deliver (m : Nat) {sent : Option (SendReq α)}
    (hsent : ∀ e v, sent = some e → e.payload = some v →
      e.count = J.n ∧ ∀ x, x < J.n → v x = J.value m b (i ^^^ 2 ^ b) x) :
    J.RecvInv i k b q (E.deliver (i ^^^ 2 ^ b) J.tag m sent) := by
  unfold RankEnv.deliver
  split
  · next round buffer count _ _ sentCount payload hm =>
      obtain ⟨hr1, hr2, hr3⟩ := h.posted m _ hm
      obtain ⟨hlast, hin⟩ := h.pending m _ hm rfl
      obtain ⟨hcount, hval⟩ := hsent _ payload rfl rfl
      simp only at hr1 hr2 hr3 hcount
      refine ⟨?_, fun m' e he => ?_, fun m' e he hn => ?_, fun m' e he _ hm' x hx => ?_, ?_⟩
      · simpa using h.len
      · simp only [RankEnv.setInc_inc, if_true] at he
        rcases getElem?_set_cases he with ⟨he, _⟩ | ⟨rfl, rfl⟩
        · exact h.posted m' e he
        · exact ⟨hr1, hr2, hr3⟩
      · simp only [RankEnv.setInc_inc, if_true] at he
        rcases getElem?_set_cases he with ⟨he, _⟩ | ⟨_, rfl⟩
        · exact h.pending m' e he hn
        · cases hn
      · have hmm : m' = m := by
          have : m' + 1 = E.round := hm'
          omega
        simp only [RankEnv.setInc_mem, RankEnv.setMem_mem]
        rw [if_pos hr2.symm, if_pos (by omega), hmm]
        exact hval x hx
      · simpa using h.pos
  · exact h

/-- A receive whose message has arrived completes. -/
theorem complete (hin : q (J.recvOp i k) = .inflight) {e : RecvReq}
    (he : (E.inc (i ^^^ 2 ^ b) J.tag)[E.req (J.recvOp i k)]? = some e)
    (hdel : e.delivered = true) (hs : (q' (J.recvOp i k)).isStarted = true)
    (hq : q' (J.recvOp i k) ≠ .inflight) : J.RecvInv i k b q' E := by
  have hpos := h.pos hin
  refine ⟨?_, h.posted, fun m e' he' hn => ?_, h.data, fun hq' => absurd hq' hq⟩
  · have hlen := h.len
    rw [hin] at hlen
    rw [if_pos hs]
    exact hlen
  · obtain ⟨hm, _⟩ := h.pending m e' he' hn
    obtain rfl : m = E.req (J.recvOp i k) := by omega
    rw [he'] at he
    obtain rfl := Option.some.inj he
    rw [hdel] at hn
    cases hn

end RecvInv

end Requests

end Ranks

end Fflib
