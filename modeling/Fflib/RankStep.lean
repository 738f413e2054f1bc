import Fflib.RankInv

/-!
# What one step does to a rank

`RoundInv` is the invariant of the memory and the requests of a rank during a
round, as a function of the phases of its operations, and `QuietInv` the one
between two rounds.

* `RoundInv.isend`, `RoundInv.irecv`, `RoundInv.move` and `RoundInv.comp`: an
  operation is posted.
* `RoundInv.readSend` and `RoundInv.deliver`: the network moves.
* `RoundInv.sent` and `RoundInv.received`: a request completes.
* `QuietInv.post` and `RoundInv.quiet`: a round begins and ends.
-/

namespace Fflib

open Library

universe u

variable {α : Type u}

namespace Ranks

variable (J : Ranks α)

/-- All requests of a rank. -/
structure ChanInv (i : Nat) (q : Nat → Phase) (E : RankEnv α) : Prop where
  send : ∀ k b, (J.bits i)[k]? = some b → J.SendInv i k b q E
  recv : ∀ k b, (J.bits i)[k]? = some b → J.RecvInv i k b q E
  other : ∀ j, (∀ k b : Nat, (J.bits i)[k]? = some b → j ≠ i ^^^ 2 ^ b) →
    E.out j J.tag = [] ∧ E.inc j J.tag = []

/-- What the buffers hold between two accumulations. -/
structure DataInv (i : Nat) (q : Nat → Phase) (E : RankEnv α) : Prop where
  acc : ∀ t, t ≤ J.rounds i → (q (J.accOp i t)).isStarted = true →
    (t < J.rounds i → (q (J.accOp i (t + 1))).isStarted = false) →
    ∀ x, x < J.n → E.mem (J.rb i) x = J.value (E.round - 1) (J.level i t) i x
  input : (q (J.accOp i 0)).isStarted = false →
    ∀ x, x < J.n → E.mem (J.src i) x = J.input i (E.round - 1) x

/-- The invariant during a round. -/
structure RoundInv (i : Nat) (q : Nat → Phase) (E : RankEnv α) : Prop where
  chan : J.ChanInv i q E
  buff : J.BuffInv i E.buffs E.stateCount
  room : J.n ≤ E.stateCount
  round_pos : 0 < E.round
  data : J.DataInv i q E
  flight : ∀ v, q v = .inflight →
    ∃ k b, (J.bits i)[k]? = some b ∧ (v = J.sendOp i k ∨ v = J.recvOp i k)

/-- The invariant between two rounds. -/
structure QuietInv (i : Nat) (loaded : Bool) (E : RankEnv α) : Prop where
  chan : J.ChanInv i (fun _ => .cascading 0) E
  buff : J.BuffInv i E.buffs E.stateCount
  input : loaded = true → ∀ x, x < J.n → E.mem (J.src i) x = J.input i E.round x
  result : loaded = false → 0 < E.round →
    ∀ x, x < J.n → E.mem (J.rb i) x = J.value (E.round - 1) J.maxr i x

variable {J} {i j k b : Nat} {q q' : Nat → Phase} {E E' : RankEnv α}

/-- A handle is the partner of one iteration or of none. -/
theorem partner_or (i j : Nat) : (∃ k b : Nat, (J.bits i)[k]? = some b ∧ j = i ^^^ 2 ^ b) ∨
    ∀ k b : Nat, (J.bits i)[k]? = some b → j ≠ i ^^^ 2 ^ b := by
  by_cases h : ∃ k b : Nat, (J.bits i)[k]? = some b ∧ j = i ^^^ 2 ^ b
  · exact Or.inl h
  · exact Or.inr (fun k b hk hj => h ⟨k, b, hk, hj⟩)

namespace ChanInv

variable (h : J.ChanInv i q E)
include h

/-- Neither the requests nor the temporary buffers change, and no send or receive is
started or completed. -/
theorem congr (hout : E'.out = E.out) (hinc : E'.inc = E.inc) (hround : E'.round = E.round)
    (hreq : E'.req = E.req)
    (hmem : ∀ k, k < J.maxr → E'.mem (J.tmp i k) = E.mem (J.tmp i k))
    (hs : ∀ k, k < J.rounds i →
      (q' (J.sendOp i k)).isStarted = (q (J.sendOp i k)).isStarted ∧
        (q' (J.sendOp i k) = .inflight ↔ q (J.sendOp i k) = .inflight))
    (hr : ∀ k, k < J.rounds i →
      (q' (J.recvOp i k)).isStarted = (q (J.recvOp i k)).isStarted ∧
        (q' (J.recvOp i k) = .inflight ↔ q (J.recvOp i k) = .inflight)) :
    J.ChanInv i q' E' where
  send k b hk := by
    obtain ⟨h1, h2⟩ := hs k (lt_rounds hk)
    exact (h.send k b hk).congr (by rw [hout]) hround (by rw [hreq]) h1 h2
  recv k b hk := by
    obtain ⟨h1, h2⟩ := hr k (lt_rounds hk)
    exact (h.recv k b hk).congr (by rw [hinc]) hround (by rw [hreq])
      (hmem k ((lt_rounds hk).trans_le rounds_le)) h1 h2
  other j hj := by rw [hout, hinc]; exact h.other j hj

/-- The request `v` completes; the other requests stay as they are. -/
theorem finish {v : Nat}
    (hsend : ∀ k b : Nat, (J.bits i)[k]? = some b → J.sendOp i k = v →
      J.SendInv i k b (Function.update q v .completing) E)
    (hrecv : ∀ k b : Nat, (J.bits i)[k]? = some b → J.recvOp i k = v →
      J.RecvInv i k b (Function.update q v .completing) E) :
    J.ChanInv i (Function.update q v .completing) E where
  send k b hk := by
    by_cases hv : J.sendOp i k = v
    · exact hsend k b hk hv
    · exact (h.send k b hk).congr rfl rfl rfl (by simp [hv]) (by simp [hv])
  recv k b hk := by
    by_cases hv : J.recvOp i k = v
    · exact hrecv k b hk hv
    · exact (h.recv k b hk).congr rfl rfl rfl rfl (by simp [hv]) (by simp [hv])
  other := h.other

theorem isend (hk : (J.bits i)[k]? = some b) (hq : q (J.sendOp i k) = .triggered)
    (hrb : (E.buffs (J.rb i)).count = J.n) :
    J.ChanInv i (Function.update q (J.sendOp i k) .inflight)
      (E.isend (J.sendOp i k) (i ^^^ 2 ^ b) J.tag (J.rb i)) where
  send l c hl := by
    by_cases hlk : l = k
    · subst hlk
      rw [hk] at hl
      obtain rfl := Option.some.inj hl
      exact (h.send l b hk).isend (by rw [hq]; rfl) (by simp) hrb
    · have hpeer : i ^^^ 2 ^ c ≠ i ^^^ 2 ^ b := fun heq => hlk (bit_inj hl hk heq)
      have hop : J.sendOp i l ≠ J.sendOp i k := by
        simp only [sendOp]
        omega
      exact (h.send l c hl).congr (by simp [RankEnv.isend, hpeer]) rfl
        (by simp [RankEnv.isend, hop]) (by simp [hop]) (by simp [hop])
  recv l c hl := by
    have hop : J.recvOp i l ≠ J.sendOp i k := by
      simp only [sendOp, recvOp]
      omega
    exact (h.recv l c hl).congr rfl rfl (by simp [RankEnv.isend, hop]) rfl (by simp [hop])
      (by simp [hop])
  other j hj := by
    have hpeer : j ≠ i ^^^ 2 ^ b := hj k b hk
    simpa [RankEnv.isend, hpeer] using h.other j hj

theorem irecv (hk : (J.bits i)[k]? = some b) (hq : q (J.recvOp i k) = .triggered)
    (htmp : J.n ≤ (E.buffs (J.tmp i k)).count) :
    J.ChanInv i (Function.update q (J.recvOp i k) .inflight)
      (E.irecv (J.recvOp i k) (i ^^^ 2 ^ b) J.tag (J.tmp i k)) where
  send l c hl := by
    have hop : J.sendOp i l ≠ J.recvOp i k := by
      simp only [sendOp, recvOp]
      omega
    exact (h.send l c hl).congr rfl rfl (by simp [RankEnv.irecv, hop]) (by simp [hop])
      (by simp [hop])
  recv l c hl := by
    by_cases hlk : l = k
    · subst hlk
      rw [hk] at hl
      obtain rfl := Option.some.inj hl
      exact (h.recv l b hk).irecv (by rw [hq]; rfl) (by simp) htmp
    · have hpeer : i ^^^ 2 ^ c ≠ i ^^^ 2 ^ b := fun heq => hlk (bit_inj hl hk heq)
      have hop : J.recvOp i l ≠ J.recvOp i k := by
        simp only [recvOp]
        omega
      exact (h.recv l c hl).congr (by simp [RankEnv.irecv, hpeer]) rfl
        (by simp [RankEnv.irecv, hop]) rfl (by simp [hop]) (by simp [hop])
  other j hj := by
    have hpeer : j ≠ i ^^^ 2 ^ b := hj k b hk
    simpa [RankEnv.irecv, hpeer] using h.other j hj

theorem readSend (j m : Nat) (hq : ∀ k b, (J.bits i)[k]? = some b →
      q (J.sendOp i k) = .inflight →
      ∀ x, x < J.n → E.mem (J.rb i) x = J.value (E.round - 1) b i x) :
    J.ChanInv i q (E.readSend j J.tag m) where
  send l c hl := by
    by_cases hj : i ^^^ 2 ^ c = j
    · rw [← hj]
      exact (h.send l c hl).readSend m (hq l c hl)
    · exact (h.send l c hl).congr (RankEnv.readSend_out_of_ne E j J.tag m hj) (by simp)
        (by simp) rfl Iff.rfl
  recv l c hl := (h.recv l c hl).congr (by simp) (by simp) (by simp) (by simp) rfl Iff.rfl
  other j' hj := by
    obtain ⟨hout, hinc⟩ := h.other j' hj
    have hlen := RankEnv.length_readSend_out E j J.tag m j'
    rw [hout] at hlen
    exact ⟨List.eq_nil_of_length_eq_zero hlen, by rw [RankEnv.readSend_inc, hinc]⟩

/-- Only temporary buffers are written by the network. -/
theorem deliver_mem (j m : Nat) (sent : Option (SendReq α)) {c : Nat}
    (hc : ∀ k b, (J.bits i)[k]? = some b → q (J.recvOp i k) = .inflight →
      j = i ^^^ 2 ^ b → J.tmp i k ≠ c) :
    (E.deliver j J.tag m sent).mem c = E.mem c := by
  refine RankEnv.deliver_mem_of_ne E j J.tag m sent (fun e he hdel => ?_)
  rcases partner_or (J := J) i j with ⟨k, b, hk, rfl⟩ | hno
  · have hr := h.recv k b hk
    rw [(hr.posted m e he).2.1]
    exact hc k b hk (hr.pending m e he hdel).2 rfl
  · rw [(h.other j hno).2] at he
    simp at he

theorem deliver (j m : Nat) {sent : Option (SendReq α)}
    (hsent : ∀ (k b : Nat) e v, (J.bits i)[k]? = some b → j = i ^^^ 2 ^ b → sent = some e →
      e.payload = some v → e.count = J.n ∧ ∀ x, x < J.n → v x = J.value m b j x) :
    J.ChanInv i q (E.deliver j J.tag m sent) where
  send l c hl := (h.send l c hl).congr (by simp) (by simp) (by simp) rfl Iff.rfl
  recv l c hl := by
    by_cases hj : i ^^^ 2 ^ c = j
    · subst hj
      exact (h.recv l c hl).deliver m (fun e v he hv => hsent l c e v hl rfl he hv)
    · refine (h.recv l c hl).congr (RankEnv.deliver_inc_of_ne E j J.tag m sent hj) (by simp)
        (by simp) (h.deliver_mem j m sent (fun k b hk _ hjb heq => ?_)) rfl Iff.rfl
      obtain rfl : k = l := by
        simp only [tmp] at heq
        omega
      rw [hk] at hl
      obtain rfl := Option.some.inj hl
      exact hj hjb.symm
  other j' hj := by
    obtain ⟨hout, hinc⟩ := h.other j' hj
    have hlen := RankEnv.length_deliver_inc E j J.tag m sent j'
    rw [hinc] at hlen
    exact ⟨by rw [RankEnv.deliver_out, hout], List.eq_nil_of_length_eq_zero hlen⟩

end ChanInv

/-- Neither the receive buffer nor the source changes, and no accumulation starts. -/
theorem DataInv.congr (h : J.DataInv i q E) (hrb : E'.mem (J.rb i) = E.mem (J.rb i))
    (hsrc : E'.mem (J.src i) = E.mem (J.src i)) (hround : E'.round = E.round)
    (hs : ∀ t, (q' (J.accOp i t)).isStarted = (q (J.accOp i t)).isStarted) :
    J.DataInv i q' E' where
  acc := by
    simp only [hrb, hround, hs]
    exact h.acc
  input := by
    simp only [hsrc, hround, hs]
    exact h.input

namespace RoundInv

variable (h : J.RoundInv i q E)
include h

/-- Operations move on without starting or completing a request or an accumulation. -/
theorem congr (hs : ∀ v, (J.lib₀ i).opid + 2 ≤ v → (q' v).isStarted = (q v).isStarted)
    (hf : ∀ v, q' v = .inflight ↔ q v = .inflight) : J.RoundInv i q' E where
  chan := h.chan.congr rfl rfl rfl rfl (fun _ _ => rfl)
    (fun k _ => ⟨hs _ (by rw [sendOp]; omega), hf _⟩)
    (fun k _ => ⟨hs _ (by rw [recvOp]; omega), hf _⟩)
  buff := h.buff
  room := h.room
  round_pos := h.round_pos
  data := h.data.congr rfl rfl rfl (fun t => hs _ (by rw [accOp]; omega))
  flight v hv := h.flight v ((hf v).mp hv)

theorem isend (hk : (J.bits i)[k]? = some b) (hq : q (J.sendOp i k) = .triggered) :
    J.RoundInv i (Function.update q (J.sendOp i k) .inflight)
      (E.isend (J.sendOp i k) (i ^^^ 2 ^ b) J.tag (J.rb i)) where
  chan := h.chan.isend hk hq (by rw [h.buff.rb_eq])
  buff := h.buff
  room := h.room
  round_pos := h.round_pos
  data := by
    refine h.data.congr rfl rfl rfl (fun t => ?_)
    have hop : J.accOp i t ≠ J.sendOp i k := by
      simp only [accOp, sendOp]
      omega
    simp [hop]
  flight v hv := by
    by_cases hvk : v = J.sendOp i k
    · exact ⟨k, b, hk, Or.inl hvk⟩
    · exact h.flight v (by simpa [hvk] using hv)

theorem irecv (hk : (J.bits i)[k]? = some b) (hq : q (J.recvOp i k) = .triggered) :
    J.RoundInv i (Function.update q (J.recvOp i k) .inflight)
      (E.irecv (J.recvOp i k) (i ^^^ 2 ^ b) J.tag (J.tmp i k)) where
  chan := by
    refine h.chan.irecv hk hq ?_
    rw [h.buff.tmp_count k ((lt_rounds hk).trans_le rounds_le)]
    exact h.room
  buff := h.buff
  room := h.room
  round_pos := h.round_pos
  data := by
    refine h.data.congr rfl rfl rfl (fun t => ?_)
    have hop : J.accOp i t ≠ J.recvOp i k := by
      simp only [accOp, recvOp]
      omega
    simp [hop]
  flight v hv := by
    by_cases hvk : v = J.recvOp i k
    · exact ⟨k, b, hk, Or.inr hvk⟩
    · exact h.flight v (by simpa [hvk] using hv)

/-- Before the accumulation of an iteration the receive buffer holds the value with which
the exchange begins. -/
theorem rb_value (hk : (J.bits i)[k]? = some b)
    (hacc : (q (J.accOp i k)).isStarted = true)
    (hnext : (q (J.accOp i (k + 1))).isStarted = false) :
    ∀ x, x < J.n → E.mem (J.rb i) x = J.value (E.round - 1) b i x := by
  intro x hx
  have := h.data.acc k (lt_rounds hk).le hacc (fun _ => hnext) x hx
  rwa [level_of_bit hk] at this

theorem send_value (ho : J.Order i q) (hk : (J.bits i)[k]? = some b)
    (hin : q (J.sendOp i k) = .inflight) :
    ∀ x, x < J.n → E.mem (J.rb i) x = J.value (E.round - 1) b i x := by
  refine h.rb_value hk (Phase.isStarted_of_isDone ?_) ?_
  · exact ho.send k (lt_rounds hk) (by simp [hin])
  · by_contra hne
    have hs : (q (J.accOp i (k + 1))).isStarted = true := by simpa using hne
    have := ho.accSend k (lt_rounds hk) (Phase.ne_idle_of_isStarted hs)
    rw [hin] at this
    cases this

/-- What a completed receive has left in its buffer. -/
theorem recv_value (hk : (J.bits i)[k]? = some b)
    (hd : (q (J.recvOp i k)).isDone = true) :
    ∀ x, x < J.n → E.mem (J.tmp i k) x = J.value (E.round - 1) b (i ^^^ 2 ^ b) x := by
  have hr := h.chan.recv k b hk
  have hlen := hr.len
  rw [if_pos (Phase.isStarted_of_isDone hd)] at hlen
  have hpos := h.round_pos
  have hlt : E.round - 1 < (E.inc (i ^^^ 2 ^ b) J.tag).length := by omega
  have he := List.getElem?_eq_getElem hlt
  refine hr.data _ _ he ?_ (by omega)
  by_contra hne
  have hin := (hr.pending _ _ he (by simpa using hne)).2
  rw [hin] at hd
  cases hd

/-- An accumulation runs: what it leaves in the receive buffer is the next value. -/
theorem accumulate (ho : J.Order i q) {t : Nat} (ht : t ≤ J.rounds i)
    (hq : q (J.accOp i t) = .triggered) {m : Nat → α}
    (hm : ∀ x, x < J.n → m x = J.value (E.round - 1) (J.level i t) i x) :
    J.RoundInv i (Function.update q (J.accOp i t) .completing) (E.setMem (J.rb i) m) where
  chan := by
    refine h.chan.congr rfl rfl rfl rfl (fun k hk => ?_) (fun k _ => ?_) (fun k _ => ?_)
    · have hne := (J.setup_buffers i).1.rb_ne k hk
      simp [hne.symm]
    · have hop : J.sendOp i k ≠ J.accOp i t := by
        simp only [accOp, sendOp]
        omega
      simp [hop]
    · have hop : J.recvOp i k ≠ J.accOp i t := by
        simp only [accOp, recvOp]
        omega
      simp [hop]
  buff := h.buff
  room := h.room
  round_pos := h.round_pos
  data := by
    have hinj : ∀ s, J.accOp i s = J.accOp i t ↔ s = t := by
      intro s
      simp only [accOp]
      omega
    refine ⟨fun s hs hst hnext x hx => ?_, fun hst x hx => ?_⟩
    · simp only [RankEnv.setMem_mem, if_true, RankEnv.setMem_round]
      by_cases hst' : s = t
      · rw [hst']
        exact hm x hx
      · simp only [Function.update_apply, hinj, hst', if_false] at hst hnext
        have hlt : ¬ t < s := by
          intro hlt
          have := ho.acc_isDone hlt hs (Phase.ne_idle_of_isStarted hst)
          rw [hq] at this
          cases this
        have hsucc := hnext (by omega)
        by_cases hst1 : s + 1 = t
        · simp [hst1, Phase.isStarted] at hsucc
        · simp only [hst1, if_false] at hsucc
          have := ho.acc_isDone (show s + 1 < t by omega) ht (by simp [hq])
          rw [Phase.isStarted_of_isDone this] at hsucc
          cases hsucc
    · simp only [Function.update_apply, hinj] at hst
      by_cases h0 : 0 = t
      · simp [h0, Phase.isStarted] at hst
      · rw [if_neg h0] at hst
        have := ho.acc_isDone (show 0 < t by omega) ht (by simp [hq])
        rw [Phase.isStarted_of_isDone this] at hst
        cases hst
  flight v hv := by
    by_cases hvt : v = J.accOp i t
    · simp [hvt] at hv
    · exact h.flight v (by simpa [hvt] using hv)

theorem comp (ho : J.Order i q) (hk : (J.bits i)[k]? = some b)
    (hq : q (J.accOp i (k + 1)) = .triggered) :
    J.RoundInv i (Function.update q (J.accOp i (k + 1)) .completing)
      (E.gcomp J.ops (J.tmp i k) (J.rb i) (J.rb i) J.operator) := by
  have hlt := lt_rounds hk
  have hsend := ho.accSend k hlt (by simp [hq])
  have hacc := ho.send k hlt (Phase.ne_idle_of_isDone hsend)
  refine h.accumulate ho (by omega) hq (fun x hx => ?_)
  have htmp := h.buff.tmp_count k (hlt.trans_le rounds_le)
  have hrb := h.buff.rb_eq
  have hroom := h.room
  have hsize : x < min (min (E.buffs (J.tmp i k)).count
      (if J.rb i ≠ ffbuffNone then (E.buffs (J.rb i)).count
        else (E.buffs (J.tmp i k)).count)) (E.buffs (J.rb i)).count := by
    rw [htmp, hrb]
    split <;> simp only [lt_min_iff] <;> omega
  rw [if_pos hsize, h.recv_value hk (ho.accRecv k hlt (by simp [hq])) x hx,
    h.rb_value hk (Phase.isStarted_of_isDone hacc) (by rw [hq]; rfl) x hx,
    J.value_level_succ hk]
  rfl

theorem move (ho : J.Order i q) (hq : q (J.accOp i 0) = .triggered) :
    J.RoundInv i (Function.update q (J.accOp i 0) .completing)
      (E.gcomp J.ops (J.src i) ffbuffNone (J.rb i) ffIdentity) := by
  refine h.accumulate ho (Nat.zero_le _) hq (fun x hx => ?_)
  have hin := h.data.input (by rw [hq]; rfl) x hx
  simp only [h.buff.src_eq, h.buff.rb_eq, ne_eq, not_true_eq_false, if_false, min_self]
  rw [if_pos hx, opFun, if_pos rfl, hin, J.value_level_zero]

/-- In place, the receive buffer holds the input. -/
theorem moveInPlace (ho : J.Order i q) (hp : (J.args i).inPlace = true)
    (hq : q (J.accOp i 0) = .triggered) :
    J.RoundInv i (Function.update q (J.accOp i 0) .completing) E := by
  have hsrc : J.src i = J.rb i := if_pos hp
  have hself : E.setMem (J.rb i) (E.mem (J.rb i)) = E := by
    simp [RankEnv.setMem]
  rw [← hself]
  refine h.accumulate ho (Nat.zero_le _) hq (fun x hx => ?_)
  rw [← hsrc, h.data.input (by rw [hq]; rfl) x hx, J.value_level_zero]

theorem readSend (ho : J.Order i q) (j m : Nat) :
    J.RoundInv i q (E.readSend j J.tag m) where
  chan := h.chan.readSend j m (fun _ _ hk => h.send_value ho hk)
  buff := by simpa using h.buff
  room := by simpa using h.room
  round_pos := by simpa using h.round_pos
  data := h.data.congr (by simp) (by simp) (by simp) (fun _ => rfl)
  flight := h.flight

theorem deliver (j m : Nat) {sent : Option (SendReq α)}
    (hsent : ∀ (k b : Nat) e v, (J.bits i)[k]? = some b → j = i ^^^ 2 ^ b → sent = some e →
      e.payload = some v → e.count = J.n ∧ ∀ x, x < J.n → v x = J.value m b j x) :
    J.RoundInv i q (E.deliver j J.tag m sent) where
  chan := h.chan.deliver j m hsent
  buff := by simpa using h.buff
  room := by simpa using h.room
  round_pos := by simpa using h.round_pos
  data := by
    obtain ⟨hrb, hsrc, _⟩ := (J.setup_buffers i).1
    have hlt : ∀ k b, (J.bits i)[k]? = some b → k < J.maxr :=
      fun k b hk => (lt_rounds hk).trans_le rounds_le
    exact h.data.congr
      (h.chan.deliver_mem j m sent (fun k b hk _ _ => (hrb k (hlt k b hk)).symm))
      (h.chan.deliver_mem j m sent (fun k b hk _ _ => (hsrc k (hlt k b hk)).symm))
      (by simp) (fun _ => rfl)
  flight := h.flight

/-- A request completes. -/
theorem finishRequest {v : Nat} (hq : q v = .inflight)
    (hchan : J.ChanInv i (Function.update q v .completing) E) :
    J.RoundInv i (Function.update q v .completing) E where
  chan := hchan
  buff := h.buff
  room := h.room
  round_pos := h.round_pos
  data := by
    refine h.data.congr rfl rfl rfl (fun t => ?_)
    by_cases hv : J.accOp i t = v
    · rw [hv, Function.update_self, hq]
      rfl
    · rw [Function.update_of_ne hv]
  flight w hw := by
    by_cases hwv : w = v
    · simp [hwv] at hw
    · exact h.flight w (by simpa [hwv] using hw)

theorem sent (hk : (J.bits i)[k]? = some b) (hq : q (J.sendOp i k) = .inflight)
    {e : SendReq α} (he : (E.out (i ^^^ 2 ^ b) J.tag)[E.req (J.sendOp i k)]? = some e)
    (hread : e.payload ≠ none) :
    J.RoundInv i (Function.update q (J.sendOp i k) .completing) E := by
  refine h.finishRequest hq (h.chan.finish (fun l c hl hop => ?_) (fun l c hl hop => ?_))
  · obtain rfl : l = k := by
      simp only [sendOp] at hop
      omega
    obtain rfl := Option.some.inj (hk.symm.trans hl)
    exact (h.chan.send l b hk).complete hq he hread (by simp [Phase.isStarted]) (by simp)
  · simp only [sendOp, recvOp] at hop
    omega

theorem received (hk : (J.bits i)[k]? = some b) (hq : q (J.recvOp i k) = .inflight)
    {e : RecvReq} (he : (E.inc (i ^^^ 2 ^ b) J.tag)[E.req (J.recvOp i k)]? = some e)
    (hdel : e.delivered = true) :
    J.RoundInv i (Function.update q (J.recvOp i k) .completing) E := by
  refine h.finishRequest hq (h.chan.finish (fun l c hl hop => ?_) (fun l c hl hop => ?_))
  · simp only [sendOp, recvOp] at hop
    omega
  · obtain rfl : l = k := by
      simp only [recvOp] at hop
      omega
    obtain rfl := Option.some.inj (hk.symm.trans hl)
    exact (h.chan.recv l b hk).complete hq he hdel (by simp [Phase.isStarted]) (by simp)

/-- The result of a round. -/
theorem result (hd : (q (J.accOp i (J.rounds i))).isDone = true) :
    ∀ x, x < J.n → E.mem (J.rb i) x = J.value (E.round - 1) J.maxr i x := by
  intro x hx
  have := h.data.acc (J.rounds i) le_rfl (Phase.isStarted_of_isDone hd)
    (fun hlt => absurd hlt (lt_irrefl _)) x hx
  rwa [level_rounds] at this

/-- The round is over. -/
theorem quiet (hd : ∀ v, (J.lib₀ i).opid + 2 ≤ v →
      v < (J.lib₀ i).opid + 3 + 3 * J.rounds i → (q v).isDone = true) :
    J.QuietInv i false E where
  chan := by
    have hdone : ∀ v, (J.lib₀ i).opid + 2 ≤ v → v < (J.lib₀ i).opid + 3 + 3 * J.rounds i →
        (Phase.cascading 0).isStarted = (q v).isStarted ∧
          (Phase.cascading 0 = .inflight ↔ q v = .inflight) := by
      intro v hlo hv
      have := hd v hlo hv
      refine ⟨(Phase.isStarted_of_isDone this).symm, iff_of_false (by simp) (fun heq => ?_)⟩
      rw [heq] at this
      cases this
    refine h.chan.congr rfl rfl rfl rfl (fun _ _ => rfl) (fun k hk => ?_) (fun k hk => ?_)
    · exact hdone _ (by rw [sendOp]; omega) (by rw [sendOp]; omega)
    · exact hdone _ (by rw [recvOp]; omega) (by rw [recvOp]; omega)
  buff := h.buff
  input hl := by cases hl
  result _ _ := h.result (hd _ (by rw [accOp]; omega) (by rw [accOp]; omega))

end RoundInv

namespace QuietInv

variable {loaded : Bool} (h : J.QuietInv i loaded E)
include h

/-- The user sets the inputs of the next round. -/
theorem set (scratch : Nat → α) : J.QuietInv i true (J.setInputs i scratch E) where
  chan := by
    obtain ⟨hrb, hsrc, _⟩ := (J.setup_buffers i).1
    refine h.chan.congr rfl rfl rfl rfl (fun k hk => ?_) (fun _ _ => ⟨rfl, Iff.rfl⟩)
      (fun _ _ => ⟨rfl, Iff.rfl⟩)
    simp [setInputs, (hrb k hk).symm, (hsrc k hk).symm]
  buff := h.buff
  input _ x _ := by simp [setInputs]
  result hl := by cases hl

theorem readSend (j m : Nat) : J.QuietInv i loaded (E.readSend j J.tag m) where
  chan := h.chan.readSend j m (fun _ _ _ hq => by cases hq)
  buff := by simpa using h.buff
  input := by simpa using h.input
  result := by simpa using h.result

theorem deliver (j m : Nat) {sent : Option (SendReq α)}
    (hsent : ∀ (k b : Nat) e v, (J.bits i)[k]? = some b → j = i ^^^ 2 ^ b → sent = some e →
      e.payload = some v → e.count = J.n ∧ ∀ x, x < J.n → v x = J.value m b j x) :
    J.QuietInv i loaded (E.deliver j J.tag m sent) := by
  have hmem : ∀ c, (E.deliver j J.tag m sent).mem c = E.mem c :=
    fun c => h.chan.deliver_mem j m sent (fun _ _ _ hq => by cases hq)
  refine ⟨h.chan.deliver j m hsent, by simpa using h.buff, ?_, ?_⟩
  · rw [hmem, RankEnv.deliver_round]
    exact h.input
  · rw [hmem, RankEnv.deliver_round]
    exact h.result

/-- A round begins: nothing has been started. -/
theorem post (hl : loaded = true) (hq : ∀ v, (q v).isStarted = false)
    (hmem : E'.mem = E.mem) (hout : E'.out = E.out) (hinc : E'.inc = E.inc)
    (hround : E'.round = E.round + 1) (hbuff : J.BuffInv i E'.buffs E'.stateCount)
    (hroom : J.n ≤ E'.stateCount) : J.RoundInv i q E' where
  chan := {
    send := fun k b hk =>
      (h.chan.send k b hk).nextRound rfl (hq _) (by rw [hout]) hround
    recv := fun k b hk =>
      (h.chan.recv k b hk).nextRound rfl (hq _) (by rw [hinc]) hround
    other := by rw [hout, hinc]; exact h.chan.other }
  buff := hbuff
  room := hroom
  round_pos := by omega
  data := {
    acc := fun t _ hs => by
      rw [hq] at hs
      cases hs
    input := fun _ => by
      rw [hmem, hround, Nat.add_sub_cancel]
      exact h.input hl }
  flight v hv := by
    have := hq v
    rw [hv] at this
    cases this

end QuietInv

/-- `ffallreduce_post_check` makes room for the receive buffer. -/
theorem BuffInv.postCheck (h : J.BuffInv i E.buffs E.stateCount) :
    J.BuffInv i (E.postCheck (J.state i)).buffs (E.postCheck (J.state i)).stateCount ∧
      J.n ≤ (E.postCheck (J.state i)).stateCount := by
  have H := (J.setup_buffers i).1
  have hrb : E.buffs (J.state i).rcvbuff = ⟨J.n, (J.args i).datatype⟩ := h.rb_eq
  have hsb : (J.state i).sndbuff ≠ ffbuffNone →
      E.buffs (J.state i).sndbuff = ⟨J.n, (J.args i).datatype⟩ := by
    intro hne
    have hp : ¬ (J.args i).inPlace = true := fun hp => hne (H.sb_eq.mpr hp)
    have hsrc := h.src_eq
    rwa [src, if_neg hp] at hsrc
  have htaken : (J.state i).tmpbuffs.take (J.state i).tmpbuffsCount =
      List.range' (J.lib₀ i).nextBuffer J.maxr := by
    rw [H.tmpbuffs_eq, H.tmpbuffsCount_eq, List.take_of_length_le (by simp)]
  have hmem : ∀ c, c ∈ List.range' (J.lib₀ i).nextBuffer J.maxr ↔
      ∃ k, k < J.maxr ∧ c = J.tmp i k := by
    intro c
    rw [List.mem_range'_1]
    constructor
    · intro hc
      exact ⟨c - (J.lib₀ i).nextBuffer, by omega, by rw [tmp]; omega⟩
    · rintro ⟨k, hk, rfl⟩
      rw [tmp]
      omega
  have hokt : ¬ ((¬ (J.state i).sndbuff = ffbuffNone ∧
      (E.buffs (J.state i).sndbuff).datatype ≠ (E.buffs (J.state i).rcvbuff).datatype) ∨
      (E.buffs (J.state i).rcvbuff).datatype ≠ (J.state i).datatype) := by
    rintro (⟨hne, hc⟩ | hc)
    · rw [hsb hne, hrb] at hc
      exact hc rfl
    · rw [hrb, H.datatype_eq] at hc
      exact hc rfl
  have hokc : ¬ (¬ (J.state i).sndbuff = ffbuffNone ∧
      (E.buffs (J.state i).sndbuff).count ≠ (E.buffs (J.state i).rcvbuff).count) := by
    rintro ⟨hne, hc⟩
    rw [hsb hne, hrb] at hc
    exact hc rfl
  unfold RankEnv.postCheck
  simp only
  rw [if_neg hokt, if_neg hokc, hrb, htaken]
  by_cases hgt : J.n > E.stateCount
  · rw [if_pos hgt]
    have hother : ∀ c, (∀ k, k < J.maxr → c ≠ J.tmp i k) →
        c ∉ List.range' (J.lib₀ i).nextBuffer J.maxr := by
      intro c hc hin
      obtain ⟨k, hk, heq⟩ := (hmem c).mp hin
      exact hc k hk heq
    refine ⟨⟨?_, ?_, fun k hk => ?_, fun _ => le_rfl⟩, le_rfl⟩
    · simp only
      rw [if_neg (hother _ H.rb_ne)]
      exact hrb
    · simp only
      rw [if_neg (hother _ H.src_ne)]
      exact h.src_eq
    · simp only
      rw [if_pos ((hmem _).mpr ⟨k, hk, rfl⟩)]
  · rw [if_neg hgt]
    exact ⟨h, by omega⟩

theorem postCheck_mem (st : AllreduceState) (E : RankEnv α) :
    (E.postCheck st).mem = E.mem ∧ (E.postCheck st).out = E.out ∧
      (E.postCheck st).inc = E.inc ∧ (E.postCheck st).round = E.round := by
  unfold RankEnv.postCheck
  simp only
  split
  · exact ⟨rfl, rfl, rfl, rfl⟩
  · split
    · exact ⟨rfl, rfl, rfl, rfl⟩
    · split <;> exact ⟨rfl, rfl, rfl, rfl⟩

end Ranks

end Fflib
