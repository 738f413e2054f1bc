import Fflib.Net

/-!
# The requests of a process

What holds of the requests of a rank in every reachable state of a program, for any
schedules: the `m`-th request of a channel belongs to round `m + 1`, and one whose buffer
has not been read, or that has not been delivered, is that of the operation in flight.

* `readSend_cases` and `deliver_cases` say all that the network can do to a rank.
* `ChanOk` is the invariant of the requests of a rank, with one step lemma for each thing
  that can happen to them.
* `sentAt` and `ReceivedAt`, what has been read and delivered, change only when the network
  reads a buffer or delivers a message.
-/

namespace Fflib

open Library

universe u

variable {α : Type u}

/-! ### What the network can do -/

/-- The network reads a buffer that has not been read, or does nothing. -/
theorem RankEnv.readSend_cases (E : RankEnv α) (peer tag k : Nat) :
    E.readSend peer tag k = E ∨ ∃ e : SendReq α, (E.out peer tag)[k]? = some e ∧ e.payload = none ∧
      E.readSend peer tag k = E.setOut peer tag
        ((E.out peer tag).set k { e with payload := some (E.mem e.buffer) }) := by
  unfold readSend
  split
  · next hk => exact Or.inr ⟨_, hk, rfl, rfl⟩
  · exact Or.inl rfl

/-- The network delivers what has been read to a receive that waits, or does nothing. -/
theorem RankEnv.deliver_cases (E : RankEnv α) (peer tag k : Nat) (sent : Option (SendReq α)) :
    E.deliver peer tag k sent = E ∨ ∃ (r : RecvReq) (e : SendReq α) (payload : Nat → α),
      (E.inc peer tag)[k]? = some r ∧ r.delivered = false ∧ sent = some e ∧
      e.payload = some payload ∧
      E.deliver peer tag k sent =
        (E.setMem r.buffer fun x =>
          if x < e.count ∧ x < r.count then payload x else E.mem r.buffer x).setInc peer tag
            ((E.inc peer tag).set k { r with delivered := true }) := by
  unfold deliver
  split
  · next hk => exact Or.inr ⟨_, _, _, hk, rfl, rfl, rfl, rfl⟩
  · exact Or.inl rfl

/-! ### What has been read and delivered -/

namespace RankEnv

variable (E : RankEnv α) (ptr : Nat → Nat) (x peer tag b : Nat)

theorem sentAt_eq_some_iff {E : RankEnv α} {peer tag k : Nat} {c : Nat × (Nat → α)} :
    E.sentAt peer tag k = some c ↔ ∃ e v, (E.out peer tag)[k]? = some e ∧
      e.payload = some v ∧ c = (e.count, v) := by
  rw [sentAt, Option.bind_eq_some_iff]
  refine exists_congr (fun e => ?_)
  rw [SendReq.sent, Option.map_eq_some_iff]
  constructor
  · rintro ⟨he, v, hv, rfl⟩
    exact ⟨v, he, hv, rfl⟩
  · rintro ⟨v, he, hv, rfl⟩
    exact ⟨he, v, hv, rfl⟩

/-- A request that has just been posted has not been read. -/
theorem isendAt_sentAt : (E.isendAt ptr x peer tag b).sentAt = E.sentAt := by
  funext peer' tag' k
  by_cases hch : peer' = peer ∧ tag' = tag
  · obtain ⟨rfl, rfl⟩ := hch
    simp only [sentAt, isendAt, setReq_out, setOut_out, if_true, List.getElem?_append]
    by_cases hk : k < (E.out peer' tag').length
    · rw [if_pos hk]
    · rw [if_neg hk, List.getElem?_eq_none (Nat.not_lt.mp hk), List.getElem?_singleton]
      split <;> rfl
  · simp only [sentAt, isendAt, setReq_out]
    rw [setOut_out_of_ne _ _ _ _ hch]

theorem irecvAt_receivedAt : (E.irecvAt ptr x peer tag b).ReceivedAt = E.ReceivedAt := by
  funext peer' tag' k
  by_cases hch : peer' = peer ∧ tag' = tag
  · obtain ⟨rfl, rfl⟩ := hch
    simp only [ReceivedAt, irecvAt, setReq_inc, setInc_inc, if_true]
    refine propext ⟨?_, ?_⟩
    · rintro ⟨e, he, hd⟩
      rcases getElem?_concat_cases he with he | ⟨_, rfl⟩
      · exact ⟨e, he, hd⟩
      · cases hd
    · rintro ⟨e, he, hd⟩
      exact ⟨e, by rw [List.getElem?_append_left (List.getElem?_eq_some_iff.mp he).1, he], hd⟩
  · simp only [ReceivedAt, irecvAt, setReq_inc]
    rw [setInc_inc_of_ne _ _ _ _ hch]

/-- The network reads the memory behind the buffer of a send. -/
theorem sentAt_readSend {E : RankEnv α} {peer tag k : Nat} {e : SendReq α}
    (he : (E.out peer tag)[k]? = some e) (peer' tag' m : Nat) :
    (E.setOut peer tag ((E.out peer tag).set k
      { e with payload := some (E.mem e.buffer) })).sentAt peer' tag' m =
      if peer' = peer ∧ tag' = tag ∧ m = k then some (e.count, E.mem e.buffer)
      else E.sentAt peer' tag' m := by
  by_cases hch : peer' = peer ∧ tag' = tag
  · obtain ⟨rfl, rfl⟩ := hch
    have hk := (List.getElem?_eq_some_iff.mp he).1
    simp only [sentAt, setOut_out, if_true, true_and]
    by_cases hm : m = k
    · rw [if_pos hm, hm, List.getElem?_set_self hk]
      rfl
    · rw [if_neg hm, List.getElem?_set_ne (Ne.symm hm)]
  · rw [if_neg (fun hc => hch ⟨hc.1, hc.2.1⟩), sentAt, setOut_out_of_ne _ _ _ _ hch]
    rfl

theorem receivedAt_deliver {E : RankEnv α} {peer tag k : Nat} {r : RecvReq}
    (hr : (E.inc peer tag)[k]? = some r) (peer' tag' m : Nat) (c : Nat) (f : Nat → α) :
    ((E.setMem c f).setInc peer tag ((E.inc peer tag).set k
      { r with delivered := true })).ReceivedAt peer' tag' m ↔
      (peer' = peer ∧ tag' = tag ∧ m = k) ∨ E.ReceivedAt peer' tag' m := by
  by_cases hch : peer' = peer ∧ tag' = tag
  · obtain ⟨rfl, rfl⟩ := hch
    have hk := (List.getElem?_eq_some_iff.mp hr).1
    simp only [ReceivedAt, setInc_inc, if_true, true_and]
    by_cases hm : m = k
    · subst hm
      rw [List.getElem?_set_self hk]
      exact iff_of_true ⟨_, rfl, rfl⟩ (Or.inl rfl)
    · rw [List.getElem?_set_ne (Ne.symm hm)]
      exact ⟨Or.inr, fun h => h.resolve_left hm⟩
  · rw [ReceivedAt, setInc_inc_of_ne _ _ _ _ hch]
    exact ⟨Or.inr, fun h => h.resolve_left (fun hc => hch ⟨hc.1, hc.2.1⟩)⟩

/-- What has been read stays. -/
theorem sentAt_readSend_of_some {m : Nat} {peer' tag' : Nat} {c : Nat × (Nat → α)} (k : Nat)
    (hc : E.sentAt peer' tag' m = some c) :
    ∃ c, (E.readSend peer tag k).sentAt peer' tag' m = some c := by
  rcases E.readSend_cases peer tag k with heq | ⟨e, he, _, heq⟩
  · rw [heq]
    exact ⟨c, hc⟩
  · rw [heq, sentAt_readSend he]
    split
    · exact ⟨_, rfl⟩
    · exact ⟨c, hc⟩

@[simp] theorem sentAt_deliver (k : Nat) (sent : Option (SendReq α)) :
    (E.deliver peer tag k sent).sentAt = E.sentAt := by
  unfold sentAt
  rw [deliver_out]

end RankEnv

/-! ### The requests of a rank -/

namespace Net

variable {n : Nat} (N : Net α n)

/-- The requests of a send over all rounds. -/
structure SendOk (i x peer tag b : Nat) (q : Nat → Phase) (E : RankEnv α) : Prop where
  len : (E.out peer tag).length + (if (q x).isStarted then 0 else 1) = E.round
  posted : ∀ (m : Nat) (e : SendReq α), (E.out peer tag)[m]? = some e →
    e.buffer = N.ptr i b ∧ e.count = ((N.lib i).buffs b).count
  unread : ∀ (m : Nat) (e : SendReq α), (E.out peer tag)[m]? = some e → e.payload = none →
    m + 1 = E.round ∧ q x = .inflight
  pos : q x = .inflight → E.req x + 1 = E.round

/-- The requests of a receive over all rounds. -/
structure RecvOk (i y peer tag b : Nat) (q : Nat → Phase) (E : RankEnv α) : Prop where
  len : (E.inc peer tag).length + (if (q y).isStarted then 0 else 1) = E.round
  posted : ∀ (m : Nat) (e : RecvReq), (E.inc peer tag)[m]? = some e →
    e.buffer = N.ptr i b ∧ e.count = ((N.lib i).buffs b).count
  pending : ∀ (m : Nat) (e : RecvReq), (E.inc peer tag)[m]? = some e → e.delivered = false →
    m + 1 = E.round ∧ q y = .inflight
  pos : q y = .inflight → E.req y + 1 = E.round

/-- All requests of a rank. -/
structure ChanOk (i : Fin n) (q : Nat → Phase) (E : RankEnv α) : Prop where
  buffs_eq : E.buffs = (N.lib i).buffs
  send : ∀ {x peer tag b}, N.Sends i x peer tag b → N.SendOk i x peer tag b q E
  recv : ∀ {y peer tag b}, N.Receives i y peer tag b → N.RecvOk i y peer tag b q E
  no_send : ∀ {peer tag}, (∀ x b, ¬ N.Sends i x peer tag b) → E.out peer tag = []
  no_recv : ∀ {peer tag}, (∀ y b, ¬ N.Receives i y peer tag b) → E.inc peer tag = []
  flight : ∀ v, q v = .inflight → (N.body i v).isRequest = true

/-- The phases of a rank; between two rounds everything has completed. -/
def phaseOf : Option (Progress Nat) → Nat → Phase
  | none => fun _ => .cascading 0
  | some a => a.phase

variable {N} {i : Fin n} {q q' : Nat → Phase} {E E' : RankEnv α} {x y peer tag b k : Nat}

/-- A send and a receive are different operations. -/
theorem Sends.ne_receives {peer' tag' b' : Nat} (hx : N.Sends i x peer tag b)
    (hy : N.Receives i y peer' tag' b') : x ≠ y := by
  rintro rfl
  have := hx.2.symm.trans hy.2
  cases this

theorem Sends.buffer_eq {peer' tag' b' : Nat} (hx : N.Sends i x peer tag b)
    (hx' : N.Sends i x peer' tag' b') : peer = peer' ∧ tag = tag' ∧ b = b' := by
  have := hx.2.symm.trans hx'.2
  simpa using this

theorem Receives.buffer_eq {peer' tag' b' : Nat} (hy : N.Receives i y peer tag b)
    (hy' : N.Receives i y peer' tag' b') : peer = peer' ∧ tag = tag' ∧ b = b' := by
  have := hy.2.symm.trans hy'.2
  simpa using this

section Requests

theorem SendOk.congr (h : N.SendOk i x peer tag b q E)
    (hout : E'.out peer tag = E.out peer tag) (hround : E'.round = E.round)
    (hreq : E'.req x = E.req x) (hs : (q' x).isStarted = (q x).isStarted)
    (hf : q' x = .inflight ↔ q x = .inflight) : N.SendOk i x peer tag b q' E' := by
  obtain ⟨h1, h2, h3, h4⟩ := h
  refine ⟨?_, ?_, ?_, ?_⟩
  · rw [hout, hs, hround]; exact h1
  · rw [hout]; exact h2
  · rw [hout, hround, hf]; exact h3
  · rw [hf, hreq, hround]; exact h4

theorem RecvOk.congr (h : N.RecvOk i y peer tag b q E)
    (hinc : E'.inc peer tag = E.inc peer tag) (hround : E'.round = E.round)
    (hreq : E'.req y = E.req y) (hs : (q' y).isStarted = (q y).isStarted)
    (hf : q' y = .inflight ↔ q y = .inflight) : N.RecvOk i y peer tag b q' E' := by
  obtain ⟨h1, h2, h3, h4⟩ := h
  refine ⟨?_, ?_, ?_, ?_⟩
  · rw [hinc, hs, hround]; exact h1
  · rw [hinc]; exact h2
  · rw [hinc, hround, hf]; exact h3
  · rw [hf, hreq, hround]; exact h4

/-- A request that has been posted in an earlier round, or by an operation that has
completed, has been read. -/
theorem SendOk.read (h : N.SendOk i x peer tag b q E) {m : Nat}
    (hm : m + 1 < E.round ∨ m + 1 = E.round ∧ (q x).isDone = true) :
    ∃ c, E.sentAt peer tag m = some c := by
  have hlen := h.len
  have hlt : m < (E.out peer tag).length := by
    rcases hm with hm | ⟨hm, hd⟩
    · split at hlen <;> omega
    · rw [if_pos (Phase.isStarted_of_isDone hd)] at hlen
      omega
  have he := List.getElem?_eq_getElem hlt
  cases hp : (E.out peer tag)[m].payload with
  | none =>
      obtain ⟨hround, hin⟩ := h.unread _ _ he hp
      rcases hm with hm | ⟨_, hd⟩
      · omega
      · rw [hin] at hd
        cases hd
  | some v => exact ⟨_, by rw [RankEnv.sentAt, he, Option.bind_some, SendReq.sent, hp,
      Option.map_some]⟩

theorem RecvOk.received (h : N.RecvOk i y peer tag b q E) {m : Nat}
    (hm : m + 1 < E.round ∨ m + 1 = E.round ∧ (q y).isDone = true) :
    E.ReceivedAt peer tag m := by
  have hlen := h.len
  have hlt : m < (E.inc peer tag).length := by
    rcases hm with hm | ⟨hm, hd⟩
    · split at hlen <;> omega
    · rw [if_pos (Phase.isStarted_of_isDone hd)] at hlen
      omega
  have he := List.getElem?_eq_getElem hlt
  refine ⟨_, he, ?_⟩
  by_contra hne
  obtain ⟨hround, hin⟩ := h.pending _ _ he (by simpa using hne)
  rcases hm with hm | ⟨_, hd⟩
  · omega
  · rw [hin] at hd
    cases hd

/-- What has been read has been posted. -/
theorem SendOk.started (h : N.SendOk i x peer tag b q E) {m : Nat} {c : Nat × (Nat → α)}
    (hm : E.sentAt peer tag m = some c) :
    m + 1 < E.round ∨ m + 1 = E.round ∧ (q x).isStarted = true := by
  obtain ⟨e, _, he, _⟩ := RankEnv.sentAt_eq_some_iff.mp hm
  have hlt := (List.getElem?_eq_some_iff.mp he).1
  have hlen := h.len
  by_cases hs : (q x).isStarted = true
  · rw [if_pos hs] at hlen
    by_cases hr : m + 1 = E.round
    · exact Or.inr ⟨hr, hs⟩
    · exact Or.inl (by omega)
  · rw [if_neg hs] at hlen
    exact Or.inl (by omega)

theorem RecvOk.started (h : N.RecvOk i y peer tag b q E) {m : Nat}
    (hm : E.ReceivedAt peer tag m) :
    m + 1 < E.round ∨ m + 1 = E.round ∧ (q y).isStarted = true := by
  obtain ⟨e, he, _⟩ := hm
  have hlt := (List.getElem?_eq_some_iff.mp he).1
  have hlen := h.len
  by_cases hs : (q y).isStarted = true
  · rw [if_pos hs] at hlen
    by_cases hr : m + 1 = E.round
    · exact Or.inr ⟨hr, hs⟩
    · exact Or.inl (by omega)
  · rw [if_neg hs] at hlen
    exact Or.inl (by omega)

end Requests

namespace ChanOk

/-- What changes neither requests nor what has been started. -/
theorem congr (h : N.ChanOk i q E) (hbuffs : E'.buffs = E.buffs) (hout : E'.out = E.out)
    (hinc : E'.inc = E.inc) (hround : E'.round = E.round) (hreq : E'.req = E.req)
    (hs : ∀ v, (q' v).isStarted = (q v).isStarted)
    (hf : ∀ v, q' v = .inflight ↔ q v = .inflight) : N.ChanOk i q' E' where
  buffs_eq := hbuffs.trans h.buffs_eq
  send hx := (h.send hx).congr (by rw [hout]) hround (by rw [hreq]) (hs _) (hf _)
  recv hy := (h.recv hy).congr (by rw [hinc]) hround (by rw [hreq]) (hs _) (hf _)
  no_send hno := by rw [hout]; exact h.no_send hno
  no_recv hno := by rw [hinc]; exact h.no_recv hno
  flight v hv := h.flight v ((hf v).mp hv)

/-- A new round begins. -/
theorem nextRound (h : N.ChanOk i (fun _ => .cascading 0) E)
    (hq : ∀ v, (q v).isStarted = false) : N.ChanOk i q E.nextRound where
  buffs_eq := h.buffs_eq
  send {x _ _ _} hx := by
    obtain ⟨h1, h2, h3, _⟩ := h.send hx
    refine ⟨?_, h2, fun m e he hn => ?_, fun hin => ?_⟩
    · rw [hq]
      simpa [RankEnv.nextRound, Phase.isStarted] using h1
    · cases (h3 m e he hn).2
    · have := hq x
      rw [hin] at this
      cases this
  recv {y _ _ _} hy := by
    obtain ⟨h1, h2, h3, _⟩ := h.recv hy
    refine ⟨?_, h2, fun m e he hn => ?_, fun hin => ?_⟩
    · rw [hq]
      simpa [RankEnv.nextRound, Phase.isStarted] using h1
    · cases (h3 m e he hn).2
    · have := hq y
      rw [hin] at this
      cases this
  no_send hno := h.no_send hno
  no_recv hno := h.no_recv hno
  flight v hv := by
    have := hq v
    rw [hv] at this
    cases this

/-- A round is over. -/
theorem done (h : N.ChanOk i q E) (hd : ∀ v, v ∈ (N.graph i).verts → (q v).isDone = true) :
    N.ChanOk i (fun _ => .cascading 0) E := by
  have hstart : ∀ v, v ∈ (N.graph i).verts →
      (Phase.cascading 0).isStarted = (q v).isStarted := by
    intro v hv
    exact (Phase.isStarted_of_isDone (hd v hv)).symm
  have hflight : ∀ v, v ∈ (N.graph i).verts →
      (Phase.cascading 0 = .inflight ↔ q v = .inflight) := by
    intro v hv
    refine iff_of_false (by simp) (fun heq => ?_)
    have := hd v hv
    rw [heq] at this
    cases this
  refine ⟨h.buffs_eq, fun hx => ?_, fun hy => ?_, h.no_send, h.no_recv, fun v hv => by cases hv⟩
  · exact (h.send hx).congr rfl rfl rfl (hstart _ hx.1) (hflight _ hx.1)
  · exact (h.recv hy).congr rfl rfl rfl (hstart _ hy.1) (hflight _ hy.1)

/-- A send is posted. -/
theorem isend (hN : N.Channels) (h : N.ChanOk i q E) (hx : N.Sends i x peer tag b)
    (hs : (q x).isStarted = false) (hq : ∀ v, q' v = if v = x then .inflight else q v) :
    N.ChanOk i q' (E.isendAt (N.ptr i) x peer tag b) where
  buffs_eq := h.buffs_eq
  send {x' peer' tag' b'} hx' := by
    by_cases hxx : x' = x
    · subst hxx
      obtain ⟨rfl, rfl, rfl⟩ := hx.buffer_eq hx'
      obtain ⟨h1, h2, h3, _⟩ := h.send hx
      simp only [hs, Bool.false_eq_true, if_false] at h1
      have hout : (E.isendAt (N.ptr i) x' peer tag b).out peer tag = E.out peer tag ++
          [⟨E.round, N.ptr i b, (E.buffs b).count, none⟩] := by
        simp [RankEnv.isendAt]
      refine ⟨?_, fun m e he => ?_, fun m e he hn => ?_, fun _ => ?_⟩
      · rw [hout, hq, if_pos rfl, if_pos (by rfl), List.length_append, List.length_singleton]
        exact h1
      · rw [hout] at he
        rcases getElem?_concat_cases he with he | ⟨_, rfl⟩
        · exact h2 m e he
        · exact ⟨rfl, by rw [h.buffs_eq]⟩
      · rw [hq, if_pos rfl]
        rw [hout] at he
        rcases getElem?_concat_cases he with he | ⟨hm, _⟩
        · rw [(h3 m e he hn).2] at hs
          cases hs
        · rw [hm]
          exact ⟨h1, rfl⟩
      · simpa [RankEnv.isendAt] using h1
    · have hch : ¬ (peer' = peer ∧ tag' = tag) := by
        rintro ⟨rfl, rfl⟩
        exact hxx (hN.send_unique hx' hx)
      refine (h.send hx').congr ?_ rfl ?_ ?_ ?_
      · rw [RankEnv.isendAt, RankEnv.setReq_out, RankEnv.setOut_out_of_ne _ _ _ _ hch]
      · simp [RankEnv.isendAt, hxx]
      · rw [hq, if_neg hxx]
      · rw [hq, if_neg hxx]
  recv {y peer' tag' b'} hy := by
    have hyx : y ≠ x := (hx.ne_receives hy).symm
    refine (h.recv hy).congr rfl rfl ?_ ?_ ?_
    · simp [RankEnv.isendAt, hyx]
    · rw [hq, if_neg hyx]
    · rw [hq, if_neg hyx]
  no_send {peer' tag'} hno := by
    have hch : ¬ (peer' = peer ∧ tag' = tag) := by
      rintro ⟨rfl, rfl⟩
      exact hno x b hx
    rw [RankEnv.isendAt, RankEnv.setReq_out, RankEnv.setOut_out_of_ne _ _ _ _ hch]
    exact h.no_send hno
  no_recv hno := h.no_recv hno
  flight v hv := by
    by_cases hvx : v = x
    · rw [hvx, hx.2]
      rfl
    · rw [hq, if_neg hvx] at hv
      exact h.flight v hv

/-- A receive is posted. -/
theorem irecv (hN : N.Channels) (h : N.ChanOk i q E) (hy : N.Receives i y peer tag b)
    (hs : (q y).isStarted = false) (hq : ∀ v, q' v = if v = y then .inflight else q v) :
    N.ChanOk i q' (E.irecvAt (N.ptr i) y peer tag b) where
  buffs_eq := h.buffs_eq
  send {x peer' tag' b'} hx := by
    have hxy : x ≠ y := hx.ne_receives hy
    refine (h.send hx).congr rfl rfl ?_ ?_ ?_
    · simp [RankEnv.irecvAt, hxy]
    · rw [hq, if_neg hxy]
    · rw [hq, if_neg hxy]
  recv {y' peer' tag' b'} hy' := by
    by_cases hyy : y' = y
    · subst hyy
      obtain ⟨rfl, rfl, rfl⟩ := hy.buffer_eq hy'
      obtain ⟨h1, h2, h3, _⟩ := h.recv hy
      simp only [hs, Bool.false_eq_true, if_false] at h1
      have hinc : (E.irecvAt (N.ptr i) y' peer tag b).inc peer tag = E.inc peer tag ++
          [⟨E.round, N.ptr i b, (E.buffs b).count, false⟩] := by
        simp [RankEnv.irecvAt]
      refine ⟨?_, fun m e he => ?_, fun m e he hn => ?_, fun _ => ?_⟩
      · rw [hinc, hq, if_pos rfl, if_pos (by rfl), List.length_append, List.length_singleton]
        exact h1
      · rw [hinc] at he
        rcases getElem?_concat_cases he with he | ⟨_, rfl⟩
        · exact h2 m e he
        · exact ⟨rfl, by rw [h.buffs_eq]⟩
      · rw [hq, if_pos rfl]
        rw [hinc] at he
        rcases getElem?_concat_cases he with he | ⟨hm, _⟩
        · rw [(h3 m e he hn).2] at hs
          cases hs
        · rw [hm]
          exact ⟨h1, rfl⟩
      · simpa [RankEnv.irecvAt] using h1
    · have hch : ¬ (peer' = peer ∧ tag' = tag) := by
        rintro ⟨rfl, rfl⟩
        exact hyy (hN.recv_unique hy' hy)
      refine (h.recv hy').congr ?_ rfl ?_ ?_ ?_
      · rw [RankEnv.irecvAt, RankEnv.setReq_inc, RankEnv.setInc_inc_of_ne _ _ _ _ hch]
      · simp [RankEnv.irecvAt, hyy]
      · rw [hq, if_neg hyy]
      · rw [hq, if_neg hyy]
  no_send hno := h.no_send hno
  no_recv {peer' tag'} hno := by
    have hch : ¬ (peer' = peer ∧ tag' = tag) := by
      rintro ⟨rfl, rfl⟩
      exact hno y b hy
    rw [RankEnv.irecvAt, RankEnv.setReq_inc, RankEnv.setInc_inc_of_ne _ _ _ _ hch]
    exact h.no_recv hno
  flight v hv := by
    by_cases hvy : v = y
    · rw [hvy, hy.2]
      rfl
    · rw [hq, if_neg hvy] at hv
      exact h.flight v hv

/-- An operation that is not a request is posted, and is completed at once. -/
theorem posted (h : N.ChanOk i q E) {v : Nat} (hb : (N.body i v).isRequest = false)
    (hq : ∀ w, q' w = if w = v then .completing else q w) : N.ChanOk i q' E where
  buffs_eq := h.buffs_eq
  send {x peer tag b} hx := by
    have hxv : x ≠ v := by
      rintro rfl
      rw [hx.2] at hb
      cases hb
    exact (h.send hx).congr rfl rfl rfl (by rw [hq, if_neg hxv]) (by rw [hq, if_neg hxv])
  recv {y peer tag b} hy := by
    have hyv : y ≠ v := by
      rintro rfl
      rw [hy.2] at hb
      cases hb
    exact (h.recv hy).congr rfl rfl rfl (by rw [hq, if_neg hyv]) (by rw [hq, if_neg hyv])
  no_send hno := h.no_send hno
  no_recv hno := h.no_recv hno
  flight w hw := by
    by_cases hwv : w = v
    · rw [hq, if_pos hwv] at hw
      cases hw
    · rw [hq, if_neg hwv] at hw
      exact h.flight w hw

/-- A request completes whose buffer has been read, or that has been delivered. -/
theorem finish (h : N.ChanOk i q E) {v : Nat} (hin : q v = .inflight)
    (hread : ∀ (peer tag b : Nat) (e : SendReq α), N.Sends i v peer tag b →
      (E.out peer tag)[E.req v]? = some e → e.payload ≠ none)
    (hdel : ∀ (peer tag b : Nat) (e : RecvReq), N.Receives i v peer tag b →
      (E.inc peer tag)[E.req v]? = some e → e.delivered = true)
    (hq : ∀ w, q' w = if w = v then .completing else q w) : N.ChanOk i q' E where
  buffs_eq := h.buffs_eq
  send {x peer tag b} hx := by
    by_cases hxv : x = v
    · subst hxv
      obtain ⟨h1, h2, h3, h4⟩ := h.send hx
      refine ⟨?_, h2, fun m e he hn => ?_, fun hc => ?_⟩
      · rw [hin] at h1
        rw [hq, if_pos rfl]
        exact h1
      · have hm : m = E.req x := by
          have := (h3 m e he hn).1
          have := h4 hin
          omega
        exact absurd hn (hread peer tag b e hx (hm ▸ he))
      · rw [hq, if_pos rfl] at hc
        cases hc
    · exact (h.send hx).congr rfl rfl rfl (by rw [hq, if_neg hxv]) (by rw [hq, if_neg hxv])
  recv {y peer tag b} hy := by
    by_cases hyv : y = v
    · subst hyv
      obtain ⟨h1, h2, h3, h4⟩ := h.recv hy
      refine ⟨?_, h2, fun m e he hn => ?_, fun hc => ?_⟩
      · rw [hin] at h1
        rw [hq, if_pos rfl]
        exact h1
      · have hm : m = E.req y := by
          have := (h3 m e he hn).1
          have := h4 hin
          omega
        have := hdel peer tag b e hy (hm ▸ he)
        rw [hn] at this
        cases this
      · rw [hq, if_pos rfl] at hc
        cases hc
    · exact (h.recv hy).congr rfl rfl rfl (by rw [hq, if_neg hyv]) (by rw [hq, if_neg hyv])
  no_send hno := h.no_send hno
  no_recv hno := h.no_recv hno
  flight w hw := by
    by_cases hwv : w = v
    · rw [hq, if_pos hwv] at hw
      cases hw
    · rw [hq, if_neg hwv] at hw
      exact h.flight w hw

/-- The send of a channel in which there is a request. -/
theorem exists_send (h : N.ChanOk i q E) {e : SendReq α}
    (he : (E.out peer tag)[k]? = some e) : ∃ x b, N.Sends i x peer tag b := by
  by_contra hno
  simp only [not_exists] at hno
  rw [h.no_send hno] at he
  cases he

theorem exists_recv (h : N.ChanOk i q E) {e : RecvReq}
    (he : (E.inc peer tag)[k]? = some e) : ∃ y b, N.Receives i y peer tag b := by
  by_contra hno
  simp only [not_exists] at hno
  rw [h.no_recv hno] at he
  cases he

/-- The network reads a buffer. -/
theorem readSend (h : N.ChanOk i q E) (peer tag k : Nat) :
    N.ChanOk i q (E.readSend peer tag k) := by
  rcases E.readSend_cases peer tag k with heq | ⟨e, he, hn, heq⟩
  · rw [heq]
    exact h
  · rw [heq]
    obtain ⟨x, b, hx⟩ := h.exists_send he
    refine ⟨h.buffs_eq, fun {x' peer' tag' b'} hx' => ?_, fun hy => ?_, fun {peer' tag'} hno => ?_,
      h.no_recv, h.flight⟩
    · by_cases hch : peer' = peer ∧ tag' = tag
      · obtain ⟨rfl, rfl⟩ := hch
        obtain ⟨h1, h2, h3, h4⟩ := h.send hx'
        have hout : ∀ l, (E.setOut peer' tag' l).out peer' tag' = l := by
          intro l
          simp
        refine ⟨?_, fun m e' he' => ?_, fun m e' he' hn' => ?_, h4⟩
        · rw [hout, List.length_set]
          exact h1
        · rw [hout] at he'
          rcases getElem?_set_cases he' with ⟨he', _⟩ | ⟨_, rfl⟩
          · exact h2 m e' he'
          · exact h2 k e he
        · rw [hout] at he'
          rcases getElem?_set_cases he' with ⟨he', _⟩ | ⟨_, rfl⟩
          · exact h3 m e' he' hn'
          · cases hn'
      · exact (h.send hx').congr (RankEnv.setOut_out_of_ne _ _ _ _ hch) rfl rfl rfl Iff.rfl
    · exact (h.recv hy).congr rfl rfl rfl rfl Iff.rfl
    · have hch : ¬ (peer' = peer ∧ tag' = tag) := by
        rintro ⟨rfl, rfl⟩
        exact hno x b hx
      rw [RankEnv.setOut_out_of_ne _ _ _ _ hch]
      exact h.no_send hno

/-- The network delivers a message. -/
theorem deliver (h : N.ChanOk i q E) (peer tag k : Nat)
    (sent : Option (SendReq α)) : N.ChanOk i q (E.deliver peer tag k sent) := by
  rcases E.deliver_cases peer tag k sent with heq | ⟨r, e, payload, hr, hd, _, _, heq⟩
  · rw [heq]
    exact h
  · rw [heq]
    obtain ⟨y, b, hy⟩ := h.exists_recv hr
    refine ⟨h.buffs_eq, fun hx => ?_, fun {y' peer' tag' b'} hy' => ?_, h.no_send,
      fun {peer' tag'} hno => ?_, h.flight⟩
    · exact (h.send hx).congr rfl rfl rfl rfl Iff.rfl
    · by_cases hch : peer' = peer ∧ tag' = tag
      · obtain ⟨rfl, rfl⟩ := hch
        obtain ⟨h1, h2, h3, h4⟩ := h.recv hy'
        have hinc : ∀ (E' : RankEnv α) l, (E'.setInc peer' tag' l).inc peer' tag' = l := by
          intro E' l
          simp
        refine ⟨?_, fun m e' he' => ?_, fun m e' he' hn' => ?_, h4⟩
        · rw [hinc, List.length_set]
          exact h1
        · rw [hinc] at he'
          rcases getElem?_set_cases he' with ⟨he', _⟩ | ⟨_, rfl⟩
          · exact h2 m e' he'
          · exact h2 k r hr
        · rw [hinc] at he'
          rcases getElem?_set_cases he' with ⟨he', _⟩ | ⟨_, rfl⟩
          · exact h3 m e' he' hn'
          · cases hn'
      · exact (h.recv hy').congr (RankEnv.setInc_inc_of_ne _ _ _ _ hch) rfl rfl rfl Iff.rfl
    · have hch : ¬ (peer' = peer ∧ tag' = tag) := by
        rintro ⟨rfl, rfl⟩
        exact hno y b hy
      rw [RankEnv.setInc_inc_of_ne _ _ _ _ hch]
      exact h.no_recv hno

end ChanOk

end Net

end Fflib
