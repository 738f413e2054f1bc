import Fflib.Engine

/-!
# Point-to-point messages and computations

The post handlers behind `ff.impl.ops` for the MPI binding
(`ffop_mpi_send_post`, `ffop_mpi_recv_post`, `ffop_gcomp_post`), the check that
`ffschedule_post` calls (`ffallreduce_post_check`), and the network they rely on.

**MPI.**  What the code relies on is the non-overtaking rule: the `k`-th
`MPI_Isend` from one rank to another with some tag matches the `k`-th
`MPI_Irecv` that the other rank posts for this source and tag.  A send reads
its buffer at some instant between its post and its completion (`readSend`), and
a receive writes its buffer at some instant between its post and its completion
(`deliver`).  Under the flag `sync` a send may complete only after its matching
receive has been posted; without it, at any time.

**Memory.**  The memory of a buffer is a function from indices to values; the
number of its elements is the count in its record.  Every request carries, for
the statements about rounds, the number of the round in which it was posted.
-/

namespace Fflib

universe u

variable {α : Type u}

/-- A posted `MPI_Isend`. -/
structure SendReq (α : Type u) where
  round : Nat
  buffer : Nat
  count : Nat
  payload : Option (Nat → α)

/-- A posted `MPI_Irecv`. -/
structure RecvReq where
  round : Nat
  buffer : Nat
  count : Nat
  delivered : Bool
deriving DecidableEq

/-- What one rank shares with the network: its memory, buffer records, the `count` of
its `allreduce_state_t`, the requests posted so far by partner and tag, the position of
the last request of every operation, and the number of its current round. -/
structure RankEnv (α : Type u) where
  mem : Nat → Nat → α
  buffs : Nat → Ffbuffer
  stateCount : Nat
  out : Nat → Nat → List (SendReq α)
  inc : Nat → Nat → List RecvReq
  req : Nat → Nat
  round : Nat

/-- The state of all ranks. -/
abbrev Env (α : Type u) := Nat → RankEnv α

namespace RankEnv

/-- The fields that the handlers and the network write. -/
def setMem (E : RankEnv α) (buffer : Nat) (m : Nat → α) : RankEnv α :=
  { E with mem := Function.update E.mem buffer m }

def setOut (E : RankEnv α) (peer tag : Nat) (reqs : List (SendReq α)) : RankEnv α :=
  { E with out := Function.update E.out peer (Function.update (E.out peer) tag reqs) }

def setInc (E : RankEnv α) (peer tag : Nat) (reqs : List RecvReq) : RankEnv α :=
  { E with inc := Function.update E.inc peer (Function.update (E.inc peer) tag reqs) }

def setReq (E : RankEnv α) (x k : Nat) : RankEnv α :=
  { E with req := Function.update E.req x k }

/-- `MPI_Isend` for operation `x`. -/
def isend (x peer tag buffer : Nat) (E : RankEnv α) : RankEnv α :=
  (E.setOut peer tag
    (E.out peer tag ++ [⟨E.round, buffer, (E.buffs buffer).count, none⟩])).setReq x
      (E.out peer tag).length

/-- `MPI_Irecv` for operation `x`. -/
def irecv (x peer tag buffer : Nat) (E : RankEnv α) : RankEnv α :=
  (E.setInc peer tag
    (E.inc peer tag ++ [⟨E.round, buffer, (E.buffs buffer).count, false⟩])).setReq x
      (E.inc peer tag).length

/-- The network reads the buffer of the `k`-th send, unless it has. -/
def readSend (peer tag k : Nat) (E : RankEnv α) : RankEnv α :=
  match (E.out peer tag)[k]? with
  | some ⟨round, buffer, count, none⟩ =>
      E.setOut peer tag
        ((E.out peer tag).set k ⟨round, buffer, count, some (E.mem buffer)⟩)
  | _ => E

/-- The payload of the matching send is written into the buffer of the `k`-th receive,
unless it has been. -/
def deliver (peer tag k : Nat) (sent : Option (SendReq α)) (E : RankEnv α) : RankEnv α :=
  match (E.inc peer tag)[k]?, sent with
  | some ⟨round, buffer, count, false⟩, some ⟨_, _, sentCount, some payload⟩ =>
      (E.setMem buffer (fun x =>
        if x < sentCount ∧ x < count then payload x else E.mem buffer x)).setInc peer tag
          ((E.inc peer tag).set k ⟨round, buffer, count, true⟩)
  | _, _ => E

end RankEnv

/-- The function of an operator: `FFIDENTITY` copies its first argument. -/
def opFun (ops : Int → α → α → α) (operator : Int) (a b : α) : α :=
  if operator = ffIdentity then a else ops operator a b

/-- `ffop_gcomp_post`: `size` elements, one after another. -/
def RankEnv.gcomp (ops : Int → α → α → α) (buffer1 buffer2 buffer3 : Nat) (operator : Int)
    (E : RankEnv α) : RankEnv α :=
  let buff1Count := (E.buffs buffer1).count
  let buff2Count := if buffer2 ≠ ffbuffNone then (E.buffs buffer2).count else buff1Count
  let buff3Count := (E.buffs buffer3).count
  let size := min (min buff1Count buff2Count) buff3Count
  E.setMem buffer3 (fun x =>
    if x < size then opFun ops operator (E.mem buffer1 x) (E.mem buffer2 x)
    else E.mem buffer3 x)

/-- `ffallreduce_post_check`: the temporary buffers grow with the receive buffer. -/
def RankEnv.postCheck (st : AllreduceState) (E : RankEnv α) : RankEnv α :=
  let sb := E.buffs st.sndbuff
  let rb := E.buffs st.rcvbuff
  let inPlace := st.sndbuff = ffbuffNone
  if (¬ inPlace ∧ sb.datatype ≠ rb.datatype) ∨ rb.datatype ≠ st.datatype then E
  else if ¬ inPlace ∧ sb.count ≠ rb.count then E
  else if rb.count > E.stateCount then
    { E with
      buffs := fun b => if b ∈ st.tmpbuffs.take st.tmpbuffsCount then rb else E.buffs b
      stateCount := rb.count }
  else E

/-- One rank changes. -/
def Env.modify (i : Nat) (f : RankEnv α → RankEnv α) (env : Env α) : Env α :=
  Function.update env i (f (env i))

/-- The network reads the buffer of the `k`-th send from `i` to `j`. -/
def readSend (i j tag k : Nat) : Env α → Env α :=
  Env.modify i (RankEnv.readSend j tag k)

/-- The `k`-th send from `j` to `i` is delivered to the `k`-th receive. -/
def deliver (i j tag k : Nat) (env : Env α) : Env α :=
  env.modify i (RankEnv.deliver j tag k ((env j).out i tag)[k]?)

/-- The handlers of rank `i`, whose operators succeed; what a computation answers when its
operator fails is in `Impl.answering`. -/
def mpiImpl (ops : Int → α → α → α) (sync : Bool) (st : Option AllreduceState) (i : Nat) :
    Impl (Env α) where
  post x o env :=
    match o.body with
    | .send peer tag buffer =>
        (env.modify i (RankEnv.isend x peer tag buffer), ffSuccess)
    | .recv peer tag buffer =>
        (env.modify i (RankEnv.irecv x peer tag buffer), ffSuccess)
    | .comp buffer1 buffer2 buffer3 operator =>
        (env.modify i (RankEnv.gcomp ops buffer1 buffer2 buffer3 operator), ffCompleted)
    | .nop => (env, ffCompleted)
  test x o env :=
    match o.body with
    | .send peer tag _ =>
        let k := (env i).req x
        if sync = false ∨ k < ((env peer).inc i tag).length then
          some (readSend i peer tag k env)
        else none
    | .recv peer tag _ =>
        let k := (env i).req x
        if k < ((env peer).out i tag).length then
          some (deliver i peer tag k (readSend peer i tag k env))
        else none
    | _ => some env
  postCallback env :=
    match st with
    | some st => env.modify i (RankEnv.postCheck st)
    | none => env

theorem mpiImpl_succeeds (ops : Int → α → α → α) (sync : Bool) (st : Option AllreduceState)
    (i : Nat) : (mpiImpl ops sync st i).Succeeds := by
  intro x o env
  cases h : o.body with
  | send peer tag buffer => exact Or.inl (by simp [mpiImpl, h])
  | recv peer tag buffer => exact Or.inl (by simp [mpiImpl, h])
  | comp b1 b2 b3 op => exact Or.inr (by simp [mpiImpl, h])
  | nop => exact Or.inr (by simp [mpiImpl, h])

/-! ### Small facts -/

/-- An entry of a queue to which one request has been appended. -/
theorem getElem?_concat_cases {β : Type u} {l : List β} {x e : β} {m : Nat}
    (h : (l ++ [x])[m]? = some e) : l[m]? = some e ∨ m = l.length ∧ e = x := by
  rw [List.getElem?_append] at h
  split at h
  · exact Or.inl h
  · obtain ⟨hm, he⟩ := List.getElem?_eq_some_iff.mp h
    simp only [List.length_singleton] at hm
    exact Or.inr ⟨by omega, by simpa using he.symm⟩

/-- An entry of a queue in which one request has been rewritten. -/
theorem getElem?_set_cases {β : Type u} {l : List β} {x e : β} {k m : Nat}
    (h : (l.set k x)[m]? = some e) : l[m]? = some e ∧ m ≠ k ∨ m = k ∧ e = x := by
  rw [List.getElem?_set] at h
  split at h
  · next hkm =>
      split at h
      · exact Or.inr ⟨hkm.symm, (Option.some.inj h).symm⟩
      · cases h
  · next hkm => exact Or.inl ⟨h, Ne.symm hkm⟩

@[simp] theorem Env.modify_self (i : Nat) (f : RankEnv α → RankEnv α) (env : Env α) :
    env.modify i f i = f (env i) := by
  simp [Env.modify]

theorem Env.modify_of_ne {i j : Nat} (h : j ≠ i) (f : RankEnv α → RankEnv α)
    (env : Env α) : env.modify i f j = env j := by
  simp [Env.modify, h]

namespace RankEnv

variable (E : RankEnv α)

@[simp] theorem setMem_mem (b : Nat) (m : Nat → α) (c : Nat) :
    (E.setMem b m).mem c = if c = b then m else E.mem c := by
  simp [setMem, Function.update_apply]
@[simp] theorem setMem_buffs (b : Nat) (m : Nat → α) : (E.setMem b m).buffs = E.buffs := rfl
@[simp] theorem setMem_stateCount (b : Nat) (m : Nat → α) :
    (E.setMem b m).stateCount = E.stateCount := rfl
@[simp] theorem setMem_out (b : Nat) (m : Nat → α) : (E.setMem b m).out = E.out := rfl
@[simp] theorem setMem_inc (b : Nat) (m : Nat → α) : (E.setMem b m).inc = E.inc := rfl
@[simp] theorem setMem_req (b : Nat) (m : Nat → α) : (E.setMem b m).req = E.req := rfl
@[simp] theorem setMem_round (b : Nat) (m : Nat → α) : (E.setMem b m).round = E.round := rfl

@[simp] theorem setOut_mem (p t : Nat) (r : List (SendReq α)) :
    (E.setOut p t r).mem = E.mem := rfl
@[simp] theorem setOut_buffs (p t : Nat) (r : List (SendReq α)) :
    (E.setOut p t r).buffs = E.buffs := rfl
@[simp] theorem setOut_stateCount (p t : Nat) (r : List (SendReq α)) :
    (E.setOut p t r).stateCount = E.stateCount := rfl
@[simp] theorem setOut_out (p t : Nat) (r : List (SendReq α)) (p' : Nat) :
    (E.setOut p t r).out p' t = if p' = p then r else E.out p' t := by
  by_cases h : p' = p
  · subst h; simp [setOut]
  · simp [setOut, h]
theorem setOut_out_of_ne (p t : Nat) (r : List (SendReq α)) {p' t' : Nat}
    (h : ¬ (p' = p ∧ t' = t)) : (E.setOut p t r).out p' t' = E.out p' t' := by
  by_cases hp : p' = p
  · have ht : t' ≠ t := fun ht => h ⟨hp, ht⟩
    simp [setOut, hp, ht]
  · simp [setOut, hp]
@[simp] theorem setOut_inc (p t : Nat) (r : List (SendReq α)) :
    (E.setOut p t r).inc = E.inc := rfl
@[simp] theorem setOut_req (p t : Nat) (r : List (SendReq α)) :
    (E.setOut p t r).req = E.req := rfl
@[simp] theorem setOut_round (p t : Nat) (r : List (SendReq α)) :
    (E.setOut p t r).round = E.round := rfl

@[simp] theorem setInc_mem (p t : Nat) (r : List RecvReq) : (E.setInc p t r).mem = E.mem := rfl
@[simp] theorem setInc_buffs (p t : Nat) (r : List RecvReq) :
    (E.setInc p t r).buffs = E.buffs := rfl
@[simp] theorem setInc_stateCount (p t : Nat) (r : List RecvReq) :
    (E.setInc p t r).stateCount = E.stateCount := rfl
@[simp] theorem setInc_out (p t : Nat) (r : List RecvReq) : (E.setInc p t r).out = E.out := rfl
@[simp] theorem setInc_inc (p t : Nat) (r : List RecvReq) (p' : Nat) :
    (E.setInc p t r).inc p' t = if p' = p then r else E.inc p' t := by
  by_cases h : p' = p
  · subst h; simp [setInc]
  · simp [setInc, h]
theorem setInc_inc_of_ne (p t : Nat) (r : List RecvReq) {p' t' : Nat}
    (h : ¬ (p' = p ∧ t' = t)) : (E.setInc p t r).inc p' t' = E.inc p' t' := by
  by_cases hp : p' = p
  · have ht : t' ≠ t := fun ht => h ⟨hp, ht⟩
    simp [setInc, hp, ht]
  · simp [setInc, hp]
@[simp] theorem setInc_req (p t : Nat) (r : List RecvReq) : (E.setInc p t r).req = E.req := rfl
@[simp] theorem setInc_round (p t : Nat) (r : List RecvReq) :
    (E.setInc p t r).round = E.round := rfl

@[simp] theorem setReq_mem (x k : Nat) : (E.setReq x k).mem = E.mem := rfl
@[simp] theorem setReq_buffs (x k : Nat) : (E.setReq x k).buffs = E.buffs := rfl
@[simp] theorem setReq_stateCount (x k : Nat) : (E.setReq x k).stateCount = E.stateCount := rfl
@[simp] theorem setReq_out (x k : Nat) : (E.setReq x k).out = E.out := rfl
@[simp] theorem setReq_inc (x k : Nat) : (E.setReq x k).inc = E.inc := rfl
@[simp] theorem setReq_req (x k y : Nat) :
    (E.setReq x k).req y = if y = x then k else E.req y := by
  simp [setReq, Function.update_apply]
@[simp] theorem setReq_round (x k : Nat) : (E.setReq x k).round = E.round := rfl

section Network

variable (peer tag k : Nat) (sent : Option (SendReq α))

@[simp] theorem readSend_mem : (E.readSend peer tag k).mem = E.mem := by
  unfold readSend; split <;> rfl
@[simp] theorem readSend_buffs : (E.readSend peer tag k).buffs = E.buffs := by
  unfold readSend; split <;> rfl
@[simp] theorem readSend_stateCount :
    (E.readSend peer tag k).stateCount = E.stateCount := by
  unfold readSend; split <;> rfl
@[simp] theorem readSend_inc : (E.readSend peer tag k).inc = E.inc := by
  unfold readSend; split <;> rfl
@[simp] theorem readSend_req : (E.readSend peer tag k).req = E.req := by
  unfold readSend; split <;> rfl
@[simp] theorem readSend_round : (E.readSend peer tag k).round = E.round := by
  unfold readSend; split <;> rfl

theorem readSend_out_of_ne {p : Nat} (h : p ≠ peer) :
    (E.readSend peer tag k).out p tag = E.out p tag := by
  unfold readSend
  split
  · simp [h]
  · rfl

@[simp] theorem length_readSend_out (p : Nat) :
    ((E.readSend peer tag k).out p tag).length = (E.out p tag).length := by
  by_cases h : p = peer
  · subst h
    unfold readSend
    split <;> simp
  · rw [readSend_out_of_ne E peer tag k h]

/-- Afterwards the buffer has been read. -/
theorem readSend_read (h : k < (E.out peer tag).length) :
    ∃ e, ((E.readSend peer tag k).out peer tag)[k]? = some e ∧ e.payload ≠ none := by
  obtain ⟨⟨round, buffer, count, payload⟩, hk⟩ : ∃ e, (E.out peer tag)[k]? = some e :=
    ⟨_, List.getElem?_eq_getElem h⟩
  cases payload with
  | none =>
      refine ⟨⟨round, buffer, count, some (E.mem buffer)⟩, ?_, Option.some_ne_none _⟩
      simp only [readSend, hk, setOut_out, if_true]
      exact List.getElem?_set_self h
  | some v =>
      refine ⟨⟨round, buffer, count, some v⟩, ?_, Option.some_ne_none v⟩
      simp only [readSend, hk]

@[simp] theorem deliver_buffs : (E.deliver peer tag k sent).buffs = E.buffs := by
  unfold deliver; split <;> rfl
@[simp] theorem deliver_stateCount :
    (E.deliver peer tag k sent).stateCount = E.stateCount := by
  unfold deliver; split <;> rfl
@[simp] theorem deliver_out : (E.deliver peer tag k sent).out = E.out := by
  unfold deliver; split <;> rfl
@[simp] theorem deliver_req : (E.deliver peer tag k sent).req = E.req := by
  unfold deliver; split <;> rfl
@[simp] theorem deliver_round : (E.deliver peer tag k sent).round = E.round := by
  unfold deliver; split <;> rfl

theorem deliver_inc_of_ne {p : Nat} (h : p ≠ peer) :
    (E.deliver peer tag k sent).inc p tag = E.inc p tag := by
  unfold deliver
  split
  · simp [h]
  · rfl

@[simp] theorem length_deliver_inc (p : Nat) :
    ((E.deliver peer tag k sent).inc p tag).length = (E.inc p tag).length := by
  by_cases h : p = peer
  · subst h
    unfold deliver
    split <;> simp
  · rw [deliver_inc_of_ne E peer tag k sent h]

/-- Only the buffer of a receive that is waiting is written. -/
theorem deliver_mem_of_ne {c : Nat}
    (h : ∀ e, (E.inc peer tag)[k]? = some e → e.delivered = false → e.buffer ≠ c) :
    (E.deliver peer tag k sent).mem c = E.mem c := by
  unfold deliver
  split
  · next round buffer count _ _ _ _ hk =>
      have := h _ hk rfl
      simp [this.symm]
  · rfl

/-- Afterwards the message has arrived. -/
theorem deliver_delivered (h : k < (E.inc peer tag).length) {e : SendReq α}
    (hs : sent = some e) (he : e.payload ≠ none) :
    ∃ r, ((E.deliver peer tag k sent).inc peer tag)[k]? = some r ∧ r.delivered = true := by
  obtain ⟨⟨round, buffer, count, delivered⟩, hk⟩ : ∃ r, (E.inc peer tag)[k]? = some r :=
    ⟨_, List.getElem?_eq_getElem h⟩
  obtain ⟨_, _, _, payload⟩ := e
  obtain ⟨v, rfl⟩ := Option.ne_none_iff_exists'.mp he
  cases delivered with
  | false =>
      refine ⟨⟨round, buffer, count, true⟩, ?_, rfl⟩
      simp only [deliver, hk, hs, setInc_inc, if_true]
      exact List.getElem?_set_self h
  | true =>
      refine ⟨⟨round, buffer, count, true⟩, ?_, rfl⟩
      simp only [deliver, hk]

end Network

end RankEnv

/-- What a process does not change in its own rank stays the same in all ranks. -/
theorem Env.modify_congr {β : Sort*} {env : Env α} {f : RankEnv α → RankEnv α}
    (g : RankEnv α → β) {i : Nat} (h : g (f (env i)) = g (env i)) (j : Nat) :
    g (env.modify i f j) = g (env j) := by
  by_cases hj : j = i
  · rw [hj, Env.modify_self, h]
  · rw [Env.modify_of_ne hj]

/-! What the network changes in a rank. -/

theorem readSend_rank (i j tag k : Nat) (env : Env α) (l : Nat) :
    (readSend i j tag k env l).inc = (env l).inc ∧
      (readSend i j tag k env l).req = (env l).req ∧
      (readSend i j tag k env l).round = (env l).round := by
  by_cases hl : l = i
  · simp [hl, readSend]
  · simp [readSend, Env.modify_of_ne hl]

theorem deliver_rank (i j tag k : Nat) (env : Env α) (l : Nat) :
    (deliver i j tag k env l).req = (env l).req ∧
      (deliver i j tag k env l).round = (env l).round := by
  by_cases hl : l = i
  · simp [hl, deliver]
  · simp [deliver, Env.modify_of_ne hl]

section Post

variable (ops : Int → α → α → α) (sync : Bool) (st : Option AllreduceState) (i x : Nat)
  {o : Ffop} (env : Env α)

theorem implPost_send {peer tag buffer : Nat} (h : o.body = .send peer tag buffer) :
    implPost (mpiImpl ops sync st i) x o env =
      (env.modify i (RankEnv.isend x peer tag buffer), ffSuccess) := by
  simp only [implPost, mpiImpl, h]

theorem implPost_recv {peer tag buffer : Nat} (h : o.body = .recv peer tag buffer) :
    implPost (mpiImpl ops sync st i) x o env =
      (env.modify i (RankEnv.irecv x peer tag buffer), ffSuccess) := by
  simp only [implPost, mpiImpl, h]

theorem implPost_comp {buffer1 buffer2 buffer3 : Nat} {operator : Int}
    (h : o.body = .comp buffer1 buffer2 buffer3 operator) :
    implPost (mpiImpl ops sync st i) x o env =
      (env.modify i (RankEnv.gcomp ops buffer1 buffer2 buffer3 operator), ffCompleted) := by
  simp only [implPost, mpiImpl, h]

/-- A handler of rank `i` leaves the other ranks alone, and the round of rank `i`. -/
theorem implPost_frame :
    (∀ j, j ≠ i → (implPost (mpiImpl ops sync st i) x o env).1 j = env j) ∧
      ((implPost (mpiImpl ops sync st i) x o env).1 i).round = (env i).round := by
  cases h : o.body with
  | nop => rw [implPost_nop h]; exact ⟨fun _ _ => rfl, rfl⟩
  | send peer tag buffer =>
      rw [implPost_send _ _ _ _ _ _ h]
      exact ⟨fun j hj => Env.modify_of_ne hj _ _, by simp [RankEnv.isend]⟩
  | recv peer tag buffer =>
      rw [implPost_recv _ _ _ _ _ _ h]
      exact ⟨fun j hj => Env.modify_of_ne hj _ _, by simp [RankEnv.irecv]⟩
  | comp buffer1 buffer2 buffer3 operator =>
      rw [implPost_comp _ _ _ _ _ _ h]
      exact ⟨fun j hj => Env.modify_of_ne hj _ _, by simp [RankEnv.gcomp]⟩

/-- The progress call leaves the rounds. -/
theorem test_round {env' : Env α} (h : (mpiImpl ops sync st i).test x o env = some env')
    (j : Nat) : (env' j).round = (env j).round := by
  cases hb : o.body with
  | send peer tag buffer =>
      simp only [mpiImpl, hb] at h
      split at h
      · obtain rfl := Option.some.inj h
        exact (readSend_rank i peer tag _ env j).2.2
      · cases h
  | recv peer tag buffer =>
      simp only [mpiImpl, hb] at h
      split at h
      · obtain rfl := Option.some.inj h
        exact (deliver_rank i peer tag _ _ j).2.trans (readSend_rank peer i tag _ env j).2.2
      · cases h
  | comp b1 b2 b3 operator =>
      simp only [mpiImpl, hb] at h
      rw [Option.some.inj h]
  | nop =>
      simp only [mpiImpl, hb] at h
      rw [Option.some.inj h]

end Post

end Fflib
