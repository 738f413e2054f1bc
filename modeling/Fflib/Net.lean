import Fflib.Cascade
import Fflib.Library.Footprints
import Fflib.Mpi

/-!
# Processes that exchange messages

Each of `n` processes builds a schedule of its own with the calls of `ff.h` and then
repeats "run its own code; `ffschedule_post`; `ffschedule_wait`" at most `K` times, as the
programs under `test/` do.  Nothing is said of the schedules but that they are built; what
`ffallreduce` builds is one case.

**Memory.**  A buffer is a count and a pointer.  `ptr` gives for every buffer the memory
that it points to: two buffers created on one address share it.  Memory to which different
addresses are given does not overlap.

**What is asked of a program.**

* `Paired`: a process has at most one send and one receive for a partner and a tag, and
  the two ends of every channel are there.
* `Acyclic`: the operations do not wait for each other in a circle, over all processes.
* `RaceFree`: of two operations of a process one of which writes what the other reads or
  writes, one comes before the other in its schedule.

**Tasks.**  What an operation does to memory and messages, and what the code of a process
between two rounds does, is a task (`Task`); `Before` is the order in which the schedules
put them.
-/

namespace Fflib

open Library

universe u

variable {α : Type u}

/-! ### Handlers over memory -/

namespace RankEnv

/-- `MPI_Isend` of the memory behind a buffer. -/
def isendAt (ptr : Nat → Nat) (x peer tag buffer : Nat) (E : RankEnv α) : RankEnv α :=
  (E.setOut peer tag
    (E.out peer tag ++ [⟨E.round, ptr buffer, (E.buffs buffer).count, none⟩])).setReq x
      (E.out peer tag).length

/-- `MPI_Irecv` into the memory behind a buffer. -/
def irecvAt (ptr : Nat → Nat) (x peer tag buffer : Nat) (E : RankEnv α) : RankEnv α :=
  (E.setInc peer tag
    (E.inc peer tag ++ [⟨E.round, ptr buffer, (E.buffs buffer).count, false⟩])).setReq x
      (E.inc peer tag).length

/-- The number of elements that `ffop_gcomp_post` computes. -/
def gcompCount (buffs : Nat → Ffbuffer) (buffer1 buffer2 buffer3 : Nat) : Nat :=
  min (min (buffs buffer1).count
    (if buffer2 ≠ ffbuffNone then (buffs buffer2).count else (buffs buffer1).count))
      (buffs buffer3).count

/-- `ffop_gcomp_post` on the memory behind the buffers. -/
def gcompAt (ops : Int → α → α → α) (ptr : Nat → Nat) (buffer1 buffer2 buffer3 : Nat)
    (operator : Int) (E : RankEnv α) : RankEnv α :=
  E.setMem (ptr buffer3) fun x =>
    if x < gcompCount E.buffs buffer1 buffer2 buffer3 then
      opFun ops operator (E.mem (ptr buffer1) x) (E.mem (ptr buffer2) x)
    else E.mem (ptr buffer3) x

end RankEnv

/-- The handlers of rank `i`, whose operators succeed as those of `mpiImpl` do. -/
def netImpl (ops : Int → α → α → α) (ptr : Nat → Nat) (sync : Bool) (i : Nat) :
    Impl (Env α) where
  post x o env :=
    match o.body with
    | .send peer tag buffer =>
        (env.modify i (RankEnv.isendAt ptr x peer tag buffer), ffSuccess)
    | .recv peer tag buffer =>
        (env.modify i (RankEnv.irecvAt ptr x peer tag buffer), ffSuccess)
    | .comp buffer1 buffer2 buffer3 operator =>
        (env.modify i (RankEnv.gcompAt ops ptr buffer1 buffer2 buffer3 operator), ffCompleted)
    | .nop => (env, ffCompleted)
  test := (mpiImpl ops sync none i).test
  postCallback env := env

/-- Without pointers that are the same these are the handlers of `mpiImpl`. -/
theorem netImpl_id (ops : Int → α → α → α) (sync : Bool) (i : Nat) :
    netImpl ops id sync i = mpiImpl ops sync none i := rfl

theorem netImpl_succeeds (ops : Int → α → α → α) (ptr : Nat → Nat) (sync : Bool) (i : Nat) :
    (netImpl ops ptr sync i).Succeeds := by
  intro x o env
  cases h : o.body with
  | send peer tag buffer => exact Or.inl (by simp [netImpl, h])
  | recv peer tag buffer => exact Or.inl (by simp [netImpl, h])
  | comp b1 b2 b3 op => exact Or.inr (by simp [netImpl, h])
  | nop => exact Or.inr (by simp [netImpl, h])

/-- The handlers leave the rounds. -/
theorem implPost_netImpl_round (ops : Int → α → α → α) (ptr : Nat → Nat) (sync : Bool)
    (i x : Nat) (o : Ffop) (env : Env α) (j : Nat) :
    ((implPost (netImpl ops ptr sync i) x o env).1 j).round = (env j).round := by
  cases h : o.body with
  | nop => rw [implPost_nop h]
  | send peer tag b =>
      simp only [implPost, netImpl, h]
      exact Env.modify_congr RankEnv.round rfl j
  | recv peer tag b =>
      simp only [implPost, netImpl, h]
      exact Env.modify_congr RankEnv.round rfl j
  | comp b1 b2 b3 operator =>
      simp only [implPost, netImpl, h]
      exact Env.modify_congr RankEnv.round rfl j

/-! ### The processes and their steps -/

/-- The processes of a communicator; `calls i` have built the schedule of rank `i` from
`lib₀ i`, and `user i m` is what its own code does to its memory before its round `m`. -/
structure Net (α : Type u) (n : Nat) where
  cap : Nat
  ops : Int → α → α → α
  lib₀ : Nat → Lib
  calls : Nat → List BuildCall
  sched : Nat → FfSchedule
  lib : Nat → Lib
  ptr : Nat → Nat → Nat
  mem₀ : Nat → Nat → Nat → α
  user : Nat → Nat → (Nat → Nat → α) → Nat → Nat → α
  built : ∀ i : Fin n, ScheduleBuilt cap (lib₀ i) (calls i) (sched i) (lib i)
  callback : ∀ i : Fin n, (sched i).postCallback = none

/-- The state of all processes; `ready i` says that the code before the next round of rank
`i` has run. -/
structure NetState (α : Type u) (n : Nat) where
  env : Env α
  procs : Fin n → Proc
  ready : Fin n → Bool

inductive NetAct (n : Nat) where
  | user (i : Fin n)
  | proc (i : Fin n) (act : ProcAct)
  | read (i j tag k : Nat)
  | deliver (i j tag k : Nat)

/-- The step is one of a process, not of the network. -/
def NetAct.isLocal {n : Nat} : NetAct n → Bool
  | .user _ => true
  | .proc _ _ => true
  | _ => false

namespace Net

variable {n : Nat} (N : Net α n)

/-- The graph of the schedule of rank `i`. -/
def graph (i : Fin n) : DepGraph Nat := (N.built i).graph

/-- What operation `v` of rank `i` does. -/
def body (i v : Nat) : FfopBody := ((N.lib i).ops v).body

def impl (sync : Bool) (i : Nat) : Impl (Env α) := netImpl N.ops (N.ptr i) sync i

/-- The code of rank `i` before the round that follows. -/
def runUser (i : Nat) (E : RankEnv α) : RankEnv α :=
  { E with mem := N.user i E.round E.mem }

/-- All processes after they have built their schedules. -/
def initial : NetState α n where
  env i :=
    { mem := N.mem₀ i
      buffs := (N.lib i).buffs
      stateCount := 0
      out := fun _ _ => []
      inc := fun _ _ => []
      req := fun _ => 0
      round := 0 }
  procs i := Proc.init (N.lib i).ops
  ready _ := false

end Net

/-- A rank enters its next round. -/
def RankEnv.nextRound (E : RankEnv α) : RankEnv α := { E with round := E.round + 1 }

/-- One step: the ranks run at most `K` rounds. -/
def netStep {n : Nat} (N : Net α n) (sync : Bool) (K : Nat) (w : NetState α n) :
    NetAct n → Option (NetState α n)
  | .user i =>
      if (w.procs i).running = false ∧ (w.procs i).user = [] ∧ w.ready i = false ∧
          (w.env i).round < K then
        some { w with
          env := w.env.modify i (N.runUser i)
          ready := Function.update w.ready i true }
      else none
  | .proc i .post =>
      if w.ready i = true then
        (ffschedulePost (N.impl sync i) (N.sched i) (w.env.modify i RankEnv.nextRound)
          (w.procs i)).map fun r =>
            { env := r.1
              procs := Function.update w.procs i r.2
              ready := Function.update w.ready i false }
      else none
  | .proc i act =>
      (procStep (N.impl sync i) (N.sched i) w.env (w.procs i) act).map fun r =>
        { w with env := r.1, procs := Function.update w.procs i r.2 }
  | .read i j tag k => some { w with env := readSend i j tag k w.env }
  | .deliver i j tag k => some { w with env := deliver i j tag k w.env }

/-- All ranks have returned from their last round. -/
def Net.Finished {n : Nat} (K : Nat) (w : NetState α n) : Prop :=
  ∀ i : Fin n, (w.env i).round = K ∧ (w.procs i).running = false

/-! ### Channels -/

namespace Net

variable {n : Nat} (N : Net α n)

/-- Operation `x` of rank `i` sends `buffer` to `peer`. -/
def Sends (i : Fin n) (x peer tag buffer : Nat) : Prop :=
  x ∈ (N.graph i).verts ∧ N.body i x = .send peer tag buffer

/-- Operation `y` of rank `j` receives into `buffer` from `peer`. -/
def Receives (j : Fin n) (y peer tag buffer : Nat) : Prop :=
  y ∈ (N.graph j).verts ∧ N.body j y = .recv peer tag buffer

/-- The send `x` of rank `i` and the receive `y` of rank `j` are the two ends of a
channel. -/
def Matches (i : Fin n) (x : Nat) (j : Fin n) (y : Nat) : Prop :=
  ∃ tag b c, N.Sends i x j tag b ∧ N.Receives j y i tag c

/-- One send and one receive for a channel. -/
structure Channels : Prop where
  send_unique : ∀ {i x x' peer tag b b'}, N.Sends i x peer tag b →
    N.Sends i x' peer tag b' → x = x'
  recv_unique : ∀ {j y y' peer tag c c'}, N.Receives j y peer tag c →
    N.Receives j y' peer tag c' → y = y'

/-- Both ends of every channel are there. -/
structure Paired : Prop extends N.Channels where
  send_matched : ∀ {i x peer tag b}, N.Sends i x peer tag b →
    ∃ (j : Fin n) (y c : Nat), peer = j ∧ N.Receives j y i tag c
  recv_matched : ∀ {j y peer tag c}, N.Receives j y peer tag c →
    ∃ (i : Fin n) (x b : Nat), peer = i ∧ N.Sends i x j tag b

/-- `u` has to complete before `v` can: it comes before `v` in its schedule, or before the
operation at the other end of `v`, where a send waits for its receive if `sync` is set. -/
inductive Waits (sync : Bool) : Fin n × Nat → Fin n × Nat → Prop
  | pred {i : Fin n} {u v : Nat} (h : (N.graph i).Pred u v) : Waits sync (i, u) (i, v)
  | recv {i j : Fin n} {u x y : Nat} (h : (N.graph i).Pred u x) (hm : N.Matches i x j y) :
      Waits sync (i, u) (j, y)
  | send {i j : Fin n} {u x y : Nat} (h : (N.graph j).Pred u y) (hm : N.Matches i x j y)
      (hs : sync = true) : Waits sync (j, u) (i, x)

/-- No operations wait for each other in a circle. -/
def Acyclic (sync : Bool) : Prop := ∀ u, ¬ Relation.TransGen (N.Waits sync) u u

/-- The memory that an operation of rank `i` reads and writes. -/
def bodyReads (i : Nat) : FfopBody → Set Nat
  | .send _ _ b => {N.ptr i b}
  | .recv _ _ b => {N.ptr i b}
  | .comp b1 b2 b3 _ => {N.ptr i b1, N.ptr i b2, N.ptr i b3}
  | .nop => ∅

def bodyWrites (i : Nat) : FfopBody → Set Nat
  | .recv _ _ b => {N.ptr i b}
  | .comp _ _ b3 _ => {N.ptr i b3}
  | _ => ∅

/-- Operations of a rank that use the same memory, one of them writing it, are ordered. -/
def RaceFree : Prop :=
  ∀ (i : Fin n) u v p, u ∈ (N.graph i).verts → v ∈ (N.graph i).verts → u ≠ v →
    p ∈ N.bodyWrites i (N.body i u) →
    p ∈ N.bodyReads i (N.body i v) ∨ p ∈ N.bodyWrites i (N.body i v) →
    Relation.TransGen (N.graph i).Pred u v ∨ Relation.TransGen (N.graph i).Pred v u

end Net

/-! ### Tasks -/

/-- What happens to memory and messages: the code of rank `i` before its round `m`, and
operation `v` in this round. -/
inductive Task (n : Nat) where
  | user (i : Fin n) (m : Nat)
  | op (i : Fin n) (m v : Nat)
deriving DecidableEq

namespace Task

/-- The rank of a task, and its round from zero. -/
def rank {n : Nat} : Task n → Fin n
  | .user i _ => i
  | .op i _ _ => i

def round {n : Nat} : Task n → Nat
  | .user _ m => m
  | .op _ m _ => m

end Task

/-- The memory of a rank, and the `k`-th message from one rank to another with a tag. -/
inductive Loc where
  | memory (i p : Nat)
  | message (source dest tag k : Nat)
deriving DecidableEq

/-- A message has a count and contents once its buffer has been read. -/
@[reducible] def Loc.Val (α : Type u) : Loc → Type u
  | .memory _ _ => Nat → α
  | .message _ _ _ _ => Option (Nat × (Nat → α))

/-- All memories and messages. -/
abbrev Store (α : Type u) : Type u := (l : Loc) → l.Val α

/-- What has been read of a send. -/
def SendReq.sent (e : SendReq α) : Option (Nat × (Nat → α)) := e.payload.map (e.count, ·)

/-- The `k`-th message to a partner, once its buffer has been read. -/
def RankEnv.sentAt (E : RankEnv α) (peer tag k : Nat) : Option (Nat × (Nat → α)) :=
  (E.out peer tag)[k]?.bind SendReq.sent

/-- The `k`-th message from a partner has been delivered. -/
def RankEnv.ReceivedAt (E : RankEnv α) (peer tag k : Nat) : Prop :=
  ∃ e, (E.inc peer tag)[k]? = some e ∧ e.delivered = true

/-- What is in a buffer of `count` elements after it has received a message. -/
def receiveInto (count : Nat) (message : Option (Nat × (Nat → α))) (old : Nat → α) (x : Nat) :
    α :=
  match message with
  | some (sent, payload) => if x < sent ∧ x < count then payload x else old x
  | none => old x

/-- The store of a state. -/
def Env.store (env : Env α) : Store α
  | .memory i p => (env i).mem p
  | .message i j tag k => (env i).sentAt j tag k

namespace Net

variable {n : Nat} (N : Net α n)

/-- What a task does. -/
def execTask : Task n → Store α → Store α
  | .user i m, σ => fun
      | .memory j p => if j = i then N.user i m (fun c => σ (.memory i c)) p else σ (.memory j p)
      | .message a b tag k => σ (.message a b tag k)
  | .op i m v, σ =>
      match N.body i v with
      | .nop => σ
      | .comp b1 b2 b3 operator =>
          Function.update σ (.memory i (N.ptr i b3)) fun x =>
            if x < RankEnv.gcompCount (N.lib i).buffs b1 b2 b3 then
              opFun N.ops operator (σ (.memory i (N.ptr i b1)) x) (σ (.memory i (N.ptr i b2)) x)
            else σ (.memory i (N.ptr i b3)) x
      | .send peer tag b =>
          Function.update σ (.message i peer tag m)
            (some (((N.lib i).buffs b).count, σ (.memory i (N.ptr i b))))
      | .recv peer tag b =>
          Function.update σ (.memory i (N.ptr i b))
            (receiveInto ((N.lib i).buffs b).count (σ (.message peer i tag m))
              (σ (.memory i (N.ptr i b))))

/-- The locations that a task reads and writes. -/
def taskReads : Task n → Set Loc
  | .user i _ => {l | ∃ p, l = .memory i p}
  | .op i m v => {l | (∃ p, p ∈ N.bodyReads i (N.body i v) ∧ l = .memory i p) ∨
      ∃ peer tag b, N.body i v = .recv peer tag b ∧ l = .message peer i tag m}

def taskWrites : Task n → Set Loc
  | .user i _ => {l | ∃ p, l = .memory i p}
  | .op i m v => {l | (∃ p, p ∈ N.bodyWrites i (N.body i v) ∧ l = .memory i p) ∨
      ∃ peer tag b, N.body i v = .send peer tag b ∧ l = .message i peer tag m}

/-- The order of the tasks: by rounds, by the schedule of a rank within a round, and from a
send to its receive. -/
inductive Before : Task n → Task n → Prop
  | user {i m m'} (h : m < m') : Before (.user i m) (.user i m')
  | enter {i m m' v} (h : m ≤ m') : Before (.user i m) (.op i m' v)
  | leave {i m m' v} (hv : v ∈ (N.graph i).verts) (h : m < m') :
      Before (.op i m v) (.user i m')
  | round {i m m' u v} (hu : u ∈ (N.graph i).verts) (h : m < m') :
      Before (.op i m u) (.op i m' v)
  | pred {i m u v} (h : Relation.TransGen (N.graph i).Pred u v) :
      Before (.op i m u) (.op i m v)
  | message {i x j y} (m) (h : N.Matches i x j y) : Before (.op i m x) (.op j m y)

/-- The task is one of the program. -/
def Known : Task n → Prop
  | .user _ _ => True
  | .op i _ v => v ∈ (N.graph i).verts

end Net

end Fflib
