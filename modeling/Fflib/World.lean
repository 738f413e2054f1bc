import Fflib.AllreduceBuild
import Fflib.Cascade
import Fflib.Mpi
import Fflib.Library.Exchange

/-!
# All ranks together

Every rank builds its schedule with `ffallreduce` and then repeats "set the inputs;
`ffschedule_post`; `ffschedule_wait`", as `test/allreduce.c` does, at most `K` times.
The ranks, their two threads and the network take steps in any order
(`worldStep`).

* `Ranks` are the arguments and inputs of all ranks.
* `Ranks.value` is what recursive doubling computes: the value a rank holds before
  the exchange over `mask = 2 ^ b`.
-/

namespace Fflib

open Library

universe u

variable {α : Type u}

/-- The processes of a communicator that call `ffallreduce` with equal counts `n`, one
tag and one operator; `input i m` is the input vector of rank `i` in its round `m`. -/
structure Ranks (α : Type u) where
  csize : Nat
  n : Nat
  tag : Nat
  operator : Int
  ops : Int → α → α → α
  input : Nat → Nat → Nat → α
  mem₀ : Nat → Nat → Nat → α
  args : Nat → AllreduceArgs
  lib₀ : Nat → Lib
  csize_pos : 0 < csize
  csize_eq : ∀ i, (args i).csize = csize
  rank_eq : ∀ i, (args i).rank = i
  tag_eq : ∀ i, (args i).tag = tag
  operator_eq : ∀ i, (args i).operator = operator
  nextBuffer_pos : ∀ i, 0 < (lib₀ i).nextBuffer
  count_eq : ∀ i, (args i).buffersProvided = false → (args i).count = n
  rcv_ok : ∀ i, (args i).buffersProvided = true →
    (args i).rcvbuff < (lib₀ i).nextBuffer ∧
      (lib₀ i).buffs (args i).rcvbuff = ⟨n, (args i).datatype⟩
  snd_ok : ∀ i, (args i).buffersProvided = true → ∀ b, (args i).sndbuff = some b →
    b ≠ ffbuffNone ∧ b < (lib₀ i).nextBuffer ∧ (lib₀ i).buffs b = ⟨n, (args i).datatype⟩

namespace Ranks

variable (J : Ranks α)

/-- The operator on values. -/
def op : α → α → α := opFun J.ops J.operator

/-- The value of rank `i` in its round `m` before the exchange over `mask = 2 ^ b`. -/
def value (m b i x : Nat) : α := exchange J.csize J.op (fun j => J.input j m x) b i

/-- Number of iterations of the round loop. -/
def maxr : Nat := Nat.clog 2 J.csize

/-- The `allreduce_state_t` of rank `i`. -/
def state (i : Nat) : AllreduceState := (ffallreduceSetup (J.args i) (J.lib₀ i)).1

/-- The handles of the receive, send and temporary buffers of rank `i`. -/
def rb (i : Nat) : Nat := (J.state i).rcvbuff
def sb (i : Nat) : Nat := (J.state i).sndbuff
def tmp (i k : Nat) : Nat := (J.lib₀ i).nextBuffer + k

/-- The buffer from which a round starts. -/
def src (i : Nat) : Nat := if (J.args i).inPlace then J.rb i else J.sb i

/-- The iterations in which rank `i` has a partner. -/
def bits (i : Nat) : List Nat := (J.args i).activeBits

/-- The schedule and the library state that rank `i` has built. -/
def build (cap i : Nat) : FfSchedule × Lib :=
  (ffallreduce cap (J.args i) (J.lib₀ i)).getD (ffscheduleCreate (J.lib₀ i))

/-- Every rank builds its schedule without leaving a `dependent` array. -/
structure Builds (cap : Nat) : Prop where
  cap_pos : 0 < cap
  isSome : ∀ i, i < J.csize → (ffallreduce cap (J.args i) (J.lib₀ i)).isSome = true

end Ranks

/-- The state of the whole system; `loaded i` says that rank `i` has set the inputs of
its next round. -/
structure World (α : Type u) where
  env : Env α
  procs : Nat → Proc
  loaded : Nat → Bool

inductive WorldAct (α : Type u) where
  | set (i : Nat) (scratch : Nat → α)
  | proc (i : Nat) (act : ProcAct)
  | read (i j k : Nat)
  | deliver (i j k : Nat)

/-- The user writes the inputs, and whatever it likes into a separate receive buffer. -/
def Ranks.setInputs (J : Ranks α) (i : Nat) (scratch : Nat → α) (E : RankEnv α) : RankEnv α :=
  (E.setMem (J.rb i) scratch).setMem (J.src i) (J.input i E.round)

/-- The handlers of rank `i`. -/
def Ranks.impl (J : Ranks α) (cap : Nat) (sync : Bool) (i : Nat) : Impl (Env α) :=
  mpiImpl J.ops sync (J.build cap i).1.state i

/-- All ranks after they have built their schedules. -/
def Ranks.initial (J : Ranks α) (cap : Nat) : World α where
  env i :=
    { mem := J.mem₀ i
      buffs := (J.build cap i).2.buffs
      stateCount := (J.state i).count
      out := fun _ _ => []
      inc := fun _ _ => []
      req := fun _ => 0
      round := 0 }
  procs i := Proc.init (J.build cap i).2.ops
  loaded _ := false

/-- A rank enters its next round. -/
def RankEnv.enterRound (E : RankEnv α) : RankEnv α := { E with round := E.round + 1 }

/-- One step of the system: the ranks run at most `K` rounds. -/
def worldStep (J : Ranks α) (cap : Nat) (sync : Bool) (K : Nat) (w : World α) :
    WorldAct α → Option (World α)
  | .set i scratch =>
      if i < J.csize ∧ (w.procs i).running = false ∧ (w.procs i).user = [] then
        some { w with
          env := w.env.modify i (J.setInputs i scratch)
          loaded := Function.update w.loaded i true }
      else none
  | .proc i .post =>
      if i < J.csize ∧ w.loaded i = true ∧ (w.env i).round < K then
        (ffschedulePost (J.impl cap sync i) (J.build cap i).1
          (w.env.modify i RankEnv.enterRound) (w.procs i)).map fun r =>
            { env := r.1
              procs := Function.update w.procs i r.2
              loaded := Function.update w.loaded i false }
      else none
  | .proc i act =>
      if i < J.csize then
        (procStep (J.impl cap sync i) (J.build cap i).1 w.env (w.procs i) act).map fun r =>
          { w with env := r.1, procs := Function.update w.procs i r.2 }
      else none
  | .read i j k => some { w with env := readSend i j J.tag k w.env }
  | .deliver i j k => some { w with env := deliver i j J.tag k w.env }

/-! ### Facts about the arguments -/

namespace Ranks

variable (J : Ranks α)

@[simp] theorem value_zero (m i x : Nat) : J.value m 0 i x = J.input i m x := rfl

theorem value_succ (m b i x : Nat) :
    J.value m (b + 1) i x =
      if i ^^^ 2 ^ b < J.csize then J.op (J.value m b (i ^^^ 2 ^ b) x) (J.value m b i x)
      else J.value m b i x := rfl

@[simp] theorem dst_eq (i b : Nat) : (J.args i).dst b = i ^^^ 2 ^ b := by
  rw [AllreduceArgs.dst, J.rank_eq]

@[simp] theorem args_maxr (i : Nat) : (J.args i).maxr = J.maxr := by
  rw [AllreduceArgs.maxr, J.csize_eq, maxr]

theorem bits_eq (i : Nat) :
    J.bits i = (List.range J.maxr).filter (fun b => i ^^^ 2 ^ b < J.csize) := by
  simp [bits, AllreduceArgs.activeBits, J.csize_eq]

theorem mem_bits {i b : Nat} : b ∈ J.bits i ↔ b < J.maxr ∧ i ^^^ 2 ^ b < J.csize := by
  simp [bits_eq]

/-- The construction succeeds on all ranks iff it does on rank `0`, which takes part in
every iteration. -/
theorem builds_iff {cap : Nat} : J.Builds cap ↔ 0 < cap ∧ J.csize ≤ 2 ^ (cap - 1) := by
  have hle : ∀ i, (J.args i).activeBits.length ≤ J.maxr := by
    intro i
    rw [← J.args_maxr i]
    exact length_activeBits_le _
  constructor
  · rintro ⟨hcap, hsome⟩
    refine ⟨hcap, ?_⟩
    have h0 := (ffallreduce_isSome_iff _ _ hcap).mp (hsome 0 J.csize_pos)
    rw [activeBits_of_rank_zero (J.rank_eq 0), List.length_range, J.args_maxr] at h0
    exact (Nat.clog_le_iff_le_pow (by omega)).mp (show J.maxr ≤ cap - 1 by omega)
  · rintro ⟨hcap, hsize⟩
    have hmaxr : J.maxr ≤ cap - 1 := (Nat.clog_le_iff_le_pow (by omega)).mpr hsize
    refine ⟨hcap, fun i _ => (ffallreduce_isSome_iff _ _ hcap).mpr ?_⟩
    have := hle i
    omega

/-- Arrays of `cap + 1` entries are enough for at most `2 ^ cap` ranks. -/
theorem builds_succ_iff {cap : Nat} : J.Builds (cap + 1) ↔ J.csize ≤ 2 ^ cap := by
  rw [builds_iff, Nat.add_sub_cancel]
  exact and_iff_right (Nat.succ_pos cap)

/-! ### The buffers of a rank -/

/-- The records of the buffers of rank `i`; `c` is the `count` of the temporary ones. -/
structure BuffInv (i : Nat) (buffs : Nat → Ffbuffer) (c : Nat) : Prop where
  rb_eq : buffs (J.rb i) = ⟨J.n, (J.args i).datatype⟩
  src_eq : buffs (J.src i) = ⟨J.n, (J.args i).datatype⟩
  tmp_count : ∀ k, k < J.maxr → (buffs (J.tmp i k)).count = c
  own_le : (J.args i).buffersProvided = false → J.n ≤ c

/-- Which handles are different, and what the state says of them. -/
structure Handles (i : Nat) : Prop where
  rb_ne : ∀ k, k < J.maxr → J.rb i ≠ J.tmp i k
  src_ne : ∀ k, k < J.maxr → J.src i ≠ J.tmp i k
  sb_eq : J.sb i = ffbuffNone ↔ (J.args i).inPlace = true
  datatype_eq : (J.state i).datatype = (J.args i).datatype
  tmpbuffs_eq : (J.state i).tmpbuffs = List.range' (J.lib₀ i).nextBuffer J.maxr
  tmpbuffsCount_eq : (J.state i).tmpbuffsCount = J.maxr
  callback_eq : (ffallreduceSetup (J.args i) (J.lib₀ i)).2.sched.postCallback.isSome =
    (J.args i).buffersProvided

/-- The library after the temporary buffers have been created. -/
def tmpLib (i : Nat) : Lib :=
  (tmpbuffsCreate (J.args i).count (J.args i).datatype (J.args i).maxr
    (ffscheduleCreate (J.lib₀ i)).2).2

/-- The state and the library after `allreduce_state_create`. -/
def stateLib (i : Nat) : AllreduceState × Lib :=
  allreduceStateCreate (J.args i) (List.range' (J.lib₀ i).nextBuffer J.maxr) (J.tmpLib i)

section Setup

variable {J} {i : Nat}

theorem tmpbuffs_eq : (tmpbuffsCreate (J.args i).count (J.args i).datatype (J.args i).maxr
    (ffscheduleCreate (J.lib₀ i)).2).1 = List.range' (J.lib₀ i).nextBuffer J.maxr := by
  have h := (tmpbuffsCreate_spec (J.args i).count (J.args i).datatype (J.args i).maxr
    (ffscheduleCreate (J.lib₀ i)).2).1
  rwa [J.args_maxr] at h ⊢

theorem tmpLib_nextBuffer :
    (J.tmpLib i).nextBuffer = (J.lib₀ i).nextBuffer + J.maxr := by
  obtain ⟨_, _, _, h, _⟩ := tmpbuffsCreate_spec (J.args i).count (J.args i).datatype
    (J.args i).maxr (ffscheduleCreate (J.lib₀ i)).2
  rw [tmpLib, h, J.args_maxr]
  rfl

theorem tmpLib_buffs (b : Nat) : (J.tmpLib i).buffs b =
    if (J.lib₀ i).nextBuffer ≤ b ∧ b < (J.lib₀ i).nextBuffer + J.maxr then
      ⟨(J.args i).count, (J.args i).datatype⟩
    else (J.lib₀ i).buffs b := by
  obtain ⟨_, _, _, _, h⟩ := tmpbuffsCreate_spec (J.args i).count (J.args i).datatype
    (J.args i).maxr (ffscheduleCreate (J.lib₀ i)).2
  rw [tmpLib, h, J.args_maxr]
  rfl

theorem state_eq : J.state i = (J.stateLib i).1 := by
  rw [stateLib, ← tmpbuffs_eq]
  rfl

theorem setup_buffs : (ffallreduceSetup (J.args i) (J.lib₀ i)).2.lib.buffs =
    (J.stateLib i).2.buffs := by
  rw [stateLib, ← tmpbuffs_eq]
  simp only [ffallreduceSetup, moveCreate_eq, newOp_buffs]
  rfl

/-- Where the buffers of a rank are: only the temporary ones are among those that
`tmpbuffs_create` made. -/
structure Placed (J : Ranks α) (i : Nat) (buffs : Nat → Ffbuffer) : Prop where
  rb_out : J.rb i < (J.lib₀ i).nextBuffer ∨ (J.lib₀ i).nextBuffer + J.maxr ≤ J.rb i
  src_out : J.src i < (J.lib₀ i).nextBuffer ∨ (J.lib₀ i).nextBuffer + J.maxr ≤ J.src i
  rb_eq : buffs (J.rb i) = ⟨J.n, (J.args i).datatype⟩
  src_eq : buffs (J.src i) = ⟨J.n, (J.args i).datatype⟩
  tmp_eq : ∀ k, k < J.maxr → buffs (J.tmp i k) = ⟨(J.args i).count, (J.args i).datatype⟩
  sb_eq : J.sb i = ffbuffNone ↔ (J.args i).inPlace = true

theorem tmpLib_tmp {k : Nat} (hk : k < J.maxr) :
    (J.tmpLib i).buffs (J.tmp i k) = ⟨(J.args i).count, (J.args i).datatype⟩ := by
  have htmp : J.tmp i k = (J.lib₀ i).nextBuffer + k := rfl
  rw [tmpLib_buffs, if_pos (by omega)]

/-- The caller provides the buffers. -/
theorem placed_of_provided (hprov : (J.args i).buffersProvided = true) :
    J.Placed i (J.stateLib i).2.buffs := by
  obtain ⟨hrlt, hrrec⟩ := J.rcv_ok i hprov
  have hlib : (J.stateLib i).2 = J.tmpLib i := by
    rw [stateLib, allreduceStateCreate, if_pos hprov]
  have hrb : J.rb i = (J.args i).rcvbuff := by
    rw [rb, state_eq, stateLib, allreduceStateCreate, if_pos hprov]
  have hsb : J.sb i = (J.args i).sndbuff.getD ffbuffNone := by
    rw [sb, state_eq, stateLib, allreduceStateCreate, if_pos hprov]
  have hin : (J.args i).inPlace = true ↔ (J.args i).sndbuff = none := by
    simp [AllreduceArgs.inPlace]
  have hsrc : J.src i < (J.lib₀ i).nextBuffer ∧
      (J.lib₀ i).buffs (J.src i) = ⟨J.n, (J.args i).datatype⟩ := by
    rw [src, hrb, hsb]
    by_cases hp : (J.args i).inPlace = true
    · rw [if_pos hp]
      exact ⟨hrlt, hrrec⟩
    · rw [if_neg hp]
      obtain ⟨b, hb⟩ := Option.ne_none_iff_exists'.mp (fun h => hp (hin.mpr h))
      obtain ⟨_, hlt, hrec⟩ := J.snd_ok i hprov b hb
      rw [hb]
      exact ⟨hlt, hrec⟩
  rw [hlib]
  refine ⟨Or.inl (hrb ▸ hrlt), Or.inl hsrc.1, ?_, ?_, fun k hk => tmpLib_tmp hk, ?_⟩
  · rw [hrb, tmpLib_buffs, if_neg (by omega), hrrec]
  · rw [tmpLib_buffs, if_neg (by omega), hsrc.2]
  · rw [hsb, hin]
    cases hb : (J.args i).sndbuff with
    | none => simp
    | some b => simpa using (J.snd_ok i hprov b hb).1

/-- `allreduce_state_create` creates the receive buffer. -/
theorem placed_of_inPlace (hprov : ¬ (J.args i).buffersProvided = true)
    (hp : (J.args i).inPlace = true) : J.Placed i (J.stateLib i).2.buffs := by
  have hcount := J.count_eq i (by simpa using hprov)
  have hst : J.stateLib i = (⟨List.range' (J.lib₀ i).nextBuffer J.maxr, ffbuffNone,
      (J.tmpLib i).nextBuffer, (J.args i).count, (J.args i).datatype, (J.args i).maxr, true⟩,
      (ffbufferCreate (J.args i).count (J.args i).datatype (J.tmpLib i)).2) := by
    rw [stateLib, allreduceStateCreate, if_neg hprov, if_pos hp]
    rfl
  have hrb : J.rb i = (J.lib₀ i).nextBuffer + J.maxr := by
    rw [rb, state_eq, hst, tmpLib_nextBuffer]
  have hsrc : J.src i = J.rb i := by rw [src, if_pos hp]
  have hbuffs : ∀ b, (J.stateLib i).2.buffs b = if b = (J.lib₀ i).nextBuffer + J.maxr then
      ⟨(J.args i).count, (J.args i).datatype⟩ else (J.tmpLib i).buffs b := by
    intro b
    rw [hst, ← tmpLib_nextBuffer]
    simp [ffbufferCreate, Function.update_apply]
  have hrec : (J.stateLib i).2.buffs (J.rb i) = ⟨J.n, (J.args i).datatype⟩ := by
    rw [hbuffs, if_pos hrb, hcount]
  refine ⟨Or.inr hrb.ge, Or.inr (by omega), hrec, hsrc ▸ hrec, fun k hk => ?_, ?_⟩
  · have htmp : J.tmp i k = (J.lib₀ i).nextBuffer + k := rfl
    rw [hbuffs, if_neg (by omega), tmpLib_tmp hk]
  · rw [sb, state_eq, hst]
    exact iff_of_true rfl hp

/-- `allreduce_state_create` creates the send buffer, then the receive buffer. -/
theorem placed_of_own (hprov : ¬ (J.args i).buffersProvided = true)
    (hp : ¬ (J.args i).inPlace = true) : J.Placed i (J.stateLib i).2.buffs := by
  have hcount := J.count_eq i (by simpa using hprov)
  have hst : J.stateLib i = (⟨List.range' (J.lib₀ i).nextBuffer J.maxr,
      (J.tmpLib i).nextBuffer, (J.tmpLib i).nextBuffer + 1, (J.args i).count,
      (J.args i).datatype, (J.args i).maxr, true⟩,
      (ffbufferCreate (J.args i).count (J.args i).datatype
        (ffbufferCreate (J.args i).count (J.args i).datatype (J.tmpLib i)).2).2) := by
    rw [stateLib, allreduceStateCreate, if_neg hprov, if_neg hp]
    rfl
  have hrb : J.rb i = (J.lib₀ i).nextBuffer + J.maxr + 1 := by
    rw [rb, state_eq, hst, tmpLib_nextBuffer]
  have hsb : J.sb i = (J.lib₀ i).nextBuffer + J.maxr := by
    rw [sb, state_eq, hst, tmpLib_nextBuffer]
  have hsrc : J.src i = J.sb i := by rw [src, if_neg hp]
  have hbuffs : ∀ b, (J.stateLib i).2.buffs b =
      if b = (J.lib₀ i).nextBuffer + J.maxr + 1 then ⟨(J.args i).count, (J.args i).datatype⟩
      else if b = (J.lib₀ i).nextBuffer + J.maxr then
        ⟨(J.args i).count, (J.args i).datatype⟩
      else (J.tmpLib i).buffs b := by
    intro b
    rw [hst, ← tmpLib_nextBuffer]
    simp [ffbufferCreate, Function.update_apply]
  refine ⟨Or.inr (by omega), Or.inr (by omega), ?_, ?_, fun k hk => ?_, ?_⟩
  · rw [hbuffs, if_pos hrb, hcount]
  · rw [hbuffs, if_neg (by omega), if_pos (by omega), hcount]
  · have htmp : J.tmp i k = (J.lib₀ i).nextBuffer + k := rfl
    rw [hbuffs, if_neg (by omega), if_neg (by omega), tmpLib_tmp hk]
  · have hpos := J.nextBuffer_pos i
    exact iff_of_false (fun h => by rw [hsb, ffbuffNone] at h; omega) hp

theorem placed : J.Placed i (J.stateLib i).2.buffs := by
  by_cases hprov : (J.args i).buffersProvided = true
  · exact placed_of_provided hprov
  · by_cases hp : (J.args i).inPlace = true
    · exact placed_of_inPlace hprov hp
    · exact placed_of_own hprov hp

/-- The fields of the state that do not depend on who provides the buffers. -/
theorem stateLib_fields : (J.stateLib i).1.datatype = (J.args i).datatype ∧
    (J.stateLib i).1.tmpbuffs = List.range' (J.lib₀ i).nextBuffer J.maxr ∧
    (J.stateLib i).1.tmpbuffsCount = J.maxr ∧ (J.stateLib i).1.count = (J.args i).count := by
  rw [stateLib, allreduceStateCreate, J.args_maxr]
  split
  · exact ⟨rfl, rfl, rfl, rfl⟩
  · exact ⟨rfl, rfl, rfl, rfl⟩

theorem postCallback_setup :
    (ffallreduceSetup (J.args i) (J.lib₀ i)).2.sched.postCallback.isSome =
      (J.args i).buffersProvided := by
  by_cases hprov : (J.args i).buffersProvided = true
  · simp [ffallreduceSetup, hprov, ffscheduleSetDeleteCallback, ffscheduleSetState,
      ffscheduleSetPostCallback]
  · simp [ffallreduceSetup, hprov, ffscheduleSetDeleteCallback, ffscheduleSetState,
      ffscheduleCreate]

end Setup

theorem setup_buffers (i : Nat) :
    J.Handles i ∧
      J.BuffInv i (ffallreduceSetup (J.args i) (J.lib₀ i)).2.lib.buffs (J.state i).count := by
  have hplaced := J.placed (i := i)
  obtain ⟨hdata, htmp, htmpc, hcount⟩ := J.stateLib_fields (i := i)
  have htmps : ∀ k, J.tmp i k = (J.lib₀ i).nextBuffer + k := fun _ => rfl
  rw [setup_buffs, state_eq, hcount]
  refine ⟨⟨fun k hk => ?_, fun k hk => ?_, hplaced.sb_eq, ?_, ?_, ?_, postCallback_setup⟩,
    ⟨hplaced.rb_eq, hplaced.src_eq, fun k hk => ?_, fun hprov => ?_⟩⟩
  · have := htmps k
    rcases hplaced.rb_out with h | h <;> omega
  · have := htmps k
    rcases hplaced.src_out with h | h <;> omega
  · rw [state_eq, hdata]
  · rw [state_eq, htmp]
  · rw [state_eq, htmpc]
  · rw [hplaced.tmp_eq k hk]
  · exact (J.count_eq i hprov).ge

/-- The ranks of `test/allreduce.c`, with any operator and any inputs. -/
def ofInputs (csize n : Nat) (hpos : 0 < csize) (f : α → α → α) (input : Nat → Nat → Nat → α) :
    Ranks α where
  csize := csize
  n := n
  tag := 0
  operator := 0
  ops _ := f
  input := input
  mem₀ i _ := input i 0
  args i := testArgs csize i n
  lib₀ _ := Lib.init
  csize_pos := hpos
  csize_eq _ := rfl
  rank_eq _ := rfl
  tag_eq _ := rfl
  operator_eq _ := rfl
  nextBuffer_pos _ := by decide
  count_eq _ _ := rfl
  rcv_ok i h := absurd h (testArgs_not_provided csize i n)
  snd_ok i h := absurd h (testArgs_not_provided csize i n)

end Ranks

end Fflib
