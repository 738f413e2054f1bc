import Fflib.AllreduceBuild
import Fflib.Library.Exchange
import Fflib.Library.Loops

/-!
# The round loop on machine integers

The loop over `mask` of `ffallreduce`, with `csize`, `rank`, `maxr` and `mask` in an `int`, and
`dst` and `r` in a `uint32_t`.

**Integers.**  Both are 32 bits: `mask < csize` compares them as signed numbers, `dst < csize`
and `r < maxr` as unsigned ones.  `mask <<= 1` is undefined when the result is no `int`.

**Rounds.**  What a round does is a parameter of the loop.  `logRound` notes the peers and the
buffers of its operations, and `ffallreduceRound` makes them.

* `maskLoop_of_counted`: up to `2 ^ 30` ranks the loop ends, after `maxr` iterations; nothing
  overflows, and the assertion holds.
* `maskLoop_eq_ffallreduceLoop`: the loop on natural numbers is this one; `ffallreduceInt` is
  `ffallreduce` with this loop, which from `2 ^ 30 + 1` ranks on does not end.
* `RoundLoopLaw` is what is asked of the rounds of all the ranks.
-/

namespace Fflib

open Library

universe u

/-! ### The loop -/

/-- The variables of the loop; `data` is what the rounds work on. -/
structure RoundLocals (σ : Type u) where
  mask : BitVec 32
  r : BitVec 32
  data : σ

/-- `mask <<= 1`; `none` is an overflow. -/
def doubleMask (mask : BitVec 32) : Option (BitVec 32) :=
  if 0 ≤ mask.toInt ∧ 2 * mask.toInt < 2 ^ 31 then some (mask <<< 1) else none

section Loop

variable {σ : Type u} (csize rank maxr : BitVec 32)
  (round : (mask dst r : BitVec 32) → σ → Option σ)

/-- The body of the loop. -/
def maskBody (s : RoundLocals σ) : Option (RoundLocals σ) :=
  let dst := rank ^^^ s.mask
  let rest :=
    if dst.ult csize then
      if s.r.ult maxr then
        (round s.mask dst s.r s.data).map fun d => { s with r := s.r + 1, data := d }
      else none -- `assert(r<maxr)`
    else some s
  rest.bind fun s' => (doubleMask s'.mask).map fun mask => { s' with mask := mask }

/-- `while (mask < csize)`, with `mask` and `r` as they are set before it. -/
def maskLoop (fuel : Nat) (d : σ) : Option (RoundLocals σ) :=
  whileLoop (fun s => s.mask.slt csize) (maskBody csize rank maxr round) fuel ⟨1, 0, d⟩

end Loop

/-- A send or a receive: its buffer and its peer. -/
structure Message where
  buffer : Nat
  peer : Nat
deriving DecidableEq

/-- The operations of a round: the send, the receive, and the first buffer of `comp`. -/
structure RoundOps where
  mask : BitVec 32
  send : Message
  recv : Message
  comp : Nat
deriving DecidableEq

/-- A round, as far as its operations go. -/
def logRound (st : AllreduceState) (mask dst r : BitVec 32) (log : List RoundOps) :
    Option (List RoundOps) :=
  (st.tmpbuffs[r.toNat]?).map fun tmp =>
    log ++ [⟨mask, ⟨st.rcvbuff, dst.toNat⟩, ⟨tmp, dst.toNat⟩, tmp⟩]

/-- The rounds of a rank. -/
def allreduceRounds (a : AllreduceArgs) (l : Lib) (fuel : Nat) : Option (List RoundOps) :=
  (maskLoop (BitVec.ofNat 32 a.csize) (BitVec.ofNat 32 a.rank) (BitVec.ofNat 32 a.maxr)
    (logRound (ffallreduceSetup a l).1) fuel []).map (·.data)

/-! ### Machine integers -/

section Words

variable {m n : Nat}

theorem toInt_ofNat_of_lt (h : n < 2 ^ 31) : (BitVec.ofNat 32 n).toInt = n := by
  have hn : (BitVec.ofNat 32 n).toNat = n := by
    rw [BitVec.toNat_ofNat, Nat.mod_eq_of_lt (by omega)]
  rw [BitVec.toInt_eq_toNat_of_lt (by omega), hn]

theorem ofNat_slt_iff (hm : m < 2 ^ 31) (hn : n < 2 ^ 31) :
    (BitVec.ofNat 32 m).slt (BitVec.ofNat 32 n) = decide (m < n) := by
  rw [BitVec.slt_eq_decide, toInt_ofNat_of_lt hm, toInt_ofNat_of_lt hn]
  simp

theorem ofNat_ult_iff (hm : m < 2 ^ 32) (hn : n < 2 ^ 32) :
    (BitVec.ofNat 32 m).ult (BitVec.ofNat 32 n) = decide (m < n) := by
  rw [BitVec.ult_eq_decide, BitVec.toNat_ofNat, BitVec.toNat_ofNat, Nat.mod_eq_of_lt hm,
    Nat.mod_eq_of_lt hn]

theorem ofNat_xor (hm : m < 2 ^ 32) (hn : n < 2 ^ 32) :
    BitVec.ofNat 32 m ^^^ BitVec.ofNat 32 n = BitVec.ofNat 32 (m ^^^ n) := by
  apply BitVec.eq_of_toNat_eq
  rw [BitVec.toNat_xor, BitVec.toNat_ofNat, BitVec.toNat_ofNat, BitVec.toNat_ofNat,
    Nat.mod_eq_of_lt hm, Nat.mod_eq_of_lt hn, Nat.mod_eq_of_lt (Nat.xor_lt_two_pow hm hn)]

theorem doubleMask_ofNat (h : n < 2 ^ 30) :
    doubleMask (BitVec.ofNat 32 n) = some (BitVec.ofNat 32 (2 * n)) := by
  have hshift : BitVec.ofNat 32 n <<< 1 = BitVec.ofNat 32 (2 * n) := by
    apply BitVec.eq_of_toNat_eq
    rw [BitVec.toNat_shiftLeft, BitVec.toNat_ofNat, BitVec.toNat_ofNat, Nat.shiftLeft_eq]
    omega
  rw [doubleMask, toInt_ofNat_of_lt (by omega), if_pos (by omega), hshift]

end Words

/-! ### The loop ends -/

section Counted

variable {σ : Type u} {a : AllreduceArgs}
  {round : (mask dst r : BitVec 32) → σ → Option σ}

/-- The variables in front of iteration `b`. -/
structure AtBit (a : AllreduceArgs) (P : Nat → σ → Prop) (b : Nat) (s : RoundLocals σ) :
    Prop where
  mask_eq : s.mask = BitVec.ofNat 32 (2 ^ b)
  r_eq : s.r = BitVec.ofNat 32 (a.activeBelow b).length
  data : P b s.data

theorem maxr_le (hcsize : a.csize ≤ 2 ^ 30) : a.maxr ≤ 30 :=
  Nat.clog_le_of_le_pow hcsize

/-- One iteration: the assertion holds and `mask` does not overflow. -/
theorem AtBit.step {P : Nat → σ → Prop} {b : Nat} {s : RoundLocals σ} (h : AtBit a P b s)
    (hcsize : a.csize ≤ 2 ^ 30) (hrank : a.rank < a.csize) (hb : b < a.maxr)
    (hround : ∀ d, P b d → a.dst b < a.csize →
      ∃ d', round (BitVec.ofNat 32 (2 ^ b)) (BitVec.ofNat 32 (a.dst b))
        (BitVec.ofNat 32 (a.activeBelow b).length) d = some d' ∧ P (b + 1) d')
    (hskip : ∀ d, P b d → ¬ a.dst b < a.csize → P (b + 1) d) :
    ∃ s', maskBody (BitVec.ofNat 32 a.csize) (BitVec.ofNat 32 a.rank) (BitVec.ofNat 32 a.maxr)
      round s = some s' ∧ AtBit a P (b + 1) s' := by
  have hmask : 2 ^ b < a.csize := two_pow_lt_csize_iff.mpr hb
  have hmaxr := maxr_le hcsize
  have hr := length_activeBelow_le_self (a := a) b
  have hdst : a.dst b < 2 ^ 32 := Nat.xor_lt_two_pow (by omega) (by omega)
  have hxor : BitVec.ofNat 32 a.rank ^^^ s.mask = BitVec.ofNat 32 (a.dst b) := by
    rw [h.mask_eq, ofNat_xor (by omega) (by omega), AllreduceArgs.dst]
  have hdouble : doubleMask s.mask = some (BitVec.ofNat 32 (2 ^ (b + 1))) := by
    rw [h.mask_eq, doubleMask_ofNat (by omega), pow_succ']
  have hassert : s.r.ult (BitVec.ofNat 32 a.maxr) = true := by
    rw [h.r_eq, ofNat_ult_iff (by omega) (by omega), decide_eq_true_iff]
    omega
  have hactive : (BitVec.ofNat 32 (a.dst b)).ult (BitVec.ofNat 32 a.csize) =
      decide (a.dst b < a.csize) := ofNat_ult_iff hdst (by omega)
  rw [maskBody]
  simp only [hxor, hactive, decide_eq_true_eq]
  by_cases hpeer : a.dst b < a.csize
  · obtain ⟨d', hd', hP⟩ := hround s.data h.data hpeer
    rw [if_pos hpeer, if_pos hassert, h.mask_eq, h.r_eq, hd']
    simp only [Option.map_some, Option.bind_some, ← h.mask_eq, hdouble]
    refine ⟨_, rfl, rfl, ?_, hP⟩
    rw [activeBelow_succ, if_pos hpeer, List.length_append, List.length_singleton,
      BitVec.ofNat_add]
    rfl
  · rw [if_neg hpeer, Option.bind_some, hdouble, Option.map_some]
    refine ⟨_, rfl, rfl, ?_, hskip s.data h.data hpeer⟩
    rw [activeBelow_succ, if_neg hpeer, h.r_eq]

/-- The loop makes `maxr` iterations. -/
theorem maskLoop_of_counted (round : (mask dst r : BitVec 32) → σ → Option σ)
    (P : Nat → σ → Prop) (hcsize : a.csize ≤ 2 ^ 30)
    (hrank : a.rank < a.csize)
    (hround : ∀ b d, b < a.maxr → P b d → a.dst b < a.csize →
      ∃ d', round (BitVec.ofNat 32 (2 ^ b)) (BitVec.ofNat 32 (a.dst b))
        (BitVec.ofNat 32 (a.activeBelow b).length) d = some d' ∧ P (b + 1) d')
    (hskip : ∀ b d, b < a.maxr → P b d → ¬ a.dst b < a.csize → P (b + 1) d)
    {d : σ} (hd : P 0 d) :
    ∃ s, AtBit a P a.maxr s ∧ ∀ fuel, a.maxr < fuel →
      maskLoop (BitVec.ofNat 32 a.csize) (BitVec.ofNat 32 a.rank) (BitVec.ofNat 32 a.maxr)
        round fuel d = some s := by
  have hinit : AtBit a P 0 ⟨1, 0, d⟩ := ⟨rfl, rfl, hd⟩
  refine whileLoop_of_counted (I := AtBit a P) ?_ ?_ a.maxr 0 _ (Nat.zero_add _) hinit
  · intro b s hb h
    refine ⟨?_, h.step hcsize hrank hb (fun d => hround b d hb) (fun d => hskip b d hb)⟩
    have hmask : 2 ^ b < a.csize := two_pow_lt_csize_iff.mpr hb
    rw [h.mask_eq, ofNat_slt_iff (by omega) (by omega), decide_eq_true_iff]
    exact hmask
  · intro s h
    have hstop : ¬ 2 ^ a.maxr < a.csize := by
      rw [two_pow_lt_csize_iff]
      omega
    have hpow : 2 ^ a.maxr ≤ 2 ^ 30 := Nat.pow_le_pow_right (by omega) (maxr_le hcsize)
    rw [h.mask_eq, ofNat_slt_iff (by omega) (by omega), decide_eq_false_iff_not]
    exact hstop

end Counted

/-! ### The rounds of a rank -/

section Rounds

variable {a : AllreduceArgs} {l : Lib}

/-- The operations of the rounds in the iterations `bits`. -/
def roundsOf (a : AllreduceArgs) (l : Lib) (bits : List Nat) : List RoundOps :=
  bits.mapIdx fun r b =>
    ⟨BitVec.ofNat 32 (2 ^ b), ⟨(ffallreduceSetup a l).1.rcvbuff, a.dst b⟩,
      ⟨l.nextBuffer + r, a.dst b⟩, l.nextBuffer + r⟩

theorem roundsOf_concat (bits : List Nat) (b : Nat) :
    roundsOf a l (bits ++ [b]) = roundsOf a l bits ++
      [⟨BitVec.ofNat 32 (2 ^ b), ⟨(ffallreduceSetup a l).1.rcvbuff, a.dst b⟩,
        ⟨l.nextBuffer + bits.length, a.dst b⟩, l.nextBuffer + bits.length⟩] :=
  List.mapIdx_concat

theorem tmpbuffs_get {r : Nat} (hr : r < a.maxr) :
    (ffallreduceSetup a l).1.tmpbuffs[r]? = some (l.nextBuffer + r) := by
  rw [(setupSpec 1 a l).tmpbuffs_eq, List.getElem?_range' hr, Nat.one_mul]

/-- The loop makes the rounds in which the rank has a partner. -/
theorem allreduceRounds_eq (hcsize : a.csize ≤ 2 ^ 30) (hrank : a.rank < a.csize) :
    ∀ fuel, 30 < fuel → allreduceRounds a l fuel = some (roundsOf a l a.activeBits) := by
  have hmaxr := maxr_le hcsize
  have hround : ∀ b log, b < a.maxr → log = roundsOf a l (a.activeBelow b) →
      a.dst b < a.csize → ∃ log', logRound (ffallreduceSetup a l).1 (BitVec.ofNat 32 (2 ^ b))
        (BitVec.ofNat 32 (a.dst b)) (BitVec.ofNat 32 (a.activeBelow b).length) log = some log' ∧
          log' = roundsOf a l (a.activeBelow (b + 1)) := by
    rintro b _ hb rfl hpeer
    have hlen := length_activeBelow_le_self (a := a) b
    have hdst : (BitVec.ofNat 32 (a.dst b)).toNat = a.dst b := by
      rw [BitVec.toNat_ofNat, Nat.mod_eq_of_lt (by omega)]
    have hr : (BitVec.ofNat 32 (a.activeBelow b).length).toNat = (a.activeBelow b).length := by
      rw [BitVec.toNat_ofNat, Nat.mod_eq_of_lt (by omega)]
    rw [activeBelow_succ, if_pos hpeer, roundsOf_concat, logRound, hr, hdst,
      tmpbuffs_get (by omega)]
    exact ⟨_, rfl, rfl⟩
  have hskip : ∀ b log, b < a.maxr → log = roundsOf a l (a.activeBelow b) →
      ¬ a.dst b < a.csize → log = roundsOf a l (a.activeBelow (b + 1)) := by
    rintro b _ _ rfl hpeer
    rw [activeBelow_succ, if_neg hpeer]
  obtain ⟨s, hs, hall⟩ := maskLoop_of_counted (logRound (ffallreduceSetup a l).1)
    (fun b log => log = roundsOf a l (a.activeBelow b)) hcsize hrank hround hskip
    (d := []) rfl
  intro fuel hfuel
  rw [allreduceRounds, hall fuel (by omega), Option.map_some, hs.data, activeBelow_maxr]

theorem nodup_activeBits : a.activeBits.Nodup :=
  List.nodup_range.filter _

theorem mem_activeBits {b : Nat} : b ∈ a.activeBits ↔ b < a.maxr ∧ a.dst b < a.csize := by
  simp [AllreduceArgs.activeBits]

theorem map_tmp_roundsOf (bits : List Nat) :
    (roundsOf a l bits).map (·.recv.buffer) = List.range' l.nextBuffer bits.length := by
  apply List.ext_getElem
  · simp [roundsOf]
  · intro i h h'
    simp [roundsOf]

/-- What depends on the iteration alone. -/
theorem map_roundsOf {α : Type} {f : RoundOps → α} {g : Nat → α}
    (h : ∀ r b, f ⟨BitVec.ofNat 32 (2 ^ b), ⟨(ffallreduceSetup a l).1.rcvbuff, a.dst b⟩,
      ⟨l.nextBuffer + r, a.dst b⟩, l.nextBuffer + r⟩ = g b) (bits : List Nat) :
    (roundsOf a l bits).map f = bits.map g := by
  apply List.ext_getElem
  · simp [roundsOf]
  · intro i hi hi'
    simp only [roundsOf, List.getElem_map, List.getElem_mapIdx]
    exact h i _

theorem mem_roundsOf {bits : List Nat} {o : RoundOps} (h : o ∈ roundsOf a l bits) :
    ∃ r b, r < bits.length ∧ b ∈ bits ∧ o.mask = BitVec.ofNat 32 (2 ^ b) ∧
      o.send.peer = a.dst b ∧ o.recv = ⟨l.nextBuffer + r, a.dst b⟩ ∧
      o.comp = o.recv.buffer := by
  obtain ⟨r, hr, rfl⟩ := List.mem_mapIdx.mp h
  exact ⟨r, bits[r], hr, List.getElem_mem hr, rfl, rfl, rfl, rfl⟩

theorem exists_mem_roundsOf {bits : List Nat} {b : Nat} (hb : b ∈ bits) :
    ∃ o ∈ roundsOf a l bits, o.mask = BitVec.ofNat 32 (2 ^ b) ∧ o.send.peer = a.dst b ∧
      o.recv.peer = a.dst b := by
  obtain ⟨r, hr, rfl⟩ := List.getElem_of_mem hb
  exact ⟨_, List.mem_mapIdx.mpr ⟨r, hr, rfl⟩, rfl, rfl, rfl⟩

/-- What is asked of the rounds of one rank. -/
structure RoundsOk (a : AllreduceArgs) (l : Lib) (rounds : List RoundOps) : Prop where
  ends : ∀ fuel, 30 < fuel → allreduceRounds a l fuel = some rounds
  tmp_length : (ffallreduceSetup a l).1.tmpbuffs.length = a.maxr
  tmp_mem : ∀ o ∈ rounds, o.comp = o.recv.buffer ∧
    o.recv.buffer ∈ (ffallreduceSetup a l).1.tmpbuffs
  tmp_nodup : (rounds.map (·.recv.buffer)).Nodup
  send_nodup : (rounds.map (·.send.peer)).Nodup
  recv_nodup : (rounds.map (·.recv.peer)).Nodup

theorem roundsOk (hcsize : a.csize ≤ 2 ^ 30) (hrank : a.rank < a.csize) :
    RoundsOk a l (roundsOf a l a.activeBits) := by
  have hpeers : (a.activeBits.map a.dst).Nodup :=
    nodup_activeBits.map fun b c h => xor_two_pow_inj h
  have htmp := (setupSpec 1 a l).tmpbuffs_eq
  refine ⟨allreduceRounds_eq hcsize hrank, ?_, ?_, ?_, ?_, ?_⟩
  · rw [htmp, List.length_range']
  · intro o ho
    obtain ⟨r, b, hr, _, _, _, hrecv, hcomp⟩ := mem_roundsOf ho
    have hle := length_activeBits_le a
    refine ⟨hcomp, ?_⟩
    rw [hrecv, htmp, List.mem_range'_1]
    dsimp only
    omega
  · rw [map_tmp_roundsOf]
    exact List.nodup_range'
  · rwa [map_roundsOf (f := (·.send.peer)) fun _ _ => rfl]
  · rwa [map_roundsOf (f := (·.recv.peer)) fun _ _ => rfl]

end Rounds

/-! ### All ranks -/

/-- The call of rank `i`. -/
def AllreduceArgs.onRank (a : AllreduceArgs) (csize i : Nat) : AllreduceArgs :=
  { a with csize := csize, rank := i }

/-- A send to `j` and a receive from `j` for the mask `m`. -/
def ExchangesWith (rounds : List RoundOps) (m : BitVec 32) (j : Nat) : Prop :=
  (∃ o ∈ rounds, o.mask = m ∧ o.send.peer = j) ∧ ∃ o ∈ rounds, o.mask = m ∧ o.recv.peer = j

/-- The rounds of every rank are in order, it meets the ranks that differ from it in one
binary digit, and two ranks agree on when they meet. -/
def RoundLoopLaw (csize : Nat) (args : Nat → AllreduceArgs) (libs : Nat → Lib) : Prop :=
  ∃ rounds : Nat → List RoundOps,
    (∀ i, i < csize → RoundsOk ((args i).onRank csize i) (libs i) (rounds i)) ∧
    (∀ i j m, i < csize → j < csize → (ExchangesWith (rounds i) m j ↔
      ∃ b, b < Nat.clog 2 csize ∧ m = BitVec.ofNat 32 (2 ^ b) ∧ i ^^^ 2 ^ b = j)) ∧
    ∀ i j m, i < csize → j < csize →
      (ExchangesWith (rounds i) m j ↔ ExchangesWith (rounds j) m i)

section Ranks

variable {csize : Nat} {a : AllreduceArgs} {l : Lib}

theorem exchangesWith_iff {i j : Nat} {m : BitVec 32} (hj : j < csize) :
    ExchangesWith (roundsOf (a.onRank csize i) l (a.onRank csize i).activeBits) m j ↔
      ∃ b, b < Nat.clog 2 csize ∧ m = BitVec.ofNat 32 (2 ^ b) ∧ i ^^^ 2 ^ b = j := by
  constructor
  · rintro ⟨⟨o, ho, rfl, hpeer⟩, _⟩
    obtain ⟨_, b, _, hb, hmask, hdst, _⟩ := mem_roundsOf ho
    exact ⟨b, (mem_activeBits.mp hb).1, hmask, hdst.symm.trans hpeer⟩
  · rintro ⟨b, hb, rfl, rfl⟩
    have hactive : b ∈ (a.onRank csize i).activeBits := mem_activeBits.mpr ⟨hb, hj⟩
    obtain ⟨o, ho, hmask, hsend, hrecv⟩ := exists_mem_roundsOf (l := l) hactive
    exact ⟨⟨o, ho, hmask, hsend⟩, o, ho, hmask, hrecv⟩

/-- Up to `2 ^ 30` ranks the round loop does what is asked of it. -/
theorem roundLoop_law (hcsize : csize ≤ 2 ^ 30) (args : Nat → AllreduceArgs)
    (libs : Nat → Lib) : RoundLoopLaw csize args libs := by
  refine ⟨fun i => roundsOf ((args i).onRank csize i) (libs i)
    ((args i).onRank csize i).activeBits, fun i hi => roundsOk hcsize hi,
    fun i j m _ hj => exchangesWith_iff hj, ?_⟩
  intro i j m hi hj
  rw [exchangesWith_iff hj, exchangesWith_iff hi]
  constructor
  · rintro ⟨b, hb, hm, rfl⟩
    exact ⟨b, hb, hm, xor_two_pow_cancel⟩
  · rintro ⟨b, hb, hm, rfl⟩
    exact ⟨b, hb, hm, xor_two_pow_cancel⟩

/-- Six ranks. -/
theorem roundLoop_law_six :
    RoundLoopLaw 6 (fun i => testArgs 6 i 1) (fun _ => Lib.init) :=
  roundLoop_law (by decide) _ _

end Ranks

/-! ### The loop on natural numbers -/

/-- Where the construction stays inside the arrays, it makes the rounds of this loop. -/
theorem maskLoop_eq_ffallreduceLoop {cap : Nat} {a : AllreduceArgs} {st : AllreduceState}
    {s s' : RoundState} (hcsize : a.csize ≤ 2 ^ 30) (hrank : a.rank < a.csize)
    (h : ffallreduceLoop cap a st 0 s = some s') :
    ∃ t, t.data = s' ∧ ∀ fuel, 30 < fuel →
      maskLoop (BitVec.ofNat 32 a.csize) (BitVec.ofNat 32 a.rank) (BitVec.ofNat 32 a.maxr)
        (fun mask _ _ => ffallreduceRound cap a st (Nat.log 2 mask.toNat)) fuel s = some t := by
  have hmaxr := maxr_le hcsize
  have hbody : ∀ b d, b < a.maxr → ffallreduceLoop cap a st b d = some s' →
      ∃ d', ffallreduceRound cap a st b d = some d' ∧
        ffallreduceLoop cap a st (b + 1) d' = some s' := by
    intro b d hb hd
    rw [ffallreduceLoop, if_pos (two_pow_lt_csize_iff.mpr hb), Option.bind_eq_some_iff] at hd
    exact hd
  have hround : ∀ b d, b < a.maxr → ffallreduceLoop cap a st b d = some s' →
      a.dst b < a.csize → ∃ d', ffallreduceRound cap a st
        (Nat.log 2 (BitVec.ofNat 32 (2 ^ b)).toNat) d = some d' ∧
          ffallreduceLoop cap a st (b + 1) d' = some s' := by
    intro b d hb hd _
    have hmask : 2 ^ b < a.csize := two_pow_lt_csize_iff.mpr hb
    rw [BitVec.toNat_ofNat, Nat.mod_eq_of_lt (by omega), Nat.log_pow (by omega)]
    exact hbody b d hb hd
  have hskip : ∀ b d, b < a.maxr → ffallreduceLoop cap a st b d = some s' →
      ¬ a.dst b < a.csize → ffallreduceLoop cap a st (b + 1) d = some s' := by
    intro b d hb hd hpeer
    obtain ⟨d', hround, hd'⟩ := hbody b d hb hd
    rw [ffallreduceRound, if_neg hpeer] at hround
    cases hround
    exact hd'
  obtain ⟨t, ht, hall⟩ := maskLoop_of_counted
    (fun mask _ _ => ffallreduceRound cap a st (Nat.log 2 mask.toNat))
    (fun b d => ffallreduceLoop cap a st b d = some s') hcsize hrank hround hskip h
  have hstop : ¬ 2 ^ a.maxr < a.csize := by
    rw [two_pow_lt_csize_iff]
    omega
  have hdata := ht.data
  rw [ffallreduceLoop, if_neg hstop] at hdata
  exact ⟨t, Option.some.inj hdata, fun fuel hfuel => hall fuel (by omega)⟩

/-! ### `ffallreduce` on machine integers -/

/-- `ffallreduce` with `mask` in an `int`; `none` is also an overflow of `mask`, and a loop that
uses up the fuel. -/
def ffallreduceInt (cap : Nat) (a : AllreduceArgs) (l : Lib) (fuel : Nat) :
    Option (FfSchedule × Lib) :=
  let init := ffallreduceSetup a l
  (maskLoop (BitVec.ofNat 32 a.csize) (BitVec.ofNat 32 a.rank) (BitVec.ofNat 32 a.maxr)
    (fun mask _ _ => ffallreduceRound cap a init.1 (Nat.log 2 mask.toNat)) fuel init.2).bind
      fun t => ffscheduleAddOp cap t.data.sched init.2.comp t.data.lib

section Int

variable {cap : Nat} {a : AllreduceArgs} {l : Lib} {r : FfSchedule × Lib}

/-- Up to `2 ^ 30` ranks it builds the schedule of `ffallreduce`. -/
theorem ffallreduceInt_eq (hcsize : a.csize ≤ 2 ^ 30) (hrank : a.rank < a.csize)
    (h : ffallreduce cap a l = some r) {fuel : Nat} (hfuel : 30 < fuel) :
    ffallreduceInt cap a l fuel = some r := by
  obtain ⟨s, hs, hr⟩ := Option.bind_eq_some_iff.mp h
  obtain ⟨t, rfl, hall⟩ := maskLoop_eq_ffallreduceLoop hcsize hrank hs
  rw [ffallreduceInt, hall fuel hfuel, Option.bind_some]
  exact hr

theorem doubleMask_overflow : doubleMask (BitVec.ofNat 32 (2 ^ 30)) = none := by decide

/-- While `mask` is below `2 ^ 31` the loop does not end when there are more than `2 ^ 30`
ranks: its test holds, and in the end `mask` overflows. -/
theorem whileLoop_mask_eq_none {σ : Type u} {csize : Nat} {rank maxr : BitVec 32}
    {round : (mask dst r : BitVec 32) → σ → Option σ} (hlow : 2 ^ 30 < csize)
    (hhigh : csize < 2 ^ 31) (fuel : Nat) :
    ∀ (s : RoundLocals σ) (b : Nat), b ≤ 30 → s.mask = BitVec.ofNat 32 (2 ^ b) →
      whileLoop (fun s => s.mask.slt (BitVec.ofNat 32 csize))
        (maskBody (BitVec.ofNat 32 csize) rank maxr round) fuel s = none := by
  induction fuel with
  | zero => exact fun _ _ _ _ => rfl
  | succ fuel ih =>
      intro s b hb hmask
      have hpow : 2 ^ b ≤ 2 ^ 30 := Nat.pow_le_pow_right (by omega) hb
      have hcond : s.mask.slt (BitVec.ofNat 32 csize) = true := by
        rw [hmask, ofNat_slt_iff (by omega) hhigh, decide_eq_true_iff]
        omega
      rw [whileLoop, if_pos hcond, Option.bind_eq_none_iff]
      intro s' hs'
      -- the mask of the next iteration is the double of this one
      obtain ⟨s₁, hrest, hdouble⟩ := Option.bind_eq_some_iff.mp hs'
      obtain ⟨mask, hmask', rfl⟩ := Option.map_eq_some_iff.mp hdouble
      have hsame : s₁.mask = s.mask := by
        split at hrest
        · split at hrest
          · obtain ⟨d, _, rfl⟩ := Option.map_eq_some_iff.mp hrest
            rfl
          · cases hrest
        · obtain rfl := Option.some.inj hrest
          rfl
      rw [hsame, hmask] at hmask'
      rcases Nat.lt_or_eq_of_le hb with hlt | rfl
      · have hpow' : 2 ^ b < 2 ^ 30 := Nat.pow_lt_pow_right (by omega) hlt
        rw [doubleMask_ofNat hpow', ← pow_succ'] at hmask'
        exact ih _ (b + 1) hlt (Option.some.inj hmask').symm
      · rw [doubleMask_overflow] at hmask'
        cases hmask'

/-- With more than `2 ^ 30` ranks it does not return. -/
theorem ffallreduceInt_eq_none (hlow : 2 ^ 30 < a.csize) (hhigh : a.csize < 2 ^ 31)
    (fuel : Nat) : ffallreduceInt cap a l fuel = none := by
  rw [ffallreduceInt, maskLoop, whileLoop_mask_eq_none hlow hhigh fuel _ 0 (by omega) rfl]
  rfl

end Int

end Fflib
