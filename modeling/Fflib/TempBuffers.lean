import Fflib.Buffer
import Fflib.Rejected

/-!
# The temporary buffers of the allreduce

The buffers of an allreduce with `FFCOLL_BUFFERS`, with the memory behind them: the
creation of `tmpbuffs` in `ffallreduce`, `ffallreduce_post_check`, and a user who resizes
the send and the receive buffer between the runs of the schedule (`collStep`).  From
`ffschedule_post` to `ffschedule_wait` the buffers belong to the run: the progress thread
reads them without a lock.

* `updateAll_spec`: what a loop over `tmpbuffs` does to every buffer.
* `postCheck_records`: the counts and datatypes change as `RankEnv.postCheck` says.
* `CollInv` is the invariant: each temporary buffer has the count of the state.
* `tmpbuffs_fit_iff`: the temporary buffers fit in every run, iff the size of the datatype
  is known or there are none.
-/

namespace Fflib

open Library

universe u

/-- The buffers of a process, their memory, and the `count` of the `allreduce_state_t`; the
schedule is running or not, and `seen` are the counts of `rcvbuff` at the posts so far. -/
structure CollState (μ π : Type u) where
  buffs : Nat → BufferBlock π
  mem : μ
  stateCount : Nat
  running : Bool
  seen : List Nat

section Functions

variable {μ π : Type u}

/-- A buffer and the memory are written. -/
def CollState.set (h : Nat) (b : BufferBlock π) (m : μ) (E : CollState μ π) : CollState μ π where
  buffs := Function.update E.buffs h b
  mem := m
  stateCount := E.stateCount
  running := E.running
  seen := E.seen

/-- A function of `ffbuffer.c` is called on a buffer; its code is dropped. -/
def CollState.update (f : BufferBlock π → μ → Option (Int × BufferBlock π × μ)) (h : Nat)
    (E : CollState μ π) : Option (CollState μ π) :=
  (f (E.buffs h) E.mem).map fun r => E.set h r.2.1 r.2.2

/-- A loop over `tmpbuffs`. -/
def updateAll (f : BufferBlock π → μ → Option (Int × BufferBlock π × μ)) :
    List Nat → CollState μ π → Option (CollState μ π)
  | [], E => some E
  | h :: hs, E => (E.update f h).bind (updateAll f hs)

variable [DecidableEq π] (A : Allocator μ π)

/-- The loop of `ffallreduce` that creates `tmpbuffs`. -/
def tmpbuffsSetup (a : AllreduceArgs) (tmpbuffs : List Nat) (E : CollState μ π) :
    Option (CollState μ π) :=
  updateAll (fun _ m => ffbufferSetup A A.null a.count a.datatype 0 m) tmpbuffs E

/-- `ffallreduce_post_check`. -/
def ffallreducePostCheck (st : AllreduceState) (E : CollState μ π) :
    Option (Int × CollState μ π) :=
  let sb := E.buffs st.sndbuff
  let rb := E.buffs st.rcvbuff
  let inPlace := st.sndbuff = ffbuffNone
  if (¬ inPlace ∧ sb.datatype ≠ rb.datatype) ∨ rb.datatype ≠ st.datatype then
    some (ffInvalidArg, E)
  else if ¬ inPlace ∧ sb.count ≠ rb.count then some (ffInvalidArg, E)
  else if rb.count > E.stateCount then
    (updateAll (ffbufferResize A A.null rb.count rb.datatype)
        (st.tmpbuffs.take st.tmpbuffsCount) E).map fun E' =>
      (ffSuccess, { E' with stateCount := rb.count })
  else some (ffSuccess, E)

/-- What the user can do: resize a buffer, to library memory with a null pointer, post the
schedule, and wait for it. -/
inductive CollAct (π : Type u) where
  | resize (buffer : Nat) (addr : π) (count : Nat)
  | post
  | wait

/-- The buffers that the user has passed to `ffallreduce`. -/
def AllreduceState.IsUserBuffer (st : AllreduceState) (b : Nat) : Prop :=
  b = st.rcvbuff ∨ b = st.sndbuff ∧ st.sndbuff ≠ ffbuffNone

instance (st : AllreduceState) (b : Nat) : Decidable (st.IsUserBuffer b) :=
  inferInstanceAs (Decidable (_ ∨ _))

/-- The user keeps the datatype, resizes between the runs, and posts with equal counts. -/
def collStep (st : AllreduceState) (E : CollState μ π) : CollAct π → Option (CollState μ π)
  | .resize b addr count =>
      if E.running = false ∧ st.IsUserBuffer b ∧ 1 ≤ count ∧ count < 2 ^ 31 then
        E.update (ffbufferResize A addr count st.datatype) b
      else none
  | .post =>
      if E.running = false ∧ (st.sndbuff ≠ ffbuffNone →
          (E.buffs st.sndbuff).count = (E.buffs st.rcvbuff).count) then
        (ffallreducePostCheck A st E).map fun r =>
          { r.2 with
            running := true
            seen := E.seen ++ [(E.buffs st.rcvbuff).count] }
      else none
  | .wait => if E.running = true then some { E with running := false } else none

end Functions

/-- The buffers before `ffallreduce` is called. -/
def collInit {μ π : Type u} (st : AllreduceState) (buffs₀ : Nat → BufferBlock π) (mem₀ : μ) :
    CollState μ π where
  buffs := buffs₀
  mem := mem₀
  stateCount := st.count
  running := false
  seen := []

/-- The calls `acts` after `ffallreduce` has returned. -/
def collRun {μ π : Type u} [DecidableEq π] (A : Allocator μ π) (a : AllreduceArgs)
    (st : AllreduceState) (buffs₀ : Nat → BufferBlock π) (mem₀ : μ) (acts : List (CollAct π)) :
    Option (CollState μ π) :=
  (tmpbuffsSetup A a st.tmpbuffs (collInit st buffs₀ mem₀)).bind fun E =>
    run (collStep A st) E acts

/-- The size of the C type behind a datatype (`FFINT32_CTYPE` to `FFCHAR_CTYPE`). -/
def ctypeSize (datatype : Int) : Nat :=
  if datatype = ffChar then 1 else (ffdatatypeSize datatype).getD 0

/-- The number of elements that `ffop_gcomp_post` combines. -/
def gcompSize (buffs : Nat → Ffbuffer) (buffer1 buffer2 buffer3 : Nat) : Nat :=
  let buff1Count := (buffs buffer1).count
  let buff2Count := if buffer2 ≠ ffbuffNone then (buffs buffer2).count else buff1Count
  min (min buff1Count buff2Count) (buffs buffer3).count

/-- The records of all buffers. -/
def CollState.records {μ π : Type u} (E : CollState μ π) (b : Nat) : Ffbuffer :=
  (E.buffs b).record

/-- The temporary buffers fit a run of the schedule. -/
structure Fits (l₀ l : Lib) (a : AllreduceArgs) (st : AllreduceState)
    (E : CollState (Nat → Nat) (Option Nat)) : Prop where
  count_eq : E.stateCount = E.seen.foldl max a.count
  tmp_count : ∀ t ∈ st.tmpbuffs, (E.buffs t).count = E.stateCount
  tmp_room : ∀ t ∈ st.tmpbuffs, E.stateCount * ctypeSize a.datatype ≤ (E.buffs t).room
  combined : ∀ x b₁ b₂ b₃ operator, l₀.opid ≤ x → x < l.opid →
    (l.ops x).body = .comp b₁ b₂ b₃ operator →
      gcompSize E.records b₁ b₂ b₃ = (E.buffs st.rcvbuff).count
  sent : ∀ x peer tag b, l₀.opid ≤ x → x < l.opid → (l.ops x).body = .send peer tag b →
    (E.buffs b).count = (E.buffs st.rcvbuff).count
  received : ∀ x peer tag b, l₀.opid ≤ x → x < l.opid → (l.ops x).body = .recv peer tag b →
    (E.buffs st.rcvbuff).count ≤ (E.buffs b).count

/-! ### Loops over the temporary buffers -/

section Loop

variable {μ π : Type u} {f : BufferBlock π → μ → Option (Int × BufferBlock π × μ)}
  {Pre Post : BufferBlock π → Prop} {M : μ → Prop} {hs : List Nat} {E E' : CollState μ π}

@[simp] theorem CollState.set_buffs_self (E : CollState μ π) (h : Nat) (b : BufferBlock π)
    (m : μ) : (E.set h b m).buffs h = b := by
  simp [CollState.set]

theorem CollState.set_buffs_of_ne (E : CollState μ π) {h k : Nat} (hk : k ≠ h)
    {b : BufferBlock π} {m : μ} : (E.set h b m).buffs k = E.buffs k := by
  simp [CollState.set, hk]

/-- What a loop leaves behind. -/
structure UpdatedAll (hs : List Nat) (Post : BufferBlock π → Prop) (M : μ → Prop)
    (E E' : CollState μ π) : Prop where
  post : ∀ h ∈ hs, Post (E'.buffs h)
  other : ∀ h, h ∉ hs → E'.buffs h = E.buffs h
  mem : M E'.mem
  stateCount_eq : E'.stateCount = E.stateCount
  running_eq : E'.running = E.running
  seen_eq : E'.seen = E.seen

/-- Every buffer is updated once. -/
theorem updateAll_spec
    (hf : ∀ b m, Pre b → M m → ∃ c b' m', f b m = some (c, b', m') ∧ Post b' ∧ M m')
    (hnodup : hs.Nodup) (hpre : ∀ h ∈ hs, Pre (E.buffs h)) (hm : M E.mem) :
    ∃ E', updateAll f hs E = some E' ∧ UpdatedAll hs Post M E E' := by
  induction hs generalizing E with
  | nil =>
      refine ⟨E, rfl, fun h hh => ?_, fun _ _ => rfl, hm, rfl, rfl, rfl⟩
      cases hh
  | cons h hs ih =>
      obtain ⟨hnot, hnodup'⟩ := List.nodup_cons.mp hnodup
      obtain ⟨c, b', m', hfb, hpost, hm'⟩ := hf _ _ (hpre h List.mem_cons_self) hm
      have hupdate : E.update f h = some (E.set h b' m') := by
        simp only [CollState.update, hfb, Option.map_some]
      have hpre' : ∀ k ∈ hs, Pre ((E.set h b' m').buffs k) := by
        intro k hk
        rw [E.set_buffs_of_ne (ne_of_mem_of_not_mem hk hnot)]
        exact hpre k (List.mem_cons_of_mem h hk)
      obtain ⟨E', hE', hall⟩ := ih hnodup' hpre' hm'
      refine ⟨E', ?_, ?_, fun k hk => ?_, hall.mem, hall.stateCount_eq, hall.running_eq,
        hall.seen_eq⟩
      · rw [updateAll, hupdate, Option.bind_some, hE']
      · intro k hk
        rcases List.mem_cons.mp hk with rfl | hk'
        · rw [hall.other k hnot]
          simpa using hpost
        · exact hall.post k hk'
      · rw [List.mem_cons, not_or] at hk
        rw [hall.other k hk.2, E.set_buffs_of_ne hk.1]

end Loop

/-! ### The invariant -/

/-- The buffers that the user passes to `ffallreduce`, and the count. -/
structure UserBuffers {π : Type u} (a : AllreduceArgs) (l₀ : Lib) (buffs₀ : Nat → BufferBlock π) :
    Prop where
  provided : a.buffersProvided = true
  count_pos : 1 ≤ a.count
  count_lt : a.count < 2 ^ 31
  rcv_lt : a.rcvbuff < l₀.nextBuffer
  snd_lt : ∀ b, a.sndbuff = some b → b ≠ ffbuffNone ∧ b < l₀.nextBuffer
  rcv_count_lt : (buffs₀ a.rcvbuff).count < 2 ^ 31
  rcv_datatype : (buffs₀ a.rcvbuff).datatype = a.datatype
  snd_datatype : ∀ b, a.sndbuff = some b → (buffs₀ b).datatype = a.datatype

/-- The state that `ffallreduce` makes when the buffers are provided. -/
structure ProvidedState (a : AllreduceArgs) (l₀ : Lib) (st : AllreduceState) : Prop where
  tmp_eq : st.tmpbuffs = List.range' l₀.nextBuffer a.maxr
  tmpCount_eq : st.tmpbuffsCount = a.maxr
  snd_eq : st.sndbuff = a.sndbuff.getD ffbuffNone
  rcv_eq : st.rcvbuff = a.rcvbuff
  count_eq : st.count = a.count
  datatype_eq : st.datatype = a.datatype

theorem providedState {a : AllreduceArgs} (l₀ : Lib) (hprov : a.buffersProvided = true) :
    ProvidedState a l₀ (ffallreduceSetup a l₀).1 := by
  refine ⟨(setupSpec maxDeps a l₀).tmpbuffs_eq, ?_, ?_, ?_, ?_, ?_⟩
  all_goals simp [ffallreduceSetup, allreduceStateCreate, hprov]

/-- What is kept of the memory, in `M`, and of every temporary buffer, in `K`. -/
structure MemoryLaw (a : AllreduceArgs) (K : BufferBlock (Option Nat) → Prop)
    (M : (Nat → Nat) → Prop) : Prop where
  create : ∀ m, M m → ∃ c b m', ffbufferSetup sizeAllocator none a.count a.datatype 0 m =
    some (c, b, m') ∧ (b.count = a.count ∧ b.datatype = a.datatype ∧ K b) ∧ M m'
  grow : ∀ n b m, b.count < n → n < 2 ^ 31 → b.datatype = a.datatype → K b → M m →
    ∃ c b' m', ffbufferResize sizeAllocator none n a.datatype b m = some (c, b', m') ∧
      (b'.count = n ∧ b'.datatype = a.datatype ∧ K b') ∧ M m'
  resize : ∀ addr n b m, M m → ∀ c b' m',
    ffbufferResize sizeAllocator addr n a.datatype b m = some (c, b', m') → M m'

/-- The invariant between two calls of the user. -/
structure CollInv (a : AllreduceArgs) (st : AllreduceState)
    (K : BufferBlock (Option Nat) → Prop) (M : (Nat → Nat) → Prop)
    (E : CollState (Nat → Nat) (Option Nat)) : Prop where
  count_eq : E.stateCount = E.seen.foldl max a.count
  tmp : ∀ t ∈ st.tmpbuffs, (E.buffs t).count = E.stateCount ∧
    (E.buffs t).datatype = a.datatype ∧ K (E.buffs t)
  mem : M E.mem
  rcv_count_lt : (E.buffs st.rcvbuff).count < 2 ^ 31
  rcv_datatype : (E.buffs st.rcvbuff).datatype = a.datatype
  snd_datatype : st.sndbuff ≠ ffbuffNone → (E.buffs st.sndbuff).datatype = a.datatype
  ready : E.running = true → (E.buffs st.rcvbuff).count ≤ E.stateCount ∧
    (st.sndbuff ≠ ffbuffNone → (E.buffs st.sndbuff).count = (E.buffs st.rcvbuff).count)

section Invariant

variable {a : AllreduceArgs} {l₀ : Lib} {st : AllreduceState}
  {K : BufferBlock (Option Nat) → Prop} {M : (Nat → Nat) → Prop}
  {buffs₀ : Nat → BufferBlock (Option Nat)} {E E' : CollState (Nat → Nat) (Option Nat)}

/-- No buffer of the user is a temporary one. -/
theorem ProvidedState.user_not_tmp (hst : ProvidedState a l₀ st) (hU : UserBuffers a l₀ buffs₀)
    {b : Nat} (hb : st.IsUserBuffer b) : b ∉ st.tmpbuffs := by
  rw [hst.tmp_eq, List.mem_range'_1]
  rcases hb with rfl | ⟨rfl, hne⟩
  · rw [hst.rcv_eq]
    have := hU.rcv_lt
    omega
  · cases hs : a.sndbuff with
    | none =>
        rw [hst.snd_eq, hs] at hne
        exact absurd rfl hne
    | some b =>
        have := (hU.snd_lt b hs).2
        rw [hst.snd_eq, hs, Option.getD_some]
        omega

theorem ProvidedState.rcv_not_tmp (hst : ProvidedState a l₀ st) (hU : UserBuffers a l₀ buffs₀) :
    st.rcvbuff ∉ st.tmpbuffs :=
  hst.user_not_tmp hU (Or.inl rfl)

theorem ProvidedState.snd_not_tmp (hst : ProvidedState a l₀ st) (hU : UserBuffers a l₀ buffs₀)
    (hne : st.sndbuff ≠ ffbuffNone) : st.sndbuff ∉ st.tmpbuffs :=
  hst.user_not_tmp hU (Or.inr ⟨rfl, hne⟩)

theorem ProvidedState.tmp_nodup (hst : ProvidedState a l₀ st) : st.tmpbuffs.Nodup := by
  rw [hst.tmp_eq]
  exact List.nodup_range'

/-- The invariant holds when `ffallreduce` returns. -/
theorem CollInv.init (L : MemoryLaw a K M) (hst : ProvidedState a l₀ st)
    (hU : UserBuffers a l₀ buffs₀) {mem₀ : Nat → Nat} (hm : M mem₀) :
    ∃ E, tmpbuffsSetup sizeAllocator a st.tmpbuffs (collInit st buffs₀ mem₀) = some E ∧
      CollInv a st K M E := by
  have hcreate : ∀ (b : BufferBlock (Option Nat)) (m : Nat → Nat), True → M m → ∃ c b' m',
      ffbufferSetup sizeAllocator none a.count a.datatype 0 m = some (c, b', m') ∧
        (b'.count = a.count ∧ b'.datatype = a.datatype ∧ K b') ∧ M m' :=
    fun _ m _ hm => L.create m hm
  obtain ⟨E, hE, hall⟩ := updateAll_spec (E := collInit st buffs₀ mem₀) hcreate hst.tmp_nodup
    (fun _ _ => trivial) hm
  refine ⟨E, hE, ?_⟩
  have hcount : E.stateCount = a.count := hall.stateCount_eq.trans hst.count_eq
  have hrcv : E.buffs st.rcvbuff = buffs₀ a.rcvbuff := by
    rw [hall.other _ (hst.rcv_not_tmp hU), hst.rcv_eq]
    rfl
  constructor
  · rw [hcount, hall.seen_eq]
    rfl
  · rw [hcount]
    exact hall.post
  · exact hall.mem
  · rw [hrcv]
    exact hU.rcv_count_lt
  · rw [hrcv]
    exact hU.rcv_datatype
  · intro hne
    rw [hall.other _ (hst.snd_not_tmp hU hne)]
    cases hs : a.sndbuff with
    | none =>
        rw [hst.snd_eq, hs] at hne
        exact absurd rfl hne
    | some b =>
        have hb : st.sndbuff = b := by rw [hst.snd_eq, hs, Option.getD_some]
        rw [hb]
        exact hU.snd_datatype b hs
  · intro hrun
    rw [hall.running_eq] at hrun
    cases hrun

/-- The check lets the post through, and the temporary buffers have grown with the receive
buffer. -/
theorem CollInv.postCheck (L : MemoryLaw a K M) (hst : ProvidedState a l₀ st)
    (h : CollInv a st K M E)
    (heq : st.sndbuff ≠ ffbuffNone →
      (E.buffs st.sndbuff).count = (E.buffs st.rcvbuff).count) :
    ∃ E₁, ffallreducePostCheck sizeAllocator st E = some (ffSuccess, E₁) ∧
      E₁.stateCount = max E.stateCount (E.buffs st.rcvbuff).count ∧ E₁.seen = E.seen ∧
      M E₁.mem ∧ (∀ b, b ∉ st.tmpbuffs → E₁.buffs b = E.buffs b) ∧
      ∀ t ∈ st.tmpbuffs, (E₁.buffs t).count = E₁.stateCount ∧
        (E₁.buffs t).datatype = a.datatype ∧ K (E₁.buffs t) := by
  have hdatatype : ¬ ((¬ st.sndbuff = ffbuffNone ∧
      (E.buffs st.sndbuff).datatype ≠ (E.buffs st.rcvbuff).datatype) ∨
        (E.buffs st.rcvbuff).datatype ≠ st.datatype) := by
    rintro (⟨hne, hd⟩ | hd)
    · exact hd ((h.snd_datatype hne).trans h.rcv_datatype.symm)
    · exact hd (h.rcv_datatype.trans hst.datatype_eq.symm)
  have hcount : ¬ (¬ st.sndbuff = ffbuffNone ∧
      (E.buffs st.sndbuff).count ≠ (E.buffs st.rcvbuff).count) :=
    fun hc => hc.2 (heq hc.1)
  simp only [ffallreducePostCheck, if_neg hdatatype, if_neg hcount]
  by_cases hgrow : (E.buffs st.rcvbuff).count > E.stateCount
  · have htake : st.tmpbuffs.take st.tmpbuffsCount = st.tmpbuffs := by
      rw [hst.tmpCount_eq, hst.tmp_eq]
      exact List.take_of_length_le (by simp)
    have hstep : ∀ (b : BufferBlock (Option Nat)) (m : Nat → Nat),
        b.count < (E.buffs st.rcvbuff).count ∧ b.datatype = a.datatype ∧ K b → M m →
          ∃ c b' m', ffbufferResize sizeAllocator none (E.buffs st.rcvbuff).count
              (E.buffs st.rcvbuff).datatype b m = some (c, b', m') ∧
            (b'.count = (E.buffs st.rcvbuff).count ∧ b'.datatype = a.datatype ∧ K b') ∧ M m' := by
      intro b m hb hm
      rw [h.rcv_datatype]
      exact L.grow _ b m hb.1 h.rcv_count_lt hb.2.1 hb.2.2 hm
    have hpre : ∀ t ∈ st.tmpbuffs, (E.buffs t).count < (E.buffs st.rcvbuff).count ∧
        (E.buffs t).datatype = a.datatype ∧ K (E.buffs t) := by
      intro t ht
      obtain ⟨hc, hd, hK⟩ := h.tmp t ht
      exact ⟨by omega, hd, hK⟩
    obtain ⟨E₁, hE₁, hall⟩ := updateAll_spec hstep hst.tmp_nodup hpre h.mem
    rw [if_pos hgrow, htake]
    refine ⟨{ E₁ with stateCount := (E.buffs st.rcvbuff).count }, ?_, ?_, hall.seen_eq, hall.mem,
      hall.other, hall.post⟩
    · rw [show sizeAllocator.null = (none : Option Nat) from rfl, hE₁]
      rfl
    · exact (Nat.max_eq_right (Nat.le_of_lt hgrow)).symm
  · rw [if_neg hgrow]
    exact ⟨E, rfl, (Nat.max_eq_left (Nat.not_lt.mp hgrow)).symm, rfl, h.mem, fun _ _ => rfl, h.tmp⟩

/-- Step lemma: the user resizes a buffer. -/
theorem CollInv.resizeStep (L : MemoryLaw a K M) (hst : ProvidedState a l₀ st)
    (hU : UserBuffers a l₀ buffs₀) (h : CollInv a st K M E) {b : Nat} {addr : Option Nat}
    {count : Nat} (hs : collStep sizeAllocator st E (.resize b addr count) = some E') :
    CollInv a st K M E' := by
  simp only [collStep] at hs
  split at hs
  · next hc =>
      obtain ⟨hrun, hb, _, hlt⟩ := hc
      have hnot := hst.user_not_tmp hU hb
      obtain ⟨b', m', hf, hcount, hdatatype⟩ :=
        ffbufferResize_size addr count st.datatype (E.buffs b) E.mem
      have hm : M m' := L.resize addr count _ E.mem h.mem ffSuccess b' m'
        (by rw [← hst.datatype_eq]; exact hf)
      simp only [CollState.update, hf, Option.map_some, Option.some.injEq] at hs
      subst hs
      have hother : ∀ t ∈ st.tmpbuffs, (E.set b b' m').buffs t = E.buffs t :=
        fun t ht => E.set_buffs_of_ne (ne_of_mem_of_not_mem ht hnot)
      rw [hst.datatype_eq] at hdatatype
      refine ⟨h.count_eq, fun t ht => ?_, hm, ?_, ?_, fun hne => ?_, fun hrun' => ?_⟩
      · rw [hother t ht]
        exact h.tmp t ht
      · by_cases hr : st.rcvbuff = b
        · rw [hr, E.set_buffs_self, hcount]
          exact hlt
        · rw [E.set_buffs_of_ne hr]
          exact h.rcv_count_lt
      · by_cases hr : st.rcvbuff = b
        · rw [hr, E.set_buffs_self, hdatatype]
        · rw [E.set_buffs_of_ne hr]
          exact h.rcv_datatype
      · by_cases hr : st.sndbuff = b
        · rw [hr, E.set_buffs_self, hdatatype]
        · rw [E.set_buffs_of_ne hr]
          exact h.snd_datatype hne
      · exact absurd (hrun.symm.trans hrun') (by decide)
  · cases hs

/-- Step lemma: the user posts the schedule. -/
theorem CollInv.postStep (L : MemoryLaw a K M) (hst : ProvidedState a l₀ st)
    (hU : UserBuffers a l₀ buffs₀) (h : CollInv a st K M E)
    (hs : collStep sizeAllocator st E .post = some E') :
    CollInv a st K M E' ∧ E'.running = true := by
  simp only [collStep] at hs
  split at hs
  · next hc =>
      obtain ⟨E₁, hE₁, hcount, hseen, hm, hother, htmp⟩ := h.postCheck L hst hc.2
      rw [hE₁, Option.map_some, Option.some.injEq] at hs
      subst hs
      have hrcv := hother _ (hst.rcv_not_tmp hU)
      refine ⟨⟨?_, htmp, hm, ?_, ?_, fun hne => ?_, fun _ => ⟨?_, fun hne => ?_⟩⟩, rfl⟩
      · simp only [List.foldl_append, List.foldl_cons, List.foldl_nil, hcount, h.count_eq]
      · simp only [hrcv]
        exact h.rcv_count_lt
      · simp only [hrcv]
        exact h.rcv_datatype
      · simp only [hother _ (hst.snd_not_tmp hU hne)]
        exact h.snd_datatype hne
      · simp only [hrcv, hcount]
        exact Nat.le_max_right _ _
      · simp only [hrcv, hother _ (hst.snd_not_tmp hU hne)]
        exact hc.2 hne
  · cases hs

/-- Step lemma. -/
theorem CollInv.step (L : MemoryLaw a K M) (hst : ProvidedState a l₀ st)
    (hU : UserBuffers a l₀ buffs₀) (h : CollInv a st K M E) {act : CollAct (Option Nat)}
    (hs : collStep sizeAllocator st E act = some E') : CollInv a st K M E' := by
  cases act with
  | resize b addr count => exact h.resizeStep L hst hU hs
  | post => exact (h.postStep L hst hU hs).1
  | wait =>
      simp only [collStep] at hs
      split at hs
      · obtain rfl := Option.some.inj hs
        refine ⟨h.count_eq, h.tmp, h.mem, h.rcv_count_lt, h.rcv_datatype, h.snd_datatype,
          fun hrun => ?_⟩
        cases hrun
      · cases hs

/-- Run lemma: a run that ends with a post. -/
theorem CollInv.of_collRun (L : MemoryLaw a K M) (hst : ProvidedState a l₀ st)
    (hU : UserBuffers a l₀ buffs₀) {mem₀ : Nat → Nat} (hm : M mem₀)
    {acts : List (CollAct (Option Nat))}
    (hr : collRun sizeAllocator a st buffs₀ mem₀ (acts ++ [.post]) = some E) :
    CollInv a st K M E ∧ E.running = true := by
  obtain ⟨E₀, hE₀, h₀⟩ := CollInv.init L hst hU hm
  rw [collRun, hE₀, Option.bind_some, run_snoc_eq_some] at hr
  obtain ⟨E₁, hE₁, hpost⟩ := hr
  have h₁ : CollInv a st K M E₁ := run_induction (fun E act E' h hs => h.step L hst hU hs) acts
    E₀ E₁ h₀ hE₁
  exact h₁.postStep L hst hU hpost

end Invariant

/-! ### The memory of the temporary buffers -/

theorem ctypeSize_of_some {datatype : Int} {size : Nat} (h : ffdatatypeSize datatype = some size) :
    ctypeSize datatype = size := by
  have hne : datatype ≠ ffChar := by
    rintro rfl
    cases h
  rw [ctypeSize, if_neg hne, h, Option.getD_some]

theorem ctypeSize_of_none {datatype : Int} (h : ffdatatypeSize datatype = none)
    (hne : datatype ≠ ffChar) : ctypeSize datatype = 0 := by
  rw [ctypeSize, if_neg hne, h, Option.getD_none]

/-- A datatype other than `FFCHAR`: there is room for as many elements as the count says. -/
theorem memoryLaw_sized {a : AllreduceArgs} (hchar : a.datatype ≠ ffChar)
    (hcount : a.count < 2 ^ 31) :
    MemoryLaw a (fun b => b.count * ctypeSize a.datatype ≤ b.room) (fun _ => True) := by
  refine ⟨fun m _ => ?_, fun n b m hlt hn hb hroom _ => ?_, fun _ _ _ _ _ _ _ _ _ => trivial⟩
  · rw [ffbufferSetup_eq (by decide)]
    cases hsize : ffdatatypeSize a.datatype with
    | none =>
        obtain ⟨b', m', hf, hc, hd⟩ := ffbufferResize_size none a.count a.datatype _ m
        refine ⟨_, b', m', hf, ⟨hc, hd, ?_⟩, trivial⟩
        simp [ctypeSize_of_none hsize hchar]
    | some size =>
        have hnew := unitsize_of_some (A := sizeAllocator) hsize m
        have hold : sizeAllocator.unitsize ffDatatypeNone m = (0, m) := rfl
        rw [show (none : Option Nat) = sizeAllocator.null from rfl,
          ffbufferResize_null hnew hold, if_pos (Or.inl rfl)]
        refine ⟨_, _, _, rfl, ⟨rfl, rfl, ?_⟩, trivial⟩
        simp [BufferBlock.room, ctypeSize_of_some hsize, mulSize_comm size,
          mulSize_eq (show a.count < 2 ^ 32 by omega) (ffdatatypeSize_le hsize)]
  · cases hsize : ffdatatypeSize a.datatype with
    | none =>
        obtain ⟨b', m', hf, hc, hd⟩ := ffbufferResize_size none n a.datatype b m
        refine ⟨_, b', m', hf, ⟨hc, hd, ?_⟩, trivial⟩
        simp [ctypeSize_of_none hsize hchar]
    | some size =>
        obtain ⟨b', hf, hc, hd, hr⟩ := ffbufferResize_grows m hsize hb hlt (by omega)
        refine ⟨_, b', m, hf, ⟨hc, hd, ?_⟩, trivial⟩
        rw [ctypeSize_of_some hsize, hc]
        cases size with
        | zero => omega
        | succ k => rw [hr (by omega)]

/-- Counts and datatypes of the temporary buffers, whatever the datatype is. -/
theorem memoryLaw_records (a : AllreduceArgs) :
    MemoryLaw a (fun _ => True) (fun _ => True) := by
  refine ⟨fun m _ => ?_, fun n b m _ _ _ _ _ => ?_, fun _ _ _ _ _ _ _ _ _ => trivial⟩
  · rw [ffbufferSetup_eq (by decide)]
    obtain ⟨b', m', hf, hc, hd⟩ := ffbufferResize_size none a.count a.datatype _ m
    exact ⟨_, b', m', hf, ⟨hc, hd, trivial⟩, trivial⟩
  · obtain ⟨b', m', hf, hc, hd⟩ := ffbufferResize_size none n a.datatype b m
    exact ⟨_, b', m', hf, ⟨hc, hd, trivial⟩, trivial⟩

/-- All values that are read from variables that were never written are zero. -/
def zeroJunk : Nat → Nat := fun _ => 0

theorem unitsize_zeroJunk (datatype : Int) :
    (sizeAllocator.unitsize datatype zeroJunk).2 = zeroJunk := by
  unfold Allocator.unitsize
  split
  · rfl
  · rfl

theorem ffbufferResize_zeroJunk {addr : Option Nat} {count : Nat} {datatype : Int}
    {b b' : BufferBlock (Option Nat)} {c : Int} {junk : Nat → Nat}
    (h : ffbufferResize sizeAllocator addr count datatype b zeroJunk = some (c, b', junk)) :
    junk = zeroJunk := by
  rw [ffbufferResize, if_neg (logicalAnd_ne _)] at h
  simp only [unitsize_zeroJunk] at h
  split at h
  · split at h
    · cases h
      rfl
    · cases h
      rfl
  · cases h
    split
    · rfl
    · rfl

/-- `FFCHAR`, when the size happens to be read as zero: no memory is ever there. -/
theorem memoryLaw_char {a : AllreduceArgs} (hchar : a.datatype = ffChar) :
    MemoryLaw a (fun b => b.ptr = some 0) (fun m => m = zeroJunk) := by
  have hsize : ∀ m : Nat → Nat, m = zeroJunk →
      sizeAllocator.unitsize a.datatype m = (0, zeroJunk) := by
    rintro _ rfl
    rw [hchar]
    rfl
  refine ⟨fun m hm => ?_, fun n b m _ _ hb hptr hm => ?_, fun addr n b m hm c b' m' h => ?_⟩
  · have hold : sizeAllocator.unitsize ffDatatypeNone zeroJunk = (0, zeroJunk) := rfl
    rw [ffbufferSetup_eq (by decide), show (none : Option Nat) = sizeAllocator.null from rfl,
      ffbufferResize_null (hsize m hm) hold, if_pos (Or.inl rfl)]
    refine ⟨_, _, _, rfl, ⟨rfl, rfl, ?_⟩, rfl⟩
    simp [mulSize]
  · have hold : sizeAllocator.unitsize b.datatype zeroJunk = (0, zeroJunk) := by
      rw [hb]
      exact hsize _ rfl
    have hkeep : ¬ (b.ptr = sizeAllocator.null ∨ mulSize n 0 > mulSize b.count 0) := by
      rw [hptr]
      simp [sizeAllocator, mulSize]
    rw [show (none : Option Nat) = sizeAllocator.null from rfl,
      ffbufferResize_null (hsize m hm) hold, if_neg hkeep]
    exact ⟨_, _, _, rfl, ⟨rfl, rfl, hptr⟩, rfl⟩
  · subst hm
    exact ffbufferResize_zeroJunk h

/-! ### The records -/

/-- With memory that is always granted, the check changes counts and datatypes as
`RankEnv.postCheck` does. -/
theorem postCheck_records {α : Type} {st : AllreduceState} (hnodup : st.tmpbuffs.Nodup)
    (E : CollState (Nat → Nat) (Option Nat)) (R : RankEnv α) (hbuffs : R.buffs = E.records)
    (hcount : R.stateCount = E.stateCount) :
    ∃ c E', ffallreducePostCheck sizeAllocator st E = some (c, E') ∧
      E'.records = (R.postCheck st).buffs ∧ E'.stateCount = (R.postCheck st).stateCount := by
  have hrecord : ∀ b, R.buffs b = ⟨(E.buffs b).count, (E.buffs b).datatype⟩ := by
    intro b
    rw [hbuffs]
    rfl
  simp only [ffallreducePostCheck, RankEnv.postCheck, hrecord, hcount]
  split
  · exact ⟨_, E, rfl, hbuffs.symm, hcount.symm⟩
  · split
    · exact ⟨_, E, rfl, hbuffs.symm, hcount.symm⟩
    · split
      · have hstep : ∀ (b : BufferBlock (Option Nat)) (m : Nat → Nat), True → True →
            ∃ c b' m', ffbufferResize sizeAllocator none (E.buffs st.rcvbuff).count
                (E.buffs st.rcvbuff).datatype b m = some (c, b', m') ∧
              b'.record = (E.buffs st.rcvbuff).record ∧ True := by
          intro b m _ _
          obtain ⟨b', m', hf, hc, hd⟩ := ffbufferResize_size none (E.buffs st.rcvbuff).count
            (E.buffs st.rcvbuff).datatype b m
          exact ⟨_, b', m', hf, by simp [BufferBlock.record, hc, hd], trivial⟩
        obtain ⟨E', hE', hall⟩ := updateAll_spec (E := E) hstep
          (hnodup.sublist (List.take_sublist st.tmpbuffsCount st.tmpbuffs)) (fun _ _ => trivial)
          trivial
        rw [show sizeAllocator.null = (none : Option Nat) from rfl, hE']
        refine ⟨_, _, rfl, ?_, rfl⟩
        funext b
        by_cases hb : b ∈ st.tmpbuffs.take st.tmpbuffsCount
        · simp only [if_pos hb]
          exact hall.post b hb
        · simp only [if_neg hb]
          exact congrArg BufferBlock.record (hall.other b hb)
      · exact ⟨_, E, rfl, hbuffs.symm, hcount.symm⟩

/-! ### The runs -/

section Main

variable {a : AllreduceArgs} {l₀ l : Lib} {s : FfSchedule}
  {buffs₀ : Nat → BufferBlock (Option Nat)} {E : CollState (Nat → Nat) (Option Nat)}

/-- In a run, every computation combines as many elements as the receive buffer has. -/
theorem CollInv.fits {K : BufferBlock (Option Nat) → Prop} {M : (Nat → Nat) → Prop}
    (hb : AllreduceBuilt maxDeps a l₀ s l) (hU : UserBuffers a l₀ buffs₀)
    (h : CollInv a (ffallreduceSetup a l₀).1 K M E) (hrun : E.running = true)
    (hroom : ∀ t ∈ (ffallreduceSetup a l₀).1.tmpbuffs, K (E.buffs t) →
      (E.buffs t).count * ctypeSize a.datatype ≤ (E.buffs t).room) :
    Fits l₀ l a (ffallreduceSetup a l₀).1 E := by
  have hst := providedState l₀ hU.provided
  obtain ⟨hle, hsnd⟩ := h.ready hrun
  have htmp : ∀ k, k < a.activeBits.length →
      (E.buffs (l₀.nextBuffer + k)).count = E.stateCount := by
    intro k hlt
    have hmaxr := length_activeBelow_le_self (a := a) a.maxr
    rw [activeBelow_maxr] at hmaxr
    refine (h.tmp _ ?_).1
    rw [hst.tmp_eq, List.mem_range'_1]
    omega
  have hrcv : (ffallreduceSetup a l₀).1.rcvbuff = a.rcvbuff := hst.rcv_eq
  refine ⟨h.count_eq, fun t ht => (h.tmp t ht).1, fun t ht => ?_, ?_, ?_, ?_⟩
  · obtain ⟨hc, _, hK⟩ := h.tmp t ht
    rw [← hc]
    exact hroom t ht hK
  · intro x b₁ b₂ b₃ operator hlo hx hbody
    obtain ⟨hin, rfl, rfl, rfl⟩ | ⟨k, hk, rfl, rfl, rfl⟩ := hb.of_comp hlo hx hbody
    · have hne : (ffallreduceSetup a l₀).1.sndbuff ≠ ffbuffNone := by
        rw [hst.snd_eq]
        cases hsb : a.sndbuff with
        | none => simp [AllreduceArgs.inPlace, hsb] at hin
        | some b => exact (hU.snd_lt b hsb).1
      simp [gcompSize, CollState.records, BufferBlock.record, hsnd hne]
    · simp only [gcompSize, CollState.records, BufferBlock.record, htmp k hk]
      split <;> omega
  · intro x peer tag c hlo hx hbody
    rw [hb.of_send hlo hx hbody]
  · intro x peer tag c hlo hx hbody
    obtain ⟨k, hk, rfl⟩ := hb.of_recv hlo hx hbody
    rw [htmp k hk]
    exact hle

/-- Without memory behind them, the temporary buffers of `FFCHAR` elements do not fit. -/
theorem CollInv.not_fits {M : (Nat → Nat) → Prop} (hU : UserBuffers a l₀ buffs₀)
    (hchar : a.datatype = ffChar) (hmaxr : 0 < a.maxr)
    (h : CollInv a (ffallreduceSetup a l₀).1 (fun b => b.ptr = some 0) M E) :
    ¬ Fits l₀ l a (ffallreduceSetup a l₀).1 E := by
  intro hfits
  have hst := providedState l₀ hU.provided
  have hmem : l₀.nextBuffer ∈ (ffallreduceSetup a l₀).1.tmpbuffs := by
    rw [hst.tmp_eq, List.mem_range'_1]
    omega
  have hroom := hfits.tmp_room _ hmem
  have hmax : ∀ (ls : List Nat) (n : Nat), n ≤ ls.foldl max n := by
    intro ls
    induction ls with
    | nil => exact fun n => le_rfl
    | cons m ls ih => exact fun n => (Nat.le_max_left n m).trans (ih (max n m))
  have hpos := hmax E.seen a.count
  rw [← h.count_eq] at hpos
  have hone := hU.count_pos
  have hptr : (E.buffs l₀.nextBuffer).room = 0 := by
    rw [BufferBlock.room, (h.tmp _ hmem).2.2, Option.getD_some]
  rw [hptr, hchar, show ctypeSize ffChar = 1 from rfl] at hroom
  omega

/-- **Temporary buffers.**  At every post, in every run of resizes, posts and waits that ends
with one, the temporary buffers fit, whatever is read from variables that were never
written, iff the elements are not of type `FFCHAR` or there is one process only. -/
theorem tmpbuffs_fit_iff (hbuild : ffallreduce maxDeps a l₀ = some (s, l))
    (hU : UserBuffers a l₀ buffs₀) (acts : List (CollAct (Option Nat)))
    (hlegal : (collRun sizeAllocator a (ffallreduceSetup a l₀).1 buffs₀ zeroJunk
      (acts ++ [.post])).isSome = true) :
    (∀ junk E, collRun sizeAllocator a (ffallreduceSetup a l₀).1 buffs₀ junk
        (acts ++ [.post]) = some E → Fits l₀ l a (ffallreduceSetup a l₀).1 E) ↔
      a.datatype ≠ ffChar ∨ a.csize ≤ 1 := by
  have hst := providedState l₀ hU.provided
  constructor
  · intro hall
    by_contra hno
    rw [not_or, not_not, Nat.not_le] at hno
    obtain ⟨E, hE⟩ := Option.isSome_iff_exists.mp hlegal
    have hmaxr : 0 < a.maxr := Nat.clog_pos (by omega) hno.2
    obtain ⟨hinv, _⟩ := CollInv.of_collRun (memoryLaw_char hno.1) hst hU rfl hE
    exact hinv.not_fits hU hno.1 hmaxr (hall zeroJunk E hE)
  · rintro (hchar | hone) junk E hE
    · obtain ⟨hinv, hrun⟩ := CollInv.of_collRun (memoryLaw_sized hchar hU.count_lt) hst hU
        trivial hE
      exact hinv.fits (allreduceBuilt (by decide) hbuild) hU hrun fun t _ hroom => hroom
    · obtain ⟨hinv, hrun⟩ := CollInv.of_collRun (memoryLaw_records a) hst hU trivial hE
      refine hinv.fits (allreduceBuilt (by decide) hbuild) hU hrun fun t ht _ => ?_
      -- a single process has no temporary buffers
      have hmaxr : a.maxr = 0 := Nat.clog_of_right_le_one hone 2
      rw [hst.tmp_eq, hmaxr] at ht
      cases ht

end Main

/-- Two processes, with a send and a receive buffer of one element. -/
def pairArgs (datatype : Int) : AllreduceArgs :=
  { buffersArgs with csize := 2, datatype := datatype }

def pairBuffs (datatype : Int) : Nat → BufferBlock (Option Nat) := fun _ =>
  { type := .ptr
    selfalloc := true
    ptr := some 8
    count := 1
    datatype := datatype
    options := 0 }

theorem pairArgs_built (datatype : Int) :
    ∃ s l, ffallreduce maxDeps (pairArgs datatype) buffersLib = some (s, l) := by
  have h : (ffallreduce maxDeps (pairArgs datatype) buffersLib).isSome = true := by
    rw [ffallreduce_isSome_iff _ _ (by decide), activeBits_of_rank_zero rfl, List.length_range]
    exact (show (pairArgs datatype).maxr < maxDeps from show Nat.clog 2 2 < maxDeps by decide)
  obtain ⟨⟨s, l⟩, hbuild⟩ := Option.isSome_iff_exists.mp h
  exact ⟨s, l, hbuild⟩

theorem pairArgs_userBuffers (datatype : Int) :
    UserBuffers (pairArgs datatype) buffersLib (pairBuffs datatype) := by
  have hsnd : ∀ b, some 1 = some b → b ≠ ffbuffNone ∧ b < buffersLib.nextBuffer := by
    intro b hb
    obtain rfl : 1 = b := Option.some.inj hb
    decide
  exact ⟨show isOptSet ffcollBuffers ffcollBuffers = true by decide, show 1 ≤ 1 by decide,
    show 1 < 2 ^ 31 by decide, show 2 < buffersLib.nextBuffer by decide, hsnd,
    show 1 < 2 ^ 31 by decide, rfl, fun _ _ => rfl⟩

/-- The user lets both buffers grow to seven elements. -/
def pairActs : List (CollAct (Option Nat)) := [.resize 1 none 7, .resize 2 none 7]

theorem tmpbuffs_fit_iff_pair :
    ∃ s l, ffallreduce maxDeps (pairArgs 0) buffersLib = some (s, l) ∧
      ((∀ junk E, collRun sizeAllocator (pairArgs 0) (ffallreduceSetup (pairArgs 0) buffersLib).1
          (pairBuffs 0) junk (pairActs ++ [.post]) = some E →
        Fits buffersLib l (pairArgs 0) (ffallreduceSetup (pairArgs 0) buffersLib).1 E) ↔
      (pairArgs 0).datatype ≠ ffChar ∨ (pairArgs 0).csize ≤ 1) := by
  obtain ⟨s, l, hbuild⟩ := pairArgs_built 0
  exact ⟨s, l, hbuild, tmpbuffs_fit_iff hbuild (pairArgs_userBuffers 0) pairActs (by rfl)⟩

/-- The temporary buffer of two processes that reduce one element of type `FFCHAR`. -/
theorem tmpbuffs_fit_fails :
    ¬ ∀ (a : AllreduceArgs) (l₀ l : Lib) (s : FfSchedule)
      (buffs₀ : Nat → BufferBlock (Option Nat)) (acts : List (CollAct (Option Nat)))
      (junk : Nat → Nat) (E : CollState (Nat → Nat) (Option Nat)),
      ffallreduce maxDeps a l₀ = some (s, l) → UserBuffers a l₀ buffs₀ →
      collRun sizeAllocator a (ffallreduceSetup a l₀).1 buffs₀ junk (acts ++ [.post]) = some E →
      Fits l₀ l a (ffallreduceSetup a l₀).1 E := by
  intro hall
  obtain ⟨s, l, hbuild⟩ := pairArgs_built ffChar
  have hU := pairArgs_userBuffers ffChar
  have hsome : (collRun sizeAllocator (pairArgs ffChar)
      (ffallreduceSetup (pairArgs ffChar) buffersLib).1 (pairBuffs ffChar) zeroJunk
      ([] ++ [.post])).isSome = true := by rfl
  obtain ⟨E, hE⟩ := Option.isSome_iff_exists.mp hsome
  obtain ⟨hinv, _⟩ := CollInv.of_collRun (memoryLaw_char rfl) (providedState _ hU.provided) hU
    rfl hE
  exact hinv.not_fits hU rfl (by decide) (hall _ _ l s _ [] zeroJunk E hbuild hU hE)

end Fflib
