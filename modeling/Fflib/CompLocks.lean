import Fflib.Net
import Fflib.Library.Locks

/-!
# Computations on one destination

`ffop_gcomp_post` in several threads at once, element by element.  With `FFCOMP_DEST_ATOMIC`
it holds the lock of `buffer3`, which is that of the buffer and not that of its memory: two
buffers on one address have two locks.

A computation accumulates when its second operand is its destination, as those of
`ffallreduce` do.  `comp_none_lost_iff`: no contribution to an address is lost, whatever the
interleaving, iff any two computations of different threads on it hold the same lock.
-/

namespace Fflib

open Library

universe u

/-- `ffcomp_t`, with the options of its operation; buffers are their handles. -/
structure CompCall where
  buffer1 : Nat
  buffer2 : Nat
  buffer3 : Nat
  options : Nat

/-- The number of elements. -/
def CompCall.size (buffs : Nat → Ffbuffer) (c : CompCall) : Nat :=
  RankEnv.gcompCount buffs c.buffer1 c.buffer2 c.buffer3

section Steps

variable {α : Type u} (ptr : Nat → Nat) (op : α → α → α) (mem : Nat → Nat → α)

/-- Element `x` of a buffer, when `dst` is in the destination of `c`. -/
def CompCall.operand (c : CompCall) (dst : Nat → α) (b x : Nat) : α :=
  if ptr b = ptr c.buffer3 then dst x else mem (ptr b) x

/-- The operands of element `x` are read, and then its result is written. -/
def CompCall.element (c : CompCall) (x : Nat) :
    List ((Nat → α) → Option α → Option ((Nat → α) × Option α)) :=
  [fun dst _ =>
      some (dst, some (op (c.operand ptr mem dst c.buffer1 x) (c.operand ptr mem dst c.buffer2 x))),
    fun dst res => res.map fun y => (Function.update dst x y, some y)]

/-- `ffop_gcomp_post` on memory `mem`, of which it changes its destination only. -/
def compSections (buffs : Nat → Ffbuffer) :
    Sections CompCall Nat Nat (Nat → α) (Option α) where
  memOf c := ptr c.buffer3
  lockOf c := if isOptSet c.options ffcompDestAtomic = true then some c.buffer3 else none
  locals _ := none
  steps c := (List.range (c.size buffs)).flatMap (c.element ptr op mem)

/-- The elements `xs`, without interruption. -/
theorem runSteps_elements (c : CompCall) (xs : List Nat) (hnd : xs.Nodup) (dst : Nat → α)
    (res : Option α) : ∃ res', runSteps (xs.flatMap (c.element ptr op mem)) dst res =
      some (fun x => if x ∈ xs then op (c.operand ptr mem dst c.buffer1 x)
        (c.operand ptr mem dst c.buffer2 x) else dst x, res') := by
  induction xs generalizing dst res with
  | nil => exact ⟨res, by simp [runSteps]⟩
  | cons x xs ih =>
      obtain ⟨hx, hnd⟩ := List.nodup_cons.mp hnd
      obtain ⟨res', hres⟩ := ih hnd
        (Function.update dst x (op (c.operand ptr mem dst c.buffer1 x)
          (c.operand ptr mem dst c.buffer2 x)))
        (some (op (c.operand ptr mem dst c.buffer1 x) (c.operand ptr mem dst c.buffer2 x)))
      refine ⟨res', ?_⟩
      simp only [List.flatMap_cons, CompCall.element, List.cons_append, List.nil_append, runSteps,
        Option.bind_some, Option.map_some]
      refine hres.trans (congrArg some (Prod.ext (funext fun y => ?_) rfl))
      by_cases hy : y = x
      · subst hy
        simp [hx]
      · simp [hy, CompCall.operand]

/-- Without interruption this is `ffop_gcomp_post` of the network. -/
theorem compSections_call (c : CompCall) (operator : Int) (ops : Int → α → α → α)
    (E : RankEnv α) : ∃ res,
      (compSections ptr (opFun ops operator) E.mem E.buffs).call c
        (E.mem (ptr c.buffer3)) =
      some ((E.gcompAt ops ptr c.buffer1 c.buffer2 c.buffer3 operator).mem (ptr c.buffer3),
        res) := by
  obtain ⟨res, hres⟩ := runSteps_elements ptr (opFun ops operator) E.mem c
    (List.range (c.size E.buffs)) List.nodup_range (E.mem (ptr c.buffer3)) none
  refine ⟨res, hres.trans (congrArg some (Prod.ext (funext fun x => ?_) rfl))⟩
  have hself : ∀ b, c.operand ptr E.mem (E.mem (ptr c.buffer3)) b x = E.mem (ptr b) x := by
    intro b
    simp only [CompCall.operand]
    split
    · next h => rw [h]
    · rfl
  simp [hself, RankEnv.gcompAt, CompCall.size]

end Steps

/-! ### Accumulations -/

section Programs

variable {n : Nat} (buffs : Nat → Ffbuffer) (ptr : Nat → Nat) (prog : Fin n → List CompCall)

/-- Every computation of the threads adds a source that nobody writes to its destination. -/
structure Accumulates : Prop where
  nonempty : ∀ t c, c ∈ prog t → 0 < c.size buffs
  second : ∀ t c, c ∈ prog t → ptr c.buffer2 = ptr c.buffer3
  source : ∀ t c t' c', c ∈ prog t → c' ∈ prog t' → ptr c.buffer1 ≠ ptr c'.buffer3

/-- What is accumulated in element `x` of the memory at `p`. -/
def accumulated {α : Type} (op : α → α → α) (mem : Nat → Nat → α) (p x : Nat)
    (cs : List CompCall) : α :=
  (cs.filter fun c => decide (ptr c.buffer3 = p)).foldl
    (fun a c => if x < c.size buffs then op (mem (ptr c.buffer1) x) a else a) (mem p x)

/-- When all calls have been made, the memory at `p` has all contributions, for every
operator for which their order does not matter. -/
def NoneLost (p : Nat) : Prop :=
  ∀ (α : Type) (op : α → α → α), (∀ a b c, op a (op b c) = op b (op a c)) →
    ∀ (mem : Nat → Nat → α) (w : LockState (Fin n) CompCall Nat Nat (Nat → α) (Option α)),
      Reachable (lockStep (compSections ptr op mem buffs)) (LockState.init mem prog) w →
      w.Done → ∀ x, w.shared p x = accumulated buffs ptr op mem p x ((List.finRange n).flatMap prog)

/-- Computations of different threads on the memory at `p` hold the lock of one buffer. -/
def SameLock (p : Nat) : Prop :=
  ∀ t t', t ≠ t' → ∀ c c', c ∈ prog t → c' ∈ prog t' → ptr c.buffer3 = p → ptr c'.buffer3 = p →
    c.buffer3 = c'.buffer3 ∧ isOptSet c.options ffcompDestAtomic = true ∧
      isOptSet c'.options ffcompDestAtomic = true

variable {buffs ptr prog} {α : Type} {op : α → α → α} {mem : Nat → Nat → α} {p : Nat}

variable (op mem) in
/-- A whole call of an accumulation. -/
theorem accumulate_call (hacc : Accumulates buffs ptr prog) {t : Fin n} {c : CompCall}
    (hc : c ∈ prog t) (dst : Nat → α) : ∃ res,
      (compSections ptr op mem buffs).call c dst =
        some (fun x => if x < c.size buffs then op (mem (ptr c.buffer1) x) (dst x) else dst x,
          res) := by
  obtain ⟨res, hres⟩ := runSteps_elements ptr op mem c (List.range (c.size buffs))
    List.nodup_range dst none
  refine ⟨res, hres.trans ?_⟩
  simp [CompCall.operand, hacc.second t c hc, hacc.source t c t c hc hc]

theorem guarded_iff :
    Library.Guarded (compSections ptr op mem buffs) prog p ↔ SameLock ptr prog p := by
  have hlock : ∀ c c' : CompCall, (∃ l, (compSections ptr op mem buffs).lockOf c = some l ∧
      (compSections ptr op mem buffs).lockOf c' = some l) ↔ c.buffer3 = c'.buffer3 ∧
        isOptSet c.options ffcompDestAtomic = true ∧
        isOptSet c'.options ffcompDestAtomic = true := by
    intro c c'
    simp only [compSections, Option.ite_none_right_eq_some, Option.some.injEq]
    constructor
    · rintro ⟨l, ⟨hc, rfl⟩, hc', heq⟩
      exact ⟨heq.symm, hc, hc'⟩
    · rintro ⟨heq, hc, hc'⟩
      exact ⟨_, ⟨hc, rfl⟩, hc', heq.symm⟩
  simp only [Library.Guarded, SameLock, hlock]
  rfl

/-- What the calls in the log have accumulated. -/
theorem accumulated_of_replay (hacc : Accumulates buffs ptr prog)
    {es : List (Ended (Fin n) CompCall (Option α))} {dst : Nat → α}
    (hr : Replay (compSections ptr op mem buffs) (mem p) es dst)
    (hes : ∀ e, e ∈ es → e.call ∈ prog e.thread) (x : Nat) :
    dst x = (es.map Ended.call).foldl
      (fun a c => if x < c.size buffs then op (mem (ptr c.buffer1) x) a else a) (mem p x) := by
  induction hr with
  | nil => rfl
  | @snoc es dst dst' e hr hcall ih =>
      have hold := ih fun e he => hes e (List.mem_append_left _ he)
      obtain ⟨res, hres⟩ := accumulate_call op mem hacc
        (hes e (List.mem_append_right _ (List.mem_singleton_self e))) dst
      obtain ⟨rfl, -⟩ := Prod.mk.inj (Option.some.inj (hres.symm.trans hcall))
      simp only [List.map_append, List.map_cons, List.map_nil, List.foldl_append, List.foldl_cons,
        List.foldl_nil, ← hold]

/-- At the end the log has the computations on `p` of all threads. -/
theorem logAt_perm {w : LockState (Fin n) CompCall Nat Nat (Nat → α) (Option α)}
    (hw : Reachable (lockStep (compSections ptr op mem buffs)) (LockState.init mem prog) w)
    (hd : w.Done) :
    (((compSections ptr op mem buffs).logAt p w.log).map Ended.call).Perm
      (((List.finRange n).flatMap prog).filter fun c => decide (ptr c.buffer3 = p)) := by
  have hfilter : ((compSections ptr op mem buffs).logAt p w.log).map Ended.call =
      (w.log.map Ended.call).filter fun c => decide (ptr c.buffer3 = p) := by
    rw [List.filter_map]
    rfl
  rw [hfilter]
  exact (log_perm (ordered_of_reachable hw) hd).filter _

/-- Calls that exclude each other lose nothing. -/
theorem noneLost_of_sameLock (hacc : Accumulates buffs ptr prog) (hlock : SameLock ptr prog p) :
    NoneLost buffs ptr prog p := by
  intro α op hop mem w hw hd x
  obtain ⟨dst, hat⟩ := atomicAt_of_guarded (guarded_iff.mpr hlock) hw
  have hdst : w.shared p = dst := by
    refine hat.free fun t f hf => ?_
    rw [(hd t).1] at hf
    cases hf
  have ho := ordered_of_reachable hw
  rw [hdst, accumulated_of_replay hacc hat.replay
    (fun e he => ho.mem_log (List.mem_filter.mp he).1) x]
  have hcomm : RightCommutative fun (a : α) (c : CompCall) =>
      if x < c.size buffs then op (mem (ptr c.buffer1) x) a else a := by
    refine ⟨fun a c c' => ?_⟩
    split <;> split <;> first | rfl | exact hop ..
  exact (logAt_perm hw hd).foldl_eq _

/-! ### A lost contribution -/

/-- Every source is 1. -/
def ones (p q _x : Nat) : Nat := if q = p then 0 else 1

/-- The first element at `p` is the number of contributions but for `d` that are lost. -/
structure Counted (buffs : Nat → Ffbuffer) (ptr : Nat → Nat) (prog : Fin n → List CompCall)
    (p d : Nat) (w : LockState (Fin n) CompCall Nat Nat (Nat → Nat) (Option Nat)) : Prop where
  todo : ∀ t c, c ∈ w.todo t → c ∈ prog t
  count : w.shared p 0 + d =
    ((compSections ptr (· + ·) (ones p) buffs).logAt p w.log).length

/-- A whole call is counted. -/
theorem Counted.call {d : Nat} (hacc : Accumulates buffs ptr prog)
    (w : LockState (Fin n) CompCall Nat Nat (Nat → Nat) (Option Nat)) (t : Fin n)
    (c : CompCall) (cs : List CompCall) (h : Counted buffs ptr prog p d w)
    (htodo : w.todo t = c :: cs) : ∃ r,
      (compSections ptr (· + ·) (ones p) buffs).call c (w.shared (ptr c.buffer3)) = some r ∧
      Counted buffs ptr prog p d { w with
        shared := Function.update w.shared (ptr c.buffer3) r.1
        todo := Function.update w.todo t cs
        log := w.log ++ [⟨t, c, r.2⟩] } := by
  have hc : c ∈ prog t := h.todo t c (by rw [htodo]; exact List.mem_cons_self ..)
  obtain ⟨res, hres⟩ := accumulate_call (· + ·) (ones p) hacc hc
    (w.shared (ptr c.buffer3))
  refine ⟨_, hres, fun u b hb => ?_, ?_⟩
  · by_cases hut : u = t
    · subst hut
      have hb : b ∈ cs := by simpa only [Function.update_self] using hb
      exact h.todo u b (by rw [htodo]; exact List.mem_cons_of_mem _ hb)
    · exact h.todo u b (by simpa only [Function.update_of_ne hut] using hb)
  · by_cases hp : ptr c.buffer3 = p
    · have hone : ones p (ptr c.buffer1) 0 = 1 :=
        if_neg fun heq => hacc.source t c t c hc hc (heq.trans hp.symm)
      have hcount := h.count
      simp only [Sections.logAt] at hcount ⊢
      simp only [hp, Function.update_self, if_pos (hacc.nonempty t c hc), hone,
        List.filter_append, List.length_append]
      simp [compSections, hp] at hcount ⊢
      omega
    · have hcount := h.count
      simp only [Sections.logAt] at hcount ⊢
      simp only [Function.update_of_ne (Ne.symm hp), List.filter_append, List.length_append, hcount]
      simp [compSections, hp]

/-- All contributions to `p`. -/
theorem accumulated_ones (cs : List CompCall)
    (hcs : ∀ c, c ∈ cs → ptr c.buffer3 = p → 0 < c.size buffs ∧ ptr c.buffer1 ≠ p) :
    accumulated buffs ptr (· + ·) (ones p) p 0 cs =
      (cs.filter fun c => decide (ptr c.buffer3 = p)).length := by
  have hfold : ∀ (as : List CompCall) (a : Nat),
      (∀ c, c ∈ as → 0 < c.size buffs ∧ ptr c.buffer1 ≠ p) →
      as.foldl (fun a c => if 0 < c.size buffs then ones p (ptr c.buffer1) 0 + a else a) a =
        a + as.length := by
    intro as
    induction as with
    | nil => exact fun a _ => rfl
    | cons b as ih =>
        intro a has
        obtain ⟨hpos, hsrc⟩ := has b (List.mem_cons_self ..)
        have hone : ones p (ptr b.buffer1) 0 = 1 := if_neg hsrc
        rw [List.foldl_cons, if_pos hpos, ih _ fun c hc => has c (List.mem_cons_of_mem _ hc),
          hone, List.length_cons]
        omega
  have hzero : ones p p 0 = 0 := if_pos rfl
  rw [accumulated, hfold _ _ fun c hc => ?_, hzero, Nat.zero_add]
  obtain ⟨hmem, hp⟩ := List.mem_filter.mp hc
  exact hcs c hmem (of_decide_eq_true hp)

/-- `t` reads, `t'` adds, and `t` overwrites. -/
theorem Counted.lose (hacc : Accumulates buffs ptr prog)
    {w : LockState (Fin n) CompCall Nat Nat (Nat → Nat) (Option Nat)}
    (h : Counted buffs ptr prog p 0 w) (hidle : w.Idle) {t t' : Fin n} (hne : t ≠ t')
    {c c' : CompCall} {cs cs' : List CompCall} (htodo : w.todo t = c :: cs)
    (htodo' : w.todo t' = c' :: cs') (hp : ptr c.buffer3 = p) (hp' : ptr c'.buffer3 = p)
    (hlock : ∀ k, (compSections ptr (· + ·) (ones p) buffs).lockOf c = some k →
      (compSections ptr (· + ·) (ones p) buffs).lockOf c' ≠ some k) :
    ∃ as w', run (lockStep (compSections ptr (· + ·) (ones p) buffs)) w as = some w' ∧
      w'.Idle ∧ Counted buffs ptr prog p 1 w' := by
  have hc : c ∈ prog t := h.todo t c (by rw [htodo]; exact List.mem_cons_self ..)
  have hc' : c' ∈ prog t' := h.todo t' c' (by rw [htodo']; exact List.mem_cons_self ..)
  obtain ⟨k, hk⟩ := Nat.exists_eq_succ_of_ne_zero (hacc.nonempty t c hc).ne'
  have hsteps : (compSections ptr (· + ·) (ones p) buffs).steps c =
      (fun dst _ => some (dst, some (c.operand ptr (ones p) dst c.buffer1 0 +
        c.operand ptr (ones p) dst c.buffer2 0))) ::
      (fun dst res => res.map fun y => (Function.update dst 0 y, some y)) ::
      ((List.range k).map Nat.succ).flatMap (c.element ptr (· + ·) (ones p)) := by
    simp only [compSections, hk, List.range_succ_eq_map]
    rfl
  have hsum : c.operand ptr (ones p) (w.shared p) c.buffer1 0 +
      c.operand ptr (ones p) (w.shared p) c.buffer2 0 = 1 + w.shared p 0 := by
    have hsrc : ptr c.buffer1 ≠ ptr c.buffer3 := hacc.source t c t c hc hc
    simp only [CompCall.operand, if_neg hsrc, if_pos (hacc.second t c hc)]
    rw [ones, if_neg (fun heq => hsrc (heq.trans hp.symm))]
  obtain ⟨res', hres'⟩ := accumulate_call (· + ·) (ones p) hacc hc' (w.shared p)
  obtain ⟨res, hres⟩ := runSteps_elements ptr (· + ·) (ones p) c ((List.range k).map Nat.succ)
    (List.nodup_range.map Nat.succ_injective)
    (Function.update (fun x => if x < c'.size buffs then
      ones p (ptr c'.buffer1) x + w.shared p x else w.shared p x) 0 (1 + w.shared p 0))
    (some (1 + w.shared p 0))
  obtain ⟨as, w', hrun, hidle', hshared, htodo'', hlog⟩ := exists_run_between hne hidle htodo htodo'
    hp hp' hlock hsteps (congrArg (fun v => some (w.shared p, some v)) hsum) hres' hres
  refine ⟨as, w', hrun, hidle', fun u b hb => ?_, ?_⟩
  · rw [htodo''] at hb
    by_cases hu' : u = t'
    · subst hu'
      exact h.todo u b (by rw [htodo']; exact List.mem_cons_of_mem _ (by simpa using hb))
    · rw [Function.update_of_ne hu'] at hb
      by_cases hu : u = t
      · subst hu
        exact h.todo u b (by rw [htodo]; exact List.mem_cons_of_mem _ (by simpa using hb))
      · exact h.todo u b (by rwa [Function.update_of_ne hu] at hb)
  · have hcount := h.count
    have htwo : ((compSections ptr (· + ·) (ones p) buffs).logAt p w'.log).length =
        ((compSections ptr (· + ·) (ones p) buffs).logAt p w.log).length + 2 := by
      simp [hlog, Sections.logAt, compSections, hp, hp']
    have hlast : w'.shared p 0 = 1 + w.shared p 0 := by
      rw [hshared, Function.update_self]
      simp
    omega

/-- Otherwise the sum of ones comes out too small. -/
theorem sameLock_of_noneLost (hacc : Accumulates buffs ptr prog) (h : NoneLost buffs ptr prog p) :
    SameLock ptr prog p := by
  have hguard : Library.Guarded (compSections ptr (· + ·) (ones p) buffs) prog p := by
    intro t t' hne c c' hc hc' hp hp'
    by_contra hlock
    obtain ⟨bs, cs, hprog⟩ := List.append_of_mem hc
    obtain ⟨bs', cs', hprog'⟩ := List.append_of_mem hc'
    have hinit : Counted buffs ptr prog p 0 (LockState.init (ones p) prog) :=
      ⟨fun _ _ hc => hc, if_pos rfl⟩
    -- the two threads come to their calls
    obtain ⟨as₁, w₁, hrun₁, h₁, hidle₁, htodo₁⟩ := exists_run_calls (Counted.call hacc) bs hinit
      ⟨fun _ => rfl, fun _ => rfl⟩ hprog
    obtain ⟨as₂, w₂, hrun₂, h₂, hidle₂, htodo₂⟩ := exists_run_calls (t := t') (Counted.call hacc)
      bs' h₁ hidle₁ (by rw [htodo₁, Function.update_of_ne hne.symm]; exact hprog')
    -- one of the two contributions is lost
    obtain ⟨as₃, w₃, hrun₃, hidle₃, h₃⟩ := Counted.lose hacc h₂ hidle₂ hne
      (by rw [htodo₂, Function.update_of_ne hne, htodo₁, Function.update_self])
      (by rw [htodo₂, Function.update_self]) hp hp' (fun k hk hk' => hlock ⟨k, hk, hk'⟩)
    obtain ⟨as₄, w₄, hrun₄, h₄, hdone⟩ := exists_run_done (Counted.call hacc) h₃ hidle₃
    have hw : Reachable (lockStep (compSections ptr (· + ·) (ones p) buffs))
        (LockState.init (ones p) prog) w₄ :=
      ⟨as₁ ++ (as₂ ++ (as₃ ++ as₄)), run_append_eq_some.mpr ⟨_, hrun₁, run_append_eq_some.mpr
        ⟨_, hrun₂, run_append_eq_some.mpr ⟨_, hrun₃, hrun₄⟩⟩⟩⟩
    have hall := h Nat (· + ·) (fun a b c => Nat.add_left_comm a b c) (ones p) w₄ hw hdone 0
    rw [accumulated_ones _ fun c hc hp => ?_, ← (logAt_perm hw hdone).length_eq,
      List.length_map] at hall
    · have hcount := h₄.count
      omega
    · obtain ⟨t, -, hc⟩ := List.mem_flatMap.mp hc
      exact ⟨hacc.nonempty t c hc, fun heq => hacc.source t c t c hc hc (heq.trans hp.symm)⟩
  exact guarded_iff.mp hguard

/-- **No lost contribution** of concurrent computations. -/
theorem comp_none_lost_iff (hacc : Accumulates buffs ptr prog) (p : Nat) :
    NoneLost buffs ptr prog p ↔ SameLock ptr prog p :=
  ⟨sameLock_of_noneLost hacc, noneLost_of_sameLock hacc⟩

/-- Two threads that add buffers 0 and 1 to buffer 2; and to buffers 2 and 3 at one address. -/
theorem comp_none_lost_iff_two :
    NoneLost (fun _ => ⟨1, 0⟩) id (fun t : Fin 2 => [⟨t.val, 2, 2, ffcompDestAtomic⟩]) 2 ∧
      ¬ NoneLost (fun _ => ⟨1, 0⟩) (fun b => min b 2)
        (fun t : Fin 2 => [⟨t.val, t.val + 2, t.val + 2, ffcompDestAtomic⟩]) 2 := by
  constructor
  · refine (comp_none_lost_iff ⟨?_, ?_, ?_⟩ 2).mpr ?_
    · simp [CompCall.size, RankEnv.gcompCount]
    · simp
    · simp
    · intro t t' _ c c' hc hc' _ _
      obtain rfl := List.mem_singleton.mp hc
      obtain rfl := List.mem_singleton.mp hc'
      have hopt : isOptSet ffcompDestAtomic ffcompDestAtomic = true := by decide
      exact ⟨rfl, hopt, hopt⟩
  · refine fun h => ?_
    have hlock := (comp_none_lost_iff ⟨?_, ?_, ?_⟩ 2).mp h 0 1 (by decide) _ _
      (List.mem_singleton_self _) (List.mem_singleton_self _) (by decide) (by decide)
    · exact absurd hlock.1 (by decide)
    · simp [CompCall.size, RankEnv.gcompCount]
    · simp
    · intro t c t' c' hc hc'
      obtain rfl := List.mem_singleton.mp hc
      obtain rfl := List.mem_singleton.mp hc'
      have ht := t.isLt
      show min t.val 2 ≠ min (t'.val + 2) 2
      omega

end Programs

end Fflib
