import Fflib.Posts

/-!
# The first run of a graph

The user posts every source of a graph once, in any order, and the library does the rest
(`firstRunStep`).

* `FrameMove.life_post`, `life_complete` and `life_loop` say what a frame does to the calls
  of `ffop_post` that are due and to the operations that are under way.
* `FirstRunInv` is the invariant of a graph in which all operations wait for all
  predecessors.
* `nonPersistent_iff`: each operation is posted exactly once iff no non-persistent operation
  is the last predecessor of a dependent to complete.
-/

namespace Fflib

open Library

universe u

/-- One step of a process whose user posts each source of the graph once. -/
def firstRunStep {σ : Type u} (impl : Impl σ) (l₀ l : Lib) (x : System σ) :
    UserAct σ → Option (System σ)
  | .post op =>
      if (l.ops op).inDepCount = 0 ∧ .posting op ∉ x.proc.log ∧ .post op ∉ x.proc.frames then
        userStep impl (graphVerts l₀ l) x (.post op)
      else none
  | act => userStep impl (graphVerts l₀ l) x act

/-! ### The life of an operation -/

/-- Calls of `ffop_post` that have not begun. -/
def Proc.due (p : Proc) (v : Nat) : Nat := p.frames.count (.post v)

/-- Posts of `v` that wait for the progress thread or for `ffop_complete`. -/
def Proc.busy (p : Proc) (v : Nat) : Nat := p.pending.count v + p.frames.count (.complete v)

section Life

variable {σ : Type u} {impl : Impl σ} {t : Thread} {e e' : σ} {p p' : Proc} {fs : List Frame}

theorem version_logPosting (p : Proc) (x v : Nat) :
    ((p.logPosting x).ops v).version = (p.ops v).version :=
  Proc.logPosting_ops_of Ffop.version (fun _ => rfl) p x v

/-- `ffop_post` begins. -/
theorem FrameMove.life_post {x : Nat} (hs : p.stack t = .post x :: fs)
    (hok : (p.ops x).version = 0 ∨ isOptSet (p.ops x).options ffopNonPersistent = false)
    (h : FrameMove impl t e p fs (.post x) e' p') :
    p'.log = p.log ++ [.posting x] ∧
      (∀ v, p'.due v + (if v = x then 1 else 0) = p.due v) ∧
      (∀ v, p'.busy v ≤ p.busy v + if v = x then 1 else 0) ∧
      ∀ v, (p'.ops v).version = (p.ops v).version := by
  have hdue : ∀ (q : Proc) (r : List Frame), q.user = p.user → q.prog = p.prog →
      (∀ v, r.count (.post v) = 0) →
      ∀ v, (q.setStack (r ++ fs) t).due v + (if v = x then 1 else 0) = p.due v := by
    intro q r hu hp hr v
    have := Proc.count_frames_setStack (r := r) hs hu hp (.post v)
    simpa only [Proc.due, hr v, Nat.add_zero, Frame.post.injEq, eq_comm] using this
  have hbusy : ∀ (q : Proc) (r : List Frame), q.user = p.user → q.prog = p.prog →
      (∀ v, q.pending.count v + r.count (.complete v) ≤
        p.pending.count v + if v = x then 1 else 0) →
      ∀ v, (q.setStack (r ++ fs) t).busy v ≤ p.busy v + if v = x then 1 else 0 := by
    intro q r hu hp hr v
    have hcount := Proc.count_frames_setStack (r := r) hs hu hp (.complete v)
    have := hr v
    rw [if_neg (by simp), Nat.add_zero] at hcount
    simp only [Proc.busy, Proc.setStack_pending, hcount]
    omega
  cases h with
  | refused hv ho =>
      rcases hok with hz | hf
      · omega
      · rw [ho] at hf
        cases hf
  | pending hr =>
      refine ⟨by simp [Proc.addPending, Proc.logPosting],
        hdue ((p.logPosting x).addPending x) [] rfl rfl (fun _ => rfl),
        hbusy ((p.logPosting x).addPending x) [] rfl rfl (fun v => ?_), fun v => ?_⟩
      · by_cases hv : v = x
        · simp [hv]
        · simp [hv, Ne.symm hv]
      · rw [Proc.setStack_ops]
        exact version_logPosting p x v
  | posted hr =>
      refine ⟨by simp [Proc.logPosting],
        hdue (p.logPosting x) [.complete x] rfl rfl (fun _ => by simp),
        hbusy (p.logPosting x) [.complete x] rfl rfl (fun v => ?_), fun v => ?_⟩
      · by_cases hv : v = x
        · simp [hv]
        · simp [hv, Ne.symm hv]
      · rw [Proc.setStack_ops]
        exact version_logPosting p x v
  | failed hr hne =>
      refine ⟨by simp [Proc.logPosting],
        hdue (p.logPosting x) [] rfl rfl (fun _ => rfl),
        hbusy (p.logPosting x) [] rfl rfl (fun v => ?_), fun v => ?_⟩
      · simp
      · rw [Proc.setStack_ops]
        exact version_logPosting p x v

/-- `ffop_complete` begins. -/
theorem FrameMove.life_complete {x : Nat} (hs : p.stack t = .complete x :: fs)
    (h : FrameMove impl t e p fs (.complete x) e' p') :
    p'.log = p.log ++ [.completing x] ∧ (∀ v, p'.due v = p.due v) ∧
      (∀ v, p'.busy v + (if v = x then 1 else 0) = p.busy v) ∧
      ∀ v, (p'.ops v).version =
        if v = x then ((p.ops v).version + 1) % 2 ^ 32 else (p.ops v).version := by
  cases h
  have hcount := Proc.count_frames_setStack (q := p.logCompleting x) (r := [.loop x 0]) hs rfl rfl
  refine ⟨by simp [Proc.logCompleting], fun v => ?_, fun v => ?_, fun v => ?_⟩
  · simpa [Proc.due] using hcount (.post v)
  · have := hcount (.complete v)
    simp only [List.count_singleton, beq_iff_eq, reduceCtorEq, if_false, Nat.add_zero,
      Frame.complete.injEq, List.singleton_append] at this
    simp only [Proc.busy, Proc.setStack_pending, Proc.logCompleting_pending, ← this, eq_comm]
    omega
  · by_cases hv : v = x
    · subst hv
      simp [Proc.logCompleting]
    · simp [Proc.logCompleting, hv]

theorem version_decrDep (p : Proc) (x i v : Nat) :
    ((p.decrDep x i).ops v).version = (p.ops v).version :=
  Proc.setOp_ops_of Ffop.version (fun _ => by rfl) p _ v

/-- An iteration of the loop of `ffop_complete`. -/
theorem FrameMove.life_loop {x i : Nat} (hs : p.stack t = .loop x i :: fs)
    (h : FrameMove impl t e p fs (.loop x i) e' p') :
    p'.log = p.log ∧
      (∀ v, p'.due v = p.due v + if (i < (p.ops x).outDepCount ∧ p.Triggers x i) ∧
        v = (p.ops x).dependent i then 1 else 0) ∧
      (∀ v, p'.busy v = p.busy v) ∧ ∀ v, (p'.ops v).version = (p.ops v).version := by
  have hbusy : ∀ (q : Proc) (r : List Frame), q.user = p.user → q.prog = p.prog →
      q.pending = p.pending → (∀ v, r.count (.complete v) = 0) →
      ∀ v, (q.setStack (r ++ fs) t).busy v = p.busy v := by
    intro q r hu hp hpend hr v
    have hcount := Proc.count_frames_setStack (r := r) hs hu hp (.complete v)
    rw [hr v, if_neg (by simp), Nat.add_zero, Nat.add_zero] at hcount
    simp only [Proc.busy, Proc.setStack_pending, hcount, hpend]
  have hdue : ∀ (q : Proc) (r : List Frame), q.user = p.user → q.prog = p.prog →
      ∀ v, (q.setStack (r ++ fs) t).due v = p.due v + r.count (.post v) := by
    intro q r hu hp v
    have hcount := Proc.count_frames_setStack (r := r) hs hu hp (.post v)
    rw [if_neg (by simp), Nat.add_zero] at hcount
    exact hcount
  cases h with
  | trigger hi ht =>
      refine ⟨by simp [Proc.decrDep], fun v => ?_,
        hbusy (p.decrDep x i) [.post _, .loop x (i + 1)] rfl rfl rfl (fun _ => by simp),
        fun v => ?_⟩
      · have hv := hdue (p.decrDep x i) [.post ((p.ops x).dependent i), .loop x (i + 1)] rfl rfl v
        simp only [List.count_cons, List.count_nil, beq_iff_eq, reduceCtorEq, if_false,
          Frame.post.injEq, Nat.zero_add, List.cons_append, List.nil_append] at hv
        rw [hv]
        simp only [hi, ht, and_self, true_and, eq_comm]
      · rw [Proc.setStack_ops]
        exact version_decrDep p x i v
  | announce hi ht =>
      refine ⟨by simp [Proc.decrDep], fun v => ?_,
        hbusy (p.decrDep x i) [.loop x (i + 1)] rfl rfl rfl (fun _ => by simp), fun v => ?_⟩
      · have hv := hdue (p.decrDep x i) [.loop x (i + 1)] rfl rfl v
        simpa [ht] using hv
      · rw [Proc.setStack_ops]
        exact version_decrDep p x i v
  | done hi =>
      refine ⟨by simp, fun v => ?_, hbusy p [] rfl rfl rfl (fun _ => rfl), fun v => by simp⟩
      have hv := hdue p [] rfl rfl v
      rw [if_neg (by omega)]
      exact hv

/-- Where the loops of `ffop_complete` come from. -/
theorem FrameMove.loop_mem {f : Frame} {u j : Nat} (hs : p.stack t = f :: fs)
    (h : FrameMove impl t e p fs f e' p') (hf : .loop u j ∈ p'.frames) :
    .loop u j ∈ p.frames ∨ f = .complete u ∨ ∃ i, f = .loop u i := by
  cases h with
  | refused hv ho =>
      rcases Proc.mem_frames_setStack (q := p) (r := []) hs rfl rfl hf with hg | hg
      · simp at hg
      · exact Or.inl hg
  | @pending x _ hr =>
      rcases Proc.mem_frames_setStack (q := (p.logPosting x).addPending x) (r := []) hs rfl rfl hf
        with hg | hg
      · simp at hg
      · exact Or.inl hg
  | @posted x _ hr =>
      rcases Proc.mem_frames_setStack (q := p.logPosting x) (r := [.complete x]) hs rfl rfl hf
        with hg | hg
      · simp at hg
      · exact Or.inl hg
  | @failed x _ _ hr hne =>
      rcases Proc.mem_frames_setStack (q := p.logPosting x) (r := []) hs rfl rfl hf with hg | hg
      · simp at hg
      · exact Or.inl hg
  | @complete x =>
      rcases Proc.mem_frames_setStack (q := p.logCompleting x) (r := [.loop x 0]) hs rfl rfl hf
        with hg | hg
      · obtain ⟨rfl, _⟩ := Frame.loop.inj (List.mem_singleton.mp hg)
        exact Or.inr (Or.inl rfl)
      · exact Or.inl hg
  | @trigger x i hi ht =>
      rcases Proc.mem_frames_setStack (q := p.decrDep x i)
        (r := [.post _, .loop x (i + 1)]) hs rfl rfl hf with hg | hg
      · rcases List.mem_cons.mp hg with hg | hg
        · cases hg
        · obtain ⟨rfl, _⟩ := Frame.loop.inj (List.mem_singleton.mp hg)
          exact Or.inr (Or.inr ⟨i, rfl⟩)
      · exact Or.inl hg
  | @announce x i hi ht =>
      rcases Proc.mem_frames_setStack (q := p.decrDep x i) (r := [.loop x (i + 1)]) hs rfl rfl hf
        with hg | hg
      · obtain ⟨rfl, _⟩ := Frame.loop.inj (List.mem_singleton.mp hg)
        exact Or.inr (Or.inr ⟨i, rfl⟩)
      · exact Or.inl hg
  | done hi =>
      rcases Proc.mem_frames_setStack (q := p) (r := []) hs rfl rfl hf with hg | hg
      · simp at hg
      · exact Or.inl hg

theorem count_event_snoc (log : List Event) (a b : Event) :
    (log ++ [a]).count b = log.count b + if b = a then 1 else 0 := by
  rw [List.count_append]
  by_cases hab : b = a
  · simp [hab]
  · simp [hab, Ne.symm hab]

end Life

/-! ### All operations wait for all predecessors -/

/-- In the first run every operation is posted and completed at most once, and only after
all announcements to it have been made. -/
structure FirstRunInv (l₀ l : Lib) (p : Proc) : Prop where
  user : UserInv (graphVerts l₀ l) l.ops p
  law : BalancedOn (graphVerts l₀ l) (edgeMult l.ops) (graphVerts l₀ l) (p.tally l.ops)
  posts_le : ∀ v, p.log.count (.posting v) + p.due v ≤ 1
  busy_le : ∀ v, p.busy v + p.log.count (.completing v) ≤ p.log.count (.posting v)
  seen : ∀ v ∈ graphVerts l₀ l, 0 < p.log.count (.posting v) + p.due v →
    (∀ u ∈ graphVerts l₀ l, l.HasEdge u v → .completing u ∈ p.log) ∧ p.announcements l.ops v = 0
  version_eq : ∀ v ∈ graphVerts l₀ l, (p.ops v).version = p.log.count (.completing v)
  loops : ∀ u j, .loop u j ∈ p.frames → .completing u ∈ p.log

section Announce

variable {ops : Nat → Ffop} {cap : Nat} {l₀ l : Lib} {cs : List BuildCall} {p : Proc} {d : Nat}

theorem announces_le (ops : Nat → Ffop) (d : Nat) (f : Frame) :
    f.announces ops d ≤ edgeMult ops f.op d := by
  cases f with
  | post x => exact Nat.zero_le _
  | complete x => exact Nat.zero_le _
  | loop x i =>
      refine Finset.card_le_card (Finset.filter_subset_filter _ (fun j hj => ?_))
      exact Finset.mem_range.mpr (Finset.mem_Ico.mp hj).2

/-- Nothing is announced to a source. -/
theorem GraphBuilt.announcements_source (h : GraphBuilt cap l₀ cs l)
    (hp : UserInv (graphVerts l₀ l) l.ops p) (hd : d ∈ graphVerts l₀ l)
    (hin : (l.ops d).inDepCount = 0) : p.announcements l.ops d = 0 := by
  rw [h.inDepCount_eq hd, inDegree, Finset.sum_eq_zero_iff] at hin
  refine List.sum_eq_zero (fun n hn => ?_)
  obtain ⟨f, hf, rfl⟩ := List.mem_map.mp hn
  have := announces_le l.ops d f
  have := hin f.op (hp.frames_mem f hf)
  omega

theorem GraphBuilt.no_edge_source (h : GraphBuilt cap l₀ cs l) (hd : d ∈ graphVerts l₀ l)
    (hin : (l.ops d).inDepCount = 0) {u : Nat} (hu : u ∈ graphVerts l₀ l) :
    ¬ l.HasEdge u d := by
  rw [h.inDepCount_eq hd, inDegree, Finset.sum_eq_zero_iff] at hin
  intro he
  exact edgeMult_ne_zero_iff.mpr he (hin u hu)

end Announce

section FirstRun

variable {σ : Type u} {impl : Impl σ} {cap : Nat} {l₀ l : Lib} {cs : List BuildCall}
  {x x' : System σ} {t : Thread} {e e' : σ} {p p' : Proc} {fs : List Frame} {op i : Nat}

theorem firstRunInv_init (h : GraphBuilt cap l₀ cs l) : FirstRunInv l₀ l (Proc.init l.ops) where
  user := UserInv.init _ _
  law := depLeftLaw_iff.mp (depLeftLaw_init h)
  posts_le v := by simp [Proc.init, Proc.due, Proc.frames]
  busy_le v := by simp [Proc.init, Proc.busy, Proc.frames]
  seen v _ hpos := by simp [Proc.init, Proc.due, Proc.frames] at hpos
  version_eq v hv := h.version_eq hv
  loops u j hf := by simp [Proc.init, Proc.frames] at hf

/-- A post is due when `ffop_post` is called. -/
theorem life_call (hu : p.user = []) (op : Nat) :
    (∀ v, Proc.due { p with user := [.post op] } v = p.due v + if v = op then 1 else 0) ∧
      ∀ v, Proc.busy { p with user := [.post op] } v = p.busy v := by
  refine ⟨fun v => ?_, fun v => by simp [Proc.busy, Proc.frames, hu]⟩
  by_cases hv : v = op
  · simp [Proc.due, Proc.frames, hu, hv, Nat.add_comm]
  · simp [Proc.due, Proc.frames, hu, hv, Ne.symm hv]

/-- An operation stays under way when the progress thread takes it up. -/
theorem life_progress (hp : p.prog = []) (hop : op ∈ p.pending) :
    (∀ v, Proc.due { p with pending := p.pending.erase op, prog := [.complete op] } v =
        p.due v) ∧
      ∀ v, Proc.busy { p with pending := p.pending.erase op, prog := [.complete op] } v =
        p.busy v := by
  have hpos := List.count_pos_iff.mpr hop
  refine ⟨fun v => by simp [Proc.due, Proc.frames, hp], fun v => ?_⟩
  by_cases hv : v = op
  · subst hv
    simp only [Proc.busy, Proc.frames, hp, List.append_nil, List.count_append,
      List.count_erase_self, List.count_singleton_self]
    omega
  · simp [Proc.busy, Proc.frames, hp, Ne.symm hv, List.count_erase_of_ne hv]

theorem due_pos (hs : p.stack t = .post op :: fs) : 0 < p.due op :=
  List.count_pos_iff.mpr (Proc.top_mem_frames hs)

theorem busy_pos (hs : p.stack t = .complete op :: fs) : 0 < p.busy op := by
  have := List.count_pos_iff.mpr (Proc.top_mem_frames hs)
  rw [Proc.busy]
  omega

namespace FirstRunInv

variable (hI : FirstRunInv l₀ l p)
include hI

/-- An operation whose post is due has not completed. -/
theorem version_of_due (hop : op ∈ graphVerts l₀ l) (hdue : 0 < p.due op) :
    (p.ops op).version = 0 := by
  have := hI.posts_le op
  have := hI.busy_le op
  rw [hI.version_eq op hop]
  omega

/-- An operation that is under way has not completed. -/
theorem not_completed_of_busy (hbusy : 0 < p.busy op) : .completing op ∉ p.log := by
  have := hI.posts_le op
  have := hI.busy_le op
  intro hmem
  have := List.count_pos_iff.mpr hmem
  omega

/-- A dependent to which something is announced has not been posted. -/
theorem not_posted_of_announced (hop : op ∈ graphVerts l₀ l)
    (hann : 0 < p.announcements l.ops op) : p.log.count (.posting op) + p.due op = 0 := by
  by_contra hne
  have := (hI.seen op hop (by omega)).2
  omega

end FirstRunInv

/-- Step lemma: `ffop_post`. -/
theorem FirstRunInv.postFrame (hI : FirstRunInv l₀ l p) (hs : p.stack t = .post op :: fs)
    (hu : UserInv (graphVerts l₀ l) l.ops p')
    (hm : FrameMove impl t e p fs (.post op) e' p') : FirstRunInv l₀ l p' := by
  have hop : op ∈ graphVerts l₀ l := hI.user.frames_mem _ (Proc.top_mem_frames hs)
  have hdue := due_pos hs
  obtain ⟨hlog, hdue', hbusy', hver⟩ :=
    hm.life_post hs (Or.inl (hI.version_of_due hop hdue))
  have htally : p'.tally l.ops = p.tally l.ops := hm.tally_post hs
  have hmem : ∀ u, .completing u ∈ p'.log ↔ .completing u ∈ p.log := by
    intro u
    simp [hlog]
  have hposting : ∀ v, p'.log.count (.posting v) =
      p.log.count (.posting v) + if v = op then 1 else 0 := by
    intro v
    rw [hlog, count_event_snoc]
    simp
  have hcompleting : ∀ v, p'.log.count (.completing v) = p.log.count (.completing v) := by
    intro v
    rw [hlog, count_event_snoc]
    simp
  constructor
  · exact hu
  · rw [htally]
    exact hI.law
  · intro v
    have := hI.posts_le v
    have := hdue' v
    have := hposting v
    omega
  · intro v
    have := hI.busy_le v
    have := hbusy' v
    have := hposting v
    have := hcompleting v
    omega
  · intro v hv hpos
    have hann : p'.announcements l.ops v = p.announcements l.ops v :=
      congrArg (fun T => T.pending v) htally
    have := hdue' v
    have := hposting v
    obtain ⟨hpred, hzero⟩ := hI.seen v hv (by omega)
    exact ⟨fun u huv he => (hmem u).mpr (hpred u huv he), hann.trans hzero⟩
  · intro v hv
    rw [hver, hI.version_eq v hv, hcompleting]
  · intro u j hf
    rcases hm.loop_mem hs hf with hf | hf | ⟨_, hf⟩
    · exact (hmem u).mpr (hI.loops u j hf)
    · cases hf
    · cases hf

/-- Step lemma: `ffop_complete`. -/
theorem FirstRunInv.completeFrame (h : GraphBuilt cap l₀ cs l) (hI : FirstRunInv l₀ l p)
    (hs : p.stack t = .complete op :: fs) (hu : UserInv (graphVerts l₀ l) l.ops p')
    (hm : FrameMove impl t e p fs (.complete op) e' p') : FirstRunInv l₀ l p' := by
  have hop : op ∈ graphVerts l₀ l := hI.user.frames_mem _ (Proc.top_mem_frames hs)
  have hbusy := busy_pos hs
  have hnot := hI.not_completed_of_busy hbusy
  have hposted : 0 < p.log.count (.posting op) := by
    have := hI.busy_le op
    omega
  obtain ⟨hlog, hdue', hbusy', hver⟩ := hm.life_complete hs
  have htally : p'.tally l.ops = (p.tally l.ops).complete (graphVerts l₀ l) (edgeMult l.ops) op :=
    hm.tally_complete hs ((hI.user.same op).in_eq.trans (h.inDepCount_eq hop))
  have hmem : ∀ u, .completing u ∈ p.log → .completing u ∈ p'.log := by
    intro u hmem
    rw [hlog]
    exact List.mem_append_left _ hmem
  have hposting : ∀ v, p'.log.count (.posting v) = p.log.count (.posting v) := by
    intro v
    rw [hlog, count_event_snoc]
    simp
  have hcompleting : ∀ v, p'.log.count (.completing v) =
      p.log.count (.completing v) + if v = op then 1 else 0 := by
    intro v
    rw [hlog, count_event_snoc]
    simp
  constructor
  · exact hu
  · rw [htally, balancedOn_complete_iff hI.law hop (h.edgeMult_self hop)]
    refine ⟨fun d _ _ => decide_eq_false (fun hs => hnot hs.mem), fun _ => ?_⟩
    exact (hI.seen op hop (by omega)).2
  · intro v
    have := hI.posts_le v
    have := hdue' v
    have := hposting v
    omega
  · intro v
    have := hI.busy_le v
    have := hbusy' v
    have := hposting v
    have := hcompleting v
    omega
  · intro v hv hpos
    have := hdue' v
    have := hposting v
    obtain ⟨hpred, hzero⟩ := hI.seen v hv (by omega)
    refine ⟨fun u huv he => hmem u (hpred u huv he), ?_⟩
    have hann : p'.announcements l.ops v = p.announcements l.ops v + edgeMult l.ops op v :=
      congrArg (fun T => T.pending v) htally
    have hmult : edgeMult l.ops op v = 0 := by
      by_contra hne
      exact hnot (hpred op hop (edgeMult_ne_zero_iff.mp hne))
    rw [hann, hzero, hmult]
  · intro v hv
    rw [hver, hI.version_eq v hv, hcompleting]
    by_cases hvop : v = op
    · subst hvop
      rw [if_pos rfl, if_pos rfl, List.count_eq_zero.mpr hnot]
      rfl
    · rw [if_neg hvop, if_neg hvop, Nat.add_zero]
  · intro u j hf
    rcases hm.loop_mem hs hf with hf | hf | ⟨_, hf⟩
    · exact hmem u (hI.loops u j hf)
    · obtain rfl := Frame.complete.inj hf
      rw [hlog]
      exact List.mem_append_right _ (by simp)
    · cases hf

/-- The counter of a dependent that is posted has seen all its predecessors. -/
theorem FirstRunInv.seen_of_triggers (h : GraphBuilt cap l₀ cs l) (hI : FirstRunInv l₀ l p)
    (hs : p.stack t = .loop op i :: fs) (hi : i < (l.ops op).outDepCount)
    (hor : isOptSet (l.ops op).options ffopDepOr = false) (ht : p.Triggers op i) :
    (p.ops ((l.ops op).dependent i)).depLeft = 1 ∧
      (∀ u ∈ graphVerts l₀ l, l.HasEdge u ((l.ops op).dependent i) → .completing u ∈ p.log) ∧
      p.announcements l.ops ((l.ops op).dependent i) = 1 := by
  have hop : op ∈ graphVerts l₀ l := hI.user.frames_mem _ (Proc.top_mem_frames hs)
  have hd := h.dependent_mem hop hi
  have hpending : 0 < (p.tally l.ops).pending ((l.ops op).dependent i) := announcements_pos hs hi
  have hpos : 0 < (p.ops ((l.ops op).dependent i)).depLeft := hI.law.left_pos hd hpending
  have hzero : decrDepLeft (p.ops ((l.ops op).dependent i)).depLeft = 0 := by
    rcases ht.1 with hz | ho
    · rwa [(hI.user.same op).dependent_eq] at hz
    · rw [(hI.user.same op).options_eq, hor] at ho
      cases ho
  rw [decrDepLeft_of_pos hpos] at hzero
  have hone : (p.ops ((l.ops op).dependent i)).depLeft = 1 := by omega
  have hnext := hI.law.notify (m := 0) hpending (fun _ => hone.symm)
  refine ⟨hone, fun u hu he => ?_, ?_⟩
  · have := hnext.all_since hd (by simp [Tally.notify]) hu (edgeMult_ne_zero_iff.mpr he)
    exact (of_decide_eq_true this).mem
  · have hrest := hnext.pending_eq_zero hd (by simp [Tally.notify])
    simp only [Tally.notify, Function.update_self] at hrest
    have hann : (p.tally l.ops).pending ((l.ops op).dependent i) =
        p.announcements l.ops ((l.ops op).dependent i) := rfl
    omega

/-- Step lemma: an iteration of the loop of `ffop_complete`. -/
theorem FirstRunInv.loopFrame (h : GraphBuilt cap l₀ cs l) (hI : FirstRunInv l₀ l p)
    (hs : p.stack t = .loop op i :: fs)
    (hor : isOptSet (l.ops op).options ffopDepOr = false)
    (hu : UserInv (graphVerts l₀ l) l.ops p')
    (hm : FrameMove impl t e p fs (.loop op i) e' p') : FirstRunInv l₀ l p' := by
  have hop : op ∈ graphVerts l₀ l := hI.user.frames_mem _ (Proc.top_mem_frames hs)
  have hsame := hI.user.same op
  obtain ⟨hlog, hdue', hbusy', hver⟩ := hm.life_loop hs
  have hloops : ∀ u j, .loop u j ∈ p'.frames → .completing u ∈ p'.log := by
    intro u j hf
    rw [hlog]
    rcases hm.loop_mem hs hf with hf | hf | ⟨k, hf⟩
    · exact hI.loops u j hf
    · cases hf
    · obtain ⟨rfl, _⟩ := Frame.loop.inj hf
      exact hI.loops op i (Proc.top_mem_frames hs)
  by_cases hi : i < (l.ops op).outDepCount
  · have hann : 0 < p.announcements l.ops ((l.ops op).dependent i) := announcements_pos hs hi
    have hd := h.dependent_mem hop hi
    have hnone := hI.not_posted_of_announced hd hann
    obtain ⟨hpending, htally⟩ := hm.tally_loop hs hsame hi
    have hpos : 0 < (p.ops ((l.ops op).dependent i)).depLeft := hI.law.left_pos hd hpending
    have hann' : ∀ v, p'.announcements l.ops v =
        if v = (l.ops op).dependent i then p.announcements l.ops v - 1
        else p.announcements l.ops v := by
      intro v
      have : p'.announcements l.ops v = Function.update (p.tally l.ops).pending
          ((l.ops op).dependent i) ((p.tally l.ops).pending ((l.ops op).dependent i) - 1) v :=
        congrArg (fun T => T.pending v) htally
      rw [this, Function.update_apply]
      split
      · next hv => rw [hv]; rfl
      · rfl
    simp only [hsame.out_eq, hi, true_and, hsame.dependent_eq] at hdue'
    constructor
    · exact hu
    · rw [htally]
      refine hI.law.notify hpending (fun _ => ?_)
      rw [decrDepLeft_of_pos hpos]
      exact Nat.sub_add_cancel hpos
    · intro v
      have hle := hI.posts_le v
      rw [hlog, hdue']
      split
      · next hv =>
          rw [hv.2]
          omega
      · omega
    · intro v
      rw [hbusy', hlog]
      exact hI.busy_le v
    · intro v hv hposted
      rw [hlog, hdue'] at hposted
      rw [hlog, hann']
      by_cases hvd : v = (l.ops op).dependent i
      · subst hvd
        have ht : p.Triggers op i := by
          by_contra hno
          rw [if_neg (fun hc => hno hc.1)] at hposted
          omega
        obtain ⟨_, hpred, hone⟩ := hI.seen_of_triggers h hs hi hor ht
        rw [if_pos rfl, hone]
        exact ⟨hpred, rfl⟩
      · rw [if_neg (fun hc => hvd hc.2)] at hposted
        rw [if_neg hvd]
        exact hI.seen v hv hposted
    · intro v hv
      rw [hver, hlog]
      exact hI.version_eq v hv
    · exact hloops
  · have hle := Nat.le_of_not_lt hi
    have htally := hm.tally_done hs hsame hle
    simp only [hsame.out_eq, hi, false_and, if_false, Nat.add_zero] at hdue'
    constructor
    · exact hu
    · rw [htally]
      exact hI.law
    · intro v
      rw [hlog, hdue']
      exact hI.posts_le v
    · intro v
      rw [hbusy', hlog]
      exact hI.busy_le v
    · intro v hv hposted
      rw [hlog, hdue'] at hposted
      have hann : p'.announcements l.ops v = p.announcements l.ops v :=
        congrArg (fun T => T.pending v) htally
      rw [hlog, hann]
      exact hI.seen v hv hposted
    · intro v hv
      rw [hver, hlog]
      exact hI.version_eq v hv
    · exact hloops

/-- What a step of the first run can be. -/
theorem firstRunStep_cases {act : UserAct σ} (hs : firstRunStep impl l₀ l x act = some x') :
    userStep impl (graphVerts l₀ l) x act = some x' ∧
      ∀ op, act = .post op → (l.ops op).inDepCount = 0 ∧
        x.proc.log.count (.posting op) + x.proc.due op = 0 := by
  cases act with
  | post op =>
      simp only [firstRunStep] at hs
      split at hs
      · next hc =>
          refine ⟨hs, fun op' heq => ?_⟩
          obtain rfl := UserAct.post.inj heq
          refine ⟨hc.1, ?_⟩
          rw [Proc.due, List.count_eq_zero.mpr hc.2.1, List.count_eq_zero.mpr hc.2.2]
      · cases hs
  | frame t => exact ⟨hs, fun _ heq => by cases heq⟩
  | progress op => exact ⟨hs, fun _ heq => by cases heq⟩
  | env e => exact ⟨hs, fun _ heq => by cases heq⟩

/-- Step lemma. -/
theorem FirstRunInv.step (h : GraphBuilt cap l₀ cs l)
    (hor : ∀ v ∈ graphVerts l₀ l, isOptSet (l.ops v).options ffopDepOr = false)
    (hI : FirstRunInv l₀ l x.proc) {act : UserAct σ}
    (hs : firstRunStep impl l₀ l x act = some x') : FirstRunInv l₀ l x'.proc := by
  obtain ⟨hstep, hsource⟩ := firstRunStep_cases hs
  have hu := hI.user.step (fun v hv i hi => h.dependent_mem hv hi) hstep
  cases userStep_cases hstep with
  | @post op huser hop =>
      obtain ⟨hin, hnone⟩ := hsource op rfl
      have htally := tally_call l.ops x.proc huser op
      obtain ⟨hdue, hbusy⟩ := life_call huser op
      constructor
      · exact hu
      · rw [htally]
        exact hI.law
      · intro v
        have hle := hI.posts_le v
        rw [hdue]
        dsimp only
        split
        · next hv =>
            rw [hv]
            omega
        · exact hle
      · intro v
        rw [hbusy]
        exact hI.busy_le v
      · intro v hv hposted
        have hann : Proc.announcements l.ops { x.proc with user := [.post op] } v =
            x.proc.announcements l.ops v := congrArg (fun T => T.pending v) htally
        rw [hann]
        by_cases hvop : v = op
        · subst hvop
          exact ⟨fun u huv he => absurd he (h.no_edge_source hop hin huv),
            h.announcements_source hI.user hop hin⟩
        · rw [hdue, if_neg hvop] at hposted
          exact hI.seen v hv hposted
      · exact hI.version_eq
      · intro u j hf
        simp only [Proc.frames, List.singleton_append, List.mem_cons, reduceCtorEq,
          false_or] at hf
        exact hI.loops u j (by simp [Proc.frames, hf])
  | @frame t f fs e' p' hstack hm =>
      cases f with
      | post op => exact hI.postFrame hstack hu hm
      | complete op => exact hI.completeFrame h hstack hu hm
      | loop op i =>
          exact hI.loopFrame h hstack
            (hor op (hI.user.frames_mem _ (Proc.top_mem_frames hstack))) hu hm
  | @progress op e' hp hop ht =>
      have htally := tally_progress l.ops x.proc hp op
      obtain ⟨hdue, hbusy⟩ := life_progress hp hop
      constructor
      · exact hu
      · rw [htally]
        exact hI.law
      · intro v
        rw [hdue]
        exact hI.posts_le v
      · intro v
        rw [hbusy]
        exact hI.busy_le v
      · intro v hv hposted
        have hann : Proc.announcements l.ops { x.proc with
            pending := x.proc.pending.erase op, prog := [.complete op] } v =
            x.proc.announcements l.ops v := congrArg (fun T => T.pending v) htally
        rw [hann]
        rw [hdue] at hposted
        exact hI.seen v hv hposted
      · exact hI.version_eq
      · intro u j hf
        simp only [Proc.frames, List.mem_append, List.mem_singleton, reduceCtorEq,
          or_false] at hf
        exact hI.loops u j (by simp [Proc.frames, hf])
  | env e => exact ⟨hu, hI.law, hI.posts_le, hI.busy_le, hI.seen, hI.version_eq, hI.loops⟩

end FirstRun

/-! ### Non-persistent operations -/

/-- The law of the first run: an operation whose predecessors have all completed has been
posted, no operation is posted twice, and at rest, when all sources have been posted and
everything that has been posted has completed, every operation has been posted once. -/
structure FirstRunLaw (l₀ l : Lib) (p : Proc) : Prop where
  posted : ∀ v ∈ graphVerts l₀ l, (l.ops v).inDepCount ≠ 0 →
    (∀ u ∈ graphVerts l₀ l, l.HasEdge u v → .completing u ∈ p.log) →
    p.announcements l.ops v = 0 → .posting v ∈ p.log ∨ .post v ∈ p.frames
  once : ∀ v, p.log.count (.posting v) + p.frames.count (.post v) ≤ 1
  complete : p.frames = [] →
    (∀ v ∈ graphVerts l₀ l, (l.ops v).inDepCount = 0 → .posting v ∈ p.log) →
    (∀ v, .posting v ∈ p.log → .completing v ∈ p.log) →
    ∀ v ∈ graphVerts l₀ l, p.log.count (.posting v) = 1

/-- The operation whose completion is the last one that a dependent waits for is persistent. -/
def LastIsPersistent {σ : Type u} (l : Lib) (x : System σ) (act : UserAct σ) : Prop :=
  ∀ t op i fs, act = .frame t → x.proc.stack t = .loop op i :: fs →
    i < (l.ops op).outDepCount → (x.proc.ops ((l.ops op).dependent i)).depLeft = 1 →
    isOptSet (l.ops op).options ffopNonPersistent = false

/-- An operation that has not been posted still waits for a predecessor. -/
def Waiting (l₀ l : Lib) (p : Proc) : Prop :=
  ∀ v ∈ graphVerts l₀ l, (l.ops v).inDepCount ≠ 0 →
    p.log.count (.posting v) + p.due v = 0 → (p.ops v).depLeft ≠ 0

section NonPersistent

variable {σ : Type u} {impl : Impl σ} {cap : Nat} {l₀ l : Lib} {cs : List BuildCall}
  {x x' : System σ} {t : Thread} {e e' : σ} {p p' : Proc} {fs : List Frame} {op i : Nat}

theorem posted_iff (p : Proc) (v : Nat) :
    (.posting v ∈ p.log ∨ .post v ∈ p.frames) ↔ p.log.count (.posting v) + p.due v ≠ 0 := by
  rw [Proc.due, Ne, Nat.add_eq_zero_iff, List.count_eq_zero, List.count_eq_zero,
    ← not_or, not_not]

/-- Without cycles, everything is posted in the end. -/
theorem FirstRunInv.all_posted (h : GraphBuilt cap l₀ cs l) (hw : Waiting l₀ l p)
    (hI : FirstRunInv l₀ l p) (hrest : p.frames = [])
    (hsource : ∀ v ∈ graphVerts l₀ l, (l.ops v).inDepCount = 0 → .posting v ∈ p.log)
    (hdone : ∀ v, .posting v ∈ p.log → .completing v ∈ p.log) :
    ∀ v, v ∈ graphVerts l₀ l → .posting v ∈ p.log := by
  intro v
  induction v using h.wellFounded.induction with
  | _ v ih =>
      intro hv
      by_cases hin : (l.ops v).inDepCount = 0
      · exact hsource v hv hin
      · by_contra hno
        have hdue : p.due v = 0 := by simp [Proc.due, hrest]
        have hcount : p.log.count (.posting v) = 0 := List.count_eq_zero.mpr hno
        have hnot : .completing v ∉ p.log := by
          have := hI.busy_le v
          exact List.count_eq_zero.mp (by omega)
        have hann : (p.tally l.ops).pending v = 0 := by
          simp [Proc.tally, Proc.announcements, hrest]
        refine hw v hv hin (by omega) (hI.law.left_eq_zero hv hann (fun u hu hm => ?_))
        refine decide_eq_true ((since_iff_mem hnot).mpr (hdone u ?_))
        exact ih u ⟨hu, edgeMult_ne_zero_iff.mp hm⟩ hu

theorem firstRunLaw_iff (h : GraphBuilt cap l₀ cs l) (hI : FirstRunInv l₀ l p) :
    FirstRunLaw l₀ l p ↔ Waiting l₀ l p := by
  constructor
  · intro hlaw v hv hin hnone hz
    refine (posted_iff p v).mp (hlaw.posted v hv hin (fun u hu he => ?_) ?_) hnone
    · have := hI.law.all_since hv hz hu (edgeMult_ne_zero_iff.mpr he)
      exact (of_decide_eq_true this).mem
    · exact hI.law.pending_eq_zero hv hz
  · intro hw
    refine ⟨fun v hv hin hall hann => ?_, hI.posts_le, fun hrest hsource hdone v hv => ?_⟩
    · refine (posted_iff p v).mpr (fun hnone => ?_)
      have hnot : .completing v ∉ p.log := by
        have := hI.busy_le v
        exact List.count_eq_zero.mp (by omega)
      refine hw v hv hin hnone (hI.law.left_eq_zero hv hann (fun u hu hm => ?_))
      exact decide_eq_true ((since_iff_mem hnot).mpr (hall u hu (edgeMult_ne_zero_iff.mp hm)))
    · have hmem := hI.all_posted h hw hrest hsource hdone v hv
      have := List.count_pos_iff.mpr hmem
      have := hI.posts_le v
      omega

/-- Steps other than those of the loop of `ffop_complete` leave nothing unposted. -/
theorem Waiting.of_counts (hw : Waiting l₀ l p)
    (hcount : ∀ v, p.log.count (.posting v) + p.due v ≤ p'.log.count (.posting v) + p'.due v)
    (hleft : ∀ v ∈ graphVerts l₀ l, (p'.ops v).depLeft = (p.ops v).depLeft ∨
      (p'.ops v).depLeft = (l.ops v).inDepCount) : Waiting l₀ l p' := by
  intro v hv hin hnone
  have := hcount v
  rcases hleft v hv with heq | heq
  · rw [heq]
    exact hw v hv hin (by omega)
  · rw [heq]
    exact hin

/-- An iteration of the loop leaves nothing unposted iff it announces the last completion
of a persistent operation, or not the last one. -/
theorem waiting_loopFrame_iff (h : GraphBuilt cap l₀ cs l) (hI : FirstRunInv l₀ l p)
    (hw : Waiting l₀ l p) (hs : p.stack t = .loop op i :: fs)
    (hor : isOptSet (l.ops op).options ffopDepOr = false)
    (hm : FrameMove impl t e p fs (.loop op i) e' p') (hi : i < (l.ops op).outDepCount) :
    Waiting l₀ l p' ↔ ((p.ops ((l.ops op).dependent i)).depLeft = 1 →
      isOptSet (l.ops op).options ffopNonPersistent = false) := by
  have hop : op ∈ graphVerts l₀ l := hI.user.frames_mem _ (Proc.top_mem_frames hs)
  have hsame := hI.user.same op
  have hd := h.dependent_mem hop hi
  have hnone := hI.not_posted_of_announced hd (announcements_pos hs hi)
  obtain ⟨hpending, htally⟩ := hm.tally_loop hs hsame hi
  have hpos : 0 < (p.ops ((l.ops op).dependent i)).depLeft := hI.law.left_pos hd hpending
  have hin : (l.ops ((l.ops op).dependent i)).inDepCount ≠ 0 := fun hz =>
    h.no_edge_source hd hz hop ⟨i, hi, rfl⟩
  have hversion : (p.ops op).version ≠ 0 := by
    rw [hI.version_eq op hop, Ne, List.count_eq_zero, not_not]
    exact hI.loops op i (Proc.top_mem_frames hs)
  obtain ⟨hlog, hdue', _, _⟩ := hm.life_loop hs
  simp only [hsame.out_eq, hi, true_and, hsame.dependent_eq] at hdue'
  have hleft : ∀ v, (p'.ops v).depLeft =
      if v = (l.ops op).dependent i then (p.ops v).depLeft - 1 else (p.ops v).depLeft := by
    intro v
    have hv : (p'.ops v).depLeft = Function.update (p.tally l.ops).left
        ((l.ops op).dependent i) (decrDepLeft (p.ops ((l.ops op).dependent i)).depLeft) v :=
      congrArg (fun T => T.left v) htally
    rw [hv, Function.update_apply, decrDepLeft_of_pos hpos]
    split
    · next heq => rw [heq]
    · rfl
  have htrigger : p.Triggers op i ↔ (p.ops ((l.ops op).dependent i)).depLeft = 1 ∧
      isOptSet (l.ops op).options ffopNonPersistent = false := by
    rw [Proc.Triggers, hsame.dependent_eq, hsame.options_eq, hor, decrDepLeft_of_pos hpos]
    simp only [hversion, Bool.false_eq_true, or_false, false_or]
    refine and_congr_left (fun _ => ?_)
    omega
  constructor
  · intro hw' hone
    by_contra hnp
    refine hw' _ hd hin ?_ ?_
    · rw [hlog, hdue', if_neg (fun hc => hnp (htrigger.mp hc.1).2)]
      exact hnone
    · rw [hleft, if_pos rfl, hone]
  · intro hlast v hv hin' hnone'
    rw [hlog, hdue'] at hnone'
    rw [hleft]
    by_cases hvd : v = (l.ops op).dependent i
    · subst hvd
      rw [if_pos rfl]
      have hne : (p.ops ((l.ops op).dependent i)).depLeft ≠ 1 := by
        intro hone
        rw [if_pos ⟨htrigger.mpr ⟨hone, hlast hone⟩, rfl⟩] at hnone'
        omega
      omega
    · rw [if_neg (fun hc => hvd hc.2)] at hnone'
      rw [if_neg hvd]
      exact hw v hv hin' hnone'

/-- Step lemma: a step leaves nothing unposted iff it meets the condition. -/
theorem waiting_step_iff (h : GraphBuilt cap l₀ cs l)
    (hor : ∀ v ∈ graphVerts l₀ l, isOptSet (l.ops v).options ffopDepOr = false)
    (hI : FirstRunInv l₀ l x.proc) (hw : Waiting l₀ l x.proc) {act : UserAct σ}
    (hs : firstRunStep impl l₀ l x act = some x') :
    Waiting l₀ l x'.proc ↔ LastIsPersistent l x act := by
  have hno : ∀ {t f fs}, x.proc.stack t = f :: fs → (∀ op i, f ≠ .loop op i) →
      LastIsPersistent l x (.frame t : UserAct σ) := by
    intro t f fs hstack hf t' op i fs' ht hstack'
    obtain rfl := UserAct.frame.inj ht
    rw [hstack] at hstack'
    exact absurd (List.cons.inj hstack').1 (hf op i)
  cases userStep_cases (firstRunStep_cases hs).1 with
  | @post op huser hop =>
      refine iff_of_true (hw.of_counts (fun v => ?_) (fun v _ => Or.inl rfl))
        (fun _ _ _ _ ht => by cases ht)
      simp only [Proc.due, Proc.frames, huser, List.nil_append, List.singleton_append,
        Nat.add_le_add_iff_left]
      exact (List.sublist_cons_self _ _).count_le _
  | @frame t f fs e' p' hstack hm =>
      cases f with
      | post op =>
          have hop : op ∈ graphVerts l₀ l := hI.user.frames_mem _ (Proc.top_mem_frames hstack)
          obtain ⟨hlog, hdue', _, _⟩ :=
            hm.life_post hstack (Or.inl (hI.version_of_due hop (due_pos hstack)))
          have htally : p'.tally l.ops = x.proc.tally l.ops := hm.tally_post hstack
          refine iff_of_true (hw.of_counts (fun v => ?_) (fun v _ => Or.inl ?_))
            (hno hstack (fun _ _ => by simp))
          · have hv := hdue' v
            rw [hlog, count_event_snoc]
            simp only [Event.posting.injEq]
            omega
          · exact congrArg (fun T => T.left v) htally
      | complete op =>
          have hop : op ∈ graphVerts l₀ l := hI.user.frames_mem _ (Proc.top_mem_frames hstack)
          obtain ⟨hlog, hdue', _, _⟩ := hm.life_complete hstack
          have htally : p'.tally l.ops =
              (x.proc.tally l.ops).complete (graphVerts l₀ l) (edgeMult l.ops) op :=
            hm.tally_complete hstack ((hI.user.same op).in_eq.trans (h.inDepCount_eq hop))
          refine iff_of_true (hw.of_counts (fun v => ?_) (fun v hv => ?_))
            (hno hstack (fun _ _ => by simp))
          · rw [hlog, count_event_snoc, hdue']
            omega
          · have hleft : (p'.ops v).depLeft = Function.update (x.proc.tally l.ops).left op
                (inDegree (graphVerts l₀ l) (edgeMult l.ops) op) v :=
              congrArg (fun T => T.left v) htally
            by_cases hvop : v = op
            · subst hvop
              exact Or.inr (hleft.trans ((Function.update_self _ _ _).trans
                (h.inDepCount_eq hv).symm))
            · exact Or.inl (hleft.trans (Function.update_of_ne hvop _ _))
      | loop op i =>
          have hop : op ∈ graphVerts l₀ l := hI.user.frames_mem _ (Proc.top_mem_frames hstack)
          by_cases hi : i < (l.ops op).outDepCount
          · rw [waiting_loopFrame_iff h hI hw hstack (hor op hop) hm hi]
            constructor
            · intro hlast t' op' i' fs' ht hstack' _ hone
              obtain rfl := UserAct.frame.inj ht
              rw [hstack] at hstack'
              obtain ⟨rfl, rfl⟩ := Frame.loop.inj (List.cons.inj hstack').1
              exact hlast hone
            · intro hlast
              exact hlast t op i fs rfl hstack hi
          · obtain ⟨hlog, hdue', _, _⟩ := hm.life_loop hstack
            have htally := hm.tally_done hstack (hI.user.same op) (Nat.le_of_not_lt hi)
            refine iff_of_true (hw.of_counts (fun v => ?_) (fun v _ => Or.inl ?_))
              (fun t' op' i' fs' ht hstack' hi' => ?_)
            · rw [hlog, hdue']
              omega
            · exact congrArg (fun T => T.left v) htally
            · obtain rfl := UserAct.frame.inj ht
              rw [hstack] at hstack'
              obtain ⟨rfl, rfl⟩ := Frame.loop.inj (List.cons.inj hstack').1
              exact absurd hi' hi
  | @progress op e' hp hop ht =>
      refine iff_of_true (hw.of_counts (fun v => ?_) (fun v _ => Or.inl rfl))
        (fun _ _ _ _ ht => by cases ht)
      simp [Proc.due, Proc.frames, hp]
  | env e =>
      exact iff_of_true hw (fun _ _ _ _ ht => by cases ht)

/-- **A non-persistent operation releases its successors**, iff it does not complete a
dependent's last predecessor. -/
theorem nonPersistent_iff (h : GraphBuilt cap l₀ cs l)
    (hor : ∀ v ∈ graphVerts l₀ l, isOptSet (l.ops v).options ffopDepOr = false)
    (impl : Impl σ) (e : σ) (as : List (UserAct σ)) :
    RunAlways (firstRunStep impl l₀ l) (fun x => FirstRunLaw l₀ l x.proc)
        ⟨e, Proc.init l.ops⟩ as ↔
      RunMeets (firstRunStep impl l₀ l) (LastIsPersistent l) ⟨e, Proc.init l.ops⟩ as := by
  have hinit := firstRunInv_init h
  have hwinit : Waiting l₀ l (Proc.init l.ops) := by
    intro v hv hin _
    exact (h.depLeft_eq hv).trans_ne hin
  constructor
  · intro halways
    refine halways.meets_of_step (I := fun s => FirstRunInv l₀ l s.proc)
      (fun s a s' hI _ ha => hI.step h hor ha) (fun s a hI hlaw hnext => ?_) as _ hinit
    intro t op i fs ht hstack
    subst ht
    obtain ⟨s', ha⟩ := exists_frameStep impl (graphVerts l₀ l) hstack
    have ha' : firstRunStep impl l₀ l s (.frame t) = some s' := ha
    have hwaits := (firstRunLaw_iff h (hI.step h hor ha')).mp (hnext s' ha')
    exact (waiting_step_iff h hor hI ((firstRunLaw_iff h hI).mp hlaw) ha').mp hwaits
      t op i fs rfl hstack
  · refine runAlways_of_meets
      (I := fun s : System σ => FirstRunInv l₀ l s.proc ∧ Waiting l₀ l s.proc)
      (fun s hs => (firstRunLaw_iff h hs.1).mpr hs.2) (fun s a s' hs hC ha => ?_) as _
      ⟨hinit, hwinit⟩
    exact ⟨hs.1.step h hor ha, (waiting_step_iff h hor hs.1 hs.2 ha).mpr hC⟩

end NonPersistent

/-! ### A non-persistent receive that a send waits for -/

def pairCalls : List BuildCall :=
  [.create (.recv 1 0 1) (ffopDepAnd ^^^ ffopNonPersistent), .create (.send 2 0 2) ffopDepAnd,
    .hb 0 1]

theorem graphBuilt_pair : ∃ l, GraphBuilt maxDeps Lib.init pairCalls l ∧
    (∀ v ∈ graphVerts Lib.init l, isOptSet (l.ops v).options ffopDepOr = false) ∧
    ∃ x, run (firstRunStep asyncImpl Lib.init l) ⟨(), Proc.init l.ops⟩ (postAndComplete 0) =
        some x ∧ ¬ FirstRunLaw Lib.init l x.proc := by
  refine ⟨_, ⟨rfl, ?_⟩, by decide, _, rfl, fun hlaw => ?_⟩
  · refine acyclic_of_lt id (fun a b hab => ?_)
    simp only [pairCalls, List.mem_cons, BuildCall.hb.injEq, reduceCtorEq, List.not_mem_nil,
      or_false, false_or] at hab
    obtain ⟨rfl, rfl⟩ := hab
    decide
  · have hposted := hlaw.posted 1 (by decide) (by decide) (by decide) (by decide)
    revert hposted
    decide

theorem nonPersistent_iff_pair : ∃ l, GraphBuilt maxDeps Lib.init pairCalls l ∧
    (RunAlways (firstRunStep asyncImpl Lib.init l) (fun x => FirstRunLaw Lib.init l x.proc)
        ⟨(), Proc.init l.ops⟩ (postAndComplete 0) ↔
      RunMeets (firstRunStep asyncImpl Lib.init l) (LastIsPersistent l) ⟨(), Proc.init l.ops⟩
        (postAndComplete 0)) := by
  obtain ⟨l, h, hor, _⟩ := graphBuilt_pair
  exact ⟨l, h, nonPersistent_iff h hor asyncImpl () _⟩

/-- The receive completes, and the send is not posted. -/
theorem nonPersistent_fails :
    ¬ ∀ (cs : List BuildCall) (l : Lib), GraphBuilt maxDeps Lib.init cs l →
      (∀ v ∈ graphVerts Lib.init l, isOptSet (l.ops v).options ffopDepOr = false) →
      ∀ as : List (UserAct Unit), RunAlways (firstRunStep asyncImpl Lib.init l)
        (fun x => FirstRunLaw Lib.init l x.proc) ⟨(), Proc.init l.ops⟩ as := by
  intro hall
  obtain ⟨l, h, hor, x, hrun, hbad⟩ := graphBuilt_pair
  exact hbad ((hall pairCalls l h hor _).last hrun)

end Fflib
