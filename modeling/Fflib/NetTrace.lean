import Fflib.NetRefine

/-!
# Runs as executions of tasks

Whatever the processes and the network do, they carry out the tasks of the program one
after another, in an order that respects `Before`.

* `tasks` are the tasks with their footprints; `before_of_conflict`: without races, those
  that conflict are ordered.
* `Done` says of a view what has been carried out; `done_of_before`: what comes before it
  has been, too.
* `Trace.move` is the step lemma, `exists_trace` the run lemma.
* `Trace.memory_eq`: what a rank finds in its memory between two rounds is what any
  sequential execution leaves there.
-/

namespace Fflib

open Library

universe u

variable {α : Type u} {n : Nat}

namespace Net

variable (N : Net α n)

/-! ### Tasks and their footprints -/

theorem execTask_frame (t : Task n) (σ : Store α) (l : Loc) (hl : l ∉ N.taskWrites t) :
    N.execTask t σ l = σ l := by
  cases t with
  | user i m =>
      cases l with
      | memory j p =>
          have hj : j ≠ i := by
            rintro rfl
            exact hl ⟨p, rfl⟩
          simp only [execTask, if_neg hj]
      | message s d tag k => rfl
  | op i m v =>
      simp only [taskWrites, Set.mem_ofPred_eq, not_or, not_exists, not_and] at hl
      obtain ⟨hmem, hmsg⟩ := hl
      cases hb : N.body i v with
      | nop => simp only [execTask, hb]
      | comp b1 b2 b3 operator =>
          simp only [execTask, hb]
          exact Function.update_of_ne (hmem _ (by simp [hb, bodyWrites])) _ _
      | send peer tag b =>
          simp only [execTask, hb]
          exact Function.update_of_ne (hmsg peer tag b hb) _ _
      | recv peer tag b =>
          simp only [execTask, hb]
          exact Function.update_of_ne (hmem _ (by simp [hb, bodyWrites])) _ _

theorem execTask_depends (t : Task n) (σ σ' : Store α)
    (h : ∀ l, l ∈ N.taskReads t → σ l = σ' l) (l : Loc) (hl : l ∈ N.taskWrites t) :
    N.execTask t σ l = N.execTask t σ' l := by
  cases t with
  | user i m =>
      obtain ⟨p, rfl⟩ := hl
      have hmem : (fun c => σ (.memory i c)) = fun c => σ' (.memory i c) :=
        funext (fun c => h _ ⟨c, rfl⟩)
      simp only [execTask, if_true, hmem]
  | op i m v =>
      have hread : ∀ p, p ∈ N.bodyReads i (N.body i v) → σ (.memory i p) = σ' (.memory i p) :=
        fun p hp => h _ (Or.inl ⟨p, hp, rfl⟩)
      cases hb : N.body i v with
      | nop =>
          rcases hl with ⟨p, hp, _⟩ | ⟨peer, tag, b, hs, _⟩
          · rw [hb] at hp
            cases hp
          · rw [hb] at hs
            cases hs
      | comp b1 b2 b3 operator =>
          rw [hb] at hread
          have h1 := hread (N.ptr i b1) (by simp [bodyReads])
          have h2 := hread (N.ptr i b2) (by simp [bodyReads])
          have h3 := hread (N.ptr i b3) (by simp [bodyReads])
          rcases hl with ⟨p, hp, rfl⟩ | ⟨peer, tag, b, hs, _⟩
          · rw [hb] at hp
            obtain rfl : p = N.ptr i b3 := hp
            simp only [execTask, hb, Function.update_self, h1, h2, h3]
          · rw [hb] at hs
            cases hs
      | send peer tag b =>
          rw [hb] at hread
          have h1 := hread (N.ptr i b) (by simp [bodyReads])
          rcases hl with ⟨p, hp, _⟩ | ⟨peer', tag', b', hs, rfl⟩
          · rw [hb] at hp
            cases hp
          · rw [hb] at hs
            cases hs
            simp only [execTask, hb, Function.update_self, h1]
      | recv peer tag b =>
          rw [hb] at hread
          have h1 := hread (N.ptr i b) (by simp [bodyReads])
          have h2 := h (.message peer i tag m) (Or.inr ⟨peer, tag, b, hb, rfl⟩)
          rcases hl with ⟨p, hp, rfl⟩ | ⟨peer', tag', b', hs, _⟩
          · rw [hb] at hp
            obtain rfl : p = N.ptr i b := hp
            simp only [execTask, hb, Function.update_self, h1, h2]
          · rw [hb] at hs
            cases hs

/-- The tasks of a program. -/
def tasks : Tasks (Task n) (Loc.Val α) where
  exec := N.execTask
  reads := N.taskReads
  writes := N.taskWrites
  frame := N.execTask_frame
  depends := N.execTask_depends

/-- Tasks are ordered if one of them writes what the other reads or writes. -/
theorem before_of_writes (hN : N.Channels) (hR : N.RaceFree) {t t' : Task n}
    (ht : N.Known t) (ht' : N.Known t') (hne : t ≠ t') {l : Loc} (hl : l ∈ N.taskWrites t)
    (hl' : l ∈ N.taskReads t' ∨ l ∈ N.taskWrites t') : N.Before t t' ∨ N.Before t' t := by
  cases t with
  | user i m =>
      obtain ⟨p, rfl⟩ := hl
      cases t' with
      | user j m' =>
          obtain rfl : i = j := by
            rcases hl' with ⟨q, hq⟩ | ⟨q, hq⟩ <;> exact Fin.ext (Loc.memory.inj hq).1
          rcases Nat.lt_trichotomy m m' with hm | rfl | hm
          · exact Or.inl (.user hm)
          · exact absurd rfl hne
          · exact Or.inr (.user hm)
      | op j m' v =>
          obtain rfl : i = j := by
            rcases hl' with (⟨q, _, hq⟩ | ⟨_, _, _, _, hq⟩) | (⟨q, _, hq⟩ | ⟨_, _, _, _, hq⟩)
            · exact Fin.ext (Loc.memory.inj hq).1
            · cases hq
            · exact Fin.ext (Loc.memory.inj hq).1
            · cases hq
          by_cases hm : m ≤ m'
          · exact Or.inl (.enter hm)
          · exact Or.inr (.leave ht' (by omega))
  | op i m u =>
      rcases hl with ⟨p, hp, rfl⟩ | ⟨peer, tag, b, hb, rfl⟩
      · cases t' with
        | user j m' =>
            obtain rfl : i = j := by
              rcases hl' with ⟨q, hq⟩ | ⟨q, hq⟩ <;> exact Fin.ext (Loc.memory.inj hq).1
            by_cases hm : m' ≤ m
            · exact Or.inr (.enter hm)
            · exact Or.inl (.leave ht (by omega))
        | op j m' v =>
            have hq : i = j ∧ (p ∈ N.bodyReads j (N.body j v) ∨
                p ∈ N.bodyWrites j (N.body j v)) := by
              rcases hl' with (⟨q, hq, heq⟩ | ⟨_, _, _, _, heq⟩) | (⟨q, hq, heq⟩ |
                ⟨_, _, _, _, heq⟩)
              · obtain ⟨hij, rfl⟩ := Loc.memory.inj heq
                exact ⟨Fin.ext hij, Or.inl hq⟩
              · cases heq
              · obtain ⟨hij, rfl⟩ := Loc.memory.inj heq
                exact ⟨Fin.ext hij, Or.inr hq⟩
              · cases heq
            obtain ⟨rfl, hq⟩ := hq
            rcases Nat.lt_trichotomy m m' with hm | rfl | hm
            · exact Or.inl (.round ht hm)
            · have huv : u ≠ v := by
                rintro rfl
                exact hne rfl
              exact (hR i u v p ht ht' huv hp hq).imp .pred .pred
            · exact Or.inr (.round ht' hm)
      · -- a message is written by its send and read by its receive
        cases t' with
        | user j m' => rcases hl' with ⟨q, hq⟩ | ⟨q, hq⟩ <;> cases hq
        | op j m' v =>
            rcases hl' with (⟨_, _, heq⟩ | ⟨peer', tag', b', hb', heq⟩) | (⟨_, _, heq⟩ |
              ⟨peer', tag', b', hb', heq⟩)
            · cases heq
            · obtain ⟨rfl, rfl, rfl, rfl⟩ := Loc.message.inj heq
              exact Or.inl (.message m ⟨tag, b, b', ⟨ht, hb⟩, ⟨ht', hb'⟩⟩)
            · cases heq
            · obtain ⟨hij, rfl, rfl, rfl⟩ := Loc.message.inj heq
              obtain rfl := Fin.ext hij
              obtain rfl := hN.send_unique ⟨ht, hb⟩ ⟨ht', hb'⟩
              exact absurd rfl hne

/-- Tasks that conflict are ordered. -/
theorem before_of_conflict (hN : N.Channels) (hR : N.RaceFree) {t t' : Task n}
    (ht : N.Known t) (ht' : N.Known t') (hne : t ≠ t') (hc : N.tasks.Conflict t t') :
    N.Before t t' ∨ N.Before t' t := by
  obtain ⟨l, ⟨hl, hl'⟩ | ⟨hl, hl'⟩⟩ := hc
  · exact N.before_of_writes hN hR ht ht' hne hl hl'
  · exact (N.before_of_writes hN hR ht' ht hne.symm hl hl').symm

/-- What comes before a task is a task of the program, of no later round. -/
theorem Before.known {t t' : Task n} (h : N.Before t t') : N.Known t ∧ t.round ≤ t'.round := by
  cases h with
  | user h => exact ⟨trivial, h.le⟩
  | enter h => exact ⟨trivial, h⟩
  | leave hv h => exact ⟨hv, h.le⟩
  | round hu h => exact ⟨hu, h.le⟩
  | pred h =>
      obtain ⟨_, ⟨_, hj, _⟩, _⟩ := Relation.TransGen.head'_iff.mp h
      exact ⟨DepGraph.mem_verts_of_lt _ hj, le_rfl⟩
  | message m h =>
      obtain ⟨_, _, _, hx, _⟩ := h
      exact ⟨hx.1, le_rfl⟩

/-! ### The tasks that have been carried out -/

/-- Operation `v` of rank `i` has been carried out in its round `m + 1`. -/
def OpDone (V : View α n) (i : Fin n) (m v : Nat) : Prop :=
  v ∈ (N.graph i).verts ∧
    match N.body i v with
    | .send peer tag _ => ∃ c, (V.env i).sentAt peer tag m = some c
    | .recv peer tag _ => (V.env i).ReceivedAt peer tag m
    | _ => m + 1 < (V.env i).round ∨
        m + 1 = (V.env i).round ∧ (phaseOf (V.exec i) v).isStarted = true

/-- The task has been carried out. -/
def Done (V : View α n) : Task n → Prop
  | .user i m => m < (V.env i).round ∨ m = (V.env i).round ∧ V.ready i = true
  | .op i m v => N.OpDone V i m v

variable {N} {K : Nat} {V V' : View α n} {i : Fin n} {m v : Nat}

theorem OpDone.mem_verts (h : N.OpDone V i m v) : v ∈ (N.graph i).verts := h.1

/-- What has been carried out has been started. -/
theorem OpDone.started (hV : N.ViewOk K V) (h : N.OpDone V i m v) :
    m + 1 < (V.env i).round ∨
      m + 1 = (V.env i).round ∧ (phaseOf (V.exec i) v).isStarted = true := by
  obtain ⟨hmem, h⟩ := h
  cases hb : N.body i v with
  | nop => simpa only [hb] using h
  | comp b1 b2 b3 operator => simpa only [hb] using h
  | send peer tag b =>
      simp only [hb] at h
      obtain ⟨c, hc⟩ := h
      exact ((hV.rank i).chan.send ⟨hmem, hb⟩).started hc
  | recv peer tag b =>
      simp only [hb] at h
      exact ((hV.rank i).chan.recv ⟨hmem, hb⟩).started h

/-- What is not a request has been carried out as soon as it has been started. -/
theorem opDone_of_started (hmem : v ∈ (N.graph i).verts) (hb : (N.body i v).isRequest = false)
    (h : m + 1 < (V.env i).round ∨
      m + 1 = (V.env i).round ∧ (phaseOf (V.exec i) v).isStarted = true) : N.OpDone V i m v := by
  refine ⟨hmem, ?_⟩
  cases hbv : N.body i v with
  | nop => simpa only [hbv] using h
  | comp b1 b2 b3 operator => simpa only [hbv] using h
  | send peer tag b => simp only [hbv, FfopBody.isRequest, Bool.true_eq_false] at hb
  | recv peer tag b => simp only [hbv, FfopBody.isRequest, Bool.true_eq_false] at hb

/-- What decides whether an operation has been carried out. -/
theorem opDone_congr (hsent : (V'.env i).sentAt = (V.env i).sentAt)
    (hrec : (V'.env i).ReceivedAt = (V.env i).ReceivedAt)
    (hstart : v ∈ (N.graph i).verts → (N.body i v).isRequest = false →
      ((m + 1 < (V'.env i).round ∨
        m + 1 = (V'.env i).round ∧ (phaseOf (V'.exec i) v).isStarted = true) ↔
      (m + 1 < (V.env i).round ∨
        m + 1 = (V.env i).round ∧ (phaseOf (V.exec i) v).isStarted = true))) :
    N.OpDone V' i m v ↔ N.OpDone V i m v := by
  refine and_congr_right (fun hv => ?_)
  have hstart := hstart hv
  cases hb : N.body i v with
  | nop => exact hstart (by rw [hb]; rfl)
  | comp b1 b2 b3 operator => exact hstart (by rw [hb]; rfl)
  | send peer tag b => simp only [hsent]
  | recv peer tag b => simp only [hrec]

/-- What has completed has been carried out. -/
theorem opDone_of_completed (hV : N.ViewOk K V) (hmem : v ∈ (N.graph i).verts)
    (h : m + 1 < (V.env i).round ∨
      m + 1 = (V.env i).round ∧ (phaseOf (V.exec i) v).isDone = true) : N.OpDone V i m v := by
  have hstart : m + 1 < (V.env i).round ∨
      m + 1 = (V.env i).round ∧ (phaseOf (V.exec i) v).isStarted = true :=
    h.imp_right (And.imp_right Phase.isStarted_of_isDone)
  refine ⟨hmem, ?_⟩
  cases hb : N.body i v with
  | nop => simpa only [hb] using hstart
  | comp b1 b2 b3 operator => simpa only [hb] using hstart
  | send peer tag b => exact ((hV.rank i).chan.send ⟨hmem, hb⟩).read h
  | recv peer tag b => exact ((hV.rank i).chan.recv ⟨hmem, hb⟩).received h

/-- Between two rounds everything has been carried out. -/
theorem opDone_of_between (hV : N.ViewOk K V) (he : V.exec i = none)
    (hmem : v ∈ (N.graph i).verts) (hm : m < (V.env i).round) : N.OpDone V i m v := by
  refine opDone_of_completed hV hmem ?_
  by_cases hlt : m + 1 < (V.env i).round
  · exact Or.inl hlt
  · exact Or.inr ⟨by omega, by rw [he]; rfl⟩

/-- What comes before a task that has been carried out has been carried out. -/
theorem done_of_before (hV : N.ViewOk K V) {t t' : Task n} (hb : N.Before t t')
    (ht : N.Done V t') : N.Done V t := by
  cases hb with
  | @user i m m' hlt =>
      rcases ht with h | ⟨h, _⟩
      · exact Or.inl (hlt.trans h)
      · exact Or.inl (h ▸ hlt)
  | @enter i m m' v hle =>
      have := OpDone.started hV ht
      exact Or.inl (by omega)
  | @leave i m m' v hv hlt =>
      rcases ht with h | ⟨h, hready⟩
      · exact opDone_of_completed hV hv (Or.inl (by omega))
      · exact opDone_of_between hV ((hV.rank i).ready_ok hready).1 hv (by omega)
  | @round i m m' u v hu hlt =>
      have := OpDone.started hV ht
      exact opDone_of_completed hV hu (Or.inl (by omega))
  | @pred i m u v hp =>
      have hu : u ∈ (N.graph i).verts := (Before.known N (.pred (m := m) hp)).1
      refine opDone_of_completed hV hu ((OpDone.started hV ht).imp_right ?_)
      rintro ⟨hm, hs⟩
      refine ⟨hm, ?_⟩
      cases he : V.exec i with
      | none => rfl
      | some a =>
          rw [he] at hs
          exact (hV.sound he).isDone_of_reaches hp (Phase.ne_idle_of_isStarted hs)
  | @message i x j y m hm =>
      obtain ⟨tag, b, c, hs, hr⟩ := hm
      have hrec := ht.2
      simp only [hr.2] at hrec
      refine ⟨hs.1, ?_⟩
      simp only [hs.2]
      exact hV.backed i j tag m hrec

/-! ### Traces -/

variable (N) in
/-- The tasks that have been carried out, in an order in which they could have been carried
out one after another. -/
structure Trace (V : View α n) (es : List (Task n)) : Prop where
  store : V.env.store = N.tasks.execAll es N.start.env.store
  nodup : es.Nodup
  respects : Respects N.Before es
  mem : ∀ t, t ∈ es ↔ N.Done V t

variable {es : List (Task n)}

/-- Nothing that counts as a task happens. -/
theorem Trace.silent (ht : N.Trace V es) (hstore : V'.env.store = V.env.store)
    (hdone : ∀ t, N.Done V' t ↔ N.Done V t) : N.Trace V' es where
  store := hstore.trans ht.store
  nodup := ht.nodup
  respects := ht.respects
  mem t := (ht.mem t).trans (hdone t).symm

/-- A task is carried out. -/
theorem Trace.exec (ht : N.Trace V es) (hV : N.ViewOk K V) {t : Task n} (hnew : ¬ N.Done V t)
    (hstore : V'.env.store = N.execTask t V.env.store) (hdone : N.Done V' t)
    (hothers : ∀ t', t' ≠ t → (N.Done V' t' ↔ N.Done V t')) : N.Trace V' (es ++ [t]) where
  store := by
    rw [Tasks.execAll_snoc, ← ht.store, hstore]
    rfl
  nodup := by
    refine List.nodup_append.mpr ⟨ht.nodup, List.nodup_singleton t, fun t' ht' u hu heq => ?_⟩
    rw [List.mem_singleton] at hu
    exact hnew (hu ▸ heq ▸ (ht.mem t').mp ht')
  respects :=
    respects_snoc.mpr ⟨ht.respects,
      fun t' ht' hb => hnew (done_of_before hV hb ((ht.mem t').mp ht'))⟩
  mem t' := by
    rw [List.mem_append, List.mem_singleton, ht.mem]
    by_cases htt : t' = t
    · rw [htt]
      exact iff_of_true (Or.inr rfl) hdone
    · rw [hothers t' htt]
      exact or_iff_left htt

theorem trace_start : N.Trace N.start [] where
  store := rfl
  nodup := List.nodup_nil
  respects := List.Pairwise.nil
  mem t := by
    refine iff_of_false (fun hmem => by cases hmem) (fun hd => ?_)
    cases t with
    | user i m =>
        rcases hd with h | ⟨_, h⟩
        · exact absurd h (Nat.not_lt_zero m)
        · cases h
    | op i m v =>
        have hround := OpDone.started (N.viewOk_start 0) hd
        simp only [start, initial] at hround
        omega

/-- Silent moves: neither memory nor messages change, and no computation starts. -/
theorem Trace.congr (ht : N.Trace V es) (hmem : ∀ i : Nat, (V'.env i).mem = (V.env i).mem)
    (hsent : ∀ i : Nat, (V'.env i).sentAt = (V.env i).sentAt)
    (hrec : ∀ i : Nat, (V'.env i).ReceivedAt = (V.env i).ReceivedAt)
    (huser : ∀ (i : Fin n) (m : Nat),
      (m < (V'.env i).round ∨ m = (V'.env i).round ∧ V'.ready i = true) ↔
        (m < (V.env i).round ∨ m = (V.env i).round ∧ V.ready i = true))
    (hstart : ∀ (i : Fin n) (m v : Nat), v ∈ (N.graph i).verts →
      (N.body i v).isRequest = false →
      ((m + 1 < (V'.env i).round ∨
        m + 1 = (V'.env i).round ∧ (phaseOf (V'.exec i) v).isStarted = true) ↔
      (m + 1 < (V.env i).round ∨
        m + 1 = (V.env i).round ∧ (phaseOf (V.exec i) v).isStarted = true))) :
    N.Trace V' es := by
  refine ht.silent ?_ (fun t => ?_)
  · funext l
    cases l with
    | memory i p => exact congrFun (hmem i) p
    | message s d tag k => exact congrFun (congrFun (congrFun (hsent s) d) tag) k
  · cases t with
    | user i m => exact huser i m
    | op i m v => exact opDone_congr (hsent i) (hrec i) (hstart i m v)

/-- A rank that goes on with its round, without a task. -/
theorem Trace.pass {env : Env α} {a a' : Progress Nat} (ht : N.Trace V es)
    (he : V.exec i = some a)
    (henv : ∀ j : Nat, (env j).mem = (V.env j).mem ∧ (env j).sentAt = (V.env j).sentAt ∧
      (env j).ReceivedAt = (V.env j).ReceivedAt ∧ (env j).round = (V.env j).round)
    (hs : ∀ w, (N.body i w).isRequest = false →
      (a'.phase w).isStarted = (a.phase w).isStarted) : N.Trace (V.go i env a') es := by
  refine ht.congr (fun j => (henv j).1) (fun j => (henv j).2.1) (fun j => (henv j).2.2.1)
    (fun j m => ?_) (fun j m v _ hb => ?_)
  · simp only [View.go, (henv j).2.2.2]
  · simp only [View.go, (henv j).2.2.2]
    by_cases hj : j = i
    · subst hj
      rw [Function.update_self, he]
      simp only [phaseOf, hs v hb]
    · rw [Function.update_of_ne hj]

/-- What a post handler leaves as it is. -/
theorem modify_same {f : RankEnv α → RankEnv α} (hm : (f (V.env i)).mem = (V.env i).mem)
    (hs : (f (V.env i)).sentAt = (V.env i).sentAt)
    (hr : (f (V.env i)).ReceivedAt = (V.env i).ReceivedAt)
    (hround : (f (V.env i)).round = (V.env i).round) (j : Nat) :
    (V.env.modify i f j).mem = (V.env j).mem ∧ (V.env.modify i f j).sentAt = (V.env j).sentAt ∧
      (V.env.modify i f j).ReceivedAt = (V.env j).ReceivedAt ∧
        (V.env.modify i f j).round = (V.env j).round :=
  ⟨Env.modify_congr RankEnv.mem hm j, Env.modify_congr RankEnv.sentAt hs j,
    Env.modify_congr RankEnv.ReceivedAt hr j, Env.modify_congr RankEnv.round hround j⟩

/-- The code before a round is a task. -/
theorem Trace.user (ht : N.Trace V es) (hV : N.ViewOk K V) (hr : V.ready i = false) :
    N.Trace { V with
      env := V.env.modify i (N.runUser i)
      ready := Function.update V.ready i true } (es ++ [.user i (V.env i).round]) := by
  have hround : ∀ j : Nat, (V.env.modify i (N.runUser i) j).round = (V.env j).round :=
    fun j => Env.modify_congr RankEnv.round rfl j
  have hsent : ∀ j : Nat, (V.env.modify i (N.runUser i) j).sentAt = (V.env j).sentAt :=
    fun j => Env.modify_congr RankEnv.sentAt rfl j
  have hrec : ∀ j : Nat, (V.env.modify i (N.runUser i) j).ReceivedAt = (V.env j).ReceivedAt :=
    fun j => Env.modify_congr RankEnv.ReceivedAt rfl j
  refine ht.exec hV (fun hd => ?_) ?_ ?_ (fun t hne => ?_)
  · rcases hd with h | ⟨_, h⟩
    · exact lt_irrefl _ h
    · rw [hr] at h
      cases h
  · funext l
    cases l with
    | memory j p =>
        by_cases hj : j = i
        · subst hj
          simp only [Env.store, Env.modify_self, execTask, if_true]
          rfl
        · simp only [Env.store, Env.modify_of_ne hj, execTask, if_neg hj]
    | message s d tag k => exact congrFun (congrFun (congrFun (hsent s) d) tag) k
  · exact Or.inr ⟨(hround i).symm, Function.update_self _ _ _⟩
  · cases t with
    | user j m =>
        simp only [Done, hround]
        by_cases hj : j = i
        · subst hj
          have hm : m ≠ (V.env j).round := fun heq => hne (by rw [heq])
          simp only [hm, false_and]
        · simp only [Function.update_of_ne hj]
    | op j m v => simp only [Done, OpDone, hround, hsent, hrec]

/-- The beginning of a round is no task. -/
theorem Trace.enter (ht : N.Trace V es) (hV : N.ViewOk K V) (hr : V.ready i = true) :
    N.Trace
      { env := V.env.modify i RankEnv.nextRound
        ready := Function.update V.ready i false
        exec := Function.update V.exec i (some (N.graph i).start) } es := by
  have hnone := ((hV.rank i).ready_ok hr).1
  refine ht.congr (fun j => Env.modify_congr RankEnv.mem rfl j)
    (fun j => Env.modify_congr RankEnv.sentAt rfl j)
    (fun j => Env.modify_congr RankEnv.ReceivedAt rfl j)
    (fun j m => ?_) (fun j m v _ _ => ?_)
  · by_cases hj : j = i
    · subst hj
      simp only [Env.modify_self, RankEnv.nextRound, Function.update_self, hr,
        Bool.false_eq_true, and_false, or_false, and_true]
      omega
    · simp only [Env.modify_of_ne (fun heq => hj (Fin.ext heq)), Function.update_of_ne hj]
  · by_cases hj : j = i
    · subst hj
      have hs : (phaseOf (some (N.graph j).start) v).isStarted = false :=
        ViewOk.start_not_started _ v
      have hd : (phaseOf none v).isStarted = true := rfl
      simp only [Env.modify_self, RankEnv.nextRound, Function.update_self, hnone, hs, hd,
        Bool.false_eq_true, and_false, or_false, and_true]
      omega
    · simp only [Env.modify_of_ne (fun heq => hj (Fin.ext heq)), Function.update_of_ne hj]

/-- An operation that is not a request is carried out when it is posted. -/
theorem Trace.posted {env : Env α} {a : Progress Nat} (ht : N.Trace V es) (hV : N.ViewOk K V)
    (he : V.exec i = some a) (hv : a.phase v = .triggered) (hb : (N.body i v).isRequest = false)
    (henv : ∀ j : Nat, (env j).sentAt = (V.env j).sentAt ∧
      (env j).ReceivedAt = (V.env j).ReceivedAt ∧ (env j).round = (V.env j).round)
    (hstore : env.store = N.execTask (.op i ((V.env i).round - 1) v) V.env.store) :
    N.Trace (V.go i env (a.setPhase v .completing))
      (es ++ [.op i ((V.env i).round - 1) v]) := by
  have hpos := (hV.rank i).round_pos a he
  have hmem := hV.mem_verts he (v := v) (by simp [hv])
  have hm : (V.env i).round - 1 + 1 = (V.env i).round := by omega
  refine ht.exec hV (fun hd => ?_) hstore ?_ (fun t hne => ?_)
  · have := OpDone.started hV hd
    rw [he] at this
    simp only [phaseOf, hv, Phase.isStarted, Bool.false_eq_true, and_false, or_false] at this
    omega
  · refine opDone_of_started hmem hb (Or.inr ⟨?_, ?_⟩)
    · simp only [View.go, (henv i).2.2, hm]
    · simp only [View.go, Function.update_self, phaseOf, setPhase_phase, if_true]
      rfl
  · cases t with
    | user j m => simp only [Done, View.go, (henv j).2.2]
    | op j m w =>
        refine opDone_congr (henv j).1 (henv j).2.1 (fun _ _ => ?_)
        simp only [View.go, (henv j).2.2]
        by_cases hj : j = i
        · subst hj
          rw [Function.update_self, he]
          by_cases hw : w = v
          · have hmr : m + 1 ≠ (V.env j).round := by
              rintro hmr
              exact hne (by rw [hw, ← hmr, Nat.add_sub_cancel])
            simp only [hmr, false_and]
          · simp only [phaseOf, setPhase_phase, if_neg hw]
        · rw [Function.update_of_ne hj]

/-- Sends and receives of a rank of the program. -/
theorem exists_rank (hV : N.ViewOk K V) {i peer tag k : Nat}
    (h : (∃ e, ((V.env i).out peer tag)[k]? = some e) ∨
      ∃ r, ((V.env i).inc peer tag)[k]? = some r) : ∃ j : Fin n, (j : Nat) = i := by
  by_cases hi : i < n
  · exact ⟨⟨i, hi⟩, rfl⟩
  · obtain ⟨hout, hinc⟩ := hV.outside i (by omega) peer tag
    rw [hout, hinc] at h
    rcases h with ⟨e, he⟩ | ⟨e, he⟩ <;> cases he

/-- The network reads a buffer: that is the task of the send. -/
theorem Trace.read (hN : N.Channels) (ht : N.Trace V es) (hV : N.ViewOk K V)
    (i j tag k : Nat) : ∃ es', N.Trace { V with env := readSend i j tag k V.env } es' := by
  have hself : readSend i j tag k V.env i = (V.env i).readSend j tag k := Env.modify_self _ _ _
  have hne : ∀ l, l ≠ i → readSend i j tag k V.env l = V.env l :=
    fun l hl => Env.modify_of_ne hl _ _
  rcases (V.env i).readSend_cases j tag k with heq | ⟨e, he, hn, heq⟩
  · have henv : readSend i j tag k V.env = V.env := by
      rw [readSend, Env.modify, heq, Function.update_eq_self]
    rw [henv]
    exact ⟨es, ht⟩
  · obtain ⟨i, rfl⟩ := exists_rank hV (Or.inl ⟨e, he⟩)
    obtain ⟨x, b, hx⟩ := (hV.rank i).chan.exists_send he
    obtain ⟨hbuffer, hcount⟩ := ((hV.rank i).chan.send hx).posted k e he
    have hold : (V.env i).sentAt j tag k = none := by
      rw [RankEnv.sentAt, he, Option.bind_some, SendReq.sent, hn]
      rfl
    have hmem : ∀ l, (readSend i j tag k V.env l).mem = (V.env l).mem := by
      intro l
      by_cases hl : l = i
      · rw [hl, hself, RankEnv.readSend_mem]
      · rw [hne l hl]
    have hrec : ∀ l, (readSend i j tag k V.env l).ReceivedAt = (V.env l).ReceivedAt := by
      intro l
      unfold RankEnv.ReceivedAt
      rw [(readSend_rank i j tag k V.env l).1]
    have hround := fun l => (readSend_rank i j tag k V.env l).2.2
    have hsent : ∀ l d t m, (readSend i j tag k V.env l).sentAt d t m =
        if l = i ∧ d = j ∧ t = tag ∧ m = k then
          some (((N.lib i).buffs b).count, (V.env i).mem (N.ptr i b))
        else (V.env l).sentAt d t m := by
      intro l d t m
      by_cases hl : l = i
      · subst hl
        rw [hself, heq, RankEnv.sentAt_readSend he, hbuffer, hcount]
        simp only [true_and]
      · rw [hne l hl, if_neg (fun hc => hl hc.1)]
    refine ⟨_, ht.exec hV (t := .op i k x) (fun hd => ?_) ?_ ?_ (fun t htne => ?_)⟩
    · have := hd.2
      simp only [hx.2, hold, reduceCtorEq, exists_false] at this
    · funext l
      simp only [execTask, hx.2]
      cases l with
      | memory l p =>
          rw [Function.update_of_ne (by simp)]
          exact congrFun (hmem l) p
      | message l d t m =>
          simp only [Env.store]
          rw [hsent]
          by_cases hc : l = i ∧ d = j ∧ t = tag ∧ m = k
          · rw [if_pos hc]
            obtain ⟨rfl, rfl, rfl, rfl⟩ := hc
            rw [Function.update_self]
          · rw [if_neg hc, Function.update_of_ne (by simpa using hc)]
            rfl
    · refine ⟨hx.1, ?_⟩
      simp only [hx.2, hsent, and_self, if_true]
      exact ⟨_, rfl⟩
    · cases t with
      | user l m => simp only [Done, hround]
      | op l m v =>
          refine and_congr_right (fun hv => ?_)
          simp only [hround, hrec]
          cases hb : N.body l v with
          | nop => rfl
          | comp b1 b2 b3 operator => rfl
          | recv peer t c => rfl
          | send peer t c =>
              have hc : ¬ ((l : Nat) = i ∧ peer = j ∧ t = tag ∧ m = k) := by
                rintro ⟨hl, rfl, rfl, rfl⟩
                obtain rfl := Fin.ext hl
                exact htne (congrArg _ (hN.send_unique ⟨hv, hb⟩ hx))
              simp only [hsent, if_neg hc]

/-- The network delivers a message: that is the task of the receive. -/
theorem Trace.deliver (hN : N.Channels) (ht : N.Trace V es) (hV : N.ViewOk K V)
    (i j tag k : Nat) : ∃ es', N.Trace { V with env := Fflib.deliver i j tag k V.env } es' := by
  have hself : Fflib.deliver i j tag k V.env i =
      (V.env i).deliver j tag k ((V.env j).out i tag)[k]? := Env.modify_self _ _ _
  have hne : ∀ l, l ≠ i → Fflib.deliver i j tag k V.env l = V.env l :=
    fun l hl => Env.modify_of_ne hl _ _
  rcases (V.env i).deliver_cases j tag k ((V.env j).out i tag)[k]? with
    heq | ⟨r, e, payload, hr, hd, he, hp, heq⟩
  · have henv : Fflib.deliver i j tag k V.env = V.env := by
      rw [Fflib.deliver, Env.modify, heq, Function.update_eq_self]
    rw [henv]
    exact ⟨es, ht⟩
  · obtain ⟨i, rfl⟩ := exists_rank hV (Or.inr ⟨r, hr⟩)
    obtain ⟨y, b, hy⟩ := (hV.rank i).chan.exists_recv hr
    obtain ⟨hbuffer, hcount⟩ := ((hV.rank i).chan.recv hy).posted k r hr
    have hmsg : (V.env j).sentAt i tag k = some (e.count, payload) :=
      RankEnv.sentAt_eq_some_iff.mpr ⟨e, payload, he, hp, rfl⟩
    have hsent : ∀ l, (Fflib.deliver i j tag k V.env l).sentAt = (V.env l).sentAt := by
      intro l
      by_cases hl : l = i
      · rw [hl, hself, RankEnv.sentAt_deliver]
      · rw [hne l hl]
    have hround := fun l => (deliver_rank i j tag k V.env l).2
    have hrec : ∀ l d t m, (Fflib.deliver i j tag k V.env l).ReceivedAt d t m ↔
        (l = i ∧ d = j ∧ t = tag ∧ m = k) ∨ (V.env l).ReceivedAt d t m := by
      intro l d t m
      by_cases hl : l = i
      · subst hl
        rw [hself, heq, RankEnv.receivedAt_deliver hr]
        simp only [true_and]
      · rw [hne l hl]
        exact ⟨Or.inr, fun h => h.resolve_left (fun hc => hl hc.1)⟩
    have hmem : ∀ l p, (Fflib.deliver i j tag k V.env l).mem p =
        if l = i ∧ p = N.ptr i b then fun x =>
          if x < e.count ∧ x < ((N.lib i).buffs b).count then payload x else (V.env i).mem p x
        else (V.env l).mem p := by
      intro l p
      by_cases hl : l = i
      · subst hl
        rw [hself, heq, RankEnv.setInc_mem, RankEnv.setMem_mem, hbuffer, hcount]
        by_cases hpb : p = N.ptr i b
        · rw [if_pos hpb, if_pos ⟨rfl, hpb⟩, hpb]
        · rw [if_neg hpb, if_neg (fun hc => hpb hc.2)]
      · rw [hne l hl, if_neg (fun hc => hl hc.1)]
    refine ⟨_, ht.exec hV (t := .op i k y) (fun hdone => ?_) ?_ ?_ (fun t htne => ?_)⟩
    · have := hdone.2
      simp only [hy.2] at this
      obtain ⟨r', hr', hd'⟩ := this
      rw [hr] at hr'
      rw [← Option.some.inj hr', hd] at hd'
      cases hd'
    · funext l
      simp only [execTask, hy.2]
      cases l with
      | memory l p =>
          simp only [Env.store]
          rw [hmem]
          by_cases hc : l = i ∧ p = N.ptr i b
          · rw [if_pos hc]
            obtain ⟨rfl, rfl⟩ := hc
            rw [Function.update_self]
            simp only [hmsg]
            rfl
          · rw [if_neg hc, Function.update_of_ne (by simpa using hc)]
            rfl
      | message l d t m =>
          rw [Function.update_of_ne (by simp)]
          exact congrFun (congrFun (congrFun (hsent l) d) t) m
    · refine ⟨hy.1, ?_⟩
      simp only [hy.2, hrec, and_self, true_or]
    · cases t with
      | user l m => simp only [Done, hround]
      | op l m v =>
          refine and_congr_right (fun hv => ?_)
          simp only [hround, hsent]
          cases hb : N.body l v with
          | nop => rfl
          | comp b1 b2 b3 operator => rfl
          | send peer t c => rfl
          | recv peer t c =>
              have hc : ¬ ((l : Nat) = i ∧ peer = j ∧ t = tag ∧ m = k) := by
                rintro ⟨hl, rfl, rfl, rfl⟩
                obtain rfl := Fin.ext hl
                exact htne (congrArg _ (hN.recv_unique ⟨hv, hb⟩ hy))
              simp only [hrec, or_iff_right hc]

/-- A request changes its phase: that is no task. -/
theorem Trace.request {env : Env α} {a : Progress Nat} {q : Phase} (ht : N.Trace V es)
    (he : V.exec i = some a) (hb : (N.body i v).isRequest = true)
    (henv : ∀ j : Nat, (env j).mem = (V.env j).mem ∧ (env j).sentAt = (V.env j).sentAt ∧
      (env j).ReceivedAt = (V.env j).ReceivedAt ∧ (env j).round = (V.env j).round) :
    N.Trace (V.go i env (a.setPhase v q)) es := by
  refine ht.pass he henv (fun w hw => ?_)
  have hwv : w ≠ v := by
    rintro rfl
    rw [hb] at hw
    cases hw
  rw [setPhase_phase, if_neg hwv]

/-- What a computation does to the store. -/
theorem store_gcomp (hV : N.ViewOk K V) {b1 b2 b3 : Nat} {operator : Int} (m : Nat)
    (hb : N.body i v = .comp b1 b2 b3 operator) :
    (V.env.modify i (RankEnv.gcompAt N.ops (N.ptr i) b1 b2 b3 operator)).store =
      N.execTask (.op i m v) V.env.store := by
  funext l
  simp only [execTask, hb]
  cases l with
  | memory j p =>
      simp only [Env.store]
      by_cases hj : j = i
      · subst hj
        rw [Env.modify_self, RankEnv.gcompAt, RankEnv.setMem_mem, (hV.rank i).chan.buffs_eq]
        by_cases hp : p = N.ptr i b3
        · subst hp
          rw [if_pos rfl, Function.update_self]
        · rw [if_neg hp, Function.update_of_ne (by simpa using hp)]
          rfl
      · rw [Env.modify_of_ne hj, Function.update_of_ne (by simp [hj])]
        rfl
  | message s d t k =>
      rw [Function.update_of_ne (by simp)]
      simp only [Env.store]
      by_cases hs : s = i
      · rw [hs, Env.modify_self]
        rfl
      · rw [Env.modify_of_ne hs]

/-- **Step lemma**: a move is a task, or silent. -/
theorem Trace.move (hN : N.Channels) (ht : N.Trace V es) (hV : N.ViewOk K V) {sync : Bool}
    (hm : N.ViewMove sync K V V') : ∃ es', N.Trace V' es' := by
  cases hm with
  | user _ hr _ => exact ⟨_, ht.user hV hr⟩
  | enter hr => exact ⟨_, ht.enter hV hr⟩
  | @leave i a he hd =>
      refine ⟨es, ht.congr (fun _ => rfl) (fun _ => rfl) (fun _ => rfl) (fun _ _ => Iff.rfl)
        (fun j m v hv _ => ?_)⟩
      by_cases hj : j = i
      · subst hj
        have hs : (phaseOf (some a) v).isStarted = (phaseOf none v).isStarted :=
          Phase.isStarted_of_isDone (hd v hv)
        simp only [Function.update_self, he, hs]
      · simp only [Function.update_of_ne hj]
  | @isend i a v peer tag b he hv hb =>
      exact ⟨es, ht.request he (by rw [hb]; rfl)
        (modify_same rfl (RankEnv.isendAt_sentAt _ _ _ _ _ _) rfl rfl)⟩
  | @irecv i a v peer tag b he hv hb =>
      exact ⟨es, ht.request he (by rw [hb]; rfl)
        (modify_same rfl rfl (RankEnv.irecvAt_receivedAt _ _ _ _ _ _) rfl)⟩
  | @comp i a v b1 b2 b3 operator he hv hb =>
      refine ⟨_, ht.posted hV he hv (by rw [hb]; rfl) (fun j => ?_) (store_gcomp hV _ hb)⟩
      by_cases hj : j = i
      · rw [hj, Env.modify_self]
        exact ⟨rfl, rfl, rfl⟩
      · rw [Env.modify_of_ne hj]
        exact ⟨rfl, rfl, rfl⟩
  | @nop i a v he hv hb =>
      refine ⟨_, ht.posted hV he hv (by rw [hb]; rfl) (fun _ => ⟨rfl, rfl, rfl⟩) ?_⟩
      simp only [execTask, hb]
  | @complete i a v he hv =>
      refine ⟨es, ht.pass he (fun _ => ⟨rfl, rfl, rfl, rfl⟩) (fun w _ => ?_)⟩
      rw [finish_phase]
      split
      · next hw => rw [hw, hv]; rfl
      · rfl
  | @fire i a v j he hv hj =>
      have hidle := ((hV.sound he).target_idle hv hj).1
      refine ⟨es, ht.pass he (fun _ => ⟨rfl, rfl, rfl, rfl⟩) (fun w _ => ?_)⟩
      rw [fire_phase hv hidle]
      split
      · next hw => rw [hw, hv]; rfl
      · split
        · next hw => rw [hw.1, hidle]; rfl
        · rfl
  | read i j tag k => exact ht.read hN hV i j tag k
  | deliver i j tag k => exact ht.deliver hN hV i j tag k
  | @sent i a v peer tag b c he hv hb _ _ =>
      exact ⟨es, ht.request he (by rw [hb]; rfl) (fun _ => ⟨rfl, rfl, rfl, rfl⟩)⟩
  | @received i a v peer tag b he hv hb _ =>
      exact ⟨es, ht.request he (by rw [hb]; rfl) (fun _ => ⟨rfl, rfl, rfl, rfl⟩)⟩

/-- Run lemma: every run of the view is a trace. -/
theorem trace_of_moves (hN : N.Channels) {sync : Bool}
    (hm : Relation.ReflTransGen (N.ViewMove sync K) N.start V) :
    N.ViewOk K V ∧ ∃ es, N.Trace V es := by
  induction hm with
  | refl => exact ⟨N.viewOk_start K, [], trace_start⟩
  | tail _ hstep ih =>
      obtain ⟨hV, es, ht⟩ := ih
      exact ⟨hV.move hN hstep, ht.move hN hV hstep⟩

/-- Every reachable state is that of a trace. -/
theorem exists_trace (hN : N.Channels) {sync : Bool} {w : NetState α n}
    (hw : Reachable (netStep N sync K) N.initial w) :
    ∃ s, N.NetInv K w s ∧ ∃ es, N.Trace ⟨w.env, w.ready, s⟩ es := by
  obtain ⟨s, hr⟩ := exists_refines hN hw
  exact ⟨s, hr.inv, (trace_of_moves hN hr.moves).2⟩

theorem known_of_done {t : Task n} (h : N.Done V t) : N.Known t := by
  cases t with
  | user i m => trivial
  | op i m v => exact h.1

/-! ### Determinacy -/

variable (N) in
/-- The tasks of rank `i` in its first `r` rounds, and the code before the next one if it has
run. -/
def UpTo (i : Fin n) (r : Nat) (ready : Bool) : Task n → Prop
  | .user j m => j = i ∧ (m < r ∨ m = r ∧ ready = true)
  | .op j m v => j = i ∧ m < r ∧ v ∈ (N.graph j).verts

theorem upTo_iff {r : Nat} {t : Task n} (ht : t.rank = i) :
    N.UpTo i r false t ↔ N.Known t ∧ t.round < r := by
  cases t with
  | user j m =>
      simp only [UpTo, Known, Task.round, Bool.false_eq_true, and_false, or_false, true_and]
      exact ⟨fun h => h.2, fun h => ⟨ht, h⟩⟩
  | op j m v =>
      simp only [UpTo, Known, Task.round]
      exact ⟨fun h => ⟨h.2.2, h.2.1⟩, fun h => ⟨ht, h.2, h.1⟩⟩

/-- Between two rounds a rank has carried out all tasks of its rounds so far. -/
theorem done_iff_upTo (hV : N.ViewOk K V) (he : V.exec i = none) {t : Task n}
    (ht : t.rank = i) : N.Done V t ↔ N.UpTo i (V.env i).round (V.ready i) t := by
  cases t with
  | user j m =>
      obtain rfl : j = i := ht
      exact ⟨fun h => ⟨rfl, h⟩, fun h => h.2⟩
  | op j m v =>
      obtain rfl : j = i := ht
      constructor
      · intro h
        have := OpDone.started hV h
        exact ⟨rfl, by omega, h.1⟩
      · rintro ⟨_, hm, hv⟩
        exact opDone_of_between hV he hv hm

/-- Only the tasks of a rank write its memory. -/
theorem rank_of_writes {t : Task n} {i p : Nat} (h : Loc.memory i p ∈ N.taskWrites t) :
    (t.rank : Nat) = i := by
  cases t with
  | user j m =>
      obtain ⟨q, hq⟩ := h
      exact (Loc.memory.inj hq).1.symm
  | op j m v =>
      rcases h with ⟨q, _, hq⟩ | ⟨_, _, _, _, hq⟩
      · exact (Loc.memory.inj hq).1.symm
      · cases hq

/-- The memory of a rank between two rounds is that after any sequential execution in which
the rank has got as far. -/
theorem Trace.memory_eq (hN : N.Channels) (hR : N.RaceFree) (ht : N.Trace V es)
    (hV : N.ViewOk K V) (he : V.exec i = none) {us : List (Task n)} (hnd : us.Nodup)
    (hrs : Respects N.Before us) (hclosed : ∀ t t', N.Before t t' → t' ∈ us → t ∈ us)
    (hknown : ∀ t, t ∈ us → N.Known t)
    (hrank : ∀ t, t.rank = i → (t ∈ us ↔ N.UpTo i (V.env i).round (V.ready i) t)) (p : Nat) :
    (V.env i).mem p = N.tasks.execAll us N.start.env.store (.memory i p) := by
  have hup : ∀ t, N.UpTo i (V.env i).round (V.ready i) t → t.rank = i := by
    intro t h
    cases t with
    | user j m => exact h.1
    | op j m v => exact h.1
  have hdown : ∀ {D : Task n → Prop}, (∀ t t', N.Before t t' → D t' → D t) →
      ∀ {t t'}, Relation.ReflTransGen N.Before t t' → D t' → D t := by
    intro D hD t t' hr h
    induction hr using Relation.ReflTransGen.head_induction_on with
    | refl => exact h
    | head hb _ ih => exact hD _ _ hb ih
  have hstore : (V.env i).mem p = V.env.store (.memory i p) := rfl
  rw [hstore, ht.store]
  have hclosedD : ∀ t t', N.Before t t' →
      (∃ t'', N.UpTo i (V.env i).round (V.ready i) t'' ∧ Relation.ReflTransGen N.Before t' t'') →
      ∃ t'', N.UpTo i (V.env i).round (V.ready i) t'' ∧ Relation.ReflTransGen N.Before t t'' :=
    fun t t' hb ⟨t'', hu, hr⟩ => ⟨t'', hu, .head hb hr⟩
  refine Tasks.execAll_eq_of_closed hclosedD ht.respects hrs ht.nodup hnd
    (fun t ⟨t', hu, hr⟩ => ?_) (fun t t' hmem hmem' hne hc => ?_) (fun t hmem hw => ?_)
    N.start.env.store
  · refine iff_of_true ?_ ?_
    · refine hdown (fun t t' hb h => ?_) hr ?_
      · exact (ht.mem t).mpr (done_of_before hV hb ((ht.mem t').mp h))
      · exact (ht.mem t').mpr ((done_iff_upTo hV he (hup t' hu)).mpr hu)
    · exact hdown hclosed hr ((hrank t' (hup t' hu)).mpr hu)
  · have hk : ∀ t, t ∈ es ∨ t ∈ us → N.Known t := by
      rintro t (h | h)
      · exact known_of_done ((ht.mem t).mp h)
      · exact hknown t h
    exact N.before_of_conflict hN hR (hk t hmem) (hk t' hmem') hne hc
  · have hi : t.rank = i := Fin.ext (rank_of_writes hw)
    refine ⟨t, ?_, .refl⟩
    rcases hmem with h | h
    · exact (done_iff_upTo hV he hi).mp ((ht.mem t).mp h)
    · exact (hrank t hi).mp h

/-- Two runs of the view agree on what a rank finds in its memory between two rounds. -/
theorem mem_eq_of_moves (hN : N.Channels) (hR : N.RaceFree) {sync sync' : Bool} {K' : Nat}
    {V' : View α n} (hm : Relation.ReflTransGen (N.ViewMove sync K) N.start V)
    (hm' : Relation.ReflTransGen (N.ViewMove sync' K') N.start V') (he : V.exec i = none)
    (he' : V'.exec i = none) (hround : (V.env i).round = (V'.env i).round)
    (hready : V.ready i = V'.ready i) : (V.env i).mem = (V'.env i).mem := by
  obtain ⟨hV, es, ht⟩ := trace_of_moves hN hm
  obtain ⟨hV', es', ht'⟩ := trace_of_moves hN hm'
  funext p
  have hmem := ht.memory_eq hN hR hV he ht'.nodup ht'.respects
    (fun t t' hb h => (ht'.mem t).mpr (done_of_before hV' hb ((ht'.mem t').mp h)))
    (fun t h => known_of_done ((ht'.mem t).mp h))
    (fun t hi => by rw [ht'.mem, done_iff_upTo hV' he' hi, hround, hready]) p
  exact hmem.trans (congrFun ht'.store (.memory i p)).symm

end Net

end Fflib
