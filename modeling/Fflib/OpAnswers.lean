import Fflib.Kernels
import Fflib.LostOps
import Fflib.Net

/-!
# What operators answer

`ffop_gcomp_post` returns what the function of its operator returns, `FFCOMPLETED` in place of
`FFSUCCESS`: a computation whose operator answers with an error is never completed.  The
handlers of `mpiImpl` and `netImpl` compute; `Impl.answering` are those that also answer.

* `OpAnswers.code` is what the functions return: the built-in ones what their kernels do, the
  others what they like, which may depend on the contents of the buffers.
* `frameStep_answering`: where the operators succeed, a process takes the steps that it takes
  without their answers.
* `lostBy_of_not_opSucceeds`: where one fails, its operation is lost.
-/

namespace Fflib

open Library

universe u

variable {α : Type u}

/-- A call of the function of an operator, with the contents of its buffers. -/
structure OpCall (α : Type u) where
  operator : Int
  buffer1 : Nat → α
  buffer2 : Nat → α
  buffer3 : Nat → α
  size : Nat
  datatype : Int

/-- The operators other than `FFSUM` and `FFIDENTITY`: what they return, and what they leave in
`buffer3` when that is an error. -/
structure OpAnswers (α : Type u) where
  other : OpCall α → Int
  left : OpCall α → Nat → α

/-- The code of `ffop_gcomp_operator_sum`. -/
def sumCode (datatype : Int) : Int :=
  if datatype = 0 ∨ datatype = 1 ∨ datatype = 2 ∨ datatype = 3 then ffSuccess else ffInvalidArg

theorem ffopGcompOperatorSum_code (fp : FloatAdd) (a b c size : Nat) (type : Int)
    (s : KernelState) : (ffopGcompOperatorSum fp a b c size type s).1 = sumCode type := by
  unfold ffopGcompOperatorSum sumType sumCode
  by_cases h0 : type = 0
  · simp [h0]
  · by_cases h1 : type = 1
    · simp [h1]
    · by_cases h2 : type = 2
      · simp [h2]
      · by_cases h3 : type = 3
        · simp [h3]
        · simp [h0, h1, h2, h3]

namespace OpAnswers

variable (F : OpAnswers α)

/-- What `op_fun` returns; `ffop_gcomp_operator_copy` does not fail. -/
def code (c : OpCall α) : Int :=
  if c.operator = ffSum then sumCode c.datatype
  else if c.operator = ffIdentity then ffSuccess
  else F.other c

/-- What `buffer3` holds after an error. -/
def rest (c : OpCall α) : Nat → α := if c.operator = ffSum then c.buffer3 else F.left c

/-- The computation completes. -/
def Succeeds (c : OpCall α) : Prop := F.code c = ffSuccess ∨ F.code c = ffCompleted

instance (c : OpCall α) : Decidable (F.Succeeds c) := inferInstanceAs (Decidable (_ ∨ _))

theorem succeeds_identity {c : OpCall α} (h : c.operator = ffIdentity) : F.Succeeds c := by
  have hne : ffIdentity ≠ ffSum := by decide
  rw [Succeeds, code, h, if_neg hne, if_pos rfl]
  exact Or.inl rfl

/-- An operator that is neither `FFSUM` nor `FFIDENTITY`. -/
theorem code_of_other {c : OpCall α} (hsum : c.operator ≠ ffSum)
    (hid : c.operator ≠ ffIdentity) : F.code c = F.other c := by
  rw [code, if_neg hsum, if_neg hid]

/-- Operators that answer `code`, and leave their third buffer as it was. -/
def always (code : Int) : OpAnswers α where
  other _ := code
  left c := c.buffer3

theorem always_succeeds_iff {code : Int} {c : OpCall α} (h : c.operator = ffCustom) :
    (always code).Succeeds c ↔ code = ffSuccess ∨ code = ffCompleted := by
  have hcode : (always code).code c = code :=
    (always code).code_of_other (by rw [h]; decide) (by rw [h]; decide)
  rw [Succeeds, hcode]

end OpAnswers

/-- The call that `ffop_gcomp_post` makes. -/
def RankEnv.opCall (ptr : Nat → Nat) (buffer1 buffer2 buffer3 : Nat) (operator : Int)
    (E : RankEnv α) : OpCall α where
  operator := operator
  buffer1 := E.mem (ptr buffer1)
  buffer2 := E.mem (ptr buffer2)
  buffer3 := E.mem (ptr buffer3)
  size := gcompCount E.buffs buffer1 buffer2 buffer3
  datatype := (E.buffs buffer1).datatype

/-- The handlers `impl` of rank `i`, with the answers of the operators. -/
def Impl.answering (F : OpAnswers α) (ptr : Nat → Nat) (i : Nat) (impl : Impl (Env α)) :
    Impl (Env α) where
  post x o env :=
    match o.body with
    | .comp b1 b2 b3 operator =>
        let c := (env i).opCall ptr b1 b2 b3 operator
        if F.Succeeds c then impl.post x o env
        else (env.modify i fun E => E.setMem (ptr b3) (F.rest c), F.code c)
    | _ => impl.post x o env
  test := impl.test
  postCallback := impl.postCallback

/-- The operator of a computation that a step posts succeeds. -/
def OpSucceeds (F : OpAnswers α) (ptr : Nat → Nat) (i : Nat) (env : Env α) (p : Proc)
    (act : ProcAct) : Prop :=
  ∀ t x fs b1 b2 b3 operator, act = .frame t → p.stack t = .post x :: fs →
    (p.ops x).body = .comp b1 b2 b3 operator →
      F.Succeeds ((env i).opCall ptr b1 b2 b3 operator)

section Answering

variable {F : OpAnswers α} {ptr : Nat → Nat} {i x : Nat} {impl : Impl (Env α)} {o : Ffop}
  {env : Env α} {p : Proc} {b1 b2 b3 : Nat} {operator : Int}

theorem post_answering_of_succeeds
    (h : ∀ b1 b2 b3 operator, o.body = .comp b1 b2 b3 operator →
      F.Succeeds ((env i).opCall ptr b1 b2 b3 operator)) :
    (impl.answering F ptr i).post x o env = impl.post x o env := by
  cases hb : o.body with
  | comp b1 b2 b3 operator => simp only [Impl.answering, hb, if_pos (h b1 b2 b3 operator hb)]
  | nop => simp only [Impl.answering, hb]
  | send peer tag b => simp only [Impl.answering, hb]
  | recv peer tag b => simp only [Impl.answering, hb]

/-- The computation answers with the error of its operator. -/
theorem post_answering_of_not_succeeds (hb : o.body = .comp b1 b2 b3 operator)
    (h : ¬ F.Succeeds ((env i).opCall ptr b1 b2 b3 operator)) :
    ((impl.answering F ptr i).post x o env).2 =
      F.code ((env i).opCall ptr b1 b2 b3 operator) := by
  simp only [Impl.answering, hb, if_neg h]

/-- The handler of an operation whose operator succeeds, if it has one. -/
theorem implPost_answering_of_succeeds {t : Thread} {fs : List Frame} (impl : Impl (Env α))
    (h : OpSucceeds F ptr i env p (.frame t)) (hstack : p.stack t = .post x :: fs) :
    implPost (impl.answering F ptr i) x ((p.logPosting x).ops x) env =
      implPost impl x ((p.logPosting x).ops x) env := by
  have hbody : ((p.logPosting x).ops x).body = (p.ops x).body :=
    Proc.logPosting_ops_of Ffop.body (fun _ => rfl) p x x
  unfold implPost
  split
  · rfl
  · refine post_answering_of_succeeds fun b1 b2 b3 operator hb => ?_
    exact h t x fs b1 b2 b3 operator rfl hstack (hbody.symm.trans hb)

/-- A frame in which no operator fails. -/
theorem frameStep_answering (impl : Impl (Env α)) {t : Thread}
    (h : OpSucceeds F ptr i env p (.frame t)) :
    frameStep (impl.answering F ptr i) t env p = frameStep impl t env p :=
  frameStep_congr fun _ _ hstack => implPost_answering_of_succeeds impl h hstack

/-- What an operator that fails leaves is in its third buffer. -/
theorem implPost_answering_env (impl : Impl (Env α)) (F : OpAnswers α) (ptr : Nat → Nat)
    (i x : Nat) (o : Ffop) (env : Env α) :
    (implPost (impl.answering F ptr i) x o env).1 = (implPost impl x o env).1 ∨
      ∃ b m, (implPost (impl.answering F ptr i) x o env).1 =
        env.modify i (fun E => E.setMem b m) := by
  cases hb : o.body with
  | comp b1 b2 b3 operator =>
      simp only [implPost, hb, Impl.answering]
      split
      · exact Or.inl rfl
      · exact Or.inr ⟨ptr b3, _, rfl⟩
  | nop => simp only [implPost, hb, true_or]
  | send peer tag b => simp only [implPost, hb, Impl.answering, true_or]
  | recv peer tag b => simp only [implPost, hb, Impl.answering, true_or]

/-- A frame leaves the rounds, if the handlers do. -/
theorem frameStep_answering_round {t : Thread} {env' : Env α} {p' : Proc}
    (himpl : ∀ x o (env : Env α) j, ((implPost impl x o env).1 j).round = (env j).round)
    (hs : frameStep (impl.answering F ptr i) t env p = some (env', p')) (j : Nat) :
    (env' j).round = (env j).round := by
  rcases frameStep_env hs with rfl | ⟨x, o, rfl⟩
  · rfl
  · rcases implPost_answering_env impl F ptr i x o env with h | ⟨b, m, h⟩
    · rw [h]
      exact himpl x o env j
    · rw [h]
      exact Env.modify_congr RankEnv.round rfl j

/-- The step that posts a computation whose operator fails loses it. -/
theorem lostBy_of_not_opSucceeds (impl : Impl (Env α)) {act : ProcAct}
    (h : ¬ OpSucceeds F ptr i env p act) :
    ∃ t x, act = .frame t ∧ p.stack t ≠ [] ∧
      lostBy (impl.answering F ptr i) t env p = [x] := by
  simp only [OpSucceeds, not_forall] at h
  obtain ⟨t, x, fs, b1, b2, b3, operator, rfl, hstack, hb, hfail⟩ := h
  have hbody : ((p.logPosting x).ops x).body = .comp b1 b2 b3 operator :=
    (Proc.logPosting_ops_of Ffop.body (fun _ => rfl) p x x).trans hb
  refine ⟨t, x, rfl, by rw [hstack]; exact List.cons_ne_nil _ _,
    lostBy_of_isError hstack ?_⟩
  have hpost : implPost (impl.answering F ptr i) x ((p.logPosting x).ops x) env =
      (impl.answering F ptr i).post x ((p.logPosting x).ops x) env := by
    simp only [implPost, hbody]
  rw [hpost, post_answering_of_not_succeeds hbody hfail]
  exact not_or.mp hfail

end Answering

end Fflib
