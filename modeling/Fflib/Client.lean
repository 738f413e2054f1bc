import Fflib.Posts

/-!
# A client of the library

One process whose user creates, links and posts operations in any order, while the
progress thread completes what is pending.  The operations of the process are those of
its library state, so `ffop_hb` can come between any two steps of a cascade.

* `Client.engineStep` runs the steps of `Fflib.Posts` on the operations created so far.
* `Client.engineStep_spec`: these steps change no link.
-/

namespace Fflib

open Library

universe u

/-- The state of a client between two steps. -/
structure Client (σ : Type u) where
  env : σ
  lib : Lib
  scheds : List FfSchedule
  pending : List Nat
  user : List Frame
  prog : List Frame
  log : List Event

namespace Client

variable {σ : Type u}

/-- After `ff_init`, nothing created. -/
def init (e : σ) : Client σ where
  env := e
  lib := Lib.init
  scheds := []
  pending := []
  user := []
  prog := []
  log := []

/-- The threads of the client on the operations of its library state. -/
def proc (c : Client σ) : Proc where
  ops := c.lib.ops
  pending := c.pending
  user := c.user
  prog := c.prog
  log := c.log
  running := false

def load (c : Client σ) (x : System σ) : Client σ where
  env := x.env
  lib := { c.lib with ops := x.proc.ops }
  scheds := c.scheds
  pending := x.proc.pending
  user := x.proc.user
  prog := x.proc.prog
  log := x.proc.log

/-- Handles that a constructor has returned. -/
def handles (c : Client σ) : Finset Nat := Finset.range c.lib.opid

/-- The user posts, or a thread goes on. -/
def engineStep (impl : Impl σ) (c : Client σ) (act : UserAct σ) : Option (Client σ) :=
  (userStep impl c.handles ⟨c.env, c.proc⟩ act).map c.load

end Client

section Steps

variable {σ : Type u} {impl : Impl σ}

theorem Client.engineStep_cases {c c' : Client σ} {act : UserAct σ}
    (h : c.engineStep impl act = some c') :
    ∃ x, UserMove impl c.handles ⟨c.env, c.proc⟩ act x ∧ c' = c.load x := by
  obtain ⟨x, hx, rfl⟩ := Option.map_eq_some_iff.mp h
  exact ⟨x, userStep_cases hx, rfl⟩

/-- No step of a thread creates or links anything. -/
theorem Client.engineStep_spec {c c' : Client σ} {act : UserAct σ}
    (h : c.engineStep impl act = some c') :
    c'.lib.opid = c.lib.opid ∧ c'.scheds = c.scheds ∧
      ∀ v, SameOp (c'.lib.ops v) (c.lib.ops v) := by
  obtain ⟨x, hx, rfl⟩ := Client.engineStep_cases h
  exact ⟨rfl, rfl, fun v => hx.sameOp v⟩

end Steps

end Fflib
