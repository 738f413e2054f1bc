import Mathlib.Algebra.BigOperators.Group.List.Basic

/-!
# Programs that take resources and put them back

A program changes a state, and `held` says which resources are out in a state.

* `Takes`: the program ends, and something has been added to what is held.
* `PutsBack`: the program ends, and what was among the held resources is there no longer.
* `Takes.thenPutsBack`: what is left after a program that takes, followed by one that puts
  back.
-/

namespace Fflib
namespace Library

universe u v

section Ledger

variable {σ α β : Type u} {M : Type v} [AddCommMonoid M] {held : σ → M}

/-- From `s` the program ends; `Q` is asked of its result, of the state in which it ends and
of what it has taken. -/
def Takes (held : σ → M) (m : StateT σ Option α) (s : σ) (Q : α → σ → M → Prop) : Prop :=
  ∃ a s' g, m s = some (a, s') ∧ held s' = held s + g ∧ Q a s' g

/-- From `s` the program ends and puts `g` back. -/
def PutsBack (held : σ → M) (m : StateT σ Option PUnit) (s : σ) (g : M) : Prop :=
  ∀ h, held s = h + g → ∃ s', m s = some (⟨⟩, s') ∧ held s' = h

theorem Takes.mono {m : StateT σ Option α} {s : σ} {Q R : α → σ → M → Prop}
    (h : Takes held m s Q) (hQR : ∀ a s' g, Q a s' g → R a s' g) : Takes held m s R := by
  obtain ⟨a, s', g, hm, hheld, hQ⟩ := h
  exact ⟨a, s', g, hm, hheld, hQR a s' g hQ⟩

theorem Takes.pure {s : σ} {a : α} {Q : α → σ → M → Prop} (h : Q a s 0) :
    Takes held (Pure.pure a : StateT σ Option α) s Q :=
  ⟨a, s, 0, rfl, (add_zero _).symm, h⟩

theorem Takes.bind {m : StateT σ Option α} {f : α → StateT σ Option β} {s : σ}
    {Q : α → σ → M → Prop} {R : β → σ → M → Prop} (h : Takes held m s Q)
    (hf : ∀ a s' g, Q a s' g → Takes held (f a) s' fun b s'' g' => R b s'' (g + g')) :
    Takes held (m >>= f) s R := by
  obtain ⟨a, s', g, hm, hheld, hQ⟩ := h
  obtain ⟨b, s'', g', hm', hheld', hR⟩ := hf a s' g hQ
  refine ⟨b, s'', g + g', ?_, ?_, hR⟩
  · change (m s).bind (fun r => f r.1 r.2) = _
    rw [hm]
    exact hm'
  · rw [hheld', hheld, add_assoc]

theorem PutsBack.pure {s : σ} : PutsBack held (Pure.pure ⟨⟩ : StateT σ Option PUnit) s 0 := by
  intro h hs
  exact ⟨s, rfl, by rw [hs, add_zero]⟩

theorem PutsBack.seq {m m' : StateT σ Option PUnit} {s : σ} {g g' : M}
    (h : PutsBack held m s g) (h' : ∀ s', PutsBack held m' s' g') :
    PutsBack held (m >>= fun _ => m') s (g + g') := by
  intro rest hs
  obtain ⟨s', hm, hheld⟩ := h (rest + g') (by rw [hs, add_assoc, add_comm g'])
  obtain ⟨s'', hm', hheld'⟩ := h' s' rest hheld
  refine ⟨s'', ?_, hheld'⟩
  change (m s).bind (fun r => m' r.2) = _
  rw [hm]
  exact hm'

/-- One resource after another is put back. -/
theorem PutsBack.forM {ι : Type u} {f : ι → StateT σ Option PUnit} {cost : ι → M}
    (hf : ∀ i s, PutsBack held (f i) s (cost i)) (l : List ι) :
    ∀ s, PutsBack held (l.forM f) s (l.map cost).sum := by
  induction l with
  | nil => exact fun _ => PutsBack.pure
  | cons i l ih =>
      intro s
      rw [List.map_cons, List.sum_cons]
      exact (hf i s).seq ih

/-- A program that takes, and one that puts back a part of it. -/
theorem Takes.thenPutsBack {m : StateT σ Option α} {f : α → StateT σ Option PUnit} {s : σ}
    {Q : α → σ → M → Prop} {P : M → Prop} (h : Takes held m s Q)
    (hf : ∀ a s' g, Q a s' g →
      ∃ lost back, g = lost + back ∧ PutsBack held (f a) s' back ∧ P lost) :
    ∃ s' lost, (m >>= f) s = some (⟨⟩, s') ∧ held s' = held s + lost ∧ P lost := by
  obtain ⟨a, s', g, hm, hheld, hQ⟩ := h
  obtain ⟨lost, back, hg, hback, hP⟩ := hf a s' g hQ
  obtain ⟨s'', hm', hheld'⟩ := hback (held s + lost) (by rw [hheld, hg, add_assoc])
  refine ⟨s'', lost, ?_, hheld', hP⟩
  change (m s).bind (fun r => f r.1 r.2) = _
  rw [hm]
  exact hm'

end Ledger

end Library
end Fflib
