import Mathlib.Order.Defs.LinearOrder
import Mathlib.Order.Basic
import Mathlib.Order.Lattice

/-!
# Sshos.Lib.Round

A **search that goes round**: from a place to the end first, then from the beginning to that
place. What it should find is the first in the order of the round.
-/

namespace Sshos.Lib

universe u

variable {α : Type u} [LinearOrder α]

/-- On a round from `p`, `q` comes no later than `q'`: what is at `p` or after it comes first. -/
def RoundLe (p q q' : α) : Prop := (p ≤ q ∧ q' < p) ∨ ((p ≤ q ↔ p ≤ q') ∧ q ≤ q')

/-- The first place of a round from `p` that is as wanted. -/
structure FirstRound (P : α → Prop) (p q : α) : Prop where
  found : P q
  first : ∀ q', P q' → RoundLe p q q'

variable {P : α → Prop} {p q q' : α}

/-- The first one from `p` on. -/
theorem firstRound_of_le (hq : P q) (hp : p ≤ q) (hfirst : ∀ q', P q' → p ≤ q' → q ≤ q') :
    FirstRound P p q where
  found := hq
  first q' hq' := by
    rcases le_or_gt p q' with hle | hlt
    · exact .inr ⟨iff_of_true hp hle, hfirst q' hq' hle⟩
    · exact .inl ⟨hp, hlt⟩

/-- The first one of all, when there is none from `p` on. -/
theorem firstRound_of_none (hnone : ∀ q', P q' → q' < p) (hq : P q) (hfirst : ∀ q', P q' → q ≤ q') :
    FirstRound P p q where
  found := hq
  first q' hq' := by
    have hbefore := not_le.2 (hnone q hq)
    have hbefore' := not_le.2 (hnone q' hq')
    exact .inr ⟨iff_of_false hbefore hbefore', hfirst q' hq'⟩

end Sshos.Lib
