import Sshos.Render.Cell

/-!
# Sshos.Render.Surface

The **surface** an application paints. Its dimensions and the coordinates of its cells
are natural numbers.
-/

namespace Sshos.Render

structure Surface where
  w : Nat
  h : Nat
  cells : List Cell
  deriving Repr, DecidableEq

namespace Surface

def create (w h : Nat) : Surface := { w := w, h := h, cells := List.replicate (w * h) {} }

def «at» (s : Surface) (x y : Nat) : Cell := s.cells.getD (y * s.w + x) {}

@[simp] theorem create_at (w h x y : Nat) : (create w h).at x y = {} := by
  unfold «at» create
  simp only [List.getD_eq_getElem?_getD, List.getElem?_replicate]
  split <;> rfl

end Surface

/-! ### Well-formed rows -/

/-- What every painted surface satisfies: a character has its own width, a full-width
one is followed by its continuation, and a continuation stands nowhere else. -/
structure Surface.Painted (ambiguousWide : Bool) (s : Surface) : Prop where
  width : ∀ x y, x < s.w → y < s.h → (s.at x y).width ≠ 0 →
    (s.at x y).width = charWidth ambiguousWide (s.at x y).ch
  head : ∀ x y, x < s.w → y < s.h → (s.at x y).width = 2 →
    x + 1 < s.w ∧ (s.at (x + 1) y).width = 0
  continuation : ∀ x y, x < s.w → y < s.h → (s.at x y).width = 0 →
    0 < x ∧ (s.at (x - 1) y).width = 2

theorem charWidth_space (ambiguousWide : Bool) : charWidth ambiguousWide 0x20 = 1 := by
  cases ambiguousWide <;> decide

theorem Surface.Painted.create (ambiguousWide : Bool) (w h : Nat) :
    (Surface.create w h).Painted ambiguousWide := by
  constructor <;> intro x y _ _ hwidth <;> rw [create_at] at hwidth
  · rw [create_at]
    exact (charWidth_space ambiguousWide).symm
  · exact absurd hwidth (by decide)
  · exact absurd hwidth (by decide)

end Sshos.Render
