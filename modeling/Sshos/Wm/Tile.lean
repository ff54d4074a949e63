import Sshos.Wm.Windows

/-!
# Sshos.Wm.Tile

**Tiling**: the work area cut in columns, and each column in windows. What a division leaves
goes to the first ones. **Snapping**: a window takes one half of the work area.
-/

namespace Sshos.Wm

open Sshos.Render (Rect)

/-- The least number of columns whose square holds `n` windows. -/
def columnsFor (n : Nat) : Nat := go n 1
where
  go : (fuel : Nat) → (c : Nat) → Nat
    | 0, c => c
    | fuel + 1, c => if c * c < n then go fuel (c + 1) else c

/-- Cut `total` in `parts`, none of which is empty. -/
def split (total : Int) (parts : Nat) : List Int :=
  let base := total.tdiv parts
  let extra := total.tmod parts
  (List.range parts).map fun (i : Nat) => max 1 (base + if i < extra then 1 else 0)

/-- The windows of one column, from the top. -/
def tileColumn (x w : Int) : (y : Int) → (heights : List Int) → List Rect
  | _, [] => []
  | y, h :: hs => { x := x, y := y, w := w, h := h } :: tileColumn x w (y + h) hs

/-- The columns, from the left. -/
def tileColumns (work : Rect) : (x : Int) → (columns : List (Int × Int)) → List Rect
  | _, [] => []
  | x, (w, rows) :: rest =>
      tileColumn x w work.y (split work.h rows.toNat) ++ tileColumns work (x + w) rest

def tileRects (work : Rect) (count : Nat) : List Rect :=
  if count = 0 ∨ work.w ≤ 0 ∨ work.h ≤ 0 then []
  else
    let cols := columnsFor count
    tileColumns work work.x ((split work.w cols).zip (split count cols))

/-- Three windows: the first column has two of them, and the odd row and the odd column. -/
example : tileRects { w := 81, h := 23 } 3 =
    [{ w := 41, h := 12 }, { y := 12, w := 41, h := 11 }, { x := 41, w := 40, h := 23 }] := by decide

/-! ### Halves -/

inductive SnapDir
  | left | right | up | down
  deriving Repr, DecidableEq

/-- The half of the work area on a side. The left one and the upper one take what is left. -/
def snapRect (work : Rect) (d : SnapDir) : Rect :=
  let w₁ := work.w - work.w.tdiv 2
  let h₁ := work.h - work.h.tdiv 2
  match d with
  | .left => { x := work.x, y := work.y, w := w₁, h := work.h }
  | .right => { x := work.x + w₁, y := work.y, w := work.w - w₁, h := work.h }
  | .up => { x := work.x, y := work.y, w := work.w, h := h₁ }
  | .down => { x := work.x, y := work.y + h₁, w := work.w, h := work.h - h₁ }

/-- The half that remains. -/
def snapOpposite (work : Rect) : SnapDir → Rect
  | .left => snapRect work .right
  | .right => snapRect work .left
  | .up => snapRect work .down
  | .down => snapRect work .up

end Sshos.Wm
