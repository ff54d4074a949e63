import Sshos.Common.Utf8
import Sshos.Render.Profile
import Sshos.Render.Surface

/-!
# Sshos.Render.Diff

The **differ** turns a surface into the bytes to send, knowing what was sent before.

The loops of the source that move an index without a bound known beforehand are
recursions on a number of turns that is large enough.
-/

namespace Sshos.Render

open Sshos.Common (encodeUtf8)
open Sshos.Lib (Bytes num)

/-! ### What a frame has written so far -/

def cup (x y : Int) : Bytes := [0x1B, 0x5B] ++ num (y + 1) ++ [0x3B] ++ num (x + 1) ++ [0x48]

def styleOf (c : Cell) : Style := { fg := c.fg, bg := c.bg, attrs := c.attrs }

def kMinErasableTail : Nat := 4

/-- The bytes of a frame under way, with the pen and the position they leave. -/
structure Emission where
  body : Bytes := []
  pen : Style := {}
  posKnown : Bool := false
  px : Nat := 0
  py : Nat := 0
  any : Bool := false

namespace Emission

variable (p : OutputProfile) (e : Emission)

/-- Go to a cell, unless the cursor stands there already. -/
def goTo (x y : Nat) : Emission :=
  if e.posKnown = false ∨ e.px ≠ x ∨ e.py ≠ y then
    { e with body := e.body ++ cup x y, posKnown := true, px := x, py := y }
  else e

def changePen (style : Style) : Emission :=
  { e with body := e.body ++ sgrTransition e.pen style p, pen := style }

def drawCell (cell : Cell) (x y : Nat) : Emission :=
  let e := (e.goTo x y).changePen p (styleOf cell)
  { e with
    body := e.body ++ encodeUtf8 cell.ch
    px := e.px + cell.width
    -- past ASCII the client may count the columns otherwise
    posKnown := e.posKnown && !(cell.ch ≥ 0x80) }

/-- Erase from a cell to the end of its row, on the default background. -/
def eraseFrom (x y : Nat) : Emission :=
  let e := e.goTo x y
  let e := if e.pen.bg = .default then e else e.changePen p { e.pen with bg := .default }
  { e with body := e.body ++ [0x1B, 0x5B, 0x4B], any := true }

end Emission

/-! ### Rows -/

section Rows

variable (p : OutputProfile) (cur prev : Surface) (full : Bool) (y : Nat)

def differs (x : Nat) : Bool := full || cur.at x y != prev.at x y

/-- Where the blanks that end the first `n` columns of the row start. -/
def tailStart : (n : Nat) → Nat
  | 0 => 0
  | n + 1 => if cur.at n y = {} then tailStart n else n + 1

theorem tailStart_le {cur : Surface} {y : Nat} : ∀ n, tailStart cur y n ≤ n
  | 0 => Nat.le_refl 0
  | n + 1 => by
      have ih := @tailStart_le cur y n
      unfold tailStart
      split <;> omega

/-- The cell that a continuation belongs to, or the cell itself. -/
def headOf : (x : Nat) → Nat
  | 0 => 0
  | x + 1 => if (cur.at (x + 1) y).width = 0 then headOf x else x + 1

/-- Where the run of cells to send again, or of continuations, ends. -/
def runEnd (contentEnd : Nat) : (fuel x : Nat) → Nat
  | 0, x => x
  | fuel + 1, x =>
      if x < contentEnd ∧ (differs cur prev full y x ∨ (cur.at x y).width = 0) then
        runEnd contentEnd fuel (x + 1)
      else x

/-- Send `left` cells from column `x` on; a continuation goes with its head. -/
def drawCells : (left x : Nat) → Emission → Emission
  | 0, _, e => e
  | left + 1, x, e =>
      let cell := cur.at x y
      drawCells left (x + 1) (if cell.width = 0 then e else e.drawCell p cell x y)

def scanRow (contentEnd : Nat) : (fuel x : Nat) → Emission → Emission
  | 0, _, e => e
  | fuel + 1, x, e =>
      if x ≥ contentEnd then e
      else if ¬ differs cur prev full y x then scanRow contentEnd fuel (x + 1) e
      else
        let start := headOf cur y x
        -- the run extends from the cell that differs, not from the head it goes back to
        let last := runEnd cur prev full y contentEnd contentEnd (x + 1)
        let e := drawCells p cur y (last - start) start e
        scanRow contentEnd fuel last { e with any := true }

def tailDiffers (tail : Nat) : Bool :=
  full || (List.range' tail (cur.w - tail)).any fun x => cur.at x y != prev.at x y

def row (e : Emission) : Emission :=
  let tail := tailStart cur y cur.w
  let eraseTail := cur.w - tail ≥ kMinErasableTail
  let contentEnd := if eraseTail then tail else cur.w
  let e := scanRow p cur prev full y contentEnd contentEnd 0 e
  if eraseTail ∧ tailDiffers cur prev full y tail then e.eraseFrom p tail y else e

end Rows

/-! ### Frames -/

structure Differ where
  profile : OutputProfile
  prev : Surface := Surface.create 0 0
  valid : Bool := false
  lastTarget : Pos := {}
  lastShown : Bool := false
  first : Bool := true
  deriving Repr, DecidableEq

namespace Differ

variable (d : Differ)

/-- Forget what the client is supposed to show. -/
def invalidate : Differ := { d with valid := false }

/-- Another size makes the next frame a full one. -/
def fit (cur : Surface) : Differ :=
  if d.prev.w ≠ cur.w ∨ d.prev.h ≠ cur.h then
    { d with prev := Surface.create cur.w cur.h, valid := false }
  else d

/-- The bytes of the cells to send again. -/
def emission (cur : Surface) : Emission :=
  (List.range cur.h).foldl (fun e y => row d.profile cur d.prev (!d.valid) y e) {}

/-- The bytes to send, none when nothing moved, and what is known afterwards. -/
def frame (cur : Surface) (cursor : Option Pos) : Bytes × Differ :=
  let d := d.fit cur
  let e := d.emission cur
  let target := cursor.getD {}
  let shown := cursor.isSome
  let cursorChanged := d.first || target != d.lastTarget || shown != d.lastShown
  if e.any = false ∧ d.valid ∧ cursorChanged = false then ([], d)
  else
    -- hide the cursor and reset the pen; the cells; the cursor where it belongs
    ([0x1B, 0x5B, 0x3F, 0x32, 0x35, 0x6C] ++ [0x1B, 0x5B, 0x30, 0x6D] ++ e.body ++
        cup target.x target.y ++ (if shown then [0x1B, 0x5B, 0x3F, 0x32, 0x35, 0x68] else []),
      { d with
        prev := cur, valid := true, lastTarget := target, lastShown := shown, first := false })

end Differ

end Sshos.Render
