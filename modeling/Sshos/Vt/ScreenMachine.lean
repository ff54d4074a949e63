import Sshos.Lib.Checked
import Sshos.Vt.ScreenBounds

/-!
# Sshos.Vt.ScreenMachine

The cursor moves, the erasures, the insertions, the deletions and the changes of region
**as the machine computes them**: every sum and every difference of two `int` is watched
for an overflow, every product of a slice for one of `ptrdiff_t`, and every access to
the page, to the tab stops or to a slice for being inside.

On a page of at most 65535 columns and rows none of these watches ever fires, and each
operation is the one over the unbounded integers. The index of a cell is unsigned and
64 bits wide, which such a page does not fill.
-/

namespace Sshos.Vt

open Sshos.Lib
open Sshos.Render

namespace Machine

open Checked

variable (s : Screen)

/-! ### Accesses -/

def «at» (x y : Int) : Checked ScreenCell :=
  if x < 0 ∨ y < 0 ∨ x ≥ s.cols ∨ y ≥ s.rows then pure blank
  else do
    inside (InBounds s.grid (y * s.cols + x))
    pure (readAt blank s.grid (y * s.cols + x))

/-- `cell(x, y) = c`, on a cell of the page. -/
def putCell (x y : Int) (c : ScreenCell) : Checked Screen := do
  inside (s.OnPage x y ∧ InBounds s.grid (y * s.cols + x))
  pure { s with grid := s.grid.set (y * s.cols + x).toNat c }

/-- `tabs_[x] = on`. -/
def putTab (x : Int) (on : Bool) : Checked Screen := do
  inside (InBounds s.tabs x)
  pure { s with tabs := s.tabs.set x.toNat on }

def fill (first last : Int) : Checked Screen := do
  inside (0 ≤ first ∧ first ≤ last ∧ last ≤ s.grid.length)
  pure { s with grid := fillRange s.grid first last s.erased }

def rotate (first cut last : Int) : Checked Screen := do
  inside (0 ≤ first ∧ first ≤ cut ∧ cut ≤ last ∧ last ≤ s.grid.length)
  pure { s with grid := rotateRange s.grid first cut last }

/-- `std::clamp`, which has no meaning between bounds that cross. -/
def clamp (v lo hi : Int) : Checked Int := do
  inside (lo ≤ hi)
  pure (Vt.clamp v lo hi)

/-! ### Full-width characters -/

def clearWideAt (x y : Int) : Checked Screen := do
  let c ← «at» s x y
  if c.width = 2 then
    let right ← int32 (x + 1)
    if right < s.cols then putCell s right y s.erased else pure s
  else if c.width = 0 ∧ x > 0 then
    let left ← int32 (x - 1)
    putCell s left y s.erased
  else pure s

def breakWideAt (x y : Int) : Checked Screen := do
  let c ← «at» s x y
  if c.width = 2 then
    let right ← int32 (x + 1)
    if right < s.cols then
      let s ← putCell s x y s.erased
      putCell s right y s.erased
    else pure s
  else if c.width = 0 ∧ x > 0 then
    let s ← putCell s x y s.erased
    let left ← int32 (x - 1)
    putCell s left y s.erased
  else pure s

/-! ### Scrolling -/

def scrollSliceUp (top bottom n : Int) : Checked Screen :=
  if n ≤ 0 ∨ top < 0 ∨ bottom ≥ s.rows ∨ top > bottom then pure s
  else do
    let gap ← int32 (bottom - top)
    let height ← int32 (gap + 1)
    let first ← int64 (top * s.cols)
    let below ← int32 (bottom + 1)
    let last ← int64 (below * s.cols)
    if n ≥ height then fill s first last
    else
      let moved ← int64 (n * s.cols)
      let cut ← int64 (first + moved)
      let s ← rotate s first cut last
      let freed ← int64 (last - moved)
      fill s freed last

def scrollSliceDown (top bottom n : Int) : Checked Screen :=
  if n ≤ 0 ∨ top < 0 ∨ bottom ≥ s.rows ∨ top > bottom then pure s
  else do
    let gap ← int32 (bottom - top)
    let height ← int32 (gap + 1)
    let first ← int64 (top * s.cols)
    let below ← int32 (bottom + 1)
    let last ← int64 (below * s.cols)
    if n ≥ height then fill s first last
    else
      let moved ← int64 (n * s.cols)
      let cut ← int64 (last - moved)
      let s ← rotate s first cut last
      let freed ← int64 (first + moved)
      fill s first freed

/-! ### Movement -/

def moveTo (x y : Int) : Checked Screen := do
  let right ← int32 (s.cols - 1)
  let cx ← clamp x 0 right
  let foot ← int32 (s.rows - 1)
  let cy ← clamp y 0 foot
  pure { s with wrapPending := false, cx := cx, cy := cy }

def moveUp (n : Int) : Checked Screen := do
  let y ← int32 (s.cy - max 1 n)
  moveTo s s.cx y

def moveDown (n : Int) : Checked Screen := do
  let y ← int32 (s.cy + max 1 n)
  moveTo s s.cx y

def moveRight (n : Int) : Checked Screen := do
  let x ← int32 (s.cx + max 1 n)
  moveTo s x s.cy

def moveLeft (n : Int) : Checked Screen := do
  let steps ← if s.wrapPending then int32 (max 1 n - 1) else pure (max 1 n)
  let x ← int32 (s.cx - steps)
  moveTo { s with wrapPending := false } x s.cy

def setColumn (x : Int) : Checked Screen := moveTo s x s.cy
def setRow (y : Int) : Checked Screen := moveTo s s.cx y

def clearTab : Checked Screen := if 0 ≤ s.cx ∧ s.cx < s.cols then putTab s s.cx false else pure s

/-! ### Erasing and editing -/

/-- No loop over the columns or the rows of a page goes on for longer. -/
def rounds : Nat := (max s.cols s.rows).toNat + 1

def eraseSpan (x0 x1 y : Int) : Checked Screen :=
  if y < 0 ∨ y ≥ s.rows then pure s
  else do
    let x0 := max 0 x0
    let right ← int32 (s.cols - 1)
    let x1 := min right x1
    if x0 > x1 then pure s
    else
      let s ← clearWideAt s x0 y
      let s ← clearWideAt s x1 y
      forLoop (fun x => pure (decide (x ≤ x1))) 1 (fun s x => putCell s x y s.erased) (rounds s) x0 s

/-- `erase_span(0, cols - 1, y)`. -/
def eraseRow (y : Int) : Checked Screen := do
  let right ← int32 (s.cols - 1)
  eraseSpan s 0 right y

def eraseRows (lo hi : Int) : Checked Screen :=
  forLoop (fun y => pure (decide (y < hi))) 1 eraseRow (rounds s) lo s

def eraseDisplay (mode : Int) : Checked Screen :=
  if mode = 0 then do
    let right ← int32 (s.cols - 1)
    let s ← eraseSpan s s.cx right s.cy
    let below ← int32 (s.cy + 1)
    eraseRows s below s.rows
  else if mode = 1 then do
    let s ← eraseRows s 0 s.cy
    eraseSpan s 0 s.cx s.cy
  else if mode = 2 then eraseRows s 0 s.rows
  else pure s

def eraseLine (mode : Int) : Checked Screen :=
  if mode = 0 then do
    let right ← int32 (s.cols - 1)
    eraseSpan s s.cx right s.cy
  else if mode = 1 then eraseSpan s 0 s.cx s.cy
  else if mode = 2 then eraseRow s s.cy
  else pure s

def eraseChars (n : Int) : Checked Screen := do
  let past ← int32 (s.cx + n)
  let x1 ← int32 (past - 1)
  eraseSpan s s.cx x1 s.cy

/-- `cell(x, y) = at(source(x), y)`, for a source computed in `int`. -/
def copyFrom (source : Int → Int) (y : Int) (s : Screen) (x : Int) : Checked Screen := do
  let sx ← int32 (source x)
  let c ← «at» s sx y
  putCell s x y c

def insertChars (n : Int) : Checked Screen :=
  if n ≤ 0 ∨ s.cx ≥ s.cols then pure s
  else do
    let room ← int32 (s.cols - s.cx)
    let n := min n room
    let s ← breakWideAt s s.cx s.cy
    let right ← int32 (s.cols - 1)
    let s ← forLoop (fun x => do pure (decide ((← int32 (s.cx + n)) ≤ x))) (-1)
      (copyFrom (· - n) s.cy) (rounds s) right s
    let past ← int32 (s.cx + n)
    let x1 ← int32 (past - 1)
    let s ← eraseSpan s s.cx x1 s.cy
    let right ← int32 (s.cols - 1)
    let edge ← «at» s right s.cy
    if edge.width = 2 then putCell s right s.cy s.erased else pure s

def deleteChars (n : Int) : Checked Screen :=
  if n ≤ 0 ∨ s.cx ≥ s.cols then pure s
  else do
    let room ← int32 (s.cols - s.cx)
    let n := min n room
    let s ← breakWideAt s s.cx s.cy
    let past ← int32 (s.cx + n)
    let s ← breakWideAt s past s.cy
    let s ← forLoop (fun x => do pure (decide ((← int32 (x + n)) < s.cols))) 1
      (copyFrom (· + n) s.cy) (rounds s) s.cx s
    let x0 ← int32 (s.cols - n)
    let right ← int32 (s.cols - 1)
    eraseSpan s x0 right s.cy

def insertLines (n : Int) : Checked Screen :=
  if n ≤ 0 ∨ s.cy < s.top ∨ s.cy > s.bottom then pure s else scrollSliceDown s s.cy s.bottom n

def deleteLines (n : Int) : Checked Screen :=
  if n ≤ 0 ∨ s.cy < s.top ∨ s.cy > s.bottom then pure s else scrollSliceUp s s.cy s.bottom n

/-! ### Region -/

def setScrollRegion (top bottom : Int) : Checked Screen := do
  let top := max 0 top
  let foot ← int32 (s.rows - 1)
  let bottom := min foot bottom
  let gap ← int32 (bottom - top)
  if gap < 1 then pure s
  else pure { s with top := top, bottom := bottom, cx := 0, cy := 0, wrapPending := false }

def resetScrollRegion : Checked Screen := do
  let foot ← int32 (s.rows - 1)
  pure { s with top := 0, bottom := foot, cx := 0, cy := 0, wrapPending := false }

end Machine

end Sshos.Vt
