import Sshos.Lib.Grid
import Sshos.Vt.Scrollback

/-!
# Sshos.Vt.Screen

The terminal's **screen**: a page of cells with its cursor, its deferred wrap, its
scroll region, its tab stops, and a second page put aside while the alternate screen
is shown.

The program reaches the cells of a page, the tab stops and the ends of a rotation
through indices it does not check. Here every such access is watched: one that would
leave its vector is not made and raises `fault` instead. Coordinates and counts are
`int` in the program and unbounded integers here; what reaches the screen from the
parser is at most 65535, and `Sshos.Vt.ScreenRange` shows that the two agree below that.
-/

namespace Sshos.Vt

open Sshos.Lib
open Sshos.Render

/-! ### The DEC character set -/

inductive Charset where
  | ascii
  | graphics
  deriving Repr, DecidableEq

/-- What `ESC (` and this final byte select. -/
def charsetFromFinal (finalByte : UInt8) : Charset :=
  if finalByte = 0x30 then .graphics else .ascii

/-- The line-drawing characters standing for `0x5F` to `0x7E`. -/
def kGraphics : List Nat :=
  [0x20,
    0x25C6, 0x2592, 0x2409, 0x240C, 0x240D, 0x240A, 0x00B0, 0x00B1,
    0x2424, 0x240B, 0x2518, 0x2510, 0x250C, 0x2514, 0x253C, 0x23BA,
    0x23BB, 0x2500, 0x23BC, 0x23BD, 0x251C, 0x2524, 0x2534, 0x252C,
    0x2502, 0x2264, 0x2265, 0x03C0, 0x2260, 0x00A3, 0x00B7]

def translate (cp : Nat) (set : Charset) : Nat :=
  if set ≠ .graphics then cp
  else if cp < 0x5F ∨ cp > 0x7E then cp
  else kGraphics.getD (cp - 0x5F) 0

@[simp] theorem translate_ascii (cp : Nat) : translate cp .ascii = cp := rfl

/-! ### State -/

/-- What DECSC puts aside. -/
structure SavedCursor where
  x : Int := 0
  y : Int := 0
  wrapPending : Bool := false
  style : Style := {}
  charset : Charset := .ascii
  deriving Repr, DecidableEq

structure Screen where
  cols : Int
  rows : Int
  grid : List ScreenCell
  tabs : List Bool
  cx : Int := 0
  cy : Int := 0
  wrapPending : Bool := false
  top : Int := 0
  bottom : Int
  autowrap : Bool := true
  charset : Charset := .ascii
  pen : Style := {}
  saved : SavedCursor := {}
  alt : Bool := false
  parked : List ScreenCell := []
  parkedCursor : SavedCursor := {}
  parkedDecsc : SavedCursor := {}
  scrollback : Option Scrollback := none
  /-- Some unchecked access left its vector. -/
  fault : Bool := false
  deriving Repr, DecidableEq

/-- The bounded reading of a page: off the page there is a blank. -/
def pageAt (cols rows : Int) (page : List ScreenCell) (x y : Int) : ScreenCell :=
  if x < 0 ∨ y < 0 ∨ x ≥ cols ∨ y ≥ rows then blank else readAt blank page (y * cols + x)

/-- `std::clamp`. -/
def clamp (v lo hi : Int) : Int := if v < lo then lo else if hi < v then hi else v

namespace Screen

variable (s : Screen)

/-- The bounded read of the displayed page. -/
def «at» (x y : Int) : ScreenCell := pageAt s.cols s.rows s.grid x y

/-- What an erasure leaves: nothing, on the current background. -/
def erased : ScreenCell := { style := { bg := s.pen.bg } }

/-- The unchecked write `cell(x, y) = c`. -/
def putCell (x y : Int) (c : ScreenCell) : Screen :=
  let i := y * s.cols + x
  if InBounds s.grid i then { s with grid := s.grid.set i.toNat c } else { s with fault := true }

/-- The unchecked write `tabs_[x] = on`. -/
def putTab (x : Int) (on : Bool) : Screen :=
  if InBounds s.tabs x then { s with tabs := s.tabs.set x.toNat on } else { s with fault := true }

/-- `std::fill` of a stretch of the page with erased cells. -/
def fill (first last : Int) : Screen :=
  if 0 ≤ first ∧ first ≤ last ∧ last ≤ s.grid.length then
    { s with grid := fillRange s.grid first last s.erased }
  else { s with fault := true }

/-- `std::rotate` of a stretch of the page. -/
def rotate (first cut last : Int) : Screen :=
  if 0 ≤ first ∧ first ≤ cut ∧ cut ≤ last ∧ last ≤ s.grid.length then
    { s with grid := rotateRange s.grid first cut last }
  else { s with fault := true }

def kTabStop : Int := 8

def resetTabs : Screen :=
  -- column 0 gets no stop: the stops are the positive multiples of `kTabStop`
  forUp 1 ((s.cols - 1) / kTabStop + 1) (fun s k => s.putTab (kTabStop * k) true)
    { s with tabs := List.replicate s.cols.toNat false }

def create (cols rows : Int) : Screen :=
  let cols := max 1 cols
  let rows := max 1 rows
  resetTabs
    { cols := cols, rows := rows, grid := List.replicate (cols * rows).toNat blank, tabs := [],
      bottom := rows - 1 }

/-! ### Full-width characters -/

/-- Erase the half a full-width character would be left with once column `x` is
overwritten. -/
def clearWideAt (x y : Int) : Screen :=
  let c := s.at x y
  if c.width = 2 ∧ x + 1 < s.cols then s.putCell (x + 1) y s.erased
  else if c.width = 0 ∧ x > 0 then s.putCell (x - 1) y s.erased
  else s

/-- Erase both halves of the full-width character on column `x`. -/
def breakWideAt (x y : Int) : Screen :=
  let c := s.at x y
  if c.width = 2 ∧ x + 1 < s.cols then (s.putCell x y s.erased).putCell (x + 1) y s.erased
  else if c.width = 0 ∧ x > 0 then (s.putCell x y s.erased).putCell (x - 1) y s.erased
  else s

/-! ### Scrolling -/

def scrollSliceUp (top bottom n : Int) : Screen :=
  if n ≤ 0 ∨ top < 0 ∨ bottom ≥ s.rows ∨ top > bottom then s
  else
    let height := bottom - top + 1
    let first := top * s.cols
    let last := (bottom + 1) * s.cols
    if n ≥ height then s.fill first last
    else (s.rotate first (first + n * s.cols) last).fill (last - n * s.cols) last

def scrollSliceDown (top bottom n : Int) : Screen :=
  if n ≤ 0 ∨ top < 0 ∨ bottom ≥ s.rows ∨ top > bottom then s
  else
    let height := bottom - top + 1
    let first := top * s.cols
    let last := (bottom + 1) * s.cols
    if n ≥ height then s.fill first last
    else (s.rotate first (last - n * s.cols) last).fill first (first + n * s.cols)

/-- The one path that feeds the history: the top line of a full-page region, off the
alternate screen. -/
def pushTopLine : Screen :=
  match s.scrollback with
  | none => s
  | some sb =>
      if ¬ s.alt ∧ s.top = 0 ∧ s.bottom = s.rows - 1 then
        let first := s.top * s.cols
        if 0 ≤ first ∧ first + s.cols ≤ s.grid.length then
          { s with
            scrollback := some (sb.push ((s.grid.drop first.toNat).take s.cols.toNat)) }
        else { s with fault := true }
      else s

def scrollUp : Screen :=
  let s := s.pushTopLine
  s.scrollSliceUp s.top s.bottom 1

def scrollDown : Screen := s.scrollSliceDown s.top s.bottom 1

/-! ### Movement -/

def lineFeed : Screen :=
  let s := { s with wrapPending := false }
  if s.cy = s.bottom then s.scrollUp
  else if s.cy + 1 < s.rows then { s with cy := s.cy + 1 }
  else s

def carriageReturn : Screen := { s with wrapPending := false, cx := 0 }

def backspace : Screen :=
  if s.wrapPending then { s with wrapPending := false }
  else if s.cx > 0 then { s with cx := s.cx - 1 }
  else s

/-- The search for a tab stop from column `x` on, `left` columns before the edge. -/
def tabFrom (s : Screen) : (left : Nat) → (x : Int) → Screen
  | 0, _ => { s with cx := s.cols - 1 }
  | left + 1, x =>
      if InBounds s.tabs x then
        if readAt false s.tabs x then { s with cx := x } else tabFrom s left (x + 1)
      else { s with fault := true }

def tab : Screen :=
  tabFrom { s with wrapPending := false } (s.cols - (s.cx + 1)).toNat (s.cx + 1)

def index : Screen := s.lineFeed

def reverseIndex : Screen :=
  let s := { s with wrapPending := false }
  if s.cy = s.top then s.scrollDown
  else if s.cy > 0 then { s with cy := s.cy - 1 }
  else s

def nextLine : Screen := s.carriageReturn.lineFeed

def moveTo (x y : Int) : Screen :=
  { s with wrapPending := false, cx := clamp x 0 (s.cols - 1), cy := clamp y 0 (s.rows - 1) }

def moveUp (n : Int) : Screen := s.moveTo s.cx (s.cy - max 1 n)
def moveDown (n : Int) : Screen := s.moveTo s.cx (s.cy + max 1 n)
def moveRight (n : Int) : Screen := s.moveTo (s.cx + max 1 n) s.cy

def moveLeft (n : Int) : Screen :=
  let steps := max 1 n
  -- with a wrap pending the cursor stands one cell past the last column
  let steps := if s.wrapPending then steps - 1 else steps
  moveTo { s with wrapPending := false } (s.cx - steps) s.cy

def setColumn (x : Int) : Screen := s.moveTo x s.cy
def setRow (y : Int) : Screen := s.moveTo s.cx y

def setTab : Screen := if 0 ≤ s.cx ∧ s.cx < s.cols then s.putTab s.cx true else s
def clearTab : Screen := if 0 ≤ s.cx ∧ s.cx < s.cols then s.putTab s.cx false else s
def clearAllTabs : Screen := { s with tabs := List.replicate s.tabs.length false }

/-! ### Printing -/

/-- The deferred wrap, taken when the next character arrives. -/
def wrapIfPending : Screen :=
  if s.wrapPending ∧ s.autowrap then lineFeed { s with wrapPending := false, cx := 0 } else s

/-- Write a character of width `w` at the cursor: the halves it orphans first. -/
def deposit (cp w : Nat) : Screen :=
  let x := s.cx
  let y := s.cy
  let s := s.clearWideAt x y
  let s := if w = 2 ∧ x + 1 < s.cols then s.clearWideAt (x + 1) y else s
  let s := s.putCell x y { ch := cp, width := w, style := s.pen }
  if w = 2 ∧ x + 1 < s.cols then s.putCell (x + 1) y { width := 0, style := s.pen } else s

/-- Move past a character of width `w`, staying on the page. -/
def advance (w : Nat) : Screen :=
  let x := s.cx + w
  if x ≥ s.cols then { s with cx := s.cols - 1, wrapPending := true } else { s with cx := x }

def print (ambiguousWide : Bool) (cp : Nat) : Screen :=
  let cp := translate cp s.charset
  let w := charWidth ambiguousWide cp
  if w = 0 then s
  else
    let s := s.wrapIfPending
    if w = 2 ∧ s.cx + 1 ≥ s.cols then
      -- a full-width character is never cut: it goes down whole, or not at all
      if ¬ s.autowrap then s
      else ((lineFeed { s with cx := 0 }).deposit cp w).advance w
    else (s.deposit cp w).advance w

/-! ### Erasing and editing -/

def eraseSpan (x0 x1 y : Int) : Screen :=
  if y < 0 ∨ y ≥ s.rows then s
  else
    let x0 := max 0 x0
    let x1 := min (s.cols - 1) x1
    if x0 > x1 then s
    else
      let s := s.clearWideAt x0 y
      let s := s.clearWideAt x1 y
      forUp x0 (x1 + 1) (fun s x => s.putCell x y s.erased) s

/-- `erase_span(0, cols - 1, y)` for the rows `lo ≤ y < hi`. -/
def eraseRows (lo hi : Int) : Screen := forUp lo hi (fun s y => s.eraseSpan 0 (s.cols - 1) y) s

def eraseDisplay (mode : Int) : Screen :=
  if mode = 0 then (s.eraseSpan s.cx (s.cols - 1) s.cy).eraseRows (s.cy + 1) s.rows
  else if mode = 1 then (s.eraseRows 0 s.cy).eraseSpan 0 s.cx s.cy
  else if mode = 2 then s.eraseRows 0 s.rows
  else s

def eraseLine (mode : Int) : Screen :=
  if mode = 0 then s.eraseSpan s.cx (s.cols - 1) s.cy
  else if mode = 1 then s.eraseSpan 0 s.cx s.cy
  else if mode = 2 then s.eraseSpan 0 (s.cols - 1) s.cy
  else s

def eraseChars (n : Int) : Screen := s.eraseSpan s.cx (s.cx + n - 1) s.cy

def insertChars (n : Int) : Screen :=
  if n ≤ 0 ∨ s.cx ≥ s.cols then s
  else
    let x0 := s.cx
    let y := s.cy
    let n := min n (s.cols - x0)
    let s := s.breakWideAt x0 y
    let s := forDown (x0 + n) s.cols (fun s x => s.putCell x y (s.at (x - n) y)) s
    let s := s.eraseSpan x0 (x0 + n - 1) y
    if (s.at (s.cols - 1) y).width = 2 then s.putCell (s.cols - 1) y s.erased else s

def deleteChars (n : Int) : Screen :=
  if n ≤ 0 ∨ s.cx ≥ s.cols then s
  else
    let x0 := s.cx
    let y := s.cy
    let n := min n (s.cols - x0)
    let s := s.breakWideAt x0 y
    let s := s.breakWideAt (x0 + n) y
    let s := forUp x0 (s.cols - n) (fun s x => s.putCell x y (s.at (x + n) y)) s
    s.eraseSpan (s.cols - n) (s.cols - 1) y

def insertLines (n : Int) : Screen :=
  if n ≤ 0 ∨ s.cy < s.top ∨ s.cy > s.bottom then s else s.scrollSliceDown s.cy s.bottom n

def deleteLines (n : Int) : Screen :=
  if n ≤ 0 ∨ s.cy < s.top ∨ s.cy > s.bottom then s else s.scrollSliceUp s.cy s.bottom n

/-! ### Region, saved cursor, modes -/

def setScrollRegion (top bottom : Int) : Screen :=
  let top := max 0 top
  let bottom := min (s.rows - 1) bottom
  if bottom - top < 1 then s
  else { s with top := top, bottom := bottom, cx := 0, cy := 0, wrapPending := false }

def resetScrollRegion : Screen :=
  { s with top := 0, bottom := s.rows - 1, cx := 0, cy := 0, wrapPending := false }

/-- The cursor as DECSC and 1049 put it aside. -/
def cursorState : SavedCursor :=
  { x := s.cx, y := s.cy, wrapPending := s.wrapPending, style := s.pen, charset := s.charset }

def saveCursor : Screen := { s with saved := s.cursorState }

def restoreCursor : Screen :=
  let cx := clamp s.saved.x 0 (s.cols - 1)
  { s with
    cx := cx
    cy := clamp s.saved.y 0 (s.rows - 1)
    wrapPending := s.saved.wrapPending && cx == s.cols - 1
    charset := s.saved.charset
    pen := s.saved.style }

def setPen (pen : Style) : Screen := { s with pen := pen }
def setCharset (charset : Charset) : Screen := { s with charset := charset }
def setAutowrap (on : Bool) : Screen := { s with autowrap := on }
def setScrollback (sb : Option Scrollback) : Screen := { s with scrollback := sb }

/-! ### The alternate screen and resizing -/

/-- A page of erased cells. -/
def erasedPage (cols rows : Int) : List ScreenCell :=
  List.replicate (cols * rows).toNat s.erased

def enterAltScreen : Screen :=
  if s.alt then s
  else
    { s with
      parked := s.grid
      grid := s.erasedPage s.cols s.rows
      parkedCursor := s.cursorState
      parkedDecsc := s.saved
      saved := {}
      alt := true }

def leaveAltScreen : Screen :=
  if ¬ s.alt then s
  else
    { s with
      grid := s.parked
      parked := s.grid
      cx := s.parkedCursor.x
      cy := s.parkedCursor.y
      wrapPending := s.parkedCursor.wrapPending
      pen := s.parkedCursor.style
      charset := s.parkedCursor.charset
      saved := s.parkedDecsc
      alt := false }

/-- A page under construction, with its own watch. -/
structure Draft where
  out : List ScreenCell
  fault : Bool := false

namespace Draft

def put (d : Draft) (i : Int) (c : ScreenCell) : Draft :=
  if InBounds d.out i then { d with out := d.out.set i.toNat c } else { d with fault := true }

end Draft

/-- Copy the cell of column `x`, row `y` of a page of width `s.cols` to a draft of
width `cols`. -/
def copyCell (page : List ScreenCell) (cols y : Int) (d : Draft) (x : Int) : Draft :=
  let i := y * s.cols + x
  if InBounds page i then d.put (y * cols + x) (readAt blank page i) else { d with fault := true }

/-- Copy the kept columns of row `y`; a first half left against the cut is erased. -/
def copyRow (page : List ScreenCell) (cols keepCols : Int) (d : Draft) (y : Int) : Draft :=
  let d := forUp 0 keepCols (s.copyCell page cols y) d
  let edge := y * cols + (keepCols - 1)
  if InBounds d.out edge then
    if (readAt blank d.out edge).width = 2 then d.put edge s.erased else d
  else { d with fault := true }

/-- Cut a page to new dimensions, the screen's own being the old ones. -/
def reshape (page : List ScreenCell) (cols rows : Int) : Draft :=
  forUp 0 (min rows s.rows) (s.copyRow page cols (min cols s.cols))
    { out := s.erasedPage cols rows }

/-- Cut the page that is kept. On the alternate screen that is the one waiting outside,
and the displayed one is thrown away. -/
def resizePages (cols rows : Int) : Screen :=
  if s.alt then
    let d := s.reshape s.parked cols rows
    { s with parked := d.out, grid := s.erasedPage cols rows, fault := s.fault || d.fault }
  else
    let d := s.reshape s.grid cols rows
    { s with grid := d.out, fault := s.fault || d.fault }

/-- Take the new dimensions: both cursors come back inside, the wrap is forgotten and
the region is the whole page again. -/
def adoptSize (cols rows : Int) : Screen :=
  { s with
    cols := cols
    rows := rows
    cx := clamp s.cx 0 (cols - 1)
    cy := clamp s.cy 0 (rows - 1)
    wrapPending := false
    parkedCursor :=
      { s.parkedCursor with
        x := clamp s.parkedCursor.x 0 (cols - 1), y := clamp s.parkedCursor.y 0 (rows - 1) }
    top := 0
    bottom := rows - 1 }

def resize (cols rows : Int) : Screen :=
  let cols := max 1 cols
  let rows := max 1 rows
  if cols = s.cols ∧ rows = s.rows then s
  else
    let t := (s.resizePages cols rows).adoptSize cols rows
    -- the stops are per column: a change of height alone leaves them
    if cols ≠ s.cols then t.resetTabs else t

end Screen

/-! ### Runs of operations -/

/-- The operations of a screen. -/
inductive ScreenOp where
  | print (cp : Nat)
  | lineFeed
  | carriageReturn
  | backspace
  | tab
  | index
  | reverseIndex
  | nextLine
  | moveTo (x y : Int)
  | moveUp (n : Int)
  | moveDown (n : Int)
  | moveRight (n : Int)
  | moveLeft (n : Int)
  | setColumn (x : Int)
  | setRow (y : Int)
  | setTab
  | clearTab
  | clearAllTabs
  | eraseDisplay (mode : Int)
  | eraseLine (mode : Int)
  | eraseChars (n : Int)
  | insertChars (n : Int)
  | deleteChars (n : Int)
  | insertLines (n : Int)
  | deleteLines (n : Int)
  | setScrollRegion (top bottom : Int)
  | resetScrollRegion
  | saveCursor
  | restoreCursor
  | setPen (pen : Style)
  | setCharset (charset : Charset)
  | setAutowrap (on : Bool)
  | setScrollback (sb : Option Scrollback)
  | enterAltScreen
  | leaveAltScreen
  | resize (cols rows : Int)
  deriving Repr, DecidableEq

def Screen.step (ambiguousWide : Bool) (s : Screen) : ScreenOp → Screen
  | .print cp => s.print ambiguousWide cp
  | .lineFeed => s.lineFeed
  | .carriageReturn => s.carriageReturn
  | .backspace => s.backspace
  | .tab => s.tab
  | .index => s.index
  | .reverseIndex => s.reverseIndex
  | .nextLine => s.nextLine
  | .moveTo x y => s.moveTo x y
  | .moveUp n => s.moveUp n
  | .moveDown n => s.moveDown n
  | .moveRight n => s.moveRight n
  | .moveLeft n => s.moveLeft n
  | .setColumn x => s.setColumn x
  | .setRow y => s.setRow y
  | .setTab => s.setTab
  | .clearTab => s.clearTab
  | .clearAllTabs => s.clearAllTabs
  | .eraseDisplay mode => s.eraseDisplay mode
  | .eraseLine mode => s.eraseLine mode
  | .eraseChars n => s.eraseChars n
  | .insertChars n => s.insertChars n
  | .deleteChars n => s.deleteChars n
  | .insertLines n => s.insertLines n
  | .deleteLines n => s.deleteLines n
  | .setScrollRegion top bottom => s.setScrollRegion top bottom
  | .resetScrollRegion => s.resetScrollRegion
  | .saveCursor => s.saveCursor
  | .restoreCursor => s.restoreCursor
  | .setPen pen => s.setPen pen
  | .setCharset charset => s.setCharset charset
  | .setAutowrap on => s.setAutowrap on
  | .setScrollback sb => s.setScrollback sb
  | .enterAltScreen => s.enterAltScreen
  | .leaveAltScreen => s.leaveAltScreen
  | .resize cols rows => s.resize cols rows

end Sshos.Vt
