import Sshos.Lib.Bytes
import Sshos.Lib.Run
import Sshos.Render.Cell
import Sshos.Wm.Manager

/-!
# Sshos.Wm.Desktop

The window manager with the **geometry** of its windows: what the user wants of each
(`userRect`), what is shown of it (`displayRect`), its mode, and the numbers the windows
bear, which are 32 bits wide.

An application is known by the size it asks for; the manager reads nothing else of it.
-/

namespace Sshos.Wm

open Sshos.Lib (Bytes)
open Sshos.Render (Rect)

structure Size where
  w : Int
  h : Int
  deriving Repr, DecidableEq

inductive WinMode
  | normal | minimized | maximized | fullscreen
  deriving Repr, DecidableEq

/-- What a window holds besides its number. -/
structure Frame where
  title : Bytes := []
  appId : Bytes := []
  userRect : Rect := {}
  displayRect : Rect := {}
  mode : WinMode := .normal
  beforeFullscreen : WinMode := .normal
  /-- The size its application asks for inside the frame. -/
  minSize : Size
  deriving Repr, DecidableEq

abbrev Win := Window Frame

/-! ### Geometry -/

def clientRect (frame : Rect) : Rect :=
  { x := frame.x + 1, y := frame.y + 1, w := max 0 (frame.w - 2), h := max 0 (frame.h - 2) }

def frameMin (m : Size) : Size := { w := max (m.w + 2) 16, h := max (m.h + 2) 5 }

def clampTo (frame work : Rect) (min' : Size) : Rect :=
  let w := max min'.w (min frame.w work.w)
  let h := max min'.h (min frame.h work.h)
  { x := max work.x (min frame.x (work.x + work.w - w))
    y := max work.y (min frame.y (work.y + work.h - h))
    w := w
    h := h }

inductive PanelEdge
  | top | bottom | left | right
  deriving Repr, DecidableEq

/-- What the panel leaves of the screen. -/
def workArea (cols rows : Int) (edge : PanelEdge) (thickness : Int) : Rect :=
  match edge with
  | .top => { x := 0, y := thickness, w := cols, h := rows - thickness }
  | .bottom => { x := 0, y := 0, w := cols, h := rows - thickness }
  | .left => { x := thickness, y := 0, w := cols - thickness, h := rows }
  | .right => { x := 0, y := 0, w := cols - thickness, h := rows }

def displayRectFor (f : Frame) (work : Rect) (cols rows : Int) : Rect :=
  match f.mode with
  | .maximized => work
  | .fullscreen => { x := 0, y := 0, w := cols, h := rows }
  | .minimized | .normal => clampTo f.userRect work (frameMin f.minSize)

/-- What `set_mode` shows at once, before the next layout. -/
def Frame.enter (f : Frame) (m : WinMode) (work : Rect) : Frame :=
  let f := { f with mode := m }
  match m with
  | .normal => { f with displayRect := clampTo f.userRect work (frameMin f.minSize) }
  | .maximized | .fullscreen => { f with displayRect := work }
  | .minimized => f

def kDefaultRect : Rect := { x := 2, y := 1, w := 44, h := 14 }
def kCascadeDx : Int := 2
def kCascadeDy : Int := 1

/-! ### The manager -/

structure Desktop extends WindowManager Frame where
  cascade : Int := 0

namespace Desktop

variable (d : Desktop)

def Visible (w : Win) : Prop := w.app.mode ≠ .minimized

instance (w : Win) : Decidable (Visible w) := inferInstanceAs (Decidable (_ ≠ _))

/-- The other full-screen windows find back the mode they had before. -/
def leaveFullscreen (id : WindowId) : Desktop :=
  { d with stack := d.stack.map fun w =>
      if w.id ≠ id ∧ w.app.mode = .fullscreen then
        { w with app := { w.app with mode := w.app.beforeFullscreen } }
      else w }

def raise (id : WindowId) : Desktop := { d with toWindowManager := d.toWindowManager.raise id }

def focus (id : WindowId) : Desktop :=
  { (d.leaveFullscreen id).raise id with focused := id }

/-- A new window, in front and with the focus, unless there are too many or it would have
no application. The window after it will bear `next`. -/
def openAs (next : WindowId) (app : Option Size) (work : Rect) : Desktop :=
  if d.stack.length ≥ WindowManager.kMaxWindows then d
  else
    match app with
    | none => d
    | some minSize =>
        let userRect := { kDefaultRect with
          x := kDefaultRect.x + kCascadeDx * d.cascade
          y := kDefaultRect.y + kCascadeDy * d.cascade }
        let w : Win :=
          { id := d.nextId
            app := { userRect, displayRect := clampTo userRect work (frameMin minSize), minSize } }
        let cascade := d.cascade + 1
        let nextX := kDefaultRect.x + kCascadeDx * cascade
        let nextY := kDefaultRect.y + kCascadeDy * cascade
        let cascade :=
          if nextX + kDefaultRect.w > work.x + work.w ∨ nextY + kDefaultRect.h > work.y + work.h
          then 0 else cascade
        focus { d with stack := d.stack ++ [w], nextId := next, cascade } d.nextId

/-- The numbers have 32 bits. -/
def «open» (app : Option Size) (work : Rect) : Desktop :=
  d.openAs ((d.nextId + 1) % 2 ^ 32) app work

def close (id : WindowId) : Desktop := { d with toWindowManager := d.toWindowManager.close id }

/-- Change what the first window with this number holds. -/
def change (id : WindowId) (f : Frame → Frame) : Desktop :=
  { d with stack := go d.stack }
where
  go : List Win → List Win
    | [] => []
    | w :: ws => if w.id = id then { w with app := f w.app } :: ws else w :: go ws

def setRect (id : WindowId) (user work : Rect) : Desktop :=
  d.change id fun f =>
    { f with userRect := user, displayRect := clampTo user work (frameMin f.minSize) }

def setMode (id : WindowId) (m : WinMode) (work : Rect) : Desktop :=
  match d.find id with
  | none => d
  | some w =>
      if m = .fullscreen ∧ w.app.mode ≠ .fullscreen then
        ((d.change id fun f => { f with beforeFullscreen := f.mode }).leaveFullscreen id).change id
          fun f => f.enter m work
      else d.change id fun f => f.enter m work

/-- The place of the window that has the focus, or the front. -/
def start : Nat :=
  match d.stack.findIdx? fun w => w.id == d.focused with
  | some i => i
  | none => d.stack.length - 1

/-- The places a walk of `n` steps by `delta` visits. The remainder is the one of the
processor, which has the sign of what it divides. -/
def places (n : Nat) (start : Int) (delta : Int) : List Nat :=
  (List.range n).map fun (k : Nat) => (((start + delta * (k + 1)).tmod n + n).tmod n).toNat

/-- The first window of the walk that is not minimized takes the focus. -/
def step (delta : Int) : Desktop :=
  let walk := (places d.stack.length d.start delta).filterMap (d.stack[·]?)
  match walk.find? fun w => Visible w with
  | none => d
  | some w => d.focus w.id

def focusNext : Desktop := d.step 1
def focusPrev : Desktop := d.step (-1)

/-- The foremost window that shows this place. -/
def hit (x y : Int) : Option Win :=
  d.stack.reverse.find? fun w => Visible w && w.app.displayRect.contains x y

def relayout (work : Rect) (cols rows : Int) : Desktop :=
  { d with stack := d.stack.map fun w =>
      { w with app := { w.app with displayRect := displayRectFor w.app work cols rows } } }

/-! ### Runs -/

inductive Op
  | «open» (app : Option Size) (work : Rect)
  | close (id : WindowId)
  | focus (id : WindowId)
  | focusNext
  | focusPrev
  | setMode (id : WindowId) (m : WinMode) (work : Rect)
  | setRect (id : WindowId) (user work : Rect)
  deriving Repr, DecidableEq

def apply : Op → Desktop
  | .open app work => d.open app work
  | .close id => d.close id
  | .focus id => d.focus id
  | .focusNext => d.focusNext
  | .focusPrev => d.focusPrev
  | .setMode id m work => d.setMode id m work
  | .setRect id user work => d.setRect id user work

/-- Nobody gives the focus to a window that is not there. -/
def Legal : Op → Prop
  | .focus id => d.find id ≠ none
  | _ => True

instance (op : Op) : Decidable (d.Legal op) :=
  match op with
  | .focus id => inferInstanceAs (Decidable (d.find id ≠ none))
  | .open _ _ | .close _ | .focusNext | .focusPrev | .setMode _ _ _ | .setRect _ _ _ => .isTrue trivial

end Desktop

end Sshos.Wm
