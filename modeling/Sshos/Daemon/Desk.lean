import Sshos.Input.Parser
import Sshos.Shell.Panel
import Sshos.Wm.Windows

/-!
# Sshos.Daemon.Desk

The **session** as far as the mouse goes: the windows, the gesture in progress, and what a
press finds under the pointer. Its dialogs have a module of their own.

Where an event is resolved by a part of the desktop that is not here (what a dialog, the
menu, the help or the leader chord make of it, what an application answers), the answer
comes with the event.
-/

namespace Sshos.Daemon

open Sshos.Input (MouseAction MouseEvent)
open Sshos.Lib (Bytes)
open Sshos.Render (Rect)
open Sshos.Shell (CatalogEntry Panel PanelHit PanelHitResult catalog catalogFind)
open Sshos.Wm (Desktop PanelEdge Size Win WinHit WindowId WinMode Windows clientRect hitWindow workArea)

inductive Drag
  | idle
  /-- A window follows the pointer; `origin` is what it finds back if the gesture aborts. -/
  | moving (win : WindowId) (grabDx grabDy : Int) (origin : Rect)
  /-- Only an outline follows it. -/
  | resizing (win : WindowId) (outline : Rect)
  deriving DecidableEq

/-- What covers the desktop. -/
structure Covers where
  modal : Bool := false
  help : Bool := false
  menu : Bool := false
  /-- The snap proposal. -/
  assist : Bool := false
  deriving DecidableEq

/-- What another part of the desktop makes of an event: what covers the desktop then, what
it asks of the window manager, the geometries it writes, the edge it gives the panel. -/
structure Outcome where
  covers : Covers := {}
  ops : List Desktop.Op := []
  rects : List (WindowId × Rect) := []
  edge : Option PanelEdge := none
  /-- The press was on a window of the snap proposal. -/
  picked : Bool := false
  /-- The application lets its window be closed. -/
  allowed : Bool := true

/-- What a press acts on. -/
inductive PressTarget
  | panel (r : PanelHitResult)
  | window (w : Win) (zone : WinHit)
  | desktop
  deriving DecidableEq

structure Desk where
  wm : Windows := Windows.none
  drag : Drag := .idle
  dragStamp : Nat := 0
  /-- In milliseconds. -/
  now : Nat := 0
  lastWork : Rect := {}
  lastClick : Nat := 0
  lastClickX : Int := -1
  lastClickY : Int := -1
  mouseGrab : WindowId := 0
  covers : Covers := {}
  panel : Panel := {}
  seeded : Bool := false
  /-- What applications asked to open. -/
  pendingApps : List (Bytes × Size) := []
  /-- What applications were given of the mouse, the latest first. -/
  delivered : List (WindowId × MouseEvent) := []

def kMinCols : Int := 40
def kMinRows : Int := 12
def kDragWatchdog : Nat := 2000
def kDoubleClick : Nat := 600
/-- `terminal`. -/
def kDefaultApp : Bytes := [0x74, 0x65, 0x72, 0x6d, 0x69, 0x6e, 0x61, 0x6c]

/-- Edges that nearly meet those of the work area are made to. -/
def snap (r work : Rect) (tolerance : Int) : Rect :=
  let x :=
    if |r.x - work.x| ≤ tolerance then work.x
    else if |r.x + r.w - (work.x + work.w)| ≤ tolerance then work.x + work.w - r.w
    else r.x
  let y :=
    if |r.y - work.y| ≤ tolerance then work.y
    else if |r.y + r.h - (work.y + work.h)| ≤ tolerance then work.y + work.h - r.h
    else r.y
  { r with x := x, y := y }

namespace Desk

variable (s : Desk)

/-! ### Gestures -/

/-- Undo what the gesture has written: a move alone has written something. -/
def cancelDrag : Desk :=
  match s.drag with
  | .moving win _ _ origin => { s with wm := s.wm.setUserRect win origin, drag := .idle }
  | _ => { s with drag := .idle }

/-- Keep it. -/
def finishDrag : Desk := { s with drag := .idle }

def watchdog : Desk :=
  match s.drag with
  | .idle => s
  | _ => if s.now - s.dragStamp ≥ kDragWatchdog then s.cancelDrag else s

/-- The mouse while a window follows it. -/
def dragMove (m : MouseEvent) (win : WindowId) (grabDx grabDy : Int) (origin : Rect) : Desk :=
  match s.wm.find win with
  | none => s.cancelDrag
  | some w =>
      let r := { w.app.userRect with x := m.x - grabDx, y := m.y - grabDy }
      let s := { s with dragStamp := s.now, wm := s.wm.setUserRect win r }
      if m.action = .release then
        let s := if r ≠ origin then { s with wm := s.wm.setUserRect win (snap r s.lastWork 1) } else s
        s.finishDrag
      else s

/-- The mouse while an outline follows it. -/
def dragResize (m : MouseEvent) (win : WindowId) (outline : Rect) : Desk :=
  match s.wm.find win with
  | none => s.cancelDrag
  | some _ =>
      let outline := { outline with w := m.x - outline.x + 1, h := m.y - outline.y + 1 }
      let s := { s with dragStamp := s.now, drag := .resizing win outline }
      if m.action = .release then { s with wm := s.wm.setUserRect win outline }.finishDrag else s

/-! ### Windows -/

def deliver (id : WindowId) (m : MouseEvent) : Desk := { s with delivered := (id, m) :: s.delivered }

/-- What covers the desktop takes the event. -/
def covered (o : Outcome) : Desk :=
  { s with
    wm := o.rects.foldl (fun v r => v.setUserRect r.1 r.2) (o.ops.foldl Windows.perform s.wm)
    covers := o.covers
    panel := { s.panel with edge := o.edge.getD s.panel.edge } }

/-- A window with its application, unless there are too many. -/
def openApp (id : Bytes) (minSize : Size) : Desk :=
  if s.wm.opens (.open (some minSize) s.lastWork) = true then
    { s with
      wm := (s.wm.open (some minSize) s.lastWork).change s.wm.nextId fun f => { f with appId := id } }
  else s

def openFromCatalog (id : Bytes) : Desk :=
  match catalogFind id with
  | none => s
  | some e => s.openApp e.id e.minSize

def focusOrOpen (id : Bytes) : Desk :=
  match s.wm.stack.find? fun w => w.app.appId = id with
  | none => s.openFromCatalog id
  | some w =>
      let s := if w.app.mode = .minimized then { s with wm := s.wm.setMode w.id .normal s.lastWork } else s
      { s with wm := s.wm.focus w.id }

/-- The gesture in progress is given up first. -/
def requestClose (id : WindowId) (allowed : Bool) : Desk :=
  let s := s.cancelDrag
  if allowed then { s with wm := s.wm.close id } else { s with covers := { s.covers with modal := true } }

/-! ### Presses -/

/-- What stands at a place, when nothing covers the desktop: the panel first. -/
def target (x y : Int) : PressTarget :=
  let ph := s.panel.hit x y
  if ph.what ≠ .none then .panel ph
  else
    match s.wm.hit x y with
    | some w => .window w (hitWindow w x y).what
    | none => .desktop

/-- The press was on the panel. -/
def pressPanel (m : MouseEvent) (o : Outcome) (r : PanelHitResult) : Desk :=
  match r.what with
  | .menuButton => { s with covers := { s.covers with menu := true } }
  | .update => { s with covers := o.covers }
  | .hint => { s with covers := { s.covers with help := true } }
  | .pinned =>
      if r.index < 0 then s
      else
        match catalog[r.index.toNat]? with
        | none => s
        | some e => if m.button = 2 then s.openFromCatalog e.id else s.focusOrOpen e.id
  | .task =>
      match s.wm.find r.win with
      | none => s
      | some t =>
          if m.button = 2 then
            if t.app.appId = [] then s else s.openFromCatalog t.app.appId
          else if t.app.mode = .minimized then
            { s with wm := (s.wm.setMode t.id .normal s.lastWork).focus t.id }
          else if s.wm.focused = t.id then { s with wm := s.wm.setMode t.id .minimized s.lastWork }
          else { s with wm := s.wm.focus t.id }
  | _ => s

def toggled (mode : WinMode) : WinMode := if mode = .maximized then .normal else .maximized

/-- The press was on a part of a window, which has the focus first: this changes nothing of
the window itself. -/
def pressWindow (m : MouseEvent) (o : Outcome) (w : Win) (zone : WinHit) : Desk :=
  let s := if s.wm.focused ≠ w.id then { s with wm := s.wm.focus w.id } else s
  let doubled := m.x = s.lastClickX ∧ m.y = s.lastClickY ∧ s.now - s.lastClick ≤ kDoubleClick
  let s := { s with
    dragStamp := s.now
    lastClick := s.now
    lastClickX := if doubled then -1 else m.x
    lastClickY := m.y }
  let f := w.app.displayRect
  match zone with
  | .titleBar =>
      if doubled then { s with wm := s.wm.setMode w.id (toggled w.app.mode) s.lastWork }
      -- elsewhere than where `userRect` says, a window is not moved
      else if w.app.mode ≠ .normal then s
      else { s with drag := .moving w.id (m.x - f.x) (m.y - f.y) w.app.userRect }
  | .buttonMinimize => { s with wm := s.wm.setMode w.id .minimized s.lastWork }
  | .buttonMaximize => { s with wm := s.wm.setMode w.id (toggled w.app.mode) s.lastWork }
  | .buttonClose => s.requestClose w.id o.allowed
  | .edgeRight | .edgeBottom | .cornerBR => { s with drag := .resizing w.id f }
  | .client =>
      { s with mouseGrab := w.id }.deliver w.id
        { m with x := m.x - (clientRect f).x, y := m.y - (clientRect f).y }
  | .frame | .none => s

def pressOn (m : MouseEvent) (o : Outcome) : PressTarget → Desk
  | .panel r => s.pressPanel m o r
  | .window w zone => s.pressWindow m o w zone
  | .desktop => if m.button = 2 then { s with covers := { s.covers with menu := true } } else s

/-- A press, no gesture being in progress. -/
def press (m : MouseEvent) (o : Outcome) : Desk :=
  if s.covers.modal ∨ s.covers.help ∨ s.covers.menu then s.covered o
  else if s.covers.assist ∧ o.picked then s.covered o
  else
    -- a press beside the proposal puts it away, and keeps its effect
    let s := { s with covers := { s.covers with assist := false } }
    s.pressOn m o (s.target m.x m.y)

/-- The wheel goes to the window under the pointer. -/
def wheel (m : MouseEvent) : Desk :=
  if s.covers.modal ∨ s.covers.menu then s
  else
    match s.wm.hit m.x m.y with
    | none => s
    | some w =>
        let h := hitWindow w m.x m.y
        if h.what = .client then s.deliver w.id { m with x := h.lx, y := h.ly } else s

/-- The window that holds the mouse sees it move, wherever it goes. -/
def held (m : MouseEvent) : Desk :=
  if s.mouseGrab = 0 then s
  else
    let s' :=
      match s.wm.find s.mouseGrab with
      | none => s
      | some w =>
          let c := clientRect w.app.displayRect
          s.deliver w.id { m with x := m.x - c.x, y := m.y - c.y }
    if m.action = .release then { s' with mouseGrab := 0 } else s'

def onMouse (m : MouseEvent) (o : Outcome) : Desk :=
  if m.action = .motion ∧ m.button = 3 then s.cancelDrag
  else if m.action = .press ∧ s.drag ≠ .idle then s.cancelDrag
  else
    match s.drag with
    | .moving win grabDx grabDy origin => s.dragMove m win grabDx grabDy origin
    | .resizing win outline => s.dragResize m win outline
    | .idle =>
        match m.action with
        | .wheelUp | .wheelDown => s.wheel m
        | .press => s.press m o
        | .release | .motion => s.held m

/-! ### The other events -/

/-- A key aborts the gesture, and does nothing else then. -/
def onKey (o : Outcome) : Desk := if s.drag ≠ .idle then s.cancelDrag else s.covered o

def onPaste : Desk := if s.drag ≠ .idle then s.cancelDrag else s

def onFocus (focused : Bool) : Desk := if focused then s else s.cancelDrag

/-- One application that asked to open, one that asked to close. -/
def openPending : Desk :=
  match s.pendingApps with
  | [] => s
  | (id, minSize) :: rest => { s with pendingApps := rest }.openApp id minSize

def closeRequested (allowed : Bool) : Desk :=
  match s.wm.stack.find? (·.closeRequested) with
  | none => s
  | some w => { s with wm := s.wm.askClose w.id false }.requestClose w.id allowed

def ensureWindow : Desk :=
  if s.seeded then s else { s with seeded := true }.openFromCatalog kDefaultApp

/-- What a composition does to the desk, before it paints it. -/
def compose (cols rows : Int) (utf8 badge : Bool) (hint : Bytes) (allowed : Bool) : Desk :=
  let s := s.watchdog
  if cols < kMinCols ∨ rows < kMinRows then s
  else
    let s := (s.openPending).closeRequested allowed
    let work := workArea cols rows s.panel.edge s.panel.thickness
    let s := { s with lastWork := work }.ensureWindow
    let s := { s with wm := s.wm.relayout work cols rows }
    { s with panel :=
        { s.panel with hint := hint, updateBadge := badge }.layout s.wm.toDesktop cols rows utf8 }

/-- What happens to a session. An input is dispatched once the watchdog has looked at the
gesture; here these are two events. -/
inductive Event
  | mouse (m : MouseEvent) (o : Outcome)
  | key (o : Outcome)
  | paste
  | focus (focused : Bool)
  | watchdog
  | elapse (ms : Nat)
  | compose (cols rows : Int) (utf8 badge : Bool) (hint : Bytes) (allowed : Bool)
  /-- A client comes, or goes. -/
  | attach
  | asksOpen (id : Bytes) (minSize : Size)
  | asksClose (id : WindowId)
  /-- A window goes, without a question. -/
  | closes (id : WindowId)
  | setsTitle (id : WindowId) (title : Bytes)

def step : Event → Desk
  | .mouse m o => s.onMouse m o
  | .key o => s.onKey o
  | .paste => s.onPaste
  | .focus focused => s.onFocus focused
  | .watchdog => s.watchdog
  | .elapse ms => { s with now := s.now + ms }
  | .compose cols rows utf8 badge hint allowed => s.compose cols rows utf8 badge hint allowed
  | .attach => s.cancelDrag
  | .asksOpen id minSize => { s with pendingApps := s.pendingApps ++ [(id, minSize)] }
  | .asksClose id => { s with wm := s.wm.askClose id true }
  | .closes id => { s with wm := s.wm.close id }
  | .setsTitle id title => { s with wm := s.wm.change id fun f => { f with title := title } }

end Desk

end Sshos.Daemon
