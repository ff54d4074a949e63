import Sshos.Daemon.Routes
import Sshos.Shell.SnapAssist
import Sshos.Wm.Tile

/-!
# Sshos.Daemon.Keyboard

The **session and its keyboard**: what the desktop makes of the keys that `Routes` leaves to
it. A window that is snapped leaves a half of the work area free, for which the others are
proposed; the other gestures move, stretch, close or hide the window that has the focus.

What a dialog or the menu makes of an event still comes with it, as on the `Desk`.
-/

namespace Sshos.Daemon

open Sshos.Input (InputEvent Key KeyEvent LeaderDispatch MouseEvent)
open Sshos.Lib (Bytes)
open Sshos.Render (Rect)
open Sshos.Shell (SnapAssist SnapCandidate)
open Sshos.Wm (Size SnapDir Win WindowId Windows clampTo frameMin snapOpposite snapRect)

structure Keyboard extends Routes where
  /-- When the chord was armed. -/
  leaderStamp : Nat := 0
  assist : SnapAssist := {}
  /-- The half that the proposal is for. -/
  assistRect : Rect := {}
  detach : Bool := false
  repaint : Bool := false

def kHelpDelay : Nat := 500

/-- The geometry a gesture asks for: one step, from where the user wants the window. -/
def nudged (a : Input.Action) (r : Rect) (min' : Size) : Option Rect :=
  match a with
  | .moveLeft => some { r with x := r.x - 1 }
  | .moveRight => some { r with x := r.x + 1 }
  | .moveUp => some { r with y := r.y - 1 }
  | .moveDown => some { r with y := r.y + 1 }
  | .growWidth => some { r with w := r.w + 1 }
  | .shrinkWidth => some { r with w := max min'.w (r.w - 1) }
  | .growHeight => some { r with h := r.h + 1 }
  | .shrinkHeight => some { r with h := max min'.h (r.h - 1) }
  | _ => none

/-- The side of a plain `Ctrl` and arrow. -/
def snapKey (k : KeyEvent) : Option SnapDir :=
  if k.mods = { ctrl := true } then
    match k.key with
    | .left => some .left
    | .right => some .right
    | .up => some .up
    | .down => some .down
    | _ => none
  else none

/-- `Ctrl+Q`. -/
def isQuit (k : KeyEvent) : Bool := k.key = .char ∧ k.ch = 'q'.toNat ∧ k.mods.ctrl = true

/-! ### A key with nothing over the desktop -/

namespace Routes

variable (s : Routes)

/-- A key puts away the help and the proposal, and a series that is too old. -/
def settle : Routes :=
  let s :=
    if s.leader.phase = .repeating ∧ s.desk.now > s.repeatUntil then
      { s with leader := s.leader.reset }
    else s
  { s with desk := { s.desk with covers := { s.desk.covers with help := false, assist := false } } }

/-- Where it goes then. -/
def dispatch (k : KeyEvent) (o : Outcome) : Routes :=
  if (k.key = .left ∨ k.key = .right ∨ k.key = .up ∨ k.key = .down) ∧ k.mods = { ctrl := true } then
    { s with leader := s.leader.reset, desk := s.desk.covered o }
  else
    let fed := s.leader.feed k
    let s := { s with leader := fed.2 }
    match fed.1.action with
    | some a =>
        if a = .literalLeader then
          s.deliverKey { key := .char, ch := s.leader.leader, mods := { ctrl := true } }
        else
          { s with
            desk := s.desk.covered o
            repeatUntil :=
              if s.leader.phase = .repeating then s.desk.now + kRepeatWindow else s.repeatUntil }
    | none => if fed.1.consumed = true then s else s.deliverKey k

/-- Nothing takes the keys: no gesture, no dialog, no menu. -/
structure Bare : Prop where
  idle : s.desk.drag = .idle
  modal : s.desk.covers.modal = false
  menu : s.desk.covers.menu = false

end Routes

namespace Keyboard

variable (s : Keyboard)

/-- The proposal goes when the desk is no longer covered by it. -/
def withDesk (d : Desk) : Keyboard :=
  { s with desk := d, assist := if d.covers.assist then s.assist else {} }

def withWindows (wm : Windows) : Keyboard := { s with desk := { s.desk with wm := wm } }
def withCovers (c : Covers) : Keyboard := { s with desk := { s.desk with covers := c } }

/-! ### Snapping -/

def setAssist (a : SnapAssist) : Keyboard :=
  { s.withCovers { s.desk.covers with assist := a.isOpen } with assist := a }

/-- The other windows that are seen, the foremost first. -/
def others (snapped : WindowId) : List Win :=
  s.desk.wm.stack.reverse.filter fun w => w.id ≠ snapped ∧ w.app.mode ≠ .minimized

/-- A half that somebody already has is proposed to nobody. -/
def assistCandidates (snapped : WindowId) (free : Rect) : List SnapCandidate :=
  if (s.others snapped).any fun w => w.app.displayRect = free then []
  else (s.others snapped).map fun w => { win := w.id, title := w.app.title }

/-- Give a window a place, as a normal one. -/
def place (id : WindowId) (r : Rect) : Windows :=
  (s.desk.wm.setMode id .normal s.desk.lastWork).setRect id r s.desk.lastWork

/-- The window that has the focus takes a half, and the other one is proposed. -/
def snapFocused (d : SnapDir) : Keyboard :=
  match s.desk.wm.find s.desk.wm.focused with
  | none => s
  | some w =>
      let s := { s.withWindows (s.place w.id (snapRect s.desk.lastWork d)) with
        assistRect := snapOpposite s.desk.lastWork d }
      s.setAssist (.open s.assistRect (s.assistCandidates w.id s.assistRect))

/-- A window of the proposal takes the free half, and the focus. -/
def dockIntoFreeHalf (id : WindowId) : Keyboard :=
  let s := s.setAssist {}
  match s.desk.wm.find id with
  | none => s
  | some _ => s.withWindows ((s.place id s.assistRect).focus id)

/-! ### Keys -/

/-- The window moves or stretches, from where the user wants it and inside the work area. -/
def nudge (a : Input.Action) (w : Win) : Keyboard :=
  match nudged a w.app.userRect (frameMin w.app.minSize) with
  | none => s
  | some r =>
      s.withWindows
        (s.desk.wm.setUserRect w.id (clampTo r s.desk.lastWork (frameMin w.app.minSize)))

/-- What a gesture does to the window that has the focus. -/
def focusedAction (a : Input.Action) (allowed : Bool) (w : Win) : Keyboard :=
  let work := s.desk.lastWork
  match a with
  | .close => { s with desk := s.desk.requestClose w.id allowed }
  | .minimize => s.withWindows (s.desk.wm.setMode w.id .minimized work)
  | .maximizeToggle => s.withWindows (s.desk.wm.setMode w.id (Desk.toggled w.app.mode) work)
  | .fullscreenToggle =>
      { s.withWindows
          (s.desk.wm.setMode w.id (if w.app.mode = .fullscreen then .normal else .fullscreen) work) with
        repaint := true }
  | a => s.nudge a w

def onFocused (a : Input.Action) (allowed : Bool) : Keyboard :=
  match s.desk.wm.find s.desk.wm.focused with
  | none => s
  | some w => s.focusedAction a allowed w

def doAction (a : Input.Action) (allowed : Bool) : Keyboard :=
  match a with
  | .snapLeft => s.snapFocused .left
  | .snapRight => s.snapFocused .right
  | .snapUp => s.snapFocused .up
  | .snapDown => s.snapFocused .down
  | .openMenu => s.withCovers { s.desk.covers with menu := true }
  | .forceRepaint => { s with repaint := true }
  | .detach => { s with detach := true }
  | .showHelp => s.withCovers { s.desk.covers with help := true }
  | .nextWindow => s.withWindows (s.desk.wm.perform .focusNext)
  | .prevWindow => s.withWindows (s.desk.wm.perform .focusPrev)
  | .literalLeader =>
      { s with toRoutes :=
          s.deliverKey { key := .char, ch := s.leader.leader, mods := { ctrl := true } } }
  | a => s.onFocused a allowed

/-- What a key puts away, and still has its effect: a series too old, the help, the proposal. -/
def settle : Keyboard :=
  let s :=
    if s.leader.phase = .repeating ∧ s.desk.now > s.repeatUntil then
      { s with leader := s.leader.reset }
    else s
  let s := s.withCovers { s.desk.covers with help := false }
  s.setAssist {}

/-- The leader chord has the key first. -/
def chord (k : KeyEvent) (allowed : Bool) : Keyboard :=
  let fed := s.leader.feed k
  let s := { s with leader := fed.2 }
  match fed.1.action with
  | some a =>
      let s := s.doAction a allowed
      if s.leader.phase = .repeating then { s with repeatUntil := s.desk.now + kRepeatWindow } else s
  | none =>
      if fed.1.consumed then
        if s.leader.phase = .armed then { s with leaderStamp := s.desk.now } else s
      else { s with toRoutes := s.deliverKey k }

/-- What covers the desktop may put the proposal away, and opens none. -/
def masked (o : Outcome) : Outcome :=
  { o with
    picked := false
    covers := { o.covers with assist := o.covers.assist && s.assist.isOpen } }

/-- A plain `Ctrl` and arrow snaps, and ends a chord; any other key may be part of one. -/
def dispatch (k : KeyEvent) (allowed : Bool) : Keyboard :=
  match snapKey k with
  | some d => { s with leader := s.leader.reset }.snapFocused d
  | none => s.chord k allowed

def onKey (k : KeyEvent) (o : Outcome) : Keyboard :=
  if s.desk.drag ≠ .idle then s.withDesk s.desk.cancelDrag
  else if isQuit k then { s with detach := true }
  else if s.desk.covers.modal ∨ s.desk.covers.menu then s.withDesk (s.desk.covered (s.masked o))
  else s.settle.dispatch k o.allowed

/-! ### The mouse -/

/-- A press that what is modal lets through. -/
def Presses (m : MouseEvent) : Prop :=
  m.action = .press ∧ s.desk.drag = .idle ∧
    ¬ (s.desk.covers.modal ∨ s.desk.covers.help ∨ s.desk.covers.menu)

instance (m : MouseEvent) : Decidable (s.Presses m) := inferInstanceAs (Decidable (_ ∧ _))

/-- A press on the proposal docks a window; beside it, it puts it away and keeps its effect. -/
def onMouse (m : MouseEvent) (o : Outcome) : Keyboard :=
  if s.Presses m ∧ s.assist.isOpen = true then
    let picked := s.assist.hit m.x m.y
    if picked ≠ 0 then s.dockIntoFreeHalf picked
    else (s.setAssist {}).withDesk ((s.setAssist {}).desk.onMouse m ((s.setAssist {}).masked o))
  else s.withDesk (s.desk.onMouse m (s.masked o))

/-! ### Events -/

/-- `Session::on_input`: the gesture is looked at first. -/
def onInput (e : InputEvent) (o : Outcome) : Keyboard :=
  let s := s.withDesk s.desk.watchdog
  match e with
  | .key k => s.onKey k o
  | .mouse m => s.onMouse m o
  | .paste text complete => { s with toRoutes := s.toRoutes.onPaste text complete }
  | .focus focused => s.withDesk (s.desk.onFocus focused)

/-- `Session::take_dirty`: a chord left in the air brings the help. -/
def takeDirty : Keyboard :=
  if s.leader.phase = .armed ∧ ¬ s.desk.covers.help ∧ s.desk.now ≥ s.leaderStamp + kHelpDelay then
    s.withCovers { s.desk.covers with help := true }
  else s

inductive Event
  | input (e : InputEvent) (o : Outcome)
  | takeDirty
  | other (e : { e : Desk.Event // e.isInput = false })

def step : Event → Keyboard
  | .input e o => s.onInput e o
  | .takeDirty => s.takeDirty
  | .other e => s.withDesk (s.desk.step e)

/-! ### The routes under the keyboard -/

/-- What becomes of the desk is what some part of the desktop makes of an event. -/
def Resolves (s s' : Keyboard) : Prop :=
  ∃ o : Outcome, s'.toRoutes = { s.toRoutes with desk := s.desk.covered o }

variable {s}

theorem Resolves.refl (s : Keyboard) : Resolves s s := ⟨{ covers := s.desk.covers }, rfl⟩

end Keyboard

end Sshos.Daemon
