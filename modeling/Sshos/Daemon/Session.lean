import Sshos.Input.Parser
import Sshos.Lib.Run
import Sshos.Shell.UpdateService

/-!
# Sshos.Daemon.Session

The **session** as far as its dialogs go: what keys, clicks, closing requests, wake-ups
and deaths of the update child do to the dialog box, to what its answer means, and to
the windows.

The box (`modal`) and the meaning of its answer (`modalKind`) are two pieces of state.
What the user actually reads is a third one, which the program does not keep: `posed` and
`asked` record, for the question on display, what it asks for and the words it was put in.

Where an event is resolved by a part of the desktop that is not here (which menu line
is selected, what the leader chord means, what stands under the pointer, what an
application answers), the answer comes with the event.
-/

namespace Sshos.Daemon

open Sshos.Input (Key KeyEvent MouseAction MouseEvent)
open Sshos.Lib (Bytes)
open Sshos.Shell
open Sshos.Wm (WindowId WindowManager)

/-- What an application answers when asked whether it can be closed. -/
structure CloseCheck where
  allowed : Bool := true
  question : Bytes := []
  deriving DecidableEq

/-- What the answer to the dialog on display is about. -/
inductive ModalKind where
  | closeWindow | quitSession | applyUpdate | applyRunning | restartForUpdate | information
  deriving DecidableEq

/-- What a question asks for. -/
inductive Purpose where
  | close (w : WindowId)
  | quit
  | apply
  | restart
  deriving DecidableEq

structure Session where
  wm : WindowManager CloseCheck := {}
  children : List (Nat × WindowId) := []
  modal : Modal := {}
  modalKind : ModalKind := .closeWindow
  update : UpdateService := {}
  menuOpen : Bool := false
  dragging : Bool := false
  quit : Bool := false
  detach : Bool := false
  /-- What the question last put on display asks for. -/
  posed : Purpose := .quit
  /-- The words it was put in. -/
  asked : Bytes := []
  /-- The commands handed to the update service, in order. -/
  runs : List UpdateCommand := []

/-! ### Events -/

/-- The lines of the menu. -/
inductive MenuId where
  | app (answers : CloseCheck)
  | panel
  | cmd
  | tile
  | detach
  | update (id : UpdateCommand)
  | quit

/-- What the leader chord makes of a key. -/
inductive Action where
  | close
  | openMenu
  | detach
  | focus (w : WindowId)
  | other

/-- What stands under the pointer when no dialog and no menu does. -/
inductive Target where
  | menuButton
  | update
  | launcher (answers : CloseCheck)
  | window (w : WindowId)
  | frame (w : WindowId)
  | closeButton (w : WindowId)
  | other

/-- What stands under the pointer while the menu is open. -/
inductive MenuTarget where
  | item (id : MenuId)
  | inside
  | outside

inductive Event where
  | key (k : KeyEvent) (selected : Option MenuId) (action : Option Action) (launched : Option Nat)
  | mouse (m : MouseEvent) (inMenu : MenuTarget) (target : Target) (launched : Option Nat)
  | paste
  | focus (focused : Bool)
  | childExit (pid : Nat) (failed : Bool) (r : Reading)
  | tick (r : Reading) (due : Bool) (launched : Option Nat)
  | render (cols rows : Int) (pending : Option CloseCheck)
  /-- An application did something: it may answer otherwise now, ask for its own
  closing, or have a child looked after. -/
  | app (w : WindowId) (answers : CloseCheck) (asksClose : Bool) (child : Option Nat)

namespace Session

variable (s : Session)

/-! ### The dialog -/

/-- Put a question on display, unless one is there already. -/
def pose (question : Bytes) (target : WindowId) (cancelLabel confirmLabel : Bytes) (why : Purpose) :
    Session :=
  { s with
    modal := s.modal.askLabelled question target cancelLabel confirmLabel
    posed := if s.modal.accepts then why else s.posed
    asked := if s.modal.accepts then question else s.asked }

def closeWindow (id : WindowId) : Session :=
  { s with children := s.children.filter fun c => c.2 ≠ id, wm := s.wm.close id }

/-- The one path by which a window closes on demand. -/
def requestClose (id : WindowId) : Session :=
  let s := { s with dragging := false }
  match s.wm.find id with
  | none => s
  | some w =>
      if w.app.allowed then s.closeWindow id
      else s.pose w.app.question id Modal.kCancel Modal.kConfirm (.close id)

/-- Hand a command to the update service. -/
def runUpdate (id : UpdateCommand) (launched : Option Nat) : Session :=
  { s with update := s.update.run id launched, runs := s.runs ++ [id] }

/-- What a yes does, when the box closes on it. -/
def confirmModal (launched : Option Nat) : Session :=
  match s.modalKind with
  | .quitSession => { s with quit := true }
  | .restartForUpdate => s.runUpdate .restart launched
  | .information => s
  | _ =>
      match s.wm.find s.modal.target with
      | none => s
      | some _ => s.closeWindow s.modal.target

def answerModal (confirmed : Bool) (launched : Option Nat) : Session :=
  if confirmed ∧ s.modalKind = .applyUpdate then
    -- the box stays, to show how the work goes on
    let s := s.runUpdate .apply launched
    { s with
      modal := s.modal.dismiss.progress s.update.progressLine
      modalKind := .applyRunning }
  else
    let s := if confirmed then s.confirmModal launched else s
    { s with modalKind := .closeWindow, modal := s.modal.dismiss }

/-! ### Menu and update commands -/

def kQuitQuestion : Bytes := text "Fermer la session ? Toutes les fenetres seront perdues."

def restartQuestion : Bytes :=
  let windows := s.wm.stack.length
  let procs := s.children.length
  let q := text "Redemarrer maintenant ? " ++ text (toString windows) ++
    (if windows > 1 then text " fenetres" else text " fenetre")
  let q :=
    if procs > 0 then q ++ text " et " ++ text (toString procs) ++ text " processus en cours" else q
  q ++ text " seront fermes."

def applyQuestion : Bytes :=
  let q := text "Installer la mise a jour ?"
  let n := s.update.news
  let q := if n = [] then q else q ++ text " " ++ n ++ text "."
  let v := s.update.versionLine
  let q := if v = [] then q else q ++ text "\n" ++ v
  q ++ text "\nVos fenetres restent ouvertes."

def runUpdateCommand (id : UpdateCommand) (launched : Option Nat) : Session :=
  let e := s.update.entry
  if ¬ e.enabled then s
  -- a stale order is refused, but a check is always welcome
  else if id ≠ e.id ∧ id ≠ .check then s
  else
    match id with
    | .check => s.runUpdate .check launched
    | .restart =>
        pose { s with modalKind := .restartForUpdate } s.restartQuestion 0 Modal.kCancel
          Modal.kConfirm .restart
    | .apply =>
        pose { s with modalKind := .applyUpdate } s.applyQuestion 0 Modal.kCancel Modal.kConfirm
          .apply

def openWindow (answers : CloseCheck) : Session := { s with wm := s.wm.open answers }

def runMenu (id : MenuId) (launched : Option Nat) : Session :=
  let s := { s with menuOpen := false }
  match id with
  | .app answers => s.openWindow answers
  | .panel => s
  | .cmd => s
  | .tile => s
  | .detach => { s with detach := true }
  | .update id => s.runUpdateCommand id launched
  | .quit =>
      pose { s with modalKind := .quitSession } kQuitQuestion 0 Modal.kCancel Modal.kConfirm .quit

/-! ### Input -/

def menuKey (k : KeyEvent) (selected : Option MenuId) (launched : Option Nat) : Session :=
  match k.key with
  | .escape => { s with menuOpen := false }
  | .enter =>
      match selected with
      | some id => s.runMenu id launched
      | none => { s with menuOpen := false }
  | .char => if k.mods.ctrl then { s with menuOpen := false } else s
  | _ => s

def doAction : Action → Session
  | .close =>
      match s.wm.find s.wm.focused with
      | none => s
      | some w => s.requestClose w.id
  | .openMenu => { s with menuOpen := true }
  | .detach => { s with detach := true }
  | .focus w => { s with wm := s.wm.focus w }
  | .other => s

/-- The keys a dialog takes. -/
def modalKey (k : KeyEvent) (launched : Option Nat) : Session :=
  match k.key with
  | .escape => { s with modal := s.modal.dismiss }
  | .tab | .backTab | .left | .right => { s with modal := s.modal.focusNext }
  | .enter => s.answerModal s.modal.confirm launched
  | _ => s

/-- Ctrl+Q leaves without destroying anything. -/
def detaches (k : KeyEvent) : Bool := k.key == .char && k.ch == 0x71 && k.mods.ctrl

def onKey (k : KeyEvent) (selected : Option MenuId) (action : Option Action)
    (launched : Option Nat) : Session :=
  if s.dragging then { s with dragging := false }
  else if detaches k then { s with detach := true }
  else if s.modal.isOpen then s.modalKey k launched
  else if s.menuOpen then s.menuKey k selected launched
  else
    match action with
    | some a => s.doAction a
    | none => s

/-- Whether a mouse event gets past the gestures: a press with none under way. -/
def presses (m : MouseEvent) : Bool := m.action == .press && !s.dragging

def modalPress (m : MouseEvent) (launched : Option Nat) : Session :=
  match s.modal.hit m.x m.y with
  | .confirm => s.answerModal true launched
  | .cancel => s.answerModal false launched
  | _ => s

def menuPress (inMenu : MenuTarget) (launched : Option Nat) : Session :=
  match inMenu with
  | .item id => s.runMenu id launched
  | .inside => s
  | .outside => { s with menuOpen := false }

def targetPress (target : Target) (launched : Option Nat) : Session :=
  match target with
  | .menuButton => { s with menuOpen := true }
  | .update => s.runUpdateCommand s.update.entry.id launched
  | .launcher answers => s.openWindow answers
  | .window w => { s with wm := s.wm.focus w }
  | .frame w => { s with wm := s.wm.focus w, dragging := true }
  | .closeButton w => requestClose { s with wm := s.wm.focus w } w
  | .other => s

def onMouse (m : MouseEvent) (inMenu : MenuTarget) (target : Target) (launched : Option Nat) :
    Session :=
  if ¬ s.presses m then
    -- a lost release, a second press or the release itself ends the gesture
    if (m.action = .motion ∧ m.button = 3) ∨ m.action = .press ∨ m.action = .release then
      { s with dragging := false }
    else s
  else if s.modal.isOpen then s.modalPress m launched
  else if s.menuOpen then s.menuPress inMenu launched
  else s.targetPress target launched

/-! ### The outside -/

/-- The report of a check somebody asked for: an offer when there is something to do,
a piece of information otherwise. -/
def showReport : Session :=
  let report := s.update.takeReport.1
  let s := { s with update := s.update.takeReport.2 }
  let e := s.update.entry
  if s.modalKind = .applyRunning ∧ s.update.restartNeeded then
    pose { s with modalKind := .restartForUpdate } (report ++ text "\n" ++ s.restartQuestion) 0
      (text "Plus tard") (text "Redemarrer") .restart
  else if e.enabled ∧ e.id = .apply then
    pose { s with modalKind := .applyUpdate } report 0 (text "Plus tard") e.label .apply
  else { s with modalKind := .information, modal := s.modal.inform report }

def onChildExit (pid : Nat) (failed : Bool) (r : Reading) : Session :=
  if s.update.owns pid then
    let s := { s with update := s.update.onChildExit r failed }
    if s.update.hasReport then s.showReport else s
  else { s with children := s.children.eraseP fun c => c.1 == pid }

def refreshUpdateModal : Session :=
  if s.modalKind ≠ .applyRunning ∨ ¬ s.modal.isOpen then s
  else
    let p := s.update.progressLine
    let m := if p = [] then s.modal else s.modal.setBody p
    { s with modal := m.setProgress s.update.progressPercent }

def tickUpdate (r : Reading) (due : Bool) (launched : Option Nat) : Session :=
  refreshUpdateModal { s with update := s.update.tick r due launched }

/-- What an application asked to open, one per frame. -/
def openPending : Option CloseCheck → Session
  | none => s
  | some answers => s.openWindow answers

/-- The window whose closing request this frame serves. -/
def closeRequested : Option WindowId := (s.wm.stack.find? (·.closeRequested)).map (·.id)

def serveCloseRequest : Session :=
  match s.closeRequested with
  | none => s
  | some id =>
      requestClose { s with wm := s.wm.update id fun w => { w with closeRequested := false } } id

def render (cols rows : Int) (pending : Option CloseCheck) : Session :=
  let s := (s.openPending pending).serveCloseRequest
  { s with modal := s.modal.layout cols rows }

def appActs (w : WindowId) (answers : CloseCheck) (asksClose : Bool) (child : Option Nat) : Session :=
  { s with
    wm := s.wm.update w fun v =>
      { v with app := answers, closeRequested := v.closeRequested || asksClose }
    children :=
      match child with
      | none => s.children
      | some pid => s.children ++ [(pid, w)] }

def step : Event → Session
  | .key k selected action launched => s.onKey k selected action launched
  | .mouse m inMenu target launched => s.onMouse m inMenu target launched
  | .paste => { s with dragging := false }
  | .focus focused => if focused then s else { s with dragging := false }
  | .childExit pid failed r => s.onChildExit pid failed r
  | .tick r due launched => s.tickUpdate r due launched
  | .render cols rows pending => s.render cols rows pending
  | .app w answers asksClose child => s.appActs w answers asksClose child

/-- The session as it starts, whatever the first look at the state file found. -/
def init (r : Reading) (launched : Option Nat) : Session :=
  { update := UpdateService.tick {} r false launched }

end Session

end Sshos.Daemon
