import Sshos.Apps.TextBuffer
import Sshos.Common.Utf8
import Sshos.Lib.Run
import Sshos.Render.Cell
import Sshos.Shell.Modal
import Sshos.Wm.Desktop

/-!
# Sshos.Apps.Editor

The **editor**: a text, a cursor in it, and the file it was read from.

The file is read without a look at how the reading ends. It is written beside its place, and
takes it once everything has been written.
-/

namespace Sshos.Apps

open Sshos.Common (encodeUtf8)
open Sshos.Input (KeyEvent)
open Sshos.Lib (Bytes)
open Sshos.Render (Pos)
open Sshos.Shell (text)
open Sshos.Wm (Size)

/-! ### Files -/

/-- How a call of `read` goes: it gives some of the bytes that are left, or fails. -/
inductive ReadCall
  | gives (n : Nat)
  | fails
  deriving Repr, DecidableEq

def kReadBlock : Nat := 8192

/-- What a call gives at most, never nothing unless it fails. -/
def ReadCall.most : ReadCall → Nat
  | .gives n => min (max n 1) kReadBlock
  | .fails => 0

/-- The calls one after another. Those of which nothing is said give what is left. -/
def readLoop : (rest : Bytes) → List ReadCall → Bytes
  | rest, [] => rest
  | _, .fails :: _ => []
  | rest, .gives n :: calls =>
      rest.take (ReadCall.gives n).most ++ readLoop (rest.drop (ReadCall.gives n).most) calls

/-- How the opening of a file goes. -/
structure Opening where
  opened : Bool := true
  calls : List ReadCall := []
  deriving Repr, DecidableEq

def readWhole (file : Bytes) (io : Opening) : Bytes :=
  if io.opened then readLoop file io.calls else []

/-- How the writing of a file goes: whether the temporary file is opened, what `write` answers
if it does not fail, whether the file takes its place, and the text of the error. -/
structure Saving where
  opened : Bool := true
  wrote : Option Nat
  renamed : Bool := true
  strerror : Bytes := []
  deriving Repr, DecidableEq

/-! ### The editor -/

inductive Editor.Mode
  | normal | searching | confirming
  deriving Repr, DecidableEq

structure Editor where
  buf : TextBuffer := {}
  cur : TextPos := {}
  /-- The first line that is shown. -/
  top : Nat := 0
  path : Bytes := []
  status : Bytes := []
  query : Bytes := []
  mode : Editor.Mode := .normal
  size : Size := { w := 60, h := 20 }
  hosted : Bool := false
  /-- How often the host was asked to close the window. -/
  closeRequests : Nat := 0
  /-- What the path leads to. -/
  file : Bytes := []
  deriving DecidableEq

namespace Editor

/-- An editor on a file. -/
def «open» (path file : Bytes) (io : Opening) : Editor :=
  { buf := .load (readWhole file io), path, file }

variable (s : Editor)

/-- One line is left to the status, and one at least to the text. -/
def rowsForText : Int := max 1 (s.size.h - 1)

def rows : Nat := s.rowsForText.toNat

/-- The cursor goes back into the text, then the page goes to the cursor. -/
def settle : Editor :=
  let cur := s.buf.clamp s.cur
  let top := if cur.line < s.top then cur.line else s.top
  let top := if cur.line ≥ top + s.rows then cur.line - s.rows + 1 else top
  let top :=
    if top + s.rows > s.buf.lineCount then
      if s.buf.lineCount > s.rows then s.buf.lineCount - s.rows else 0
    else top
  { s with cur, top }

def onResize (size : Size) : Editor :=
  if size.w ≤ 0 ∨ size.h ≤ 0 then s else { s with size }.settle

def save (io : Saving) : Editor :=
  if s.path = [] then { s with status := text "aucun fichier" }
  else if ¬ io.opened then { s with status := text "ecriture impossible : " ++ io.strerror }
  else if io.wrote ≠ some s.buf.text.length then { s with status := text "ecriture incomplete" }
  else if ¬ io.renamed then { s with status := text "remplacement impossible : " ++ io.strerror }
  else { s with file := s.buf.text, buf := s.buf.markSaved, status := text "enregistre" }

/-- What is asked before the window is closed, if something is. -/
def canClose : Option Bytes :=
  if s.buf.modified then some (text "Le fichier a change. Fermer sans enregistrer ?") else none

def requestClose : Editor :=
  if s.hosted then { s with closeRequests := s.closeRequests + 1 } else s

/-! ### Keys -/

def onSearchKey (k : KeyEvent) : Editor :=
  match k.key with
  | .enter =>
      let s := { s with mode := .normal }
      -- from one byte further, or the same place would be found again
      match s.buf.find s.query ⟨s.cur.line, s.cur.col + 1⟩ with
      | some found => { s with cur := found, status := [] }.settle
      | none => { s with status := text "introuvable : " ++ s.query }
  | .escape => { s with mode := .normal, query := [] }
  | .backspace => { s with query := s.query.dropLast }
  | .char => if k.ch ≥ 0x20 then { s with query := s.query ++ encodeUtf8 k.ch } else s
  | _ => s

def onConfirmKey (k : KeyEvent) : Editor :=
  let s := { s with mode := .normal }
  if k.key = .char ∧ k.ch ∈ [0x6F, 0x4F, 0x79, 0x59] then s.requestClose else s

def onCtrl (ch : Nat) (io : Saving) : Editor :=
  if ch = 0x73 then s.save io
  else if ch = 0x78 then
    if s.buf.modified then { s with mode := .confirming } else s.requestClose
  else if ch = 0x66 then { s with mode := .searching, query := [] }
  else s

/-- The cursor somewhere, perhaps outside the text. -/
def goTo (cur : TextPos) : Editor := { s with cur }.settle

/-- The text after an edit, and the cursor where it left it. -/
def edit (r : TextBuffer × TextPos) : Editor := { s with buf := r.1, cur := r.2 }.settle

def lineLength (i : Nat) : Nat := (s.buf.line i).length

def onTextKey (k : KeyEvent) (io : Saving) : Editor :=
  match k.key with
  | .up => s.goTo { s.cur with line := s.cur.line - 1 }
  | .down =>
      s.goTo (if s.cur.line + 1 < s.buf.lineCount then { s.cur with line := s.cur.line + 1 } else s.cur)
  | .left =>
      s.goTo (if s.cur.col > 0 then { s.cur with col := s.cur.col - 1 }
        else if s.cur.line > 0 then ⟨s.cur.line - 1, s.lineLength (s.cur.line - 1)⟩
        else s.cur)
  | .right =>
      s.goTo (if s.cur.col < s.lineLength s.cur.line then { s.cur with col := s.cur.col + 1 }
        else if s.cur.line + 1 < s.buf.lineCount then ⟨s.cur.line + 1, 0⟩
        else s.cur)
  | .home => s.goTo { s.cur with col := 0 }
  | .end => s.goTo { s.cur with col := s.lineLength s.cur.line }
  | .pgUp => s.goTo { s.cur with line := if s.cur.line > s.rows then s.cur.line - s.rows else 0 }
  | .pgDn => s.goTo { s.cur with line := min (s.cur.line + s.rows) (s.buf.lineCount - 1) }
  | .enter => s.edit (s.buf.splitLine s.cur)
  | .backspace => s.edit (s.buf.eraseBefore s.cur)
  | .delete => s.edit (s.buf.eraseAt s.cur)
  | .char =>
      if k.mods.ctrl then s.onCtrl k.ch io
      else if k.ch < 0x20 then s
      else { s with status := [] }.edit (s.buf.insert s.cur (encodeUtf8 k.ch))
  | _ => s

def onKey (k : KeyEvent) (io : Saving) : Editor :=
  match s.mode with
  | .searching => s.onSearchKey k
  | .confirming => s.onConfirmKey k
  | .normal => s.onTextKey k io

/-- Where the caret is shown, if it is. -/
def wantsCursor : Option Pos :=
  if s.cur.line < s.top then none
  else
    let y : Int := ((s.cur.line - s.top : Nat) : Int)
    if y ≥ s.rowsForText then none else some { x := s.cur.col, y }

/-- What happens to an editor. -/
inductive Event
  | key (k : KeyEvent) (io : Saving)
  | resize (size : Size)
  deriving DecidableEq

def step : Event → Editor
  | .key k io => s.onKey k io
  | .resize size => s.onResize size

end Editor

end Sshos.Apps
