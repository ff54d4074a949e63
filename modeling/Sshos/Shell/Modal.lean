import Sshos.Lib.Strings
import Sshos.Render.Cell
import Sshos.Wm.Manager

/-!
# Sshos.Shell.Modal

The **dialog box**. One at a time: a second request is ignored while a question or a
piece of information is on display, but takes the place of a progress report.
-/

namespace Sshos.Shell

open Sshos.Lib (Bytes)
open Sshos.Render (Rect)
open Sshos.Wm (WindowId)

/-- The bytes of a literal. -/
def text (s : String) : Bytes := s.toUTF8.toList

/-- A literal is given by its characters: its bytes need not be read back to be known. -/
theorem text_ofList (cs : List Char) : text (String.ofList cs) = cs.flatMap String.utf8EncodeChar := by
  rw [text, Sshos.Lib.toList_toUTF8, String.toList_ofList]

inductive ModalHit where
  | none | body | cancel | confirm
  deriving DecidableEq

/-- Two buttons, one button, or none while something is at work. -/
inductive ModalStyle where
  | question | info | progress
  deriving DecidableEq

structure Modal where
  isOpen : Bool := false
  style : ModalStyle := .question
  cancelLabel : Bytes := []
  confirmLabel : Bytes := []
  question : Bytes := []
  target : WindowId := 0
  confirm : Bool := false
  percent : Int := -1
  rect : Rect := {}
  deriving DecidableEq

namespace Modal

variable (m : Modal)

/-- Whether a new dialog may take the place. -/
def accepts : Bool := !m.isOpen || m.style == .progress

def askLabelled (question : Bytes) (target : WindowId) (cancelLabel confirmLabel : Bytes) : Modal :=
  if m.isOpen ∧ m.style ≠ .progress then m
  else
    { m with
      isOpen := true
      style := .question
      cancelLabel := cancelLabel
      confirmLabel := confirmLabel
      question := question
      target := target
      confirm := false
      percent := -1 }

def kCancel : Bytes := text "Annuler"
def kConfirm : Bytes := text "Confirmer"

def ask (question : Bytes) (target : WindowId) : Modal :=
  m.askLabelled question target kCancel kConfirm

def progress (message : Bytes) : Modal :=
  if m.isOpen ∧ m.style ≠ .progress then m
  else
    { m with
      isOpen := true
      style := .progress
      question := message
      target := 0
      confirm := false
      percent := -1 }

def setBody (message : Bytes) : Modal := if ¬ m.isOpen then m else { m with question := message }

def setProgress (percent : Int) : Modal := { m with percent := percent }

def inform (message : Bytes) : Modal :=
  if m.isOpen ∧ m.style ≠ .progress then m
  else
    { m with
      isOpen := true
      style := .info
      question := message
      target := 0
      confirm := true
      percent := -1 }

def dismiss : Modal := { rect := m.rect }

def focusNext : Modal := if m.style = .question then { m with confirm := !m.confirm } else m

/-! ### Geometry -/

/-- The lines of the body. -/
def bodyLines (s : Bytes) : List Bytes := s.splitOn 0x0A

def button (label : Bytes) : Bytes := text "[ " ++ label ++ text " ]"

def kChromeHeight : Int := 5
def kButtonsChrome : Int := 5

/-- The floor for the two default labels. -/
def kMinWidth : Int := (button kCancel).length + (button kConfirm).length + kButtonsChrome

def minWidth : Int :=
  if m.style ≠ .question then kMinWidth
  else max kMinWidth ((button m.cancelLabel).length + (button m.confirmLabel).length + kButtonsChrome)

def layoutRect (cols rows : Int) : Rect :=
  let lines := bodyLines m.question
  let longest : Nat := (lines.map List.length).foldl max 0
  let floor := m.minWidth
  let w := max floor (longest + 4)
  let w := min w (max floor (cols - 4))
  let w := min w cols
  let h := min (kChromeHeight + lines.length) rows
  { x := (cols - w).tdiv 2, y := (rows - h).tdiv 2, w := w, h := h }

def layout (cols rows : Int) : Modal := { m with rect := m.layoutRect cols rows }

def buttonsY : Int := m.rect.y + (bodyLines m.question).length + 2

/-- Both widths are decided together, so that neither button is squeezed out. -/
def buttonWidths : Int × Int :=
  let wa : Int := (button m.cancelLabel).length
  let wk : Int := (button m.confirmLabel).length
  let room := max 0 (m.rect.w - kButtonsChrome)
  if wa + wk ≤ room then (wa, wk)
  else
    let half := room.tdiv 2
    if wa ≤ half then (wa, room - wa)
    else if wk ≤ room - half then (room - wk, wk)
    else (half, room - half)

def confirmRect : Rect :=
  let w := m.buttonWidths.2
  { x := m.rect.x + m.rect.w - 2 - w, y := m.buttonsY, w := w, h := 1 }

def cancelRect : Rect :=
  let w := m.buttonWidths
  { x := m.rect.x + m.rect.w - 3 - w.2 - w.1, y := m.buttonsY, w := w.1, h := 1 }

/-- What a click reaches. -/
def hit (x y : Int) : ModalHit :=
  if ¬ m.isOpen ∨ ¬ m.rect.contains x y then .none
  else if m.style = .progress then .body
  else if m.style = .info then
    -- anywhere on the line of the one button
    if m.confirmRect.y = y then .confirm else .body
  else if m.cancelRect.contains x y then .cancel
  else if m.confirmRect.contains x y then .confirm
  else .body

/-! ### What the operations leave -/

theorem accepts_iff : m.accepts ↔ ¬ (m.isOpen ∧ m.style ≠ .progress) := by
  cases hopen : m.isOpen <;> simp [accepts, hopen]

/-- A progress report has nothing to click. -/
theorem hit_progress (h : m.style = .progress) (x y : Int) :
    m.hit x y = .none ∨ m.hit x y = .body := by
  by_cases hout : ¬ m.isOpen ∨ ¬ m.rect.contains x y
  · exact .inl (if_pos hout)
  · exact .inr ((if_neg hout).trans (if_pos h))

end Modal

end Sshos.Shell
