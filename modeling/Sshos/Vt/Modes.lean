import Sshos.Lib.Decimal
import Sshos.Vt.Parser

/-!
# Sshos.Vt.Modes

The **private modes** a guest can set, and what the terminal **answers** to its
questions.
-/

namespace Sshos.Vt

open Sshos.Lib (Bytes num)

/-! ### Modes -/

structure Modes where
  cursorKeysApplication : Bool := false
  autowrap : Bool := true
  cursorVisible : Bool := true
  mouseClick : Bool := false
  mouseDrag : Bool := false
  mouseAny : Bool := false
  mouseSgr : Bool := false
  altScreen : Bool := false
  bracketedPaste : Bool := false
  deriving Repr, DecidableEq

/-- The fields of the record. -/
inductive ModeFlag where
  | cursorKeysApplication | autowrap | cursorVisible | mouseClick | mouseDrag | mouseAny
  | mouseSgr | altScreen | bracketedPaste
  deriving Repr, DecidableEq

/-- The table of the modes, shared by `set`, `knows` and `get`. -/
def kModes : List (Int × ModeFlag) :=
  [(1, .cursorKeysApplication), (7, .autowrap), (25, .cursorVisible), (1000, .mouseClick),
    (1002, .mouseDrag), (1003, .mouseAny), (1006, .mouseSgr), (1049, .altScreen),
    (2004, .bracketedPaste)]

namespace Modes

def find (mode : Int) : Option ModeFlag := (kModes.find? fun e => e.1 == mode).map (·.2)

variable (m : Modes)

def put (flag : ModeFlag) (on : Bool) : Modes :=
  match flag with
  | .cursorKeysApplication => { m with cursorKeysApplication := on }
  | .autowrap => { m with autowrap := on }
  | .cursorVisible => { m with cursorVisible := on }
  | .mouseClick => { m with mouseClick := on }
  | .mouseDrag => { m with mouseDrag := on }
  | .mouseAny => { m with mouseAny := on }
  | .mouseSgr => { m with mouseSgr := on }
  | .altScreen => { m with altScreen := on }
  | .bracketedPaste => { m with bracketedPaste := on }

def read (flag : ModeFlag) : Bool :=
  match flag with
  | .cursorKeysApplication => m.cursorKeysApplication
  | .autowrap => m.autowrap
  | .cursorVisible => m.cursorVisible
  | .mouseClick => m.mouseClick
  | .mouseDrag => m.mouseDrag
  | .mouseAny => m.mouseAny
  | .mouseSgr => m.mouseSgr
  | .altScreen => m.altScreen
  | .bracketedPaste => m.bracketedPaste

/-- An unknown mode is ignored. -/
def set (mode : Int) (on : Bool) : Modes :=
  match find mode with
  | none => m
  | some flag => m.put flag on

def knows (mode : Int) : Bool := (find mode).isSome

def get (mode : Int) : Bool :=
  match find mode with
  | none => false
  | some flag => m.read flag

end Modes

/-- `CSI ? Pm h` and `CSI ? Pm l`: every parameter is a mode. -/
def applyDecPrivate (params : Params) (on : Bool) (modes : Modes) : Modes :=
  params.foldl (fun m p => m.set p.value on) modes

/-! ### Answers -/

/-- `ESC [ ? 6 2 ; 2 2 c` -/
def deviceAttributes : Bytes := [0x1B, 0x5B, 0x3F, 0x36, 0x32, 0x3B, 0x32, 0x32, 0x63]

/-- `ESC [ > 1 ; 2 0 ; 0 c` -/
def secondaryDeviceAttributes : Bytes := [0x1B, 0x5B, 0x3E, 0x31, 0x3B, 0x32, 0x30, 0x3B, 0x30, 0x63]

def cursorPositionReport (x y : Int) : Bytes :=
  [0x1B, 0x5B] ++ num (y + 1) ++ [0x3B] ++ num (x + 1) ++ [0x52]

/-- The page is always the first one. -/
def extendedCursorPositionReport (x y : Int) : Bytes :=
  [0x1B, 0x5B, 0x3F] ++ num (y + 1) ++ [0x3B] ++ num (x + 1) ++ [0x3B, 0x31, 0x52]

/-- `ESC [ 0 n` -/
def deviceStatusOk : Bytes := [0x1B, 0x5B, 0x30, 0x6E]

/-- 0 for a mode that is not known, 1 for one that is set, 2 for one that is not. -/
def decModeReport (mode : Int) (modes : Modes) : Bytes :=
  let state : Int := if Modes.knows mode then if modes.get mode then 1 else 2 else 0
  [0x1B, 0x5B, 0x3F] ++ num mode ++ [0x3B] ++ num state ++ [0x24, 0x79]

/-- The answer a control sequence asks for, empty when it is no question. -/
def replyForCsi (params : Params) (intermediates : Bytes) (finalByte : UInt8)
    (cursorX cursorY : Int) (modes : Modes) : Bytes :=
  if finalByte = 0x63 then
    if intermediates = [] then deviceAttributes
    else if intermediates = [0x3E] then secondaryDeviceAttributes
    else []
  else if finalByte = 0x6E ∧ intermediates = [] then
    let question := paramOr params 0 0
    if question = 5 then deviceStatusOk
    else if question = 6 then cursorPositionReport cursorX cursorY
    else []
  else if finalByte = 0x6E ∧ intermediates = [0x3F] ∧ paramOr params 0 0 = 6 then
    extendedCursorPositionReport cursorX cursorY
  else if finalByte = 0x70 then
    let mode := paramOr params 0 (-1)
    if mode < 0 then []
    else if intermediates = [0x3F, 0x24] then decModeReport mode modes
    else if intermediates = [0x24] then [0x1B, 0x5B] ++ num mode ++ [0x3B, 0x30, 0x24, 0x79]
    else []
  else []

end Sshos.Vt
