import Sshos.Vt.Attrs
import Sshos.Vt.Modes
import Sshos.Vt.ParserReads
import Sshos.Vt.ScreenWide

/-!
# Sshos.Apps.Emulator

The **terminal emulator** of a tab: the parser, and the sink that turns its calls into
operations of the screen, changes of mode and answers to the guest.
-/

namespace Sshos.Apps

open Sshos.Lib (Bytes)
open Sshos.Render (Style)
open Sshos.Vt

/-- What the calls of the parser act on. -/
structure Sink where
  screen : Screen
  modes : Modes := {}
  guestTitle : Bytes := []
  /-- The answers written to the guest. -/
  toGuest : Bytes := []
  deriving Repr, DecidableEq

/-- A count, one when it is absent or zero. -/
def countOf (p : Params) (index : Nat) : Int := max 1 (paramOr p index 1)

namespace Sink

variable (t : Sink)

def execute (byte : UInt8) : Sink :=
  if byte = 0x0A ∨ byte = 0x0B ∨ byte = 0x0C then { t with screen := t.screen.lineFeed }
  else if byte = 0x0D then { t with screen := t.screen.carriageReturn }
  else if byte = 0x08 then { t with screen := t.screen.backspace }
  else if byte = 0x09 then { t with screen := t.screen.tab }
  else t

/-- The two modes with an effect on the grid are handed to the screen. -/
def syncModes : Sink :=
  let screen := t.screen.setAutowrap t.modes.autowrap
  let screen :=
    if t.modes.altScreen ∧ ¬ screen.alt then screen.enterAltScreen
    else if ¬ t.modes.altScreen ∧ screen.alt then screen.leaveAltScreen
    else screen
  { t with screen := screen }

/-- A control sequence without a private marker. -/
def csiPlain (params : Params) (finalByte : UInt8) : Screen :=
  let s := t.screen
  if finalByte = 0x41 then s.moveUp (countOf params 0)
  else if finalByte = 0x42 then s.moveDown (countOf params 0)
  else if finalByte = 0x43 then s.moveRight (countOf params 0)
  else if finalByte = 0x44 then s.moveLeft (countOf params 0)
  else if finalByte = 0x47 then s.setColumn (countOf params 0 - 1)
  else if finalByte = 0x64 then s.setRow (countOf params 0 - 1)
  else if finalByte = 0x48 ∨ finalByte = 0x66 then
    -- the wire counts from one, the grid from zero
    s.moveTo (countOf params 1 - 1) (countOf params 0 - 1)
  else if finalByte = 0x4A then s.eraseDisplay (paramOr params 0 0)
  else if finalByte = 0x4B then s.eraseLine (paramOr params 0 0)
  else if finalByte = 0x58 then s.eraseChars (countOf params 0)
  else if finalByte = 0x40 then s.insertChars (countOf params 0)
  else if finalByte = 0x50 then s.deleteChars (countOf params 0)
  else if finalByte = 0x4C then s.insertLines (countOf params 0)
  else if finalByte = 0x4D then s.deleteLines (countOf params 0)
  else if finalByte = 0x72 then
    if params = [] then s.resetScrollRegion
    else s.setScrollRegion (countOf params 0 - 1) (paramOr params 1 s.rows - 1)
  else if finalByte = 0x67 then
    if paramOr params 0 0 = 0 then s.clearTab
    else if paramOr params 0 0 = 3 then s.clearAllTabs
    else s
  else if finalByte = 0x6D then s.setPen (applySgr params s.pen)
  else s

def csi (params : Params) (intermediates : Bytes) (finalByte : UInt8) : Sink :=
  -- questions first: an answer goes to the guest and nothing else happens
  let answer := replyForCsi params intermediates finalByte t.screen.cx t.screen.cy t.modes
  if answer ≠ [] then { t with toGuest := t.toGuest ++ answer }
  else if intermediates = [0x3F] then
    if finalByte = 0x68 ∨ finalByte = 0x6C then
      syncModes { t with modes := applyDecPrivate params (finalByte == 0x68) t.modes }
    else t
  else if intermediates ≠ [] then t
  else { t with screen := t.csiPlain params finalByte }

def esc (intermediates : Bytes) (finalByte : UInt8) : Sink :=
  if intermediates = [0x28] then
    { t with screen := t.screen.setCharset (charsetFromFinal finalByte) }
  else if intermediates ≠ [] then t
  else if finalByte = 0x37 then { t with screen := t.screen.saveCursor }
  else if finalByte = 0x38 then { t with screen := t.screen.restoreCursor }
  else if finalByte = 0x44 then { t with screen := t.screen.index }
  else if finalByte = 0x4D then { t with screen := t.screen.reverseIndex }
  else if finalByte = 0x45 then { t with screen := t.screen.nextLine }
  else if finalByte = 0x48 then { t with screen := t.screen.setTab }
  else t

/-- `OSC 0` and `OSC 2` set the title. -/
def osc (data : Bytes) : Sink :=
  let id := data.takeWhile (· ≠ 0x3B)
  if id.length = data.length then t
  else if id ≠ [0x30] ∧ id ≠ [0x32] then t
  else { t with guestTitle := data.drop (id.length + 1) }

/-- One call of the parser. Device strings are swallowed. -/
def call (ambiguousWide : Bool) (t : Sink) : SinkCall → Sink
  | .print c => { t with screen := t.screen.print ambiguousWide c }
  | .execute byte => t.execute byte
  | .csi params intermediates finalByte => t.csi params intermediates finalByte
  | .esc intermediates finalByte => t.esc intermediates finalByte
  | .osc data => t.osc data
  | .dcsStart _ _ _ => t
  | .dcsData _ => t
  | .dcsEnd => t

end Sink

structure Emulator where
  parser : Parser := {}
  sink : Sink
  deriving Repr, DecidableEq

/-- Read what the guest wrote. -/
def Emulator.feed (ambiguousWide : Bool) (e : Emulator) (bytes : Bytes) : Emulator :=
  let (parser, calls) := e.parser.feed bytes
  { parser := parser, sink := calls.foldl (Sink.call ambiguousWide) e.sink }

end Sshos.Apps
