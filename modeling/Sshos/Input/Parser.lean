import Sshos.Common.Utf8

/-!
# Sshos.Input.Parser

The **input parser**: from the bytes of a client's terminal to keys, mouse
reports, pastes and focus changes.

Bytes accumulate in `buf`; `step` reads one event off its front, or reports that
the sequence there is unfinished by consuming nothing, and `pump` repeats it. The
counter of scanned bytes the tests read is left out.
-/

namespace Sshos.Input

open Sshos.Lib (Bytes)
open Sshos.Common (utf8Decode)

/-! ### Events -/

inductive Key
  | none | unknown | char | enter | tab | backTab | backspace | escape
  | up | down | left | right | home | «end» | pgUp | pgDn | insert | delete
  | f1 | f2 | f3 | f4 | f5 | f6 | f7 | f8 | f9 | f10 | f11 | f12
  deriving DecidableEq

/-- The modifiers held with a key or a button. -/
structure Mods where
  shift : Bool := false
  alt : Bool := false
  ctrl : Bool := false
  deriving DecidableEq

structure KeyEvent where
  key : Key := .none
  ch : Nat := 0
  mods : Mods := {}
  deriving DecidableEq

inductive MouseAction
  | press | release | motion | wheelUp | wheelDown
  deriving DecidableEq

structure MouseEvent where
  action : MouseAction := .press
  button : Nat := 0
  x : Int := 0
  y : Int := 0
  mods : Mods := {}
  deriving DecidableEq

inductive InputEvent
  | key (k : KeyEvent)
  | mouse (m : MouseEvent)
  | paste (text : Bytes) (complete : Bool)
  | focus (focused : Bool)
  deriving DecidableEq

/-! ### Tables -/

/-- The end of a bracketed paste, `ESC [ 201 ~`. -/
def kPasteEnd : Bytes := [0x1b, 0x5b, 0x32, 0x30, 0x31, 0x7e]

/-- Size from which an unfinished paste is delivered in pieces. -/
def kMaxPasteChunk : Nat := 1 * 1024 * 1024

/-- Length from which an unfinished control sequence is given up. -/
def kMaxCsiParamsLen : Nat := 128

/-- Ceiling of a parameter. -/
def kMaxCsiParam : Int := 65535

def keyFromTilde (n : Int) : Key :=
  if n = 1 then .home
  else if n = 2 then .insert
  else if n = 3 then .delete
  else if n = 4 then .end
  else if n = 5 then .pgUp
  else if n = 6 then .pgDn
  else if n = 15 then .f5
  else if n = 17 then .f6
  else if n = 18 then .f7
  else if n = 19 then .f8
  else if n = 20 then .f9
  else if n = 21 then .f10
  else if n = 23 then .f11
  else if n = 24 then .f12
  else .unknown

def keyFromFinal (f : UInt8) : Key :=
  if f = 0x41 then .up
  else if f = 0x42 then .down
  else if f = 0x43 then .right
  else if f = 0x44 then .left
  else if f = 0x48 then .home
  else if f = 0x46 then .end
  else if f = 0x5a then .backTab
  else if f = 0x50 then .f1
  else if f = 0x51 then .f2
  else if f = 0x52 then .f3
  else if f = 0x53 then .f4
  else .unknown

/-- The parameters of a control sequence; a missing one is `-1`. -/
def splitParams (s : Bytes) : List Int :=
  let rec go : Bytes → Int → List Int
    | [], cur => [cur]
    | c :: cs, cur =>
        if 0x30 ≤ c ∧ c ≤ 0x39 then
          let base := if cur < 0 then 0 else cur
          let digit : Int := c.toNat - 0x30
          go cs (if base > (kMaxCsiParam - digit) / 10 then kMaxCsiParam else base * 10 + digit)
        else if c = 0x3b then cur :: go cs (-1)
        else go cs cur
  go s (-1)

def modsFromParam (p : Int) : Mods :=
  if p ≤ 1 ∨ p > 16 then {}
  else
    let bits := (p - 1).toNat
    { shift := bits.testBit 0, alt := bits.testBit 1, ctrl := bits.testBit 2 }

/-- How many bytes a sequence starting with `b0` announces. -/
def utf8SeqLen (b0 : UInt8) : Nat :=
  if b0 < 0x80 then 1
  else if b0 &&& 0xE0 = 0xC0 then 2
  else if b0 &&& 0xF0 = 0xE0 then 3
  else if b0 &&& 0xF8 = 0xF0 then 4
  else 1

/-- The first place from `at` on where `pat` stands in `s`. -/
def findFrom (pat : Bytes) (at_ : Nat) (s : Bytes) : Option Nat :=
  let rec go : Bytes → Nat → Option Nat
    | [], i => if pat.isEmpty then some i else none
    | c :: cs, i => if pat.isPrefixOf (c :: cs) then some i else go cs (i + 1)
  go (s.drop at_) at_

/-- Where the control sequence that starts the buffer ends. -/
inductive CsiEnd
  | incomplete
  | abandoned (i : Nat)
  | final (i : Nat)

/-- Scan the parameters, `i` being the index of the first byte of the argument. -/
def csiEnd : Bytes → Nat → CsiEnd
  | [], _ => .incomplete
  | c :: cs, i =>
      if i - 2 ≥ kMaxCsiParamsLen then .abandoned i
      else if 0x40 ≤ c ∧ c ≤ 0x7e then .final i
      else csiEnd cs (i + 1)

/-! ### The parser -/

structure InputParser where
  buf : Bytes := []
  ready : List InputEvent := []
  inPaste : Bool := false
  escPending : Bool := false
  pasteScanned : Nat := 0
  deriving DecidableEq

namespace InputParser

def emit (p : InputParser) (e : InputEvent) : InputParser := { p with ready := p.ready ++ [e] }

def emitKey (p : InputParser) (key : Key) (ch : Nat := 0) (mods : Mods := {}) : InputParser :=
  p.emit (.key { key, ch, mods })

/-- Inside a paste: up to its end if it is there, a piece of it if it has grown
too large, nothing otherwise. -/
def stepPaste (p : InputParser) : Nat × InputParser :=
  let margin := kPasteEnd.length - 1
  let rescanFrom := if p.pasteScanned > margin then p.pasteScanned - margin else 0
  match findFrom kPasteEnd rescanFrom p.buf with
  | some i =>
      (i + kPasteEnd.length,
        { p.emit (.paste (p.buf.take i) true) with inPaste := false, pasteScanned := 0 })
  | none =>
      if p.buf.length ≥ kMaxPasteChunk then
        let flush := p.buf.length - margin
        (flush, { p.emit (.paste (p.buf.take flush) false) with pasteScanned := 0 })
      else
        (0, { p with pasteScanned := if p.buf.length ≥ margin then p.buf.length - margin else 0 })

/-- A byte that does not start an escape sequence. -/
def stepByte (p : InputParser) (b0 : UInt8) : Nat × InputParser :=
  if b0 = 0x0d ∨ b0 = 0x0a then (1, p.emitKey .enter)
  else if b0 = 0x09 then (1, p.emitKey .tab)
  else if b0 = 0x7f ∨ b0 = 0x08 then (1, p.emitKey .backspace)
  else if b0 < 0x20 then
    let letter := if b0 = 0 then 0x20 else 0x61 + b0.toNat - 1
    (1, p.emitKey .char letter { ctrl := true })
  else if p.buf.length < utf8SeqLen b0 then (0, p)
  else
    let (used, cp) := utf8Decode p.buf 0
    (used, p.emitKey .char cp)

/-- An SGR mouse report with parameters `ps`. -/
def mouseOf (ps : List Int) (final : UInt8) : Option MouseEvent :=
  match ps with
  | cb :: px :: py :: _ =>
      if cb < 0 ∨ px < 1 ∨ py < 1 then none
      else
        let bits := cb.toNat
        let mods : Mods :=
          { shift := bits.testBit 2, alt := bits.testBit 3, ctrl := bits.testBit 4 }
        let m : MouseEvent := { x := px - 1, y := py - 1, mods }
        if bits.testBit 6 then
          some { m with action := if bits.testBit 0 then .wheelDown else .wheelUp }
        else if bits.testBit 5 then some { m with action := .motion, button := bits % 4 }
        else
          some { m with
            action := if final = 0x6d then .release else .press
            button := bits % 4 }
  | _ => none

/-- A complete control sequence with parameter bytes `params`. -/
def onCsi (p : InputParser) (params : Bytes) (final : UInt8) : InputParser :=
  if params.head? = some 0x3c then
    match mouseOf (splitParams params.tail) final with
    | none => p
    | some m => p.emit (.mouse m)
  else if final = 0x49 ∨ final = 0x4f then p.emit (.focus (final = 0x49))
  else
    let ps := splitParams params
    let mods := match ps with
      | _ :: m :: _ => modsFromParam m
      | _ => {}
    if final = 0x7e then
      let n := match ps with
        | n :: _ => if n < 0 then 0 else n
        | [] => 0
      if n = 200 then { p with inPaste := true, pasteScanned := 0 }
      else p.emitKey (keyFromTilde n) 0 mods
    else p.emitKey (keyFromFinal final) 0 mods

/-- The buffer starts with an escape. -/
def stepEscape (p : InputParser) : Nat × InputParser :=
  match p.buf with
  | _ :: b1 :: rest =>
      if b1 = 0x4f then
        match rest with
        | [] => (0, p)
        | f :: _ => (3, p.emitKey (keyFromFinal f))
      else if b1 ≠ 0x5b then
        (2, if 0x20 ≤ b1 ∧ b1 < 0x7f then p.emitKey .char b1.toNat { alt := true } else p)
      else
        match csiEnd rest 2 with
        | .incomplete => (0, p)
        | .abandoned i => (i, p)
        | .final i => (i + 1, p.onCsi (rest.take (i - 2)) (p.buf.getD i 0))
  | _ => (0, { p with escPending := true })

/-- Read one event off the front of the buffer: how many bytes it took, zero when
the sequence is unfinished. -/
def step (p : InputParser) : Nat × InputParser :=
  let p := { p with escPending := false }
  if p.inPaste then p.stepPaste
  else
    match p.buf with
    | [] => (0, p)
    | b0 :: _ => if b0 ≠ 0x1b then p.stepByte b0 else p.stepEscape

theorem onCsi_buf (p : InputParser) (params : Bytes) (final : UInt8) :
    (p.onCsi params final).buf = p.buf := by
  unfold onCsi
  dsimp only
  repeat' split
  all_goals rfl

/-- No branch of `step` touches the bytes themselves. -/
theorem step_buf (p : InputParser) : p.step.2.buf = p.buf := by
  unfold step stepPaste stepByte stepEscape
  dsimp only
  repeat' split
  all_goals first | rfl | exact onCsi_buf _ _ _

/-- Read every event the buffer holds. -/
def pump (p : InputParser) : InputParser :=
  if _h : p.buf = [] then p
  else
    if _hused : p.step.1 = 0 then p.step.2
    else pump { p.step.2 with buf := p.step.2.buf.drop p.step.1 }
termination_by p.buf.length
decreasing_by
  simp only [step_buf, List.length_drop]
  have := List.length_pos_iff.2 _h
  omega

/-- What holds after every event, whatever bytes are left, holds after them all. -/
theorem pump_preserves {Q : InputParser → Prop} (hstep : ∀ p, Q p → Q p.step.2)
    (hleft : ∀ p buf, Q p → Q { p with buf }) {p : InputParser} (hp : Q p) : Q p.pump := by
  unfold pump
  split
  · exact hp
  split
  · exact hstep p hp
  · exact pump_preserves hstep hleft (hleft _ _ (hstep p hp))
termination_by p.buf.length
decreasing_by
  rename_i hbuf hused
  simp only [step_buf, List.length_drop]
  have hpos := List.length_pos_iff.2 hbuf
  omega

def feed (p : InputParser) (bytes : Bytes) : InputParser := { p with buf := p.buf ++ bytes }.pump

/-- The ambiguity delay has passed without another byte: what is stuck is given
as it stands, except inside a paste. -/
def timeout (p : InputParser) : InputParser :=
  let p := { p with escPending := false }
  if p.inPaste then p
  else
    match p.buf with
    | [] => p
    | b0 :: rest =>
        if b0 ≠ 0x1b then
          let (used, cp) := utf8Decode p.buf 0
          { p.emitKey .char cp with buf := p.buf.drop used }
        else
          { rest.foldl (fun p b => p.emitKey .char b.toNat) (p.emitKey .escape) with buf := [] }

/-- Feed the bytes and take every event that is ready. -/
def feedTake (p : InputParser) (bytes : Bytes) : List InputEvent × InputParser :=
  ((p.feed bytes).ready, { p.feed bytes with ready := [] })

/-- Nothing comes of feeding nothing to a fresh parser. -/
theorem feedTake_fresh : feedTake {} [] = ([], {}) := by
  have : feed {} [] = ({} : InputParser) := by
    unfold feed pump
    rfl
  simp only [feedTake, this]

end InputParser

end Sshos.Input
