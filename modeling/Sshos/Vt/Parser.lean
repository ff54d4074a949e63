import Sshos.Lib.Bytes

/-!
# Sshos.Vt.Parser

The **escape-sequence parser** of the terminal: the DEC state machine, with the UTF-8
decoder that lives in its ground state. It knows neither grid nor colour; what it
recognises is a list of calls to its sink, in the order they are made, and it never
looks at the sink.
-/

namespace Sshos.Vt

open Sshos.Lib (Bytes)

/-! ### The sink -/

/-- A parameter of a sequence. -1 means that it is absent, which is not zero; `sub`
tells `38:2::r:g:b` from `38;2;r;g;b`. -/
structure Param where
  value : Int := -1
  sub : Bool := false
  deriving Repr, DecidableEq

abbrev Params := List Param

/-- The value of a parameter, or a default when it is absent. -/
def paramOr (p : Params) (index : Nat) (fallback : Int) : Int :=
  match p[index]? with
  | none => fallback
  | some q => if q.value < 0 then fallback else q.value

/-- What the parser asks of its sink. -/
inductive SinkCall where
  | print (c : Nat)
  | execute (byte : UInt8)
  | csi (params : Params) (intermediates : Bytes) (finalByte : UInt8)
  | esc (intermediates : Bytes) (finalByte : UInt8)
  | osc (data : Bytes)
  | dcsStart (params : Params) (intermediates : Bytes) (finalByte : UInt8)
  | dcsData (chunk : Bytes)
  | dcsEnd
  deriving Repr, DecidableEq

/-! ### State -/

inductive VtState where
  | ground
  | escape
  | escapeIntermediate
  | csiEntry
  | csiParam
  | csiIntermediate
  | csiIgnore
  | dcsEntry
  | dcsParam
  | dcsIntermediate
  | dcsPassthrough
  | dcsIgnore
  | oscString
  | sosPmApcString
  deriving Repr, DecidableEq

structure Parser where
  state : VtState := .ground
  params : Params := []
  intermediates : Bytes := []
  oscData : Bytes := []
  utf8Acc : Nat := 0
  utf8Need : Nat := 0
  utf8Seen : Nat := 0
  utf8Min : Nat := 0
  deriving Repr, DecidableEq

def kMaxParams : Nat := 32
def kMaxParamValue : Int := 65535
def kMaxIntermediates : Nat := 4
def kMaxOsc : Nat := 4096

def isC0 (b : UInt8) : Bool := b ≤ 0x17 || b == 0x19 || (b ≥ 0x1C && b ≤ 0x1F)
def isIntermediate (b : UInt8) : Bool := b ≥ 0x20 && b ≤ 0x2F
def isFinal (b : UInt8) : Bool := b ≥ 0x40 && b ≤ 0x7E
def isDigit (b : UInt8) : Bool := b ≥ 0x30 && b ≤ 0x39
def isPrivate (b : UInt8) : Bool := b ≥ 0x3C && b ≤ 0x3F

namespace Parser

variable (p : Parser)

def clearSequence : Parser := { p with params := [], intermediates := [], oscData := [] }

/-- Put an intermediate byte aside, or refuse it when there are too many. -/
def collect (b : UInt8) : Option Parser :=
  if p.intermediates.length ≥ kMaxIntermediates then none
  else some { p with intermediates := p.intermediates ++ [b] }

/-- Collect a byte and go to `state`; a sequence with too many goes to `refused`. -/
def collectTo (b : UInt8) (state refused : VtState) : Parser :=
  match p.collect b with
  | none => { p with state := refused }
  | some q => { q with state := state }

def nextParam (sub : Bool) : Parser :=
  if p.params.length < kMaxParams then { p with params := p.params ++ [{ value := -1, sub := sub }] }
  else p

/-- A separator, after a first parameter that may be absent. -/
def separator (b : UInt8) : Parser :=
  nextParam (if p.params = [] then { p with params := [{}] } else p) (b == 0x3A)

/-- One more digit, the ceiling being applied while the value grows. -/
def pushDigit (value digit : Int) : Int :=
  let value := if value < 0 then 0 else value
  if value ≤ (kMaxParamValue - digit) / 10 then value * 10 + digit else kMaxParamValue

def pushParamDigit (b : UInt8) : Parser :=
  let params := if p.params = [] then [{}] else p.params
  let last := params.getLast?.getD {}
  { p with
    params := params.dropLast ++ [{ last with value := pushDigit last.value (b.toNat - 0x30 : Int) }] }

/-! ### Ground -/

def clearUtf8 : Parser := { p with utf8Acc := 0, utf8Need := 0, utf8Seen := 0, utf8Min := 0 }

def flushUtf8AsReplacement : Parser × List SinkCall :=
  if p.utf8Need = 0 then (p, []) else (p.clearUtf8, [.print 0xFFFD])

/-- A first byte above ASCII, outside any sequence. -/
def utf8Lead (b : UInt8) : Parser × List SinkCall :=
  if 0xC2 ≤ b ∧ b ≤ 0xDF then
    ({ p with utf8Acc := (b &&& 0x1F).toNat, utf8Need := 1, utf8Min := 0x80, utf8Seen := 0 }, [])
  else if 0xE0 ≤ b ∧ b ≤ 0xEF then
    ({ p with utf8Acc := (b &&& 0x0F).toNat, utf8Need := 2, utf8Min := 0x800, utf8Seen := 0 }, [])
  else if 0xF0 ≤ b ∧ b ≤ 0xF4 then
    ({ p with utf8Acc := (b &&& 0x07).toNat, utf8Need := 3, utf8Min := 0x10000, utf8Seen := 0 }, [])
  else (p, [.print 0xFFFD])

/-- A byte of the ground state when no UTF-8 sequence is open. -/
def groundFresh (b : UInt8) : Parser × List SinkCall :=
  if b = 0x1B then (clearSequence { p with state := .escape }, [])
  else if b = 0x18 ∨ b = 0x1A then (p, [.execute b])
  else if isC0 b then (p, [.execute b])
  else if b = 0x7F then (p, [])
  else if b < 0x80 then (p, [.print b.toNat])
  else p.utf8Lead b

/-- The next byte of an open UTF-8 sequence. One that does not belong to it is read
afresh, after a replacement character for what is missing. -/
def utf8Next (b : UInt8) : Parser × List SinkCall :=
  if b &&& 0xC0 ≠ 0x80 then
    let (q, calls) := p.flushUtf8AsReplacement
    let (q, more) := q.groundFresh b
    (q, calls ++ more)
  else
    let acc := (p.utf8Acc <<< 6) ||| (b &&& 0x3F).toNat
    let seen := p.utf8Seen + 1
    if seen < p.utf8Need then ({ p with utf8Acc := acc, utf8Seen := seen }, [])
    else if acc < p.utf8Min ∨ (0xD800 ≤ acc ∧ acc ≤ 0xDFFF) ∨ acc > 0x10FFFF then
      (p.clearUtf8, [.print 0xFFFD])
    else (p.clearUtf8, [.print acc])

def groundByte (b : UInt8) : Parser × List SinkCall :=
  if p.utf8Need > 0 then p.utf8Next b else p.groundFresh b

def groundStep (b : UInt8) : Parser × List SinkCall :=
  -- the decoder gives its replacement character before the state changes
  let (q, calls) := if b = 0x1B then p.flushUtf8AsReplacement else (p, [])
  let (q, more) := q.groundByte b
  (q, calls ++ more)

/-! ### Sequences -/

def escapeStep (b : UInt8) : Parser × List SinkCall :=
  if isC0 b then (p, [.execute b])
  else if isIntermediate b then (p.collectTo b .escapeIntermediate .escapeIntermediate, [])
  else if b = 0x7F then (p, [])
  else if b = 0x5B then (clearSequence { p with state := .csiEntry }, [])
  else if b = 0x5D then ({ p with state := .oscString, oscData := [] }, [])
  else if b = 0x50 then (clearSequence { p with state := .dcsEntry }, [])
  else if b = 0x58 ∨ b = 0x5E ∨ b = 0x5F then ({ p with state := .sosPmApcString }, [])
  else ({ p with state := .ground }, [.esc p.intermediates b])

def escapeIntermediateStep (b : UInt8) : Parser × List SinkCall :=
  if isC0 b then (p, [.execute b])
  else if isIntermediate b then (p.collectTo b p.state .ground, [])
  else if b = 0x7F then (p, [])
  else ({ p with state := .ground }, [.esc p.intermediates b])

def csiEntryStep (b : UInt8) : Parser × List SinkCall :=
  if isC0 b then (p, [.execute b])
  else if b = 0x7F then (p, [])
  else if isFinal b then ({ p with state := .ground }, [.csi p.params p.intermediates b])
  else if isIntermediate b then (p.collectTo b .csiIntermediate .csiIgnore, [])
  -- a private marker is legal here only, and travels with the intermediates
  else if isPrivate b then (p.collectTo b .csiParam .csiParam, [])
  else if isDigit b then ({ p.pushParamDigit b with state := .csiParam }, [])
  else if b = 0x3B ∨ b = 0x3A then ({ p.separator b with state := .csiParam }, [])
  else ({ p with state := .csiIgnore }, [])

def csiParamStep (b : UInt8) : Parser × List SinkCall :=
  if isC0 b then (p, [.execute b])
  else if b = 0x7F then (p, [])
  else if isDigit b then (p.pushParamDigit b, [])
  else if b = 0x3B ∨ b = 0x3A then (p.separator b, [])
  else if isFinal b then ({ p with state := .ground }, [.csi p.params p.intermediates b])
  else if isIntermediate b then (p.collectTo b .csiIntermediate .csiIgnore, [])
  else ({ p with state := .csiIgnore }, [])

def csiIntermediateStep (b : UInt8) : Parser × List SinkCall :=
  if isC0 b then (p, [.execute b])
  else if b = 0x7F then (p, [])
  else if isIntermediate b then (p.collectTo b p.state .csiIgnore, [])
  else if isFinal b then ({ p with state := .ground }, [.csi p.params p.intermediates b])
  else ({ p with state := .csiIgnore }, [])

def csiIgnoreStep (b : UInt8) : Parser × List SinkCall :=
  if isC0 b then (p, [.execute b])
  else if isFinal b then ({ p with state := .ground }, [])
  else (p, [])

/-- The device strings follow the control sequences, but execute nothing. -/
def dcsEntryStep (b : UInt8) : Parser × List SinkCall :=
  if b = 0x7F ∨ isC0 b then (p, [])
  else if isFinal b then
    ({ p with state := .dcsPassthrough }, [.dcsStart p.params p.intermediates b])
  else if isIntermediate b then (p.collectTo b .dcsIntermediate .dcsIgnore, [])
  else if isPrivate b then (p.collectTo b .dcsParam .dcsParam, [])
  else if isDigit b then ({ p.pushParamDigit b with state := .dcsParam }, [])
  else if b = 0x3B ∨ b = 0x3A then ({ p.separator b with state := .dcsParam }, [])
  else ({ p with state := .dcsIgnore }, [])

def dcsParamStep (b : UInt8) : Parser × List SinkCall :=
  if b = 0x7F ∨ isC0 b then (p, [])
  else if isDigit b then (p.pushParamDigit b, [])
  else if b = 0x3B ∨ b = 0x3A then (p.separator b, [])
  else if isFinal b then
    ({ p with state := .dcsPassthrough }, [.dcsStart p.params p.intermediates b])
  else if isIntermediate b then (p.collectTo b .dcsIntermediate .dcsIgnore, [])
  else ({ p with state := .dcsIgnore }, [])

def dcsIntermediateStep (b : UInt8) : Parser × List SinkCall :=
  if b = 0x7F ∨ isC0 b then (p, [])
  else if isIntermediate b then (p.collectTo b p.state .dcsIgnore, [])
  else if isFinal b then
    ({ p with state := .dcsPassthrough }, [.dcsStart p.params p.intermediates b])
  else ({ p with state := .dcsIgnore }, [])

def dcsPassthroughStep (b : UInt8) : Parser × List SinkCall :=
  if b = 0x7F then (p, []) else (p, [.dcsData [b]])

def oscStringStep (b : UInt8) : Parser × List SinkCall :=
  if b = 0x07 then (clearSequence { p with state := .ground }, [.osc p.oscData])
  else if isC0 b then (p, [])
  else if p.oscData.length < kMaxOsc then ({ p with oscData := p.oscData ++ [b] }, [])
  else (p, [])

def step (b : UInt8) : Parser × List SinkCall :=
  if (b = 0x18 ∨ b = 0x1A) ∧ p.state ≠ .ground then
    -- CAN and SUB leave any sequence
    (clearSequence { p with state := .ground },
      (if p.state = .dcsPassthrough then [.dcsEnd] else []) ++ [.execute b])
  else if b = 0x1B ∧ p.state ≠ .ground then
    -- an escape starts afresh from anywhere; it also ends a string
    (clearSequence { p with state := .escape },
      (if p.state = .oscString then [.osc p.oscData] else []) ++
        (if p.state = .dcsPassthrough then [.dcsEnd] else []))
  else
    match p.state with
    | .ground => p.groundStep b
    | .escape => p.escapeStep b
    | .escapeIntermediate => p.escapeIntermediateStep b
    | .csiEntry => p.csiEntryStep b
    | .csiParam => p.csiParamStep b
    | .csiIntermediate => p.csiIntermediateStep b
    | .csiIgnore => p.csiIgnoreStep b
    | .dcsEntry => p.dcsEntryStep b
    | .dcsParam => p.dcsParamStep b
    | .dcsIntermediate => p.dcsIntermediateStep b
    | .dcsPassthrough => p.dcsPassthroughStep b
    | .dcsIgnore => (p, [])
    | .oscString => p.oscStringStep b
    | .sosPmApcString => (p, [])

/-- Read some bytes: the state they leave and the calls they make. -/
def feed (bytes : Bytes) : Parser × List SinkCall :=
  bytes.foldl (fun r b => ((r.1.step b).1, r.2 ++ (r.1.step b).2)) (p, [])

end Parser

end Sshos.Vt
