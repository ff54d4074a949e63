import Sshos.Lib.Decimal
import Sshos.Render.Cell

/-!
# Sshos.Render.Profile

What the client's terminal can show: the **reduction of colours** to its depth, and the
shortest **SGR transition** from one style to another.
-/

namespace Sshos.Render

open Sshos.Lib (Bytes num)

inductive ColorDepth where
  | mono16 | indexed256 | trueColor
  deriving Repr, DecidableEq

structure OutputProfile where
  depth : ColorDepth := .mono16
  utf8 : Bool := false
  deriving Repr, DecidableEq

/-- The 6x6x6 cube of xterm, from 16 on. -/
def quantize256 (r g b : UInt8) : UInt8 :=
  let q (v : UInt8) : Nat := v.toNat * 5 / 255
  UInt8.ofNat (16 + 36 * q r + 6 * q g + q b)

/-- One bit for each of red, green and blue. -/
def quantize16 (r g b : UInt8) : Nat :=
  (if r > 127 then 1 else 0) ||| (if g > 127 then 2 else 0) ||| (if b > 127 then 4 else 0)

def indexedToRgb (idx : UInt8) : UInt8 × UInt8 × UInt8 :=
  if idx < 16 then
    let lo : UInt8 := if idx &&& 8 ≠ 0 then 255 else 128
    (if idx &&& 1 ≠ 0 then lo else 0, if idx &&& 2 ≠ 0 then lo else 0,
      if idx &&& 4 ≠ 0 then lo else 0)
  else if idx < 232 then
    let v := idx.toNat - 16
    let steps : List UInt8 := [0, 95, 135, 175, 215, 255]
    (steps.getD (v / 36 % 6) 0, steps.getD (v / 6 % 6) 0, steps.getD (v % 6) 0)
  else
    let v := UInt8.ofNat (8 + (idx.toNat - 232) * 10)
    (v, v, v)

/-- The components of a colour that is not the default. -/
def components : Color → UInt8 × UInt8 × UInt8
  | .default => (0, 0, 0)
  | .indexed idx => indexedToRgb idx
  | .rgb r g b => (r, g, b)

/-- The colour as it will be shown at this depth. -/
def quantizeColor (c : Color) (d : ColorDepth) : Color :=
  if c = .default then c
  else
    let (r, g, b) := components c
    match d with
    | .trueColor => c
    | .indexed256 =>
        match c with
        -- the terminal knows all the entries already
        | .indexed _ => c
        | _ => .indexed (quantize256 r g b)
    | .mono16 => .indexed (UInt8.ofNat (quantize16 r g b))

/-- The entry of the palette a reduced colour stands for. -/
def paletteIndex : Color → Nat
  | .indexed idx => idx.toNat
  | _ => 0

def colorCode (c : Color) (foreground : Bool) (p : OutputProfile) : Bytes :=
  let base := if foreground then 38 else 48
  let simple := if foreground then 30 else 40
  let reset := if foreground then 39 else 49
  if c = .default then [0x1B, 0x5B] ++ num reset ++ [0x6D]
  else
    match p.depth with
    | .trueColor =>
        let (r, g, b) := components c
        [0x1B, 0x5B] ++ num base ++ [0x3B, 0x32, 0x3B] ++ num r.toNat ++ [0x3B] ++ num g.toNat ++
          [0x3B] ++ num b.toNat ++ [0x6D]
    | .indexed256 =>
        [0x1B, 0x5B] ++ num base ++ [0x3B, 0x35, 0x3B] ++
          num (paletteIndex (quantizeColor c p.depth)) ++ [0x6D]
    | .mono16 => [0x1B, 0x5B] ++ num (simple + paletteIndex (quantizeColor c p.depth)) ++ [0x6D]

/-- The attributes and the codes that turn them on. -/
def attrCodes : List (Attrs × Nat) :=
  [(Attr.bold, 1), (Attr.dim, 2), (Attr.italic, 3), (Attr.underline, 4), (Attr.blink, 5),
    (Attr.reverse, 7), (Attr.hidden, 8), (Attr.strike, 9)]

/-- The codes for the attributes of `after` that `base` does not have. -/
def attrTransition (base after : Attrs) : Bytes :=
  attrCodes.flatMap fun e =>
    if after &&& e.1 ≠ 0 ∧ base &&& e.1 = 0 then [0x1B, 0x5B] ++ num e.2 ++ [0x6D] else []

def sgrTransition (before after : Style) (p : OutputProfile) : Bytes :=
  if before = after then []
  else
    -- no code turns an attribute off everywhere: the pen is reset
    let reset := before.attrs &&& ~~~after.attrs ≠ 0
    let base : Style := if reset then {} else before
    (if reset then [0x1B, 0x5B, 0x30, 0x6D] else []) ++ attrTransition base.attrs after.attrs ++
      (if base.fg = after.fg then [] else colorCode after.fg true p) ++
      (if base.bg = after.bg then [] else colorCode after.bg false p)

end Sshos.Render
