import Sshos.Render.Cell
import Sshos.Vt.Parser

/-!
# Sshos.Vt.Attrs

**SGR**: what the parameters of `CSI m` make of the pen.
-/

namespace Sshos.Vt

open Sshos.Render

def isByte (v : Int) : Bool := v ≥ 0 && v ≤ 255

/-- The value of a parameter that is there. -/
def valueAt (p : Params) (i : Nat) : Int := (p.getD i {}).value

/-- The colour described between `first`, which is the mode, and `last`. The arguments
are the last ones of the stretch, so that the empty colour space of `38:2::r:g:b`
needs no counting. -/
def readExtended (p : Params) (first last : Nat) : Option Color :=
  if first ≥ last then none
  else
    let mode := valueAt p first
    let args := last - first - 1
    if mode = 5 then
      let idx := valueAt p (last - 1)
      if args < 1 ∨ ¬ isByte idx then none else some (.indexed (UInt8.ofNat idx.toNat))
    else if mode = 2 then
      let r := valueAt p (last - 3)
      let g := valueAt p (last - 2)
      let b := valueAt p (last - 1)
      if args < 3 ∨ ¬ isByte r ∨ ¬ isByte g ∨ ¬ isByte b then none
      else some (.rgb (UInt8.ofNat r.toNat) (UInt8.ofNat g.toNat) (UInt8.ofNat b.toNat))
    else none

/-- Where a colour written flat, as in `38;5;n`, ends. -/
def flatExtent (p : Params) (first : Nat) : Nat :=
  if first ≥ p.length then first
  else
    let mode := valueAt p first
    let want := if mode = 2 then first + 4 else if mode = 5 then first + 2 else first + 1
    min want p.length

/-- Where the group of the code at `i` ends: past the last of its sub-parameters. -/
def groupEnd (p : Params) (i : Nat) : Nat := i + 1 + ((p.drop (i + 1)).takeWhile (·.sub)).length

/-- Put a colour where the code says; 58 is read to be swallowed. -/
def applyColor (code : Int) (c : Option Color) (style : Style) : Style :=
  match c with
  | none => style
  | some c =>
      if code = 38 then { style with fg := c }
      else if code = 48 then { style with bg := c }
      else style

def raise (style : Style) (bits : Attrs) : Style := { style with attrs := style.attrs ||| bits }
def lower (style : Style) (bits : Attrs) : Style := { style with attrs := style.attrs &&& ~~~bits }

/-- A code that is no extended colour; its group runs from `i` to `last`. -/
def applyCode (p : Params) (i last : Nat) (code : Int) (style : Style) : Style :=
  match code with
  | 0 => {}
  | 1 => raise style Attr.bold
  | 2 => raise style Attr.dim
  | 3 => raise style Attr.italic
  | 4 =>
      -- `4:0` puts the underline out
      if last > i + 1 ∧ paramOr p (i + 1) 1 = 0 then lower style Attr.underline
      else raise style Attr.underline
  | 5 => raise style Attr.blink
  | 6 => raise style Attr.blink
  | 7 => raise style Attr.reverse
  | 8 => raise style Attr.hidden
  | 9 => raise style Attr.strike
  | 21 => raise style Attr.underline
  | 22 => lower style (Attr.bold ||| Attr.dim)
  | 23 => lower style Attr.italic
  | 24 => lower style Attr.underline
  | 25 => lower style Attr.blink
  | 27 => lower style Attr.reverse
  | 28 => lower style Attr.hidden
  | 29 => lower style Attr.strike
  | 39 => { style with fg := .default }
  | 49 => { style with bg := .default }
  | code =>
      if 30 ≤ code ∧ code ≤ 37 then { style with fg := .indexed (UInt8.ofNat (code - 30).toNat) }
      else if 40 ≤ code ∧ code ≤ 47 then { style with bg := .indexed (UInt8.ofNat (code - 40).toNat) }
      else if 90 ≤ code ∧ code ≤ 97 then
        { style with fg := .indexed (UInt8.ofNat (code - 90 + 8).toNat) }
      else if 100 ≤ code ∧ code ≤ 107 then
        { style with bg := .indexed (UInt8.ofNat (code - 100 + 8).toNat) }
      else style

/-- The codes from `i` on; every turn consumes one at least. -/
def applySgrFrom (p : Params) : (fuel i : Nat) → Style → Style
  | 0, _, style => style
  | fuel + 1, i, style =>
      if i ≥ p.length then style
      else
        let last := groupEnd p i
        let code := if valueAt p i < 0 then 0 else valueAt p i
        if code = 38 ∨ code = 48 ∨ code = 58 then
          let first := i + 1
          let last := if last > first then last else flatExtent p first
          let style := applyColor code (readExtended p first last) style
          -- the stretch is skipped even when it could not be read
          applySgrFrom p fuel (if last > i then last else i + 1) style
        else applySgrFrom p fuel last (applyCode p i last code style)

def applySgr (p : Params) (style : Style) : Style :=
  if p = [] then {} else applySgrFrom p p.length 0 style

end Sshos.Vt
