import Mathlib.Data.List.Basic
import Mathlib.Data.BitVec
import Mathlib.Tactic.Common

/-!
# Sshos.Render.Cell

Colours, styles and cells, shared by the renderer and by the terminal's screen, and
the **width table** that says how many columns a character takes.

The policy for East Asian Ambiguous characters is a global of the program that the
client sets when it attaches; it is the parameter `ambiguousWide` here.
-/

namespace Sshos.Render

/-! ### Coordinates -/

structure Pos where
  x : Int := 0
  y : Int := 0
  deriving Repr, DecidableEq

structure Rect where
  x : Int := 0
  y : Int := 0
  w : Int := 0
  h : Int := 0
  deriving Repr, DecidableEq

def Rect.contains (r : Rect) (px py : Int) : Bool :=
  px ≥ r.x && py ≥ r.y && px < r.x + r.w && py < r.y + r.h

/-! ### Styles -/

/-- A colour: the terminal's default, an entry of its palette, or a triplet. -/
inductive Color where
  | default
  | indexed (idx : UInt8)
  | rgb (r g b : UInt8)
  deriving Repr, DecidableEq

/-- A set of attributes. Eight bits have a name. -/
abbrev Attrs := BitVec 16

namespace Attr

def bold : Attrs := 1#16 <<< 0
def dim : Attrs := 1#16 <<< 1
def italic : Attrs := 1#16 <<< 2
def underline : Attrs := 1#16 <<< 3
def reverse : Attrs := 1#16 <<< 4
def strike : Attrs := 1#16 <<< 5
def blink : Attrs := 1#16 <<< 6
def hidden : Attrs := 1#16 <<< 7

end Attr

structure Style where
  fg : Color := .default
  bg : Color := .default
  attrs : Attrs := 0#16
  deriving Repr, DecidableEq

/-- A cell of a surface: width 1 for an ordinary character, 2 for a full-width one,
0 for the continuation at its right. -/
structure Cell where
  ch : Nat := 0x20
  fg : Color := .default
  bg : Color := .default
  attrs : Attrs := 0#16
  width : Nat := 1
  deriving Repr, DecidableEq

def kContinuation : Cell := { ch := 0, width := 0 }

/-! ### Character widths -/

/-- A closed range of code points. -/
structure CodeRange where
  lo : Nat
  hi : Nat

/-- Combining marks, formatters, variation selectors. -/
def kZero : List CodeRange :=
  [⟨0x0300, 0x036F⟩, ⟨0x0483, 0x0489⟩, ⟨0x0591, 0x05BD⟩, ⟨0x0610, 0x061A⟩,
    ⟨0x064B, 0x065F⟩, ⟨0x0670, 0x0670⟩, ⟨0x06D6, 0x06DC⟩, ⟨0x0E31, 0x0E31⟩,
    ⟨0x0E47, 0x0E4E⟩, ⟨0x200B, 0x200F⟩, ⟨0x2060, 0x2064⟩, ⟨0xFE00, 0xFE0F⟩,
    ⟨0xFE20, 0xFE2F⟩, ⟨0xE0100, 0xE01EF⟩]

/-- East Asian Wide and Fullwidth. -/
def kWide : List CodeRange :=
  [⟨0x1100, 0x115F⟩, ⟨0x2E80, 0x303E⟩, ⟨0x3041, 0x33FF⟩, ⟨0x3400, 0x4DBF⟩,
    ⟨0x4E00, 0x9FFF⟩, ⟨0xA000, 0xA4CF⟩, ⟨0xAC00, 0xD7A3⟩, ⟨0xF900, 0xFAFF⟩,
    ⟨0xFE10, 0xFE19⟩, ⟨0xFE30, 0xFE6F⟩, ⟨0xFF00, 0xFF60⟩, ⟨0xFFE0, 0xFFE6⟩,
    ⟨0x1F300, 0x1F64F⟩, ⟨0x1F900, 0x1F9FF⟩, ⟨0x20000, 0x3FFFD⟩]

/-- East Asian Ambiguous. -/
def kAmbiguous : List CodeRange :=
  [⟨0x00A1, 0x00A1⟩, ⟨0x00B0, 0x00B4⟩, ⟨0x00B6, 0x00BA⟩, ⟨0x2010, 0x2027⟩,
    ⟨0x2190, 0x21FF⟩, ⟨0x2500, 0x257F⟩, ⟨0x25A0, 0x25FF⟩, ⟨0x2E80, 0x2E80⟩]

/-- Whether a sorted table covers `cp`: the last range starting at or before it is
the one to ask. -/
def inTable (table : List CodeRange) (cp : Nat) : Bool :=
  -- `upper_bound` stops at the first range that starts after `cp`
  match (table.takeWhile fun r => ¬ cp < r.lo).getLast? with
  | none => false
  | some r => cp ≤ r.hi

/-- How many columns a character takes: 0, 1 or 2. -/
def charWidth (ambiguousWide : Bool) (cp : Nat) : Nat :=
  if cp < 0x20 ∨ (0x7F ≤ cp ∧ cp < 0xA0) then 0
  else if inTable kZero cp then 0
  else if ambiguousWide ∧ inTable kAmbiguous cp then 2
  else if inTable kWide cp then 2
  else 1

theorem charWidth_le (amb : Bool) (cp : Nat) : charWidth amb cp ≤ 2 := by
  unfold charWidth
  repeat' split
  all_goals omega

/-- What takes a column is no control. -/
theorem printable_of_charWidth {amb : Bool} {cp : Nat} (h : charWidth amb cp ≠ 0) :
    0x20 ≤ cp ∧ cp ≠ 0x7F := by
  have hcontrol : ¬ (cp < 0x20 ∨ (0x7F ≤ cp ∧ cp < 0xA0)) := by
    intro hc
    exact h (if_pos hc)
  omega

end Sshos.Render
