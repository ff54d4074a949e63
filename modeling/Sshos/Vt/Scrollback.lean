import Sshos.Render.Cell

/-!
# Sshos.Vt.Scrollback

The cell of the terminal's grid and the **history** of the lines that left the page
by its top: a ring of trimmed lines with a viewing offset.
-/

namespace Sshos.Vt

open Sshos.Render

/-- A cell of the grid. The width is 2 on the first half of a full-width character
and 0 on the second. -/
structure ScreenCell where
  ch : Nat := 0x20
  width : Nat := 1
  style : Style := {}
  deriving Repr, DecidableEq

/-- What the grid holds where nothing was ever written. -/
def blank : ScreenCell := {}

structure Scrollback where
  capacity : Nat
  ring : List (List ScreenCell)
  head : Nat := 0
  size : Nat := 0
  offset : Nat := 0
  deriving Repr, DecidableEq

namespace Scrollback

def create (capacity : Nat) : Scrollback :=
  { capacity := capacity, ring := List.replicate capacity [] }

/-- A line without its trailing default blanks. A painted blank is content. -/
def trimmed (cells : List ScreenCell) : List ScreenCell :=
  (cells.reverse.dropWhile (· == blank)).reverse

/-- Only default blanks are cut off, and none is left at the end. -/
theorem trimmed_spec (cells : List ScreenCell) :
    (∃ blanks, cells = trimmed cells ++ blanks ∧ ∀ c ∈ blanks, c = blank) ∧
      ∀ c, (trimmed cells).getLast? = some c → c ≠ blank := by
  unfold trimmed
  constructor
  · refine ⟨(cells.reverse.takeWhile (· == blank)).reverse, ?_, fun c hc => ?_⟩
    · rw [← List.reverse_append, List.takeWhile_append_dropWhile, List.reverse_reverse]
    · simpa using List.all_eq_true.1 List.all_takeWhile c (List.mem_reverse.1 hc)
  · intro c hlast
    have hfirst := List.head?_dropWhile_not (· == blank) cells.reverse
    rw [List.getLast?_reverse] at hlast
    rw [hlast] at hfirst
    simpa using hfirst

def push (b : Scrollback) (cells : List ScreenCell) : Scrollback :=
  if b.capacity = 0 then b
  else
    let line := trimmed cells
    let b :=
      if b.size < b.capacity then
        { b with ring := b.ring.set ((b.head + b.size) % b.capacity) line, size := b.size + 1 }
      else
        -- full: the oldest line gives its place up
        { b with ring := b.ring.set b.head line, head := (b.head + 1) % b.capacity }
    if b.offset > 0 then { b with offset := min (b.offset + 1) b.size } else b

/-- The line `index` places above the oldest one, an empty one when there is none. -/
def «at» (b : Scrollback) (index : Nat) : List ScreenCell :=
  if index ≥ b.size then [] else b.ring.getD ((b.head + index) % b.capacity) []

/-- Forget the lines. The head stays: everything is counted from it. -/
def clear (b : Scrollback) : Scrollback := { b with size := 0, offset := 0 }

/-! The viewing offset, in lines above the bottom. The counters are machine words, so a
difference goes round below zero and a sum above the last word. -/

def kSizeMod : Nat := 2 ^ 64

def sizeSub (x y : Nat) : Nat := (x + kSizeMod - y) % kSizeMod

def scrollBack (b : Scrollback) (n : UInt64) : Scrollback :=
  if n.toNat > sizeSub b.size b.offset then { b with offset := b.size }
  else { b with offset := (b.offset + n.toNat) % kSizeMod }

def scrollForward (b : Scrollback) (n : UInt64) : Scrollback :=
  if n.toNat > b.offset then { b with offset := 0 }
  else { b with offset := sizeSub b.offset n.toNat }

def scrollToBottom (b : Scrollback) : Scrollback := { b with offset := 0 }

end Scrollback

end Sshos.Vt
