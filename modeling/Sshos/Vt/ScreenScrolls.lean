import Sshos.Vt.History
import Sshos.Vt.ScreenBounds

/-!
# Sshos.Vt.ScreenScrolls

**Lines moving up and down.** Six operations move the rows of a slice of the page: which slice,
which way and how far, is all that tells them apart. One line at most goes to the history.
-/

namespace Sshos.Vt

open Sshos.Lib
open Sshos.Render

namespace Screen

/-- The operations that move lines. -/
inductive LineOp
  | lineFeed
  | index
  | nextLine
  | reverseIndex
  | insertLines (n : Int)
  | deleteLines (n : Int)

def LineOp.op : LineOp → ScreenOp
  | .lineFeed => .lineFeed
  | .index => .index
  | .nextLine => .nextLine
  | .reverseIndex => .reverseIndex
  | .insertLines n => .insertLines n
  | .deleteLines n => .deleteLines n

/-! ### Slices -/

/-- Rows that move together, and how far they are asked to. -/
structure Slice where
  first : Int
  last : Int
  up : Bool
  count : Int

namespace Slice

/-- How far they go: no further than there are rows. -/
def shift (m : Slice) : Int := max 0 (min m.count (m.last - m.first + 1))

def Has (m : Slice) (y : Int) : Prop := m.first ≤ y ∧ y ≤ m.last

instance (m : Slice) (y : Int) : Decidable (m.Has y) := inferInstanceAs (Decidable (_ ∧ _))

/-- A cell of the slice once it has moved: the rows at the freed end are erased. -/
def cell (m : Slice) (s : Screen) (x y : Int) : ScreenCell :=
  if m.up then if m.last - m.shift < y then s.erased else s.at x (y + m.shift)
  else if y < m.first + m.shift then s.erased else s.at x (y - m.shift)

/-- The slice moved. -/
def moved (m : Slice) (s : Screen) : Screen :=
  if m.up then s.scrollSliceUp m.first m.last m.count else s.scrollSliceDown m.first m.last m.count

/-- Inside a page, a slice that moves leaves the rest where it is. -/
theorem moved_repaints {s : Screen} (hs : s.Sized) {m : Slice} (h0 : 0 ≤ m.first)
    (h : m.first ≤ m.last) (h1 : m.last < s.rows) :
    Repaints s (m.moved s) fun x y => if m.Has y then m.cell s x y else s.at x y := by
  by_cases hn : 0 < m.count
  · unfold moved
    by_cases hup : m.up
    · rw [if_pos hup]
      refine (scrollSliceUp_repaints hs hn h0 h1 h).congr ?_
      intro x y _
      unfold cell Has shift
      grind
    · rw [if_neg hup]
      refine (scrollSliceDown_repaints hs hn h0 h1 h).congr ?_
      intro x y _
      unfold cell Has shift
      grind
  · -- nothing is asked for
    have hu : s.scrollSliceUp m.first m.last m.count = s := if_pos (.inl (by omega))
    have hd : s.scrollSliceDown m.first m.last m.count = s := if_pos (.inl (by omega))
    rw [moved, hu, hd, ite_self]
    refine (Repaints.refl s).congr ?_
    intro x y _
    unfold cell Has shift
    grind

end Slice

/-! ### Which slice moves -/

namespace LineOp

/-- The slice that the operation moves, if it moves one. -/
def slice (s : Screen) : LineOp → Option Slice
  | .lineFeed | .index | .nextLine =>
      if s.cy = s.bottom then some ⟨s.top, s.bottom, true, 1⟩ else none
  | .reverseIndex => if s.cy = s.top then some ⟨s.top, s.bottom, false, 1⟩ else none
  | .insertLines n =>
      if s.top ≤ s.cy ∧ s.cy ≤ s.bottom then some ⟨s.cy, s.bottom, false, n⟩ else none
  | .deleteLines n =>
      if s.top ≤ s.cy ∧ s.cy ≤ s.bottom then some ⟨s.cy, s.bottom, true, n⟩ else none

/-- A line feed scrolls a region that is the whole page of the main screen. -/
def Feeds (s : Screen) : LineOp → Prop
  | .lineFeed | .index | .nextLine =>
      s.cy = s.bottom ∧ s.alt = false ∧ s.top = 0 ∧ s.bottom = s.rows - 1
  | _ => False

instance (s : Screen) : (o : LineOp) → Decidable (o.Feeds s)
  | .lineFeed | .index | .nextLine => inferInstanceAs (Decidable (_ ∧ _ ∧ _ ∧ _))
  | .reverseIndex | .insertLines _ | .deleteLines _ => inferInstanceAs (Decidable False)

/-- The lines that leave for the history. -/
def gone (s : Screen) (o : LineOp) : List (List ScreenCell) := if o.Feeds s then [s.line 0] else []

end LineOp

/-- A line feed, its three ways, from any column. -/
theorem lineFeed_eq {s : Screen} (h : s.Bounded) : s.lineFeed =
    if s.cy = s.bottom then
      scrollSliceUp { s with wrapPending := false, scrollback := s.fed } s.top s.bottom 1
    else { s with wrapPending := false, cy := if s.cy + 1 < s.rows then s.cy + 1 else s.cy } := by
  have h' : Bounded { s with wrapPending := false } := { h with }
  unfold lineFeed scrollUp
  simp only [pushTopLine_eq h']
  split
  · rfl
  · split <;> rfl

namespace LineOp

/-- The history after the operation. -/
def history (s : Screen) (o : LineOp) : Option Scrollback :=
  if o.Feeds s then s.scrollback.map (·.push (s.line 0)) else s.scrollback

/-- The slice moved, if there is one. -/
def movedSlice (s u : Screen) (o : LineOp) : Screen :=
  match o.slice s with
  | some m => m.moved u
  | none => u

/-- A line feed from the column `x`. -/
theorem lineFeed_moved {s : Screen} (h : s.Bounded) {x : Int} (hx : 0 ≤ x ∧ x < s.cols)
    (wrap : Bool) : ∃ y, Screen.lineFeed { s with cx := x, wrapPending := wrap } =
      movedSlice s
        { s with cx := x, cy := y, wrapPending := false, scrollback := history s .lineFeed }
        .lineFeed := by
  have h' : Bounded { s with cx := x, wrapPending := wrap } := h.moved hx h.cy wrap
  rw [lineFeed_eq h']
  by_cases hb : s.cy = s.bottom
  · refine ⟨s.cy, ?_⟩
    simp only [hb, if_true, movedSlice, slice, history, Feeds, true_and, Slice.moved]
    rfl
  · refine ⟨if s.cy + 1 < s.rows then s.cy + 1 else s.cy, ?_⟩
    simp only [hb, if_false, movedSlice, slice, history, Feeds, false_and]

/-- The cursor, the deferred wrap and the history set apart, an operation moves its slice. -/
theorem step_eq {s : Screen} (h : s.Bounded) (amb : Bool) (o : LineOp) :
    ∃ x y wrap, s.step amb o.op =
      o.movedSlice s { s with cx := x, cy := y, wrapPending := wrap, scrollback := o.history s } := by
  cases o with
  | lineFeed =>
      obtain ⟨y, hy⟩ := lineFeed_moved h h.cx s.wrapPending
      exact ⟨s.cx, y, false, hy⟩
  | index =>
      obtain ⟨y, hy⟩ := lineFeed_moved h h.cx s.wrapPending
      exact ⟨s.cx, y, false, hy⟩
  | nextLine =>
      obtain ⟨y, hy⟩ := lineFeed_moved h ⟨Int.le_refl 0, h.cols_pos⟩ false
      exact ⟨0, y, false, hy⟩
  | reverseIndex =>
      refine ⟨s.cx, if s.cy = s.top then s.cy else if s.cy > 0 then s.cy - 1 else s.cy, false, ?_⟩
      show s.reverseIndex = _
      unfold Screen.reverseIndex scrollDown
      by_cases ht : s.cy = s.top
      · simp [ht, movedSlice, slice, history, Feeds, Slice.moved]
      · by_cases h0 : s.cy > 0 <;> simp [ht, h0, movedSlice, slice, history, Feeds]
  | insertLines n =>
      refine ⟨s.cx, s.cy, s.wrapPending, ?_⟩
      show s.insertLines n = _
      unfold Screen.insertLines
      by_cases hin : s.top ≤ s.cy ∧ s.cy ≤ s.bottom
      · simp only [movedSlice, slice, if_pos hin, Slice.moved]
        split
        · exact (if_pos (.inl (by omega))).symm
        · rfl
      · rw [if_pos (by omega)]
        simp only [movedSlice, slice, if_neg hin]
        rfl
  | deleteLines n =>
      refine ⟨s.cx, s.cy, s.wrapPending, ?_⟩
      show s.deleteLines n = _
      unfold Screen.deleteLines
      by_cases hin : s.top ≤ s.cy ∧ s.cy ≤ s.bottom
      · simp only [movedSlice, slice, if_pos hin, Slice.moved]
        split
        · exact (if_pos (.inl (by omega))).symm
        · rfl
      · rw [if_pos (by omega)]
        simp only [movedSlice, slice, if_neg hin]
        rfl

/-- A slice that moves is within the page. -/
theorem slice_mem {s : Screen} (h : s.Bounded) {o : LineOp} {m : Slice} (hm : o.slice s = some m) :
    0 ≤ m.first ∧ m.first ≤ m.last ∧ m.last < s.rows := by
  have hreg := h.region
  have hcy := h.cy
  cases o <;> simp only [slice, Option.ite_none_right_eq_some] at hm <;>
    obtain ⟨hin, hm⟩ := hm <;> cases hm <;> simp only <;> omega

end LineOp

/-! ### What moves, and what does not -/

/-- What an operation on lines does to the page and to the history. -/
structure LinesMoved (s : Screen) (o : LineOp) (t : Screen) : Prop where
  outside : ∀ x y, (∀ m, o.slice s = some m → ¬ m.Has y) → t.at x y = s.at x y
  inside : ∀ m, o.slice s = some m → ∀ x y, 0 ≤ x → x < s.cols → m.Has y →
    t.at x y = m.cell s x y
  scrollback : t.scrollback = o.history s
  appended : ∀ b rows, s.scrollback = some b → b.Holds rows →
    ∃ b', t.scrollback = some b' ∧ b'.Holds (rows ++ o.gone s)
  frame : t = { s with
    grid := t.grid, cx := t.cx, cy := t.cy, wrapPending := t.wrapPending, scrollback := t.scrollback }

/-- What goes to the history is appended to the lines it holds. -/
theorem LineOp.history_holds {s : Screen} (o : LineOp) {b : Scrollback}
    {rows : List (List ScreenCell)} (hb : s.scrollback = some b) (hrows : b.Holds rows) :
    ∃ b', o.history s = some b' ∧ b'.Holds (rows ++ o.gone s) := by
  by_cases hf : o.Feeds s
  · refine ⟨b.push (s.line 0), ?_, ?_⟩
    · rw [history, if_pos hf, hb]
      rfl
    · rw [gone, if_pos hf]
      exact hrows.push _
  · refine ⟨b, ?_, ?_⟩
    · rw [history, if_neg hf, hb]
    · rw [gone, if_neg hf, List.append_nil]
      exact hrows

/-- The page, once the slice has moved. -/
theorem LineOp.movedSlice_repaints {s u : Screen} (h : s.Bounded) (hu : u.Sized)
    (hrows : u.rows = s.rows) (o : LineOp) :
    Repaints u (o.movedSlice s u) fun x y =>
      match o.slice s with
      | some m => if m.Has y then m.cell u x y else u.at x y
      | none => u.at x y := by
  unfold movedSlice
  cases hm : o.slice s with
  | none => exact Repaints.refl u
  | some m =>
      obtain ⟨h0, hle, hlast⟩ := slice_mem h hm
      exact m.moved_repaints hu h0 hle (hrows ▸ hlast)

/-- **Lines move exactly.** The slice that an operation moves is shifted within itself and erased at
its freed end; the other rows stay; the top line goes to the history when a line feed scrolls
the whole page of the main screen, and then only. -/
theorem lines_exact {s : Screen} (h : s.Bounded) (amb : Bool) (o : LineOp) :
    LinesMoved s o (s.step amb o.op) := by
  obtain ⟨x0, y0, wrap, heq⟩ := o.step_eq h amb
  have hu : Sized { s with cx := x0, cy := y0, wrapPending := wrap, scrollback := o.history s } :=
    ⟨h.cols_pos, h.rows_pos, h.grid⟩
  have hr := o.movedSlice_repaints h hu rfl
  rw [← heq] at hr
  have hsb : (s.step amb o.op).scrollback = o.history s := by rw [hr.frame]
  refine ⟨?_, ?_, hsb, ?_, ?_⟩
  · intro x y hout
    by_cases hon : s.OnPage x y
    · have hcell := hr.cells x y hon
      cases hm : o.slice s with
      | none =>
          rw [hm] at hcell
          exact hcell
      | some m =>
          rw [hm] at hcell
          exact hcell.trans (if_neg (hout m hm))
    · rw [at_off hon, at_off (mt hr.onPage.1 hon)]
  · intro m hm x y hx hxc hy
    obtain ⟨h0, -, hlast⟩ := LineOp.slice_mem h hm
    have hy1 := hy.1
    have hy2 := hy.2
    have hcell := hr.cells x y ⟨hx, hxc, by omega, show y < s.rows by omega⟩
    rw [hm] at hcell
    exact hcell.trans (if_pos hy)
  · rw [hsb]
    exact fun b rows hb hrows => o.history_holds hb hrows
  · have hframe := hr.frame
    generalize (s.step amb o.op).grid = g at hframe ⊢
    rw [hframe]

/-- A line feed at the foot of the page, and a history to receive the line. -/
theorem lines_exact_feed : ∃ s : Screen, LineOp.Feeds s .lineFeed ∧ s.scrollback ≠ none ∧
    LinesMoved s .lineFeed s.lineFeed :=
  have h := Bounded.run false (Bounded.create 2 2)
    [.setScrollback (some (Scrollback.create 4)), .print 0x41, .moveTo 0 1]
  ⟨_, by decide, by decide, lines_exact h false .lineFeed⟩

end Screen

end Sshos.Vt
