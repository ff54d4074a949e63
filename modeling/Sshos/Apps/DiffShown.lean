import Sshos.Apps.EmulatorReads
import Sshos.Lib.Run

/-!
# Sshos.Apps.DiffShown

The **differ against the emulator**: whatever frames are sent, the emulator that reads
them shows the last surface, cell by cell, and the cursor where it was asked for.

The proof follows the differ through a row. Behind the column it has reached every cell
is right; ahead of it, so is every cell that does not differ from the previous surface.
A cell that is written over may orphan a half of a full-width character of the old page,
but never one of a cell that is right already.
-/

namespace Sshos.Apps

open Sshos.Common (encodeUtf8 IsScalar)
open Sshos.Lib
open Sshos.Render
open Sshos.Vt

/-! ### Cells -/

/-- What the emulator should hold for a cell of a surface. -/
def ShowsCell (d : ColorDepth) (c : Cell) (e : ScreenCell) : Prop :=
  if c.width = 0 then e.width = 0
  else e = { ch := c.ch, width := c.width, style := shownStyle d (styleOf c) }

instance (d : ColorDepth) (c : Cell) (e : ScreenCell) : Decidable (ShowsCell d c e) :=
  inferInstanceAs (Decidable (if c.width = 0 then e.width = 0
    else e = { ch := c.ch, width := c.width, style := shownStyle d (styleOf c) }))

theorem ShowsCell.width_eq {d : ColorDepth} {c : Cell} {e : ScreenCell} (h : ShowsCell d c e) :
    e.width = c.width := by
  unfold ShowsCell at h
  split at h
  · next h0 => rw [h, h0]
  · rw [h]

/-- Every cell of the surface is on the screen. -/
def Shows (d : ColorDepth) (s : Surface) (t : Screen) : Prop :=
  ∀ x y : Nat, x < s.w → y < s.h → ShowsCell d (s.at x y) (t.at x y)

/-! ### The canvas -/

/-- A screen of the surface's size, ready to be drawn upon. -/
structure Canvas (w h : Nat) (t : Sink) : Prop where
  bounded : t.screen.Bounded
  paired : t.screen.ShownPaired
  cols : t.screen.cols = w
  rows : t.screen.rows = h
  ascii : t.screen.charset = .ascii
  synced : t.Synced

namespace Canvas

variable {w h : Nat} {t : Sink}

/-- The screen is as it was, whether the cursor is shown or not. -/
theorem showing (c : Canvas w h t) (visible : Bool) :
    Canvas w h { t with modes := { t.modes with cursorVisible := visible } } :=
  ⟨c.bounded, c.paired, c.cols, c.rows, c.ascii, ⟨c.synced.autowrap, c.synced.alt⟩⟩

theorem moveTo (c : Canvas w h t) (x y : Int) :
    Canvas w h { t with screen := t.screen.moveTo x y } :=
  ⟨c.bounded.moveTo x y, c.paired, c.cols, c.rows, c.ascii, ⟨c.synced.autowrap, c.synced.alt⟩⟩

theorem withPen (c : Canvas w h t) (pen : Style) : Canvas w h (t.withPen pen) :=
  ⟨{ c.bounded with }, c.paired, c.cols, c.rows, c.ascii, ⟨c.synced.autowrap, c.synced.alt⟩⟩

/-- A repainting that keeps the pairs keeps the canvas. -/
theorem of_repaints (c : Canvas w h t) {s : Screen} {f : Int → Int → ScreenCell}
    (hr : Screen.Repaints t.screen s f) (hp : s.ShownPaired) : Canvas w h { t with screen := s } where
  bounded := c.bounded.of_repaints hr
  paired := hp
  cols := hr.cols.trans c.cols
  rows := hr.rows.trans c.rows
  ascii := by
    show s.charset = _
    rw [hr.frame]
    exact c.ascii
  synced := by
    have hauto : s.autowrap = t.screen.autowrap := by rw [hr.frame]
    have halt : s.alt = t.screen.alt := by rw [hr.frame]
    exact ⟨hauto.trans c.synced.autowrap, halt.trans c.synced.alt⟩

theorem advance (c : Canvas w h t) (n : Nat) : Canvas w h { t with screen := t.screen.advance n } := by
  have hb := c.bounded.advance n
  unfold Screen.advance at hb ⊢
  simp only at hb ⊢
  split at hb <;> rename_i hlt
  · rw [if_pos hlt]
    exact ⟨hb, c.paired, c.cols, c.rows, c.ascii, ⟨c.synced.autowrap, c.synced.alt⟩⟩
  · rw [if_neg hlt]
    exact ⟨hb, c.paired, c.cols, c.rows, c.ascii, ⟨c.synced.autowrap, c.synced.alt⟩⟩

end Canvas

theorem advance_of_room {s : Screen} {n : Nat} (h : s.cx + n < s.cols) :
    s.advance n = { s with cx := s.cx + n } := if_neg (by omega)

theorem advance_pen (s : Screen) (n : Nat) : (s.advance n).pen = s.pen := by
  unfold Screen.advance
  simp only
  split <;> rfl

theorem advance_at (s : Screen) (n : Nat) (x y : Int) : (s.advance n).at x y = s.at x y := by
  unfold Screen.advance
  simp only
  split <;> rfl

/-- A character that fits, with no wrap pending, is put under the cursor. -/
theorem print_eq {s : Screen} {amb : Bool} {cp w : Nat} (hascii : s.charset = .ascii)
    (hw : charWidth amb cp = w) (hw0 : w ≠ 0) (hwrap : s.wrapPending = false)
    (hfit : w = 2 → s.cx + 1 < s.cols) : s.print amb cp = (s.deposit cp w).advance w := by
  have hstay : s.wrapIfPending = s := by
    unfold Screen.wrapIfPending
    rw [if_neg (by simp [hwrap])]
  unfold Screen.print
  simp only [hascii, translate_ascii, hw, if_neg hw0, hstay]
  rw [if_neg]
  rintro ⟨h2, hedge⟩
  have := hfit h2
  omega

/-! ### Behind and ahead -/

section Frame

variable {amb : Bool} {p : OutputProfile} {cur prev : Surface} {full : Bool} {t t' : Sink}
  {x y : Nat}

/-- The cells behind column `x` of row `y` are right, and so are those ahead that do not
differ. -/
def Done (p : OutputProfile) (cur prev : Surface) (full : Bool) (y x : Nat) (s : Screen) : Prop :=
  ∀ x' y' : Nat, x' < cur.w → y' < cur.h →
    (y' < y ∨ (y' = y ∧ x' < x) ∨ differs cur prev full y' x' = false) →
    ShowsCell p.depth (cur.at x' y') (s.at x' y')

theorem Done.of_at {s s' : Screen} (h : Done p cur prev full y x s)
    (hat : ∀ x y, s'.at x y = s.at x y) : Done p cur prev full y x s' := by
  intro x' y' hx' hy' hcase
  rw [hat]
  exact h x' y' hx' hy' hcase

theorem Done.back {s : Screen} {x₀ : Nat} (h : Done p cur prev full y x s) (hle : x₀ ≤ x) :
    Done p cur prev full y x₀ s := by
  intro x' y' hx' hy' hcase
  refine h x' y' hx' hy' ?_
  grind

/-- The next cell may be left alone when it is right. -/
theorem Done.skip {s : Screen} (h : Done p cur prev full y x s)
    (hright : x < cur.w → y < cur.h → ShowsCell p.depth (cur.at x y) (s.at x y)) :
    Done p cur prev full y (x + 1) s := by
  intro x' y' hx' hy' hcase
  by_cases hhere : y' = y ∧ x' = x
  · obtain ⟨rfl, rfl⟩ := hhere
    exact hright hx' hy'
  · exact h x' y' hx' hy' (by grind)

/-- A row that is done is behind the next one. -/
theorem Done.next_row {s : Screen} (h : Done p cur prev full y cur.w s) :
    Done p cur prev full (y + 1) 0 s := by
  intro x' y' hx' hy' hcase
  refine h x' y' hx' hy' ?_
  grind

/-- The continuation of a cell that is right is right: the screen has it paired. -/
theorem Done.skip_continuation {s : Screen} (h : Done p cur prev full y x s)
    (hcur : cur.Painted amb) (hp : s.ShownPaired) (hcont : (cur.at x y).width = 0) :
    Done p cur prev full y (x + 1) s := by
  refine h.skip fun hx hy => ?_
  obtain ⟨hpos, hhead⟩ := hcur.continuation x y hx hy hcont
  have hleft := h (x - 1) y (by omega) hy (.inr (.inl ⟨rfl, by omega⟩))
  have hwide : (s.at ((x : Int) - 1) y).width = 2 := by
    have := hleft.width_eq
    rw [hhead] at this
    rwa [show ((x - 1 : Nat) : Int) = (x : Int) - 1 by omega] at this
  have hpair : (s.at ((x : Int) - 1 + 1) y).width = 0 := (hp.at ((x : Int) - 1) y).1 hwide
  unfold ShowsCell
  rw [if_pos hcont]
  rwa [show (x : Int) - 1 + 1 = x by omega] at hpair

/-- Writing a cell under the cursor keeps everything that was right. -/
theorem Done.deposit (h : Done p cur prev full y x t.screen) (hcur : cur.Painted amb)
    (hc : Canvas cur.w cur.h t) (hx : x < cur.w) (hy : y < cur.h) (hw0 : (cur.at x y).width ≠ 0)
    (hcx : t.screen.cx = x) (hcy : t.screen.cy = y)
    (hpen : t.screen.pen = shownStyle p.depth (styleOf (cur.at x y))) :
    Done p cur prev full y (x + 1) (t.screen.deposit (cur.at x y).ch (cur.at x y).width) := by
  intro x' y' hx' hy' hcase
  have hr := Screen.deposit_repaints hc.bounded.sized hc.bounded.onPage (cur.at x y).ch
    (cur.at x y).width
  have hon : t.screen.OnPage x' y' :=
    ⟨by omega, by rw [hc.cols]; omega, by omega, by rw [hc.rows]; omega⟩
  rw [hr.cells x' y' hon, hcx, hcy, hpen]
  by_cases hhere : y' = y ∧ x' = x
  · obtain ⟨rfl, rfl⟩ := hhere
    rw [if_pos ⟨rfl, rfl⟩]
    unfold ShowsCell
    rw [if_neg hw0]
  rw [if_neg (by omega)]
  by_cases hsecond : y' = y ∧ x' = x + 1 ∧ (cur.at x y).width = 2
  · obtain ⟨rfl, rfl, h2⟩ := hsecond
    rw [if_pos ⟨rfl, by omega, h2⟩]
    unfold ShowsCell
    rw [if_pos (hcur.head x y' hx hy h2).2]
  rw [if_neg (by omega)]
  -- the cell is as it was, for a half that is orphaned is never one that is right
  have hold : (y' < y ∨ (y' = y ∧ x' < x) ∨ differs cur prev full y' x' = false) := by grind
  have hright := h x' y' hx' hy' hold
  rw [if_neg]
  · exact hright
  rintro ⟨hrow, horphan⟩
  obtain rfl : y' = y := by omega
  have hwidth := hright.width_eq
  rcases horphan with ⟨h0, hleft⟩ | ⟨h2, hnext⟩ | ⟨hw2, -, h2, hnext⟩
  · -- the first half to the left would make this cell a continuation
    have hhead : (t.screen.at ((x : Int) - 1) y').width = 2 := (hc.paired.at x y').2 h0
    rw [← hleft, hwidth] at hhead
    have hcont := (hcur.head x' y' hx' hy' hhead).2
    rw [show x' + 1 = x by omega] at hcont
    exact hw0 hcont
  · -- the second half to the right would be the continuation of this cell
    have hcont : (t.screen.at ((x : Int) + 1) y').width = 0 := (hc.paired.at x y').1 h2
    rw [← hnext, hwidth] at hcont
    have hhead := (hcur.continuation x' y' hx' hy' hcont).2
    rw [show x' - 1 = x by omega] at hhead
    exact hsecond ⟨rfl, by omega, hhead⟩
  · -- the second half past the pair would be the continuation of a continuation
    have hcont : (t.screen.at ((x : Int) + 1 + 1) y').width = 0 := (hc.paired.at (x + 1) y').1 h2
    rw [show (x : Int) + 1 + 1 = x' by omega, hwidth] at hcont
    have hhead := (hcur.continuation x' y' hx' hy' hcont).2
    have hmine := (hcur.head x y' hx hy' hw2).2
    rw [show x' - 1 = x + 1 by omega, hmine] at hhead
    omega

/-! ### The differ's own state -/

/-- The sink where the bytes written so far lead: what the differ believes of the pen
and of the cursor is so, and the cells up to column `x` of row `y` are done. -/
structure Follows (p : OutputProfile) (cur prev : Surface) (full : Bool) (y x : Nat)
    (e : Emission) (t : Sink) : Prop where
  canvas : Canvas cur.w cur.h t
  pen : t.screen.pen = shownStyle p.depth e.pen
  pos : e.posKnown → e.px < cur.w →
    t.screen.cx = e.px ∧ t.screen.cy = e.py ∧ t.screen.wrapPending = false
  done : Done p cur prev full y x t.screen

/-- From `t₀` the bytes lead to such a sink, and no mode has changed. -/
def Reaches (amb : Bool) (p : OutputProfile) (cur prev : Surface) (full : Bool) (t₀ : Sink)
    (y x : Nat) (e : Emission) : Prop :=
  ∃ t, Takes amb e.body t₀ t ∧ t.modes = t₀.modes ∧ Follows p cur prev full y x e t

variable {t₀ : Sink} {e : Emission}

theorem goTo_reaches {x' y' : Nat} (hw : cur.w ≤ 65535) (hh : cur.h ≤ 65535)
    (h : Reaches amb p cur prev full t₀ y x e) (hx : x' < cur.w) (hy : y' < cur.h) :
    ∃ t, Takes amb (e.goTo x' y').body t₀ t ∧ t.modes = t₀.modes ∧
      Follows p cur prev full y x (e.goTo x' y') t ∧ (e.goTo x' y').px = x' ∧
      (e.goTo x' y').py = y' ∧ t.screen.cx = x' ∧ t.screen.cy = y' ∧ t.screen.wrapPending = false := by
  obtain ⟨t, htakes, hmodes, hf⟩ := h
  unfold Emission.goTo
  by_cases hmove : e.posKnown = false ∨ e.px ≠ x' ∨ e.py ≠ y'
  · rw [if_pos hmove]
    have hcx : clamp (x' : Int) 0 (t.screen.cols - 1) = x' := by
      rw [hf.canvas.cols]
      exact clamp_of_mem (by omega) (by omega)
    have hcy : clamp (y' : Int) 0 (t.screen.rows - 1) = y' := by
      rw [hf.canvas.rows]
      exact clamp_of_mem (by omega) (by omega)
    refine ⟨_, htakes.append (takes_cup (by omega) (by omega) t), hmodes, ?_, rfl, rfl, hcx, hcy,
      rfl⟩
    exact ⟨hf.canvas.moveTo x' y', hf.pen, fun _ _ => ⟨hcx, hcy, rfl⟩, hf.done⟩
  · rw [if_neg hmove]
    simp only [not_or, ne_eq, not_not, Bool.not_eq_false] at hmove
    obtain ⟨hknown, hpx, hpy⟩ := hmove
    obtain ⟨hcx, hcy, hwrap⟩ := hf.pos hknown (by omega)
    exact ⟨t, htakes, hmodes, hf, hpx, hpy, by rw [hcx, hpx], by rw [hcy, hpy], hwrap⟩

/-- A cell that is sent is right, and the differ knows where it leaves the cursor. -/
theorem drawCell_reaches (hw : cur.w ≤ 65535) (hh : cur.h ≤ 65535) (hcur : cur.Painted amb)
    (hscalar : IsScalar (cur.at x y).ch) (h : Reaches amb p cur prev full t₀ y x e)
    (hx : x < cur.w) (hy : y < cur.h) (hw0 : (cur.at x y).width ≠ 0) :
    Reaches amb p cur prev full t₀ y (x + 1) (e.drawCell p (cur.at x y) x y) := by
  obtain ⟨t, htakes, hmodes, hf, hpx, hpy, hcx, hcy, hwrap⟩ := goTo_reaches hw hh h hx hy
  have hwidth := hcur.width x y hx hy hw0
  have hle := charWidth_le amb (cur.at x y).ch
  obtain ⟨hlo, hdel⟩ := printable_of_charWidth (hwidth ▸ hw0)
  -- the pen, then the character
  have hstyle := htakes.append (takes_sgrTransition p (e.goTo x y).pen (styleOf (cur.at x y)) hf.pen)
  have hprint := hstyle.append (takes_print hscalar hlo hdel _)
  have hc := hf.canvas.withPen (shownStyle p.depth (styleOf (cur.at x y)))
  generalize ht₁ : t.withPen (shownStyle p.depth (styleOf (cur.at x y))) = t₁ at hprint hc
  obtain ⟨hcx₁, hcy₁, hwrap₁, hpen₁, hmodes₁⟩ : t₁.screen.cx = x ∧ t₁.screen.cy = y ∧
      t₁.screen.wrapPending = false ∧
      t₁.screen.pen = shownStyle p.depth (styleOf (cur.at x y)) ∧ t₁.modes = t₀.modes := by
    rw [← ht₁]
    exact ⟨hcx, hcy, hwrap, rfl, hmodes⟩
  have hfit : (cur.at x y).width = 2 → t₁.screen.cx + 1 < t₁.screen.cols := by
    intro h2
    have := (hcur.head x y hx hy h2).1
    rw [hcx₁, hc.cols]
    omega
  rw [print_eq hc.ascii hwidth.symm hw0 hwrap₁ hfit] at hprint
  have hr := Screen.deposit_repaints hc.bounded.sized hc.bounded.onPage (cur.at x y).ch
    (cur.at x y).width
  have hpaired : (t₁.screen.deposit (cur.at x y).ch (cur.at x y).width).ShownPaired := by
    refine hc.paired.deposit hc.bounded _ ?_
    have hone : (cur.at x y).width = 1 ∨ (cur.at x y).width = 2 := by omega
    exact hone.imp_right fun h2 => ⟨h2, hfit h2⟩
  refine ⟨_, hprint, hmodes₁, (hc.of_repaints hr hpaired).advance _, ?_, ?_, ?_⟩
  · show (Screen.advance _ _).pen = _
    rw [advance_pen, hr.pen]
    exact hpen₁
  · intro _ hin
    have hin : (e.goTo x y).px + (cur.at x y).width < cur.w := hin
    have hroom : (t₁.screen.deposit (cur.at x y).ch (cur.at x y).width).cx +
        ((cur.at x y).width : Int) < (t₁.screen.deposit (cur.at x y).ch (cur.at x y).width).cols := by
      rw [hr.cx, hr.cols, hcx₁, hc.cols]
      omega
    have hnowrap : (t₁.screen.deposit (cur.at x y).ch (cur.at x y).width).wrapPending = false := by
      rw [hr.frame]
      exact hwrap₁
    show (Screen.advance _ _).cx = (((e.goTo x y).px + (cur.at x y).width : Nat) : Int) ∧
      (Screen.advance _ _).cy = ((e.goTo x y).py : Int) ∧ (Screen.advance _ _).wrapPending = false
    rw [advance_of_room hroom]
    refine ⟨?_, ?_, hnowrap⟩
    · show Screen.cx _ + _ = _
      rw [hr.cx, hcx₁, hpx]
      omega
    · show Screen.cy _ = _
      rw [hr.cy, hcy₁, hpy]
  · have hdone : Done p cur prev full y x t₁.screen := by
      rw [← ht₁]
      exact hf.done
    exact (hdone.deposit hcur hc hx hy hw0 hcx₁ hcy₁ hpen₁).of_at fun _ _ => advance_at ..

/-! ### Rows -/

/-- What a frame may be asked to draw: cells that a terminal can be told of, at places
that a terminal can be sent to. -/
structure Drawable (amb : Bool) (s : Surface) : Prop where
  painted : s.Painted amb
  scalar : ∀ x y, x < s.w → y < s.h → (s.at x y).width ≠ 0 → IsScalar (s.at x y).ch
  wide : s.w ≤ 65535
  high : s.h ≤ 65535

theorem Reaches.back {x₀ : Nat} (h : Reaches amb p cur prev full t₀ y x e) (hle : x₀ ≤ x) :
    Reaches amb p cur prev full t₀ y x₀ e := by
  obtain ⟨t, htakes, hmodes, hf⟩ := h
  exact ⟨t, htakes, hmodes, hf.canvas, hf.pen, hf.pos, hf.done.back hle⟩

theorem Reaches.changed (h : Reaches amb p cur prev full t₀ y x e) :
    Reaches amb p cur prev full t₀ y x { e with any := true } := by
  obtain ⟨t, htakes, hmodes, hf⟩ := h
  exact ⟨t, htakes, hmodes, hf.canvas, hf.pen, hf.pos, hf.done⟩

/-- A cell that does not differ is passed over. -/
theorem Reaches.skip (h : Reaches amb p cur prev full t₀ y x e)
    (hsame : differs cur prev full y x = false) : Reaches amb p cur prev full t₀ y (x + 1) e := by
  obtain ⟨t, htakes, hmodes, hf⟩ := h
  refine ⟨t, htakes, hmodes, hf.canvas, hf.pen, hf.pos, hf.done.skip fun hx hy => ?_⟩
  exact hf.done x y hx hy (.inr (.inr hsame))

theorem drawCells_reaches (hcur : Drawable amb cur) (hy : y < cur.h) (left : Nat)
    (h : Reaches amb p cur prev full t₀ y x e) (hfit : x + left ≤ cur.w) :
    Reaches amb p cur prev full t₀ y (x + left) (drawCells p cur y left x e) := by
  induction left generalizing x e with
  | zero => exact h
  | succ left ih =>
      rw [show x + (left + 1) = x + 1 + left by omega]
      unfold drawCells
      refine ih (x := x + 1) ?_ (by omega)
      by_cases hw0 : (cur.at x y).width = 0
      · rw [if_pos hw0]
        obtain ⟨t, htakes, hmodes, hf⟩ := h
        have hdone := hf.done.skip_continuation hcur.painted hf.canvas.paired hw0
        exact ⟨t, htakes, hmodes, hf.canvas, hf.pen, hf.pos, hdone⟩
      · rw [if_neg hw0]
        exact drawCell_reaches hcur.wide hcur.high hcur.painted
          (hcur.scalar x y (by omega) hy hw0) h (by omega) hy hw0

theorem headOf_le : ∀ x, headOf cur y x ≤ x
  | 0 => Nat.le_refl 0
  | x + 1 => by
      have ih := headOf_le x
      unfold headOf
      split <;> omega

theorem runEnd_bounds {contentEnd fuel : Nat} (hx : x ≤ contentEnd) :
    x ≤ runEnd cur prev full y contentEnd fuel x ∧
      runEnd cur prev full y contentEnd fuel x ≤ contentEnd := by
  induction fuel generalizing x with
  | zero => exact ⟨Nat.le_refl x, hx⟩
  | succ fuel ih =>
      unfold runEnd
      split
      · next hcond =>
          have := ih (x := x + 1) hcond.1
          omega
      · exact ⟨Nat.le_refl x, hx⟩

theorem scanRow_reaches (hcur : Drawable amb cur) (hy : y < cur.h) {contentEnd fuel : Nat}
    (hend : contentEnd ≤ cur.w) (h : Reaches amb p cur prev full t₀ y x e) (hx : x ≤ contentEnd)
    (hfuel : contentEnd - x ≤ fuel) :
    Reaches amb p cur prev full t₀ y contentEnd
      (scanRow p cur prev full y contentEnd fuel x e) := by
  induction fuel generalizing x e with
  | zero =>
      obtain rfl : x = contentEnd := by omega
      exact h
  | succ fuel ih =>
      unfold scanRow
      by_cases hover : x ≥ contentEnd
      · obtain rfl : x = contentEnd := by omega
        rw [if_pos hover]
        exact h
      rw [if_neg hover]
      by_cases hdiff : differs cur prev full y x = true
      · rw [if_neg (by simp [hdiff])]
        -- back to the head, over the whole run, and on behind it
        have hhead : headOf cur y x ≤ x := headOf_le x
        have hlast : x + 1 ≤ runEnd cur prev full y contentEnd contentEnd (x + 1) ∧
            runEnd cur prev full y contentEnd contentEnd (x + 1) ≤ contentEnd :=
          runEnd_bounds (by omega)
        generalize runEnd cur prev full y contentEnd contentEnd (x + 1) = last at hlast
        generalize headOf cur y x = start at hhead
        have hdrawn := drawCells_reaches hcur hy (last - start) (h.back hhead) (by omega)
        rw [show start + (last - start) = last by omega] at hdrawn
        exact ih hdrawn.changed hlast.2 (by omega)
      · rw [if_pos hdiff]
        exact ih (h.skip (by simpa using hdiff)) (by omega) (by omega)

/-! ### Blank tails -/

theorem tailStart_blank : ∀ n, tailStart cur y n ≤ x → x < n → cur.at x y = {}
  | 0, _, hn => absurd hn (Nat.not_lt_zero x)
  | n + 1, htail, hn => by
      unfold tailStart at htail
      split at htail
      · next hblank =>
          by_cases hx : x = n
          · rw [hx]
            exact hblank
          · exact tailStart_blank n htail (by omega)
      · omega

/-- A blank cell is shown by an erasure on the default background. -/
theorem showsCell_blank (d : ColorDepth) : ShowsCell d {} ({} : ScreenCell) := by
  cases d <;> decide

/-- Erasing a tail of blanks keeps everything that was right. -/
theorem Done.eraseTail (h : Done p cur prev full y x t.screen) (hcur : cur.Painted amb)
    (hc : Canvas cur.w cur.h t) (hx : x < cur.w) (hy : y < cur.h)
    (hblank : ∀ x', x ≤ x' → x' < cur.w → cur.at x' y = {}) (hcx : t.screen.cx = x)
    (hcy : t.screen.cy = y) (hbg : t.screen.pen.bg = .default) :
    Done p cur prev full y cur.w (t.screen.eraseLine 0) := by
  intro x' y' hx' hy' hcase
  have hcols := hc.cols
  have hrows := hc.rows
  have hr : Screen.Repaints _ (t.screen.eraseLine 0) _ :=
    Screen.eraseSpan_repaints hc.bounded.sized hc.bounded.cx.1
      (show t.screen.cols - 1 < t.screen.cols by omega) (by omega) hc.bounded.cy.1 hc.bounded.cy.2
  have hon : t.screen.OnPage x' y' := ⟨by omega, by omega, by omega, by omega⟩
  rw [hr.cells x' y' hon, hcx, hcy]
  by_cases hrow : y' = y
  · subst hrow
    by_cases htail : x ≤ x'
    · rw [if_pos ⟨rfl, .inl ⟨by omega, by omega⟩⟩, hblank x' htail hx']
      unfold Screen.erased
      rw [hbg]
      exact showsCell_blank p.depth
    · have hright := h x' y' hx' hy' (.inr (.inl ⟨rfl, by omega⟩))
      rw [if_neg]
      · exact hright
      rintro ⟨-, hin | ⟨h0, hleft⟩ | ⟨-, hpast, -⟩⟩
      · omega
      · -- a first half to the left would be right, and have its continuation here
        have hhead : (t.screen.at ((x : Int) - 1) y').width = 2 := (hc.paired.at x y').2 h0
        rw [← hleft, hright.width_eq] at hhead
        have hcont := (hcur.head x' y' hx' hy' hhead).2
        rw [show x' + 1 = x by omega, hblank x (Nat.le_refl x) hx] at hcont
        exact absurd hcont (by decide)
      · omega
  · rw [if_neg (by omega)]
    exact h x' y' hx' hy' (by grind)

theorem eraseFrom_reaches (hcur : Drawable amb cur) (h : Reaches amb p cur prev full t₀ y x e)
    (hx : x < cur.w) (hy : y < cur.h)
    (hblank : ∀ x', x ≤ x' → x' < cur.w → cur.at x' y = {}) :
    Reaches amb p cur prev full t₀ y cur.w (e.eraseFrom p x y) := by
  obtain ⟨t, htakes, hmodes, hf, hpx, hpy, hcx, hcy, hwrap⟩ :=
    goTo_reaches hcur.wide hcur.high h hx hy
  unfold Emission.eraseFrom
  generalize e.goTo x y = e₁ at *
  -- the pen keeps all but its background
  obtain ⟨e₂, he₂, hbg, hpos, htakes₂⟩ : ∃ e₂ : Emission,
      e₂ = (if e₁.pen.bg = .default then e₁ else e₁.changePen p { e₁.pen with bg := .default }) ∧
      e₂.pen.bg = .default ∧ (e₂.posKnown = e₁.posKnown ∧ e₂.px = e₁.px ∧ e₂.py = e₁.py) ∧
      Takes amb e₂.body t₀ (t.withPen (shownStyle p.depth e₂.pen)) := by
    by_cases hdef : e₁.pen.bg = .default
    · refine ⟨e₁, (if_pos hdef).symm, hdef, ⟨rfl, rfl, rfl⟩, ?_⟩
      rw [← hf.pen, withPen_self]
      exact htakes
    · refine ⟨_, (if_neg hdef).symm, rfl, ⟨rfl, rfl, rfl⟩, ?_⟩
      exact htakes.append (takes_sgrTransition p e₁.pen _ hf.pen)
  simp only [← he₂]
  have hc := hf.canvas.withPen (shownStyle p.depth e₂.pen)
  have hdone : Done p cur prev full y cur.w
      ((t.withPen (shownStyle p.depth e₂.pen)).screen.eraseLine 0) := by
    refine Done.eraseTail (hf.done.of_at fun _ _ => rfl) hcur.painted hc hx hy hblank hcx hcy ?_
    show shownColor p.depth e₂.pen.bg = .default
    rw [hbg]
    cases p.depth <;> rfl
  have hr := Screen.eraseSpan_repaints hc.bounded.sized hc.bounded.cx.1
    (show (t.withPen (shownStyle p.depth e₂.pen)).screen.cols - 1 <
      (t.withPen (shownStyle p.depth e₂.pen)).screen.cols by omega)
    (by have := hc.bounded.cx.2; omega) hc.bounded.cy.1 hc.bounded.cy.2
  refine ⟨_, htakes₂.append (takes_eraseLine _), hmodes, ?_, ?_, ?_, hdone⟩
  · exact hc.of_repaints hr (hc.paired.eraseSpan hc.bounded.sized _ _ _)
  · exact hr.pen
  · intro _ _
    obtain ⟨-, hpx₂, hpy₂⟩ := hpos
    refine ⟨hr.cx.trans ?_, hr.cy.trans ?_, ?_⟩
    · show t.screen.cx = (e₂.px : Int)
      rw [hcx, hpx₂, hpx]
    · show t.screen.cy = (e₂.py : Int)
      rw [hcy, hpy₂, hpy]
    · show (Screen.eraseSpan _ _ _ _).wrapPending = false
      rw [hr.frame]
      exact hwrap

theorem row_reaches (hcur : Drawable amb cur) (hy : y < cur.h)
    (h : Reaches amb p cur prev full t₀ y 0 e) :
    Reaches amb p cur prev full t₀ (y + 1) 0 (row p cur prev full y e) := by
  suffices hdone : Reaches amb p cur prev full t₀ y cur.w (row p cur prev full y e) by
    obtain ⟨t, htakes, hmodes, hf⟩ := hdone
    exact ⟨t, htakes, hmodes, hf.canvas, hf.pen, hf.pos, hf.done.next_row⟩
  have htail : tailStart cur y cur.w ≤ cur.w := tailStart_le cur.w
  have hblank : ∀ x', tailStart cur y cur.w ≤ x' → x' < cur.w → cur.at x' y = {} :=
    fun x' hle hlt => tailStart_blank cur.w hle hlt
  unfold row
  generalize tailStart cur y cur.w = tail at *
  simp only
  by_cases herase : cur.w - tail ≥ kMinErasableTail
  · simp only [if_pos herase]
    have hscan := scanRow_reaches hcur hy htail h (Nat.zero_le _) (Nat.le_refl _)
    have hlt : tail < cur.w := by
      have : kMinErasableTail = 4 := rfl
      omega
    by_cases hdiff : tailDiffers cur prev full y tail = true
    · rw [if_pos ⟨herase, hdiff⟩]
      exact eraseFrom_reaches hcur hscan hlt hy hblank
    · rw [if_neg (by tauto)]
      -- none of the blanks differs
      obtain ⟨t, htakes, hmodes, hf⟩ := hscan
      refine ⟨t, htakes, hmodes, hf.canvas, hf.pen, hf.pos, fun x' y' hx' hy' hcase => ?_⟩
      refine hf.done x' y' hx' hy' ?_
      by_cases hin : y' = y ∧ tail ≤ x'
      · refine .inr (.inr ?_)
        obtain ⟨rfl, hle⟩ := hin
        simp only [tailDiffers, Bool.or_eq_true, List.any_eq_true, not_or, not_exists, not_and,
          Bool.not_eq_true] at hdiff
        have hcell := hdiff.2 x' (by rw [List.mem_range'_1]; omega)
        simp only [differs, hdiff.1, hcell, Bool.or_self]
      · grind
  · simp only [if_neg herase]
    rw [if_neg (by tauto)]
    exact scanRow_reaches hcur hy (Nat.le_refl _) h (Nat.zero_le _) (Nat.le_refl _)

theorem rows_reaches (hcur : Drawable amb cur) (h : Reaches amb p cur prev full t₀ 0 0 e) :
    ∀ n ≤ cur.h, Reaches amb p cur prev full t₀ n 0
      ((List.range n).foldl (fun e y => row p cur prev full y e) e)
  | 0, _ => h
  | n + 1, hn => by
      rw [List.range_succ, List.foldl_append]
      exact row_reaches hcur (by omega) (rows_reaches hcur h n (by omega))

/-! ### Idle frames -/

/-- Nothing was written unless something was found to differ. -/
def Idle (e : Emission) : Prop := e.any = false → e.body = []

theorem scanRow_idle {contentEnd fuel : Nat} (h : Idle e) :
    Idle (scanRow p cur prev full y contentEnd fuel x e) := by
  induction fuel generalizing x e with
  | zero => exact h
  | succ fuel ih =>
      unfold scanRow
      split
      · exact h
      split
      · exact ih h
      · exact ih nofun

theorem row_idle (h : Idle e) : Idle (row p cur prev full y e) := by
  unfold row
  simp only
  split
  · exact nofun
  · exact scanRow_idle h

theorem emission_idle (d : Differ) (cur : Surface) : Idle (d.emission cur) := by
  unfold Differ.emission
  generalize List.range cur.h = rows
  have hstart : Idle {} := fun _ => rfl
  have hrow : ∀ e y, Idle e → Idle (row d.profile cur d.prev (!d.valid) y e) :=
    fun _ _ he => row_idle he
  exact run_preserves hrow hstart rows

end Frame

/-! ### Frames -/

/-- A cursor that is asked for stands on the surface. -/
def CursorOn (s : Surface) (cursor : Option Pos) : Prop :=
  ∀ pos ∈ cursor, 0 ≤ pos.x ∧ pos.x < s.w ∧ 0 ≤ pos.y ∧ pos.y < s.h

/-- The surface is on the screen, and the cursor where it was asked for. -/
structure Displays (d : ColorDepth) (s : Surface) (cursor : Option Pos) (t : Sink) : Prop where
  cells : Shows d s t.screen
  visible : t.modes.cursorVisible = cursor.isSome
  cx : t.screen.cx = (cursor.getD {}).x
  cy : t.screen.cy = (cursor.getD {}).y

/-- What the differ believes of the client is so. -/
structure InStep (w h : Nat) (d : Differ) (e : Emulator) : Prop where
  quiet : e.parser.Quiet
  canvas : Canvas w h e.sink
  cells : d.valid = true → Shows d.profile.depth d.prev e.sink.screen
  cursor : d.first = false → e.sink.modes.cursorVisible = d.lastShown ∧
    e.sink.screen.cx = d.lastTarget.x ∧ e.sink.screen.cy = d.lastTarget.y

section Frames

variable {amb : Bool} {d : Differ} {e : Emulator} {cur : Surface} {cursor : Option Pos} {w h : Nat}

theorem fit_size (d : Differ) (cur : Surface) :
    (d.fit cur).prev.w = cur.w ∧ (d.fit cur).prev.h = cur.h := by
  unfold Differ.fit
  split
  · exact ⟨rfl, rfl⟩
  · omega

@[simp] theorem fit_profile (d : Differ) (cur : Surface) : (d.fit cur).profile = d.profile := by
  unfold Differ.fit
  split <;> rfl

theorem InStep.fit (h' : InStep w h d e) (cur : Surface) : InStep w h (d.fit cur) e := by
  unfold Differ.fit
  split
  · exact ⟨h'.quiet, h'.canvas, nofun, h'.cursor⟩
  · exact h'

theorem feed_nil (e : Emulator) : e.feed amb [] = e := rfl

theorem Takes.eq_of_nil {t t' : Sink} (h : Takes amb [] t t') : t' = t := by
  obtain ⟨calls, hreads, rfl⟩ := h
  obtain ⟨q, -, hfeed⟩ := hreads {} ⟨rfl, rfl⟩
  have hcalls : calls = [] := (congrArg Prod.snd hfeed).symm
  rw [hcalls]
  rfl

/-- The sink once the cursor is hidden and the pen reset. -/
def preparedSink (t : Sink) : Sink :=
  { t.withPen {} with modes := { t.modes with cursorVisible := false } }

theorem takes_prepare {t : Sink} (h : t.Synced) :
    Takes amb (cursorBytes false ++ [0x1B, 0x5B, 0x30, 0x6D]) t (preparedSink t) :=
  (takes_cursor h false).append (takes_sgr [0] (by decide) _)

/-- The cells of the frame are right once they are written. -/
theorem emission_reaches (hcur : Drawable amb cur) (h' : InStep cur.w cur.h d e)
    (hsize : d.prev.w = cur.w ∧ d.prev.h = cur.h) :
    Reaches amb d.profile cur d.prev (!d.valid) (preparedSink e.sink) cur.h 0 (d.emission cur) := by
  refine rows_reaches hcur ?_ cur.h (Nat.le_refl _)
  refine ⟨preparedSink e.sink, Takes.nil _, rfl, ?_, ?_, nofun, ?_⟩
  · exact (h'.canvas.withPen {}).showing false
  · exact (shownStyle_default _).symm
  · intro x y hx hy hcase
    have hsame : differs cur d.prev (!d.valid) y x = false := by simpa using hcase
    simp only [differs, Bool.or_eq_false_iff, Bool.not_eq_false', bne_eq_false_iff_eq] at hsame
    rw [hsame.2]
    exact h'.cells hsame.1 x y (by omega) (by omega)

/-- The target of a frame is a cell of the surface, with or without a cursor to show there. -/
theorem target_onSurface {t : Sink} (c : Canvas cur.w cur.h t) (hcursor : CursorOn cur cursor) :
    ∃ tx ty : Nat, cursor.getD {} = ⟨tx, ty⟩ ∧ tx < cur.w ∧ ty < cur.h := by
  cases cursor with
  | none =>
      have hcols := c.bounded.cols_pos
      have hrows := c.bounded.rows_pos
      rw [c.cols] at hcols
      rw [c.rows] at hrows
      exact ⟨0, 0, rfl, by omega, by omega⟩
  | some pos =>
      obtain ⟨hx0, hx, hy0, hy⟩ := hcursor pos rfl
      refine ⟨pos.x.toNat, pos.y.toNat, ?_, by omega, by omega⟩
      rw [Int.toNat_of_nonneg hx0, Int.toNat_of_nonneg hy0]
      rfl

/-- A hidden cursor is shown again if the frame has one. -/
theorem takes_shown {t : Sink} (h : t.Synced) (hidden : t.modes.cursorVisible = false)
    (visible : Bool) :
    Takes amb (if visible then cursorBytes true else []) t
      { t with modes := { t.modes with cursorVisible := visible } } := by
  cases visible with
  | true => exact takes_cursor h true
  | false =>
      have hsame : t.modes = { t.modes with cursorVisible := false } := by rw [← hidden]
      rw [← hsame]
      exact Takes.nil _

/-- What a frame leaves once it is sent whole: the cells written, the cursor put on its
target and shown if there is one. -/
theorem sent_displays {t : Sink} {body : Bytes} {tx ty : Nat} (hcur : Drawable amb cur)
    (hquiet : e.parser.Quiet) (hsynced : e.sink.Synced)
    (htakes : Takes amb body (preparedSink e.sink) t)
    (hmodes : t.modes = (preparedSink e.sink).modes) (c : Canvas cur.w cur.h t)
    (htx : tx < cur.w) (hty : ty < cur.h) (visible : Bool) :
    ∃ q : Parser, q.Quiet ∧
      e.feed amb (cursorBytes false ++ [0x1B, 0x5B, 0x30, 0x6D] ++ body ++ cup tx ty ++
        if visible then cursorBytes true else []) =
          { parser := q
            sink := { t with
              screen := t.screen.moveTo tx ty
              modes := { t.modes with cursorVisible := visible } } } ∧
      (t.screen.moveTo tx ty).cx = tx ∧ (t.screen.moveTo tx ty).cy = ty := by
  have hwide := hcur.wide
  have hhigh := hcur.high
  have hbody := ((takes_prepare hsynced).append htakes).append
    (takes_cup (x := tx) (y := ty) (by omega) (by omega) t)
  have hhidden : t.modes.cursorVisible = false := by
    rw [hmodes]
    rfl
  have hshown := @takes_shown amb _ (c.moveTo tx ty).synced hhidden visible
  obtain ⟨q, hq, hfeed⟩ := (hbody.append hshown).feed hquiet
  refine ⟨q, hq, hfeed, ?_, ?_⟩
  · show clamp (tx : Int) 0 (t.screen.cols - 1) = tx
    rw [c.cols]
    exact clamp_of_mem (by omega) (by omega)
  · show clamp (ty : Int) 0 (t.screen.rows - 1) = ty
    rw [c.rows]
    exact clamp_of_mem (by omega) (by omega)

/-- **One frame**: the emulator displays it, and the differ knows. -/
theorem frame_displays (hcur : Drawable amb cur) (hcursor : CursorOn cur cursor)
    (h' : InStep cur.w cur.h d e) :
    InStep cur.w cur.h (d.frame cur cursor).2 (e.feed amb (d.frame cur cursor).1) ∧
      Displays d.profile.depth cur cursor (e.feed amb (d.frame cur cursor).1).sink ∧
      (d.frame cur cursor).2.profile = d.profile := by
  have hfit := h'.fit cur
  have hprofile := fit_profile d cur
  have hreach := emission_reaches hcur hfit (fit_size d cur)
  have hidle := emission_idle (d.fit cur) cur
  unfold Differ.frame
  simp only
  generalize d.fit cur = d₁ at *
  generalize d₁.emission cur = em at *
  obtain ⟨t, htakes, hmodes, hf⟩ := hreach
  have hshows : Shows d₁.profile.depth cur t.screen := fun x y hx hy => hf.done x y hx hy (.inl hy)
  have hcanvas := hf.canvas
  by_cases hsilent : em.any = false ∧ d₁.valid = true ∧
      (d₁.first || cursor.getD {} != d₁.lastTarget || cursor.isSome != d₁.lastShown) = false
  · rw [if_pos hsilent, feed_nil]
    obtain ⟨hany, -, hsame⟩ := hsilent
    simp only [Bool.or_eq_false_iff, bne_eq_false_iff_eq] at hsame
    obtain ⟨⟨hfirst, htarget⟩, hshown⟩ := hsame
    obtain ⟨hvisible, hcx, hcy⟩ := hfit.cursor hfirst
    rw [hidle hany] at htakes
    rw [htakes.eq_of_nil] at hshows
    rw [hprofile] at hshows
    refine ⟨hfit, ⟨hshows, ?_, ?_, ?_⟩, hprofile⟩
    · rw [hvisible, hshown]
    · rw [hcx, htarget]
    · rw [hcy, htarget]
  · rw [if_neg hsilent]
    obtain ⟨tx, ty, htarget, htx, hty⟩ := target_onSurface hcanvas hcursor
    obtain ⟨q, hq, hfeed, hcx, hcy⟩ := sent_displays hcur h'.quiet h'.canvas.synced htakes hmodes
      hcanvas htx hty cursor.isSome
    rw [htarget]
    have hsent : e.feed amb ([0x1B, 0x5B, 0x3F, 0x32, 0x35, 0x6C] ++ [0x1B, 0x5B, 0x30, 0x6D] ++
        em.body ++ cup tx ty ++
        (if cursor.isSome then [0x1B, 0x5B, 0x3F, 0x32, 0x35, 0x68] else [])) = _ := hfeed
    rw [hsent]
    refine ⟨⟨hq, ?_, fun _ => hshows, fun _ => ⟨rfl, hcx, hcy⟩⟩, ⟨?_, rfl, ?_, ?_⟩, hprofile⟩
    · exact (hcanvas.moveTo tx ty).showing cursor.isSome
    · rw [← hprofile]
      exact hshows
    · rw [htarget]
      exact hcx
    · rw [htarget]
      exact hcy

/-- Draw a frame and let the emulator read it. -/
def drawFrame (amb : Bool) (s : Differ × Emulator) (f : Surface × Option Pos) : Differ × Emulator :=
  let (bytes, d) := s.1.frame f.1 f.2
  (d, s.2.feed amb bytes)

/-- **Every frame is displayed.** Whatever surfaces and cursors are sent, after each of
them the emulator shows that surface and that cursor. -/
theorem frames_displayed (amb : Bool) (p : OutputProfile) {frames : List (Surface × Option Pos)}
    (hframes : ∀ f ∈ frames, f.1.w = w ∧ f.1.h = h ∧ Drawable amb f.1 ∧ CursorOn f.1 f.2)
    (hquiet : e.parser.Quiet) (hcanvas : Canvas w h e.sink) :
    ∀ before f, before ++ [f] <+: frames →
      Displays p.depth f.1 f.2
        (run (drawFrame amb) ({ profile := p }, e) (before ++ [f])).2.sink := by
  -- the invariant of the run, and what the last frame adds to it
  let inv : Differ × Emulator → Prop := fun s => InStep w h s.1 s.2 ∧ s.1.profile = p
  let fine : Differ × Emulator → Surface × Option Pos → Prop := fun _ f =>
    f.1.w = w ∧ f.1.h = h ∧ Drawable amb f.1 ∧ CursorOn f.1 f.2
  have hstep : ∀ s f, inv s → fine s f →
      inv (drawFrame amb s f) ∧ Displays p.depth f.1 f.2 (drawFrame amb s f).2.sink := by
    rintro s f ⟨hin, rfl⟩ ⟨rfl, rfl, hcur, hcursor⟩
    obtain ⟨hin', hdisplays, hprofile⟩ := frame_displays hcur hcursor hin
    exact ⟨⟨hin', hprofile⟩, hdisplays⟩
  have hstart : inv ({ profile := p }, e) := ⟨⟨hquiet, hcanvas, nofun, nofun⟩, rfl⟩
  intro before f hbegins
  have hmem : ∀ g ∈ before ++ [f], fine ({ profile := p }, e) g :=
    fun g hg => hframes g (hbegins.subset hg)
  have hbefore : inv (run (drawFrame amb) ({ profile := p }, e) before) := by
    have hkeeps : ∀ s f, inv s → fine s f → inv (drawFrame amb s f) :=
      fun s f hs hf => (hstep s f hs hf).1
    refine run_invariant hkeeps hstart ?_
    exact StepsMeet.of_forall (fun g hg _ => hmem g (List.mem_append_left _ hg)) _
  rw [run_append]
  exact (hstep _ f hbefore (hmem f (by simp))).2

/-- An emulator on which nothing has been written. -/
def freshEmulator (cols rows : Int) : Emulator := { sink := { screen := Screen.create cols rows } }

theorem freshEmulator_canvas (w h : Nat) (hw : 1 ≤ w) (hh : 1 ≤ h) :
    Canvas w h (freshEmulator w h).sink := by
  have hb := Screen.Bounded.create w h
  have hp := (Screen.Paired.create w h).shown
  obtain ⟨tabs, -, heq⟩ := Screen.create_spec w h
  show Canvas w h { screen := Screen.create w h }
  rw [heq] at hb hp ⊢
  exact ⟨hb, hp, by show max 1 (w : Int) = w; omega, by show max 1 (h : Int) = h; omega, rfl,
    ⟨rfl, rfl⟩⟩

/-- One full-width character, in red. -/
def redPair : Surface :=
  { w := 2, h := 1, cells := [{ ch := 0x4E2D, fg := .indexed 1, width := 2 }, kContinuation] }

/-- Two frames, the second with the cursor behind the first half of its character. -/
theorem frames_displayed_redPair :
    Displays .trueColor redPair (some { x := 1 })
      (run (drawFrame false) ({ profile := { depth := .trueColor } }, freshEmulator 2 1)
        [(Surface.create 2 1, none), (redPair, some { x := 1 })]).2.sink := by
  refine @frames_displayed (freshEmulator 2 1) 2 1 false { depth := .trueColor }
    [(Surface.create 2 1, none), (redPair, some { x := 1 })] ?_ ⟨rfl, rfl⟩
    (freshEmulator_canvas 2 1 (by decide) (by decide)) [(Surface.create 2 1, none)]
    (redPair, some { x := 1 }) (List.prefix_refl _)
  have hblank : Drawable false (Surface.create 2 1) := by
    refine ⟨Surface.Painted.create false 2 1, ?_, by decide, by decide⟩
    intro x y _ _ _
    rw [Surface.create_at]
    exact ⟨by decide, by decide⟩
  have hpair : Drawable false redPair := by
    refine ⟨⟨?_, ?_, ?_⟩, ?_, by decide, by decide⟩ <;>
      · intro x y (hx : x < 2) (hy : y < 1)
        interval_cases x <;> interval_cases y <;> decide
  intro f hf
  simp only [List.mem_cons, List.not_mem_nil, or_false] at hf
  obtain rfl | rfl := hf
  · exact ⟨rfl, rfl, hblank, nofun⟩
  · refine ⟨rfl, rfl, hpair, ?_⟩
    rintro pos ⟨⟩
    decide

/-! ### What a frame cannot ask for -/

theorem tailStart_create (w h y : Nat) : ∀ n, tailStart (Surface.create w h) y n = 0
  | 0 => rfl
  | n + 1 => by
      unfold tailStart
      rw [Surface.create_at, if_pos rfl, tailStart_create w h y n]

/-- The first frame of a blank row erases it. -/
theorem emission_blankRow (p : OutputProfile) {w : Nat} (hw : kMinErasableTail ≤ w) :
    Differ.emission ({ profile := p, prev := Surface.create w 1 } : Differ) (Surface.create w 1) =
      { body := cup 0 0 ++ [0x1B, 0x5B, 0x4B], posKnown := true, any := true } := by
  have htail : tailStart (Surface.create w 1) 0 (Surface.create w 1).w = 0 := tailStart_create ..
  show row p _ _ true 0 {} = _
  unfold row
  simp only [htail]
  rw [if_pos (show (Surface.create w 1).w - 0 ≥ kMinErasableTail from hw), if_pos ⟨hw, rfl⟩]
  rfl

/-- Past the ceiling of a parameter the cursor falls short. -/
theorem cursor_past_ceiling (p : OutputProfile) {w x : Nat} (hx : 65535 ≤ x) (hw : x < w) :
    (drawFrame false ({ profile := p }, freshEmulator w 1)
      (Surface.create w 1, some { x := x })).2.sink.screen.cx = 65534 := by
  have hcanvas := freshEmulator_canvas w 1 (by omega) (Nat.le_refl 1)
  have hframe : (Differ.frame { profile := p } (Surface.create w 1) (some { x := x })).1 =
      cursorBytes false ++ [0x1B, 0x5B, 0x30, 0x6D] ++ (cup 0 0 ++ [0x1B, 0x5B, 0x4B]) ++
        cup x 0 ++ cursorBytes true := by
    have hfit : Differ.fit { profile := p } (Surface.create w 1) =
        { profile := p, prev := Surface.create w 1 } := if_pos (.inl (by show 0 ≠ w; omega))
    unfold Differ.frame
    simp only [hfit, emission_blankRow p (show kMinErasableTail ≤ w by unfold kMinErasableTail; omega)]
    rfl
  -- what comes before the last move leaves the width and the modes as they are
  obtain ⟨t, herased, hcols, hsynced⟩ : ∃ t : Sink,
      Takes false (cursorBytes false ++ [0x1B, 0x5B, 0x30, 0x6D] ++ (cup 0 0 ++ [0x1B, 0x5B, 0x4B]))
        (freshEmulator w 1).sink t ∧ t.screen.cols = w ∧ t.Synced := by
    have hcup : Takes false (cup 0 0) _ _ := takes_cup (x := 0) (y := 0) (by decide) (by decide)
      (preparedSink (freshEmulator w 1).sink)
    have hmoved := hcup.append (takes_eraseLine _)
    refine ⟨_, (takes_prepare hcanvas.synced).append hmoved, ?_⟩
    have hkept := @Screen.step_kept
      ((preparedSink (freshEmulator w 1).sink).screen.moveTo ((0 : Nat) : Int) ((0 : Nat) : Int)) false
      (.eraseLine 0) nofun nofun nofun nofun nofun
    have hbefore : Sink.Synced { preparedSink (freshEmulator w 1).sink with
        screen := (preparedSink (freshEmulator w 1).sink).screen.moveTo ((0 : Nat) : Int)
          ((0 : Nat) : Int) } :=
      ⟨hcanvas.synced.autowrap, hcanvas.synced.alt⟩
    exact ⟨(congrArg (·.outside.cols) hkept).trans hcanvas.cols, hbefore.of_kept hkept⟩
  have hlast : Sink.Synced
      { t with screen := t.screen.moveTo (min (x : Int) 65534) (min ((0 : Nat) : Int) 65534) } :=
    ⟨hsynced.autowrap, hsynced.alt⟩
  have hall := (herased.append (takes_cup_clipped x 0 t)).append (takes_cursor hlast true)
  obtain ⟨q, -, hfeed⟩ := hall.feed (e := freshEmulator w 1) ⟨rfl, rfl⟩
  show ((freshEmulator w 1).feed false (Differ.frame _ _ _).1).sink.screen.cx = 65534
  rw [hframe]
  have hsent := congrArg (·.sink.screen.cx) hfeed
  refine hsent.trans ?_
  show clamp (min (x : Int) 65534) 0 (t.screen.cols - 1) = 65534
  rw [hcols, Int.min_eq_right (by omega)]
  exact clamp_of_mem (by omega) (by omega)

/-- A terminal is told of the eight attributes with a name, of columns and rows up to
the ceiling of a parameter, and of a cursor on its page. -/
theorem frame_falls_short :
    ((Surface.create 1 1).Painted false ∧
      (drawFrame false ({ profile := {} }, freshEmulator 1 1)
        (Surface.create 1 1, some { x := 5 })).2.sink.screen.cx = 0) ∧
    (({ w := 1, h := 1, cells := [{ attrs := 0x100#16 }] } : Surface).Painted false ∧
      ((drawFrame false ({ profile := {} }, freshEmulator 1 1)
        ({ w := 1, h := 1, cells := [{ attrs := 0x100#16 }] }, none)).2.sink.screen.at 0 0).style.attrs =
          0#16) ∧
    ((Surface.create 65536 1).Painted false ∧
      (drawFrame false ({ profile := {} }, freshEmulator ((65536 : Nat) : Int) 1)
        (Surface.create 65536 1, some { x := ((65535 : Nat) : Int) })).2.sink.screen.cx = 65534) := by
  refine ⟨⟨Surface.Painted.create .., by decide +kernel⟩, ⟨⟨?_, ?_, ?_⟩, by decide +kernel⟩,
    Surface.Painted.create .., cursor_past_ceiling {} (Nat.le_refl _) (Nat.lt_succ_self _)⟩
  all_goals
    intro x y (hx : x < 1) (hy : y < 1)
    interval_cases x
    interval_cases y
    decide

end Frames

end Sshos.Apps
