import Sshos.Vt.Screen

/-!
# Sshos.Vt.ScreenCells

What each operation that writes cells does, **cell by cell**. `Repaints s s' f` says
that `s'` is `s` with another page of the same size whose cells are given by `f`:
nothing else moved, and no access left the page. One lemma of this shape for each
operation is all that later modules know of the page.
-/

namespace Sshos.Vt

open Sshos.Lib
open Sshos.Render

theorem clamp_mem {v lo hi : Int} (h : lo ≤ hi) : lo ≤ clamp v lo hi ∧ clamp v lo hi ≤ hi := by
  unfold clamp
  split
  · omega
  · split <;> omega

theorem clamp_of_mem {v lo hi : Int} (h0 : lo ≤ v) (h1 : v ≤ hi) : clamp v lo hi = v := by
  unfold clamp
  rw [if_neg (by omega), if_neg (by omega)]

theorem pageAt_of_mem {cols rows : Int} {page : List ScreenCell} {x y : Int} (hx0 : 0 ≤ x)
    (hx : x < cols) (hy0 : 0 ≤ y) (hy : y < rows) :
    pageAt cols rows page x y = readAt blank page (y * cols + x) := by
  unfold pageAt
  rw [if_neg (by omega)]

theorem pageAt_off {cols rows : Int} {page : List ScreenCell} {x y : Int}
    (h : ¬ (0 ≤ x ∧ x < cols ∧ 0 ≤ y ∧ y < rows)) : pageAt cols rows page x y = blank := by
  unfold pageAt
  rw [if_pos (by omega)]

namespace Screen

/-- The page has the size its dimensions say. -/
structure Sized (s : Screen) : Prop where
  cols_pos : 1 ≤ s.cols
  rows_pos : 1 ≤ s.rows
  grid : (s.grid.length : Int) = s.cols * s.rows

/-- The coordinates are those of a cell. -/
def OnPage (s : Screen) (x y : Int) : Prop := 0 ≤ x ∧ x < s.cols ∧ 0 ≤ y ∧ y < s.rows

instance (s : Screen) (x y : Int) : Decidable (s.OnPage x y) :=
  inferInstanceAs (Decidable (_ ∧ _))

theorem at_off {s : Screen} {x y : Int} (h : ¬ s.OnPage x y) : s.at x y = blank := pageAt_off h

theorem onPage_of_width {s : Screen} {x y : Int} (h : (s.at x y).width ≠ 1) : s.OnPage x y := by
  by_contra hoff
  rw [at_off hoff] at h
  exact h rfl

@[simp, grind =] theorem erased_width (s : Screen) : s.erased.width = 1 := rfl

/-! ### Repainting -/

/-- `s'` is `s` with its page repainted: the cell at `x`, `y` is now `f x y`. -/
structure Repaints (s s' : Screen) (f : Int → Int → ScreenCell) : Prop where
  frame : s' = { s with grid := s'.grid }
  size : s'.grid.length = s.grid.length
  cells : ∀ x y, s.OnPage x y → s'.at x y = f x y

namespace Repaints

variable {s s' s'' : Screen} {f g : Int → Int → ScreenCell}

theorem refl (s : Screen) : Repaints s s s.at := ⟨rfl, rfl, fun _ _ _ => rfl⟩

theorem cols (h : Repaints s s' f) : s'.cols = s.cols := by rw [h.frame]
theorem rows (h : Repaints s s' f) : s'.rows = s.rows := by rw [h.frame]
theorem cx (h : Repaints s s' f) : s'.cx = s.cx := by rw [h.frame]
theorem cy (h : Repaints s s' f) : s'.cy = s.cy := by rw [h.frame]
theorem pen (h : Repaints s s' f) : s'.pen = s.pen := by rw [h.frame]

theorem erased (h : Repaints s s' f) : s'.erased = s.erased := by
  unfold Screen.erased
  rw [h.pen]

theorem onPage (h : Repaints s s' f) {x y : Int} : s'.OnPage x y ↔ s.OnPage x y := by
  unfold OnPage
  rw [h.cols, h.rows]

theorem sized (h : Repaints s s' f) (hs : s.Sized) : s'.Sized :=
  ⟨h.cols ▸ hs.cols_pos, h.rows ▸ hs.rows_pos, by rw [h.size, h.cols, h.rows]; exact hs.grid⟩

theorem congr (h : Repaints s s' f) (hfg : ∀ x y, s.OnPage x y → f x y = g x y) :
    Repaints s s' g :=
  ⟨h.frame, h.size, fun x y hxy => (h.cells x y hxy).trans (hfg x y hxy)⟩

/-- Two repaintings in a row: the second says what the cells are. -/
theorem trans (h : Repaints s s' f) (h' : Repaints s' s'' g) : Repaints s s'' g where
  frame := by
    rw [h'.frame, h.frame]
  size := h'.size.trans h.size
  cells x y hxy := h'.cells x y (h.onPage.2 hxy)

end Repaints

/-! ### What stays

The dimensions, and what waits outside while the alternate screen is shown, are the
business of three operations only. -/

/-- What only a resize and the alternate screen touch. -/
structure Outside where
  cols : Int
  rows : Int
  alt : Bool
  parked : List ScreenCell
  parkedCursor : SavedCursor
  parkedDecsc : SavedCursor

def outside (s : Screen) : Outside :=
  { cols := s.cols, rows := s.rows, alt := s.alt, parked := s.parked,
    parkedCursor := s.parkedCursor, parkedDecsc := s.parkedDecsc }

/-- With it, the wrap mode, and the history as long as the alternate screen is shown. -/
structure Kept where
  outside : Outside
  autowrap : Bool
  history : Option Scrollback

def kept (s : Screen) : Kept :=
  { outside := s.outside, autowrap := s.autowrap, history := if s.alt then s.scrollback else none }

/-- The screen without its page and its tab stops. -/
def framed (s : Screen) : Screen := { s with grid := [], tabs := [], fault := false }

theorem kept_of_framed {s s' : Screen} (h : s'.framed = s.framed) : s'.kept = s.kept := by
  have hkept : ∀ t : Screen, t.kept = t.framed.kept := fun _ => rfl
  rw [hkept, h, ← hkept]

/-- The operations that change cells or tab stops and nothing else. -/
def paints : ScreenOp → Bool
  | .setTab | .clearTab | .clearAllTabs | .eraseDisplay _ | .eraseLine _ | .eraseChars _
  | .insertChars _ | .deleteChars _ | .insertLines _ | .deleteLines _ => true
  | _ => false

section Kept

variable (s : Screen)

@[simp] theorem putCell_framed (x y : Int) (c : ScreenCell) :
    (s.putCell x y c).framed = s.framed := by
  unfold putCell
  simp only
  split <;> rfl

@[simp] theorem putTab_framed (x : Int) (on : Bool) : (s.putTab x on).framed = s.framed := by
  unfold putTab
  split <;> rfl

@[simp] theorem fill_framed (first last : Int) : (s.fill first last).framed = s.framed := by
  unfold fill
  split <;> rfl

@[simp] theorem rotate_framed (first cut last : Int) :
    (s.rotate first cut last).framed = s.framed := by
  unfold rotate
  split <;> rfl

@[simp] theorem clearWideAt_framed (x y : Int) : (s.clearWideAt x y).framed = s.framed := by
  unfold clearWideAt
  simp only
  repeat' split
  all_goals simp

@[simp] theorem breakWideAt_framed (x y : Int) : (s.breakWideAt x y).framed = s.framed := by
  unfold breakWideAt
  simp only
  repeat' split
  all_goals simp

@[simp] theorem scrollSliceUp_framed (top bottom n : Int) :
    (s.scrollSliceUp top bottom n).framed = s.framed := by
  unfold scrollSliceUp
  simp only
  repeat' split
  all_goals simp

@[simp] theorem scrollSliceDown_framed (top bottom n : Int) :
    (s.scrollSliceDown top bottom n).framed = s.framed := by
  unfold scrollSliceDown
  simp only
  repeat' split
  all_goals simp

theorem putUp_framed (c : Screen → Int → ScreenCell) (lo hi y : Int) :
    (forUp lo hi (fun t x => t.putCell x y (c t x)) s).framed = s.framed :=
  forUp_keeps framed (fun t x => putCell_framed t x y (c t x)) lo hi s

theorem putDown_framed (c : Screen → Int → ScreenCell) (lo hi y : Int) :
    (forDown lo hi (fun t x => t.putCell x y (c t x)) s).framed = s.framed :=
  forDown_keeps framed (fun t x => putCell_framed t x y (c t x)) lo hi s

@[simp] theorem eraseSpan_framed (x0 x1 y : Int) : (s.eraseSpan x0 x1 y).framed = s.framed := by
  unfold eraseSpan
  simp only
  repeat' split
  · rfl
  · rfl
  · rw [putUp_framed, clearWideAt_framed, clearWideAt_framed]

@[simp] theorem eraseRows_framed (lo hi : Int) : (s.eraseRows lo hi).framed = s.framed :=
  forUp_keeps framed (fun s y => eraseSpan_framed s 0 _ y) lo hi s

@[simp] theorem deposit_framed (cp w : Nat) : (s.deposit cp w).framed = s.framed := by
  unfold deposit
  simp only
  repeat' split
  all_goals simp

/-- What only paints leaves the rest of the screen as it is. -/
theorem step_framed (amb : Bool) {op : ScreenOp} (h : paints op = true) :
    (s.step amb op).framed = s.framed := by
  cases op with
  | setTab =>
      show s.setTab.framed = _
      unfold setTab
      split <;> simp
  | clearTab =>
      show s.clearTab.framed = _
      unfold clearTab
      split <;> simp
  | clearAllTabs => rfl
  | eraseDisplay mode =>
      show (s.eraseDisplay mode).framed = _
      unfold eraseDisplay
      repeat' split
      all_goals simp
  | eraseLine mode =>
      show (s.eraseLine mode).framed = _
      unfold eraseLine
      repeat' split
      all_goals simp
  | eraseChars n => exact eraseSpan_framed s _ _ _
  | insertChars n =>
      show (s.insertChars n).framed = _
      unfold insertChars
      simp only
      repeat' split
      · rfl
      · rw [putCell_framed, eraseSpan_framed, putDown_framed, breakWideAt_framed]
      · rw [eraseSpan_framed, putDown_framed, breakWideAt_framed]
  | deleteChars n =>
      show (s.deleteChars n).framed = _
      unfold deleteChars
      simp only
      split
      · rfl
      · rw [eraseSpan_framed, putUp_framed, breakWideAt_framed, breakWideAt_framed]
  | insertLines n =>
      show (s.insertLines n).framed = _
      unfold insertLines
      split <;> simp
  | deleteLines n =>
      show (s.deleteLines n).framed = _
      unfold deleteLines
      split <;> simp
  | _ => simp [paints] at h

@[simp] theorem pushTopLine_kept : s.pushTopLine.kept = s.kept := by
  unfold pushTopLine
  simp only
  repeat' split
  · rfl
  · next hcond _ =>
      -- off the alternate screen the history is free to change
      simp only [kept, outside, hcond.1, if_false, Bool.false_eq_true]
  · rfl
  · rfl

@[simp] theorem lineFeed_kept : s.lineFeed.kept = s.kept := by
  unfold lineFeed scrollUp
  simp only
  repeat' split
  · rw [kept_of_framed (scrollSliceUp_framed ..), pushTopLine_kept]
    rfl
  · rfl
  · rfl

@[simp] theorem reverseIndex_kept : s.reverseIndex.kept = s.kept := by
  unfold reverseIndex scrollDown
  simp only
  repeat' split
  · rw [kept_of_framed (scrollSliceDown_framed ..)]
    rfl
  · rfl
  · rfl

@[simp] theorem tabFrom_kept (left : Nat) (x : Int) :
    (tabFrom s left x).kept = s.kept := by
  induction left generalizing x with
  | zero => rfl
  | succ left ih =>
      unfold tabFrom
      repeat' split
      · rfl
      · exact ih (x + 1)
      · rfl

@[simp] theorem advance_kept (w : Nat) : (s.advance w).kept = s.kept := by
  unfold advance
  simp only
  split <;> rfl

@[simp] theorem wrapIfPending_kept : s.wrapIfPending.kept = s.kept := by
  unfold wrapIfPending
  split
  · rw [lineFeed_kept]
    rfl
  · rfl

@[simp] theorem print_kept (amb : Bool) (cp : Nat) : (s.print amb cp).kept = s.kept := by
  unfold print
  simp only
  repeat' split
  · rfl
  · simp
  · rw [advance_kept, kept_of_framed (deposit_framed ..), lineFeed_kept]
    exact wrapIfPending_kept s
  · rw [advance_kept, kept_of_framed (deposit_framed ..), wrapIfPending_kept]

/-- Every operation but the resize, the two changes of screen and the two that set
the wrap mode and the history. -/
theorem step_kept (amb : Bool) {op : ScreenOp} (hr : ∀ c r, op ≠ .resize c r)
    (he : op ≠ .enterAltScreen) (hl : op ≠ .leaveAltScreen) (ha : ∀ on, op ≠ .setAutowrap on)
    (hb : ∀ sb, op ≠ .setScrollback sb) :
    (s.step amb op).kept = s.kept := by
  by_cases hpaints : paints op = true
  · exact kept_of_framed (s.step_framed amb hpaints)
  cases op with
  | print cp => exact print_kept s amb cp
  | lineFeed => exact lineFeed_kept s
  | index => exact lineFeed_kept s
  | nextLine => exact lineFeed_kept s.carriageReturn
  | reverseIndex => exact reverseIndex_kept s
  | backspace =>
      show s.backspace.kept = _
      unfold backspace
      repeat' split
      all_goals rfl
  | tab => exact tabFrom_kept _ _ _
  | setScrollRegion top bottom =>
      show (s.setScrollRegion top bottom).kept = _
      unfold setScrollRegion
      simp only
      split <;> rfl
  | enterAltScreen => exact absurd rfl he
  | leaveAltScreen => exact absurd rfl hl
  | resize cols rows => exact absurd rfl (hr cols rows)
  | setAutowrap on => exact absurd rfl (ha on)
  | setScrollback sb => exact absurd rfl (hb sb)
  | _ => first | rfl | exact absurd rfl hpaints

theorem step_outside (amb : Bool) {op : ScreenOp} (hr : ∀ c r, op ≠ .resize c r)
    (he : op ≠ .enterAltScreen) (hl : op ≠ .leaveAltScreen) :
    (s.step amb op).outside = s.outside := by
  by_cases ha : ∃ on, op = .setAutowrap on
  · obtain ⟨on, rfl⟩ := ha
    rfl
  by_cases hb : ∃ sb, op = .setScrollback sb
  · obtain ⟨sb, rfl⟩ := hb
    rfl
  exact congrArg Kept.outside
    (s.step_kept amb hr he hl (fun on h => ha ⟨on, h⟩) fun sb h => hb ⟨sb, h⟩)

end Kept

/-! ### Single cells -/

theorem inBounds_of_onPage {s : Screen} (hs : s.Sized) {x y : Int} (h : s.OnPage x y) :
    InBounds s.grid (y * s.cols + x) := by
  obtain ⟨hx0, hx, hy0, hy⟩ := h
  have hw : 0 ≤ s.cols := by have := hs.cols_pos; omega
  exact ⟨rowMajor_nonneg hw hx0 hy0, hs.grid ▸ rowMajor_lt hw hx hy⟩

theorem putCell_repaints {s : Screen} (hs : s.Sized) {x y : Int} (h : s.OnPage x y)
    (c : ScreenCell) :
    Repaints s (s.putCell x y c) fun x' y' => if x' = x ∧ y' = y then c else s.at x' y' := by
  have hin := inBounds_of_onPage hs h
  have heq : s.putCell x y c = { s with grid := s.grid.set (y * s.cols + x).toNat c } := if_pos hin
  rw [heq]
  refine ⟨rfl, by simp, ?_⟩
  intro x' y' h'
  show pageAt s.cols s.rows (s.grid.set _ c) x' y' = _
  rw [pageAt_of_mem h'.1 h'.2.1 h'.2.2.1 h'.2.2.2, readAt_set hin]
  by_cases hxy : x' = x ∧ y' = y
  · rw [if_pos hxy, if_pos]
    rw [hxy.1, hxy.2]
  · rw [if_neg hxy, if_neg (mt (rowMajor_inj h'.1 h'.2.1 h.1 h.2.1).1 hxy)]
    exact (pageAt_of_mem h'.1 h'.2.1 h'.2.2.1 h'.2.2.2).symm

/-- Only a neighbour of `x` is ever erased: the right one when `x` holds a first
half, the left one when it holds a second half. -/
theorem clearWideAt_repaints {s : Screen} (hs : s.Sized) (x y : Int) :
    Repaints s (s.clearWideAt x y) fun x' y' =>
      if y' = y ∧ ((s.at x y).width = 2 ∧ x' = x + 1 ∨ (s.at x y).width = 0 ∧ x' = x - 1) then
        s.erased
      else s.at x' y' := by
  unfold clearWideAt
  by_cases h2 : (s.at x y).width = 2 ∧ x + 1 < s.cols
  · have hp := onPage_of_width (s := s) (x := x) (y := y) (by omega)
    have hp1 : s.OnPage (x + 1) y := ⟨by have := hp.1; omega, h2.2, hp.2.2⟩
    rw [if_pos h2]
    refine (putCell_repaints hs hp1 _).congr ?_
    intro x' y' _
    have hw := h2.1
    simp only [hw, true_and, show ¬ (2 = 0) by omega, false_and, or_false]
    simp only [and_comm]
  · rw [if_neg h2]
    by_cases h0 : (s.at x y).width = 0 ∧ x > 0
    · have hp := onPage_of_width (s := s) (x := x) (y := y) (by omega)
      have hp1 : s.OnPage (x - 1) y := ⟨by omega, by have := hp.2.1; omega, hp.2.2⟩
      rw [if_pos h0]
      refine (putCell_repaints hs hp1 _).congr ?_
      intro x' y' _
      have hw := h0.1
      simp only [hw, true_and, show ¬ (0 = 2) by omega, false_and, false_or]
      simp only [and_comm]
    · rw [if_neg h0]
      refine (Repaints.refl s).congr ?_
      intro x' y' hxy
      rw [if_neg]
      rintro ⟨-, ⟨hw, rfl⟩ | ⟨hw, rfl⟩⟩
      · exact h2 ⟨hw, hxy.2.1⟩
      · exact h0 ⟨hw, by have := hxy.1; omega⟩

theorem breakWideAt_repaints {s : Screen} (hs : s.Sized) (x y : Int) :
    Repaints s (s.breakWideAt x y) fun x' y' =>
      if y' = y ∧ ((s.at x y).width = 2 ∧ x + 1 < s.cols ∧ (x' = x ∨ x' = x + 1) ∨
          (s.at x y).width = 0 ∧ 0 < x ∧ (x' = x ∨ x' = x - 1)) then s.erased
      else s.at x' y' := by
  unfold breakWideAt
  by_cases h2 : (s.at x y).width = 2 ∧ x + 1 < s.cols
  · have hp := onPage_of_width (s := s) (x := x) (y := y) (by omega)
    have hp1 : s.OnPage (x + 1) y := ⟨by have := hp.1; omega, h2.2, hp.2.2⟩
    have hr := putCell_repaints hs hp s.erased
    rw [if_pos h2]
    refine (hr.trans (putCell_repaints (hr.sized hs) (hr.onPage.2 hp1) s.erased)).congr ?_
    intro x' y' hxy
    have hw := h2.1
    rw [hr.cells x' y' hxy]
    grind
  · rw [if_neg h2]
    by_cases h0 : (s.at x y).width = 0 ∧ x > 0
    · have hp := onPage_of_width (s := s) (x := x) (y := y) (by omega)
      have hp1 : s.OnPage (x - 1) y := ⟨by omega, by have := hp.2.1; omega, hp.2.2⟩
      have hr := putCell_repaints hs hp s.erased
      rw [if_pos h0]
      refine (hr.trans (putCell_repaints (hr.sized hs) (hr.onPage.2 hp1) s.erased)).congr ?_
      intro x' y' hxy
      have hw := h0.1
      rw [hr.cells x' y' hxy]
      grind
    · rw [if_neg h0]
      refine (Repaints.refl s).congr ?_
      intro x' y' hxy
      rw [if_neg]
      rintro ⟨-, ⟨hw, hlt, -⟩ | ⟨hw, hlt, -⟩⟩
      · exact h2 ⟨hw, hlt⟩
      · exact h0 ⟨hw, hlt⟩

/-! ### Spans and rows -/

/-- The erasing loop of a span, between two columns of the page. -/
theorem eraseLoop_repaints {s : Screen} (hs : s.Sized) {x0 x1 y : Int} (h0 : 0 ≤ x0)
    (h01 : x0 ≤ x1) (h1 : x1 ≤ s.cols) (hy0 : 0 ≤ y) (hy : y < s.rows) :
    Repaints s (forUp x0 x1 (fun s x => s.putCell x y s.erased) s) fun x' y' =>
      if y' = y ∧ x0 ≤ x' ∧ x' < x1 then s.erased else s.at x' y' := by
  -- the columns below `i` are erased
  refine forUp_rule (P := fun i t => Repaints s t fun x' y' =>
    if y' = y ∧ x0 ≤ x' ∧ x' < i then s.erased else s.at x' y') h01 ?_ ?_
  · refine (Repaints.refl s).congr ?_
    intro x' y' _
    rw [if_neg (by omega)]
  · intro i t hi0 hi1 ht
    have hp : s.OnPage i y := ⟨by omega, by omega, hy0, hy⟩
    refine (ht.trans (putCell_repaints (ht.sized hs) (ht.onPage.2 hp) t.erased)).congr ?_
    intro x' y' hxy
    rw [ht.cells x' y' hxy, ht.erased]
    grind

/-- An erased span, and the two halves its ends would leave alone. The second end is
looked at after the first has been dealt with. -/
theorem eraseSpan_repaints {s : Screen} (hs : s.Sized) {x0 x1 y : Int} (h0 : 0 ≤ x0)
    (h1 : x1 < s.cols) (h01 : x0 ≤ x1) (hy0 : 0 ≤ y) (hy : y < s.rows) :
    Repaints s (s.eraseSpan x0 x1 y) fun x' y' =>
      if y' = y ∧ (x0 ≤ x' ∧ x' ≤ x1 ∨ (s.at x0 y).width = 0 ∧ x' = x0 - 1 ∨
          (s.at x1 y).width = 2 ∧ x' = x1 + 1 ∧ ¬ ((s.at x0 y).width = 2 ∧ x1 = x0 + 1)) then
        s.erased
      else s.at x' y' := by
  have heq : s.eraseSpan x0 x1 y =
      forUp x0 (x1 + 1) (fun s x => s.putCell x y s.erased)
        ((s.clearWideAt x0 y).clearWideAt x1 y) := by
    unfold eraseSpan
    rw [if_neg (by omega), Int.max_eq_right h0, Int.min_eq_right (by omega), if_neg (by omega)]
  have ha := clearWideAt_repaints hs x0 y
  have hb := ha.trans (clearWideAt_repaints (ha.sized hs) x1 y)
  have hc := hb.trans (eraseLoop_repaints (hb.sized hs) h0 (show x0 ≤ x1 + 1 by omega)
    (by rw [hb.cols]; omega) hy0 (by rw [hb.rows]; exact hy))
  rw [heq]
  refine hc.congr ?_
  intro x' y' hxy
  have hx1 := ha.cells x1 y ⟨by omega, h1, hy0, hy⟩
  rw [hb.erased, hb.cells x' y' hxy, ha.erased, ha.cells x' y' hxy, hx1]
  grind

/-- Any span is refused, or is one between two columns of the page. -/
theorem eraseSpan_cases (s : Screen) (x0 x1 y : Int) :
    s.eraseSpan x0 x1 y = s ∨
    ∃ a b, 0 ≤ a ∧ a ≤ b ∧ b < s.cols ∧ 0 ≤ y ∧ y < s.rows ∧
      s.eraseSpan x0 x1 y = s.eraseSpan a b y := by
  by_cases hy : y < 0 ∨ y ≥ s.rows
  · exact .inl (if_pos hy)
  · by_cases hx : max 0 x0 > min (s.cols - 1) x1
    · exact .inl ((if_neg hy).trans (if_pos hx))
    · refine .inr ⟨max 0 x0, min (s.cols - 1) x1, by omega, by omega, by omega, by omega, by omega,
        ?_⟩
      unfold eraseSpan
      rw [if_neg hy, if_neg hy, Int.max_eq_right (show 0 ≤ max 0 x0 by omega),
        Int.min_eq_right (show min (s.cols - 1) x1 ≤ s.cols - 1 by omega)]

/-- Whatever its ends, a span repaints the page. -/
theorem eraseSpan_paints {s : Screen} (hs : s.Sized) (x0 x1 y : Int) :
    ∃ f, Repaints s (s.eraseSpan x0 x1 y) f := by
  obtain heq | ⟨a, b, ha, hab, hb, hy0, hy, heq⟩ := eraseSpan_cases s x0 x1 y
  · rw [heq]
    exact ⟨_, Repaints.refl s⟩
  · rw [heq]
    exact ⟨_, eraseSpan_repaints hs ha hb hab hy0 hy⟩

/-! ### Rotated slices -/

/-- A slice of whole rows lies in the page. -/
theorem slice_mem {s : Screen} (hs : s.Sized) {lo hi : Int} (h0 : 0 ≤ lo) (h : lo ≤ hi)
    (h1 : hi ≤ s.rows) :
    0 ≤ lo * s.cols ∧ lo * s.cols ≤ hi * s.cols ∧ hi * s.cols ≤ s.grid.length := by
  have hw : 0 ≤ s.cols := by have := hs.cols_pos; omega
  refine ⟨Int.mul_nonneg h0 hw, Int.mul_le_mul_of_nonneg_right h hw, ?_⟩
  rw [hs.grid, Int.mul_comm s.cols]
  exact Int.mul_le_mul_of_nonneg_right h1 hw

theorem fill_repaints {s : Screen} (hs : s.Sized) {lo hi : Int} (h0 : 0 ≤ lo) (h : lo ≤ hi)
    (h1 : hi ≤ s.rows) :
    Repaints s (s.fill (lo * s.cols) (hi * s.cols)) fun x' y' =>
      if lo ≤ y' ∧ y' < hi then s.erased else s.at x' y' := by
  obtain ⟨hb0, hb1, hb2⟩ := slice_mem hs h0 h h1
  have heq : s.fill (lo * s.cols) (hi * s.cols) =
      { s with grid := fillRange s.grid (lo * s.cols) (hi * s.cols) s.erased } :=
    if_pos ⟨hb0, hb1, hb2⟩
  rw [heq]
  refine ⟨rfl, length_fillRange hb0 hb1 hb2, ?_⟩
  intro x y hxy
  obtain ⟨hx0, hx, hy0, hy⟩ := hxy
  show pageAt s.cols s.rows (fillRange _ _ _ _) x y = _
  rw [pageAt_of_mem hx0 hx hy0 hy, readAt_fillRange hb0 hb1 hb2]
  simp only [rowMajor_row_le hx0 hx, rowMajor_lt_row hx0 hx]
  split
  · rfl
  · exact (pageAt_of_mem hx0 hx hy0 hy).symm

/-- A rotation by whole rows moves the rows. -/
theorem rotate_repaints {s : Screen} (hs : s.Sized) {lo cut hi : Int} (h0 : 0 ≤ lo)
    (h : lo ≤ cut) (h' : cut ≤ hi) (h1 : hi ≤ s.rows) :
    Repaints s (s.rotate (lo * s.cols) (cut * s.cols) (hi * s.cols)) fun x' y' =>
      if lo ≤ y' ∧ y' < lo + (hi - cut) then s.at x' (y' + (cut - lo))
      else if lo + (hi - cut) ≤ y' ∧ y' < hi then s.at x' (y' - (hi - cut))
      else s.at x' y' := by
  obtain ⟨hb0, hb1, -⟩ := slice_mem hs h0 h (show cut ≤ s.rows by omega)
  obtain ⟨-, hb2, hb3⟩ := slice_mem hs (show 0 ≤ cut by omega) h' h1
  have heq : s.rotate (lo * s.cols) (cut * s.cols) (hi * s.cols) =
      { s with grid := rotateRange s.grid (lo * s.cols) (cut * s.cols) (hi * s.cols) } :=
    if_pos ⟨hb0, hb1, hb2, hb3⟩
  rw [heq]
  refine ⟨rfl, length_rotateRange hb0 hb1 hb2 hb3, ?_⟩
  intro x y hxy
  obtain ⟨hx0, hx, hy0, hy⟩ := hxy
  show pageAt s.cols s.rows (rotateRange _ _ _ _) x y = _
  have hmid : lo * s.cols + (hi * s.cols - cut * s.cols) = (lo + (hi - cut)) * s.cols := by ring
  have hup : y * s.cols + x + (cut * s.cols - lo * s.cols) = (y + (cut - lo)) * s.cols + x := by
    ring
  have hdown : y * s.cols + x - (hi * s.cols - cut * s.cols) = (y - (hi - cut)) * s.cols + x := by
    ring
  rw [pageAt_of_mem hx0 hx hy0 hy, readAt_rotateRange hb0 hb1 hb2 hb3, hmid, hup, hdown]
  simp only [rowMajor_row_le hx0 hx, rowMajor_lt_row hx0 hx]
  split
  · exact (pageAt_of_mem hx0 hx (by omega) (by omega)).symm
  · split
    · exact (pageAt_of_mem hx0 hx (by omega) (by omega)).symm
    · exact (pageAt_of_mem hx0 hx hy0 hy).symm

theorem scrollSliceUp_repaints {s : Screen} (hs : s.Sized) {top bottom n : Int} (hn : 0 < n)
    (h0 : 0 ≤ top) (h1 : bottom < s.rows) (h : top ≤ bottom) :
    Repaints s (s.scrollSliceUp top bottom n) fun x y =>
      if top ≤ y ∧ y ≤ bottom then if y + n ≤ bottom then s.at x (y + n) else s.erased
      else s.at x y := by
  unfold scrollSliceUp
  rw [if_neg (by omega)]
  by_cases hall : n ≥ bottom - top + 1
  · rw [if_pos hall]
    refine (fill_repaints hs h0 (by omega) (by omega)).congr ?_
    intro x y _
    grind
  · rw [if_neg hall, show top * s.cols + n * s.cols = (top + n) * s.cols by ring,
      show (bottom + 1) * s.cols - n * s.cols = (bottom + 1 - n) * s.cols by ring]
    have hr := rotate_repaints hs h0 (show top ≤ top + n by omega)
      (show top + n ≤ bottom + 1 by omega) (by omega)
    have hf := fill_repaints (hr.sized hs) (show 0 ≤ bottom + 1 - n by omega)
      (show bottom + 1 - n ≤ bottom + 1 by omega) (by rw [hr.rows]; omega)
    rw [hr.cols] at hf
    refine (hr.trans hf).congr ?_
    intro x y hxy
    rw [hr.cells x y hxy, hr.erased]
    -- the rows that come up, the rows recycled and then erased, and the rest
    split_ifs <;> first | rfl | omega | (congr 1; omega)

theorem scrollSliceDown_repaints {s : Screen} (hs : s.Sized) {top bottom n : Int} (hn : 0 < n)
    (h0 : 0 ≤ top) (h1 : bottom < s.rows) (h : top ≤ bottom) :
    Repaints s (s.scrollSliceDown top bottom n) fun x y =>
      if top ≤ y ∧ y ≤ bottom then if top ≤ y - n then s.at x (y - n) else s.erased
      else s.at x y := by
  unfold scrollSliceDown
  rw [if_neg (by omega)]
  by_cases hall : n ≥ bottom - top + 1
  · rw [if_pos hall]
    refine (fill_repaints hs h0 (by omega) (by omega)).congr ?_
    intro x y _
    grind
  · rw [if_neg hall, show (bottom + 1) * s.cols - n * s.cols = (bottom + 1 - n) * s.cols by ring,
      show top * s.cols + n * s.cols = (top + n) * s.cols by ring]
    have hr := rotate_repaints hs h0 (show top ≤ bottom + 1 - n by omega)
      (show bottom + 1 - n ≤ bottom + 1 by omega) (by omega)
    have hf := fill_repaints (hr.sized hs) h0 (show top ≤ top + n by omega)
      (by rw [hr.rows]; omega)
    rw [hr.cols] at hf
    refine (hr.trans hf).congr ?_
    intro x y hxy
    rw [hr.cells x y hxy, hr.erased]
    split_ifs <;> first | rfl | omega | (congr 1; omega)

/-! ### Printing -/

/-- A character written at the cursor: its own cells, and the halves it orphans. -/
theorem deposit_repaints {s : Screen} (hs : s.Sized) (hc : s.OnPage s.cx s.cy) (cp w : Nat) :
    Repaints s (s.deposit cp w) fun x y =>
      if y = s.cy ∧ x = s.cx then { ch := cp, width := w, style := s.pen }
      else if y = s.cy ∧ x = s.cx + 1 ∧ w = 2 then { width := 0, style := s.pen }
      else if y = s.cy ∧ ((s.at s.cx s.cy).width = 0 ∧ x = s.cx - 1 ∨
          (s.at s.cx s.cy).width = 2 ∧ x = s.cx + 1 ∨
          w = 2 ∧ (s.at s.cx s.cy).width ≠ 2 ∧ (s.at (s.cx + 1) s.cy).width = 2 ∧ x = s.cx + 2) then
        s.erased
      else s.at x y := by
  have ha := clearWideAt_repaints hs s.cx s.cy
  unfold deposit
  simp only [ha.cols]
  by_cases hw : w = 2 ∧ s.cx + 1 < s.cols
  · rw [if_pos hw]
    have hp1 : s.OnPage (s.cx + 1) s.cy := ⟨by have := hc.1; omega, hw.2, hc.2.2⟩
    have hb := ha.trans (clearWideAt_repaints (ha.sized hs) (s.cx + 1) s.cy)
    have hd := hb.trans (putCell_repaints (hb.sized hs) (hb.onPage.2 hc)
      { ch := cp, width := w, style := s.pen })
    have he := hd.trans (putCell_repaints (hd.sized hs) (hd.onPage.2 hp1)
      { width := 0, style := s.pen })
    rw [if_pos (by rw [hb.pen, hd.cols]; exact hw), hb.pen, hd.pen]
    refine he.congr ?_
    intro x y hxy
    rw [hd.cells x y hxy, hb.cells x y hxy, ha.erased, ha.cells x y hxy, ha.cells _ _ hp1]
    have hw2 := hw.1
    grind
  · rw [if_neg hw]
    have hb := ha.trans (putCell_repaints (ha.sized hs) (ha.onPage.2 hc)
      { ch := cp, width := w, style := s.pen })
    rw [ha.pen, if_neg (by rw [hb.cols]; exact hw)]
    refine hb.congr ?_
    intro x y hxy
    rw [ha.cells x y hxy]
    have hx := hxy.2.1
    grind

/-! ### Shifting the end of a line -/

/-- The cells from `lo` on, pushed right by `n`. -/
theorem shiftRight_repaints {s : Screen} (hs : s.Sized) {lo n y : Int} (hlo : 0 ≤ lo) (hn : 0 < n)
    (hle : lo + n ≤ s.cols) (hy0 : 0 ≤ y) (hy : y < s.rows) :
    Repaints s (forDown (lo + n) s.cols (fun t x => t.putCell x y (t.at (x - n) y)) s)
      fun x' y' => if y' = y ∧ lo + n ≤ x' then s.at (x' - n) y else s.at x' y' := by
  -- going down, the columns from `i` on have moved and their sources are still intact
  refine forDown_rule (P := fun i t => Repaints s t fun x' y' =>
    if y' = y ∧ i ≤ x' then s.at (x' - n) y else s.at x' y') hle ?_ ?_
  · refine (Repaints.refl s).congr ?_
    intro x' y' hxy
    rw [if_neg (by have := hxy.2.1; omega)]
  · intro i t hi0 hi1 ht
    have hp : s.OnPage i y := ⟨by omega, hi1, hy0, hy⟩
    have hsrc : s.OnPage (i - n) y := ⟨by omega, by omega, hy0, hy⟩
    refine (ht.trans (putCell_repaints (ht.sized hs) (ht.onPage.2 hp) _)).congr ?_
    intro x' y' hxy
    rw [ht.cells x' y' hxy, ht.cells _ _ hsrc, if_neg (show ¬ (y = y ∧ i + 1 ≤ i - n) by omega)]
    grind

/-- The cells from `lo + n` on, brought back left by `n`. -/
theorem shiftLeft_repaints {s : Screen} (hs : s.Sized) {lo n y : Int} (hlo : 0 ≤ lo) (hn : 0 < n)
    (hle : lo + n ≤ s.cols) (hy0 : 0 ≤ y) (hy : y < s.rows) :
    Repaints s (forUp lo (s.cols - n) (fun t x => t.putCell x y (t.at (x + n) y)) s)
      fun x' y' =>
        if y' = y ∧ lo ≤ x' ∧ x' < s.cols - n then s.at (x' + n) y else s.at x' y' := by
  refine forUp_rule (P := fun i t => Repaints s t fun x' y' =>
    if y' = y ∧ lo ≤ x' ∧ x' < i then s.at (x' + n) y else s.at x' y')
    (show lo ≤ s.cols - n by omega) ?_ ?_
  · refine (Repaints.refl s).congr ?_
    intro x' y' _
    rw [if_neg (by omega)]
  · intro i t hi0 hi1 ht
    have hp : s.OnPage i y := ⟨by omega, by omega, hy0, hy⟩
    have hsrc : s.OnPage (i + n) y := ⟨by omega, by omega, hy0, hy⟩
    refine (ht.trans (putCell_repaints (ht.sized hs) (ht.onPage.2 hp) _)).congr ?_
    intro x' y' hxy
    rw [ht.cells x' y' hxy, ht.cells _ _ hsrc,
      if_neg (show ¬ (y = y ∧ lo ≤ i + n ∧ i + n < i) by omega)]
    grind

/-- A first half with no room for its second one is erased. -/
theorem dropHead_repaints {s u : Screen} {f : Int → Int → ScreenCell} (hs : s.Sized)
    (hr : Repaints s u f) {px py : Int} (hp : s.OnPage px py) :
    Repaints s (if (u.at px py).width = 2 then u.putCell px py u.erased else u) fun x y =>
      if (x = px ∧ y = py) ∧ (f px py).width = 2 then s.erased else f x y := by
  rw [hr.cells px py hp]
  by_cases hw : (f px py).width = 2
  · rw [if_pos hw]
    refine (hr.trans (putCell_repaints (hr.sized hs) (hr.onPage.2 hp) _)).congr ?_
    intro x y hxy
    rw [hr.erased, hr.cells x y hxy]
    simp only [hw, and_true]
  · rw [if_neg hw]
    refine hr.congr ?_
    intro x y _
    rw [if_neg (fun h => hw h.2)]

/-- ICH. The erasure of the opened gap still sees the characters that were there: a
first half on its last column takes the cell to the right of the gap with it. -/
theorem insertChars_repaints {s : Screen} (hs : s.Sized) (hc : s.OnPage s.cx s.cy) {n k : Int}
    (hn : 0 < n) (hk : k = min n (s.cols - s.cx)) {r : Screen} (hr : r = s.breakWideAt s.cx s.cy) :
    Repaints s (s.insertChars n) fun x y =>
      if y ≠ s.cy then s.at x y
      else if s.cx ≤ x ∧ x < s.cx + k then s.erased
      else if x = s.cx - 1 ∧ (r.at s.cx s.cy).width = 0 then s.erased
      else if x = s.cx + k ∧ (r.at (s.cx + k - 1) s.cy).width = 2 ∧
          ¬ ((r.at s.cx s.cy).width = 2 ∧ k = 2) then s.erased
      else if s.cx + k ≤ x then
        if x = s.cols - 1 ∧ (r.at (x - k) s.cy).width = 2 then s.erased else r.at (x - k) s.cy
      else r.at x s.cy := by
  obtain ⟨hx0, hx, hy0, hy⟩ := hc
  have hk0 : 0 < k := by omega
  have hkc : s.cx + k ≤ s.cols := by omega
  have hbr := breakWideAt_repaints hs s.cx s.cy
  rw [← hr] at hbr
  have hrow : ∀ x y, s.OnPage x y → y ≠ s.cy → r.at x y = s.at x y := by
    intro x y hxy hne
    rw [hbr.cells x y hxy, if_neg (fun h => hne h.1)]
  unfold insertChars
  rw [if_neg (by omega)]
  simp only [← hk, ← hr]
  -- the shift, then the gap
  have hsh := hbr.trans (shiftRight_repaints (hbr.sized hs) hx0 hk0
    (by rw [hbr.cols]; exact hkc) hy0 (by rw [hbr.rows]; exact hy))
  generalize ht : forDown _ _ _ r = t at hsh ⊢
  have hsp := hsh.trans (eraseSpan_repaints (hsh.sized hs) hx0
    (show s.cx + k - 1 < t.cols by rw [hsh.cols]; omega) (by omega) hy0
    (by rw [hsh.rows]; exact hy))
  generalize hu : t.eraseSpan _ _ _ = u at hsp ⊢
  have hgap : Repaints s u fun x y =>
      if y ≠ s.cy then s.at x y
      else if s.cx ≤ x ∧ x < s.cx + k then s.erased
      else if x = s.cx - 1 ∧ (r.at s.cx s.cy).width = 0 then s.erased
      else if x = s.cx + k ∧ (r.at (s.cx + k - 1) s.cy).width = 2 ∧
          ¬ ((r.at s.cx s.cy).width = 2 ∧ k = 2) then s.erased
      else if s.cx + k ≤ x then r.at (x - k) s.cy
      else r.at x s.cy := by
    refine hsp.congr ?_
    intro x y hxy
    have hg := hsh.cells s.cx s.cy ⟨hx0, hx, hy0, hy⟩
    have he := hsh.cells (s.cx + k - 1) s.cy ⟨by omega, by omega, hy0, hy⟩
    rw [if_neg (by omega)] at hg he
    rw [hg, he, hsh.erased, hsh.cells x y hxy]
    have hne := hrow x y hxy
    clear hsp hsh hbr
    grind
  -- the half pushed against the right edge
  rw [hsp.cols]
  refine (dropHead_repaints hs hgap ⟨by omega, by omega, hy0, hy⟩).congr ?_
  intro x y _
  clear hgap hsp hsh hbr hrow hr
  by_cases hlast : x = s.cols - 1 ∧ y = s.cy
  · obtain ⟨rfl, rfl⟩ := hlast
    grind
  · grind

/-- DCH. The erasure of the vacated end still sees the characters that were there: a
second half on its first column takes the cell to its left with it. -/
theorem deleteChars_repaints {s : Screen} (hs : s.Sized) (hc : s.OnPage s.cx s.cy) {n k : Int}
    (hn : 0 < n) (hk : k = min n (s.cols - s.cx)) {r : Screen}
    (hr : r = (s.breakWideAt s.cx s.cy).breakWideAt (s.cx + k) s.cy) :
    Repaints s (s.deleteChars n) fun x y =>
      if y ≠ s.cy then s.at x y
      else if s.cols - k ≤ x then s.erased
      else if x = s.cols - k - 1 ∧ (r.at (s.cols - k) s.cy).width = 0 then s.erased
      else if s.cx ≤ x then r.at (x + k) s.cy
      else r.at x s.cy := by
  obtain ⟨hx0, hx, hy0, hy⟩ := hc
  have hk0 : 0 < k := by omega
  have hkc : s.cx + k ≤ s.cols := by omega
  have hb0 := breakWideAt_repaints hs s.cx s.cy
  have hbr := hb0.trans (breakWideAt_repaints (hb0.sized hs) (s.cx + k) s.cy)
  rw [← hr] at hbr
  have hrow : ∀ x y, s.OnPage x y → y ≠ s.cy → r.at x y = s.at x y := by
    intro x y hxy hne
    rw [hbr.cells x y hxy, if_neg (fun h => hne h.1), hb0.cells x y hxy,
      if_neg (fun h => hne h.1)]
  unfold deleteChars
  rw [if_neg (by omega)]
  simp only [← hk, ← hr]
  have hsh := hbr.trans (shiftLeft_repaints (hbr.sized hs) hx0 hk0
    (by rw [hbr.cols]; exact hkc) hy0 (by rw [hbr.rows]; exact hy))
  rw [hbr.cols] at hsh ⊢
  generalize ht : forUp _ _ _ r = t at hsh ⊢
  rw [hsh.cols]
  have hsp := hsh.trans (eraseSpan_repaints (hsh.sized hs) (show 0 ≤ s.cols - k by omega)
    (show s.cols - 1 < t.cols by rw [hsh.cols]; omega) (by omega) hy0
    (by rw [hsh.rows]; exact hy))
  refine hsp.congr ?_
  intro x y hxy
  have hg := hsh.cells (s.cols - k) s.cy ⟨by omega, by omega, hy0, hy⟩
  rw [if_neg (by omega)] at hg
  rw [hg, hsh.erased, hsh.cells x y hxy]
  have hne := hrow x y hxy
  have hxc := hxy.2.1
  clear hsp hsh hbr hb0
  grind

/-! ### Cutting a page to new dimensions -/

/-- A draft of `cols` by `rows` cells, given by `f`, built without leaving a page. -/
structure Draws (cols rows : Int) (d : Draft) (f : Int → Int → ScreenCell) : Prop where
  safe : d.fault = false
  size : (d.out.length : Int) = cols * rows
  cells : ∀ x y, 0 ≤ x → x < cols → 0 ≤ y → y < rows → pageAt cols rows d.out x y = f x y

namespace Draws

variable {cols rows : Int} {d : Draft} {f g : Int → Int → ScreenCell}

theorem congr (h : Draws cols rows d f)
    (hfg : ∀ x y, 0 ≤ x → x < cols → 0 ≤ y → y < rows → f x y = g x y) : Draws cols rows d g :=
  ⟨h.safe, h.size, fun x y hx0 hx hy0 hy =>
    (h.cells x y hx0 hx hy0 hy).trans (hfg x y hx0 hx hy0 hy)⟩

theorem inBounds (h : Draws cols rows d f) {x y : Int} (hx0 : 0 ≤ x) (hx : x < cols) (hy0 : 0 ≤ y)
    (hy : y < rows) : InBounds d.out (y * cols + x) :=
  ⟨rowMajor_nonneg (by omega) hx0 hy0, h.size ▸ rowMajor_lt (by omega) hx hy⟩

theorem put (h : Draws cols rows d f) {x y : Int} (hx0 : 0 ≤ x) (hx : x < cols) (hy0 : 0 ≤ y)
    (hy : y < rows) (c : ScreenCell) :
    Draws cols rows (d.put (y * cols + x) c) fun x' y' =>
      if x' = x ∧ y' = y then c else f x' y' := by
  have hin := h.inBounds hx0 hx hy0 hy
  have heq : d.put (y * cols + x) c = { d with out := d.out.set (y * cols + x).toNat c } :=
    if_pos hin
  rw [heq]
  refine ⟨h.safe, by simpa using h.size, ?_⟩
  intro x' y' hx0' hx' hy0' hy'
  rw [pageAt_of_mem hx0' hx' hy0' hy', readAt_set hin, ← h.cells x' y' hx0' hx' hy0' hy']
  by_cases hxy : x' = x ∧ y' = y
  · rw [if_pos hxy, if_pos]
    rw [hxy.1, hxy.2]
  · rw [if_neg hxy, if_neg (mt (rowMajor_inj hx0' hx' hx0 hx).1 hxy)]
    exact (pageAt_of_mem hx0' hx' hy0' hy').symm

end Draws

theorem pageAt_replicate {cols rows : Int} (c : ScreenCell) {x y : Int} (hx0 : 0 ≤ x)
    (hx : x < cols) (hy0 : 0 ≤ y) (hy : y < rows) :
    pageAt cols rows (List.replicate (cols * rows).toNat c) x y = c := by
  have h0 := rowMajor_nonneg (show 0 ≤ cols by omega) hx0 hy0
  have h1 := rowMajor_lt (show 0 ≤ cols by omega) hx hy
  rw [pageAt_of_mem hx0 hx hy0 hy, readAt_replicate, if_pos ⟨h0, by omega⟩]

theorem length_erasedPage (s : Screen) {cols rows : Int} (hc : 0 ≤ cols) (hr : 0 ≤ rows) :
    ((s.erasedPage cols rows).length : Int) = cols * rows := by
  have := Int.mul_nonneg hc hr
  simp only [erasedPage, List.length_replicate]
  omega

/-- A row copied up to the cut. -/
theorem copyRow_draws {s : Screen} {page : List ScreenCell}
    (hpage : (page.length : Int) = s.cols * s.rows) {cols rows keep y : Int} {d : Draft}
    {f : Int → Int → ScreenCell} (h : Draws cols rows d f) (hk0 : 0 < keep) (hk : keep ≤ cols)
    (hks : keep ≤ s.cols) (hy0 : 0 ≤ y) (hy : y < rows) (hys : y < s.rows) :
    Draws cols rows (s.copyRow page cols keep d y) fun x' y' =>
      if y' = y ∧ x' < keep then
        if x' = keep - 1 ∧ (pageAt s.cols s.rows page x' y).width = 2 then s.erased
        else pageAt s.cols s.rows page x' y
      else f x' y' := by
  have hloop : Draws cols rows (forUp 0 keep (s.copyCell page cols y) d) fun x' y' =>
      if y' = y ∧ x' < keep then pageAt s.cols s.rows page x' y else f x' y' := by
    refine forUp_rule (P := fun i d => Draws cols rows d fun x' y' =>
      if y' = y ∧ x' < i then pageAt s.cols s.rows page x' y else f x' y') (by omega) ?_ ?_
    · refine h.congr ?_
      intro x' y' hx0 _ _ _
      rw [if_neg (by omega)]
    · intro i d hi0 hi hd
      have hin : InBounds page (y * s.cols + i) :=
        ⟨rowMajor_nonneg (by omega) hi0 hy0, hpage ▸ rowMajor_lt (by omega) (by omega) hys⟩
      have heq : s.copyCell page cols y d i =
          d.put (y * cols + i) (pageAt s.cols s.rows page i y) := by
        unfold copyCell
        rw [if_pos hin, pageAt_of_mem hi0 (by omega) hy0 hys]
      rw [heq]
      refine (hd.put hi0 (by omega) hy0 hy _).congr ?_
      intro x' y' _ _ _ _
      grind
  have hin := hloop.inBounds (x := keep - 1) (by omega) (by omega) hy0 hy
  have hedge := hloop.cells (keep - 1) y (by omega) (by omega) hy0 hy
  rw [if_pos ⟨rfl, by omega⟩, pageAt_of_mem (by omega) (by omega) hy0 hy] at hedge
  unfold copyRow
  rw [if_pos hin, hedge]
  by_cases hw : (pageAt s.cols s.rows page (keep - 1) y).width = 2
  · rw [if_pos hw]
    refine (hloop.put (by omega) (by omega) hy0 hy _).congr ?_
    intro x' y' _ _ _ _
    grind
  · rw [if_neg hw]
    refine hloop.congr ?_
    intro x' y' _ _ _ _
    grind

/-- A page cut to new dimensions: what both have in common is kept, but for a first
half against the cut, and the rest is erased cells. -/
theorem reshape_draws {s : Screen} {page : List ScreenCell} (hs : s.Sized)
    (hpage : (page.length : Int) = s.cols * s.rows) {cols rows : Int} (hc : 1 ≤ cols)
    (hr : 1 ≤ rows) :
    Draws cols rows (s.reshape page cols rows) fun x y =>
      if x < s.cols ∧ y < s.rows then
        if x = min cols s.cols - 1 ∧ (pageAt s.cols s.rows page x y).width = 2 then s.erased
        else pageAt s.cols s.rows page x y
      else s.erased := by
  have hsc := hs.cols_pos
  have hsr := hs.rows_pos
  have hrows : Draws cols rows (s.reshape page cols rows) fun x y =>
      if y < min rows s.rows ∧ x < min cols s.cols then
        if x = min cols s.cols - 1 ∧ (pageAt s.cols s.rows page x y).width = 2 then s.erased
        else pageAt s.cols s.rows page x y
      else s.erased := by
    refine forUp_rule (P := fun i d => Draws cols rows d fun x y =>
      if y < i ∧ x < min cols s.cols then
        if x = min cols s.cols - 1 ∧ (pageAt s.cols s.rows page x y).width = 2 then s.erased
        else pageAt s.cols s.rows page x y
      else s.erased) (by omega) ?_ ?_
    · refine ⟨rfl, length_erasedPage s (by omega) (by omega), ?_⟩
      intro x y hx0 hx hy0 hy
      rw [if_neg (by omega)]
      exact pageAt_replicate _ hx0 hx hy0 hy
    · intro i d hi0 hi hd
      refine (copyRow_draws hpage hd (show 0 < min cols s.cols by omega) (by omega) (by omega) hi0
        (by omega) (by omega)).congr ?_
      intro x y _ _ _ _
      grind
  refine hrows.congr ?_
  intro x y hx0 hx hy0 hy
  have hiff : (y < min rows s.rows ∧ x < min cols s.cols) ↔ (x < s.cols ∧ y < s.rows) := by omega
  simp only [hiff]

end Screen

end Sshos.Vt
