import Sshos.Vt.ScreenMachine

/-!
# Sshos.Vt.ScreenRange

On a page of at most 65535 columns and rows the machine computes **what the screen
says**: each operation of `Machine`, watched as it is, comes to the operation of the
same name over the unbounded integers.
-/

namespace Sshos.Vt

open Sshos.Lib
open Sshos.Render

namespace Screen

/-- A page no coordinate of which needs more than sixteen bits. -/
structure Small (s : Screen) : Prop extends Sized s where
  cols_le : s.cols ≤ 65535
  rows_le : s.rows ≤ 65535

namespace Small

variable {s t : Screen}

theorem of_repaints (h : s.Small) {f : Int → Int → ScreenCell} (hr : Repaints s t f) : t.Small :=
  { hr.sized h.toSized with
    cols_le := hr.cols ▸ h.cols_le
    rows_le := hr.rows ▸ h.rows_le }

/-- The offset of a row is far from the ends of `ptrdiff_t`. -/
theorem mul_cols_mem (h : s.Small) {y : Int} (h0 : 0 ≤ y) (h1 : y ≤ s.rows) :
    0 ≤ y * s.cols ∧ y * s.cols ≤ 65535 * 65535 := by
  have hc := h.cols_pos
  have hy : y ≤ 65535 := Int.le_trans h1 h.rows_le
  exact ⟨Int.mul_nonneg h0 (by omega), Int.mul_le_mul hy h.cols_le (by omega) (by omega)⟩

end Small

end Screen

namespace Machine

open Checked
open Screen (Small Repaints)

variable {s : Screen}

/-! ### Accesses -/

theorem at_eq (hs : s.Sized) (x y : Int) : «at» s x y = .ok (s.at x y) := by
  unfold «at» Screen.«at» pageAt
  by_cases hoff : x < 0 ∨ y < 0 ∨ x ≥ s.cols ∨ y ≥ s.rows
  · rw [if_pos hoff, if_pos hoff]
    rfl
  · have hin := Screen.inBounds_of_onPage hs (x := x) (y := y)
      ⟨by omega, by omega, by omega, by omega⟩
    rw [if_neg hoff, if_neg hoff, inside_eq hin, ok_bind]
    rfl

theorem putCell_eq (hs : s.Sized) {x y : Int} (h : s.OnPage x y) (c : ScreenCell) :
    putCell s x y c = .ok (s.putCell x y c) := by
  have hin := Screen.inBounds_of_onPage hs h
  unfold putCell
  rw [inside_eq ⟨h, hin⟩, ok_bind]
  exact congrArg _ (if_pos hin).symm

theorem fill_eq (hs : s.Sized) {lo hi : Int} (h0 : 0 ≤ lo) (h : lo ≤ hi) (h1 : hi ≤ s.rows) :
    fill s (lo * s.cols) (hi * s.cols) = .ok (s.fill (lo * s.cols) (hi * s.cols)) := by
  have hin := Screen.slice_mem hs h0 h h1
  unfold fill
  rw [inside_eq hin, ok_bind]
  exact congrArg _ (if_pos hin).symm

theorem rotate_eq (hs : s.Sized) {lo cut hi : Int} (h0 : 0 ≤ lo) (h : lo ≤ cut) (h' : cut ≤ hi)
    (h1 : hi ≤ s.rows) :
    rotate s (lo * s.cols) (cut * s.cols) (hi * s.cols) =
      .ok (s.rotate (lo * s.cols) (cut * s.cols) (hi * s.cols)) := by
  obtain ⟨hb0, hb1, -⟩ := Screen.slice_mem hs h0 h (show cut ≤ s.rows by omega)
  obtain ⟨-, hb2, hb3⟩ := Screen.slice_mem hs (show 0 ≤ cut by omega) h' h1
  unfold rotate
  rw [inside_eq ⟨hb0, hb1, hb2, hb3⟩, ok_bind]
  exact congrArg _ (if_pos ⟨hb0, hb1, hb2, hb3⟩).symm

theorem clamp_eq {v lo hi : Int} (h : lo ≤ hi) : clamp v lo hi = .ok (Vt.clamp v lo hi) := by
  unfold clamp
  rw [inside_eq h, ok_bind]
  rfl

/-! ### Full-width characters -/

theorem clearWideAt_eq (hs : s.Small) (x y : Int) :
    clearWideAt s x y = .ok (s.clearWideAt x y) := by
  have hcols := hs.cols_le
  unfold clearWideAt Screen.clearWideAt
  simp only [at_eq hs.toSized, ok_bind]
  by_cases hw : (s.at x y).width = 1
  · rw [if_neg (by omega), if_neg (by omega), if_neg (by omega), if_neg (by omega)]
    rfl
  -- the other widths are found on the page only
  obtain ⟨hx0, hx, hy⟩ := Screen.onPage_of_width hw
  by_cases h2 : (s.at x y).width = 2
  · rw [if_pos h2, int32_eq (by omega) (by omega), ok_bind]
    by_cases hright : x + 1 < s.cols
    · rw [if_pos hright, putCell_eq hs.toSized ⟨by omega, hright, hy⟩, if_pos ⟨h2, hright⟩]
    · rw [if_neg hright, if_neg (by omega), if_neg (by omega)]
      rfl
  · rw [if_neg h2]
    by_cases h0 : (s.at x y).width = 0 ∧ x > 0
    · rw [if_pos h0, int32_eq (by omega) (by omega), ok_bind,
        putCell_eq hs.toSized ⟨by omega, by omega, hy⟩, if_neg (by omega), if_pos h0]
    · rw [if_neg h0, if_neg (by omega), if_neg h0]
      rfl

theorem breakWideAt_eq (hs : s.Small) (x y : Int) :
    breakWideAt s x y = .ok (s.breakWideAt x y) := by
  have hcols := hs.cols_le
  unfold breakWideAt Screen.breakWideAt
  simp only [at_eq hs.toSized, ok_bind]
  by_cases hw : (s.at x y).width = 1
  · rw [if_neg (by omega), if_neg (by omega), if_neg (by omega), if_neg (by omega)]
    rfl
  have hp := Screen.onPage_of_width hw
  have hr := Screen.putCell_repaints hs.toSized hp s.erased
  obtain ⟨hx0, hx, hy⟩ := hp
  by_cases h2 : (s.at x y).width = 2
  · rw [if_pos h2, int32_eq (by omega) (by omega), ok_bind]
    by_cases hright : x + 1 < s.cols
    · rw [if_pos hright, putCell_eq hs.toSized ⟨hx0, hx, hy⟩, ok_bind, hr.erased,
        putCell_eq (hr.sized hs.toSized) (hr.onPage.2 ⟨by omega, hright, hy⟩),
        if_pos ⟨h2, hright⟩]
    · rw [if_neg hright, if_neg (by omega), if_neg (by omega)]
      rfl
  · rw [if_neg h2]
    by_cases h0 : (s.at x y).width = 0 ∧ x > 0
    · rw [if_pos h0, putCell_eq hs.toSized ⟨hx0, hx, hy⟩, ok_bind,
        int32_eq (by omega) (by omega), ok_bind, hr.erased,
        putCell_eq (hr.sized hs.toSized) (hr.onPage.2 ⟨by omega, by omega, hy⟩), if_neg (by omega),
        if_pos h0]
    · rw [if_neg h0, if_neg (by omega), if_neg h0]
      rfl

/-! ### Scrolling -/

theorem scrollSliceUp_eq (hs : s.Small) (top bottom n : Int) :
    scrollSliceUp s top bottom n = .ok (s.scrollSliceUp top bottom n) := by
  have hrows := hs.rows_le
  unfold scrollSliceUp Screen.scrollSliceUp
  by_cases hout : n ≤ 0 ∨ top < 0 ∨ bottom ≥ s.rows ∨ top > bottom
  · rw [if_pos hout, if_pos hout]
    rfl
  have htop := hs.mul_cols_mem (show 0 ≤ top by omega) (by omega)
  have hbelow := hs.mul_cols_mem (show 0 ≤ bottom + 1 by omega) (by omega)
  rw [if_neg hout, if_neg hout, int32_eq (by omega) (by omega), ok_bind,
    int32_eq (by omega) (by omega), ok_bind, int64_eq (by omega) (by omega), ok_bind,
    int32_eq (by omega) (by omega), ok_bind, int64_eq (by omega) (by omega), ok_bind]
  by_cases hall : n ≥ bottom - top + 1
  · rw [if_pos hall, fill_eq hs.toSized (by omega) (by omega) (by omega)]
    exact congrArg _ (if_pos hall).symm
  have hmoved := hs.mul_cols_mem (show 0 ≤ n by omega) (by omega)
  have hcut : top * s.cols + n * s.cols = (top + n) * s.cols := by ring
  have hfreed : (bottom + 1) * s.cols - n * s.cols = (bottom + 1 - n) * s.cols := by ring
  have hr := Screen.rotate_repaints hs.toSized (show 0 ≤ top by omega)
    (show top ≤ top + n by omega) (show top + n ≤ bottom + 1 by omega) (by omega)
  have hfill := fill_eq (hr.sized hs.toSized) (show 0 ≤ bottom + 1 - n by omega)
    (show bottom + 1 - n ≤ bottom + 1 by omega) (by rw [hr.rows]; omega)
  rw [hr.cols] at hfill
  rw [if_neg hall, int64_eq (by omega) (by omega), ok_bind, int64_eq (by omega) (by omega), ok_bind,
    hcut, rotate_eq hs.toSized (by omega) (by omega) (by omega) (by omega), ok_bind,
    int64_eq (by omega) (by omega), ok_bind, hfreed, hfill]
  refine congrArg _ ((if_neg hall).trans ?_).symm
  rw [hcut, hfreed]

theorem scrollSliceDown_eq (hs : s.Small) (top bottom n : Int) :
    scrollSliceDown s top bottom n = .ok (s.scrollSliceDown top bottom n) := by
  have hrows := hs.rows_le
  unfold scrollSliceDown Screen.scrollSliceDown
  by_cases hout : n ≤ 0 ∨ top < 0 ∨ bottom ≥ s.rows ∨ top > bottom
  · rw [if_pos hout, if_pos hout]
    rfl
  have htop := hs.mul_cols_mem (show 0 ≤ top by omega) (by omega)
  have hbelow := hs.mul_cols_mem (show 0 ≤ bottom + 1 by omega) (by omega)
  rw [if_neg hout, if_neg hout, int32_eq (by omega) (by omega), ok_bind,
    int32_eq (by omega) (by omega), ok_bind, int64_eq (by omega) (by omega), ok_bind,
    int32_eq (by omega) (by omega), ok_bind, int64_eq (by omega) (by omega), ok_bind]
  by_cases hall : n ≥ bottom - top + 1
  · rw [if_pos hall, fill_eq hs.toSized (by omega) (by omega) (by omega)]
    exact congrArg _ (if_pos hall).symm
  have hmoved := hs.mul_cols_mem (show 0 ≤ n by omega) (by omega)
  have hcut : (bottom + 1) * s.cols - n * s.cols = (bottom + 1 - n) * s.cols := by ring
  have hfreed : top * s.cols + n * s.cols = (top + n) * s.cols := by ring
  have hr := Screen.rotate_repaints hs.toSized (show 0 ≤ top by omega)
    (show top ≤ bottom + 1 - n by omega) (show bottom + 1 - n ≤ bottom + 1 by omega) (by omega)
  have hfill := fill_eq (hr.sized hs.toSized) (show 0 ≤ top by omega)
    (show top ≤ top + n by omega) (by rw [hr.rows]; omega)
  rw [hr.cols] at hfill
  rw [if_neg hall, int64_eq (by omega) (by omega), ok_bind, int64_eq (by omega) (by omega), ok_bind,
    hcut, rotate_eq hs.toSized (by omega) (by omega) (by omega) (by omega), ok_bind,
    int64_eq (by omega) (by omega), ok_bind, hfreed, hfill]
  refine congrArg _ ((if_neg hall).trans ?_).symm
  rw [hcut, hfreed]

theorem insertLines_eq (hs : s.Small) (n : Int) : insertLines s n = .ok (s.insertLines n) := by
  unfold insertLines Screen.insertLines
  exact ite_eq (fun _ => rfl) fun _ => scrollSliceDown_eq hs _ _ _

theorem deleteLines_eq (hs : s.Small) (n : Int) : deleteLines s n = .ok (s.deleteLines n) := by
  unfold deleteLines Screen.deleteLines
  exact ite_eq (fun _ => rfl) fun _ => scrollSliceUp_eq hs _ _ _

/-! ### Movement -/

theorem moveTo_eq (hs : s.Small) (x y : Int) : moveTo s x y = .ok (s.moveTo x y) := by
  have hc := hs.cols_pos
  have hr := hs.rows_pos
  have hcols := hs.cols_le
  have hrows := hs.rows_le
  unfold moveTo
  rw [int32_eq (by omega) (by omega), ok_bind, clamp_eq (by omega), ok_bind,
    int32_eq (by omega) (by omega), ok_bind, clamp_eq (by omega), ok_bind]
  rfl

section Moves

variable (hs : s.Small) (hc : s.OnPage s.cx s.cy) {n : Int} (hn : n ≤ 65535)
include hs hc hn

theorem moveUp_eq : moveUp s n = .ok (s.moveUp n) := by
  obtain ⟨-, -, hy0, hy⟩ := hc
  have hrows := hs.rows_le
  unfold moveUp
  rw [int32_eq (by omega) (by omega), ok_bind]
  exact moveTo_eq hs _ _

theorem moveDown_eq : moveDown s n = .ok (s.moveDown n) := by
  obtain ⟨-, -, hy0, hy⟩ := hc
  have hrows := hs.rows_le
  unfold moveDown
  rw [int32_eq (by omega) (by omega), ok_bind]
  exact moveTo_eq hs _ _

theorem moveRight_eq : moveRight s n = .ok (s.moveRight n) := by
  obtain ⟨hx0, hx, -⟩ := hc
  have hcols := hs.cols_le
  unfold moveRight
  rw [int32_eq (by omega) (by omega), ok_bind]
  exact moveTo_eq hs _ _

theorem moveLeft_eq : moveLeft s n = .ok (s.moveLeft n) := by
  obtain ⟨hx0, hx, -⟩ := hc
  have hcols := hs.cols_le
  have hs' : Small { s with wrapPending := false } := { hs with }
  unfold moveLeft Screen.moveLeft
  by_cases hwrap : s.wrapPending = true
  · simp only [if_pos hwrap]
    rw [int32_eq (by omega) (by omega), ok_bind, int32_eq (by omega) (by omega), ok_bind]
    exact moveTo_eq hs' _ _
  · simp only [if_neg hwrap, pure_bind]
    rw [int32_eq (by omega) (by omega), ok_bind]
    exact moveTo_eq hs' _ _

end Moves

theorem clearTab_eq (htabs : (s.tabs.length : Int) = s.cols) : clearTab s = .ok s.clearTab := by
  unfold clearTab Screen.clearTab
  by_cases hcx : 0 ≤ s.cx ∧ s.cx < s.cols
  · have hin : InBounds s.tabs s.cx := ⟨hcx.1, by rw [htabs]; exact hcx.2⟩
    unfold putTab
    rw [if_pos hcx, if_pos hcx, inside_eq hin, ok_bind]
    exact congrArg _ (if_pos hin).symm
  · rw [if_neg hcx, if_neg hcx]
    rfl

/-! ### Erasing -/

theorem eraseSpan_eq (hs : s.Small) (x0 x1 y : Int) :
    eraseSpan s x0 x1 y = .ok (s.eraseSpan x0 x1 y) := by
  have hc := hs.cols_pos
  have hcols := hs.cols_le
  unfold eraseSpan Screen.eraseSpan
  by_cases hy : y < 0 ∨ y ≥ s.rows
  · rw [if_pos hy, if_pos hy]
    rfl
  rw [if_neg hy, if_neg hy]
  simp only
  rw [int32_eq (by omega) (by omega), ok_bind]
  have ha : 0 ≤ max 0 x0 := by omega
  have hb : min (s.cols - 1) x1 ≤ s.cols - 1 := by omega
  generalize max 0 x0 = a at ha ⊢
  generalize min (s.cols - 1) x1 = b at hb ⊢
  by_cases hab : a > b
  · rw [if_pos hab, if_pos hab]
    rfl
  have hr0 := Screen.clearWideAt_repaints hs.toSized a y
  have hs0 := hs.of_repaints hr0
  have hr := hr0.trans (Screen.clearWideAt_repaints hs0.toSized b y)
  rw [if_neg hab, if_neg hab, clearWideAt_eq hs, ok_bind, clearWideAt_eq hs0, ok_bind]
  generalize (s.clearWideAt a y).clearWideAt b y = t at hr ⊢
  have ht := hs.of_repaints hr
  have htc := hr.cols
  have hrounds : b + 1 - a < rounds t := by
    unfold rounds
    omega
  -- the loop only repaints, so that its cells stay on the page
  refine forLoop_eq_forUp (P := fun u => ∃ f, Repaints t u f) (by omega) (by omega) (by omega) hrounds
    ?_ ⟨_, Repaints.refl t⟩ ?_
  · intro i _ _
    exact congrArg _ (by rw [decide_eq_decide]; omega)
  · rintro i u hi0 hi1 ⟨f, hu⟩
    have hp : u.OnPage i y := hu.onPage.2 ⟨by omega, by omega, by omega, by have := hr.rows; omega⟩
    exact ⟨putCell_eq (hu.sized ht.toSized) hp _,
      _, hu.trans (Screen.putCell_repaints (hu.sized ht.toSized) hp _)⟩

theorem eraseRow_eq (hs : s.Small) (y : Int) :
    eraseRow s y = .ok (s.eraseSpan 0 (s.cols - 1) y) := by
  have hc := hs.cols_pos
  have hcols := hs.cols_le
  unfold eraseRow
  rw [int32_eq (by omega) (by omega), ok_bind]
  exact eraseSpan_eq hs _ _ _

/-- The rows of a stretch, and that nothing but cells has changed. -/
theorem eraseRows_eq (hs : s.Small) {lo hi : Int} (h0 : 0 ≤ lo) (h : lo ≤ hi) (h1 : hi ≤ s.rows) :
    eraseRows s lo hi = .ok (s.eraseRows lo hi) ∧ ∃ f, Repaints s (s.eraseRows lo hi) f := by
  have hrows := hs.rows_le
  have hrounds : hi - lo < rounds s := by
    unfold rounds
    omega
  constructor
  · refine forLoop_eq_forUp (P := fun t => ∃ f, Repaints s t f) h (by omega) (by omega) hrounds ?_
      ⟨_, Repaints.refl s⟩ ?_
    · intro i _ _
      rfl
    · rintro i t _ _ ⟨f, ht⟩
      have hst := hs.of_repaints ht
      obtain ⟨g, hg⟩ := Screen.eraseSpan_paints hst.toSized 0 (t.cols - 1) i
      exact ⟨eraseRow_eq hst i, _, ht.trans hg⟩
  · refine forUp_invariant (P := fun t => ∃ f, Repaints s t f) ⟨_, Repaints.refl s⟩ ?_
    rintro i t _ _ ⟨f, ht⟩
    obtain ⟨g, hg⟩ := Screen.eraseSpan_paints (ht.sized hs.toSized) 0 (t.cols - 1) i
    exact ⟨_, ht.trans hg⟩

theorem eraseDisplay_eq (hs : s.Small) (hc : s.OnPage s.cx s.cy) (mode : Int) :
    eraseDisplay s mode = .ok (s.eraseDisplay mode) := by
  obtain ⟨hx0, hx, hy0, hy⟩ := hc
  have hcols := hs.cols_le
  have hrows := hs.rows_le
  unfold eraseDisplay Screen.eraseDisplay
  refine ite_eq (fun _ => ?_) fun _ => ?_
  · obtain ⟨f, hr⟩ := Screen.eraseSpan_paints hs.toSized s.cx (s.cols - 1) s.cy
    rw [int32_eq (by omega) (by omega), ok_bind, eraseSpan_eq hs, ok_bind, hr.cy,
      int32_eq (by omega) (by omega), ok_bind, hr.rows]
    exact (eraseRows_eq (hs.of_repaints hr) (by omega) (by omega) (by rw [hr.rows])).1
  refine ite_eq (fun _ => ?_) fun _ => ?_
  · obtain ⟨hok, f, hr⟩ := eraseRows_eq hs (Int.le_refl 0) hy0 (by omega)
    rw [hok, ok_bind, hr.cx, hr.cy]
    exact eraseSpan_eq (hs.of_repaints hr) _ _ _
  exact ite_eq (fun _ => (eraseRows_eq hs (Int.le_refl 0) (by omega) (Int.le_refl _)).1) fun _ => rfl

theorem eraseLine_eq (hs : s.Small) (mode : Int) : eraseLine s mode = .ok (s.eraseLine mode) := by
  have hc := hs.cols_pos
  have hcols := hs.cols_le
  unfold eraseLine Screen.eraseLine
  refine ite_eq (fun _ => ?_) fun _ => ?_
  · rw [int32_eq (by omega) (by omega), ok_bind]
    exact eraseSpan_eq hs _ _ _
  refine ite_eq (fun _ => eraseSpan_eq hs _ _ _) fun _ => ?_
  exact ite_eq (fun _ => eraseRow_eq hs _) fun _ => rfl

/-- The count is not clamped here, and the sum still fits. -/
theorem eraseChars_eq (hs : s.Small) (hc : s.OnPage s.cx s.cy) {n : Int} (h0 : 0 ≤ n)
    (hn : n ≤ 65535) : eraseChars s n = .ok (s.eraseChars n) := by
  obtain ⟨hx0, hx, -⟩ := hc
  have hcols := hs.cols_le
  unfold eraseChars
  rw [int32_eq (by omega) (by omega), ok_bind, int32_eq (by omega) (by omega), ok_bind]
  exact eraseSpan_eq hs _ _ _

/-! ### Shifting the end of a line -/

theorem copyFrom_eq (hs : s.Sized) {source : Int → Int} {x y : Int} (h0 : -2 ^ 31 ≤ source x)
    (h1 : source x < 2 ^ 31) (hp : s.OnPage x y) :
    copyFrom source y s x = .ok (s.putCell x y (s.at (source x) y)) := by
  unfold copyFrom
  rw [int32_eq h0 h1, ok_bind, at_eq hs, ok_bind, putCell_eq hs hp]

section Shifts

variable (hs : s.Small) {lo k y : Int} (hlo : 0 ≤ lo) (hk : 0 < k) (hle : lo + k ≤ s.cols)
  (hy0 : 0 ≤ y) (hy : y < s.rows)
include hs hlo hk hle hy0 hy

theorem shiftRight_eq :
    forLoop (fun x => do pure (decide ((← int32 (lo + k)) ≤ x))) (-1) (copyFrom (· - k) y)
        (rounds s) (s.cols - 1) s =
      .ok (forDown (lo + k) s.cols (fun t x => t.putCell x y (t.at (x - k) y)) s) := by
  have hcols := hs.cols_le
  have hrounds : s.cols - (lo + k) < rounds s := by
    unfold rounds
    omega
  refine forLoop_eq_forDown (P := fun t => ∃ f, Repaints s t f) hle (by omega) (by omega) hrounds ?_
    ⟨_, Repaints.refl s⟩ ?_
  · intro i _ _
    rw [int32_eq (by omega) (by omega)]
    rfl
  · rintro i t hi0 hi1 ⟨f, ht⟩
    have hst := ht.sized hs.toSized
    have hp : t.OnPage i y := ht.onPage.2 ⟨by omega, hi1, hy0, hy⟩
    exact ⟨copyFrom_eq hst (by omega) (by omega) hp,
      _, ht.trans (Screen.putCell_repaints hst hp _)⟩

theorem shiftLeft_eq :
    forLoop (fun x => do pure (decide ((← int32 (x + k)) < s.cols))) 1 (copyFrom (· + k) y)
        (rounds s) lo s =
      .ok (forUp lo (s.cols - k) (fun t x => t.putCell x y (t.at (x + k) y)) s) := by
  have hcols := hs.cols_le
  have hrounds : s.cols - k - lo < rounds s := by
    unfold rounds
    omega
  refine forLoop_eq_forUp (P := fun t => ∃ f, Repaints s t f) (by omega) (by omega) (by omega) hrounds
    ?_ ⟨_, Repaints.refl s⟩ ?_
  · intro i _ _
    rw [int32_eq (by omega) (by omega), ok_bind]
    exact congrArg _ (by rw [decide_eq_decide]; omega)
  · rintro i t hi0 hi1 ⟨f, ht⟩
    have hst := ht.sized hs.toSized
    have hp : t.OnPage i y := ht.onPage.2 ⟨by omega, by omega, hy0, hy⟩
    exact ⟨copyFrom_eq hst (by omega) (by omega) hp,
      _, ht.trans (Screen.putCell_repaints hst hp _)⟩

end Shifts

/-- ICH. The count is clamped to the room there is before anything is added to it. -/
theorem insertChars_eq (hs : s.Small) (hc : s.OnPage s.cx s.cy) (n : Int) :
    insertChars s n = .ok (s.insertChars n) := by
  have hcols := hs.cols_le
  unfold insertChars Screen.insertChars
  by_cases hout : n ≤ 0 ∨ s.cx ≥ s.cols
  · rw [if_pos hout, if_pos hout]
    rfl
  obtain ⟨hx0, hx, hy0, hy⟩ := hc
  rw [if_neg hout, if_neg hout, int32_eq (by omega) (by omega), ok_bind]
  simp only
  have hk0 : 0 < min n (s.cols - s.cx) := by omega
  have hk : s.cx + min n (s.cols - s.cx) ≤ s.cols := by omega
  generalize min n (s.cols - s.cx) = k at hk0 hk ⊢
  -- the character under the cursor is broken, and the end of the line pushed away
  have hbr := Screen.breakWideAt_repaints hs.toSized s.cx s.cy
  have hbs := hs.of_repaints hbr
  have hkb : s.cx + k ≤ (s.breakWideAt s.cx s.cy).cols := hbr.cols ▸ hk
  have hyb : s.cy < (s.breakWideAt s.cx s.cy).rows := hbr.rows ▸ hy
  have hsh := hbr.trans (Screen.shiftRight_repaints hbs.toSized hx0 hk0 hkb hy0 hyb)
  have hsr := shiftRight_eq hbs hx0 hk0 hkb hy0 hyb
  rw [breakWideAt_eq hs, ok_bind, int32_eq (by rw [hbr.cols]; omega) (by rw [hbr.cols]; omega),
    ok_bind, hbr.cx, hbr.cy, hsr, ok_bind]
  generalize forDown _ _ _ _ = t at hsh ⊢
  -- the gap is erased
  obtain ⟨f, hgap⟩ := Screen.eraseSpan_paints (hsh.sized hs.toSized) s.cx (s.cx + k - 1) s.cy
  have hv := hsh.trans hgap
  rw [hsh.cx, hsh.cy, int32_eq (by omega) (by omega), ok_bind, int32_eq (by omega) (by omega), ok_bind,
    eraseSpan_eq (hs.of_repaints hsh), ok_bind]
  generalize t.eraseSpan _ _ _ = v at hv ⊢
  have hvs := hs.of_repaints hv
  have hedge : v.OnPage (v.cols - 1) s.cy :=
    hv.onPage.2 ⟨by rw [hv.cols]; omega, by rw [hv.cols]; omega, hy0, hy⟩
  rw [int32_eq (by rw [hv.cols]; omega) (by rw [hv.cols]; omega), ok_bind, at_eq hvs.toSized, ok_bind,
    hv.cy]
  exact ite_eq (fun _ => putCell_eq hvs.toSized hedge _) fun _ => rfl

/-- DCH. -/
theorem deleteChars_eq (hs : s.Small) (hc : s.OnPage s.cx s.cy) (n : Int) :
    deleteChars s n = .ok (s.deleteChars n) := by
  have hcols := hs.cols_le
  unfold deleteChars Screen.deleteChars
  by_cases hout : n ≤ 0 ∨ s.cx ≥ s.cols
  · rw [if_pos hout, if_pos hout]
    rfl
  obtain ⟨hx0, hx, hy0, hy⟩ := hc
  rw [if_neg hout, if_neg hout, int32_eq (by omega) (by omega), ok_bind]
  simp only
  have hk0 : 0 < min n (s.cols - s.cx) := by omega
  have hk : s.cx + min n (s.cols - s.cx) ≤ s.cols := by omega
  generalize min n (s.cols - s.cx) = k at hk0 hk ⊢
  -- both ends of the cut are broken
  have hb0 := Screen.breakWideAt_repaints hs.toSized s.cx s.cy
  have hs0 := hs.of_repaints hb0
  have hbr := hb0.trans (Screen.breakWideAt_repaints hs0.toSized (s.cx + k) s.cy)
  rw [breakWideAt_eq hs, ok_bind, hb0.cx, hb0.cy, int32_eq (by omega) (by omega), ok_bind,
    breakWideAt_eq hs0, ok_bind]
  generalize (s.breakWideAt s.cx s.cy).breakWideAt _ _ = t at hbr ⊢
  have hts := hs.of_repaints hbr
  have hkb : s.cx + k ≤ t.cols := hbr.cols ▸ hk
  have hyb : s.cy < t.rows := hbr.rows ▸ hy
  -- the end of the line is brought back, and its place erased
  have hsh := hbr.trans (Screen.shiftLeft_repaints hts.toSized hx0 hk0 hkb hy0 hyb)
  rw [hbr.cx, hbr.cy, shiftLeft_eq hts hx0 hk0 hkb hy0 hyb, ok_bind]
  generalize forUp _ _ _ _ = v at hsh ⊢
  rw [int32_eq (by rw [hsh.cols]; omega) (by rw [hsh.cols]; omega), ok_bind,
    int32_eq (by rw [hsh.cols]; omega) (by rw [hsh.cols]; omega), ok_bind, hsh.cy]
  exact eraseSpan_eq (hs.of_repaints hsh) _ _ _

/-! ### Region -/

/-- DECSTBM. Both edges are clamped before their difference is taken. -/
theorem setScrollRegion_eq (hs : s.Small) {top bottom : Int} (htop : top ≤ 65535)
    (hbottom : -1 ≤ bottom) : setScrollRegion s top bottom = .ok (s.setScrollRegion top bottom) := by
  have hr := hs.rows_pos
  have hrows := hs.rows_le
  unfold setScrollRegion Screen.setScrollRegion
  rw [int32_eq (by omega) (by omega), ok_bind]
  simp only
  rw [int32_eq (by omega) (by omega), ok_bind]
  split <;> rfl

theorem resetScrollRegion_eq (hs : s.Small) : resetScrollRegion s = .ok s.resetScrollRegion := by
  have hr := hs.rows_pos
  have hrows := hs.rows_le
  unfold resetScrollRegion
  rw [int32_eq (by omega) (by omega), ok_bind]
  rfl

end Machine

end Sshos.Vt
