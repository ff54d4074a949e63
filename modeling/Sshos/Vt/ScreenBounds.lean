import Sshos.Lib.Run
import Sshos.Vt.ScreenCells

/-!
# Sshos.Vt.ScreenBounds

The **joint invariant** of the cursor, the region, the two pages and the tab stops
that makes the screen's unchecked accesses safe, kept by every operation.
-/

namespace Sshos.Vt

open Sshos.Lib
open Sshos.Render

namespace Screen

/-- Everything the screen indexes with is where it should be, and no access has ever
left its vector. -/
structure Bounded (s : Screen) : Prop where
  cols_pos : 1 ≤ s.cols
  rows_pos : 1 ≤ s.rows
  cx : 0 ≤ s.cx ∧ s.cx < s.cols
  cy : 0 ≤ s.cy ∧ s.cy < s.rows
  region : 0 ≤ s.top ∧ s.top ≤ s.bottom ∧ s.bottom ≤ s.rows - 1
  grid : (s.grid.length : Int) = s.cols * s.rows
  tabs : (s.tabs.length : Int) = s.cols
  parked : s.alt = true → (s.parked.length : Int) = s.cols * s.rows ∧
    (0 ≤ s.parkedCursor.x ∧ s.parkedCursor.x < s.cols) ∧
    (0 ≤ s.parkedCursor.y ∧ s.parkedCursor.y < s.rows)
  safe : s.fault = false

namespace Bounded

variable {s s' : Screen}

theorem sized (h : s.Bounded) : s.Sized := ⟨h.cols_pos, h.rows_pos, h.grid⟩

theorem onPage (h : s.Bounded) : s.OnPage s.cx s.cy := ⟨h.cx.1, h.cx.2, h.cy.1, h.cy.2⟩

theorem of_repaints (h : s.Bounded) {f : Int → Int → ScreenCell} (hr : Repaints s s' f) :
    s'.Bounded := by
  have hg := hr.size
  rw [hr.frame]
  exact { h with grid := by rw [← h.grid, ← hg] }

/-- Moving the cursor inside the page. -/
theorem moved (h : s.Bounded) {x y : Int} (hx : 0 ≤ x ∧ x < s.cols) (hy : 0 ≤ y ∧ y < s.rows)
    (wrap : Bool) : Bounded { s with cx := x, cy := y, wrapPending := wrap } :=
  { h with cx := hx, cy := hy }

end Bounded

variable {s : Screen}

/-! ### Scrolling and line feeds -/

/-- The cells of a row. -/
def line (s : Screen) (y : Int) : List ScreenCell :=
  (List.range s.cols.toNat).map fun x : Nat => s.at x y

/-- The row at the front of the page. -/
theorem take_cols_eq_line (hs : s.Sized) : s.grid.take s.cols.toNat = s.line 0 := by
  have hc := hs.cols_pos
  have hlen : s.cols.toNat ≤ s.grid.length := by
    have hgrid := hs.grid
    have := Int.mul_le_mul_of_nonneg_left hs.rows_pos (show 0 ≤ s.cols by omega)
    omega
  refine List.ext_getElem (by simp [line, hlen]) ?_
  intro x hx hx'
  have hxc : x < s.cols.toNat := by
    rw [List.length_take] at hx
    omega
  have hread : s.at x 0 = readAt blank s.grid (0 * s.cols + x) :=
    pageAt_of_mem (by omega) (by omega) (Int.le_refl 0) (by have := hs.rows_pos; omega)
  simp only [line, List.getElem_map, List.getElem_range, List.getElem_take, hread]
  simp [readAt, List.getElem?_eq_getElem (show x < s.grid.length by omega)]

/-- The history once it has been fed. -/
def fed (s : Screen) : Option Scrollback :=
  if s.alt = false ∧ s.top = 0 ∧ s.bottom = s.rows - 1 then s.scrollback.map (·.push (s.line 0))
  else s.scrollback

/-- Feeding the history touches nothing else. -/
theorem pushTopLine_eq (h : s.Bounded) : s.pushTopLine = { s with scrollback := s.fed } := by
  unfold pushTopLine fed
  split
  · rename_i hnone
    rw [hnone, Option.map_none, ite_self, ← hnone]
  · rename_i sb hsome
    by_cases hfull : s.alt = false ∧ s.top = 0 ∧ s.bottom = s.rows - 1
    · have hrow : s.top * s.cols + s.cols ≤ s.grid.length := by
        have := Int.mul_le_mul_of_nonneg_left h.rows_pos (show 0 ≤ s.cols by have := h.cols_pos; omega)
        rw [hfull.2.1, h.grid]
        omega
      have hfirst : s.top * s.cols = 0 := by rw [hfull.2.1, Int.zero_mul]
      have htop := take_cols_eq_line h.sized
      rw [if_pos hfull, if_pos (by simpa using hfull)]
      simp only [hfirst] at hrow ⊢
      rw [if_pos ⟨Int.le_refl 0, hrow⟩, hsome]
      simp [htop]
    · rw [if_neg hfull, if_neg (by simpa using hfull)]

theorem scrollUp_repaints (h : s.Bounded) :
    Repaints { s with scrollback := s.fed } s.scrollUp fun x y =>
      if s.top ≤ y ∧ y ≤ s.bottom then if y + 1 ≤ s.bottom then s.at x (y + 1) else s.erased
      else s.at x y := by
  have hreg := h.region
  have h' : Bounded { s with scrollback := s.fed } := { h with }
  show Repaints _ (s.pushTopLine.scrollSliceUp s.pushTopLine.top s.pushTopLine.bottom 1) _
  rw [pushTopLine_eq h]
  exact scrollSliceUp_repaints h'.sized (by omega) hreg.1 (show s.bottom < s.rows by omega)
    hreg.2.1

/-- What a line feed can do: go down, stay at the foot of the page, or scroll the
region. -/
theorem lineFeed_cases (h : s.Bounded) :
    (s.lineFeed = { s with wrapPending := false, cy := s.cy + 1 } ∧ s.cy ≠ s.bottom ∧
      s.cy + 1 < s.rows) ∨
    (s.lineFeed = { s with wrapPending := false } ∧ s.cy ≠ s.bottom) ∨
    s.cy = s.bottom ∧
      Repaints { s with wrapPending := false, scrollback := s.fed } s.lineFeed fun x y =>
        if s.top ≤ y ∧ y ≤ s.bottom then if y + 1 ≤ s.bottom then s.at x (y + 1) else s.erased
        else s.at x y := by
  have h' : Bounded { s with wrapPending := false } := { h with }
  by_cases hb : s.cy = s.bottom
  · have heq : s.lineFeed = scrollUp { s with wrapPending := false } := if_pos hb
    exact .inr (.inr ⟨hb, heq ▸ scrollUp_repaints h'⟩)
  · by_cases hd : s.cy + 1 < s.rows
    · have heq : s.lineFeed = { s with wrapPending := false, cy := s.cy + 1 } :=
        (if_neg hb).trans (if_pos hd)
      exact .inl ⟨heq, hb, hd⟩
    · have heq : s.lineFeed = { s with wrapPending := false } := (if_neg hb).trans (if_neg hd)
      exact .inr (.inl ⟨heq, hb⟩)

theorem Bounded.lineFeed (h : s.Bounded) : s.lineFeed.Bounded := by
  obtain ⟨heq, -, hlt⟩ | ⟨heq, -⟩ | ⟨-, hr⟩ := lineFeed_cases h
  · rw [heq]
    exact h.moved h.cx ⟨by have := h.cy; omega, hlt⟩ false
  · rw [heq]
    exact { h with }
  · have h' : Bounded { s with wrapPending := false, scrollback := s.fed } := { h with }
    exact h'.of_repaints hr

theorem Bounded.reverseIndex (h : s.Bounded) : s.reverseIndex.Bounded := by
  have h' : Bounded { s with wrapPending := false } := { h with }
  have hreg := h.region
  have hcy := h.cy
  by_cases ht : s.cy = s.top
  · have heq : s.reverseIndex = scrollDown { s with wrapPending := false } := if_pos ht
    rw [heq]
    exact h'.of_repaints (scrollSliceDown_repaints h'.sized (show (0 : Int) < 1 by omega)
      (show 0 ≤ s.top by omega) (show s.bottom < s.rows by omega) (show s.top ≤ s.bottom by omega))
  · by_cases h0 : s.cy > 0
    · have heq : s.reverseIndex = { s with wrapPending := false, cy := s.cy - 1 } :=
        (if_neg ht).trans (if_pos h0)
      rw [heq]
      exact h.moved h.cx ⟨by omega, by omega⟩ false
    · have heq : s.reverseIndex = { s with wrapPending := false } :=
        (if_neg ht).trans (if_neg h0)
      rw [heq]
      exact h'

theorem Bounded.insertLines (h : s.Bounded) (n : Int) : (s.insertLines n).Bounded := by
  have hreg := h.region
  have hcy := h.cy
  unfold Screen.insertLines
  split
  · exact h
  · exact h.of_repaints (scrollSliceDown_repaints h.sized (by omega) (by omega) (by omega)
      (by omega))

theorem Bounded.deleteLines (h : s.Bounded) (n : Int) : (s.deleteLines n).Bounded := by
  have hreg := h.region
  have hcy := h.cy
  unfold Screen.deleteLines
  split
  · exact h
  · exact h.of_repaints (scrollSliceUp_repaints h.sized (by omega) (by omega) (by omega)
      (by omega))

/-! ### Movement -/

theorem Bounded.moveTo (h : s.Bounded) (x y : Int) : (s.moveTo x y).Bounded := by
  have hc := h.cols_pos
  have hr := h.rows_pos
  have hx := clamp_mem (v := x) (show 0 ≤ s.cols - 1 by omega)
  have hy := clamp_mem (v := y) (show 0 ≤ s.rows - 1 by omega)
  exact h.moved ⟨hx.1, by omega⟩ ⟨hy.1, by omega⟩ false

theorem Bounded.moveLeft (h : s.Bounded) (n : Int) : (s.moveLeft n).Bounded :=
  Bounded.moveTo { h with } _ _

theorem Bounded.backspace (h : s.Bounded) : s.backspace.Bounded := by
  have hcx := h.cx
  unfold Screen.backspace
  split
  · exact { h with }
  · split
    · exact { h with cx := ⟨by show 0 ≤ s.cx - 1; omega, by show s.cx - 1 < s.cols; omega⟩ }
    · exact h

/-! ### Tab stops -/

theorem putTab_eq {x : Int} (hx0 : 0 ≤ x) (hx : x < s.tabs.length) (on : Bool) :
    s.putTab x on = { s with tabs := s.tabs.set x.toNat on } := if_pos ⟨hx0, hx⟩

theorem Bounded.putTab (h : s.Bounded) {x : Int} (hx0 : 0 ≤ x) (hx : x < s.cols) (on : Bool) :
    (s.putTab x on).Bounded := by
  rw [putTab_eq hx0 (by rw [h.tabs]; exact hx)]
  exact { h with tabs := by rw [← h.tabs]; simp }

/-- Rebuilding the stops: only the stops change, and they get the page's width. -/
theorem resetTabs_spec (hc : 1 ≤ s.cols) :
    ∃ tabs, s.resetTabs = { s with tabs := tabs } ∧ (tabs.length : Int) = s.cols := by
  refine forUp_rule (P := fun _ t => ∃ tabs, t = { s with tabs := tabs } ∧
    (tabs.length : Int) = s.cols) (show (1 : Int) ≤ (s.cols - 1) / kTabStop + 1 by unfold kTabStop; omega)
    ?_ ?_
  · refine ⟨_, rfl, ?_⟩
    simp only [List.length_replicate]
    omega
  · rintro i t hi0 hi ⟨tabs, rfl, hlen⟩
    unfold kTabStop at hi ⊢
    refine ⟨tabs.set (8 * i).toNat true, ?_, by rw [List.length_set, hlen]⟩
    exact putTab_eq (s := { s with tabs := tabs }) (by omega)
      (show 8 * i < (tabs.length : Int) by omega) true

/-- The search for a stop ends on the page. -/
theorem Bounded.tabFrom (h : s.Bounded) {left : Nat} {x : Int} (hx0 : 0 ≤ x)
    (hx : x + left = s.cols) : (Screen.tabFrom s left x).Bounded := by
  induction left generalizing x with
  | zero =>
      have hc := h.cols_pos
      exact { h with cx := ⟨by show 0 ≤ s.cols - 1; omega, by show s.cols - 1 < s.cols; omega⟩ }
  | succ left ih =>
      have hin : InBounds s.tabs x := ⟨hx0, by rw [h.tabs]; omega⟩
      unfold Screen.tabFrom
      rw [if_pos hin]
      split
      · exact { h with cx := ⟨hx0, by show x < s.cols; omega⟩ }
      · exact ih (by omega) (by omega)

theorem Bounded.tab (h : s.Bounded) : s.tab.Bounded := by
  have hcx := h.cx
  have h' : Bounded { s with wrapPending := false } := { h with }
  have hleft : s.cx + 1 + ((s.cols - (s.cx + 1)).toNat : Int) = s.cols := by omega
  exact h'.tabFrom (by omega) hleft

/-! ### Printing -/

theorem Bounded.wrapIfPending (h : s.Bounded) : s.wrapIfPending.Bounded := by
  unfold Screen.wrapIfPending
  split
  · have h' : Bounded { s with wrapPending := false, cx := 0 } :=
      { h with cx := ⟨Int.le_refl 0, by have := h.cols_pos; show 0 < s.cols; omega⟩ }
    exact h'.lineFeed
  · exact h

theorem Bounded.deposit (h : s.Bounded) (cp w : Nat) : (s.deposit cp w).Bounded :=
  h.of_repaints (deposit_repaints h.sized h.onPage cp w)

theorem Bounded.advance (h : s.Bounded) (w : Nat) : (s.advance w).Bounded := by
  have hcx := h.cx
  unfold Screen.advance
  simp only
  split
  · exact { h with cx := ⟨by show 0 ≤ s.cols - 1; omega, by show s.cols - 1 < s.cols; omega⟩ }
  · exact { h with cx := ⟨by show 0 ≤ s.cx + w; omega, by show s.cx + w < s.cols; omega⟩ }

theorem Bounded.print (h : s.Bounded) (amb : Bool) (cp : Nat) : (s.print amb cp).Bounded := by
  unfold Screen.print
  simp only
  generalize translate cp s.charset = ch
  generalize charWidth amb ch = w
  split
  · exact h
  · have hw := h.wrapIfPending
    split
    · split
      · exact hw
      · have h' : Bounded { s.wrapIfPending with cx := 0 } :=
          { hw with cx := ⟨Int.le_refl 0, by
              have := hw.cols_pos; show 0 < s.wrapIfPending.cols; omega⟩ }
        exact (h'.lineFeed.deposit _ _).advance _
    · exact (hw.deposit _ _).advance _

/-! ### Erasing and editing -/

theorem Bounded.eraseSpan (h : s.Bounded) (x0 x1 y : Int) : (s.eraseSpan x0 x1 y).Bounded := by
  obtain ⟨f, hr⟩ := eraseSpan_paints h.sized x0 x1 y
  exact h.of_repaints hr

theorem Bounded.eraseRows (h : s.Bounded) {lo hi : Int} (hle : lo ≤ hi) :
    (s.eraseRows lo hi).Bounded :=
  forUp_rule (P := fun _ (t : Screen) => t.Bounded) hle h fun y _ _ _ ht => ht.eraseSpan 0 _ y

theorem Bounded.eraseDisplay (h : s.Bounded) (mode : Int) : (s.eraseDisplay mode).Bounded := by
  have hcy := h.cy
  unfold Screen.eraseDisplay
  repeat' split
  · exact (h.eraseSpan _ _ _).eraseRows (by omega)
  · exact (h.eraseRows hcy.1).eraseSpan _ _ _
  · exact h.eraseRows (by omega)
  · exact h

theorem Bounded.eraseLine (h : s.Bounded) (mode : Int) : (s.eraseLine mode).Bounded := by
  unfold Screen.eraseLine
  repeat' split
  · exact h.eraseSpan _ _ _
  · exact h.eraseSpan _ _ _
  · exact h.eraseSpan _ _ _
  · exact h

theorem Bounded.insertChars (h : s.Bounded) (n : Int) : (s.insertChars n).Bounded := by
  by_cases hn : 0 < n
  · exact h.of_repaints (insertChars_repaints h.sized h.onPage hn rfl rfl)
  · rw [show s.insertChars n = s from if_pos (.inl (by omega))]
    exact h

theorem Bounded.deleteChars (h : s.Bounded) (n : Int) : (s.deleteChars n).Bounded := by
  by_cases hn : 0 < n
  · exact h.of_repaints (deleteChars_repaints h.sized h.onPage hn rfl rfl)
  · rw [show s.deleteChars n = s from if_pos (.inl (by omega))]
    exact h

/-! ### Region, saved cursor, alternate screen -/

theorem Bounded.setScrollRegion (h : s.Bounded) (top bottom : Int) :
    (s.setScrollRegion top bottom).Bounded := by
  have hc := h.cols_pos
  have hr := h.rows_pos
  unfold Screen.setScrollRegion
  simp only
  split
  · exact h
  · exact
      { h with
        cx := ⟨Int.le_refl 0, by show 0 < s.cols; omega⟩
        cy := ⟨Int.le_refl 0, by show 0 < s.rows; omega⟩
        region := by simp only; omega }

theorem Bounded.resetScrollRegion (h : s.Bounded) : s.resetScrollRegion.Bounded := by
  have hc := h.cols_pos
  have hr := h.rows_pos
  exact
    { h with
      cx := ⟨Int.le_refl 0, by show 0 < s.cols; omega⟩
      cy := ⟨Int.le_refl 0, by show 0 < s.rows; omega⟩
      region := by simp only [Screen.resetScrollRegion]; omega }

theorem Bounded.restoreCursor (h : s.Bounded) : s.restoreCursor.Bounded := by
  have hc := h.cols_pos
  have hr := h.rows_pos
  have hx := clamp_mem (v := s.saved.x) (show 0 ≤ s.cols - 1 by omega)
  have hy := clamp_mem (v := s.saved.y) (show 0 ≤ s.rows - 1 by omega)
  exact
    { h with
      cx := ⟨hx.1, by simp only [Screen.restoreCursor]; omega⟩
      cy := ⟨hy.1, by simp only [Screen.restoreCursor]; omega⟩ }

theorem Bounded.enterAltScreen (h : s.Bounded) : s.enterAltScreen.Bounded := by
  have hc := h.cols_pos
  have hr := h.rows_pos
  unfold Screen.enterAltScreen
  split
  · exact h
  · exact
      { h with
        grid := length_erasedPage s (by omega) (by omega)
        parked := fun _ => ⟨h.grid, h.cx, h.cy⟩ }

theorem Bounded.leaveAltScreen (h : s.Bounded) : s.leaveAltScreen.Bounded := by
  unfold Screen.leaveAltScreen
  split
  · exact h
  · rename_i halt
    obtain ⟨hp, hx, hy⟩ := h.parked (by simpa using halt)
    exact
      { h with
        grid := hp
        cx := hx
        cy := hy
        parked := fun habs => absurd habs (by simp) }

/-! ### Resizing -/

/-- Cutting the pages changes no other field, and both pages get the new size. -/
theorem resizePages_spec (h : s.Bounded) {cols rows : Int} (hc : 1 ≤ cols) (hr : 1 ≤ rows) :
    ∃ grid parked, s.resizePages cols rows = { s with grid := grid, parked := parked } ∧
      (grid.length : Int) = cols * rows ∧
      (s.alt = true → (parked.length : Int) = cols * rows) := by
  unfold resizePages
  by_cases halt : s.alt = true
  · have hd := reshape_draws h.sized (h.parked halt).1 hc hr
    rw [if_pos halt]
    simp only [hd.safe, Bool.or_false]
    exact ⟨_, _, rfl, length_erasedPage s (by omega) (by omega), fun _ => hd.size⟩
  · have hd := reshape_draws h.sized h.grid hc hr
    rw [if_neg halt]
    simp only [hd.safe, Bool.or_false]
    exact ⟨_, _, rfl, hd.size, fun ha => absurd ha halt⟩

/-- What a resize that changes something comes to, the stops apart. -/
theorem resize_cases (s : Screen) (cols rows : Int) :
    s.resize cols rows = s ∨
    ∃ c r t, 1 ≤ c ∧ 1 ≤ r ∧ c = max 1 cols ∧ t = (s.resizePages c r).adoptSize c r ∧
      (s.resize cols rows = t.resetTabs ∨ s.resize cols rows = t ∧ c = s.cols) := by
  by_cases hsame : max 1 cols = s.cols ∧ max 1 rows = s.rows
  · exact .inl (if_pos hsame)
  · refine .inr ⟨max 1 cols, max 1 rows, _, by omega, by omega, rfl, rfl, ?_⟩
    by_cases hw : max 1 cols ≠ s.cols
    · exact .inl ((if_neg hsame).trans (if_pos hw))
    · exact .inr ⟨(if_neg hsame).trans (if_neg hw), by omega⟩

theorem Bounded.resize (h : s.Bounded) (cols rows : Int) : (s.resize cols rows).Bounded := by
  obtain heq | ⟨c, r, t, hc, hr, -, ht, hres⟩ := resize_cases s cols rows
  · rw [heq]
    exact h
  obtain ⟨grid, parked, hpages, hgrid, hparked⟩ := resizePages_spec h hc hr
  rw [hpages] at ht
  -- all but the stops, which are those of the old width when it did not change
  have hb : ∀ tabs : List Bool, (tabs.length : Int) = c → Bounded { t with tabs := tabs } := by
    intro tabs htabs
    have hcx := fun v => clamp_mem (v := v) (show 0 ≤ c - 1 by omega)
    have hcy := fun v => clamp_mem (v := v) (show 0 ≤ r - 1 by omega)
    rw [ht]
    exact
      { cols_pos := hc
        rows_pos := hr
        cx := ⟨(hcx _).1, Int.lt_of_le_sub_one (hcx _).2⟩
        cy := ⟨(hcy _).1, Int.lt_of_le_sub_one (hcy _).2⟩
        region := ⟨Int.le_refl 0, by show 0 ≤ r - 1; omega, Int.le_refl _⟩
        grid := hgrid
        tabs := htabs
        parked := fun halt => ⟨hparked halt, ⟨(hcx _).1, Int.lt_of_le_sub_one (hcx _).2⟩,
          ⟨(hcy _).1, Int.lt_of_le_sub_one (hcy _).2⟩⟩
        safe := h.safe }
  obtain heq | ⟨heq, hsame⟩ := hres
  · obtain ⟨tabs, htabs, hlen⟩ := resetTabs_spec (s := t) (by rw [ht]; exact hc)
    rw [heq, htabs]
    exact hb tabs (by rw [hlen, ht]; rfl)
  · rw [heq]
    have hold := hb t.tabs (by rw [ht, hsame]; exact h.tabs)
    exact hold

/-! ### Every run -/

/-- A fresh screen, its stops apart. -/
theorem create_spec (cols rows : Int) :
    ∃ tabs, (tabs.length : Int) = max 1 cols ∧ Screen.create cols rows =
      { cols := max 1 cols, rows := max 1 rows, tabs := tabs, bottom := max 1 rows - 1,
        grid := List.replicate (max 1 cols * max 1 rows).toNat blank } := by
  obtain ⟨tabs, htabs, hlen⟩ := resetTabs_spec (s :=
    { cols := max 1 cols, rows := max 1 rows, tabs := [], bottom := max 1 rows - 1,
      grid := List.replicate (max 1 cols * max 1 rows).toNat blank })
    (show 1 ≤ max 1 cols by omega)
  exact ⟨tabs, hlen, htabs⟩

theorem Bounded.create (cols rows : Int) : (Screen.create cols rows).Bounded := by
  obtain ⟨tabs, hlen, heq⟩ := create_spec cols rows
  have hc : 1 ≤ max 1 cols := by omega
  have hr : 1 ≤ max 1 rows := by omega
  rw [heq]
  generalize max 1 cols = c at hc hlen ⊢
  generalize max 1 rows = r at hr ⊢
  have hcr := Int.mul_nonneg (show 0 ≤ c by omega) (show 0 ≤ r by omega)
  exact
    { cols_pos := hc
      rows_pos := hr
      cx := ⟨Int.le_refl 0, hc⟩
      cy := ⟨Int.le_refl 0, hr⟩
      region := ⟨Int.le_refl 0, by show 0 ≤ r - 1; omega, Int.le_refl _⟩
      grid := by simp only [List.length_replicate]; omega
      tabs := hlen
      parked := fun habs => absurd habs (by simp)
      safe := rfl }

/-- Every operation keeps the invariant. -/
theorem Bounded.step (h : s.Bounded) (amb : Bool) (op : ScreenOp) : (s.step amb op).Bounded := by
  have hcx := h.cx
  cases op with
  | print cp => exact h.print amb cp
  | lineFeed => exact h.lineFeed
  | carriageReturn => exact h.moved ⟨Int.le_refl 0, by omega⟩ h.cy false
  | backspace => exact h.backspace
  | tab => exact h.tab
  | index => exact h.lineFeed
  | reverseIndex => exact h.reverseIndex
  | nextLine =>
      have h' : s.carriageReturn.Bounded := h.moved ⟨Int.le_refl 0, by omega⟩ h.cy false
      exact h'.lineFeed
  | moveTo x y => exact h.moveTo x y
  | moveUp n => exact h.moveTo _ _
  | moveDown n => exact h.moveTo _ _
  | moveRight n => exact h.moveTo _ _
  | moveLeft n => exact h.moveLeft n
  | setColumn x => exact h.moveTo _ _
  | setRow y => exact h.moveTo _ _
  | setTab =>
      show (if 0 ≤ s.cx ∧ s.cx < s.cols then s.putTab s.cx true else s).Bounded
      rw [if_pos hcx]
      exact h.putTab hcx.1 hcx.2 true
  | clearTab =>
      show (if 0 ≤ s.cx ∧ s.cx < s.cols then s.putTab s.cx false else s).Bounded
      rw [if_pos hcx]
      exact h.putTab hcx.1 hcx.2 false
  | clearAllTabs =>
      have ht : ((List.replicate s.tabs.length false).length : Int) = s.cols := by
        rw [List.length_replicate, h.tabs]
      exact { h with tabs := ht }
  | eraseDisplay mode => exact h.eraseDisplay mode
  | eraseLine mode => exact h.eraseLine mode
  | eraseChars n => exact h.eraseSpan _ _ _
  | insertChars n => exact h.insertChars n
  | deleteChars n => exact h.deleteChars n
  | insertLines n => exact h.insertLines n
  | deleteLines n => exact h.deleteLines n
  | setScrollRegion top bottom => exact h.setScrollRegion top bottom
  | resetScrollRegion => exact h.resetScrollRegion
  | saveCursor => exact { h with }
  | restoreCursor => exact h.restoreCursor
  | setPen pen => exact { h with }
  | setCharset charset => exact { h with }
  | setAutowrap on => exact { h with }
  | setScrollback sb => exact { h with }
  | enterAltScreen => exact h.enterAltScreen
  | leaveAltScreen => exact h.leaveAltScreen
  | resize cols rows => exact h.resize cols rows

theorem Bounded.run (amb : Bool) (h : s.Bounded) (ops : List ScreenOp) :
    (Lib.run (Screen.step amb) s ops).Bounded :=
  @run_preserves _ _ _ Screen.Bounded (fun _ op hs => hs.step amb op) _ h ops

/-- **The screen stays in bounds.** Whatever the size it is built with and whatever
operations follow, the cursor, the region, the two pages and the stops agree with the
dimensions, and no unchecked access has left its vector. -/
theorem run_bounded (amb : Bool) (cols rows : Int) (ops : List ScreenOp) :
    let s := run (Screen.step amb) (Screen.create cols rows) ops
    (0 ≤ s.cx ∧ s.cx < s.cols) ∧ (0 ≤ s.cy ∧ s.cy < s.rows) ∧
    (0 ≤ s.top ∧ s.top ≤ s.bottom ∧ s.bottom ≤ s.rows - 1) ∧
    (s.grid.length : Int) = s.cols * s.rows ∧ (s.tabs.length : Int) = s.cols ∧
    (s.alt = true → (s.parked.length : Int) = s.cols * s.rows ∧
      (0 ≤ s.parkedCursor.x ∧ s.parkedCursor.x < s.cols) ∧
      (0 ≤ s.parkedCursor.y ∧ s.parkedCursor.y < s.rows)) ∧
    s.fault = false := by
  intro s
  have h : s.Bounded := Bounded.run amb (Bounded.create cols rows) ops
  exact ⟨h.cx, h.cy, h.region, h.grid, h.tabs, h.parked, h.safe⟩

end Screen

end Sshos.Vt
