import Mathlib.Data.List.TakeWhile
import Sshos.Render.Surface
import Sshos.Vt.History
import Sshos.Vt.ScreenWide

/-!
# Sshos.Vt.ScreenLegible

**Legible cells and lines.** A cell that is not the second half of a character has the width of
its character, on the pages and in the history, and the lines of the history hold whole
characters: what a renderer needs to show them as they are.
-/

namespace Sshos.Vt

open Sshos.Lib
open Sshos.Render

/-! ### Cells and lines -/

/-- A cell with the width of its character, unless it is the second half of one. -/
def Fits (amb : Bool) (c : ScreenCell) : Prop := c.width ≠ 0 → c.width = charWidth amb c.ch

theorem fits_spaces (amb : Bool) (st : Style) : Fits amb { style := st } :=
  fun _ => (charWidth_space amb).symm

theorem fits_half (amb : Bool) (st : Style) : Fits amb { width := 0, style := st } :=
  fun h => absurd rfl h

/-- A line of whole characters. -/
structure LineLegible (amb : Bool) (l : List ScreenCell) : Prop where
  fits : ∀ c ∈ l, Fits amb c
  head : ∀ i c, l[i]? = some c → c.width = 2 → ∃ d, l[i + 1]? = some d ∧ d.width = 0
  half : ∀ i c, l[i]? = some c → c.width = 0 → ∃ j d, i = j + 1 ∧ l[j]? = some d ∧ d.width = 2

theorem LineLegible.nil (amb : Bool) : LineLegible amb [] :=
  ⟨by simp, by simp, by simp⟩

/-- The blanks that are trimmed are no halves. -/
theorem LineLegible.of_append {amb : Bool} {l blanks : List ScreenCell}
    (h : LineLegible amb (l ++ blanks)) (hblanks : ∀ c ∈ blanks, c = blank) : LineLegible amb l := by
  have hleft : ∀ {i : Nat} {c : ScreenCell}, l[i]? = some c → (l ++ blanks)[i]? = some c := by
    intro i c hi
    rw [List.getElem?_append_left (List.getElem?_eq_some_iff.1 hi).1]
    exact hi
  refine ⟨fun c hc => h.fits c (List.mem_append_left _ hc), fun i c hi hw => ?_, fun i c hi hw => ?_⟩
  · obtain ⟨d, hd, hdw⟩ := h.head i c (hleft hi) hw
    rcases List.mem_append.1 (List.mem_of_getElem? hd) with - | hmem
    · by_cases hlt : i + 1 < l.length
      · rw [List.getElem?_append_left hlt] at hd
        exact ⟨d, hd, hdw⟩
      · rw [List.getElem?_append_right (by omega)] at hd
        rw [hblanks d (List.mem_of_getElem? hd)] at hdw
        cases hdw
    · rw [hblanks d hmem] at hdw
      cases hdw
  · obtain ⟨j, d, hij, hd, hdw⟩ := h.half i c (hleft hi) hw
    refine ⟨j, d, hij, ?_, hdw⟩
    have hlt : i < l.length := (List.getElem?_eq_some_iff.1 hi).1
    rwa [List.getElem?_append_left (by omega)] at hd

theorem LineLegible.trimmed {amb : Bool} {cells : List ScreenCell} (h : LineLegible amb cells) :
    LineLegible amb (Scrollback.trimmed cells) := by
  obtain ⟨blanks, heq, hblanks⟩ := (Scrollback.trimmed_spec cells).1
  exact LineLegible.of_append (heq ▸ h) hblanks

/-- A history of legible lines, which holds the last of what was pushed. -/
structure HistoryLegible (amb : Bool) (sb : Scrollback) : Prop where
  lines : ∀ l ∈ sb.ring, LineLegible amb l
  held : ∃ rows, sb.Holds rows

theorem HistoryLegible.create (amb : Bool) (capacity : UInt64) :
    HistoryLegible amb (Scrollback.create capacity.toNat) := by
  refine ⟨fun l hline => ?_, [], Scrollback.Holds.create capacity⟩
  rw [List.eq_of_mem_replicate hline]
  exact .nil amb

theorem HistoryLegible.push {amb : Bool} {sb : Scrollback} (h : HistoryLegible amb sb)
    {cells : List ScreenCell} (hcells : LineLegible amb cells) : HistoryLegible amb (sb.push cells) := by
  obtain ⟨rows, hrows⟩ := h.held
  refine ⟨?_, rows ++ [cells], hrows.push cells⟩
  have hset : ∀ i l, l ∈ sb.ring.set i (Scrollback.trimmed cells) → LineLegible amb l := by
    intro i l hline
    rcases List.mem_or_eq_of_mem_set hline with hline | rfl
    · exact h.lines l hline
    · exact hcells.trimmed
  unfold Scrollback.push
  simp only
  split
  · exact h.lines
  · split <;> split
    · exact hset _
    · exact hset _
    · exact hset _
    · exact hset _

/-- Looking elsewhere in the history. -/
theorem HistoryLegible.scrolled {amb : Bool} {sb sb' : Scrollback} (h : HistoryLegible amb sb)
    (hring : sb'.ring = sb.ring) (hheld : ∀ rows, sb.Holds rows → sb'.Holds rows) :
    HistoryLegible amb sb' := by
  obtain ⟨rows, hrows⟩ := h.held
  exact ⟨hring ▸ h.lines, rows, hheld rows hrows⟩

theorem HistoryLegible.at {amb : Bool} {sb : Scrollback} (h : HistoryLegible amb sb) (i : Nat) :
    LineLegible amb (sb.at i) := by
  unfold Scrollback.at
  split
  · exact .nil amb
  · rw [List.getD_eq_getElem?_getD]
    cases hline : sb.ring[(sb.head + i) % sb.capacity]? with
    | none => exact .nil amb
    | some l => exact h.lines l (List.mem_of_getElem? hline)

/-! ### What the operations write -/

namespace Screen

variable {amb : Bool} {s s' s'' : Screen}

/-- Nothing is written that does not fit, and only on the displayed page. -/
structure Inked (amb : Bool) (s s' : Screen) : Prop where
  grid : (∀ c ∈ s.grid, Fits amb c) → ∀ c ∈ s'.grid, Fits amb c
  parked : s'.parked = s.parked
  scrollback : s'.scrollback = s.scrollback

theorem Inked.trans (h : Inked amb s s') (h' : Inked amb s' s'') : Inked amb s s'' :=
  ⟨fun hfits => h'.grid (h.grid hfits), h'.parked.trans h.parked, h'.scrollback.trans h.scrollback⟩

/-- Whatever happens beside the pages. -/
theorem Inked.of_same (hgrid : s'.grid = s.grid) (hparked : s'.parked = s.parked)
    (hscrollback : s'.scrollback = s.scrollback) : Inked amb s s' :=
  ⟨fun hfits => hgrid ▸ hfits, hparked, hscrollback⟩

theorem Inked.refl (s : Screen) : Inked amb s s := .of_same rfl rfl rfl

theorem fits_at (hfits : ∀ c ∈ s.grid, Fits amb c) (x y : Int) : Fits amb (s.at x y) := by
  have hblank : Fits amb blank := fits_spaces amb {}
  unfold Screen.at pageAt readAt
  split
  · exact hblank
  split
  · rw [List.getD_eq_getElem?_getD]
    cases hc : s.grid[(y * s.cols + x).toNat]? with
    | none => exact hblank
    | some c => exact hfits c (List.mem_of_getElem? hc)
  · exact hblank

theorem Inked.putCell_of {x y : Int} {c : ScreenCell}
    (hc : (∀ c ∈ s.grid, Fits amb c) → Fits amb c) : Inked amb s (s.putCell x y c) := by
  unfold Screen.putCell
  simp only
  split
  · refine ⟨fun hfits d hd => ?_, rfl, rfl⟩
    rcases List.mem_or_eq_of_mem_set hd with hd | rfl
    · exact hfits d hd
    · exact hc hfits
  · exact .of_same rfl rfl rfl

theorem Inked.putCell (h : Inked amb s s') {x y : Int} {c : ScreenCell} (hc : Fits amb c) :
    Inked amb s (s'.putCell x y c) := h.trans (.putCell_of fun _ => hc)

theorem Inked.erase (h : Inked amb s s') (x y : Int) : Inked amb s (s'.putCell x y s'.erased) :=
  h.putCell (fits_spaces amb _)

theorem Inked.fill (h : Inked amb s s') (first last : Int) : Inked amb s (s'.fill first last) := by
  refine h.trans ?_
  unfold Screen.fill
  split
  · refine ⟨fun hfits d hd => ?_, rfl, rfl⟩
    simp only [fillRange, List.mem_append] at hd
    rcases hd with (hd | hd) | hd
    · exact hfits d (List.mem_of_mem_take hd)
    · rw [List.eq_of_mem_replicate hd]
      exact fits_spaces amb _
    · exact hfits d (List.mem_of_mem_drop hd)
  · exact .of_same rfl rfl rfl

theorem Inked.rotate (h : Inked amb s s') (first cut last : Int) :
    Inked amb s (s'.rotate first cut last) := by
  refine h.trans ?_
  unfold Screen.rotate
  split
  · refine ⟨fun hfits d hd => ?_, rfl, rfl⟩
    simp only [rotateRange, List.mem_append] at hd
    rcases hd with ((hd | hd) | hd) | hd
    · exact hfits d (List.mem_of_mem_take hd)
    · exact hfits d (List.mem_of_mem_drop (List.mem_of_mem_take hd))
    · exact hfits d (List.mem_of_mem_drop (List.mem_of_mem_take hd))
    · exact hfits d (List.mem_of_mem_drop hd)
  · exact .of_same rfl rfl rfl

theorem Inked.scrollSliceUp (h : Inked amb s s') (top bottom n : Int) :
    Inked amb s (s'.scrollSliceUp top bottom n) := by
  unfold Screen.scrollSliceUp
  split
  · exact h
  · simp only
    split
    · exact h.fill _ _
    · exact (h.rotate _ _ _).fill _ _

theorem Inked.scrollSliceDown (h : Inked amb s s') (top bottom n : Int) :
    Inked amb s (s'.scrollSliceDown top bottom n) := by
  unfold Screen.scrollSliceDown
  split
  · exact h
  · simp only
    split
    · exact h.fill _ _
    · exact (h.rotate _ _ _).fill _ _

theorem Inked.clearWideAt (h : Inked amb s s') (x y : Int) : Inked amb s (s'.clearWideAt x y) := by
  unfold Screen.clearWideAt
  simp only
  split
  · exact h.erase _ _
  · split
    · exact h.erase _ _
    · exact h

theorem Inked.breakWideAt (h : Inked amb s s') (x y : Int) : Inked amb s (s'.breakWideAt x y) := by
  unfold Screen.breakWideAt
  simp only
  split
  · exact (h.erase _ _).putCell (fits_spaces amb _)
  · split
    · exact (h.erase _ _).putCell (fits_spaces amb _)
    · exact h

theorem Inked.forUp (h : Inked amb s s') {lo hi : Int} {f : Screen → Int → Screen}
    (hf : ∀ t i, Inked amb s t → Inked amb s (f t i)) : Inked amb s (forUp lo hi f s') :=
  forUp_invariant h fun i t _ _ ht => hf t i ht

theorem Inked.eraseSpan (h : Inked amb s s') (x0 x1 y : Int) : Inked amb s (s'.eraseSpan x0 x1 y) := by
  unfold Screen.eraseSpan
  split
  · exact h
  · simp only
    split
    · exact h
    · exact Inked.forUp ((h.clearWideAt _ _).clearWideAt _ _) fun t i ht => ht.putCell (fits_spaces amb _)

theorem Inked.eraseRows (h : Inked amb s s') (lo hi : Int) : Inked amb s (s'.eraseRows lo hi) :=
  Inked.forUp h fun _ _ ht => ht.eraseSpan _ _ _

theorem Inked.eraseDisplay (h : Inked amb s s') (mode : Int) : Inked amb s (s'.eraseDisplay mode) := by
  unfold Screen.eraseDisplay
  split
  · exact (h.eraseSpan _ _ _).eraseRows _ _
  · split
    · exact (h.eraseRows _ _).eraseSpan _ _ _
    · split
      · exact h.eraseRows _ _
      · exact h

theorem Inked.eraseLine (h : Inked amb s s') (mode : Int) : Inked amb s (s'.eraseLine mode) := by
  unfold Screen.eraseLine
  split
  · exact h.eraseSpan _ _ _
  · split
    · exact h.eraseSpan _ _ _
    · split
      · exact h.eraseSpan _ _ _
      · exact h

/-- A cell that is copied fits where it comes from. -/
theorem Inked.copy (h : Inked amb s s') (x y x' y' : Int) :
    Inked amb s (s'.putCell x y (s'.at x' y')) :=
  h.trans (.putCell_of fun hfits => fits_at hfits x' y')

theorem Inked.insertChars (s : Screen) (n : Int) : Inked amb s (s.insertChars n) := by
  unfold Screen.insertChars
  split
  · exact .refl s
  · simp only
    have hmoved : ∀ lo hi (g : Int → Int) y, Inked amb s
        (forDown lo hi (fun t x => t.putCell x y (t.at (g x) y)) (s.breakWideAt s.cx s.cy)) :=
      fun lo hi g y => List.foldlRecOn _ _ ((Inked.refl s).breakWideAt _ _) fun t ht _ _ => ht.copy _ _ _ _
    have herased := (hmoved (s.cx + min n (s.cols - s.cx)) (s.breakWideAt s.cx s.cy).cols
      (fun x => x - min n (s.cols - s.cx)) s.cy).eraseSpan s.cx (s.cx + min n (s.cols - s.cx) - 1) s.cy
    split
    · exact herased.erase _ _
    · exact herased

theorem Inked.deleteChars (s : Screen) (n : Int) : Inked amb s (s.deleteChars n) := by
  unfold Screen.deleteChars
  split
  · exact .refl s
  · simp only
    refine Inked.eraseSpan (Inked.forUp ?_ fun t x ht => ht.copy _ _ _ _) _ _ _
    exact ((Inked.refl s).breakWideAt _ _).breakWideAt _ _

/-! ### Legible screens -/

/-- Every cell fits, and the history is legible. -/
structure Legible (amb : Bool) (s : Screen) : Prop where
  grid : ∀ c ∈ s.grid, Fits amb c
  parked : ∀ c ∈ s.parked, Fits amb c
  history : ∀ sb, s.scrollback = some sb → HistoryLegible amb sb

theorem Legible.of_inked (h : Legible amb s) (hi : Inked amb s s') : Legible amb s' :=
  ⟨hi.grid h.grid, hi.parked ▸ h.parked, hi.scrollback ▸ h.history⟩

theorem Legible.of_same (h : Legible amb s) (hgrid : s'.grid = s.grid) (hparked : s'.parked = s.parked)
    (hscrollback : s'.scrollback = s.scrollback) : Legible amb s' :=
  h.of_inked (.of_same hgrid hparked hscrollback)

/-- A row of a page without torn characters. -/
theorem line_legible (hgrid : ∀ c ∈ s.grid, Fits amb c) (hp : s.ShownPaired) (y : Int) :
    LineLegible amb (s.line y) := by
  have hcell : ∀ (i : Nat) c, (s.line y)[i]? = some c ↔ i < s.cols.toNat ∧ s.at i y = c := by
    intro i c
    unfold Screen.line
    rw [List.getElem?_map]
    by_cases hi : i < s.cols.toNat
    · simp [hi]
    · simp [hi]
  refine ⟨fun c hc => ?_, fun i c hi hw => ?_, fun i c hi hw => ?_⟩
  · obtain ⟨i, hi⟩ := List.mem_iff_getElem?.1 hc
    rw [← ((hcell i c).1 hi).2]
    exact fits_at hgrid i y
  · obtain ⟨hlt, rfl⟩ := (hcell i c).1 hi
    have hnext : (s.at (i + 1) y).width = 0 := (hp.at i y).1 hw
    refine ⟨s.at (i + 1) y, (hcell _ _).2 ⟨?_, by push_cast; rfl⟩, hnext⟩
    by_contra hedge
    have hoff : ¬ s.OnPage (i + 1) y := by
      intro hon
      have := hon.2.1
      omega
    rw [at_width_off hoff] at hnext
    cases hnext
  · obtain ⟨hlt, rfl⟩ := (hcell i c).1 hi
    have hprev : (s.at (i - 1) y).width = 2 := (hp.at i y).2 hw
    have hpos : 0 < i := by
      by_contra h0
      have hoff : ¬ s.OnPage (i - 1) y := by
        intro hon
        have := hon.1
        omega
      rw [at_width_off hoff] at hprev
      cases hprev
    refine ⟨i - 1, s.at (i - 1) y, by omega, (hcell _ _).2 ⟨by omega, ?_⟩, hprev⟩
    congr 1
    omega

theorem Legible.fed (h : Legible amb s) (hp : s.ShownPaired) {sb : Scrollback} (hsb : s.fed = some sb) :
    HistoryLegible amb sb := by
  unfold Screen.fed at hsb
  split at hsb
  · obtain ⟨sb', hsb', rfl⟩ := Option.map_eq_some_iff.1 hsb
    exact (h.history sb' hsb').push (line_legible h.grid hp 0)
  · exact h.history sb hsb

theorem Legible.lineFeed (h : Legible amb s) (hs : s.Bounded) (hp : s.ShownPaired) :
    Legible amb s.lineFeed := by
  unfold Screen.lineFeed
  simp only
  split
  · unfold scrollUp
    simp only
    have hb : Bounded { s with wrapPending := false } := { hs with }
    rw [pushTopLine_eq hb]
    have hpushed : Legible amb
        { s with wrapPending := false, scrollback := Screen.fed { s with wrapPending := false } } :=
      ⟨h.grid, h.parked, fun sb hsb => Legible.fed (s := { s with wrapPending := false })
        ⟨h.grid, h.parked, h.history⟩ hp hsb⟩
    exact hpushed.of_inked ((Inked.refl _).scrollSliceUp _ _ _)
  · split
    · exact h.of_same rfl rfl rfl
    · exact h.of_same rfl rfl rfl

theorem Legible.deposit (h : Legible amb s) {cp w : Nat} (hw : w = charWidth amb cp) :
    Legible amb (s.deposit cp w) := by
  refine h.of_inked ?_
  unfold Screen.deposit
  simp only
  have hcleared : Inked amb s
      (if w = 2 ∧ s.cx + 1 < (s.clearWideAt s.cx s.cy).cols then
        (s.clearWideAt s.cx s.cy).clearWideAt (s.cx + 1) s.cy
      else s.clearWideAt s.cx s.cy) := by
    split
    · exact ((Inked.refl s).clearWideAt _ _).clearWideAt _ _
    · exact (Inked.refl s).clearWideAt _ _
  generalize (if w = 2 ∧ s.cx + 1 < (s.clearWideAt s.cx s.cy).cols then
    (s.clearWideAt s.cx s.cy).clearWideAt (s.cx + 1) s.cy else s.clearWideAt s.cx s.cy) = t at hcleared ⊢
  have hput : Inked amb s (t.putCell s.cx s.cy { ch := cp, width := w, style := t.pen }) :=
    hcleared.putCell fun _ => hw
  split
  · exact hput.putCell (fits_half amb _)
  · exact hput

theorem Legible.advance (h : Legible amb s) (w : Nat) : Legible amb (s.advance w) := by
  unfold Screen.advance
  simp only
  split <;> exact h.of_same rfl rfl rfl

theorem Legible.wrapIfPending (h : Legible amb s) (hs : s.Bounded) (hp : s.ShownPaired) :
    Legible amb s.wrapIfPending := by
  unfold Screen.wrapIfPending
  split
  · have hb : Bounded { s with wrapPending := false, cx := 0 } :=
      hs.moved ⟨Int.le_refl 0, hs.cols_pos⟩ hs.cy false
    exact Legible.lineFeed (s := { s with wrapPending := false, cx := 0 })
      ⟨h.grid, h.parked, h.history⟩ hb hp
  · exact h

theorem Legible.print (h : Legible amb s) (hs : s.Bounded) (hp : s.Paired) (cp : Nat) :
    Legible amb (s.print amb cp) := by
  have hwrapped := h.wrapIfPending hs hp.shown
  have hb := hs.wrapIfPending
  have hpw := hp.wrapIfPending hs
  unfold Screen.print
  simp only
  generalize s.wrapIfPending = t at hwrapped hb hpw
  split
  · exact h
  · split
    · split
      · exact hwrapped
      · have hb' : Bounded { t with cx := 0 } := hb.moved ⟨Int.le_refl 0, hb.cols_pos⟩ hb.cy t.wrapPending
        have hfed : Legible amb (Screen.lineFeed { t with cx := 0 }) :=
          Legible.lineFeed (s := { t with cx := 0 }) ⟨hwrapped.grid, hwrapped.parked, hwrapped.history⟩
            hb' hpw.shown
        exact (hfed.deposit rfl).advance _
    · exact (hwrapped.deposit rfl).advance _

/-- The columns of a page that are kept. -/
theorem fits_reshape (s : Screen) {page : List ScreenCell} (hpage : ∀ c ∈ page, Fits amb c)
    (cols rows : Int) : ∀ c ∈ (s.reshape page cols rows).out, Fits amb c := by
  have hput : ∀ (d : Draft) (i : Int) (new : ScreenCell), (∀ c ∈ d.out, Fits amb c) → Fits amb new →
      ∀ c ∈ (d.put i new).out, Fits amb c := by
    intro d i new hd hnew e he
    unfold Draft.put at he
    split at he
    · rcases List.mem_or_eq_of_mem_set he with he | rfl
      · exact hd e he
      · exact hnew
    · exact hd e he
  have hread : ∀ i, Fits amb (readAt blank page i) := by
    intro i
    unfold readAt
    split
    · rw [List.getD_eq_getElem?_getD]
      cases hc : page[i.toNat]? with
      | none => exact fits_spaces amb {}
      | some c => exact hpage c (List.mem_of_getElem? hc)
    · exact fits_spaces amb {}
  unfold reshape
  refine forUp_invariant (P := fun d : Draft => ∀ c ∈ d.out, Fits amb c) ?_ fun y d _ _ hd => ?_
  · intro c hc
    rw [List.eq_of_mem_replicate hc]
    exact fits_spaces amb _
  · unfold copyRow
    have hcopied : ∀ c ∈ (forUp 0 (min cols s.cols) (s.copyCell page cols y) d).out, Fits amb c := by
      refine forUp_invariant (P := fun d : Draft => ∀ c ∈ d.out, Fits amb c) hd fun x d _ _ hd => ?_
      unfold copyCell
      simp only
      split
      · exact hput d _ _ hd (hread _)
      · exact hd
    simp only
    split
    · split
      · exact hput _ _ _ hcopied (fits_spaces amb _)
      · exact hcopied
    · exact hcopied

theorem Legible.enterAltScreen (h : Legible amb s) : Legible amb s.enterAltScreen := by
  unfold Screen.enterAltScreen
  split
  · exact h
  · refine ⟨fun c hc => ?_, h.grid, h.history⟩
    rw [List.eq_of_mem_replicate hc]
    exact fits_spaces amb _

theorem Legible.leaveAltScreen (h : Legible amb s) : Legible amb s.leaveAltScreen := by
  unfold Screen.leaveAltScreen
  split
  · exact h
  · exact ⟨h.parked, h.grid, h.history⟩

theorem Legible.resetTabs (h : Legible amb s) (hc : 1 ≤ s.cols) : Legible amb s.resetTabs := by
  obtain ⟨tabs, heq, -⟩ := resetTabs_spec hc
  rw [heq]
  exact h.of_same rfl rfl rfl

theorem Legible.resize (h : Legible amb s) (cols rows : Int) : Legible amb (s.resize cols rows) := by
  have hpages : Legible amb ((s.resizePages (max 1 cols) (max 1 rows)).adoptSize (max 1 cols) (max 1 rows)) := by
    unfold resizePages adoptSize
    split
    · refine ⟨fun c hc => ?_, fits_reshape s h.parked _ _, h.history⟩
      rw [List.eq_of_mem_replicate hc]
      exact fits_spaces amb _
    · exact ⟨fits_reshape s h.grid _ _, h.parked, h.history⟩
  unfold Screen.resize
  simp only
  split
  · exact h
  · split
    · exact hpages.resetTabs (Int.le_max_left 1 cols)
    · exact hpages

theorem Legible.scrollDown (h : Legible amb s) : Legible amb s.scrollDown :=
  h.of_inked ((Inked.refl s).scrollSliceDown _ _ _)

theorem Legible.create (amb : Bool) (cols rows : Int) : Legible amb (Screen.create cols rows) := by
  obtain ⟨tabs, -, heq⟩ := create_spec cols rows
  rw [heq]
  refine ⟨fun c hc => ?_, by simp, by simp⟩
  rw [List.eq_of_mem_replicate hc]
  exact fits_spaces amb {}

/-- Every operation but the gift of another history keeps a whole screen legible. -/
theorem Legible.step (h : Legible amb s) (hs : s.Bounded) (hp : s.Paired) (op : ScreenOp)
    (hop : ∀ sb, op ≠ .setScrollback sb) : Legible amb (s.step amb op) := by
  have hsame : ∀ {s' : Screen}, s'.grid = s.grid → s'.parked = s.parked →
      s'.scrollback = s.scrollback → Legible amb s' := h.of_same
  cases op with
  | print cp => exact h.print hs hp cp
  | lineFeed => exact h.lineFeed hs hp.shown
  | index => exact h.lineFeed hs hp.shown
  | nextLine =>
      have hb : s.carriageReturn.Bounded := hs.moved ⟨Int.le_refl 0, hs.cols_pos⟩ hs.cy false
      exact Legible.lineFeed (s := s.carriageReturn) (hsame rfl rfl rfl) hb hp.shown
  | reverseIndex =>
      show Legible amb s.reverseIndex
      have hclear : Legible amb { s with wrapPending := false } := hsame rfl rfl rfl
      unfold Screen.reverseIndex
      simp only
      split
      · exact hclear.scrollDown
      · split
        · exact hsame rfl rfl rfl
        · exact hclear
  | eraseDisplay mode => exact h.of_inked ((Inked.refl s).eraseDisplay mode)
  | eraseLine mode => exact h.of_inked ((Inked.refl s).eraseLine mode)
  | eraseChars n => exact h.of_inked ((Inked.refl s).eraseSpan _ _ _)
  | insertChars n => exact h.of_inked (Inked.insertChars s n)
  | deleteChars n => exact h.of_inked (Inked.deleteChars s n)
  | insertLines n =>
      show Legible amb (s.insertLines n)
      unfold Screen.insertLines
      split
      · exact h
      · exact h.of_inked ((Inked.refl s).scrollSliceDown _ _ _)
  | deleteLines n =>
      show Legible amb (s.deleteLines n)
      unfold Screen.deleteLines
      split
      · exact h
      · exact h.of_inked ((Inked.refl s).scrollSliceUp _ _ _)
  | enterAltScreen => exact h.enterAltScreen
  | leaveAltScreen => exact h.leaveAltScreen
  | resize cols rows => exact h.resize cols rows
  | setScrollback sb => exact absurd rfl (hop sb)
  | backspace =>
      show Legible amb s.backspace
      unfold Screen.backspace
      repeat' split
      all_goals exact hsame rfl rfl rfl
  | tab =>
      have htab : ∀ (t : Screen) left x, Inked amb t (tabFrom t left x) := by
        intro t left
        induction left with
        | zero => exact fun x => .of_same rfl rfl rfl
        | succ left ih =>
            intro x
            unfold tabFrom
            repeat' split
            · exact .of_same rfl rfl rfl
            · exact ih (x + 1)
            · exact .of_same rfl rfl rfl
      have hclear : Legible amb { s with wrapPending := false } := hsame rfl rfl rfl
      exact hclear.of_inked (htab _ _ _)
  | setTab =>
      show Legible amb (if 0 ≤ s.cx ∧ s.cx < s.cols then s.putTab s.cx true else s)
      unfold putTab
      repeat' split
      all_goals exact hsame rfl rfl rfl
  | clearTab =>
      show Legible amb (if 0 ≤ s.cx ∧ s.cx < s.cols then s.putTab s.cx false else s)
      unfold putTab
      repeat' split
      all_goals exact hsame rfl rfl rfl
  | setScrollRegion top bottom =>
      show Legible amb (s.setScrollRegion top bottom)
      unfold Screen.setScrollRegion
      simp only
      split <;> exact hsame rfl rfl rfl
  | _ => exact hsame rfl rfl rfl

end Screen

end Sshos.Vt
