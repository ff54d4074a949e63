import Sshos.Lib.Run
import Sshos.Vt.ScreenBounds

/-!
# Sshos.Vt.ScreenAlt

A **detour through the alternate screen**: what a full-screen program finds when it
leaves, and what a resize behind it makes of the page that waits outside.
-/

namespace Sshos.Vt

open Sshos.Lib
open Sshos.Render

namespace Screen

/-! ### There and back -/

/-- What a program may do without leaving the alternate screen or its size. -/
def staysInside (op : ScreenOp) : Prop := op ≠ .leaveAltScreen ∧ ∀ c r, op ≠ .resize c r

/-- The history that is attached, when nothing else happens to it. -/
def attached (sb : Option Scrollback) : ScreenOp → Option Scrollback
  | .setScrollback sb' => sb'
  | _ => sb

section Inside

variable {s : Screen} (amb : Bool)

/-- Inside, nothing that waits outside is touched. -/
theorem inside_outside (halt : s.alt = true) {op : ScreenOp} (hop : staysInside op) :
    (s.step amb op).outside = s.outside := by
  by_cases henter : op = .enterAltScreen
  · rw [henter]
    have hstay : s.enterAltScreen = s := if_pos halt
    exact congrArg outside hstay
  · exact s.step_outside amb hop.2 henter hop.1

/-- Inside, no line is handed to the history. -/
theorem inside_scrollback (halt : s.alt = true) {op : ScreenOp} (hop : staysInside op) :
    (s.step amb op).scrollback = attached s.scrollback op := by
  by_cases henter : op = .enterAltScreen
  · rw [henter]
    have hstay : s.enterAltScreen = s := if_pos halt
    exact congrArg scrollback hstay
  by_cases hauto : ∃ on, op = .setAutowrap on
  · obtain ⟨on, rfl⟩ := hauto
    rfl
  by_cases hattach : ∃ sb, op = .setScrollback sb
  · obtain ⟨sb, rfl⟩ := hattach
    rfl
  have hkept := s.step_kept amb hop.2 henter hop.1 (fun on h => hauto ⟨on, h⟩)
    fun sb h => hattach ⟨sb, h⟩
  have halt' : (s.step amb op).alt = true := (congrArg (·.outside.alt) hkept).trans halt
  have hhistory := congrArg Kept.history hkept
  simp only [kept, halt, halt', if_true] at hhistory
  rw [hhistory]
  unfold attached
  split
  · next sb => exact absurd rfl (fun h => hattach ⟨sb, h⟩)
  · rfl

theorem run_inside {ops : List ScreenOp} (halt : s.alt = true) (hops : ∀ op ∈ ops, staysInside op) :
    (run (Screen.step amb) s ops).outside = s.outside ∧
      (run (Screen.step amb) s ops).scrollback = ops.foldl attached s.scrollback := by
  induction ops generalizing s with
  | nil => exact ⟨rfl, rfl⟩
  | cons op ops ih =>
      have hop := hops op (List.mem_cons_self ..)
      have hout := inside_outside amb halt hop
      have halt' : (s.step amb op).alt = true := (congrArg Outside.alt hout).trans halt
      obtain ⟨hrest, hsb⟩ := ih halt' fun op' hmem => hops op' (List.mem_cons_of_mem op hmem)
      rw [run_cons, List.foldl_cons, hrest, hsb, inside_scrollback amb halt hop]
      exact ⟨hout, rfl⟩

end Inside

/-- **A program leaves the shell's page as it found it**: the page, the cursor, its
pending wrap, the pen, the character set and what `DECSC` saved; and its own lines never
reach the history. -/
theorem alt_detour_restores (amb : Bool) {s : Screen} (halt : s.alt = false) {ops : List ScreenOp}
    (hops : ∀ op ∈ ops, staysInside op) :
    let inside := fun ops => run (Screen.step amb) s.enterAltScreen ops
    let t := (inside ops).leaveAltScreen
    (t.alt = false ∧ t.grid = s.grid ∧ t.cx = s.cx ∧ t.cy = s.cy ∧
      t.wrapPending = s.wrapPending ∧ t.pen = s.pen ∧ t.charset = s.charset ∧ t.saved = s.saved) ∧
    (∀ before, before <+: ops → (inside before).scrollback = before.foldl attached s.scrollback) ∧
    t.scrollback = ops.foldl attached s.scrollback := by
  have henter : s.enterAltScreen =
      { s with parked := s.grid, grid := s.erasedPage s.cols s.rows, parkedCursor := s.cursorState,
               parkedDecsc := s.saved, saved := {}, alt := true } := if_neg (by simp [halt])
  intro inside t
  have hall : ∀ before, before <+: ops →
      (inside before).outside = s.enterAltScreen.outside ∧
        (inside before).scrollback = before.foldl attached s.scrollback := by
    intro before hbegins
    have h := run_inside amb (s := s.enterAltScreen) (by rw [henter]) fun op hmem =>
      hops op (hbegins.subset hmem)
    refine ⟨h.1, h.2.trans ?_⟩
    rw [henter]
  obtain ⟨hout, hsb⟩ := hall ops (List.prefix_refl ops)
  rw [henter] at hout
  have hinside : (inside ops).alt = true := congrArg Outside.alt hout
  have hleave : t = _ := if_neg (show ¬ ¬ (inside ops).alt = true by simp [hinside])
  have hpage : (inside ops).parked = s.grid := congrArg Outside.parked hout
  have hcursor : (inside ops).parkedCursor = s.cursorState := congrArg Outside.parkedCursor hout
  have hdecsc : (inside ops).parkedDecsc = s.saved := congrArg Outside.parkedDecsc hout
  refine ⟨?_, fun before hbegins => (hall before hbegins).2, ?_⟩
  · rw [hleave]
    simp only [hpage, hcursor, hdecsc, cursorState, and_self]
  · rw [hleave]
    exact hsb

/-- A prompt, and a program that writes, scrolls and saves a cursor of its own. -/
theorem alt_detour_restores_prompt :
    let s := run (Screen.step false) (Screen.create 3 2) [.print 0x24]
    let t := (run (Screen.step false) s.enterAltScreen
      [.print 0x41, .lineFeed, .lineFeed, .saveCursor, .enterAltScreen]).leaveAltScreen
    t.grid = s.grid ∧ t.cx = 1 := by
  have h := @alt_detour_restores false
    (run (Screen.step false) (Screen.create 3 2) [.print 0x24]) (by decide +kernel)
    [.print 0x41, .lineFeed, .lineFeed, .saveCursor, .enterAltScreen] (by simp [staysInside])
  exact ⟨h.1.2.1, h.1.2.2.1.trans (by decide +kernel)⟩

/-! ### A resize on the way -/

/-- A page is what it shows. -/
theorem page_ext {cols rows : Int} {page page' : List ScreenCell} (hc : 1 ≤ cols)
    (hsize : (page.length : Int) = cols * rows) (hsize' : (page'.length : Int) = cols * rows)
    (h : ∀ x y, 0 ≤ x → x < cols → 0 ≤ y → y < rows →
      pageAt cols rows page x y = pageAt cols rows page' x y) : page = page' := by
  refine List.ext_getElem (by omega) fun i hi hi' => ?_
  -- the cell in column `i % cols` of row `i / cols`
  have hx0 : 0 ≤ (i : Int) % cols := Int.emod_nonneg _ (by omega)
  have hx : (i : Int) % cols < cols := Int.emod_lt_of_pos _ (by omega)
  have hy0 : 0 ≤ (i : Int) / cols := Int.ediv_nonneg (by omega) (by omega)
  have hy : (i : Int) / cols < rows := Int.ediv_lt_of_lt_mul (by omega) (by rw [mul_comm]; omega)
  have hcell := h _ _ hx0 hx hy0 hy
  have hindex : (i : Int) / cols * cols + i % cols = i := by
    rw [mul_comm]
    exact Int.mul_ediv_add_emod i cols
  rw [pageAt_of_mem hx0 hx hy0 hy, pageAt_of_mem hx0 hx hy0 hy, hindex] at hcell
  simpa [readAt, hi, hi'] using hcell

/-- The cut adds a cell to the page, or erases a first half against it. -/
def CutErases (s : Screen) (cols rows : Int) : Prop :=
  s.cols < cols ∨ s.rows < rows ∨
    ∃ y, 0 ≤ y ∧ y < rows ∧ (s.at (cols - 1) y).width = 2

section Resize

variable {s t : Screen}

/-- What a resize does to the pages and the dimensions, the stops aside. -/
theorem resize_pages {cols rows : Int} (hne : ¬ (max 1 cols = s.cols ∧ max 1 rows = s.rows)) :
    ∃ tabs, s.resize cols rows =
      { (s.resizePages (max 1 cols) (max 1 rows)).adoptSize (max 1 cols) (max 1 rows) with
        tabs := tabs } := by
  have hres : s.resize cols rows = _ := if_neg hne
  rw [hres]
  simp only
  split
  · obtain ⟨tabs, htabs, -⟩ := resetTabs_spec
      (s := (s.resizePages (max 1 cols) (max 1 rows)).adoptSize (max 1 cols) (max 1 rows))
      (show 1 ≤ max 1 cols by omega)
    exact ⟨tabs, htabs⟩
  · exact ⟨_, rfl⟩

theorem resize_grid (halt : s.alt = false) {cols rows : Int}
    (hne : ¬ (max 1 cols = s.cols ∧ max 1 rows = s.rows)) :
    (s.resize cols rows).grid = (s.reshape s.grid (max 1 cols) (max 1 rows)).out := by
  obtain ⟨tabs, hres⟩ := resize_pages hne
  rw [hres]
  unfold resizePages
  rw [if_neg (by simp [halt])]
  rfl

theorem resize_leave_grid (halt : t.alt = true) {cols rows : Int}
    (hne : ¬ (max 1 cols = t.cols ∧ max 1 rows = t.rows)) :
    (t.resize cols rows).leaveAltScreen.grid =
      (t.reshape t.parked (max 1 cols) (max 1 rows)).out := by
  obtain ⟨tabs, hres⟩ := resize_pages hne
  rw [hres]
  unfold resizePages leaveAltScreen
  rw [if_pos halt]
  simp only [adoptSize, halt, not_true_eq_false, if_false]

/-- Two screens of one size cut a page alike when their pens have one background, or
when there is nothing to erase. -/
theorem reshape_eq_iff (hs : s.Sized) (ht : t.Sized) (hcols : t.cols = s.cols)
    (hrows : t.rows = s.rows) {cols rows : Int} (hc : 1 ≤ cols) (hr : 1 ≤ rows) :
    (t.reshape s.grid cols rows).out = (s.reshape s.grid cols rows).out ↔
      t.pen.bg = s.pen.bg ∨ ¬ s.CutErases cols rows := by
  have hds := reshape_draws hs hs.grid hc hr
  have hgrid : (s.grid.length : Int) = t.cols * t.rows := by
    rw [hcols, hrows]
    exact hs.grid
  have hdt := reshape_draws ht hgrid hc hr
  rw [hcols, hrows] at hdt
  have hscols := hs.cols_pos
  have hsrows := hs.rows_pos
  constructor
  · intro heq
    by_contra hno
    simp only [not_or, not_not] at hno
    obtain ⟨hbg, hcut⟩ := hno
    -- an erased cell shows the pen
    have hsame : t.erased = s.erased := by
      obtain hwide | hhigh | ⟨y, hy0, hy, hhalf⟩ := hcut
      · have h₁ := hds.cells s.cols 0 (by omega) hwide (by omega) (by omega)
        have h₂ := hdt.cells s.cols 0 (by omega) hwide (by omega) (by omega)
        rw [if_neg (by omega)] at h₁ h₂
        rw [← h₁, ← h₂, heq]
      · have h₁ := hds.cells 0 s.rows (by omega) (by omega) (by omega) hhigh
        have h₂ := hdt.cells 0 s.rows (by omega) (by omega) (by omega) hhigh
        rw [if_neg (by omega)] at h₁ h₂
        rw [← h₁, ← h₂, heq]
      · have hon := onPage_of_width (s := s) (x := cols - 1) (y := y) (by omega)
        have hedge : cols - 1 = min cols s.cols - 1 := by have := hon.2.1; omega
        have h₁ := hds.cells (cols - 1) y (by omega) (by omega) hy0 hy
        have h₂ := hdt.cells (cols - 1) y (by omega) (by omega) hy0 hy
        rw [if_pos ⟨hon.2.1, hon.2.2.2⟩, if_pos ⟨hedge, hhalf⟩] at h₁ h₂
        rw [← h₁, ← h₂, heq]
    exact hbg (congrArg (·.style.bg) hsame)
  · intro hcond
    refine page_ext hc hdt.size hds.size fun x y hx0 hx hy0 hy => ?_
    rw [hds.cells x y hx0 hx hy0 hy, hdt.cells x y hx0 hx hy0 hy]
    obtain hbg | hcut := hcond
    · unfold erased
      rw [hbg]
    · simp only [CutErases, not_or, not_exists, not_and] at hcut
      obtain ⟨hwide, hhigh, hhalf⟩ := hcut
      have hin : x < s.cols ∧ y < s.rows := by omega
      have hnone : ¬ (x = min cols s.cols - 1 ∧ (pageAt s.cols s.rows s.grid x y).width = 2) := by
        rintro ⟨rfl, h2⟩
        refine hhalf y hy0 hy ?_
        rwa [show min cols s.cols - 1 = cols - 1 by omega] at h2
      rw [if_pos hin, if_pos hin, if_neg hnone, if_neg hnone]

/-- **A resize behind the alternate screen** cuts the waiting page as it would have cut
it on the screen, exactly when the program's pen has the shell's background, or no cell
is added or erased. -/
theorem resize_detour_iff (amb : Bool) {s : Screen} (hs : s.Bounded) (halt : s.alt = false)
    {ops : List ScreenOp} (hops : ∀ op ∈ ops, staysInside op) (cols rows : Int) :
    let t := run (Screen.step amb) s.enterAltScreen ops
    (t.resize cols rows).leaveAltScreen.grid = (s.resize cols rows).grid ↔
      (max 1 cols = s.cols ∧ max 1 rows = s.rows) ∨ t.pen.bg = s.pen.bg ∨
        ¬ s.CutErases (max 1 cols) (max 1 rows) := by
  have henter : s.enterAltScreen =
      { s with parked := s.grid, grid := s.erasedPage s.cols s.rows, parkedCursor := s.cursorState,
               parkedDecsc := s.saved, saved := {}, alt := true } := if_neg (by simp [halt])
  intro t
  have ht : t.Bounded := Bounded.run amb hs.enterAltScreen ops
  have hout : t.outside = _ := (run_inside amb (by rw [henter]) hops).1
  rw [henter] at hout
  have hinside : t.alt = true := congrArg Outside.alt hout
  have hcols : t.cols = s.cols := congrArg Outside.cols hout
  have hrows : t.rows = s.rows := congrArg Outside.rows hout
  have hparked : t.parked = s.grid := congrArg Outside.parked hout
  by_cases hsame : max 1 cols = s.cols ∧ max 1 rows = s.rows
  · have hstay : s.resize cols rows = s := if_pos hsame
    have hstay' : t.resize cols rows = t := if_pos (by rw [hcols, hrows]; exact hsame)
    have hleave : t.leaveAltScreen = _ := if_neg (show ¬ ¬ t.alt = true by simp [hinside])
    rw [hstay, hstay', hleave]
    exact iff_of_true hparked (.inl hsame)
  · rw [resize_grid halt hsame, resize_leave_grid hinside (by rw [hcols, hrows]; exact hsame),
      hparked, reshape_eq_iff hs.sized ht.sized hcols hrows (by omega) (by omega)]
    exact (or_iff_right hsame).symm

/-- Two letters and a full-width character on a page of four columns; a program that leaves the
pen alone, and a resize that cuts the character. -/
theorem resize_detour_iff_plain :
    let s := run (Screen.step false) (Screen.create 4 2) [.print 0x61, .print 0x62, .print 0x4E00]
    let t := run (Screen.step false) s.enterAltScreen [.print 0x41]
    (t.resize 3 3).leaveAltScreen.grid = (s.resize 3 3).grid :=
  (resize_detour_iff false (Bounded.run false (Bounded.create 4 2) _) (by decide +kernel)
    (by simp [staysInside]) 3 3).2 (.inr (.inl (by decide +kernel)))

/-- A program that leaves a pen with a background of its own, on a page that grows by
one column. -/
theorem resize_detour_background :
    let s := Screen.create 1 1
    let t := run (Screen.step false) s.enterAltScreen [.setPen { bg := .indexed 4 }]
    (t.resize 2 1).leaveAltScreen.grid ≠ (s.resize 2 1).grid := by
  decide +kernel

end Resize

end Screen

end Sshos.Vt
