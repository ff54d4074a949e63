import Sshos.Vt.ScreenWide

/-!
# Sshos.Vt.ScreenEdits

**Inserting and deleting characters**, cell by cell, against what they should do to a row whose
full-width characters are whole. A deletion breaks more than it splits: the character that begins at
the end of the cut goes too. And both erase at the end with an eye on cells that have moved since.
-/

namespace Sshos.Vt

open Sshos.Lib
open Sshos.Render

namespace Screen

variable {s : Screen}

/-- The cursor's row. -/
def row (s : Screen) (x : Int) : ScreenCell := s.at x s.cy

/-- The character whose second half is at column `c` covers column `x`. -/
def SplitAt (s : Screen) (c x : Int) : Prop := (s.row c).width = 0 ∧ (x = c ∨ x = c - 1)

instance (s : Screen) (c x : Int) : Decidable (s.SplitAt c x) := inferInstanceAs (Decidable (_ ∧ _))

/-- The character that has a half at column `c` covers column `x`. -/
def Covers (s : Screen) (c x : Int) : Prop :=
  s.SplitAt c x ∨ (s.row c).width = 2 ∧ (x = c ∨ x = c + 1)

instance (s : Screen) (c x : Int) : Decidable (s.Covers c x) := inferInstanceAs (Decidable (_ ∨ _))

/-- A row is paired. -/
def RowPaired (s : Screen) : Prop := ∀ x, PairedAt s.row x

/-- How many cells a count stands for. -/
def room (s : Screen) (n : Int) : Int := min n (s.cols - s.cx)

/-! ### Deleting -/

/-- The row, without the characters that a deletion of `k` cells splits. -/
def cutRow (s : Screen) (k x : Int) : ScreenCell :=
  if s.SplitAt s.cx x ∨ s.SplitAt (s.cx + k) x then s.erased else s.row x

/-- What a deletion of `k` cells should do. -/
structure Deleted (s : Screen) (k : Int) (t : Screen) : Prop where
  frame : t = { s with grid := t.grid }
  others : ∀ x y, y ≠ s.cy → t.at x y = s.at x y
  before : ∀ x, x < s.cx → t.at x s.cy = s.cutRow k x
  shifted : ∀ x, s.cx ≤ x → x < s.cols - k → t.at x s.cy = s.cutRow k (x + k)
  vacated : ∀ x, s.cols - k ≤ x → x < s.cols → t.at x s.cy = s.erased
  whole : ∀ x, s.cx + k ≤ x → (s.row x).width = 2 →
    t.at (x - k) s.cy = s.row x ∧ t.at (x - k + 1) s.cy = s.row (x + 1)

/-- No character begins at the end of the cut; and if a second half stands where the vacated end
begins, and is broken by neither end of the cut, then the row ends with an erased cell already. -/
def CleanCut (s : Screen) (k : Int) : Prop :=
  (s.row (s.cx + k)).width ≠ 2 ∧
    (s.KeptHalf k (s.cols - k) → s.cutRow k (s.cols - 1) = s.erased)

/-! ### Inserting -/

/-- The row, without the character that an insertion splits. -/
def openRow (s : Screen) (x : Int) : ScreenCell := if s.SplitAt s.cx x then s.erased else s.row x

/-- The row, without the character the cursor is on. -/
def brokenRow (s : Screen) (x : Int) : ScreenCell :=
  if s.Covers s.cx x then s.erased else s.row x

/-- What an insertion of `k` cells into the row `line` should do, the cells `spared` aside. -/
structure Inserted (s : Screen) (line : Int → ScreenCell) (spared : Int → Prop) (k : Int)
    (t : Screen) : Prop where
  frame : t = { s with grid := t.grid }
  others : ∀ x y, y ≠ s.cy → t.at x y = s.at x y
  before : ∀ x, x < s.cx → t.at x s.cy = line x
  opened : ∀ x, s.cx ≤ x → x < s.cx + k → t.at x s.cy = s.erased
  shifted : ∀ x, s.cx + k ≤ x → x < s.cols → ¬ spared x → t.at x s.cy =
    -- the half that lost its second one at the margin
    if x = s.cols - 1 ∧ (line (x - k)).width = 2 then s.erased else line (x - k)

/-- The cell after the gap, when a character begins under the gap's last column. -/
def AfterGap (s : Screen) (k x : Int) : Prop :=
  x = s.cx + k ∧ 2 ≤ k ∧ (s.row (s.cx + k - 1)).width = 2

/-! ### Breaking characters -/

theorem row_off {x : Int} (h : ¬ (0 ≤ x ∧ x < s.cols)) : s.row x = blank :=
  at_off fun hon => h ⟨hon.1, hon.2.1⟩

/-- The column and its neighbours in a paired row. -/
theorem RowPaired.around (hp : s.RowPaired) (x : Int) :
    PairedAt s.row x ∧ (¬ (0 ≤ x ∧ x < s.cols) → (s.row x).width = 1) ∧
    (¬ (0 ≤ x + 1 ∧ x + 1 < s.cols) → (s.row (x + 1)).width = 1) ∧
    (¬ (0 ≤ x - 1 ∧ x - 1 < s.cols) → (s.row (x - 1)).width = 1) :=
  ⟨hp x, fun h => by rw [row_off h]; rfl, fun h => by rw [row_off h]; rfl,
    fun h => by rw [row_off h]; rfl⟩

/-- In a paired row, a break erases the character whole. -/
theorem breakWideAt_row (hs : s.Sized) (hy : 0 ≤ s.cy ∧ s.cy < s.rows) (hp : s.RowPaired)
    (c x : Int) :
    (s.breakWideAt c s.cy).at x s.cy = if s.Covers c x then s.erased else s.row x := by
  have hr := breakWideAt_repaints hs c s.cy
  have hc := hp.around c
  by_cases hx : 0 ≤ x ∧ x < s.cols
  · rw [hr.cells x s.cy ⟨hx.1, hx.2, hy⟩]
    unfold PairedAt Covers SplitAt row at *
    clear hr
    grind
  · have hon : ¬ (s.breakWideAt c s.cy).OnPage x s.cy := fun h =>
      hx ⟨(hr.onPage.1 h).1, (hr.onPage.1 h).2.1⟩
    rw [at_off hon, row_off hx]
    unfold PairedAt Covers SplitAt at *
    clear hr
    grind

/-- The frame of a break. -/
theorem breakWideAt_frame (hs : s.Sized) (c : Int) :
    (s.breakWideAt c s.cy).Sized ∧ (s.breakWideAt c s.cy).cy = s.cy ∧
      (s.breakWideAt c s.cy).cols = s.cols ∧ (s.breakWideAt c s.cy).rows = s.rows ∧
      (s.breakWideAt c s.cy).erased = s.erased := by
  have hr := breakWideAt_repaints hs c s.cy
  exact ⟨hr.sized hs, hr.cy, hr.cols, hr.rows, hr.erased⟩

theorem RowPaired.breakWideAt (hs : s.Sized) (hy : 0 ≤ s.cy ∧ s.cy < s.rows) (hp : s.RowPaired)
    (c : Int) : (s.breakWideAt c s.cy).RowPaired := by
  obtain ⟨-, hcy, -⟩ := breakWideAt_frame hs c
  intro x
  have hrow : ∀ x, (s.breakWideAt c s.cy).row x = if s.Covers c x then s.erased else s.row x := by
    intro x
    rw [row, hcy, breakWideAt_row hs hy hp]
  have hx := hp.around x
  have hc := hp.around c
  unfold PairedAt at hx ⊢
  simp only [hrow]
  unfold PairedAt Covers SplitAt at *
  grind

/-- Two breaks in a row. -/
theorem breakWideAt_twice_row (hs : s.Sized) (hy : 0 ≤ s.cy ∧ s.cy < s.rows) (hp : s.RowPaired)
    (c d x : Int) :
    ((s.breakWideAt c s.cy).breakWideAt d s.cy).at x s.cy =
      if s.Covers c x ∨ s.Covers d x then s.erased else s.row x := by
  obtain ⟨hs1, hcy, -, hrows, herased⟩ := breakWideAt_frame hs c
  have hrow : ∀ x, (s.breakWideAt c s.cy).row x = if s.Covers c x then s.erased else s.row x := by
    intro x
    rw [row, hcy, breakWideAt_row hs hy hp]
  have h := breakWideAt_row hs1 (by rw [hcy, hrows]; exact hy) (hp.breakWideAt hs hy c) d x
  rw [hcy] at h
  rw [h, herased, hrow]
  have hc := hp.around c
  have hd := hp.around d
  unfold Covers SplitAt
  simp only [hrow]
  unfold PairedAt Covers SplitAt at *
  clear h
  grind

instance (s : Screen) (k x : Int) : Decidable (s.KeptHalf k x) :=
  inferInstanceAs (Decidable (_ ∧ (_ ∧ _) ∧ _ ∧ _))

/-- A second half is left by the two breaks of a deletion when it is a kept one. -/
theorem keptHalf_iff (hp : s.RowPaired) (k x : Int) :
    (if s.Covers s.cx x ∨ s.Covers (s.cx + k) x then s.erased else s.row x).width = 0 ↔
      s.KeptHalf k x := by
  have hx := hp.around x
  have hc := hp.around s.cx
  have hd := hp.around (s.cx + k)
  show _ ↔ (s.row x).width = 0 ∧ (s.cx ≠ x ∧ s.cx ≠ x - 1) ∧ (s.cx + k ≠ x ∧ s.cx + k ≠ x - 1)
  unfold PairedAt Covers SplitAt at *
  grind

/-- What a deletion does to the row. -/
theorem deleteChars_row (hs : s.Sized) (hc : s.OnPage s.cx s.cy) (hp : s.RowPaired) {n k : Int}
    (hn : 0 < n) (hk : k = s.room n) {x : Int} (hx : 0 ≤ x ∧ x < s.cols) :
    (s.deleteChars n).at x s.cy =
      if s.cols - k ≤ x then s.erased
      else if x = s.cols - k - 1 ∧ s.KeptHalf k (s.cols - k) then s.erased
      else if s.cx ≤ x then
        if s.Covers (s.cx + k) (x + k) then s.erased else s.row (x + k)
      else if s.SplitAt s.cx x then s.erased else s.row x := by
  have hy := hc.2.2
  have hdel := deleteChars_repaints hs hc hn hk rfl
  have hrow := breakWideAt_twice_row hs hy hp s.cx (s.cx + k)
  have hk0 : 0 < k := by
    have hcols := hc.2.1
    unfold room at hk
    omega
  rw [hdel.cells x s.cy ⟨hx.1, hx.2, hy⟩, if_neg (fun h => h rfl)]
  simp only [hrow, keptHalf_iff hp]
  have h1 := hp.around s.cx
  have h2 := hp.around (s.cx + k)
  clear hdel hrow
  unfold PairedAt Covers SplitAt at *
  split
  · rfl
  split
  · rfl
  split
  · grind
  · grind

/-- The other rows, and all but the cells. -/
theorem Repaints.others {f : Int → Int → ScreenCell} {t : Screen} (hr : Repaints s t f)
    (hf : ∀ x y, y ≠ s.cy → f x y = s.at x y) {x y : Int} (hy : y ≠ s.cy) :
    t.at x y = s.at x y := by
  by_cases hon : s.OnPage x y
  · rw [hr.cells x y hon, hf x y hy]
  · rw [at_off hon, at_off (mt hr.onPage.1 hon)]

section Deletion

variable {n k : Int}

theorem room_bounds (hc : s.OnPage s.cx s.cy) (hn : 0 < n) (hk : k = s.room n) :
    0 < k ∧ s.cx + k ≤ s.cols := by
  have hcols := hc.2.1
  unfold room at hk
  omega

/-- Before the cursor, a deletion breaks what it splits. -/
theorem deleteChars_before (hs : s.Sized) (hc : s.OnPage s.cx s.cy) (hp : s.RowPaired) (hn : 0 < n)
    (hk : k = s.room n) {x : Int} (hx : x < s.cx) :
    (s.deleteChars n).at x s.cy = s.cutRow k x := by
  obtain ⟨hk0, hfits⟩ := room_bounds hc hn hk
  by_cases hx1 : 0 ≤ x
  · rw [deleteChars_row hs hc hp hn hk (by omega), if_neg (by omega), if_neg, if_neg (by omega)]
    · unfold cutRow SplitAt
      grind
    · rintro ⟨hlast, hkeep⟩
      have hne := hkeep.2.1.1
      omega
  · have hdel := deleteChars_repaints hs hc hn hk rfl
    have hoff : ¬ (0 ≤ x ∧ x < s.cols) := fun h => hx1 h.1
    have hblank := row_off hoff
    have hcx := hp.around s.cx
    rw [at_off (fun h => hx1 (hdel.onPage.1 h).1)]
    unfold cutRow SplitAt
    unfold PairedAt at hcx
    grind

/-- From the cursor on, a clean cut moves what is not split. -/
theorem CleanCut.shifted (hclean : s.CleanCut k) (hs : s.Sized) (hc : s.OnPage s.cx s.cy)
    (hp : s.RowPaired) (hn : 0 < n) (hk : k = s.room n) {x : Int} (hx : s.cx ≤ x)
    (hxk : x < s.cols - k) : (s.deleteChars n).at x s.cy = s.cutRow k (x + k) := by
  obtain ⟨hcut, hend⟩ := hclean
  obtain ⟨hk0, hfits⟩ := room_bounds hc hn hk
  have hx0 := hc.1
  rw [deleteChars_row hs hc hp hn hk (by omega), if_neg (by omega)]
  by_cases hlast : x = s.cols - k - 1 ∧ s.KeptHalf k (s.cols - k)
  · rw [if_pos hlast, ← hend hlast.2]
    congr 1
    omega
  · rw [if_neg hlast, if_pos hx]
    unfold cutRow Covers SplitAt
    grind

/-- A character beyond the cut is not split by it. -/
theorem CleanCut.beyond (hclean : s.CleanCut k) (hp : s.RowPaired) (hk : 0 < k) {x : Int}
    (hx : s.cx + k ≤ x) (h2 : (s.row x).width = 2) :
    x + 1 < s.cols ∧ ∀ z, x ≤ z → z ≤ x + 1 → s.cutRow k z = s.row z := by
  have hcut := hclean.1
  have hnext := hp.around x
  have hfit : x + 1 < s.cols := by
    unfold PairedAt at hnext
    grind
  refine ⟨hfit, fun z hz hz1 => ?_⟩
  unfold cutRow SplitAt
  grind

/-- **A clean cut** deletes as it should. -/
theorem CleanCut.deleted (hclean : s.CleanCut k) (hs : s.Sized) (hc : s.OnPage s.cx s.cy)
    (hp : s.RowPaired) (hn : 0 < n) (hk : k = s.room n) : Deleted s k (s.deleteChars n) := by
  obtain ⟨hk0, hfits⟩ := room_bounds hc hn hk
  have hx0 := hc.1
  have hdel := deleteChars_repaints hs hc hn hk rfl
  have hshift := fun x => @CleanCut.shifted _ _ _ hclean hs hc hp hn hk x
  refine ⟨hdel.frame, fun x y hy => hdel.others ?_ hy, fun x => deleteChars_before hs hc hp hn hk,
    hshift, fun x hx hxc => ?_, fun x hx h2 => ?_⟩
  · exact fun x y hy => if_pos hy
  · rw [deleteChars_row hs hc hp hn hk (by omega), if_pos hx]
  · obtain ⟨hfit, hkeep⟩ := hclean.beyond hp hk0 hx h2
    constructor
    · rw [hshift _ (by omega) (by omega), hkeep _ (by omega) (by omega)]
      congr 1
      omega
    · rw [hshift _ (by omega) (by omega), hkeep _ (by omega) (by omega)]
      congr 1
      omega

/-- **And no other does**: the character at the end of the cut is lost, or the last cell. -/
theorem Deleted.cleanCut (hd : Deleted s k (s.deleteChars n)) (hs : s.Sized)
    (hc : s.OnPage s.cx s.cy) (hp : s.RowPaired) (hn : 0 < n) (hk : k = s.room n) : s.CleanCut k := by
  obtain ⟨hk0, hfits⟩ := room_bounds hc hn hk
  have hx0 := hc.1
  have hrow := fun x => @deleteChars_row _ hs hc hp n k hn hk x
  constructor
  · intro h2
    -- a character that begins at the end of the cut is not whole
    have hnext := hp.around (s.cx + k)
    have hfit : s.cx + k + 1 < s.cols := by
      unfold PairedAt at hnext
      grind
    have hat := (hd.whole (s.cx + k) (Int.le_refl _) h2).1
    rw [show s.cx + k - k = s.cx from by omega, hrow s.cx ⟨hx0, hc.2.1⟩] at hat
    have hcov : s.Covers (s.cx + k) (s.cx + k) := .inr ⟨h2, .inl rfl⟩
    rw [if_neg (by omega), if_pos (Int.le_refl _), if_pos hcov, ite_self] at hat
    rw [← hat] at h2
    exact absurd h2 (by simp)
  · intro hkeep
    have hne := hkeep.2.1.1
    have hat := hd.shifted (s.cols - k - 1) (by omega) (by omega)
    rw [hrow _ (by omega), if_neg (by omega), if_pos ⟨rfl, hkeep⟩] at hat
    rw [hat]
    congr 1
    omega

end Deletion

/-- A deletion is exact when the cut is clean, and only then. -/
theorem deleteChars_exact_iff (hs : s.Sized) (hc : s.OnPage s.cx s.cy) (hp : s.RowPaired) {n : Int}
    (hn : 0 < n) : Deleted s (s.room n) (s.deleteChars n) ↔ s.CleanCut (s.room n) :=
  ⟨fun hd => hd.cleanCut hs hc hp hn rfl, fun hclean => hclean.deleted hs hc hp hn rfl⟩

/-- Until a deletion splits a pair, every screen in use has its cursor on a paired row. -/
theorem run_rowPaired (amb : Bool) {cols rows : Int} (h2 : 2 ≤ cols) {ops : List ScreenOp}
    (hops : ∀ c r, .resize c r ∈ ops → 2 ≤ c)
    (hmeet : StepsMeet (Screen.step amb) (fun s op => s.splits op = false)
      (Screen.create cols rows) ops) :
    let s := run (Screen.step amb) (Screen.create cols rows) ops
    s.Bounded ∧ s.RowPaired ∧ 2 ≤ s.cols := by
  intro s
  have hwide : 2 ≤ (Screen.create cols rows).cols := by
    obtain ⟨tabs, -, heq⟩ := create_spec cols rows
    rw [heq]
    exact Int.le_trans h2 (Int.le_max_right ..)
  have hok := hmeet.and_inputs (fun op hmem c r (heq : op = .resize c r) => hops c r (heq ▸ hmem))
  obtain ⟨hb, hp, h2⟩ : s.Bounded ∧ s.Paired ∧ 2 ≤ s.cols := by
    refine @run_invariant _ _ _ _ (fun s => s.Bounded ∧ s.Paired ∧ 2 ≤ s.cols) ?_ _ _
      ⟨Bounded.create cols rows, Paired.create cols rows, hwide⟩ hok
    rintro s op ⟨hb, hp, h2⟩ ⟨hsplit, hop⟩
    exact ⟨hb.step amb op, (step_paired_iff hp hb h2 amb op).2 hsplit, step_wide h2 amb hop⟩
  exact ⟨hb, fun x => hp.at x s.cy, h2⟩

/-- Two letters and a full-width character: the first letter goes, and the rest moves whole. -/
theorem deleteChars_exact_iff_letter :
    (0 : Int) < 1 ∧
      let s := run (Screen.step false) (Screen.create 6 1)
        [.print 0x41, .print 0x42, .print 0x4E00, .print 0x43, .moveTo 0 0]
      Deleted s (s.room 1) (s.deleteChars 1) :=
  have h := @run_rowPaired false 6 1 (by decide) _ (by simp) (by decide)
  ⟨by decide, (deleteChars_exact_iff h.1.sized h.1.onPage h.2.1 (by decide)).2
    ⟨by decide, fun hkeep => absurd hkeep (by decide)⟩⟩

/-- The letter before a full-width character is deleted: the character goes with it. -/
theorem deletion_takes_next :
    ¬ ∀ (s : Screen) (n : Int), s.Sized → s.OnPage s.cx s.cy → s.RowPaired → 2 ≤ s.cols → 0 < n →
      Deleted s (s.room n) (s.deleteChars n) := by
  intro hall
  obtain ⟨hb, hp, h2⟩ := @run_rowPaired false 3 1 (by decide)
    [.print 0x41, .print 0x4E00, .moveTo 0 0] (by simp) (by decide)
  have hd := hall _ 1 hb.sized hb.onPage hp h2 (by decide)
  have hat := (hd.whole 1 (by decide) (by decide)).1
  exact absurd (congrArg ScreenCell.width hat) (by decide)

/-- Under the two ends of the gap, once the character the cursor is on is broken: no half under
its first column; a first half under its last one, if it has another, is one of before. -/
theorem gap_ends (hp : s.RowPaired) {k : Int} (hk : 0 < k) :
    (s.brokenRow s.cx).width ≠ 0 ∧ (s.brokenRow s.cx).width ≠ 2 ∧
      ((s.brokenRow (s.cx + k - 1)).width = 2 ↔ 2 ≤ k ∧ (s.row (s.cx + k - 1)).width = 2) := by
  have h1 := hp.around s.cx
  have h2 := hp.around (s.cx + k - 1)
  have hcur : (s.brokenRow s.cx).width ≠ 0 ∧ (s.brokenRow s.cx).width ≠ 2 := by
    unfold brokenRow Covers SplitAt
    grind
  refine ⟨hcur.1, hcur.2, ?_⟩
  by_cases hk1 : k = 1
  · subst hk1
    rw [show s.cx + 1 - 1 = s.cx from by omega]
    exact iff_of_false hcur.2 (fun h => absurd h.1 (by decide))
  · unfold brokenRow
    unfold PairedAt Covers SplitAt at *
    grind

/-- **Insertion.** The character the cursor is on is erased, whole; the rest of the row moves, and
what it was on is erased. Of the cell after the gap nothing is said when the gap ends on a
character's first half. -/
theorem insertChars_inserted (hs : s.Sized) (hc : s.OnPage s.cx s.cy) (hp : s.RowPaired) {n : Int}
    (hn : 0 < n) :
    Inserted s s.brokenRow (s.AfterGap (s.room n)) (s.room n) (s.insertChars n) := by
  generalize hk : s.room n = k
  have hins := insertChars_repaints hs hc hn hk.symm rfl
  have hk0 : 0 < k ∧ s.cx + k ≤ s.cols := by
    have hcols := hc.2.1
    unfold room at hk
    omega
  have hx0 := hc.1
  obtain ⟨hzero, htwo, hend⟩ := gap_ends hp hk0.1
  have hbroken : ∀ x, (s.breakWideAt s.cx s.cy).at x s.cy = s.brokenRow x :=
    breakWideAt_row hs hc.2.2 hp s.cx
  have hrow : ∀ x, 0 ≤ x ∧ x < s.cols → (s.insertChars n).at x s.cy =
      if s.cx ≤ x ∧ x < s.cx + k then s.erased
      else if x = s.cx + k ∧ 2 ≤ k ∧ (s.row (s.cx + k - 1)).width = 2 then s.erased
      else if s.cx + k ≤ x then
        if x = s.cols - 1 ∧ (s.brokenRow (x - k)).width = 2 then s.erased else s.brokenRow (x - k)
      else s.brokenRow x := by
    intro x hx
    rw [hins.cells x s.cy ⟨hx.1, hx.2, hc.2.2⟩, if_neg (fun h => h rfl)]
    simp only [hbroken, hzero, htwo, hend, and_false, false_and, not_false_eq_true,
      and_true, if_false]
  refine ⟨hins.frame, fun x y hy => hins.others ?_ hy, ?_, ?_, ?_⟩
  · exact fun x y hy => if_pos hy
  · intro x hx
    by_cases hx1 : 0 ≤ x
    · rw [hrow x (by omega), if_neg (by omega), if_neg (fun h => by have := h.1; omega),
        if_neg (by omega)]
    · have hcx := hp.around s.cx
      have hblank := @row_off s x (fun h => hx1 h.1)
      rw [at_off (fun h => hx1 (hins.onPage.1 h).1)]
      unfold brokenRow Covers SplitAt
      unfold PairedAt at hcx
      grind
  · intro x hx hxk
    rw [hrow x (by omega), if_pos ⟨hx, hxk⟩]
  · intro x hx hxc hspared
    have hno : ¬ (x = s.cx + k ∧ 2 ≤ k ∧ (s.row (s.cx + k - 1)).width = 2) := hspared
    rw [hrow x (by omega), if_neg (by omega), if_neg hno, if_pos hx]

/-- A letter is inserted before a full-width character, which reaches the margin and is lost. -/
theorem insertChars_inserted_margin :
    (0 : Int) < 1 ∧
      let s := run (Screen.step false) (Screen.create 4 1)
        [.print 0x41, .print 0x42, .print 0x4E00, .moveTo 1 0]
      Inserted s s.brokenRow (s.AfterGap (s.room 1)) (s.room 1) (s.insertChars 1) :=
  have h := @run_rowPaired false 4 1 (by decide) _ (by simp) (by decide)
  ⟨by decide, insertChars_inserted h.1.sized h.1.onPage h.2.1 (by decide)⟩

/-- The cursor is on a full-width character, on its first half: no insertion moves it. -/
theorem insertion_erases_next :
    ¬ ∀ (s : Screen) (n : Int), s.Sized → s.OnPage s.cx s.cy → s.RowPaired → 2 ≤ s.cols → 0 < n →
      Inserted s s.openRow (fun _ => False) (s.room n) (s.insertChars n) := by
  intro hall
  obtain ⟨hb, hp, h2⟩ := @run_rowPaired false 4 1 (by decide) [.print 0x4E00, .moveTo 0 0]
    (by simp) (by decide)
  have hi := hall _ 1 hb.sized hb.onPage hp h2 (by decide)
  have hat := hi.shifted 1 (by decide) (by decide) id
  exact absurd (congrArg ScreenCell.width hat) (by decide)

end Screen

end Sshos.Vt
