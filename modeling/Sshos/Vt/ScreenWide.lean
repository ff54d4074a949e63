import Sshos.Vt.ScreenBounds

/-!
# Sshos.Vt.ScreenWide

**Full-width pairs.** A first half always stands to the left of its second half and a
second half to the right of its first half, in every row of the displayed page and of
the page put aside.

Every operation keeps the pairs but one: the erasure that ends a character deletion
looks at cells that have already been copied elsewhere.
-/

namespace Sshos.Vt

open Sshos.Lib
open Sshos.Render

/-! ### Pairs -/

/-- Every half of a full-width character of the page has its other half beside it. -/
def PagePaired (cols rows : Int) (page : List ScreenCell) : Prop :=
  ∀ x y, 0 ≤ x → x < cols → 0 ≤ y → y < rows →
    ((pageAt cols rows page x y).width = 2 →
      x + 1 < cols ∧ (pageAt cols rows page (x + 1) y).width = 0) ∧
    ((pageAt cols rows page x y).width = 0 →
      0 < x ∧ (pageAt cols rows page (x - 1) y).width = 2)

/-- The halves at column `x` of a row that is blank off the page. -/
def PairedAt (row : Int → ScreenCell) (x : Int) : Prop :=
  ((row x).width = 2 → (row (x + 1)).width = 0) ∧ ((row x).width = 0 → (row (x - 1)).width = 2)

/-- There are only blanks off the page, so the bounds need no mention. -/
theorem pagePaired_iff {cols rows : Int} {page : List ScreenCell} :
    PagePaired cols rows page ↔ ∀ x y, PairedAt (fun x => pageAt cols rows page x y) x := by
  have hoff : ∀ x y, ¬ (0 ≤ x ∧ x < cols ∧ 0 ≤ y ∧ y < rows) →
      (pageAt cols rows page x y).width = 1 := by
    intro x y h
    rw [pageAt_off h]
    rfl
  constructor
  · intro h x y
    by_cases hp : 0 ≤ x ∧ x < cols ∧ 0 ≤ y ∧ y < rows
    · have hxy := h x y hp.1 hp.2.1 hp.2.2.1 hp.2.2.2
      exact ⟨fun hw => (hxy.1 hw).2, fun hw => (hxy.2 hw).2⟩
    · have hw := hoff x y hp
      refine ⟨fun h2 => ?_, fun h0 => ?_⟩
      · have h2' : (pageAt cols rows page x y).width = 2 := h2
        omega
      · have h0' : (pageAt cols rows page x y).width = 0 := h0
        omega
  · intro h x y hx0 hx hy0 hy
    refine ⟨fun hw => ?_, fun hw => ?_⟩
    · have hnext : (pageAt cols rows page (x + 1) y).width = 0 := (h x y).1 hw
      refine ⟨?_, hnext⟩
      by_contra hedge
      have := hoff (x + 1) y (by omega)
      omega
    · have hprev : (pageAt cols rows page (x - 1) y).width = 2 := (h x y).2 hw
      refine ⟨?_, hprev⟩
      by_contra hedge
      have := hoff (x - 1) y (by omega)
      omega

namespace Screen

variable {s s' : Screen}

/-- The displayed page is paired, and so is the page put aside while there is one. -/
structure Paired (s : Screen) : Prop where
  shown : PagePaired s.cols s.rows s.grid
  aside : s.alt = true → PagePaired s.cols s.rows s.parked

@[grind =] theorem blank_width : blank.width = 1 := rfl

theorem at_width_off {x y : Int} (h : ¬ s.OnPage x y) : (s.at x y).width = 1 := by
  rw [at_off h]
  rfl

/-- The displayed page alone is paired. -/
def ShownPaired (s : Screen) : Prop := PagePaired s.cols s.rows s.grid

theorem ShownPaired.at (hp : s.ShownPaired) (x y : Int) : PairedAt (fun x => s.at x y) x :=
  pagePaired_iff.1 hp x y

/-- The pair at a column, and that a neighbour off the page is no half. -/
theorem ShownPaired.around (hp : s.ShownPaired) (x y : Int) :
    PairedAt (fun x => s.at x y) x ∧ (¬ s.OnPage x y → (s.at x y).width = 1) ∧
    (¬ s.OnPage (x + 1) y → (s.at (x + 1) y).width = 1) ∧
    (¬ s.OnPage (x - 1) y → (s.at (x - 1) y).width = 1) :=
  ⟨hp.at x y, at_width_off, at_width_off, at_width_off⟩

theorem Paired.at (hp : s.Paired) (x y : Int) : PairedAt (fun x => s.at x y) x :=
  ShownPaired.at hp.shown x y

theorem Paired.around (hp : s.Paired) (x y : Int) :
    PairedAt (fun x => s.at x y) x ∧ (¬ s.OnPage x y → (s.at x y).width = 1) ∧
    (¬ s.OnPage (x + 1) y → (s.at (x + 1) y).width = 1) ∧
    (¬ s.OnPage (x - 1) y → (s.at (x - 1) y).width = 1) :=
  ShownPaired.around hp.shown x y

/-- After a repainting, the new cells decide; off the page nothing is a half. -/
theorem ShownPaired.of_repaints {f : Int → Int → ScreenCell} (hr : Repaints s s' f)
    (h : ∀ x y, PairedAt (fun x => if s.OnPage x y then f x y else blank) x) :
    s'.ShownPaired := by
  have hat : ∀ x y, s'.at x y = if s.OnPage x y then f x y else blank := by
    intro x y
    split
    · rename_i hxy
      exact hr.cells x y hxy
    · rename_i hxy
      exact at_off (mt hr.onPage.1 hxy)
  refine pagePaired_iff.2 ?_
  intro x y
  have hxy := h x y
  unfold PairedAt at hxy ⊢
  simp only [← hat] at hxy
  exact hxy

theorem Paired.of_repaints (hp : s.Paired) {f : Int → Int → ScreenCell} (hr : Repaints s s' f)
    (h : ∀ x y, PairedAt (fun x => if s.OnPage x y then f x y else blank) x) : s'.Paired := by
  refine ⟨ShownPaired.of_repaints hr h, ?_⟩
  rw [hr.frame]
  exact hp.aside

/-- Rows that are moved whole, or erased whole, keep their pairs. -/
theorem Paired.of_rows (hp : s.Paired) {f : Int → Int → ScreenCell} (hr : Repaints s s' f)
    (h : ∀ y, (∃ z, ∀ x, f x y = s.at x z) ∨ ∀ x, (f x y).width = 1) : s'.Paired := by
  refine hp.of_repaints hr ?_
  intro x y
  obtain ⟨z, hz⟩ | hone := h y
  · have hxz := hp.around x z
    unfold PairedAt OnPage at *
    simp only [hz] at *
    grind
  · unfold PairedAt
    have h0 := hone x
    grind

/-! ### Erasing -/

theorem ShownPaired.eraseSpan (hp : s.ShownPaired) (hs : s.Sized) (x0 x1 y : Int) :
    (s.eraseSpan x0 x1 y).ShownPaired := by
  obtain heq | ⟨a, b, ha, hab, hb, hy0, hy, heq⟩ := eraseSpan_cases s x0 x1 y
  · rw [heq]
    exact hp
  · rw [heq]
    refine ShownPaired.of_repaints (eraseSpan_repaints hs ha hb hab hy0 hy) ?_
    intro x z
    -- the halves at the two ends, and those around the column in question
    have hend0 := hp.at a y
    have hend1 := hp.at b y
    have hx := hp.around x z
    unfold PairedAt OnPage at *
    grind

/-- What does not touch the page put aside only has to keep the displayed one. -/
theorem Paired.of_shown (hp : s.Paired) (ho : s'.outside = s.outside) (hs : s'.ShownPaired) :
    s'.Paired := by
  have hcols : s'.cols = s.cols := congrArg Outside.cols ho
  have hrows : s'.rows = s.rows := congrArg Outside.rows ho
  have halt : s'.alt = s.alt := congrArg Outside.alt ho
  have hparked : s'.parked = s.parked := congrArg Outside.parked ho
  refine ⟨hs, ?_⟩
  rw [hcols, hrows, halt, hparked]
  exact hp.aside

theorem Paired.of_grid (hp : s.Paired) (ho : s'.outside = s.outside) (hg : s'.grid = s.grid) :
    s'.Paired := by
  have hcols : s'.cols = s.cols := congrArg Outside.cols ho
  have hrows : s'.rows = s.rows := congrArg Outside.rows ho
  refine hp.of_shown ho ?_
  unfold ShownPaired
  rw [hcols, hrows, hg]
  exact hp.shown

theorem Paired.eraseSpan (hp : s.Paired) (hs : s.Sized) (x0 x1 y : Int) :
    (s.eraseSpan x0 x1 y).Paired :=
  hp.of_shown (congrArg Kept.outside (kept_of_framed (eraseSpan_framed s x0 x1 y)))
    (ShownPaired.eraseSpan hp.shown hs x0 x1 y)

theorem Paired.eraseRows (hp : s.Paired) (hs : s.Bounded) {lo hi : Int} (hle : lo ≤ hi) :
    (s.eraseRows lo hi).Paired := by
  have h : (s.eraseRows lo hi).Bounded ∧ (s.eraseRows lo hi).Paired :=
    forUp_rule (P := fun _ (t : Screen) => t.Bounded ∧ t.Paired) hle ⟨hs, hp⟩
      fun y _ _ _ ht => ⟨ht.1.eraseSpan 0 _ y, ht.2.eraseSpan ht.1.sized 0 _ y⟩
  exact h.2

theorem Paired.eraseDisplay (hp : s.Paired) (hs : s.Bounded) (mode : Int) :
    (s.eraseDisplay mode).Paired := by
  have hcy := hs.cy
  unfold Screen.eraseDisplay
  repeat' split
  · exact (hp.eraseSpan hs.sized _ _ _).eraseRows (hs.eraseSpan _ _ _) (by omega)
  · exact (hp.eraseRows hs hcy.1).eraseSpan (hs.eraseRows hcy.1).sized _ _ _
  · exact hp.eraseRows hs (by omega)
  · exact hp

theorem Paired.eraseLine (hp : s.Paired) (hs : s.Sized) (mode : Int) :
    (s.eraseLine mode).Paired := by
  unfold Screen.eraseLine
  repeat' split
  · exact hp.eraseSpan hs _ _ _
  · exact hp.eraseSpan hs _ _ _
  · exact hp.eraseSpan hs _ _ _
  · exact hp

/-! ### Moving rows -/

theorem Paired.of_scrolledUp (hp : s.Paired) {top bottom n : Int}
    (hr : Repaints s s' fun x y =>
      if top ≤ y ∧ y ≤ bottom then if y + n ≤ bottom then s.at x (y + n) else s.erased
      else s.at x y) : s'.Paired := by
  refine hp.of_rows hr ?_
  intro y
  by_cases hin : top ≤ y ∧ y ≤ bottom
  · by_cases hup : y + n ≤ bottom
    · exact .inl ⟨y + n, fun x => by rw [if_pos hin, if_pos hup]⟩
    · exact .inr fun x => by rw [if_pos hin, if_neg hup]; rfl
  · exact .inl ⟨y, fun x => by rw [if_neg hin]⟩

theorem Paired.scrollSliceDown (hp : s.Paired) (hs : s.Sized) {top bottom n : Int} (hn : 0 < n)
    (h0 : 0 ≤ top) (h1 : bottom < s.rows) (h : top ≤ bottom) :
    (s.scrollSliceDown top bottom n).Paired := by
  refine hp.of_rows (scrollSliceDown_repaints hs hn h0 h1 h) ?_
  intro y
  by_cases hin : top ≤ y ∧ y ≤ bottom
  · by_cases hdown : top ≤ y - n
    · exact .inl ⟨y - n, fun x => by rw [if_pos hin, if_pos hdown]⟩
    · exact .inr fun x => by rw [if_pos hin, if_neg hdown]; rfl
  · exact .inl ⟨y, fun x => by rw [if_neg hin]⟩

theorem Paired.lineFeed (hp : s.Paired) (hs : s.Bounded) : s.lineFeed.Paired := by
  obtain ⟨heq, -⟩ | ⟨heq, -⟩ | ⟨-, hr⟩ := lineFeed_cases hs
  · rw [heq]
    exact ⟨hp.shown, hp.aside⟩
  · rw [heq]
    exact ⟨hp.shown, hp.aside⟩
  · have hp' : Paired { s with wrapPending := false, scrollback := s.fed } := ⟨hp.shown, hp.aside⟩
    exact hp'.of_scrolledUp hr

theorem Paired.reverseIndex (hp : s.Paired) (hs : s.Bounded) : s.reverseIndex.Paired := by
  have hs' : Bounded { s with wrapPending := false } := { hs with }
  have hp' : Paired { s with wrapPending := false } := ⟨hp.shown, hp.aside⟩
  have hreg := hs.region
  by_cases ht : s.cy = s.top
  · have heq : s.reverseIndex = scrollDown { s with wrapPending := false } := if_pos ht
    rw [heq]
    exact hp'.scrollSliceDown hs'.sized (by omega) hreg.1 (show s.bottom < s.rows by omega) hreg.2.1
  · by_cases h0 : s.cy > 0
    · have heq : s.reverseIndex = { s with wrapPending := false, cy := s.cy - 1 } :=
        (if_neg ht).trans (if_pos h0)
      rw [heq]
      exact ⟨hp.shown, hp.aside⟩
    · have heq : s.reverseIndex = { s with wrapPending := false } :=
        (if_neg ht).trans (if_neg h0)
      rw [heq]
      exact hp'

theorem Paired.insertLines (hp : s.Paired) (hs : s.Bounded) (n : Int) :
    (s.insertLines n).Paired := by
  have hreg := hs.region
  have hcy := hs.cy
  unfold Screen.insertLines
  split
  · exact hp
  · exact hp.scrollSliceDown hs.sized (by omega) (by omega) (by omega) (by omega)

theorem Paired.deleteLines (hp : s.Paired) (hs : s.Bounded) (n : Int) :
    (s.deleteLines n).Paired := by
  have hreg := hs.region
  have hcy := hs.cy
  unfold Screen.deleteLines
  split
  · exact hp
  · exact hp.of_scrolledUp (scrollSliceUp_repaints hs.sized (by omega) (by omega) (by omega)
      (by omega))

/-! ### Printing -/

/-- A character that fits keeps the pairs: the halves it orphans are erased. -/
theorem ShownPaired.deposit (hp : s.ShownPaired) (hs : s.Bounded) (cp : Nat) {w : Nat}
    (hw : w = 1 ∨ w = 2 ∧ s.cx + 1 < s.cols) : (s.deposit cp w).ShownPaired := by
  refine ShownPaired.of_repaints (deposit_repaints hs.sized hs.onPage cp w) ?_
  intro x y
  have hcur := hs.onPage
  have hx := hp.around x y
  by_cases hy : y = s.cy
  · subst hy
    have h0 := hp.at s.cx s.cy
    have h1 := hp.at (s.cx + 1) s.cy
    unfold PairedAt OnPage at *
    -- the columns whose own cell, or a neighbour's, was written
    by_cases hleft : x = s.cx - 1
    · subst hleft
      grind
    by_cases hhere : x = s.cx
    · subst hhere
      grind
    grind
  · unfold PairedAt OnPage at *
    grind

theorem Paired.deposit (hp : s.Paired) (hs : s.Bounded) (cp : Nat) {w : Nat}
    (hw : w = 1 ∨ w = 2 ∧ s.cx + 1 < s.cols) : (s.deposit cp w).Paired :=
  hp.of_shown (congrArg Kept.outside (kept_of_framed (deposit_framed s cp w)))
    (ShownPaired.deposit hp.shown hs cp hw)

theorem Paired.advance (hp : s.Paired) (w : Nat) : (s.advance w).Paired := by
  unfold Screen.advance
  simp only
  split
  · exact ⟨hp.shown, hp.aside⟩
  · exact ⟨hp.shown, hp.aside⟩

theorem lineFeed_cx (hs : s.Bounded) : s.lineFeed.cx = s.cx := by
  obtain ⟨heq, -⟩ | ⟨heq, -⟩ | ⟨-, hr⟩ := lineFeed_cases hs
  · rw [heq]
  · rw [heq]
  · exact hr.cx

theorem Paired.wrapIfPending (hp : s.Paired) (hs : s.Bounded) : s.wrapIfPending.Paired := by
  unfold Screen.wrapIfPending
  split
  · have hb : Bounded { s with wrapPending := false, cx := 0 } :=
      { hs with cx := ⟨Int.le_refl 0, hs.cols_pos⟩ }
    have hpb : Paired { s with wrapPending := false, cx := 0 } := ⟨hp.shown, hp.aside⟩
    exact hpb.lineFeed hb
  · exact hp

/-- Printing keeps the pairs on a page of two columns or more: on a single column a
full-width character has nowhere to put its second half. -/
theorem Paired.print (hp : s.Paired) (hs : s.Bounded) (h2 : 2 ≤ s.cols) (amb : Bool) (cp : Nat) :
    (s.print amb cp).Paired := by
  have hle := charWidth_le amb (translate cp s.charset)
  unfold Screen.print
  simp only
  generalize translate cp s.charset = ch at hle ⊢
  generalize charWidth amb ch = w at hle ⊢
  split
  · exact hp
  · rename_i hw0
    have hw := hp.wrapIfPending hs
    have hws := hs.wrapIfPending
    have hcols : s.wrapIfPending.cols = s.cols := congrArg (·.outside.cols) (wrapIfPending_kept s)
    split
    · rename_i hfit
      split
      · exact hw
      · have hb : Bounded { s.wrapIfPending with cx := 0 } :=
          { hws with cx := ⟨Int.le_refl 0, hws.cols_pos⟩ }
        have hpb : Paired { s.wrapIfPending with cx := 0 } := ⟨hw.shown, hw.aside⟩
        refine ((hpb.lineFeed hb).deposit hb.lineFeed ch (.inr ⟨hfit.1, ?_⟩)).advance w
        have hfeed : (Screen.lineFeed { s.wrapIfPending with cx := 0 }).cols = s.cols :=
          (congrArg (·.outside.cols) (lineFeed_kept { s.wrapIfPending with cx := 0 })).trans hcols
        rw [lineFeed_cx hb, hfeed]
        show 0 + 1 < s.cols
        omega
    · rename_i hfit
      exact (hw.deposit hws ch (by omega)).advance w

/-! ### Shifting the end of a line -/

/-- A broken character leaves two whole blanks. -/
theorem Paired.breakWideAt (hp : s.Paired) (hs : s.Sized) (p y : Int) :
    (s.breakWideAt p y).Paired := by
  refine hp.of_repaints (breakWideAt_repaints hs p y) ?_
  intro x z
  have hx := hp.around x z
  have hq := hp.around p y
  unfold PairedAt OnPage at *
  grind

/-- Nothing on the column is a half any more, and nothing else became one. -/
theorem breakWideAt_width (hp : s.Paired) (hs : s.Sized) (p y : Int) :
    ((s.breakWideAt p y).at p y).width ≠ 0 ∧ ((s.breakWideAt p y).at p y).width ≠ 2 := by
  have hr := breakWideAt_repaints hs p y
  have hq := hp.around p y
  by_cases hpage : s.OnPage p y
  · rw [hr.cells p y hpage]
    unfold PairedAt OnPage at *
    grind
  · rw [at_off (mt hr.onPage.1 hpage), blank_width]
    omega

theorem Paired.insertChars (hp : s.Paired) (hs : s.Bounded) (n : Int) :
    (s.insertChars n).Paired := by
  by_cases hn : 0 < n
  · have hbr := breakWideAt_repaints hs.sized s.cx s.cy
    have hpr := hp.breakWideAt hs.sized s.cx s.cy
    obtain ⟨hc0, hc2⟩ := breakWideAt_width hp hs.sized s.cx s.cy
    refine hp.of_repaints (insertChars_repaints hs.sized hs.onPage hn rfl rfl) ?_
    intro x y
    have hcur := hs.onPage
    have hx := hp.around x y
    generalize hk : min n (s.cols - s.cx) = k
    have hk0 : 0 < k := by have := hs.cx; omega
    generalize s.breakWideAt s.cx s.cy = r at hpr hc0 hc2 ⊢ hbr
    by_cases hy : y = s.cy
    · subst hy
      have hrx := hpr.around x s.cy
      have hrk := hpr.around (x - k) s.cy
      have hrc := hpr.around s.cx s.cy
      have hon := hbr.onPage (x := x) (y := s.cy)
      have hcols := hbr.cols
      have hrows := hbr.rows
      unfold PairedAt OnPage at *
      clear hp hpr hbr
      by_cases h1 : x = s.cx - 1
      · subst h1
        grind
      by_cases h2 : x = s.cx
      · subst h2
        grind
      by_cases h3 : x = s.cx + k
      · subst h3
        grind
      by_cases h4 : x = s.cx + k - 1
      · subst h4
        grind
      grind
    · clear hbr hpr
      unfold PairedAt OnPage at *
      grind
  · rw [show s.insertChars n = s from if_pos (.inl (by omega))]
    exact hp

/-- Column `x` of the cursor's row holds the second half of a character that a
deletion of `k` cells does not break. -/
def KeptHalf (s : Screen) (k x : Int) : Prop :=
  (s.at x s.cy).width = 0 ∧ (s.cx ≠ x ∧ s.cx ≠ x - 1) ∧ (s.cx + k ≠ x ∧ s.cx + k ≠ x - 1)

/-- The deletion brings back a character that ended the line, and the first column it
vacates still shows a second half: erasing from there takes the brought-back second
half too. -/
def SplitsPair (s : Screen) (n : Int) : Prop :=
  0 < n ∧ s.KeptHalf (min n (s.cols - s.cx)) (s.cols - min n (s.cols - s.cx)) ∧
    s.KeptHalf (min n (s.cols - s.cx)) (s.cols - 1)

instance (s : Screen) (n : Int) : Decidable (s.SplitsPair n) :=
  inferInstanceAs (Decidable (_ ∧ (_ ∧ _ ∧ _) ∧ _ ∧ _ ∧ _))

/-- The second halves a break leaves are those of the other characters. -/
theorem breakWideAt_zero_iff (hp : s.Paired) (hs : s.Sized) (p y x : Int) :
    ((s.breakWideAt p y).at x y).width = 0 ↔ (s.at x y).width = 0 ∧ p ≠ x ∧ p ≠ x - 1 := by
  have hr := breakWideAt_repaints hs p y
  have hx := hp.around x y
  have hq := hp.around p y
  by_cases hpage : s.OnPage x y
  · rw [hr.cells x y hpage]
    unfold PairedAt OnPage at *
    grind
  · rw [at_off (mt hr.onPage.1 hpage), at_off hpage, blank_width]
    omega

/-- The row a deletion of `k` cells shifts, once the characters on the cursor's column
and on the first kept one are broken. -/
theorem breaks_spec (hp : s.Paired) (hs : s.Bounded) {k : Int} {r : Screen}
    (hr : r = (s.breakWideAt s.cx s.cy).breakWideAt (s.cx + k) s.cy) :
    r.Paired ∧ (r.cols = s.cols ∧ r.rows = s.rows) ∧
    ((r.at s.cx s.cy).width ≠ 0 ∧ (r.at s.cx s.cy).width ≠ 2) ∧
    ((r.at (s.cx + k) s.cy).width ≠ 0 ∧ (r.at (s.cx + k) s.cy).width ≠ 2) ∧
    ∀ x, (r.at x s.cy).width = 0 ↔ s.KeptHalf k x := by
  have hb1 := breakWideAt_repaints hs.sized s.cx s.cy
  have hp1 := hp.breakWideAt hs.sized s.cx s.cy
  have hs1 := hb1.sized hs.sized
  have hb2 := hb1.trans (breakWideAt_repaints hs1 (s.cx + k) s.cy)
  have hzero : ∀ x, (r.at x s.cy).width = 0 ↔ s.KeptHalf k x := by
    intro x
    rw [hr, breakWideAt_zero_iff hp1 hs1, breakWideAt_zero_iff hp hs.sized, and_assoc]
    rfl
  rw [← hr] at hb2
  refine ⟨hr ▸ hp1.breakWideAt hs1 _ _, ⟨hb2.cols, hb2.rows⟩, ⟨?_, ?_⟩, ?_, hzero⟩
  · exact fun h0 => ((hzero s.cx).1 h0).2.1.1 rfl
  · -- the second break only ever blanks
    have h2 := (breakWideAt_width hp hs.sized s.cx s.cy).2
    rw [hb2.cells _ _ hs.onPage]
    split
    · simp
    · exact h2
  · rw [hr]
    exact breakWideAt_width hp1 hs1 (s.cx + k) s.cy

/-- A deletion keeps the pairs exactly when it does not split one. -/
theorem deleteChars_paired_iff (hp : s.Paired) (hs : s.Bounded) (n : Int) :
    (s.deleteChars n).Paired ↔ ¬ s.SplitsPair n := by
  by_cases hn : 0 < n
  · have hcx := hs.cx
    have hcy := hs.cy
    generalize hk : min n (s.cols - s.cx) = k
    have hk0 : 0 < k := by omega
    have hkc : s.cx + k ≤ s.cols := by omega
    generalize hr : (s.breakWideAt s.cx s.cy).breakWideAt (s.cx + k) s.cy = r
    have hdel := deleteChars_repaints hs.sized hs.onPage hn hk.symm hr.symm
    obtain ⟨hpr, ⟨hcols, hrows⟩, hcur, hcut, hzero⟩ := breaks_spec hp hs hr.symm
    have hsplit : s.SplitsPair n ↔
        (r.at (s.cols - k) s.cy).width = 0 ∧ (r.at (s.cols - 1) s.cy).width = 0 := by
      rw [hzero, hzero, SplitsPair, hk]
      exact and_iff_right hn
    have hlast := hpr.around (s.cols - 1) s.cy
    rw [hsplit]
    constructor
    · rintro hq ⟨hz, hl⟩
      -- the character that ended the line now stands at `cols - k - 2`, without its right half
      have hfit : s.cx ≤ s.cols - k - 2 := by
        unfold PairedAt at hlast
        grind
      have hx := (hq.at (s.cols - k - 2) s.cy).1
      have hp1 : s.OnPage (s.cols - k - 2) s.cy := ⟨by omega, by omega, hcy.1, hcy.2⟩
      have hp2 : s.OnPage (s.cols - k - 2 + 1) s.cy := ⟨by omega, by omega, hcy.1, hcy.2⟩
      simp only [hdel.cells _ _ hp1, hdel.cells _ _ hp2] at hx
      unfold PairedAt at hlast
      grind
    · intro hno
      refine hp.of_repaints hdel ?_
      intro x y
      have hx := hp.around x y
      clear hdel hsplit hzero
      by_cases hy : y = s.cy
      · subst hy
        have hrx := hpr.around x s.cy
        have hrk := hpr.around (x + k) s.cy
        have hrc := hpr.around s.cx s.cy
        unfold PairedAt OnPage at *
        -- around the cursor, and around the end of what was kept
        by_cases h1 : x = s.cx - 1
        · subst h1
          grind
        by_cases h2 : x = s.cx
        · subst h2
          grind
        by_cases h3 : x = s.cols - k - 1
        · subst h3
          grind
        by_cases h4 : x = s.cols - k - 2
        · subst h4
          grind
        grind
      · unfold PairedAt OnPage at *
        grind
  · rw [show s.deleteChars n = s from if_pos (.inl (by omega))]
    exact ⟨fun _ h => hn h.1, fun _ => hp⟩

/-! ### Tab stops -/

theorem tabFrom_grid (s : Screen) (left : Nat) (x : Int) : (tabFrom s left x).grid = s.grid := by
  induction left generalizing x with
  | zero => rfl
  | succ left ih =>
      unfold tabFrom
      repeat' split
      · rfl
      · exact ih (x + 1)
      · rfl

theorem Paired.putTab (hp : s.Paired) (x : Int) (on : Bool) : (s.putTab x on).Paired := by
  refine hp.of_grid (congrArg Kept.outside (kept_of_framed (putTab_framed s x on))) ?_
  unfold Screen.putTab
  split <;> rfl

/-! ### The two pages -/

theorem pagePaired_replicate {cols rows : Int} {c : ScreenCell} (hc : c.width = 1) :
    PagePaired cols rows (List.replicate (cols * rows).toNat c) := by
  intro x y hx0 hx hy0 hy
  rw [pageAt_replicate c hx0 hx hy0 hy]
  exact ⟨fun h => by omega, fun h => by omega⟩

/-- Cutting a page keeps its pairs: a first half against the cut is erased. -/
theorem PagePaired.reshape {page : List ScreenCell} (hs : s.Sized)
    (hpage : (page.length : Int) = s.cols * s.rows) (hp : PagePaired s.cols s.rows page)
    {cols rows : Int} (hc : 1 ≤ cols) (hr : 1 ≤ rows) :
    PagePaired cols rows (s.reshape page cols rows).out := by
  have hd := reshape_draws hs hpage hc hr
  have hsc := hs.cols_pos
  intro x y hx0 hx hy0 hy
  have hold : x < s.cols → y < s.rows → _ := fun h1 h2 => hp x y hx0 h1 hy0 h2
  have hcell := hd.cells x y hx0 hx hy0 hy
  have hnext := fun h => hd.cells (x + 1) y (by omega) h hy0 hy
  have hprev := fun h => hd.cells (x - 1) y h (by omega) hy0 hy
  clear hd hp hpage
  generalize pageAt cols rows (s.reshape page cols rows).out = new at *
  generalize pageAt s.cols s.rows page = old at *
  grind

theorem Paired.enterAltScreen (hp : s.Paired) : s.enterAltScreen.Paired := by
  unfold Screen.enterAltScreen
  split
  · exact hp
  · exact ⟨pagePaired_replicate rfl, fun _ => hp.shown⟩

theorem Paired.leaveAltScreen (hp : s.Paired) : s.leaveAltScreen.Paired := by
  unfold Screen.leaveAltScreen
  split
  · exact hp
  · rename_i halt
    exact ⟨hp.aside (by simpa using halt), fun habs => absurd habs (by simp)⟩

theorem Paired.resize (hp : s.Paired) (hs : s.Bounded) (cols rows : Int) :
    (s.resize cols rows).Paired := by
  obtain heq | ⟨c, r, t, hc, hr, -, ht, hres⟩ := resize_cases s cols rows
  · rw [heq]
    exact hp
  have hb : t.Paired := by
    rw [ht]
    unfold resizePages
    split
    · rename_i halt
      exact ⟨pagePaired_replicate rfl,
        fun _ => PagePaired.reshape hs.sized (hs.parked halt).1 (hp.aside halt) hc hr⟩
    · rename_i halt
      exact ⟨PagePaired.reshape hs.sized hs.grid hp.shown hc hr, fun ha => absurd ha halt⟩
  obtain heq | ⟨heq, -⟩ := hres
  · obtain ⟨tabs, htabs, -⟩ := resetTabs_spec (s := t) (by rw [ht]; exact hc)
    rw [heq, htabs]
    exact ⟨hb.shown, hb.aside⟩
  · rw [heq]
    exact hb

theorem Paired.create (cols rows : Int) : (Screen.create cols rows).Paired := by
  obtain ⟨tabs, -, heq⟩ := create_spec cols rows
  rw [heq]
  exact ⟨pagePaired_replicate rfl, fun habs => absurd habs (by simp)⟩

/-! ### Every run -/

/-- Two columns at least, once built and resized so. -/
theorem step_wide (h2 : 2 ≤ s.cols) (amb : Bool) {op : ScreenOp}
    (hop : ∀ c r, op = .resize c r → 2 ≤ c) : 2 ≤ (s.step amb op).cols := by
  by_cases hr : ∃ c r, op = .resize c r
  · obtain ⟨c, r, rfl⟩ := hr
    show 2 ≤ (s.resize c r).cols
    obtain heq | ⟨c', r', t, hc, -, hmax, ht, hres⟩ := resize_cases s c r
    · rw [heq]
      exact h2
    · have htc : t.cols = c' := by rw [ht]; rfl
      have hc2 := hop c r rfl
      obtain heq | ⟨heq, -⟩ := hres
      · obtain ⟨tabs, htabs, -⟩ := resetTabs_spec (s := t) (by omega)
        rw [heq, htabs]
        show 2 ≤ t.cols
        omega
      · rw [heq]
        omega
  · by_cases halt : op = .enterAltScreen ∨ op = .leaveAltScreen
    · obtain rfl | rfl := halt
      · show 2 ≤ s.enterAltScreen.cols
        unfold Screen.enterAltScreen
        split <;> exact h2
      · show 2 ≤ s.leaveAltScreen.cols
        unfold Screen.leaveAltScreen
        split <;> exact h2
    · have hout := step_outside s amb (fun c r h => hr ⟨c, r, h⟩) (fun h => halt (.inl h))
        (fun h => halt (.inr h))
      rw [show (s.step amb op).cols = s.cols from congrArg Outside.cols hout]
      exact h2

/-- The deletions that a full-width character does not survive. -/
def splits (s : Screen) : ScreenOp → Bool
  | .deleteChars n => decide (s.SplitsPair n)
  | _ => false

/-- On two columns or more, an operation keeps the pairs unless it is a deletion that
splits one. -/
theorem step_paired_iff (hp : s.Paired) (hs : s.Bounded) (h2 : 2 ≤ s.cols) (amb : Bool)
    (op : ScreenOp) : (s.step amb op).Paired ↔ s.splits op = false := by
  have hkeeps : s.splits op = false → (s.step amb op).Paired →
      ((s.step amb op).Paired ↔ s.splits op = false) :=
    fun hno hpaired => iff_of_true hpaired hno
  cases op with
  | deleteChars n => exact (deleteChars_paired_iff hp hs n).trans decide_eq_false_iff_not.symm
  | print cp => exact hkeeps rfl (hp.print hs h2 amb cp)
  | lineFeed => exact hkeeps rfl (hp.lineFeed hs)
  | index => exact hkeeps rfl (hp.lineFeed hs)
  | nextLine =>
      have hb : s.carriageReturn.Bounded := hs.moved ⟨Int.le_refl 0, hs.cols_pos⟩ hs.cy false
      have hpb : s.carriageReturn.Paired := ⟨hp.shown, hp.aside⟩
      exact hkeeps rfl (hpb.lineFeed hb)
  | reverseIndex => exact hkeeps rfl (hp.reverseIndex hs)
  | eraseDisplay mode => exact hkeeps rfl (hp.eraseDisplay hs mode)
  | eraseLine mode => exact hkeeps rfl (hp.eraseLine hs.sized mode)
  | eraseChars n => exact hkeeps rfl (hp.eraseSpan hs.sized _ _ _)
  | insertChars n => exact hkeeps rfl (hp.insertChars hs n)
  | insertLines n => exact hkeeps rfl (hp.insertLines hs n)
  | deleteLines n => exact hkeeps rfl (hp.deleteLines hs n)
  | enterAltScreen => exact hkeeps rfl hp.enterAltScreen
  | leaveAltScreen => exact hkeeps rfl hp.leaveAltScreen
  | resize cols rows => exact hkeeps rfl (hp.resize hs cols rows)
  | backspace =>
      refine hkeeps rfl ?_
      show s.backspace.Paired
      unfold Screen.backspace
      repeat' split
      all_goals exact ⟨hp.shown, hp.aside⟩
  | tab =>
      exact hkeeps rfl (hp.of_grid (congrArg Kept.outside (tabFrom_kept _ _ _)) (tabFrom_grid _ _ _))
  | setTab =>
      refine hkeeps rfl ?_
      show (if 0 ≤ s.cx ∧ s.cx < s.cols then s.putTab s.cx true else s).Paired
      rw [if_pos hs.cx]
      exact hp.putTab s.cx true
  | clearTab =>
      refine hkeeps rfl ?_
      show (if 0 ≤ s.cx ∧ s.cx < s.cols then s.putTab s.cx false else s).Paired
      rw [if_pos hs.cx]
      exact hp.putTab s.cx false
  | setScrollRegion top bottom =>
      refine hkeeps rfl ?_
      show (s.setScrollRegion top bottom).Paired
      unfold Screen.setScrollRegion
      simp only
      split
      all_goals exact ⟨hp.shown, hp.aside⟩
  | _ => exact hkeeps rfl ⟨hp.shown, hp.aside⟩

/-- **Full-width characters stay whole.** On a screen built and resized to two columns
or more, every state of a run shows every half beside its other half, on the displayed
page and on the one put aside, exactly when no deletion of the run splits a pair. -/
theorem run_paired_iff (amb : Bool) {cols rows : Int} (h2 : 2 ≤ cols) {ops : List ScreenOp}
    (hops : ∀ c r, .resize c r ∈ ops → 2 ≤ c) :
    (∀ before, before <+: ops →
      let s := run (Screen.step amb) (Screen.create cols rows) before
      PagePaired s.cols s.rows s.grid ∧
        (s.alt = true → PagePaired s.cols s.rows s.parked)) ↔
    StepsMeet (Screen.step amb) (fun s op => s.splits op = false) (Screen.create cols rows) ops := by
  have hwide : 2 ≤ (Screen.create cols rows).cols := by
    obtain ⟨tabs, -, heq⟩ := create_spec cols rows
    rw [heq]
    show 2 ≤ max 1 cols
    omega
  have h := @run_good_iff _ _ (Screen.step amb) (fun s op => s.splits op = false)
    (fun s => s.Bounded ∧ 2 ≤ s.cols) Screen.Paired (fun op => ∀ c r, op = .resize c r → 2 ≤ c)
    (fun s op hop hs => ⟨hs.1.step amb op, step_wide hs.2 amb hop⟩)
    (fun s op _ hs hp => step_paired_iff hp hs.1 hs.2 amb op) (Screen.create cols rows) ops
    ⟨Bounded.create cols rows, hwide⟩ (Paired.create cols rows)
    (fun op hmem c r heq => hops c r (heq ▸ hmem))
  rw [← h]
  exact forall_congr' fun before => imp_congr_right fun _ =>
    ⟨fun hb => ⟨hb.1, hb.2⟩, fun hb => ⟨hb.shown, hb.aside⟩⟩

/-- Four columns holding two letters and a full-width character at the end. -/
theorem run_paired_iff_printing :
    (2 : Int) ≤ 4 ∧ ∀ before, before <+: [ScreenOp.print 0x61, .print 0x62, .print 0x4E00,
        .moveTo 1 0, .deleteChars 2] →
      let s := run (Screen.step false) (Screen.create 4 1) before
      PagePaired s.cols s.rows s.grid ∧
        (s.alt = true → PagePaired s.cols s.rows s.parked) :=
  ⟨by decide, (run_paired_iff false (by decide) (by simp)).2 (by decide)⟩

/-- The deletion of one cell brings the character back by one column, and erases its
second half where it now stands. -/
theorem deletion_halves_character :
    ¬ (let s := run (Screen.step false) (Screen.create 4 1)
        [.print 0x61, .print 0x62, .print 0x4E00, .moveTo 0 0, .deleteChars 1]
      PagePaired s.cols s.rows s.grid) := by
  intro h
  have hx := (h 1 0 (by decide) (by decide) (by decide) (by decide)).1 (by decide)
  exact absurd hx.2 (by decide)

end Screen

end Sshos.Vt
