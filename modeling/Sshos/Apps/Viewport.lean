import Sshos.Apps.EmulatorLegible
import Sshos.Apps.TabClicks

/-!
# Sshos.Apps.Viewport

What the **terminal window shows** below its bar: the history and then the screen, read some
lines above the end, as many as the user went back. A line of the history may be shorter or
longer than the window, and what is missing at its right is left as it was.
-/

namespace Sshos.Apps.Tabbed

open Sshos.Lib
open Sshos.Render
open Sshos.Shell (text)
open Sshos.Vt (LineLegible HistoryLegible Screen ScreenCell Scrollback blank)

/-! ### The drawing -/

/-- The cells of a row that are characters, from the first to column `n`. -/
def drawCells (v : View) (row n : Int) (cell : Int → ScreenCell) (s : Surface) : Surface :=
  forUp 0 (min n v.clip.w) (fun s x =>
    -- the second half of a full-width character comes with the first
    if (cell x).width = 0 then s else v.put false s x row (cell x).ch (cell x).style) s

namespace Tab

variable (tab : Tab)

/-- A tab has one from the start. -/
def history : Scrollback := tab.emulator.sink.screen.scrollback.getD (.create 0)

def screen : Screen := tab.emulator.sink.screen

/-- A row below the bar: a line of the history, or of the screen. -/
def drawRow (v : View) (s : Surface) (y : Int) : Surface :=
  if y.toNat < tab.history.offset then
    let index := (Scrollback.sizeSub tab.history.size tab.history.offset + y.toNat) % Scrollback.kSizeMod
    let l := tab.history.at index
    drawCells v (kBarRows + y) l.length (fun x => l.getD x.toNat blank) s
  else
    let gy := y - tab.history.offset
    -- the loop ends here, and so it would at every row below
    if gy ≥ tab.screen.rows then s
    else drawCells v (kBarRows + y) tab.screen.cols (fun x => tab.screen.at x gy) s

/-- What is said of a shell that has ended. -/
def notice : Bytes :=
  let how :=
    if tab.pty.signalled then text "tue par le signal " ++ decimal tab.pty.code
    else text "termine (code " ++ decimal tab.pty.code ++ text ")"
  text "[processus " ++ how ++ text " - Entree ou clic pour fermer]"

/-- `spawn_error`: a tab without a shell has what the system said when it did not start. -/
def spawnError (said : Bytes) : Bytes := if tab.pty.pid = none then said else []

end Tab

/-- `Terminal::render`, with what the system says of a shell that does not start. -/
def Terminal.render (t : Terminal) (said : Bytes) (v : View) (s : Surface) : Surface :=
  let tab := t.activeTab
  let s := Stroke.paint false s (t.drawBar v)
  if tab.spawnError said ≠ [] then
    (v.text false s 0 kBarRows (tab.spawnError said) { fg := .indexed 1 }).2
  else
    let s := forUp 0 (v.clip.h - kBarRows) (tab.drawRow v) s
    if tab.pty.exited then (v.text false s 0 (v.clip.h - 1) tab.notice { attrs := Attr.reverse }).2
    else s

/-! ### What is to be seen -/

namespace Tab

variable (tab : Tab)

/-- The history, and then the screen. -/
def lines : List (List ScreenCell) :=
  (List.range tab.history.size).map tab.history.at ++
    (List.range tab.screen.rows.toNat).map fun (y : Nat) => tab.screen.line y

/-- What is read of them `y` rows below the bar. -/
def viewport (y : Nat) : List ScreenCell :=
  (tab.lines[tab.history.size - tab.history.offset + y]?).getD []

end Tab

/-- What a window of `w` columns shows of a line at column `x`, over what was there: a full-width
character that does not fit is not shown. -/
def shown (l : List ScreenCell) (w : Int) (x : Nat) (old : Cell) : Cell :=
  match l[x]? with
  | none => old
  | some c =>
      if c.width = 0 then { kContinuation with bg := (l.getD (x - 1) blank).style.bg }
      else if c.width = 2 ∧ x + 1 ≥ w then old
      else { ch := c.ch, fg := c.style.fg, bg := c.style.bg, attrs := c.style.attrs, width := c.width }

/-! ### One line -/

section Row

variable {v : View} {s s' : Surface} {l : List ScreenCell} {oy : Nat}

/-- A character of the line, inside the view. -/
theorem put_one {x oy : Nat} {a b : Int} (hs : s.Sized) (hx : x < s.w) (hy : oy < s.h)
    (ha : 0 ≤ a ∧ a < v.clip.w) (hb : 0 ≤ b ∧ b < v.clip.h) (hxa : v.clip.x + a = x)
    (hyb : v.clip.y + b = oy) {ch : Nat} (hch : charWidth false ch = 1) (st : Style) :
    Surface.Overwrites s (v.put false s a b ch st) x oy 1
      fun _ => { ch := ch, fg := st.fg, bg := st.bg, attrs := st.attrs, width := 1 } := by
  have hmap : v.map s a b = some (x, oy) := View.mapIn_of_inside hx hy ha hb hxa hyb
  unfold View.put
  simp only [hmap, hch, Nat.one_ne_zero, if_false, OfNat.one_ne_ofNat, false_and]
  exact Surface.overwrites_one hs hx hy _

theorem put_two {x oy : Nat} {a b : Int} (hs : s.Sized) (hx : x + 1 < s.w) (hy : oy < s.h)
    (ha : 0 ≤ a ∧ a + 1 < v.clip.w) (hb : 0 ≤ b ∧ b < v.clip.h) (hxa : v.clip.x + a = x)
    (hyb : v.clip.y + b = oy) {ch : Nat} (hch : charWidth false ch = 2) (st : Style) :
    Surface.Overwrites s (v.put false s a b ch st) x oy 2
      fun i => if i = 0 then { ch := ch, fg := st.fg, bg := st.bg, attrs := st.attrs, width := 2 }
        else { kContinuation with bg := st.bg } := by
  have hmap : v.map s a b = some (x, oy) :=
    View.mapIn_of_inside (by omega) hy ⟨ha.1, by omega⟩ hb hxa hyb
  have hroom : ¬ (a + 1 ≥ v.clip.w ∨ x + 1 ≥ s.w) := by omega
  unfold View.put
  simp only [hmap, hch, hroom, OfNat.ofNat_ne_zero, if_false, and_false, if_true]
  exact Surface.overwrites_two hs hx hy _ _

/-- There is no room for the second half. -/
theorem put_cut {a b : Int} {ch : Nat} (hch : charWidth false ch = 2) (hcut : a + 1 ≥ v.clip.w)
    (st : Style) : v.put false s a b ch st = s := by
  unfold View.put
  split
  · rfl
  · simp only [hch, hcut, OfNat.ofNat_ne_zero, if_false, true_and, true_or, if_true]

theorem shown_head {w : Int} {i : Nat} {old : Cell} {c : ScreenCell} (hc : l[i]? = some c)
    (hzero : c.width ≠ 0) (hfit : ¬ (c.width = 2 ∧ (i : Int) + 1 ≥ w)) : shown l w i old =
      { ch := c.ch, fg := c.style.fg, bg := c.style.bg, attrs := c.style.attrs, width := c.width } := by
  unfold shown
  rw [hc]
  simp only [if_neg hzero, if_neg hfit]

theorem shown_half {w : Int} {i : Nat} {old : Cell} {c d : ScreenCell} (hc : l[i]? = some c)
    (hd : l[i + 1]? = some d) (hzero : d.width = 0) :
    shown l w (i + 1) old = { kContinuation with bg := c.style.bg } := by
  unfold shown
  rw [hd]
  simp only [if_pos hzero, Nat.add_sub_cancel, List.getD_eq_getElem?_getD, hc, Option.getD_some]

theorem shown_wide {w : Int} {i : Nat} {old : Cell} (hold : old.width = 1)
    (hwide : (shown l w i old).width = 2) : ∃ c, l[i]? = some c ∧ c.width = 2 := by
  unfold shown at hwide
  split at hwide
  · omega
  next c hc =>
    split at hwide
    · cases hwide
    split at hwide
    · omega
    · exact ⟨c, hc, hwide⟩

/-- Nothing is on the row of the view, and no character straddles its edges. -/
structure RowClear (v : View) (s : Surface) (oy : Nat) : Prop where
  inside : ∀ x : Nat, v.clip.x ≤ x → x < v.clip.x + v.clip.w → (s.at x oy).width = 1
  left : ∀ x : Nat, (x : Int) + 1 = v.clip.x → x < s.w → (s.at x oy).width ≠ 2
  right : ∀ x : Nat, (x : Int) = v.clip.x + v.clip.w → x < s.w → (s.at x oy).width ≠ 0

/-- The cell at this column is the second half of a character. -/
def Half (l : List ScreenCell) (i : Nat) : Prop := ∃ c, l[i]? = some c ∧ c.width = 0

/-- The line as far as column `k`, where a half comes with what is before it. -/
def Reached (l : List ScreenCell) (k i : Nat) : Prop := i < k ∨ i = k ∧ Half l k

/-- The row as far as the line is drawn. -/
structure Drawn (v : View) (l : List ScreenCell) (oy : Nat) (s : Surface) (k : Nat) (s' : Surface) :
    Prop where
  w : s'.w = s.w
  h : s'.h = s.h
  sized : s'.Sized
  /-- Elsewhere nothing happens. -/
  apart : ∀ x y, x < s.w → y < s.h →
    (y ≠ oy ∨ ¬ (v.clip.x ≤ x ∧ x < v.clip.x + v.clip.w) ∨ ¬ Reached l k (x - v.clip.x).toNat) →
      s'.at x y = s.at x y
  reached : ∀ (i x : Nat), x < s.w → v.clip.x + i = x → i < v.clip.w → Reached l k i →
    s'.at x oy = shown l v.clip.w i (s.at x oy)

theorem reached_of_head {k : Nat} (hhead : ¬ Half l k) (i : Nat) : Reached l k i ↔ i < k := by
  unfold Reached
  constructor
  · rintro (hlt | ⟨-, hhalf⟩)
    · exact hlt
    · exact absurd hhalf hhead
  · exact fun hlt => .inl hlt

/-- A character that is written on `n` columns, and blanks nothing beside them. -/
theorem Drawn.overwrite {k n ox : Nat} {s'' : Surface} {new : Nat → Cell}
    (h : Drawn v l oy s k s') (ho : Surface.Overwrites s' s'' ox oy n new) (hox : v.clip.x + k = ox)
    (hoy : oy < s.h) (hroom : (k : Int) + n ≤ v.clip.w)
    (hleft : ∀ x, x + 1 = ox → (s'.at x oy).width ≠ 2)
    (hright : ox + n < s.w → (s'.at (ox + n) oy).width ≠ 0)
    (hnew : ∀ i, i < n → new i = shown l v.clip.w (k + i) (s.at (ox + i) oy))
    (hbefore : ∀ i, Reached l k i ↔ i < k) (hafter : ∀ i, Reached l (k + 1) i ↔ i < k + n) :
    Drawn v l oy s (k + 1) s'' := by
  have hw := h.w
  have hh := h.h
  have hcells : ∀ x y, x < s.w → y < s.h → ¬ (y = oy ∧ ox ≤ x ∧ x < ox + n) → s''.at x y = s'.at x y := by
    intro x y hx hy hout
    rw [ho.cells x y (by omega) (by omega), if_neg hout, if_neg]
    rintro ⟨rfl, ⟨hx', hwide⟩ | ⟨rfl, hzero⟩⟩
    · exact hleft x hx' hwide
    · exact hright hx hzero
  refine ⟨ho.w.trans hw, ho.h.trans hh, ho.sized, fun x y hx hy hout => ?_, fun i x hx hxi hi hreached => ?_⟩
  · rw [hcells x y hx hy, h.apart x y hx hy]
    · rcases hout with hrow | hclip | hreached
      · exact .inl hrow
      · exact .inr (.inl hclip)
      · refine .inr (.inr fun hold => hreached ?_)
        rw [hbefore] at hold
        rw [hafter]
        omega
    · rintro ⟨rfl, hle, hlt⟩
      rcases hout with hrow | hclip | hreached
      · exact hrow rfl
      · exact hclip (by omega)
      · exact hreached ((hafter _).2 (by omega))
  · rw [hafter] at hreached
    by_cases hold : i < k
    · rw [hcells x oy hx hoy (by omega)]
      exact h.reached i x hx hxi hi ((hbefore i).2 hold)
    · obtain ⟨d, rfl⟩ : ∃ d, i = k + d := ⟨i - k, by omega⟩
      obtain rfl : x = ox + d := by omega
      rw [ho.cells (ox + d) oy (by omega) (by omega), if_pos ⟨rfl, by omega, by omega⟩,
        Nat.add_sub_cancel_left]
      exact hnew d (by omega)

/-- **One column** of a line of whole characters. -/
theorem Drawn.step {k : Nat} {row : Int} {c : ScreenCell} (hline : LineLegible false l)
    (hin : v.clip.Within s.root.clip) (hclear : RowClear v s oy) (hrow : 0 ≤ row ∧ row < v.clip.h)
    (hoy : v.clip.y + row = oy) (hc : l[k]? = some c) (hk : (k : Int) < v.clip.w)
    (h : Drawn v l oy s k s') :
    Drawn v l oy s (k + 1) (if c.width = 0 then s' else v.put false s' k row c.ch c.style) := by
  obtain ⟨hx0, hy0, hxw, hyh⟩ := hin
  simp only [Surface.root, zero_add] at hx0 hy0 hxw hyh
  have hw := h.w
  have hh := h.h
  obtain ⟨ox, hox⟩ : ∃ ox : Nat, v.clip.x + k = ox := ⟨(v.clip.x + k).toNat, by omega⟩
  by_cases hzero : c.width = 0
  · -- it came with the one before
    rw [if_pos hzero]
    have hnext : ¬ Half l (k + 1) := by
      rintro ⟨d, hd, hdw⟩
      obtain ⟨j, e, hj, he, hwide⟩ := hline.half (k + 1) d hd hdw
      obtain rfl : j = k := by omega
      rw [hc] at he
      cases he
      omega
    have hsame : ∀ i, Reached l (k + 1) i ↔ Reached l k i := by
      intro i
      rw [reached_of_head hnext]
      unfold Reached
      constructor
      · intro hi
        rcases Nat.lt_succ_iff_lt_or_eq.1 hi with hlt | heq
        · exact .inl hlt
        · exact .inr ⟨heq, c, hc, hzero⟩
      · rintro (hlt | ⟨rfl, -⟩)
        · omega
        · omega
    refine ⟨hw, hh, h.sized, fun x y hx hy hout => h.apart x y hx hy ?_, fun i x hx hxi hi hreached => ?_⟩
    · rwa [hsame] at hout
    · exact h.reached i x hx hxi hi ((hsame i).1 hreached)
  rw [if_neg hzero]
  have hhead : ¬ Half l k := by
    rintro ⟨d, hd, hdw⟩
    rw [hc] at hd
    cases hd
    exact hzero hdw
  have hbefore := reached_of_head hhead
  have hfits := hline.fits c (List.mem_of_getElem? hc) hzero
  have hle := charWidth_le false c.ch
  have hleft : ∀ x, x + 1 = ox → (s'.at x oy).width ≠ 2 := by
    intro x hx hwide
    by_cases hk0 : k = 0
    · rw [h.apart x oy (by omega) (by omega) (.inr (.inl (by omega)))] at hwide
      exact hclear.left x (by omega) (by omega) hwide
    · rw [h.reached (k - 1) x (by omega) (by omega) (by omega) ((hbefore _).2 (by omega))] at hwide
      obtain ⟨d, hd, hdw⟩ := shown_wide (hclear.inside x (by omega) (by omega)) hwide
      obtain ⟨e, he, hew⟩ := hline.head (k - 1) d hd hdw
      rw [show k - 1 + 1 = k by omega, hc] at he
      cases he
      exact hzero hew
  have hright : ∀ n : Nat, 0 < n → (k : Int) + n ≤ v.clip.w → ox + n < s.w → (s'.at (ox + n) oy).width ≠ 0 := by
    intro n hn hroom hlt
    rw [h.apart (ox + n) oy hlt (by omega) (.inr (.inr (by rw [hbefore]; omega)))]
    by_cases hend : (k : Int) + n = v.clip.w
    · exact hclear.right (ox + n) (by omega) hlt
    · rw [hclear.inside (ox + n) (by omega) (by omega)]
      exact Nat.one_ne_zero
  by_cases hwide : c.width = 2
  · obtain ⟨d, hd, hdw⟩ := hline.head k c hc hwide
    have hhalf : Half l (k + 1) := ⟨d, hd, hdw⟩
    have hafter : ∀ i, Reached l (k + 1) i ↔ i < k + 2 := by
      intro i
      unfold Reached
      constructor
      · rintro (hlt | ⟨rfl, -⟩) <;> omega
      · intro hlt
        rcases Nat.lt_succ_iff_lt_or_eq.1 hlt with hlt | heq
        · exact .inl hlt
        · exact .inr ⟨heq, hhalf⟩
    by_cases hcut : (k : Int) + 1 ≥ v.clip.w
    · -- there is no room for it
      rw [put_cut (by omega) hcut]
      refine ⟨hw, hh, h.sized, fun x y hx hy hout => h.apart x y hx hy ?_, fun i x hx hxi hi hreached => ?_⟩
      · rw [hafter] at hout
        rw [hbefore]
        omega
      · by_cases hold : i < k
        · exact h.reached i x hx hxi hi ((hbefore i).2 hold)
        · obtain rfl : i = k := by omega
          rw [h.apart x oy hx (by omega) (.inr (.inr (by rw [hbefore]; omega)))]
          unfold shown
          rw [hc]
          simp only [if_neg hzero, if_pos (show c.width = 2 ∧ (i : Int) + 1 ≥ v.clip.w from ⟨hwide, hcut⟩)]
    · have ho : Surface.Overwrites s' (v.put false s' k row c.ch c.style) ox oy 2 _ :=
        put_two h.sized (by omega) (by omega) ⟨by omega, by omega⟩ hrow hox hoy (by omega) c.style
      refine h.overwrite ho hox (by omega) (by omega) hleft (hright 2 (by omega) (by omega)) (fun i hi => ?_)
        hbefore hafter
      obtain rfl | rfl : i = 0 ∨ i = 1 := by omega
      · rw [Nat.add_zero, shown_head hc hzero (fun hno => hcut hno.2), hwide]
        rfl
      · rw [shown_half hc hd hdw]
        rfl
  · have hone : c.width = 1 := by omega
    have hnext : ¬ Half l (k + 1) := by
      rintro ⟨d, hd, hdw⟩
      obtain ⟨j, e, hj, he, hew⟩ := hline.half (k + 1) d hd hdw
      obtain rfl : j = k := by omega
      rw [hc] at he
      cases he
      exact hwide hew
    have ho : Surface.Overwrites s' (v.put false s' k row c.ch c.style) ox oy 1 _ :=
      put_one h.sized (by omega) (by omega) ⟨by omega, by omega⟩ hrow hox hoy (by omega) c.style
    refine h.overwrite ho hox (by omega) (by omega) hleft (hright 1 (by omega) (by omega)) (fun i hi => ?_)
      hbefore (reached_of_head hnext)
    obtain rfl : i = 0 := by omega
    rw [Nat.add_zero, shown_head hc hzero (fun hno => hwide hno.1), hone]

/-- The row as the line leaves it. -/
structure RowShown (v : View) (l : List ScreenCell) (oy : Nat) (s s' : Surface) : Prop where
  w : s'.w = s.w
  h : s'.h = s.h
  sized : s'.Sized
  cells : ∀ x y, x < s.w → y < s.h → s'.at x y =
    if y = oy ∧ v.clip.x ≤ x ∧ x < v.clip.x + v.clip.w then
      shown l v.clip.w (x - v.clip.x).toNat (s.at x y)
    else s.at x y

theorem shown_none {w : Int} {i : Nat} {old : Cell} (hnone : l.length ≤ i) :
    shown l w i old = old := by
  unfold shown
  rw [List.getElem?_eq_none hnone]

theorem RowShown.of_nil (hs : s.Sized) (v : View) (oy : Nat) : RowShown v [] oy s s := by
  refine ⟨rfl, rfl, hs, fun x y _ _ => ?_⟩
  split
  · exact (shown_none (Nat.zero_le _)).symm
  · rfl

/-- **One line** of whole characters, on a row where nothing is. -/
theorem drawCells_shown {row : Int} {cell : Int → ScreenCell} (hline : LineLegible false l)
    (hs : s.Sized) (hin : v.clip.Within s.root.clip) (hclear : RowClear v s oy)
    (hrow : 0 ≤ row ∧ row < v.clip.h) (hoy : v.clip.y + row = oy)
    (hcell : ∀ i : Nat, i < l.length → l[i]? = some (cell i)) :
    RowShown v l oy s (drawCells v row l.length cell s) := by
  have hstart : Drawn v l oy s (0 : Int).toNat s := by
    refine ⟨rfl, rfl, hs, fun _ _ _ _ _ => rfl, fun i x hx hxi hi hreached => ?_⟩
    rcases hreached with hlt | ⟨rfl, d, hd, hdw⟩
    · exact absurd hlt (Nat.not_lt_zero i)
    · -- no line begins with a half
      obtain ⟨j, e, hj, -⟩ := hline.half 0 d hd hdw
      omega
  by_cases hle : 0 ≤ min (l.length : Int) v.clip.w
  · have hend : Drawn v l oy s (min (l.length : Int) v.clip.w).toNat
        (drawCells v row l.length cell s) := by
      refine forUp_rule (P := fun k s' => Drawn v l oy s k.toNat s') hle hstart fun k s' h0 hlt h => ?_
      obtain ⟨i, rfl⟩ := Int.eq_ofNat_of_zero_le h0
      have hnext : ((i : Int) + 1).toNat = i + 1 := by omega
      rw [hnext]
      exact h.step hline hin hclear hrow hoy (hcell i (by omega)) (by omega)
    refine ⟨hend.w, hend.h, hend.sized, fun x y hx hy => ?_⟩
    split
    next hhere =>
      obtain ⟨rfl, hleft, hright⟩ := hhere
      by_cases hreached : Reached l (min (l.length : Int) v.clip.w).toNat (x - v.clip.x).toNat
      · exact hend.reached _ x hx (by omega) (by omega) hreached
      · have hfar : ¬ (x - v.clip.x).toNat < (min (l.length : Int) v.clip.w).toNat :=
          fun hlt => hreached (.inl hlt)
        rw [shown_none (by omega)]
        exact hend.apart x y hx hy (.inr (.inr hreached))
    next hout =>
      refine hend.apart x y hx hy ?_
      by_cases hrow' : y = oy
      · exact .inr (.inl fun hcol => hout ⟨hrow', hcol⟩)
      · exact .inl hrow'
  · unfold drawCells
    rw [forUp_of_le (by omega)]
    refine ⟨rfl, rfl, hs, fun x y hx hy => ?_⟩
    rw [if_neg (by omega)]

end Row

/-! ### The rows -/

namespace Tab

variable {tab : Tab} {v : View} {s s' : Surface}

theorem history_legible (h : Readable tab.screen) : HistoryLegible false tab.history := by
  unfold history
  cases hsb : tab.emulator.sink.screen.scrollback with
  | none => exact HistoryLegible.create false 0
  | some sb => exact h.legible.history sb hsb

theorem viewport_history {y : Nat} (hle : tab.history.offset ≤ tab.history.size)
    (hy : y < tab.history.offset) :
    tab.viewport y = tab.history.at (tab.history.size - tab.history.offset + y) := by
  unfold viewport lines
  rw [List.getElem?_append_left (by simp only [List.length_map, List.length_range]; omega),
    List.getElem?_map, List.getElem?_range (by omega)]
  rfl

theorem viewport_screen {y : Nat} (hle : tab.history.offset ≤ tab.history.size)
    (hy : tab.history.offset ≤ y) (hrows : (y : Int) - tab.history.offset < tab.screen.rows) :
    tab.viewport y = tab.screen.line ((y - tab.history.offset : Nat) : Int) := by
  unfold viewport lines
  rw [List.getElem?_append_right (by simp only [List.length_map, List.length_range]; omega),
    List.length_map, List.length_range, List.getElem?_map, List.getElem?_range (by omega)]
  simp only [Option.map_some, Option.getD_some]
  congr 2
  omega

theorem viewport_below {y : Nat} (hle : tab.history.offset ≤ tab.history.size)
    (hy : tab.history.offset ≤ y) (hrows : ¬ (y : Int) - tab.history.offset < tab.screen.rows) :
    tab.viewport y = [] := by
  unfold viewport lines
  rw [List.getElem?_eq_none]
  · rfl
  · simp only [List.length_append, List.length_map, List.length_range]
    omega

/-- **One row** is what the viewport has there. -/
theorem drawRow_shown (h : Readable tab.screen) (hs : s.Sized) (hin : v.clip.Within s.root.clip)
    {y oy : Nat} (hclear : RowClear v s oy) (hy : kBarRows + y < v.clip.h)
    (hoy : v.clip.y + (kBarRows + y) = oy) : RowShown v (tab.viewport y) oy s (tab.drawRow v s y) := by
  have hlegible := history_legible h
  obtain ⟨rows, hheld⟩ := hlegible.held
  have hle := hheld.offset
  have hword := hheld.size_lt
  have hrow : 0 ≤ kBarRows + (y : Int) ∧ kBarRows + (y : Int) < v.clip.h := ⟨by unfold kBarRows; omega, hy⟩
  unfold drawRow
  simp only [Int.toNat_natCast]
  split
  next hback =>
    rw [viewport_history hle hback, Scrollback.sizeSub_eq hle hword, Nat.mod_eq_of_lt (by omega)]
    refine drawCells_shown (hlegible.at _) hs hin hclear hrow hoy fun i hi => ?_
    rw [Int.toNat_natCast, List.getD_eq_getElem?_getD, List.getElem?_eq_getElem hi, Option.getD_some]
  next hnear =>
  split
  next hlow =>
    rw [viewport_below hle (by omega) (by omega)]
    exact RowShown.of_nil hs v oy
  next hon =>
    rw [viewport_screen hle (by omega) (by omega)]
    have hlength : ((tab.screen.line ((y - tab.history.offset : Nat) : Int)).length : Int) =
        tab.screen.cols := by
      have hwide := h.wide
      simp only [Screen.line, List.length_map, List.length_range]
      omega
    rw [← hlength]
    refine drawCells_shown (Screen.line_legible h.legible.grid h.paired.shown _) hs hin hclear hrow hoy
      fun i hi => ?_
    simp only [Screen.line, List.length_map, List.length_range] at hi ⊢
    rw [List.getElem?_map, List.getElem?_range hi, Option.map_some]
    congr 2
    omega

/-- The rows of the view as far as they are drawn. -/
structure RowsShown (tab : Tab) (v : View) (s : Surface) (k : Nat) (s' : Surface) : Prop where
  w : s'.w = s.w
  h : s'.h = s.h
  sized : s'.Sized
  cells : ∀ x y, x < s.w → y < s.h → s'.at x y =
    if (v.clip.x ≤ x ∧ x < v.clip.x + v.clip.w) ∧
        v.clip.y + kBarRows ≤ y ∧ y < v.clip.y + kBarRows + k then
      shown (tab.viewport (y - v.clip.y - kBarRows).toNat) v.clip.w (x - v.clip.x).toNat (s.at x y)
    else s.at x y

theorem RowsShown.step (hreadable : Readable tab.screen) (hin : v.clip.Within s.root.clip) {k oy : Nat}
    (hclear : RowClear v s oy) (hk : kBarRows + k < v.clip.h) (hoy : v.clip.y + (kBarRows + k) = oy)
    (h : RowsShown tab v s k s') : RowsShown tab v s (k + 1) (tab.drawRow v s' k) := by
  obtain ⟨hx0, hy0, hxw, hyh⟩ := id hin
  simp only [Surface.root, zero_add] at hx0 hy0 hxw hyh
  have hin' : v.clip.Within s'.root.clip := by
    simp only [Surface.root, h.w, h.h]
    exact hin
  have hsame : ∀ x, x < s.w → s'.at x oy = s.at x oy := fun x hx => by
    rw [h.cells x oy hx (by omega), if_neg (by omega)]
  have hclear' : RowClear v s' oy := by
    refine ⟨fun x hle hlt => ?_, fun x hx hlt => ?_, fun x hx hlt => ?_⟩
    · rw [hsame x (by omega)]
      exact hclear.inside x hle hlt
    · rw [h.w] at hlt
      rw [hsame x hlt]
      exact hclear.left x hx hlt
    · rw [h.w] at hlt
      rw [hsame x hlt]
      exact hclear.right x hx hlt
  have hrow := drawRow_shown hreadable h.sized hin' hclear' hk hoy
  refine ⟨hrow.w.trans h.w, hrow.h.trans h.h, hrow.sized, fun x y hx hy => ?_⟩
  rw [hrow.cells x y (by rw [h.w]; exact hx) (by rw [h.h]; exact hy)]
  by_cases hthis : y = oy ∧ v.clip.x ≤ x ∧ x < v.clip.x + v.clip.w
  · obtain ⟨rfl, hle, hlt⟩ := hthis
    have hindex : ((y : Int) - v.clip.y - kBarRows).toNat = k := by omega
    rw [if_pos ⟨rfl, hle, hlt⟩, hsame x hx, if_pos (by push_cast; omega), hindex]
  · rw [if_neg hthis, h.cells x y hx hy]
    by_cases hbefore : (v.clip.x ≤ x ∧ x < v.clip.x + v.clip.w) ∧
        v.clip.y + kBarRows ≤ y ∧ y < v.clip.y + kBarRows + k
    · rw [if_pos hbefore, if_pos (by push_cast; omega)]
    · rw [if_neg hbefore, if_neg (by push_cast; omega)]

theorem whole_drawRow (h : Surface.Whole false s) (y : Int) : Surface.Whole false (tab.drawRow v s y) := by
  have hcells : ∀ row n cell, Surface.Whole false (drawCells v row n cell s) := by
    intro row n cell
    refine View.whole_forUp h fun s x hs => ?_
    split
    · exact hs
    · exact v.whole_put hs _ _ _ _
  unfold drawRow
  simp only
  split
  · exact hcells _ _ _
  split
  · exact h
  · exact hcells _ _ _

/-- **All the rows**, on a view where nothing is below the bar. -/
theorem rows_shown (hreadable : Readable tab.screen) (hwhole : Surface.Whole false s)
    (hin : v.clip.Within s.root.clip)
    (hclear : ∀ y : Nat, v.clip.y + kBarRows ≤ y → y < v.clip.y + v.clip.h → RowClear v s y) :
    Surface.Whole false (forUp 0 (v.clip.h - kBarRows) (tab.drawRow v) s) ∧
      RowsShown tab v s (v.clip.h - kBarRows).toNat (forUp 0 (v.clip.h - kBarRows) (tab.drawRow v) s) := by
  refine ⟨View.whole_forUp hwhole fun s y hs => whole_drawRow hs y, ?_⟩
  have hstart : RowsShown tab v s (0 : Int).toNat s := by
    refine ⟨rfl, rfl, hwhole.sized, fun x y _ _ => ?_⟩
    rw [if_neg (by simp only [Int.toNat_zero]; omega)]
  by_cases hle : 0 ≤ v.clip.h - kBarRows
  · refine forUp_rule (P := fun k s' => RowsShown tab v s k.toNat s') hle hstart fun k s' h0 hlt h => ?_
    obtain ⟨i, rfl⟩ := Int.eq_ofNat_of_zero_le h0
    obtain ⟨-, hy0, -, -⟩ := id hin
    simp only [Surface.root] at hy0
    have hbar : (0 : Int) ≤ kBarRows := by decide
    have hnext : ((i : Int) + 1).toNat = i + 1 := by omega
    rw [hnext]
    exact h.step hreadable hin (hclear (v.clip.y + (kBarRows + i)).toNat (by omega) (by omega)) (by omega)
      (by omega)
  · rw [forUp_of_le (by omega), show (v.clip.h - kBarRows).toNat = 0 by omega]
    exact hstart

end Tab

/-! ### The bar and the notice -/

section Beside

variable {v : View} {s s₁ : Surface}

/-- A text stays on its row. -/
theorem text_confined {region : Nat → Nat → Prop} (hs : s.Paired) (h₁ : Surface.Confined region s s₁)
    {x y : Int} {utf8 : Bytes} {st : Style}
    (hregion : ∀ x' y' : Nat, v.clip.contains x' y' → (y' : Int) = v.clip.y + y → region x' y') :
    Surface.Confined region s (v.text false s₁ x y utf8 st).2 :=
  View.confined_draw (d := .text x y utf8 st) hs h₁ fun p hp =>
    hregion p.1 p.2 (View.contains_of_ink hp) (View.row_of_textInk hp)

theorem fill_confined {region : Nat → Nat → Prop} (hs : s.Paired) (h₁ : Surface.Confined region s s₁)
    {x : Int} {n : Int} {st : Style}
    (hregion : ∀ x' y' : Nat, v.clip.contains x' y' → (y' : Int) = v.clip.y → region x' y') :
    Surface.Confined region s (v.fill s₁ { x := x, y := 0, w := n, h := kBarRows } st) := by
  refine View.confined_fill hs h₁ st fun p hp => ?_
  have hin : v.clip.contains p.1 p.2 :=
    @View.contains_of_ink false v s.w s.h (.fill { x := x, y := 0, w := n, h := kBarRows } st) p hp
  refine hregion p.1 p.2 hin ?_
  obtain ⟨b, hb, hp⟩ := List.mem_flatMap.1 hp
  obtain ⟨a, ha, hp⟩ := List.mem_flatMap.1 hp
  obtain ⟨-, hrow, -⟩ := View.mapIn_inside (Option.mem_toList.1 hp)
  have hb : max 0 0 ≤ b ∧ b < min v.clip.h (0 + 1) := mem_upTo.1 hb
  omega

/-- **The bar** is painted on one row. -/
theorem drawBar_confined (t : Terminal) {region : Nat → Nat → Prop} (hs : s.Paired)
    (h₁ : Surface.Confined region s s₁)
    (hregion : ∀ x y : Nat, v.clip.contains x y → (y : Int) = v.clip.y → region x y) :
    Surface.Confined region s (Stroke.paint false s₁ (t.drawBar v)) := by
  refine List.foldlRecOn (t.drawBar v) _ h₁ fun s₂ h₂ k hk => ?_
  obtain ⟨slot, -, hk⟩ := List.mem_flatMap.1 hk
  rcases List.mem_append.1 hk with hfill | htext
  · split at hfill
    · rw [List.mem_singleton.1 hfill]
      exact fill_confined hs h₂ hregion
    · cases hfill
  · rw [List.mem_singleton.1 htext]
    refine text_confined hs h₂ fun x y hin hrow => hregion x y hin ?_
    rw [hrow, add_zero]

theorem whole_drawBar (t : Terminal) (h : Surface.Whole false s) :
    Surface.Whole false (Stroke.paint false s (t.drawBar v)) := by
  refine List.foldlRecOn (t.drawBar v) _ h fun s₂ h₂ k hk => ?_
  obtain ⟨slot, -, hk⟩ := List.mem_flatMap.1 hk
  rcases List.mem_append.1 hk with hfill | htext
  · split at hfill
    · rw [List.mem_singleton.1 hfill]
      exact v.whole_fill h₂ _ _
    · cases hfill
  · rw [List.mem_singleton.1 htext]
    exact v.whole_textFrom _ _ _ _ _ _ h₂

theorem Tab.drawRow_confined (tab : Tab) {region : Nat → Nat → Prop} (hs : s.Paired)
    (h₁ : Surface.Confined region s s₁) (hregion : ∀ x y : Nat, v.clip.contains x y → region x y)
    (y : Int) : Surface.Confined region s (tab.drawRow v s₁ y) := by
  have hcells : ∀ row n cell, Surface.Confined region s (drawCells v row n cell s₁) := by
    intro row n cell
    refine forUp_invariant (P := Surface.Confined region s) h₁ fun x s₂ _ _ h₂ => ?_
    split
    · exact h₂
    · exact View.confined_put hs h₂ _ fun p hp => hregion p.1 p.2 (View.contains_of_putInk hp)
  unfold Tab.drawRow
  simp only
  split
  · exact hcells _ _ _
  split
  · exact h₁
  · exact hcells _ _ _

end Beside

/-! ### The window -/

section Window

variable {v : View} {s : Surface}

/-- Where nothing is in the view, nothing straddles its sides. -/
theorem straddles_none (hclear : ∀ x y : Nat, v.clip.contains x y → (s.at x y).width = 1)
    {x y : Nat} : ¬ s.Straddles (fun x y => v.clip.contains x y) x y := by
  rintro (⟨-, hzero, hin⟩ | ⟨-, -, hwide, hin⟩)
  · rw [hclear _ _ hin] at hzero
    cases hzero
  · rw [hclear _ _ hin] at hwide
    cases hwide

theorem rowClear_of_clear (hs : s.Paired) (hin : v.clip.Within s.root.clip)
    (hclear : ∀ x y : Nat, v.clip.contains x y → (s.at x y).width = 1) {y : Nat}
    (hy : v.clip.y ≤ y ∧ y < v.clip.y + v.clip.h) (hw : 0 < v.clip.w) : RowClear v s y := by
  obtain ⟨hx0, hy0, hxw, hyh⟩ := id hin
  simp only [Surface.root, zero_add] at hx0 hy0 hxw hyh
  have hcell : ∀ x : Nat, v.clip.x ≤ x → x < v.clip.x + v.clip.w → (s.at x y).width = 1 :=
    fun x hle hlt => hclear x y (Rect.contains_iff.2 ⟨hle, hy.1, hlt, hy.2⟩)
  refine ⟨hcell, fun x hx hlt hwide => ?_, fun x hx hlt hzero => ?_⟩
  · have hnext := (hs.head x y hlt (by omega) hwide).2
    rw [hcell (x + 1) (by omega) (by omega)] at hnext
    cases hnext
  · obtain ⟨hpos, hprev⟩ := hs.continuation x y hlt (by omega) hzero
    rw [hcell (x - 1) (by omega) (by omega)] at hprev
    cases hprev

/-- **The window shows the viewport** of the tab that is looked at, and paints nothing outside. -/
theorem Terminal.render_shown {t : Terminal} (h : Readable t.activeTab.screen) {said : Bytes}
    (hstarted : t.activeTab.spawnError said = []) (hwhole : Surface.Whole false s)
    (hin : v.clip.Within s.root.clip)
    (hclear : ∀ x y : Nat, v.clip.contains x y → (s.at x y).width = 1) {x y : Nat} (hx : x < s.w)
    (hy : y < s.h) :
    (¬ v.clip.contains x y → (t.render said v s).at x y = s.at x y) ∧
    (v.clip.contains x y → v.clip.y + kBarRows ≤ y →
      (t.activeTab.pty.exited = true → y + 1 < v.clip.y + v.clip.h) →
      (t.render said v s).at x y =
        shown (t.activeTab.viewport (y - v.clip.y - kBarRows).toNat) v.clip.w (x - v.clip.x).toNat
          (s.at x y)) := by
  have hp := hwhole.paired
  have hwhole₁ := whole_drawBar (v := v) t hwhole
  unfold Terminal.render
  simp only [hstarted, ne_eq, not_true_eq_false, if_false]
  constructor
  · intro hout
    have hbar : Surface.Confined (fun x y => v.clip.contains x y) s (Stroke.paint false s (t.drawBar v)) :=
      drawBar_confined t hp (Surface.Confined.refl hp.sized _) fun x y hin _ => hin
    have hrows := forUp_invariant (P := Surface.Confined (fun x y => v.clip.contains x y) s) hbar
      fun k s₁ (_ : 0 ≤ k) (_ : k < v.clip.h - kBarRows) h₁ =>
        t.activeTab.drawRow_confined hp h₁ (fun x y hin => hin) k
    generalize forUp 0 (v.clip.h - kBarRows) (t.activeTab.drawRow v) _ = s₁ at hrows ⊢
    split
    · have htext : Surface.Confined (fun x y => v.clip.contains x y) s
          (v.text false s₁ 0 (v.clip.h - 1) t.activeTab.notice { attrs := Attr.reverse }).2 :=
        text_confined hp hrows fun x y hin _ => hin
      exact htext.same hx hy hout (straddles_none hclear)
    · exact hrows.same hx hy hout (straddles_none hclear)
  · intro hinside hbelow hnotice
    obtain ⟨hle, hyle, hlt, hylt⟩ := Rect.contains_iff.1 hinside
    have hbar : Surface.Confined (fun x y => v.clip.contains x y ∧ (y : Int) = v.clip.y) s
        (Stroke.paint false s (t.drawBar v)) :=
      drawBar_confined t hp (Surface.Confined.refl hp.sized _) fun x y hin hrow => ⟨hin, hrow⟩
    have hoff : ∀ x y : Nat, x < s.w → y < s.h → v.clip.y + kBarRows ≤ y →
        (Stroke.paint false s (t.drawBar v)).at x y = s.at x y := by
      intro x y hx hy hrow
      have hrow' : (y : Int) ≠ v.clip.y := by
        unfold kBarRows at hrow
        omega
      refine hbar.same hx hy (fun hno => hrow' hno.2) ?_
      rintro (⟨-, -, hno⟩ | ⟨-, -, -, hno⟩)
      · exact hrow' hno.2
      · exact hrow' hno.2
    generalize Stroke.paint false s (t.drawBar v) = s₁ at hwhole₁ hbar hoff ⊢
    have hw₁ := hbar.w
    have hh₁ := hbar.h
    have hin₁ : v.clip.Within s₁.root.clip := by
      simp only [Surface.root, hw₁, hh₁]
      exact hin
    have hclear₁ : ∀ y : Nat, v.clip.y + kBarRows ≤ y → y < v.clip.y + v.clip.h → RowClear v s₁ y := by
      intro y' hbelow' hlt'
      obtain ⟨hx0, hy0, hxw, hyh⟩ := id hin
      simp only [Surface.root, zero_add] at hx0 hy0 hxw hyh
      have hbar0 : (0 : Int) ≤ kBarRows := by decide
      have hrow := rowClear_of_clear hp hin hclear (y := y') ⟨by omega, hlt'⟩ (by omega)
      refine ⟨fun x hle hlt => ?_, fun x hx hlt => ?_, fun x hx hlt => ?_⟩
      · rw [hoff x y' (by omega) (by omega) hbelow']
        exact hrow.inside x hle hlt
      · rw [hw₁] at hlt
        rw [hoff x y' hlt (by omega) hbelow']
        exact hrow.left x hx hlt
      · rw [hw₁] at hlt
        rw [hoff x y' hlt (by omega) hbelow']
        exact hrow.right x hx hlt
    obtain ⟨hwhole₂, hrows⟩ := Tab.rows_shown h hwhole₁ hin₁ hclear₁
    have hcell := hrows.cells x y (by omega) (by omega)
    rw [if_pos ⟨⟨hle, hlt⟩, hbelow, by omega⟩, hoff x y hx hy hbelow] at hcell
    rw [← hcell]
    generalize forUp 0 (v.clip.h - kBarRows) (t.activeTab.drawRow v) s₁ = s₂ at hwhole₂ hrows
    have hw₂ := hrows.w
    have hh₂ := hrows.h
    split
    next hexited =>
      -- the notice is on the last row
      have hlast := hnotice hexited
      have htext : Surface.Confined (fun _ y => (y : Int) = v.clip.y + (v.clip.h - 1)) s₂
          (v.text false s₂ 0 (v.clip.h - 1) t.activeTab.notice { attrs := Attr.reverse }).2 :=
        text_confined hwhole₂.paired (Surface.Confined.refl hwhole₂.sized _) fun x y _ hrow => hrow
      have hrow : (y : Int) ≠ v.clip.y + (v.clip.h - 1) := by omega
      refine htext.same (by omega) (by omega) hrow ?_
      rintro (⟨-, -, hno⟩ | ⟨-, -, -, hno⟩)
      · exact hrow hno
      · exact hrow hno
    next => rfl

/-- Where the shell did not start, the window says why on one row. -/
theorem Terminal.render_failed {t : Terminal} {said : Bytes} (hfailed : t.activeTab.spawnError said ≠ [])
    (hwhole : Surface.Whole false s)
    (hclear : ∀ x y : Nat, v.clip.contains x y → (s.at x y).width = 1) {x y : Nat} (hx : x < s.w)
    (hy : y < s.h) :
    (¬ v.clip.contains x y → (t.render said v s).at x y = s.at x y) ∧
    (v.clip.y + kBarRows < y → (t.render said v s).at x y = s.at x y) := by
  have hp := hwhole.paired
  unfold Terminal.render
  simp only [if_pos hfailed]
  constructor
  · intro hout
    have hbar : Surface.Confined (fun x y => v.clip.contains x y) s (Stroke.paint false s (t.drawBar v)) :=
      drawBar_confined t hp (Surface.Confined.refl hp.sized _) fun x y hin _ => hin
    exact (text_confined hp hbar fun x y hin _ => hin).same hx hy hout (straddles_none hclear)
  · intro hbelow
    have hbar : Surface.Confined (fun _ y => (y : Int) ≤ v.clip.y + kBarRows) s
        (Stroke.paint false s (t.drawBar v)) := by
      refine drawBar_confined t hp (Surface.Confined.refl hp.sized _) fun x y _ hrow => ?_
      unfold kBarRows
      omega
    refine (text_confined hp hbar fun x y _ hrow => hrow.le).same hx hy (Int.not_le.2 hbelow) ?_
    rintro (⟨-, -, hno⟩ | ⟨-, -, -, hno⟩)
    · exact Int.not_le.2 hbelow hno
    · exact Int.not_le.2 hbelow hno

/-- **What the window shows**, whatever was done in it: below the bar every cell of a view where
nothing is has what the history and the screen have there, read as many lines above their end as
the user went back; or, of a shell that did not start, why. Outside the view nothing is painted. -/
theorem Terminal.viewport_shown (win : UInt32) (app : Nat) (fdGen : UInt32) (master : Option Nat)
    (is : List Input) (said : Bytes) (hsaid : said ≠ []) :
    let t := run Terminal.step (Terminal.start win app fdGen master) is
    StepsMeet Own.hear Own.Spares {}
      (Terminal.heard false t.activeTab.serial (Terminal.start win app fdGen master) is) →
    ∀ (v : View) (s : Surface), Surface.Whole false s → v.clip.Within s.root.clip →
      (∀ x y : Nat, v.clip.contains x y → (s.at x y).width = 1) →
      ∀ x y : Nat, x < s.w → y < s.h →
        (¬ v.clip.contains x y → (t.render said v s).at x y = s.at x y) ∧
        (t.activeTab.pty.pid = none → v.clip.y + kBarRows < y →
          (t.render said v s).at x y = s.at x y) ∧
        (t.activeTab.pty.pid ≠ none → v.clip.contains x y → v.clip.y + kBarRows ≤ y →
          (t.activeTab.pty.exited = true → y + 1 < v.clip.y + v.clip.h) →
          (t.render said v s).at x y =
            shown (t.activeTab.viewport (y - v.clip.y - kBarRows).toNat) v.clip.w (x - v.clip.x).toNat
              (s.at x y)) := by
  intro t hspared v s hwhole hin hclear x y hx hy
  have hmem : t.activeTab ∈ t.tabs := ((Terminal.Sane.start win app fdGen master).run is).activeTab_mem
  have hreadable := Terminal.readable_of_spared win app fdGen master is hmem hspared
  by_cases hfailed : t.activeTab.pty.pid = none
  · have herror : t.activeTab.spawnError said ≠ [] := by
      unfold Tab.spawnError
      rw [if_pos hfailed]
      exact hsaid
    obtain ⟨hout, hrows⟩ := Terminal.render_failed herror hwhole hclear hx hy
    exact ⟨hout, fun _ => hrows, fun hno => absurd hfailed hno⟩
  · have hstarted : t.activeTab.spawnError said = [] := if_neg hfailed
    obtain ⟨hout, hrows⟩ := Terminal.render_shown hreadable hstarted hwhole hin hclear hx hy
    exact ⟨hout, fun hno => absurd hno hfailed, fun _ => hrows⟩

/-- A full-width character on the other page of a window of three columns and two rows. -/
def Terminal.wideRun : List Input :=
  [.resize 3 2, .guestWrites 0 [0x1B, 0x5B, 0x3F, 0x31, 0x30, 0x34, 0x39, 0x68, 0xE6, 0x97, 0xA5],
    .io (Daemon.makeKey 1 16) { sizes := [11] }]

def Terminal.wideView : View := { clip := { x := 2, y := 1, w := 3, h := 2 } }

theorem Terminal.viewport_shown_wide :
    ((run Terminal.step (Terminal.start 1 0 16 (some 7)) wideRun).render [0x3F] wideView
      (Surface.ofSize 6 3)).at 2 2 = { ch := 0x65E5, width := 2 } ∧
    ((run Terminal.step (Terminal.start 1 0 16 (some 7)) wideRun).render [0x3F] wideView
      (Surface.ofSize 6 3)).at 0 0 = {} :=
  have hshown := Terminal.viewport_shown 1 0 16 (some 7) wideRun [0x3F] (by decide) (by decide +kernel)
    wideView (Surface.ofSize 6 3) (Surface.Whole.ofSize false 6 3) ⟨by decide, by decide, by decide, by decide⟩
    (fun x y _ => by rw [Surface.ofSize, Surface.create_at])
  ⟨((hshown 2 2 (by decide) (by decide)).2.2 (by decide +kernel) (by decide) (by decide)
      (fun hexited => absurd hexited (by decide +kernel))).trans (by decide +kernel),
    ((hshown 0 0 (by decide) (by decide)).1 (by decide)).trans (Surface.create_at _ _ _ _)⟩

end Window

end Sshos.Apps.Tabbed
