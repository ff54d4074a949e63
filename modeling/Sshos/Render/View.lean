import Sshos.Common.Utf8
import Sshos.Lib.Grid
import Sshos.Lib.Run
import Sshos.Render.Surface

/-!
# Sshos.Render.View

**Views** of a surface: rectangles, clipped and moved, through which an application
paints. They nest and overlap, so a write may fall on either half of a full-width
character another one left, and the halves it separates are blanked, inside the view or
not.
-/

namespace Sshos.Render

open Sshos.Common (utf8Decode utf8Decode_pos)
open Sshos.Lib (Bytes forUp rowMajor_inj run run_preserves)

/-! ### Painting -/

namespace Surface

/-- A negative dimension is none. -/
def ofSize (w h : Int) : Surface := create w.toNat h.toNat

def set (s : Surface) (x y : Nat) (c : Cell) : Surface :=
  { s with cells := s.cells.set (y * s.w + x) c }

def clear (s : Surface) (st : Style) : Surface :=
  { s with cells := s.cells.map fun _ => { fg := st.fg, bg := st.bg, attrs := st.attrs } }

/-- Blank what a write at this place would leave without its other half. -/
def cleanupOrphan (s : Surface) (ox oy : Nat) : Surface :=
  let s := if ox > 0 ∧ (s.at (ox - 1) oy).width = 2 then s.set (ox - 1) oy {} else s
  if ox + 1 < s.w ∧ (s.at (ox + 1) oy).width = 0 then s.set (ox + 1) oy {} else s

end Surface

inductive Border
  | unicode | ascii
  deriving DecidableEq

structure View where
  clip : Rect

namespace View

variable (amb : Bool) (v : View) (s : Surface)

/-- The place on the surface, if it is inside both. -/
def map (x y : Int) : Option (Nat × Nat) :=
  if x < 0 ∨ y < 0 ∨ x ≥ v.clip.w ∨ y ≥ v.clip.h then none
  else
    let ox := v.clip.x + x
    let oy := v.clip.y + y
    if 0 ≤ ox ∧ 0 ≤ oy ∧ ox < s.w ∧ oy < s.h then some (ox.toNat, oy.toNat) else none

def put (x y : Int) (ch : Nat) (st : Style) : Surface :=
  match v.map s x y with
  | none => s
  | some (ox, oy) =>
      let cw := charWidth amb ch
      if cw = 0 then s
      -- never a full-width character in the last column
      else if cw = 2 ∧ (x + 1 ≥ v.clip.w ∨ ox + 1 ≥ s.w) then s
      else
        let s := s.cleanupOrphan ox oy
        let s := if cw = 2 then s.cleanupOrphan (ox + 1) oy else s
        let s := s.set ox oy { ch := ch, fg := st.fg, bg := st.bg, attrs := st.attrs, width := cw }
        if cw = 2 then s.set (ox + 1) oy { kContinuation with bg := st.bg } else s

/-- The characters from byte `i` on, from column `col`. Each takes a byte at least, so
that `fuel` bytes are enough. -/
def textFrom (y : Int) (utf8 : Bytes) (st : Style) : (fuel : Nat) → (i : Nat) → (col : Int) → Surface →
    Int × Surface
  | 0, _, col, s => (col, s)
  | fuel + 1, i, col, s =>
      if i < utf8.length then
        let (used, cp) := utf8Decode utf8 i
        let cw := charWidth amb cp
        if cw = 0 then textFrom y utf8 st fuel (i + used) col s
        else if col + cw > v.clip.w then (col, s)
        else textFrom y utf8 st fuel (i + used) (col + cw) (v.put amb s col y cp st)
      else (col, s)

/-- How many columns were written, and the surface. -/
def text (x y : Int) (utf8 : Bytes) (st : Style) : Int × Surface :=
  let (col, s) := v.textFrom amb y utf8 st utf8.length 0 x s
  (col - x, s)

def fill (r : Rect) (st : Style) : Surface :=
  let x0 := max 0 r.x
  let y0 := max 0 r.y
  let x1 := min v.clip.w (r.x + r.w)
  let y1 := min v.clip.h (r.y + r.h)
  forUp y0 y1 (fun s y => forUp x0 x1 (fun s x =>
    match v.map s x y with
    | none => s
    | some (ox, oy) =>
        (s.cleanupOrphan ox oy).set ox oy { fg := st.fg, bg := st.bg, attrs := st.attrs }) s) s

def box (r : Rect) (b : Border) (st : Style) : Surface :=
  if r.w ≤ 0 ∨ r.h ≤ 0 then s
  else
    let pick (uni ascii : Nat) : Nat := if b = .unicode then uni else ascii
    let hor := pick 0x2500 0x2d
    let ver := pick 0x2502 0x7c
    let put := fun s x y ch => v.put amb s x y ch st
    if r.h = 1 then forUp 0 r.w (fun s x => put s (r.x + x) r.y hor) s
    else if r.w = 1 then forUp 0 r.h (fun s y => put s r.x (r.y + y) ver) s
    else
      let s := forUp 1 (r.w - 1) (fun s x =>
        put (put s (r.x + x) r.y hor) (r.x + x) (r.y + r.h - 1) hor) s
      let s := forUp 1 (r.h - 1) (fun s y =>
        put (put s r.x (r.y + y) ver) (r.x + r.w - 1) (r.y + y) ver) s
      let s := put s r.x r.y (pick 0x250c 0x2b)
      let s := put s (r.x + r.w - 1) r.y (pick 0x2510 0x2b)
      let s := put s r.x (r.y + r.h - 1) (pick 0x2514 0x2b)
      put s (r.x + r.w - 1) (r.y + r.h - 1) (pick 0x2518 0x2b)

def sub (r : Rect) : View :=
  let x0 := v.clip.x + max 0 r.x
  let y0 := v.clip.y + max 0 r.y
  let x1 := min (v.clip.x + v.clip.w) (v.clip.x + r.x + r.w)
  let y1 := min (v.clip.y + v.clip.h) (v.clip.y + r.y + r.h)
  { clip := { x := x0, y := y0, w := max 0 (x1 - x0), h := max 0 (y1 - y0) } }

end View

def Surface.root (s : Surface) : View := { clip := { x := 0, y := 0, w := s.w, h := s.h } }

/-! ### What a write changes -/

namespace Surface

variable {s : Surface}

/-- One cell for each place. -/
def Sized (s : Surface) : Prop := s.cells.length = s.w * s.h

theorem index_lt (hs : s.Sized) {x y : Nat} (hx : x < s.w) (hy : y < s.h) :
    y * s.w + x < s.cells.length := by
  rw [hs]
  calc y * s.w + x < y * s.w + s.w := by omega
    _ = (y + 1) * s.w := (Nat.succ_mul y s.w).symm
    _ ≤ s.h * s.w := Nat.mul_le_mul_right _ hy
    _ = s.w * s.h := Nat.mul_comm _ _

theorem at_set (hs : s.Sized) {x y : Nat} (hx : x < s.w) (hy : y < s.h) (c : Cell) {x' : Nat}
    (hx' : x' < s.w) (y' : Nat) :
    (s.set x y c).at x' y' = if x' = x ∧ y' = y then c else s.at x' y' := by
  have hinj : y * s.w + x = y' * s.w + x' ↔ x' = x ∧ y' = y := by
    have h : (y : Int) * s.w + x = (y' : Int) * s.w + x' ↔ (x : Int) = x' ∧ (y : Int) = y' :=
      rowMajor_inj (by omega) (by omega) (by omega) (by omega)
    constructor
    · intro heq
      have hcast := h.1 (by exact_mod_cast heq)
      omega
    · rintro ⟨rfl, rfl⟩
      rfl
  unfold «at» set
  simp only [List.getD_eq_getElem?_getD, List.getElem?_set, index_lt hs hx hy, if_true, hinj]
  split <;> rfl

theorem set_sized (hs : s.Sized) (x y : Nat) (c : Cell) : (s.set x y c).Sized := by
  show (s.cells.set (y * s.w + x) c).length = s.w * s.h
  rw [List.length_set]
  exact hs

/-- What is written on `k` columns, and what is blanked next to them. -/
structure Overwrites (s s' : Surface) (ox oy k : Nat) (new : Nat → Cell) : Prop where
  w : s'.w = s.w
  h : s'.h = s.h
  sized : s'.Sized
  cells : ∀ x y, x < s.w → y < s.h → s'.at x y =
    if y = oy ∧ ox ≤ x ∧ x < ox + k then new (x - ox)
    else if y = oy ∧ ((x + 1 = ox ∧ (s.at x y).width = 2) ∨ (x = ox + k ∧ (s.at x y).width = 0)) then {}
    else s.at x y

theorem blanked_spec (hs : s.Sized) (c : Prop) [Decidable c] (px py : Nat)
    (hin : c → px < s.w ∧ py < s.h) :
    (if c then s.set px py {} else s).w = s.w ∧ (if c then s.set px py {} else s).h = s.h ∧
    (if c then s.set px py {} else s).Sized ∧
    ∀ x y, x < s.w → (if c then s.set px py {} else s).at x y =
      if c ∧ x = px ∧ y = py then {} else s.at x y := by
  by_cases h : c
  · simp only [h, true_and]
    exact ⟨rfl, rfl, set_sized hs px py {}, fun x y hx => at_set hs (hin h).1 (hin h).2 {} hx y⟩
  · simp only [h, false_and, if_false]
    exact ⟨trivial, trivial, hs, fun _ _ _ => trivial⟩

/-- What the cleaning leaves: the neighbours, when the write separates them. -/
theorem cleanupOrphan_spec (hs : s.Sized) {ox oy : Nat} (hx : ox < s.w) (hy : oy < s.h) :
    (s.cleanupOrphan ox oy).w = s.w ∧ (s.cleanupOrphan ox oy).h = s.h ∧
    (s.cleanupOrphan ox oy).Sized ∧
    ∀ x y, x < s.w → y < s.h → (s.cleanupOrphan ox oy).at x y =
      if y = oy ∧ ((x + 1 = ox ∧ (s.at x y).width = 2) ∨ (x = ox + 1 ∧ (s.at x y).width = 0)) then {}
      else s.at x y := by
  obtain ⟨hw, hh, hsized, hcells⟩ := blanked_spec hs (ox > 0 ∧ (s.at (ox - 1) oy).width = 2)
    (ox - 1) oy fun _ => ⟨by omega, hy⟩
  unfold cleanupOrphan
  simp only
  generalize (if ox > 0 ∧ (s.at (ox - 1) oy).width = 2 then s.set (ox - 1) oy {} else s) = s₁ at *
  obtain ⟨hw', hh', hsized', hcells'⟩ := blanked_spec hsized
    (ox + 1 < s₁.w ∧ (s₁.at (ox + 1) oy).width = 0) (ox + 1) oy fun h => ⟨h.1, by omega⟩
  refine ⟨by omega, by omega, hsized', fun x y hx' hy' => ?_⟩
  rw [hcells' x y (by omega), hcells x y hx']
  by_cases hrow : y = oy
  · subst hrow
    by_cases hright : x = ox + 1
    · subst hright
      rw [hcells (ox + 1) y hx', if_neg (show ¬ ((ox > 0 ∧ _) ∧ ox + 1 = ox - 1 ∧ y = y) by omega)]
      simp [hw, hx', show ox + 1 + 1 ≠ ox by omega]
    · by_cases hleft : x + 1 = ox
      · subst hleft
        simp [hright]
      · have hother : x ≠ ox - 1 ∨ ox = 0 := by omega
        simp only [hright, hleft, false_and, and_false, or_self, if_false]
        rw [if_neg]
        rintro ⟨⟨hpos, -⟩, hx, -⟩
        omega
  · simp [hrow]

/-- A write on one column. -/
theorem overwrites_one (hs : s.Sized) {ox oy : Nat} (hx : ox < s.w) (hy : oy < s.h) (c : Cell) :
    Overwrites s ((s.cleanupOrphan ox oy).set ox oy c) ox oy 1 fun _ => c := by
  obtain ⟨hw, hh, hsized, hcells⟩ := cleanupOrphan_spec hs hx hy
  refine ⟨hw, hh, set_sized hsized _ _ _, fun x y hx' hy' => ?_⟩
  rw [at_set hsized (by omega) (by omega) c (by omega), hcells x y hx' hy']
  have hhere : x = ox ∧ y = oy ↔ y = oy ∧ ox ≤ x ∧ x < ox + 1 := by omega
  simp only [hhere]

/-- A write on two columns. -/
theorem overwrites_two (hs : s.Sized) {ox oy : Nat} (hx : ox + 1 < s.w) (hy : oy < s.h) (c c' : Cell) :
    Overwrites s ((((s.cleanupOrphan ox oy).cleanupOrphan (ox + 1) oy).set ox oy c).set (ox + 1) oy c')
      ox oy 2 fun i => if i = 0 then c else c' := by
  obtain ⟨hw, hh, hsized, hcells⟩ := cleanupOrphan_spec hs (show ox < s.w by omega) hy
  generalize s.cleanupOrphan ox oy = s₁ at *
  obtain ⟨hw', hh', hsized', hcells'⟩ :=
    cleanupOrphan_spec hsized (show ox + 1 < s₁.w by omega) (show oy < s₁.h by omega)
  generalize s₁.cleanupOrphan (ox + 1) oy = s₂ at *
  have hfirst := set_sized hsized' ox oy c
  refine ⟨hw'.trans hw, hh'.trans hh, set_sized hfirst _ _ _, fun x y hx' hy' => ?_⟩
  rw [at_set hfirst (show ox + 1 < s₂.w by omega) (show oy < s₂.h by omega) c' (show x < s₂.w by omega),
    at_set hsized' (by omega) (by omega) c (by omega), hcells' x y (by omega) (by omega)]
  by_cases hrow : y = oy
  · subst hrow
    by_cases hone : x = ox
    · subst hone
      simp
    by_cases htwo : x = ox + 1
    · subst htwo
      simp
    · have hout : ¬ (ox ≤ x ∧ x < ox + 2) := by omega
      rw [hcells x y hx' hy']
      simp only [hone, htwo, hout, false_and, and_false, or_false, if_false, true_and,
        Nat.add_right_cancel_iff, false_or]
      by_cases hright : x = ox + 2
      · subst hright
        simp [show ox + 2 + 1 ≠ ox by omega]
      · simp [hright]
  · rw [hcells x y hx' hy']
    simp [hrow]

/-- One character of its own width. -/
def Fits (amb : Bool) (k : Nat) (new : Nat → Cell) : Prop :=
  (k = 1 ∧ (new 0).width = 1 ∧ charWidth amb (new 0).ch = 1) ∨
  (k = 2 ∧ (new 0).width = 2 ∧ charWidth amb (new 0).ch = 2 ∧ (new 1).width = 0)

/-- **A write keeps the pairs whole.** -/
theorem Painted.overwrite {amb : Bool} {s' : Surface} {ox oy k : Nat} {new : Nat → Cell}
    (h : s.Painted amb) (ho : Overwrites s s' ox oy k new) (hfits : Fits amb k new)
    (hroom : ox + k ≤ s.w) : s'.Painted amb := by
  have hspace := charWidth_space amb
  have hblank : ({} : Cell).width = 1 ∧ ({} : Cell).ch = 0x20 := ⟨rfl, rfl⟩
  generalize ({} : Cell) = blank at *
  obtain ⟨hw, hh, -, hcells⟩ := ho
  constructor
  · intro x y hx hy
    rw [hw] at hx
    rw [hh] at hy
    have hold := h.width x y hx hy
    rw [hcells x y hx hy]
    obtain ⟨rfl, hw1, hc1⟩ | ⟨rfl, hw2, hc2, hw0⟩ := hfits
    all_goals grind
  · intro x y hx hy hwide
    rw [hw] at hx ⊢
    rw [hh] at hy
    have hhead := h.head x y hx hy
    have hnext : x + 1 < s.w → (s.at (x + 1) y).width = 0 → (s.at x y).width = 2 :=
      fun hlt hzero => (h.continuation (x + 1) y hlt hy hzero).2
    have hright := fun hlt : x + 1 < s.w => hcells (x + 1) y hlt hy
    rw [hcells x y hx hy] at hwide
    obtain ⟨rfl, hw1, hc1⟩ | ⟨rfl, hw2, hc2, hw0⟩ := hfits
    all_goals grind
  · intro x y hx hy hzero
    rw [hw] at hx
    rw [hh] at hy
    have hcont := h.continuation x y hx hy
    have hhead := fun hlt : x - 1 < s.w => h.head (x - 1) y hlt hy
    have hleft := hcells (x - 1) y (by omega) hy
    rw [hcells x y hx hy] at hzero
    obtain ⟨rfl, hw1, hc1⟩ | ⟨rfl, hw2, hc2, hw0⟩ := hfits
    all_goals grind

/-- A surface of its size, with no half of a character alone. -/
structure Whole (amb : Bool) (s : Surface) : Prop where
  sized : s.Sized
  painted : s.Painted amb

theorem Whole.ofSize (amb : Bool) (w h : Int) : Whole amb (ofSize w h) :=
  ⟨List.length_replicate, Painted.create amb _ _⟩

theorem Whole.clear {amb : Bool} (h : Whole amb s) (st : Style) : Whole amb (s.clear st) := by
  have hcell : ∀ x y, x < s.w → y < s.h →
      (s.clear st).at x y = { fg := st.fg, bg := st.bg, attrs := st.attrs } := by
    intro x y hx hy
    have hlt := index_lt h.sized hx hy
    unfold «at» Surface.clear
    simp only [List.getD_eq_getElem?_getD, List.getElem?_map, List.getElem?_eq_getElem hlt]
    rfl
  refine ⟨(List.length_map ..).trans h.sized, ?_⟩
  constructor <;> intro x y hx hy hwidth <;> rw [hcell x y hx hy] at hwidth
  · rw [hcell x y hx hy]
    exact (charWidth_space amb).symm
  · cases hwidth
  · cases hwidth

end Surface

namespace View

open Surface (Whole Overwrites Fits)

variable {amb : Bool} {s : Surface} (v : View)

theorem map_spec {x y : Int} {ox oy : Nat} (h : v.map s x y = some (ox, oy)) :
    ox < s.w ∧ oy < s.h := by
  unfold map at h
  split at h
  · cases h
  simp only at h
  split at h
  · rename_i hin
    cases h
    omega
  · cases h

/-- A cell of one column keeps the surface whole. -/
theorem whole_set (h : Whole amb s) {ox oy : Nat} (hx : ox < s.w) (hy : oy < s.h) {c : Cell}
    (hwidth : c.width = 1) (hch : charWidth amb c.ch = 1) :
    Whole amb ((s.cleanupOrphan ox oy).set ox oy c) := by
  have ho := Surface.overwrites_one h.sized hx hy c
  exact ⟨ho.sized, h.painted.overwrite ho (.inl ⟨rfl, hwidth, hch⟩) hx⟩

theorem whole_put (h : Whole amb s) (x y : Int) (ch : Nat) (st : Style) :
    Whole amb (v.put amb s x y ch st) := by
  unfold put
  cases hmap : v.map s x y with
  | none => exact h
  | some place =>
      obtain ⟨ox, oy⟩ := place
      obtain ⟨hx, hy⟩ := v.map_spec hmap
      have hle := charWidth_le amb ch
      simp only
      by_cases hzero : charWidth amb ch = 0
      · rw [if_pos hzero]
        exact h
      rw [if_neg hzero]
      by_cases hedge : charWidth amb ch = 2 ∧ (x + 1 ≥ v.clip.w ∨ ox + 1 ≥ s.w)
      · rw [if_pos hedge]
        exact h
      rw [if_neg hedge]
      by_cases hwide : charWidth amb ch = 2
      · simp only [if_pos hwide]
        have hroom : ox + 1 < s.w := by
          by_contra hno
          exact hedge ⟨hwide, .inr (by omega)⟩
        have ho := Surface.overwrites_two h.sized hroom hy
          { ch := ch, fg := st.fg, bg := st.bg, attrs := st.attrs, width := charWidth amb ch }
          { kContinuation with bg := st.bg }
        exact ⟨ho.sized, h.painted.overwrite ho (.inr ⟨rfl, hwide, hwide, rfl⟩) hroom⟩
      · simp only [if_neg hwide]
        have hone : charWidth amb ch = 1 := by omega
        exact whole_set h hx hy hone hone

theorem whole_textFrom (y : Int) (utf8 : Bytes) (st : Style) (fuel : Nat) :
    ∀ (i : Nat) (col : Int) {s : Surface}, Whole amb s →
      Whole amb (v.textFrom amb y utf8 st fuel i col s).2 := by
  induction fuel with
  | zero => exact fun _ _ _ h => h
  | succ fuel ih =>
      intro i col s h
      unfold textFrom
      by_cases hmore : i < utf8.length
      · rw [if_pos hmore]
        simp only
        split
        · exact ih _ _ h
        split
        · exact h
        · exact ih _ _ (v.whole_put h _ _ _ _)
      · rw [if_neg hmore]
        exact h

/-- More fuel than there are bytes left changes nothing. -/
theorem textFrom_fuel (y : Int) (utf8 : Bytes) (st : Style) (fuel : Nat) :
    ∀ (i : Nat) (col : Int) (s : Surface), utf8.length - i ≤ fuel →
      v.textFrom amb y utf8 st (fuel + 1) i col s = v.textFrom amb y utf8 st fuel i col s := by
  induction fuel with
  | zero =>
      intro i col s hle
      have hend : ¬ i < utf8.length := by omega
      simp only [textFrom, hend, if_false]
  | succ fuel ih =>
      intro i col s hle
      unfold textFrom
      have hpos := utf8Decode_pos utf8 i
      by_cases hmore : i < utf8.length
      · have hleft : utf8.length - (i + (utf8Decode utf8 i).1) ≤ fuel := by omega
        simp only [hmore, if_true, ih _ _ _ hleft]
      · simp only [hmore, if_false]

theorem whole_forUp {lo hi : Int} {f : Surface → Int → Surface} (h : Whole amb s)
    (hf : ∀ s i, Whole amb s → Whole amb (f s i)) : Whole amb (forUp lo hi f s) := by
  unfold forUp
  exact run_preserves (fun s (k : Nat) hs => hf s (lo + k) hs) h _

theorem whole_fill (h : Whole amb s) (r : Rect) (st : Style) : Whole amb (v.fill s r st) := by
  unfold fill
  refine whole_forUp h fun s y hs => whole_forUp hs fun s x hs => ?_
  cases hmap : v.map s x y with
  | none => exact hs
  | some place =>
      obtain ⟨hx, hy⟩ := v.map_spec hmap
      exact whole_set hs hx hy rfl (charWidth_space amb)

theorem whole_box (h : Whole amb s) (r : Rect) (b : Border) (st : Style) :
    Whole amb (v.box amb s r b st) := by
  have hput : ∀ {s : Surface}, Whole amb s → ∀ x y ch, Whole amb (v.put amb s x y ch st) :=
    fun hs x y ch => v.whole_put hs x y ch st
  unfold box
  split
  · exact h
  simp only
  split
  · exact whole_forUp h fun s x hs => hput hs _ _ _
  split
  · exact whole_forUp h fun s y hs => hput hs _ _ _
  · refine hput (hput (hput (hput (whole_forUp (whole_forUp h fun s x hs => ?_) fun s y hs => ?_)
      _ _ _) _ _ _) _ _ _) _ _ _
    · exact hput (hput hs _ _ _) _ _ _
    · exact hput (hput hs _ _ _) _ _ _

end View

/-! ### Runs -/

/-- A surface and the views that were made of it. -/
structure Painter where
  surface : Surface
  views : List View

namespace Painter

/-- What an application and the desktop do, through any of the views. -/
inductive Op
  /-- A view is made, of the surface or of another view. -/
  | view (clip : Rect)
  | sub (n : Nat) (r : Rect)
  | put (n : Nat) (x y : Int) (ch : Nat) (st : Style)
  | text (n : Nat) (x y : Int) (utf8 : Bytes) (st : Style)
  | fill (n : Nat) (r : Rect) (st : Style)
  | box (n : Nat) (r : Rect) (b : Border) (st : Style)
  | clear (st : Style)
  | resize (w h : Int)

def start (w h : Int) : Painter :=
  { surface := Surface.ofSize w h, views := [(Surface.ofSize w h).root] }

/-- Paint through view `n`, if there is one. -/
def through (p : Painter) (n : Nat) (f : View → Surface) : Painter :=
  match p.views[n]? with
  | none => p
  | some v => { p with surface := f v }

def step (amb : Bool) (p : Painter) : Op → Painter
  | .view clip => { p with views := p.views ++ [{ clip := clip }] }
  | .sub n r =>
      match p.views[n]? with
      | none => p
      | some v => { p with views := p.views ++ [v.sub r] }
  | .put n x y ch st => p.through n fun v => v.put amb p.surface x y ch st
  | .text n x y utf8 st => p.through n fun v => (v.text amb p.surface x y utf8 st).2
  | .fill n r st => p.through n fun v => v.fill p.surface r st
  | .box n r b st => p.through n fun v => v.box amb p.surface r b st
  | .clear st => { p with surface := p.surface.clear st }
  | .resize w h => { p with surface := Surface.ofSize w h }

open Surface (Whole)

theorem whole_through {amb : Bool} {p : Painter} (h : Whole amb p.surface) (n : Nat)
    {f : View → Surface} (hf : ∀ v, Whole amb (f v)) : Whole amb (p.through n f).surface := by
  unfold through
  split
  · exact h
  · exact hf _

/-- **One operation** leaves no half of a character alone. -/
theorem whole_step {amb : Bool} {p : Painter} (h : Whole amb p.surface) (op : Op) :
    Whole amb (p.step amb op).surface := by
  cases op with
  | view clip => exact h
  | sub n r =>
      simp only [step]
      split <;> exact h
  | put n x y ch st => exact whole_through h n fun v => v.whole_put h x y ch st
  | text n x y utf8 st =>
      exact whole_through h n fun v => v.whole_textFrom y utf8 st utf8.length 0 x h
  | fill n r st => exact whole_through h n fun v => v.whole_fill h r st
  | box n r b st => exact whole_through h n fun v => v.whole_box h r b st
  | clear st => exact h.clear st
  | resize w h => exact Whole.ofSize amb w h

/-- **Every painted surface is well formed**, whatever is painted through whichever views:
a full-width character is followed by its continuation inside the row, a continuation
stands nowhere else, and every other cell has the width of its character. -/
theorem run_painted (amb : Bool) (w h : Int) (ops : List Op) :
    (run (step amb) (start w h) ops).surface.Painted amb := by
  have hstep : ∀ (p : Painter) (op : Op), Whole amb p.surface → Whole amb (p.step amb op).surface :=
    fun p op hp => whole_step hp op
  have hstart : Whole amb (start w h).surface := Whole.ofSize amb w h
  exact (run_preserves hstep hstart ops).painted

end Painter

end Sshos.Render
