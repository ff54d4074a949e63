import Sshos.Render.View

/-!
# Sshos.Render.Confine

What a drawing **can reach**. It writes the cells of its ink, which are in the clip of its
view; elsewhere it changes nothing, with one licence: it may blank the half of a full-width
character whose other half it has written over. The views of views only shrink.
-/

namespace Sshos.Render

open Sshos.Common (utf8Decode)
open Sshos.Lib (Bytes upTo mem_upTo)

/-- Every place of the one is a place of the other. -/
def Rect.Within (r q : Rect) : Prop :=
  q.x ≤ r.x ∧ q.y ≤ r.y ∧ r.x + r.w ≤ q.x + q.w ∧ r.y + r.h ≤ q.y + q.h

theorem Rect.Within.contains {r q : Rect} (h : r.Within q) {x y : Int} (hin : r.contains x y) :
    q.contains x y := by
  simp only [Rect.Within, Rect.contains, Bool.and_eq_true, decide_eq_true_eq] at *
  omega

theorem Rect.Within.trans {p q r : Rect} (hpq : p.Within q) (hqr : q.Within r) : p.Within r := by
  simp only [Rect.Within] at *
  omega

/-- What is drawn through a view. -/
inductive Drawing
  | put (x y : Int) (ch : Nat) (st : Style)
  | text (x y : Int) (utf8 : Bytes) (st : Style)
  | fill (r : Rect) (st : Style)
  | box (r : Rect) (b : Border) (st : Style)

def View.draw (amb : Bool) (v : View) (s : Surface) : Drawing → Surface
  | .put x y ch st => v.put amb s x y ch st
  | .text x y utf8 st => (v.text amb s x y utf8 st).2
  | .fill r st => v.fill s r st
  | .box r b st => v.box amb s r b st

namespace Surface

variable {s s' : Surface}

/-- No half of a full-width character stands alone. -/
structure Paired (s : Surface) : Prop where
  sized : s.Sized
  head : ∀ x y, x < s.w → y < s.h → (s.at x y).width = 2 → x + 1 < s.w ∧ (s.at (x + 1) y).width = 0
  continuation : ∀ x y, x < s.w → y < s.h → (s.at x y).width = 0 →
    0 < x ∧ (s.at (x - 1) y).width = 2

theorem Whole.paired {amb : Bool} (h : Whole amb s) : s.Paired :=
  ⟨h.sized, h.painted.head, h.painted.continuation⟩

/-- The cell is one half of a full-width character, and the other half is in the region. -/
def Straddles (s : Surface) (region : Nat → Nat → Prop) (x y : Nat) : Prop :=
  ((s.at x y).width = 2 ∧ (s.at (x + 1) y).width = 0 ∧ region (x + 1) y) ∨
  ((s.at x y).width = 0 ∧ 0 < x ∧ (s.at (x - 1) y).width = 2 ∧ region (x - 1) y)

/-- What may differ from `s` in `s'` when only the region was to be painted. -/
structure Confined (region : Nat → Nat → Prop) (s s' : Surface) : Prop where
  w : s'.w = s.w
  h : s'.h = s.h
  sized : s'.Sized
  cells : ∀ x y, x < s.w → y < s.h → ¬ region x y →
    s'.at x y = s.at x y ∨ (s'.at x y = {} ∧ s.Straddles region x y)

theorem Confined.refl (hs : s.Sized) (region : Nat → Nat → Prop) : Confined region s s :=
  ⟨rfl, rfl, hs, fun _ _ _ _ _ => .inl rfl⟩

/-- **A write inside the region.** The neighbours it blanks are as they were at the start,
since a cell blanked before is one column wide, so that the other half was inside then. -/
theorem Confined.overwrite {region : Nat → Nat → Prop} {s₁ s₂ : Surface} {ox oy k : Nat}
    {new : Nat → Cell} (hs : s.Paired) (h : Confined region s s₁) (ho : Overwrites s₁ s₂ ox oy k new)
    (hin : ∀ i, i < k → region (ox + i) oy) (hk : 0 < k) : Confined region s s₂ := by
  refine ⟨ho.w.trans h.w, ho.h.trans h.h, ho.sized, fun x y hx hy hout => ?_⟩
  have hw := h.w
  have hh := h.h
  rw [ho.cells x y (by omega) (by omega)]
  -- the columns written are inside
  have hnot : ¬ (y = oy ∧ ox ≤ x ∧ x < ox + k) := by
    rintro ⟨rfl, hle, hlt⟩
    have hcol := hin (x - ox) (by omega)
    rw [Nat.add_sub_cancel' hle] at hcol
    exact hout hcol
  rw [if_neg hnot]
  by_cases hblank : y = oy ∧ ((x + 1 = ox ∧ (s₁.at x y).width = 2) ∨
      (x = ox + k ∧ (s₁.at x y).width = 0))
  · rw [if_pos hblank]
    right
    refine ⟨rfl, ?_⟩
    obtain ⟨rfl, hside⟩ := hblank
    rcases h.cells x y hx hy hout with hsame | ⟨hone, -⟩
    · rw [hsame] at hside
      rcases hside with ⟨rfl, hwide⟩ | ⟨rfl, hzero⟩
      · left
        exact ⟨hwide, (hs.head x y hx hy hwide).2, hin 0 hk⟩
      · right
        obtain ⟨hpos, hhead⟩ := hs.continuation _ y hx hy hzero
        have hlast := hin (k - 1) (by omega)
        rw [show ox + (k - 1) = ox + k - 1 by omega] at hlast
        exact ⟨hzero, hpos, hhead, hlast⟩
    · rw [hone] at hside
      rcases hside with ⟨-, hwide⟩ | ⟨-, hzero⟩
      · cases hwide
      · cases hzero
  · rw [if_neg hblank]
    exact h.cells x y hx hy hout

/-- Off the region nothing changes, if it has nothing on its sides. -/
theorem Confined.same {region : Nat → Nat → Prop} {s' : Surface} {x y : Nat}
    (h : Confined region s s') (hx : x < s.w) (hy : y < s.h) (hout : ¬ region x y)
    (hsides : ¬ s.Straddles region x y) : s'.at x y = s.at x y :=
  (h.cells x y hx hy hout).resolve_right fun hblank => hsides hblank.2

end Surface

/-! ### Ink -/

/-- The cells a drawing writes, on a surface of `w` columns and `h` rows. -/
abbrev Ink := List (Nat × Nat)

namespace View

variable (amb : Bool) (v : View) (w h : Nat)

/-- The place on a surface of this size. -/
def mapIn (x y : Int) : Option (Nat × Nat) :=
  if x < 0 ∨ y < 0 ∨ x ≥ v.clip.w ∨ y ≥ v.clip.h then none
  else
    let ox := v.clip.x + x
    let oy := v.clip.y + y
    if 0 ≤ ox ∧ 0 ≤ oy ∧ ox < w ∧ oy < h then some (ox.toNat, oy.toNat) else none

theorem map_eq_mapIn (s : Surface) (x y : Int) : v.map s x y = v.mapIn s.w s.h x y := rfl

def putInk (x y : Int) (ch : Nat) : Ink :=
  match v.mapIn w h x y with
  | none => []
  | some (ox, oy) =>
      let cw := charWidth amb ch
      if cw = 0 then []
      else if cw = 2 ∧ (x + 1 ≥ v.clip.w ∨ ox + 1 ≥ w) then []
      else if cw = 2 then [(ox, oy), (ox + 1, oy)]
      else [(ox, oy)]

def textInk (y : Int) (utf8 : Bytes) : (fuel : Nat) → (i : Nat) → (col : Int) → Ink
  | 0, _, _ => []
  | fuel + 1, i, col =>
      if i < utf8.length then
        let (used, cp) := utf8Decode utf8 i
        let cw := charWidth amb cp
        if cw = 0 then textInk y utf8 fuel (i + used) col
        else if col + cw > v.clip.w then []
        else v.putInk amb w h col y cp ++ textInk y utf8 fuel (i + used) (col + cw)
      else []

def fillInk (r : Rect) : Ink :=
  (upTo (max 0 r.y) (min v.clip.h (r.y + r.h))).flatMap fun y =>
    (upTo (max 0 r.x) (min v.clip.w (r.x + r.w))).flatMap fun x => (v.mapIn w h x y).toList

/-- The places of a frame, each with its character. -/
def boxPuts (r : Rect) (b : Border) : List (Int × Int × Nat) :=
  if r.w ≤ 0 ∨ r.h ≤ 0 then []
  else
    let pick (uni ascii : Nat) : Nat := if b = .unicode then uni else ascii
    let hor := pick 0x2500 0x2d
    let ver := pick 0x2502 0x7c
    if r.h = 1 then (upTo 0 r.w).map fun x => (r.x + x, r.y, hor)
    else if r.w = 1 then (upTo 0 r.h).map fun y => (r.x, r.y + y, ver)
    else
      (upTo 1 (r.w - 1)).flatMap (fun x => [(r.x + x, r.y, hor), (r.x + x, r.y + r.h - 1, hor)]) ++
      (upTo 1 (r.h - 1)).flatMap (fun y => [(r.x, r.y + y, ver), (r.x + r.w - 1, r.y + y, ver)]) ++
      [(r.x, r.y, pick 0x250c 0x2b), (r.x + r.w - 1, r.y, pick 0x2510 0x2b),
        (r.x, r.y + r.h - 1, pick 0x2514 0x2b), (r.x + r.w - 1, r.y + r.h - 1, pick 0x2518 0x2b)]

def boxInk (r : Rect) (b : Border) : Ink :=
  (boxPuts r b).flatMap fun (x, y, ch) => v.putInk amb w h x y ch

def ink : Drawing → Ink
  | .put x y ch _ => v.putInk amb w h x y ch
  | .text x y utf8 _ => v.textInk amb w h y utf8 utf8.length 0 x
  | .fill r _ => v.fillInk w h r
  | .box r b _ => v.boxInk amb w h r b

end View

namespace View

open Surface (Paired Confined Overwrites)

variable {amb : Bool} {v : View} {s s₁ : Surface} {region : Nat → Nat → Prop}

theorem confined_set (hs : s.Paired) (h : Confined region s s₁) {ox oy : Nat} (hx : ox < s₁.w)
    (hy : oy < s₁.h) (hin : region ox oy) (c : Cell) :
    Confined region s ((s₁.cleanupOrphan ox oy).set ox oy c) := by
  refine h.overwrite hs (Surface.overwrites_one h.sized hx hy c) (fun i hi => ?_) Nat.one_pos
  obtain rfl : i = 0 := by omega
  exact hin

theorem confined_put (hs : s.Paired) (h : Confined region s s₁) {x y : Int} {ch : Nat} (st : Style)
    (hin : ∀ p ∈ v.putInk amb s.w s.h x y ch, region p.1 p.2) :
    Confined region s (v.put amb s₁ x y ch st) := by
  unfold putInk at hin
  unfold put
  rw [map_eq_mapIn, h.w, h.h]
  cases hmap : v.mapIn s.w s.h x y with
  | none => exact h
  | some place =>
      obtain ⟨ox, oy⟩ := place
      have hplace : v.map s₁ x y = some (ox, oy) := by rw [map_eq_mapIn, h.w, h.h, hmap]
      obtain ⟨hx, hy⟩ := v.map_spec hplace
      simp only [hmap] at hin ⊢
      by_cases hzero : charWidth amb ch = 0
      · rw [if_pos hzero]
        exact h
      rw [if_neg hzero] at hin ⊢
      by_cases hedge : charWidth amb ch = 2 ∧ (x + 1 ≥ v.clip.w ∨ ox + 1 ≥ s.w)
      · rw [if_pos hedge]
        exact h
      rw [if_neg hedge] at hin ⊢
      by_cases hwide : charWidth amb ch = 2
      · simp only [if_pos hwide] at hin ⊢
        have hroom : ox + 1 < s₁.w := by
          rw [h.w]
          by_contra hno
          exact hedge ⟨hwide, .inr (by omega)⟩
        refine h.overwrite hs (Surface.overwrites_two h.sized hroom hy _ _) (fun i hi => ?_)
          Nat.two_pos
        obtain rfl | rfl : i = 0 ∨ i = 1 := by omega
        · exact hin (ox, oy) (by simp)
        · exact hin (ox + 1, oy) (by simp)
      · simp only [if_neg hwide] at hin ⊢
        exact confined_set hs h hx hy (hin (ox, oy) (by simp)) _

theorem confined_textFrom (hs : s.Paired) {y : Int} {utf8 : Bytes} (st : Style) (fuel : Nat) :
    ∀ (i : Nat) (col : Int) {s₁ : Surface}, Confined region s s₁ →
      (∀ p ∈ v.textInk amb s.w s.h y utf8 fuel i col, region p.1 p.2) →
      Confined region s (v.textFrom amb y utf8 st fuel i col s₁).2 := by
  induction fuel with
  | zero => exact fun _ _ _ h _ => h
  | succ fuel ih =>
      intro i col s₁ h hin
      unfold textInk at hin
      unfold textFrom
      by_cases hmore : i < utf8.length
      · rw [if_pos hmore] at hin ⊢
        simp only at hin ⊢
        split at hin
        · rename_i hzero
          rw [if_pos hzero]
          exact ih _ _ h hin
        · rename_i hzero
          rw [if_neg hzero]
          split at hin
          · rename_i hend
            rw [if_pos hend]
            exact h
          · rename_i hend
            rw [if_neg hend]
            refine ih _ _ (confined_put hs h st fun p hp => ?_) fun p hp => ?_
            · exact hin p (List.mem_append_left _ hp)
            · exact hin p (List.mem_append_right _ hp)
      · rw [if_neg hmore]
        exact h

theorem confined_fill (hs : s.Paired) (h : Confined region s s₁) {r : Rect} (st : Style)
    (hin : ∀ p ∈ v.fillInk s.w s.h r, region p.1 p.2) :
    Confined region s (v.fill s₁ r st) := by
  unfold fill
  refine Sshos.Lib.forUp_invariant (P := Confined region s) h fun y s₁ hy hy' h => ?_
  refine Sshos.Lib.forUp_invariant (P := Confined region s) h fun x s₁ hx hx' h => ?_
  cases hmap : v.map s₁ x y with
  | none => exact h
  | some place =>
      obtain ⟨ox, oy⟩ := place
      obtain ⟨hox, hoy⟩ := v.map_spec hmap
      refine confined_set hs h hox hoy (hin (ox, oy) ?_) _
      rw [map_eq_mapIn, h.w, h.h] at hmap
      refine List.mem_flatMap.2 ⟨y, mem_upTo.2 ⟨hy, hy'⟩, ?_⟩
      refine List.mem_flatMap.2 ⟨x, mem_upTo.2 ⟨hx, hx'⟩, ?_⟩
      rw [hmap]
      exact List.mem_singleton_self _

theorem confined_box (hs : s.Paired) (h : Confined region s s₁) {r : Rect} {b : Border}
    (st : Style) (hin : ∀ p ∈ v.boxInk amb s.w s.h r b, region p.1 p.2) :
    Confined region s (v.box amb s₁ r b st) := by
  have hput : ∀ {s₁ : Surface}, Confined region s s₁ → ∀ x y ch, (x, y, ch) ∈ boxPuts r b →
      Confined region s (v.put amb s₁ x y ch st) :=
    fun h x y ch hmem => confined_put hs h st fun p hp =>
      hin p (List.mem_flatMap.2 ⟨(x, y, ch), hmem, hp⟩)
  unfold boxPuts at hput
  unfold box
  split
  · exact h
  next hsome =>
  rw [if_neg hsome] at hput
  simp only at hput ⊢
  split
  next hone =>
    rw [if_pos hone] at hput
    refine Sshos.Lib.forUp_invariant (P := Confined region s) h fun x s₁ hx hx' h => ?_
    exact hput h _ _ _ (List.mem_map.2 ⟨x, mem_upTo.2 ⟨hx, hx'⟩, rfl⟩)
  next hone =>
  rw [if_neg hone] at hput
  split
  next hone' =>
    rw [if_pos hone'] at hput
    refine Sshos.Lib.forUp_invariant (P := Confined region s) h fun y s₁ hy hy' h => ?_
    exact hput h _ _ _ (List.mem_map.2 ⟨y, mem_upTo.2 ⟨hy, hy'⟩, rfl⟩)
  next hone' =>
  rw [if_neg hone'] at hput
  simp only [List.mem_append, List.mem_flatMap, mem_upTo, List.mem_cons, List.not_mem_nil, or_false,
    Prod.mk.injEq] at hput
  refine hput (hput (hput (hput (Sshos.Lib.forUp_invariant (P := Confined region s)
    (Sshos.Lib.forUp_invariant (P := Confined region s) h fun x s₁ hx hx' h => ?_)
    fun y s₁ hy hy' h => ?_) _ _ _ ?_) _ _ _ ?_) _ _ _ ?_) _ _ _ ?_
  · exact hput (hput h _ _ _ (.inl (.inl ⟨x, ⟨hx, hx'⟩, .inl ⟨rfl, rfl, rfl⟩⟩))) _ _ _
      (.inl (.inl ⟨x, ⟨hx, hx'⟩, .inr ⟨rfl, rfl, rfl⟩⟩))
  · exact hput (hput h _ _ _ (.inl (.inr ⟨y, ⟨hy, hy'⟩, .inl ⟨rfl, rfl, rfl⟩⟩))) _ _ _
      (.inl (.inr ⟨y, ⟨hy, hy'⟩, .inr ⟨rfl, rfl, rfl⟩⟩))
  · exact .inr (.inl ⟨rfl, rfl, rfl⟩)
  · exact .inr (.inr (.inl ⟨rfl, rfl, rfl⟩))
  · exact .inr (.inr (.inr (.inl ⟨rfl, rfl, rfl⟩)))
  · exact .inr (.inr (.inr (.inr ⟨rfl, rfl, rfl⟩)))

/-- **One drawing** changes the cells of its ink. -/
theorem confined_draw (hs : s.Paired) (h : Confined region s s₁) {d : Drawing}
    (hin : ∀ p ∈ v.ink amb s.w s.h d, region p.1 p.2) :
    Confined region s (v.draw amb s₁ d) := by
  cases d with
  | put x y ch st => exact confined_put hs h st hin
  | text x y utf8 st => exact confined_textFrom hs st utf8.length 0 x h hin
  | fill r st => exact confined_fill hs h st hin
  | box r b st => exact confined_box hs h st hin

/-! ### The clip -/

variable {w h : Nat}

/-- A place a view gives is in its clip, and stands where it was asked. -/
theorem mapIn_inside {x y : Int} {ox oy : Nat} (hmap : v.mapIn w h x y = some (ox, oy)) :
    (ox : Int) = v.clip.x + x ∧ (oy : Int) = v.clip.y + y ∧ 0 ≤ x ∧ 0 ≤ y ∧
    x < v.clip.w ∧ y < v.clip.h := by
  unfold mapIn at hmap
  split at hmap
  · cases hmap
  simp only at hmap
  split at hmap
  · rename_i hin
    cases hmap
    omega
  · cases hmap

theorem contains_of_mapIn {x y : Int} {ox oy : Nat} (hmap : v.mapIn w h x y = some (ox, oy)) (i : Nat)
    (hi : x + i < v.clip.w) : v.clip.contains (ox + i : Nat) oy := by
  obtain ⟨hox, hoy, hx, hy, hw, hh⟩ := mapIn_inside hmap
  simp only [Rect.contains, Bool.and_eq_true, decide_eq_true_eq]
  omega

theorem contains_of_putInk {x y : Int} {ch : Nat} {p : Nat × Nat}
    (hp : p ∈ v.putInk amb w h x y ch) : v.clip.contains p.1 p.2 := by
  unfold putInk at hp
  cases hmap : v.mapIn w h x y with
  | none =>
      rw [hmap] at hp
      cases hp
  | some place =>
      obtain ⟨ox, oy⟩ := place
      obtain ⟨-, -, -, -, hlt, -⟩ := mapIn_inside hmap
      simp only [hmap] at hp
      split at hp
      · cases hp
      split at hp
      · cases hp
      next hedge =>
      split at hp
      next hwide =>
        have hroom : x + 1 < v.clip.w := by
          by_contra hno
          exact hedge ⟨hwide, .inl (by omega)⟩
        simp only [List.mem_cons, List.not_mem_nil, or_false] at hp
        rcases hp with rfl | rfl
        · exact contains_of_mapIn hmap 0 (by omega)
        · exact contains_of_mapIn hmap 1 (by omega)
      next =>
        rw [List.mem_singleton.1 hp]
        exact contains_of_mapIn hmap 0 (by omega)

theorem contains_of_textInk {y : Int} {utf8 : Bytes} {fuel : Nat} {p : Nat × Nat} :
    ∀ {i : Nat} {col : Int}, p ∈ v.textInk amb w h y utf8 fuel i col → v.clip.contains p.1 p.2 := by
  induction fuel with
  | zero => exact fun hp => absurd hp List.not_mem_nil
  | succ fuel ih =>
      intro i col hp
      unfold textInk at hp
      split at hp
      · simp only at hp
        split at hp
        · exact ih hp
        split at hp
        · cases hp
        · exact (List.mem_append.1 hp).elim contains_of_putInk ih
      · cases hp

/-- A character stays on its row, and so does a text. -/
theorem row_of_putInk {x y : Int} {ch : Nat} {p : Nat × Nat} (hp : p ∈ v.putInk amb w h x y ch) :
    (p.2 : Int) = v.clip.y + y := by
  unfold putInk at hp
  cases hmap : v.mapIn w h x y with
  | none =>
      rw [hmap] at hp
      cases hp
  | some place =>
      obtain ⟨ox, oy⟩ := place
      have hoy := (mapIn_inside hmap).2.1
      simp only [hmap] at hp
      split at hp
      · cases hp
      split at hp
      · cases hp
      split at hp
      · simp only [List.mem_cons, List.not_mem_nil, or_false] at hp
        rcases hp with rfl | rfl
        · exact hoy
        · exact hoy
      · rw [List.mem_singleton.1 hp]
        exact hoy

theorem row_of_textInk {y : Int} {utf8 : Bytes} {fuel : Nat} {p : Nat × Nat} :
    ∀ {i : Nat} {col : Int}, p ∈ v.textInk amb w h y utf8 fuel i col → (p.2 : Int) = v.clip.y + y := by
  induction fuel with
  | zero => exact fun hp => absurd hp List.not_mem_nil
  | succ fuel ih =>
      intro i col hp
      unfold textInk at hp
      split at hp
      · simp only at hp
        split at hp
        · exact ih hp
        split at hp
        · cases hp
        · exact (List.mem_append.1 hp).elim row_of_putInk ih
      · cases hp

/-- **The ink is in the clip.** -/
theorem contains_of_ink {d : Drawing} {p : Nat × Nat} (hp : p ∈ v.ink amb w h d) :
    v.clip.contains p.1 p.2 := by
  cases d with
  | put x y ch st => exact contains_of_putInk hp
  | text x y utf8 st => exact contains_of_textInk hp
  | fill r st =>
      obtain ⟨y, hy, hp⟩ := List.mem_flatMap.1 hp
      obtain ⟨x, hx, hp⟩ := List.mem_flatMap.1 hp
      obtain ⟨-, -, -, -, hlt, -⟩ := mapIn_inside (Option.mem_toList.1 hp)
      exact contains_of_mapIn (Option.mem_toList.1 hp) 0 (by omega)
  | box r b st =>
      obtain ⟨⟨_, _, _⟩, -, hp⟩ := List.mem_flatMap.1 hp
      exact contains_of_putInk hp

/-- A view of a view shows a part of it, or nothing. -/
theorem sub_within (r : Rect) (hw : 0 < (v.sub r).clip.w) (hh : 0 < (v.sub r).clip.h) :
    (v.sub r).clip.Within v.clip := by
  simp only [sub, Rect.Within] at *
  omega

/-- **Confinement.** Whatever is drawn through a view made by any chain of `sub`, the cells
outside its clip stay as they were, but for the halves of the characters its edge cuts; and
the clip of a view made of it is inside its own. -/
theorem draw_confined_of_subs (amb : Bool) {s : Surface} (hs : s.Paired) (rs : List Rect) :
    (∀ d, Confined (fun x y => (rs.foldl View.sub s.root).clip.contains x y) s
      ((rs.foldl View.sub s.root).draw amb s d)) ∧
    ∀ r, 0 < ((rs.foldl View.sub s.root).sub r).clip.w → 0 < ((rs.foldl View.sub s.root).sub r).clip.h →
      ((rs.foldl View.sub s.root).sub r).clip.Within (rs.foldl View.sub s.root).clip :=
  ⟨fun _ => confined_draw hs (Confined.refl hs.sized _) fun _ => contains_of_ink,
    fun r => sub_within r⟩

/-- A character of two columns, of which a view of a view sees the second only. -/
def cutSurface : Surface := (Surface.ofSize 4 2).root.put false (Surface.ofSize 4 2) 0 0 0x65e5 {}

theorem cutSurface_whole : Surface.Whole false cutSurface :=
  whole_put _ (Surface.Whole.ofSize false 4 2) 0 0 0x65e5 {}

/-- There the write of an `a` blanks the first, outside the clip. -/
theorem draw_confined_of_subs_cut :
    let v := [{ x := -1, y := 0, w := 9, h := 1 }, { x := 1, y := -3, w := 2, h := 9 }].foldl
      View.sub cutSurface.root
    v.clip = { x := 1, y := 0, w := 2, h := 1 } ∧
    Confined (fun x y => v.clip.contains x y) cutSurface (v.draw false cutSurface (.put 0 0 0x61 {})) ∧
    (v.draw false cutSurface (.put 0 0 0x61 {})).at 0 0 = {} ∧ (cutSurface.at 0 0).width = 2 :=
  ⟨by decide, (draw_confined_of_subs false cutSurface_whole.paired _).1 _, by decide +kernel,
    by decide +kernel⟩

end View

/-! ### Strokes -/

/-- A drawing through a view, by somebody. -/
structure Stroke (α : Type) where
  owner : Nat → Nat → α
  view : View
  drawing : Drawing

namespace Stroke

variable {α : Type} (amb : Bool)

def ink (w h : Nat) (k : Stroke α) : Ink := k.view.ink amb w h k.drawing

def paint (s : Surface) (ks : List (Stroke α)) : Surface :=
  ks.foldl (fun s k => k.view.draw amb s k.drawing) s

/-- Who painted the cell last. -/
def lastPainter (w h : Nat) (ks : List (Stroke α)) (x y : Nat) : Option α :=
  (ks.reverse.find? fun k => (x, y) ∈ k.ink amb w h).map fun k => k.owner x y

variable {amb} {w h : Nat} {ks ls : List (Stroke α)} {x y : Nat}

theorem lastPainter_append (hls : ∀ k ∈ ls, (x, y) ∉ k.ink amb w h) :
    lastPainter amb w h (ks ++ ls) x y = lastPainter amb w h ks x y := by
  have hnone : ls.reverse.find? (fun k => (x, y) ∈ k.ink amb w h) = none :=
    List.find?_eq_none.2 fun k hk => by simpa using hls k (List.mem_reverse.1 hk)
  simp only [lastPainter, List.reverse_append, List.find?_append, hnone, Option.none_or]

theorem lastPainter_append_of_some {a : α} (hls : lastPainter amb w h ls x y = some a) :
    lastPainter amb w h (ks ++ ls) x y = some a := by
  unfold lastPainter at *
  obtain ⟨k, hk, howner⟩ := Option.map_eq_some_iff.1 hls
  rw [List.reverse_append, List.find?_append, hk]
  exact congrArg some howner

end Stroke

end Sshos.Render
