import Sshos.Render.Confine
import Sshos.Render.Width

/-!
# Sshos.Render.Ink

**Who painted** a cell of the screen: the ink of each drawing made through the view of the
whole screen, and the painter of a cell after many strokes.
-/

namespace Sshos.Render

universe u

open Sshos.Common (utf8Decode utf8Decode_pos)
open Sshos.Lib (Bytes mem_upTo)

theorem Rect.contains_iff {r : Rect} {x y : Int} :
    r.contains x y ↔ r.x ≤ x ∧ r.y ≤ y ∧ x < r.x + r.w ∧ y < r.y + r.h := by
  simp only [Rect.contains, Bool.and_eq_true, decide_eq_true_eq, ge_iff_le, and_assoc]

namespace View

/-- The view of a whole screen. -/
def screen (w h : Nat) : View := { clip := { x := 0, y := 0, w := w, h := h } }

section Screen

variable {w h x y : Nat}

/-- The places of a view, as far as there is a screen under it. -/
theorem mapIn_of_inside {v : View} {a b : Int} (hx : x < w) (hy : y < h)
    (ha : 0 ≤ a ∧ a < v.clip.w) (hb : 0 ≤ b ∧ b < v.clip.h) (hxa : v.clip.x + a = x)
    (hyb : v.clip.y + b = y) : v.mapIn w h a b = some (x, y) := by
  have hclip : ¬ (a < 0 ∨ b < 0 ∨ a ≥ v.clip.w ∨ b ≥ v.clip.h) := by omega
  have hin : 0 ≤ (x : Int) ∧ 0 ≤ (y : Int) ∧ (x : Int) < w ∧ (y : Int) < h := by omega
  simp only [mapIn, if_neg hclip, hxa, hyb, Int.toNat_natCast]
  exact if_pos hin

theorem mapIn_screen (hx : x < w) (hy : y < h) {a b : Int} :
    (screen w h).mapIn w h a b = some (x, y) ↔ a = x ∧ b = y := by
  constructor
  · intro hmap
    obtain ⟨ha, hb, -⟩ := mapIn_inside hmap
    simp only [screen, zero_add] at ha hb
    exact ⟨ha.symm, hb.symm⟩
  · rintro ⟨rfl, rfl⟩
    refine mapIn_of_inside hx hy ⟨by omega, ?_⟩ ⟨by omega, ?_⟩ (zero_add _) (zero_add _)
    · exact Int.ofNat_lt.2 hx
    · exact Int.ofNat_lt.2 hy

/-- The ink of a character of one column. -/
theorem mem_putInk {v : View} {a b : Int} {ch : Nat} (hch : charWidth false ch = 1) {p : Nat × Nat} :
    p ∈ v.putInk false w h a b ch ↔ v.mapIn w h a b = some p := by
  unfold putInk
  cases hmap : v.mapIn w h a b with
  | none => simp
  | some place =>
      simp only [hch, if_false, Nat.succ_ne_self, OfNat.one_ne_ofNat, false_and,
        List.mem_singleton, Option.some.injEq]
      exact eq_comm

theorem mem_putInk_screen (hx : x < w) (hy : y < h) {a b : Int} {ch : Nat}
    (hch : charWidth false ch = 1) :
    (x, y) ∈ (screen w h).putInk false w h a b ch ↔ a = x ∧ b = y :=
  (mem_putInk hch).trans (mapIn_screen hx hy)

theorem mem_fillInk_screen (hx : x < w) (hy : y < h) {r : Rect} :
    (x, y) ∈ (screen w h).fillInk w h r ↔ r.contains x y := by
  simp only [fillInk, List.mem_flatMap, mem_upTo, Option.mem_toList, mapIn_screen hx hy,
    Rect.contains_iff]
  simp only [screen]
  constructor
  · rintro ⟨b, hb, a, ha, rfl, rfl⟩
    omega
  · intro hin
    exact ⟨y, by omega, x, by omega, rfl, rfl⟩

/-- A place of the border of a rectangle. -/
def OnBorder (r : Rect) (x y : Int) : Prop :=
  r.contains x y ∧ (x = r.x ∨ x = r.x + r.w - 1 ∨ y = r.y ∨ y = r.y + r.h - 1)

theorem boxPuts_narrow {r : Rect} {b : Border} : ∀ p ∈ boxPuts r b, charWidth false p.2.2 = 1 := by
  have hch : ∀ b : Border, ∀ p ∈ [(0x2500, 0x2d), (0x2502, 0x7c), (0x250c, 0x2b), (0x2510, 0x2b),
      (0x2514, 0x2b), (0x2518, 0x2b)], charWidth false (if b = .unicode then p.1 else p.2) = 1 := by
    intro b
    cases b <;> decide +kernel
  intro p hp
  have hch := hch b
  simp only [List.forall_mem_cons, List.not_mem_nil, false_imp_iff, implies_true, and_true] at hch
  obtain ⟨hhor, hver, hnw, hne, hsw, hse⟩ := hch
  unfold boxPuts at hp
  split at hp
  · cases hp
  simp only at hp
  split at hp
  · obtain ⟨a, -, rfl⟩ := List.mem_map.1 hp
    exact hhor
  split at hp
  · obtain ⟨a, -, rfl⟩ := List.mem_map.1 hp
    exact hver
  · simp only [List.mem_append, List.mem_flatMap, List.mem_cons, List.not_mem_nil, or_false] at hp
    rcases hp with (⟨a, -, rfl | rfl⟩ | ⟨a, -, rfl | rfl⟩) | rfl | rfl | rfl | rfl
    · exact hhor
    · exact hhor
    · exact hver
    · exact hver
    · exact hnw
    · exact hne
    · exact hsw
    · exact hse

/-- A frame is painted on the border of its rectangle, and nowhere else. -/
theorem mem_boxInk_screen (hx : x < w) (hy : y < h) {r : Rect} {b : Border} (hw : 2 ≤ r.w)
    (hh : 2 ≤ r.h) : (x, y) ∈ (screen w h).boxInk false w h r b ↔ OnBorder r x y := by
  have hplaces : (x, y) ∈ (screen w h).boxInk false w h r b ↔
      ∃ p ∈ boxPuts r b, p.1 = x ∧ p.2.1 = y := by
    simp only [boxInk, List.mem_flatMap]
    constructor
    · rintro ⟨p, hp, hink⟩
      exact ⟨p, hp, (mem_putInk_screen hx hy (boxPuts_narrow p hp)).1 hink⟩
    · rintro ⟨p, hp, hplace⟩
      exact ⟨p, hp, (mem_putInk_screen hx hy (boxPuts_narrow p hp)).2 hplace⟩
  rw [hplaces]
  have hsome : ¬ (r.w ≤ 0 ∨ r.h ≤ 0) := by omega
  have hrow : r.h ≠ 1 := by omega
  have hcol : r.w ≠ 1 := by omega
  unfold boxPuts
  rw [if_neg hsome]
  simp only [if_neg hrow, if_neg hcol, List.mem_append, List.mem_flatMap, mem_upTo, List.mem_cons,
    List.not_mem_nil, or_false, OnBorder, Rect.contains_iff]
  constructor
  · rintro ⟨p, (⟨a, ha, rfl | rfl⟩ | ⟨a, ha, rfl | rfl⟩) | rfl | rfl | rfl | rfl, hplace⟩
    all_goals
      simp only at hplace
      omega
  · rintro ⟨hin, hside⟩
    by_cases hcorner : (x = r.x ∨ x = r.x + r.w - 1) ∧ (y = r.y ∨ y = r.y + r.h - 1)
    · rcases hcorner with ⟨hleft | hright, htop | hbottom⟩
      · exact ⟨_, .inr (.inl rfl), hleft.symm, htop.symm⟩
      · exact ⟨_, .inr (.inr (.inr (.inl rfl))), hleft.symm, hbottom.symm⟩
      · exact ⟨_, .inr (.inr (.inl rfl)), hright.symm, htop.symm⟩
      · exact ⟨_, .inr (.inr (.inr (.inr rfl))), hright.symm, hbottom.symm⟩
    · rcases hside with hleft | hright | htop | hbottom
      · exact ⟨_, .inl (.inr ⟨y - r.y, by omega, .inl rfl⟩), hleft.symm, by simp only; omega⟩
      · exact ⟨_, .inl (.inr ⟨y - r.y, by omega, .inr rfl⟩), hright.symm, by simp only; omega⟩
      · exact ⟨_, .inl (.inl ⟨x - r.x, by omega, .inl rfl⟩), by simp only; omega, htop.symm⟩
      · exact ⟨_, .inl (.inl ⟨x - r.x, by omega, .inr rfl⟩), by simp only; omega, hbottom.symm⟩

end Screen

/-! ### Text -/

section Text

variable {v : View} {w h : Nat}

theorem putInk_inside {a b : Int} {ch : Nat} {p : Nat × Nat} (hp : p ∈ v.putInk false w h a b ch) :
    (p.2 : Int) = v.clip.y + b ∧ v.clip.x + a ≤ p.1 ∧ (p.1 : Int) < v.clip.x + a + charWidth false ch := by
  have hle := charWidth_le false ch
  unfold putInk at hp
  cases hmap : v.mapIn w h a b with
  | none =>
      rw [hmap] at hp
      cases hp
  | some place =>
      obtain ⟨ox, oy⟩ := place
      obtain ⟨hox, hoy, -⟩ := mapIn_inside hmap
      simp only [hmap] at hp
      split at hp
      · cases hp
      next hzero =>
      split at hp
      · cases hp
      split at hp
      next hwide =>
        simp only [List.mem_cons, List.not_mem_nil, or_false] at hp
        rcases hp with rfl | rfl
        · simp only
          omega
        · simp only
          omega
      next =>
        rw [List.mem_singleton.1 hp]
        simp only
        omega

/-- A text stays on its row, in the columns it takes. -/
theorem textInk_inside {b : Int} {utf8 : Bytes} {p : Nat × Nat} (fuel : Nat) :
    ∀ {i : Nat} {col : Int}, p ∈ v.textInk false w h b utf8 fuel i col →
      (p.2 : Int) = v.clip.y + b ∧ v.clip.x + col ≤ p.1 ∧
      (p.1 : Int) < v.clip.x + col + cellsFrom utf8 fuel i := by
  induction fuel with
  | zero => exact fun hp => absurd hp List.not_mem_nil
  | succ fuel ih =>
      intro i col hp
      unfold textInk at hp
      unfold cellsFrom
      split at hp
      next hi =>
        simp only at hp
        rw [if_pos hi]
        push_cast
        split at hp
        next hzero =>
          have := ih hp
          omega
        split at hp
        · cases hp
        rcases List.mem_append.1 hp with hfirst | hrest
        · have := putInk_inside hfirst
          omega
        · have := ih hrest
          omega
      next => cases hp

/-- A text of characters of one column leaves no hole. -/
theorem textInk_covers {b : Int} {utf8 : Bytes} {p : Nat × Nat}
    (hnarrow : ∀ i < utf8.length, charWidth false (utf8Decode utf8 i).2 = 1) (fuel : Nat) :
    ∀ {i : Nat} {col c : Int}, col ≤ c → c < col + cellsFrom utf8 fuel i →
      v.mapIn w h c b = some p → p ∈ v.textInk false w h b utf8 fuel i col := by
  induction fuel with
  | zero =>
      intro i col c hle hlt _
      simp only [cellsFrom] at hlt
      omega
  | succ fuel ih =>
      intro i col c hle hlt hmap
      unfold cellsFrom at hlt
      split at hlt
      next hi =>
        have hone := hnarrow i hi
        obtain ⟨-, -, -, -, hclip, -⟩ := mapIn_inside hmap
        have hroom : ¬ col + (1 : Nat) > v.clip.w := by omega
        rw [hone] at hlt
        simp only [textInk, if_pos hi, hone, Nat.one_ne_zero, if_false, if_neg hroom]
        rw [List.mem_append]
        by_cases hhere : c = col
        · exact .inl ((mem_putInk hone).2 (hhere ▸ hmap))
        · exact .inr (ih (by push_cast; omega) (by push_cast at hlt ⊢; omega) hmap)
      next => omega

/-- Both columns of a character are painted, if there is room for them. -/
theorem mem_putInk_of_room {x y : Nat} (hx : x < w) (hy : y < h) {a b : Int} {ch : Nat} (hb : (y : Int) = b)
    (ha : 0 ≤ a) (hle : a ≤ x) (hlt : (x : Int) < a + charWidth false ch)
    (hroom : a + charWidth false ch ≤ w) : (x, y) ∈ (screen w h).putInk false w h a b ch := by
  have hcells := charWidth_le false ch
  have hat : a.toNat < w := by omega
  have hmap : (screen w h).mapIn w h a b = some (a.toNat, y) :=
    (mapIn_screen hat hy).2 ⟨(Int.toNat_of_nonneg ha).symm, hb.symm⟩
  have hsome : charWidth false ch ≠ 0 := by omega
  unfold putInk
  simp only [hmap, if_neg hsome]
  by_cases hwide : charWidth false ch = 2
  · have hedge : ¬ (charWidth false ch = 2 ∧ (a + 1 ≥ (screen w h).clip.w ∨ a.toNat + 1 ≥ w)) := by
      simp only [screen]
      omega
    rw [if_neg hedge, if_pos hwide]
    have hcol : x = a.toNat ∨ x = a.toNat + 1 := by omega
    rcases hcol with rfl | rfl
    · exact List.mem_cons_self
    · exact List.mem_cons_of_mem _ List.mem_cons_self
  · have hcol : x = a.toNat := by omega
    rw [if_neg fun hedge => hwide hedge.1, if_neg hwide, hcol]
    exact List.mem_singleton_self _

/-- A text there is room for leaves no hole, whatever its bytes. -/
theorem mem_textInk_of_room {x y : Nat} (hx : x < w) (hy : y < h) {b : Int} (hb : (y : Int) = b)
    (utf8 : Bytes) (fuel : Nat) : ∀ {i : Nat} {col : Int}, 0 ≤ col → col ≤ x →
      (x : Int) < col + cellsFrom utf8 fuel i → col + cellsFrom utf8 fuel i ≤ w →
      (x, y) ∈ (screen w h).textInk false w h b utf8 fuel i col := by
  induction fuel with
  | zero =>
      intro i col _ hle hlt _
      simp only [cellsFrom] at hlt
      omega
  | succ fuel ih =>
      intro i col hcol hle hlt hroom
      unfold cellsFrom at hlt hroom
      unfold textInk
      split
      next hi =>
        rw [if_pos hi] at hlt hroom
        push_cast at hlt hroom
        simp only
        split
        next hzero => exact ih hcol hle (by omega) (by omega)
        next hsome =>
          have hfits : ¬ col + charWidth false (utf8Decode utf8 i).2 > (screen w h).clip.w := by
            simp only [screen]
            omega
          rw [if_neg hfits, List.mem_append]
          by_cases hhere : (x : Int) < col + charWidth false (utf8Decode utf8 i).2
          · exact .inl (mem_putInk_of_room hx hy hb hcol hle hhere (by omega))
          · exact .inr (ih (by omega) (by omega) (by omega) (by omega))
      next hi =>
        rw [if_neg hi] at hlt
        omega

/-- The places of a printable text, as far as they are on the screen. -/
theorem mem_textInk_screen {x y : Nat} (hx : x < w) (hy : y < h) {s : Bytes}
    (hs : ∀ b ∈ s, Printable b) {a b : Int} : (x, y) ∈ (screen w h).textInk false w h b s s.length 0 a ↔
      (y : Int) = b ∧ a ≤ x ∧ (x : Int) < a + s.length := by
  have hcells : cellsFrom s s.length 0 = s.length := textCells_printable hs
  constructor
  · intro hin
    have hplace := textInk_inside _ hin
    rw [hcells] at hplace
    simpa [screen] using hplace
  · intro hplace
    refine textInk_covers (fun i hi => (utf8Decode_printable hs hi).2) _ (c := x) hplace.2.1 ?_ ?_
    · rw [hcells]
      exact hplace.2.2
    · exact (mapIn_screen hx hy).2 ⟨rfl, hplace.1.symm⟩

end Text

/-! ### Views of the screen -/

section Subs

variable {w h : Nat}

theorem contains_of_sub {r : Rect} {x y : Int} (hin : ((screen w h).sub r).clip.contains x y) :
    r.contains x y := by
  rw [Rect.contains_iff] at *
  simp only [sub, screen] at hin
  omega

/-- A view of a part of the screen, cut at its edges, shows the places of that part. -/
theorem mapIn_sub {x y : Nat} (hx : x < w) (hy : y < h) {r : Rect} (hrx : 0 ≤ r.x) (hry : 0 ≤ r.y)
    (hin : r.contains x y) : ((screen w h).sub r).mapIn w h (x - r.x) (y - r.y) = some (x, y) := by
  rw [Rect.contains_iff] at hin
  refine mapIn_of_inside hx hy ⟨by omega, ?_⟩ ⟨by omega, ?_⟩ ?_ ?_
  all_goals
    simp only [sub, screen]
    omega

theorem contains_of_subs {v : View} (rs : List Rect) {x y : Int} :
    (rs.foldl View.sub v).clip.contains x y → v.clip.contains x y := by
  induction rs generalizing v with
  | nil => exact id
  | cons r rs ih =>
      intro hin
      have hsub := ih (v := v.sub r) hin
      have hpos : 0 < (v.sub r).clip.w ∧ 0 < (v.sub r).clip.h := by
        rw [Rect.contains_iff] at hsub
        omega
      exact (sub_within r hpos.1 hpos.2).contains hsub

end Subs

end View

/-! ### The painter of a cell -/

namespace Stroke

variable {α : Type} {amb : Bool} {w h x y : Nat}

/-- Whoever painted a cell after everybody else, or before some who are the same. -/
theorem lastPainter_of_last (ks : List (Stroke α)) {ls : List (Stroke α)} {k : Stroke α} {a : α}
    (hk : (x, y) ∈ k.ink amb w h) (howner : k.owner x y = a)
    (hls : ∀ l ∈ ls, (x, y) ∈ l.ink amb w h → l.owner x y = a) :
    lastPainter amb w h (ks ++ k :: ls) x y = some a := by
  refine lastPainter_append_of_some ?_
  unfold lastPainter
  rw [List.reverse_cons, List.find?_append]
  cases hlast : ls.reverse.find? fun l => (x, y) ∈ l.ink amb w h with
  | none => simp [hk, howner]
  | some l =>
      have hink := List.find?_some hlast
      have hmem := List.mem_reverse.1 (List.mem_of_find?_eq_some hlast)
      simp only [Option.some_or, Option.map_some]
      rw [hls l hmem (by simpa using hink)]

/-- Some of the last strokes painted the cell, and those that did are by the same. -/
theorem lastPainter_of_agree (ks : List (Stroke α)) {ls : List (Stroke α)} (k : Stroke α) {a : α}
    (hk : k ∈ ls)
    (hink : (x, y) ∈ k.ink amb w h)
    (hls : ∀ l ∈ ls, (x, y) ∈ l.ink amb w h → l.owner x y = a) :
    lastPainter amb w h (ks ++ ls) x y = some a := by
  have howner := hls k hk hink
  obtain ⟨before, after, rfl⟩ := List.append_of_mem hk
  rw [← List.append_assoc]
  refine lastPainter_of_last _ hink howner fun l hl => hls l ?_
  exact List.mem_append_right _ (List.mem_cons_of_mem _ hl)

theorem lastPainter_concat (ks : List (Stroke α)) (k : Stroke α) :
    lastPainter amb w h (ks ++ [k]) x y =
      if (x, y) ∈ k.ink amb w h then some (k.owner x y) else lastPainter amb w h ks x y := by
  split
  next hk => exact lastPainter_of_last ks hk rfl (by simp)
  next hk => exact lastPainter_append (by simpa using hk)

theorem exists_of_lastPainter {ks : List (Stroke α)} {a : α}
    (ha : lastPainter amb w h ks x y = some a) : ∃ k ∈ ks, k.owner x y = a := by
  obtain ⟨k, hk, howner⟩ := Option.map_eq_some_iff.1 ha
  exact ⟨k, List.mem_reverse.1 (List.mem_of_find?_eq_some hk), howner⟩

/-- The same stroke, by somebody known otherwise. -/
def by' {β : Type} (f : α → β) (k : Stroke α) : Stroke β :=
  { owner := fun x y => f (k.owner x y), view := k.view, drawing := k.drawing }

theorem lastPainter_by {β : Type} (f : α → β) (ks : List (Stroke α)) :
    lastPainter amb w h (ks.map (by' f)) x y = (lastPainter amb w h ks x y).map f := by
  unfold lastPainter
  rw [← List.map_reverse, List.find?_map]
  have hsame : (fun k : Stroke β => decide ((x, y) ∈ k.ink amb w h)) ∘ by' f =
      fun k : Stroke α => decide ((x, y) ∈ k.ink amb w h) := rfl
  rw [hsame, Option.map_map, Option.map_map]
  rfl

/-- **Opaque things one over the other.** Each covers some cells, and paints those only: the
painter of a cell is the foremost that covers it, or whoever was there before them. -/
theorem lastPainter_flatMap {β : Type u} (covers : β → Prop) [DecidablePred covers]
    {draw : β → List (Stroke α)} (owner : β → α) {ks : List (Stroke α)} {l : List β}
    (hcovers : ∀ b ∈ l, covers b → lastPainter amb w h (draw b) x y = some (owner b))
    (hother : ∀ b ∈ l, ¬ covers b → ∀ k ∈ draw b, (x, y) ∉ k.ink amb w h) :
    lastPainter amb w h (ks ++ l.flatMap draw) x y =
      match l.reverse.find? fun b => covers b with
      | some b => some (owner b)
      | none => lastPainter amb w h ks x y := by
  induction l using List.reverseRecOn with
  | nil => simp
  | append_singleton l b ih =>
      rw [List.flatMap_append, List.flatMap_singleton, ← List.append_assoc, List.reverse_append,
        List.reverse_singleton, List.singleton_append, List.find?_cons]
      have hlast : b ∈ l ++ [b] := List.mem_append_right _ (List.mem_singleton_self b)
      by_cases hb : covers b
      · simp only [hb, decide_true]
        exact lastPainter_append_of_some (hcovers b hlast hb)
      · simp only [hb, decide_false]
        rw [lastPainter_append (hother b hlast hb)]
        exact ih (fun c hc => hcovers c (List.mem_append_left _ hc))
          fun c hc => hother c (List.mem_append_left _ hc)

end Stroke

end Sshos.Render
