import Mathlib.Algebra.Order.BigOperators.Group.List
import Mathlib.Algebra.Order.Group.Int
import Mathlib.Algebra.Ring.Int.Defs
import Mathlib.Data.List.Basic

/-!
# Sshos.Lib.Shelf

**Things put side by side** on a shelf, from the left, until the first one for which there is no
room. Where each of them stands is told by the widths of those before it.
-/

namespace Sshos.Lib

universe u

variable {α : Type u}

section Shelf

variable (width : α → Int) (room : Int)

/-- The things there is room for from column `x` on, each with the column it stands at. -/
def shelf : (x : Int) → List α → List (Int × α)
  | _, [] => []
  | x, a :: as => if x + width a > room then [] else (x, a) :: shelf (x + width a) as

/-- The columns some things take together. -/
def span (as : List α) : Int := (as.map width).sum

end Shelf

variable {width : α → Int} {room x y : Int} {a : α} {as : List α}

theorem span_cons (a : α) (as : List α) : span width (a :: as) = width a + span width as := by
  unfold span
  rw [List.map_cons, List.sum_cons]

theorem span_append (as bs : List α) : span width (as ++ bs) = span width as + span width bs := by
  unfold span
  rw [List.map_append, List.sum_append]

theorem span_singleton (a : α) : span width [a] = width a := by
  unfold span
  rw [List.map_singleton, List.sum_singleton]

theorem shelf_full (h : x + width a > room) : shelf width room x (a :: as) = [] := if_pos h

theorem shelf_cons (h : ¬ x + width a > room) :
    shelf width room x (a :: as) = (x, a) :: shelf width room (x + width a) as := if_neg h

/-- The things on the shelf are the first ones, in their order. -/
theorem shelf_items (as : List α) : ∀ x, (shelf width room x as).map Prod.snd <+: as := by
  induction as with
  | nil => exact fun _ => List.prefix_refl _
  | cons a as ih =>
      intro x
      by_cases hfull : x + width a > room
      · rw [shelf_full hfull]
        exact List.nil_prefix
      · rw [shelf_cons hfull, List.map_cons]
        exact List.cons_prefix_cons.2 ⟨rfl, ih _⟩

theorem shelf_room (as : List α) : ∀ x, ∀ p ∈ shelf width room x as, p.1 + width p.2 ≤ room := by
  induction as with
  | nil => exact fun _ _ hp => absurd hp List.not_mem_nil
  | cons a as ih =>
      intro x p hp
      by_cases hfull : x + width a > room
      · rw [shelf_full hfull] at hp
        cases hp
      · rw [shelf_cons hfull] at hp
        rcases List.mem_cons.1 hp with rfl | hlater
        · exact Int.not_lt.1 hfull
        · exact ih _ p hlater

theorem span_nonneg (hpos : ∀ a ∈ as, 0 ≤ width a) : 0 ≤ span width as :=
  List.sum_nonneg fun _ hw => by
    obtain ⟨a, ha, rfl⟩ := List.mem_map.1 hw
    exact hpos a ha

/-- More things take more columns. -/
theorem span_take_mono (hpos : ∀ a ∈ as, 0 ≤ width a) {i j : Nat} (h : i ≤ j) :
    span width (as.take i) ≤ span width (as.take j) := by
  have hcut := List.take_append_drop i (as.take j)
  rw [List.take_take, Nat.min_eq_left h] at hcut
  have hrest : 0 ≤ span width ((as.take j).drop i) :=
    span_nonneg fun a ha => hpos a (List.take_subset _ _ (List.drop_subset _ _ ha))
  rw [← hcut, span_append]
  exact Int.le_add_of_nonneg_right hrest

/-- **Who is on the shelf**: those that end in the room there is, after all those before them. -/
theorem mem_shelf (hpos : ∀ a ∈ as, 0 ≤ width a) : ∀ {x}, (y, a) ∈ shelf width room x as ↔
    ∃ j, as[j]? = some a ∧ y = x + span width (as.take j) ∧ y + width a ≤ room := by
  induction as with
  | nil => simp [shelf]
  | cons b as ih =>
      intro x
      have hrest := fun c hc => hpos c (List.mem_cons_of_mem _ hc)
      by_cases hfull : x + width b > room
      · rw [shelf_full hfull]
        refine iff_of_false List.not_mem_nil ?_
        rintro ⟨j, hj, rfl, hroom⟩
        cases j with
        | zero =>
            cases hj
            rw [List.take_zero] at hroom
            simp only [span, List.map_nil, List.sum_nil] at hroom
            omega
        | succ j =>
            have hbefore : 0 ≤ span width (as.take j) :=
              span_nonneg fun c hc => hrest c (List.take_subset _ _ hc)
            have ha : 0 ≤ width a := hrest a (List.mem_of_getElem? hj)
            rw [List.take_succ_cons, span_cons] at hroom
            omega
      · rw [shelf_cons hfull, List.mem_cons, ih hrest]
        constructor
        · rintro (heq | ⟨j, hj, hy, hroom⟩)
          · cases heq
            exact ⟨0, rfl, by simp [span], Int.not_lt.1 hfull⟩
          · refine ⟨j + 1, hj, ?_, hroom⟩
            rw [List.take_succ_cons, span_cons]
            omega
        · rintro ⟨j, hj, hy, hroom⟩
          cases j with
          | zero =>
              cases hj
              refine .inl ?_
              rw [hy]
              simp [span]
          | succ j =>
              rw [List.take_succ_cons, span_cons] at hy
              exact .inr ⟨j, hj, by omega, hroom⟩

theorem le_of_mem_shelf (hpos : ∀ a ∈ as, 0 ≤ width a) {p : Int × α} (hp : p ∈ shelf width room x as) :
    x ≤ p.1 := by
  obtain ⟨j, -, hy, -⟩ := (mem_shelf hpos).1 hp
  have hbefore : 0 ≤ span width (as.take j) := span_nonneg fun c hc => hpos c (List.take_subset _ _ hc)
  omega

/-- The things on the shelf stand one after the other. -/
theorem shelf_sorted : ∀ {as : List α} (_ : ∀ a ∈ as, 0 ≤ width a) (x : Int),
    (shelf width room x as).Pairwise fun p q => p.1 + width p.2 ≤ q.1
  | [], _, _ => .nil
  | a :: as, hpos, x => by
      have hrest := fun c hc => hpos c (List.mem_cons_of_mem _ hc)
      by_cases hfull : x + width a > room
      · rw [shelf_full hfull]
        exact .nil
      · rw [shelf_cons hfull]
        exact .cons (fun p hp => le_of_mem_shelf hrest hp) (shelf_sorted hrest _)

end Sshos.Lib
