import Sshos.Lib.Partition
import Sshos.Wm.Tile

/-!
# Sshos.Wm.Tiling

Tiles and halves **partition** the work area, cell by cell: nothing is drawn twice, and nothing
is left of the background. Tiles are as even as whole cells allow.
-/

namespace Sshos.Render

open Sshos.Lib (IsPartition)

/-- The cells of a rectangle; none, where it has no width or no height. -/
def Rect.cells (r : Rect) : Set (Int × Int) := { p | r.contains p.1 p.2 }

theorem Rect.mem_cells {r : Rect} {px py : Int} :
    (px, py) ∈ r.cells ↔ r.x ≤ px ∧ px < r.x + r.w ∧ r.y ≤ py ∧ py < r.y + r.h := by
  simp only [cells, contains, Set.mem_ofPred_eq, Bool.and_eq_true, decide_eq_true_eq]
  constructor <;> omega

/-- A cut between the two ends. -/
def Between (cut total : Int) : Prop := (0 ≤ cut ∧ cut ≤ total) ∨ (total ≤ cut ∧ cut ≤ 0)

theorem Rect.partition_beside (x y w w₁ h : Int) (hcut : Between w₁ w) :
    IsPartition
      [cells { x := x, y := y, w := w₁, h := h }, cells { x := x + w₁, y := y, w := w - w₁, h := h }]
      (cells { x := x, y := y, w := w, h := h }) := by
  refine IsPartition.pair ?_ ?_
  · rintro ⟨px, py⟩ hleft hright
    simp only [mem_cells] at hleft hright
    omega
  · rintro ⟨px, py⟩
    simp only [mem_cells]
    unfold Between at hcut
    omega

theorem Rect.partition_below (x y w h h₁ : Int) (hcut : Between h₁ h) :
    IsPartition
      [cells { x := x, y := y, w := w, h := h₁ }, cells { x := x, y := y + h₁, w := w, h := h - h₁ }]
      (cells { x := x, y := y, w := w, h := h }) := by
  refine IsPartition.pair ?_ ?_
  · rintro ⟨px, py⟩ hup hdown
    simp only [mem_cells] at hup hdown
    omega
  · rintro ⟨px, py⟩
    simp only [mem_cells]
    unfold Between at hcut
    omega

theorem Rect.cells_of_width {r : Rect} (hw : r.w ≤ 0) : r.cells = ∅ := by
  refine Set.eq_empty_of_forall_notMem ?_
  rintro ⟨px, py⟩ hin
  rw [mem_cells] at hin
  omega

theorem Rect.cells_of_height {r : Rect} (hh : r.h ≤ 0) : r.cells = ∅ := by
  refine Set.eq_empty_of_forall_notMem ?_
  rintro ⟨px, py⟩ hin
  rw [mem_cells] at hin
  omega

end Sshos.Render

namespace Sshos.Wm

open Sshos.Lib (IsPartition)
open Sshos.Render (Between Rect)

/-! ### Divisions -/

theorem columnsFor_go {n : Nat} (fuel : Nat) : ∀ {c : Nat}, 1 ≤ c → c ≤ n → n ≤ c + fuel →
    c ≤ columnsFor.go n fuel c ∧ columnsFor.go n fuel c ≤ n ∧
    n ≤ columnsFor.go n fuel c * columnsFor.go n fuel c ∧
    ∀ less, c ≤ less → less < columnsFor.go n fuel c → less * less < n := by
  have hnone : ∀ {c less : Nat}, c ≤ less → less < c → less * less < n :=
    fun hle hlt => absurd hlt (Nat.not_lt.2 hle)
  induction fuel with
  | zero =>
      intro c hc hle hroom
      exact ⟨le_refl c, hle, hroom.trans (Nat.le_mul_of_pos_left c hc), fun _ => hnone⟩
  | succ fuel ih =>
      intro c hc hle hroom
      have hgrow : c ≤ c * c := Nat.le_mul_of_pos_left c hc
      unfold columnsFor.go
      split
      · next hless =>
          obtain ⟨hge, hle', hsquare, hleast⟩ := ih (c := c + 1) (by omega) (by omega) (by omega)
          refine ⟨by omega, hle', hsquare, fun less hbound hlt => ?_⟩
          rcases Nat.eq_or_lt_of_le hbound with rfl | hbound
          · exact hless
          · exact hleast less hbound hlt
      · next hmore => exact ⟨le_refl c, hle, Nat.not_lt.1 hmore, fun _ => hnone⟩

/-- The least square that holds the windows: each column has one at least. -/
theorem columnsFor_spec {n : Nat} (hn : 1 ≤ n) :
    1 ≤ columnsFor n ∧ columnsFor n ≤ n ∧ n ≤ columnsFor n * columnsFor n ∧
    ∀ less, 1 ≤ less → less < columnsFor n → less * less < n :=
  columnsFor_go n (le_refl 1) hn (Nat.le_add_left n 1)

@[simp] theorem length_split (total : Int) (parts : Nat) : (split total parts).length = parts := by
  simp [split]

theorem one_le_of_mem_split {total : Int} {parts : Nat} {n : Int} (hn : n ∈ split total parts) :
    1 ≤ n := by
  obtain ⟨i, -, rfl⟩ := List.mem_map.1 hn
  exact le_max_left _ _

/-- Parts are as even as whole cells allow. -/
theorem split_even {total : Int} {parts : Nat} {m n : Int} (hm : m ∈ split total parts)
    (hn : n ∈ split total parts) : (m - n).natAbs ≤ 1 := by
  obtain ⟨i, -, rfl⟩ := List.mem_map.1 hm
  obtain ⟨j, -, rfl⟩ := List.mem_map.1 hn
  split <;> split <;> omega

theorem sum_range_extra (base : Int) (extra n : Nat) :
    ((List.range n).map fun i => base + if i < extra then 1 else 0).sum =
      n * base + (min n extra : Nat) := by
  induction n with
  | zero => simp
  | succ n ih =>
      rw [List.range_succ, List.map_append, List.sum_append, ih, List.map_singleton,
        List.sum_singleton]
      push_cast
      split <;> grind

/-- Where there is a cell for each part, nothing is left. -/
theorem sum_split {total : Int} {parts : Nat} (hpos : 0 < parts) (hle : (parts : Int) ≤ total) :
    (split total parts).sum = total := by
  obtain ⟨n, rfl⟩ := Int.eq_ofNat_of_zero_le (by omega : 0 ≤ total)
  have hbase : 1 ≤ n / parts := (Nat.one_le_div_iff hpos).2 (by exact_mod_cast hle)
  have hdiv : (n : Int).tdiv parts = (n / parts : Nat) := rfl
  have hmod : (n : Int).tmod parts = (n % parts : Nat) := rfl
  have hparts : split n parts =
      (List.range parts).map fun i => ((n / parts : Nat) : Int) + if i < n % parts then 1 else 0 := by
    unfold split
    simp only [hdiv, hmod, Int.ofNat_lt]
    refine List.map_congr_left fun i _ => max_eq_right ?_
    split <;> omega
  rw [hparts, sum_range_extra, Nat.min_eq_right (Nat.mod_lt n hpos).le, ← Nat.cast_mul,
    ← Nat.cast_add, Nat.div_add_mod]

/-! ### Columns -/

theorem partition_tileColumn (x w : Int) {heights : List Int} (hpos : ∀ h ∈ heights, 1 ≤ h) :
    ∀ y, IsPartition ((tileColumn x w y heights).map Rect.cells)
      (Rect.cells { x := x, y := y, w := w, h := heights.sum }) := by
  induction heights with
  | nil =>
      intro y
      rw [Rect.cells_of_height (le_refl 0)]
      exact IsPartition.nil
  | cons h hs ih =>
      intro y
      obtain ⟨hone, hrest⟩ := List.forall_mem_cons.1 hpos
      have hsum : 0 ≤ hs.sum := List.sum_nonneg fun h' hin => Int.le_trans (by decide) (hrest h' hin)
      have hcut := Rect.partition_below x y w (h + hs.sum) h (.inl ⟨by omega, by omega⟩)
      rw [add_sub_cancel_left] at hcut
      rw [List.sum_cons]
      exact hcut.append (IsPartition.singleton _) (ih hrest (y + h))

/-- Columns that are each filled fill the width they have together. -/
theorem partition_tileColumns (work : Rect) {columns : List (Int × Int)}
    (hwide : ∀ c ∈ columns, 1 ≤ c.1)
    (hfilled : ∀ c ∈ columns, (split work.h c.2.toNat).sum = work.h) :
    ∀ x, IsPartition ((tileColumns work x columns).map Rect.cells)
      (Rect.cells { x := x, y := work.y, w := (columns.map Prod.fst).sum, h := work.h }) := by
  induction columns with
  | nil =>
      intro x
      rw [Rect.cells_of_width (le_refl 0)]
      exact IsPartition.nil
  | cons c cs ih =>
      intro x
      obtain ⟨hone, hwides⟩ := List.forall_mem_cons.1 hwide
      obtain ⟨hsplit, hfills⟩ := List.forall_mem_cons.1 hfilled
      have hsum : 0 ≤ (cs.map Prod.fst).sum := by
        refine List.sum_nonneg fun w hin => ?_
        obtain ⟨c', hc', rfl⟩ := List.mem_map.1 hin
        exact Int.le_trans (by decide) (hwides c' hc')
      have hcut := Rect.partition_beside x work.y (c.1 + (cs.map Prod.fst).sum) c.1 work.h
        (.inl ⟨by omega, by omega⟩)
      have hcolumn := partition_tileColumn x c.1 (fun h (hin : h ∈ split work.h c.2.toNat) =>
        one_le_of_mem_split hin) work.y
      rw [add_sub_cancel_left] at hcut
      rw [hsplit] at hcolumn
      simp only [tileColumns, List.map_append, List.map_cons, List.sum_cons]
      exact hcut.append hcolumn (ih hwides hfills (x + c.1))

@[simp] theorem length_tileColumn (x w y : Int) (heights : List Int) :
    (tileColumn x w y heights).length = heights.length := by
  induction heights generalizing y with
  | nil => rfl
  | cons h hs ih => simp [tileColumn, ih]

theorem length_tileColumns (work : Rect) (x : Int) {columns : List (Int × Int)}
    (hrows : ∀ c ∈ columns, 1 ≤ c.2) :
    ((tileColumns work x columns).length : Int) = (columns.map Prod.snd).sum := by
  induction columns generalizing x with
  | nil => rfl
  | cons c cs ih =>
      obtain ⟨hone, hrest⟩ := List.forall_mem_cons.1 hrows
      simp only [tileColumns, List.length_append, length_tileColumn, length_split, Nat.cast_add,
        ih _ hrest, List.map_cons, List.sum_cons, Int.toNat_of_nonneg (Int.le_trans (by decide) hone)]

theorem mem_tileColumn {x w y : Int} {heights : List Int} {r : Rect}
    (hr : r ∈ tileColumn x w y heights) : r.x = x ∧ r.w = w ∧ r.h ∈ heights := by
  induction heights generalizing y with
  | nil => cases hr
  | cons h hs ih =>
      rcases List.mem_cons.1 hr with rfl | hr
      · exact ⟨rfl, rfl, List.mem_cons_self ..⟩
      · obtain ⟨hx, hw, hin⟩ := ih hr
        exact ⟨hx, hw, List.mem_cons_of_mem _ hin⟩

theorem mem_tileColumns {work : Rect} {x : Int} {columns : List (Int × Int)} {r : Rect}
    (hwide : ∀ c ∈ columns, 1 ≤ c.1) (hr : r ∈ tileColumns work x columns) :
    x ≤ r.x ∧ ∃ c ∈ columns, r.w = c.1 := by
  induction columns generalizing x with
  | nil => cases hr
  | cons c cs ih =>
      obtain ⟨hone, hrest⟩ := List.forall_mem_cons.1 hwide
      rcases List.mem_append.1 hr with hr | hr
      · obtain ⟨hx, hw, -⟩ := mem_tileColumn hr
        exact ⟨hx.ge, c, List.mem_cons_self .., hw⟩
      · obtain ⟨hx, c', hc', hw⟩ := ih hrest hr
        exact ⟨by omega, c', List.mem_cons_of_mem _ hc', hw⟩

/-- Tiles that begin on the same column of cells are in the same column. -/
theorem tileColumns_even {work : Rect} {x : Int} {columns : List (Int × Int)} {r q : Rect}
    (hwide : ∀ c ∈ columns, 1 ≤ c.1) (hr : r ∈ tileColumns work x columns)
    (hq : q ∈ tileColumns work x columns) (hsame : r.x = q.x) : (r.h - q.h).natAbs ≤ 1 := by
  induction columns generalizing x with
  | nil => cases hr
  | cons c cs ih =>
      obtain ⟨hone, hrest⟩ := List.forall_mem_cons.1 hwide
      rcases List.mem_append.1 hr with hr | hr <;> rcases List.mem_append.1 hq with hq | hq
      · exact split_even (mem_tileColumn hr).2.2 (mem_tileColumn hq).2.2
      · have hhere := (mem_tileColumn hr).1
        have hafter := (mem_tileColumns hrest hq).1
        omega
      · have hhere := (mem_tileColumn hq).1
        have hafter := (mem_tileColumns hrest hr).1
        omega
      · exact ih hrest hr hq

/-! ### The work area -/

/-- Tiles that fill the work area, one for each window, as even as whole cells allow. -/
structure Tiles (work : Rect) (count : Nat) (tiles : List Rect) : Prop where
  length : tiles.length = count
  partition : IsPartition (tiles.map Rect.cells) work.cells
  widths : ∀ r ∈ tiles, ∀ q ∈ tiles, (r.w - q.w).natAbs ≤ 1
  heights : ∀ r ∈ tiles, ∀ q ∈ tiles, r.x = q.x → (r.h - q.h).natAbs ≤ 1

/-- There is a cell at least for each column, and in a column for each of its windows. -/
structure RoomFor (work : Rect) (count : Nat) : Prop where
  columns : (columnsFor count : Int) ≤ work.w
  rows : ∀ rows ∈ split count (columnsFor count), rows ≤ work.h

theorem tileRects_tiles {work : Rect} {count : Nat} (hcount : 1 ≤ count) (hroom : RoomFor work count) :
    Tiles work count (tileRects work count) := by
  obtain ⟨hone, hle, -, -⟩ := columnsFor_spec hcount
  obtain ⟨hcols, hrows⟩ := hroom
  have hsome : ∃ rows, rows ∈ split count (columnsFor count) :=
    List.exists_mem_of_length_pos (by rw [length_split]; omega)
  have hhigh : 1 ≤ work.h := by
    obtain ⟨rows, hin⟩ := hsome
    exact (one_le_of_mem_split hin).trans (hrows rows hin)
  have htiles : tileRects work count = tileColumns work work.x
      ((split work.w (columnsFor count)).zip (split count (columnsFor count))) :=
    if_neg (by omega)
  have hlen : (split work.w (columnsFor count)).length = (split count (columnsFor count)).length := by
    rw [length_split, length_split]
  rw [htiles]
  generalize hcolumns : (split work.w (columnsFor count)).zip (split count (columnsFor count)) =
    columns
  have hfst : columns.map Prod.fst = split work.w (columnsFor count) := by
    rw [← hcolumns, List.map_fst_zip hlen.le]
  have hsnd : columns.map Prod.snd = split count (columnsFor count) := by
    rw [← hcolumns, List.map_snd_zip hlen.ge]
  have hin₁ : ∀ c ∈ columns, c.1 ∈ split work.w (columnsFor count) := fun c hc =>
    hfst ▸ List.mem_map_of_mem hc
  have hin₂ : ∀ c ∈ columns, c.2 ∈ split count (columnsFor count) := fun c hc =>
    hsnd ▸ List.mem_map_of_mem hc
  have hwide : ∀ c ∈ columns, 1 ≤ c.1 := fun c hc => one_le_of_mem_split (hin₁ c hc)
  constructor
  · have hcount' := length_tileColumns work work.x fun c hc => one_le_of_mem_split (hin₂ c hc)
    rw [hsnd, sum_split (by omega) (by omega)] at hcount'
    exact Int.ofNat.inj hcount'
  · have hparts := partition_tileColumns work hwide (fun c hc => ?_) work.x
    · rwa [hfst, sum_split (by omega) hcols] at hparts
    · have hpos := one_le_of_mem_split (hin₂ c hc)
      have hfits := hrows c.2 (hin₂ c hc)
      exact sum_split (by omega) (by omega)
  · intro r hr q hq
    obtain ⟨-, c, hc, hw⟩ := mem_tileColumns hwide hr
    obtain ⟨-, c', hc', hw'⟩ := mem_tileColumns hwide hq
    rw [hw, hw']
    exact split_even (hin₁ c hc) (hin₁ c' hc')
  · exact fun r hr q hq => tileColumns_even hwide hr hq

/-! ### Halves -/

theorem snap_partition (work : Rect) (d : SnapDir) :
    IsPartition [(snapRect work d).cells, (snapOpposite work d).cells] work.cells := by
  have hhalf : ∀ n : Int, Between (n - n.tdiv 2) n := by
    intro n
    unfold Between
    rcases Int.le_total 0 n with hpos | hneg
    · rw [Int.tdiv_eq_ediv_of_nonneg hpos]
      omega
    · have hopp := Int.neg_tdiv n 2
      rw [Int.tdiv_eq_ediv_of_nonneg (by omega)] at hopp
      omega
  have hbeside := Rect.partition_beside work.x work.y work.w _ work.h (hhalf work.w)
  have hbelow := Rect.partition_below work.x work.y work.w work.h _ (hhalf work.h)
  cases d with
  | left => exact hbeside
  | right => exact hbeside.perm (List.Perm.swap ..)
  | up => exact hbelow
  | down => exact hbelow.perm (List.Perm.swap ..)

/-- **Tiling and snapping are exact partitions** of the work area. -/
theorem tiles_and_halves (work : Rect) :
    (∀ count ≥ 1, RoomFor work count → Tiles work count (tileRects work count)) ∧
    ∀ d, IsPartition [(snapRect work d).cells, (snapOpposite work d).cells] work.cells :=
  ⟨fun _ hcount hroom => tileRects_tiles hcount hroom, snap_partition work⟩

theorem tiles_and_halves_five :
    Tiles { x := 1, y := 2, w := 80, h := 23 } 5 (tileRects { x := 1, y := 2, w := 80, h := 23 } 5) :=
  (tiles_and_halves { x := 1, y := 2, w := 80, h := 23 }).1 5 (by decide) ⟨by decide, by decide⟩

end Sshos.Wm
