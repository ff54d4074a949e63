import Sshos.Apps.Tabbed
import Sshos.Lib.Shelf

/-!
# Sshos.Apps.TabBar

The **bar of the tabs**, as it is laid out: the tabs side by side from the left, as many as there is
room for, then the gear and the `+` at the right end. The drawing and the click both go by it.
-/

namespace Sshos.Apps.Tabbed

open Sshos.Lib (Bytes decimal decimal_digits le_of_mem_shelf mem_shelf shelf shelf_cons shelf_full
  shelf_items shelf_room shelf_sorted span)
open Sshos.Render (Printable textCells textCells_elideToCells textCells_pos textCells_printable
  textCells_printable_append)

namespace Terminal

/-! ### One tab -/

/-- The columns a tab takes, with its cross. -/
def tabCells (nameMax : Int) (crosses : Bool) (p : Bytes × Nat) : Int :=
  textCells (tabText nameMax p.2 p.1) + if crosses then 1 else 0

/-- The slots of a tab that stands at column `x`. -/
def slotsAt (nameMax : Int) (crosses : Bool) (x : Int) (p : Bytes × Nat) : List Slot :=
  let label := tabText nameMax p.2 p.1
  let w : Int := textCells label
  { x := x, w := w, tab := p.2, kind := .select, text := label } ::
    if crosses then [{ x := x + w, w := 1, tab := p.2, kind := .close, text := kCross }] else []

section Tab

variable {nameMax avail x : Int} {crosses : Bool} {p : Bytes × Nat} {s : Slot}

theorem printable_decimal (n : Nat) : ∀ b ∈ decimal n, Printable b := by
  intro b hb
  obtain ⟨hlow, hhigh⟩ := decimal_digits b hb
  rw [UInt8.le_iff_toNat_le] at hlow hhigh
  exact ⟨(show 0x20 ≤ 0x30 by decide).trans hlow, hhigh.trans_lt (by decide)⟩

/-- There is a blank at the beginning of every tab. -/
theorem textCells_tabText_pos (nameMax : Int) (i : Nat) (raw : Bytes) :
    0 < textCells (tabText nameMax i raw) :=
  textCells_pos (b := 0x20) List.mem_cons_self (by decide)

theorem tabCells_nonneg (nameMax : Int) (crosses : Bool) (p : Bytes × Nat) :
    0 ≤ tabCells nameMax crosses p := by
  unfold tabCells
  split <;> omega

theorem textCells_kCross : textCells kCross = 1 := by decide +kernel

theorem mem_slotsAt : s ∈ slotsAt nameMax crosses x p ↔
    s = { x := x, w := textCells (tabText nameMax p.2 p.1), tab := p.2, kind := .select,
          text := tabText nameMax p.2 p.1 } ∨
    crosses ∧ s = { x := x + textCells (tabText nameMax p.2 p.1), w := 1, tab := p.2, kind := .close,
                    text := kCross } := by
  cases crosses <;> simp [slotsAt]

/-- The slots of a tab are within its columns, and each has the width of its text. -/
theorem slotsAt_within (hs : s ∈ slotsAt nameMax crosses x p) :
    x ≤ s.x ∧ 0 < s.w ∧ s.x + s.w ≤ x + tabCells nameMax crosses p ∧ (textCells s.text : Int) = s.w := by
  have hpos := textCells_tabText_pos nameMax p.2 p.1
  unfold tabCells
  rcases mem_slotsAt.1 hs with rfl | ⟨hcross, rfl⟩
  · refine ⟨le_refl _, Int.natCast_pos.2 hpos, ?_, rfl⟩
    simp only
    split <;> omega
  · rw [if_pos hcross]
    refine ⟨?_, Int.one_pos, ?_, ?_⟩
    · simp only
      omega
    · simp only
      omega
    · rw [textCells_kCross]
      rfl

/-- The tabs are put side by side, as far as there is room. -/
theorem tabSlots_eq (avail nameMax : Int) (crosses : Bool) (raws : List Bytes) : ∀ (i : Nat) (x : Int),
    tabSlots avail nameMax crosses i x raws =
      (shelf (tabCells nameMax crosses) avail x (raws.zipIdx i)).flatMap fun q =>
        slotsAt nameMax crosses q.1 q.2 := by
  induction raws with
  | nil => exact fun _ _ => rfl
  | cons raw raws ih =>
      intro i x
      rw [List.zipIdx_cons]
      unfold tabSlots
      by_cases hfull : x + tabCells nameMax crosses (raw, i) > avail
      · rw [shelf_full hfull]
        exact if_pos hfull
      · rw [shelf_cons hfull, List.flatMap_cons, ← ih]
        exact if_neg hfull

end Tab

/-! ### The whole bar -/

section Bar

variable (t : Terminal)

/-- The columns of the tabs, all together. -/
def tabRoom : Int := max 1 (max 1 t.w - (kGearCells + 3))

/-- A single tab has no cross. -/
def crossed : Bool := decide ((t.tabs.length : Int) > 1)

/-- The columns of the number and the name of each tab. -/
def nameRoom : Int :=
  max 1 (max 3 (t.tabRoom.tdiv t.tabs.length) - if (t.tabs.length : Int) > 1 then 3 else 2)

/-- The tabs that are shown: the column, the name and the number of each. -/
def tabsShown : List (Int × Bytes × Nat) :=
  shelf (tabCells t.nameRoom t.crossed) t.tabRoom 0 t.barNames.zipIdx

/-- The columns of the first `i` tabs. -/
def cellsBefore (i : Nat) : Int := span (tabCells t.nameRoom t.crossed) (t.barNames.zipIdx.take i)

def gearSlot : Slot :=
  { x := max 1 t.w - 1 - kGearCells, w := kGearCells, tab := 0, kind := .settings, text := kGear }

/-- The field of the directory is the whole bar. -/
def fieldSlot : Slot :=
  { x := 0, w := max 1 t.w, tab := 0, kind := .settings, text := kGear ++ [0x20] ++ t.edit }

def plusSlot : Slot := { x := max 1 t.w - 1, w := 1, tab := 0, kind := .new, text := [0x2B] }

end Bar

variable {t : Terminal} {s s' : Slot}

theorem barSlots_of_tabs (hmode : t.mode ≠ .editingPath) (hw : 20 ≤ t.w) : t.barSlots =
    (t.tabsShown.flatMap fun q => slotsAt t.nameRoom t.crossed q.1 q.2) ++ [t.gearSlot, t.plusSlot] := by
  have hgear : max 1 t.w > kGearCells + 1 := by
    unfold kGearCells
    omega
  unfold barSlots
  simp only [if_neg hmode, if_pos hgear, tabSlots_eq]
  rw [List.append_assoc]
  rfl

theorem barSlots_of_field (hmode : t.mode = .editingPath) : t.barSlots = [t.fieldSlot] := by
  unfold barSlots
  exact if_pos hmode

/-- **Which tabs are shown**: those that end in the room of the tabs, after all those before them. -/
theorem mem_tabsShown {x : Int} {raw : Bytes} {i : Nat} : (x, raw, i) ∈ t.tabsShown ↔
    t.barNames[i]? = some raw ∧ x = t.cellsBefore i ∧
      t.cellsBefore i + tabCells t.nameRoom t.crossed (raw, i) ≤ t.tabRoom := by
  unfold tabsShown cellsBefore
  rw [mem_shelf fun p _ => tabCells_nonneg _ _ p]
  simp only [List.getElem?_zipIdx, Option.map_eq_some_iff, Nat.zero_add, Prod.mk.injEq, Int.zero_add]
  constructor
  · rintro ⟨j, ⟨_, hraw, rfl, rfl⟩, rfl, hroom⟩
    exact ⟨hraw, rfl, hroom⟩
  · rintro ⟨hraw, rfl, hroom⟩
    exact ⟨i, ⟨raw, hraw, rfl, rfl⟩, rfl, hroom⟩

theorem tabsShown_within {q : Int × Bytes × Nat} (hq : q ∈ t.tabsShown) :
    0 ≤ q.1 ∧ q.1 + tabCells t.nameRoom t.crossed q.2 ≤ t.tabRoom :=
  ⟨le_of_mem_shelf (fun p _ => tabCells_nonneg _ _ p) hq, shelf_room _ _ q hq⟩

theorem tabsShown_numbers (t : Terminal) : ∃ k ≤ t.tabs.length,
    t.tabsShown.map (fun q => q.2.2) = List.range k := by
  have hitems : t.tabsShown.map Prod.snd <+: t.barNames.zipIdx := shelf_items _ _
  have hfirst := hitems.map Prod.snd
  have hall : t.barNames.zipIdx.map Prod.snd = List.range t.tabs.length := by
    rw [List.zipIdx_map_snd, barNames, List.length_mapIdx, List.range_eq_range']
  rw [hall, List.map_map] at hfirst
  have htake := List.prefix_iff_eq_take.1 hfirst
  rw [List.take_range] at htake
  exact ⟨_, Nat.min_le_right _ _, htake⟩

/-! ### Its geometry -/

/-- How the slots of the bar stand. -/
structure Laid (t : Terminal) : Prop where
  /-- Each one ends before the next one begins. -/
  apart : t.barSlots.Pairwise fun s s' => s.x + s.w ≤ s'.x
  inside : ∀ s ∈ t.barSlots, 0 ≤ s.x ∧ 0 < s.w ∧ s.x + s.w ≤ t.w
  filled : t.mode ≠ .editingPath → ∀ s ∈ t.barSlots, (textCells s.text : Int) = s.w
  /-- The tabs that are shown are the first ones, in order. -/
  first : ∃ k ≤ t.tabs.length,
    (t.barSlots.filter fun s => s.kind = .select).map Slot.tab = List.range k

theorem slots_apart (t : Terminal) :
    (t.tabsShown.flatMap fun q => slotsAt t.nameRoom t.crossed q.1 q.2).Pairwise
      fun s s' => s.x + s.w ≤ s'.x := by
  rw [List.pairwise_flatMap]
  refine ⟨fun q _ => ?_, ?_⟩
  · unfold slotsAt
    split
    · simp
    · simp
  · refine (shelf_sorted (fun p _ => tabCells_nonneg _ _ p) 0).imp fun {q q'} hle s hs s' hs' => ?_
    have hend := (slotsAt_within hs).2.2.1
    have hbegin := (slotsAt_within hs').1
    omega

theorem selects_of_tab (nameMax : Int) (crosses : Bool) (x : Int) (p : Bytes × Nat) :
    ((slotsAt nameMax crosses x p).filter fun s => s.kind = .select).map Slot.tab = [p.2] := by
  cases crosses <;> simp [slotsAt]

theorem laid_of_tabs (hmode : t.mode ≠ .editingPath) (hw : 20 ≤ t.w) : t.Laid := by
  have hslots := barSlots_of_tabs hmode hw
  have hroom : t.tabRoom = t.w - 6 := by
    unfold tabRoom kGearCells
    omega
  have htab : ∀ s ∈ t.tabsShown.flatMap (fun q => slotsAt t.nameRoom t.crossed q.1 q.2),
      0 ≤ s.x ∧ 0 < s.w ∧ s.x + s.w ≤ t.w - 6 ∧ (textCells s.text : Int) = s.w := by
    intro s hs
    obtain ⟨q, hq, hs⟩ := List.mem_flatMap.1 hs
    obtain ⟨hfrom, hto⟩ := tabsShown_within hq
    obtain ⟨hbegin, hpos, hend, hfilled⟩ := slotsAt_within hs
    exact ⟨by omega, hpos, by omega, hfilled⟩
  have hgear : t.gearSlot.x = t.w - 4 ∧ t.gearSlot.w = 3 := by
    simp only [gearSlot, kGearCells, and_true]
    omega
  have hplus : t.plusSlot.x = t.w - 1 ∧ t.plusSlot.w = 1 := by
    simp only [plusSlot, and_true]
    omega
  refine ⟨?_, ?_, fun _ => ?_, ?_⟩
  · rw [hslots, List.pairwise_append]
    refine ⟨slots_apart t, ?_, fun s hs s' hs' => ?_⟩
    · simp only [List.pairwise_pair]
      omega
    · have hbefore := (htab s hs).2.2.1
      rcases List.mem_pair.1 hs' with rfl | rfl
      · omega
      · omega
  · rw [hslots]
    refine List.forall_mem_append.2 ⟨fun s hs => ?_, fun s hs => ?_⟩
    · obtain ⟨hfrom, hpos, hto, -⟩ := htab s hs
      omega
    · rcases List.mem_pair.1 hs with rfl | rfl
      · omega
      · omega
  · rw [hslots]
    refine List.forall_mem_append.2 ⟨fun s hs => (htab s hs).2.2.2, fun s hs => ?_⟩
    rcases List.mem_pair.1 hs with rfl | rfl
    · have hgear : textCells kGear = 3 := by decide +kernel
      simp only [gearSlot, hgear]
      rfl
    · have hplus : textCells [0x2B] = 1 := by decide +kernel
      simp only [plusSlot, hplus]
      rfl
  · obtain ⟨k, hk, hnumbers⟩ := tabsShown_numbers t
    refine ⟨k, hk, ?_⟩
    rw [hslots, List.filter_append, List.map_append, ← hnumbers, List.filter_flatMap, List.map_flatMap]
    simp only [selects_of_tab]
    rw [← List.map_eq_flatMap]
    exact List.append_nil _

/-- **The geometry of the bar.** -/
theorem laid_barSlots (t : Terminal) (hw : 20 ≤ t.w) : t.Laid := by
  by_cases hmode : t.mode = .editingPath
  · have hslots := barSlots_of_field hmode
    refine ⟨?_, ?_, fun hno => absurd hmode hno, 0, Nat.zero_le _, ?_⟩
    · rw [hslots]
      exact List.pairwise_singleton _ _
    · rw [hslots]
      refine List.forall_mem_singleton.2 ⟨le_refl _, ?_, ?_⟩
      · simp only [fieldSlot]
        omega
      · simp only [fieldSlot]
        omega
    · rw [hslots]
      rfl
  · exact laid_of_tabs hmode hw

/-- A window of `w` columns where `n` tabs were just opened. -/
def fresh (n : Nat) (w : Int) : Terminal :=
  { tabs := (List.range n).map fun i => { serial := i }, active := n - 1, w := w, opened := n,
    host := { win := 1, app := 0 }, fdGen := 0 }

theorem laid_barSlots_three : Laid (fresh 3 20) := laid_barSlots (fresh 3 20) (by decide)

end Terminal

end Sshos.Apps.Tabbed
