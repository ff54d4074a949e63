import Sshos.Apps.TabBar

/-!
# Sshos.Apps.TabShown

Whether the tab one **works in** is in the bar, and where the caret stands while it is renamed.

The tabs are laid out from the left whatever the tab that is looked at, and a tab has columns that
do not shrink with their number, whereas a tab that was just opened is the last one.
-/

namespace Sshos.Apps.Tabbed

open Sshos.Lib (Bytes span_append span_singleton)
open Sshos.Render (Pos textCells)

namespace Terminal

section Caret

variable (t : Terminal)

/-- The slot of the tab that is looked at. -/
def activeSlot : Option Slot := t.barSlots.find? fun s => decide (s.kind = .select ∧ s.tab = t.active)

/-- `Terminal::wants_cursor`: during a renaming, in the last cell of the slot, which is blank. -/
def wantsCursor : Option Pos :=
  match t.mode with
  | .renaming => t.activeSlot.map fun s => { x := s.x + s.w - 1, y := 0 }
  | .editingPath => some { x := min (kGearCells + 1 + textCells t.edit) (max 0 (t.w - 1)), y := 0 }
  | .normal =>
      let sink := t.activeTab.emulator.sink
      if ¬ sink.modes.cursorVisible ∨ t.activeTab.pty.exited then none
      -- the cursor is not on a page of the history
      else if (sink.screen.scrollback.map (·.offset)).getD 0 ≠ 0 then none
      else some { x := sink.screen.cx, y := sink.screen.cy + kBarRows }

end Caret

variable {t : Terminal}

/-- The tab that is looked at is in the bar, and the caret of a renaming is in its slot. -/
def ActiveShown (t : Terminal) : Prop :=
  ∃ s ∈ t.barSlots, s.kind = .select ∧ s.tab = t.active ∧
    (t.mode = .renaming → ∃ p, t.wantsCursor = some p ∧ s.x ≤ p.x ∧ p.x < s.x + s.w ∧ p.y = 0)

theorem cellsBefore_succ {i : Nat} {raw : Bytes} (h : t.barNames[i]? = some raw) :
    t.cellsBefore (i + 1) = t.cellsBefore i + tabCells t.nameRoom t.crossed (raw, i) := by
  have hlast : t.barNames.zipIdx[i]? = some (raw, i) := by
    rw [List.getElem?_zipIdx, h]
    simp
  unfold cellsBefore
  rw [List.take_add_one, hlast, Option.toList_some, span_append, span_singleton]

theorem length_barNames (t : Terminal) : t.barNames.length = t.tabs.length := List.length_mapIdx

theorem tabRoom_eq (hw : 20 ≤ t.w) : t.tabRoom = t.w - 6 := by
  unfold tabRoom kGearCells
  omega

/-- **Which tabs have a slot**: those for which there is room, after all those before them. -/
theorem exists_select_iff (hw : 20 ≤ t.w) (hmode : t.mode ≠ .editingPath) {i : Nat} :
    (∃ s ∈ t.barSlots, s.kind = .select ∧ s.tab = i) ↔
      i < t.tabs.length ∧ t.cellsBefore (i + 1) ≤ t.w - 6 := by
  rw [barSlots_of_tabs hmode hw, ← tabRoom_eq hw]
  constructor
  · rintro ⟨s, hs, hkind, rfl⟩
    rcases List.mem_append.1 hs with htab | hbutton
    · obtain ⟨⟨x, raw, i⟩, hq, hs⟩ := List.mem_flatMap.1 htab
      obtain ⟨hraw, -, hroom⟩ := mem_tabsShown.1 hq
      have hi : s.tab = i := by
        rcases mem_slotsAt.1 hs with rfl | ⟨-, rfl⟩
        · rfl
        · rfl
      rw [hi, cellsBefore_succ hraw, ← length_barNames]
      exact ⟨(List.getElem?_eq_some_iff.1 hraw).1, hroom⟩
    · rcases List.mem_pair.1 hbutton with rfl | rfl
      · cases hkind
      · cases hkind
  · rintro ⟨hi, hroom⟩
    rw [← length_barNames] at hi
    have hraw : t.barNames[i]? = some t.barNames[i] := List.getElem?_eq_getElem hi
    rw [cellsBefore_succ hraw] at hroom
    have hq : (t.cellsBefore i, t.barNames[i], i) ∈ t.tabsShown := mem_tabsShown.2 ⟨hraw, rfl, hroom⟩
    exact ⟨_, List.mem_append_left _ (List.mem_flatMap.2 ⟨_, hq, mem_slotsAt.2 (.inl rfl)⟩), rfl, rfl⟩

/-- **The tab one works in is shown** just when the tabs up to it have room together. -/
theorem activeShown_iff (t : Terminal) (hw : 20 ≤ t.w) (hmode : t.mode ≠ .editingPath) :
    t.ActiveShown ↔ t.active < t.tabs.length ∧ t.cellsBefore (t.active + 1) ≤ t.w - 6 := by
  rw [← exists_select_iff hw hmode]
  constructor
  · rintro ⟨s, hs, hkind, htab, -⟩
    exact ⟨s, hs, hkind, htab⟩
  · rintro ⟨s, hs, hkind, htab⟩
    -- the slot where the caret is put is the first one found
    cases hfound : t.activeSlot with
    | none =>
        have hnone := List.find?_eq_none.1 hfound s hs
        exact absurd (decide_eq_true ⟨hkind, htab⟩) hnone
    | some s' =>
        have hmem := List.mem_of_find?_eq_some hfound
        have hpick : decide (s'.kind = .select ∧ s'.tab = t.active) = true :=
          @List.find?_some _ _ s' t.barSlots hfound
        obtain ⟨hkind', htab'⟩ := of_decide_eq_true hpick
        refine ⟨s', hmem, hkind', htab', fun hrenaming => ⟨{ x := s'.x + s'.w - 1, y := 0 }, ?_, ?_⟩⟩
        · unfold wantsCursor
          rw [hrenaming]
          simp only [hfound, Option.map_some]
        · have hpos := ((laid_of_tabs hmode hw).inside s' hmem).2.1
          refine ⟨?_, Int.sub_one_lt_of_le (le_refl _), rfl⟩
          exact Int.le_sub_one_of_lt (Int.lt_add_of_pos_right _ hpos)

theorem activeShown_iff_three :
    (fresh 3 20).ActiveShown ↔ (fresh 3 20).active < (fresh 3 20).tabs.length ∧
      (fresh 3 20).cellsBefore ((fresh 3 20).active + 1) ≤ (fresh 3 20).w - 6 :=
  activeShown_iff (fresh 3 20) (by decide) (by decide)

/-- A fourth tab, opened in a window of twenty columns, is not in the bar. -/
theorem activeShown_not_always :
    ¬ ∀ t : Terminal, 20 ≤ t.w → t.mode ≠ .editingPath → t.ActiveShown := by
  intro h
  obtain ⟨s, hs, hkind, htab, -⟩ := h (fresh 4 20) (by decide) (by decide)
  have hnone : ∀ s ∈ (fresh 4 20).barSlots, ¬ (s.kind = .select ∧ s.tab = 3) := by decide +kernel
  exact hnone s hs ⟨hkind, htab⟩

end Terminal

end Sshos.Apps.Tabbed
