import Sshos.Apps.TabShown
import Sshos.Lib.Lists
import Sshos.Render.Ink

/-!
# Sshos.Apps.TabClicks

The bar of the tabs as it is **painted**, against what a press there does.

The drawing and the click go by one layout. But a press first ends what is being typed, and is
then understood with the layout that follows, which is not always the one that is painted.
-/

namespace Sshos.Apps.Tabbed

open Sshos.Input (MouseEvent)
open Sshos.Lib (Bytes decimal find?_reverse_of_unique span span_take_mono)
open Sshos.Render (Printable Rect Stroke Style View cellsFrom elideToCells textCells textCells_pos
  textCells_printable textCells_printable_append)

/-- What there is in the bar. -/
inductive BarPart where
  | tab (i : Nat)
  | cross (i : Nat)
  | plus
  | gear
  deriving DecidableEq

namespace Terminal

namespace Slot

variable (s : Slot)

def part : BarPart :=
  match s.kind with
  | .select => .tab s.tab
  | .close => .cross s.tab
  | .new => .plus
  | .settings => .gear

/-- The slot takes this column. -/
def Has (x : Int) : Prop := s.x ≤ x ∧ x < s.x + s.w

instance (x : Int) : Decidable (s.Has x) := inferInstanceAs (Decidable (_ ∧ _))

end Slot

section Window

variable (t : Terminal)

/-! ### The drawing -/

def slotStyle (s : Slot) : Style :=
  match s.kind with
  | .new => { fg := .indexed 2, attrs := Render.Attr.bold }
  | .close => { fg := .indexed 1 }
  | .settings => if t.mode = .editingPath then { attrs := Render.Attr.reverse } else {}
  | .select =>
      if s.tab = t.active then
        { attrs := if t.mode = .renaming then Render.Attr.reverse ||| Render.Attr.underline else Render.Attr.reverse }
      else { attrs := Render.Attr.dim }

/-- The field of the directory and the tab that is looked at are filled. -/
def slotFilled (s : Slot) : Bool :=
  match s.kind with
  | .settings => t.mode = .editingPath
  | .select => s.tab = t.active
  | _ => false

def drawSlot (v : View) (s : Slot) : List (Stroke BarPart) :=
  let st := t.slotStyle s
  (if t.slotFilled s then
    [{ owner := fun _ _ => s.part, view := v
       drawing := .fill { x := s.x, y := 0, w := s.w, h := kBarRows } st }]
  else []) ++
    [{ owner := fun _ _ => s.part, view := v, drawing := .text s.x 0 s.text st }]

/-- `Terminal::draw_bar`. -/
def drawBar (v : View) : List (Stroke BarPart) := t.barSlots.flatMap (t.drawSlot v)

/-- What is painted at a column of the bar, on a window of some rows. -/
def painted (rows x : Nat) : Option BarPart :=
  Stroke.lastPainter false t.w.toNat rows (t.drawBar (View.screen t.w.toNat rows)) x 0

/-! ### The click -/

/-- What the layout has at a column. -/
def partAt (x : Int) : Option BarPart := (t.barSlots.find? fun s => decide (s.Has x)).map Slot.part

/-- What a click on a part of the bar does. -/
def perform (master : Option Nat) : BarPart → Terminal
  | .tab i => if i = t.active then t.beginRename else t.selectTab i
  | .cross i => t.closeTab i
  | .plus => t.openTab master
  | .gear => t.beginPathEdit

/-- What was being typed is ended. -/
def committed : Terminal := t.commitRename.commitPathEdit

/-- A press on the bar does what is painted at its column, unless all it does is to end what was
being typed. -/
def DoesAsShown (rows : Nat) : Prop :=
  ∀ (m : MouseEvent) (master : Option Nat), m.action = .press → m.y < kBarRows →
    t.onMouse m master = t.committed ∨
      ∃ part, 0 ≤ m.x ∧ t.painted rows m.x.toNat = some part ∧
        t.onMouse m master = t.committed.perform master part

end Window

variable {t : Terminal} {x : Int} {part : BarPart}

theorem barClick_eq (t : Terminal) (x : Int) (master : Option Nat) : t.barClick x master =
    match t.partAt x with
    | none => t
    | some part => t.perform master part := by
  unfold barClick partAt
  have hsame : (t.barSlots.find? fun s => decide (s.x ≤ x ∧ x < s.x + s.w)) =
      t.barSlots.find? fun s => decide (s.Has x) := rfl
  rw [hsame]
  cases t.barSlots.find? fun s => decide (s.Has x) with
  | none => rfl
  | some s =>
      simp only [Option.map_some, Slot.part]
      cases s.kind with
      | select => rfl
      | close => rfl
      | new => rfl
      | settings => rfl

theorem onMouse_press {m : MouseEvent} (hpress : m.action = .press) (hbar : m.y < kBarRows)
    (master : Option Nat) : t.onMouse m master =
      match t.committed.partAt m.x with
      | none => t.committed
      | some part => t.committed.perform master part := by
  unfold onMouse
  simp only [if_pos hpress, if_pos hbar]
  exact barClick_eq t.committed m.x master

/-! ### The layout, read both ways -/

/-- No two slots have a column in common. -/
theorem Laid.unique (h : t.Laid) : ∀ s ∈ t.barSlots, ∀ s' ∈ t.barSlots, s.Has x → s'.Has x → s = s' := by
  have hapart : t.barSlots.Pairwise fun s s' => s.Has x → s'.Has x → s = s' := by
    refine h.apart.imp fun {s s'} hle hs hs' => ?_
    unfold Slot.Has at hs hs'
    omega
  have hflip : t.barSlots.Pairwise (flip fun s s' => s.Has x → s'.Has x → s = s') :=
    hapart.imp fun h hs' hs => (h hs hs').symm
  exact fun s hs s' hs' =>
    List.Pairwise.forall_of_forall_of_flip (fun _ _ _ _ => rfl) hapart hflip hs hs'

theorem Laid.partAt_iff (h : t.Laid) :
    t.partAt x = some part ↔ ∃ s ∈ t.barSlots, s.Has x ∧ s.part = part := by
  unfold partAt
  rw [Option.map_eq_some_iff]
  constructor
  · rintro ⟨s, hs, hpart⟩
    have hhas : decide (s.Has x) = true := @List.find?_some _ _ s t.barSlots hs
    exact ⟨s, List.mem_of_find?_eq_some hs, of_decide_eq_true hhas, hpart⟩
  · rintro ⟨s, hs, hhas, hpart⟩
    cases hfound : t.barSlots.find? fun s => decide (s.Has x) with
    | none => exact absurd (decide_eq_true hhas) (List.find?_eq_none.1 hfound s hs)
    | some s' =>
        have hhas' : decide (s'.Has x) = true := @List.find?_some _ _ s' t.barSlots hfound
        have hsame := h.unique s hs s' (List.mem_of_find?_eq_some hfound) hhas (of_decide_eq_true hhas')
        exact ⟨s', rfl, hsame ▸ hpart⟩

/-- The columns of the number and the name of a tab that is shown are the tab's. -/
theorem partAt_of_shown (hw : 20 ≤ t.w) (hmode : t.mode ≠ .editingPath) {y : Int} {raw : Bytes} {i : Nat}
    (hq : (y, raw, i) ∈ t.tabsShown)
    (hx : y ≤ x ∧ x < y + textCells (tabText t.nameRoom i raw)) : t.partAt x = some (.tab i) := by
  refine (laid_barSlots t hw).partAt_iff.2
    ⟨{ x := y, w := textCells (tabText t.nameRoom i raw), tab := i, kind := .select,
       text := tabText t.nameRoom i raw }, ?_, hx, rfl⟩
  rw [barSlots_of_tabs hmode hw]
  exact List.mem_append_left _ (List.mem_flatMap.2 ⟨_, hq, mem_slotsAt.2 (.inl rfl)⟩)

theorem owner_drawSlot {v : View} {s : Slot} {k : Stroke BarPart} (hk : k ∈ t.drawSlot v s) (a b : Nat) :
    k.owner a b = s.part := by
  unfold drawSlot at hk
  rcases List.mem_append.1 hk with hfill | htext
  · split at hfill
    · rw [List.mem_singleton.1 hfill]
    · cases hfill
  · rw [List.mem_singleton.1 htext]

section Painted

variable {rows c : Nat} {s : Slot}

/-- A slot is painted all over. -/
theorem exists_ink_of_has (hw : 20 ≤ t.w) (hrows : 0 < rows) (hc : c < t.w.toNat) (hs : s ∈ t.barSlots)
    (hhas : s.Has c) : ∃ k ∈ t.drawSlot (View.screen t.w.toNat rows) s,
      (c, 0) ∈ k.ink false t.w.toNat rows := by
  have hlaid := laid_barSlots t hw
  obtain ⟨hfrom, -, hto⟩ := hlaid.inside s hs
  by_cases hmode : t.mode = .editingPath
  · rw [barSlots_of_field hmode] at hs
    obtain rfl := List.mem_singleton.1 hs
    have hfilled : t.slotFilled t.fieldSlot = true := decide_eq_true hmode
    let r : Rect := { x := 0, y := 0, w := max 1 t.w, h := kBarRows }
    have hin : r.contains c 0 := Rect.contains_iff.2 ⟨hhas.1, le_refl _, hhas.2, Int.one_pos⟩
    refine ⟨{ owner := fun _ _ => t.fieldSlot.part, view := View.screen t.w.toNat rows
              drawing := .fill r (t.slotStyle t.fieldSlot) },
      List.mem_append_left _ ?_, (View.mem_fillInk_screen hc hrows).2 hin⟩
    rw [if_pos hfilled]
    exact List.mem_singleton_self _
  · have hfilled := hlaid.filled hmode s hs
    have hcells : (cellsFrom s.text s.text.length 0 : Int) = s.w := hfilled
    refine ⟨_, List.mem_append_right _ (List.mem_singleton_self _), ?_⟩
    refine View.mem_textInk_of_room hc hrows rfl _ _ hfrom hhas.1 ?_ ?_
    · rw [hcells]
      exact hhas.2
    · rw [hcells]
      omega

/-- And nowhere else. -/
theorem has_of_ink (hw : 20 ≤ t.w) (hrows : 0 < rows) (hc : c < t.w.toNat) (hs : s ∈ t.barSlots)
    {k : Stroke BarPart} (hk : k ∈ t.drawSlot (View.screen t.w.toNat rows) s)
    (hink : (c, 0) ∈ k.ink false t.w.toNat rows) : s.Has c := by
  have hlaid := laid_barSlots t hw
  unfold drawSlot at hk
  rcases List.mem_append.1 hk with hfill | htext
  · split at hfill
    · rw [List.mem_singleton.1 hfill] at hink
      have hin := (View.mem_fillInk_screen hc hrows).1 hink
      rw [Rect.contains_iff] at hin
      exact ⟨hin.1, hin.2.2.1⟩
    · cases hfill
  · by_cases hmode : t.mode = .editingPath
    · rw [barSlots_of_field hmode] at hs
      obtain rfl := List.mem_singleton.1 hs
      constructor
      · exact Int.natCast_nonneg c
      · simp only [fieldSlot]
        omega
    · rw [List.mem_singleton.1 htext] at hink
      have hcells : (cellsFrom s.text s.text.length 0 : Int) = s.w := hlaid.filled hmode s hs
      have hplace := View.textInk_inside _ hink
      rw [hcells] at hplace
      simp only [View.screen, Int.zero_add] at hplace
      exact ⟨hplace.2.1, hplace.2.2⟩

/-- **What is painted is what the layout has.** -/
theorem painted_eq (hw : 20 ≤ t.w) (hrows : 0 < rows) (hc : c < t.w.toNat) :
    t.painted rows c = t.partAt c := by
  have hlaid := laid_barSlots t hw
  unfold painted drawBar partAt
  rw [← List.nil_append (t.barSlots.flatMap _), Stroke.lastPainter_flatMap (fun s => s.Has c) Slot.part,
    find?_reverse_of_unique]
  · cases t.barSlots.find? fun s => decide (s.Has c) with
    | none => rfl
    | some s => rfl
  · intro a ha b hb hhas hhas'
    exact hlaid.unique a ha b hb (of_decide_eq_true hhas) (of_decide_eq_true hhas')
  · intro s hs hhas
    obtain ⟨k, hk, hink⟩ := exists_ink_of_has hw hrows hc hs hhas
    rw [← List.nil_append (t.drawSlot _ s)]
    exact Stroke.lastPainter_of_agree [] k hk hink fun l hl _ => owner_drawSlot hl c 0
  · intro s hs hhas k hk hink
    exact hhas (has_of_ink hw hrows hc hs hk hink)

end Painted

/-! ### The layout a press is understood with -/

section Window

variable (t : Terminal)

/-- The names of the tabs, the one that is looked at going by the title of its guest. -/
def guestNames : List Bytes :=
  t.tabs.mapIdx fun i tab => if i = t.active then tab.emulator.sink.guestTitle else tab.name

/-- There is room for the tab that is looked at under the title of its guest. -/
def GuestFits : Prop :=
  t.active < t.tabs.length ∧
    span (tabCells t.nameRoom t.crossed) (t.guestNames.zipIdx.take (t.active + 1)) ≤ t.w - 6

end Window

variable {s : Terminal}

theorem committed_of_normal (h : t.mode = .normal) : t.committed = t := by
  have hrename : t.commitRename = t := if_pos (by simp [h])
  unfold committed
  rw [hrename]
  exact if_pos (by simp [h])

theorem committed_of_field (h : t.mode = .editingPath) :
    t.committed = { t with configured := t.edit, mode := .normal, edit := [] } := by
  have hrename : t.commitRename = t := if_pos (by simp [h])
  unfold committed
  rw [hrename]
  exact if_neg (by simp [h])

theorem committed_of_renaming (h : t.mode = .renaming) : t.committed =
    Terminal.retitle { t.update t.active (fun tab => { tab with customTitle := t.edit }) with
      mode := .normal, edit := [] } := by
  have hrename : t.commitRename = _ := if_neg (by simp [h])
  unfold committed
  rw [hrename]
  exact if_pos (by simp [retitle])

theorem mode_committed (t : Terminal) : t.committed.mode = .normal := by
  cases hmode : t.mode with
  | normal => rw [committed_of_normal hmode, hmode]
  | «renaming» => rw [committed_of_renaming hmode]; rfl
  | editingPath => rw [committed_of_field hmode]

/-- A press keeps the window's width, and the number of its tabs. -/
theorem committed_size (t : Terminal) : t.committed.w = t.w ∧ t.committed.active = t.active ∧
    t.committed.tabs.length = t.tabs.length := by
  cases hmode : t.mode with
  | normal => rw [committed_of_normal hmode]; exact ⟨rfl, rfl, rfl⟩
  | «renaming» =>
      rw [committed_of_renaming hmode]
      exact ⟨rfl, rfl, List.length_modify _ _ _⟩
  | editingPath => rw [committed_of_field hmode]; exact ⟨rfl, rfl, rfl⟩

theorem barNames_of_normal (h : t.mode = .normal) : t.barNames = t.tabs.map Tab.name := by
  unfold barNames
  refine List.ext_getElem? fun i => ?_
  rw [List.getElem?_mapIdx, List.getElem?_map]
  refine congrFun (congrArg _ (funext fun tab => if_neg fun hno => ?_)) _
  rw [h] at hno
  cases hno.1

/-- The names after a press: what was typed is the name of the tab, unless nothing was. -/
theorem barNames_committed (h : t.mode = .renaming) :
    t.committed.barNames = if t.edit = [] then t.guestNames else t.barNames := by
  have htabs : t.committed.tabs = t.tabs.modify t.active fun tab => { tab with customTitle := t.edit } := by
    rw [committed_of_renaming h]
    rfl
  rw [barNames_of_normal (mode_committed t), htabs]
  refine List.ext_getElem? fun i => ?_
  rw [List.getElem?_map, List.getElem?_modify]
  by_cases hempty : t.edit = []
  · rw [if_pos hempty, guestNames, List.getElem?_mapIdx]
    by_cases hi : t.active = i
    · subst hi
      cases t.tabs[t.active]? with
      | none => rfl
      | some tab => simp [Tab.name, hempty]
    · simp [hi, Ne.symm hi]
  · rw [if_neg hempty, barNames, List.getElem?_mapIdx]
    by_cases hi : t.active = i
    · subst hi
      cases t.tabs[t.active]? with
      | none => rfl
      | some tab => simp [Tab.name, hempty, h]
    · simp [hi, Ne.symm hi]

/-- The layout goes by the width, the number of the tabs, and their names. -/
theorem nameRoom_congr (hw : s.w = t.w) (hn : s.tabs.length = t.tabs.length) :
    s.nameRoom = t.nameRoom ∧ s.crossed = t.crossed ∧ s.tabRoom = t.tabRoom := by
  unfold nameRoom crossed tabRoom
  rw [hw, hn]
  exact ⟨rfl, rfl, rfl⟩

theorem cellsBefore_congr (hw : s.w = t.w) (hn : s.tabs.length = t.tabs.length) {i : Nat}
    (hnames : ∀ j < i, s.barNames[j]? = t.barNames[j]?) : s.cellsBefore i = t.cellsBefore i := by
  obtain ⟨hname, hcross, -⟩ := nameRoom_congr hw hn
  have htake : s.barNames.zipIdx.take i = t.barNames.zipIdx.take i := by
    refine List.ext_getElem? fun j => ?_
    rw [List.getElem?_take, List.getElem?_take]
    split
    next hj => rw [List.getElem?_zipIdx, List.getElem?_zipIdx, hnames j hj]
    next => rfl
  unfold cellsBefore
  rw [hname, hcross, htake]

/-- A bar that shows fewer tabs, where they stand, has no other slots. -/
theorem barSlots_subset (hwide : 20 ≤ t.w) (hw : s.w = t.w) (hn : s.tabs.length = t.tabs.length)
    (hs : s.mode ≠ .editingPath) (ht : t.mode ≠ .editingPath) (hshown : s.tabsShown ⊆ t.tabsShown) :
    s.barSlots ⊆ t.barSlots := by
  obtain ⟨hname, hcross, -⟩ := nameRoom_congr hw hn
  have hbuttons : s.gearSlot = t.gearSlot ∧ s.plusSlot = t.plusSlot := by
    unfold gearSlot plusSlot
    rw [hw]
    exact ⟨rfl, rfl⟩
  rw [barSlots_of_tabs hs (hw ▸ hwide), barSlots_of_tabs ht hwide, hname, hcross, hbuttons.1, hbuttons.2]
  intro slot hslot
  rcases List.mem_append.1 hslot with htab | hbutton
  · obtain ⟨q, hq, hslot⟩ := List.mem_flatMap.1 htab
    exact List.mem_append_left _ (List.mem_flatMap.2 ⟨q, hshown hq, hslot⟩)
  · exact List.mem_append_right _ hbutton

/-- Tabs with the same names are shown where they were. -/
theorem tabsShown_subset (hw : s.w = t.w) (hn : s.tabs.length = t.tabs.length)
    (hnames : ∀ x raw i, (x, raw, i) ∈ s.tabsShown → ∀ j ≤ i, s.barNames[j]? = t.barNames[j]?) :
    s.tabsShown ⊆ t.tabsShown := by
  obtain ⟨hname, hcross, hroom⟩ := nameRoom_congr hw hn
  rintro ⟨x, raw, i⟩ hq
  have hsame := hnames x raw i hq
  have hbefore := cellsBefore_congr hw hn fun j hj => hsame j hj.le
  rw [mem_tabsShown] at hq ⊢
  rwa [hsame i (le_refl i), hbefore, hname, hcross, hroom] at hq

/-- Where the layout after a press has nothing that was not there before, the bar does what it
shows. -/
theorem doesAsShown_of_subset {rows : Nat} (hw : 20 ≤ t.w) (hrows : 0 < rows)
    (hsub : t.committed.barSlots ⊆ t.barSlots) : t.DoesAsShown rows := by
  have hlaid := laid_barSlots t hw
  have hlaid' := laid_barSlots t.committed ((committed_size t).1 ▸ hw)
  intro m master hpress hbar
  rw [onMouse_press hpress hbar]
  cases hpart : t.committed.partAt m.x with
  | none => exact .inl rfl
  | some part =>
      obtain ⟨slot, hslot, hhas, rfl⟩ := hlaid'.partAt_iff.1 hpart
      obtain ⟨hfrom, -, hto⟩ := hlaid.inside slot (hsub hslot)
      have hhas' := hhas
      unfold Slot.Has at hhas'
      have hx : ((m.x.toNat : Nat) : Int) = m.x := Int.toNat_of_nonneg (by omega)
      refine .inr ⟨_, by omega, ?_, rfl⟩
      rw [painted_eq hw hrows (by omega), hx]
      exact hlaid.partAt_iff.2 ⟨slot, hsub hslot, hhas, rfl⟩

theorem guestNames_of_ne {i : Nat} (hi : i ≠ t.active) : t.guestNames[i]? = t.barNames[i]? := by
  simp [guestNames, barNames, hi]

/-- While a tab is renamed, the tabs before it do not move. -/
theorem cellsBefore_committed (h : t.mode = .renaming) :
    t.committed.cellsBefore t.active = t.cellsBefore t.active := by
  obtain ⟨hw, -, hn⟩ := committed_size t
  refine cellsBefore_congr hw hn fun j hj => ?_
  rw [barNames_committed h]
  split
  · exact guestNames_of_ne hj.ne
  · rfl

/-- With no room for the tab under the title of its guest, only tabs before it are shown. -/
theorem lt_active_of_shown (hw : 20 ≤ t.w) (h : t.mode = .renaming) (hempty : t.edit = [])
    (hfits : ¬ t.GuestFits) {x : Int} {raw : Bytes} {i : Nat} (hq : (x, raw, i) ∈ t.committed.tabsShown) :
    i < t.active := by
  obtain ⟨hw', -, hn⟩ := committed_size t
  obtain ⟨hname, hcross, -⟩ := nameRoom_congr hw' hn
  have hnames : t.committed.barNames = t.guestNames := (barNames_committed h).trans (if_pos hempty)
  obtain ⟨hraw, -, hroom⟩ := mem_tabsShown.1 hq
  rw [tabRoom_eq (hw' ▸ hw), hw'] at hroom
  have hlt : i < t.committed.barNames.length := (List.getElem?_eq_some_iff.1 hraw).1
  rw [length_barNames, hn] at hlt
  refine Nat.lt_of_not_le fun hle => hfits ⟨hle.trans_lt hlt, ?_⟩
  have hmono : span (tabCells t.nameRoom t.crossed) (t.committed.barNames.zipIdx.take (t.active + 1)) ≤
      span (tabCells t.nameRoom t.crossed) (t.committed.barNames.zipIdx.take (i + 1)) :=
    span_take_mono (fun p _ => tabCells_nonneg _ _ p) (Nat.succ_le_succ hle)
  have hspan : t.committed.cellsBefore (i + 1) = _ := cellsBefore_succ hraw
  unfold cellsBefore at hspan hroom
  rw [hname, hcross] at hspan hroom
  rw [← hspan] at hroom
  rw [← hnames]
  exact hmono.trans hroom

theorem subset_committed (hw : 20 ≤ t.w) (hmode : t.mode ≠ .editingPath)
    (hguest : ¬ (t.mode = .renaming ∧ t.edit = [] ∧ t.activeTab.emulator.sink.guestTitle ≠ [] ∧
      t.GuestFits)) : t.committed.barSlots ⊆ t.barSlots := by
  cases hcase : t.mode with
  | normal =>
      rw [committed_of_normal hcase]
      exact fun _ hs => hs
  | editingPath => exact absurd hcase hmode
  | «renaming» =>
      obtain ⟨hw', -, hn⟩ := committed_size t
      have hmode' : t.committed.mode ≠ .editingPath := by simp [mode_committed t]
      refine barSlots_subset hw hw' hn hmode' hmode (tabsShown_subset hw' hn ?_)
      intro x raw i hq j hj
      rw [barNames_committed hcase]
      split
      next hempty =>
        by_cases hother : j = t.active
        · -- either it goes by no name at all before and after, or it is not shown
          have hnone : t.activeTab.emulator.sink.guestTitle = [] := by
            by_contra hsome
            have hfits : ¬ t.GuestFits := fun hfits => hguest ⟨hcase, hempty, hsome, hfits⟩
            have hlt := lt_active_of_shown hw hcase hempty hfits hq
            omega
          subst hother
          unfold guestNames barNames
          rw [List.getElem?_mapIdx, List.getElem?_mapIdx]
          cases htab : t.tabs[t.active]? with
          | none => rfl
          | some tab =>
              have hactive : t.activeTab = tab := by
                unfold activeTab Terminal.tab
                rw [List.getD_eq_getElem?_getD, htab]
                rfl
              rw [hactive] at hnone
              simp [hcase, hempty, hnone]
        · exact guestNames_of_ne hother
      next => rfl

/-! ### Where they part -/

/-- In the field of the directory, a press on the last column opens a tab. -/
theorem not_doesAsShown_of_field {rows : Nat} (hw : 20 ≤ t.w) (hrows : 0 < rows)
    (hmode : t.mode = .editingPath) : ¬ t.DoesAsShown rows := by
  obtain ⟨hw', -, -⟩ := committed_size t
  have hlaid' := laid_barSlots t.committed (hw' ▸ hw)
  have hmode' : t.committed.mode ≠ .editingPath := by simp [mode_committed t]
  have hplus : t.committed.partAt (t.w - 1) = some .plus := by
    refine hlaid'.partAt_iff.2 ⟨t.committed.plusSlot, ?_, ?_, rfl⟩
    · rw [barSlots_of_tabs hmode' (hw' ▸ hw)]
      exact List.mem_append_right _ (List.mem_cons_of_mem _ List.mem_cons_self)
    · simp only [Slot.Has, plusSlot, hw']
      omega
  have hgear : t.painted rows (t.w - 1).toNat = some .gear := by
    rw [painted_eq hw hrows (by omega)]
    refine (laid_barSlots t hw).partAt_iff.2 ⟨t.fieldSlot, ?_, ?_, rfl⟩
    · rw [barSlots_of_field hmode]
      exact List.mem_singleton_self _
    · simp only [Slot.Has, fieldSlot]
      omega
  intro h
  have hbar : (0 : Int) < kBarRows := by decide
  have hdone := h { x := t.w - 1 } none rfl hbar
  rw [onMouse_press rfl hbar, hplus] at hdone
  rcases hdone with hsame | ⟨part, -, hpainted, hsame⟩
  · have hopened := congrArg Terminal.opened hsame
    exact absurd hopened (Nat.succ_ne_self _)
  · rw [hgear] at hpainted
    cases hpainted
    have hnormal : t.committed.mode = .editingPath := congrArg Terminal.mode hsame
    exact hmode' hnormal

/-- Only the tab that is looked at is renamed by a press. -/
theorem mode_perform (hmode : t.mode = .normal) (hpart : part ≠ .tab t.active) :
    (t.perform none part).mode ≠ .renaming := by
  cases part with
  | tab i =>
      have hi : i ≠ t.active := fun hi => hpart (hi ▸ rfl)
      simp only [perform, if_neg hi, selectTab]
      split
      · simp [hmode]
      · simp [retitle, hmode]
  | cross i =>
      simp only [perform, closeTab]
      split
      · simp [hmode]
      · split
        · simp [hmode]
        · simp [retitle, hmode]
  | plus =>
      have hsame : (t.perform none .plus).mode = t.mode := rfl
      simp [hsame, hmode]
  | gear =>
      have hedit : (t.perform none .gear).mode = .editingPath := rfl
      simp [hedit]

/-- The slot of a tab. -/
theorem slot_of_tab (hw : 20 ≤ t.w) (hmode : t.mode ≠ .editingPath) {slot : Slot} {i : Nat}
    (hslot : slot ∈ t.barSlots) (hpart : slot.part = .tab i) : ∃ raw, t.barNames[i]? = some raw ∧
      slot.x = t.cellsBefore i ∧ slot.w = textCells (tabText t.nameRoom i raw) := by
  rw [barSlots_of_tabs hmode hw] at hslot
  rcases List.mem_append.1 hslot with htab | hbutton
  · obtain ⟨⟨x, raw, j⟩, hq, hslot⟩ := List.mem_flatMap.1 htab
    obtain ⟨hraw, hx, -⟩ := mem_tabsShown.1 hq
    rcases mem_slotsAt.1 hslot with rfl | ⟨-, rfl⟩
    · cases hpart
      exact ⟨raw, hraw, hx, rfl⟩
    · cases hpart
  · rcases List.mem_pair.1 hbutton with rfl | rfl
    · cases hpart
    · cases hpart

/-- A tab that has a name takes more columns. -/
theorem textCells_tabText_lt (nameMax : Int) (i : Nat) {raw : Bytes} (hraw : raw ≠ []) :
    textCells (tabText nameMax i []) < textCells (tabText nameMax i raw) := by
  have hdigits := printable_decimal (i + 1)
  have hblank : ∀ b ∈ ([0x20] : Bytes), Printable b := List.forall_mem_singleton.2 (by decide)
  have hfront : ∀ b ∈ [0x20] ++ decimal (i + 1), Printable b := List.forall_mem_append.2 ⟨hblank, hdigits⟩
  have hcolon : ∀ b ∈ [0x20] ++ decimal (i + 1) ++ [0x3A], Printable b :=
    List.forall_mem_append.2 ⟨hfront, List.forall_mem_singleton.2 (by decide)⟩
  unfold tabText
  simp only [if_pos, if_neg hraw]
  generalize elideToCells raw _ kEllipsis = name
  have hname : 0 < textCells (name ++ [0x20]) :=
    textCells_pos (List.mem_append_right _ (List.mem_singleton_self 0x20)) (by decide)
  have hwith : [0x20] ++ (decimal (i + 1) ++ [0x3A] ++ name) ++ [0x20] =
      ([0x20] ++ decimal (i + 1) ++ [0x3A]) ++ (name ++ [0x20]) := by
    simp only [List.append_assoc]
  rw [hwith, textCells_printable_append hfront, textCells_printable_append hcolon,
    textCells_printable hblank]
  simp only [List.length_append, List.length_singleton]
  omega

/-- A name that is emptied is painted up to its number. -/
theorem painted_ne_of_emptied {rows : Nat} (hw : 20 ≤ t.w) (hrows : 0 < rows) (hmode : t.mode = .renaming)
    (hempty : t.edit = []) (hlt : t.active < t.tabs.length) {c : Int} (hpos : 0 ≤ c)
    (hin : c.toNat < t.w.toNat)
    (hc : t.cellsBefore t.active + textCells (tabText t.nameRoom t.active []) ≤ c) :
    t.painted rows c.toNat ≠ some (.tab t.active) := by
  have hinside : (c.toNat : Int) = c := Int.toNat_of_nonneg hpos
  intro hpainted
  rw [painted_eq hw hrows hin, hinside] at hpainted
  obtain ⟨slot, hslot, hhas, hof⟩ := (laid_barSlots t hw).partAt_iff.1 hpainted
  obtain ⟨raw, hraw, hx, hwidth⟩ := slot_of_tab hw (by simp [hmode]) hslot hof
  have hnone : [] = raw := by
    simpa [barNames, hmode, hempty, List.getElem?_eq_getElem hlt] using hraw
  unfold Slot.Has at hhas
  rw [hx, hwidth, ← hnone] at hhas
  omega

/-- A name that was emptied: the press right after the slot of its tab falls on the title of the
guest. -/
theorem not_doesAsShown_of_emptied {rows : Nat} (hw : 20 ≤ t.w) (hrows : 0 < rows)
    (hmode : t.mode = .renaming) (hempty : t.edit = [])
    (hsome : t.activeTab.emulator.sink.guestTitle ≠ []) (hfits : t.GuestFits) :
    ¬ t.DoesAsShown rows := by
  obtain ⟨hw', hactive', hn⟩ := committed_size t
  obtain ⟨hname, hcross, -⟩ := nameRoom_congr hw' hn
  have hwide' : 20 ≤ t.committed.w := hw' ▸ hw
  have hlaid' := laid_barSlots t.committed hwide'
  have hnormal := mode_committed t
  have hnames : t.committed.barNames = t.guestNames := (barNames_committed hmode).trans (if_pos hempty)
  obtain ⟨hlt, hroom⟩ := hfits
  -- the slot of the tab after the press
  have hguest : t.committed.barNames[t.active]? = some t.activeTab.emulator.sink.guestTitle := by
    rw [hnames, guestNames, List.getElem?_mapIdx]
    simp [activeTab, tab, List.getElem?_eq_getElem hlt]
  have hbefore := cellsBefore_committed hmode
  have hshown : (t.cellsBefore t.active, t.activeTab.emulator.sink.guestTitle, t.active) ∈
      t.committed.tabsShown := by
    refine mem_tabsShown.2 ⟨hguest, hbefore.symm, ?_⟩
    rw [← cellsBefore_succ hguest, tabRoom_eq hwide', hw']
    unfold cellsBefore
    rw [hname, hcross, hnames]
    exact hroom
  have hlonger := textCells_tabText_lt t.nameRoom t.active hsome
  have hpos := textCells_tabText_pos t.nameRoom t.active []
  generalize hc : t.cellsBefore t.active + textCells (tabText t.nameRoom t.active []) = c
  have hpress : t.committed.partAt c = some (.tab t.active) := by
    refine partAt_of_shown hwide' (by simp [hnormal]) hshown ?_
    rw [hname]
    omega
  have hrenamed : t.committed.perform none (.tab t.active) = t.committed.beginRename :=
    if_pos hactive'.symm
  have hbar : (0 : Int) < kBarRows := by decide
  intro h
  have hdone := h { x := c } none rfl hbar
  rw [onMouse_press rfl hbar, hpress] at hdone
  simp only [hrenamed] at hdone
  rcases hdone with hsame | ⟨part, hpos, hpainted, hsame⟩
  · have hmode' : EditMode.renaming = t.committed.mode := congrArg Terminal.mode hsame
    rw [hnormal] at hmode'
    cases hmode'
  · by_cases hpart : part = .tab t.active
    · -- the slot as it is painted ends there
      have hin : c.toNat < t.w.toNat := by
        obtain ⟨slot, hslot, hhas, -⟩ := hlaid'.partAt_iff.1 hpress
        have hto := (hlaid'.inside slot hslot).2.2
        unfold Slot.Has at hhas
        omega
      rw [hpart] at hpainted
      exact painted_ne_of_emptied hw hrows hmode hempty hlt hpos hin hc.le hpainted
    · have hmode' : EditMode.renaming = (t.committed.perform none part).mode := congrArg Terminal.mode hsame
      exact mode_perform hnormal (hactive' ▸ hpart) hmode'.symm

/-- **The bar does what it shows** except in the field of the directory, and where a name that was
emptied leaves its tab with the title of the guest, which takes more room. -/
theorem doesAsShown_iff (t : Terminal) {rows : Nat} (hw : 20 ≤ t.w) (hrows : 0 < rows) :
    t.DoesAsShown rows ↔ t.mode ≠ .editingPath ∧
      ¬ (t.mode = .renaming ∧ t.edit = [] ∧ t.activeTab.emulator.sink.guestTitle ≠ [] ∧ t.GuestFits) := by
  constructor
  · intro h
    refine ⟨fun hmode => not_doesAsShown_of_field hw hrows hmode h, ?_⟩
    rintro ⟨hmode, hempty, hsome, hfits⟩
    exact not_doesAsShown_of_emptied hw hrows hmode hempty hsome hfits h
  · rintro ⟨hmode, hguest⟩
    exact doesAsShown_of_subset hw hrows (subset_committed hw hmode hguest)

theorem doesAsShown_iff_two : (fresh 2 20).DoesAsShown 5 ↔ (fresh 2 20).mode ≠ .editingPath ∧
    ¬ ((fresh 2 20).mode = .renaming ∧ (fresh 2 20).edit = [] ∧
      (fresh 2 20).activeTab.emulator.sink.guestTitle ≠ [] ∧ (fresh 2 20).GuestFits) :=
  doesAsShown_iff (fresh 2 20) (by decide) (by decide)

/-- In the field of the directory, a press at the right end opens a tab. -/
theorem doesAsShown_not_always :
    ¬ ∀ (t : Terminal) (rows : Nat), 20 ≤ t.w → 0 < rows → t.DoesAsShown rows := by
  intro h
  have hshown := h { fresh 2 20 with mode := .editingPath } 5 (by decide) (by decide)
  exact not_doesAsShown_of_field (by decide) (by decide) rfl hshown

end Terminal

end Sshos.Apps.Tabbed
