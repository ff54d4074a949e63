import Sshos.Apps.FilesRename
import Sshos.Apps.TabFields

/-!
# Sshos.Apps.FilesFields

**What is typed in a file window**: a new name, or the filter of a pane. A backspace takes a byte
away, where it should take a character.

Apart from a few keys, nothing that is typed changes what is being typed: `Leaves`.
-/

namespace Sshos.Apps

open Sshos.Common (Continues IsText encodeUtf8 isText_encodeUtf8)
open Sshos.Input (KeyEvent)
open Sshos.Lib (Bytes run StepsMeet run_good_and_start_iff)
open Sshos.Shell (text)

namespace Files

variable {y : Sys} {s s' s'' : Files}

/-- A name is typed. -/
def Types (s : Files) : Prop := s.mode = .renaming ∨ s.mode = .creating

/-- What is typed is text, and the filters are. -/
structure FieldsWhole (s : Files) : Prop where
  filters : s.EachPane fun p => IsText p.filter
  edit : s.Types → IsText s.edit

/-- The filters stay, or are cleared; the field stays as it is, or is closed. -/
structure Leaves (s s' : Files) : Prop where
  filters : ∀ i, (s'.panes i).filter = [] ∨ ∃ j, (s'.panes i).filter = (s.panes j).filter
  field : (s'.mode = s.mode ∧ s'.edit = s.edit) ∨ ¬ s'.Types

theorem Leaves.fieldsWhole (h : Leaves s s') (hs : s.FieldsWhole) : s'.FieldsWhole := by
  constructor
  · intro i
    show IsText (s'.panes i).filter
    rcases h.filters i with hnil | ⟨j, hj⟩
    · rw [hnil]
      exact .nil
    · rw [hj]
      exact hs.filters j
  · intro htypes
    rcases h.field with ⟨hmode, hedit⟩ | hclosed
    · unfold Types at htypes
      rw [hmode] at htypes
      rw [hedit]
      exact hs.edit htypes
    · exact absurd htypes hclosed

theorem Leaves.trans (h : Leaves s s') (h' : Leaves s' s'') : Leaves s s'' := by
  constructor
  · intro i
    rcases h'.filters i with hnil | ⟨j, hj⟩
    · exact .inl hnil
    · rw [hj]
      exact h.filters j
  · rcases h'.field with ⟨hmode', hedit'⟩ | hclosed'
    · rcases h.field with ⟨hmode, hedit⟩ | hclosed
      · exact .inl ⟨hmode'.trans hmode, hedit'.trans hedit⟩
      · refine .inr ?_
        unfold Types
        rw [hmode']
        exact hclosed
    · exact .inr hclosed'

/-- The panes stay. -/
theorem Leaves.of_panes (hpanes : s'.panes = s.panes)
    (hfield : (s'.mode = s.mode ∧ s'.edit = s.edit) ∨ ¬ s'.Types) : Leaves s s' :=
  ⟨fun i => .inr ⟨i, by rw [hpanes]⟩, hfield⟩

theorem Leaves.refl (s : Files) : Leaves s s := .of_panes rfl (.inl ⟨rfl, rfl⟩)

theorem leaves_ite {c : Prop} [Decidable c] {a b : Files} (hthen : c → Leaves s a)
    (helse : ¬ c → Leaves s b) : Leaves s (if c then a else b) := by
  split
  next h => exact hthen h
  next h => exact helse h

/-- A pane is changed, but for its filter, or its filter is cleared. -/
theorem Leaves.setPane (h : Leaves s s') {p : Pane} (hp : p.filter = s'.pane.filter ∨ p.filter = []) :
    Leaves s (s'.setPane p) := by
  refine h.trans ⟨fun i => ?_, .inl ⟨rfl, rfl⟩⟩
  by_cases hactive : i = s'.active
  · rw [hactive, show (s'.setPane p).panes s'.active = p from s'.setPane_pane p]
    rcases hp with hsame | hnil
    · exact .inr ⟨s'.active, hsame⟩
    · exact .inl hnil
  · rw [panes_setPane_ne hactive]
    exact .inr ⟨i, rfl⟩

theorem Pane.settle_filter (p : Pane) (rows : Nat) : (p.settle rows).filter = p.filter := by
  unfold Pane.settle
  split <;> rfl

theorem Pane.refilter_filter (s : Files) (p : Pane) :
    (p.refilter s.rowsForList).filter = p.filter :=
  (p.refilter_spec s.rowsForList s.rows_pos).2.2.2.1

theorem Leaves.settle (h : Leaves s s') : Leaves s s'.settle :=
  h.setPane (.inl (Pane.settle_filter _ _))

theorem Leaves.refilter (h : Leaves s s') : Leaves s s'.refilter :=
  h.setPane (.inl (Pane.refilter_filter s' _))

theorem Leaves.setStatus (h : Leaves s s') (status : Bytes) : Leaves s (s'.setStatus status) :=
  h.setPane (.inl rfl)

theorem Leaves.select (h : Leaves s s') (i : Nat) : Leaves s (s'.select i) :=
  Leaves.settle (h.setPane (.inl rfl))

theorem Leaves.selectName (h : Leaves s s') (name : Bytes) :
    Leaves s (s'.setPane (s'.pane.selectName name)).settle := by
  obtain ⟨sel, heq⟩ := s'.pane.selectName_eq name
  rw [heq]
  exact Leaves.settle (h.setPane (.inl rfl))

theorem Leaves.reload (h : Leaves s s') : Leaves s (s'.reload y) := by
  refine h.trans ⟨fun i => .inr ⟨i, ?_⟩, .inl ⟨rfl, rfl⟩⟩
  rw [panes_reload]
  exact Pane.refilter_filter s' _

/-- A new window. -/
theorem fieldsWhole_start (y : Sys) (path : Bytes) : (start y path).FieldsWhole := by
  refine Leaves.fieldsWhole (Leaves.reload (.refl _)) ⟨fun i => ?_, fun htypes => ?_⟩
  · cases i with
    | first => exact .nil
    | second => exact .nil
  · simp [Types] at htypes

/-! ### Commands -/

theorem leaves_load (s : Files) (path cameFrom : Bytes) : Leaves s (s.load y path cameFrom).2 := by
  unfold load
  simp only
  split
  · exact (Leaves.refl s).setStatus _
  · split
    · exact Leaves.selectName (Leaves.refilter ((Leaves.refl s).setPane (.inr rfl))) _
    · exact Leaves.refilter ((Leaves.refl s).setPane (.inr rfl))

theorem leaves_goTo (s : Files) (path : Bytes) : Leaves s (s.goTo y path) := by
  unfold goTo
  refine leaves_ite (fun _ => .refl s) fun _ => ?_
  exact leaves_ite (fun _ => (leaves_load s _ _).setPane (.inl rfl)) fun _ => leaves_load s _ _

theorem leaves_goBack (s : Files) : Leaves s (s.goBack y) := by
  unfold goBack
  split
  · exact .refl s
  · exact leaves_ite (fun _ => (leaves_load s _ _).setPane (.inl rfl)) fun _ => leaves_load s _ _

theorem leaves_goForward (s : Files) : Leaves s (s.goForward y) := by
  unfold goForward
  split
  · exact .refl s
  · exact leaves_ite (fun _ => (leaves_load s _ _).setPane (.inl rfl)) fun _ => leaves_load s _ _

theorem leaves_goUp (s : Files) : Leaves s (s.goUp y) :=
  leaves_ite (fun _ => .refl s) fun _ => leaves_goTo s _

theorem leaves_activate (s : Files) : Leaves s (s.activate y) := by
  unfold activate
  split
  · exact .refl s
  · refine leaves_ite (fun _ => .of_panes rfl (.inl ⟨rfl, rfl⟩)) fun _ => ?_
    exact leaves_ite (fun _ => leaves_goUp s) fun _ => leaves_goTo s _

theorem leaves_stopJob (s : Files) : Leaves s (s.stopJob y) := by
  refine leaves_ite (fun _ => .refl s) fun _ => ?_
  refine Leaves.setStatus (Leaves.reload ?_) _
  exact .of_panes rfl (.inl ⟨rfl, rfl⟩)

/-- A field is closed. -/
theorem leaves_close (s : Files) : Leaves s { s with mode := .normal } :=
  .of_panes rfl (.inr (by simp [Types]))

theorem leaves_commitRename (s : Files) : Leaves s (s.commitRename y) := by
  have hclosed := leaves_close s
  unfold commitRename
  refine leaves_ite (fun _ => hclosed) fun _ => ?_
  refine leaves_ite (fun _ => hclosed.setStatus _) fun _ => ?_
  refine leaves_ite (fun _ => hclosed.setStatus _) fun _ => ?_
  split
  · exact hclosed.setStatus _
  · refine Leaves.selectName (Leaves.reload (Leaves.setStatus ?_ _)) _
    exact hclosed.trans (.of_panes rfl (.inl ⟨rfl, rfl⟩))

theorem leaves_commitCreate (s : Files) : Leaves s (s.commitCreate y) := by
  have hclosed : Leaves s { s with mode := .normal, edit := [] } :=
    .of_panes rfl (.inr (by simp [Types]))
  unfold commitCreate
  refine leaves_ite (fun _ => hclosed) fun _ => ?_
  refine leaves_ite (fun _ => hclosed.setStatus _) fun _ => ?_
  split
  · exact hclosed.setStatus _
  · refine Leaves.selectName (Leaves.reload ?_) _
    exact hclosed.trans (.of_panes rfl (.inl ⟨rfl, rfl⟩))

theorem leaves_beginDelete (s : Files) : Leaves s s.beginDelete :=
  leaves_ite (fun _ => .refl s) fun _ => .of_panes rfl (.inr (by simp [Types]))

theorem leaves_confirmKey (s : Files) (k : KeyEvent) : Leaves s (s.confirmKey k) := by
  have hclosed := leaves_close s
  refine leaves_ite (fun _ => ?_) fun _ => hclosed
  unfold commitDelete
  refine leaves_ite (fun _ => hclosed) fun _ => ?_
  exact (hclosed.setStatus []).trans (.of_panes rfl (.inl ⟨rfl, rfl⟩))

theorem leaves_takeClipboard (s : Files) (cut : Bool) : Leaves s (s.takeClipboard cut) := by
  refine leaves_ite (fun _ => .refl s) fun _ => Leaves.setStatus ?_ _
  exact .of_panes rfl (.inl ⟨rfl, rfl⟩)

theorem leaves_startJob (s : Files) (sources : List Bytes) (dest : Bytes) (kind : FileOp) :
    Leaves s (s.startJob sources dest kind) := .of_panes rfl (.inl ⟨rfl, rfl⟩)

theorem leaves_pasteClipboard (s : Files) : Leaves s s.pasteClipboard := by
  unfold pasteClipboard
  refine leaves_ite (fun _ => .refl s) fun _ => ?_
  refine leaves_ite (fun _ => (Leaves.refl s).setStatus _) fun _ => ?_
  have hstarted := leaves_startJob s s.clipboard s.pane.listing.path
    (if s.clipboardCut then .move else .copy)
  exact leaves_ite (fun _ => hstarted.trans (.of_panes rfl (.inl ⟨rfl, rfl⟩))) fun _ => hstarted

theorem leaves_selectAll (s : Files) : Leaves s s.selectAll := by
  refine leaves_ite (fun _ => (Leaves.refl s).setPane (.inl ?_))
    fun _ => (Leaves.refl s).setPane (.inl rfl)
  obtain ⟨marked, heq, -⟩ := s.pane.markRange_spec 0 (s.pane.visible.length - 1)
  rw [heq]

theorem leaves_toggleHidden (s : Files) : Leaves s (s.toggleHidden y) :=
  Leaves.reload (.of_panes rfl (.inl ⟨rfl, rfl⟩))

theorem leaves_toggleSplit (s : Files) : Leaves s s.toggleSplit := by
  refine leaves_ite (fun _ => ⟨fun i => .inr ?_, .inl ⟨rfl, rfl⟩⟩) fun _ =>
    ⟨fun i => .inr ?_, .inl ⟨rfl, rfl⟩⟩
  · simp only
    split
    · cases i with
      | first => exact ⟨.second, rfl⟩
      | second => exact ⟨.second, rfl⟩
    · exact ⟨i, rfl⟩
  · cases i with
    | first => exact ⟨.first, rfl⟩
    | second => exact ⟨.first, rfl⟩

theorem leaves_moveTo (s : Files) (marks : Bool) (i : Nat) : Leaves s (s.moveTo marks i) := by
  have hmark : ∀ p : Pane, (if marks then p.markRange p.sel p.sel else p).filter = p.filter := by
    intro p
    split
    · obtain ⟨marked, heq, -⟩ := p.markRange_spec p.sel p.sel
      rw [heq]
    · rfl
  refine (Leaves.refl s).setPane (.inl ?_)
  rw [Pane.settle_filter, hmark]
  exact hmark s.pane

theorem leaves_escapeKey (s : Files) : Leaves s (s.escapeKey y) := by
  refine leaves_ite (fun _ => leaves_stopJob s) fun _ => ?_
  exact leaves_ite (fun _ => Leaves.refilter ((Leaves.refl s).setPane (.inr rfl)))
    fun _ => (Leaves.refl s).setPane (.inl rfl)

/-! ### Keys -/

/-- The filter is typed, and ends in a character more, or less. -/
theorem FieldsWhole.filter (h : s.FieldsWhole) {filter : Bytes} (hfilter : IsText filter) :
    (s.setPane { s.pane with filter }).refilter.FieldsWhole := by
  refine Leaves.fieldsWhole (Leaves.refilter (.refl _)) ⟨?_, h.edit⟩
  exact h.filters.setPane hfilter

theorem FieldsWhole.beginCreate (h : s.FieldsWhole) (dir : Bool) : (s.beginCreate dir).FieldsWhole :=
  ⟨h.filters, fun _ => .nil⟩

/-- The field of a new name opens on the old one. -/
theorem FieldsWhole.beginRename_iff (h : s.FieldsWhole) :
    s.beginRename.FieldsWhole ↔ IsText s.pane.touchableSelection := by
  unfold beginRename
  simp only
  split
  next hnil =>
    rw [hnil]
    exact iff_of_true h .nil
  · exact ⟨fun hw => hw.edit (.inl rfl), fun htext => ⟨h.filters, fun _ => htext⟩⟩

/-- The other keys, in the list. -/
theorem FieldsWhole.listKey (h : s.FieldsWhole) {k : KeyEvent} (hf2 : k.key ≠ .f2)
    (hbackspace : k.key ≠ .backspace) : (s.listKey y k).FieldsWhole := by
  unfold Files.listKey
  cases hkey : k.key with
  | up => exact (leaves_moveTo s _ _).fieldsWhole h
  | down => exact (leaves_moveTo s _ _).fieldsWhole h
  | pgUp => exact ((Leaves.refl s).select _).fieldsWhole h
  | pgDn => exact ((Leaves.refl s).select _).fieldsWhole h
  | home => exact ((Leaves.refl s).select _).fieldsWhole h
  | «end» => exact ((Leaves.refl s).select _).fieldsWhole h
  | enter => exact (leaves_activate s).fieldsWhole h
  | f2 => exact absurd hkey hf2
  | f9 => exact ⟨h.filters, h.edit⟩
  | f3 => exact (leaves_toggleSplit s).fieldsWhole h
  | tab =>
      refine Leaves.fieldsWhole (leaves_ite (fun _ => ?_) fun _ => .refl s) h
      exact .of_panes rfl (.inl ⟨rfl, rfl⟩)
  | f7 => exact h.beginCreate _
  | delete => exact (leaves_beginDelete s).fieldsWhole h
  | escape => exact (leaves_escapeKey s).fieldsWhole h
  | backspace => exact absurd hkey hbackspace
  | char =>
      simp only
      unfold charKey
      split
      · exact (leaves_toggleHidden s).fieldsWhole h
      split
      · exact h.filter ((h.filters s.active).append (isText_encodeUtf8 k.ch))
      · exact h
  | _ => exact h

/-- The filter loses its last byte, or the parent is shown. -/
theorem onKey_backspace (hmenu : s.menuOpen = false) (hmode : s.mode = .normal) {k : KeyEvent}
    (hk : k.key = .backspace) :
    s.onKey y k = if s.pane.filter ≠ []
      then (s.setPane { s.pane with filter := s.pane.filter.dropLast }).refilter else s.goUp y := by
  unfold onKey Files.listKey
  rw [if_neg, if_neg, if_neg, if_neg, if_neg, if_neg, if_neg, if_neg, if_neg, if_neg, hk]
  all_goals simp [hk, hmenu, hmode]

theorem onKey_f2 (hmenu : s.menuOpen = false) (hmode : s.mode = .normal) {k : KeyEvent}
    (hk : k.key = .f2) : s.onKey y k = s.beginRename := by
  refine onKey_begins ?_
  rw [keyLets_normal hmenu hmode, if_neg (by simp [hk]), if_neg (by simp [hk])]
  exact decide_eq_true hk

theorem FieldsWhole.onKey (h : s.FieldsWhole) (hmenu : s.menuOpen = false) (hmode : s.mode = .normal)
    {k : KeyEvent} (hf2 : k.key ≠ .f2) (hbackspace : k.key ≠ .backspace) :
    (s.onKey y k).FieldsWhole := by
  unfold Files.onKey
  rw [if_neg (by simp [hmenu]), if_neg (by simp [hmode]), if_neg (by simp [hmode])]
  simp only
  split
  · exact (leaves_takeClipboard s _).fieldsWhole h
  split
  · exact (leaves_takeClipboard s _).fieldsWhole h
  split
  · exact (leaves_pasteClipboard s).fieldsWhole h
  split
  · exact (leaves_selectAll s).fieldsWhole h
  split
  · obtain ⟨marked, heq, -⟩ := s.pane.toggleMark_spec s.pane.sel
    refine Leaves.fieldsWhole (Leaves.select ((Leaves.refl s).setPane (.inl ?_)) _) h
    rw [heq]
  split
  · exact (leaves_goBack s).fieldsWhole h
  split
  · exact (leaves_goForward s).fieldsWhole h
  · exact h.listKey hf2 hbackspace

/-- A key while a name is typed. -/
theorem FieldsWhole.fieldKey_iff (h : s.FieldsWhole) (htypes : s.Types) (k : KeyEvent) :
    (s.fieldKey y k).FieldsWhole ∧ (k.key = .backspace → RemovesLast s.edit (s.fieldKey y k).edit) ↔
      (k.key = .backspace → ∀ c ∈ s.edit.getLast?, c.toNat < 0x80) := by
  by_cases hkey : k.key = .backspace
  · have hkeyed : s.fieldKey y k = { s with edit := s.edit.dropLast } := by
      unfold Files.fieldKey
      rw [hkey]
    rw [hkeyed, forall_prop_of_true hkey, forall_prop_of_true hkey, ← dropLast_iff (h.edit htypes)]
    exact and_congr_left' ⟨fun hw => hw.edit htypes, fun htext => ⟨h.filters, fun _ => htext⟩⟩
  · refine iff_of_true ⟨?_, fun hno => absurd hno hkey⟩ fun hno => absurd hno hkey
    unfold Files.fieldKey
    split
    · exact (leaves_ite (fun _ => leaves_commitCreate s) fun _ => leaves_commitRename s).fieldsWhole h
    · refine Leaves.fieldsWhole ?_ h
      exact .of_panes rfl (.inr (by simp [Types]))
    next hno => exact absurd hno hkey
    · split
      · exact ⟨h.filters, fun _ => (h.edit htypes).append (isText_encodeUtf8 k.ch)⟩
      · exact h
    · exact h

/-! ### Runs -/

/-- A key is pressed, or something is pasted, which the window takes no notice of. -/
def onTyping (s : Files) : Typing Sys → Files
  | .key y k => s.onKey y k
  | .paste .. => s

/-- A backspace takes one character, of the name or of the filter. -/
def FieldRemoves (s : Files) : Typing Sys → Prop
  | .key y k => s.menuOpen = false → k.key = .backspace →
      (s.Types → RemovesLast s.edit (s.onKey y k).edit) ∧
      (s.mode = .normal → s.pane.filter ≠ [] →
        RemovesLast s.pane.filter (s.onKey y k).pane.filter)
  | .paste .. => True

/-- What a backspace finds at the end is ASCII, and the old name is text. -/
def FieldSafe (s : Files) : Typing Sys → Prop
  | .key _ k => s.menuOpen = false →
      (k.key = .backspace →
        (s.Types → ∀ c ∈ s.edit.getLast?, c.toNat < 0x80) ∧
        (s.mode = .normal → ∀ c ∈ s.pane.filter.getLast?, c.toNat < 0x80)) ∧
      (k.key = .f2 → s.mode = .normal → IsText s.pane.touchableSelection)
  | .paste .. => True

/-- A backspace in the list. -/
theorem FieldsWhole.backspace_iff (h : s.FieldsWhole) (hmenu : s.menuOpen = false)
    (hmode : s.mode = .normal) {k : KeyEvent} (hk : k.key = .backspace) :
    (s.onKey y k).FieldsWhole ∧
        (s.pane.filter ≠ [] → RemovesLast s.pane.filter (s.onKey y k).pane.filter) ↔
      ∀ c ∈ s.pane.filter.getLast?, c.toNat < 0x80 := by
  rw [onKey_backspace hmenu hmode hk]
  by_cases hnil : s.pane.filter = []
  · rw [if_neg (not_not.2 hnil), hnil]
    exact iff_of_true ⟨(leaves_goUp s).fieldsWhole h, fun hno => absurd rfl hno⟩ nofun
  · have hwhole : IsText s.pane.filter := h.filters s.active
    rw [if_pos hnil, forall_prop_of_true hnil, ← dropLast_iff hwhole]
    have hfilter : (s.setPane { s.pane with filter := s.pane.filter.dropLast }).refilter.pane.filter =
        s.pane.filter.dropLast := by
      rw [setPane_pane_refilter, setPane_pane]
      exact Pane.refilter_filter s _
    rw [hfilter]
    refine and_congr_left' ⟨fun hw => ?_, fun htext => h.filter htext⟩
    rw [← hfilter]
    exact hw.filters _

theorem onKey_types (hmenu : s.menuOpen = false) (htypes : s.Types) (k : KeyEvent) :
    s.onKey y k = s.fieldKey y k := by
  have hfield : s.mode = .renaming ∨ s.mode = .creating := htypes
  unfold Files.onKey
  rw [if_neg (by simp [hmenu]), if_pos hfield]

theorem onKey_confirming (hmenu : s.menuOpen = false) (hmode : s.mode = .confirming) (k : KeyEvent) :
    s.onKey y k = s.confirmKey k := by
  have hfield : ¬ (s.mode = .renaming ∨ s.mode = .creating) := by simp [hmode]
  unfold Files.onKey
  rw [if_neg (by simp [hmenu]), if_neg hfield, if_pos hmode]

/-- In the list. -/
theorem FieldsWhole.listed_iff (h : s.FieldsWhole) (hmenu : s.menuOpen = false)
    (hmode : s.mode = .normal) (k : KeyEvent) :
    (s.onKey y k).FieldsWhole ∧ s.FieldRemoves (.key y k) ↔ s.FieldSafe (.key y k) := by
  have htypes : ¬ s.Types := by simp [Types, hmode]
  simp only [FieldRemoves, FieldSafe, hmenu, htypes, hmode, forall_const, false_implies, true_and]
  by_cases hbackspace : k.key = .backspace
  · simp only [hbackspace, forall_const, reduceCtorEq, false_implies, and_true]
    exact h.backspace_iff hmenu hmode hbackspace
  · simp only [hbackspace, false_implies, and_true, true_and]
    by_cases hf2 : k.key = .f2
    · rw [onKey_f2 hmenu hmode hf2, forall_prop_of_true hf2]
      exact h.beginRename_iff
    · exact iff_of_true (h.onKey hmenu hmode hf2 hbackspace) fun hno => absurd hno hf2

/-- **A step of typing** keeps the fields whole exactly when it is safe. -/
theorem fieldsWhole_iff (h : s.FieldsWhole) (i : Typing Sys) :
    (s.onTyping i).FieldsWhole ∧ s.FieldRemoves i ↔ s.FieldSafe i := by
  cases i with
  | paste text htext complete => exact iff_of_true ⟨h, trivial⟩ trivial
  | key y k =>
      show (s.onKey y k).FieldsWhole ∧ s.FieldRemoves (.key y k) ↔ s.FieldSafe (.key y k)
      cases hmenu : s.menuOpen with
      | true =>
          simp only [FieldRemoves, FieldSafe, hmenu, reduceCtorEq, false_implies, and_true, iff_true]
          unfold Files.onKey
          rw [if_pos hmenu]
          split
          · exact ⟨h.filters, h.edit⟩
          · exact h
      | false =>
          -- the four modes are three ways to take a key
          by_cases htypes : s.Types
          · have hopen : s.mode ≠ .normal := by
              intro hmode
              simp [Types, hmode] at htypes
            simp only [FieldRemoves, FieldSafe, hmenu, htypes, hopen, forall_const, false_implies,
              and_true, implies_true]
            rw [onKey_types hmenu htypes]
            exact h.fieldKey_iff htypes k
          by_cases hmode : s.mode = .normal
          · exact h.listed_iff hmenu hmode k
          · have hconfirming : s.mode = .confirming := by
              cases hm : s.mode with
              | normal => exact absurd hm hmode
              | «renaming» => exact absurd (.inl hm) htypes
              | confirming => rfl
              | creating => exact absurd (.inr hm) htypes
            simp only [FieldRemoves, FieldSafe, htypes, hmode, false_implies, and_true, implies_true,
              iff_true]
            rw [onKey_confirming hmenu hconfirming]
            exact (leaves_confirmKey s k).fieldsWhole h

/-- **A run of typing**: the fields are whole as long as no backspace finds half a character. -/
theorem run_fieldsWhole_iff (s : Files) (keys : List (Typing Sys)) :
    (∀ before, before <+: keys → (run onTyping s before).FieldsWhole) ∧
        StepsMeet onTyping FieldRemoves s keys ↔
      s.FieldsWhole ∧ StepsMeet onTyping FieldSafe s keys :=
  @run_good_and_start_iff _ _ onTyping FieldSafe FieldRemoves FieldsWhole
    (fun _ i h => fieldsWhole_iff h i) s keys

end Files

/-- **The fields of the two windows**, under any sequence of keys and pastes: a terminal's is
whole as long as no paste is cut inside a character, those of a file window as long as no
backspace finds half of one. -/
theorem fields_whole_iff (t : Tabbed.Terminal) (typed : List (Typing (Option Nat))) (s : Files)
    (keys : List (Typing Sys)) :
    ((∀ before, before <+: typed → (run Tabbed.Terminal.onTyping t before).FieldWhole) ∧
        StepsMeet Tabbed.Terminal.onTyping Tabbed.Terminal.FieldRemoves t typed ↔
      t.FieldWhole ∧ StepsMeet Tabbed.Terminal.onTyping Tabbed.Terminal.FieldSafe t typed) ∧
    ((∀ before, before <+: keys → (run Files.onTyping s before).FieldsWhole) ∧
        StepsMeet Files.onTyping Files.FieldRemoves s keys ↔
      s.FieldsWhole ∧ StepsMeet Files.onTyping Files.FieldSafe s keys) :=
  ⟨t.run_fieldWhole_iff typed, s.run_fieldsWhole_iff keys⟩

/-- A name of 63 letters and an accent: its first 64 bytes end in the middle of the accent. -/
def longName : Bytes := List.replicate 63 0x61 ++ encodeUtf8 0xe9

theorem isText_longName : IsText longName :=
  (IsText.of_ascii fun c hc => by rw [List.eq_of_mem_replicate hc]; decide).append
    (isText_encodeUtf8 0xe9)

/-- New windows are whole, and an accent is cut in two there: by a paste, and by a backspace. -/
theorem fields_halved :
    ((Tabbed.Terminal.start 0 0 0 (some 5)).FieldWhole ∧
      ¬ (run Tabbed.Terminal.onTyping (Tabbed.Terminal.start 0 0 0 (some 5))
        [.key none { key := .f2 }, .paste longName isText_longName true]).FieldWhole) ∧
    ((Files.start (Files.holding ["a"]) (text "/d")).FieldsWhole ∧
      ¬ (run Files.onTyping (Files.start (Files.holding ["a"]) (text "/d"))
        [.key (Files.holding ["a"]) { key := .char, ch := 0xe9 },
          .key (Files.holding ["a"]) { key := .backspace }]).FieldsWhole) := by
  refine ⟨⟨Tabbed.Terminal.fieldWhole_start _ _ _ _, fun h => ?_⟩,
    Files.fieldsWhole_start _ _, fun h => ?_⟩
  · have hpasted := (h.edit nofun).text
    exact isText_longName.take_iff.1 hpasted 0xA9 (by decide +kernel) (by decide)
  · have hfilter : ((run Files.onTyping (Files.start (Files.holding ["a"]) (text "/d"))
        [.key (Files.holding ["a"]) { key := .char, ch := 0xe9 },
          .key (Files.holding ["a"]) { key := .backspace }]).panes .first).filter =
        (encodeUtf8 0xe9).take 1 := by decide +kernel
    have htake : IsText ((encodeUtf8 0xe9).take 1) := hfilter ▸ h.filters .first
    exact (isText_encodeUtf8 0xe9).take_iff.1 htake 0xA9 (by decide +kernel) (by decide)

end Sshos.Apps
