import Mathlib.Logic.Relation
import Sshos.Apps.Files

/-!
# Sshos.Apps.FilesSteps

**What a command can do** to a file window, said once: whatever is typed or clicked is a
sequence of a few moves. What these keep, every event keeps.
-/

namespace Sshos.Apps.Files

open Sshos.Input (KeyEvent MouseEvent)
open Sshos.Lib (Bytes decimal)
open Sshos.Shell (text)
open Relation (ReflTransGen)

/-! ### Panes -/

namespace Pane

variable {rows : Nat} {p p' : Pane}

/-- The selection is in the list, and on the page. -/
structure Placed (rows : Nat) (p : Pane) : Prop where
  sel : p.sel < p.visible.length ∨ p.visible = [] ∧ p.sel = 0
  top : p.top ≤ p.sel
  page : p.sel < p.top + rows

/-- What is on display stays, and so does the place, or it is a good one; what is marked was, or
is shown. -/
structure Touches (rows : Nat) (p p' : Pane) : Prop where
  listing : p'.listing = p.listing
  visible : p'.visible = p.visible
  filter : p'.filter = p.filter
  sortBy : p'.sortBy = p.sortBy
  sortDesc : p'.sortDesc = p.sortDesc
  marked : ∀ n ∈ p'.marked, n ∈ p.marked ∨ n ≠ kParent ∧ ∃ e ∈ p.visible, e.name = n
  placed : p'.sel = p.sel ∧ p'.top = p.top ∨ Placed rows p'

/-- Nothing of it is on display. -/
theorem Touches.of_same (hlisting : p'.listing = p.listing) (hvisible : p'.visible = p.visible)
    (hfilter : p'.filter = p.filter) (hsortBy : p'.sortBy = p.sortBy) (hsortDesc : p'.sortDesc = p.sortDesc)
    (hmarked : p'.marked ⊆ p.marked) (hsel : p'.sel = p.sel) (htop : p'.top = p.top) : Touches rows p p' :=
  ⟨hlisting, hvisible, hfilter, hsortBy, hsortDesc, fun _ hn => .inl (hmarked hn), .inl ⟨hsel, htop⟩⟩

theorem settle_visible (p : Pane) (rows : Nat) : (p.settle rows).visible = p.visible := by
  unfold settle
  split <;> rfl

theorem settle_marked (p : Pane) (rows : Nat) : (p.settle rows).marked = p.marked := by
  unfold settle
  split <;> rfl

/-- **Settling** puts the selection in the list, and on the page. -/
theorem placed_settle (hrows : 0 < rows) (p : Pane) : Placed rows (p.settle rows) := by
  by_cases hempty : p.visible = []
  · have hsettle : p.settle rows = { p with sel := 0, top := 0 } := if_pos hempty
    rw [hsettle]
    exact ⟨.inr ⟨hempty, rfl⟩, Nat.le_refl 0, by simpa using hrows⟩
  · have hlength := List.length_pos_iff.2 hempty
    have hbounds : (p.settle rows).sel < p.visible.length ∧ (p.settle rows).top ≤ (p.settle rows).sel ∧
        (p.settle rows).sel < (p.settle rows).top + rows := by
      unfold settle
      rw [if_neg hempty]
      simp only
      generalize p.visible.length = n at *
      split_ifs <;> omega
    refine ⟨.inl ?_, hbounds.2.1, hbounds.2.2⟩
    rw [settle_visible]
    exact hbounds.1

/-- A pane that is settled again. -/
theorem Touches.settle (hrows : 0 < rows) (hlisting : p'.listing = p.listing)
    (hvisible : p'.visible = p.visible) (hfilter : p'.filter = p.filter) (hsortBy : p'.sortBy = p.sortBy)
    (hsortDesc : p'.sortDesc = p.sortDesc)
    (hmarked : ∀ n ∈ p'.marked, n ∈ p.marked ∨ n ≠ kParent ∧ ∃ e ∈ p.visible, e.name = n) :
    Touches rows p (p'.settle rows) := by
  have hsame : (p'.settle rows).listing = p'.listing ∧ (p'.settle rows).filter = p'.filter ∧
      (p'.settle rows).sortBy = p'.sortBy ∧ (p'.settle rows).sortDesc = p'.sortDesc := by
    unfold Pane.settle
    split <;> exact ⟨rfl, rfl, rfl, rfl⟩
  exact ⟨hsame.1.trans hlisting, (settle_visible _ _).trans hvisible, hsame.2.1.trans hfilter,
    hsame.2.2.1.trans hsortBy, hsame.2.2.2.trans hsortDesc,
    fun n hn => hmarked n (by rwa [settle_marked] at hn), .inr (placed_settle hrows p')⟩

/-! ### Marks -/

theorem mem_mark {name n : Bytes} (h : n ∈ (p.mark name).marked) : n ∈ p.marked ∨ n = name ∧ name ≠ [] := by
  unfold mark at h
  split at h
  · exact .inl h
  next hnew =>
    rcases List.mem_orderedInsert _ |>.1 h with rfl | hold
    · exact .inr ⟨rfl, fun hnil => hnew (.inl hnil)⟩
    · exact .inl hold

/-- A name that may be marked is shown, and is not `..`. -/
theorem markableAt_shown {i : Nat} (h : p.markableAt i ≠ []) :
    p.markableAt i ≠ kParent ∧ ∃ e ∈ p.visible, e.name = p.markableAt i := by
  unfold markableAt at h ⊢
  split
  next hparent =>
    rw [if_pos hparent] at h
    exact absurd rfl h
  next hparent =>
    rw [if_neg hparent] at h
    refine ⟨hparent, ?_⟩
    unfold nameAt at h ⊢
    cases hentry : p.visible[i]? with
    | none =>
        rw [hentry] at h
        exact absurd rfl h
    | some e => exact ⟨e, List.mem_of_getElem? hentry, rfl⟩

/-- To mark changes the marks. -/
theorem mark_eq (p : Pane) (name : Bytes) : ∃ marked, p.mark name = { p with marked } := by
  unfold mark
  split
  · exact ⟨p.marked, rfl⟩
  · exact ⟨_, rfl⟩

theorem markRange_spec (p : Pane) (a b : Nat) : ∃ marked, p.markRange a b = { p with marked } ∧
    ∀ n ∈ marked, n ∈ p.marked ∨ n ≠ kParent ∧ ∃ e ∈ p.visible, e.name = n := by
  unfold markRange
  generalize List.range' (min a b) (max a b + 1 - min a b) = range
  induction range using List.reverseRecOn with
  | nil => exact ⟨p.marked, rfl, fun _ hn => .inl hn⟩
  | append_singleton range i ih =>
      obtain ⟨marked, heq, hmarked⟩ := ih
      rw [List.foldl_append, heq]
      obtain ⟨marked', heq'⟩ := mark_eq { p with marked } (p.markableAt i)
      have hfold : List.foldl (fun q j => q.mark (q.markableAt j)) { p with marked } [i] =
          { p with marked := marked' } := heq'
      refine ⟨marked', hfold, fun n hn => ?_⟩
      have hmem : n ∈ (({ p with marked } : Pane).mark (p.markableAt i)).marked := by
        rw [heq']
        exact hn
      rcases mem_mark hmem with hold | ⟨rfl, hne⟩
      · exact hmarked n hold
      · exact .inr (markableAt_shown hne)

theorem toggleMark_spec (p : Pane) (i : Nat) : ∃ marked, p.toggleMark i = { p with marked } ∧
    ∀ n ∈ marked, n ∈ p.marked ∨ n ≠ kParent ∧ ∃ e ∈ p.visible, e.name = n := by
  unfold toggleMark
  simp only
  split
  · exact ⟨p.marked, rfl, fun _ hn => .inl hn⟩
  next hne =>
  split
  · exact ⟨_, rfl, fun n hn => .inl (List.mem_of_mem_erase hn)⟩
  · obtain ⟨marked, heq⟩ := mark_eq p (p.markableAt i)
    refine ⟨marked, heq, fun n hn => ?_⟩
    have hmem : n ∈ (p.mark (p.markableAt i)).marked := by
      rw [heq]
      exact hn
    rcases mem_mark hmem with hold | ⟨rfl, -⟩
    · exact .inl hold
    · exact .inr (markableAt_shown hne)

/-- The selection changes, or does not. -/
theorem selectName_eq (p : Pane) (name : Bytes) : ∃ sel, p.selectName name = { p with sel } := by
  unfold selectName
  split
  · exact ⟨_, rfl⟩
  · exact ⟨p.sel, rfl⟩

end Pane

/-! ### Moves -/

/-- What a command may do, besides what all may: read the panes again, change a name or open the
field for one, hold or release an entry. -/
structure Lets where
  /-- Whether hidden files are shown then. -/
  reread : Option Bool := none
  rename : Option (Bytes × Bytes) := none
  /-- Open the field of a new name. -/
  begins : Bool := false
  gesture : Bool := false

/-- Neither the panes nor what they show. -/
structure Same (lets : Lets) (s s' : Files) : Prop where
  panes : s'.panes = s.panes
  active : s'.active = s.active
  split : s'.split = s.split
  size : s'.size = s.size
  showHidden : s'.showHidden = s.showHidden
  renamed : s'.renamed = s.renamed
  renameOf : s'.renameOf = s.renameOf
  mode : s'.mode = s.mode ∨ s'.mode ≠ .renaming
  gesture : lets.gesture = false →
    s'.pressed = s.pressed ∧ s'.dragging = s.dragging ∧ s'.drag = s.drag ∧
      s'.pressX = s.pressX ∧ s'.pressY = s.pressY

/-- One move. -/
inductive Does (y : Sys) (lets : Lets) : Files → Files → Prop
  | idle {s s' : Files} (h : Same lets s s') : Does y lets s s'
  | touch {s : Files} (p : Pane) (h : Pane.Touches s.rowsForList s.pane p) : Does y lets s (s.setPane p)
  | refilter {s : Files} (filter : Bytes) (sortBy : SortBy) (sortDesc : Bool) :
      Does y lets s (s.setPane { s.pane with filter, sortBy, sortDesc }).refilter
  | load {s : Files} (path : Bytes) (hread : (readDir y.readdir path s.showHidden).error = []) :
      Does y lets s (s.setPane { s.pane with
        listing := readDir y.readdir path s.showHidden
        status := [], filter := [], marked := [], sel := 0, top := 0, visible := [] }).refilter
  | reload {s : Files} (hidden : Bool) (h : lets.reread = some hidden) :
      Does y lets s ({ s with showHidden := hidden }.reload y)
  | rename {s : Files} (src dst : Bytes) (h : lets.rename = some (src, dst)) :
      Does y lets s { s with renamed := (src, dst) :: s.renamed }
  | «begin» {s : Files} (h : lets.begins = true) : Does y lets s s.beginRename
  | split {s : Files} : Does y lets s s.toggleSplit
  | focus {s : Files} (side : Side) (h : s.split = true) (hread : lets.reread = none) :
      Does y lets s { s with active := side }

/-- Some moves. -/
abbrev Reaches (y : Sys) (lets : Lets) : Files → Files → Prop := ReflTransGen (Does y lets)

section Moves

variable {y : Sys} {lets : Lets} {s s' : Files}

theorem rows_pos (s : Files) : 0 < s.rowsForList := by
  unfold rowsForList
  omega

@[simp] theorem setPane_pane (s : Files) (p : Pane) : (s.setPane p).pane = p := Function.update_self ..

@[simp] theorem setPane_setPane (s : Files) (p q : Pane) : (s.setPane p).setPane q = s.setPane q := by
  unfold setPane
  simp only [Function.update_idem]

/-- What does one thing or another. -/
theorem reaches_ite {c : Prop} [Decidable c] {a b : Files} (hthen : c → Reaches y lets s a)
    (helse : ¬ c → Reaches y lets s b) : Reaches y lets s (if c then a else b) := by
  split
  next h => exact hthen h
  next h => exact helse h

/-! ### Commands -/

theorem does_status (s : Files) (status : Bytes) : Does y lets s (s.setStatus status) :=
  .touch _ (.of_same rfl rfl rfl rfl rfl (fun _ hn => hn) rfl rfl)

theorem does_history (s : Files) (back forward : List Bytes) :
    Does y lets s (s.setPane { s.pane with back, forward }) :=
  .touch _ (.of_same rfl rfl rfl rfl rfl (fun _ hn => hn) rfl rfl)

/-- The selection goes somewhere, with some marks. -/
theorem does_settle (s : Files) {p : Pane} {sel : Nat} {marked : List Bytes}
    (hp : p = { s.pane with sel, marked })
    (hmarked : ∀ n ∈ marked, n ∈ s.pane.marked ∨ n ≠ kParent ∧ ∃ e ∈ s.pane.visible, e.name = n) :
    Does y lets s (s.setPane (p.settle s.rowsForList)) := by
  subst hp
  exact .touch _ (.settle s.rows_pos rfl rfl rfl rfl rfl hmarked)

theorem settle_setPane (s : Files) (p : Pane) : (s.setPane p).settle = s.setPane (p.settle s.rowsForList) := by
  unfold settle
  rw [setPane_pane, setPane_setPane]
  rfl

theorem does_settled (s : Files) : Does y lets s s.settle :=
  @does_settle _ _ s _ s.pane.sel s.pane.marked rfl fun _ hn => .inl hn

theorem does_select (s : Files) (i : Nat) : Does y lets s (s.select i) := by
  unfold select
  rw [settle_setPane]
  exact @does_settle _ _ s _ i s.pane.marked rfl fun _ hn => .inl hn

/-- The same, with some marks. -/
theorem does_markSelect (s : Files) {p : Pane} {marked : List Bytes} (i : Nat) (hp : p = { s.pane with marked })
    (hmarked : ∀ n ∈ marked, n ∈ s.pane.marked ∨ n ≠ kParent ∧ ∃ e ∈ s.pane.visible, e.name = n) :
    Does y lets s ((s.setPane p).select i) := by
  subst hp
  unfold select
  rw [setPane_pane, setPane_setPane, settle_setPane]
  exact @does_settle _ _ s _ i marked rfl hmarked

theorem does_moveTo (s : Files) (marks : Bool) (i : Nat) : Does y lets s (s.moveTo marks i) := by
  unfold moveTo
  cases marks with
  | false => exact @does_settle _ _ s _ i s.pane.marked rfl fun _ hn => .inl hn
  | true =>
      obtain ⟨marked, heq, hmarked⟩ := s.pane.markRange_spec s.pane.sel s.pane.sel
      obtain ⟨marked', heq', hmarked'⟩ := ({ s.pane with marked, sel := i } : Pane).markRange_spec i i
      simp only [if_true]
      rw [heq]
      refine @does_settle _ _ s _ i marked' heq' fun n hn => ?_
      rcases hmarked' n hn with hold | hshown
      · exact hmarked n hold
      · exact .inr hshown

theorem reaches_load (s : Files) (path cameFrom : Bytes) : Reaches y lets s (s.load y path cameFrom).2 := by
  unfold load
  simp only
  split
  · exact .single (does_status s _)
  next hread =>
    rw [not_not] at hread
    have hload := @Does.load y lets s path hread
    split
    · refine .tail (.single hload) ?_
      rw [settle_setPane]
      obtain ⟨sel, heq⟩ := Pane.selectName_eq _ _
      exact does_settle _ heq fun _ hn => .inl hn
    · exact .single hload

theorem reaches_goTo (s : Files) (path : Bytes) : Reaches y lets s (s.goTo y path) := by
  unfold goTo
  split
  · exact .refl
  · simp only
    split
    · exact (reaches_load s _ _).tail (does_history _ _ _)
    · exact reaches_load s _ _

theorem reaches_goBack (s : Files) : Reaches y lets s (s.goBack y) := by
  unfold goBack
  split
  · exact .refl
  · simp only
    split
    · exact (reaches_load s _ _).tail (does_history _ _ _)
    · exact reaches_load s _ _

theorem reaches_goForward (s : Files) : Reaches y lets s (s.goForward y) := by
  unfold goForward
  split
  · exact .refl
  · simp only
    split
    · exact (reaches_load s _ _).tail (does_history _ _ _)
    · exact reaches_load s _ _

theorem reaches_goUp (s : Files) : Reaches y lets s (s.goUp y) := by
  unfold goUp
  simp only
  split
  · exact .refl
  · exact reaches_goTo s _

/-- What changes neither the panes, nor what they show, nor what is held. -/
theorem Same.refl (s : Files) : Same lets s s :=
  ⟨rfl, rfl, rfl, rfl, rfl, rfl, rfl, .inl rfl, fun _ => ⟨rfl, rfl, rfl, rfl, rfl⟩⟩

theorem reaches_activate (s : Files) : Reaches y lets s (s.activate y) := by
  unfold activate
  split
  · exact .refl
  · split
    · exact .single (.idle { Same.refl s with })
    split
    · exact reaches_goUp s
    · exact reaches_goTo s _

theorem setPane_pane_refilter (s : Files) (p : Pane) :
    (s.setPane p).refilter = s.setPane (p.refilter s.rowsForList) := by
  unfold refilter
  rw [setPane_pane, setPane_setPane]
  rfl

theorem does_refilter (s : Files) : Does y lets s s.refilter := by
  have hrefilter := @Does.refilter y lets s s.pane.filter s.pane.sortBy s.pane.sortDesc
  rw [setPane_pane_refilter] at hrefilter
  exact hrefilter

theorem does_sortOn (s : Files) (key : SortBy) : Does y lets s (s.sortOn key) := by
  unfold sortOn
  simp only
  split
  · exact .refilter s.pane.filter s.pane.sortBy (!s.pane.sortDesc)
  · exact .refilter s.pane.filter key false

theorem does_filter (s : Files) (filter : Bytes) :
    Does y lets s (s.setPane { s.pane with filter }).refilter :=
  .refilter filter s.pane.sortBy s.pane.sortDesc

theorem does_startJob (s : Files) (sources : List Bytes) (dest : Bytes) (kind : FileOp) :
    Does y lets s (s.startJob sources dest kind) :=
  .idle { Same.refl s with }

theorem does_unmark (s : Files) : Does y lets s (s.setPane { s.pane with marked := [] }) :=
  .touch _ (.of_same rfl rfl rfl rfl rfl (fun _ hn => by cases hn) rfl rfl)

theorem does_reload (s : Files) (h : lets.reread = some s.showHidden) : Does y lets s (s.reload y) :=
  .reload s.showHidden h

theorem reaches_stopJob (s : Files) (h : s.jobActive = true → lets.reread = some s.showHidden) :
    Reaches y lets s (s.stopJob y) := by
  unfold stopJob
  split
  · exact .refl
  next hactive =>
    have hidle : Does y lets s { s with jobActive := false, jobDone := 0 } := .idle { Same.refl s with }
    refine ((ReflTransGen.single hidle).tail (does_reload _ ?_)).tail (does_status _ _)
    exact h (by simpa using hactive)

/-- What a name that was typed changes, if it changes something. -/
def renames (y : Sys) (s : Files) : Option (Bytes × Bytes) :=
  let from_ := s.pane.touchableSelection
  let dst := joinPath s.pane.listing.path s.edit
  if from_ = [] ∨ s.edit = [] ∨ s.edit = from_ ∨ kSlash ∈ s.edit ∨ y.lstat dst = true ∨ y.rename ≠ none then
    none
  else some (joinPath s.pane.listing.path from_, dst)

/-- **The end of a rename**: nothing, or the change of one name. -/
theorem reaches_commitRename (s : Files)
    (h : ∀ r, s.renames y = some r → lets.reread = some s.showHidden ∧ lets.rename = some r) :
    Reaches y lets s (s.commitRename y) := by
  have hmode : Does y lets s { s with mode := .normal } :=
    .idle { Same.refl s with mode := .inr nofun }
  unfold commitRename
  simp only
  split
  · exact .single hmode
  next hnames =>
  split
  · exact (ReflTransGen.single hmode).tail (does_status _ _)
  next hslash =>
  split
  · exact (ReflTransGen.single hmode).tail (does_status _ _)
  next htaken =>
  split
  · exact (ReflTransGen.single hmode).tail (does_status _ _)
  next hok =>
    obtain ⟨hreread, hrename⟩ := h (joinPath s.pane.listing.path s.pane.touchableSelection,
        joinPath s.pane.listing.path s.edit) (by
      unfold renames
      simp only
      rw [if_neg]
      rintro (hf | he | hsame | hs | hl | hr)
      · exact hnames (.inl hf)
      · exact hnames (.inr (.inl he))
      · exact hnames (.inr (.inr hsame))
      · exact hslash hs
      · exact htaken hl
      · exact hr hok)
    refine ((((ReflTransGen.single hmode).tail (.rename _ _ hrename)).tail (does_status _ [])).tail
      (does_reload _ hreread)).tail ?_
    rw [settle_setPane]
    obtain ⟨sel, heq⟩ := Pane.selectName_eq _ _
    exact does_settle _ heq fun _ hn => .inl hn

/-- A name that was typed is good, and the disk takes it. -/
def creates (y : Sys) (s : Files) : Bool :=
  ¬ (s.edit = [] ∨ kSlash ∈ s.edit ∨ s.edit = [0x2e] ∨ s.edit = kParent ∨ y.create ≠ none)

theorem reaches_commitCreate (s : Files) (h : s.creates y = true → lets.reread = some s.showHidden) :
    Reaches y lets s (s.commitCreate y) := by
  have hmode : Does y lets s { s with mode := .normal, edit := [] } :=
    .idle { Same.refl s with mode := .inr nofun }
  unfold commitCreate
  simp only
  split
  · exact .single hmode
  next hname =>
  split
  · exact (ReflTransGen.single hmode).tail (does_status _ _)
  next hgood =>
  split
  · exact (ReflTransGen.single hmode).tail (does_status _ _)
  next hok =>
    have hreread := h (by simp [creates, hname, hok, hgood])
    have hmade : Does y lets ({ s with mode := .normal, edit := [] } : Files) { s with
        mode := .normal, edit := []
        created := (joinPath s.pane.listing.path s.edit, s.creatingDir) :: s.created } :=
      .idle { Same.refl _ with }
    refine (((ReflTransGen.single hmode).tail hmade).tail (does_reload _ hreread)).tail ?_
    rw [settle_setPane]
    obtain ⟨sel, heq⟩ := Pane.selectName_eq _ _
    exact does_settle _ heq fun _ hn => .inl hn

theorem reaches_beginDelete (s : Files) : Reaches y lets s s.beginDelete := by
  unfold beginDelete
  split
  · exact .refl
  · exact .single (.idle { Same.refl s with mode := .inr nofun })

theorem reaches_commitDelete (s : Files) : Reaches y lets s s.commitDelete := by
  have hmode : Does y lets s { s with mode := .normal } :=
    .idle { Same.refl s with mode := .inr nofun }
  unfold commitDelete
  simp only
  split
  · exact .single hmode
  · exact ((ReflTransGen.single hmode).tail (does_status _ _)).tail (does_startJob _ _ _ _)

theorem reaches_takeClipboard (s : Files) (cut : Bool) : Reaches y lets s (s.takeClipboard cut) := by
  unfold takeClipboard
  simp only
  split
  · exact .refl
  · exact (ReflTransGen.single (.idle { Same.refl s with })).tail (does_status _ _)

theorem reaches_pasteClipboard (s : Files) : Reaches y lets s s.pasteClipboard := by
  unfold pasteClipboard
  split
  · exact .refl
  split
  · exact .single (does_status _ _)
  · have hstarted := @does_startJob y lets s s.clipboard s.pane.listing.path
      (if s.clipboardCut then .move else .copy)
    simp only
    generalize s.startJob s.clipboard s.pane.listing.path _ = started at hstarted ⊢
    split
    · exact (ReflTransGen.single hstarted).tail (.idle { Same.refl started with })
    · exact .single hstarted

theorem does_selectAll (s : Files) : Does y lets s s.selectAll := by
  unfold selectAll
  split
  · obtain ⟨marked, heq, hmarked⟩ := s.pane.markRange_spec 0 (s.pane.visible.length - 1)
    rw [heq]
    exact .touch _ ⟨rfl, rfl, rfl, rfl, rfl, hmarked, .inl ⟨rfl, rfl⟩⟩
  · exact does_unmark s

theorem reaches_toggleHidden (s : Files) (h : lets.reread = some (!s.showHidden)) :
    Reaches y lets s (s.toggleHidden y) :=
  .single (.reload (!s.showHidden) h)

theorem does_beginCreate (s : Files) (dir : Bool) : Does y lets s (s.beginCreate dir) :=
  .idle { Same.refl s with mode := .inr nofun }

theorem does_openMenu (s : Files) (x z : Int) : Does y lets s (s.openMenu x z) :=
  .idle { Same.refl s with }

theorem does_togglePlaces (s : Files) : Does y lets s { s with places := !s.places } :=
  .idle { Same.refl s with }

theorem does_closeMenu (s : Files) : Does y lets s { s with menuOpen := false } :=
  .idle { Same.refl s with }

/-- What an entry of the menu may do. -/
def menuLets (s : Files) (c : Cmd) : Lets :=
  match c with
  | .hidden => { reread := some (!s.showHidden) }
  | .stopJob => if s.jobActive then { reread := some s.showHidden } else {}
  | .rename => { begins := true }
  | _ => {}

theorem reaches_runMenu (s : Files) (c : Cmd) : Reaches y (s.menuLets c) s (s.runMenu y c) := by
  unfold runMenu
  refine ReflTransGen.trans (.single (does_closeMenu s)) ?_
  cases c with
  | «open» => exact reaches_activate _
  | newDir => exact .single (does_beginCreate _ _)
  | newFile => exact .single (does_beginCreate _ _)
  | rename => exact .single (.begin rfl)
  | delete => exact reaches_beginDelete _
  | copy => exact reaches_takeClipboard _ _
  | cut => exact reaches_takeClipboard _ _
  | paste => exact reaches_pasteClipboard _
  | selectAll => exact .single (does_selectAll _)
  | split => exact .single .split
  | places => exact .single (does_togglePlaces _)
  | hidden => exact reaches_toggleHidden _ rfl
  | up => exact reaches_goUp _
  | back => exact reaches_goBack _
  | forward => exact reaches_goForward _
  | sortName => exact .single (does_sortOn _ _)
  | sortSize => exact .single (does_sortOn _ _)
  | sortTime => exact .single (does_sortOn _ _)
  | stopJob =>
      refine reaches_stopJob _ fun hactive => ?_
      have hactive : s.jobActive = true := hactive
      simp [menuLets, hactive]

/-! ### Keys -/

/-- What a key may do. -/
def keyLets (y : Sys) (s : Files) (k : KeyEvent) : Lets :=
  if s.menuOpen then {}
  else if s.mode = .renaming then
    match if k.key = .enter then s.renames y else none with
    | some r => { reread := some s.showHidden, rename := some r }
    | none => {}
  else if s.mode = .creating then
    if k.key = .enter ∧ s.creates y = true then { reread := some s.showHidden } else {}
  else if s.mode = .confirming then {}
  else if k.key = .escape ∧ s.jobActive = true then { reread := some s.showHidden }
  else if k.key = .char ∧ k.ch = '.'.toNat ∧ s.pane.filter = [] then { reread := some (!s.showHidden) }
  else { begins := k.key = .f2 }

theorem keyLets_renaming {k : KeyEvent} (hmenu : s.menuOpen = false) (hmode : s.mode = .renaming)
    (hkey : k.key = .enter) {r : Bytes × Bytes} (hr : s.renames y = some r) :
    s.keyLets y k = { reread := some s.showHidden, rename := some r } := by
  unfold keyLets
  rw [if_neg (by simp [hmenu]), if_pos hmode, if_pos hkey, hr]

theorem keyLets_creating {k : KeyEvent} (hmenu : s.menuOpen = false) (hmode : s.mode = .creating)
    (hkey : k.key = .enter) (hcreates : s.creates y = true) :
    s.keyLets y k = { reread := some s.showHidden } := by
  have hother : s.mode ≠ .renaming := by simp [hmode]
  unfold keyLets
  rw [if_neg (by simp [hmenu]), if_neg hother, if_pos hmode, if_pos ⟨hkey, hcreates⟩]

/-- In the list. -/
theorem keyLets_normal {k : KeyEvent} (hmenu : s.menuOpen = false) (hmode : s.mode = .normal) :
    s.keyLets y k =
      if k.key = .escape ∧ s.jobActive = true then { reread := some s.showHidden }
      else if k.key = .char ∧ k.ch = '.'.toNat ∧ s.pane.filter = [] then { reread := some (!s.showHidden) }
      else { begins := k.key = .f2 } := by
  have hother : s.mode ≠ .renaming ∧ s.mode ≠ .creating ∧ s.mode ≠ .confirming := by simp [hmode]
  unfold keyLets
  rw [if_neg (by simp [hmenu]), if_neg hother.1, if_neg hother.2.1, if_neg hother.2.2]

theorem reaches_fieldKey (s : Files) (k : KeyEvent) (hmenu : s.menuOpen = false)
    (hmode : s.mode = .renaming ∨ s.mode = .creating) : Reaches y (s.keyLets y k) s (s.fieldKey y k) := by
  unfold fieldKey
  cases hkey : k.key with
  | enter =>
      simp only
      split
      next hcreating =>
        refine reaches_commitCreate s fun hcreates => ?_
        rw [keyLets_creating hmenu hcreating hkey hcreates]
      next hcreating =>
        have hrenaming := hmode.resolve_right hcreating
        refine reaches_commitRename s fun r hr => ?_
        rw [keyLets_renaming hmenu hrenaming hkey hr]
        exact ⟨rfl, rfl⟩
  | escape => exact .single (.idle { Same.refl s with mode := .inr nofun })
  | backspace => exact .single (.idle { Same.refl s with })
  | char =>
      simp only
      split
      · exact .single (.idle { Same.refl s with })
      · exact .refl
  | _ => exact .refl

theorem reaches_confirmKey (s : Files) (k : KeyEvent) : Reaches y lets s (s.confirmKey k) := by
  unfold confirmKey
  split
  · exact reaches_commitDelete s
  · exact .single (.idle { Same.refl s with mode := .inr nofun })

theorem reaches_escapeKey (s : Files) (h : s.jobActive = true → lets.reread = some s.showHidden) :
    Reaches y lets s (s.escapeKey y) := by
  unfold escapeKey
  split
  · exact reaches_stopJob s h
  split
  · exact .single (does_filter _ _)
  · exact .single (does_unmark _)

theorem reaches_charKey (s : Files) (k : KeyEvent)
    (h : k.ch = '.'.toNat → s.pane.filter = [] → lets.reread = some (!s.showHidden)) :
    Reaches y lets s (s.charKey y k) := by
  unfold charKey
  split
  next hdot => exact reaches_toggleHidden s (h hdot.1 hdot.2)
  split
  · exact .single (does_filter _ _)
  · exact .refl

theorem reaches_listKey (s : Files) (k : KeyEvent) (hmenu : s.menuOpen = false) (hmode : s.mode = .normal) :
    Reaches y (s.keyLets y k) s (s.listKey y k) := by
  have hlets := keyLets_normal (y := y) (k := k) hmenu hmode
  unfold listKey
  cases hkey : k.key with
  | up => exact .single (does_moveTo _ _ _)
  | down => exact .single (does_moveTo _ _ _)
  | pgUp => exact .single (does_select _ _)
  | pgDn => exact .single (does_select _ _)
  | home => exact .single (does_select _ _)
  | «end» => exact .single (does_select _ _)
  | enter => exact reaches_activate _
  | f2 =>
      refine .single (.begin ?_)
      rw [hlets, if_neg (by simp [hkey]), if_neg (by simp [hkey])]
      exact decide_eq_true hkey
  | f9 => exact .single (does_togglePlaces _)
  | f3 => exact .single .split
  | tab =>
      simp only
      split
      next hsplit =>
        refine .single (.focus _ hsplit ?_)
        rw [hlets, if_neg (by simp [hkey]), if_neg (by simp [hkey])]
      · exact .refl
  | f7 => exact .single (does_beginCreate _ _)
  | delete => exact reaches_beginDelete _
  | escape =>
      refine reaches_escapeKey s fun hactive => ?_
      rw [hlets, if_pos ⟨hkey, hactive⟩]
  | backspace =>
      simp only
      split
      · exact .single (does_filter _ _)
      · exact reaches_goUp s
  | char =>
      refine reaches_charKey s k fun hdot hfilter => ?_
      rw [hlets, if_neg (by simp [hkey]), if_pos ⟨hkey, hdot, hfilter⟩]
  | _ => exact .refl

/-- **What a key does.** -/
theorem reaches_onKey (s : Files) (k : KeyEvent) : Reaches y (s.keyLets y k) s (s.onKey y k) := by
  unfold onKey
  refine reaches_ite (fun hmenu => ?_) fun hmenu => ?_
  · exact reaches_ite (fun _ => .single (does_closeMenu s)) fun _ => .refl
  have hmenu : s.menuOpen = false := by simpa using hmenu
  refine reaches_ite (fun hmode => reaches_fieldKey s k hmenu hmode) fun hfield => ?_
  refine reaches_ite (fun _ => reaches_confirmKey s k) fun hconfirm => ?_
  have hnormal : s.mode = .normal := by
    cases hmode : s.mode with
    | normal => rfl
    | «renaming» => exact absurd (.inl hmode) hfield
    | creating => exact absurd (.inr hmode) hfield
    | confirming => exact absurd hmode hconfirm
  refine reaches_ite (fun _ => reaches_takeClipboard _ _) fun _ => ?_
  refine reaches_ite (fun _ => reaches_takeClipboard _ _) fun _ => ?_
  refine reaches_ite (fun _ => reaches_pasteClipboard _) fun _ => ?_
  refine reaches_ite (fun _ => .single (does_selectAll _)) fun _ => ?_
  refine reaches_ite (fun _ => ?_) fun _ => ?_
  · obtain ⟨marked, heq, hmarked⟩ := s.pane.toggleMark_spec s.pane.sel
    exact .single (does_markSelect s _ heq hmarked)
  refine reaches_ite (fun _ => reaches_goBack s) fun _ => ?_
  exact reaches_ite (fun _ => reaches_goForward s) fun _ => reaches_listKey s k hmenu hnormal

/-! ### The mouse -/

/-- What a mouse event may do. -/
def mouseLets (s : Files) (m : MouseEvent) : Lets :=
  if s.menuOpen then
    match s.menuAt m.x m.y with
    | some it => if m.action = .press then s.menuLets it.cmd else {}
    | none => {}
  else { gesture := true }

theorem reaches_mouseMenu (s : Files) (m : MouseEvent) (hmenu : s.menuOpen = true) :
    Reaches y (s.mouseLets m) s (s.mouseMenu y m) := by
  unfold mouseMenu
  split
  · exact .refl
  next hpress =>
    rw [not_not] at hpress
    cases hat : s.menuAt m.x m.y with
    | none => exact .single (does_closeMenu s)
    | some it =>
        have hlets : s.mouseLets m = s.menuLets it.cmd := by simp [mouseLets, hmenu, hat, hpress]
        rw [hlets]
        exact reaches_runMenu s it.cmd

theorem reaches_mousePlaces (s : Files) (m : MouseEvent) : Reaches y lets s (s.mousePlaces y m) := by
  unfold mousePlaces
  split
  · split
    · exact reaches_goTo s _
    · exact .refl
  · exact .refl

theorem reaches_pressLine (s : Files) (m : MouseEvent) (hit : Nat) (h : lets.gesture = true) :
    Reaches y lets s (s.pressLine y m hit) := by
  unfold pressLine
  split
  · obtain ⟨marked, heq, hmarked⟩ := s.pane.toggleMark_spec hit
    exact .single (does_markSelect s _ heq hmarked)
  split
  · obtain ⟨marked, heq, hmarked⟩ := s.pane.markRange_spec s.pane.sel hit
    exact .single (does_markSelect s _ heq hmarked)
  · have hheld : Does y lets s { s with pressed := true, pressX := m.x, pressY := m.y } :=
      .idle { @Same.refl lets s with gesture := fun hno => by rw [h] at hno; cases hno }
    refine ReflTransGen.trans (.single hheld) ?_
    simp only
    split
    · exact reaches_activate _
    · exact .single (does_select _ _)

theorem reaches_pressPane (s : Files) (m e : MouseEvent) (h : lets.gesture = true) :
    Reaches y lets s (s.pressPane y m e) := by
  unfold pressPane
  split
  · split
    · exact reaches_goTo s _
    · exact .refl
  split
  · simp only
    split
    · exact .single (does_sortOn _ _)
    split
    · exact .single (does_sortOn _ _)
    · exact .single (does_sortOn _ _)
  simp only
  generalize (if e.y - 2 ≥ 0 ∧ (e.y - 2).toNat < s.rowsForList then s.pane.top + (e.y - 2).toNat
    else s.pane.visible.length) = hit
  split
  · refine ReflTransGen.tail ?_ (does_openMenu _ _ _)
    split
    · exact .single (does_select _ _)
    · exact .refl
  split
  · exact reaches_pressLine s m _ h
  · exact .refl

theorem reaches_mousePane (s : Files) (m e : MouseEvent) (h : lets.gesture = true) :
    Reaches y lets s (s.mousePane y m e) := by
  have hno : lets.gesture ≠ false := by simp [h]
  unfold mousePane
  split
  · unfold mouseDrag
    split
    · exact .single (.idle { @Same.refl lets s with gesture := fun hg => absurd hg hno })
    · exact .refl
  split
  · have hreleased : Does y lets s { s with pressed := false, dragging := false, drag := [] } :=
      .idle { @Same.refl lets s with gesture := fun hg => absurd hg hno }
    unfold mouseRelease
    simp only
    split
    · exact .single hreleased
    · split
      · exact .single hreleased
      · exact (ReflTransGen.single hreleased).tail (does_startJob _ _ _ _)
  · exact .single (does_select _ _)
  · exact .single (does_select _ _)
  · exact reaches_pressPane s m e h
  · exact .refl

/-- **What the mouse does.** -/
theorem reaches_onMouse (s : Files) (m : MouseEvent) : Reaches y (s.mouseLets m) s (s.onMouse y m) := by
  unfold onMouse
  split
  next hmenu => exact reaches_mouseMenu s m hmenu
  next hmenu =>
  have hlets : s.mouseLets m = { gesture := true } := if_neg hmenu
  rw [hlets]
  split
  · exact reaches_mousePlaces s m
  split
  · exact .refl
  next side x hat =>
    refine ReflTransGen.trans ?_ (reaches_mousePane _ m _ rfl)
    by_cases hsplit : s.split = true
    · exact .single (.focus side hsplit rfl)
    · -- one pane alone: it is active
      have hside : side = s.active := by
        unfold paneAt at hat
        split at hat
        · cases hat
        · simp only at hat
          exact (congrArg Prod.fst (Option.some.inj hat)).symm
      rw [hside]

/-! ### Invariants -/

/-- What is read of both panes at the end of a job. -/
def probed (y : Sys) (s : Files) : Files :=
  { s with panes := fun i =>
      let probe := readDir y.readdir (s.panes i).listing.path s.showHidden
      if probe.error = [] then { s.panes i with listing := probe } else s.panes i }

theorem reaches_invariant {inv : Files → Prop} (hdoes : ∀ {s s'}, Does y lets s s' → inv s → inv s')
    (hr : Reaches y lets s s') (h : inv s) : inv s' := by
  induction hr with
  | refl => exact h
  | tail _ hd ih => exact hdoes hd ih

/-- **What every event keeps**: what the moves keep, and a new size, and a reading. -/
theorem step_invariant {inv : Files → Prop}
    (hdoes : ∀ {y lets s s'}, Does y lets s s' → inv s → inv s')
    (hsize : ∀ {s} size, inv s → inv { s with size }) (hprobed : ∀ {y s}, inv s → inv (s.probed y))
    {s : Files} (h : inv s) (e : Event) : inv (s.step e) := by
  cases e with
  | key y k => exact reaches_invariant hdoes (reaches_onKey s k) h
  | mouse y m => exact reaches_invariant hdoes (reaches_onMouse s m) h
  | resize size =>
      show inv (s.onResize size)
      unfold onResize
      split
      · exact h
      · exact hdoes (@does_settled { readdir := fun _ => .ok [] } {} { s with size }) (hsize size h)
  | refresh y more done failed error =>
      have hslice : ∀ (active : Bool) (count : Nat), inv { s with jobActive := active, jobDone := count } :=
        fun active count => @hdoes y {} _ _ (.idle { Same.refl s with }) h
      show inv (s.onRefresh y more done failed error)
      unfold onRefresh
      split
      · exact h
      split
      · exact @hdoes y {} _ _ (.idle { Same.refl s with }) h
      · have hread := @hprobed y _ (hslice false 0)
        have hshown := @hdoes y {} _ _ (does_refilter _) hread
        exact @hdoes y {} _ _ (does_status _ _) hshown

end Moves

/-! ### A small disk, for the runs on fixed inputs -/

/-- Every directory of it has these files. -/
def holding (names : List String) : Sys := { readdir := fun _ => .ok (names.map ({ name := text · })) }

def keyOf (names : List String) (key : Input.Key) : Event := .key (holding names) { key }

def ctrlOf (names : List String) (c : Char) : Event :=
  .key (holding names) { key := .char, ch := c.toNat, mods := { ctrl := true } }

def mouseOf (names : List String) (action : Input.MouseAction) (x y : Int) : Event :=
  .mouse (holding names) { action, x, y }

end Sshos.Apps.Files
