import Sshos.Apps.FilesDrag

/-!
# Sshos.Apps.FilesDrop

**Where a drop goes**, beside what is on display at the cell where the button is released. The
mouse is held by the window, and is told of cells outside of it too.
-/

namespace Sshos.Apps.Files

open Sshos.Input (MouseEvent)
open Sshos.Lib (Bytes run run_preserves)
open Sshos.Shell (text)

/-! ### What is on display -/

/-- What is drawn of a pane's list, from the line 2 on. -/
def Pane.drawn (rows : Nat) (p : Pane) : List DirEntry := (p.visible.drop p.top).take rows

/-- The entry that is on display on a line of the window. -/
def displayed (s : Files) (side : Side) (y : Int) : Option DirEntry :=
  if 2 ≤ y ∧ y < s.size.h then ((s.panes side).drawn s.rowsForList)[(y - 2).toNat]? else none

/-- The pane that is drawn on a column of the window. -/
def area (s : Files) (x : Int) : Option Side :=
  let left := if s.places then kPlacesWidth + 1 else 0
  if x < left ∨ s.size.w ≤ x then none
  else if s.split then
    if x - left < s.paneWidth then some .first
    else if x - left = s.paneWidth then none
    else some .second
  else some .first

def InWindow (s : Files) (x y : Int) : Prop := 0 ≤ x ∧ x < s.size.w ∧ 0 ≤ y ∧ y < s.size.h

/-- Where an entry that is a directory leads. -/
def entryPath (dir : Bytes) (e : DirEntry) : Bytes :=
  if e.name = kParent then parentPath dir else joinPath dir e.name

/-- An entry that is a directory. -/
def asDir (e : Option DirEntry) : Option DirEntry := e.filter (·.kind = .dir)

/-- The directory on display on the line, or else that of the pane. -/
def shownTarget (s : Files) (side : Side) (y : Int) : Bytes :=
  match asDir (s.displayed side y) with
  | some e => entryPath (s.panes side).listing.path e
  | none => (s.panes side).listing.path

/-- **A drop goes where it is seen to go**, if it goes somewhere. -/
def DropsAsShown (y : Sys) (s : Files) (m : MouseEvent) : Prop :=
  ∀ job, (s.onMouse y m).started = job :: s.started →
    s.InWindow m.x m.y ∧ ∃ side, s.area m.x = some side ∧ job.dest = s.shownTarget side m.y

/-! ### When it does -/

/-- The entry that the line stands for, on display or not. -/
def overAt (s : Files) (side : Side) (y : Int) : Option DirEntry :=
  if y - 2 ≥ 0 then (s.panes side).visible[(s.panes side).top + (y - 2).toNat]? else none

/-- A drop that leads nowhere: there is none, a job is on, or what is dragged is there already. -/
def Refuses (s : Files) (side : Side) (y : Int) : Prop :=
  s.dragging = false ∨ s.drag = [] ∨ s.jobActive = true ∨
    match asDir (s.overAt side y) with
    | some e => e.name ≠ kParent ∧
        (joinPath (s.panes side).listing.path e.name ∈ s.drag ∨ joinPath (s.panes side).listing.path e.name = [])
    | none => (s.panes side).listing.path = [] ∨ ∃ src ∈ s.drag, parentPath src = (s.panes side).listing.path

/-- The cell is in the window, and its line shows the entry it stands for, or stands for no other
directory than the pane's. -/
def OnDisplay (s : Files) (side : Side) (x y : Int) : Prop :=
  s.InWindow x y ∧
    ((y - 2).toNat < s.rowsForList ∨
      ∀ e, asDir (s.overAt side y) = some e → entryPath (s.panes side).listing.path e = (s.panes side).listing.path)

def DropsWell (s : Files) (m : MouseEvent) : Prop :=
  s.menuOpen = true ∨ ∀ side x, s.paneAt m.x = some (side, x) → s.Refuses side m.y ∨ s.OnDisplay side m.x m.y

section Drop

variable {y : Sys} {s s' : Files} {side : Side} {x z : Int}

/-- The line shows the entry it stands for. -/
theorem displayed_eq (h : z < s.size.h) :
    s.displayed side z = if (z - 2).toNat < s.rowsForList then s.overAt side z else none := by
  unfold displayed overAt Pane.drawn
  by_cases hz : 2 ≤ z
  · rw [if_pos ⟨hz, h⟩, if_pos (by omega : z - 2 ≥ 0), List.getElem?_take, List.getElem?_drop]
  · rw [if_neg fun hno => hz hno.1, if_neg (by omega : ¬ z - 2 ≥ 0)]
    split <;> rfl

/-- A path has a parent. -/
theorem parentPath_ne_nil (path : Bytes) : parentPath path ≠ [] := by
  unfold parentPath
  generalize (trimSlashes path.reverse).dropWhile _ = kept
  match kept with
  | [] => nofun
  | [_] => nofun
  | _ :: c :: rest => simp

/-- A column in a pane shows that pane. -/
theorem area_of_paneAt (hfocus : s.split = false → s.active = .first) (hx : 0 ≤ z ∧ z < s.size.w)
    (hat : s.paneAt z = some (side, x)) : s.area z = some side := by
  unfold paneAt at hat
  unfold area
  by_cases hstrip : s.places = true ∧ z ≤ kPlacesWidth
  · rw [if_pos hstrip] at hat
    cases hat
  rw [if_neg hstrip] at hat
  simp only at hat ⊢
  -- the column in the panes
  have hcolumn : (if s.places = true then z - kPlacesWidth - 1 else z) =
      z - if s.places = true then kPlacesWidth + 1 else 0 := by
    split <;> omega
  have hleft : ¬ (z < (if s.places = true then kPlacesWidth + 1 else 0) ∨ s.size.w ≤ z) := by
    split
    next hplaces =>
      have hpast : ¬ z ≤ kPlacesWidth := fun h => hstrip ⟨hplaces, h⟩
      omega
    · omega
  rw [hcolumn] at hat
  rw [if_neg hleft]
  generalize z - (if s.places = true then kPlacesWidth + 1 else 0) = column at hat ⊢
  cases hsplit : s.split with
  | false =>
      rw [if_neg (by simp [hsplit])] at hat
      obtain rfl : s.active = side := congrArg Prod.fst (Option.some.inj hat)
      rw [hfocus hsplit]
      rfl
  | true =>
      rw [if_pos hsplit] at hat
      rcases Int.lt_trichotomy column s.paneWidth with hlt | heq | hgt
      · rw [if_neg (by omega), if_pos hlt] at hat
        obtain rfl : Side.first = side := congrArg Prod.fst (Option.some.inj hat)
        simp [hlt]
      · rw [if_neg (by omega), if_neg (by omega)] at hat
        cases hat
      · rw [if_pos hgt] at hat
        obtain rfl : Side.second = side := congrArg Prod.fst (Option.some.inj hat)
        simp only [if_true]
        rw [if_neg (by omega), if_neg (by omega)]

@[simp] theorem asDir_none : asDir none = none := rfl

theorem asDir_dir {e : DirEntry} (h : e.kind = .dir) : asDir (some e) = some e := by
  simp [asDir, Option.filter, h]

theorem asDir_other {e : DirEntry} (h : e.kind ≠ .dir) : asDir (some e) = none := by
  simp [asDir, Option.filter, h]

/-- Where the window drops. -/
theorem dropTarget_eq (s : Files) (e : MouseEvent) (sources : List Bytes) :
    s.dropTarget e sources =
      match asDir (s.overAt s.active e.y) with
      | some entry =>
          if entry.name = kParent then parentPath s.pane.listing.path
          else if joinPath s.pane.listing.path entry.name ∈ sources then []
          else joinPath s.pane.listing.path entry.name
      | none => if sources.any fun src => parentPath src = s.pane.listing.path then [] else s.pane.listing.path := by
  have hover : (if e.y - 2 ≥ 0 then s.pane.visible[s.pane.top + (e.y - 2).toNat]? else none) =
      s.overAt s.active e.y := rfl
  unfold dropTarget
  simp only [hover]
  cases s.overAt s.active e.y with
  | none => rfl
  | some entry =>
      by_cases hdir : entry.kind = .dir
      · rw [asDir_dir hdir]
        exact if_pos hdir
      · rw [asDir_other hdir]
        exact if_neg hdir

/-- The line leads nowhere: what is dragged is there already. -/
theorem dropTarget_eq_nil (s : Files) (e : MouseEvent) (sources : List Bytes) :
    s.dropTarget e sources = [] ↔
      match asDir (s.overAt s.active e.y) with
      | some entry => entry.name ≠ kParent ∧
          (joinPath s.pane.listing.path entry.name ∈ sources ∨ joinPath s.pane.listing.path entry.name = [])
      | none => s.pane.listing.path = [] ∨ ∃ src ∈ sources, parentPath src = s.pane.listing.path := by
  rw [dropTarget_eq]
  cases asDir (s.overAt s.active e.y) with
  | none =>
      simp only
      split
      next hthere =>
        have hsome : ∃ src ∈ sources, parentPath src = s.pane.listing.path := by simpa using hthere
        exact ⟨fun _ => .inr hsome, fun _ => rfl⟩
      next hthere =>
        have hnone : ¬ ∃ src ∈ sources, parentPath src = s.pane.listing.path := by simpa using hthere
        exact ⟨.inl, fun h => h.resolve_right hnone⟩
  | some entry =>
      simp only
      split
      next hparent => exact ⟨fun h => absurd h (parentPath_ne_nil _), fun h => absurd hparent h.1⟩
      next hparent =>
        split
        next hself => exact ⟨fun _ => ⟨hparent, .inl hself⟩, fun _ => rfl⟩
        next hself => exact ⟨fun h => ⟨hparent, .inr h⟩, fun h => h.2.resolve_left hself⟩

/-- And one that leads somewhere leads to what it stands for. -/
theorem dropTarget_of_ne_nil {s : Files} {e : MouseEvent} {sources : List Bytes}
    (h : s.dropTarget e sources ≠ []) :
    s.dropTarget e sources =
      match asDir (s.overAt s.active e.y) with
      | some entry => entryPath s.pane.listing.path entry
      | none => s.pane.listing.path := by
  rw [dropTarget_eq] at h ⊢
  unfold entryPath
  cases hover : asDir (s.overAt s.active e.y) with
  | none =>
      simp only [hover] at h ⊢
      split
      next hthere => exact absurd (if_pos hthere) h
      · rfl
  | some entry =>
      simp only [hover] at h ⊢
      split
      · rfl
      next hparent =>
        rw [if_neg hparent] at h
        split
        next hself => exact absurd (if_pos hself) h
        · rfl

theorem mouseRelease_started (s : Files) (e : MouseEvent) :
    (s.mouseRelease e).started =
      if s.dragging = false ∨ s.drag = [] ∨ s.jobActive = true ∨ s.dropTarget e s.drag = [] then s.started
      else { sources := s.drag, dest := s.dropTarget e s.drag, kind := .move } :: s.started := by
  have hdest : dropTarget { s with pressed := false, dragging := false, drag := [] } e s.drag =
      s.dropTarget e s.drag := rfl
  unfold mouseRelease
  simp only [hdest]
  by_cases hwas : s.dragging = false ∨ s.drag = []
  · rw [if_pos hwas, if_pos (hwas.imp_right .inl)]
  rw [if_neg hwas]
  rw [not_or] at hwas
  by_cases hrefused : s.dropTarget e s.drag = [] ∨ s.jobActive = true
  · rw [if_pos hrefused, if_pos (.inr (.inr hrefused.symm))]
  · rw [if_neg hrefused, if_neg]
    · rfl
    · rintro (h | h | h)
      · exact hwas.1 h
      · exact hwas.2 h
      · exact hrefused h.symm

/-- A drop that is refused starts nothing; one that is not goes where the line stands for. -/
theorem started_drop (s : Files) (e : MouseEvent) :
    (s.Refuses s.active e.y ∧ (s.mouseRelease e).started = s.started) ∨
    (¬ s.Refuses s.active e.y ∧ (s.mouseRelease e).started =
      { sources := s.drag
        dest := match asDir (s.overAt s.active e.y) with
          | some entry => entryPath s.pane.listing.path entry
          | none => s.pane.listing.path
        kind := .move } :: s.started) := by
  have hrefuses : s.Refuses s.active e.y ↔
      s.dragging = false ∨ s.drag = [] ∨ s.jobActive = true ∨ s.dropTarget e s.drag = [] := by
    rw [dropTarget_eq_nil]
    rfl
  rw [mouseRelease_started]
  by_cases hrefused : s.Refuses s.active e.y
  · exact .inl ⟨hrefused, if_pos (hrefuses.1 hrefused)⟩
  · have hnot := mt hrefuses.2 hrefused
    rw [if_neg hnot, dropTarget_of_ne_nil fun hnil => hnot (.inr (.inr (.inr hnil)))]
    exact .inr ⟨hrefused, rfl⟩

/-- What the line stands for is what it shows, if the cell is good. -/
theorem shownTarget_eq (h : s.InWindow x z) :
    (match asDir (s.overAt side z) with
      | some entry => entryPath (s.panes side).listing.path entry
      | none => (s.panes side).listing.path) = s.shownTarget side z ↔ s.OnDisplay side x z := by
  unfold shownTarget OnDisplay
  rw [displayed_eq h.2.2.2]
  by_cases hrow : (z - 2).toNat < s.rowsForList
  · rw [if_pos hrow]
    exact ⟨fun _ => ⟨h, .inl hrow⟩, fun _ => rfl⟩
  · rw [if_neg hrow, asDir_none]
    simp only
    cases hover : asDir (s.overAt side z) with
    | none => exact ⟨fun _ => ⟨h, .inr fun _ hnone => nomatch hnone⟩, fun _ => rfl⟩
    | some entry =>
        refine ⟨fun hsame => ⟨h, .inr fun e he => ?_⟩, fun hon => hon.2.resolve_left hrow entry rfl⟩
        rw [← Option.some.inj he]
        exact hsame

/-- **One release.** -/
theorem dropsAsShown_iff (hfocus : s.split = false → s.active = .first) {m : MouseEvent}
    (hrelease : m.action = .release) : DropsAsShown y s m ↔ s.DropsWell m := by
  have hself : ∀ job : Started, s.started ≠ job :: s.started := fun job h => by simpa using congrArg List.length h
  unfold DropsAsShown DropsWell
  by_cases hmenu : s.menuOpen = true
  · rw [onMouse_release_out hrelease (.inl hmenu)]
    exact ⟨fun _ => .inl hmenu, fun _ job hjob => absurd hjob (hself job)⟩
  cases hat : s.paneAt m.x with
  | none =>
      rw [onMouse_release_out hrelease (.inr hat)]
      exact ⟨fun _ => .inr nofun, fun _ job hjob => absurd hjob (hself job)⟩
  | some at_ =>
      obtain ⟨side, x⟩ := at_
      rw [onMouse_release_in hrelease (by simpa using hmenu) hat]
      rcases ({ s with active := side } : Files).started_drop { m with x := x } with
        ⟨hrefuses, hstarted⟩ | ⟨hrefuses, hstarted⟩
      · rw [hstarted]
        refine ⟨fun _ => .inr fun side' x' heq => .inl ?_, fun _ job hjob => absurd hjob (hself job)⟩
        cases heq
        exact hrefuses
      · rw [hstarted]
        constructor
        · intro hshown
          refine .inr fun side' x' heq => .inr ?_
          cases heq
          obtain ⟨hin, side', harea, hdest⟩ := hshown _ rfl
          rw [area_of_paneAt hfocus ⟨hin.1, hin.2.1⟩ hat] at harea
          cases harea
          exact (shownTarget_eq hin).1 hdest
        · intro hwell job hjob
          have hon := ((hwell.resolve_left hmenu) side x rfl).resolve_left hrefuses
          obtain rfl := List.head_eq_of_cons_eq hjob
          exact ⟨hon.1, side, area_of_paneAt hfocus ⟨hon.1.1, hon.1.2.1⟩ hat, (shownTarget_eq hon.1).2 hon⟩

end Drop

/-! ### One pane alone is the first -/

def Focused (s : Files) : Prop := s.split = false → s.active = .first

section Focused

variable {y : Sys} {lets : Lets} {s s' : Files}

theorem Does.focused (hd : Does y lets s s') (h : Focused s) : Focused s' := by
  cases hd with
  | idle hs =>
      intro hsplit
      rw [hs.active]
      exact h (hs.split ▸ hsplit)
  | touch p ht => exact h
  | refilter filter sortBy sortDesc => exact h
  | load path hread => exact h
  | reload hidden hread => exact h
  | rename src dst hren => exact h
  | «begin» hbegins =>
      unfold beginRename
      simp only
      split
      · exact h
      · exact h
  | split =>
      unfold toggleSplit
      split
      · exact fun _ => rfl
      · exact fun hsplit => nomatch hsplit
  | focus side hsplit hread => exact fun hno => absurd (hsplit.symm.trans hno) nofun

theorem Focused.step (h : Focused s) (e : Event) : Focused (s.step e) :=
  step_invariant Does.focused (fun _ hs => hs) (fun hs => hs) h e

theorem run_focused (y : Sys) (path : Bytes) (es : List Event) : Focused (run step (start y path) es) :=
  @run_preserves _ _ step Focused (fun _ e h => h.step e) _ (fun _ => rfl) es

end Focused

/-- **Drops go where they are seen to go** exactly when the cell of the release is in the window,
and its line shows the directory it stands for. -/
theorem drop_iff (y : Sys) (path : Bytes) (es : List Event) (y' : Sys) (m : MouseEvent) :
    DropsAsShown y' (run step (start y path) es) { m with action := .release } ↔
      (run step (start y path) es).DropsWell { m with action := .release } :=
  dropsAsShown_iff (run_focused y path es) rfl

/-- A directory with three directories and a file. -/
def mixed : Sys :=
  { readdir := fun _ => .ok [{ name := text "a" }, { name := text "b", kind := .dir },
      { name := text "c", kind := .dir }, { name := text "d", kind := .dir }] }

/-- In a window with three lines for the list, the file is dragged while the directories are
scrolled back. -/
def draggedBelow : List Event :=
  [.resize { w := 40, h := 6 }, .key mixed { key := .end }, .mouse mixed { action := .press, x := 5, y := 4 },
    .mouse mixed { action := .motion, x := 6, y := 4 }, .mouse mixed { action := .wheelUp, x := 6, y := 4 },
    .mouse mixed { action := .wheelUp, x := 6, y := 4 }]

/-- Released on the status line, it goes into the directory that the window does not show. -/
theorem draggedBelow_hidden :
    ¬ DropsAsShown mixed (run step (start mixed (text "/e")) draggedBelow) { action := .release, x := 6, y := 5 } := by
  intro hshown
  obtain ⟨-, side, harea, hdest⟩ := hshown
    { sources := [text "/e/a"], dest := text "/e/d", kind := .move } (by decide +kernel)
  have hfirst : area (run step (start mixed (text "/e")) draggedBelow) 6 = some .first := by decide +kernel
  obtain rfl : Side.first = side := Option.some.inj (hfirst.symm.trans harea)
  revert hdest
  decide +kernel

end Sshos.Apps.Files
