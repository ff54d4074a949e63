import Sshos.Apps.FilesCoherent

/-!
# Sshos.Apps.FilesDrag

**Drag and drop**: what a release moves, and what a press took hold of. The window remembers a
gesture in five fields; what the gesture was is read off the history.
-/

namespace Sshos.Apps.Files

open Sshos.Input (KeyEvent MouseAction MouseEvent)
open Sshos.Lib (Bytes StepsMeet run run_append run_preserves stepsMeet_iff)
open Sshos.Shell (text)
open Sshos.Wm (Size)
open Relation (ReflTransGen)

/-! ### What a press takes hold of -/

/-- What is marked, or the entry of a line; never `..`. -/
def Pane.heldAt (p : Pane) (i : Nat) : List Bytes :=
  if p.marked ≠ [] then p.marked else if p.markableAt i = [] then [] else [p.markableAt i]

/-- What is held, and where it was taken. -/
structure Grab where
  x : Int
  y : Int
  dir : Bytes
  names : List Bytes
  deriving Repr, DecidableEq

def Grab.sources (g : Grab) : List Bytes := g.names.map (joinPath g.dir)

/-- What the mouse takes hold of: a plain press on a line of a list. -/
def grabs (s : Files) (m : MouseEvent) : Option Grab :=
  if m.action ≠ .press ∨ s.menuOpen = true then none
  else
    match s.paneAt m.x with
    | none => none
    | some (side, _) =>
        let p := s.panes side
        let hit := p.top + (m.y - 2).toNat
        if m.y - 2 ≥ 0 ∧ (m.y - 2).toNat < s.rowsForList ∧ hit < p.visible.length ∧
            m.button ≠ 2 ∧ m.mods.ctrl = false ∧ m.mods.shift = false then
          some { x := m.x, y := m.y, dir := p.listing.path, names := p.heldAt hit }
        else none

/-! ### Gestures -/

def Event.IsRelease : Event → Prop
  | .mouse _ m => m.action = .release
  | _ => False

/-- A press took hold of this, and the button was not released since. -/
def Holds (s₀ : Files) (past : List Event) (g : Grab) (since : List Event) : Prop :=
  ∃ before y m, past = before ++ .mouse y m :: since ∧ (run step s₀ before).grabs m = some g ∧
    ∀ e ∈ since, ¬ e.IsRelease

/-- And the pointer went to another cell. -/
def Gesture (s₀ : Files) (past : List Event) (g : Grab) : Prop :=
  ∃ since, Holds s₀ past g since ∧
    ∃ y m, .mouse y m ∈ since ∧ m.action = .motion ∧ (m.x ≠ g.x ∨ m.y ≠ g.y)

/-- What was taken hold of last, as long as the button is not released. -/
def grabAfter (s : Files) (g : Option Grab) : Event → Option Grab
  | .mouse _ m => if m.action = .release then none else (s.grabs m).or g
  | _ => g

/-- The window, and what was taken hold of last. -/
def watch (w : Files × Option Grab) (e : Event) : Files × Option Grab :=
  (w.1.step e, w.1.grabAfter w.2 e)

/-- **The pointer keeps to the panes**: a button that holds an entry is released over a pane with
no menu open, and a drag begins while the pane under the pointer has the targets that were taken. -/
def Grips (w : Files × Option Grab) : Event → Prop
  | .mouse _ m =>
      (m.action = .release → w.1.pressed = true ∨ w.1.dragging = true →
        w.1.menuOpen = false ∧ (w.1.paneAt m.x).isSome = true) ∧
      (m.action = .motion → w.1.pressed = true → w.1.dragging = false → w.1.menuOpen = false →
        m.x ≠ w.1.pressX ∨ m.y ≠ w.1.pressY →
        ∀ side x, w.1.paneAt m.x = some (side, x) → (w.1.panes side).targets ≠ [] →
          w.2.map Grab.sources = some ((w.1.panes side).paths (w.1.panes side).targets))
  | _ => True

section Grip

variable {y : Sys} {lets : Lets} {s s' s'' : Files}

/-- What is held. -/
structure SameGrip (s s' : Files) : Prop where
  pressed : s'.pressed = s.pressed
  dragging : s'.dragging = s.dragging
  drag : s'.drag = s.drag
  pressX : s'.pressX = s.pressX
  pressY : s'.pressY = s.pressY

theorem SameGrip.refl (s : Files) : SameGrip s s := ⟨rfl, rfl, rfl, rfl, rfl⟩

theorem SameGrip.trans (h : SameGrip s s') (h' : SameGrip s' s'') : SameGrip s s'' :=
  ⟨h'.pressed.trans h.pressed, h'.dragging.trans h.dragging, h'.drag.trans h.drag,
    h'.pressX.trans h.pressX, h'.pressY.trans h.pressY⟩

theorem Does.grip (hd : Does y lets s s') (hno : lets.gesture = false) : SameGrip s s' := by
  cases hd with
  | idle hs =>
      obtain ⟨hpressed, hdragging, hdrag, hx, hy⟩ := hs.gesture hno
      exact ⟨hpressed, hdragging, hdrag, hx, hy⟩
  | touch p ht => exact ⟨rfl, rfl, rfl, rfl, rfl⟩
  | refilter filter sortBy sortDesc => exact ⟨rfl, rfl, rfl, rfl, rfl⟩
  | load path hread => exact ⟨rfl, rfl, rfl, rfl, rfl⟩
  | reload hidden hread => exact ⟨rfl, rfl, rfl, rfl, rfl⟩
  | rename src dst hren => exact ⟨rfl, rfl, rfl, rfl, rfl⟩
  | «begin» hbegins =>
      unfold beginRename
      simp only
      split
      · exact .refl s
      · exact ⟨rfl, rfl, rfl, rfl, rfl⟩
  | split =>
      unfold toggleSplit
      split
      · exact ⟨rfl, rfl, rfl, rfl, rfl⟩
      · exact ⟨rfl, rfl, rfl, rfl, rfl⟩
  | focus side hsplit hread => exact ⟨rfl, rfl, rfl, rfl, rfl⟩

theorem Reaches.grip (hr : Reaches y lets s s') (hno : lets.gesture = false) : SameGrip s s' :=
  @reaches_invariant _ _ _ _ (SameGrip s) (fun hd hgrip => hgrip.trans (hd.grip hno)) hr (.refl s)

theorem keyLets_gesture (s : Files) (k : KeyEvent) : (s.keyLets y k).gesture = false := by
  unfold keyLets
  split_ifs <;> first | rfl | (split <;> rfl)

theorem menuLets_gesture (s : Files) (c : Cmd) : (s.menuLets c).gesture = false := by
  unfold menuLets
  split
  · rfl
  · split <;> rfl
  · rfl
  · rfl

/-- Neither a key, nor a new size, nor a job takes hold of anything. -/
theorem grip_onKey (s : Files) (k : KeyEvent) : SameGrip s (s.onKey y k) :=
  (reaches_onKey s k).grip (keyLets_gesture s k)

theorem grip_onResize (s : Files) (size : Size) : SameGrip s (s.onResize size) := by
  unfold onResize
  split
  · exact .refl s
  · exact ⟨rfl, rfl, rfl, rfl, rfl⟩

theorem grip_onRefresh (s : Files) (more : Bool) (done failed : Nat) (error : Bytes) :
    SameGrip s (s.onRefresh y more done failed error) := by
  unfold onRefresh
  split
  · exact .refl s
  split
  · exact ⟨rfl, rfl, rfl, rfl, rfl⟩
  · exact ⟨rfl, rfl, rfl, rfl, rfl⟩

/-! ### The mouse -/

/-- What the mouse does to what is held, while the button is not released. -/
inductive MouseGrip (s : Files) (m : MouseEvent) (s' : Files) : Prop
  | kept (h : SameGrip s s') (hgrab : s.grabs m = none)
  | armed (g : Grab) (hgrab : s.grabs m = some g)
      (h : SameGrip { s with pressed := true, pressX := g.x, pressY := g.y } s')
  | begun (side : Side) (x : Int) (hgrab : s.grabs m = none) (hmotion : m.action = .motion)
      (hpressed : s.pressed = true) (hdragging : s.dragging = false) (hmenu : s.menuOpen = false)
      (hcell : m.x ≠ s.pressX ∨ m.y ≠ s.pressY) (hat : s.paneAt m.x = some (side, x))
      (h : SameGrip { s with
        drag := (s.panes side).paths (s.panes side).targets
        dragging := !(s.panes side).targets.isEmpty } s')

theorem grabs_of_action (s : Files) {m : MouseEvent} (h : m.action ≠ .press) : s.grabs m = none := by
  unfold grabs
  rw [if_pos (.inl h)]

theorem grabs_of_menu {m : MouseEvent} (h : s.menuOpen = true) : s.grabs m = none := by
  unfold grabs
  rw [if_pos (.inr h)]

theorem grabs_of_paneAt {m : MouseEvent} (h : s.paneAt m.x = none) : s.grabs m = none := by
  unfold grabs
  rw [h]
  split <;> rfl

/-- The strip is in no pane. -/
theorem paneAt_strip {x : Int} (h : s.places = true ∧ x < kPlacesWidth) : s.paneAt x = none := by
  unfold paneAt
  rw [if_pos ⟨h.1, Int.le_of_lt h.2⟩]

/-- A press over a pane. -/
theorem grabs_press {m : MouseEvent} {side : Side} {x : Int} (hpress : m.action = .press)
    (hmenu : s.menuOpen = false) (hat : s.paneAt m.x = some (side, x)) :
    s.grabs m =
      if m.y - 2 ≥ 0 ∧ (m.y - 2).toNat < s.rowsForList ∧
          (s.panes side).top + (m.y - 2).toNat < (s.panes side).visible.length ∧
          m.button ≠ 2 ∧ m.mods.ctrl = false ∧ m.mods.shift = false then
        some { x := m.x, y := m.y, dir := (s.panes side).listing.path,
               names := (s.panes side).heldAt ((s.panes side).top + (m.y - 2).toNat) }
      else none := by
  unfold grabs
  rw [if_neg (by simp [hpress, hmenu]), hat]

theorem grip_mouseMenu (s : Files) (m : MouseEvent) (hmenu : s.menuOpen = true) :
    SameGrip s (s.mouseMenu y m) := by
  refine (reaches_mouseMenu s m hmenu).grip ?_
  unfold mouseLets
  rw [if_pos hmenu]
  split
  · split
    · exact menuLets_gesture s _
    · rfl
  · rfl

/-- A press on the line of a list. -/
theorem mouseGrip_pressLine {m : MouseEvent} {side : Side} {x : Int} (hpress : m.action = .press)
    (hmenu : s.menuOpen = false) (hat : s.paneAt m.x = some (side, x))
    (hrow : m.y - 2 ≥ 0 ∧ (m.y - 2).toNat < s.rowsForList)
    (hlt : (s.panes side).top + (m.y - 2).toNat < (s.panes side).visible.length) (hbutton : m.button ≠ 2) :
    MouseGrip s m ({ s with active := side }.pressLine y m ((s.panes side).top + (m.y - 2).toNat)) := by
  have hgrabs := grabs_press hpress hmenu hat
  have hactive : SameGrip s { s with active := side } := ⟨rfl, rfl, rfl, rfl, rfl⟩
  unfold pressLine
  split
  next hctrl =>
    obtain ⟨marked, heq, hmarked⟩ := (s.panes side).toggleMark_spec ((s.panes side).top + (m.y - 2).toNat)
    have hselect := @does_markSelect y {} { s with active := side } _ _
      ((s.panes side).top + (m.y - 2).toNat) heq hmarked
    exact .kept (hactive.trans (hselect.grip rfl)) (hgrabs.trans (if_neg fun h => by simp [hctrl] at h))
  next hctrl =>
  split
  next hshift =>
    obtain ⟨marked, heq, hmarked⟩ := (s.panes side).markRange_spec (s.panes side).sel
      ((s.panes side).top + (m.y - 2).toNat)
    have hselect := @does_markSelect y {} { s with active := side } _ _
      ((s.panes side).top + (m.y - 2).toNat) heq hmarked
    exact .kept (hactive.trans (hselect.grip rfl)) (hgrabs.trans (if_neg fun h => by simp [hshift] at h))
  next hshift =>
    refine .armed _ (hgrabs.trans (if_pos ?_)) ?_
    · exact ⟨hrow.1, hrow.2, hlt, hbutton, by simpa using hctrl, by simpa using hshift⟩
    · have harmed : SameGrip { s with pressed := true, pressX := m.x, pressY := m.y }
          { s with active := side, pressed := true, pressX := m.x, pressY := m.y } :=
        ⟨rfl, rfl, rfl, rfl, rfl⟩
      refine harmed.trans ?_
      simp only
      split
      · exact (@reaches_activate y {} _).grip rfl
      · exact (@does_select y {} _ _).grip rfl

/-- A press on a pane holds what it is said to take hold of. -/
theorem mouseGrip_pressPane (s : Files) (m : MouseEvent) (side : Side) (x : Int)
    (hpress : m.action = .press) (hmenu : s.menuOpen = false) (hat : s.paneAt m.x = some (side, x)) :
    MouseGrip s m ({ s with active := side }.pressPane y m { m with x := x }) := by
  have hgrabs := grabs_press hpress hmenu hat
  have hactive : SameGrip s { s with active := side } := ⟨rfl, rfl, rfl, rfl, rfl⟩
  have hkept : ∀ s', Reaches y {} { s with active := side } s' → SameGrip s s' :=
    fun s' hr => hactive.trans (hr.grip rfl)
  unfold pressPane
  split
  next hzero =>
    refine .kept ?_ (hgrabs.trans (if_neg fun h => ?_))
    · split
      · exact hkept _ (reaches_goTo _ _)
      · exact hactive
    · have hy : m.y = 0 := hzero
      omega
  split
  next hone =>
    refine .kept ?_ (hgrabs.trans (if_neg fun h => ?_))
    · simp only
      split
      · exact hkept _ (.single (does_sortOn _ _))
      split
      · exact hkept _ (.single (does_sortOn _ _))
      · exact hkept _ (.single (does_sortOn _ _))
    · have hy : m.y = 1 := hone
      omega
  simp only
  generalize hhit : (if m.y - 2 ≥ 0 ∧ (m.y - 2).toNat < rowsForList { s with active := side } then
    ({ s with active := side } : Files).pane.top + (m.y - 2).toNat
    else ({ s with active := side } : Files).pane.visible.length) = hit
  have hline : hit < (s.panes side).visible.length →
      (m.y - 2 ≥ 0 ∧ (m.y - 2).toNat < s.rowsForList) ∧ hit = (s.panes side).top + (m.y - 2).toNat := by
    intro hlt
    by_cases hrow : m.y - 2 ≥ 0 ∧ (m.y - 2).toNat < rowsForList { s with active := side }
    · rw [if_pos hrow] at hhit
      exact ⟨hrow, hhit.symm⟩
    · rw [if_neg hrow] at hhit
      exact absurd hhit.symm (Nat.ne_of_lt hlt)
  split
  next hbutton =>
    refine .kept (hkept _ ?_) (hgrabs.trans (if_neg fun h => h.2.2.2.1 hbutton))
    refine ReflTransGen.tail ?_ (does_openMenu _ _ _)
    split
    · exact .single (does_select _ _)
    · exact .refl
  next hbutton =>
  split
  next hlt =>
    obtain ⟨hrow, rfl⟩ := hline hlt
    exact mouseGrip_pressLine hpress hmenu hat hrow hlt hbutton
  next hmiss =>
    refine .kept hactive (hgrabs.trans (if_neg fun h => hmiss ?_))
    have hrow : m.y - 2 ≥ 0 ∧ (m.y - 2).toNat < rowsForList { s with active := side } := ⟨h.1, h.2.1⟩
    rw [if_pos hrow] at hhit
    rw [← hhit]
    exact h.2.2.1

/-- **What the mouse does to what is held.** -/
theorem mouseGrip_onMouse (s : Files) (m : MouseEvent) (hnot : m.action ≠ .release) :
    MouseGrip s m (s.onMouse y m) := by
  unfold onMouse
  split
  next hmenu => exact .kept (grip_mouseMenu s m hmenu) (grabs_of_menu hmenu)
  next hmenu =>
  have hmenu : s.menuOpen = false := by simpa using hmenu
  split
  next hstrip =>
    exact .kept ((@reaches_mousePlaces y {} s m).grip rfl) (grabs_of_paneAt (paneAt_strip hstrip))
  split
  next hat => exact .kept (.refl s) (grabs_of_paneAt hat)
  next side x hat =>
  have hactive : SameGrip s { s with active := side } := ⟨rfl, rfl, rfl, rfl, rfl⟩
  unfold mousePane
  split
  next hdrag =>
    have hnone := grabs_of_action s (m := m) (by simp [show m.action = .motion from hdrag.2])
    unfold mouseDrag
    split
    next hcell => exact .begun side x hnone hdrag.2 hdrag.1 hcell.2 hmenu hcell.1 hat ⟨rfl, rfl, rfl, rfl, rfl⟩
    · exact .kept hactive hnone
  next hdrag =>
  cases haction : m.action with
  | release => exact absurd haction hnot
  | wheelUp =>
      have hwheel := (@does_select y {} { s with active := side }
        (if (s.panes side).sel > 3 then (s.panes side).sel - 3 else 0)).grip rfl
      exact .kept (hactive.trans hwheel) (grabs_of_action s (by simp [haction]))
  | wheelDown =>
      have hwheel := (@does_select y {} { s with active := side }
        (min ((s.panes side).sel + 3) (lastLine { s with active := side }))).grip rfl
      exact .kept (hactive.trans hwheel) (grabs_of_action s (by simp [haction]))
  | press => exact mouseGrip_pressPane s m side x haction hmenu hat
  | motion => exact .kept hactive (grabs_of_action s (by simp [haction]))

/-- A release that is lost. -/
theorem onMouse_release_out {m : MouseEvent} (hrelease : m.action = .release)
    (hout : s.menuOpen = true ∨ s.paneAt m.x = none) : s.onMouse y m = s := by
  have hpress : m.action ≠ .press := by simp [hrelease]
  unfold onMouse
  split
  · exact if_pos hpress
  next hmenu =>
  split
  · exact if_neg fun h => hpress h.1
  · rw [hout.resolve_left hmenu]

theorem onMouse_release_in {m : MouseEvent} {side : Side} {x : Int} (hrelease : m.action = .release)
    (hmenu : s.menuOpen = false) (hat : s.paneAt m.x = some (side, x)) :
    s.onMouse y m = { s with active := side }.mouseRelease { m with x := x } := by
  unfold onMouse
  rw [if_neg (by simp [hmenu]), if_neg fun hstrip => ?_, hat]
  · unfold mousePane
    simp only [hrelease]
    rw [if_neg (by simp)]
  · rw [paneAt_strip hstrip] at hat
    cases hat

/-- **A release** lets go of everything, and moves what was dragged, if it moves something. -/
theorem mouseRelease_spec (s : Files) (e : MouseEvent) :
    (s.mouseRelease e).pressed = false ∧ (s.mouseRelease e).dragging = false ∧
    ((s.mouseRelease e).started = s.started ∨ s.dragging = true ∧ ∃ dest,
      (s.mouseRelease e).started = { sources := s.drag, dest, kind := .move } :: s.started) := by
  unfold mouseRelease
  simp only
  split
  · exact ⟨rfl, rfl, .inl rfl⟩
  next hwas =>
  split
  · exact ⟨rfl, rfl, .inl rfl⟩
  · exact ⟨rfl, rfl, .inr ⟨by simpa using fun h => hwas (.inl h), _, rfl⟩⟩

/-- What a release starts was dragged. -/
theorem started_release (s : Files) {m : MouseEvent} (hrelease : m.action = .release) :
    (s.onMouse y m).started = s.started ∨ s.dragging = true ∧ ∃ dest,
      (s.onMouse y m).started = { sources := s.drag, dest, kind := .move } :: s.started := by
  by_cases hout : s.menuOpen = true ∨ s.paneAt m.x = none
  · exact .inl (congrArg started (onMouse_release_out hrelease hout))
  · rw [not_or] at hout
    obtain ⟨⟨side, x⟩, hat⟩ := Option.ne_none_iff_exists'.1 hout.2
    rw [onMouse_release_in hrelease (by simpa using hout.1) hat]
    exact ({ s with active := side } : Files).mouseRelease_spec { m with x := x } |>.2.2

end Grip

/-! ### `..` is never marked -/

/-- Whatever is marked is a file of the directory, not the way out of it. -/
def NoExit : Files → Prop := EachPane fun p => kParent ∉ p.marked

theorem noExit_rule : PaneRule fun p => kParent ∉ p.marked where
  touch ht h hparent := by
    rcases ht.marked _ hparent with hold | ⟨hne, -⟩
    · exact h hold
    · exact hne rfl
  made hrows hmarked h := by
    rw [(Pane.refilter_spec _ _ hrows).2.2.2.2.2.2]
    rcases hmarked with hsame | hnone
    · rw [hsame]
      exact h
    · rw [hnone]
      nofun
  read _ h := h

theorem run_noExit (y : Sys) (path : Bytes) (es : List Event) : NoExit (run step (start y path) es) :=
  @run_preserves _ _ step NoExit (fun _ e h => EachPane.step noExit_rule h e) _
    (eachPane_start noExit_rule (fun _ => nofun) y path) es

/-! ### The history of a gesture -/

section History

variable {s₀ : Files} {past : List Event} {e : Event} {g : Grab} {since : List Event}

theorem Holds.snoc (h : Holds s₀ past g since) (he : ¬ e.IsRelease) :
    Holds s₀ (past ++ [e]) g (since ++ [e]) := by
  obtain ⟨before, y, m, rfl, hgrab, hsince⟩ := h
  refine ⟨before, y, m, by simp, hgrab, fun e' he' => ?_⟩
  rcases List.mem_append.1 he' with hold | hnew
  · exact hsince e' hold
  · rw [List.mem_singleton.1 hnew]
    exact he

theorem Holds.new {y : Sys} {m : MouseEvent} (hgrab : (run step s₀ past).grabs m = some g) :
    Holds s₀ (past ++ [.mouse y m]) g [] :=
  ⟨past, y, m, rfl, hgrab, fun _ he => nomatch he⟩

theorem Gesture.snoc (h : Gesture s₀ past g) (he : ¬ e.IsRelease) : Gesture s₀ (past ++ [e]) g := by
  obtain ⟨since, hholds, y, m, hmem, hmotion⟩ := h
  exact ⟨since ++ [e], hholds.snoc he, y, m, List.mem_append_left _ hmem, hmotion⟩

/-- The window goes its way, watched or not. -/
theorem run_watch (s₀ : Files) (g : Option Grab) (es : List Event) :
    (run watch (s₀, g) es).1 = run step s₀ es := by
  induction es generalizing s₀ g with
  | nil => rfl
  | cons e es ih => exact ih _ _

/-- What the window remembers of the gestures is what they were. -/
structure Remembers (s₀ : Files) (past : List Event) (w : Files × Option Grab) : Prop where
  pressed : w.1.pressed = true → ∃ g since, w.2 = some g ∧ Holds s₀ past g since ∧
    w.1.pressX = g.x ∧ w.1.pressY = g.y
  dragging : w.1.dragging = true → ∃ g, Gesture s₀ past g ∧ w.1.drag = g.sources

variable {w : Files × Option Grab} {s' : Files}

/-- What leaves the fields alone, and does not release the button. -/
theorem Remembers.kept (h : Remembers s₀ past w) (he : ¬ e.IsRelease) (hgrip : SameGrip w.1 s') :
    Remembers s₀ (past ++ [e]) (s', w.2) := by
  constructor
  · intro hpressed
    obtain ⟨g, since, hg, hholds, hx, hy⟩ := h.pressed (hgrip.pressed ▸ hpressed)
    exact ⟨g, since ++ [e], hg, hholds.snoc he, hgrip.pressX.trans hx, hgrip.pressY.trans hy⟩
  · intro hdragging
    obtain ⟨g, hgesture, hdrag⟩ := h.dragging (hgrip.dragging ▸ hdragging)
    exact ⟨g, hgesture.snoc he, hgrip.drag.trans hdrag⟩

/-- A release over a pane, or of a button that holds nothing. -/
theorem Grips.released {y : Sys} {m : MouseEvent} (hgrips : Grips w (.mouse y m))
    (hrelease : m.action = .release) :
    (w.1.onMouse y m).pressed = false ∧ (w.1.onMouse y m).dragging = false := by
  by_cases hin : w.1.menuOpen = false ∧ (w.1.paneAt m.x).isSome = true
  · obtain ⟨⟨side, x⟩, hat⟩ := Option.isSome_iff_exists.1 hin.2
    rw [onMouse_release_in hrelease hin.1 hat]
    have hspec := ({ w.1 with active := side } : Files).mouseRelease_spec { m with x := x }
    exact ⟨hspec.1, hspec.2.1⟩
  · have hout : w.1.menuOpen = true ∨ w.1.paneAt m.x = none := by
      rcases Bool.eq_false_or_eq_true w.1.menuOpen with hmenu | hmenu
      · exact .inl hmenu
      · exact .inr (by simpa [hmenu] using hin)
    rw [onMouse_release_out hrelease hout]
    have hnone : ¬ (w.1.pressed = true ∨ w.1.dragging = true) := fun h => hin (hgrips.1 hrelease h)
    simpa using hnone

/-- **One event.** -/
theorem Remembers.step (h : Remembers s₀ past w) (hw : w.1 = run step s₀ past) (hgrips : Grips w e) :
    Remembers s₀ (past ++ [e]) (watch w e) := by
  cases e with
  | key y k => exact h.kept (fun hno => hno) (grip_onKey w.1 k)
  | resize size => exact h.kept (fun hno => hno) (grip_onResize w.1 size)
  | refresh y more done failed error => exact h.kept (fun hno => hno) (grip_onRefresh w.1 more done failed error)
  | mouse y m =>
      by_cases hrelease : m.action = .release
      · obtain ⟨hpressed, hdragging⟩ := hgrips.released hrelease
        constructor
        · intro hno
          exact absurd hno (by simp [watch, Files.step, hpressed])
        · intro hno
          exact absurd hno (by simp [watch, Files.step, hdragging])
      have hnot : ¬ Event.IsRelease (.mouse y m) := hrelease
      have hafter : watch w (.mouse y m) = (w.1.onMouse y m, (w.1.grabs m).or w.2) := by
        unfold watch grabAfter
        simp only
        rw [if_neg hrelease]
        rfl
      rw [hafter]
      cases mouseGrip_onMouse (y := y) w.1 m hrelease with
      | kept hgrip hgrab =>
          rw [hgrab, Option.none_or]
          exact h.kept hnot hgrip
      | armed g hgrab hgrip =>
          rw [hgrab, Option.some_or]
          constructor
          · intro _
            exact ⟨g, [], rfl, .new (hw ▸ hgrab), hgrip.pressX, hgrip.pressY⟩
          · intro hdragging
            obtain ⟨g', hgesture, hdrag⟩ := h.dragging (hgrip.dragging ▸ hdragging)
            exact ⟨g', hgesture.snoc hnot, hgrip.drag.trans hdrag⟩
      | begun side x hgrab hmotion hpressed hdragging hmenu hcell hat hgrip =>
          rw [hgrab, Option.none_or]
          obtain ⟨g, since, hg, hholds, hx, hy⟩ := h.pressed hpressed
          constructor
          · intro _
            exact ⟨g, since ++ [.mouse y m], hg, hholds.snoc hnot, hgrip.pressX.trans hx, hgrip.pressY.trans hy⟩
          · intro hstarts
            have htargets : (w.1.panes side).targets ≠ [] := by
              have hsome : (!(w.1.panes side).targets.isEmpty) = true := hgrip.dragging.symm.trans hstarts
              simpa using hsome
            have hsame := hgrips.2 hmotion hpressed hdragging hmenu hcell side x hat htargets
            rw [hg] at hsame
            refine ⟨g, ⟨since ++ [.mouse y m], hholds.snoc hnot, y, m, ?_, hmotion, ?_⟩, ?_⟩
            · exact List.mem_append_right _ (List.mem_singleton_self _)
            · rw [← hx, ← hy]
              exact hcell
            · exact hgrip.drag.trans (Option.some.inj hsame).symm

/-- **What the window remembers**, after any run that keeps to the panes. -/
theorem run_remembers (hpressed : s₀.pressed = false) (hdragging : s₀.dragging = false) (es : List Event)
    (hgrips : StepsMeet watch Grips (s₀, none) es) : Remembers s₀ es (run watch (s₀, none) es) := by
  induction es using List.reverseRecOn with
  | nil => exact ⟨by simp [hpressed], by simp [hdragging]⟩
  | append_singleton es e ih =>
      rw [run_append]
      exact (ih hgrips.of_append).step (run_watch s₀ none es) (stepsMeet_iff.1 hgrips es e List.prefix_rfl)

theorem grabs_noExit {s : Files} (h : NoExit s) {m : MouseEvent} {g : Grab} (hg : s.grabs m = some g) :
    kParent ∉ g.names := by
  unfold grabs at hg
  split at hg
  · cases hg
  split at hg
  · cases hg
  next side x hat =>
  simp only at hg
  split at hg
  · obtain rfl := Option.some.inj hg
    simp only
    unfold Pane.heldAt
    split
    · exact h side
    split
    · nofun
    next hmarkable =>
      intro hparent
      exact (Pane.markableAt_shown hmarkable).1 (List.mem_singleton.1 hparent).symm
  · cases hg

end History

/-- **Releases move what was grabbed**, and leave nothing held: a job that one of them starts is
that of a press, a motion to another cell, and no release in between. -/
def MovesHeld (s₀ : Files) (es : List Event) : Prop :=
  ∀ past y m, past ++ [.mouse y m] <+: es → m.action = .release →
    let s := run step s₀ past
    let s' := s.step (.mouse y m)
    s'.pressed = false ∧ s'.dragging = false ∧
      (s'.started = s.started ∨ ∃ g dest,
        s'.started = { sources := g.sources, dest, kind := .move } :: s.started ∧
        Gesture s₀ past g ∧ kParent ∉ g.names)

/-- So it is in every run that keeps to the panes. -/
theorem run_movesHeld (y : Sys) (path : Bytes) (es : List Event)
    (hgrips : StepsMeet watch Grips (start y path, none) es) : MovesHeld (start y path) es := by
  intro past y' m hprefix hrelease s s'
  obtain ⟨later, rfl⟩ := hprefix
  have hmeets := hgrips.of_append
  have hgrip : Grips (run watch (start y path, none) past) (.mouse y' m) :=
    stepsMeet_iff.1 hmeets past _ List.prefix_rfl
  have hwatch : (run watch (start y path, none) past).1 = s := run_watch _ _ _
  have hremembers := run_remembers rfl rfl past hmeets.of_append
  obtain ⟨hpressed, hdragging⟩ := hgrip.released hrelease
  rw [hwatch] at hpressed hdragging
  refine ⟨hpressed, hdragging, ?_⟩
  rcases started_release (y := y') s hrelease with hsame | ⟨hdrag, dest, hstarted⟩
  · exact .inl hsame
  · obtain ⟨g, hgesture, hsources⟩ := hremembers.dragging (hwatch ▸ hdrag)
    rw [hwatch] at hsources
    refine .inr ⟨g, dest, ?_, hgesture, ?_⟩
    · rw [← hsources]
      exact hstarted
    · obtain ⟨since, ⟨before, _, m', -, hgrab, -⟩, -⟩ := hgesture
      exact grabs_noExit (run_noExit y path before) hgrab

/-- A file of `/d` goes to the strip of shortcuts. -/
def draggedAway : List Event :=
  [keyOf ["a"] .f9, mouseOf ["a"] .press 20 3, mouseOf ["a"] .motion 19 3, mouseOf ["a"] .release 5 3]

/-- The window still holds it, and the next click moves it. -/
theorem draggedAway_held : ¬ MovesHeld (start (holding ["a"]) (text "/d")) draggedAway := by
  intro hall
  have hreleased := (hall (draggedAway.take 3) _ _ List.prefix_rfl rfl).1
  revert hreleased
  decide +kernel

/-- It goes to the directory above. -/
def draggedUp : List Event :=
  [mouseOf ["a"] .press 20 3, mouseOf ["a"] .motion 20 2, mouseOf ["a"] .release 20 2]

theorem run_movesHeld_up :
    ∃ g dest, (run step (start (holding ["a"]) (text "/d")) draggedUp).started =
        [{ sources := g.sources, dest, kind := .move }] ∧
      Gesture (start (holding ["a"]) (text "/d")) (draggedUp.take 2) g ∧ kParent ∉ g.names := by
  have hgrips : StepsMeet watch Grips (start (holding ["a"]) (text "/d"), none) draggedUp := by
    refine ⟨⟨nofun, nofun⟩, ⟨nofun, ?_⟩, ⟨fun _ _ => ?_, nofun⟩, trivial⟩
    · intro _ _ _ _ _ side x hat _
      have hone : paneAt (run step (start (holding ["a"]) (text "/d")) (draggedUp.take 1)) 20 =
          some (.first, 20) := by decide +kernel
      obtain rfl : Side.first = side := congrArg Prod.fst (Option.some.inj (hone.symm.trans hat))
      decide +kernel
    · decide +kernel
  have hnew : (run step (start (holding ["a"]) (text "/d")) draggedUp).started ≠ [] := by decide +kernel
  have hold : (run step (start (holding ["a"]) (text "/d")) (draggedUp.take 2)).started = [] := by
    decide +kernel
  rcases (run_movesHeld (holding ["a"]) (text "/d") draggedUp hgrips (draggedUp.take 2) _ _
    List.prefix_rfl rfl).2.2 with hsame | ⟨g, dest, hstarted, hgesture, hparent⟩
  · exact absurd (hsame.trans hold) hnew
  · rw [hold] at hstarted
    exact ⟨g, dest, hstarted, hgesture, hparent⟩

end Sshos.Apps.Files
