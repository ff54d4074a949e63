import Sshos.Apps.FilesSteps
import Sshos.Lib.Run

/-!
# Sshos.Apps.FilesCoherent

**What the panes show** is what they hold: the entries that were read, filtered and sorted, a
selection in the list and on the page, marks on entries that are there. The active pane is
always so; the other one, when there are two, only as long as what is done beside it spares it.
-/

namespace Sshos.Apps.Files

open Sshos.Input (KeyEvent MouseEvent)
open Sshos.Lib (Bytes StepsMeet run run_invariant)
open Sshos.Shell (text)
open Sshos.Wm (Size)
open Relation (ReflTransGen)

/-! ### One pane -/

namespace Pane

/-- What is read of a directory has these names. -/
def Lists (listing : DirListing) (names : List Bytes) : Prop :=
  ∀ n ∈ names, ∃ e ∈ listing.entries, e.name = n

structure Coherent (rows : Nat) (p : Pane) : Prop where
  shown : p.visible = sortEntries (filterEntries p.listing.entries p.filter) p.sortBy p.sortDesc
  placed : Placed rows p
  marked : Lists p.listing p.marked
  parent : kParent ∉ p.marked

variable {rows : Nat} {p p' : Pane}

/-- What is made anew from what was read. -/
theorem refilter_spec (p : Pane) (rows : Nat) (hrows : 0 < rows) :
    Placed rows (p.refilter rows) ∧ (p.refilter rows).listing = p.listing ∧
    (p.refilter rows).visible = sortEntries (filterEntries p.listing.entries p.filter) p.sortBy p.sortDesc ∧
    (p.refilter rows).filter = p.filter ∧ (p.refilter rows).sortBy = p.sortBy ∧
    (p.refilter rows).sortDesc = p.sortDesc ∧ (p.refilter rows).marked = p.marked := by
  unfold refilter
  simp only
  generalize hshown : ({ p with
    visible := sortEntries (filterEntries p.listing.entries p.filter) p.sortBy p.sortDesc } : Pane) = shown
  -- whatever becomes of the selection
  have hsel : ∀ q : Pane, (∃ sel, q = { shown with sel }) →
      Placed rows (q.settle rows) ∧ (q.settle rows).listing = p.listing ∧
      (q.settle rows).visible = sortEntries (filterEntries p.listing.entries p.filter) p.sortBy p.sortDesc ∧
      (q.settle rows).filter = p.filter ∧ (q.settle rows).sortBy = p.sortBy ∧
      (q.settle rows).sortDesc = p.sortDesc ∧ (q.settle rows).marked = p.marked := by
    rintro q ⟨sel, rfl⟩
    have htouch : Touches rows shown (({ shown with sel } : Pane).settle rows) :=
      .settle hrows rfl rfl rfl rfl rfl fun _ hn => .inl hn
    refine ⟨placed_settle hrows _, ?_⟩
    subst hshown
    exact ⟨htouch.listing, htouch.visible, htouch.filter, htouch.sortBy, htouch.sortDesc, settle_marked _ _⟩
  apply hsel
  obtain ⟨sel, hname⟩ := selectName_eq shown (p.nameAt p.sel)
  have hkept : ∃ sel, (if p.nameAt p.sel ≠ [] then shown.selectName (p.nameAt p.sel) else shown) =
      { shown with sel } := by
    split
    · exact ⟨sel, hname⟩
    · exact ⟨shown.sel, rfl⟩
  obtain ⟨sel', hkept⟩ := hkept
  rw [hkept]
  split
  · exact ⟨1, rfl⟩
  · exact ⟨sel', rfl⟩

theorem coherent_refilter (hrows : 0 < rows) (hmarked : Lists p.listing p.marked)
    (hparent : kParent ∉ p.marked) : Coherent rows (p.refilter rows) := by
  obtain ⟨hplaced, hlisting, hvisible, hfilter, hsortBy, hsortDesc, hmarks⟩ := p.refilter_spec rows hrows
  refine ⟨?_, hplaced, ?_, ?_⟩
  · rw [hlisting, hvisible, hfilter, hsortBy, hsortDesc]
  · rw [hlisting, hmarks]
    exact hmarked
  · rw [hmarks]
    exact hparent

theorem coherent_settle (hrows : 0 < rows)
    (hshown : p.visible = sortEntries (filterEntries p.listing.entries p.filter) p.sortBy p.sortDesc)
    (hmarked : Lists p.listing p.marked) (hparent : kParent ∉ p.marked) : Coherent rows (p.settle rows) := by
  have htouch : Touches rows p (p.settle rows) :=
    .settle hrows rfl rfl rfl rfl rfl fun _ hn => .inl hn
  refine ⟨?_, placed_settle hrows p, ?_, ?_⟩
  · rw [htouch.visible, htouch.listing, htouch.filter, htouch.sortBy, htouch.sortDesc]
    exact hshown
  · rw [htouch.listing, settle_marked]
    exact hmarked
  · rw [settle_marked]
    exact hparent

/-- What is shown was read. -/
theorem Coherent.read (h : Coherent rows p) {e : DirEntry} (he : e ∈ p.visible) : e ∈ p.listing.entries := by
  rw [h.shown, mem_sortEntries] at he
  exact mem_filterEntries he

theorem Coherent.touch (h : Coherent rows p) (ht : Touches rows p p') : Coherent rows p' := by
  refine ⟨?_, ?_, fun n hn => ?_, fun hparent => ?_⟩
  · rw [ht.visible, ht.listing, ht.filter, ht.sortBy, ht.sortDesc]
    exact h.shown
  · rcases ht.placed with ⟨hsel, htop⟩ | hplaced
    · refine ⟨?_, ?_, ?_⟩
      · rw [hsel, ht.visible]
        exact h.placed.sel
      · rw [hsel, htop]
        exact h.placed.top
      · rw [hsel, htop]
        exact h.placed.page
    · exact hplaced
  · rw [ht.listing]
    rcases ht.marked n hn with hold | ⟨-, e, he, heq⟩
    · exact h.marked n hold
    · exact ⟨e, h.read he, heq⟩
  · rcases ht.marked _ hparent with hold | ⟨hne, -⟩
    · exact h.parent hold
    · exact hne rfl

end Pane

/-! ### The window -/

/-- The second pane is there when the window is split. -/
def Displays (s : Files) (i : Side) : Prop := i = .first ∨ s.split = true

/-- **Pane coherence.** -/
structure Coherent (s : Files) : Prop where
  focus : s.split = false → s.active = .first
  panes : ∀ i, s.Displays i → (s.panes i).Coherent s.rowsForList

/-- If the panes are read again, the marks of the pane beside the active one are still there. -/
def Spared (y : Sys) (lets : Lets) (s : Files) : Prop :=
  ∀ hidden, lets.reread = some hidden → s.split = true →
    Pane.Lists (readDir y.readdir (s.panes s.active.other).listing.path hidden)
      (s.panes s.active.other).marked

theorem Side.eq_other {i j : Side} (h : i ≠ j) : i = j.other := by
  cases i <;> cases j <;> first | rfl | exact absurd rfl h

theorem Side.other_ne (i : Side) : i.other ≠ i := by
  cases i <;> nofun

section Coherent

variable {y : Sys} {lets : Lets} {s s' : Files}

theorem Coherent.displays_active (h : Coherent s) : s.Displays s.active := by
  cases hsplit : s.split with
  | false => exact .inl (h.focus hsplit)
  | true => exact .inr hsplit

/-- Two panes on display: the window is split. -/
theorem Coherent.split_of_other (h : Coherent s) (hother : s.Displays s.active.other) : s.split = true := by
  rcases hother with hfirst | hsplit
  · by_contra hno
    rw [h.focus (by simpa using hno)] at hfirst
    cases hfirst
  · exact hsplit

theorem panes_setPane_ne {p : Pane} {i : Side} (hi : i ≠ s.active) : (s.setPane p).panes i = s.panes i :=
  Function.update_of_ne hi _ _

/-- The active pane is made good, the other one is. -/
theorem coherent_setPane (hfocus : s.split = false → s.active = .first) {p : Pane}
    (hp : p.Coherent s.rowsForList)
    (hother : ∀ i, i ≠ s.active → s.Displays i → (s.panes i).Coherent s.rowsForList) :
    Coherent (s.setPane p) := by
  refine ⟨hfocus, fun i hi => ?_⟩
  by_cases hactive : i = s.active
  · subst hactive
    rw [show (s.setPane p).panes s.active = p from s.setPane_pane p]
    exact hp
  · rw [panes_setPane_ne hactive]
    exact hother i hactive hi

theorem Coherent.setPane (h : Coherent s) {p : Pane} (hp : p.Coherent s.rowsForList) :
    Coherent (s.setPane p) :=
  coherent_setPane h.focus hp fun i _ hi => h.panes i hi

theorem Spared.setPane (h : Spared y lets s) (p : Pane) : Spared y lets (s.setPane p) := by
  intro hidden hread hsplit
  rw [show (s.setPane p).panes (s.setPane p).active.other = s.panes s.active.other from
    panes_setPane_ne s.active.other_ne]
  exact h hidden hread hsplit

/-- Both panes are read again. -/
theorem panes_reload (s : Files) (i : Side) :
    (s.reload y).panes i = ({ s.panes i with
      marked := if i = s.active then [] else (s.panes i).marked
      listing := readDir y.readdir (s.panes i).listing.path s.showHidden
      status := (readDir y.readdir (s.panes i).listing.path s.showHidden).error } : Pane).refilter
        s.rowsForList := by
  unfold reload
  by_cases hactive : i = s.active
  · subst hactive
    simp only [if_true]
    rw [show (s.setPane { s.pane with marked := [] }).panes s.active = { s.pane with marked := [] } from
      s.setPane_pane _]
    rfl
  · simp only [if_neg hactive]
    rw [panes_setPane_ne hactive]
    rfl

/-- The pane beside the active one keeps its marks. -/
theorem reload_other (s : Files) :
    ((s.reload y).panes (s.reload y).active.other).listing =
      readDir y.readdir (s.panes s.active.other).listing.path s.showHidden ∧
    ((s.reload y).panes (s.reload y).active.other).marked = (s.panes s.active.other).marked := by
  rw [show (s.reload y).active = s.active from rfl, panes_reload]
  obtain ⟨-, hlisting, -, -, -, -, hmarked⟩ := Pane.refilter_spec ({ s.panes s.active.other with
    marked := if s.active.other = s.active then [] else (s.panes s.active.other).marked
    listing := readDir y.readdir (s.panes s.active.other).listing.path s.showHidden
    status := (readDir y.readdir (s.panes s.active.other).listing.path s.showHidden).error } : Pane)
    s.rowsForList s.rows_pos
  refine ⟨hlisting, hmarked.trans ?_⟩
  rw [if_neg s.active.other_ne]

/-- Both panes are read again, and the other one's marks are still there. -/
theorem Coherent.reload (h : Coherent s)
    (hmarked : s.split = true → Pane.Lists
      (readDir y.readdir (s.panes s.active.other).listing.path s.showHidden) (s.panes s.active.other).marked) :
    Coherent (s.reload y) := by
  refine ⟨h.focus, fun i hi => ?_⟩
  rw [panes_reload]
  by_cases hactive : i = s.active
  · refine Pane.coherent_refilter s.rows_pos ?_ ?_
    · simp only [if_pos hactive]
      nofun
    · simp [if_pos hactive]
  · refine Pane.coherent_refilter s.rows_pos ?_ ?_
    · simp only [if_neg hactive]
      obtain rfl := Side.eq_other hactive
      exact hmarked (h.split_of_other hi)
    · simp only [if_neg hactive]
      exact (h.panes i hi).parent

/-- What is on display afterwards was, or has no marks. -/
theorem Coherent.toggleSplit (h : Coherent s) : Coherent s.toggleSplit := by
  unfold Files.toggleSplit
  split
  next hsplit =>
    refine ⟨fun _ => rfl, fun i hi => ?_⟩
    obtain rfl : i = .first := hi.resolve_right nofun
    by_cases hactive : s.active = .second
    · simp only [if_pos hactive, Function.update_self]
      exact h.panes .second (.inr hsplit)
    · simp only [if_neg hactive]
      exact h.panes .first (.inl rfl)
  next hsplit =>
    refine ⟨fun hno => (by cases hno), fun i hi => ?_⟩
    have hfirst := h.panes .first (.inl rfl)
    cases i with
    | first => exact hfirst
    | second =>
        exact hfirst.touch (.of_same rfl rfl rfl rfl rfl (fun _ hn => by cases hn) rfl rfl)

theorem Spared.toggleSplit (h : Coherent s) : Spared y lets s.toggleSplit := by
  intro hidden hread hboth
  cases hsplit : s.split with
  | true =>
      unfold Files.toggleSplit at hboth
      rw [if_pos hsplit] at hboth
      cases hboth
  | false =>
      unfold Files.toggleSplit
      rw [if_neg (by simp [hsplit])]
      simp only [h.focus hsplit, Side.other, Function.update_self]
      nofun

/-- **One move.** -/
theorem Does.coherent (hd : Does y lets s s') (h : Coherent s) (hspared : Spared y lets s) :
    Coherent s' ∧ Spared y lets s' := by
  cases hd with
  | idle hs =>
      have hrows : s'.rowsForList = s.rowsForList := by
        unfold rowsForList
        rw [hs.size]
      refine ⟨⟨fun hsplit => ?_, fun i hi => ?_⟩, fun hidden hread hsplit => ?_⟩
      · rw [hs.active]
        exact h.focus (hs.split ▸ hsplit)
      · rw [hs.panes, hrows]
        exact h.panes i (hi.imp_right fun hsplit => hs.split ▸ hsplit)
      · rw [hs.panes, hs.active]
        exact hspared hidden hread (hs.split ▸ hsplit)
  | touch p ht => exact ⟨h.setPane ((h.panes _ h.displays_active).touch ht), hspared.setPane p⟩
  | refilter filter sortBy sortDesc =>
      have hpane := h.panes _ h.displays_active
      rw [setPane_pane_refilter]
      exact ⟨h.setPane (Pane.coherent_refilter s.rows_pos hpane.marked hpane.parent), hspared.setPane _⟩
  | load path hread =>
      rw [setPane_pane_refilter]
      exact ⟨h.setPane (Pane.coherent_refilter s.rows_pos nofun nofun), hspared.setPane _⟩
  | reload hidden hread =>
      have hshown : Coherent { s with showHidden := hidden } := ⟨h.focus, h.panes⟩
      refine ⟨hshown.reload (hspared hidden hread), fun hidden' hread' hsplit => ?_⟩
      rw [hread] at hread'
      cases hread'
      obtain ⟨hlisting, hmarked⟩ := @reload_other y { s with showHidden := hidden }
      intro n hn
      rw [hmarked] at hn
      rw [hlisting, readDir_path]
      exact hspared hidden hread hsplit n hn
  | rename src dst hren => exact ⟨⟨h.focus, h.panes⟩, hspared⟩
  | «begin» hbegins =>
      unfold beginRename
      simp only
      split
      · exact ⟨h, hspared⟩
      · exact ⟨⟨h.focus, h.panes⟩, hspared⟩
  | split => exact ⟨h.toggleSplit, .toggleSplit h⟩
  | focus side hsplit hread =>
      refine ⟨⟨fun hno => ?_, h.panes⟩, fun hidden hsome => ?_⟩
      · rw [hsplit] at hno
        cases hno
      · rw [hread] at hsome
        cases hsome

theorem Reaches.coherent (hr : Reaches y lets s s') (h : Coherent s) (hspared : Spared y lets s) :
    Coherent s' :=
  (@reaches_invariant _ _ _ _ (fun s => Coherent s ∧ Spared y lets s)
    (fun hd hs => hd.coherent hs.1 hs.2) hr ⟨h, hspared⟩).1

/-! ### What is so of each pane -/

def EachPane (Q : Pane → Prop) (s : Files) : Prop := ∀ i, Q (s.panes i)

/-- What every pane keeps: when it is touched, when it is made anew with its marks or without,
when its directory is read. -/
structure PaneRule (Q : Pane → Prop) : Prop where
  touch : ∀ {rows} {p p' : Pane}, Pane.Touches rows p p' → Q p → Q p'
  made : ∀ {rows} {p p' : Pane}, 0 < rows → p'.marked = p.marked ∨ p'.marked = [] → Q p → Q (p'.refilter rows)
  read : ∀ {p : Pane} (listing : DirListing), Q p → Q { p with listing }

variable {Q : Pane → Prop}

theorem EachPane.setPane (h : EachPane Q s) {p : Pane} (hp : Q p) : EachPane Q (s.setPane p) := by
  intro i
  by_cases hactive : i = s.active
  · rw [hactive, show (s.setPane p).panes s.active = p from s.setPane_pane p]
    exact hp
  · rw [panes_setPane_ne hactive]
    exact h i

theorem Does.eachPane (hQ : PaneRule Q) (hd : Does y lets s s') (h : EachPane Q s) : EachPane Q s' := by
  cases hd with
  | idle hs =>
      unfold EachPane
      rw [hs.panes]
      exact h
  | touch p ht => exact h.setPane (hQ.touch ht (h s.active))
  | refilter filter sortBy sortDesc =>
      rw [setPane_pane_refilter]
      exact h.setPane (@PaneRule.made Q hQ _ s.pane _ s.rows_pos (.inl rfl) (h s.active))
  | load path hread =>
      rw [setPane_pane_refilter]
      exact h.setPane (hQ.made s.rows_pos (.inr rfl) (h s.active))
  | reload hidden hread =>
      intro i
      rw [panes_reload]
      refine hQ.made (rows_pos _) ?_ (h i)
      by_cases hactive : i = s.active
      · exact .inr (if_pos hactive)
      · exact .inl (if_neg hactive)
  | rename src dst hren => exact h
  | «begin» hbegins =>
      unfold beginRename
      simp only
      split
      · exact h
      · exact h
  | split =>
      have hunmarked : Q { s.panes .first with marked := [] } :=
        @PaneRule.touch Q hQ s.rowsForList (s.panes .first) _
          (.of_same rfl rfl rfl rfl rfl (fun _ hn => by cases hn) rfl rfl) (h .first)
      unfold toggleSplit
      split
      · intro i
        simp only
        split
        · cases i with
          | first => exact h .second
          | second => exact h .second
        · exact h i
      · intro i
        cases i with
        | first => exact h .first
        | second => exact hunmarked
  | focus side hsplit hread => exact h

theorem EachPane.step (hQ : PaneRule Q) (h : EachPane Q s) (e : Event) : EachPane Q (s.step e) := by
  refine step_invariant (Does.eachPane hQ) (fun _ hs => hs) (fun hs i => ?_) h e
  unfold probed
  simp only
  split
  · exact hQ.read _ (hs i)
  · exact hs i

theorem eachPane_start (hQ : PaneRule Q) (hfresh : ∀ path, Q { listing := { path } }) (y : Sys) (path : Bytes) :
    EachPane Q (start y path) := by
  refine Does.eachPane hQ (@does_reload y { reread := some false } _ rfl) fun i => ?_
  cases i with
  | first => exact hfresh path
  | second => exact hfresh []

/-! ### Events -/

/-- **What spares the pane** beside the active one: its marks outlive the next reading, its
selection stays on the page, and what a job has left of its directory is what it shows. -/
def Spares (s : Files) : Event → Prop
  | .key y k => Spared y (s.keyLets y k) s
  | .mouse y m => Spared y (s.mouseLets m) s
  | .resize size => 0 < size.w → 0 < size.h → s.split = true →
      (s.panes s.active.other).sel < (s.panes s.active.other).top + rowsForList { s with size }
  | .refresh y more _ _ _ => s.jobActive = true → more = false → ∀ i, s.Displays i →
      let p := s.panes i
      let probe := readDir y.readdir p.listing.path s.showHidden
      probe.error = [] →
        Pane.Lists probe p.marked ∧
        (i ≠ s.active → sortEntries (filterEntries probe.entries p.filter) p.sortBy p.sortDesc = p.visible)

theorem Coherent.resize (h : Coherent s) (size : Size) (hspares : s.Spares (.resize size)) :
    Coherent (s.onResize size) := by
  unfold onResize
  split
  · exact h
  next hsize =>
    rw [not_or, Int.not_le, Int.not_le] at hsize
    have hactive := h.panes _ h.displays_active
    refine @coherent_setPane { s with size } h.focus _ ?_ fun i hi hdisplays => ?_
    · exact Pane.coherent_settle (rows_pos _) hactive.shown hactive.marked hactive.parent
    · obtain rfl := Side.eq_other hi
      have hother := h.panes _ hdisplays
      have hpage := hspares hsize.1 hsize.2 (h.split_of_other hdisplays)
      exact ⟨hother.shown, ⟨hother.placed.sel, hother.placed.top, hpage⟩, hother.marked, hother.parent⟩

theorem Coherent.setStatus (h : Coherent s) (status : Bytes) : Coherent (s.setStatus status) :=
  h.setPane ((h.panes _ h.displays_active).touch (.of_same rfl rfl rfl rfl rfl (fun _ hn => hn) rfl rfl))

/-- **The end of a job**: the directories are read again, and the active pane made anew. -/
theorem Coherent.jobEnded (h : Coherent s) (done failed : Nat) (error : Bytes)
    (hactive : s.jobActive = true) (hspares : s.Spares (.refresh y false done failed error)) :
    Coherent (s.jobEnded y done failed error) := by
  unfold Files.jobEnded
  refine Coherent.setStatus (coherent_setPane ?_ ?_ fun i hi hdisplays => ?_) _
  · exact h.focus
  · have hpane := h.panes _ h.displays_active
    have hprobe := hspares hactive rfl _ h.displays_active
    refine Pane.coherent_refilter (rows_pos _) ?_ ?_
    · unfold pane
      simp only
      split
      next hok => exact (hprobe hok).1
      · exact hpane.marked
    · unfold pane
      simp only
      split
      · exact hpane.parent
      · exact hpane.parent
  · have hpane := h.panes i hdisplays
    have hprobe := hspares hactive rfl i hdisplays
    simp only
    split
    next hok =>
      exact ⟨((hprobe hok).2 hi).symm, ⟨hpane.placed.sel, hpane.placed.top, hpane.placed.page⟩,
        (hprobe hok).1, hpane.parent⟩
    · exact hpane

/-- **One event.** -/
theorem Coherent.step (h : Coherent s) (e : Event) (hspares : s.Spares e) : Coherent (s.step e) := by
  cases e with
  | key y k => exact (reaches_onKey s k).coherent h hspares
  | mouse y m => exact (reaches_onMouse s m).coherent h hspares
  | resize size => exact h.resize size hspares
  | refresh y more done failed error =>
      show Coherent (s.onRefresh y more done failed error)
      unfold onRefresh
      split
      · exact h
      next hactive =>
        have hactive : s.jobActive = true := by simpa using hactive
        cases more with
        | true => exact ⟨h.focus, h.panes⟩
        | false => exact h.jobEnded done failed error hactive hspares

theorem coherent_start (y : Sys) (path : Bytes) : Coherent (start y path) := by
  refine ⟨fun _ => rfl, fun i hi => ?_⟩
  obtain rfl : i = .first := hi.resolve_right nofun
  unfold start
  rw [panes_reload, if_pos rfl]
  exact Pane.coherent_refilter (rows_pos _) nofun nofun

end Coherent

/-- **What is on display stays what it should be** in every run that spares the pane beside the
active one. -/
theorem run_coherent (y : Sys) (path : Bytes) (es : List Event)
    (hspares : StepsMeet step Spares (start y path) es) :
    ∀ past, past <+: es → Coherent (run step (start y path) past) := by
  rintro past ⟨rest, rfl⟩
  exact run_invariant (fun s e h hok => h.step e hok) (coherent_start y path) hspares.of_append

/-- A copy ends while two panes show the directory it goes to. -/
def copiedBeside : List Event :=
  [keyOf ["a"] .down, ctrlOf ["a"] 'c', ctrlOf ["a"] 'v', keyOf ["a"] .f3, .refresh (holding ["a", "b"]) false 1 0 []]

/-- The pane that is not active still shows what there was. -/
theorem copiedBeside_stale :
    ¬ ∀ past, past <+: copiedBeside → Coherent (run step (start (holding ["a"]) (text "/d")) past) := by
  intro hall
  have h := hall copiedBeside List.prefix_rfl
  have hsplit : (run step (start (holding ["a"]) (text "/d")) copiedBeside).split = true := by decide +kernel
  have hshown := (h.panes .second (.inr hsplit)).shown
  revert hshown
  decide +kernel

/-- The window is split, and is made smaller. -/
theorem run_coherent_resized : Coherent (run step (start (holding ["a"]) (text "/d"))
    [keyOf ["a"] .f3, keyOf ["a"] .down, .resize { w := 20, h := 4 }]) := by
  have hspares : StepsMeet step Spares (start (holding ["a"]) (text "/d"))
      [keyOf ["a"] .f3, keyOf ["a"] .down, .resize { w := 20, h := 4 }] := by
    refine ⟨nofun, nofun, ?_, trivial⟩
    intro _ _ _
    decide +kernel
  exact run_coherent (holding ["a"]) (text "/d") _ hspares _ List.prefix_rfl

end Sshos.Apps.Files
