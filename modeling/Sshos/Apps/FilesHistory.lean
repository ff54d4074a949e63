import Sshos.Apps.FilesSteps
import Sshos.Lib.History
import Sshos.Lib.Run

/-!
# Sshos.Apps.FilesHistory

The directories a pane has shown are the **history** of a browser: whatever is asked, and
whether directories can be read or not, a pane goes from one to another as the abstract history
does. A directory that cannot be read changes nothing but the status line.
-/

namespace Sshos.Apps

open Sshos.Lib (Bytes History run)
open Sshos.Lib.History (Move)
open Sshos.Shell (text)

/-- A directory that the system lets read. -/
def Sys.readable (y : Sys) (path : Bytes) : Bool := (y.readdir path).toBool

theorem error_readDir (y : Sys) (path : Bytes) (showHidden : Bool) :
    (readDir y.readdir path showHidden).error = [] ↔ y.readable path = true := by
  unfold readDir Sys.readable
  cases y.readdir path with
  | error reason =>
      refine iff_of_false (fun h => ?_) (by nofun)
      have hsome : text "lecture impossible : " ≠ [] := by decide +kernel
      exact hsome (List.append_eq_nil_iff.1 h).1
  | ok raw => exact iff_of_true rfl rfl

namespace Files

namespace Pane

/-- Where a pane has been, and where it is. -/
def history (p : Pane) : History Bytes :=
  { back := p.back, current := p.listing.path, forward := p.forward }

@[simp] theorem history_settle (p : Pane) (rows : Nat) : (p.settle rows).history = p.history := by
  unfold settle
  split <;> rfl

@[simp] theorem history_selectName (p : Pane) (name : Bytes) :
    (p.selectName name).history = p.history := by
  obtain ⟨sel, heq⟩ := p.selectName_eq name
  rw [heq]
  rfl

@[simp] theorem history_refilter (p : Pane) (rows : Nat) : (p.refilter rows).history = p.history := by
  unfold refilter
  simp only
  rw [history_settle]
  generalize hshown : ({ p with
    visible := sortEntries (filterEntries p.listing.entries p.filter) p.sortBy p.sortDesc } : Pane) = shown
  have hkept : (if p.nameAt p.sel ≠ [] then shown.selectName (p.nameAt p.sel) else shown).history =
      p.history := by
    have hsame : shown.history = p.history := hshown ▸ rfl
    split
    · exact (history_selectName _ _).trans hsame
    · exact hsame
  generalize (if p.nameAt p.sel ≠ [] then shown.selectName (p.nameAt p.sel) else shown) = q at *
  split
  · exact hkept
  · exact hkept

end Pane

/-! ### What is asked -/

inductive Nav
  | goTo (path : Bytes)
  | goUp
  | goBack
  | goForward
  /-- A line is chosen. -/
  | select (i : Nat)
  /-- The line that is chosen is activated. -/
  | activate
  deriving Repr, DecidableEq

variable (s : Files)

/-- Something is asked, with what the system lets read at that moment. -/
def navigate (i : Nav × Sys) : Files :=
  match i.1 with
  | .goTo path => s.goTo i.2 path
  | .goUp => s.goUp i.2
  | .goBack => s.goBack i.2
  | .goForward => s.goForward i.2
  | .select line => s.select line
  | .activate => s.activate i.2

/-- The move of the history that this is, if it is one. -/
def asked : Nav → Option (Move Bytes)
  | .goTo path => some (.visit path)
  | .goUp => some (.visit (parentPath s.pane.listing.path))
  | .goBack => some .back
  | .goForward => some .forward
  | .select _ => none
  | .activate =>
      match s.pane.visible[s.pane.sel]? with
      | none => none
      | some e =>
          if isDirLike e = false then none
          else if e.name = kParent then some (.visit (parentPath s.pane.listing.path))
          else some (.visit (joinPath s.pane.listing.path e.name))

/-- What a run asks of the history, with what can be read each time. -/
def trace : Files → List (Nav × Sys) → List (Option (Move Bytes) × (Bytes → Bool))
  | _, [] => []
  | s, i :: is => (s.asked i.1, i.2.readable) :: trace (s.navigate i) is

/-! ### One step -/

section Step

variable {s : Files} {y : Sys} {path : Bytes}

theorem load_unreadable (hread : y.readable path = false) (cameFrom : Bytes) :
    s.load y path cameFrom = (false, s.setStatus (readDir y.readdir path s.showHidden).error) := by
  have herror : (readDir y.readdir path s.showHidden).error ≠ [] := fun h => by
    rw [error_readDir, hread] at h
    cases h
  exact if_pos herror

/-- What is read takes the place of what was shown; where the pane has been does not change. -/
theorem load_readable (hread : y.readable path = true) (cameFrom : Bytes) :
    ∃ loaded, s.load y path cameFrom = (true, loaded) ∧
      loaded.pane.history = { s.pane.history with current := path } := by
  have herror : ¬ (readDir y.readdir path s.showHidden).error ≠ [] :=
    not_not.2 ((error_readDir ..).2 hread)
  have hpath : (readDir y.readdir path s.showHidden).path = path := readDir_path ..
  unfold load
  simp only [if_neg herror]
  rw [setPane_pane_refilter]
  split
  · refine ⟨_, rfl, ?_⟩
    rw [settle_setPane]
    simp only [setPane_pane, Pane.history_settle, Pane.history_selectName, Pane.history_refilter]
    simp only [Pane.history, hpath]
  · refine ⟨_, rfl, ?_⟩
    simp only [setPane_pane, Pane.history_refilter]
    simp only [Pane.history, hpath]

theorem history_goTo (s : Files) (y : Sys) (path : Bytes) :
    (s.goTo y path).pane.history = s.pane.history.attempt (some (.visit path), y.readable) := by
  unfold goTo History.attempt
  by_cases hsame : path = s.pane.listing.path
  · simp [History.target, Pane.history, hsame]
  have htarget : s.pane.history.target (.visit path) = some path := if_neg hsame
  simp only [if_neg hsame, htarget, Option.any_some]
  cases hread : y.readable path with
  | false =>
      rw [load_unreadable hread]
      simp [setStatus, Pane.history]
  | true =>
      obtain ⟨loaded, hload, hhistory⟩ := load_readable (s := s) hread s.pane.listing.path
      obtain ⟨hback, hcurrent, -⟩ := History.mk.inj hhistory
      rw [hload]
      simp [Pane.history, History.move, History.visit, hback, hcurrent]

/-- Going up is going to the parent, from a directory that has one. -/
theorem goUp_eq (s : Files) (y : Sys) : s.goUp y = s.goTo y (parentPath s.pane.listing.path) := by
  unfold goUp goTo
  simp only
  split <;> rfl

theorem history_goBack (s : Files) (y : Sys) :
    (s.goBack y).pane.history = s.pane.history.attempt (some .back, y.readable) := by
  unfold goBack History.attempt
  cases hline : s.pane.back with
  | nil => simp [History.target, Pane.history, hline]
  | cons a rest =>
      have htarget : s.pane.history.target .back = some a := by simp [History.target, Pane.history, hline]
      simp only [htarget, Option.any_some]
      cases hread : y.readable a with
      | false =>
          rw [load_unreadable hread]
          simp [setStatus, Pane.history, hline]
      | true =>
          obtain ⟨loaded, hload, hhistory⟩ := load_readable (s := s) hread s.pane.listing.path
          obtain ⟨hback, hcurrent, hforward⟩ := History.mk.inj hhistory
          rw [hload]
          simp [Pane.history, History.move, History.goBack, hback, hcurrent, hforward, hline]

theorem history_goForward (s : Files) (y : Sys) :
    (s.goForward y).pane.history = s.pane.history.attempt (some .forward, y.readable) := by
  unfold goForward History.attempt
  cases hline : s.pane.forward with
  | nil => simp [History.target, Pane.history, hline]
  | cons a rest =>
      have htarget : s.pane.history.target .forward = some a := by
        simp [History.target, Pane.history, hline]
      simp only [htarget, Option.any_some]
      cases hread : y.readable a with
      | false =>
          rw [load_unreadable hread]
          simp [setStatus, Pane.history, hline]
      | true =>
          obtain ⟨loaded, hload, hhistory⟩ := load_readable (s := s) hread s.pane.listing.path
          obtain ⟨hback, hcurrent, hforward⟩ := History.mk.inj hhistory
          rw [hload]
          simp [Pane.history, History.move, History.goForward, hback, hcurrent, hforward, hline]

/-- A step of the pane is a step of its history. -/
theorem history_navigate (s : Files) (i : Nav × Sys) :
    (s.navigate i).pane.history = s.pane.history.attempt (s.asked i.1, i.2.readable) := by
  obtain ⟨op, y⟩ := i
  cases op with
  | goTo path => exact history_goTo s y path
  | goUp => exact (congrArg (fun u : Files => u.pane.history) (goUp_eq s y)).trans (history_goTo ..)
  | goBack => exact history_goBack s y
  | goForward => exact history_goForward s y
  | select line =>
      show (s.select line).pane.history = s.pane.history
      unfold select
      rw [settle_setPane, setPane_pane, Pane.history_settle]
      rfl
  | activate =>
      show (s.activate y).pane.history = s.pane.history.attempt (s.asked .activate, y.readable)
      unfold activate asked
      cases hline : s.pane.visible[s.pane.sel]? with
      | none => rfl
      | some e =>
          simp only
          split
          · rfl
          split
          · rw [goUp_eq, history_goTo]
          · rw [history_goTo]

/-- What cannot be read is said, and nothing else. -/
theorem navigate_unreadable {op : Nav} {m : Move Bytes} (hasked : s.asked op = some m)
    (htarget : s.pane.history.target m = some path) (hread : y.readable path = false) :
    s.navigate (op, y) = s.setStatus (readDir y.readdir path s.showHidden).error := by
  have hgoTo : ∀ {path'}, s.pane.history.target (.visit path') = some path →
      s.goTo y path' = s.setStatus (readDir y.readdir path s.showHidden).error := by
    intro path' htarget
    obtain ⟨hother, rfl⟩ := History.target_visit.1 htarget
    exact (if_neg hother).trans (by simp [load_unreadable hread])
  cases op with
  | goTo path' =>
      cases hasked
      exact hgoTo htarget
  | goUp =>
      cases hasked
      exact (goUp_eq s y).trans (hgoTo htarget)
  | goBack =>
      cases hasked
      obtain ⟨rest, hline⟩ := List.head?_eq_some_iff.1 (show s.pane.back.head? = some path from htarget)
      show s.goBack y = _
      simp [goBack, hline, load_unreadable hread]
  | goForward =>
      cases hasked
      obtain ⟨rest, hline⟩ :=
        List.head?_eq_some_iff.1 (show s.pane.forward.head? = some path from htarget)
      show s.goForward y = _
      simp [goForward, hline, load_unreadable hread]
  | select line => cases hasked
  | activate =>
      show s.activate y = _
      unfold asked at hasked
      unfold activate
      cases hline : s.pane.visible[s.pane.sel]? with
      | none => simp [hline] at hasked
      | some e =>
          simp only [hline] at hasked ⊢
          split at hasked
          · cases hasked
          next hdir =>
            rw [if_neg hdir]
            split at hasked
            next hparent =>
              cases hasked
              rw [if_pos hparent, goUp_eq]
              exact hgoTo htarget
            next hchild =>
              cases hasked
              rw [if_neg hchild]
              exact hgoTo htarget

end Step

/-! ### Runs -/

theorem history_run (s : Files) (is : List (Nav × Sys)) :
    (run navigate s is).pane.history = run History.attempt s.pane.history (s.trace is) := by
  induction is generalizing s with
  | nil => rfl
  | cons i is ih => rw [Sshos.Lib.run_cons, ih, history_navigate]; rfl

/-- What a pane shows follows the history of a browser. -/
structure Browses (s : Files) : Prop where
  /-- Whatever is asked, and whatever can be read each time. -/
  refines : ∀ is, (run navigate s is).pane.history = run History.attempt s.pane.history (s.trace is)
  /-- Another directory that can be read is visited. -/
  visits : ∀ y path, path ≠ s.pane.listing.path → y.readable path = true →
    (s.goTo y path).pane.back = s.pane.listing.path :: s.pane.back ∧
    (s.goTo y path).pane.listing.path = path ∧ (s.goTo y path).pane.forward = []
  /-- The cursor moves, the line does not. -/
  recedes : ∀ y path, s.pane.back.head? = some path → y.readable path = true →
    (s.goBack y).pane.history.trail = s.pane.history.trail ∧
    (s.goBack y).pane.history.place + 1 = s.pane.history.place
  advances : ∀ y path, s.pane.forward.head? = some path → y.readable path = true →
    (s.goForward y).pane.history.trail = s.pane.history.trail ∧
    (s.goForward y).pane.history.place = s.pane.history.place + 1
  returns : ∀ y y' path, s.pane.back.head? = some path → y.readable path = true →
    y'.readable s.pane.listing.path = true →
    ((s.goBack y).goForward y').pane.history = s.pane.history
  /-- A directory that cannot be read changes the status line alone. -/
  failed : ∀ op y m path, s.asked op = some m → s.pane.history.target m = some path →
    y.readable path = false → ∃ status, s.navigate (op, y) = s.setPane { s.pane with status }

/-- **The directories a pane shows are a history**, from any state of the window. -/
theorem browses (s : Files) : Browses s where
  refines := history_run s
  visits := by
    intro y path hother hread
    have htarget : s.pane.history.target (.visit path) = some path :=
      History.target_visit.2 ⟨hother, rfl⟩
    have hvisit := (history_goTo s y path).trans (History.attempt_of_target htarget hread)
    obtain ⟨hback, hcurrent, hforward⟩ := History.mk.inj hvisit
    exact ⟨hback, hcurrent, hforward⟩
  recedes := by
    intro y path hback hread
    have hmove := (history_goBack s y).trans
      (History.attempt_of_target (show s.pane.history.target .back = some path from hback) hread)
    have hne : s.pane.history.back ≠ [] := List.ne_nil_of_mem (List.mem_of_mem_head? hback)
    rw [hmove]
    exact ⟨History.trail_goBack _, History.place_goBack hne⟩
  advances := by
    intro y path hforward hread
    have hmove := (history_goForward s y).trans
      (History.attempt_of_target (show s.pane.history.target .forward = some path from hforward) hread)
    have hne : s.pane.history.forward ≠ [] := List.ne_nil_of_mem (List.mem_of_mem_head? hforward)
    rw [hmove]
    exact ⟨History.trail_goForward _, History.place_goForward hne⟩
  returns := by
    intro y y' path hback hread hread'
    have hmove := (history_goBack s y).trans
      (History.attempt_of_target (show s.pane.history.target .back = some path from hback) hread)
    have hne : s.pane.history.back ≠ [] := List.ne_nil_of_mem (List.mem_of_mem_head? hback)
    have hforward : s.pane.history.goBack.target .forward = some s.pane.listing.path :=
      History.target_forward_goBack hne
    rw [history_goForward, hmove]
    exact (History.attempt_of_target hforward hread').trans (History.goForward_goBack hne)
  failed op y m path hasked htarget hread := ⟨_, navigate_unreadable hasked htarget hread⟩

end Files

end Sshos.Apps
