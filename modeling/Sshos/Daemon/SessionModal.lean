import Sshos.Daemon.Session

/-!
# Sshos.Daemon.SessionModal

What **confirming a question** does. The question on display and the meaning of its
answer are kept apart by the session, and three things can drive them apart: a question
that is left by Escape keeps its meaning for the next one; the report of an update that
the user asked for changes the meaning under the question that is there; the progress of
an update is written over a closing question that took its place.

`Careful` excludes these three, and windows that would share a number; in a run all of
whose steps are careful, the answer is always about what the user reads.
-/

namespace Sshos.Shell.UpdateService

variable (u : UpdateService)

/-! ### The report -/

@[simp] theorem report_reload (r : Reading) : (u.reload r).report = u.report := rfl

@[simp] theorem report_launch (launched : Option Nat) (manual : Bool) :
    (u.launch launched manual).report = u.report := by
  unfold launch
  split
  · rfl
  · split <;> rfl

theorem report_tick (r : Reading) (due : Bool) (launched : Option Nat) :
    (u.tick r due launched).report = u.report := by
  simp only [tick]
  split
  · rfl
  · split
    · rfl
    · split
      · split
        · exact report_launch ..
        · exact report_launch ..
      · rfl

theorem report_run (id : UpdateCommand) (launched : Option Nat) :
    (u.run id launched).report = u.report := by
  unfold run
  split
  · rfl
  · split
    · rfl
    · cases id with
      | check => exact report_launch ..
      | apply => exact report_launch ..
      | restart =>
          dsimp only
          split <;> rfl

/-- Only work that somebody asked for leaves a report. -/
theorem report_onChildExit (r : Reading) (failed : Bool) (h : u.childIsManual = false) :
    (u.onChildExit r failed).report = u.report := by
  have hmanual : (reload { u with child := none } r).childIsManual = false := h
  simp only [onChildExit]
  split <;> simp [hmanual]

end Sshos.Shell.UpdateService

namespace Sshos.Daemon

open Sshos.Input (KeyEvent MouseEvent)
open Sshos.Lib
open Sshos.Shell
open Sshos.Wm (WindowId WindowManager)

/-- A confirmed dialog of this meaning closes its window. -/
def ModalKind.closes : ModalKind → Bool
  | .closeWindow | .applyRunning => true
  | _ => false

namespace Session

variable (s : Session)

/-! ### Confirming -/

/-- A question is on display. -/
def asks : Bool := s.modal.isOpen && s.modal.style == .question

/-- The event answers the dialog on display with yes. -/
def Confirms : Event → Prop
  | .key k _ _ _ =>
      s.modal.isOpen ∧ s.dragging = false ∧ detaches k = false ∧ k.key = .enter ∧ s.modal.confirm
  | .mouse m _ _ _ => s.modal.isOpen ∧ s.presses m ∧ s.modal.hit m.x m.y = .confirm
  | _ => False

/-- What the launcher answers, should the event come to ask it. -/
def launchedBy : Event → Option Nat
  | .key _ _ _ launched => launched
  | .mouse _ _ _ launched => launched
  | .tick _ _ launched => launched
  | _ => none

/-- What a question asks for, done. -/
def carryOut (launched : Option Nat) : Purpose → Session
  | .close w => if (s.wm.find w).isSome then s.closeWindow w else s
  | .quit => { s with quit := true }
  | .apply => s.runUpdate .apply launched
  | .restart => s.runUpdate .restart launched

/-- `s'` is `s` with the question on display answered by yes: the words are those it was put
in, what it asks for is done and nothing else, the dialog apart. -/
structure Performs (launched : Option Nat) (s' : Session) : Prop where
  displayed : s.modal.question = s.asked
  exactly : s' = { s.carryOut launched s.posed with modal := s'.modal, modalKind := s'.modalKind }
  answered : s'.asks = false
  closes : ∀ w, s.posed = .close w → s.modal.target = w ∧ s'.wm.find w = none ∧
    (∀ v, v ≠ w → s'.wm.find v = s.wm.find v) ∧ s'.quit = s.quit ∧ s'.runs = s.runs ∧
    s'.update = s.update

/-! ### The condition -/

/-- What the window answers that the event asks to close. -/
def closeAnswer : Event → Option CloseCheck
  | .key k _ (some .close) _ =>
      if s.dragging ∨ detaches k ∨ s.modal.isOpen ∨ s.menuOpen then none
      else (s.wm.find s.wm.focused).map (·.app)
  | .mouse m _ (.closeButton w) _ =>
      if s.presses m = false ∨ s.modal.isOpen ∨ s.menuOpen then none
      else (s.wm.find w).map (·.app)
  | .render _ _ pending =>
      let s := s.openPending pending
      s.closeRequested.bind fun w => (s.wm.find w).map (·.app)
  | _ => none

/-- The event opens a window, if there are not too many. -/
def opensWindow : Event → Bool
  | .key k (some (.app _)) _ _ =>
      !s.dragging && !detaches k && !s.modal.isOpen && s.menuOpen && k.key == .enter
  | .mouse m inMenu target _ =>
      s.presses m && !s.modal.isOpen &&
        match s.menuOpen, inMenu, target with
        | true, .item (.app _), _ | false, _, .launcher _ => true
        | _, _, _ => false
  | .render _ _ (some _) => true
  | _ => false

/-- The ways to part a question from its meaning are not taken: no closing question is put
while the meaning left from an earlier dialog is not about a window, no work the user asked
the update service for ends under a question, no progress is written over one; and no window
is opened under the number of another. -/
def Careful (ev : Event) : Prop :=
  (∀ c ∈ s.closeAnswer ev, c.allowed = false → s.modal.accepts → s.modalKind.closes) ∧
  (match ev with
    | .childExit pid _ _ => s.update.owns pid → s.update.childIsManual → s.asks = false
    | .tick _ _ _ => s.asks → s.modalKind ≠ .applyRunning
    | _ => True) ∧
  (s.opensWindow ev → s.wm.find s.wm.nextId = none)

instance (ev : Event) : Decidable (s.Careful ev) := by
  unfold Careful
  cases ev <;> infer_instance

/-! ### The invariant -/

/-- The meaning kept for the answer is that of the question. -/
def Means : Purpose → Prop
  | .close w => s.modalKind.closes ∧ s.modal.target = w
  | .quit => s.modalKind = .quitSession ∧ s.modal.question = kQuitQuestion
  | .apply => s.modalKind = .applyUpdate
  | .restart => s.modalKind = .restartForUpdate

structure Agrees : Prop where
  question : s.asks → s.Means s.posed ∧ s.modal.question = s.asked
  progress : s.modal.isOpen → s.modal.style = .progress → s.modal.confirm = false
  info : s.modal.isOpen → s.modal.style = .info → s.modalKind ≠ .quitSession
  quiet : s.update.report = []
  numbered : s.wm.Distinct

variable {s} {s' : Session}

/-- Without a dialog there is nothing to agree about. -/
theorem Agrees.of_closed (hclosed : s.modal.isOpen = false) (hquiet : s.update.report = [])
    (hwm : s.wm.Distinct) : s.Agrees where
  question := by simp [asks, hclosed]
  progress := by simp [hclosed]
  info := by simp [hclosed]
  quiet := hquiet
  numbered := hwm

/-- A dialog that is not touched stays in agreement. -/
theorem Agrees.of_dialog (h : s.Agrees) (hmodal : s'.modal = s.modal)
    (hkind : s'.modalKind = s.modalKind) (hposed : s'.posed = s.posed) (hasked : s'.asked = s.asked)
    (hquiet : s'.update.report = []) (hwm : s'.wm.Distinct) : s'.Agrees where
  question := by
    intro hasks
    obtain ⟨hq, htext⟩ := h.question (by simpa only [asks, hmodal] using hasks)
    rw [hposed, hasked, hmodal]
    refine ⟨?_, htext⟩
    cases hp : s.posed with
    | close w => simpa only [hp, Means, hmodal, hkind] using hq
    | quit => simpa only [hp, Means, hmodal, hkind] using hq
    | apply => simpa only [hp, Means, hkind] using hq
    | restart => simpa only [hp, Means, hkind] using hq
  progress := by simpa only [hmodal] using h.progress
  info := by simpa only [hmodal, hkind] using h.info
  quiet := hquiet
  numbered := hwm

/-- A question that is accepted has to mean what it says; one that is refused leaves
the dialog as it was. -/
theorem Agrees.pose {question cancelLabel confirmLabel : Bytes} {target : WindowId} {why : Purpose}
    (hquiet : s.update.report = []) (hwm : s.wm.Distinct)
    (hnew : s.modal.accepts → (s.pose question target cancelLabel confirmLabel why).Means why)
    (hold : s.modal.accepts = false → s.Agrees) :
    (s.pose question target cancelLabel confirmLabel why).Agrees := by
  cases hacc : s.modal.accepts with
  | true =>
      have hshown : (s.pose question target cancelLabel confirmLabel why).modal.style = .question := by
        simp only [Session.pose, Modal.askLabelled, if_neg (s.modal.accepts_iff.1 hacc)]
      refine ⟨fun _ => ?_, by simp [hshown], by simp [hshown], hquiet, hwm⟩
      have hposed : (s.pose question target cancelLabel confirmLabel why).posed = why := if_pos hacc
      rw [hposed]
      refine ⟨hnew hacc, ?_⟩
      simp only [Session.pose, Modal.askLabelled, if_neg (s.modal.accepts_iff.1 hacc), if_pos hacc]
  | false =>
      have hbusy : s.modal.isOpen ∧ s.modal.style ≠ .progress := by
        by_contra hfree
        simp [s.modal.accepts_iff.2 hfree] at hacc
      refine (hold hacc).of_dialog (if_pos hbusy) rfl ?_ ?_ hquiet hwm
      · simp only [Session.pose, hacc, Bool.false_eq_true, if_false]
      · simp only [Session.pose, hacc, Bool.false_eq_true, if_false]

theorem accepts_of_closed (h : s.modal.isOpen = false) : s.modal.accepts := by
  simp [Modal.accepts, h]

/-- A question put where there is no dialog only has to mean what it says. -/
theorem Agrees.pose_closed {kind : ModalKind} {question cancelLabel confirmLabel : Bytes}
    {target : WindowId} {why : Purpose} (h : s.Agrees) (hclosed : s.modal.isOpen = false)
    (hnew : (Session.pose { s with modalKind := kind } question target cancelLabel confirmLabel
      why).Means why) :
    (Session.pose { s with modalKind := kind } question target cancelLabel confirmLabel
      why).Agrees := by
  refine Agrees.pose h.quiet h.numbered (fun _ => hnew) fun hbusy => ?_
  exact absurd (accepts_of_closed hclosed) (by simpa using hbusy)

theorem Agrees.closeWindow (h : s.Agrees) (w : WindowId) : (s.closeWindow w).Agrees :=
  h.of_dialog rfl rfl rfl rfl h.quiet (h.numbered.close w)

theorem Agrees.openWindow (h : s.Agrees) (answers : CloseCheck)
    (hfresh : s.wm.find s.wm.nextId = none) : (s.openWindow answers).Agrees :=
  h.of_dialog rfl rfl rfl rfl h.quiet (h.numbered.open answers hfresh)

theorem Agrees.focus (h : s.Agrees) (w : WindowId) :
    Agrees { s with wm := s.wm.focus w } :=
  h.of_dialog rfl rfl rfl rfl h.quiet (h.numbered.focus w)

theorem Agrees.runUpdate (h : s.Agrees) (id : UpdateCommand) (launched : Option Nat) :
    (s.runUpdate id launched).Agrees :=
  h.of_dialog rfl rfl rfl rfl ((s.update.report_run id launched).trans h.quiet) h.numbered

/-- The first way: the closing question takes over the meaning that is there. -/
theorem Agrees.requestClose (h : s.Agrees) {w : WindowId}
    (hkind : ∀ c ∈ (s.wm.find w).map (·.app), c.allowed = false → s.modal.accepts →
      s.modalKind.closes) : (s.requestClose w).Agrees := by
  have hdrop : Agrees { s with dragging := false } := h.of_dialog rfl rfl rfl rfl h.quiet h.numbered
  unfold Session.requestClose
  cases hfind : s.wm.find w with
  | none => simpa only [hfind] using hdrop
  | some v =>
      simp only [hfind]
      split
      · exact hdrop.closeWindow w
      · next hrefuse =>
          refine Agrees.pose hdrop.quiet hdrop.numbered (fun hacc => ⟨?_, ?_⟩) fun _ => hdrop
          · exact hkind v.app (by simp [hfind]) (by simpa using hrefuse) hacc
          · simp only [Session.pose, Modal.askLabelled, if_neg (Modal.accepts_iff _ |>.1 hacc)]

theorem Agrees.confirmModal (h : s.Agrees) (launched : Option Nat) :
    (s.confirmModal launched).Agrees := by
  unfold Session.confirmModal
  split
  · exact h.of_dialog rfl rfl rfl rfl h.quiet h.numbered
  · exact h.runUpdate .restart launched
  · exact h
  · cases s.wm.find s.modal.target with
    | none => exact h
    | some w => exact h.closeWindow _

theorem Agrees.answerModal (h : s.Agrees) (confirmed : Bool) (launched : Option Nat) :
    (s.answerModal confirmed launched).Agrees := by
  unfold Session.answerModal
  split
  · refine ⟨by simp [asks, Modal.progress, Modal.dismiss], ?_, ?_, ?_, h.numbered⟩
    · simp [Modal.progress, Modal.dismiss]
    · simp [Modal.progress, Modal.dismiss]
    · exact (h.runUpdate .apply launched).quiet
  · cases confirmed with
    | false => exact .of_closed rfl h.quiet h.numbered
    | true =>
        have hdone := h.confirmModal launched
        exact .of_closed rfl hdone.quiet hdone.numbered

theorem Agrees.runUpdateCommand (h : s.Agrees) (hclosed : s.modal.isOpen = false)
    (id : UpdateCommand) (launched : Option Nat) : (s.runUpdateCommand id launched).Agrees := by
  simp only [Session.runUpdateCommand]
  split
  · exact h
  · split
    · exact h
    · cases id with
      | check => exact h.runUpdate .check launched
      | restart => exact h.pose_closed hclosed rfl
      | apply => exact h.pose_closed hclosed rfl

theorem Agrees.runMenu (h : s.Agrees) (hclosed : s.modal.isOpen = false) (id : MenuId)
    (launched : Option Nat) (hfresh : ∀ answers, id = .app answers → s.wm.find s.wm.nextId = none) :
    (s.runMenu id launched).Agrees := by
  have hshut : Agrees { s with menuOpen := false } := h.of_dialog rfl rfl rfl rfl h.quiet h.numbered
  cases id with
  | app answers => exact hshut.openWindow answers (hfresh answers rfl)
  | panel => exact hshut
  | cmd => exact hshut
  | tile => exact hshut
  | detach => exact hshut.of_dialog rfl rfl rfl rfl h.quiet h.numbered
  | update id => exact hshut.runUpdateCommand hclosed id launched
  | quit =>
      refine hshut.pose_closed hclosed ⟨rfl, ?_⟩
      have hfree : ¬ (s.modal.isOpen ∧ s.modal.style ≠ .progress) := by simp [hclosed]
      simp only [Session.pose, Modal.askLabelled, if_neg hfree]

/-! ### Input -/

theorem Agrees.modalKey (h : s.Agrees) (k : KeyEvent) (launched : Option Nat) :
    (s.modalKey k launched).Agrees := by
  have hdismiss : Agrees { s with modal := s.modal.dismiss } := .of_closed rfl h.quiet h.numbered
  have hnext : Agrees { s with modal := s.modal.focusNext } := by
    unfold Modal.focusNext
    split
    · next hstyle => exact ⟨h.question, by simp [hstyle], h.info, h.quiet, h.numbered⟩
    · exact h
  unfold Session.modalKey
  split
  · exact hdismiss
  all_goals first | exact hnext | exact h.answerModal _ launched | exact h

theorem Agrees.menuKey (h : s.Agrees) (hclosed : s.modal.isOpen = false) (k : KeyEvent)
    (selected : Option MenuId) (launched : Option Nat)
    (hfresh : ∀ answers, k.key = .enter → selected = some (.app answers) →
      s.wm.find s.wm.nextId = none) : (s.menuKey k selected launched).Agrees := by
  have hshut : Agrees { s with menuOpen := false } := h.of_dialog rfl rfl rfl rfl h.quiet h.numbered
  unfold Session.menuKey
  split
  · exact hshut
  · next henter =>
    cases selected with
    | none => exact hshut
    | some id =>
        refine h.runMenu hclosed id launched fun answers hid => hfresh answers henter ?_
        rw [hid]
  · split
    · exact hshut
    · exact h
  · exact h

theorem Agrees.onKey (h : s.Agrees) {k : KeyEvent} {selected : Option MenuId}
    {action : Option Action} {launched : Option Nat}
    (hcare : s.Careful (.key k selected action launched)) :
    (s.onKey k selected action launched).Agrees := by
  have hflag : ∀ d e m, Agrees { s with dragging := d, detach := e, menuOpen := m } :=
    fun d e m => h.of_dialog rfl rfl rfl rfl h.quiet h.numbered
  unfold Session.onKey
  split
  · exact hflag ..
  split
  · exact hflag ..
  split
  · exact h.modalKey k launched
  next hdrag hdet hclosed =>
  split
  · next hmenu =>
    refine h.menuKey (by simpa using hclosed) k selected launched fun answers henter hselected => ?_
    refine hcare.2.2 ?_
    simp [opensWindow, hselected, hdrag, hdet, hclosed, hmenu, henter]
  next hmenu =>
  cases action with
    | none => exact h
    | some a =>
        cases a with
        | close =>
            simp only [Session.doAction]
            cases hfind : s.wm.find s.wm.focused with
            | none => exact h
            | some w =>
                refine h.requestClose ?_
                have hcare := hcare.1
                simp only [closeAnswer, hdrag, hdet, hclosed, hmenu, hfind] at hcare
                rw [(WindowManager.mem_of_find hfind).2, hfind]
                simpa using hcare
        | openMenu => exact hflag ..
        | detach => exact hflag ..
        | focus w => exact h.focus w
        | other => exact h

theorem Agrees.onMouse (h : s.Agrees) {m : MouseEvent} {inMenu : MenuTarget} {target : Target}
    {launched : Option Nat} (hcare : s.Careful (.mouse m inMenu target launched)) :
    (s.onMouse m inMenu target launched).Agrees := by
  have hflag : ∀ d e, Agrees { s with dragging := d, menuOpen := e } :=
    fun d e => h.of_dialog rfl rfl rfl rfl h.quiet h.numbered
  unfold Session.onMouse
  split
  · split
    · exact hflag ..
    · exact h
  next hpress =>
  split
  · unfold Session.modalPress
    split
    · exact h.answerModal true launched
    · exact h.answerModal false launched
    · exact h
  next hclosed =>
  have hshut : s.modal.isOpen = false := by simpa using hclosed
  replace hpress : s.presses m = true := by simpa using hpress
  split
  · next hmenu =>
    cases inMenu with
    | item id =>
        refine h.runMenu hshut id launched fun answers hid => hcare.2.2 ?_
        simp [opensWindow, hid, hpress, hclosed, hmenu]
    | inside => exact h
    | outside => exact hflag ..
  next hmenu =>
  cases target with
  | menuButton => exact hflag ..
  | update => exact h.runUpdateCommand hshut _ launched
  | launcher answers =>
      refine h.openWindow answers (hcare.2.2 ?_)
      simp [opensWindow, hpress, hclosed, hmenu]
  | window w => exact h.focus w
  | frame w => exact (h.focus w).of_dialog rfl rfl rfl rfl h.quiet (h.numbered.focus w)
  | closeButton w =>
      refine (h.focus w).requestClose ?_
      have hcare := hcare.1
      simp only [closeAnswer, hpress, hclosed, hmenu] at hcare
      show ∀ c ∈ ((s.wm.focus w).find w).map (·.app), _
      rw [h.numbered.find_focus_self w]
      simpa using hcare
  | other => exact h

/-! ### The outside -/

/-- Under anything but a question the meaning may change. -/
theorem Agrees.with_kind (h : s.Agrees) (hasks : s.asks = false) {kind : ModalKind}
    (hkind : kind ≠ .quitSession) : Agrees { s with modalKind := kind } where
  question := fun hasks' => absurd (hasks.symm.trans hasks') (by decide)
  progress := h.progress
  info := fun _ _ => hkind
  quiet := h.quiet
  numbered := h.numbered

/-- The second way: a report changes the meaning, whatever is on display. -/
theorem Agrees.showReport (h : Agrees { s with update := s.update.takeReport.2 })
    (hasks : s.asks = false) : s.showReport.Agrees := by
  simp only [Session.showReport]
  split
  · exact Agrees.pose h.quiet h.numbered (fun _ => rfl) fun _ => h.with_kind hasks (by decide)
  · split
    · exact Agrees.pose h.quiet h.numbered (fun _ => rfl) fun _ => h.with_kind hasks (by decide)
    · unfold Modal.inform
      split
      · exact h.with_kind hasks (by decide)
      · exact ⟨by simp [asks], by simp, by simp, h.quiet, h.numbered⟩

theorem Agrees.onChildExit (h : s.Agrees) {pid : Nat} {failed : Bool} {r : Reading}
    (hcare : s.Careful (.childExit pid failed r)) : (s.onChildExit pid failed r).Agrees := by
  simp only [Session.onChildExit]
  split
  · next howns =>
      cases hmanual : s.update.childIsManual with
      | false =>
          have hquiet := (s.update.report_onChildExit r failed hmanual).trans h.quiet
          rw [if_neg (by simp [UpdateService.hasReport, hquiet])]
          exact h.of_dialog rfl rfl rfl rfl hquiet h.numbered
      | true =>
          split
          · exact Agrees.showReport (h.of_dialog rfl rfl rfl rfl rfl h.numbered) (hcare.2.1 howns hmanual)
          · next hnone =>
              refine h.of_dialog rfl rfl rfl rfl ?_ h.numbered
              simpa [UpdateService.hasReport] using hnone
  · exact h.of_dialog rfl rfl rfl rfl h.quiet h.numbered

/-- The work that goes on shows in the box, as long as it is not a question. -/
theorem Agrees.refreshUpdateModal (h : s.Agrees) (hcare : s.asks → s.modalKind ≠ .applyRunning) :
    s.refreshUpdateModal.Agrees := by
  simp only [Session.refreshUpdateModal]
  split
  · exact h
  next hrunning =>
  simp only [not_or, not_not] at hrunning
  have hbody : ∀ m, m = (if s.update.progressLine = [] then s.modal
      else s.modal.setBody s.update.progressLine) →
      m.isOpen = s.modal.isOpen ∧ m.style = s.modal.style ∧ m.confirm = s.modal.confirm := by
    rintro m rfl
    split
    · simp
    · unfold Modal.setBody
      split <;> simp
  obtain ⟨hopen, hstyle, hconfirm⟩ := hbody _ rfl
  refine ⟨fun hasks => ?_, ?_, ?_, h.quiet, h.numbered⟩
  · have hasks : s.asks := by simpa only [asks, Modal.setProgress, hopen, hstyle] using hasks
    exact absurd hrunning.1 (hcare hasks)
  · simpa only [Modal.setProgress, hopen, hstyle, hconfirm] using h.progress
  · simpa only [Modal.setProgress, hopen, hstyle] using h.info

theorem Agrees.tickUpdate (h : s.Agrees) (r : Reading) (due : Bool) (launched : Option Nat)
    (hcare : s.asks → s.modalKind ≠ .applyRunning) : (s.tickUpdate r due launched).Agrees := by
  have hticked : Agrees { s with update := s.update.tick r due launched } :=
    h.of_dialog rfl rfl rfl rfl ((s.update.report_tick r due launched).trans h.quiet) h.numbered
  exact hticked.refreshUpdateModal hcare

theorem Agrees.openPending (h : s.Agrees) (pending : Option CloseCheck)
    (hfresh : pending.isSome → s.wm.find s.wm.nextId = none) : (s.openPending pending).Agrees := by
  cases pending with
  | none => exact h
  | some answers => exact h.openWindow answers (hfresh rfl)

theorem Agrees.serveCloseRequest (h : s.Agrees)
    (hkind : ∀ c ∈ s.closeRequested.bind fun w => (s.wm.find w).map (·.app),
      c.allowed = false → s.modal.accepts → s.modalKind.closes) : s.serveCloseRequest.Agrees := by
  unfold Session.serveCloseRequest
  cases hreq : s.closeRequested with
  | none => exact h
  | some id =>
      have hserved : Agrees { s with
          wm := s.wm.update id fun w => { w with closeRequested := false } } :=
        h.of_dialog rfl rfl rfl rfl h.quiet (h.numbered.update id fun _ => rfl)
      refine hserved.requestClose ?_
      have hfind : (s.wm.update id fun w => { w with closeRequested := false }).find id =
          (s.wm.find id).map fun w => { w with closeRequested := false } :=
        WindowManager.find_update fun _ => rfl
      simpa [hfind, hreq] using hkind

theorem Agrees.render (h : s.Agrees) {cols rows : Int} {pending : Option CloseCheck}
    (hcare : s.Careful (.render cols rows pending)) : (s.render cols rows pending).Agrees := by
  have hkeeps : (s.openPending pending).modal = s.modal ∧
      (s.openPending pending).modalKind = s.modalKind := by
    cases pending <;> exact ⟨rfl, rfl⟩
  have hserved : (s.openPending pending).serveCloseRequest.Agrees := by
    refine (h.openPending pending fun hsome => hcare.2.2 ?_).serveCloseRequest ?_
    · obtain ⟨answers, rfl⟩ := Option.isSome_iff_exists.1 hsome
      rfl
    rw [hkeeps.1, hkeeps.2]
    exact hcare.1
  -- the place of the box is no part of the agreement
  exact ⟨hserved.question, hserved.progress, hserved.info, hserved.quiet, hserved.numbered⟩

theorem Agrees.appActs (h : s.Agrees) (w : WindowId) (answers : CloseCheck) (asksClose : Bool)
    (child : Option Nat) : (s.appActs w answers asksClose child).Agrees :=
  h.of_dialog rfl rfl rfl rfl h.quiet (h.numbered.update w fun _ => rfl)

theorem step_agrees (ev : Event) (h : s.Agrees) (hcare : s.Careful ev) : (s.step ev).Agrees := by
  cases ev with
  | key k selected action launched => exact h.onKey hcare
  | mouse m inMenu target launched => exact h.onMouse hcare
  | paste => exact h.of_dialog rfl rfl rfl rfl h.quiet h.numbered
  | focus focused =>
      cases focused with
      | true => exact h
      | false => exact h.of_dialog rfl rfl rfl rfl h.quiet h.numbered
  | childExit pid failed r => exact h.onChildExit hcare
  | tick r due launched => exact h.tickUpdate r due launched hcare.2.1
  | render cols rows pending => exact h.render hcare
  | app w answers asksClose child => exact h.appActs w answers asksClose child

theorem init_agrees (r : Reading) (launched : Option Nat) : (init r launched).Agrees :=
  .of_closed rfl (UpdateService.report_tick {} r false launched) List.nodup_nil

/-! ### What a yes does -/

/-- A yes reaches the dialog and nothing else. -/
theorem step_of_confirms {ev : Event} (h : s.Confirms ev) :
    s.step ev = s.answerModal true (launchedBy ev) := by
  cases ev with
  | key k selected action launched =>
      obtain ⟨hopen, hdrag, hdet, henter, hyes⟩ := h
      simp only [step, onKey, modalKey, hopen, hdrag, hdet, henter, hyes, launchedBy]
      simp
  | mouse m inMenu target launched =>
      obtain ⟨hopen, hpress, hhit⟩ := h
      simp only [step, onMouse, modalPress, hopen, hpress, hhit, launchedBy]
      simp
  | paste => exact h.elim
  | focus focused => exact h.elim
  | childExit pid failed r => exact h.elim
  | tick r due launched => exact h.elim
  | render cols rows pending => exact h.elim
  | app w answers asksClose child => exact h.elim

theorem asks_answerModal (confirmed : Bool) (launched : Option Nat) :
    (s.answerModal confirmed launched).asks = false := by
  unfold answerModal
  split
  · simp [asks, Modal.progress, Modal.dismiss]
  · simp [asks, Modal.dismiss]

theorem answerModal_true (launched : Option Nat) (h : s.modalKind ≠ .applyUpdate) :
    s.answerModal true launched =
      { s.confirmModal launched with
        modalKind := .closeWindow
        modal := (s.confirmModal launched).modal.dismiss } :=
  if_neg fun hyes => h hyes.2

theorem answerModal_apply (launched : Option Nat) (h : s.modalKind = .applyUpdate) :
    s.answerModal true launched =
      { s.runUpdate .apply launched with
        modal := s.modal.dismiss.progress (s.runUpdate .apply launched).update.progressLine
        modalKind := .applyRunning } :=
  if_pos ⟨rfl, h⟩

theorem confirmModal_of_closes (launched : Option Nat) (h : s.modalKind.closes) :
    s.confirmModal launched = s.carryOut launched (.close s.modal.target) := by
  unfold confirmModal
  split
  · next hk => simp [hk, ModalKind.closes] at h
  · next hk => simp [hk, ModalKind.closes] at h
  · next hk => simp [hk, ModalKind.closes] at h
  · simp only [carryOut]
    cases s.wm.find s.modal.target <;> rfl

/-- When the meaning is that of the question, a yes does what the question says. -/
theorem answerModal_of_means (launched : Option Nat) {why : Purpose} (h : s.Means why) :
    s.answerModal true launched =
      { s.carryOut launched why with
        modal := (s.answerModal true launched).modal
        modalKind := (s.answerModal true launched).modalKind } := by
  cases why with
  | close w =>
      obtain ⟨hkind, rfl⟩ := h
      have hne : s.modalKind ≠ .applyUpdate := by
        intro heq
        simp [heq, ModalKind.closes] at hkind
      rw [answerModal_true launched hne, confirmModal_of_closes launched hkind]
  | quit =>
      have hne : s.modalKind ≠ .applyUpdate := by simp [h.1]
      rw [answerModal_true launched hne]
      simp only [confirmModal, h.1]
      rfl
  | apply =>
      rw [answerModal_apply launched h]
      rfl
  | restart =>
      have hkind : s.modalKind = .restartForUpdate := h
      have hne : s.modalKind ≠ .applyUpdate := by simp [hkind]
      rw [answerModal_true launched hne]
      simp only [confirmModal, hkind]
      rfl

/-- The windows after the closing question for `w` is confirmed. -/
theorem wm_carryOut_close (launched : Option Nat) (w : WindowId) :
    (s.carryOut launched (.close w)).wm = s.wm.close w := by
  simp only [carryOut]
  split
  · rfl
  · next hnone =>
      have hnone : s.wm.find w = none := by simpa using hnone
      simp only [WindowManager.close, hnone]

theorem Agrees.performs (h : s.Agrees) (hasks : s.asks) (launched : Option Nat) :
    s.Performs launched (s.answerModal true launched) := by
  obtain ⟨hmeans, htext⟩ := h.question hasks
  have hexact := answerModal_of_means launched hmeans
  refine ⟨htext, hexact, asks_answerModal true launched, ?_⟩
  intro w hw
  rw [hw] at hmeans hexact
  have hwm : (s.answerModal true launched).wm = s.wm.close w := by
    rw [hexact]
    exact wm_carryOut_close launched w
  refine ⟨hmeans.2, ?_, ?_, ?_⟩
  · rw [hwm]
    exact WindowManager.find_close_self h.numbered w
  · intro v hv
    rw [hwm]
    exact WindowManager.find_close_of_ne hv
  · rw [hexact]
    simp only [carryOut]
    split <;> exact ⟨rfl, rfl, rfl⟩

/-! ### Leaving the session -/

theorem quit_answerModal (confirmed : Bool) (launched : Option Nat) :
    (s.answerModal confirmed launched).quit =
      (s.quit || (confirmed && s.modalKind == .quitSession)) := by
  cases confirmed with
  | false => simp [answerModal]
  | true =>
      by_cases happly : s.modalKind = .applyUpdate
      · rw [answerModal_apply launched happly]
        simp [runUpdate, happly]
      · rw [answerModal_true launched happly]
        show (s.confirmModal launched).quit = _
        unfold confirmModal
        split
        · next hk => simp [hk]
        · next hk => simp [hk, runUpdate]
        · next hk => simp [hk]
        · next hquit _ _ =>
            have hkind : (s.modalKind == .quitSession) = false := by simpa using hquit
            rw [hkind]
            split <;> simp [closeWindow]

theorem quit_requestClose (w : WindowId) : (s.requestClose w).quit = s.quit := by
  simp only [requestClose]
  split
  · rfl
  · split <;> rfl

theorem quit_runUpdateCommand (id : UpdateCommand) (launched : Option Nat) :
    (s.runUpdateCommand id launched).quit = s.quit := by
  simp only [runUpdateCommand]
  split
  · rfl
  · split
    · rfl
    · cases id <;> rfl

theorem quit_runMenu (id : MenuId) (launched : Option Nat) :
    (s.runMenu id launched).quit = s.quit := by
  cases id with
  | update id => exact quit_runUpdateCommand id launched
  | _ => rfl

theorem quit_menuKey (k : KeyEvent) (selected : Option MenuId) (launched : Option Nat) :
    (s.menuKey k selected launched).quit = s.quit := by
  unfold menuKey
  split
  · rfl
  · cases selected with
    | none => rfl
    | some id => exact quit_runMenu id launched
  · split <;> rfl
  · rfl

theorem quit_doAction (a : Action) : (s.doAction a).quit = s.quit := by
  cases a with
  | close =>
      simp only [doAction]
      split
      · rfl
      · exact quit_requestClose _
  | _ => rfl

theorem quit_modalKey {k : KeyEvent} {launched : Option Nat}
    (h : (s.modalKey k launched).quit ≠ s.quit) :
    k.key = .enter ∧ s.modal.confirm ∧ s.modalKind = .quitSession := by
  unfold modalKey at h
  split at h
  case h_6 henter =>
    rw [quit_answerModal] at h
    refine ⟨henter, ?_⟩
    cases hyes : s.modal.confirm <;> simp_all
  all_goals exact absurd rfl h

theorem quit_modalPress {m : MouseEvent} {launched : Option Nat}
    (h : (s.modalPress m launched).quit ≠ s.quit) :
    s.modal.hit m.x m.y = .confirm ∧ s.modalKind = .quitSession := by
  unfold modalPress at h
  split at h
  · next hhit =>
      rw [quit_answerModal] at h
      refine ⟨hhit, ?_⟩
      by_contra hkind
      simp [hkind] at h
  · simp [quit_answerModal] at h
  · exact absurd rfl h

theorem quit_menuPress (inMenu : MenuTarget) (launched : Option Nat) :
    (s.menuPress inMenu launched).quit = s.quit := by
  cases inMenu with
  | item id => exact quit_runMenu id launched
  | _ => rfl

theorem quit_targetPress (target : Target) (launched : Option Nat) :
    (s.targetPress target launched).quit = s.quit := by
  cases target with
  | update => exact quit_runUpdateCommand _ launched
  | closeButton w => exact quit_requestClose w
  | _ => rfl

theorem quit_showReport : s.showReport.quit = s.quit := by
  simp only [showReport]
  split
  · rfl
  · split <;> rfl

theorem quit_onChildExit (pid : Nat) (failed : Bool) (r : Reading) :
    (s.onChildExit pid failed r).quit = s.quit := by
  simp only [onChildExit]
  split
  · split
    · exact quit_showReport
    · rfl
  · rfl

theorem quit_refreshUpdateModal : s.refreshUpdateModal.quit = s.quit := by
  simp only [refreshUpdateModal]
  split <;> rfl

theorem quit_render (cols rows : Int) (pending : Option CloseCheck) :
    (s.render cols rows pending).quit = s.quit := by
  have hopen : (s.openPending pending).quit = s.quit := by cases pending <;> rfl
  rw [← hopen]
  show (s.openPending pending).serveCloseRequest.quit = _
  unfold serveCloseRequest
  split
  · rfl
  · exact quit_requestClose _

/-- The one way out: a yes to a dialog that is about leaving. -/
theorem confirms_of_quit {ev : Event} (hbefore : s.quit = false) (hafter : (s.step ev).quit) :
    s.Confirms ev ∧ s.modalKind = .quitSession := by
  -- every other function keeps the flag
  have hkeeps : (s.step ev).quit ≠ s.quit := by simp [hbefore, hafter]
  cases ev with
  | key k selected action launched =>
      change (s.onKey k selected action launched).quit ≠ s.quit at hkeeps
      unfold onKey at hkeeps
      split at hkeeps
      · exact absurd rfl hkeeps
      next hdrag =>
      split at hkeeps
      · exact absurd rfl hkeeps
      next hdet =>
      split at hkeeps
      · next hopen =>
          obtain ⟨henter, hyes, hkind⟩ := quit_modalKey hkeeps
          exact ⟨⟨hopen, by simpa using hdrag, by simpa using hdet, henter, hyes⟩, hkind⟩
      · split at hkeeps
        · exact absurd (quit_menuKey k selected launched) hkeeps
        · cases action with
          | none => exact absurd rfl hkeeps
          | some a => exact absurd (quit_doAction a) hkeeps
  | mouse m inMenu target launched =>
      change (s.onMouse m inMenu target launched).quit ≠ s.quit at hkeeps
      unfold onMouse at hkeeps
      split at hkeeps
      · split at hkeeps <;> exact absurd rfl hkeeps
      next hpress =>
      split at hkeeps
      · next hopen =>
          obtain ⟨hhit, hkind⟩ := quit_modalPress hkeeps
          exact ⟨⟨hopen, by simpa using hpress, hhit⟩, hkind⟩
      · split at hkeeps
        · exact absurd (quit_menuPress inMenu launched) hkeeps
        · exact absurd (quit_targetPress target launched) hkeeps
  | paste => exact absurd rfl hkeeps
  | focus focused => cases focused <;> exact absurd rfl hkeeps
  | childExit pid failed r => exact absurd (quit_onChildExit pid failed r) hkeeps
  | tick r due launched => exact absurd quit_refreshUpdateModal hkeeps
  | render cols rows pending => exact absurd (quit_render cols rows pending) hkeeps
  | app w answers asksClose child => exact absurd rfl hkeeps

/-- Nothing but a question takes a yes with this meaning. -/
theorem Agrees.asks_of_confirms (h : s.Agrees) {ev : Event} (hyes : s.Confirms ev)
    (hkind : s.modalKind = .quitSession) : s.asks := by
  have hopen : s.modal.isOpen := by
    cases ev <;> first | exact hyes.1 | exact hyes.elim
  cases hstyle : s.modal.style with
  | question => simp [asks, hopen, hstyle]
  | info => exact absurd hkind (h.info hopen hstyle)
  | progress =>
      have hfocus := h.progress hopen hstyle
      cases ev with
      | key k selected action launched => simp [Confirms, hfocus] at hyes
      | mouse m inMenu target launched =>
          have hhit := s.modal.hit_progress hstyle m.x m.y
          simp [hyes.2.2] at hhit
      | _ => exact hyes.elim

theorem Agrees.quits_on_question (h : s.Agrees) {ev : Event} (hbefore : s.quit = false)
    (hafter : (s.step ev).quit) :
    s.asks ∧ s.posed = .quit ∧ s.modal.question = kQuitQuestion ∧ s.Confirms ev := by
  obtain ⟨hyes, hkind⟩ := confirms_of_quit hbefore hafter
  have hasks : s.asks := h.asks_of_confirms hyes hkind
  obtain ⟨hmeans, -⟩ := h.question hasks
  cases hposed : s.posed with
  | quit =>
      rw [hposed] at hmeans
      exact ⟨hasks, rfl, hmeans.2, hyes⟩
  | close w => simp [Means, hposed, hkind, ModalKind.closes] at hmeans
  | apply => simp [Means, hposed, hkind] at hmeans
  | restart => simp [Means, hposed, hkind] at hmeans

/-- **Confirming a question.** In every run whose steps are careful, whatever state is
reached: a yes to the question on display does what that question asks for and nothing
else, and the session is left only by a yes to the question that says so. -/
theorem run_confirms_question {r : Reading} {launched : Option Nat} {evs before : List Event}
    (hcare : StepsMeet step Careful (init r launched) evs) (hbefore : before <+: evs) (ev : Event) :
    let s := run step (init r launched) before
    (s.asks → s.Confirms ev → s.Performs (launchedBy ev) (s.step ev)) ∧
      (s.quit = false → (s.step ev).quit →
        s.asks ∧ s.posed = .quit ∧ s.modal.question = kQuitQuestion ∧ s.Confirms ev) := by
  obtain ⟨after, rfl⟩ := hbefore
  have hagrees : (run step (init r launched) before).Agrees :=
    run_invariant (fun s ev => step_agrees ev) (init_agrees r launched) hcare.of_append
  refine ⟨fun hasks hyes => ?_, fun hquit hquits => hagrees.quits_on_question hquit hquits⟩
  rw [step_of_confirms hyes]
  exact hagrees.performs hasks _

/-! ### Four runs -/

/-- A key that the dialog takes. -/
def press (k : Input.Key) : Event := .key { key := k } none none none

def pick (id : MenuId) (launched : Option Nat) : List Event :=
  [.key { key := .f1 } none (some .openMenu) none, .key { key := .enter } (some id) none launched]

/-- The user asks for the active window to close. -/
def askClose : Event := .key { key := .f4 } none (some .close) none

/-- A window that does not close without a question. -/
def openGuarded : List Event := pick (.app { allowed := false, question := text "Fermer ?" }) none

/-- The closing question, and the focus on its yes. -/
def plainClose : List Event := openGuarded ++ [askClose, press .tab]

theorem run_confirms_question_plainClose :
    let s := run step (init {} none) plainClose
    StepsMeet step Careful (init {} none) plainClose ∧ s.asks ∧ s.Confirms (press .enter) ∧
      s.posed = .close 1 ∧ s.Performs none (s.step (press .enter)) := by
  have hcare : StepsMeet step Careful (init {} none) plainClose := by decide
  have hasks : (run step (init {} none) plainClose).asks := by decide
  have hyes : (run step (init {} none) plainClose).Confirms (press .enter) := by
    refine ⟨?_, ?_, ?_, rfl, ?_⟩ <;> decide
  exact ⟨hcare, hasks, hyes, by decide,
    (run_confirms_question hcare (List.prefix_refl _) (press .enter)).1 hasks hyes⟩

/-- The question about leaving is left by Escape before the closing question is put. -/
def abandonedQuit : List Event :=
  openGuarded ++ pick .quit none ++ [press .escape, askClose, press .tab]

/-- An installation from which a check can be launched. -/
def installed : Reading := { state := { pathPrefix := [0x2f] } }

/-- The check the user asked for ends under the closing question. -/
def lateReport : List Event :=
  openGuarded ++ pick (.update .check) (some 7) ++
    [askClose, .childExit 7 false { installed with state := { installed.state with status := .available } },
      press .tab]

/-- What a state of the installation file reads while an update is available, or is made. -/
def reads (status : UpdateStatus) (stage : Bytes) : Reading :=
  { installed with state := { installed.state with status := status, stage := stage } }

/-- A window asks to be closed while an update is made, which goes on. -/
def writtenOver : List Event :=
  openGuarded ++ pick (.update .apply) none ++
    [press .tab, .key { key := .enter } none none (some 9),
      .app 1 { allowed := false, question := text "Fermer ?" } true none, .render 80 24 none,
      .tick (reads .applying (text "compilation")) false none, press .tab]

/-- The closing question for a window is on display, and a yes to it destroys the
session, or starts an update, and leaves the window; or the words on display are not those
of the question any more. -/
theorem yes_to_another_question :
    (let s := run step (init {} none) abandonedQuit
     let s' := s.step (press .enter)
     s.asks ∧ s.posed = .close 1 ∧ s.modal.target = 1 ∧ s.Confirms (press .enter) ∧
       s.quit = false ∧ s'.quit ∧ (s'.wm.find 1).isSome) ∧
    (let s := run step (init installed none) lateReport
     let s' := s.step (press .enter)
     s.asks ∧ s.posed = .close 1 ∧ s.modal.target = 1 ∧ s.Confirms (press .enter) ∧
       s.runs = [.check] ∧ s'.runs = [.check, .apply] ∧ (s'.wm.find 1).isSome) ∧
    (let s := run step (init (reads .available []) none) writtenOver
     let s' := s.step (press .enter)
     s.asks ∧ s.posed = .close 1 ∧ s.modal.target = 1 ∧ s.Confirms (press .enter) ∧
       s.modal.question ≠ s.asked ∧ (s'.wm.find 1).isNone) := by
  refine ⟨⟨?_, ?_, ?_, ⟨?_, ?_, ?_, rfl, ?_⟩, ?_, ?_, ?_⟩,
    ⟨?_, ?_, ?_, ⟨?_, ?_, ?_, rfl, ?_⟩, ?_, ?_, ?_⟩,
    ⟨?_, ?_, ?_, ⟨?_, ?_, ?_, rfl, ?_⟩, ?_, ?_⟩⟩ <;> decide +kernel

end Session

end Sshos.Daemon
