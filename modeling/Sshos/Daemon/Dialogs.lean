import Sshos.Daemon.Session
import Sshos.Lib.Strings
import Sshos.Shell.ModalDraw
import Sshos.Shell.UpdateState

/-!
# Sshos.Daemon.Dialogs

The **questions the session puts**, from the text of the state file to the cells of the two
buttons. A box is one row for each line of its text and five more, as far as the screen
goes; the buttons follow the text, wherever the box ends.
-/

namespace Sshos.Daemon

open Sshos.Lib (Bytes digit_of_mem_toString)
open Sshos.Render (Printable)
open Sshos.Shell
open Sshos.Shell.UpdateFile (FileKey OneLine kMaxUpdateNotes length_notes_parseUpdateState
  oneLine_parseUpdateState parseUpdateState)
open Sshos.Wm (WindowId)

/-- What the service shows is what it read in a state file last, or its own word on it. -/
def FromFile (u : UpdateService) : Prop :=
  ∃ (u₀ : UpdateService) (r : Reading) (raw : Bytes) (now : Int),
    r.state = (parseUpdateState raw now).toUpdateState ∧ u.state = (u₀.reload r).state ∧
    (u.message = (u₀.reload r).message ∨ u.message = text "echec de la mise a jour, voir update.log")

/-- The answers the update service leaves: what it built, or its word on a script that died. -/
def Reports (u : UpdateService) (report : Bytes) : Prop :=
  FromFile u ∧ (report = u.reportText ∨ report = text "Echec, voir update.log")

inductive Question where
  /-- To close a window or the session, or to start it anew. -/
  | close (question : Bytes)
  /-- To install, asked from the menu. -/
  | install (s : Session)
  /-- A report that calls for an installation. -/
  | offer (u : UpdateService) (report : Bytes)
  /-- A report, and the offer to start the session anew. -/
  | restart (s : Session) (report : Bytes)

namespace Question

def body : Question → Bytes
  | .close question => question
  | .install s => s.applyQuestion
  | .offer _ report => report
  | .restart s report => report ++ text "\n" ++ s.restartQuestion

def cancelLabel : Question → Bytes
  | .close _ | .install _ => Modal.kCancel
  | .offer _ _ | .restart _ _ => text "Plus tard"

def confirmLabel : Question → Bytes
  | .close _ | .install _ => Modal.kConfirm
  | .offer u _ => u.entry.label
  | .restart _ _ => text "Redemarrer"

/-- When the session puts it. -/
def Posed : Question → Prop
  | .close question => 0x0A ∉ question
  | .install s => FromFile s.update
  | .offer u report => Reports u report ∧ u.entry.enabled ∧ u.entry.id = .apply
  | .restart s report => Reports s.update report

/-- The longest text there is: a version, as many notes as are kept, and the offer to start
the session anew. -/
def Longest : Question → Prop
  | .restart s report =>
      report = s.update.reportText ∧ s.update.state.status = .available ∧
        s.update.versionLine ≠ [] ∧ s.update.state.notes.length = kMaxUpdateNotes
  | _ => False

def ask (q : Question) (m : Modal) (target : WindowId) : Modal :=
  m.askLabelled q.body target q.cancelLabel q.confirmLabel

end Question

/-! ### The lines of a text -/

section Lines

variable {u : UpdateService}

theorem count_newline_toString (n : Nat) : (text (toString n)).count 0x0A = 0 :=
  List.count_eq_zero.2 fun h => absurd (digit_of_mem_toString h) (by decide)

/-- What the service read can be shown a line at a time, and so can its message when it is
about something finished. -/
theorem FromFile.oneLine (h : FromFile u) :
    OneLine u.state ∧ u.state.notes.length ≤ kMaxUpdateNotes ∧
    (UpdateService.inProgress u.state = false → 0x0A ∉ u.message) := by
  obtain ⟨u₀, r, raw, now, hr, hstate, hmessage⟩ := h
  have hline : OneLine r.state := hr ▸ oneLine_parseUpdateState raw now
  have hnotes : r.state.notes.length ≤ kMaxUpdateNotes := hr ▸ length_notes_parseUpdateState raw now
  rw [hstate]
  refine ⟨{ hline with }, hnotes, fun hdone => ?_⟩
  rcases hmessage with hmessage | hmessage
  case inr =>
    rw [hmessage]
    repeat rw [text_ofList]
    decide
  rw [hmessage]
  have hprogress : UpdateService.inProgress r.state = false := by
    simp only [UpdateService.reload, UpdateService.inProgress] at hdone ⊢
    split at hdone
    next hpending => rw [hpending.1]; decide
    next => exact hdone
  simp only [UpdateService.reload, hprogress, Bool.false_and, Bool.false_eq_true, if_false,
    not_false_eq_true, if_true]
  exact hline.message

theorem count_news (u : UpdateService) : u.news.count 0x0A = 0 := by
  unfold UpdateService.news
  split
  · rfl
  next hahead =>
    obtain ⟨n, hn⟩ := Int.eq_ofNat_of_zero_le (Int.not_le.1 hahead).le
    have hdecimal : (UpdateService.decimal u.state.commitsAhead).count 0x0A = 0 := by
      rw [hn]
      exact count_newline_toString n
    rw [List.count_append, hdecimal]
    split
    · repeat rw [text_ofList]
      decide
    · repeat rw [text_ofList]
      decide

theorem count_versionLine (h : OneLine u.state) : u.versionLine.count 0x0A = 0 := by
  have hshort : ∀ c : Bytes, 0x0A ∉ c → (UpdateService.shortCommit c).count 0x0A = 0 := by
    intro c hc
    unfold UpdateService.shortCommit
    split
    · rfl
    · exact List.count_eq_zero.2 fun hmem => hc (List.take_subset _ _ hmem)
  unfold UpdateService.versionLine
  split
  · simp only [List.count_append, List.count_eq_zero.2 h.installedVersion,
      List.count_eq_zero.2 h.remoteVersion]
    repeat rw [text_ofList]
    decide
  simp only
  split
  · rfl
  · simp only [List.count_append, hshort _ h.installedCommit, hshort _ h.remoteCommit]
    repeat rw [text_ofList]
    decide

theorem count_notes {notes : List Bytes} (h : ∀ n ∈ notes, 0x0A ∉ n) (out : Bytes) :
    (notes.foldl (fun out n => out ++ text "\n  - " ++ n) out).count 0x0A =
      out.count 0x0A + notes.length := by
  have hdash : (text "\n  - ").count 0x0A = 1 := by
    repeat rw [text_ofList]
    decide
  induction notes generalizing out with
  | nil => rfl
  | cons n notes ih =>
      obtain ⟨hn, hrest⟩ := List.forall_mem_cons.1 h
      rw [List.foldl_cons, ih hrest, List.count_append, List.count_append, hdash,
        List.count_eq_zero.2 hn, List.length_cons]
      omega

/-- A report that offers nothing to install is on one line. -/
theorem count_reportText_of_ne (hmessage : UpdateService.inProgress u.state = false → 0x0A ∉ u.message)
    (h : OneLine u.state) (hstatus : u.state.status ≠ .available) : u.reportText.count 0x0A = 0 := by
  have hwhy : UpdateService.inProgress u.state = false →
      (if u.message = [] then text "raison inconnue" else u.message.take 60).count 0x0A = 0 := by
    intro hdone
    split
    · repeat rw [text_ofList]
      decide
    · exact List.count_eq_zero.2 fun hmem => hmessage hdone (List.take_subset _ _ hmem)
  unfold UpdateService.reportText
  generalize (if u.message = [] then text "raison inconnue" else u.message.take 60) = why at hwhy ⊢
  unfold UpdateService.inProgress at hwhy
  cases hs : u.state.status with
  | available => exact absurd hs hstatus
  | upToDate =>
      simp only
      split
      · repeat rw [text_ofList]
        decide
      · simp only [List.count_append, List.count_eq_zero.2 h.installedVersion]
        repeat rw [text_ofList]
        decide
  | checkFailed | applyFailed | updatesDisabled =>
      rw [hs] at hwhy
      simp only [List.count_append, hwhy (by decide)]
      repeat rw [text_ofList]
      decide
  | idle | checking | applying | restartPending | historyRewritten =>
      simp only
      repeat rw [text_ofList]
      decide

/-- **The line breaks of a report** of something to install. -/
theorem count_reportText (h : OneLine u.state) (hstatus : u.state.status = .available) :
    u.reportText.count 0x0A = (if u.versionLine = [] then 0 else 1) +
      (if u.state.notes = [] then 0 else 1 + u.state.notes.length) := by
  have hlits : (text "Mise a jour disponible").count 0x0A = 0 ∧ (text " : ").count 0x0A = 0 ∧
      (text ".").count 0x0A = 0 ∧ (text "\n").count 0x0A = 1 := by
    repeat rw [text_ofList]
    decide
  have hhead : ((if u.news = [] then text "Mise a jour disponible"
      else text "Mise a jour disponible" ++ text " : " ++ u.news) ++ text ".").count 0x0A = 0 := by
    split <;> simp only [List.count_append, hlits, count_news]
  unfold UpdateService.reportText
  simp only [hstatus]
  generalize (if u.news = [] then text "Mise a jour disponible"
    else text "Mise a jour disponible" ++ text " : " ++ u.news) ++ text "." = head at hhead ⊢
  have hversion : (if u.versionLine = [] then head else head ++ text "\n" ++ u.versionLine).count 0x0A =
      if u.versionLine = [] then 0 else 1 := by
    split
    · exact hhead
    · simp only [List.count_append, hhead, hlits, count_versionLine h]
  split
  · exact hversion
  · rw [count_notes h.notes, List.count_append, hversion, hlits.2.2.2]
    omega

theorem count_restartQuestion (s : Session) : s.restartQuestion.count 0x0A = 0 := by
  have hlits : (text "Redemarrer maintenant ? ").count 0x0A = 0 ∧ (text " fenetres").count 0x0A = 0 ∧
      (text " fenetre").count 0x0A = 0 ∧ (text " et ").count 0x0A = 0 ∧
      (text " processus en cours").count 0x0A = 0 ∧ (text " seront fermes.").count 0x0A = 0 := by
    repeat rw [text_ofList]
    decide
  unfold Session.restartQuestion
  simp only [List.count_append, hlits]
  split <;> split <;> simp only [List.count_append, hlits, count_newline_toString]

theorem count_applyQuestion {s : Session} (h : OneLine s.update.state) :
    s.applyQuestion.count 0x0A ≤ 2 := by
  have hlits : (text "Installer la mise a jour ?").count 0x0A = 0 ∧ (text " ").count 0x0A = 0 ∧
      (text ".").count 0x0A = 0 ∧ (text "\n").count 0x0A = 1 ∧
      (text "\nVos fenetres restent ouvertes.").count 0x0A = 1 := by
    repeat rw [text_ofList]
    decide
  unfold Session.applyQuestion
  simp only [List.count_append, hlits]
  split <;> split <;> simp only [List.count_append, hlits, count_news, count_versionLine h] <;> omega

theorem Reports.count_le {report : Bytes} (h : Reports u report) : report.count 0x0A ≤ 8 := by
  obtain ⟨hfile, rfl | rfl⟩ := h
  · obtain ⟨hline, hnotes, hmessage⟩ := hfile.oneLine
    unfold kMaxUpdateNotes at hnotes
    by_cases hstatus : u.state.status = .available
    · rw [count_reportText hline hstatus]
      split <;> split <;> omega
    · rw [count_reportText_of_ne hmessage hline hstatus]
      exact Nat.zero_le 8
  · repeat rw [text_ofList]
    decide

/-- The longest reports. -/
theorem Reports.count_eq_iff {report : Bytes} (h : Reports u report) : report.count 0x0A = 8 ↔
    report = u.reportText ∧ u.state.status = .available ∧ u.versionLine ≠ [] ∧
      u.state.notes.length = kMaxUpdateNotes := by
  obtain ⟨hline, hnotes, hmessage⟩ := h.1.oneLine
  unfold kMaxUpdateNotes at hnotes ⊢
  have htext : u.reportText.count 0x0A = 8 ↔ u.state.status = .available ∧ u.versionLine ≠ [] ∧
      u.state.notes.length = 6 := by
    by_cases hstatus : u.state.status = .available
    · rw [count_reportText hline hstatus]
      by_cases hnone : u.state.notes = []
      · rw [if_pos hnone, hnone]
        split <;> simp_all
      · rw [if_neg hnone]
        split
        next hv => simp only [hv, ne_eq, not_true_eq_false, false_and, and_false, iff_false]; omega
        next hv => simp only [hstatus, hv, ne_eq, not_false_eq_true, true_and]; omega
    · rw [count_reportText_of_ne hmessage hline hstatus]
      simp [hstatus]
  obtain ⟨-, rfl | rfl⟩ := h
  · simpa using htext
  · have hshort : (text "Echec, voir update.log").count 0x0A = 0 := by
      repeat rw [text_ofList]
      decide
    rw [hshort]
    refine iff_of_false (by decide) fun hlong => ?_
    have := htext.2 hlong.2
    rw [← hlong.1, hshort] at this
    cases this

end Lines

/-! ### The questions -/

namespace Question

variable {q : Question}

/-- A question has ten lines at most, and ten only when there is all of it to say. -/
theorem Posed.lines (h : q.Posed) : (Modal.bodyLines q.body).length ≤ 10 ∧
    ((Modal.bodyLines q.body).length = 10 ↔ q.Longest) := by
  rw [Modal.length_bodyLines]
  cases q with
  | close question =>
      have hcount : question.count 0x0A = 0 := List.count_eq_zero.2 h
      simp only [body, hcount, Longest, iff_false]
      omega
  | install s =>
      have hcount := count_applyQuestion (FromFile.oneLine h).1
      simp only [body, Longest, iff_false]
      omega
  | offer u report =>
      have hcount := Reports.count_le h.1
      simp only [body, Longest, iff_false]
      omega
  | restart s report =>
      have hle := Reports.count_le h
      have heq := Reports.count_eq_iff h
      have hbreak : (text "\n").count 0x0A = 1 := by
        repeat rw [text_ofList]
        decide
      simp only [body, Longest, List.count_append, hbreak, count_restartQuestion, ← heq]
      omega

theorem label_of_apply {u : UpdateService} (henabled : u.entry.enabled) (hid : u.entry.id = .apply) :
    u.entry.label = text "Reinstaller depuis GitHub" ∨ u.entry.label = text "Mettre a jour" := by
  unfold UpdateService.entry at *
  by_cases hoff : u.state.status = .updatesDisabled
  · simp [hoff] at henabled
  by_cases hwork : u.working
  · by_cases happlying : u.state.status = .applying
    · simp [hwork, happlying] at henabled
    · simp [hoff, hwork, happlying] at henabled
  by_cases hrestart : u.restartNeeded
  · simp [hoff, hwork, hrestart] at hid
  rw [if_neg hoff, if_neg hwork, if_neg hrestart] at hid ⊢
  split
  next => exact .inl rfl
  next hknown =>
    rw [if_neg hknown] at hid
    split
    next => exact .inr rfl
    next hnone =>
      rw [if_neg hnone] at hid
      cases hid

theorem Posed.printable (h : q.Posed) :
    (∀ b ∈ q.cancelLabel, Printable b) ∧ ∀ b ∈ q.confirmLabel, Printable b := by
  cases q with
  | close | install | restart =>
      simp only [cancelLabel, confirmLabel]
      decide +kernel
  | offer u report =>
      simp only [cancelLabel, confirmLabel]
      refine ⟨by decide +kernel, ?_⟩
      rcases label_of_apply h.2.1 h.2.2 with hlabel | hlabel
      · rw [hlabel]
        decide +kernel
      · rw [hlabel]
        decide +kernel

/-- **Which questions can be answered with the mouse**, whichever button has the focus: all
of them, but the longest on a screen of twelve rows. -/
theorem answerable_iff (m : Modal) (haccepts : m.accepts) (hq : q.Posed) (target : WindowId)
    (focus : Bool) {cols rows : Nat} (hcols : 40 ≤ cols) (hrows : 12 ≤ rows) :
    Answerable (({ q.ask m target with confirm := focus } : Modal).layout cols rows) cols rows ↔
      ¬ (rows = 12 ∧ q.Longest) := by
  obtain ⟨hle, hten⟩ := hq.lines
  obtain ⟨hcancel, hconfirm⟩ := hq.printable
  have hask : q.ask m target =
      { m with isOpen := true, style := .question, cancelLabel := q.cancelLabel
               confirmLabel := q.confirmLabel, question := q.body, target := target
               confirm := false, percent := -1 } := if_neg ((Modal.accepts_iff m).1 haccepts)
  rw [hask]
  refine (Modal.answerable_asked_iff rfl rfl hcancel hconfirm (by omega)).trans ?_
  rw [← hten]
  simp only
  omega

theorem answerable_iff_close :
    Answerable (({ (close (text "Fermer ?")).ask {} 3 with confirm := true } : Modal).layout 40 12)
      40 12 :=
  (answerable_iff {} rfl (q := close (text "Fermer ?")) (show 0x0A ∉ text "Fermer ?" by decide +kernel)
    3 true (show 40 ≤ 40 by decide) (show 12 ≤ 12 by decide)).2 fun h => h.2

end Question

/-! ### What the session puts -/

namespace Session

variable {s : Session}

/-- The state file of an update that is newer than the one just installed. -/
def crowdedFile : Bytes :=
  text ("schema=1\nstatus=available\nrestart_pending=1\ninstalled_version=1.12\nremote_version=1.13\n" ++
    "note_1=a\nnote_2=b\nnote_3=c\nnote_4=d\nnote_5=e\nnote_6=f\n")

def crowdedState : UpdateState :=
  { status := .available
    restartPending := true
    installedVersion := text "1.12"
    remoteVersion := text "1.13"
    notes := [text "a", text "b", text "c", text "d", text "e", text "f"] }

theorem crowdedFile_read : (parseUpdateState crowdedFile 0).toUpdateState = crowdedState := by
  decide +kernel

def crowdedReading : Reading := { state := crowdedState }

/-- An installation that was asked for is under way. -/
def crowdedSession : Session :=
  { modal := { isOpen := true, style := .progress }
    modalKind := .applyRunning
    update := { child := some 7, childIsManual := true } }

/-- What is asked at its end has both its buttons under the last row of the screen. -/
theorem restart_unanswerable :
    (∃ q : Question, q.Posed ∧
      (crowdedSession.onChildExit 7 false crowdedReading).modal = q.ask crowdedSession.modal 0) ∧
    ¬ Answerable ((crowdedSession.onChildExit 7 false crowdedReading).modal.layout 80 12) 80 12 := by
  constructor
  · refine ⟨.restart (crowdedSession.onChildExit 7 false crowdedReading)
      (crowdedSession.onChildExit 7 false crowdedReading).update.reportText, ⟨?_, .inl rfl⟩, ?_⟩
    · exact ⟨{ child := none }, crowdedReading, crowdedFile, 0, crowdedFile_read.symm, by decide +kernel,
        .inl (by decide +kernel)⟩
    · decide +kernel
  · have hlines : ¬ (Modal.bodyLines
        (crowdedSession.onChildExit 7 false crowdedReading).modal.question).length + 3 ≤ 12 := by
      decide +kernel
    exact fun h => hlines ((Modal.answerable_asked_iff (by decide +kernel) (by decide +kernel)
      (by decide +kernel) (by decide +kernel) (by decide)).1 h)

end Session

end Sshos.Daemon
