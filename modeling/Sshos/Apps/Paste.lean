import Sshos.Input.Framing
import Sshos.Lib.Run
import Sshos.Vt.Modes
import Sshos.Vt.Scrollback

/-!
# Sshos.Apps.Paste

**Pastes on their way to a guest**: through the session, which drops them behind a dialog
or a menu, and the terminal window, which puts them between brackets when the guest asks
for it.

A long paste comes in fragments. Whether one is under way, and whether it is bracketed,
is one flag each for the whole window, while its fragments may be dropped, diverted to
the field of a renaming, refused by a dead shell, or land on another tab.
-/

namespace Sshos.Apps

open Sshos.Common (encodeUtf8)
open Sshos.Input (KeyEvent kPasteStart kPasteEnd)
open Sshos.Lib (Bytes run StepsMeet)
open Sshos.Vt (Modes Params Scrollback applyDecPrivate)

/-! ### The terminal window -/

/-- What a paste may hold: text, tabulations and ends of lines. -/
def cleanPaste (text : Bytes) : Bytes :=
  text.filter fun u => u != 0x7f && (u ≥ 0x20 || u == 0x09 || u == 0x0a || u == 0x0d)

/-- The same in one line. -/
def cleanPasteOneLine (text : Bytes) : Bytes :=
  (cleanPaste text).filter fun c => !(c == 0x0a || c == 0x0d || c == 0x09)

inductive EditMode
  | normal | renaming | editingPath
  deriving DecidableEq

def kMaxName : Nat := 64

def kMaxPath : Nat := 512

def kDefaultScrollbackLines : Nat := 10000

/-- A tab, as far as pastes are concerned. -/
structure PasteTab where
  exited : Bool := false
  modes : Modes := {}
  history : Scrollback := .create kDefaultScrollbackLines
  customTitle : Bytes := []
  /-- Everything handed to the guest. -/
  written : Bytes := []

/-- The window. A tab is told by its number, the order in which it was opened, and stays
known after it is closed. -/
structure PasteTerminal where
  opened : List PasteTab := [{}]
  tabs : List Nat := [0]
  active : Nat := 0
  mode : EditMode := .normal
  edit : Bytes := []
  pasting : Bool := false
  pasteBracketed : Bool := false

namespace PasteTerminal

variable (t : PasteTerminal)

/-- The number of the tab that is looked at. -/
def activeTab : Nat := t.tabs.getD t.active 0

/-- The tab that is looked at. -/
def tab : PasteTab := t.opened.getD t.activeTab {}

def update (n : Nat) (f : PasteTab → PasteTab) : PasteTerminal :=
  { t with opened := t.opened.modify n f }

def toGuest (bytes : Bytes) : PasteTerminal :=
  t.update t.activeTab fun tab => { tab with written := tab.written ++ bytes }

/-- The longest text the field takes. -/
def fieldRoom : Nat := if t.mode = .renaming then kMaxName else kMaxPath

/-- The view of the tab comes back to the present. -/
def toPresent : PasteTerminal :=
  t.update t.activeTab fun tab => { tab with history := tab.history.scrollToBottom }

/-- The first fragment decides, for all of them, whether they stand between brackets. -/
def beginPaste : PasteTerminal :=
  if t.pasting then t
  else
    let t := { t with pasteBracketed := t.tab.modes.bracketedPaste }
    if t.pasteBracketed then t.toGuest kPasteStart else t

def deliver (text : Bytes) (complete : Bool) : PasteTerminal :=
  let t := { t with pasting := !complete }
  let t := t.toGuest (cleanPaste text)
  if complete && t.pasteBracketed then t.toGuest kPasteEnd else t

def onPaste (text : Bytes) (complete : Bool) : PasteTerminal :=
  if t.mode ≠ .normal then
    -- The field takes it, not the guest.
    if t.edit.length < t.fieldRoom then
      { t with edit := t.edit ++ (cleanPasteOneLine text).take (t.fieldRoom - t.edit.length) }
    else t
  else if t.tab.exited then t
  else t.toPresent.beginPaste.deliver text complete

/-! Tabs -/

def openTab (spawned : Bool) : PasteTerminal :=
  if spawned then
    { t with
      opened := t.opened ++ [{}]
      tabs   := t.tabs ++ [t.opened.length]
      active := t.tabs.length }
  else t

def selectTab (i : Nat) : PasteTerminal := if i ≥ t.tabs.length then t else { t with active := i }

def cycleTab (d : Int) : PasteTerminal :=
  let n : Int := t.tabs.length
  t.selectTab (((t.active + d).tmod n + n).tmod n).toNat

/-- The last tab only asks for the window to be closed. -/
def closeTab (i : Nat) : PasteTerminal :=
  if i ≥ t.tabs.length then t
  else if t.tabs.length = 1 then t
  else
    let tabs := t.tabs.eraseIdx i
    { t with tabs := tabs, active := if t.active ≥ tabs.length then tabs.length - 1 else t.active }

/-! Fields -/

def beginRename : PasteTerminal := { t with mode := .renaming, edit := t.tab.customTitle }

def commitRename : PasteTerminal :=
  if t.mode ≠ .renaming then t
  else
    { t.update t.activeTab (fun tab => { tab with customTitle := t.edit }) with
      mode := .normal, edit := [] }

def beginPathEdit (startDir : Bytes) : PasteTerminal :=
  { t with mode := .editingPath, edit := startDir }

def commitPathEdit : PasteTerminal :=
  if t.mode ≠ .editingPath then t else { t with mode := .normal, edit := [] }

/-- The text without its last character, of which no byte stays. -/
def popChar (edit : Bytes) : Bytes :=
  (edit.reverse.dropWhile fun b => b &&& 0xc0 == 0x80).tail.reverse

/-- A key while a field is open. -/
def fieldKey (k : KeyEvent) : PasteTerminal :=
  match k.key with
  | .enter => t.commitRename.commitPathEdit
  | .escape => { t with mode := .normal, edit := [] }
  | .backspace => { t with edit := popChar t.edit }
  | .char => if t.edit.length < t.fieldRoom then { t with edit := t.edit ++ encodeUtf8 k.ch } else t
  | _ => t

/-- What a click on the bar falls on. -/
inductive Slot
  | select (i : Nat)
  | close (i : Nat)
  | new (spawned : Bool)
  | settings (startDir : Bytes)

def barClick : Slot → PasteTerminal
  | .select i => if i = t.active then t.beginRename else t.selectTab i
  | .close i => t.closeTab i
  | .new spawned => t.openTab spawned
  | .settings startDir => t.beginPathEdit startDir

/-- Wherever it falls, a click first ends what is typed. -/
def click (slot : Slot) : PasteTerminal := t.commitRename.commitPathEdit.barClick slot

end PasteTerminal

/-! ### The session -/

structure PasteSession where
  terminal : PasteTerminal := {}
  modalOpen : Bool := false
  menuOpen : Bool := false
  /-- The terminal's window is the one that is typed in. -/
  focused : Bool := true

inductive PasteEvent
  | paste (text : Bytes) (complete : Bool)
  /-- A guest sets or resets private modes. -/
  | guestModes (n : Nat) (params : Params) (on : Bool)
  | shellExit (n : Nat)
  /-- The gestures of the keyboard, and a key while a field is open. -/
  | openTab (spawned : Bool)
  | closeActive
  | cycleTab (d : Int)
  | beginRename
  | fieldKey (k : KeyEvent)
  | click (slot : PasteTerminal.Slot)
  | modal (isOpen : Bool)
  | menu (isOpen : Bool)
  | focus (on : Bool)

namespace PasteSession

/-- Nothing is pasted behind a dialog or a menu, nor in a window that is not typed in. -/
def onPaste (s : PasteSession) (text : Bytes) (complete : Bool) : PasteSession :=
  if s.modalOpen || s.menuOpen then s
  else if !s.focused then s
  else { s with terminal := s.terminal.onPaste text complete }

/-- The gestures of the keyboard belong to the field while one is open. -/
def gesture (s : PasteSession) (f : PasteTerminal → PasteTerminal) : PasteSession :=
  if s.terminal.mode = .normal then { s with terminal := f s.terminal } else s

def step (s : PasteSession) : PasteEvent → PasteSession
  | .paste text complete => s.onPaste text complete
  | .guestModes n params on =>
      { s with terminal := s.terminal.update n fun tab =>
          { tab with modes := applyDecPrivate params on tab.modes } }
  | .shellExit n => { s with terminal := s.terminal.update n fun tab => { tab with exited := true } }
  | .openTab spawned => s.gesture (·.openTab spawned)
  | .closeActive => s.gesture fun t => t.closeTab t.active
  | .cycleTab d => s.gesture (·.cycleTab d)
  | .beginRename => s.gesture (·.beginRename)
  | .fieldKey k =>
      if s.terminal.mode = .normal then s else { s with terminal := s.terminal.fieldKey k }
  | .click slot => { s with terminal := s.terminal.click slot }
  | .modal isOpen => { s with modalOpen := isOpen }
  | .menu isOpen => { s with menuOpen := isOpen }
  | .focus on => { s with focused := on }

end PasteSession

/-! ### Brackets in a stream of bytes -/

/-- Whether a bracket is open after the bytes, or none when they do not alternate or an
escape stands between two. The first argument counts the bytes of a marker that are
still to be passed over. -/
def bracketScan : Nat → Bool → Bytes → Option Bool
  | _, isOpen, [] => some isOpen
  | skip + 1, isOpen, _ :: rest => bracketScan skip isOpen rest
  | 0, isOpen, b :: rest =>
      if kPasteStart.isPrefixOf (b :: rest) then
        if isOpen then none else bracketScan 5 true rest
      else if kPasteEnd.isPrefixOf (b :: rest) then
        if isOpen then bracketScan 5 false rest else none
      else if b = 0x1b ∧ isOpen then none
      else bracketScan 0 isOpen rest

/-- The markers alternate, an opening one first, with no escape between two. -/
def Bracketed (bytes : Bytes) : Prop := (bracketScan 0 false bytes).isSome

instance (bytes : Bytes) : Decidable (Bracketed bytes) :=
  inferInstanceAs (Decidable ((bracketScan 0 false bytes).isSome = true))

/-- The bytes leave the brackets so, whatever comes next. -/
def ScansTo (bytes : Bytes) (isOpen : Bool) : Prop :=
  ∀ more, bracketScan 0 false (bytes ++ more) = bracketScan 0 isOpen more

/-- They are out of order, whatever comes next. -/
def Broken (bytes : Bytes) : Prop := ∀ more, bracketScan 0 false (bytes ++ more) = none

section Scanning

variable {bytes : Bytes} {isOpen : Bool}

theorem ScansTo.bracketed (h : ScansTo bytes isOpen) : Bracketed bytes := by
  have hend := h []
  rw [List.append_nil] at hend
  unfold Bracketed
  rw [hend]
  rfl

theorem Broken.append (h : Broken bytes) (more : Bytes) : Broken (bytes ++ more) := by
  intro rest
  rw [List.append_assoc]
  exact h _

theorem ScansTo.start (h : ScansTo bytes false) : ScansTo (bytes ++ kPasteStart) true := by
  intro more
  rw [List.append_assoc, h]
  rfl

theorem ScansTo.stop (h : ScansTo bytes true) : ScansTo (bytes ++ kPasteEnd) false := by
  intro more
  rw [List.append_assoc, h]
  rfl

theorem ScansTo.stop_broken (h : ScansTo bytes false) : Broken (bytes ++ kPasteEnd) := by
  intro more
  rw [List.append_assoc, h]
  rfl

/-- Text without an escape changes nothing. -/
theorem ScansTo.text (h : ScansTo bytes isOpen) {text : Bytes} (htext : 0x1b ∉ text) :
    ScansTo (bytes ++ text) isOpen := by
  intro more
  rw [List.append_assoc, h]
  clear h
  induction text with
  | nil => rfl
  | cons b text ih =>
      have hb : b ≠ 0x1b := fun heq => htext (heq ▸ List.mem_cons_self)
      have hstart : kPasteStart.isPrefixOf (b :: (text ++ more)) = false := by
        simp [kPasteStart, List.isPrefixOf, Ne.symm hb]
      have hstop : kPasteEnd.isPrefixOf (b :: (text ++ more)) = false := by
        simp [kPasteEnd, List.isPrefixOf, Ne.symm hb]
      rw [List.cons_append, bracketScan, hstart, hstop]
      simp only [Bool.false_eq_true, if_false, hb, false_and]
      exact ih fun hmem => htext (List.mem_cons_of_mem b hmem)

end Scanning

theorem cleanPaste_no_escape (text : Bytes) : 0x1b ∉ cleanPaste text := by
  intro hmem
  have hkept := (List.mem_filter.1 hmem).2
  revert hkept
  decide

/-! ### What each guest is handed -/

namespace PasteTerminal

variable {t : PasteTerminal}

/-- The bytes written to the guest of a tab. -/
def bytesTo (t : PasteTerminal) (n : Nat) : Bytes := (t.opened.getD n {}).written

/-- The tab that is looked at is one that was opened. -/
structure Valid (t : PasteTerminal) : Prop where
  active : t.active < t.tabs.length
  known : ∀ n ∈ t.tabs, n < t.opened.length

theorem Valid.activeTab (h : t.Valid) : t.activeTab < t.opened.length := by
  unfold PasteTerminal.activeTab
  rw [List.getD_eq_getElem?_getD, List.getElem?_eq_getElem h.active]
  exact h.known _ (List.getElem_mem h.active)

theorem Valid.update (h : t.Valid) (n : Nat) (f : PasteTab → PasteTab) : (t.update n f).Valid :=
  ⟨h.active, fun m hm => by simpa [PasteTerminal.update] using h.known m hm⟩

theorem Valid.toGuest (h : t.Valid) (bytes : Bytes) : (t.toGuest bytes).Valid := h.update _ _

/-- Looking at the present changes neither the modes of the tab nor its shell. -/
theorem tab_update_active (h : t.Valid) (f : PasteTab → PasteTab) :
    (t.update t.activeTab f).tab = f t.tab := by
  have hactive := h.activeTab
  show ((t.opened.modify t.activeTab f).getD t.activeTab {}) = f (t.opened.getD t.activeTab {})
  rw [List.getD_eq_getElem?_getD, List.getD_eq_getElem?_getD, List.getElem?_modify,
    List.getElem?_eq_getElem hactive]
  simp

theorem bytesTo_update (t : PasteTerminal) (n : Nat) {f : PasteTab → PasteTab}
    (hf : ∀ tab, (f tab).written = tab.written) (i : Nat) :
    (t.update n f).bytesTo i = t.bytesTo i := by
  unfold bytesTo update
  simp only [List.getD_eq_getElem?_getD, List.getElem?_modify]
  cases t.opened[i]? with
  | none => rfl
  | some tab =>
      by_cases hn : n = i
      · simp [hn, hf]
      · simp [hn]

theorem bytesTo_toGuest (h : t.Valid) (bytes : Bytes) (i : Nat) :
    (t.toGuest bytes).bytesTo i = t.bytesTo i ++ if i = t.activeTab then bytes else [] := by
  unfold bytesTo toGuest update
  simp only [List.getD_eq_getElem?_getD, List.getElem?_modify]
  by_cases hi : i = t.activeTab
  · rw [if_pos hi, hi, List.getElem?_eq_getElem h.activeTab]
    simp
  · rw [if_neg hi, List.append_nil]
    cases t.opened[i]? with
    | none => rfl
    | some tab => simp [Ne.symm hi]

/-- A paste gets to the guest. -/
def takesPaste (t : PasteTerminal) : Bool := t.mode = .normal && !t.tab.exited

/-- The brackets of a fragment: what was decided at the opening. -/
def bracketing (t : PasteTerminal) : Bool :=
  if t.pasting then t.pasteBracketed else t.tab.modes.bracketedPaste

/-- What a fragment becomes. -/
def fragmentBytes (t : PasteTerminal) (text : Bytes) (complete : Bool) : Bytes :=
  (if !t.pasting && t.bracketing then kPasteStart else []) ++ cleanPaste text ++
    (if complete && t.bracketing then kPasteEnd else [])

theorem beginPaste_spec (h : t.Valid) :
    (∀ i, t.beginPaste.bytesTo i =
      t.bytesTo i ++
        if i = t.activeTab then (if !t.pasting && t.bracketing then kPasteStart else []) else []) ∧
    t.beginPaste.pasteBracketed = t.bracketing ∧ t.beginPaste.activeTab = t.activeTab ∧
    t.beginPaste.Valid := by
  unfold beginPaste bracketing
  cases hpasting : t.pasting with
  | true => exact ⟨fun i => by simp, rfl, rfl, h⟩
  | false =>
      have hvalid : Valid { t with pasteBracketed := t.tab.modes.bracketedPaste } := ⟨h.active, h.known⟩
      cases hmode : t.tab.modes.bracketedPaste with
      | false =>
          rw [hmode, hpasting] at hvalid
          exact ⟨fun i => by simp [bytesTo], rfl, rfl, hvalid⟩
      | true =>
          rw [hmode, hpasting] at hvalid
          exact ⟨bytesTo_toGuest hvalid kPasteStart, rfl, rfl, hvalid.toGuest kPasteStart⟩

theorem deliver_spec (h : t.Valid) (text : Bytes) (complete : Bool) :
    (∀ i, (t.deliver text complete).bytesTo i =
      t.bytesTo i ++ if i = t.activeTab then
        cleanPaste text ++ (if complete && t.pasteBracketed then kPasteEnd else []) else []) ∧
    (t.deliver text complete).pasting = !complete ∧
    (t.deliver text complete).pasteBracketed = t.pasteBracketed ∧ (t.deliver text complete).Valid := by
  have hvalid : Valid { t with pasting := !complete } := ⟨h.active, h.known⟩
  have htext := bytesTo_toGuest hvalid (cleanPaste text)
  unfold deliver
  simp only
  by_cases hlast : (complete && t.pasteBracketed) = true
  · have hend := bytesTo_toGuest (hvalid.toGuest (cleanPaste text)) kPasteEnd
    rw [if_pos (by exact hlast), if_pos hlast]
    refine ⟨fun i => ?_, rfl, rfl, (hvalid.toGuest _).toGuest _⟩
    rw [hend, htext]
    show t.bytesTo i ++ (if i = t.activeTab then cleanPaste text else []) ++
      (if i = t.activeTab then kPasteEnd else []) = _
    split <;> simp
  · rw [if_neg (by exact hlast), if_neg hlast]
    refine ⟨fun i => ?_, rfl, rfl, hvalid.toGuest _⟩
    rw [htext, List.append_nil]
    rfl

/-- A fragment that gets to the guest. -/
theorem onPaste_taken (h : t.Valid) (htakes : t.takesPaste = true) (text : Bytes) (complete : Bool) :
    (∀ i, (t.onPaste text complete).bytesTo i =
      t.bytesTo i ++ if i = t.activeTab then t.fragmentBytes text complete else []) ∧
    (t.onPaste text complete).pasting = !complete ∧
    (t.onPaste text complete).pasteBracketed = t.bracketing ∧
    (t.onPaste text complete).Valid := by
  simp only [takesPaste, Bool.and_eq_true, decide_eq_true_eq, Bool.not_eq_true'] at htakes
  have honPaste : t.onPaste text complete = t.toPresent.beginPaste.deliver text complete := by
    unfold onPaste
    rw [if_neg (by simp [htakes.1]), if_neg (by simp [htakes.2])]
  have hpresent : t.toPresent.Valid := h.update _ _
  have hsame : ∀ i, t.toPresent.bytesTo i = t.bytesTo i := bytesTo_update t _ fun _ => rfl
  have hbracketing : t.toPresent.bracketing = t.bracketing := by
    unfold bracketing
    rw [show t.toPresent.tab.modes = t.tab.modes by rw [toPresent, tab_update_active h]]
    rfl
  obtain ⟨hbegin, hbracketed, hactive, hvalid⟩ := beginPaste_spec hpresent
  obtain ⟨hbytes, hpasting, hbracketed', hvalid'⟩ := deliver_spec hvalid text complete
  rw [honPaste]
  refine ⟨fun i => ?_, hpasting, by rw [hbracketed', hbracketed, hbracketing], hvalid'⟩
  rw [hbytes, hbegin, hsame, hactive, hbracketed, hbracketing]
  show t.bytesTo i ++ (if i = t.activeTab then (if !t.pasting && t.bracketing then kPasteStart else [])
    else []) ++ (if i = t.activeTab then _ else []) = _
  unfold fragmentBytes
  split <;> simp

/-- One that does not changes at most the field. -/
theorem onPaste_refused (htakes : t.takesPaste = false) (text : Bytes) (complete : Bool) :
    ∃ edit, t.onPaste text complete = { t with edit := edit } := by
  unfold onPaste
  by_cases hmode : t.mode ≠ .normal
  · rw [if_pos hmode]
    split
    · exact ⟨_, rfl⟩
    · exact ⟨t.edit, rfl⟩
  · rw [if_neg hmode]
    have hexited : t.tab.exited = true := by
      simpa [takesPaste, not_not.1 hmode] using htakes
    rw [if_pos hexited]
    exact ⟨t.edit, rfl⟩

/-! ### Gestures -/

/-- Nothing is written, and the paste under way is what it was. -/
structure Quiet (t t' : PasteTerminal) : Prop where
  bytes : ∀ i, t'.bytesTo i = t.bytesTo i
  pasting : t'.pasting = t.pasting
  bracketed : t'.pasteBracketed = t.pasteBracketed
  valid : t.Valid → t'.Valid

theorem Quiet.refl (t : PasteTerminal) : Quiet t t := ⟨fun _ => rfl, rfl, rfl, id⟩

theorem Quiet.trans {t t' t'' : PasteTerminal} (h : Quiet t t') (h' : Quiet t' t'') : Quiet t t'' :=
  ⟨fun i => (h'.bytes i).trans (h.bytes i), h'.pasting.trans h.pasting,
    h'.bracketed.trans h.bracketed, fun hv => h'.valid (h.valid hv)⟩

theorem Quiet.update (t : PasteTerminal) (n : Nat) {f : PasteTab → PasteTab}
    (hf : ∀ tab, (f tab).written = tab.written) : Quiet t (t.update n f) :=
  ⟨bytesTo_update t n hf, rfl, rfl, fun h => h.update n f⟩

/-- A field is opened, edited or closed. -/
theorem Quiet.field (t : PasteTerminal) (mode : EditMode) (edit : Bytes) :
    Quiet t { t with mode := mode, edit := edit } :=
  ⟨fun _ => rfl, rfl, rfl, fun h => ⟨h.active, h.known⟩⟩

theorem Quiet.openTab (t : PasteTerminal) (spawned : Bool) : Quiet t (t.openTab spawned) := by
  unfold PasteTerminal.openTab
  split
  · refine ⟨fun i => ?_, rfl, rfl, fun h => ⟨by simp, fun n hn => ?_⟩⟩
    · simp only [bytesTo, List.getD_eq_getElem?_getD, List.getElem?_append]
      split
      · rfl
      · rename_i hi
        rw [List.getElem?_singleton, List.getElem?_eq_none (Nat.le_of_not_lt hi)]
        split <;> rfl
    · simp only [List.mem_append, List.mem_singleton, List.length_append, List.length_singleton] at hn ⊢
      obtain hold | rfl := hn
      · have := h.known n hold
        omega
      · omega
  · exact .refl t

theorem Quiet.selectTab (t : PasteTerminal) (i : Nat) : Quiet t (t.selectTab i) := by
  unfold PasteTerminal.selectTab
  split
  · exact .refl t
  · rename_i hi
    exact ⟨fun _ => rfl, rfl, rfl, fun h => ⟨by simp only; omega, h.known⟩⟩

theorem Quiet.closeTab (t : PasteTerminal) (i : Nat) : Quiet t (t.closeTab i) := by
  unfold PasteTerminal.closeTab
  split
  · exact .refl t
  split
  · exact .refl t
  · rename_i hi hone
    have hlen : (t.tabs.eraseIdx i).length = t.tabs.length - 1 := List.length_eraseIdx_of_lt (by omega)
    refine ⟨fun _ => rfl, rfl, rfl, fun h => ⟨?_, fun n hn => h.known n (List.mem_of_mem_eraseIdx hn)⟩⟩
    simp only
    split <;> omega

theorem Quiet.commit (t : PasteTerminal) : Quiet t t.commitRename.commitPathEdit := by
  have hrename : Quiet t t.commitRename := by
    unfold commitRename
    split
    · exact .refl t
    · exact (Quiet.update t t.activeTab (f := fun tab => { tab with customTitle := t.edit })
        fun _ => rfl).trans (.field _ _ _)
  refine hrename.trans ?_
  unfold commitPathEdit
  split
  · exact .refl _
  · exact .field _ _ _

theorem Quiet.click (t : PasteTerminal) (slot : Slot) : Quiet t (t.click slot) := by
  refine (Quiet.commit t).trans ?_
  unfold PasteTerminal.click
  cases slot with
  | select i =>
      unfold barClick
      simp only
      split
      · exact .field _ _ _
      · exact .selectTab _ i
  | close i => exact .closeTab _ i
  | new spawned => exact .openTab _ spawned
  | settings startDir => exact .field _ _ _

theorem Quiet.fieldKey (t : PasteTerminal) (k : KeyEvent) : Quiet t (t.fieldKey k) := by
  unfold PasteTerminal.fieldKey
  split
  · exact .commit t
  · exact .field _ _ _
  · exact .field _ _ _
  · split
    · exact .field _ _ _
    · exact .refl t
  · exact .refl t

end PasteTerminal

/-- What the first fragment of a paste leaves. -/
theorem ScansTo.first {t : PasteTerminal} {bytes : Bytes} (h : ScansTo bytes false)
    (hpasting : t.pasting = false) (text : Bytes) (complete : Bool) :
    ScansTo (bytes ++ t.fragmentBytes text complete) (!complete && t.bracketing) := by
  have hclean := cleanPaste_no_escape text
  unfold PasteTerminal.fragmentBytes
  cases hb : t.bracketing with
  | false => simpa [hpasting] using h.text hclean
  | true =>
      have hopen := h.start.text hclean
      cases complete with
      | false => simpa [hpasting] using hopen
      | true => simpa [hpasting] using hopen.stop

/-- What a later one leaves, unless it is the last and closes brackets. -/
theorem ScansTo.next {t : PasteTerminal} {bytes : Bytes} {isOpen : Bool} (h : ScansTo bytes isOpen)
    (hpasting : t.pasting = true) (text : Bytes) {complete : Bool}
    (hlast : (complete && t.pasteBracketed) = false) :
    ScansTo (bytes ++ t.fragmentBytes text complete) isOpen := by
  have hbracketing : t.bracketing = t.pasteBracketed := if_pos hpasting
  unfold PasteTerminal.fragmentBytes
  rw [hbracketing, hlast]
  simpa [hpasting] using h.text (cleanPaste_no_escape text)

theorem PasteTerminal.fragmentBytes_last {t : PasteTerminal} (hpasting : t.pasting = true)
    (hbracketed : t.pasteBracketed = true) (text : Bytes) :
    t.fragmentBytes text true = cleanPaste text ++ kPasteEnd := by
  have hbracketing : t.bracketing = t.pasteBracketed := if_pos hpasting
  simp [PasteTerminal.fragmentBytes, hbracketing, hbracketed, hpasting]

/-- A later fragment starts with text, or with the end of its paste. -/
theorem PasteTerminal.fragmentBytes_not_start {t : PasteTerminal} (hpasting : t.pasting = true)
    (text : Bytes) (complete : Bool) : ¬ kPasteStart <+: t.fragmentBytes text complete := by
  have hclean := cleanPaste_no_escape text
  unfold PasteTerminal.fragmentBytes
  simp only [hpasting, Bool.not_true, Bool.false_and, Bool.false_eq_true, if_false, List.nil_append]
  cases htext : cleanPaste text with
  | nil => split <;> decide
  | cons b rest =>
      rw [htext] at hclean
      intro hstarts
      obtain ⟨hb, -⟩ := List.cons_prefix_cons.1 hstarts
      exact hclean (hb ▸ List.mem_cons_self)

/-- Of all the events, only a paste writes to a guest. -/
theorem PasteSession.step_quiet (s : PasteSession) {e : PasteEvent}
    (he : ∀ text complete, e ≠ .paste text complete) :
    s.terminal.Quiet (s.step e).terminal := by
  have hgesture : ∀ {f : PasteTerminal → PasteTerminal}, s.terminal.Quiet (f s.terminal) →
      s.terminal.Quiet (s.gesture f).terminal := by
    intro f hf
    unfold gesture
    split
    · exact hf
    · exact .refl _
  cases e with
  | paste text complete => exact absurd rfl (he text complete)
  | guestModes n params on => exact .update _ n fun _ => rfl
  | shellExit n => exact .update _ n fun _ => rfl
  | openTab spawned => exact hgesture (.openTab _ spawned)
  | closeActive => exact hgesture (.closeTab _ _)
  | cycleTab d => exact hgesture (.selectTab _ _)
  | beginRename => exact hgesture (.field _ _ _)
  | fieldKey k =>
      simp only [step]
      split
      · exact .refl _
      · exact .fieldKey _ k
  | click slot => exact .click _ slot
  | modal isOpen => exact .refl _
  | menu isOpen => exact .refl _
  | focus on => exact .refl _

/-! ### Runs -/

/-- A session, watched: whether a fragment of the present paste has got to a guest, on which
tab the paste under way began, and whether each paste that began on a tab that asks for
brackets was opened there. A paste begins with the first of its fragments that gets to a
guest: those before it fell behind a dialog or in a field. -/
structure PasteRun where
  session : PasteSession := {}
  begun : Bool := false
  startedOn : Nat := 0
  opened : Bool := true

namespace PasteRun

/-- A paste gets to a guest. -/
def reaches (s : PasteSession) : Bool :=
  !(s.modalOpen || s.menuOpen) && s.focused && s.terminal.takesPaste

def step (r : PasteRun) (e : PasteEvent) : PasteRun :=
  match e with
  | .paste _ complete =>
      let t := r.session.terminal
      let next := (r.session.step e).terminal
      let begins := reaches r.session && !r.begun && t.tab.modes.bracketedPaste
      { session   := r.session.step e
        begun     := !complete && (r.begun || reaches r.session)
        startedOn := if reaches r.session && !t.pasting then t.activeTab else r.startedOn
        opened    := r.opened &&
          (!begins || (t.bytesTo t.activeTab ++ kPasteStart).isPrefixOf (next.bytesTo t.activeTab)) }
  | e => { r with session := r.session.step e }

/-- A fragment that gets to a guest finds the window's flags as they should be: no other
paste is under way when one begins there, and the last fragment of one between brackets is
on the tab where it began. -/
def Undisturbed (r : PasteRun) : PasteEvent → Prop
  | .paste _ complete =>
      reaches r.session = true →
        (r.begun = false → r.session.terminal.tab.modes.bracketedPaste = true →
          r.session.terminal.pasting = false) ∧
        (complete = true → r.session.terminal.pasting = true →
          r.session.terminal.pasteBracketed = true → r.session.terminal.activeTab = r.startedOn)
  | _ => True

/-! ### What the watch sees -/

variable {r : PasteRun}

/-- Whether the brackets of a guest are open. -/
def isOpen (r : PasteRun) (n : Nat) : Bool :=
  r.session.terminal.pasting && r.session.terminal.pasteBracketed && decide (n = r.startedOn)

/-- What each guest was handed agrees with the flags. -/
structure Consistent (r : PasteRun) : Prop where
  scans : ∀ n, ScansTo (r.session.terminal.bytesTo n) (r.isOpen n)
  opened : r.opened = true

/-- Something is wrong for good. -/
def Spoiled (r : PasteRun) : Prop :=
  (∃ n, Broken (r.session.terminal.bytesTo n)) ∨ r.opened = false

theorem reaches_spec {s : PasteSession} (h : reaches s = true) (text : Bytes) (complete : Bool) :
    s.terminal.takesPaste = true ∧
      (s.step (.paste text complete)).terminal = s.terminal.onPaste text complete := by
  simp only [reaches, Bool.and_eq_true, Bool.not_eq_true', Bool.or_eq_false_iff] at h
  obtain ⟨⟨⟨hmodal, hmenu⟩, hfocused⟩, htakes⟩ := h
  refine ⟨htakes, ?_⟩
  simp [PasteSession.step, PasteSession.onPaste, hmodal, hmenu, hfocused]

/-- A paste that gets to no guest. -/
theorem quiet_of_unreached {s : PasteSession} (h : reaches s = false) (text : Bytes) (complete : Bool) :
    s.terminal.Quiet (s.step (.paste text complete)).terminal := by
  simp only [PasteSession.step, PasteSession.onPaste]
  split
  · exact .refl _
  split
  · exact .refl _
  · rename_i hblocked hfocused
    have htakes : s.terminal.takesPaste = false := by
      simp only [Bool.not_eq_true, Bool.not_eq_false'] at hblocked hfocused
      simpa [reaches, hblocked, hfocused] using h
    obtain ⟨edit, heq⟩ := PasteTerminal.onPaste_refused htakes text complete
    simp only [heq]
    exact .field _ s.terminal.mode edit

/-- Where nothing is written, what held still holds. -/
theorem Consistent.of_quiet {r' : PasteRun} (h : Consistent r)
    (hq : r.session.terminal.Quiet r'.session.terminal) (hstarted : r'.startedOn = r.startedOn)
    (hopened : r'.opened = r.opened) : Consistent r' := by
  refine ⟨fun n => ?_, hopened.trans h.opened⟩
  have hsame : r'.isOpen n = r.isOpen n := by
    unfold isOpen
    rw [hq.pasting, hq.bracketed, hstarted]
  rw [hq.bytes, hsame]
  exact h.scans n

/-- A fragment that gets to a guest, told apart from the others. -/
theorem step_reached (hvalid : r.session.terminal.Valid) (hreaches : reaches r.session = true)
    (text : Bytes) (complete : Bool) :
    (∀ n, (r.step (.paste text complete)).session.terminal.bytesTo n =
      r.session.terminal.bytesTo n ++ if n = r.session.terminal.activeTab then
        r.session.terminal.fragmentBytes text complete else []) ∧
    (∀ n, (r.step (.paste text complete)).isOpen n =
      (!complete && r.session.terminal.bracketing && decide (n =
        if r.session.terminal.pasting then r.startedOn else r.session.terminal.activeTab))) ∧
    ((r.step (.paste text complete)).opened = true ↔ r.opened = true ∧
      (r.begun = false → r.session.terminal.tab.modes.bracketedPaste = true →
        kPasteStart <+: r.session.terminal.fragmentBytes text complete)) := by
  obtain ⟨htakes, hterminal⟩ := reaches_spec hreaches text complete
  obtain ⟨hbytes, hpasting, hbracketed, -⟩ := PasteTerminal.onPaste_taken hvalid htakes text complete
  rw [← hterminal] at hbytes hpasting hbracketed
  refine ⟨hbytes, fun n => ?_, ?_⟩
  · have hstarted : (r.step (.paste text complete)).startedOn =
        if r.session.terminal.pasting then r.startedOn else r.session.terminal.activeTab := by
      simp only [step, hreaches]
      cases r.session.terminal.pasting <;> rfl
    have hsession :
        (r.step (.paste text complete)).session = r.session.step (.paste text complete) := rfl
    unfold isOpen
    rw [hstarted, hsession, hpasting, hbracketed]
  · have happended := hbytes r.session.terminal.activeTab
    rw [if_pos rfl] at happended
    simp only [step, hreaches, happended, Bool.true_and, Bool.and_eq_true, Bool.or_eq_true,
      Bool.not_eq_true', Bool.and_eq_false_iff, Bool.not_eq_false', List.isPrefixOf_iff_prefix,
      List.prefix_append_right_inj]
    cases r.begun <;> cases r.session.terminal.tab.modes.bracketedPaste <;> simp

/-- **An undisturbed fragment** keeps the flags in step with the guests. -/
theorem Consistent.paste (h : Consistent r) (hvalid : r.session.terminal.Valid)
    (hreaches : reaches r.session = true) {text : Bytes} {complete : Bool}
    (hok : r.Undisturbed (.paste text complete)) : Consistent (r.step (.paste text complete)) := by
  obtain ⟨hbytes, hopen, hopened⟩ := step_reached hvalid hreaches text complete
  obtain ⟨hfirst, hlast⟩ := hok hreaches
  refine ⟨fun n => ?_, hopened.2 ⟨h.opened, fun hmid hmode => ?_⟩⟩
  · have hscans := h.scans n
    unfold isOpen at hscans
    rw [hbytes, hopen]
    cases hpasting : r.session.terminal.pasting with
    | false =>
        rw [hpasting] at hscans
        simp only [Bool.false_eq_true, if_false]
        by_cases hn : n = r.session.terminal.activeTab
        · simpa [hn] using (hn ▸ hscans).first hpasting text complete
        · simpa [hn] using hscans
    | true =>
        have hbracketing : r.session.terminal.bracketing = r.session.terminal.pasteBracketed :=
          if_pos hpasting
        rw [hpasting] at hscans
        simp only [if_true, hbracketing]
        by_cases hcloses : (complete && r.session.terminal.pasteBracketed) = true
        · obtain ⟨rfl, hbracketed⟩ := Bool.and_eq_true_iff.1 hcloses
          have hhere := hlast rfl hpasting hbracketed
          rw [PasteTerminal.fragmentBytes_last hpasting hbracketed]
          by_cases hn : n = r.session.terminal.activeTab
          · have hisOpen : ScansTo (r.session.terminal.bytesTo n) true := by
              simpa [hbracketed, hn, hhere] using hscans
            have hclosed := (hisOpen.text (cleanPaste_no_escape text)).stop
            rw [List.append_assoc] at hclosed
            rw [if_pos hn, Bool.not_true, Bool.false_and, Bool.false_and]
            exact hclosed
          · have hother : n ≠ r.startedOn := fun heq => hn (heq.trans hhere.symm)
            simpa [hn, hother] using hscans
        · have hkept : (!complete && r.session.terminal.pasteBracketed) =
              r.session.terminal.pasteBracketed := by
            cases complete <;> simp_all
          rw [hkept]
          by_cases hn : n = r.session.terminal.activeTab
          · rw [if_pos hn]
            exact hscans.next hpasting text (by simpa using hcloses)
          · simpa [hn] using hscans
  · have hpasting := hfirst hmid hmode
    have hbracketing : r.session.terminal.bracketing = true := by
      unfold PasteTerminal.bracketing
      rw [hpasting]
      exact hmode
    unfold PasteTerminal.fragmentBytes
    rw [hpasting, hbracketing, List.append_assoc]
    exact List.prefix_append _ _

/-- **A disturbed one** spoils something. -/
theorem Consistent.spoiled (h : Consistent r) (hvalid : r.session.terminal.Valid)
    (hreaches : reaches r.session = true) {text : Bytes} {complete : Bool}
    (hnot : ¬ r.Undisturbed (.paste text complete)) : Spoiled (r.step (.paste text complete)) := by
  obtain ⟨hbytes, -, hopened⟩ := step_reached hvalid hreaches text complete
  by_cases hfirst : r.begun = false → r.session.terminal.tab.modes.bracketedPaste = true →
      r.session.terminal.pasting = false
  · have hlast : ¬ (complete = true → r.session.terminal.pasting = true →
        r.session.terminal.pasteBracketed = true → r.session.terminal.activeTab = r.startedOn) :=
      fun hlast => hnot fun _ => ⟨hfirst, hlast⟩
    simp only [Classical.not_imp] at hlast
    obtain ⟨rfl, hpasting, hbracketed, hother⟩ := hlast
    refine .inl ⟨r.session.terminal.activeTab, ?_⟩
    have hscans := h.scans r.session.terminal.activeTab
    rw [show r.isOpen r.session.terminal.activeTab = false by simp [isOpen, hother]] at hscans
    rw [hbytes, if_pos rfl, PasteTerminal.fragmentBytes_last hpasting hbracketed, ← List.append_assoc]
    exact (hscans.text (cleanPaste_no_escape text)).stop_broken
  · simp only [Classical.not_imp] at hfirst
    obtain ⟨hmid, hmode, hpasting⟩ := hfirst
    rw [Bool.not_eq_false] at hpasting
    refine .inr (Bool.eq_false_iff.2 fun hall => ?_)
    exact PasteTerminal.fragmentBytes_not_start hpasting text complete ((hopened.1 hall).2 hmid hmode)

/-- From a consistent state, a step is good exactly when nothing disturbs it. -/
theorem Consistent.step (h : Consistent r) (hvalid : r.session.terminal.Valid) (e : PasteEvent) :
    (r.Undisturbed e → Consistent (r.step e)) ∧ (¬ r.Undisturbed e → Spoiled (r.step e)) := by
  by_cases hpaste : ∃ text complete, e = .paste text complete
  · obtain ⟨text, complete, rfl⟩ := hpaste
    cases hreaches : reaches r.session with
    | false =>
        refine ⟨fun _ => h.of_quiet (quiet_of_unreached hreaches text complete) ?_ ?_, fun hnot => ?_⟩
        · simp [PasteRun.step, hreaches]
        · simp [PasteRun.step, hreaches]
        · exact absurd (fun hr => by cases hreaches.symm.trans hr) hnot
    | true => exact ⟨h.paste hvalid hreaches, h.spoiled hvalid hreaches⟩
  · have hne : ∀ text complete, e ≠ .paste text complete :=
      fun text complete he => hpaste ⟨text, complete, he⟩
    have hstep : r.step e = { r with session := r.session.step e } := by
      cases e with
      | paste text complete => exact absurd rfl (hne text complete)
      | _ => rfl
    have hundisturbed : r.Undisturbed e := by
      cases e with
      | paste text complete => exact absurd rfl (hne text complete)
      | _ => trivial
    refine ⟨fun _ => ?_, fun hnot => absurd hundisturbed hnot⟩
    rw [hstep]
    exact h.of_quiet (r.session.step_quiet hne) rfl rfl

/-- Bytes that were written stay written. -/
theorem Spoiled.step (h : Spoiled r) (hvalid : r.session.terminal.Valid) (e : PasteEvent) :
    Spoiled (r.step e) := by
  have hquiet : ∀ {r' : PasteRun}, r.session.terminal.Quiet r'.session.terminal →
      (r.opened = false → r'.opened = false) → Spoiled r' := by
    intro r' hq hopened
    obtain ⟨n, hn⟩ | hclosed := h
    · exact .inl ⟨n, by rw [hq.bytes]; exact hn⟩
    · exact .inr (hopened hclosed)
  by_cases hpaste : ∃ text complete, e = .paste text complete
  · obtain ⟨text, complete, rfl⟩ := hpaste
    cases hreaches : reaches r.session with
    | false =>
        exact hquiet (quiet_of_unreached hreaches text complete) fun hclosed => by
          simp [PasteRun.step, hclosed]
    | true =>
        obtain ⟨hbytes, -, hopened⟩ := step_reached hvalid hreaches text complete
        obtain ⟨n, hn⟩ | hclosed := h
        · exact .inl ⟨n, by rw [hbytes]; exact hn.append _⟩
        · exact .inr (by simp [PasteRun.step, hclosed])
  · have hne : ∀ text complete, e ≠ .paste text complete :=
      fun text complete he => hpaste ⟨text, complete, he⟩
    have hstep : r.step e = { r with session := r.session.step e } := by
      cases e with
      | paste text complete => exact absurd rfl (hne text complete)
      | _ => rfl
    rw [hstep]
    exact hquiet (r.session.step_quiet hne) id

end PasteRun

end Sshos.Apps
