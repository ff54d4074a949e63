import Sshos.Apps.Emulator
import Sshos.Apps.Paste
import Sshos.Daemon.Host
import Sshos.Input.Encode
import Sshos.Pty.Pty
import Sshos.Render.Width
import Sshos.Shell.Modal

/-!
# Sshos.Apps.Tabbed

The **terminal window with its tabs**: a pseudo-terminal, an emulator and a watch for each,
and what the window makes of keys, clicks, pastes, sizes and readable descriptors.

The parsers of all the tabs call the same sink, which finds out whom it is writing for from
`feeding`, set around every read. The window stands on a host (its watches, in epoll) and on
the kernel: the process table, and for each master what its guest wrote and is still to be
read.
-/

namespace Sshos.Apps.Tabbed

open Sshos (Kernel Pid Pty WaitStatus)
open Sshos.Daemon (Epoll HostImpl)
open Sshos.Input (KeyEvent MouseAction MouseEvent encodeKey kPasteStart kPasteEnd)
open Sshos.Lib (Bytes decimal num)
open Sshos.Render (elideToCells textCells)
open Sshos.Shell (text)
open Sshos.Vt (Modes Screen Scrollback SinkCall)

/-- The rows the bar of the tabs takes. -/
def kBarRows : Int := 1

def kEpollIn : UInt32 := 0x001

/-! ### What a master gives to read -/

/-- The guest's side of a pseudo-terminal. -/
structure Line where
  /-- Everything the guest wrote, and what of it is still to be read. -/
  wrote : Bytes := []
  unread : Bytes := []
  /-- The last slave is closed. -/
  closed : Bool := false
  deriving DecidableEq

/-- The last answer of a series of reads: nothing for now, or the end, told by 0 or by
`EIO`. -/
inductive ReadEnd where
  | nothing | eof | eio
  deriving DecidableEq

/-- How the kernel answers a series of reads: what each one gives, and whether the end is
told by 0. A read beyond the list is interrupted. -/
structure Answers where
  sizes : List Nat
  zero : Bool := false

def kReadSize : Nat := 8192

/-- Read until there is nothing to read: the pieces, what is left, and the last answer. -/
def Line.reads (closed zero : Bool) : List Nat → Bytes → List Bytes × Bytes × ReadEnd
  | _, [] => ([], [], if closed then (if zero then .eof else .eio) else .nothing)
  | [], unread => ([], unread, .nothing)
  | size :: sizes, unread =>
      let n := min (max size 1) kReadSize
      let (pieces, left, last) := Line.reads closed zero sizes (unread.drop n)
      (unread.take n :: pieces, left, last)

/-! ### Tabs -/

/-- The mouse reports a guest asked for. -/
inductive MouseTracking where
  | none | click | drag | any
  deriving DecidableEq

/-- The most permissive of those that are on. -/
def tracking (m : Modes) : MouseTracking :=
  if m.mouseAny then .any
  else if m.mouseDrag then .drag
  else if m.mouseClick then .click
  else .none

/-- The 1006 form of a mouse event, in the coordinates of the grid. -/
def encodeMouseSgr (m : MouseEvent) (x y : Int) : Bytes :=
  let cb : Int := match m.action with
    | .wheelUp => 64
    | .wheelDown => 65
    | .motion => m.button + 32
    | _ => m.button
  let cb := cb + (if m.mods.shift then 4 else 0) + (if m.mods.alt then 8 else 0) +
    (if m.mods.ctrl then 16 else 0)
  -- a release ends in `m`, everything else in `M`
  [0x1B, 0x5B, 0x3C] ++ num cb ++ [0x3B] ++ num (x + 1) ++ [0x3B] ++ num (y + 1) ++
    [if m.action = .release then 0x6D else 0x4D]

/-- The emulator of a tab just opened, with an empty history. -/
def freshEmulator : Emulator :=
  { sink := { screen := (Screen.create 80 24).setScrollback (some (.create kDefaultScrollbackLines)) } }

structure Tab where
  /-- The order in which it was opened, which tells it from the others. -/
  serial : Nat
  pty : Pty := {}
  /-- `Pty::note_eof`. -/
  eof : Bool := false
  emulator : Emulator := freshEmulator
  token : UInt64 := 0
  watching : Bool := false
  customTitle : Bytes := []
  /-- What the user's gestures wrote to the guest. The answers of the emulator are beside. -/
  typed : Bytes := []
  line : Line := {}
  /-- Everything its parser was fed. -/
  fed : Bytes := []
  deriving DecidableEq

section Emulated

variable (e : Emulator)

/-- The history, at another offset. -/
def scroll (f : Scrollback → Scrollback) : Emulator :=
  { e with sink := { e.sink with
    screen := e.sink.screen.setScrollback (e.sink.screen.scrollback.map f) } }

def resized (w h : Int) : Emulator :=
  { e with sink := { e.sink with screen := e.sink.screen.resize w h } }

/-- A page of the history: half the window. -/
def page (h : Int) : UInt64 := UInt64.ofNat (max 1 (h.tdiv 2)).toNat

/-- A key for the guest: what becomes of the view, and what is written. -/
def keyed (h : Int) (k : KeyEvent) : Emulator × Bytes :=
  if k.mods.shift ∧ ¬ e.sink.screen.alt ∧ k.key = .pgUp then (scroll e (·.scrollBack (page h)), [])
  else if k.mods.shift ∧ ¬ e.sink.screen.alt ∧ k.key = .pgDn then
    (scroll e (·.scrollForward (page h)), [])
  else
    let bytes := encodeKey k e.sink.modes.cursorKeysApplication
    if bytes = [] then (e, []) else (scroll e (·.scrollToBottom), bytes)

/-- A mouse event on the grid. -/
def moused (m : MouseEvent) : Emulator × Bytes :=
  let wheel := m.action = .wheelUp ∨ m.action = .wheelDown
  if wheel ∧ ¬ e.sink.screen.alt ∧ tracking e.sink.modes = .none then
    (scroll e fun b => if m.action = .wheelUp then b.scrollBack 3 else b.scrollForward 3, [])
  else if tracking e.sink.modes = .none then (e, [])
  else if tracking e.sink.modes = .click ∧ m.action = .motion then (e, [])
  else (e, encodeMouseSgr m m.x (m.y - kBarRows))

end Emulated

/-- The tab takes what a gesture comes to. -/
def Tab.take (tab : Tab) (r : Emulator × Bytes) : Tab :=
  { tab with emulator := r.1, typed := tab.typed ++ r.2 }

/-- The chosen name, or the guest's. -/
def Tab.name (tab : Tab) : Bytes :=
  if tab.customTitle = [] then tab.emulator.sink.guestTitle else tab.customTitle

/-! ### The window -/

structure Terminal where
  tabs : List Tab
  /-- Closed tabs whose shells are still to be reaped. -/
  closing : List Tab := []
  active : Nat := 0
  /-- The tab whose bytes are being parsed. -/
  feeding : Option Nat := none
  mode : EditMode := .normal
  pasting : Bool := false
  pasteBracketed : Bool := false
  edit : Bytes := []
  w : Int := 80
  h : Int := 24
  /-- How many tabs were opened. -/
  opened : Nat := 0
  host : HostImpl
  fdGen : UInt32
  epoll : Epoll := []
  kernel : Kernel := .init
  /-- The directory new shells start in, as the user wrote it. -/
  configured : Bytes := []
  title : Bytes := []
  closeRequested : Bool := false

namespace Terminal

variable (t : Terminal)

def tab (i : Nat) : Tab := t.tabs.getD i { serial := 0 }

def activeTab : Tab := t.tab t.active

def update (i : Nat) (f : Tab → Tab) : Terminal := { t with tabs := t.tabs.modify i f }

/-- The tab that is being fed, or the one that is looked at. -/
def target : Nat :=
  match t.feeding with
  | none => t.active
  | some n => t.tabs.findIdx fun tab => tab.serial == n

def retitle : Terminal :=
  let name := t.activeTab.name
  { t with title := if name = [] then text "Terminal" else text "Terminal (" ++ name ++ text ")" }

/-! ### The sink of the parsers -/

/-- The call sets the title of the guest. -/
def setsTitle : SinkCall → Bool
  | .osc data =>
      let id := data.takeWhile (· ≠ 0x3B)
      id.length ≠ data.length && (id = [0x30] || id = [0x32])
  | _ => false

/-- A call of a parser, whichever tab's it is. -/
def call (c : SinkCall) : Terminal :=
  let s := t.update t.target fun tab =>
    { tab with emulator := { tab.emulator with sink := tab.emulator.sink.call false c } }
  if setsTitle c && t.target == t.active then s.retitle else s

/-- The parser of tab `i` reads some bytes. -/
def feed (i : Nat) (bytes : Bytes) : Terminal :=
  let (parser, calls) := (t.tab i).emulator.parser.feed bytes
  calls.foldl call (t.update i fun tab =>
    { tab with emulator := { tab.emulator with parser := parser }, fed := tab.fed ++ bytes })

/-- `IoStatus`. -/
inductive IoStatus where
  | ok | closed
  deriving DecidableEq

/-- The tab with this token. -/
def watcher (token : UInt64) : Option Nat :=
  t.tabs.findIdx? fun tab => tab.watching && tab.token == token

/-- The answers of the kernel to the reads of tab `i`'s master. -/
def readsOf (i : Nat) (a : Answers) : List Bytes × Bytes × ReadEnd :=
  Line.reads (t.tab i).line.closed a.zero a.sizes (t.tab i).line.unread

/-- `Terminal::on_io`: the master is drained before anything is concluded. -/
def onIo (token : UInt64) (a : Answers) : IoStatus × Terminal :=
  match t.watcher token with
  | none => (.ok, t)
  | some i =>
      let (pieces, left, last) := t.readsOf i a
      let s := { t with feeding := some (t.tab i).serial }
      let s := s.update i fun tab => { tab with line := { tab.line with unread := left } }
      let s := pieces.foldl (fun s piece => s.feed i piece) s
      match last with
      | .eof => (.closed, { s.update i (fun tab => { tab with eof := true }) with feeding := none })
      | _ => (.ok, { s with feeding := none })

/-! ### Tabs come and go -/

/-- Every tab takes the size of the window, less the bar. -/
def relayout : Terminal :=
  { t with tabs := t.tabs.map fun tab =>
      { tab with emulator := resized tab.emulator (max 1 t.w) (max 1 (t.h - kBarRows)) } }

/-- The number of a new descriptor: the one proposed, if it is not in use. -/
def freeFd (ep : Epoll) (fd : Nat) : Int :=
  if ep.any (·.fd == fd) then ep.foldl (fun m i => max m i.fd) 0 + 1 else fd

/-- Start a shell in a tab, with a proposal for its master; without one the spawn fails. -/
def openTabInto (tab : Tab) (master : Option Nat) : Bool × Tab × Terminal :=
  match master with
  | none => (false, tab, t)
  | some fd =>
      let (pid, kernel) := t.kernel.fork
      let (token, host, fdGen, epoll) := t.host.watch t.fdGen t.epoll (freeFd t.epoll fd) kEpollIn
      (true, { tab with pty := .spawned pid, token := token, watching := true },
        { t with host := host, fdGen := fdGen, epoll := epoll, kernel := kernel })

/-- A tab whose shell does not start is not kept. -/
def openTab (master : Option Nat) : Terminal :=
  let (ok, tab, s) := t.openTabInto { serial := t.opened } master
  if ok then
    let s := { s with tabs := s.tabs ++ [tab], opened := s.opened + 1 }.relayout
    { s with active := s.tabs.length - 1 }.retitle
  else { s with opened := s.opened + 1 }

def selectTab (i : Nat) : Terminal := if i ≥ t.tabs.length then t else { t with active := i }.retitle

def cycleTab (d : Int) : Terminal :=
  let n : Int := t.tabs.length
  t.selectTab (((t.active + d).tmod n + n).tmod n).toNat

/-- The last tab only asks for the window to be closed. -/
def closeTab (i : Nat) : Terminal :=
  match t.tabs[i]? with
  | none => t
  | some dying =>
      if t.tabs.length = 1 then { t with closeRequested := true }
      else
        let tabs := t.tabs.eraseIdx i
        let (host, epoll) :=
          if dying.watching then t.host.unwatch t.epoll dying.token else (t.host, t.epoll)
        let (kernel, pty) := dying.pty.shutdown t.kernel
        -- what is destroyed right away has no shell left to signal
        let (gone, kernel, pty) := if pty.pid.isSome then pty.tryReap kernel else (true, kernel, pty)
        { t with
          tabs := tabs
          active := if t.active ≥ tabs.length then tabs.length - 1 else t.active
          closing := if gone then t.closing
            else t.closing ++ [{ dying with watching := false, pty := pty }]
          host := host
          epoll := epoll
          kernel := kernel : Terminal }.retitle

/-! ### What the user types in the bar -/

def beginRename : Terminal := { t with mode := .renaming, edit := t.activeTab.customTitle }

def commitRename : Terminal :=
  if t.mode ≠ .renaming then t
  else
    { t.update t.active (fun tab => { tab with customTitle := t.edit }) with
      mode := .normal, edit := [] : Terminal }.retitle

def beginPathEdit : Terminal := { t with mode := .editingPath, edit := t.configured }

def commitPathEdit : Terminal :=
  if t.mode ≠ .editingPath then t else { t with configured := t.edit, mode := .normal, edit := [] }

/-- A key while a field is open: `rename_key` and `path_key`. -/
def fieldKey (commit : Terminal) (most : Nat) (k : KeyEvent) : Terminal :=
  match k.key with
  | .enter => commit
  | .escape => { t with mode := .normal, edit := [] }
  | .backspace => { t with edit := PasteTerminal.popChar t.edit }
  | .char => if t.edit.length < most then { t with edit := t.edit ++ Common.encodeUtf8 k.ch } else t
  | _ => t

def renameKey (k : KeyEvent) : Terminal := t.fieldKey t.commitRename kMaxName k

def pathKey (k : KeyEvent) : Terminal := t.fieldKey t.commitPathEdit kMaxPath k

/-! ### The bar -/

inductive SlotKind where
  | select | close | new | settings
  deriving DecidableEq

/-- A stretch of the bar, what is written there, and what a click on it does. -/
structure Slot where
  x : Int
  w : Int
  tab : Nat
  kind : SlotKind
  text : Bytes
  deriving DecidableEq

def kCross : Bytes := [0xC3, 0x97]

/-- In ASCII: a wheel that is drawn on two columns by some terminals would move the bar. -/
def kGear : Bytes := [0x5B, 0x2A, 0x5D]

def kGearCells : Int := 3

def kEllipsis : Bytes := [0xE2, 0x80, 0xA6]

/-- What is written for a tab: its number always, then its name as far as it holds. -/
def tabText (nameMax : Int) (i : Nat) (raw : Bytes) : Bytes :=
  let number := decimal (i + 1)
  let body :=
    if raw = [] then number
    else
      let room := max 1 (nameMax - textCells number - 1)
      number ++ [0x3A] ++ elideToCells raw room kEllipsis
  [0x20] ++ body ++ [0x20]

/-- The slots of the tabs with these names, from number `i` and column `x` on, as far as
there is room for them. -/
def tabSlots (avail nameMax : Int) (crosses : Bool) : (i : Nat) → (x : Int) → List Bytes → List Slot
  | _, _, [] => []
  | i, x, raw :: raws =>
      let label := tabText nameMax i raw
      let w : Int := textCells label
      let cells := w + if crosses then 1 else 0
      if x + cells > avail then []
      else
        { x := x, w := w, tab := i, kind := .select, text := label } ::
          (if crosses then [{ x := x + w, w := 1, tab := i, kind := .close, text := kCross }] else []) ++
            tabSlots avail nameMax crosses (i + 1) (x + cells) raws

/-- What a tab is called in the bar: during a renaming, what is typed. -/
def barNames : List Bytes :=
  t.tabs.mapIdx fun i tab => if t.mode = .renaming ∧ i = t.active then t.edit else tab.name

def barSlots : List Slot :=
  let w := max 1 t.w
  if t.mode = .editingPath then
    [{ x := 0, w := w, tab := 0, kind := .settings, text := kGear ++ [0x20] ++ t.edit }]
  else
    let n : Int := t.tabs.length
    let avail := max 1 (w - (kGearCells + 3))
    let crosses := n > 1
    let per := max 3 (avail.tdiv n)
    let nameMax := max 1 (per - if crosses then 3 else 2)
    tabSlots avail nameMax crosses 0 0 t.barNames ++
      (if w > kGearCells + 1 then
        [{ x := w - 1 - kGearCells, w := kGearCells, tab := 0, kind := .settings, text := kGear }]
      else []) ++
      [{ x := w - 1, w := 1, tab := 0, kind := .new, text := [0x2B] }]

def barClick (x : Int) (master : Option Nat) : Terminal :=
  match t.barSlots.find? fun s => decide (s.x ≤ x ∧ x < s.x + s.w) with
  | none => t
  | some s =>
      match s.kind with
      | .new => t.openTab master
      | .settings => t.beginPathEdit
      | .close => t.closeTab s.tab
      | .select => if s.tab = t.active then t.beginRename else t.selectTab s.tab

/-! ### What the window is told -/

/-- A key that is the window's, with what it does to the tabs. -/
def gesture (k : KeyEvent) (master : Option Nat) : Option Terminal :=
  if k.mods.alt ∧ k.key = .char ∧ k.ch = 0x74 then some (t.openTab master)
  else if k.mods.alt ∧ k.key = .char ∧ k.ch = 0x77 then some (t.closeTab t.active)
  else if k.mods.alt ∧ k.key = .left then some (t.cycleTab (-1))
  else if k.mods.alt ∧ k.key = .right then some (t.cycleTab 1)
  else if k.key = .f2 then some t.beginRename
  else none

/-- A dead terminal takes no keys: `Enter` closes it. -/
def guestKey (k : KeyEvent) : Terminal :=
  if t.activeTab.pty.exited then
    if k.key = .enter then { t with closeRequested := true } else t
  else t.update t.active fun tab => tab.take (keyed tab.emulator t.h k)

def onKey (k : KeyEvent) (master : Option Nat) : Terminal :=
  match t.mode with
  | .renaming => t.renameKey k
  | .editingPath => t.pathKey k
  | .normal => (t.gesture k master).getD (t.guestKey k)

/-- A mouse event on the grid. -/
def guestMouse (m : MouseEvent) : Terminal :=
  if t.activeTab.pty.exited then
    if m.action = .press then { t with closeRequested := true } else t
  else t.update t.active fun tab => tab.take (moused tab.emulator m)

/-- A click first ends what is typed, wherever it falls. -/
def onMouse (m : MouseEvent) (master : Option Nat) : Terminal :=
  let t := if m.action = .press then t.commitRename.commitPathEdit else t
  if m.y < kBarRows then (if m.action = .press then t.barClick m.x master else t)
  else t.guestMouse m

/-- What a fragment of a paste writes to the guest. -/
def pasted (text : Bytes) (complete : Bool) : Bytes :=
  let bracketed :=
    if t.pasting then t.pasteBracketed else t.activeTab.emulator.sink.modes.bracketedPaste
  (if !t.pasting && bracketed then kPasteStart else []) ++ cleanPaste text ++
    (if complete && bracketed then kPasteEnd else [])

def onPaste (text : Bytes) (complete : Bool) : Terminal :=
  if t.mode ≠ .normal then
    let most := if t.mode = .renaming then kMaxName else kMaxPath
    if t.edit.length < most then
      { t with edit := t.edit ++ (cleanPasteOneLine text).take (most - t.edit.length) }
    else t
  else if t.activeTab.pty.exited then t
  else
    { t.update t.active (fun tab =>
        tab.take (scroll tab.emulator (·.scrollToBottom), t.pasted text complete)) with
      -- whether to bracket is decided at the opening, for all the fragments
      pasteBracketed :=
        if t.pasting then t.pasteBracketed else t.activeTab.emulator.sink.modes.bracketedPaste
      pasting := !complete }

def onResize (w h : Int) : Terminal :=
  if w ≤ 0 ∨ h ≤ 0 then t else { t with w := w, h := h }.relayout

/-- Try to reap the shells of some tabs. -/
def reapTabs (k : Kernel) : List Tab → Kernel × List Tab
  | [] => (k, [])
  | tab :: tabs =>
      let (_, k, pty) := tab.pty.tryReap k
      let (k, tabs) := reapTabs k tabs
      (k, { tab with pty := pty } :: tabs)

def onChildExit : Terminal :=
  let (k, tabs) := reapTabs t.kernel t.tabs
  let (k, closing) := reapTabs k t.closing
  { t with tabs := tabs, closing := closing.filter fun tab => !tab.pty.exited, kernel := k }

/-! ### Runs -/

inductive Input where
  /-- Epoll hands a key back. -/
  | io (key : UInt64) (answers : Answers)
  | key (k : KeyEvent) (master : Option Nat)
  | mouse (m : MouseEvent) (master : Option Nat)
  | paste (text : Bytes) (complete : Bool)
  | resize (w h : Int)
  | childExit
  /-- The guest of a tab writes, or its side of the pseudo-terminal is closed. -/
  | guestWrites (serial : Nat) (bytes : Bytes)
  | guestCloses (serial : Nat)
  | childDies (p : Pid) (st : WaitStatus) (place : Nat)
  /-- Watches are made for other windows, and the setting is changed from there. -/
  | elsewhere (fdGen : UInt32) (configured : Bytes)

/-- The guest's side of a tab changes. -/
def onLine (serial : Nat) (f : Line → Line) : Terminal :=
  { t with tabs := t.tabs.map fun tab =>
      if tab.serial = serial then { tab with line := f tab.line } else tab }

/-- `Session::on_fd_event` and `HostImpl::deliver`: the status is looked at by nobody. -/
def onFdEvent (key : UInt64) (a : Answers) : Terminal :=
  if t.host.owns key then (t.onIo key a).2 else t

def step (t : Terminal) : Input → Terminal
  | .io key a => t.onFdEvent key a
  | .key k master => t.onKey k master
  | .mouse m master => t.onMouse m master
  | .paste text complete => t.onPaste text complete
  | .resize w h => t.onResize w h
  | .childExit => t.onChildExit
  | .guestWrites serial bytes => t.onLine serial fun l =>
      if l.closed then l else { l with wrote := l.wrote ++ bytes, unread := l.unread ++ bytes }
  | .guestCloses serial => t.onLine serial fun l => { l with closed := true }
  | .childDies p st place => { t with kernel := t.kernel.die p st place }
  | .elsewhere fdGen configured => { t with fdGen := fdGen, configured := configured }

/-- The window as it is attached to its host: one tab, whether or not its shell starts. -/
def start (win : UInt32) (app : Nat) (fdGen : UInt32) (master : Option Nat) : Terminal :=
  let t : Terminal := { tabs := [], opened := 1, host := { win := win, app := app }, fdGen := fdGen }
  let (_, tab, t) := t.openTabInto { serial := 0 } master
  { t with tabs := [tab] }.relayout.retitle

end Terminal

end Sshos.Apps.Tabbed
