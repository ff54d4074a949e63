import Mathlib
import Sshos.Apps.Dir
import Sshos.Apps.FileJob
import Sshos.Common.Utf8
import Sshos.Input.Parser
import Sshos.Lib.Decimal
import Sshos.Render.Width
import Sshos.Wm.Desktop

/-!
# Sshos.Apps.Files

The **file window**: one or two panes on the disk, a strip of shortcuts, a menu under the right
button, files that are marked, renamed, made, removed, and dragged from one pane to the other.

What the disk answers comes with each event. The work on files is a job, which goes on when the
window is refreshed; of it the window sees that it is active, and at its end what it did.
-/

namespace Sshos.Apps

open Sshos.Common (encodeUtf8)
open Sshos.Input (Key KeyEvent MouseAction MouseEvent)
open Sshos.Lib (Bytes decimal)
open Sshos.Render (Rect textCells)
open Sshos.Shell (text)
open Sshos.Wm (Size)

def kPlacesWidth : Int := 12

/-- What the system answers during an event. -/
structure Sys where
  readdir : Readdir
  /-- Something has this path. -/
  lstat : Bytes → Bool := fun _ => false
  rename : Option Bytes := none
  create : Option Bytes := none
  /-- The home directory, if there is one. -/
  home : Option Bytes := none

namespace Files

inductive Mode
  | normal | renaming | confirming | creating
  deriving Repr, DecidableEq

inductive Cmd
  | «open» | newDir | newFile | rename | delete | copy | cut | paste | selectAll
  | split | places | hidden | up | back | forward | sortName | sortSize | sortTime
  | stopJob
  deriving Repr, DecidableEq

structure MenuItem where
  cmd : Cmd
  label : Bytes
  keys : Bytes
  deriving Repr, DecidableEq

/-! ### One pane -/

structure Pane where
  listing : DirListing := {}
  /-- What is shown of it. -/
  visible : List DirEntry := []
  filter : Bytes := []
  status : Bytes := []
  /-- Names, each once. -/
  marked : List Bytes := []
  /-- The latest first. -/
  back : List Bytes := []
  forward : List Bytes := []
  sel : Nat := 0
  top : Nat := 0
  sortBy : SortBy := .name
  sortDesc : Bool := false
  deriving Repr, DecidableEq

namespace Pane

variable (p : Pane)

/-- The selection goes back into the list, then the page goes to the selection. -/
def settle (rows : Nat) : Pane :=
  if p.visible = [] then { p with sel := 0, top := 0 }
  else
    let sel := if p.sel ≥ p.visible.length then p.visible.length - 1 else p.sel
    let top := if sel < p.top then sel else p.top
    let top := if sel ≥ top + rows then sel - rows + 1 else top
    let top :=
      if top + rows > p.visible.length then
        if p.visible.length > rows then p.visible.length - rows else 0
      else top
    { p with sel, top }

/-- The selection goes to a name, if it is shown. -/
def selectName (name : Bytes) : Pane :=
  match p.visible.findIdx? fun e => e.name = name with
  | some i => { p with sel := i }
  | none => p

/-- The name of a line. -/
def nameAt (i : Nat) : Bytes := (p.visible[i]?.map (·.name)).getD []

/-- What is shown is made again from what was read; the selection follows its name. -/
def refilter (rows : Nat) : Pane :=
  let kept := p.nameAt p.sel
  let p := { p with
    visible := sortEntries (filterEntries p.listing.entries p.filter) p.sortBy p.sortDesc }
  let p := if kept ≠ [] then p.selectName kept else p
  let p :=
    if p.filter ≠ [] ∧ p.nameAt p.sel = kParent ∧ p.visible.length > 1 then { p with sel := 1 } else p
  p.settle rows

/-- The name of a line, unless it is `..`. -/
def markableAt (i : Nat) : Bytes := if p.nameAt i = kParent then [] else p.nameAt i

def touchableSelection : Bytes := if p.nameAt p.sel = kParent then [] else p.nameAt p.sel

def mark (name : Bytes) : Pane :=
  if name = [] ∨ name ∈ p.marked then p else { p with marked := p.marked.orderedInsert (· ≤ ·) name }

def toggleMark (i : Nat) : Pane :=
  let name := p.markableAt i
  if name = [] then p
  else if name ∈ p.marked then { p with marked := p.marked.erase name }
  else p.mark name

def markRange (a b : Nat) : Pane :=
  (List.range' (min a b) (max a b + 1 - min a b)).foldl (fun p i => p.mark (p.markableAt i)) p

/-- What is marked, or the selection. -/
def targets : List Bytes :=
  if p.marked ≠ [] then p.marked
  else if p.touchableSelection = [] then []
  else [p.touchableSelection]

/-- The paths of these names. -/
def paths (names : List Bytes) : List Bytes := names.map (joinPath p.listing.path)

end Pane

/-! ### The window -/

inductive Side
  | first | second
  deriving Repr, DecidableEq

def Side.other : Side → Side
  | .first => .second
  | .second => .first

/-- A job that was started. -/
structure Started where
  sources : List Bytes
  dest : Bytes
  kind : FileOp
  deriving Repr, DecidableEq

end Files

open Files in
structure Files where
  panes : Side → Pane := fun _ => {}
  active : Side := .first
  split : Bool := false
  places : Bool := false
  /-- An entry is held, and is dragged once the pointer has moved. -/
  pressed : Bool := false
  dragging : Bool := false
  pressX : Int := 0
  pressY : Int := 0
  drag : List Bytes := []
  menuOpen : Bool := false
  menuRect : Rect := {}
  menuShown : List MenuItem := []
  showHidden : Bool := false
  mode : Mode := .normal
  /-- The name that is typed. -/
  edit : Bytes := []
  creatingDir : Bool := true
  clipboard : List Bytes := []
  clipboardCut : Bool := false
  jobActive : Bool := false
  jobDone : Nat := 0
  size : Size := { w := 40, h := 12 }
  /-- What the host was asked to open, the latest first. -/
  opened : List Bytes := []
  /-- What was made, and whether it is a directory. -/
  created : List (Bytes × Bool) := []
  /-- The jobs that were started, and the names that were changed; for the proofs alone. -/
  started : List Started := []
  renamed : List (Bytes × Bytes) := []
  /-- The directory and the entry that the field was opened for. -/
  renameOf : Option (Bytes × Bytes) := none

namespace Files

variable (y : Sys) (s : Files)

def pane : Pane := s.panes s.active

def setPane (p : Pane) : Files := { s with panes := Function.update s.panes s.active p }

/-! ### Geometry -/

def paneWidth : Int :=
  let usable := max 1 (s.size.w - if s.places then kPlacesWidth + 1 else 0)
  if s.split then max 1 ((usable - 1) / 2) else usable

def rowsForList : Nat := (max 1 (s.size.h - 3)).toNat

structure Columns where
  nameW : Int := 0
  sizeX : Int := 0
  sizeW : Int := 0
  dateX : Int := 0
  dateW : Int := 0

/-- The figures leave first when there is no room. -/
def columns (w : Int) : Columns :=
  let kSizeW := 9
  let kDateW := 10
  let kNameMin := 12
  if w ≥ kNameMin + 1 + kSizeW + 1 + kDateW then
    let dateX := w - kDateW
    let sizeX := dateX - 1 - kSizeW
    { nameW := sizeX - 1, sizeX, sizeW := kSizeW, dateX, dateW := kDateW }
  else if w ≥ kNameMin + 1 + kSizeW then
    let sizeX := w - kSizeW
    { nameW := sizeX - 1, sizeX, sizeW := kSizeW }
  else { nameW := w }

/-- A part of the path that can be clicked. -/
structure Segment where
  x : Int := 0
  w : Int
  path : Bytes

/-- The names in a path, each with the path up to it; `built` is what comes before. -/
def segmentsFrom (built : Bytes) : (fuel : Nat) → Bytes → List Segment
  | 0, _ => []
  | fuel + 1, p =>
      let p := p.dropWhile (· = kSlash)
      if p = [] then []
      else
        let name := p.takeWhile (· ≠ kSlash)
        let path := built ++ kSlash :: name
        { w := name.length, path } :: segmentsFrom path fuel (p.dropWhile (· ≠ kSlash))

def Segment.cost (sg : Segment) : Int := sg.w + if sg.path = [kSlash] then 0 else 1

/-- What does not fit goes, from the left. -/
def dropSegments (w : Int) : (total : Int) → List Segment → List Segment
  | total, sg :: sg' :: rest =>
      if total > w then dropSegments w (total - sg.cost) (sg' :: rest) else sg :: sg' :: rest
  | _, kept => kept

def placeSegments : (x : Int) → List Segment → List Segment
  | _, [] => []
  | x, sg :: rest => { sg with x } :: placeSegments (x + sg.cost) rest

def pathSegments (p : Pane) (w : Int) : List Segment :=
  let all := { w := 1, path := [kSlash] : Segment } ::
    segmentsFrom [] p.listing.path.length p.listing.path
  let kept := dropSegments w (all.map (·.cost)).sum all
  placeSegments (if kept.length < all.length then 1 else 0) kept

/-! ### Panes -/

def settle : Files := s.setPane (s.pane.settle s.rowsForList)

def refilter : Files := s.setPane (s.pane.refilter s.rowsForList)

/-- The selection goes to a line. -/
def select (i : Nat) : Files := (s.setPane { s.pane with sel := i }).settle

def setStatus (status : Bytes) : Files := s.setPane { s.pane with status }

/-- Both panes are read again; only the active one loses its marks. -/
def reload : Files :=
  let s := s.setPane { s.pane with marked := [] }
  { s with panes := fun i =>
      let listing := readDir y.readdir (s.panes i).listing.path s.showHidden
      { s.panes i with listing, status := listing.error }.refilter s.rowsForList }

/-- A directory is shown, if it can be read. -/
def load (path cameFrom : Bytes) : Bool × Files :=
  let probe := readDir y.readdir path s.showHidden
  if probe.error ≠ [] then (false, s.setStatus probe.error)
  else
    let s := s.setPane { s.pane with
      listing := probe, status := [], filter := [], marked := [], sel := 0, top := 0, visible := [] }
    let s := s.refilter
    -- the selection goes to where one comes from, when it is below
    if cameFrom.length > path.length ∧ path <+: cameFrom then
      let rest := (cameFrom.drop path.length).dropWhile (· = kSlash)
      let child := rest.takeWhile (· ≠ kSlash)
      (true, (s.setPane (s.pane.selectName child)).settle)
    else (true, s)

def goTo (path : Bytes) : Files :=
  if path = s.pane.listing.path then s
  else
    let from_ := s.pane.listing.path
    let loaded := s.load y path from_
    if loaded.1 then
      loaded.2.setPane { loaded.2.pane with back := from_ :: loaded.2.pane.back, forward := [] }
    else loaded.2

def goBack : Files :=
  match s.pane.back with
  | [] => s
  | target :: _ =>
      let from_ := s.pane.listing.path
      let loaded := s.load y target from_
      if loaded.1 then
        loaded.2.setPane { loaded.2.pane with
          back := loaded.2.pane.back.tail, forward := from_ :: loaded.2.pane.forward }
      else loaded.2

def goForward : Files :=
  match s.pane.forward with
  | [] => s
  | target :: _ =>
      let from_ := s.pane.listing.path
      let loaded := s.load y target from_
      if loaded.1 then
        loaded.2.setPane { loaded.2.pane with
          forward := loaded.2.pane.forward.tail, back := from_ :: loaded.2.pane.back }
      else loaded.2

def goUp : Files :=
  let up := parentPath s.pane.listing.path
  if up = s.pane.listing.path then s else s.goTo y up

/-- A directory is entered, a file is edited. -/
def activate : Files :=
  match s.pane.visible[s.pane.sel]? with
  | none => s
  | some e =>
      if isDirLike e = false then { s with opened := joinPath s.pane.listing.path e.name :: s.opened }
      else if e.name = kParent then s.goUp y
      else s.goTo y (joinPath s.pane.listing.path e.name)

def sortOn (key : SortBy) : Files :=
  let p := s.pane
  let p :=
    if p.sortBy = key then { p with sortDesc := !p.sortDesc } else { p with sortBy := key, sortDesc := false }
  (s.setPane p).refilter

/-! ### Files -/

def startJob (sources : List Bytes) (dest : Bytes) (kind : FileOp) : Files :=
  { s with
    jobActive := !sources.isEmpty
    jobDone := 0
    started := { sources, dest, kind } :: s.started }

def stopJob : Files :=
  if s.jobActive = false then s
  else
    ({ s with jobActive := false, jobDone := 0 }.reload y).setStatus
      (text "arrete apres " ++ decimal s.jobDone ++ text " elements")

/-- The field of a new name opens on the selection. -/
def beginRename : Files :=
  let name := s.pane.touchableSelection
  if name = [] then s
  else { s with edit := name, mode := .renaming, renameOf := some (s.pane.listing.path, name) }

/-- A name that was typed is given to the selection: the one there is now. -/
def commitRename : Files :=
  let from_ := s.pane.touchableSelection
  let s := { s with mode := .normal }
  if from_ = [] ∨ s.edit = [] ∨ s.edit = from_ then s
  else if kSlash ∈ s.edit then s.setStatus (text "un nom ne peut pas contenir de barre")
  else
    let src := joinPath s.pane.listing.path from_
    let dst := joinPath s.pane.listing.path s.edit
    if y.lstat dst then s.setStatus (text "ce nom est deja pris")
    else
      match y.rename with
      | some reason => s.setStatus (text "renommage impossible : " ++ reason)
      | none =>
          let s := ({ s with renamed := (src, dst) :: s.renamed }.setStatus []).reload y
          (s.setPane (s.pane.selectName s.edit)).settle

def beginCreate (dir : Bool) : Files := { s with creatingDir := dir, edit := [], mode := .creating }

def commitCreate : Files :=
  let name := s.edit
  let s := { s with mode := .normal, edit := [] }
  if name = [] then s
  else if kSlash ∈ name ∨ name = [0x2e] ∨ name = kParent then
    s.setStatus (text "nom invalide : " ++ name)
  else
    match y.create with
    | some reason => s.setStatus (text "creation impossible : " ++ reason)
    | none =>
        let target := joinPath s.pane.listing.path name
        let s := { s with created := (target, s.creatingDir) :: s.created }.reload y
        (s.setPane (s.pane.selectName name)).settle

def beginDelete : Files := if s.pane.targets = [] then s else { s with mode := .confirming }

def commitDelete : Files :=
  let victims := s.pane.targets
  let s := { s with mode := .normal }
  if victims = [] ∨ s.jobActive = true then s
  else (s.setStatus []).startJob (s.pane.paths victims) [] .delete

def takeClipboard (cut : Bool) : Files :=
  let names := s.pane.targets
  if names = [] then s
  else
    { s with clipboard := s.pane.paths names, clipboardCut := cut }.setStatus
      (decimal names.length ++ if cut then text " a deplacer" else text " a copier")

def pasteClipboard : Files :=
  if s.jobActive then s
  else if s.clipboard = [] then s.setStatus (text "rien a coller")
  else
    let s := s.startJob s.clipboard s.pane.listing.path (if s.clipboardCut then .move else .copy)
    if s.clipboardCut then { s with clipboard := [] } else s

/-- All, then none. -/
def selectAll : Files :=
  if s.pane.marked = [] then s.setPane (s.pane.markRange 0 (s.pane.visible.length - 1))
  else s.setPane { s.pane with marked := [] }

/-- The second pane opens where one is; what closes keeps the active one. -/
def toggleSplit : Files :=
  if s.split then
    { s with
      panes := if s.active = .second then Function.update s.panes .first (s.panes .second) else s.panes
      active := .first
      split := false }
  else
    { s with
      panes := Function.update s.panes .second { s.panes .first with marked := [] }
      split := true }

def toggleHidden : Files := { s with showHidden := !s.showHidden }.reload y

/-- The end of the job, with what it did. -/
def jobEnded (done failed : Nat) (error : Bytes) : Files :=
  let s := { s with
    jobActive := false
    jobDone := 0
    panes := fun i =>
      let probe := readDir y.readdir (s.panes i).listing.path s.showHidden
      if probe.error = [] then { s.panes i with listing := probe } else s.panes i }
  s.refilter.setStatus
    (if failed > 0 then
      decimal failed ++ text " sur " ++ decimal (done + failed) ++ text " ont echoue : " ++ error
    else [])

/-- A slice of the job: it goes on, or has ended. -/
def onRefresh (more : Bool) (done failed : Nat) (error : Bytes) : Files :=
  if s.jobActive = false then s
  else if more then { s with jobDone := done }
  else s.jobEnded y done failed error

def onResize (size : Size) : Files :=
  if size.w ≤ 0 ∨ size.h ≤ 0 then s else { s with size }.settle

/-! ### The menu -/

def menuItems : List MenuItem :=
  (if s.jobActive then [⟨.stopJob, text "Arreter le travail", text "Echap"⟩] else []) ++
  [⟨.open, text "Ouvrir", text "Entree"⟩,
    ⟨.newDir, text "Nouveau dossier", text "F7"⟩,
    ⟨.newFile, text "Nouveau fichier", text "Maj+F7"⟩,
    ⟨.rename, text "Renommer", text "F2"⟩,
    ⟨.delete, text "Supprimer", text "Suppr"⟩,
    ⟨.copy, text "Copier", text "Ctrl+C"⟩,
    ⟨.cut, text "Couper", text "Ctrl+X"⟩,
    ⟨.paste, text "Coller", text "Ctrl+V"⟩,
    ⟨.selectAll, text "Tout selectionner", text "Ctrl+A"⟩,
    ⟨.up, text "Dossier parent", text "Ret.arr."⟩,
    ⟨.back, text "Precedent", text "Alt+gauche"⟩,
    ⟨.forward, text "Suivant", text "Alt+droite"⟩,
    ⟨.split, text "Scinder la vue", text "F3"⟩,
    ⟨.places, text "Raccourcis", text "F9"⟩,
    ⟨.hidden, text "Fichiers caches", text "."⟩,
    ⟨.sortName, text "Trier par nom", text ""⟩,
    ⟨.sortSize, text "Trier par taille", text ""⟩,
    ⟨.sortTime, text "Trier par date", text ""⟩]

def openMenu (x y : Int) : Files :=
  let items := s.menuItems
  let widest := items.foldl (fun w it => max w (textCells it.label + 2 + textCells it.keys)) 0
  let w := min (max 1 s.size.w) (widest + 4)
  let h := min (max 1 s.size.h) (items.length + 2)
  { s with
    menuShown := items
    menuRect := ⟨min (max 0 x) (max 0 (s.size.w - w)), min (max 0 y) (max 0 (s.size.h - h)), w, h⟩
    menuOpen := true }

def runMenu (c : Cmd) : Files :=
  let s := { s with menuOpen := false }
  match c with
  | .open => s.activate y
  | .newDir => s.beginCreate true
  | .newFile => s.beginCreate false
  | .rename => s.beginRename
  | .delete => s.beginDelete
  | .copy => s.takeClipboard false
  | .cut => s.takeClipboard true
  | .paste => s.pasteClipboard
  | .selectAll => s.selectAll
  | .up => s.goUp y
  | .back => s.goBack y
  | .forward => s.goForward y
  | .split => s.toggleSplit
  | .places => { s with places := !s.places }
  | .hidden => s.toggleHidden y
  | .sortName => s.sortOn .name
  | .sortSize => s.sortOn .size
  | .sortTime => s.sortOn .time
  | .stopJob => s.stopJob y

/-! ### Keys -/

/-- A key while a name is typed. -/
def fieldKey (k : KeyEvent) : Files :=
  match k.key with
  | .enter => if s.mode = .creating then s.commitCreate y else s.commitRename y
  | .escape => { s with mode := .normal, edit := [] }
  | .backspace => { s with edit := s.edit.dropLast }
  | .char => if k.ch ≥ ' '.toNat then { s with edit := s.edit ++ encodeUtf8 k.ch } else s
  | _ => s

/-- Only a yes removes. -/
def confirmKey (k : KeyEvent) : Files :=
  if k.key = .char ∧
      (k.ch = 'o'.toNat ∨ k.ch = 'O'.toNat ∨ k.ch = 'y'.toNat ∨ k.ch = 'Y'.toNat) then
    s.commitDelete
  else { s with mode := .normal }

/-- The selection moves to a line, and what it leaves and finds is marked if it has to be. -/
def moveTo (marks : Bool) (i : Nat) : Files :=
  let p := if marks then s.pane.markRange s.pane.sel s.pane.sel else s.pane
  let p := { p with sel := i }
  let p := if marks then p.markRange p.sel p.sel else p
  s.setPane (p.settle s.rowsForList)

def lastLine : Nat := s.pane.visible.length - 1

/-- Take back the latest first: the job, the filter, the marks. -/
def escapeKey : Files :=
  if s.jobActive then s.stopJob y
  else if s.pane.filter ≠ [] then (s.setPane { s.pane with filter := [] }).refilter
  else s.setPane { s.pane with marked := [] }

def charKey (k : KeyEvent) : Files :=
  if k.ch = '.'.toNat ∧ s.pane.filter = [] then s.toggleHidden y
  else if k.ch ≥ ' '.toNat then
    (s.setPane { s.pane with filter := s.pane.filter ++ encodeUtf8 k.ch }).refilter
  else s

def listKey (k : KeyEvent) : Files :=
  let rows := s.rowsForList
  match k.key with
  | .up => s.moveTo k.mods.shift (s.pane.sel - 1)
  | .down => s.moveTo k.mods.shift (if s.pane.sel + 1 < s.pane.visible.length then s.pane.sel + 1 else s.pane.sel)
  | .pgUp => s.select (if s.pane.sel > rows then s.pane.sel - rows else 0)
  | .pgDn => s.select (min (s.pane.sel + rows) s.lastLine)
  | .home => s.select 0
  | .end => s.select s.lastLine
  | .enter => s.activate y
  | .f2 => s.beginRename
  | .f9 => { s with places := !s.places }
  | .f3 => s.toggleSplit
  | .tab => if s.split then { s with active := s.active.other } else s
  | .f7 => s.beginCreate (!k.mods.shift)
  | .delete => s.beginDelete
  | .escape => s.escapeKey y
  | .backspace =>
      if s.pane.filter ≠ [] then (s.setPane { s.pane with filter := s.pane.filter.dropLast }).refilter
      else s.goUp y
  | .char => s.charKey y k
  | _ => s

def onKey (k : KeyEvent) : Files :=
  if s.menuOpen then if k.key = .escape then { s with menuOpen := false } else s
  else if s.mode = .renaming ∨ s.mode = .creating then s.fieldKey y k
  else if s.mode = .confirming then s.confirmKey k
  else
    let ctrl : Bool := k.key = .char ∧ k.mods.ctrl = true
    if ctrl ∧ (k.ch = 'c'.toNat ∨ k.ch = 'C'.toNat) then s.takeClipboard false
    else if ctrl ∧ (k.ch = 'x'.toNat ∨ k.ch = 'X'.toNat) then s.takeClipboard true
    else if ctrl ∧ (k.ch = 'v'.toNat ∨ k.ch = 'V'.toNat) then s.pasteClipboard
    else if ctrl ∧ (k.ch = 'a'.toNat ∨ k.ch = 'A'.toNat) then s.selectAll
    else if k.key = .char ∧ k.ch = ' '.toNat ∧ s.pane.filter = [] then
      let p := s.pane.toggleMark s.pane.sel
      (s.setPane p).select (if p.sel + 1 < p.visible.length then p.sel + 1 else p.sel)
    else if k.mods.alt = true ∧ k.key = .left then s.goBack y
    else if k.mods.alt = true ∧ k.key = .right then s.goForward y
    else s.listKey y k

/-! ### The mouse -/

/-- The directories of the strip. -/
def shortcuts : List Bytes :=
  [text "/"] ++ (y.home.toList.filter fun p => p.head? = some kSlash) ++ [text "/tmp", text "/etc"]

/-- Where what is dropped goes, if anywhere; the pane under the pointer is active. -/
def dropTarget (e : MouseEvent) (sources : List Bytes) : Bytes :=
  let here := s.pane.listing.path
  let entry := if e.y - 2 ≥ 0 then s.pane.visible[s.pane.top + (e.y - 2).toNat]? else none
  let elsewhere := if sources.any fun src => parentPath src = here then [] else here
  match entry with
  | some entry =>
      if entry.kind = .dir then
        if entry.name = kParent then parentPath here
        else
          let target := joinPath here entry.name
          if target ∈ sources then [] else target
      else elsewhere
  | none => elsewhere

/-- What the menu shows at a place. -/
def menuAt (x y : Int) : Option MenuItem :=
  let row := y - s.menuRect.y - 1
  if x > s.menuRect.x ∧ x < s.menuRect.x + s.menuRect.w - 1 ∧ row ≥ 0 ∧ row < s.menuRect.h - 2 then
    s.menuShown[row.toNat]?
  else none

/-- The mouse while the menu is open. -/
def mouseMenu (m : MouseEvent) : Files :=
  if m.action ≠ .press then s
  else
    match s.menuAt m.x m.y with
    | some it => s.runMenu y it.cmd
    | none => { s with menuOpen := false }

/-- The mouse over the strip. -/
def mousePlaces (m : MouseEvent) : Files :=
  if m.action = .press ∧ m.y - 2 ≥ 0 then
    match (shortcuts y)[(m.y - 2).toNat]? with
    | some path => s.goTo y path
    | none => s
  else s

/-- The pointer moves while an entry is held. -/
def mouseDrag (m : MouseEvent) : Files :=
  if (m.x ≠ s.pressX ∨ m.y ≠ s.pressY) ∧ s.dragging = false then
    { s with drag := s.pane.paths s.pane.targets, dragging := !s.pane.targets.isEmpty }
  else s

/-- The button is released over a pane. -/
def mouseRelease (e : MouseEvent) : Files :=
  let taken := s.drag
  let was := s.dragging
  let s := { s with pressed := false, dragging := false, drag := [] }
  if was = false ∨ taken = [] then s
  else
    let dest := s.dropTarget e taken
    if dest = [] ∨ s.jobActive = true then s else s.startJob taken dest .move

/-- A press on the line of a list, which shows it. -/
def pressLine (m : MouseEvent) (hit : Nat) : Files :=
  if m.mods.ctrl then (s.setPane (s.pane.toggleMark hit)).select hit
  else if m.mods.shift then (s.setPane (s.pane.markRange s.pane.sel hit)).select hit
  else
    let s := { s with pressed := true, pressX := m.x, pressY := m.y }
    if hit = s.pane.sel then s.activate y else s.select hit

/-- A press on a pane; `e` is where in the pane, `m` where in the window. -/
def pressPane (m e : MouseEvent) : Files :=
  if e.y = 0 then
    match (pathSegments s.pane s.paneWidth).find? fun sg => sg.x ≤ e.x ∧ e.x < sg.x + sg.w with
    | some sg => s.goTo y sg.path
    | none => s
  else if e.y = 1 then
    let c := columns s.paneWidth
    if c.dateW > 0 ∧ e.x ≥ c.dateX then s.sortOn .time
    else if c.sizeW > 0 ∧ e.x ≥ c.sizeX then s.sortOn .size
    else s.sortOn .name
  else
    let row := e.y - 2
    let hit :=
      if row ≥ 0 ∧ row.toNat < s.rowsForList then s.pane.top + row.toNat else s.pane.visible.length
    if e.button = 2 then
      (if hit < s.pane.visible.length then s.select hit else s).openMenu m.x m.y
    else if hit < s.pane.visible.length then s.pressLine y m hit
    else s

/-- The mouse over a pane, which is active. -/
def mousePane (m e : MouseEvent) : Files :=
  if s.pressed = true ∧ e.action = .motion then s.mouseDrag m
  else
    match e.action with
    | .release => s.mouseRelease e
    | .wheelUp => s.select (if s.pane.sel > 3 then s.pane.sel - 3 else 0)
    | .wheelDown => s.select (min (s.pane.sel + 3) s.lastLine)
    | .press => s.pressPane y m e
    | .motion => s

/-- The pane a column of the window is in, and where in it: neither the strip nor a partition
is in one. -/
def paneAt (x : Int) : Option (Side × Int) :=
  if s.places = true ∧ x ≤ kPlacesWidth then none
  else
    let x := if s.places then x - kPlacesWidth - 1 else x
    if s.split then
      if x > s.paneWidth then some (.second, x - s.paneWidth - 1)
      else if x < s.paneWidth then some (.first, x)
      else none
    else some (s.active, x)

def onMouse (m : MouseEvent) : Files :=
  if s.menuOpen then s.mouseMenu y m
  else if s.places = true ∧ m.x < kPlacesWidth then s.mousePlaces y m
  else
    match s.paneAt m.x with
    | none => s
    | some (side, x) => { s with active := side }.mousePane y m { m with x := x }

/-- What happens to a file window. -/
inductive Event
  | key (y : Sys) (k : KeyEvent)
  | mouse (y : Sys) (m : MouseEvent)
  | resize (size : Size)
  | refresh (y : Sys) (more : Bool) (done failed : Nat) (error : Bytes)

def step : Event → Files
  | .key y k => s.onKey y k
  | .mouse y m => s.onMouse y m
  | .resize size => s.onResize size
  | .refresh y more done failed error => s.onRefresh y more done failed error

/-- A new window. -/
def start (path : Bytes) : Files :=
  ({ panes := Function.update (fun _ => {}) .first { listing := { path } } } : Files).reload y

end Files

end Sshos.Apps
