import Sshos.Render.Width
import Sshos.Wm.Decor

/-!
# Sshos.Shell.Panel

The **task bar**: an entry for each application of the catalogue and for each window that
comes from none of them, on one of the four edges of the screen.

The layout is computed once; what is painted and what a click meets are read from it.
-/

namespace Sshos.Shell

open Sshos.Lib (Bytes decimal)
open Sshos.Render (Rect Stroke Style View elideToCells textCells)
open Sshos.Wm (Desktop PanelEdge Size Theme Win WindowId WinMode)

/-! ### Text -/

def elide (s : Bytes) (cells : Int) (utf8 : Bool) : Bytes :=
  elideToCells s cells (if utf8 then [0xe2, 0x80, 0xa6] else [0x7e])

/-! ### The clock -/

/-- The local time, with the numbers of the C library. -/
structure Clock where
  hour : Fin 24
  minute : Fin 60
  wday : Fin 7
  mday : Fin 32
  mon : Fin 12

def twoDigits (n : Nat) : Bytes := if n < 10 then 0x30 :: decimal n else decimal n

/-- `%a`, in the C locale. -/
def weekday : List Bytes :=
  [[0x53, 0x75, 0x6e], [0x4d, 0x6f, 0x6e], [0x54, 0x75, 0x65], [0x57, 0x65, 0x64],
    [0x54, 0x68, 0x75], [0x46, 0x72, 0x69], [0x53, 0x61, 0x74]]

/-- `%b`, in the C locale. -/
def month : List Bytes :=
  [[0x4a, 0x61, 0x6e], [0x46, 0x65, 0x62], [0x4d, 0x61, 0x72], [0x41, 0x70, 0x72],
    [0x4d, 0x61, 0x79], [0x4a, 0x75, 0x6e], [0x4a, 0x75, 0x6c], [0x41, 0x75, 0x67],
    [0x53, 0x65, 0x70], [0x4f, 0x63, 0x74], [0x4e, 0x6f, 0x76], [0x44, 0x65, 0x63]]

def Clock.text (c : Clock) : Bytes := twoDigits c.hour ++ 0x3a :: twoDigits c.minute

def Clock.date (c : Clock) : Bytes :=
  weekday.getD c.wday [] ++ 0x20 :: twoDigits c.mday ++ 0x20 :: month.getD c.mon []

/-! ### The catalogue -/

structure CatalogEntry where
  id : Bytes
  label : Bytes
  /-- What the application made from it asks for. -/
  minSize : Size

def catalog : List CatalogEntry :=
  [{ id := [0x74, 0x65, 0x72, 0x6d, 0x69, 0x6e, 0x61, 0x6c]
     label := [0x54, 0x65, 0x72, 0x6d, 0x69, 0x6e, 0x61, 0x6c], minSize := ⟨20, 6⟩ },
    { id := [0x66, 0x69, 0x63, 0x68, 0x69, 0x65, 0x72, 0x73]
      label := [0x46, 0x69, 0x63, 0x68, 0x69, 0x65, 0x72, 0x73], minSize := ⟨24, 6⟩ },
    { id := [0x65, 0x64, 0x69, 0x74, 0x65, 0x75, 0x72]
      label := [0x45, 0x64, 0x69, 0x74, 0x65, 0x75, 0x72], minSize := ⟨24, 6⟩ }]

def catalogFind (id : Bytes) : Option CatalogEntry := catalog.find? fun e => e.id = id

/-! ### Entries -/

inductive PanelHit
  | none | body | menuButton | pinned | task | overflow | clock | hint | update
  deriving Repr, DecidableEq

structure PanelHitResult where
  what : PanelHit := .none
  index : Int := -1
  win : WindowId := 0
  deriving Repr, DecidableEq

/-- One application, open or not. -/
structure PanelEntry where
  catalogIndex : Int := -1
  label : Bytes := []
  /-- The window a click activates, 0 when nothing is open. -/
  target : WindowId := 0
  count : Nat := 0
  focused : Bool := false
  minimized : Bool := false

/-- Fill an entry from the windows that belong to it. A group that has the focus points to
its next window. -/
def PanelEntry.gather (e : PanelEntry) (d : Desktop) (belongs : Win → Bool) : PanelEntry :=
  let mine := d.stack.filter belongs
  let at' : Option Nat := (mine.zipIdx.filter fun p => p.1.id = d.focused).getLast?.map (·.2)
  match mine.getLast? with
  | none => { e with count := 0 }
  | some last =>
      { e with
        count := mine.length
        focused := at'.isSome
        minimized := mine.all fun w => w.app.mode = .minimized
        target :=
          match at' with
          | some i => (mine[(i + 1) % mine.length]?.map (·.id)).getD 0
          | none => last.id
        label := if mine.length = 1 ∧ last.app.title ≠ [] then last.app.title else e.label }

def buildEntries (d : Desktop) : List PanelEntry :=
  catalog.zipIdx.map (fun (c, i) =>
    PanelEntry.gather { catalogIndex := i, label := c.label } d fun w => w.app.appId = c.id) ++
  (d.stack.filter fun w => !catalog.any fun c => w.app.appId = c.id).map fun w =>
    PanelEntry.gather { label := w.app.title } d fun other => other.id = w.id

/-! ### The layout -/

/-- What the panel shows, and where. -/
structure Item where
  what : PanelHit := .body
  index : Int := -1
  win : WindowId := 0
  focused : Bool := false
  r : Rect := {}
  text : Bytes := []

structure Panel where
  edge : PanelEdge := .bottom
  rect : Rect := {}
  utf8 : Bool := false
  hint : Bytes := []
  updateBadge : Bool := false
  items : List Item := []

def kLabelCells : Int := 8
def kClockCells : Int := 5
def kVerticalCols : Int := 16

namespace Panel

variable (p : Panel)

def horizontal : Bool := p.edge = .top || p.edge = .bottom

def thickness : Int := if p.horizontal then 1 else kVerticalCols

def rectFor (cols rows : Int) : Rect :=
  match p.edge with
  | .top => { x := 0, y := 0, w := cols, h := 1 }
  | .bottom => { x := 0, y := rows - 1, w := cols, h := 1 }
  | .left => { x := 0, y := 0, w := kVerticalCols, h := rows }
  | .right => { x := cols - kVerticalCols, y := 0, w := kVerticalCols, h := rows }

def updateGlyph : Bytes := if p.utf8 then [0xe2, 0x86, 0x91] else [0x5e]

/-- The name of the project, after its glyph. -/
def menuText : Bytes :=
  if p.utf8 then [0xe2, 0x98, 0xb0, 0x20, 0x74, 0x65, 0x72, 0x6d, 0x6f, 0x73]
  else [0x74, 0x65, 0x72, 0x6d, 0x6f, 0x73]

/-- The mark says the state: minimized before active. -/
def markOf (e : PanelEntry) : Bytes :=
  if e.count = 0 then [0x20]
  else if e.minimized then [0x5f]
  else if e.focused then (if p.utf8 then [0xe2, 0x97, 0x8f] else [0x2a])
  else if p.utf8 then [0xe2, 0x97, 0x8b] else [0x6f]

def entryText (e : PanelEntry) (labelCells : Int) : Bytes :=
  p.markOf e ++ elide e.label labelCells p.utf8 ++
    if e.count > 1 then 0x28 :: decimal e.count ++ [0x29] else []

/-- What a click on an entry does: call back a window, or launch. -/
def entryItem (e : PanelEntry) (i : Nat) (r : Rect) (text : Bytes) : Item :=
  { what := if e.count > 0 then .task else .pinned
    index := if e.count > 0 then i else e.catalogIndex
    win := e.target
    focused := e.focused
    r := r
    text := text }

def overflowText (hidden : Nat) : Bytes := (if p.utf8 then [0xc2, 0xbb] else [0x3e]) ++ decimal hidden

/-- How many entries hold before `stop`. -/
def fits (entries : List PanelEntry) (x stop cells : Int) : Nat :=
  match entries with
  | [] => 0
  | e :: es =>
      let w : Int := textCells (p.entryText e cells)
      if x + w > stop then 0 else fits es (x + w + 1) stop cells + 1

/-- The labels stretch, as long as no entry is lost. -/
def stretch (entries : List PanelEntry) (x stop : Int) (shown : Nat) : (fuel : Nat) → (label : Int) → Int
  | 0, label => label
  | fuel + 1, label =>
      if p.fits entries x stop (label + 1) < shown then label
      else stretch entries x stop shown fuel (label + 1)

/-- The entries one after the other. -/
def placeEntries (y cells : Int) : (entries : List PanelEntry) → (i : Nat) → (x : Int) → List Item
  | [], _, _ => []
  | e :: es, i, x =>
      let text := p.entryText e cells
      let w : Int := textCells text
      entryItem e i { x := x, y := y, w := w, h := 1 } text ::
        placeEntries y cells es (i + 1) (x + w + 1)

def layoutHorizontal (d : Desktop) : List Item :=
  let y := p.rect.y
  let right := p.rect.x + p.rect.w
  let clockX := right - kClockCells - 1
  let clock : Item := { what := .clock, r := { x := clockX, y := y, w := kClockCells, h := 1 } }
  let clockLeft := if p.updateBadge then clockX - 2 else clockX
  let badge : List Item :=
    if p.updateBadge then
      [{ what := .update, r := { x := clockX - 2, y := y, w := 1, h := 1 }, text := p.updateGlyph }]
    else []
  let menuW : Int := textCells p.menuText
  let menu : Item :=
    { what := .menuButton, r := { x := p.rect.x + 1, y := y, w := menuW, h := 1 }, text := p.menuText }
  let startX := p.rect.x + 1 + menuW + 1
  let entries := buildEntries d
  let total := entries.length
  -- the reminder gives way as soon as it would cost an entry
  let hintW : Int := if p.hint = [] then 0 else textCells p.hint
  let showHint := hintW > 0 ∧ p.fits entries startX (clockLeft - 1 - hintW - 1) kLabelCells = total
  let stop := if showHint then clockLeft - 1 - hintW - 1 else clockLeft - 1
  let shown := p.fits entries startX stop kLabelCells
  let overW : Int := 1 + (decimal total).length
  let stop := if shown < total then clockLeft - 1 - overW - 1 else stop
  let shown := if shown < total then p.fits entries startX stop kLabelCells else shown
  let longest := entries.foldl (fun n e => max n (textCells e.label)) kLabelCells.toNat
  let cells := p.stretch entries startX stop shown (longest - kLabelCells.toNat) kLabelCells
  let hidden := total - shown
  let overflow : List Item :=
    if hidden > 0 then
      let w : Int := textCells (p.overflowText hidden)
      [{ what := .overflow, index := hidden, r := { x := clockLeft - 1 - w, y := y, w := w, h := 1 }
         text := p.overflowText hidden }]
    else []
  let hint : List Item :=
    if showHint then
      [{ what := .hint, r := { x := clockLeft - 1 - hintW, y := y, w := hintW, h := 1 }, text := p.hint }]
    else []
  clock :: badge ++ menu :: p.placeEntries y cells (entries.take shown) 0 startX ++ overflow ++ hint

/-- An entry takes a row. -/
def stackEntries (x w cells : Int) : (entries : List PanelEntry) → (i : Nat) → (y : Int) → List Item
  | [], _, _ => []
  | e :: es, i, y =>
      entryItem e i { x := x, y := y, w := w, h := 1 } (p.entryText e cells) ::
        stackEntries x w cells es (i + 1) (y + 1)

def layoutVertical (d : Desktop) : List Item :=
  let x := p.rect.x
  let w := p.rect.w
  let bottom := p.rect.y + p.rect.h
  let clockH : Int := if p.rect.h ≥ 3 then 2 else 1
  let clock : Item := { what := .clock, r := { x := x, y := bottom - clockH, w := w, h := clockH } }
  let badgeH : Int := if p.updateBadge ∧ p.rect.h ≥ clockH + 2 then 1 else 0
  let badge : List Item :=
    if badgeH > 0 then
      [{ what := .update, r := { x := x, y := bottom - clockH - 1, w := w, h := 1 }
         text := p.updateGlyph }]
    else []
  let menu : Item := { what := .menuButton, r := { x := x, y := p.rect.y, w := w, h := 1 }, text := p.menuText }
  let y := p.rect.y + 1
  let entries := buildEntries d
  let total := entries.length
  let room := max 0 (bottom - clockH - badgeH - y)
  let hintW : Int := if p.hint = [] then 0 else textCells p.hint
  let showHint := hintW > 0 ∧ hintW ≤ w ∧ total ≤ room - 1
  let room := if showHint then room - 1 else room
  let room := if total > room then max 0 (room - 1) else room
  let shown := min total room.toNat
  let hidden := total - shown
  let overflow : List Item :=
    if hidden > 0 then
      [{ what := .overflow, index := hidden, r := { x := x, y := y + shown, w := w, h := 1 }
         text := p.overflowText hidden }]
    else []
  let hint : List Item :=
    if showHint then
      [{ what := .hint, r := { x := x, y := bottom - clockH - badgeH - 1, w := w, h := 1 }
         text := p.hint }]
    else []
  clock :: badge ++ menu :: p.stackEntries x w (w - 2) (entries.take shown) 0 y ++ overflow ++ hint

def layout (d : Desktop) (cols rows : Int) (utf8 : Bool) : Panel :=
  let p := { p with utf8 := utf8, rect := p.rectFor cols rows }
  { p with items :=
      if p.rect.w ≤ 0 ∨ p.rect.h ≤ 0 then []
      else if p.horizontal then p.layoutHorizontal d
      else p.layoutVertical d }

def Item.result (it : Item) : PanelHitResult := { what := it.what, index := it.index, win := it.win }

/-- Every place of the panel belongs to it. -/
def hit (x y : Int) : PanelHitResult :=
  if !p.rect.contains x y then {}
  else
    match p.items.find? fun it => it.r.contains x y with
    | some it => Item.result it
    | none => { what := .body }

/-- What the panel shows at one of its places: the last item that was placed over it, or
nothing but itself. -/
def shown (x y : Int) : PanelHitResult :=
  match p.items.reverse.find? fun it => it.r.contains x y with
  | some it => Item.result it
  | none => { what := .body }

/-- A stroke for the background, on which each item has its own place, and the text of each. -/
def draw (v : View) (th : Theme) (clockText dateText : Bytes) : List (Stroke PanelHitResult) :=
  let base : Style := { bg := th.panelBg, fg := th.panelFg }
  let hot : Style := { base with fg := th.accent }
  { owner := fun x y => p.shown x y, view := v, drawing := .fill p.rect base } ::
    p.items.flatMap fun it =>
      let own (x y : Int) (text : Bytes) (st : Style) : Stroke PanelHitResult :=
        { owner := fun _ _ => Item.result it, view := v, drawing := .text x y text st }
      if it.what = .clock then
        if it.r.h ≥ 2 then
          [own (it.r.x + 1) it.r.y dateText base, own (it.r.x + 1) (it.r.y + 1) clockText base]
        else
          let pad := max 0 (kClockCells - textCells clockText)
          [own (it.r.x + pad) it.r.y clockText base]
      else
        let highlit := it.focused || it.what = .hint || it.what = .update
        [own it.r.x it.r.y it.text (if highlit then hot else base)]

end Panel

end Sshos.Shell
