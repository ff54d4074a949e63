import Sshos.Common.Utf8
import Sshos.Input.Parser
import Sshos.Lib.Run
import Sshos.Render.Ink
import Sshos.Shell.ModalDraw
import Sshos.Shell.Panel
import Sshos.Wm.Cycle

/-!
# Sshos.Shell.Menu

The **launcher**: what is typed filters its entries, the arrows and the mouse designate one of
those that are left. It names the entry that was chosen, and the session knows what it means.
-/

namespace Sshos.Shell

open Sshos.Common (utf8Decode)
open Sshos.Input (Key KeyEvent)
open Sshos.Lib (Bytes)
open Sshos.Render (Border Rect Stroke Style View)

structure MenuItem where
  id : Bytes
  label : Bytes
  /-- It may be seen and do nothing. -/
  enabled : Bool := true
  deriving DecidableEq

inductive MenuHit
  | none | body | search
  | item (i : Nat)
  deriving DecidableEq

def lower (c : UInt8) : UInt8 := if 0x41 ≤ c ∧ c ≤ 0x5A then c - 0x41 + 0x61 else c

/-- The text begins with what is looked for, whatever the case. -/
def startsFold : (hay needle : Bytes) → Bool
  | _, [] => true
  | [], _ :: _ => false
  | h :: hay, n :: needle => lower h = lower n && startsFold hay needle

def containsFold (hay needle : Bytes) : Bool :=
  if needle = [] then true
  else if needle.length > hay.length then false
  else (List.range (hay.length - needle.length + 1)).any fun i => startsFold (hay.drop i) needle

structure Menu where
  isOpen : Bool := false
  /-- Where the pointer was, when it opened there. -/
  anchor : Option (Int × Int) := none
  query : Bytes := []
  extra : List MenuItem := []
  all : List MenuItem := []
  shown : List MenuItem := []
  sel : Int := 0
  rect : Rect := {}

def kMenuWidth : Int := 34
/-- The frame, what is typed, and a rule. -/
def kChrome : Int := 4

/-- The entries of the launcher itself. -/
def menuItems : List MenuItem :=
  (catalog.map fun e => { id := text "app:" ++ e.id, label := e.label }) ++
    [{ id := text "panel:top", label := text "Panneau : haut" },
      { id := text "panel:bottom", label := text "Panneau : bas" },
      { id := text "panel:left", label := text "Panneau : gauche" },
      { id := text "panel:right", label := text "Panneau : droite" },
      { id := text "wm:tile", label := text "Ranger les fenetres" },
      { id := text "session:detach", label := text "Quitter" },
      { id := text "session:quit", label := text "Fermer la session" }]

namespace Menu

variable (m : Menu)

def setExtraItems (items : List MenuItem) : Menu := { m with extra := items }

/-- The selection stays on an entry that is left. -/
def refilter : Menu :=
  let shown := m.all.filter fun it => containsFold it.label m.query
  { m with shown := shown, sel := max 0 (min m.sel ((shown.length : Int) - 1)) }

def «open» : Menu :=
  { m with isOpen := true, anchor := none, query := [], sel := 0, all := menuItems ++ m.extra }.refilter

def openAt (x y : Int) : Menu := { m.open with anchor := some (x, y) }

def close : Menu := { m with isOpen := false, query := [], shown := [], sel := 0 }

/-- The filter is ASCII. -/
def type (c : Nat) : Menu :=
  if c < 32 ∨ c > 126 then m else { m with query := m.query ++ [UInt8.ofNat c] }.refilter

def backspace : Menu :=
  if m.query = [] then m else { m with query := m.query.dropLast }.refilter

/-- The entries come round. -/
def move (delta : Int) : Menu :=
  if m.shown = [] then m
  else
    let n : Int := m.shown.length
    { m with sel := ((m.sel + delta).tmod n + n).tmod n }

def selected : Option MenuItem :=
  if ¬ m.isOpen ∨ m.shown = [] then none
  else if m.sel < 0 ∨ m.sel ≥ m.shown.length then none
  else m.shown[m.sel.toNat]?

/-! ### Where it is -/

def layoutRect (cols rows : Int) : Rect :=
  let want : Int := if m.shown = [] then m.all.length else m.shown.length
  let h := max (min (rows - 1) (want + kChrome)) (kChrome + 1)
  let w := min cols kMenuWidth
  match m.anchor with
  | some (x, y) =>
      let x := if x + w > cols then cols - w else x
      let y := if y + h > rows then rows - h else y
      { x := if x < 0 then 0 else x, y := if y < 0 then 0 else y, w := w, h := h }
  | none =>
      let y := rows - 1 - h
      { x := 0, y := if y < 0 then 0 else y, w := w, h := h }

def layout (cols rows : Int) : Menu := { m with rect := m.layoutRect cols rows }

/-- The entries there is room for. -/
def rowsForItems : Int := m.rect.h - kChrome

/-- The first that is seen: the list follows the selection. -/
def first : Int := if m.sel ≥ m.rowsForItems then m.sel - m.rowsForItems + 1 else 0

/-- The places of the entries that are seen, from the top. -/
def seen : List (Nat × MenuItem) :=
  (List.range m.rowsForItems.toNat).filterMap fun (i : Nat) =>
    (m.shown[(m.first + i).toNat]?).map fun item => (i, item)

/-- The frame, what was typed, and a rule. -/
def chromeStrokes (v : View) (th : DialogTheme) (b : Border) : List (Stroke MenuHit) :=
  let st : Style := { bg := th.modalBg, fg := th.modalFg }
  [{ owner := fun _ _ => .body, view := v, drawing := .fill m.rect st },
    { owner := fun _ _ => .body, view := v, drawing := .box m.rect b st }] ++
    if m.rect.w - 2 ≤ 0 then []
    else
      { owner := fun _ _ => .search, view := v
        drawing := .text (m.rect.x + 1) (m.rect.y + 1) (text "> " ++ m.query) st } ::
      (List.range (m.rect.w - 2).toNat).map fun (i : Nat) =>
        { owner := fun _ _ => .body, view := v
          drawing := .put (m.rect.x + 1 + i) (m.rect.y + 2) 0x2D st }

/-- The selection stands out even from what is grey. -/
def itemStroke (v : View) (th : DialogTheme) (p : Nat × MenuItem) : Stroke MenuHit :=
  let st : Style := { bg := th.modalBg, fg := th.modalFg }
  let hot : Style := { bg := th.accent, fg := th.modalBg }
  let dim : Style := { st with fg := th.borderBlur }
  { owner := fun _ _ => .item (m.first + p.1).toNat, view := v
    drawing := .text (m.rect.x + 1) (m.rect.y + 3 + p.1) p.2.label
      (if m.first + p.1 = m.sel then hot else if p.2.enabled then st else dim) }

def draw (v : View) (th : DialogTheme) (b : Border) : List (Stroke MenuHit) :=
  if ¬ m.isOpen then []
  else
    m.chromeStrokes v th b ++ if m.rect.w - 2 ≤ 0 then [] else m.seen.map (m.itemStroke v th)

def hit (x y : Int) : MenuHit :=
  if ¬ m.isOpen ∨ ¬ m.rect.contains x y then .none
  else if y = m.rect.y + 1 then .search
  else
    let row := y - (m.rect.y + 3)
    if row ≥ 0 ∧ row < m.rowsForItems ∧ m.first + row < m.shown.length then
      .item (m.first + row).toNat
    else .body

/-! ### The session -/

/-- `Session::menu_key`: the identifier to run, if the key chooses one. -/
def onKey (k : KeyEvent) : Menu × Option Bytes :=
  match k.key with
  | .escape => (m.close, none)
  | .enter =>
      match m.selected with
      | some it => (m.close, some it.id)
      | none => (m.close, none)
  | .up => (m.move (-1), none)
  | .down => (m.move 1, none)
  | .backspace => (m.backspace, none)
  | .char => (if k.mods.ctrl then m.close else m.type k.ch, none)
  | _ => (m, none)

/-- A press, while it is open. -/
def onPress (x y : Int) : Menu × Option Bytes :=
  match m.hit x y with
  | .item i =>
      match m.shown[i]? with
      | some it => (m.close, some it.id)
      | none => (m, none)
  | .none => (m.close, none)
  | _ => (m, none)

/-! ### Runs -/

/-- What happens to the menu. -/
inductive Input
  | «open»
  | openAt (x y : Int)
  | extra (items : List MenuItem)
  | key (k : KeyEvent)
  | press (x y : Int)
  | layout (cols rows : Int)

/-- It is given the keys and the presses while it is open. -/
def step (m : Menu) : Input → Menu
  | .open => m.open
  | .openAt x y => m.openAt x y
  | .extra items => m.setExtraItems items
  | .key k => if m.isOpen then (m.onKey k).1 else m
  | .press x y => if m.isOpen then (m.onPress x y).1 else m
  | .layout cols rows => m.layout cols rows

/-- What was typed since the menu opened, less what was taken back. -/
def typed (text : Bytes) : Input → Bytes
  | .open | .openAt .. => []
  | .key k =>
      match k.key with
      | .backspace => text.dropLast
      | .char => if k.mods.ctrl ∨ k.ch < 32 ∨ k.ch > 126 then text else text ++ [UInt8.ofNat k.ch]
      | _ => text
  | .extra _ | .press .. | .layout .. => text

/-- An entry matches what was typed when its label contains it, whatever the case. -/
def Matches (query : Bytes) (it : MenuItem) : Prop := query.map lower <:+: it.label.map lower

/-- **A menu in order.** -/
structure Sound (m : Menu) : Prop where
  shown : m.isOpen = true → m.shown = m.all.filter fun it => containsFold it.label m.query
  all : m.isOpen = true → menuItems <+: m.all
  closed : m.isOpen = false → m.shown = [] ∧ m.query = []
  sel : 0 ≤ m.sel ∧ m.sel < max 1 m.shown.length
  query : ∀ b ∈ m.query, 0x20 ≤ b ∧ b ≤ 0x7E

theorem startsFold_iff {hay needle : Bytes} :
    startsFold hay needle = true ↔ needle.map lower <+: hay.map lower := by
  induction needle generalizing hay with
  | nil => simp [startsFold]
  | cons n needle ih =>
      cases hay with
      | nil => simp [startsFold]
      | cons h hay =>
          rw [List.map_cons, List.map_cons, List.cons_prefix_cons, startsFold, Bool.and_eq_true,
            decide_eq_true_eq, ih, eq_comm]

/-- **The filter** finds what was typed anywhere in a label. -/
theorem containsFold_iff {hay needle : Bytes} :
    containsFold hay needle = true ↔ needle.map lower <:+: hay.map lower := by
  unfold containsFold
  split
  · next hnil => simp [hnil]
  split
  · next hlong =>
    refine iff_of_false Bool.false_ne_true fun hinfix => ?_
    have hle := hinfix.length_le
    rw [List.length_map, List.length_map] at hle
    omega
  next hshort =>
  rw [List.any_eq_true]
  constructor
  · rintro ⟨i, -, hstarts⟩
    have hprefix := startsFold_iff.1 hstarts
    rw [List.map_drop] at hprefix
    exact hprefix.isInfix.trans (List.drop_suffix i _).isInfix
  · rintro ⟨before, after, heq⟩
    have hlen := congrArg List.length heq
    simp only [List.length_append, List.length_map] at hlen
    refine ⟨before.length, List.mem_range.2 (by omega), startsFold_iff.2 ?_⟩
    rw [List.map_drop, ← heq, List.append_assoc, List.drop_left]
    exact List.prefix_append _ _

variable {m}

theorem Sound.refilter (hopen : m.isOpen = true) (hall : menuItems <+: m.all)
    (hquery : ∀ b ∈ m.query, 0x20 ≤ b ∧ b ≤ 0x7E) : m.refilter.Sound where
  shown _ := rfl
  all _ := hall
  closed h := absurd hopen (by simp [Menu.refilter] at h; simp [h])
  sel := by
    simp only [Menu.refilter]
    omega
  query := hquery

theorem sound_open (m : Menu) : m.open.Sound :=
  Sound.refilter rfl (List.prefix_append _ _) fun _ hb => absurd hb List.not_mem_nil

theorem sound_close (m : Menu) : m.close.Sound where
  shown := Bool.noConfusion
  all := Bool.noConfusion
  closed _ := ⟨rfl, rfl⟩
  sel := ⟨le_refl 0, by simp [Menu.close]⟩
  query := fun _ hb => absurd hb List.not_mem_nil

theorem Sound.congr (h : m.Sound) {m' : Menu} (hopen : m'.isOpen = m.isOpen) (hquery : m'.query = m.query)
    (hall : m'.all = m.all) (hshown : m'.shown = m.shown) (hsel : m'.sel = m.sel) : m'.Sound where
  shown ho := by rw [hshown, hall, hquery]; exact h.shown (hopen ▸ ho)
  all ho := by rw [hall]; exact h.all (hopen ▸ ho)
  closed ho := by rw [hshown, hquery]; exact h.closed (hopen ▸ ho)
  sel := by rw [hsel, hshown]; exact h.sel
  query := by rw [hquery]; exact h.query

theorem Sound.type (h : m.Sound) (hopen : m.isOpen = true) (c : Nat) : (m.type c).Sound := by
  unfold Menu.type
  split
  · exact h
  next hc =>
  refine Sound.refilter hopen (h.all hopen) fun b hb => ?_
  rcases List.mem_append.1 hb with hold | hnew
  · exact h.query b hold
  · rw [List.mem_singleton.1 hnew]
    have hle : 32 ≤ c ∧ c ≤ 126 := by omega
    have hbyte : (UInt8.ofNat c).toNat = c := UInt8.toNat_ofNat_of_lt' (show c < 256 by omega)
    rw [UInt8.le_iff_toNat_le, UInt8.le_iff_toNat_le, hbyte]
    exact hle

theorem Sound.backspace (h : m.Sound) (hopen : m.isOpen = true) : m.backspace.Sound := by
  unfold Menu.backspace
  split
  · exact h
  · exact Sound.refilter hopen (h.all hopen) fun b hb => h.query b (List.mem_of_mem_dropLast hb)

theorem Sound.move (h : m.Sound) (delta : Int) : (m.move delta).Sound := by
  unfold Menu.move
  split
  · exact h
  next hsome =>
  have hlen : 0 < (m.shown.length : Int) := Int.natCast_pos.2 (List.length_pos_iff.2 hsome)
  refine ⟨h.shown, h.all, h.closed, ?_, h.query⟩
  simp only [Wm.Desktop.tmod_wrap _ (List.length_pos_iff.2 hsome)]
  have hlo := Int.emod_nonneg (m.sel + delta) hlen.ne'
  have hhi := Int.emod_lt_of_pos (m.sel + delta) hlen
  omega

theorem Sound.onKey (h : m.Sound) (hopen : m.isOpen = true) (k : KeyEvent) : (m.onKey k).1.Sound := by
  unfold Menu.onKey
  split
  · exact sound_close m
  · split
    · exact sound_close m
    · exact sound_close m
  · exact h.move _
  · exact h.move _
  · exact h.backspace hopen
  · simp only
    split
    · exact sound_close m
    · exact h.type hopen _
  · exact h

theorem Sound.onPress (h : m.Sound) (x y : Int) : (m.onPress x y).1.Sound := by
  unfold Menu.onPress
  split
  · split
    · exact sound_close m
    · exact h
  · exact sound_close m
  · exact h

theorem Sound.step (h : m.Sound) (i : Input) : (m.step i).Sound := by
  cases i with
  | «open» => exact sound_open m
  | openAt x y => exact (sound_open m).congr rfl rfl rfl rfl rfl
  | extra items => exact h.congr rfl rfl rfl rfl rfl
  | layout cols rows => exact h.congr rfl rfl rfl rfl rfl
  | key k =>
      show (if m.isOpen then (m.onKey k).1 else m).Sound
      split
      · exact h.onKey ‹_› k
      · exact h
  | press x y =>
      show (if m.isOpen then (m.onPress x y).1 else m).Sound
      split
      · exact h.onPress x y
      · exact h

/-- **Every run** keeps the menu in order. -/
theorem sound_run (is : List Input) : (Lib.run Menu.step {} is).Sound :=
  Lib.run_preserves (fun _ i h => h.step i) ⟨Bool.noConfusion, Bool.noConfusion, fun _ => ⟨rfl, rfl⟩,
    ⟨le_refl 0, by simp⟩, fun _ hb => absurd hb List.not_mem_nil⟩ is

/-! ### On the screen -/

variable {cols rows : Nat}

theorem layoutRect_within (m : Menu) (cols : Nat) (hrows : 5 ≤ rows) :
    (m.layoutRect cols rows).Within { x := 0, y := 0, w := cols, h := rows } ∧
      5 ≤ (m.layoutRect cols rows).h ∧ (m.layoutRect cols rows).w = min (cols : Int) 34 := by
  unfold layoutRect kChrome kMenuWidth
  simp only
  generalize (if m.shown = [] then (m.all.length : Int) else m.shown.length) = want
  cases m.anchor with
  | none =>
      simp only [Rect.Within]
      refine ⟨⟨?_, ?_, ?_, ?_⟩, ?_, trivial⟩ <;> omega
  | some p =>
      obtain ⟨x, y⟩ := p
      simp only [Rect.Within]
      refine ⟨⟨?_, ?_, ?_, ?_⟩, ?_, trivial⟩
      all_goals grind

/-- The selection is among the rows that are seen. -/
theorem Sound.first_spec (h : m.Sound) (hrows : 1 ≤ m.rowsForItems) :
    0 ≤ m.first ∧ m.first ≤ m.sel ∧ m.sel < m.first + m.rowsForItems := by
  have hsel := h.sel.1
  unfold Menu.first
  split <;> omega

theorem mem_seen {i : Nat} {it : MenuItem} : (i, it) ∈ m.seen ↔
    (i : Int) < m.rowsForItems ∧ m.shown[(m.first + i).toNat]? = some it := by
  unfold seen
  rw [List.mem_filterMap]
  constructor
  · rintro ⟨j, hj, hsome⟩
    obtain ⟨it', hit, heq⟩ := Option.map_eq_some_iff.1 hsome
    obtain ⟨rfl, rfl⟩ := Prod.mk.inj heq
    rw [List.mem_range] at hj
    exact ⟨by omega, hit⟩
  · rintro ⟨hi, hit⟩
    exact ⟨i, List.mem_range.2 (by omega), by rw [hit]; rfl⟩

/-- What a place of the menu stands for. -/
theorem hit_item_iff {x y : Int} {i : Nat} : m.hit x y = .item i ↔
    m.isOpen = true ∧ m.rect.contains x y ∧ ∃ row : Nat, y = m.rect.y + 3 + row ∧
      (row : Int) < m.rowsForItems ∧ m.first + row < m.shown.length ∧ i = (m.first + row).toNat := by
  unfold hit
  constructor
  · intro h
    split at h
    · cases h
    next hin =>
    rw [not_or, not_not, not_not] at hin
    split at h
    · cases h
    simp only at h
    split at h
    · next hrow =>
      obtain rfl := MenuHit.item.inj h
      obtain ⟨row, hnat⟩ := Int.eq_ofNat_of_zero_le hrow.1
      exact ⟨hin.1, hin.2, row, by omega, by omega, by omega, by rw [hnat]⟩
    · cases h
  · rintro ⟨hopen, hin, row, rfl, hrow, hlt, rfl⟩
    have hout : ¬ (¬ m.isOpen = true ∨ ¬ m.rect.contains x (m.rect.y + 3 + row) = true) := by
      rw [not_or, not_not, not_not]
      exact ⟨hopen, hin⟩
    have hplace : m.rect.y + 3 + (row : Int) - (m.rect.y + 3) = row := by omega
    rw [if_neg hout, if_neg (by omega)]
    simp only [hplace]
    rw [if_pos ⟨by omega, hrow, hlt⟩]

/-- What is under the entries is none of them. -/
theorem chrome_owner {v : View} {th : DialogTheme} {b : Border} {k : Stroke MenuHit}
    (hk : k ∈ m.chromeStrokes v th b) (cx cy : Nat) :
    k.owner cx cy = .body ∨ k.owner cx cy = .search ∧
      ∀ w h, (cx, cy) ∈ k.ink false w h → (cy : Int) = v.clip.y + (m.rect.y + 1) := by
  unfold chromeStrokes at hk
  simp only at hk
  rcases List.mem_append.1 hk with hframe | hinner
  · simp only [List.mem_cons, List.not_mem_nil, or_false] at hframe
    rcases hframe with rfl | rfl
    · exact .inl rfl
    · exact .inl rfl
  · split at hinner
    · cases hinner
    · rcases List.mem_cons.1 hinner with rfl | hrule
      · exact .inr ⟨rfl, fun w h hink => (View.textInk_inside _ hink).1⟩
      · obtain ⟨i, -, rfl⟩ := List.mem_map.1 hrule
        exact .inl rfl

/-- An entry is painted on its row. -/
theorem itemStroke_row {th : DialogTheme} {p : Nat × MenuItem} {cx cy : Nat}
    (h : (cx, cy) ∈ (m.itemStroke (View.screen cols rows) th p).ink false cols rows) :
    (cy : Int) = m.rect.y + 3 + p.1 := by
  have hrow : (cy : Int) = 0 + (m.rect.y + 3 + p.1) := (View.textInk_inside _ h).1
  rwa [zero_add] at hrow

/-- Whoever paints a cell is an entry of that row, what is typed, or the frame. -/
theorem painted_cases {th : DialogTheme} {b : Border} {cx cy : Nat} {part : MenuHit}
    (h : Stroke.lastPainter false cols rows (m.draw (View.screen cols rows) th b) cx cy = some part) :
    m.isOpen = true ∧ (part = .body ∨ part = .search ∧ (cy : Int) = m.rect.y + 1 ∨
      ∃ p ∈ m.seen, part = .item (m.first + p.1).toNat ∧ (cy : Int) = m.rect.y + 3 + p.1) := by
  unfold draw at h
  split at h
  · cases h
  next hopen =>
  refine ⟨not_not.1 hopen, ?_⟩
  obtain ⟨k, hk, howner⟩ := Option.map_eq_some_iff.1 h
  have hink : (cx, cy) ∈ k.ink false cols rows := by simpa using List.find?_some hk
  rcases List.mem_append.1 (List.mem_reverse.1 (List.mem_of_find?_eq_some hk)) with hchrome | hitem
  · rcases chrome_owner hchrome cx cy with hbody | ⟨hsearch, hrow⟩
    · exact .inl (howner ▸ hbody)
    · have hrow := hrow cols rows hink
      simp only [View.screen, zero_add] at hrow
      exact .inr (.inl ⟨howner ▸ hsearch, hrow⟩)
  · split at hitem
    · cases hitem
    · obtain ⟨p, hp, rfl⟩ := List.mem_map.1 hitem
      exact .inr (.inr ⟨p, hp, howner.symm, itemStroke_row hink⟩)

/-- A label that begins with a printable character is seen. -/
theorem painted_label {th : DialogTheme} {b : Border} {p : Nat × MenuItem} (hopen : m.isOpen = true)
    (hrect : m.rect.Within { x := 0, y := 0, w := cols, h := rows }) (hwide : 3 ≤ m.rect.w)
    (hp : p ∈ m.seen) {c : UInt8} {rest : Bytes} (hlabel : p.2.label = c :: rest)
    (hc : Render.Printable c) {cx cy : Nat} (hcx : (cx : Int) = m.rect.x + 1)
    (hcy : (cy : Int) = m.rect.y + 3 + p.1) :
    Stroke.lastPainter false cols rows (m.draw (View.screen cols rows) th b) cx cy =
      some (.item (m.first + p.1).toNat) := by
  obtain ⟨i, it⟩ := p
  obtain ⟨hrow, -⟩ := mem_seen.1 hp
  obtain ⟨hx, hy, hright, hbottom⟩ := hrect
  simp only at hx hy hright hbottom hcx hcy hlabel
  unfold rowsForItems kChrome at hrow
  have hcols : cx < cols := by omega
  have hrows : cy < rows := by omega
  have hone : utf8Decode (c :: rest) 0 = utf8Decode [c] 0 := by
    have hascii : c.toNat < 0x80 := hc.2.trans (by decide)
    simp only [utf8Decode, List.getElem?_cons_zero, if_pos hascii]
  have hprintable := Render.utf8Decode_printable (s := [c]) (by simpa using hc) (i := 0) (by simp)
  have hink : (cx, cy) ∈ (m.itemStroke (View.screen cols rows) th (i, it)).ink false cols rows := by
    show (cx, cy) ∈ (View.screen cols rows).textInk false cols rows _ it.label it.label.length 0 _
    have hroom : ¬ m.rect.x + 1 + ((1 : Nat) : Int) > (View.screen cols rows).clip.w := by
      simp only [View.screen]
      omega
    rw [hlabel, List.length_cons, View.textInk, if_pos (by simp), hone]
    simp only [hprintable.2, Nat.one_ne_zero, if_false, if_neg hroom]
    exact List.mem_append_left _ ((View.mem_putInk_screen hcols hrows hprintable.2).2 ⟨hcx.symm, hcy.symm⟩)
  unfold draw
  rw [if_neg (not_not.2 hopen), if_neg (by omega)]
  refine Stroke.lastPainter_of_agree _ _ (List.mem_map_of_mem hp) hink fun k hk hkink => ?_
  obtain ⟨q, -, rfl⟩ := List.mem_map.1 hk
  have hsame := itemStroke_row hkink
  have hq : q.1 = i := by omega
  show MenuHit.item (m.first + q.1).toNat = .item (m.first + i).toNat
  rw [hq]

/-! ### What one sees is what is run -/

/-- **An open menu on a screen.** -/
structure Served (m : Menu) (text : Bytes) (cols rows : Nat) : Prop where
  frame : m.rect.Within { x := 0, y := 0, w := cols, h := rows }
  /-- Everything the launcher offers, but for what does not match what was typed. -/
  offered : menuItems <+: m.all
  query : m.query = text
  filtered : ∀ it, it ∈ m.shown ↔ it ∈ m.all ∧ Matches text it
  ordered : m.shown.Sublist m.all
  /-- There is a selection as soon as there is an entry; it is never scrolled away, and its row
  runs what `Enter` does. -/
  chosen : m.shown ≠ [] → ∃ it, m.shown[m.sel.toNat]? = some it ∧ m.onKey { key := .enter } = (m.close, some it.id) ∧
    ∃ y, m.rect.y + 3 ≤ y ∧ y < m.rect.y + m.rect.h - 1 ∧
      ∀ x, m.rect.x ≤ x → x < m.rect.x + m.rect.w → m.onPress x y = (m.close, some it.id)
  /-- The arrows lead to every entry. -/
  reached : ∀ (i : Nat) (it : MenuItem), m.shown[i]? = some it →
    ∃ n, ((Lib.run step m (List.replicate n (.key { key := .down }))).onKey { key := .enter }).2 = some it.id
  /-- The entries there is room for are seen, as soon as their labels are. -/
  legible : ∀ p ∈ m.seen, ∀ (c : UInt8) (rest : Bytes), p.2.label = c :: rest → Render.Printable c →
    ∀ (th : DialogTheme) (b : Border) (cx cy : Nat), (cx : Int) = m.rect.x + 1 →
      (cy : Int) = m.rect.y + 3 + p.1 →
      Stroke.lastPainter false cols rows (m.draw (View.screen cols rows) th b) cx cy =
        some (.item (m.first + p.1).toNat)
  /-- An entry one sees in the frame is the one a press runs. -/
  seen : ∀ (th : DialogTheme) (b : Border) (cx cy i : Nat), m.rect.contains cx cy →
    Stroke.lastPainter false cols rows (m.draw (View.screen cols rows) th b) cx cy = some (.item i) →
    ∃ it, m.shown[i]? = some it ∧ m.onPress cx cy = (m.close, some it.id)
  /-- What a press runs is an entry, and no other is seen there. -/
  pressed : ∀ (cx cy : Nat) (id : Bytes), (m.onPress cx cy).2 = some id →
    ∃ i it, m.shown[i]? = some it ∧ it.id = id ∧ ∀ (th : DialogTheme) (b : Border) part,
      Stroke.lastPainter false cols rows (m.draw (View.screen cols rows) th b) cx cy = some part →
        part = .item i ∨ part = .body

theorem onPress_item {x y : Int} {i : Nat} {it : MenuItem} (h : m.hit x y = .item i)
    (hit : m.shown[i]? = some it) : m.onPress x y = (m.close, some it.id) := by
  unfold onPress
  rw [h]
  simp only [hit]

theorem Sound.selected (h : m.Sound) (hopen : m.isOpen = true) (hsome : m.shown ≠ []) :
    ∃ it, m.shown[m.sel.toNat]? = some it ∧ m.selected = some it := by
  obtain ⟨hlo, hhi⟩ := h.sel
  have hlen := List.length_pos_iff.2 hsome
  have hlt : m.sel.toNat < m.shown.length := by omega
  refine ⟨m.shown[m.sel.toNat], List.getElem?_eq_getElem hlt, ?_⟩
  unfold Menu.selected
  rw [if_neg (by simp [hopen, hsome]), if_neg (by omega), List.getElem?_eq_getElem hlt]

theorem onKey_enter {it : MenuItem} (h : m.selected = some it) :
    m.onKey { key := .enter } = (m.close, some it.id) := by
  unfold onKey
  simp only [h]

/-- Some steps down the entries. -/
theorem run_down (hopen : m.isOpen = true) (hsome : m.shown ≠ []) (n : Nat) :
    ∃ sel, Lib.run step m (List.replicate n (.key { key := .down })) = { m with sel := sel } ∧
      sel % m.shown.length = (m.sel + n) % m.shown.length ∧ (0 < n → 0 ≤ sel ∧ sel < m.shown.length) := by
  have hlen := List.length_pos_iff.2 hsome
  induction n with
  | zero => exact ⟨m.sel, rfl, by simp, fun h => absurd h (lt_irrefl 0)⟩
  | succ n ih =>
      obtain ⟨sel, hrun, hsel, -⟩ := ih
      refine ⟨(sel + 1) % m.shown.length, ?_, ?_, fun _ => ⟨?_, ?_⟩⟩
      · rw [List.replicate_succ', Lib.run_append, hrun]
        show (if m.isOpen then (Menu.onKey { m with sel := sel } { key := .down }).1 else _) = _
        rw [if_pos hopen]
        show Menu.move { m with sel := sel } 1 = _
        unfold Menu.move
        rw [if_neg hsome]
        simp only [Wm.Desktop.tmod_wrap _ hlen]
      · rw [Int.emod_emod_of_dvd _ (dvd_refl _), ← Int.emod_add_emod, hsel, Int.emod_add_emod]
        push_cast
        rw [add_assoc]
      · exact Int.emod_nonneg _ (by omega)
      · exact Int.emod_lt_of_pos _ (by omega)

theorem served_of_sound (h : m.Sound) (hopen : m.isOpen = true)
    (hrect : m.rect.Within { x := 0, y := 0, w := cols, h := rows }) (hhigh : 5 ≤ m.rect.h)
    (hwide : 3 ≤ m.rect.w) : Served m m.query cols rows where
  query := rfl
  frame := hrect
  legible := fun _ hp _ _ hlabel hc _ _ _ _ hcx hcy => painted_label hopen hrect hwide hp hlabel hc hcx hcy
  offered := h.all hopen
  filtered := by
    intro it
    rw [h.shown hopen, List.mem_filter, containsFold_iff]
    exact Iff.rfl
  ordered := by
    rw [h.shown hopen]
    exact List.filter_sublist
  chosen := by
    intro hsome
    obtain ⟨it, hit, hselected⟩ := h.selected hopen hsome
    obtain ⟨hfirst, hle, hlt⟩ := h.first_spec (by unfold rowsForItems kChrome; omega)
    have hrows : m.rowsForItems = m.rect.h - 4 := rfl
    obtain ⟨hsel, hlen⟩ := h.sel
    have hpos := List.length_pos_iff.2 hsome
    refine ⟨it, hit, onKey_enter hselected, m.rect.y + 3 + (m.sel - m.first), by omega, by omega,
      fun x hx hright => ?_⟩
    refine onPress_item (hit_item_iff.2 ⟨hopen, ?_, (m.sel - m.first).toNat, by omega, by omega, by omega, ?_⟩) hit
    · rw [Rect.contains_iff]
      omega
    · rw [Int.toNat_of_nonneg (by omega)]
      congr 1
      omega
  reached := by
    intro i it hit
    obtain ⟨hi, -⟩ := List.getElem?_eq_some_iff.1 hit
    have hsome : m.shown ≠ [] := fun hnil => by simp [hnil] at hi
    obtain ⟨hsel, hlen⟩ := h.sel
    -- once round, and as far as the entry
    obtain ⟨sel, hrun, hsame, hrange⟩ := run_down hopen hsome (i + m.shown.length - m.sel).toNat
    obtain ⟨hlo, hhi⟩ := hrange (by omega)
    rw [Int.toNat_of_nonneg (by omega), Int.emod_eq_of_lt hlo hhi] at hsame
    have hplace : m.sel + ((i : Int) + m.shown.length - m.sel) = i + m.shown.length := by omega
    rw [hplace, Int.add_emod_right, Int.emod_eq_of_lt (by omega) (by omega)] at hsame
    subst hsame
    refine ⟨(i + m.shown.length - m.sel).toNat, ?_⟩
    have hselected : Menu.selected { m with sel := (i : Int) } = some it := by
      unfold Menu.selected
      rw [if_neg (by simp [hopen, hsome]), if_neg (by simp only; omega)]
      exact hit
    rw [hrun, onKey_enter hselected]
  seen := by
    intro th b cx cy i hin hpaint
    obtain ⟨-, hbody | ⟨hsearch, -⟩ | ⟨⟨row, it⟩, hp, hitem, hrow⟩⟩ := painted_cases hpaint
    · cases hbody
    · cases hsearch
    · obtain ⟨hlt, hit⟩ := mem_seen.1 hp
      obtain rfl := MenuHit.item.inj hitem
      obtain ⟨hi, -⟩ := List.getElem?_eq_some_iff.1 hit
      obtain ⟨hfirst, -, -⟩ := h.first_spec (by unfold rowsForItems kChrome; omega)
      refine ⟨it, hit, onPress_item (hit_item_iff.2 ⟨hopen, hin, row, hrow, hlt, ?_, rfl⟩) hit⟩
      omega
  pressed := by
    intro cx cy id hrun
    unfold onPress at hrun
    split at hrun
    · next i hhit =>
      split at hrun
      · next it hit =>
        refine ⟨i, it, hit, Option.some.inj hrun, fun th b part hpaint => ?_⟩
        obtain ⟨-, -, row, hrow, -, -, rfl⟩ := hit_item_iff.1 hhit
        obtain ⟨-, hbody | ⟨-, hsearch⟩ | ⟨p, -, hitem, hrow'⟩⟩ := painted_cases hpaint
        · exact .inr hbody
        · omega
        · have hsame : p.1 = row := by omega
          exact .inl (by rw [hitem, hsame])
      · cases hrun
    · cases hrun
    · cases hrun

/-! ### What was typed -/

@[simp] theorem move_query (m : Menu) (delta : Int) : (m.move delta).query = m.query := by
  unfold move
  split <;> rfl

theorem query_onKey (k : KeyEvent) (hopen : (m.onKey k).1.isOpen = true) :
    (m.onKey k).1.query = typed m.query (.key k) := by
  unfold onKey at hopen ⊢
  unfold typed
  cases hkey : k.key <;> simp only [hkey] at hopen ⊢
  case escape => cases hopen
  case enter => split at hopen <;> cases hopen
  case up => exact m.move_query _
  case down => exact m.move_query _
  case backspace =>
    unfold backspace
    split
    · next hnil => simp [hnil]
    · rfl
  case char =>
    cases hctrl : k.mods.ctrl with
    | true =>
        rw [hctrl] at hopen
        cases hopen
    | false =>
        simp only [Bool.false_eq_true, if_false, false_or]
        unfold type
        split <;> rfl

theorem query_onPress (x y : Int) (hopen : (m.onPress x y).1.isOpen = true) :
    (m.onPress x y).1.query = m.query := by
  unfold onPress at hopen ⊢
  split at hopen
  · split at hopen
    · cases hopen
    · rfl
  · cases hopen
  · rfl

/-- The field holds what was typed, while the menu is open. -/
theorem query_step {text : Bytes} (h : m.isOpen = true → m.query = text) (i : Input)
    (hopen : (m.step i).isOpen = true) : (m.step i).query = typed text i := by
  cases hwas : m.isOpen with
  | true =>
      obtain rfl := h hwas
      cases i with
      | «open» | openAt _ _ | extra _ | layout _ _ => rfl
      | key k =>
          have hstep : m.step (.key k) = (m.onKey k).1 := if_pos hwas
          rw [hstep] at hopen ⊢
          exact query_onKey k hopen
      | press x y =>
          have hstep : m.step (.press x y) = (m.onPress x y).1 := if_pos hwas
          rw [hstep] at hopen ⊢
          exact query_onPress x y hopen
  | false =>
      cases i with
      | «open» | openAt _ _ => rfl
      | extra _ | layout _ _ => exact absurd (hopen.symm.trans hwas) (by decide)
      | key k =>
          have hstep : m.step (.key k) = m := if_neg (by simp [hwas])
          rw [hstep, hwas] at hopen
          cases hopen
      | press x y =>
          have hstep : m.step (.press x y) = m := if_neg (by simp [hwas])
          rw [hstep, hwas] at hopen
          cases hopen

theorem query_run (is : List Input) (hopen : (Lib.run step ({} : Menu) is).isOpen = true) :
    (Lib.run step ({} : Menu) is).query = is.foldl typed [] := by
  induction is using List.reverseRecOn with
  | nil => cases hopen
  | append_singleton is i ih =>
      rw [Lib.run_append] at hopen ⊢
      rw [List.foldl_append]
      exact query_step ih i hopen

/-- **The launcher does what it shows.** Whatever opened it, and whatever was typed, moved and
clicked since, on any screen with room for an entry. -/
theorem menu_served (is : List Input) {cols rows : Nat} (hcols : 3 ≤ cols) (hrows : 5 ≤ rows)
    (hopen : (Lib.run step ({} : Menu) is).isOpen = true) :
    Served ((Lib.run step ({} : Menu) is).layout cols rows) (is.foldl typed []) cols rows := by
  obtain ⟨hrect, hhigh, hwidth⟩ := layoutRect_within (Lib.run step ({} : Menu) is) cols hrows
  have hwide : 3 ≤ ((Lib.run step ({} : Menu) is).layoutRect cols rows).w := by omega
  rw [← query_run is hopen]
  exact served_of_sound ((sound_run is).congr rfl rfl rfl rfl rfl) hopen hrect hhigh hwide

/-- Opened by a click near the corner of a small screen, and filtered. -/
theorem menu_served_corner :
    Served ((Lib.run step ({} : Menu) [.openAt 39 11, .key { key := .char, ch := 0x51 }]).layout 40 12) [0x51] 40 12 :=
  menu_served _ (by decide) (by decide) rfl

end Menu

end Sshos.Shell
