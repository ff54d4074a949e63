import Sshos.Shell.Panel

/-!
# Sshos.Shell.PanelPlaces

Where the items of the panel are: **one beside the other**, on the panel, each with its text
in its own place. So the item that is seen at a place is the one a click there meets.
-/

namespace Sshos.Shell

open Sshos.Common (utf8Decode)
open Sshos.Lib (Bytes decimal decimal_of_le decimal_of_lt length_decimal_mono)
open Sshos.Render (Rect Stroke View charWidth elideToCells textCells textCells_append
  textCells_elideToCells textCells_le_length)
open Sshos.Wm (Desktop Theme Win WindowManager)

/-! ### The texts -/

section Texts

variable {d : Desktop} {e : PanelEntry} {p : Panel}

theorem length_decimal_le {n : Nat} (h : n < 100) : (decimal n).length ≤ 2 := by
  refine (length_decimal_mono (Nat.le_of_lt_succ h)).trans ?_
  rw [decimal_of_le (by decide), decimal_of_lt (by decide)]
  exact le_refl _

theorem textCells_elide (s : Bytes) {cells : Int} (hcells : 0 ≤ cells) (utf8 : Bool) :
    textCells (elide s cells utf8) ≤ cells := by
  refine textCells_elideToCells s cells hcells ?_
  cases utf8 <;> decide

theorem length_twoDigits {n : Nat} (h : n < 100) : (twoDigits n).length = 2 := by
  unfold twoDigits
  by_cases hn : n < 10
  · rw [if_pos hn, decimal_of_lt hn]
    rfl
  · rw [if_neg hn, decimal_of_le (by omega), decimal_of_lt (by omega)]
    rfl

theorem textCells_clock (c : Clock) : textCells c.text ≤ 5 := by
  refine (textCells_le_length _).trans ?_
  unfold Clock.text
  rw [List.length_append, List.length_cons, length_twoDigits (by omega), length_twoDigits (by omega)]

theorem textCells_date (c : Clock) : textCells c.date ≤ 10 := by
  have hday : ∀ i : Fin 7, (weekday.getD i []).length = 3 := by decide
  have hmonth : ∀ i : Fin 12, (month.getD i []).length = 3 := by decide
  refine (textCells_le_length _).trans ?_
  unfold Clock.date
  simp only [List.length_append, List.length_cons, hday, hmonth]
  rw [length_twoDigits (by omega)]

/-- A mark takes one column, and is read apart from what follows it. -/
theorem textCells_markOf_append (p : Panel) (e : PanelEntry) (s : Bytes) :
    textCells (p.markOf e ++ s) = 1 + textCells s := by
  have hmark : ∀ m ∈ [[0x20], [0x5f], [0x2a], [0x6f], [0xe2, 0x97, 0x8f], [0xe2, 0x97, 0x8b]],
      textCells (m ++ s) = 1 + textCells s := by
    intro m hm
    have hread : ∃ cp, charWidth false cp = 1 ∧ utf8Decode (m ++ s) 0 = (m.length, cp) := by
      simp only [List.mem_cons, List.not_mem_nil, or_false] at hm
      rcases hm with rfl | rfl | rfl | rfl | rfl | rfl
      · exact ⟨0x20, by decide +kernel, rfl⟩
      · exact ⟨0x5f, by decide +kernel, rfl⟩
      · exact ⟨0x2a, by decide +kernel, rfl⟩
      · exact ⟨0x6f, by decide +kernel, rfl⟩
      · refine ⟨0x25cf, by decide +kernel, ?_⟩
        simp [utf8Decode, Sshos.Common.utf8Continuations]
      · refine ⟨0x25cb, by decide +kernel, ?_⟩
        simp [utf8Decode, Sshos.Common.utf8Continuations]
    obtain ⟨cp, hone, hread⟩ := hread
    have hsome : m ≠ [] := by
      rintro rfl
      exact absurd hm (by decide)
    have hcells := textCells_append s hsome hread
    rw [hone] at hcells
    exact hcells
  refine hmark _ ?_
  unfold Panel.markOf
  repeat' split
  all_goals simp

theorem length_markOf (p : Panel) (e : PanelEntry) : (p.markOf e).length ≤ 3 := by
  unfold Panel.markOf
  repeat' split
  all_goals simp

/-! ### The entries -/

/-- A group is one of the catalogue, under its label. -/
def Grouped (e : PanelEntry) : Prop := e.count ≤ 1 ∨ (e.label.length ≤ 8 ∧ e.count < 100)

theorem count_gather (e : PanelEntry) (d : Desktop) (belongs : Win → Bool) :
    (e.gather d belongs).count = (d.stack.filter belongs).length := by
  unfold PanelEntry.gather
  simp only
  split
  next hnone =>
    rw [List.getLast?_eq_none_iff.1 hnone]
    rfl
  next => rfl

theorem label_gather (e : PanelEntry) (d : Desktop) (belongs : Win → Bool)
    (hmany : 1 < (e.gather d belongs).count) : (e.gather d belongs).label = e.label := by
  rw [count_gather] at hmany
  unfold PanelEntry.gather
  simp only
  split
  · rfl
  · have hno : ¬ ((d.stack.filter belongs).length = 1) := by omega
    simp only [hno, false_and, if_false]

/-- Whether the catalogue has the application of a window. -/
def listed (w : Win) : Bool := catalog.any fun c => w.app.appId = c.id

/-- A window that is not of the catalogue has a number of its own. -/
def OwnNumbers (d : Desktop) : Prop :=
  ∀ w ∈ d.stack, listed w = false → (d.stack.countP fun other => other.id = w.id) = 1

instance (d : Desktop) : Decidable (OwnNumbers d) := inferInstanceAs (Decidable (∀ w ∈ d.stack, _))

/-- A number stands for one window. -/
theorem ownNumbers_of_nodup (hids : (d.stack.map (·.id)).Nodup) : OwnNumbers d := by
  intro w hw _
  have hle := List.nodup_iff_count_le_one.1 hids w.id
  have hpos : 0 < d.stack.countP fun other => other.id = w.id :=
    List.countP_pos_iff.2 ⟨w, hw, decide_eq_true rfl⟩
  rw [List.count_eq_countP, List.countP_map] at hle
  have hsame : (d.stack.countP fun other => other.id = w.id) ≤ 1 := hle
  omega

theorem grouped_buildEntries (hown : OwnNumbers d)
    (hfew : d.stack.length ≤ WindowManager.kMaxWindows) : ∀ e ∈ buildEntries d, Grouped e := by
  have hlabels : ∀ c ∈ catalog, c.label.length ≤ 8 := by decide
  intro e he
  rcases List.mem_append.1 he with hknown | hother
  · obtain ⟨⟨c, i⟩, hc, rfl⟩ := List.mem_map.1 hknown
    obtain ⟨-, -, hget⟩ := List.mem_zipIdx hc
    by_cases hone : (PanelEntry.gather { catalogIndex := i, label := c.label } d
        fun w => w.app.appId = c.id).count ≤ 1
    · exact .inl hone
    · refine .inr ⟨?_, ?_⟩
      · rw [label_gather _ _ _ (Nat.lt_of_not_le hone)]
        exact hlabels c (hget ▸ List.getElem_mem _)
      · rw [count_gather]
        exact ((List.length_filter_le _ _).trans hfew).trans_lt (by decide)
  · obtain ⟨w, hw, rfl⟩ := List.mem_map.1 hother
    obtain ⟨hstack, hlisted⟩ := List.mem_filter.1 hw
    left
    rw [count_gather, ← List.countP_eq_length_filter]
    exact (hown w hstack (by simpa [listed] using hlisted)).le

theorem length_buildEntries (hfew : d.stack.length ≤ WindowManager.kMaxWindows) :
    3 ≤ (buildEntries d).length ∧ (buildEntries d).length < 100 := by
  have hcatalog : catalog.length = 3 := rfl
  unfold buildEntries
  rw [List.length_append, List.length_map, List.length_map, List.length_zipIdx, hcatalog]
  refine ⟨Nat.le_add_right _ _, ?_⟩
  exact (Nat.add_le_add_left ((List.length_filter_le _ _).trans hfew) 3).trans_lt (by decide)

/-- On a vertical edge an entry holds in its row. -/
theorem textCells_entryText (hgroup : Grouped e) : textCells (p.entryText e 14) ≤ 16 := by
  unfold Panel.entryText
  rcases hgroup with hone | ⟨hlabel, hcount⟩
  · rw [if_neg (Nat.not_lt.2 hone), List.append_nil]
    have hmark := textCells_markOf_append p e (elide e.label 14 p.utf8)
    have htext := textCells_elide e.label (show (0 : Int) ≤ 14 by decide) p.utf8
    omega
  · have hwhole : elide e.label 14 p.utf8 = e.label := by
      have hcells := textCells_le_length e.label
      unfold elide elideToCells
      rw [if_neg (by decide), if_pos (by omega)]
    have hbytes := textCells_le_length (p.markOf e ++ e.label ++
      if e.count > 1 then 0x28 :: decimal e.count ++ [0x29] else [])
    have hmark := length_markOf p e
    have hdigits := length_decimal_le hcount
    rw [hwhole]
    split at hbytes
    next =>
      simp only [List.length_append, List.length_cons, List.length_nil] at hbytes
      rename_i hmany
      rw [if_pos hmany]
      omega
    next =>
      simp only [List.length_append, List.length_nil] at hbytes
      rename_i hmany
      rw [if_neg hmany]
      omega

end Texts

/-! ### Places -/

/-- The one is beside the other. -/
def Item.Apart (a b : Item) : Prop :=
  a.r.x + a.r.w ≤ b.r.x ∨ b.r.x + b.r.w ≤ a.r.x ∨ a.r.y + a.r.h ≤ b.r.y ∨ b.r.y + b.r.h ≤ a.r.y

theorem Item.Apart.not_both {a b : Item} (h : a.Apart b) {x y : Int} (ha : a.r.contains x y) :
    ¬ b.r.contains x y := by
  rw [Rect.contains_iff] at *
  unfold Item.Apart at h
  omega

/-- Items one beside the other along an axis, between two of its points. -/
structure Between (near far : Item → Int) (good : Item → Prop) (lo hi : Int) (items : List Item) :
    Prop where
  apart : items.Pairwise Item.Apart
  places : ∀ it ∈ items, lo ≤ near it ∧ far it ≤ hi ∧ good it

section Between

variable {near far : Item → Int} {good : Item → Prop} {lo mid hi : Int} {items others : List Item}

theorem Between.optional {c : Prop} [Decidable c] {it : Item}
    (h : c → lo ≤ near it ∧ far it ≤ hi ∧ good it) :
    Between near far good lo hi (if c then [it] else []) := by
  split
  next hc =>
    refine ⟨List.pairwise_singleton _ _, fun it' hit' => ?_⟩
    rw [List.mem_singleton.1 hit']
    exact h hc
  next => exact ⟨List.Pairwise.nil, fun _ h => absurd h List.not_mem_nil⟩

theorem Between.single {it : Item} (h : lo ≤ near it ∧ far it ≤ hi ∧ good it) :
    Between near far good lo hi [it] :=
  Between.optional (c := True) fun _ => h

/-- Of two items that are never both there. -/
theorem Between.either {c c' : Prop} [Decidable c] [Decidable c'] {it it' : Item} (hno : c → ¬ c')
    (h : c → lo ≤ near it ∧ far it ≤ hi ∧ good it)
    (h' : c' → lo ≤ near it' ∧ far it' ≤ hi ∧ good it') :
    Between near far good lo hi ((if c then [it] else []) ++ if c' then [it'] else []) := by
  by_cases hc : c
  · rw [if_neg (hno hc), List.append_nil]
    exact Between.optional h
  · rw [if_neg hc, List.nil_append]
    exact Between.optional h'

theorem Between.append (hapart : ∀ a b, far a ≤ near b → a.Apart b)
    {m : Int} (h : Between near far good lo m items) (h' : Between near far good m hi others)
    (hlo : lo ≤ m) (hhi : m ≤ hi) : Between near far good lo hi (items ++ others) where
  apart := List.pairwise_append.2 ⟨h.apart, h'.apart, fun a ha b hb =>
    hapart a b ((h.places a ha).2.1.trans (h'.places b hb).1)⟩
  places := by
    intro it hit
    rcases List.mem_append.1 hit with hit | hit
    · obtain ⟨hnear, hfar, hgood⟩ := h.places it hit
      exact ⟨hnear, hfar.trans hhi, hgood⟩
    · obtain ⟨hnear, hfar, hgood⟩ := h'.places it hit
      exact ⟨hlo.trans hnear, hfar, hgood⟩

/-- The order in which they are listed does not matter. -/
theorem Between.swap (h : Between near far good lo hi (items ++ others)) :
    Between near far good lo hi (others ++ items) where
  apart := by
    have hsymm : ∀ {a b : Item}, a.Apart b → b.Apart a := by
      intro a b hab
      unfold Item.Apart at *
      omega
    exact (List.perm_append_comm.pairwise_iff hsymm).1 h.apart
  places := fun it hit => h.places it (List.perm_append_comm.mem_iff.1 hit)

end Between

/-- The place of an item is on the panel, and its text holds in it. -/
structure Item.Holds (it : Item) (rect : Rect) : Prop where
  what : it.what ≠ .none
  within : it.r.Within rect
  text : it.what ≠ .clock → textCells it.text ≤ it.r.w ∧ 1 ≤ it.r.h
  clock : it.what = .clock → (it.r.h ≥ 2 → 11 ≤ it.r.w) ∧ (it.r.h = 1 → it.r.w = kClockCells) ∧ 1 ≤ it.r.h

namespace Panel

variable {p : Panel} {entries : List PanelEntry}

theorem entryItem_what (e : PanelEntry) (i : Nat) (r : Rect) (text : Bytes) :
    (entryItem e i r text).what ≠ .clock ∧ (entryItem e i r text).what ≠ .none := by
  unfold entryItem
  simp only
  split <;> exact ⟨nofun, nofun⟩

theorem le_stop_of_fits {x stop cells : Int} (h : p.fits entries x stop cells ≠ 0) : x ≤ stop := by
  cases entries with
  | nil => exact absurd rfl h
  | cons e es =>
      unfold fits at h
      simp only at h
      split at h
      · exact absurd rfl h
      · omega

/-- The entries that hold before `stop` are placed there, one after the other. -/
theorem placeEntries_places {y stop cells : Int} : ∀ {entries : List PanelEntry} {n i : Nat} {x : Int},
    n ≤ p.fits entries x stop cells →
    (p.placeEntries y cells (entries.take n) i x).Pairwise Item.Apart ∧
    ∀ it ∈ p.placeEntries y cells (entries.take n) i x, x ≤ it.r.x ∧ it.r.x + it.r.w ≤ stop ∧
      it.r.y = y ∧ it.r.h = 1 ∧ (it.what ≠ .clock ∧ it.what ≠ .none) ∧
      textCells it.text = it.r.w := by
  intro entries
  induction entries with
  | nil =>
      intro n i x _
      simp [placeEntries]
  | cons e es ih =>
      intro n i x hn
      cases n with
      | zero => simp [placeEntries]
      | succ n =>
          unfold fits at hn
          simp only at hn
          split at hn
          · exact absurd hn (Nat.not_succ_le_zero n)
          next hroom =>
          obtain ⟨hapart, hplaces⟩ := ih (i := i + 1) (Nat.le_of_succ_le_succ hn)
          rw [List.take_succ_cons]
          unfold placeEntries
          simp only [List.pairwise_cons, List.forall_mem_cons]
          have hwhat := entryItem_what e i
            { x := x, y := y, w := (textCells (p.entryText e cells) : Int), h := 1 }
            (p.entryText e cells)
          refine ⟨⟨fun it hit => ?_, hapart⟩, ⟨le_refl _, ?_, rfl, rfl, hwhat, rfl⟩, fun it hit => ?_⟩
          · left
            have hnext := (hplaces it hit).1
            simp only [entryItem]
            omega
          · simp only [entryItem]
            omega
          · obtain ⟨hle, hrest⟩ := hplaces it hit
            exact ⟨by omega, hrest⟩

/-- Stretching the labels loses no entry. -/
theorem le_fits_stretch {x stop : Int} {shown : Nat} (fuel : Nat) : ∀ {label : Int},
    shown ≤ p.fits entries x stop label →
    shown ≤ p.fits entries x stop (p.stretch entries x stop shown fuel label) := by
  induction fuel with
  | zero => exact fun h => h
  | succ fuel ih =>
      intro label h
      unfold stretch
      split
      · exact h
      next hfits => exact ih (Nat.le_of_not_lt hfits)

theorem stackEntries_places {x w cells : Int} : ∀ {entries : List PanelEntry} {i : Nat} {y : Int},
    (∀ e ∈ entries, textCells (p.entryText e cells) ≤ w) →
    (p.stackEntries x w cells entries i y).Pairwise Item.Apart ∧
    ∀ it ∈ p.stackEntries x w cells entries i y, it.r.x = x ∧ it.r.w = w ∧ y ≤ it.r.y ∧
      it.r.y + it.r.h ≤ y + entries.length ∧ it.r.h = 1 ∧ (it.what ≠ .clock ∧ it.what ≠ .none) ∧
      textCells it.text ≤ it.r.w := by
  intro entries
  induction entries with
  | nil =>
      intro i y _
      simp [stackEntries]
  | cons e es ih =>
      intro i y htexts
      obtain ⟨hapart, hplaces⟩ := ih (i := i + 1) (y := y + 1)
        fun e' he' => htexts e' (List.mem_cons_of_mem _ he')
      unfold stackEntries
      simp only [List.pairwise_cons, List.forall_mem_cons, List.length_cons]
      have hwhat := entryItem_what e i { x := x, y := y, w := w, h := 1 } (p.entryText e cells)
      refine ⟨⟨fun it hit => ?_, hapart⟩, ⟨rfl, rfl, le_refl _, ?_, rfl, hwhat, ?_⟩, fun it hit => ?_⟩
      · right; right; left
        have hnext := (hplaces it hit).2.2.1
        simp only [entryItem]
        exact hnext
      · simp only [entryItem]
        push_cast
        omega
      · exact htexts e (List.mem_cons_self ..)
      · obtain ⟨hx, hw, hle, hend, hrest⟩ := hplaces it hit
        exact ⟨hx, hw, by omega, by push_cast; omega, hrest⟩

theorem textCells_menuText : textCells p.menuText ≤ 10 := by
  refine (textCells_le_length _).trans ?_
  unfold menuText
  split <;> decide

theorem textCells_hint (hint : Bytes) :
    (textCells hint : Int) ≤ if hint = [] then 0 else (textCells hint : Int) := by
  split
  next hnone =>
    rw [hnone]
    exact le_refl _
  next => exact le_refl _

theorem textCells_updateGlyph : textCells p.updateGlyph = 1 := by
  unfold updateGlyph
  split <;> decide +kernel

theorem textCells_overflowText (hidden : Nat) :
    textCells (p.overflowText hidden) ≤ 2 + (decimal hidden).length := by
  refine (textCells_le_length _).trans ?_
  unfold overflowText
  rw [List.length_append]
  split
  · exact le_refl _
  · exact Nat.add_le_add_right (by decide) _

/-- What a layout keeps: items one beside the other, each on the panel with its text. -/
structure Tidy (rect : Rect) (items : List Item) : Prop where
  apart : items.Pairwise Item.Apart
  holds : ∀ it ∈ items, it.Holds rect

/-- An item of a row. -/
def InRow (y : Int) (it : Item) : Prop :=
  it.what ≠ .none ∧ it.r.y = y ∧ it.r.h = 1 ∧
    if it.what = .clock then it.r.w = kClockCells else textCells it.text ≤ it.r.w

theorem tidy_of_row {rect : Rect} (hh : rect.h = 1) {items : List Item}
    (h : Between (·.r.x) (fun it => it.r.x + it.r.w) (InRow rect.y) rect.x (rect.x + rect.w) items) :
    Tidy rect items where
  apart := h.apart
  holds := by
    intro it hit
    obtain ⟨hnear, hfar, hsome, hy, hone, htext⟩ := h.places it hit
    refine ⟨hsome, ⟨hnear, hy.ge, hfar, by omega⟩, fun hwhat => ?_, fun hwhat => ?_⟩
    · rw [if_neg hwhat] at htext
      exact ⟨htext, hone.ge⟩
    · rw [if_pos hwhat] at htext
      exact ⟨fun htwo => by omega, fun _ => htext, hone.ge⟩

theorem Item.apart_of_aside (a b : Item) (h : a.r.x + a.r.w ≤ b.r.x) : a.Apart b := .inl h

theorem Item.apart_of_above (a b : Item) (h : a.r.y + a.r.h ≤ b.r.y) : a.Apart b :=
  .inr (.inr (.inl h))

/-- The entries of a row stay in the stretch they are measured for. -/
theorem entries_inRow {entries : List PanelEntry} {y cells x stop : Int} {n : Nat}
    (hfits : n ≤ p.fits entries x stop cells) :
    Between (·.r.x) (fun it : Item => it.r.x + it.r.w) (InRow y) x stop
      (p.placeEntries y cells (entries.take n) 0 x) := by
  obtain ⟨hapart, hplaces⟩ := placeEntries_places (p := p) (y := y) (i := 0) hfits
  refine ⟨hapart, fun it hit => ?_⟩
  obtain ⟨hnear, hfar, hy, hone, hwhat, htext⟩ := hplaces it hit
  exact ⟨hnear, hfar, hwhat.2, hy, hone, by rw [if_neg hwhat.1]; exact htext.le⟩

/-- The end of a row: the badge, if there is one, and the clock. -/
theorem clock_inRow {y clockX clockLeft right : Int} (hright : clockX + kClockCells ≤ right)
    (hleft : clockLeft = if p.updateBadge then clockX - 2 else clockX) :
    Between (·.r.x) (fun it : Item => it.r.x + it.r.w) (InRow y) clockLeft right
      ((if p.updateBadge then
          [{ what := .update, r := { x := clockX - 2, y := y, w := 1, h := 1 }, text := p.updateGlyph }]
        else []) ++
        [{ what := .clock, r := { x := clockX, y := y, w := kClockCells, h := 1 } }]) := by
  have hclockLeft : clockLeft ≤ clockX := by
    rw [hleft]
    split <;> omega
  refine Between.append Item.apart_of_aside (m := clockX) (Between.optional fun hb => ?_)
    (Between.single ⟨le_refl _, hright, nofun, rfl, rfl, rfl⟩) hclockLeft ?_
  · have hglyph := textCells_updateGlyph (p := p)
    rw [if_pos hb] at hleft
    exact ⟨hleft.le, by simp only; omega, nofun, rfl, rfl, by simp only [hglyph]; decide⟩
  · unfold kClockCells at hright
    omega

/-- **On a horizontal edge** the items follow one another along the row: the menu, the
entries, what reminds of those that are folded or of the leader, the badge and the clock. -/
theorem tidy_layoutHorizontal {d : Desktop} (hfew : d.stack.length ≤ WindowManager.kMaxWindows)
    (hx : p.rect.x = 0) (hw : 40 ≤ p.rect.w) (hh : p.rect.h = 1) :
    Tidy p.rect (p.layoutHorizontal d) := by
  obtain ⟨hsome, htotal⟩ := length_buildEntries hfew
  have hmenu := textCells_menuText (p := p)
  have hdigits := length_decimal_le htotal
  refine tidy_of_row hh ?_
  unfold layoutHorizontal
  extract_lets y right clockX clock clockLeft badge menuW menu startX entries total hintW showHint stop
    shown overW stop' shown' longest cells hidden overflowW overflow hint
  have hright : right = p.rect.w := by simp only [right, hx, zero_add]
  have hclockX : clockX = right - 6 := by
    simp only [clockX, kClockCells]
    omega
  have hbadge : (p.updateBadge = true ∧ clockLeft = clockX - 2) ∨
      (p.updateBadge = false ∧ clockLeft = clockX) := by
    simp only [clockLeft]
    cases p.updateBadge <;> simp
  have hstartX : startX = menuW + 2 := by
    simp only [startX, hx]
    omega
  have hmenuW : menuW = textCells p.menuText := rfl
  have hoverW : overW = 1 + (decimal total).length := rfl
  have hentries : total = (buildEntries d).length := rfl
  rw [← hentries] at hsome hdigits
  -- the reminder is there only if every entry holds before it
  have hhint : showHint → startX ≤ clockLeft - 1 - hintW - 1 ∧ shown = total := by
    intro hshow
    have hall : shown = total := by
      simp only [shown, stop, if_pos hshow]
      exact hshow.2
    refine ⟨@le_stop_of_fits p entries _ _ kLabelCells ?_, hall⟩
    rw [hshow.2]
    exact Nat.ne_of_gt (Nat.lt_of_lt_of_le (by decide) hsome)
  have hstop : (shown < total ∧ stop' = clockLeft - 1 - overW - 1) ∨
      (total ≤ shown ∧ showHint ∧ stop' = clockLeft - 1 - hintW - 1) ∨
      (total ≤ shown ∧ ¬ showHint ∧ stop' = clockLeft - 1) := by
    simp only [stop']
    by_cases hlt : shown < total
    · exact .inl ⟨hlt, if_pos hlt⟩
    · rw [if_neg hlt]
      by_cases hshow : showHint
      · exact .inr (.inl ⟨Nat.le_of_not_lt hlt, hshow, if_pos hshow⟩)
      · exact .inr (.inr ⟨Nat.le_of_not_lt hlt, hshow, if_neg hshow⟩)
  have hroom : startX ≤ stop' ∧ stop' ≤ clockLeft := by
    rcases hstop with ⟨-, heq⟩ | ⟨-, hshow, heq⟩ | ⟨-, -, heq⟩
    · omega
    · have := hhint hshow
      have := hshow.1
      omega
    · omega
  have hfits : shown' ≤ p.fits entries startX stop' cells := by
    refine le_fits_stretch _ ?_
    simp only [shown', stop']
    split
    · exact le_refl _
    · exact le_refl _
  have hplaced : Between (·.r.x) (fun it => it.r.x + it.r.w) (InRow p.rect.y) startX stop'
      (p.placeEntries y cells (entries.take shown') 0 startX) := entries_inRow hfits
  -- some entries are folded only if the reminder has given way
  have hlast : Between (·.r.x) (fun it => it.r.x + it.r.w) (InRow p.rect.y) stop' clockLeft
      (overflow ++ hint) := by
    have hfolded : hidden > 0 → shown < total := by
      intro hpos
      by_contra hno
      simp only [hidden, shown', if_neg hno] at hpos
      omega
    refine Between.either (fun hpos hshow => ?_) (fun hpos => ?_) fun hshow => ?_
    · exact absurd (hhint hshow).2 (Nat.ne_of_lt (hfolded hpos))
    · have hcells := textCells_overflowText (p := p) hidden
      have hmono := length_decimal_mono (show hidden ≤ total from Nat.sub_le _ _)
      have hlt := hfolded hpos
      have hW : overflowW = textCells (p.overflowText hidden) := rfl
      exact ⟨by simp only; omega, by simp only; omega, nofun, rfl, rfl, le_refl _⟩
    · have hall := (hhint hshow).2
      have htext : (textCells p.hint : Int) ≤ hintW := textCells_hint p.hint
      exact ⟨by simp only; omega, by simp only; omega, nofun, rfl, rfl, htext⟩
  have hclock : Between (·.r.x) (fun it => it.r.x + it.r.w) (InRow p.rect.y) clockLeft right
      (badge ++ [clock]) := clock_inRow (by rw [hclockX, kClockCells]; omega) rfl
  have hfirst : Between (·.r.x) (fun it => it.r.x + it.r.w) (InRow p.rect.y) 0 startX [menu] := by
    refine Between.single ⟨?_, ?_, nofun, rfl, rfl, le_refl _⟩
    · simp only [menu]
      omega
    · simp only [menu]
      omega
  have hupto := Between.append Item.apart_of_aside hfirst hplaced (by omega) hroom.1
  have htasks := Between.append Item.apart_of_aside hupto hlast (by omega) hroom.2
  have hall := Between.append Item.apart_of_aside htasks hclock.swap (by omega) (by omega)
  rw [hx, zero_add, ← hright]
  simpa using hall.swap

/-- An item of a column. -/
def InColumn (x : Int) (it : Item) : Prop :=
  it.what ≠ .none ∧ it.r.x = x ∧ it.r.w = 16 ∧
    if it.what = .clock then it.r.h = 2 else it.r.h = 1 ∧ textCells it.text ≤ 16

theorem tidy_of_column {rect : Rect} (hw : rect.w = 16) {items : List Item}
    (h : Between (·.r.y) (fun it => it.r.y + it.r.h) (InColumn rect.x) rect.y (rect.y + rect.h) items) :
    Tidy rect items where
  apart := h.apart
  holds := by
    intro it hit
    obtain ⟨hnear, hfar, hsome, hx, hwide, htext⟩ := h.places it hit
    refine ⟨hsome, ⟨hx.ge, hnear, by omega, hfar⟩, fun hwhat => ?_, fun hwhat => ?_⟩
    · rw [if_neg hwhat] at htext
      exact ⟨by omega, htext.1.ge⟩
    · rw [if_pos hwhat] at htext
      exact ⟨fun _ => by omega, fun hone => by omega, by omega⟩

/-- The entries of a column, one a row. -/
theorem entries_inColumn {entries : List PanelEntry} {x y : Int} {n : Nat}
    (hrows : ∀ e ∈ entries.take n, textCells (p.entryText e 14) ≤ 16) :
    Between (·.r.y) (fun it : Item => it.r.y + it.r.h) (InColumn x) y (y + n)
      (p.stackEntries x 16 14 (entries.take n) 0 y) := by
  have hcells : ∀ e ∈ entries.take n, (textCells (p.entryText e 14) : Int) ≤ 16 := fun e he => by
    exact_mod_cast hrows e he
  obtain ⟨hapart, hplaces⟩ := stackEntries_places (p := p) (x := x) (i := 0) (y := y) hcells
  refine ⟨hapart, fun it hit => ?_⟩
  obtain ⟨hx, hwide, hnear, hfar, hone, hwhat, htext⟩ := hplaces it hit
  have hlen : (entries.take n).length ≤ n := List.length_take_le _ _
  refine ⟨hnear, by omega, hwhat.2, hx, hwide, ?_⟩
  rw [if_neg hwhat.1]
  exact ⟨hone, by omega⟩

/-- The foot of a column: the badge, if it has a row, and the two rows of the clock. -/
theorem clock_inColumn {x bottom badgeH : Int} (hbadge : 0 ≤ badgeH) :
    Between (·.r.y) (fun it : Item => it.r.y + it.r.h) (InColumn x) (bottom - 2 - badgeH) bottom
      ((if badgeH > 0 then
          [{ what := .update, r := { x := x, y := bottom - 2 - 1, w := 16, h := 1 }
             text := p.updateGlyph }]
        else []) ++
        [{ what := .clock, r := { x := x, y := bottom - 2, w := 16, h := 2 } }]) := by
  refine Between.append Item.apart_of_above (m := bottom - 2) (Between.optional fun hb => ?_)
    (Between.single ⟨le_refl _, ?_, nofun, rfl, rfl, rfl⟩) (by omega) (by omega)
  · have hglyph := textCells_updateGlyph (p := p)
    exact ⟨by simp only; omega, by simp only; omega, nofun, rfl, rfl, rfl, by simp only [hglyph]; decide⟩
  · simp only
    omega

/-- **On a vertical edge** each has its row: the menu, the entries, what reminds of those that
are folded or of the leader, the badge and the clock. -/
theorem tidy_layoutVertical {d : Desktop} (hgroups : ∀ e ∈ buildEntries d, Grouped e)
    (hfew : d.stack.length ≤ WindowManager.kMaxWindows) (hy : p.rect.y = 0) (hw : p.rect.w = 16)
    (hh : 12 ≤ p.rect.h) : Tidy p.rect (p.layoutVertical d) := by
  have htexts : ∀ e ∈ buildEntries d, textCells (p.entryText e 14) ≤ 16 := fun e he =>
    textCells_entryText (hgroups e he)
  obtain ⟨hsome, htotal⟩ := length_buildEntries hfew
  refine tidy_of_column hw ?_
  unfold layoutVertical
  extract_lets x w bottom clockH clock badgeH badge menu y entries total room hintW showHint room'
    room'' shown hidden overflow hint
  have hbottom : bottom = p.rect.h := by simp only [bottom, hy, zero_add]
  have hclockH : clockH = 2 := if_pos (by omega)
  have hbadgeH : (p.updateBadge = true ∧ badgeH = 1) ∨ (p.updateBadge = false ∧ badgeH = 0) := by
    simp only [badgeH]
    cases hb : p.updateBadge
    · simp
    · left
      exact ⟨rfl, if_pos ⟨rfl, by omega⟩⟩
  have hroom : room = bottom - clockH - badgeH - y := max_eq_right (by simp only [y]; omega)
  have hy' : y = 1 := by simp only [y, hy, zero_add]
  have hroom' : (showHint ∧ room' = room - 1) ∨ (¬ showHint ∧ room' = room) := by
    simp only [room']
    by_cases hshow : showHint
    · exact .inl ⟨hshow, if_pos hshow⟩
    · exact .inr ⟨hshow, if_neg hshow⟩
  have hshown : (hidden = 0 ∧ (shown : Int) ≤ room') ∨ (¬ showHint ∧ (shown : Int) = room' - 1) := by
    by_cases hfolds : (total : Int) > room'
    · right
      have heq : room'' = max 0 (room' - 1) := if_pos hfolds
      refine ⟨fun hshow => ?_, ?_⟩
      · have := hshow.2.2
        omega
      · simp only [shown]
        omega
    · left
      have heq : room'' = room' := if_neg hfolds
      simp only [hidden, shown]
      omega
  have hw' : w = 16 := hw
  have hplaced : Between (·.r.y) (fun it => it.r.y + it.r.h) (InColumn p.rect.x) y (y + shown)
      (p.stackEntries x w (w - 2) (entries.take shown) 0 y) := by
    rw [hw']
    exact entries_inColumn fun e he => htexts e (List.mem_of_mem_take he)
  have hlast : Between (·.r.y) (fun it => it.r.y + it.r.h) (InColumn p.rect.x) (y + shown)
      (bottom - clockH - badgeH) (overflow ++ hint) := by
    refine Between.either (fun hpos hshow => ?_) (fun hpos => ?_) fun hshow => ?_
    · rcases hshown with ⟨hnone, -⟩ | ⟨hno, -⟩
      · omega
      · exact hno hshow
    · have hcells := textCells_overflowText (p := p) hidden
      have hdigits := length_decimal_le (n := hidden) ((Nat.sub_le total shown).trans_lt htotal)
      exact ⟨le_refl _, by simp only; omega, nofun, rfl, hw, rfl, by simp only; omega⟩
    · have hfits := hshow.2.1
      have htext : (textCells p.hint : Int) ≤ hintW := textCells_hint p.hint
      exact ⟨by simp only; omega, by simp only; omega, nofun, rfl, hw, rfl, by simp only; omega⟩
  have hclock : Between (·.r.y) (fun it => it.r.y + it.r.h) (InColumn p.rect.x)
      (bottom - clockH - badgeH) bottom (badge ++ [clock]) := by
    have h := @clock_inColumn p x bottom badgeH (by omega)
    simp only [badge, clock, hclockH, hw']
    exact h
  have hfirst : Between (·.r.y) (fun it => it.r.y + it.r.h) (InColumn p.rect.x) 0 y [menu] := by
    have hmenu := textCells_menuText (p := p)
    exact Between.single ⟨hy.ge, by simp only [menu]; omega, nofun, rfl, hw, rfl, by simp only [menu]; omega⟩
  have hupto := Between.append Item.apart_of_above hfirst hplaced (by omega) (by omega)
  have htasks := Between.append Item.apart_of_above hupto hlast (by omega) (by omega)
  have hall := Between.append Item.apart_of_above htasks hclock.swap (by omega) (by omega)
  rw [hy, zero_add, ← hbottom]
  simpa using hall.swap

/-- The panel on a screen, before its items. -/
def placed (p : Panel) (cols rows : Int) (utf8 : Bool) : Panel :=
  { p with utf8 := utf8, rect := p.rectFor cols rows }

theorem rectFor_cases (p : Panel) (cols rows : Int) :
    (p.horizontal = true ∧ (p.rectFor cols rows).x = 0 ∧ (p.rectFor cols rows).w = cols ∧
      (p.rectFor cols rows).h = 1) ∨
    (p.horizontal = false ∧ (p.rectFor cols rows).y = 0 ∧ (p.rectFor cols rows).w = 16 ∧
      (p.rectFor cols rows).h = rows) := by
  unfold rectFor horizontal
  cases p.edge <;> simp [kVerticalCols]

theorem layout_eq (p : Panel) (d : Desktop) {cols rows : Int} (hcols : 40 ≤ cols) (hrows : 12 ≤ rows)
    (utf8 : Bool) : p.layout d cols rows utf8 =
      { p.placed cols rows utf8 with items :=
          if p.horizontal then (p.placed cols rows utf8).layoutHorizontal d
          else (p.placed cols rows utf8).layoutVertical d } := by
  have hsome : ¬ ((p.rectFor cols rows).w ≤ 0 ∨ (p.rectFor cols rows).h ≤ 0) := by
    have := p.rectFor_cases cols rows
    omega
  unfold layout
  simp only [if_neg hsome]
  rfl

/-- **The layout is tidy** on a screen of a decent size, whatever the edge. -/
theorem tidy_layout {d : Desktop} (hgroups : ∀ e ∈ buildEntries d, Grouped e)
    (hfew : d.stack.length ≤ WindowManager.kMaxWindows) {cols rows : Int} (hcols : 40 ≤ cols)
    (hrows : 12 ≤ rows) (utf8 : Bool) :
    Tidy (p.layout d cols rows utf8).rect (p.layout d cols rows utf8).items := by
  rw [layout_eq p d hcols hrows]
  obtain ⟨hhor, hx, hw, hh⟩ | ⟨hver, hy, hw, hh⟩ := p.rectFor_cases cols rows
  · simp only [hhor, if_true]
    exact tidy_layoutHorizontal (p := p.placed cols rows utf8) hfew hx (hcols.trans_eq hw.symm) hh
  · simp only [hver, Bool.false_eq_true, if_false]
    exact tidy_layoutVertical (p := p.placed cols rows utf8) hgroups hfew hy hw
      (hrows.trans_eq hh.symm)

/-! ### What is seen of the panel is what a click meets -/

variable {rect : Rect} {cols rows x y : Nat}

/-- At most one item is at a place, whether one looks for the first or for the last. -/
theorem find_eq_of_tidy {items : List Item} (h : Tidy rect items) {it : Item} (hit : it ∈ items)
    (hin : it.r.contains x y) :
    (items.find? fun it => it.r.contains x y) = some it ∧
    (items.reverse.find? fun it => it.r.contains x y) = some it := by
  obtain ⟨before, after, rfl⟩ := List.append_of_mem hit
  obtain ⟨-, hafter, hcross⟩ := List.pairwise_append.1 h.apart
  have hbefore : ∀ b ∈ before, ¬ b.r.contains x y := fun b hb hb' =>
    (hcross b hb it (List.mem_cons_self ..)).not_both hb' hin
  have hafter' : ∀ a ∈ after, ¬ a.r.contains x y := fun a ha =>
    ((List.pairwise_cons.1 hafter).1 a ha).not_both hin
  constructor
  · rw [List.find?_append, List.find?_eq_none.2 hbefore, Option.none_or]
    exact List.find?_cons_of_pos hin
  · rw [List.reverse_append, List.reverse_cons, List.append_assoc, List.find?_append,
      List.find?_eq_none.2 fun a ha => hafter' a (List.mem_reverse.1 ha), Option.none_or]
    exact List.find?_cons_of_pos hin

theorem shown_eq_hit (h : Tidy p.rect p.items) (hin : p.rect.contains x y) :
    p.shown x y = p.hit x y := by
  unfold shown hit
  simp only [hin, Bool.not_true, Bool.false_eq_true, if_false]
  cases hfind : p.items.find? fun it => it.r.contains x y with
  | none =>
      have hnone := List.find?_eq_none.1 hfind
      rw [List.find?_eq_none.2 fun it hit => hnone it (List.mem_reverse.1 hit)]
  | some it =>
      have hit := List.find?_some hfind
      rw [(find_eq_of_tidy h (List.mem_of_find?_eq_some hfind) hit).2]

/-- The text of an item stays in its place. -/
theorem contains_of_text {it : Item} {tx ty : Int} {text : Bytes}
    (hx : it.r.x ≤ tx) (hw : tx + textCells text ≤ it.r.x + it.r.w) (hy : it.r.y ≤ ty)
    (hh : ty < it.r.y + it.r.h)
    (hink : (x, y) ∈ (View.screen cols rows).textInk false cols rows ty text text.length 0 tx) :
    it.r.contains x y := by
  have hin := View.textInk_inside _ hink
  simp only [View.screen, zero_add] at hin
  have hcells : textCells text = Sshos.Render.cellsFrom text text.length 0 := rfl
  rw [Rect.contains_iff]
  omega

variable {th : Theme} {clockText dateText : Bytes}

/-- What is painted over the ground of the panel is the text of an item, in its place. -/
theorem item_of_draw (h : Tidy p.rect p.items) (hclock : textCells clockText ≤ 5)
    (hdate : textCells dateText ≤ 10) :
    ∀ l ∈ (p.draw (View.screen cols rows) th clockText dateText).tail,
      (x, y) ∈ l.ink false cols rows →
      ∃ it ∈ p.items, it.r.contains x y ∧ l.owner x y = Item.result it := by
  intro l hl hink
  obtain ⟨it, hit, hl⟩ := List.mem_flatMap.1 hl
  refine ⟨it, hit, ?_⟩
  obtain ⟨-, -, htext, hplace⟩ := h.holds it hit
  by_cases hwhat : it.what = .clock
  · obtain ⟨htwo, hone, hpos⟩ := hplace hwhat
    simp only [if_pos hwhat] at hl
    split at hl
    next hhigh =>
      have hwide := htwo hhigh
      simp only [List.mem_cons, List.not_mem_nil, or_false] at hl
      rcases hl with rfl | rfl
      · exact ⟨contains_of_text (by omega) (by omega) (by omega) (by omega) hink, rfl⟩
      · exact ⟨contains_of_text (by omega) (by omega) (by omega) (by omega) hink, rfl⟩
    next hlow =>
      have hwide := hone (by omega)
      unfold kClockCells at hwide hl
      obtain rfl := List.mem_singleton.1 hl
      exact ⟨contains_of_text (by omega) (by omega) (by omega) (by omega) hink, rfl⟩
  · obtain ⟨hcells, hpos⟩ := htext hwhat
    simp only [if_neg hwhat] at hl
    obtain rfl := List.mem_singleton.1 hl
    exact ⟨contains_of_text (le_refl _) (by omega) (le_refl _) (by omega) hink, rfl⟩

/-- **What is seen of the panel** at a place is what a click there meets, -/
theorem lastPainter_draw (h : Tidy p.rect p.items) (hx : x < cols) (hy : y < rows)
    (hclock : textCells clockText ≤ 5) (hdate : textCells dateText ≤ 10)
    (hin : p.rect.contains x y) :
    Stroke.lastPainter false cols rows
      (p.draw (View.screen cols rows) th clockText dateText) x y = some (p.hit x y) := by
  rw [← shown_eq_hit h hin]
  refine Stroke.lastPainter_of_last [] ((View.mem_fillInk_screen hx hy).2 hin) rfl ?_
  intro l hl hink
  obtain ⟨it, hit, hplace, howner⟩ := item_of_draw h hclock hdate l hl hink
  rw [howner]
  simp only [shown, (find_eq_of_tidy h hit hplace).2]

/-- and the panel paints nothing beside itself. -/
theorem not_mem_draw (h : Tidy p.rect p.items) (hx : x < cols) (hy : y < rows)
    (hclock : textCells clockText ≤ 5) (hdate : textCells dateText ≤ 10)
    (hout : ¬ p.rect.contains x y) :
    ∀ k ∈ p.draw (View.screen cols rows) th clockText dateText, (x, y) ∉ k.ink false cols rows := by
  refine List.forall_mem_cons.2 ⟨fun hink => hout ((View.mem_fillInk_screen hx hy).1 hink), ?_⟩
  intro l hl hink
  obtain ⟨it, hit, hplace, -⟩ := item_of_draw h hclock hdate l hl hink
  exact hout ((h.holds it hit).within.contains hplace)

end Panel

end Sshos.Shell
