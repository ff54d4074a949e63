import Sshos.Shell.PanelPlaces
import Sshos.Wm.DesktopRuns

/-!
# Sshos.Shell.PanelSound

What the panel **tells of the windows**: each belongs to one entry, each entry is shown or
counted among those that are not, and on a horizontal edge the labels are as long as they can
be.
-/

namespace Sshos.Shell

open Sshos.Lib (Bytes decimal)
open Sshos.Render (elideToCells textCells textCells_append textCells_elideToCells_mono
  textCells_le_length)
open Sshos.Wm (Desktop Win WindowManager)

/-! ### The windows of an entry -/

/-- What an entry starts from, and the windows it is for. -/
structure Group where
  seed : PanelEntry
  belongs : Win → Bool

def groups (d : Desktop) : List Group :=
  catalog.zipIdx.map (fun (c, i) =>
    { seed := { catalogIndex := i, label := c.label }, belongs := fun w => w.app.appId = c.id }) ++
  (d.stack.filter fun w => !listed w).map fun w =>
    { seed := { label := w.app.title }, belongs := fun other => other.id = w.id }

/-- They are what the panel makes its entries of. -/
theorem buildEntries_eq_groups (d : Desktop) :
    buildEntries d = (groups d).map fun g => g.seed.gather d g.belongs := by
  unfold buildEntries groups
  rw [List.map_append, List.map_map, List.map_map]
  rfl

/-- In how many entries a window is. -/
def belongings (d : Desktop) (w : Win) : Nat := (groups d).countP fun g => g.belongs w

theorem countP_catalog (w : Win) :
    (catalog.countP fun c => w.app.appId = c.id) = if listed w then 1 else 0 := by
  have hids : ∀ c ∈ catalog, (catalog.countP fun c' => c.id = c'.id) = 1 := by decide
  unfold listed
  by_cases hsome : ∃ c ∈ catalog, w.app.appId = c.id
  · obtain ⟨c, hc, hid⟩ := hsome
    have hany : (catalog.any fun c => w.app.appId = c.id) = true :=
      List.any_eq_true.2 ⟨c, hc, decide_eq_true hid⟩
    rw [hany, if_pos rfl, hid]
    exact hids c hc
  · have hnone : ∀ c ∈ catalog, ¬ w.app.appId = c.id := fun c hc hid => hsome ⟨c, hc, hid⟩
    have hany : (catalog.any fun c => w.app.appId = c.id) = false := by
      simpa using hnone
    rw [hany, if_neg Bool.false_ne_true]
    exact List.countP_eq_zero.2 fun c hc => by simpa using hnone c hc

/-- A window is in the entry of its application, and in those of the windows of no
application that bear its number. -/
theorem belongings_eq (d : Desktop) (w : Win) : belongings d w =
    (if listed w then 1 else 0) + d.stack.countP fun u => decide (u.id = w.id) && !listed u := by
  have hcatalog : (catalog.zipIdx.countP fun ci => decide (w.app.appId = ci.1.id)) =
      catalog.countP fun c => w.app.appId = c.id := by
    rfl
  unfold belongings groups
  rw [List.countP_append, List.countP_map, List.countP_map, ← countP_catalog w, ← hcatalog,
    List.countP_filter]
  congr 1
  refine List.countP_congr fun u _ => ?_
  simp only [Function.comp_apply, eq_comm]

/-- **Each window is in one entry** exactly when those of no application have their own
numbers. -/
theorem belongings_iff (d : Desktop) : (∀ w ∈ d.stack, belongings d w = 1) ↔ OwnNumbers d := by
  have hsplit : ∀ w : Win, (d.stack.countP fun u => decide (u.id = w.id)) =
      (d.stack.countP fun u => decide (u.id = w.id) && !listed u) +
        d.stack.countP fun u => decide (u.id = w.id) && listed u := by
    intro w
    rw [← List.countP_filter, ← List.countP_filter]
    exact (List.countP_eq_countP_filter_add _ _ fun u => !listed u).trans (by simp)
  constructor
  · intro hone w hw hown
    have hself := hone w hw
    rw [belongings_eq, if_neg (by simp [hown]), Nat.zero_add] at hself
    have hnone : (d.stack.countP fun u => decide (u.id = w.id) && listed u) = 0 := by
      refine List.countP_eq_zero.2 fun u hu hboth => ?_
      obtain ⟨hid, hlisted⟩ := (Bool.and_eq_true _ _).mp hboth
      -- that one would be in its own entry and in the one of its application
      have hother := hone u hu
      rw [belongings_eq, if_pos hlisted] at hother
      have hzero : (d.stack.countP fun v => decide (v.id = u.id) && !listed v) = 0 := by omega
      refine List.countP_eq_zero.1 hzero w hw ?_
      simpa [hown] using (of_decide_eq_true hid).symm
    rw [hsplit, hself, hnone]
  · intro hown w hw
    rw [belongings_eq]
    cases hlisted : listed w with
    | true =>
        have hnone : (d.stack.countP fun u => decide (u.id = w.id) && !listed u) = 0 := by
          refine List.countP_eq_zero.2 fun u hu hboth => ?_
          obtain ⟨hid, hu'⟩ := (Bool.and_eq_true _ _).mp hboth
          have hu' : listed u = false := by simpa using hu'
          have htotal := hown u hu hu'
          rw [hsplit] at htotal
          have hone : 0 < d.stack.countP fun v => decide (v.id = u.id) && !listed v :=
            List.countP_pos_iff.2 ⟨u, hu, by simp [hu']⟩
          have htwo : 0 < d.stack.countP fun v => decide (v.id = u.id) && listed v :=
            List.countP_pos_iff.2 ⟨w, hw, by simpa [hlisted] using (of_decide_eq_true hid).symm⟩
          omega
        simp [hnone]
    | false =>
        have htotal := hown w hw hlisted
        rw [hsplit] at htotal
        have hone : 0 < d.stack.countP fun v => decide (v.id = w.id) && !listed v :=
          List.countP_pos_iff.2 ⟨w, hw, by simp [hlisted]⟩
        simp only [Bool.false_eq_true, if_false]
        omega

/-! ### The labels -/

section Labels

variable {p : Panel} {e : PanelEntry} {entries : List PanelEntry}

theorem elide_whole {s : Bytes} {c : Int} (hc : 0 < c) (h : textCells s ≤ c) (utf8 : Bool) :
    elide s c utf8 = s := by
  unfold elide elideToCells
  rw [if_neg (Int.not_le.2 hc), if_pos h]

theorem textCells_elide_mono (s : Bytes) {c c' : Int} (h : c ≤ c') (utf8 : Bool) :
    textCells (elide s c utf8) ≤ textCells (elide s c' utf8) := by
  unfold elide
  cases utf8 with
  | false => exact textCells_elideToCells_mono (by decide) (by decide +kernel) s h
  | true => exact textCells_elideToCells_mono (by decide) (by decide +kernel) s h

/-- A longer label takes no less room, -/
theorem textCells_entryText_mono (hgroup : Grouped e) {c c' : Int} (hc : 8 ≤ c) (h : c ≤ c') :
    textCells (p.entryText e c) ≤ textCells (p.entryText e c') := by
  unfold Panel.entryText
  rcases hgroup with hone | ⟨hlabel, -⟩
  · rw [if_neg (Nat.not_lt.2 hone), List.append_nil, List.append_nil, textCells_markOf_append,
      textCells_markOf_append]
    exact Nat.add_le_add_left (textCells_elide_mono e.label h p.utf8) 1
  · have hcells := textCells_le_length e.label
    rw [elide_whole (by omega) (by omega), elide_whole (by omega) (by omega)]

/-- and once it is whole it takes no more. -/
theorem entryText_whole {c c' : Int} (hc : 0 < c) (hwhole : textCells e.label ≤ c) (h : c ≤ c') :
    p.entryText e c' = p.entryText e c := by
  unfold Panel.entryText
  rw [elide_whole hc hwhole, elide_whole (by omega) (by omega)]

namespace Panel

theorem fits_le_length {stop cells : Int} : ∀ {entries : List PanelEntry} {x : Int},
    p.fits entries x stop cells ≤ entries.length := by
  intro entries
  induction entries with
  | nil => exact Nat.le_refl _
  | cons e es ih =>
      intro x
      unfold fits
      simp only
      split
      · exact Nat.zero_le _
      · exact Nat.succ_le_succ ih

/-- Wider texts leave room for no more of them. -/
theorem fits_antitone {stop c c' : Int} : ∀ {entries : List PanelEntry},
    (∀ e ∈ entries, textCells (p.entryText e c) ≤ textCells (p.entryText e c')) →
    ∀ {x x' : Int}, x ≤ x' → p.fits entries x' stop c' ≤ p.fits entries x stop c := by
  intro entries
  induction entries with
  | nil => exact fun _ {_ _} _ => Nat.le_refl _
  | cons e es ih =>
      intro hwider x x' hx
      obtain ⟨hfirst, hrest⟩ := List.forall_mem_cons.1 hwider
      unfold fits
      simp only
      by_cases hstop : x' + textCells (p.entryText e c') > stop
      · rw [if_pos hstop]
        exact Nat.zero_le _
      · rw [if_neg hstop, if_neg (by omega)]
        exact Nat.succ_le_succ (ih hrest (by omega))

/-- Where the stretching stops: at its end, or before a width that would lose an entry. -/
theorem stretch_spec {x stop : Int} {shown : Nat} (fuel : Nat) : ∀ {label : Int},
    label ≤ p.stretch entries x stop shown fuel label ∧
    (p.stretch entries x stop shown fuel label = label + fuel ∨
      p.fits entries x stop (p.stretch entries x stop shown fuel label + 1) < shown) := by
  induction fuel with
  | zero => exact fun {label} => ⟨le_refl _, .inl (Int.add_zero label).symm⟩
  | succ fuel ih =>
      intro label
      unfold stretch
      split
      next hlost => exact ⟨le_refl _, .inr hlost⟩
      next =>
        obtain ⟨hle, hend | hlost⟩ := @ih (label + 1)
        · exact ⟨by omega, .inl (by push_cast; omega)⟩
        · exact ⟨by omega, .inr hlost⟩

end Panel

end Labels

/-! ### What a horizontal edge decides -/

namespace Panel

variable (p : Panel)

/-- Where the entries have to end, how many of them are shown, and the columns of a label. -/
structure Choice where
  stop : Int
  shown : Nat
  cells : Int

/-- Where the entries begin. -/
def startX : Int := p.rect.x + 1 + (textCells p.menuText : Int) + 1

def choose (d : Desktop) : Choice :=
  let clockX := p.rect.x + p.rect.w - kClockCells - 1
  let clockLeft := if p.updateBadge then clockX - 2 else clockX
  let entries := buildEntries d
  let total := entries.length
  let hintW : Int := if p.hint = [] then 0 else textCells p.hint
  let showHint := hintW > 0 ∧
    p.fits entries p.startX (clockLeft - 1 - hintW - 1) kLabelCells = total
  let stop := if showHint then clockLeft - 1 - hintW - 1 else clockLeft - 1
  let shown := p.fits entries p.startX stop kLabelCells
  let overW : Int := 1 + (decimal total).length
  let stop := if shown < total then clockLeft - 1 - overW - 1 else stop
  let shown := if shown < total then p.fits entries p.startX stop kLabelCells else shown
  let longest := entries.foldl (fun n e => max n (textCells e.label)) kLabelCells.toNat
  { stop := stop
    shown := shown
    cells := p.stretch entries p.startX stop shown (longest - kLabelCells.toNat) kLabelCells }

/-- The entries there are on a panel. -/
def Item.isEntry (it : Item) : Bool := it.what = .task ∨ it.what = .pinned

/-- The number of entries a panel says it does not show. -/
def announced (items : List Item) : Int :=
  ((items.filter fun it => it.what = .overflow).map Item.index).sum

variable {p}

theorem le_foldl_max {α : Type} (f : α → Nat) (l : List α) : ∀ n,
    n ≤ l.foldl (fun n a => max n (f a)) n ∧ ∀ a ∈ l, f a ≤ l.foldl (fun n a => max n (f a)) n := by
  induction l with
  | nil => exact fun n => ⟨le_refl n, fun _ h => absurd h List.not_mem_nil⟩
  | cons a l ih =>
      intro n
      obtain ⟨hle, hall⟩ := ih (max n (f a))
      exact ⟨(le_max_left _ _).trans hle, List.forall_mem_cons.2 ⟨(le_max_right _ _).trans hle, hall⟩⟩

theorem fits_choose (d : Desktop) :
    p.fits (buildEntries d) p.startX (p.choose d).stop kLabelCells = (p.choose d).shown := by
  unfold choose
  extract_lets clockX clockLeft entries total hintW showHint stop shown overW stop' shown' longest
  show p.fits entries p.startX stop' kLabelCells = shown'
  by_cases hfolded : shown < total
  · exact (if_pos hfolded).symm
  · rw [show stop' = stop from if_neg hfolded]
    exact (if_neg hfolded).symm

/-- **The labels are as wide as they can be**: a wider one would cost an entry, or change
nothing. -/
theorem choose_spec {d : Desktop} (hgroups : ∀ e ∈ buildEntries d, Grouped e) :
    p.fits (buildEntries d) p.startX (p.choose d).stop (p.choose d).cells = (p.choose d).shown ∧
    ∀ c > (p.choose d).cells,
      p.fits (buildEntries d) p.startX (p.choose d).stop c < (p.choose d).shown ∨
      ∀ e ∈ buildEntries d, p.entryText e c = p.entryText e (p.choose d).cells := by
  have hshown := fits_choose (p := p) d
  obtain ⟨hmin, hlong⟩ := le_foldl_max (fun e : PanelEntry => textCells e.label) (buildEntries d)
    kLabelCells.toNat
  have hcells : (p.choose d).cells = p.stretch (buildEntries d) p.startX (p.choose d).stop
      (p.choose d).shown
      ((buildEntries d).foldl (fun n e => max n (textCells e.label)) kLabelCells.toNat - kLabelCells.toNat)
      kLabelCells := rfl
  generalize (buildEntries d).foldl (fun n e => max n (textCells e.label)) kLabelCells.toNat =
    longest at hmin hlong hcells
  have hkeep := le_fits_stretch (p := p) (longest - kLabelCells.toNat) hshown.ge
  obtain ⟨hle, hend⟩ := @stretch_spec p (buildEntries d) p.startX (p.choose d).stop
    (p.choose d).shown (longest - kLabelCells.toNat) kLabelCells
  rw [← hcells] at hkeep hle hend
  have height : kLabelCells = 8 := rfl
  have hnat : kLabelCells.toNat = 8 := rfl
  have hanti : ∀ {c c' : Int}, 8 ≤ c → c ≤ c' →
      p.fits (buildEntries d) p.startX (p.choose d).stop c' ≤
        p.fits (buildEntries d) p.startX (p.choose d).stop c := fun hc h =>
    fits_antitone (fun e he => textCells_entryText_mono (hgroups e he) hc h) (le_refl _)
  constructor
  · have hless := hanti (le_refl _) (height ▸ hle)
    rw [← height, hshown] at hless
    exact Nat.le_antisymm hless hkeep
  · intro c hc
    rcases hend with hend | hlost
    · right
      intro e he
      have hwhole := hlong e he
      exact entryText_whole (by omega) (by omega) (by omega)
    · left
      exact (hanti (by omega) (by omega)).trans_lt hlost

/-! ### What is counted -/

theorem placeEntries_entries (p : Panel) (y cells : Int) :
    ∀ (entries : List PanelEntry) (i : Nat) (x : Int),
    (p.placeEntries y cells entries i x).length = entries.length ∧
    ∀ it ∈ p.placeEntries y cells entries i x, Item.isEntry it = true := by
  intro entries
  induction entries with
  | nil => exact fun _ _ => ⟨rfl, fun _ h => absurd h List.not_mem_nil⟩
  | cons e es ih =>
      intro i x
      obtain ⟨hlen, hall⟩ := ih (i + 1) (x + textCells (p.entryText e cells) + 1)
      unfold placeEntries
      refine ⟨congrArg (· + 1) hlen, List.forall_mem_cons.2 ⟨?_, hall⟩⟩
      simp only [Item.isEntry, entryItem]
      split <;> rfl

theorem stackEntries_entries (p : Panel) (x w cells : Int) :
    ∀ (entries : List PanelEntry) (i : Nat) (y : Int),
    (p.stackEntries x w cells entries i y).length = entries.length ∧
    ∀ it ∈ p.stackEntries x w cells entries i y, Item.isEntry it = true := by
  intro entries
  induction entries with
  | nil => exact fun _ _ => ⟨rfl, fun _ h => absurd h List.not_mem_nil⟩
  | cons e es ih =>
      intro i y
      obtain ⟨hlen, hall⟩ := ih (i + 1) (y + 1)
      unfold stackEntries
      refine ⟨congrArg (· + 1) hlen, List.forall_mem_cons.2 ⟨?_, hall⟩⟩
      simp only [Item.isEntry, entryItem]
      split <;> rfl

/-- An item that is no entry, and counts none. -/
def Item.Aside (it : Item) : Prop := it.what ≠ .task ∧ it.what ≠ .pinned ∧ it.what ≠ .overflow

theorem aside_optional {c : Prop} [Decidable c] {it : Item} (h : Item.Aside it) :
    ∀ it' ∈ if c then [it] else [], Item.Aside it' := by
  split
  · exact List.forall_mem_singleton.2 h
  · exact fun _ h => absurd h List.not_mem_nil

theorem parts_of_aside {items : List Item} (h : ∀ it ∈ items, Item.Aside it) :
    items.filter Item.isEntry = [] ∧ (items.filter fun it => it.what = .overflow) = [] := by
  refine ⟨List.filter_eq_nil_iff.2 fun it hit hentry => ?_,
    List.filter_eq_nil_iff.2 fun it hit hwhat => ?_⟩
  · obtain ⟨htask, hpinned, -⟩ := h it hit
    rcases of_decide_eq_true hentry with hwhat | hwhat
    · exact htask hwhat
    · exact hpinned hwhat
  · exact (h it hit).2.2 (of_decide_eq_true hwhat)

/-- **The entries of a layout**: those that are placed, and the number of the others. -/
theorem entries_of_layout {front placed : List Item} (hidden : Nat) (fold : Item) (back : List Item)
    (hfront : ∀ it ∈ front, Item.Aside it) (hplaced : ∀ it ∈ placed, Item.isEntry it = true)
    (hfold : fold.what = .overflow) (hindex : fold.index = hidden) (hback : ∀ it ∈ back, Item.Aside it) :
    (front ++ placed ++ (if hidden > 0 then [fold] else []) ++ back).filter Item.isEntry = placed ∧
    announced (front ++ placed ++ (if hidden > 0 then [fold] else []) ++ back) = hidden ∧
    ∀ it ∈ front ++ placed ++ (if hidden > 0 then [fold] else []) ++ back,
      it.what = .overflow → it = fold := by
  have hother : ∀ it ∈ front ++ placed ++ (if hidden > 0 then [fold] else []) ++ back,
      it.what = .overflow → it = fold := by
    intro it hit hwhat
    simp only [List.mem_append] at hit
    rcases hit with ((hit | hit) | hit) | hit
    · exact absurd hwhat (hfront it hit).2.2
    · have hentry := hplaced it hit
      simp [Item.isEntry, hwhat] at hentry
    · split at hit
      · exact List.mem_singleton.1 hit
      · cases hit
    · exact absurd hwhat (hback it hit).2.2
  obtain ⟨hfront, hfront'⟩ := parts_of_aside hfront
  obtain ⟨hback, hback'⟩ := parts_of_aside hback
  have hnone : (placed.filter fun it => it.what = .overflow) = [] := by
    refine List.filter_eq_nil_iff.2 fun it hit hwhat => ?_
    have hentry := hplaced it hit
    simp [Item.isEntry, of_decide_eq_true hwhat] at hentry
  have hfolded : Item.isEntry fold = false := by simp [Item.isEntry, hfold]
  unfold announced
  simp only [List.filter_append, hfront, hfront', hback, hback', hnone, List.filter_eq_self.2 hplaced,
    List.nil_append, List.append_nil]
  refine ⟨?_, ?_, hother⟩
  · split
    · simp [hfolded]
    · simp
  · split
    · simp [hfold, hindex]
    next hzero => simp [Nat.eq_zero_of_not_pos hzero]

theorem layoutHorizontal_entries (p : Panel) (d : Desktop) :
    (p.layoutHorizontal d).filter Item.isEntry =
      p.placeEntries p.rect.y (p.choose d).cells ((buildEntries d).take (p.choose d).shown) 0 p.startX ∧
    announced (p.layoutHorizontal d) = ((buildEntries d).length - (p.choose d).shown : Nat) ∧
    ∀ it ∈ p.layoutHorizontal d, it.what = .overflow → it.text = p.overflowText it.index.toNat := by
  obtain ⟨-, hentries⟩ := p.placeEntries_entries p.rect.y (p.choose d).cells
    ((buildEntries d).take (p.choose d).shown) 0 p.startX
  unfold layoutHorizontal
  extract_lets y right clockX clock clockLeft badge menuW menu startX entries total hintW showHint stop
    shown overW stop' shown' longest cells hidden overflowW overflow hint
  have hfront : ∀ it ∈ clock :: badge ++ [menu], Item.Aside it := by
    refine List.forall_mem_append.2 ⟨List.forall_mem_cons.2 ⟨⟨nofun, nofun, nofun⟩, ?_⟩, ?_⟩
    · exact aside_optional ⟨nofun, nofun, nofun⟩
    · exact List.forall_mem_singleton.2 ⟨nofun, nofun, nofun⟩
  rw [List.append_cons]
  obtain ⟨hplaced, hcount, hfold⟩ := entries_of_layout hidden
    { what := .overflow, index := hidden
      r := { x := clockLeft - 1 - overflowW, y := y, w := overflowW, h := 1 }
      text := p.overflowText hidden }
    hint hfront hentries rfl rfl (aside_optional ⟨nofun, nofun, nofun⟩)
  exact ⟨hplaced, hcount, fun it hit hwhat => by rw [hfold it hit hwhat]; rfl⟩

theorem layoutVertical_entries (p : Panel) (d : Desktop) : ∃ shown ≤ (buildEntries d).length,
    ((p.layoutVertical d).filter Item.isEntry).length = shown ∧
    announced (p.layoutVertical d) = ((buildEntries d).length - shown : Nat) ∧
    ∀ it ∈ p.layoutVertical d, it.what = .overflow → it.text = p.overflowText it.index.toNat := by
  unfold layoutVertical
  extract_lets x w bottom clockH clock badgeH badge menu y entries total room hintW showHint room'
    room'' shown hidden overflow hint
  obtain ⟨hlen, hentries⟩ := p.stackEntries_entries x w (w - 2) (entries.take shown) 0 y
  have hfront : ∀ it ∈ clock :: badge ++ [menu], Item.Aside it := by
    refine List.forall_mem_append.2 ⟨List.forall_mem_cons.2 ⟨⟨nofun, nofun, nofun⟩, ?_⟩, ?_⟩
    · exact aside_optional ⟨nofun, nofun, nofun⟩
    · exact List.forall_mem_singleton.2 ⟨nofun, nofun, nofun⟩
  obtain ⟨hplaced, hcount, hfold⟩ := entries_of_layout hidden
    { what := .overflow, index := hidden, r := { x := x, y := y + shown, w := w, h := 1 }
      text := p.overflowText hidden }
    hint hfront hentries rfl rfl (aside_optional ⟨nofun, nofun, nofun⟩)
  have hle : shown ≤ entries.length := Nat.min_le_left _ _
  rw [List.append_cons]
  refine ⟨shown, hle, ?_, hcount, fun it hit hwhat => by rw [hfold it hit hwhat]; rfl⟩
  refine (congrArg List.length hplaced).trans ?_
  rw [hlen, List.length_take_of_le hle]

/-- The text of the clock is not known yet. -/
theorem clock_of_layoutHorizontal {d : Desktop} {it : Item} (hit : it ∈ p.layoutHorizontal d)
    (hwhat : it.what = .clock) : it.text = [] ∧ it.r.w = kClockCells := by
  obtain ⟨-, hentries⟩ := p.placeEntries_entries p.rect.y (p.choose d).cells
    ((buildEntries d).take (p.choose d).shown) 0 p.startX
  have hother : ∀ {c : Prop} [Decidable c] {other : Item}, other.what ≠ .clock →
      it ∉ if c then [other] else [] := by
    intro c _ other hne hin
    split at hin
    · rw [List.mem_singleton.1 hin] at hwhat
      exact hne hwhat
    · cases hin
  unfold layoutHorizontal at hit
  extract_lets y right clockX clock clockLeft badge menuW menu startX entries total hintW showHint stop
    shown overW stop' shown' longest cells hidden overflowW overflow hint at hit
  simp only [List.mem_append, List.mem_cons] at hit
  rcases hit with (((rfl | hit) | rfl | hit) | hit) | hit
  · exact ⟨rfl, rfl⟩
  · exact absurd hit (hother nofun)
  · cases hwhat
  · have hentry := hentries it hit
    simp [Item.isEntry, hwhat] at hentry
  · exact absurd hit (hother nofun)
  · exact absurd hit (hother nofun)

/-! ### The layout -/

/-- On a horizontal edge: the entries that are shown have labels of the width that was
chosen, which keeps as many of them as the smallest one, and cannot be larger. -/
structure Widest (p : Panel) (d : Desktop) : Prop where
  placed : p.items.filter Item.isEntry =
    p.placeEntries p.rect.y (p.choose d).cells ((buildEntries d).take (p.choose d).shown) 0 p.startX
  smallest : p.fits (buildEntries d) p.startX (p.choose d).stop kLabelCells = (p.choose d).shown
  keeps : p.fits (buildEntries d) p.startX (p.choose d).stop (p.choose d).cells = (p.choose d).shown
  /-- A wider label would cost an entry, or change nothing. -/
  largest : ∀ c > (p.choose d).cells,
    p.fits (buildEntries d) p.startX (p.choose d).stop c < (p.choose d).shown ∨
    ∀ e ∈ buildEntries d, p.entryText e c = p.entryText e (p.choose d).cells

/-- A panel that says what there is, and where. -/
structure Sound (p : Panel) (d : Desktop) : Prop where
  apart : p.items.Pairwise Item.Apart
  within : ∀ it ∈ p.items, it.r.Within p.rect
  belongs : ∀ w ∈ d.stack, belongings d w = 1
  counted : (p.items.filter Item.isEntry).length + announced p.items = (buildEntries d).length
  announces : ∀ it ∈ p.items, it.what = .overflow → it.text = p.overflowText it.index.toNat
  texts : p.horizontal → ∀ it ∈ p.items, textCells it.text ≤ it.r.w
  clock : p.horizontal → ∀ it ∈ p.items, it.what = .clock → ∀ c : Clock, textCells c.text ≤ it.r.w
  widest : p.horizontal → Widest p d

/-! The items there are already decide nothing. -/

section Items

variable (p : Panel) (items : List Item)

theorem fits_items : ({ p with items := items } : Panel).fits = p.fits := by
  funext entries
  induction entries with
  | nil => rfl
  | cons e es ih =>
      funext x stop cells
      simp only [fits, ih]
      rfl

theorem stretch_items : ({ p with items := items } : Panel).stretch = p.stretch := by
  funext entries x stop shown fuel
  induction fuel with
  | zero => rfl
  | succ fuel ih =>
      funext label
      simp only [stretch, ih, fits_items]

theorem placeEntries_items : ({ p with items := items } : Panel).placeEntries = p.placeEntries := by
  funext y cells entries
  induction entries with
  | nil => rfl
  | cons e es ih =>
      funext i x
      simp only [placeEntries, ih]
      rfl

theorem choose_items (d : Desktop) : ({ p with items := items } : Panel).choose d = p.choose d := by
  unfold choose
  rw [fits_items, stretch_items]
  rfl

end Items

/-- What was chosen shows on the panel that is laid out. -/
theorem widest_of_layout {d : Desktop} (hgroups : ∀ e ∈ buildEntries d, Grouped e) :
    Widest { p with items := p.layoutHorizontal d } d := by
  obtain ⟨hplaced, -, -⟩ := p.layoutHorizontal_entries d
  obtain ⟨hkeeps, hlargest⟩ := choose_spec (p := p) hgroups
  constructor
  · rw [choose_items, placeEntries_items]
    exact hplaced
  · rw [choose_items, fits_items]
    exact fits_choose d
  · rw [choose_items, fits_items]
    exact hkeeps
  · rw [choose_items, fits_items]
    exact hlargest

/-- **The layout of the panel is sound**, on every edge of every screen that is large enough
and whatever there is to remind of, exactly when the windows of no application have their own
numbers. -/
theorem layout_sound_iff (p : Panel) {d : Desktop} (hfew : d.stack.length ≤ WindowManager.kMaxWindows)
    {cols rows : Int} (hcols : 40 ≤ cols) (hrows : 12 ≤ rows) (utf8 : Bool) :
    (p.layout d cols rows utf8).Sound d ↔ OwnNumbers d := by
  constructor
  · exact fun h => (belongings_iff d).1 h.belongs
  intro hown
  have hgroups := grouped_buildEntries hown hfew
  have htidy := tidy_layout (p := p) hgroups hfew hcols hrows utf8
  have hbelongs := (belongings_iff d).2 hown
  rw [layout_eq p d hcols hrows] at htidy ⊢
  cases hhor : p.horizontal with
  | true =>
      simp only [hhor, if_true] at htidy ⊢
      generalize p.placed cols rows utf8 = q at *
      obtain ⟨hplaced, hcount, hfold⟩ := q.layoutHorizontal_entries d
      have hle : (q.choose d).shown ≤ (buildEntries d).length := (fits_choose d).ge.trans fits_le_length
      exact
        { apart := htidy.apart
          within := fun it hit => (htidy.holds it hit).within
          belongs := hbelongs
          counted := by
            simp only [hplaced, hcount, (placeEntries_entries _ _ _ _ _ _).1, List.length_take_of_le hle]
            omega
          announces := hfold
          texts := fun _ it hit => by
            by_cases hwhat : it.what = .clock
            · obtain ⟨htext, hwide⟩ := clock_of_layoutHorizontal hit hwhat
              rw [htext, hwide]
              decide
            · exact ((htidy.holds it hit).text hwhat).1
          clock := fun _ it hit hwhat c => by
            rw [(clock_of_layoutHorizontal hit hwhat).2]
            exact Int.ofNat_le.2 (textCells_clock c)
          widest := fun _ => widest_of_layout hgroups }
  | false =>
      simp only [hhor, Bool.false_eq_true, if_false] at htidy ⊢
      have hver : (p.placed cols rows utf8).horizontal = false := hhor
      generalize p.placed cols rows utf8 = q at *
      obtain ⟨shown, hle, hlen, hcount, hfold⟩ := q.layoutVertical_entries d
      have hno : ∀ {items : List Item}, ¬ ({ q with items := items } : Panel).horizontal = true := by
        intro items hyes
        exact absurd (hyes.symm.trans hver) (by decide)
      exact
        { apart := htidy.apart
          within := fun it hit => (htidy.holds it hit).within
          belongs := hbelongs
          counted := by
            simp only [hlen, hcount]
            omega
          announces := hfold
          texts := fun hyes => absurd hyes hno
          clock := fun hyes => absurd hyes hno
          widest := fun hyes => absurd hyes hno }

/-- A minimized terminal and another one, a file manager, and two windows of no application in
the catalogue. -/
def crowd : Desktop where
  stack :=
    [{ id := 1
       app := { appId := [0x74, 0x65, 0x72, 0x6d, 0x69, 0x6e, 0x61, 0x6c]
                title := [0x68, 0x74, 0x6f, 0x70], mode := .minimized, minSize := ⟨20, 6⟩ } },
      { id := 3
        app := { appId := [0x66, 0x69, 0x63, 0x68, 0x69, 0x65, 0x72, 0x73]
                 title := [0x2f, 0x68, 0x6f, 0x6d, 0x65], minSize := ⟨24, 6⟩ } },
      { id := 4, app := { title := [0x4a, 0x6f, 0x75, 0x72, 0x6e, 0x61, 0x6c], minSize := ⟨10, 3⟩ } },
      { id := 6
        app := { appId := [0x74, 0x65, 0x72, 0x6d, 0x69, 0x6e, 0x61, 0x6c]
                 title := [0x6d, 0x61, 0x6b, 0x65], minSize := ⟨20, 6⟩ } },
      { id := 7
        app := { title := [0x4d, 0x6f, 0x6e, 0x69, 0x74, 0x65, 0x75, 0x72], minSize := ⟨10, 3⟩ } }]
  nextId := 8
  focused := 7

/-- There is a reminder, and the badge. -/
def reminding : Panel where
  edge := .top
  hint := [0x43, 0x74, 0x72, 0x6c, 0x2b, 0x42, 0x20, 0x3f]
  updateBadge := true

/-- What is left out is counted where there is no room for all, and the reminder gives way. -/
theorem layout_sound_iff_crowd :
    (reminding.layout crowd 60 12 true).Sound crowd ∧ (reminding.layout crowd 90 12 true).Sound crowd ∧
    (reminding.layout crowd 60 12 true).items.map (·.what) =
      [.clock, .update, .menuButton, .task, .task, .pinned, .task, .overflow] ∧
    (reminding.layout crowd 90 12 true).items.map (·.what) =
      [.clock, .update, .menuButton, .task, .task, .pinned, .task, .task, .hint] := by
  have hown : OwnNumbers crowd := by decide
  refine ⟨?_, ?_, by decide +kernel, by decide +kernel⟩
  · exact (layout_sound_iff reminding (by decide) (by decide) (by decide) true).2 hown
  · exact (layout_sound_iff reminding (by decide) (by decide) (by decide) true).2 hown

/-! ### A number that comes round -/

section Round

open Sshos.Lib (run run_append StepsMeet)
open Sshos.Wm.Desktop (apply ids)

/-- Nobody has said what the windows are. -/
def Nameless (d : Desktop) : Prop := ∀ w ∈ d.stack, w.app.appId = []

theorem Nameless.open {d : Desktop} (h : Nameless d) (app : Option Sshos.Wm.Size)
    (work : Sshos.Render.Rect) : Nameless (d.open app work) := by
  have hfocus : ∀ {d : Desktop} (id), Nameless d → Nameless (d.focus id) := by
    intro d id h w hw
    obtain ⟨v, hv, rfl⟩ := List.mem_map.1 ((Desktop.focus_perm id).mem_iff.1 hw)
    have hname := h v hv
    split <;> exact hname
  unfold Desktop.open Desktop.openAs
  split
  · exact h
  · cases app with
    | none => exact h
    | some minSize =>
        refine hfocus _ fun w hw => ?_
        rcases List.mem_append.1 hw with hold | hnew
        · exact h w hold
        · rw [List.mem_singleton.1 hnew]

theorem Nameless.close {d : Desktop} (h : Nameless d) (id : Sshos.Wm.WindowId) :
    Nameless (d.close id) := by
  intro w hw
  refine h w ?_
  change w ∈ (d.toWindowManager.close id).stack at hw
  unfold WindowManager.close at hw
  split at hw
  · exact hw
  · exact List.mem_of_mem_eraseP hw

theorem close_ids (d : Desktop) (id : Sshos.Wm.WindowId) : ids (d.close id) = (ids d).erase id := by
  show (d.toWindowManager.close id).stack.map (·.id) = (d.stack.map (·.id)).erase id
  rw [List.erase_eq_eraseP', List.eraseP_map]
  unfold WindowManager.close
  split
  · next hnone =>
      rw [List.eraseP_of_forall_not]
      intro w hw
      simpa using WindowManager.find_eq_none_iff.1 hnone w hw
  · rfl

/-- A window that stays, and `n` that are closed as soon as they are open. -/
def beside : Nat → List Desktop.Op
  | 0 => [.open (some ⟨10, 3⟩) {}]
  | n + 1 => beside n ++ [.open (some ⟨10, 3⟩) {}, .close ((n + 2) % 2 ^ 32)]

/-- A window opens beside another. -/
theorem open_beside {d : Desktop} (hids : ids d = [1]) (hname : Nameless d) :
    (ids (d.apply (.open (some ⟨10, 3⟩) {}))).Perm ([1] ++ [d.nextId]) ∧
      (d.apply (.open (some ⟨10, 3⟩) {})).nextId = (d.nextId + 1) % 2 ^ 32 ∧
      Nameless (d.apply (.open (some ⟨10, 3⟩) {})) := by
  have hlen : d.stack.length = 1 := by
    rw [← List.length_map (f := (·.id))]
    exact congrArg List.length hids
  have hopens : d.opens (.open (some ⟨10, 3⟩) {}) = true := by
    simp [Desktop.opens, hlen, WindowManager.kMaxWindows]
  have hboth := d.apply_ids (.open (some ⟨10, 3⟩) {})
  have hafter := d.apply_nextId (.open (some ⟨10, 3⟩) {})
  rw [if_pos hopens] at hboth hafter
  exact ⟨hids ▸ hboth, hafter, hname.open (some ⟨10, 3⟩) {}⟩

theorem beside_run (n : Nat) (hn : n < 2 ^ 32) :
    ids (run apply {} (beside n)) = [1] ∧ (run apply {} (beside n)).nextId = (n + 2) % 2 ^ 32 ∧
      Nameless (run apply {} (beside n)) := by
  induction n with
  | zero =>
      have hnone : Nameless {} := fun w hw => absurd hw List.not_mem_nil
      exact ⟨by decide, by decide, hnone.open (some ⟨10, 3⟩) {}⟩
  | succ n ih =>
      obtain ⟨hids, hnext, hname⟩ := ih (by omega)
      simp only [beside, run_append, Sshos.Lib.run_cons, Sshos.Lib.run_nil]
      generalize run apply {} (beside n) = d at *
      obtain ⟨hboth, hafter, hnamed⟩ := open_beside hids hname
      generalize d.apply (.open (some ⟨10, 3⟩) {}) = d₁ at *
      refine ⟨?_, ?_, hnamed.close _⟩
      · -- the number that was given is the one that is taken back
        have hne : (1 : Nat) ≠ (n + 2) % 2 ^ 32 := by omega
        have hgone := hboth.erase ((n + 2) % 2 ^ 32)
        rw [hnext] at hgone
        refine (close_ids _ _).trans (List.perm_singleton.1 (hgone.trans (List.Perm.of_eq ?_)))
        rw [List.singleton_append, List.erase_cons_tail (by simpa using hne), List.erase_cons_head]
      · have hclose := d₁.apply_nextId (.close ((n + 2) % 2 ^ 32))
        simp only [Desktop.opens, if_false, Bool.false_eq_true] at hclose
        rw [hclose, hafter, hnext, Nat.mod_add_mod]

theorem beside_legal (n : Nat) : ∀ op ∈ beside n, ∀ d : Desktop, d.Legal op := by
  induction n with
  | zero =>
      intro op hop d
      rw [List.mem_singleton.1 hop]
      trivial
  | succ n ih =>
      intro op hop d
      rcases List.mem_append.1 hop with hop | hop
      · exact ih op hop d
      · simp only [List.mem_cons, List.not_mem_nil, or_false] at hop
        rcases hop with rfl | rfl <;> trivial

/-- A run of the window manager after which the bar shows two windows twice. -/
theorem not_all_sound : ¬ ∀ ops, StepsMeet apply Desktop.Legal {} ops →
    (({} : Panel).layout (run apply {} ops) 80 24 false).Sound (run apply {} ops) := by
  intro hall
  obtain ⟨n, hn⟩ : ∃ n, n + 1 = 2 ^ 32 := ⟨4294967295, rfl⟩
  obtain ⟨hids, hnext, hname⟩ := beside_run n (by omega)
  have hsound := hall (beside n ++ [.open (some ⟨10, 3⟩) {}]) (StepsMeet.of_forall (fun op hop d => by
    rcases List.mem_append.1 hop with hop | hop
    · exact beside_legal n op hop d
    · rw [List.mem_singleton.1 hop]
      trivial) _)
  rw [run_append, Sshos.Lib.run_cons, Sshos.Lib.run_nil] at hsound
  generalize run apply {} (beside n) = d at *
  obtain ⟨hboth, -, hnamed⟩ := open_beside hids hname
  have hround : (n + 2) % 2 ^ 32 = 1 := by omega
  rw [hnext, hround] at hboth
  generalize d.apply (.open (some ⟨10, 3⟩) {}) = d₁ at *
  obtain ⟨w, hw, hid⟩ := List.mem_map.1 (hboth.mem_iff.2 (List.mem_cons_self ..))
  have hunlisted : listed w = false := by
    rw [listed, hnamed w hw]
    decide
  have hone := (belongings_iff d₁).1 hsound.belongs w hw hunlisted
  have htwo := hboth.countP_eq (fun id => decide (id = w.id))
  rw [ids, List.countP_map, hid] at htwo
  rw [hid] at hone
  exact absurd (hone.symm.trans htwo) (by decide)

end Round

end Panel

end Sshos.Shell
