import Sshos.Apps.EmulatorReads
import Sshos.Apps.Tabbed

/-!
# Sshos.Apps.TabbedSteps

What a **step of the terminal window** does to its tabs.

A tab is told by the order in which it was opened. What it hears (`Heard`) is what its guest
wrote, the sizes of the window and the gestures it takes; a step does to the emulator of
every tab what the tab hears in it, and to nothing else of it than its pseudo-terminal, its
name and its line (`Evolves`). Everything that holds along runs is derived from `change_step`.
-/

namespace Sshos.Apps.Tabbed

open Sshos (Kernel Pid Pty WaitStatus)
open Sshos.Input (KeyEvent MouseEvent)
open Sshos.Lib (Bytes)
open Sshos.Vt (Modes Screen Scrollback SinkCall)

/-! ### What a tab hears -/

inductive Heard where
  | byte (b : UInt8)
  | size (w h : Int)
  | key (k : KeyEvent)
  | mouse (m : MouseEvent)
  | paste (text : Bytes) (complete : Bool)
  deriving DecidableEq

/-- An emulator and the size of the window it is in. -/
structure Own where
  emulator : Emulator := freshEmulator
  w : Int := 80
  h : Int := 24

def Own.hear (o : Own) : Heard → Own
  | .byte b => { o with emulator := o.emulator.feed false [b] }
  | .size w h => ⟨resized o.emulator (max 1 w) (max 1 (h - kBarRows)), w, h⟩
  | .key k => { o with emulator := (keyed o.emulator o.h k).1 }
  | .mouse m => { o with emulator := (moused o.emulator m).1 }
  | .paste _ _ => { o with emulator := scroll o.emulator (·.scrollToBottom) }

/-- What is heard one after the other. -/
def Own.hears (o : Own) (events : List Heard) : Own := events.foldl Own.hear o

namespace Terminal

variable (t : Terminal)

/-- The tabs, by the order in which they were opened. -/
def serials : List Nat := t.tabs.map (·.serial)

/-- What reaches tab `n` in a step: the bytes of its guest, the size of the window, and what
the user does while it is looked at. -/
def heardAt (n : Nat) : Input → List Heard
  | .io key a =>
      if t.host.owns key then
        match t.watcher key with
        | none => []
        | some i => if (t.tab i).serial = n then ((t.readsOf i a).1.flatten).map .byte else []
      else []
  | .key k _ => if t.activeTab.serial = n then [.key k] else []
  | .mouse m _ => if t.activeTab.serial = n then [.mouse m] else []
  | .paste text complete => if t.activeTab.serial = n then [.paste text complete] else []
  | .resize w h => if 0 < w ∧ 0 < h ∧ n ∈ t.serials then [.size w h] else []
  | _ => []

/-- What the user does goes to the tab: it is not for the bar or a field of the window, and
the shell is not known to be dead. -/
def takes : Input → Bool
  | .key k master => t.mode = .normal && (t.gesture k master).isNone && !t.activeTab.pty.exited
  | .mouse m _ => kBarRows ≤ m.y && !t.activeTab.pty.exited
  | .paste _ _ => t.mode = .normal && !t.activeTab.pty.exited
  | _ => true

/-- A tab that is opened gets the size of the window. -/
def bornAt (n : Nat) (i : Input) : List Heard :=
  if n ∉ t.serials ∧ n ∈ (t.step i).serials then [.size t.w t.h] else []

/-- What tab `n` hears in a step: of the user's doing all, or only what it takes. -/
def eventsAt (all : Bool) (n : Nat) (i : Input) : List Heard :=
  (if all || t.takes i then t.heardAt n i else []) ++ t.bornAt n i

/-- What it hears along a run. -/
def events (all : Bool) (n : Nat) : Terminal → List Input → List Heard
  | _, [] => []
  | t, i :: is => t.eventsAt all n i ++ events all n (t.step i) is

end Terminal

/-! ### The emulator, piece by piece -/

theorem feed_nil (e : Emulator) : e.feed false [] = e := rfl

theorem feed_append (e : Emulator) (as bs : Bytes) :
    e.feed false (as ++ bs) = (e.feed false as).feed false bs := by
  simp only [Emulator.feed, Vt.Parser.feed_append, List.foldl_append]

theorem hears_bytes (o : Own) (bytes : Bytes) :
    o.hears (bytes.map .byte) = { o with emulator := o.emulator.feed false bytes } := by
  induction bytes generalizing o with
  | nil => rfl
  | cons b bytes ih =>
      show (o.hear (.byte b)).hears (bytes.map .byte) = _
      rw [ih]
      show { o with emulator := (o.emulator.feed false [b]).feed false bytes } = _
      rw [← feed_append]
      rfl

/-- What was read and what is left is what there was. -/
theorem reads_flatten (closed zero : Bool) (sizes : List Nat) (unread : Bytes) :
    (Line.reads closed zero sizes unread).1.flatten ++ (Line.reads closed zero sizes unread).2.1 =
      unread := by
  induction sizes generalizing unread with
  | nil => cases unread <;> rfl
  | cons size sizes ih =>
      cases unread with
      | nil => rfl
      | cons b unread =>
          simp only [Line.reads, List.flatten_cons, List.append_assoc]
          rw [ih, List.take_append_drop]

/-- The screen has the size of the window, less the bar. -/
structure Fits (e : Emulator) (w h : Int) : Prop where
  cols : e.sink.screen.cols = max 1 w
  rows : e.sink.screen.rows = max 1 (h - kBarRows)

theorem Fits.resized {e : Emulator} {w h : Int} (hfits : Fits e w h) :
    resized e (max 1 w) (max 1 (h - kBarRows)) = e := by
  have hsame : e.sink.screen.resize (max 1 w) (max 1 (h - kBarRows)) = e.sink.screen := by
    unfold Screen.resize
    simp only
    exact if_pos ⟨by rw [hfits.cols]; omega, by rw [hfits.rows]; omega⟩
  unfold Tabbed.resized
  rw [hsame]

theorem resetTabs_size (s : Screen) : s.resetTabs.cols = s.cols ∧ s.resetTabs.rows = s.rows := by
  have hput : ∀ (s : Screen) (x : Int), ((s.putTab x true).cols, (s.putTab x true).rows) = (s.cols, s.rows) := by
    intro s x
    unfold Screen.putTab
    split <;> rfl
  have hall := Lib.forUp_keeps (fun s : Screen => (s.cols, s.rows))
    (f := fun s k => s.putTab (Screen.kTabStop * k) true) (fun s _ => hput s _) 1
    ((s.cols - 1) / Screen.kTabStop + 1) { s with tabs := List.replicate s.cols.toNat false }
  exact ⟨congrArg Prod.fst hall, congrArg Prod.snd hall⟩

theorem fits_resized (e : Emulator) (w h : Int) :
    Fits (resized e (max 1 w) (max 1 (h - kBarRows))) w h := by
  have hsize : ∀ (s : Screen) (c r : Int), (s.resize c r).cols = max 1 c ∧ (s.resize c r).rows = max 1 r := by
    intro s c r
    unfold Screen.resize
    simp only
    split
    · next hsame => exact ⟨hsame.1.symm, hsame.2.symm⟩
    · split
      · exact resetTabs_size _
      · exact ⟨rfl, rfl⟩
  obtain ⟨hc, hr⟩ := hsize e.sink.screen (max 1 w) (max 1 (h - kBarRows))
  exact ⟨hc.trans (by omega), hr.trans (by omega)⟩

theorem Fits.feed {e : Emulator} {w h : Int} (hfits : Fits e w h) (bytes : Bytes) :
    Fits (e.feed false bytes) w h := by
  have hcalls : ∀ (calls : List SinkCall) (t : Sink),
      (calls.foldl (Sink.call false) t).screen.cols = t.screen.cols ∧
        (calls.foldl (Sink.call false) t).screen.rows = t.screen.rows := by
    intro calls
    induction calls with
    | nil => exact fun t => ⟨rfl, rfl⟩
    | cons c calls ih =>
        intro t
        obtain ⟨hc, hr⟩ := ih (Sink.call false t c)
        obtain ⟨hc', hr'⟩ := Sink.call_size false t c
        exact ⟨hc.trans hc', hr.trans hr'⟩
  obtain ⟨hc, hr⟩ := hcalls (e.parser.feed bytes).2 e.sink
  exact ⟨hc.trans hfits.cols, hr.trans hfits.rows⟩

theorem Fits.keyed {e : Emulator} {w h : Int} (hfits : Fits e w h) (k : KeyEvent) :
    Fits (keyed e h k).1 w h := by
  unfold Tabbed.keyed
  simp only
  repeat' split
  all_goals exact ⟨hfits.cols, hfits.rows⟩

theorem Fits.moused {e : Emulator} {w h : Int} (hfits : Fits e w h) (m : MouseEvent) :
    Fits (moused e m).1 w h := by
  unfold Tabbed.moused
  simp only
  repeat' split
  all_goals exact ⟨hfits.cols, hfits.rows⟩

/-- Whatever is heard, the screen has the size of the window. -/
theorem Fits.hears {o : Own} (hfits : Fits o.emulator o.w o.h) (events : List Heard) :
    Fits (o.hears events).emulator (o.hears events).w (o.hears events).h := by
  induction events generalizing o with
  | nil => exact hfits
  | cons e events ih =>
      have hstep : Fits (o.hear e).emulator (o.hear e).w (o.hear e).h := by
        cases e with
        | byte b => exact hfits.feed [b]
        | size w h => exact fits_resized _ _ _
        | key k => exact hfits.keyed k
        | mouse m => exact hfits.moused m
        | paste text complete => exact ⟨hfits.cols, hfits.rows⟩
      exact ih hstep

/-! ### What a step changes -/

namespace Terminal

variable {t t' t'' : Terminal}

/-- What holds of the window along every run. -/
structure Sane (t : Terminal) : Prop where
  active : t.active < t.tabs.length
  nodup : t.serials.Nodup
  opened : ∀ n ∈ t.serials, n < t.opened
  feeding : t.feeding = none
  fits : ∀ tab ∈ t.tabs, Fits tab.emulator t.w t.h
  read : ∀ tab ∈ t.tabs, tab.fed ++ tab.line.unread = tab.line.wrote

/-- The same tab, later: its emulator heard some events. -/
structure Evolves (t t' : Terminal) (events : List Heard) (tab tab' : Tab) : Prop where
  serial : tab'.serial = tab.serial
  heard : Own.hears ⟨tab.emulator, t.w, t.h⟩ events = ⟨tab'.emulator, t'.w, t'.h⟩
  read : tab.fed ++ tab.line.unread = tab.line.wrote →
    tab'.fed ++ tab'.line.unread = tab'.line.wrote

/-- A tab that was just opened. -/
structure Born (t t' : Terminal) (tab' : Tab) : Prop where
  serial : tab'.serial = t.opened
  heard : Own.hears {} [.size t.w t.h] = ⟨tab'.emulator, t'.w, t'.h⟩
  read : tab'.fed ++ tab'.line.unread = tab'.line.wrote

/-- What becomes of a window whose tabs hear some events each. -/
structure Change (t t' : Terminal) (events : Nat → List Heard) : Prop where
  tabs : ∀ tab' ∈ t'.tabs,
    (∃ tab ∈ t.tabs, Evolves t t' (events tab.serial) tab tab') ∨ Born t t' tab'
  serials : t'.serials.Sublist t.serials ∨
    ∃ stay, stay.Sublist t.serials ∧ t'.serials = stay ++ [t.opened] ∧ t.opened < t'.opened
  opened : t.opened ≤ t'.opened
  active : t'.active < t'.tabs.length
  feeding : t'.feeding = none

theorem mem_serials {tab : Tab} (h : tab ∈ t.tabs) : tab.serial ∈ t.serials := List.mem_map_of_mem h

/-- A change keeps the window sane. -/
theorem Sane.change {events : Nat → List Heard} (h : t.Sane) (hchange : Change t t' events) :
    t'.Sane where
  active := hchange.active
  feeding := hchange.feeding
  nodup := by
    rcases hchange.serials with hsub | ⟨stay, hsub, heq, -⟩
    · exact h.nodup.sublist hsub
    · rw [heq]
      refine List.nodup_append.2 ⟨h.nodup.sublist hsub, List.nodup_singleton _, ?_⟩
      intro n hn m hm
      rw [List.mem_singleton.1 hm]
      exact (h.opened n (hsub.subset hn)).ne
  opened := by
    intro n hn
    rcases hchange.serials with hsub | ⟨stay, hsub, heq, hlt⟩
    · exact (h.opened n (hsub.subset hn)).trans_le hchange.opened
    · rw [heq] at hn
      rcases List.mem_append.1 hn with hn | hn
      · exact (h.opened n (hsub.subset hn)).trans hlt
      · rw [List.mem_singleton.1 hn]
        exact hlt
  fits := by
    intro tab' htab'
    rcases hchange.tabs tab' htab' with ⟨tab, htab, hev⟩ | hborn
    · have hfits := Fits.hears (o := ⟨tab.emulator, t.w, t.h⟩) (h.fits tab htab) (events tab.serial)
      rw [hev.heard] at hfits
      exact hfits
    · have hfits : Fits (Own.hears {} [.size t.w t.h]).emulator t.w t.h := fits_resized _ _ _
      rw [hborn.heard] at hfits
      have hw : t'.w = t.w := (congrArg Own.w hborn.heard).symm
      have hh : t'.h = t.h := (congrArg Own.h hborn.heard).symm
      rw [hw, hh]
      exact hfits
  read := by
    intro tab' htab'
    rcases hchange.tabs tab' htab' with ⟨tab, htab, hev⟩ | hborn
    · exact hev.read (h.read tab htab)
    · exact hborn.read

/-- Only what the tabs of the window hear counts. -/
theorem Change.congr {events events' : Nat → List Heard} (h : Change t t' events)
    (heq : ∀ n ∈ t.serials, events' n = events n) : Change t t' events' := by
  refine ⟨fun tab' htab' => ?_, h.serials, h.opened, h.active, h.feeding⟩
  rcases h.tabs tab' htab' with ⟨tab, htab, hev⟩ | hborn
  · exact .inl ⟨tab, htab, (heq _ (mem_serials htab)).symm ▸ hev⟩
  · exact .inr hborn

/-- What the window keeps besides its tabs does not matter here. -/
theorem Change.of_eq {events : Nat → List Heard} (h : Change t t' events) (htabs : t''.tabs = t'.tabs)
    (hsize : t''.w = t'.w ∧ t''.h = t'.h) (hopened : t''.opened = t'.opened)
    (hactive : t''.active = t'.active) (hfeeding : t''.feeding = t'.feeding) : Change t t'' events := by
  refine ⟨fun tab' htab' => ?_, ?_, hopened ▸ h.opened, by rw [hactive, htabs]; exact h.active,
    hfeeding.trans h.feeding⟩
  · rcases h.tabs tab' (htabs ▸ htab') with ⟨tab, htab, hev⟩ | hborn
    · exact .inl ⟨tab, htab, hev.serial, by rw [hsize.1, hsize.2]; exact hev.heard, hev.read⟩
    · exact .inr ⟨hborn.serial, by rw [hsize.1, hsize.2]; exact hborn.heard, hborn.read⟩
  · rw [Terminal.serials, htabs, hopened]
    exact h.serials

/-- Nothing was heard, and the tabs are the same or fewer. -/
structure Quiet (t t' : Terminal) : Prop where
  tabs : ∀ tab' ∈ t'.tabs, ∃ tab ∈ t.tabs, Evolves t t' [] tab tab'
  serials : t'.serials.Sublist t.serials
  size : t'.w = t.w ∧ t'.h = t.h
  opened : t'.opened = t.opened
  active : t'.active < t'.tabs.length
  feeding : t'.feeding = none

theorem Quiet.change (h : Quiet t t') : Change t t' fun _ => [] :=
  ⟨fun tab' htab' => .inl (h.tabs tab' htab'), .inl h.serials, h.opened.ge, h.active, h.feeding⟩

theorem Sane.quiet (h : t.Sane) (hquiet : Quiet t t') : t'.Sane := h.change hquiet.change

theorem Evolves.refl (tab : Tab) (hsize : t'.w = t.w ∧ t'.h = t.h) : Evolves t t' [] tab tab :=
  ⟨rfl, by rw [hsize.1, hsize.2]; rfl, id⟩

/-- The tabs are the same, and the window looks at one of them. -/
theorem Sane.quiet_of_tabs (h : t.Sane) (htabs : t'.tabs = t.tabs) (hsize : t'.w = t.w ∧ t'.h = t.h)
    (hopened : t'.opened = t.opened) (hactive : t'.active < t.tabs.length)
    (hfeeding : t'.feeding = t.feeding) : Quiet t t' where
  tabs tab' htab' := ⟨tab', htabs ▸ htab', Evolves.refl tab' hsize⟩
  serials := by
    rw [serials, serials, htabs]
  size := hsize
  opened := hopened
  active := htabs ▸ hactive
  feeding := hfeeding.trans h.feeding

theorem Sane.refl (h : t.Sane) : Quiet t t := h.quiet_of_tabs rfl ⟨rfl, rfl⟩ rfl h.active rfl

theorem Quiet.trans_change {events : Nat → List Heard} (h : Quiet t t') (h' : Change t' t'' events) :
    Change t t'' events where
  tabs tab'' htab'' := by
    rcases h'.tabs tab'' htab'' with ⟨tab', htab', hev'⟩ | hborn
    · obtain ⟨tab, htab, hev⟩ := h.tabs tab' htab'
      have hheard : (⟨tab.emulator, t.w, t.h⟩ : Own) = ⟨tab'.emulator, t'.w, t'.h⟩ := hev.heard
      refine .inl ⟨tab, htab, hev'.serial.trans hev.serial, ?_, fun hread => hev'.read (hev.read hread)⟩
      rw [hheard, ← hev.serial]
      exact hev'.heard
    · have hheard := hborn.heard
      rw [h.size.1, h.size.2] at hheard
      exact .inr ⟨hborn.serial.trans h.opened, hheard, hborn.read⟩
  serials := by
    rcases h'.serials with hsub | ⟨stay, hsub, heq, hlt⟩
    · exact .inl (hsub.trans h.serials)
    · rw [h.opened] at heq hlt
      exact .inr ⟨stay, hsub.trans h.serials, heq, hlt⟩
  opened := h.opened ▸ h'.opened
  active := h'.active
  feeding := h'.feeding

theorem tab_eq {i : Nat} (hi : i < t.tabs.length) : t.tab i = t.tabs[i] := by
  unfold tab
  rw [List.getD_eq_getElem?_getD, List.getElem?_eq_getElem hi]
  rfl

theorem tab_mem {i : Nat} (hi : i < t.tabs.length) : t.tab i ∈ t.tabs :=
  tab_eq hi ▸ List.getElem_mem hi

theorem serial_inj (hnodup : t.serials.Nodup) {i j : Nat} (hi : i < t.tabs.length)
    (hj : j < t.tabs.length) (hsame : (t.tab i).serial = (t.tab j).serial) : i = j := by
  rw [tab_eq hi, tab_eq hj] at hsame
  have hgets : t.serials[i]? = t.serials[j]? := by
    simp only [serials, List.getElem?_map, List.getElem?_eq_getElem hi, List.getElem?_eq_getElem hj,
      Option.map_some, hsame]
  exact (List.getElem?_inj (by simpa [serials] using hi) hnodup).1 hgets

theorem Sane.activeTab_mem (h : t.Sane) : t.activeTab ∈ t.tabs := tab_mem h.active

theorem serials_update {i : Nat} {f : Tab → Tab} (hi : i < t.tabs.length)
    (hf : (f (t.tab i)).serial = (t.tab i).serial) : (t.update i f).serials = t.serials := by
  refine List.ext_getElem (by simp [serials, update]) fun j hj hj' => ?_
  simp only [serials, update, List.getElem_map, List.getElem_modify]
  split
  · next heq =>
      subst heq
      rw [tab_eq hi] at hf
      exact hf
  · rfl

/-- After one tab is changed, the others are as they were. -/
theorem Sane.mem_update (h : t.Sane) {i : Nat} (hi : i < t.tabs.length) {f : Tab → Tab} {tab' : Tab}
    (htab' : tab' ∈ (t.update i f).tabs) :
    tab' = f (t.tab i) ∨ tab' ∈ t.tabs ∧ tab'.serial ≠ (t.tab i).serial := by
  obtain ⟨j, hj, heq⟩ := List.mem_iff_getElem.1 htab'
  have hj' : j < t.tabs.length := by simpa [update] using hj
  simp only [update, List.getElem_modify] at heq
  by_cases hij : i = j
  · subst hij
    rw [if_pos rfl] at heq
    exact .inl (by rw [tab_eq hi, heq])
  · rw [if_neg hij] at heq
    refine .inr ⟨heq ▸ List.getElem_mem hj', fun hsame => hij ?_⟩
    rw [← heq, ← tab_eq hj'] at hsame
    exact serial_inj h.nodup hi hj' hsame.symm

/-- One tab is changed, and hears what it hears. -/
theorem Sane.change_update (h : t.Sane) {i : Nat} (hi : i < t.tabs.length) {f : Tab → Tab}
    {events : Nat → List Heard}
    (hf : Evolves t (t.update i f) (events (t.tab i).serial) (t.tab i) (f (t.tab i)))
    (hnone : ∀ n ∈ t.serials, n ≠ (t.tab i).serial → events n = []) :
    Change t (t.update i f) events := by
  refine ⟨fun tab' htab' => .inl ?_, .inl (by rw [serials_update hi hf.serial]), Nat.le_refl _, ?_,
    h.feeding⟩
  · rcases h.mem_update hi htab' with rfl | ⟨hmem, hne⟩
    · exact ⟨t.tab i, tab_mem hi, hf⟩
    · exact ⟨tab', hmem, (hnone _ (mem_serials hmem) hne).symm ▸ Evolves.refl _ ⟨rfl, rfl⟩⟩
  · simpa [update] using h.active

/-! ### The functions of the window, one by one -/

/-- A tab is changed where nobody hears of it. -/
theorem Sane.quiet_update (h : t.Sane) {i : Nat} (hi : i < t.tabs.length) {f : Tab → Tab}
    (hf : Evolves t (t.update i f) [] (t.tab i) (f (t.tab i))) : Quiet t (t.update i f) := by
  refine ⟨fun tab' htab' => ?_, by rw [serials_update hi hf.serial], ⟨rfl, rfl⟩, rfl, ?_, h.feeding⟩
  · rcases h.mem_update hi htab' with rfl | ⟨hmem, -⟩
    · exact ⟨t.tab i, tab_mem hi, hf⟩
    · exact ⟨tab', hmem, Evolves.refl _ ⟨rfl, rfl⟩⟩
  · simpa [update] using h.active

theorem Quiet.trans (h : Quiet t t') (h' : Quiet t' t'') : Quiet t t'' where
  tabs tab'' htab'' := by
    obtain ⟨tab', htab', hev'⟩ := h'.tabs tab'' htab''
    obtain ⟨tab, htab, hev⟩ := h.tabs tab' htab'
    have hheard : (⟨tab.emulator, t.w, t.h⟩ : Own) = ⟨tab'.emulator, t'.w, t'.h⟩ := hev.heard
    exact ⟨tab, htab, hev'.serial.trans hev.serial, hheard.trans hev'.heard,
      fun hread => hev'.read (hev.read hread)⟩
  serials := h'.serials.trans h.serials
  size := ⟨h'.size.1.trans h.size.1, h'.size.2.trans h.size.2⟩
  opened := h'.opened.trans h.opened
  active := h'.active
  feeding := h'.feeding

theorem Quiet.of_eq (h : Quiet t t') (htabs : t''.tabs = t'.tabs) (hsize : t''.w = t'.w ∧ t''.h = t'.h)
    (hopened : t''.opened = t'.opened) (hactive : t''.active = t'.active)
    (hfeeding : t''.feeding = t'.feeding) : Quiet t t'' := by
  refine ⟨fun tab' htab' => ?_, ?_, ⟨hsize.1.trans h.size.1, hsize.2.trans h.size.2⟩,
    hopened.trans h.opened, by rw [hactive, htabs]; exact h.active, hfeeding.trans h.feeding⟩
  · obtain ⟨tab, htab, hev⟩ := h.tabs tab' (htabs ▸ htab')
    exact ⟨tab, htab, hev.serial, by rw [hsize.1, hsize.2]; exact hev.heard, hev.read⟩
  · show (t''.tabs.map _).Sublist _
    rw [htabs]
    exact h.serials

theorem Sane.selectTab (h : t.Sane) (i : Nat) : Quiet t (t.selectTab i) := by
  unfold Terminal.selectTab
  split
  · exact h.refl
  · next hi => exact h.quiet_of_tabs rfl ⟨rfl, rfl⟩ rfl (Nat.lt_of_not_le hi) rfl

theorem Sane.cycleTab (h : t.Sane) (d : Int) : Quiet t (t.cycleTab d) := h.selectTab _

/-- What closing a tab comes to, as far as the tabs go. -/
theorem closeTab_cases (t : Terminal) (i : Nat) :
    (t.closeTab i).w = t.w ∧ (t.closeTab i).h = t.h ∧ (t.closeTab i).opened = t.opened ∧
      (t.closeTab i).feeding = t.feeding ∧
      ((t.closeTab i).tabs = t.tabs ∧ (t.closeTab i).active = t.active ∧
          (t.tabs.length ≤ i ∨ t.tabs.length = 1) ∨
        i < t.tabs.length ∧ t.tabs.length ≠ 1 ∧ (t.closeTab i).tabs = t.tabs.eraseIdx i ∧
          (t.closeTab i).active =
            if t.active ≥ t.tabs.length - 1 then t.tabs.length - 1 - 1 else t.active) := by
  unfold closeTab
  cases hi : t.tabs[i]? with
  | none => exact ⟨rfl, rfl, rfl, rfl, .inl ⟨rfl, rfl, .inl (List.getElem?_eq_none_iff.1 hi)⟩⟩
  | some dying =>
      simp only
      by_cases hone : t.tabs.length = 1
      · rw [if_pos hone]
        exact ⟨rfl, rfl, rfl, rfl, .inl ⟨rfl, rfl, .inr hone⟩⟩
      · rw [if_neg hone]
        obtain ⟨hlt, -⟩ := List.getElem?_eq_some_iff.1 hi
        have hlen : (t.tabs.eraseIdx i).length = t.tabs.length - 1 := List.length_eraseIdx_of_lt hlt
        refine ⟨rfl, rfl, rfl, rfl, .inr ⟨hlt, hone, rfl, ?_⟩⟩
        rw [← hlen]
        rfl

theorem Sane.closeTab (h : t.Sane) (i : Nat) : Quiet t (t.closeTab i) := by
  obtain ⟨hw, hh, hopened, hfeeding, hsame | ⟨hi, hone, htabs, hactive⟩⟩ := closeTab_cases t i
  · exact h.quiet_of_tabs hsame.1 ⟨hw, hh⟩ hopened (hsame.2.1 ▸ h.active) hfeeding
  · refine ⟨fun tab' htab' => ?_, ?_, ⟨hw, hh⟩, hopened, ?_, hfeeding.trans h.feeding⟩
    · rw [htabs] at htab'
      exact ⟨tab', List.mem_of_mem_eraseIdx htab', Evolves.refl tab' ⟨hw, hh⟩⟩
    · rw [serials, htabs]
      exact (List.eraseIdx_sublist _ _).map _
    · have hlen : (t.tabs.eraseIdx i).length = t.tabs.length - 1 := List.length_eraseIdx_of_lt hi
      have hlt := h.active
      rw [htabs, hlen, hactive]
      split <;> omega

theorem Sane.commitRename (h : t.Sane) : Quiet t t.commitRename := by
  unfold Terminal.commitRename
  split
  · exact h.refl
  · exact (h.quiet_update h.active ⟨rfl, rfl, id⟩).of_eq rfl ⟨rfl, rfl⟩ rfl rfl rfl

theorem Sane.commitPathEdit (h : t.Sane) : Quiet t t.commitPathEdit := by
  unfold Terminal.commitPathEdit
  split
  · exact h.refl
  · exact h.refl.of_eq rfl ⟨rfl, rfl⟩ rfl rfl rfl

theorem Sane.beginRename (h : t.Sane) : Quiet t t.beginRename := h.refl.of_eq rfl ⟨rfl, rfl⟩ rfl rfl rfl

theorem Sane.beginPathEdit (h : t.Sane) : Quiet t t.beginPathEdit :=
  h.refl.of_eq rfl ⟨rfl, rfl⟩ rfl rfl rfl

theorem Sane.fieldKey (h : t.Sane) {commit : Terminal} (hcommit : Quiet t commit) (most : Nat)
    (k : KeyEvent) : Quiet t (t.fieldKey commit most k) := by
  have hsame : ∀ (mode : EditMode) (edit : Bytes), Quiet t { t with mode := mode, edit := edit } :=
    fun _ _ => h.refl.of_eq rfl ⟨rfl, rfl⟩ rfl rfl rfl
  unfold Terminal.fieldKey
  split
  · exact hcommit
  · exact hsame _ _
  · exact hsame t.mode _
  · split
    · exact hsame t.mode _
    · exact h.refl
  · exact h.refl

theorem freeFd_not_used (ep : Daemon.Epoll) (fd : Nat) : ∀ i ∈ ep, i.fd ≠ freeFd ep fd := by
  have hmax : ∀ (ep : Daemon.Epoll) (m : Int), m ≤ ep.foldl (fun m i => max m i.fd) m ∧
      ∀ i ∈ ep, i.fd ≤ ep.foldl (fun m i => max m i.fd) m := by
    intro ep
    induction ep with
    | nil => exact fun m => ⟨le_refl m, nofun⟩
    | cons j ep ih =>
        intro m
        obtain ⟨hm, hall⟩ := ih (max m j.fd)
        refine ⟨(le_max_left _ _).trans hm, fun i hi => ?_⟩
        rcases List.mem_cons.1 hi with rfl | hi
        · exact (le_max_right _ _).trans hm
        · exact hall i hi
  intro i hi
  unfold freeFd
  split
  · have hle := (hmax ep 0).2 i hi
    omega
  · next hfree =>
      intro heq
      exact hfree (List.any_eq_true.2 ⟨i, hi, beq_iff_eq.2 heq⟩)

/-- A new tab comes last, and is looked at; the others notice nothing. -/
theorem Sane.openTab (h : t.Sane) (master : Option Nat) : Change t (t.openTab master) fun _ => [] := by
  unfold Terminal.openTab
  cases master with
  | none =>
      refine ⟨fun tab' htab' => .inl ⟨tab', htab', Evolves.refl tab' ⟨rfl, rfl⟩⟩, .inl ?_,
        Nat.le_succ _, h.active, h.feeding⟩
      exact List.Sublist.refl _
  | some fd =>
      have hold : ∀ tab ∈ t.tabs,
          resized tab.emulator (max 1 t.w) (max 1 (t.h - kBarRows)) = tab.emulator :=
        fun tab htab => (h.fits tab htab).resized
      refine ⟨fun tab' htab' => ?_, .inr ⟨t.serials, List.Sublist.refl _, ?_, Nat.lt_succ_self _⟩,
        Nat.le_succ _, ?_, h.feeding⟩
      · obtain ⟨tab, htab, rfl⟩ := List.mem_map.1 htab'
        rcases List.mem_append.1 htab with hmem | hmem
        · refine .inl ⟨tab, hmem, rfl, ?_, id⟩
          show (⟨tab.emulator, t.w, t.h⟩ : Own) =
            ⟨resized tab.emulator (max 1 t.w) (max 1 (t.h - kBarRows)), t.w, t.h⟩
          rw [hold tab hmem]
        · rw [List.mem_singleton.1 hmem]
          exact .inr ⟨rfl, rfl, rfl⟩
      · simp [serials, openTabInto, relayout, retitle]
      · simp [openTabInto, relayout, retitle]

theorem Sane.barClick (h : t.Sane) (x : Int) (master : Option Nat) :
    Change t (t.barClick x master) fun _ => [] := by
  unfold Terminal.barClick
  cases t.barSlots.find? fun s => decide (s.x ≤ x ∧ x < s.x + s.w) with
  | none => exact h.refl.change
  | some s =>
      simp only
      cases s.kind with
      | new => exact h.openTab master
      | settings => exact h.beginPathEdit.change
      | close => exact (h.closeTab s.tab).change
      | select =>
          simp only
          split
          · exact h.beginRename.change
          · exact (h.selectTab s.tab).change

theorem Sane.gesture (h : t.Sane) {k : KeyEvent} {master : Option Nat} (hg : t.gesture k master = some t') :
    Change t t' fun _ => [] := by
  unfold Terminal.gesture at hg
  repeat' split at hg
  · exact Option.some.inj hg ▸ h.openTab master
  · exact Option.some.inj hg ▸ (h.closeTab t.active).change
  · exact Option.some.inj hg ▸ (h.cycleTab (-1)).change
  · exact Option.some.inj hg ▸ (h.cycleTab 1).change
  · exact Option.some.inj hg ▸ h.beginRename.change
  · cases hg

/-- The tab that is looked at takes what the user does. -/
theorem Sane.change_take (h : t.Sane) (g : Tab → Emulator × Bytes) (event : Heard)
    (heard : Own.hear ⟨t.activeTab.emulator, t.w, t.h⟩ event = ⟨(g t.activeTab).1, t.w, t.h⟩) :
    Change t (t.update t.active fun tab => tab.take (g tab))
      fun n => if t.activeTab.serial = n then [event] else [] := by
  refine h.change_update h.active ⟨rfl, ?_, id⟩ fun n _ hne => if_neg (Ne.symm hne)
  rw [if_pos (show t.activeTab.serial = (t.tab t.active).serial from rfl)]
  exact heard

/-- What tab `n` hears of the step itself. -/
def hearing (t : Terminal) (i : Input) (n : Nat) : List Heard := if t.takes i then t.heardAt n i else []

theorem Change.hearing_of_not {i : Input} (h : Change t t' fun _ => []) (hnot : t.takes i = false) :
    Change t t' (t.hearing i) := by
  refine h.congr fun n _ => ?_
  simp only [hearing, hnot, Bool.false_eq_true, if_false]

theorem Sane.onKey (h : t.Sane) (k : KeyEvent) (master : Option Nat) :
    Change t (t.onKey k master) (t.hearing (.key k master)) := by
  unfold Terminal.onKey
  cases hmode : t.mode with
  | «renaming» =>
      refine Change.hearing_of_not (h.fieldKey h.commitRename kMaxName k).change ?_
      simp [Terminal.takes, hmode]
  | editingPath =>
      refine Change.hearing_of_not (h.fieldKey h.commitPathEdit kMaxPath k).change ?_
      simp [Terminal.takes, hmode]
  | normal =>
      simp only
      cases hg : t.gesture k master with
      | some t' =>
          refine Change.hearing_of_not (h.gesture hg) ?_
          simp [Terminal.takes, hg]
      | none =>
          rw [Option.getD_none, guestKey]
          cases hexited : t.activeTab.pty.exited with
          | true =>
              have hquiet : Quiet t (if k.key = .enter then { t with closeRequested := true } else t) := by
                split
                · exact h.refl.of_eq rfl ⟨rfl, rfl⟩ rfl rfl rfl
                · exact h.refl
              refine Change.hearing_of_not hquiet.change ?_
              simp [Terminal.takes, hexited]
          | false =>
              have htakes : t.takes (.key k master) = true := by
                simp [Terminal.takes, hmode, hg, hexited]
              refine (h.change_take (fun tab => keyed tab.emulator t.h k) (.key k) rfl).congr
                fun n _ => ?_
              rw [hearing, if_pos htakes]
              rfl

theorem Sane.guestMouse (h : t.Sane) (m : MouseEvent) :
    Change t (t.guestMouse m)
      fun n => if t.activeTab.pty.exited = false ∧ t.activeTab.serial = n then [.mouse m] else [] := by
  unfold Terminal.guestMouse
  cases hexited : t.activeTab.pty.exited with
  | true =>
      have hquiet : Quiet t (if m.action = .press then { t with closeRequested := true } else t) := by
        split
        · exact h.refl.of_eq rfl ⟨rfl, rfl⟩ rfl rfl rfl
        · exact h.refl
      exact hquiet.change.congr fun n _ => if_neg (by simp)
  | false =>
      refine (h.change_take (fun tab => moused tab.emulator m) (.mouse m) rfl).congr
        fun n _ => ?_
      simp only [true_and]

/-- Ending what is typed leaves the window looking at the same tab, and its shell alone. -/
theorem commit_activeTab (h : t.Sane) :
    (t.commitRename.commitPathEdit).activeTab.serial = t.activeTab.serial ∧
      (t.commitRename.commitPathEdit).activeTab.pty = t.activeTab.pty := by
  have hpath : ∀ s : Terminal, s.commitPathEdit.activeTab = s.activeTab := by
    intro s
    unfold Terminal.commitPathEdit
    split <;> rfl
  rw [hpath]
  unfold Terminal.commitRename
  split
  · exact ⟨rfl, rfl⟩
  · have hactive := h.active
    simp only [retitle, update, activeTab, tab, List.getD_eq_getElem?_getD, List.getElem?_modify,
      List.getElem?_eq_getElem hactive]
    exact ⟨rfl, rfl⟩

theorem Sane.onMouse (h : t.Sane) (m : MouseEvent) (master : Option Nat) :
    Change t (t.onMouse m master) (t.hearing (.mouse m master)) := by
  have hcommit : Quiet t (if m.action = .press then t.commitRename.commitPathEdit else t) := by
    split
    · exact h.commitRename.trans (h.quiet h.commitRename).commitPathEdit
    · exact h.refl
  have hsame : (if m.action = .press then t.commitRename.commitPathEdit else t).activeTab.serial =
        t.activeTab.serial ∧
      (if m.action = .press then t.commitRename.commitPathEdit else t).activeTab.pty = t.activeTab.pty := by
    split
    · exact commit_activeTab h
    · exact ⟨rfl, rfl⟩
  unfold Terminal.onMouse
  simp only
  generalize (if m.action = .press then t.commitRename.commitPathEdit else t) = s at hcommit hsame
  have hsane := h.quiet hcommit
  by_cases hbar : m.y < kBarRows
  · rw [if_pos hbar]
    have hclick : Change s (if m.action = .press then s.barClick m.x master else s) fun _ => [] := by
      split
      · exact hsane.barClick m.x master
      · exact hsane.refl.change
    refine Change.hearing_of_not (hcommit.trans_change hclick) ?_
    simp [Terminal.takes, hbar]
  · rw [if_neg hbar]
    refine (hcommit.trans_change (hsane.guestMouse m)).congr fun n _ => ?_
    rw [hsame.1, hsame.2]
    have htakes : t.takes (.mouse m master) = !t.activeTab.pty.exited := by
      simp [Terminal.takes, Int.not_lt.1 hbar]
    rw [hearing, htakes]
    cases t.activeTab.pty.exited <;> simp [heardAt]

theorem Sane.onPaste (h : t.Sane) (text : Bytes) (complete : Bool) :
    Change t (t.onPaste text complete) (t.hearing (.paste text complete)) := by
  unfold Terminal.onPaste
  by_cases hmode : t.mode = .normal
  · rw [if_neg (not_not.2 hmode)]
    cases hexited : t.activeTab.pty.exited with
    | true =>
        refine Change.hearing_of_not h.refl.change ?_
        simp [Terminal.takes, hexited]
    | false =>
        have htakes : t.takes (.paste text complete) = true := by simp [Terminal.takes, hmode, hexited]
        have htake := h.change_take
          (fun tab => (scroll tab.emulator (·.scrollToBottom), t.pasted text complete))
          (.paste text complete) rfl
        rw [if_neg Bool.false_ne_true]
        have hsame : ∀ n ∈ t.serials, t.hearing (.paste text complete) n =
            if t.activeTab.serial = n then [.paste text complete] else [] := by
          intro n _
          rw [hearing, if_pos htakes]
          rfl
        exact (htake.congr hsame).of_eq rfl ⟨rfl, rfl⟩ rfl rfl rfl
  · rw [if_pos hmode]
    have hfield : ∀ edit, Quiet t { t with edit := edit } :=
      fun _ => h.refl.of_eq rfl ⟨rfl, rfl⟩ rfl rfl rfl
    refine Change.hearing_of_not ?_ (by simp [Terminal.takes, hmode])
    simp only
    generalize (if t.mode = .renaming then kMaxName else kMaxPath) = most
    split
    · exact (hfield _).change
    · exact h.refl.change

theorem Sane.onResize (h : t.Sane) (w h' : Int) :
    Change t (t.onResize w h') (t.hearing (.resize w h')) := by
  unfold Terminal.onResize
  by_cases hbad : w ≤ 0 ∨ h' ≤ 0
  · rw [if_pos hbad]
    refine h.refl.change.congr fun n _ => ?_
    have hnot : ¬ (0 < w ∧ 0 < h' ∧ n ∈ t.serials) := fun hgood => by omega
    simp [hearing, Terminal.takes, heardAt, hnot]
  · rw [if_neg hbad]
    refine ⟨fun tab' htab' => .inl ?_, .inl ?_, Nat.le_refl _, ?_, h.feeding⟩
    · obtain ⟨tab, htab, rfl⟩ := List.mem_map.1 htab'
      have hgood : 0 < w ∧ 0 < h' ∧ tab.serial ∈ t.serials := ⟨by omega, by omega, mem_serials htab⟩
      refine ⟨tab, htab, rfl, ?_, id⟩
      simp only [hearing, Terminal.takes, heardAt, if_true, if_pos hgood]
      rfl
    · simp only [serials, relayout, List.map_map]
      exact List.Sublist.refl _
    · simpa [relayout] using h.active

/-- Reaping changes the pseudo-terminals only. -/
theorem reapTabs_spec (k : Kernel) (tabs : List Tab) :
    (reapTabs k tabs).2.map (·.serial) = tabs.map (·.serial) ∧
      ∀ tab' ∈ (reapTabs k tabs).2, ∃ tab ∈ tabs, ∃ pty, tab' = { tab with pty := pty } := by
  induction tabs generalizing k with
  | nil =>
      rw [reapTabs]
      exact ⟨rfl, fun tab' htab' => absurd htab' List.not_mem_nil⟩
  | cons tab tabs ih =>
      obtain ⟨hserials, hmem⟩ := ih (tab.pty.tryReap k).2.1
      simp only [reapTabs, List.map_cons]
      refine ⟨by rw [hserials], fun tab' htab' => ?_⟩
      rcases List.mem_cons.1 htab' with rfl | htab'
      · exact ⟨tab, List.mem_cons_self, _, rfl⟩
      · obtain ⟨old, hold, hpty⟩ := hmem tab' htab'
        exact ⟨old, List.mem_cons_of_mem _ hold, hpty⟩

theorem Sane.onChildExit (h : t.Sane) : Quiet t t.onChildExit := by
  obtain ⟨hserials, hmem⟩ := reapTabs_spec t.kernel t.tabs
  refine ⟨fun tab' htab' => ?_, ?_, ⟨rfl, rfl⟩, rfl, ?_, h.feeding⟩
  · obtain ⟨tab, htab, pty, rfl⟩ := hmem tab' htab'
    exact ⟨tab, htab, rfl, rfl, id⟩
  · show ((reapTabs t.kernel t.tabs).2.map (·.serial)).Sublist _
    rw [hserials]
    exact List.Sublist.refl _
  · have hlen := congrArg List.length hserials
    simp only [List.length_map] at hlen
    exact hlen ▸ h.active

/-- The guest writes, or leaves: nobody hears of it yet. -/
theorem Sane.onLine (h : t.Sane) (serial : Nat) {f : Line → Line}
    (hf : ∀ (fed : Bytes) (l : Line), fed ++ l.unread = l.wrote → fed ++ (f l).unread = (f l).wrote) :
    Quiet t (t.onLine serial f) := by
  have hserial : ∀ tab : Tab,
      (if tab.serial = serial then { tab with line := f tab.line } else tab).serial = tab.serial := by
    intro tab
    split <;> rfl
  refine ⟨fun tab' htab' => ?_, ?_, ⟨rfl, rfl⟩, rfl, ?_, h.feeding⟩
  · obtain ⟨tab, htab, rfl⟩ := List.mem_map.1 htab'
    refine ⟨tab, htab, hserial tab, ?_, fun hread => ?_⟩
    · show (⟨tab.emulator, t.w, t.h⟩ : Own) = ⟨Tab.emulator (if _ then _ else _), t.w, t.h⟩
      split <;> rfl
    · split
      · exact hf tab.fed tab.line hread
      · exact hread
  · have hsame : (t.onLine serial f).serials = t.serials := by
      simp only [serials, Terminal.onLine, List.map_map]
      exact List.map_congr_left fun tab _ => hserial tab
    rw [hsame]
  · simpa [Terminal.onLine] using h.active

/-! ### Reading a master -/

/-- A tab that was fed some bytes. -/
def fedTab (tab : Tab) (bytes : Bytes) : Tab :=
  { tab with emulator := tab.emulator.feed false bytes, fed := tab.fed ++ bytes }

theorem modify_modify (f g : Tab → Tab) (i : Nat) (tabs : List Tab) :
    (tabs.modify i f).modify i g = tabs.modify i fun tab => g (f tab) := by
  refine List.ext_getElem (by simp) fun j hj hj' => ?_
  simp only [List.getElem_modify]
  split <;> rfl

theorem update_congr {i : Nat} (hi : i < t.tabs.length) {f g : Tab → Tab} (hfg : f (t.tab i) = g (t.tab i)) :
    t.update i f = t.update i g := by
  have htabs : t.tabs.modify i f = t.tabs.modify i g := by
    refine List.ext_getElem (by simp) fun j hj hj' => ?_
    simp only [List.getElem_modify]
    split
    · next heq =>
        subst heq
        rw [tab_eq hi] at hfg
        exact hfg
    · rfl
  unfold update
  rw [htabs]

theorem tab_update {i : Nat} (hi : i < t.tabs.length) {f : Tab → Tab} :
    (t.update i f).tab i = f (t.tab i) := by
  have hi' : i < (t.update i f).tabs.length := by simpa [update] using hi
  rw [tab_eq hi', tab_eq hi]
  simp [update]

theorem target_of_feeding {i : Nat} (hnodup : t.serials.Nodup) (hi : i < t.tabs.length)
    (hfeeding : t.feeding = some (t.tab i).serial) : t.target = i := by
  unfold target
  rw [hfeeding]
  refine (List.findIdx_eq hi).2 ⟨?_, fun j hj => ?_⟩
  · rw [tab_eq hi]
    exact beq_self_eq_true _
  · refine beq_eq_false_iff_ne.2 fun hsame => hj.ne ?_
    rw [← tab_eq (hj.trans hi)] at hsame
    exact serial_inj hnodup (hj.trans hi) hi hsame

/-- A tab whose sink took some calls. -/
def called (tab : Tab) (calls : List SinkCall) : Tab :=
  { tab with
    emulator := { tab.emulator with sink := calls.foldl (Sink.call false) tab.emulator.sink } }

/-- The sink writes to the tab that is being fed, and to no other. -/
theorem foldl_call {i : Nat} (hnodup : t.serials.Nodup) (hi : i < t.tabs.length)
    (hfeeding : t.feeding = some (t.tab i).serial) (calls : List SinkCall) :
    ∃ title, calls.foldl call t = { t.update i (called · calls) with title := title } := by
  induction calls generalizing t with
  | nil =>
      refine ⟨t.title, ?_⟩
      show t = { t with tabs := t.tabs.modify i id }
      rw [List.modify_id]
  | cons c calls ih =>
      obtain ⟨title, hcall⟩ : ∃ title, t.call c = { t.update i (called · [c]) with title := title } := by
        unfold call
        rw [target_of_feeding hnodup hi hfeeding]
        simp only
        split
        · exact ⟨_, rfl⟩
        · exact ⟨t.title, rfl⟩
      have hserials : (t.call c).serials = t.serials := by
        rw [hcall]
        exact serials_update (f := (called · [c])) hi rfl
      have hlen : i < (t.call c).tabs.length := by
        rw [hcall]
        simpa [update] using hi
      have hsame : (t.call c).feeding = some ((t.call c).tab i).serial := by
        rw [hcall]
        show t.feeding = some ((t.update i (called · [c])).tab i).serial
        rw [hfeeding, tab_update hi]
        rfl
      obtain ⟨title', hcalls⟩ := ih (hserials ▸ hnodup) hlen hsame
      refine ⟨title', ?_⟩
      rw [List.foldl_cons, hcalls, hcall]
      simp only [update, modify_modify]
      rfl

theorem feed_spec {i : Nat} (hnodup : t.serials.Nodup) (hi : i < t.tabs.length)
    (hfeeding : t.feeding = some (t.tab i).serial) (bytes : Bytes) :
    ∃ title, t.feed i bytes = { t.update i (fedTab · bytes) with title := title } := by
  unfold feed
  simp only
  generalize hread : (t.tab i).emulator.parser.feed bytes = r
  have hserials : (t.update i fun tab => { tab with
      emulator := { tab.emulator with parser := r.1 }, fed := tab.fed ++ bytes }).serials = t.serials :=
    serials_update hi rfl
  obtain ⟨title, hcalls⟩ := foldl_call (t := t.update i fun tab => { tab with
      emulator := { tab.emulator with parser := r.1 }, fed := tab.fed ++ bytes }) (i := i)
    (hserials ▸ hnodup) (by simpa [update] using hi) (by rw [tab_update hi]; exact hfeeding) r.2
  refine ⟨title, ?_⟩
  rw [hcalls]
  have hsame : t.tabs.modify i (fun tab => called { tab with
      emulator := { tab.emulator with parser := r.1 }, fed := tab.fed ++ bytes } r.2) =
      t.tabs.modify i (fedTab · bytes) := by
    refine congrArg tabs (update_congr hi ?_)
    simp only [called, fedTab, Emulator.feed, hread]
  simp only [update, modify_modify, hsame]

theorem fedTab_flatten (tab : Tab) (pieces : List Bytes) :
    pieces.foldl fedTab tab = fedTab tab pieces.flatten := by
  induction pieces generalizing tab with
  | nil => simp [fedTab, feed_nil]
  | cons piece pieces ih =>
      rw [List.foldl_cons, ih, List.flatten_cons]
      simp only [fedTab, feed_append, List.append_assoc]

theorem foldl_feed {i : Nat} (hnodup : t.serials.Nodup) (hi : i < t.tabs.length)
    (hfeeding : t.feeding = some (t.tab i).serial) (pieces : List Bytes) :
    ∃ title, pieces.foldl (fun s piece => s.feed i piece) t =
      { t.update i (fedTab · pieces.flatten) with title := title } := by
  have hpieces : ∃ title, pieces.foldl (fun s piece => s.feed i piece) t =
      { t.update i (pieces.foldl fedTab ·) with title := title } := by
    induction pieces generalizing t with
    | nil =>
        refine ⟨t.title, ?_⟩
        show t = { t with tabs := t.tabs.modify i id }
        rw [List.modify_id]
    | cons piece pieces ih =>
        obtain ⟨title, hpiece⟩ := feed_spec hnodup hi hfeeding piece
        have hserials : (t.update i (fedTab · piece)).serials = t.serials := serials_update hi rfl
        obtain ⟨title', hrest⟩ := @ih { t.update i (fedTab · piece) with title := title }
          (hserials ▸ hnodup) (by simpa [update] using hi) (by
            show t.feeding = some ((t.update i (fedTab · piece)).tab i).serial
            rw [hfeeding, tab_update hi]
            rfl)
        refine ⟨title', ?_⟩
        rw [List.foldl_cons, hpiece, hrest]
        simp only [update, modify_modify]
        rfl
  obtain ⟨title, heq⟩ := hpieces
  refine ⟨title, ?_⟩
  rw [heq]
  simp only [fedTab_flatten]

/-- What a tab is after its master was read. -/
def readTab (tab : Tab) (r : List Bytes × Bytes × ReadEnd) : Tab :=
  { fedTab tab r.1.flatten with
    line := { tab.line with unread := r.2.1 }, eof := tab.eof || r.2.2 == .eof }

theorem watcher_lt {token : UInt64} {i : Nat} (h : t.watcher token = some i) : i < t.tabs.length :=
  (List.findIdx?_eq_some_iff_getElem.1 h).1

theorem Sane.onIo_spec (h : t.Sane) {token : UInt64} {i : Nat} (hi : t.watcher token = some i) (a : Answers) :
    ∃ title, (t.onIo token a).2 =
      { t.update i (readTab · (t.readsOf i a)) with title := title } := by
  have hlt := watcher_lt hi
  unfold onIo
  rw [hi]
  simp only
  generalize t.readsOf i a = r
  generalize hs : ({ t with feeding := some (t.tab i).serial } : Terminal).update i
    (fun tab => { tab with line := { tab.line with unread := r.2.1 } }) = s
  have hserials : s.serials = t.serials := by
    rw [← hs]
    exact serials_update (t := { t with feeding := some (t.tab i).serial }) hlt rfl
  obtain ⟨title, hfed⟩ := foldl_feed (t := s) (i := i) (hserials ▸ h.nodup)
    (by rw [← hs]; simpa [update] using hlt) (by
      rw [← hs, tab_update (t := { t with feeding := some (t.tab i).serial }) hlt]
      rfl) r.1
  refine ⟨title, ?_⟩
  rw [hfed, ← hs]
  cases hlast : r.2.2 <;>
    simp only [update, modify_modify, readTab, fedTab, hlast, h.feeding, beq_self_eq_true, Bool.or_true,
      Bool.or_false, show (ReadEnd.nothing == ReadEnd.eof) = false from rfl,
      show (ReadEnd.eio == ReadEnd.eof) = false from rfl]

theorem Sane.onFdEvent (h : t.Sane) (key : UInt64) (a : Answers) :
    Change t (t.onFdEvent key a) (t.hearing (.io key a)) := by
  unfold Terminal.onFdEvent
  cases howns : t.host.owns key with
  | false => exact h.refl.change.congr fun n _ => by simp [hearing, Terminal.takes, heardAt, howns]
  | true =>
      rw [if_pos rfl]
      cases hi : t.watcher key with
      | none =>
          have hsame : (t.onIo key a).2 = t := by
            unfold onIo
            rw [hi]
          rw [hsame]
          exact h.refl.change.congr fun n _ => by simp [hearing, Terminal.takes, heardAt, hi]
      | some i =>
          obtain ⟨title, heq⟩ := h.onIo_spec hi a
          have hheard : ∀ n, t.hearing (.io key a) n =
              if (t.tab i).serial = n then (t.readsOf i a).1.flatten.map .byte else [] := by
            intro n
            simp only [hearing, Terminal.takes, heardAt, howns, hi, if_true]
          rw [heq]
          have hchange : Change t (t.update i (readTab · (t.readsOf i a))) (t.hearing (.io key a)) := by
            refine h.change_update (watcher_lt hi) ⟨rfl, ?_, fun hread => ?_⟩ fun n _ hne => ?_
            · rw [hheard, if_pos rfl, hears_bytes]
              rfl
            · show ((t.tab i).fed ++ (t.readsOf i a).1.flatten) ++ (t.readsOf i a).2.1 = (t.tab i).line.wrote
              rw [List.append_assoc]
              unfold readsOf
              rw [reads_flatten]
              exact hread
            · rw [hheard, if_neg (Ne.symm hne)]
          exact hchange.of_eq rfl ⟨rfl, rfl⟩ rfl rfl rfl

/-- **What a step does.** Every tab hears what it hears, and the one that is opened gets the
size of the window. -/
theorem Sane.change_step (h : t.Sane) (i : Input) : Change t (t.step i) (t.hearing i) := by
  have hsilent : ∀ {t' : Terminal}, Quiet t t' → (∀ n, t.hearing i n = []) → Change t t' (t.hearing i) :=
    fun hquiet hnone => hquiet.change.congr fun n _ => hnone n
  have hnone : ∀ {i : Input}, (∀ n, t.heardAt n i = []) → ∀ n, t.hearing i n = [] := by
    intro i hnone n
    rw [hearing, hnone, ite_self]
  cases i with
  | io key a => exact h.onFdEvent key a
  | key k master => exact h.onKey k master
  | mouse m master => exact h.onMouse m master
  | paste text complete => exact h.onPaste text complete
  | resize w h' => exact h.onResize w h'
  | childExit => exact hsilent h.onChildExit (hnone fun _ => rfl)
  | guestWrites serial bytes =>
      have hquiet : Quiet t (t.step (.guestWrites serial bytes)) := by
        show Quiet t (t.onLine serial fun l =>
          if l.closed then l else { l with wrote := l.wrote ++ bytes, unread := l.unread ++ bytes })
        refine h.onLine serial fun fed l hread => ?_
        split
        · exact hread
        · rw [← List.append_assoc, hread]
      exact hsilent hquiet (hnone fun _ => rfl)
  | guestCloses serial =>
      have hquiet : Quiet t (t.onLine serial fun l => { l with closed := true }) :=
        h.onLine serial fun fed l hread => hread
      exact hsilent hquiet (hnone fun _ => rfl)
  | childDies p st place =>
      exact hsilent (h.refl.of_eq rfl ⟨rfl, rfl⟩ rfl rfl rfl) (hnone fun _ => rfl)
  | elsewhere fdGen configured =>
      exact hsilent (h.refl.of_eq rfl ⟨rfl, rfl⟩ rfl rfl rfl) (hnone fun _ => rfl)

theorem Sane.step (h : t.Sane) (i : Input) : (t.step i).Sane := h.change (h.change_step i)

theorem Sane.start (win : UInt32) (app : Nat) (fdGen : UInt32) (master : Option Nat) :
    (start win app fdGen master).Sane := by
  cases master with
  | none =>
      refine ⟨Nat.zero_lt_one, List.nodup_singleton _, ?_, rfl, ?_, ?_⟩
      · intro n hn
        rw [List.mem_singleton.1 hn]
        exact Nat.zero_lt_one
      · intro tab htab
        rw [List.mem_singleton.1 htab]
        exact fits_resized _ _ _
      · intro tab htab
        rw [List.mem_singleton.1 htab]
        rfl
  | some fd =>
      refine ⟨Nat.zero_lt_one, List.nodup_singleton _, ?_, rfl, ?_, ?_⟩
      · intro n hn
        rw [List.mem_singleton.1 hn]
        exact Nat.zero_lt_one
      · intro tab htab
        rw [List.mem_singleton.1 htab]
        exact fits_resized _ _ _
      · intro tab htab
        rw [List.mem_singleton.1 htab]
        rfl

theorem Sane.run (h : t.Sane) (is : List Input) : (Lib.run Terminal.step t is).Sane :=
  Lib.run_preserves (fun _ i hs => hs.step i) h is

end Terminal

end Sshos.Apps.Tabbed
