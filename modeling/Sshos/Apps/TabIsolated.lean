import Sshos.Apps.TabbedSteps

/-!
# Sshos.Apps.TabIsolated

**Tabs do not talk across**: over any interleaving of what the guests write, the sizes of the
window and what the user does, the emulator of a tab is what a lone emulator becomes of the
tab's own events.

Those are the bytes of its guest, the sizes of the window since it was opened, and what of the
user's doing it takes. That last is less than what reaches the window while the tab is looked
at: a field of the bar may be open, a click may fall on the bar, and a shell that is known to
be dead takes nothing.
-/

namespace Sshos.Apps.Tabbed

open Sshos.Input (KeyEvent)
open Sshos.Lib (Bytes run)
open Sshos.Vt (Screen ScreenCell Scrollback)

namespace Terminal

variable {t : Terminal}

/-- All that tab `n` hears of a run, from its opening on. -/
def heard (all : Bool) (n : Nat) (t : Terminal) (is : List Input) : List Heard :=
  (if n = 0 then [.size 80 24] else []) ++ events all n t is

theorem heard_append (all : Bool) (n : Nat) (t : Terminal) (is : List Input) (i : Input) :
    heard all n t (is ++ [i]) = heard all n t is ++ (run step t is).eventsAt all n i := by
  have happ : ∀ (is : List Input) (t : Terminal),
      events all n t (is ++ [i]) = events all n t is ++ (run step t is).eventsAt all n i := by
    intro is
    induction is with
    | nil => exact fun t => by simp [events]
    | cons j is ih => exact fun t => by simp [events, ih]
  rw [heard, happ, heard, List.append_assoc]

/-- A tab that is not open hears nothing. -/
theorem Sane.hearing_none (h : t.Sane) {n : Nat} (hn : n ∉ t.serials) (i : Input) : t.hearing i n = [] := by
  have hactive : t.activeTab.serial ≠ n := fun heq => hn (heq ▸ mem_serials h.activeTab_mem)
  have hnone : t.heardAt n i = [] := by
    cases i with
    | io key a =>
        simp only [heardAt]
        split
        · cases hi : t.watcher key with
          | none => rfl
          | some j =>
              refine if_neg fun heq => hn ?_
              rw [← heq]
              exact mem_serials (tab_mem (watcher_lt hi))
        · rfl
    | key k master => exact if_neg hactive
    | mouse m master => exact if_neg hactive
    | paste text complete => exact if_neg hactive
    | resize w h' => exact if_neg fun hmem => hn hmem.2.2
    | _ => rfl
  rw [hearing, hnone, ite_self]

theorem eventsAt_false (t : Terminal) (n : Nat) (i : Input) :
    t.eventsAt false n i = t.hearing i n ++ t.bornAt n i := by
  simp only [eventsAt, hearing, Bool.false_or]

variable (win : UInt32) (app : Nat) (fdGen : UInt32) (master : Option Nat)

/-- Before it is opened, a tab has heard nothing. -/
theorem heard_unborn (is : List Input) :
    ∀ n, (run step (start win app fdGen master) is).opened ≤ n →
      heard false n (start win app fdGen master) is = [] := by
  induction is using List.reverseRecOn with
  | nil =>
      intro n hn
      have hopened : 0 < (start win app fdGen master).opened :=
        (Nat.zero_le _).trans_lt ((Sane.start win app fdGen master).opened _
          (mem_serials (Sane.start win app fdGen master).activeTab_mem))
      have hne : n ≠ 0 := by
        have hle : (start win app fdGen master).opened ≤ n := hn
        omega
      simp [heard, hne, events]
  | append_singleton is i ih =>
      intro n hn
      have hsane := (Sane.start win app fdGen master).run is
      rw [Lib.run_append] at hn
      rw [heard_append, eventsAt_false]
      generalize run step (start win app fdGen master) is = s at ih hn hsane
      have hn' : (s.step i).opened ≤ n := hn
      have hbefore : s.opened ≤ n := (hsane.change_step i).opened.trans hn'
      have hout : n ∉ s.serials := fun hmem => absurd (hsane.opened n hmem) (by omega)
      have hborn : s.bornAt n i = [] :=
        if_neg fun hin => absurd ((hsane.step i).opened n hin.2) (by omega)
      rw [ih n hbefore, hsane.hearing_none hout, hborn]
      rfl

/-- **A tab is what it heard**: its emulator is that of a lone tab with the same events. -/
theorem emulator_eq (is : List Input) :
    ∀ tab ∈ (run step (start win app fdGen master) is).tabs,
      Own.hears {} (heard false tab.serial (start win app fdGen master) is) =
        ⟨tab.emulator, (run step (start win app fdGen master) is).w,
          (run step (start win app fdGen master) is).h⟩ := by
  induction is using List.reverseRecOn with
  | nil =>
      intro tab htab
      cases master with
      | none =>
          rw [List.mem_singleton.1 htab]
          rfl
      | some fd =>
          rw [List.mem_singleton.1 htab]
          rfl
  | append_singleton is i ih =>
      intro tab' htab'
      have hsane := (Sane.start win app fdGen master).run is
      have hunborn := heard_unborn win app fdGen master is
      rw [Lib.run_append] at htab' ⊢
      rw [heard_append, eventsAt_false]
      generalize run step (start win app fdGen master) is = s at ih htab' hsane hunborn ⊢
      have htab'' : tab' ∈ (s.step i).tabs := htab'
      rcases (hsane.change_step i).tabs tab' htab'' with ⟨tab, htab, hev⟩ | hborn
      · have hold : s.bornAt tab.serial i = [] := if_neg fun hnew => hnew.1 (mem_serials htab)
        rw [hev.serial, hold, List.append_nil]
        unfold Own.hears
        rw [List.foldl_append]
        have hbefore := ih tab htab
        unfold Own.hears at hbefore
        rw [hbefore]
        exact hev.heard
      · -- it has just been opened, and heard nothing before
        have hout : s.opened ∉ s.serials := fun hmem => lt_irrefl _ (hsane.opened _ hmem)
        have hin : s.opened ∈ (s.step i).serials := hborn.serial ▸ mem_serials htab''
        have hnew : s.bornAt s.opened i = [.size s.w s.h] := if_pos ⟨hout, hin⟩
        rw [hborn.serial, hunborn _ (Nat.le_refl _), hsane.hearing_none hout, hnew]
        exact hborn.heard

theorem emulator_of_heard (is : List Input) {tab : Tab} (events : List Heard)
    (htab : tab ∈ (run step (start win app fdGen master) is).tabs)
    (hheard : heard false tab.serial (start win app fdGen master) is = events) :
    tab.emulator = (Own.hears {} events).emulator := by
  rw [← hheard, emulator_eq win app fdGen master is tab htab]

/-! ### The two modes of the grid -/

/-- What a resize has no part in. -/
def unsized (s : Screen) : Bool × Bool × Option Scrollback := (s.autowrap, s.alt, s.scrollback)

theorem unsized_resize (s : Screen) (c r : Int) : unsized (s.resize c r) = unsized s := by
  have hput : ∀ (s : Screen) (x : Int), unsized (s.putTab x true) = unsized s := by
    intro s x
    unfold Screen.putTab
    split <;> rfl
  have htabs : ∀ s : Screen, unsized s.resetTabs = unsized s := fun s =>
    Lib.forUp_keeps unsized (f := fun s k => s.putTab (Screen.kTabStop * k) true) (fun s _ => hput s _) 1
      ((s.cols - 1) / Screen.kTabStop + 1) { s with tabs := List.replicate s.cols.toNat false }
  have hpages : ∀ c r, unsized ((s.resizePages c r).adoptSize c r) = unsized s := by
    intro c r
    unfold Screen.resizePages
    split <;> rfl
  unfold Screen.resize
  simp only
  split
  · rfl
  · split
    · exact (htabs _).trans (hpages _ _)
    · exact hpages _ _

theorem synced_hears {o : Own} (hsynced : o.emulator.sink.Synced) (events : List Heard) :
    (o.hears events).emulator.sink.Synced := by
  induction events generalizing o with
  | nil => exact hsynced
  | cons e events ih =>
      have hstep : (o.hear e).emulator.sink.Synced := by
        cases e with
        | byte b => exact hsynced.feed [b]
        | size w h =>
            have hsame := unsized_resize o.emulator.sink.screen (max 1 w) (max 1 (h - kBarRows))
            exact ⟨(congrArg Prod.fst hsame).trans hsynced.autowrap,
              (congrArg (·.2.1) hsame).trans hsynced.alt⟩
        | key k =>
            unfold Own.hear keyed
            simp only
            repeat' split
            all_goals exact ⟨hsynced.autowrap, hsynced.alt⟩
        | mouse m =>
            unfold Own.hear moused
            simp only
            repeat' split
            all_goals exact ⟨hsynced.autowrap, hsynced.alt⟩
        | paste text complete => exact ⟨hsynced.autowrap, hsynced.alt⟩
      exact ih hstep

/-- At every byte of every tab, the wrap mode and the choice of the screen are those the guest
asked for. -/
theorem synced_feed (is : List Input) :
    ∀ tab ∈ (run step (start win app fdGen master) is).tabs, ∀ bytes,
      (tab.emulator.feed false bytes).sink.Synced := by
  intro tab htab bytes
  have hfresh : freshEmulator.sink.Synced := ⟨by decide +kernel, by decide +kernel⟩
  have hheard := synced_hears (o := {}) hfresh (heard false tab.serial (start win app fdGen master) is)
  rw [emulator_eq win app fdGen master is tab htab] at hheard
  exact hheard.feed bytes

/-- **Isolation.** In two runs of two windows, two tabs that heard the same have the same screen,
history, modes, title and answers, whatever the other tabs did; and at every byte the wrap mode
and the choice of the screen are those the guest asked for. -/
theorem isolated :
    (∀ (win₁ win₂ : UInt32) (app₁ app₂ : Nat) (fdGen₁ fdGen₂ : UInt32) (master₁ master₂ : Option Nat)
      (is₁ is₂ : List Input) (tab₁ tab₂ : Tab),
      tab₁ ∈ (run step (start win₁ app₁ fdGen₁ master₁) is₁).tabs →
      tab₂ ∈ (run step (start win₂ app₂ fdGen₂ master₂) is₂).tabs →
      heard false tab₁.serial (start win₁ app₁ fdGen₁ master₁) is₁ =
        heard false tab₂.serial (start win₂ app₂ fdGen₂ master₂) is₂ →
      tab₁.emulator = tab₂.emulator) ∧
    (∀ (win : UInt32) (app : Nat) (fdGen : UInt32) (master : Option Nat) (is : List Input),
      ∀ tab ∈ (run step (start win app fdGen master) is).tabs, ∀ bytes,
        (tab.emulator.feed false bytes).sink.Synced) := by
  refine ⟨?_, synced_feed⟩
  intro win₁ win₂ app₁ app₂ fdGen₁ fdGen₂ master₁ master₂ is₁ is₂ tab₁ tab₂ htab₁ htab₂ hsame
  have hfirst := emulator_of_heard win₁ app₁ fdGen₁ master₁ _ _ htab₁ hsame
  have hsecond := emulator_of_heard win₂ app₂ fdGen₂ master₂ _ _ htab₂ rfl
  exact hfirst.trans hsecond.symm

/-- A guest writes, alone or beside another tab that is opened meanwhile. -/
def aloneRun : List Input := [.guestWrites 0 [0x41], .io (Daemon.makeKey 1 16) { sizes := [1] }]

def besideRun : List Input :=
  [.key { key := .char, ch := 0x74, mods := { alt := true } } (some 8), .guestWrites 1 [0x42],
    .guestWrites 0 [0x41], .io (Daemon.makeKey 1 17) { sizes := [1] },
    .io (Daemon.makeKey 1 16) { sizes := [1] }]

theorem isolated_beside :
    ((run step (start 1 0 16 (some 7)) aloneRun).tab 0).emulator =
      ((run step (start 1 0 16 (some 7)) besideRun).tab 0).emulator :=
  isolated.1 1 1 0 0 16 16 (some 7) (some 7) aloneRun besideRun _ _ (tab_mem (by decide +kernel))
    (tab_mem (by decide +kernel)) (by decide +kernel)

/-- A line leaves the screen by the top, the user goes back in the history. -/
def backRun : List Input :=
  [.resize 2 2, .guestWrites 0 [0x0A], .io (Daemon.makeKey 1 16) { sizes := [1] },
    .key { key := .pgUp, mods := { shift := true } } none]

/-- The same, but the shell is dead by then, and known to be. -/
def deadRun : List Input :=
  [.resize 2 2, .guestWrites 0 [0x0A], .io (Daemon.makeKey 1 16) { sizes := [1] },
    .childDies 1 (.exited 0) 0, .childExit, .key { key := .pgUp, mods := { shift := true } } none]

/-- On a screen of one row, a line feed sends the row to the history. -/
theorem lineFeed_one_row {s : Screen} (h : s.Bounded) (hrows : s.rows = 1) (halt : s.alt = false)
    {b : Scrollback} (hb : s.scrollback = some b) :
    ∃ line, s.lineFeed.scrollback = some (b.push line) ∧ s.lineFeed.alt = false := by
  obtain ⟨h0, htop, hbottom⟩ := h.region
  obtain ⟨hcy0, hcy⟩ := h.cy
  have hone : s.top = 0 ∧ s.bottom = 0 ∧ s.cy = 0 := ⟨by omega, by omega, by omega⟩
  have hgrid := h.grid
  rw [hrows, Int.mul_one] at hgrid
  refine ⟨(s.grid.drop 0).take s.cols.toNat, ?_⟩
  have hpush : ({ s with wrapPending := false } : Screen).pushTopLine =
      { s with
        wrapPending := false
        scrollback := some (b.push ((s.grid.drop 0).take s.cols.toNat)) } := by
    unfold Screen.pushTopLine
    simp only [hb]
    rw [if_pos ⟨by simp [halt], hone.1, by rw [hone.2.1, hrows]; rfl⟩]
    simp only [hone.1, Int.zero_mul, Int.zero_add]
    rw [if_pos ⟨le_refl _, hgrid.ge⟩]
    rfl
  have hfeed : s.lineFeed = ({ s with wrapPending := false } : Screen).scrollUp :=
    if_pos (hone.2.2.trans hone.2.1.symm)
  rw [hfeed, Screen.scrollUp, hpush]
  have hframed := Screen.scrollSliceUp_framed (s := { s with
    wrapPending := false
    scrollback := some (b.push ((s.grid.drop 0).take s.cols.toNat)) }) s.top s.bottom 1
  exact ⟨congrArg Screen.scrollback hframed, (congrArg Screen.alt hframed).trans halt⟩

/-- A page up from the bottom of a history of one line. -/
theorem push_first {capacity : Nat} (h : 0 < capacity) (line : List ScreenCell) :
    ((Scrollback.create capacity).push line).offset = 0 ∧
      (((Scrollback.create capacity).push line).scrollBack (page 2)).offset = 1 := by
  have hpush : ∃ ring, (Scrollback.create capacity).push line =
      { capacity := capacity, ring := ring, size := 1 } := by
    unfold Scrollback.push
    rw [if_neg (by exact Nat.ne_of_gt h)]
    simp only
    rw [if_pos (show (Scrollback.create capacity).size < (Scrollback.create capacity).capacity from h)]
    exact ⟨_, rfl⟩
  obtain ⟨ring, hring⟩ := hpush
  rw [hring]
  have hpage : ¬ (page 2).toNat > Scrollback.sizeSub 1 0 := by decide
  refine ⟨rfl, ?_⟩
  rw [Scrollback.scrollBack, if_neg hpage]
  exact Nat.mod_eq_of_lt (show 0 + (page 2).toNat < Scrollback.kSizeMod by decide)

theorem hear_size (s : Screen) (w h w' h' : Int) :
    Own.hear ⟨{ sink := { screen := s } }, w, h⟩ (.size w' h') =
      ⟨{ sink := { screen := s.resize (max 1 w') (max 1 (h' - kBarRows)) } }, w', h'⟩ := rfl

/-- Where the history stands after a line feed in a window of one row, and after a page up. -/
theorem offset_back_of {s : Screen} (h : s.Bounded)
    (hs : unsized s = (true, false, some (.create kDefaultScrollbackLines))) : ∃ e : Emulator,
    Own.hears ⟨{ sink := { screen := s } }, 80, 24⟩ [.size 80 24, .size 2 2, .byte 0x0A] = ⟨e, 2, 2⟩ ∧
      e.sink.screen.scrollback.map (·.offset) = some 0 ∧
      (keyed e 2 { key := .pgUp, mods := { shift := true } }).1.sink.screen.scrollback.map (·.offset) =
        some 1 := by
  have hsizes : ∃ small : Screen,
      Own.hears ⟨{ sink := { screen := s } }, 80, 24⟩ [.size 80 24, .size 2 2] =
        ⟨{ sink := { screen := small } }, 2, 2⟩ ∧
      small.Bounded ∧ small.rows = 1 ∧ unsized small = unsized s := by
    obtain ⟨wide, hwide⟩ : ∃ wide, wide = s.resize (max 1 80) (max 1 (24 - kBarRows)) := ⟨_, rfl⟩
    refine ⟨wide.resize (max 1 2) (max 1 (2 - kBarRows)), ?_, ?_, ?_, ?_⟩
    · rw [hwide]
      exact (congrArg (Own.hear · (.size 2 2)) (hear_size s 80 24 80 24)).trans (hear_size _ 80 24 2 2)
    · exact (hwide ▸ h.resize _ _ : wide.Bounded).resize _ _
    · have hfits : (wide.resize (max 1 2) (max 1 (2 - kBarRows))).rows = max 1 (2 - kBarRows) :=
        (fits_resized { sink := { screen := wide } } 2 2).rows
      exact hfits.trans (by decide)
    · rw [unsized_resize, hwide, unsized_resize]
  obtain ⟨small, hheard, hbounded, hrows, hsame⟩ := hsizes
  obtain ⟨line, hline, halt⟩ := lineFeed_one_row hbounded hrows
    (congrArg (·.2.1) (hsame.trans hs)) (congrArg (·.2.2) (hsame.trans hs))
  have hfirst := push_first (show 0 < kDefaultScrollbackLines by decide) line
  refine ⟨{ sink := { screen := small.lineFeed } }, ?_, ?_, ?_⟩
  · have hsplit : Own.hears ⟨{ sink := { screen := s } }, 80, 24⟩ [.size 80 24, .size 2 2, .byte 0x0A] =
        Own.hear (Own.hears ⟨{ sink := { screen := s } }, 80, 24⟩ [.size 80 24, .size 2 2])
          (.byte 0x0A) := rfl
    rw [hsplit, hheard]
    rfl
  · show small.lineFeed.scrollback.map (·.offset) = some 0
    rw [hline]
    exact congrArg some hfirst.1
  · simp only [keyed, halt]
    show (small.lineFeed.scrollback.map (·.scrollBack (page 2))).map (·.offset) = some 1
    rw [hline]
    exact congrArg some hfirst.2

theorem offset_back : ∃ e : Emulator,
    Own.hears {} [.size 80 24, .size 2 2, .byte 0x0A] = ⟨e, 2, 2⟩ ∧
      e.sink.screen.scrollback.map (·.offset) = some 0 ∧
      (keyed e 2 { key := .pgUp, mods := { shift := true } }).1.sink.screen.scrollback.map (·.offset) =
        some 1 := by
  obtain ⟨tabs, -, heq⟩ := Screen.create_spec 80 24
  have hbounded := (Screen.Bounded.create 80 24).step false
    (.setScrollback (some (.create kDefaultScrollbackLines)))
  rw [heq] at hbounded
  have hfresh := offset_back_of hbounded rfl
  rw [← heq] at hfresh
  exact hfresh

/-- What reaches the window while a tab is looked at does not settle where its history stands. -/
theorem dead_not_isolated :
    ¬ ∀ (win₁ win₂ : UInt32) (app₁ app₂ : Nat) (fdGen₁ fdGen₂ : UInt32) (master₁ master₂ : Option Nat)
      (is₁ is₂ : List Input) (tab₁ tab₂ : Tab),
      tab₁ ∈ (run step (start win₁ app₁ fdGen₁ master₁) is₁).tabs →
      tab₂ ∈ (run step (start win₂ app₂ fdGen₂ master₂) is₂).tabs →
      heard true tab₁.serial (start win₁ app₁ fdGen₁ master₁) is₁ =
        heard true tab₂.serial (start win₂ app₂ fdGen₂ master₂) is₂ →
      tab₁.emulator = tab₂.emulator := by
  intro hall
  have hsame := hall 1 1 0 0 16 16 (some 7) (some 7) backRun deadRun _ _
    (tab_mem (i := 0) (by decide +kernel)) (tab_mem (i := 0) (by decide +kernel)) (by decide +kernel)
  rw [emulator_of_heard 1 0 16 (some 7) backRun
      [.size 80 24, .size 2 2, .byte 0x0A, .key { key := .pgUp, mods := { shift := true } }]
      (tab_mem (i := 0) (by decide +kernel)) (by decide +kernel),
    emulator_of_heard 1 0 16 (some 7) deadRun [.size 80 24, .size 2 2, .byte 0x0A]
      (tab_mem (i := 0) (by decide +kernel)) (by decide +kernel)] at hsame
  obtain ⟨e, he, hstay, hback⟩ := offset_back
  have hkey : Own.hears {} [.size 80 24, .size 2 2, .byte 0x0A,
      .key { key := .pgUp, mods := { shift := true } }] =
      Own.hear (Own.hears {} [.size 80 24, .size 2 2, .byte 0x0A])
        (.key { key := .pgUp, mods := { shift := true } }) := rfl
  rw [hkey, he] at hsame
  have hoffset := congrArg (fun e : Emulator => e.sink.screen.scrollback.map (·.offset)) hsame
  exact absurd (hback.symm.trans (hoffset.trans hstay)) (by decide)

end Terminal

end Sshos.Apps.Tabbed
