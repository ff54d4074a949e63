import Sshos.Apps.TabbedSteps

/-!
# Sshos.Apps.TabStable

**Which tab is looked at** while tabs are opened, closed and switched.

The window keeps an index. Closing a tab takes an element out of the list, and the index
stays where it is unless it falls off the end: the module settles when the tab it points at
is still the same one.
-/

namespace Sshos.Apps.Tabbed

open Sshos.Lib (run StepsMeet)

/-- The operations on the tabs themselves. -/
inductive TabOp where
  | «open» (master : Option Nat)
  | close (i : Nat)
  | select (i : Nat)
  | cycle (d : Int)

namespace Terminal

variable {t : Terminal}

def tabStep (t : Terminal) : TabOp → Terminal
  | .open master => t.openTab master
  | .close i => t.closeTab i
  | .select i => t.selectTab i
  | .cycle d => t.cycleTab d

/-- The tab that is looked at is one of the tabs. Closing another one leaves it there, and
all but the closed one stay in their order. -/
structure Stable (t : Terminal) (op : TabOp) : Prop where
  active : (t.tabStep op).active < (t.tabStep op).tabs.length
  other : ∀ i, op = .close i → i < t.tabs.length → i ≠ t.active →
    (t.tabStep op).activeTab = t.activeTab
  own : op = .close t.active → (t.tabStep op).activeTab ∈ t.tabs
  stay : ∀ i, op = .close i →
    (t.tabStep op).tabs = if t.tabs.length = 1 then t.tabs else t.tabs.eraseIdx i

/-- No tab is closed on the left of the one that is looked at, unless that is the last. -/
def Unshifted (t : Terminal) : TabOp → Prop
  | .close i => ¬ (i < t.active ∧ t.active + 1 < t.tabs.length)
  | _ => True

theorem Sane.tabStep (h : t.Sane) (op : TabOp) : (t.tabStep op).Sane := by
  cases op with
  | «open» master => exact h.change (h.openTab master)
  | close i => exact h.quiet (h.closeTab i)
  | select i => exact h.quiet (h.selectTab i)
  | cycle d => exact h.quiet (h.cycleTab d)

theorem closeTab_tabs (t : Terminal) (i : Nat) :
    (t.closeTab i).tabs = if t.tabs.length = 1 then t.tabs else t.tabs.eraseIdx i := by
  obtain ⟨-, -, -, -, ⟨htabs, -, hout⟩ | ⟨-, hone, htabs, -⟩⟩ := closeTab_cases t i
  · rw [htabs]
    split
    · rfl
    · next hone =>
        have hge : t.tabs.length ≤ i := hout.resolve_right hone
        rw [List.eraseIdx_of_length_le hge]
  · rw [htabs, if_neg hone]

/-- Where the tab that is looked at was before another one was closed. -/
theorem Sane.activeTab_closeTab (h : t.Sane) {i : Nat} (hi : i < t.tabs.length) (hne : i ≠ t.active) :
    (t.closeTab i).activeTab = t.tab (if i < t.active ∧ t.active + 1 < t.tabs.length then t.active + 1
      else t.active) := by
  have hactive := h.active
  obtain ⟨-, -, -, -, ⟨-, -, hout⟩ | ⟨-, hone, htabs, hindex⟩⟩ := closeTab_cases t i
  · omega
  · unfold activeTab tab
    rw [htabs, hindex, List.getD_eq_getElem?_getD, List.getD_eq_getElem?_getD]
    congr 1
    rw [List.getElem?_eraseIdx]
    by_cases hleft : i < t.active
    · by_cases hlast : t.active + 1 < t.tabs.length
      · rw [if_neg (by omega : ¬ t.active ≥ t.tabs.length - 1), if_neg (by omega : ¬ t.active < i),
          if_pos ⟨hleft, hlast⟩]
      · -- the index falls off the end, and comes back to where the tab went
        rw [if_pos (by omega : t.active ≥ t.tabs.length - 1),
          if_neg (by omega : ¬ t.tabs.length - 1 - 1 < i), if_neg (by omega)]
        congr 1
        omega
    · rw [if_neg (by omega : ¬ t.active ≥ t.tabs.length - 1), if_pos (by omega : t.active < i),
        if_neg (by omega)]

theorem Sane.stable_iff (h : t.Sane) (op : TabOp) : t.Stable op ↔ t.Unshifted op := by
  have hactive := h.active
  constructor
  · intro hstable
    cases op with
    | close i =>
        rintro ⟨hleft, hlast⟩
        have hsame := hstable.other i rfl (by omega) (by omega)
        rw [show t.tabStep (.close i) = t.closeTab i from rfl,
          h.activeTab_closeTab (by omega) (by omega), if_pos ⟨hleft, hlast⟩] at hsame
        -- the next tab is another one
        have hloop := serial_inj h.nodup hlast hactive (congrArg Tab.serial hsame)
        omega
    | _ => trivial
  · intro hunshifted
    refine ⟨(h.tabStep op).active, ?_, ?_, ?_⟩
    · rintro i rfl hi hne
      rw [show t.tabStep (.close i) = t.closeTab i from rfl, h.activeTab_closeTab hi hne,
        if_neg hunshifted]
      rfl
    · rintro rfl
      have hmem := (h.tabStep (.close t.active)).activeTab_mem
      rw [show t.tabStep (.close t.active) = t.closeTab t.active from rfl] at hmem ⊢
      rw [closeTab_tabs] at hmem
      split at hmem
      · exact hmem
      · exact List.mem_of_mem_eraseIdx hmem
    · rintro i rfl
      exact closeTab_tabs t i

/-- **The same tab, exactly when.** Along a run of openings, closings and switches, the tab
that is looked at stays the same whenever another one is closed if and only if none is ever
closed on its left while there is another on its right. -/
theorem stable_iff_unshifted (win : UInt32) (app : Nat) (fdGen : UInt32) (master : Option Nat)
    (ops : List TabOp) :
    (∀ before op, before ++ [op] <+: ops →
      (run tabStep (start win app fdGen master) before).Stable op) ↔
      StepsMeet tabStep Unshifted (start win app fdGen master) ops := by
  have hsane : ∀ before, (run tabStep (start win app fdGen master) before).Sane := fun before =>
    Lib.run_preserves (fun _ op hs => hs.tabStep op) (Sane.start win app fdGen master) before
  rw [Lib.stepsMeet_iff]
  constructor
  · exact fun hall before op hpre => ((hsane before).stable_iff op).1 (hall before op hpre)
  · exact fun hall before op hpre => ((hsane before).stable_iff op).2 (hall before op hpre)

/-- Three tabs, the second one looked at: when the first one is closed, the window looks at
the third. -/
theorem close_left_switches :
    ¬ ∀ before op, before ++ [op] <+: [.open (some 8), .open (some 9), .select 1, .close 0] →
      (run tabStep (start 1 0 16 (some 7)) before).Stable op := by
  intro hall
  have hstable := hall [.open (some 8), .open (some 9), .select 1] (.close 0) List.prefix_rfl
  have hsame := congrArg Tab.serial (hstable.other 0 rfl (by decide +kernel) (by decide +kernel))
  exact absurd hsame (by decide +kernel)

end Terminal

end Sshos.Apps.Tabbed
