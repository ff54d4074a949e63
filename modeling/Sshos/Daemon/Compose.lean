import Sshos.Daemon.Desk
import Sshos.Lib.Run

/-!
# Sshos.Daemon.Compose

What a **composition** does to the windows. It gives up a gesture that lasts too long; it
opens a window, closes another; it places them all anew. None of this touches what the user
wants of a window that stays: its geometry, and its mode as long as it does not fill the
screen.
-/

namespace Sshos.Daemon

open Sshos.Input (MouseEvent)
open Sshos.Lib (Bytes)
open Sshos.Render (Rect)
open Sshos.Wm (Desktop Frame Size Win WindowId WinMode WindowManager Windows displayRectFor workArea)

namespace Desk

/-! ### Windows that stay -/

/-- The windows of `v'` are windows of `v` that went through `R`, or windows opened since: as
long as the numbers do not come round, those have greater ones. -/
structure Along (R : Frame → Frame → Prop) (v v' : Windows) : Prop where
  openings : v.openings ≤ v'.openings
  old : v'.openings < 2 ^ 32 → ∀ w' ∈ v'.stack,
    (∃ w ∈ v.stack, w'.id = w.id ∧ R w.app w'.app) ∨ v.openings < w'.id

section Along

variable {R : Frame → Frame → Prop}

theorem Along.refl (hrefl : ∀ f, R f f) (v : Windows) : Along R v v :=
  ⟨le_refl _, fun _ w hw => .inl ⟨w, hw, rfl, hrefl _⟩⟩

theorem Along.room {v v' : Windows} (h : Along R v v') (hroom : v'.openings < 2 ^ 32) :
    v.openings < 2 ^ 32 :=
  Nat.lt_of_le_of_lt h.openings hroom

theorem Along.trans (htrans : ∀ {f g h}, R f g → R g h → R f h) {u v v' : Windows} (h : Along R u v)
    (h' : Along R v v') : Along R u v' where
  openings := h.openings.trans h'.openings
  old := by
    intro hroom w' hw'
    rcases h'.old hroom w' hw' with ⟨w, hw, hid, hR⟩ | hnew
    · rcases h.old (h'.room hroom) w hw with ⟨t, ht, hid', hR'⟩ | hnew
      · exact .inl ⟨t, ht, hid.trans hid', htrans hR' hR⟩
      · exact .inr (hid ▸ hnew)
    · exact .inr (Nat.lt_of_le_of_lt h.openings hnew)

theorem Along.mono {R' : Frame → Frame → Prop} (hmono : ∀ {f g}, R f g → R' f g) {v v' : Windows}
    (h : Along R v v') : Along R' v v' where
  openings := h.openings
  old := by
    intro hroom w' hw'
    rcases h.old hroom w' hw' with ⟨w, hw, hid, hR⟩ | hnew
    · exact .inl ⟨w, hw, hid, hmono hR⟩
    · exact .inr hnew

/-- A number given before stands for the same window. -/
theorem Along.same {v v' : Windows} (h : Along R v v') (hroom : v'.openings < 2 ^ 32) {w w' : Win}
    (hw : w ∈ v.stack) (hw' : w' ∈ v'.stack) (hid : w'.id = w.id) : R w.app w'.app := by
  rcases h.old hroom w' hw' with ⟨u, hu, hid', hR⟩ | hnew
  · rw [Windows.eq_of_id (h.room hroom) hw hu (hid.symm.trans hid')]
    exact hR
  · have hle := Windows.id_le (h.room hroom) hw
    rw [hid] at hnew
    exact absurd hnew (Nat.not_lt.2 hle)

/-- Past the bound nothing is said. -/
theorem Along.of_wrapped {v v' : Windows} (hopenings : v.openings ≤ v'.openings)
    (hwrapped : ¬ v'.openings < 2 ^ 32) : Along R v v' :=
  ⟨hopenings, fun hroom => absurd hroom hwrapped⟩

theorem Along.of_map {v v' : Windows} (hopenings : v'.openings = v.openings) {g : Win → Win}
    (hstack : v.openings < 2 ^ 32 → v'.stack = v.stack.map g) (hid : ∀ w, (g w).id = w.id)
    (hR : v.openings < 2 ^ 32 → ∀ w ∈ v.stack, R w.app (g w).app) : Along R v v' where
  openings := hopenings.ge
  old := by
    intro hroom w' hw'
    rw [hopenings] at hroom
    rw [hstack hroom] at hw'
    obtain ⟨w, hw, rfl⟩ := List.mem_map.1 hw'
    exact .inl ⟨w, hw, hid w, hR hroom w hw⟩

end Along

/-- What is left of a window when the focus goes elsewhere: its mode too (if modes count),
unless it filled the screen. -/
structure SameFrame (moded : Prop) (f f' : Frame) : Prop where
  userRect : f'.userRect = f.userRect
  minSize : f'.minSize = f.minSize
  mode : moded → f'.mode = f.mode ∨ f.mode = .fullscreen

variable {moded : Prop}

theorem SameFrame.refl (f : Frame) : SameFrame moded f f := ⟨rfl, rfl, fun _ => .inl rfl⟩

theorem SameFrame.trans {f g h : Frame} (hfg : SameFrame moded f g) (hgh : SameFrame moded g h) :
    SameFrame moded f h where
  userRect := hgh.userRect.trans hfg.userRect
  minSize := hgh.minSize.trans hfg.minSize
  mode := by
    intro hmoded
    rcases hfg.mode hmoded with hsame | hfull
    · rw [← hsame]
      exact hgh.mode hmoded
    · exact .inr hfull

abbrev Stays (moded : Prop) : Windows → Windows → Prop := Along (SameFrame moded)

theorem Stays.refl (v : Windows) : Stays moded v v := Along.refl SameFrame.refl v

theorem Stays.trans {u v v' : Windows} (h : Stays moded u v) (h' : Stays moded v v') :
    Stays moded u v' :=
  Along.trans (R := SameFrame moded) (fun hfg hgh => hfg.trans hgh) h h'

theorem Stays.weaken {v v' : Windows} (h : Stays True v v') : Stays moded v v' :=
  Along.mono (R := SameFrame True) (fun hsame => ⟨hsame.userRect, hsame.minSize, fun _ => hsame.mode trivial⟩) h

theorem sameFrame_leaveFullscreen {d : Desktop} {id : WindowId} {w' : Win}
    (hw' : w' ∈ (d.leaveFullscreen id).stack) :
    ∃ w ∈ d.stack, w'.id = w.id ∧ SameFrame moded w.app w'.app := by
  rcases Desktop.mem_leaveFullscreen hw' with ⟨hmem, -⟩ | ⟨w, hw, hfull, rfl⟩
  · exact ⟨w', hmem, rfl, SameFrame.refl _⟩
  · exact ⟨w, hw, rfl, rfl, rfl, fun _ => .inr hfull⟩

theorem stays_focus (v : Windows) (id : WindowId) : Stays moded v (v.focus id) where
  openings := le_refl _
  old := fun _ _ hw' => .inl (sameFrame_leaveFullscreen ((Desktop.focus_perm id).mem_iff.1 hw'))

/-! ### What a composition does -/

/-- The windows after something is served to the applications: those that stay are in the
order they were in. -/
structure Serves (v v' : Windows) : Prop where
  stays : Stays True v v'
  order : v'.openings < 2 ^ 32 → (v'.ids.filter fun id => id ≤ v.openings).Sublist v.ids

theorem Serves.of_map {v v' : Windows} (hopenings : v'.openings = v.openings) {g : Win → Win}
    (hstack : v.openings < 2 ^ 32 → v'.stack = v.stack.map g) (hid : ∀ w, (g w).id = w.id)
    (hsame : ∀ w ∈ v.stack, SameFrame True w.app (g w).app) : Serves v v' where
  stays := Along.of_map hopenings hstack hid fun _ => hsame
  order := by
    intro hroom
    have hids : v'.ids = v.ids := by
      simp only [Desktop.ids, hstack (hopenings ▸ hroom), List.map_map]
      exact List.map_congr_left fun w _ => hid w
    rw [hids]
    exact List.filter_sublist

theorem Serves.refl (v : Windows) : Serves v v := ⟨Stays.refl v, fun _ => List.filter_sublist⟩

theorem Serves.trans {u v v' : Windows} (h : Serves u v) (h' : Serves v v') : Serves u v' where
  stays := Stays.trans h.stays h'.stays
  order := by
    intro hroom
    have hboth : (v'.ids.filter fun id => id ≤ u.openings) =
        (v'.ids.filter fun id => id ≤ v.openings).filter fun id => id ≤ u.openings := by
      rw [List.filter_filter]
      refine List.filter_congr fun id _ => ?_
      have hopenings := h.stays.openings
      by_cases hle : id ≤ u.openings
      · simp [hle, hle.trans hopenings]
      · simp [hle]
    rw [hboth]
    exact ((h'.order hroom).filter _).trans (h.order (h'.stays.room hroom))

theorem serves_change (v : Windows) (id : WindowId) {f : Frame → Frame}
    (hf : ∀ g, SameFrame True g (f g)) : Serves v (v.change id f) :=
  Serves.of_map rfl (fun hroom => v.change_stack hroom id f) (fun w => by split <;> rfl) fun w _ => by
    split
    · exact hf _
    · exact SameFrame.refl _

theorem serves_askClose (v : Windows) (id : WindowId) (asks : Bool) : Serves v (v.askClose id asks) :=
  Serves.of_map rfl (fun _ => rfl) (fun w => by split <;> rfl) fun w _ => by
    split <;> exact SameFrame.refl _

theorem serves_relayout (v : Windows) (work : Rect) (cols rows : Int) :
    Serves v (v.relayout work cols rows) :=
  Serves.of_map rfl (fun _ => rfl) (fun _ => rfl) fun _ _ => ⟨rfl, rfl, fun _ => .inl rfl⟩

theorem serves_close (v : Windows) (id : WindowId) : Serves v (v.close id) := by
  have hsub : (v.close id).stack.Sublist v.stack := by
    show (v.toWindowManager.close id).stack.Sublist v.stack
    unfold WindowManager.close
    split
    · exact List.Sublist.refl _
    · exact List.eraseP_sublist
  refine ⟨⟨le_refl _, fun _ w' hw' => .inl ⟨w', hsub.subset hw', rfl, SameFrame.refl _⟩⟩, fun _ => ?_⟩
  exact List.filter_sublist.trans (hsub.map _)

/-- Besides the window that takes the focus, the windows stay in the order they were in. -/
theorem focus_ids_filter (d : Desktop) {id : WindowId} {p : WindowId → Bool} (hp : p id = false) :
    ((d.focus id).ids.filter p).Sublist d.ids := by
  rw [← Desktop.leaveFullscreen_ids (d := d) id]
  show ((((d.leaveFullscreen id).toWindowManager.raise id).stack.map (·.id)).filter p).Sublist _
  unfold WindowManager.raise
  split
  · exact List.filter_sublist
  · next w hw =>
      have hlast : p w.id = false := by rw [(WindowManager.mem_of_find hw).2, hp]
      rw [List.map_append, List.filter_append, List.map_singleton, List.filter_cons_of_neg (by simp [hlast]),
        List.filter_nil, List.append_nil]
      exact List.filter_sublist.trans (List.eraseP_sublist.map _)

theorem serves_open (v : Windows) (app : Option Size) (work : Rect) : Serves v (v.open app work) := by
  have hgrows : v.openings ≤ (v.open app work).openings := v.openings_perform _
  by_cases hopens : v.toDesktop.opens (.open app work) = true
  swap
  · have hsame : (v.open app work).toDesktop = v.toDesktop :=
      Desktop.openAs_of_not_opens _ (by simpa using hopens)
    refine ⟨⟨hgrows, fun _ w' hw' => ?_⟩, fun _ => ?_⟩
    · rw [hsame] at hw'
      exact .inl ⟨w', hw', rfl, SameFrame.refl _⟩
    · rw [hsame]
      exact List.filter_sublist
  -- below the bound the new window has a number that comes after all the others
  have hnumber : (v.open app work).openings < 2 ^ 32 → v.nextId = v.openings + 1 := by
    intro hroom
    have hcount : (v.open app work).openings = v.openings + 1 := by
      show v.openings + (if _ then 1 else 0) = _
      rw [if_pos hopens]
    rw [v.next, Nat.mod_eq_of_lt (hcount ▸ hroom)]
  obtain ⟨w, cascade, hid, -, -, heq⟩ := Desktop.openAs_of_opens ((v.nextId + 1) % 2 ^ 32) hopens
  have hdesk : (v.open app work).toDesktop =
      ({ v.toDesktop with
        stack := v.stack ++ [w], nextId := (v.nextId + 1) % 2 ^ 32, cascade } : Desktop).focus
          v.nextId := heq
  refine ⟨⟨hgrows, fun hroom w' hw' => ?_⟩, fun hroom => ?_⟩
  · rw [hdesk, (Desktop.focus_perm _).mem_iff] at hw'
    obtain ⟨u, hu, hid', hsame⟩ := sameFrame_leaveFullscreen hw'
    rcases List.mem_append.1 hu with hold | hnew
    · exact .inl ⟨u, hold, hid', hsame⟩
    · rw [List.mem_singleton.1 hnew, hid, hnumber hroom] at hid'
      exact .inr (hid' ▸ Nat.lt_succ_self _)
  · have hself : decide (v.nextId ≤ v.openings) = false :=
      decide_eq_false (hnumber hroom ▸ Nat.not_succ_le_self _)
    have hids := @focus_ids_filter ({ v.toDesktop with
      stack := v.stack ++ [w], nextId := (v.nextId + 1) % 2 ^ 32, cascade } : Desktop) v.nextId
      (fun id => decide (id ≤ v.openings)) hself
    replace hids := hids.filter fun id => decide (id ≤ v.openings)
    rw [← hdesk, List.filter_filter] at hids
    simp only [Bool.and_self] at hids
    refine hids.trans ?_
    simp only [Desktop.ids, List.map_append, List.map_singleton, hid, List.filter_append]
    rw [List.filter_cons_of_neg (by simpa using hself), List.filter_nil, List.append_nil]
    exact List.filter_sublist

/-! ### The parts of a composition -/

section Parts

variable {P : Desk → Prop}
  (hserves : ∀ s s' : Desk, P s → Serves s.wm s'.wm → s'.drag = s.drag →
    s'.panel.edge = s.panel.edge → P s')
  (hcancel : ∀ s : Desk, P s → P s.cancelDrag)

include hcancel in
theorem watchdog_rule {s : Desk} (h : P s) : P s.watchdog := by
  unfold Desk.watchdog
  split
  · exact h
  · split
    · exact hcancel s h
    · exact h

include hserves

theorem openApp_rule {s : Desk} (h : P s) (id : Bytes) (minSize : Size) : P (s.openApp id minSize) := by
  unfold Desk.openApp
  split
  · have hopen := serves_open s.wm (some minSize) s.lastWork
    have hnamed := serves_change (s.wm.open (some minSize) s.lastWork) s.wm.nextId
      (f := fun f => { f with appId := id }) fun _ => ⟨rfl, rfl, fun _ => .inl rfl⟩
    exact hserves s _ h (hopen.trans hnamed) rfl rfl
  · exact h

theorem openPending_rule {s : Desk} (h : P s) : P s.openPending := by
  unfold Desk.openPending
  split
  · exact h
  · next rest hpending =>
      exact openApp_rule hserves (hserves s { s with pendingApps := rest } h (Serves.refl _) rfl rfl) _ _

theorem ensureWindow_rule {s : Desk} (h : P s) : P s.ensureWindow := by
  unfold Desk.ensureWindow openFromCatalog
  split
  · exact h
  · have hseeded := hserves s { s with seeded := true } h (Serves.refl _) rfl rfl
    split
    · exact hseeded
    · exact openApp_rule hserves hseeded _ _

include hcancel

theorem requestClose_rule {s : Desk} (h : P s) (id : WindowId) (allowed : Bool) :
    P (s.requestClose id allowed) := by
  unfold Desk.requestClose
  simp only
  split
  · exact hserves _ _ (hcancel s h) (serves_close _ id) rfl rfl
  · exact hserves _ _ (hcancel s h) (Serves.refl _) rfl rfl

theorem closeRequested_rule {s : Desk} (h : P s) (allowed : Bool) : P (s.closeRequested allowed) := by
  unfold Desk.closeRequested
  split
  · exact h
  · next w hw =>
      refine requestClose_rule hserves hcancel ?_ _ _
      exact hserves s { s with wm := s.wm.askClose w.id false } h (serves_askClose _ _ _) rfl rfl

/-- **A composition.** What is kept when the windows are served and when a gesture is given
up, a composition keeps. -/
theorem compose_rule {s : Desk} (h : P s) (cols rows : Int) (utf8 badge : Bool) (hint : Bytes)
    (allowed : Bool) : P (s.compose cols rows utf8 badge hint allowed) := by
  have hwatched := watchdog_rule hcancel h
  unfold Desk.compose
  simp only
  split
  · exact hwatched
  · have hserved := closeRequested_rule hserves hcancel (openPending_rule hserves hwatched) allowed
    generalize (s.watchdog.openPending).closeRequested allowed = served at *
    have hplaced := hserves served { served with
      lastWork := workArea cols rows served.panel.edge served.panel.thickness } hserved
      (Serves.refl _) rfl rfl
    exact hserves _ _ (ensureWindow_rule hserves hplaced) (serves_relayout _ _ _ _) rfl rfl

end Parts

end Desk

end Sshos.Daemon
