import Sshos.Daemon.Filled
import Sshos.Daemon.Keyboard
import Sshos.Wm.Tiling

/-!
# Sshos.Daemon.Docked

**Two windows side by side.** Whatever the windows, a plain `Ctrl` and arrow gives the one that
has the focus a half of the work area; who is proposed for the other half is drawn inside
it, and a press on a name one sees gives that window the other half, with the focus. A window
is shown in its half as long as the half is not too small for it.
-/

namespace Sshos.Daemon

open Sshos.Input (KeyEvent MouseEvent)
open Sshos.Lib (IsPartition)
open Sshos.Render (Border Rect Stroke View)
open Sshos.Shell (DialogTheme SnapAssist SnapCandidate)
open Sshos.Wm (Desktop SnapDir Win WindowId Windows clampTo frameMin snapOpposite snapRect snap_partition)

/-- A window that is not smaller than its place, and a place inside the work area, need no
clamping. -/
theorem clampTo_of_room {r work : Rect} {min' : Wm.Size} (hr : r.Within work) (hw : min'.w ≤ r.w)
    (hh : min'.h ≤ r.h) : clampTo r work min' = r := by
  obtain ⟨hx, hy, hright, hbottom⟩ := hr
  obtain ⟨x, y, w, h⟩ := r
  simp only at hx hy hright hbottom hw hh
  simp only [clampTo, Rect.mk.injEq]
  refine ⟨?_, ?_, ?_, ?_⟩ <;> omega

/-- A half that has some room is inside the work area. -/
theorem snapRect_within {work : Rect} {d : SnapDir} (hw : 0 < (snapRect work d).w)
    (hh : 0 < (snapRect work d).h) : (snapRect work d).Within work := by
  have hhalf : ∀ n : Int, 0 ≤ n → n.tdiv 2 = n / 2 := fun n hn => Int.tdiv_eq_ediv_of_nonneg hn
  have hneg : ∀ n : Int, n < 0 → n ≤ n.tdiv 2 ∧ n.tdiv 2 ≤ 0 := by
    intro n hn
    have hopp := Int.neg_tdiv n 2
    rw [hhalf (-n) (by omega)] at hopp
    omega
  have hw₁ := hhalf work.w
  have hh₁ := hhalf work.h
  have hw₂ := hneg work.w
  have hh₂ := hneg work.h
  cases d <;> simp only [snapRect, Rect.Within] at hw hh ⊢ <;> omega

theorem exists_snapOpposite (work : Rect) (d : SnapDir) : ∃ d', snapOpposite work d = snapRect work d' := by
  cases d
  · exact ⟨.right, rfl⟩
  · exact ⟨.left, rfl⟩
  · exact ⟨.down, rfl⟩
  · exact ⟨.up, rfl⟩

/-- A window has a place, as a normal one, and is shown there if it is not too small for it. -/
structure Has (v : Windows) (w : Win) (r : Rect) : Prop where
  there : ∃ x ∈ v.stack, x.id = w.id ∧ x.app.mode = .normal ∧ x.app.userRect = r ∧
    ((frameMin w.app.minSize).w ≤ r.w → (frameMin w.app.minSize).h ≤ r.h → x.app.displayRect = r)

/-- **Two windows have the halves of the work area**, and the second has the focus. -/
structure Docked (s s' : Keyboard) (d : SnapDir) (w u : Win) : Prop where
  snapped : Has s'.desk.wm w (snapRect s.desk.lastWork d)
  docked : Has s'.desk.wm u (snapOpposite s.desk.lastWork d)
  share : IsPartition [(snapRect s.desk.lastWork d).cells, (snapOpposite s.desk.lastWork d).cells]
    s.desk.lastWork.cells
  focused : s'.desk.wm.focused = u.id
  /-- The others stay where the user wants them. -/
  others : ∀ x ∈ s.desk.wm.stack, x.id ≠ w.id → x.id ≠ u.id →
    (x.id, x.app.userRect) ∈ s'.desk.wm.keys
  away : s'.assist.isOpen = false

/-- **What snapping a window leaves.** -/
structure Snapped (s s' : Keyboard) (d : SnapDir) (w : Win) : Prop where
  half : Has s'.desk.wm w (snapRect s.desk.lastWork d)
  focused : s'.desk.wm.focused = s.desk.wm.focused
  others : ∀ x ∈ s.desk.wm.stack, x.id ≠ w.id → x ∈ s'.desk.wm.stack
  /-- Nobody is proposed only if there is nobody, if somebody has that half already, or if it
  is too small to list anybody. -/
  silent : s'.assist.isOpen = false →
    s.others w.id = [] ∨
    (∃ u ∈ s.others w.id, u.app.displayRect = snapOpposite s.desk.lastWork d) ∨
    (snapOpposite s.desk.lastWork d).w < 14 ∨ (snapOpposite s.desk.lastWork d).h < 6
  /-- The foremost first, as many as there are rows for. -/
  listed : s'.assist.isOpen = true → s'.assist.choices =
    ((s.others w.id).map fun u => { win := u.id, title := u.app.title }).take
      ((snapOpposite s.desk.lastWork d).h - 5).toNat
  within : s'.assist.isOpen = true → s'.assist.rect.Within (snapOpposite s.desk.lastWork d)
  /-- A name one sees is a window's, and a press there names that window. -/
  seen : ∀ (cols rows cx cy : Nat) (th : DialogTheme) (b : Border) (i : Nat),
    Stroke.lastPainter false cols rows (s'.assist.draw (View.screen cols rows) th b) cx cy =
      some (.choice i) → ∃ u, (s.others w.id)[i]? = some u ∧ s'.assist.hit cx cy = u.id
  /-- A press that names a window docks it. -/
  press : ∀ (m : MouseEvent) (o : Outcome), m.action = .press → s'.assist.hit m.x m.y ≠ 0 →
    ∃ u ∈ s.others w.id, s'.assist.hit m.x m.y = u.id ∧ Docked s (s'.onMouse m o) d w u

namespace Keyboard

variable {s : Keyboard} {w : Win} {d : SnapDir}

/-! ### Places -/

theorem has_placed {v : Windows} {w : Win} {r work : Rect} (hr : 0 < r.w → 0 < r.h → r.Within work)
    (hmem : Desk.placed work w r ∈ v.stack) : Has v w r := by
  refine ⟨_, hmem, rfl, rfl, rfl, fun hw hh => clampTo_of_room (hr ?_ ?_) hw hh⟩
  · have hmin : 16 ≤ (frameMin w.app.minSize).w := le_max_right _ _
    omega
  · have hmin : 5 ≤ (frameMin w.app.minSize).h := le_max_right _ _
    omega

/-- The window named is given its place, the others are left alone. -/
theorem mem_place (hroom : s.desk.wm.openings < 2 ^ 32) {id : WindowId} {r : Rect} {x : Win} : x ∈ (s.place id r).stack ↔
    ∃ y ∈ s.desk.wm.stack, x = if y.id = id then Desk.placed s.desk.lastWork y r else y := by
  unfold place
  rw [Desk.place_stack _ hroom, List.mem_map]
  exact ⟨fun ⟨y, hy, h⟩ => ⟨y, hy, h.symm⟩, fun ⟨y, hy, h⟩ => ⟨y, hy, h.symm⟩⟩

/-- A window that does not fill the screen is as it was when another takes the focus. -/
theorem mem_focus {v : Windows} {x : Win} (hx : x ∈ v.stack) (hmode : x.app.mode ≠ .fullscreen)
    (id : WindowId) : x ∈ (v.focus id).stack := by
  show x ∈ (v.toDesktop.focus id).stack
  refine (Desktop.focus_perm id).mem_iff.2 (List.mem_map.2 ⟨x, hx, ?_⟩)
  rw [if_neg fun h => hmode h.2]

/-! ### The proposal -/

theorem mem_others {id : WindowId} {u : Win} :
    u ∈ s.others id ↔ u ∈ s.desk.wm.stack ∧ u.id ≠ id ∧ u.app.mode ≠ .minimized := by
  unfold others
  rw [List.mem_filter, List.mem_reverse]
  simp

/-- A window that takes a place is not one of the others. -/
theorem others_place (hroom : s.desk.wm.openings < 2 ^ 32) (id : WindowId) (r : Rect) : (s.withWindows (s.place id r)).others id = s.others id := by
  show ((s.place id r).stack.reverse.filter _) = s.desk.wm.stack.reverse.filter _
  unfold place
  rw [Desk.place_stack _ hroom, ← List.map_reverse, List.filter_map]
  generalize s.desk.wm.stack.reverse = l
  induction l with
  | nil => rfl
  | cons x xs ih =>
      by_cases hx : x.id = id
      · have hplaced : (Desk.placed s.desk.lastWork x r).id = id := hx
        simpa [List.filter_cons, hx, hplaced] using ih
      · by_cases hmode : x.app.mode = .minimized
        · simpa [List.filter_cons, hx, hmode] using ih
        · simpa [List.filter_cons, hx, hmode] using ih

theorem assistCandidates_eq {snapped : WindowId} {free : Rect}
    (h : s.assistCandidates snapped free ≠ []) : s.assistCandidates snapped free =
      (s.others snapped).map fun u => { win := u.id, title := u.app.title } := by
  unfold assistCandidates at h ⊢
  split at h
  · exact absurd rfl h
  · next hfree => exact if_neg hfree

/-- Nobody is proposed if there is nobody, or if somebody has the half. -/
theorem assistCandidates_nil {snapped : WindowId} {free : Rect}
    (h : s.assistCandidates snapped free = []) :
    s.others snapped = [] ∨ ∃ u ∈ s.others snapped, u.app.displayRect = free := by
  unfold assistCandidates at h
  split at h
  · next hany =>
    obtain ⟨u, hu, hfree⟩ := List.any_eq_true.1 hany
    exact .inr ⟨u, hu, by simpa using hfree⟩
  · exact .inl (List.map_eq_nil_iff.1 h)

/-! ### Snapping -/

theorem settle_desk (s : Keyboard) : s.settle.desk =
    { s.desk with covers := { s.desk.covers with help := false, assist := false } } := by
  unfold settle
  simp only
  split <;> rfl

/-- The session just after a window was snapped. -/
structure AfterSnap (s s' : Keyboard) (d : SnapDir) (w : Win) : Prop where
  wm : s'.desk.wm = s.place w.id (snapRect s.desk.lastWork d)
  work : s'.desk.lastWork = s.desk.lastWork
  idle : s'.desk.drag = .idle
  bare : ¬ (s'.desk.covers.modal ∨ s'.desk.covers.help ∨ s'.desk.covers.menu)
  rect : s'.assistRect = snapOpposite s.desk.lastWork d
  assist : s'.assist = SnapAssist.open (snapOpposite s.desk.lastWork d)
    (assistCandidates { s with desk := s'.desk } w.id (snapOpposite s.desk.lastWork d))

theorem onKey_snap (hbare : s.Bare) (hfocus : s.desk.wm.find s.desk.wm.focused = some w) {k : KeyEvent}
    (hk : snapKey k = some d) (o : Outcome) : AfterSnap s (s.onKey k o) d w := by
  have hquit : isQuit k = false := by
    unfold isQuit
    unfold snapKey at hk
    cases hkey : k.key <;> simp_all
  have hkey : s.onKey k o = { s.settle with leader := s.settle.leader.reset }.snapFocused d := by
    have hcovers : ¬ (s.desk.covers.modal ∨ s.desk.covers.menu) := by simp [hbare.modal, hbare.menu]
    unfold onKey dispatch
    rw [if_neg (not_not.2 hbare.idle), hquit, if_neg Bool.false_ne_true, if_neg hcovers, hk]
  have hdesk := s.settle_desk
  rw [hkey]
  generalize s.settle = t at *
  obtain ⟨⟨desk, leader, repeatUntil, keys, pastes⟩, stamp, assist, rect, detach, repaint⟩ := t
  obtain rfl : desk = _ := hdesk
  unfold snapFocused
  simp only [hfocus]
  refine ⟨rfl, rfl, hbare.idle, ?_, rfl, rfl⟩
  simp [setAssist, withCovers, withWindows, hbare.modal, hbare.menu]

variable {s' : Keyboard}

theorem AfterSnap.mem_other (h : AfterSnap s s' d w) (hroom : s.desk.wm.openings < 2 ^ 32) {x : Win} (hid : x.id ≠ w.id) :
    x ∈ s'.desk.wm.stack ↔ x ∈ s.desk.wm.stack := by
  rw [h.wm, mem_place hroom]
  constructor
  · rintro ⟨y, hy, rfl⟩
    by_cases heq : y.id = w.id
    · rw [if_pos heq] at hid
      exact absurd heq hid
    · rw [if_neg heq]
      exact hy
  · exact fun hx => ⟨x, hx, (if_neg hid).symm⟩

theorem AfterSnap.others_eq (h : AfterSnap s s' d w) (hroom : s.desk.wm.openings < 2 ^ 32) :
    others { s with desk := s'.desk } w.id = s.others w.id := by
  rw [← @others_place s hroom w.id (snapRect s.desk.lastWork d), ← h.wm]
  rfl

theorem AfterSnap.listed (h : AfterSnap s s' d w) (hroom : s.desk.wm.openings < 2 ^ 32)
    (hopen : s'.assist.isOpen = true) : s'.assist.choices =
      ((s.others w.id).map fun u => { win := u.id, title := u.app.title }).take
        ((snapOpposite s.desk.lastWork d).h - 5).toNat := by
  rw [h.assist] at hopen ⊢
  have hopened := SnapAssist.opened_of_isOpen hopen
  have hsome : assistCandidates { s with desk := s'.desk } w.id (snapOpposite s.desk.lastWork d) ≠ [] := by
    intro hnil
    rw [hnil] at hopened
    exact hopened.some (hopened.listed.trans List.take_nil)
  rw [hopened.listed, assistCandidates_eq hsome, h.others_eq hroom]

theorem AfterSnap.placed (h : AfterSnap s s' d w) (hroom : s.desk.wm.openings < 2 ^ 32) (hw : w ∈ s.desk.wm.stack) :
    Desk.placed s.desk.lastWork w (snapRect s.desk.lastWork d) ∈ s'.desk.wm.stack := by
  rw [h.wm]
  exact (mem_place hroom).2 ⟨w, hw, (if_pos rfl).symm⟩

theorem AfterSnap.has (h : AfterSnap s s' d w) (hroom : s.desk.wm.openings < 2 ^ 32) (hw : w ∈ s.desk.wm.stack) :
    Has s'.desk.wm w (snapRect s.desk.lastWork d) :=
  has_placed snapRect_within (h.placed hroom hw)

/-- A press on the proposal docks the window it names. -/
theorem AfterSnap.docked (h : AfterSnap s s' d w) (hroom : s.desk.wm.openings < 2 ^ 32)
    (hw : w ∈ s.desk.wm.stack) {u : Win} (hu : u ∈ s.others w.id)
    {m : MouseEvent} (hm : m.action = .press) (hhit : s'.assist.hit m.x m.y = u.id)
    (hopen : s'.assist.isOpen = true) (hid : u.id ≠ 0) (o : Outcome) :
    Docked s (s'.onMouse m o) d w u := by
  obtain ⟨hmem, hother, -⟩ := mem_others.1 hu
  have hthere := (h.mem_other hroom hother).2 hmem
  have hroom' : s'.desk.wm.openings < 2 ^ 32 := by
    rw [h.wm]
    exact hroom
  obtain ⟨v, hv⟩ := Option.ne_none_iff_exists'.1 (Desktop.find_ne_none_of_mem (d := s'.desk.wm.toDesktop) hthere)
  have hdock : s'.onMouse m o = (s'.setAssist {}).withWindows
      ((s'.place u.id (snapOpposite s.desk.lastWork d)).focus u.id) := by
    have hfind : (s'.setAssist {}).desk.wm.find u.id = some v := hv
    unfold onMouse
    rw [if_pos ⟨⟨hm, h.idle, h.bare⟩, hopen⟩]
    simp only [hhit]
    rw [if_pos hid]
    unfold dockIntoFreeHalf
    simp only [hfind]
    rw [← h.rect]
    rfl
  -- who keeps its place when `u` is docked
  have hkeep : ∀ x ∈ s'.desk.wm.stack, x.id ≠ u.id → x ∈ (s'.place u.id (snapOpposite s.desk.lastWork d)).stack :=
    fun x hx hne => (mem_place hroom').2 ⟨x, hx, (if_neg hne).symm⟩
  rw [hdock]
  obtain ⟨d', hd'⟩ := exists_snapOpposite s.desk.lastWork d
  refine ⟨?_, ?_, snap_partition _ _, rfl, fun x hx hxw hxu => ?_, rfl⟩
  · exact has_placed snapRect_within (mem_focus (hkeep _ (h.placed hroom hw) (Ne.symm hother)) (by nofun) u.id)
  · have hplaced : Desk.placed s.desk.lastWork u (snapOpposite s.desk.lastWork d) ∈
        (s'.place u.id (snapOpposite s.desk.lastWork d)).stack := by
      refine (mem_place hroom').2 ⟨u, hthere, ?_⟩
      rw [if_pos rfl, h.work]
    refine has_placed ?_ (mem_focus hplaced (by nofun) u.id)
    rw [hd']
    exact snapRect_within
  · have hstays := hkeep x ((h.mem_other hroom hxw).2 hx) hxu
    exact (Desktop.focus_keys u.id).mem_iff.2 (List.mem_map.2 ⟨x, hstays, rfl⟩)

theorem AfterSnap.focused (h : AfterSnap s s' d w) : s'.desk.wm.focused = s.desk.wm.focused := by
  rw [h.wm]
  show (s.desk.wm.toDesktop.setMode w.id .normal s.desk.lastWork).focused = _
  unfold Desktop.setMode
  split
  · rfl
  · split <;> rfl

/-- **Snap, then dock**, as long as the numbers have not come round. -/
theorem snap_then_dock (s : Keyboard) (hbare : s.Bare) (hroom : s.desk.wm.openings < 2 ^ 32) {w : Win}
    (hfocus : s.desk.wm.find s.desk.wm.focused = some w) {k : KeyEvent} {d : SnapDir}
    (hk : snapKey k = some d) (o : Outcome) : Snapped s (s.onKey k o) d w := by
  have h := onKey_snap hbare hfocus hk o
  have hw := (Wm.WindowManager.mem_of_find hfocus).1
  generalize s.onKey k o = s' at h
  -- a line of the proposal stands for a window
  have hchoice : ∀ (i : Nat) (c : SnapCandidate), s'.assist.choices[i]? = some c →
      ∃ u, (s.others w.id)[i]? = some u ∧ SnapCandidate.mk u.id u.app.title = c := by
    intro i c hc
    cases hopen : s'.assist.isOpen with
    | false =>
        rw [h.assist] at hopen hc
        rw [SnapAssist.choices_of_closed hopen] at hc
        cases hc
    | true =>
        rw [h.listed hroom hopen, List.getElem?_take] at hc
        split at hc
        · rw [List.getElem?_map] at hc
          exact Option.map_eq_some_iff.1 hc
        · cases hc
  refine
    { half := h.has hroom hw
      focused := h.focused
      others := fun x hx hid => (h.mem_other hroom hid).2 hx
      silent := fun hclosed => ?_
      listed := h.listed hroom
      within := fun hopen => ?_
      seen := fun cols rows cx cy th b i hpaint => ?_
      press := fun m o' hm hhit => ?_ }
  · by_cases hsmall : (snapOpposite s.desk.lastWork d).w < 14 ∨ (snapOpposite s.desk.lastWork d).h < 6
    · exact .inr (.inr hsmall)
    rw [← or_assoc]
    refine .inl ?_
    rw [← h.others_eq hroom]
    refine assistCandidates_nil ?_
    by_contra hcands
    rw [h.assist, SnapAssist.isOpen_of_room hcands (by omega) (by omega)] at hclosed
    cases hclosed
  · rw [h.assist] at hopen ⊢
    exact (SnapAssist.opened_of_isOpen hopen).within
  · obtain ⟨c, hc, hhit⟩ := SnapAssist.hit_of_painted hpaint
    obtain ⟨u, hu, rfl⟩ := hchoice i c hc
    exact ⟨u, hu, hhit⟩
  · obtain ⟨hopen, c, hc, hwin⟩ := SnapAssist.exists_of_hit hhit
    obtain ⟨i, hi⟩ := List.getElem?_of_mem hc
    obtain ⟨u, hu, rfl⟩ := hchoice i c hi
    have hu := List.mem_of_getElem? hu
    exact ⟨u, hu, hwin, h.docked hroom hw hu hm hwin hopen (fun hid => hhit (hwin.trans hid)) o'⟩

/-- Two terminals: the second is snapped to the left, and the first picked for the right. -/
theorem snap_then_dock_two : ∃ w u, Docked { desk := Desk.twoTerminals }
    ((onKey { desk := Desk.twoTerminals } { key := .left, mods := { ctrl := true } } {}).onMouse
      { x := 60, y := 11 } {}) .left w u := by
  have hsnapped := snap_then_dock { desk := Desk.twoTerminals } ⟨rfl, rfl, rfl⟩ (by decide +kernel) rfl
    (k := { key := .left, mods := { ctrl := true } }) rfl {}
  obtain ⟨u, -, -, hdocked⟩ := hsnapped.press { x := 60, y := 11 } {} rfl (by decide +kernel)
  exact ⟨_, u, hdocked⟩

end Keyboard

end Sshos.Daemon
