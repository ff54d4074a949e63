import Sshos.Wm.DesktopRuns

/-!
# Sshos.Wm.Windows

The windows of a session: a stack that is no longer than allowed, whatever was done to it,
and **well numbered** as long as fewer than `2 ^ 32` windows were opened. What happens then
is in `DesktopRuns`.
-/

namespace Sshos.Wm

open Sshos.Lib (Bytes)
open Sshos.Render (Rect)

structure Windows extends Desktop where
  /-- How many were opened. The source keeps no such count, and nothing reads this one. -/
  openings : Nat
  next : toDesktop.nextId = (openings + 1) % 2 ^ 32
  numbered : openings < 2 ^ 32 → toDesktop.Numbered openings
  few : toDesktop.stack.length ≤ WindowManager.kMaxWindows

namespace Windows

variable (v : Windows)

theorem length_ids (d : Desktop) : d.ids.length = d.stack.length := List.length_map _

section Numbers

variable {v} (hroom : v.openings < 2 ^ 32)

include hroom

/-- As long as the numbers do not come round, each stands for one window -/
theorem distinct : v.ids.Nodup := (v.numbered hroom).distinct

theorem eq_of_id {u w : Win} (hu : u ∈ v.stack) (hw : w ∈ v.stack) (hid : u.id = w.id) : u = w :=
  List.inj_on_of_nodup_map (distinct hroom) hu hw hid

/-- and was given in its turn. -/
theorem id_le {w : Win} (hw : w ∈ v.stack) : w.id ≤ v.openings :=
  ((v.numbered hroom).past w.id (List.mem_map_of_mem hw)).2

end Numbers

/-- A desktop where no window is new. -/
def keep (d : Desktop) (hnext : d.nextId = v.nextId)
    (hids : ∃ gone, d.ids.Perm gone ∧ gone.Sublist v.ids) : Windows where
  toDesktop := d
  openings := v.openings
  next := hnext.trans v.next
  numbered := by
    intro hroom
    obtain ⟨gone, hperm, hsub⟩ := hids
    exact ⟨hnext.trans v.next, hroom, hperm.nodup_iff.2 ((distinct hroom).sublist hsub),
      fun id hid => (v.numbered hroom).past id (hsub.subset (hperm.mem_iff.1 hid))⟩
  few := by
    obtain ⟨gone, hperm, hsub⟩ := hids
    have hle : d.ids.length ≤ v.ids.length := hperm.length_eq ▸ hsub.length_le
    rw [length_ids, length_ids] at hle
    exact hle.trans v.few

theorem few_apply (op : Desktop.Op) :
    (v.toDesktop.apply op).stack.length ≤ WindowManager.kMaxWindows := by
  have hids := Desktop.apply_ids v.toDesktop op
  have hfew := v.few
  rw [← length_ids] at hfew ⊢
  by_cases hopens : v.toDesktop.opens op = true
  · rw [if_pos hopens] at hids
    rw [hids.length_eq, List.length_append, length_ids]
    cases op with
    | «open» app work =>
        cases app with
        | none => cases hopens
        | some minSize => exact Nat.succ_le_of_lt (by simpa [Desktop.opens] using hopens)
    | _ => cases hopens
  · rw [if_neg hopens] at hids
    obtain ⟨gone, hperm, hsub⟩ := hids
    exact (hperm.length_eq ▸ hsub.length_le).trans hfew

/-- What is done to the windows is what the window manager does, and counted. -/
def perform (op : Desktop.Op) : Windows where
  toDesktop := v.toDesktop.apply op
  openings := v.openings + if v.toDesktop.opens op then 1 else 0
  next := by
    rw [Desktop.apply_nextId, v.next]
    split
    · rw [Nat.mod_add_mod]
    · rfl
  numbered := fun hroom => (v.numbered (Nat.lt_of_le_of_lt (Nat.le_add_right ..) hroom)).apply op hroom
  few := v.few_apply op

theorem openings_perform (op : Desktop.Op) : v.openings ≤ (v.perform op).openings :=
  Nat.le_add_right ..

/-- The numbers that come round are those of the window manager, in every run. -/
theorem run_perform (ops : List Desktop.Op) :
    (Lib.run perform v ops).toDesktop = Lib.run Desktop.apply v.toDesktop ops ∧
      (Lib.run perform v ops).openings = v.openings + Desktop.opened v.toDesktop ops := by
  induction ops generalizing v with
  | nil => exact ⟨rfl, rfl⟩
  | cons op ops ih =>
      obtain ⟨hdesktop, hcount⟩ := ih (v.perform op)
      refine ⟨hdesktop, hcount.trans ?_⟩
      exact Nat.add_assoc ..

/-- A window is opened, or none if that is refused. -/
def «open» (app : Option Size) (work : Rect) : Windows := v.perform (.open app work)

def close (id : WindowId) : Windows := v.perform (.close id)
def focus (id : WindowId) : Windows := v.perform (.focus id)
def setMode (id : WindowId) (m : WinMode) (work : Rect) : Windows := v.perform (.setMode id m work)
def setRect (id : WindowId) (user work : Rect) : Windows := v.perform (.setRect id user work)

/-- Change what a window holds, but for its number. -/
def change (id : WindowId) (f : Frame → Frame) : Windows :=
  v.keep (v.toDesktop.change id f) rfl
    ⟨v.ids, List.Perm.of_eq (Desktop.change_map id fun _ => rfl), List.Sublist.refl _⟩

/-- A number stands for one window, so that the first one is all of them. -/
theorem change_go_eq {l : List Win} (hids : (l.map (·.id)).Nodup) (id : WindowId)
    (f : Frame → Frame) : Desktop.change.go id f l =
      l.map fun w => if w.id = id then { w with app := f w.app } else w := by
  induction l with
  | nil => rfl
  | cons w ws ih =>
      rw [List.map_cons, List.nodup_cons] at hids
      unfold Desktop.change.go
      rw [List.map_cons]
      by_cases heq : w.id = id
      · rw [if_pos heq, if_pos heq]
        congr 1
        refine (List.map_id _).symm.trans (List.map_congr_left fun u hu => ?_)
        have hne : u.id ≠ id := fun h => hids.1 (by rw [heq, ← h]; exact List.mem_map_of_mem hu)
        rw [if_neg hne]
        rfl
      · rw [if_neg heq, if_neg heq, ih hids.2]

theorem change_stack (hroom : v.openings < 2 ^ 32) (id : WindowId) (f : Frame → Frame) :
    (v.change id f).stack =
      v.stack.map fun w => if w.id = id then { w with app := f w.app } else w :=
  change_go_eq (distinct hroom) id f

/-- Write the geometry that is wanted, and nothing else. -/
def setUserRect (id : WindowId) (r : Rect) : Windows := v.change id fun f => { f with userRect := r }

/-- An application asks for its closing, or its request is served. -/
def askClose (id : WindowId) (asks : Bool) : Windows :=
  v.keep { v.toDesktop with
      toWindowManager := v.toWindowManager.update id fun w => { w with closeRequested := asks } }
    rfl ⟨v.ids, List.Perm.of_eq (by
      simp only [Desktop.ids, WindowManager.update, List.map_map]
      refine List.map_congr_left fun w _ => ?_
      simp only [Function.comp_apply]
      split <;> rfl), List.Sublist.refl _⟩

def relayout (work : Rect) (cols rows : Int) : Windows :=
  v.keep (v.toDesktop.relayout work cols rows) rfl
    ⟨v.ids, List.Perm.of_eq (by simp [Desktop.ids, Desktop.relayout]), List.Sublist.refl _⟩

/-- The window named is none of those that leave the full screen. -/
theorem find_leaveFullscreen_self (d : Desktop) (id : WindowId) :
    (d.leaveFullscreen id).find id = d.find id := by
  show (d.stack.map _).find? _ = d.stack.find? _
  rw [List.find?_map]
  have hsame : ((fun w : Win => w.id == id) ∘ fun w =>
      if w.id ≠ id ∧ w.app.mode = .fullscreen then
        { w with app := { w.app with mode := w.app.beforeFullscreen } } else w) =
      fun w : Win => w.id == id := by
    funext w
    simp only [Function.comp_apply]
    split <;> rfl
  rw [hsame]
  cases hfind : d.stack.find? fun w => w.id == id with
  | none => rfl
  | some w =>
      have hid : w.id = id := by simpa using List.find?_some hfind
      simp [hid]

/-- Who takes the focus is not changed by it. -/
theorem find_focus (hroom : v.openings < 2 ^ 32) (id : WindowId) :
    (v.focus id).find id = v.find id := by
  have hids : (v.toDesktop.leaveFullscreen id).ids = v.ids := Desktop.leaveFullscreen_ids id
  have hdistinct : (v.toDesktop.leaveFullscreen id).toWindowManager.Distinct :=
    WindowManager.Distinct.of_perm (distinct hroom) (List.Perm.of_eq hids)
  rw [← find_leaveFullscreen_self v.toDesktop id]
  exact hdistinct.find_focus_self id

/-- It is still there, whoever else bears its number. -/
theorem mem_focus_self {w : Win} (hw : w ∈ v.stack) : w ∈ (v.focus w.id).stack := by
  refine (Desktop.focus_perm (d := v.toDesktop) w.id).mem_iff.2 ?_
  refine List.mem_map.2 ⟨w, hw, ?_⟩
  rw [if_neg fun h => h.1 rfl]

theorem find_change (d : Desktop) (id : WindowId) (f : Frame → Frame) :
    (d.change id f).find id = (d.find id).map fun w => { w with app := f w.app } := by
  show (Desktop.change.go id f d.stack).find? _ = (d.stack.find? _).map _
  induction d.stack with
  | nil => rfl
  | cons w ws ih =>
      unfold Desktop.change.go
      by_cases heq : w.id = id
      · rw [if_pos heq, List.find?_cons_of_pos (by simpa using heq),
          List.find?_cons_of_pos (by simpa using heq)]
        rfl
      · rw [if_neg heq, List.find?_cons_of_neg (by simpa using heq),
          List.find?_cons_of_neg (by simpa using heq), ih]

/-- A window has the mode it is given, and the geometry it had. -/
theorem find_setMode {id : WindowId} {w : Win} (hfind : v.find id = some w) (m : WinMode) (work : Rect) :
    ∃ w', (v.setMode id m work).find id = some w' ∧ w'.id = id ∧ w'.app.mode = m ∧
      w'.app.userRect = w.app.userRect := by
  obtain ⟨-, hid⟩ := WindowManager.mem_of_find hfind
  have henter : ∀ f : Frame, (f.enter m work).mode = m ∧ (f.enter m work).userRect = f.userRect := by
    intro f
    cases m <;> exact ⟨rfl, rfl⟩
  have hset : (v.setMode id m work).find id = (v.toDesktop.setMode id m work).find id := rfl
  rw [hset]
  unfold Desktop.setMode
  rw [hfind]
  simp only
  split
  · refine ⟨{ w with app := { w.app with beforeFullscreen := w.app.mode }.enter m work }, ?_, hid,
      henter _⟩
    rw [find_change, find_leaveFullscreen_self, find_change, hfind]
    rfl
  · refine ⟨{ w with app := w.app.enter m work }, ?_, hid, henter _⟩
    rw [find_change, hfind]
    rfl

/-- A mode other than the full screen changes one window. -/
theorem setMode_stack (hroom : v.openings < 2 ^ 32) {m : WinMode} (hm : m ≠ .fullscreen)
    (id : WindowId) (work : Rect) : (v.setMode id m work).stack =
      v.stack.map fun w => if w.id = id then { w with app := w.app.enter m work } else w := by
  rw [← v.change_stack hroom id fun f => f.enter m work]
  show (v.toDesktop.setMode id m work).stack = _
  unfold Desktop.setMode
  cases hfind : v.find id with
  | none =>
      rw [change_stack v hroom]
      refine (List.map_id _).symm.trans (List.map_congr_left fun w hw => ?_)
      rw [if_neg (WindowManager.find_eq_none_iff.1 hfind w hw)]
      rfl
  | some w =>
      simp only
      rw [if_neg fun h => hm h.1]
      rfl

/-- The windows of a new session. -/
def none : Windows where
  toDesktop := {}
  openings := 0
  next := rfl
  numbered := fun _ => Desktop.Kept.start.numbered
  few := Nat.zero_le _

end Windows

end Sshos.Wm
