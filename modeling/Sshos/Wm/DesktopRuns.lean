import Mathlib.Data.List.Perm.Basic
import Sshos.Wm.Desktop

/-!
# Sshos.Wm.DesktopRuns

What every operation of the window manager keeps, and so every run: the numbers, the
window that has the focus, the one that fills the screen, the geometry the user wants.

The numbers are 32 bits wide. A run that opens `2 ^ 32` windows gives one of them the
number that stands for none, and the ones after it numbers already used.
-/

namespace Sshos.Wm

open Sshos.Lib (run run_append StepsMeet)
open Sshos.Render (Rect)

namespace Desktop

variable {d : Desktop}

def ids (d : Desktop) : List WindowId := d.stack.map (·.id)

/-- What only `set_rect` may change of a window. -/
def keys (d : Desktop) : List (WindowId × Rect) := d.stack.map fun w => (w.id, w.app.userRect)

theorem ids_eq_keys (d : Desktop) : d.ids = d.keys.map Prod.fst := by
  simp [ids, keys]

/-! ### The pieces -/

theorem find_ne_none_of_mem {w : Win} (hw : w ∈ d.stack) : d.find w.id ≠ none := by
  intro hnone
  exact WindowManager.find_eq_none_iff.1 hnone w hw rfl

@[simp] theorem leaveFullscreen_keys (id : WindowId) : (d.leaveFullscreen id).keys = d.keys := by
  simp only [keys, leaveFullscreen, List.map_map]
  refine List.map_congr_left fun w _ => ?_
  simp only [Function.comp_apply]
  split <;> rfl

theorem leaveFullscreen_ids (id : WindowId) : (d.leaveFullscreen id).ids = d.ids := by
  rw [ids_eq_keys, ids_eq_keys, leaveFullscreen_keys]

theorem find_leaveFullscreen (id id' : WindowId) :
    (d.leaveFullscreen id).find id' = none ↔ d.find id' = none := by
  have h : ∀ d : Desktop, d.find id' = none ↔ id' ∉ d.ids := by
    intro d
    rw [WindowManager.find_eq_none_iff]
    simp [ids]
  rw [h, h, leaveFullscreen_ids]

theorem raise_perm (id : WindowId) : (d.raise id).stack.Perm d.stack := by
  show (d.toWindowManager.raise id).stack.Perm d.stack
  unfold WindowManager.raise
  split
  · exact List.Perm.refl _
  · next w hw => exact WindowManager.eraseP_perm hw

theorem focus_perm (id : WindowId) : (d.focus id).stack.Perm (d.leaveFullscreen id).stack :=
  raise_perm id

theorem focus_keys (id : WindowId) : (d.focus id).keys.Perm d.keys := by
  have h := (focus_perm (d := d) id).map fun w : Win => (w.id, w.app.userRect)
  rw [← leaveFullscreen_keys (d := d) id]
  exact h

/-- A window that takes the focus comes to the front. -/
theorem focus_stack (id : WindowId) (h : d.find id ≠ none) :
    ∃ back w, w.id = id ∧ (d.focus id).stack = back ++ [w] := by
  cases hfind : (d.leaveFullscreen id).find id with
  | none => exact absurd ((find_leaveFullscreen id id).1 hfind) h
  | some w =>
      refine ⟨(d.leaveFullscreen id).stack.eraseP (fun v => v.id == id), w,
        (WindowManager.mem_of_find hfind).2, ?_⟩
      show ((d.leaveFullscreen id).toWindowManager.raise id).stack = _
      simp only [WindowManager.raise, hfind]

/-- The windows after a change: the first with this number has changed. -/
theorem mem_change {id : WindowId} {f : Frame → Frame} {w : Win} (hw : w ∈ (d.change id f).stack) :
    w ∈ d.stack ∨ ∃ v, d.find id = some v ∧ w = { v with app := f v.app } := by
  replace hw : w ∈ change.go id f d.stack := hw
  show _ ∨ ∃ v, d.stack.find? (fun w => w.id == id) = some v ∧ _
  generalize d.stack = l at *
  induction l with
  | nil => cases hw
  | cons v vs ih =>
      unfold change.go at hw
      by_cases heq : v.id = id
      · rw [if_pos heq] at hw
        rcases List.mem_cons.1 hw with rfl | hw
        · exact .inr ⟨v, List.find?_cons_of_pos (by simpa using heq), rfl⟩
        · exact .inl (List.mem_cons_of_mem _ hw)
      · rw [if_neg heq] at hw
        rw [List.find?_cons_of_neg (by simpa using heq)]
        rcases List.mem_cons.1 hw with rfl | hw
        · exact .inl (List.mem_cons_self ..)
        · exact (ih hw).imp_left (List.mem_cons_of_mem _)

/-- What a change leaves of every window, it leaves of the whole stack. -/
theorem change_map {β : Type} {p : Win → β} (id : WindowId) {f : Frame → Frame}
    (hf : ∀ w : Win, p { w with app := f w.app } = p w) :
    (d.change id f).stack.map p = d.stack.map p := by
  show (change.go id f d.stack).map p = _
  induction d.stack with
  | nil => rfl
  | cons w ws ih =>
      unfold change.go
      split
      · rw [List.map_cons, List.map_cons, hf]
      · rw [List.map_cons, List.map_cons, ih]

theorem setMode_keys (id : WindowId) (m : WinMode) (work : Rect) :
    (d.setMode id m work).keys = d.keys := by
  have henter : ∀ d : Desktop, (d.change id fun f => f.enter m work).keys = d.keys := fun d =>
    change_map id fun w => by cases m <;> rfl
  unfold setMode
  split
  · rfl
  · split
    · rw [henter, leaveFullscreen_keys]
      exact change_map id fun w => rfl
    · exact henter d

/-! ### The numbers -/

/-- The operation opens a window. -/
def opens (d : Desktop) : Op → Bool
  | .open (some _) _ => d.stack.length < WindowManager.kMaxWindows
  | _ => false

/-- The windows a run opens. -/
def opened : Desktop → List Op → Nat
  | _, [] => 0
  | d, op :: ops => (if d.opens op then 1 else 0) + opened (d.apply op) ops

/-- The numbers a run gives to the windows it opens. -/
def given : Desktop → List Op → List WindowId
  | _, [] => []
  | d, op :: ops => (if d.opens op then [d.nextId] else []) ++ given (d.apply op) ops

theorem opened_append (d : Desktop) (before after : List Op) :
    opened d (before ++ after) = opened d before + opened (run apply d before) after := by
  induction before generalizing d with
  | nil => simp [opened]
  | cons op ops ih =>
      simp only [List.cons_append, opened, ih, Sshos.Lib.run_cons]
      omega

theorem opened_le_of_isPrefix {before ops : List Op} (h : before <+: ops) (d : Desktop) :
    opened d before ≤ opened d ops := by
  obtain ⟨after, rfl⟩ := h
  rw [opened_append]
  exact Nat.le_add_right _ _

/-- What opening a window does. -/
theorem openAs_of_opens {app : Option Size} {work : Rect} (next : WindowId)
    (h : d.opens (.open app work) = true) :
    ∃ w cascade, w.id = d.nextId ∧ w.app.mode = .normal ∧ w.app.beforeFullscreen = .normal ∧
      d.openAs next app work = ({ d with
        stack := d.stack ++ [w], nextId := next, cascade } : Desktop).focus d.nextId := by
  cases app with
  | none => cases h
  | some minSize =>
      have hroom : ¬ d.stack.length ≥ WindowManager.kMaxWindows := by
        have hlt : d.stack.length < WindowManager.kMaxWindows := by simpa [opens] using h
        exact Nat.not_le.2 hlt
      unfold openAs
      rw [if_neg hroom]
      exact ⟨_, _, rfl, rfl, rfl, rfl⟩

theorem openAs_of_not_opens {app : Option Size} {work : Rect} (next : WindowId)
    (h : d.opens (.open app work) = false) : d.openAs next app work = d := by
  unfold openAs
  split
  · rfl
  · next hroom =>
      cases app with
      | none => rfl
      | some minSize =>
          have hlt : ¬ d.stack.length < WindowManager.kMaxWindows := by simpa [opens] using h
          exact absurd (Nat.not_lt.1 hlt) hroom

theorem openAs_keys {app : Option Size} {work : Rect} (next : WindowId)
    (h : d.opens (.open app work) = true) :
    ∃ user, (d.openAs next app work).keys.Perm (d.keys ++ [(d.nextId, user)]) := by
  obtain ⟨w, cascade, hid, -, -, heq⟩ := openAs_of_opens next h
  rw [heq]
  refine ⟨w.app.userRect, (focus_keys _).trans (List.Perm.of_eq ?_)⟩
  simp [keys, hid]

@[simp] theorem focus_nextId (id : WindowId) : (d.focus id).nextId = d.nextId := by
  show ((d.leaveFullscreen id).toWindowManager.raise id).nextId = d.nextId
  unfold WindowManager.raise
  split <;> rfl

theorem openAs_nextId {app : Option Size} {work : Rect} {next : WindowId}
    (h : d.opens (.open app work) = true) : (d.openAs next app work).nextId = next := by
  obtain ⟨w, cascade, -, -, -, heq⟩ := openAs_of_opens next h
  rw [heq, focus_nextId]

theorem step_cases (d : Desktop) (delta : Int) :
    d.step delta = d ∨ ∃ w ∈ d.stack, Visible w ∧ d.step delta = d.focus w.id := by
  unfold step
  simp only
  split
  · exact .inl rfl
  · next w hw =>
      have hvisible : Visible w := by simpa using List.find?_some hw
      obtain ⟨i, -, hi⟩ := List.mem_filterMap.1 (List.mem_of_find?_eq_some hw)
      exact .inr ⟨w, List.mem_of_getElem? hi, hvisible, rfl⟩

theorem apply_nextId (d : Desktop) (op : Op) :
    (d.apply op).nextId = if d.opens op then (d.nextId + 1) % 2 ^ 32 else d.nextId := by
  have hstep : ∀ delta, (d.step delta).nextId = d.nextId := by
    intro delta
    rcases step_cases d delta with h | ⟨w, -, -, h⟩
    · rw [h]
    · rw [h, focus_nextId]
  cases op with
  | «open» app work =>
      simp only [apply]
      by_cases hopens : d.opens (.open app work) = true
      · rw [if_pos hopens]
        exact openAs_nextId hopens
      · rw [if_neg hopens, Desktop.open, openAs_of_not_opens _ (by simpa using hopens)]
  | close id =>
      show (d.toWindowManager.close id).nextId = d.nextId
      unfold WindowManager.close
      split <;> rfl
  | focus id => exact focus_nextId id
  | focusNext => exact hstep 1
  | focusPrev => exact hstep (-1)
  | setMode id m work =>
      show (d.setMode id m work).nextId = d.nextId
      unfold setMode
      split
      · rfl
      · split <;> rfl
  | setRect id user work => rfl

/-- The windows after an operation that is not `set_rect`: those that were there, each with
the geometry the user wants, and the one that is opened. -/
theorem apply_keys {op : Op} (h : ∀ id user work, op ≠ .setRect id user work) :
    if d.opens op then ∃ user, (d.apply op).keys.Perm (d.keys ++ [(d.nextId, user)])
    else ∃ gone, (d.apply op).keys.Perm gone ∧ gone.Sublist d.keys := by
  have hfocus : ∀ (d : Desktop) id, ∃ gone, (d.focus id).keys.Perm gone ∧ gone.Sublist d.keys :=
    fun d id => ⟨d.keys, focus_keys id, List.Sublist.refl _⟩
  have hsame : ∃ gone, d.keys.Perm gone ∧ gone.Sublist d.keys :=
    ⟨d.keys, List.Perm.refl _, List.Sublist.refl _⟩
  have hstep : ∀ delta, ∃ gone, (d.step delta).keys.Perm gone ∧ gone.Sublist d.keys := by
    intro delta
    rcases step_cases d delta with h | ⟨w, -, -, h⟩
    · rw [h]
      exact hsame
    · rw [h]
      exact hfocus d w.id
  cases op with
  | «open» app work =>
      simp only [apply]
      by_cases hopens : d.opens (.open app work) = true
      · rw [if_pos hopens]
        exact openAs_keys _ hopens
      · rw [if_neg hopens, Desktop.open, openAs_of_not_opens _ (by simpa using hopens)]
        exact hsame
  | close id =>
      refine ⟨(d.close id).keys, List.Perm.refl _, ?_⟩
      unfold close WindowManager.close
      split
      · exact List.Sublist.refl _
      · exact (List.eraseP_sublist ..).map _
  | focus id => exact hfocus d id
  | focusNext => exact hstep 1
  | focusPrev => exact hstep (-1)
  | setMode id m work =>
      show ∃ gone, (d.setMode id m work).keys.Perm gone ∧ _
      rw [setMode_keys]
      exact hsame
  | setRect id user work => exact absurd rfl (h id user work)

/-- The numbers after an operation. -/
theorem apply_ids (d : Desktop) (op : Op) :
    if d.opens op then (d.apply op).ids.Perm (d.ids ++ [d.nextId])
    else ∃ gone, (d.apply op).ids.Perm gone ∧ gone.Sublist d.ids := by
  by_cases hset : ∃ id user work, op = .setRect id user work
  · obtain ⟨id, user, work, rfl⟩ := hset
    refine ⟨d.ids, List.Perm.of_eq ?_, List.Sublist.refl _⟩
    exact change_map id fun w => rfl
  · have h := @apply_keys d op fun id user work heq => hset ⟨id, user, work, heq⟩
    simp only [ids_eq_keys]
    by_cases hopens : d.opens op = true
    · rw [if_pos hopens] at h ⊢
      obtain ⟨user, hperm⟩ := h
      simpa using hperm.map Prod.fst
    · rw [if_neg hopens] at h ⊢
      obtain ⟨gone, hperm, hsub⟩ := h
      exact ⟨gone.map Prod.fst, hperm.map _, hsub.map _⟩

/-! ### The focus -/

/-- The window in front has the focus, and the number 0 stands for none. -/
def Topped (d : Desktop) : Prop := d.focused = (d.stack.getLast?.map (·.id)).getD 0

theorem topped_iff_ids : d.Topped ↔ d.focused = d.ids.getLast?.getD 0 := by
  simp [Topped, ids, List.getLast?_map]

theorem topped_focus {id : WindowId} (h : d.find id ≠ none) : (d.focus id).Topped := by
  obtain ⟨back, w, hid, heq⟩ := focus_stack _ h
  unfold Topped
  rw [heq]
  simp only [List.getLast?_append, List.getLast?_singleton, Option.some_or, Option.map_some,
    Option.getD_some]
  exact hid.symm

theorem eraseP_concat_of_neg {α : Type} {p : α → Bool} {a : α} (ha : ¬ p a) (l : List α) :
    (l ++ [a]).eraseP p = l.eraseP p ++ [a] := by
  induction l with
  | nil => exact List.eraseP_cons_of_neg ha
  | cons b l ih =>
      by_cases hb : p b
      · rw [List.cons_append, List.eraseP_cons_of_pos hb, List.eraseP_cons_of_pos hb]
      · rw [List.cons_append, List.eraseP_cons_of_neg hb, List.eraseP_cons_of_neg hb, ih]
        rfl

theorem Topped.apply (h : d.Topped) {op : Op} (hlegal : d.Legal op) : (d.apply op).Topped := by
  have hstep : ∀ delta, (d.step delta).Topped := by
    intro delta
    rcases step_cases d delta with heq | ⟨w, hw, -, heq⟩
    · rw [heq]
      exact h
    · rw [heq]
      exact topped_focus (find_ne_none_of_mem hw)
  -- what keeps the numbers in their places and the focus
  have hkept : ∀ d' : Desktop, d'.ids = d.ids → d'.focused = d.focused → d'.Topped := by
    intro d' hids hfocused
    rw [topped_iff_ids] at h ⊢
    rw [hids, hfocused, h]
  cases op with
  | «open» app work =>
      show (d.open app work).Topped
      by_cases hopens : d.opens (.open app work) = true
      · obtain ⟨w, cascade, hid, -, -, heq⟩ := openAs_of_opens ((d.nextId + 1) % 2 ^ 32) hopens
        rw [Desktop.open, heq]
        refine topped_focus ?_
        rw [← hid]
        exact find_ne_none_of_mem (List.mem_append_right _ (List.mem_singleton_self w))
      · rw [Desktop.open, openAs_of_not_opens _ (by simpa using hopens)]
        exact h
  | close id =>
      show (d.close id).Topped
      unfold close WindowManager.close
      split
      · exact h
      · unfold Topped at h ⊢
        simp only
        split
        · rfl
        · next hne =>
            -- the window in front has the focus, so that another one is removed
            rcases List.eq_nil_or_concat d.stack with hnil | ⟨back, w, hstack⟩
            · rw [h, hnil]
              rfl
            · rw [List.concat_eq_append] at hstack
              have htop : d.focused = w.id := by simp [h, hstack]
              have hw : ¬ (w.id == id) = true := by simpa [htop] using hne
              rw [hstack, eraseP_concat_of_neg (p := fun v : Win => v.id == id) hw]
              simp [htop]
  | focus id => exact topped_focus hlegal
  | focusNext => exact hstep 1
  | focusPrev => exact hstep (-1)
  | setMode id m work =>
      refine hkept (d.setMode id m work) ?_ ?_
      · rw [ids_eq_keys, ids_eq_keys, setMode_keys]
      · unfold setMode
        split
        · rfl
        · split <;> rfl
  | setRect id user work => exact hkept (d.setRect id user work) (change_map id fun w => rfl) rfl

/-! ### The full screen -/

/-- One window fills the screen at most, and it knows another mode to find back. -/
structure Screened (d : Desktop) : Prop where
  exclusive : ∀ v ∈ d.stack, ∀ w ∈ d.stack, v.app.mode = .fullscreen → w.app.mode = .fullscreen →
    v.id = w.id
  before : ∀ w ∈ d.stack, w.app.beforeFullscreen ≠ .fullscreen

/-- Windows that change place, or geometry, or leave the full screen. -/
theorem Screened.of_changes {d' : Desktop} (h : d.Screened)
    (hold : ∀ v ∈ d'.stack, ∃ u ∈ d.stack, v.id = u.id ∧
      (v.app.mode = .fullscreen → u.app.mode = .fullscreen) ∧
      v.app.beforeFullscreen = u.app.beforeFullscreen) : d'.Screened := by
  constructor
  · intro v hv w hw hv' hw'
    obtain ⟨v₀, hv₀, hvid, hvmode, -⟩ := hold v hv
    obtain ⟨w₀, hw₀, hwid, hwmode, -⟩ := hold w hw
    rw [hvid, hwid]
    exact h.exclusive v₀ hv₀ w₀ hw₀ (hvmode hv') (hwmode hw')
  · intro v hv
    obtain ⟨u, hu, -, -, heq⟩ := hold v hv
    rw [heq]
    exact h.before u hu

theorem mem_leaveFullscreen {id : WindowId} {w : Win} (hw : w ∈ (d.leaveFullscreen id).stack) :
    (w ∈ d.stack ∧ (w.app.mode = .fullscreen → w.id = id)) ∨
    ∃ v ∈ d.stack, v.app.mode = .fullscreen ∧
      w = { v with app := { v.app with mode := v.app.beforeFullscreen } } := by
  obtain ⟨v, hv, rfl⟩ := List.mem_map.1 hw
  by_cases hleaves : v.id ≠ id ∧ v.app.mode = .fullscreen
  · rw [if_pos hleaves]
    exact .inr ⟨v, hv, hleaves.2, rfl⟩
  · rw [if_neg hleaves]
    exact .inl ⟨hv, fun hfull => by_contra fun hne => hleaves ⟨hne, hfull⟩⟩

/-- After the others have left, only the one named may fill the screen. -/
theorem leaveFullscreen_mode (hbefore : ∀ w ∈ d.stack, w.app.beforeFullscreen ≠ .fullscreen)
    {id : WindowId} {w : Win} (hw : w ∈ (d.leaveFullscreen id).stack) :
    (w.app.mode = .fullscreen → w.id = id) ∧ w.app.beforeFullscreen ≠ .fullscreen := by
  rcases mem_leaveFullscreen hw with ⟨hmem, hid⟩ | ⟨v, hv, -, rfl⟩
  · exact ⟨hid, hbefore w hmem⟩
  · exact ⟨fun hfull => absurd hfull (hbefore v hv), hbefore v hv⟩

theorem screened_of_mode {id : WindowId}
    (h : ∀ w ∈ d.stack, (w.app.mode = .fullscreen → w.id = id) ∧
      w.app.beforeFullscreen ≠ .fullscreen) : d.Screened :=
  ⟨fun v hv w hw hv' hw' => ((h v hv).1 hv').trans ((h w hw).1 hw').symm, fun w hw => (h w hw).2⟩

theorem screened_focus (hbefore : ∀ w ∈ d.stack, w.app.beforeFullscreen ≠ .fullscreen)
    (id : WindowId) : (d.focus id).Screened :=
  screened_of_mode fun _ hw => leaveFullscreen_mode hbefore ((focus_perm id).mem_iff.1 hw)

theorem enter_before (f : Frame) (m : WinMode) (work : Rect) :
    (f.enter m work).mode = m ∧ (f.enter m work).beforeFullscreen = f.beforeFullscreen := by
  cases m <;> exact ⟨rfl, rfl⟩

theorem Screened.setMode (h : d.Screened) (id : WindowId) (m : WinMode) (work : Rect) :
    (d.setMode id m work).Screened := by
  unfold Desktop.setMode
  split
  · exact h
  next w hfind =>
  obtain ⟨hmem, hid⟩ := WindowManager.mem_of_find hfind
  by_cases henter : m = .fullscreen ∧ w.app.mode ≠ .fullscreen
  · rw [if_pos henter]
    -- the mode to find back is noted before the others leave
    have hnoted : ∀ u ∈ (d.change id fun f => { f with beforeFullscreen := f.mode }).stack,
        u.app.beforeFullscreen ≠ .fullscreen := by
      intro u hu
      rcases mem_change hu with hold | ⟨v, hv, rfl⟩
      · exact h.before u hold
      · rw [hfind] at hv
        cases hv
        exact henter.2
    refine @screened_of_mode _ id fun v hv => ?_
    rcases mem_change hv with hold | ⟨u, hu, rfl⟩
    · exact leaveFullscreen_mode hnoted hold
    · obtain ⟨hin, huid⟩ := WindowManager.mem_of_find hu
      refine ⟨fun _ => huid, ?_⟩
      show (u.app.enter m work).beforeFullscreen ≠ .fullscreen
      rw [(enter_before _ _ _).2]
      exact (leaveFullscreen_mode hnoted hin).2
  · rw [if_neg henter]
    -- the window was full-screen already, or it is not from now on
    have hwas : m = .fullscreen → w.app.mode = .fullscreen := fun hm =>
      by_contra fun hne => henter ⟨hm, hne⟩
    refine h.of_changes fun v hv => ?_
    rcases mem_change hv with hv | ⟨u, hu, rfl⟩
    · exact ⟨v, hv, rfl, fun hfull => hfull, rfl⟩
    · rw [hfind] at hu
      cases hu
      obtain ⟨hmode, hbefore⟩ := enter_before w.app m work
      exact ⟨w, hmem, rfl, fun hfull => hwas (hmode ▸ hfull), hbefore⟩

theorem Screened.apply (h : d.Screened) (op : Op) : (d.apply op).Screened := by
  have hstep : ∀ delta, (d.step delta).Screened := by
    intro delta
    rcases step_cases d delta with heq | ⟨w, -, -, heq⟩
    · rw [heq]
      exact h
    · rw [heq]
      exact screened_focus h.before w.id
  cases op with
  | «open» app work =>
      show (d.open app work).Screened
      by_cases hopens : d.opens (.open app work) = true
      · obtain ⟨w, cascade, -, -, hbefore, heq⟩ := openAs_of_opens ((d.nextId + 1) % 2 ^ 32) hopens
        rw [Desktop.open, heq]
        refine screened_focus (fun v hv => ?_) _
        rcases List.mem_append.1 hv with hv | hv
        · exact h.before v hv
        · rw [List.mem_singleton.1 hv, hbefore]
          decide
      · rw [Desktop.open, openAs_of_not_opens _ (by simpa using hopens)]
        exact h
  | close id =>
      show (d.close id).Screened
      refine h.of_changes fun w hw => ⟨w, ?_, rfl, fun hfull => hfull, rfl⟩
      unfold close WindowManager.close at hw
      split at hw
      · exact hw
      · exact List.mem_of_mem_eraseP hw
  | focus id => exact screened_focus h.before id
  | focusNext => exact hstep 1
  | focusPrev => exact hstep (-1)
  | setMode id m work => exact h.setMode id m work
  | setRect id user work =>
      show (d.setRect id user work).Screened
      refine h.of_changes fun v hv => ?_
      rcases mem_change hv with hv | ⟨u, hu, rfl⟩
      · exact ⟨v, hv, rfl, fun hfull => hfull, rfl⟩
      · exact ⟨u, (WindowManager.mem_of_find hu).1, rfl, fun hfull => hfull, rfl⟩

/-! ### Runs -/

/-- What the rest of the desktop relies on, in one state. -/
structure Sound (d : Desktop) : Prop where
  distinct : d.ids.Nodup
  top : d.focused = (d.stack.getLast?.map (·.id)).getD 0
  none : d.focused = 0 ↔ d.stack = []
  exclusive : ∀ v ∈ d.stack, ∀ w ∈ d.stack, v.app.mode = .fullscreen → w.app.mode = .fullscreen →
    v = w
  before : ∀ w ∈ d.stack, w.app.beforeFullscreen ≠ .fullscreen

/-- No window that is there before and after has another `userRect`. -/
def KeepsUserRects (d d' : Desktop) : Prop :=
  ∀ w ∈ d.stack, ∀ w' ∈ d'.stack, w'.id = w.id → w'.app.userRect = w.app.userRect

/-- What holds all along a run, from the start. -/
structure Upheld (ops : List Op) : Prop where
  sound : ∀ before, before <+: ops → (run apply {} before).Sound
  /-- A number is given once. -/
  given : (given {} ops).Nodup
  userRect : ∀ before op, before ++ [op] <+: ops →
    (∀ id user work, op ≠ .setRect id user work) →
    KeepsUserRects (run apply {} before) ((run apply {} before).apply op)

/-- The numbers after `n` windows were opened, as long as they do not come round. -/
structure Numbered (n : Nat) (d : Desktop) : Prop where
  next : d.nextId = (n + 1) % 2 ^ 32
  few : n < 2 ^ 32
  distinct : d.ids.Nodup
  past : ∀ id ∈ d.ids, 0 < id ∧ id ≤ n

/-- A number comes after those in use. -/
theorem Numbered.fresh {n : Nat} (h : Numbered n d) (hroom : n + 1 < 2 ^ 32) :
    d.nextId = n + 1 ∧ d.nextId ∉ d.ids := by
  have heq : d.nextId = n + 1 := by rw [h.next, Nat.mod_eq_of_lt hroom]
  refine ⟨heq, fun hmem => ?_⟩
  have hle := (h.past _ hmem).2
  rw [heq] at hle
  exact Nat.not_succ_le_self n hle

theorem Numbered.apply {n : Nat} (h : Numbered n d) (op : Op)
    (hroom : n + (if d.opens op then 1 else 0) < 2 ^ 32) :
    Numbered (n + if d.opens op then 1 else 0) (d.apply op) := by
  have hids := apply_ids d op
  have hnext := apply_nextId d op
  by_cases hopens : d.opens op = true
  · simp only [hopens, if_true] at *
    obtain ⟨heq, hfresh⟩ := h.fresh hroom
    refine ⟨by rw [hnext, heq], hroom, ?_, fun id hid => ?_⟩
    · rw [hids.nodup_iff, List.nodup_append]
      refine ⟨h.distinct, List.nodup_singleton _, fun a ha b hb => ?_⟩
      rw [List.mem_singleton.1 hb]
      rintro rfl
      exact hfresh ha
    · rcases List.mem_append.1 (hids.mem_iff.1 hid) with hold | hnew
      · exact ⟨(h.past id hold).1, Nat.le_succ_of_le (h.past id hold).2⟩
      · rw [List.mem_singleton.1 hnew, heq]
        exact ⟨Nat.succ_pos n, Nat.le_refl _⟩
  · simp only [hopens, if_false, Bool.false_eq_true] at *
    obtain ⟨gone, hperm, hsub⟩ := hids
    exact ⟨hnext.trans h.next, hroom, hperm.nodup_iff.2 (h.distinct.sublist hsub),
      fun id hid => h.past id (hsub.subset (hperm.mem_iff.1 hid))⟩

/-- What every operation keeps, as long as the numbers do not come round. -/
structure Kept (n : Nat) (d : Desktop) : Prop where
  numbered : Numbered n d
  topped : d.Topped
  screened : d.Screened

theorem Kept.start : Kept 0 {} where
  numbered := ⟨rfl, by decide, List.nodup_nil, fun _ h => absurd h List.not_mem_nil⟩
  topped := rfl
  screened := ⟨fun _ h => absurd h List.not_mem_nil, fun _ h => absurd h List.not_mem_nil⟩

theorem Kept.apply {n : Nat} (h : Kept n d) {op : Op} (hlegal : d.Legal op)
    (hroom : n + (if d.opens op then 1 else 0) < 2 ^ 32) :
    Kept (n + if d.opens op then 1 else 0) (d.apply op) :=
  ⟨h.numbered.apply op hroom, h.topped.apply hlegal, h.screened.apply op⟩

/-- **Every run** of fewer than `2 ^ 32` openings. -/
theorem Kept.run {n : Nat} {ops : List Op} (h : Kept n d)
    (hlegal : StepsMeet Desktop.apply Legal d ops) (hroom : n + opened d ops < 2 ^ 32) :
    Kept (n + opened d ops) (run Desktop.apply d ops) := by
  induction ops generalizing n d with
  | nil => exact h
  | cons op ops ih =>
      simp only [opened] at hroom ⊢
      have hone := h.apply hlegal.1 (by omega)
      have hrest := ih hone hlegal.2 (by omega)
      rwa [Nat.add_assoc] at hrest

theorem Kept.sound {n : Nat} (h : Kept n d) : d.Sound where
  distinct := h.numbered.distinct
  top := h.topped
  none := by
    have htop := h.topped
    unfold Topped at htop
    constructor
    · intro hzero
      rcases List.eq_nil_or_concat d.stack with hnil | ⟨back, w, hstack⟩
      · exact hnil
      · have hid : d.focused = w.id := by simp [htop, hstack]
        have hpos := (h.numbered.past w.id (by simp [ids, hstack])).1
        rw [← hid, hzero] at hpos
        exact absurd hpos (Nat.lt_irrefl 0)
    · intro hnil
      rw [htop, hnil]
      rfl
  exclusive := fun v hv w hw hv' hw' =>
    List.inj_on_of_nodup_map h.numbered.distinct hv hw (h.screened.exclusive v hv w hw hv' hw')
  before := h.screened.before

theorem Kept.keepsUserRects {n : Nat} (h : Kept n d) {op : Op}
    (hroom : n + (if d.opens op then 1 else 0) < 2 ^ 32)
    (hset : ∀ id user work, op ≠ .setRect id user work) : KeepsUserRects d (d.apply op) := by
  intro w hw w' hw' hid
  -- the window is found again by its number
  have hown : ∀ user, (w'.id, user) ∈ d.keys → user = w.app.userRect := by
    intro user hmem
    obtain ⟨v, hv, heq⟩ := List.mem_map.1 hmem
    obtain ⟨hvid, rfl⟩ := Prod.mk.inj heq
    rw [List.inj_on_of_nodup_map h.numbered.distinct hv hw (hvid.trans hid)]
  have hkey : (w'.id, w'.app.userRect) ∈ (d.apply op).keys := List.mem_map_of_mem hw'
  have hkeys := apply_keys (d := d) hset
  by_cases hopens : d.opens op = true
  · simp only [hopens, if_true] at *
    obtain ⟨user, hperm⟩ := hkeys
    rcases List.mem_append.1 (hperm.mem_iff.1 hkey) with hold | hnew
    · exact hown _ hold
    · obtain ⟨hnext, -⟩ := Prod.mk.inj (List.mem_singleton.1 hnew)
      refine absurd ?_ (h.numbered.fresh hroom).2
      rw [← hnext, hid]
      exact List.mem_map_of_mem hw
  · simp only [hopens, if_false, Bool.false_eq_true] at *
    obtain ⟨gone, hperm, hsub⟩ := hkeys
    exact hown _ (hsub.subset (hperm.mem_iff.1 hkey))

/-- The numbers given follow one another. -/
theorem given_eq {n : Nat} (hnext : d.nextId = (n + 1) % 2 ^ 32) (ops : List Op)
    (hroom : n + opened d ops < 2 ^ 32) : given d ops = List.range' (n + 1) (opened d ops) := by
  induction ops generalizing n d with
  | nil => rfl
  | cons op ops ih =>
      have happly := apply_nextId d op
      simp only [given, opened] at hroom ⊢
      by_cases hopens : d.opens op = true
      · simp only [hopens, if_true] at *
        have heq : d.nextId = n + 1 := by rw [hnext, Nat.mod_eq_of_lt (by omega)]
        rw [ih (n := n + 1) (by rw [happly, heq]) (by omega), heq, Nat.add_comm 1 (opened _ _),
          List.range'_succ]
        rfl
      · simp only [hopens, if_false, Bool.false_eq_true, List.nil_append, Nat.zero_add] at *
        exact ih (happly.trans hnext) hroom

/-- The next number, wherever the run leads. -/
theorem run_nextId {n : Nat} (hnext : d.nextId = (n + 1) % 2 ^ 32) (ops : List Op) :
    (run apply d ops).nextId = (n + opened d ops + 1) % 2 ^ 32 := by
  induction ops generalizing n d with
  | nil => exact hnext
  | cons op ops ih =>
      have happly := apply_nextId d op
      simp only [opened, Sshos.Lib.run_cons]
      by_cases hopens : d.opens op = true
      · simp only [hopens, if_true] at *
        rw [ih (n := n + 1) (by rw [happly, hnext, Nat.mod_add_mod])]
        congr 1
        omega
      · simp only [hopens, if_false, Bool.false_eq_true] at *
        rw [ih (happly.trans hnext)]
        congr 1
        omega

/-- The opening that reaches a count. -/
theorem exists_opening {m : Nat} {ops : List Op} (h : m < opened d ops) :
    ∃ before op, before ++ [op] <+: ops ∧ opened d before = m ∧
      (run apply d before).opens op = true := by
  induction ops generalizing m d with
  | nil => exact absurd h (Nat.not_lt_zero m)
  | cons op ops ih =>
      simp only [opened] at h
      by_cases hhere : d.opens op = true ∧ m = 0
      · exact ⟨[], op, ⟨ops, rfl⟩, hhere.2.symm, hhere.1⟩
      · obtain ⟨before, last, hprefix, hcount, hopens⟩ :=
          ih (d := d.apply op) (m := m - if d.opens op then 1 else 0) (by split at h <;> grind)
        refine ⟨op :: before, last, List.cons_prefix_cons.2 ⟨rfl, hprefix⟩, ?_, hopens⟩
        simp only [opened, hcount]
        split at h <;> grind

/-- The `2 ^ 32`-th window takes the number that stands for none. -/
theorem not_upheld_of_opened {ops : List Op} (h : 2 ^ 32 ≤ opened {} ops) : ¬ Upheld ops := by
  intro hup
  obtain ⟨before, op, hprefix, hcount, hopens⟩ :=
    exists_opening (m := 2 ^ 32 - 1) (Nat.lt_of_lt_of_le (by decide) h)
  have hnext : (run apply {} before).nextId = 0 := by
    rw [run_nextId (n := 0) rfl, hcount]
    rfl
  have hsound := hup.sound _ hprefix
  rw [run_append] at hsound
  change ((run apply {} before).apply op).Sound at hsound
  generalize run apply {} before = d at *
  cases op with
  | «open» app work =>
      obtain ⟨w, cascade, hid, -, -, heq⟩ := openAs_of_opens ((d.nextId + 1) % 2 ^ 32) hopens
      simp only [apply, Desktop.open, heq] at hsound
      have hfocused : (({ d with
          stack := d.stack ++ [w], nextId := (d.nextId + 1) % 2 ^ 32, cascade } : Desktop).focus
            d.nextId).focused = 0 := hnext
      have hnil := hsound.none.1 hfocused
      obtain ⟨back, v, -, hstack⟩ := focus_stack (d := { d with
          stack := d.stack ++ [w], nextId := (d.nextId + 1) % 2 ^ 32, cascade }) d.nextId (by
        rw [← hid]
        exact find_ne_none_of_mem (List.mem_append_right _ (List.mem_singleton_self w)))
      rw [hstack] at hnil
      exact absurd hnil (by simp)
  | _ => cases hopens

/-- **The window manager's invariants** hold all along a run, whatever its order and its
work areas, exactly when it opens fewer windows than there are numbers. -/
theorem upheld_iff {ops : List Op} (hlegal : StepsMeet apply Legal {} ops) :
    Upheld ops ↔ opened {} ops < 2 ^ 32 := by
  constructor
  · intro hup
    by_contra hmany
    exact not_upheld_of_opened (Nat.not_lt.1 hmany) hup
  · intro hroom
    have hkept : ∀ before, before <+: ops →
        Kept (0 + opened {} before) (run apply {} before) := by
      rintro before ⟨after, rfl⟩
      refine Kept.start.run hlegal.of_append ?_
      have hle := opened_le_of_isPrefix (List.prefix_append before after) {}
      omega
    refine ⟨fun before hb => (hkept before hb).sound, ?_, fun before op hb hset => ?_⟩
    · rw [given_eq (n := 0) rfl ops (by omega)]
      exact List.nodup_range'
    · refine (hkept before ((List.prefix_append _ _).trans hb)).keepsUserRects ?_ hset
      have hle := opened_le_of_isPrefix hb {}
      rw [opened_append] at hle
      simp only [opened] at hle
      omega

theorem upheld_iff_three :
    Upheld [.open (some ⟨10, 3⟩) {}, .open (some ⟨24, 6⟩) {}, .setMode 1 .fullscreen {}, .focus 2] :=
  (upheld_iff (by decide)).2 (by decide)

/-- `n` windows, each closed as soon as it is open. -/
def churn : Nat → List Op
  | 0 => []
  | n + 1 => churn n ++ [.open (some ⟨10, 3⟩) {}, .close (n + 1)]

theorem close_single {w : Win} (hstack : d.stack = [w]) : (d.close w.id).stack = [] := by
  show (d.toWindowManager.close w.id).stack = []
  simp [WindowManager.close, WindowManager.find, hstack]

theorem churn_run (n : Nat) (hn : n < 2 ^ 32) :
    (run apply {} (churn n)).stack = [] ∧ (run apply {} (churn n)).nextId = (n + 1) % 2 ^ 32 ∧
    opened {} (churn n) = n := by
  induction n with
  | zero => exact ⟨rfl, rfl, rfl⟩
  | succ n ih =>
      obtain ⟨hstack, hnext, hcount⟩ := ih (by omega)
      rw [Nat.mod_eq_of_lt hn] at hnext
      simp only [churn, run_append, opened_append, hcount, Sshos.Lib.run_cons, Sshos.Lib.run_nil]
      generalize run apply {} (churn n) = d at *
      have hopens : d.opens (.open (some ⟨10, 3⟩) {}) = true := by simp [opens, hstack,
        WindowManager.kMaxWindows]
      have hids := apply_ids d (.open (some ⟨10, 3⟩) {})
      have hafter := apply_nextId d (.open (some ⟨10, 3⟩) {})
      simp only [hopens, if_true, opened] at *
      generalize d.apply (.open (some ⟨10, 3⟩) {}) = d₁ at *
      -- the window that is open is the one that is closed
      have hone : d₁.ids = [n + 1] := by
        have hnil : d.ids = [] := by simp [ids, hstack]
        rw [hnil, hnext] at hids
        exact List.perm_singleton.1 hids
      obtain ⟨w, hw, hid⟩ := List.map_eq_singleton_iff.1 hone
      refine ⟨?_, ?_, ?_⟩
      · rw [← hid]
        exact close_single hw
      · have hclose := apply_nextId d₁ (.close (n + 1))
        simp only [opens, if_false, Bool.false_eq_true] at hclose
        rw [hclose, hafter, hnext]
      · simp [opens]

theorem churn_legal (n : Nat) : ∀ op ∈ churn n, ∀ d, Legal d op := by
  induction n with
  | zero => exact fun op h => absurd h List.not_mem_nil
  | succ n ih =>
      intro op hop d
      rcases List.mem_append.1 hop with hop | hop
      · exact ih op hop d
      · simp only [List.mem_cons, List.not_mem_nil, or_false] at hop
        rcases hop with rfl | rfl <;> trivial

/-- A run of lawful operations that does not keep the invariants. -/
theorem not_all_upheld : ¬ ∀ ops, StepsMeet apply Legal {} ops → Upheld ops := by
  intro hall
  obtain ⟨n, hn⟩ : ∃ n, n + 1 = 2 ^ 32 := ⟨4294967295, rfl⟩
  obtain ⟨hstack, -, hcount⟩ := churn_run n (by omega)
  refine not_upheld_of_opened ?_ (hall (churn n ++ [.open (some ⟨10, 3⟩) {}])
    (StepsMeet.of_forall (fun op hop d => ?_) _))
  · have hopens : (run apply {} (churn n)).opens (.open (some ⟨10, 3⟩) {}) = true := by
      simp [opens, hstack, WindowManager.kMaxWindows]
    rw [opened_append, hcount]
    simp only [opened, hopens, if_true]
    omega
  · rcases List.mem_append.1 hop with hop | hop
    · exact churn_legal _ op hop d
    · rw [List.mem_singleton.1 hop]
      trivial

end Desktop

end Sshos.Wm
