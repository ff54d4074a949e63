import Mathlib.Algebra.Group.Nat.Defs
import Mathlib.Data.List.Nodup
import Mathlib.Tactic.Common
import Sshos.Lib.Lists

/-!
# Sshos.Wm.Manager

The **window manager**'s table: the windows from the back to the front, the one that
has the focus, and the number the next one will bear. Their geometry is left out; what a
window holds besides its number is a parameter.
-/

namespace Sshos.Wm

universe u

/-- A number of 32 bits; 0 stands for no window. -/
abbrev WindowId := Nat

structure Window (α : Type u) where
  id : WindowId
  app : α
  /-- The application asked for its own closing. -/
  closeRequested : Bool := false
  deriving DecidableEq

structure WindowManager (α : Type u) where
  stack : List (Window α) := []
  nextId : WindowId := 1
  focused : WindowId := 0

namespace WindowManager

variable {α : Type u} (m : WindowManager α)

def kMaxWindows : Nat := 64

def find (id : WindowId) : Option (Window α) := m.stack.find? fun w => w.id == id

/-- Bring a window to the front. -/
def raise (id : WindowId) : WindowManager α :=
  match m.find id with
  | none => m
  | some w => { m with stack := m.stack.eraseP (fun v => v.id == id) ++ [w] }

def focus (id : WindowId) : WindowManager α := { m.raise id with focused := id }

/-- A new window, in front and with the focus, unless there are too many. The numbers come
round after 32 bits. -/
def «open» (app : α) : WindowManager α :=
  if m.stack.length ≥ kMaxWindows then m
  else
    focus { m with
      stack := m.stack ++ [{ id := m.nextId, app := app }]
      nextId := (m.nextId + 1) % 2 ^ 32 } m.nextId

/-- Remove a window; the focus falls back on the one in front. -/
def close (id : WindowId) : WindowManager α :=
  match m.find id with
  | none => m
  | some _ =>
      let stack := m.stack.eraseP fun w => w.id == id
      { m with
        stack := stack
        focused := if m.focused = id then (stack.getLast?.map (·.id)).getD 0 else m.focused }

/-- Let every window with this number change what it holds. -/
def update (id : WindowId) (f : Window α → Window α) : WindowManager α :=
  { m with stack := m.stack.map fun w => if w.id = id then f w else w }

/-! ### Numbers -/

/-- Every number stands for one window. -/
def Distinct : Prop := (m.stack.map (·.id)).Nodup

variable {m}

theorem mem_of_find {id : WindowId} {w : Window α} (h : m.find id = some w) :
    w ∈ m.stack ∧ w.id = id :=
  ⟨List.mem_of_find?_eq_some h, by simpa using List.find?_some h⟩

theorem find_eq_none_iff {id : WindowId} : m.find id = none ↔ ∀ w ∈ m.stack, w.id ≠ id := by
  simp [find, List.find?_eq_none]

theorem find_update {id : WindowId} {f : Window α → Window α} (hf : ∀ w, (f w).id = w.id) :
    (m.update id f).find id = (m.find id).map f := by
  show (m.stack.map _).find? _ = (m.stack.find? _).map f
  induction m.stack with
  | nil => rfl
  | cons w ws ih =>
      by_cases heq : w.id = id
      · have hnew : (f w).id = id := (hf w).trans heq
        simp [heq, hnew]
      · rw [List.map_cons, if_neg heq, List.find?_cons_of_neg (by simpa using heq),
          List.find?_cons_of_neg (by simpa using heq), ih]

/-- Windows that only change places keep their numbers. -/
theorem Distinct.of_perm {m' : WindowManager α} (h : m.Distinct)
    (hids : (m'.stack.map (·.id)).Perm (m.stack.map (·.id))) : m'.Distinct :=
  hids.nodup_iff.2 h

theorem eraseP_perm {id : WindowId} {w : Window α} (h : m.find id = some w) :
    (m.stack.eraseP (fun v => v.id == id) ++ [w]).Perm m.stack := Lib.perm_eraseP_append h

theorem Distinct.focus (h : m.Distinct) (id : WindowId) : (m.focus id).Distinct := by
  show (m.raise id).Distinct
  unfold WindowManager.raise
  split
  · exact h
  · next w hw => exact h.of_perm ((eraseP_perm hw).map _)

/-- A number finds the one window that bears it. -/
theorem Distinct.find_of_mem (h : m.Distinct) {w : Window α} (hw : w ∈ m.stack) :
    m.find w.id = some w := by
  cases hfind : m.find w.id with
  | none => exact absurd rfl (find_eq_none_iff.1 hfind w hw)
  | some v =>
      obtain ⟨hv, hid⟩ := mem_of_find hfind
      rw [List.inj_on_of_nodup_map h hv hw hid]

theorem Distinct.find_focus_self (h : m.Distinct) (id : WindowId) :
    (m.focus id).find id = m.find id := by
  cases hfind : m.find id with
  | none =>
      have heq : (m.focus id).stack = m.stack := by
        simp only [WindowManager.focus, WindowManager.raise, hfind]
      exact find_eq_none_iff.2 (heq ▸ find_eq_none_iff.1 hfind)
  | some w =>
      have hmem : w ∈ (m.focus id).stack := by
        simp only [WindowManager.focus, WindowManager.raise, hfind]
        exact List.mem_append_right _ (List.mem_singleton_self w)
      have hown := (h.focus id).find_of_mem hmem
      rwa [(mem_of_find hfind).2] at hown

/-- The number of a new window is one that no window bears. -/
theorem Distinct.open (h : m.Distinct) (app : α) (hfresh : m.find m.nextId = none) :
    (m.open app).Distinct := by
  unfold WindowManager.open
  split
  · exact h
  · refine Distinct.focus ?_ m.nextId
    show ((m.stack ++ [({ id := m.nextId, app := app } : Window α)]).map (·.id)).Nodup
    rw [List.map_append, List.nodup_append]
    refine ⟨h, by simp, ?_⟩
    intro a ha b hb
    obtain ⟨w, hw, rfl⟩ := List.mem_map.1 ha
    have hb : b = m.nextId := by simpa using hb
    rw [hb]
    exact find_eq_none_iff.1 hfresh w hw

theorem Distinct.close (h : m.Distinct) (id : WindowId) : (m.close id).Distinct := by
  unfold WindowManager.close
  split
  · exact h
  · exact h.sublist ((List.eraseP_sublist ..).map _)

theorem Distinct.update (h : m.Distinct) (id : WindowId) {f : Window α → Window α}
    (hf : ∀ w, (f w).id = w.id) : (m.update id f).Distinct := by
  refine h.of_perm (List.Perm.of_eq ?_)
  unfold WindowManager.update
  rw [List.map_map]
  refine List.map_congr_left fun w _ => ?_
  show (if w.id = id then f w else w).id = w.id
  split
  · exact hf w
  · rfl

/-- A window that is closed is gone, -/
theorem find_close_self (h : m.Distinct) (id : WindowId) : (m.close id).find id = none := by
  unfold WindowManager.close
  split
  · assumption
  · next w hw =>
      refine find_eq_none_iff.2 fun v hv heq => ?_
      have hnodup := (((eraseP_perm hw).map fun u : Window α => u.id).nodup_iff).2 h
      rw [List.map_append, List.nodup_append] at hnodup
      refine hnodup.2.2 v.id (List.mem_map_of_mem hv) w.id (by simp) ?_
      rw [heq, (mem_of_find hw).2]

/-- and the others are as they were. -/
theorem find_close_of_ne {id other : WindowId} (hne : other ≠ id) :
    (m.close id).find other = m.find other := by
  unfold WindowManager.close
  split
  · rfl
  · show (m.stack.eraseP fun w => w.id == id).find? _ = m.stack.find? _
    induction m.stack with
    | nil => rfl
    | cons w ws ih =>
        by_cases heq : w.id = id
        · rw [List.eraseP_cons_of_pos (by simpa using heq),
            List.find?_cons_of_neg (by simpa [heq] using hne.symm)]
        · rw [List.eraseP_cons_of_neg (by simpa using heq), List.find?_cons, List.find?_cons, ih]

end WindowManager

end Sshos.Wm
