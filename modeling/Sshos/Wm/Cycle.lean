import Sshos.Wm.DesktopRuns

/-!
# Sshos.Wm.Cycle

Which window **takes the focus** when nobody names it: after a closing, and when the user
goes round the stack. The walks skip the windows that are minimized; the closing does not.

A walk raises the window it finds, and the next one starts from the front again: forwards
it meets every window, backwards it meets the two in front only.
-/

namespace Sshos.Wm

open Sshos.Lib (run run_append run_good_iff StepsMeet)

namespace Desktop

variable {d : Desktop}

/-! ### The walks -/

theorem filterMap_range_getElem? {α : Type} (l : List α) (m : Nat) (h : m ≤ l.length) :
    (List.range m).filterMap (l[·]?) = l.take m := by
  induction m with
  | zero => rfl
  | succ m ih =>
      rw [List.range_succ, List.filterMap_append, ih (by omega), List.take_add_one,
        List.getElem?_eq_getElem (by omega)]
      simp [List.getElem?_eq_getElem (show m < l.length by omega)]

/-- Whatever the sign of the remainder, the place is the one modulo the length. -/
theorem tmod_wrap (i : Int) {n : Nat} (hn : 0 < n) : (i.tmod n + n).tmod n = i % n := by
  have hpos : (0 : Int) < n := by omega
  have hlow : -(n : Int) < i.tmod n := Int.lt_tmod_of_pos i hpos
  rw [Int.tmod_eq_emod_of_nonneg (by omega), Int.tmod_def, Int.add_emod_right, sub_eq_add_neg,
    ← mul_neg, Int.add_mul_emod_self_left]

theorem places_eq (n start : Nat) (delta : Int) (hn : 0 < n) :
    places n start delta = (List.range n).map fun (k : Nat) => ((start + delta * (k + 1)) % n).toNat :=
  List.map_congr_left fun _ _ => congrArg Int.toNat (tmod_wrap _ hn)

theorem places_next (n : Nat) : places (n + 1) n 1 = List.range (n + 1) := by
  rw [places_eq _ _ _ n.succ_pos]
  refine (List.map_congr_left fun k hk => ?_).trans (List.map_id _)
  have hlt : k < n + 1 := List.mem_range.1 hk
  have hround : (n : Int) + 1 * (k + 1) = k + ((n + 1 : Nat) : Int) := by
    omega
  rw [hround, Int.add_emod_right, Int.emod_eq_of_lt (by omega) (by omega)]
  rfl

theorem places_prev (n : Nat) : places (n + 1) n (-1) = (List.range n).reverse ++ [n] := by
  rw [places_eq _ _ _ n.succ_pos, List.range_succ, List.map_append]
  congr 1
  · refine List.ext_getElem (by simp) fun k hk _ => ?_
    have hlt : k < n := by simpa using hk
    simp only [List.getElem_map, List.getElem_range, List.getElem_reverse, List.length_range]
    rw [Int.emod_eq_of_lt (by omega) (by omega)]
    omega
  · have hround : (n : Int) + -1 * (n + 1) = n + ((n + 1 : Nat) : Int) * (-1) := by
      omega
    rw [List.map_singleton, hround, Int.add_mul_emod_self_left, Int.emod_eq_of_lt (by omega) (by omega)]
    rfl

theorem front_ne {back : List Win} {t : Win} (hstack : d.stack = back ++ [t]) (hids : d.ids.Nodup) :
    ∀ v ∈ back, v.id ≠ t.id := by
  intro v hv heq
  simp only [ids, hstack, List.map_append, List.nodup_append] at hids
  exact hids.2.2 v.id (List.mem_map_of_mem hv) t.id (by simp) heq

/-- Where the walks start: at the front. -/
theorem start_eq {back : List Win} {t : Win} (hstack : d.stack = back ++ [t])
    (htop : d.focused = t.id) (hids : d.ids.Nodup) : d.start = back.length := by
  have hback := front_ne hstack hids
  have hfind : (back ++ [t]).findIdx? (fun w => w.id == t.id) = some back.length := by
    rw [List.findIdx?_append, List.findIdx?_eq_none_iff.2 (fun v hv => by simpa using hback v hv)]
    simp
  simp only [start, hstack, htop, hfind]

section Front

variable {back : List Win} {t : Win} (hstack : d.stack = back ++ [t]) (htop : d.focused = t.id)
  (hids : d.ids.Nodup)

include hstack htop hids

/-- Forwards, the walk meets the windows from the back. -/
theorem focusNext_eq : d.focusNext =
    match (back ++ [t]).find? fun w => Visible w with
    | none => d
    | some w => d.focus w.id := by
  have hwalk : (places d.stack.length d.start 1).filterMap (d.stack[·]?) = back ++ [t] := by
    rw [start_eq hstack htop hids, hstack, List.length_append, List.length_singleton, places_next,
      filterMap_range_getElem? _ _ (by simp), List.take_of_length_le (by simp)]
  show (match ((places d.stack.length d.start 1).filterMap (d.stack[·]?)).find? fun w => Visible w with
    | none => d
    | some w => d.focus w.id) = _
  rw [hwalk]

/-- Backwards, from the one behind the front. -/
theorem focusPrev_eq : d.focusPrev =
    match (back.reverse ++ [t]).find? fun w => Visible w with
    | none => d
    | some w => d.focus w.id := by
  have hwalk : (places d.stack.length d.start (-1)).filterMap (d.stack[·]?) =
      back.reverse ++ [t] := by
    rw [start_eq hstack htop hids, hstack, List.length_append, List.length_singleton, places_prev,
      List.filterMap_append, List.filterMap_reverse, filterMap_range_getElem? _ _ (by simp),
      List.take_left]
    simp
  show (match ((places d.stack.length d.start (-1)).filterMap (d.stack[·]?)).find? fun w =>
      Visible w with
    | none => d
    | some w => d.focus w.id) = _
  rw [hwalk]

end Front

/-! ### Taking the focus -/

/-- A window when another takes the focus. -/
def unscreened (w : Win) : Win :=
  if w.app.mode = .fullscreen then { w with app := { w.app with mode := w.app.beforeFullscreen } }
  else w

@[simp] theorem unscreened_id (w : Win) : (unscreened w).id = w.id := by
  unfold unscreened
  split <;> rfl

theorem unscreened_of_minimized {w : Win} (h : ¬ Visible w) : unscreened w = w := by
  have hmode : w.app.mode = .minimized := not_not.1 h
  unfold unscreened
  rw [if_neg (by rw [hmode]; decide)]

/-- The window that takes the focus comes in front of the others as they are then. -/
theorem focus_middle {below above : List Win} {b : Win} (hstack : d.stack = below ++ b :: above)
    (hids : d.ids.Nodup) :
    (d.focus b.id).stack = (below ++ above).map unscreened ++ [b] := by
  have hother : ∀ v ∈ below ++ above, v.id ≠ b.id := by
    have hperm : (below ++ b :: above).Perm (b :: (below ++ above)) := List.perm_middle
    rw [ids, hstack, (hperm.map _).nodup_iff, List.map_cons, List.nodup_cons] at hids
    intro v hv heq
    exact hids.1 (heq ▸ List.mem_map_of_mem hv)
  have hleave : (d.leaveFullscreen b.id).stack =
      below.map unscreened ++ b :: above.map unscreened := by
    have hmap : ∀ l : List Win, (∀ v ∈ l, v.id ≠ b.id) → l.map (fun w : Win =>
        if w.id ≠ b.id ∧ w.app.mode = .fullscreen then
          { w with app := { w.app with mode := w.app.beforeFullscreen } }
        else w) = l.map unscreened := by
      intro l hl
      refine List.map_congr_left fun v hv => ?_
      simp only [unscreened, hl v hv, ne_eq, not_false_eq_true, true_and]
    simp only [leaveFullscreen, hstack, List.map_append, List.map_cons, ne_eq, not_true_eq_false,
      false_and, if_false]
    rw [hmap below fun v hv => hother v (List.mem_append_left _ hv),
      hmap above fun v hv => hother v (List.mem_append_right _ hv)]
  have hbelow : ∀ v ∈ below.map unscreened, ¬ (v.id == b.id) = true := by
    intro v hv
    obtain ⟨u, hu, rfl⟩ := List.mem_map.1 hv
    simpa using hother u (List.mem_append_left _ hu)
  have hfind : (d.leaveFullscreen b.id).find b.id = some b := by
    unfold WindowManager.find
    rw [hleave, List.find?_append, List.find?_eq_none.2 hbelow]
    simp
  show ((d.leaveFullscreen b.id).toWindowManager.raise b.id).stack = _
  simp only [WindowManager.raise, hfind]
  rw [hleave, List.eraseP_append_right _ hbelow, List.eraseP_cons_of_pos (by simp), List.map_append]

/-- Minimized windows are not moved by it. -/
theorem map_unscreened_of_minimized {l : List Win} (h : ∀ v ∈ l, ¬ Visible v) :
    l.map unscreened = l :=
  (List.map_congr_left fun v hv => unscreened_of_minimized (h v hv)).trans (List.map_id _)

theorem mem_focus_self {w : Win} (hw : w ∈ d.stack) : w ∈ (d.focus w.id).stack := by
  refine (focus_perm w.id).mem_iff.2 (List.mem_map.2 ⟨w, hw, ?_⟩)
  rw [if_neg (by simp)]

/-! ### Who takes the focus -/

/-- The operations after which the manager itself chooses. -/
def Chooses (d : Desktop) : Op → Prop
  | .close id => id = d.focused
  | .focusNext | .focusPrev => True
  | _ => False

/-- The windows it can choose from. -/
def remaining (d : Desktop) : Op → List Win
  | .close id => (d.close id).stack
  | _ => d.stack

/-- A window is chosen that is on the screen, if there is one. -/
def FocusShown (d : Desktop) (op : Op) : Prop :=
  (∃ w ∈ d.remaining op, Visible w) →
    ∃ w ∈ (d.apply op).stack, w.id = (d.apply op).focused ∧ Visible w

/-- The front is closed over a minimized window, while another one is on the screen. -/
def BuriesFocus (d : Desktop) : Op → Prop
  | .close id => id = d.focused ∧ (∃ w ∈ d.stack.dropLast, Visible w) ∧
      ∃ below ∈ d.stack.dropLast.getLast?, ¬ Visible below
  | _ => False

instance (op : Op) : Decidable (d.FocusShown op) := inferInstanceAs (Decidable (_ → _))

/-- A walk that meets a window on the screen shows the one it finds. -/
theorem shown_of_find {walk : List Win} {d' : Desktop}
    (hd' : d' = match walk.find? fun w => Visible w with
      | none => d
      | some w => d.focus w.id)
    (hwalk : ∀ w, w ∈ walk ↔ w ∈ d.stack) (h : ∃ w ∈ d.stack, Visible w) :
    ∃ w ∈ d'.stack, w.id = d'.focused ∧ Visible w := by
  cases hfind : walk.find? fun w => Visible w with
  | none =>
      obtain ⟨w, hw, hvisible⟩ := h
      exact absurd hvisible (by simpa using List.find?_eq_none.1 hfind w ((hwalk w).2 hw))
  | some w =>
      simp only [hfind] at hd'
      have hvisible : Visible w := by simpa using List.find?_some hfind
      have hmem := (hwalk w).1 (List.mem_of_find?_eq_some hfind)
      rw [hd']
      exact ⟨w, mem_focus_self hmem, rfl, hvisible⟩

/-- A stack is empty, or its front has the focus. -/
theorem front_cases (htop : d.Topped) : d.stack = [] ∨
    ∃ back t, d.stack = back ++ [t] ∧ d.focused = t.id := by
  rcases List.eq_nil_or_concat d.stack with hnil | ⟨back, t, hstack⟩
  · exact .inl hnil
  · rw [List.concat_eq_append] at hstack
    refine .inr ⟨back, t, hstack, ?_⟩
    rw [htop, hstack]
    simp

theorem topped_of_front {back : List Win} {t : Win} (hstack : d.stack = back ++ [t])
    (htop : d.focused = t.id) : d.Topped := by
  simp [Topped, hstack, htop]

theorem close_front {back : List Win} {t : Win} (hstack : d.stack = back ++ [t])
    (htop : d.focused = t.id) (hids : d.ids.Nodup) :
    (d.close t.id).stack = back ∧ (d.close t.id).focused = (back.getLast?.map (·.id)).getD 0 := by
  have hback : ∀ v ∈ back, ¬ (v.id == t.id) = true := fun v hv => by
    simpa using front_ne hstack hids v hv
  have hfind : d.find t.id = some t := by
    unfold WindowManager.find
    rw [hstack, List.find?_append, List.find?_eq_none.2 hback]
    simp
  have herase : d.stack.eraseP (fun w => w.id == t.id) = back := by
    rw [hstack, List.eraseP_append_right _ hback, List.eraseP_cons_of_pos (by simp), List.append_nil]
  unfold close WindowManager.close
  simp only [hfind, herase, htop, if_true, and_self]

/-- Once the front is closed, the focus is on the last window behind it. -/
theorem shown_close_front {back : List Win} {t : Win} (hstack : d.stack = back ++ [t])
    (htop : d.focused = t.id) (hids : d.ids.Nodup) :
    (∃ w ∈ (d.close t.id).stack, w.id = (d.close t.id).focused ∧ Visible w) ↔
      ∃ below ∈ back.getLast?, Visible below := by
  obtain ⟨hclosed, hfocused⟩ := close_front hstack htop hids
  rw [hclosed, hfocused]
  constructor
  · rintro ⟨w, hw, hid, hvisible⟩
    cases hlast : back.getLast? with
    | none =>
        rw [List.getLast?_eq_none_iff.1 hlast] at hw
        exact absurd hw List.not_mem_nil
    | some below =>
        rw [hlast] at hid
        have hin : ∀ v ∈ back, v ∈ d.stack := fun v hv => by simp [hstack, hv]
        have heq := List.inj_on_of_nodup_map hids (hin w hw)
          (hin below (List.mem_of_getLast? hlast)) hid
        exact ⟨below, rfl, heq ▸ hvisible⟩
  · rintro ⟨below, hlast, hvisible⟩
    refine ⟨below, List.mem_of_getLast? hlast, ?_, hvisible⟩
    rw [Option.mem_def.1 hlast]
    rfl

/-- Closing the front. -/
theorem focusShown_close_iff {n : Nat} (h : Kept n d) (id : WindowId) :
    (d.Chooses (.close id) → d.FocusShown (.close id)) ↔ ¬ d.BuriesFocus (.close id) := by
  have hids := h.numbered.distinct
  by_cases hfocused : id = d.focused
  · subst hfocused
    have hchooses : d.Chooses (.close d.focused) := rfl
    rw [forall_prop_of_true hchooses]
    rcases front_cases h.topped with hnil | ⟨back, t, hstack, htop⟩
    · have hclose : (d.close d.focused).stack = [] := by
        unfold close WindowManager.close WindowManager.find
        simp [hnil]
      refine iff_of_true ?_ ?_
      · rintro ⟨w, hw, -⟩
        change w ∈ (d.close d.focused).stack at hw
        rw [hclose] at hw
        exact absurd hw List.not_mem_nil
      · rintro ⟨-, ⟨w, hw, -⟩, -⟩
        simp [hnil] at hw
    · have hremain : d.remaining (.close d.focused) = back := by
        rw [htop]
        exact (close_front hstack htop hids).1
      have hshown : (∃ w ∈ (d.apply (.close d.focused)).stack,
          w.id = (d.apply (.close d.focused)).focused ∧ Visible w) ↔
          ∃ below ∈ back.getLast?, Visible below := by
        rw [htop]
        exact shown_close_front hstack htop hids
      unfold FocusShown BuriesFocus
      rw [hremain, hshown, hstack, List.dropLast_concat]
      constructor
      · rintro hall ⟨-, hother, below, hlast, hhidden⟩
        obtain ⟨below', hlast', hvisible⟩ := hall hother
        cases Option.some.inj ((Option.mem_def.1 hlast).symm.trans (Option.mem_def.1 hlast'))
        exact hhidden hvisible
      · intro hnot hother
        obtain ⟨w, hw, -⟩ := id hother
        obtain ⟨below, hlast⟩ := Option.ne_none_iff_exists'.1
          (mt List.getLast?_eq_none_iff.1 (List.ne_nil_of_mem hw))
        refine ⟨below, hlast, ?_⟩
        by_contra hhidden
        exact hnot ⟨rfl, hother, below, hlast, hhidden⟩
  · exact iff_of_true (fun hchooses => absurd hchooses hfocused) fun hburies => hfocused hburies.1

theorem front_of_mem (h : d.Topped) {w : Win} (hw : w ∈ d.stack) :
    ∃ back t, d.stack = back ++ [t] ∧ d.focused = t.id := by
  rcases front_cases h with hnil | hfront
  · rw [hnil] at hw
    exact absurd hw List.not_mem_nil
  · exact hfront

/-- **One step.** The closing alone can give the focus to a window nobody sees. -/
theorem focusShown_iff {n : Nat} (h : Kept n d) (op : Op) :
    (d.Chooses op → d.FocusShown op) ↔ ¬ d.BuriesFocus op := by
  have hids := h.numbered.distinct
  cases op with
  | close id => exact focusShown_close_iff h id
  | focusNext =>
      refine ⟨fun _ => not_false, fun _ _ hother => ?_⟩
      obtain ⟨w, hw, -⟩ := id hother
      obtain ⟨back, t, hstack, htop⟩ := front_of_mem h.topped hw
      exact shown_of_find (focusNext_eq hstack htop hids) (fun w => by rw [hstack]) hother
  | focusPrev =>
      refine ⟨fun _ => not_false, fun _ _ hother => ?_⟩
      obtain ⟨w, hw, -⟩ := id hother
      obtain ⟨back, t, hstack, htop⟩ := front_of_mem h.topped hw
      exact shown_of_find (focusPrev_eq hstack htop hids) (fun w => by simp [hstack]) hother
  | _ => exact ⟨fun _ => not_false, fun _ hchooses => hchooses.elim⟩

theorem kept_of_isPrefix {ops before : List Op} (hlegal : StepsMeet apply Legal {} ops)
    (hroom : opened {} ops < 2 ^ 32) (h : before <+: ops) :
    Kept (opened {} before) (run apply {} before) := by
  have hle := opened_le_of_isPrefix h {}
  obtain ⟨after, rfl⟩ := h
  have hkept := Kept.start.run hlegal.of_append (by omega)
  rwa [Nat.zero_add] at hkept

/-- **The window that takes the focus is on the screen**, each time the manager chooses it in
a run, exactly when no step of the run closes the front over a minimized window while
another one is on the screen. -/
theorem all_focusShown_iff {ops : List Op} (hlegal : StepsMeet apply Legal {} ops)
    (hroom : opened {} ops < 2 ^ 32) :
    (∀ before op, before ++ [op] <+: ops → (run apply {} before).Chooses op →
      (run apply {} before).FocusShown op) ↔
    StepsMeet apply (fun d op => ¬ d.BuriesFocus op) {} ops := by
  rw [Sshos.Lib.stepsMeet_iff]
  refine forall_congr' fun before => forall_congr' fun op => imp_congr_right fun hb => ?_
  exact focusShown_iff (kept_of_isPrefix hlegal hroom ((List.prefix_append _ _).trans hb)) op

/-- Three windows; the second one is minimized, then the third one is closed. -/
def overMinimized : List Op :=
  [.open (some ⟨10, 3⟩) {}, .open (some ⟨10, 3⟩) {}, .open (some ⟨10, 3⟩) {},
    .setMode 2 .minimized {}]

theorem all_focusShown_iff_walk : opened {} overMinimized = 3 ∧
    ∀ before op, before ++ [op] <+: overMinimized ++ [.focusNext, .focusPrev] →
      (run apply {} before).Chooses op → (run apply {} before).FocusShown op :=
  ⟨by decide, (all_focusShown_iff (by decide) (by decide)).2
    ⟨not_false, not_false, not_false, not_false, not_false, not_false, trivial⟩⟩

theorem not_all_focusShown : ¬ ∀ ops, StepsMeet apply Legal {} ops → ∀ before op,
    before ++ [op] <+: ops → (run apply {} before).Chooses op →
      (run apply {} before).FocusShown op := by
  intro hall
  have hshown := hall (overMinimized ++ [.close 3]) (by decide) overMinimized (.close 3) ⟨[], rfl⟩
    (show (3 : Nat) = (run apply {} overMinimized).focused by decide)
  revert hshown
  decide

/-! ### Going round -/

/-- The windows that are on the screen. -/
def visibleIds (d : Desktop) : List WindowId := (d.stack.filter fun w => Visible w).map (·.id)

/-- Who has the focus after each of `k` moves. -/
def focuses (move : Desktop → Desktop) : Nat → Desktop → List WindowId
  | 0, _ => []
  | k + 1, d => (move d).focused :: focuses move k (move d)

/-- As many moves as there are windows on the screen visit each once, the first one last. -/
def GoesRound (move : Desktop → Desktop) (d : Desktop) : Prop :=
  (focuses move d.visibleIds.length d).Perm d.visibleIds ∧
  (focuses move d.visibleIds.length d).getLast? = some d.focused

structure Cycles (d : Desktop) : Prop where
  next : GoesRound focusNext d
  prev : GoesRound focusPrev d
  undoes : d.focusNext.focusPrev.focused = d.focused

/-- The window in front loses the screen with the focus: it was minimized before it
filled it. -/
def Vanishes (d : Desktop) : Prop :=
  ∃ w ∈ d.stack, w.id = d.focused ∧ w.app.mode = .fullscreen ∧ w.app.beforeFullscreen = .minimized

/-- A stack that some run leads to, before the numbers come round. -/
def Reachable (d : Desktop) : Prop :=
  ∃ ops, StepsMeet apply Legal {} ops ∧ opened {} ops < 2 ^ 32 ∧ run apply {} ops = d

theorem Reachable.kept (h : d.Reachable) : ∃ n, Kept n d := by
  obtain ⟨ops, hlegal, hroom, rfl⟩ := h
  exact ⟨_, kept_of_isPrefix hlegal hroom (List.prefix_refl _)⟩

/-- A window that is not on the screen does not come back, -/
structure Hidden (id : WindowId) (d : Desktop) : Prop where
  windows : ∀ w ∈ d.stack, w.id = id → ¬ Visible w
  unfocused : d.focused ≠ id

theorem Hidden.focus {id : WindowId} (h : Hidden id d) {w : Win} (hw : w ∈ d.stack)
    (hvisible : Visible w) : Hidden id (d.focus w.id) := by
  refine ⟨fun v hv hid => ?_, fun heq => h.windows w hw heq hvisible⟩
  rcases mem_leaveFullscreen ((focus_perm w.id).mem_iff.1 hv) with ⟨hold, -⟩ | ⟨u, hu, hfull, rfl⟩
  · exact h.windows v hold hid
  · refine absurd ?_ (h.windows u hu hid)
    unfold Visible
    rw [hfull]
    decide

theorem Hidden.step {id : WindowId} (h : Hidden id d) (delta : Int) : Hidden id (d.step delta) := by
  rcases step_cases d delta with heq | ⟨w, hw, hvisible, heq⟩
  · rw [heq]
    exact h
  · rw [heq]
    exact h.focus hw hvisible

/-- wherever the walks go. -/
theorem Hidden.not_mem_focuses {id : WindowId} (h : Hidden id d) (delta : Int) (k : Nat) :
    id ∉ focuses (fun d => d.step delta) k d := by
  induction k generalizing d with
  | zero => exact List.not_mem_nil
  | succ k ih =>
      intro hmem
      rcases List.mem_cons.1 hmem with heq | hmem
      · exact (h.step delta).unfocused heq.symm
      · exact ih (h.step delta) hmem

theorem ids_focus_nodup (hids : d.ids.Nodup) (id : WindowId) : (d.focus id).ids.Nodup := by
  rw [ids_eq_keys] at hids ⊢
  exact ((focus_keys id).map _).nodup_iff.2 hids

/-! ### Two moves -/

section Moves

variable {below above : List Win} {w t : Win}

theorem focusNext_of_first (htop : d.Topped) (hids : d.ids.Nodup)
    (hstack : d.stack = below ++ w :: above) (hbelow : ∀ v ∈ below, ¬ Visible v) (hw : Visible w) :
    d.focusNext = d.focus w.id := by
  have hfind : d.stack.find? (fun w => Visible w) = some w := by
    rw [hstack, List.find?_append, List.find?_eq_none.2 (by simpa using hbelow),
      List.find?_cons_of_pos (by simpa using hw)]
    rfl
  rcases front_cases htop with hnil | ⟨back, t, hfront, hfocused⟩
  · simp [hnil] at hstack
  · rw [focusNext_eq hfront hfocused hids, ← hfront, hfind]

theorem focusPrev_of_last (htop : d.focused = t.id) (hids : d.ids.Nodup)
    (hstack : d.stack = (below ++ w :: above) ++ [t]) (habove : ∀ v ∈ above, ¬ Visible v)
    (hw : Visible w) : d.focusPrev = d.focus w.id := by
  have hfind : ((below ++ w :: above).reverse ++ [t]).find? (fun w => Visible w) = some w := by
    rw [List.reverse_append, List.reverse_cons, List.find?_append, List.find?_append,
      List.find?_append, List.find?_eq_none.2 (by simpa using habove),
      List.find?_cons_of_pos (by simpa using hw)]
    rfl
  rw [focusPrev_eq hstack htop hids, hfind]

theorem focusPrev_of_alone (htop : d.focused = t.id) (hids : d.ids.Nodup)
    (hstack : d.stack = below ++ [t]) (hbelow : ∀ v ∈ below, ¬ Visible v) (ht : Visible t) :
    d.focusPrev = d.focus t.id := by
  have hfind : (below.reverse ++ [t]).find? (fun w => Visible w) = some t := by
    rw [List.find?_append, List.find?_eq_none.2 (by simpa using hbelow),
      List.find?_cons_of_pos (by simpa using ht)]
    rfl
  rw [focusPrev_eq hstack htop hids, hfind]

/-- The stack when a window behind the front has taken the focus. -/
theorem focus_behind (hids : d.ids.Nodup) (hstack : d.stack = (below ++ w :: above) ++ [t]) :
    (d.focus w.id).stack = ((below ++ above).map unscreened ++ [unscreened t]) ++ [w] := by
  have hmiddle : d.stack = below ++ w :: (above ++ [t]) := by rw [hstack]; simp
  rw [focus_middle hmiddle hids]
  simp

end Moves

/-- The windows on the screen, when the front is one of them. -/
theorem visibleIds_front {back : List Win} {t : Win} (hstack : d.stack = back ++ [t]) (ht : Visible t) :
    d.visibleIds = (back.filter fun w => Visible w).map (·.id) ++ [t.id] := by
  rw [visibleIds, hstack, List.filter_append, List.filter_cons_of_pos (by simpa using ht)]
  simp

theorem filter_eq_nil_of_minimized {l : List Win} :
    l.filter (fun w => Visible w) = [] ↔ ∀ v ∈ l, ¬ Visible v := by
  simp [List.filter_eq_nil_iff]

/-- The foremost window on the screen, behind the front. -/
theorem exists_last_visible {back : List Win} (h : ∃ v ∈ back, Visible v) :
    ∃ below w above, back = below ++ w :: above ∧ Visible w ∧ ∀ v ∈ above, ¬ Visible v := by
  induction back using List.reverseRecOn with
  | nil =>
      obtain ⟨v, hv, -⟩ := h
      exact absurd hv List.not_mem_nil
  | append_singleton back v ih =>
      by_cases hv : Visible v
      · exact ⟨back, v, [], rfl, hv, fun _ hmem => absurd hmem List.not_mem_nil⟩
      · obtain ⟨u, hu, hvisible⟩ := h
        have hback : u ∈ back := by
          rcases List.mem_append.1 hu with hu | hu
          · exact hu
          · rw [List.mem_singleton.1 hu] at hvisible
            exact absurd hvisible hv
        obtain ⟨below, w, above, rfl, hw, habove⟩ := ih ⟨u, hback, hvisible⟩
        refine ⟨below, w, above ++ [v], by simp, hw, fun x hx => ?_⟩
        rcases List.mem_append.1 hx with hx | hx
        · exact habove x hx
        · rw [List.mem_singleton.1 hx]
          exact hv

section Round

variable {back : List Win} {t : Win} (hstack : d.stack = back ++ [t]) (htop : d.focused = t.id)
  (hids : d.ids.Nodup) (ht : Visible t)

include hstack htop hids ht

/-- Alone on the screen, the front keeps the focus. -/
theorem cycles_of_alone (hback : ∀ v ∈ back, ¬ Visible v) : d.Cycles := by
  have hnext : d.focusNext = d.focus t.id :=
    focusNext_of_first (topped_of_front hstack htop) hids hstack hback ht
  have hprev : d.focusPrev = d.focus t.id := focusPrev_of_alone htop hids hstack hback ht
  have hvisible : d.visibleIds = [t.id] := by
    rw [visibleIds_front hstack ht, filter_eq_nil_of_minimized.2 hback]
    rfl
  have hsame : (d.focus t.id).stack = back ++ [t] := by
    rw [focus_middle hstack hids, List.append_nil, map_unscreened_of_minimized hback]
  refine ⟨?_, ?_, ?_⟩
  · unfold GoesRound
    rw [hvisible, htop]
    simp only [List.length_singleton, focuses, hnext]
    exact ⟨List.Perm.refl _, rfl⟩
  · unfold GoesRound
    rw [hvisible, htop]
    simp only [List.length_singleton, focuses, hprev]
    exact ⟨List.Perm.refl _, rfl⟩
  · rw [hnext, focusPrev_of_alone rfl (ids_focus_nodup hids t.id) hsame hback ht, htop]
    rfl

theorem vanishes_iff : d.Vanishes ↔ ¬ Visible (unscreened t) := by
  constructor
  · rintro ⟨w, hw, hid, hfull, hbefore⟩
    have hfront : t ∈ d.stack := by simp [hstack]
    obtain rfl : w = t := List.inj_on_of_nodup_map hids hw hfront (hid.trans htop)
    simp [unscreened, hfull, Visible, hbefore]
  · intro hhidden
    by_cases hfull : t.app.mode = .fullscreen
    · refine ⟨t, by simp [hstack], htop.symm, hfull, ?_⟩
      simpa [unscreened, hfull, Visible] using hhidden
    · rw [unscreened, if_neg hfull] at hhidden
      exact absurd ht hhidden

/-- With one other window on the screen, the two take turns, unless the front vanishes. -/
theorem cycles_two_iff {below above : List Win} {w : Win} (hback : back = below ++ w :: above)
    (hw : Visible w) (hbelow : ∀ v ∈ below, ¬ Visible v) (habove : ∀ v ∈ above, ¬ Visible v) :
    d.Cycles ↔ ¬ d.Vanishes := by
  subst hback
  rw [vanishes_iff hstack htop hids ht, not_not]
  have hmiddle : d.stack = below ++ w :: (above ++ [t]) := by rw [hstack]; simp
  have hnext : d.focusNext = d.focus w.id :=
    focusNext_of_first (topped_of_front hstack htop) hids hmiddle hbelow hw
  have hprev : d.focusPrev = d.focus w.id := focusPrev_of_last htop hids hstack habove hw
  have hvisible : d.visibleIds = [w.id, t.id] := by
    rw [visibleIds_front hstack ht, List.filter_append, filter_eq_nil_of_minimized.2 hbelow,
      List.filter_cons_of_pos (by simpa using hw), filter_eq_nil_of_minimized.2 habove]
    rfl
  have hne : w.id ≠ t.id := front_ne hstack hids w (by simp)
  have hbehind := focus_behind hids hstack
  have hnodup := ids_focus_nodup hids w.id
  have hfocused : (d.focus w.id).focused = w.id := rfl
  have hhidden : ∀ v ∈ (below ++ above).map unscreened, ¬ Visible v := by
    intro v hv
    have hall : ∀ v ∈ below ++ above, ¬ Visible v := fun v hv =>
      (List.mem_append.1 hv).elim (hbelow v) (habove v)
    rw [map_unscreened_of_minimized hall] at hv
    exact hall v hv
  generalize d.focus w.id = d₁ at *
  have htop₁ : d₁.Topped := topped_of_front hbehind hfocused
  constructor
  · intro hcycles
    by_contra hgone
    -- the front is not there any more when its turn comes
    have hrest : ∀ v ∈ (below ++ above).map unscreened ++ [unscreened t], ¬ Visible v := by
      intro v hv
      rcases List.mem_append.1 hv with hv | hv
      · exact hhidden v hv
      · rw [List.mem_singleton.1 hv]
        exact hgone
    have hagain : d₁.focusNext = d₁.focus w.id :=
      focusNext_of_first htop₁ hnodup hbehind hrest hw
    have hlast := hcycles.next.2
    rw [hvisible] at hlast
    simp only [List.length_cons, List.length_nil, focuses, hnext, hagain] at hlast
    have heq : w.id = d.focused := Option.some.inj hlast
    exact hne (heq.trans htop)
  · intro hstays
    have hturn : d₁.focusNext = d₁.focus t.id ∧ d₁.focusPrev = d₁.focus t.id := by
      have hshift : d₁.stack = (below ++ above).map unscreened ++ unscreened t :: [w] := by
        rw [hbehind]
        simp
      have hlast : d₁.stack = ((below ++ above).map unscreened ++ unscreened t :: []) ++ [w] := hbehind
      have hid := unscreened_id t
      constructor
      · rw [focusNext_of_first htop₁ hnodup hshift hhidden hstays, hid]
      · rw [focusPrev_of_last hfocused hnodup hlast (fun _ h => absurd h List.not_mem_nil) hstays, hid]
    refine ⟨?_, ?_, ?_⟩
    · unfold GoesRound
      rw [hvisible, htop]
      simp only [List.length_cons, List.length_nil, focuses, hnext, hturn.1, hfocused]
      exact ⟨List.Perm.refl _, rfl⟩
    · unfold GoesRound
      rw [hvisible, htop]
      simp only [List.length_cons, List.length_nil, focuses, hprev, hturn.2, hfocused]
      exact ⟨List.Perm.refl _, rfl⟩
    · rw [hnext, hturn.2, htop]
      rfl

/-- With two others, the walk backwards comes back to the front too early, or never. -/
theorem not_goesRound_prev_of_many (hmany : 3 ≤ d.visibleIds.length) :
    ¬ GoesRound focusPrev d := by
  rintro ⟨hperm, hlast⟩
  have hdistinct : d.visibleIds.Nodup := hids.sublist (List.filter_sublist.map _)
  have hvisible := visibleIds_front hstack ht
  have hother : ∃ v ∈ back, Visible v := by
    by_contra hnone
    rw [hvisible, filter_eq_nil_of_minimized.2 fun v hv hvis => hnone ⟨v, hv, hvis⟩] at hmany
    simp at hmany
  obtain ⟨below, w, above, rfl, hw, habove⟩ := exists_last_visible hother
  have hprev : d.focusPrev = d.focus w.id := focusPrev_of_last htop hids hstack habove hw
  have hbehind := focus_behind hids hstack
  have hnodup := ids_focus_nodup hids w.id
  have hfocused : (d.focus w.id).focused = w.id := rfl
  have hne : w.id ≠ t.id := front_ne hstack hids w (by simp)
  obtain ⟨k, hk⟩ : ∃ k, d.visibleIds.length = k + 3 := ⟨d.visibleIds.length - 3, by omega⟩
  rw [hk, htop] at hlast
  have hround := hperm.nodup_iff.2 hdistinct
  rw [hk] at hround
  simp only [focuses, hprev] at hlast hround
  generalize d.focus w.id = d₁ at *
  -- the last of the moves gives the focus back, after the first two
  have hmem : t.id ∈ d₁.focusPrev.focusPrev.focused :: focuses focusPrev k d₁.focusPrev.focusPrev := by
    rw [List.getLast?_cons_cons, List.getLast?_cons_cons] at hlast
    exact List.mem_of_getLast? hlast
  by_cases hstays : Visible (unscreened t)
  · have hturn : d₁.focusPrev = d₁.focus (unscreened t).id :=
      focusPrev_of_last hfocused hnodup hbehind (fun _ h => absurd h List.not_mem_nil) hstays
    have hsecond : d₁.focusPrev.focused = t.id := by
      rw [hturn]
      exact unscreened_id t
    rw [hsecond] at hround
    exact (List.nodup_cons.1 (List.nodup_cons.1 hround).2).1 hmem
  · have hhidden : Hidden t.id d₁ := by
      constructor
      · intro v hv hid
        have hfront : unscreened t ∈ d₁.stack := by simp [hbehind]
        rw [List.inj_on_of_nodup_map hnodup hv hfront (hid.trans (unscreened_id t).symm)]
        exact hstays
      · rw [hfocused]
        exact hne
    exact hhidden.not_mem_focuses (-1) (k + 2) (List.mem_cons_of_mem _ hmem)

/-- **Going round the stack**, one way and the other and back again: with two windows on the
screen at most, when the front stays on it without the focus. -/
theorem cycles_iff_of_front : d.Cycles ↔
    d.visibleIds.length = 1 ∨ (d.visibleIds.length = 2 ∧ ¬ d.Vanishes) := by
  have hlength : d.visibleIds.length = (back.filter fun w => Visible w).length + 1 := by
    rw [visibleIds_front hstack ht]
    simp
  by_cases halone : ∀ v ∈ back, ¬ Visible v
  · rw [filter_eq_nil_of_minimized.2 halone] at hlength
    exact iff_of_true (cycles_of_alone hstack htop hids ht halone) (.inl hlength)
  · have hother : ∃ v ∈ back, Visible v := by
      by_contra hnone
      exact halone fun v hv hvisible => hnone ⟨v, hv, hvisible⟩
    obtain ⟨below, w, above, hback, hw, habove⟩ := exists_last_visible hother
    have hcount : (back.filter fun w => Visible w).length =
        (below.filter fun w => Visible w).length + 1 := by
      rw [hback, List.filter_append, List.filter_cons_of_pos (by simpa using hw),
        filter_eq_nil_of_minimized.2 habove]
      simp
    by_cases hbelow : ∀ v ∈ below, ¬ Visible v
    · rw [filter_eq_nil_of_minimized.2 hbelow, List.length_nil] at hcount
      rw [cycles_two_iff hstack htop hids ht hback hw hbelow habove]
      constructor
      · exact fun hstays => .inr ⟨by omega, hstays⟩
      · rintro (hone | ⟨-, hstays⟩)
        · omega
        · exact hstays
    · have hpos : 0 < (below.filter fun w => Visible w).length := by
        rw [List.length_pos_iff, Ne, filter_eq_nil_of_minimized]
        exact hbelow
      refine iff_of_false (fun hcycles => ?_) (by omega)
      exact not_goesRound_prev_of_many hstack htop hids ht (by omega) hcycles.prev

end Round

theorem cycles_iff (hreach : d.Reachable) (hshown : ∃ w ∈ d.stack, w.id = d.focused ∧ Visible w) :
    d.Cycles ↔ d.visibleIds.length = 1 ∨ (d.visibleIds.length = 2 ∧ ¬ d.Vanishes) := by
  obtain ⟨n, hkept⟩ := hreach.kept
  have hids := hkept.numbered.distinct
  obtain ⟨w, hw, hid, hvisible⟩ := hshown
  rcases front_cases hkept.topped with hnil | ⟨back, t, hstack, htop⟩
  · rw [hnil] at hw
    exact absurd hw List.not_mem_nil
  · have hfront : t ∈ d.stack := by simp [hstack]
    have heq := List.inj_on_of_nodup_map hids hw hfront (hid.trans htop)
    exact cycles_iff_of_front hstack htop hids (heq ▸ hvisible)

/-- Two windows, the first of which fills the screen and is behind. -/
theorem cycles_iff_two : (run apply {}
    [.open (some ⟨10, 3⟩) {}, .open (some ⟨10, 3⟩) {}, .setMode 1 .fullscreen {}]).Cycles :=
  (cycles_iff ⟨_, by decide, by decide, rfl⟩ (by decide)).2 (.inr ⟨by decide, by
    unfold Vanishes
    decide⟩)

/-- Three windows: the walk backwards never meets the first one. -/
theorem not_all_cycle : ¬ ∀ d, Reachable d → (∃ w ∈ d.stack, w.id = d.focused ∧ Visible w) →
    d.Cycles := by
  intro hall
  have hcycles := hall (run apply {}
    [.open (some ⟨10, 3⟩) {}, .open (some ⟨10, 3⟩) {}, .open (some ⟨10, 3⟩) {}])
    ⟨_, by decide, by decide, rfl⟩ (by decide)
  have hperm := hcycles.prev.1
  revert hperm
  decide

end Desktop

end Sshos.Wm
