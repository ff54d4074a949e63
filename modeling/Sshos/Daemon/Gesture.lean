import Sshos.Daemon.Front

/-!
# Sshos.Daemon.Gesture

A **gesture** that aborts leaves no trace. A move writes the geometry of its window at every
motion and keeps what it was at the press; a resize writes it at the release only. As long
as a gesture lasts, the geometry each window would find back is the one it had.
-/

namespace Sshos.Daemon

open Sshos.Input (MouseEvent)
open Sshos.Lib (Bytes run run_append)
open Sshos.Render (Rect)
open Sshos.Wm (Desktop Frame Size Win WinHit WindowId WindowManager Windows kDefaultRect workArea)

namespace Desk

/-! ### Windows that come and go -/

/-- The windows of `v` that are still in `v'` are as they were, as far as the user is
concerned; the others have later numbers. -/
structure Grows (v v' : Windows) : Prop where
  openings : v.openings ≤ v'.openings
  keys : v'.openings < 2 ^ 32 → ∀ k ∈ v'.keys, k ∈ v.keys ∨ v.openings < k.1

theorem Grows.refl (v : Windows) : Grows v v := ⟨le_refl _, fun _ _ hk => .inl hk⟩

theorem grows_focus (v : Windows) (id : WindowId) : Grows v (v.focus id) where
  openings := le_refl _
  keys := fun _ _ hk => .inl ((Desktop.focus_keys (d := v.toDesktop) id).mem_iff.1 hk)

/-- What a composition serves. -/
theorem Grows.of_serves {v v' : Windows} (h : Serves v v') : Grows v v' where
  openings := h.stays.openings
  keys := by
    intro hroom k hk
    obtain ⟨w', hw', rfl⟩ := List.mem_map.1 hk
    rcases h.stays.old hroom w' hw' with ⟨w, hw, hid, hsame⟩ | hnew
    · refine .inl (List.mem_map.2 ⟨w, hw, ?_⟩)
      rw [hid, hsame.userRect]
    · exact .inr hnew

/-! ### What a window would find back -/

/-- The geometry a window has once the gesture is given up. -/
def wanted (s : Desk) (id : WindowId) (user : Rect) : Rect :=
  match s.drag with
  | .moving win _ _ origin => if id = win then origin else user
  | _ => user

/-- Every window of `v` still there would find back the geometry it had in `v`. -/
structure Restores (v : Windows) (s : Desk) : Prop where
  openings : v.openings ≤ s.wm.openings
  wanted : s.wm.openings < 2 ^ 32 →
    ∀ w ∈ v.stack, ∀ k ∈ s.wm.keys, k.1 = w.id → s.wanted k.1 k.2 = w.app.userRect

section Steps

variable {v : Windows} {s : Desk}

/-- Windows come and go, the gesture goes on. -/
theorem Restores.grow (h : Restores v s) {s' : Desk} (hgrows : Grows s.wm s'.wm)
    (hdrag : s'.drag = s.drag) : Restores v s' where
  openings := h.openings.trans hgrows.openings
  wanted := by
    intro hroom w hw k hk hid
    have hbefore := Nat.lt_of_le_of_lt hgrows.openings hroom
    have hsame : s'.wanted k.1 k.2 = s.wanted k.1 k.2 := by simp only [Desk.wanted, hdrag]
    rcases hgrows.keys hroom k hk with hold | hnew
    · rw [hsame]
      exact h.wanted hbefore w hw k hold hid
    · -- a later number is none of those
      have hle := Windows.id_le (Nat.lt_of_le_of_lt h.openings hbefore) hw
      rw [hid] at hnew
      exact absurd (Nat.lt_of_le_of_lt h.openings hnew) (Nat.not_lt.2 hle)

/-- The windows after a geometry was written. -/
theorem mem_keys_setUserRect {u : Windows} (hroom : u.openings < 2 ^ 32) {id : WindowId} {r : Rect}
    {k : WindowId × Rect} (hk : k ∈ (u.setUserRect id r).keys) :
    (k = (id, r) ∧ id ∈ u.ids) ∨ (k ∈ u.keys ∧ k.1 ≠ id) := by
  obtain ⟨w', hw', rfl⟩ := List.mem_map.1 hk
  rw [Windows.setUserRect, Windows.change_stack u hroom] at hw'
  obtain ⟨w, hw, rfl⟩ := List.mem_map.1 hw'
  by_cases heq : w.id = id
  · rw [if_pos heq]
    exact .inl ⟨by rw [heq], heq ▸ List.mem_map_of_mem hw⟩
  · rw [if_neg heq]
    exact .inr ⟨List.mem_map_of_mem hw, heq⟩

theorem mem_keys_of_mem_ids {u : Windows} {id : WindowId} (h : id ∈ u.ids) :
    ∃ user, (id, user) ∈ u.keys := by
  obtain ⟨w, hw, rfl⟩ := List.mem_map.1 h
  exact ⟨w.app.userRect, List.mem_map_of_mem hw⟩

/-- Giving the gesture up gives each window what it would find back. -/
theorem Restores.cancelDrag (h : Restores v s) : Restores v s.cancelDrag := by
  unfold Desk.cancelDrag
  cases hdrag : s.drag with
  | idle => exact h.grow (Grows.refl _) hdrag.symm
  | resizing win outline =>
      refine ⟨h.openings, fun hroom w hw k hk hid => ?_⟩
      have hwanted := h.wanted hroom w hw k hk hid
      simpa only [Desk.wanted, hdrag] using hwanted
  | moving win grabDx grabDy origin =>
      refine ⟨h.openings, fun (hroom : s.wm.openings < 2 ^ 32) w hw k hk hid => ?_⟩
      show k.2 = w.app.userRect
      rcases mem_keys_setUserRect hroom hk with ⟨rfl, hmem⟩ | ⟨hold, hne⟩
      · obtain ⟨user, huser⟩ := mem_keys_of_mem_ids hmem
        have hwanted := h.wanted hroom w hw (win, user) huser hid
        simpa only [Desk.wanted, hdrag, if_true] using hwanted
      · have hwanted := h.wanted hroom w hw k hold hid
        simpa only [Desk.wanted, hdrag, if_neg hne] using hwanted

/-- The window that moves is written anew: it would still find back its origin. -/
theorem Restores.setUserRect (h : Restores v s) {win : WindowId} {grabDx grabDy : Int} {origin : Rect}
    (hdrag : s.drag = .moving win grabDx grabDy origin) (r : Rect) {s' : Desk}
    (hwm : s'.wm = s.wm.setUserRect win r) (hdrag' : s'.drag = s.drag) : Restores v s' := by
  refine ⟨by rw [hwm]; exact h.openings, fun hroom w hw k hk hid => ?_⟩
  rw [hwm] at hk hroom
  simp only [Desk.wanted, hdrag', hdrag]
  rcases mem_keys_setUserRect (u := s.wm) hroom hk with ⟨rfl, hmem⟩ | ⟨hold, hne⟩
  · obtain ⟨user, huser⟩ := mem_keys_of_mem_ids hmem
    have hwanted := h.wanted hroom w hw (win, user) huser hid
    simpa only [Desk.wanted, hdrag, if_true] using hwanted
  · have hwanted := h.wanted hroom w hw k hold hid
    simpa only [Desk.wanted, hdrag, if_neg hne] using hwanted

theorem Restores.compose (h : Restores v s) (cols rows : Int) (utf8 badge : Bool) (hint : Bytes)
    (allowed : Bool) : Restores v (s.compose cols rows utf8 badge hint allowed) :=
  compose_rule (P := Restores v) (fun _ _ h hserves hdrag _ => h.grow (.of_serves hserves) hdrag)
    (fun _ h => h.cancelDrag) h cols rows utf8 badge hint allowed

theorem cancelDrag_idle (s : Desk) : s.cancelDrag.drag = .idle := by
  unfold Desk.cancelDrag
  split <;> rfl

/-- The mouse during a gesture, as long as it is not released. -/
theorem Restores.onMouse (h : Restores v s) (hdrag : s.drag ≠ .idle) {m : MouseEvent}
    (hm : m.action ≠ .release) (o : Outcome) : Restores v (s.onMouse m o) := by
  unfold Desk.onMouse
  split
  · exact h.cancelDrag
  split
  · exact h.cancelDrag
  cases hcase : s.drag with
  | idle => exact absurd hcase hdrag
  | moving win grabDx grabDy origin =>
      simp only [dragMove]
      split
      · exact h.cancelDrag
      · rw [if_neg hm]
        exact h.setUserRect hcase _ rfl rfl
  | resizing win outline =>
      simp only [dragResize]
      split
      · exact h.cancelDrag
      · rw [if_neg hm]
        refine ⟨h.openings, fun hroom w hw k hk hid => ?_⟩
        have hwanted := h.wanted hroom w hw k hk hid
        simpa only [Desk.wanted, hcase] using hwanted

/-- The pointer is released. -/
def Event.IsRelease : Event → Prop
  | .mouse m _ => m.action = .release
  | _ => False

/-- **One event** of a gesture, unless it releases the pointer. -/
theorem Restores.step (h : Restores v s) (hdrag : s.drag ≠ .idle) {e : Event} (he : ¬ e.IsRelease) :
    Restores v (s.step e) := by
  cases e with
  | mouse m o => exact h.onMouse hdrag he o
  | key o =>
      simp only [Desk.step, onKey, if_pos hdrag]
      exact h.cancelDrag
  | paste =>
      simp only [Desk.step, onPaste, if_pos hdrag]
      exact h.cancelDrag
  | focus focused =>
      simp only [Desk.step, onFocus]
      split
      · exact h
      · exact h.cancelDrag
  | watchdog => exact watchdog_rule (P := Restores v) (fun _ h => h.cancelDrag) h
  | elapse ms => exact h.grow (Grows.refl _) rfl
  | compose cols rows utf8 badge hint allowed => exact h.compose cols rows utf8 badge hint allowed
  | attach => exact h.cancelDrag
  | asksOpen id minSize => exact h.grow (Grows.refl _) rfl
  | asksClose id => exact h.grow (.of_serves (serves_askClose _ _ _)) rfl
  | closes id => exact h.grow (.of_serves (serves_close _ id)) rfl
  | setsTitle id title => exact h.grow (.of_serves (serves_change _ _ fun _ => ⟨rfl, rfl, fun _ => .inl rfl⟩)) rfl

end Steps

/-! ### The press -/

/-- Without a gesture, a desk restores its own windows. -/
theorem restores_self {s : Desk} (hidle : s.drag = .idle) : Restores s.wm s where
  openings := le_refl _
  wanted := by
    intro hroom w hw k hk hid
    obtain ⟨u, hu, rfl⟩ := List.mem_map.1 hk
    simp only [Desk.wanted, hidle]
    rw [Windows.eq_of_id hroom hu hw hid]

/-- Opening a window engages no gesture, -/
theorem openFromCatalog_drag (s : Desk) (id : Bytes) : (s.openFromCatalog id).drag = s.drag := by
  unfold openFromCatalog openApp
  split
  · rfl
  · split <;> rfl

theorem focusOrOpen_drag (s : Desk) (id : Bytes) : (s.focusOrOpen id).drag = s.drag := by
  unfold focusOrOpen
  split
  · exact openFromCatalog_drag s id
  · simp only
    split <;> rfl

/-- nor does a press on the panel, -/
theorem pressPanel_drag (s : Desk) (m : MouseEvent) (o : Outcome) (r : Sshos.Shell.PanelHitResult) :
    (s.pressPanel m o r).drag = s.drag := by
  unfold pressPanel
  split
  · rfl
  · rfl
  · rfl
  · split
    · rfl
    split
    · rfl
    split
    · exact openFromCatalog_drag s _
    · exact focusOrOpen_drag s _
  · split
    · rfl
    split
    · split
      · rfl
      · exact openFromCatalog_drag s _
    split
    · rfl
    split <;> rfl
  · rfl

/-- and a press on a window engages one in which every window would find back the geometry it
had. -/
theorem restores_pressWindow {s : Desk} (hidle : s.drag = .idle) (m : MouseEvent) (o : Outcome)
    {w : Win} (hw : w ∈ s.wm.stack) (zone : WinHit)
    (hengaged : (s.pressWindow m o w zone).drag ≠ .idle) :
    Restores s.wm (s.pressWindow m o w zone) := by
  unfold pressWindow at hengaged ⊢
  simp only at hengaged ⊢
  -- the focus first: every window stays, with the geometry it had
  have hfocus : Restores s.wm (if s.wm.focused ≠ w.id then { s with wm := s.wm.focus w.id } else s) := by
    split
    · exact (restores_self hidle).grow (grows_focus _ _) rfl
    · exact restores_self hidle
  have hdrag : (if s.wm.focused ≠ w.id then { s with wm := s.wm.focus w.id } else s).drag = .idle := by
    split <;> exact hidle
  generalize (if s.wm.focused ≠ w.id then { s with wm := s.wm.focus w.id } else s) = u at *
  cases zone with
  | titleBar =>
      simp only at hengaged ⊢
      split at hengaged
      · exact absurd hdrag hengaged
      next hsingle =>
      rw [if_neg hsingle]
      split at hengaged
      · exact absurd hdrag hengaged
      next hnormal =>
      rw [if_neg hnormal]
      refine ⟨hfocus.openings, fun hroom w' hw' k hk hk' => ?_⟩
      have hwanted := hfocus.wanted hroom w' hw' k hk hk'
      simp only [Desk.wanted, hdrag] at hwanted ⊢
      split
      · next heq =>
        -- the window that moves: its origin is the geometry it has
        rw [Windows.eq_of_id (Nat.lt_of_le_of_lt hfocus.openings hroom) hw hw' (heq.symm.trans hk')]
      · exact hwanted
  | edgeRight | edgeBottom | cornerBR =>
      refine ⟨hfocus.openings, fun hroom w' hw' k hk hk' => ?_⟩
      have hwanted := hfocus.wanted hroom w' hw' k hk hk'
      simpa only [Desk.wanted, hdrag] using hwanted
  | buttonClose =>
      refine absurd ?_ hengaged
      simp only [requestClose]
      split <;> exact cancelDrag_idle _
  | buttonMinimize | buttonMaximize | client | frame | none => exact absurd hdrag hengaged

theorem restores_press {s : Desk} {m : MouseEvent} (hpress : m.action = .press) (o : Outcome)
    (hengaged : (s.onMouse m o).drag ≠ .idle) : Restores s.wm (s.onMouse m o) := by
  unfold Desk.onMouse at hengaged ⊢
  have hmotion : ¬ (m.action = .motion ∧ m.button = 3) := by
    rintro ⟨hmotion, -⟩
    rw [hpress] at hmotion
    cases hmotion
  rw [if_neg hmotion] at hengaged ⊢
  split at hengaged
  · exact absurd (cancelDrag_idle s) hengaged
  next hno =>
  rw [if_neg hno]
  have hidle : s.drag = .idle := by
    by_contra hne
    exact hno ⟨hpress, hne⟩
  simp only [hidle, hpress] at hengaged ⊢
  unfold press at hengaged ⊢
  split at hengaged
  · exact absurd hidle hengaged
  next hcovers =>
  rw [if_neg hcovers]
  split at hengaged
  · exact absurd hidle hengaged
  next hpicked =>
  rw [if_neg hpicked]
  simp only at hengaged ⊢
  have hmem := @mem_of_target { s with covers := { s.covers with assist := false } } m.x m.y
  generalize ({ s with covers := { s.covers with assist := false } } : Desk).target m.x m.y = t at *
  cases t with
  | panel r =>
      refine absurd ?_ hengaged
      exact (pressPanel_drag _ m o r).trans hidle
  | desktop =>
      refine absurd ?_ hengaged
      unfold pressOn
      simp only
      split
      · exact hidle
      · exact hidle
  | window w zone =>
      exact restores_pressWindow (s := { s with covers := { s.covers with assist := false } }) hidle
        m o (hmem rfl) zone hengaged

/-- **A gesture that goes on**, whatever happens. -/
theorem Restores.run {v : Windows} {s : Desk} (h : Restores v s) {es : List Event}
    (hengaged : ∀ i < es.length, (Sshos.Lib.run Desk.step s (es.take i)).drag ≠ .idle)
    (hrelease : ∀ e ∈ es, ¬ e.IsRelease) : Restores v (Sshos.Lib.run Desk.step s es) := by
  induction es generalizing s with
  | nil => exact h
  | cons e es ih =>
      have hfirst : s.drag ≠ .idle := hengaged 0 (Nat.zero_lt_succ _)
      have hstep := h.step hfirst (hrelease e (List.mem_cons_self ..))
      refine ih hstep (fun i hi => ?_) fun e' he' => hrelease e' (List.mem_cons_of_mem _ he')
      exact hengaged (i + 1) (Nat.succ_lt_succ hi)

/-- The windows of `d` that are still in `d'` have the geometry they had. Windows may share a
number: what is compared is how many there are with this number and this geometry. -/
def NoTrace (d d' : Desktop) : Prop := (d'.keys.filter fun k => k.1 ∈ d.ids).Subperm d.keys

theorem noTrace_of_keepsUserRects {d d' : Desktop} (hids : d'.ids.Nodup)
    (h : Desktop.KeepsUserRects d d') : NoTrace d d' := by
  have hkeys : d'.keys.Nodup := List.Nodup.of_map Prod.fst (Desktop.ids_eq_keys d' ▸ hids)
  refine List.subperm_of_subset (hkeys.filter _) fun k hk => ?_
  obtain ⟨hmem, hold⟩ := List.mem_filter.1 hk
  obtain ⟨w', hw', rfl⟩ := List.mem_map.1 hmem
  obtain ⟨w, hw, hid⟩ := List.mem_map.1 (of_decide_eq_true hold)
  rw [h w hw w' hw' hid.symm]
  exact List.mem_map.2 ⟨w, hw, Prod.ext hid rfl⟩

/-- **An aborted gesture leaves no trace.** A press engages a gesture; whatever happens next,
as long as the pointer is not released, when the gesture is over every window has the
geometry it had before the press: the numbers have not come round. -/
theorem aborted_noTrace (s : Desk) (m : MouseEvent) (o : Outcome) (es : List Event)
    (hpress : m.action = .press) (hstart : (s.onMouse m o).drag ≠ .idle)
    (hengaged : ∀ i < es.length, (run step (s.onMouse m o) (es.take i)).drag ≠ .idle)
    (hend : (run step (s.onMouse m o) es).drag = .idle) (hrelease : ∀ e ∈ es, ¬ e.IsRelease)
    (hroom : (run step (s.onMouse m o) es).wm.openings < 2 ^ 32) :
    NoTrace s.wm.toDesktop (run step (s.onMouse m o) es).wm.toDesktop := by
  have hrestores := (restores_press hpress o hstart).run hengaged hrelease
  refine noTrace_of_keepsUserRects (Windows.distinct hroom) fun w hw w' hw' hid => ?_
  have hwanted := hrestores.wanted hroom w hw (w'.id, w'.app.userRect) (List.mem_map_of_mem hw') hid
  simpa only [Desk.wanted, hend] using hwanted

/-- Two terminals, the second one over the first. -/
def twoTerminals : Desk :=
  ((({} : Desk).compose 80 24 true false [] true).openFromCatalog kDefaultApp).compose 80 24 true
    false [] true

/-- The second one is dragged; the first one asks to close, and does. -/
theorem aborted_noTrace_closed :
    NoTrace twoTerminals.wm.toDesktop
      (run step (twoTerminals.onMouse { x := 12, y := 2 } {})
        [.mouse { x := 30, y := 12, action := .motion } {}, .asksClose 1,
          .compose 80 24 true false [] true]).wm.toDesktop :=
  aborted_noTrace twoTerminals { x := 12, y := 2 } {}
    [.mouse { x := 30, y := 12, action := .motion } {}, .asksClose 1,
      .compose 80 24 true false [] true] rfl (by decide +kernel) (by decide +kernel)
    (by decide +kernel) (by simp [Event.IsRelease]) (by decide +kernel)

/-! ### Numbers that come round -/

section Round

variable {v : Windows} {old : Win}

/-- A window that opens beside another comes in front, unless the other bears its number. -/
theorem open_beside (hstack : v.stack = [old]) (hmode : old.app.mode = .normal) (minSize : Size)
    (work : Rect) : ∃ new : Win, new.id = v.nextId ∧ new.app.userRect.w = kDefaultRect.w ∧
      (v.open (some minSize) work).stack = (if old.id = v.nextId then [new, old] else [old, new]) ∧
      (v.open (some minSize) work).nextId = (v.nextId + 1) % 2 ^ 32 ∧
      (v.open (some minSize) work).focused = v.nextId := by
  have hopen : (v.open (some minSize) work).toDesktop = v.toDesktop.open (some minSize) work := rfl
  rw [hopen]
  unfold Desktop.open Desktop.openAs
  rw [hstack, if_neg (by simp [WindowManager.kMaxWindows])]
  let userRect := { kDefaultRect with
    x := kDefaultRect.x + Wm.kCascadeDx * v.cascade
    y := kDefaultRect.y + Wm.kCascadeDy * v.cascade }
  refine ⟨{ id := v.nextId
            app := { userRect, displayRect := Wm.clampTo userRect work (Wm.frameMin minSize), minSize } },
    rfl, rfl, ?_, ?_, rfl⟩
  · simp only [Desktop.focus, Desktop.raise, Desktop.leaveFullscreen, WindowManager.raise, WindowManager.find,
      List.cons_append, List.nil_append, List.map_cons, List.map_nil, hmode]
    by_cases hid : old.id = v.nextId
    · simp [hid, userRect]
    · simp [hid, userRect]
  · simp only [Desktop.focus, Desktop.raise, Desktop.leaveFullscreen, WindowManager.raise]
    split <;> rfl

/-- It closes, and the other one has the focus. -/
theorem close_beside {new : Win} (hstack : v.stack = [old, new]) (hne : old.id ≠ new.id)
    (hfocused : v.focused = new.id) : (v.close new.id).stack = [old] ∧
      (v.close new.id).nextId = v.nextId ∧ (v.close new.id).focused = old.id := by
  have hclose : (v.close new.id).toWindowManager = v.toWindowManager.close new.id := rfl
  rw [hclose]
  unfold WindowManager.close WindowManager.find
  simp [hstack, hne, hfocused]

end Round

/-- A terminal is made narrow. -/
def narrowing : List Event :=
  [.compose 80 24 true false [] true, .mouse { x := 45, y := 5 } {},
    .mouse { x := 31, y := 14, action := .release } {}, .compose 80 24 true false [] true]

def narrowed : Desk := run step {} narrowing

/-- A window opens, with the focus. -/
def opens : Event := .key { ops := [.open (some ⟨10, 3⟩) narrowed.lastWork] }

/-- `n` windows beside it, each closed as soon as it is open. -/
def rounds : Nat → List Event
  | 0 => []
  | n + 1 => rounds n ++ [opens, .closes ((n + 2) % 2 ^ 32)]

theorem narrowed_idle : narrowed.drag = .idle ∧ narrowed.covers = {} := by decide +kernel

theorem step_opens (v : Windows) : step { narrowed with wm := v } opens =
    { narrowed with wm := v.open (some ⟨10, 3⟩) narrowed.lastWork } := by
  obtain ⟨hidle, hcovers⟩ := narrowed_idle
  show onKey _ _ = _
  unfold onKey covered
  rw [if_neg (not_not.2 hidle)]
  simp only [List.foldl_cons, List.foldl_nil, Option.getD_none, ← hcovers]
  rfl

theorem rounds_run {old : Win} (hstack : narrowed.wm.stack = [old]) (hid : old.id = 1)
    (hmode : old.app.mode = .normal) (n : Nat) (hn : n < 2 ^ 32) :
    ∃ v : Windows, run step narrowed (rounds n) = { narrowed with wm := v } ∧
      v.stack = [old] ∧ v.nextId = (n + 2) % 2 ^ 32 := by
  induction n with
  | zero => exact ⟨narrowed.wm, rfl, hstack, by decide +kernel⟩
  | succ n ih =>
      obtain ⟨v, hrun, hstack, hnext⟩ := ih (by omega)
      obtain ⟨new, hnew, -, hboth, hafter, hfocused⟩ :=
        open_beside hstack hmode ⟨10, 3⟩ narrowed.lastWork
      have hne : old.id ≠ new.id := by
        have hnumber : (1 : Nat) ≠ (n + 2) % 2 ^ 32 := by omega
        rw [hid, hnew, hnext]
        exact hnumber
      rw [if_neg (hnew ▸ hne)] at hboth
      obtain ⟨hleft, hthen, -⟩ := close_beside hboth hne (hfocused.trans hnew.symm)
      refine ⟨(v.open (some ⟨10, 3⟩) narrowed.lastWork).close new.id, ?_, hleft, ?_⟩
      · rw [rounds, run_append, hrun, Lib.run_cons, step_opens, ← hnext, ← hnew]
        rfl
      · rw [hthen, hafter, hnext, Nat.mod_add_mod]


/-- A press that nothing takes goes to the part of a window it falls on. -/
theorem onMouse_onWindow {s : Desk} {m : MouseEvent} {o : Outcome} {w : Win} {zone : WinHit}
    (hidle : s.drag = .idle) (hpress : m.action = .press)
    (huncovered : ¬ (s.covers.modal ∨ s.covers.help ∨ s.covers.menu))
    (hunpicked : ¬ (s.covers.assist ∧ o.picked)) (htarget : s.target m.x m.y = .window w zone) :
    s.onMouse m o =
      pressWindow { s with covers := { s.covers with assist := false } } m o w zone := by
  unfold onMouse
  rw [if_neg (by simp [hpress]), if_neg (by simp [hidle])]
  split
  · next hdrag => simp [hidle] at hdrag
  · next hdrag => simp [hidle] at hdrag
  rw [hpress]
  simp only
  unfold Desk.press
  rw [if_neg huncovered, if_neg hunpicked]
  exact congrArg (pressOn { s with covers := { s.covers with assist := false } } m o) htarget

/-- A press on the title of the window that has the focus. -/
theorem engages {s : Desk} {m : MouseEvent} {o : Outcome} {w : Win} (hidle : s.drag = .idle)
    (hpress : m.action = .press) (hcovers : s.covers = {}) (hfocused : s.wm.focused = w.id)
    (htarget : s.target m.x m.y = .window w .titleBar)
    (hundoubled : ¬ (m.x = s.lastClickX ∧ m.y = s.lastClickY ∧ s.now - s.lastClick ≤ kDoubleClick))
    (hmode : w.app.mode = .normal) :
    (s.onMouse m o).drag = .moving w.id (m.x - w.app.displayRect.x) (m.y - w.app.displayRect.y)
      w.app.userRect ∧ (s.onMouse m o).wm = s.wm := by
  rw [onMouse_onWindow hidle hpress (by simp [hcovers]) (by simp [hcovers]) htarget]
  unfold pressWindow
  simp only [hfocused, ne_eq, not_true_eq_false, if_false, hundoubled, hmode]
  exact ⟨trivial, trivial⟩

/-- After them all the next window bears the number of the narrow one, and comes behind it. -/
theorem comes_round : ∃ (past : List Event) (u : Windows) (new old : Win),
    run step {} past = { narrowed with wm := u } ∧ u.stack = [new, old] ∧ new.id = old.id ∧
      u.focused = old.id ∧ new.app.userRect.w = 44 ∧ old.app.mode = .normal ∧
      old.app.userRect = ⟨2, 1, 30, 14⟩ ∧ old.app.displayRect = ⟨2, 1, 30, 14⟩ := by
  obtain ⟨old, hold⟩ : ∃ old, narrowed.wm.stack = [old] := ⟨_, rfl⟩
  have hwas : narrowed.wm.stack.map (fun w => (w.id, w.app.mode, w.app.userRect, w.app.displayRect)) =
      [(1, .normal, ⟨2, 1, 30, 14⟩, ⟨2, 1, 30, 14⟩)] := by decide +kernel
  rw [hold] at hwas
  simp only [List.map_cons, List.map_nil, List.cons.injEq, and_true, Prod.mk.injEq] at hwas
  obtain ⟨hid, hmode, huser, hdisplay⟩ := hwas
  obtain ⟨n, hn⟩ : ∃ n, n + 2 = 2 ^ 32 + 1 := ⟨4294967295, rfl⟩
  obtain ⟨v, hrun, hstack, hnext⟩ := rounds_run hold hid hmode n (by omega)
  obtain ⟨new, hnew, hwide, hboth, -, hfocused⟩ := open_beside hstack hmode ⟨10, 3⟩ narrowed.lastWork
  have hround : v.nextId = old.id := by
    have hnumber : (n + 2) % 2 ^ 32 = 1 := by omega
    rw [hnext, hid]
    exact hnumber
  rw [if_pos hround.symm] at hboth
  rw [hround] at hnew hfocused
  refine ⟨narrowing ++ rounds n ++ [opens], _, new, old, ?_, hboth, hnew, hfocused, hwide, hmode, huser, hdisplay⟩
  rw [run_append, run_append]
  show run step (run step narrowed (rounds n)) [opens] = _
  rw [hrun]
  exact step_opens v

section Shared

variable {u : Windows} {new old : Win} (hstack : u.stack = [new, old]) (hid : new.id = old.id)

include hstack

theorem target_front (hmode : old.app.mode = .normal) (hdisplay : old.app.displayRect = ⟨2, 1, 30, 14⟩) :
    target { narrowed with wm := u } 12 1 = .window old .titleBar := by
  have hpanel : (narrowed.panel.hit 12 1).what = .none := by decide +kernel
  have hhit : u.hit 12 1 = some old := by
    unfold Desktop.hit
    simp [hstack, hdisplay, hmode, Desktop.Visible, Rect.contains]
  have hzone : (Wm.hitWindow old 12 1).what = .titleBar := by
    unfold Wm.hitWindow
    rw [hdisplay]
    rfl
  unfold target
  simp only [hpanel, hhit, hzone]
  rfl

include hid

/-- What is written through the number goes to the window behind. -/
theorem keys_setUserRect_behind (r : Rect) :
    (u.setUserRect old.id r).keys = [(old.id, r), (old.id, old.app.userRect)] := by
  have hgo : (u.setUserRect old.id r).stack =
      Desktop.change.go old.id (fun f => { f with userRect := r }) u.stack := rfl
  simp only [Desktop.keys, hgo, hstack, Desktop.change.go, hid, if_true, List.map_cons, List.map_nil]

/-- One window was narrow, and then there are two. -/
theorem not_noTrace (hwide : new.app.userRect.w = 44) (hnarrow : old.app.userRect.w = 30) :
    ¬ NoTrace u.toDesktop (u.setUserRect old.id old.app.userRect).toDesktop := by
  intro hnotrace
  have hcount := hnotrace.countP_le fun k => k.2.w = 30
  rw [keys_setUserRect_behind hstack hid] at hcount
  simp [Desktop.keys, Desktop.ids, hstack, hwide, hnarrow] at hcount

end Shared

/-- A move of the window in front is given up at once, and writes the one behind. -/
theorem not_all_aborted_noTrace : ¬ ∀ (past : List Event) (m : MouseEvent) (o : Outcome) (es : List Event),
    m.action = .press → ((run step {} past).onMouse m o).drag ≠ .idle →
      (∀ i < es.length, (run step ((run step {} past).onMouse m o) (es.take i)).drag ≠ .idle) →
      (run step ((run step {} past).onMouse m o) es).drag = .idle → (∀ e ∈ es, ¬ e.IsRelease) →
      NoTrace (run step {} past).wm.toDesktop
        (run step ((run step {} past).onMouse m o) es).wm.toDesktop := by
  intro hall
  obtain ⟨past, u, new, old, hrun, hstack, hid, hfocused, hwide, hmode, huser, hdisplay⟩ := comes_round
  have htrace := hall past { x := 12, y := 1 } {} [.key {}] rfl
  rw [hrun] at htrace
  obtain ⟨hidle, hcovers⟩ := narrowed_idle
  have hundoubled : ¬ ((12 : Int) = narrowed.lastClickX ∧ (1 : Int) = narrowed.lastClickY ∧
      narrowed.now - narrowed.lastClick ≤ kDoubleClick) := by decide +kernel
  obtain ⟨hdrag, hwm⟩ := engages (s := { narrowed with wm := u }) (m := { x := 12, y := 1 }) (o := {})
    hidle rfl hcovers hfocused (target_front hstack hmode hdisplay) hundoubled hmode
  generalize onMouse { narrowed with wm := u } { x := 12, y := 1 } {} = s at *
  obtain rfl : s.wm = u := hwm
  have hmoves : s.drag ≠ .idle := by simp [hdrag]
  have hkey : run step s [.key {}] =
      { s with wm := s.wm.setUserRect old.id old.app.userRect, drag := .idle } := by
    show s.onKey {} = _
    unfold onKey
    rw [if_pos hmoves]
    unfold cancelDrag
    rw [hdrag]
  rw [hkey] at htrace
  refine not_noTrace hstack hid hwide (by rw [huser]) (htrace hmoves (fun i hi => ?_) rfl ?_)
  · obtain rfl : i = 0 := by simpa using hi
    exact hmoves
  · simp [Event.IsRelease]

end Desk

end Sshos.Daemon
