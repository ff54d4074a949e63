import Sshos.Apps.Tabs
import Sshos.Wm.Manager

/-!
# Sshos.Daemon.Reap

**Child exits**, from the kernel to the tab whose shell died.

On `SIGCHLD` the daemon waits for any dead child (`reapChildren`), looks up the
window the pid belongs to, and tells that window that some child died; the window
then tries to reap the shell of each of its tabs (`Terminal.onChildExit`). But a
child is reaped once: by the time the window tries, the pid that caused the call
is gone. The module follows the whole table of windows, tabs and children over
arbitrary runs and shows that a delivery is right exactly when there was nothing
to deliver.
-/

namespace Sshos.Daemon

open Sshos (Kernel Pid WaitStatus)
open Sshos.Lib (run StepsMeet)
open Sshos.Apps (Tab Terminal)
open Sshos.Apps.Terminal (shellsOf mem_shellsOf)
open Sshos.Wm (WindowId)

structure Window where
  id : WindowId
  term : Terminal
  deriving DecidableEq

/-- The kernel, and the part of the session that deals with children. -/
structure World where
  kernel : Kernel
  windows : List Window
  nextWindow : WindowId
  /-- The children entrusted by the windows' applications. -/
  children : List (Pid × WindowId)
  /-- The children of the update service, which has no window. -/
  service : List Pid

namespace World

def init : World := ⟨.init, [], 1, [], []⟩

/-! ### Windows -/

def findWindow (ws : List Window) (id : WindowId) : Option Terminal :=
  match ws with
  | [] => none
  | w :: ws => if w.id = id then some w.term else findWindow ws id

def setWindow (ws : List Window) (id : WindowId) (t : Terminal) : List Window :=
  match ws with
  | [] => []
  | w :: ws => if w.id = id then { w with term := t } :: ws else w :: setWindow ws id t

def dropWindow (ws : List Window) (id : WindowId) : List Window :=
  ws.eraseP fun w => w.id = id

/-- A window that is found stands somewhere in the table, and setting or dropping
it touches nothing else. -/
theorem findWindow_split {ws : List Window} {id : WindowId} {t : Terminal}
    (h : findWindow ws id = some t) :
    ∃ pre post, ws = pre ++ ⟨id, t⟩ :: post ∧ (∀ w ∈ pre, w.id ≠ id) ∧
      (∀ t', setWindow ws id t' = pre ++ ⟨id, t'⟩ :: post) ∧
      dropWindow ws id = pre ++ post := by
  induction ws with
  | nil => cases h
  | cons w ws ih =>
      obtain ⟨wid, wt⟩ := w
      simp only [findWindow] at h
      split at h
      · next heq =>
          subst heq
          cases h
          exact ⟨[], ws, rfl, by simp, fun t' => by simp [setWindow], by simp [dropWindow]⟩
      · next hne =>
          obtain ⟨pre, post, hws, hpre, hset, hdrop⟩ := ih h
          refine ⟨⟨wid, wt⟩ :: pre, post, by simp [hws], ?_, fun t' => ?_, ?_⟩
          · intro x hx
            rcases List.mem_cons.1 hx with rfl | hx
            · exact hne
            · exact hpre x hx
          · simp [setWindow, hne, hset]
          · rw [dropWindow, List.eraseP_cons_of_neg (by simpa using hne)]
            exact congrArg _ hdrop

/-! ### Operations -/

/-- A new window with a terminal, whose shell may fail to start. -/
def openWindow (s : World) (spawns : Bool) : World :=
  let id := s.nextWindow
  if spawns then
    let (p, k) := s.kernel.fork
    { s with
      kernel := k
      windows := s.windows ++ [⟨id, .attach (some p)⟩]
      nextWindow := id + 1
      children := s.children ++ [(p, id)] }
  else { s with windows := s.windows ++ [⟨id, .attach none⟩], nextWindow := id + 1 }

/-- A new tab. One whose shell does not start is taken back at once. -/
def openTab (s : World) (id : WindowId) (spawns : Bool) : World :=
  match findWindow s.windows id with
  | none => s
  | some t =>
      if spawns then
        let (p, k) := s.kernel.fork
        { s with
          kernel := k
          windows := setWindow s.windows id (t.openTab p)
          children := s.children ++ [(p, id)] }
      else s

def closeTab (s : World) (id : WindowId) (i : Nat) : World :=
  match findWindow s.windows id with
  | none => s
  | some t =>
      let (k, t) := t.closeTab s.kernel i
      { s with kernel := k, windows := setWindow s.windows id t }

/-- The window goes with its terminal, and its children are forgotten. -/
def closeWindow (s : World) (id : WindowId) : World :=
  match findWindow s.windows id with
  | none => s
  | some t =>
      { s with
        kernel := t.destroy s.kernel
        windows := dropWindow s.windows id
        children := s.children.filter fun c => c.2 ≠ id }

/-- The update service launches a child of its own. -/
def launchService (s : World) : World :=
  let (p, k) := s.kernel.fork
  { s with kernel := k, service := p :: s.service }

def die (s : World) (p : Pid) (st : WaitStatus) (place : Nat) : World :=
  { s with kernel := s.kernel.die p st place }

/-- A child has been reaped: find whom to tell. A child of the service has no
window; an unknown pid is ignored; otherwise the entry goes, and the window is
told that some child of its own died. -/
def onChildExit (s : World) (p : Pid) : World :=
  if p ∈ s.service then { s with service := s.service.erase p }
  else
    match s.children.find? (fun c => c.1 = p) with
    | none => s
    | some c =>
        let s := { s with children := s.children.eraseP fun c => c.1 = p }
        match findWindow s.windows c.2 with
        | none => s
        | some t =>
            let (k, t) := t.onChildExit s.kernel
            { s with kernel := k, windows := setWindow s.windows c.2 t }

/-- The loop of `reapChildren`. A turn takes at least one zombie away, so as many
turns as there are zombies suffice (`reapChildren_zombies`). -/
def reapLoop : Nat → World → World
  | 0, s => s
  | n + 1, s =>
      match s.kernel.waitAny with
      | (none, _) => s
      | (some z, k) => reapLoop n ({ s with kernel := k }.onChildExit z.1)

def reapChildren (s : World) : World := reapLoop s.kernel.zombies.length s

inductive Op
  | openWindow (spawns : Bool)
  | openTab (id : WindowId) (spawns : Bool)
  | closeTab (id : WindowId) (i : Nat)
  | closeWindow (id : WindowId)
  | launchService
  | die (p : Pid) (st : WaitStatus) (place : Nat)
  | reapChildren

def step (s : World) : Op → World
  | .openWindow spawns => s.openWindow spawns
  | .openTab id spawns => s.openTab id spawns
  | .closeTab id i => s.closeTab id i
  | .closeWindow id => s.closeWindow id
  | .launchService => s.launchService
  | .die p st place => s.die p st place
  | .reapChildren => s.reapChildren

/-! ### What a delivery must achieve -/

/-- The tab `t` is open in window `id`. -/
def HasTab (s : World) (id : WindowId) (t : Tab) : Prop :=
  ∃ w ∈ s.windows, w.id = id ∧ t ∈ w.term.tabs

/-- The shell of `t` has died. -/
def ShellDied (s : World) (t : Tab) : Prop := ∃ p st, t.pty.pid = some p ∧ s.kernel.Died p st

/-- The exits known to the kernel in `s` have been delivered in `s'`: an open tab
whose shell died reports that end, the other open tabs are as they were, and no
closed tab still waits for a shell that died. -/
structure Delivered (s s' : World) : Prop where
  opened : ∀ id t, s'.HasTab id t → ∀ p st, t.pty.pid = some p → s.kernel.Died p st →
    t.pty.Reports st
  others : ∀ id t, ¬ s.ShellDied t → (s'.HasTab id t ↔ s.HasTab id t)
  closed : ∀ w ∈ s'.windows, ∀ t ∈ w.term.closing, ¬ s.ShellDied t

/-- The shells behind all the tabs of all the windows, open or closing. -/
def shells (s : World) : List Pid := s.windows.flatMap fun w => w.term.shells

/-- No tab, open or closing, has a dead shell that nobody has waited for. -/
def NothingToDeliver (s : World) : Prop := ∀ p ∈ s.shells, p ∉ Kernel.pidsOf s.kernel.zombies

/-- The steps along which no exit is lost: children are reaped only when there is
no tab to tell. -/
def Harmless (s : World) : Op → Prop
  | .reapChildren => s.NothingToDeliver
  | _ => True

/-! ### The invariant of harmless runs -/

/-- While no exit has been lost, every tab of every window has a shell that is
running or waiting to be reaped. -/
structure Inv (s : World) : Prop where
  sane : s.kernel.Sane
  shells_nodup : s.shells.Nodup
  shells_lt : ∀ p ∈ s.shells, p < s.kernel.fresh
  shells_unreaped : ∀ p ∈ s.shells, p ∉ Kernel.pidsOf s.kernel.reaped
  running : ∀ w ∈ s.windows, w.term.Running
  watched : ∀ c ∈ s.children, c.1 ∈ Kernel.pidsOf s.kernel.reaped ∨
    ∃ w ∈ s.windows, w.id = c.2 ∧ c.1 ∈ w.term.shells
  safe : s.kernel.SignalsSafe

theorem inv_init : init.Inv where
  sane := Kernel.sane_init
  shells_nodup := List.nodup_nil
  shells_lt := by simp [init, shells]
  shells_unreaped := by simp [init, shells]
  running := by simp [init]
  watched := by simp [init]
  safe := by simp [init, Kernel.init, Kernel.SignalsSafe]

/-- The shells, with those of one window in front. -/
theorem shells_split {s : World} {pre post : List Window} {w : Window}
    (h : s.windows = pre ++ w :: post) :
    s.shells.Perm (w.term.shells ++ (pre ++ post).flatMap fun w => w.term.shells) := by
  simp only [shells, h, List.flatMap_append, List.flatMap_cons, ← List.append_assoc]
  exact List.perm_append_comm.append_right _

theorem shells_openTab (t : Terminal) (p : Pid) : (t.openTab p).shells.Perm (p :: t.shells) := by
  simp only [Terminal.openTab, Terminal.shells, Terminal.all, Terminal.shellsOf_append]
  exact List.perm_append_comm.append_right _

/-- A fresh pid joins the shells of a window, old or new. -/
theorem inv_fork {s s' : World} (h : s.Inv) (id : WindowId)
    (hkernel : s'.kernel = s.kernel.fork.2) (hshells : s'.shells.Perm (s.kernel.fresh :: s.shells))
    (hrunning : ∀ w ∈ s'.windows, w.term.Running)
    (hkept : ∀ w ∈ s.windows, ∃ w' ∈ s'.windows, w'.id = w.id ∧
      ∀ p ∈ w.term.shells, p ∈ w'.term.shells)
    (hnew : ∃ w ∈ s'.windows, w.id = id ∧ s.kernel.fresh ∈ w.term.shells)
    (hchildren : s'.children = s.children ++ [(s.kernel.fresh, id)]) : s'.Inv := by
  have hfresh : s'.kernel.fresh = s.kernel.fresh + 1 := by rw [hkernel]; rfl
  have hreaped : s'.kernel.reaped = s.kernel.reaped := by rw [hkernel]; rfl
  have hmem : ∀ p ∈ s'.shells, p = s.kernel.fresh ∨ p ∈ s.shells := fun p hp =>
    List.mem_cons.1 (hshells.mem_iff.1 hp)
  refine ⟨hkernel ▸ h.sane.fork, ?_, ?_, ?_, hrunning, ?_, hkernel ▸ h.safe⟩
  · refine hshells.nodup_iff.2 (List.nodup_cons.2 ⟨fun hp => ?_, h.shells_nodup⟩)
    exact Nat.lt_irrefl _ (h.shells_lt _ hp)
  · intro p hp
    rw [hfresh]
    rcases hmem p hp with rfl | hp
    · exact Nat.lt_succ_self _
    · exact Nat.lt_succ_of_lt (h.shells_lt p hp)
  · intro p hp
    rw [hreaped]
    rcases hmem p hp with rfl | hp
    · exact fun hr => Nat.lt_irrefl _ (h.sane.reaped_lt _ hr)
    · exact h.shells_unreaped p hp
  · intro c hc
    rw [hchildren] at hc
    rw [hreaped]
    rcases List.mem_append.1 hc with hc | hc
    · rcases h.watched c hc with hr | ⟨w, hw, hid, hp⟩
      · exact .inl hr
      · obtain ⟨w', hw', hid', hsub⟩ := hkept w hw
        exact .inr ⟨w', hw', hid'.trans hid, hsub _ hp⟩
    · rw [List.mem_singleton.1 hc]
      exact .inr hnew

theorem inv_openWindow {s : World} (h : s.Inv) (spawns : Bool) : (s.openWindow spawns).Inv := by
  have hkept : ∀ t, ∀ w ∈ s.windows, ∃ w' ∈ s.windows ++ [⟨s.nextWindow, t⟩], w'.id = w.id ∧
      ∀ p ∈ w.term.shells, p ∈ w'.term.shells :=
    fun t w hw => ⟨w, List.mem_append_left _ hw, rfl, fun _ hp => hp⟩
  have hrunning : ∀ shell, ∀ w ∈ s.windows ++ [⟨s.nextWindow, .attach shell⟩], w.term.Running := by
    intro shell w hw
    rcases List.mem_append.1 hw with hw | hw
    · exact h.running w hw
    · rw [List.mem_singleton.1 hw]
      intro x hx
      have : x = Terminal.newTab shell := by simpa [Terminal.attach, Terminal.all] using hx
      rw [this]
      cases shell <;> rfl
  cases spawns with
  | true =>
      refine inv_fork h s.nextWindow rfl ?_ (hrunning _) (hkept _)
        ⟨_, List.mem_append_right _ (List.mem_singleton.2 rfl), rfl, ?_⟩ rfl
      · have : (s.openWindow true).shells = s.shells ++ [s.kernel.fresh] := by
          simp [openWindow, shells, Terminal.attach, Terminal.shells, Terminal.all, Kernel.fork,
            Terminal.newTab, shellsOf, Pty.spawned]
        rw [this]
        exact List.perm_append_comm
      · simp [Terminal.attach, Terminal.shells, Terminal.all, Terminal.newTab, shellsOf,
          Pty.spawned]
  | false =>
      have hshells : (s.openWindow false).shells = s.shells := by
        simp [openWindow, shells, Terminal.attach, Terminal.shells, Terminal.all,
          Terminal.newTab, shellsOf]
      refine ⟨h.sane, hshells ▸ h.shells_nodup, hshells ▸ h.shells_lt,
        hshells ▸ h.shells_unreaped, hrunning _, ?_, h.safe⟩
      intro c hc
      rcases h.watched c hc with hr | ⟨w, hw, hid, hp⟩
      · exact .inl hr
      · exact .inr ⟨w, List.mem_append_left _ hw, hid, hp⟩

/-- Membership in a table where one window has been replaced. -/
theorem mem_replaced {pre post : List Window} {w v : Window} :
    v ∈ pre ++ w :: post ↔ v ∈ pre ++ post ∨ v = w := by
  simp only [List.mem_append, List.mem_cons]
  tauto

theorem inv_openTab {s : World} (h : s.Inv) (id : WindowId) (spawns : Bool) :
    (s.openTab id spawns).Inv := by
  cases hf : findWindow s.windows id with
  | none => simpa only [openTab, hf] using h
  | some t =>
      cases spawns with
      | false => simpa only [openTab, hf, Bool.false_eq_true, if_false] using h
      | true =>
          obtain ⟨pre, post, hws, -, hset, -⟩ := findWindow_split hf
          have heq : s.openTab id true =
              { s with
                kernel := s.kernel.fork.2
                windows := pre ++ ⟨id, t.openTab s.kernel.fresh⟩ :: post
                children := s.children ++ [(s.kernel.fresh, id)] } := by
            simp only [openTab, hf, if_true, Kernel.fork, hset]
          have ht := h.running ⟨id, t⟩ (hws ▸ mem_replaced.2 (.inr rfl))
          have hnew := shells_openTab t s.kernel.fresh
          rw [heq]
          refine inv_fork h id rfl ?_ ?_ ?_
            ⟨_, mem_replaced.2 (.inr rfl), rfl, hnew.mem_iff.2 List.mem_cons_self⟩ rfl
          · refine (shells_split (s := { s with windows := _ }) rfl).trans ?_
            refine (hnew.append_right _).trans ?_
            exact List.Perm.cons _ (shells_split hws).symm
          · intro w hw
            rcases mem_replaced.1 hw with hw | rfl
            · exact h.running w (hws ▸ mem_replaced.2 (.inl hw))
            · intro x hx
              simp only [Terminal.openTab, Terminal.all, List.mem_append,
                List.mem_singleton] at hx
              rcases hx with (hx | rfl) | hx
              · exact ht x (List.mem_append_left _ hx)
              · rfl
              · exact ht x (List.mem_append_right _ hx)
          · intro w hw
            rw [hws] at hw
            rcases mem_replaced.1 hw with hw | rfl
            · exact ⟨w, mem_replaced.2 (.inl hw), rfl, fun _ hp => hp⟩
            · exact ⟨_, mem_replaced.2 (.inr rfl), rfl, fun p hp =>
                hnew.mem_iff.2 (List.mem_cons_of_mem _ hp)⟩

/-- The entries of the table still name a shell or one that has been reaped, when one window has
lost no shell but to the reaping. -/
theorem Inv.watched_replaced {s : World} (h : s.Inv) {pre post : List Window} {id : WindowId}
    {t t' : Terminal} (hws : s.windows = pre ++ ⟨id, t⟩ :: post) {reaped : List Pid}
    (hr : ∀ p ∈ Kernel.pidsOf s.kernel.reaped, p ∈ reaped)
    (hkept : ∀ p ∈ t.shells, p ∈ reaped ∨ p ∈ t'.shells) :
    ∀ c ∈ s.children, c.1 ∈ reaped ∨
      ∃ w ∈ pre ++ (⟨id, t'⟩ : Window) :: post, w.id = c.2 ∧ c.1 ∈ w.term.shells := by
  intro c hc
  rcases h.watched c hc with hold | ⟨w, hw, hid, hp⟩
  · exact .inl (hr _ hold)
  rw [hws] at hw
  rcases mem_replaced.1 hw with hw | rfl
  · exact .inr ⟨w, mem_replaced.2 (.inl hw), hid, hp⟩
  · rcases hkept _ hp with hgone | hstill
    · exact .inl hgone
    · exact .inr ⟨_, mem_replaced.2 (.inr rfl), hid, hstill⟩

theorem inv_closeTab {s : World} (h : s.Inv) (id : WindowId) (i : Nat) :
    (s.closeTab id i).Inv := by
  cases hf : findWindow s.windows id with
  | none => simpa only [closeTab, hf] using h
  | some t =>
      obtain ⟨pre, post, hws, -, hset, -⟩ := findWindow_split hf
      have hin : (⟨id, t⟩ : Window) ∈ s.windows := hws ▸ mem_replaced.2 (.inr rfl)
      have hsub : ∀ p ∈ t.shells, p ∈ s.shells := fun p hp =>
        List.mem_flatMap.2 ⟨_, hin, hp⟩
      have hclosed := Terminal.closeTab_spec h.safe (h.running _ hin)
        (fun p hp => h.shells_unreaped p (hsub p hp)) i
      have heq : s.closeTab id i =
          { s with
            kernel := (t.closeTab s.kernel i).1
            windows := pre ++ ⟨id, (t.closeTab s.kernel i).2⟩ :: post } := by
        simp only [closeTab, hf, hset]
      rw [heq]
      generalize t.closeTab s.kernel i = r at hclosed
      obtain ⟨hfresh, hsafe, hrun, hshells⟩ := hclosed
      have hold := shells_split hws
      have hnew := shells_split
        (s := { s with kernel := r.1, windows := pre ++ ⟨id, r.2⟩ :: post }) rfl
      have hrunning : ∀ w ∈ pre ++ (⟨id, r.2⟩ : Window) :: post, w.term.Running := by
        intro w hw
        rcases mem_replaced.1 hw with hw | rfl
        · exact h.running w (hws ▸ mem_replaced.2 (.inl hw))
        · exact hrun
      rcases hshells with ⟨hperm, hz, hr⟩ | ⟨p, st, hperm, hz, hz', hr⟩
      · -- The shells are the same, in another order.
        have hsame := hnew.trans ((hperm.append_right _).trans hold.symm)
        refine ⟨?_, hsame.nodup_iff.2 h.shells_nodup, ?_, ?_, hrunning, ?_, hsafe⟩
        · exact ⟨hz ▸ h.sane.zombies_nodup, hz ▸ hr ▸ h.sane.zombies_unreaped,
            hz ▸ hfresh ▸ h.sane.zombies_lt, hr ▸ hfresh ▸ h.sane.reaped_lt⟩
        · exact fun p hp => hfresh ▸ h.shells_lt p (hsame.mem_iff.1 hp)
        · exact fun p hp => hr ▸ h.shells_unreaped p (hsame.mem_iff.1 hp)
        · exact h.watched_replaced hws (fun p hp => hr ▸ hp) fun p hp => .inr (hperm.mem_iff.2 hp)
      · -- The shell `p` of the closed tab has been reaped, and it alone.
        have hcons : s.shells.Perm (p :: World.shells
            { s with kernel := r.1, windows := pre ++ ⟨id, r.2⟩ :: post }) :=
          hold.trans ((hperm.append_right _).trans (List.Perm.cons _ hnew.symm))
        obtain ⟨hp, hnodup⟩ := List.nodup_cons.1 (hcons.nodup_iff.1 h.shells_nodup)
        have hmem : ∀ q ∈ World.shells
            { s with kernel := r.1, windows := pre ++ ⟨id, r.2⟩ :: post }, q ∈ s.shells :=
          fun q hq => hcons.mem_iff.2 (List.mem_cons_of_mem _ hq)
        refine ⟨?_, hnodup, ?_, ?_, hrunning, ?_, hsafe⟩
        · exact h.sane.reap hz hfresh (hz' ▸ List.eraseP_sublist)
            (hz' ▸ h.sane.not_mem_eraseP p) hr
        · exact fun q hq => hfresh ▸ h.shells_lt q (hmem q hq)
        · intro q hq
          simp only [hr, Kernel.pidsOf, List.map_cons, List.mem_cons, not_or]
          exact ⟨fun hqp => hp (hqp ▸ hq), h.shells_unreaped q (hmem q hq)⟩
        · refine h.watched_replaced hws (fun q hq => ?_) fun q hq => ?_
          · rw [hr]
            exact List.mem_cons_of_mem _ hq
          · rw [hr]
            rcases List.mem_cons.1 (hperm.mem_iff.1 hq) with rfl | hq
            · exact .inl (List.mem_cons_self ..)
            · exact .inr hq

theorem inv_closeWindow {s : World} (h : s.Inv) (id : WindowId) : (s.closeWindow id).Inv := by
  cases hf : findWindow s.windows id with
  | none => simpa only [closeWindow, hf] using h
  | some t =>
      obtain ⟨pre, post, hws, -, -, hdrop⟩ := findWindow_split hf
      have hin : (⟨id, t⟩ : Window) ∈ s.windows := hws ▸ mem_replaced.2 (.inr rfl)
      have heq : s.closeWindow id =
          { s with
            kernel := t.destroy s.kernel
            windows := pre ++ post
            children := s.children.filter fun c => c.2 ≠ id } := by
        simp only [closeWindow, hf, hdrop]
      rw [heq]
      obtain ⟨hfresh, hz, hr, hsafe⟩ := Terminal.destroy_spec t.all h.safe
        fun p hp => h.shells_unreaped p (List.mem_flatMap.2 ⟨_, hin, hp⟩)
      have hcons := shells_split hws
      have hmem : ∀ p ∈ (pre ++ post).flatMap (fun w => w.term.shells), p ∈ s.shells :=
        fun p hp => hcons.mem_iff.2 (List.mem_append_right _ hp)
      refine ⟨?_, (hcons.nodup_iff.1 h.shells_nodup).of_append_right, ?_, ?_, ?_, ?_, hsafe⟩
      · simp only [Terminal.destroy]
        exact ⟨hz ▸ h.sane.zombies_nodup, hz ▸ hr ▸ h.sane.zombies_unreaped,
          hz ▸ hfresh ▸ h.sane.zombies_lt, hr ▸ hfresh ▸ h.sane.reaped_lt⟩
      · exact fun p hp => Nat.lt_of_lt_of_eq (h.shells_lt p (hmem p hp)) hfresh.symm
      · intro p hp
        simp only [Terminal.destroy, hr]
        exact h.shells_unreaped p (hmem p hp)
      · exact fun w hw => h.running w (hws ▸ mem_replaced.2 (.inl hw))
      · intro c hc
        simp only [Terminal.destroy, hr]
        obtain ⟨hc, hne⟩ := List.mem_filter.1 hc
        rcases h.watched c hc with hc' | ⟨w, hw, hid, hp⟩
        · exact .inl hc'
        · -- The entries of the closed window are gone, so this one is of another.
          rw [hws] at hw
          rcases mem_replaced.1 hw with hw | rfl
          · exact .inr ⟨w, hw, hid, hp⟩
          · simp [← hid] at hne

theorem inv_launchService {s : World} (h : s.Inv) : s.launchService.Inv where
  sane := h.sane.fork
  shells_nodup := h.shells_nodup
  shells_lt := fun p hp => Nat.lt_succ_of_lt (h.shells_lt p hp)
  shells_unreaped := h.shells_unreaped
  running := h.running
  watched := h.watched
  safe := h.safe

theorem inv_die {s : World} (h : s.Inv) (p : Pid) (st : WaitStatus) (place : Nat) :
    (s.die p st place).Inv := by
  have hk : (s.kernel.die p st place).fresh = s.kernel.fresh ∧
      (s.kernel.die p st place).reaped = s.kernel.reaped ∧
      (s.kernel.die p st place).signals = s.kernel.signals := by
    unfold Kernel.die
    split <;> exact ⟨rfl, rfl, rfl⟩
  obtain ⟨hfresh, hr, hsig⟩ := hk
  refine ⟨h.sane.die p st place, h.shells_nodup, ?_, ?_, h.running, ?_, ?_⟩
  · exact fun q hq => Nat.lt_of_lt_of_eq (h.shells_lt q hq) hfresh.symm
  · exact fun q hq => hr ▸ h.shells_unreaped q hq
  · exact fun c hc => hr ▸ h.watched c hc
  · exact fun x hx => h.safe x (hsig ▸ hx)

/-! ### Reaping -/

/-- The state in which `onChildExit` is called for the first zombie. -/
def popped (s : World) (z : Pid × WaitStatus) (zs : List (Pid × WaitStatus)) : World :=
  { s with kernel := { s.kernel with zombies := zs, reaped := z :: s.kernel.reaped } }

theorem reapLoop_cons {s : World} {z : Pid × WaitStatus} {zs : List (Pid × WaitStatus)}
    (hz : s.kernel.zombies = z :: zs) (n : Nat) :
    reapLoop (n + 1) s = reapLoop n ((s.popped z zs).onChildExit z.1) := by
  simp only [reapLoop, Kernel.waitAny, hz, popped]

theorem onChildExit_zombies (s : World) (p : Pid) :
    (s.onChildExit p).kernel.zombies.Sublist s.kernel.zombies := by
  unfold onChildExit
  split
  · exact .refl _
  · split
    · exact .refl _
    · simp only
      split
      · exact .refl _
      · exact Terminal.onChildExit_zombies _ _

/-- The loop ends because no dead child is left. -/
theorem reapChildren_zombies (s : World) : s.reapChildren.kernel.zombies = [] := by
  have hloop : ∀ (n : Nat) (s : World), s.kernel.zombies.length ≤ n →
      (reapLoop n s).kernel.zombies = [] := by
    intro n
    induction n with
    | zero => exact fun s hn => List.length_eq_zero_iff.1 (Nat.le_zero.1 hn)
    | succ n ih =>
        intro s hn
        cases hz : s.kernel.zombies with
        | nil => simp only [reapLoop, Kernel.waitAny, hz]
        | cons z zs =>
            rw [reapLoop_cons hz]
            refine ih _ (Nat.le_trans (onChildExit_zombies _ _).length_le ?_)
            rw [hz] at hn
            exact Nat.le_of_succ_le_succ hn
  exact hloop _ s (Nat.le_refl _)

/-- A zombie that is nobody's shell is reaped without a trace in the windows. -/
theorem onChildExit_of_not_shell {s : World} (h : s.Inv) {z : Pid × WaitStatus}
    {zs : List (Pid × WaitStatus)} (hz : s.kernel.zombies = z :: zs) (hp : z.1 ∉ s.shells) :
    let s' := (s.popped z zs).onChildExit z.1
    s'.Inv ∧ s'.kernel = (s.popped z zs).kernel ∧ s'.windows = s.windows := by
  have hzmem : z.1 ∈ Kernel.pidsOf s.kernel.zombies := by
    rw [hz]; exact List.mem_cons_self
  have hsane : (s.popped z zs).kernel.Sane := by
    have hnodup := h.sane.zombies_nodup
    rw [hz] at hnodup
    refine h.sane.reap (z := z) (by rw [hz]; exact List.mem_cons_self) rfl ?_
      (List.nodup_cons.1 hnodup).1 rfl
    rw [hz]
    exact List.sublist_cons_self z zs
  have hinv : ∀ service, ({ s.popped z zs with service := service } : World).Inv := by
    intro service
    refine ⟨hsane, h.shells_nodup, h.shells_lt, ?_, h.running, ?_, h.safe⟩
    · intro q hq
      simp only [popped, Kernel.pidsOf, List.map_cons, List.mem_cons, not_or]
      exact ⟨fun hqp => hp (hqp ▸ hq), h.shells_unreaped q hq⟩
    · intro c hc
      simp only [popped, Kernel.pidsOf, List.map_cons, List.mem_cons]
      rcases h.watched c hc with hr | hw
      · exact .inl (.inr hr)
      · exact .inr hw
  -- No entry of the table names this pid.
  have hnone : (s.popped z zs).children.find? (fun c => c.1 = z.1) = none := by
    refine List.find?_eq_none.2 fun c hc => ?_
    intro heq
    have hcz : c.1 = z.1 := by simpa using heq
    rcases h.watched c hc with hr | ⟨w, hw, -, hcw⟩
    · exact h.sane.zombies_unreaped _ hzmem (hcz ▸ hr)
    · exact hp (List.mem_flatMap.2 ⟨w, hw, hcz ▸ hcw⟩)
  intro s'
  by_cases hserv : z.1 ∈ (s.popped z zs).service
  · have : s' = { s.popped z zs with service := (s.popped z zs).service.erase z.1 } := by
      simp only [s', onChildExit, hserv, if_true]
    rw [this]
    exact ⟨hinv _, rfl, rfl⟩
  · have : s' = s.popped z zs := by simp only [s', onChildExit, hserv, if_false, hnone]
    rw [this]
    exact ⟨hinv _, rfl, rfl⟩

/-- With nothing to deliver, reaping leaves the windows as they are. -/
theorem reapChildren_of_nothing {s : World} (h : s.Inv) (hnot : s.NothingToDeliver) :
    s.reapChildren.Inv ∧ s.reapChildren.windows = s.windows := by
  unfold reapChildren
  generalize hzs : s.kernel.zombies = l
  induction l generalizing s with
  | nil => exact ⟨h, rfl⟩
  | cons z zs ih =>
      have hp : z.1 ∉ s.shells := fun hmem =>
        hnot z.1 hmem (by rw [hzs]; exact List.mem_cons_self)
      obtain ⟨hinv, hk, hw⟩ := onChildExit_of_not_shell h hzs hp
      rw [List.length_cons, reapLoop_cons hzs]
      generalize (s.popped z zs).onChildExit z.1 = s' at hinv hk hw
      have hnot' : s'.NothingToDeliver := by
        intro p hp hmem
        refine hnot p (by simpa only [shells, hw] using hp) ?_
        rw [hk] at hmem
        rw [hzs]
        exact List.mem_cons_of_mem _ hmem
      obtain ⟨h₁, h₂⟩ := ih hinv hnot' (by rw [hk]; rfl)
      exact ⟨h₁, h₂.trans hw⟩

theorem inv_step (s : World) (op : Op) (h : s.Inv) (hok : s.Harmless op) : (s.step op).Inv := by
  cases op with
  | openWindow spawns => exact inv_openWindow h spawns
  | openTab id spawns => exact inv_openTab h id spawns
  | closeTab id i => exact inv_closeTab h id i
  | closeWindow id => exact inv_closeWindow h id
  | launchService => exact inv_launchService h
  | die p st place => exact inv_die h p st place
  | reapChildren => exact (reapChildren_of_nothing h hok).1

/-! ### Lost exits -/

/-- The window keeps a tab that claims its shell `p` is running, while `p` is not
among the zombies any more. -/
def Lost (s : World) (p : Pid) : Prop :=
  p ∉ Kernel.pidsOf s.kernel.zombies ∧
    ∃ w ∈ s.windows, ∃ t ∈ w.term.all, t.pty.pid = some p ∧ t.pty.exited = false

theorem lost_onChildExit {s : World} {p : Pid} (h : s.Lost p) (q : Pid) :
    (s.onChildExit q).Lost p := by
  obtain ⟨hp, w, hw, t, ht, hpid, hrun⟩ := h
  unfold onChildExit
  split
  · exact ⟨hp, w, hw, t, ht, hpid, hrun⟩
  · cases hc : s.children.find? (fun c => c.1 = q) with
    | none => exact ⟨hp, w, hw, t, ht, hpid, hrun⟩
    | some c =>
        simp only
        cases hf : findWindow s.windows c.2 with
        | none => exact ⟨hp, w, hw, t, ht, hpid, hrun⟩
        | some u =>
            obtain ⟨pre, post, hws, -, hset, -⟩ := findWindow_split hf
            have hsub := Terminal.onChildExit_zombies s.kernel u
            refine ⟨fun hmem => hp ((hsub.map Prod.fst).subset hmem), ?_⟩
            simp only [hset]
            rw [hws] at hw
            rcases mem_replaced.1 hw with hw | rfl
            · exact ⟨w, mem_replaced.2 (.inl hw), t, ht, hpid, hrun⟩
            · exact ⟨_, mem_replaced.2 (.inr rfl), t,
                Terminal.onChildExit_lost ht hpid hrun hp, hpid, hrun⟩

theorem lost_reapLoop {s : World} {p : Pid} (h : s.Lost p) (n : Nat) : (reapLoop n s).Lost p := by
  induction n generalizing s with
  | zero => exact h
  | succ n ih =>
      cases hz : s.kernel.zombies with
      | nil => simpa only [reapLoop, Kernel.waitAny, hz] using h
      | cons z zs =>
          rw [reapLoop_cons hz]
          have hpop : (s.popped z zs).Lost p :=
            ⟨fun hmem => h.1 (hz ▸ List.mem_cons_of_mem _ hmem), h.2⟩
          exact ih (lost_onChildExit hpop z.1)

/-- If there is something to deliver, the first exit to be delivered is lost. -/
theorem reapChildren_loses {s : World} (h : s.Inv) (hsome : ¬ s.NothingToDeliver) :
    ∃ z ∈ s.kernel.zombies, s.reapChildren.Lost z.1 := by
  unfold reapChildren
  generalize hzs : s.kernel.zombies = l
  induction l generalizing s with
  | nil =>
      refine absurd ?_ hsome
      intro p _ hmem
      rw [hzs] at hmem
      cases hmem
  | cons z zs ih =>
      rw [List.length_cons, reapLoop_cons hzs]
      by_cases hp : z.1 ∈ s.shells
      · refine ⟨z, List.mem_cons_self, lost_reapLoop (lost_onChildExit ?_ _) _⟩
        obtain ⟨w, hw, hshell⟩ := List.mem_flatMap.1 hp
        obtain ⟨t, ht, hpid⟩ := mem_shellsOf.1 hshell
        have hnodup := h.sane.zombies_nodup
        rw [hzs] at hnodup
        exact ⟨(List.nodup_cons.1 hnodup).1, w, hw, t, ht, hpid, h.running w hw t ht⟩
      · obtain ⟨hinv, hk, hw⟩ := onChildExit_of_not_shell h hzs hp
        generalize (s.popped z zs).onChildExit z.1 = s' at hinv hk hw
        have hsome' : ¬ s'.NothingToDeliver := by
          refine fun hnot => hsome fun p hps hmem => ?_
          rw [hzs] at hmem
          rcases List.mem_cons.1 hmem with rfl | hmem
          · exact hp hps
          · refine hnot p (by simpa only [shells, hw] using hps) ?_
            rw [hk]
            exact hmem
        obtain ⟨y, hy, hlost⟩ := ih hinv hsome' (by rw [hk]; rfl)
        exact ⟨y, List.mem_cons_of_mem _ hy, hlost⟩

/-- **Delivery, exactly when.** Along a run that has lost no exit so far, no signal
went to a reaped leader; and reaping the children now delivers every exit if and
only if no tab has an exit to be delivered. -/
theorem reapChildren_delivers_iff {ops : List Op} (hok : StepsMeet step Harmless init ops) :
    let s := run step init ops
    s.kernel.SignalsSafe ∧ (Delivered s s.reapChildren ↔ s.NothingToDeliver) := by
  intro s
  have hinv : s.Inv := Lib.run_invariant inv_step inv_init hok
  refine ⟨hinv.safe, fun hdel => ?_, fun hnot => ?_⟩
  · by_contra hsome
    obtain ⟨z, hz, hgone, w, hw, t, ht, hpid, hrun⟩ := reapChildren_loses hinv hsome
    have hdied : s.kernel.Died z.1 z.2 := .inl hz
    rcases List.mem_append.1 ht with ht | ht
    · have := hdel.opened w.id t ⟨w, hw, rfl, ht⟩ _ _ hpid hdied
      exact absurd (hrun.symm.trans this.1) (by decide)
    · exact hdel.closed w hw t ht ⟨_, _, hpid, hdied⟩
  · obtain ⟨-, hw⟩ := reapChildren_of_nothing hinv hnot
    -- Every shell of a tab is alive: neither a zombie nor reaped.
    have halive : ∀ w ∈ s.windows, ∀ t ∈ w.term.all, ¬ s.ShellDied t := by
      rintro w hw t ht ⟨p, st, hpid, hdied⟩
      have hp : p ∈ s.shells := List.mem_flatMap.2 ⟨w, hw, mem_shellsOf.2 ⟨t, ht, hpid⟩⟩
      rcases hdied with hz | hr
      · exact hnot p hp (List.mem_map_of_mem hz)
      · exact hinv.shells_unreaped p hp (List.mem_map_of_mem hr)
    refine ⟨?_, ?_, ?_⟩
    · rintro id t ⟨w, hmem, -, ht⟩ p st hpid hdied
      rw [hw] at hmem
      exact absurd ⟨p, st, hpid, hdied⟩ (halive w hmem t (List.mem_append_left _ ht))
    · intro id t _
      simp only [HasTab, hw]
    · intro w hmem t ht
      rw [hw] at hmem
      exact halive w hmem t (List.mem_append_right _ ht)

/-- Two windows, one of which is closed while its shell runs on. -/
theorem reapChildren_delivers_iff_closed :
    let s := run step init [.openWindow true, .openWindow true, .closeWindow 1,
      .die 1 (.signaled 9) 0]
    s.kernel.SignalsSafe ∧ Delivered s s.reapChildren := by
  obtain ⟨hsafe, hiff⟩ := @reapChildren_delivers_iff [.openWindow true, .openWindow true,
    .closeWindow 1, .die 1 (.signaled 9) 0] (by simp [StepsMeet, Harmless])
  refine ⟨hsafe, hiff.2 ?_⟩
  show ∀ p ∈ ([2] : List Pid), p ∉ ([1] : List Pid)
  decide

/-- One window, whose shell exits: after reaping, its tab still claims to be
running, and closing the window signals a leader that was reaped. -/
theorem exit_of_only_tab_lost :
    let s := run step init [.openWindow true, .die 1 (.exited 3) 0]
    ¬ Delivered s s.reapChildren ∧ ¬ (s.reapChildren.closeWindow 1).kernel.SignalsSafe := by
  constructor
  · intro h
    have hrep := h.opened 1 (Terminal.newTab (some 1)) ⟨_, List.mem_cons_self, rfl, by decide⟩ 1
      (.exited 3) rfl (.inl (by decide))
    exact absurd hrep.1 (by decide)
  · intro h
    exact absurd (h (1, true) (by decide)) (by decide)

end World

end Sshos.Daemon
