import Mathlib.Data.List.Perm.Basic
import Sshos.Apps.Guest

/-!
# Sshos.Apps.Tabs

The **tabs** of a terminal window and their shells: opening, closing, and what
the window does when it is told that a child has died.

A closed tab whose shell is not reaped yet waits in `closing`. When the window
learns that some child of its own died, it does not learn which one, so it tries
to reap the shell of every tab.
-/

namespace Sshos.Apps

open Sshos (Kernel Pid Pty)

/-- A terminal window, as far as its shells are concerned. -/
structure Terminal where
  tabs : List Tab
  /-- Closed tabs whose shells are still to be reaped. -/
  closing : List Tab
  deriving DecidableEq

namespace Terminal

/-- Every tab the window holds, open or closing. -/
def all (t : Terminal) : List Tab := t.tabs ++ t.closing

/-- The tab of a shell just spawned, or of a spawn that failed. -/
def newTab (shell : Option Pid) : Tab :=
  match shell with
  | none => { pty := {} }
  | some p => { pty := .spawned p }

/-- A window comes with one tab, whether or not its shell could be started. -/
def attach (shell : Option Pid) : Terminal := ⟨[newTab shell], []⟩

def openTab (t : Terminal) (p : Pid) : Terminal := { t with tabs := t.tabs ++ [newTab (some p)] }

/-- The tab is destroyed, and its pseudo-terminal closed with it. -/
def destroyTab (k : Kernel) (t : Tab) : Kernel := (t.pty.shutdown k).1

/-- Close tab `i`. The last tab only asks for the window to be closed. -/
def closeTab (k : Kernel) (t : Terminal) (i : Nat) : Kernel × Terminal :=
  match t.tabs[i]? with
  | none => (k, t)
  | some dying =>
      if t.tabs.length = 1 then (k, t)
      else
        let tabs := t.tabs.eraseIdx i
        let (k, pty) := dying.pty.shutdown k
        if pty.pid.isSome then
          let (reaped, k, pty) := pty.tryReap k
          if reaped then (destroyTab k { dying with pty := pty }, { t with tabs := tabs })
          else (k, ⟨tabs, t.closing ++ [{ dying with pty := pty }]⟩)
        else (destroyTab k { dying with pty := pty }, { t with tabs := tabs })

/-- Try to reap the shell of every tab of a list. -/
def reapTabs (k : Kernel) : List Tab → Kernel × List Tab
  | [] => (k, [])
  | t :: ts =>
      let (_, k, pty) := t.pty.tryReap k
      let (k, ts) := reapTabs k ts
      (k, { t with pty := pty } :: ts)

/-- Some child of the window died: try every tab, and let go of the closed tabs
whose end is now known. -/
def onChildExit (k : Kernel) (t : Terminal) : Kernel × Terminal :=
  let (k, tabs) := reapTabs k t.tabs
  let (k, closing) := reapTabs k t.closing
  (k, ⟨tabs, closing.filter fun t => !t.pty.exited⟩)

/-- The window is destroyed with all its tabs. -/
def destroy (k : Kernel) (t : Terminal) : Kernel := t.all.foldl destroyTab k

/-! ### Shells -/

/-- The shells of a list of tabs. -/
def shellsOf (ts : List Tab) : List Pid := ts.filterMap fun t => t.pty.pid

/-- The shells behind the window's tabs, open or closing. -/
def shells (t : Terminal) : List Pid := shellsOf t.all

/-- No tab of the window has recorded the end of its shell. -/
def Running (t : Terminal) : Prop := ∀ x ∈ t.all, x.pty.exited = false

theorem shellsOf_append (ts us : List Tab) : shellsOf (ts ++ us) = shellsOf ts ++ shellsOf us :=
  List.filterMap_append

theorem mem_shellsOf {ts : List Tab} {p : Pid} :
    p ∈ shellsOf ts ↔ ∃ t ∈ ts, t.pty.pid = some p := List.mem_filterMap

theorem target_of_running {t : Tab} (h : t.pty.exited = false) : t.pty.target = t.pty.pid := by
  simp [Pty.target, h]

/-- Destroying a tab with no shell to signal is silent. -/
theorem destroyTab_of_target {k : Kernel} {t : Tab} (h : t.pty.target = none) :
    destroyTab k t = k := by
  have hclose : t.pty.closeMaster.target = none := h
  simp only [destroyTab, Pty.shutdown, Pty.hangup, Pty.killNow, h, hclose]

theorem destroyTab_of_exited {k : Kernel} {t : Tab} (h : t.pty.exited = true) :
    destroyTab k t = k :=
  destroyTab_of_target (by simp [Pty.target, h])

/-- Destroying tabs that never recorded an end only signals their shells. -/
theorem destroy_spec {k : Kernel} (ts : List Tab) (hk : k.SignalsSafe)
    (hp : ∀ p ∈ shellsOf ts, p ∉ Kernel.pidsOf k.reaped) :
    let k' := ts.foldl destroyTab k
    k'.fresh = k.fresh ∧ k'.zombies = k.zombies ∧ k'.reaped = k.reaped ∧ k'.SignalsSafe := by
  induction ts generalizing k with
  | nil => exact ⟨rfl, rfl, rfl, hk⟩
  | cons t ts ih =>
      obtain ⟨h₁, h₂, h₃⟩ := Pty.shutdown_kernel k t.pty
      have hsafe : (destroyTab k t).SignalsSafe := by
        refine Pty.shutdown_signalsSafe hk fun p htarget => ?_
        have hpid : t.pty.pid = some p := by
          unfold Pty.target at htarget
          split at htarget
          · cases htarget
          · exact htarget
        exact hp p (mem_shellsOf.2 ⟨t, List.mem_cons_self, hpid⟩)
      have hp' : ∀ p ∈ shellsOf ts, p ∉ Kernel.pidsOf (destroyTab k t).reaped := by
        intro p hmem
        obtain ⟨x, hx, hpid⟩ := mem_shellsOf.1 hmem
        rw [destroyTab, h₃]
        exact hp p (mem_shellsOf.2 ⟨x, List.mem_cons_of_mem t hx, hpid⟩)
      obtain ⟨g₁, g₂, g₃, g₄⟩ := ih hsafe hp'
      exact ⟨g₁.trans h₁, g₂.trans h₂, g₃.trans h₃, g₄⟩

/-- What closing a tab does to a window whose shells are all unreaped: either the
window holds the same shells as before, or the one of the closed tab was a zombie
and is reaped. -/
structure Closed (k : Kernel) (t : Terminal) (r : Kernel × Terminal) : Prop where
  fresh : r.1.fresh = k.fresh
  safe : r.1.SignalsSafe
  running : r.2.Running
  shells :
    (r.2.shells.Perm t.shells ∧ r.1.zombies = k.zombies ∧ r.1.reaped = k.reaped) ∨
      ∃ p st, t.shells.Perm (p :: r.2.shells) ∧ (p, st) ∈ k.zombies ∧
        r.1.zombies = k.zombies.eraseP (fun z => z.1 = p) ∧ r.1.reaped = (p, st) :: k.reaped

/-- The three ends of a tab that is really closed: it had no shell, its shell was
dead already, or it waits in `closing`. -/
theorem closeTab_eq {k : Kernel} {t : Terminal} {i : Nat} {dying : Tab}
    (hi : t.tabs[i]? = some dying) (hone : t.tabs.length ≠ 1) :
    let k₁ := (dying.pty.shutdown k).1
    let r := dying.pty.closeMaster.tryReap k₁
    closeTab k t i =
      if dying.pty.pid.isSome then
        if r.1 then (destroyTab r.2.1 { dying with pty := r.2.2 },
          { t with tabs := t.tabs.eraseIdx i })
        else (r.2.1, ⟨t.tabs.eraseIdx i, t.closing ++ [{ dying with pty := r.2.2 }]⟩)
      else (destroyTab k₁ { dying with pty := dying.pty.closeMaster },
        { t with tabs := t.tabs.eraseIdx i }) := by
  simp only [closeTab, hi, hone, if_false]
  rfl

/-- The tabs that stay are running. -/
theorem Running.eraseIdx {t : Terminal} (h : t.Running) (i : Nat) :
    ∀ x ∈ t.tabs.eraseIdx i ++ t.closing, x.pty.exited = false := by
  intro x hx
  refine h x ?_
  rcases List.mem_append.1 hx with hx | hx
  · exact List.mem_append_left _ (List.mem_of_mem_eraseIdx hx)
  · exact List.mem_append_right _ hx

/-- The shells of a window: that of one tab, then those of the others. -/
theorem shells_eraseIdx {t : Terminal} {i : Nat} {dying : Tab} (hi : t.tabs[i]? = some dying) :
    t.shells.Perm (shellsOf [dying] ++ shellsOf (t.tabs.eraseIdx i ++ t.closing)) := by
  obtain ⟨hlt, hget⟩ := List.getElem?_eq_some_iff.1 hi
  rw [← shellsOf_append]
  have hperm : (dying :: t.tabs.eraseIdx i).Perm t.tabs :=
    hget ▸ List.getElem_cons_eraseIdx_perm hlt
  exact (hperm.symm.append_right t.closing).filterMap _

/-- Those of a window where the tab waits among the closing ones. -/
theorem shells_waiting (tabs closing : List Tab) {dying : Tab} {p : Pid}
    (hpid : dying.pty.pid = some p) :
    shells ⟨tabs, closing ++ [{ dying with pty := dying.pty.closeMaster }]⟩ =
      shellsOf (tabs ++ closing) ++ [p] := by
  have hlast : shellsOf [{ dying with pty := dying.pty.closeMaster }] = [p] := by
    simp [shellsOf, Pty.closeMaster, hpid]
  rw [shells, all, ← List.append_assoc, shellsOf_append, hlast]

theorem closeTab_spec {k : Kernel} {t : Terminal} (hk : k.SignalsSafe) (hrun : t.Running)
    (hp : ∀ p ∈ t.shells, p ∉ Kernel.pidsOf k.reaped) (i : Nat) :
    Closed k t (closeTab k t i) := by
  have hsame : Closed k t (k, t) := ⟨rfl, hk, hrun, .inl ⟨.refl _, rfl, rfl⟩⟩
  cases hi : t.tabs[i]? with
  | none => simpa only [closeTab, hi] using hsame
  | some dying =>
      by_cases hone : t.tabs.length = 1
      · simpa only [closeTab, hi, hone, if_true] using hsame
      have hmem : dying ∈ t.all := List.mem_append_left _ (List.mem_of_getElem? hi)
      have hrest := hrun.eraseIdx i
      have hshells := shells_eraseIdx hi
      have htarget := target_of_running (hrun dying hmem)
      obtain ⟨h₁, h₂, h₃⟩ := Pty.shutdown_kernel k dying.pty
      have hsafe : (dying.pty.shutdown k).1.SignalsSafe := by
        refine Pty.shutdown_signalsSafe hk fun p hpid => ?_
        exact hp p (mem_shellsOf.2 ⟨dying, hmem, htarget ▸ hpid⟩)
      rw [closeTab_eq hi hone]
      cases hpid : dying.pty.pid with
      | none =>
          have hdestroy : destroyTab (dying.pty.shutdown k).1
              { dying with pty := dying.pty.closeMaster } = (dying.pty.shutdown k).1 :=
            destroyTab_of_target (htarget.trans hpid)
          have hnone : shellsOf [dying] = [] := by simp [shellsOf, hpid]
          rw [hnone, List.nil_append] at hshells
          simp only [Option.isSome_none, Bool.false_eq_true, if_false, hdestroy]
          exact ⟨h₁, hsafe, hrest, .inl ⟨hshells.symm, h₂, h₃⟩⟩
      | some p =>
          have hdying : shellsOf [dying] = [p] := by simp [shellsOf, hpid]
          rw [hdying] at hshells
          simp only [Option.isSome_some, if_true]
          rcases Pty.tryReap_cases (dying.pty.shutdown k).1 dying.pty.closeMaster with
            ⟨heq, -⟩ | ⟨q, st, hq, hz, heq⟩
          · -- Still running: it waits among the closing tabs.
            simp only [heq, Bool.false_eq_true, if_false]
            refine ⟨h₁, hsafe, ?_, .inl ⟨?_, h₂, h₃⟩⟩
            · intro x hx
              simp only [all, ← List.append_assoc, List.mem_append, List.mem_singleton] at hx
              rcases hx with hx | rfl
              · exact hrest x (List.mem_append.2 hx)
              · exact hrun dying hmem
            · rw [shells_waiting _ _ hpid]
              exact List.perm_append_comm.trans hshells.symm
          · -- Already dead: its end is recorded, and the tab is gone.
            have hqp : q = p := by
              have hself : dying.pty.closeMaster.target = some p := htarget.trans hpid
              exact Option.some.inj (hq.symm.trans hself)
            subst hqp
            simp only [heq, if_true]
            rw [destroyTab_of_exited (Pty.record_exited _ _)]
            refine ⟨h₁, hsafe, hrest, .inr ⟨q, st, hshells, h₂ ▸ hz, ?_, ?_⟩⟩
            · rw [h₂]
            · rw [h₃]

/-! ### Telling a window that a child died -/

/-- Reaping can only take zombies away. -/
theorem reapTabs_zombies (k : Kernel) (ts : List Tab) :
    (reapTabs k ts).1.zombies.Sublist k.zombies := by
  induction ts generalizing k with
  | nil => exact List.Sublist.refl _
  | cons t ts ih =>
      simp only [reapTabs]
      refine (ih _).trans ?_
      rcases Pty.tryReap_cases k t.pty with ⟨heq, -⟩ | ⟨p, st, -, -, heq⟩
      · rw [heq]
      · rw [heq]
        exact List.eraseP_sublist

/-- A tab whose shell was reaped elsewhere never learns of it. -/
theorem reapTabs_lost {k : Kernel} {ts : List Tab} {t : Tab} {p : Pid} (ht : t ∈ ts)
    (hpid : t.pty.pid = some p) (hrun : t.pty.exited = false)
    (hp : p ∉ Kernel.pidsOf k.zombies) : t ∈ (reapTabs k ts).2 := by
  induction ts generalizing k with
  | nil => cases ht
  | cons x ts ih =>
      simp only [reapTabs]
      rcases List.mem_cons.1 ht with rfl | ht
      · rcases Pty.tryReap_cases k t.pty with ⟨heq, -⟩ | ⟨q, st, hq, hz, -⟩
        · rw [heq]
          exact List.mem_cons_self
        · rw [target_of_running hrun, hpid] at hq
          cases hq
          exact absurd (List.mem_map_of_mem hz) hp
      · refine List.mem_cons_of_mem _ (ih ht ?_)
        intro hmem
        rcases Pty.tryReap_cases k x.pty with ⟨heq, -⟩ | ⟨q, st, -, -, heq⟩
        · rw [heq] at hmem
          exact hp hmem
        · rw [heq] at hmem
          exact hp ((List.eraseP_sublist.map Prod.fst).subset hmem)

theorem onChildExit_zombies (k : Kernel) (t : Terminal) :
    (onChildExit k t).1.zombies.Sublist k.zombies :=
  (reapTabs_zombies _ _).trans (reapTabs_zombies _ _)

theorem onChildExit_lost {k : Kernel} {t : Terminal} {x : Tab} {p : Pid} (hx : x ∈ t.all)
    (hpid : x.pty.pid = some p) (hrun : x.pty.exited = false)
    (hp : p ∉ Kernel.pidsOf k.zombies) : x ∈ (onChildExit k t).2.all := by
  rcases List.mem_append.1 hx with hx | hx
  · exact List.mem_append_left _ (reapTabs_lost hx hpid hrun hp)
  · refine List.mem_append_right _ (List.mem_filter.2 ⟨?_, by simp [hrun]⟩)
    refine reapTabs_lost hx hpid hrun fun hmem => hp ?_
    exact ((reapTabs_zombies _ _).map Prod.fst).subset hmem

end Terminal

end Sshos.Apps
