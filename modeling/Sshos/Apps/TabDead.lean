import Sshos.Apps.TabbedSteps

/-!
# Sshos.Apps.TabDead

What becomes of a tab whose **guest is gone**: reading its master reports the end, and the
watch on it should go.

The status that says so is given up to the session and looked at by nobody, and an end told by
`EIO` is not even noticed. The module shows that everything the guest wrote was read by then,
and that the watch stays.
-/

namespace Sshos.Apps.Tabbed

open Sshos.Daemon (Epoll HostImpl)
open Sshos.Input (KeyEvent MouseEvent)
open Sshos.Lib (Bytes run StepsMeet)

theorem reads_ended {closed zero : Bool} {sizes : List Nat} {unread : Bytes}
    (h : (Line.reads closed zero sizes unread).2.2 ≠ .nothing) :
    (Line.reads closed zero sizes unread).2.1 = [] := by
  induction sizes generalizing unread with
  | nil =>
      cases unread with
      | nil => rfl
      | cons b unread => exact absurd rfl h
  | cons size sizes ih =>
      cases unread with
      | nil => rfl
      | cons b unread => exact ih h

namespace Terminal

variable {t t' : Terminal}

/-- With this event the window reads the master of tab `i` to its end. -/
def Ends (t : Terminal) (key : UInt64) (a : Answers) (i : Nat) : Prop :=
  t.host.owns key = true ∧ t.watcher key = some i ∧ (t.readsOf i a).2.2 ≠ .nothing

/-- Everything the guest wrote has been fed to its parser. -/
def Drained (t : Terminal) (i : Input) : Prop :=
  ∀ key a n, i = .io key a → t.Ends key a n → ((t.step i).tab n).fed = ((t.step i).tab n).line.wrote

/-- Epoll no longer watches for the token. -/
def Released (t : Terminal) (i : Input) : Prop :=
  ∀ key a n, i = .io key a → t.Ends key a n → ∀ j ∈ (t.step i).epoll, j.key ≠ key

/-- The host's watches are in epoll, each for a descriptor of its own. -/
structure Lockstep (host : HostImpl) (ep : Epoll) : Prop where
  known : ∀ p ∈ host.watched, ∃ j ∈ ep, j.key = p.1 ∧ j.fd = p.2
  once : (host.watched.map Prod.snd).Nodup

theorem Lockstep.watch {host : HostImpl} {ep : Epoll} (h : Lockstep host ep) (gen : UInt32) {fd : Int}
    (hfree : ∀ j ∈ ep, j.fd ≠ fd) (events : UInt32) :
    Lockstep (host.watch gen ep fd events).2.1 (host.watch gen ep fd events).2.2.2 := by
  have hnew : ep.watch (Daemon.makeKey host.win gen) fd events =
      ep ++ [⟨fd, Daemon.makeKey host.win gen, events⟩] := by
    unfold Epoll.watch
    refine if_neg fun hany => ?_
    obtain ⟨j, hj, heq⟩ := List.any_eq_true.1 hany
    exact hfree j hj (beq_iff_eq.1 heq)
  have hepoll : (host.watch gen ep fd events).2.2.2 = ep ++ [⟨fd, Daemon.makeKey host.win gen, events⟩] := hnew
  refine ⟨fun p hp => ?_, ?_⟩
  · rw [hepoll]
    rcases List.mem_append.1 hp with hp | hp
    · obtain ⟨j, hj, heq⟩ := h.known p hp
      exact ⟨j, List.mem_append_left _ hj, heq⟩
    · rw [List.mem_singleton.1 hp]
      exact ⟨_, List.mem_append_right _ (List.mem_singleton_self _), rfl, rfl⟩
  · show ((host.watched ++ [(Daemon.makeKey host.win gen, fd)]).map Prod.snd).Nodup
    rw [List.map_append]
    refine List.nodup_append.2 ⟨h.once, List.nodup_singleton _, ?_⟩
    intro x hx y hy heq
    obtain ⟨p, hp, rfl⟩ := List.mem_map.1 hx
    obtain ⟨j, hj, -, hfd⟩ := h.known p hp
    rw [List.map_singleton, List.mem_singleton] at hy
    exact hfree j hj (hfd.trans (heq.trans hy))

theorem Lockstep.unwatch {host : HostImpl} {ep : Epoll} (h : Lockstep host ep) (token : UInt64) :
    Lockstep (host.unwatch ep token).1 (host.unwatch ep token).2 := by
  unfold HostImpl.unwatch
  cases hfind : host.watched.find? fun p => p.1 == token with
  | none => exact h
  | some p =>
      have hperm := (Lib.perm_eraseP_append hfind).map Prod.snd
      have hnodup := hperm.nodup_iff.2 h.once
      rw [List.map_append] at hnodup
      obtain ⟨hrest, -, hapart⟩ := List.nodup_append.1 hnodup
      refine ⟨fun q hq => ?_, hrest⟩
      obtain ⟨j, hj, hkey, hfd⟩ := h.known q (List.eraseP_sublist.subset hq)
      refine ⟨j, List.mem_filter.2 ⟨hj, ?_⟩, hkey, hfd⟩
      have hne : q.2 ≠ p.2 := hapart q.2 (List.mem_map_of_mem hq) p.2 (by simp)
      rw [hfd]
      exact decide_eq_true hne

/-- The window's watches, as far as the host and epoll go. -/
def Wired (t : Terminal) : Prop := Lockstep t.host t.epoll

theorem Wired.openTab (h : t.Wired) (master : Option Nat) : (t.openTab master).Wired := by
  cases master with
  | none => exact h
  | some fd => exact Lockstep.watch h t.fdGen (freeFd_not_used t.epoll fd) kEpollIn

theorem Wired.closeTab (h : t.Wired) (i : Nat) : (t.closeTab i).Wired := by
  unfold Terminal.closeTab
  cases t.tabs[i]? with
  | none => exact h
  | some dying =>
      simp only
      split
      · exact h
      · show Lockstep (Prod.fst (if dying.watching then t.host.unwatch t.epoll dying.token
          else (t.host, t.epoll))) (Prod.snd (if dying.watching then t.host.unwatch t.epoll dying.token
          else (t.host, t.epoll)))
        split
        · exact Lockstep.unwatch h dying.token
        · exact h

theorem Wired.selectTab (h : t.Wired) (i : Nat) : (t.selectTab i).Wired := by
  unfold Terminal.selectTab
  split <;> exact h

theorem Wired.commit (h : t.Wired) : t.commitRename.Wired ∧ t.commitPathEdit.Wired := by
  unfold Terminal.commitRename Terminal.commitPathEdit
  constructor <;> split <;> exact h

theorem Wired.fieldKey (h : t.Wired) {commit : Terminal} (hcommit : commit.Wired) (most : Nat) (k : KeyEvent) :
    (t.fieldKey commit most k).Wired := by
  unfold Terminal.fieldKey
  split
  · exact hcommit
  · exact h
  · exact h
  · split <;> exact h
  · exact h

theorem Wired.barClick (h : t.Wired) (x : Int) (master : Option Nat) : (t.barClick x master).Wired := by
  unfold Terminal.barClick
  cases t.barSlots.find? fun s => decide (s.x ≤ x ∧ x < s.x + s.w) with
  | none => exact h
  | some s =>
      simp only
      cases s.kind with
      | new => exact h.openTab master
      | settings => exact h
      | close => exact h.closeTab s.tab
      | select =>
          simp only
          split
          · exact h
          · exact h.selectTab s.tab

theorem Wired.onKey (h : t.Wired) (k : KeyEvent) (master : Option Nat) : (t.onKey k master).Wired := by
  have hguest : (t.guestKey k).Wired := by
    unfold guestKey
    split
    · split <;> exact h
    · exact h
  unfold Terminal.onKey
  cases t.mode with
  | «renaming» => exact h.fieldKey h.commit.1 kMaxName k
  | editingPath => exact h.fieldKey h.commit.2 kMaxPath k
  | normal =>
      simp only
      unfold gesture
      repeat' split
      · exact h.openTab master
      · exact h.closeTab t.active
      · exact h.selectTab _
      · exact h.selectTab _
      · exact h
      · exact hguest

theorem Wired.onMouse (h : t.Wired) (m : MouseEvent) (master : Option Nat) : (t.onMouse m master).Wired := by
  have hcommit : (if m.action = .press then t.commitRename.commitPathEdit else t).Wired := by
    split
    · exact h.commit.1.commit.2
    · exact h
  unfold Terminal.onMouse
  simp only
  generalize (if m.action = .press then t.commitRename.commitPathEdit else t) = s at hcommit
  split
  · split
    · exact hcommit.barClick m.x master
    · exact hcommit
  · unfold guestMouse
    split
    · split <;> exact hcommit
    · exact hcommit

theorem Wired.onPaste (h : t.Wired) (text : Bytes) (complete : Bool) : (t.onPaste text complete).Wired := by
  have hfield : ∀ most : Nat, (if t.edit.length < most then
      { t with edit := t.edit ++ (cleanPasteOneLine text).take (most - t.edit.length) } else t).Wired := by
    intro most
    split <;> exact h
  unfold Terminal.onPaste
  split
  · exact hfield _
  · split <;> exact h

/-- Reading a master changes nothing of the watches. -/
theorem Sane.onFdEvent_epoll (h : t.Sane) (key : UInt64) (a : Answers) :
    (t.onFdEvent key a).host = t.host ∧ (t.onFdEvent key a).epoll = t.epoll := by
  unfold Terminal.onFdEvent
  split
  · cases hi : t.watcher key with
    | none =>
        unfold onIo
        rw [hi]
        exact ⟨rfl, rfl⟩
    | some i =>
        obtain ⟨title, heq⟩ := h.onIo_spec hi a
        rw [heq]
        exact ⟨rfl, rfl⟩
  · exact ⟨rfl, rfl⟩

theorem Wired.step (h : t.Wired) (hsane : t.Sane) (i : Input) : (t.step i).Wired := by
  cases i with
  | io key a =>
      obtain ⟨hhost, hepoll⟩ := hsane.onFdEvent_epoll key a
      show Lockstep (t.onFdEvent key a).host (t.onFdEvent key a).epoll
      rw [hhost, hepoll]
      exact h
  | key k master => exact h.onKey k master
  | mouse m master => exact h.onMouse m master
  | paste text complete => exact h.onPaste text complete
  | resize w h' =>
      show (t.onResize w h').Wired
      unfold onResize
      split <;> exact h
  | _ => exact h

theorem Wired.start (win : UInt32) (app : Nat) (fdGen : UInt32) (master : Option Nat) :
    (start win app fdGen master).Wired := by
  have hnone : Lockstep { win := win, app := app } [] := ⟨nofun, List.nodup_nil⟩
  cases master with
  | none => exact hnone
  | some fd => exact hnone.watch fdGen nofun kEpollIn

/-- The end comes after all the guest wrote. -/
theorem Sane.drained (h : t.Sane) (i : Input) : t.Drained i := by
  rintro key a n rfl ⟨howns, hi, hends⟩
  obtain ⟨title, heq⟩ := h.onIo_spec hi a
  have hlt := watcher_lt hi
  have hstep : (t.step (.io key a)).tab n = readTab (t.tab n) (t.readsOf n a) := by
    show (t.onFdEvent key a).tab n = _
    unfold Terminal.onFdEvent
    rw [if_pos howns, heq]
    exact tab_update hlt
  have hread := h.read _ (tab_mem hlt)
  rw [hstep]
  show (t.tab n).fed ++ (t.readsOf n a).1.flatten = (t.tab n).line.wrote
  rw [← hread]
  congr 1
  have hall : (t.readsOf n a).1.flatten ++ (t.readsOf n a).2.1 = (t.tab n).line.unread :=
    reads_flatten _ _ _ _
  have hnone : (t.readsOf n a).2.1 = [] := reads_ended hends
  rw [← hall, hnone, List.append_nil]

/-- And the watch stays. -/
theorem Wired.not_released (h : t.Wired) (hsane : t.Sane) {key : UInt64} {a : Answers} {n : Nat}
    (hends : t.Ends key a n) : ¬ t.Released (.io key a) := by
  intro hreleased
  obtain ⟨fd, hmem⟩ := (HostImpl.owns_iff t.host key).1 hends.1
  obtain ⟨j, hj, hkey, -⟩ := h.known _ hmem
  refine hreleased key a n rfl hends j ?_ hkey
  show j ∈ (t.onFdEvent key a).epoll
  rw [(hsane.onFdEvent_epoll key a).2]
  exact hj

theorem Wired.run (win : UInt32) (app : Nat) (fdGen : UInt32) (master : Option Nat) (is : List Input) :
    (run Terminal.step (Terminal.start win app fdGen master) is).Wired := by
  induction is using List.reverseRecOn with
  | nil => exact Wired.start win app fdGen master
  | append_singleton is i ih =>
      rw [Lib.run_append]
      exact ih.step ((Sane.start win app fdGen master).run is) i

/-- **A dead terminal, exactly when.** In every run, what the guest wrote has been fed to its
parser when the end is reported; and the watch is gone by then in no run but those where no end
is ever reported. -/
theorem released_iff (win : UInt32) (app : Nat) (fdGen : UInt32) (master : Option Nat) (is : List Input) :
    (∀ before i, before ++ [i] <+: is → (run step (start win app fdGen master) before).Drained i) ∧
    ((∀ before i, before ++ [i] <+: is → (run step (start win app fdGen master) before).Released i) ↔
      StepsMeet step (fun t i => ∀ key a n, i = .io key a → ¬ t.Ends key a n)
        (start win app fdGen master) is) := by
  have hsane : ∀ before, (run step (start win app fdGen master) before).Sane := fun before =>
    (Sane.start win app fdGen master).run before
  refine ⟨fun before i _ => (hsane before).drained i, ?_⟩
  rw [Lib.stepsMeet_iff]
  constructor
  · rintro hall before i hpre key a n rfl hends
    exact (Wired.run win app fdGen master before).not_released (hsane before) hends (hall before _ hpre)
  · rintro hnever before i hpre key a n rfl hends
    exact absurd hends (hnever before _ hpre key a n rfl)

/-- A shell writes a byte and leaves. -/
def leaving : List Input :=
  [.guestWrites 0 [0x41], .guestCloses 0, .io (Daemon.makeKey 1 16) { sizes := [8192] }]

/-- The window goes on watching for it. -/
theorem leaving_watched :
    ¬ ∀ before i, before ++ [i] <+: leaving → (run step (start 1 0 16 (some 7)) before).Released i := by
  intro hall
  have hends : (run step (start 1 0 16 (some 7)) (leaving.take 2)).Ends (Daemon.makeKey 1 16)
      { sizes := [8192] } 0 := by
    refine ⟨by decide +kernel, by decide +kernel, by decide +kernel⟩
  refine (Wired.run 1 0 16 (some 7) (leaving.take 2)).not_released
    ((Sane.start 1 0 16 (some 7)).run (leaving.take 2)) hends ?_
  exact hall _ _ List.prefix_rfl

end Terminal

end Sshos.Apps.Tabbed
