import Mathlib.Data.List.Nodup
import Mathlib.Data.UInt
import Sshos.Lib.Lists
import Sshos.Lib.Run

/-!
# Sshos.Daemon.Host

The **watches** of the applications: which application an event of epoll is for.

An application has descriptors watched through its host, and gets a key for each. What
epoll hands back with an event is that key and nothing else: the window's number and a
generation, packed in one word. Descriptor numbers are used again as soon as they are
free, windows go while events for them are on their way, and a key is all there is to
tell an event that is late from one that is not.

Both halves of a key are words of 32 bits, and the generations are counted over all the
windows. The module follows arbitrary runs of the applications, the windows and epoll
beside the record (`Trail`) of who made which watch and which are withdrawn, and settles
when an event finds the right application.
-/

namespace Sshos.Daemon

open Sshos.Lib (run StepsMeet)

/-! ### Keys -/

def makeKey (win gen : UInt32) : UInt64 := (win.toUInt64 <<< 32) ||| gen.toUInt64

def keyWindow (key : UInt64) : UInt32 := (key >>> 32).toUInt32

/-- The daemon's own descriptors go under window 0, with these generations. -/
def kGenListener : UInt32 := 1
def kGenTimer : UInt32 := 2
def kGenSignal : UInt32 := 3

/-- The first generation that is handed out. -/
def kGenFirstDynamic : UInt32 := 16

/-- The generation of a key. -/
def keyGen (key : UInt64) : UInt32 := key.toUInt32

theorem toNat_makeKey (win gen : UInt32) :
    (makeKey win gen).toNat = win.toNat * 2 ^ 32 + gen.toNat := by
  have hw := win.toNat_lt
  have hg := gen.toNat_lt
  have h32 : (32 : UInt64).toNat % 64 = 32 := rfl
  have hshift : win.toNat <<< 32 % 2 ^ 64 = win.toNat <<< 32 := by
    rw [Nat.shiftLeft_eq]
    exact Nat.mod_eq_of_lt (by omega)
  simp only [makeKey, UInt64.toNat_or, UInt64.toNat_shiftLeft, UInt32.toNat_toUInt64]
  rw [h32, hshift, ← Nat.shiftLeft_add_eq_or_of_lt hg, Nat.shiftLeft_eq]

/-- The two halves do not run into each other. -/
@[simp] theorem keyWindow_makeKey (win gen : UInt32) : keyWindow (makeKey win gen) = win := by
  have hw := win.toNat_lt
  have hg := gen.toNat_lt
  have h32 : (32 : UInt64).toNat % 64 = 32 := rfl
  apply UInt32.toNat_inj.1
  rw [keyWindow, UInt64.toNat_toUInt32, UInt64.toNat_shiftRight, toNat_makeKey, h32,
    Nat.shiftRight_eq_div_pow]
  omega

@[simp] theorem keyGen_makeKey (win gen : UInt32) : keyGen (makeKey win gen) = gen := by
  have hg := gen.toNat_lt
  apply UInt32.toNat_inj.1
  rw [keyGen, UInt64.toNat_toUInt32, toNat_makeKey]
  omega

/-- The generation a counter stands at after `n` of them were handed out. -/
def dynamicGen (n : Nat) : UInt32 := UInt32.ofNat (16 + n)

@[simp] theorem dynamicGen_zero : dynamicGen 0 = kGenFirstDynamic := rfl

theorem dynamicGen_succ (n : Nat) : dynamicGen n + 1 = dynamicGen (n + 1) := by
  rw [dynamicGen, dynamicGen, ← Nat.add_assoc]
  exact (UInt32.ofNat_add _ _).symm

theorem dynamicGen_inj {m n : Nat} (hm : m < 2 ^ 32) (hn : n < 2 ^ 32)
    (h : dynamicGen m = dynamicGen n) : m = n := by
  have hmod := congrArg UInt32.toNat h
  simp only [dynamicGen, UInt32.toNat_ofNat'] at hmod
  omega

/-- No generation is handed out twice before the counter comes round. -/
theorem dynamicGen_nodup {n : Nat} (hn : n ≤ 2 ^ 32) : ((List.range n).map dynamicGen).Nodup := by
  refine List.Nodup.map_on (fun i hi j hj h => ?_) List.nodup_range
  exact dynamicGen_inj (by have := List.mem_range.1 hi; omega)
    (by have := List.mem_range.1 hj; omega) h

/-- The daemon's own keys, once it has accepted `accepted` connections. -/
def daemonKeys (accepted : Nat) : List UInt64 :=
  makeKey 0 kGenListener :: makeKey 0 kGenTimer :: makeKey 0 kGenSignal ::
    (List.range accepted).map fun i => makeKey 0 (dynamicGen i)

theorem keyWindow_of_daemonKey {accepted : Nat} {key : UInt64} (h : key ∈ daemonKeys accepted) :
    keyWindow key = 0 := by
  simp only [daemonKeys, List.mem_cons, List.mem_map] at h
  rcases h with rfl | rfl | rfl | ⟨i, -, rfl⟩ <;> exact keyWindow_makeKey _ _

/-! ### What epoll watches -/

/-- One descriptor epoll watches, with the key it hands back. -/
structure Interest where
  fd : Int
  key : UInt64
  events : UInt32
  deriving DecidableEq

abbrev Epoll := List Interest

/-- Watch a descriptor, or change what is watched of it. -/
def Epoll.watch (ep : Epoll) (key : UInt64) (fd : Int) (events : UInt32) : Epoll :=
  if ep.any (·.fd == fd) then ep.map fun i => if i.fd = fd then ⟨fd, key, events⟩ else i
  else ep ++ [⟨fd, key, events⟩]

def Epoll.unwatch (ep : Epoll) (fd : Int) : Epoll := ep.filter fun i => i.fd ≠ fd

/-! ### The host of an application -/

/-- What stands between a window's application and the desktop, as far as its watches
go. -/
structure HostImpl where
  /-- The window's number. -/
  win : UInt32
  /-- Which application it is, counted from the first one that was opened. -/
  app : Nat
  watched : List (UInt64 × Int) := []
  deriving DecidableEq

namespace HostImpl

variable (h : HostImpl)

/-- A new generation for every watch: the key, and what becomes of the host, of the
counter and of epoll. -/
def watch (gen : UInt32) (fds : Epoll) (fd : Int) (events : UInt32) :
    UInt64 × HostImpl × UInt32 × Epoll :=
  let key := makeKey h.win gen
  (key, { h with watched := h.watched ++ [(key, fd)] }, gen + 1, fds.watch key fd events)

/-- An unknown token is ignored. -/
def unwatch (fds : Epoll) (token : UInt64) : HostImpl × Epoll :=
  match h.watched.find? fun p => p.1 == token with
  | none => (h, fds)
  | some p =>
      ({ h with watched := h.watched.eraseP fun p => p.1 == token }, fds.unwatch p.2)

def owns (key : UInt64) : Bool := h.watched.any fun p => p.1 == key

/-- The application whose `on_io` is called, if any. -/
def deliver (key : UInt64) : Option Nat := if h.owns key then some h.app else none

def unwatchAll (fds : Epoll) : HostImpl × Epoll :=
  ({ h with watched := [] }, h.watched.foldl (fun fds p => fds.unwatch p.2) fds)

theorem owns_iff (key : UInt64) : h.owns key = true ↔ ∃ fd, (key, fd) ∈ h.watched := by
  simp only [owns, List.any_eq_true, beq_iff_eq, Prod.exists, exists_and_right, exists_eq_right]

/-- Unwatching takes the one watch with that token away, if there is one. -/
theorem unwatch_spec (fds : Epoll) (token : UInt64) (honce : (h.watched.map Prod.fst).Nodup) :
    (h.unwatch fds token).1.app = h.app ∧ (h.unwatch fds token).1.watched.Sublist h.watched ∧
      ∀ key fd, (key, fd) ∈ (h.unwatch fds token).1.watched → key ≠ token := by
  unfold unwatch
  cases hfind : h.watched.find? fun p => p.1 == token with
  | none =>
      refine ⟨rfl, List.Sublist.refl _, fun key fd hmem => ?_⟩
      simpa using List.find?_eq_none.1 hfind _ hmem
  | some p =>
      refine ⟨rfl, List.eraseP_sublist, fun key fd hmem heq => ?_⟩
      have hp : p.1 = token := by simpa using List.find?_some hfind
      have hnodup := ((Lib.perm_eraseP_append hfind).map Prod.fst).nodup_iff.2 honce
      rw [List.map_append] at hnodup
      refine (List.nodup_append.1 hnodup).2.2 key (List.mem_map_of_mem hmem) p.1 (by simp) ?_
      rw [heq, hp]

end HostImpl

/-! ### The session's windows -/

/-- The windows from the back to the front, each with its host, and what they share. -/
structure Hosts where
  windows : List HostImpl := []
  /-- The number of the next window. -/
  nextId : UInt32 := 1
  fdGen : UInt32 := kGenFirstDynamic
  epoll : Epoll := []
  /-- How many applications were opened. -/
  opened : Nat := 0

namespace Hosts

variable (s : Hosts)

def kMaxWindows : Nat := 64

/-- The window with this number. -/
def find (id : UInt32) : Option HostImpl := s.windows.find? fun h => h.win == id

/-- The window of an application. -/
def hostOf (app : Nat) : Option HostImpl := s.windows.find? fun h => h.app == app

/-- Give the application's window another host state. -/
def setHost (app : Nat) (h : HostImpl) : List HostImpl :=
  s.windows.map fun w => if w.app = app then h else w

/-- A window for a new application, in front. -/
def «open» : Hosts :=
  if s.windows.length ≥ kMaxWindows then s
  else
    { s with
      windows := s.windows ++ [{ win := s.nextId, app := s.opened }]
      nextId := s.nextId + 1
      opened := s.opened + 1 }

def raise (id : UInt32) : Hosts :=
  match s.find id with
  | none => s
  | some h => { s with windows := s.windows.eraseP (fun w => w.win == id) ++ [h] }

def watch (app : Nat) (fd : Int) (events : UInt32) : Hosts :=
  match s.hostOf app with
  | none => s
  | some h =>
      let (_, h, gen, fds) := h.watch s.fdGen s.epoll fd events
      { s with windows := s.setHost app h, fdGen := gen, epoll := fds }

def unwatch (app : Nat) (token : UInt64) : Hosts :=
  match s.hostOf app with
  | none => s
  | some h =>
      let (h, fds) := h.unwatch s.epoll token
      { s with windows := s.setHost app h, epoll := fds }

/-- Close an application's window: its watches go first, then the window with its
number. -/
def closeWindow (app : Nat) : Hosts :=
  match s.hostOf app with
  | none => s
  | some h =>
      let (h', fds) := h.unwatchAll s.epoll
      { s with windows := (s.setHost app h').eraseP (fun w => w.win == h.win), epoll := fds }

/-- A descriptor is closed, and the kernel lets go of it. -/
def closeFd (fd : Int) : Hosts := { s with epoll := s.epoll.unwatch fd }

/-- The application whose `on_io` is called with the key. -/
def onFdEvent (key : UInt64) : Option Nat :=
  match s.find (keyWindow key) with
  | none => none
  | some h => h.deliver key

inductive Op
  | «open»
  | raise (id : UInt32)
  | close (app : Nat)
  | watch (app : Nat) (fd : Int) (events : UInt32)
  | unwatch (app : Nat) (token : UInt64)
  | closeFd (fd : Int)
  /-- An event, for whatever key. What the application does then comes next. -/
  | event (key : UInt64) (events : UInt32)

def step (s : Hosts) : Op → Hosts
  | .open => s.open
  | .raise id => s.raise id
  | .close app => s.closeWindow app
  | .watch app fd events => s.watch app fd events
  | .unwatch app token => s.unwatch app token
  | .closeFd fd => s.closeFd fd
  | .event _ _ => s

/-- The key an operation returns, and the application it returns it to. -/
def keyMade (s : Hosts) : Op → Option (UInt64 × Nat)
  | .watch app _ _ => (s.hostOf app).map fun h => (makeKey h.win s.fdGen, app)
  | _ => none

end Hosts

/-! ### The record -/

/-- What an operation withdraws, among the watches made. -/
def Hosts.Op.withdraws : Hosts.Op → UInt64 × Nat → Bool
  | .unwatch app token, p => p == (token, app)
  | .close app, p => p.2 == app
  | _, _ => false

/-- The windows, and the record of their watches. -/
structure Trail where
  hosts : Hosts := {}
  /-- Every watch made, and who made it. -/
  made : List (UInt64 × Nat) := []
  /-- Those withdrawn by who made them, or gone with their window. -/
  withdrawn : List (UInt64 × Nat) := []

namespace Trail

open Hosts (Op)

def step (t : Trail) (op : Op) : Trail where
  hosts := t.hosts.step op
  made := t.made ++ (t.hosts.keyMade op).toList
  withdrawn := t.withdrawn ++ t.made.filter op.withdraws

/-- **Routing.** An event reaches an application only with the key of a watch which that
application made and which stands, and all keys are different, from each other and from
those of the daemon. -/
structure Routed (ops : List Op) : Prop where
  own : ∀ before key events app, before ++ [.event key events] <+: ops →
    (run step {} before).hosts.onFdEvent key = some app →
    (key, app) ∈ (run step {} before).made ∧ (key, app) ∉ (run step {} before).withdrawn
  distinct : ((run step {} ops).made.map Prod.fst).Nodup
  notDaemon : ∀ p ∈ (run step {} ops).made, ∀ accepted, p.1 ∉ daemonKeys accepted


/-! ### What every operation keeps -/

/-- A host watches nothing but what its application made and did not withdraw. -/
structure Stands (t : Trail) (w : HostImpl) : Prop where
  owned : ∀ key fd, (key, fd) ∈ w.watched → (key, w.app) ∈ t.made ∧ (key, w.app) ∉ t.withdrawn
  once : (w.watched.map Prod.fst).Nodup

/-- What holds along every run, as long as no generation has come round. -/
structure Inv (t : Trail) : Prop where
  gens : t.made.map (fun p => keyGen p.1) = (List.range t.made.length).map dynamicGen
  next : t.hosts.fdGen = dynamicGen t.made.length
  past : ∀ p ∈ t.withdrawn, p ∈ t.made
  apps : (t.hosts.windows.map (·.app)).Nodup
  opened : ∀ w ∈ t.hosts.windows, w.app < t.hosts.opened
  stands : ∀ w ∈ t.hosts.windows, Stands t w

variable {t : Trail}

/-- Different generations make different keys. -/
theorem keys_nodup (hgens : t.made.map (fun p => keyGen p.1) = (List.range t.made.length).map dynamicGen)
    (hcount : t.made.length ≤ 2 ^ 32) : (t.made.map Prod.fst).Nodup := by
  refine List.Nodup.of_map keyGen ?_
  rw [List.map_map]
  exact hgens ▸ dynamicGen_nodup hcount

/-- A host keeps standing through what withdraws none of its watches. -/
theorem Stands.keep {w : HostImpl} (h : Stands t w) {t' : Trail} {gone : UInt64 × Nat → Bool}
    (hmade : t.made ⊆ t'.made) (hgone : t'.withdrawn = t.withdrawn ++ t.made.filter gone)
    (hspared : ∀ key fd, (key, fd) ∈ w.watched → gone (key, w.app) = false) : Stands t' w where
  owned := by
    intro key fd hmem
    obtain ⟨hin, hout⟩ := h.owned key fd hmem
    refine ⟨hmade hin, fun hwith => ?_⟩
    rw [hgone] at hwith
    rcases List.mem_append.1 hwith with hold | hnew
    · exact hout hold
    · have := (List.mem_filter.1 hnew).2
      rw [hspared key fd hmem] at this
      cases this
  once := h.once

/-- A host may watch what its application has just made. -/
theorem Stands.watch {w : HostImpl} (h : Stands t w) {key : UInt64} (fd : Int)
    (hmade : (key, w.app) ∈ t.made) (hkept : (key, w.app) ∉ t.withdrawn)
    (hnew : key ∉ w.watched.map Prod.fst) : Stands t { w with watched := w.watched ++ [(key, fd)] } where
  owned := by
    intro key' fd' hmem
    rcases List.mem_append.1 hmem with hold | hlast
    · exact h.owned key' fd' hold
    · cases List.mem_singleton.1 hlast
      exact ⟨hmade, hkept⟩
  once := by
    rw [List.map_append]
    refine List.nodup_append.2 ⟨h.once, List.nodup_singleton _, ?_⟩
    rintro a ha b hb rfl
    rw [List.mem_singleton.1 hb] at ha
    exact hnew ha

/-- A host that watches nothing stands. -/
theorem Stands.of_nil (t : Trail) {w : HostImpl} (h : w.watched = []) : Stands t w :=
  ⟨fun key fd hmem => (by rw [h] at hmem; cases hmem), by rw [h]; exact List.nodup_nil⟩

theorem hostOf_some {s : Hosts} {app : Nat} {h : HostImpl} (hfind : s.hostOf app = some h) :
    h ∈ s.windows ∧ h.app = app :=
  ⟨List.mem_of_find?_eq_some hfind, by simpa using List.find?_some hfind⟩

/-- The windows after one host was given another state. -/
theorem mem_setHost {s : Hosts} {app : Nat} {h w : HostImpl} (hw : w ∈ s.setHost app h) :
    w = h ∨ (w ∈ s.windows ∧ w.app ≠ app) := by
  obtain ⟨v, hv, rfl⟩ := List.mem_map.1 hw
  by_cases happ : v.app = app
  · exact .inl (if_pos happ)
  · rw [if_neg happ]
    exact .inr ⟨hv, happ⟩

/-- It stays the window of its application. -/
theorem map_app_setHost {s : Hosts} {app : Nat} {h : HostImpl} (happ : h.app = app) :
    (s.setHost app h).map (·.app) = s.windows.map (·.app) := by
  rw [Hosts.setHost, List.map_map]
  refine List.map_congr_left fun w _ => ?_
  rw [Function.comp_apply]
  by_cases hw : w.app = app
  · rw [if_pos hw, happ, hw]
  · rw [if_neg hw]

/-- An operation that makes no watch: what is left to see is the windows. -/
theorem Inv.of_quiet (h : Inv t) {op : Op} (hkey : t.hosts.keyMade op = none)
    (hgen : (t.hosts.step op).fdGen = t.hosts.fdGen)
    (happs : ((t.hosts.step op).windows.map (·.app)).Nodup)
    (hopened : ∀ w ∈ (t.hosts.step op).windows, w.app < (t.hosts.step op).opened)
    (hstands : ∀ w ∈ (t.hosts.step op).windows, Stands (t.step op) w) : Inv (t.step op) := by
  have hmade : (t.step op).made = t.made := by
    simp only [step, hkey, Option.toList_none, List.append_nil]
  refine ⟨hmade ▸ h.gens, ?_, ?_, happs, hopened, hstands⟩
  · rw [hmade]
    exact hgen.trans h.next
  · intro p hp
    rw [hmade]
    rcases List.mem_append.1 hp with hold | hnew
    · exact h.past p hold
    · exact (List.mem_filter.1 hnew).1

/-- An operation that withdraws nothing leaves the hosts standing. -/
theorem Stands.step_of_spared {w : HostImpl} (h : Stands t w) (op : Op)
    (hspared : ∀ key fd, (key, fd) ∈ w.watched → op.withdraws (key, w.app) = false) :
    Stands (t.step op) w :=
  h.keep (List.subset_append_left _ _) rfl hspared

/-- An operation that leaves the windows as they are. -/
theorem Inv.of_same (h : Inv t) {op : Op} (hkey : t.hosts.keyMade op = none)
    (hsame : t.hosts.step op = t.hosts)
    (hspared : ∀ w ∈ t.hosts.windows, ∀ key, op.withdraws (key, w.app) = false) :
    Inv (t.step op) := by
  refine h.of_quiet hkey (by rw [hsame]) (by rw [hsame]; exact h.apps)
    (by rw [hsame]; exact h.opened) ?_
  rw [hsame]
  exact fun w hw => (h.stands w hw).step_of_spared _ fun key _ _ => hspared w hw key

theorem Inv.open (h : Inv t) : Inv (t.step .open) := by
  by_cases hfull : t.hosts.windows.length ≥ Hosts.kMaxWindows
  · exact h.of_same rfl (if_pos hfull) fun _ _ _ => rfl
  · have hnew : t.hosts.step .open = { t.hosts with
        windows := t.hosts.windows ++ [{ win := t.hosts.nextId, app := t.hosts.opened }]
        nextId := t.hosts.nextId + 1
        opened := t.hosts.opened + 1 } := if_neg hfull
    refine h.of_quiet rfl (by rw [hnew]) ?_ ?_ ?_
    · rw [hnew, List.map_append]
      refine List.nodup_append.2 ⟨h.apps, List.nodup_singleton _, ?_⟩
      intro a ha b hb hab
      obtain ⟨w, hw, rfl⟩ := List.mem_map.1 ha
      have hlt := h.opened w hw
      have hb' := List.mem_singleton.1 hb
      simp only at hb'
      omega
    · rw [hnew]
      intro w hw
      rcases List.mem_append.1 hw with hold | hlast
      · exact Nat.lt_succ_of_lt (h.opened w hold)
      · rw [List.mem_singleton.1 hlast]
        exact Nat.lt_succ_self _
    · rw [hnew]
      intro w hw
      rcases List.mem_append.1 hw with hold | hlast
      · exact (h.stands w hold).step_of_spared _ fun _ _ _ => rfl
      · exact Stands.of_nil _ (by rw [List.mem_singleton.1 hlast])

theorem Inv.raise (h : Inv t) (id : UInt32) : Inv (t.step (.raise id)) := by
  have hperm : (t.hosts.raise id).windows.Perm t.hosts.windows := by
    unfold Hosts.raise
    cases hfind : t.hosts.find id with
    | none => exact List.Perm.refl _
    | some w => exact Lib.perm_eraseP_append hfind
  have hrest : (t.hosts.raise id).fdGen = t.hosts.fdGen ∧ (t.hosts.raise id).opened = t.hosts.opened := by
    unfold Hosts.raise
    cases t.hosts.find id <;> exact ⟨rfl, rfl⟩
  refine h.of_quiet rfl hrest.1 ((hperm.map _).nodup_iff.2 h.apps) ?_ ?_
  · intro w hw
    exact hrest.2 ▸ h.opened w (hperm.mem_iff.1 hw)
  · exact fun w hw => (h.stands w (hperm.mem_iff.1 hw)).step_of_spared _ fun _ _ _ => rfl

theorem Inv.close (h : Inv t) (app : Nat) : Inv (t.step (.close app)) := by
  cases hfind : t.hosts.hostOf app with
  | none =>
      have hsame : t.hosts.step (.close app) = t.hosts := by
        simp only [Hosts.step, Hosts.closeWindow, hfind]
      refine h.of_same rfl hsame fun w hw key => ?_
      simpa [Op.withdraws] using List.find?_eq_none.1 hfind w hw
  | some v =>
      obtain ⟨hv, hvapp⟩ := hostOf_some hfind
      have hstep : t.hosts.step (.close app) = { t.hosts with
          windows := (t.hosts.setHost app (v.unwatchAll t.hosts.epoll).1).eraseP
            (fun w => w.win == v.win)
          epoll := (v.unwatchAll t.hosts.epoll).2 } := by
        simp only [Hosts.step, Hosts.closeWindow, hfind]
      have hmem : ∀ w ∈ (t.hosts.step (.close app)).windows,
          w = (v.unwatchAll t.hosts.epoll).1 ∨ (w ∈ t.hosts.windows ∧ w.app ≠ app) := by
        rw [hstep]
        exact fun w hw => mem_setHost (List.mem_of_mem_eraseP hw)
      refine h.of_quiet rfl (by rw [hstep]) ?_ ?_ ?_
      · rw [hstep]
        refine List.Nodup.sublist (List.eraseP_sublist.map _) ?_
        rw [map_app_setHost (h := (v.unwatchAll t.hosts.epoll).1) hvapp]
        exact h.apps
      · intro w hw
        rw [hstep]
        rcases hmem w hw with rfl | ⟨hold, -⟩
        · exact h.opened v hv
        · exact h.opened w hold
      · intro w hw
        rcases hmem w hw with rfl | ⟨hold, hne⟩
        · exact Stands.of_nil _ rfl
        · exact (h.stands w hold).step_of_spared _ fun _ _ _ => by simpa [Op.withdraws] using hne

theorem Inv.unwatch (h : Inv t) (app : Nat) (token : UInt64) : Inv (t.step (.unwatch app token)) := by
  have hother : ∀ w ∈ t.hosts.windows, w.app ≠ app → Stands (t.step (.unwatch app token)) w := by
    intro w hw hne
    refine (h.stands w hw).step_of_spared _ fun key _ _ => ?_
    simp only [Op.withdraws, beq_eq_false_iff_ne, ne_eq, Prod.mk.injEq, not_and]
    exact fun _ => hne
  cases hfind : t.hosts.hostOf app with
  | none =>
      have hsame : t.hosts.step (.unwatch app token) = t.hosts := by
        simp only [Hosts.step, Hosts.unwatch, hfind]
      refine h.of_same rfl hsame fun w hw key => ?_
      have hne : w.app ≠ app := by simpa using List.find?_eq_none.1 hfind w hw
      simp [Op.withdraws, hne]
  | some v =>
      obtain ⟨hv, rfl⟩ := hostOf_some hfind
      have hstep : t.hosts.step (.unwatch v.app token) = { t.hosts with
          windows := t.hosts.setHost v.app (v.unwatch t.hosts.epoll token).1
          epoll := (v.unwatch t.hosts.epoll token).2 } := by
        simp only [Hosts.step, Hosts.unwatch, hfind]
      obtain ⟨happ, hsub, hgone⟩ := HostImpl.unwatch_spec v t.hosts.epoll token (h.stands v hv).once
      refine h.of_quiet rfl (by rw [hstep]) ?_ ?_ ?_
      · rw [hstep]
        exact (map_app_setHost happ).symm ▸ h.apps
      · rw [hstep]
        intro w hw
        rcases mem_setHost hw with rfl | ⟨hold, -⟩
        · exact happ ▸ h.opened v hv
        · exact h.opened w hold
      · rw [hstep]
        intro w hw
        rcases mem_setHost hw with rfl | ⟨hold, hne⟩
        · have hstands : Stands t (v.unwatch t.hosts.epoll token).1 :=
            ⟨fun key fd hmem => happ ▸ (h.stands v hv).owned key fd (hsub.subset hmem),
              (h.stands v hv).once.sublist (hsub.map _)⟩
          refine hstands.step_of_spared _ fun key fd hmem => ?_
          have hne := hgone key fd hmem
          simp [Op.withdraws, hne]
        · exact hother w hold hne

theorem Inv.watch (h : Inv t) (app : Nat) (fd : Int) (events : UInt32)
    (hcount : (t.step (.watch app fd events)).made.length ≤ 2 ^ 32) :
    Inv (t.step (.watch app fd events)) := by
  cases hfind : t.hosts.hostOf app with
  | none =>
      have hsame : t.hosts.step (.watch app fd events) = t.hosts := by
        simp only [Hosts.step, Hosts.watch, hfind]
      exact h.of_same (by simp [Hosts.keyMade, hfind]) hsame fun _ _ _ => rfl
  | some v =>
      obtain ⟨hv, rfl⟩ := hostOf_some hfind
      have hmade : (t.step (.watch v.app fd events)).made =
          t.made ++ [(makeKey v.win t.hosts.fdGen, v.app)] := by
        simp only [step, Hosts.keyMade, hfind, Option.map_some, Option.toList_some]
      have hwithdrawn : (t.step (.watch v.app fd events)).withdrawn = t.withdrawn := by
        simp [step, Op.withdraws]
      have hstep : t.hosts.step (.watch v.app fd events) = { t.hosts with
          windows := t.hosts.setHost v.app
            { v with watched := v.watched ++ [(makeKey v.win t.hosts.fdGen, fd)] }
          fdGen := t.hosts.fdGen + 1
          epoll := t.hosts.epoll.watch (makeKey v.win t.hosts.fdGen) fd events } := by
        simp only [Hosts.step, Hosts.watch, hfind, HostImpl.watch]
      have hgens : (t.step (.watch v.app fd events)).made.map (fun p => keyGen p.1) =
          (List.range (t.step (.watch v.app fd events)).made.length).map dynamicGen := by
        rw [hmade, List.map_append, h.gens, List.length_append, List.length_singleton,
          List.range_succ, List.map_append]
        simp only [List.map_cons, List.map_nil, keyGen_makeKey, h.next]
      have hfresh : makeKey v.win t.hosts.fdGen ∉ t.made.map Prod.fst := by
        have hnodup := keys_nodup hgens hcount
        rw [hmade, List.map_append] at hnodup
        exact fun hmem => (List.nodup_append.1 hnodup).2.2 _ hmem _ (List.mem_singleton_self _) rfl
      refine ⟨hgens, ?_, ?_, ?_, ?_, ?_⟩
      · show (t.hosts.step _).fdGen = _
        rw [hstep, hmade, List.length_append, List.length_singleton, ← dynamicGen_succ, ← h.next]
      · rw [hwithdrawn, hmade]
        exact fun p hp => List.mem_append_left _ (h.past p hp)
      · show ((t.hosts.step _).windows.map _).Nodup
        rw [hstep]
        rw [map_app_setHost (h := { v with watched := v.watched ++ [(makeKey v.win t.hosts.fdGen, fd)] })
          rfl]
        exact h.apps
      · show ∀ w ∈ (t.hosts.step _).windows, w.app < (t.hosts.step _).opened
        rw [hstep]
        intro w hw
        rcases mem_setHost hw with rfl | ⟨hold, -⟩
        · exact h.opened v hv
        · exact h.opened w hold
      · show ∀ w ∈ (t.hosts.step _).windows, Stands _ w
        rw [hstep]
        intro w hw
        rcases mem_setHost hw with rfl | ⟨hold, hne⟩
        · have hstands := (h.stands v hv).step_of_spared (.watch v.app fd events) fun _ _ _ => rfl
          refine hstands.watch fd ?_ ?_ ?_
          · rw [hmade]
            exact List.mem_append_right _ (List.mem_singleton_self _)
          · rw [hwithdrawn]
            exact fun hwith => hfresh (List.mem_map_of_mem (h.past _ hwith))
          · intro hmem
            obtain ⟨p, hp, hkey⟩ := List.mem_map.1 hmem
            have howned := ((h.stands v hv).owned p.1 p.2 hp).1
            rw [hkey] at howned
            exact hfresh (List.mem_map_of_mem howned)
        · exact (h.stands w hold).step_of_spared _ fun _ _ _ => rfl

theorem Inv.step (h : Inv t) (op : Op) (hcount : (t.step op).made.length ≤ 2 ^ 32) :
    Inv (t.step op) := by
  cases op with
  | «open» => exact h.open
  | raise id => exact h.raise id
  | close app => exact h.close app
  | watch app fd events => exact h.watch app fd events hcount
  | unwatch app token => exact h.unwatch app token
  | closeFd fd =>
      refine h.of_quiet rfl rfl h.apps h.opened fun w hw => ?_
      exact (h.stands w hw).step_of_spared _ fun _ _ _ => rfl
  | event key events => exact h.of_same rfl rfl fun _ _ _ => rfl

theorem Inv.init : Inv {} :=
  ⟨rfl, rfl, by simp, List.nodup_nil, by simp, by simp⟩

theorem inv_run {ops : List Op} (hcount : (run Trail.step {} ops).made.length ≤ 2 ^ 32) :
    Inv (run Trail.step {} ops) := by
  induction ops using List.reverseRecOn with
  | nil => exact Inv.init
  | append_singleton ops op ih =>
      rw [Lib.run_append] at hcount ⊢
      have hgrow : (run Trail.step {} ops).made.length ≤ ((run Trail.step {} ops).step op).made.length := by
        simp only [Trail.step, List.length_append]
        omega
      exact (ih (hgrow.trans hcount)).step op hcount

/-! ### When events go where they belong -/

/-- What was made stays made. -/
theorem made_grows {before ops : List Op} (h : before <+: ops) :
    (run Trail.step {} before).made <+: (run Trail.step {} ops).made := by
  obtain ⟨after, rfl⟩ := h
  rw [Lib.run_append]
  induction after generalizing before with
  | nil => exact List.prefix_rfl
  | cons op after ih =>
      have hstep : (run Trail.step {} (before ++ [op])).made <+:
          (run Trail.step (run Trail.step {} (before ++ [op])) after).made := ih
      rw [Lib.run_append] at hstep
      exact (List.prefix_append _ _).trans hstep

/-- A watch was made when some operation of the run made it. -/
theorem mem_made {ops : List Op} {p : UInt64 × Nat} :
    p ∈ (run Trail.step {} ops).made ↔
      ∃ before op, before ++ [op] <+: ops ∧ (run Trail.step {} before).hosts.keyMade op = some p := by
  constructor
  · induction ops using List.reverseRecOn with
    | nil => exact fun hp => absurd hp (by simp)
    | append_singleton ops op ih =>
        intro hp
        rw [Lib.run_append] at hp
        rcases List.mem_append.1 hp with hold | hnew
        · obtain ⟨before, op', hpre, hmade⟩ := ih hold
          exact ⟨before, op', hpre.trans (List.prefix_append _ _), hmade⟩
        · exact ⟨ops, op, List.prefix_rfl, Option.mem_toList.1 hnew⟩
  · rintro ⟨before, op, hpre, hmade⟩
    refine (made_grows hpre).subset ?_
    rw [Lib.run_append]
    exact List.mem_append_right _ (Option.mem_toList.2 hmade)

/-- What a window owns is what its application made and what stands. -/
theorem Inv.onFdEvent (h : Inv t) {key : UInt64} {app : Nat} (hcall : t.hosts.onFdEvent key = some app) :
    (key, app) ∈ t.made ∧ (key, app) ∉ t.withdrawn := by
  unfold Hosts.onFdEvent at hcall
  cases hfind : t.hosts.find (keyWindow key) with
  | none =>
      rw [hfind] at hcall
      cases hcall
  | some w =>
      rw [hfind] at hcall
      simp only [HostImpl.deliver] at hcall
      cases howns : w.owns key with
      | false => simp [howns] at hcall
      | true =>
          obtain ⟨fd, hmem⟩ := (w.owns_iff key).1 howns
          simp only [howns, if_true, Option.some.injEq] at hcall
          exact hcall ▸ (h.stands w (List.mem_of_find?_eq_some hfind)).owned key fd hmem

/-- A watch is asked for by a window whose number has not come round to that of the
daemon. -/
def FromNumbered (t : Trail) : Op → Prop
  | .watch app _ _ => ∀ h, t.hosts.hostOf app = some h → h.win ≠ 0
  | _ => True

/-- The keys are not the daemon's exactly when the windows that get them have a number. -/
theorem notDaemon_iff {ops : List Op} (hcount : (run Trail.step {} ops).made.length < 2 ^ 32) :
    (∀ p ∈ (run Trail.step {} ops).made, ∀ accepted, p.1 ∉ daemonKeys accepted) ↔
      StepsMeet Trail.step FromNumbered {} ops := by
  rw [Lib.stepsMeet_iff]
  constructor
  · intro hnot before op hpre
    cases op with
    | watch app fd events =>
        intro v hv hzero
        have hinv : Inv (run Trail.step {} before) := inv_run <| by
          have := (made_grows ((List.prefix_append _ _).trans hpre)).length_le
          omega
        have hmade : (run Trail.step {} before).hosts.keyMade (.watch app fd events) =
            some (makeKey v.win (run Trail.step {} before).hosts.fdGen, app) := by
          simp only [Hosts.keyMade, hv, Option.map_some]
        refine hnot _ (mem_made.2 ⟨before, _, hpre, hmade⟩)
          ((run Trail.step {} before).made.length + 1) ?_
        simp only [hzero, hinv.next, daemonKeys, List.mem_cons, List.mem_map, List.mem_range]
        exact .inr (.inr (.inr ⟨_, Nat.lt_succ_self _, rfl⟩))
    | _ => trivial
  · intro hmeet p hp accepted hdaemon
    obtain ⟨before, op, hpre, hmade⟩ := mem_made.1 hp
    have hop := hmeet before op hpre
    cases op with
    | watch app fd events =>
        simp only [Hosts.keyMade, Option.map_eq_some_iff] at hmade
        obtain ⟨v, hv, rfl⟩ := hmade
        exact hop v hv ((keyWindow_makeKey _ _).symm.trans (keyWindow_of_daemonKey hdaemon))
    | _ => cases hmade

/-- **Routing, exactly when.** Of fewer than `2 ^ 32` watches, every event finds the
application that made its watch, and no key is used twice, if and only if no window asks for
a watch under number 0, the daemon's: the numbers are words of 32 bits, and come round. -/
theorem routed_iff {ops : List Op} (hcount : (run Trail.step {} ops).made.length < 2 ^ 32) :
    Routed ops ↔ StepsMeet Trail.step FromNumbered {} ops := by
  refine ⟨fun h => (notDaemon_iff hcount).1 h.notDaemon, fun h => ?_⟩
  refine ⟨fun before key events app hpre hcall => ?_, ?_, (notDaemon_iff hcount).2 h⟩
  · have hinv : Inv (run Trail.step {} before) := inv_run <| by
      have := (made_grows ((List.prefix_append _ _).trans hpre)).length_le
      omega
    exact hinv.onFdEvent hcall
  · exact keys_nodup (inv_run hcount.le).gens hcount.le

/-- An event for a terminal, and one that is late for it. -/
theorem routed_iff_late :
    Routed [.open, .watch 0 7 1, .event (makeKey 1 16) 1, .close 0, .open, .watch 1 7 1,
      .event (makeKey 1 16) 1] :=
  (routed_iff (by decide)).2 (by
    refine ⟨trivial, fun h hh => ?_, trivial, trivial, trivial, fun h hh => ?_, trivial, trivial⟩ <;>
      (cases hh; decide))


/-! ### When the numbers come round -/

/-- Windows that are opened and closed one after the other. -/
def openAndClose (n : Nat) : List Op := (List.range n).flatMap fun i => [.open, .close i]

/-- They leave nothing but the counts. -/
theorem run_openAndClose (n : Nat) :
    run Trail.step {} (openAndClose n) =
      { hosts := { nextId := UInt32.ofNat (1 + n), opened := n } } := by
  induction n with
  | zero => rfl
  | succ n ih =>
      rw [openAndClose, List.range_succ, List.flatMap_append, Lib.run_append]
      change run Trail.step (run Trail.step {} (openAndClose n)) _ = _
      rw [ih, show UInt32.ofNat (1 + (n + 1)) = UInt32.ofNat (1 + n) + 1 from
        (UInt32.ofNat_add (1 + n) 1)]
      simp [Trail.step, Hosts.step, Hosts.open, Hosts.kMaxWindows, Hosts.closeWindow, Hosts.hostOf,
        Hosts.setHost, HostImpl.unwatchAll, Hosts.keyMade]

/-- The window that comes after them asks for a watch. -/
theorem made_after_openAndClose (n : Nat) :
    (run Trail.step {} (openAndClose n ++ [.open, .watch n 7 1])).made =
      [(makeKey (UInt32.ofNat (1 + n)) kGenFirstDynamic, n)] := by
  rw [Lib.run_append, run_openAndClose]
  simp [Trail.step, Hosts.step, Hosts.open, Hosts.kMaxWindows, Hosts.keyMade, Hosts.hostOf]

/-- The window opened after `2 ^ 32 - 1` others has number 0, and its first key is that of
the daemon's first connection. -/
theorem routing_comes_round :
    ¬ ∀ ops : List Op, (run Trail.step {} ops).made.length < 2 ^ 32 → Routed ops := by
  intro hall
  have hmade := made_after_openAndClose (2 ^ 32 - 1)
  have hrouted := hall (openAndClose (2 ^ 32 - 1) ++ [.open, .watch (2 ^ 32 - 1) 7 1])
    (by rw [hmade]; decide)
  have hnot := hrouted.notDaemon (makeKey (UInt32.ofNat (1 + (2 ^ 32 - 1))) kGenFirstDynamic, 2 ^ 32 - 1)
    (by rw [hmade]; exact List.mem_singleton_self _) 1
  exact hnot (by decide)

end Trail

end Sshos.Daemon
