import Mathlib.Data.List.Nodup
import Sshos.Lib.Bytes

/-!
# Sshos.Pty.Pty

A **pseudo-terminal** and the shell behind it, over a model of the kernel's
process table.

The kernel keeps dead children as zombies until someone waits for them. A child
is reaped exactly once: whoever waits first gets its status, and every later wait
on its pid finds nothing. Pids are never reused here, so that a signal sent after
its target was reaped can be recognised as such; the log of `kill` calls records,
for each, whether the leader of the group had been reaped.
-/

namespace Sshos

open Sshos.Lib (Bytes)

abbrev Pid := Nat

/-- What `waitpid` reports of a dead child. -/
inductive WaitStatus
  | exited (code : Nat)
  | signaled (sig : Nat)
  deriving DecidableEq

/-! ### The kernel -/

/-- The process table as the daemon sees it. -/
structure Kernel where
  /-- The next pid `fork` hands out. -/
  fresh : Pid
  /-- Dead children nobody has waited for, in the order `waitpid(-1)` returns them. -/
  zombies : List (Pid × WaitStatus)
  /-- Children already waited for. -/
  reaped : List (Pid × WaitStatus)
  /-- The groups signalled, each with whether its leader was already reaped. -/
  signals : List (Pid × Bool)

namespace Kernel

def init : Kernel := ⟨1, [], [], []⟩

def pidsOf (l : List (Pid × WaitStatus)) : List Pid := l.map Prod.fst

/-- A running child: forked, and neither dead nor gone. -/
def Alive (k : Kernel) (p : Pid) : Prop :=
  0 < p ∧ p < k.fresh ∧ p ∉ pidsOf k.zombies ∧ p ∉ pidsOf k.reaped

instance (k : Kernel) (p : Pid) : Decidable (k.Alive p) :=
  inferInstanceAs (Decidable (_ ∧ _))

/-- The child died, and with which status. -/
def Died (k : Kernel) (p : Pid) (st : WaitStatus) : Prop :=
  (p, st) ∈ k.zombies ∨ (p, st) ∈ k.reaped

def fork (k : Kernel) : Pid × Kernel := (k.fresh, { k with fresh := k.fresh + 1 })

/-- A running child dies. The kernel may return dead children in any order, so
the place of the new one among the others is free. -/
def die (k : Kernel) (p : Pid) (st : WaitStatus) (place : Nat) : Kernel :=
  if k.Alive p then
    { k with zombies := k.zombies.take place ++ (p, st) :: k.zombies.drop place }
  else k

/-- `waitpid(-1, WNOHANG)`. -/
def waitAny (k : Kernel) : Option (Pid × WaitStatus) × Kernel :=
  match k.zombies with
  | [] => (none, k)
  | z :: zs => (some z, { k with zombies := zs, reaped := z :: k.reaped })

/-- `waitpid(p, WNOHANG)`: the status of `p` if it is dead and was not reaped. -/
def waitPid (k : Kernel) (p : Pid) : Option WaitStatus × Kernel :=
  match k.zombies.find? (fun z => z.1 = p) with
  | none => (none, k)
  | some z =>
      (some z.2, { k with zombies := k.zombies.eraseP (fun z => z.1 = p), reaped := z :: k.reaped })

/-- `kill(-p, sig)`. -/
def kill (k : Kernel) (p : Pid) : Kernel :=
  { k with signals := (p, decide (p ∈ pidsOf k.reaped)) :: k.signals }

/-- No signal went to a group whose leader had been reaped. -/
def SignalsSafe (k : Kernel) : Prop := ∀ s ∈ k.signals, s.2 = false

/-- A process table as the kernel keeps it: a pid dies once, is reaped once, and
was handed out before. -/
structure Sane (k : Kernel) : Prop where
  zombies_nodup : (pidsOf k.zombies).Nodup
  zombies_unreaped : ∀ p ∈ pidsOf k.zombies, p ∉ pidsOf k.reaped
  zombies_lt : ∀ p ∈ pidsOf k.zombies, p < k.fresh
  reaped_lt : ∀ p ∈ pidsOf k.reaped, p < k.fresh

theorem sane_init : init.Sane where
  zombies_nodup := List.nodup_nil
  zombies_unreaped := by simp [init, pidsOf]
  zombies_lt := by simp [init, pidsOf]
  reaped_lt := by simp [init, pidsOf]

theorem Sane.fork {k : Kernel} (h : k.Sane) : k.fork.2.Sane where
  zombies_nodup := h.zombies_nodup
  zombies_unreaped := h.zombies_unreaped
  zombies_lt := fun p hp => Nat.lt_succ_of_lt (h.zombies_lt p hp)
  reaped_lt := fun p hp => Nat.lt_succ_of_lt (h.reaped_lt p hp)

theorem pidsOf_die {k : Kernel} {p : Pid} (hp : k.Alive p) (st : WaitStatus) (place : Nat) :
    (pidsOf (k.die p st place).zombies).Perm (p :: pidsOf k.zombies) := by
  simp only [die, hp, if_true, pidsOf, List.map_append, List.map_cons]
  refine List.perm_middle.trans (List.Perm.cons _ ?_)
  rw [← List.map_append, List.take_append_drop]

theorem Sane.die {k : Kernel} (h : k.Sane) (p : Pid) (st : WaitStatus) (place : Nat) :
    (k.die p st place).Sane := by
  by_cases hp : k.Alive p
  · have hperm := pidsOf_die hp st place
    have hr : (k.die p st place).reaped = k.reaped := by simp [Kernel.die, hp]
    have hf : (k.die p st place).fresh = k.fresh := by simp [Kernel.die, hp]
    have hmem : ∀ q ∈ pidsOf (k.die p st place).zombies, q = p ∨ q ∈ pidsOf k.zombies :=
      fun q hq => List.mem_cons.1 (hperm.mem_iff.1 hq)
    refine ⟨hperm.nodup_iff.2 (List.nodup_cons.2 ⟨hp.2.2.1, h.zombies_nodup⟩), ?_, ?_, ?_⟩
    · intro q hq
      rw [hr]
      rcases hmem q hq with rfl | hq
      · exact hp.2.2.2
      · exact h.zombies_unreaped q hq
    · intro q hq
      rw [hf]
      rcases hmem q hq with rfl | hq
      · exact hp.2.1
      · exact h.zombies_lt q hq
    · rw [hr, hf]
      exact h.reaped_lt
  · simpa [Kernel.die, hp] using h

/-- One zombie leaves for the reaped. -/
theorem Sane.reap {k k' : Kernel} {z : Pid × WaitStatus} (h : k.Sane) (hz : z ∈ k.zombies)
    (hfresh : k'.fresh = k.fresh) (hsub : k'.zombies.Sublist k.zombies)
    (hgone : z.1 ∉ pidsOf k'.zombies) (hreaped : k'.reaped = z :: k.reaped) : k'.Sane := by
  have hmem : ∀ q ∈ pidsOf k'.zombies, q ∈ pidsOf k.zombies := fun q hq =>
    (hsub.map Prod.fst).subset hq
  have hzp : z.1 ∈ pidsOf k.zombies := List.mem_map_of_mem hz
  refine ⟨h.zombies_nodup.sublist (hsub.map Prod.fst), ?_, ?_, ?_⟩
  · intro q hq hr
    rw [hreaped] at hr
    rcases List.mem_cons.1 hr with rfl | hr
    · exact hgone hq
    · exact h.zombies_unreaped q (hmem q hq) hr
  · intro q hq
    rw [hfresh]
    exact h.zombies_lt q (hmem q hq)
  · intro q hq
    rw [hreaped] at hq
    rw [hfresh]
    rcases List.mem_cons.1 hq with rfl | hq
    · exact h.zombies_lt _ hzp
    · exact h.reaped_lt q hq

/-- The pid taken out of the zombies is no longer among them. -/
theorem Sane.not_mem_eraseP {k : Kernel} (h : k.Sane) (p : Pid) :
    p ∉ pidsOf (k.zombies.eraseP fun z => z.1 = p) := by
  have hnodup := h.zombies_nodup
  generalize k.zombies = l at hnodup
  induction l with
  | nil => simp [pidsOf]
  | cons z l ih =>
      simp only [pidsOf, List.map_cons, List.nodup_cons] at hnodup
      by_cases hz : z.1 = p
      · rw [List.eraseP_cons_of_pos (by simpa using hz)]
        exact hz ▸ hnodup.1
      · rw [List.eraseP_cons_of_neg (by simpa using hz)]
        simp only [pidsOf, List.map_cons, List.mem_cons, not_or]
        exact ⟨fun h' => hz h'.symm, ih hnodup.2⟩

end Kernel

/-! ### The pseudo-terminal -/

/-- One pseudo-terminal. `pid` is absent until a shell has been spawned. -/
structure Pty where
  masterOpen : Bool := false
  pid : Option Pid := none
  exited : Bool := false
  signalled : Bool := false
  code : Nat := 0
  deriving DecidableEq

/-- The answer of one `write` on the non-blocking master. -/
inductive WriteResult
  | wrote (n : Nat)
  | again
  deriving DecidableEq

namespace Pty

/-- The pseudo-terminal of a shell just spawned under `p`. -/
def spawned (p : Pid) : Pty := { masterOpen := true, pid := some p }

/-- Write `bytes`: what the kernel takes of them. -/
def write (t : Pty) (bytes : Bytes) (r : WriteResult) : Bytes :=
  if t.masterOpen then
    match r with
    | .wrote n => bytes.take n
    | .again => []
  else []

def closeMaster (t : Pty) : Pty := { t with masterOpen := false }

/-- The process a signal would go to, if any: none before a spawn, and none once
the shell is known to have exited. -/
def target (t : Pty) : Option Pid := if t.exited then none else t.pid

def hangup (k : Kernel) (t : Pty) : Kernel :=
  match t.target with
  | none => k
  | some p => k.kill p

def killNow (k : Kernel) (t : Pty) : Kernel :=
  match t.target with
  | none => k
  | some p => k.kill p

/-- The one way a pseudo-terminal is closed: hang up, close the master, kill. -/
def shutdown (k : Kernel) (t : Pty) : Kernel × Pty :=
  let k := t.hangup k
  let t := t.closeMaster
  (t.killNow k, t)

/-- The end of the shell as its status tells it. -/
def record (t : Pty) : WaitStatus → Pty
  | .exited code => { t with exited := true, code := code }
  | .signaled sig => { t with exited := true, signalled := true, code := sig }

/-- The end recorded is the one `st` tells. -/
def Reports (t : Pty) (st : WaitStatus) : Prop :=
  t.exited = true ∧
    match st with
    | .exited code => t.signalled = false ∧ t.code = code
    | .signaled sig => t.signalled = true ∧ t.code = sig

/-- Reap the shell without blocking: true the one time it is reaped. -/
def tryReap (k : Kernel) (t : Pty) : Bool × Kernel × Pty :=
  match t.target with
  | none => (false, k, t)
  | some p =>
      match k.waitPid p with
      | (none, k) => (false, k, t)
      | (some st, k) => (true, k, t.record st)

/-! ### What each call does to the process table -/

/-- Closing a pseudo-terminal signals its shell, and touches nothing else. -/
theorem shutdown_kernel (k : Kernel) (t : Pty) :
    (t.shutdown k).1.fresh = k.fresh ∧ (t.shutdown k).1.zombies = k.zombies ∧
      (t.shutdown k).1.reaped = k.reaped := by
  simp only [shutdown, hangup, killNow]
  split <;> split <;> exact ⟨rfl, rfl, rfl⟩

/-- Signals stay safe when the shell signalled has not been reaped. -/
theorem shutdown_signalsSafe {k : Kernel} {t : Pty} (hk : k.SignalsSafe)
    (ht : ∀ p, t.target = some p → p ∉ Kernel.pidsOf k.reaped) :
    (t.shutdown k).1.SignalsSafe := by
  have hclose : t.closeMaster.target = t.target := rfl
  simp only [shutdown, hangup, killNow, hclose]
  cases h : t.target with
  | none => exact hk
  | some p =>
      have hp := ht p h
      intro s hs
      simp only [Kernel.kill, List.mem_cons] at hs
      rcases hs with rfl | rfl | hs
      · simp [hp]
      · simp [hp]
      · exact hk s hs

/-- The two outcomes of `tryReap`: nothing happened, or the shell was dead and
not reaped yet, and its end is now recorded. -/
theorem tryReap_cases (k : Kernel) (t : Pty) :
    (t.tryReap k = (false, k, t) ∧
        ∀ p, t.target = some p → p ∉ Kernel.pidsOf k.zombies) ∨
      ∃ p st, t.target = some p ∧ (p, st) ∈ k.zombies ∧
        t.tryReap k =
          (true,
            { k with
              zombies := k.zombies.eraseP (fun z => z.1 = p)
              reaped := (p, st) :: k.reaped },
            t.record st) := by
  unfold tryReap
  cases h : t.target with
  | none => exact .inl ⟨rfl, fun p hp => by cases hp⟩
  | some p =>
      simp only [Kernel.waitPid]
      cases hf : k.zombies.find? (fun z => z.1 = p) with
      | none =>
          refine .inl ⟨rfl, fun p' hp' hmem => ?_⟩
          cases hp'
          obtain ⟨z, hz, hzp⟩ := List.mem_map.1 hmem
          exact absurd (List.find?_eq_none.1 hf z hz) (by simp [hzp])
      | some z =>
          obtain ⟨q, st⟩ := z
          have hq : q = p := by simpa using List.find?_some hf
          subst hq
          exact .inr ⟨q, st, rfl, List.mem_of_find?_eq_some hf, rfl⟩

theorem record_exited (t : Pty) (st : WaitStatus) : (t.record st).exited = true := by
  cases st <;> rfl

end Pty

end Sshos
