import Mathlib.Data.List.Induction
import Mathlib.Data.List.TakeDrop
import Sshos.Lib.Run
import Sshos.Pty.Pty

/-!
# Sshos.Apps.Guest

What a terminal hands to its **guest**: keys, pastes, mouse reports and replies
all go through `toGuest`, which writes them to the pseudo-terminal's master.

The master does not block, so a write may take a part of the bytes, or none.
`GuestLine` follows one tab together with everything handed to it, everything
the kernel took and everything the guest read, and the module settles for which
patterns of write results nothing is lost.
-/

namespace Sshos.Apps

open Sshos.Lib (Bytes run)
open Sshos (Pty WriteResult)

/-- One tab, as far as its guest is concerned: the pseudo-terminal, and the bytes
retained while there is none. -/
structure Tab where
  pty : Pty
  pending : Bytes := []
  deriving DecidableEq

/-- Hand `bytes` to the guest. Without a master they are retained; with one they
are written, and the result of the write is not looked at. Returns the bytes the
kernel took. -/
def Tab.toGuest (t : Tab) (bytes : Bytes) (r : WriteResult) : Bytes × Tab :=
  if bytes.isEmpty then ([], t)
  else if !t.pty.masterOpen then ([], { t with pending := t.pending ++ bytes })
  else (t.pty.write bytes r, t)

/-! ### The line between the user and the guest -/

/-- One tab and the history of its line. -/
structure GuestLine where
  tab : Tab
  /-- Everything handed to `toGuest`. -/
  handed : Bytes
  /-- Everything the kernel took. -/
  accepted : Bytes
  /-- Everything the guest read. -/
  read : Bytes

namespace GuestLine

inductive Op
  /-- Bytes are handed over, and the write answers `r`. -/
  | give (bytes : Bytes) (r : WriteResult)
  /-- The guest reads at most `n` bytes of what waits for it. -/
  | guestReads (n : Nat)

def init (tab : Tab) : GuestLine := ⟨tab, [], [], []⟩

def step (g : GuestLine) : Op → GuestLine
  | .give bytes r =>
      let (taken, tab) := g.tab.toGuest bytes r
      { g with tab := tab, handed := g.handed ++ bytes, accepted := g.accepted ++ taken }
  | .guestReads n => { g with read := g.accepted.take (g.read.length + n) }

/-- **Nothing lost**: the guest has read a prefix of what was handed over, and
what the kernel has not taken is retained, in order. -/
def Lossless (g : GuestLine) : Prop :=
  g.read <+: g.handed ∧ g.accepted ++ g.tab.pending = g.handed

/-- The write takes all the bytes it is given. -/
def TakesAll : Op → Prop
  | .give bytes (.wrote n) => bytes.length ≤ n
  | .give bytes .again => bytes = []
  | .guestReads _ => True

/-- What one `give` does to a tab whose master is open. -/
theorem toGuest_of_open {t : Tab} (h : t.pty.masterOpen = true) (bytes : Bytes)
    (r : WriteResult) : t.toGuest bytes r = (t.pty.write bytes r, t) := by
  unfold Tab.toGuest
  cases bytes with
  | nil => cases r <;> simp [Pty.write, h]
  | cons b bs => simp [h]

theorem write_prefix (t : Pty) (bytes : Bytes) (r : WriteResult) :
    t.write bytes r <+: bytes := by
  unfold Pty.write
  split
  · cases r with
    | wrote n => exact List.take_prefix _ _
    | again => exact List.nil_prefix
  · exact List.nil_prefix

theorem write_eq_iff_takesAll {t : Pty} (h : t.masterOpen = true) (bytes : Bytes)
    (r : WriteResult) : t.write bytes r = bytes ↔ TakesAll (.give bytes r) := by
  cases r with
  | wrote n => simp [Pty.write, h, TakesAll, List.take_eq_self_iff]
  | again => simp [Pty.write, h, TakesAll, eq_comm]

/-- What holds along every run on an open master: no byte is taken twice, what is
taken falls short of what was handed over exactly when some write fell short, and
the guest reads what was taken, in order. -/
theorem run_spec {tab : Tab} (hopen : tab.pty.masterOpen = true) (ops : List Op) :
    let g := run step (init tab) ops
    g.tab = tab ∧ g.read <+: g.accepted ∧ g.accepted.length ≤ g.handed.length ∧
      ((∀ op ∈ ops, TakesAll op) → g.accepted = g.handed) ∧
      (g.accepted.length = g.handed.length → ∀ op ∈ ops, TakesAll op) := by
  induction ops using List.reverseRecOn with
  | nil => exact ⟨rfl, List.prefix_rfl, Nat.le_refl _, fun _ => rfl, fun _ op h => by cases h⟩
  | append_singleton ops op ih =>
      simp only [Lib.run_append, Lib.run_cons, Lib.run_nil]
      generalize run step (init tab) ops = g at ih
      obtain ⟨htab, hread, hle, hall, hlen⟩ := ih
      cases op with
      | give bytes r =>
          have hstep := toGuest_of_open (htab.symm ▸ hopen) bytes r
          have hpre := write_prefix g.tab.pty bytes r
          have hw := hpre.length_le
          have hiff := write_eq_iff_takesAll (htab.symm ▸ hopen) bytes r
          simp only [step, hstep, List.length_append]
          refine ⟨htab, hread.trans (List.prefix_append _ _), by omega, fun h => ?_, fun h => ?_⟩
          · rw [hall fun op hop => h op (List.mem_append_left _ hop),
              hiff.2 (h _ (List.mem_append_right _ (List.mem_singleton.2 rfl)))]
          · intro op hop
            rcases List.mem_append.1 hop with hop | hop
            · exact hlen (by omega) op hop
            · rw [List.mem_singleton.1 hop]
              exact hiff.1 (hpre.eq_of_length (by omega))
      | guestReads n =>
          refine ⟨htab, List.take_prefix _ _, hle, fun h => ?_, fun h op hop => ?_⟩
          · exact hall fun op hop => h op (List.mem_append_left _ hop)
          · rcases List.mem_append.1 hop with hop | hop
            · exact hlen h op hop
            · rw [List.mem_singleton.1 hop]
              trivial

/-- **No lost input, exactly when.** On an open master, nothing is lost along a
run if and only if every write of the run takes all its bytes: a short write, or
one that would block, drops what it did not take. -/
theorem lossless_iff_takesAll {tab : Tab} (hopen : tab.pty.masterOpen = true)
    (hpending : tab.pending = []) (ops : List Op) :
    (run step (init tab) ops).Lossless ↔ ∀ op ∈ ops, TakesAll op := by
  obtain ⟨htab, hread, -, hall, hlen⟩ := run_spec hopen ops
  constructor
  · rintro ⟨-, heq⟩
    rw [htab, hpending, List.append_nil] at heq
    exact hlen (congrArg List.length heq)
  · intro h
    have heq := hall h
    exact ⟨heq ▸ hread, by rw [htab, hpending, List.append_nil, heq]⟩

/-- The tab of a shell just spawned. -/
def freshTab : Tab := { pty := .spawned 1 }

theorem lossless_iff_takesAll_typed :
    (run step (init freshTab) [.give [108, 115] (.wrote 2), .guestReads 1]).Lossless :=
  (lossless_iff_takesAll rfl rfl _).2 (by simp [TakesAll])

/-- A write that takes one byte of two. -/
theorem short_write_loses :
    ¬ (run step (init freshTab) [.give [108, 115] (.wrote 1)]).Lossless := by
  intro h
  exact absurd h.2 (by decide)

end GuestLine

end Sshos.Apps
