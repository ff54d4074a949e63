import Mathlib.Logic.Function.Basic
import Mathlib.Data.Set.Function
import Mathlib.Tactic.Common

/-!
# Sshos.Lib.Volume

**Volumes**: names, and the files behind them. A name stands for a file, which other names may
stand for too, or for a symbolic link to a name. What is opened is the file a name leads to, down
all links; what is removed or renamed is the name itself.
-/

namespace Sshos.Lib

universe u v

/-- What a name stands for. -/
inductive Standing (Name : Type u)
  | file (ino : Nat)
  | link (target : Name)
  /-- A directory, a device. -/
  | other
  deriving Repr, DecidableEq

structure Inode (α : Type v) where
  mode : BitVec 12
  content : List α
  deriving DecidableEq

structure Volume (Name : Type u) (α : Type v) where
  entry : Name → Option (Standing Name)
  inode : Nat → Inode α
  /-- The first number that no file has. -/
  fresh : Nat
  named : ∀ n i, entry n = some (.file i) → i < fresh

namespace Volume

variable {Name : Type u} {α : Type v} (d : Volume Name α)

/-! ### Where a name leads -/

/-- The end of the links, if there are not too many. -/
def lead : Nat → Name → Option Name
  | 0, n =>
      match d.entry n with
      | some (.link _) => none
      | _ => some n
  | left + 1, n =>
      match d.entry n with
      | some (.link target) => lead left target
      | _ => some n

/-- The names on the way. -/
def chain : Nat → Name → List Name
  | 0, n => [n]
  | left + 1, n =>
      match d.entry n with
      | some (.link target) => n :: chain left target
      | _ => [n]

/-- How many links are followed. -/
def kLinks : Nat := 40

/-- The file a name leads to. -/
def fileAt (n : Name) : Option Nat :=
  match d.lead kLinks n with
  | none => none
  | some m =>
      match d.entry m with
      | some (.file i) => some i
      | _ => none

def read (n : Name) : Option (List α) := (d.fileAt n).map fun i => (d.inode i).content

def modeOf (n : Name) : Option (BitVec 12) := (d.fileAt n).map fun i => (d.inode i).mode

variable {d} {d' : Volume Name α} {left k : Nat} {n m q : Name} {i : Nat}

theorem lead_link {target : Name} (h : d.entry n = some (.link target)) :
    d.lead (left + 1) n = d.lead left target := by
  rw [lead, h]

theorem lead_end (h : ∀ target, d.entry n ≠ some (.link target)) : d.lead left n = some n := by
  cases left <;> rw [lead] <;> split <;> first | rfl | exact absurd ‹_› (h _)

theorem chain_link {target : Name} (h : d.entry n = some (.link target)) :
    d.chain (left + 1) n = n :: d.chain left target := by
  rw [chain, h]

theorem chain_end (h : ∀ target, d.entry n ≠ some (.link target)) : d.chain left n = [n] := by
  cases left <;> rw [chain]
  split <;> first | rfl | exact absurd ‹_› (h _)

theorem mem_chain_self : n ∈ d.chain left n := by
  cases left <;> rw [chain]
  · exact List.mem_singleton_self n
  · split <;> exact List.mem_cons_self ..

/-- **Induction down the links** of a name that leads somewhere. -/
theorem lead_induction {P : Nat → Name → Prop}
    (hend : ∀ left, (∀ target, d.entry m ≠ some (.link target)) → P left m)
    (hlink : ∀ left n target, d.entry n = some (.link target) → d.lead left target = some m →
      P left target → P (left + 1) n) (h : d.lead left n = some m) : P left n := by
  induction left generalizing n with
  | zero =>
      rw [lead] at h
      split at h
      · cases h
      next hno =>
        cases h
        exact hend 0 hno
  | succ left ih =>
      by_cases hl : ∃ target, d.entry n = some (.link target)
      · obtain ⟨target, htarget⟩ := hl
        rw [lead_link htarget] at h
        exact hlink left n target htarget h (ih h)
      · have hno : ∀ target, d.entry n ≠ some (.link target) := fun target ht => hl ⟨target, ht⟩
        rw [lead_end hno] at h
        cases h
        exact hend _ hno

theorem lead_no_link (h : d.lead left n = some m) (target : Name) :
    d.entry m ≠ some (.link target) :=
  lead_induction (P := fun _ _ => ∀ target, d.entry m ≠ some (.link target)) (fun _ hno => hno)
    (fun _ _ _ _ _ ih => ih) h target

/-- More links may be followed. -/
theorem lead_mono (h : d.lead left n = some m) (hle : left ≤ k) : d.lead k n = some m := by
  refine lead_induction (P := fun left n => ∀ k, left ≤ k → d.lead k n = some m) ?_ ?_ h k hle
  · exact fun left hno k _ => lead_end hno
  · intro left n target htarget _ ih k hk
    obtain ⟨k, rfl⟩ := Nat.exists_eq_add_of_lt hk
    rw [lead_link htarget]
    exact ih _ (by omega)

/-- What is on the way leads where the name does. -/
theorem lead_of_mem_chain (h : d.lead left n = some m) (hq : q ∈ d.chain left n) :
    d.lead left q = some m := by
  refine lead_induction (P := fun left n => ∀ q ∈ d.chain left n, d.lead left q = some m) ?_ ?_ h q hq
  · intro left hno q hq
    rw [chain_end hno, List.mem_singleton] at hq
    rw [hq]
    exact lead_end hno
  · intro left n target htarget hlead ih q hq
    rw [chain_link htarget, List.mem_cons] at hq
    rcases hq with rfl | hq
    · rwa [lead_link htarget]
    · exact lead_mono (ih q hq) (Nat.le_succ left)

/-- On the way there are links, and then the end. -/
theorem entry_of_mem_chain (h : d.lead left n = some m) (hq : q ∈ d.chain left n) :
    q = m ∨ ∃ target, d.entry q = some (.link target) := by
  by_cases hl : ∃ target, d.entry q = some (.link target)
  · exact .inr hl
  · have hend := @lead_end _ _ d left q fun target ht => hl ⟨target, ht⟩
    exact .inl (Option.some.inj (hend.symm.trans (lead_of_mem_chain h hq)))

theorem mem_chain_lead (h : d.lead left n = some m) : m ∈ d.chain left n := by
  refine lead_induction (P := fun left n => m ∈ d.chain left n) ?_ ?_ h
  · intro left hno
    rw [chain_end hno]
    exact List.mem_singleton_self m
  · intro left n target htarget _ ih
    rw [chain_link htarget]
    exact List.mem_cons_of_mem n ih

/-- Only what is on the way matters. -/
theorem lead_congr (h : d.lead left n = some m)
    (hsame : ∀ q ∈ d.chain left n, d'.entry q = d.entry q) : d'.lead left n = some m := by
  refine lead_induction (P := fun left n =>
    (∀ q ∈ d.chain left n, d'.entry q = d.entry q) → d'.lead left n = some m) ?_ ?_ h hsame
  · intro left hno hsame
    have hm := hsame m (by rw [chain_end hno]; exact List.mem_singleton_self m)
    exact lead_end fun target => by rw [hm]; exact hno target
  · intro left n target htarget _ ih hsame
    rw [chain_link htarget] at hsame
    have hn := hsame n (List.mem_cons_self ..)
    rw [lead_link (hn.trans htarget)]
    exact ih fun q hq => hsame q (List.mem_cons_of_mem n hq)

theorem fileAt_iff : d.fileAt n = some i ↔
    ∃ m, d.lead kLinks n = some m ∧ d.entry m = some (.file i) := by
  unfold fileAt
  split
  next hnone => simp [hnone]
  next m hm =>
    simp only [hm, Option.some.injEq, exists_eq_left']
    split
    next j hj => simp [hj]
    next hno => exact iff_of_false (by simp) (hno i)

theorem fileAt_file (h : d.entry n = some (.file i)) : d.fileAt n = some i :=
  fileAt_iff.2 ⟨n, lead_end (by simp [h]), h⟩

/-- A name keeps its file if what is on the way does not change. -/
theorem fileAt_congr (h : d.fileAt n = some i)
    (hsame : ∀ q ∈ d.chain kLinks n, d'.entry q = d.entry q) : d'.fileAt n = some i := by
  obtain ⟨m, hlead, hm⟩ := fileAt_iff.1 h
  refine fileAt_iff.2 ⟨m, lead_congr hlead hsame, ?_⟩
  rw [hsame m (mem_chain_lead hlead), hm]

theorem fileAt_of_mem_chain (h : d.fileAt n = some i) (hq : q ∈ d.chain kLinks n) :
    d.fileAt q = some i := by
  obtain ⟨m, hlead, hm⟩ := fileAt_iff.1 h
  exact fileAt_iff.2 ⟨m, lead_of_mem_chain hlead hq, hm⟩

/-- On the way to a file there is something. -/
theorem entry_ne_none_of_mem_chain (h : d.fileAt n = some i) (hq : q ∈ d.chain kLinks n) :
    d.entry q ≠ none := by
  obtain ⟨m, hlead, hm⟩ := fileAt_iff.1 h
  rcases entry_of_mem_chain hlead hq with rfl | ⟨target, ht⟩
  · simp [hm]
  · simp [ht]

theorem read_of_fileAt (h : d.fileAt n = some i) : d.read n = some (d.inode i).content := by
  rw [read, h]
  rfl

theorem modeOf_of_fileAt (h : d.fileAt n = some i) : d.modeOf n = some (d.inode i).mode := by
  rw [modeOf, h]
  rfl

theorem fileAt_lt (h : d.fileAt n = some i) : i < d.fresh := by
  obtain ⟨m, -, hm⟩ := fileAt_iff.1 h
  exact d.named m i hm

/-! ### System calls -/

/-- `ftruncate` and `write`, of a file that is open: its content becomes `c`. -/
def store (d : Volume Name α) (i : Nat) (c : List α) : Volume Name α :=
  { d with inode := Function.update d.inode i { d.inode i with content := c } }

variable {mode : BitVec 12} {c : List α} {j : Nat}

theorem lead_of_entry (h : d'.entry = d.entry) : d'.lead left n = d.lead left n := by
  induction left generalizing n with
  | zero => simp only [lead, h]
  | succ left ih => simp only [lead, h, ih]

theorem chain_of_entry (h : d'.entry = d.entry) : d'.chain left n = d.chain left n := by
  induction left generalizing n with
  | zero => rfl
  | succ left ih => simp only [chain, h, ih]

theorem fileAt_of_entry (h : d'.entry = d.entry) : d'.fileAt n = d.fileAt n := by
  simp only [fileAt, lead_of_entry h, h]

@[simp] theorem entry_store : (d.store i c).entry = d.entry := rfl

@[simp] theorem fileAt_store : (d.store i c).fileAt n = d.fileAt n := fileAt_of_entry rfl

theorem inode_store : (d.store i c).inode i = { d.inode i with content := c } :=
  Function.update_self ..

theorem inode_store_ne (h : j ≠ i) : (d.store i c).inode j = d.inode j := Function.update_of_ne h ..

theorem store_store (c' : List α) : (d.store i c).store i c' = d.store i c' := by
  simp [store]

section Calls

variable [DecidableEq Name] (d)

/-- A new file, where there is nothing. -/
def create (n : Name) (mode : BitVec 12) : Volume Name α where
  entry := Function.update d.entry n (some (.file d.fresh))
  inode := Function.update d.inode d.fresh { mode, content := [] }
  fresh := d.fresh + 1
  named := by
    intro m i hm
    by_cases hmn : m = n
    · subst hmn
      rw [Function.update_self] at hm
      cases hm
      exact Nat.lt_succ_self _
    · rw [Function.update_of_ne hmn] at hm
      exact Nat.lt_succ_of_lt (d.named m i hm)

/-- `open` with `O_WRONLY | O_CREAT | O_TRUNC`. The links are followed, that of the last name too,
to make a file as well as to empty one. -/
def openTrunc (n : Name) (mode : BitVec 12) : Option (Volume Name α × Nat) :=
  match d.lead kLinks n with
  | none => none
  | some m =>
      match d.entry m with
      | none => some (d.create m mode, d.fresh)
      | some (.file i) => some (d.store i [], i)
      | some (.link _) | some .other => none

/-- Take a name away. -/
def unname (n : Name) : Volume Name α where
  entry := Function.update d.entry n none
  inode := d.inode
  fresh := d.fresh
  named := by
    intro m i hm
    by_cases hmn : m = n
    · subst hmn
      rw [Function.update_self] at hm
      cases hm
    · rw [Function.update_of_ne hmn] at hm
      exact d.named m i hm

/-- `unlink`, which removes no directory. -/
def unlink (n : Name) : Volume Name α := if d.entry n = some .other then d else d.unname n

/-- The name `m` stands for what `n` stood for. -/
def move (n m : Name) : Volume Name α where
  entry := Function.update (Function.update d.entry m (d.entry n)) n none
  inode := d.inode
  fresh := d.fresh
  named := by
    intro q i hq
    by_cases hqn : q = n
    · subst hqn
      rw [Function.update_self] at hq
      cases hq
    · rw [Function.update_of_ne hqn] at hq
      by_cases hqm : q = m
      · subst hqm
        rw [Function.update_self] at hq
        exact d.named n i hq
      · rw [Function.update_of_ne hqm] at hq
        exact d.named q i hq

/-- `rename`, of what is no directory. Between two names of one file, it does nothing. -/
def rename (n m : Name) : Option (Volume Name α) :=
  match d.entry n, d.entry m with
  | none, _ | some .other, _ | _, some .other => none
  | some (.file i), some (.file j) => if i = j then some d else some (d.move n m)
  | _, _ => if n = m then some d else some (d.move n m)

variable {d}

theorem entry_create (h : q ≠ n) : (d.create n mode).entry q = d.entry q := Function.update_of_ne h ..

theorem entry_create_self : (d.create n mode).entry n = some (.file d.fresh) := Function.update_self ..

theorem inode_create_ne (h : j ≠ d.fresh) : (d.create n mode).inode j = d.inode j :=
  Function.update_of_ne h ..

theorem inode_create : (d.create n mode).inode d.fresh = { mode, content := [] } :=
  Function.update_self ..

theorem entry_unname (h : q ≠ n) : (d.unname n).entry q = d.entry q := Function.update_of_ne h ..

theorem entry_unname_self : (d.unname n).entry n = none := Function.update_self ..

theorem entry_move (hn : q ≠ n) (hm : q ≠ m) : (d.move n m).entry q = d.entry q :=
  (Function.update_of_ne hn ..).trans (Function.update_of_ne hm ..)

theorem entry_move_from : (d.move n m).entry n = none := Function.update_self ..

theorem entry_move_to (h : m ≠ n) : (d.move n m).entry m = d.entry n :=
  (Function.update_of_ne h ..).trans (Function.update_self ..)

theorem unlink_eq (h : d.entry n ≠ some .other) : d.unlink n = d.unname n := if_neg h

/-- What `open` gives: a new file at the end of the links, or the one that is there, empty. -/
theorem openTrunc_cases (h : d.openTrunc n mode = some (d', i)) :
    (∃ m, d.lead kLinks n = some m ∧ d.entry m = none ∧ d' = d.create m mode ∧ i = d.fresh) ∨
    (d.fileAt n = some i ∧ d' = d.store i []) := by
  unfold openTrunc at h
  split at h
  · cases h
  next m hm =>
  split at h
  next hnone =>
    cases h
    exact .inl ⟨m, hm, hnone, rfl, rfl⟩
  next j hj =>
    cases h
    exact .inr ⟨fileAt_iff.2 ⟨m, hm, hj⟩, rfl⟩
  · cases h
  · cases h

/-- What `rename` gives: the name moved, or nothing done between two names of one file. -/
theorem rename_cases (hne : n ≠ m) (h : d.rename n m = some d') :
    (∃ i, d.entry n = some (.file i) ∧ d.entry m = some (.file i)) ∧ d' = d ∨
    (∀ i, d.entry n = some (.file i) → d.entry m ≠ some (.file i)) ∧ d' = d.move n m := by
  unfold rename at h
  split at h
  · cases h
  · cases h
  · cases h
  next i j hi hj =>
    split at h
    next hij =>
      cases h
      exact .inl ⟨⟨i, hi, hij ▸ hj⟩, rfl⟩
    next hij =>
      cases h
      refine .inr ⟨fun k hk hk' => hij ?_, rfl⟩
      rw [hi] at hk
      rw [hj] at hk'
      cases hk
      cases hk'
      rfl
  next hno =>
    rw [if_neg hne] at h
    cases h
    exact .inr ⟨fun k hk hk' => hno k k hk hk', rfl⟩

theorem rename_ne_none (hn : d.entry n ≠ none) (hother : d.entry n ≠ some .other)
    (hm : d.entry m ≠ some .other) : d.rename n m ≠ none := by
  unfold rename
  split
  next h => exact absurd h hn
  next h => exact absurd h hother
  next h _ _ => exact absurd h hm
  all_goals split <;> nofun

/-- A name that has lost a link on its way, or its end, leads to no file. -/
theorem fileAt_unname (h : d.fileAt n = some i) (hq : q ∈ d.chain kLinks n) :
    (d.unname q).fileAt n = none := by
  obtain ⟨m, hlead, -⟩ := fileAt_iff.1 h
  have hcut : (d.unname q).lead kLinks n = some q := by
    refine lead_induction (P := fun left n => q ∈ d.chain left n →
      (d.unname q).lead left n = some q) ?_ ?_ hlead hq
    · intro left hno hq
      rw [chain_end hno, List.mem_singleton] at hq
      rw [← hq]
      exact lead_end (by simp [entry_unname_self])
    · intro left n target htarget _ ih hq
      by_cases hqn : q = n
      · rw [← hqn]
        exact lead_end (by simp [entry_unname_self])
      · rw [chain_link htarget, List.mem_cons, or_iff_right hqn] at hq
        rw [lead_link ((entry_unname (Ne.symm hqn)).trans htarget)]
        exact ih hq
  simp [fileAt, hcut, entry_unname_self]

theorem fileAt_unname_ne (h : d.fileAt n = some i) (hq : q ∉ d.chain kLinks n) :
    (d.unname q).fileAt n = some i :=
  fileAt_congr h fun _ hr => entry_unname fun heq => hq (heq ▸ hr)

/-- A volume of one file. -/
def one (n : Name) (file : Inode α) : Volume Name α where
  entry := Function.update (fun _ => none) n (some (.file 0))
  inode _ := file
  fresh := 1
  named := by
    intro m i hm
    by_cases hmn : m = n
    · subst hmn
      rw [Function.update_self] at hm
      cases hm
      exact Nat.one_pos
    · rw [Function.update_of_ne hmn] at hm
      cases hm

end Calls

end Volume

end Sshos.Lib
