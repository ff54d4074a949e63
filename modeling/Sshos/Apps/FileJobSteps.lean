import Sshos.Apps.FileJob
import Sshos.Lib.Run

/-!
# Sshos.Apps.FileJobSteps

**What a step can do**, said once: what becomes of the thing on top of the stack, and what
becomes of the file that is copied. What holds of a disk after each of these holds after a
step, and after a run.
-/

namespace Sshos.Apps

open Sshos.Lib (Bytes Errno FileTree Node)

namespace Disk

variable {d d' : Disk}

/-! ### The thing on top -/

/-- What is to be taken next, if it is not the mark of a removal. -/
def Takes (d : Disk) (it : Item) : Prop :=
  d.job.active = true ∧ d.job.copying = none ∧ it.rmdirOnly = false ∧
    ∃ rest, d.job.pending = it :: rest

/-- The mark of a directory's own removal, when there is to be one. -/
def marks (kind : FileOp) (it : Item) : List Item :=
  if kind = .copy then [] else [{ src := it.src, dst := [], rmdirOnly := true }]

def mark (d : Disk) (it : Item) : Disk := d.push (marks d.job.kind it)

/-- A directory is there, or it is made. -/
inductive MadeDir (d : Disk) (it : Item) : Disk → Prop
  | delete (hkind : d.job.kind = .delete) : MadeDir d it d
  | there (hkind : d.job.kind ≠ .delete) (hthere : d.tree.node it.dst ≠ none) : MadeDir d it d
  | made (hkind : d.job.kind ≠ .delete) (t : Tree) (hmake : d.tree.make it.dst .dir = .ok t) :
      MadeDir d it ((d.commit t).record it.dst .dir)

/-- What a directory holds, as things to treat. -/
def inside (kind : FileOp) (it : Item) (names : List Bytes) : List Item :=
  (names.map fun n =>
    { src := it.src ++ [n], dst := if kind = .delete then [] else it.dst ++ [n] : Item }).reverse

/-- The things in a directory are on the stack. -/
def walked (d : Disk) (it : Item) (names : List Bytes) : Disk :=
  { d with
    listed := names.map (it.src ++ [·]) ++ d.listed
    job := { d.job with
      pending := inside d.job.kind it names ++ (marks d.job.kind it ++ d.job.pending)
      done := if d.job.kind = .delete then d.job.done else d.job.done + 1 } }

/-- What may become of the thing on top, once it has been taken off: `d` is the disk then. -/
inductive Took (d : Disk) (it : Item) : Disk → Prop
  | failed (p : Path) (e : Errno) : Took d it (d.fail p e)
  | removedDir (hmark : it.rmdirOnly = true) (t : Tree) (hrmdir : d.tree.rmdir it.src = .ok t) :
      Took d it (if d.job.kind = .delete then (d.commit t).count else d.commit t)
  | shut (hmark : it.rmdirOnly = false) (hdir : d.tree.node it.src = some .dir) (m : Disk)
      (hmade : MadeDir d it m) (e : Errno) : Took d it ((m.mark it).fail it.src e)
  | walked (hmark : it.rmdirOnly = false) (hdir : d.tree.node it.src = some .dir) (m : Disk)
      (hmade : MadeDir d it m) (names : List Bytes) (hnames : names.Perm (m.tree.children it.src)) :
      Took d it (m.walked it names)
  | unlinked (hmark : it.rmdirOnly = false) (hkind : d.job.kind = .delete) (t : Tree)
      (hunlink : d.tree.unlink it.src = .ok t) : Took d it (d.commit t).count
  | renamed (hmark : it.rmdirOnly = false) (hkind : d.job.kind = .move) (c : Bytes)
      (hfile : d.tree.node it.src = some (.file c)) (t : Tree)
      (hrename : d.tree.rename it.src it.dst = .ok t) :
      Took d it (if it.dst = it.src then d.commit t else (d.commit t).record it.dst (.file c)).count
  | opened (hmark : it.rmdirOnly = false) (hkind : d.job.kind ≠ .delete) (c : Bytes)
      (hfile : d.tree.node it.src = some (.file c)) (t : Tree)
      (hmake : d.tree.make it.dst (.file []) = .ok t) :
      Took d it { (d.commit t).record it.dst (.file c) with
        job := { d.job with copying := some { src := it.src, dst := it.dst } } }

theorem mem_inside {kind : FileOp} {it j : Item} {names : List Bytes} :
    j ∈ inside kind it names ↔
      ∃ n ∈ names, j = { src := it.src ++ [n], dst := if kind = .delete then [] else it.dst ++ [n] } := by
  unfold inside
  rw [List.mem_reverse, List.mem_map]
  simp only [eq_comm]

theorem mem_marks {kind : FileOp} {it j : Item} :
    j ∈ marks kind it ↔ kind ≠ .copy ∧ j = { src := it.src, dst := [], rmdirOnly := true } := by
  unfold marks
  split
  next hcopy => simp [hcopy]
  next hcopy => simp [hcopy]

namespace MadeDir

variable {it : Item} {m : Disk}

/-- To make a directory changes nothing else. -/
theorem keeps (h : MadeDir d it m) : m.job = d.job ∧ m.listed = d.listed ∧ m.takes = d.takes := by
  cases h
  all_goals exact ⟨rfl, rfl, rfl⟩

/-- A directory is made where there is nothing. -/
theorem node_ne (h : MadeDir d it m) {q : Path} (hq : ¬ (q = it.dst ∧ d.tree.node it.dst = none)) :
    m.tree.node q = d.tree.node q := by
  cases h with
  | delete => rfl
  | there => rfl
  | made hkind t hmake =>
      obtain ⟨hfree, -, hnode⟩ := FileTree.make_ok hmake
      refine (hnode q).trans (if_neg fun heq => hq ⟨heq, hfree⟩)

end MadeDir

theorem lstat_ok {t : Tree} {p : Path} {nd : Node Bytes} (h : t.lstat p = .ok nd) :
    t.node p = some nd := by
  unfold FileTree.lstat at h
  split at h
  · cases h
  · cases h
    assumption

theorem madeDir_of_makeDir {a : Answers} {it : Item} (h : d.makeDir a it = .ok d') :
    MadeDir d it d' := by
  unfold makeDir at h
  split at h
  next hkind =>
    cases h
    exact .delete hkind
  next hkind =>
  split at h
  next t hmake =>
    cases h
    exact .made hkind t (orFault_ok hmake)
  next hexist =>
    cases h
    exact .there hkind (FileTree.make_error_exist (orFault_exist hexist))
  next => cases h

theorem mark_eq (m : Disk) (it : Item) : (if m.job.kind = .copy then m
    else m.push [{ src := it.src, dst := [], rmdirOnly := true }]) = m.mark it := by
  unfold mark marks
  split
  all_goals rfl

theorem walk_open {m : Disk} {a : Answers} {it : Item} (hopen : a.opendir = none) :
    m.walk a it = m.walked it (m.readdir it.src a.listing) := by
  unfold walk
  rw [mark_eq, hopen]
  unfold walked
  by_cases hdelete : m.job.kind = .delete
  · rw [if_pos hdelete]
    exact if_pos hdelete
  · rw [if_neg hdelete]
    exact if_neg hdelete

/-- To walk a directory is to refuse it, or to put what it holds on the stack. -/
theorem walk_cases (m : Disk) (a : Answers) (it : Item) :
    (∃ e, m.walk a it = (m.mark it).fail it.src e) ∨
    ∃ names, names.Perm (m.tree.children it.src) ∧ m.walk a it = m.walked it names := by
  cases hopen : a.opendir with
  | some code =>
      refine .inl ⟨.fault code, ?_⟩
      unfold walk
      rw [mark_eq, hopen]
  | none =>
      refine .inr ⟨m.readdir it.src a.listing, ?_, walk_open hopen⟩
      unfold readdir
      split
      · assumption
      · exact List.Perm.refl _

theorem took_takeDir {a : Answers} {it : Item} (hmark : it.rmdirOnly = false)
    (hdir : d.tree.node it.src = some .dir) : Took d it (d.takeDir a it) := by
  unfold takeDir
  split
  next => exact .failed _ _
  next m hm =>
  have hmade := madeDir_of_makeDir hm
  rcases walk_cases m a it with ⟨e, hwalk⟩ | ⟨names, hnames, hwalk⟩
  · rw [hwalk]
    exact .shut hmark hdir m hmade e
  · rw [hwalk]
    exact .walked hmark hdir m hmade names hnames

theorem took_takeFile {a : Answers} {it : Item} {c : Bytes} (hmark : it.rmdirOnly = false)
    (hfile : d.tree.node it.src = some (.file c)) : Took d it (d.takeFile a it c) := by
  unfold takeFile
  split
  next hkind =>
    split
    next e _ => exact .failed _ _
    next t hunlink => exact .unlinked hmark hkind t hunlink
  next hkind =>
  simp only
  split
  next t hrenamed =>
    split at hrenamed
    next hmove =>
      cases hcase : orFault a.rename (d.tree.rename it.src it.dst) with
      | error e =>
          rw [hcase] at hrenamed
          cases hrenamed
      | ok t' =>
          rw [hcase] at hrenamed
          cases hrenamed
          exact .renamed hmark hmove c hfile t (orFault_ok hcase)
    next => cases hrenamed
  next =>
  split
  next => exact .failed _ _
  next =>
  split
  next => exact .failed _ _
  next t hmake => exact .opened hmark hkind c hfile t (orFault_ok hmake)

/-- **What becomes of the thing on top.** -/
theorem took_takeNext {a : Answers} {it : Item} {rest : List Item}
    (hpending : d.job.pending = it :: rest) : Took (d.pop rest) it (d.takeNext a) := by
  unfold takeNext
  rw [hpending]
  simp only
  split
  next hmark =>
    unfold takeMarker
    split
    · exact .failed _ _
    next t hrmdir => exact .removedDir hmark t hrmdir
  next hmark =>
    have hmark : it.rmdirOnly = false := by simpa using hmark
    split
    · exact .failed _ _
    next hdir => exact took_takeDir hmark (lstat_ok (orFault_ok hdir))
    next c hfile => exact took_takeFile hmark (lstat_ok (orFault_ok hfile))

/-- What is on the stack afterwards was there, or is the mark of a directory, or is in one. -/
theorem took_pending {it j : Item} (h : Took d it d') (hj : j ∈ d'.job.pending) :
    j ∈ d.job.pending ∨ j = { src := it.src, dst := [], rmdirOnly := true } ∨
    it.rmdirOnly = false ∧
      ∃ n, j = { src := it.src ++ [n], dst := if d.job.kind = .delete then [] else it.dst ++ [n] } := by
  cases h with
  | failed => exact .inl hj
  | removedDir =>
      split at hj
      all_goals exact .inl hj
  | shut _ _ m hm =>
      have hj : j ∈ marks m.job.kind it ++ m.job.pending := hj
      rw [hm.keeps.1] at hj
      rcases List.mem_append.1 hj with hj | hj
      · exact .inr (.inl (mem_marks.1 hj).2)
      · exact .inl hj
  | walked hmark _ m hm names =>
      have hj : j ∈ inside m.job.kind it names ++ (marks m.job.kind it ++ m.job.pending) := hj
      rw [hm.keeps.1] at hj
      rcases List.mem_append.1 hj with hj | hj
      · obtain ⟨n, -, heq⟩ := mem_inside.1 hj
        exact .inr (.inr ⟨hmark, n, heq⟩)
      · rcases List.mem_append.1 hj with hj | hj
        · exact .inr (.inl (mem_marks.1 hj).2)
        · exact .inl hj
  | unlinked => exact .inl hj
  | renamed =>
      split at hj
      all_goals exact .inl hj
  | opened => exact .inl hj

/-- It goes on, and does what it did. -/
theorem took_keeps {it : Item} (h : Took d it d') :
    d'.job.active = d.job.active ∧ d'.job.kind = d.job.kind := by
  cases h with
  | failed => exact ⟨rfl, rfl⟩
  | removedDir =>
      split
      all_goals exact ⟨rfl, rfl⟩
  | shut _ _ m hm =>
      show m.job.active = _ ∧ m.job.kind = _
      rw [hm.keeps.1]
      exact ⟨rfl, rfl⟩
  | walked _ _ m hm =>
      show m.job.active = _ ∧ m.job.kind = _
      rw [hm.keeps.1]
      exact ⟨rfl, rfl⟩
  | unlinked => exact ⟨rfl, rfl⟩
  | renamed =>
      split
      all_goals exact ⟨rfl, rfl⟩
  | opened => exact ⟨rfl, rfl⟩

/-! ### The file that is copied -/

/-- `unlink` takes away a file, or nothing. -/
theorem node_unlink_ne {p q : Path} (hq : q ≠ p) : (d.unlink p).tree.node q = d.tree.node q := by
  unfold unlink
  split
  next t hunlink =>
    have hnode := (FileTree.unlink_ok hunlink).2 q
    rw [if_neg hq] at hnode
    exact hnode
  next => rfl

theorem node_unlink {p q : Path} {c : Bytes} (hfile : d.tree.node p = some (.file c)) :
    (d.unlink p).tree.node q = if q = p then none else d.tree.node q := by
  obtain ⟨t, hunlink⟩ := FileTree.unlink_file hfile
  unfold unlink
  rw [hunlink]
  exact (FileTree.unlink_ok hunlink).2 q

/-- Besides the tree, `unlink` changes nothing. -/
theorem unlink_keeps (p : Path) :
    (d.unlink p).job = d.job ∧ (d.unlink p).made = d.made ∧ (d.unlink p).listed = d.listed ∧
    (d.unlink p).takes = d.takes := by
  unfold unlink
  split
  all_goals exact ⟨rfl, rfl, rfl, rfl⟩


theorem content_of_file {p : Path} {c : Bytes} (hfile : d.tree.node p = some (.file c)) :
    d.content p = c := by
  unfold content
  rw [hfile]

/-- What is appended is what follows. -/
theorem take_append_next {full data : Bytes} {n : Nat} (hdata : data <+: full.drop n) :
    full.take n ++ data = full.take (n + data.length) := by
  rw [List.take_add, ← List.prefix_iff_eq_take.1 hdata]

theorem past_unlink (p : Path) : ∀ t ∈ (d.unlink p).past, t = (d.unlink p).tree ∨ t ∈ d.past := by
  unfold unlink
  split
  · intro t ht
    exact List.mem_cons.1 ht
  · exact fun t ht => .inr ht

section Copying

variable {c : Copying} (hc : d.job.copying = some c)
include hc

/-- The end of a copy leaves the other things of the job as they are. -/
theorem finishCurrent_keeps (loses : Nat) :
    (d.finishCurrent loses).job = { d.job with copying := none, done := d.job.done + 1 } ∧
    (d.finishCurrent loses).made = d.made ∧ (d.finishCurrent loses).listed = d.listed ∧
    (d.finishCurrent loses).takes = d.takes := by
  unfold finishCurrent
  rw [hc]
  simp only
  generalize hlost : (if loses > 0 then _ else d : Disk) = m
  have hm : m.job = d.job ∧ m.made = d.made ∧ m.listed = d.listed ∧ m.takes = d.takes := by
    rw [← hlost]
    split
    all_goals exact ⟨rfl, rfl, rfl, rfl⟩
  obtain ⟨hjob, hmade, hlisted, htakes⟩ := hm
  split
  · obtain ⟨hjob', hmade', hlisted', htakes'⟩ := m.unlink_keeps c.src
    exact ⟨by rw [count, close, hjob', hjob], hmade'.trans hmade, hlisted'.trans hlisted,
      htakes'.trans htakes⟩
  · exact ⟨by rw [count, close, hjob], hmade, hlisted, htakes⟩

theorem node_finishCurrent_ne {loses : Nat} {q : Path} (hdst : q ≠ c.dst)
    (hsrc : d.job.kind = .move → q ≠ c.src) : (d.finishCurrent loses).tree.node q = d.tree.node q := by
  unfold finishCurrent
  rw [hc]
  simp only
  generalize hlost : (if loses > 0 then _ else d : Disk) = m
  have hm : m.job = d.job ∧ m.tree.node q = d.tree.node q := by
    rw [← hlost]
    split
    · exact ⟨rfl, FileTree.node_update_ne hdst⟩
    · exact ⟨rfl, rfl⟩
  split
  next hmove => exact (m.node_unlink_ne (hsrc (by rw [← hm.1, hmove]))).trans hm.2
  next => exact hm.2

/-- When nothing is lost, the end of a copy is the removal of what was moved. -/
theorem node_finishCurrent {full : Bytes} (hfile : d.tree.node c.src = some (.file full)) (q : Path) :
    (d.finishCurrent 0).tree.node q =
      if d.job.kind = .move ∧ q = c.src then none else d.tree.node q := by
  unfold finishCurrent
  rw [hc]
  simp only [Nat.lt_irrefl, gt_iff_lt, if_false]
  split
  next hmove =>
    refine (node_unlink hfile).trans ?_
    simp [hmove]
  next hmove => rw [if_neg (fun h => hmove h.1)]; rfl

theorem past_finishCurrent : ∀ t ∈ (d.finishCurrent 0).past, t = (d.finishCurrent 0).tree ∨ t ∈ d.past := by
  unfold finishCurrent
  rw [hc]
  simp only [Nat.lt_irrefl, gt_iff_lt, if_false]
  split
  · exact d.past_unlink c.src
  · exact fun t ht => .inr ht

/-- A copy that is given up leaves the other things of the job as they are. -/
theorem abandon_keeps (e : Errno) :
    (d.abandon e).job = { d.job with
      copying := none, failed := d.job.failed + 1, error := d.job.error <|> some (baseName c.src, e) } ∧
    (d.abandon e).made = d.made ∧ (d.abandon e).listed = d.listed ∧ (d.abandon e).takes = d.takes := by
  unfold abandon
  rw [hc]
  obtain ⟨hjob, hmade, hlisted, htakes⟩ := (d.fail c.src e).unlink_keeps c.dst
  refine ⟨?_, hmade, hlisted, htakes⟩
  show { ((d.fail c.src e).unlink c.dst).job with copying := none } = _
  rw [hjob]
  rfl

theorem past_abandon (e : Errno) : ∀ t ∈ (d.abandon e).past, t = (d.abandon e).tree ∨ t ∈ d.past := by
  unfold abandon
  rw [hc]
  exact (d.fail c.src e).past_unlink c.dst

theorem node_abandon_ne {e : Errno} {q : Path} (hdst : q ≠ c.dst) :
    (d.abandon e).tree.node q = d.tree.node q := by
  unfold abandon
  rw [hc]
  exact (d.fail c.src e).node_unlink_ne hdst

theorem node_abandon {e : Errno} {part : Bytes} (hfile : d.tree.node c.dst = some (.file part))
    (q : Path) : (d.abandon e).tree.node q = if q = c.dst then none else d.tree.node q := by
  unfold abandon
  rw [hc]
  exact (d.fail c.src e).node_unlink hfile

end Copying

/-- What may become of the file that is copied. -/
inductive Sliced (loses : Nat) (d : Disk) (c : Copying) : Disk → Prop
  | appended (data : Bytes) (hdata : data <+: (d.content c.src).drop c.offset) :
      Sliced loses d c (d.append c data)
  | abandoned (e : Errno) : Sliced loses d c (d.abandon e)
  | finished (hend : (d.content c.src).drop c.offset = []) : Sliced loses d c (d.finishCurrent loses)

/-- Nothing comes to be there that was not. -/
theorem sliced_shrinks {loses : Nat} {c : Copying} {p : Path} (hc : d.job.copying = some c)
    (h : Sliced loses d c d') (hnone : d.tree.node p = none) : d'.tree.node p = none := by
  have hunlink : ∀ {m : Disk} q, m.tree.node p = none → (m.unlink q).tree.node p = none := by
    intro m q hm
    unfold unlink
    split
    next t hunlink =>
      refine ((FileTree.unlink_ok hunlink).2 p).trans ?_
      split
      · rfl
      · exact hm
    next => exact hm
  cases h with
  | appended => exact FileTree.node_update_none hnone
  | abandoned e =>
      unfold abandon
      rw [hc]
      exact hunlink c.dst hnone
  | finished =>
      unfold finishCurrent
      rw [hc]
      simp only
      generalize hlost : (if loses > 0 then _ else d : Disk) = m
      have hm : m.tree.node p = none := by
        rw [← hlost]
        split
        · exact FileTree.node_update_none hnone
        · exact hnone
      split
      · exact hunlink c.src hm
      · exact hm

/-- A slice leaves the stack as it is, and what has been read and made besides. -/
theorem sliced_keeps {loses : Nat} {c : Copying} (hc : d.job.copying = some c) (h : Sliced loses d c d') :
    d'.job.active = d.job.active ∧ d'.job.kind = d.job.kind ∧ d'.job.pending = d.job.pending ∧
    d'.made = d.made ∧ d'.listed = d.listed ∧ d'.takes = d.takes := by
  cases h with
  | appended => exact ⟨rfl, rfl, rfl, rfl, rfl, rfl⟩
  | abandoned e =>
      obtain ⟨hjob, hrest⟩ := abandon_keeps hc e
      rw [hjob]
      exact ⟨rfl, rfl, rfl, hrest⟩
  | finished =>
      obtain ⟨hjob, hrest⟩ := finishCurrent_keeps hc loses
      rw [hjob]
      exact ⟨rfl, rfl, rfl, hrest⟩

/-- When nothing is copied, there is no slice. -/
theorem copySlice_idle {loses fuel left : Nat} {chunks : List Chunk} (hidle : d.job.copying = none) :
    copySlice loses fuel left chunks d = d := by
  cases fuel with
  | zero => rfl
  | succ fuel =>
      unfold copySlice
      rw [hidle]

/-- **A slice** keeps what each of these keeps. -/
theorem copySlice_rule {P : Disk → Prop} {loses : Nat}
    (hslice : ∀ d d' c, d.job.copying = some c → Sliced loses d c d' → P d → P d') (fuel : Nat) :
    ∀ {left : Nat} {chunks : List Chunk} {d : Disk}, P d → P (copySlice loses fuel left chunks d) := by
  induction fuel with
  | zero => exact fun h => h
  | succ fuel ih =>
      intro left chunks d h
      unfold copySlice
      split
      · exact h
      next c hc =>
      split
      · exact h
      simp only
      split
      next code _ => exact hslice _ _ c hc (.abandoned _) h
      next =>
      split
      next hdata =>
        refine hslice _ _ c hc (.finished ?_) h
        have hpos : min (min kChunk left) (max 1 (chunks.headD {}).size) ≠ 0 := by
          unfold kChunk
          omega
        exact (List.take_eq_nil_iff.1 hdata).resolve_left hpos
      next hdata =>
        have happended : ∀ data, data <+: (d.content c.src).drop c.offset → P (d.append c data) :=
          fun data hp => hslice _ _ c hc (.appended data hp) h
        split
        next n code _ =>
          refine hslice _ _ _ rfl (.abandoned _) (happended _ ?_)
          exact (List.take_prefix _ _).trans (List.take_prefix _ _)
        next => exact ih (happended _ (List.take_prefix _ _))

/-- A step with something to take takes it, then begins to copy. -/
theorem step_take {budget : Nat} {a : Answers} {it : Item} {rest : List Item}
    (hactive : d.job.active = true) (hidle : d.job.copying = none) (hpending : d.job.pending = it :: rest) :
    d.step budget a = copySlice a.loses budget budget a.chunks (d.takeNext a) := by
  unfold step
  rw [if_pos hactive, hidle, hpending]

/-- A step, with its budget and what the system answers. -/
def stepBy (d : Disk) (x : Nat × Answers) : Disk := d.step x.1 x.2

/-- **A step** leads to what the thing on top may become, then goes on as a slice does. -/
theorem step_rule {P : Disk → Prop} {budget : Nat} {a : Answers} (h : P d)
    (htake : ∀ it rest d', d.job.active = true → d.job.copying = none → d.job.pending = it :: rest →
      Took (d.pop rest) it d' → P d')
    (hstop : d.job.active = true → d.job.copying = none → d.job.pending = [] →
      P { d with takes := d.takes + 1, job := { d.job with active := false } })
    (hslice : ∀ d d' c, d.job.copying = some c → Sliced a.loses d c d' → P d → P d') :
    P (d.step budget a) := by
  unfold step
  split
  next hactive =>
    split
    next c hc => exact copySlice_rule hslice budget h
    next hidle =>
    split
    next hnone =>
      have hstopped : d.takeNext a = { d with takes := d.takes + 1 } := by
        unfold takeNext
        rw [hnone]
      simp only [hstopped]
      exact hstop hactive hidle hnone
    next it rest hpending =>
      exact copySlice_rule hslice budget (htake it rest _ hactive hidle hpending (took_takeNext hpending))
  next => exact h

end Disk

end Sshos.Apps
