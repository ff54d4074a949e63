import Sshos.Apps.FileJobSteps

/-!
# Sshos.Apps.FileJobSpares

A copy or a move **spares what it was not asked to touch**: what was there before it, and is in
none of the sources that it moves, is there afterwards, and a name that is taken is a failure.

`rename` takes the place of a file without a question, and `mkdir` says of a file what it says of
a directory. And a directory that is moved to where it is, or into itself, is emptied of what
was to stay there. So this holds of the runs in which neither happens.
-/

namespace Sshos.Apps

open Sshos.Lib (Bytes FileTree Node StepsMeet run run_invariant stepsMeet_iff)

/-- Two things for one place, of which one is not a directory. A move to where the file is
already has nothing to do. -/
def Conflict (kind : FileOp) (t : Tree) (it : Item) : Prop :=
  ∃ nd nd', t.node it.src = some nd ∧ t.node it.dst = some nd' ∧ ¬ (nd = .dir ∧ nd' = .dir) ∧
    ¬ (kind = .move ∧ it.dst = it.src)

/-- The conflicts that no system call refuses: a file is moved, or a directory goes, where there
is a file. -/
def Unseen (kind : FileOp) (t : Tree) (it : Item) : Prop :=
  ∃ nd c, t.node it.src = some nd ∧ t.node it.dst = some (.file c) ∧
    (nd = .dir ∨ kind = .move ∧ it.dst ≠ it.src)

/-- What is at or below a place where a source goes, and is no source itself. -/
def Crossed (sources : List Path) (dest p : Path) : Prop :=
  p ∉ sources ∧ ∃ s ∈ sources, target dest s <+: p

namespace Disk

/-- What is taken is in no conflict that would not be seen. -/
def MeetsNoFile (d : Disk) : Act → Prop
  | .step .. => ∀ it, d.Takes it → ¬ Unseen d.job.kind d.tree it
  | .start .. | .cancel => True

/-- A move takes nothing from below a place where it puts something, unless that is a source of
its own: a directory is not removed, for it is not empty, and a file is there already. -/
def Uncrossed (sources : List Path) (dest : Path) (d : Disk) : Act → Prop
  | .step .. => ∀ it rest, d.job.active = true → d.job.copying = none → d.job.pending = it :: rest →
      d.job.kind = .move → Crossed sources dest it.src →
        (it.rmdirOnly = true → ∃ n, d.tree.node (it.src ++ [n]) ≠ none) ∧
        (it.rmdirOnly = false → ∀ c, d.tree.node it.src = some (.file c) → it.dst = it.src)
  | .start .. | .cancel => True

/-- What is in a conflict is a failure, and nothing is touched. -/
def ReportsConflict (d : Disk) : Act → Prop
  | .step budget a => ∀ it, d.Takes it → Conflict d.job.kind d.tree it →
      (d.step budget a).job.failed = d.job.failed + 1 ∧ (d.step budget a).job.error ≠ none ∧
      (d.step budget a).tree = d.tree
  | .start .. | .cancel => True

/-- Not another job. -/
def Act.GoesOn : Act → Prop
  | .start .. => False
  | .step .. | .cancel => True

end Disk

section Spares

/-- What a job must not touch: what was there before it and, when things are moved, is in none of
the sources, or is where they go. -/
def Spared (t₀ : Tree) (sources : List Path) (dest : Path) (kind : FileOp) (p : Path) : Prop :=
  t₀.node p ≠ none ∧ (kind = .copy ∨ (∀ s ∈ sources, ¬ s <+: p) ∨ Crossed sources dest p)

variable {t₀ : Tree} {sources : List Path} {dest : Path} {kind : FileOp}

/-- What was to be spared has been, and the job is not about to touch it. -/
structure Spares (t₀ : Tree) (sources : List Path) (dest : Path) (kind : FileOp) (d : Disk) : Prop where
  op : d.job.kind = kind
  spared : ∀ p, Spared t₀ sources dest kind p → d.tree.node p = t₀.node p
  within : ∀ it ∈ d.job.pending,
    (∃ s ∈ sources, s <+: it.src) ∧ (it.rmdirOnly = true → kind ≠ .copy)
  copying : ∀ c, d.job.copying = some c →
    (kind = .move → ¬ Spared t₀ sources dest kind c.src) ∧ ¬ Spared t₀ sources dest kind c.dst

namespace Spares

open Disk

variable {d d' : Disk} {p : Path}

/-- What the job removes at its source is not spared. -/
theorem not_spared_src (hkind : kind ≠ .copy) (hsrc : ∃ s ∈ sources, s <+: p)
    (hcrossed : ¬ Crossed sources dest p) : ¬ Spared t₀ sources dest kind p := by
  rintro ⟨-, hcopy | hout | hcross⟩
  · exact hkind hcopy
  · obtain ⟨s, hs, hsp⟩ := hsrc
    exact hout s hs hsp
  · exact hcrossed hcross

/-- Nor is what was not there. -/
theorem not_spared_free (h : Spares t₀ sources dest kind d) (hfree : d.tree.node p = none) :
    ¬ Spared t₀ sources dest kind p := by
  intro hp
  exact hp.1 ((h.spared p hp).symm.trans hfree)

/-- The tree may change where nothing is spared. -/
theorem of_node_ne (h : Spares t₀ sources dest kind d) {t : Tree} (changed : Path → Prop)
    (hnode : ∀ q, ¬ changed q → t.node q = d.tree.node q)
    (hchanged : ∀ q, changed q → ¬ Spared t₀ sources dest kind q) :
    ∀ q, Spared t₀ sources dest kind q → t.node q = t₀.node q := by
  intro q hq
  rw [hnode q fun hc => hchanged q hc hq]
  exact h.spared q hq

/-- A file that is renamed over nothing that is seen leaves all that is spared. -/
theorem renamed {it : Item} (h : Spares t₀ sources dest kind d) (hsrc : ∃ s ∈ sources, s <+: it.src)
    (hmove : kind = .move) (hunseen : ¬ Unseen kind d.tree it) {c : Bytes}
    (hfile : d.tree.node it.src = some (.file c))
    (hthere : Crossed sources dest it.src → it.dst = it.src) {t : Tree}
    (hrename : d.tree.rename it.src it.dst = .ok t) :
    ∀ q, Spared t₀ sources dest kind q → t.node q = t₀.node q := by
  obtain ⟨c', hfile', hsame | ⟨hne, hdst, -, hnode⟩⟩ := FileTree.rename_ok hrename
  · rw [hsame.2]
    exact h.spared
  · refine h.of_node_ne (fun q => q = it.dst ∨ q = it.src) ?_ ?_
    · intro q hq
      rw [hnode q, if_neg fun heq => hq (.inl heq), if_neg fun heq => hq (.inr heq)]
    · rintro q (rfl | rfl)
      · -- Only what is not seen could be there.
        refine h.not_spared_free ?_
        cases hthere : d.tree.node it.dst with
        | none => rfl
        | some nd =>
            cases nd with
            | dir => exact absurd hthere hdst
            | file b => exact absurd ⟨_, b, hfile, hthere, .inr ⟨hmove, hne⟩⟩ hunseen
      · exact not_spared_src (by rw [hmove]; nofun) hsrc fun hcross => hne (hthere hcross)

/-- What may become of the thing on top touches nothing that is spared. -/
theorem took {it : Item} {rest : List Item} (h : Spares t₀ sources dest kind d) (hkind : kind ≠ .delete)
    (hidle : d.job.copying = none) (hpending : d.job.pending = it :: rest)
    (hseen : it.rmdirOnly = false → ¬ Unseen kind d.tree it)
    (hcross : kind = .move → Crossed sources dest it.src →
      (it.rmdirOnly = true → ∃ n, d.tree.node (it.src ++ [n]) ≠ none) ∧
      (it.rmdirOnly = false → ∀ c, d.tree.node it.src = some (.file c) → it.dst = it.src))
    (ht : Took (d.pop rest) it d') :
    Spares t₀ sources dest kind d' := by
  have hop : (d.pop rest).job.kind = kind := h.op
  have hwithin : ∀ j ∈ it :: rest, (∃ s ∈ sources, s <+: j.src) ∧ (j.rmdirOnly = true → kind ≠ .copy) := by
    rw [← hpending]
    exact h.within
  have hrest : ∀ j ∈ rest, _ := fun j hj => hwithin j (List.mem_cons_of_mem it hj)
  obtain ⟨hsrc, hmarked⟩ := hwithin it (List.mem_cons_self ..)
  have hidle' : ∀ {P : Copying → Prop} c, d.job.copying = some c → P c := by
    intro P c hc
    rw [hidle] at hc
    cases hc
  -- A directory that goes on the stack, or its mark, is below a source.
  have hmarks : ∀ j ∈ marks kind it, (∃ s ∈ sources, s <+: j.src) ∧ (j.rmdirOnly = true → kind ≠ .copy) := by
    intro j hj
    obtain ⟨hcopy, rfl⟩ := mem_marks.1 hj
    exact ⟨hsrc, fun _ => hcopy⟩
  have hmadeDir : ∀ m, MadeDir (d.pop rest) it m → ∀ q, Spared t₀ sources dest kind q →
      m.tree.node q = t₀.node q := by
    intro m hm
    refine h.of_node_ne _ (fun q hq => hm.node_ne hq) ?_
    rintro q ⟨rfl, hfree⟩
    exact h.not_spared_free hfree
  cases ht with
  | failed p e => exact ⟨hop, h.spared, hrest, h.copying⟩
  | removedDir hmark t hrmdir =>
      obtain ⟨-, hempty, hnode⟩ := FileTree.rmdir_ok hrmdir
      rw [if_neg (by rw [hop]; exact hkind)]
      refine ⟨hop, h.of_node_ne _ (fun q hq => (hnode q).trans (if_neg hq)) ?_, hrest, h.copying⟩
      rintro q rfl
      have hmove : kind = .move := by
        cases kind with
        | copy => exact absurd rfl (hmarked hmark)
        | move => rfl
        | delete => exact absurd rfl hkind
      refine not_spared_src (hmarked hmark) hsrc fun hcrossed => ?_
      obtain ⟨n, hn⟩ := (hcross hmove hcrossed).1 hmark
      exact hn (hempty n)
  | shut hmark hdir m hm e =>
      obtain ⟨hjob, -, -⟩ := hm.keeps
      refine ⟨(congrArg FileJob.kind hjob).trans hop, hmadeDir m hm, ?_, ?_⟩
      · intro j hj
        have hj : j ∈ marks m.job.kind it ++ m.job.pending := hj
        rw [hjob, List.mem_append, hop] at hj
        exact hj.elim (hmarks j) (hrest j)
      · intro c hc
        exact h.copying c ((congrArg FileJob.copying hjob).symm.trans hc)
  | walked hmark hdir m hm names hnames =>
      obtain ⟨hjob, -, -⟩ := hm.keeps
      refine ⟨(congrArg FileJob.kind hjob).trans hop, hmadeDir m hm, ?_, ?_⟩
      · intro j hj
        have hj : j ∈ inside m.job.kind it names ++ (marks m.job.kind it ++ m.job.pending) := hj
        rw [hjob, List.mem_append, List.mem_append, hop] at hj
        rcases hj with hj | hj | hj
        · obtain ⟨n, -, rfl⟩ := mem_inside.1 hj
          obtain ⟨s, hs, hpre⟩ := hsrc
          exact ⟨⟨s, hs, hpre.trans (List.prefix_append _ _)⟩, nofun⟩
        · exact hmarks j hj
        · exact hrest j hj
      · intro c hc
        exact h.copying c ((congrArg FileJob.copying hjob).symm.trans hc)
  | unlinked hmark hdelete => exact absurd (hop.symm.trans hdelete) hkind
  | renamed hmark hmove c hfile t hrename =>
      have hmove : kind = .move := hop.symm.trans hmove
      have hspared := h.renamed hsrc hmove (hseen hmark) hfile
        (fun hcrossed => (hcross hmove hcrossed).2 hmark c hfile) hrename
      split
      · exact ⟨hop, hspared, hrest, h.copying⟩
      · exact ⟨hop, hspared, hrest, h.copying⟩
  | opened hmark _ c hfile t hmake =>
      obtain ⟨hfree, -, hnode⟩ := FileTree.make_ok hmake
      refine ⟨hop, h.of_node_ne _ (fun q hq => (hnode q).trans (if_neg hq)) ?_, hrest, ?_⟩
      · rintro q rfl
        exact h.not_spared_free hfree
      · intro c' hc'
        cases hc'
        refine ⟨fun hmove => ?_, h.not_spared_free hfree⟩
        refine not_spared_src (by rw [hmove]; nofun) hsrc fun hcrossed => ?_
        -- a file that is there already is not made
        have hthere := (hcross hmove hcrossed).2 hmark c hfile
        rw [hthere] at hfree
        cases hfile.symm.trans hfree

/-- Nor does a slice of a copy. -/
theorem sliced {loses : Nat} {c : Copying} (h : Spares t₀ sources dest kind d) (hc : d.job.copying = some c)
    (hs : Sliced loses d c d') : Spares t₀ sources dest kind d' := by
  obtain ⟨hsrc, hdst⟩ := h.copying c hc
  have hsparedDst : ∀ q, q = c.dst → ¬ Spared t₀ sources dest kind q := by
    rintro q rfl
    exact hdst
  cases hs with
  | appended data _ =>
      refine ⟨h.op, h.of_node_ne _ (fun q hq => FileTree.node_update_ne hq) hsparedDst, h.within, ?_⟩
      intro c' hc'
      cases hc'
      exact ⟨hsrc, hdst⟩
  | abandoned e =>
      obtain ⟨hjob, -⟩ := abandon_keeps hc e
      refine ⟨by rw [hjob]; exact h.op,
        h.of_node_ne _ (fun q hq => node_abandon_ne hc hq) hsparedDst, by rw [hjob]; exact h.within, ?_⟩
      rw [hjob]
      nofun
  | finished =>
      obtain ⟨hjob, -⟩ := finishCurrent_keeps hc loses
      refine ⟨by rw [hjob]; exact h.op, ?_, by rw [hjob]; exact h.within, ?_⟩
      · refine h.of_node_ne (fun q => q = c.dst ∨ d.job.kind = .move ∧ q = c.src) ?_ ?_
        · intro q hq
          exact node_finishCurrent_ne hc (fun heq => hq (.inl heq)) fun hmove heq => hq (.inr ⟨hmove, heq⟩)
        · rintro q (rfl | ⟨hmove, rfl⟩)
          · exact hdst
          · exact hsrc (h.op.symm.trans hmove)
      · rw [hjob]
        nofun

theorem act (hkind : kind ≠ .delete) (d : Disk) (i : Act) (h : Spares t₀ sources dest kind d)
    (hmeets : (d.MeetsNoFile i ∧ d.Uncrossed sources dest i) ∧ i.GoesOn) :
    Spares t₀ sources dest kind (d.act i) := by
  cases i with
  | start => exact hmeets.2.elim
  | cancel => exact ⟨h.op, h.spared, nofun, nofun⟩
  | step budget a =>
      refine step_rule h ?_ ?_ fun d d' c hc hs h => h.sliced hc hs
      · intro it rest d' hactive hidle hpending ht
        refine h.took hkind hidle hpending (fun hmark => ?_) (fun hmove hcrossed => ?_) ht
        · rw [← h.op]
          exact hmeets.1.1 it ⟨hactive, hidle, hmark, rest, hpending⟩
        · exact hmeets.1.2 it rest hactive hidle hpending (h.op.trans hmove) hcrossed
      · intro _ hidle hpending
        exact ⟨h.op, h.spared, h.within, h.copying⟩

theorem start (d : Disk) (dest : Path) :
    Spares d.tree sources dest kind (d.start sources dest kind) := by
  refine ⟨rfl, fun _ _ => rfl, ?_, nofun⟩
  intro it hit
  obtain ⟨s, hs, rfl⟩ := List.mem_map.1 hit
  exact ⟨⟨s, hs, List.prefix_refl s⟩, nofun⟩

end Spares

/-- A conflict that is seen is a failure. -/
theorem reportsConflict {d : Disk} {i : Disk.Act} (hkind : d.job.kind ≠ .delete)
    (hmeets : d.MeetsNoFile i) : d.ReportsConflict i := by
  cases i with
  | start => trivial
  | cancel => trivial
  | step budget a =>
  rintro it htakes ⟨nd, nd', hsrc, hdst, hkinds, hplace⟩
  have hseen := hmeets it htakes
  obtain ⟨hactive, hidle, hmark, rest, hpending⟩ := htakes
  have hfails : ∃ p e, d.takeNext a = (d.pop rest).fail p e := by
    have htook := Disk.took_takeNext (a := a) hpending
    generalize d.takeNext a = d' at htook
    -- A directory, where there is something, can only be a file's.
    have hnodir : (d.pop rest).tree.node it.src ≠ some .dir := by
      intro hdir
      cases hsrc.symm.trans hdir
      cases nd' with
      | dir => exact hkinds ⟨rfl, rfl⟩
      | file b => exact hseen ⟨.dir, b, hsrc, hdst, .inl rfl⟩
    cases htook with
    | failed p e => exact ⟨p, e, rfl⟩
    | removedDir hmarked => rw [hmark] at hmarked; cases hmarked
    | shut _ hdir => exact absurd hdir hnodir
    | walked _ hdir => exact absurd hdir hnodir
    | unlinked _ hdelete => exact absurd hdelete hkind
    | renamed _ hmove c hfile t hrename =>
        have hne : it.dst ≠ it.src := fun heq => hplace ⟨hmove, heq⟩
        obtain ⟨_, -, ⟨heq, -⟩ | ⟨-, hnodir', -⟩⟩ := FileTree.rename_ok hrename
        · exact absurd heq hne
        · cases nd' with
          | dir => exact absurd hdst hnodir'
          | file b => exact absurd ⟨nd, b, hsrc, hdst, .inr ⟨hmove, hne⟩⟩ hseen
    | opened _ _ c hfile t hmake =>
        have hfree := (FileTree.make_ok hmake).1
        rw [show d.tree.node it.dst = none from hfree] at hdst
        cases hdst
  obtain ⟨p, e, hfails⟩ := hfails
  rw [Disk.step_take hactive hidle hpending, hfails,
    Disk.copySlice_idle (d := (d.pop rest).fail p e) hidle]
  refine ⟨rfl, ?_, rfl⟩
  show (d.job.error <|> some (baseName p, e)) ≠ none
  cases d.job.error
  all_goals nofun

/-- **A copy or a move spares what it was not asked to touch.** Whatever was done before it, and
whenever it ends or is given up: what was there stays as it was, unless it is in a source that is
moved away, and where a name is taken there is a failure. -/
theorem run_spares (d : Disk) (sources : List Path) (dest : Path) (kind : FileOp)
    (hkind : kind ≠ .delete) (acts : List Disk.Act) (hgoes : ∀ i ∈ acts, i.GoesOn)
    (hmeets : StepsMeet Disk.act (fun d i => d.MeetsNoFile i ∧ d.Uncrossed sources dest i)
      (d.start sources dest kind) acts) :
    (∀ p, Spared d.tree sources dest kind p →
      (run Disk.act (d.start sources dest kind) acts).tree.node p = d.tree.node p) ∧
    StepsMeet Disk.act Disk.ReportsConflict (d.start sources dest kind) acts := by
  have hstart : Spares d.tree sources dest kind (d.start sources dest kind) := .start d dest
  constructor
  · exact (run_invariant (Spares.act hkind) hstart (hmeets.and_inputs hgoes)).spared
  · rw [stepsMeet_iff]
    rintro before i ⟨after, rfl⟩
    rw [List.append_assoc] at hmeets hgoes
    have hbefore := hmeets.of_append.and_inputs fun j hj => hgoes j (List.mem_append_left _ hj)
    have hspares := run_invariant (Spares.act hkind) hstart hbefore
    refine reportsConflict (by rw [hspares.op]; exact hkind) ?_
    rw [← List.append_assoc] at hmeets
    exact (stepsMeet_iff.1 hmeets before i ⟨after, rfl⟩).1

/-- Two directories, and a file in each, of other names. -/
def besides : Tree :=
  .ofEntries [([[1]], .dir), ([[1], [3]], .file [65]), ([[2]], .dir), ([[2], [4]], .file [66])]

theorem run_spares_besides :
    (run Disk.act (({ tree := besides } : Disk).start [[[1], [3]]] [[2]] .move) [.step 1 {}]).tree.node
      [[2], [4]] = some (.file [66]) := by
  have hmeets : StepsMeet Disk.act (fun d i => d.MeetsNoFile i ∧ d.Uncrossed [[[1], [3]]] [[2]] i)
      (({ tree := besides } : Disk).start [[[1], [3]]] [[2]] .move) [.step 1 {}] := by
    refine ⟨⟨?_, ?_⟩, trivial⟩
    · rintro it ⟨-, -, -, rest, hpending⟩ ⟨nd, c, -, hdst, -⟩
      cases hpending
      have hfree : besides.node [[2], [3]] = none := by decide
      cases hfree.symm.trans hdst
    · intro it rest _ _ hpending _ hcrossed
      cases hpending
      exact absurd hcrossed.1 (by decide)
  have hgoes : ∀ i ∈ [Disk.Act.step 1 {}], i.GoesOn := by
    intro i hi
    cases List.mem_singleton.1 hi
    trivial
  exact (run_spares { tree := besides } _ _ _ (by decide) _ hgoes hmeets).1 _
    ⟨by decide, .inr (.inl (by decide))⟩

/-- `rename` overwrites: it is not so of every move. -/
theorem not_all_spared :
    ¬ ∀ (d : Disk) (sources : List Path) (dest : Path) (kind : FileOp), kind ≠ .delete →
      ∀ acts : List Disk.Act, (∀ i ∈ acts, i.GoesOn) → ∀ p, Spared d.tree sources dest kind p →
        (run Disk.act (d.start sources dest kind) acts).tree.node p = d.tree.node p := by
  intro h
  have hlost := h
    { tree := .ofEntries [([[1]], .dir), ([[1], [3]], .file [65]), ([[2]], .dir), ([[2], [3]], .file [66])] }
    [[[1], [3]]] [[2]] .move (by decide) [.step 1 {}]
    (fun i hi => by cases List.mem_singleton.1 hi; trivial) [[2], [3]]
    ⟨by decide, .inr (.inl (by decide))⟩
  exact absurd hlost (by decide)

/-- Nor of a directory that is moved to where it is: one that was in it goes. -/
example : (run Disk.act
    (({ tree := .ofEntries [([[7]], .dir), ([[7], [8]], .dir)] } : Disk).start [[[7]]] [] .move)
    [.step 1 {}, .step 1 {}, .step 1 {}]).tree.node [[7], [8]] = none := by
  decide

end Spares

end Sshos.Apps
