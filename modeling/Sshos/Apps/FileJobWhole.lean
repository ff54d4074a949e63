import Sshos.Apps.FileJobSteps

/-!
# Sshos.Apps.FileJobWhole

**No copy is left truncated**, when every copy may come to its end: whatever fails, what the job
has made is removed or is the whole of its source.

It may not when a job is cancelled, or another is started, in the middle of a file: what has been
copied of it stays. Nor is it known when the system cannot close the copy without loss.
-/

namespace Sshos.Apps

open Sshos.Lib (Bytes FileTree Node StepsMeet run run_invariant stepsMeet_iff)

namespace Disk

/-- What the job has made at a path, last. -/
def latest (d : Disk) (p : Path) : Option (Node Bytes) := d.made.lookup p

/-- A file there is, if the job has made it, the whole of what it was to be. -/
def WholeAt (d : Disk) (p : Path) : Prop :=
  ∀ nd c, d.latest p = some nd → d.tree.node p = some (.file c) → nd = .file c

/-- The copy under way, if any, may come to its end, and closing it loses nothing. -/
def LetsFinish (d : Disk) : Act → Prop
  | .step _ a => a.loses = 0
  | .start .. | .cancel => d.job.copying = none

/-- What was being copied, or began to be, when `d` became `d'`. -/
def Copied (d d' : Disk) (p : Path) : Prop :=
  (∃ c, d.job.copying = some c ∧ c.dst = p) ∨ ∃ full, d'.made = (p, .file full) :: d.made

/-- What a failure interrupts is removed. -/
def RemovesInterrupted (d : Disk) : Act → Prop
  | .step budget a => (d.step budget a).job.failed ≠ d.job.failed →
      ∀ p, d.Copied (d.step budget a) p → (d.step budget a).tree.node p = none
  | .start .. | .cancel => True

variable {d d' : Disk} {p q : Path} {nd : Node Bytes}

theorem latest_record (d : Disk) (q : Path) (nd : Node Bytes) (p : Path) :
    (d.record q nd).latest p = if p = q then some nd else d.latest p := by
  unfold latest record
  rw [List.lookup_cons]
  by_cases h : p = q
  · rw [if_pos h, beq_iff_eq.2 h]
  · rw [if_neg h, beq_eq_false_iff_ne.2 h]

/-- Nothing has changed there, or nothing is there, or what has been made is. -/
theorem WholeAt.of_changed (h : d.WholeAt p)
    (hp : d'.latest p = d.latest p ∧ d'.tree.node p = d.tree.node p ∨ d'.tree.node p = none ∨
      d'.latest p = d'.tree.node p) : d'.WholeAt p := by
  intro nd c hmade hfile
  rcases hp with ⟨hlatest, hnode⟩ | hnone | hmatch
  · exact h nd c (hlatest.symm.trans hmade) (hnode.symm.trans hfile)
  · rw [hnone] at hfile
    cases hfile
  · rw [hmatch, hfile] at hmade
    cases hmade
    rfl

/-- To remove keeps what is whole. -/
theorem WholeAt.of_removed (h : d.WholeAt p) (hlatest : d'.latest p = d.latest p)
    (hnode : d'.tree.node p = if p = q then none else d.tree.node p) : d'.WholeAt p := by
  refine h.of_changed ?_
  by_cases hp : p = q
  · exact .inr (.inl (hnode.trans (if_pos hp)))
  · exact .inl ⟨hlatest, hnode.trans (if_neg hp)⟩

theorem MadeDir.wholeAt {it : Item} (hm : MadeDir d it d') (h : d.WholeAt p) : d'.WholeAt p := by
  cases hm with
  | delete => exact h
  | there => exact h
  | made _ t hmake =>
      have hnode := (FileTree.make_ok hmake).2.2 p
      have hlatest := latest_record (d.commit t) it.dst .dir p
      refine h.of_changed ?_
      by_cases hp : p = it.dst
      · rw [if_pos hp] at hnode hlatest
        exact .inr (.inr (hlatest.trans hnode.symm))
      · rw [if_neg hp] at hnode hlatest
        exact .inl ⟨hlatest, hnode⟩

end Disk

open Disk

/-- Every file the job has made is whole, but for the one that is being copied, of which the
beginning is there. -/
structure Whole (d : Disk) : Prop where
  busy : d.job.copying ≠ none → d.job.active = true
  whole : ∀ p, (∀ c, d.job.copying = some c → p ≠ c.dst) → d.WholeAt p
  copying : ∀ c, d.job.copying = some c → c.src ≠ c.dst ∧ ∃ full,
    d.latest c.dst = some (.file full) ∧ d.tree.node c.src = some (.file full) ∧
    d.tree.node c.dst = some (.file (full.take c.offset))

namespace Whole

variable {d d' : Disk}

/-- When nothing is copied, everything is whole. -/
theorem of_idle (hidle : d.job.copying = none) (hwhole : ∀ p, d.WholeAt p) : Whole d := by
  refine ⟨fun hbusy => absurd hidle hbusy, fun p _ => hwhole p, fun c hc => ?_⟩
  rw [hidle] at hc
  cases hc

theorem wholeAt (h : Whole d) (hidle : d.job.copying = none) (p : Path) : d.WholeAt p := by
  refine h.whole p fun c hc => ?_
  rw [hidle] at hc
  cases hc

theorem took {it : Item} {rest : List Item} (h : Whole d) (hactive : d.job.active = true)
    (hidle : d.job.copying = none) (ht : Took (d.pop rest) it d') : Whole d' := by
  have hwhole : ∀ p, (d.pop rest).WholeAt p := h.wholeAt hidle
  have hidle : (d.pop rest).job.copying = none := hidle
  have hactive : (d.pop rest).job.active = true := hactive
  generalize d.pop rest = d at *
  cases ht with
  | failed p e => exact of_idle hidle hwhole
  | removedDir hmark t hrmdir =>
      have hnode := (FileTree.rmdir_ok hrmdir).2.2
      split
      · exact of_idle hidle fun p => (hwhole p).of_removed rfl (hnode p)
      · exact of_idle hidle fun p => (hwhole p).of_removed rfl (hnode p)
  | shut hmark hdir m hm e =>
      refine of_idle ?_ fun p => hm.wholeAt (hwhole p)
      exact (congrArg FileJob.copying hm.keeps.1).trans hidle
  | walked hmark hdir m hm names hnames =>
      refine of_idle ?_ fun p => hm.wholeAt (hwhole p)
      exact (congrArg FileJob.copying hm.keeps.1).trans hidle
  | unlinked hmark _ t hunlink =>
      have hnode := (FileTree.unlink_ok hunlink).2
      exact of_idle hidle fun p => (hwhole p).of_removed rfl (hnode p)
  | renamed hmark _ c hfile t hrename =>
      obtain ⟨c', hfile', ⟨hsame, rfl⟩ | ⟨hne, -, -, hnode⟩⟩ := FileTree.rename_ok hrename
      · rw [if_pos hsame]
        exact of_idle hidle hwhole
      · rw [if_neg hne]
        cases hfile.symm.trans hfile'
        refine of_idle hidle fun p => (hwhole p).of_changed ?_
        have hnode := hnode p
        have hlatest := latest_record (d.commit t) it.dst (.file c) p
        by_cases hdst : p = it.dst
        · rw [if_pos hdst] at hnode hlatest
          exact .inr (.inr (hlatest.trans hnode.symm))
        · rw [if_neg hdst] at hnode hlatest
          by_cases hsrc : p = it.src
          · exact .inr (.inl (hnode.trans (if_pos hsrc)))
          · exact .inl ⟨hlatest, hnode.trans (if_neg hsrc)⟩
  | opened hmark _ c hfile t hmake =>
      obtain ⟨hfree, -, hnode⟩ := FileTree.make_ok hmake
      have hlatest := fun p => latest_record (d.commit t) it.dst (.file c) p
      have hne : it.src ≠ it.dst := by
        rintro heq
        rw [heq, hfree] at hfile
        cases hfile
      refine ⟨fun _ => hactive, fun p hp => (hwhole p).of_changed (.inl ?_), ?_⟩
      · have hdst : p ≠ it.dst := hp _ rfl
        exact ⟨(hlatest p).trans (if_neg hdst), (hnode p).trans (if_neg hdst)⟩
      · intro k hk
        cases hk
        refine ⟨hne, c, (hlatest it.dst).trans (if_pos rfl), ?_, (hnode it.dst).trans (if_pos rfl)⟩
        exact ((hnode it.src).trans (if_neg hne)).trans hfile

theorem sliced {c : Copying} (h : Whole d) (hc : d.job.copying = some c) (hs : Sliced 0 d c d') :
    Whole d' := by
  obtain ⟨hne, full, hmade, hsrc, hdst⟩ := h.copying c hc
  have hother : ∀ p, p ≠ c.dst → d.WholeAt p := by
    intro p hp
    refine h.whole p fun k hk => ?_
    cases hc.symm.trans hk
    exact hp
  cases hs with
  | appended data hdata =>
      rw [content_of_file hsrc] at hdata
      have hnode := fun q => FileTree.node_update (q := q) (f := (· ++ data)) hdst
      refine ⟨fun _ => h.busy (by rw [hc]; nofun), fun p hp => ?_, ?_⟩
      · have hp : p ≠ c.dst := hp { c with offset := c.offset + data.length } rfl
        exact (hother p hp).of_changed (.inl ⟨rfl, (hnode p).trans (if_neg hp)⟩)
      · intro k hk
        cases hk
        refine ⟨hne, full, hmade, ((hnode c.src).trans (if_neg hne)).trans hsrc, ?_⟩
        refine (hnode c.dst).trans ((if_pos rfl).trans ?_)
        rw [take_append_next hdata]
  | abandoned e =>
      obtain ⟨hjob, hmade', -⟩ := abandon_keeps hc e
      have hnode := fun q => node_abandon hc (e := e) hdst q
      refine of_idle (by rw [hjob]) fun p => ?_
      have hlatest : (d.abandon e).latest p = d.latest p := by
        unfold latest
        rw [hmade']
      by_cases hp : p = c.dst
      · intro nd b _ hfile
        rw [hnode p, if_pos hp] at hfile
        cases hfile
      · exact (hother p hp).of_removed hlatest (hnode p)
  | finished hend =>
      obtain ⟨hjob, hmade', -⟩ := finishCurrent_keeps hc 0
      have hnode := fun q => node_finishCurrent hc hsrc q
      have hlatest : ∀ p, (d.finishCurrent 0).latest p = d.latest p := by
        intro p
        unfold latest
        rw [hmade']
      rw [content_of_file hsrc] at hend
      have hfull : full.take c.offset = full := List.take_of_length_le (List.drop_eq_nil_iff.1 hend)
      rw [hfull] at hdst
      -- It is whole already, and its source may go.
      have hwhole : ∀ p, d.WholeAt p := by
        intro p
        by_cases hp : p = c.dst
        · intro nd b hnd hfile
          rw [hp] at hnd hfile
          cases hmade.symm.trans hnd
          cases hdst.symm.trans hfile
          rfl
        · exact hother p hp
      refine of_idle (by rw [hjob]) fun p => ?_
      refine (hwhole p).of_changed ?_
      by_cases hgone : d.job.kind = .move ∧ p = c.src
      · exact .inr (.inl ((hnode p).trans (if_pos hgone)))
      · exact .inl ⟨hlatest p, (hnode p).trans (if_neg hgone)⟩

theorem act (d : Disk) (i : Act) (h : Whole d) (hlets : d.LetsFinish i) : Whole (d.act i) := by
  cases i with
  | start sources dest kind => exact of_idle rfl (h.wholeAt hlets)
  | cancel => exact of_idle rfl (h.wholeAt hlets)
  | step budget a =>
      refine step_rule h ?_ ?_ ?_
      · intro it rest d' hactive hidle hpending ht
        exact h.took hactive hidle ht
      · intro _ hidle _
        exact of_idle hidle (h.wholeAt hidle)
      · intro d d' c hc hs h
        rw [show a.loses = 0 from hlets] at hs
        exact h.sliced hc hs

end Whole

/-! ### What a failure interrupts -/

/-- In the middle of a step from `d`: nothing has failed, and what is copied is what was or what
has just been made; or something has, and nothing is left of it. -/
def Tracks (d d' : Disk) : Prop :=
  (d'.job.failed = d.job.failed ∧ ∃ dst, (∀ p, d.Copied d' p → p = dst) ∧
    ∀ c, d'.job.copying = some c → c.dst = dst) ∨
  (d'.job.copying = none ∧ ∀ p, d.Copied d' p → d'.tree.node p = none)

namespace Tracks

variable {d d' e : Disk}

theorem refl (d : Disk) : Tracks d d := by
  have hmade : ∀ p full, d.made ≠ (p, .file full) :: d.made := fun p full => (List.cons_ne_self _ _).symm
  cases hc : d.job.copying with
  | none =>
      refine .inr ⟨hc, ?_⟩
      rintro p (⟨c, hcopying, -⟩ | ⟨full, h⟩)
      · cases hc.symm.trans hcopying
      · exact absurd h (hmade p full)
  | some c =>
      refine .inl ⟨rfl, c.dst, ?_, fun c' hc' => by cases hc.symm.trans hc'; rfl⟩
      rintro p (⟨c', hcopying, rfl⟩ | ⟨full, h⟩)
      · cases hc.symm.trans hcopying
        rfl
      · exact absurd h (hmade p full)

/-- What has just been made is at the place where the thing on top goes. -/
theorem of_made {it : Item} (hidle : d.job.copying = none) (hfailed : d'.job.failed = d.job.failed)
    (hmade : d'.made = d.made ∨ ∃ nd, d'.made = (it.dst, nd) :: d.made)
    (hcopying : ∀ c, d'.job.copying = some c → c.dst = it.dst) : Tracks d d' := by
  refine .inl ⟨hfailed, it.dst, ?_, hcopying⟩
  rintro p (⟨c, hc, -⟩ | ⟨full, hfull⟩)
  · cases hidle.symm.trans hc
  · rcases hmade with hmade | ⟨nd, hmade⟩
    · exact absurd (hmade.symm.trans hfull) (List.cons_ne_self _ _).symm
    · cases hmade.symm.trans hfull
      rfl

theorem took {it : Item} {rest : List Item} (hidle : d.job.copying = none)
    (ht : Took (d.pop rest) it d') : Tracks d d' := by
  have hnot : ∀ c, d.job.copying = some c → c.dst = it.dst := by
    intro c hc
    cases hidle.symm.trans hc
  have hmadeDir : ∀ {m}, MadeDir (d.pop rest) it m →
      m.made = d.made ∨ m.made = (it.dst, .dir) :: d.made := by
    intro m hm
    cases hm with
    | delete => exact .inl rfl
    | there => exact .inl rfl
    | made => exact .inr rfl
  cases ht with
  | failed p e =>
      refine .inr ⟨hidle, ?_⟩
      rintro p (⟨c, hc, -⟩ | ⟨full, hfull⟩)
      · cases hidle.symm.trans hc
      · exact absurd hfull (List.cons_ne_self _ _).symm
  | removedDir =>
      split
      · exact of_made hidle rfl (.inl rfl) hnot
      · exact of_made hidle rfl (.inl rfl) hnot
  | shut _ _ m hm e =>
      have hjob := hm.keeps.1
      refine .inr ⟨(congrArg FileJob.copying hjob).trans hidle, ?_⟩
      rintro p (⟨c, hc, -⟩ | ⟨full, hfull⟩)
      · cases hidle.symm.trans hc
      · rcases hmadeDir hm with hmade | hmade
        · exact absurd (hmade.symm.trans hfull) (List.cons_ne_self _ _).symm
        · cases hmade.symm.trans hfull
  | walked _ _ m hm names _ =>
      have hjob := hm.keeps.1
      have hfailed : m.job.failed = d.job.failed := by
        rw [hjob]
        rfl
      have hmade : m.made = d.made ∨ ∃ nd, m.made = (it.dst, nd) :: d.made :=
        (hmadeDir hm).imp_right fun hmade => ⟨.dir, hmade⟩
      refine of_made hidle hfailed hmade fun c hc => hnot c ?_
      exact (congrArg FileJob.copying hjob).symm.trans hc
  | unlinked => exact of_made hidle rfl (.inl rfl) hnot
  | renamed =>
      split
      · exact of_made hidle rfl (.inl rfl) hnot
      · exact of_made hidle rfl (.inr ⟨_, rfl⟩) hnot
  | opened =>
      refine of_made hidle rfl (.inr ⟨_, rfl⟩) ?_
      intro c hc
      cases hc
      rfl

theorem sliced {loses : Nat} {c : Copying} {part : Bytes} (h : Tracks d d') (hc : d'.job.copying = some c)
    (hdst : d'.tree.node c.dst = some (.file part)) (hs : Sliced loses d' c e) : Tracks d e := by
  rcases h with ⟨hfailed, dst, hcopied, hcopying⟩ | ⟨hidle, -⟩
  · cases hcopying c hc
    cases hs with
    | appended data _ =>
        refine .inl ⟨hfailed, c.dst, hcopied, ?_⟩
        intro c' hc'
        cases hc'
        rfl
    | abandoned e =>
        obtain ⟨hjob, hmade, -⟩ := abandon_keeps hc e
        refine .inr ⟨by rw [hjob], fun p hp => ?_⟩
        have hp : d.Copied d' p := hp.imp_right fun ⟨full, hfull⟩ => ⟨full, hmade.symm.trans hfull⟩
        rw [hcopied p hp, node_abandon hc hdst, if_pos rfl]
    | finished =>
        obtain ⟨hjob, hmade, -⟩ := finishCurrent_keeps hc loses
        refine .inl ⟨by rw [hjob]; exact hfailed, c.dst, fun p hp => ?_, by rw [hjob]; nofun⟩
        exact hcopied p (hp.imp_right fun ⟨full, hfull⟩ => ⟨full, hmade.symm.trans hfull⟩)
  · cases hidle.symm.trans hc

end Tracks

theorem removesInterrupted {d : Disk} {i : Act} (h : Whole d) (hlets : d.LetsFinish i) :
    d.RemovesInterrupted i := by
  cases i with
  | start => trivial
  | cancel => trivial
  | step budget a =>
  have htracks : Whole (d.step budget a) ∧ Tracks d (d.step budget a) := by
    refine step_rule (P := fun d' => Whole d' ∧ Tracks d d') ⟨h, .refl d⟩ ?_ ?_ ?_
    · intro it rest d' hactive hidle hpending ht
      exact ⟨h.took hactive hidle ht, .took hidle ht⟩
    · intro _ hidle _
      exact ⟨.of_idle hidle (h.wholeAt hidle), Tracks.refl d⟩
    · rintro d' e c hc hs ⟨hwhole, htracks⟩
      rw [show a.loses = 0 from hlets] at hs
      obtain ⟨-, full, -, -, hdst⟩ := hwhole.copying c hc
      exact ⟨hwhole.sliced hc hs, htracks.sliced hc hdst hs⟩
  intro hfailed p hp
  rcases htracks.2 with ⟨hsame, -⟩ | ⟨-, hgone⟩
  · exact absurd hsame hfailed
  · exact hgone p hp

/-- **No copy is left truncated.** In a run that lets every copy come to its end, once nothing is
under way every file the job has made is the whole of its source; and what a failure interrupts
is removed at once. -/
theorem run_whole (t : Tree) (acts : List Act)
    (hlets : StepsMeet Disk.act Disk.LetsFinish { tree := t } acts) :
    ((run Disk.act { tree := t } acts).job.active = false →
      ∀ p, (run Disk.act { tree := t } acts).WholeAt p) ∧
    StepsMeet Disk.act Disk.RemovesInterrupted { tree := t } acts := by
  have hfresh : Whole { tree := t } := .of_idle rfl fun p nd c hnd => by cases hnd
  constructor
  · intro hinactive
    have hwhole := run_invariant Whole.act hfresh hlets
    refine hwhole.wholeAt ?_
    by_contra hbusy
    rw [hwhole.busy hbusy] at hinactive
    cases hinactive
  · rw [stepsMeet_iff]
    rintro before i ⟨after, rfl⟩
    have hok := stepsMeet_iff.1 hlets before i ⟨after, rfl⟩
    rw [List.append_assoc] at hlets
    exact removesInterrupted (run_invariant Whole.act hfresh hlets.of_append) hok

/-- A copy in two slices. -/
theorem run_whole_two :
    (run Disk.act { tree := .ofEntries [([[1]], .file [65, 66]), ([[2]], .dir)] }
      [.start [[[1]]] [[2]] .copy, .step 1 {}, .step 2 {}, .step 1 {}]).WholeAt [[2], [1]] :=
  (run_whole _ [.start [[[1]]] [[2]] .copy, .step 1 {}, .step 2 {}, .step 1 {}]
    ⟨rfl, rfl, rfl, rfl, trivial⟩).1 (by decide) _

/-- The same, cancelled after the first: half of the file stays. -/
theorem not_all_whole :
    ¬ ∀ (t : Tree) (acts : List Act), (run Disk.act { tree := t } acts).job.active = false →
      ∀ p, (run Disk.act { tree := t } acts).WholeAt p := by
  intro h
  have hwhole := h (.ofEntries [([[1]], .file [65, 66]), ([[2]], .dir)])
    [.start [[[1]]] [[2]] .copy, .step 1 {}, .cancel] (by decide) [[2], [1]] (.file [65, 66]) [65]
    (by decide) (by decide)
  exact absurd hwhole (by decide)

/-- Nor is it known that what was written has been kept. -/
example : (run Disk.act { tree := .ofEntries [([[1]], .file [65, 66]), ([[2]], .dir)] }
    [.start [[[1]]] [[2]] .copy, .step 3 { loses := 1 }, .step 1 {}]).tree.node [[2], [1]] =
      some (.file [65]) := by
  decide

end Sshos.Apps
