import Sshos.Apps.FileJobKeeps

/-!
# Sshos.Apps.FileJobComplete

**Nothing is left out.** What is on the stack is as it was, and as long as nothing has failed, all
there was is where it goes, or is being copied, or is at or below a thing on the stack. So when
the stack is empty it is all where it goes.
-/

namespace Sshos.Apps

open Sshos.Lib (Bytes FileTree Node run run_invariant StepsMeet)
open Disk

section Complete

variable {t₀ : Tree} {sources : List Path} {dest : Path} {kind : FileOp}

/-- What is to be walked is as it was. -/
def Untouched (t₀ t : Tree) (it : Item) : Prop :=
  it.rmdirOnly = false → ∀ p, it.src <+: p → t.node p = t₀.node p

/-- It is where it goes, or being copied there, or is still to be treated. -/
def Covered (t₀ t : Tree) (copying : Option Copying) (todo : List Item) (p q : Path) : Prop :=
  t.node q = t₀.node p ∨ (∃ c, copying = some c ∧ c.src = p) ∨
    ∃ it ∈ todo, it.rmdirOnly = false ∧ it.src <+: p

/-- Nothing is left out, if `todo` is to be treated. -/
structure Completes (t₀ : Tree) (sources : List Path) (dest : Path) (d : Disk) (todo : List Item) :
    Prop where
  untouched : ∀ it ∈ todo, Untouched t₀ d.tree it
  aside : ∀ c, d.job.copying = some c → ∀ it ∈ todo, it.rmdirOnly = false → ¬ it.src <+: c.src
  covered : d.job.failed = 0 → ∀ p q, Goes sources dest p q → t₀.node p ≠ none →
    Covered t₀ d.tree d.job.copying todo p q

theorem Untouched.of_changed {t t' : Tree} {it : Item} {p q q' : Path} (h : Untouched t₀ t it)
    (hsep : Separate t₀ sources dest) (hit : Goes sources dest it.src q') (hgoes : Goes sources dest p q)
    (hothers : ∀ r, r ≠ p → r ≠ q → t'.node r = t.node r)
    (hp : t'.node p = t.node p ∨ (it.rmdirOnly = false → ¬ it.src <+: p)) : Untouched t₀ t' it := by
  intro hmark r hr
  have hrq : r ≠ q := by
    obtain ⟨s, rfl⟩ := hr
    exact hsep.src_ne_dst (Separate.goes_append hit s) hgoes
  by_cases hrp : r = p
  · subst hrp
    rcases hp with hsame | hout
    · exact hsame.trans (h hmark r hr)
    · exact absurd hr (hout hmark)
  · exact (hothers r hrp hrq).trans (h hmark r hr)

namespace Completes

variable {d d' : Disk}

/-- The tree changes for one thing, which is where it goes afterwards, or is being copied. -/
theorem change (hsep : Separate t₀ sources dest) {todo todo' : List Item} {p q : Path}
    (h : Completes t₀ sources dest d todo) (hgoes : Goes sources dest p q)
    (hothers : ∀ r, r ≠ p → r ≠ q → d'.tree.node r = d.tree.node r)
    (hqueued : ∀ it ∈ todo', Untouched t₀ d.tree it ∧ ∃ q, Goes sources dest it.src q)
    (hp : d'.tree.node p = d.tree.node p ∨ ∀ it ∈ todo', it.rmdirOnly = false → ¬ it.src <+: p)
    (haside : ∀ c, d'.job.copying = some c → ∀ it ∈ todo', it.rmdirOnly = false → ¬ it.src <+: c.src)
    (hcovered : d'.job.failed = 0 → d.job.failed = 0 ∧
      Covered t₀ d'.tree d'.job.copying todo' p q ∧
      ∀ r r', Goes sources dest r r' → r ≠ p → t₀.node r ≠ none →
        Covered t₀ d.tree d.job.copying todo r r' → d.tree.node r' = t₀.node r ∨
          ∃ it ∈ todo', it.rmdirOnly = false ∧ it.src <+: r) :
    Completes t₀ sources dest d' todo' := by
  refine ⟨?_, haside, ?_⟩
  · intro it hit hmark
    obtain ⟨hit', q', hgoes'⟩ := hqueued it hit
    refine hit'.of_changed hsep hgoes' hgoes hothers ?_ hmark
    exact hp.imp_right fun hout => hout it hit
  · intro hfailed r r' hr hsome
    obtain ⟨hfailed', hpq, hrest⟩ := hcovered hfailed
    by_cases hrp : r = p
    · subst hrp
      cases hsep.dst_unique hr hgoes
      exact hpq
    · rcases hrest r r' hr hrp hsome (h.covered hfailed' r r' hr hsome) with hdone | hstill
      · left
        have hrq : r' ≠ q := by
          rintro rfl
          exact hrp (hsep.src_unique hr hgoes)
        exact (hothers r' (hsep.src_ne_dst hgoes hr).symm hrq).trans hdone
      · exact .inr (.inr hstill)

/-- What is below what is taken is in a directory. -/
theorem below_of_dir {it : Item} {r : Path} (hpre : it.src <+: r) (hne : r ≠ it.src)
    (hsome : t₀.node r ≠ none) : t₀.node it.src = some .dir :=
  FileTree.node_above hsome hpre hne.symm

/-- What was covered still is, but for what was to be treated with the thing on top. -/
theorem still_covered (hidle : d.job.copying = none) {it : Item} {todo todo' : List Item} {r r' : Path}
    (h : Covered t₀ d.tree d.job.copying (it :: todo) r r') (htodo : ∀ j ∈ todo, j ∈ todo')
    (hnot : ¬ (it.rmdirOnly = false ∧ it.src <+: r)) :
    d.tree.node r' = t₀.node r ∨ ∃ j ∈ todo', j.rmdirOnly = false ∧ j.src <+: r := by
  rcases h with hdone | ⟨c, hc, -⟩ | ⟨j, hj, hmark, hpre⟩
  · exact .inl hdone
  · cases hidle.symm.trans hc
  · rcases List.mem_cons.1 hj with rfl | hj
    · exact absurd ⟨hmark, hpre⟩ hnot
    · exact .inr ⟨j, htodo j hj, hmark, hpre⟩

/-- What is below a directory is at or below one of the things in it. -/
theorem exists_inside {m : Disk} {it : Item} {names : List Bytes} {r : Path}
    (hentries : ∀ n, t₀.node (it.src ++ [n]) ≠ none → m.tree.node (it.src ++ [n]) ≠ none)
    (hnames : names.Perm (m.tree.children it.src)) (hpre : it.src <+: r) (hne : r ≠ it.src)
    (hsome : t₀.node r ≠ none) :
    ∃ j ∈ inside m.job.kind it names, j.rmdirOnly = false ∧ j.src <+: r := by
  obtain ⟨below, rfl⟩ := hpre
  cases below with
  | nil => exact absurd (List.append_nil _) hne
  | cons n below =>
      have hentry : t₀.node (it.src ++ [n]) ≠ none := by
        cases below with
        | nil => exact hsome
        | cons n' below =>
            simp [FileTree.node_above hsome (p := it.src ++ [n]) (by simp) (by simp)]
      have hmem : n ∈ names := by
        rw [hnames.mem_iff, FileTree.mem_children]
        exact hentries n hentry
      exact ⟨_, mem_inside.2 ⟨n, hmem, rfl⟩, rfl, below, by simp⟩

/-- A thing on the stack is at its place. -/
theorem pending {todo : List Item} (h : Completes t₀ sources dest d todo) (hk : Keeps t₀ sources dest kind d)
    (htodo : ∀ j ∈ d.job.pending, j ∈ todo) :
    ∀ j ∈ d.job.pending, Untouched t₀ d.tree j ∧ ∃ q, Goes sources dest j.src q := by
  intro j hj
  obtain ⟨q, hgoes, -⟩ := hk.items j hj
  exact ⟨h.untouched j (htodo j hj), q, hgoes⟩

/-- Once the directory is made, what is still to be treated is as it was. -/
theorem made {todo : List Item} (h : Completes t₀ sources dest d todo) (hk : Keeps t₀ sources dest kind d)
    (htodo : ∀ j ∈ d.job.pending, j ∈ todo) {it : Item} (hgoes : Goes sources dest it.src it.dst) {m : Disk}
    (hm : MadeDir d it m) : ∀ j ∈ marks m.job.kind it ++ m.job.pending,
      Untouched t₀ d.tree j ∧ ∃ q, Goes sources dest j.src q := by
  intro j hj
  rw [hm.keeps.1] at hj
  rcases List.mem_append.1 hj with hj | hj
  · obtain ⟨-, rfl⟩ := mem_marks.1 hj
    exact ⟨nofun, it.dst, hgoes⟩
  · exact h.pending hk htodo j hj

/-- A directory is walked: what is below it is treated with the things in it. -/
theorem walked (hsep : Separate t₀ sources dest) (hk : Keeps t₀ sources dest kind d)
    (hidle : d.job.copying = none) (hkind : kind ≠ .delete) {it : Item}
    (hgoes : Goes sources dest it.src it.dst) (h : Completes t₀ sources dest d (it :: d.job.pending))
    (hmark : it.rmdirOnly = false) (hdir : d.tree.node it.src = some .dir) {m : Disk}
    (hm : MadeDir d it m) {names : List Bytes} (hnames : names.Perm (m.tree.children it.src)) :
    Completes t₀ sources dest (m.walked it names) (m.walked it names).job.pending := by
  have hne := hsep.src_ne_dst hgoes hgoes
  have hdir₀ := hk.node_src hgoes hdir
  have htouched := h.untouched it (List.mem_cons_self ..) hmark
  have hfailed : m.job.failed = d.job.failed := by rw [hm.keeps.1]
  have hidle' : m.job.copying = none := hm.keeps.1 ▸ hidle
  refine h.change hsep hgoes (fun r _ hr => hm.node_ne fun heq => hr heq.1) ?_
    (.inl (hm.node_ne fun heq => hne heq.1)) (fun c hc => by cases hidle'.symm.trans hc)
    fun hzero => ⟨hfailed.symm.trans hzero, .inl ?_, ?_⟩
  · intro j hj
    rcases List.mem_append.1 hj with hj | hj
    · obtain ⟨n, -, rfl⟩ := mem_inside.1 hj
      refine ⟨fun _ p hp => htouched p ((List.prefix_append _ _).trans hp), ?_⟩
      exact ⟨it.dst ++ [n], Separate.goes_append hgoes [n]⟩
    · exact h.made hk (fun j hj => List.mem_cons_of_mem it hj) hgoes hm j hj
  · exact (hk.madeDir hsep hidle hkind hgoes hdir hm).2.trans hdir₀.symm
  · intro r r' _ hr hsome hcovered
    by_cases hpre : it.src <+: r
    · have hentries : ∀ n, t₀.node (it.src ++ [n]) ≠ none → m.tree.node (it.src ++ [n]) ≠ none := by
        intro n hentry
        have hout : it.src ++ [n] ≠ it.dst :=
          hsep.src_ne_dst (Separate.goes_append hgoes [n]) hgoes
        rwa [hm.node_ne fun heq => hout heq.1, htouched _ (List.prefix_append _ _)]
      obtain ⟨j, hj, hmark', hbelow⟩ := exists_inside hentries hnames hpre hr hsome
      exact .inr ⟨j, List.mem_append_left _ hj, hmark', hbelow⟩
    · refine still_covered hidle hcovered (fun j hj => ?_) fun hit => hpre hit.2
      refine List.mem_append_right _ (List.mem_append_right _ ?_)
      rw [hm.keeps.1]
      exact hj

/-- A file is treated: there is nothing below it. -/
theorem file_covered (hk : Keeps t₀ sources dest kind d) (hidle : d.job.copying = none) {it : Item}
    (hgoes : Goes sources dest it.src it.dst) {c : Bytes} (hfile : d.tree.node it.src = some (.file c))
    {todo : List Item} {r r' : Path} (hr : r ≠ it.src) (hsome : t₀.node r ≠ none)
    (h : Covered t₀ d.tree d.job.copying (it :: todo) r r') :
    d.tree.node r' = t₀.node r ∨ ∃ j ∈ todo, j.rmdirOnly = false ∧ j.src <+: r := by
  have hfile₀ := hk.node_src hgoes hfile
  refine still_covered hidle h (fun j hj => hj) ?_
  rintro ⟨-, hpre⟩
  cases hfile₀.symm.trans (below_of_dir hpre hr hsome)

theorem took (hsep : Separate t₀ sources dest) (hk : Keeps t₀ sources dest kind d)
    (hidle : d.job.copying = none) (hkind : kind ≠ .delete) {it : Item}
    (hit : Queued t₀ sources dest kind d.tree it) (hstacked : Stacked (it :: d.job.pending))
    (h : Completes t₀ sources dest d (it :: d.job.pending)) (ht : Took d it d') :
    Completes t₀ sources dest d' d'.job.pending := by
  have hclear := (List.pairwise_cons.1 hstacked).1
  have hcopying : ∀ {P : Copying → Prop} c, d.job.copying = some c → P c := by
    intro P c hc
    cases hidle.symm.trans hc
  have hrest := h.pending hk fun j hj => List.mem_cons_of_mem it hj
  cases ht with
  | failed p e =>
      exact ⟨fun j hj => (hrest j hj).1, hcopying, fun hfailed => absurd hfailed (Nat.succ_ne_zero _)⟩
  | removedDir hmark t hrmdir =>
      obtain ⟨q, hgoes, hqueued⟩ := hit
      rw [if_pos hmark] at hqueued
      have hne := hsep.src_ne_dst hgoes hgoes
      obtain ⟨-, -, hnode⟩ := FileTree.rmdir_ok hrmdir
      rw [if_neg (by rw [hk.op]; exact hkind)]
      refine h.change hsep hgoes (fun r hr _ => (hnode r).trans (if_neg hr)) hrest
        (.inr fun j hj => (hclear j hj).2) hcopying fun hfailed => ⟨hfailed, .inl ?_, ?_⟩
      · exact ((hnode q).trans (if_neg hne.symm)).trans (hqueued.2.2.trans hqueued.2.1.symm)
      · intro r r' _ _ _ hcovered
        refine still_covered hidle hcovered (fun j hj => hj) ?_
        rw [hmark]
        nofun
  | shut hmark hdir m hm e =>
      have hgoes := hit.goes hmark
      have hne := hsep.src_ne_dst hgoes hgoes
      have hidle' : m.job.copying = none := hm.keeps.1 ▸ hidle
      exact h.change hsep hgoes (fun r _ hr => hm.node_ne fun heq => hr heq.1)
        (h.made hk (fun j hj => List.mem_cons_of_mem it hj) hgoes hm)
        (.inl (hm.node_ne fun heq => hne heq.1)) (fun c hc => by cases hidle'.symm.trans hc)
        fun hfailed => absurd hfailed (Nat.succ_ne_zero _)
  | walked hmark hdir m hm names hnames =>
      exact h.walked hsep hk hidle hkind (hit.goes hmark) hmark hdir hm hnames
  | unlinked hmark hdelete => exact absurd (hk.op.symm.trans hdelete) hkind
  | renamed hmark hmove c hfile t hrename =>
      have hgoes := hit.goes hmark
      have hne := hsep.src_ne_dst hgoes hgoes
      rw [if_neg hne.symm]
      obtain ⟨c', hfile', ⟨hsame, -⟩ | ⟨-, -, -, hnode⟩⟩ := FileTree.rename_ok hrename
      · exact absurd hsame hne.symm
      cases hfile.symm.trans hfile'
      refine h.change hsep hgoes ?_ hrest (.inr fun j hj => (hclear j hj).2) hcopying
        fun hfailed => ⟨hfailed, .inl ?_, ?_⟩
      · exact fun r hsrc hdst => (hnode r).trans ((if_neg hdst).trans (if_neg hsrc))
      · exact ((hnode it.dst).trans (if_pos rfl)).trans (hk.node_src hgoes hfile).symm
      · exact fun r r' _ hr hsome => file_covered hk hidle hgoes hfile hr hsome
  | opened hmark _ c hfile t hmake =>
      have hgoes := hit.goes hmark
      have hne := hsep.src_ne_dst hgoes hgoes
      obtain ⟨hfree, -, hnode⟩ := FileTree.make_ok hmake
      refine h.change hsep hgoes (fun r _ hr => (hnode r).trans (if_neg hr)) hrest
        (.inl ((hnode it.src).trans (if_neg hne))) ?_ fun hfailed => ⟨hfailed, .inr (.inl ⟨_, rfl, rfl⟩), ?_⟩
      · intro k hk j hj
        cases hk
        exact (hclear j hj).2
      · exact fun r r' _ hr hsome => file_covered hk hidle hgoes hfile hr hsome

theorem sliced (hsep : Separate t₀ sources dest) (hk : Keeps t₀ sources dest kind d)
    (h : Completes t₀ sources dest d d.job.pending) {c : Copying} (hc : d.job.copying = some c)
    (hs : Sliced 0 d c d') : Completes t₀ sources dest d' d'.job.pending := by
  obtain ⟨hgoes, full, hfile₀, hsrc, hdst⟩ := hk.copying c hc
  have hne := hsep.src_ne_dst hgoes hgoes
  have hpending := h.pending hk fun _ hj => hj
  have hothers : ∀ r r', r ≠ c.src → Covered t₀ d.tree d.job.copying d.job.pending r r' →
      d.tree.node r' = t₀.node r ∨ ∃ j ∈ d.job.pending, j.rmdirOnly = false ∧ j.src <+: r := by
    rintro r r' hr (hdone | ⟨k, hk, rfl⟩ | hstill)
    · exact .inl hdone
    · cases hc.symm.trans hk
      exact absurd rfl hr
    · exact .inr hstill
  cases hs with
  | appended data _ =>
      have hnode := fun q => FileTree.node_update (q := q) (f := (· ++ data)) hdst
      refine h.change hsep hgoes (fun r _ hr => (hnode r).trans (if_neg hr)) hpending
        (.inl ((hnode c.src).trans (if_neg hne))) ?_
        fun hfailed => ⟨hfailed, .inr (.inl ⟨_, rfl, rfl⟩), fun r r' _ hr _ => hothers r r' hr⟩
      intro k hk
      cases hk
      exact h.aside c hc
  | abandoned e =>
      obtain ⟨hjob, -⟩ := abandon_keeps hc e
      have hnode := fun q => node_abandon hc (e := e) hdst q
      rw [show (d.abandon e).job.pending = d.job.pending by rw [hjob]]
      refine h.change hsep hgoes (fun r _ hr => (hnode r).trans (if_neg hr)) hpending
        (.inl ((hnode c.src).trans (if_neg hne))) ?_ ?_
      · rw [hjob]
        nofun
      · rw [hjob]
        exact fun hfailed => absurd hfailed (Nat.succ_ne_zero _)
  | finished hend =>
      obtain ⟨hjob, -⟩ := finishCurrent_keeps hc 0
      have hnode := fun q => node_finishCurrent hc hsrc q
      rw [content_of_file hsrc] at hend
      rw [List.take_of_length_le (List.drop_eq_nil_iff.1 hend)] at hdst
      rw [show (d.finishCurrent 0).job.pending = d.job.pending by rw [hjob]]
      refine h.change hsep hgoes (fun r hr _ => (hnode r).trans (if_neg fun heq => hr heq.2)) hpending
        (.inr (h.aside c hc)) ?_ ?_
      · rw [hjob]
        nofun
      · rw [hjob]
        refine fun hfailed => ⟨hfailed, .inl ?_, fun r r' _ hr _ => hothers r r' hr⟩
        exact ((hnode c.dst).trans (if_neg fun heq => hne heq.2.symm)).trans (hdst.trans hfile₀.symm)

end Completes

/-- What holds of a job that is stepped to its end: it keeps everything, it leaves nothing out,
and it ends when there is nothing more to do. -/
structure Faithful (t₀ : Tree) (sources : List Path) (dest : Path) (kind : FileOp) (d : Disk) : Prop where
  keeps : Keeps t₀ sources dest kind d
  completes : Completes t₀ sources dest d d.job.pending
  ended : d.job.active = false → d.job.pending = [] ∧ d.job.copying = none

theorem target_goes {s : Path} (hs : s ∈ sources) : Goes sources dest s (target dest s) :=
  ⟨s, hs, [], (List.append_nil s).symm, (List.append_nil _).symm⟩

namespace Faithful

theorem start (hsep : Separate t₀ sources dest) (hkind : kind ≠ .delete) :
    Faithful t₀ sources dest kind (({ tree := t₀ } : Disk).start sources dest kind) := by
  have hitem : ∀ it ∈ (({ tree := t₀ } : Disk).start sources dest kind).job.pending,
      ∃ s ∈ sources, it = { src := s, dst := target dest s } := by
    intro it hit
    obtain ⟨s, hs, rfl⟩ := List.mem_map.1 hit
    exact ⟨s, hs, by rw [if_neg hkind]⟩
  refine ⟨⟨rfl, ?_, ?_, ?_, nofun, nofun⟩, ⟨?_, nofun, ?_⟩, ?_⟩
  · show Stacked (sources.map _)
    rw [Stacked, List.pairwise_map]
    exact hsep.apart.imp fun h => ⟨fun _ => h.1, fun _ => h.2⟩
  · exact fun p q hgoes => .inl ⟨rfl, .inl (hsep.node_dst hgoes)⟩
  · intro it hit
    obtain ⟨s, hs, rfl⟩ := hitem it hit
    exact ⟨target dest s, target_goes hs, by rw [if_neg (by nofun)]⟩
  · exact fun it _ _ p _ => rfl
  · rintro - p q ⟨s, hs, r, rfl, rfl⟩ -
    exact .inr (.inr ⟨_, List.mem_map.2 ⟨s, hs, rfl⟩, rfl, List.prefix_append s r⟩)
  · intro hinactive
    cases sources with
    | nil => exact ⟨rfl, rfl⟩
    | cons s rest => cases hinactive

theorem step (hsep : Separate t₀ sources dest) (hkind : kind ≠ .delete) (d : Disk) (x : Nat × Answers)
    (h : Faithful t₀ sources dest kind d) (hcloses : x.2.loses = 0) :
    Faithful t₀ sources dest kind (d.stepBy x) := by
  refine step_rule h ?_ ?_ ?_
  · intro it rest d' hactive hidle hpending ht
    obtain ⟨hkeeps, hcompletes, -⟩ := h
    have hstacked : Stacked (it :: rest) := hpending ▸ hkeeps.stacked
    have hit := hkeeps.items it (hpending ▸ List.mem_cons_self ..)
    rw [hpending] at hcompletes
    have hpopped : Keeps t₀ sources dest kind (d.pop rest) := by
      refine hkeeps.restack rfl rfl rfl rfl (List.pairwise_cons.1 hstacked).2 fun j hj => ?_
      exact hkeeps.items j (hpending ▸ List.mem_cons_of_mem it hj)
    have hcovers : Completes t₀ sources dest (d.pop rest) (it :: rest) :=
      ⟨hcompletes.untouched, hcompletes.aside, hcompletes.covered⟩
    have hafter := hpopped.took hsep hidle hkind hit hstacked ht
    refine ⟨hafter, hcovers.took hsep hpopped hidle hkind hit hstacked ht, ?_⟩
    intro hinactive
    rw [(took_keeps ht).1, show (d.pop rest).job.active = true from hactive] at hinactive
    cases hinactive
  · intro _ hidle hpending
    obtain ⟨hkeeps, hcompletes, -⟩ := h
    refine ⟨hkeeps.restack rfl rfl rfl rfl hkeeps.stacked hkeeps.items, ?_, fun _ => ⟨hpending, hidle⟩⟩
    exact ⟨hcompletes.untouched, hcompletes.aside, hcompletes.covered⟩
  · rintro d d' c hc hs ⟨hkeeps, hcompletes, hended⟩
    rw [hcloses] at hs
    refine ⟨hkeeps.sliced hsep hc hs, hcompletes.sliced hsep hkeeps hc hs, ?_⟩
    intro hinactive
    rw [(sliced_keeps hc hs).1] at hinactive
    cases hc.symm.trans (hended hinactive).2

end Faithful

/-- What is promised at every instant: the content of a file is where it was or where it goes; a
directory goes only after what it held; and what is copied is as it was. -/
def NothingLost (t₀ : Tree) (sources : List Path) (dest : Path) (kind : FileOp) (t : Tree) : Prop :=
  ∀ p q, Goes sources dest p q →
    (∀ c, t₀.node p = some (.file c) → t.node p = some (.file c) ∨ t.node q = some (.file c)) ∧
    (t₀.node p = some .dir → t.node p ≠ some .dir →
      ∀ r, t₀.node (p ++ r) ≠ none → t.node (p ++ r) = none ∧ t.node (q ++ r) = t₀.node (p ++ r)) ∧
    (kind = .copy → t.node p = t₀.node p)

theorem nothingLost_of_kept {t : Tree} (h : Kept t₀ sources dest kind t) :
    NothingLost t₀ sources dest kind t := by
  intro p q hgoes
  refine ⟨fun c hc => ?_, fun hdir hgone r hr => ?_, fun hcopy => ?_⟩
  · rcases h p q hgoes with hsrc | ⟨-, -, hdst⟩
    · exact .inl (hsrc.trans hc)
    · exact .inr (hdst.trans hc)
  · -- Nothing is below what is not there.
    have hbelow : t.node (p ++ r) = none := by
      cases r with
      | nil =>
          rw [List.append_nil]
          rcases h p q hgoes with hsrc | ⟨-, hnone, -⟩
          · exact absurd (hsrc.trans hdir) hgone
          · exact hnone
      | cons n r => exact FileTree.node_below hgone (List.prefix_append _ _) (by simp)
    refine ⟨hbelow, ?_⟩
    rcases h _ _ (Separate.goes_append hgoes r) with hsrc | ⟨-, -, hdst⟩
    · exact absurd (hsrc.symm.trans hbelow) hr
    · exact hdst
  · rcases h p q hgoes with hsrc | ⟨hmove, -⟩
    · exact hsrc
    · rw [hcopy] at hmove
      cases hmove

/-- **A move loses nothing, and a copy alters nothing**, at every instant of every run, whatever
fails; and a job that ends without a failure leaves where it goes what there was. -/
theorem run_nothingLost (t : Tree) (sources : List Path) (dest : Path) (kind : FileOp)
    (hkind : kind ≠ .delete) (hsep : Separate t sources dest) (steps : List (Nat × Answers))
    (hcloses : ∀ x ∈ steps, x.2.loses = 0) :
    let d := run stepBy (({ tree := t } : Disk).start sources dest kind) steps
    (∀ t' ∈ d.tree :: d.past, NothingLost t sources dest kind t') ∧
    (d.job.active = false → d.job.failed = 0 →
      ∀ s ∈ sources, ∀ r, d.tree.node (target dest s ++ r) = t.node (s ++ r)) := by
  intro d
  have hd : Faithful t sources dest kind d :=
    run_invariant (Faithful.step hsep hkind) (.start hsep hkind) (.of_forall (fun x hx _ => hcloses x hx) _)
  refine ⟨fun t' ht' => nothingLost_of_kept ?_, fun hinactive hfailed s hs r => ?_⟩
  · rcases List.mem_cons.1 ht' with rfl | hpast
    · exact kept_of_placed hd.keeps.placed
    · exact hd.keeps.past t' hpast
  · have hgoes : Goes sources dest (s ++ r) (target dest s ++ r) := ⟨s, hs, r, rfl, rfl⟩
    obtain ⟨hempty, hidle⟩ := hd.ended hinactive
    by_cases hsome : t.node (s ++ r) = none
    · -- Nothing has been added.
      rcases hd.keeps.placed _ _ hgoes with ⟨-, hnone | hsame | hhole⟩ | ⟨-, -, hsame, -⟩
      · exact hnone.trans hsome.symm
      · exact hsame
      · rw [Keeps.hole_idle hidle] at hhole
        cases hhole
      · exact hsame
    · rcases hd.completes.covered hfailed _ _ hgoes hsome with hdone | ⟨c, hc, -⟩ | ⟨it, hit, -⟩
      · exact hdone
      · cases hidle.symm.trans hc
      · rw [hempty] at hit
        cases hit

/-- A directory with a file in it is moved. -/
theorem run_nothingLost_moved :
    let t : Tree := .ofEntries [([[1]], .dir), ([[1], [3]], .file [65]), ([[2]], .dir)]
    let d := run stepBy (({ tree := t } : Disk).start [[[1]]] [[2]] .move) (List.replicate 4 (1, {}))
    d.tree.node ([[2], [1]] ++ [[3]]) = t.node ([[1]] ++ [[3]]) := by
  intro t d
  have hsep : Separate t [[[1]]] [[2]] := by
    refine ⟨?_, ?_, List.pairwise_singleton _ _, List.pairwise_singleton _ _⟩
    · decide
    · decide
  have hcloses : ∀ x ∈ List.replicate 4 ((1, {}) : Nat × Answers), x.2.loses = 0 := by
    intro x hx
    rw [List.eq_of_mem_replicate hx]
  exact (run_nothingLost t _ _ .move (by decide) hsep _ hcloses).2 (by decide) (by decide) _
    (List.mem_singleton.2 rfl) [[3]]

end Complete

end Sshos.Apps
