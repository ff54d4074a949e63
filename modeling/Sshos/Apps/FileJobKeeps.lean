import Sshos.Apps.FileJobStack

/-!
# Sshos.Apps.FileJobKeeps

**A move loses nothing, and a copy alters nothing.** What is at or below a source goes to the
same place at or below its target. At every instant it is where it was, or, when it is moved, it
is where it goes and whole; and a job that ends without a failure leaves all of it there.

The targets are free, and apart from the sources.
-/

namespace Sshos.Apps

open Sshos.Lib (Bytes FileTree Node run run_invariant StepsMeet)
open Disk

/-! ### Where things go -/

/-- Where what is at `p` goes. -/
def Goes (sources : List Path) (dest : Path) (p q : Path) : Prop :=
  ∃ s ∈ sources, ∃ r, p = s ++ r ∧ q = target dest s ++ r

/-- The targets are free and outside of the sources, and no two sources have to do with each
other. -/
structure Separate (t : Tree) (sources : List Path) (dest : Path) : Prop where
  free : ∀ s ∈ sources, t.node (target dest s) = none
  outside : ∀ s ∈ sources, ∀ s' ∈ sources, ¬ s <+: target dest s' ∧ ¬ target dest s' <+: s
  apart : sources.Pairwise fun s s' => ¬ s <+: s' ∧ ¬ s' <+: s
  names : sources.Pairwise fun s s' => target dest s ≠ target dest s'

namespace Separate

variable {t : Tree} {sources : List Path} {dest p p' q q' : Path}

theorem source_eq (h : Separate t sources dest) {s s' r : Path} (hs : s ∈ sources) (hs' : s' ∈ sources)
    (hp : s <+: r) (hp' : s' <+: r) : s = s' := by
  by_contra hne
  have : Std.Symm fun s s' : Path => ¬ s <+: s' ∧ ¬ s' <+: s := ⟨fun _ _ hxy => ⟨hxy.2, hxy.1⟩⟩
  have hapart := h.apart.forall hs hs' hne
  rcases List.prefix_or_prefix_of_prefix hp hp' with hpre | hpre
  · exact hapart.1 hpre
  · exact hapart.2 hpre

/-- A target has a name of its own. -/
theorem target_eq (h : Separate t sources dest) {s s' r : Path} (hs : s ∈ sources) (hs' : s' ∈ sources)
    (hp : target dest s <+: r) (hp' : target dest s' <+: r) : s = s' := by
  have hlength : ∀ s ∈ sources, (target dest s).length = dest.length + 1 := by
    intro s hs
    cases hlast : s.getLast? with
    | none =>
        rw [List.getLast?_eq_none_iff.1 hlast] at hs
        exact absurd List.nil_prefix (h.outside _ hs _ hs).1
    | some n =>
        unfold target
        rw [hlast, List.length_append]
        rfl
  have heq : target dest s = target dest s' := by
    have hsame := (hlength s hs).trans (hlength s' hs').symm
    rcases List.prefix_or_prefix_of_prefix hp hp' with hpre | hpre
    · exact hpre.eq_of_length hsame
    · exact (hpre.eq_of_length hsame.symm).symm
  by_contra hne
  have : Std.Symm fun s s' : Path => target dest s ≠ target dest s' := ⟨fun _ _ hxy => hxy.symm⟩
  exact h.names.forall hs hs' hne heq

theorem dst_unique (h : Separate t sources dest) (hp : Goes sources dest p q)
    (hp' : Goes sources dest p q') : q = q' := by
  obtain ⟨s, hs, r, rfl, rfl⟩ := hp
  obtain ⟨s', hs', r', heq, rfl⟩ := hp'
  cases h.source_eq hs hs' (List.prefix_append s r) (heq ▸ List.prefix_append s' r')
  rw [List.append_cancel_left heq]

theorem src_unique (h : Separate t sources dest) (hp : Goes sources dest p q)
    (hp' : Goes sources dest p' q) : p = p' := by
  obtain ⟨s, hs, r, rfl, rfl⟩ := hp
  obtain ⟨s', hs', r', rfl, heq⟩ := hp'
  cases h.target_eq hs hs' (List.prefix_append _ r) (heq ▸ List.prefix_append _ r')
  rw [List.append_cancel_left heq]

/-- Nothing goes to where anything comes from. -/
theorem src_ne_dst (h : Separate t sources dest) (hp : Goes sources dest p q)
    (hp' : Goes sources dest p' q') : p ≠ q' := by
  obtain ⟨s, hs, r, rfl, rfl⟩ := hp
  obtain ⟨s', hs', r', rfl, rfl⟩ := hp'
  intro heq
  have houtside := h.outside s hs s' hs'
  rcases List.prefix_or_prefix_of_prefix (List.prefix_append s r) (heq ▸ List.prefix_append _ r')
    with hpre | hpre
  · exact houtside.1 hpre
  · exact houtside.2 hpre

theorem goes_append (hp : Goes sources dest p q) (r : Path) : Goes sources dest (p ++ r) (q ++ r) := by
  obtain ⟨s, hs, r', rfl, rfl⟩ := hp
  exact ⟨s, hs, r' ++ r, List.append_assoc .., List.append_assoc ..⟩

theorem node_dst (h : Separate t sources dest) (hp : Goes sources dest p q) : t.node q = none := by
  obtain ⟨s, hs, r, rfl, rfl⟩ := hp
  by_contra hsome
  by_cases hr : target dest s = target dest s ++ r
  · rw [← hr] at hsome
    exact hsome (h.free s hs)
  · have hdir := FileTree.node_above hsome (List.prefix_append _ _) hr
    rw [h.free s hs] at hdir
    cases hdir

end Separate

/-! ### What is kept -/

section Keeps

variable {t₀ : Tree} {sources : List Path} {dest : Path} {kind : FileOp}

/-- It is where it was, and perhaps where it goes as well, in part if it is being copied there; or
it has been moved. -/
def Placed (t₀ t : Tree) (kind : FileOp) (hole : Option Path) (p q : Path) : Prop :=
  t.node p = t₀.node p ∧ (t.node q = none ∨ t.node q = t₀.node p ∨ hole = some q) ∨
  kind = .move ∧ t.node p = none ∧ t.node q = t₀.node p ∧ hole ≠ some q

/-- Where a file is being copied. -/
def hole (d : Disk) : Option Path := d.job.copying.map (·.dst)

/-- It is where it was or, if it is moved, where it goes. -/
def Kept (t₀ : Tree) (sources : List Path) (dest : Path) (kind : FileOp) (t : Tree) : Prop :=
  ∀ p q, Goes sources dest p q →
    t.node p = t₀.node p ∨ kind = .move ∧ t.node p = none ∧ t.node q = t₀.node p

/-- A thing on the stack goes where it should, and the mark of a removal stands for a directory
that has been made. -/
def Queued (t₀ : Tree) (sources : List Path) (dest : Path) (kind : FileOp) (t : Tree) (it : Item) : Prop :=
  ∃ q, Goes sources dest it.src q ∧
    if it.rmdirOnly then kind = .move ∧ t₀.node it.src = some .dir ∧ t.node q = some .dir else it.dst = q

theorem Queued.goes {t : Tree} {it : Item} (h : Queued t₀ sources dest kind t it)
    (hmark : it.rmdirOnly = false) : Goes sources dest it.src it.dst := by
  obtain ⟨q, hgoes, hqueued⟩ := h
  rw [if_neg (by rw [hmark]; nofun)] at hqueued
  exact hqueued ▸ hgoes

/-- Every thing is at its place, those on the stack too. -/
structure Keeps (t₀ : Tree) (sources : List Path) (dest : Path) (kind : FileOp) (d : Disk) : Prop where
  op : d.job.kind = kind
  stacked : Stacked d.job.pending
  placed : ∀ p q, Goes sources dest p q → Placed t₀ d.tree kind (hole d) p q
  items : ∀ it ∈ d.job.pending, Queued t₀ sources dest kind d.tree it
  copying : ∀ c, d.job.copying = some c → Goes sources dest c.src c.dst ∧ ∃ full,
    t₀.node c.src = some (.file full) ∧ d.tree.node c.src = some (.file full) ∧
    d.tree.node c.dst = some (.file (full.take c.offset))
  past : ∀ t ∈ d.past, Kept t₀ sources dest kind t

/-- The tree has changed for one thing only, where it was and where it goes. -/
structure Changed (t₀ t t' : Tree) (kind : FileOp) (hole hole' : Option Path) (p q : Path) : Prop where
  others : ∀ r, r ≠ p → r ≠ q → t'.node r = t.node r
  holes : ∀ r, r ≠ q → (hole = some r ↔ hole' = some r)
  dir : t.node q = some .dir → t'.node q = some .dir
  placed : Placed t₀ t' kind hole' p q

namespace Changed

variable {t t' : Tree} {hole hole' : Option Path} {p q p' q' : Path}

/-- The others are at their places still. -/
theorem placed_all (hsep : Separate t₀ sources dest) (h : Changed t₀ t t' kind hole hole' p q)
    (hpq : Goes sources dest p q)
    (hplaced : ∀ p q, Goes sources dest p q → Placed t₀ t kind hole p q) :
    ∀ p q, Goes sources dest p q → Placed t₀ t' kind hole' p q := by
  intro p' q' hgoes
  by_cases hq : q' = q
  · subst hq
    cases hsep.src_unique hpq hgoes
    exact h.placed
  · have hp : p' ≠ p := fun heq => hq (hsep.dst_unique (heq ▸ hgoes) hpq)
    have hnodep := h.others p' hp (hsep.src_ne_dst hgoes hpq)
    have hnodeq := h.others q' (hsep.src_ne_dst hpq hgoes).symm hq
    unfold Placed
    rw [hnodep, hnodeq, ne_eq, ← h.holes q' hq]
    exact hplaced p' q' hgoes

theorem dir_all (hsep : Separate t₀ sources dest) (h : Changed t₀ t t' kind hole hole' p q)
    (hpq : Goes sources dest p q) (hgoes : Goes sources dest p' q') (hdir : t.node q' = some .dir) :
    t'.node q' = some .dir := by
  by_cases hq : q' = q
  · subst hq
    exact h.dir hdir
  · rw [h.others q' (hsep.src_ne_dst hpq hgoes).symm hq]
    exact hdir

end Changed

theorem kept_of_placed {t : Tree} {hole : Option Path}
    (h : ∀ p q, Goes sources dest p q → Placed t₀ t kind hole p q) : Kept t₀ sources dest kind t := by
  intro p q hgoes
  rcases h p q hgoes with ⟨hsrc, -⟩ | ⟨hmove, hgone, hdst, -⟩
  · exact .inl hsrc
  · exact .inr ⟨hmove, hgone, hdst⟩

namespace Keeps

variable {d d' : Disk} {p q : Path}

/-- What is there at a source is what was there. -/
theorem node_src (h : Keeps t₀ sources dest kind d) {nd : Node Bytes} (hgoes : Goes sources dest p q)
    (hnode : d.tree.node p = some nd) : t₀.node p = some nd := by
  rcases h.placed p q hgoes with ⟨hsrc, -⟩ | ⟨-, hgone, -⟩
  · exact hsrc.symm.trans hnode
  · rw [hgone] at hnode
    cases hnode

/-- The tree changes for one thing. -/
theorem change (hsep : Separate t₀ sources dest) (h : Keeps t₀ sources dest kind d)
    (hgoes : Goes sources dest p q)
    (hchanged : Changed t₀ d.tree d'.tree kind (hole d) (hole d') p q) (hop : d'.job.kind = kind)
    (hpast : ∀ t ∈ d'.past, t = d'.tree ∨ t ∈ d.past) (hpending : d'.job.pending = d.job.pending)
    (hcopying : ∀ c, d'.job.copying = some c → c.src = p ∧ c.dst = q ∧ ∃ full,
      t₀.node p = some (.file full) ∧ d'.tree.node p = some (.file full) ∧
      d'.tree.node q = some (.file (full.take c.offset))) : Keeps t₀ sources dest kind d' := by
  have hplaced := hchanged.placed_all hsep hgoes h.placed
  refine ⟨hop, by rw [hpending]; exact h.stacked, hplaced, ?_, ?_, ?_⟩
  · intro it hit
    rw [hpending] at hit
    obtain ⟨q', hgoes', hit⟩ := h.items it hit
    refine ⟨q', hgoes', ?_⟩
    split
    next hmark =>
      rw [if_pos hmark] at hit
      exact ⟨hit.1, hit.2.1, hchanged.dir_all hsep hgoes hgoes' hit.2.2⟩
    next hmark =>
      rw [if_neg hmark] at hit
      exact hit
  · intro c hc
    obtain ⟨rfl, rfl, full, hfull⟩ := hcopying c hc
    exact ⟨hgoes, full, hfull⟩
  · intro t ht
    rcases hpast t ht with rfl | hold
    · exact kept_of_placed hplaced
    · exact h.past t hold

/-- Things are put on the stack. -/
theorem restack (h : Keeps t₀ sources dest kind d) {d' : Disk} (htree : d'.tree = d.tree)
    (hpast : d'.past = d.past) (hop : d'.job.kind = d.job.kind)
    (hcopying : d'.job.copying = d.job.copying) (hstacked : Stacked d'.job.pending)
    (hitems : ∀ it ∈ d'.job.pending, Queued t₀ sources dest kind d.tree it) :
    Keeps t₀ sources dest kind d' := by
  have hhole : hole d' = hole d := by
    unfold hole
    rw [hcopying]
  refine ⟨hop.trans h.op, hstacked, ?_, by rw [htree]; exact hitems, ?_, by rw [hpast]; exact h.past⟩
  · rw [htree, hhole]
    exact h.placed
  · rw [htree, hcopying]
    exact h.copying

theorem hole_idle (hidle : d.job.copying = none) : hole d = none := by
  unfold hole
  rw [hidle]
  rfl

/-- A directory that is made, or is there, is where it should be. -/
theorem madeDir (hsep : Separate t₀ sources dest) (h : Keeps t₀ sources dest kind d)
    (hidle : d.job.copying = none) (hkind : kind ≠ .delete) {it : Item}
    (hgoes : Goes sources dest it.src it.dst) (hdir : d.tree.node it.src = some .dir)
    (hm : MadeDir d it d') : Keeps t₀ sources dest kind d' ∧ d'.tree.node it.dst = some .dir := by
  have hdir₀ := h.node_src hgoes hdir
  cases hm with
  | delete hdelete => exact absurd (h.op.symm.trans hdelete) hkind
  | there _ hthere =>
      refine ⟨h, ?_⟩
      -- What is there is what has been put there.
      rcases h.placed _ _ hgoes with ⟨-, hnone | hsame | hhole⟩ | ⟨-, -, hsame, -⟩
      · exact absurd hnone hthere
      · exact hsame.trans hdir₀
      · rw [hole_idle hidle] at hhole
        cases hhole
      · exact hsame.trans hdir₀
  | made _ t hmake =>
      obtain ⟨hfree, -, hnode⟩ := FileTree.make_ok hmake
      have hne := hsep.src_ne_dst hgoes hgoes
      have hmadeDir : t.node it.dst = some .dir := (hnode it.dst).trans (if_pos rfl)
      have hsrc : t.node it.src = some .dir := ((hnode it.src).trans (if_neg hne)).trans hdir
      refine ⟨h.change hsep hgoes ⟨?_, ?_, fun _ => hmadeDir, ?_⟩ h.op ?_ rfl ?_, hmadeDir⟩
      · exact fun r _ hr => (hnode r).trans (if_neg hr)
      · exact fun r _ => Iff.rfl
      · exact .inl ⟨hsrc.trans hdir₀.symm, .inr (.inl (hmadeDir.trans hdir₀.symm))⟩
      · exact fun t ht => List.mem_cons.1 ht
      · intro c hc
        cases hidle.symm.trans hc

/-- Once a directory has been made, the mark of the removal of the one it is made from may stand. -/
theorem marked (hsep : Separate t₀ sources dest) (h : Keeps t₀ sources dest kind d)
    (hidle : d.job.copying = none) (hkind : kind ≠ .delete) {it : Item}
    (hgoes : Goes sources dest it.src it.dst) (hdir : d.tree.node it.src = some .dir) {m : Disk}
    (hm : MadeDir d it m) :
    Keeps t₀ sources dest kind m ∧
      ∀ j ∈ marks kind it ++ m.job.pending, Queued t₀ sources dest kind m.tree j := by
  obtain ⟨hkept, hmade⟩ := h.madeDir hsep hidle hkind hgoes hdir hm
  refine ⟨hkept, fun j hj => ?_⟩
  rcases List.mem_append.1 hj with hj | hj
  · obtain ⟨hcopy, rfl⟩ := mem_marks.1 hj
    refine ⟨it.dst, hgoes, ?_⟩
    rw [if_pos rfl]
    have hmove : kind = .move := by
      cases kind with
      | copy => exact absurd rfl hcopy
      | move => rfl
      | delete => exact absurd rfl hkind
    exact ⟨hmove, h.node_src hgoes hdir, hmade⟩
  · exact hkept.items j hj

/-- A thing has gone where it goes, and nothing is left of it where it was. -/
theorem away (hsep : Separate t₀ sources dest) (h : Keeps t₀ sources dest kind d)
    (hidle : d.job.copying = none) (hgoes : Goes sources dest p q) (hmove : kind = .move)
    (hothers : ∀ r, r ≠ p → r ≠ q → d'.tree.node r = d.tree.node r) (hgone : d'.tree.node p = none)
    (hthere : d'.tree.node q = t₀.node p) (hdir : d.tree.node q = some .dir → d'.tree.node q = some .dir)
    (hop : d'.job.kind = d.job.kind) (hidle' : d'.job.copying = none)
    (hpast : ∀ t ∈ d'.past, t = d'.tree ∨ t ∈ d.past) (hpending : d'.job.pending = d.job.pending) :
    Keeps t₀ sources dest kind d' := by
  have hholes : hole d = hole d' := (hole_idle hidle).trans (hole_idle hidle').symm
  have hnone : hole d' ≠ some q := by
    rw [hole_idle hidle']
    nofun
  have hchanged : Changed t₀ d.tree d'.tree kind (hole d) (hole d') p q :=
    ⟨hothers, fun r _ => by rw [hholes], hdir, .inr ⟨hmove, hgone, hthere, hnone⟩⟩
  refine h.change hsep hgoes hchanged (hop.trans h.op) hpast hpending ?_
  intro c hc
  cases hidle'.symm.trans hc

/-- A file has been created where it goes, and is to be copied there. -/
theorem begun (hsep : Separate t₀ sources dest) (h : Keeps t₀ sources dest kind d)
    (hidle : d.job.copying = none) (hgoes : Goes sources dest p q) {c : Bytes}
    (hfile : d.tree.node p = some (.file c)) (hmake : d.tree.make q (.file []) = .ok d'.tree)
    (hop : d'.job.kind = d.job.kind) (hcopying : d'.job.copying = some { src := p, dst := q })
    (hpast : ∀ t ∈ d'.past, t = d'.tree ∨ t ∈ d.past) (hpending : d'.job.pending = d.job.pending) :
    Keeps t₀ sources dest kind d' := by
  have hne := hsep.src_ne_dst hgoes hgoes
  obtain ⟨hfree, -, hnode⟩ := FileTree.make_ok hmake
  have hfile₀ := h.node_src hgoes hfile
  have hsrc : d'.tree.node p = some (.file c) := ((hnode p).trans (if_neg hne)).trans hfile
  have hdst : d'.tree.node q = some (.file []) := (hnode q).trans (if_pos rfl)
  have hhole : hole d' = some q := by
    unfold hole
    rw [hcopying]
    rfl
  refine h.change hsep hgoes
    ⟨?_, ?_, ?_, .inl ⟨hsrc.trans hfile₀.symm, .inr (.inr hhole)⟩⟩ (hop.trans h.op) hpast hpending ?_
  · exact fun r _ hr => (hnode r).trans (if_neg hr)
  · intro r hr
    rw [hole_idle hidle, hhole]
    exact ⟨nofun, fun heq => absurd (Option.some.inj heq).symm hr⟩
  · intro hdir
    rw [hfree] at hdir
    cases hdir
  · intro k hk
    cases hcopying.symm.trans hk
    exact ⟨rfl, rfl, c, hfile₀, hsrc, hdst⟩

theorem took (hsep : Separate t₀ sources dest) (h : Keeps t₀ sources dest kind d)
    (hidle : d.job.copying = none) (hkind : kind ≠ .delete) {it : Item}
    (hit : Queued t₀ sources dest kind d.tree it) (hstacked : Stacked (it :: d.job.pending))
    (ht : Took d it d') : Keeps t₀ sources dest kind d' := by
  cases ht with
  | failed p e => exact h.restack rfl rfl rfl rfl h.stacked h.items
  | removedDir hmark t hrmdir =>
      obtain ⟨q, hgoes, hqueued⟩ := hit
      rw [if_pos hmark] at hqueued
      obtain ⟨hmove, hdir₀, hdst⟩ := hqueued
      have hne := hsep.src_ne_dst hgoes hgoes
      obtain ⟨-, -, hnode⟩ := FileTree.rmdir_ok hrmdir
      rw [if_neg (by rw [h.op]; exact hkind)]
      have hstays : t.node q = some .dir := ((hnode q).trans (if_neg hne.symm)).trans hdst
      refine h.away hsep hidle hgoes hmove ?_ ((hnode it.src).trans (if_pos rfl))
        (hstays.trans hdir₀.symm) (fun _ => hstays) rfl hidle ?_ rfl
      · exact fun r hr _ => (hnode r).trans (if_neg hr)
      · exact fun t ht => List.mem_cons.1 ht
  | shut hmark hdir m hm e =>
      have hgoes := hit.goes hmark
      obtain ⟨hkept, hqueue⟩ := h.marked hsep hidle hkind hgoes hdir hm
      have hop : m.job.kind = kind := hkept.op
      refine hkept.restack rfl rfl rfl rfl ?_ ?_
      · show Stacked (marks m.job.kind it ++ m.job.pending)
        rw [hm.keeps.1]
        exact hstacked.walk hmark List.nodup_nil
      · show ∀ j ∈ marks m.job.kind it ++ m.job.pending, _
        rw [hop]
        exact hqueue
  | walked hmark hdir m hm names hnames =>
      have hgoes := hit.goes hmark
      obtain ⟨hkept, hqueue⟩ := h.marked hsep hidle hkind hgoes hdir hm
      have hop : m.job.kind = kind := hkept.op
      refine hkept.restack rfl rfl rfl rfl ?_ ?_
      · show Stacked (inside m.job.kind it names ++ (marks m.job.kind it ++ m.job.pending))
        rw [hm.keeps.1]
        exact hstacked.walk hmark (hnames.nodup_iff.2 (m.tree.nodup_children it.src))
      · show ∀ j ∈ inside m.job.kind it names ++ (marks m.job.kind it ++ m.job.pending), _
        rw [hop]
        intro j hj
        rcases List.mem_append.1 hj with hj | hj
        · obtain ⟨n, -, rfl⟩ := mem_inside.1 hj
          refine ⟨it.dst ++ [n], Separate.goes_append hgoes [n], ?_⟩
          rw [if_neg (by nofun), if_neg hkind]
        · exact hqueue j hj
  | unlinked hmark hdelete => exact absurd (h.op.symm.trans hdelete) hkind
  | renamed hmark hmove c hfile t hrename =>
      have hgoes := hit.goes hmark
      have hne := hsep.src_ne_dst hgoes hgoes
      have hmove : kind = .move := h.op.symm.trans hmove
      rw [if_neg hne.symm]
      obtain ⟨c', hfile', ⟨hsame, -⟩ | ⟨-, hnodir, -, hnode⟩⟩ := FileTree.rename_ok hrename
      · exact absurd hsame hne.symm
      cases hfile.symm.trans hfile'
      refine h.away hsep hidle hgoes hmove ?_ ((hnode it.src).trans ((if_neg hne).trans (if_pos rfl)))
        (((hnode it.dst).trans (if_pos rfl)).trans (h.node_src hgoes hfile).symm)
        (fun hdir => absurd hdir hnodir) rfl hidle ?_ rfl
      · exact fun r hsrc hdst => (hnode r).trans ((if_neg hdst).trans (if_neg hsrc))
      · exact fun t ht => List.mem_cons.1 ht
  | opened hmark _ c hfile t hmake =>
      exact h.begun hsep hidle (hit.goes hmark) hfile hmake rfl rfl (fun t ht => List.mem_cons.1 ht) rfl

theorem sliced (hsep : Separate t₀ sources dest) (h : Keeps t₀ sources dest kind d) {c : Copying}
    (hc : d.job.copying = some c) (hs : Sliced 0 d c d') : Keeps t₀ sources dest kind d' := by
  obtain ⟨hgoes, full, hfile₀, hsrc, hdst⟩ := h.copying c hc
  have hne := hsep.src_ne_dst hgoes hgoes
  have hhole : hole d = some c.dst := by
    unfold hole
    rw [hc]
    rfl
  -- A copy that has ended leaves nothing half done.
  have hholes : d'.job.copying = none → ∀ r, r ≠ c.dst → (hole d = some r ↔ hole d' = some r) := by
    intro hidle r hr
    rw [hhole, hole_idle hidle]
    exact ⟨fun heq => absurd (Option.some.inj heq).symm hr, nofun⟩
  cases hs with
  | appended data hdata =>
      rw [content_of_file hsrc] at hdata
      have hnode := fun q => FileTree.node_update (q := q) (f := (· ++ data)) hdst
      have hsrc' := ((hnode c.src).trans (if_neg hne)).trans hsrc
      refine h.change hsep hgoes ⟨?_, ?_, ?_, .inl ⟨hsrc'.trans hfile₀.symm, .inr (.inr rfl)⟩⟩ h.op ?_ rfl ?_
      · exact fun r _ hr => (hnode r).trans (if_neg hr)
      · rw [hhole]
        exact fun r _ => Iff.rfl
      · intro hdir
        cases hdst.symm.trans hdir
      · exact fun t ht => List.mem_cons.1 ht
      · intro k hk
        cases hk
        refine ⟨rfl, rfl, full, hfile₀, hsrc', (hnode c.dst).trans ((if_pos rfl).trans ?_)⟩
        rw [take_append_next hdata]
  | abandoned e =>
      obtain ⟨hjob, -⟩ := abandon_keeps hc e
      have hidle : (d.abandon e).job.copying = none := by rw [hjob]
      have hnode := fun q => node_abandon hc (e := e) hdst q
      have hsrc' := ((hnode c.src).trans (if_neg hne)).trans hsrc
      have hgone : (d.abandon e).tree.node c.dst = none := (hnode c.dst).trans (if_pos rfl)
      refine h.change hsep hgoes ⟨?_, hholes hidle, ?_, .inl ⟨hsrc'.trans hfile₀.symm, .inl hgone⟩⟩
        (by rw [hjob]; exact h.op) (past_abandon hc e) (by rw [hjob]) ?_
      · exact fun r _ hr => (hnode r).trans (if_neg hr)
      · intro hdir
        cases hdst.symm.trans hdir
      · intro k hk
        cases hidle.symm.trans hk
  | finished hend =>
      obtain ⟨hjob, -⟩ := finishCurrent_keeps hc 0
      have hidle : (d.finishCurrent 0).job.copying = none := by rw [hjob]
      have hnode := fun q => node_finishCurrent hc hsrc q
      rw [content_of_file hsrc] at hend
      -- It is whole, and its source may go.
      rw [List.take_of_length_le (List.drop_eq_nil_iff.1 hend)] at hdst
      have hwhole : (d.finishCurrent 0).tree.node c.dst = some (.file full) :=
        ((hnode c.dst).trans (if_neg fun heq => hne heq.2.symm)).trans hdst
      refine h.change hsep hgoes ⟨?_, hholes hidle, ?_, ?_⟩
        (by rw [hjob]; exact h.op) (past_finishCurrent hc) (by rw [hjob]) ?_
      · exact fun r hr _ => (hnode r).trans (if_neg fun heq => hr heq.2)
      · intro hdir
        cases hdst.symm.trans hdir
      · by_cases hmove : kind = .move
        · refine .inr ⟨hmove, ?_, hwhole.trans hfile₀.symm, by rw [hole_idle hidle]; nofun⟩
          exact (hnode c.src).trans (if_pos ⟨h.op.trans hmove, rfl⟩)
        · refine .inl ⟨?_, .inr (.inl (hwhole.trans hfile₀.symm))⟩
          have hkept := (hnode c.src).trans (if_neg fun heq => hmove (h.op.symm.trans heq.1))
          exact hkept.trans (hsrc.trans hfile₀.symm)
      · intro k hk
        cases hidle.symm.trans hk

end Keeps

end Keeps

end Sshos.Apps
