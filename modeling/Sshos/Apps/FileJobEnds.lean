import Sshos.Apps.FileJobStack
import Mathlib.Data.List.Perm.Subperm
import Mathlib.Data.Prod.Lex

/-!
# Sshos.Apps.FileJobEnds

**A copy or a move ends**, when it makes nothing at or below what it has still to walk. Then it
reads from the directories only what was there before it, and reads it once: what it takes is at
most twice that, the mark of a removal coming with each directory.

A directory that is copied into itself is walked without end: what has just been made in it is
read as if it were to be copied.
-/

namespace Sshos.Apps

open Sshos.Lib (Bytes FileTree Node run run_invariant run_append StepsMeet stepsMeet_iff)
open Disk

/-- The thing is there, and could be made where it goes. -/
def Makes (kind : FileOp) (t : Tree) (it : Item) : Prop :=
  ∃ nd, t.node it.src = some nd ∧ it.dst ≠ it.src ∧ t.node it.dst.dropLast = some .dir ∧
    (t.node it.dst = none ∨ kind = .move ∧ nd ≠ .dir ∧ t.node it.dst ≠ some .dir)

namespace Disk

/-- What is taken is made neither at nor below what is still to be walked. -/
def MakesAside (d : Disk) (_ : Nat × Answers) : Prop :=
  ∀ it, d.Takes it → Makes d.job.kind d.tree it →
    ∀ j ∈ d.job.pending, j.rmdirOnly = false → ¬ j.src <+: it.dst

/-- What a step reads from a directory was there in `t₀`, and the job has not made it. -/
def ReadsOriginal (t₀ : Tree) (d : Disk) (x : Nat × Answers) : Prop :=
  ∀ p ∈ (d.stepBy x).listed, p ∈ d.listed ∨
    t₀.node p ≠ none ∧ ∀ nd, (p, nd) ∉ (d.stepBy x).made

end Disk

section Ends

variable {t₀ : Tree} {sources : List Path}

/-- At and below a path there is nothing but what was there. -/
def Original (t₀ : Tree) (d : Disk) (x : Path) : Prop :=
  ∀ p, x <+: p → d.tree.node p ≠ none → t₀.node p ≠ none ∧ ∀ nd, (p, nd) ∉ d.made

/-- What is still to be walked is original and has not been read, if `todo` is to be treated; and
what has been read is original too. -/
structure Walks (t₀ : Tree) (sources : List Path) (d : Disk) (todo : List Item) : Prop where
  stacked : Stacked todo
  within : ∀ it ∈ todo, ∃ s ∈ sources, s <+: it.src
  original : ∀ it ∈ todo, it.rmdirOnly = false → Original t₀ d it.src
  unread : ∀ it ∈ todo, it.rmdirOnly = false → ∀ p ∈ d.listed, it.src <+: p → p = it.src
  nodup : d.listed.Nodup
  listed : ∀ p ∈ d.listed, t₀.node p ≠ none ∧ ∃ s ∈ sources, s <+: p ∧ p ≠ s

theorem Original.below {d : Disk} {x y : Path} (h : Original t₀ d x) (hxy : x <+: y) :
    Original t₀ d y := by
  intro p hp
  exact h p (hxy.trans hp)

/-- What is made elsewhere is not in the way. -/
theorem Original.of_made {d d' : Disk} {x q : Path} (h : Original t₀ d x) (hx : ¬ x <+: q)
    (hnode : ∀ p, p ≠ q → d.tree.node p = none → d'.tree.node p = none)
    (hmade : d'.made = d.made ∨ ∃ nd, d'.made = (q, nd) :: d.made) : Original t₀ d' x := by
  intro p hp hsome
  have hpq : p ≠ q := by
    rintro rfl
    exact hx hp
  obtain ⟨hsome₀, hnew⟩ := h p hp fun hnone => hsome (hnode p hpq hnone)
  refine ⟨hsome₀, fun nd hmem => ?_⟩
  rcases hmade with hmade | ⟨nd', hmade⟩
  · rw [hmade] at hmem
    exact hnew nd hmem
  · rw [hmade] at hmem
    rcases List.mem_cons.1 hmem with heq | hmem
    · exact hpq (congrArg Prod.fst heq)
    · exact hnew nd hmem

/-- Nor is what is removed. -/
theorem Original.of_removed {d d' : Disk} {x : Path} (h : Original t₀ d x)
    (hnode : ∀ p, d.tree.node p = none → d'.tree.node p = none) (hmade : d'.made = d.made) :
    Original t₀ d' x := by
  intro p hp hsome
  rw [hmade]
  exact h p hp fun hnone => hsome (hnode p hnone)

namespace Walks

variable {d d' : Disk} {it : Item} {todo : List Item}

theorem change (h : Walks t₀ sources d todo) (hlisted : d'.listed = d.listed)
    (horiginal : ∀ j ∈ todo, j.rmdirOnly = false → Original t₀ d' j.src) : Walks t₀ sources d' todo := by
  refine ⟨h.stacked, h.within, horiginal, ?_, ?_, ?_⟩
  all_goals rw [hlisted]
  · exact h.unread
  · exact h.nodup
  · exact h.listed

theorem tail (h : Walks t₀ sources d (it :: todo)) : Walks t₀ sources d todo where
  stacked := (List.pairwise_cons.1 h.stacked).2
  within := fun j hj => h.within j (List.mem_cons_of_mem it hj)
  original := fun j hj => h.original j (List.mem_cons_of_mem it hj)
  unread := fun j hj => h.unread j (List.mem_cons_of_mem it hj)
  nodup := h.nodup
  listed := h.listed

/-- A directory leaves its mark on the stack. -/
theorem marked (h : Walks t₀ sources d (it :: todo)) (hmark : it.rmdirOnly = false) (kind : FileOp) :
    Walks t₀ sources d (marks kind it ++ todo) := by
  have hall : ∀ {P : Item → Prop}, (∀ j ∈ marks kind it, P j) → (∀ j ∈ todo, P j) →
      ∀ j ∈ marks kind it ++ todo, P j := by
    intro P hmarks htodo j hj
    exact (List.mem_append.1 hj).elim (hmarks j) (htodo j)
  have hmarks : ∀ {P : Item → Prop}, ∀ j ∈ marks kind it, j.rmdirOnly = false → P j := by
    intro P j hj hmark
    obtain ⟨-, rfl⟩ := mem_marks.1 hj
    cases hmark
  refine ⟨h.stacked.walk hmark List.nodup_nil, hall ?_ h.tail.within, hall hmarks h.tail.original,
    hall hmarks h.tail.unread, h.nodup, h.listed⟩
  intro j hj
  obtain ⟨-, rfl⟩ := mem_marks.1 hj
  exact h.within it (List.mem_cons_self ..)

/-- A directory is made out of the way. -/
theorem made (h : Walks t₀ sources d (it :: todo)) (hdir : d.tree.node it.src = some .dir)
    (haside : Makes d.job.kind d.tree it → ∀ j ∈ it :: todo, j.rmdirOnly = false → ¬ j.src <+: it.dst)
    (hm : MadeDir d it d') : Walks t₀ sources d' (it :: todo) := by
  cases hm with
  | delete => exact h
  | there => exact h
  | made _ t hmake =>
      obtain ⟨hfree, hparent, hnode⟩ := FileTree.make_ok hmake
      have hne : it.dst ≠ it.src := by
        intro heq
        rw [heq, hdir] at hfree
        cases hfree
      refine h.change rfl fun j hj hmark => ?_
      refine (h.original j hj hmark).of_made
        (haside ⟨.dir, hdir, hne, hparent, .inl hfree⟩ j hj hmark) ?_ (.inr ⟨_, rfl⟩)
      exact fun p hp hnone => ((hnode p).trans (if_neg hp)).trans hnone

/-- What is in a directory is read from it once, and takes its place. -/
theorem walked (h : Walks t₀ sources d (it :: d.job.pending)) (hmark : it.rmdirOnly = false)
    {names : List Bytes} (hnames : names.Perm (d.tree.children it.src)) :
    Walks t₀ sources (d.walked it names) (d.walked it names).job.pending ∧
    ∀ p ∈ (d.walked it names).listed, p ∈ d.listed ∨ t₀.node p ≠ none ∧ ∀ nd, (p, nd) ∉ d.made := by
  have hmarked := h.marked hmark d.job.kind
  have hit := h.original it (List.mem_cons_self ..) hmark
  have hunread := h.unread it (List.mem_cons_self ..) hmark
  obtain ⟨s, hs, hsource⟩ := h.within it (List.mem_cons_self ..)
  have hnodup : names.Nodup := hnames.nodup_iff.2 (d.tree.nodup_children it.src)
  have hclear := (List.pairwise_cons.1 h.stacked).1
  have hread : ∀ n ∈ names, t₀.node (it.src ++ [n]) ≠ none ∧ ∀ nd, (it.src ++ [n], nd) ∉ d.made := by
    intro n hn
    rw [hnames.mem_iff, FileTree.mem_children] at hn
    exact hit _ (List.prefix_append _ _) hn
  have hnotListed : ∀ n, it.src ++ [n] ∉ d.listed := by
    intro n hn
    exact absurd (hunread _ hn (List.prefix_append _ _)) (by simp)
  have hall : ∀ {P : Item → Prop},
      (∀ n ∈ names, P { src := it.src ++ [n], dst := if d.job.kind = .delete then [] else it.dst ++ [n] }) →
      (∀ j ∈ marks d.job.kind it ++ d.job.pending, P j) → ∀ j ∈ (d.walked it names).job.pending, P j := by
    intro P hinside hrest j hj
    rcases List.mem_append.1 hj with hj | hj
    · obtain ⟨n, hn, rfl⟩ := mem_inside.1 hj
      exact hinside n hn
    · exact hrest j hj
  have hlisted : ∀ {P : Path → Prop}, (∀ n ∈ names, P (it.src ++ [n])) → (∀ p ∈ d.listed, P p) →
      ∀ p ∈ (d.walked it names).listed, P p := by
    intro P hnew hold p hp
    rcases List.mem_append.1 hp with hp | hp
    · obtain ⟨n, hn, rfl⟩ := List.mem_map.1 hp
      exact hnew n hn
    · exact hold p hp
  refine ⟨⟨h.stacked.walk hmark hnodup, hall ?_ hmarked.within, hall ?_ hmarked.original,
    hall ?_ ?_, ?_, hlisted ?_ h.listed⟩, hlisted ?_ fun p hp => .inl hp⟩
  · exact fun n _ => ⟨s, hs, hsource.trans (List.prefix_append _ _)⟩
  · exact fun n _ _ => hit.below (List.prefix_append _ _)
  · -- Nothing has been read below what has just been read.
    refine fun n _ _ => hlisted (fun m _ hpre => ?_) fun p hp hpre => ?_
    · refine (hpre.eq_of_length ?_).symm
      rw [List.length_append, List.length_append]
      rfl
    · have hsame := hunread p hp ((List.prefix_append _ _).trans hpre)
      rw [hsame] at hpre
      exact absurd hpre not_concat_prefix
  · refine fun j hj hjmark => hlisted (fun n _ hpre => ?_) (hmarked.unread j hj hjmark)
    rcases List.prefix_concat_iff.1 hpre with heq | hpre
    · exact heq.symm
    · have hj : j ∈ d.job.pending := by
        rcases List.mem_append.1 hj with hj | hj
        · obtain ⟨-, rfl⟩ := mem_marks.1 hj
          cases hjmark
        · exact hj
      exact absurd hpre ((hclear j hj).2 hjmark)
  · refine List.nodup_append.2 ⟨hnodup.map fun n m heq => ?_, h.nodup, ?_⟩
    · exact (List.cons.inj (List.append_cancel_left heq)).1
    · rintro p hp q hq rfl
      obtain ⟨n, -, rfl⟩ := List.mem_map.1 hp
      exact hnotListed n hq
  · refine fun n hn => ⟨(hread n hn).1, s, hs, hsource.trans (List.prefix_append _ _), ?_⟩
    rintro rfl
    exact not_concat_prefix hsource
  · exact fun n hn => .inr (hread n hn)

theorem took (hkind : d.job.kind ≠ .delete)
    (haside : it.rmdirOnly = false → Makes d.job.kind d.tree it →
      ∀ j ∈ it :: d.job.pending, j.rmdirOnly = false → ¬ j.src <+: it.dst)
    (h : Walks t₀ sources d (it :: d.job.pending)) (ht : Took d it d') :
    Walks t₀ sources d' d'.job.pending ∧
    ∀ p ∈ d'.listed, p ∈ d.listed ∨ t₀.node p ≠ none ∧ ∀ nd, (p, nd) ∉ d'.made := by
  have htail := h.tail
  -- A thing that is made is made out of the way of the others.
  have hmakes : it.rmdirOnly = false → Makes d.job.kind d.tree it → d'.listed = d.listed →
      (∀ p, p ≠ it.dst → d.tree.node p = none → d'.tree.node p = none) →
      (∃ nd, d'.made = (it.dst, nd) :: d.made) → Walks t₀ sources d' d.job.pending := by
    intro hmark hmakes hlisted hnode hmade
    refine htail.change hlisted fun j hj hjmark => ?_
    exact (htail.original j hj hjmark).of_made
      (haside hmark hmakes j (List.mem_cons_of_mem it hj) hjmark) hnode (.inr hmade)
  have hremoves : d'.listed = d.listed → (∀ p, d.tree.node p = none → d'.tree.node p = none) →
      d'.made = d.made → Walks t₀ sources d' d.job.pending := by
    intro hlisted hnode hmade
    exact htail.change hlisted fun j hj hjmark => (htail.original j hj hjmark).of_removed hnode hmade
  cases ht with
  | failed p e => exact ⟨hremoves rfl (fun _ hnone => hnone) rfl, fun p hp => .inl hp⟩
  | removedDir hmark t hrmdir =>
      obtain ⟨-, -, hnode⟩ := FileTree.rmdir_ok hrmdir
      rw [if_neg hkind] at hremoves ⊢
      refine ⟨hremoves rfl (fun p hnone => (hnode p).trans ?_) rfl, fun p hp => .inl hp⟩
      split
      · rfl
      · exact hnone
  | shut hmark hdir m hm e =>
      obtain ⟨hjob, hlisted, -⟩ := hm.keeps
      have hmade := h.made hdir (haside hmark) hm
      refine ⟨?_, fun p hp => .inl (hlisted ▸ hp)⟩
      have hmarked := hmade.marked hmark m.job.kind
      rw [← hjob] at hmarked
      exact hmarked.change rfl hmarked.original
  | walked hmark hdir m hm names hnames =>
      obtain ⟨hjob, hlisted, -⟩ := hm.keeps
      have hmade := h.made hdir (haside hmark) hm
      rw [← hjob] at hmade
      obtain ⟨hwalked, hread⟩ := hmade.walked hmark hnames
      rw [hlisted] at hread
      exact ⟨hwalked, hread⟩
  | unlinked hmark hdelete => exact absurd hdelete hkind
  | renamed hmark hmove c hfile t hrename =>
      obtain ⟨c', hfile', ⟨hsame, rfl⟩ | ⟨hne, hnodir, hparent, hnode⟩⟩ := FileTree.rename_ok hrename
      · rw [if_pos hsame] at hremoves ⊢
        exact ⟨hremoves rfl (fun _ hnone => hnone) rfl, fun p hp => .inl hp⟩
      · rw [if_neg hne] at hmakes ⊢
        have hwould : Makes d.job.kind d.tree it :=
          ⟨.file c, hfile, hne, hparent, .inr ⟨hmove, nofun, hnodir⟩⟩
        refine ⟨hmakes hmark hwould rfl (fun p hp hnone => ?_) ⟨_, rfl⟩, fun p hp => .inl hp⟩
        refine ((hnode p).trans (if_neg hp)).trans ?_
        split
        · rfl
        · exact hnone
  | opened hmark _ c hfile t hmake =>
      obtain ⟨hfree, hparent, hnode⟩ := FileTree.make_ok hmake
      have hne : it.dst ≠ it.src := by
        intro heq
        rw [heq, hfile] at hfree
        cases hfree
      have hwould : Makes d.job.kind d.tree it := ⟨.file c, hfile, hne, hparent, .inl hfree⟩
      refine ⟨hmakes hmark hwould rfl (fun p hp hnone => ?_) ⟨_, rfl⟩, fun p hp => .inl hp⟩
      exact ((hnode p).trans (if_neg hp)).trans hnone

theorem sliced {loses : Nat} {c : Copying} (h : Walks t₀ sources d d.job.pending)
    (hc : d.job.copying = some c) (hs : Sliced loses d c d') :
    Walks t₀ sources d' d'.job.pending := by
  obtain ⟨-, -, hpending, hmade, hlisted, -⟩ := sliced_keeps hc hs
  rw [hpending]
  exact h.change hlisted fun j hj hjmark =>
    (h.original j hj hjmark).of_removed (fun p hnone => sliced_shrinks hc hs hnone) hmade

end Walks

/-! ### How many things are taken -/

/-- How many things are taken for one on the stack, at most: itself and its mark. -/
def weight (it : Item) : Nat := if it.rmdirOnly then 1 else 2

def weigh (todo : List Item) : Nat := (todo.map weight).sum

@[simp] theorem weigh_cons (it : Item) (todo : List Item) : weigh (it :: todo) = weight it + weigh todo := by
  simp [weigh]

@[simp] theorem weigh_append (xs ys : List Item) : weigh (xs ++ ys) = weigh xs + weigh ys := by
  simp [weigh]

theorem weigh_marks (kind : FileOp) (it : Item) : weigh (marks kind it) ≤ 1 := by
  unfold marks
  split
  · exact Nat.zero_le 1
  · exact Nat.le_refl 1

theorem weigh_walked {todo : List Item} (h : ∀ it ∈ todo, it.rmdirOnly = false) :
    weigh todo = 2 * todo.length := by
  have htwo : ∀ it ∈ todo, weight it = 2 := by
    intro it hit
    rw [weight, h it hit]
    rfl
  rw [weigh, List.map_congr_left htwo, List.map_const', List.sum_replicate_nat, Nat.mul_comm]

theorem weigh_inside (kind : FileOp) (it : Item) (names : List Bytes) :
    weigh (inside kind it names) = 2 * names.length := by
  rw [weigh_walked]
  · unfold inside
    rw [List.length_reverse, List.length_map]
  · intro j hj
    obtain ⟨n, -, rfl⟩ := mem_inside.1 hj
    rfl

/-- What is taken leaves less on the stack, but for what has been read. -/
theorem took_weigh {d d' : Disk} {it : Item} (ht : Took d it d') :
    d'.takes = d.takes ∧
    weigh d'.job.pending + 2 * d.listed.length + 1 ≤
      weigh d.job.pending + weight it + 2 * d'.listed.length := by
  have hweight : 1 ≤ weight it := by
    unfold weight
    split
    · exact Nat.le_refl 1
    · exact Nat.le_succ 1
  have hsame : weigh d.job.pending + 2 * d.listed.length + 1 ≤
      weigh d.job.pending + weight it + 2 * d.listed.length := by
    omega
  cases ht with
  | failed => exact ⟨rfl, hsame⟩
  | removedDir =>
      split
      all_goals exact ⟨rfl, hsame⟩
  | shut hmark _ m hm =>
      obtain ⟨hjob, hlisted, htakes⟩ := hm.keeps
      refine ⟨htakes, ?_⟩
      show weigh (marks m.job.kind it ++ m.job.pending) + _ + 1 ≤ _ + _ + 2 * m.listed.length
      have hmarks := weigh_marks m.job.kind it
      have htwo : weight it = 2 := by rw [weight, hmark]; rfl
      rw [weigh_append, hlisted, hjob] at *
      omega
  | walked hmark _ m hm names =>
      obtain ⟨hjob, hlisted, htakes⟩ := hm.keeps
      refine ⟨htakes, ?_⟩
      show weigh (inside m.job.kind it names ++ (marks m.job.kind it ++ m.job.pending)) + _ + 1 ≤
        _ + _ + 2 * (names.map (it.src ++ [·]) ++ m.listed).length
      have hmarks := weigh_marks m.job.kind it
      have htwo : weight it = 2 := by rw [weight, hmark]; rfl
      rw [weigh_append, weigh_append, weigh_inside, List.length_append, List.length_map, hlisted,
        hjob] at *
      omega
  | unlinked => exact ⟨rfl, hsame⟩
  | renamed =>
      split
      all_goals exact ⟨rfl, hsame⟩
  | opened => exact ⟨rfl, hsame⟩

theorem took_copying {d d' : Disk} {it : Item} (hidle : d.job.copying = none) (ht : Took d it d') :
    ∀ c, d'.job.copying = some c → c.src ≠ c.dst := by
  have hnot : ∀ c, d.job.copying = some c → c.src ≠ c.dst := by
    intro c hc
    cases hidle.symm.trans hc
  cases ht with
  | failed => exact hnot
  | removedDir =>
      split
      all_goals exact hnot
  | shut _ _ m hm =>
      intro c hc
      exact hnot c ((congrArg FileJob.copying hm.keeps.1).symm.trans hc)
  | walked _ _ m hm =>
      intro c hc
      exact hnot c ((congrArg FileJob.copying hm.keeps.1).symm.trans hc)
  | unlinked => exact hnot
  | renamed =>
      split
      all_goals exact hnot
  | opened _ _ c hfile t hmake =>
      intro k hk heq
      cases hk
      have hfree := (FileTree.make_ok hmake).1
      rw [← show it.src = it.dst from heq, hfile] at hfree
      cases hfree

theorem sliced_apart {d d' : Disk} {loses : Nat} {c : Copying} (hc : d.job.copying = some c)
    (hapart : c.src ≠ c.dst) (hs : Sliced loses d c d') :
    ∀ k, d'.job.copying = some k → k.src ≠ k.dst := by
  cases hs with
  | appended =>
      intro k hk
      cases hk
      exact hapart
  | abandoned e =>
      rw [(abandon_keeps hc e).1]
      nofun
  | finished =>
      rw [(finishCurrent_keeps hc loses).1]
      nofun

/-- What holds of a job on its way to the end. -/
structure Ending (t₀ : Tree) (sources : List Path) (d : Disk) : Prop where
  op : d.job.kind ≠ .delete
  walks : Walks t₀ sources d d.job.pending
  count : d.takes + weigh d.job.pending ≤
    2 * (sources.length + d.listed.length) + if d.job.active then 0 else 1
  apart : ∀ c, d.job.copying = some c → c.src ≠ c.dst

namespace Ending

variable {d d' : Disk}

theorem sliced {loses : Nat} {c : Copying} (h : Ending t₀ sources d) (hc : d.job.copying = some c)
    (hs : Sliced loses d c d') : Ending t₀ sources d' := by
  obtain ⟨hactive, hop, hpending, -, hlisted, htakes⟩ := sliced_keeps hc hs
  refine ⟨by rw [hop]; exact h.op, h.walks.sliced hc hs, ?_, sliced_apart hc (h.apart c hc) hs⟩
  rw [hactive, hpending, hlisted, htakes]
  exact h.count

theorem start {place dest : Path} {names : List Bytes} (hnames : names.Nodup) {kind : FileOp}
    (hkind : kind ≠ .delete) :
    Ending t₀ (names.map fun n => place ++ [n])
      (({ tree := t₀ } : Disk).start (names.map fun n => place ++ [n]) dest kind) := by
  refine ⟨hkind, ⟨?_, ?_, fun _ _ _ p _ hp => ⟨hp, fun _ => nofun⟩, fun _ _ _ => nofun, .nil, nofun⟩, ?_, nofun⟩
  · show Stacked ((names.map fun n => place ++ [n]).map _)
    rw [Stacked, List.pairwise_map, List.pairwise_map]
    refine hnames.imp fun {n m} hne => ?_
    exact ⟨fun _ => not_concat_prefix_concat hne, fun _ => not_concat_prefix_concat hne.symm⟩
  · intro it hit
    obtain ⟨s, hs, rfl⟩ := List.mem_map.1 hit
    exact ⟨s, hs, List.prefix_refl s⟩
  · show 0 + weigh ((names.map fun n => place ++ [n]).map _) ≤ _
    rw [weigh_walked, List.length_map, Nat.zero_add]
    · exact Nat.le_add_right _ _
    · intro j hj
      obtain ⟨s, -, rfl⟩ := List.mem_map.1 hj
      rfl

/-- A step goes on towards the end, and reads only what was there. -/
theorem step (x : Nat × Answers) (h : Ending t₀ sources d) (haside : d.MakesAside x) :
    Ending t₀ sources (d.stepBy x) ∧ d.ReadsOriginal t₀ x := by
  refine step_rule (P := fun e => Ending t₀ sources e ∧ ∀ p ∈ e.listed, p ∈ d.listed ∨
    t₀.node p ≠ none ∧ ∀ nd, (p, nd) ∉ e.made) ⟨h, fun p hp => .inl hp⟩ ?_ ?_ ?_
  · intro it rest d' hactive hidle hpending ht
    have hwalks := h.walks
    rw [hpending] at hwalks
    have haside' : it.rmdirOnly = false → Makes d.job.kind d.tree it →
        ∀ j ∈ it :: rest, j.rmdirOnly = false → ¬ j.src <+: it.dst := by
      intro hmark hmakes
      rw [← hpending]
      exact haside it ⟨hactive, hidle, hmark, rest, hpending⟩ hmakes
    have hpopped : Walks t₀ sources (d.pop rest) (it :: rest) := hwalks.change rfl hwalks.original
    obtain ⟨hwalks', hread⟩ := Walks.took (d := d.pop rest) h.op haside' hpopped ht
    refine ⟨⟨?_, hwalks', ?_, took_copying (d := d.pop rest) hidle ht⟩, hread⟩
    · rw [(took_keeps ht).2]
      exact h.op
    · obtain ⟨htakes, hweigh⟩ := took_weigh ht
      have hcount := h.count
      have hstill : d'.job.active = true := (took_keeps ht).1.trans hactive
      rw [hpending, weigh_cons, hactive] at hcount
      rw [hstill, htakes]
      have hpop : (d.pop rest).takes = d.takes + 1 := rfl
      have hrest : weigh (d.pop rest).job.pending = weigh rest := rfl
      have hlisted : (d.pop rest).listed = d.listed := rfl
      rw [hrest, hlisted] at hweigh
      rw [hpop]
      simp only [if_true] at hcount ⊢
      omega
  · intro hactive hidle hpending
    refine ⟨⟨h.op, h.walks.change rfl h.walks.original, ?_, h.apart⟩, fun p hp => .inl hp⟩
    have hcount := h.count
    rw [hactive] at hcount
    simp only [if_true] at hcount
    show d.takes + 1 + weigh d.job.pending ≤ 2 * (sources.length + d.listed.length) + 1
    omega
  · rintro d d' c hc hs ⟨hending, hread⟩
    obtain ⟨-, -, -, hmade, hlisted, -⟩ := sliced_keeps hc hs
    rw [hmade, hlisted]
    exact ⟨hending.sliced hc hs, hread⟩

end Ending

/-! ### Where it leads -/

/-- What is left of the file that is copied, and its end. -/
def left (d : Disk) : Nat :=
  match d.job.copying with
  | none => 0
  | some c => (d.content c.src).length - c.offset + 1

theorem left_idle {d : Disk} (hidle : d.job.copying = none) : left d = 0 := by
  unfold left
  rw [hidle]

theorem left_append {d : Disk} {c : Copying} {data : Bytes} (hc : d.job.copying = some c)
    (hapart : c.src ≠ c.dst) (hdata : data <+: (d.content c.src).drop c.offset) :
    left (d.append c data) + data.length = left d := by
  have hlength := hdata.length_le
  rw [List.length_drop] at hlength
  have hcontent : (d.append c data).content c.src = d.content c.src := by
    unfold content
    rw [show (d.append c data).tree.node c.src = d.tree.node c.src from FileTree.node_update_ne hapart]
  unfold left
  rw [hc]
  show ((d.append c data).content c.src).length - (c.offset + data.length) + 1 + data.length = _
  rw [hcontent]
  simp only
  omega

theorem left_sliced {d d' : Disk} {loses : Nat} {c : Copying} (hc : d.job.copying = some c)
    (hapart : c.src ≠ c.dst) (hs : Sliced loses d c d') : left d' ≤ left d := by
  cases hs with
  | appended data hdata => exact Nat.le.intro (left_append hc hapart hdata)
  | abandoned e =>
      rw [left_idle (by rw [(abandon_keeps hc e).1])]
      exact Nat.zero_le _
  | finished =>
      rw [left_idle (by rw [(finishCurrent_keeps hc loses).1])]
      exact Nat.zero_le _

/-- A slice that may copy something leaves less to copy. -/
theorem left_copySlice {d : Disk} {c : Copying} (hc : d.job.copying = some c) (hapart : c.src ≠ c.dst)
    {loses budget : Nat} (hbudget : 0 < budget) (chunks : List Chunk) :
    left (copySlice loses budget budget chunks d) < left d := by
  have hpos : 0 < left d := by
    unfold left
    rw [hc]
    exact Nat.succ_pos _
  have hidle : ∀ {e : Disk}, e.job.copying = none → left e < left d := by
    intro e he
    rw [left_idle he]
    exact hpos
  obtain ⟨fuel, rfl⟩ := Nat.exists_eq_succ_of_ne_zero hbudget.ne'
  unfold copySlice
  rw [hc]
  simp only [Nat.succ_ne_zero, if_false]
  split
  next => exact hidle (by rw [(abandon_keeps hc _).1])
  next =>
  split
  next => exact hidle (by rw [(finishCurrent_keeps hc loses).1])
  next hdata =>
  split
  next => exact hidle (by rw [(abandon_keeps rfl _).1])
  next =>
    have hpre := List.take_prefix (min (min kChunk (fuel + 1)) (max 1 (chunks.headD {}).size))
      ((d.content c.src).drop c.offset)
    generalize List.take _ _ = data at hdata hpre ⊢
    have happend := left_append hc hapart hpre
    have hlength := List.length_pos_iff.2 hdata
    -- The rest of the slice does not go back.
    have hrest : left (copySlice loses fuel (fuel + 1 - data.length) chunks.tail (d.append c data)) ≤
        left (d.append c data) := by
      refine (copySlice_rule (P := fun e => left e ≤ left (d.append c data) ∧
        ∀ k, e.job.copying = some k → k.src ≠ k.dst) ?_ fuel ⟨Nat.le_refl _, ?_⟩).1
      · intro e e' k hk hs h
        exact ⟨(left_sliced hk (h.2 k hk) hs).trans h.1, sliced_apart hk (h.2 k hk) hs⟩
      · intro k hk
        cases hk
        exact hapart
    exact Nat.lt_of_le_of_lt hrest (by omega)

/-- A step takes a thing, or leaves less to copy, or is the last. -/
theorem step_progress {d : Disk} {x : Nat × Answers} (hbudget : 0 < x.1)
    (hapart : ∀ c, d.job.copying = some c → c.src ≠ c.dst) (hactive : ¬ d.job.active = false) :
    (d.stepBy x).job.active = false ∨ d.takes < (d.stepBy x).takes ∨
      (d.stepBy x).takes = d.takes ∧ left (d.stepBy x) < left d := by
  have hactive : d.job.active = true := by simpa using hactive
  have htakes : ∀ {e : Disk} {left : Nat} {chunks : List Chunk},
      (copySlice x.2.loses x.1 left chunks e).takes = e.takes := by
    intro e left chunks
    refine copySlice_rule (P := fun e' => e'.takes = e.takes) ?_ x.1 rfl
    intro e' e'' c hc hs h
    exact (sliced_keeps hc hs).2.2.2.2.2.trans h
  unfold stepBy step
  rw [if_pos hactive]
  cases hc : d.job.copying with
  | some c => exact .inr (.inr ⟨htakes, left_copySlice hc (hapart c hc) hbudget _⟩)
  | none =>
      cases hpending : d.job.pending with
      | nil => exact .inl rfl
      | cons it rest =>
          right
          left
          simp only
          rw [htakes, (took_weigh (took_takeNext hpending)).1]
          exact Nat.lt_succ_self _

/-- What there was below the sources. -/
def below (t : Tree) (sources : List Path) : List Path :=
  t.entries.keys.filter fun p => ∃ s ∈ sources, s <+: p ∧ p ≠ s

theorem length_listed_le {d : Disk} (h : Ending t₀ sources d) :
    d.listed.length ≤ (below t₀ sources).length := by
  refine (h.walks.nodup.subperm fun p hp => ?_).length_le
  obtain ⟨hsome, s, hs, hpre, hne⟩ := h.walks.listed p hp
  refine List.mem_filter.2 ⟨?_, decide_eq_true ⟨s, hs, hpre, hne⟩⟩
  have hroot : p ≠ [] := by
    rintro rfl
    exact hne (List.prefix_nil.1 hpre).symm
  exact (List.mem_cons.1 (FileTree.mem_keys_of_node hsome)).resolve_left hroot

/-- **A copy or a move ends**, when it makes nothing at or below what it has still to walk. The
sources are things of one directory, as they are when files are pasted or dropped. However the
system answers, what is taken is at most twice what there was at and below the sources, and once
more to see that there is nothing left; and what is read from the directories was there before. -/
theorem run_ends (t : Tree) (place dest : Path) (names : List Bytes) (hnames : names.Nodup)
    (kind : FileOp) (hkind : kind ≠ .delete) (steps : Nat → Nat × Answers) (hbudget : ∀ n, 0 < (steps n).1) :
    let sources := names.map fun n => place ++ [n]
    let d₀ := ({ tree := t } : Disk).start sources dest kind
    let after := fun n => run stepBy d₀ ((List.range n).map steps)
    (∀ n, StepsMeet stepBy MakesAside d₀ ((List.range n).map steps)) →
    (∃ n, (after n).job.active = false) ∧
    (∀ n, (after n).takes ≤ 2 * (sources.length + (below t sources).length) + 1) ∧
    ∀ n, StepsMeet stepBy (ReadsOriginal t) d₀ ((List.range n).map steps) := by
  intro sources d₀ after haside
  have hstart : Ending t sources d₀ := .start hnames hkind
  have hending : ∀ n, Ending t sources (after n) := fun n =>
    run_invariant (fun d x h hx => (h.step x hx).1) hstart (haside n)
  have htakes : ∀ n, (after n).takes ≤ 2 * (sources.length + (below t sources).length) + 1 := by
    intro n
    have hcount := (hending n).count
    have hlisted := length_listed_le (hending n)
    have hone : (if (after n).job.active then 0 else 1) ≤ 1 := by
      split
      · exact Nat.zero_le 1
      · exact Nat.le_refl 1
    omega
  refine ⟨?_, htakes, fun n => ?_⟩
  · refine @Lib.exists_done Disk (·.job.active = false) (·.takes) left _ after htakes fun n hactive => ?_
    rw [show after (n + 1) = (after n).stepBy (steps n) from Lib.run_range_succ ..]
    exact step_progress (hbudget n) (hending n).apart hactive
  · rw [stepsMeet_iff]
    rintro before x ⟨rest, hsteps⟩
    have hmeets := haside n
    rw [← hsteps] at hmeets
    have hx := stepsMeet_iff.1 hmeets before x ⟨rest, rfl⟩
    rw [List.append_assoc] at hmeets
    exact ((run_invariant (fun d x h hx => (h.step x hx).1) hstart hmeets.of_append).step x hx).2

/-! ### Into another place, and into itself -/

/-- What is on the stack comes from a source and goes to a target. -/
structure Aims (sources : List Path) (dest : Path) (d : Disk) : Prop where
  op : d.job.kind ≠ .delete
  srcs : ∀ it ∈ d.job.pending, ∃ s ∈ sources, s <+: it.src
  dsts : ∀ it ∈ d.job.pending, it.rmdirOnly = false → ∃ s ∈ sources, target dest s <+: it.dst

theorem Aims.step {d : Disk} {dest : Path} (h : Aims sources dest d) (x : Nat × Answers) :
    Aims sources dest (d.stepBy x) := by
  refine step_rule h ?_ (fun _ _ _ => ⟨h.op, h.srcs, h.dsts⟩) ?_
  · intro it rest d' _ _ hpending ht
    have hop : d'.job.kind ≠ .delete := by
      rw [(took_keeps ht).2]
      exact h.op
    have hrest : ∀ j ∈ (d.pop rest).job.pending, j ∈ d.job.pending := fun j hj =>
      hpending ▸ List.mem_cons_of_mem it hj
    have hit : it ∈ d.job.pending := hpending ▸ List.mem_cons_self ..
    obtain ⟨s, hs, hsrc⟩ := h.srcs it hit
    refine ⟨hop, fun j hj => ?_, fun j hj hmark => ?_⟩
    · rcases took_pending ht hj with hold | rfl | ⟨-, n, rfl⟩
      · exact h.srcs j (hrest j hold)
      · exact ⟨s, hs, hsrc⟩
      · exact ⟨s, hs, hsrc.trans (List.prefix_append _ _)⟩
    · rcases took_pending ht hj with hold | rfl | ⟨hmark', n, rfl⟩
      · exact h.dsts j (hrest j hold) hmark
      · cases hmark
      · obtain ⟨s', hs', hdst⟩ := h.dsts it hit hmark'
        refine ⟨s', hs', ?_⟩
        show target dest s' <+: if d.job.kind = .delete then [] else it.dst ++ [n]
        rw [if_neg h.op]
        exact hdst.trans (List.prefix_append _ _)
  · intro d d' c hc hs h
    obtain ⟨-, hop, hpending, -⟩ := sliced_keeps hc hs
    exact ⟨by rw [hop]; exact h.op, by rw [hpending]; exact h.srcs, by rw [hpending]; exact h.dsts⟩

/-- **Into another place**: when the targets have nothing to do with the sources, nothing is made
where there is still something to walk. -/
theorem makesAside_of_outside (d : Disk) {dest : Path} {kind : FileOp} (hkind : kind ≠ .delete)
    (houtside : ∀ s ∈ sources, ∀ s' ∈ sources, ¬ s <+: target dest s' ∧ ¬ target dest s' <+: s)
    (steps : List (Nat × Answers)) : StepsMeet stepBy MakesAside (d.start sources dest kind) steps := by
  have hstart : Aims sources dest (d.start sources dest kind) := by
    refine ⟨hkind, fun it hit => ?_, fun it hit _ => ?_⟩
    all_goals obtain ⟨s, hs, rfl⟩ := List.mem_map.1 hit
    · exact ⟨s, hs, List.prefix_refl s⟩
    · rw [if_neg hkind]
      exact ⟨s, hs, List.prefix_refl _⟩
  rw [stepsMeet_iff]
  rintro before x -
  have haims : Aims sources dest (run stepBy (d.start sources dest kind) before) :=
    @Lib.run_preserves _ _ stepBy (Aims sources dest) (fun _ x h => h.step x) _ hstart before
  rintro it ⟨-, -, hmark, rest, hpending⟩ - j hj - hpre
  obtain ⟨s, hs, hsrc⟩ := haims.srcs j hj
  obtain ⟨s', hs', hdst⟩ := haims.dsts it (hpending ▸ List.mem_cons_self ..) hmark
  rcases List.prefix_or_prefix_of_prefix (hsrc.trans hpre) hdst with habove | hbelow
  · exact (houtside s hs s' hs').1 habove
  · exact (houtside s hs s' hs').2 hbelow

/-- A directory is copied into another. -/
theorem run_ends_copied :
    let t : Tree := .ofEntries [([[1]], .dir), ([[1], [3]], .file [65]), ([[2]], .dir)]
    ∃ n, (run stepBy (({ tree := t } : Disk).start [[[1]]] [[2]] .copy)
      ((List.range n).map fun _ => (1, {}))).job.active = false := by
  intro t
  refine (run_ends t [] [[2]] [[1]] (List.nodup_singleton _) .copy (by decide) (fun _ => (1, {}))
    (fun _ => Nat.one_pos) fun n => ?_).1
  refine makesAside_of_outside _ (by decide) ?_ _
  decide

/-- A directory that goes to a free place is made there, and what it holds is read. -/
theorem takeNext_walk {d : Disk} {it : Item} {rest : List Item} {t : Tree}
    (hpending : d.job.pending = it :: rest) (hmark : it.rmdirOnly = false) (hkind : d.job.kind ≠ .delete)
    (hdir : d.tree.node it.src = some .dir) (hmake : d.tree.make it.dst .dir = .ok t) :
    d.takeNext {} = (((d.pop rest).commit t).record it.dst .dir).walked it
      ((((d.pop rest).commit t).record it.dst .dir).readdir it.src []) := by
  have hlstat : (d.pop rest).tree.lstat it.src = .ok .dir := by
    unfold FileTree.lstat
    rw [show (d.pop rest).tree.node it.src = some .dir from hdir]
  have hmade : (d.pop rest).makeDir {} it = .ok (((d.pop rest).commit t).record it.dst .dir) := by
    unfold makeDir
    rw [if_neg (show ¬ (d.pop rest).job.kind = .delete from hkind)]
    simp only [orFault]
    rw [show (d.pop rest).tree.make it.dst .dir = .ok t from hmake]
  unfold takeNext
  rw [hpending]
  simp only [hmark, orFault]
  rw [hlstat]
  simp only [takeDir]
  rw [hmade]
  exact walk_open (a := {}) rfl

/-- The directory `a` is being copied into itself: `a/a/…/a` has been made so far. -/
structure Nested (a : Bytes) (depth : Nat) (d : Disk) : Prop where
  active : d.job.active = true
  op : d.job.kind = .copy
  idle : d.job.copying = none
  pending : d.job.pending =
    [{ src := List.replicate (depth + 1) a, dst := List.replicate (depth + 2) a }]
  node : ∀ p, d.tree.node p =
    if p = List.replicate p.length a ∧ p.length ≤ depth + 1 then some .dir else none

namespace Nested

variable {a : Bytes} {depth : Nat} {d : Disk}

theorem step (h : Nested a depth d) (budget : Nat) : Nested a (depth + 1) (d.stepBy (budget, {})) := by
  have hnode : ∀ n, d.tree.node (List.replicate n a) = if n ≤ depth + 1 then some .dir else none := by
    intro n
    rw [h.node, List.length_replicate]
    simp only [true_and]
  have hsrc : d.tree.node (List.replicate (depth + 1) a) = some .dir := by
    rw [hnode, if_pos (Nat.le_refl _)]
  have hfree : d.tree.node (List.replicate (depth + 2) a) = none := by
    rw [hnode, if_neg (Nat.not_succ_le_self _)]
  obtain ⟨t, hmake⟩ := @FileTree.make_free _ _ _ _ _ .dir hfree
    (by rw [List.dropLast_replicate]; exact hsrc)
  have hmade := (FileTree.make_ok hmake).2.2
  have hdst : List.replicate (depth + 2) a = List.replicate (depth + 1) a ++ [a] := List.replicate_succ'
  -- What has just been made is read.
  have hread : t.children (List.replicate (depth + 1) a) = [a] := by
    refine List.perm_singleton.1 ((List.perm_ext_iff_of_nodup (t.nodup_children _)
      (List.nodup_singleton a)).2 fun n => ?_)
    rw [FileTree.mem_children, List.mem_singleton, hmade]
    by_cases hn : n = a
    · rw [hn, if_pos hdst.symm]
      simp
    · have hne : List.replicate (depth + 1) a ++ [n] ≠ List.replicate (depth + 2) a := by
        rw [hdst]
        intro heq
        exact hn (List.cons.inj (List.append_cancel_left heq)).1
      have hlong : ¬ (List.replicate (depth + 1) a ++ [n]).length ≤ depth + 1 := by
        rw [List.length_append, List.length_replicate]
        exact Nat.not_succ_le_self _
      rw [if_neg hne, h.node, if_neg fun hshort => hlong hshort.2]
      simp [hn]
  have hstep : d.stepBy (budget, {}) = (((d.pop []).commit t).record (List.replicate (depth + 2) a) .dir).walked
      { src := List.replicate (depth + 1) a, dst := List.replicate (depth + 2) a } [a] := by
    show d.step budget {} = _
    rw [step_take h.active h.idle h.pending,
      takeNext_walk h.pending rfl (by rw [h.op]; nofun) hsrc hmake]
    refine Eq.trans (copySlice_idle ?_) ?_
    · exact h.idle
    unfold readdir
    rw [show (((d.pop []).commit t).record (List.replicate (depth + 2) a) .dir).tree.children
      (List.replicate (depth + 1) a) = [a] from hread, if_neg (by simp)]
  rw [hstep]
  refine ⟨h.active, h.op, h.idle, ?_, fun p => ?_⟩
  · show inside d.job.kind _ [a] ++ (marks d.job.kind _ ++ []) = _
    rw [h.op]
    simp [inside, marks, ← List.replicate_succ']
  · show t.node p = _
    rw [hmade, h.node]
    by_cases hp : p = List.replicate (depth + 2) a
    · rw [hp, List.length_replicate]
      simp
    · have hlength : p = List.replicate p.length a → p.length ≠ depth + 2 := by
        intro heq hlength
        rw [hlength] at heq
        exact hp heq
      rw [if_neg hp]
      refine if_congr (and_congr_right fun heq => ?_) rfl rfl
      have hne := hlength heq
      omega

theorem start (a : Bytes) :
    Nested a 0 (({ tree := .ofEntries [([a], .dir)] } : Disk).pasteClipboard [[a]] false [a]) := by
  refine ⟨rfl, rfl, rfl, rfl, fun p => ?_⟩
  show (FileTree.ofEntries [([a], .dir)] : Tree).node p = _
  have hfree : (FileTree.empty : Tree).node [a] = none := by
    rw [FileTree.node_empty, if_neg (by simp)]
  obtain ⟨t, hmake⟩ := @FileTree.make_free _ _ _ _ [a] .dir hfree (FileTree.node_root _)
  have htree : (FileTree.ofEntries [([a], .dir)] : Tree) = t := by
    show ((FileTree.empty.make [a] .dir).toOption.getD FileTree.empty : Tree) = t
    rw [hmake]
    rfl
  rw [htree, (FileTree.make_ok hmake).2.2, FileTree.node_empty]
  rcases p with - | ⟨n, - | ⟨m, p⟩⟩
  · rfl
  · simp
  · simp

end Nested

/-- Pasted into itself, a directory is copied without end. -/
theorem not_all_end :
    ¬ ∀ (t : Tree) (clipboard : List Path) (cut : Bool) (here : Path) (steps : Nat → Nat × Answers),
      (∀ n, 0 < (steps n).1) →
      ∃ n, (run stepBy (({ tree := t } : Disk).pasteClipboard clipboard cut here)
        ((List.range n).map steps)).job.active = false := by
  intro h
  obtain ⟨n, hn⟩ := h (.ofEntries [([[1]], .dir)]) [[[1]]] false [[1]] (fun _ => (1, {})) fun _ => Nat.one_pos
  have hnested : ∀ n, Nested [1] n (run stepBy
      (({ tree := .ofEntries [([[1]], .dir)] } : Disk).pasteClipboard [[[1]]] false [[1]])
      ((List.range n).map fun _ => (1, {}))) := by
    intro n
    induction n with
    | zero => exact .start [1]
    | succ n ih =>
        rw [Lib.run_range_succ]
        exact ih.step 1
  rw [(hnested n).active] at hn
  cases hn

/-- Dropped into a directory that it holds: what has been made is read in its turn. -/
example :
    let t : Tree := .ofEntries [([[1]], .dir), ([[1], [2]], .dir)]
    let d := run stepBy (({ tree := t } : Disk).drop [[[1]]] [[1], [2]] none) (List.replicate 2 (1, {}))
    [[1], [2], [1]] ∈ d.listed ∧ ([[1], [2], [1]], .dir) ∈ d.made := by
  decide

end Ends

end Sshos.Apps
