import Sshos.Apps.FileJobEnds

/-!
# Sshos.Apps.FileJobInPlace

**A move in place**: things are cut, and pasted where they are. Nothing is renamed, nothing is
made; but a directory is removed once it has been walked, and it can be when it was empty.
-/

namespace Sshos.Apps

open Sshos.Lib (Bytes FileTree Node StepsMeet run run_preserves run_range_succ stepsMeet_iff)

namespace Disk

/-- What is on the stack goes where it is. -/
structure InPlace (sources : List Path) (d : Disk) : Prop where
  op : d.job.kind = .move
  idle : d.job.copying = none
  srcs : ∀ it ∈ d.job.pending, ∃ s ∈ sources, s <+: it.src
  dsts : ∀ it ∈ d.job.pending, it.rmdirOnly = false → it.dst = it.src
  ended : d.job.active = false → d.job.pending = []

/-- What a step may do to the tree then: nothing, or the removal that a mark asks for. -/
def Unmakes (d d' : Disk) : Prop :=
  d'.tree = d.tree ∨ ∃ it ∈ d.job.pending, it.rmdirOnly = true ∧ d.tree.rmdir it.src = .ok d'.tree

variable {sources : List Path} {d d' : Disk}

namespace InPlace

/-- The directory a thing would be moved to is there: it is the thing. -/
theorem madeDir {it : Item} {m : Disk} (hdst : it.dst = it.src) (hdir : d.tree.node it.src = some .dir)
    (hmade : MadeDir d it m) : m = d := by
  cases hmade with
  | delete => rfl
  | there => rfl
  | made _ t hmake =>
      have hfree := (FileTree.make_ok hmake).1
      rw [hdst, hdir] at hfree
      cases hfree

theorem took_tree {it : Item} (hop : d.job.kind = .move)
    (hdst : it.rmdirOnly = false → it.dst = it.src) (ht : Took d it d') :
    d'.tree = d.tree ∨ it.rmdirOnly = true ∧ d.tree.rmdir it.src = .ok d'.tree := by
  cases ht with
  | failed => exact .inl rfl
  | removedDir hmark t hrmdir =>
      refine .inr ⟨hmark, ?_⟩
      split <;> exact hrmdir
  | shut hmark hdir m hmade =>
      rw [madeDir (hdst hmark) hdir hmade]
      exact .inl rfl
  | walked hmark hdir m hmade =>
      rw [madeDir (hdst hmark) hdir hmade]
      exact .inl rfl
  | unlinked _ hkind =>
      rw [hop] at hkind
      cases hkind
  | renamed hmark _ c hfile t hrename =>
      rw [hdst hmark] at hrename ⊢
      obtain ⟨-, -, ⟨-, hsame⟩ | ⟨hne, -⟩⟩ := FileTree.rename_ok hrename
      · rw [if_pos rfl]
        exact .inl hsame
      · exact absurd rfl hne
  | opened hmark _ c hfile t hmake =>
      have hfree := (FileTree.make_ok hmake).1
      rw [hdst hmark, hfile] at hfree
      cases hfree

/-- What it is to be a thing on the stack is kept. -/
theorem took (h : InPlace sources d) (hactive : d.job.active = true) {it : Item} {rest : List Item}
    (hpending : d.job.pending = it :: rest) (ht : Took (d.pop rest) it d') : InPlace sources d' := by
  have hit : it ∈ d.job.pending := hpending ▸ List.mem_cons_self ..
  have hrest : ∀ j ∈ (d.pop rest).job.pending, j ∈ d.job.pending := fun j hj =>
    hpending ▸ List.mem_cons_of_mem it hj
  obtain ⟨s, hs, hsrc⟩ := h.srcs it hit
  refine ⟨by rw [(took_keeps ht).2]; exact h.op, ?_, fun j hj => ?_, fun j hj hmark => ?_, fun hended => ?_⟩
  · cases ht with
    | failed => exact h.idle
    | removedDir => split <;> exact h.idle
    | shut _ _ m hmade =>
        show m.job.copying = none
        rw [hmade.keeps.1]
        exact h.idle
    | walked _ _ m hmade =>
        show m.job.copying = none
        rw [hmade.keeps.1]
        exact h.idle
    | unlinked => exact h.idle
    | renamed => split <;> exact h.idle
    | opened hmark _ c hfile t hmake =>
        have hfree := (FileTree.make_ok hmake).1
        rw [h.dsts it hit hmark, hfile] at hfree
        cases hfree
  · rcases took_pending ht hj with hold | rfl | ⟨-, n, rfl⟩
    · exact h.srcs j (hrest j hold)
    · exact ⟨s, hs, hsrc⟩
    · exact ⟨s, hs, hsrc.trans (List.prefix_append _ _)⟩
  · rcases took_pending ht hj with hold | rfl | ⟨hmark', n, rfl⟩
    · exact h.dsts j (hrest j hold) hmark
    · cases hmark
    · have hkind : ¬ (d.pop rest).job.kind = .delete := by
        rw [show (d.pop rest).job.kind = .move from h.op]
        nofun
      simp only [if_neg hkind, h.dsts it hit hmark']
  · rw [(took_keeps ht).1, show (d.pop rest).job.active = true from hactive] at hended
    cases hended

/-- **One step of a move in place.** -/
theorem step (h : InPlace sources d) (x : Nat × Answers) :
    InPlace sources (d.stepBy x) ∧ Unmakes d (d.stepBy x) := by
  refine step_rule (P := fun e => InPlace sources e ∧ Unmakes d e) ⟨h, .inl rfl⟩ ?_ ?_ ?_
  · intro it rest d' hactive _ hpending ht
    refine ⟨h.took hactive hpending ht, ?_⟩
    have hit : it ∈ d.job.pending := hpending ▸ List.mem_cons_self ..
    rcases took_tree (d := d.pop rest) h.op (h.dsts it hit) ht with hsame | ⟨hmark, hrmdir⟩
    · exact .inl hsame
    · exact .inr ⟨it, hit, hmark, hrmdir⟩
  · intro _ _ hnone
    exact ⟨⟨h.op, h.idle, h.srcs, h.dsts, fun _ => hnone⟩, .inl rfl⟩
  · intro e e' c hc _ he
    rw [he.1.idle] at hc
    cases hc

theorem start (t : Tree) (place : Path) (names : List Bytes) :
    InPlace (names.map fun n => place ++ [n])
      (({ tree := t } : Disk).start (names.map fun n => place ++ [n]) place .move) := by
  have hstart : ∀ it ∈ (({ tree := t } : Disk).start (names.map fun n => place ++ [n]) place .move).job.pending,
      ∃ n ∈ names, it = { src := place ++ [n], dst := place ++ [n] } := by
    intro it hit
    obtain ⟨s, hs, rfl⟩ := List.mem_map.1 hit
    obtain ⟨n, hn, rfl⟩ := List.mem_map.1 hs
    exact ⟨n, hn, by simp [target]⟩
  refine ⟨rfl, rfl, fun it hit => ?_, fun it hit _ => ?_, fun hidle => ?_⟩
  · obtain ⟨n, hn, rfl⟩ := hstart it hit
    exact ⟨_, List.mem_map_of_mem hn, List.prefix_refl _⟩
  · obtain ⟨n, hn, rfl⟩ := hstart it hit
    rfl
  · cases names with
    | nil => rfl
    | cons n names => cases hidle

theorem run (h : InPlace sources d) (steps : List (Nat × Answers)) : InPlace sources (Lib.run stepBy d steps) :=
  @run_preserves _ _ _ (InPlace sources) (fun _ x hd => (hd.step x).1) _ h steps

/-- What is to be taken goes where it is: nothing is made. -/
theorem makesAside (h : InPlace sources d) (x : Nat × Answers) : d.MakesAside x := by
  intro it htakes hmakes
  obtain ⟨-, -, hmark, rest, hpending⟩ := htakes
  obtain ⟨-, -, hne, -⟩ := hmakes
  exact absurd (h.dsts it (hpending ▸ List.mem_cons_self ..) hmark) hne

end InPlace

/-! ### What is removed -/

section Empty

variable {t : Tree}

/-- No directory at or below a source is empty. -/
def NoneEmpty (t : Tree) (sources : List Path) : Prop :=
  ∀ s ∈ sources, ∀ p, s <+: p → t.node p = some .dir → t.children p ≠ []

instance (t : Tree) (sources : List Path) : Decidable (NoneEmpty t sources) :=
  decidable_of_iff (∀ s ∈ sources, ∀ p ∈ [] :: t.entries.keys, s <+: p → t.node p = some .dir → t.children p ≠ [])
    ⟨fun h s hs p hpre hdir => h s hs p (FileTree.mem_keys_of_node (by rw [hdir]; nofun)) hpre hdir,
      fun h s hs p _ hpre hdir => h s hs p hpre hdir⟩

theorem InPlace.keeps_tree (hfull : NoneEmpty t sources) (h : InPlace sources d ∧ d.tree = t)
    (x : Nat × Answers) : InPlace sources (d.stepBy x) ∧ (d.stepBy x).tree = t := by
  obtain ⟨hplace, rfl⟩ := h
  obtain ⟨hnext, hsame | ⟨it, hit, -, hrmdir⟩⟩ := hplace.step x
  · exact ⟨hnext, hsame⟩
  · -- a directory that could be removed was empty
    obtain ⟨hdir, hleaf, -⟩ := FileTree.rmdir_ok hrmdir
    obtain ⟨s, hs, hpre⟩ := hplace.srcs it hit
    refine absurd (List.eq_nil_iff_forall_not_mem.2 fun n hn => ?_) (hfull s hs it.src hpre hdir)
    exact FileTree.mem_children.1 hn (hleaf n)

/-- The empty directory `e` of `t` has gone, or its turn is to come, and nothing has come to the
tree. -/
structure Owed (t : Tree) (e : Path) (d : Disk) : Prop where
  shrunk : ∀ p, d.tree.node p = none ∨ d.tree.node p = t.node p
  owed : d.tree.node e = none ∨
    ∃ it ∈ d.job.pending, if it.rmdirOnly then it.src = e else it.src <+: e

/-- A directory that goes where there is something is read, without a fault. -/
theorem takeNext_there {it : Item} {rest : List Item} (hpending : d.job.pending = it :: rest)
    (hmark : it.rmdirOnly = false) (hkind : d.job.kind ≠ .delete) (hdir : d.tree.node it.src = some .dir)
    (hthere : d.tree.node it.dst ≠ none) :
    d.takeNext {} = (d.pop rest).walked it ((d.pop rest).readdir it.src []) := by
  have hlstat : (d.pop rest).tree.lstat it.src = .ok .dir := by
    unfold FileTree.lstat
    rw [show (d.pop rest).tree.node it.src = some .dir from hdir]
  have hmade : (d.pop rest).makeDir {} it = .ok (d.pop rest) := by
    unfold makeDir
    rw [if_neg (show ¬ (d.pop rest).job.kind = .delete from hkind)]
    simp only [orFault]
    rw [FileTree.make_exist (t := (d.pop rest).tree) hthere]
  unfold takeNext
  rw [hpending]
  simp only [hmark, orFault]
  rw [hlstat]
  simp only [takeDir]
  rw [hmade]
  exact walk_open (a := {}) rfl

/-- A mark of removal is obeyed, if the directory is empty. -/
theorem takeNext_mark {it : Item} {rest : List Item} (hpending : d.job.pending = it :: rest)
    (hmark : it.rmdirOnly = true) (hop : d.job.kind = .move) {u : Tree}
    (hrmdir : d.tree.rmdir it.src = .ok u) (a : Answers) : (d.takeNext a).tree = u := by
  unfold takeNext
  rw [hpending]
  simp only [hmark, if_true]
  unfold takeMarker
  rw [show (d.pop rest).tree.rmdir it.src = .ok u from hrmdir]
  simp only
  rw [if_neg (show ¬ (d.pop rest).job.kind = .delete by
    rw [show (d.pop rest).job.kind = .move from hop]
    nofun)]
  rfl

/-- What is under the top stays on the stack. -/
theorem took_rest {it j : Item} (h : Took d it d') (hj : j ∈ d.job.pending) : j ∈ d'.job.pending := by
  cases h with
  | failed => exact hj
  | removedDir => split <;> exact hj
  | shut _ _ m hmade =>
      refine List.mem_append_right _ ?_
      rw [hmade.keeps.1]
      exact hj
  | walked _ _ m hmade =>
      refine List.mem_append_right _ (List.mem_append_right _ ?_)
      rw [hmade.keeps.1]
      exact hj
  | unlinked => exact hj
  | renamed => split <;> exact hj
  | opened => exact hj

theorem mem_readdir {p : Path} {listing : List Bytes} {n : Bytes} :
    n ∈ d.readdir p listing ↔ d.tree.node (p ++ [n]) ≠ none := by
  rw [← FileTree.mem_children]
  unfold readdir
  split
  next hperm => exact hperm.mem_iff
  next => exact Iff.rfl

namespace Owed

variable {e : Path}

theorem of_unmakes (h : Owed t e d) (hun : Unmakes d d') (q : Path) :
    (d'.tree.node q = none ∨ d'.tree.node q = t.node q) ∧ (d.tree.node q = none → d'.tree.node q = none) := by
  rcases hun with hsame | ⟨it, -, -, hrmdir⟩
  · rw [hsame]
    exact ⟨h.shrunk q, id⟩
  · rw [(FileTree.rmdir_ok hrmdir).2.2 q]
    split
    · exact ⟨.inl rfl, fun _ => rfl⟩
    · exact ⟨h.shrunk q, id⟩

/-- The top of the stack stands for the empty directory: it goes, or what stands for it is put
on the stack. -/
theorem take_top (h : Owed t e d) (hop : d.job.kind = .move) {top : Item} {rest : List Item}
    (hpending : d.job.pending = top :: rest) (hdst : top.rmdirOnly = false → top.dst = top.src)
    (hdir : d.tree.node e = some .dir) (hroot : e ≠ []) (hleaf : t.children e = [])
    (htop : if top.rmdirOnly then top.src = e else top.src <+: e) :
    (d.takeNext {}).tree.node e = none ∨
      ∃ it ∈ (d.takeNext {}).job.pending, if it.rmdirOnly then it.src = e else it.src <+: e := by
  cases hmark : top.rmdirOnly with
  | true =>
      left
      rw [hmark, if_pos rfl] at htop
      have hempty : d.tree.children e = [] := by
        refine List.eq_nil_iff_forall_not_mem.2 fun n hn => ?_
        have hsome := FileTree.mem_children.1 hn
        rcases h.shrunk (e ++ [n]) with hnone | hsame
        · exact hsome hnone
        · rw [hsame] at hsome
          have hmem := FileTree.mem_children.2 hsome
          rw [hleaf] at hmem
          cases hmem
      obtain ⟨u, hrmdir⟩ := FileTree.rmdir_leaf hdir hroot hempty
      rw [takeNext_mark hpending hmark hop (htop.symm ▸ hrmdir), (FileTree.rmdir_ok hrmdir).2.2, if_pos rfl]
  | false =>
      right
      rw [hmark, if_neg Bool.false_ne_true] at htop
      have hsrc : d.tree.node top.src = some .dir := by
        by_cases heq : top.src = e
        · rw [heq, hdir]
        · exact FileTree.node_above (by rw [hdir]; nofun) htop heq
      have hthere : d.tree.node top.dst ≠ none := by
        rw [hdst hmark, hsrc]
        nofun
      rw [takeNext_there hpending hmark (by rw [hop]; nofun) hsrc hthere]
      obtain ⟨below, rfl⟩ := htop
      cases below with
      | nil =>
          refine ⟨{ src := top.src, dst := [], rmdirOnly := true }, ?_, (List.append_nil _).symm⟩
          refine List.mem_append_right _ (List.mem_append_left _ (mem_marks.2 ⟨?_, rfl⟩))
          rw [show (d.pop rest).job.kind = .move from hop]
          nofun
      | cons n below =>
          have hchild : d.tree.node (top.src ++ [n]) ≠ none := by
            intro hnone
            have hgone := @FileTree.node_below _ _ _ d.tree (top.src ++ [n]) (top.src ++ n :: below)
              (by rw [hnone]; nofun) ⟨below, by simp⟩
            by_cases hlast : below = []
            · rw [hlast, hnone] at hdir
              cases hdir
            · rw [hgone (by simpa using Ne.symm hlast)] at hdir
              cases hdir
          refine ⟨_, List.mem_append_left _ (mem_inside.2 ⟨n, mem_readdir.2 hchild, rfl⟩), ?_⟩
          exact ⟨below, by simp⟩

/-- **A step without a fault** does not forget the empty directory. -/
theorem step (h : Owed t e d) (hplace : InPlace sources d) (hroot : e ≠ [])
    (hdir : t.node e = some .dir) (hleaf : t.children e = []) (budget : Nat) :
    Owed t e (d.stepBy (budget, {})) := by
  have hun := h.of_unmakes (hplace.step (budget, {})).2
  refine ⟨fun p => (hun p).1, ?_⟩
  by_cases hgone : d.tree.node e = none
  · exact .inl ((hun e).2 hgone)
  have hhere : d.tree.node e = some .dir := ((h.shrunk e).resolve_left hgone).trans hdir
  obtain ⟨it, hit, howed⟩ := h.owed.resolve_left hgone
  by_cases hactive : d.job.active = true
  swap
  · right
    show ∃ it ∈ (d.step budget {}).job.pending, _
    unfold Disk.step
    rw [if_neg hactive]
    exact ⟨it, hit, howed⟩
  obtain ⟨top, rest, hpending⟩ : ∃ top rest, d.job.pending = top :: rest :=
    List.exists_cons_of_ne_nil (List.ne_nil_of_mem hit)
  have hidle := (hplace.took hactive hpending (took_takeNext (a := {}) hpending)).idle
  have htaken : d.stepBy (budget, {}) = d.takeNext {} :=
    (step_take hactive hplace.idle hpending).trans (copySlice_idle hidle)
  rw [htaken]
  rw [hpending] at hit
  rcases List.mem_cons.1 hit with rfl | hrest
  · exact h.take_top hplace.op hpending (hplace.dsts it (hpending ▸ List.mem_cons_self ..)) hhere hroot hleaf
      howed
  · exact .inr ⟨it, took_rest (took_takeNext hpending) hrest, howed⟩

end Owed

/-- **A move in place** leaves the tree as it is exactly when no directory at or below what is
moved is empty. -/
theorem movedInPlace_iff (t : Tree) (place : Path) (names : List Bytes) (hnames : names.Nodup) :
    let sources := names.map fun n => place ++ [n]
    let d₀ := ({ tree := t } : Disk).start sources place .move
    (∀ steps, (run stepBy d₀ steps).job.active = false → (run stepBy d₀ steps).tree = t) ↔
      NoneEmpty t sources := by
  intro sources d₀
  have hstart : InPlace sources d₀ := .start t place names
  constructor
  · -- a run without a fault ends, and an empty directory does not survive it
    intro hkept s hs e hpre hdir hleaf
    have hroot : e ≠ [] := by
      rintro rfl
      obtain ⟨n, -, rfl⟩ := List.mem_map.1 hs
      simpa using List.prefix_nil.1 hpre
    have hside : ∀ n, StepsMeet stepBy MakesAside d₀ ((List.range n).map fun _ => (1, {})) := by
      intro n
      rw [stepsMeet_iff]
      intro before x _
      exact (hstart.run before).makesAside x
    obtain ⟨n, hended⟩ := (run_ends t place place names hnames .move (by decide) (fun _ => (1, {}))
      (fun _ => Nat.one_pos) hside).1
    have hfirst : Owed t e d₀ := by
      obtain ⟨m, hm, rfl⟩ := List.mem_map.1 hs
      refine ⟨fun p => .inr rfl, .inr ⟨{ src := place ++ [m], dst := place ++ [m] }, ?_, hpre⟩⟩
      exact List.mem_map.2 ⟨place ++ [m], hs, by simp [target]⟩
    have howed : ∀ n, Owed t e (run stepBy d₀ ((List.range n).map fun _ => (1, {}))) := by
      intro n
      induction n with
      | zero => exact hfirst
      | succ n ih =>
          rw [run_range_succ]
          exact ih.step (hstart.run _) hroot hdir hleaf 1
    have hempty := (hstart.run ((List.range n).map fun _ => (1, {}))).ended hended
    rcases (howed n).owed with hnone | ⟨it, hit, -⟩
    · rw [hkept _ hended, hdir] at hnone
      cases hnone
    · rw [hempty] at hit
      cases hit
  · intro hfull steps _
    have hkept : InPlace sources (run stepBy d₀ steps) ∧ (run stepBy d₀ steps).tree = t := by
      refine @run_preserves _ _ _ (fun d => InPlace sources d ∧ d.tree = t) ?_ _ ⟨hstart, rfl⟩ steps
      exact fun d x h => InPlace.keeps_tree hfull h x
    exact hkept.2

/-- An empty directory that is cut, and pasted where it is, goes. -/
theorem movedInPlace_loses :
    ¬ ∀ (t : Tree) (place : Path) (names : List Bytes), names.Nodup →
      ∀ steps, let d := run stepBy (({ tree := t } : Disk).start (names.map fun n => place ++ [n]) place .move) steps
        d.job.active = false → d.tree = t := by
  intro h
  have hgone := h (.ofEntries [([[1]], .dir)]) [] [[1]] (List.nodup_singleton _) (List.replicate 3 (1, {}))
    (by decide)
  refine absurd (congrArg (fun u => u.node [[1]]) hgone) ?_
  decide

/-- Cut and pasted in place, a directory that holds a file stays. -/
theorem movedInPlace_iff_file :
    let t : Tree := .ofEntries [([[1]], .dir), ([[1], [2]], .file [65])]
    NoneEmpty t [[[1]]] ∧
    ∀ steps, (run stepBy (({ tree := t } : Disk).start [[[1]]] [] .move) steps).job.active = false →
      (run stepBy (({ tree := t } : Disk).start [[[1]]] [] .move) steps).tree = t :=
  ⟨by decide, (movedInPlace_iff _ [] [[1]] (List.nodup_singleton _)).2 (by decide)⟩

end Empty

end Disk

end Sshos.Apps
