import Sshos.Apps.FileJobDelete

/-!
# Sshos.Apps.FileJobDeleted

**A removal removes what was asked.** What is removed, and what is opened, is a source or is
below one, and no link is crossed to get there: as long as things are only removed, a path that
still leads somewhere leads where it did.
-/

namespace Sshos.Apps

open Sshos.Lib (Bytes Errno FileTree Leaf LinkTree Node Route exists_done_of_work run run_preserves
  run_range_succ)
open Sshos.Lib.LinkTree (Within follow follow_append follow_names follow_of_append follow_within locate
  node_follow)

namespace Removal

variable {d d' : Removal}

/-! ### What a step can do -/

def marked (d : Removal) (it : Victim) : Removal :=
  { d with pending := { src := it.src, rmdirOnly := true } :: d.pending }

/-- What a directory holds is on the stack. -/
def walked (d : Removal) (it : Victim) (q : List Bytes) (names : List Bytes) : Removal :=
  { d with
    entered := (it.src, q) :: d.entered
    pending := (names.map fun n => ({ src := it.src ++ [some n] } : Victim)).reverse ++ (d.marked it).pending }

/-- What may become of the thing on top, once it has been taken off: `d` is the disk then. -/
inductive Took (d : Removal) (it : Victim) : Removal → Prop
  | failed (e : Errno) : Took d it (d.fail it.src e)
  | removedDir (hmark : it.rmdirOnly = true) (q : List Bytes) (t : LinkTree Bytes Bytes)
      (hlocate : locate d.tree kMaxSymlinks it.src = .ok q) (hrmdir : d.tree.rmdir q = .ok t) :
      Took d it (d.gone it.src (q, t))
  | unlinked (hmark : it.rmdirOnly = false) (q : List Bytes) (t : LinkTree Bytes Bytes)
      (hlocate : locate d.tree kMaxSymlinks it.src = .ok q) (hunlink : d.tree.unlink q = .ok t) :
      Took d it (d.gone it.src (q, t))
  | shut (hmark : it.rmdirOnly = false) (e : Errno) : Took d it ((d.marked it).fail it.src e)
  | walked (hmark : it.rmdirOnly = false) (q q' : List Bytes) (left : Nat) (names : List Bytes)
      (hlocate : locate d.tree kMaxSymlinks it.src = .ok q) (hdir : d.tree.node q = some .dir)
      (hopen : follow d.tree kMaxSymlinks [] it.src = .ok (q', left))
      (hnames : names.Perm (d.tree.children q')) : Took d it (d.walked it q' names)

theorem bind_ok {ε α β : Type} {x : Except ε α} {f : α → Except ε β} {b : β} (h : x >>= f = .ok b) :
    ∃ a, x = .ok a ∧ f a = .ok b := by
  cases x with
  | error e => cases h
  | ok a => exact ⟨a, rfl, h⟩

theorem lstat_ok {t : LinkTree Bytes Bytes} {p : Route Bytes} {nd : Node (Leaf Bytes Bytes)}
    (h : lstat t p = .ok nd) : ∃ q, locate t kMaxSymlinks p = .ok q ∧ t.node q = some nd := by
  obtain ⟨q, hlocate, hnode⟩ := bind_ok h
  refine ⟨q, hlocate, ?_⟩
  unfold FileTree.lstat at hnode
  split at hnode
  · cases hnode
  · cases hnode
    assumption

theorem unlink_ok {t : LinkTree Bytes Bytes} {p : Route Bytes} {r : List Bytes × LinkTree Bytes Bytes}
    (h : unlink t p = .ok r) : locate t kMaxSymlinks p = .ok r.1 ∧ t.unlink r.1 = .ok r.2 := by
  obtain ⟨q, hlocate, hrest⟩ := bind_ok h
  obtain ⟨t', hunlink, hr⟩ := bind_ok hrest
  cases hr
  exact ⟨hlocate, hunlink⟩

theorem rmdir_ok {t : LinkTree Bytes Bytes} {p : Route Bytes} {r : List Bytes × LinkTree Bytes Bytes}
    (h : rmdir t p = .ok r) : locate t kMaxSymlinks p = .ok r.1 ∧ t.rmdir r.1 = .ok r.2 := by
  obtain ⟨q, hlocate, hrest⟩ := bind_ok h
  obtain ⟨t', hrmdir, hr⟩ := bind_ok hrest
  cases hr
  exact ⟨hlocate, hrmdir⟩

theorem opendir_ok {t : LinkTree Bytes Bytes} {p : Route Bytes} {q : List Bytes}
    (h : opendir t p = .ok q) : ∃ left, follow t kMaxSymlinks [] p = .ok (q, left) := by
  unfold opendir at h
  cases hfollow : follow t kMaxSymlinks [] p with
  | error e =>
      rw [hfollow] at h
      cases h
  | ok r =>
      rw [hfollow] at h
      cases h
      exact ⟨r.2, rfl⟩

theorem perm_readdir (t : LinkTree Bytes Bytes) (q : List Bytes) (listing : List Bytes) :
    (readdir t q listing).Perm (t.children q) := by
  unfold readdir
  split
  · assumption
  · exact List.Perm.refl _

theorem took_takeDir {a : Refusals} {it : Victim} {q : List Bytes} (hmark : it.rmdirOnly = false)
    (hlocate : locate d.tree kMaxSymlinks it.src = .ok q) (hdir : d.tree.node q = some .dir) :
    Took d it (d.takeDir a it) := by
  unfold takeDir
  simp only
  split
  next e _ => exact .shut hmark e
  next q' hopen =>
    obtain ⟨left, hfollow⟩ := opendir_ok (orFault_ok hopen)
    exact .walked hmark q q' left _ hlocate hdir hfollow (perm_readdir _ _ _)

/-- **What becomes of the thing on top.** -/
theorem took_takeNext {a : Refusals} {it : Victim} {rest : List Victim} (hpending : d.pending = it :: rest) :
    Took (d.pop rest) it (d.takeNext a) := by
  unfold takeNext
  rw [hpending]
  simp only
  split
  next hmark =>
    split
    next e _ => exact .failed e
    next r hr =>
      obtain ⟨hlocate, hrmdir⟩ := rmdir_ok (orFault_ok hr)
      exact .removedDir hmark r.1 r.2 hlocate hrmdir
  next hmark =>
    have hmark : it.rmdirOnly = false := by simpa using hmark
    split
    next e _ => exact .failed e
    next hstat =>
      obtain ⟨q, hlocate, hdir⟩ := lstat_ok (orFault_ok hstat)
      exact took_takeDir hmark hlocate hdir
    next =>
      split
      next e _ => exact .failed e
      next r hr =>
        obtain ⟨hlocate, hunlink⟩ := unlink_ok (orFault_ok hr)
        exact .unlinked hmark r.1 r.2 hlocate hunlink

/-! ### Sources, and what is below them -/

section Deletes

variable {t : LinkTree Bytes Bytes} {place : Route Bytes} {names : List Bytes}

/-- The path `p` stands for the place `q`, which is a source or below one; between the directory
on display and this place there are directories only, no link is crossed. -/
def Below (t : LinkTree Bytes Bytes) (place : Route Bytes) (names : List Bytes) (p : Route Bytes)
    (q : List Bytes) : Prop :=
  ∃ base left rel, follow t kMaxSymlinks [] place = .ok (base, left) ∧ (∃ n ∈ names, [n] <+: rel) ∧
    p = place ++ rel.map some ∧ q = base ++ rel ∧ t.node q ≠ none ∧
    ∀ r, r <+: rel → r ≠ rel → t.node (base ++ r) = some .dir

/-- A path on the stack: what it is in is a directory, or nothing can be reached. -/
def Named (t : LinkTree Bytes Bytes) (place : Route Bytes) (names : List Bytes) (p : Route Bytes) : Prop :=
  ∃ parent last, (∃ n ∈ names, [n] <+: parent ++ [last]) ∧ p = place ++ (parent ++ [last]).map some ∧
    ∀ base left, follow t kMaxSymlinks [] place = .ok (base, left) → t.node (base ++ parent) = some .dir

/-- **Where a path leads**, after removals: where it is written. -/
theorem below_of_locate {t' : LinkTree Bytes Bytes} (hwithin : Within t' t) {p : Route Bytes}
    (hp : Named t place names p) {q : List Bytes} (hlocate : locate t' kMaxSymlinks p = .ok q)
    (hsome : t'.node q ≠ none) : Below t place names p q := by
  obtain ⟨parent, last, hstarts, rfl, hparent⟩ := hp
  have hlast : (place ++ (parent ++ [last]).map some).getLast? = some (some last) := by
    rw [List.map_append, ← List.append_assoc]
    exact List.getLast?_concat
  have hdrop : (place ++ (parent ++ [last]).map some).dropLast = place ++ parent.map some := by
    rw [List.map_append, ← List.append_assoc]
    exact List.dropLast_concat
  unfold locate at hlocate
  rw [hlast, hdrop] at hlocate
  cases hfollow : follow t' kMaxSymlinks [] (place ++ parent.map some) with
  | error e =>
      rw [hfollow] at hlocate
      cases hlocate
  | ok r =>
  rw [hfollow] at hlocate
  have hq : r.1 ++ [last] = q := Except.ok.inj hlocate
  have hbefore := follow_within hwithin hfollow
  obtain ⟨⟨base, left⟩, hbase⟩ := follow_of_append hbefore
  have hdir := hparent base left hbase
  rw [follow_append hbase, follow_names hdir] at hbefore
  have hr : base ++ parent = r.1 := congrArg (·.1) (Except.ok.inj hbefore)
  rw [← hr, List.append_assoc] at hq
  have hnode : t.node q ≠ none := by
    rcases hwithin q with hnone | hsame
    · exact absurd hnone hsome
    · rw [← hsame]
      exact hsome
  refine ⟨base, left, parent ++ [last], hbase, hstarts, rfl, hq.symm, hnode, fun r hr hne => ?_⟩
  refine FileTree.node_above (q := base ++ (parent ++ [last])) (hq ▸ hnode)
    ((List.prefix_append_right_inj base).2 hr) fun heq => hne (List.append_cancel_left heq)

/-- A directory that is opened is the one that was looked at. -/
theorem opened_eq {t' : LinkTree Bytes Bytes} (hwithin : Within t' t) {p : Route Bytes} {q q' : List Bytes}
    {left : Nat} (hbelow : Below t place names p q) (hdir : t.node q = some .dir)
    (hopen : follow t' kMaxSymlinks [] p = .ok (q', left)) : q' = q := by
  obtain ⟨base, left', rel, hbase, -, rfl, rfl, -⟩ := hbelow
  have hbefore := follow_within hwithin hopen
  rw [follow_append hbase, follow_names hdir] at hbefore
  exact (congrArg (·.1) (Except.ok.inj hbefore)).symm

theorem Below.named_child {p : Route Bytes} {q : List Bytes} (h : Below t place names p q)
    (hdir : t.node q = some .dir) (c : Bytes) : Named t place names (p ++ [some c]) := by
  obtain ⟨base, left, rel, hbase, ⟨n, hn, hstarts⟩, rfl, rfl, -⟩ := h
  refine ⟨rel, c, ⟨n, hn, hstarts.trans (List.prefix_append _ _)⟩, by simp, fun base' left' hbase' => ?_⟩
  rw [hbase] at hbase'
  cases hbase'
  exact hdir

/-- **The invariant of a removal.** -/
structure Deletes (t : LinkTree Bytes Bytes) (place : Route Bytes) (names : List Bytes) (d : Removal) :
    Prop where
  tree : ∀ q, d.tree.node q = if q ∈ d.removed.map (·.2) then none else t.node q
  pending : ∀ it ∈ d.pending, Named t place names it.src
  removed : ∀ e ∈ d.removed, Below t place names e.1 e.2
  entered : ∀ e ∈ d.entered, Below t place names e.1 e.2 ∧ t.node e.2 = some .dir
  emptied : ∀ newer e older, d.removed = newer ++ e :: older →
    ∀ c, t.node (e.2 ++ [c]) ≠ none → e.2 ++ [c] ∈ older.map (·.2)

namespace Deletes

theorem within (h : Deletes t place names d) : Within d.tree t := by
  intro q
  rw [h.tree]
  split
  · exact .inl rfl
  · exact .inr rfl

/-- Something that has nothing left in it is removed. -/
theorem gone (h : Deletes t place names d) {p : Route Bytes} {q : List Bytes} {t' : LinkTree Bytes Bytes}
    (hbelow : Below t place names p q) (hnode : ∀ r, t'.node r = if r = q then none else d.tree.node r)
    (hleaf : ∀ c, d.tree.node (q ++ [c]) = none) : Deletes t place names (d.gone p (q, t')) := by
  refine ⟨fun r => ?_, h.pending, ?_, h.entered, ?_⟩
  · show t'.node r = if r ∈ q :: d.removed.map (·.2) then none else t.node r
    rw [hnode, h.tree]
    by_cases hr : r = q
    · rw [if_pos hr, if_pos (List.mem_cons.2 (.inl hr))]
    · rw [if_neg hr]
      simp only [List.mem_cons, hr, false_or]
  · intro e he
    rcases List.mem_cons.1 he with rfl | hold
    · exact hbelow
    · exact h.removed e hold
  · intro newer e older heq c hc
    cases newer with
    | nil =>
        obtain ⟨rfl, rfl⟩ := List.cons.inj heq
        by_contra hnot
        have hthere := hleaf c
        rw [h.tree, if_neg hnot] at hthere
        exact hc hthere
    | cons e' newer =>
        obtain ⟨-, hrest⟩ := List.cons.inj heq
        exact h.emptied newer e older hrest c hc

theorem took (h : Deletes t place names d) {it : Victim} (hit : Named t place names it.src)
    (ht : Took d it d') : Deletes t place names d' := by
  have hmarked : ∀ j ∈ (d.marked it).pending, Named t place names j.src := by
    intro j hj
    rcases List.mem_cons.1 hj with rfl | hold
    · exact hit
    · exact h.pending j hold
  cases ht with
  | failed e => exact ⟨h.tree, h.pending, h.removed, h.entered, h.emptied⟩
  | removedDir _ q t' hlocate hrmdir =>
      obtain ⟨hdir, hleaf, hnode⟩ := FileTree.rmdir_ok hrmdir
      exact h.gone (below_of_locate h.within hit hlocate (by rw [hdir]; nofun)) hnode hleaf
  | unlinked _ q t' hlocate hunlink =>
      obtain ⟨⟨c, hfile⟩, hnode⟩ := FileTree.unlink_ok hunlink
      exact h.gone (below_of_locate h.within hit hlocate (by rw [hfile]; nofun)) hnode
        (FileTree.leaf_of_file hfile)
  | shut _ e => exact ⟨h.tree, hmarked, h.removed, h.entered, h.emptied⟩
  | walked _ q q' left children hlocate hdir hopen hchildren =>
      have hbelow := below_of_locate h.within hit hlocate (by rw [hdir]; nofun)
      have hdir₀ : t.node q = some .dir := by
        rcases h.within q with hnone | hsame
        · rw [hdir] at hnone
          cases hnone
        · rw [← hsame, hdir]
      cases opened_eq h.within hbelow hdir₀ hopen
      refine ⟨h.tree, fun j hj => ?_, h.removed, fun e he => ?_, h.emptied⟩
      · rcases List.mem_append.1 hj with hchild | hold
        · obtain ⟨c, -, rfl⟩ := List.mem_map.1 (List.mem_reverse.1 hchild)
          exact hbelow.named_child hdir₀ c
        · exact hmarked j hold
      · rcases List.mem_cons.1 he with rfl | hold
        · exact ⟨hbelow, hdir₀⟩
        · exact h.entered e hold

theorem step (h : Deletes t place names d) (a : Refusals) : Deletes t place names (d.step a) := by
  unfold Removal.step
  split
  swap
  · exact h
  split
  · exact ⟨h.tree, h.pending, h.removed, h.entered, h.emptied⟩
  next it rest hpending =>
    refine took (d := d.pop rest) ⟨h.tree, fun j hj => ?_, h.removed, h.entered, h.emptied⟩ ?_
      (took_takeNext hpending)
    · exact h.pending j (hpending ▸ List.mem_cons_of_mem it hj)
    · exact h.pending it (hpending ▸ List.mem_cons_self ..)

theorem act (h : Deletes t place names d) (x : Act) : Deletes t place names (d.act x) := by
  cases x with
  | step a => exact h.step a
  | cancel => exact ⟨h.tree, nofun, h.removed, h.entered, h.emptied⟩

theorem start (t : LinkTree Bytes Bytes) (place : Route Bytes) (names : List Bytes) :
    Deletes t place names (({ tree := t } : Removal).start place names) := by
  refine ⟨fun q => rfl, fun it hit => ?_, nofun, nofun, fun newer e older heq => ?_⟩
  · obtain ⟨n, hn, rfl⟩ := List.mem_map.1 hit
    refine ⟨[], n, ⟨n, hn, List.prefix_refl _⟩, rfl, fun base left hbase => ?_⟩
    rw [List.append_nil]
    exact node_follow hbase t.node_root
  · have hnil : ([] : List (Route Bytes × List Bytes)) = newer ++ e :: older := heq
    simp at hnil

end Deletes

/-! ### The end of it -/

/-- What a directory holds: `j` is to be removed before it. -/
def Holds (d : Removal) (it j : Victim) : Prop :=
  ∃ q q' left c, locate d.tree kMaxSymlinks it.src = .ok q ∧ d.tree.node q = some .dir ∧
    follow d.tree kMaxSymlinks [] it.src = .ok (q', left) ∧ d.tree.node (q' ++ [c]) ≠ none ∧
    j = { src := it.src ++ [some c] }

/-- What is put on the stack in the place of the thing on top. -/
theorem took_pending {it : Victim} (ht : Took d it d') : ∃ new, d'.pending = new ++ d.pending ∧
    ∀ j ∈ new, it.rmdirOnly = false ∧ (j = { src := it.src, rmdirOnly := true } ∨ Holds d it j) := by
  cases ht with
  | failed => exact ⟨[], rfl, nofun⟩
  | removedDir => exact ⟨[], rfl, nofun⟩
  | unlinked => exact ⟨[], rfl, nofun⟩
  | shut hmark e =>
      refine ⟨[{ src := it.src, rmdirOnly := true }], rfl, fun j hj => ⟨hmark, .inl ?_⟩⟩
      exact List.mem_singleton.1 hj
  | walked hmark q q' left children hlocate hdir hopen hchildren =>
      refine ⟨(children.map fun n => ({ src := it.src ++ [some n] } : Victim)).reverse ++
        [{ src := it.src, rmdirOnly := true }], ?_, fun j hj => ⟨hmark, ?_⟩⟩
      · exact (List.append_assoc _ [_] _).symm
      · rcases List.mem_append.1 hj with hchild | hself
        · obtain ⟨c, hc, rfl⟩ := List.mem_map.1 (List.mem_reverse.1 hchild)
          have hthere := FileTree.mem_children.1 (hchildren.mem_iff.1 hc)
          exact .inr ⟨q, q', left, c, hlocate, hdir, hopen, hthere, rfl⟩
        · exact .inl (List.mem_singleton.1 hself)

theorem took_keeps {it : Victim} (ht : Took d it d') : d'.active = d.active ∧ d.failed ≤ d'.failed := by
  cases ht with
  | failed => exact ⟨rfl, Nat.le_succ _⟩
  | shut => exact ⟨rfl, Nat.le_succ _⟩
  | removedDir => exact ⟨rfl, Nat.le_refl _⟩
  | unlinked => exact ⟨rfl, Nat.le_refl _⟩
  | walked => exact ⟨rfl, Nat.le_refl _⟩

/-- What has gone does not come back. -/
theorem took_gone {it : Victim} (ht : Took d it d') {q : List Bytes} (hgone : d.tree.node q = none) :
    d'.tree.node q = none := by
  cases ht with
  | failed => exact hgone
  | shut => exact hgone
  | walked => exact hgone
  | removedDir _ p t' _ hrmdir =>
      refine ((FileTree.rmdir_ok hrmdir).2.2 q).trans ?_
      split
      · rfl
      · exact hgone
  | unlinked _ p t' _ hunlink =>
      refine ((FileTree.unlink_ok hunlink).2 q).trans ?_
      split
      · rfl
      · exact hgone

/-- How far a thing is from the bottom of the tree: what a directory holds is nearer, and so is
the mark of its removal. -/
def rank (bottom : Nat) (it : Victim) : Nat :=
  2 * (bottom - it.src.length) + if it.rmdirOnly then 0 else 1

/-- What is put on the stack is nearer to the bottom. -/
theorem Deletes.rank_lt (h : Deletes t place names d) {depth : Nat}
    (hdepth : ∀ p, t.node p ≠ none → p.length ≤ depth) {it j : Victim} (hit : Named t place names it.src)
    (hmark : it.rmdirOnly = false) (hj : j = { src := it.src, rmdirOnly := true } ∨ Holds d it j) :
    rank (place.length + depth) j < rank (place.length + depth) it := by
  rcases hj with rfl | ⟨q, q', left, c, hlocate, hdir, hopen, hchild, rfl⟩
  · simp [rank, hmark]
  · have hbelow := below_of_locate h.within hit hlocate (by rw [hdir]; nofun)
    have hsame : ∀ {p nd}, d.tree.node p = some nd → t.node p = some nd := by
      intro p nd hp
      rcases h.within p with hnone | heq
      · rw [hp] at hnone
        cases hnone
      · rw [← heq, hp]
    have hopened := opened_eq h.within hbelow (hsame hdir) hopen
    obtain ⟨base, -, rel, -, -, hsrc, hq, -⟩ := hbelow
    obtain ⟨nd, hnd⟩ := Option.ne_none_iff_exists'.1 hchild
    have hdeep := hdepth (q' ++ [c]) (by rw [hsame hnd]; nofun)
    rw [hopened, hq] at hdeep
    simp only [List.length_append, List.length_singleton] at hdeep
    have hlength : it.src.length = place.length + rel.length := by
      rw [hsrc, List.length_append, List.length_map]
    simp only [rank, hmark, List.length_append, List.length_singleton, hlength, Bool.false_eq_true, if_false]
    omega

/-- What `n` was asked for: its removal failed, or is to come, or is done. -/
def Owes (t : LinkTree Bytes Bytes) (place : Route Bytes) (d : Removal) (n : Bytes) : Prop :=
  0 < d.failed ∨ (∃ it ∈ d.pending, it.src = place ++ [some n]) ∨
    ∃ base left, follow t kMaxSymlinks [] place = .ok (base, left) ∧ d.tree.node (base ++ [n]) = none

/-- What stands at a source, when it is reached. -/
theorem Below.at_source {n : Bytes} {q : List Bytes} (h : Below t place names (place ++ [some n]) q) :
    ∃ base left, follow t kMaxSymlinks [] place = .ok (base, left) ∧ q = base ++ [n] := by
  obtain ⟨base, left, rel, hbase, -, hrel, rfl, -⟩ := h
  have hrel : rel.map some = [n].map some := (List.append_cancel_left hrel).symm
  rw [List.map_injective_iff.2 (Option.some_injective _) hrel]
  exact ⟨base, left, hbase, rfl⟩

theorem Owes.took (h : Deletes t place names d) {it : Victim} (hit : Named t place names it.src)
    (ht : Took d it d') {n : Bytes} (howes : Owes t place d n ∨ it.src = place ++ [some n]) :
    Owes t place d' n := by
  rcases howes with (hfailed | ⟨j, hj, hsrc⟩ | ⟨base, left, hbase, hgone⟩) | hsrc
  · exact .inl (Nat.lt_of_lt_of_le hfailed (took_keeps ht).2)
  · obtain ⟨new, hpending, -⟩ := took_pending ht
    exact .inr (.inl ⟨j, hpending ▸ List.mem_append_right new hj, hsrc⟩)
  · exact .inr (.inr ⟨base, left, hbase, took_gone ht hgone⟩)
  · cases ht with
    | failed => exact .inl (Nat.succ_pos _)
    | shut => exact .inl (Nat.succ_pos _)
    | removedDir _ q t' hlocate hrmdir =>
        obtain ⟨hdir, -, hnode⟩ := FileTree.rmdir_ok hrmdir
        have hbelow := below_of_locate h.within hit hlocate (by rw [hdir]; nofun)
        rw [hsrc] at hbelow
        obtain ⟨base, left, hbase, rfl⟩ := hbelow.at_source
        exact .inr (.inr ⟨base, left, hbase, (hnode _).trans (if_pos rfl)⟩)
    | unlinked _ q t' hlocate hunlink =>
        obtain ⟨⟨c, hfile⟩, hnode⟩ := FileTree.unlink_ok hunlink
        have hbelow := below_of_locate h.within hit hlocate (by rw [hfile]; nofun)
        rw [hsrc] at hbelow
        obtain ⟨base, left, hbase, rfl⟩ := hbelow.at_source
        exact .inr (.inr ⟨base, left, hbase, (hnode _).trans (if_pos rfl)⟩)
    | walked =>
        refine .inr (.inl ⟨{ src := it.src, rmdirOnly := true }, ?_, hsrc⟩)
        exact List.mem_append_right _ (List.mem_cons_self ..)

/-- **A removal**, while it is not cancelled. -/
structure Complete (t : LinkTree Bytes Bytes) (place : Route Bytes) (names : List Bytes) (d : Removal) :
    Prop where
  deletes : Deletes t place names d
  ended : d.active = false → d.pending = []
  owes : ∀ n ∈ names, Owes t place d n

namespace Complete

theorem start (t : LinkTree Bytes Bytes) (place : Route Bytes) (names : List Bytes) :
    Complete t place names (({ tree := t } : Removal).start place names) := by
  refine ⟨.start t place names, fun hidle => ?_, fun n hn => .inr (.inl ?_)⟩
  · cases names with
    | nil => rfl
    | cons n names => cases hidle
  · exact ⟨_, List.mem_map_of_mem hn, rfl⟩

/-- **One step**: the job ends, or a thing is taken off the stack, and what is put there is
nearer to the bottom. -/
theorem step (h : Complete t place names d) (a : Refusals) {depth : Nat}
    (hdepth : ∀ p, t.node p ≠ none → p.length ≤ depth) :
    Complete t place names (d.step a) ∧ (d.active = true → (d.step a).active = false ∨
      ∃ it rest new, d.pending = it :: rest ∧ (d.step a).pending = new ++ rest ∧
        ∀ j ∈ new, rank (place.length + depth) j < rank (place.length + depth) it) := by
  have hdeletes := h.deletes.step a
  by_cases hactive : d.active = true
  swap
  · have hsame : d.step a = d := if_neg hactive
    rw [hsame]
    exact ⟨h, fun hact => absurd hact hactive⟩
  cases hpending : d.pending with
  | nil =>
      have hstop : d.step a = { d with active := false } := by
        unfold Removal.step
        rw [if_pos hactive, hpending]
      rw [hstop] at hdeletes ⊢
      exact ⟨⟨hdeletes, fun _ => hpending, h.owes⟩, fun _ => .inl rfl⟩
  | cons it rest =>
      have hstep : d.step a = d.takeNext a := by
        unfold Removal.step
        rw [if_pos hactive, hpending]
      rw [hstep] at hdeletes ⊢
      have ht := took_takeNext (a := a) hpending
      have hit : Named t place names it.src := h.deletes.pending it (hpending ▸ List.mem_cons_self ..)
      have hpopped : Deletes t place names (d.pop rest) :=
        ⟨h.deletes.tree, fun j hj => h.deletes.pending j (hpending ▸ List.mem_cons_of_mem it hj),
          h.deletes.removed, h.deletes.entered, h.deletes.emptied⟩
      refine ⟨⟨hdeletes, fun hended => ?_, fun n hn => ?_⟩, fun _ => .inr ?_⟩
      · rw [(took_keeps ht).1, show (d.pop rest).active = true from hactive] at hended
        cases hended
      · refine Owes.took hpopped hit ht ?_
        rcases h.owes n hn with hfailed | ⟨j, hj, hsrc⟩ | hgone
        · exact .inl (.inl hfailed)
        · rw [hpending] at hj
          rcases List.mem_cons.1 hj with rfl | hrest
          · exact .inr hsrc
          · exact .inl (.inr (.inl ⟨j, hrest, hsrc⟩))
        · exact .inl (.inr (.inr hgone))
      · obtain ⟨new, hnew, hlower⟩ := took_pending ht
        exact ⟨it, rest, new, rfl, hnew, fun j hj =>
          hpopped.rank_lt hdepth hit (hlower j hj).1 (hlower j hj).2⟩

theorem run (h : Complete t place names d) (steps : List Refusals) :
    Complete t place names (Lib.run Removal.step d steps) := by
  obtain ⟨depth, hdepth⟩ := t.exists_depth
  exact @run_preserves _ _ _ (Complete t place names) (fun d a hd => (hd.step a hdepth).1) _ h steps

/-- No source is left, by its path or at its place. -/
theorem sources_gone (h : Complete t place names d) (hended : d.active = false) (hfailed : d.failed = 0)
    {n : Bytes} (hn : n ∈ names) : (∃ e, lstat d.tree (place ++ [some n]) = .error e) ∧
      ∃ base left, follow t kMaxSymlinks [] place = .ok (base, left) ∧ d.tree.node (base ++ [n]) = none := by
  rcases h.owes n hn with hmore | ⟨it, hit, -⟩ | ⟨base, left, hbase, hgone⟩
  · omega
  · rw [h.ended hended] at hit
    cases hit
  · refine ⟨?_, base, left, hbase, hgone⟩
    unfold lstat locate
    rw [List.getLast?_concat, List.dropLast_concat]
    cases hfollow : follow d.tree kMaxSymlinks [] place with
    | error e => exact ⟨e, rfl⟩
    | ok r =>
        have hsame := follow_within h.deletes.within hfollow
        rw [hbase] at hsame
        cases hsame
        refine ⟨.noent, ?_⟩
        show d.tree.lstat (base ++ [n]) = .error .noent
        unfold FileTree.lstat
        rw [hgone]

end Complete

/-- **A removal removes what was asked**, whatever the system answers, and whenever it is
cancelled. -/
theorem delete_exact (t : LinkTree Bytes Bytes) (place : Route Bytes) (names : List Bytes) :
    let d₀ := ({ tree := t } : Removal).start place names
    (∀ acts, Deletes t place names (run Removal.act d₀ acts)) ∧
    (∀ answers : Nat → Refusals, ∃ n,
      (run Removal.step d₀ ((List.range n).map answers)).active = false) ∧
    ∀ answers : List Refusals, let d := run Removal.step d₀ answers
      d.active = false → d.failed = 0 → ∀ n ∈ names,
        (∃ e, lstat d.tree (place ++ [some n]) = .error e) ∧
          ∃ base left, follow t kMaxSymlinks [] place = .ok (base, left) ∧
            d.tree.node (base ++ [n]) = none := by
  intro d₀
  have hstart : Complete t place names d₀ := .start t place names
  refine ⟨fun acts => ?_, fun answers => ?_, ?_⟩
  · exact @run_preserves _ _ _ (Deletes t place names) (fun d x hd => hd.act x) _ hstart.deletes acts
  · obtain ⟨depth, hdepth⟩ := t.exists_depth
    refine @exists_done_of_work _ _ (·.active = false) (·.pending) (rank (place.length + depth))
      (fun n => run Removal.step d₀ ((List.range n).map answers)) fun n hactive => ?_
    rw [run_range_succ]
    exact ((hstart.run _).step (answers n) hdepth).2 (by simpa using hactive)
  · intro answers d hended hfailed n hn
    exact (hstart.run answers).sources_gone hended hfailed hn

end Deletes

end Removal

end Sshos.Apps
