import Mathlib.Data.List.AList
import Mathlib.Data.Finset.Lattice.Fold
import Mathlib.Data.List.Infix
import Mathlib.Tactic.Common

/-!
# Sshos.Lib.FileTree

**File trees**: directories and regular files under absolute paths, with the system calls
that change them, as POSIX has them. A tree is closed by construction: what has a name in it
has it in a directory.

Names and contents are parameters. What does not depend on the tree, such as permissions,
room or devices, is a fault, for the caller to inject.
-/

namespace Sshos.Lib

universe u v

inductive Node (γ : Type v)
  | dir
  | file (content : γ)
  deriving Repr, DecidableEq

inductive Errno
  | noent | exist | notdir | isdir | notempty | busy
  | fault (code : Nat)
  deriving Repr, DecidableEq

/-- What stands at a path. The root is a directory. -/
def nodeAt {Name : Type u} [DecidableEq Name] {γ : Type v}
    (entries : AList fun _ : List Name => Node γ) (p : List Name) : Option (Node γ) :=
  if p = [] then some .dir else entries.lookup p

structure FileTree (Name : Type u) [DecidableEq Name] (γ : Type v) where
  entries : AList fun _ : List Name => Node γ
  rooted : ∀ p n, nodeAt entries (p ++ [n]) ≠ none → nodeAt entries p = some .dir

namespace FileTree

variable {Name : Type u} [DecidableEq Name] {γ : Type v} (t : FileTree Name γ)

def node (p : List Name) : Option (Node γ) := nodeAt t.entries p

@[simp] theorem node_root : t.node [] = some .dir := by simp [node, nodeAt]

variable {t} {p q : List Name} {n : Name}

/-! ### What is above, and what is below -/

theorem node_parent (h : t.node (p ++ [n]) ≠ none) : t.node p = some .dir := t.rooted p n h

/-- Above what there is, there are directories. -/
theorem node_above (h : t.node q ≠ none) (hpq : p <+: q) (hne : p ≠ q) : t.node p = some .dir := by
  obtain ⟨r, rfl⟩ := hpq
  induction r using List.reverseRecOn with
  | nil => exact absurd (List.append_nil p).symm hne
  | append_singleton r m ih =>
      rw [← List.append_assoc] at h
      have hdir := node_parent h
      cases r with
      | nil => rwa [List.append_nil] at hdir
      | cons a r =>
          refine ih ?_ ?_
          · rw [hdir]
            nofun
          · simp

/-- Below what is no directory, there is nothing. -/
theorem node_below (h : t.node p ≠ some .dir) (hpq : p <+: q) (hne : p ≠ q) : t.node q = none := by
  by_contra hsome
  exact h (node_above hsome hpq hne)

/-! ### Two edits -/

theorem nodeAt_insert {entries : AList fun _ : List Name => Node γ} (nd : Node γ) (hp : p ≠ []) :
    nodeAt (entries.insert p nd) q = if q = p then some nd else nodeAt entries q := by
  unfold nodeAt
  by_cases hq : q = []
  · rw [if_pos hq, if_pos hq, if_neg (hq ▸ Ne.symm hp)]
  rw [if_neg hq, if_neg hq]
  by_cases heq : q = p
  · subst heq
    rw [if_pos rfl, AList.lookup_insert]
  · rw [if_neg heq, AList.lookup_insert_ne heq]

theorem nodeAt_erase {entries : AList fun _ : List Name => Node γ} (hp : p ≠ []) :
    nodeAt (entries.erase p) q = if q = p then none else nodeAt entries q := by
  unfold nodeAt
  by_cases hq : q = []
  · rw [if_pos hq, if_pos hq, if_neg (hq ▸ Ne.symm hp)]
  rw [if_neg hq, if_neg hq]
  by_cases heq : q = p
  · subst heq
    rw [if_pos rfl, AList.lookup_erase]
  · rw [if_neg heq, AList.lookup_erase_ne heq]

theorem ne_root_of_node (h : t.node p ≠ some .dir) : p ≠ [] := by
  rintro rfl
  exact h t.node_root

/-- Put something in a directory, in the place of nothing or of a file. -/
def put (t : FileTree Name γ) (p : List Name) (nd : Node γ) (hparent : t.node p.dropLast = some .dir)
    (hfree : t.node p ≠ some .dir) : FileTree Name γ where
  entries := t.entries.insert p nd
  rooted := by
    have hp := ne_root_of_node hfree
    intro q n hn
    rw [nodeAt_insert nd hp] at hn ⊢
    by_cases heq : q ++ [n] = p
    · subst heq
      rw [List.dropLast_concat] at hparent
      rw [if_neg (by simp)]
      exact hparent
    · rw [if_neg heq] at hn
      have hdir := t.rooted q n hn
      have hne : q ≠ p := by
        rintro rfl
        exact hfree hdir
      rw [if_neg hne]
      exact hdir

@[simp] theorem node_put {nd : Node γ} (hparent : t.node p.dropLast = some .dir)
    (hfree : t.node p ≠ some .dir) :
    (t.put p nd hparent hfree).node q = if q = p then some nd else t.node q :=
  nodeAt_insert nd (ne_root_of_node hfree)

/-- Take away what has nothing below it. -/
def erase (t : FileTree Name γ) (p : List Name) (hleaf : ∀ n, t.node (p ++ [n]) = none) :
    FileTree Name γ where
  entries := if p = [] then t.entries else t.entries.erase p
  rooted := by
    intro q n hn
    by_cases hp : p = []
    · rw [if_pos hp] at hn ⊢
      exact t.rooted q n hn
    · rw [if_neg hp, nodeAt_erase hp] at hn ⊢
      have hne : q ++ [n] ≠ p := fun heq => hn (if_pos heq)
      rw [if_neg hne] at hn
      have hqp : q ≠ p := by
        rintro rfl
        exact hn (hleaf n)
      rw [if_neg hqp]
      exact t.rooted q n hn

@[simp] theorem node_erase (hp : p ≠ []) (hleaf : ∀ n, t.node (p ++ [n]) = none) :
    (t.erase p hleaf).node q = if q = p then none else t.node q := by
  unfold node erase
  simp only [if_neg hp]
  exact nodeAt_erase hp

theorem leaf_of_file {c : γ} (h : t.node p = some (.file c)) (n : Name) : t.node (p ++ [n]) = none := by
  refine node_below (p := p) ?_ (List.prefix_append p [n]) (by simp)
  rw [h]
  nofun

/-! ### What a directory holds -/

/-- The names in a directory, in some order. -/
def children (t : FileTree Name γ) (p : List Name) : List Name :=
  t.entries.keys.filterMap fun q => if q.dropLast = p then q.getLast? else none

theorem mem_children : n ∈ t.children p ↔ t.node (p ++ [n]) ≠ none := by
  have hkeys : t.node (p ++ [n]) ≠ none ↔ p ++ [n] ∈ t.entries.keys := by
    unfold node nodeAt
    rw [if_neg (by simp), ne_eq, AList.lookup_eq_none, not_not, AList.mem_keys]
  rw [hkeys]
  simp only [children, List.mem_filterMap]
  constructor
  · rintro ⟨q, hq, hlast⟩
    split at hlast
    next hparent =>
      obtain ⟨r, rfl⟩ : ∃ r, q = r ++ [n] := by
        rcases List.getLast?_eq_some_iff.1 hlast with ⟨r, hr⟩
        exact ⟨r, hr⟩
      rw [List.dropLast_concat] at hparent
      rwa [← hparent]
    next => cases hlast
  · intro hmem
    exact ⟨p ++ [n], hmem, by simp⟩

/-- What there is, is the root or has an entry. -/
theorem mem_keys_of_node (h : t.node p ≠ none) : p ∈ [] :: t.entries.keys := by
  by_cases hp : p = []
  · exact hp ▸ List.mem_cons_self ..
  · refine List.mem_cons_of_mem _ ?_
    by_contra hnot
    refine h ?_
    unfold node nodeAt
    rw [if_neg hp, AList.lookup_eq_none]
    exact hnot

/-- A tree is only so deep. -/
theorem exists_depth (t : FileTree Name γ) : ∃ depth, ∀ p, t.node p ≠ none → p.length ≤ depth :=
  ⟨([] :: t.entries.keys).toFinset.sup List.length, fun _ hp =>
    Finset.le_sup (f := List.length) (List.mem_toFinset.2 (mem_keys_of_node hp))⟩

theorem nodup_children (t : FileTree Name γ) (p : List Name) : (t.children p).Nodup := by
  refine List.Nodup.filterMap ?_ t.entries.keys_nodup
  intro q r n hq hr
  simp only [Option.mem_def] at hq hr
  split at hq
  next hqp =>
    split at hr
    next hrp =>
      obtain ⟨q', rfl⟩ := List.getLast?_eq_some_iff.1 hq
      obtain ⟨r', rfl⟩ := List.getLast?_eq_some_iff.1 hr
      rw [List.dropLast_concat] at hqp hrp
      rw [hqp, hrp]
    next => cases hr
  next => cases hq

/-! ### System calls -/

def lstat (t : FileTree Name γ) (p : List Name) : Except Errno (Node γ) :=
  match t.node p with
  | none => .error .noent
  | some nd => .ok nd

/-- `mkdir`, or `open` with `O_CREAT | O_EXCL`: what is made is never in the place of
something. -/
def make (t : FileTree Name γ) (p : List Name) (nd : Node γ) : Except Errno (FileTree Name γ) :=
  match hfree : t.node p with
  | some _ => .error .exist
  | none =>
      match hparent : t.node p.dropLast with
      | none => .error .noent
      | some (.file _) => .error .notdir
      | some .dir => .ok (t.put p nd hparent (by rw [hfree]; nofun))

def unlink (t : FileTree Name γ) (p : List Name) : Except Errno (FileTree Name γ) :=
  match h : t.node p with
  | none => .error .noent
  | some .dir => .error .isdir
  | some (.file _) => .ok (t.erase p (leaf_of_file h))

def rmdir (t : FileTree Name γ) (p : List Name) : Except Errno (FileTree Name γ) :=
  match t.node p with
  | none => .error .noent
  | some (.file _) => .error .notdir
  | some .dir =>
      if p = [] then .error .busy
      else if hleaf : t.children p = [] then
        .ok (t.erase p fun n => by
          by_contra hsome
          have hmem := mem_children.2 hsome
          rw [hleaf] at hmem
          cases hmem)
      else .error .notempty

theorem parent_of_file {c : γ} (h : t.node p = some (.file c)) : t.node p.dropLast = some .dir := by
  have hp : p ≠ [] := ne_root_of_node (by rw [h]; nofun)
  have hsome : t.node (p.dropLast ++ [p.getLast hp]) ≠ none := by
    rw [List.dropLast_append_getLast, h]
    nofun
  exact node_parent hsome

/-- `rename`, of a file. It takes the place of a file, without a question. Directories are not
renamed here. -/
def rename (t : FileTree Name γ) (p q : List Name) : Except Errno (FileTree Name γ) :=
  match h : t.node p with
  | none => .error .noent
  | some .dir => .error .isdir
  | some (.file c) =>
      if q = p then .ok t
      else
        match hq : t.node q with
        | some .dir => .error .isdir
        | none | some (.file _) =>
            match hparent : t.node q.dropLast with
            | none => .error .noent
            | some (.file _) => .error .notdir
            | some .dir =>
                .ok ((t.erase p (leaf_of_file h)).put q (.file c)
                  (by
                    rw [node_erase (ne_root_of_node (by rw [h]; nofun)), if_neg, hparent]
                    rintro heq
                    rw [heq, h] at hparent
                    cases hparent)
                  (by
                    rw [node_erase (ne_root_of_node (by rw [h]; nofun))]
                    split
                    · nofun
                    · rw [hq]
                      nofun))

/-- Change the content of a file, through a descriptor that is open on it. -/
def update (t : FileTree Name γ) (p : List Name) (f : γ → γ) : FileTree Name γ :=
  match h : t.node p with
  | some (.file c) => t.put p (.file (f c)) (parent_of_file h) (by rw [h]; nofun)
  | none | some .dir => t

/-! ### What they do -/

section Calls

variable {t' : FileTree Name γ} {nd : Node γ} {c : γ}

theorem make_ok (h : t.make p nd = .ok t') :
    t.node p = none ∧ t.node p.dropLast = some .dir ∧
    ∀ q, t'.node q = if q = p then some nd else t.node q := by
  unfold make at h
  split at h
  · cases h
  next hfree =>
  split at h
  · cases h
  · cases h
  next hparent =>
  cases h
  exact ⟨hfree, hparent, fun q => node_put hparent _⟩

theorem make_free (hfree : t.node p = none) (hparent : t.node p.dropLast = some .dir) :
    ∃ t', t.make p nd = .ok t' := by
  unfold make
  split
  next nd' hsome =>
    rw [hfree] at hsome
    cases hsome
  next =>
  split
  next hnone =>
    rw [hparent] at hnone
    cases hnone
  next hfile =>
    rw [hparent] at hfile
    cases hfile
  next => exact ⟨_, rfl⟩

theorem make_exist (h : t.node p ≠ none) : t.make p nd = .error .exist := by
  unfold make
  split
  · rfl
  next hfree => exact absurd hfree h

/-- It fails because of what is there only if something is. -/
theorem make_error_exist (h : t.make p nd = .error .exist) : t.node p ≠ none := by
  unfold make at h
  split at h
  next nd' hsome =>
    rw [hsome]
    nofun
  next =>
    split at h
    all_goals cases h

theorem unlink_ok (h : t.unlink p = .ok t') :
    (∃ c, t.node p = some (.file c)) ∧ ∀ q, t'.node q = if q = p then none else t.node q := by
  unfold unlink at h
  split at h
  · cases h
  · cases h
  next c hfile =>
  cases h
  exact ⟨⟨c, hfile⟩, fun q => node_erase (ne_root_of_node (by rw [hfile]; nofun)) _⟩

theorem unlink_file (h : t.node p = some (.file c)) : ∃ t', t.unlink p = .ok t' := by
  unfold unlink
  split
  next hnone =>
    rw [h] at hnone
    cases hnone
  next hdir =>
    rw [h] at hdir
    cases hdir
  next => exact ⟨_, rfl⟩

theorem rmdir_ok (h : t.rmdir p = .ok t') :
    t.node p = some .dir ∧ (∀ n, t.node (p ++ [n]) = none) ∧
    ∀ q, t'.node q = if q = p then none else t.node q := by
  unfold rmdir at h
  split at h
  · cases h
  · cases h
  next hdir =>
  split at h
  · cases h
  next hp =>
  split at h
  next hleaf =>
    cases h
    refine ⟨hdir, fun n => ?_, fun q => node_erase hp _⟩
    by_contra hsome
    have hmem := mem_children.2 hsome
    rw [hleaf] at hmem
    cases hmem
  next => cases h

theorem rmdir_leaf (hdir : t.node p = some .dir) (hp : p ≠ []) (hleaf : t.children p = []) :
    ∃ t', t.rmdir p = .ok t' := by
  unfold rmdir
  rw [hdir]
  simp only
  rw [if_neg hp, dif_pos hleaf]
  exact ⟨_, rfl⟩

theorem rename_ok {q : List Name} (h : t.rename p q = .ok t') :
    ∃ c, t.node p = some (.file c) ∧ (q = p ∧ t' = t ∨ q ≠ p ∧ t.node q ≠ some .dir ∧
      t.node q.dropLast = some .dir ∧
      ∀ r, t'.node r = if r = q then some (.file c) else if r = p then none else t.node r) := by
  unfold rename at h
  split at h
  · cases h
  · cases h
  next c hfile =>
  refine ⟨c, hfile, ?_⟩
  have hp : p ≠ [] := ne_root_of_node (by rw [hfile]; nofun)
  split at h
  next hsame =>
    cases h
    exact .inl ⟨hsame, rfl⟩
  next hne =>
  right
  split at h
  · cases h
  all_goals
    next hq =>
      split at h
      · cases h
      · cases h
      next hparent =>
      cases h
      refine ⟨hne, by rw [hq]; nofun, hparent, fun r => ?_⟩
      rw [node_put, node_erase hp]

theorem node_update {f : γ → γ} (h : t.node p = some (.file c)) :
    (t.update p f).node q = if q = p then some (.file (f c)) else t.node q := by
  unfold update
  split
  next c' hfile =>
    rw [node_put]
    rw [h] at hfile
    cases hfile
    rfl
  next hnone =>
    rw [h] at hnone
    cases hnone
  next hdir =>
    rw [h] at hdir
    cases hdir

theorem node_update_ne {f : γ → γ} (hq : q ≠ p) : (t.update p f).node q = t.node q := by
  unfold update
  split
  next => rw [node_put, if_neg hq]
  next => rfl
  next => rfl

theorem node_update_none {f : γ → γ} (hq : t.node q = none) : (t.update p f).node q = none := by
  unfold update
  split
  next c hfile =>
    rw [node_put, if_neg]
    · exact hq
    · rintro rfl
      cases hq.symm.trans hfile
  next => exact hq
  next => exact hq

end Calls

/-! ### Trees that are given -/

def empty : FileTree Name γ where
  entries := ∅
  rooted := by
    intro p n hn
    exact absurd (by simp [nodeAt]) hn

theorem node_empty : (empty : FileTree Name γ).node p = if p = [] then some .dir else none := by
  unfold node nodeAt empty
  rw [AList.lookup_empty]

/-- A tree from what is in it, the directories before what they hold. What cannot be made is
left out. -/
def ofEntries (given : List (List Name × Node γ)) : FileTree Name γ :=
  given.foldl (fun t e => (t.make e.1 e.2).toOption.getD t) empty

end FileTree

end Sshos.Lib
