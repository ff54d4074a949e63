import Sshos.Lib.FileTree

/-!
# Sshos.Lib.Links

**Symbolic links** in a file tree: a leaf that says where to go on. A path as it is written
may cross some, and then leads elsewhere than where it is written; the system resolves it,
following only so many of them. The last name of a path is followed to open what is there,
not to look at it nor to remove it.
-/

namespace Sshos.Lib

universe u v

/-- A path as it is written; `none` stands for `..`. -/
abbrev Route (Name : Type u) := List (Option Name)

/-- What is not a directory. -/
inductive Leaf (Name : Type u) (γ : Type v)
  | file (content : γ)
  | link (absolute : Bool) (target : Route Name)
  deriving Repr, DecidableEq

abbrev LinkTree (Name : Type u) [DecidableEq Name] (γ : Type v) := FileTree Name (Leaf Name γ)

/-- Too many links. -/
def eloop : Errno := .fault 40

namespace LinkTree

variable {Name : Type u} [DecidableEq Name] {γ : Type v}

/-- Where a path leads from a directory, and how many links may still be followed: up to the
first link, which is left to `jump`. -/
def walk (t : LinkTree Name γ) (left : Nat)
    (jump : List Name → Route Name → Except Errno (List Name × Nat)) :
    List Name → Route Name → Except Errno (List Name × Nat)
  | dir, [] => .ok (dir, left)
  | dir, none :: rest => walk t left jump dir.dropLast rest
  | dir, some n :: rest =>
      match t.node (dir ++ [n]) with
      | none => .error .noent
      | some .dir => walk t left jump (dir ++ [n]) rest
      | some (.file (.file _)) => .error .notdir
      | some (.file (.link absolute target)) => jump (if absolute then [] else dir) (target ++ rest)

/-- The directory a path leads to. -/
def follow (t : LinkTree Name γ) : Nat → List Name → Route Name → Except Errno (List Name × Nat)
  | 0 => walk t 0 fun _ _ => .error eloop
  | left + 1 => walk t (left + 1) (follow t left)

/-- The place of a path in the tree, its last name not being followed. -/
def locate (t : LinkTree Name γ) (left : Nat) (p : Route Name) : Except Errno (List Name) :=
  match p.getLast? with
  | some (some n) => (follow t left [] p.dropLast).map fun r => r.1 ++ [n]
  | _ => (follow t left [] p).map (·.1)

variable {t t' : LinkTree Name γ} {left : Nat} {dir : List Name} {p q : Route Name} {n : Name}

/-! ### How a path is followed -/

theorem follow_nil : follow t left dir [] = .ok (dir, left) := by
  cases left <;> rfl

theorem follow_up : follow t left dir (none :: p) = follow t left dir.dropLast p := by
  cases left <;> rfl

theorem follow_dir (h : t.node (dir ++ [n]) = some .dir) :
    follow t left dir (some n :: p) = follow t left (dir ++ [n]) p := by
  cases left <;> simp only [follow, walk, h]

theorem follow_link {absolute : Bool} {target : Route Name}
    (h : t.node (dir ++ [n]) = some (.file (.link absolute target))) :
    follow t (left + 1) dir (some n :: p) =
      follow t left (if absolute then [] else dir) (target ++ p) := by
  simp only [follow, walk, h]

/-- Induction along a path, up to the first link. -/
theorem walk_induction {jump : List Name → Route Name → Except Errno (List Name × Nat)}
    {P : List Name → Route Name → List Name × Nat → Prop} (hnil : ∀ dir, P dir [] (dir, left))
    (hup : ∀ dir p r, P dir.dropLast p r → P dir (none :: p) r)
    (hdir : ∀ dir n p r, t.node (dir ++ [n]) = some .dir → P (dir ++ [n]) p r → P dir (some n :: p) r)
    (hjump : ∀ dir n p r absolute target, t.node (dir ++ [n]) = some (.file (.link absolute target)) →
      jump (if absolute then [] else dir) (target ++ p) = .ok r → P dir (some n :: p) r)
    {r : List Name × Nat} (h : walk t left jump dir p = .ok r) : P dir p r := by
  induction p generalizing dir with
  | nil =>
      cases h
      exact hnil dir
  | cons c p ih =>
      cases c with
      | none => exact hup dir p r (ih h)
      | some n =>
          unfold walk at h
          cases hnode : t.node (dir ++ [n]) with
          | none =>
              rw [hnode] at h
              cases h
          | some nd =>
              rw [hnode] at h
              cases nd with
              | dir => exact hdir dir n p r hnode (ih h)
              | file leaf =>
                  cases leaf with
                  | file c => cases h
                  | link absolute target => exact hjump dir n p r absolute target hnode h

/-- **Induction along a path**: what holds at its end, and goes back over `..`, a directory or a
link, holds of every path that is followed to its end. -/
theorem follow_induction {P : Nat → List Name → Route Name → List Name × Nat → Prop}
    (hnil : ∀ left dir, P left dir [] (dir, left))
    (hup : ∀ left dir p r, P left dir.dropLast p r → P left dir (none :: p) r)
    (hdir : ∀ left dir n p r, t.node (dir ++ [n]) = some .dir → P left (dir ++ [n]) p r →
      P left dir (some n :: p) r)
    (hlink : ∀ left dir n p r absolute target,
      t.node (dir ++ [n]) = some (.file (.link absolute target)) →
      P left (if absolute then [] else dir) (target ++ p) r → P (left + 1) dir (some n :: p) r)
    {r : List Name × Nat} (h : follow t left dir p = .ok r) : P left dir p r := by
  induction left generalizing dir p r with
  | zero =>
      refine walk_induction (P := P 0) (hnil 0) (hup 0) (hdir 0) ?_ h
      intro _ _ _ _ _ _ _ hjump
      cases hjump
  | succ left ih =>
      refine walk_induction (P := P (left + 1)) (hnil _) (hup _) (hdir _) ?_ h
      intro dir n p r absolute target hnode hjump
      exact hlink left dir n p r absolute target hnode (ih hjump)

/-! ### Where it leads -/

/-- A path leads to a directory. -/
theorem node_follow {r : List Name × Nat} (h : follow t left dir p = .ok r)
    (hdir : t.node dir = some .dir) : t.node r.1 = some .dir := by
  have hfollowed := follow_induction (t := t)
    (P := fun _ dir _ r => t.node dir = some .dir → t.node r.1 = some .dir)
    (fun _ _ hd => hd) ?_ (fun _ _ _ _ _ hnode ih _ => ih hnode) ?_ h
  · exact hfollowed hdir
  · intro _ dir _ _ ih hd
    refine ih ?_
    by_cases hroot : dir = []
    · rw [hroot]
      exact t.node_root
    · refine FileTree.node_parent (n := dir.getLast hroot) ?_
      rw [List.dropLast_append_getLast, hd]
      nofun
  · intro _ dir _ _ _ absolute _ _ ih hd
    refine ih ?_
    cases absolute
    · exact hd
    · exact t.node_root

/-- What has been followed may be forgotten. -/
theorem follow_append {r : List Name × Nat} (h : follow t left dir p = .ok r) :
    follow t left dir (p ++ q) = follow t r.2 r.1 q := by
  refine follow_induction (t := t) (P := fun left dir p r => follow t left dir (p ++ q) = follow t r.2 r.1 q)
    (fun _ _ => rfl) ?_ ?_ ?_ h
  · intro left dir p r ih
    exact follow_up.trans ih
  · intro left dir n p r hnode ih
    exact (follow_dir hnode).trans ih
  · intro left dir n p r absolute target hnode ih
    refine (follow_link hnode).trans ?_
    rw [List.append_assoc] at ih
    exact ih

/-- The beginning of a path that is followed is followed. -/
theorem follow_of_append {r : List Name × Nat} (h : follow t left dir (p ++ q) = .ok r) :
    ∃ r', follow t left dir p = .ok r' := by
  generalize hpq : p ++ q = pq at h
  refine follow_induction (t := t)
    (P := fun left dir pq _ => ∀ p q, p ++ q = pq → ∃ r', follow t left dir p = .ok r') ?_ ?_ ?_ ?_ h p q hpq
  · intro left dir p q hpq
    rw [(List.append_eq_nil_iff.1 hpq).1]
    exact ⟨_, follow_nil⟩
  · intro left dir rest r ih p q hpq
    cases p with
    | nil => exact ⟨_, follow_nil⟩
    | cons c p =>
        obtain ⟨rfl, hrest⟩ := List.cons.inj hpq
        rw [follow_up]
        exact ih p q hrest
  · intro left dir n rest r hnode ih p q hpq
    cases p with
    | nil => exact ⟨_, follow_nil⟩
    | cons c p =>
        obtain ⟨rfl, hrest⟩ := List.cons.inj hpq
        rw [follow_dir hnode]
        exact ih p q hrest
  · intro left dir n rest r absolute target hnode ih p q hpq
    cases p with
    | nil => exact ⟨_, follow_nil⟩
    | cons c p =>
        obtain ⟨rfl, hrest⟩ := List.cons.inj hpq
        rw [follow_link hnode]
        exact ih (target ++ p) q ((List.append_assoc ..).trans (congrArg (target ++ ·) hrest))

/-- Names of directories lead where they are written. -/
theorem follow_names {names : List Name} (h : t.node (dir ++ names) = some .dir) :
    follow t left dir (names.map some) = .ok (dir ++ names, left) := by
  induction names generalizing dir with
  | nil => rw [List.append_nil]; exact follow_nil
  | cons n names ih =>
      have hone : t.node (dir ++ [n]) = some .dir := by
        by_cases hlast : names = []
        · rw [hlast] at h
          exact h
        · refine FileTree.node_above (q := dir ++ n :: names) (by rw [h]; nofun) ⟨names, by simp⟩ ?_
          simpa using Ne.symm hlast
      rw [List.map_cons, follow_dir hone, ih (by simpa using h), List.append_assoc]
      rfl

/-! ### While things are removed -/

/-- Of what was in `t`, some is left. -/
def Within (t' t : LinkTree Name γ) : Prop := ∀ q, t'.node q = none ∨ t'.node q = t.node q

/-- A path that is still followed leads where it led. -/
theorem follow_within (hwithin : Within t' t) {r : List Name × Nat}
    (h : follow t' left dir p = .ok r) : follow t left dir p = .ok r := by
  have hsame : ∀ {q nd}, t'.node q = some nd → t.node q = some nd := by
    intro q nd hq
    rcases hwithin q with hnone | heq
    · rw [hnone] at hq
      cases hq
    · rw [← heq]
      exact hq
  refine follow_induction (t := t') (P := fun left dir p r => follow t left dir p = .ok r) ?_ ?_ ?_ ?_ h
  · exact fun _ _ => follow_nil
  · intro left dir p r ih
    exact follow_up.trans ih
  · intro left dir n p r hnode ih
    exact (follow_dir (hsame hnode)).trans ih
  · intro left dir n p r absolute target hnode ih
    exact (follow_link (hsame hnode)).trans ih

end LinkTree

end Sshos.Lib
