import Mathlib.Data.List.Infix
import Mathlib.Data.List.Sort
import Sshos.Lib.Bytes
import Sshos.Shell.Modal

/-!
# Sshos.Apps.Dir

**Directories on display**: what is read of one, in which order it stands, what a filter keeps
of it. Paths are texts here, as they are written.
-/

namespace Sshos.Apps

open Sshos.Lib (Bytes)
open Sshos.Shell (text)

inductive EntryKind
  | dir | file | link | other
  deriving Repr, DecidableEq

structure DirEntry where
  name : Bytes := []
  kind : EntryKind := .file
  size : Nat := 0
  mtime : Nat := 0
  /-- A link that leads to a directory. -/
  linksToDir : Bool := false
  deriving Repr, DecidableEq

inductive SortBy
  | name | size | time
  deriving Repr, DecidableEq

/-- A directory that was read in one pass, or the reason why it could not be. -/
structure DirListing where
  path : Bytes := []
  entries : List DirEntry := []
  error : Bytes := []
  deriving Repr, DecidableEq

def kSlash : UInt8 := 0x2f

/-- `..` -/
def kParent : Bytes := [0x2e, 0x2e]

/-- The case of ASCII letters alone. -/
def fold (c : UInt8) : UInt8 := if 0x41 ≤ c ∧ c ≤ 0x5a then c - 0x41 + 0x61 else c

/-- A `char` is signed. -/
def charValue (c : UInt8) : Int := if c < 0x80 then c.toNat else c.toNat - 256

/-- Negative, zero or positive. -/
def compareFolded : Bytes → Bytes → Int
  | [], [] => 0
  | [], _ :: _ => -1
  | _ :: _, [] => 1
  | a :: as, b :: bs =>
      if fold a ≠ fold b then if charValue (fold a) < charValue (fold b) then -1 else 1
      else compareFolded as bs

def isDirLike (e : DirEntry) : Bool := e.kind = .dir ∨ e.linksToDir = true

/-- The slashes at the end of a path, which is given backwards; not the last byte of all. -/
def trimSlashes : Bytes → Bytes
  | c :: d :: rest => if c = kSlash then trimSlashes (d :: rest) else c :: d :: rest
  | p => p

def parentPath (path : Bytes) : Bytes :=
  match (trimSlashes path.reverse).dropWhile (· ≠ kSlash) with
  | [] | [_] => [kSlash]
  | _ :: rest => rest.reverse

def joinPath (dir name : Bytes) : Bytes :=
  if dir = [] then name
  else if dir.getLast? = some kSlash then dir ++ name
  else dir ++ kSlash :: name

/-! ### The order -/

/-- `..` first, then the directories, then the order that is asked; names settle what is left. -/
def before (sortBy : SortBy) (descending : Bool) (a b : DirEntry) : Bool :=
  let pa : Bool := a.name = kParent
  let pb : Bool := b.name = kParent
  if pa ≠ pb then pa
  else if isDirLike a ≠ isDirLike b then isDirLike a
  else if sortBy = .size ∧ a.size ≠ b.size then
    if descending then a.size > b.size else a.size < b.size
  else if sortBy = .time ∧ a.mtime ≠ b.mtime then
    if descending then a.mtime > b.mtime else a.mtime < b.mtime
  else
    let c := compareFolded a.name b.name
    if c ≠ 0 then if sortBy = .name ∧ descending then c > 0 else c < 0
    else if sortBy = .name ∧ descending then b.name < a.name else a.name < b.name

/-- What compares equal stays in the order it was in. -/
def sortEntries (entries : List DirEntry) (sortBy : SortBy) (descending : Bool) : List DirEntry :=
  entries.insertionSort fun a b => before sortBy descending b a = false

def filterEntries (entries : List DirEntry) (needle : Bytes) : List DirEntry :=
  if needle = [] then entries
  else entries.filter fun e => e.name = kParent ∨ needle.map fold <:+: e.name.map fold

theorem mem_sortEntries {entries : List DirEntry} {sortBy : SortBy} {descending : Bool} {e : DirEntry} :
    e ∈ sortEntries entries sortBy descending ↔ e ∈ entries :=
  (List.perm_insertionSort _ entries).mem_iff

theorem mem_filterEntries {entries : List DirEntry} {needle : Bytes} {e : DirEntry}
    (h : e ∈ filterEntries entries needle) : e ∈ entries := by
  unfold filterEntries at h
  split at h
  · exact h
  · exact List.mem_of_mem_filter h

/-! ### Reading -/

/-- What the system says of a directory: what is in it, or why it cannot be read. -/
abbrev Readdir := Bytes → Except Bytes (List DirEntry)

/-- `..` comes with every directory but the root. -/
def readDir (readdir : Readdir) (path : Bytes) (showHidden : Bool) : DirListing :=
  match readdir path with
  | .error reason => { path, error := text "lecture impossible : " ++ reason }
  | .ok raw =>
      let parent : List DirEntry := if path ≠ [kSlash] then [{ name := kParent, kind := .dir }] else []
      let kept := raw.filter fun e =>
        e.name ≠ [0x2e] ∧ e.name ≠ kParent ∧ (showHidden = true ∨ e.name.head? ≠ some 0x2e)
      { path, entries := sortEntries (parent ++ kept) .name false }

theorem readDir_path (readdir : Readdir) (path : Bytes) (showHidden : Bool) :
    (readDir readdir path showHidden).path = path := by
  unfold readDir
  split <;> rfl

end Sshos.Apps
