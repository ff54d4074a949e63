import Sshos.Apps.FileJob
import Sshos.Lib.Links
import Sshos.Lib.Run

/-!
# Sshos.Apps.FileJobDelete

**The removals of a file job**, in a tree that has symbolic links. What is to be removed is
named by paths, which the system resolves at every call; the directory on display may itself
be reached through links.
-/

namespace Sshos.Apps

open Sshos.Lib (Bytes Errno FileTree Leaf LinkTree Node Route)
open Sshos.Lib.LinkTree (follow locate)

/-- One thing to remove. -/
structure Victim where
  src : Route Bytes
  /-- Its content has gone, only the directory is left. -/
  rmdirOnly : Bool := false
  deriving Repr, DecidableEq

/-- What the system answers during a step, besides what the tree says. -/
structure Refusals where
  lstat : Option Nat := none
  unlink : Option Nat := none
  rmdir : Option Nat := none
  opendir : Option Nat := none
  /-- The order in which a directory is read. -/
  listing : List Bytes := []

/-- The disk and the job that removes. What comes after the job is kept for the proofs alone. -/
structure Removal where
  tree : LinkTree Bytes Bytes
  active : Bool := false
  /-- The top of the stack first. -/
  pending : List Victim := []
  done : Nat := 0
  failed : Nat := 0
  /-- The first failure: a name, and what the system said. -/
  error : Option (Bytes × Errno) := none
  /-- What was removed, the latest first: the path it was named by, and its place. -/
  removed : List (Route Bytes × List Bytes) := []
  /-- The directories that were opened. -/
  entered : List (Route Bytes × List Bytes) := []

/-- How many links the system follows. -/
def kMaxSymlinks : Nat := 40

/-- The last name of a path. -/
def routeName (p : Route Bytes) : Bytes :=
  match p.getLast? with
  | some (some n) => n
  | some none => [0x2e, 0x2e]
  | none => []

namespace Removal

variable (d : Removal)

/-! ### System calls -/

def lstat (t : LinkTree Bytes Bytes) (p : Route Bytes) : Except Errno (Node (Leaf Bytes Bytes)) := do
  let q ← locate t kMaxSymlinks p
  t.lstat q

/-- The place that is freed, and the tree then. -/
def unlink (t : LinkTree Bytes Bytes) (p : Route Bytes) : Except Errno (List Bytes × LinkTree Bytes Bytes) := do
  let q ← locate t kMaxSymlinks p
  let t' ← t.unlink q
  return (q, t')

def rmdir (t : LinkTree Bytes Bytes) (p : Route Bytes) : Except Errno (List Bytes × LinkTree Bytes Bytes) := do
  let q ← locate t kMaxSymlinks p
  let t' ← t.rmdir q
  return (q, t')

/-- The directory that is opened: a link is followed. -/
def opendir (t : LinkTree Bytes Bytes) (p : Route Bytes) : Except Errno (List Bytes) :=
  (follow t kMaxSymlinks [] p).map (·.1)

/-- The names in a directory, in the order the system gives them. -/
def readdir (t : LinkTree Bytes Bytes) (q : List Bytes) (listing : List Bytes) : List Bytes :=
  if listing.Perm (t.children q) then listing else t.children q

/-! ### The job -/

def fail (p : Route Bytes) (e : Errno) : Removal :=
  { d with failed := d.failed + 1, error := d.error <|> some (routeName p, e) }

def pop (rest : List Victim) : Removal := { d with pending := rest }

/-- Something has been removed. -/
def gone (p : Route Bytes) (r : List Bytes × LinkTree Bytes Bytes) : Removal :=
  { d with tree := r.2, removed := (p, r.1) :: d.removed, done := d.done + 1 }

def cancel : Removal := { d with active := false, pending := [], done := 0, failed := 0, error := none }

/-- Entries of the directory on display are to be removed. -/
def start (place : Route Bytes) (names : List Bytes) : Removal :=
  let d := d.cancel
  { d with pending := names.map fun n => { src := place ++ [some n] }, active := !names.isEmpty }

/-- The mark of a removal goes on the stack, under what the directory holds. -/
def takeDir (a : Refusals) (it : Victim) : Removal :=
  let d := { d with pending := { src := it.src, rmdirOnly := true } :: d.pending }
  match orFault a.opendir (opendir d.tree it.src) with
  | .error e => d.fail it.src e
  | .ok q =>
      let names := readdir d.tree q a.listing
      { d with
        entered := (it.src, q) :: d.entered
        pending := (names.map fun n => ({ src := it.src ++ [some n] } : Victim)).reverse ++ d.pending }

/-- One thing of the stack. -/
def takeNext (a : Refusals) : Removal :=
  match d.pending with
  | [] => d
  | it :: rest =>
      let d := d.pop rest
      if it.rmdirOnly then
        match orFault a.rmdir (rmdir d.tree it.src) with
        | .error e => d.fail it.src e
        | .ok r => d.gone it.src r
      else
        match orFault a.lstat (lstat d.tree it.src) with
        | .error e => d.fail it.src e
        | .ok .dir => d.takeDir a it
        | .ok (.file _) =>
            match orFault a.unlink (unlink d.tree it.src) with
            | .error e => d.fail it.src e
            | .ok r => d.gone it.src r

def step (a : Refusals) : Removal :=
  if d.active then
    match d.pending with
    | [] => { d with active := false }
    | _ :: _ => d.takeNext a
  else d

inductive Act
  | step (a : Refusals)
  | cancel

def act : Act → Removal
  | .step a => d.step a
  | .cancel => d.cancel

end Removal

end Sshos.Apps
