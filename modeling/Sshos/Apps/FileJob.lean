import Sshos.Lib.Bytes
import Sshos.Lib.FileTree

/-!
# Sshos.Apps.FileJob

The **file job**: copies, moves and removals of whole trees, one step at a time, so that the
daemon never waits. A directory is walked when its turn comes, and what it holds goes on a
stack; a file is copied a slice at a time, with its two descriptors kept in between.

The disk stands beside the job. What it answers besides what the tree says, a fault, a short
read, the order of a listing, comes with each step. Nobody else writes to it.
-/

namespace Sshos.Apps

open Sshos.Lib (Bytes Errno FileTree Node)

abbrev Path := List Bytes
abbrev Tree := FileTree Bytes Bytes

inductive FileOp
  | copy | move | delete
  deriving Repr, DecidableEq

/-- One thing to treat. -/
structure Item where
  /-- `from` and `to`, which are words of Lean. -/
  src : Path
  dst : Path
  /-- Its content has gone, only the directory is left. -/
  rmdirOnly : Bool := false
  deriving Repr, DecidableEq

/-- The file that is copied, and how much of it has been read. -/
structure Copying where
  src : Path
  dst : Path
  offset : Nat := 0
  deriving Repr, DecidableEq

structure FileJob where
  active : Bool := false
  kind : FileOp := .copy
  /-- The top of the stack first. -/
  pending : List Item := []
  copying : Option Copying := none
  done : Nat := 0
  failed : Nat := 0
  /-- The first failure: a name, and what the system said. -/
  error : Option (Bytes × Errno) := none
  deriving Repr, DecidableEq

/-- One `read`, which may be short or fail, and the writes of what it gave, which may fail
after some bytes. -/
structure Chunk where
  read : Option Nat := none
  size : Nat := 64 * 1024
  write : Option (Nat × Nat) := none

/-- What the system answers during a step, besides what the tree says. -/
structure Answers where
  lstat : Option Nat := none
  mkdir : Option Nat := none
  opendir : Option Nat := none
  /-- The order in which a directory is read. -/
  listing : List Bytes := []
  rename : Option Nat := none
  openIn : Option Nat := none
  openOut : Option Nat := none
  chunks : List Chunk := []
  /-- How many bytes are lost when the copy is closed. -/
  loses : Nat := 0

/-- The disk and the job that works on it. What comes after the job is kept for the proofs
alone. -/
structure Disk where
  tree : Tree
  job : FileJob := {}
  /-- Every tree there has been, the latest first. -/
  past : List Tree := []
  /-- What the job has made: a directory, or a file that is to be the copy of one. -/
  made : List (Path × Node Bytes) := []
  /-- The entries that were read from directories. -/
  listed : List Path := []
  takes : Nat := 0

def kChunk : Nat := 64 * 1024

/-- `base_name`: no name for the root. -/
def baseName (p : Path) : Bytes := p.getLast?.getD []

/-- Where a source goes: `join_path(dest, base_name(src))`. -/
def target (dest src : Path) : Path := dest ++ src.getLast?.toList

def orFault {α : Type} (fault : Option Nat) (r : Except Errno α) : Except Errno α :=
  match fault with
  | some code => .error (.fault code)
  | none => r

theorem orFault_ok {α : Type} {fault : Option Nat} {r : Except Errno α} {x : α}
    (h : orFault fault r = .ok x) : r = .ok x := by
  unfold orFault at h
  split at h
  · cases h
  · exact h

theorem orFault_exist {α : Type} {fault : Option Nat} {r : Except Errno α}
    (h : orFault fault r = .error .exist) : r = .error .exist := by
  unfold orFault at h
  split at h
  · cases h
  · exact h

namespace Disk

variable (d : Disk)

/-! ### What a step is made of -/

/-- The tree is changed. -/
def commit (t : Tree) : Disk := { d with tree := t, past := t :: d.past }

def record (p : Path) (nd : Node Bytes) : Disk := { d with made := (p, nd) :: d.made }

def pop (rest : List Item) : Disk :=
  { d with takes := d.takes + 1, job := { d.job with pending := rest } }

def push (items : List Item) : Disk :=
  { d with job := { d.job with pending := items ++ d.job.pending } }

/-- `++done_`. -/
def count : Disk := { d with job := { d.job with done := d.job.done + 1 } }

def fail (p : Path) (e : Errno) : Disk :=
  { d with job :=
    { d.job with failed := d.job.failed + 1, error := d.job.error <|> some (baseName p, e) } }

/-- `unlink`, whose result is not looked at. -/
def unlink (p : Path) : Disk :=
  match d.tree.unlink p with
  | .ok t => d.commit t
  | .error _ => d

def close : Disk := { d with job := { d.job with copying := none } }

def content (p : Path) : Bytes :=
  match d.tree.node p with
  | some (.file c) => c
  | _ => []

/-- The names in a directory, in the order the system gives them. -/
def readdir (p : Path) (listing : List Bytes) : List Bytes :=
  if listing.Perm (d.tree.children p) then listing else d.tree.children p

/-! ### The job -/

def cancel : Disk := { d with job := { kind := d.job.kind } }

def start (sources : List Path) (dest : Path) (kind : FileOp) : Disk :=
  let d := d.cancel
  { d with job :=
    { d.job with
      kind := kind
      pending := sources.map fun s =>
        { src := s, dst := if kind = .delete then [] else target dest s }
      active := !sources.isEmpty } }

/-- A move is a copy and a removal, once the copy has been made. -/
def finishCurrent (loses : Nat) : Disk :=
  match d.job.copying with
  | none => d
  | some c =>
      let d := if loses > 0 then d.commit (d.tree.update c.dst fun b => b.take (b.length - loses)) else d
      let d := if d.job.kind = .move then d.unlink c.src else d
      d.close.count

/-- What is incomplete does not stay. -/
def abandon (e : Errno) : Disk :=
  match d.job.copying with
  | none => d
  | some c => ((d.fail c.src e).unlink c.dst).close

/-- The content of a directory has gone. -/
def takeMarker (it : Item) : Disk :=
  match d.tree.rmdir it.src with
  | .error e => d.fail it.src e
  | .ok t => if d.job.kind = .delete then (d.commit t).count else d.commit t

/-- `mkdir`, but not to remove. A name that is taken is not a failure. -/
def makeDir (a : Answers) (it : Item) : Except Errno Disk :=
  if d.job.kind = .delete then .ok d
  else
    match orFault a.mkdir (d.tree.make it.dst .dir) with
    | .ok t => .ok ((d.commit t).record it.dst .dir)
    | .error .exist => .ok d
    | .error e => .error e

/-- What a directory holds goes on the stack, over the mark of its own removal. -/
def walk (a : Answers) (it : Item) : Disk :=
  let d := if d.job.kind = .copy then d else d.push [{ src := it.src, dst := [], rmdirOnly := true }]
  match a.opendir with
  | some code => d.fail it.src (.fault code)
  | none =>
      let names := d.readdir it.src a.listing
      let items := names.map fun n =>
        { src := it.src ++ [n], dst := if d.job.kind = .delete then [] else it.dst ++ [n] : Item }
      let d : Disk := { d.push items.reverse with listed := names.map (it.src ++ [·]) ++ d.listed }
      if d.job.kind = .delete then d else d.count

def takeDir (a : Answers) (it : Item) : Disk :=
  match d.makeDir a it with
  | .error e => d.fail it.src e
  | .ok d => d.walk a it

/-- A file is renamed if it can be, and copied otherwise: into a new file, never over one. -/
def takeFile (a : Answers) (it : Item) (c : Bytes) : Disk :=
  if d.job.kind = .delete then
    match d.tree.unlink it.src with
    | .error e => d.fail it.src e
    | .ok t => (d.commit t).count
  else
    let renamed : Option Tree :=
      if d.job.kind = .move then (orFault a.rename (d.tree.rename it.src it.dst)).toOption else none
    match renamed with
    | some t =>
        let d := d.commit t
        (if it.dst = it.src then d else d.record it.dst (.file c)).count
    | none =>
        match a.openIn with
        | some code => d.fail it.src (.fault code)
        | none =>
            match orFault a.openOut (d.tree.make it.dst (.file [])) with
            | .error e => d.fail it.dst e
            | .ok t =>
                let d := (d.commit t).record it.dst (.file c)
                { d with job := { d.job with copying := some { src := it.src, dst := it.dst } } }

/-- One thing of the stack. -/
def takeNext (a : Answers) : Disk :=
  match d.job.pending with
  | [] => { d with takes := d.takes + 1 }
  | it :: rest =>
      let d := d.pop rest
      if it.rmdirOnly then d.takeMarker it
      else
        match orFault a.lstat (d.tree.lstat it.src) with
        | .error e => d.fail it.src e
        | .ok .dir => d.takeDir a it
        | .ok (.file c) => d.takeFile a it c

/-- Bytes that were read are written. -/
def append (c : Copying) (data : Bytes) : Disk :=
  let d := d.commit (d.tree.update c.dst (· ++ data))
  { d with job := { d.job with copying := some { c with offset := c.offset + data.length } } }

/-- A slice of a file: chunks, until `left` bytes are copied, or there are no more. -/
def copySlice (loses : Nat) : (fuel : Nat) → (left : Nat) → List Chunk → Disk → Disk
  | 0, _, _, d => d
  | fuel + 1, left, chunks, d =>
      match d.job.copying with
      | none => d
      | some c =>
          if left = 0 then d
          else
            let chunk := chunks.headD {}
            match chunk.read with
            | some code => d.abandon (.fault code)
            | none =>
                let data := ((d.content c.src).drop c.offset).take
                  (min (min kChunk left) (max 1 chunk.size))
                if data = [] then d.finishCurrent loses
                else
                  match chunk.write with
                  | some (n, code) => (d.append c (data.take n)).abandon (.fault code)
                  | none => copySlice loses fuel (left - data.length) chunks.tail (d.append c data)

def step (budget : Nat) (a : Answers) : Disk :=
  if d.job.active then
    match d.job.copying with
    | some _ => copySlice a.loses budget budget a.chunks d
    | none =>
        match d.job.pending with
        | [] =>
            let d := d.takeNext a
            { d with job := { d.job with active := false } }
        | _ :: _ => copySlice a.loses budget budget a.chunks (d.takeNext a)
  else d

/-- What may be asked of a job. -/
inductive Act
  | start (sources : List Path) (dest : Path) (kind : FileOp)
  | step (budget : Nat) (a : Answers)
  | cancel

def act : Act → Disk
  | .start sources dest kind => d.start sources dest kind
  | .step budget a => d.step budget a
  | .cancel => d.cancel

end Disk

/-! ### Who starts them -/

/-- What is under the pointer when files are dropped: the parent, or a directory. -/
inductive Over
  | parent
  | directory (name : Bytes)

/-- Where files that are dropped go, if anywhere. -/
def dropTarget (here : Path) (hit : Option Over) (sources : List Path) : Option Path :=
  match hit with
  | some .parent => some here.dropLast
  | some (.directory name) =>
      if here ++ [name] ∈ sources then none else some (here ++ [name])
  | none => if sources.any fun s => s.dropLast = here then none else some here

namespace Disk

variable (d : Disk)

def drop (sources : List Path) (here : Path) (hit : Option Over) : Disk :=
  match dropTarget here hit sources with
  | none => d
  | some dest => if d.job.active then d else d.start sources dest .move

def pasteClipboard (clipboard : List Path) (cut : Bool) (here : Path) : Disk :=
  if d.job.active then d
  else if clipboard = [] then d
  else d.start clipboard here (if cut then .move else .copy)

end Disk

end Sshos.Apps
