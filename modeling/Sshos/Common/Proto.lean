import Sshos.Lib.Bytes

/-!
# Sshos.Common.Proto

The **wire protocol** between client and daemon: the seven messages, `encode`,
and the incremental `Decoder` that reassembles them from a stream cut anywhere.

The decoder is modelled as the code has it: a buffer, the position up to which
it has been consumed, and a failure flag. What is unread is `buf` from `pos` on;
`compact` moves the buffer without changing what is unread. The `capacity` of
the underlying string decides one branch of `compact`, so it is part of the
state, and the allocator's growth policy is a parameter of every operation.
-/

namespace Sshos.Common

open Sshos.Lib (Bytes)

/-- Bumped at every incompatible protocol change, compared at the handshake. -/
def kBuildId : UInt32 := 1

/-! ### Messages -/

structure Hello where
  buildId : UInt32 := kBuildId
  cols : UInt16 := 0
  rows : UInt16 := 0
  term : Bytes := []
  colorterm : Bytes := []
  utf8 : Bool := false
  env : List (Bytes × Bytes) := []
  deriving DecidableEq

inductive Msg
  | hello (h : Hello)
  | welcome
  | incompatible (reason : Bytes)
  | detached (reason : Bytes)
  | input (bytes : Bytes)
  | resize (cols rows : UInt16)
  | frame (ansi : Bytes)
  deriving DecidableEq

/-- The message kinds as they travel: one byte at the front of the envelope. -/
inductive Tag
  | hello
  | welcome
  | incompatible
  | detached
  | input
  | resize
  | frame
  deriving DecidableEq

def Tag.toU8 : Tag → UInt8
  | hello => 1
  | welcome => 2
  | incompatible => 3
  | detached => 4
  | input => 5
  | resize => 6
  | frame => 7

/-- The tag a byte stands for, if this version knows it. -/
def Tag.ofU8 (b : UInt8) : Option Tag :=
  if b = 1 then some hello
  else if b = 2 then some welcome
  else if b = 3 then some incompatible
  else if b = 4 then some detached
  else if b = 5 then some input
  else if b = 6 then some resize
  else if b = 7 then some frame
  else none

@[simp] theorem Tag.ofU8_toU8 (t : Tag) : Tag.ofU8 t.toU8 = some t := by
  cases t <;> rfl

/-! ### Encoding -/

def putU8 (v : UInt8) : Bytes := [v]

def putU16 (v : UInt16) : Bytes :=
  putU8 (v >>> 8).toUInt8 ++ putU8 (v &&& 0xFF).toUInt8

def putU32 (v : UInt32) : Bytes :=
  putU16 (v >>> 16).toUInt16 ++ putU16 (v &&& 0xFFFF).toUInt16

/-- A string is its length on four bytes, then its bytes. -/
def putStr (s : Bytes) : Bytes := putU32 (UInt32.ofNat s.length) ++ s

@[simp] theorem length_putU8 (v : UInt8) : (putU8 v).length = 1 := rfl
@[simp] theorem length_putU16 (v : UInt16) : (putU16 v).length = 2 := rfl
@[simp] theorem length_putU32 (v : UInt32) : (putU32 v).length = 4 := rfl

@[simp] theorem length_putStr (s : Bytes) : (putStr s).length = 4 + s.length := by
  simp [putStr]

/-- The environment's entries, each as two strings. -/
def putEnv : List (Bytes × Bytes) → Bytes
  | [] => []
  | (k, v) :: env => putStr k ++ (putStr v ++ putEnv env)

/-- The body of a message and the tag it travels under. -/
def bodyOf : Msg → Tag × Bytes
  | .hello h =>
      (.hello, putU32 h.buildId ++ (putU16 h.cols ++ (putU16 h.rows ++ (putStr h.term ++
        (putStr h.colorterm ++ (putU8 (if h.utf8 then 1 else 0) ++
          (putU32 (UInt32.ofNat h.env.length) ++ putEnv h.env)))))))
  | .welcome => (.welcome, [])
  | .incompatible reason => (.incompatible, putStr reason)
  | .detached reason => (.detached, putStr reason)
  | .input bytes => (.input, putStr bytes)
  | .resize cols rows => (.resize, putU16 cols ++ putU16 rows)
  | .frame ansi => (.frame, putStr ansi)

/-- The envelope: one tag byte, the body's length on four bytes, the body. -/
def envelope (tag : UInt8) (body : Bytes) : Bytes :=
  putU8 tag ++ (putU32 (UInt32.ofNat body.length) ++ body)

def encode (m : Msg) : Bytes := envelope (bodyOf m).1.toU8 (bodyOf m).2

/-! ### Reading -/

/-- A cursor over a byte string, with a flag that a short read clears for good. -/
structure Reader where
  s : Bytes
  i : Nat := 0
  ok : Bool := true
  deriving DecidableEq

namespace Reader

def u8 (r : Reader) : UInt8 × Reader :=
  if h : r.i < r.s.length then (r.s[r.i], { r with i := r.i + 1 })
  else (0, { r with ok := false })

def u16 (r : Reader) : UInt16 × Reader :=
  let (hi, r) := r.u8
  let (lo, r) := r.u8
  ((hi.toUInt16 <<< 8) ||| lo.toUInt16, r)

def u32 (r : Reader) : UInt32 × Reader :=
  let (hi, r) := r.u16
  let (lo, r) := r.u16
  ((hi.toUInt32 <<< 16) ||| lo.toUInt32, r)

def str (r : Reader) : Bytes × Reader :=
  let (n, r) := r.u32
  if !r.ok || r.i + n.toNat > r.s.length then ([], { r with ok := false })
  else ((r.s.drop r.i).take n.toNat, { r with i := r.i + n.toNat })

/-- The loop over the environment: at most `n` entries, stopped by a short read. -/
def env : Nat → Reader → List (Bytes × Bytes) × Reader
  | 0, r => ([], r)
  | n + 1, r =>
      if r.ok then
        let (key, r) := r.str
        let (val, r) := r.str
        let (rest, r) := env n r
        ((key, val) :: rest, r)
      else ([], r)

end Reader

/-- Read the body of a known tag. The reader's flag and position afterwards say
whether the body was well formed. -/
def readBody (tag : Tag) (r : Reader) : Msg × Reader :=
  match tag with
  | .hello =>
      let (buildId, r) := r.u32
      let (cols, r) := r.u16
      let (rows, r) := r.u16
      let (term, r) := r.str
      let (colorterm, r) := r.str
      let (utf8, r) := r.u8
      let (n, r) := r.u32
      let (env, r) := r.env n.toNat
      (.hello { buildId, cols, rows, term, colorterm, utf8 := utf8 != 0, env }, r)
  | .welcome => (.welcome, r)
  | .incompatible => let (reason, r) := r.str; (.incompatible reason, r)
  | .detached => let (reason, r) := r.str; (.detached reason, r)
  | .input => let (bytes, r) := r.str; (.input bytes, r)
  | .resize => let (cols, r) := r.u16; let (rows, r) := r.u16; (.resize cols rows, r)
  | .frame => let (ansi, r) := r.str; (.frame ansi, r)

/-- The envelope at the front of `b`: its tag byte and the length it declares. -/
def readHead (b : Bytes) : UInt8 × UInt32 :=
  let (tag, r) := Reader.u8 { s := b }
  (tag, r.u32.1)

/-! ### The decoder -/

/-- Ceiling of one message's body. -/
def kMaxMessageBytes : Nat := 32 * 1024 * 1024

/-- Size of the envelope: one tag byte and four bytes of length. -/
def kHeaderSize : Nat := 5

/-- Ceiling of the unread part of the reassembly buffer. -/
def kMaxBufferBytes : Nat := kMaxMessageBytes + kHeaderSize + 1 * 1024 * 1024

/-- Capacity from which a drained buffer gives its memory back. -/
def kReleaseCapacityThreshold : Nat := kMaxBufferBytes

/-- Size below which the buffer is not worth moving. -/
def kCompactMinSize : Nat := 4096

/-- The incremental decoder. The position never runs past the buffer. -/
structure Decoder where
  buf : Bytes
  pos : Nat
  failed : Bool
  capacity : Nat
  pos_le : pos ≤ buf.length

namespace Decoder

/-- The bytes received and not consumed yet. -/
def unread (d : Decoder) : Bytes := d.buf.drop d.pos

theorem length_unread (d : Decoder) : d.unread.length = d.buf.length - d.pos := by
  simp [unread]

-- `alloc c n` is the capacity of a string of capacity `c` once it holds `n` bytes.
variable (alloc : Nat → Nat → Nat)

/-- A fresh decoder. -/
def init : Decoder where
  buf := []
  pos := 0
  failed := false
  capacity := alloc 0 0
  pos_le := Nat.le_refl 0

/-- The peer broke the protocol: nothing it sends is trusted any more. -/
def fail (_ : Decoder) : Decoder where
  buf := []
  pos := 0
  failed := true
  capacity := alloc 0 0
  pos_le := Nat.le_refl 0

/-- Drop the consumed head of the buffer when that is worth its cost: a drained
buffer of exploded capacity is released, otherwise the rest is moved down once
half of a large enough buffer has been consumed. -/
def compact (d : Decoder) : Decoder :=
  if d.pos = 0 then d
  else if d.pos = d.buf.length ∧ d.capacity ≥ kReleaseCapacityThreshold then
    { d with buf := [], pos := 0, capacity := alloc 0 0, pos_le := Nat.le_refl 0 }
  else if d.buf.length < kCompactMinSize ∨ d.pos * 2 < d.buf.length then d
  else { d with buf := d.buf.drop d.pos, pos := 0, pos_le := Nat.zero_le _ }

def feed (d : Decoder) (bytes : Bytes) : Decoder :=
  if d.failed then d
  else if bytes.isEmpty then d
  else if d.buf.length - d.pos + bytes.length > kMaxBufferBytes then d.fail alloc
  else
    { d with
      buf := d.buf ++ bytes
      capacity := alloc d.capacity (d.buf.length + bytes.length)
      pos_le := by rw [List.length_append]; exact Nat.le_add_right_of_le d.pos_le }

/-- `pos += n`, for an `n` the buffer has been seen to hold. -/
def advance (d : Decoder) (n : Nat) (h : n ≤ d.buf.length - d.pos) : Decoder :=
  { d with pos := d.pos + n, pos_le := by have := d.pos_le; omega }

@[simp] theorem unread_compact (d : Decoder) : (d.compact alloc).unread = d.unread := by
  unfold compact
  split
  · rfl
  · split
    · next h => simp [unread, h.1]
    · split <;> simp [unread]

@[simp] theorem failed_compact (d : Decoder) : (d.compact alloc).failed = d.failed := by
  unfold compact
  split
  · rfl
  · split
    · rfl
    · split <;> rfl

@[simp] theorem unread_advance (d : Decoder) (n : Nat) (h : n ≤ d.buf.length - d.pos) :
    (d.advance n h).unread = d.unread.drop n := by
  simp [unread, advance]

@[simp] theorem failed_advance (d : Decoder) (n : Nat) (h : n ≤ d.buf.length - d.pos) :
    (d.advance n h).failed = d.failed := rfl

/-- The next complete message, if one has arrived. Messages of unknown tag are
skipped; a known tag whose body lies about its own lengths, or does not fill the
envelope it declared, ends the stream. -/
def next (d : Decoder) : Option Msg × Decoder :=
  if d.failed then (none, d)
  else if _hhead : d.buf.length - d.pos < kHeaderSize then (none, d)
  else
    let (tag, len) := readHead d.unread
    let declared := kHeaderSize + len.toNat
    if len.toNat > kMaxMessageBytes then (none, d.fail alloc)
    else if hbody : d.buf.length - d.pos < declared then (none, d)
    else
      let d' := d.advance declared (Nat.le_of_not_lt hbody)
      match Tag.ofU8 tag with
      | none => next (d'.compact alloc)
      | some tag =>
          let (m, r) := readBody tag { s := (d.buf.drop (d.pos + kHeaderSize)).take len.toNat }
          if !r.ok || r.i != len.toNat then (none, d'.fail alloc)
          else (some m, d'.compact alloc)
termination_by d.unread.length
decreasing_by
  rw [unread_compact, unread_advance, List.length_drop, length_unread]
  unfold kHeaderSize at *
  omega

end Decoder

end Sshos.Common
