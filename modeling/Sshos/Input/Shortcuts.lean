import Sshos.Input.Parser

/-!
# Sshos.Input.Shortcuts

The **leader chord**: a leader key, then the key of a gesture. A gesture one repeats opens a
series, in which it is done again without the leader; any other key ends the series, and is
left to the application.
-/

namespace Sshos.Input

inductive Action
  | moveLeft | moveRight | moveUp | moveDown
  | growWidth | shrinkWidth | growHeight | shrinkHeight
  | snapLeft | snapRight | snapUp | snapDown
  | nextWindow | prevWindow
  | close | minimize | maximizeToggle | fullscreenToggle
  | openMenu | detach | forceRepaint | showHelp
  /-- The leader key typed twice: the application is given it. -/
  | literalLeader
  deriving DecidableEq

/-- Gestures one repeats. -/
def Action.isRepeatable : Action → Bool
  | .moveLeft | .moveRight | .moveUp | .moveDown
  | .growWidth | .shrinkWidth | .growHeight | .shrinkHeight
  | .nextWindow | .prevWindow => true
  | _ => false

inductive LeaderPhase
  | idle
  /-- The leader was just typed: the next key is a command. -/
  | armed
  /-- A gesture one repeats was just done. -/
  | repeating
  deriving DecidableEq

structure LeaderResult where
  consumed : Bool := false
  action : Option Action := none
  deriving DecidableEq

structure LeaderDispatch where
  leader : Nat := 'a'.toNat
  phase : LeaderPhase := .idle
  deriving DecidableEq

def kBindings : List (Nat × Action) :=
  [('h'.toNat, .moveLeft), ('l'.toNat, .moveRight), ('k'.toNat, .moveUp), ('j'.toNat, .moveDown),
    ('H'.toNat, .shrinkWidth), ('L'.toNat, .growWidth), ('K'.toNat, .shrinkHeight),
    ('J'.toNat, .growHeight), ('n'.toNat, .nextWindow), ('p'.toNat, .prevWindow),
    ('w'.toNat, .close), ('-'.toNat, .minimize), ('z'.toNat, .maximizeToggle),
    ('f'.toNat, .fullscreenToggle), (' '.toNat, .openMenu), ('r'.toNat, .forceRepaint),
    ('d'.toNat, .detach), ('?'.toNat, .showHelp)]

structure KeyBinding where
  key : Key
  shift : Bool
  ctrl : Bool
  action : Action

def kKeyBindings : List KeyBinding :=
  [⟨.left, false, false, .moveLeft⟩, ⟨.right, false, false, .moveRight⟩,
    ⟨.up, false, false, .moveUp⟩, ⟨.down, false, false, .moveDown⟩,
    ⟨.left, true, false, .shrinkWidth⟩, ⟨.right, true, false, .growWidth⟩,
    ⟨.up, true, false, .shrinkHeight⟩, ⟨.down, true, false, .growHeight⟩,
    ⟨.tab, false, false, .nextWindow⟩, ⟨.tab, true, false, .prevWindow⟩]

namespace LeaderDispatch

/-- The gesture of a key. Terminals name a shifted tab, or give it the modifier. -/
def lookup (k : KeyEvent) : Option Action :=
  if k.key ≠ .char then
    let key := if k.key = .backTab then .tab else k.key
    let shift := if k.key = .backTab then true else k.mods.shift
    (kKeyBindings.find? fun b => b.key = key ∧ b.shift = shift ∧ b.ctrl = k.mods.ctrl).map (·.action)
  else (kBindings.find? fun b => b.1 = k.ch).map (·.2)

variable (d : LeaderDispatch)

def isLeader (k : KeyEvent) : Bool := k.key = .char ∧ k.ch = d.leader ∧ k.mods.ctrl = true

def reset : LeaderDispatch := { d with phase := .idle }

def feed (k : KeyEvent) : LeaderResult × LeaderDispatch :=
  match d.phase with
  | .idle => if d.isLeader k then (⟨true, none⟩, { d with phase := .armed }) else (⟨false, none⟩, d)
  | .armed =>
      if d.isLeader k then (⟨true, some .literalLeader⟩, { d with phase := .idle })
      else
        let a := lookup k
        -- a key bound to nothing is taken all the same
        (⟨true, a⟩, { d with phase := if a.any Action.isRepeatable then .repeating else .idle })
  | .repeating =>
      if d.isLeader k then (⟨true, none⟩, { d with phase := .armed })
      else
        let a := lookup k
        if a.any Action.isRepeatable then (⟨true, a⟩, d) else (⟨false, none⟩, { d with phase := .idle })

@[simp] theorem feed_leader (k : KeyEvent) : (d.feed k).2.leader = d.leader := by
  unfold feed
  cases d.phase with
  | idle => simp only; split <;> rfl
  | armed => simp only; split <;> rfl
  | repeating =>
      simp only
      split
      · rfl
      · split <;> rfl

end LeaderDispatch

end Sshos.Input
