import Mathlib.Data.List.Basic
import Mathlib.Tactic.Common
import Sshos.Input.Framing
import Sshos.Lib.Lines
import Sshos.Lib.Lists

/-!
# Sshos.Apps.TextBuffer

The **text that is edited**: its lines, of which there is always one, and whether the file ended
with a newline. Places are a line and a byte of it.

An edit is told here by what stands before a place and what stands after it, the newlines
between the lines included.
-/

namespace Sshos.Apps

open Sshos.Input (findFrom)
open Sshos.Lib (Bytes unlines)

def kNewline : UInt8 := 0x0A

structure TextPos where
  line : Nat := 0
  col : Nat := 0
  deriving Repr, DecidableEq

structure TextBuffer where
  lines : List Bytes := [[]]
  modified : Bool := false
  trailingNewline : Bool := true
  filled : lines ≠ [] := by decide
  deriving DecidableEq

namespace TextBuffer

/-- A newline at the end opens no line, and its absence is remembered. -/
def load (text : Bytes) : TextBuffer where
  lines := if text = [] then [[]] else Lib.lines kNewline text
  modified := false
  trailingNewline := text = [] ∨ text.getLast? = some kNewline
  filled := by
    split
    · exact List.cons_ne_nil _ _
    next htext => exact mt Lib.lines_eq_nil_iff.1 htext

variable (b : TextBuffer)

/-- What is written to the file. -/
def text : Bytes :=
  [kNewline].intercalate b.lines ++ (if b.trailingNewline then [kNewline] else [])

def lineCount : Nat := b.lines.length

def line (i : Nat) : Bytes := b.lines.getD i []

def markSaved : TextBuffer := { b with modified := false }

def clamp (p : TextPos) : TextPos :=
  let p := if p.line ≥ b.lineCount then { p with line := b.lineCount - 1 } else p
  if p.col > (b.line p.line).length then { p with col := (b.line p.line).length } else p

/-- The lines after an edit. -/
def edited (lines : List Bytes) (filled : lines ≠ []) : TextBuffer :=
  { b with lines, modified := true, filled }

theorem lineCount_pos : 0 < b.lineCount := List.length_pos_iff.2 b.filled

theorem clamp_line (p : TextPos) : (b.clamp p).line = min p.line (b.lineCount - 1) := by
  have hclamp : (b.clamp p).line = if p.line ≥ b.lineCount then b.lineCount - 1 else p.line := by
    unfold clamp
    simp only
    split <;> split <;> rfl
  rw [hclamp]
  split <;> omega

theorem clamp_line_lt (p : TextPos) : (b.clamp p).line < b.lineCount := by
  have hpos := b.lineCount_pos
  rw [clamp_line]
  omega

theorem set_ne_nil (i : Nat) (l : Bytes) : b.lines.set i l ≠ [] :=
  mt (List.set_eq_nil_iff ..).1 b.filled

theorem insertIdx_ne_nil {i : Nat} (hi : i < b.lineCount) (l tail : Bytes) :
    (b.lines.set i l).insertIdx (i + 1) tail ≠ [] := by
  have hi' : i + 1 ≤ (b.lines.set i l).length := by rwa [List.length_set]
  have hlen := List.length_insertIdx_of_le_length hi' tail
  exact List.ne_nil_of_length_pos (by omega)

/-- A line goes, and another stays. -/
theorem eraseIdx_ne_nil {i j : Nat} (hi : i < b.lineCount) (hj : j < b.lineCount) (hij : i ≠ j)
    (l : Bytes) : (b.lines.set i l).eraseIdx j ≠ [] := by
  have hj' : j < (b.lines.set i l).length := by rwa [List.length_set]
  have hlen := List.length_eraseIdx_of_lt hj'
  rw [List.length_set] at hlen
  unfold lineCount at hi hj
  exact List.ne_nil_of_length_pos (by omega)

/-- A text goes in at a place; the place after it. -/
def insert (p : TextPos) (s : Bytes) : TextBuffer × TextPos :=
  let p := b.clamp p
  if s = [] then (b, p)
  else
    let l := b.line p.line
    (b.edited (b.lines.set p.line (l.take p.col ++ s ++ l.drop p.col)) (b.set_ne_nil _ _),
      ⟨p.line, p.col + s.length⟩)

def splitLine (p : TextPos) : TextBuffer × TextPos :=
  let p := b.clamp p
  let l := b.line p.line
  (b.edited ((b.lines.set p.line (l.take p.col)).insertIdx (p.line + 1) (l.drop p.col))
      (b.insertIdx_ne_nil (b.clamp_line_lt _) _ _),
    ⟨p.line + 1, 0⟩)

/-- The byte at the left goes; at the beginning of a line, it joins the one above. -/
def eraseBefore (p : TextPos) : TextBuffer × TextPos :=
  let p := b.clamp p
  let l := b.line p.line
  if p.col > 0 then
    (b.edited (b.lines.set p.line (l.eraseIdx (p.col - 1))) (b.set_ne_nil _ _), ⟨p.line, p.col - 1⟩)
  else if hfirst : p.line = 0 then (b, p)
  else
    let above := b.line (p.line - 1)
    (b.edited ((b.lines.set (p.line - 1) (above ++ l)).eraseIdx p.line)
      (b.eraseIdx_ne_nil (Nat.lt_of_le_of_lt (Nat.sub_le _ _) (b.clamp_line_lt _)) (b.clamp_line_lt _)
        (Nat.ne_of_lt (Nat.sub_one_lt hfirst)) _),
      ⟨p.line - 1, above.length⟩)

/-- The byte under the place goes; at the end of a line, the next one joins it. -/
def eraseAt (p : TextPos) : TextBuffer × TextPos :=
  let p := b.clamp p
  let l := b.line p.line
  if p.col < l.length then
    (b.edited (b.lines.set p.line (l.eraseIdx p.col)) (b.set_ne_nil _ _), p)
  else if hlast : p.line + 1 ≥ b.lineCount then (b, p)
  else
    (b.edited ((b.lines.set p.line (l ++ b.line (p.line + 1))).eraseIdx (p.line + 1))
      (b.eraseIdx_ne_nil (b.clamp_line_lt _) (Nat.not_le.1 hlast) (Nat.ne_of_lt (Nat.lt_succ_self _)) _), p)

/-- From a place to the end, then from the beginning to that line. -/
def find (needle : Bytes) (p : TextPos) : Option TextPos :=
  if needle = [] then none
  else
    let p := b.clamp p
    let inLine (start i : Nat) : Option TextPos := (findFrom needle start (b.line i)).map (⟨i, ·⟩)
    ((List.range' p.line (b.lineCount - p.line)).findSome? fun i =>
        inLine (if i = p.line then p.col else 0) i).or
      ((List.range (p.line + 1)).findSome? (inLine 0))

/-! ### Reading and writing -/

/-- **What is read is written back.** -/
theorem text_load {t : Bytes} (ht : t ≠ []) : (load t).text = t := by
  have hlines := @Lib.intercalate_lines _ _ kNewline _ ht
  unfold text load
  simpa only [if_neg ht, ht, if_false, false_or, decide_eq_true_eq] using hlines

/-- An empty text has a newline, once read. -/
theorem text_load_nil : (load []).text = [kNewline] := rfl

end TextBuffer

/-! ### Around a place -/

/-- The text around a place: the lines above, the line on both sides of it, the lines below. -/
structure Around where
  above : List Bytes
  left : Bytes
  right : Bytes
  below : List Bytes

namespace Around

variable (a : Around)

def lines : List Bytes := a.above ++ (a.left ++ a.right) :: a.below

def pos : TextPos := ⟨a.above.length, a.left.length⟩

/-- What stands before the place, and what stands after it. -/
def before : Bytes := unlines kNewline a.above ++ a.left
def after : Bytes := a.right ++ a.below.flatMap (kNewline :: ·)

def insert (s : Bytes) : Around := { a with left := a.left ++ s }

def splitLine : Around := { a with above := a.above ++ [a.left], left := [] }

def eraseBefore : Around :=
  if a.left ≠ [] then { a with left := a.left.dropLast }
  else match a.above.getLast? with
    | none => a
    | some l => { a with above := a.above.dropLast, left := l }

def eraseAt : Around :=
  match a.right, a.below with
  | _ :: right, _ => { a with right }
  | [], [] => a
  | [], l :: below => { a with right := l, below }

/-! Each edit changes what stands before the place, or what stands after it, at the place. -/

theorem before_insert (s : Bytes) : (a.insert s).before = a.before ++ s :=
  (List.append_assoc ..).symm

theorem before_splitLine : a.splitLine.before = a.before ++ [kNewline] := by
  simp [before, splitLine, unlines]

theorem before_eraseBefore : a.eraseBefore.before = a.before.dropLast := by
  unfold eraseBefore before
  split
  next hleft => exact (List.dropLast_append_of_ne_nil hleft).symm
  next hleft =>
    rw [not_not.1 hleft, List.append_nil]
    rcases a.above.eq_nil_or_concat' with habove | ⟨above, u, habove⟩
    · rw [habove]
      simp [unlines, not_not.1 hleft, habove]
    · rw [habove, List.getLast?_concat]
      simp [unlines, ← List.append_assoc]

theorem after_eraseBefore : a.eraseBefore.after = a.after := by
  unfold eraseBefore
  split
  · rfl
  · split <;> rfl

theorem before_eraseAt : a.eraseAt.before = a.before := by
  unfold eraseAt
  split <;> rfl

theorem after_eraseAt : a.eraseAt.after = a.after.tail := by
  obtain ⟨above, left, right, below⟩ := a
  cases right with
  | cons c right => rfl
  | nil => cases below <;> rfl

end Around

namespace TextBuffer

variable {b : TextBuffer} {p : TextPos} {a : Around}

/-- The buffer, at a place, is this text. -/
structure Shows (b : TextBuffer) (p : TextPos) (a : Around) : Prop where
  lines : b.lines = a.lines
  pos : p = a.pos

/-- The place is in the buffer. -/
structure Inside (b : TextBuffer) (p : TextPos) : Prop where
  line : p.line < b.lineCount
  col : p.col ≤ (b.line p.line).length

theorem line_eq_getElem {i : Nat} (hi : i < b.lines.length) : b.line i = b.lines[i] := by
  rw [line, List.getD_eq_getElem?_getD, List.getElem?_eq_getElem hi, Option.getD_some]

theorem Inside.clamp_eq (h : b.Inside p) : b.clamp p = p := by
  unfold clamp
  simp only [if_neg (Nat.not_le.2 h.line), if_neg (Nat.not_lt.2 h.col)]

theorem clamp_col (b : TextBuffer) (p : TextPos) :
    (b.clamp p).col = min p.col (b.line (b.clamp p).line).length := by
  -- the line first, then the column on that line
  obtain ⟨q, hq⟩ : ∃ q, q = if p.line ≥ b.lineCount then { p with line := b.lineCount - 1 } else p :=
    ⟨_, rfl⟩
  have hcol : q.col = p.col := by
    rw [hq]
    split <;> rfl
  have hclamp : b.clamp p =
      if q.col > (b.line q.line).length then { q with col := (b.line q.line).length } else q := by
    rw [hq]
    rfl
  rw [hclamp, ← hcol]
  split
  next hlong => exact (Nat.min_eq_right (Nat.le_of_lt hlong)).symm
  next hshort => exact (Nat.min_eq_left (Nat.not_lt.1 hshort)).symm

theorem inside_clamp (b : TextBuffer) (p : TextPos) : b.Inside (b.clamp p) where
  line := b.clamp_line_lt p
  col := by
    rw [clamp_col]
    exact Nat.min_le_right _ _

/-- The text around a place of the buffer. -/
def around (b : TextBuffer) (p : TextPos) : Around where
  above := b.lines.take p.line
  left := (b.line p.line).take p.col
  right := (b.line p.line).drop p.col
  below := b.lines.drop (p.line + 1)

theorem Inside.shows (h : b.Inside p) : b.Shows p (b.around p) where
  lines := by
    have hline : p.line < b.lines.length := h.line
    show b.lines = b.lines.take p.line ++ ((b.line p.line).take p.col ++ (b.line p.line).drop p.col) ::
      b.lines.drop (p.line + 1)
    rw [List.take_append_drop, line_eq_getElem hline, List.getElem_cons_drop, List.take_append_drop]
  pos := by
    show p = ⟨(b.lines.take p.line).length, ((b.line p.line).take p.col).length⟩
    rw [List.length_take_of_le (Nat.le_of_lt h.line), List.length_take_of_le h.col]

namespace Shows

theorem line (h : b.Shows p a) : b.line p.line = a.left ++ a.right := by
  unfold TextBuffer.line
  rw [h.lines, h.pos]
  simp [Around.lines, Around.pos]

theorem lineCount (h : b.Shows p a) : b.lineCount = a.above.length + a.below.length + 1 := by
  unfold TextBuffer.lineCount
  rw [h.lines]
  simp [Around.lines, Nat.add_assoc]

theorem inside (h : b.Shows p a) : b.Inside p where
  line := by
    rw [h.lineCount, h.pos]
    show a.above.length < _
    omega
  col := by
    rw [h.line, h.pos, List.length_append]
    exact Nat.le_add_right _ _

theorem left (h : b.Shows p a) : (b.line p.line).take p.col = a.left := by
  rw [h.line, h.pos]
  exact List.take_left

theorem right (h : b.Shows p a) : (b.line p.line).drop p.col = a.right := by
  rw [h.line, h.pos]
  exact List.drop_left

theorem around_eq (h : b.Shows p a) : b.around p = a := by
  unfold around
  rw [h.left, h.right, h.lines, h.pos]
  simp [Around.lines, Around.pos]

theorem set_line (h : b.Shows p a) (l : Bytes) : b.lines.set p.line l = a.above ++ l :: a.below := by
  rw [h.lines, h.pos]
  simp [Around.lines, Around.pos]

theorem above_getLast? (h : b.Shows p a) :
    a.above.getLast? = if p.line = 0 then none else some (b.line (p.line - 1)) := by
  have hprev : p.line - 1 < b.lines.length := Nat.lt_of_le_of_lt (Nat.sub_le _ _) h.inside.line
  rw [← h.around_eq, line_eq_getElem hprev]
  show (b.lines.take p.line).getLast? = _
  rw [List.getLast?_take, List.getElem?_eq_getElem hprev, Option.some_or]

/-! An edit of the buffer is the edit of the text around the place. -/

theorem insert (h : b.Shows p a) (s : Bytes) :
    (b.insert p s).1.Shows (b.insert p s).2 (a.insert s) := by
  unfold TextBuffer.insert
  simp only [h.inside.clamp_eq]
  split
  next hs =>
    subst hs
    rw [Around.insert, List.append_nil]
    exact h
  next =>
    refine ⟨?_, ?_⟩
    · show b.lines.set p.line _ = _
      rw [h.set_line, h.left, h.right]
      rfl
    · show TextPos.mk p.line (p.col + s.length) = _
      rw [h.pos]
      simp [Around.pos, Around.insert]

theorem splitLine (h : b.Shows p a) : (b.splitLine p).1.Shows (b.splitLine p).2 a.splitLine := by
  unfold TextBuffer.splitLine
  simp only [h.inside.clamp_eq]
  refine ⟨?_, ?_⟩
  · show (b.lines.set p.line _).insertIdx (p.line + 1) _ = _
    rw [h.set_line, h.left, h.right, h.pos]
    show (a.above ++ a.left :: a.below).insertIdx (a.above.length + 1) a.right = _
    rw [Lib.insertIdx_length_succ]
    simp [Around.lines, Around.splitLine]
  · show TextPos.mk (p.line + 1) 0 = _
    rw [h.pos]
    simp [Around.pos, Around.splitLine]

theorem eraseBefore (h : b.Shows p a) :
    (b.eraseBefore p).1.Shows (b.eraseBefore p).2 a.eraseBefore := by
  have hline : p.line = a.above.length := congrArg TextPos.line h.pos
  have hcol : p.col = a.left.length := congrArg TextPos.col h.pos
  unfold TextBuffer.eraseBefore Around.eraseBefore
  simp only [h.inside.clamp_eq]
  by_cases hleft : a.left = []
  · rw [if_neg (not_not.2 hleft)]
    have hfirst : ¬ p.col > 0 := by
      rw [hcol, hleft]
      exact Nat.lt_irrefl 0
    rw [if_neg hfirst]
    rcases a.above.eq_nil_or_concat' with habove | ⟨above, u, habove⟩
    · rw [dif_pos (by rw [hline, habove]; rfl), habove]
      exact h
    · -- the line above takes this one
      have hlen : p.line = above.length + 1 := by rw [hline, habove, List.length_append]; rfl
      have hlines : b.lines = above ++ u :: (a.left ++ a.right) :: a.below := by
        rw [h.lines, Around.lines, habove]
        simp
      have hu : b.line (p.line - 1) = u := by
        rw [TextBuffer.line, hlines, hlen]
        simp
      rw [dif_neg (by omega), habove, List.getLast?_concat, List.dropLast_concat]
      refine ⟨?_, ?_⟩
      · show (b.lines.set (p.line - 1) (b.line (p.line - 1) ++ b.line p.line)).eraseIdx p.line = _
        rw [hu, h.line, hleft, List.nil_append, hlines, hlen, Nat.add_sub_cancel,
          List.set_append_right _ _ (Nat.le_refl _), Nat.sub_self, List.set_cons_zero,
          Lib.eraseIdx_length_succ]
        rfl
      · show TextPos.mk (p.line - 1) (b.line (p.line - 1)).length = _
        rw [hu, hlen]
        rfl
  · have hinside : p.col > 0 := by
      rw [hcol]
      exact List.length_pos_iff.2 hleft
    rw [if_pos hleft, if_pos hinside]
    refine ⟨?_, ?_⟩
    · show b.lines.set p.line ((b.line p.line).eraseIdx (p.col - 1)) = _
      rw [h.set_line, h.line, List.eraseIdx_append_of_lt_length (by omega),
        List.eraseIdx_eq_dropLast (by omega)]
      rfl
    · show TextPos.mk p.line (p.col - 1) = _
      rw [hline, hcol]
      simp [Around.pos]

theorem eraseAt (h : b.Shows p a) : (b.eraseAt p).1.Shows (b.eraseAt p).2 a.eraseAt := by
  have hline : p.line = a.above.length := congrArg TextPos.line h.pos
  have hcol : p.col = a.left.length := congrArg TextPos.col h.pos
  unfold TextBuffer.eraseAt
  simp only [h.inside.clamp_eq]
  obtain ⟨above, left, right, below⟩ := a
  cases right with
  | cons c right =>
      have hroom : p.col < (b.line p.line).length := by
        rw [h.line, hcol]
        simp
      rw [if_pos hroom]
      refine ⟨?_, h.pos⟩
      show b.lines.set p.line ((b.line p.line).eraseIdx p.col) = _
      rw [h.set_line, h.line, hcol, List.eraseIdx_append_of_length_le (Nat.le_refl _), Nat.sub_self,
        List.eraseIdx_cons_zero]
      rfl
  | nil =>
      have hend : ¬ p.col < (b.line p.line).length := by
        rw [h.line, hcol]
        simp
      rw [if_neg hend]
      cases below with
      | nil =>
          rw [dif_pos (by rw [h.lineCount, hline]; exact Nat.le_refl _)]
          exact h
      | cons l below =>
          -- the line below joins this one
          have hlines : b.lines = above ++ left :: l :: below := by
            rw [h.lines, Around.lines, List.append_nil]
          have hl : b.line (p.line + 1) = l := by
            rw [TextBuffer.line, hlines, hline]
            simp
          rw [dif_neg (by rw [h.lineCount, hline]; simp)]
          refine ⟨?_, h.pos⟩
          show (b.lines.set p.line (b.line p.line ++ b.line (p.line + 1))).eraseIdx (p.line + 1) = _
          rw [h.set_line, h.line, hl, hline, List.append_nil]
          exact Lib.eraseIdx_length_succ above (left ++ l) l below

end Shows

/-! ### Searching -/

/-- **What is found** is in the buffer, and stands there. -/
theorem find_spec {needle : Bytes} {p q : TextPos} (h : b.find needle p = some q) :
    needle ≠ [] ∧ b.Inside q ∧ needle <+: (b.line q.line).drop q.col := by
  unfold find at h
  split at h
  · cases h
  next hne =>
  refine ⟨hne, ?_⟩
  have hline : ∀ {start i : Nat}, i < b.lineCount →
      (findFrom needle start (b.line i)).map (TextPos.mk i) = some q →
      b.Inside q ∧ needle <+: (b.line q.line).drop q.col := by
    intro start i hi hfound
    obtain ⟨col, hcol, rfl⟩ := Option.map_eq_some_iff.1 hfound
    have hthere := (Input.findFrom_some hne hcol).2.1
    have hroom := Input.prefix_drop_length hne hthere
    exact ⟨⟨hi, Nat.le_of_add_right_le hroom⟩, hthere⟩
  have hclamp := b.clamp_line_lt p
  simp only at h
  rcases Option.or_eq_some_iff.1 h with hfirst | ⟨-, hsecond⟩
  · obtain ⟨i, hi, hfound⟩ := List.exists_of_findSome?_eq_some hfirst
    obtain ⟨-, hlt⟩ := List.mem_range'_1.1 hi
    exact hline (by omega) hfound
  · obtain ⟨i, hi, hfound⟩ := List.exists_of_findSome?_eq_some hsecond
    exact hline (Nat.lt_of_lt_of_le (List.mem_range.1 hi) hclamp) hfound

end TextBuffer

end Sshos.Apps
