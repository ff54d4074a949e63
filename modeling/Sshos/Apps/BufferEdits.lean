import Mathlib.Data.Prod.Lex
import Sshos.Apps.TextBuffer
import Sshos.Lib.Round

/-!
# Sshos.Apps.BufferEdits

The lines of a buffer against the **flat text** they make. An edit of the lines is an edit of
that text at the byte where the place stands, and the search finds the first occurrence of a
round from that place.
-/

namespace Sshos.Apps

open Sshos.Input (findFrom findFrom_none findFrom_some)
open Sshos.Lib (Bytes FirstRound firstRound_of_le firstRound_of_none unlines)

/-! ### The order of the places -/

theorem TextPos.toLex_injective : Function.Injective fun p : TextPos => toLex (p.line, p.col) := by
  rintro ⟨line, col⟩ ⟨line', col'⟩ h
  obtain ⟨rfl, rfl⟩ := Prod.mk.inj (toLex.injective h)
  rfl

instance : LinearOrder TextPos := LinearOrder.lift' _ TextPos.toLex_injective

theorem TextPos.le_iff {p q : TextPos} : p ≤ q ↔ p.line < q.line ∨ p.line = q.line ∧ p.col ≤ q.col :=
  Prod.Lex.toLex_le_toLex

theorem TextPos.lt_iff {p q : TextPos} : p < q ↔ p.line < q.line ∨ p.line = q.line ∧ p.col < q.col :=
  Prod.Lex.toLex_lt_toLex

/-! ### The flat text -/

theorem Around.joined_lines (a : Around) : [kNewline].intercalate a.lines = a.before ++ a.after := by
  have hbelow : ∀ (l : Bytes) (ls : List Bytes),
      [kNewline].intercalate (l :: ls) = l ++ ls.flatMap (kNewline :: ·) := by
    intro l ls
    induction ls generalizing l with
    | nil => simp [List.intercalate]
    | cons l' ls ih =>
        have hcons : [kNewline].intercalate (l :: l' :: ls) =
            l ++ kNewline :: [kNewline].intercalate (l' :: ls) := by simp [List.intercalate]
        rw [hcons, ih]
        rfl
  unfold lines before after
  induction a.above with
  | nil => simp [hbelow, unlines]
  | cons l above ih =>
      obtain ⟨m, ms, hms⟩ := List.exists_cons_of_ne_nil
        (List.append_ne_nil_of_right_ne_nil above (List.cons_ne_nil (a.left ++ a.right) a.below))
      rw [hms] at ih
      have hcons : [kNewline].intercalate (l :: m :: ms) =
          l ++ kNewline :: [kNewline].intercalate (m :: ms) := by simp [List.intercalate]
      rw [List.cons_append, hms, hcons, ih]
      simp [unlines]

theorem Around.before_eq_nil_iff {a : Around} : a.before = [] ↔ a.above = [] ∧ a.left = [] := by
  unfold before
  rw [List.append_eq_nil_iff]
  cases a.above <;> simp [unlines]

theorem Around.after_eq_nil_iff {a : Around} : a.after = [] ↔ a.right = [] ∧ a.below = [] := by
  unfold after
  rw [List.append_eq_nil_iff]
  cases a.below <;> simp

/-- No line has a newline in it. -/
structure Around.Cut (a : Around) : Prop where
  above : ∀ l ∈ a.above, kNewline ∉ l
  left : kNewline ∉ a.left
  right : kNewline ∉ a.right
  below : ∀ l ∈ a.below, kNewline ∉ l

namespace Around.Cut

variable {a : Around}

theorem iff_lines : a.Cut ↔ ∀ l ∈ a.lines, kNewline ∉ l := by
  rw [lines, List.forall_mem_append, List.forall_mem_cons, List.mem_append, not_or]
  exact ⟨fun h => ⟨h.above, ⟨h.left, h.right⟩, h.below⟩,
    fun h => ⟨h.1, h.2.1.1, h.2.1.2, h.2.2⟩⟩

theorem insert (h : a.Cut) {s : Bytes} (hs : kNewline ∉ s) : (a.insert s).Cut :=
  { h with left := fun hmem => (List.mem_append.1 hmem).elim h.left hs }

theorem splitLine (h : a.Cut) : a.splitLine.Cut where
  above := List.forall_mem_append.2 ⟨h.above, List.forall_mem_singleton.2 h.left⟩
  left := List.not_mem_nil
  right := h.right
  below := h.below

theorem eraseBefore (h : a.Cut) : a.eraseBefore.Cut := by
  unfold Around.eraseBefore
  split
  · exact { h with left := fun hmem => h.left ((List.dropLast_subset _) hmem) }
  · split
    · exact h
    next l habove =>
      exact { h with
        above := fun l hl => h.above l ((List.dropLast_subset _) hl)
        left := h.above l (List.mem_of_mem_getLast? habove) }

theorem eraseAt (h : a.Cut) : a.eraseAt.Cut := by
  obtain ⟨above, left, right, below⟩ := a
  cases right with
  | cons c right => exact { h with right := fun hmem => h.right (List.mem_cons_of_mem c hmem) }
  | nil =>
      cases below with
      | nil => exact h
      | cons l below =>
          obtain ⟨hl, hbelow⟩ := List.forall_mem_cons.1 h.below
          exact { h with right := hl, below := hbelow }

end Around.Cut

namespace TextBuffer

variable (b : TextBuffer)

/-- The lines, with a newline between them. -/
def joined : Bytes := [kNewline].intercalate b.lines

/-- The byte of the flat text a place stands at. -/
def offset (p : TextPos) : Nat := (unlines kNewline (b.lines.take p.line)).length + p.col

/-- The lines are the pieces of the flat text. -/
def Cut : Prop := b.lines = b.joined.splitOn kNewline

variable {b} {p : TextPos} {a : Around}

theorem cut_iff : b.Cut ↔ ∀ l ∈ b.lines, kNewline ∉ l := by
  constructor
  · intro h l hl
    rw [h] at hl
    exact Lib.not_mem_of_mem_splitOn hl
  · intro h
    exact (List.splitOn_intercalate kNewline h b.filled).symm

theorem Shows.joined (h : b.Shows p a) : b.joined = a.before ++ a.after := by
  unfold TextBuffer.joined
  rw [h.lines, a.joined_lines]

theorem Shows.offset (h : b.Shows p a) : b.offset p = a.before.length := by
  unfold TextBuffer.offset
  rw [h.lines, h.pos]
  simp [Around.lines, Around.pos, Around.before]

theorem Shows.cut_iff (h : b.Shows p a) : b.Cut ↔ a.Cut := by
  rw [TextBuffer.cut_iff, Around.Cut.iff_lines, h.lines]

theorem clamp_clamp (b : TextBuffer) (p : TextPos) : b.clamp (b.clamp p) = b.clamp p :=
  (b.inside_clamp p).clamp_eq

/-! ### What an edit comes to -/

/-- An edit leaves a flat text, and a place at a byte of it; it marks the buffer when it changes
the text. -/
structure Makes (b : TextBuffer) (text : Bytes) (offset : Nat) (r : TextBuffer × TextPos) : Prop where
  joined : r.1.joined = text
  cut : b.Cut → r.1.Cut
  inside : r.1.Inside r.2
  offset : r.1.offset r.2 = offset
  filled : 0 < r.1.lineCount
  modified : r.1.modified = (b.modified || decide (text ≠ b.joined))

/-- An edit that does nothing, or marks the buffer and changes the length of its text. -/
theorem Makes.of_shows {text : Bytes} {n : Nat} {r : TextBuffer × TextPos} (h : r.1.Shows r.2 a)
    (hcut : b.Cut → r.1.Cut) (htext : a.before ++ a.after = text) (hn : a.before.length = n)
    (hmark : r.1 = b ∨ r.1.modified = true ∧ text.length ≠ b.joined.length) : b.Makes text n r where
  joined := h.joined.trans htext
  cut := hcut
  inside := h.inside
  offset := h.offset.trans hn
  filled := r.1.lineCount_pos
  modified := by
    rcases hmark with hsame | ⟨hmarked, hlen⟩
    · have htext' : text = b.joined := by rw [← htext, ← h.joined, hsame]
      rw [hsame, decide_eq_false (not_not.2 htext'), Bool.or_false]
    · have hne : text ≠ b.joined := fun heq => hlen (congrArg List.length heq)
      rw [hmarked, decide_eq_true hne, Bool.or_true]

section Edits

variable (b) (p)

theorem shows_clamp : b.Shows (b.clamp p) (b.around (b.clamp p)) := (b.inside_clamp p).shows

theorem eraseBefore_eq_self (hline : (b.clamp p).line = 0) (hcol : (b.clamp p).col = 0) :
    (b.eraseBefore p).1 = b := by
  unfold eraseBefore
  simp only [hline, hcol, Nat.lt_irrefl, gt_iff_lt, if_false, dif_pos]

theorem modified_eraseBefore (h : ¬ ((b.clamp p).line = 0 ∧ (b.clamp p).col = 0)) :
    (b.eraseBefore p).1.modified = true := by
  unfold eraseBefore
  simp only
  split
  · rfl
  next hcol =>
    rw [dif_neg fun hline => h ⟨hline, by omega⟩]
    rfl

theorem eraseAt_eq_self (hcol : ¬ (b.clamp p).col < (b.line (b.clamp p).line).length)
    (hline : (b.clamp p).line + 1 ≥ b.lineCount) : (b.eraseAt p).1 = b := by
  unfold eraseAt
  simp only [if_neg hcol, dif_pos hline]

theorem modified_eraseAt (h : (b.clamp p).col < (b.line (b.clamp p).line).length ∨
    (b.clamp p).line + 1 < b.lineCount) : (b.eraseAt p).1.modified = true := by
  unfold eraseAt
  simp only
  split
  · rfl
  next hcol =>
    rw [dif_neg (Nat.not_le.2 (h.resolve_left hcol))]
    rfl

/-- A text goes in. -/
theorem makes_insert {s : Bytes} (hs : kNewline ∉ s) :
    b.Makes (b.joined.take (b.offset (b.clamp p)) ++ s ++ b.joined.drop (b.offset (b.clamp p)))
      (b.offset (b.clamp p) + s.length) (b.insert p s) := by
  have h := b.shows_clamp p
  have hsame : b.insert p s = b.insert (b.clamp p) s := by
    unfold insert
    simp only [clamp_clamp]
  have hafter := h.insert s
  rw [← hsame] at hafter
  rw [h.joined, h.offset, List.take_left, List.drop_left]
  refine Makes.of_shows hafter (fun hcut => hafter.cut_iff.2 ((h.cut_iff.1 hcut).insert hs)) ?_ ?_ ?_
  · rw [Around.before_insert]
    rfl
  · rw [Around.before_insert, List.length_append]
  · by_cases hnil : s = []
    · left
      unfold insert
      simp only [if_pos hnil]
    · right
      refine ⟨?_, ?_⟩
      · unfold insert
        simp only [if_neg hnil]
        rfl
      · have hpos := List.length_pos_iff.2 hnil
        rw [h.joined]
        simp only [List.length_append]
        omega

/-- A newline goes in. -/
theorem makes_splitLine :
    b.Makes (b.joined.take (b.offset (b.clamp p)) ++ [kNewline] ++
        b.joined.drop (b.offset (b.clamp p)))
      (b.offset (b.clamp p) + 1) (b.splitLine p) := by
  have h := b.shows_clamp p
  have hsame : b.splitLine p = b.splitLine (b.clamp p) := by
    unfold splitLine
    simp only [clamp_clamp]
  have hafter := h.splitLine
  rw [← hsame] at hafter
  rw [h.joined, h.offset, List.take_left, List.drop_left]
  refine Makes.of_shows hafter (fun hcut => hafter.cut_iff.2 (h.cut_iff.1 hcut).splitLine) ?_ ?_ ?_
  · rw [Around.before_splitLine]
    rfl
  · rw [Around.before_splitLine, List.length_append]
    rfl
  · right
    refine ⟨rfl, ?_⟩
    rw [h.joined]
    simp only [List.length_append, List.length_singleton]
    omega

/-- The byte before the place goes, if there is one. -/
theorem makes_eraseBefore :
    b.Makes (if b.offset (b.clamp p) = 0 then b.joined else b.joined.eraseIdx (b.offset (b.clamp p) - 1))
      (b.offset (b.clamp p) - 1) (b.eraseBefore p) := by
  have h := b.shows_clamp p
  have hsame : b.eraseBefore p = b.eraseBefore (b.clamp p) := by
    unfold eraseBefore
    simp only [clamp_clamp]
  have hafter := h.eraseBefore
  rw [← hsame] at hafter
  have hline : (b.clamp p).line = (b.around (b.clamp p)).above.length := congrArg TextPos.line h.pos
  have hcol : (b.clamp p).col = (b.around (b.clamp p)).left.length := congrArg TextPos.col h.pos
  have hcut : b.Cut → (b.eraseBefore p).1.Cut :=
    fun hcut => hafter.cut_iff.2 (h.cut_iff.1 hcut).eraseBefore
  rw [h.offset]
  by_cases hnil : (b.around (b.clamp p)).before = []
  · obtain ⟨habove, hleft⟩ := Around.before_eq_nil_iff.1 hnil
    rw [habove] at hline
    rw [hleft] at hcol
    refine Makes.of_shows hafter hcut ?_ ?_ (.inl (b.eraseBefore_eq_self p hline hcol))
    · rw [Around.before_eraseBefore, Around.after_eraseBefore, hnil, if_pos List.length_nil, h.joined,
        hnil]
      rfl
    · rw [Around.before_eraseBefore, List.length_dropLast]
  · have hpos := List.length_pos_iff.2 hnil
    rw [if_neg (Nat.ne_of_gt hpos), h.joined, List.eraseIdx_append_of_lt_length (by omega),
      List.eraseIdx_eq_dropLast (by omega)]
    refine Makes.of_shows hafter hcut ?_ ?_ (.inr ⟨b.modified_eraseBefore p ?_, ?_⟩)
    · rw [Around.before_eraseBefore, Around.after_eraseBefore]
    · rw [Around.before_eraseBefore, List.length_dropLast]
    · rintro ⟨hfirst, hzero⟩
      exact hnil (Around.before_eq_nil_iff.2 ⟨List.eq_nil_of_length_eq_zero (hline.symm.trans hfirst),
        List.eq_nil_of_length_eq_zero (hcol.symm.trans hzero)⟩)
    · rw [h.joined]
      simp only [List.length_append, List.length_dropLast]
      omega

/-- The byte at the place goes, if there is one. -/
theorem makes_eraseAt :
    b.Makes (b.joined.eraseIdx (b.offset (b.clamp p))) (b.offset (b.clamp p)) (b.eraseAt p) := by
  have h := b.shows_clamp p
  have hsame : b.eraseAt p = b.eraseAt (b.clamp p) := by
    unfold eraseAt
    simp only [clamp_clamp]
  have hafter := h.eraseAt
  rw [← hsame] at hafter
  have hroom : (b.clamp p).col < (b.line (b.clamp p).line).length ↔
      (b.around (b.clamp p)).right ≠ [] := by
    have hcol : (b.clamp p).col = (b.around (b.clamp p)).left.length := congrArg TextPos.col h.pos
    rw [h.line, hcol, List.length_append, ← List.length_pos_iff]
    omega
  have hmore : (b.clamp p).line + 1 < b.lineCount ↔ (b.around (b.clamp p)).below ≠ [] := by
    have hline : (b.clamp p).line = (b.around (b.clamp p)).above.length := congrArg TextPos.line h.pos
    rw [h.lineCount, hline, ← List.length_pos_iff]
    omega
  have hcut : b.Cut → (b.eraseAt p).1.Cut := fun hcut => hafter.cut_iff.2 (h.cut_iff.1 hcut).eraseAt
  have htext : b.joined.eraseIdx (b.offset (b.clamp p)) =
      (b.around (b.clamp p)).before ++ (b.around (b.clamp p)).after.tail := by
    rw [h.joined, h.offset, List.eraseIdx_append_of_length_le (Nat.le_refl _), Nat.sub_self,
      List.eraseIdx_zero]
  rw [htext, h.offset]
  refine Makes.of_shows hafter hcut ?_ ?_ ?_
  · rw [Around.before_eraseAt, Around.after_eraseAt]
  · rw [Around.before_eraseAt]
  by_cases hnil : (b.around (b.clamp p)).after = []
  · obtain ⟨hright, hbelow⟩ := Around.after_eq_nil_iff.1 hnil
    exact .inl (b.eraseAt_eq_self p (fun hlt => hroom.1 hlt hright)
      (Nat.not_lt.1 fun hlt => hmore.1 hlt hbelow))
  · have hpos := List.length_pos_iff.2 hnil
    refine .inr ⟨b.modified_eraseAt p ?_, ?_⟩
    · rw [hroom, hmore, ← not_and_or]
      exact mt Around.after_eq_nil_iff.2 hnil
    · rw [h.joined]
      simp only [List.length_append, List.length_tail]
      omega

end Edits

/-! ### The search -/

/-- The needle stands at a place. -/
structure Occurs (b : TextBuffer) (needle : Bytes) (q : TextPos) : Prop where
  inside : b.Inside q
  here : needle <+: (b.line q.line).drop q.col

variable {needle : Bytes} {q : TextPos}

/-- The needle is on the line of its occurrences, and occurs on the lines it is on. -/
theorem exists_occurs_iff : (∃ q, b.Occurs needle q) ↔ ∃ l ∈ b.lines, needle <:+: l := by
  constructor
  · rintro ⟨q, hq⟩
    refine ⟨b.line q.line, ?_, hq.here.isInfix.trans (List.drop_suffix _ _).isInfix⟩
    rw [line_eq_getElem hq.inside.line]
    exact List.getElem_mem _
  · rintro ⟨l, hl, left, right, rfl⟩
    obtain ⟨i, hi, heq⟩ := List.mem_iff_getElem.1 hl
    have hline : b.line i = left ++ needle ++ right := (line_eq_getElem hi).trans heq
    refine ⟨⟨i, left.length⟩, ⟨hi, ?_⟩, ?_⟩
    · simp only [hline, List.length_append]
      omega
    · simp only [hline, List.append_assoc, List.drop_left]
      exact List.prefix_append _ _

/-- The search of some lines, each from a byte of its own. -/
def inLines (b : TextBuffer) (needle : Bytes) (start : Nat → Nat) (is : List Nat) : Option TextPos :=
  is.findSome? fun i => (findFrom needle (start i) (b.line i)).map (⟨i, ·⟩)

theorem find_eq (hneedle : needle ≠ []) (b : TextBuffer) (p : TextPos) : b.find needle p =
    (b.inLines needle (fun i => if i = (b.clamp p).line then (b.clamp p).col else 0)
        (List.range' (b.clamp p).line (b.lineCount - (b.clamp p).line))).or
      (b.inLines needle (fun _ => 0) (List.range ((b.clamp p).line + 1))) := by
  unfold find
  rw [if_neg hneedle]
  rfl

/-- What is found on some lines in order is the first occurrence on them. -/
theorem inLines_some (hneedle : needle ≠ []) {start : Nat → Nat} {is : List Nat}
    (hsorted : is.Pairwise (· < ·)) (his : ∀ i ∈ is, i < b.lineCount)
    (h : b.inLines needle start is = some q) :
    b.Occurs needle q ∧ (q.line ∈ is ∧ start q.line ≤ q.col) ∧
      ∀ q', b.Occurs needle q' → q'.line ∈ is → start q'.line ≤ q'.col → q ≤ q' := by
  obtain ⟨before, i, after, rfl, hfound, hnone⟩ := List.findSome?_eq_some_iff.1 h
  obtain ⟨col, hcol, rfl⟩ := Option.map_eq_some_iff.1 hfound
  obtain ⟨hle, hhere, hfirst⟩ := findFrom_some hneedle hcol
  have hin : i ∈ before ++ i :: after := List.mem_append_right _ List.mem_cons_self
  have hroom := Input.prefix_drop_length hneedle hhere
  refine ⟨⟨⟨his i hin, Nat.le_of_add_right_le hroom⟩, hhere⟩, ⟨hin, hle⟩, ?_⟩
  rintro ⟨line, col'⟩ hq' hmem hstart
  rw [TextPos.le_iff]
  rcases List.mem_append.1 hmem with hbefore | hrest
  · -- nothing was found on the lines before
    have hno := Option.map_eq_none_iff.1 (hnone line hbefore)
    exact absurd hq'.here (findFrom_none hneedle hno col' hstart)
  rcases List.mem_cons.1 hrest with heq | hafter
  · simp only at heq hstart
    subst heq
    refine .inr ⟨rfl, Nat.not_lt.1 fun hlt => ?_⟩
    exact hfirst col' hstart hlt hq'.here
  · have hlater := (List.pairwise_append.1 hsorted).2.1
    exact .inl (List.rel_of_pairwise_cons hlater hafter)

theorem inLines_none (hneedle : needle ≠ []) {start : Nat → Nat} {is : List Nat}
    (h : b.inLines needle start is = none) :
    ∀ q', b.Occurs needle q' → q'.line ∈ is → ¬ start q'.line ≤ q'.col := by
  intro q' hq' hmem hstart
  have hno := Option.map_eq_none_iff.1 (List.findSome?_eq_none_iff.1 h q'.line hmem)
  exact findFrom_none hneedle hno q'.col hstart hq'.here

/-- The first pass goes through what is at the place or after it. -/
theorem mem_firstPass (hq : q.line < b.lineCount) :
    (q.line ∈ List.range' p.line (b.lineCount - p.line) ∧
      (if q.line = p.line then p.col else 0) ≤ q.col) ↔ p ≤ q := by
  rw [List.mem_range'_1, TextPos.le_iff]
  split <;> omega

/-- **What is found** is the first occurrence of the round from the place. -/
theorem firstRound_find (hneedle : needle ≠ []) (h : b.find needle p = some q) :
    FirstRound (b.Occurs needle) (b.clamp p) q := by
  rw [find_eq hneedle] at h
  have hclamp := b.clamp_line_lt p
  have hrange : ∀ i ∈ List.range' (b.clamp p).line (b.lineCount - (b.clamp p).line), i < b.lineCount := by
    intro i hi
    have := List.mem_range'_1.1 hi
    omega
  rcases Option.or_eq_some_iff.1 h with hfirst | ⟨hnone, hsecond⟩
  · obtain ⟨hq, hfrom, hleast⟩ := inLines_some hneedle List.pairwise_lt_range' hrange hfirst
    refine firstRound_of_le hq ((mem_firstPass hq.inside.line).1 hfrom) fun q' hq' hle => ?_
    obtain ⟨hmem, hstart⟩ := (mem_firstPass hq'.inside.line).2 hle
    exact hleast q' hq' hmem hstart
  · have hbefore : ∀ q', b.Occurs needle q' → q' < b.clamp p := by
      intro q' hq'
      refine not_le.1 fun hle => ?_
      obtain ⟨hmem, hstart⟩ := (mem_firstPass hq'.inside.line).2 hle
      exact inLines_none hneedle hnone q' hq' hmem hstart
    have hlines : ∀ i ∈ List.range ((b.clamp p).line + 1), i < b.lineCount := by
      intro i hi
      have := List.mem_range.1 hi
      omega
    obtain ⟨hq, -, hleast⟩ := inLines_some hneedle List.pairwise_lt_range hlines hsecond
    refine firstRound_of_none hbefore hq fun q' hq' => hleast q' hq' ?_ (Nat.zero_le _)
    have hlt := TextPos.lt_iff.1 (hbefore q' hq')
    rw [List.mem_range]
    omega

/-- **Nothing is found** only when the needle is on no line. -/
theorem find_eq_none (hneedle : needle ≠ []) (h : b.find needle p = none) :
    ∀ l ∈ b.lines, ¬ needle <:+: l := by
  intro l hl hin
  obtain ⟨q, hq⟩ := exists_occurs_iff.2 ⟨l, hl, hin⟩
  rw [find_eq hneedle, Option.or_eq_none_iff] at h
  have hclamp := b.clamp_line_lt p
  have hline := hq.inside.line
  rcases le_or_gt (b.clamp p) q with hle | hlt
  · obtain ⟨hmem, hstart⟩ := (mem_firstPass hline).2 hle
    exact inLines_none hneedle h.1 q hq hmem hstart
  · have hmem : q.line ∈ List.range ((b.clamp p).line + 1) := by
      have := TextPos.lt_iff.1 hlt
      rw [List.mem_range]
      omega
    exact inLines_none hneedle h.2 q hq hmem (Nat.zero_le _)

/-! ### The edits and the search -/

/-- **The edits of a buffer are edits of its text**, at the byte where the place stands, and the
search finds the first occurrence of the round from there. -/
theorem edits_text (b : TextBuffer) (p : TextPos) {s needle : Bytes} (hs : kNewline ∉ s)
    (hneedle : needle ≠ []) :
    b.Makes (b.joined.take (b.offset (b.clamp p)) ++ s ++ b.joined.drop (b.offset (b.clamp p)))
        (b.offset (b.clamp p) + s.length) (b.insert p s) ∧
      b.Makes (b.joined.take (b.offset (b.clamp p)) ++ [kNewline] ++
          b.joined.drop (b.offset (b.clamp p)))
        (b.offset (b.clamp p) + 1) (b.splitLine p) ∧
      b.Makes (if b.offset (b.clamp p) = 0 then b.joined
          else b.joined.eraseIdx (b.offset (b.clamp p) - 1))
        (b.offset (b.clamp p) - 1) (b.eraseBefore p) ∧
      b.Makes (b.joined.eraseIdx (b.offset (b.clamp p))) (b.offset (b.clamp p)) (b.eraseAt p) ∧
      (∀ q, b.find needle p = some q → FirstRound (b.Occurs needle) (b.clamp p) q) ∧
      (b.find needle p = none → ∀ l ∈ b.lines, ¬ needle <:+: l) :=
  ⟨b.makes_insert p hs, b.makes_splitLine p, b.makes_eraseBefore p, b.makes_eraseAt p,
    fun _ => firstRound_find hneedle, find_eq_none hneedle⟩

/-- Two lines. -/
def twoLines : TextBuffer := { lines := [[0x61, 0x62], [0x63]] }

/-- A letter is inserted, and another is searched from the end. -/
theorem edits_text_twoLines :
    (twoLines.insert ⟨0, 1⟩ [0x78]).1.joined = [0x61, 0x78, 0x62, 0x0A, 0x63] ∧
      FirstRound (twoLines.Occurs [0x61]) ⟨1, 1⟩ ⟨0, 0⟩ := by
  have hinsert := (@edits_text twoLines ⟨0, 1⟩ [0x78] [0x61] (by decide) (by decide)).1
  obtain ⟨-, -, -, -, hfind, -⟩ := @edits_text twoLines ⟨1, 1⟩ [0x78] [0x61] (by decide) (by decide)
  exact ⟨hinsert.joined, hfind ⟨0, 0⟩ (by decide)⟩

end TextBuffer

end Sshos.Apps
