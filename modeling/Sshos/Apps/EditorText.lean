import Mathlib.Data.FinEnum
import Sshos.Apps.Editor
import Sshos.Common.Utf8Text
import Sshos.Lib.Run
import Sshos.Render.Width

/-!
# Sshos.Apps.EditorText

**Characters under the editor.** The cursor is a byte of its line, moved and erased byte by byte,
and the caret is shown in the column of that number. All this is right as long as what stands
before the cursor on its line is printable ASCII, and what is erased under it is ASCII.
-/

namespace Sshos.Apps

open Sshos.Common (IsScalar IsText encodeUtf8 encodeUtf8_ascii encodeUtf8_of_not_scalar
  isText_encodeUtf8 toNat_ascii written_encodeUtf8)
open Sshos.Input (Key KeyEvent)
open Sshos.Lib (Bytes run StepsMeet)
open Sshos.Render (Pos Printable textCells textCells_eq_length_iff)
open Sshos.Shell (text)
open Sshos.Wm (Size)

/-- All of it is printable ASCII. -/
def Plain (l : Bytes) : Prop := ∀ c ∈ l, Printable c

instance (l : Bytes) : Decidable (Plain l) := inferInstanceAs (Decidable (∀ c ∈ l, Printable c))

theorem Printable.ascii {c : UInt8} (h : Printable c) : c.toNat < 0x80 := Nat.lt_succ_of_lt h.2

theorem Plain.isText {l : Bytes} (h : Plain l) : IsText l :=
  .of_ascii fun c hc => Printable.ascii (h c hc)

theorem plain_append {l l' : Bytes} : Plain (l ++ l') ↔ Plain l ∧ Plain l' := List.forall_mem_append

theorem Plain.take {l : Bytes} (h : Plain l) (n : Nat) : Plain (l.take n) :=
  fun c hc => h c (List.mem_of_mem_take hc)

/-- What is typed is printable ASCII. -/
theorem plain_encodeUtf8_iff {cp : Nat} (hcp : 0x20 ≤ cp) : Plain (encodeUtf8 cp) ↔ cp < 0x7F := by
  by_cases hscalar : IsScalar cp
  · rcases (written_encodeUtf8 hscalar).ascii_or with ⟨hascii, hone⟩ | ⟨hhigh, hmany, hbytes⟩
    · rw [hone, Plain, List.forall_mem_singleton, Printable, toNat_ascii hascii, and_iff_right hcp]
    · refine iff_of_false (fun hplain => ?_) (by omega)
      obtain ⟨c, rest, hw⟩ := List.exists_cons_of_length_pos (Nat.lt_of_lt_of_le Nat.two_pos hmany)
      rw [hw] at hplain hbytes
      exact absurd (Printable.ascii (hplain c List.mem_cons_self))
        (Nat.not_lt.2 (hbytes c List.mem_cons_self))
  · rw [encodeUtf8_of_not_scalar hscalar]
    refine iff_of_false (by decide +kernel) fun hlow => hscalar ?_
    unfold IsScalar
    omega

/-! ### One character goes -/

/-- The last character goes, if there is one. -/
def RemovesLast (t t' : Bytes) : Prop :=
  (t = [] ∧ t' = []) ∨ ∃ cp, IsScalar cp ∧ t = t' ++ encodeUtf8 cp

/-- The first character goes, if there is one. -/
def RemovesFirst (t t' : Bytes) : Prop :=
  (t = [] ∧ t' = []) ∨ ∃ cp, IsScalar cp ∧ t = encodeUtf8 cp ++ t'

theorem isScalar_ascii {c : UInt8} (hc : c.toNat < 0x80) : IsScalar c.toNat := by
  unfold IsScalar
  omega

/-- One byte is one character when it is ASCII. -/
theorem encodeUtf8_singleton {cp : Nat} {c : UInt8} (hcp : IsScalar cp) (h : encodeUtf8 cp = [c]) :
    c.toNat < 0x80 := by
  rcases (written_encodeUtf8 hcp).ascii_or with ⟨hascii, hone⟩ | ⟨-, hmany, -⟩
  · rw [h] at hone
    rw [(List.cons.inj hone).1, toNat_ascii hascii]
    exact hascii
  · rw [h] at hmany
    exact absurd hmany (by simp)

theorem removesLast_dropLast_iff {t : Bytes} :
    RemovesLast t t.dropLast ↔ ∀ c ∈ t.getLast?, c.toNat < 0x80 := by
  rcases t.eq_nil_or_concat' with rfl | ⟨t, c, rfl⟩
  · exact iff_of_true (.inl ⟨rfl, rfl⟩) (by simp)
  · rw [List.getLast?_concat, List.dropLast_concat]
    simp only [Option.mem_some_iff, forall_eq']
    constructor
    · rintro (⟨hnil, -⟩ | ⟨cp, hcp, heq⟩)
      · exact absurd hnil (by simp)
      · exact encodeUtf8_singleton hcp (List.append_cancel_left heq).symm
    · intro hc
      exact .inr ⟨c.toNat, isScalar_ascii hc, by rw [encodeUtf8_ascii hc]⟩

theorem removesFirst_tail_iff {t : Bytes} :
    RemovesFirst t t.tail ↔ ∀ c ∈ t.head?, c.toNat < 0x80 := by
  cases t with
  | nil => exact iff_of_true (.inl ⟨rfl, rfl⟩) (by simp)
  | cons c t =>
      rw [List.head?_cons, List.tail_cons]
      simp only [Option.mem_some_iff, forall_eq']
      constructor
      · rintro (⟨hnil, -⟩ | ⟨cp, hcp, heq⟩)
        · exact absurd hnil (List.cons_ne_nil _ _)
        · have hone : encodeUtf8 cp ++ t = [c] ++ t := heq.symm
          exact encodeUtf8_singleton hcp (List.append_cancel_right hone)
      · intro hc
        exact .inr ⟨c.toNat, isScalar_ascii hc, by rw [encodeUtf8_ascii hc]; rfl⟩

/-! ### Around the cursor -/

namespace Around

variable {a : Around}

/-- The lines are texts, and what stands before the place on its line is printable ASCII. -/
structure Intact (a : Around) : Prop where
  above : ∀ l ∈ a.above, IsText l
  left : Plain a.left
  right : IsText a.right
  below : ∀ l ∈ a.below, IsText l

theorem intact_iff : a.Intact ↔ (∀ l ∈ a.lines, IsText l) ∧ Plain a.left := by
  unfold lines
  rw [List.forall_mem_append, List.forall_mem_cons]
  constructor
  · intro h
    exact ⟨⟨h.above, h.left.isText.append h.right, h.below⟩, h.left⟩
  · rintro ⟨⟨habove, hline, hbelow⟩, hleft⟩
    exact ⟨habove, hleft, hleft.isText.of_append hline, hbelow⟩

theorem Intact.insert_iff (h : a.Intact) (s : Bytes) : (a.insert s).Intact ↔ Plain s := by
  constructor
  · intro h'
    exact (plain_append.1 h'.left).2
  · intro hs
    exact ⟨h.above, plain_append.2 ⟨h.left, hs⟩, h.right, h.below⟩

theorem Intact.splitLine (h : a.Intact) : a.splitLine.Intact where
  above := List.forall_mem_append.2 ⟨h.above, List.forall_mem_singleton.2 h.left.isText⟩
  left := nofun
  right := h.right
  below := h.below

theorem Intact.eraseBefore_iff (h : a.Intact) :
    a.eraseBefore.Intact ↔ (a.left = [] → ∀ l ∈ a.above.getLast?, Plain l) := by
  unfold eraseBefore
  split
  next hleft =>
    refine iff_of_true ⟨h.above, ?_, h.right, h.below⟩ fun hnil => absurd hnil hleft
    exact fun c hc => h.left c (List.mem_of_mem_dropLast hc)
  next hleft =>
    have hnil : a.left = [] := not_not.1 hleft
    rw [imp_iff_right hnil]
    split
    next habove =>
      rw [habove]
      exact iff_of_true h (by simp)
    next l habove =>
      rw [habove]
      simp only [Option.mem_some_iff, forall_eq']
      refine ⟨fun h' => h'.left, fun hl => ⟨fun l' hl' => ?_, hl, h.right, h.below⟩⟩
      exact h.above l' (List.mem_of_mem_dropLast hl')

theorem Intact.eraseAt_iff (h : a.Intact) :
    a.eraseAt.Intact ↔ ∀ c ∈ a.right.head?, c.toNat < 0x80 := by
  obtain ⟨above, left, right, below⟩ := a
  cases right with
  | cons c right =>
      rw [List.head?_cons]
      simp only [Option.mem_some_iff, forall_eq']
      rw [← IsText.tail_iff h.right]
      exact ⟨fun h' => h'.right, fun hright => ⟨h.above, h.left, hright, h.below⟩⟩
  | nil =>
      cases below with
      | nil => exact iff_of_true h (by simp)
      | cons l below =>
          obtain ⟨hl, hbelow⟩ := List.forall_mem_cons.1 h.below
          exact iff_of_true ⟨h.above, h.left, hl, hbelow⟩ (by simp)

/-- One character, or one line break, stands before the place. -/
theorem Intact.removesLast (h : a.Intact) : RemovesLast a.before a.eraseBefore.before := by
  rw [before_eraseBefore, removesLast_dropLast_iff]
  intro c hc
  unfold before at hc
  by_cases hleft : a.left = []
  · rw [hleft, List.append_nil] at hc
    rcases a.above.eq_nil_or_concat' with habove | ⟨above, l, habove⟩
    · rw [habove] at hc
      cases hc
    · have hbreak : c = kNewline := by
        rw [habove] at hc
        simpa [Lib.unlines, eq_comm] using hc
      rw [hbreak]
      decide
  · rw [List.getLast?_append_of_ne_nil _ hleft] at hc
    exact Printable.ascii (h.left c (List.mem_of_mem_getLast? hc))

theorem removesFirst_iff : RemovesFirst a.after a.eraseAt.after ↔
    ∀ c ∈ a.right.head?, c.toNat < 0x80 := by
  rw [after_eraseAt, removesFirst_tail_iff]
  obtain ⟨above, left, right, below⟩ := a
  cases right with
  | cons c right => exact Iff.rfl
  | nil =>
      refine iff_of_true (fun c hc => ?_) (by simp)
      cases below with
      | nil => cases hc
      | cons l below =>
          have hbreak : c = kNewline := by
            simpa [after, eq_comm] using hc
          rw [hbreak]
          decide

end Around

/-! ### The claim on an editor -/

namespace Editor

variable {s : Editor}

/-- No character is broken: the lines are texts, the cursor stands between two characters of its
line, and the caret is shown in the column where the text before it ends. -/
structure Whole (s : Editor) : Prop where
  lines : ∀ l ∈ s.buf.lines, IsText l
  inside : s.buf.Inside s.cur
  left : IsText ((s.buf.line s.cur.line).take s.cur.col)
  right : IsText ((s.buf.line s.cur.line).drop s.cur.col)
  caret : ∀ p, s.wantsCursor = some p → p.x = textCells ((s.buf.line s.cur.line).take s.cur.col)

/-- What stands in the text before the cursor, and after it. -/
def before (s : Editor) : Bytes := (s.buf.around s.cur).before
def after (s : Editor) : Bytes := (s.buf.around s.cur).after

/-- One Backspace and one Delete remove one character or one line break, where there is one; in a
search, Backspace removes one character of what is searched. -/
structure Removes (s : Editor) (k : KeyEvent) (s' : Editor) : Prop where
  backspace : s.mode = .normal → k.key = .backspace →
    RemovesLast s.before s'.before ∧ s'.after = s.after
  delete : s.mode = .normal → k.key = .delete → s'.before = s.before ∧ RemovesFirst s.after s'.after
  query : s.mode = .searching → k.key = .backspace → RemovesLast s.query s'.query

/-- The cursor is in the text, on a line that is shown. -/
structure Placed (s : Editor) : Prop where
  inside : s.buf.Inside s.cur
  top : s.top ≤ s.cur.line
  shown : s.cur.line < s.top + s.rows

theorem rows_pos (s : Editor) : 0 < s.rows := by
  unfold rows rowsForText
  omega

theorem cast_rows (s : Editor) : (s.rows : Int) = s.rowsForText := by
  unfold rows rowsForText
  omega

theorem placed_settle (s : Editor) : Placed s.settle := by
  have hinside := TextBuffer.inside_clamp s.buf s.cur
  have hrows := s.rows_pos
  have hline := hinside.line
  refine ⟨hinside, ?_, ?_⟩
  · show s.settle.top ≤ (s.buf.clamp s.cur).line
    unfold settle
    simp only
    split <;> split <;> split <;> try split
    all_goals omega
  · show (s.buf.clamp s.cur).line < s.settle.top + s.rows
    unfold settle
    simp only
    split <;> split <;> split <;> try split
    all_goals omega

theorem Placed.wantsCursor (h : Placed s) :
    s.wantsCursor = some { x := s.cur.col, y := ((s.cur.line - s.top : Nat) : Int) } := by
  have htop := h.top
  have hshown := h.shown
  have hrows := s.cast_rows
  unfold Editor.wantsCursor
  rw [if_neg (Nat.not_lt.2 htop)]
  simp only
  rw [if_neg (by omega)]

/-- **Nothing is broken** exactly when the lines are texts and only printable ASCII stands before
the cursor on its line. -/
theorem Placed.whole_iff (h : Placed s) : s.Whole ↔ (s.buf.around s.cur).Intact := by
  have hshows := h.inside.shows
  rw [Around.intact_iff, ← hshows.lines]
  have hlen : ((s.buf.line s.cur.line).take s.cur.col).length = s.cur.col :=
    List.length_take_of_le h.inside.col
  constructor
  · intro hw
    refine ⟨hw.lines, (textCells_eq_length_iff hw.left).1 ?_⟩
    have hcaret := hw.caret _ h.wantsCursor
    simp only at hcaret
    omega
  · rintro ⟨hlines, hleft⟩
    have hline : IsText (s.buf.line s.cur.line) := by
      rw [TextBuffer.line_eq_getElem h.inside.line]
      exact hlines _ (List.getElem_mem _)
    have hplain : Plain ((s.buf.line s.cur.line).take s.cur.col) := hleft
    have hcells := (textCells_eq_length_iff hplain.isText).2 hplain
    refine ⟨hlines, h.inside, hplain.isText, hplain.isText.of_append ?_, fun p hp => ?_⟩
    · rwa [List.take_append_drop]
    · rw [h.wantsCursor] at hp
      cases hp
      simp only
      omega

/-! ### Going back into the text -/

theorem take_clamp (b : TextBuffer) {p : TextPos} (hline : p.line < b.lineCount) :
    (b.line (b.clamp p).line).take (b.clamp p).col = (b.line p.line).take p.col := by
  have hsame : (b.clamp p).line = p.line := by
    rw [TextBuffer.clamp_line]
    omega
  rw [TextBuffer.clamp_col, hsame]
  rcases Nat.le_total p.col (b.line p.line).length with hle | hle
  · rw [Nat.min_eq_left hle]
  · rw [Nat.min_eq_right hle, List.take_length, List.take_of_length_le hle]

theorem whole_settle_iff (hlines : ∀ l ∈ s.buf.lines, IsText l) (hline : s.cur.line < s.buf.lineCount) :
    s.settle.Whole ↔ Plain ((s.buf.line s.cur.line).take s.cur.col) := by
  have hplaced := s.placed_settle
  rw [hplaced.whole_iff, Around.intact_iff, ← hplaced.inside.shows.lines]
  have hleft : (s.settle.buf.around s.settle.cur).left = (s.buf.line s.cur.line).take s.cur.col :=
    take_clamp s.buf hline
  rw [hleft]
  exact and_iff_right hlines

/-- An edit is judged by the text around the cursor it leaves. -/
theorem around_edit {r : TextBuffer × TextPos} {a : Around} (h : r.1.Shows r.2 a) :
    (s.edit r).buf.around (s.edit r).cur = a := by
  show r.1.around (r.1.clamp r.2) = a
  rw [h.inside.clamp_eq, h.around_eq]

theorem whole_edit_iff {r : TextBuffer × TextPos} {a : Around} (h : r.1.Shows r.2 a) :
    (s.edit r).Whole ↔ a.Intact := by
  have hplaced : Placed (s.edit r) := placed_settle _
  rw [hplaced.whole_iff, around_edit h]

theorem removes_of_ne {k : KeyEvent} (h : k.key ≠ .backspace) (h' : k.key ≠ .delete) (s' : Editor) :
    s.Removes k s' where
  backspace := fun _ hkey => absurd hkey h
  delete := fun _ hkey => absurd hkey h'
  query := fun _ hkey => absurd hkey h

/-! ### Keys -/

/-- The condition on a key, in the state it comes to. -/
def TextSafe (s : Editor) (k : KeyEvent) : Prop :=
  match k.key with
  | .up => Plain ((s.buf.line (s.cur.line - 1)).take s.cur.col)
  | .down => Plain ((s.buf.line (min (s.cur.line + 1) (s.buf.lineCount - 1))).take s.cur.col)
  | .pgUp => Plain ((s.buf.line (s.cur.line - s.rows)).take s.cur.col)
  | .pgDn => Plain ((s.buf.line (min (s.cur.line + s.rows) (s.buf.lineCount - 1))).take s.cur.col)
  | .left | .backspace =>
      s.cur.col = 0 → 0 < s.cur.line → Plain (s.buf.line (s.cur.line - 1))
  | .right => ∀ c ∈ (s.buf.line s.cur.line)[s.cur.col]?, Printable c
  | .end => Plain (s.buf.line s.cur.line)
  | .delete => ∀ c ∈ (s.buf.line s.cur.line)[s.cur.col]?, c.toNat < 0x80
  | .char => k.mods.ctrl = false → 0x20 ≤ k.ch → k.ch < 0x7F
  | _ => True

/-- In a search, the place that is found, and the byte that is taken from what is searched. -/
def SearchSafe (s : Editor) (k : KeyEvent) : Prop :=
  match k.key with
  | .enter => ∀ q, s.buf.find s.query ⟨s.cur.line, s.cur.col + 1⟩ = some q →
      Plain ((s.buf.line q.line).take q.col)
  | .backspace => ∀ c ∈ s.query.getLast?, c.toNat < 0x80
  | _ => True

def Safe (s : Editor) : Event → Prop
  | .key k _ =>
      match s.mode with
      | .normal => s.TextSafe k
      | .searching => s.SearchSafe k
      | .confirming => True
  | .resize _ => True

instance (s : Editor) (k : KeyEvent) : Decidable (s.TextSafe k) := by
  unfold TextSafe
  split <;> infer_instance

instance (s : Editor) (k : KeyEvent) : Decidable (s.SearchSafe k) := by
  unfold SearchSafe
  split
  · exact decidable_of_iff (∀ q ∈ s.buf.find s.query ⟨s.cur.line, s.cur.col + 1⟩,
      Plain ((s.buf.line q.line).take q.col)) Iff.rfl
  all_goals infer_instance

instance (s : Editor) (e : Event) : Decidable (s.Safe e) := by
  unfold Safe
  split
  · split <;> infer_instance
  · infer_instance

/-- The text, the cursor and the page stay. -/
structure Alike (s s' : Editor) : Prop where
  lines : s'.buf.lines = s.buf.lines
  cur : s'.cur = s.cur
  top : s'.top = s.top
  size : s'.size = s.size

namespace Alike

variable {s' : Editor}

theorem placed (h : Alike s s') (hp : Placed s) : Placed s' := by
  obtain ⟨⟨hline, hcol⟩, htop, hshown⟩ := hp
  refine ⟨⟨?_, ?_⟩, ?_, ?_⟩
  · rw [TextBuffer.lineCount, h.lines, h.cur]
    exact hline
  · rw [TextBuffer.line, h.lines, h.cur]
    exact hcol
  · rw [h.top, h.cur]
    exact htop
  · rw [rows, rowsForText, h.size, h.top, h.cur]
    exact hshown

theorem whole_iff (h : Alike s s') (hp : Placed s) : s'.Whole ↔ s.Whole := by
  have haround : s'.buf.around s'.cur = s.buf.around s.cur := by
    unfold TextBuffer.around TextBuffer.line
    rw [h.lines, h.cur]
  rw [(h.placed hp).whole_iff, hp.whole_iff, haround]

end Alike

theorem alike_save (s : Editor) (io : Saving) : Alike s (s.save io) := by
  unfold save
  repeat' split
  all_goals exact ⟨rfl, rfl, rfl, rfl⟩

theorem alike_requestClose (s : Editor) : Alike s s.requestClose := by
  unfold requestClose
  split <;> exact ⟨rfl, rfl, rfl, rfl⟩

theorem alike_onCtrl (s : Editor) (ch : Nat) (io : Saving) : Alike s (s.onCtrl ch io) := by
  unfold onCtrl
  split
  · exact s.alike_save io
  split
  · split
    · exact ⟨rfl, rfl, rfl, rfl⟩
    · exact s.alike_requestClose
  split <;> exact ⟨rfl, rfl, rfl, rfl⟩

theorem alike_onConfirmKey (s : Editor) (k : KeyEvent) : Alike s (s.onConfirmKey k) := by
  unfold onConfirmKey requestClose
  simp only
  split
  · split <;> exact ⟨rfl, rfl, rfl, rfl⟩
  · exact ⟨rfl, rfl, rfl, rfl⟩

/-- A search goes somewhere, or leaves the text and the cursor. -/
theorem onSearchKey_cases (s : Editor) (k : KeyEvent) :
    Alike s (s.onSearchKey k) ∨
      ∃ found, k.key = .enter ∧ s.buf.find s.query ⟨s.cur.line, s.cur.col + 1⟩ = some found ∧
        s.onSearchKey k = ({ s with mode := .normal, cur := found, status := [] } : Editor).settle := by
  unfold onSearchKey
  split
  next hkey =>
    simp only
    split
    next found hfound => exact .inr ⟨found, hkey, hfound, rfl⟩
    next => exact .inl ⟨rfl, rfl, rfl, rfl⟩
  · exact .inl ⟨rfl, rfl, rfl, rfl⟩
  · exact .inl ⟨rfl, rfl, rfl, rfl⟩
  · split <;> exact .inl ⟨rfl, rfl, rfl, rfl⟩
  · exact .inl ⟨rfl, rfl, rfl, rfl⟩

theorem placed_onTextKey (hp : Placed s) (k : KeyEvent) (io : Saving) : Placed (s.onTextKey k io) := by
  unfold onTextKey
  split
  case h_12 =>
    split
    · exact (s.alike_onCtrl k.ch io).placed hp
    split
    · exact hp
    · exact placed_settle _
  case h_13 => exact hp
  all_goals exact placed_settle _

theorem placed_step (hp : Placed s) (e : Event) : Placed (s.step e) := by
  cases e with
  | resize size =>
      show Placed (s.onResize size)
      unfold onResize
      split
      · exact hp
      · exact placed_settle _
  | key k io =>
      show Placed (s.onKey k io)
      unfold onKey
      split
      · rcases s.onSearchKey_cases k with halike | ⟨found, -, -, hgo⟩
        · exact halike.placed hp
        · rw [hgo]
          exact placed_settle _
      · exact (s.alike_onConfirmKey k).placed hp
      · exact placed_onTextKey hp k io

section Keys

variable (hp : Placed s) (hw : s.Whole)

include hw in
theorem whole_goTo_iff {line col : Nat} (hline : line < s.buf.lineCount) :
    (s.goTo ⟨line, col⟩).Whole ↔ Plain ((s.buf.line line).take col) :=
  whole_settle_iff (s := { s with cur := ⟨line, col⟩ }) hw.lines hline

include hp hw

/-- What stands before the cursor on its line, now. -/
theorem plain_left : Plain ((s.buf.line s.cur.line).take s.cur.col) :=
  (hp.whole_iff.1 hw).left

theorem whole_here : (s.goTo s.cur).Whole :=
  (whole_goTo_iff hw hp.inside.line).2 (plain_left hp hw)

theorem whole_left_iff :
    (s.goTo (if s.cur.col > 0 then { s.cur with col := s.cur.col - 1 }
      else if s.cur.line > 0 then ⟨s.cur.line - 1, s.lineLength (s.cur.line - 1)⟩
      else s.cur)).Whole ↔
      (s.cur.col = 0 → 0 < s.cur.line → Plain (s.buf.line (s.cur.line - 1))) := by
  have hline := hp.inside.line
  split
  next hcol =>
    have hleft := (plain_left hp hw).take (s.cur.col - 1)
    rw [List.take_take, Nat.min_eq_left (Nat.sub_le _ _)] at hleft
    exact iff_of_true ((whole_goTo_iff hw hline).2 hleft) fun hzero => absurd hcol (by omega)
  next hcol =>
    rw [imp_iff_right (Nat.eq_zero_of_not_pos hcol)]
    split
    next hfirst =>
      rw [imp_iff_right hfirst, whole_goTo_iff hw (show s.cur.line - 1 < s.buf.lineCount by omega)]
      show Plain (List.take (s.buf.line (s.cur.line - 1)).length _) ↔ _
      rw [List.take_length]
    next hfirst => exact iff_of_true (whole_here hp hw) fun h => absurd h hfirst

theorem whole_right_iff :
    (s.goTo (if s.cur.col < s.lineLength s.cur.line then { s.cur with col := s.cur.col + 1 }
      else if s.cur.line + 1 < s.buf.lineCount then ⟨s.cur.line + 1, 0⟩
      else s.cur)).Whole ↔ ∀ c ∈ (s.buf.line s.cur.line)[s.cur.col]?, Printable c := by
  split
  next hcol =>
    refine (whole_goTo_iff hw hp.inside.line).trans ?_
    rw [List.take_add_one, plain_append, and_iff_right (plain_left hp hw)]
    unfold Plain
    simp
  next hcol =>
    have hend : (s.buf.line s.cur.line)[s.cur.col]? = none :=
      List.getElem?_eq_none (Nat.not_lt.1 hcol)
    rw [hend]
    refine iff_of_true ?_ nofun
    split
    next hlast => exact (whole_goTo_iff hw hlast).2 nofun
    next => exact whole_here hp hw

/-- Backspace removes one character in any case: what matters is where the cursor goes. -/
theorem whole_eraseBefore_iff {k : KeyEvent} (hkey : k.key = .backspace) (hmode : s.mode = .normal) :
    (s.edit (s.buf.eraseBefore s.cur)).Whole ∧ s.Removes k (s.edit (s.buf.eraseBefore s.cur)) ↔
      (s.cur.col = 0 → 0 < s.cur.line → Plain (s.buf.line (s.cur.line - 1))) := by
  have hintact := hp.whole_iff.1 hw
  have hshows := hp.inside.shows.eraseBefore
  have hremoves : s.Removes k (s.edit (s.buf.eraseBefore s.cur)) := by
    refine ⟨fun _ _ => ?_, fun _ h => ?_, fun h _ => ?_⟩
    · rw [before, before, after, after, around_edit hshows]
      exact ⟨hintact.removesLast, Around.after_eraseBefore _⟩
    · exact absurd (hkey.symm.trans h) (by decide)
    · exact absurd (hmode.symm.trans h) (by decide)
  rw [and_iff_left hremoves, whole_edit_iff hshows, hintact.eraseBefore_iff, hp.inside.shows.above_getLast?]
  -- nothing stands on the left exactly in the first column
  have hcol : (s.buf.around s.cur).left = [] ↔ s.cur.col = 0 := by
    rw [← List.length_eq_zero_iff]
    exact iff_of_eq (congrArg (· = 0) (List.length_take_of_le hp.inside.col))
  rw [hcol]
  refine imp_congr_right fun _ => ?_
  split
  next hfirst => exact iff_of_true nofun fun h => absurd hfirst (Nat.ne_of_gt h)
  next hfirst => simp [Nat.pos_of_ne_zero hfirst]

theorem whole_eraseAt_iff {k : KeyEvent} (hkey : k.key = .delete) (hmode : s.mode = .normal) :
    (s.edit (s.buf.eraseAt s.cur)).Whole ∧ s.Removes k (s.edit (s.buf.eraseAt s.cur)) ↔
      ∀ c ∈ (s.buf.line s.cur.line)[s.cur.col]?, c.toNat < 0x80 := by
  have hintact := hp.whole_iff.1 hw
  have hshows := hp.inside.shows.eraseAt
  have hhead : (s.buf.around s.cur).right.head? = (s.buf.line s.cur.line)[s.cur.col]? := List.head?_drop
  rw [whole_edit_iff hshows, hintact.eraseAt_iff, hhead, and_iff_left_iff_imp]
  intro hascii
  refine ⟨fun _ h => ?_, fun _ _ => ?_, fun h _ => ?_⟩
  · exact absurd (hkey.symm.trans h) (by decide)
  · rw [before, before, after, after, around_edit hshows]
    exact ⟨Around.before_eraseAt _, Around.removesFirst_iff.2 (hhead ▸ hascii)⟩
  · exact absurd (hmode.symm.trans h) (by decide)

/-- A character is typed: it holds on one byte, or is not written. -/
theorem whole_onTextKey_char_iff (ch : Nat) (mods : Input.Mods) (io : Saving) :
    (s.onTextKey ⟨.char, ch, mods⟩ io).Whole ↔ (mods.ctrl = false → 0x20 ≤ ch → ch < 0x7F) := by
  show (if mods.ctrl = true then s.onCtrl ch io else if ch < 0x20 then s
    else { s with status := [] }.edit (s.buf.insert s.cur (encodeUtf8 ch))).Whole ↔ _
  split
  next hctrl =>
    refine iff_of_true (((s.alike_onCtrl ch io).whole_iff hp).2 hw) fun hplain => ?_
    exact absurd (hctrl.symm.trans hplain) (by decide)
  next hctrl =>
  rw [imp_iff_right (Bool.not_eq_true _ |>.mp hctrl)]
  split
  next hlow => exact iff_of_true hw fun h => absurd hlow (Nat.not_lt.2 h)
  next hhigh =>
    have hch : 0x20 ≤ ch := Nat.not_lt.1 hhigh
    rw [imp_iff_right hch, ← plain_encodeUtf8_iff hch]
    have hshows := hp.inside.shows.insert (encodeUtf8 ch)
    exact (whole_edit_iff (s := { s with status := [] }) hshows).trans ((hp.whole_iff.1 hw).insert_iff _)

theorem whole_onTextKey_iff (hmode : s.mode = .normal) (k : KeyEvent) (io : Saving) :
    (s.onTextKey k io).Whole ∧ s.Removes k (s.onTextKey k io) ↔ s.TextSafe k := by
  have hline := hp.inside.line
  obtain ⟨key, ch, mods⟩ := k
  have hmoves : ∀ s', key ≠ .backspace → key ≠ .delete → s.Removes ⟨key, ch, mods⟩ s' :=
    fun s' h h' => removes_of_ne h h' s'
  cases key with
  | up =>
      rw [and_iff_left (hmoves _ nofun nofun)]
      exact whole_goTo_iff hw (Nat.lt_of_le_of_lt (Nat.sub_le _ _) hline)
  | down =>
      rw [and_iff_left (hmoves _ nofun nofun)]
      show (s.goTo (if s.cur.line + 1 < s.buf.lineCount then _ else s.cur)).Whole ↔
        Plain ((s.buf.line (min (s.cur.line + 1) (s.buf.lineCount - 1))).take s.cur.col)
      split
      next hnext =>
        rw [Nat.min_eq_left (by omega)]
        exact whole_goTo_iff hw hnext
      next hlast =>
        rw [Nat.min_eq_right (by omega), show s.buf.lineCount - 1 = s.cur.line by omega]
        exact whole_goTo_iff hw hline
  | left =>
      rw [and_iff_left (hmoves _ nofun nofun)]
      exact whole_left_iff hp hw
  | right =>
      rw [and_iff_left (hmoves _ nofun nofun)]
      exact whole_right_iff hp hw
  | home =>
      rw [and_iff_left (hmoves _ nofun nofun)]
      exact iff_of_true ((whole_goTo_iff hw hline).2 nofun) trivial
  | «end» =>
      rw [and_iff_left (hmoves _ nofun nofun)]
      refine (whole_goTo_iff hw hline).trans ?_
      show Plain (List.take (s.buf.line s.cur.line).length _) ↔ _
      rw [List.take_length]
      rfl
  | pgUp =>
      rw [and_iff_left (hmoves _ nofun nofun)]
      have hsame : (if s.cur.line > s.rows then s.cur.line - s.rows else 0) = s.cur.line - s.rows := by
        split <;> omega
      show (s.goTo { s.cur with line := if s.cur.line > s.rows then s.cur.line - s.rows else 0 }).Whole ↔ _
      rw [hsame]
      exact whole_goTo_iff hw (Nat.lt_of_le_of_lt (Nat.sub_le _ _) hline)
  | pgDn =>
      rw [and_iff_left (hmoves _ nofun nofun)]
      exact whole_goTo_iff hw (by omega)
  | enter =>
      rw [and_iff_left (hmoves _ nofun nofun)]
      have hintact := (hp.whole_iff.1 hw).splitLine
      exact iff_of_true ((whole_edit_iff hp.inside.shows.splitLine).2 hintact) trivial
  | backspace => exact whole_eraseBefore_iff hp hw rfl hmode
  | delete => exact whole_eraseAt_iff hp hw rfl hmode
  | char =>
      rw [and_iff_left (hmoves _ nofun nofun)]
      exact whole_onTextKey_char_iff hp hw ch mods io
  | none | unknown | tab | backTab | escape | insert | f1 | f2 | f3 | f4 | f5 | f6 | f7 | f8 | f9 | f10
  | f11 | f12 => exact iff_of_true ⟨hw, hmoves _ nofun nofun⟩ trivial

theorem whole_onSearchKey_iff (hmode : s.mode = .searching) (k : KeyEvent) :
    (s.onSearchKey k).Whole ∧ s.Removes k (s.onSearchKey k) ↔ s.SearchSafe k := by
  obtain ⟨key, ch, mods⟩ := k
  have hothers : ∀ s', key ≠ .backspace → key ≠ .delete → s.Removes ⟨key, ch, mods⟩ s' :=
    fun s' h h' => removes_of_ne h h' s'
  have hstay : ∀ {s'}, Alike s s' → s'.Whole := fun h => (h.whole_iff hp).2 hw
  cases key with
  | enter =>
      rw [and_iff_left (hothers _ nofun nofun)]
      cases hfind : s.buf.find s.query ⟨s.cur.line, s.cur.col + 1⟩ with
      | none =>
          have hsame : s.onSearchKey ⟨.enter, ch, mods⟩ =
              { s with mode := .normal, status := text "introuvable : " ++ s.query } := by
            simp only [onSearchKey, hfind]
          rw [hsame]
          refine iff_of_true (hstay ⟨rfl, rfl, rfl, rfl⟩) fun q hq => ?_
          cases hfind.symm.trans hq
      | some found =>
          have hgo : s.onSearchKey ⟨.enter, ch, mods⟩ =
              ({ s with mode := .normal, cur := found, status := [] } : Editor).settle := by
            simp only [onSearchKey, hfind]
          have hfound := (TextBuffer.find_spec hfind).2.1
          rw [hgo]
          refine (whole_settle_iff (s := { s with mode := .normal, cur := found, status := [] })
            hw.lines hfound.line).trans ?_
          constructor
          · intro hplain q hq
            cases hfind.symm.trans hq
            exact hplain
          · exact fun h => h found hfind
  | backspace =>
      have hwhole : (s.onSearchKey ⟨.backspace, ch, mods⟩).Whole := hstay ⟨rfl, rfl, rfl, rfl⟩
      rw [and_iff_right hwhole]
      refine Iff.trans ?_ removesLast_dropLast_iff
      refine ⟨fun h => h.query hmode rfl, fun h => ⟨fun h' _ => ?_, fun h' _ => ?_, fun _ _ => h⟩⟩
      all_goals exact absurd (hmode.symm.trans h') (by decide)
  | char =>
      rw [and_iff_left (hothers _ nofun nofun)]
      refine iff_of_true ?_ trivial
      show (if ch ≥ 0x20 then { s with query := s.query ++ encodeUtf8 ch } else s).Whole
      split
      · exact hstay ⟨rfl, rfl, rfl, rfl⟩
      · exact hw
  | escape => exact iff_of_true ⟨hstay ⟨rfl, rfl, rfl, rfl⟩, hothers _ nofun nofun⟩ trivial
  | delete =>
      refine iff_of_true ⟨hw, ⟨fun _ h => ?_, fun h _ => ?_, fun _ h => ?_⟩⟩ trivial
      · cases h
      · exact absurd (hmode.symm.trans h) (by decide)
      · cases h
  | none | unknown | tab | backTab | up | down | left | right | home | «end» | pgUp | pgDn | insert
  | f1 | f2 | f3 | f4 | f5 | f6 | f7 | f8 | f9 | f10 | f11 | f12 =>
      exact iff_of_true ⟨hw, hothers _ nofun nofun⟩ trivial

/-- What Backspace and Delete should do, for what happens to an editor. -/
def StepRemoves (s : Editor) : Event → Prop
  | .key k io => s.Removes k (s.onKey k io)
  | .resize _ => True

/-- **One step** breaks nothing exactly when it meets the condition. -/
theorem whole_step_iff (e : Event) : (s.step e).Whole ∧ s.StepRemoves e ↔ s.Safe e := by
  cases e with
  | resize size =>
      refine iff_of_true ⟨?_, trivial⟩ trivial
      show (s.onResize size).Whole
      unfold onResize
      split
      · exact hw
      · have hleft := plain_left hp hw
        exact (whole_settle_iff (s := { s with size }) hw.lines hp.inside.line).2 hleft
  | key k io =>
      show (s.onKey k io).Whole ∧ s.Removes k (s.onKey k io) ↔ s.Safe (.key k io)
      unfold Safe
      cases hmode : s.mode with
      | normal =>
          have hkey : s.onKey k io = s.onTextKey k io := by simp only [onKey, hmode]
          rw [hkey]
          exact whole_onTextKey_iff hp hw hmode k io
      | searching =>
          have hkey : s.onKey k io = s.onSearchKey k := by simp only [onKey, hmode]
          rw [hkey]
          exact whole_onSearchKey_iff hp hw hmode k
      | confirming =>
          have hkey : s.onKey k io = s.onConfirmKey k := by simp only [onKey, hmode]
          rw [hkey]
          refine iff_of_true ⟨((s.alike_onConfirmKey k).whole_iff hp).2 hw, ?_⟩ trivial
          refine ⟨fun h _ => ?_, fun h _ => ?_, fun h _ => ?_⟩
          all_goals exact absurd (hmode.symm.trans h) (by decide)

end Keys

/-! ### Runs -/

theorem isText_cut (l rest : Bytes) (h : IsText (l ++ kNewline :: rest)) : IsText l ∧ IsText rest := by
  have hbreak : ¬ Common.Continues kNewline := by decide
  have hget : (l ++ kNewline :: rest)[l.length]? = some kNewline := by simp
  obtain ⟨htake, hdrop⟩ := h.cut (k := l.length) fun b hb => by
    rw [hget] at hb
    cases hb
    exact hbreak
  rw [List.take_left] at htake
  rw [List.drop_left] at hdrop
  exact ⟨htake, (IsText.tail_iff hdrop).2 (by decide)⟩

/-- An editor on a text. -/
theorem placed_open (path file : Bytes) (io : Opening) : Placed («open» path file io) where
  inside := ⟨TextBuffer.lineCount_pos _, Nat.zero_le _⟩
  top := Nat.le_refl 0
  shown := Nat.lt_of_lt_of_le (rows_pos _) (Nat.le_add_left _ _)

theorem whole_open {path file : Bytes} {io : Opening} (h : IsText (readWhole file io)) :
    («open» path file io).Whole := by
  rw [(placed_open path file io).whole_iff, Around.intact_iff,
    ← (placed_open path file io).inside.shows.lines]
  refine ⟨?_, nofun⟩
  show ∀ l ∈ (TextBuffer.load (readWhole file io)).lines, IsText l
  unfold TextBuffer.load
  split
  · exact List.forall_mem_singleton.2 .nil
  · exact Lib.forall_mem_lines isText_cut h

/-- **When the editor breaks no character.** On a file whose content, as it was read, is a text:
all the states of a run are whole, and each Backspace and Delete removes one character or one line
break, exactly when every step meets the condition. -/
theorem run_whole_iff (path file : Bytes) (io : Opening) (es : List Event)
    (hfile : IsText (readWhole file io)) :
    (∀ before, before <+: es → (run step («open» path file io) before).Whole) ∧
        StepsMeet step StepRemoves («open» path file io) es ↔
      StepsMeet step Safe («open» path file io) es :=
  @Lib.run_good_and_iff _ _ step Safe StepRemoves Placed Whole (fun _ e hp => placed_step hp e)
    (fun _ e hp hw => whole_step_iff hp hw e) _ es (placed_open path file io) (whole_open hfile)

/-- A key without a character. -/
def keyOnly (key : Key) : Event := .key { key } { wrote := none }

/-- A character that is typed. -/
def typed (ch : Nat) : Event := .key { key := .char, ch } { wrote := none }

/-- Two lines; the end of the first, a character, and back; the other line, and it joins. -/
theorem run_whole_iff_ascii :
    (∀ before, before <+: [keyOnly .end, typed 0x21, keyOnly .backspace, keyOnly .down, keyOnly .home,
        keyOnly .backspace] →
      (run step («open» (text "/a") (text "ab\ncd") {}) before).Whole) ∧
    StepsMeet step StepRemoves («open» (text "/a") (text "ab\ncd") {})
      [keyOnly .end, typed 0x21, keyOnly .backspace, keyOnly .down, keyOnly .home, keyOnly .backspace] :=
  (run_whole_iff (text "/a") (text "ab\ncd") {}
    [keyOnly .end, typed 0x21, keyOnly .backspace, keyOnly .down, keyOnly .home, keyOnly .backspace]
    (.of_ascii (by decide +kernel))).2 (by decide +kernel)

/-- One step to the right, and the cursor is inside the character. -/
theorem right_breaks : ¬ ((∀ before, before <+: [keyOnly .right] →
      (run step («open» (text "/a") (encodeUtf8 0xE9) {}) before).Whole) ∧
    StepsMeet step StepRemoves («open» (text "/a") (encodeUtf8 0xE9) {}) [keyOnly .right]) := by
  rintro ⟨hall, -⟩
  have hleft := (hall [keyOnly .right] (List.prefix_refl _)).left
  have hhalf : ((run step («open» (text "/a") (encodeUtf8 0xE9) {}) [keyOnly .right]).buf.line
      (run step («open» (text "/a") (encodeUtf8 0xE9) {}) [keyOnly .right]).cur.line).take
      (run step («open» (text "/a") (encodeUtf8 0xE9) {}) [keyOnly .right]).cur.col = [0xC3] := by
    decide +kernel
  rw [hhalf] at hleft
  exact absurd ((IsText.tail_iff hleft).1 .nil) (by decide)

/-- Backspace leaves half of it. -/
example : (run step («open» (text "/a") (encodeUtf8 0xE9) {}) [keyOnly .end, keyOnly .backspace]).buf.lines =
    [[0xC3]] := by
  decide +kernel

end Editor

end Sshos.Apps
