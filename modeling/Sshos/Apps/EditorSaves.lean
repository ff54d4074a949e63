import Sshos.Apps.Editor

/-!
# Sshos.Apps.EditorSaves

**Saving what was not edited.** The text that is written is the text that was read, except for
an empty one, which gets a newline. But the text that was read is the file only if no call
failed on the way: the editor does not know that it holds a part, and writes it over the whole.
-/

namespace Sshos.Apps

open Sshos.Input (KeyEvent)
open Sshos.Lib (Bytes run StepsMeet)
open Sshos.Shell (text)
open Sshos.Wm (Size)

/-! ### What is read -/

/-- No call fails before the end of the file. -/
def ReachesEnd (rest : Bytes) (calls : List ReadCall) : Prop :=
  ∀ before after, calls = before ++ .fails :: after → rest.length ≤ (before.map ReadCall.most).sum

theorem most_gives_pos (n : Nat) : 0 < (ReadCall.gives n).most := by
  show 0 < min (max n 1) 8192
  omega

theorem reachesEnd_gives {rest : Bytes} {n : Nat} {calls : List ReadCall} :
    ReachesEnd rest (.gives n :: calls) ↔ ReachesEnd (rest.drop (ReadCall.gives n).most) calls := by
  constructor
  · rintro h before after rfl
    have hlen := h (.gives n :: before) after rfl
    rw [List.map_cons, List.sum_cons] at hlen
    rw [List.length_drop]
    omega
  · intro h before after hcalls
    cases before with
    | nil => cases hcalls
    | cons call before =>
        obtain ⟨rfl, hrest⟩ := List.cons.inj hcalls
        have hlen := h before after hrest
        rw [List.length_drop] at hlen
        rw [List.map_cons, List.sum_cons]
        omega

/-- **The whole file is read** exactly when no call fails before its end. -/
theorem readLoop_eq_iff {rest : Bytes} {calls : List ReadCall} :
    readLoop rest calls = rest ↔ ReachesEnd rest calls := by
  induction calls generalizing rest with
  | nil => exact iff_of_true rfl fun before after h => absurd h (by simp)
  | cons call calls ih =>
      cases call with
      | fails =>
          constructor
          · intro hnil before after _
            rw [← hnil]
            exact Nat.zero_le _
          · intro h
            exact (List.eq_nil_of_length_eq_zero (Nat.le_zero.1 (h [] calls rfl))).symm
      | gives n =>
          rw [reachesEnd_gives, ← ih]
          have hsplit := List.take_append_drop (ReadCall.gives n).most rest
          constructor
          · intro h
            exact List.append_cancel_left (h.trans hsplit.symm)
          · intro h
            rw [readLoop, h, hsplit]

theorem readLoop_eq_nil_iff {rest : Bytes} {calls : List ReadCall} :
    readLoop rest calls = [] ↔ rest = [] ∨ calls.head? = some .fails := by
  cases calls with
  | nil => simp [readLoop]
  | cons call calls =>
      cases call with
      | fails => simp [readLoop]
      | gives n =>
          have hpos := most_gives_pos n
          constructor
          · intro h
            have htake := (List.append_eq_nil_iff.1 h).1
            rcases List.take_eq_nil_iff.1 htake with hzero | hrest
            · omega
            · exact .inl hrest
          · rintro (rfl | h)
            · have hdrop := @readLoop_eq_iff [] calls
              rw [readLoop, List.take_nil, List.drop_nil, List.nil_append]
              exact hdrop.2 fun _ _ _ => Nat.zero_le _
            · cases h

theorem readWhole_eq_iff {file : Bytes} (hfile : file ≠ []) (io : Opening) :
    readWhole file io = file ↔ io.opened = true ∧ ReachesEnd file io.calls := by
  unfold readWhole
  by_cases hopened : io.opened = true
  · rw [if_pos hopened, readLoop_eq_iff, and_iff_right hopened]
  · rw [if_neg hopened]
    exact iff_of_false hfile.symm fun h => hopened h.1

theorem readWhole_eq_nil_iff {file : Bytes} (hfile : file ≠ []) (io : Opening) :
    readWhole file io = [] ↔ io.opened = false ∨ io.calls.head? = some .fails := by
  unfold readWhole
  by_cases hopened : io.opened = true
  · rw [if_pos hopened, readLoop_eq_nil_iff, or_iff_right hfile, hopened]
    simp
  · rw [if_neg hopened]
    exact iff_of_true rfl (.inl (Bool.not_eq_true _ |>.mp hopened))

/-- What was read is written back as the file. Of a file that is one newline, nothing needs to be
read for that. -/
def Opening.Gives (io : Opening) (file : Bytes) : Prop :=
  (file ≠ [] ∧ io.opened = true ∧ ReachesEnd file io.calls) ∨
  (file = [kNewline] ∧ (io.opened = false ∨ io.calls.head? = some .fails))

theorem text_load_iff (t : Bytes) : (TextBuffer.load t).text = t ↔ t ≠ [] := by
  refine ⟨?_, TextBuffer.text_load⟩
  rintro h rfl
  exact List.cons_ne_nil _ _ h

theorem text_load_readWhole_iff (file : Bytes) (io : Opening) :
    (TextBuffer.load (readWhole file io)).text = file ↔ io.Gives file := by
  unfold Opening.Gives
  by_cases hread : readWhole file io = []
  · rw [hread, TextBuffer.text_load_nil]
    constructor
    · rintro rfl
      exact .inr ⟨rfl, (readWhole_eq_nil_iff (List.cons_ne_nil _ _) io).1 hread⟩
    · rintro (⟨hne, hwhole⟩ | ⟨rfl, -⟩)
      · exact absurd (((readWhole_eq_iff hne io).2 hwhole).symm.trans hread) hne
      · rfl
  · rw [TextBuffer.text_load hread]
    constructor
    · intro hwhole
      rw [hwhole] at hread
      exact .inl ⟨hread, (readWhole_eq_iff hread io).1 hwhole⟩
    · rintro (⟨hne, hwhole⟩ | ⟨rfl, hnone⟩)
      · exact (readWhole_eq_iff hne io).2 hwhole
      · exact absurd ((readWhole_eq_nil_iff (List.cons_ne_nil _ _) io).2 hnone) hread

/-! ### Keys that do not edit -/

namespace Editor

variable {s : Editor}

/-- The text is edited, by a key that changes it or would if there was something to change. -/
def Edits (s : Editor) : Event → Prop
  | .key k _ => s.mode = .normal ∧
      (k.key = .enter ∨ k.key = .backspace ∨ k.key = .delete ∨
        (k.key = .char ∧ k.mods.ctrl = false ∧ 0x20 ≤ k.ch))
  | .resize _ => False

instance (s : Editor) : (e : Event) → Decidable (s.Edits e)
  | .key _ _ => inferInstanceAs (Decidable (_ ∧ _))
  | .resize _ => inferInstanceAs (Decidable False)

/-- The text is saved, and nothing goes wrong. -/
def Saves (s : Editor) : Event → Prop
  | .key k io => s.mode = .normal ∧ k.key = .char ∧ k.mods.ctrl = true ∧ k.ch = 0x73 ∧ s.path ≠ [] ∧
      io.opened = true ∧ io.wrote = some s.buf.text.length ∧ io.renamed = true
  | .resize _ => False

theorem text_save (s : Editor) (io : Saving) : (s.save io).buf.text = s.buf.text := by
  unfold save
  repeat' split
  all_goals rfl

theorem file_save (s : Editor) {io : Saving}
    (h : s.path ≠ [] ∧ io.opened = true ∧ io.wrote = some s.buf.text.length ∧ io.renamed = true) :
    (s.save io).file = s.buf.text := by
  obtain ⟨hpath, hopened, hwrote, hrenamed⟩ := h
  unfold save
  rw [if_neg hpath, if_neg (not_not.2 hopened), if_neg (not_not.2 hwrote), if_neg (not_not.2 hrenamed)]

theorem file_save_of_not (s : Editor) {io : Saving}
    (h : ¬ (s.path ≠ [] ∧ io.opened = true ∧ io.wrote = some s.buf.text.length ∧ io.renamed = true)) :
    (s.save io).file = s.file := by
  unfold save
  split
  · rfl
  next hpath =>
  split
  · rfl
  next hopened =>
  split
  · rfl
  next hwrote =>
  split
  · rfl
  next hrenamed => exact absurd ⟨hpath, not_not.1 hopened, not_not.1 hwrote, not_not.1 hrenamed⟩ h

/-- The file is left alone by a search, an answer, a resize. -/
theorem file_onSearchKey (s : Editor) (k : KeyEvent) :
    (s.onSearchKey k).file = s.file ∧ (s.onSearchKey k).buf = s.buf := by
  unfold onSearchKey
  split
  · simp only
    split <;> exact ⟨rfl, rfl⟩
  · exact ⟨rfl, rfl⟩
  · exact ⟨rfl, rfl⟩
  · split <;> exact ⟨rfl, rfl⟩
  · exact ⟨rfl, rfl⟩

theorem file_onConfirmKey (s : Editor) (k : KeyEvent) :
    (s.onConfirmKey k).file = s.file ∧ (s.onConfirmKey k).buf = s.buf := by
  unfold onConfirmKey requestClose
  simp only
  split
  · split <;> exact ⟨rfl, rfl⟩
  · exact ⟨rfl, rfl⟩

theorem file_onResize (s : Editor) (size : Size) :
    (s.onResize size).file = s.file ∧ (s.onResize size).buf = s.buf := by
  unfold onResize
  split <;> exact ⟨rfl, rfl⟩

/-- A key that does not edit leaves the text. -/
theorem text_step {e : Event} (h : ¬ s.Edits e) : (s.step e).buf.text = s.buf.text := by
  cases e with
  | resize size => exact congrArg TextBuffer.text (s.file_onResize size).2
  | key k io =>
      show (s.onKey k io).buf.text = s.buf.text
      unfold onKey
      split
      · exact congrArg TextBuffer.text (s.file_onSearchKey k).2
      · exact congrArg TextBuffer.text (s.file_onConfirmKey k).2
      next hmode =>
      unfold onTextKey
      split
      case h_9 hkey => exact absurd ⟨hmode, .inl hkey⟩ h
      case h_10 hkey => exact absurd ⟨hmode, .inr (.inl hkey)⟩ h
      case h_11 hkey => exact absurd ⟨hmode, .inr (.inr (.inl hkey))⟩ h
      case h_12 hkey =>
        split
        · unfold onCtrl requestClose
          split
          · exact s.text_save io
          repeat' split
          all_goals rfl
        next hctrl =>
        split
        · rfl
        next hch =>
          have hplain : k.mods.ctrl = false := Bool.not_eq_true _ |>.mp hctrl
          exact absurd ⟨hmode, .inr (.inr (.inr ⟨hkey, hplain, Nat.not_lt.1 hch⟩))⟩ h
      all_goals rfl

theorem file_step_of_saves {e : Event} (h : s.Saves e) : (s.step e).file = s.buf.text := by
  cases e with
  | resize size => exact h.elim
  | key k io =>
      obtain ⟨hmode, hkey, hctrl, hch, hgood⟩ := h
      show (s.onKey k io).file = s.buf.text
      unfold onKey onTextKey onCtrl
      simp only [hmode, hkey, hctrl, hch, if_true]
      exact s.file_save hgood

/-- **Only a save changes the file.** -/
theorem file_step_of_not_saves {e : Event} (h : ¬ s.Saves e) : (s.step e).file = s.file := by
  cases e with
  | resize size => exact (s.file_onResize size).1
  | key k io =>
      show (s.onKey k io).file = s.file
      unfold onKey
      split
      · exact (s.file_onSearchKey k).1
      · exact (s.file_onConfirmKey k).1
      next hmode =>
      unfold onTextKey
      split
      case h_12 hkey =>
        split
        next hctrl =>
          unfold onCtrl requestClose
          split
          next hch => exact s.file_save_of_not fun hgood => h ⟨hmode, hkey, hctrl, hch, hgood⟩
          repeat' split
          all_goals rfl
        · split <;> rfl
      all_goals rfl

/-- A run without edits keeps the text; the file is the text once it was saved. -/
theorem run_file {es : List Event} (h : StepsMeet step (fun s e => ¬ s.Edits e) s es) :
    (StepsMeet step (fun s e => ¬ s.Saves e) s es → (run step s es).file = s.file) ∧
    (¬ StepsMeet step (fun s e => ¬ s.Saves e) s es → (run step s es).file = s.buf.text) := by
  induction es generalizing s with
  | nil => exact ⟨fun _ => rfl, fun hsaved => absurd trivial hsaved⟩
  | cons e es ih =>
      obtain ⟨hrefused, hsaved⟩ := ih h.2
      rw [text_step h.1] at hsaved
      by_cases hlater : StepsMeet step (fun s e => ¬ s.Saves e) (s.step e) es
      · refine ⟨fun hmeet => ?_, fun hmeet => ?_⟩
        · exact (hrefused hlater).trans (file_step_of_not_saves hmeet.1)
        · have hnow : s.Saves e := not_not.1 fun hnot => hmeet ⟨hnot, hlater⟩
          exact (hrefused hlater).trans (file_step_of_saves hnow)
      · exact ⟨fun hmeet => absurd hmeet.2 hlater, fun _ => hsaved hlater⟩

/-- **When saving keeps the file.** A text that was read is written back as it was unless it is
empty. And a run without edits leaves the file as it was exactly when no save goes through, or
what was read is written back as the file. -/
theorem keepsFile_iff (t path file : Bytes) (io : Opening) (es : List Event) :
    ((TextBuffer.load t).text = t ↔ t ≠ []) ∧
    (StepsMeet step (fun s e => ¬ s.Edits e) («open» path file io) es →
      ((run step («open» path file io) es).file = file ↔
        StepsMeet step (fun s e => ¬ s.Saves e) («open» path file io) es ∨ io.Gives file)) := by
  refine ⟨text_load_iff t, fun hes => ?_⟩
  obtain ⟨hrefused, hsaved⟩ := run_file hes
  by_cases hmeet : StepsMeet step (fun s e => ¬ s.Saves e) («open» path file io) es
  · exact iff_of_true (hrefused hmeet) (.inl hmeet)
  · rw [or_iff_right hmeet, hsaved hmeet]
    exact text_load_readWhole_iff file io

/-- The chord that saves, with what `write` answers. -/
def saveKey (wrote : Nat) : Event :=
  .key { key := .char, ch := 0x73, mods := { ctrl := true } } { wrote := some wrote }

/-- A file without a last newline, read two bytes first, looked at, and saved. -/
theorem keepsFile_iff_pieces :
    (run step («open» (text "/a") (text "a\r\nb") { calls := [.gives 2] })
      [.key { key := .down } { wrote := none }, saveKey 4]).file = text "a\r\nb" :=
  ((keepsFile_iff (text "a") (text "/a") (text "a\r\nb") { calls := [.gives 2] }
    [.key { key := .down } { wrote := none }, saveKey 4]).2 (by decide +kernel)).2
    (.inr (.inl ⟨by decide +kernel, rfl, readLoop_eq_iff.1 (by decide +kernel)⟩))

/-- An empty file gets a newline. -/
theorem empty_file_grows :
    ¬ (StepsMeet step (fun s e => ¬ s.Edits e) («open» (text "/a") [] {}) [saveKey 1] →
      (run step («open» (text "/a") [] {}) [saveKey 1]).file = []) := by
  decide +kernel

/-- A part of a file takes its place. -/
example : (run step («open» (text "/a") (text "ab") { calls := [.gives 1, .fails] }) [saveKey 1]).file =
    text "a" := by
  decide +kernel

end Editor

end Sshos.Apps
