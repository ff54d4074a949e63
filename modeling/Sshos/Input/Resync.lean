import Sshos.Common.Utf8Walk
import Sshos.Input.Timeout
import Sshos.Render.Width

/-!
# Sshos.Input.Resync

Where the decoder **resynchronises**. A sequence that stops at a byte that continues none gives
that byte back, but one that the end of the text cuts takes all that is left, whatever it is: a
letter that stands there is lost with it.

What is read of two texts one after the other is what is read of each, unless the first ends in a
sequence that is cut (`cutTail`). The bytes of that sequence are then read again with those of the
second text, and only a sequence of nothing but continuations comes out the same.
-/

namespace Sshos.Input

open Sshos.Common (Continues kReplacement utf8Continuations utf8Decode utf8Decode_append utf8Decode_pos
  utf8Walk utf8Walk_append utf8Walk_end utf8Walk_next)
open Sshos.Lib (Bytes)
open Sshos.Render (cellsFrom charWidth textCells)

/-! ### The characters and where they stand -/

/-- The characters from byte `i` on, each with the byte where it starts. -/
def utf8Chars (s : Bytes) (i : Nat) : List (Nat × Nat) :=
  if i < s.length then (i, (utf8Decode s i).2) :: utf8Chars s (i + (utf8Decode s i).1) else []
termination_by s.length - i
decreasing_by
  have hpos := utf8Decode_pos s i
  omega

/-- The columns taken by the characters that start before byte `k`. -/
def columnOf (s : Bytes) (k : Nat) : Nat :=
  (((utf8Chars s 0).filter fun c => c.1 < k).map fun c => charWidth false c.2).sum

/-- A character, `n` bytes further. -/
def shift (n : Nat) (c : Nat × Nat) : Nat × Nat := (n + c.1, c.2)

variable {s t : Bytes} {i : Nat}

theorem utf8Chars_end (hi : s.length ≤ i) : utf8Chars s i = [] := by
  rw [utf8Chars, if_neg (Nat.not_lt.2 hi)]

theorem utf8Chars_next (hi : i < s.length) :
    utf8Chars s i = (i, (utf8Decode s i).2) :: utf8Chars s (i + (utf8Decode s i).1) := by
  rw [utf8Chars, if_pos hi]

theorem utf8Chars_nil : utf8Chars [] 0 = [] := utf8Chars_end (Nat.le_refl _)

/-- They are the characters of the walk. -/
theorem map_utf8Chars (s : Bytes) (i : Nat) : (utf8Chars s i).map Prod.snd = (utf8Walk s i).1 := by
  induction i using utf8Chars.induct (s := s) with
  | case1 i hlt ih => rw [utf8Chars_next hlt, utf8Walk_next hlt, List.map_cons, ih]
  | case2 i hend =>
      rw [utf8Chars_end (Nat.not_lt.1 hend), utf8Walk_end (Nat.not_lt.1 hend)]
      rfl

/-- They start one after another. -/
theorem le_of_mem_utf8Chars {c : Nat × Nat} (hc : c ∈ utf8Chars s i) : i ≤ c.1 := by
  induction i using utf8Chars.induct (s := s) with
  | case1 i hlt ih =>
      rw [utf8Chars_next hlt] at hc
      rcases List.mem_cons.1 hc with rfl | hrest
      · exact Nat.le_refl _
      · exact (Nat.le_add_right _ _).trans (ih hrest)
  | case2 i hend =>
      rw [utf8Chars_end (Nat.not_lt.1 hend)] at hc
      cases hc

theorem lt_of_mem_utf8Chars {c : Nat × Nat} (hc : c ∈ utf8Chars s i) : c.1 < s.length := by
  induction i using utf8Chars.induct (s := s) with
  | case1 i hlt ih =>
      rw [utf8Chars_next hlt] at hc
      rcases List.mem_cons.1 hc with rfl | hrest
      · exact hlt
      · exact ih hrest
  | case2 i hend =>
      rw [utf8Chars_end (Nat.not_lt.1 hend)] at hc
      cases hc

/-- What stands before a place does not matter to the characters from there. -/
theorem utf8Chars_append (a s : Bytes) (i : Nat) :
    utf8Chars (a ++ s) (a.length + i) = (utf8Chars s i).map (shift a.length) := by
  induction i using utf8Chars.induct (s := s) with
  | case1 i hlt ih =>
      have hlt' : a.length + i < (a ++ s).length := by
        rw [List.length_append]
        omega
      rw [utf8Chars_next hlt', utf8Chars_next hlt, utf8Decode_append, Nat.add_assoc, ih]
      rfl
  | case2 i hend =>
      have hend' : (a ++ s).length ≤ a.length + i := by
        rw [List.length_append]
        omega
      rw [utf8Chars_end hend', utf8Chars_end (Nat.not_lt.1 hend)]
      rfl

/-- A character starts at `j`: what is read from there is the rest of what is read. -/
theorem utf8Chars_split {j cp : Nat} (hj : (j, cp) ∈ utf8Chars s i) :
    ∃ front, utf8Chars s i = front ++ utf8Chars s j ∧ (i ≠ j → front ≠ []) := by
  induction i using utf8Chars.induct (s := s) with
  | case1 i hlt ih =>
      by_cases hij : i = j
      · exact ⟨[], by rw [hij, List.nil_append], fun hne => absurd hij hne⟩
      · rw [utf8Chars_next hlt] at hj ⊢
        have hrest : (j, cp) ∈ utf8Chars s (i + (utf8Decode s i).1) := by
          rcases List.mem_cons.1 hj with heq | hrest
          · exact absurd (Prod.mk.inj heq).1.symm hij
          · exact hrest
        obtain ⟨front, hfront, -⟩ := ih hrest
        exact ⟨_ :: front, by rw [hfront, List.cons_append], fun _ => List.cons_ne_nil _ _⟩
  | case2 i hend =>
      rw [utf8Chars_end (Nat.not_lt.1 hend)] at hj
      cases hj

/-- The columns of a text are those of its characters. -/
theorem cellsFrom_eq (s : Bytes) : ∀ (fuel : Nat) {i : Nat}, s.length - i ≤ fuel →
    cellsFrom s fuel i = ((utf8Chars s i).map fun c => charWidth false c.2).sum := by
  intro fuel
  induction fuel with
  | zero =>
      intro i hfuel
      rw [utf8Chars_end (by omega)]
      rfl
  | succ fuel ih =>
      intro i hfuel
      rw [cellsFrom]
      by_cases hi : i < s.length
      · have hpos := utf8Decode_pos s i
        rw [if_pos hi, utf8Chars_next hi, List.map_cons, List.sum_cons, ih (by omega)]
      · rw [if_neg hi, utf8Chars_end (Nat.not_lt.1 hi)]
        rfl

theorem textCells_eq (s : Bytes) :
    textCells s = ((utf8Chars s 0).map fun c => charWidth false c.2).sum :=
  cellsFrom_eq s s.length (Nat.sub_le _ _)

/-! ### What a sequence takes -/

/-- How many of the next `n` bytes continue a character, up to the first that does not. -/
def continued : (n : Nat) → Bytes → Nat
  | 0, _ => 0
  | _ + 1, [] => 0
  | n + 1, b :: s => if Continues b then continued n s + 1 else 0

theorem continued_le_length (n : Nat) (s : Bytes) : continued n s ≤ s.length := by
  induction n generalizing s with
  | zero => exact Nat.zero_le _
  | succ n ih =>
      cases s with
      | nil => exact Nat.zero_le _
      | cons b s =>
          rw [continued]
          split
          · exact Nat.succ_le_succ (ih s)
          · exact Nat.zero_le _

/-- A byte that continues nothing stops the count. -/
theorem continued_append (ht : ∀ b ∈ t.head?, ¬ Continues b) {n : Nat} (hn : s.length ≤ n) :
    continued n (s ++ t) = continued n s := by
  induction s generalizing n with
  | nil =>
      cases n with
      | zero => rfl
      | succ n =>
          cases t with
          | nil => rfl
          | cons b t => exact if_neg (ht b rfl)
  | cons b s ih =>
      cases n with
      | zero => exact absurd hn (Nat.not_succ_le_zero _)
      | succ n =>
          simp only [List.cons_append, continued]
          rw [ih (Nat.le_of_succ_le_succ hn)]

theorem continued_eq_length_iff {n : Nat} (hn : s.length ≤ n) :
    continued n s = s.length ↔ ∀ b ∈ s, Continues b := by
  induction s generalizing n with
  | nil =>
      cases n with
      | zero => exact iff_of_true rfl nofun
      | succ n => exact iff_of_true rfl nofun
  | cons b s ih =>
      cases n with
      | zero => exact absurd hn (Nat.not_succ_le_zero _)
      | succ n =>
          have hrest := @ih n (Nat.le_of_succ_le_succ hn)
          rw [List.forall_mem_cons, continued, List.length_cons]
          by_cases hb : Continues b
          · rw [if_pos hb, Nat.succ_inj, hrest]
            exact ⟨fun h => ⟨hb, h⟩, fun h => h.2⟩
          · rw [if_neg hb]
            exact iff_of_false (Nat.succ_ne_zero _).symm fun h => hb h.1

/-- The loop over the continuation bytes stops where the count does. -/
theorem utf8Continuations_continued (s : Bytes) (left : Nat) : ∀ k cp,
    (continued left (s.drop k) = left ∧ ∃ c, utf8Continuations s 0 left k cp = .ok c) ∨
      (continued left (s.drop k) < left ∧
        utf8Continuations s 0 left k cp = .error (k + continued left (s.drop k))) := by
  induction left with
  | zero => exact fun _ cp => .inl ⟨rfl, cp, rfl⟩
  | succ left ih =>
      intro k cp
      by_cases hk : k < s.length
      · have hread : s.getD (0 + k) 0 = s[k] := by
          rw [Nat.zero_add, List.getD_eq_getElem?_getD, List.getElem?_eq_getElem hk]
          rfl
        rw [List.drop_eq_getElem_cons hk]
        simp only [utf8Continuations, continued, hread]
        by_cases hb : Continues s[k]
        · have hgood : ¬ s[k].toNat &&& 0xC0 ≠ 0x80 := not_not_intro hb
          rw [if_pos hb, if_neg hgood]
          rcases ih (k + 1) ((cp <<< 6) ||| (s[k].toNat &&& 0x3F)) with ⟨hall, hok⟩ | ⟨hfew, herror⟩
          · exact .inl ⟨congrArg Nat.succ hall, hok⟩
          · refine .inr ⟨Nat.succ_lt_succ hfew, ?_⟩
            rw [herror, Nat.add_assoc, Nat.add_comm 1]
        · have hbad : s[k].toNat &&& 0xC0 ≠ 0x80 := hb
          rw [if_neg hb, if_pos hbad]
          exact .inr ⟨Nat.succ_pos _, rfl⟩
      · have hread : s.getD (0 + k) 0 = 0 := by
          rw [Nat.zero_add, List.getD_eq_getElem?_getD, List.getElem?_eq_none (Nat.not_lt.1 hk)]
          rfl
        rw [List.drop_eq_nil_of_le (Nat.not_lt.1 hk)]
        simp only [utf8Continuations, continued, hread]
        exact .inr ⟨Nat.succ_pos _, rfl⟩

/-- Where all the announced bytes are there, the first of them that continues nothing is given
back. -/
theorem utf8Decode_taken {b0 : UInt8} {rest : Bytes} (h : utf8SeqLen b0 ≤ (b0 :: rest).length) :
    (utf8Decode (b0 :: rest) 0).1 = continued (utf8SeqLen b0 - 1) rest + 1 ∧
      (continued (utf8SeqLen b0 - 1) rest < utf8SeqLen b0 - 1 →
        (utf8Decode (b0 :: rest) 0).2 = kReplacement) := by
  rw [utf8SeqLen_eq] at h ⊢
  rw [utf8Decode_cons]
  by_cases hascii : b0.toNat < 0x80
  · simp only [if_pos hascii]
    exact ⟨rfl, fun hlt => absurd hlt (Nat.not_lt_zero _)⟩
  simp only [if_neg hascii] at h ⊢
  cases hlead : leadOf b0.toNat with
  | none => exact ⟨rfl, fun hlt => absurd hlt (Nat.not_lt_zero _)⟩
  | some lead =>
      obtain ⟨need, bits⟩ := lead
      simp only [hlead] at h ⊢
      have hroom : need + 1 ≤ (b0 :: rest).length := h
      rw [if_neg (by omega), Nat.add_sub_cancel]
      rcases utf8Continuations_continued (b0 :: rest) need 1 bits with ⟨hall, c, hok⟩ | ⟨hfew, herror⟩
      · rw [List.drop_one, List.tail_cons] at hall
        simp only [hok, hall]
        refine ⟨?_, fun hlt => absurd hlt (Nat.lt_irrefl _)⟩
        split
        · rfl
        · rfl
      · rw [List.drop_one, List.tail_cons] at herror
        simp only [herror]
        exact ⟨Nat.add_comm _ _, fun _ => trivial⟩

/-! ### The sequence the end cuts -/

/-- The sequence at the end of a text that the end cuts, empty where there is none. -/
def cutTail : Bytes → Bytes
  | [] => []
  | b0 :: rest =>
      if (b0 :: rest).length < utf8SeqLen b0 then b0 :: rest
      else cutTail (rest.drop (continued (utf8SeqLen b0 - 1) rest))
termination_by s => s.length
decreasing_by
  rw [List.length_drop, List.length_cons]
  omega

theorem cutTail_cut (s : Bytes) :
    cutTail s = [] ∨ ∃ b0 rest, cutTail s = b0 :: rest ∧ (b0 :: rest).length < utf8SeqLen b0 := by
  induction s using cutTail.induct with
  | case1 => exact .inl (by rw [cutTail])
  | case2 b0 rest hcut =>
      rw [cutTail, if_pos hcut]
      exact .inr ⟨b0, rest, rfl, hcut⟩
  | case3 b0 rest hwhole ih =>
      rw [cutTail, if_neg hwhole]
      exact ih

theorem shift_shift (m n : Nat) (cs : List (Nat × Nat)) :
    (cs.map (shift m)).map (shift n) = cs.map (shift (n + m)) := by
  rw [List.map_map]
  exact List.map_congr_left fun c _ => by simp only [Function.comp_apply, shift, Nat.add_assoc]

/-- **What is read before the cut sequence does not depend on what follows the text.** -/
theorem utf8Chars_cutTail (s : Bytes) :
    ∃ (front : Bytes) (cs : List (Nat × Nat)), s = front ++ cutTail s ∧ (∀ c ∈ cs, c.1 < front.length) ∧
      ∀ t, utf8Chars (s ++ t) 0 = cs ++ (utf8Chars (cutTail s ++ t) 0).map (shift front.length) := by
  have hid : ∀ cs : List (Nat × Nat), cs.map (shift 0) = cs := fun cs =>
    (List.map_congr_left fun c _ => by simp only [shift, Nat.zero_add]; rfl).trans (List.map_id cs)
  induction s using cutTail.induct with
  | case1 =>
      rw [cutTail]
      exact ⟨[], [], rfl, nofun, fun t => (hid _).symm⟩
  | case2 b0 rest hcut =>
      rw [cutTail, if_pos hcut]
      exact ⟨[], [], rfl, nofun, fun t => (hid _).symm⟩
  | case3 b0 rest hwhole ih =>
      rw [cutTail, if_neg hwhole]
      obtain ⟨front, cs, hsplit, hcs, hread⟩ := ih
      generalize htail : cutTail _ = tail at hsplit hread ⊢
      obtain ⟨used, cp, -, -, hstable⟩ := utf8Decode_stable (Nat.not_lt.1 hwhole)
      have hused : used = continued (utf8SeqLen b0 - 1) rest + 1 := by
        have htaken := (utf8Decode_taken (Nat.not_lt.1 hwhole)).1
        have hhere := hstable []
        rw [List.append_nil] at hhere
        rwa [hhere] at htaken
      generalize hn : continued (utf8SeqLen b0 - 1) rest = n at hsplit hread hused
      have hlen : (b0 :: rest.take n).length = n + 1 := by
        have hle := continued_le_length (utf8SeqLen b0 - 1) rest
        rw [List.length_cons, List.length_take_of_le (hn ▸ hle)]
      have hparts : b0 :: rest = (b0 :: rest.take n) ++ rest.drop n := by
        rw [List.cons_append, List.take_append_drop]
      refine ⟨(b0 :: rest.take n) ++ front, (0, cp) :: cs.map (shift (n + 1)), ?_, ?_, fun t => ?_⟩
      · rw [List.append_assoc, ← hsplit, ← hparts]
      · rw [List.length_append, hlen]
        refine List.forall_mem_cons.2 ⟨by simp only; omega, fun c hc => ?_⟩
        obtain ⟨c', hc', rfl⟩ := List.mem_map.1 hc
        have hlt := hcs c' hc'
        simp only [shift]
        omega
      · have hnext : utf8Chars (b0 :: rest ++ t) 0 = (0, cp) :: utf8Chars (b0 :: rest ++ t) (n + 1) := by
          rw [utf8Chars_next (Nat.succ_pos _), List.cons_append, hstable t, hused, Nat.zero_add]
        have hrest := utf8Chars_append (b0 :: rest.take n) (rest.drop n ++ t) 0
        rw [hlen, ← List.append_assoc, ← hparts, Nat.add_zero, hread t] at hrest
        rw [hnext, hrest, List.map_append, shift_shift, List.cons_append, List.length_append, hlen]

/-! ### The property and its condition -/

/-- What is read of two texts one after the other is what is read of each: the code points, the
columns, a character that starts where the second starts, whose column is that of the first text
alone; and a delay that ends there keeps all of the second. -/
structure Resyncs (s t : Bytes) : Prop where
  codePoints : (utf8Walk (s ++ t) 0).1 = (utf8Walk s 0).1 ++ (utf8Walk t 0).1
  cells : textCells (s ++ t) = textCells s + textCells t
  starts : t ≠ [] → s.length ∈ (utf8Chars (s ++ t) 0).map Prod.fst
  column : columnOf (s ++ t) s.length = textCells s
  kept : ∀ p : InputParser, p.inPaste = false → p.buf = s ++ t → (∀ b ∈ s.head?, b ≠ 0x1b) →
    s ≠ [] → t <:+ p.timeout.buf

/-- Nothing follows, or no sequence is cut, or it is one of continuations only and the bytes it
announces are there once the second text is. -/
def CutWell (s t : Bytes) : Prop :=
  t = [] ∨ match cutTail s with
    | [] => True
    | b0 :: rest => (∀ b ∈ rest, Continues b) ∧ utf8SeqLen b0 ≤ (b0 :: rest).length + t.length

/-- A sequence that is cut is one replacement character. -/
theorem utf8Chars_cut {b0 : UInt8} {rest : Bytes} (h : (b0 :: rest).length < utf8SeqLen b0) :
    utf8Chars (b0 :: rest) 0 = [(0, kReplacement)] := by
  rw [utf8Chars_next (Nat.succ_pos _), InputParser.utf8Decode_cut h,
    utf8Chars_end (Nat.le_of_eq (Nat.zero_add _).symm)]

/-- The cut sequence with the bytes of the second text, where it comes out the same. -/
theorem utf8Chars_rejoined {b0 : UInt8} {rest : Bytes} (hcut : (b0 :: rest).length < utf8SeqLen b0)
    (hrest : ∀ b ∈ rest, Continues b) (hroom : utf8SeqLen b0 ≤ (b0 :: rest).length + t.length)
    (ht : ∀ b ∈ t.head?, ¬ Continues b) :
    utf8Chars (b0 :: rest ++ t) 0 =
      (0, kReplacement) :: (utf8Chars t 0).map (shift (b0 :: rest).length) := by
  rw [List.length_cons] at hcut
  have hle : rest.length ≤ utf8SeqLen b0 - 1 := by omega
  have hcount : continued (utf8SeqLen b0 - 1) (rest ++ t) = rest.length := by
    rw [continued_append ht hle, (continued_eq_length_iff hle).2 hrest]
  have hwhole : utf8SeqLen b0 ≤ (b0 :: (rest ++ t)).length := by
    rw [List.length_cons, List.length_append]
    rw [List.length_cons] at hroom
    omega
  obtain ⟨hused, hcp⟩ := utf8Decode_taken hwhole
  rw [hcount] at hused hcp
  have hafter := utf8Chars_append (b0 :: rest) t 0
  rw [Nat.add_zero, List.length_cons] at hafter
  rw [utf8Chars_next (Nat.succ_pos _), List.cons_append, hcp (by omega), hused, Nat.zero_add,
    List.length_cons, ← hafter]
  rfl

/-- **The characters are those of each text**, where the condition holds. -/
theorem CutWell.chars (h : CutWell s t) (ht : ∀ b ∈ t.head?, ¬ Continues b) :
    utf8Chars (s ++ t) 0 = utf8Chars s 0 ++ (utf8Chars t 0).map (shift s.length) := by
  rcases h with rfl | h
  · rw [List.append_nil, utf8Chars_nil, List.map_nil, List.append_nil]
  obtain ⟨front, cs, hsplit, -, hread⟩ := utf8Chars_cutTail s
  have hs := hread []
  rw [List.append_nil, List.append_nil] at hs
  rw [hread t, hs, List.append_assoc]
  refine congrArg _ ?_
  have hlen : s.length = front.length + (cutTail s).length := by
    conv_lhs => rw [hsplit]
    rw [List.length_append]
  rcases cutTail_cut s with hnone | ⟨b0, rest, hcut, hshort⟩
  · rw [hlen, hnone, utf8Chars_nil]
    rfl
  · rw [hcut] at h
    rw [hlen, hcut, utf8Chars_cut hshort, utf8Chars_rejoined hshort h.1 h.2 ht, List.map_cons, shift_shift]
    rfl

/-- A character starts where the second text does: the first is read within the first text. -/
theorem used_le_of_starts (hs : s ≠ []) (h : s.length ∈ (utf8Chars (s ++ t) 0).map Prod.fst) :
    (utf8Decode (s ++ t) 0).1 ≤ s.length := by
  have hpos : 0 < s.length := List.length_pos_iff.2 hs
  have hin : 0 < (s ++ t).length := by
    rw [List.length_append]
    exact Nat.add_pos_left hpos _
  rw [utf8Chars_next hin, List.map_cons, List.mem_cons, Nat.zero_add] at h
  rcases h with hzero | hrest
  · omega
  · obtain ⟨c, hc, hstart⟩ := List.mem_map.1 hrest
    exact hstart ▸ le_of_mem_utf8Chars hc

theorem resyncs_of_chars
    (h : utf8Chars (s ++ t) 0 = utf8Chars s 0 ++ (utf8Chars t 0).map (shift s.length)) :
    Resyncs s t := by
  have hafter : ∀ {β : Type} (f : Nat → β), ((utf8Chars t 0).map (shift s.length)).map (fun c => f c.2) =
      (utf8Chars t 0).map fun c => f c.2 := by
    intro β f
    rw [List.map_map]
    rfl
  have hstarts : t ≠ [] → s.length ∈ (utf8Chars (s ++ t) 0).map Prod.fst := by
    intro ht
    rw [h, utf8Chars_next (List.length_pos_iff.2 ht), List.map_append, List.map_cons]
    exact List.mem_append_right _ List.mem_cons_self
  refine ⟨?_, ?_, hstarts, ?_, fun p hin hbuf hesc hs => ?_⟩
  · rw [← map_utf8Chars, ← map_utf8Chars, ← map_utf8Chars, h, List.map_append]
    exact congrArg _ (hafter id)
  · rw [textCells_eq, textCells_eq, textCells_eq, h, List.map_append, List.sum_append, hafter]
  · have hbefore : (utf8Chars s 0).filter (fun c => c.1 < s.length) = utf8Chars s 0 :=
      List.filter_eq_self.2 fun c hc => decide_eq_true (lt_of_mem_utf8Chars hc)
    have hnone : ((utf8Chars t 0).map (shift s.length)).filter (fun c => c.1 < s.length) = [] := by
      refine List.filter_eq_nil_iff.2 fun c hc => ?_
      obtain ⟨c', -, rfl⟩ := List.mem_map.1 hc
      exact fun hlt => absurd (of_decide_eq_true hlt) (Nat.not_lt.2 (Nat.le_add_right _ _))
    rw [columnOf, h, List.filter_append, hbefore, hnone, List.append_nil, textCells_eq]
  · by_cases ht : t = []
    · rw [ht]
      exact List.nil_suffix
    · have hused := used_le_of_starts hs (hstarts ht)
      obtain ⟨b0, rest, rfl⟩ := List.exists_cons_of_ne_nil hs
      have hne : b0 ≠ 0x1b := hesc b0 rfl
      have hleft : p.timeout.buf = (b0 :: rest ++ t).drop (utf8Decode (b0 :: rest ++ t) 0).1 := by
        simp only [InputParser.timeout, hin, hbuf, List.cons_append, hne, ne_eq, not_false_eq_true,
          if_true, Bool.false_eq_true, if_false]
      rw [hleft, List.drop_append_of_le_length hused]
      exact List.suffix_append _ _

/-- After a sequence that is cut, a character starts with the second text; what is cut counts for
one replacement. -/
theorem Resyncs.after_cut (h : Resyncs s t) (hnil : t ≠ []) {b0 : UInt8} {rest : Bytes}
    (hcut : cutTail s = b0 :: rest) (hshort : (b0 :: rest).length < utf8SeqLen b0) :
    (∃ cp, ((b0 :: rest).length, cp) ∈ utf8Chars (b0 :: rest ++ t) 0) ∧
    (utf8Chars (b0 :: rest ++ t) 0).length = 1 + (utf8Chars t 0).length := by
  obtain ⟨front, cs, hsplit, hcs, hread⟩ := utf8Chars_cutTail s
  have hlen : s.length = front.length + (cutTail s).length := by
    conv_lhs => rw [hsplit]
    rw [List.length_append]
  rw [hcut] at hread hlen
  constructor
  · obtain ⟨⟨j, cp⟩, hmem, hj⟩ := List.mem_map.1 (h.starts hnil)
    simp only at hj
    rw [hread t, hj] at hmem
    rcases List.mem_append.1 hmem with hbefore | hafter
    · have hlt := hcs _ hbefore
      simp only at hlt
      omega
    · obtain ⟨⟨j', cp'⟩, hmem', heq⟩ := List.mem_map.1 hafter
      obtain ⟨hplace, rfl⟩ := Prod.mk.inj heq
      have hj' : j' = (b0 :: rest).length := by
        simp only at hplace
        omega
      exact ⟨_, hj' ▸ hmem'⟩
  · have hcodes := congrArg List.length h.codePoints
    have hs := hread []
    rw [List.append_nil, List.append_nil, utf8Chars_cut hshort] at hs
    rw [← map_utf8Chars, ← map_utf8Chars, ← map_utf8Chars, hread t, hs] at hcodes
    simp only [List.length_append, List.length_map, List.length_cons, List.length_nil] at hcodes
    omega

/-- Where characters are those of each text, the condition holds. -/
theorem Resyncs.cutWell (h : Resyncs s t) (ht : ∀ b ∈ t.head?, ¬ Continues b) : CutWell s t := by
  by_cases hnil : t = []
  · exact .inl hnil
  rcases cutTail_cut s with hnone | ⟨b0, rest, hcut, hshort⟩
  · exact .inr (by rw [hnone]; trivial)
  right
  obtain ⟨⟨cp, hhere⟩, hpoints⟩ := h.after_cut hnil hcut hshort
  rw [hcut]
  have hroom : utf8SeqLen b0 ≤ (b0 :: rest).length + t.length := by
    refine Nat.not_lt.1 fun hstill => ?_
    have hcutAll : (b0 :: (rest ++ t)).length < utf8SeqLen b0 := by
      rw [List.length_cons, List.length_append]
      rw [List.length_cons] at hstill
      omega
    rw [List.cons_append, utf8Chars_cut hcutAll] at hhere
    have hzero := (Prod.mk.inj (List.mem_singleton.1 hhere)).1
    exact absurd hzero (Nat.succ_ne_zero _)
  refine ⟨?_, hroom⟩
  rw [List.length_cons] at hshort hroom
  have hle : rest.length ≤ utf8SeqLen b0 - 1 := by omega
  rw [← continued_eq_length_iff hle, ← continued_append ht hle]
  have hwhole : utf8SeqLen b0 ≤ (b0 :: (rest ++ t)).length := by
    rw [List.length_cons, List.length_append]
    omega
  have hused := (utf8Decode_taken hwhole).1
  rw [List.cons_append, utf8Chars_next (Nat.succ_pos _), hused, Nat.zero_add] at hhere hpoints
  generalize continued (utf8SeqLen b0 - 1) (rest ++ t) = n at hhere hpoints ⊢
  have hafter := utf8Chars_append (b0 :: rest) t 0
  rw [Nat.add_zero, List.cons_append] at hafter
  by_contra hne
  -- otherwise bytes of the sequence are read again before the second text
  rcases List.mem_cons.1 hhere with hfirst | hlater
  · exact absurd (Prod.mk.inj hfirst).1 (Nat.succ_ne_zero _)
  · obtain ⟨again, hsplit', hsome⟩ := utf8Chars_split hlater
    have hlong := List.length_pos_iff.2 (hsome fun heq => hne (Nat.succ.inj heq))
    rw [hsplit', hafter] at hpoints
    simp only [List.length_cons, List.length_append, List.length_map] at hpoints
    omega

/-- **Decoding resynchronises at the next character exactly where no sequence is cut**, or the one
that is cut comes out the same: continuations only, with the bytes it announces. -/
theorem resyncs_iff (s t : Bytes) (ht : ∀ b ∈ t.head?, ¬ Continues b) :
    Resyncs s t ↔ CutWell s t :=
  ⟨fun h => h.cutWell ht, fun h => resyncs_of_chars (h.chars ht)⟩

/-- A letter continues nothing. -/
theorem letter_continues : ∀ b ∈ ([0x41] : Bytes).head?, ¬ Continues b := by
  intro b hb
  rw [← Option.some.inj (show some 0x41 = some b from hb)]
  decide

/-- An `é` whose second byte is lost, before a letter. -/
theorem resyncs_iff_lost :
    Resyncs [0xC3] [0x41] ↔ CutWell [0xC3] [0x41] :=
  resyncs_iff [0xC3] [0x41] letter_continues

/-- A euro sign cut after one byte swallows the letter that follows. -/
theorem letter_swallowed :
    ¬ ∀ s t : Bytes, (∀ b ∈ t.head?, ¬ Continues b) → Resyncs s t := by
  intro h
  have hcells := (h [0xE2] [0x41] letter_continues).cells
  revert hcells
  decide +kernel

end Sshos.Input
