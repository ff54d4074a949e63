import Sshos.Apps.Borrow
import Sshos.Apps.DiffShown
import Sshos.Shell.Modal

/-!
# Sshos.Client.TtyGuard

The **guard of the client's terminal**: what it writes when it takes the terminal, what it
writes when it gives it back, and the handler of a fatal signal, which gives it back from
wherever the client was interrupted.

Between the two stands what the daemon has drawn. The bytes may be cut anywhere, in the
middle of a sequence or of a character.
-/

namespace Sshos.Client

open Sshos.Apps
open Sshos.Common (encodeUtf8 IsScalar)
open Sshos.Lib
open Sshos.Render
open Sshos.Shell (text text_ofList)
open Sshos.Vt
open Sshos.Vt.Parser (Reads csiBytes furtherParams modeCall privateMode privateModes)

/-! ### What the guard writes -/

def ttySetupSequence : Bytes := text "\x1b[?1049h\x1b[?1002h\x1b[?1006h\x1b[?2004h\x1b[?1004h\x1b[?7l"

def ttyRestoreSequence : Bytes :=
  text "\x1b[?25h\x1b[?7h\x1b[?1004l\x1b[?2004l\x1b[?1006l\x1b[?1002l\x1b[?1049l"

/-- The same bytes, for a handler that may not allocate. -/
def kCrashRestoreLiteral : Bytes :=
  text "\x1b[?25h\x1b[?7h\x1b[?1004l\x1b[?2004l\x1b[?1006l\x1b[?1002l\x1b[?1049l"

def setupModes : List (Nat × Bool) :=
  [(1049, true), (1002, true), (1006, true), (2004, true), (1004, true), (7, false)]

def restoreModes : List (Nat × Bool) :=
  [(25, true), (7, true), (1004, false), (2004, false), (1006, false), (1002, false), (1049, false)]

theorem ttySetupSequence_eq : ttySetupSequence = privateModes setupModes := by
  unfold ttySetupSequence
  rw [text_ofList]
  decide

theorem ttyRestoreSequence_eq : ttyRestoreSequence = privateModes restoreModes := by
  unfold ttyRestoreSequence
  rw [text_ofList]
  decide

theorem kCrashRestoreLiteral_eq : kCrashRestoreLiteral = privateModes restoreModes :=
  ttyRestoreSequence_eq

/-! ### The process -/

/-- What the process does to its terminal. -/
inductive TtyStep where
  | setRaw
  /-- `g_crash_fd = fd_` -/
  | arm
  | put (byte : UInt8)
  | setSaved
  /-- `g_crash_fd = -1` -/
  | disarm
  deriving DecidableEq

/-- The terminal's line discipline, whether the handler knows the terminal, and what has
been written to it. -/
structure TtyProcess (T : Type) where
  termios : T
  crashFd : Bool := false
  out : Bytes := []

section Process

variable {T : Type} (saved : T) (cfmakeraw : T → T)

def TtyProcess.step (p : TtyProcess T) : TtyStep → TtyProcess T
  | .setRaw => { p with termios := cfmakeraw saved }
  | .arm => { p with crashFd := true }
  | .put byte => { p with out := p.out ++ [byte] }
  | .setSaved => { p with termios := saved }
  | .disarm => { p with crashFd := false }

/-- The constructor, what the client shows, and the destructor. -/
def ttyProgram (shown : Bytes) : List TtyStep :=
  [.setRaw, .arm] ++ (ttySetupSequence ++ shown ++ ttyRestoreSequence).map .put ++
    [.setSaved, .disarm]

/-- `crash_restore`, reached by the last of some fatal signals: each of the others is
interrupted by the next after so many bytes of its own. -/
def TtyProcess.onFatal (p : TtyProcess T) (interrupted : List Nat) : TtyProcess T :=
  if p.crashFd then
    { p with
      out := p.out ++ interrupted.flatMap (kCrashRestoreLiteral.take ·) ++ kCrashRestoreLiteral
      termios := saved }
  else p

/-- The life of the process up to some step, and its end. -/
def ttyAfter (before : List TtyStep) (interrupted : List Nat) : TtyProcess T :=
  (run (TtyProcess.step saved cfmakeraw) { termios := saved } before).onFatal saved interrupted

end Process

/-! ### Frames are painted -/

/-- The bytes are calls of a renderer. -/
def Paints (bytes : Bytes) : Prop := ∃ calls, Reads bytes calls ∧ ∀ c ∈ calls, Sink.PaintCall c

theorem Paints.nil : Paints [] := ⟨[], Parser.Reads.nil, by simp⟩

theorem Paints.append {as bs : Bytes} (ha : Paints as) (hb : Paints bs) : Paints (as ++ bs) := by
  obtain ⟨cs, hcs, hpaint⟩ := ha
  obtain ⟨ds, hds, hpaint'⟩ := hb
  refine ⟨cs ++ ds, hcs.append hds, fun c hc => ?_⟩
  rcases List.mem_append.1 hc with hc | hc
  · exact hpaint c hc
  · exact hpaint' c hc

theorem Paints.one {bytes : Bytes} {c : SinkCall} (h : Reads bytes [c]) (hc : Sink.PaintCall c) :
    Paints bytes := by
  refine ⟨[c], h, fun d hd => ?_⟩
  rw [List.mem_singleton.1 hd]
  exact hc

theorem paints_cup (x y : Nat) : Paints (cup x y) := by
  have hbytes : cup x y = csiBytes [y + 1, x + 1] 0x48 := by
    have hnum : ∀ n : Nat, num ((n : Int) + 1) = decimal (n + 1) := fun n => num_natCast (n + 1)
    simp [cup, csiBytes, furtherParams, hnum]
  rw [hbytes]
  exact .one (Parser.reads_csi (by decide) (by simp [kMaxParams])) (.move _)

theorem paints_cursor (on : Bool) : Paints (cursorBytes on) := by
  refine .one (reads_cursor on) ?_
  cases on
  · exact .cursor false
  · exact .cursor true

theorem paints_eraseLine : Paints [0x1B, 0x5B, 0x4B] :=
  .one (@Parser.reads_csi [] 0x4B (by decide) (by decide)) (.erase _)

theorem paints_resetPen : Paints [0x1B, 0x5B, 0x30, 0x6D] :=
  .one (@Parser.reads_csi [0] 0x6D (by decide) (by decide)) (.style _)

theorem paints_sgrTransition (p : OutputProfile) (before after : Style) :
    Paints (sgrTransition before after p) := by
  obtain ⟨codes, hreads, -⟩ := restyles_sgrTransition p before after
  refine ⟨_, hreads, fun c hc => ?_⟩
  obtain ⟨params, -, rfl⟩ := List.mem_map.1 hc
  exact .style params

section Emission

variable {amb : Bool} {p : OutputProfile} {cur prev : Surface} {full : Bool} {e : Emission} {x y : Nat}

theorem paints_goTo (h : Paints e.body) : Paints (e.goTo x y).body := by
  unfold Emission.goTo
  split
  · exact h.append (paints_cup x y)
  · exact h

theorem paints_drawCells (hcur : Drawable amb cur) (hy : y < cur.h) (left : Nat)
    (h : Paints e.body) (hfit : x + left ≤ cur.w) :
    Paints (drawCells p cur y left x e).body := by
  induction left generalizing x e with
  | zero => exact h
  | succ left ih =>
      unfold drawCells
      refine ih (x := x + 1) ?_ (by omega)
      by_cases hw0 : (cur.at x y).width = 0
      · rw [if_pos hw0]
        exact h
      · rw [if_neg hw0]
        have hwidth := hcur.painted.width x y (by omega) hy hw0
        obtain ⟨hlo, hdel⟩ := printable_of_charWidth (hwidth ▸ hw0)
        have hscalar := hcur.scalar x y (by omega) hy hw0
        have hmoved : Paints (e.goTo x y).body := paints_goTo h
        have hpen := hmoved.append
          (paints_sgrTransition p (e.goTo x y).pen (styleOf (cur.at x y)))
        exact hpen.append (.one (Parser.reads_encodeUtf8 hscalar hlo hdel) (.print _))

theorem paints_scanRow (hcur : Drawable amb cur) (hy : y < cur.h) {contentEnd fuel : Nat}
    (hend : contentEnd ≤ cur.w) (h : Paints e.body) (hx : x ≤ contentEnd) :
    Paints (scanRow p cur prev full y contentEnd fuel x e).body := by
  induction fuel generalizing x e with
  | zero => exact h
  | succ fuel ih =>
      unfold scanRow
      split
      · exact h
      split
      · exact ih h (by omega)
      · next hinside _ =>
          simp only
          have hhead : headOf cur y x ≤ x := headOf_le x
          have hlast : x + 1 ≤ runEnd cur prev full y contentEnd contentEnd (x + 1) ∧
              runEnd cur prev full y contentEnd contentEnd (x + 1) ≤ contentEnd :=
            runEnd_bounds (by omega)
          exact ih (paints_drawCells hcur hy _ h (by omega)) hlast.2

theorem paints_eraseFrom (h : Paints e.body) : Paints (e.eraseFrom p x y).body := by
  have hmoved : Paints (e.goTo x y).body := paints_goTo h
  unfold Emission.eraseFrom
  refine Paints.append ?_ paints_eraseLine
  simp only
  split
  · exact hmoved
  · exact hmoved.append (paints_sgrTransition p _ _)

theorem paints_row (hcur : Drawable amb cur) (hy : y < cur.h) (h : Paints e.body) :
    Paints (row p cur prev full y e).body := by
  have hscan : ∀ contentEnd, contentEnd ≤ cur.w →
      Paints (scanRow p cur prev full y contentEnd contentEnd 0 e).body :=
    fun contentEnd hend => paints_scanRow hcur hy hend h (Nat.zero_le _)
  have htail : tailStart cur y cur.w ≤ cur.w := tailStart_le cur.w
  have hcontent : (if cur.w - tailStart cur y cur.w ≥ kMinErasableTail then tailStart cur y cur.w
      else cur.w) ≤ cur.w := by
    split <;> omega
  unfold row
  simp only
  generalize (if cur.w - tailStart cur y cur.w ≥ kMinErasableTail then tailStart cur y cur.w
    else cur.w) = contentEnd at hcontent ⊢
  split
  · exact paints_eraseFrom (hscan contentEnd hcontent)
  · exact hscan contentEnd hcontent

theorem paints_emission (hcur : Drawable amb cur) (d : Differ) : Paints (d.emission cur).body := by
  have hrows : ∀ n ≤ cur.h,
      Paints ((List.range n).foldl (fun e y => row d.profile cur d.prev (!d.valid) y e) {}).body := by
    intro n
    induction n with
    | zero => exact fun _ => Paints.nil
    | succ n ih =>
        intro hn
        rw [List.range_succ, List.foldl_append]
        exact paints_row hcur (by omega) (ih (by omega))
  exact hrows cur.h (Nat.le_refl _)

/-- Whatever the differ believes, a frame of it is painted. -/
theorem paints_frame (hcur : Drawable amb cur) {cursor : Option Pos}
    (hcursor : ∀ pos ∈ cursor, 0 ≤ pos.x ∧ 0 ≤ pos.y) (d : Differ) :
    Paints (d.frame cur cursor).1 := by
  have hemission := paints_emission hcur (d.fit cur)
  unfold Differ.frame
  simp only
  generalize (d.fit cur).emission cur = e at hemission ⊢
  split
  · exact Paints.nil
  have htarget : Paints (cup (cursor.getD {}).x (cursor.getD {}).y) := by
    cases cursor with
    | none => exact paints_cup 0 0
    | some pos =>
        obtain ⟨hx, hy⟩ := hcursor pos rfl
        have h := paints_cup pos.x.toNat pos.y.toNat
        rwa [Int.toNat_of_nonneg hx, Int.toNat_of_nonneg hy] at h
  refine Paints.append ?_ ?_
  · exact (((paints_cursor false).append paints_resetPen).append hemission).append htarget
  · split
    · exact paints_cursor true
    · exact Paints.nil

end Emission

/-- What a differ may have drawn. -/
def IsFrame (amb : Bool) (bytes : Bytes) : Prop :=
  ∃ (d : Differ) (cur : Surface) (cursor : Option Pos),
    Drawable amb cur ∧ (∀ pos ∈ cursor, 0 ≤ pos.x ∧ 0 ≤ pos.y) ∧ (d.frame cur cursor).1 = bytes

theorem paints_frames {amb : Bool} {frames : List Bytes} (h : ∀ bytes ∈ frames, IsFrame amb bytes) :
    Paints frames.flatten := by
  induction frames with
  | nil => exact Paints.nil
  | cons bytes frames ih =>
      obtain ⟨d, cur, cursor, hcur, hcursor, rfl⟩ := h bytes (List.mem_cons_self ..)
      exact (paints_frame hcur hcursor d).append
        (ih fun bytes' hmem => h bytes' (List.mem_cons_of_mem _ hmem))

/-! ### Lent and given back -/

section Lent

variable (amb : Bool) {t₀ : Sink} {e : Emulator}

/-- Wherever the reading stands, the shell's page is shown or waits. -/
structure Lent (t₀ : Sink) (e : Emulator) : Prop where
  sane : e.parser.Sane
  string : e.parser.state ≠ .oscString
  page : Sink.Back t₀ e.sink ∨ Sink.Borrowed t₀ e.sink
  character : e.parser.utf8Need ≠ 0 → Sink.Borrowed t₀ e.sink

/-- Between two sequences. -/
theorem Lent.of_quiet (hquiet : e.parser.Quiet) (hsane : e.parser.Sane)
    (hpage : Sink.Back t₀ e.sink ∨ Sink.Borrowed t₀ e.sink) : Lent t₀ e :=
  ⟨hsane, by simp [hquiet.state], hpage, fun hneed => absurd hquiet.utf8 hneed⟩

/-- What the escape interrupts is harmless. -/
theorem Lent.interrupted (halt₀ : t₀.screen.alt = false) (h : Lent t₀ e) {calls : List SinkCall}
    (hcalls : e.parser.Interrupted calls) :
    Sink.Back t₀ (calls.foldl (Sink.call amb) e.sink) ∨
      Sink.Borrowed t₀ (calls.foldl (Sink.call amb) e.sink) := by
  cases hcalls with
  | nothing => exact h.page
  | device => exact h.page
  | character hneed => exact .inr ((h.character hneed).paint halt₀ (.print 0xFFFD))

/-- Any number of the borrower's modes. -/
theorem lent_modes (halt₀ : t₀.screen.alt = false) {t : Sink}
    (h : Sink.Back t₀ t ∨ Sink.Borrowed t₀ t) {modes : List (Nat × Bool)}
    (hmodes : ∀ m ∈ modes, m.1 ∈ borrowedModes) :
    Sink.Back t₀ ((modes.map fun m => modeCall m.1 m.2).foldl (Sink.call amb) t) ∨
      Sink.Borrowed t₀ ((modes.map fun m => modeCall m.1 m.2).foldl (Sink.call amb) t) := by
  induction modes generalizing t with
  | nil => exact h
  | cons m modes ih =>
      exact ih (Sink.lent_mode halt₀ h (hmodes m (List.mem_cons_self ..)) m.2)
        fun m' hm' => hmodes m' (List.mem_cons_of_mem m hm')

theorem privateModes_ascii (modes : List (Nat × Bool)) : ∀ b ∈ privateModes modes, b < 0x80 := by
  intro b hb
  obtain ⟨m, -, hb⟩ := List.mem_flatMap.1 hb
  simp only [privateMode, List.mem_append, List.mem_cons, List.not_mem_nil, or_false] at hb
  rcases hb with ((rfl | rfl | rfl) | hdigit) | rfl
  · decide
  · decide
  · decide
  · exact UInt8.lt_of_le_of_lt (decimal_digits b hdigit).2 (by decide)
  · split <;> decide

/-- What begins like some modes is nothing, or starts with an escape. -/
theorem prefix_privateModes {cut : Bytes} {modes : List (Nat × Bool)}
    (hcut : cut <+: privateModes modes) : cut = [] ∨ ∃ rest, cut = 0x1B :: rest := by
  cases cut with
  | nil => exact .inl rfl
  | cons b rest =>
      right
      cases modes with
      | nil => exact absurd (List.prefix_nil.1 hcut) (by simp)
      | cons m modes => exact ⟨rest, by rw [(List.cons_prefix_cons.1 hcut).1]⟩

theorem modeCalls_not_endString (modes : List (Nat × Bool)) :
    ∀ c ∈ modes.map fun m => modeCall m.1 m.2, ¬ Parser.endsString c := by
  intro c hc
  obtain ⟨m, -, rfl⟩ := List.mem_map.1 hc
  exact id

/-- The parser between two sequences, with the sink once the escape has interrupted what it
interrupts. -/
theorem Lent.feed_escape (halt₀ : t₀.screen.alt = false) (h : Lent t₀ e) :
    ∃ t : Sink, (Sink.Back t₀ t ∨ Sink.Borrowed t₀ t) ∧ ∀ bytes,
      e.feed amb (0x1B :: bytes) =
        Emulator.feed amb { parser := e.parser.rested, sink := t } (0x1B :: bytes) := by
  obtain ⟨calls, hcalls, hfeed⟩ := Parser.feed_escape h.sane h.string
  refine ⟨_, h.interrupted amb halt₀ hcalls, fun bytes => ?_⟩
  simp only [Emulator.feed, hfeed, List.foldl_append]

/-- **Modes cut anywhere** leave the terminal lent, wherever they start. -/
theorem Lent.feed_modes (halt₀ : t₀.screen.alt = false) (h : Lent t₀ e)
    {modes : List (Nat × Bool)} (hmodes : ∀ m ∈ modes, m.1 ∈ borrowedModes) {cut : Bytes}
    (hcut : cut <+: privateModes modes) : Lent t₀ (e.feed amb cut) := by
  rcases prefix_privateModes hcut with rfl | ⟨rest, rfl⟩
  · exact h
  obtain ⟨t, hpage, hfeed⟩ := h.feed_escape amb halt₀
  rw [hfeed]
  have hreads := Parser.reads_privateModes modes
  have hquiet := e.parser.rested_quiet
  have hcalls := hreads.calls_of_prefix hquiet hcut
  have hclosed := Parser.feed_ascii
    (fun b hb => privateModes_ascii modes b (hcut.subset hb)) hquiet.utf8
  refine ⟨?_, ?_, ?_, fun hneed => absurd hclosed hneed⟩
  · show (e.parser.rested.feed (0x1B :: rest)).1.Sane
    exact Parser.feed_preserves (fun _ b hs => hs.step b) e.parser.rested_sane _
  · show (e.parser.rested.feed (0x1B :: rest)).1.state ≠ .oscString
    exact hreads.not_string_of_prefix (modeCalls_not_endString modes) hquiet hcut
  · rw [List.prefix_iff_eq_take, ← List.map_take] at hcalls
    show Sink.Back t₀ ((e.parser.rested.feed (0x1B :: rest)).2.foldl (Sink.call amb) t) ∨
      Sink.Borrowed t₀ ((e.parser.rested.feed (0x1B :: rest)).2.foldl (Sink.call amb) t)
    rw [hcalls]
    exact lent_modes amb halt₀ hpage fun m hm => hmodes m (List.mem_of_mem_take hm)

/-- Frames cut anywhere too, once the page waits outside. -/
theorem Lent.feed_paints (halt₀ : t₀.screen.alt = false) (hquiet : e.parser.Quiet)
    (hsane : e.parser.Sane) (h : Sink.Borrowed t₀ e.sink) {shown cut : Bytes} (hpaints : Paints shown)
    (hcut : cut <+: shown) : Lent t₀ (e.feed amb cut) := by
  obtain ⟨calls, hreads, hpaint⟩ := hpaints
  have hcalls := hreads.calls_of_prefix hquiet hcut
  have hborrowed : Sink.Borrowed t₀ (e.feed amb cut).sink :=
    h.paints halt₀ fun c hc => hpaint c (hcalls.subset hc)
  refine ⟨?_, ?_, .inr hborrowed, fun _ => hborrowed⟩
  · exact Parser.feed_preserves (fun _ b hs => hs.step b) hsane _
  · exact hreads.not_string_of_prefix (fun c hc => (hpaint c hc).not_endsString) hquiet hcut

/-- A terminal as the shell had it, with the six modes of the borrower put back. -/
structure GivenBack (e₀ e : Emulator) : Prop where
  quiet : e.parser.Quiet
  screen : e.sink.screen.unparked = (e₀.sink.screen.setAutowrap true).unparked
  modes : e.sink.modes = restored e₀.sink.modes
  title : e.sink.guestTitle = e₀.sink.guestTitle
  answers : e.sink.toGuest = e₀.sink.toGuest

/-- **The restoring sequence**, from wherever the reading stands. -/
theorem Lent.restore {e₀ : Emulator} (halt₀ : e₀.sink.screen.alt = false) (h : Lent e₀.sink e) :
    GivenBack e₀ (e.feed amb (privateModes restoreModes)) := by
  obtain ⟨rest, hescape⟩ : ∃ rest, privateModes restoreModes = 0x1B :: rest := ⟨_, rfl⟩
  obtain ⟨t, hpage, hfeed⟩ := h.feed_escape amb halt₀
  obtain ⟨q, hq, hall⟩ := Parser.reads_privateModes restoreModes e.parser.rested
    e.parser.rested_quiet
  have hrestore : ∀ m ∈ restoreModes, m.1 ∈ borrowedModes := by decide
  have hlent := lent_modes amb halt₀ hpage hrestore
  have hsame : restored t.modes = restored e₀.sink.modes := by
    rcases hpage with h | h <;> exact h.modes
  have hmodes : ((restoreModes.map fun m => modeCall m.1 m.2).foldl (Sink.call amb) t).modes =
      restored t.modes := by
    simp only [restoreModes, List.map_cons, List.map_nil, List.foldl_cons, List.foldl_nil,
      Sink.call_mode]
    rfl
  have hend : e.feed amb (privateModes restoreModes) =
      { parser := q
        sink := (restoreModes.map fun m => modeCall m.1 m.2).foldl (Sink.call amb) t } := by
    rw [hescape, hfeed, ← hescape]
    simp only [Emulator.feed, hall]
  rw [hend]
  generalize (restoreModes.map fun m => modeCall m.1 m.2).foldl (Sink.call amb) t = t' at hlent hmodes
  have hback : Sink.Back e₀.sink t' := by
    rcases hlent with hback | hborrowed
    · exact hback
    · have halt := hborrowed.alt halt₀
      rw [hborrowed.synced.alt, hmodes] at halt
      exact absurd halt (by simp [restored])
  refine ⟨hq, ?_, hmodes.trans hsame, hback.title, hback.answers⟩
  have hscreen := hback.screen
  rw [hmodes] at hscreen
  exact hscreen

end Lent

/-! ### The whole life -/

theorem prefix_append_cases {α : Type*} {cut as bs : List α} (h : cut <+: as ++ bs) :
    cut <+: as ∨ ∃ later, cut = as ++ later ∧ later <+: bs := by
  rcases List.prefix_or_prefix_of_prefix h (List.prefix_append as bs) with hcut | ⟨later, rfl⟩
  · exact .inl hcut
  · exact .inr ⟨later, rfl, (List.prefix_append_right_inj as).1 h⟩

section Life

variable {amb : Bool} {e₀ : Emulator} {T : Type} {saved : T} {cfmakeraw : T → T}

/-- **The bytes of a session, cut anywhere**, leave the terminal lent. -/
theorem session_lent (hquiet : e₀.parser.Quiet) (hsane : e₀.parser.Sane) (hsynced : e₀.sink.Synced)
    (halt₀ : e₀.sink.screen.alt = false) {shown cut : Bytes} (hshown : Paints shown)
    (hcut : cut <+: ttySetupSequence ++ shown ++ ttyRestoreSequence) :
    Lent e₀.sink (e₀.feed amb cut) := by
  have hstart : Lent e₀.sink e₀ := .of_quiet hquiet hsane (.inl (.start hsynced halt₀))
  rw [ttySetupSequence_eq, ttyRestoreSequence_eq, List.append_assoc] at hcut
  have hsetup : ∀ m ∈ setupModes, m.1 ∈ borrowedModes := by decide
  have hrestore : ∀ m ∈ restoreModes, m.1 ∈ borrowedModes := by decide
  rcases prefix_append_cases hcut with hcut | ⟨later, rfl, hlater⟩
  · exact hstart.feed_modes amb halt₀ hsetup hcut
  -- once set up, the page waits outside
  rw [feed_append]
  obtain ⟨q, hq, hreads⟩ := Parser.reads_privateModes setupModes e₀.parser hquiet
  have hlent := hstart.feed_modes amb halt₀ hsetup (List.prefix_refl _)
  have hup : e₀.feed amb (privateModes setupModes) =
      { parser := q
        sink := (setupModes.map fun m => modeCall m.1 m.2).foldl (Sink.call amb) e₀.sink } := by
    simp only [Emulator.feed, hreads]
  have hborrowed : Sink.Borrowed e₀.sink (e₀.feed amb (privateModes setupModes)).sink := by
    have hon : ((setupModes.map fun m => modeCall m.1 m.2).foldl
        (Sink.call amb) e₀.sink).modes.altScreen = true := by
      simp only [setupModes, List.map_cons, List.map_nil, List.foldl_cons, List.foldl_nil,
        Sink.call_mode]
      rfl
    rcases hlent.page with hback | hborrowed
    · have halt := hback.synced.alt
      rw [hback.alt, hup, hon] at halt
      exact absurd halt (by decide)
    · exact hborrowed
  have hquiet' : (e₀.feed amb (privateModes setupModes)).parser.Quiet := by rw [hup]; exact hq
  have hsane' := hlent.sane
  generalize e₀.feed amb (privateModes setupModes) = e₁ at hborrowed hquiet' hsane' ⊢
  rcases prefix_append_cases hlater with hcut | ⟨last, rfl, hlast⟩
  · exact .feed_paints amb halt₀ hquiet' hsane' hborrowed hshown hcut
  -- and it waits until it is given back
  rw [feed_append]
  exact (Lent.feed_paints amb halt₀ hquiet' hsane' hborrowed hshown (List.prefix_refl shown)).feed_modes
    amb halt₀ hrestore hlast

/-- The handlers that are interrupted write beginnings of the restoring sequence. -/
theorem Lent.feed_handlers (halt₀ : e₀.sink.screen.alt = false) {e : Emulator}
    (h : Lent e₀.sink e) (interrupted : List Nat) :
    Lent e₀.sink (e.feed amb (interrupted.flatMap (kCrashRestoreLiteral.take ·))) := by
  induction interrupted generalizing e with
  | nil => exact h
  | cons n interrupted ih =>
      rw [List.flatMap_cons, feed_append]
      have hcut : kCrashRestoreLiteral.take n <+: privateModes restoreModes := by
        rw [kCrashRestoreLiteral_eq]
        exact List.take_prefix n _
      exact ih (h.feed_modes amb halt₀ (by decide) hcut)

/-- What a signal may find: a handler that knows nothing yet, or no more, or the beginning of
the bytes and a handler that gives the terminal back. -/
inductive Found (saved : T) (cfmakeraw : T → T) (all : Bytes) : List TtyStep → TtyProcess T → Prop
  | untouched : Found saved cfmakeraw all [] { termios := saved }
  | raw : Found saved cfmakeraw all [.setRaw] { termios := cfmakeraw saved }
  | armed {before : List TtyStep} (termios : T) {cut : Bytes} (hraw : before ≠ [.setRaw])
      (hcut : cut <+: all) :
      Found saved cfmakeraw all before { termios := termios, crashFd := true, out := cut }
  | done {before : List TtyStep} (hraw : before ≠ [.setRaw]) :
      Found saved cfmakeraw all before { termios := saved, out := all }

theorem run_puts (bytes : Bytes) (p : TtyProcess T) :
    run (TtyProcess.step saved cfmakeraw) p (bytes.map .put) = { p with out := p.out ++ bytes } := by
  induction bytes generalizing p with
  | nil => simp
  | cons b bytes ih =>
      rw [List.map_cons, run_cons, ih]
      simp [TtyProcess.step]

theorem run_ttyProgram {shown : Bytes} {before : List TtyStep} (h : before <+: ttyProgram shown) :
    Found saved cfmakeraw (ttySetupSequence ++ shown ++ ttyRestoreSequence) before
      (run (TtyProcess.step saved cfmakeraw) { termios := saved } before) := by
  unfold ttyProgram at h
  generalize ttySetupSequence ++ shown ++ ttyRestoreSequence = all at h ⊢
  rw [List.append_assoc] at h
  rcases prefix_append_cases h with h | ⟨later, rfl, hlater⟩
  · -- before anything is written
    obtain rfl | ⟨before, rfl, hsecond⟩ := List.prefix_cons_iff.1 h
    · exact .untouched
    obtain rfl | ⟨before, rfl, hthird⟩ := List.prefix_cons_iff.1 hsecond
    · exact .raw
    obtain rfl := List.prefix_nil.1 hthird
    exact .armed _ (by simp) (List.nil_prefix)
  rw [run_append]
  rcases prefix_append_cases hlater with hcut | ⟨last, rfl, hlast⟩
  · -- in the middle of the bytes
    rw [List.prefix_iff_eq_take, ← List.map_take] at hcut
    rw [hcut, run_puts]
    exact .armed _ (by simp) (List.take_prefix _ _)
  -- behind them
  rw [run_append, run_puts]
  obtain rfl | ⟨last, rfl, hsecond⟩ := List.prefix_cons_iff.1 hlast
  · exact .armed _ (by simp) (List.prefix_refl _)
  obtain rfl | ⟨last, rfl, hthird⟩ := List.prefix_cons_iff.1 hsecond
  · exact .armed _ (by simp) (List.prefix_refl _)
  obtain rfl := List.prefix_nil.1 hthird
  exact .done (by simp)

/-- **The terminal is given back**, whatever frames were drawn, wherever the client was
interrupted, and however often its handler was interrupted in turn. The one way to be left
with a raw terminal is a signal between the change of the line discipline and the moment the
handler is told of the terminal. -/
theorem terminal_given_back (hquiet : e₀.parser.Quiet) (hsane : e₀.parser.Sane)
    (hsynced : e₀.sink.Synced) (halt₀ : e₀.sink.screen.alt = false) {frames : List Bytes}
    (hframes : ∀ bytes ∈ frames, IsFrame amb bytes) (before : List TtyStep) (interrupted : List Nat)
    (h : before <+: ttyProgram frames.flatten) :
    let p := ttyAfter saved cfmakeraw before interrupted
    p.termios = (if before = [.setRaw] then cfmakeraw saved else saved) ∧
      (p.out = [] ∨ GivenBack e₀ (e₀.feed amb p.out)) := by
  have hshown := paints_frames hframes
  have hlent : ∀ cut, cut <+: ttySetupSequence ++ frames.flatten ++ ttyRestoreSequence →
      Lent e₀.sink (e₀.feed amb cut) :=
    fun cut hcut => session_lent hquiet hsane hsynced halt₀ hshown hcut
  have hrestored : ∀ e, Lent e₀.sink e → GivenBack e₀ (e.feed amb kCrashRestoreLiteral) := by
    intro e he
    rw [kCrashRestoreLiteral_eq]
    exact he.restore amb halt₀
  -- the whole of the bytes ends as the handler does
  have hover : GivenBack e₀
      (e₀.feed amb (ttySetupSequence ++ frames.flatten ++ ttyRestoreSequence)) := by
    rw [feed_append]
    exact hrestored _ (hlent _ (List.prefix_append _ _))
  have hfound := @run_ttyProgram _ saved cfmakeraw _ _ h
  intro p
  have hp : p = (run (TtyProcess.step saved cfmakeraw) { termios := saved } before).onFatal saved
      interrupted := rfl
  rw [hp]
  generalize run (TtyProcess.step saved cfmakeraw) { termios := saved } before = q at hfound
  cases hfound with
  | untouched => exact ⟨rfl, .inl rfl⟩
  | raw => exact ⟨(if_pos rfl).symm, .inl rfl⟩
  | armed termios hraw hcut =>
      refine ⟨(if_neg hraw).symm, .inr ?_⟩
      show GivenBack e₀ (e₀.feed amb (_ ++ _ ++ kCrashRestoreLiteral))
      rw [feed_append, feed_append]
      exact hrestored _ ((hlent _ hcut).feed_handlers halt₀ interrupted)
  | done hraw => exact ⟨(if_neg hraw).symm, .inr hover⟩

end Life

/-- A signal in the middle of a frame, and another in the middle of its handler. -/
theorem terminal_given_back_midway :
    let frame := (Differ.frame { profile := {} } (Surface.create 2 1) none).1
    let p := ttyAfter false (fun _ => true) ((ttyProgram [frame].flatten).take 53) [3]
    p.termios = false ∧ (p.out = [] ∨
      GivenBack (freshEmulator 2 1) ((freshEmulator 2 1).feed false p.out)) := by
  have hdrawable : Drawable false (Surface.create 2 1) := by
    refine ⟨Surface.Painted.create false 2 1, ?_, by decide, by decide⟩
    intro x y _ _ _
    rw [Surface.create_at]
    exact ⟨by decide, by decide⟩
  have hframe : ∀ bytes ∈ [(Differ.frame { profile := {} } (Surface.create 2 1) none).1],
      IsFrame false bytes := by
    intro bytes hbytes
    rw [List.mem_singleton.1 hbytes]
    exact ⟨_, _, none, hdrawable, by simp, rfl⟩
  have hcanvas := freshEmulator_canvas 2 1 (by decide) (by decide)
  have h := @terminal_given_back false (freshEmulator 2 1) Bool false (fun _ => true) ⟨rfl, rfl⟩
    (Parser.Sane.of_clear rfl) hcanvas.synced rfl _ hframe _ [3] (List.take_prefix 53 _)
  exact ⟨h.1.trans (if_neg (by simp [ttyProgram])), h.2⟩

end Sshos.Client
