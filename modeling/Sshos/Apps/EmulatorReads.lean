import Sshos.Apps.Emulator
import Sshos.Apps.StyleReads
import Sshos.Lib.Run
import Sshos.Render.Diff

/-!
# Sshos.Apps.EmulatorReads

What the emulator makes of the **pieces the renderer writes**: a move of the cursor, a
change of style, a character, an erasure, a change of the cursor's visibility.
`Takes amb bytes t t'` says that from rest the bytes take the sink from `t` to `t'`, and
leave the parser at rest.
-/

namespace Sshos.Apps

open Sshos.Common (encodeUtf8 IsScalar)
open Sshos.Lib
open Sshos.Render
open Sshos.Vt
open Sshos.Vt.Parser (Reads csiBytes furtherParams paramOf)

/-- From rest, the bytes take the sink from `t` to `t'`. -/
def Takes (amb : Bool) (bytes : Bytes) (t t' : Sink) : Prop :=
  ∃ calls, Reads bytes calls ∧ calls.foldl (Sink.call amb) t = t'

variable {amb : Bool} {t t' t'' : Sink}

theorem Takes.nil (t : Sink) : Takes amb [] t t := ⟨[], Parser.Reads.nil, rfl⟩

theorem Takes.append {as bs : Bytes} (ha : Takes amb as t t') (hb : Takes amb bs t' t'') :
    Takes amb (as ++ bs) t t'' := by
  obtain ⟨cs, hcs, rfl⟩ := ha
  obtain ⟨ds, hds, rfl⟩ := hb
  exact ⟨cs ++ ds, hcs.append hds, List.foldl_append ..⟩

/-- Whoever is at rest can be fed. -/
theorem Takes.feed {bytes : Bytes} {e : Emulator} (h : Takes amb bytes e.sink t')
    (hquiet : e.parser.Quiet) :
    ∃ q : Parser, q.Quiet ∧ e.feed amb bytes = { parser := q, sink := t' } := by
  obtain ⟨calls, hreads, rfl⟩ := h
  obtain ⟨q, hq, hfeed⟩ := hreads e.parser hquiet
  exact ⟨q, hq, by simp only [Emulator.feed, hfeed]⟩

/-! ### Moves, characters, erasures -/

theorem takes_csi (params : List Nat) (finalByte : UInt8) (hfinal : isFinal finalByte)
    (hroom : params.length ≤ kMaxParams) (t : Sink) :
    Takes amb (csiBytes params finalByte) t (t.csi (params.map paramOf) [] finalByte) :=
  ⟨_, Parser.reads_csi hfinal hroom, rfl⟩

theorem countOf_paramOf {n i : Nat} {params : List Nat} (hget : params[i]? = some n) (h1 : 1 ≤ n) :
    countOf (params.map paramOf) i = min (n : Int) 65535 := by
  have hparam : (params.map paramOf)[i]? = some (paramOf n) := by simp [hget]
  have hvalue : (paramOf n).value = min (n : Int) 65535 := Parser.paramOf_value n
  simp only [countOf, paramOr, hparam, hvalue]
  rw [if_neg (by omega)]
  omega

/-- A move goes no further than the ceiling of a parameter. -/
theorem takes_cup_clipped (x y : Nat) (t : Sink) :
    Takes amb (cup x y) t
      { t with screen := t.screen.moveTo (min (x : Int) 65534) (min (y : Int) 65534) } := by
  have hbytes : cup x y = csiBytes [y + 1, x + 1] 0x48 := by
    have hnum : ∀ n : Nat, num ((n : Int) + 1) = decimal (n + 1) := fun n => num_natCast (n + 1)
    simp [cup, csiBytes, furtherParams, hnum]
  have hrow := countOf_paramOf (i := 0) (n := y + 1) (show [y + 1, x + 1][0]? = _ from rfl)
    (by omega)
  have hcol := countOf_paramOf (i := 1) (n := x + 1) (show [y + 1, x + 1][1]? = _ from rfl)
    (by omega)
  have heffect : t.csi ([y + 1, x + 1].map paramOf) [] 0x48 =
      { t with screen := t.screen.moveTo (min (x : Int) 65534) (min (y : Int) 65534) } := by
    show { t with screen := t.screen.moveTo (countOf _ 1 - 1) (countOf _ 0 - 1) } = _
    rw [hrow, hcol, show min ((x + 1 : Nat) : Int) 65535 - 1 = min (x : Int) 65534 by omega,
      show min ((y + 1 : Nat) : Int) 65535 - 1 = min (y : Int) 65534 by omega]
  rw [hbytes, ← heffect]
  exact takes_csi [y + 1, x + 1] 0x48 (by decide) (by simp [kMaxParams]) t

theorem takes_cup {x y : Nat} (hx : x < 65535) (hy : y < 65535) (t : Sink) :
    Takes amb (cup x y) t { t with screen := t.screen.moveTo x y } := by
  have hclipped : Takes amb (cup x y) t _ := takes_cup_clipped x y t
  rwa [Int.min_eq_left (by omega), Int.min_eq_left (by omega)] at hclipped

theorem takes_print {cp : Nat} (hscalar : IsScalar cp) (hlo : 0x20 ≤ cp) (hdel : cp ≠ 0x7F)
    (t : Sink) : Takes amb (encodeUtf8 cp) t { t with screen := t.screen.print amb cp } :=
  ⟨_, Parser.reads_encodeUtf8 hscalar hlo hdel, rfl⟩

theorem takes_eraseLine (t : Sink) :
    Takes amb [0x1B, 0x5B, 0x4B] t { t with screen := t.screen.eraseLine 0 } :=
  takes_csi [] 0x4B (by decide) (by decide) t

/-! ### Visibility -/

/-- `CSI ? 25 h` and `CSI ? 25 l`. -/
def cursorBytes (on : Bool) : Bytes := [0x1B, 0x5B, 0x3F, 0x32, 0x35, if on then 0x68 else 0x6C]

theorem reads_cursor (on : Bool) :
    Reads (cursorBytes on) [.csi [{ value := 25 }] [0x3F] (if on then 0x68 else 0x6C)] := by
  intro p hp
  refine ⟨{ p.inCsi .ground [{ value := 25 }] with intermediates := [0x3F] }, ⟨rfl, hp.utf8⟩, ?_⟩
  unfold cursorBytes
  rw [Parser.feed_introducer hp]
  cases on <;> rfl

/-- The modes with an effect on the grid are the screen's own. -/
structure Sink.Synced (t : Sink) : Prop where
  autowrap : t.screen.autowrap = t.modes.autowrap
  alt : t.screen.alt = t.modes.altScreen

theorem Sink.Synced.syncModes (h : t.Synced) : t.syncModes = t := by
  have hscreen : t.screen.setAutowrap t.modes.autowrap = t.screen := by
    rw [← h.autowrap]
    rfl
  unfold Sink.syncModes
  simp only [hscreen, h.alt]
  cases t.modes.altScreen <;> simp

theorem Sink.Synced.of_kept {s : Screen} (h : t.Synced) (hkept : s.kept = t.screen.kept) :
    Sink.Synced { t with screen := s } :=
  ⟨(congrArg Screen.Kept.autowrap hkept).trans h.autowrap,
    (congrArg (·.outside.alt) hkept).trans h.alt⟩

theorem Sink.syncModes_synced (t : Sink) : t.syncModes.Synced := by
  unfold Sink.syncModes Screen.enterAltScreen Screen.leaveAltScreen
  constructor <;> cases t.modes.altScreen <;> cases ha : t.screen.alt <;>
    simp [Screen.setAutowrap, ha]

theorem Sink.csiPlain_kept (t : Sink) (params : Params) (finalByte : UInt8) :
    (t.csiPlain params finalByte).kept = t.screen.kept := by
  have hop : ∀ op : ScreenOp, (∀ c r, op ≠ .resize c r) → op ≠ .enterAltScreen →
      op ≠ .leaveAltScreen → (∀ on, op ≠ .setAutowrap on) → (∀ sb, op ≠ .setScrollback sb) →
      (t.screen.step false op).kept = t.screen.kept :=
    fun op hr he hl ha hb => t.screen.step_kept false hr he hl ha hb
  have hite : ∀ (c : Prop) [Decidable c] (a b : Screen), a.kept = t.screen.kept →
      b.kept = t.screen.kept → (if c then a else b).kept = t.screen.kept := by
    intro c _ a b ha hb
    split
    · exact ha
    · exact hb
  unfold Sink.csiPlain
  repeat' with_reducible apply hite
  all_goals first
    | rfl
    | exact hop (.eraseDisplay _) nofun nofun nofun nofun nofun
    | exact hop (.eraseLine _) nofun nofun nofun nofun nofun
    | exact hop (.eraseChars _) nofun nofun nofun nofun nofun
    | exact hop (.insertChars _) nofun nofun nofun nofun nofun
    | exact hop (.deleteChars _) nofun nofun nofun nofun nofun
    | exact hop (.insertLines _) nofun nofun nofun nofun nofun
    | exact hop (.deleteLines _) nofun nofun nofun nofun nofun
    | exact hop (.setScrollRegion _ _) nofun nofun nofun nofun nofun
    | exact hop .clearTab nofun nofun nofun nofun nofun

/-- A call of the parser leaves the modes and what the screen keeps alone, or sets modes
and hands them to the screen. -/
theorem Sink.call_kept (amb : Bool) (t : Sink) (c : SinkCall) :
    ((Sink.call amb t c).modes = t.modes ∧ (Sink.call amb t c).screen.kept = t.screen.kept) ∨
      ∃ modes, Sink.call amb t c = ({ t with modes := modes } : Sink).syncModes := by
  have hop : ∀ op : ScreenOp, (∀ c r, op ≠ .resize c r) → op ≠ .enterAltScreen →
      op ≠ .leaveAltScreen → (∀ on, op ≠ .setAutowrap on) → (∀ sb, op ≠ .setScrollback sb) →
      t.modes = t.modes ∧ (t.screen.step amb op).kept = t.screen.kept :=
    fun op hr he hl ha hb => ⟨rfl, t.screen.step_kept amb hr he hl ha hb⟩
  cases c with
  | print c => exact .inl (hop (.print c) nofun nofun nofun nofun nofun)
  | execute byte =>
      left
      show (t.execute byte).modes = t.modes ∧ (t.execute byte).screen.kept = t.screen.kept
      unfold Sink.execute
      repeat' split
      · exact hop .lineFeed nofun nofun nofun nofun nofun
      · exact hop .carriageReturn nofun nofun nofun nofun nofun
      · exact hop .backspace nofun nofun nofun nofun nofun
      · exact hop .tab nofun nofun nofun nofun nofun
      · exact ⟨rfl, rfl⟩
  | csi params intermediates finalByte =>
      show ((t.csi params intermediates finalByte).modes = t.modes ∧
        (t.csi params intermediates finalByte).screen.kept = t.screen.kept) ∨ _
      have hcsi : Sink.call amb t (.csi params intermediates finalByte) =
        t.csi params intermediates finalByte := rfl
      rw [hcsi]
      unfold Sink.csi
      simp only
      repeat' split
      · exact .inl ⟨rfl, rfl⟩
      · exact .inr ⟨_, rfl⟩
      · exact .inl ⟨rfl, rfl⟩
      · exact .inl ⟨rfl, rfl⟩
      · exact .inl ⟨rfl, t.csiPlain_kept params finalByte⟩
  | esc intermediates finalByte =>
      left
      show (t.esc intermediates finalByte).modes = t.modes ∧
        (t.esc intermediates finalByte).screen.kept = t.screen.kept
      unfold Sink.esc
      repeat' split
      · exact hop (.setCharset _) nofun nofun nofun nofun nofun
      · exact ⟨rfl, rfl⟩
      · exact hop .saveCursor nofun nofun nofun nofun nofun
      · exact hop .restoreCursor nofun nofun nofun nofun nofun
      · exact hop .index nofun nofun nofun nofun nofun
      · exact hop .reverseIndex nofun nofun nofun nofun nofun
      · exact hop .nextLine nofun nofun nofun nofun nofun
      · exact hop .setTab nofun nofun nofun nofun nofun
      · exact ⟨rfl, rfl⟩
  | osc data =>
      left
      show (t.osc data).modes = t.modes ∧ (t.osc data).screen.kept = t.screen.kept
      unfold Sink.osc
      simp only
      repeat' split
      · exact ⟨rfl, rfl⟩
      · exact ⟨rfl, rfl⟩
      · exact ⟨rfl, rfl⟩
  | dcsStart params intermediates finalByte => exact .inl ⟨rfl, rfl⟩
  | dcsData byte => exact .inl ⟨rfl, rfl⟩
  | dcsEnd => exact .inl ⟨rfl, rfl⟩

/-- No call of the parser parts them. -/
theorem Sink.Synced.call (h : t.Synced) (c : SinkCall) : (Sink.call amb t c).Synced := by
  rcases Sink.call_kept amb t c with ⟨hmodes, hkept⟩ | ⟨modes, heq⟩
  · refine ⟨?_, ?_⟩
    · rw [hmodes, ← h.autowrap]
      exact congrArg Screen.Kept.autowrap hkept
    · rw [hmodes, ← h.alt]
      exact congrArg (·.outside.alt) hkept
  · rw [heq]
    exact Sink.syncModes_synced _

/-- Nor does one change the size of the screen. -/
theorem Sink.call_size (amb : Bool) (t : Sink) (c : SinkCall) :
    (Sink.call amb t c).screen.cols = t.screen.cols ∧
      (Sink.call amb t c).screen.rows = t.screen.rows := by
  rcases Sink.call_kept amb t c with ⟨-, hkept⟩ | ⟨modes, heq⟩
  · exact ⟨congrArg (·.outside.cols) hkept, congrArg (·.outside.rows) hkept⟩
  · rw [heq]
    unfold Sink.syncModes Screen.enterAltScreen Screen.leaveAltScreen
    constructor <;> cases modes.altScreen <;> cases ha : t.screen.alt <;>
      simp [Screen.setAutowrap, ha]

/-- Whatever the guest writes, the two modes stay those of the screen. -/
theorem Sink.Synced.feed {e : Emulator} (h : e.sink.Synced) (bytes : Bytes) :
    (e.feed amb bytes).sink.Synced := by
  unfold Emulator.feed
  simp only
  generalize (e.parser.feed bytes).2 = calls
  have hcall : ∀ t c, Sink.Synced t → Sink.Synced (Sink.call amb t c) := fun t c ht => ht.call c
  exact run_preserves hcall h calls

/-- Showing or hiding the cursor touches nothing else. -/
theorem takes_cursor (h : t.Synced) (on : Bool) :
    Takes amb (cursorBytes on) t { t with modes := { t.modes with cursorVisible := on } } := by
  refine ⟨_, reads_cursor on, ?_⟩
  have hsynced : Sink.Synced { t with modes := { t.modes with cursorVisible := on } } :=
    ⟨h.autowrap, h.alt⟩
  have heffect : t.csi [{ value := 25 }] [0x3F] (if on then 0x68 else 0x6C) =
      Sink.syncModes { t with modes := { t.modes with cursorVisible := on } } := by
    cases on <;> rfl
  show t.csi [{ value := 25 }] [0x3F] (if on then 0x68 else 0x6C) = _
  rw [heffect, hsynced.syncModes]

/-! ### Styles -/

/-- The pen of the sink. -/
def Sink.withPen (t : Sink) (pen : Style) : Sink := { t with screen := t.screen.setPen pen }

theorem takes_sgr (params : List Nat) (hroom : params.length ≤ kMaxParams) (t : Sink) :
    Takes amb (csiBytes params 0x6D) t (t.withPen (applySgr (params.map paramOf) t.screen.pen)) :=
  takes_csi params 0x6D (by decide) hroom t

theorem withPen_self (t : Sink) : t.withPen t.screen.pen = t := rfl

theorem Restyles.takes {bytes : Bytes} {pen : Style} (h : Restyles bytes t.screen.pen pen) :
    Takes amb bytes t (t.withPen pen) := by
  obtain ⟨codes, hreads, rfl⟩ := h
  refine ⟨_, hreads, ?_⟩
  clear hreads
  induction codes generalizing t with
  | nil => rfl
  | cons params codes ih => exact @ih (t.withPen (applySgr params t.screen.pen))

/-- **A change of style** takes the pen from the one to the other, whatever it goes by. -/
theorem takes_sgrTransition (p : OutputProfile) (before after : Style)
    (hpen : t.screen.pen = shownStyle p.depth before) :
    Takes amb (sgrTransition before after p) t (t.withPen (shownStyle p.depth after)) :=
  Restyles.takes (hpen ▸ restyles_sgrTransition p before after)

end Sshos.Apps
