import Sshos.Apps.Emulator
import Sshos.Vt.ParserLimits
import Sshos.Vt.ScreenRange

/-!
# Sshos.Apps.GuestRange

**What a guest writes cannot make the emulator overflow.** The dispatch of a control
sequence is written once more with the machine's integers, and comes to the dispatch
over the unbounded ones for every sequence the parser can deliver.
-/

namespace Sshos.Apps

open Sshos.Lib
open Sshos.Lib.Checked
open Sshos.Vt

namespace Sink

variable (t : Sink)

/-- `csiPlain`, as the machine computes it. -/
def machineCsiPlain (params : Params) (finalByte : UInt8) : Checked Screen :=
  let s := t.screen
  if finalByte = 0x41 then Machine.moveUp s (countOf params 0)
  else if finalByte = 0x42 then Machine.moveDown s (countOf params 0)
  else if finalByte = 0x43 then Machine.moveRight s (countOf params 0)
  else if finalByte = 0x44 then Machine.moveLeft s (countOf params 0)
  else if finalByte = 0x47 then do
    let x ← int32 (countOf params 0 - 1)
    Machine.setColumn s x
  else if finalByte = 0x64 then do
    let y ← int32 (countOf params 0 - 1)
    Machine.setRow s y
  else if finalByte = 0x48 ∨ finalByte = 0x66 then do
    let x ← int32 (countOf params 1 - 1)
    let y ← int32 (countOf params 0 - 1)
    Machine.moveTo s x y
  else if finalByte = 0x4A then Machine.eraseDisplay s (paramOr params 0 0)
  else if finalByte = 0x4B then Machine.eraseLine s (paramOr params 0 0)
  else if finalByte = 0x58 then Machine.eraseChars s (countOf params 0)
  else if finalByte = 0x40 then Machine.insertChars s (countOf params 0)
  else if finalByte = 0x50 then Machine.deleteChars s (countOf params 0)
  else if finalByte = 0x4C then Machine.insertLines s (countOf params 0)
  else if finalByte = 0x4D then Machine.deleteLines s (countOf params 0)
  else if finalByte = 0x72 then
    if params = [] then Machine.resetScrollRegion s
    else do
      let top ← int32 (countOf params 0 - 1)
      let bottom ← int32 (paramOr params 1 s.rows - 1)
      Machine.setScrollRegion s top bottom
  else if finalByte = 0x67 then
    if paramOr params 0 0 = 0 then Machine.clearTab s
    else if paramOr params 0 0 = 3 then pure s.clearAllTabs
    else pure s
  else if finalByte = 0x6D then pure (s.setPen (applySgr params s.pen))
  else pure s

/-- `csi`, as the machine computes it. Answers, styles and changes of mode are as before:
they move no cell. -/
def machineCsi (params : Params) (intermediates : Bytes) (finalByte : UInt8) : Checked Sink :=
  let answer := replyForCsi params intermediates finalByte t.screen.cx t.screen.cy t.modes
  if answer ≠ [] then pure { t with toGuest := t.toGuest ++ answer }
  else if intermediates = [0x3F] then
    if finalByte = 0x68 ∨ finalByte = 0x6C then
      pure (syncModes { t with modes := applyDecPrivate params (finalByte == 0x68) t.modes })
    else pure t
  else if intermediates ≠ [] then pure t
  else do
    let screen ← t.machineCsiPlain params finalByte
    pure { t with screen := screen }

end Sink

/-! ### Parameters, their defaults and their conversions -/

/-- A parameter the ceiling holds for, or a default it holds for. -/
theorem paramOr_mem {params : Params} (h : ParamsCapped params) (index : Nat) {fallback : Int}
    (h0 : 0 ≤ fallback) (h1 : fallback ≤ 65535) :
    0 ≤ paramOr params index fallback ∧ paramOr params index fallback ≤ 65535 := by
  unfold paramOr
  split
  · exact ⟨h0, h1⟩
  · next q hq =>
      have hle : q.value ≤ 65535 := (h.2 q (List.mem_of_getElem? hq)).2
      split
      · exact ⟨h0, h1⟩
      · omega

theorem countOf_mem {params : Params} (h : ParamsCapped params) (index : Nat) :
    1 ≤ countOf params index ∧ countOf params index ≤ 65535 := by
  have hp := paramOr_mem h index (show (0 : Int) ≤ 1 by omega) (show (1 : Int) ≤ 65535 by omega)
  unfold countOf
  omega

/-! ### The dispatch -/

theorem machineCsiPlain_eq {t : Sink} (hb : t.screen.Bounded) (hcols : t.screen.cols ≤ 65535)
    (hrows : t.screen.rows ≤ 65535) {params : Params} (hp : ParamsCapped params) (finalByte : UInt8) :
    t.machineCsiPlain params finalByte = .ok (t.csiPlain params finalByte) := by
  have hs : t.screen.Small := { hb.sized with cols_le := hcols, rows_le := hrows }
  have hc := hb.onPage
  obtain ⟨h0, h1⟩ := countOf_mem hp 0
  obtain ⟨h0', h1'⟩ := countOf_mem hp 1
  have hbottom := paramOr_mem hp 1 (show 0 ≤ t.screen.rows by have := hb.rows_pos; omega) hrows
  unfold Sink.machineCsiPlain Sink.csiPlain
  refine ite_eq (fun _ => Machine.moveUp_eq hs hc h1) fun _ => ?_
  refine ite_eq (fun _ => Machine.moveDown_eq hs hc h1) fun _ => ?_
  refine ite_eq (fun _ => Machine.moveRight_eq hs hc h1) fun _ => ?_
  refine ite_eq (fun _ => Machine.moveLeft_eq hs hc h1) fun _ => ?_
  refine ite_eq (fun _ => ?_) fun _ => ?_
  · rw [int32_eq (by omega) (by omega), ok_bind]
    exact Machine.moveTo_eq hs _ _
  refine ite_eq (fun _ => ?_) fun _ => ?_
  · rw [int32_eq (by omega) (by omega), ok_bind]
    exact Machine.moveTo_eq hs _ _
  refine ite_eq (fun _ => ?_) fun _ => ?_
  · rw [int32_eq (by omega) (by omega), ok_bind, int32_eq (by omega) (by omega), ok_bind]
    exact Machine.moveTo_eq hs _ _
  refine ite_eq (fun _ => Machine.eraseDisplay_eq hs hc _) fun _ => ?_
  refine ite_eq (fun _ => Machine.eraseLine_eq hs _) fun _ => ?_
  refine ite_eq (fun _ => Machine.eraseChars_eq hs hc (by omega) h1) fun _ => ?_
  refine ite_eq (fun _ => Machine.insertChars_eq hs hc _) fun _ => ?_
  refine ite_eq (fun _ => Machine.deleteChars_eq hs hc _) fun _ => ?_
  refine ite_eq (fun _ => Machine.insertLines_eq hs _) fun _ => ?_
  refine ite_eq (fun _ => Machine.deleteLines_eq hs _) fun _ => ?_
  refine ite_eq (fun _ => ite_eq (fun _ => Machine.resetScrollRegion_eq hs) fun _ => ?_) fun _ => ?_
  · rw [int32_eq (by omega) (by omega), ok_bind, int32_eq (by omega) (by omega), ok_bind]
    exact Machine.setScrollRegion_eq hs (by omega) (by omega)
  refine ite_eq (fun _ => ite_eq (fun _ => Machine.clearTab_eq hb.tabs) fun _ => ?_) fun _ => ?_
  · exact ite_eq (fun _ => rfl) fun _ => rfl
  · exact ite_eq (fun _ => rfl) fun _ => rfl

/-- The sequences the parser delivers, on any screen that small. -/
theorem machineCsi_eq {t : Sink} (hb : t.screen.Bounded) (hcols : t.screen.cols ≤ 65535)
    (hrows : t.screen.rows ≤ 65535) {params : Params} (hp : ParamsCapped params)
    (intermediates : Bytes) (finalByte : UInt8) :
    t.machineCsi params intermediates finalByte = .ok (t.csi params intermediates finalByte) := by
  unfold Sink.machineCsi Sink.csi
  refine ite_eq (fun _ => rfl) fun _ => ?_
  refine ite_eq (fun _ => ite_eq (fun _ => rfl) fun _ => rfl) fun _ => ?_
  refine ite_eq (fun _ => rfl) fun _ => ?_
  rw [machineCsiPlain_eq hb hcols hrows hp, ok_bind]
  rfl

/-- **No overflow and no growth.** Whatever a guest writes to a parser, wherever it had
been brought, the parser holds so much and no more. A control sequence it delivers,
dispatched on any screen of at most 65535 columns and rows that operations lead to,
stops at no watch: no sum, difference or product of a handler leaves its type, no access
leaves the page, the stops or a slice, and no loop goes on. -/
theorem guest_bytes_in_range (ambiguousWide : Bool) (uses : List Parser.Use) (bytes : Bytes) :
    let r := (run Parser.use {} uses).feed bytes
    (r.1.params.length ≤ 32 ∧ (∀ q ∈ r.1.params, -1 ≤ q.value ∧ q.value ≤ 65535) ∧
      r.1.intermediates.length ≤ 4 ∧ r.1.oscData.length ≤ 4096) ∧
    ∀ params intermediates finalByte, SinkCall.csi params intermediates finalByte ∈ r.2 →
      ∀ (cols rows : Int) (ops : List ScreenOp) (t : Sink),
        t.screen = run (Screen.step ambiguousWide) (Screen.create cols rows) ops →
        t.screen.cols ≤ 65535 → t.screen.rows ≤ 65535 →
        t.machineCsi params intermediates finalByte =
          .ok (t.csi params intermediates finalByte) := by
  intro r
  obtain ⟨hheld, hcalls⟩ := (Parser.Capped.run uses).feed bytes
  refine ⟨⟨hheld.params.1, hheld.params.2, hheld.intermediates, hheld.oscData⟩, ?_⟩
  intro params intermediates finalByte hcall cols rows ops t ht hcols hrows
  have hb : t.screen.Bounded := ht ▸ (Screen.Bounded.create cols rows).run ambiguousWide ops
  have hp : SinkCall.Capped (.csi params intermediates finalByte) := hcalls _ hcall
  exact machineCsi_eq hb hcols hrows hp.1 intermediates finalByte

/-- A count far beyond the ceiling, fed in two pieces, with the cursor on the last cell. -/
theorem guest_bytes_in_range_huge :
    Sink.machineCsi { screen := run (Screen.step false) (Screen.create 3 2) [.moveTo 9 9] }
        [{ value := 65535 }] [] 0x50 =
      .ok (Sink.csi { screen := run (Screen.step false) (Screen.create 3 2) [.moveTo 9 9] }
        [{ value := 65535 }] [] 0x50) :=
  (guest_bytes_in_range false [.reset, .feed [0x1B, 0x5B, 0x39, 0x39]]
      [0x39, 0x39, 0x39, 0x39, 0x39, 0x50]).2 _ _ _ (by decide) 3 2 [.moveTo 9 9] _ rfl (by decide)
    (by decide)

end Sshos.Apps
