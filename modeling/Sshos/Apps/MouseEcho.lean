import Sshos.Apps.Tabbed
import Sshos.Input.Timeout

/-!
# Sshos.Apps.MouseEcho

Mouse reports, **there and back**. One file unpacks the button, the kind and the modifiers of a
report from a number, the other packs them again for the guest. Whatever a report held, what the
parser made of it has coordinates below the ceiling of a parameter, one of four buttons, and no
button with the wheel (`Reported`); and these come back.
-/

namespace Sshos.Apps.Tabbed

open Sshos.Input (InputEvent InputParser Mods MouseAction MouseEvent csiEnd csiEvent csiFront
  escapeFront inputFront kMaxCsiParam kMaxCsiParamsLen keyFromTilde splitParams startsPaste)
open Sshos.Input.InputParser (Call call feed feed_front mouseOf)
open Sshos.Lib (Bytes decimal decimal_digits decimal_of_le decimal_of_lt digitByte digitByte_spec foldl_decimal
  length_decimal_mono num num_natCast run_preserves)

/-- What can be told of a report that was read. -/
structure Reported (m : MouseEvent) : Prop where
  x : 0 ≤ m.x ∧ m.x < kMaxCsiParam
  y : 0 ≤ m.y ∧ m.y < kMaxCsiParam
  button : m.button < 4
  wheel : m.action = .wheelUp ∨ m.action = .wheelDown → m.button = 0

/-! ### What is read -/

/-- A parameter never passes its ceiling. -/
theorem splitParams_le (s : Bytes) : ∀ p ∈ splitParams s, p ≤ kMaxCsiParam := by
  have hgo : ∀ (s : Bytes) (cur : Int), cur ≤ kMaxCsiParam →
      ∀ p ∈ splitParams.go s cur, p ≤ kMaxCsiParam := by
    intro s
    induction s with
    | nil =>
        intro cur hcur p hp
        rw [splitParams.go, List.mem_singleton] at hp
        exact hp ▸ hcur
    | cons c cs ih =>
        intro cur hcur
        rw [splitParams.go]
        split
        · refine ih _ ?_
          simp only [kMaxCsiParam]
          split <;> omega
        split
        · exact List.forall_mem_cons.2 ⟨hcur, ih _ (by decide)⟩
        · exact ih _ hcur
  exact hgo s _ (by decide)

theorem reported_of_mouseOf {ps : List Int} {final : UInt8} {m : MouseEvent}
    (hps : ∀ p ∈ ps, p ≤ kMaxCsiParam) (h : mouseOf ps final = some m) : Reported m := by
  match ps, hps, h with
  | cb :: px :: py :: rest, hps, h =>
      obtain ⟨-, hx, hy, -⟩ :
          cb ≤ kMaxCsiParam ∧ px ≤ kMaxCsiParam ∧ py ≤ kMaxCsiParam ∧ True := by
        refine ⟨hps cb ?_, hps px ?_, hps py ?_, trivial⟩
        all_goals simp only [List.mem_cons, true_or, or_true]
      rw [mouseOf] at h
      split at h
      · cases h
      next hgood =>
      have hplace : (0 ≤ px - 1 ∧ px - 1 < kMaxCsiParam) ∧ (0 ≤ py - 1 ∧ py - 1 < kMaxCsiParam) := by
        omega
      have hfour : cb.toNat % 4 < 4 := Nat.mod_lt _ (by decide)
      simp only at h
      split at h
      · cases h
        exact ⟨hplace.1, hplace.2, Nat.zero_lt_succ 3, fun _ => rfl⟩
      split at h
      · cases h
        exact ⟨hplace.1, hplace.2, hfour, nofun⟩
      · cases h
        refine ⟨hplace.1, hplace.2, hfour, ?_⟩
        simp only
        split
        · exact nofun
        · exact nofun

/-- Every mouse event the parser holds is one that was read. -/
def Mice (p : InputParser) : Prop := ∀ m, .mouse m ∈ p.ready → Reported m

section Parser

variable {p : InputParser}

theorem Mice.of_ready {q : InputParser} (h : Mice p) (hready : q.ready = p.ready) : Mice q := by
  intro m hm
  exact h m (hready ▸ hm)

theorem Mice.emit {e : InputEvent} (h : Mice p) (he : ∀ m, e = .mouse m → Reported m) :
    Mice (p.emit e) := by
  intro m hm
  rcases List.mem_append.1 hm with hbefore | hnew
  · exact h m hbefore
  · exact he m (List.mem_singleton.1 hnew).symm

theorem Mice.onCsi (h : Mice p) (params : Bytes) (final : UInt8) : Mice (p.onCsi params final) := by
  unfold InputParser.onCsi
  split
  · split
    · exact h
    next m hmouse =>
      refine h.emit fun m' heq => ?_
      obtain rfl := InputEvent.mouse.inj heq
      exact reported_of_mouseOf (splitParams_le _) hmouse
  split
  · exact h.emit (by simp)
  have htilde : ∀ (n : Int) (mods : Mods),
      Mice (if n = 200 then { p with inPaste := true, pasteScanned := 0 }
        else p.emitKey (keyFromTilde n) 0 mods) := by
    intro n mods
    split
    · exact h.of_ready rfl
    · exact h.emit (by simp)
  split
  · exact htilde _ _
  · exact h.emit (by simp)

theorem Mice.step (h : Mice p) : Mice p.step.2 := by
  have hp : Mice { p with escPending := false } := h.of_ready rfl
  unfold InputParser.step
  generalize { p with escPending := false } = p at hp ⊢
  simp only
  split
  · unfold InputParser.stepPaste
    simp only
    split
    · exact (hp.emit (by simp)).of_ready rfl
    split
    · exact (hp.emit (by simp)).of_ready rfl
    · exact hp.of_ready rfl
  split
  · exact hp
  split
  · unfold InputParser.stepByte
    repeat' split
    all_goals first
      | exact hp
      | exact hp.emit (by simp)
  · unfold InputParser.stepEscape
    repeat' split
    all_goals first
      | exact hp
      | exact hp.emit (by simp)
      | exact hp.of_ready rfl
      | exact hp.onCsi _ _

theorem Mice.pump (h : Mice p) : Mice p.pump :=
  InputParser.pump_preserves (fun _ h => h.step) (fun _ _ h => h.of_ready rfl) h

theorem Mice.timeout (h : Mice p) : Mice p.timeout := by
  have hp : Mice { p with escPending := false } := h.of_ready rfl
  have hkeys : ∀ (bytes : Bytes) {q : InputParser}, Mice q →
      Mice (bytes.foldl (fun q b => q.emitKey .char b.toNat) q) := by
    intro bytes
    induction bytes with
    | nil => exact fun hq => hq
    | cons b bytes ih => exact fun hq => ih (hq.emit (by simp))
  unfold InputParser.timeout
  generalize { p with escPending := false } = p at hp ⊢
  simp only
  split
  · exact hp
  split
  · exact hp
  split
  · exact (hp.emit (by simp)).of_ready rfl
  · exact (hkeys _ (hp.emit (by simp))).of_ready rfl

/-- **Along every run**, what the parser delivers was read. -/
theorem mice_run (calls : List Call) : Mice (Lib.run call {} calls) := by
  refine run_preserves (fun p c h => ?_) nofun calls
  cases c with
  | feed bytes => exact Mice.pump (h.of_ready rfl)
  | timeout => exact h.timeout

end Parser

/-! ### What is written -/

/-- The kind and the button of a report. -/
def reportBase (m : MouseEvent) : Nat :=
  match m.action with
  | .wheelUp => 64
  | .wheelDown => 65
  | .motion => m.button + 32
  | _ => m.button

/-- With the modifiers. -/
def reportCode (base : Nat) (mods : Mods) : Nat :=
  base + (if mods.shift then 4 else 0) + (if mods.alt then 8 else 0) + (if mods.ctrl then 16 else 0)

/-- Its parameters. -/
def reportParams (code x y : Nat) : Bytes := decimal code ++ 0x3b :: (decimal x ++ 0x3b :: decimal y)

theorem reportCode_cast (base : Nat) (mods : Mods) :
    ((reportCode base mods : Nat) : Int) =
      base + (if mods.shift then 4 else 0) + (if mods.alt then 8 else 0) +
        (if mods.ctrl then 16 else 0) := by
  unfold reportCode
  push_cast
  rfl

theorem encodeMouseSgr_eq {m : MouseEvent} {x y : Nat} (hx : m.x + 1 = x) (hy : m.y + 1 = y) :
    encodeMouseSgr m m.x m.y =
      0x1b :: 0x5b :: (0x3c :: reportParams (reportCode (reportBase m) m.mods) x y ++
        [if m.action = .release then 0x6d else 0x4d]) := by
  have hbase : (match m.action with
      | .wheelUp => (64 : Int)
      | .wheelDown => 65
      | .motion => m.button + 32
      | _ => m.button) = (reportBase m : Int) := by
    unfold reportBase
    cases m.action <;> rfl
  have hcode := reportCode_cast (reportBase m) m.mods
  rw [← hbase] at hcode
  rw [reportParams, ← num_natCast (reportCode _ _), ← num_natCast x, ← num_natCast y, hcode, ← hx, ← hy]
  have hpieces : ∀ code column row last : Bytes,
      [0x1b, 0x5b, 0x3c] ++ code ++ [0x3b] ++ column ++ [0x3b] ++ row ++ last =
        0x1b :: 0x5b :: (0x3c :: (code ++ 0x3b :: (column ++ 0x3b :: row)) ++ last) := by
    intro code column row last
    simp only [List.append_assoc, List.cons_append, List.nil_append]
  exact hpieces _ _ _ _

/-- **What is packed is unpacked**: the masks of the reader find what was added. -/
theorem reportCode_bits : ∀ base < 66, base &&& 0x1c = 0 → ∀ shift alt ctrl : Bool,
    (reportCode base { shift, alt, ctrl }).testBit 2 = shift ∧
    (reportCode base { shift, alt, ctrl }).testBit 3 = alt ∧
    (reportCode base { shift, alt, ctrl }).testBit 4 = ctrl ∧
    (reportCode base { shift, alt, ctrl }).testBit 6 = base.testBit 6 ∧
    (reportCode base { shift, alt, ctrl }).testBit 5 = base.testBit 5 ∧
    (reportCode base { shift, alt, ctrl }).testBit 0 = base.testBit 0 ∧
    reportCode base { shift, alt, ctrl } % 4 = base % 4 ∧
    reportCode base { shift, alt, ctrl } < 100 := by
  decide +kernel

/-! ### Reading it back -/

/-- A digit is added to the number so far, below the ceiling. -/
theorem splitParams_digit {d : Nat} (hd : d < 10) (cs : Bytes) (cur : Int) :
    splitParams.go (digitByte d :: cs) cur =
      splitParams.go cs (if (if cur < 0 then 0 else cur) > (kMaxCsiParam - d) / 10 then kMaxCsiParam
        else (if cur < 0 then 0 else cur) * 10 + d) := by
  obtain ⟨hlo, hhi, hvalue⟩ := digitByte_spec d hd
  have hcast : ((digitByte d).toNat : Int) - 0x30 = d := by omega
  rw [splitParams.go, if_pos ⟨hlo, hhi⟩]
  simp only [hcast]

/-- **A number below the ceiling is read as it was written.** -/
theorem splitParams_decimal {n : Nat} (hn : (n : Int) ≤ kMaxCsiParam) (rest : Bytes) :
    splitParams.go (decimal n ++ rest) (-1) = splitParams.go rest n := by
  simp only [kMaxCsiParam] at hn
  induction n using Nat.strongRecOn generalizing rest with
  | ind n ih =>
      by_cases hlt : n < 10
      · have hroom : ¬ (0 : Int) > (kMaxCsiParam - n) / 10 := by
          simp only [kMaxCsiParam]
          omega
        have hnone : (-1 : Int) < 0 := by decide
        rw [decimal_of_lt hlt, List.singleton_append, splitParams_digit hlt]
        simp only [if_pos hnone, if_neg hroom, Int.zero_mul, Int.zero_add]
      · have hmod : n % 10 < 10 := Nat.mod_lt n (by decide)
        have hroom : ¬ ((n / 10 : Nat) : Int) > (kMaxCsiParam - (n % 10 : Nat)) / 10 := by
          simp only [kMaxCsiParam]
          omega
        have hsum : ((n / 10 : Nat) : Int) * 10 + (n % 10 : Nat) = n := by omega
        rw [decimal_of_le (Nat.le_of_not_lt hlt), List.append_assoc, ih (n / 10) (by omega) (by omega),
          List.singleton_append, splitParams_digit hmod, if_neg (Int.not_lt.2 (Int.natCast_nonneg _)),
          if_neg hroom, hsum]

theorem splitParams_reportParams {code x y : Nat} (hcode : code < 100) (hx : (x : Int) ≤ kMaxCsiParam)
    (hy : (y : Int) ≤ kMaxCsiParam) : splitParams (reportParams code x y) = [(code : Int), x, y] := by
  have hc : (code : Int) ≤ kMaxCsiParam := by
    simp only [kMaxCsiParam]
    omega
  have hsep : ∀ (cs : Bytes) (cur : Int), splitParams.go (0x3b :: cs) cur = cur :: splitParams.go cs (-1) := by
    intro cs cur
    rw [splitParams.go, if_neg (by decide), if_pos rfl]
  have hlast := splitParams_decimal hy []
  rw [List.append_nil] at hlast
  rw [splitParams, reportParams, splitParams_decimal hc, hsep, splitParams_decimal hx, hsep, hlast]
  rfl

/-- The parameters are scanned up to the final byte. -/
theorem csiEnd_params {params : Bytes} (hparams : ∀ c ∈ params, c < 0x40) {final : UInt8}
    (hfinal : 0x40 ≤ final ∧ final ≤ 0x7e) : ∀ i, i - 2 + params.length < kMaxCsiParamsLen →
      csiEnd (params ++ [final]) i = .final (i + params.length) := by
  induction params with
  | nil =>
      intro i hlen
      have hroom : ¬ i - 2 ≥ kMaxCsiParamsLen := Nat.not_le.2 hlen
      rw [List.nil_append, csiEnd, if_neg hroom, if_pos hfinal]
      rfl
  | cons c cs ih =>
      intro i hlen
      obtain ⟨hc, hcs⟩ := List.forall_mem_cons.1 hparams
      have hlow : ¬ (0x40 ≤ c ∧ c ≤ 0x7e) := fun h => absurd h.1 (UInt8.not_le.2 hc)
      rw [List.length_cons] at hlen ⊢
      rw [List.cons_append, csiEnd, if_neg (by omega), if_neg hlow, ih hcs (i + 1) (by omega)]
      congr 1
      omega

theorem length_decimal_param {n : Nat} (hn : (n : Int) ≤ kMaxCsiParam) : (decimal n).length ≤ 5 := by
  have hmax : n ≤ 65535 := by
    simp only [kMaxCsiParam] at hn
    omega
  refine (length_decimal_mono hmax).trans ?_
  rw [decimal_of_le (by decide), decimal_of_le (by decide), decimal_of_le (by decide), decimal_of_le (by decide),
    decimal_of_lt (by decide)]
  exact le_refl _

/-- The bytes of a report are one sequence, which is that report. -/
theorem inputFront_report {code x y : Nat} (hcode : code < 100) (hx : (x : Int) ≤ kMaxCsiParam)
    (hy : (y : Int) ≤ kMaxCsiParam) {final : UInt8} (hfinal : 0x40 ≤ final ∧ final ≤ 0x7e) :
    inputFront (0x1b :: 0x5b :: (0x3c :: reportParams code x y ++ [final])) =
      .take (reportParams code x y).length.succ.succ.succ.succ
        ((mouseOf [(code : Int), x, y] final).map .mouse) := by
  have hlow : ∀ c ∈ 0x3c :: reportParams code x y, c < 0x40 := by
    have hdigits : ∀ {n : Nat}, ∀ c ∈ decimal n, c < 0x40 := fun c hc =>
      UInt8.lt_of_le_of_lt (decimal_digits c hc).2 (show (0x39 : UInt8) < 0x40 by decide)
    refine List.forall_mem_cons.2 ⟨by decide, List.forall_mem_append.2 ⟨hdigits, ?_⟩⟩
    refine List.forall_mem_cons.2 ⟨by decide, List.forall_mem_append.2 ⟨hdigits, ?_⟩⟩
    exact List.forall_mem_cons.2 ⟨by decide, hdigits⟩
  have hlen : (0x3c :: reportParams code x y).length < kMaxCsiParamsLen := by
    have hc := @length_decimal_param code (by simp only [kMaxCsiParam]; omega)
    have hx' := length_decimal_param hx
    have hy' := length_decimal_param hy
    simp only [reportParams, List.length_cons, List.length_append, kMaxCsiParamsLen]
    omega
  have hend := csiEnd_params hlow hfinal 2 (by rwa [Nat.sub_self, Nat.zero_add])
  generalize hps : 0x3c :: reportParams code x y = params at hlow hlen hend ⊢
  have htake : (params ++ [final]).take (2 + params.length - 2) = params := by
    rw [Nat.add_sub_cancel_left, List.take_left]
  have hget : (params ++ [final]).getD (2 + params.length - 2) 0 = final := by
    rw [Nat.add_sub_cancel_left, List.getD_eq_getElem?_getD, List.getElem?_append_right (le_refl _),
      Nat.sub_self]
    rfl
  have hhead : params.head? = some 0x3c := hps ▸ rfl
  have hnopaste : startsPaste params final = false := by
    rw [startsPaste, hhead]
    rfl
  have hevent : csiEvent params final = (mouseOf [(code : Int), x, y] final).map .mouse := by
    rw [csiEvent, if_pos hhead, ← hps, List.tail_cons, splitParams_reportParams hcode hx hy]
  have hesc : ¬ (0x1b : UInt8) ≠ 0x1b := by decide
  have hfront : csiFront (params ++ [final]) = .take (2 + params.length + 1) (csiEvent params final) := by
    simp only [csiFront, hend, htake, hget, hnopaste, Bool.false_eq_true, if_false]
  have hlength : 2 + params.length + 1 = (reportParams code x y).length.succ.succ.succ.succ := by
    rw [← hps, List.length_cons]
    omega
  have hcsi : ¬ (0x5b : UInt8) ≠ 0x5b := by decide
  have hss3 : ¬ (0x5b : UInt8) = 0x4f := by decide
  rw [← hlength, ← hevent, ← hfront]
  simp only [inputFront, if_neg hesc, escapeFront, if_neg hss3, if_neg hcsi]

/-- **What was packed is unpacked as the same event.** -/
theorem Reported.mouseOf_code {m : MouseEvent} (h : Reported m) {x y : Nat} (hx : m.x + 1 = x)
    (hy : m.y + 1 = y) :
    mouseOf [((reportCode (reportBase m) m.mods : Nat) : Int), x, y]
      (if m.action = .release then 0x6d else 0x4d) = some m := by
  have hplace : ¬ (((reportCode (reportBase m) m.mods : Nat) : Int) < 0 ∨ (x : Int) < 1 ∨ (y : Int) < 1) := by
    have hx0 := h.x.1
    have hy0 := h.y.1
    omega
  have hbase : reportBase m < 66 ∧ reportBase m &&& 0x1c = 0 := by
    have hbuttons : ∀ button < 4, button < 66 ∧ button &&& 0x1c = 0 ∧ button + 32 < 66 ∧
        (button + 32) &&& 0x1c = 0 := by decide
    obtain ⟨hlt, hmask, hlt', hmask'⟩ := hbuttons m.button h.button
    unfold reportBase
    cases m.action
    · exact ⟨hlt, hmask⟩
    · exact ⟨hlt, hmask⟩
    · exact ⟨hlt', hmask'⟩
    · exact (by decide : 64 < 66 ∧ 64 &&& 0x1c = 0)
    · exact (by decide : 65 < 66 ∧ 65 &&& 0x1c = 0)
  obtain ⟨hshift, halt, hctrl, hwheel, hmotion, hdown, hbutton, -⟩ :=
    reportCode_bits _ hbase.1 hbase.2 m.mods.shift m.mods.alt m.mods.ctrl
  have hxm : (x : Int) - 1 = m.x := by omega
  have hym : (y : Int) - 1 = m.y := by omega
  have hfour : ∀ button < 4, button % 4 = button ∧ button.testBit 6 = false ∧ button.testBit 5 = false ∧
      (button + 32).testBit 6 = false ∧ (button + 32).testBit 5 = true ∧ (button + 32) % 4 = button := by
    decide
  obtain ⟨hlow, hsix, hfive, hsix', hfive', hlow'⟩ := hfour m.button h.button
  have hwheels := h.wheel
  obtain ⟨action, button, mx, my, mods⟩ := m
  rw [mouseOf, if_neg hplace]
  simp only [Int.toNat_natCast, hshift, halt, hctrl, hwheel, hmotion, hdown, hbutton, hxm, hym]
  simp only at hlow hsix hfive hsix' hfive' hlow' hwheels
  cases action
  · simp only [reportBase, hsix, hfive, hlow, Bool.false_eq_true, if_false, reduceCtorEq]
    rfl
  · simp only [reportBase, hsix, hfive, hlow, Bool.false_eq_true, if_false, if_true]
  · simp only [reportBase, hsix', hfive', hlow', Bool.false_eq_true, if_false, if_true]
  · have hup : (64 : Nat).testBit 6 = true ∧ (64 : Nat).testBit 0 = false := by decide
    simp only [reportBase, hwheels (.inl rfl), hup, Bool.false_eq_true, if_false, if_true]
  · have hdown' : (65 : Nat).testBit 6 = true ∧ (65 : Nat).testBit 0 = true := by decide
    simp only [reportBase, hwheels (.inr rfl), hdown', if_true]

/-- **A report is read back as the event it was made from.** -/
theorem Reported.read_back {m : MouseEvent} (h : Reported m) :
    feed {} (encodeMouseSgr m m.x m.y) = { ready := [.mouse m] } := by
  obtain ⟨x, hx⟩ := Int.eq_ofNat_of_zero_le (show 0 ≤ m.x + 1 from by have := h.x.1; omega)
  obtain ⟨y, hy⟩ := Int.eq_ofNat_of_zero_le (show 0 ≤ m.y + 1 from by have := h.y.1; omega)
  have hfinal : ∀ a : MouseAction, (0x40 : UInt8) ≤ (if a = .release then 0x6d else 0x4d) ∧
      (if a = .release then 0x6d else 0x4d : UInt8) ≤ 0x7e := by
    intro a
    cases a <;> decide
  have hcode : reportCode (reportBase m) m.mods < 100 := by
    have hb := h.button
    unfold reportCode reportBase
    cases m.action
    all_goals
      simp only
      split <;> split <;> split <;> omega
  have hbounds : (x : Int) ≤ kMaxCsiParam ∧ (y : Int) ≤ kMaxCsiParam := by
    have hx' := h.x.2
    have hy' := h.y.2
    omega
  rw [encodeMouseSgr_eq hx hy]
  refine feed_front rfl ?_
  rw [inputFront_report hcode hbounds.1 hbounds.2 (hfinal m.action), h.mouseOf_code hx hy]
  simp only [List.length_cons, List.length_append, List.length_nil]
  rfl

/-- **Mouse reports make the round trip**: whatever bytes were read, however cut and delayed, each
event that came of them is, once encoded, read as that event and nothing else. -/
theorem mouse_read_back (calls : List Call) (m : MouseEvent)
    (hm : .mouse m ∈ (Lib.run call {} calls).ready) :
    feed {} (encodeMouseSgr m m.x m.y) = { ready := [.mouse m] } :=
  (mice_run calls m hm).read_back

/-- A turn of the wheel with Ctrl, its column beyond the ceiling of a parameter. -/
theorem mouse_read_back_far :
    feed {} (encodeMouseSgr { action := .wheelDown, x := 65534, y := 4, mods := { ctrl := true } } 65534 4) =
      { ready := [.mouse { action := .wheelDown, x := 65534, y := 4, mods := { ctrl := true } }] } := by
  have hread : Lib.run call {} [.feed [0x1b, 0x5b, 0x3c, 0x38, 0x31, 0x3b, 0x39, 0x39, 0x39, 0x39, 0x39,
      0x3b, 0x35, 0x4d]] =
        { ready := [.mouse { action := .wheelDown, x := 65534, y := 4, mods := { ctrl := true } }] } :=
    feed_front rfl (by decide)
  refine mouse_read_back [.feed [0x1b, 0x5b, 0x3c, 0x38, 0x31, 0x3b, 0x39, 0x39, 0x39, 0x39, 0x39,
    0x3b, 0x35, 0x4d]] { action := .wheelDown, x := 65534, y := 4, mods := { ctrl := true } } ?_
  rw [hread]
  exact List.mem_singleton_self _

end Sshos.Apps.Tabbed
