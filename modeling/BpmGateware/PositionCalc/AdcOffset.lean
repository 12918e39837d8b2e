import BpmGateware.BpmSwap.Deswap

/-!
# Calibration by switch state

`position_calc` starts with `p_adc_offs_stage`: two pipeline stages that subtract an offset from
each channel and select a gain, from set `swclk_0` or set `swclk_1` as the tag of the sample says.
The register map gives the sets to the two states of the RF switch, direct and inverted. The tag
comes from the deswap command, not from the switch command, so the two agree only in the modes in
which `swmode_sel` gives the same command to both sides.

## Main definitions

* `AdcOffs`, `adcOffsStep`: the registers of `p_adc_offs_stage`
* `Chain`, `chainStep`: `bpm_swap` and the stage behind it, wired as in `wb_position_calc_core`
* `CalibratedWith`: the operands of a sample come from one of the sets
* `CorrectSet mode`: in that mode every sample is calibrated by the state of the switch

## Main results

* `calibratedWith_tag`: a sample is calibrated by its deswap command
* `correctSet_iff`: the modes in which that is the state of the switch
-/

namespace PositionCalc

open Clocked BpmSwap

variable {w d c o g : ℕ}

/-! ## The offset stage -/

/-- The offsets and gains of one switch state, by channel. -/
structure CalibSet (o g : ℕ) where
  offset : Fin 4 → BitVec o
  gain : Fin 4 → BitVec g

/-- The sets of the two switch states, direct and inverted. -/
structure Calib (o g : ℕ) where
  swclk0 : CalibSet o g
  swclk1 : CalibSet o g

/-- Set `swclk_1` for `true`, set `swclk_0` for `false`. -/
def Calib.set (x : Calib o g) (k : Bool) : CalibSet o g := if k then x.swclk1 else x.swclk0

/-- The registers of `p_adc_offs_stage`. -/
structure AdcOffs (c o g : ℕ) where
  adcOffsetArr : Fin 4 → BitVec o
  adcInputD1 : Fin 4 → BitVec c
  adcInputTagD1 : Bool
  adcInputValidD1 : Bool
  adcInputOffs : Fin 4 → BitVec c
  adcInputOffsTag : Bool
  adcInputOffsValid : Bool
  adcGainArr : Fin 4 → BitVec g

/-- What the stage samples at one edge. -/
structure AdcIn (c o g : ℕ) where
  adcInputD0 : Fin 4 → BitVec c
  adcTag : Bool
  adcValid : Bool
  calib : Calib o g

/-- One edge of `p_adc_offs_stage`: the offset is selected by the tag at the input and the gain by
the tag one stage later; the offset is extended with its sign to the width of the input. -/
def adcOffsStep (s : AdcOffs c o g) (i : AdcIn c o g) : AdcOffs c o g where
  adcOffsetArr := (i.calib.set i.adcTag).offset
  adcInputD1 := i.adcInputD0
  adcInputTagD1 := i.adcTag
  adcInputValidD1 := i.adcValid
  adcInputOffs ch := s.adcInputD1 ch - (s.adcOffsetArr ch).signExtend c
  adcInputOffsTag := s.adcInputTagD1
  adcInputOffsValid := s.adcInputValidD1
  adcGainArr := (i.calib.set s.adcInputTagD1).gain

/-! ## The chain -/

/-- The channels in the order of `position_calc`: A, B, C, D, where the switched pairs are A, C
and B, D. -/
def dspChans (x : Chans c) : Fin 4 → BitVec c
  | 0 => x.cha
  | 1 => x.chc
  | 2 => x.chb
  | 3 => x.chd

/-- The registers of `bpm_swap` and of the stage behind it. -/
structure Chain (R : ShiftReg d) (c o g : ℕ) where
  swap : State R c
  offs : AdcOffs c o g

/-- The inputs of the chain at one edge. -/
structure ChainIn (w d c o g : ℕ) where
  swap : Input w d c
  calib : Calib o g

variable {R : ShiftReg d}

/-- One edge of the chain. -/
def chainStep (s : Chain R c o g) (i : ChainIn w d c o g) : Chain R c o g where
  swap := step s.swap i.swap
  offs := adcOffsStep s.offs ⟨dspChans s.swap.out, s.swap.tag, s.swap.chValid, i.calib⟩

section Runs

variable (s : Chain R c o g) (inp : ℕ → ChainIn w d c o g)

theorem run_swap (t : ℕ) :
    (run chainStep s inp t).swap = run step s.swap (fun t => (inp t).swap) t :=
  run_proj Chain.swap (fun _ i => i.swap) (fun _ _ => rfl) s inp t

/-- The operands of the gain multiplier for the sample that entered `bpm_swap` at cycle `t`, three
cycles later: it is valid, the offset subtracted from it and the gain are those of set `k`. -/
structure CalibratedWith (t : ℕ) (k : Bool) : Prop where
  valid : (run chainStep s inp (t + 3)).offs.adcInputOffsValid = true
  offset : ∀ ch, (run chainStep s inp (t + 3)).offs.adcInputOffs ch =
    dspChans (run chainStep s inp (t + 1)).swap.out ch -
      (((inp (t + 1)).calib.set k).offset ch).signExtend c
  gain : (run chainStep s inp (t + 3)).offs.adcGainArr = ((inp (t + 2)).calib.set k).gain

/-- **A sample is calibrated by its tag**, two edges after it leaves `bpm_swap`. -/
theorem calibratedWith_tag {t : ℕ} (hv : (run chainStep s inp (t + 1)).swap.chValid = true) :
    CalibratedWith s inp t (run chainStep s inp (t + 1)).swap.tag where
  valid := hv
  offset _ := rfl
  gain := rfl

/-- The tag of a valid sample is the deswap command of `D + 1` cycles before it. -/
theorem tag_eq_deswap {mode : SwapMode} {D : BitVec d} {t : ℕ}
    (hheld : HeldUntil (fun t => (inp t).swap) mode D t)
    (hr : (inp t).swap.rstN = true) (hv : (inp t).swap.chValid = true) :
    (run chainStep s inp (t + 1)).swap.chValid = true ∧
      (run chainStep s inp (t + 1)).swap.tag =
        (run chainStep s inp (t - (D.toNat + 1))).swap.gen.deswap := by
  obtain ⟨-, htag, hvalid⟩ := out_step
    (s := run step s.swap (fun t => (inp t).swap) t) (i := (inp t).swap) hr hv
  rw [run_swap, run_swap, run_succ]
  exact ⟨hvalid, by rw [htag, hheld.deswapO_eq s.swap]⟩

end Runs

/-! ## The set and the switch -/

/-- In the mode, held for `D + 3` cycles, every valid sample is calibrated with set `swclk_1` if
`rffe_swclk_o` was low `D + 1` cycles before it, and with set `swclk_0` if it was high. -/
def CorrectSet (mode : SwapMode) : Prop :=
  ∀ (w d c o g : ℕ) (R : ShiftReg d) (s : Chain R c o g) (inp : ℕ → ChainIn w d c o g)
    (D : BitVec d) (t : ℕ), HeldUntil (fun t => (inp t).swap) mode D t →
    (inp t).swap.rstN = true → (inp t).swap.chValid = true →
    CalibratedWith s inp t !(run chainStep s inp (t - (D.toNat + 1))).swap.rffeSwclk

/-- The modes in which `swmode_sel` gives both sides the same command calibrate correctly. -/
theorem correctSet_of_same {mode : SwapMode} (hsel : selSwap mode = selDeswap mode) :
    CorrectSet mode := by
  intro w d c o g R s inp D t hheld hr hv
  obtain ⟨hvalid, htag⟩ := tag_eq_deswap s inp hheld hr hv
  have hcal := calibratedWith_tag s inp hvalid
  obtain ⟨m, hm⟩ : ∃ m, t = m + (D.toNat + 2) := Nat.exists_eq_add_of_le' hheld.1
  -- the selector saw the mode at cycle `m`, so one edge later both commands are the same
  have hsame : (run chainStep s inp (m + 1)).swap.gen.swap =
      (run chainStep s inp (m + 1)).swap.gen.deswap := by
    have hmode := (hheld.2 m (by omega) (by omega)).1
    simp [run_succ, chainStep, step, genStep, Input.gen, hmode, hsel]
  rw [show t - (D.toNat + 1) = m + 1 by omega] at htag ⊢
  rw [htag, ← hsame] at hcal
  simpa [State.rffeSwclk] using hcal

/-- Calibration sets that differ in one gain. -/
def twoGains : Calib 16 32 := ⟨⟨fun _ => 0, fun _ => 1⟩, ⟨fun _ => 0, fun _ => 2⟩⟩

def Chain.idle : Chain (ShiftReg.unbounded 8) 16 16 32 :=
  ⟨State.idle, ⟨fun _ => 0, fun _ => 0, false, false, fun _ => 0, false, false, fun _ => 0⟩⟩

/-- Samples in every cycle, in one mode. -/
def steadyChain (mode : SwapMode) (t : ℕ) : ChainIn 16 8 16 16 32 :=
  ⟨steadyInput mode ⟨1, 2, 3, 4⟩ t, twoGains⟩

theorem steadyChain_held (mode : SwapMode) :
    HeldUntil (fun t => (steadyChain mode t).swap) mode 1 5 :=
  steadyInput_held mode _ (by decide)

/-- In the mode `static_inverted` the switch is inverted and the gain is that of the direct
state. -/
theorem staticInverted_wrong_set :
    HeldUntil (fun t => (steadyChain .staticInverted t).swap) .staticInverted 1 5 ∧
      (run chainStep Chain.idle (steadyChain .staticInverted) 3).swap.rffeSwclk = false ∧
      (run chainStep Chain.idle (steadyChain .staticInverted) 8).offs.adcGainArr 0 =
        twoGains.swclk0.gain 0 ∧
      twoGains.swclk0.gain 0 ≠ twoGains.swclk1.gain 0 :=
  ⟨steadyChain_held _, by decide, by decide, by decide⟩

/-- **When the calibration set is that of the switch**: exactly in the modes `swap_deswap` and
`static_direct`. -/
theorem correctSet_iff (mode : SwapMode) :
    CorrectSet mode ↔ mode = .swapDeswap ∨ mode = .staticDirect := by
  constructor
  · intro h
    -- the other two modes invert the switch at cycle 3 without a deswap command
    have hgain := (h 16 8 16 16 32 _ Chain.idle (steadyChain mode) 1 5 (steadyChain_held mode)
      rfl rfl).gain
    have hgain₀ := congrFun hgain 0
    cases mode with
    | swapDeswap => exact Or.inl rfl
    | staticDirect => exact Or.inr rfl
    | staticInverted => exact absurd hgain₀ (by decide)
    | rffeSwap => exact absurd hgain₀ (by decide)
  · rintro (rfl | rfl)
    · exact correctSet_of_same rfl
    · exact correctSet_of_same rfl

end PositionCalc
