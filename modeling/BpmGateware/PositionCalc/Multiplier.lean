import BpmGateware.PositionCalc.AdcOffset

/-!
# The operands of the gain multipliers

Behind `p_adc_offs_stage` each channel of `position_calc` has one `cmp_generic_multiplier`. Two
cycles after a sample its multiplier is given the sample less its offset, its gain, its tag and its
valid, all of the same cycle, however the tag and the valid move. Which registers these come from
is decided one level up: `wb_position_calc_core` hands the samples over in the order of the
antennas A, B, C, D, where ADC channel 1 is antenna C and ADC channel 2 is antenna B, and the
calibration registers in the order of their own numbers. So the registers of the ADC channels 1
and 2 are applied to each other's samples.

## Main definitions

* `MultIn`, `AdcOffs.mult`: the ports of a multiplier
* `CalibRegs`, `CalibRegs.calib`: the calibration registers and their port map
* `Export`, `exportStep`: the samples exported behind `bpm_swap`, and the stage they enter
* `ReachesOwn`: a multiplier takes the samples of a channel with the registers of that channel

## Main results

* `mult_operands`: the operands of a multiplier belong to one sample
* `run_offs`: in the chain behind `bpm_swap` the stage runs on what is exported
* `reachesOwn_iff`: the registers of every channel reach their own samples exactly when those of
  the channels 1 and 2 agree
-/

namespace PositionCalc

open Clocked BpmSwap

variable {w d c o g : ℕ}

/-! ## One multiplier -/

/-- The ports `a_i`, `b_i`, `tag_i` and `valid_i` of `cmp_generic_multiplier`. -/
structure MultIn (c g : ℕ) where
  a : BitVec c
  b : BitVec g
  tag : Bool
  valid : Bool
  deriving DecidableEq, Repr

/-- The port map of the multiplier of channel `ch`. All elements of `adc_input_offs_tag` are
assigned the same tag, and all of `adc_input_offs_valid` the same valid. -/
def AdcOffs.mult (s : AdcOffs c o g) (ch : Fin 4) : MultIn c g where
  a := s.adcInputOffs ch
  b := s.adcGainArr ch
  tag := s.adcInputOffsTag
  valid := s.adcInputOffsValid

/-- What one sample leaves for the multipliers, by the set its tag selects. -/
def AdcIn.operands (i : AdcIn c o g) (ch : Fin 4) : MultIn c g where
  a := i.adcInputD0 ch - ((i.calib.set i.adcTag).offset ch).signExtend c
  b := (i.calib.set i.adcTag).gain ch
  tag := i.adcTag
  valid := i.adcValid

/-- The first stage: the sample, its offset, its tag and its valid move on together. -/
theorem stage_one (s : AdcOffs c o g) (i : AdcIn c o g) :
    (adcOffsStep s i).adcInputD1 = i.adcInputD0 ∧
      (adcOffsStep s i).adcOffsetArr = (i.calib.set i.adcTag).offset ∧
      (adcOffsStep s i).adcInputTagD1 = i.adcTag ∧
      (adcOffsStep s i).adcInputValidD1 = i.adcValid :=
  ⟨rfl, rfl, rfl, rfl⟩

/-- The second stage: the offset is applied, and the tag one stage old selects the gain. -/
theorem stage_two (s : AdcOffs c o g) (i : AdcIn c o g) (ch : Fin 4) :
    (adcOffsStep s i).mult ch =
      ⟨s.adcInputD1 ch - (s.adcOffsetArr ch).signExtend c, (i.calib.set s.adcInputTagD1).gain ch,
        s.adcInputTagD1, s.adcInputValidD1⟩ :=
  rfl

/-- Two cycles after a sample the multipliers have its operands, if the registers stay for the
second of them. -/
theorem mult_run (s : AdcOffs c o g) {inp : ℕ → AdcIn c o g} {t : ℕ}
    (hcalib : (inp (t + 1)).calib = (inp t).calib) (ch : Fin 4) :
    (run adcOffsStep s inp (t + 2)).mult ch = (inp t).operands ch := by
  obtain ⟨hd, hoff, htag, hvalid⟩ := stage_one (run adcOffsStep s inp t) (inp t)
  rw [run_succ, stage_two, run_succ, hd, hoff, htag, hvalid, hcalib, AdcIn.operands]

/-- **The operands of a multiplier belong to one sample**: with constant calibration registers, the
multiplier of every channel is given, two cycles after a sample, that sample less its offset, its
gain, its tag and its valid. -/
theorem mult_operands (s : AdcOffs c o g) (x : Calib o g) (adc : ℕ → Fin 4 → BitVec c)
    (tag valid : ℕ → Bool) (t : ℕ) (ch : Fin 4) :
    (run adcOffsStep s (fun t => ⟨adc t, tag t, valid t, x⟩) (t + 2)).mult ch =
      ⟨adc t ch - ((x.set (tag t)).offset ch).signExtend c, (x.set (tag t)).gain ch, tag t,
        valid t⟩ := by
  rw [mult_run s rfl]
  rfl

/-! ## The channels of the core -/

/-- The calibration registers `regs_adc_chN_swclk_s_gain_data_o` and
`regs_adc_chN_swclk_s_offset_data_o`, by switch state `s` and ADC channel `N`. -/
structure CalibRegs where
  gain : Bool → Fin 4 → BitVec 32
  offset : Bool → Fin 4 → BitVec 16

namespace CalibRegs

variable (r : CalibRegs)

/-- The bits of a gain register that are used: fixed-point numbers are aligned to the left. -/
def gainTop (g : ℕ) (k : Bool) (n : Fin 4) : BitVec g := (r.gain k n).extractLsb' (32 - g) g

/-- The calibration ports of `cmp_position_calc`: port `chN` is given register `chN`. -/
def calib (g : ℕ) : Calib 16 g where
  swclk0 := ⟨r.offset false, r.gainTop g false⟩
  swclk1 := ⟨r.offset true, r.gainTop g true⟩

theorem calib_set (g : ℕ) (k : Bool) : (r.calib g).set k = ⟨r.offset k, r.gainTop g k⟩ := by
  cases k <;> rfl

end CalibRegs

/-- `adc_chN_swap_o`: the channels of `bpm_swap` are the ADC channels in their order. -/
def adcSwapO (x : Chans c) : Fin 4 → BitVec c
  | 0 => x.cha
  | 1 => x.chb
  | 2 => x.chc
  | 3 => x.chd

/-- What `wb_position_calc_core` exports behind `bpm_swap` in one cycle: `adc_chN_swap_o`,
`adc_tag_o` and `adc_swap_valid_o`. -/
structure Export (c : ℕ) where
  ch : Chans c
  tag : Bool
  valid : Bool

/-- What `cmp_position_calc` is given of it: the samples as `dsp_cha` to `dsp_chd`. -/
def Export.adcIn (e : Export 16) (r : CalibRegs) (g : ℕ) : AdcIn 16 16 g :=
  ⟨dspChans e.ch, e.tag, e.valid, r.calib g⟩

/-- One edge of `p_adc_offs_stage` on the exported samples. -/
def exportStep (r : CalibRegs) (s : AdcOffs 16 16 g) (e : Export 16) : AdcOffs 16 16 g :=
  adcOffsStep s (e.adcIn r g)

/-- **In the chain behind `bpm_swap` the stage runs on what is exported**. -/
theorem run_offs {R : ShiftReg d} (r : CalibRegs) (s : Chain R 16 16 g)
    (inp : ℕ → Input w d 16) (t : ℕ) :
    (run chainStep s (fun t => ⟨inp t, r.calib g⟩) t).offs =
      run (exportStep r) s.offs (fun t =>
        ⟨(run step s.swap inp t).out, (run step s.swap inp t).tag,
          (run step s.swap inp t).chValid⟩) t := by
  induction t with
  | zero => rfl
  | succ t ih =>
    rw [run_succ, run_succ, ← ih]
    simp only [chainStep, exportStep, Export.adcIn, run_swap]

/-- The multiplier to which the samples of an ADC channel are wired. -/
def dspIndex : Fin 4 → Fin 4
  | 0 => 0
  | 1 => 2
  | 2 => 1
  | 3 => 3

@[simp] theorem dspChans_dspIndex (x : Chans c) (n : Fin 4) :
    dspChans x (dspIndex n) = adcSwapO x n := by
  match n with
  | 0 | 1 | 2 | 3 => rfl

theorem run_exportStep (r : CalibRegs) (s : AdcOffs 16 16 g) (e : ℕ → Export 16) (t : ℕ) :
    run (exportStep r) s e t = run adcOffsStep s (fun t => (e t).adcIn r g) t := by
  induction t with
  | zero => rfl
  | succ t ih => rw [run_succ, run_succ, ih, exportStep]

/-- The operands of a multiplier, two cycles after an exported sample. -/
theorem mult_export (r : CalibRegs) (s : AdcOffs 16 16 g) (e : ℕ → Export 16) (t : ℕ)
    (ch : Fin 4) :
    (run (exportStep r) s e (t + 2)).mult ch =
      ⟨dspChans (e t).ch ch - r.offset (e t).tag ch, r.gainTop g (e t).tag ch, (e t).tag,
        (e t).valid⟩ := by
  rw [run_exportStep, mult_run s rfl]
  simp only [AdcIn.operands, Export.adcIn, r.calib_set, BitVec.signExtend_eq]

/-! ## Registers and samples -/

/-- The multiplier `ch` takes the exported samples of ADC channel `n`, two cycles later, less the
offset and together with the gain that the registers of channel `n` hold for their tag. -/
def ReachesOwn (r : CalibRegs) (g : ℕ) (n ch : Fin 4) : Prop :=
  ∀ (s : AdcOffs 16 16 g) (e : ℕ → Export 16) (t : ℕ),
    ((run (exportStep r) s e (t + 2)).mult ch).a = adcSwapO (e t).ch n - r.offset (e t).tag n ∧
      ((run (exportStep r) s e (t + 2)).mult ch).b = r.gainTop g (e t).tag n

/-- The channel numbers as samples. -/
def numbered : Chans 16 := ⟨0, 1, 2, 3⟩

theorem eq_dspIndex {n ch : Fin 4} (h : dspChans numbered ch = adcSwapO numbered n) :
    ch = dspIndex n := by
  revert n ch
  decide

/-- A multiplier with arbitrary contents. -/
def AdcOffs.idle : AdcOffs c o g :=
  ⟨fun _ => 0, fun _ => 0, false, false, fun _ => 0, false, false, fun _ => 0⟩

/-- The samples of a channel reach the multiplier they are wired to, and no other; they meet their
own registers if the registers of both numbers agree. -/
theorem reachesOwn_iff_wired {r : CalibRegs} {n ch : Fin 4} :
    ReachesOwn r g n ch ↔ ch = dspIndex n ∧
      ∀ k, r.offset k ch = r.offset k n ∧ r.gainTop g k ch = r.gainTop g k n := by
  constructor
  · intro h
    have hall : ∀ x k, dspChans x ch - r.offset k ch = adcSwapO x n - r.offset k n ∧
        r.gainTop g k ch = r.gainTop g k n := by
      intro x k
      simpa only [mult_export] using h AdcOffs.idle (fun _ => ⟨x, k, true⟩) 0
    -- samples that are all zero show the offsets
    have hoff : ∀ k, r.offset k ch = r.offset k n := by
      intro k
      have hz := (hall ⟨0, 0, 0, 0⟩ k).1
      have hd : dspChans (⟨0, 0, 0, 0⟩ : Chans 16) ch = 0 := by
        match ch with
        | 0 | 1 | 2 | 3 => rfl
      have ha : adcSwapO (⟨0, 0, 0, 0⟩ : Chans 16) n = 0 := by
        match n with
        | 0 | 1 | 2 | 3 => rfl
      rw [hd, ha] at hz
      simpa using hz
    -- samples that are all different show the wiring
    have hwire := (hall numbered false).1
    rw [hoff false, BitVec.sub_left_inj] at hwire
    exact ⟨eq_dspIndex hwire, fun k => ⟨hoff k, (hall numbered k).2⟩⟩
  · rintro ⟨rfl, hregs⟩ s e t
    simp only [mult_export, dspChans_dspIndex, (hregs _).1, (hregs _).2, and_self]

/-- **The calibration registers of every channel reach their own samples**, each in exactly one
multiplier, exactly when the registers of the ADC channels 1 and 2 hold the same offsets and the
same used bits of the gains. -/
theorem reachesOwn_iff (r : CalibRegs) (g : ℕ) :
    (∀ n, ∃! ch, ReachesOwn r g n ch) ↔
      ∀ k, r.offset k 1 = r.offset k 2 ∧ r.gainTop g k 1 = r.gainTop g k 2 := by
  constructor
  · intro h k
    obtain ⟨ch, hch, -⟩ := h 1
    obtain ⟨rfl, hregs⟩ := reachesOwn_iff_wired.mp hch
    exact ⟨(hregs k).1.symm, (hregs k).2.symm⟩
  · intro h n
    refine ⟨dspIndex n, reachesOwn_iff_wired.mpr ⟨rfl, fun k => ?_⟩,
      fun ch hch => (reachesOwn_iff_wired.mp hch).1⟩
    match n with
    | 0 | 3 => exact ⟨rfl, rfl⟩
    | 1 => exact ⟨(h k).1.symm, (h k).2.symm⟩
    | 2 => exact h k

/-- Gains of one half for all channels, but a quarter for ADC channel 1. -/
def oneTrimmed : CalibRegs where
  gain _ n := if n = 1 then 0x20000000 else 0x40000000
  offset _ _ := 0

/-- **The gain of another channel**: the sample of ADC channel 1 enters multiplier 2 with the gain
register of ADC channel 2, and no multiplier takes it with its own. -/
theorem oneTrimmed_other_gain :
    (run (exportStep oneTrimmed) AdcOffs.idle (fun _ => ⟨numbered, false, true⟩) 2).mult 2 =
        ⟨adcSwapO numbered 1, oneTrimmed.gainTop 25 false 2, false, true⟩ ∧
      oneTrimmed.gainTop 25 false 2 ≠ oneTrimmed.gainTop 25 false 1 ∧
      ¬ ∃ ch, ReachesOwn oneTrimmed 25 1 ch := by
  refine ⟨by decide, by decide, ?_⟩
  rintro ⟨ch, h⟩
  obtain ⟨rfl, hregs⟩ := reachesOwn_iff_wired.mp h
  exact absurd (hregs false).2 (by decide)

end PositionCalc
