import BpmGateware.Clocked.Component

/-!
# Channel switching

`bpm_swap`: a generator `swap_freqgen` divides the clock into the switching clock `clk_swap`,
`swmode_sel` turns it into the swap command of the RF front end and the deswap command of the
digital side according to the mode, and two `deswap_channels` exchange the channel pairs back, a
programmable number of cycles later. The shift register `gc_shiftreg` in between is an instance of
`Clocked.ShiftReg`.

## Main definitions

* `Freq`, `freqStep`: the divider registers and the counter, `p_reg_swap_div` and `p_freq_swap`
* `selSwap`, `selDeswap`: `p_swap_mode` of `swmode_sel`
* `SwapGen`, `genStep`: `swap_freqgen`
* `DeswapChannels`, `deswapStep`: `deswap_channels`
* `State`, `step`: `bpm_swap`; `State.out`, `State.tag`, `State.rffeSwclk`: its outputs
-/

namespace BpmSwap

open Clocked

/-- `t_swap_mode`, from `"00"` to `"11"`. -/
inductive SwapMode
  | rffeSwap
  | staticDirect
  | staticInverted
  | swapDeswap
  deriving DecidableEq, Repr

/-! ## The divider -/

/-- The registers of `p_freq_swap`. -/
structure Phase where
  count : ℕ
  clkSwap : Bool
  synchPending : Bool
  deriving DecidableEq, Repr

/-- The registers of `p_freq_swap` and `p_reg_swap_div`. -/
structure Freq where
  phase : Phase
  cnstSwapDivF : ℕ
  cnstSwapDivFOld : ℕ
  deriving DecidableEq, Repr

/-- What the divider samples at one edge. -/
structure FreqIn (w : ℕ) where
  rstN : Bool
  en : Bool
  syncTrig : Bool
  swapDivF : BitVec w
  cntEn : Bool

variable {w d c : ℕ}

/-- The registers after a reset. -/
def Freq.reset : Freq := ⟨⟨0, true, false⟩, 0, 0⟩

/-- The state in which `sync_trig_i` is dropped: the last count of the high half period. -/
def Freq.Drops (s : Freq) : Prop := s.phase.count = s.cnstSwapDivF ∧ s.phase.clkSwap = true

instance (s : Freq) : Decidable s.Drops := inferInstanceAs (Decidable (_ ∧ _))

/-- The counter part of `p_freq_swap`, up to the last `if`. -/
def Freq.advance (s : Freq) (i : FreqIn w) : Phase :=
  if i.en = false then s.phase
  -- a new divider period restarts the count, without serving a pending trigger
  else if s.cnstSwapDivF ≠ s.cnstSwapDivFOld then { s.phase with count := 0, clkSwap := true }
  else if i.cntEn = false then s.phase
  else if s.phase.synchPending then ⟨0, true, false⟩
  else if s.phase.count = s.cnstSwapDivF then
    { s.phase with count := 0, clkSwap := !s.phase.clkSwap }
  else { s.phase with count := s.phase.count + 1 }

/-- **One edge of the divider**. `swap_div_f_i` is at least one: zero would leave the range of
`cnst_swap_div_f`. The trigger is looked at last, so it wins over its own service. -/
def freqStep (s : Freq) (i : FreqIn w) : Freq :=
  if i.rstN = false then Freq.reset
  else
    { phase :=
        -- both conditions read the registers before the edge
        if i.syncTrig = true ∧ ¬ s.Drops then { s.advance i with synchPending := true }
        else s.advance i
      cnstSwapDivFOld := if i.en then i.swapDivF.toNat - 1 else s.cnstSwapDivFOld
      cnstSwapDivF := if i.en then s.cnstSwapDivFOld else s.cnstSwapDivF }

/-! ## The mode selector -/

/-- `swap` in `p_swap_mode`. -/
def selSwap (mode : SwapMode) (clkSwap : Bool) : Bool :=
  match mode with
  | .swapDeswap => clkSwap
  | .staticDirect => false
  | .staticInverted => true
  | .rffeSwap => clkSwap

/-- `deswap` in `p_swap_mode`. -/
def selDeswap (mode : SwapMode) (clkSwap : Bool) : Bool :=
  match mode with
  | .swapDeswap => clkSwap
  | .staticDirect => false
  | .staticInverted => false
  | .rffeSwap => false

/-! ## The generator -/

/-- What `swap_freqgen` samples at one edge. -/
structure GenIn (w d : ℕ) extends FreqIn w where
  swapMode : SwapMode
  deswapDelay : BitVec d

variable (R : ShiftReg d)

/-- The registers of `swap_freqgen`. -/
structure SwapGen where
  freq : Freq
  /-- the registers of `swmode_sel` -/
  swap : Bool
  deswap : Bool
  shift : R.State

variable {R}

/-- One edge of `swap_freqgen`. -/
def genStep (s : SwapGen R) (i : GenIn w d) : SwapGen R where
  freq := freqStep s.freq i.toFreqIn
  swap := i.rstN && selSwap i.swapMode s.freq.phase.clkSwap
  deswap := i.rstN && selDeswap i.swapMode s.freq.phase.clkSwap
  shift := R.step s.shift s.deswap

/-! ## The channels -/

/-- The registers of `deswap_channels`. -/
structure DeswapChannels (c : ℕ) where
  ch1 : BitVec c
  ch2 : BitVec c
  chValid : Bool
  deswap : Bool

/-- What `deswap_channels` samples at one edge. -/
structure DeswapIn (c : ℕ) where
  rstN : Bool
  deswap : Bool
  ch1 : BitVec c
  ch2 : BitVec c
  chValid : Bool

/-- One edge of `deswap_channels`; the reset leaves `deswap_o`. -/
def deswapStep (s : DeswapChannels c) (i : DeswapIn c) : DeswapChannels c :=
  if i.rstN = false then { s with ch1 := 0, ch2 := 0, chValid := false }
  else if i.chValid = false then { s with chValid := false }
  else
    { ch1 := if i.deswap then i.ch2 else i.ch1
      ch2 := if i.deswap then i.ch1 else i.ch2
      chValid := true
      deswap := i.deswap }

/-- One word on each of the four channels. -/
structure Chans (c : ℕ) where
  cha : BitVec c
  chb : BitVec c
  chc : BitVec c
  chd : BitVec c
  deriving DecidableEq, Repr

/-- The two crossed pairs of the front end. -/
def Chans.exchange (x : Chans c) : Chans c := ⟨x.chb, x.cha, x.chd, x.chc⟩

/-! ## The switching core -/

/-- The inputs of `bpm_swap` at one edge; `en_i` of the generator is left at its default. -/
structure Input (w d c : ℕ) where
  rstN : Bool
  syncTrig : Bool
  swapMode : SwapMode
  swapDivF : BitVec w
  cntEn : Bool
  deswapDelay : BitVec d
  ch : Chans c
  chValid : Bool

/-- The ports of `cmp_swap_freqgen`. -/
def Input.gen (i : Input w d c) : GenIn w d where
  rstN := i.rstN
  en := true
  syncTrig := i.syncTrig
  swapDivF := i.swapDivF
  cntEn := i.cntEn
  swapMode := i.swapMode
  deswapDelay := i.deswapDelay

/-- The registers of `bpm_swap`. -/
structure State (R : ShiftReg d) (c : ℕ) where
  gen : SwapGen R
  /-- `cmp_deswap_ac_channels`, `cmp_deswap_bd_channels` -/
  ac : DeswapChannels c
  bd : DeswapChannels c

/-- `deswap_o` of the generator, at the delay that is set. -/
def State.deswapO (s : State R c) (i : Input w d c) : Bool := R.q s.gen.shift i.deswapDelay

/-- **One edge of `bpm_swap`**. -/
def step (s : State R c) (i : Input w d c) : State R c where
  gen := genStep s.gen i.gen
  ac := deswapStep s.ac ⟨i.rstN, s.deswapO i, i.ch.cha, i.ch.chb, i.chValid⟩
  bd := deswapStep s.bd ⟨i.rstN, s.deswapO i, i.ch.chc, i.ch.chd, i.chValid⟩

/-- `cha_o`, `chb_o`, `chc_o`, `chd_o` -/
def State.out (s : State R c) : Chans c := ⟨s.ac.ch1, s.ac.ch2, s.bd.ch1, s.bd.ch2⟩

/-- `ch_tag_o(0)` -/
def State.tag (s : State R c) : Bool := s.ac.deswap

/-- `ch_valid_o` -/
def State.chValid (s : State R c) : Bool := s.ac.chValid

/-- `rffe_swclk_o`: high in the direct path, low in the inverted path. -/
def State.rffeSwclk (s : State R c) : Bool := !s.gen.swap

end BpmSwap
