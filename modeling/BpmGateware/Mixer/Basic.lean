import BpmGateware.Clocked.Component

/-!
# The mixer

`mixer`: every valid sample is multiplied by the next point of a cosine table and of a sine table.
`lut_sweep` counts the valid samples modulo the number of points `N`, `fixed_dds` reads the tables
at its address, and the sample, its tag and its valid travel beside it through pipelines of their
own. The tables, the pipelines and the multipliers are known by their behaviour.

The pipelines of the valid and of the tag have width `1`, so a tag is one bit.

## Main definitions

* `LutSweep`, `lutSweepStep`: `lut_sweep`
* `FixedDds`, `fixedDdsStep`: `fixed_dds`
* `State`, `step`: `mixer`; `State.multIIn`, `State.multQIn`: the ports of its multipliers
-/

namespace Mixer

open Clocked

/-! ## The sweep -/

/-- The registers of `lut_sweep`. -/
structure LutSweep (b : ℕ) where
  /-- `v_sample_idx`, initially the last point -/
  vSampleIdx : ℕ
  address : BitVec b
  valid : Bool

/-- What `lut_sweep` and `fixed_dds` sample at one edge. -/
structure DdsIn where
  rst : Bool
  ce : Bool
  valid : Bool
  tag : Bool

variable {b : ℕ}

/-- `v_sample_idx` of one edge out of reset. It is a variable: the address of the same edge is
already the new one. -/
def nextIdx (N idx : ℕ) (valid : Bool) : ℕ :=
  if valid then if idx = N - 1 then 0 else idx + 1 else idx

/-- One edge of `lut_sweep`; the reset leaves the address. -/
def lutSweepStep (N : ℕ) (s : LutSweep b) (i : DdsIn) : LutSweep b :=
  if i.rst then { s with vSampleIdx := N - 1, valid := false }
  else if i.ce then
    { vSampleIdx := nextIdx N s.vSampleIdx i.valid
      address := BitVec.ofNat b (nextIdx N s.vSampleIdx i.valid)
      valid := i.valid }
  else s

/-! ## The tables -/

/-- The cores of a mixer. -/
structure Parts (b c w r l : ℕ) where
  /-- `dds_sin_lut`, `dds_cos_lut` -/
  sinLut : Rom b w
  cosLut : Rom b w
  /-- `cmp_pipeline_valid` -/
  pipeValid : Pipe Bool 1
  /-- `cmp_pipeline_tag` -/
  pipeTag : Pipe Bool 2
  /-- `cmp_pipeline_signal` -/
  pipeSignal : Pipe (BitVec c) 2
  /-- `generic_multiplier` -/
  mult : Multiplier c w r l

variable {c w r l : ℕ} (P : Parts b c w r l)

/-- The registers of `fixed_dds`. -/
structure FixedDds where
  sweep : LutSweep b
  sinLut : P.sinLut.State
  cosLut : P.cosLut.State
  pipeValid : P.pipeValid.State
  pipeTag : P.pipeTag.State

variable {P}

/-- One edge of `fixed_dds`. The tables have neither enable nor reset, the pipelines no reset. -/
def fixedDdsStep (N : ℕ) (s : FixedDds P) (i : DdsIn) : FixedDds P where
  sweep := lutSweepStep N s.sweep i
  sinLut := P.sinLut.step s.sinLut s.sweep.address
  cosLut := P.cosLut.step s.cosLut s.sweep.address
  pipeValid := P.pipeValid.step s.pipeValid ⟨i.ce, s.sweep.valid⟩
  pipeTag := P.pipeTag.step s.pipeTag ⟨i.ce, i.tag⟩

/-! ## The mixer -/

/-- What `mixer` samples at one edge. -/
structure Input (c : ℕ) extends DdsIn where
  signal : BitVec c

variable (P)

/-- The registers of `mixer`. -/
structure State where
  dds : FixedDds P
  pipeSignal : P.pipeSignal.State
  /-- `cmp_mult_i`, `cmp_mult_q` -/
  multI : P.mult.State
  multQ : P.mult.State

variable {P}

/-- `signal_d2` -/
def State.signalD2 (s : State P) : BitVec c := P.pipeSignal.q s.pipeSignal

/-- `fixed_dds_valid` -/
def State.fixedDdsValid (s : State P) : Bool := P.pipeValid.q s.dds.pipeValid

/-- `fixed_dds_tag` -/
def State.fixedDdsTag (s : State P) : Bool := P.pipeTag.q s.dds.pipeTag

/-- `cos` -/
def State.cos (s : State P) : BitVec w := P.cosLut.dout s.dds.cosLut

/-- `sin` -/
def State.sin (s : State P) : BitVec w := P.sinLut.dout s.dds.sinLut

/-- The ports of `cmp_mult_i`. -/
def State.multIIn (s : State P) (i : Input c) : MultiplierIn c w :=
  ⟨i.rst, i.ce, s.signalD2, s.cos, s.fixedDdsTag, s.fixedDdsValid⟩

/-- The ports of `cmp_mult_q`. -/
def State.multQIn (s : State P) (i : Input c) : MultiplierIn c w :=
  ⟨i.rst, i.ce, s.signalD2, s.sin, s.fixedDdsTag, s.fixedDdsValid⟩

/-- **One edge of `mixer`**. -/
def step (N : ℕ) (s : State P) (i : Input c) : State P where
  dds := fixedDdsStep N s.dds i.toDdsIn
  pipeSignal := P.pipeSignal.step s.pipeSignal ⟨i.ce, i.signal⟩
  multI := P.mult.step s.multI (s.multIIn i)
  multQ := P.mult.step s.multQ (s.multQIn i)

/-- `i_o` -/
def State.iO (s : State P) : BitVec r := P.mult.p s.multI

/-- `q_o` -/
def State.qO (s : State P) : BitVec r := P.mult.p s.multQ

/-- `valid_o`: the valid of `cmp_mult_i`. -/
def State.validO (s : State P) : Bool := P.mult.valid s.multI

/-- `i_tag_o` -/
def State.iTagO (s : State P) : Bool := P.mult.tag s.multI

/-- `q_tag_o` -/
def State.qTagO (s : State P) : Bool := P.mult.tag s.multQ

end Mixer
